import Draht.TextSearch
import Draht.Utf16

/-!
# Thinking budgets

How many tokens an Anthropic request allows, and how many of them are for thinking.
-/

namespace Draht.ThinkingBudget

inductive ThinkingLevel where
  | minimal | low | medium | high | xhigh | max
deriving DecidableEq

/-- Budgets by level; `xhigh` and `max` have none. -/
structure ThinkingBudgets where
  minimal : Option ℤ
  low : Option ℤ
  medium : Option ℤ
  high : Option ℤ
deriving DecidableEq

structure Model where
  id : JsText
  reasoning : Bool
  maxTokens : ℤ
deriving DecidableEq

structure SimpleStreamOptions where
  maxTokens : Option ℤ
  reasoning : Option ThinkingLevel
  thinkingBudgets : Option ThinkingBudgets
deriving DecidableEq

inductive AnthropicEffort where
  | low | medium | high | max
deriving DecidableEq

structure AnthropicOptions where
  maxTokens : Option ℤ
  thinkingEnabled : Option Bool
  thinkingBudgetTokens : Option ℤ
  effort : Option AnthropicEffort
deriving DecidableEq

inductive ThinkingParam where
  | adaptive
  | enabled (budgetTokens : ℤ)
  | disabled
deriving DecidableEq

/-- The fields of a request that the token counts go to. -/
structure MessageCreateParams where
  maxTokens : ℤ
  thinking : Option ThinkingParam
  effort : Option AnthropicEffort
deriving DecidableEq

/-- `value || other`. -/
def orDefault (value : Option ℤ) (other : ℤ) : ℤ :=
  match value with
  | some n => if n = 0 then other else n
  | none => other

def includes (text : JsText) (pattern : String) : Bool := (indexOf? (utf16 pattern) text).isSome

def supportsAdaptiveThinking (modelId : JsText) : Bool :=
  includes modelId "opus-4-6" || includes modelId "opus-4.6" || includes modelId "sonnet-4-6" ||
    includes modelId "sonnet-4.6"

def supportsMax (modelId : JsText) : Bool :=
  includes modelId "opus-4-6" || includes modelId "opus-4.6" || includes modelId "opus-4-7" ||
    includes modelId "opus-4.7"

def mapThinkingLevelToEffort (level : ThinkingLevel) (modelId : JsText) : AnthropicEffort :=
  match level with
  | .minimal | .low => .low
  | .medium => .medium
  | .high => .high
  | .xhigh | .max => if supportsMax modelId then .max else .high

/-- The fields of `buildBaseOptions` that a request is built from here. -/
def baseMaxTokens (model : Model) (options : SimpleStreamOptions) : ℤ :=
  orDefault options.maxTokens (min model.maxTokens 32000)

/-- The budget of a level after `clampReasoning`. -/
def ThinkingBudgets.get? (budgets : ThinkingBudgets) : ThinkingLevel → Option ℤ
  | .minimal => budgets.minimal
  | .low => budgets.low
  | .medium => budgets.medium
  | .high | .xhigh | .max => budgets.high

def defaultBudgets : ThinkingLevel → ℤ
  | .minimal => 1024
  | .low => 2048
  | .medium => 8192
  | .high | .xhigh | .max => 16384

/-- `{ ...defaultBudgets, ...customBudgets }[level]`. -/
def budgetOf (customBudgets : Option ThinkingBudgets) (level : ThinkingLevel) : ℤ :=
  (customBudgets.bind (·.get? level)).getD (defaultBudgets level)

def minOutputTokens : ℤ := 1024

structure Adjusted where
  maxTokens : ℤ
  thinkingBudget : ℤ
deriving DecidableEq

def adjustMaxTokensForThinking (baseMaxTokens modelMaxTokens : ℤ) (reasoningLevel : ThinkingLevel)
    (customBudgets : Option ThinkingBudgets) : Adjusted :=
  let thinkingBudget := budgetOf customBudgets reasoningLevel
  let maxTokens := min (baseMaxTokens + thinkingBudget) modelMaxTokens
  if maxTokens ≤ thinkingBudget then ⟨maxTokens, max 0 (maxTokens - minOutputTokens)⟩
  else ⟨maxTokens, thinkingBudget⟩

/-- What `streamSimpleAnthropic` passes on. -/
def simpleAnthropicOptions (model : Model) (options : SimpleStreamOptions) : AnthropicOptions :=
  let base := baseMaxTokens model options
  match options.reasoning with
  | none =>
    { maxTokens := some base, thinkingEnabled := some false, thinkingBudgetTokens := none
      effort := none }
  | some level =>
    if supportsAdaptiveThinking model.id then
      { maxTokens := some base, thinkingEnabled := some true, thinkingBudgetTokens := none
        effort := some (mapThinkingLevelToEffort level model.id) }
    else
      let adjusted := adjustMaxTokensForThinking (orDefault (some base) 0) model.maxTokens level
        options.thinkingBudgets
      { maxTokens := some adjusted.maxTokens, thinkingEnabled := some true
        thinkingBudgetTokens := some adjusted.thinkingBudget, effort := none }

/-- `(n / 3) | 0`, a 32-bit integer. -/
def thirdOf (n : ℤ) : ℤ := (n.tdiv 3).bmod 0x100000000

def buildParams (model : Model) (options : AnthropicOptions) : MessageCreateParams :=
  let thinking :=
    if model.reasoning then
      match options.thinkingEnabled with
      | some true =>
        if supportsAdaptiveThinking model.id then some .adaptive
        else some (.enabled (orDefault options.thinkingBudgetTokens 1024))
      | some false => some .disabled
      | none => none
    else none
  { maxTokens := orDefault options.maxTokens (thirdOf model.maxTokens)
    thinking
    effort := if thinking = some .adaptive then options.effort else none }

/-- What a request with a budget is to keep of what was asked for. -/
structure KeepsBudget (modelMaxTokens adjustedBudget : ℤ) (request : MessageCreateParams) :
    Prop where
  max : request.maxTokens ≤ modelMaxTokens
  budget : request.thinking = some (.enabled adjustedBudget)
  below : adjustedBudget < request.maxTokens
  output : min minOutputTokens (modelMaxTokens - 1) ≤ request.maxTokens - adjustedBudget

/-- Where the budget fits, `minOutputTokens` are left beside it; where it does not, the model allows
more than these. -/
def Fits (baseMaxTokens modelMaxTokens thinkingBudget : ℤ) : Prop :=
  if thinkingBudget < modelMaxTokens then
    min minOutputTokens (modelMaxTokens - 1) ≤ min baseMaxTokens (modelMaxTokens - thinkingBudget)
  else minOutputTokens < modelMaxTokens

instance (baseMaxTokens modelMaxTokens thinkingBudget : ℤ) :
    Decidable (Fits baseMaxTokens modelMaxTokens thinkingBudget) :=
  inferInstanceAs (Decidable (if thinkingBudget < modelMaxTokens then
    min minOutputTokens (modelMaxTokens - 1) ≤ min baseMaxTokens (modelMaxTokens - thinkingBudget)
    else minOutputTokens < modelMaxTokens))

theorem orDefault_of_ne {n : ℤ} (h : n ≠ 0) (other : ℤ) : orDefault (some n) other = n := by
  simp [orDefault, h]

theorem orDefault_pos {value : Option ℤ} {other : ℤ} (hvalue : ∀ n, value = some n → 0 < n)
    (hother : 0 < other) : 0 < orDefault value other := by
  cases value with
  | none => exact hother
  | some n =>
    have hn := hvalue n rfl
    rwa [orDefault_of_ne (by omega)]

theorem defaultBudgets_pos (level : ThinkingLevel) : 0 < defaultBudgets level := by
  cases level <;> decide

/-- Every number that is given is positive. -/
structure Positive (model : Model) (options : SimpleStreamOptions) : Prop where
  model : 0 < model.maxTokens
  base : ∀ n, options.maxTokens = some n → 0 < n
  budgets : ∀ budgets level n, options.thinkingBudgets = some budgets →
    budgets.get? level = some n → 0 < n

variable {model : Model} {options : SimpleStreamOptions} {level : ThinkingLevel}

theorem Positive.baseMaxTokens (h : Positive model options) : 0 < baseMaxTokens model options := by
  have hmodel := h.model
  exact orDefault_pos h.base (by omega)

theorem Positive.budgetOf (h : Positive model options) (level : ThinkingLevel) :
    0 < budgetOf options.thinkingBudgets level := by
  unfold ThinkingBudget.budgetOf
  cases hcustom : options.thinkingBudgets.bind (·.get? level) with
  | none => exact defaultBudgets_pos level
  | some n =>
    obtain ⟨budgets, hbudgets, hn⟩ := Option.bind_eq_some_iff.mp hcustom
    exact h.budgets budgets level n hbudgets hn

variable {custom : Option ThinkingBudgets}

theorem adjust_of_lt {base max : ℤ} (hbase : 0 < base) (h : budgetOf custom level < max) :
    adjustMaxTokensForThinking base max level custom =
      ⟨min (base + budgetOf custom level) max, budgetOf custom level⟩ := by
  unfold adjustMaxTokensForThinking
  rw [if_neg (by omega)]

theorem adjust_of_le {base max : ℤ} (hbase : 0 < base) (h : max ≤ budgetOf custom level) :
    adjustMaxTokensForThinking base max level custom =
      ⟨max, Max.max 0 (max - minOutputTokens)⟩ := by
  have hmin : min (base + budgetOf custom level) max = max := by omega
  unfold adjustMaxTokensForThinking
  dsimp only
  rw [hmin, if_pos h]

theorem buildParams_of_budget (hreasoning : model.reasoning = true)
    (hadaptive : supportsAdaptiveThinking model.id = false)
    (hlevel : options.reasoning = some level) (hpositive : Positive model options) :
    let adjusted := adjustMaxTokensForThinking (baseMaxTokens model options) model.maxTokens level
      options.thinkingBudgets
    buildParams model (simpleAnthropicOptions model options) =
      { maxTokens := orDefault (some adjusted.maxTokens) (thirdOf model.maxTokens)
        thinking := some (.enabled (orDefault (some adjusted.thinkingBudget) 1024))
        effort := none } := by
  have hbase : orDefault (some (baseMaxTokens model options)) 0 = baseMaxTokens model options :=
    orDefault_of_ne (Int.ne_of_gt hpositive.baseMaxTokens) 0
  simp [buildParams, simpleAnthropicOptions, hreasoning, hadaptive, hlevel, hbase]

/-- A request keeps what was asked for exactly when the budget fits. -/
theorem keepsBudget_iff (model : Model) (options : SimpleStreamOptions) (level : ThinkingLevel)
    (hreasoning : model.reasoning = true) (hadaptive : supportsAdaptiveThinking model.id = false)
    (hlevel : options.reasoning = some level) (hpositive : Positive model options) :
    KeepsBudget model.maxTokens
        (adjustMaxTokensForThinking (baseMaxTokens model options) model.maxTokens level
          options.thinkingBudgets).thinkingBudget
        (buildParams model (simpleAnthropicOptions model options)) ↔
      Fits (baseMaxTokens model options) model.maxTokens
        (budgetOf options.thinkingBudgets level) := by
  have hbase := hpositive.baseMaxTokens
  have hbudget := hpositive.budgetOf level
  have hmodel := hpositive.model
  rw [buildParams_of_budget hreasoning hadaptive hlevel hpositive]
  unfold Fits
  split_ifs with hfits
  · rw [adjust_of_lt hbase hfits]
    dsimp only
    rw [orDefault_of_ne (by omega), orDefault_of_ne (by omega)]
    constructor
    · intro h
      have houtput := h.output
      simp only [minOutputTokens] at houtput ⊢
      omega
    · intro h
      simp only [minOutputTokens] at h
      refine ⟨?_, rfl, ?_, ?_⟩
      · dsimp only
        omega
      · dsimp only
        omega
      · simp only [minOutputTokens]
        omega
  · rw [adjust_of_le hbase (by omega)]
    rw [orDefault_of_ne (by omega : model.maxTokens ≠ 0)]
    simp only [minOutputTokens]
    constructor
    · intro h
      by_contra hle
      have hzero : max 0 (model.maxTokens - 1024) = 0 := by omega
      have hreplaced := h.budget
      simp [hzero, orDefault] at hreplaced
    · intro h
      rw [orDefault_of_ne (by omega)]
      refine ⟨?_, rfl, ?_, ?_⟩
      · dsimp only
        omega
      · dsimp only
        omega
      · simp only [minOutputTokens]
        omega

def smallModel : Model := ⟨utf16 "small", true, 1000⟩

def mediumEffort : SimpleStreamOptions := ⟨none, some .medium, none⟩

def largeModel : Model := ⟨utf16 "large", true, 64000⟩

theorem positive_default {model : Model} (h : 0 < model.maxTokens) : Positive model mediumEffort :=
  ⟨h, nofun, nofun⟩

theorem keepsBudget_iff_largeModel :
    KeepsBudget 64000 8192
      (buildParams largeModel (simpleAnthropicOptions largeModel mediumEffort)) :=
  (keepsBudget_iff largeModel mediumEffort .medium rfl (by decide) rfl
    (positive_default (by decide))).mpr (by decide)

/-- The budget comes to nothing, and is replaced by one that is larger than the maximum. -/
theorem smallModel_not_keepsBudget :
    ¬ ∀ (model : Model) (options : SimpleStreamOptions) (level : ThinkingLevel),
      model.reasoning = true → supportsAdaptiveThinking model.id = false →
      options.reasoning = some level → Positive model options →
      KeepsBudget model.maxTokens
        (adjustMaxTokensForThinking (baseMaxTokens model options) model.maxTokens level
          options.thinkingBudgets).thinkingBudget
        (buildParams model (simpleAnthropicOptions model options)) := by
  intro hclaim
  have hkeeps := (hclaim smallModel mediumEffort .medium rfl (by decide) rfl
    (positive_default (by decide))).budget
  revert hkeeps
  decide

end Draht.ThinkingBudget
