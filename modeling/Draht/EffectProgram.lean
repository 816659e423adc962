import Mathlib.Logic.Relation

/-!
# Programs with effects that run among others

A program performs one effect after another; each effect is answered from outside, by a
value or by a thrown error. Between two effects the others that share its world may act.
`Safe` is the weakest precondition of a program: an invariant at every point of every run,
and a postcondition for each way to end. `Triple` is the rule form that proofs use.
-/

namespace Draht
open Option

/-- A program over the effects `Op`. `diverge` is a program that makes no further step. -/
inductive Program (Op : Type) (Ans : Op → Type) (ε α : Type) where
  | pure (a : α)
  | throw (e : ε)
  | perform (op : Op) (next : Except ε (Ans op) → Program Op Ans ε α)
  | diverge

namespace Program

variable {Op : Type} {Ans : Op → Type} {ε α β : Type}

def bind : Program Op Ans ε α → (α → Program Op Ans ε β) → Program Op Ans ε β
  | pure a, f => f a
  | throw e, _ => throw e
  | perform op next, f => perform op (fun r => (next r).bind f)
  | diverge, _ => diverge

def tryCatch : Program Op Ans ε α → (ε → Program Op Ans ε α) → Program Op Ans ε α
  | pure a, _ => pure a
  | throw e, handler => handler e
  | perform op next, handler => perform op (fun r => (next r).tryCatch handler)
  | diverge, _ => diverge

/-- `try p finally q`: `q` runs however `p` ends. -/
def andFinally (p : Program Op Ans ε α) (q : Program Op Ans ε Unit) : Program Op Ans ε α :=
  (p.tryCatch (fun e => q.bind (fun _ => throw e))).bind (fun a => q.bind (fun _ => pure a))

def returned : Program Op Ans ε α → Bool
  | pure _ => true
  | _ => false

def ofExcept : Except ε α → Program Op Ans ε α
  | .ok a => pure a
  | .error e => throw e

def effect (op : Op) : Program Op Ans ε (Ans op) := perform op ofExcept

instance : Monad (Program Op Ans ε) where
  pure := Program.pure
  bind := Program.bind

/-- Every effect that the program may perform satisfies `φ`. -/
def Performs (φ : Op → Prop) : Program Op Ans ε α → Prop
  | pure _ => True
  | throw _ => True
  | perform op next => φ op ∧ ∀ r, Performs φ (next r)
  | diverge => True

section Performs

variable {φ : Op → Prop}

variable {p : Program Op Ans ε α}

theorem Performs.bind {f : α → Program Op Ans ε β} (hp : p.Performs φ) (hf : ∀ a, (f a).Performs φ) :
    (p >>= f).Performs φ := by
  induction p with
  | pure a => exact hf a
  | throw e => trivial
  | perform op next ih => exact ⟨hp.1, fun r => ih r (hp.2 r)⟩
  | diverge => trivial

theorem Performs.tryCatch {handler : ε → Program Op Ans ε α} (hp : p.Performs φ)
    (hh : ∀ e, (handler e).Performs φ) : (p.tryCatch handler).Performs φ := by
  induction p with
  | pure a => trivial
  | throw e => exact hh e
  | perform op next ih => exact ⟨hp.1, fun r => ih r (hp.2 r)⟩
  | diverge => trivial

theorem Performs.pure (a : α) : (Pure.pure a : Program Op Ans ε α).Performs φ := trivial

theorem Performs.ofExcept (r : Except ε α) : (ofExcept r : Program Op Ans ε α).Performs φ := by
  cases r <;> trivial

theorem Performs.effect {op : Op} (h : φ op) : (effect op : Program Op Ans ε (Ans op)).Performs φ :=
  ⟨h, fun r => Performs.ofExcept r⟩

end Performs

end Program

/-- How a world answers effects, and what the others can do to it. An answer depends on a
choice made outside; `none` means that the choice or the action is not possible now. -/
structure Machine (Op : Type) (Ans : Op → Type) (ε W : Type) where
  Choice : Type
  respond : (op : Op) → W → Choice → Option (Except ε (Ans op) × W)
  Action : Type
  act : Action → W → Option W

/-- The choices and actions that the runs under consideration may contain. -/
structure Rules {Op : Type} {Ans : Op → Type} {ε W : Type} (M : Machine Op Ans ε W) where
  choice : (op : Op) → W → M.Choice → Prop
  action : W → M.Action → Prop

/-- `R` allows no more than `R'`. -/
structure Rules.Within {Op : Type} {Ans : Op → Type} {ε W : Type} {M : Machine Op Ans ε W}
    (R R' : Rules M) : Prop where
  choice : ∀ op w c, R.choice op w c → R'.choice op w c
  action : ∀ w a, R.action w a → R'.action w a

namespace Machine

variable {Op : Type} {Ans : Op → Type} {ε W α β : Type} {M : Machine Op Ans ε W}

/-- One step of a program in its world: its next effect, or an action of the others. -/
inductive Step (R : Rules M) : Program Op Ans ε α × W → Program Op Ans ε α × W → Prop
  | perform {op : Op} {next : Except ε (Ans op) → Program Op Ans ε α} {w w' : W}
      {c : M.Choice} {r : Except ε (Ans op)} (hc : R.choice op w c)
      (h : M.respond op w c = some (r, w')) : Step R (.perform op next, w) (next r, w')
  | act {p : Program Op Ans ε α} {w w' : W} {a : M.Action} (ha : R.action w a)
      (h : M.act a w = some w') : Step R (p, w) (p, w')

def Runs (R : Rules M) :
    Program Op Ans ε α × W → Program Op Ans ε α × W → Prop :=
  Relation.ReflTransGen (Step R)

theorem Step.mono {R R' : Rules M} (hR : R.Within R') {c c' : Program Op Ans ε α × W}
    (h : Step R c c') : Step R' c c' := by
  cases h with
  | perform hc h => exact .perform (hR.choice _ _ _ hc) h
  | act ha h => exact .act (hR.action _ _ ha) h

theorem Runs.mono {R R' : Rules M} (hR : R.Within R') {c c' : Program Op Ans ε α × W}
    (h : Runs R c c') : Runs R' c c' :=
  Relation.ReflTransGen.mono (fun _ _ hstep => hstep.mono hR) _ _ h

/-- What the others do between two effects. -/
inductive Others (R : Rules M) : W → W → Prop
  | refl (w : W) : Others R w w
  | act {w w' w'' : W} {a : M.Action} (h : Others R w w') (ha : R.action w' a)
      (hact : M.act a w' = some w'') : Others R w w''

theorem Others.trans {R : Rules M} {w w' w'' : W} (h : Others R w w') (h' : Others R w' w'') :
    Others R w w'' := by
  induction h' with
  | refl => exact h
  | act _ ha hact ih => exact ih.act ha hact

/-- At every point of every run of the program the invariant `I` holds; when the program ends
`Q` holds of its value or `E` of its error, and goes on to hold while the others act. -/
def Safe (R : Rules M) (I : W → Prop) (Q : α → W → Prop) (E : ε → W → Prop) :
    Program Op Ans ε α → W → Prop
  | .pure a, w => ∀ w', Others R w w' → I w' ∧ Q a w'
  | .throw e, w => ∀ w', Others R w w' → I w' ∧ E e w'
  | .perform op next, w => ∀ w', Others R w w' → I w' ∧
      ∀ c r w'', R.choice op w' c → M.respond op w' c = some (r, w'') → Safe R I Q E (next r) w''
  | .diverge, w => ∀ w', Others R w w' → I w'

section Rules

variable {R : Rules M} {I : W → Prop} {Q : α → W → Prop} {E : ε → W → Prop}

variable {p : Program Op Ans ε α}

theorem Safe.others {w w' : W} (h : Safe R I Q E p w) (hw : Others R w w') : Safe R I Q E p w' := by
  cases p with
  | pure a => exact fun w'' hw'' => h w'' (hw.trans hw'')
  | throw e => exact fun w'' hw'' => h w'' (hw.trans hw'')
  | perform op next => exact fun w'' hw'' => h w'' (hw.trans hw'')
  | diverge => exact fun w'' hw'' => h w'' (hw.trans hw'')

theorem Safe.invariant {w : W} (h : Safe R I Q E p w) : I w := by
  cases p with
  | pure a => exact (h w (.refl w)).1
  | throw e => exact (h w (.refl w)).1
  | perform op next => exact (h w (.refl w)).1
  | diverge => exact h w (.refl w)

theorem Safe.step {c c' : Program Op Ans ε α × W} (hstep : Step R c c')
    (h : Safe R I Q E c.1 c.2) : Safe R I Q E c'.1 c'.2 := by
  cases hstep with
  | perform hc hr => exact (h _ (.refl _)).2 _ _ _ hc hr
  | act ha hact => exact h.others (.act (.refl _) ha hact)

theorem Safe.runs {c c' : Program Op Ans ε α × W} (hruns : Runs R c c')
    (h : Safe R I Q E c.1 c.2) : Safe R I Q E c'.1 c'.2 := by
  induction hruns with
  | refl => exact h
  | tail _ hstep ih => exact ih.step hstep

theorem Safe.bind {Q' : β → W → Prop} {f : α → Program Op Ans ε β} {w : W}
    (h : Safe R I (fun a w => Safe R I Q' E (f a) w) E p w) : Safe R I Q' E (p.bind f) w := by
  induction p generalizing w with
  | pure a => exact (h w (.refl w)).2
  | throw e => exact h
  | perform op next ih =>
    intro w' hw'
    refine ⟨(h w' hw').1, ?_⟩
    intro c r w'' hc hr
    exact ih r ((h w' hw').2 c r w'' hc hr)
  | diverge => exact h

theorem Safe.tryCatch {handler : ε → Program Op Ans ε α} {w : W}
    (h : Safe R I Q (fun e w => Safe R I Q E (handler e) w) p w) :
    Safe R I Q E (p.tryCatch handler) w := by
  induction p generalizing w with
  | pure a => exact h
  | throw e => exact (h w (.refl w)).2
  | perform op next ih =>
    intro w' hw'
    refine ⟨(h w' hw').1, ?_⟩
    intro c r w'' hc hr
    exact ih r ((h w' hw').2 c r w'' hc hr)
  | diverge => exact h

theorem Safe.mono {Q' : α → W → Prop} {E' : ε → W → Prop} {w : W} (h : Safe R I Q E p w)
    (hQ : ∀ a w, Q a w → Q' a w) (hE : ∀ e w, E e w → E' e w) : Safe R I Q' E' p w := by
  induction p generalizing w with
  | pure a => exact fun w' hw' => ⟨(h w' hw').1, hQ a w' (h w' hw').2⟩
  | throw e => exact fun w' hw' => ⟨(h w' hw').1, hE e w' (h w' hw').2⟩
  | perform op next ih =>
    intro w' hw'
    refine ⟨(h w' hw').1, ?_⟩
    intro c r w'' hc hr
    exact ih r ((h w' hw').2 c r w'' hc hr)
  | diverge => exact h

theorem Safe.weaken {I' : W → Prop} {w : W} (h : Safe R I Q E p w) (hI : ∀ w, I w → I' w) :
    Safe R I' Q E p w := by
  induction p generalizing w with
  | pure a => exact fun w' hw' => ⟨hI w' (h w' hw').1, (h w' hw').2⟩
  | throw e => exact fun w' hw' => ⟨hI w' (h w' hw').1, (h w' hw').2⟩
  | perform op next ih =>
    intro w' hw'
    refine ⟨hI w' (h w' hw').1, ?_⟩
    intro c r w'' hc hr
    exact ih r ((h w' hw').2 c r w'' hc hr)
  | diverge => exact fun w' hw' => hI w' (h w' hw')

end Rules

/-- An assertion that implies the invariant and that the others cannot break. -/
structure Stable (R : Rules M) (I P : W → Prop) : Prop where
  invariant : ∀ w, P w → I w
  action : ∀ w a w', P w → R.action w a → M.act a w = some w' → P w'

theorem Stable.others {R : Rules M} {I P : W → Prop} (h : Stable R I P) {w w' : W}
    (hw : Others R w w') (hP : P w) : P w' := by
  induction hw with
  | refl => exact hP
  | act _ ha hact ih => exact h.action _ _ _ ih ha hact

theorem Stable.exists {R : Rules M} {I : W → Prop} {ι : Type*} {P : ι → W → Prop}
    (h : ∀ i, Stable R I (P i)) : Stable R I (fun w => ∃ i, P i w) where
  invariant := fun w ⟨i, hi⟩ => (h i).invariant w hi
  action := fun w a w' ⟨i, hi⟩ ha hact => ⟨i, (h i).action w a w' hi ha hact⟩

theorem Stable.and_const {R : Rules M} {I P : W → Prop} (h : Stable R I P) (p : Prop) :
    Stable R I (fun w => p ∧ P w) where
  invariant := fun w hw => h.invariant w hw.2
  action := fun w a w' hw ha hact => ⟨hw.1, h.action w a w' hw.2 ha hact⟩

theorem Stable.false {R : Rules M} {I : W → Prop} : Stable R I (fun _ => False) where
  invariant := fun _ h => h.elim
  action := fun _ _ _ h => h.elim

def Triple (R : Rules M) (I P : W → Prop) (p : Program Op Ans ε α) (Q : α → W → Prop)
    (E : ε → W → Prop) : Prop :=
  ∀ w, P w → Safe R I Q E p w

section Triples

variable {R : Rules M} {I P P' : W → Prop} {Q : α → W → Prop} {E E' : ε → W → Prop}

variable {Q' : α → W → Prop} {e : ε} {a : α} {p : Program Op Ans ε α}

theorem Triple.pure (hQ : Stable R I (Q a)) (h : ∀ w, P w → Q a w) : Triple R I P (.pure a) Q E :=
  fun w hw _ hw' => ⟨hQ.invariant _ (hQ.others hw' (h w hw)), hQ.others hw' (h w hw)⟩

theorem Triple.throw (hE : Stable R I (E e)) (h : ∀ w, P w → E e w) :
    Triple R I P (.throw e : Program Op Ans ε α) Q E :=
  fun w hw _ hw' => ⟨hE.invariant _ (hE.others hw' (h w hw)), hE.others hw' (h w hw)⟩

theorem Triple.diverge (hP : Stable R I P) :
    Triple R I P (.diverge : Program Op Ans ε α) Q E :=
  fun _ hw w' hw' => hP.invariant w' (hP.others hw' hw)

theorem Triple.bind {Q' : β → W → Prop} {f : α → Program Op Ans ε β} (hp : Triple R I P p Q E)
    (hf : ∀ a, Triple R I (Q a) (f a) Q' E) : Triple R I P (p >>= f) Q' E :=
  fun w hw => ((hp w hw).mono (fun a w' => hf a w') (fun _ _ he => he)).bind

theorem Triple.tryCatch {handler : ε → Program Op Ans ε α} (hp : Triple R I P p Q E)
    (hh : ∀ e, Triple R I (E e) (handler e) Q E') : Triple R I P (p.tryCatch handler) Q E' :=
  fun w hw => ((hp w hw).mono (fun _ _ hq => hq) (fun e w' => hh e w')).tryCatch

theorem Triple.conseq (hp : Triple R I P' p Q E) (hP : ∀ w, P w → P' w) (hQ : ∀ a w, Q a w → Q' a w)
    (hE : ∀ e w, E e w → E' e w) : Triple R I P p Q' E' :=
  fun w hw => (hp w (hP w hw)).mono hQ hE

theorem Triple.pre (hp : Triple R I P' p Q E) (hP : ∀ w, P w → P' w) : Triple R I P p Q E :=
  fun w hw => hp w (hP w hw)

theorem Triple.weaken {I' : W → Prop} (hp : Triple R I P p Q E) (hI : ∀ w, I w → I' w) :
    Triple R I' P p Q E :=
  fun w hw => (hp w hw).weaken hI

theorem Triple.exists {ι : Type*} {P : ι → W → Prop} (h : ∀ i, Triple R I (P i) p Q E) :
    Triple R I (fun w => ∃ i, P i w) p Q E :=
  fun w ⟨i, hi⟩ => h i w hi

theorem Triple.and_const {φ : Prop} (h : φ → Triple R I P p Q E) :
    Triple R I (fun w => φ ∧ P w) p Q E :=
  fun w ⟨hφ, hw⟩ => h hφ w hw

theorem Triple.effect {op : Op} {Q : Ans op → W → Prop} (hP : Stable R I P)
    (hQ : ∀ a, Stable R I (Q a)) (hE : ∀ e, Stable R I (E e))
    (hok : ∀ w c a w', P w → R.choice op w c → M.respond op w c = some (.ok a, w') → Q a w')
    (herror : ∀ w c e w', P w → R.choice op w c → M.respond op w c = some (.error e, w') →
      E e w') :
    Triple R I P (.effect op) Q E := by
  intro w hw w' hw'
  have hP' := hP.others hw' hw
  refine ⟨hP.invariant w' hP', ?_⟩
  intro c r w'' hc hr
  cases r with
  | ok a => exact Triple.pure (P := Q a) (hQ a) (fun _ h => h) w'' (hok w' c a w'' hP' hc hr)
  | error e =>
    exact Triple.throw (P := E e) (hE e) (fun _ h => h) w'' (herror w' c e w'' hP' hc hr)

theorem Triple.andFinally {q : Program Op Ans ε Unit} (hp : Triple R I P p Q E)
    (hq : ∀ a, Triple R I (Q a) q (fun _ => Q' a) E')
    (hqe : ∀ e, Triple R I (E e) q (fun _ => E' e) E') (hQ' : ∀ a, Stable R I (Q' a))
    (hE' : ∀ e, Stable R I (E' e)) : Triple R I P (p.andFinally q) Q' E' := by
  have hcatch : Triple R I P (p.tryCatch (fun e => q.bind (fun _ => .throw e))) Q E' :=
    Triple.tryCatch hp (fun e => (hqe e).bind (fun _ => .throw (hE' e) (fun _ h => h)))
  exact hcatch.bind (fun a => (hq a).bind (fun _ => .pure (hQ' a) (fun _ h => h)))

theorem Triple.of_performs {φ : Op → Prop} (hP : Stable R I P)
    (hφ : ∀ op, φ op → ∀ w c r w', P w → R.choice op w c → M.respond op w c = some (r, w') → P w')
    (hp : p.Performs φ) : Triple R I P p (fun _ => P) (fun _ => P) := by
  induction p with
  | pure a => exact .pure hP (fun _ h => h)
  | throw e => exact .throw hP (fun _ h => h)
  | perform op next ih =>
    intro w hw w' hw'
    have hP' := hP.others hw' hw
    refine ⟨hP.invariant w' hP', ?_⟩
    intro c r w'' hc hr
    exact ih r (hp.2 r) w'' (hφ op hp.1 w' c r w'' hP' hc hr)
  | diverge => exact .diverge hP

theorem Triple.runs {p' : Program Op Ans ε α} {w w' : W} (h : Triple R I P p Q E) (hw : P w)
    (hruns : Runs R (p, w) (p', w')) : Safe R I Q E p' w' :=
  Safe.runs hruns (h w hw)

theorem Safe.of_pure {w : W} (h : Safe R I Q E (.pure a) w) : Q a w :=
  (h w (.refl w)).2

theorem Safe.of_throw {w : W} (h : Safe R I Q E (.throw e) w) : E e w :=
  (h w (.refl w)).2

end Triples

/-- The states of a world on which calls run one after another, the others acting at any time;
`none` means that no call is running. -/
inductive Serves (R : Rules M) {C : Type} (calls : C → Program Op Ans ε Unit) (init : W → Prop) :
    Option (Program Op Ans ε Unit) × W → Prop
  | init {w : W} (h : init w) : Serves R calls init (none, w)
  | call {w : W} (c : C) (h : Serves R calls init (none, w)) :
      Serves R calls init (some (calls c), w)
  | step {p p' : Program Op Ans ε Unit} {w w' : W} (h : Serves R calls init (some p, w))
      (hstep : Step R (p, w) (p', w')) : Serves R calls init (some p', w')
  | returned {w : W} (h : Serves R calls init (some (.pure ()), w)) :
      Serves R calls init (none, w)
  | failed {e : ε} {w : W} (h : Serves R calls init (some (.throw e), w)) :
      Serves R calls init (none, w)
  | act {w w' : W} {a : M.Action} (h : Serves R calls init (none, w)) (ha : R.action w a)
      (hact : M.act a w = some w') : Serves R calls init (none, w')

variable {s : Option (Program Op Ans ε Unit) × W}

theorem Serves.safe {R : Rules M} {I Idle init : W → Prop} {C : Type}
    {calls : C → Program Op Ans ε Unit} (hinit : ∀ w, init w → Idle w) (hidle : Stable R I Idle)
    (hcalls : ∀ c, Triple R I Idle (calls c) (fun _ => Idle) (fun _ => Idle))
    (h : Serves R calls init s) :
    (∀ p, s.1 = some p → Safe R I (fun _ => Idle) (fun _ => Idle) p s.2) ∧
      (s.1 = none → Idle s.2) := by
  induction h with
  | init h => exact ⟨by simp, fun _ => hinit _ h⟩
  | call c h ih =>
    refine ⟨?_, by simp⟩
    rintro p hp
    cases hp
    exact hcalls c _ (ih.2 rfl)
  | step h hstep ih =>
    refine ⟨?_, by simp⟩
    rintro p hp
    cases hp
    exact (ih.1 _ rfl).step hstep
  | returned h ih => exact ⟨by simp, fun _ => (ih.1 _ rfl).of_pure⟩
  | failed h ih => exact ⟨by simp, fun _ => (ih.1 _ rfl).of_throw⟩
  | act h ha hact ih => exact ⟨by simp, fun _ => hidle.action _ _ _ (ih.2 rfl) ha hact⟩

theorem Serves.invariant {R : Rules M} {I Idle init : W → Prop} {C : Type}
    {calls : C → Program Op Ans ε Unit} (hinit : ∀ w, init w → Idle w) (hidle : Stable R I Idle)
    (hcalls : ∀ c, Triple R I Idle (calls c) (fun _ => Idle) (fun _ => Idle))
    (h : Serves R calls init s) : I s.2 := by
  have hs := h.safe hinit hidle hcalls
  cases hp : s.1 with
  | none => exact hidle.invariant _ (hs.2 hp)
  | some p => exact (hs.1 p hp).invariant

theorem Serves.from_init {R : Rules M} {C : Type} {calls : C → Program Op Ans ε Unit}
    {init : W → Prop} (h : Serves R calls init s) :
    ∃ w, init w ∧ Serves R calls (fun w' => w' = w) s := by
  induction h with
  | @init w h => exact ⟨w, h, .init rfl⟩
  | call c _ ih =>
    obtain ⟨w, hw, hs⟩ := ih
    exact ⟨w, hw, .call c hs⟩
  | step _ hstep ih =>
    obtain ⟨w, hw, hs⟩ := ih
    exact ⟨w, hw, .step hs hstep⟩
  | returned _ ih =>
    obtain ⟨w, hw, hs⟩ := ih
    exact ⟨w, hw, .returned hs⟩
  | failed _ ih =>
    obtain ⟨w, hw, hs⟩ := ih
    exact ⟨w, hw, .failed hs⟩
  | act _ ha hact ih =>
    obtain ⟨w, hw, hs⟩ := ih
    exact ⟨w, hw, .act hs ha hact⟩

theorem Serves.mono {R R' : Rules M} (hR : R.Within R') {C : Type}
    {calls : C → Program Op Ans ε Unit} {init : W → Prop} (h : Serves R calls init s) :
    Serves R' calls init s := by
  induction h with
  | init h => exact .init h
  | call c _ ih => exact .call c ih
  | step _ hstep ih => exact .step ih (hstep.mono hR)
  | returned _ ih => exact .returned ih
  | failed _ ih => exact .failed ih
  | act _ ha hact ih => exact .act ih (hR.action _ _ ha) hact

theorem Serves.runs {R : Rules M} {C : Type} {calls : C → Program Op Ans ε Unit}
    {init : W → Prop} {c c' : Program Op Ans ε Unit × W}
    (h : Serves R calls init (some c.1, c.2)) (hruns : Runs R c c') :
    Serves R calls init (some c'.1, c'.2) := by
  induction hruns with
  | refl => exact h
  | tail _ hstep ih => exact ih.step hstep

/-- Checks on choices and actions that can be evaluated. -/
structure Guard (M : Machine Op Ans ε W) where
  choice : (op : Op) → W → M.Choice → Bool
  action : W → M.Action → Bool

structure Guard.Within (G : Guard M) (R : Rules M) : Prop where
  choice : ∀ op w c, G.choice op w c = true → R.choice op w c
  action : ∀ w a, G.action w a = true → R.action w a

/-- The run in which the choices and actions are those of the script, in order, as long as the
guard admits them. -/
def play (G : Guard M) : List (M.Choice ⊕ M.Action) → Program Op Ans ε α × W →
    Option (Program Op Ans ε α × W)
  | [], c => some c
  | .inl c :: script, (.perform op next, w) =>
    if G.choice op w c then
      (M.respond op w c).bind (fun r => play G script (next r.1, r.2))
    else none
  | .inl _ :: _, _ => none
  | .inr a :: script, (p, w) =>
    if G.action w a then (M.act a w).bind (fun w' => play G script (p, w')) else none

theorem Runs.of_play {R : Rules M} {G : Guard M} (hG : G.Within R)
    {script : List (M.Choice ⊕ M.Action)} {c c' : Program Op Ans ε α × W}
    (h : play G script c = some c') : Runs R c c' := by
  induction script generalizing c with
  | nil =>
    cases h
    exact .refl
  | cons x script ih =>
    obtain ⟨p, w⟩ := c
    cases x with
    | inl choice =>
      cases p with
      | perform op next =>
        rw [play] at h
        by_cases hchoice : G.choice op w choice = true
        · rw [if_pos hchoice] at h
          obtain ⟨res, hres, hrest⟩ := bind_eq_some_iff.mp h
          exact .head (.perform (hG.choice op w choice hchoice) hres) (ih hrest)
        · rw [if_neg hchoice] at h
          cases h
      | _ => cases h
    | inr a =>
      rw [play] at h
      by_cases haction : G.action w a = true
      · rw [if_pos haction] at h
        obtain ⟨w', hw', hrest⟩ := bind_eq_some_iff.mp h
        exact .head (.act (hG.action w a haction) hw') (ih hrest)
      · rw [if_neg haction] at h
        cases h

theorem Step.of_play {R : Rules M} {G : Guard M} (hG : G.Within R) {choice : M.Choice}
    {c c' : Program Op Ans ε α × W} (h : play G [.inl choice] c = some c') : Step R c c' := by
  obtain ⟨p, w⟩ := c
  cases p with
  | perform op next =>
    rw [play] at h
    by_cases hchoice : G.choice op w choice = true
    · rw [if_pos hchoice] at h
      obtain ⟨res, hres, hrest⟩ := bind_eq_some_iff.mp h
      cases hrest
      exact .perform (hG.choice op w choice hchoice) hres
    · rw [if_neg hchoice] at h
      cases h
  | _ => cases h

section Played

variable {R : Rules M} {G : Guard M} {C : Type} {calls : C → Program Op Ans ε Unit}
  {init : W → Prop} {script : List (M.Choice ⊕ M.Action)} {c : C} {w : W}
  {c' : Program Op Ans ε Unit × W}

theorem Serves.of_play (hG : G.Within R) (hserved : Serves R calls init (none, w))
    (h : play G script (calls c, w) = some c') : Serves R calls init (some c'.1, c'.2) :=
  (hserved.call c).runs (Runs.of_play hG h)

theorem Serves.of_play_returned (hG : G.Within R) (hserved : Serves R calls init (none, w))
    (h : play G script (calls c, w) = some c') (hreturned : c'.1.returned = true) :
    Serves R calls init (none, c'.2) := by
  have hserves := hserved.of_play hG h
  obtain ⟨p, w'⟩ := c'
  cases p with
  | pure _ => exact hserves.returned
  | _ => cases hreturned

end Played

end Machine

end Draht
