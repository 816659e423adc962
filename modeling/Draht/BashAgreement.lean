import Draht.BashOutput

/-!
# Reported and whole output

When what is reported of a command's output is what `truncateTail` makes of the whole output. The
chunks that are kept decide: they are the longest run of last chunks within `maxOutputBytes`. Where
they are over the limits themselves, the text that is shown does not depend on what was dropped;
where they are not, a truncation goes unnoticed.
-/

namespace Draht
open List

open Utf8

/-- `truncateTail` with the default limits truncates the text. -/
def ExceedsLimits (text : OutputText) : Prop :=
  OverLimits DEFAULT_MAX_LINES DEFAULT_MAX_BYTES text

instance (text : OutputText) : Decidable (ExceedsLimits text) :=
  inferInstanceAs (Decidable (OverLimits _ _ _))

variable {text : OutputText}

theorem truncated_iff_exceeds :
    (truncateOutput text).truncated = true ↔ ExceedsLimits text :=
  truncated_iff

theorem truncateOutput_of_within (h : ¬ExceedsLimits text) :
    (truncateOutput text).content = text ∧ (truncateOutput text).truncated = false := by
  have htrunc : truncateOutput text = _ := truncateTailTo_of_within h
  rw [htrunc]
  exact ⟨rfl, rfl⟩

variable (x : OutputText) (d : TextDecoder) (n : ℕ)

theorem truncateOutput_append (h : ExceedsLimits text) :
    truncateOutput (x ++ text) =
      { truncateOutput text with
        totalLines := (splitLines (x ++ text)).length, totalBytes := byteLength (x ++ text) } :=
  truncateTailTo_append x h

theorem content_ne (h : ExceedsLimits text) :
    (truncateOutput text).content ≠ text := by
  have hlt : byteLength (truncateOutput text).content < byteLength text :=
    byteLength_content_lt (by decide) h
  intro heq
  rw [heq] at hlt
  exact Nat.lt_irrefl _ hlt

theorem received_receive {α : Type} (size : α → ℕ) (spill limit amount : ℕ) (x : α)
    (c : Capture α) : (c.receive size spill limit amount x).received = c.received + amount := by
  unfold Capture.receive
  dsimp only
  split_ifs <;> rfl

/-- The texts of the chunks: each is decoded where the one before ended, and then sanitized. -/
def chunkTexts (stripAnsi : OutputText → OutputText) : TextDecoder → List Bytes → List OutputText
  | _, [] => []
  | d, data :: chunks =>
    cleanOutput stripAnsi (d.decodeChunk data).1 ::
      chunkTexts stripAnsi (d.decodeChunk data).2 chunks

theorem dropBom_sublist (text : OutputText) : (dropBom text).Sublist text := by
  cases text with
  | nil => exact Sublist.refl _
  | cons c text =>
    rw [dropBom]
    split_ifs
    · exact sublist_cons_self c text
    · exact Sublist.refl _

variable {stripAnsi : OutputText → OutputText}

theorem cleanOutput_sublist (hstrip : ∀ text, (stripAnsi text).Sublist text) (text : OutputText) :
    (cleanOutput stripAnsi text).Sublist text :=
  (filter_sublist.trans filter_sublist).trans (hstrip text)

theorem decodeChunk_units (hstrip : ∀ text, (stripAnsi text).Sublist text) (d : TextDecoder)
    (data : Bytes) :
    unitLength (cleanOutput stripAnsi (d.decodeChunk data).1) +
      (d.decodeChunk data).2.decoder.held ≤ d.decoder.held + data.length := by
  have hunits := readAll_units d.decoder data
  have hsub : (d.decodeChunk data).1.Sublist (d.decoder.readAll data).1 := by
    simp only [TextDecoder.decodeChunk]
    split_ifs
    · exact Sublist.refl _
    · exact dropBom_sublist _
  have hle := unitLength_le_of_sublist ((cleanOutput_sublist hstrip _).trans hsub)
  have hheld : (d.decodeChunk data).2.decoder = (d.decoder.readAll data).2 := rfl
  rw [hheld]
  omega

theorem holds_onData (hstrip : ∀ text, (stripAnsi text).Sublist text) (chunks : List Bytes)
    {e : BashExecution} {items : List OutputText}
    (h : e.capture.Holds unitLength maxOutputBytes items)
    (hunits : totalSize unitLength items + e.decoder.decoder.held ≤ e.capture.received) :
    (chunks.foldl (BashExecution.onData stripAnsi) e).capture.Holds unitLength maxOutputBytes
      (items ++ chunkTexts stripAnsi e.decoder chunks) := by
  induction chunks generalizing e items with
  | nil =>
    rw [chunkTexts, append_nil]
    exact h
  | cons data chunks ih =>
    have hchunk := decodeChunk_units hstrip e.decoder data
    have htotal : totalSize unitLength (items ++ [cleanOutput stripAnsi
        (e.decoder.decodeChunk data).1]) = totalSize unitLength items +
          unitLength (cleanOutput stripAnsi (e.decoder.decodeChunk data).1) := by
      rw [totalSize_append]
      rfl
    have hreceived : (e.onData stripAnsi data).capture.received =
        e.capture.received + data.length :=
      received_receive unitLength DEFAULT_MAX_BYTES maxOutputBytes data.length _ e.capture
    have hheld : (e.onData stripAnsi data).decoder = (e.decoder.decodeChunk data).2 := rfl
    have hnext := ih (e := e.onData stripAnsi data)
      (h.receive (by decide) (by rw [htotal]; omega)) (by rw [hreceived, hheld, htotal]; omega)
    rw [append_assoc] at hnext
    exact hnext

def wholeOutput (stripAnsi : OutputText → OutputText) (chunks : List Bytes) : OutputText :=
  cleanOutput stripAnsi (decodeOutput chunks.flatten)

def sanitizedChunks (stripAnsi : OutputText → OutputText) (chunks : List Bytes) : OutputText :=
  (chunkTexts stripAnsi .new chunks).flatten

def latestChunks (stripAnsi : OutputText → OutputText) (chunks : List Bytes) : OutputText :=
  (fitting unitLength maxOutputBytes (chunkTexts stripAnsi .new chunks)).flatten

/-- Output and flag are those of `truncateTail`, and a file holds an output that is not reported
whole. -/
structure BashResult.Agrees (r : BashResult) (file : Option OutputText) (full : OutputText) :
    Prop where
  output : r.output = (truncateOutput full).content
  truncated : r.truncated = (truncateOutput full).truncated
  complete : r.output ≠ full → r.fullOutputPath.isSome = true ∧ file = some full

theorem bashResult_agrees_iff {c : Capture OutputText} {texts : List OutputText}
    (hc : c.Holds unitLength maxOutputBytes texts) (tempFilePath : String) (exitCode : Option ℤ)
    (cancelled : Bool) (full : OutputText) :
    (c.bashResult tempFilePath exitCode cancelled).1.Agrees
        (c.bashResult tempFilePath exitCode cancelled).2 full ↔
      let kept := (fitting unitLength maxOutputBytes texts).flatten
      (kept = full ∧ ¬ExceedsLimits kept) ∨ (texts.flatten = full ∧ ExceedsLimits kept) := by
  obtain ⟨dropped, hdropped⟩ := fitting_suffix unitLength maxOutputBytes texts
  unfold Capture.bashResult
  dsimp only
  rw [hc.chunks]
  have hwhole : texts.flatten = dropped.flatten ++
      (fitting unitLength maxOutputBytes texts).flatten := by
    rw [← flatten_append, hdropped]
  generalize (fitting unitLength maxOutputBytes texts).flatten = kept at hwhole ⊢
  by_cases hover : ExceedsLimits kept
  · have htrue := truncated_iff_exceeds.mpr hover
    have hfile : c.ensureFile.file = some texts := by
      have hwritten := hc.ensureFile.file
      exact congrArg some (hwritten _ rfl)
    rw [htrue, if_pos rfl, if_pos rfl, hfile]
    constructor
    · intro h
      have hfull : ExceedsLimits full := truncated_iff_exceeds.mp h.truncated.symm
      have hne : (truncateOutput kept).content ≠ full := by
        rw [show (truncateOutput kept).content = (truncateOutput full).content from h.output]
        exact content_ne hfull
      exact .inr ⟨Option.some.inj (h.complete hne).2, hover⟩
    · rintro (⟨-, hwithin⟩ | ⟨rfl, -⟩)
      · exact (hwithin hover).elim
      · have happend := truncateOutput_append dropped.flatten hover
        rw [← hwhole] at happend
        have hcontent : (truncateOutput texts.flatten).content = (truncateOutput kept).content := by
          rw [happend]
        have htruncated : (truncateOutput texts.flatten).truncated = true := by
          rw [happend]
          exact htrue
        exact ⟨hcontent.symm, htruncated.symm, fun _ => ⟨rfl, rfl⟩⟩
  · have hwithin := truncateOutput_of_within hover
    rw [hwithin.2]
    constructor
    · intro h
      have hfull : ¬ExceedsLimits full := by
        intro hexceeds
        exact Bool.false_ne_true (h.truncated.trans (truncated_iff_exceeds.mpr hexceeds))
      exact .inl ⟨h.output.trans (truncateOutput_of_within hfull).1, hover⟩
    · rintro (⟨rfl, -⟩ | ⟨-, hexceeds⟩)
      · exact ⟨hwithin.1.symm, hwithin.2.symm, fun hne => (hne rfl).elim⟩
      · exact (hover hexceeds).elim

theorem totalSize_length (chunks : List Bytes) :
    totalSize List.length chunks = chunks.flatten.length := by
  induction chunks with
  | nil => rfl
  | cons data chunks ih =>
    rw [totalSize, ih, flatten_cons, length_append]

theorem holds_handleData (onUpdate : Bool) (tempFilePath : String) (chunks : List Bytes)
    {t : BashToolCall} {items : List Bytes} (h : t.capture.Holds List.length maxOutputBytes items)
    (htotal : totalSize List.length items ≤ t.capture.received) :
    (chunks.foldl (BashToolCall.handleData onUpdate tempFilePath) t).capture.Holds List.length
      maxOutputBytes (items ++ chunks) := by
  induction chunks generalizing t items with
  | nil =>
    rw [append_nil]
    exact h
  | cons data chunks ih =>
    have hsize : totalSize List.length (items ++ [data]) ≤ t.capture.received + data.length := by
      rw [totalSize_append]
      change totalSize List.length items + (data.length + 0) ≤ _
      omega
    have hreceive := h.receive (show DEFAULT_MAX_BYTES ≤ maxOutputBytes by decide) hsize
    have hreceived := received_receive List.length DEFAULT_MAX_BYTES maxOutputBytes data.length
      data t.capture
    have hstep : (t.handleData onUpdate tempFilePath data).capture.Holds List.length
          maxOutputBytes (items ++ [data]) ∧
        (t.handleData onUpdate tempFilePath data).capture.received =
          t.capture.received + data.length := by
      unfold BashToolCall.handleData
      dsimp only
      split_ifs
      · exact ⟨hreceive.ensureFile, hreceived⟩
      · exact ⟨hreceive, hreceived⟩
      · exact ⟨hreceive, hreceived⟩
    have hnext := ih hstep.1 (hstep.2 ▸ hsize)
    rwa [append_assoc] at hnext

def latestText (chunks : List Bytes) : OutputText :=
  decode (fitting List.length maxOutputBytes chunks).flatten

def wholeText (chunks : List Bytes) : OutputText := decode chunks.flatten

theorem holds_tool (onUpdate : Bool) (tempFilePath : String) (chunks : List Bytes) :
    (chunks.foldl (BashToolCall.handleData onUpdate tempFilePath)
      BashToolCall.new).capture.Holds List.length maxOutputBytes chunks :=
  holds_handleData onUpdate tempFilePath chunks (t := BashToolCall.new) Capture.holds_empty
    (Nat.le_refl 0)

theorem latestText_of_within {chunks : List Bytes} (h : ¬ExceedsLimits (wholeText chunks)) :
    latestText chunks = wholeText chunks := by
  have hbytes := le_byteLength_decode reads_start chunks.flatten
  have hwithin : byteLength (wholeText chunks) ≤ DEFAULT_MAX_BYTES := by
    by_contra hover
    exact h (.inr (by omega))
  have hlimit : DEFAULT_MAX_BYTES ≤ maxOutputBytes := by decide
  have hfits : totalSize List.length chunks ≤ maxOutputBytes := by
    rw [totalSize_length]
    change 0 + chunks.flatten.length ≤ byteLength (wholeText chunks) at hbytes
    omega
  rw [latestText, wholeText, fitting_eq_self hfits]

theorem splitLines_length (text : OutputText) :
    (splitLines text).length = text.count '\n' + 1 := by
  induction text with
  | nil => rfl
  | cons c text ih =>
    rw [splitLines]
    split_ifs with hc
    · rw [length_cons, ih, hc, count_cons_self]
    · obtain ⟨line, lines, htext⟩ := exists_cons_of_ne_nil (splitLines_ne_nil text)
      rw [htext] at ih ⊢
      rw [count_cons_of_ne hc]
      exact ih

theorem lastLine_of_single (h : (splitLines text).length = 1) :
    lastLine text = text := by
  obtain ⟨line, hline⟩ := length_eq_one_iff.mp h
  have hjoin := joinLines_splitLines text
  rw [hline, joinLines_singleton] at hjoin
  rw [lastLine, hline, ← hjoin]
  rfl

theorem lastLine_append (h : (splitLines text).length ≠ 1) :
    lastLine (x ++ text) = lastLine text := by
  obtain ⟨before, last, hsplit⟩ := splitLines_append x
  obtain ⟨line, lines, htext⟩ := exists_cons_of_ne_nil (splitLines_ne_nil text)
  obtain ⟨next, rest, rfl⟩ : ∃ next rest, lines = next :: rest := by
    apply exists_cons_of_ne_nil
    rintro rfl
    rw [htext] at h
    exact h rfl
  rw [lastLine, lastLine, hsplit text line _ htext, htext, getLast?_append_of_ne_nil _
    (cons_ne_nil _ _), getLast?_cons_cons, getLast?_cons_cons]

/-- The decoded texts differ at most in what is dropped and in a few characters after it; those of
the latest chunks are replacements. -/
theorem texts_share_end (chunks : List Bytes) : ∃ (first : OutputText) (k : ℕ) (rest : OutputText),
    k ≤ 3 ∧ wholeText chunks = first ++ rest ∧
      latestText chunks = List.replicate k replacement ++ rest := by
  obtain ⟨dropped, hdropped⟩ := fitting_suffix List.length maxOutputBytes chunks
  have hwhole : chunks.flatten = dropped.flatten ++
      (fitting List.length maxOutputBytes chunks).flatten := by
    rw [← flatten_append, hdropped]
  obtain ⟨p, hreads⟩ := readAll_reads reads_start dropped.flatten
  obtain ⟨first, k, rest, hk, hq, hstart⟩ :=
    decode_resync hreads (fitting List.length maxOutputBytes chunks).flatten
  refine ⟨(start.readAll dropped.flatten).1 ++ first, k, rest, hk.trans hreads.needed_le, ?_,
    hstart⟩
  rw [wholeText, hwhole, decode, decode_append, hq, append_assoc]

theorem byteLength_replicate (k : ℕ) : byteLength (List.replicate k replacement) = 3 * k := by
  induction k with
  | zero => rfl
  | succ k ih =>
    rw [replicate_succ, byteLength_cons, ih]
    change 3 + 3 * k = 3 * (k + 1)
    omega

/-- The latest chunks decode to as many bytes and lines as all of them. -/
def SameTotals (chunks : List Bytes) : Prop :=
  byteLength (latestText chunks) = byteLength (wholeText chunks) ∧
    (splitLines (latestText chunks)).length = (splitLines (wholeText chunks)).length

/-- The report is the one for the whole output, and a file holds an output that is not shown
whole. -/
structure BashToolReport.Agrees (report : BashToolReport) (file : Option Bytes)
    (tempFilePath : String) (exitCode : Option ℤ) (chunks : List Bytes) : Prop where
  report : report = exitReport tempFilePath exitCode (wholeText chunks)
  complete : (truncateOutput (wholeText chunks)).content ≠ wholeText chunks →
    file = some chunks.flatten

/-- The error shows what `truncateTail` leaves of the whole output, and says nothing of a
truncation. -/
def BashToolReport.FailureAgrees (report : BashToolReport) (message : String)
    (chunks : List Bytes) : Prop :=
  report.text = failureText message (truncateOutput (wholeText chunks)).content ∧
    (truncateOutput (wholeText chunks)).truncated = false

theorem exitReport_congr {t u : OutputText} (h : truncateOutput t = truncateOutput u)
    (hlast : byteLength (lastLine t) = byteLength (lastLine u)) (tempFilePath : String)
    (exitCode : Option ℤ) :
    exitReport tempFilePath exitCode t = exitReport tempFilePath exitCode u := by
  simp only [exitReport, truncationNotice, h, hlast]

theorem truncateOutput_latest {chunks : List Bytes} (h : SameTotals chunks) :
    truncateOutput (latestText chunks) = truncateOutput (wholeText chunks) ∧
      byteLength (lastLine (latestText chunks)) = byteLength (lastLine (wholeText chunks)) := by
  by_cases hfits : totalSize List.length chunks ≤ maxOutputBytes
  · have hall : latestText chunks = wholeText chunks := by
      rw [latestText, wholeText, fitting_eq_self hfits]
    rw [hall]
    exact ⟨rfl, rfl⟩
  obtain ⟨hbytes, hlines⟩ := h
  obtain ⟨first, k, rest, hk, hwhole, hlatest⟩ := texts_share_end chunks
  -- The end that both texts share is over the limits.
  have hrest : ExceedsLimits rest := by
    have hread := le_byteLength_decode reads_start chunks.flatten
    change 0 + chunks.flatten.length ≤ byteLength (wholeText chunks) at hread
    rw [totalSize_length] at hfits
    rw [hlatest, byteLength_append, byteLength_replicate] at hbytes
    have hlimit : DEFAULT_MAX_BYTES + 9 ≤ maxOutputBytes := by decide
    exact .inr (by omega)
  refine ⟨?_, ?_⟩
  · have htruncLatest := truncateOutput_append (List.replicate k replacement) hrest
    have htruncWhole := truncateOutput_append first hrest
    rw [← hlatest, hlines, hbytes] at htruncLatest
    rw [← hwhole] at htruncWhole
    exact htruncLatest.trans htruncWhole.symm
  · by_cases hone : (splitLines rest).length = 1
    · have hcount : (List.replicate k replacement).count '\n' = 0 := by
        apply count_eq_zero.mpr
        intro hmem
        exact absurd (eq_of_mem_replicate hmem) (by decide)
      have hsingle : (splitLines (latestText chunks)).length = 1 := by
        rw [splitLines_length] at hone ⊢
        rw [hlatest, count_append, hcount]
        omega
      rw [lastLine_of_single hsingle, lastLine_of_single (hlines ▸ hsingle)]
      exact hbytes
    · rw [hlatest, hwhole, lastLine_append _ hone, lastLine_append _ hone]

theorem sameTotals_of_within {chunks : List Bytes} (h : ¬ExceedsLimits (wholeText chunks)) :
    SameTotals chunks := by
  rw [SameTotals, latestText_of_within h]
  exact ⟨rfl, rfl⟩

theorem sameTotals_of_report {chunks : List Bytes} {tempFilePath : String} {exitCode : Option ℤ}
    (hexit : exitCode = none ∨ exitCode = some 0)
    (h : exitReport tempFilePath exitCode (latestText chunks) =
      exitReport tempFilePath exitCode (wholeText chunks)) : SameTotals chunks := by
  by_cases hwhole : ExceedsLimits (wholeText chunks)
  · have hdetails := congrArg BashToolReport.details h
    have hshown : ∀ text, (exitReport tempFilePath exitCode text).details =
        if (truncateOutput text).truncated then
          some { truncation := some (truncateOutput text), fullOutputPath := some tempFilePath }
        else none := by
      intro text
      obtain rfl | rfl := hexit <;> rfl
    rw [hshown, hshown, if_pos (truncated_iff_exceeds.mpr hwhole)] at hdetails
    split_ifs at hdetails
    have htrunc : truncateOutput (latestText chunks) = truncateOutput (wholeText chunks) := by
      simpa using hdetails
    have htotals : ∀ text, (truncateOutput text).totalBytes = byteLength text ∧
        (truncateOutput text).totalLines = (splitLines text).length := by
      intro text
      unfold truncateOutput truncateTail truncateTailTo
      dsimp only
      split_ifs <;> exact ⟨rfl, rfl⟩
    constructor
    · rw [← (htotals (latestText chunks)).1, htrunc, (htotals (wholeText chunks)).1]
    · rw [← (htotals (latestText chunks)).2, htrunc, (htotals (wholeText chunks)).2]
  · exact sameTotals_of_within hwhole

section

variable (onUpdate : Bool) (tempFilePath : String) (chunks : List Bytes)

theorem keptText_tool : keptText (chunks.foldl (BashToolCall.handleData onUpdate tempFilePath)
    BashToolCall.new).capture = latestText chunks := by
  rw [keptText, (holds_tool onUpdate tempFilePath chunks).chunks]
  rfl

variable (exitCode : Option ℤ)

theorem executeBashTool_exited :
    (executeBashTool onUpdate tempFilePath chunks (.exited exitCode)).1 =
        exitReport tempFilePath exitCode (latestText chunks) ∧
      (ExceedsLimits (latestText chunks) →
        (executeBashTool onUpdate tempFilePath chunks (.exited exitCode)).2 =
          some chunks.flatten) := by
  have hkept := keptText_tool onUpdate tempFilePath chunks
  have hholds := holds_tool onUpdate tempFilePath chunks
  unfold executeBashTool
  dsimp only
  rw [hkept]
  refine ⟨rfl, fun hover => ?_⟩
  rw [if_pos (truncated_iff_exceeds.mpr hover)]
  have hwritten := hholds.ensureFile.file _ rfl
  exact congrArg (fun written => some (List.flatten written)) hwritten

theorem tool_agrees_of_sameTotals (h : SameTotals chunks) :
    (executeBashTool onUpdate tempFilePath chunks (.exited exitCode)).1.Agrees
      (executeBashTool onUpdate tempFilePath chunks (.exited exitCode)).2 tempFilePath exitCode
      chunks := by
  obtain ⟨hreport, hfile⟩ := executeBashTool_exited onUpdate tempFilePath chunks exitCode
  obtain ⟨htrunc, hlast⟩ := truncateOutput_latest h
  refine ⟨hreport.trans (exitReport_congr htrunc hlast _ _), fun hne => hfile ?_⟩
  have hwhole : ExceedsLimits (wholeText chunks) := by
    by_contra hwithin
    exact hne (truncateOutput_of_within hwithin).1
  rw [← truncated_iff_exceeds] at hwhole ⊢
  rwa [htrunc]

theorem tool_agrees_iff (hexit : exitCode = none ∨ exitCode = some 0) :
    (executeBashTool onUpdate tempFilePath chunks (.exited exitCode)).1.Agrees
        (executeBashTool onUpdate tempFilePath chunks (.exited exitCode)).2 tempFilePath exitCode
        chunks ↔ SameTotals chunks := by
  obtain ⟨hreport, -⟩ := executeBashTool_exited onUpdate tempFilePath chunks exitCode
  refine ⟨fun h => ?_, tool_agrees_of_sameTotals onUpdate tempFilePath chunks exitCode⟩
  exact sameTotals_of_report hexit (hreport.symm.trans h.report)

theorem failure_agrees_iff (message : String) :
    (executeBashTool onUpdate tempFilePath chunks (.failed message)).1.FailureAgrees message
      chunks ↔ ¬ExceedsLimits (wholeText chunks) := by
  have hkept := keptText_tool onUpdate tempFilePath chunks
  constructor
  · intro h hover
    exact Bool.false_ne_true (h.2.symm.trans (truncated_iff_exceeds.mpr hover))
  · intro hwithin
    obtain ⟨hcontent, htruncated⟩ := truncateOutput_of_within hwithin
    refine ⟨?_, htruncated⟩
    rw [hcontent]
    unfold executeBashTool
    dsimp only
    rw [hkept, latestText_of_within hwithin]

end

def decodedChunks : TextDecoder → List Bytes → List OutputText
  | _, [] => []
  | d, data :: chunks => (d.decodeChunk data).1 :: decodedChunks (d.decodeChunk data).2 chunks

theorem chunkTexts_eq (chunks : List Bytes) :
    chunkTexts stripAnsi d chunks = (decodedChunks d chunks).map (cleanOutput stripAnsi) := by
  induction chunks generalizing d with
  | nil => rfl
  | cons data chunks ih => rw [chunkTexts, decodedChunks, map_cons, ih]

theorem dropBom_append {a : OutputText} (ha : a ≠ []) (b : OutputText) :
    dropBom (a ++ b) = dropBom a ++ b := by
  obtain ⟨c, a, rfl⟩ := exists_cons_of_ne_nil ha
  rw [cons_append, dropBom, dropBom]
  split_ifs <;> rfl

theorem decodedChunks_flatten (chunks : List Bytes) :
    (decodedChunks d chunks).flatten =
      if d.bomSeen then (d.decoder.readAll chunks.flatten).1
      else dropBom (d.decoder.readAll chunks.flatten).1 := by
  induction chunks generalizing d with
  | nil =>
    split_ifs <;> rfl
  | cons data chunks ih =>
    rw [decodedChunks, flatten_cons, flatten_cons, readAll_append, ih]
    obtain ⟨decoder, bomSeen⟩ := d
    unfold TextDecoder.decodeChunk
    cases bomSeen with
    | true => rfl
    | false =>
      simp only [Bool.false_or, Bool.false_eq_true, if_false]
      by_cases hnil : (decoder.readAll data).1 = []
      · rw [hnil]
        rfl
      · have hsome : (!(decoder.readAll data).1.isEmpty) = true := by simpa using hnil
        simp [hsome, dropBom_append hnil]

theorem sanitizedChunks_eq (chunks : List Bytes)
    (hpieces : stripAnsi (decodedChunks .new chunks).flatten =
      ((decodedChunks .new chunks).map stripAnsi).flatten)
    (hend : (start.readAll chunks.flatten).2.needed = 0) :
    sanitizedChunks stripAnsi chunks = wholeOutput stripAnsi chunks := by
  have hwhole : decodeOutput chunks.flatten = (decodedChunks .new chunks).flatten := by
    rw [decodedChunks_flatten, decodeOutput, decode, Decoder.decode, Decoder.flush, if_pos hend,
      append_nil]
    rfl
  have hclean : ∀ pieces : List OutputText,
      (pieces.map (cleanOutput stripAnsi)).flatten =
        (sanitizeBinaryOutput (pieces.map stripAnsi).flatten).filter fun c => c ≠ '\r' := by
    intro pieces
    induction pieces with
    | nil => rfl
    | cons piece pieces ih =>
      rw [map_cons, map_cons, flatten_cons, flatten_cons, ih]
      simp [cleanOutput, sanitizeBinaryOutput]
  rw [sanitizedChunks, wholeOutput, chunkTexts_eq, hclean, hwhole, cleanOutput, hpieces]

/-- The latest chunks are the whole output and are reported as they are; or they are truncated, and
sanitizing the output in pieces made no difference. -/
def ReportsWhole (stripAnsi : OutputText → OutputText) (chunks : List Bytes) : Prop :=
  (latestChunks stripAnsi chunks = wholeOutput stripAnsi chunks ∧
      ¬ExceedsLimits (latestChunks stripAnsi chunks)) ∨
    (sanitizedChunks stripAnsi chunks = wholeOutput stripAnsi chunks ∧
      ExceedsLimits (latestChunks stripAnsi chunks))

theorem executor_agrees_iff (hstrip : ∀ text, (stripAnsi text).Sublist text) (chunks : List Bytes)
    {tempFilePath : String} {outcome : ExecOutcome} {aborted : Bool} {r : BashResult}
    {file : Option OutputText}
    (h : executeBashWithOperations stripAnsi tempFilePath chunks outcome aborted = .ok (r, file)) :
    r.Agrees file (wholeOutput stripAnsi chunks) ↔ ReportsWhole stripAnsi chunks := by
  have hholds := holds_onData hstrip chunks (e := BashExecution.new) Capture.holds_empty
    (Nat.le_refl 0)
  have hiff : ∀ exitCode cancelled, (r, file) =
      (chunks.foldl (BashExecution.onData stripAnsi) .new).capture.bashResult tempFilePath exitCode
        cancelled →
      (r.Agrees file (wholeOutput stripAnsi chunks) ↔ ReportsWhole stripAnsi chunks) := by
    intro exitCode cancelled hout
    cases hout
    exact bashResult_agrees_iff hholds tempFilePath exitCode cancelled _
  unfold executeBashWithOperations at h
  split at h
  · exact hiff _ _ (Except.ok.inj h).symm
  · split_ifs at h
    exact hiff _ _ (Except.ok.inj h).symm

/-- When the reported output of a command agrees with truncating the whole: for the executor, for
the tool with a command that succeeds or fails, and for a command that is aborted or timed out. -/
theorem bashOutput_agrees (hstrip : ∀ text, (stripAnsi text).Sublist text) (chunks : List Bytes)
    (tempFilePath : String) :
    (∀ outcome aborted r file,
        executeBashWithOperations stripAnsi tempFilePath chunks outcome aborted = .ok (r, file) →
          (r.Agrees file (wholeOutput stripAnsi chunks) ↔ ReportsWhole stripAnsi chunks)) ∧
      (∀ onUpdate exitCode, exitCode = none ∨ exitCode = some 0 →
        ((executeBashTool onUpdate tempFilePath chunks (.exited exitCode)).1.Agrees
          (executeBashTool onUpdate tempFilePath chunks (.exited exitCode)).2 tempFilePath exitCode
          chunks ↔ SameTotals chunks)) ∧
      (∀ onUpdate exitCode, SameTotals chunks →
        (executeBashTool onUpdate tempFilePath chunks (.exited exitCode)).1.Agrees
          (executeBashTool onUpdate tempFilePath chunks (.exited exitCode)).2 tempFilePath exitCode
          chunks) ∧
      ∀ onUpdate message,
        ((executeBashTool onUpdate tempFilePath chunks (.failed message)).1.FailureAgrees message
          chunks ↔ ¬ExceedsLimits (wholeText chunks)) := by
  refine ⟨fun outcome aborted r file h => executor_agrees_iff hstrip chunks h, ?_, ?_, ?_⟩
  · exact fun onUpdate exitCode hexit =>
      tool_agrees_iff onUpdate tempFilePath chunks exitCode hexit
  · exact fun onUpdate exitCode h =>
      tool_agrees_of_sameTotals onUpdate tempFilePath chunks exitCode h
  · exact fun onUpdate message => failure_agrees_iff onUpdate tempFilePath chunks message

theorem bashOutput_agrees_echo :
    ∃ r file, (executeBashWithOperations id "/tmp/pi-bash-0.log" [[104, 105], [10]]
      (.exited (some 0)) false = .ok (r, file) ∧ r.output = "hi\n".toList) ∧
      r.Agrees file (wholeOutput id [[104, 105], [10]]) := by
  have hagrees := (@bashOutput_agrees id (fun _ => Sublist.refl _) [[104, 105], [10]]
    "/tmp/pi-bash-0.log").1
  have hwhole : ReportsWhole id [[104, 105], [10]] :=
    .inl ⟨by decide +kernel, by decide +kernel⟩
  exact ⟨_, _, ⟨rfl, by decide +kernel⟩, (hagrees (.exited (some 0)) false _ _ rfl).mpr hwhole⟩

theorem readAll_replicate : start.readAll (List.replicate n 97) = (List.replicate n 'a', start) := by
  induction n with
  | zero => rfl
  | succ n ih =>
    have hread : start.read (97 : UInt8).toNat = (['a'], start) := by decide
    rw [replicate_succ, Decoder.readAll, hread]
    rw [ih, replicate_succ]
    rfl

theorem unitLength_replicate : unitLength (List.replicate n 'a') = n := by
  induction n with
  | zero => rfl
  | succ n ih =>
    rw [replicate_succ, unitLength, ih]
    change 1 + n = n + 1
    omega

theorem cleanOutput_replicate : cleanOutput id (List.replicate n 'a') = List.replicate n 'a' := by
  rw [cleanOutput, sanitizeBinaryOutput, id, filter_replicate_of_pos (by decide),
    filter_replicate_of_pos (by decide)]

def longThenShort (n : ℕ) : List Bytes := [List.replicate (n + 1) 97, [98]]

theorem chunkTexts_longThenShort : chunkTexts id .new (longThenShort n) =
    [List.replicate (n + 1) 'a', ['b']] := by
  have hfirst : TextDecoder.new.decodeChunk (List.replicate (n + 1) 97) =
      (List.replicate (n + 1) 'a', { decoder := start, bomSeen := true }) := by
    rw [TextDecoder.decodeChunk, TextDecoder.new]
    rw [readAll_replicate]
    rfl
  have hsecond : cleanOutput id (TextDecoder.decodeChunk { decoder := start, bomSeen := true }
      [98]).1 = ['b'] := by decide
  rw [longThenShort, chunkTexts, hfirst, chunkTexts, chunkTexts, cleanOutput_replicate, hsecond]

theorem latest_longThenShort {n : ℕ} (h : maxOutputBytes < n + 2) :
    latestChunks id (longThenShort n) = ['b'] ∧ latestText (longThenShort n) = ['b'] := by
  constructor
  · have htotal : ¬totalSize unitLength [List.replicate (n + 1) 'a', ['b']] ≤ maxOutputBytes := by
      rw [totalSize, unitLength_replicate]
      change ¬n + 1 + 1 ≤ _
      omega
    rw [latestChunks, chunkTexts_longThenShort, fitting, if_neg htotal]
    rfl
  · have htotal : ¬totalSize List.length (longThenShort n) ≤ maxOutputBytes := by
      rw [longThenShort, totalSize, length_replicate]
      change ¬n + 1 + 1 ≤ _
      omega
    rw [longThenShort] at htotal
    rw [latestText, longThenShort, fitting, if_neg htotal]
    decide

theorem whole_longThenShort :
    wholeOutput id (longThenShort n) = List.replicate (n + 1) 'a' ++ ['b'] := by
  have hread : (start.readAll (longThenShort n).flatten).2.needed = 0 := by
    rw [longThenShort, flatten_cons, readAll_append, readAll_replicate]
    rfl
  rw [← sanitizedChunks_eq _ (by rw [map_id]; rfl) hread, sanitizedChunks, chunkTexts_longThenShort]
  rfl

theorem longThenShort_reported {n : ℕ} (h : maxOutputBytes < n + 2) :
    ¬ReportsWhole id (longThenShort n) ∧ ¬SameTotals (longThenShort n) := by
  obtain ⟨hlatest, htext⟩ := latest_longThenShort h
  have hshort : ¬ExceedsLimits ['b'] := by decide
  constructor
  · rintro (⟨hwhole, -⟩ | ⟨-, hover⟩)
    · rw [hlatest, whole_longThenShort] at hwhole
      have hlength := congrArg List.length hwhole
      rw [length_append, length_replicate] at hlength
      omega
    · rw [hlatest] at hover
      exact hshort hover
  · intro hsame
    have hread := le_byteLength_decode reads_start (longThenShort n).flatten
    have hlength : (longThenShort n).flatten.length = n + 2 := by
      rw [longThenShort, flatten_cons, length_append, length_replicate]
      rfl
    have hone : byteLength (wholeText (longThenShort n)) = 1 := by
      rw [← hsame.1, htext]
      rfl
    change 0 + (longThenShort n).flatten.length ≤ byteLength (wholeText (longThenShort n)) at hread
    omega

/-- Of 102400 letters and one more, both report the last letter alone, as if it were all. -/
theorem longThenShort_unnoticed :
    (¬∀ (stripAnsi : OutputText → OutputText) (chunks : List Bytes) (tempFilePath : String)
      (outcome : ExecOutcome) (aborted : Bool) (r : BashResult) (file : Option OutputText),
      (∀ text, (stripAnsi text).Sublist text) →
        executeBashWithOperations stripAnsi tempFilePath chunks outcome aborted = .ok (r, file) →
          r.Agrees file (wholeOutput stripAnsi chunks)) ∧
      ¬∀ (onUpdate : Bool) (tempFilePath : String) (chunks : List Bytes) (exitCode : Option ℤ),
        (executeBashTool onUpdate tempFilePath chunks (.exited exitCode)).1.Agrees
          (executeBashTool onUpdate tempFilePath chunks (.exited exitCode)).2 tempFilePath exitCode
          chunks := by
  have hlimit : maxOutputBytes < 102399 + 2 := by decide
  obtain ⟨hexecutor, htool⟩ := longThenShort_reported hlimit
  constructor
  · intro h
    have hstrip : ∀ text : OutputText, (id text).Sublist text := fun _ => Sublist.refl _
    obtain ⟨r, file, hout⟩ : ∃ r file, executeBashWithOperations id "/tmp/pi-bash-0.log"
        (longThenShort 102399) (.exited (some 0)) false = .ok (r, file) := ⟨_, _, rfl⟩
    exact hexecutor ((executor_agrees_iff hstrip _ hout).mp (h _ _ _ _ _ r file hstrip hout))
  · intro h
    exact htool ((tool_agrees_iff false "/tmp/pi-bash-0.log" (longThenShort 102399) (some 0)
      (.inr rfl)).mp (h _ _ _ _))

end Draht
