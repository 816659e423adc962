import Draht.EventsWatcher
import Mathlib.Data.Nat.Basic
import Mathlib.Order.Basic

/-!
# Event files have one live schedule

As long as a file's change is handled only when no call reads the file, and its deletion only when
no call holds what it has read, a file has one schedule at most, nothing that was read before a
handled change stays scheduled, and every change of a file is executed at most once.
-/

namespace Draht.EventsWatcher
open List Option

variable (s : Watcher)

/-- The entry of `timers` or `crons` for a schedule. -/
def recordedFor (sch : Schedule) : Option ℕ :=
  if sch.event.deleteAfter then s.timers sch.filename else s.crons sch.filename

/-- The contents that were executed and deleted, each with the change that it comes from. -/
def executedContents (executed : List Execution) : List (String × ℕ) :=
  (executed.filter (·.event.deleteAfter)).map fun e => (e.filename, e.version)

/-- A file has one schedule, which is the recorded one; once its calls have finished, it is none
from before the change that was handled last; and no content was executed twice. -/
structure OneSchedule : Prop where
  single : ∀ a ∈ s.live, ∀ b ∈ s.live, a.filename = b.filename → a = b
  recorded : ∀ sch ∈ s.live, recordedFor s sch = some sch.id
  current : ∀ sch ∈ s.live, (∀ c ∈ s.calls, c.filename ≠ sch.filename) →
    s.handled sch.filename ≤ sch.version
  once : (executedContents s.executed).Nodup

/-- A changed file is handled while no call reads it, and a deleted one while no call holds its
event. -/
def Undisturbed (s : Watcher) : Action → Prop
  | .debounced filename =>
    if s.files.has filename then ∀ c ∈ s.calls, c.filename ≠ filename
    else ∀ c ∈ s.calls, c.filename = filename → c.event?.isNone
  | _ => True

instance (s : Watcher) : (a : Action) → Decidable (Undisturbed s a)
  | .debounced filename => inferInstanceAs (Decidable (if s.files.has filename then
      ∀ c ∈ s.calls, c.filename ≠ filename
      else ∀ c ∈ s.calls, c.filename = filename → c.event?.isNone))
  | .advance _ | .writeFile _ _ | .removeFile _ | .start | .watchEvent _ | .read _ | .resume _
  | .wake _ | .fire _ => inferInstanceAs (Decidable True)

def holders : List String := s.calls.map (·.filename) ++ s.live.map (·.filename)

def ExecutedBefore (filename : String) (version : ℕ) : Prop :=
  ∀ e ∈ s.executed, e.event.deleteAfter → e.filename = filename → e.version < version

/-- What was read at a change of the file is not outdated by what was handled, and was not
executed; the file has changed since if it is no longer there. -/
structure Current (filename : String) (version : ℕ) : Prop where
  handled : s.handled filename ≤ version
  changed : version ≤ s.versions filename
  removed : s.files.has filename = false → version < s.versions filename
  unexecuted : ExecutedBefore s filename version

structure Inv : Prop where
  holders : (holders s).Nodup
  recorded : ∀ sch ∈ s.live, recordedFor s sch = some sch.id
  known : ∀ sch ∈ s.live, sch.filename ∈ s.knownFiles
  scheduled : ∀ sch ∈ s.live, Current s sch.filename sch.version
  read : ∀ c ∈ s.calls, ∀ event version, c.event? = some (event, version) →
    Current s c.filename version
  handled : ∀ filename, s.handled filename ≤ s.versions filename
  executed : ∀ e ∈ s.executed, e.event.deleteAfter → e.version < s.versions e.filename
  once : (executedContents s.executed).Nodup
  idle : s.started = false →
    s.calls = [] ∧ s.live = [] ∧ ∀ filename, s.debounceTimers filename = false

variable {s} {filename : String}

theorem mem_holders : filename ∈ holders s ↔
    (∃ c ∈ s.calls, c.filename = filename) ∨ ∃ sch ∈ s.live, sch.filename = filename := by
  simp [holders]

theorem Inv.single (h : Inv s) {a b : Schedule} (ha : a ∈ s.live) (hb : b ∈ s.live)
    (hname : a.filename = b.filename) : a = b :=
  inj_on_of_nodup_map (nodup_append.mp h.holders).2.1 ha hb hname

variable {c : Call} {sch : Schedule} {s' : Watcher} {version : ℕ}

theorem Inv.singleCall (h : Inv s) {c' : Call} (hc : c ∈ s.calls) (hc' : c' ∈ s.calls)
    (hname : c.filename = c'.filename) : c = c' :=
  inj_on_of_nodup_map (nodup_append.mp h.holders).1 hc hc' hname

theorem Inv.ne_of_mem (h : Inv s) (hc : c ∈ s.calls)
    (hsch : sch ∈ s.live) : sch.filename ≠ c.filename := by
  intro hname
  exact (nodup_append.mp h.holders).2.2 c.filename (mem_map_of_mem hc) sch.filename
    (mem_map_of_mem hsch) hname.symm

theorem Inv.oneSchedule (h : Inv s) : OneSchedule s :=
  ⟨fun _ ha _ hb => h.single ha hb, h.recorded, fun sch hsch _ => (h.scheduled sch hsch).handled,
    h.once⟩

theorem inv_initial (now : ℤ) (files : OrderedMap String EventFile) : Inv (initial now files) := by
  constructor <;> simp [initial, EventsWatcher.holders, executedContents]

theorem Current.bump {name : String} (h : Current s name version)
    (hhandled : s'.handled = s.handled) (hexecuted : s'.executed = s.executed)
    (hversions : s.versions name ≤ s'.versions name)
    (hremoved : s'.files.has name = false →
      s.files.has name = false ∨ s.versions name < s'.versions name) : Current s' name version := by
  refine ⟨?_, h.changed.trans hversions, fun hfile => ?_, ?_⟩
  · rw [hhandled]
    exact h.handled
  · obtain hbefore | hlt := hremoved hfile
    · exact (h.removed hbefore).trans_le hversions
    · exact h.changed.trans_lt hlt
  · unfold ExecutedBefore
    rw [hexecuted]
    exact h.unexecuted

theorem bump_versions_le (n name : String) : s.versions name ≤ (bump s n).versions name := by
  by_cases hname : name = n
  · subst hname
    simp [bump]
  · simp [bump, Function.update_of_ne hname]

theorem bump_versions_self : s.versions filename < (bump s filename).versions filename := by
  simp [bump]

theorem Inv.bump (h : Inv s) (n : String) (files : OrderedMap String EventFile)
    (hfiles : ∀ name, name ≠ n → files.has name = s.files.has name) :
    Inv { bump s n with files := files } := by
  have hcurrent : ∀ name version, Current s name version →
      Current { EventsWatcher.bump s n with files := files } name version := by
    intro name version hcur
    refine hcur.bump rfl rfl (bump_versions_le n name) fun hfile => ?_
    by_cases hname : name = n
    · subst hname
      exact .inr bump_versions_self
    · exact .inl ((hfiles name hname).symm.trans hfile)
  exact
    { holders := h.holders
      recorded := h.recorded
      known := h.known
      scheduled := fun sch hsch => hcurrent _ _ (h.scheduled sch hsch)
      read := fun c hc event version he => hcurrent _ _ (h.read c hc event version he)
      handled := fun name => (h.handled name).trans (bump_versions_le n name)
      executed := fun e he hd => (h.executed e he hd).trans_le (bump_versions_le n _)
      once := h.once
      idle := h.idle }

theorem Inv.writeFile (h : Inv s) (n : String) (file : EventFile) : Inv (writeFile s n file) := by
  apply h.bump n
  intro name hname
  simp [OrderedMap.has, hname.symm]

theorem Inv.unlink (h : Inv s) (n : String) : Inv (unlink s n) := by
  unfold EventsWatcher.unlink
  split_ifs
  · apply h.bump n
    intro name hname
    simp [OrderedMap.has, hname.symm]
  · exact h

theorem Current.lt_unlink (h : Current s filename version) :
    version < (unlink s filename).versions filename := by
  unfold EventsWatcher.unlink
  split_ifs with hfile
  · exact h.changed.trans_lt bump_versions_self
  · exact h.removed (Bool.eq_false_iff.mpr hfile)

/-- The files, what was handled and what was executed stay as they are. -/
structure SameContents (s s' : Watcher) : Prop where
  handled : s'.handled = s.handled
  versions : s'.versions = s.versions
  files : s'.files = s.files
  executed : s'.executed = s.executed

theorem Current.of_same (h : Current s filename version)
    (hs : SameContents s s') : Current s' filename version := by
  apply h.bump hs.handled hs.executed
  · exact le_of_eq (by rw [hs.versions])
  · intro hfile
    rw [hs.files] at hfile
    exact .inl hfile

theorem Inv.of_same (h : Inv s) (hs : SameContents s s')
    (hholders : (EventsWatcher.holders s').Nodup)
    (hlive : ∀ sch ∈ s'.live, recordedFor s' sch = some sch.id ∧ sch.filename ∈ s'.knownFiles ∧
      Current s sch.filename sch.version)
    (hread : ∀ c ∈ s'.calls, ∀ event version, c.event? = some (event, version) →
      Current s c.filename version)
    (hidle : s'.started = false →
      s'.calls = [] ∧ s'.live = [] ∧ ∀ filename, s'.debounceTimers filename = false) : Inv s' where
  holders := hholders
  recorded := fun sch hsch => (hlive sch hsch).1
  known := fun sch hsch => (hlive sch hsch).2.1
  scheduled := fun sch hsch => (hlive sch hsch).2.2.of_same hs
  read := fun c hc event version he => (hread c hc event version he).of_same hs
  handled := by
    rw [hs.handled, hs.versions]
    exact h.handled
  executed := by
    rw [hs.executed, hs.versions]
    exact h.executed
  once := by
    rw [hs.executed]
    exact h.once
  idle := hidle

theorem Inv.live (h : Inv s) (hsch : sch ∈ s.live) :
    recordedFor s sch = some sch.id ∧ sch.filename ∈ s.knownFiles ∧
      Current s sch.filename sch.version :=
  ⟨h.recorded sch hsch, h.known sch hsch, h.scheduled sch hsch⟩

theorem Inv.forget (h : Inv s) (n : String) (hn : ∀ sch ∈ s.live, sch.filename ≠ n) :
    Inv (forget s n) := by
  refine h.of_same ⟨rfl, rfl, rfl, rfl⟩ h.holders (fun sch hsch => ?_) h.read h.idle
  obtain ⟨hrecorded, hknown, hcurrent⟩ := h.live hsch
  exact ⟨hrecorded, mem_filter.mpr ⟨hknown, by simpa using hn sch hsch⟩, hcurrent⟩

theorem unlink_live (n : String) : (unlink s n).live = s.live := by
  unfold EventsWatcher.unlink
  split_ifs <;> rfl

theorem unlink_calls (n : String) : (unlink s n).calls = s.calls := by
  unfold EventsWatcher.unlink
  split_ifs <;> rfl

theorem Inv.deleteFile (h : Inv s) (n : String) (hn : ∀ sch ∈ s.live, sch.filename ≠ n) :
    Inv (deleteFile s n) :=
  (h.unlink n).forget n (by rwa [unlink_live])

theorem Inv.of_ended (h : Inv s) (hs : SameContents s s')
    (hcalls : s'.calls = s.calls) (hstarted : s'.started = s.started)
    (hdebounce : s'.debounceTimers = s.debounceTimers) (hknown : s'.knownFiles = s.knownFiles)
    (hlive : s'.live.Sublist s.live)
    (hrecorded : ∀ sch ∈ s'.live, recordedFor s' sch = recordedFor s sch) : Inv s' := by
  refine h.of_same hs ?_ (fun sch hsch => ?_) ?_ ?_
  · unfold EventsWatcher.holders
    rw [hcalls]
    exact h.holders.sublist ((hlive.map _).append_left _)
  · obtain ⟨hrec, hkn, hcur⟩ := h.live (hlive.subset hsch)
    exact ⟨(hrecorded sch hsch).trans hrec, hknown ▸ hkn, hcur⟩
  · rw [hcalls]
    exact h.read
  · intro hidle
    rw [hstarted] at hidle
    obtain ⟨hc, hl, hd⟩ := h.idle hidle
    rw [hcalls, hdebounce]
    exact ⟨hc, sublist_nil.mp (hl ▸ hlive), hd⟩

theorem cancelScheduled_live (n : String) : (cancelScheduled s n).live =
    s.live.filter fun sch => some sch.id ≠ s.timers n ∧ some sch.id ≠ s.crons n := by
  simp only [cancelScheduled, clear, List.filter_filter]
  exact List.filter_congr fun sch _ => by simp [Bool.and_comm]

variable {n : String} {event : MomEvent}

theorem Inv.ne_of_cancelled (h : Inv s) (hsch : sch ∈ (cancelScheduled s n).live) :
    sch.filename ≠ n := by
  rw [cancelScheduled_live, mem_filter, decide_eq_true_eq] at hsch
  rintro rfl
  have hrecorded := h.recorded sch hsch.1
  unfold recordedFor at hrecorded
  split_ifs at hrecorded
  · exact hsch.2.1 hrecorded.symm
  · exact hsch.2.2 hrecorded.symm

theorem Inv.cancelScheduled (h : Inv s) (n : String) : Inv (cancelScheduled s n) := by
  refine h.of_ended ⟨rfl, rfl, rfl, rfl⟩ rfl rfl rfl rfl ?_ fun sch hsch => ?_
  · rw [cancelScheduled_live]
    exact filter_sublist
  · have hne := h.ne_of_cancelled hsch
    simp [recordedFor, EventsWatcher.cancelScheduled, Function.update_of_ne hne]

theorem Inv.register (h : Inv s) (sch : Schedule) (hs : SameContents s s')
    (hfree : sch.filename ∉ EventsWatcher.holders s) (hknown : sch.filename ∈ s.knownFiles)
    (hcurrent : Current s sch.filename sch.version) (hstarted : s.started = true)
    (hlive : s'.live = s.live ++ [sch]) (hcalls : s'.calls = s.calls)
    (hstarted' : s'.started = s.started) (hknown' : s'.knownFiles = s.knownFiles)
    (hrecorded : recordedFor s' sch = some sch.id)
    (hothers : ∀ other ∈ s.live, other.filename ≠ sch.filename →
      recordedFor s' other = recordedFor s other) : Inv s' := by
  refine h.of_same hs ?_ (fun other hother => ?_) ?_ fun hidle => ?_
  · unfold EventsWatcher.holders
    rw [hcalls, hlive, map_append, ← append_assoc, nodup_append]
    refine ⟨h.holders, nodup_singleton _, fun name hname name' hname' => ?_⟩
    rintro rfl
    rw [map_singleton, mem_singleton] at hname'
    exact hfree (hname' ▸ hname)
  · rw [hlive, mem_append, mem_singleton] at hother
    rw [hknown']
    obtain hother | rfl := hother
    · have hne : other.filename ≠ sch.filename := fun hname =>
        hfree (mem_holders.mpr (.inr ⟨other, hother, hname⟩))
      rw [hothers other hother hne]
      exact h.live hother
    · exact ⟨hrecorded, hknown, hcurrent⟩
  · rw [hcalls]
    exact h.read
  · rw [hstarted', hstarted] at hidle
    cases hidle

theorem Inv.handleFile (h : Inv s) (hfree : n ∉ EventsWatcher.holders s)
    (hstarted : s.started = true) : Inv (handleFile s n) := by
  refine h.of_same ⟨rfl, rfl, rfl, rfl⟩ ?_ (fun sch => h.live) (fun c hc event version he => ?_)
    fun hidle => ?_
  · have hperm : (EventsWatcher.holders (EventsWatcher.handleFile s n)).Perm
        (n :: EventsWatcher.holders s) := by
      simp only [EventsWatcher.holders, EventsWatcher.handleFile, map_append,
        map_singleton, append_assoc]
      exact perm_middle
    exact hperm.nodup_iff.mpr (nodup_cons.mpr ⟨hfree, h.holders⟩)
  · obtain hc | hc := mem_append.mp hc
    · exact h.read c hc event version he
    · rw [mem_singleton.mp hc] at he
      cases he
  · rw [show (EventsWatcher.handleFile s n).started = s.started from rfl, hstarted] at hidle
    cases hidle

theorem Inv.setPhase (h : Inv s) (hc : c ∈ s.calls) (attempt : ℕ) (phase : Phase)
    (hread : ∀ event version, ({ c with attempt := attempt, phase := phase } : Call).event? =
      some (event, version) → Current s c.filename version) : Inv (setPhase s c attempt phase) := by
  have hnames : (EventsWatcher.setPhase s c attempt phase).calls.map (·.filename) =
      s.calls.map (·.filename) := by
    rw [EventsWatcher.setPhase, List.map_map]
    refine map_congr_left fun c' _ => ?_
    rw [Function.comp_apply]
    split_ifs with heq
    · rw [heq]
    · rfl
  refine h.of_same ⟨rfl, rfl, rfl, rfl⟩ ?_ (fun sch => h.live) (fun c' hc' event version he => ?_)
    fun hidle => ?_
  · unfold EventsWatcher.holders
    rw [hnames]
    exact h.holders
  · obtain ⟨c₀, hc₀, rfl⟩ := mem_map.mp hc'
    split_ifs at he ⊢ with heq
    · exact hread event version he
    · exact h.read c₀ hc₀ event version he
  · rw [(h.idle hidle).1] at hc
    cases hc

theorem Inv.finish (h : Inv s) (c : Call) : Inv (finish s c) := by
  have hsub : (EventsWatcher.finish s c).calls.Sublist s.calls := filter_sublist
  refine h.of_same ⟨rfl, rfl, rfl, rfl⟩ ?_ (fun sch => h.live)
    (fun c' hc' => h.read c' (hsub.subset hc')) fun hidle => ?_
  · exact h.holders.sublist ((hsub.map _).append_right _)
  · obtain ⟨hcalls, hrest⟩ := h.idle hidle
    exact ⟨sublist_nil.mp (hcalls ▸ hsub), hrest⟩

theorem Inv.not_mem_holders_finish (h : Inv s) (hc : c ∈ s.calls) :
    c.filename ∉ EventsWatcher.holders (EventsWatcher.finish s c) := by
  rw [mem_holders]
  rintro (⟨c', hc', hname⟩ | ⟨sch, hsch, hname⟩)
  · obtain ⟨hmem, hne⟩ := mem_filter.mp hc'
    exact of_decide_eq_true hne (h.singleCall hmem hc hname)
  · exact h.ne_of_mem hc hsch hname

theorem Inv.scanExisting (h : Inv s) (hstarted : s.started = true)
    (hnone : EventsWatcher.holders s = []) : Inv (scanExisting s) := by
  have hfold : ∀ (names : List String) (s : Watcher), names.Nodup → Inv s → s.started = true →
      (∀ name ∈ names, name ∉ EventsWatcher.holders s) →
      Inv (names.foldl EventsWatcher.handleFile s) := by
    intro names
    induction names with
    | nil => exact fun s _ h _ _ => h
    | cons name names ih =>
      intro s hnames h hstarted hfree
      obtain ⟨hnot, hnames⟩ := nodup_cons.mp hnames
      refine ih _ hnames (h.handleFile (hfree name mem_cons_self) hstarted) hstarted ?_
      intro name' hname'
      have hfree' := hfree name' (mem_cons_of_mem _ hname')
      rw [mem_holders] at hfree' ⊢
      rintro (⟨c, hc, heq⟩ | hsch)
      · obtain hc | hc := mem_append.mp hc
        · exact hfree' (.inl ⟨c, hc, heq⟩)
        · rw [mem_singleton.mp hc] at heq
          obtain rfl : name = name' := heq
          exact hnot hname'
      · exact hfree' (.inr hsch)
  refine hfold _ s (s.files.nodup.filter _) h hstarted fun name _ => ?_
  rw [hnone]
  exact not_mem_nil

theorem executedContents_append (executed : List Execution) (e : Execution) :
    executedContents (executed ++ [e]) = executedContents executed ++
      if e.event.deleteAfter then [(e.filename, e.version)] else [] := by
  unfold executedContents
  split_ifs with hdelete <;> simp [hdelete]

theorem Inv.execute (h : Inv s) (hfree : filename ∉ EventsWatcher.holders s)
    (hversion : version < s.versions filename) (hnew : ExecutedBefore s filename version) :
    Inv { s with executed := s.executed ++ [⟨filename, event, version⟩] } := by
  have hother : ∀ name version', name ≠ filename → Current s name version' →
      Current { s with executed := s.executed ++ [⟨filename, event, version⟩] } name version' := by
    intro name version' hne hcur
    refine ⟨hcur.handled, hcur.changed, hcur.removed, fun e he hdelete hname => ?_⟩
    obtain he | he := mem_append.mp he
    · exact hcur.unexecuted e he hdelete hname
    · rw [mem_singleton.mp he] at hname
      exact absurd hname.symm hne
  exact
    { h with
      scheduled := fun sch hsch => hother _ _
        (fun hname => hfree (mem_holders.mpr (.inr ⟨sch, hsch, hname⟩))) (h.scheduled sch hsch)
      read := fun c hc event' version' he => hother _ _
        (fun hname => hfree (mem_holders.mpr (.inl ⟨c, hc, hname⟩))) (h.read c hc _ _ he)
      executed := by
        intro e he hdelete
        obtain he | he := mem_append.mp he
        · exact h.executed e he hdelete
        · rw [mem_singleton.mp he]
          exact hversion
      once := by
        rw [executedContents_append, nodup_append]
        refine ⟨h.once, by split_ifs <;> simp, fun content hcontent content' hcontent' => ?_⟩
        rintro rfl
        obtain ⟨e, he, rfl⟩ := mem_map.mp hcontent
        obtain ⟨he, hdelete⟩ := mem_filter.mp he
        split_ifs at hcontent'
        · obtain ⟨hname, hversion'⟩ := Prod.mk.inj (mem_singleton.mp hcontent')
          exact (hnew e he hdelete hname).ne hversion'
        · cases hcontent' }

theorem Inv.execute_periodic (h : Inv s) {e : Execution} (hperiodic : e.event.deleteAfter = false) :
    Inv { s with executed := s.executed ++ [e] } := by
  have hbefore : ∀ name version, ExecutedBefore s name version →
      ExecutedBefore { s with executed := s.executed ++ [e] } name version := by
    intro name version hb e' he' hdelete hname
    obtain he' | he' := mem_append.mp he'
    · exact hb e' he' hdelete hname
    · rw [mem_singleton.mp he', hperiodic] at hdelete
      cases hdelete
  have hcurrent : ∀ name version, Current s name version →
      Current { s with executed := s.executed ++ [e] } name version := fun name version hcur =>
    ⟨hcur.handled, hcur.changed, hcur.removed, hbefore _ _ hcur.unexecuted⟩
  exact
    { h with
      scheduled := fun sch hsch => hcurrent _ _ (h.scheduled sch hsch)
      read := fun c hc event version he => hcurrent _ _ (h.read c hc event version he)
      executed := by
        intro e' he' hdelete
        obtain he' | he' := mem_append.mp he'
        · exact h.executed e' he' hdelete
        · rw [mem_singleton.mp he', hperiodic] at hdelete
          cases hdelete
      once := by
        rw [executedContents_append, hperiodic]
        simpa using h.once }

theorem deleteFile_holders (n : String) :
    EventsWatcher.holders (deleteFile s n) = EventsWatcher.holders s := by
  simp [EventsWatcher.holders, deleteFile, EventsWatcher.forget, unlink_calls, unlink_live]

theorem deleteFile_executed (n : String) (executed : List Execution) :
    deleteFile { s with executed := executed } n =
      { deleteFile s n with executed := executed } := by
  simp only [deleteFile, EventsWatcher.unlink]
  split_ifs <;> rfl

theorem Inv.executeAndDelete (h : Inv s) (hfree : filename ∉ EventsWatcher.holders s)
    (hcurrent : Current s filename version) :
    Inv (EventsWatcher.deleteFile
      { s with executed := s.executed ++ [⟨filename, event, version⟩] } filename) := by
  rw [deleteFile_executed]
  have hnone : ∀ sch ∈ s.live, sch.filename ≠ filename := fun sch hsch hname =>
    hfree (mem_holders.mpr (.inr ⟨sch, hsch, hname⟩))
  have hexecuted : (EventsWatcher.deleteFile s filename).executed = s.executed := by
    simp only [EventsWatcher.deleteFile, EventsWatcher.unlink]
    split_ifs <;> rfl
  rw [← hexecuted]
  apply (h.deleteFile filename hnone).execute
  · rwa [deleteFile_holders]
  · exact hcurrent.lt_unlink
  · unfold ExecutedBefore
    rw [hexecuted]
    exact hcurrent.unexecuted

theorem Inv.fire (h : Inv s) (hsch : sch ∈ s.live) : Inv (fire s sch) := by
  unfold EventsWatcher.fire
  split_ifs with hdelete
  · have hne : ∀ other ∈ s.live.filter (·.id ≠ sch.id), other.filename ≠ sch.filename := by
      intro other hother hname
      obtain ⟨hother, hid⟩ := mem_filter.mp hother
      rw [h.single hother hsch hname] at hid
      simp at hid
    have hended : Inv
        { s with
          live := s.live.filter (·.id ≠ sch.id)
          timers := Function.update s.timers sch.filename none } := by
      refine h.of_ended ⟨rfl, rfl, rfl, rfl⟩ rfl rfl rfl rfl filter_sublist fun other ho => ?_
      simp [recordedFor, Function.update_of_ne (hne other ho)]
    refine hended.executeAndDelete ?_ ((h.scheduled sch hsch).of_same ⟨rfl, rfl, rfl, rfl⟩)
    rw [mem_holders]
    rintro (⟨c, hc, hname⟩ | ⟨other, hother, hname⟩)
    · exact h.ne_of_mem hc hsch hname.symm
    · exact hne other hother hname
  · exact h.execute_periodic (Bool.eq_false_iff.mpr hdelete)

theorem Inv.schedule (h : Inv s) (P : Platform) (hfree : filename ∉ EventsWatcher.holders s)
    (hcurrent : Current s filename version) (hstarted : s.started = true) :
    Inv (schedule s P filename event version) := by
  have hnone : ∀ sch ∈ s.live, sch.filename ≠ filename := fun sch hsch hname =>
    hfree (mem_holders.mpr (.inr ⟨sch, hsch, hname⟩))
  unfold EventsWatcher.schedule
  generalize hknownFiles : (if filename ∈ s.knownFiles then s.knownFiles
    else s.knownFiles ++ [filename]) = knownFiles
  have hmem : filename ∈ knownFiles := by
    rw [← hknownFiles]
    split_ifs with hknown
    · exact hknown
    · simp
  have hsub : ∀ name ∈ s.knownFiles, name ∈ knownFiles := by
    intro name hname
    rw [← hknownFiles]
    split_ifs
    · exact hname
    · exact mem_append_left _ hname
  have hknown : Inv { s with knownFiles := knownFiles } :=
    h.of_same ⟨rfl, rfl, rfl, rfl⟩ h.holders
      (fun sch hsch => ⟨h.recorded sch hsch, hsub _ (h.known sch hsch), h.scheduled sch hsch⟩)
      h.read h.idle
  have hcurrent' : Current { s with knownFiles := knownFiles } filename version :=
    hcurrent.of_same ⟨rfl, rfl, rfl, rfl⟩
  cases event with
  | immediate channelId text =>
    dsimp only [handleImmediate]
    split
    · exact hknown
    · split_ifs
      · exact hknown.deleteFile filename hnone
      · exact hknown.executeAndDelete hfree hcurrent'
  | oneShot channelId text at' =>
    dsimp only [handleOneShot]
    split_ifs
    · exact hknown.deleteFile filename hnone
    · refine hknown.register _ ⟨rfl, rfl, rfl, rfl⟩ hfree hmem hcurrent' hstarted rfl rfl rfl rfl
        ?_ fun other _ hne => ?_
      · simp [recordedFor, MomEvent.deleteAfter]
      · simp [recordedFor, Function.update_of_ne hne]
  | periodic channelId text pattern timezone =>
    dsimp only [handlePeriodic]
    split_ifs
    · refine hknown.register _ ⟨rfl, rfl, rfl, rfl⟩ hfree hmem hcurrent' hstarted rfl rfl rfl rfl
        ?_ fun other _ hne => ?_
      · simp [recordedFor, MomEvent.deleteAfter]
      · simp [recordedFor, Function.update_of_ne hne]
    · exact hknown.deleteFile filename hnone

theorem Inv.started_of_call (h : Inv s) (hc : c ∈ s.calls) : s.started = true := by
  by_contra hidle
  rw [(h.idle (Bool.eq_false_iff.mpr hidle)).1] at hc
  cases hc

theorem Inv.resume (h : Inv s) (P : Platform) (hc : c ∈ s.calls) {result : ReadResult}
    (hphase : c.phase = .resolved result) : Inv (resume s P c result) := by
  have hfree := h.not_mem_holders_finish hc
  have hevent : c.event? = result.event? := by rw [Call.event?, hphase]
  unfold EventsWatcher.resume
  split
  · next event version he =>
      exact (h.finish c).schedule P hfree
        ((h.read c hc event version (hevent.trans he)).of_same ⟨rfl, rfl, rfl, rfl⟩)
        (h.started_of_call hc)
  · split_ifs
    · exact h.setPhase hc _ _ nofun
    · exact (h.finish c).deleteFile _ fun sch hsch => h.ne_of_mem hc hsch

theorem Inv.current_of_read (h : Inv s) {file : EventFile}
    (hfile : s.files.get filename = some file) :
    Current s filename (s.versions filename) := by
  refine ⟨h.handled filename, le_rfl, fun hmissing => ?_, fun e he hdelete hname => ?_⟩
  · rw [OrderedMap.has, hfile] at hmissing
    cases hmissing
  · rw [← hname]
    exact h.executed e he hdelete

theorem Inv.read_file (h : Inv s) (hc : c ∈ s.calls) :
    Inv (EventsWatcher.setPhase s c c.attempt
      (.resolved ((s.files.get c.filename).map fun file =>
        (file.content, s.versions c.filename)))) := by
  refine h.setPhase hc _ _ fun event version he => ?_
  cases hfile : s.files.get c.filename with
  | none =>
    rw [hfile] at he
    cases he
  | some file =>
    rw [hfile] at he
    obtain ⟨event', hevent', heq⟩ := map_eq_some_iff.mp he
    rw [← (Prod.mk.inj heq).2]
    exact h.current_of_read hfile

theorem Inv.handle (h : Inv s) (hlive : ∀ sch ∈ s.live, sch.filename ≠ filename)
    (hcalls : ∀ c ∈ s.calls, c.filename = filename → c.event?.isNone) :
    Inv { s with handled := Function.update s.handled filename (s.versions filename) } := by
  have hother : ∀ name version, name ≠ filename → Current s name version →
      Current { s with handled := Function.update s.handled filename (s.versions filename) }
        name version := by
    intro name version hne hcur
    refine ⟨?_, hcur.changed, hcur.removed, hcur.unexecuted⟩
    simpa only [Function.update_of_ne hne] using hcur.handled
  exact
    { h with
      scheduled := fun sch hsch => hother _ _ (hlive sch hsch) (h.scheduled sch hsch)
      read := by
        intro c hc event version he
        refine hother _ _ (fun hname => ?_) (h.read c hc event version he)
        have hnone := hcalls c hc hname
        rw [he] at hnone
        cases hnone
      handled := by
        intro name
        by_cases hname : name = filename
        · subst hname
          simp
        · simpa only [Function.update_of_ne hname] using h.handled name }

theorem Inv.not_known (h : Inv s) (hknown : filename ∉ s.knownFiles) :
    ∀ sch ∈ s.live, sch.filename ≠ filename := by
  rintro sch hsch rfl
  exact hknown (h.known sch hsch)

theorem Inv.handleFileChange (h : Inv s) (hstarted : s.started = true)
    (hok : if s.files.has filename then ∀ c ∈ s.calls, c.filename ≠ filename
      else ∀ c ∈ s.calls, c.filename = filename → c.event?.isNone) :
    Inv (handleFileChange s filename) := by
  have hcalls : ∀ c ∈ s.calls, c.filename = filename → c.event?.isNone := by
    intro c hc hname
    split_ifs at hok
    · exact absurd hname (hok c hc)
    · exact hok c hc hname
  have hcancelled : Inv { EventsWatcher.cancelScheduled s filename with
      handled := Function.update s.handled filename (s.versions filename) } :=
    (h.cancelScheduled filename).handle (fun sch => h.ne_of_cancelled) hcalls
  have hlive : ∀ sch ∈ (EventsWatcher.cancelScheduled s filename).live, sch.filename ≠ filename :=
    fun sch => h.ne_of_cancelled
  unfold EventsWatcher.handleFileChange
  dsimp only
  split_ifs with hfile hknown
  · rw [if_pos hfile] at hok
    refine hcancelled.handleFile ?_ hstarted
    rw [mem_holders]
    rintro (⟨c, hc, hname⟩ | ⟨sch, hsch, hname⟩)
    · exact hok c hc hname
    · exact hlive sch hsch hname
  · rw [if_pos hfile] at hok
    have hnot := h.not_known hknown
    refine (h.handle hnot hcalls).handleFile ?_ hstarted
    rw [mem_holders]
    rintro (⟨c, hc, hname⟩ | ⟨sch, hsch, hname⟩)
    · exact hok c hc hname
    · exact hnot sch hsch hname
  · unfold handleDelete
    split_ifs with hknown
    · exact hcancelled.forget filename hlive
    · exact h.handle (h.not_known hknown) hcalls

theorem mem_of_callOf {id : ℕ} (h : callOf s id = some c) : c ∈ s.calls :=
  mem_of_find?_eq_some h

theorem Inv.step (h : Inv s) {P : Platform} {a : Action} (hok : Undisturbed s a)
    (hs : step P s a = some s') : Inv s' := by
  cases a with
  | advance ms =>
    cases hs
    exact h.of_same ⟨rfl, rfl, rfl, rfl⟩ h.holders (fun sch => h.live) h.read h.idle
  | writeFile filename file =>
    cases hs
    exact h.writeFile filename file
  | removeFile filename =>
    cases hs
    exact h.unlink filename
  | start =>
    simp only [EventsWatcher.step] at hs
    split_ifs at hs with hstarted
    cases hs
    obtain ⟨hcalls, hlive, _⟩ := h.idle (Bool.eq_false_iff.mpr hstarted)
    have hstart : Inv { s with started := true } :=
      h.of_same ⟨rfl, rfl, rfl, rfl⟩ h.holders (fun sch => h.live) h.read fun hidle => by
        cases hidle
    exact hstart.scanExisting rfl (by simp [EventsWatcher.holders, hcalls, hlive])
  | watchEvent filename =>
    simp only [EventsWatcher.step] at hs
    split_ifs at hs with hstarted
    cases hs
    refine h.of_same ⟨rfl, rfl, rfl, rfl⟩ h.holders (fun sch => h.live) h.read fun hidle => ?_
    rw [hstarted.1] at hidle
    cases hidle
  | debounced filename =>
    simp only [EventsWatcher.step] at hs
    split_ifs at hs with htimer
    cases hs
    have hstarted : s.started = true := by
      by_contra hidle
      rw [(h.idle (Bool.eq_false_iff.mpr hidle)).2.2 filename] at htimer
      cases htimer
    have hcleared : Inv { s with
        debounceTimers := Function.update s.debounceTimers filename false } := by
      refine h.of_same ⟨rfl, rfl, rfl, rfl⟩ h.holders (fun sch => h.live) h.read fun hidle => ?_
      rw [hstarted] at hidle
      cases hidle
    exact hcleared.handleFileChange hstarted hok
  | read id =>
    obtain ⟨c, hc, hs⟩ := bind_eq_some_iff.mp hs
    split_ifs at hs
    cases hs
    exact h.read_file (mem_of_callOf hc)
  | resume id =>
    obtain ⟨c, hc, hs⟩ := bind_eq_some_iff.mp hs
    split at hs
    · next result hphase =>
        cases hs
        exact h.resume P (mem_of_callOf hc) hphase
    · cases hs
  | wake id =>
    obtain ⟨c, hc, hs⟩ := bind_eq_some_iff.mp hs
    split_ifs at hs
    cases hs
    exact h.setPhase (mem_of_callOf hc) _ _ nofun
  | fire id =>
    obtain ⟨sch, hsch, hs⟩ := bind_eq_some_iff.mp hs
    split_ifs at hs
    cases hs
    exact h.fire (mem_of_find?_eq_some hsch)

/-- In every run in which calls of a file are not disturbed by its changes, each file has one live
schedule at most. -/
theorem oneSchedule_of_undisturbed (P : Platform) (now : ℤ) (files : OrderedMap String EventFile)
    {steps : List (Transition Watcher Action)} {s : Watcher}
    (h : GuardedRun (step P) Undisturbed (initial now files) steps s) : OneSchedule s :=
  (h.invariant (I := Inv) (inv_initial now files) fun _ _ _ hI hok hs => hI.step hok hs).oneSchedule

def tenPast : String := "2026-01-01T10:00:10Z"

def twentyPast : String := "2026-01-01T10:00:20Z"

/-- The two dates, in milliseconds. No cron job is used. -/
def dates : Platform where
  getTime := fun at' =>
    if at' = .string tenPast then some 1767261610000
    else if at' = .string twentyPast then some 1767261620000 else none
  validCron := fun _ _ => false

def reminder (date : String) : Option Json :=
  some (.object (.cons "type" (.string "one-shot") (.cons "channelId" (.string "C1")
    (.cons "text" (.string "stand up") (.cons "at" (.string date) .nil)))))

def putOff : List Action :=
  [.start, .read 0, .resume 0, .writeFile "a.json" ⟨reminder twentyPast, 1767261605000⟩,
    .watchEvent "a.json", .debounced "a.json", .read 2, .resume 2, .advance 20000, .fire 3]

theorem oneSchedule_putOff : ∃ steps s,
    (GuardedRun (step dates) Undisturbed (initial 1767261600000
        (OrderedMap.empty.set "a.json" ⟨reminder tenPast, 1767261500000⟩)) steps s ∧
      (s.live = [] ∧ s.executed.map (·.version) = [1])) ∧ OneSchedule s := by
  obtain ⟨steps, s, hruns, hend⟩ := GuardedRun.exists_of_play (step dates) Undisturbed
    (initial 1767261600000 (OrderedMap.empty.set "a.json" ⟨reminder tenPast, 1767261500000⟩)) putOff
    (fun _ s => s.live = [] ∧ s.executed.map (·.version) = [1]) (by decide)
  exact ⟨steps, s, ⟨hruns, hend⟩, oneSchedule_of_undisturbed _ _ _ hruns⟩

/-- The first half of a file is read, and the file is complete before it is read again. -/
def writtenInTwo : List Action :=
  [.start, .writeFile "a.json" ⟨none, 1767261601000⟩, .watchEvent "a.json", .debounced "a.json",
    .read 0, .resume 0, .writeFile "a.json" ⟨reminder tenPast, 1767261601050⟩,
    .watchEvent "a.json", .debounced "a.json", .wake 0, .read 0, .resume 0, .read 1, .resume 1]

/-- Both calls schedule the reminder. -/
theorem writtenInTwo_not_oneSchedule :
    ¬ ∀ (P : Platform) (now : ℤ) (files : OrderedMap String EventFile)
      (steps : List (Transition Watcher Action)) (s : Watcher),
      GuardedRun (step P) (fun _ _ => True) (initial now files) steps s → OneSchedule s := by
  intro hclaim
  obtain ⟨steps, s, hruns, a, ha, b, hb, hname, hne⟩ := GuardedRun.exists_of_play (step dates)
    (fun _ _ => True) (initial 1767261600000 OrderedMap.empty) writtenInTwo
    (fun _ s => ∃ a ∈ s.live, ∃ b ∈ s.live, a.filename = b.filename ∧ a ≠ b) (by decide)
  exact hne ((hclaim dates _ _ steps s hruns).single a ha b hb hname)

/-- Between the two states nothing is executed, and nothing is scheduled that can fire, in any run
from there, when the event's date has not come. -/
def NeverEarly (P : Platform) (at' : Json) (s s' : Watcher) : Prop :=
  s'.executed = s.executed ∧ ∀ started, s'.live = s.live ++ started → ∀ sch ∈ started,
    ∀ steps u, GuardedRun (step P) (fun _ _ => True) s' steps u → sch ∈ u.live → sch.due ≤ u.now →
      ∃ atTime, P.getTime at' = some atTime ∧ atTime ≤ u.now

variable {P : Platform} {at' channelId text : Json}

theorem deleteFile_kept (n : String) :
    (deleteFile s n).live = s.live ∧ (deleteFile s n).executed = s.executed := by
  simp only [deleteFile, forget, unlink]
  split_ifs <;> exact ⟨rfl, rfl⟩

theorem not_neverEarly_of_due
    (h : NeverEarly P at' s (schedule s P filename (.oneShot channelId text at') version))
    (hlate : ∀ atTime ∈ P.getTime at', s.now + 1 < atTime)
    (hdue : dueTime s.now (P.getTime at') = s.now + 1) : False := by
  have hfuture : (P.getTime at').any (· ≤ s.now) = false := by
    cases htime : P.getTime at' with
    | none => rfl
    | some atTime =>
      have hlt := hlate atTime htime
      exact decide_eq_false (by omega)
  unfold schedule at h
  simp only [handleOneShot, hfuture, hdue, Bool.false_eq_true, if_false] at h
  obtain ⟨atTime, htime, hle⟩ := h.2 _ rfl _ (mem_singleton_self _) _ _
    (.step (.advance 1) .start trivial rfl) (mem_append_right _ (mem_singleton_self _)) (Int.le_refl _)
  exact absurd hle (Int.not_le.mpr (hlate atTime htime))

/-- A one-shot event is never executed before its date, and never without one, exactly if it has a
date and the timer can wait for it. -/
theorem schedule_neverEarly_iff (s : Watcher) (P : Platform) (filename : String)
    (channelId text at' : Json) (version : ℕ) :
    NeverEarly P at' s (schedule s P filename (.oneShot channelId text at') version) ↔
      ∃ atTime, P.getTime at' = some atTime ∧ atTime - s.now ≤ 2147483647 := by
  constructor
  · intro h
    cases htime : P.getTime at' with
    | none =>
      refine (not_neverEarly_of_due h (fun _ hmem => ?_) (by rw [htime]; rfl)).elim
      cases htime.symm.trans hmem
    | some atTime =>
      refine ⟨atTime, rfl, Int.not_lt.mp fun hlt =>
        not_neverEarly_of_due h (fun t hmem => ?_) ?_⟩
      · obtain rfl := some.inj (htime.symm.trans hmem)
        omega
      · rw [htime, dueTime, if_pos hlt]
  · rintro ⟨atTime, htime, hle⟩
    unfold schedule
    generalize (if filename ∈ s.knownFiles then s.knownFiles else s.knownFiles ++ [filename]) =
      knownFiles
    simp only [handleOneShot, htime, any_some]
    split_ifs with hpast
    · obtain ⟨hlive, hexecuted⟩ := @deleteFile_kept { s with knownFiles := knownFiles } filename
      refine ⟨hexecuted, fun started hstarted sch hsch => ?_⟩
      rw [self_eq_append_right.mp (hlive.symm.trans hstarted)] at hsch
      cases hsch
    · refine ⟨rfl, fun started hstarted sch hsch steps u _ _ hdue => ⟨atTime, htime, ?_⟩⟩
      rw [← append_cancel_left hstarted, mem_singleton] at hsch
      rw [hsch, dueTime, if_neg (Int.not_lt.mpr hle)] at hdue
      exact hdue

theorem distantReminder_early : ¬NeverEarly dates (.string tenPast) (initial 1765114126352 .empty)
    (schedule (initial 1765114126352 .empty) dates "a.json"
      (.oneShot (.string "C1") (.string "stand up") (.string tenPast)) 0) := fun h =>
  not_neverEarly_of_due h (fun t ht => by obtain rfl := some.inj ht; decide) rfl

end Draht.EventsWatcher
