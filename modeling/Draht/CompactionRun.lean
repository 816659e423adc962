import Draht.CompactionConservation

/-!
# Successive compactions of a session

The session manager stands on the path that its leaf ends. Appending extends that path, and
over a run of appends and compactions every message of the context is summarised in one of
the compactions or still kept.
-/

namespace Draht
open List Option

namespace SessionManager

/-- The leaf of the session ends the path, and the index knows the entries of the path. -/
structure OnPath (s : SessionManager) (path : List SessionEntry) : Prop where
  wellFormed : WellFormedPath path
  indexed : ∀ e ∈ path, s.byId.get e.id = some e
  leaf : s.leafId = path.getLast?.map SessionEntry.id

variable {s : SessionManager} {path : List SessionEntry}

theorem OnPath.length_le (h : s.OnPath path) : path.length ≤ s.byId.size :=
  h.wellFormed.length_le h.indexed

theorem OnPath.truthy_leaf (h : s.OnPath path) : truthy s.leafId = s.leafId := by
  rw [h.leaf]
  cases hlast : path.getLast? with
  | none => rfl
  | some e => simp [truthy, h.wellFormed.id_ne_empty e (mem_of_getLast? hlast)]

theorem OnPath.leafEntry (h : s.OnPath path) : s.leafId.bind s.byId.get = path.getLast? := by
  rw [h.leaf]
  cases hlast : path.getLast? with
  | none => rfl
  | some e => exact h.indexed e (mem_of_getLast? hlast)

theorem OnPath.walk (h : s.OnPath path) : walkToRoot s.byId path.getLast? = some path :=
  h.wellFormed.walkToRoot_eq h.indexed (by have := h.length_le; omega)

theorem OnPath.getBranch (h : s.OnPath path) : s.getBranch none = some path := by
  rw [SessionManager.getBranch, none_or, h.truthy_leaf, h.leafEntry, h.walk]

theorem OnPath.context (h : s.OnPath path) : s.context = some (contextOfPath path) := by
  have hleaf := h.leafEntry
  have hwalk := h.walk
  rw [SessionManager.context]
  cases hlast : path.getLast? with
  | none =>
    obtain rfl := getLast?_eq_none_iff.mp hlast
    have hnull : s.leafId = none := h.leaf
    simp only [hnull, elim_none, buildSessionContext]
    rfl
  | some e =>
    have hid : s.leafId = some e.id := by rw [h.leaf, hlast]; rfl
    have hne : e.id ≠ "" := h.wellFormed.id_ne_empty e (mem_of_getLast? hlast)
    rw [hid, hlast, bind_some] at hleaf
    rw [hlast] at hwalk
    simp [hid, buildSessionContext, if_pos hne, hleaf, buildSessionContext.fromLeaf, hwalk]

theorem LogInvariant.onPath (h : LogInvariant s) (hpath : s.getBranch none = some path) :
    s.OnPath path := by
  cases hleaf : s.leafId with
  | none =>
    rw [SessionManager.getBranch, hleaf] at hpath
    obtain rfl : path = [] := by simpa [truthy, walkToRoot, ParentChain.climb] using hpath.symm
    exact ⟨⟨trivial, nodup_nil, by simp⟩, by simp, hleaf⟩
  | some id =>
    obtain ⟨e, he, rfl⟩ := mem_map.mp (h.leaf id hleaf)
    obtain ⟨path', hbranch, hwf, hsub, hlast⟩ := h.getBranch he
    have heq : s.getBranch (some e.id) = s.getBranch none := by
      rw [SessionManager.getBranch, SessionManager.getBranch, hleaf]; rfl
    obtain rfl : path' = path := by
      rw [heq, hpath] at hbranch
      exact (some.inj hbranch).symm
    exact ⟨hwf, fun e' he' => h.get_byId (hsub.subset he'), by rw [hleaf, hlast]; rfl⟩

variable {s' : SessionManager} {en : Entropy}

theorem OnPath.congr (h : s.OnPath path) (hbyId : s'.byId = s.byId) (hleaf : s'.leafId = s.leafId) :
    s'.OnPath path :=
  ⟨h.wellFormed, by rw [hbyId]; exact h.indexed, by rw [hleaf]; exact h.leaf⟩

theorem OnPath.appendBody (h : s.OnPath path) (hen : en.FullUuidUnused s) (body : EntryBody) :
    (s.appendBody en body).OnPath (path ++ [s.newEntry en s.leafId body]) := by
  obtain ⟨_, hbyId, hleaf⟩ := persistEntry_log
    { s with fileEntries := s.fileEntries ++ [.entry (s.newEntry en s.leafId body)],
             byId := s.byId.set (s.newEntry en s.leafId body).id (s.newEntry en s.leafId body),
             leafId := some (s.newEntry en s.leafId body).id } (s.newEntry en s.leafId body)
  have hfresh : s.byId.has (s.newEntry en s.leafId body).id = false :=
    generateId_fresh s.byId.has en.draw hen
  have hne : ∀ e ∈ path, e.id ≠ (s.newEntry en s.leafId body).id := by
    intro e he heq
    rw [← heq, OrderedMap.has, h.indexed e he] at hfresh
    simp at hfresh
  refine ⟨⟨?_, ?_, ?_⟩, ?_, ?_⟩
  · exact ParentChain.linked_snoc.mpr ⟨h.wellFormed.linked, h.leaf⟩
  · rw [map_append, nodup_append]
    refine ⟨h.wellFormed.nodup, by simp, ?_⟩
    intro a ha b hb
    obtain ⟨e, he, rfl⟩ := mem_map.mp ha
    obtain rfl : b = (s.newEntry en s.leafId body).id := by simpa using hb
    exact hne e he
  · intro e he
    obtain he | he := mem_append.mp he
    · exact h.wellFormed.id_ne_empty e he
    · obtain rfl : e = s.newEntry en s.leafId body := by simpa using he
      exact generateId_ne_empty _ _
  · intro e he
    rw [SessionManager.appendBody, SessionManager.appendEntry, hbyId, OrderedMap.get_set]
    obtain he | he := mem_append.mp he
    · rw [if_neg (hne e he).symm]
      exact h.indexed e he
    · obtain rfl : e = s.newEntry en s.leafId body := by simpa using he
      rw [if_pos rfl]
  · rw [SessionManager.appendBody, SessionManager.appendEntry, hleaf, getLast?_concat]
    rfl

/-- The operations that put one entry other than a compaction after the leaf; a branch summary
must not be empty. -/
def SessionOp.Extends (leafId : Option String) : SessionOp → Prop
  | .appendCompaction _ _ _ _ _ => False
  | .branch _ => False
  | .resetLeaf => False
  | .branchWithSummary branchFromId summary _ _ => branchFromId = leafId ∧ summary ≠ ""
  | _ => True

theorem OnPath.appendBody_extends (h : s.OnPath path) (hen : en.FullUuidUnused s) (body : EntryBody)
    (hbody : ∀ d, body ≠ .compaction d) (hsummary : ∀ d, body = .branchSummary d → d.summary ≠ "") :
    ∃ e, e.isCompaction = false ∧ (∀ d, e.body = .branchSummary d → d.summary ≠ "") ∧
      (s.appendBody en body).OnPath (path ++ [e]) := by
  refine ⟨s.newEntry en s.leafId body, ?_, hsummary, h.appendBody hen body⟩
  rw [← Bool.not_eq_true, SessionEntry.isCompaction_iff]
  rintro ⟨d, hd⟩
  exact hbody d hd

theorem OnPath.apply (h : s.OnPath path) (hen : en.FullUuidUnused s) {op : SessionOp}
    (hop : op.Extends s.leafId) (hs : s.apply en op = .ok s') :
    ∃ e, e.isCompaction = false ∧ (∀ d, e.body = .branchSummary d → d.summary ≠ "") ∧
      s'.OnPath (path ++ [e]) := by
  cases op with
  | appendCompaction _ _ _ _ _ | branch _ | resetLeaf => exact hop.elim
  | appendLabelChange targetId label =>
    simp only [SessionManager.apply, appendLabelChange] at hs
    split_ifs at hs with htarget
    cases hs
    obtain ⟨_, hbyId, hleaf⟩ := setLabel_log (s.appendBody en (.label targetId label))
      targetId label en.now
    obtain ⟨e, hcompaction, hsummary, hpath⟩ :=
      h.appendBody_extends hen (.label targetId label) (by simp) (by simp)
    exact ⟨e, hcompaction, hsummary, hpath.congr hbyId hleaf⟩
  | branchWithSummary branchFromId summary details fromHook =>
    obtain ⟨rfl, hne⟩ := hop
    simp only [SessionManager.apply, SessionManager.branchWithSummary] at hs
    split_ifs at hs with hfrom
    cases hs
    exact h.appendBody_extends hen _ (by simp) (by rintro d hd; cases hd; exact hne)
  | appendMessage _ | appendThinkingLevelChange _ | appendModelChange _ _
  | appendCustomEntry _ _ | appendSessionInfo _ | appendCustomMessageEntry _ _ _ _ =>
    cases hs
    exact h.appendBody_extends hen _ (by simp) (by simp)

end SessionManager

variable {c e : SessionEntry} {data : CompactionData}

theorem FirstKeptNotLater.of_compaction {path : List SessionEntry} (hc : c.isCompaction = true) :
    FirstKeptNotLater (path ++ [c]) := by
  intro before c' after data hsplit hc' hafter
  obtain rfl | ⟨after', e, rfl⟩ := eq_nil_or_concat after
  · simp
  · have hsplit' : path ++ [c] = (before ++ c' :: after') ++ [e] := by simpa using hsplit
    obtain ⟨_, he⟩ := append_inj' hsplit' rfl
    obtain rfl : c = e := by simpa using he
    rw [hafter c (by simp)] at hc
    simp at hc

theorem previousSummaryMessage_concat {path : List SessionEntry} (hc : c.body = .compaction data) :
    previousSummaryMessage (path ++ [c]) = [compactionSummaryOf c data] := by
  rw [previousSummaryMessage, pathSettings_compaction_split hc (by simp)]
  rfl

theorem keptMessages_concat_compaction {path : List SessionEntry} (hc : c.body = .compaction data) :
    keptMessages (path ++ [c]) =
      (keptFrom data.firstKeptEntryId path).filterMap contextMessage? := by
  rw [keptMessages_split hc (by simp) (by simp), filterMap_nil, append_nil]

theorem keptMessages_concat {path : List SessionEntry} (hpath : FirstKeptNotLater (path ++ [e]))
    (he : e.isCompaction = false) :
    keptMessages (path ++ [e]) = keptMessages path ++ [e].filterMap contextMessage? := by
  rcases split_last SessionEntry.isCompaction path with
    hnone | ⟨before, c, after, rfl, hc, hafter⟩
  · have hall : ∀ x ∈ path ++ [e], x.isCompaction = false := by
      intro x hx
      obtain hx | hx := mem_append.mp hx
      · exact hnone x hx
      · obtain rfl : x = e := by simpa using hx
        exact he
    rw [keptMessages_of_no_compaction hall, keptMessages_of_no_compaction hnone, filterMap_append]
  · obtain ⟨data, hdata⟩ := SessionEntry.isCompaction_iff.mp hc
    have hall : ∀ x ∈ after ++ [e], x.isCompaction = false := by
      intro x hx
      obtain hx | hx := mem_append.mp hx
      · exact hafter x hx
      · obtain rfl : x = e := by simpa using hx
        exact he
    have hkept := hpath before c (after ++ [e]) data (by simp) hdata hall
    have hkept' : data.firstKeptEntryId ∉ after.map SessionEntry.id := by
      intro hmem
      rw [map_append] at hkept
      exact hkept (mem_append_left _ hmem)
    rw [append_assoc, cons_append, keptMessages_split hdata hall hkept,
      keptMessages_split hdata hafter hkept', filterMap_append, append_assoc]

open SessionManager

/-- The steps between two compactions of a session and the compactions themselves, with the
messages that each compaction summarised: the summarised ones and the turn prefix. -/
inductive CompactionRun : SessionManager → List (List AgentMessage) → SessionManager → Prop
  | refl (s : SessionManager) : CompactionRun s [] s
  | extend {s t t' : SessionManager} {batches : List (List AgentMessage)}
      {path : List SessionEntry} (op : SessionOp) (en : Entropy)
      (ht : CompactionRun s batches t) (hop : op.Extends t.leafId)
      (hen : en.FullUuidUnused t) (h : t.apply en op = .ok t')
      (hpath : t'.getBranch none = some path) (hkept : FirstKeptNotLater path) :
      CompactionRun s batches t'
  | compact {s t : SessionManager} {batches : List (List AgentMessage)}
      {path : List SessionEntry} {settings : CompactionSettings} {p : CompactionPreparation}
      (en : Entropy) (summary : String) (tokensBefore : ℤ) (details : Option Json)
      (fromHook : Option Bool)
      (ht : CompactionRun s batches t) (hpath : t.getBranch none = some path)
      (hp : prepareCompaction path settings = some (some p)) (hen : en.FullUuidUnused t) :
      CompactionRun s (batches ++ [p.messagesToSummarize ++ p.turnPrefixMessages])
        (t.appendCompaction en summary p.firstKeptEntryId tokensBefore details fromHook)

theorem SummarisablePath.extend {path : List SessionEntry} (h : SummarisablePath path)
    (hwf : WellFormedPath (path ++ [e]))
    (hsummary : ∀ d, e.body = .branchSummary d → d.summary ≠ "")
    (hkept : FirstKeptNotLater (path ++ [e])) : SummarisablePath (path ++ [e]) := by
  refine ⟨hwf, ?_, hkept⟩
  intro x hx
  obtain hx | hx := mem_append.mp hx
  · exact h.summary_ne_empty x hx
  · obtain rfl : x = e := by simpa using hx
    exact hsummary

/-- After the compaction that `p` prepares, the session stands on a longer path whose kept
messages are those kept before without the summarised ones. -/
theorem SummarisablePath.compact {s : SessionManager} {path : List SessionEntry}
    (h : SummarisablePath path) (hs : s.OnPath path) {settings : CompactionSettings}
    {p : CompactionPreparation} (hp : prepareCompaction path settings = some (some p))
    {en : Entropy} (hen : en.FullUuidUnused s) (summary : String) (tokensBefore : ℤ)
    (details : Option Json) (fromHook : Option Bool) :
    ∃ c, (s.appendCompaction en summary p.firstKeptEntryId tokensBefore details fromHook).OnPath
        (path ++ [c]) ∧ SummarisablePath (path ++ [c]) ∧ contextMessage? c = none ∧
      previousSummaryMessage (path ++ [c]) =
        [.compactionSummary (createCompactionSummaryMessage summary tokensBefore en.now)] ∧
      keptMessages path =
        p.messagesToSummarize ++ p.turnPrefixMessages ++ keptMessages (path ++ [c]) := by
  let data : CompactionData :=
    { summary, firstKeptEntryId := p.firstKeptEntryId, tokensBefore, details, fromHook }
  have hon := hs.appendBody hen (.compaction data)
  have hbody : (s.newEntry en s.leafId (.compaction data)).body = .compaction data := rfl
  have hc := SessionEntry.isCompaction_iff.mpr ⟨data, hbody⟩
  refine ⟨s.newEntry en s.leafId (.compaction data), hon, ?_, ?_, ?_, ?_⟩
  · exact h.extend hon.wellFormed (by rw [hbody]; simp) (.of_compaction hc)
  · exact contextMessage?_of_isCompaction hc
  · exact previousSummaryMessage_concat hbody
  · rw [keptMessages_concat_compaction hbody]
    exact h.prepareCompaction_spec hp

theorem CompactionRun.conserves {s t : SessionManager} {batches : List (List AgentMessage)}
    {path : List SessionEntry} (hrun : CompactionRun s batches t) (hs : s.OnPath path)
    (hpath : SummarisablePath path) :
    ∃ later, t.OnPath (path ++ later) ∧ SummarisablePath (path ++ later) ∧
      keptMessages path ++ later.filterMap contextMessage? =
        batches.flatten ++ keptMessages (path ++ later) := by
  induction hrun with
  | refl => exact ⟨[], by simpa using hs, by simpa using hpath, by simp⟩
  | extend op en ht hop hen h hbranch hkept ih =>
    obtain ⟨later, hon, hsum, hkeep⟩ := ih
    obtain ⟨e, he, hsummary, hon'⟩ := hon.apply hen hop h
    obtain rfl := some.inj (hbranch.symm.trans hon'.getBranch)
    refine ⟨later ++ [e], by simpa using hon', ?_, ?_⟩
    · rw [← append_assoc]
      exact hsum.extend hon'.wellFormed hsummary hkept
    · rw [← append_assoc, keptMessages_concat hkept he, filterMap_append,
        ← append_assoc, hkeep, append_assoc]
  | compact en summary tokensBefore details fromHook ht hbranch hp hen ih =>
    obtain ⟨later, hon, hsum, hkeep⟩ := ih
    obtain rfl := some.inj (hbranch.symm.trans hon.getBranch)
    obtain ⟨c, hon', hsum', hnone, _, hkeep'⟩ :=
      hsum.compact hon hp hen summary tokensBefore details fromHook
    refine ⟨later ++ [c], by simpa using hon', by simpa using hsum', ?_⟩
    rw [filterMap_append, filterMap_cons_none hnone, filterMap_nil,
      append_nil, hkeep, hkeep', flatten_append, flatten_singleton]
    simp

/-- On a path whose last compaction does not keep from a later entry: the messages before a
compaction are the previous summary, the summarised messages, the turn prefix and a rest, and
the messages after it are the new summary and the same rest. Over a run of appends and
compactions the messages kept at first and those added later are, in order, the messages of
the batches and the messages still kept. -/
theorem compaction_conserves_messages {s : SessionManager} {path : List SessionEntry}
    (hs : s.OnPath path) (hpath : SummarisablePath path) :
    ∃ before kept, buildSessionContext path .undefined none = some before ∧
      s.context = some before ∧ before.messages = previousSummaryMessage path ++ kept ∧
      (∀ settings p, prepareCompaction path settings = some (some p) →
        ∃ K, kept = p.messagesToSummarize ++ p.turnPrefixMessages ++ K ∧
          ∀ (en : Entropy) summary tokensBefore details fromHook, en.FullUuidUnused s →
            ∃ after, (s.appendCompaction en summary p.firstKeptEntryId tokensBefore details
                fromHook).context = some after ∧
              after.messages = .compactionSummary
                (createCompactionSummaryMessage summary tokensBefore en.now) :: K) ∧
      ∀ batches t, CompactionRun s batches t →
        ∃ later after K, t.getBranch none = some (path ++ later) ∧ t.context = some after ∧
          after.messages = previousSummaryMessage (path ++ later) ++ K ∧
          kept ++ later.filterMap contextMessage? = batches.flatten ++ K := by
  refine ⟨contextOfPath path, keptMessages path, ?_, hs.context, hpath.messages_eq, ?_, ?_⟩
  · by_cases hne : path = []
    · subst hne; rfl
    · exact hpath.wellFormed.buildSessionContext_eq hne
  · intro settings p hp
    refine ⟨_, hpath.prepareCompaction_spec hp, ?_⟩
    intro en summary tokensBefore details fromHook hen
    obtain ⟨c, hon, hsum, _, hsummary, hkeep⟩ :=
      hpath.compact hs hp hen summary tokensBefore details fromHook
    refine ⟨_, hon.context, ?_⟩
    have hK := append_cancel_left (hkeep.symm.trans (hpath.prepareCompaction_spec hp))
    rw [hsum.messages_eq, hsummary, hK, singleton_append]
  · intro batches t hrun
    obtain ⟨later, hon, hsum, hkeep⟩ := hrun.conserves hs hpath
    exact ⟨later, _, _, hon.getBranch, hon.context, hsum.messages_eq, hkeep⟩

def emptySession : SessionManager :=
  (blank "/work" "/work/sessions" true).newSession ⟨none, none⟩ (uuidOf 0) 0

/-- The compaction names the fourth entry, which is appended two calls later. -/
def keptLaterSession : SessionManager :=
  let s := emptySession.appendMessage (callOf 1) (userText "first")
  let s := s.appendCompaction (callOf 2) "summary" "10000004" 0 none none
  let s := s.appendMessage (callOf 3) (userText "second")
  s.appendMessage (callOf 4) (userText "third")

theorem keptLaterSession_reachable : Reachable keptLaterSession := by
  have h1 : Reachable (emptySession.appendMessage (callOf 1) (userText "first")) :=
    .step (.appendMessage _) _ (.new _ _ _ _ _ _) (by decide) rfl
  have h2 := Reachable.step (.appendCompaction "summary" "10000004" 0 none none) (callOf 2) h1
    (by decide) rfl
  have h3 := Reachable.step (.appendMessage (userText "second")) (callOf 3) h2 (by decide) rfl
  exact .step (.appendMessage (userText "third")) (callOf 4) h3 (by decide) rfl

/-- `prepareCompaction` starts at the later entry, `buildSessionContext` after the compaction:
the second message is neither summarised nor kept. -/
theorem keptLaterSession_loses_message :
    Reachable keptLaterSession ∧
      keptLaterSession.getBranch none = some keptLaterSession.getEntries ∧
      WellFormedPath keptLaterSession.getEntries ∧
      keptLaterSession.getEntries.getLast?.any SessionEntry.isCompaction = false ∧
      (∀ e ∈ keptLaterSession.getEntries, ∀ d, e.body = .branchSummary d → d.summary ≠ "") ∧
      (callOf 5).FullUuidUnused keptLaterSession ∧
      ∃ p before after,
        prepareCompaction keptLaterSession.getEntries DEFAULT_COMPACTION_SETTINGS =
          some (some p) ∧
        keptLaterSession.context = some before ∧
        (keptLaterSession.appendCompaction (callOf 5) "new summary" p.firstKeptEntryId 0 none
          none).context = some after ∧
        ¬ ∃ K, before.messages = previousSummaryMessage keptLaterSession.getEntries ++
            p.messagesToSummarize ++ p.turnPrefixMessages ++ K ∧
          after.messages = .compactionSummary
            (createCompactionSummaryMessage "new summary" 0 5) :: K := by
  have hbranch : keptLaterSession.getBranch none = some keptLaterSession.getEntries := by
    decide +kernel
  have hon := keptLaterSession_reachable.invariant.onPath hbranch
  have hunused : (callOf 5).FullUuidUnused keptLaterSession := by decide
  have hsummary : ∀ e ∈ keptLaterSession.getEntries, ∀ d, e.body = .branchSummary d →
      d.summary ≠ "" := by
    have hnone : keptLaterSession.getEntries.all (fun e =>
        match e.body with | .branchSummary _ => false | _ => true) = true := by decide
    intro e he d hd
    have hfalse := all_eq_true.mp hnone e he
    simp [hd] at hfalse
  obtain ⟨p, hp⟩ : ∃ p, prepareCompaction keptLaterSession.getEntries
      DEFAULT_COMPACTION_SETTINGS = some (some p) := by
    have hsome : (prepareCompaction keptLaterSession.getEntries
      DEFAULT_COMPACTION_SETTINGS).join.isSome = true := by decide +kernel
    obtain ⟨p, hp⟩ := isSome_iff_exists.mp hsome
    exact ⟨p, join_eq_some_iff.mp hp⟩
  refine ⟨keptLaterSession_reachable, hbranch, hon.wellFormed, by decide, hsummary, hunused,
    p, _, _, hp, hon.context, (hon.appendBody hunused _).context, ?_⟩
  rintro ⟨K, hbefore, hafter⟩
  have hkeep : (prepareCompaction keptLaterSession.getEntries
      DEFAULT_COMPACTION_SETTINGS).join.map (fun p =>
        (p.messagesToSummarize.length, p.turnPrefixMessages.length, p.firstKeptEntryId)) =
      some (0, 0, "10000004") := by decide +kernel
  rw [hp] at hkeep
  simp only [join_some, map_some, some.injEq, Prod.mk.injEq] at hkeep
  obtain ⟨hm, ht, hid⟩ := hkeep
  rw [hid] at hafter
  have hlenBefore := congrArg List.length hbefore
  have hlenAfter := congrArg List.length hafter
  have hold : (contextOfPath keptLaterSession.getEntries).messages.length = 3 := by
    decide +kernel
  have hprev : (previousSummaryMessage keptLaterSession.getEntries).length = 1 := by
    decide +kernel
  have hnew : (contextOfPath (keptLaterSession.getEntries ++
      [keptLaterSession.newEntry (callOf 5) keptLaterSession.leafId (.compaction
        { summary := "new summary", firstKeptEntryId := "10000004", tokensBefore := 0
          details := none, fromHook := none })])).messages.length = 2 := by
    decide +kernel
  rw [hold, length_append, length_append, length_append, hprev, hm, ht] at hlenBefore
  rw [hnew, length_cons] at hlenAfter
  omega

/-- The same session without the compaction, compacted so that one message is kept. -/
def threeMessages : SessionManager :=
  ((emptySession.appendMessage (callOf 1) (userText "first")).appendMessage (callOf 2)
    (userText "second")).appendMessage (callOf 3) (userText "third")

theorem threeMessages_reachable : Reachable threeMessages := by
  have h1 : Reachable (emptySession.appendMessage (callOf 1) (userText "first")) :=
    .step (.appendMessage _) _ (.new _ _ _ _ _ _) (by decide) rfl
  have h2 := Reachable.step (.appendMessage (userText "second")) (callOf 2) h1 (by decide) rfl
  exact .step (.appendMessage (userText "third")) (callOf 3) h2 (by decide) rfl

def isMessageEntry (e : SessionEntry) : Bool :=
  match e.body with
  | .message _ => true
  | _ => false

theorem threeMessages_onPath : OnPath threeMessages threeMessages.getEntries :=
  threeMessages_reachable.invariant.onPath (by decide +kernel)

theorem threeMessages_summarisable : SummarisablePath threeMessages.getEntries := by
  have hplain : threeMessages.getEntries.all isMessageEntry = true := by decide +kernel
  refine ⟨threeMessages_onPath.wellFormed, ?_, ?_⟩
  · intro e he d hd
    have hfalse := all_eq_true.mp hplain e he
    simp [isMessageEntry, hd] at hfalse
  · intro before c after data hsplit hc
    have hfalse := all_eq_true.mp hplain c (by rw [hsplit]; simp)
    simp [isMessageEntry, hc] at hfalse

theorem threeMessages_conserves :
    ∃ before kept, threeMessages.context = some before ∧
      before.messages = previousSummaryMessage threeMessages.getEntries ++ kept ∧
      kept.length = 3 ∧
      ∃ p K, prepareCompaction threeMessages.getEntries ⟨true, 0, 2⟩ = some (some p) ∧
        kept = p.messagesToSummarize ++ p.turnPrefixMessages ++ K := by
  obtain ⟨before, kept, -, hbefore, hmessages, hstep, -⟩ := compaction_conserves_messages
    threeMessages_onPath threeMessages_summarisable
  have hsome : (prepareCompaction threeMessages.getEntries ⟨true, 0, 2⟩).join.isSome = true := by
    decide +kernel
  obtain ⟨p, hp⟩ := isSome_iff_exists.mp hsome
  rw [join_eq_some_iff] at hp
  obtain ⟨K, hK, -⟩ := hstep _ p hp
  have hlen : threeMessages.context.map (fun c => c.messages.length) = some 3 := by
    decide +kernel
  rw [hbefore, map_some, hmessages, some.injEq, length_append] at hlen
  have hprev : (previousSummaryMessage threeMessages.getEntries).length = 0 := by decide +kernel
  exact ⟨before, kept, hbefore, hmessages, by omega, p, K, hp, hK⟩

end Draht
