import CodingHarness.Durable.PromptPlan

/-!
# Prompt planning converges

The plan of a request is appended to its conversation and read back from the context. `Converges`
says that this shows the sections and the tools the registry wants shown, and that nothing is left to
plan. `converges_iff` says when it is so. Two things stand in the way. A tool with a sampling
constraint is never read back as it was declared, so it is announced again by every plan
(`constrained_announced_again`). And a plan that starts over behind a head takes back the system
entries before it, and not the system messages that other entries contribute.
-/

namespace CodingHarness.Durable

open Library Support Chord
open List (filter_append filter_cons find?_eq_none foldl_cons map_cons mem_cons_of_mem mem_cons_self nil_append)

namespace Prompt

open Transcript (Section)
open Context (isSystem viewOf contribution viewEntries fromHead newestHead editFor Sees InOrder)

/-! ## System messages of a context -/

variable {json : Json}

theorem message_of_other (h : isSystem json = false) (shown : Shown) : shown.message json = shown := by
  unfold Shown.message
  split
  · rename_i message hmsg
    obtain ⟨role, hrole, hmsg⟩ := Option.bind_eq_some_iff.1 hmsg
    have hcontext : Context.contextRole json = role := by
      simp only [Transcript.stringMember, Transcript.member] at hrole
      simp [Context.contextRole, hrole]
    have hne : role ≠ "system" := by
      simpa [isSystem, hcontext] using h
    split at hmsg
    · obtain ⟨_, -, hcast⟩ := Option.map_eq_some_iff.1 hmsg
      cases hcast
    split at hmsg
    · cases hmsg
    split at hmsg
    · cases hmsg
    · cases hmsg
  · rfl

theorem foldl_filter_isSystem (messages : List Json) (shown : Shown) :
    (messages.filter isSystem).foldl Shown.message shown = messages.foldl Shown.message shown := by
  induction messages generalizing shown with
  | nil => rfl
  | cons json rest ih =>
    cases hsystem : isSystem json with
    | true => rw [List.filter_cons_of_pos hsystem, foldl_cons, foldl_cons, ih]
    | false =>
      rw [List.filter_cons_of_neg (by simp [hsystem]), foldl_cons, message_of_other hsystem, ih]

theorem isSystem_of_role {role : Bytes} (h : Context.contextRole json = role)
    (hne : role ≠ "system") : isSystem json = false := by
  simpa [isSystem, h] using hne

theorem isSystem_resultFor (assistant : Json) (later : List Json) (call : Json × Json) :
    isSystem (Context.resultFor assistant later call) = false := by
  have hne : ofString "toolResult" ≠ "system" := by decide
  unfold Context.resultFor
  cases hfound : (call.1.asString.bind fun id =>
      (later.takeWhile fun message => Context.contextRole message != "assistant").find?
        (Context.isResultOf id)) with
  | none =>
    have hrole : Context.contextRole (Context.missingResult call assistant) = "toolResult" := rfl
    exact isSystem_of_role hrole hne
  | some message =>
    obtain ⟨id, -, hfind⟩ := Option.bind_eq_some_iff.1 hfound
    have hres := List.find?_some hfind
    simp only [Context.isResultOf, Bool.and_eq_true, beq_iff_eq] at hres
    exact isSystem_of_role hres.1 hne

theorem systems_orderToolResults (messages : List Json) :
    (Context.orderToolResults messages).filter isSystem = messages.filter isSystem := by
  have htool : ofString "toolResult" ≠ "system" := by decide
  have hasst : ofString "assistant" ≠ "system" := by decide
  induction messages with
  | nil => rfl
  | cons message later ih =>
    rw [Context.orderToolResults]
    split
    · rename_i hrole
      have hnot := isSystem_of_role hrole htool
      rw [ih, List.filter_cons_of_neg (by simp [hnot])]
    split
    · rename_i hrole
      have hnot := isSystem_of_role hrole hasst
      have hress : ((Context.toolCalls message).map (Context.resultFor message later)).filter isSystem = [] := by
        rw [List.filter_eq_nil_iff]
        intro json hjson
        obtain ⟨call, -, rfl⟩ := List.mem_map.1 hjson
        simp [isSystem_resultFor]
      rw [List.cons_append, List.filter_cons_of_neg (by simp [hnot]), filter_append,
        hress, ih, List.filter_cons_of_neg (by simp [hnot])]
      rfl
    · rw [filter_cons, ih, filter_cons]

theorem systems_systemFirst (base : Option Json) (messages : List Json) :
    (Context.systemFirst base messages).filter isSystem = messages.filter isSystem := by
  unfold Context.systemFirst
  dsimp only
  have hprev : (messages.takeWhile fun message => !isSystem message).filter isSystem = [] := by
    rw [List.filter_eq_nil_iff]
    intro json hjson
    simpa using List.mem_takeWhile_imp hjson
  split
  · rfl
  rename_i system later hdrop
  split
  · have hsplit := List.takeWhile_append_dropWhile (p := fun message => !isSystem message) (l := messages)
    rw [hdrop] at hsplit
    conv_rhs => rw [← hsplit, filter_append, hprev, nil_append]
    rw [List.cons_append, filter_cons, filter_append, hprev, nil_append, filter_cons]
  · rfl

/-! ## The parts of a view -/

variable {selected kept added : List EntryRecord} {view : Context.View}

theorem viewOf_eq_ok (h : viewOf selected = .ok view) :
    ∃ kept, fromHead selected (newestHead selected) = .ok kept ∧ view.head = newestHead selected ∧
      view.entries = viewEntries kept view.head ∧ view.contributions = view.entries.map (contribution kept) ∧
      ∀ shown : Shown, view.messages.foldl Shown.message shown =
        view.contributions.flatten.foldl Shown.message shown := by
  unfold viewOf at h
  split at h
  · rename_i hlast
    cases h
    rw [List.getLast?_eq_none_iff] at hlast
    subst hlast
    exact ⟨[], rfl, rfl, rfl, rfl, fun _ => rfl⟩
  simp only [bind_eq_ok, pure_eq_ok] at h
  obtain ⟨kept, hkept, rfl⟩ := h
  refine ⟨kept, hkept, rfl, rfl, rfl, ?_⟩
  intro shown
  rw [← foldl_filter_isSystem, systems_systemFirst, systems_orderToolResults, foldl_filter_isSystem]

theorem viewOf_ok (h : fromHead selected (newestHead selected) = .ok kept) : ∃ view, viewOf selected = .ok view := by
  unfold viewOf
  split
  · exact ⟨_, rfl⟩
  dsimp only
  rw [h]
  exact ⟨_, rfl⟩

theorem newestHead_append (selected : List EntryRecord) (h : ∀ e ∈ added, e.head = none):
    newestHead (selected ++ added) = newestHead selected := by
  have hnone : (added.reverse.find? fun entry => entry.head.isSome) = none := by
    rw [find?_eq_none]
    intro e he
    simp [h e (List.mem_reverse.1 he)]
  rw [newestHead, List.reverse_append, List.find?_append, hnone, Option.none_or]
  rfl

variable {head : Option EntryRecord}

theorem fromHead_append (h : fromHead selected head = .ok kept) :
    fromHead (selected ++ added) head = .ok (kept ++ added) := by
  cases head with
  | none =>
    cases h
    rfl
  | some head =>
    simp only [fromHead] at h ⊢
    rw [List.dropWhile_append]
    cases hdrop : selected.dropWhile fun entry => some entry.id != head.head with
    | nil =>
      rw [hdrop] at h
      cases h
    | cons first rest =>
      rw [hdrop] at h
      cases h
      rfl

theorem viewEntries_append (head : Option EntryRecord) (h : ∀ e ∈ added, e.head = none):
    viewEntries (kept ++ added) head = viewEntries kept head ++ added := by
  cases head with
  | none => rfl
  | some head =>
    have hall : (added.filter fun entry => entry.head.isNone) = added := by
      rw [List.filter_eq_self]
      intro e he
      simp [h e he]
    simp [viewEntries, filter_append, hall]

theorem editFor_append (kept added : List EntryRecord) (id : EntryId) :
    editFor (kept ++ added) id = (editFor added id).or (editFor kept id) := by
  simp [editFor, List.flatMap_append, List.reverse_append, List.find?_append]

/-! ## Appending a plan -/

/-- The entries of the planned messages, from an identity on; the first one carries the edits. -/
def plannedEntries (conversation : ConversationId) : EntryId → List ContextEdit → List Json → List EntryRecord
  | _, _, [] => []
  | id, edits, json :: rest =>
    { id := id
      conversationId := conversation
      kind := Context.systemKind
      data := .object (field "model" (.array [json]))
      model := [json]
      edits := edits } :: plannedEntries conversation (id + 1) [] rest

/-- The commit that appends a plan: `append_entry` mints an identity for every message, and the batch
is committed. -/
def appendPlan (storage : StorageState) (conversation : ConversationId) (plan : Plan) : Expected StorageState := do
  let jsons ← plan.systems.mapM systemJson
  if jsons.isEmpty then return storage
  else
    (storage.advanced jsons.length).applyNext
      ((plannedEntries conversation storage.nextId plan.edits jsons).map fun entry =>
        .entry (some entry))

section PlannedEntries

variable {conversation : ConversationId}

theorem mem_plannedEntries {id : EntryId} {edits : List ContextEdit} {jsons : List Json}
    {e : EntryRecord} (h : e ∈ plannedEntries conversation id edits jsons) :
    e.conversationId = conversation ∧ e.head = none ∧ e.kind = Context.systemKind ∧ id ≤ e.id ∧
      (∃ json ∈ jsons, e.model = [json]) ∧ ∀ edit ∈ e.edits, edit ∈ edits := by
  induction jsons generalizing id edits with
  | nil => cases h
  | cons json rest ih =>
    rcases List.mem_cons.1 h with rfl | h
    · exact ⟨rfl, rfl, rfl, le_refl _, ⟨json, mem_cons_self, rfl⟩, fun _ hedit => hedit⟩
    obtain ⟨hconv, hhead, hkind, hid, ⟨other, hother, hmodel⟩, hedits⟩ := ih h
    refine ⟨hconv, hhead, hkind, (lt_add_one id).le.trans hid, ⟨other, mem_cons_of_mem _ hother, hmodel⟩, ?_⟩
    intro edit hedit
    exact absurd (hedits edit hedit) (by simp)

theorem plannedEntries_sorted (id : EntryId) (edits : List ContextEdit) (jsons : List Json) :
    (plannedEntries conversation id edits jsons).Pairwise fun older newer => older.id < newer.id := by
  induction jsons generalizing id edits with
  | nil => exact List.Pairwise.nil
  | cons json rest ih =>
    refine List.Pairwise.cons ?_ (ih (id + 1) [])
    intro e he
    obtain ⟨-, -, -, hid, -, -⟩ := mem_plannedEntries he
    exact lt_of_lt_of_le (lt_add_one id) hid

theorem plannedEntries_model (id : EntryId) (edits : List ContextEdit) (jsons : List Json) :
    (plannedEntries conversation id edits jsons).map EntryRecord.model = jsons.map fun json => [json] := by
  induction jsons generalizing id edits with
  | nil => rfl
  | cons json rest ih => rw [plannedEntries, map_cons, map_cons, ih]

theorem plannedEntries_edits (id : EntryId) (edits : List ContextEdit) (json : Json) (rest : List Json) :
    (plannedEntries conversation id edits (json :: rest)).flatMap EntryRecord.edits = edits := by
  have hrest : ∀ (jsons : List Json) (id : EntryId),
      (plannedEntries conversation id [] jsons).flatMap EntryRecord.edits = [] := by
    intro jsons
    induction jsons with
    | nil => exact fun _ => rfl
    | cons json rest ih =>
      intro id
      rw [plannedEntries, List.flatMap_cons, ih]
      rfl
  rw [plannedEntries, List.flatMap_cons, hrest, List.append_nil]

end PlannedEntries

section Append

variable (documents : OrdMap DocumentId StoredDocumentState) (batch : List StorageWrite) (seq : Seq)
  {next : StorageState} {c : ConversationId}

theorem checkEdits_ok {edits : List ContextEdit}
    (h : ∀ edit ∈ edits, edit.action = "omit" ∧ next.entryVisible c edit.target = true) :
    StorageState.checkEdits next c edits = .ok () := by
  induction edits with
  | nil => rfl
  | cons edit rest ih =>
    obtain ⟨hact, hvisible⟩ := h edit mem_cons_self
    rw [StorageState.checkEdits, hvisible, hact]
    exact ih fun other hother => h other (mem_cons_of_mem _ hother)

/-- Writes of new entries without a head succeed, and their conversation sees them afterwards. -/
theorem applyEntries (added : List EntryRecord) (hinv : InOrder next)
    {record : ConversationRecord} (hstored : next.conversations.find c = some record)
    (hadded : ∀ e ∈ added, e.conversationId = c ∧ e.head = none ∧ ∀ edit ∈ e.edits,
      edit.action = "omit" ∧ ∃ target, Sees next c target ∧ target.id = edit.target)
    (hsorted : added.Pairwise fun older newer => older.id < newer.id)
    (hnewer : ∀ e ∈ added, ∀ id stored, next.entries.find id = some stored → id < e.id) :
    ∃ next', StorageState.applyWrites documents batch seq true next
        (added.map fun e => .entry (some e)) = .ok next' ∧ InOrder next' ∧ next'.conversations.find c = some record ∧
      ∀ e, Sees next' c e ↔ Sees next c e ∨ e ∈ added := by
  induction added generalizing next with
  | nil => exact ⟨next, rfl, hinv, hstored, by simp⟩
  | cons first rest ih =>
    obtain ⟨hconversation, hhead, hedits⟩ := hadded first mem_cons_self
    rw [List.pairwise_cons] at hsorted
    have hfirstNewer := hnewer first mem_cons_self
    have hfresh : next.entries.find first.id = none := by
      cases hfind : next.entries.find first.id with
      | none => rfl
      | some stored => exact absurd (hfirstNewer _ _ hfind) (lt_irrefl _)
    have hchecks : StorageState.checkEdits next first.conversationId first.edits = .ok () := by
      apply checkEdits_ok
      intro edit hedit
      obtain ⟨hact, target, hsees, htgt⟩ := hedits edit hedit
      refine ⟨hact, ?_⟩
      rw [hconversation, ← htgt]
      exact Context.entryVisible_of_sees hinv.transcript hstored hsees
    obtain ⟨updated, hwrite⟩ : ∃ updated, StorageState.applyWrite documents batch seq true next
        (.entry (some first)) = .ok updated := by
      refine ⟨_, StorageState.applyEntry_eq_ok.2 ⟨first, rfl, ?_, ?_, ?_, hchecks, rfl⟩⟩
      · rw [OrdMap.contains_eq_false_iff]
        exact hfresh
      · rw [hconversation, OrdMap.contains_eq_true_iff]
        exact ⟨record, hstored⟩
      · simp [StorageState.headHidden, hhead]
    have hupd : InOrder updated := hinv.applyWrite hwrite (by
      intro other hother
      cases hother
      exact hfirstNewer)
    have hlater : Context.Later first.id next updated := Context.later_applyWrite hwrite (by
      intro other hother
      cases hother
      exact le_refl _)
    have hself : updated.entries.find first.id = some ⟨first, seq⟩ := by
      rcases Context.applyWrite_entry hwrite with ⟨other, hother, -, -, -, -, hents⟩ | ⟨hnone, -⟩
      · cases hother
        rw [hents, OrdMap.find_insert_self]
      · cases hnone
    have hsees : ∀ e, Sees updated c e ↔ Sees next c e ∨ e = first := by
      intro e
      constructor
      · intro he
        obtain ⟨commitSeq, hfind⟩ := he.stored
        rcases hlater.fresh _ _ hfind with hold | hnew
        · refine Or.inl ((hlater.sees_iff hinv.transcript hstored ?_).1 he)
          exact hfirstNewer _ _ hold
        right
        by_cases heq : e.id = first.id
        · rw [heq, hself] at hfind
          cases hfind
          rfl
        rcases Context.applyWrite_entry hwrite with ⟨other, hother, -, -, -, -, hents⟩ | ⟨hnone, -⟩
        · cases hother
          rw [hents, OrdMap.find_insert, if_neg heq] at hfind
          exact absurd (hfirstNewer _ _ hfind) (not_lt.2 hnew)
        · cases hnone
      · rintro (he | rfl)
        · exact hlater.sees he
        · exact Or.inl ⟨⟨seq, hself⟩, hconversation, by simp⟩
    obtain ⟨next', hrest, hdone, hstored', hmem⟩ := ih hupd (hlater.conversations c record hstored) (by
        intro e he
        obtain ⟨hconv, hnohead, hedits'⟩ := hadded e (mem_cons_of_mem _ he)
        refine ⟨hconv, hnohead, ?_⟩
        intro edit hedit
        obtain ⟨hact, target, hseesTarget, htgt⟩ := hedits' edit hedit
        exact ⟨hact, target, hlater.sees hseesTarget, htgt⟩)
      hsorted.2
      (by
        intro e he id stored hfind
        rcases hlater.fresh id stored hfind with hold | hnew
        · exact hnewer e (mem_cons_of_mem _ he) id stored hold
        rcases Context.applyWrite_entry hwrite with ⟨other, hother, -, -, -, -, hents⟩ | ⟨hnone, -⟩
        · cases hother
          rw [hents, OrdMap.find_insert] at hfind
          split at hfind
          · next hid =>
            rw [hid]
            exact hsorted.1 e he
          · exact hnewer e (mem_cons_of_mem _ he) id stored hfind
        · cases hnone)
    refine ⟨next', StorageState.applyWrites_cons_eq_ok.2 ⟨updated, hwrite, hrest⟩, hdone, hstored', ?_⟩
    intro e
    rw [hmem, hsees, List.mem_cons, or_assoc]

end Append

variable {s : StorageState} {c : ConversationId} {visible : List EntryRecord}

/-- **An appended plan** is seen behind the entries that were there. -/
theorem visibleEntries_appendPlan (hinv : InOrder s)
    (hvisible : Context.visibleEntries s c = .ok visible) (plan : Plan)
    (jsons : List Json) (hjsons : plan.systems.mapM systemJson = .ok jsons)
    (hedits : ∀ edit ∈ plan.edits, edit.action = "omit" ∧ ∃ target ∈ visible, target.id = edit.target) :
    ∃ s', appendPlan s c plan = .ok s' ∧
      Context.visibleEntries s' c = .ok (visible ++ plannedEntries c s.nextId plan.edits jsons) := by
  obtain ⟨record, hstored⟩ := Context.stored_of_visibleEntries hvisible
  obtain ⟨list, hlist, hmem, hsorted⟩ := Context.visibleEntries_spec hinv.transcript hstored
  have hsame : list = visible := by
    rw [hvisible] at hlist
    cases hlist
    rfl
  subst hsame
  unfold appendPlan
  rw [hjsons]
  cases jsons with
  | nil => exact ⟨s, rfl, by simpa [plannedEntries] using hvisible⟩
  | cons json rest =>
    let start := s.advanced (json :: rest).length
    have hstart : InOrder start := hinv.advanced _
    have hkept : Context.Later s.nextId s start := ⟨fun _ _ h => h, fun _ _ h => h, fun _ _ h => Or.inl h⟩
    obtain ⟨next', hwrites, hdone, hstored', hsees⟩ := applyEntries start.documents
        ((plannedEntries c s.nextId plan.edits (json :: rest)).map fun entry => .entry (some entry))
        start.nextSeq (plannedEntries c s.nextId plan.edits (json :: rest)) hstart hstored
      (by
        intro e he
        obtain ⟨hconv, hhead, -, -, -, hplanned⟩ := mem_plannedEntries he
        refine ⟨hconv, hhead, ?_⟩
        intro edit hedit
        obtain ⟨hact, target, htgt, hid⟩ := hedits edit (hplanned edit hedit)
        exact ⟨hact, target, hkept.sees ((hmem target).1 htgt), hid⟩)
      (plannedEntries_sorted _ _ _)
      (by
        intro e he id stored hfind
        obtain ⟨-, -, -, hid, -, -⟩ := mem_plannedEntries he
        exact lt_of_lt_of_le (hinv.minted id stored hfind) hid)
    let s' : StorageState := { next' with nextSeq := max start.nextSeq (start.nextSeq + 1) }
    have hs' : Context.Later 0 next' s' := ⟨fun _ _ h => h, fun _ _ h => h, fun _ _ h => Or.inl h⟩
    have hback : Context.Later 0 s' next' := ⟨fun _ _ h => h, fun _ _ h => h, fun _ _ h => Or.inl h⟩
    have hback' : Context.Later 0 start s := ⟨fun _ _ h => h, fun _ _ h => h, fun _ _ h => Or.inl h⟩
    refine ⟨s', ?_, ?_⟩
    · have hopen : start.closed = false := hstart.transcript.isOpen
      exact StorageState.applyBatch_eq_ok.2 ⟨hopen, next', hwrites, rfl⟩
    obtain ⟨final, hfinal, hmemFinal, hsortedFinal⟩ :=
      Context.visibleEntries_spec (s := s') (hdone.transcript.congr rfl rfl rfl rfl) hstored'
    rw [hfinal]
    refine congrArg Except.ok (Context.sorted_ext hsortedFinal ?_ ?_)
    · refine List.pairwise_append.2 ⟨hsorted, plannedEntries_sorted _ _ _, ?_⟩
      intro older holder newer hnewer
      obtain ⟨commitSeq, hfind⟩ := ((hmem older).1 holder).stored
      obtain ⟨-, -, -, hid, -, -⟩ := mem_plannedEntries hnewer
      exact lt_of_lt_of_le (hinv.minted _ _ hfind) hid
    intro e
    rw [hmemFinal, List.mem_append, hmem]
    constructor
    · intro he
      rcases (hsees e).1 (hback.sees he) with he | he
      · exact Or.inl (hback'.sees he)
      · exact Or.inr he
    rintro (he | he)
    · exact hs'.sees ((hsees e).2 (Or.inl (hkept.sees he)))
    · exact hs'.sees ((hsees e).2 (Or.inr he))

/-! ## The context with the plan -/

theorem editFor_eq_none {id : EntryId} (h : ∀ e ∈ kept, ∀ edit ∈ e.edits, edit.target ≠ id) :
    editFor kept id = none := by
  rw [editFor, find?_eq_none]
  intro edit hedit
  obtain ⟨e, he, hin⟩ := List.mem_flatMap.1 (List.mem_reverse.1 hedit)
  simpa using h e he edit hin

theorem isUnfinished_system (h : isSystem json = true) : Context.isUnfinished json = false := by
  have hrole : Context.contextRole json = "system" := by simpa [isSystem] using h
  have hne : (ofString "system" == "assistant") = false := by decide
  rw [Context.isUnfinished, hrole, hne, Bool.false_and]

theorem fromHead_subset (h : fromHead selected head = .ok kept) : ∀ e ∈ kept, e ∈ selected := by
  cases head with
  | none =>
    cases h
    exact fun _ he => he
  | some head =>
    simp only [fromHead] at h
    split at h
    · cases h
    · cases h
      exact fun e he => (List.dropWhile_sublist _).subset he

theorem viewEntries_subset (h : fromHead selected (newestHead selected) = .ok kept):
    ∀ e ∈ viewEntries kept (newestHead selected), e ∈ selected := by
  intro e he
  cases hhead : newestHead selected with
  | none =>
    rw [hhead] at he h
    exact fromHead_subset h e he
  | some head =>
    rw [hhead] at he h
    rcases List.mem_cons.1 he with rfl | he
    · exact List.mem_reverse.1 (List.mem_of_find?_eq_some hhead)
    · exact fromHead_subset h e (List.mem_filter.1 he).1

/-- The contexts before and after a plan is appended: every entry of the first keeps its contribution
as far as the plan does not edit it, and the planned messages follow. -/
theorem view_appended {bound : EntryId}
    (edits : List ContextEdit) (jsons : List Json) (hview : viewOf visible = .ok view)
    (hids : ∀ e ∈ visible, e.id < bound ∧ ∀ edit ∈ e.edits, edit.target < bound)
    (hsystems : ∀ json ∈ jsons, isSystem json = true) (hedits : ∀ edit ∈ edits, edit.target < bound):
    ∃ kept view', viewOf (visible ++ plannedEntries c bound edits jsons) = .ok view' ∧
      view.contributions = view.entries.map (contribution kept) ∧
      view'.head = view.head ∧ view'.entries = view.entries ++ plannedEntries c bound edits jsons ∧
      ∀ shown : Shown, view'.messages.foldl Shown.message shown =
        ((view.entries.map fun e => contribution (kept ++ plannedEntries c bound edits jsons) e).flatten
          ++ jsons).foldl Shown.message shown := by
  obtain ⟨kept, hkept, hhead, hents, hcontrs, -⟩ := viewOf_eq_ok hview
  generalize hadded : plannedEntries c bound edits jsons = added
  have hmem : ∀ e ∈ added, e.head = none ∧ bound ≤ e.id ∧ (∃ json ∈ jsons, e.model = [json]) ∧
      ∀ edit ∈ e.edits, edit ∈ edits := by
    intro e he
    rw [← hadded] at he
    obtain ⟨-, hnohead, -, hid, hmodel, hplanned⟩ := mem_plannedEntries he
    exact ⟨hnohead, hid, hmodel, hplanned⟩
  have hnewest := newestHead_append visible fun e he => (hmem e he).1
  have hkept' : fromHead (visible ++ added) (newestHead (visible ++ added)) = .ok (kept ++ added) := by
    rw [hnewest]
    exact fromHead_append hkept
  obtain ⟨view', hview'⟩ := viewOf_ok hkept'
  obtain ⟨kept', hsame, hhead', hents', hcontrs', hmessages'⟩ := viewOf_eq_ok hview'
  rw [hkept'] at hsame
  cases hsame
  have hsameHead : view'.head = view.head := by rw [hhead', hhead, hnewest]
  have hsameEntries : view'.entries = view.entries ++ added := by
    rw [hents', hsameHead, hents, viewEntries_append _ fun e he => (hmem e he).1]
  refine ⟨kept, view', hview', hcontrs, hsameHead, hsameEntries, ?_⟩
  intro shown
  have hplanned : added.map (contribution (kept ++ added)) = jsons.map fun json => [json] := by
    have hmodel : added.map EntryRecord.model = jsons.map fun json => [json] := by
      rw [← hadded]
      exact plannedEntries_model _ _ _
    rw [← hmodel]
    apply List.map_congr_left
    intro e he
    obtain ⟨-, hid, ⟨json, hjson, hjsonModel⟩, -⟩ := hmem e he
    -- No edit targets an entry that was not there when it was made.
    have hnone : editFor (kept ++ added) e.id = none := by
      apply editFor_eq_none
      intro other hother edit hedit
      have hlt : edit.target < bound := by
        rcases List.mem_append.1 hother with hother | hother
        · exact (hids other (fromHead_subset hkept other hother)).2 edit hedit
        · exact hedits edit ((hmem other hother).2.2.2 edit hedit)
      exact (lt_of_lt_of_le hlt hid).ne
    rw [contribution, hnone, Context.editedModel, List.filter_eq_self]
    intro message hmsg
    rw [hjsonModel, List.mem_singleton] at hmsg
    simp [hmsg, isUnfinished_system (hsystems json hjson)]
  have hflatten : (jsons.map fun json => [json]).flatten = jsons := List.flatMap_singleton' jsons
  rw [hmessages', hcontrs', hsameEntries, List.map_append, hplanned, List.flatten_append, hflatten]

/-! ## Starting over -/

/-- The messages that entries other than system entries contribute to a context. -/
def foreignMessages (view : Context.View) : List Json := (view.entries.zip view.contributions).flatMap fun part =>
    if part.1.kind = Context.systemKind then [] else part.2

/-- What other entries show, taken alone, can be completed by showing everything again: an initial
part of the desired section names, and offered tools only. -/
structure Fits (snapshot : Snapshot) (modelTools : Json) (view : Context.View) : Prop where
  sections : (replay (foreignMessages view)).sections.map Section.name <+:
    snapshot.desired.map Section.name
  tools : ∀ tool ∈ (replay (foreignMessages view)).tools,
    tool.name ∈ (offeredToolDeclarations snapshot modelTools).map (·.name)

theorem names_replaySection {sections : List Section} {each : Section} (htext : each.text.isSome = true) :
    sections.map Section.name <+: (replaySection sections each).map Section.name := by
  induction sections with
  | nil => simp
  | cons other rest ih =>
    rw [replaySection]
    split
    · rename_i hname
      rw [map_cons, map_cons, hname]
    · exact (List.prefix_cons_inj _).2 ih

theorem names_foldl {patch : List Section} (sections : List Section)
    (htexts : ∀ each ∈ patch, each.text.isSome = true) :
    sections.map Section.name <+: (patch.foldl replaySection sections).map Section.name := by
  induction patch generalizing sections with
  | nil => exact List.prefix_refl _
  | cons each rest ih =>
    exact (names_replaySection (htexts each mem_cons_self)).trans
      (ih _ fun other hother => htexts other (mem_cons_of_mem _ hother))

theorem replay_over (before : List Section) {shown patch : List Section}
    (hnames : shown.map Section.name = patch.map Section.name) (hnodup : ((before ++ patch).map Section.name).Nodup)
    (htexts : ∀ each ∈ patch, each.text.isSome = true) :
    patch.foldl replaySection (before ++ shown) = before ++ patch := by
  induction patch generalizing before shown with
  | nil =>
    rw [List.map_nil, List.map_eq_nil_iff] at hnames
    rw [hnames]
    rfl
  | cons each rest ih =>
    cases shown with
    | nil => cases hnames
    | cons first shown =>
      obtain ⟨hname, hrest⟩ := List.cons.inj hnames
      have hprev : ∀ x ∈ before, x.name ≠ each.name := by
        rw [List.map_append, List.nodup_append] at hnodup
        intro x hx
        exact hnodup.2.2 _ (List.mem_map_of_mem hx) _ (by simp)
      rw [foldl_cons, replaySection_at hprev hname, if_pos (htexts each mem_cons_self)]
      have hlater := ih (before ++ [each]) hrest (by simpa using hnodup)
        fun other hother => htexts other (mem_cons_of_mem _ hother)
      simpa using hlater

/-- Showing everything again gives exactly the desired sections when an initial part of their names
is shown. -/
theorem replay_desired_iff (shown : List Section) {desired : List Section} (hdesired : Tidy desired) :
    desired.foldl replaySection shown = desired ↔ shown.map Section.name <+: desired.map Section.name := by
  constructor
  · intro h
    have hprefix := names_foldl shown hdesired.texts
    rw [h] at hprefix
    exact hprefix
  intro h
  have hfront : shown.map Section.name = (desired.take shown.length).map Section.name := by
    simpa using List.prefix_iff_eq_take.1 h
  have hsplit := List.take_append_drop shown.length desired
  have hfrontNodup : ((desired.take shown.length).map Section.name).Nodup :=
    hdesired.nodup.sublist ((List.take_sublist _ _).map _)
  conv_lhs => rw [← hsplit, List.foldl_append]
  have hover := replay_over [] hfront (by simpa using hfrontNodup)
    fun each heach => hdesired.texts each ((List.take_sublist _ _).subset heach)
  rw [nil_append, nil_append] at hover
  rw [hover, replay_fresh]
  · exact hsplit
  · rw [hsplit]
    exact hdesired.nodup
  · exact fun each heach => hdesired.texts each ((List.drop_sublist _ _).subset heach)

/-- Declarations that are equal place by place. -/
abbrev Declared (shown offered : List Declaration) : Prop :=
  List.Forall₂ (fun tool want => declarationsEqual tool want = true) shown offered

theorem declared_read_iff (offered : List Declaration) : Declared (offered.map Declaration.read) offered ↔
      ∀ tool ∈ offered, tool.constrainedSampling = none := by
  rw [Declared, List.forall₂_map_left_iff, List.forall₂_same]
  simp only [declarationsEqual_read]

theorem declared_again_iff (shown : List Declaration) {offered : List Declaration}
    (hoffered : (offered.map (·.name)).Nodup) :
    Declared (afterChanges shown ⟨[], offered⟩) offered ↔ (∀ tool ∈ offered, tool.constrainedSampling = none) ∧
        ∀ tool ∈ shown, tool.name ∈ offered.map (·.name) := by
  have hafter : afterChanges shown ⟨[], offered⟩ =
      (shown.filter fun tool => !(offered.map (·.name)).contains tool.name) ++ offered.map Declaration.read := by
    rw [afterChanges, foldl_addTool (by rw [read_names]; exact hoffered), read_names]
    rfl
  have hleft : (shown.filter fun tool => !(offered.map (·.name)).contains tool.name) = [] ↔
      ∀ tool ∈ shown, tool.name ∈ offered.map (·.name) := by
    rw [List.filter_eq_nil_iff]
    simp only [Bool.not_eq_true', Bool.not_eq_false, List.contains_eq_mem, decide_eq_true_eq]
  rw [hafter, ← hleft]
  constructor
  · intro h
    have hlen := h.length_eq
    rw [List.length_append, List.length_map] at hlen
    have hnil : (shown.filter fun tool => !(offered.map (·.name)).contains tool.name) = [] :=
      List.length_eq_zero_iff.1 (by omega)
    rw [hnil, nil_append] at h
    exact ⟨(declared_read_iff offered).1 h, hnil⟩
  rintro ⟨hplain, hnil⟩
  rw [hnil, nil_append]
  exact (declared_read_iff offered).2 hplain

theorem declared_planned_iff {shown offered : List Declaration} (hshown : TidyTools shown)
    (hoffered : (offered.map (·.name)).Nodup) : Declared (afterChanges shown (planTools shown offered)) offered ↔
      ∀ tool ∈ offered, tool.constrainedSampling = none := by
  have hplan := afterChanges_planTools hshown.1 hoffered
  have htidy : TidyTools (afterChanges shown (planTools shown offered)) := by
    refine tidyTools_add (tidyTools_drop hshown _) ?_
    intro tool htool
    obtain ⟨other, -, rfl⟩ := List.mem_map.1 htool
    rfl
  generalize afterChanges shown (planTools shown offered) = after at hplan htidy
  constructor
  · intro h
    clear hplan hoffered
    have hread := htidy.2
    clear htidy
    induction h with
    | nil => simp
    | cons hfirst _ ih =>
      intro tool htool
      rcases List.mem_cons.1 htool with rfl | htool
      · exact declarationsEqual_sampling hfirst (hread _ mem_cons_self)
      · exact ih (fun other hother => hread other (mem_cons_of_mem _ hother)) tool htool
  intro hplain
  clear htidy hoffered
  induction hplan with
  | nil => exact .nil
  | cons hfirst _ ih =>
    refine .cons ?_ (ih fun other hother => hplain other (mem_cons_of_mem _ hother))
    rcases hfirst with hequal | rfl
    · exact hequal
    · exact (declarationsEqual_read _).2 (hplain _ mem_cons_self)

/-! ## Convergence -/

theorem systemMessages_eq_nil_iff (timestamp : Int) (changes : ToolChanges) (patches : List (List Section)) :
    systemMessages timestamp changes patches = [] ↔ patches = [] ∧ changes.removed = [] ∧ changes.added = [] := by
  cases patches with
  | nil =>
    rw [systemMessages]
    split
    · rename_i hempty
      simpa [List.isEmpty_iff] using hempty
    · rename_i hempty
      simpa [List.isEmpty_iff] using hempty
  | cons patch rest =>
    cases rest with
    | nil | cons second rest => simp [systemMessages]

variable {modelTools : Json} {snapshot : Snapshot}

/-- A context leaves nothing to plan when it shows what is wanted and does not start over. -/
theorem planPrompt_eq_nil (hsnap : snapshot.Distinct)
    (hnames : DistinctNames modelTools) (hcont : startsOver view = false)
    (hsecs : (replay view.messages).sections = snapshot.desired)
    (htools : Declared (replay view.messages).tools (offeredToolDeclarations snapshot modelTools)) (timestamp : Int) :
    (planPrompt snapshot (replay view.messages) modelTools view timestamp).systems = [] ∧
      (planPrompt snapshot (replay view.messages) modelTools view timestamp).edits = [] := by
  have htidy := tidy_replay view.messages
  simp only [planPrompt, hcont, Bool.false_eq_true, if_false]
  rw [systemMessages_eq_nil_iff]
  exact ⟨⟨(planSections_eq_nil_iff htidy.sections hsnap.desired).2 hsecs,
    (planTools_eq_empty_iff htidy.tools (offered_nodup hsnap hnames)).2 htools⟩, trivial⟩

/-- The plan for a context, appended to the conversation and read back, shows what is wanted and
leaves nothing to plan. -/
def Converges (storage : StorageState) (c : ConversationId) (snapshot : Snapshot) (modelTools : Json)
    (view : Context.View) (timestamp : Int) : Prop :=
  ∃ storage' view', appendPlan storage c (planPrompt snapshot (replay view.messages) modelTools view timestamp) =
        .ok storage' ∧
      Context.contextView storage' c none = .ok view' ∧
      (replay view'.messages).sections = snapshot.desired ∧
      Declared (replay view'.messages).tools (offeredToolDeclarations snapshot modelTools) ∧
      ∀ later, (planPrompt snapshot (replay view'.messages) modelTools view' later).systems = [] ∧
        (planPrompt snapshot (replay view'.messages) modelTools view' later).edits = []

theorem laterSystem_append {view view' : Context.View}
    (hhead : view'.head = view.head) (hents : view'.entries = view.entries ++ added)
    (h : laterSystem view = true) : laterSystem view' = true := by
  unfold laterSystem at h ⊢
  rw [hhead, hents]
  cases hcase : view.head with
  | none =>
    rw [hcase] at h
    cases h
  | some head =>
    rw [hcase] at h
    simp only [Option.any_some, List.any_append, Bool.or_eq_true] at h ⊢
    exact Or.inl h

theorem converges_continuing (hinv : InOrder s) (hsnap : snapshot.Distinct) (hnames : DistinctNames modelTools)
    (hvisible : Context.visibleEntries s c = .ok visible) (hview : viewOf visible = .ok view)
    (hids : ∀ e ∈ visible, e.id < s.nextId ∧ ∀ edit ∈ e.edits, edit.target < s.nextId)
    (hcont : startsOver view = false) (timestamp : Int) : Converges s c snapshot modelTools view timestamp ↔
      ∀ tool ∈ offeredToolDeclarations snapshot modelTools, tool.constrainedSampling = none := by
  have htidy := tidy_replay view.messages
  have hoffered := offered_nodup hsnap hnames
  generalize hshown : replay view.messages = shown at htidy
  let changes := planTools shown.tools (offeredToolDeclarations snapshot modelTools)
  have hadded : ∀ tool ∈ changes.added, tool.Convertible := by
    intro tool htool
    have hin : tool ∈ offeredToolDeclarations snapshot modelTools := by
      simp only [changes, planTools] at htool
      split at htool
      · exact (List.mem_filter.1 htool).1
      · exact htool
    exact offered_convertible hin
  obtain ⟨jsons, hjsons, hsystems, hreplayed⟩ := replay_systemMessages timestamp hadded
    (fun patch hpatch => planSections_nodup htidy.sections hsnap.desired hpatch) shown
  have hplan : planPrompt snapshot shown modelTools view timestamp =
      { systems := systemMessages timestamp changes
          (planSections shown.sections snapshot.desired) } := by
    simp only [planPrompt, hcont, Bool.false_eq_true, if_false, changes]
  obtain ⟨storage', happ, hvisible'⟩ := visibleEntries_appendPlan hinv hvisible
    (planPrompt snapshot shown modelTools view timestamp) jsons
    (by rw [hplan]; exact hjsons) (by rw [hplan]; simp)
  obtain ⟨kept, view', hview', hcontrs, hhead, hents, hmsgs⟩ :=
    view_appended (c := c) [] jsons hview hids hsystems (by simp)
  have hcontext : Context.contextView storage' c none = .ok view' := by
    have hlist : Context.visibleEntries storage' c = .ok (visible ++ plannedEntries c s.nextId [] jsons) := by
      rw [hvisible', hplan]
    simp only [Context.contextView, hlist, Context.upTo]
    exact hview'
  -- Nothing is edited, so the old contributions stay and the new messages follow them.
  have hold : (view.entries.map fun e =>
      contribution (kept ++ plannedEntries c s.nextId [] jsons) e) = view.contributions := by
    rw [hcontrs]
    apply List.map_congr_left
    intro e he
    have hnone : editFor (plannedEntries c s.nextId [] jsons) e.id = none := by
      apply editFor_eq_none
      intro other hother edit hedit
      obtain ⟨-, -, -, -, -, hin⟩ := mem_plannedEntries hother
      exact absurd (hin edit hedit) (by simp)
    rw [contribution, contribution, editFor_append, hnone, Option.none_or]
  obtain ⟨-, -, -, -, -, hviewMessages⟩ := viewOf_eq_ok hview
  have hafter : replay view'.messages =
      { sections := snapshot.desired, tools := afterChanges shown.tools changes } := by
    rw [replay, hmsgs, hold, List.foldl_append, ← hviewMessages]
    show jsons.foldl Shown.message (replay view.messages) = _
    rw [hshown, hreplayed, replay_planSections htidy.sections hsnap.desired]
  have hcont' : startsOver view' = false := by
    unfold startsOver at hcont ⊢
    rw [Bool.and_eq_false_iff, Bool.not_eq_false'] at hcont ⊢
    rcases hcont with hnone | hlater
    · exact Or.inl (by rw [hhead]; exact hnone)
    · exact Or.inr (laterSystem_append hhead hents hlater)
  have hdeclared := declared_planned_iff (show TidyTools shown.tools from ⟨htidy.tools, htidy.read⟩) hoffered
  constructor
  · rintro ⟨otherStorage, otherView, hother, hctx, -, htools, -⟩
    rw [hshown, happ] at hother
    cases hother
    rw [hcontext] at hctx
    cases hctx
    rw [hafter] at htools
    exact hdeclared.1 htools
  intro hplain
  have hshows : Declared (replay view'.messages).tools (offeredToolDeclarations snapshot modelTools) := by
    rw [hafter]
    exact hdeclared.2 hplain
  have hsecs : (replay view'.messages).sections = snapshot.desired := by rw [hafter]
  refine ⟨storage', view', by rw [hshown]; exact happ, hcontext, hsecs, hshows, ?_⟩
  exact planPrompt_eq_nil hsnap hnames hcont' hsecs hshows

theorem converges_startingOver (hinv : InOrder s) (hsnap : snapshot.Distinct) (hnames : DistinctNames modelTools)
    (hvisible : Context.visibleEntries s c = .ok visible)
    (hsorted : visible.Pairwise fun older newer => older.id < newer.id) (hview : viewOf visible = .ok view)
    (hids : ∀ e ∈ visible, e.id < s.nextId ∧ ∀ edit ∈ e.edits, edit.target < s.nextId)
    (hover : startsOver view = true) (timestamp : Int) : Converges s c snapshot modelTools view timestamp ↔
      (∀ tool ∈ offeredToolDeclarations snapshot modelTools, tool.constrainedSampling = none) ∧
        Fits snapshot modelTools view := by
  have hoffered := offered_nodup hsnap hnames
  generalize hplanned : planPrompt snapshot (replay view.messages) modelTools view timestamp = plan
  have hplan : plan = { systems := [⟨snapshot.desired, offeredToolDeclarations snapshot modelTools, [], timestamp⟩]
                        edits := (view.entries.filter fun entry =>
          entry.kind == Context.systemKind).map fun entry =>
            { target := entry.id, action := "omit" } } := by
    rw [← hplanned]
    simp only [planPrompt, hover, if_true]
  obtain ⟨json, hjson, hsystem, hmsg⟩ := message_systemJson
    ⟨snapshot.desired, offeredToolDeclarations snapshot modelTools, [], timestamp⟩
    hsnap.desired.nodup fun tool htool => offered_convertible htool
  obtain ⟨kept₀, hkept₀, hhead₀, hentries₀, -, -⟩ := viewOf_eq_ok hview
  have hentryVisible : ∀ e ∈ view.entries, e ∈ visible := by
    rw [hentries₀, hhead₀]
    exact viewEntries_subset hkept₀
  have hedit : ∀ edit ∈ plan.edits, edit.action = "omit" ∧ ∃ target ∈ visible, target.id = edit.target := by
    intro edit hin
    rw [hplan] at hin
    obtain ⟨entry, hentry, rfl⟩ := List.mem_map.1 hin
    exact ⟨rfl, entry, hentryVisible entry (List.mem_filter.1 hentry).1, rfl⟩
  obtain ⟨storage', happ, hvisible'⟩ := visibleEntries_appendPlan hinv hvisible
    plan [json] (by rw [hplan, List.mapM_cons, hjson]; rfl) hedit
  obtain ⟨kept, view', hview', hcontrs, hhead, hents, hmsgs⟩ := view_appended (c := c) plan.edits [json] hview hids
      (by simpa using hsystem) (by
        intro edit hin
        obtain ⟨-, target, htgt, hid⟩ := hedit edit hin
        exact hid ▸ (hids target htgt).1)
  have hcontext : Context.contextView storage' c none = .ok view' := by
    simp only [Context.contextView, hvisible', Context.upTo]
    exact hview'
  -- The omissions are the newest edits, and they hit the system entries and no other entry.
  have hmodel : ∀ e ∈ view.entries, contribution (kept ++ plannedEntries c s.nextId plan.edits [json]) e =
        if e.kind = Context.systemKind then [] else contribution kept e := by
    intro e he
    have hfind : editFor (plannedEntries c s.nextId plan.edits [json]) e.id = if e.kind = Context.systemKind then
          some { target := e.id, action := "omit" } else none := by
      rw [editFor, plannedEntries_edits]
      split
      · rename_i hkind
        cases hfound : plan.edits.reverse.find? fun edit => edit.target == e.id with
        | none =>
          rw [find?_eq_none] at hfound
          have hin : ({ target := e.id, action := "omit" } : ContextEdit) ∈
              plan.edits.reverse := by
            rw [List.mem_reverse, hplan]
            exact List.mem_map.2 ⟨e, List.mem_filter.2 ⟨he, by simp [hkind]⟩, rfl⟩
          simpa using hfound _ hin
        | some edit =>
          have hin := List.mem_reverse.1 (List.mem_of_find?_eq_some hfound)
          have htgt : edit.target = e.id := by simpa using List.find?_some hfound
          rw [hplan] at hin
          obtain ⟨entry, -, rfl⟩ := List.mem_map.1 hin
          rw [← htgt]
      · rename_i hkind
        rw [find?_eq_none]
        intro edit hin
        rw [List.mem_reverse, hplan] at hin
        obtain ⟨entry, hentry, rfl⟩ := List.mem_map.1 hin
        obtain ⟨hentryIn, hentryKind⟩ := List.mem_filter.1 hentry
        intro htgt
        have hsame : entry = e := by
          have hnodup : (visible.map EntryRecord.id).Nodup := List.pairwise_map.2 (hsorted.imp fun hlt => hlt.ne)
          exact List.inj_on_of_nodup_map hnodup (hentryVisible entry hentryIn)
            (hentryVisible e he) (by simpa using htgt)
        rw [hsame] at hentryKind
        exact hkind (by simpa using hentryKind)
    rw [contribution, editFor_append, hfind]
    split
    · simp [Context.editedModel]
    · rfl
  have hforeign : (view.entries.map fun e =>
      contribution (kept ++ plannedEntries c s.nextId plan.edits [json]) e).flatten =
      foreignMessages view := by
    rw [foreignMessages, hcontrs, List.map_congr_left hmodel]
    induction view.entries with
    | nil => rfl
    | cons e rest ih =>
      rw [map_cons, List.flatten_cons, ih]
      rfl
  have hafter : replay view'.messages =
      { sections := snapshot.desired.foldl replaySection (replay (foreignMessages view)).sections
        tools := afterChanges (replay (foreignMessages view)).tools
          ⟨[], offeredToolDeclarations snapshot modelTools⟩ } := by
    rw [replay, hmsgs, hforeign, List.foldl_append]
    exact hmsg (replay (foreignMessages view))
  have hcont : startsOver view' = false := by
    simp only [startsOver, Bool.and_eq_true, Bool.not_eq_true'] at hover
    obtain ⟨head, hsome⟩ := Option.isSome_iff_exists.1 hover.1
    have hheadVisible : head ∈ visible := by
      rw [hhead₀] at hsome
      exact List.mem_reverse.1 (List.mem_of_find?_eq_some hsome)
    have hlater : laterSystem view' = true := by
      rw [laterSystem, hhead, hsome, hents]
      simp only [Option.any_some, List.any_append, Bool.or_eq_true]
      refine Or.inr (List.any_eq_true.2 ⟨_, mem_cons_self, ?_⟩)
      simpa using (hids head hheadVisible).1
    simp [startsOver, hlater]
  have hsectionsIff := replay_desired_iff (replay (foreignMessages view)).sections hsnap.desired
  have htoolsIff := declared_again_iff (replay (foreignMessages view)).tools hoffered
  constructor
  · rintro ⟨otherStorage, otherView, hother, hctx, hsecs, htools, -⟩
    rw [hplanned, happ] at hother
    cases hother
    rw [hcontext] at hctx
    cases hctx
    rw [hafter] at hsecs htools
    obtain ⟨hplain, honly⟩ := htoolsIff.1 htools
    exact ⟨hplain, hsectionsIff.1 hsecs, honly⟩
  rintro ⟨hplain, hfits⟩
  have hsecs : (replay view'.messages).sections = snapshot.desired := by
    rw [hafter]
    exact hsectionsIff.2 hfits.sections
  have hshows : Declared (replay view'.messages).tools (offeredToolDeclarations snapshot modelTools) := by
    rw [hafter]
    exact htoolsIff.2 ⟨hplain, hfits.tools⟩
  refine ⟨storage', view', by rw [hplanned]; exact happ, hcontext, hsecs, hshows, ?_⟩
  exact planPrompt_eq_nil hsnap hnames hcont hsecs hshows

theorem converges_inOrder (hinv : InOrder s) (hsnap : snapshot.Distinct) (hnames : DistinctNames modelTools)
    (hview : Context.contextView s c none = .ok view) (timestamp : Int) :
    Converges s c snapshot modelTools view timestamp ↔
      (∀ tool ∈ offeredToolDeclarations snapshot modelTools, tool.constrainedSampling = none) ∧
        (startsOver view = true → Fits snapshot modelTools view) := by
  simp only [Context.contextView, bind_eq_ok] at hview
  obtain ⟨visible, hvisible, selected, hselected, hview⟩ := hview
  cases hselected
  obtain ⟨record, hstored⟩ := Context.stored_of_visibleEntries hvisible
  obtain ⟨list, hlist, hmem, hsorted⟩ := Context.visibleEntries_spec hinv.transcript hstored
  rw [hvisible] at hlist
  cases hlist
  have hids : ∀ e ∈ visible, e.id < s.nextId ∧ ∀ edit ∈ e.edits, edit.target < s.nextId := by
    intro e he
    obtain ⟨commitSeq, hfind⟩ := ((hmem e).1 he).stored
    have hid := hinv.minted _ _ hfind
    exact ⟨hid, fun edit hedit => (hinv.edits _ _ edit hfind hedit).trans hid⟩
  cases hover : startsOver view with
  | false =>
    rw [converges_continuing hinv hsnap hnames hvisible hview hids hover]
    simp
  | true =>
    rw [converges_startingOver hinv hsnap hnames hvisible hsorted hview hids hover]
    simp

/-- **When prompt planning converges.** At every time of a run, for every conversation and registry:
exactly when no offered tool has a sampling constraint and, where the plan starts over behind a head,
what other entries than system entries show is an initial part of the desired sections and offered
tools only. -/
theorem converges_iff (closedMessage : Bytes) (before : List Session.Step) (c : ConversationId)
    (snapshot : Snapshot) (hsnapshot : snapshot.Distinct) (modelTools : Json)
    (hnames : DistinctNames modelTools) (view : Context.View) (timestamp : Int)
    (hview : Context.contextView (({ storage := { closedMessage := closedMessage } } : Session).run
      before).storage c none = .ok view) :
    Converges (({ storage := { closedMessage := closedMessage } } : Session).run before).storage c
        snapshot modelTools view timestamp ↔
      (∀ tool ∈ offeredToolDeclarations snapshot modelTools, tool.constrainedSampling = none) ∧
        (startsOver view = true → Fits snapshot modelTools view) :=
  converges_inOrder (Context.follows_run (Context.inOrder_initial closedMessage) before).inOrder
    hsnapshot hnames hview timestamp

def registered (name : Bytes) (deferred : Bool) : ToolRegistration where
  declaration := { name := name, description := "Runs code", parameters := .empty }
  deferred := deferred
  convertible := ⟨by simp [Transcript.JsonValue.empty], by simp⟩

/-- A registry with a deferred tool. -/
def twoTools : Snapshot where
  tools := [registered "exec" false, registered "read" false, registered "search" true]
  sections := [{ key := "environment", text := "linux" }, { key := "style", text := "brief", tag := false }]

/-- A model that takes the deferred tool and refuses another one. -/
def chosenTools : Json :=
  .object (field "add" (.array [.string "search"]) ++ field "remove" (.array [.string "read"]))

/-- A system message that shows an older section and a tool. -/
def olderSystem : Json :=
  (systemJson ⟨[⟨"environment", some "macos"⟩], [(registered "exec" false).declaration], [], 0⟩).toOption.getD .null

/-- A system entry, and an entry of another kind that starts the context there with a system message of its own. -/
def headedRun : List Session.Step :=
  [.commit [.createRootConversation, .appendEntry 1 "pi.system" .null none [olderSystem] none [],
    .appendEntry 1 "note" .null (some (.entry 2)) [olderSystem] none []] (.ok ())]

/-- A plan that starts over omits the system entry and keeps to the sections and tools of the other one. -/
theorem headedRun_converges : ∃ view,
    Context.contextView (({ storage := { closedMessage := [] } } : Session).run headedRun).storage 1 none = .ok view ∧
      startsOver view = true ∧
      Converges (({ storage := { closedMessage := [] } } : Session).run headedRun).storage 1 twoTools chosenTools
        view 0 := by
  have hshown : ((Context.contextView (({ storage := { closedMessage := [] } } : Session).run headedRun).storage 1
      none).toOption.any fun view => decide (startsOver view = true ∧
        (replay (foreignMessages view)).sections.map Section.name <+:
          twoTools.desired.map Section.name ∧
        ∀ tool ∈ (replay (foreignMessages view)).tools,
          tool.name ∈ (offeredToolDeclarations twoTools chosenTools).map (·.name))) = true := by decide +kernel
  cases hview : Context.contextView (({ storage := { closedMessage := [] } } : Session).run headedRun).storage 1 none with
  | error message =>
    rw [hview] at hshown
    cases hshown
  | ok view =>
    rw [hview] at hshown
    obtain ⟨hover, hsections, htools⟩ := of_decide_eq_true hshown
    refine ⟨view, rfl, hover, (converges_iff [] headedRun 1 twoTools ⟨by decide, by decide⟩ chosenTools
      ⟨by decide, by decide⟩ view 0 hview).2 ⟨by decide, fun _ => ⟨hsections, htools⟩⟩⟩

/-- A registry of one section and one tool. -/
def oneTool (sampling : Option (OrdMap Bytes Bytes)) : Snapshot where
  tools :=
    [{ declaration :=
        { name := "exec"
          description := "Runs code"
          parameters := .empty
          constrainedSampling := sampling }
       convertible := ⟨by simp [Transcript.JsonValue.empty], by simp⟩ }]
  sections := [{ key := "environment", text := "linux" }]

theorem oneTool_distinct (sampling : Option (OrdMap Bytes Bytes)) : (oneTool sampling).Distinct :=
  ⟨by simp [oneTool], by simp [oneTool]⟩

/-- A run that creates the root conversation. -/
def rootOnly : List Session.Step := [.commit [.createRootConversation] (.ok ())]

theorem rootOnly_context :
    Context.contextView (({ storage := { closedMessage := [] } } : Session).run rootOnly).storage 1
      none = .ok {} := by decide +kernel

/-- A tool with a grammar is not read back as it was declared, and it is announced again by every
plan. -/
theorem constrained_announced_again :
    let sampling := (OrdMap.empty.insert (ofString "openai_lark") (ofString "start: SOURCE"))
    (oneTool (some sampling)).Distinct ∧ DistinctNames (.object []) ∧
      Context.contextView (({ storage := { closedMessage := [] } } : Session).run rootOnly).storage 1 none = .ok {} ∧
      ¬Converges (({ storage := { closedMessage := [] } } : Session).run rootOnly).storage 1
        (oneTool (some sampling)) (.object []) {} 0 := by
  intro sampling
  have hnames : DistinctNames (.object []) := ⟨by decide, by decide⟩
  refine ⟨oneTool_distinct _, hnames, rootOnly_context, ?_⟩
  intro hconverges
  have hplain := ((converges_inOrder
    (Context.follows_run (Context.inOrder_initial []) rootOnly).inOrder (oneTool_distinct _) hnames
    rootOnly_context 0).1 hconverges).1
  have hnone := hplain _ (mem_cons_self : _ ∈ offeredToolDeclarations (oneTool (some sampling)) _)
  cases hnone

end Prompt

end CodingHarness.Durable
