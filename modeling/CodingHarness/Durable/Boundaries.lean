import CodingHarness.Durable.Placement

/-!
# Boundaries that succeed

A submission that was accepted may fail the commit of a later tool round: an input of two blocks waits
without a complaint, and `inputUser` rejects it when it is placed (`twoBlocks_fail`). In a run whose
queued submissions are placeable no boundary fails (`boundary_succeeds`): the end of a tool round and the
answer of the running generation, and the admission behind waiting items, each end with a result.
-/

namespace CodingHarness.Durable

open Library Support
open List (mem_cons_of_mem mem_cons_self)

namespace Workflow

/-! ## Calls that cannot fail -/

section Rules

variable {α β : Type} {P : Workflow → Prop} {Q : β → Workflow → Prop} {E : Workflow → Prop}

theorem ensures_checkOk {x : Expected α} {a : α} (hx : x = .ok a) {f : α → WorkflowAction β}
    (h : Ensures P (f a) Q E) : Ensures P (check x >>= f) Q E := by
  subst hx
  exact h

end Rules

variable {s : Workflow} {c : ConversationId}

/-- An entry without edits whose head its conversation sees can be appended. -/
theorem ensures_appendEntryOk (h : Ready s) (hstored : Stored s c) {draft : EntryDraft} (hedits : draft.edits = [])
    (hhead : ∀ id, draft.head = some (.entry id) → s.storage.entryVisible c id = true) :
    Ensures (fun t => t = s) (appendEntry c draft)
      (fun record t => record = draft.record s.storage.nextId c ∧ t = s.appended record ∧
        StorageState.applyEntry s.storage.nextSeq s.minted.storage (some record) = .ok (s.appended record).storage)
      fun _ => False := by
  have hhidden : StorageState.headHidden s.minted.storage (draft.record s.storage.nextId c) = false := by
    unfold StorageState.headHidden
    cases hdraft : draft.head with
    | none => simp [EntryDraft.record, hdraft]
    | some head =>
      cases head with
      | self => simp [EntryDraft.record, hdraft]
      | entry id =>
        have hvisible : s.minted.storage.entryVisible c id = true := hhead id hdraft
        simp [EntryDraft.record, hdraft, hvisible]
  have hcontains : s.minted.storage.conversations.contains c = true := (OrdMap.contains_eq_true_iff _ _).2 hstored
  have habsent : s.minted.storage.entries.contains s.storage.nextId = false :=
    (OrdMap.contains_eq_false_iff _ _).2 (h.fresh _ (le_refl _))
  have hchecked : StorageState.checkEdits s.minted.storage c (draft.record s.storage.nextId c).edits = .ok () := by
    have hrec : (draft.record s.storage.nextId c).edits = [] := hedits
    rw [hrec]
    rfl
  have hstor : StorageState.applyEntry s.storage.nextSeq s.minted.storage
      (some (draft.record s.storage.nextId c)) = .ok (s.appended (draft.record s.storage.nextId c)).storage := by
    refine StorageState.applyEntry_eq_ok.2 ⟨_, rfl, habsent, hcontains, hhidden, hchecked, ?_⟩
    simp [appended, minted, StorageState.reserveId, EntryDraft.record, StorageState.entryIds]
  refine (ensures_mintIdAt s).bind fun id => ?_
  apply ensures_assume
  rintro rfl
  apply ensures_getAt
  apply ensures_checkOk hstor
  refine (ensures_modify (G := fun _ t => t = s.appended (draft.record s.storage.nextId c)) ?_).bind fun _ => ?_
  · rintro t rfl
    rfl
  · exact ensures_pure fun t ht => ⟨rfl, ht, hstor⟩

variable {current next : SubmissionRecord} {settlement : SubmissionSettlement}

theorem ensures_changeOk {change : SubmissionChange} (hfind : s.storage.submissions.find change.id = some current)
    (hchange : applySubmissionChange current change = .ok next) : Ensures (fun t => t = s) (changeSubmission change)
      (fun _ t => t = s.withSubmission change.id next) fun _ => False := by
  apply ensures_getAt
  apply ensures_checkOk (present_eq_ok.2 hfind)
  apply ensures_checkOk hchange
  apply ensures_modify
  rintro t rfl
  rfl

theorem place_queued (h : current.status = queued) (id : SubmissionId) (entry : EntryId):
    ∃ next, applySubmissionChange current (.place id entry) = .ok next ∧ next.status ≠ queued := by
  have hterm : current.isTerminal = false := by
    rw [SubmissionRecord.isTerminal, h]
    decide
  have hplace : applySubmissionChange current (.place id entry) = .ok { current with
      status := ofString (if current.type = "input" then "placed" else "done")
      entry := some entry } := by
    rw [applySubmissionChange, hterm, if_neg Bool.false_ne_true]
    exact if_neg (not_not.2 h)
  refine ⟨_, hplace, ?_⟩
  dsimp only
  split
  · decide
  · decide

/-- A submission can be settled as unanswered, and one that left the queue as done. -/
theorem settle_ok (id : SubmissionId) (hends : Ends settlement) (hknown : Known current.status)
    (h : settlement.status = "done" → current.status ≠ queued) :
    ∃ next, applySubmissionChange current (.settle id settlement) = .ok next ∧ next.status ≠ queued := by
  by_cases hterm : current.isTerminal = true
  · refine ⟨current, by rw [applySubmissionChange, if_pos hterm], ?_⟩
    intro hqueued
    rw [SubmissionRecord.isTerminal, hqueued] at hterm
    revert hterm
    decide
  have hplaced : ¬ (settlement.status = "done" ∧ current.status ≠ "placed") := by
    rintro ⟨hdone, hnot⟩
    apply hterm
    rw [SubmissionRecord.isTerminal, Bool.or_eq_true, beq_iff_eq, beq_iff_eq]
    rcases hknown with hqueued | hplaced | hdone' | hunanswered
    · exact absurd hqueued (h hdone)
    · exact absurd hplaced hnot
    · exact .inl hdone'
    · exact .inr hunanswered
  have hsettle : applySubmissionChange current (.settle id settlement) = .ok { current with
      status := settlement.status
      answer := settlement.answer
      reason := settlement.reason
      detail := settlement.detail } := by
    rw [applySubmissionChange, if_neg hterm]
    exact if_neg hplaced
  exact ⟨_, hsettle, hends.ne_queued⟩

/-! ## The loops of a boundary -/

/-- The submissions are stored and no longer queued. -/
def Left (s : Workflow) (ids : List SubmissionId) : Prop :=
  ∀ id ∈ ids, ∃ record, s.storage.submissions.find id = some record ∧ record.status ≠ queued

theorem Left.withSubmission {ids : List SubmissionId} (h : Left s ids) (id : SubmissionId)
    {record : SubmissionRecord} (hleft : record.status ≠ queued) : Left (s.withSubmission id record) ids := by
  intro other hother
  by_cases heq : other = id
  · exact ⟨record, heq ▸ OrdMap.find_insert_self _ _ _, hleft⟩
  · obtain ⟨found, hfound, hstat⟩ := h other hother
    exact ⟨found, ((OrdMap.find_insert _ _ _ _).trans (if_neg heq)).trans hfound, hstat⟩

/-- A boundary of the conversation with the items it has not placed yet. The run does not change, and
its inputs have left the queue. -/
structure Placing (c : ConversationId) (run : Option LiveRun) (todo : List InboxItem)
    (s : Workflow) : Prop where
  ready : Ready s
  stored : Stored s c
  sameRun : s.run c = run
  left : ∀ live, run = some live → Left s live.inputs
  waiting : ∀ item ∈ todo, ∃ record, s.storage.submissions.find item.id = some record ∧ record.status = queued
  distinct : (todo.map InboxItem.id).Nodup
  good : ∀ item ∈ todo, GoodItem s.storage c item

variable {run : Option LiveRun} {todo : List InboxItem}

theorem Placing.readyAt (h : Placing c run todo s) : ReadyAt s.storage (some c) s := by
  refine ⟨h.ready, .of_eq rfl rfl, ?_⟩
  rintro d heq
  cases heq
  exact h.stored

theorem Placing.perm {other : List InboxItem} (h : Placing c run todo s) (hperm : todo.Perm other) :
    Placing c run other s :=
  { h with
    waiting := fun item hitem => h.waiting item (hperm.mem_iff.2 hitem)
    distinct := (hperm.map InboxItem.id).nodup_iff.1 h.distinct
    good := fun item hitem => h.good item (hperm.mem_iff.2 hitem) }

theorem Placing.appended (h : Placing c run todo s) {draft : EntryDraft}
    (happly : StorageState.applyEntry s.storage.nextSeq s.minted.storage
      (some (draft.record s.storage.nextId c)) = .ok (s.appended (draft.record s.storage.nextId c)).storage) :
    Placing c run todo (s.appended (draft.record s.storage.nextId c)) where
  ready := (h.readyAt.appended rfl happly).ready
  stored := h.stored
  sameRun := h.sameRun
  left := h.left
  waiting := h.waiting
  distinct := h.distinct
  good item hitem := (h.good item hitem).mono (extends_appended h.ready rfl)

variable {item : InboxItem}

theorem Placing.leave (h : Placing c run (item :: todo) s)
    (hknown : Known next.status) (hleft : next.status ≠ queued) :
    Placing c run todo (s.withSubmission item.id next) where
  ready := (h.readyAt.withSubmission item.id hknown).ready
  stored := h.stored
  sameRun := h.sameRun
  left live heq := (h.left live heq).withSubmission item.id hleft
  waiting other hother := by
    obtain ⟨record, hrec, hstat⟩ := h.waiting other (mem_cons_of_mem _ hother)
    have hne : other.id ≠ item.id := by
      intro heq
      have hdist := h.distinct
      rw [List.map_cons, List.nodup_cons] at hdist
      exact hdist.1 (heq ▸ List.mem_map_of_mem hother)
    exact ⟨record, ((OrdMap.find_insert _ _ _ _).trans (if_neg hne)).trans hrec, hstat⟩
  distinct := by
    have hdist := h.distinct
    rw [List.map_cons, List.nodup_cons] at hdist
    exact hdist.2
  good other hother := h.good other (mem_cons_of_mem _ hother)

theorem ensures_placeOk {α : Type} {draft : EntryDraft}
    (hs : Placing c run (item :: todo) s) (hedits : draft.edits = [])
    (hhead : ∀ id, draft.head = some (.entry id) → s.storage.entryVisible c id = true)
    {f : EntryRecord → WorkflowAction α} {Q : α → Workflow → Prop}
    (hf : ∀ id, Ensures (Placing c run todo) (f (draft.record id c)) Q fun _ => False) : Ensures (fun t => t = s) (do
        let appended ← appendEntry c draft
        changeSubmission (.place item.id appended.id)
        f appended)
      Q fun _ => False := by
  refine (ensures_appendEntryOk hs.ready hs.stored hedits hhead).bind fun appended => ?_
  apply ensures_assume
  rintro rfl
  apply Ensures.ofStates
  rintro t ⟨rfl, happly⟩
  have hplacing := hs.appended happly
  obtain ⟨current, hcur, hstat⟩ := hplacing.waiting item (mem_cons_self ..)
  obtain ⟨next, hnext, hleft⟩ := place_queued hstat item.id (draft.record s.storage.nextId c).id
  have hknown := applySubmissionChange_known hnext leaves_place (hplacing.ready.statuses _ _ hcur)
  have hplace := ensures_changeOk hcur hnext
  refine Ensures.bind hplace fun _ => ?_
  refine (hf s.storage.nextId).mono ?_ (fun _ _ ht => ht) fun _ ht => ht
  rintro t rfl
  exact hplacing.leave hknown hleft

theorem writeEntryFromJson_ok {entry : WriteEntry} (h : ∀ id, entry.head = some (.entry id) → Exact id) :
    writeEntryFromJson (writeEntryJson entry) = .ok { entry with edits := [] } := by
  have hplain : Plain (.write { entry with edits := [] }) := ⟨rfl, fun id heq => asInteger_number (h id heq)⟩
  exact writeEntryFromJson_writeEntryJson hplain

variable {storage : StorageState}

theorem goodItem_write (h : GoodItem storage c item) (hmode : item.mode = .write) :
    ∃ entry, item.entry = some (writeEntryJson entry) ∧ Placeable storage c (.write entry) := by
  obtain ⟨body, heq, hbody⟩ := h
  cases body with
  | write entry =>
    rw [heq]
    exact ⟨entry, rfl, hbody⟩
  | input content whenBusy entry =>
    rw [heq] at hmode
    simp only [queuedItem] at hmode
    split at hmode
    · cases hmode
    · cases hmode

theorem goodItem_input (h : GoodItem storage c item) (hmode : item.mode ≠ .write) :
    ∃ content entry, item.content = some content ∧ item.entry = Option.map inputEntryJson entry ∧
      SingleText content ∧ content.Storable := by
  obtain ⟨body, heq, hbody⟩ := h
  cases body with
  | write entry =>
    rw [heq] at hmode
    exact absurd rfl hmode
  | input content whenBusy entry =>
    rw [heq]
    exact ⟨content, entry, rfl, rfl, hbody⟩

theorem ensures_placeWriteOk (head : Option EntryId) (hmode : item.mode = .write) :
    Ensures (Placing c run (item :: todo)) (placeWrite c head item) (fun _ => Placing c run todo) fun _ => False := by
  apply Ensures.ofStates
  intro s hs
  obtain ⟨entry, hentry, hplace⟩ := goodItem_write (hs.good item (mem_cons_self ..)) hmode
  apply ensures_checkOk (present_eq_ok.2 hentry)
  apply ensures_checkOk (writeEntryFromJson_ok fun id heq => (hplace id heq).1)
  split
  · obtain ⟨current, hcur, -⟩ := hs.waiting item (mem_cons_self ..)
    have hknown := hs.ready.statuses _ _ hcur
    obtain ⟨next, hnext, hleft⟩ := settle_ok item.id ends_stale hknown fun hdone => by cases hdone
    have hsettle := ensures_changeOk hcur hnext
    refine Ensures.bind hsettle fun _ => ensures_pure ?_
    rintro t rfl
    exact hs.leave (applySubmissionChange_known hnext ends_stale.leaves hknown) hleft
  apply ensures_placeOk hs rfl
  · exact fun id heq => (hplace id heq).2
  · exact fun id => ensures_pure fun _ ht => ht

theorem ensures_placeWritesOk (rest : List InboxItem) (head : Option EntryId)
    (hmode : ∀ item ∈ todo, item.mode = .write) :
    Ensures (Placing c run (todo ++ rest)) (placeWrites c head todo) (fun _ => Placing c run rest)
      fun _ => False := by
  induction todo generalizing head with
  | nil => exact ensures_pure fun _ hs => hs
  | cons item todo ih =>
    refine (ensures_placeWriteOk head (hmode item (mem_cons_self ..))).bind fun next => ?_
    exact ih next fun other hother => hmode other (mem_cons_of_mem _ hother)

/-- The replay can read the entries of the placed users. -/
def Replayable (result : BoundaryResult) : Prop := ∀ entry ∈ result.userEntries, ∃ user, inputUser entry = .ok user

variable {now : Int} {result : BoundaryResult}

theorem ensures_placeUserOk (hnow : Exact now) (hres : Replayable result) (hmode : item.mode ≠ .write) :
    Ensures (Placing c run (item :: todo)) (placeUser c now result item)
      (fun next s => Replayable next ∧ Placing c run todo s) fun _ => False := by
  apply Ensures.ofStates
  intro s hs
  obtain ⟨content, entry, hcont, hentry, htext, hstorable⟩ := goodItem_input (hs.good item (mem_cons_self ..)) hmode
  have hread : optionally item.entry inputEntryFromJson = .ok entry := by
    rw [hentry]
    exact optionally_map fun other _ => inputEntryFromJson_inputEntryJson other
  obtain ⟨draft, members, hdraft, hhead, hedits, hdata, hmodel⟩ := inputEntryDraft_ok entry hstorable hnow
  apply ensures_checkOk (present_eq_ok.2 hcont)
  apply ensures_checkOk hread
  apply ensures_checkOk hdraft
  apply ensures_placeOk hs hedits
  · intro id heq
    rw [hhead] at heq
    cases heq
  intro id
  apply ensures_pure
  refine fun t ht => ⟨?_, ht⟩
  -- A reset of the users forgets them; otherwise the new entry joins them.
  intro other hother
  rcases List.mem_append.1 hother with hother | hother
  · split at hother
    · cases hother
    · exact hres other hother
  · rw [List.mem_singleton.1 hother]
    exact inputUser_ok htext hnow hdata hmodel

theorem ensures_placeUsersOk (hnow : Exact now) (rest : List InboxItem) (hres : Replayable result)
    (hmode : ∀ item ∈ todo, item.mode ≠ .write) :
    Ensures (Placing c run (todo ++ rest)) (placeUsers c now result todo)
      (fun next s => Replayable next ∧ Placing c run rest s) fun _ => False := by
  induction todo generalizing result with
  | nil => exact ensures_pure fun _ hs => ⟨hres, hs⟩
  | cons item todo ih =>
    refine (ensures_placeUserOk hnow hres (hmode item (mem_cons_self ..))).bind fun next => ?_
    apply ensures_assume
    intro hnext
    exact ih hnext fun other hother => hmode other (mem_cons_of_mem _ hother)

theorem hasQueuedReset_ok {items : List InboxItem}
    (h : ∀ item ∈ items, GoodItem storage c item) : ∃ reset, hasQueuedReset items = .ok reset := by
  induction items with
  | nil => exact ⟨false, rfl⟩
  | cons item rest ih =>
    obtain ⟨later, hlater⟩ := ih fun other hother => h other (mem_cons_of_mem _ hother)
    by_cases hmode : item.mode = .write
    · obtain ⟨entry, hentry, -⟩ := goodItem_write (h item (mem_cons_self ..)) hmode
      simp only [hasQueuedReset, hmode, if_true, hentry, present, writeEntryJson, Json.asObject, bind, Except.bind]
      split
      · exact ⟨true, rfl⟩
      · exact ⟨later, hlater⟩
    · rw [hasQueuedReset, if_neg hmode]
      exact ⟨later, hlater⟩

variable {boundary : Boundary} (settings : WorkflowSettings)

theorem ensures_applyBoundaryOk
    (hbound : boundary.conversationId = c) (point : BoundaryPoint) (hnow : Exact now) :
    Ensures (Placing c run boundary.items) (applyBoundary settings boundary point now)
      (fun result s => Replayable result ∧ Placing c run [] s) fun _ => False := by
  subst hbound
  apply Ensures.ofStates
  intro s hs
  obtain ⟨reset, hreset⟩ := hasQueuedReset_ok hs.good
  apply ensures_checkOk hreset
  dsimp only
  generalize hfinal : (decide (point = .final) || reset) = final
  have hperm := boundary_perm settings boundary.items final
  have hwrites : ∀ item ∈ itemsAt boundary.items (pick boundary.items .write .all), item.mode = .write := by
    intro item hitem
    obtain ⟨index, hmem, hindex⟩ := mem_itemsAt hitem
    exact mem_zipIdx_mode hmem hindex
  have husers : ∀ item ∈ itemsAt boundary.items (pickUsers settings boundary.items final), item.mode ≠ .write := by
    intro item hitem
    obtain ⟨index, hmem, hindex⟩ := mem_itemsAt hitem
    exact pickUsers_mode hmem hindex
  refine Ensures.bind ((ensures_placeWritesOk _ boundary.head hwrites).mono
    (fun t ht => ht ▸ hs.perm hperm) (fun _ _ ht => ht) fun _ ht => ht) fun _ => ?_
  have hempty : Replayable {} := fun entry hentry => by cases hentry
  refine Ensures.bind (ensures_placeUsersOk hnow _ hempty husers) fun result => ?_
  apply ensures_assume
  intro hres
  refine (ensures_modify (G := fun _ => Placing boundary.conversationId run []) ?_).bind fun _ =>
    ensures_pure fun t ht => ⟨hres, ht⟩
  intro t ht
  exact
    { ready := (ht.readyAt.setInbox _ ht.good).ready
      stored := ht.stored
      sameRun := ht.sameRun
      left := ht.left
      waiting := fun item hitem => by cases hitem
      distinct := List.nodup_nil
      good := fun item hitem => by cases hitem }

/-! ## The ends of a commit -/

theorem ensures_startRunOk (inputs : List SubmissionId) {P : Workflow → Prop} :
    Ensures P (startRun settings c inputs) (fun _ _ => True) fun _ => False :=
  fun _ _ => trivial

theorem ensures_joinRunInputsOk (task : TaskId) (users : List SubmissionId) (live : LiveRun) :
    Ensures (fun s => s.run c = some live) (joinRunInputs c task users)
      (fun _ s => ∃ joined, s.run c = some joined) fun _ => False := by
  refine ensures_read fun s hs => ?_
  rw [hs]
  dsimp only
  split
  · apply ensures_modify
    rintro t rfl
    exact ⟨_, Function.update_self ..⟩
  · exact ensures_pure fun t ht => ⟨live, ht ▸ hs⟩

theorem ensures_handOverOk (live : LiveRun) :
    Ensures (fun s => s.run c = some live) (handOver settings c) (fun _ _ => True) fun _ => False := by
  refine ensures_read fun s hs => ?_
  exact ensures_checkOk (present_eq_ok.2 hs) (ensures_startRunOk settings live.inputs)

theorem ensures_settleInputsOk (hends : Ends settlement) (inputs : List SubmissionId) :
    Ensures (fun s => Ready s ∧ Left s inputs) (settleInputs settlement inputs) (fun _ _ => True) fun _ => False := by
  induction inputs with
  | nil => exact ensures_pure fun _ _ => trivial
  | cons input rest ih =>
    apply Ensures.ofStates
    rintro s ⟨hready, hleft⟩
    obtain ⟨current, hcur, hstat⟩ := hleft input (mem_cons_self ..)
    have hknown := hready.statuses _ _ hcur
    obtain ⟨next, hnext, hnextLeft⟩ := settle_ok input hends hknown fun _ => hstat
    have hsettle := ensures_changeOk hcur hnext
    refine Ensures.bind hsettle fun _ => ih.mono ?_ (fun _ _ ht => ht) fun _ ht => ht
    rintro t rfl
    have hrest : Left s rest := fun id hid => hleft id (mem_cons_of_mem _ hid)
    exact ⟨(hready.atStart.withSubmission input (applySubmissionChange_known hnext hends.leaves hknown)).ready,
      hrest.withSubmission input hnextLeft⟩

theorem ensures_endRunOk (task : TaskId) (hends : Ends settlement) :
    Ensures (Placing c run []) (endRun c task settlement) (fun _ _ => True) fun _ => False := by
  refine ensures_read fun s hs => ?_
  cases hrun : s.run c with
  | none => exact ensures_pure fun _ _ => trivial
  | some live =>
    dsimp only
    split
    · have hleft : Left s live.inputs := hs.left live (hs.sameRun.symm.trans hrun)
      refine Ensures.bind ((ensures_settleInputsOk hends live.inputs).mono ?_
        (fun _ _ ht => ht) fun _ ht => ht) fun _ => ensures_modify fun _ _ => trivial
      rintro t rfl
      exact ⟨hs.ready, hleft⟩
    · exact ensures_pure fun _ _ => trivial

theorem ensures_endAndStartOk (task : TaskId)
    (hends : Ends settlement) (users : List SubmissionId) : Ensures (Placing c run []) (do
        endRun c task settlement
        if users.isEmpty then return () else startRun settings c users)
      (fun _ _ => True) fun _ => False := by
  refine (ensures_endRunOk task hends).bind fun _ => ?_
  split
  · exact ensures_pure fun _ _ => trivial
  · exact ensures_startRunOk settings users

theorem scanEntries_ok (h : StorageState.Transcript storage)
    {conversation : ConversationRecord} (hstored : storage.conversations.find c = some conversation)
    (limit : Nat) : ∃ entries, storage.scanEntries c limit = .ok entries := by
  obtain ⟨n, hn, hdepth⟩ := h.depth c conversation hstored
  obtain ⟨visible, hloop, -⟩ := StorageState.scanEntriesLoop_spec h hdepth
    (storage.conversations.size + 1) (Nat.lt_succ_of_lt hn) none [] (by simp)
  simp only [StorageState.scanEntries, StorageState.reading, h.isOpen, hloop]
  exact ⟨_, rfl⟩

theorem ensures_prepareBoundaryOk (h : Ready s) (hstored : Stored s c) (items : List InboxItem) :
    Ensures (fun t => t = s) (prepareBoundary c items)
      (fun boundary t => (boundary.conversationId = c ∧ boundary.items = items) ∧ t = s) fun _ => False := by
  obtain ⟨conversation, hconv⟩ := hstored
  obtain ⟨entries, hents⟩ := scanEntries_ok h.transcript hconv Transaction.noLimit
  apply ensures_getAt
  apply ensures_checkOk hents
  exact ensures_pure fun t ht => ⟨⟨rfl, rfl⟩, ht⟩

/-- The items that wait are what a boundary of the conversation has to place. -/
theorem placing_start (hacct : Accountable s) (h : Ready s) (hstored : Stored s c) :
    Placing c (s.run c) (s.inbox c) s where
  ready := h
  stored := hstored
  sameRun := rfl
  left live hlive := hacct.runs c live hlive
  waiting item hitem := by
    obtain ⟨record, hrec, -, hstat, -⟩ := hacct.agree.waiting c item hitem
    exact ⟨record, hrec, hstat⟩
  distinct := hacct.agree.distinct c
  good := h.items c

theorem ensures_boundaryOk {α : Type} (hacct : Accountable s) (h : Ready s)
    (hstored : Stored s c) {f : Boundary → WorkflowAction α} {Q : α → Workflow → Prop}
    (hf : ∀ boundary, boundary.conversationId = c → boundary.items = s.inbox c →
      Ensures (Placing c (s.run c) boundary.items) (f boundary) Q fun _ => False) :
    Ensures (fun t => t = s) (prepareBoundary c (s.inbox c) >>= f) Q fun _ => False := by
  refine (ensures_prepareBoundaryOk h hstored (s.inbox c)).bind fun boundary => ?_
  apply ensures_assume
  rintro ⟨hbound, hitems⟩
  refine (hf boundary hbound hitems).mono ?_ (fun _ _ ht => ht) fun _ ht => ht
  rintro t rfl
  rw [hitems]
  exact placing_start hacct h hstored

theorem inputUsers_ok {entries : List EntryRecord} (h : ∀ entry ∈ entries, ∃ user, inputUser entry = .ok user) :
    ∃ users, inputUsers entries = .ok users := by
  induction entries with
  | nil => exact ⟨[], rfl⟩
  | cons entry rest ih =>
    obtain ⟨user, huser⟩ := h entry (mem_cons_self ..)
    obtain ⟨users, husers⟩ := ih fun other hother => h other (mem_cons_of_mem _ hother)
    refine ⟨user :: users, ?_⟩
    rw [inputUsers] at husers ⊢
    rw [List.mapM_cons, huser, husers]
    rfl

theorem ensures_finishToolRoundOk (hacct : Accountable s)
    (h : Ready s) {live : LiveRun} (hlive : s.run c = some live) (task : TaskId) (hnow : Exact now):
    Ensures (fun t => t = s) (finishToolRound settings c task now) (fun _ _ => True) fun _ => False := by
  apply ensures_getAt
  apply ensures_boundaryOk hacct h (h.hosted c live hlive)
  intro boundary hbound _
  refine (ensures_applyBoundaryOk settings hbound .postTools hnow).bind fun applied => ?_
  apply ensures_assume
  intro hreplay
  obtain ⟨users, husers⟩ := inputUsers_ok hreplay
  apply ensures_checkOk husers
  split
  · exact ensures_endAndStartOk settings task (ends_unanswered ..) _
  refine Ensures.bind ((ensures_joinRunInputsOk task applied.users live).mono
    (fun t ht => ht.sameRun.trans hlive) (fun _ _ ht => ht) fun _ ht => ht) fun _ => ?_
  exact ensures_exists fun joined => ensures_handOverOk settings joined

theorem ensures_answerOk (hacct : Accountable s) (h : Ready s)
    {live : LiveRun} (hlive : s.run c = some live) (task : TaskId) {assistant : EntryDraft}
    (hhead : assistant.head = none) (hedits : assistant.edits = []) {continuation : Option Json}
    (hcontinuation : ∀ content, continuation = some content → content.Storable) (hnow : Exact now):
    Ensures (fun t => t = s) (answer settings c task assistant continuation now) (fun _ _ => True)
      fun _ => False := by
  apply ensures_getAt
  apply ensures_boundaryOk hacct h (h.hosted c live hlive)
  intro boundary hbound _
  apply Ensures.ofStates
  intro t ht
  have happ := ensures_appendEntryOk ht.ready ht.stored hedits fun id heq => by
    rw [hhead] at heq
    cases heq
  have hplacing : Ensures (fun u => u = t) (appendEntry c assistant)
      (fun _ => Placing c (s.run c) boundary.items) fun _ => False := by
    refine happ.mono (fun _ hu => hu) ?_ fun _ hu => hu
    rintro record u ⟨rfl, rfl, happly⟩
    exact ht.appended happly
  refine hplacing.bind fun entry => ?_
  refine (ensures_applyBoundaryOk settings hbound .final hnow).bind fun applied => ?_
  apply ensures_assume
  intro _
  cases continuation with
  | none => exact ensures_endAndStartOk settings task (ends_done _) _
  | some content =>
    cases applied.users.isEmpty && !applied.reset with
    | false => exact ensures_endAndStartOk settings task (ends_done _) _
    | true =>
      obtain ⟨draft, -, hdraft, hdraftHead, hdraftEdits, -⟩ :=
        inputEntryDraft_ok none (hcontinuation content rfl) hnow
      apply ensures_checkOk hdraft
      apply Ensures.ofStates
      intro u hu
      have hcontinue := ensures_appendEntryOk hu.ready hu.stored hdraftEdits fun id heq => by
        rw [hdraftHead] at heq
        cases heq
      refine hcontinue.bind fun record => ?_
      refine (ensures_handOverOk settings live).mono ?_ (fun _ _ hv => hv) fun _ hv => hv
      rintro v ⟨-, rfl, -⟩
      exact hu.sameRun.trans hlive

/-! ## Admission behind waiting items -/

theorem ensures_createSubmissionOk (hstored : Stored s c) (draft : SubmissionDraft) (status : String)
    (entry : Option EntryId) (reason : Option Bytes) :
    Ensures (fun t => t = s) (createSubmission c draft status entry reason) (fun id t => id = s.storage.nextId ∧
        t = s.minted.withSubmission id (newSubmission id c draft status entry reason)) fun _ => False := by
  obtain ⟨conversation, hconv⟩ := hstored
  apply ensures_getAt
  apply ensures_checkOk (present_eq_ok.2 hconv)
  refine (ensures_mintIdAt s).bind fun id => ?_
  apply ensures_assume
  rintro rfl
  refine (ensures_modify (G := fun _ t => t = s.minted.withSubmission s.storage.nextId
    (newSubmission s.storage.nextId c draft status entry reason)) ?_).bind fun _ => ?_
  · rintro t rfl
    rfl
  · exact ensures_pure fun t ht => ⟨rfl, ht⟩

variable {draft : SubmissionDraft}

theorem placing_enqueue (hacct : Accountable s) (h : Ready s) (hstored : Stored s c)
    (hbody : Placeable s.storage c draft.body) :
    Placing c (s.run c) (s.inbox c ++ [queuedItem s.storage.nextId draft.body])
      (s.minted.withSubmission s.storage.nextId (newSubmission s.storage.nextId c draft "queued" none none)) := by
  have hstart := placing_start hacct h hstored
  have hold := hacct.itemsMinted c
  refine ⟨(h.atStart.minted.withSubmission _ known_queued).ready, hstored, rfl, ?_, ?_, ?_, ?_⟩
  · -- The inputs of the run are old submissions.
    intro live hlive id hid
    obtain ⟨record, hrec, hstat⟩ := hacct.runs c live hlive id hid
    have hne : id ≠ s.storage.nextId := ne_of_lt (hacct.agree.minted id record hrec).2
    exact ⟨record, ((OrdMap.find_insert _ _ _ _).trans (if_neg hne)).trans hrec, hstat⟩
  · intro item hitem
    rcases List.mem_append.1 hitem with hitem | hitem
    · obtain ⟨record, hrec, hstat⟩ := hstart.waiting item hitem
      have hne : item.id ≠ s.storage.nextId := ne_of_lt (hold item hitem)
      exact ⟨record, ((OrdMap.find_insert _ _ _ _).trans (if_neg hne)).trans hrec, hstat⟩
    · rw [List.mem_singleton.1 hitem, queuedItem_id]
      exact ⟨_, OrdMap.find_insert_self _ _ _, rfl⟩
  · rw [List.map_append, List.map_singleton, queuedItem_id, List.nodup_append]
    refine ⟨hstart.distinct, List.nodup_singleton _, ?_⟩
    intro id hid other hother
    obtain ⟨item, hitem, rfl⟩ := List.mem_map.1 hid
    rw [List.mem_singleton.1 hother]
    exact ne_of_lt (hold item hitem)
  · have hsame : Extends s.storage (s.minted.withSubmission s.storage.nextId
        (newSubmission s.storage.nextId c draft "queued" none none)).storage := .of_eq rfl rfl
    exact goodItem_append (fun item hitem => (h.items c item hitem).mono hsame) (goodItem_queued (hbody.mono hsame) _)

theorem ensures_admitBehindOk (hacct : Accountable s)
    (h : Ready s) (hstored : Stored s c) (hbound : boundary.conversationId = c) (hitems : boundary.items = s.inbox c)
    (hbody : Placeable s.storage c draft.body) (hnow : Exact now):
    Ensures (fun t => t = s) (admitBehind settings boundary draft now) (fun _ _ => True) fun _ => False := by
  subst hbound
  refine (ensures_createSubmissionOk hstored draft "queued" none none).bind fun id => ?_
  apply ensures_assume
  rintro rfl
  have hplacing := placing_enqueue hacct h hstored hbody
  rw [← hitems] at hplacing
  refine Ensures.bind ((ensures_applyBoundaryOk settings rfl .final hnow).mono
    (fun t ht => ht ▸ hplacing) (fun _ _ ht => ht) fun _ ht => ht) fun applied => ?_
  split
  · exact ensures_pure fun _ _ => trivial
  · exact (ensures_startRunOk settings _).bind fun _ => ensures_pure fun _ _ => trivial

theorem ensures_admitDisplayOnlyOk (h : Ready s) (hstored : Stored s c) (draft : SubmissionDraft)
    {entry : WriteEntry} (hhead : entry.head = none) (hedits : entry.edits = []) :
    Ensures (fun t => t = s) (admitDisplayOnly c draft entry) (fun _ _ => True) fun _ => False := by
  have hnoEdits : (writeEntryDraft entry).edits = [] := hedits
  have hnoHead : (writeEntryDraft entry).head = none := hhead
  have happ := ensures_appendEntryOk h hstored hnoEdits fun id heq => by
    rw [hnoHead] at heq
    cases heq
  refine happ.bind fun appended => ?_
  apply ensures_assume
  rintro rfl
  apply Ensures.ofStates
  rintro t ⟨rfl, -⟩
  have hkept : Stored (s.appended ((writeEntryDraft entry).record s.storage.nextId c)) c := hstored
  exact (ensures_createSubmissionOk hkept draft "done" _ none).mono (fun _ ht => ht)
    (fun _ _ _ => trivial) fun _ ht => ht

theorem settlesAtOnce_ok (h : Ready s) (body : SubmissionBody) : ∃ atOnce, settlesAtOnce s c body = .ok atOnce ∧
      ∀ entry, atOnce = some entry → entry.head = none ∧ entry.edits = [] := by
  cases body with
  | input content whenBusy entry => exact ⟨none, rfl, fun _ heq => by cases heq⟩
  | write entry =>
    simp only [settlesAtOnce]
    split
    · next hdisplay =>
      obtain ⟨reset, hreset⟩ := hasQueuedReset_ok (h.items c)
      rw [hreset]
      refine ⟨if reset then none else some entry, rfl, ?_⟩
      rintro other heq
      split at heq
      · cases heq
      cases heq
      simp only [isDisplayOnly, Bool.and_eq_true, Option.isNone_iff_eq_none, List.isEmpty_iff] at hdisplay
      exact ⟨hdisplay.1.2, hdisplay.2⟩
    · exact ⟨none, rfl, fun _ heq => by cases heq⟩

theorem ensures_admitSubmissionOk (hacct : Accountable s)
    (h : Ready s) (hstored : Stored s c) (hkind : checkInputKind draft.body = .ok ()) {known : Option SubmissionId}
    (hknown : admittedBefore s c draft = .ok known) (hidle : s.run c = none)
    (hwaiting : s.inbox c ≠ []) (hbody : Placeable s.storage c draft.body) (hnow : Exact now):
    Ensures (fun t => t = s) (admitSubmission settings c draft now) (fun _ _ => True) fun _ => False := by
  have ⟨conversation, hconv⟩ := hstored
  apply ensures_checkOk hkind
  apply ensures_getAt
  apply ensures_checkOk hknown
  cases known with
  | some id => exact ensures_pure fun _ _ => trivial
  | none =>
    apply ensures_checkOk (present_eq_ok.2 hconv)
    obtain ⟨atOnce, hatOnce, hdisplay⟩ := settlesAtOnce_ok (c := c) h draft.body
    apply ensures_checkOk hatOnce
    cases atOnce with
    | some entry =>
      obtain ⟨hhead, hedits⟩ := hdisplay entry rfl
      exact ensures_admitDisplayOnlyOk h hstored draft hhead hedits
    | none =>
      apply ensures_getAt
      rw [hidle]
      refine (ensures_prepareBoundaryOk h hstored (s.inbox c)).bind fun boundary => ?_
      apply ensures_assume
      rintro ⟨hbound, hitems⟩
      rw [hitems, List.isEmpty_eq_false_iff.2 hwaiting]
      exact ensures_admitBehindOk settings hacct h hstored hbound hitems hbody hnow

/-! ## Every run -/

/-- A boundary commit: the end of a tool round or the answer of the live run of a conversation, whose
assistant entry selects no head and edits nothing, or an admission to an idle conversation where others
wait that passes its own checks. -/
def BoundaryStep (s : Workflow) : Step → Prop
  | .toolRound c task now => Exact now ∧ ∃ live, s.run c = some live ∧ live.task = task
  | .answer c task assistant continuation now =>
    Exact now ∧ (∃ live, s.run c = some live ∧ live.task = task) ∧ assistant.head = none ∧
      assistant.edits = [] ∧ ∀ content, continuation = some content → content.Storable
  | .submit c draft now =>
    Exact now ∧ s.run c = none ∧ s.inbox c ≠ [] ∧ Stored s c ∧
      checkInputKind draft.body = .ok () ∧ ∃ known, admittedBefore s c draft = .ok known
  | _ => False

/-- The boundary commit after a run ends with a result. -/
def BoundarySucceeds (settings : WorkflowSettings) (steps : List Step) (step : Step) : Prop :=
  BoundaryStep (runSteps settings initial steps) step →
    ∃ t, callback settings step (runSteps settings initial steps) = .ok () t

theorem exists_of_ensures {x : WorkflowAction Unit} {Q : Unit → Workflow → Prop}
    (h : Ensures (fun t => t = s) x Q fun _ => False) : ∃ t, x s = .ok () t := by
  have hend := h s rfl
  cases hx : x s with
  | ok a t => exact ⟨t, rfl⟩
  | error e t =>
    rw [hx] at hend
    cases hend

theorem runPlaceable_append {settings : WorkflowSettings} {steps : List Step} {step : Step}
    (h : RunPlaceable settings s (steps ++ [step])) :
    RunPlaceable settings s steps ∧ StepPlaceable (runSteps settings s steps) step := by
  induction steps generalizing s with
  | nil => exact ⟨trivial, h.1⟩
  | cons first rest ih =>
    obtain ⟨hfirst, hrest⟩ := h
    obtain ⟨hprev, hlast⟩ := ih hrest
    exact ⟨⟨hfirst, hprev⟩, hlast⟩

/-- In a run whose queued submissions are placeable no boundary fails. -/
theorem boundary_succeeds (steps : List Step) (step : Step)
    (hrun : RunPlaceable settings initial (steps ++ [step])) : BoundarySucceeds settings steps step := by
  intro hboundary
  obtain ⟨hbefore, hstep⟩ := runPlaceable_append hrun
  have haccountable := (runSteps_accountable settings steps initial_accountable).1
  have hready := runSteps_ready settings initial_accountable initial_ready hbefore
  generalize runSteps settings initial steps = s at hboundary haccountable hready hstep ⊢
  cases step with
  | toolRound c task now =>
    obtain ⟨hnow, live, hlive, -⟩ := hboundary
    exact exists_of_ensures (ensures_finishToolRoundOk settings haccountable hready hlive task hnow)
  | answer c task assistant continuation now =>
    obtain ⟨hnow, ⟨live, hlive, -⟩, hhead, hedits, hcontinuation⟩ := hboundary
    exact exists_of_ensures (ensures_answerOk settings haccountable hready hlive task hhead hedits hcontinuation hnow)
  | submit c draft now =>
    obtain ⟨hnow, hidle, hwaiting, hstored, hkind, known, hknown⟩ := hboundary
    have hbody : Placeable s.storage c draft.body := by
      rcases hstep with ⟨-, hempty⟩ | hbody
      · exact absurd hempty hwaiting
      · exact hbody
    have hsubmit := ensures_admitSubmissionOk settings haccountable hready hstored hkind hknown
      hidle hwaiting hbody hnow
    exact exists_of_ensures (hsubmit.bind fun _ => ensures_pure (Q := fun _ _ => True) fun _ _ => trivial)
  | endUnanswered c task assistant reason detail | abortSubmission id c | abortConversation c
  | append c draft | createConversation parent owner => cases hboundary

/-! ### A steering input -/

/-- An input that steers the running generation. -/
def steering (content : Json) : SubmissionDraft := ⟨none, .input content (some .steer) none⟩

def textBlock (text : String) : Json :=
  .object (field "type" (.string "text") ++ field "text" (.string (ofString text)))

/-- One text is placed at the end of the tool round. -/
theorem steeringText_succeeds : BoundaryStep (runSteps plainSettings initial
      [firstInput, .submit 1 (steering (.string "stop")) 0]) (.toolRound 1 4 0) ∧
      ∃ t, callback plainSettings (.toolRound 1 4 0) (runSteps plainSettings initial
        [firstInput, .submit 1 (steering (.string "stop")) 0]) = .ok () t := by
  have hboundary : BoundaryStep (runSteps plainSettings initial
      [firstInput, .submit 1 (steering (.string "stop")) 0]) (.toolRound 1 4 0) :=
    ⟨by decide, ⟨4, [3]⟩, by decide +kernel, rfl⟩
  have hplaceable : RunPlaceable plainSettings initial
      ([firstInput, .submit 1 (steering (.string "stop")) 0] ++ [.toolRound 1 4 0]) :=
    ⟨.inl ⟨rfl, rfl⟩, .inr ⟨trivial, trivial, trivial⟩, trivial, trivial⟩
  exact ⟨hboundary, boundary_succeeds _ _ _ hplaceable hboundary⟩

def succeeded {ε σ α : Type} : EStateM.Result ε σ α → Bool
  | .ok _ _ => true
  | .error _ _ => false

/-- Two blocks are accepted, and the end of the tool round fails on them. -/
theorem twoBlocks_fail : admitsNew plainSettings (runSteps plainSettings initial [firstInput]) 1
        (steering (.array [textBlock "one", textBlock "two"])) 0 = some 5 ∧ ¬ BoundarySucceeds plainSettings
        [firstInput, .submit 1 (steering (.array [textBlock "one", textBlock "two"])) 0] (.toolRound 1 4 0) := by
  refine ⟨by decide +kernel, fun h => ?_⟩
  obtain ⟨t, ht⟩ := h ⟨by decide, ⟨4, [3]⟩, by decide +kernel, rfl⟩
  have hfail : succeeded (callback plainSettings (.toolRound 1 4 0) (runSteps plainSettings initial
      [firstInput, .submit 1 (steering (.array [textBlock "one", textBlock "two"])) 0])) = false := by
    decide +kernel
  rw [ht] at hfail
  cases hfail

end Workflow

end CodingHarness.Durable
