import CodingHarness.Durable.Boundaries

/-!
# The items of a boundary

A boundary takes every write, all steers or the first one and, at the final point or with a reset in the queue, all
follow-ups or the first one; the other items stay in their order. The writes are placed before the users, both in the
order of the queue. A write is settled as stale exactly when its head is older than the newest one that is known when
it is reached, the heads of the writes placed before it included.
-/

namespace CodingHarness.Durable

open Library Support Chord

namespace Workflow

/-! ## Which items a boundary takes -/

def resets (item : InboxItem) : Bool := item.mode = .write && ((item.entry.bind Json.asObject).bind fun draft =>
    (jsonMember draft "head").bind Json.asString) == some (ofString "self")

theorem hasQueuedReset_iff {items : List InboxItem} {reset : Bool} (h : hasQueuedReset items = .ok reset) :
    reset = true ↔ ∃ item ∈ items, resets item = true := by
  induction items with
  | nil =>
    cases h
    simp
  | cons item rest ih =>
    rw [hasQueuedReset] at h
    split at h
    · next hmode =>
      simp only [bind_eq_ok, present_eq_ok] at h
      obtain ⟨entry, hentry, draft, hdraft, h⟩ := h
      have hresets : resets item = ((jsonMember draft "head").bind Json.asString == some (ofString "self")) := by
        simp [resets, hentry, hdraft, hmode]
      split at h
      · next hself =>
        cases h
        simp [hresets, hself]
      · next hself => simp [hresets, hself, ih h]
    · next hmode => simp [resets, hmode, ih h]

theorem itemsAt_writes (items : List InboxItem) :
    itemsAt items (pick items .write .all) = items.filter fun item => item.mode = .write := by
  have hzip : (items.zipIdx.filter fun item => (pick items .write .all).contains item.2) =
      items.zipIdx.filter fun item => decide (item.1.mode = .write) := by
    refine List.filter_congr fun item hitem => ?_
    rw [contains_pick hitem]
    simp
  have hmap := List.filter_map (f := Prod.fst) (p := fun item : InboxItem => decide (item.mode = .write)) (l := items.zipIdx)
  rw [List.zipIdx_map_fst] at hmap
  rw [itemsAt, hzip, hmap]
  rfl

/-! ## What happens to the items -/

/-- What a boundary does with an item: the settlement as stale, or the entry that it is placed at. -/
inductive Placement where
  | settled (id : SubmissionId)
  | placed (id : SubmissionId) (record : EntryRecord)

def Placement.entry : Placement → Option EntryId
  | .settled _ => none
  | .placed _ record => some record.id

/-- The newest head that is known after a placement. -/
def Placement.known (head : Option EntryId) : Placement → Option EntryId
  | .settled _ => head
  | .placed _ record => record.head.or head

/-- The tables before and after a placement. -/
inductive Happens (c : ConversationId) : Workflow → Placement → Workflow → Prop where
  | settled {s : Workflow} {id : SubmissionId} {current next : SubmissionRecord}
      (stored : s.storage.submissions.find id = some current)
      (change : applySubmissionChange current (.settle id staleSettlement) = .ok next) :
      Happens c s (.settled id) (s.withSubmission id next)
  | placed {s : Workflow} {id : SubmissionId} {record : EntryRecord} {current next : SubmissionRecord}
      (fresh : record.id = s.storage.nextId) (own : record.conversationId = c)
      (stored : s.storage.submissions.find id = some current)
      (change : applySubmissionChange current (.place id record.id) = .ok next) :
      Happens c s (.placed id record) ((s.appended record).withSubmission id next)

/-- The placements happen one after the other. -/
inductive HappenAll (c : ConversationId) : Workflow → List Placement → Workflow → Prop where
  | nil (s : Workflow) : HappenAll c s [] s
  | cons {s u t : Workflow} {placement : Placement} {rest : List Placement} (first : Happens c s placement u)
      (later : HappenAll c u rest t) : HappenAll c s (placement :: rest) t

variable {c : ConversationId} {now : Int}

theorem HappenAll.append {s u t : Workflow} {before after : List Placement} (h : HappenAll c s before u)
    (h' : HappenAll c u after t) : HappenAll c s (before ++ after) t := by
  induction h with
  | nil => exact h'
  | cons first _ ih => exact .cons first (ih h')

theorem HappenAll.entryIds {s t : Workflow} {placements : List Placement} (h : HappenAll c s placements t) :
    t.storage.entryIds c = s.storage.entryIds c ++ placements.filterMap Placement.entry ∧ t.inbox = s.inbox := by
  induction h with
  | nil => simp
  | cons first _ ih =>
    cases first with
    | settled => exact ih
    | placed fresh own =>
      refine ⟨ih.1.trans ?_, ih.2⟩
      subst own
      simp [Placement.entry, withSubmission, appended, StorageState.entryIds]

/-- What a write becomes when a head is the newest one known. -/
def WriteHandled (c : ConversationId) (head : Option EntryId) (item : InboxItem) (placement : Placement) : Prop :=
  ∃ json draft, item.entry = some json ∧ writeEntryFromJson json = .ok draft ∧
    if isStale head draft then placement = .settled item.id
    else ∃ id, placement = .placed item.id ((writeEntryDraft draft).record id c)

/-- The placement of a user input. -/
def UserHandled (c : ConversationId) (now : Int) (item : InboxItem) (placement : Placement) : Prop :=
  ∃ content entry draft id, item.content = some content ∧ optionally item.entry inputEntryFromJson = .ok entry ∧
    inputEntryDraft content entry now = .ok draft ∧ placement = .placed item.id (draft.record id c)

/-- Each write is handled with the newest head that is known when it is reached. -/
def WritesHandled (c : ConversationId) (head : Option EntryId) (items : List InboxItem)
    (placements : List Placement) : Prop :=
  placements.length = items.length ∧ ∀ before placement after, placements = before ++ placement :: after →
    ∃ item, items[before.length]? = some item ∧ WriteHandled c (before.foldl Placement.known head) item placement

theorem WritesHandled.cons {head : Option EntryId} {item : InboxItem} {items : List InboxItem}
    {placement : Placement} {placements : List Placement} (hfirst : WriteHandled c head item placement)
    (h : WritesHandled c (placement.known head) items placements) :
    WritesHandled c head (item :: items) (placement :: placements) := by
  refine ⟨congrArg Nat.succ h.1, ?_⟩
  intro before other after heq
  cases before with
  | nil =>
    obtain ⟨rfl, -⟩ := List.cons.inj heq
    exact ⟨item, rfl, hfirst⟩
  | cons first before =>
    obtain ⟨rfl, hrest⟩ := List.cons.inj heq
    exact h.2 before other after hrest

/-- The end of both loops: the entry is appended and the submission placed at it. -/
theorem ensures_placedAt {α : Type} (s : Workflow) (draft : EntryDraft) (id : SubmissionId)
    {f : EntryRecord → WorkflowAction α} {Q : α → Workflow → Prop}
    (hf : ∀ t, Happens c s (.placed id (draft.record s.storage.nextId c)) t →
      Ensures (fun u => u = t) (f (draft.record s.storage.nextId c)) Q fun _ => True) : Ensures (fun u => u = s) (do
        let appended ← appendEntry c draft
        changeSubmission (.place id appended.id)
        f appended)
      Q fun _ => True := by
  refine ((ensures_appendEntryAt s c draft).mono (fun _ ht => ht) (fun _ _ ht => ht) fun _ _ => trivial).bind
    fun record => ?_
  apply ensures_assume
  rintro rfl
  apply ensures_assume
  rintro -
  refine ((ensures_changeSubmissionAt _ _).mono (fun _ ht => ht) (fun _ _ ht => ht) fun _ _ => trivial).bind
    fun _ => ?_
  rintro t ⟨current, next, hcur, hnext, rfl⟩
  exact hf _ (.placed rfl rfl hcur hnext) _ rfl

theorem ensures_placeWriteAt (head : Option EntryId) (item : InboxItem) (s : Workflow) :
    Ensures (fun u => u = s) (placeWrite c head item)
      (fun known t => ∃ placement, Happens c s placement t ∧ WriteHandled c head item placement ∧
        known = placement.known head) fun _ => True := by
  refine ensures_checkThen (fun _ _ => trivial) fun json hjson => ?_
  refine ensures_checkThen (fun _ _ => trivial) fun draft hdraft => ?_
  split
  · next hstale =>
    refine ((ensures_changeSubmissionAt s (.settle item.id staleSettlement)).mono (fun _ ht => ht)
      (fun _ _ ht => ht) fun _ _ => trivial).bind fun _ => ensures_pure ?_
    rintro t ⟨current, next, hcur, hnext, rfl⟩
    exact ⟨.settled item.id, .settled hcur hnext,
      ⟨json, draft, present_eq_ok.1 hjson, hdraft, by rw [if_pos hstale]⟩, rfl⟩
  next hfresh =>
  refine ensures_placedAt s _ _ fun t ht => ensures_pure ?_
  rintro u rfl
  exact ⟨_, ht, ⟨json, draft, present_eq_ok.1 hjson, hdraft, by rw [if_neg hfresh]; exact ⟨_, rfl⟩⟩, rfl⟩

theorem ensures_placeWritesAt (items : List InboxItem) (head : Option EntryId) (s : Workflow) :
    Ensures (fun u => u = s) (placeWrites c head items)
      (fun _ t => ∃ placements, HappenAll c s placements t ∧ WritesHandled c head items placements)
      fun _ => True := by
  induction items generalizing head s with
  | nil =>
    rintro t rfl
    exact ⟨[], .nil t, rfl, fun before _ _ heq => absurd heq (by simp)⟩
  | cons item rest ih =>
    refine (ensures_placeWriteAt head item s).bind fun known => ?_
    rintro u ⟨placement, hfirst, hhandled, rfl⟩
    refine (ih _ u).mono (fun _ ht => ht) ?_ (fun _ ht => ht) u rfl
    rintro - t ⟨placements, hlater, hrest⟩
    exact ⟨placement :: placements, .cons hfirst hlater, .cons hhandled hrest⟩

theorem ensures_placeUsersAt (items : List InboxItem) (result : BoundaryResult) (s : Workflow) :
    Ensures (fun u => u = s) (placeUsers c now result items)
      (fun _ t => ∃ placements, HappenAll c s placements t ∧ List.Forall₂ (UserHandled c now) items placements)
      fun _ => True := by
  induction items generalizing result s with
  | nil =>
    rintro t rfl
    exact ⟨[], .nil t, .nil⟩
  | cons item rest ih =>
    refine Ensures.bind (Q := fun _ t => ∃ placement, Happens c s placement t ∧ UserHandled c now item placement)
      ?_ fun next => ?_
    · refine ensures_checkThen (fun _ _ => trivial) fun content hcont => ?_
      refine ensures_checkThen (fun _ _ => trivial) fun entry hentry => ?_
      refine ensures_checkThen (fun _ _ => trivial) fun draft hdraft => ?_
      refine ensures_placedAt s _ _ fun t ht => ensures_pure ?_
      rintro u rfl
      exact ⟨_, ht, content, entry, draft, _, present_eq_ok.1 hcont, hentry, hdraft, rfl⟩
    rintro u ⟨placement, hfirst, hhandled⟩
    refine (ih next u).mono (fun _ ht => ht) ?_ (fun _ ht => ht) u rfl
    rintro - t ⟨placements, hlater, hrest⟩
    exact ⟨placement :: placements, .cons hfirst hlater, .cons hhandled hrest⟩

/-! ## The boundary -/

/-- What a boundary has done, with the placements of the writes and of the users. -/
structure BoundaryDone (settings : WorkflowSettings) (boundary : Boundary) (now : Int) (final : Bool)
    (writes users : List Placement) (s t : Workflow) : Prop where
  happened : ∃ u, HappenAll boundary.conversationId s (writes ++ users) u ∧ t = { u with
    inbox := Function.update s.inbox boundary.conversationId ((boundary.items.zipIdx.filter fun item =>
      item.1.mode ≠ .write && !takesUser settings boundary.items final item).map Prod.fst) }
  entries : t.storage.entryIds boundary.conversationId =
    s.storage.entryIds boundary.conversationId ++ (writes ++ users).filterMap Placement.entry
  writes : WritesHandled boundary.conversationId boundary.head
    (boundary.items.filter fun item => item.mode = .write) writes
  users : List.Forall₂ (UserHandled boundary.conversationId now)
    ((boundary.items.zipIdx.filter (takesUser settings boundary.items final)).map Prod.fst) users

/-- **A boundary takes and keeps exactly the right items**, and it succeeds when its items can be placed. -/
theorem applyBoundary_exact (settings : WorkflowSettings) (boundary : Boundary) (point : BoundaryPoint) (now : Int)
    (s : Workflow) : (∀ result t, applyBoundary settings boundary point now s = .ok result t →
      ∃ final writes users, (final = true ↔ point = .final ∨ ∃ item ∈ boundary.items, resets item = true) ∧
        BoundaryDone settings boundary now final writes users s t) ∧
      ∀ run, Exact now → Placing boundary.conversationId run boundary.items s →
        ∃ result t, applyBoundary settings boundary point now s = .ok result t := by
  constructor
  · suffices h : Ensures (fun u => u = s) (applyBoundary settings boundary point now) (fun _ t =>
        ∃ final writes users, (final = true ↔ point = .final ∨ ∃ item ∈ boundary.items, resets item = true) ∧
          BoundaryDone settings boundary now final writes users s t) fun _ => True by
      intro result t hrun
      have hend := h s rfl
      rwa [hrun] at hend
    refine ensures_checkThen (fun _ _ => trivial) fun reset hreset => ?_
    dsimp only
    generalize hfinal : (decide (point = .final) || reset) = final
    have hwhen : final = true ↔ point = .final ∨ ∃ item ∈ boundary.items, resets item = true := by
      rw [← hfinal, Bool.or_eq_true, decide_eq_true_iff, hasQueuedReset_iff hreset]
    have husers : itemsAt boundary.items (pickUsers settings boundary.items final) =
        (boundary.items.zipIdx.filter (takesUser settings boundary.items final)).map Prod.fst :=
      congrArg (List.map Prod.fst) (List.filter_congr fun item hitem => contains_pickUsers hitem)
    have hrest : itemsWithout boundary.items
        (pick boundary.items .write .all ++ pickUsers settings boundary.items final) =
        (boundary.items.zipIdx.filter fun item =>
          item.1.mode ≠ .write && !takesUser settings boundary.items final item).map Prod.fst := by
      refine congrArg (List.map Prod.fst) (List.filter_congr fun item hitem => ?_)
      rw [List.contains_append, contains_pick hitem, contains_pickUsers hitem]
      simp
    rw [itemsAt_writes, husers, hrest]
    refine (ensures_placeWritesAt _ boundary.head s).bind fun _ => ?_
    rintro u ⟨writes, hwrites, hhandled⟩
    refine ((ensures_placeUsersAt _ _ u).bind fun result => ?_) u rfl
    rintro v ⟨users, husers, huserHandled⟩
    have hall := hwrites.append husers
    obtain ⟨hentries, hinbox⟩ := hall.entryIds
    exact ⟨final, writes, users, hwhen, ⟨v, hall, by rw [← hinbox]⟩, hentries, hhandled, huserHandled⟩
  · intro run hnow hplacing
    have hend := ensures_applyBoundaryOk settings rfl point hnow s hplacing
    cases hrun : applyBoundary settings boundary point now s with
    | ok result t => exact ⟨result, t, rfl⟩
    | error e t =>
      rw [hrun] at hend
      exact hend.elim

/-- A write that selects a head. -/
def headed (head : EntryHead) : SubmissionDraft :=
  ⟨none, .write { kind := "note", model := some [.object []], head := some head }⟩

/-- A steer, a write that resets, a follow-up, a write behind the reset, and another steer. -/
def mixedRun : List Step := [firstInput, .submit 1 (steering (.string "stop")) 0, .submit 1 (headed .self) 0,
  .submit 1 ⟨none, .input (.string "then") none none⟩ 0, .submit 1 (headed (.entry 2)) 0,
  .submit 1 (steering (.string "wait")) 0]

def mixed : Workflow := runSteps plainSettings initial mixedRun

theorem mixed_placing : Placing 1 (mixed.run 1) (mixed.inbox 1) mixed := by
  have hplaceable : RunPlaceable plainSettings initial mixedRun := by
    refine ⟨.inl ⟨rfl, rfl⟩, .inr ⟨trivial, trivial, trivial⟩, .inr nofun, .inr ⟨trivial, trivial, trivial⟩, .inr ?_,
      .inr ⟨trivial, trivial, trivial⟩, trivial⟩
    rintro _ ⟨⟩
    exact ⟨by decide, by decide +kernel⟩
  exact placing_start (runSteps_accountable plainSettings mixedRun initial_accountable).1
    (runSteps_ready plainSettings initial_accountable initial_ready hplaceable) ⟨{ id := 1 }, by decide +kernel⟩

/-- The users that a boundary placed, the items it left, and why it settled submission 8. -/
def outcome : EStateM.Result Error Workflow BoundaryResult → List SubmissionId × List SubmissionId × Option Bytes
  | .ok result t =>
    (result.users, (t.inbox 1).map InboxItem.id, (t.storage.submissions.find 8).bind SubmissionRecord.reason)
  | .error _ _ => ([], [], none)

/-- The reset makes the second write stale and lets the follow-up through; the second steer stays. -/
theorem applyBoundary_exact_mixed : ∃ result t,
    applyBoundary plainSettings ⟨1, mixed.inbox 1, none⟩ .postTools 0 mixed = .ok result t ∧
      outcome (.ok result t) = ([5, 7], [9], some (ofString "stale")) ∧
      ∃ final writes users, (final = true ↔ BoundaryPoint.postTools = .final ∨
          ∃ item ∈ mixed.inbox 1, resets item = true) ∧
        BoundaryDone plainSettings ⟨1, mixed.inbox 1, none⟩ 0 final writes users mixed t := by
  obtain ⟨hdone, hplaced⟩ := applyBoundary_exact plainSettings ⟨1, mixed.inbox 1, none⟩ .postTools 0 mixed
  obtain ⟨result, t, hrun⟩ := hplaced _ (by decide) mixed_placing
  have houtcome : outcome (applyBoundary plainSettings ⟨1, mixed.inbox 1, none⟩ .postTools 0 mixed) =
      ([5, 7], [9], some (ofString "stale")) := by decide +kernel
  rw [hrun] at houtcome
  exact ⟨result, t, hrun, houtcome, hdone result t hrun⟩

end Workflow

end CodingHarness.Durable
