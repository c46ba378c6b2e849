import CodingHarness.Durable.Inbox

/-!
# Properties that every commit keeps

The callbacks of the Harness are made of a few changes: an identity is minted, an entry appended, a
submission created, placed or settled, an inbox or a run marker replaced. `Closed` collects what these
changes have to keep of a property, with the items that may wait, the conversations that may carry a run
and the submissions that may be settled as aborted as parameters; each composite action then keeps the
property too.
-/

namespace CodingHarness.Durable

open Library Support
open List (mem_cons_of_mem mem_cons_self)

namespace Workflow

/-- An action keeps a property, as long as it does not fail. -/
def Keeps {α : Type} (T : Workflow → Prop) (x : WorkflowAction α) : Prop := Ensures T x (fun _ => T) fun _ => True

section Rules

variable {α β : Type} {T : Workflow → Prop}

theorem keeps_pure (a : α) : Keeps T (pure a) := ensures_pure fun _ hs => hs

variable {f : α → WorkflowAction β}

theorem Keeps.bind {x : WorkflowAction α} (hx : Keeps T x)
    (hf : ∀ a, Keeps T (f a)) : Keeps T (x >>= f) := Ensures.bind hx hf

theorem keeps_check {x : Expected α} (h : ∀ a, x = .ok a → Keeps T (f a)) : Keeps T (check x >>= f) := by
  refine (Workflow.ensures_check fun _ _ => trivial).bind fun a => ?_
  exact ensures_assume fun hx => h a hx

theorem keeps_get {f : Workflow → WorkflowAction α} (h : ∀ s, T s → Keeps T (f s)) : Keeps T (get >>= f) := by
  refine ensures_read fun s hs => ?_
  exact (h s hs).mono (fun t ht => ht ▸ hs) (fun _ _ ht => ht) fun _ ht => ht

theorem keeps_prepareBoundary (c : ConversationId) (items : List InboxItem) {f : Boundary → WorkflowAction α}
    (h : ∀ boundary, boundary.conversationId = c → boundary.items = items → Keeps T (f boundary)) :
    Keeps T (prepareBoundary c items >>= f) := by
  refine (ensures_prepareBoundary c items fun _ _ => trivial).bind fun boundary => ?_
  exact ensures_assume fun hbound => h boundary hbound.1 hbound.2

end Rules

/-- The statuses that a workflow gives. -/
def Known (status : Bytes) : Prop :=
  status = queued ∨ status = ofString "placed" ∨ status = ofString "done" ∨ status = ofString "unanswered"

theorem known_queued : Known (ofString "queued") := .inl rfl
theorem known_placed : Known (ofString "placed") := .inr (.inl rfl)
theorem known_done : Known (ofString "done") := .inr (.inr (.inl rfl))
theorem known_unanswered : Known (ofString "unanswered") := .inr (.inr (.inr rfl))

def Aborts (settlement : SubmissionSettlement) : Prop :=
  settlement.status = "unanswered" ∧ settlement.reason = some (ofString "aborted")

theorem not_aborts_stale : ¬ Aborts staleSettlement := fun h => absurd h.2 (by decide)

theorem not_aborts_reset : ¬ Aborts (unanswered (ofString "reset") none) := fun h => absurd h.2 (by decide)

theorem not_aborts_done (entry : Option EntryId) : ¬ Aborts ⟨"done", entry, none, none⟩ :=
  fun h => absurd (show ofString "done" = ofString "unanswered" from h.1) (by decide)

/-- The drafts that a boundary makes of an item. -/
inductive DraftOf (item : InboxItem) : EntryDraft → Prop where
  | write {json : Json} {entry : WriteEntry} (hmode : item.mode = .write)
      (hjson : item.entry = some json) (hentry : writeEntryFromJson json = .ok entry) :
      DraftOf item (writeEntryDraft entry)
  | user {content : Json} {entry : Option InputEntry} {draft : EntryDraft} {now : Int}
      (hmode : item.mode ≠ .write) (hcontent : item.content = some content)
      (hentry : optionally item.entry inputEntryFromJson = .ok entry)
      (hdraft : inputEntryDraft content entry now = .ok draft) : DraftOf item draft

/-- What the changes of a callback keep: only items that `waits` wait in an inbox, only conversations
of which `hosts` holds get a run, and only submissions that are `allowed` are settled as aborted. -/
structure Closed (T : Workflow → Prop) (waits : ConversationId → InboxItem → Prop)
    (hosts : ConversationId → Prop) (allowed : SubmissionId → Prop) : Prop where
  minted : ∀ {s}, T s → T s.minted
  insertTask : ∀ {s} task record, T s → T { s with storage.tasks := s.storage.tasks.insert task record }
  appended : ∀ {s record}, T s → record.id = s.storage.nextId →
    StorageState.applyEntry s.storage.nextSeq s.minted.storage (some record) =
      .ok (s.appended record).storage → T (s.appended record)
  created : ∀ {s} c draft status entry reason, T s → Known (ofString status) →
    reason ≠ some (ofString "aborted") → T (s.minted.withSubmission s.storage.nextId
      (newSubmission s.storage.nextId c draft status entry reason))
  settled : ∀ {s id settlement current next}, T s → Ends settlement → (Aborts settlement → allowed id) →
    s.storage.submissions.find id = some current →
    applySubmissionChange current (.settle id settlement) = .ok next → T (s.withSubmission id next)
  placed : ∀ {s t c item draft current next}, T s → t = s.appended (draft.record s.storage.nextId c) →
    T t → waits c item → DraftOf item draft → t.storage.submissions.find item.id = some current →
    applySubmissionChange current (.place item.id s.storage.nextId) = .ok next →
    T (t.withSubmission item.id next)
  inbox : ∀ {s c items}, T s → (∀ item ∈ items, waits c item) →
    T { s with inbox := Function.update s.inbox c items }
  push : ∀ {s c item}, T s → waits c item → T { s with inbox := Function.update s.inbox c (s.inbox c ++ [item]) }
  run : ∀ {s c run}, T s → run = none ∨ hosts c → T { s with run := Function.update s.run c run }

/-- A submission that is created to wait has an item that may wait. -/
def Enqueues (T : Workflow → Prop) (waits : ConversationId → InboxItem → Prop) (c : ConversationId)
    (draft : SubmissionDraft) : Prop :=
  ∀ {α : Type} (f : SubmissionId → WorkflowAction α), (∀ id, waits c (queuedItem id draft.body) → Keeps T (f id)) →
    Keeps T (createSubmission c draft "queued" none none >>= f)

/-- A commit that prepares a boundary over the items that wait keeps the property from there on. -/
def Opens (start T : Workflow → Prop) (waits : ConversationId → InboxItem → Prop) (c : ConversationId) : Prop :=
  ∀ {α : Type} (f : Boundary → WorkflowAction α), (∀ boundary, boundary.conversationId = c →
      (∀ item ∈ boundary.items, waits c item) → Keeps T (f boundary)) →
    Ensures start (do
      let s ← get
      let boundary ← prepareBoundary c (s.inbox c)
      f boundary) (fun _ => T) fun _ => True

namespace Closed

variable {α : Type} {T start : Workflow → Prop} {waits : ConversationId → InboxItem → Prop}
  {hosts : ConversationId → Prop} {allowed : SubmissionId → Prop} {c : ConversationId}
  {settlement : SubmissionSettlement} {boundary : Boundary}

theorem opens (waits : ConversationId → InboxItem → Prop)
    (hwaiting : ∀ s, T s → ∀ item ∈ s.inbox c, waits c item) : Opens T T waits c := by
  intro α f hf
  apply keeps_get
  intro s hs
  refine keeps_prepareBoundary c _ fun boundary hconv hitems => ?_
  exact hf boundary hconv (hitems ▸ hwaiting s hs)

variable (h : Closed T waits hosts allowed) (settings : WorkflowSettings)

include h

theorem mintId : Keeps T mintId := by
  apply Ensures.ofStates
  intro s hs
  apply (ensures_mintIdAt s).mono (fun _ ht => ht) _ fun _ ht => ht
  rintro _ t ⟨-, rfl⟩
  exact h.minted hs

theorem appendEntry (c : ConversationId) (draft : EntryDraft) : Keeps T (appendEntry c draft) := by
  apply Ensures.ofStates
  intro s hs
  apply (ensures_appendEntryAt s c draft).mono (fun _ ht => ht) _ fun _ _ => trivial
  rintro record t ⟨rfl, happly, rfl⟩
  exact h.appended hs rfl happly

theorem create (c : ConversationId) (draft : SubmissionDraft) {status : String}
    (entry : Option EntryId) (reason : Option Bytes) (hknown : Known (ofString status))
    (hreason : reason ≠ some (ofString "aborted")) : Keeps T (createSubmission c draft status entry reason) := by
  apply Ensures.ofStates
  intro s hs
  apply (ensures_createSubmissionAt s c draft status entry reason).mono (fun _ ht => ht) _ fun _ _ => trivial
  rintro id t ⟨rfl, rfl⟩
  exact h.created c draft status entry reason hs hknown hreason

theorem settle (id : SubmissionId) (hends : Ends settlement) (hallowed : Aborts settlement → allowed id) :
    Keeps T (changeSubmission (.settle id settlement)) := by
  apply Ensures.ofStates
  intro s hs
  apply (ensures_changeSubmissionAt s _).mono (fun _ ht => ht) _ fun _ _ => trivial
  rintro _ t ⟨current, next, hcur, hnext, rfl⟩
  exact h.settled hs hends hallowed hcur hnext

theorem place {item : InboxItem} {draft : EntryDraft} {f : EntryRecord → WorkflowAction α}
    (hitem : waits c item) (hdraft : DraftOf item draft) (hf : ∀ appended, Keeps T (f appended)) : Keeps T (do
      let appended ← Workflow.appendEntry c draft
      changeSubmission (.place item.id appended.id)
      f appended) := by
  apply Ensures.ofStates
  intro s hs
  refine Ensures.bind ((ensures_appendEntryAt s c draft).mono (fun _ ht => ht) (fun _ _ ht => ht)
    fun _ _ => trivial) fun appended => ?_
  apply ensures_assume
  rintro rfl
  apply ensures_assume
  intro happly
  refine Ensures.bind ?_ fun _ => hf _
  apply (ensures_changeSubmissionAt _ _).mono (fun _ ht => ht) _ fun _ _ => trivial
  rintro _ t ⟨current, next, hcur, hnext, rfl⟩
  exact h.placed hs rfl (h.appended hs rfl happly) hitem hdraft hcur hnext

theorem setInbox (c : ConversationId) (items : List InboxItem) (hitems : ∀ item ∈ items, waits c item) :
    Keeps T (setInbox c items) := ensures_modify fun _ hs => h.inbox hs hitems

theorem setRun (c : ConversationId) (run : Option LiveRun) (hrun : run = none ∨ hosts c) :
    Keeps T (setRun c run) := ensures_modify fun _ hs => h.run hs hrun

variable {draft : SubmissionDraft}

theorem enqueues (hwaits : ∀ id, waits c (queuedItem id draft.body)) : Enqueues T waits c draft :=
  fun _ hf => (h.create c draft none none known_queued nofun).bind fun id => hf id (hwaits id)

/-! ### Runs -/

theorem startRun (hhost : hosts c) (inputs : List SubmissionId) : Keeps T (startRun settings c inputs) := by
  refine h.mintId.bind fun task => Keeps.bind ?_ fun _ => h.setRun c _ (.inr hhost)
  exact ensures_modify fun s hs => h.insertTask task _ hs

theorem joinRunInputs (hhost : hosts c) (task : TaskId) (users : List SubmissionId) :
    Keeps T (joinRunInputs c task users) := by
  apply keeps_get
  intro s _
  split
  · exact keeps_pure _
  split
  · exact h.setRun c _ (.inr hhost)
  · exact keeps_pure _

theorem handOver (hhost : hosts c) : Keeps T (handOver settings c) :=
  keeps_get fun _ _ => keeps_check fun _ _ => h.startRun settings hhost _

theorem settleInputs (hends : Ends settlement) (inputs : List SubmissionId) (hallowed : ∀ id ∈ inputs, Aborts settlement → allowed id) :
    Keeps T (settleInputs settlement inputs) := by
  induction inputs with
  | nil => exact keeps_pure _
  | cons input rest ih =>
    refine (h.settle input hends (hallowed input mem_cons_self)).bind fun _ => ?_
    exact ih fun id hid => hallowed id (mem_cons_of_mem _ hid)

theorem endRun (task : TaskId) (hends : Ends settlement) (hallowed : ∀ id, Aborts settlement → allowed id) :
    Keeps T (endRun c task settlement) := by
  apply keeps_get
  intro s _
  split
  · exact keeps_pure _
  split
  · refine (h.settleInputs hends _ fun id _ => hallowed id).bind fun _ => ?_
    exact h.setRun c none (.inl rfl)
  · exact keeps_pure _

theorem endAndStart (hhost : hosts c) (task : TaskId) (hends : Ends settlement)
    (hallowed : ∀ id, Aborts settlement → allowed id) (users : List SubmissionId) : Keeps T (do
      Workflow.endRun c task settlement
      if users.isEmpty then return () else Workflow.startRun settings c users) := by
  refine (h.endRun task hends hallowed).bind fun _ => ?_
  split
  · exact keeps_pure _
  · exact h.startRun settings hhost users

theorem endUnanswered (task : TaskId) (assistant : Option EntryDraft) {reason : Bytes}
    {detail : Option Json} (hallowed : ∀ id, Aborts (unanswered reason detail) → allowed id) :
    Keeps T (endUnanswered c task assistant reason detail) := by
  cases assistant with
  | none => exact h.endRun task (ends_unanswered ..) hallowed
  | some draft => exact (h.appendEntry c draft).bind fun _ => h.endRun task (ends_unanswered ..) hallowed

/-! ### Boundaries -/

theorem placeWrites (items : List InboxItem) (head : Option EntryId)
    (hmode : ∀ item ∈ items, item.mode = .write) (hitems : ∀ item ∈ items, waits c item) :
    Keeps T (placeWrites c head items) := by
  induction items generalizing head with
  | nil => exact keeps_pure _
  | cons item rest ih =>
    refine Keeps.bind ?_ fun next => ih next (fun other hother =>
      hmode other (mem_cons_of_mem _ hother)) fun other hother =>
      hitems other (mem_cons_of_mem _ hother)
    refine keeps_check fun json hjson => keeps_check fun draft hdraft => ?_
    split
    · exact (h.settle item.id ends_stale fun hstale => absurd hstale not_aborts_stale).bind fun _ =>
        keeps_pure _
    · exact h.place (hitems item mem_cons_self)
        (.write (hmode item mem_cons_self) (present_eq_ok.1 hjson) hdraft) fun _ => keeps_pure _

theorem placeUsers (now : Int) (items : List InboxItem) (result : BoundaryResult)
    (hmode : ∀ item ∈ items, item.mode ≠ .write) (hitems : ∀ item ∈ items, waits c item) :
    Keeps T (placeUsers c now result items) := by
  induction items generalizing result with
  | nil => exact keeps_pure _
  | cons item rest ih =>
    refine Keeps.bind ?_ fun next => ih next (fun other hother =>
      hmode other (mem_cons_of_mem _ hother)) fun other hother =>
      hitems other (mem_cons_of_mem _ hother)
    refine keeps_check fun content hcont => keeps_check fun entry hentry =>
      keeps_check fun draft hdraft => ?_
    exact h.place (hitems item mem_cons_self) (.user (hmode item mem_cons_self) (present_eq_ok.1 hcont) hentry hdraft)
      fun _ => keeps_pure _

theorem applyBoundary (point : BoundaryPoint) (now : Int)
    (hitems : ∀ item ∈ boundary.items, waits boundary.conversationId item) :
    Keeps T (applyBoundary settings boundary point now) := by
  have hat : ∀ {indexes : List Nat}, ∀ item ∈ itemsAt boundary.items indexes, waits boundary.conversationId item := by
    intro indexes item hitem
    obtain ⟨index, hmem, -⟩ := mem_itemsAt hitem
    exact hitems item (mem_of_mem_zipIdx hmem)
  refine keeps_check fun reset _ => (h.placeWrites _ boundary.head ?_ hat).bind fun _ => ?_
  · intro item hitem
    obtain ⟨index, hmem, hindex⟩ := mem_itemsAt hitem
    exact mem_zipIdx_mode hmem hindex
  refine (h.placeUsers now _ {} ?_ hat).bind fun result => ?_
  · intro item hitem
    obtain ⟨index, hmem, hindex⟩ := mem_itemsAt hitem
    exact pickUsers_mode hmem hindex
  · refine (h.setInbox _ _ fun item hitem => ?_).bind fun _ => keeps_pure _
    exact hitems item (mem_itemsWithout hitem)

theorem finishToolRound (hopens : Opens start T waits c) (hhost : hosts c) (task : TaskId) (now : Int) :
    Ensures start (finishToolRound settings c task now) (fun _ => T) fun _ => True := by
  refine hopens _ fun boundary hconv hitems => ?_
  subst hconv
  refine (h.applyBoundary settings .postTools now hitems).bind fun applied => keeps_check fun _ _ => ?_
  split
  · exact h.endAndStart settings hhost task (ends_unanswered ..) (fun _ hreset => absurd hreset not_aborts_reset) _
  · exact (h.joinRunInputs hhost task _).bind fun _ => h.handOver settings hhost

theorem answer (hopens : Opens start T waits c) (hhost : hosts c) (task : TaskId)
    (assistant : EntryDraft) (continuation : Option Json) (now : Int) :
    Ensures start (answer settings c task assistant continuation now) (fun _ => T) fun _ => True := by
  refine hopens _ fun boundary hconv hitems => ?_
  subst hconv
  refine (h.appendEntry _ assistant).bind fun entry => ?_
  refine (h.applyBoundary settings .final now hitems).bind fun applied => ?_
  have hdone : ∀ id, Aborts ⟨"done", some entry.id, none, none⟩ → allowed id :=
    fun _ hdone => absurd hdone (not_aborts_done _)
  cases continuation with
  | none => exact h.endAndStart settings hhost task (ends_done _) hdone _
  | some content =>
    cases applied.users.isEmpty && !applied.reset with
    | false => exact h.endAndStart settings hhost task (ends_done _) hdone _
    | true =>
      refine keeps_check fun draft _ => (h.appendEntry _ draft).bind fun _ => ?_
      exact h.handOver settings hhost

/-! ### Admission and withdrawal -/

theorem admitDisplayOnly (draft : SubmissionDraft) (entry : WriteEntry) : Keeps T (admitDisplayOnly c draft entry) :=
  (h.appendEntry c _).bind fun _ => h.create c draft _ none known_done nofun

theorem admitBusy (henqueues : Enqueues T waits c draft) : Keeps T (admitBusy c draft) := by
  refine keeps_check fun _ _ => henqueues _ fun id hid => ?_
  apply Ensures.ofStates
  intro s hs
  rintro t rfl
  exact h.push hs hid

theorem admitBehind (henqueues : Enqueues T waits boundary.conversationId draft)
    (hhost : hosts boundary.conversationId) (now : Int)
    (hitems : ∀ item ∈ boundary.items, waits boundary.conversationId item) :
    Keeps T (admitBehind settings boundary draft now) := by
  refine henqueues _ fun id hid => ?_
  refine (h.applyBoundary settings .final now fun item hitem => ?_).bind fun applied => ?_
  · rcases List.mem_append.1 hitem with hitem | hitem
    · exact hitems item hitem
    · exact List.mem_singleton.1 hitem ▸ hid
  split
  · exact keeps_pure _
  · exact (h.startRun settings hhost _).bind fun _ => keeps_pure _

theorem admitIdle (hhost : hosts boundary.conversationId) (draft : SubmissionDraft) (now : Int) :
    Keeps T (admitIdle settings boundary draft now) := by
  unfold Workflow.admitIdle
  split
  · split
    · exact h.create _ draft none _ known_unanswered (by decide)
    · exact (h.appendEntry _ _).bind fun _ => h.create _ draft _ none known_done nofun
  refine keeps_check fun entry _ => (h.appendEntry _ entry).bind fun _ => ?_
  refine (h.create _ draft _ none known_placed nofun).bind fun id => ?_
  exact (h.startRun settings hhost [id]).bind fun _ => keeps_pure _

theorem admitSubmission (hwaiting : ∀ s, T s → ∀ item ∈ s.inbox c, waits c item) (hhost : hosts c)
    (henqueues : Enqueues T waits c draft) (now : Int) : Keeps T (admitSubmission settings c draft now) := by
  refine keeps_check fun _ _ => keeps_get fun s _ => keeps_check fun before _ => ?_
  cases before with
  | some id => exact keeps_pure _
  | none =>
    refine keeps_check fun _ _ => keeps_check fun entry _ => ?_
    cases entry with
    | some entry => exact h.admitDisplayOnly draft entry
    | none =>
      apply keeps_get
      intro s hs
      split
      · exact h.admitBusy henqueues
      refine keeps_prepareBoundary c _ fun boundary hconv hitems => ?_
      subst hconv
      split
      · exact h.admitIdle settings hhost draft now
      · exact h.admitBehind settings henqueues hhost now (hitems ▸ hwaiting s hs)

theorem withdrawItems (items : List InboxItem) (hallowed : ∀ item ∈ items, allowed item.id) :
    Keeps T (withdrawItems items) := by
  induction items with
  | nil => exact keeps_pure _
  | cons item rest ih =>
    refine (ih fun other hother => hallowed other (mem_cons_of_mem _ hother)).bind fun _ => ?_
    split
    · exact keeps_pure _
    · exact h.settle item.id (ends_unanswered ..) fun _ => hallowed item mem_cons_self

end Closed

end Workflow

end CodingHarness.Durable
