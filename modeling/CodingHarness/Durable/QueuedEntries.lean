import CodingHarness.Durable.KeptProperties

/-!
# What a queued submission is placed as

A draft that finds its conversation busy waits as a JSON item and becomes an entry at a boundary; the
same draft becomes an entry at once when its conversation is idle. Both entries come from one
`EntryDraft` when the item keeps the draft (`Plain`): `queued_entry_alike` follows one submission through
every run. `writeEntryJson` has no member for context edits, so a queued write loses them
(`queuedEdits_lost`).
-/

namespace CodingHarness.Durable

open Library Support

namespace Workflow

/-! ## The items -/

/-- A body that its item keeps: a write without edits whose pinned head a JSON number holds. -/
def Plain : SubmissionBody → Prop
  | .input .. => True
  | .write entry =>
    entry.edits = [] ∧ ∀ id, entry.head = some (.entry id) → asInteger (number id) = .ok id

variable {α : Type}

theorem optionally_map {value : Option α} {encode : α → Json} {read : Json → Expected α}
    (h : ∀ a, value = some a → read (encode a) = .ok a) : optionally (value.map encode) read = .ok value := by
  cases value with
  | none => rfl
  | some a =>
    rw [Option.map_some, optionally, h a rfl]
    rfl

theorem inputEntryFromJson_inputEntryJson (entry : InputEntry) :
    inputEntryFromJson (inputEntryJson entry) = .ok entry := by
  simp [inputEntryFromJson, inputEntryJson, Json.asObject, Json.asString]

theorem headFromJson_headJson {head : EntryHead} (h : ∀ id, head = .entry id → asInteger (number id) = .ok id) :
    headFromJson (headJson head) = .ok head := by
  cases head with
  | self => simp [headFromJson, headJson, Json.asString]
  | entry id =>
    have hnum := h id rfl
    simp only [headFromJson, headJson, number, Json.asString] at hnum ⊢
    rw [hnum]
    rfl

theorem writeEntryFromJson_writeEntryJson {entry : WriteEntry} (h : Plain (.write entry)) :
    writeEntryFromJson (writeEntryJson entry) = .ok entry := by
  obtain ⟨hedits, hhead⟩ := h
  have hmodel : optionally (entry.model.map Json.array) (fun model =>
      present model.asArray "A write entry model must be an array") = .ok entry.model :=
    optionally_map fun items _ => rfl
  have hread : optionally (entry.head.map headJson) headFromJson = .ok entry.head :=
    optionally_map fun head heq => headFromJson_headJson fun id hid => hhead id (by rw [heq, hid])
  have hnone : optionally none (fun edits => do
      let items ← present edits.asArray "A write entry edits must be an array"
      items.mapM editFromJson) = .ok none := rfl
  simp [writeEntryFromJson, writeEntryJson, Json.asObject, Json.asString, hmodel, hread, hnone, ← hedits]

/-- The entry that a draft becomes when it does not wait. -/
def immediate (body : SubmissionBody) (now : Int) : Expected EntryDraft := match body with
  | .input content _ entry => inputEntryDraft content entry now
  | .write entry => .ok (writeEntryDraft entry)

/-! ## One submission through a run -/

/-- An entry that is stored and was appended as one of the given drafts. -/
def WrittenAs (s : Workflow) (drafts : EntryDraft → Prop) (entry : EntryId) : Prop :=
  entry < s.storage.nextId ∧ ∃ draft c seq, drafts draft ∧
    s.storage.entries.find entry = some ⟨draft.record entry c, seq⟩

/-- The entry that the body gives at some time. -/
def Drafts (body : SubmissionBody) (draft : EntryDraft) : Prop := ∃ now, immediate body now = .ok draft

/-- A submission of the body: its item is the one that was queued, and its entry is one of the body. -/
structure Tracked (id : SubmissionId) (body : SubmissionBody) (s : Workflow) : Prop where
  minted : id < s.storage.nextId
  items : ∀ c, ∀ item ∈ s.inbox c, item.id = id → item = queuedItem id body
  record : ∃ record, s.storage.submissions.find id = some record ∧
    ∀ entry, record.entry = some entry → WrittenAs s (Drafts body) entry

variable {id : SubmissionId} {body : SubmissionBody} {s : Workflow} {drafts : EntryDraft → Prop}

theorem WrittenAs.grow {t : Workflow} {entry : EntryId} (h : WrittenAs s drafts entry)
    (hnextId : s.storage.nextId ≤ t.storage.nextId)
    (hents : ∀ e, e < s.storage.nextId → t.storage.entries.find e = s.storage.entries.find e) :
    WrittenAs t drafts entry := by
  obtain ⟨hlt, draft, c, seq, hdraft, hfind⟩ := h
  exact ⟨hlt.trans_le hnextId, draft, c, seq, hdraft, (hents entry hlt).trans hfind⟩

theorem Tracked.grow {t : Workflow} (h : Tracked id body s) (hnextId : s.storage.nextId ≤ t.storage.nextId)
    (hents : ∀ e, e < s.storage.nextId → t.storage.entries.find e = s.storage.entries.find e)
    (hsubmission : t.storage.submissions.find id = s.storage.submissions.find id)
    (hinbox : t.inbox = s.inbox) : Tracked id body t where
  minted := h.minted.trans_le hnextId
  items := hinbox ▸ h.items
  record := by
    obtain ⟨record, hfind, hentry⟩ := h.record
    refine ⟨record, hsubmission.trans hfind, ?_⟩
    intro entry heq
    exact (hentry entry heq).grow hnextId hents

theorem Tracked.minted' (h : Tracked id body s) : Tracked id body s.minted :=
  h.grow (Int.le_add_one (le_refl _)) (fun _ _ => rfl) rfl rfl

variable {record : EntryRecord}

theorem find_appended (hid : record.id = s.storage.nextId) {e : EntryId} (he : e < s.storage.nextId) :
    (s.appended record).storage.entries.find e = s.storage.entries.find e := by
  refine (OrdMap.find_insert _ _ _ _).trans (if_neg ?_)
  rw [hid]
  exact ne_of_lt he

theorem Tracked.appended (h : Tracked id body s)
    (hid : record.id = s.storage.nextId) : Tracked id body (s.appended record) :=
  h.grow (Int.le_add_one (le_refl _)) (fun _ he => find_appended hid he) rfl rfl

theorem Tracked.created (h : Tracked id body s) (record : SubmissionRecord) :
    Tracked id body (s.minted.withSubmission s.storage.nextId record) := by
  refine Tracked.grow h.minted' (le_refl _) (fun _ _ => rfl) ?_ rfl
  exact (OrdMap.find_insert _ _ _ _).trans (if_neg (ne_of_lt h.minted))

variable {current next : SubmissionRecord}

/-- The entry after a change is the one before, unless the change places. -/
theorem applySubmissionChange_entry {change : SubmissionChange}
    (h : applySubmissionChange current change = .ok next) {entry : EntryId} (hentry : next.entry = some entry) :
    current.entry = some entry ∨ change = .place change.id entry := by
  cases changed h with
  | ended => exact .inl hentry
  | placed =>
    cases hentry
    exact .inr rfl
  | settled => exact .inl hentry

/-- A change keeps the track when the entry it places at is one of the body. -/
theorem Tracked.change (h : Tracked id body s) (change : SubmissionChange)
    (hfind : s.storage.submissions.find change.id = some current)
    (hchange : applySubmissionChange current change = .ok next)
    (hplace : ∀ entry, change = .place id entry → WrittenAs s (Drafts body) entry) :
    Tracked id body (s.withSubmission change.id next) where
  minted := h.minted
  items := h.items
  record := by
    by_cases heq : change.id = id
    · refine ⟨next, by rw [← heq]; exact OrdMap.find_insert_self _ _ _, ?_⟩
      intro entry hentry
      rcases applySubmissionChange_entry hchange hentry with hprev | hprev
      · obtain ⟨record, hrec, hwrote⟩ := h.record
        rw [heq, hrec] at hfind
        cases hfind
        exact hwrote entry hprev
      · rw [heq] at hprev
        exact hplace entry hprev
    · obtain ⟨record, hrec, hwrote⟩ := h.record
      exact ⟨record, ((OrdMap.find_insert _ _ _ _).trans (if_neg (Ne.symm heq))).trans hrec, hwrote⟩

theorem writtenAs_appended (s : Workflow) {draft : EntryDraft} (hdraft : drafts draft) (c : ConversationId) :
    WrittenAs (s.appended (draft.record s.storage.nextId c)) drafts s.storage.nextId :=
  ⟨Int.lt_add_one_of_le (le_refl _), draft, c, s.storage.nextSeq, hdraft, OrdMap.find_insert_self _ _ _⟩

theorem Tracked.setInbox (hs : Tracked id body s) (c : ConversationId) {items : List InboxItem}
    (hitems : ∀ item ∈ items, item.id = id → item = queuedItem id body) :
    Tracked id body { s with inbox := Function.update s.inbox c items } := by
  refine { hs with items := ?_ }
  intro d item hitem hid
  change item ∈ Function.update s.inbox c items d at hitem
  by_cases hd : d = c
  · subst hd
    rw [Function.update_self] at hitem
    exact hitems item hitem hid
  · rw [Function.update_of_ne hd] at hitem
    exact hs.items d item hitem hid

/-! ### Placement -/

variable {item : InboxItem}

theorem placeWrite_draft (hplain : Plain body)
    (hitem : item.id = id → item = queuedItem id body) {json : Json} {draft : WriteEntry}
    (hmode : item.mode = .write) (hjson : item.entry = some json)
    (hdraft : writeEntryFromJson json = .ok draft) (hid : item.id = id) : Drafts body (writeEntryDraft draft) := by
  rw [hitem hid] at hjson hmode
  cases body with
  | input content whenBusy entry =>
    simp only [queuedItem] at hmode
    split at hmode <;> cases hmode
  | write entry =>
    cases hjson
    rw [writeEntryFromJson_writeEntryJson hplain] at hdraft
    cases hdraft
    exact ⟨0, rfl⟩

variable {now : Int}

theorem placeUser_draft (hitem : item.id = id → item = queuedItem id body)
    {content : Json} {entry : Option InputEntry} {draft : EntryDraft}
    (hmode : item.mode ≠ .write) (hcont : item.content = some content)
    (hentry : optionally item.entry inputEntryFromJson = .ok entry)
    (hdraft : inputEntryDraft content entry now = .ok draft) (hid : item.id = id) : Drafts body draft := by
  rw [hitem hid] at hcont hentry hmode
  cases body with
  | input sent whenBusy sentEntry =>
    cases hcont
    have hread : optionally (sentEntry.map inputEntryJson) inputEntryFromJson = .ok sentEntry :=
      optionally_map fun e _ => inputEntryFromJson_inputEntryJson e
    simp only [queuedItem] at hentry
    rw [hread] at hentry
    cases hentry
    exact ⟨now, hdraft⟩
  | write entry => exact absurd rfl hmode

/-- An item of the submission is the one that was queued. -/
def QueuedAs (id : SubmissionId) (body : SubmissionBody) (_ : ConversationId) (item : InboxItem) : Prop :=
  item.id = id → item = queuedItem id body

/-- The creation of another submission that waits: its item is not the one that is tracked. -/
theorem enqueues_tracked (c : ConversationId) (draft : SubmissionDraft) :
    Enqueues (Tracked id body) (QueuedAs id body) c draft := by
  intro α f hf
  apply Ensures.ofStates
  intro s hs
  refine Ensures.bind ((ensures_createSubmissionAt s c draft "queued" none none).mono
    (fun _ ht => ht) (fun _ _ ht => ht) fun _ _ => trivial) fun new => ?_
  apply ensures_assume
  rintro rfl
  refine Ensures.mono (hf s.storage.nextId fun hid => ?_) ?_ (fun _ _ ht => ht) fun _ ht => ht
  · rw [queuedItem_id] at hid
    exact absurd hid (ne_of_gt hs.minted)
  · rintro t rfl
    exact hs.created _

theorem closed_tracked (hplain : Plain body) :
    Closed (Tracked id body) (QueuedAs id body) (fun _ => True) fun _ => True where
  minted := Tracked.minted'
  insertTask _ _ hs := hs.grow (le_refl _) (fun _ _ => rfl) rfl rfl
  appended hs hid _ := hs.appended hid
  created _ _ _ _ _ hs _ _ := hs.created _
  settled hs _ _ hfind hchange := hs.change (.settle _ _) hfind hchange fun entry heq => by cases heq
  placed hs ht htracked hitem hdraft hfind hchange := by
    refine htracked.change (.place _ _) hfind hchange fun entry heq => ?_
    cases heq
    subst ht
    refine writtenAs_appended _ ?_ _
    cases hdraft with
    | write hmode hjson hentry => exact placeWrite_draft hplain hitem hmode hjson hentry rfl
    | user hmode hcont hentry hdraft => exact placeUser_draft hitem hmode hcont hentry hdraft rfl
  inbox hs hitems := hs.setInbox _ hitems
  push hs hitem := hs.setInbox _ fun other hother => by
    rcases List.mem_append.1 hother with hother | hother
    · exact hs.items _ other hother
    · exact List.mem_singleton.1 hother ▸ hitem
  run hs _ := ⟨hs.minted, hs.items, hs.record⟩

theorem keeps_abortSubmission (hplain : Plain body) (target : SubmissionId) (c : Option ConversationId) :
    Keeps (Tracked id body) (abortSubmission target c) := by
  apply keeps_get
  intro s hs
  cases s.storage.submissions.find target with
  | none => exact keeps_pure _
  | some record =>
    dsimp only
    split
    · exact keeps_pure _
    split
    · refine ((closed_tracked hplain).settle target (ends_unanswered ..) fun _ => trivial).bind
        fun _ => (closed_tracked hplain).setInbox _ _ ?_
      exact fun item hitem => hs.items _ item (List.mem_of_mem_eraseP hitem)
    · exact keeps_pure _

theorem keeps_withdrawQueuedInputs (hplain : Plain body) (c : ConversationId) :
    Keeps (Tracked id body) (withdrawQueuedInputs c) := by
  apply keeps_get
  intro s hs
  refine ((closed_tracked hplain).withdrawItems _ fun _ _ => trivial).bind fun _ =>
    (closed_tracked hplain).setInbox c _ fun item hitem => ?_
  exact hs.items c item (List.mem_filter.1 hitem).1

theorem keeps_createConversation (parent : Option Parent) (owner : Option ConversationOwner) :
    Keeps (Tracked id body) (createConversation parent owner) := by
  apply Ensures.ofStates
  intro s hs
  refine (ensures_mintIdAt s).bind fun new => ?_
  apply ensures_assume
  rintro rfl
  apply ensures_getAt
  refine ensures_checkThen (fun _ _ => trivial) fun storage hstor => ?_
  obtain ⟨record, -, -, -, rfl⟩ := StorageState.applyConversation_eq_ok.1 hstor
  apply ensures_modify
  rintro t rfl
  have hgrown : s.minted.storage.nextId ≤ max s.minted.storage.nextId (record.id + 1) := le_max_left _ _
  exact Tracked.grow hs.minted' hgrown (fun _ _ => rfl) rfl rfl

theorem keeps_callback (hplain : Plain body) (settings : WorkflowSettings) (step : Step) :
    Keeps (Tracked id body) (callback settings step) := by
  have hclosed := @closed_tracked id _ hplain
  have hopens : ∀ c, Opens (Tracked id body) _ (QueuedAs id body) c := fun c => Closed.opens _ fun _ hs => hs.items c
  cases step with
  | submit c draft now =>
    exact (hclosed.admitSubmission settings (fun _ hs => hs.items c) trivial
      (enqueues_tracked c draft) now).bind fun _ => keeps_pure _
  | toolRound c task now => exact hclosed.finishToolRound settings (hopens c) trivial task now
  | answer c task assistant continuation now =>
    exact hclosed.answer settings (hopens c) trivial task assistant continuation now
  | endUnanswered c task assistant reason detail =>
    exact hclosed.endUnanswered task assistant fun _ _ => trivial
  | abortSubmission target c => exact keeps_abortSubmission hplain target c
  | abortConversation c => exact keeps_withdrawQueuedInputs hplain c
  | append c draft => exact (hclosed.appendEntry c draft).bind fun _ => keeps_pure _
  | createConversation parent owner => exact keeps_createConversation parent owner

/-! ### The admission itself -/

/-- Every waiting item has a minted identity. -/
def ItemsMinted (s : Workflow) : Prop := ∀ c, ∀ item ∈ s.inbox c, item.id < s.storage.nextId

theorem Accountable.itemsMinted (h : Accountable s) : ItemsMinted s := by
  intro c item hitem
  obtain ⟨record, hrec, -⟩ := h.agree.waiting c item hitem
  exact (h.agree.minted _ record hrec).2

theorem tracked_new (hminted : ItemsMinted s) {record : SubmissionRecord}
    (hentry : ∀ entry, record.entry = some entry → WrittenAs s (Drafts body) entry) :
    Tracked s.storage.nextId body (s.minted.withSubmission s.storage.nextId record) where
  minted := Int.lt_add_one_of_le (le_refl _)
  items c item hitem hid := absurd hid (ne_of_lt (hminted c item hitem))
  record := by
    refine ⟨record, OrdMap.find_insert_self _ _ _, fun entry heq => ?_⟩
    exact (hentry entry heq).grow (Int.le_add_one (le_refl _)) fun _ _ => rfl

/-- The entry of a submission in the table. -/
def EntryOf (s : Workflow) (id : SubmissionId) (drafts : EntryDraft → Prop) : Prop :=
  ∃ record, s.storage.submissions.find id = some record ∧
    ∀ entry, record.entry = some entry → WrittenAs s drafts entry

theorem ensures_appendAndCreate (s : Workflow) (hminted : ItemsMinted s) (c : ConversationId)
    (draft : SubmissionDraft) (status : String) {entry : EntryDraft} (hentry : immediate draft.body now = .ok entry) :
    Ensures (fun t => t = s) (do
        let appended ← appendEntry c entry
        createSubmission c draft status (some appended.id) none)
      (fun id t => Tracked id draft.body t ∧ EntryOf t id fun other => immediate draft.body now = .ok other)
      fun _ => True := by
  refine Ensures.bind ((ensures_appendEntryAt s c entry).mono (fun _ ht => ht) (fun _ _ ht => ht)
    fun _ _ => trivial) fun appended => ?_
  apply ensures_assume
  rintro rfl
  apply ensures_assume
  intro _
  apply (ensures_createSubmissionAt _ c draft status _ none).mono (fun _ ht => ht)
  · rintro id t ⟨rfl, rfl⟩
    have hitems : ItemsMinted (s.appended (entry.record s.storage.nextId c)) := fun d item hitem =>
      (hminted d item hitem).trans_le (Int.le_add_one (le_refl _))
    constructor
    · apply tracked_new hitems
      rintro e heq
      cases heq
      exact writtenAs_appended s ⟨now, hentry⟩ c
    refine ⟨_, OrdMap.find_insert_self _ _ _, ?_⟩
    rintro e heq
    cases heq
    exact WrittenAs.grow (writtenAs_appended s hentry c) (Int.le_add_one (le_refl _)) fun _ _ => rfl
  · exact fun _ _ => trivial

variable (settings : WorkflowSettings)

theorem EntryOf.startRun (c : ConversationId) (inputs : List SubmissionId) :
    Keeps (fun s => EntryOf s id drafts) (startRun settings c inputs) := by
  apply Ensures.ofStates
  rintro s ⟨record, hfind, hentry⟩
  refine (ensures_mintIdAt s).bind fun task => ?_
  apply ensures_assume
  rintro rfl
  refine Ensures.bind (ensures_modify (G := fun _ t => EntryOf t id drafts) ?_) fun _ => ?_
  · rintro t rfl
    exact ⟨record, hfind, fun entry heq => (hentry entry heq).grow (Int.le_add_one (le_refl _)) fun _ _ => rfl⟩
  apply ensures_modify
  rintro t ⟨found, hfound, hwrote⟩
  exact ⟨found, hfound, fun entry heq => (hwrote entry heq).grow (le_refl _) fun _ _ => rfl⟩

variable {c : ConversationId}

theorem admittedBefore_lt (h : Accountable s) {draft : SubmissionDraft} {known : SubmissionId}
    (hknown : admittedBefore s c draft = .ok (some known)) : known < s.storage.nextId := by
  unfold admittedBefore at hknown
  cases hreq : draft.requestId with
  | none =>
    rw [hreq] at hknown
    cases hknown
  | some requestId =>
    rw [hreq] at hknown
    simp only [bind_eq_ok, StorageState.submissionByRequest, StorageState.reading] at hknown
    obtain ⟨existing, hexisting, hknown⟩ := hknown
    split at hexisting
    · cases hexisting
    cases existing with
    | none => cases hknown
    | some record =>
      simp only [bind_eq_ok, pure_eq_ok, Option.some.injEq] at hknown
      obtain ⟨-, -, rfl⟩ := hknown
      have hmem := List.mem_of_getLast? (Except.ok.inj hexisting)
      have hvalues := (List.mem_filter.1 hmem).1
      obtain ⟨pair, hpair, rfl⟩ := List.mem_map.1 hvalues
      have hfind := (OrdMap.find_eq_some_iff s.storage.submissions pair.1 pair.2).2 hpair
      obtain ⟨hid, hlt⟩ := h.agree.minted _ _ hfind
      rw [hid]
      exact hlt

/-- What the admission of a new submission leaves to follow. -/
def Admits (s : Workflow) (c : ConversationId) (draft : SubmissionDraft) (now : Int)
    (id : SubmissionId) (t : Workflow) : Prop :=
  Tracked id draft.body t ∧ (s.run c = none → s.inbox c = [] →
    EntryOf t id fun other => immediate draft.body now = .ok other)

theorem ensures_admitIdle_new (hminted : ItemsMinted s)
    (boundary : Boundary) {draft : SubmissionDraft} (hplain : Plain draft.body) (now : Int) :
    Ensures (fun t => t = s) (admitIdle settings boundary draft now)
      (fun id t => Tracked id draft.body t ∧ EntryOf t id fun other => immediate draft.body now = .ok other)
      fun _ => True := by
  unfold admitIdle
  cases hbody : draft.body with
  | write entry =>
    dsimp only
    split
    · apply (ensures_createSubmissionAt s _ draft _ none _).mono (fun _ ht => ht)
      · rintro id t ⟨rfl, rfl⟩
        constructor
        · exact tracked_new hminted fun e heq => by cases heq
        · exact ⟨_, OrdMap.find_insert_self _ _ _, fun e heq => by cases heq⟩
      · exact fun _ _ => trivial
    have hentry : immediate draft.body now = .ok (writeEntryDraft entry) := by
      rw [hbody]
      rfl
    rw [← hbody]
    exact ensures_appendAndCreate s hminted boundary.conversationId draft "done" hentry
  | input content whenBusy entry =>
    refine ensures_checkThen (fun _ _ => trivial) fun draftEntry hentry => ?_
    rw [← hbody]
    have hbodyEntry : immediate draft.body now = .ok draftEntry := by
      rw [hbody]
      exact hentry
    have hcreate := ensures_appendAndCreate s hminted boundary.conversationId draft "placed" hbodyEntry
    rw [← bind_assoc]
    refine hcreate.bind fun id => ?_
    refine Ensures.bind (Q := fun _ t => Tracked id draft.body t ∧
      EntryOf t id fun other => immediate draft.body now = .ok other) ?_ fun _ => ?_
    · apply Ensures.ofStates
      rintro t ⟨htracked, hentryOf⟩
      have hstart : Keeps (Tracked id draft.body) (startRun settings boundary.conversationId [id]) :=
        (closed_tracked hplain).startRun settings trivial [id]
      have hfirst := hstart t htracked
      have hsnd := EntryOf.startRun settings boundary.conversationId [id] t hentryOf
      rintro u rfl
      cases hrun : startRun settings boundary.conversationId [id] u with
      | ok result v =>
        rw [hrun] at hfirst hsnd
        exact ⟨hfirst, hsnd⟩
      | error e v => trivial
    · exact ensures_pure fun _ ht => ht

theorem ensures_admitDraft_new (hplain : Plain body) (settings : WorkflowSettings)
    (h : Accountable s) (c : ConversationId) {draft : SubmissionDraft} (hbody : draft.body = body) (now : Int) :
    Ensures (fun t => t = s) (admitDraft settings c draft now)
      (fun id t => Admits s c draft now id t) fun _ => True := by
  subst hbody
  have hminted := h.itemsMinted
  apply ensures_getAt
  unfold Admits
  cases hrun : s.run c with
  | some run =>
    -- The item joins the inbox, and no item of the same identity was there.
    refine ensures_checkThen (fun _ _ => trivial) fun _ _ => ?_
    refine Ensures.bind ((ensures_createSubmissionAt s c draft "queued" none none).mono
      (fun _ ht => ht) (fun _ _ ht => ht) fun _ _ => trivial) fun id => ?_
    apply ensures_assume
    rintro rfl
    apply ensures_getAt
    have htracked : Tracked s.storage.nextId draft.body (s.minted.withSubmission s.storage.nextId
        (newSubmission s.storage.nextId c draft "queued" none none)) :=
      tracked_new hminted fun e heq => by cases heq
    refine Ensures.bind (ensures_modify (G := fun _ t => Tracked s.storage.nextId draft.body t) ?_)
      fun _ => ensures_pure fun t ht => ⟨ht, fun hnone => by cases hnone⟩
    rintro t rfl
    exact (closed_tracked hplain).push htracked fun _ => rfl
  | none =>
    refine (ensures_prepareBoundary c (s.inbox c) fun _ _ => trivial).bind fun boundary => ?_
    apply ensures_assume
    rintro ⟨-, hitems⟩
    rw [hitems]
    split
    · exact (ensures_admitIdle_new settings hminted boundary hplain now).mono (fun _ ht => ht)
        (fun _ _ ht => ⟨ht.1, fun _ _ => ht.2⟩) fun _ ht => ht
    next hsome =>
    refine Ensures.bind ((ensures_createSubmissionAt s _ draft "queued" none none).mono
      (fun _ ht => ht) (fun _ _ ht => ht) fun _ _ => trivial) fun id => ?_
    apply ensures_assume
    rintro rfl
    have htracked : Tracked s.storage.nextId draft.body (s.minted.withSubmission
        s.storage.nextId (newSubmission s.storage.nextId boundary.conversationId draft "queued" none none)) :=
      tracked_new hminted fun e heq => by cases heq
    have hkeeps : Ensures (Tracked s.storage.nextId draft.body) (do
        let applied ← applyBoundary settings { boundary with
          items := boundary.items ++ [queuedItem s.storage.nextId draft.body] } .final now
        if applied.users.isEmpty then return s.storage.nextId
        else do
          startRun settings boundary.conversationId applied.users
          return s.storage.nextId) (fun id => Tracked id draft.body) fun _ => True := by
      have hclosed := @closed_tracked s.storage.nextId _ hplain
      refine Ensures.bind (hclosed.applyBoundary settings .final now ?_) fun applied => ?_
      · intro item hitem hid
        rcases List.mem_append.1 hitem with hitem | hitem
        · rw [hitems] at hitem
          exact absurd hid (ne_of_lt (hminted c item hitem))
        · exact List.mem_singleton.1 hitem
      split
      · exact ensures_pure fun _ ht => ht
      · exact Ensures.bind (hclosed.startRun settings trivial _) fun _ =>
          ensures_pure fun _ ht => ht
    refine hkeeps.mono (fun t ht => ht ▸ htracked) (fun _ _ ht => ⟨ht, ?_⟩) fun _ ht => ht
    intro _ hempty
    rw [hempty] at hsome
    exact absurd rfl hsome

theorem settlesAtOnce_eq_some {other : SubmissionBody}
    {entry : WriteEntry} (h : settlesAtOnce s c other = .ok (some entry)) : other = .write entry := by
  cases other with
  | input content whenBusy inputEntry => cases h
  | write written =>
    simp only [settlesAtOnce] at h
    split at h
    · simp only [bind_eq_ok, pure_eq_ok] at h
      obtain ⟨reset, -, h⟩ := h
      split at h
      · cases h
      · cases h
        rfl
    · cases h

theorem ensures_admitSubmission_new (h : Accountable s)
    (c : ConversationId) {draft : SubmissionDraft} (hplain : Plain draft.body) (now : Int) :
    Ensures (fun t => t = s) (admitSubmission settings c draft now)
      (fun id t => s.storage.nextId ≤ id → Admits s c draft now id t) fun _ => True := by
  refine ensures_checkThen (fun _ _ => trivial) fun _ _ => ?_
  apply ensures_getAt
  refine ensures_checkThen (fun _ _ => trivial) fun before hprev => ?_
  cases before with
  | some known =>
    -- The request is known: nothing new is admitted.
    apply ensures_pure
    intro _ _ hnew
    exact absurd (admittedBefore_lt h hprev) (not_lt.2 hnew)
  | none =>
    refine ensures_checkThen (fun _ _ => trivial) fun _ _ => ?_
    refine ensures_checkThen (fun _ _ => trivial) fun atOnce hatOnce => ?_
    cases atOnce with
    | none =>
      exact (ensures_admitDraft_new hplain settings h c rfl now).mono (fun _ ht => ht)
        (fun _ _ ht _ => ht) fun _ ht => ht
    | some entry =>
      have hentry : immediate draft.body now = .ok (writeEntryDraft entry) := by
        rw [settlesAtOnce_eq_some hatOnce]
        rfl
      exact (ensures_appendAndCreate s h.itemsMinted c draft "done" hentry).mono (fun _ ht => ht)
        (fun _ _ ht _ => ⟨ht.1, fun _ _ => ht.2⟩) fun _ ht => ht

/-! ### Whole runs -/

theorem commit_nextId (step : Step) (h : Accountable s) :
    s.storage.nextId ≤ (commit (callback settings step) s).storage.nextId := by
  have hend := ensures_callback settings step s h.progress
  unfold commit
  cases hrun : callback settings step s with
  | ok result t =>
    rw [hrun] at hend
    obtain ⟨after, hprogress⟩ := hend
    exact hprogress.grown
  | error error t =>
    rw [hrun] at hend
    exact hend

theorem commit_tracked (step : Step) (hplain : Plain body)
    (hminted : s.storage.nextId ≤ (commit (callback settings step) s).storage.nextId)
    (h : Tracked id body s) : Tracked id body (commit (callback settings step) s) := by
  have hend := keeps_callback hplain settings step s h
  unfold commit at hminted ⊢
  cases hrun : callback settings step s with
  | ok result t =>
    rw [hrun] at hend
    exact Tracked.grow hend (le_refl _) (fun _ _ => rfl) rfl rfl
  | error error t =>
    rw [hrun] at hminted
    exact h.grow hminted (fun _ _ => rfl) rfl rfl

theorem runSteps_tracked (hplain : Plain body) (steps : List Step)
    (hacct : Accountable s) (h : Tracked id body s) : Tracked id body (runSteps settings s steps) := by
  induction steps generalizing s with
  | nil => exact h
  | cons step rest ih =>
    have hminted := commit_nextId settings step hacct
    exact ih (commit_accountable settings step hacct).1 (commit_tracked settings step hplain hminted h)

/-! ## The two ways of a draft -/

/-- The identity of the submission that an admission creates. -/
def admitsNew (settings : WorkflowSettings) (s : Workflow) (c : ConversationId)
    (draft : SubmissionDraft) (now : Int) : Option SubmissionId :=
  match admitSubmission settings c draft now s with
  | .ok id _ => if s.storage.nextId ≤ id then some id else none
  | .error _ _ => none

variable {settings}

theorem admitsNew_admits (h : Accountable s) {draft : SubmissionDraft} {new : SubmissionId}
    (hplain : Plain draft.body) (hnew : admitsNew settings s c draft now = some new) :
    Admits s c draft now new (commit (callback settings (.submit c draft now)) s) := by
  have hadmits := ensures_admitSubmission_new settings h c hplain now s rfl
  unfold admitsNew at hnew
  cases hrun : admitSubmission settings c draft now s with
  | error error t =>
    rw [hrun] at hnew
    cases hnew
  | ok created t =>
    rw [hrun] at hnew hadmits
    dsimp only at hnew
    split at hnew
    · next hle =>
      cases hnew
      have hcommit : commit (callback settings (.submit c draft now)) s =
          { t with storage.nextSeq := t.storage.nextSeq + 1 } := by
        simp only [commit, callback]
        rw [show (admitSubmission settings c draft now >>= fun _ => pure ()) s =
          (.ok () t : EStateM.Result Error Workflow Unit) from by
            simp only [bind, EStateM.bind, hrun]; rfl]
      rw [hcommit]
      obtain ⟨htracked, hidle⟩ := hadmits hle
      refine ⟨htracked.grow (le_refl _) (fun _ _ => rfl) rfl rfl, fun hfree hempty => ?_⟩
      obtain ⟨record, hfind, hentry⟩ := hidle hfree hempty
      exact ⟨record, hfind, fun entry heq => (hentry entry heq).grow (le_refl _) fun _ _ => rfl⟩
    · cases hnew

/-- The head selections of two entries: none, the same entry, or each its own. -/
def SameHead (a b : EntryRecord) : Prop := a.head = b.head ∨ (a.head = some a.id ∧ b.head = some b.id)

/-- Two entries that say the same at their own places. -/
structure Alike (a b : EntryRecord) : Prop where
  kind : a.kind = b.kind
  data : a.data = b.data
  model : a.model = b.model
  head : SameHead a b
  edits : a.edits = b.edits

theorem EntryDraft.record_alike (draft : EntryDraft) (a b : EntryId) (c d : ConversationId) :
    Alike (draft.record a c) (draft.record b d) where
  kind := rfl
  data := rfl
  model := rfl
  head := by
    cases hhead : draft.head with
    | none => exact .inl (by simp [EntryDraft.record, hhead])
    | some head =>
      cases head with
      | self => exact .inr (by simp [EntryDraft.record, hhead])
      | entry existing => exact .inl (by simp [EntryDraft.record, hhead])
  edits := rfl

/-- An entry that a draft became in an idle conversation with an empty inbox. -/
def IdleEntry (settings : WorkflowSettings) (draft : SubmissionDraft) (now : Int) (idle : EntryRecord) : Prop :=
  ∃ steps d new record entry seq,
    (runSteps settings initial steps).run d = none ∧ (runSteps settings initial steps).inbox d = [] ∧
    admitsNew settings (runSteps settings initial steps) d draft now = some new ∧
    (runSteps settings initial (steps ++ [.submit d draft now])).storage.submissions.find new = some record ∧
    record.entry = some entry ∧
    (runSteps settings initial (steps ++ [.submit d draft now])).storage.entries.find entry = some ⟨idle, seq⟩

/-- Once the submission that a draft became has an entry, at any time later in the run, the entry is
stored and is alike every entry that the draft becomes, at the time of the placement, in an idle
conversation. -/
def QueuedAlike (settings : WorkflowSettings) (first : List Step) (c : ConversationId)
    (draft : SubmissionDraft) (now : Int) (later : List Step) : Prop :=
  ∀ new, admitsNew settings (runSteps settings initial first) c draft now = some new → ∀ record entry,
      (runSteps settings initial (first ++ .submit c draft now :: later)).storage.submissions.find new =
        some record →
      record.entry = some entry →
      ∃ stored seq placedAt,
        (runSteps settings initial (first ++ .submit c draft now :: later)).storage.entries.find entry =
          some ⟨stored, seq⟩ ∧
        ∀ idle, IdleEntry settings draft placedAt idle → Alike stored idle

theorem IdleEntry.draft {draft : SubmissionDraft}
    {idle : EntryRecord} (hplain : Plain draft.body) (h : IdleEntry settings draft now idle) :
    ∃ written id c, immediate draft.body now = .ok written ∧ idle = written.record id c := by
  obtain ⟨steps, d, new, record, entry, seq, hrun, hinbox, hnew, hrec, hentry, hidle⟩ := h
  have hacct := (runSteps_accountable settings steps initial_accountable).1
  have hadmits := (admitsNew_admits hacct hplain hnew).2 hrun hinbox
  rw [runSteps, List.foldl_append] at hrec hidle
  obtain ⟨found, hfound, hwrote⟩ := hadmits
  cases hfound.symm.trans hrec
  obtain ⟨-, written, e, position, himmediate, hstored⟩ := hwrote entry hentry
  cases hstored.symm.trans hidle
  exact ⟨written, entry, e, himmediate, rfl⟩

variable (settings)

/-- A draft that its item keeps is placed as what it is without a queue, in every run. -/
theorem queued_entry_alike (first : List Step) (c : ConversationId)
    (draft : SubmissionDraft) (now : Int) (later : List Step) (hplain : Plain draft.body) :
    QueuedAlike settings first c draft now later := by
  intro new hnew record entry hrecord hentry
  have hfirst := (runSteps_accountable settings first initial_accountable).1
  have hsubmitted := (commit_accountable settings (.submit c draft now) hfirst).1
  have htracked := runSteps_tracked settings hplain later hsubmitted (admitsNew_admits hfirst hplain hnew).1
  have hsplit : runSteps settings initial (first ++ .submit c draft now :: later) =
      runSteps settings (commit (callback settings (.submit c draft now))
        (runSteps settings initial first)) later := by
    rw [runSteps, List.foldl_append]
    rfl
  rw [hsplit] at hrecord ⊢
  obtain ⟨found, hfound, hwritten⟩ := htracked.record
  cases hfound.symm.trans hrecord
  obtain ⟨-, written, e, seq, ⟨placedAt, himmediate⟩, hstored⟩ := hwritten entry hentry
  refine ⟨_, seq, placedAt, hstored, fun idle hidle => ?_⟩
  obtain ⟨other, id, d, hother, rfl⟩ := hidle.draft hplain
  cases himmediate.symm.trans hother
  exact EntryDraft.record_alike written _ _ _ _

/-! ### A busy conversation -/

def plainSettings : WorkflowSettings :=
  { generation := { kind := "pi.generation", initial := fun _ => .object [] } }

/-- A first input, which becomes entry 2 and submission 3 and starts task 4. -/
def firstInput : Step := .submit 1 ⟨none, .input (.string "hi") none none⟩ 0

/-- A write of a note with a message of its own. -/
def noteDraft : SubmissionDraft := ⟨none, .write { kind := "note", model := some [.object []] }⟩

/-- The note waits as submission 5 and is placed as entry 6 by the end of the tool round. -/
theorem queuedNote_alike :
    admitsNew plainSettings (runSteps plainSettings initial [firstInput]) 1 noteDraft 0 = some 5 ∧
      ((runSteps plainSettings initial [firstInput, .submit 1 noteDraft 0,
        .toolRound 1 4 0]).storage.submissions.find 5).bind SubmissionRecord.entry = some 6 ∧
      QueuedAlike plainSettings [firstInput] 1 noteDraft 0 [.toolRound 1 4 0] := by
  refine ⟨by decide +kernel, by decide +kernel, ?_⟩
  apply queued_entry_alike
  exact ⟨rfl, fun id heq => by cases heq⟩

/-- A write that leaves entry 2 out of the context. -/
def omittingDraft : SubmissionDraft :=
  ⟨none, .write { kind := "note", edits := [⟨2, "omit", []⟩] }⟩

/-- The run in which the first input was aborted. -/
def abortedInput : List Step := [firstInput, .endUnanswered 1 4 none "aborted" none]

/-- The entry that the omitting write becomes in an idle conversation. -/
def omittingEntry : EntryRecord :=
  { id := 5
    conversationId := 1
    kind := "note"
    data := .object []
    edits := [⟨2, "omit", []⟩] }

theorem omittingEntry_idle (now : Int) : IdleEntry plainSettings omittingDraft now omittingEntry := by
  refine ⟨abortedInput, 1, 6, newSubmission 6 1 omittingDraft "done" (some 5) none, 5, 3, ?_, ?_, ?_, ?_, ?_, ?_⟩
  · decide +kernel
  · rfl
  · rfl
  · rfl
  · rfl
  · rfl

/-- The item of a queued write has no edits, so the placed entry has none. -/
theorem queuedEdits_lost : ¬ QueuedAlike plainSettings [firstInput] 1 omittingDraft 0 [.toolRound 1 4 0] := by
  intro h
  obtain ⟨stored, seq, placedAt, hstored, halike⟩ := h 5 (by decide +kernel)
    (newSubmission 5 1 omittingDraft "done" (some 6) none) 6 (by decide +kernel) rfl
  have hedits := (halike omittingEntry (omittingEntry_idle placedAt)).edits
  have hlost : ((runSteps plainSettings initial [firstInput, .submit 1 omittingDraft 0,
      .toolRound 1 4 0]).storage.entries.find 6).map (fun entry => entry.record.edits) = some [] := by
    decide +kernel
  rw [List.singleton_append] at hstored
  rw [hstored] at hlost
  rw [Option.map_some, Option.some.injEq] at hlost
  rw [hlost] at hedits
  cases hedits

end Workflow

end CodingHarness.Durable
