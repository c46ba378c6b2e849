import CodingHarness.Durable.QueuedEntries
import CodingHarness.Durable.Visibility

/-!
# What a boundary relies on

The admission of an input reads nothing of its content, and the admission of a write to a busy
conversation reads nothing of its head. The boundary that places them does: `inputUser` wants one text
block, and the tables want a head that the conversation sees. `Placeable` is what a body needs for that,
and `Ready` the invariant of the tables and the inboxes: every item that waits was queued for such a
body, the ancestry of every conversation ends, the next identity is free. `runSteps_ready` carries it
over every run whose queued submissions are placeable.
-/

namespace CodingHarness.Durable

open Library Support

namespace Workflow

/-! ## What a boundary can place -/

/-- Content of one text: a string, or a list of one block with a text. -/
def SingleText : Json → Prop
  | .string _ => True
  | .array [.object members] => ∃ text, jsonStringMember members "text" = some text
  | _ => False

/-- A body that a boundary of the conversation can place. -/
def Placeable (storage : StorageState) (c : ConversationId) : SubmissionBody → Prop
  | .input content _ _ => SingleText content ∧ content.Storable
  | .write entry => ∀ id, entry.head = some (.entry id) → Exact id ∧ storage.entryVisible c id = true

def messageBlocks (content : Json) : Json := match content.asString with
  | some text =>
    .array [.object (field "type" (.string "text") ++ field "text" (.string text))]
  | none => content

theorem userMessageJson_eq (content : Json) (now : Int) :
    userMessageJson content now = .object (field "role" (.string "user") ++
      (field "content" (messageBlocks content) ++ field "timestamp" (number now))) := rfl

variable {content : Json}

theorem messageBlocks_storable (h : content.Storable) : (messageBlocks content).Storable := by
  cases content with
  | string text =>
    constructor
    · simp [messageBlocks, Json.asString, field, Json.finite_array, Json.finite_object, Json.finite_string]
    · simp [messageBlocks, Json.asString, field, Json.wf_array, Json.wf_object, JsonObject.NodupKeys]
  | null | bool flag | number value | array items | object members => exact h

variable {now : Int}

theorem userMessageJson_storable (h : content.Storable)
    (hnow : Exact now) : (userMessageJson content now).Storable := by
  obtain ⟨hfinite, hwf⟩ := messageBlocks_storable h
  rw [userMessageJson_eq]
  constructor
  · simp [field, hfinite, (storable_number hnow).1]
  · simp [field, hwf, (storable_number hnow).2, JsonObject.NodupKeys]

theorem asChord_storable {json : Json} (h : json.Storable) : asChord json = .ok json := by
  rw [asChord, toSupport_eq h.2, fromSupport_eq h]

/-- An input becomes an entry without head and edits whose message is the one of its content. -/
theorem inputEntryDraft_ok (entry : Option InputEntry) (h : content.Storable) (hnow : Exact now) :
    ∃ draft members, inputEntryDraft content entry now = .ok draft ∧ draft.head = none ∧
      draft.edits = [] ∧ draft.data = .object members ∧
      jsonMember members "model" = some (.array [userMessageJson content now]) := by
  have hchord := asChord_storable (userMessageJson_storable h hnow)
  cases entry with
  | none =>
    refine ⟨⟨"pi.user", .object (field "model" (.array [userMessageJson content now])),
      none, [userMessageJson content now], []⟩, field "model" _, ?_, rfl, rfl, rfl, ?_⟩
    · rw [inputEntryDraft, hchord]
      rfl
    · simp
  | some entry =>
    refine ⟨⟨entry.kind, .object ((((entry.data.bind Json.asObject).getD []).insertOrAssign
      "kind" (.string entry.kind)).insertOrAssign "model"
        (.array [userMessageJson content now])), none, [userMessageJson content now], []⟩,
      JsonObject.insertOrAssign _ _ _, ?_, rfl, rfl, rfl, ?_⟩
    · rw [inputEntryDraft, hchord]
      rfl
    · simp [jsonMember, JsonObject.find_insertOrAssign]

variable {entry : EntryRecord}

theorem inputUser_ok {members : JsonObject Json}
    (htext : SingleText content) (hnow : Exact now) (hdata : entry.data = .object members)
    (hmodel : jsonMember members "model" = some (.array [userMessageJson content now])) :
    ∃ user, inputUser entry = .ok user := by
  have hblock : ∃ block text, messageBlocks content = .array [.object block] ∧
      jsonStringMember block "text" = some text := by
    unfold SingleText at htext
    split at htext
    · next text => exact ⟨_, text, rfl, by simp [jsonStringMember, Json.asString]⟩
    · obtain ⟨text, htext⟩ := htext
      exact ⟨_, text, rfl, htext⟩
    · cases htext
  obtain ⟨block, text, hblocks, htext⟩ := hblock
  refine ⟨(text, now), ?_⟩
  simp [inputUser, hdata, hmodel, jsonArrayMember, Json.asArray, Json.asObject, present,
    userMessageJson_eq, hblocks, htext, integerField, asInteger_number hnow]

/-! ## The tables -/

variable {c : ConversationId}

theorem entryVisibleLoop_mono {a b : OrdMap ConversationId ConversationRecord}
    (hkeep : ∀ c record, a.find c = some record → b.find c = some record)
    {id : EntryId} {fuel more : Nat} (hmore : fuel ≤ more) {cutoff : Option EntryId} {visited : List ConversationId}
    (h : StorageState.entryVisibleLoop a entry id fuel c cutoff visited = true) :
    StorageState.entryVisibleLoop b entry id more c cutoff visited = true := by
  induction fuel generalizing more c cutoff visited with
  | zero => cases h
  | succ fuel ih =>
    obtain ⟨more, rfl⟩ := Nat.exists_eq_succ_of_ne_zero (show more ≠ 0 by omega)
    simp only [StorageState.entryVisibleLoop] at h ⊢
    split at h
    · cases h
    next hvisited =>
    rw [if_neg hvisited]
    cases hfind : a.find c with
    | none =>
      rw [hfind] at h
      cases h
    | some conversation =>
      rw [hfind] at h
      rw [hkeep c conversation hfind]
      dsimp only at h ⊢
      split at h
      · next hown =>
        rw [if_pos hown]
        exact h
      next hown =>
      rw [if_neg hown]
      cases hpar : conversation.parent with
      | none =>
        rw [hpar] at h
        cases h
      | some parent =>
        rw [hpar] at h
        exact ih (by omega) h

/-- The entries and conversations of the first tables are in the second ones. -/
structure Extends (a b : StorageState) : Prop where
  conversations : ∀ c record, a.conversations.find c = some record → b.conversations.find c = some record
  size : a.conversations.size ≤ b.conversations.size
  entries : ∀ id stored, a.entries.find id = some stored → b.entries.find id = some stored

variable {a b : StorageState}

theorem Extends.of_eq (hconvs : b.conversations = a.conversations) (hents : b.entries = a.entries) : Extends a b where
  conversations _ _ h := hconvs ▸ h
  size := by rw [hconvs]
  entries _ _ h := hents ▸ h

theorem Extends.trans {a b d : StorageState} (hab : Extends a b) (hbd : Extends b d) : Extends a d where
  conversations c record h := hbd.conversations c record (hab.conversations c record h)
  size := hab.size.trans hbd.size
  entries id stored h := hbd.entries id stored (hab.entries id stored h)

theorem Extends.visible (h : Extends a b) {id : EntryId}
    (hvisible : a.entryVisible c id = true) : b.entryVisible c id = true := by
  unfold StorageState.entryVisible at hvisible ⊢
  cases hfind : a.entries.find id with
  | none =>
    rw [hfind] at hvisible
    cases hvisible
  | some stored =>
    rw [hfind] at hvisible
    rw [h.entries id stored hfind]
    exact entryVisibleLoop_mono h.conversations (Nat.succ_le_succ h.size) hvisible

variable {body : SubmissionBody}

theorem Placeable.mono (hab : Extends a b) (h : Placeable a c body) : Placeable b c body := by
  cases body with
  | input content whenBusy entry => exact h
  | write entry =>
    intro id hid
    obtain ⟨hexact, hvisible⟩ := h id hid
    exact ⟨hexact, hab.visible hvisible⟩

/-- An item that was queued for a body that a boundary can place. -/
def GoodItem (storage : StorageState) (c : ConversationId) (item : InboxItem) : Prop :=
  ∃ body, item = queuedItem item.id body ∧ Placeable storage c body

theorem GoodItem.mono (hab : Extends a b) {item : InboxItem} (h : GoodItem a c item) : GoodItem b c item := by
  obtain ⟨body, heq, hbody⟩ := h
  exact ⟨body, heq, hbody.mono hab⟩

/-- What the boundaries rely on between the commits, apart from the agreement of the inboxes. -/
structure Ready (s : Workflow) : Prop where
  transcript : StorageState.Transcript s.storage
  fresh : ∀ id, s.storage.nextId ≤ id → s.storage.entries.find id = none
  statuses : ∀ id record, s.storage.submissions.find id = some record → Known record.status
  hosted : ∀ c run, s.run c = some run → ∃ conversation, s.storage.conversations.find c = some conversation
  items : ∀ c, ∀ item ∈ s.inbox c, GoodItem s.storage c item

/-! ## Every call keeps the tables ready -/

/-- The conversation exists. -/
def Stored (s : Workflow) (c : ConversationId) : Prop :=
  ∃ conversation, s.storage.conversations.find c = some conversation

/-- A ready workflow inside a commit that began with the tables `base`. The conversation of the commit,
if it has one, is stored. -/
structure ReadyAt (base : StorageState) (host : Option ConversationId) (s : Workflow) : Prop where
  ready : Ready s
  since : Extends base s.storage
  stored : ∀ c, host = some c → Stored s c

variable {base : StorageState} {host : Option ConversationId} {s t : Workflow}

/-- A change of the tables under which the entries and conversations stay. -/
theorem Ready.tables (h : Ready s) (hextends : Extends s.storage t.storage)
    (htrans : StorageState.Transcript t.storage)
    (hfresh : ∀ id, t.storage.nextId ≤ id → t.storage.entries.find id = none)
    (hstatuses : ∀ id record, t.storage.submissions.find id = some record → Known record.status)
    (hinbox : t.inbox = s.inbox) (hrun : t.run = s.run) : Ready t where
  transcript := htrans
  fresh := hfresh
  statuses := hstatuses
  hosted c run heq := by
    obtain ⟨conversation, hfind⟩ := h.hosted c run (hrun ▸ heq)
    exact ⟨conversation, hextends.conversations c conversation hfind⟩
  items c item hitem := (h.items c item (hinbox ▸ hitem)).mono hextends

theorem ReadyAt.tables (h : ReadyAt base host s) (hextends : Extends s.storage t.storage)
    (htrans : StorageState.Transcript t.storage)
    (hfresh : ∀ id, t.storage.nextId ≤ id → t.storage.entries.find id = none)
    (hstatuses : ∀ id record, t.storage.submissions.find id = some record → Known record.status)
    (hinbox : t.inbox = s.inbox) (hrun : t.run = s.run) : ReadyAt base host t where
  ready := h.ready.tables hextends htrans hfresh hstatuses hinbox hrun
  since := h.since.trans hextends
  stored c heq := by
    obtain ⟨conversation, hfind⟩ := h.stored c heq
    exact ⟨conversation, hextends.conversations c conversation hfind⟩

theorem ReadyAt.minted (h : ReadyAt base host s) : ReadyAt base host s.minted := by
  refine h.tables (.of_eq rfl rfl) (h.ready.transcript.congr rfl rfl rfl rfl) ?_ h.ready.statuses rfl rfl
  intro id hid
  exact h.ready.fresh id (le_trans (Int.le_add_one (le_refl _)) hid)

variable {record : EntryRecord}

theorem extends_appended (h : Ready s) (hid : record.id = s.storage.nextId) :
    Extends s.storage (s.appended record).storage where
  conversations _ _ hc := hc
  size := le_refl _
  entries e stored he := by
    refine (OrdMap.find_insert _ _ _ _).trans ?_
    rw [if_neg, he]
    rintro rfl
    rw [hid, h.fresh _ (le_refl _)] at he
    cases he

theorem ReadyAt.appended (h : ReadyAt base host s) (hid : record.id = s.storage.nextId)
    (happly : StorageState.applyEntry s.storage.nextSeq s.minted.storage (some record) =
      .ok (s.appended record).storage) : ReadyAt base host (s.appended record) := by
  refine h.tables (extends_appended h.ready hid) ?_ ?_ h.ready.statuses rfl rfl
  · have hwrite : StorageState.applyWrite .empty [] s.storage.nextSeq true s.minted.storage
        (.entry (some record)) = .ok (s.appended record).storage := happly
    exact h.minted.ready.transcript.applyWrite hwrite
  intro id hle
  refine (OrdMap.find_insert _ _ _ _).trans ?_
  have hlt : s.storage.nextId < id := Int.lt_of_add_one_le hle
  have hne : id ≠ record.id := by
    rw [hid]
    exact ne_of_gt hlt
  rw [if_neg hne]
  exact h.ready.fresh id (le_of_lt hlt)

theorem ReadyAt.withSubmission (h : ReadyAt base host s) (id : SubmissionId) {record : SubmissionRecord}
    (hknown : Known record.status) : ReadyAt base host (s.withSubmission id record) := by
  refine h.tables (.of_eq rfl rfl) (h.ready.transcript.congr rfl rfl rfl rfl) h.ready.fresh ?_ rfl rfl
  intro other found hfound
  change (s.storage.submissions.insert id record).find other = some found at hfound
  rcases OrdMap.find_insert_cases hfound with ⟨-, rfl⟩ | hfound
  · exact hknown
  · exact h.ready.statuses other found hfound

theorem applySubmissionChange_known {current next : SubmissionRecord} {change : SubmissionChange}
    (h : applySubmissionChange current change = .ok next) (hleaves : Leaves change) (hknown : Known current.status) :
    Known next.status := by
  cases changed h with
  | ended => exact hknown
  | placed =>
    split
    · exact .inr (.inl rfl)
    · exact .inr (.inr (.inl rfl))
  | settled => exact .inr (.inr hleaves)

variable {items : List InboxItem}

theorem ReadyAt.setInbox (h : ReadyAt base host s) (c : ConversationId)
    (hitems : ∀ item ∈ items, GoodItem s.storage c item) :
    ReadyAt base host { s with inbox := Function.update s.inbox c items } := by
  refine ⟨{ h.ready with items := ?_ }, h.since, h.stored⟩
  intro d item hitem
  change item ∈ Function.update s.inbox c items d at hitem
  by_cases hd : d = c
  · subst hd
    rw [Function.update_self] at hitem
    exact hitems item hitem
  · rw [Function.update_of_ne hd] at hitem
    exact h.ready.items d item hitem

theorem ReadyAt.setRun (hs : ReadyAt base host s) {run : Option LiveRun} (h : run = none ∨ host = some c) :
    ReadyAt base host { s with run := Function.update s.run c run } := by
  refine ⟨{ hs.ready with hosted := ?_ }, hs.since, hs.stored⟩
  intro d live hlive
  change Function.update s.run c run d = some live at hlive
  by_cases hd : d = c
  · subst hd
    rw [Function.update_self] at hlive
    rcases h with hnone | hhost
    · rw [hnone] at hlive
      cases hlive
    · exact hs.stored d hhost
  · rw [Function.update_of_ne hd] at hlive
    exact hs.ready.hosted d live hlive

variable {storage : StorageState}

theorem goodItem_append {new : InboxItem} (hitems : ∀ item ∈ items, GoodItem storage c item)
    (hnew : GoodItem storage c new) : ∀ item ∈ items ++ [new], GoodItem storage c item := by
  intro item hitem
  rcases List.mem_append.1 hitem with hitem | hitem
  · exact hitems item hitem
  · rw [List.mem_singleton.1 hitem]
    exact hnew

theorem closed_readyAt (base : StorageState) (host : Option ConversationId) :
    Closed (ReadyAt base host) (GoodItem base) (fun c => host = some c) fun _ => True where
  minted hs := hs.minted
  insertTask _ _ hs := hs.tables (.of_eq rfl rfl) (hs.ready.transcript.congr rfl rfl rfl rfl)
    hs.ready.fresh hs.ready.statuses rfl rfl
  appended hs hid happly := hs.appended hid happly
  created _ _ _ _ _ hs hknown _ := hs.minted.withSubmission _ hknown
  settled hs hends _ hfind hchange :=
    hs.withSubmission _ (applySubmissionChange_known hchange hends.leaves (hs.ready.statuses _ _ hfind))
  placed _ _ ht _ _ hfind hchange :=
    ht.withSubmission _ (applySubmissionChange_known hchange leaves_place (ht.ready.statuses _ _ hfind))
  inbox hs hitems := hs.setInbox _ fun item hitem => (hitems item hitem).mono hs.since
  push hs hitem := hs.setInbox _ (goodItem_append (hs.ready.items _) (hitem.mono hs.since))
  run hs hrun := hs.setRun hrun

theorem stored_of_scanEntries {limit : Nat}
    {entries : List EntryRecord} (h : storage.scanEntries c limit = .ok entries) :
    ∃ conversation, storage.conversations.find c = some conversation := by
  unfold StorageState.scanEntries StorageState.reading at h
  split at h
  · cases h
  rw [bind_eq_ok] at h
  obtain ⟨visible, hvisible, -⟩ := h
  rw [StorageState.scanEntriesLoop] at hvisible
  cases hfind : storage.conversations.find c with
  | none =>
    rw [hfind] at hvisible
    cases hvisible
  | some conversation => exact ⟨conversation, rfl⟩

/-- After the boundary was prepared, its conversation is known to be stored. -/
theorem readyAt_prepareBoundary {α : Type} (c : ConversationId) (items : List InboxItem)
    {f : Boundary → WorkflowAction α} {R : α → Workflow → Prop}
    (h : ∀ boundary, boundary.conversationId = c → boundary.items = items →
      Ensures (ReadyAt base (some c)) (f boundary) R fun _ => True) :
    Ensures (ReadyAt base none) (prepareBoundary c items >>= f) R fun _ => True := by
  refine Ensures.bind (Q := fun boundary t => boundary.conversationId = c ∧
    boundary.items = items ∧ ReadyAt base (some c) t) ?_ fun boundary => ?_
  · refine ensures_read fun s hs => ?_
    refine ensures_checkThen (fun _ _ => trivial) fun entries hscan => ?_
    rintro t rfl
    refine ⟨rfl, rfl, hs.ready, hs.since, ?_⟩
    rintro d heq
    cases heq
    exact stored_of_scanEntries hscan
  apply ensures_assume
  intro hconv
  apply ensures_assume
  intro hitems
  exact h boundary hconv hitems

theorem goodItem_queued
    (h : Placeable storage c body) (id : SubmissionId) : GoodItem storage c (queuedItem id body) :=
  ⟨body, by rw [queuedItem_id], h⟩

theorem enqueues_readyAt {draft : SubmissionDraft} (h : Placeable base c draft.body) :
    Enqueues (ReadyAt base host) (GoodItem base) c draft :=
  (closed_readyAt base host).enqueues (goodItem_queued h)

/-- What a submission needs when it has to wait: its conversation is busy, or others wait there. -/
def SubmitPlaceable (s : Workflow) (c : ConversationId) (body : SubmissionBody) : Prop :=
  (s.run c = none ∧ s.inbox c = []) ∨ Placeable s.storage c body

theorem Ready.atStart (h : Ready s) : ReadyAt s.storage none s := ⟨h, .of_eq rfl rfl, fun _ heq => by cases heq⟩

theorem Keeps.ready {α : Type} {x : WorkflowAction α} (h : Ready s) (hx : Keeps (ReadyAt s.storage none) x) :
    Ensures (fun t => t = s) x (fun _ => Ready) fun _ => True := by
  refine hx.mono ?_ (fun _ _ ht => ht.ready) fun _ ht => ht
  rintro t rfl
  exact h.atStart

variable (settings : WorkflowSettings)

theorem ready_admitDraft (h : ReadyAt s.storage (some c) s)
    (draft : SubmissionDraft) (now : Int) (hbody : SubmitPlaceable s c draft.body) :
    Ensures (fun t => t = s) (admitDraft settings c draft now) (fun _ => Ready) fun _ => True := by
  apply ensures_getAt
  cases hrun : s.run c with
  | some run =>
    have hplace : Placeable s.storage c draft.body := by
      rcases hbody with ⟨hnone, -⟩ | hbody
      · rw [hrun] at hnone
        cases hnone
      · exact hbody
    exact Keeps.ready h.ready ((closed_readyAt _ _).admitBusy (enqueues_readyAt hplace))
  | none =>
    have hstart : ∀ t, t = s → ReadyAt s.storage none t := by
      rintro t rfl
      exact h.ready.atStart
    refine (readyAt_prepareBoundary c (s.inbox c) (R := fun _ => Ready) ?_).mono hstart
      (fun _ _ ht => ht) fun _ ht => ht
    intro boundary hconv hitems
    split
    · exact ((closed_readyAt _ _).admitIdle settings (congrArg some hconv.symm) draft now).mono
        (fun _ ht => ht) (fun _ _ ht => ht.ready) fun _ ht => ht
    next hsome =>
    have hplace : Placeable s.storage c draft.body := by
      rcases hbody with ⟨-, hempty⟩ | hbody
      · rw [hitems, hempty] at hsome
        exact absurd rfl hsome
      · exact hbody
    subst hconv
    refine ((closed_readyAt _ _).admitBehind settings (enqueues_readyAt hplace) rfl now ?_).mono
      (fun _ ht => ht) (fun _ _ ht => ht.ready) fun _ ht => ht
    rw [hitems]
    exact h.ready.items _

theorem ready_admitSubmission (h : Ready s) (c : ConversationId)
    (draft : SubmissionDraft) (now : Int) (hbody : SubmitPlaceable s c draft.body) :
    Ensures (fun t => t = s) (admitSubmission settings c draft now) (fun _ => Ready) fun _ => True := by
  refine ensures_checkThen (fun _ _ => trivial) fun _ _ => ?_
  apply ensures_getAt
  refine ensures_checkThen (fun _ _ => trivial) fun before _ => ?_
  cases before with
  | some known => exact ensures_pure fun t ht => ht ▸ h
  | none =>
    refine ensures_checkThen (fun _ _ => trivial) fun conversation hconv => ?_
    have hready : ReadyAt s.storage (some c) s := by
      refine ⟨h, .of_eq rfl rfl, ?_⟩
      rintro d heq
      cases heq
      exact ⟨conversation, present_eq_ok.1 hconv⟩
    refine ensures_checkThen (fun _ _ => trivial) fun atOnce _ => ?_
    cases atOnce with
    | some entry => exact Keeps.ready h ((closed_readyAt _ _).admitDisplayOnly draft entry)
    | none => exact ready_admitDraft settings hready draft now hbody

theorem opens_ready (h : Ready s) (c : ConversationId) :
    Opens (fun t => t = s) (ReadyAt s.storage (some c)) (GoodItem s.storage) c := by
  intro α f hf
  apply ensures_getAt
  have hstart : ∀ t, t = s → ReadyAt s.storage none t := by
    rintro t rfl
    exact h.atStart
  refine (readyAt_prepareBoundary c (s.inbox c) ?_).mono hstart (fun _ _ ht => ht) fun _ ht => ht
  intro boundary hconv hitems
  exact hf boundary hconv (hitems ▸ h.items c)

theorem ready_abortSubmission (h : Ready s) (id : SubmissionId) (c : Option ConversationId) :
    Ensures (fun t => t = s) (abortSubmission id c) (fun _ => Ready) fun _ => True := by
  apply ensures_getAt
  apply Keeps.ready h
  cases s.storage.submissions.find id with
  | none => exact keeps_pure _
  | some record =>
    dsimp only
    split
    · exact keeps_pure _
    split
    · refine ((closed_readyAt _ _).settle id (ends_unanswered ..) fun _ => trivial).bind fun _ =>
        (closed_readyAt _ _).setInbox _ _ ?_
      exact fun item hitem => h.items _ item (List.mem_of_mem_eraseP hitem)
    · exact keeps_pure _

theorem ready_withdrawQueuedInputs (h : Ready s) (c : ConversationId) :
    Ensures (fun t => t = s) (withdrawQueuedInputs c) (fun _ => Ready) fun _ => True := by
  apply ensures_getAt
  apply Keeps.ready h
  refine ((closed_readyAt _ _).withdrawItems _ fun _ _ => trivial).bind fun _ =>
    (closed_readyAt _ _).setInbox c _ fun item hitem => ?_
  exact h.items c item (List.mem_filter.1 hitem).1

theorem ready_createConversation (h : Ready s) (parent : Option Parent) (owner : Option ConversationOwner) :
    Ensures (fun t => t = s) (createConversation parent owner) (fun _ => Ready) fun _ => True := by
  refine (ensures_mintIdAt s).bind fun new => ?_
  apply ensures_assume
  rintro rfl
  apply ensures_getAt
  refine ensures_checkThen (fun _ _ => trivial) fun storage hstor => ?_
  have hminted := h.atStart.minted.ready
  have hwrite : StorageState.applyWrite .empty [] s.storage.nextSeq true s.minted.storage
      (.conversation (some ⟨s.storage.nextId, parent, owner⟩)) = .ok storage := hstor
  have htrans := hminted.transcript.applyWrite hwrite
  obtain ⟨record, hrec, habsent, -, rfl⟩ := StorageState.applyConversation_eq_ok.1 hstor
  rw [OrdMap.contains_eq_false_iff] at habsent
  rintro t rfl
  refine hminted.tables ⟨?_, ?_, fun _ _ he => he⟩ htrans ?_ hminted.statuses rfl rfl
  · intro c conversation hfind
    refine (OrdMap.find_insert _ _ _ _).trans ?_
    rw [if_neg, hfind]
    rintro rfl
    rw [habsent] at hfind
    cases hfind
  · exact (Nat.le_succ _).trans (OrdMap.size_insert_of_absent _ _ habsent).ge
  · exact fun id hid => hminted.fresh id (le_trans (le_max_left _ _) hid)

/-! ## Every run keeps them ready -/

/-- What a commit needs of the state before it: a submission that has to wait is placeable. -/
def StepPlaceable (s : Workflow) : Step → Prop
  | .submit c draft _ => SubmitPlaceable s c draft.body
  | _ => True

theorem ready_callback {step : Step} (h : Ready s) (hstep : StepPlaceable s step) :
    Ensures (fun t => t = s) (callback settings step) (fun _ => Ready) fun _ => True := by
  cases step with
  | submit c draft now =>
    exact (ready_admitSubmission settings h c draft now hstep).bind fun _ =>
      ensures_pure fun _ ht => ht
  | toolRound c task now =>
    exact ((closed_readyAt _ _).finishToolRound settings (opens_ready h c) rfl task now).mono
      (fun _ ht => ht) (fun _ _ ht => ht.ready) fun _ ht => ht
  | answer c task assistant continuation now =>
    exact ((closed_readyAt _ _).answer settings (opens_ready h c) rfl task assistant continuation
      now).mono (fun _ ht => ht) (fun _ _ ht => ht.ready) fun _ ht => ht
  | endUnanswered c task assistant reason detail =>
    exact Keeps.ready h ((closed_readyAt _ _).endUnanswered task assistant fun _ _ => trivial)
  | abortSubmission id c => exact ready_abortSubmission h id c
  | abortConversation c => exact ready_withdrawQueuedInputs h c
  | append c draft =>
    exact Keeps.ready h (((closed_readyAt _ _).appendEntry c draft).bind fun _ => keeps_pure _)
  | createConversation parent owner => exact ready_createConversation h parent owner

theorem commit_ready {step : Step} (hacct : Accountable s)
    (h : Ready s) (hstep : StepPlaceable s step) : Ready (commit (callback settings step) s) := by
  have hend := ready_callback settings h hstep s rfl
  have hminted := commit_nextId settings step hacct
  unfold commit at hminted ⊢
  cases hrun : callback settings step s with
  | ok result t =>
    rw [hrun] at hend
    exact Ready.tables hend (.of_eq rfl rfl) (hend.transcript.congr rfl rfl rfl rfl) hend.fresh hend.statuses rfl rfl
  | error error t =>
    rw [hrun] at hminted
    exact h.tables (.of_eq rfl rfl) (h.transcript.congr rfl rfl rfl rfl)
      (fun id hid => h.fresh id (le_trans hminted hid)) h.statuses rfl rfl

/-- Every commit of a run meets its condition in the state it starts from. -/
def RunPlaceable (settings : WorkflowSettings) : Workflow → List Step → Prop
  | _, [] => True
  | s, step :: rest => StepPlaceable s step ∧ RunPlaceable settings (commit (callback settings step) s) rest

theorem runSteps_ready {steps : List Step} (hacct : Accountable s)
    (h : Ready s) (hrun : RunPlaceable settings s steps) : Ready (runSteps settings s steps) := by
  induction steps generalizing s with
  | nil => exact h
  | cons step rest ih =>
    obtain ⟨hstep, hrest⟩ := hrun
    exact ih (commit_accountable settings step hacct).1 (commit_ready settings hacct h hstep) hrest

theorem initial_ready : Ready initial where
  transcript :=
    { isOpen := rfl
      depth := by
        intro c record hrec
        change (OrdMap.empty.insert 1 ({ id := 1 } : ConversationRecord)).find c = some record at hrec
        rw [OrdMap.find_insert] at hrec
        split at hrec
        · next heq =>
          subst heq
          exact ⟨0, by decide, .root (OrdMap.find_insert_self _ _ _) rfl⟩
        · cases hrec
      entryId := fun id stored hstored => by cases hstored
      mem_entryIds := fun c id => by simp [StorageState.entryIds, initial]
      nodup := fun c => by simp [StorageState.entryIds, initial] }
  fresh _ _ := rfl
  statuses id record hrec := by cases hrec
  hosted c run hlive := by cases hlive
  items c item hitem := by cases hitem

end Workflow

end CodingHarness.Durable
