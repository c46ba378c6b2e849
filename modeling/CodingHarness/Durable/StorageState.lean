import CodingHarness.Durable.Records
import Mathlib.Data.List.Sort

/-!
# The in-memory storage state

`StorageState` of the source answers every read of a storage and applies every batch. The maps and
index vectors of `StorageState::Impl` are the fields of a structure; a batch is a fold of
`applyWrite` over its writes, and a rejected batch leaves the state as it was because the fold has no
result. `task_ids` and `submission_ids` are written but never read by the source and are left out.
-/

namespace CodingHarness.Durable

open Library Support Chord

/-! ## Stored values -/

/-- One committed document revision: a complete base or one delta. -/
structure DocumentRevision where
  seq : Seq
  version : Nat
  base : Bool
  value : Json
  ops : OpBatch
  deriving DecidableEq

/-- One stored document incarnation with its revisions in commit order. -/
structure StoredDocumentState where
  record : DocumentRecord
  revisions : List DocumentRevision
  deriving DecidableEq

/-- One stored entry with the sequence of its commit. -/
structure StoredEntryState where
  record : EntryRecord
  commitSeq : Seq
  deriving DecidableEq

/-- `StorageState::Impl`. -/
structure StorageState where
  conversations : OrdMap ConversationId ConversationRecord := .empty
  conversationIds : List ConversationId := []
  entries : OrdMap EntryId StoredEntryState := .empty
  entryIdsByConversation : OrdMap ConversationId (List EntryId) := .empty
  documents : OrdMap DocumentId StoredDocumentState := .empty
  documentIdsByAddress : OrdMap Bytes (List DocumentId) := .empty
  tasks : OrdMap TaskId TaskRecord := .empty
  submissions : OrdMap SubmissionId SubmissionRecord := .empty
  nextId : Int := 2
  nextSeq : Seq := 1
  closedMessage : Bytes := []
  closed : Bool := false
  deriving DecidableEq

/-! ## Materialization -/

/-- The incarnation exists at the point: created by then, and not retired yet. -/
def isAliveAt (record : DocumentRecord) : DocumentPoint → Bool
  | none => record.retiredAt.isNone
  | some at_ =>
    decide (record.createdAt ≤ at_) && record.retiredAt.all fun retired => decide (at_ < retired)

/-- The revisions a point selects: the source stops at the first later one. -/
def selectedRevisions (revisions : List DocumentRevision) : DocumentPoint → List DocumentRevision
  | none => revisions
  | some at_ => revisions.takeWhile fun revision => decide (revision.seq ≤ at_)

/-- The newest base and the deltas after it, oldest first; the list is given newest first. -/
def newestBase : List DocumentRevision → List OpBatch → Option (DocumentRevision × List OpBatch)
  | [], _ => none
  | revision :: older, batches =>
    if revision.base then some (revision, batches) else newestBase older (revision.ops :: batches)

/-- `materialize`: the deltas after the newest base are applied to it. -/
def materialize (stored : StoredDocumentState) (point : DocumentPoint) : Expected (Option StoredDocument) :=
  if point.isSome && documentIsCurrentOnly stored.record then
    .error (validationError (ofString "Document " ++ intText stored.record.id
      ++ ofString " does not retain historical content"))
  else if !isAliveAt stored.record point then .ok none
  else
    match newestBase (selectedRevisions stored.revisions point).reverse [] with
    | none =>
      .error (validationError (ofString "Document " ++ intText stored.record.id
        ++ ofString " is missing a required base"))
    | some (base, batches) => do
        let value ← applyImmutableBatches base.value batches
        return some ⟨stored.record, base.version, value, batches.length⟩

namespace StorageState

/-! ## Entry visibility -/

/-- The ancestry walk of `entry_visible`. Every round visits a stored conversation for the first
time, so the number of conversations bounds the rounds. -/
def entryVisibleLoop (conversations : OrdMap ConversationId ConversationRecord)
    (entry : EntryRecord) (entryId : EntryId) :
    Nat → ConversationId → Option EntryId → List ConversationId → Bool
  | 0, _, _, _ => false
  | fuel + 1, current, cutoff, visited =>
    if visited.contains current then false
    else
      match conversations.find current with
      | none => false
      | some conversation =>
        if entry.conversationId = current then cutoff.all fun at_ => decide (entryId ≤ at_)
        else
          match conversation.parent with
          | none => false
          | some parent =>
            entryVisibleLoop conversations entry entryId fuel parent.conversationId
              (some parent.at_) (current :: visited)

/-- `entry_visible`: up the ancestry, an entry counts up to the fork entries on the way. -/
def entryVisible (s : StorageState) (conversationId : ConversationId) (entryId : EntryId) : Bool :=
  match s.entries.find entryId with
  | none => false
  | some stored =>
    entryVisibleLoop s.conversations stored.record entryId (s.conversations.size + 1)
      conversationId none []

/-! ## Writes -/

/-- A fork parent that is not stored, or, for a new commit, a fork entry its parent cannot see. -/
def forkParentMissing (consumeSeq : Bool) (next : StorageState) (record : ConversationRecord) : Bool :=
  record.parent.any fun parent =>
    !next.conversations.contains parent.conversationId ||
      (consumeSeq && !next.entryVisible parent.conversationId parent.at_)

/-- The `conversation` write. -/
def applyConversation (consumeSeq : Bool) (next : StorageState)
    (write : Option ConversationRecord) : Expected StorageState := do
  let record ← present write "Conversation write has no record"
  refuse (next.conversations.contains record.id) "Conversation already exists"
  refuse (forkParentMissing consumeSeq next record) "Fork parent entry does not exist"
  return { next with
    conversations := next.conversations.insert record.id record
    conversationIds := next.conversationIds ++ [record.id]
    nextId := max next.nextId (record.id + 1) }

/-- A head other than the entry itself that its conversation cannot see. -/
def headHidden (next : StorageState) (record : EntryRecord) : Bool :=
  record.head.any fun head => head != record.id && !next.entryVisible record.conversationId head

/-- The edit checks of an `entry` write. -/
def checkEdits (next : StorageState) (conversationId : ConversationId) : List ContextEdit → Expected Unit
  | [] => .ok ()
  | edit :: rest => do
      refuse (!next.entryVisible conversationId edit.target)
        "Context edit target is not visible from its conversation"
      refuse (edit.action != "omit" && edit.action != "replace")
        "Unknown context edit action"
      checkEdits next conversationId rest

/-- The entry identifiers of a conversation, in commit order. -/
def entryIds (s : StorageState) (conversationId : ConversationId) : List EntryId :=
  (s.entryIdsByConversation.find conversationId).getD []

/-- The `entry` write. -/
def applyEntry (seq : Seq) (next : StorageState) (write : Option EntryRecord) : Expected StorageState := do
  let record ← present write "Entry write has no record"
  refuse (next.entries.contains record.id) "Entry already exists"
  refuse (!next.conversations.contains record.conversationId) "Unknown conversation"
  refuse (headHidden next record) "Entry head is not visible from its conversation"
  checkEdits next record.conversationId record.edits
  return { next with
    entries := next.entries.insert record.id ⟨record, seq⟩
    entryIdsByConversation := next.entryIdsByConversation.insert record.conversationId
      (next.entryIds record.conversationId ++ [record.id])
    nextId := max next.nextId (record.id + 1) }

/-- The incarnations created at an address, oldest first. -/
def documentIds (s : StorageState) (key : Bytes) : List DocumentId := (s.documentIdsByAddress.find key).getD []

/-- The document identities a batch retires. -/
def retiredInBatch (batch : List StorageWrite) : List DocumentId := batch.filterMap fun write =>
    match write with
    | .documentRetire id => id
    | _ => none

/-- An unretired incarnation outside the batch's own retirements occupies the address. -/
def addressOccupied (batch : List StorageWrite) (next : StorageState) (record : DocumentRecord) : Bool :=
  (next.documentIds (documentAddressKey record.kind record.address)).any fun other =>
    (next.documents.find other).any (fun stored => stored.record.retiredAt.isNone) &&
      !(retiredInBatch batch).contains other

/-- The checks shared by `document.create` and `document.copy`. -/
def checkNewDocument (batch : List StorageWrite) (next : StorageState) (record : DocumentRecord) :
    Expected Unit := do
  refuse (next.documents.contains record.id) "Document already exists"
  refuse (addressOccupied batch next record) "Document address already has a current incarnation"

/-- Store a new incarnation with its first base. -/
def addDocument (seq : Seq) (next : StorageState) (record : DocumentRecord) (version : Nat)
    (value : Json) : StorageState :=
  let key := documentAddressKey record.kind record.address
  { next with
    documents := next.documents.insert record.id
      ⟨{ record with createdAt := seq }, [⟨seq, version, true, value, []⟩]⟩
    documentIdsByAddress := next.documentIdsByAddress.insert key (next.documentIds key ++ [record.id])
    nextId := max next.nextId (record.id + 1) }

/-- The `document.create` write. -/
def applyDocumentCreate (batch : List StorageWrite) (seq : Seq) (next : StorageState)
    (write : Option DocumentRecord) (version : Nat) (content : Option Json) :
    Expected StorageState := do
  let record ← present write "Document create write is incomplete"
  checkNewDocument batch next record
  let value ← present content "Document create write is incomplete"
  return addDocument seq next record version value

/-- Whether a write of the batch creates, changes or retires the document. -/
def touchesDocument (id : DocumentId) : StorageWrite → Bool
  | .documentCreate record _ _ | .documentCopy record _ => record.any fun record => record.id == id
  | .documentChange target _ _ _ | .documentRetire target => target == some id
  | _ => false

def forkSource (id : DocumentId) (problem : String) : Error :=
  validationError (ofString "Fork source document " ++ intText id ++ ofString problem)

/-- The copied record differs from its source in scope, kind, key, history or fork. -/
def copyMismatch (source record : DocumentRecord) : Bool :=
  source.scope != .conversation || record.scope != .conversation || source.kind != record.kind ||
    source.key != record.key || source.history != record.history || source.fork != record.fork

/-- The content a copy starts from; the source is read in the state before the batch. -/
def copiedContent (documents : OrdMap DocumentId StoredDocumentState) (batch : List StorageWrite)
    (record : DocumentRecord) (source : DocumentCopySource) : Expected StoredDocument :=
  if batch.any (touchesDocument source.id) then
    .error (forkSource source.id " is changed in the copy batch")
  else
    match documents.find source.id with
    | none => .error (forkSource source.id " cannot be read")
    | some stored =>
      match materialize stored source.at_ with
      | .error e => .error e
      | .ok none => .error (forkSource source.id " cannot be read")
      | .ok (some content) =>
        if copyMismatch stored.record record then
          .error (forkSource source.id " does not match the copied record")
        else .ok content

/-- The `document.copy` write. -/
def applyDocumentCopy (documents : OrdMap DocumentId StoredDocumentState)
    (batch : List StorageWrite) (seq : Seq) (next : StorageState) (write : Option DocumentRecord)
    (source : Option DocumentCopySource) : Expected StorageState := do
  let record ← present write "Document copy write is incomplete"
  checkNewDocument batch next record
  let source ← present source "Document copy write is incomplete"
  let content ← copiedContent documents batch record source
  return addDocument seq next record content.version content.value

/-- The stored incarnation that a change or a retirement targets. -/
def liveDocument (next : StorageState) (id : DocumentId) : Expected StoredDocumentState := do
  let stored ← present (next.documents.find id) "Unknown document"
  refuse stored.record.retiredAt.isSome "Document is retired"
  return stored

/-- The revisions a checkpoint base or a retirement keeps: none for a current-only incarnation. -/
def keptRevisions (stored : StoredDocumentState) : List DocumentRevision :=
  if documentIsCurrentOnly stored.record then [] else stored.revisions

/-- The revisions after a change; an empty batch of operations is a new base. -/
def changedRevisions (seq : Seq) (stored : StoredDocumentState) (version : Nat)
    (content : Option Json) (ops : OpBatch) : Expected (List DocumentRevision) :=
  if ops.isEmpty then do
    let value ← present content "Document change write is incomplete"
    return keptRevisions stored ++ [⟨seq, version, true, value, []⟩]
  else do
    let newest ← present stored.revisions.getLast? "Document delta has no base"
    refuse (newest.version != version) "Document version transition requires a base"
    let applied ← applyImmutable newest.value ops
    return stored.revisions ++ [⟨seq, version, false, applied, ops⟩]

/-- The `document.change` write. -/
def applyDocumentChange (seq : Seq) (next : StorageState) (target : Option DocumentId)
    (version : Nat) (content : Option Json) (ops : OpBatch) : Expected StorageState := do
  let id ← present target "Document change write has no id"
  let stored ← liveDocument next id
  let revisions ← changedRevisions seq stored version content ops
  return { next with documents := next.documents.insert id ⟨stored.record, revisions⟩ }

/-- The `document.retire` write. -/
def applyDocumentRetire (seq : Seq) (next : StorageState) (target : Option DocumentId) : Expected StorageState := do
  let id ← present target "Document retire write has no id"
  let stored ← liveDocument next id
  return { next with
    documents := next.documents.insert id
      ⟨{ stored.record with retiredAt := some seq }, keptRevisions stored⟩ }

/-- A stored task of the same identity lives in another conversation. -/
def taskMoves (next : StorageState) (record : TaskRecord) : Bool :=
  (next.tasks.find record.id).any fun existing => existing.conversationId != record.conversationId

/-- The `task` write: the record is replaced wholesale. -/
def applyTask (next : StorageState) (write : Option TaskRecord) : Expected StorageState := do
  let record ← present write "Task write has no record"
  refuse (taskMoves next record) "Task cannot change conversations"
  return { next with
    tasks := next.tasks.insert record.id record
    nextId := max next.nextId (record.id + 1) }

/-- The `submission` write. -/
def applySubmission (next : StorageState) (write : Option SubmissionRecord) : Expected StorageState := do
  let record ← present write "Submission write has no record"
  return { next with
    submissions := next.submissions.insert record.id record
    nextId := max next.nextId (record.id + 1) }

/-- One write of a batch. `documents` are the documents before the batch and `next` the state that
the earlier writes of the batch produced. -/
def applyWrite (documents : OrdMap DocumentId StoredDocumentState) (batch : List StorageWrite)
    (seq : Seq) (consumeSeq : Bool) (next : StorageState) : StorageWrite → Expected StorageState
  | .conversation record => applyConversation consumeSeq next record
  | .entry record => applyEntry seq next record
  | .documentCreate record version value => applyDocumentCreate batch seq next record version value
  | .documentCopy record source => applyDocumentCopy documents batch seq next record source
  | .documentChange id version value ops => applyDocumentChange seq next id version value ops
  | .documentRetire id => applyDocumentRetire seq next id
  | .task record => applyTask next record
  | .submission record => applySubmission next record
  | .unknown => invalid "Unknown storage write"

/-- The writes of a batch in order, each on the tables the ones before it left. -/
def applyWrites (documents : OrdMap DocumentId StoredDocumentState) (batch : List StorageWrite)
    (seq : Seq) (consumeSeq : Bool) : StorageState → List StorageWrite → Expected StorageState
  | next, [] => .ok next
  | next, write :: rest => do
      let updated ← applyWrite documents batch seq consumeSeq next write
      applyWrites documents batch seq consumeSeq updated rest

def closedError (s : StorageState) : Error := ⟨.session, s.closedMessage⟩

/-- `StorageState::Impl::apply`, without its result sequence. -/
def applyBatch (s : StorageState) (writes : List StorageWrite) (seq : Seq) (consumeSeq : Bool) :
    Expected StorageState :=
  if s.closed then .error s.closedError
  else do
    let next ← applyWrites s.documents writes seq consumeSeq s writes
    return { next with nextSeq := max s.nextSeq (seq + 1) }

/-- `StorageState::apply`. -/
def apply (s : StorageState) (writes : List StorageWrite) (seq : Seq) : Expected StorageState :=
  s.applyBatch writes seq true

/-- `StorageState::apply_next`. -/
def applyNext (s : StorageState) (writes : List StorageWrite) : Expected StorageState :=
  s.applyBatch writes s.nextSeq true

/-- `StorageState::restore`: a fork is not checked against its parent's entries again. -/
def restore (s : StorageState) (writes : List StorageWrite) (seq : Seq) : Expected StorageState :=
  s.applyBatch writes seq false

/-- `StorageState::reserve_id`. -/
def reserveId (s : StorageState) : StorageState × Int := ({ s with nextId := s.nextId + 1 }, s.nextId)

/-- `StorageState::restore_high_water_marks`. -/
def restoreHighWaterMarks (s : StorageState) (nextId : Int) (nextSeq : Seq) : Expected StorageState :=
  if s.closed then .error s.closedError
  else .ok { s with nextId := max s.nextId nextId, nextSeq := max s.nextSeq nextSeq }

/-- `StorageState::close`. -/
def close (s : StorageState) : StorageState := { s with closed := true }

/-! ## Reads -/

def reading {α : Type} (s : StorageState) (read : Expected α) : Expected α :=
  if s.closed then .error s.closedError else read

/-- `StorageState::conversation`. -/
def conversation (s : StorageState) (id : ConversationId) : Expected (Option ConversationRecord) :=
  s.reading (.ok (s.conversations.find id))

/-- `StorageState::entry`. -/
def entry (s : StorageState) (id : EntryId) : Expected (Option StoredEntryState) :=
  s.reading (.ok (s.entries.find id))

/-- `StorageState::scan_conversations`. -/
def scanConversations (s : StorageState) (limit : Nat) : Expected (List ConversationRecord) :=
  s.reading (.ok ((s.conversationIds.filterMap s.conversations.find).take limit))

/-- The entries one conversation contributes below the cutoff, newest commit first. -/
def ownEntries (s : StorageState) (current : ConversationId) (cutoff : Option EntryId) : List EntryRecord :=
  (((s.entryIds current).reverse.filter fun id => cutoff.all fun at_ => decide (id ≤ at_)).filterMap
    s.entries.find).map StoredEntryState.record

def noConversation {α : Type} (id : ConversationId) : Expected α :=
  .error (validationError (ofString "Conversation " ++ intText id ++ ofString " does not exist"))

/-- The ancestry walk of `scan_entries`; every ancestor's cutoff is the one its child recorded. -/
def scanEntriesLoop (s : StorageState) :
    Nat → ConversationId → Option EntryId → List ConversationId → Expected (List EntryRecord)
  | 0, _, _, _ => invalid "Conversation ancestry contains a cycle"
  | fuel + 1, current, cutoff, visited =>
    match s.conversations.find current with
    | none => noConversation current
    | some record =>
      if visited.contains current then invalid "Conversation ancestry contains a cycle"
      else
        match record.parent with
        | none => .ok (s.ownEntries current cutoff)
        | some parent => do
            let later ← scanEntriesLoop s fuel parent.conversationId (some parent.at_)
              (current :: visited)
            return s.ownEntries current cutoff ++ later

/-- `StorageState::scan_entries`: the `limit` newest visible entries, newest identity first. -/
def scanEntries (s : StorageState) (conversationId : ConversationId) (limit : Nat) : Expected (List EntryRecord) :=
  s.reading (do
    let visible ← s.scanEntriesLoop (s.conversations.size + 1) conversationId none []
    let ordered := visible.insertionSort fun left right => left.id ≤ right.id
    return (ordered.drop (ordered.length - limit)).reverse)

/-- `StorageState::scan_conversation_documents`. -/
def scanConversationDocuments (s : StorageState) (conversationId : ConversationId)
    (point : DocumentPoint) (limit : Nat) : Expected (List DocumentRecord) :=
  s.reading (.ok (((s.documents.values.map StoredDocumentState.record).filter fun record =>
    record.conversationId == some conversationId && record.scope == .conversation &&
      isAliveAt record point).take limit))

/-- `StorageState::find_document`: the newest incarnation alive at the point. -/
def findDocument (s : StorageState) (kind : Bytes) (address : DocumentAddress)
    (point : DocumentPoint) : Expected (Option DocumentRecord) :=
  s.reading (.ok (((s.documentIds (documentAddressKey kind address)).reverse.filterMap s.documents.find).map
      StoredDocumentState.record |>.find? fun record => isAliveAt record point))

/-- `StorageState::document`. -/
def document (s : StorageState) (id : DocumentId) (point : DocumentPoint) : Expected (Option StoredDocument) :=
  s.reading
    (match s.documents.find id with
      | none => .ok none
      | some stored => materialize stored point)

/-- `StorageState::task`. -/
def task (s : StorageState) (id : TaskId) : Expected (Option TaskRecord) := s.reading (.ok (s.tasks.find id))

/-- `StorageState::scan_tasks`. -/
def scanTasks (s : StorageState) (limit : Nat) : Expected (List TaskRecord) :=
  s.reading (.ok (s.tasks.values.take limit))

/-- `StorageState::submission`. -/
def submission (s : StorageState) (id : SubmissionId) : Expected (Option SubmissionRecord) :=
  s.reading (.ok (s.submissions.find id))

/-- `StorageState::submission_by_request`: the newest holder of a conversation-scoped key. -/
def submissionByRequest (s : StorageState) (conversationId : ConversationId) (requestId : Bytes) :
    Expected (Option SubmissionRecord) :=
  s.reading (.ok (s.submissions.values.filter fun record =>
    record.conversationId == conversationId && record.requestId == some requestId).getLast?)

/-- `StorageState::scan_submissions`. -/
def scanSubmissions (s : StorageState) (limit : Nat) : Expected (List SubmissionRecord) :=
  s.reading (.ok (s.submissions.values.take limit))

/-! ## What each write does -/

section Inversion

variable {documents : OrdMap DocumentId StoredDocumentState} {batch : List StorageWrite} {seq : Seq}
  {consumeSeq : Bool} {next next' : StorageState}

theorem applyConversation_eq_ok {write : Option ConversationRecord} :
    applyConversation consumeSeq next write = .ok next' ↔
      ∃ record, write = some record ∧ next.conversations.contains record.id = false ∧
        forkParentMissing consumeSeq next record = false ∧ { next with
          conversations := next.conversations.insert record.id record
          conversationIds := next.conversationIds ++ [record.id]
          nextId := max next.nextId (record.id + 1) } = next' := by
  simp [applyConversation]

theorem applyEntry_eq_ok {write : Option EntryRecord} : applyEntry seq next write = .ok next' ↔
      ∃ record, write = some record ∧ next.entries.contains record.id = false ∧
        next.conversations.contains record.conversationId = true ∧ headHidden next record = false ∧
        checkEdits next record.conversationId record.edits = .ok () ∧ { next with
          entries := next.entries.insert record.id ⟨record, seq⟩
          entryIdsByConversation := next.entryIdsByConversation.insert record.conversationId
            (next.entryIds record.conversationId ++ [record.id])
          nextId := max next.nextId (record.id + 1) } = next' := by
  have hunit : ∀ x : Expected Unit, (∃ u, x = .ok u) ↔ x = .ok () := fun x => ⟨fun ⟨_, h⟩ => h, fun h => ⟨(), h⟩⟩
  simp [applyEntry, hunit]

theorem checkNewDocument_eq_ok {record : DocumentRecord} {u : Unit} : checkNewDocument batch next record = .ok u ↔
      next.documents.contains record.id = false ∧ addressOccupied batch next record = false := by
  simp [checkNewDocument]

variable {content : Option Json} {version : Nat}

theorem applyDocumentCreate_eq_ok {write : Option DocumentRecord} :
    applyDocumentCreate batch seq next write version content = .ok next' ↔
      ∃ record value, write = some record ∧ content = some value ∧
        next.documents.contains record.id = false ∧ addressOccupied batch next record = false ∧
        addDocument seq next record version value = next' := by
  simp only [applyDocumentCreate, bind_eq_ok, present_eq_ok, checkNewDocument_eq_ok, pure_eq_ok]
  constructor
  · rintro ⟨record, hwrite, _, ⟨hnew, hfree⟩, value, hcont, heq⟩
    exact ⟨record, value, hwrite, hcont, hnew, hfree, heq⟩
  · rintro ⟨record, value, hwrite, hcont, hnew, hfree, heq⟩
    exact ⟨record, hwrite, (), ⟨hnew, hfree⟩, value, hcont, heq⟩

theorem applyDocumentCopy_eq_ok {write : Option DocumentRecord} {source : Option DocumentCopySource} :
    applyDocumentCopy documents batch seq next write source = .ok next' ↔
      ∃ record src content, write = some record ∧ source = some src ∧
        next.documents.contains record.id = false ∧ addressOccupied batch next record = false ∧
        copiedContent documents batch record src = .ok content ∧
        addDocument seq next record content.version content.value = next' := by
  simp only [applyDocumentCopy, bind_eq_ok, present_eq_ok, checkNewDocument_eq_ok, pure_eq_ok]
  constructor
  · rintro ⟨record, hwrite, _, ⟨hnew, hfree⟩, src, hsource, content, hcont, heq⟩
    exact ⟨record, src, content, hwrite, hsource, hnew, hfree, hcont, heq⟩
  · rintro ⟨record, src, content, hwrite, hsource, hnew, hfree, hcont, heq⟩
    exact ⟨record, hwrite, (), ⟨hnew, hfree⟩, src, hsource, content, hcont, heq⟩

variable {stored : StoredDocumentState}

theorem liveDocument_eq_ok {id : DocumentId} :
    liveDocument next id = .ok stored ↔ next.documents.find id = some stored ∧ stored.record.retiredAt = none := by
  simp only [liveDocument, bind_eq_ok, present_eq_ok, refuse_eq_ok, pure_eq_ok]
  constructor
  · rintro ⟨stored', hfind, _, hlive, rfl⟩
    exact ⟨hfind, by simpa using hlive⟩
  · rintro ⟨hfind, hlive⟩
    exact ⟨stored, hfind, (), by simp [hlive], rfl⟩

variable {target : Option DocumentId}

theorem applyDocumentChange_eq_ok {ops : OpBatch} :
    applyDocumentChange seq next target version content ops = .ok next' ↔
      ∃ id stored revisions, target = some id ∧ next.documents.find id = some stored ∧
        stored.record.retiredAt = none ∧ changedRevisions seq stored version content ops = .ok revisions ∧
        { next with documents := next.documents.insert id ⟨stored.record, revisions⟩ } = next' := by
  simp only [applyDocumentChange, bind_eq_ok, present_eq_ok, liveDocument_eq_ok, pure_eq_ok]
  constructor
  · rintro ⟨id, htgt, stored, ⟨hfind, hlive⟩, revisions, hrevs, heq⟩
    exact ⟨id, stored, revisions, htgt, hfind, hlive, hrevs, heq⟩
  · rintro ⟨id, stored, revisions, htgt, hfind, hlive, hrevs, heq⟩
    exact ⟨id, htgt, stored, ⟨hfind, hlive⟩, revisions, hrevs, heq⟩

/-- A change appends a base, or appends a delta that applies to the newest revision. -/
theorem changedRevisions_eq_ok {ops : OpBatch} {revisions : List DocumentRevision} :
    changedRevisions seq stored version content ops = .ok revisions ↔ (ops = [] ∧ ∃ value, content = some value ∧
        keptRevisions stored ++ [⟨seq, version, true, value, []⟩] = revisions) ∨
      (ops ≠ [] ∧ ∃ newest applied, stored.revisions.getLast? = some newest ∧
        newest.version = version ∧ applyImmutable newest.value ops = .ok applied ∧
        stored.revisions ++ [⟨seq, version, false, applied, ops⟩] = revisions) := by
  rw [changedRevisions]
  cases ops with
  | nil => simp
  | cons op rest => simp

theorem applyDocumentRetire_eq_ok : applyDocumentRetire seq next target = .ok next' ↔
      ∃ id stored, target = some id ∧ next.documents.find id = some stored ∧ stored.record.retiredAt = none ∧
        { next with
          documents := next.documents.insert id
            ⟨{ stored.record with retiredAt := some seq }, keptRevisions stored⟩ } = next' := by
  simp only [applyDocumentRetire, bind_eq_ok, present_eq_ok, liveDocument_eq_ok, pure_eq_ok]
  constructor
  · rintro ⟨id, htgt, stored, ⟨hfind, hlive⟩, heq⟩
    exact ⟨id, stored, htgt, hfind, hlive, heq⟩
  · rintro ⟨id, stored, htgt, hfind, hlive, heq⟩
    exact ⟨id, htgt, stored, ⟨hfind, hlive⟩, heq⟩

theorem applyTask_eq_ok {write : Option TaskRecord} :
    applyTask next write = .ok next' ↔ ∃ record, write = some record ∧ taskMoves next record = false ∧ { next with
          tasks := next.tasks.insert record.id record
          nextId := max next.nextId (record.id + 1) } = next' := by
  simp [applyTask]

theorem applySubmission_eq_ok {write : Option SubmissionRecord} :
    applySubmission next write = .ok next' ↔ ∃ record, write = some record ∧ { next with
          submissions := next.submissions.insert record.id record
          nextId := max next.nextId (record.id + 1) } = next' := by
  simp [applySubmission]

/-- What a write that is applied found, and what it leaves. -/
inductive Applied (documents : OrdMap DocumentId StoredDocumentState) (batch : List StorageWrite)
    (seq : Seq) (consumeSeq : Bool) (next : StorageState) : StorageWrite → StorageState → Prop where
  | conversation (record : ConversationRecord) (hnew : next.conversations.contains record.id = false)
      (hparent : forkParentMissing consumeSeq next record = false) :
      Applied documents batch seq consumeSeq next (.conversation (some record))
        { next with
          conversations := next.conversations.insert record.id record
          conversationIds := next.conversationIds ++ [record.id]
          nextId := max next.nextId (record.id + 1) }
  | entry (record : EntryRecord) (hnew : next.entries.contains record.id = false)
      (hhead : headHidden next record = false)
      (hedits : checkEdits next record.conversationId record.edits = .ok ()) :
      Applied documents batch seq consumeSeq next (.entry (some record))
        { next with
          entries := next.entries.insert record.id ⟨record, seq⟩
          entryIdsByConversation := next.entryIdsByConversation.insert record.conversationId
            (next.entryIds record.conversationId ++ [record.id])
          nextId := max next.nextId (record.id + 1) }
  | documentCreate (record : DocumentRecord) (version : Nat) (value : Json)
      (hnew : next.documents.contains record.id = false)
      (hfree : addressOccupied batch next record = false) :
      Applied documents batch seq consumeSeq next (.documentCreate (some record) version (some value))
        (addDocument seq next record version value)
  | documentCopy (record : DocumentRecord) (source : DocumentCopySource) (content : StoredDocument)
      (hnew : next.documents.contains record.id = false)
      (hfree : addressOccupied batch next record = false) :
      Applied documents batch seq consumeSeq next (.documentCopy (some record) (some source))
        (addDocument seq next record content.version content.value)
  | documentChange (id : DocumentId) (version : Nat) (value : Option Json) (ops : OpBatch)
      (stored : StoredDocumentState) (revisions : List DocumentRevision)
      (hstored : next.documents.find id = some stored) (hlive : stored.record.retiredAt = none)
      (hrevisions : changedRevisions seq stored version value ops = .ok revisions) :
      Applied documents batch seq consumeSeq next (.documentChange (some id) version value ops)
        { next with documents := next.documents.insert id ⟨stored.record, revisions⟩ }
  | documentRetire (id : DocumentId) (stored : StoredDocumentState)
      (hstored : next.documents.find id = some stored) (hlive : stored.record.retiredAt = none) :
      Applied documents batch seq consumeSeq next (.documentRetire (some id))
        { next with
          documents := next.documents.insert id
            ⟨{ stored.record with retiredAt := some seq }, keptRevisions stored⟩ }
  | task (record : TaskRecord) : Applied documents batch seq consumeSeq next (.task (some record))
      { next with
        tasks := next.tasks.insert record.id record
        nextId := max next.nextId (record.id + 1) }
  | submission (record : SubmissionRecord) :
      Applied documents batch seq consumeSeq next (.submission (some record))
        { next with
          submissions := next.submissions.insert record.id record
          nextId := max next.nextId (record.id + 1) }

variable {write : StorageWrite}

theorem applied (h : applyWrite documents batch seq consumeSeq next write = .ok next') :
    Applied documents batch seq consumeSeq next write next' := by
  cases write with
  | conversation record =>
    obtain ⟨r, rfl, hnew, hpar, rfl⟩ := applyConversation_eq_ok.1 h
    exact .conversation r hnew hpar
  | entry record =>
    obtain ⟨r, rfl, hnew, -, hhead, hedits, rfl⟩ := applyEntry_eq_ok.1 h
    exact .entry r hnew hhead hedits
  | documentCreate record version value =>
    obtain ⟨r, v, rfl, rfl, hnew, hfree, rfl⟩ := applyDocumentCreate_eq_ok.1 h
    exact .documentCreate r version v hnew hfree
  | documentCopy record source =>
    obtain ⟨r, src, content, rfl, rfl, hnew, hfree, -, rfl⟩ := applyDocumentCopy_eq_ok.1 h
    exact .documentCopy r src content hnew hfree
  | documentChange id version value ops =>
    obtain ⟨i, stored, revisions, rfl, hstored, hlive, hrevs, rfl⟩ := applyDocumentChange_eq_ok.1 h
    exact .documentChange i version value ops stored revisions hstored hlive hrevs
  | documentRetire id =>
    obtain ⟨i, stored, rfl, hstored, hlive, rfl⟩ := applyDocumentRetire_eq_ok.1 h
    exact .documentRetire i stored hstored hlive
  | task record =>
    obtain ⟨r, rfl, -, rfl⟩ := applyTask_eq_ok.1 h
    exact .task r
  | submission record =>
    obtain ⟨r, rfl, rfl⟩ := applySubmission_eq_ok.1 h
    exact .submission r
  | unknown => simp [applyWrite, invalid] at h

theorem applyWrites_cons_eq_ok {rest : List StorageWrite} :
    applyWrites documents batch seq consumeSeq next (write :: rest) = .ok next' ↔
      ∃ updated, applyWrite documents batch seq consumeSeq next write = .ok updated ∧
        applyWrites documents batch seq consumeSeq updated rest = .ok next' := by
  simp [applyWrites]

variable {s : StorageState} {writes : List StorageWrite}

theorem applyBatch_eq_ok : s.applyBatch writes seq consumeSeq = .ok next' ↔
      s.closed = false ∧ ∃ next, applyWrites s.documents writes seq consumeSeq s writes = .ok next ∧
        { next with nextSeq := max s.nextSeq (seq + 1) } = next' := by
  rw [applyBatch]
  cases s.closed <;> simp

section

variable (h : applyWrite documents batch seq consumeSeq next write = .ok next')
include h

theorem applyWrite_frame :
    next'.closed = next.closed ∧ next'.nextSeq = next.nextSeq ∧ next'.closedMessage = next.closedMessage := by
  cases applied h <;> exact ⟨rfl, rfl, rfl⟩

theorem applyWrite_nextId :
    next.nextId ≤ next'.nextId := by
  cases applied h <;> first | exact le_max_left _ _ | exact le_refl _

end

/-- **Induction over a batch.** What holds before the batch and is kept by every write that
succeeds, holds after the batch. -/
theorem applyWrites_induction {P : StorageState → Prop}
    (hstep : ∀ write ∈ writes, ∀ a b, applyWrite documents batch seq consumeSeq a write = .ok b → P a → P b)
    (hinit : P next) (h : applyWrites documents batch seq consumeSeq next writes = .ok next') : P next' := by
  induction writes generalizing next with
  | nil =>
    simp only [applyWrites, Except.ok.injEq] at h
    exact h ▸ hinit
  | cons write rest ih =>
    obtain ⟨updated, hwrite, hrest⟩ := applyWrites_cons_eq_ok.1 h
    exact ih (fun w hw => hstep w (List.mem_cons_of_mem _ hw)) (hstep write List.mem_cons_self _ _ hwrite hinit) hrest

theorem applyWrite_recordId (h : applyWrite documents batch seq consumeSeq next write = .ok next') {id : Int}
    (hid : write.recordId = some id) : id < next'.nextId := by
  have hlt : id < max next.nextId (id + 1) := lt_of_lt_of_le (lt_add_one id) (le_max_right _ _)
  cases applied h
  case documentChange => cases hid
  case documentRetire => cases hid
  all_goals
    cases hid
    exact hlt

theorem applyWrites_recordIds (h : applyWrites documents batch seq consumeSeq next writes = .ok next') :
    next.nextId ≤ next'.nextId ∧ ∀ id ∈ recordIds writes, id < next'.nextId := by
  induction writes generalizing next with
  | nil =>
    rw [applyWrites, Except.ok.injEq] at h
    exact ⟨le_of_eq (congrArg _ h), nofun⟩
  | cons write rest ih =>
    obtain ⟨updated, hwrite, hrest⟩ := applyWrites_cons_eq_ok.1 h
    obtain ⟨hle, hbelow⟩ := ih hrest
    refine ⟨le_trans (applyWrite_nextId hwrite) hle, ?_⟩
    intro id hid
    rw [recordIds, List.filterMap_cons] at hid
    cases hrec : write.recordId with
    | none =>
      rw [hrec] at hid
      exact hbelow id hid
    | some other =>
      rw [hrec] at hid
      rcases List.mem_cons.1 hid with rfl | hid
      · exact lt_of_lt_of_le (applyWrite_recordId hwrite hrec) hle
      · exact hbelow id hid

theorem applyBatch_recordIds (h : s.applyBatch writes seq consumeSeq = .ok next') :
    s.nextId ≤ next'.nextId ∧ ∀ id ∈ recordIds writes, id < next'.nextId := by
  obtain ⟨-, after, hwrites, rfl⟩ := applyBatch_eq_ok.1 h
  have hafter := applyWrites_recordIds hwrites
  exact hafter

theorem applyBatch_closed (h : s.applyBatch writes seq consumeSeq = .ok next') : next'.closed = false := by
  obtain ⟨hopen, after, hwrites, rfl⟩ := applyBatch_eq_ok.1 h
  have hafter : after.closed = false := applyWrites_induction (P := fun n => n.closed = false)
      (fun _ _ _ _ hok ha => by rw [(applyWrite_frame hok).1]; exact ha) hopen hwrites
  exact hafter

end Inversion

end StorageState

end CodingHarness.Durable
