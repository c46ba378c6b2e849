import CodingHarness.Durable.EntryCodec
import CodingHarness.Durable.StorageState
import Mathlib.Data.Prod.Lex

/-!
# The SQLite backend

The tables of the database, the commit that writes them, the mint that advances the metadata row and
the recovery that rebuilds the state from them. A `BEGIN IMMEDIATE … COMMIT` of the source is one
step here: a failed statement rolls back, so the database of a failed call is the one before it.
Every text that `as_string` writes passes `json_valid`; the other constraints of the tables are
checked where a row is inserted.
-/

namespace CodingHarness.Durable

open Library Support Chord

/-! ## Tables -/

/-- The `record_type` of an ID claim. -/
inductive RecordType where
  | conversation
  | entry
  | task
  | submission
  | document
  deriving DecidableEq

/-- A row of `conversations`. -/
structure ConversationRow where
  id : ConversationId
  ownerConversationId : Option ConversationId
  ownerTaskId : Option TaskId
  record : Bytes
  deriving DecidableEq

/-- A row of `tasks`. -/
structure TaskRow where
  id : TaskId
  conversationId : ConversationId
  kind : Bytes
  status : Bytes
  abortRequested : Bool
  background : Bool
  record : Bytes
  deriving DecidableEq

/-- A row of `submissions`. -/
structure SubmissionRow where
  id : SubmissionId
  conversationId : ConversationId
  requestId : Option Bytes
  status : Bytes
  record : Bytes
  deriving DecidableEq

/-- A row of `documents`. -/
structure DocumentRow where
  id : DocumentId
  kind : Bytes
  family : Bool
  keyValue : Bytes
  scopeKind : Bytes
  ownerId : Int
  createdAt : Seq
  retiredAt : Option Seq
  record : Bytes
  deriving DecidableEq

/-- A row of `document_revisions`. -/
structure RevisionRow where
  base : Bool
  version : Nat
  content : Bytes
  deriving DecidableEq

/-- The tables; `nextId` and `nextSeq` are the columns of the metadata row. -/
structure Database where
  nextId : Int := 2
  nextSeq : Seq := 1
  recordIds : OrdMap Int RecordType := .empty
  conversations : OrdMap ConversationId ConversationRow := .empty
  entries : OrdMap EntryId EntryRow := .empty
  documents : OrdMap DocumentId DocumentRow := .empty
  revisions : OrdMap (DocumentId ×ₗ Seq) RevisionRow := .empty
  tasks : OrdMap TaskId TaskRow := .empty
  submissions : OrdMap SubmissionId SubmissionRow := .empty
  deriving DecidableEq

/-! ## Columns -/

def lowerHexDigit (n : Nat) : UInt8 := UInt8.ofNat (if n < 10 then 0x30 + n else 0x57 + n)

/-- The escape of one byte of an indexed string. -/
def encodeIndexedByte (byte : UInt8) : Bytes := if byte = 0x22 then [0x5C, 0x22]
  else if byte = 0x5C then [0x5C, 0x5C]
  else if byte = 0x08 then [0x5C, 0x62]
  else if byte = 0x0C then [0x5C, 0x66]
  else if byte = 0x0A then [0x5C, 0x6E]
  else if byte = 0x0D then [0x5C, 0x72]
  else if byte = 0x09 then [0x5C, 0x74]
  else if byte < 0x20 then
    ofString "\\u00" ++ [lowerHexDigit (byte.toNat / 16), lowerHexDigit (byte.toNat % 16)]
  else [byte]

def encodeIndexedString (value : Bytes) : Bytes := 0x22 :: (value.flatMap encodeIndexedByte ++ [0x22])

/-- Whether the first quote that is not escaped is the last byte, with no control byte before it. -/
def closesAtEnd : Bool → Bytes → Bool
  | _, [] => false
  | true, _ :: rest => closesAtEnd false rest
  | false, byte :: rest =>
    if byte = 0x5C then closesAtEnd true rest
    else if byte = 0x22 then rest.isEmpty
    else if byte < 0x20 then false
    else closesAtEnd false rest

def decodeIndexedString : Bytes → Option Bytes
  | 0x22 :: rest =>
    if closesAtEnd false rest then (readJson (0x22 :: rest)).toOption.bind Json.asString else none
  | _ => none

/-- The `fork` member of a persisted document record. -/
def persistedForkName : DocumentFork → Bytes
  | .asOf => "asOf"
  | .initial => "initial"
  | .current => "current"

/-- The members of `encode_document_record`. -/
def persistedDocumentMembers (record : DocumentRecord) (createdAt : Seq) : JsonObject Json :=
  field "id" (number record.id) ++
  field "kind" (.string record.kind) ++
  field "createdAt" (number createdAt) ++
  optionalField "key" .string record.key ++
  field "scope" (.object (field "kind" (.string (documentScopeName record.scope)) ++
      optionalField "conversationId" number record.conversationId ++
      optionalField "taskId" number record.taskId)) ++
  (if record.scope = .conversation then
    field "history" (.string (if record.history = .rewindable then "rewindable" else "latest")) ++
      field "fork" (.string (persistedForkName record.fork))
  else []) ++
  optionalField "retiredAt" number record.retiredAt

/-- `ops_json`. -/
def opsText (ops : OpBatch) : Bytes := writeJson (opsValue ops)

def ownerColumn (record : DocumentRecord) : Int := match record.taskId with
  | some taskId => taskId
  | none => record.conversationId.getD 0

/-! ## Commit -/

/-- The error of a statement that a constraint stops. -/
def stepFailed : Bytes := "SQLite step failed"

/-- The statuses the table `tasks` allows. -/
def taskStatuses : List Bytes := ["pending", "running", "waiting", "completing", "terminal"].map ofString

/-- The statuses the table `submissions` allows. -/
def submissionStatuses : List Bytes := ["queued", "placed", "done", "unanswered"].map ofString

namespace Database

/-- `INSERT INTO record_ids`. -/
def claim (db : Database) (id : Int) (type : RecordType) : Expected Database := do
  refuse (db.recordIds.contains id) stepFailed
  return { db with recordIds := db.recordIds.insert id type }

/-- `INSERT OR IGNORE INTO record_ids`. -/
def claimOrIgnore (db : Database) (id : Int) (type : RecordType) : Database := if db.recordIds.contains id then db
  else { db with recordIds := db.recordIds.insert id type }

/-- The next identity after a record: `next_id = std::max(next_id, id + 1)`. -/
def raise (db : Database) (id : Int) : Database := { db with nextId := max db.nextId (id + 1) }

/-- The row of a `conversation` write. -/
def insertConversation (db : Database) (record : ConversationRecord) : Expected Database := do
  let db ← db.claim record.id .conversation
  refuse (db.conversations.contains record.id) stepFailed
  return { db.raise record.id with
    conversations := db.conversations.insert record.id
      ⟨record.id, record.owner.map ConversationOwner.conversationId,
        record.owner.map ConversationOwner.taskId, asText (encodeConversationRecord record)⟩ }

/-- The row of an `entry` write. -/
def insertEntry (seq : Seq) (db : Database) (record : EntryRecord) : Expected Database := do
  let db ← db.claim record.id .entry
  refuse (db.entries.contains record.id) stepFailed
  return { db.raise record.id with entries := db.entries.insert record.id (entryRow seq record) }

/-- A row of `document_revisions`, one for every document and sequence. -/
def insertRevision (seq : Seq) (db : Database) (id : DocumentId) (row : RevisionRow) : Expected Database := do
  refuse (db.revisions.contains (toLex (id, seq))) stepFailed
  return { db with revisions := db.revisions.insert (toLex (id, seq)) row }

/-- The rows of a `document.create` write. -/
def insertDocument (seq : Seq) (db : Database) (record : DocumentRecord) (version : Nat)
    (value : Json) : Expected Database := do
  let db ← db.claim record.id .document
  refuse (db.documents.contains record.id) stepFailed
  let row : DocumentRow := {
    id := record.id
    kind := encodeIndexedString record.kind
    family := record.key.isSome
    keyValue := encodeIndexedString (record.key.getD [])
    scopeKind := documentScopeName record.scope
    ownerId := ownerColumn record
    createdAt := seq
    retiredAt := none
    record := asText (.object (persistedDocumentMembers record seq)) }
  let db := { db.raise record.id with documents := db.documents.insert record.id row }
  db.insertRevision seq record.id ⟨true, version, asText value⟩

/-- The row of a `document.change` write. -/
def insertChange (seq : Seq) (db : Database) (id : DocumentId) (version : Nat)
    (value : Option Json) (ops : OpBatch) : Expected Database :=
  db.insertRevision seq id
    ⟨ops.isEmpty, version, if ops.isEmpty then asText (value.getD .null) else opsText ops⟩

/-- The update of a `document.retire` write. `json_set` also adds `retiredAt` to the record text,
which no query reads once the column is set. -/
def retireDocument (seq : Seq) (db : Database) (id : DocumentId) : Expected Database := do
  let row ← present ((db.documents.find id).filter fun row => row.retiredAt.isNone)
    "Document retirement did not update one live record"
  return { db with documents := db.documents.insert id { row with retiredAt := some seq } }

/-- The row of a `task` write. The identity is claimed, but the next identity is not raised. -/
def upsertTask (db : Database) (task : TaskRecord) : Expected Database := do
  refuse (!taskStatuses.contains task.state.status) stepFailed
  let row : TaskRow := {
    id := task.id
    conversationId := task.conversationId
    kind := encodeIndexedString task.kind
    status := task.state.status
    abortRequested := task.abortRequested
    background := task.background
    record := asText (encodeTaskRecord task) }
  return { db with tasks := db.tasks.insert task.id row }.claimOrIgnore task.id .task

/-- The row of a `submission` write. -/
def upsertSubmission (db : Database) (submission : SubmissionRecord) : Expected Database := do
  let db := (db.claimOrIgnore submission.id .submission).raise submission.id
  refuse (!submissionStatuses.contains submission.status) stepFailed
  let row : SubmissionRow := {
    id := submission.id
    conversationId := submission.conversationId
    requestId := submission.requestId.map encodeIndexedString
    status := submission.status
    record := asText (encodeSubmissionRecord submission) }
  return { db with submissions := db.submissions.insert submission.id row }

/-- The statements of one write. The chain of types has no branch for `document.copy`. -/
def insertWrite (seq : Seq) (db : Database) : StorageWrite → Expected Database
  | .conversation (some record) => db.insertConversation record
  | .entry (some record) => db.insertEntry seq record
  | .documentCreate (some record) version (some value) => db.insertDocument seq record version value
  | .documentChange (some id) version value ops => db.insertChange seq id version value ops
  | .documentRetire (some id) => db.retireDocument seq id
  | .task (some task) => db.upsertTask task
  | .submission (some submission) => db.upsertSubmission submission
  | _ => .ok db

def insertWrites (seq : Seq) : Database → List StorageWrite → Expected Database
  | db, [] => .ok db
  | db, write :: rest => do
      let db ← db.insertWrite seq write
      insertWrites seq db rest

end Database

/-- `SqliteStorage::Impl`. -/
structure SqliteStorage where
  database : Database := {}
  state : StorageState := { closedMessage := "SQLite storage is closed" }
  deriving DecidableEq

namespace SqliteStorage

/-- `SqliteStorage::Impl::commit`. The batch is validated before the statements and applied to the
state after `COMMIT`, with the same result. -/
def commit (storage : SqliteStorage) (writes : List StorageWrite) : Expected (SqliteStorage × Seq) := do
  let seq := storage.database.nextSeq
  if storage.state.closed then .error storage.state.closedError
  else do
    refuse (seq < 1 || storage.database.nextId < 2) "Invalid SQLite allocator metadata"
    let state ← storage.state.apply writes seq
    let written ← storage.database.insertWrites seq writes
    return (⟨{ written with nextSeq := seq + 1 }, state⟩, seq)

/-- `SqliteStorage::mint_id`. -/
def mintId (storage : SqliteStorage) : Expected (SqliteStorage × Int) :=
  if storage.state.closed then .error storage.state.closedError
  else do
    let id := storage.database.nextId
    let state ← storage.state.restoreHighWaterMarks (id + 1) storage.state.nextSeq
    return (⟨{ storage.database with nextId := id + 1 }, state⟩, id)

/-- `SqliteStorage::close`. -/
def close (storage : SqliteStorage) : SqliteStorage := { storage with state := storage.state.close }

end SqliteStorage

/-! ## Recovery -/

namespace Database

def restoreRecordId (db : Database) (id : Int) (type : RecordType) : Expected Unit :=
  refuse (db.recordIds.find id != some type)
    "Persisted record ID is missing or claimed by another record type"

/-- The callback of a row of `conversations`. -/
def recoverConversation (db : Database) (state : StorageState) (row : ConversationRow) : Expected StorageState := do
  let parsed ← present (parseJson row.record).toOption "Invalid persisted conversation JSON"
  let record ← present (decodeConversationRecord parsed).toOption "Invalid persisted conversation"
  refuse (record.id != row.id) "Invalid persisted conversation"
  let state ← state.restore [.conversation (some record)] 1
  db.restoreRecordId record.id .conversation
  return state

/-- The callback of a row of `entries`. -/
def recoverEntry (db : Database) (state : StorageState) (row : EntryRow) : Expected StorageState := do
  let record ← decodeEntryRow row
  let state ← state.restore [.entry (some record)] row.commitSeq
  db.restoreRecordId record.id .entry
  return state

def checkForkParents (state : StorageState) : Expected Unit := refuse (state.conversations.values.any fun record =>
      record.parent.any fun parent => !state.entries.contains parent.at_)
    "Fork parent entry does not exist"

/-- The owner, history and fork that a persisted record states. -/
def decodeDocumentScope (object scope : JsonObject Json) (scopeKind : Bytes)
    (record : DocumentRecord) : Expected DocumentRecord :=
  if scopeKind = "conversation" then do
    let owner ← present (jsonInt scope "conversationId") "Invalid persisted document owner"
    return { record with
      conversationId := some owner
      history := if jsonStringMember object "history" = some (ofString "rewindable") then .rewindable
        else record.history
      fork := if jsonStringMember object "fork" = some (ofString "asOf") then .asOf
        else if jsonStringMember object "fork" = some (ofString "initial") then .initial
        else record.fork }
  else if scopeKind = "task" then do
    let owner ← present (jsonInt scope "taskId") "Invalid persisted document owner"
    return { record with taskId := some owner }
  else do
    refuse (scopeKind != "session") "Invalid persisted document scope"
    return record

/-- The record of a row of `documents`; `retired_at` is null in every row that is loaded. -/
def decodeDocumentRow (row : DocumentRow) : Expected DocumentRecord := do
  let parsed ← present (parseJson row.record).toOption "Invalid persisted document record"
  let object ← present parsed.asObject "Invalid persisted document record"
  let id ← present (jsonInt object "id") "Invalid persisted document record"
  let kind ← present (jsonStringMember object "kind") "Invalid persisted document record"
  let mismatch : Bytes := "Persisted document columns do not match its record"
  refuse (jsonInt object "createdAt" != some row.createdAt || id != row.id ||
    decodeIndexedString row.kind != some kind) mismatch
  let scope ← present (jsonObjectMember object "scope") "Invalid persisted document scope"
  let scopeKind ← present (jsonStringMember scope "kind") "Invalid persisted document scope"
  let record ← decodeDocumentScope object scope scopeKind
    { id := id, kind := kind, key := jsonStringMember object "key" }
  refuse (row.scopeKind != documentScopeName record.scope ||
    record.conversationId.any (· != row.ownerId) || record.taskId.any (· != row.ownerId) ||
    (record.conversationId.isNone && record.taskId.isNone && row.ownerId != 0) ||
    decodeIndexedString row.keyValue != some (record.key.getD []) ||
    row.family != record.key.isSome) mismatch
  return record

/-- What the revisions of one document have shown so far. -/
structure RevisionCursor where
  value : Json := .object []
  version : Nat := 0
  previous : Option Seq := none

/-- One revision of a document: the value it leads to. -/
def revisionValue (createdAt : Seq) (cursor : RevisionCursor) (seq : Seq) (row : RevisionRow) :
    Expected RevisionCursor := do
  refuse (row.version < 1 || seq < createdAt || cursor.previous.any (fun previous => seq ≤ previous) ||
    (cursor.previous.isNone && !row.base)) "Invalid persisted document revision"
  if row.base then do
    let value ← present (parseJson row.content).toOption "Invalid persisted document value"
    return ⟨value, row.version, some seq⟩
  else do
    refuse (row.version != cursor.version) "Invalid persisted document version transition"
    let encoded ← present (readJson row.content).toOption "Invalid persisted document delta JSON"
    let ops ← present (decodeOps encoded).toOption "Invalid persisted document delta"
    let value ← present (applyImmutable cursor.value ops).toOption "Invalid persisted document value"
    return ⟨value, cursor.version, some seq⟩

/-- The revisions of one document in order; every one is restored as a base. -/
def recoverRevisions (id : DocumentId) (createdAt : Seq) :
    RevisionCursor → StorageState → List ((DocumentId ×ₗ Seq) × RevisionRow) → Expected StorageState
  | cursor, state, [] => do
      refuse cursor.previous.isNone "Document revision history is incomplete"
      return state
  | cursor, state, (key, row) :: rest => do
      let seq := (ofLex key).2
      let cursor ← revisionValue createdAt cursor seq row
      let state ← state.restore [.documentChange (some id) row.version (some cursor.value) []] seq
      recoverRevisions id createdAt cursor state rest

/-- The callback of a row of `documents`. -/
def recoverDocument (db : Database) (state : StorageState) (row : DocumentRow) : Expected StorageState := do
  let record ← decodeDocumentRow row
  db.restoreRecordId record.id .document
  let state ← state.restore [.documentCreate (some record) 1 (some (.object []))] row.createdAt
  recoverRevisions record.id row.createdAt {} state
    (db.revisions.entries.filter fun revision => (ofLex revision.1).1 == record.id)

/-- The callback of a row of `tasks`. -/
def recoverTask (db : Database) (state : StorageState) (row : TaskRow) : Expected StorageState := do
  let parsed ← present (parseJson row.record).toOption "Invalid persisted task JSON"
  let task ← decodeTaskRecord parsed
  refuse (task.id != row.id) "Persisted task ID mismatch"
  refuse (decodeIndexedString row.kind != some task.kind)
    "Persisted task columns do not match its record"
  let state ← state.restore [.task (some task)] 1
  db.restoreRecordId row.id .task
  return state

def decodeRequestColumn : Option Bytes → Expected (Option Bytes)
  | none => .ok none
  | some text => do
      let decoded ← present (decodeIndexedString text)
        "Persisted submission columns do not match its record"
      return some decoded

/-- The callback of a row of `submissions`. -/
def recoverSubmission (db : Database) (state : StorageState) (row : SubmissionRow) : Expected StorageState := do
  let parsed ← present (parseJson row.record).toOption "Invalid persisted submission JSON"
  let submission ← decodeSubmissionRecord parsed
  let mismatch : Bytes := "Persisted submission columns do not match its record"
  refuse (submission.id != row.id || submission.conversationId != row.conversationId ||
    submission.status != row.status) mismatch
  let requestId ← decodeRequestColumn row.requestId
  refuse (submission.requestId != requestId) mismatch
  let state ← state.restore [.submission (some submission)] 1
  db.restoreRecordId row.id .submission
  return state

/-- Whether a claim names a record of its type and of no other claimed table. Tasks are not looked
up. -/
def claimMatches (db : Database) (id : Int) (type : RecordType) : Bool :=
  let conversation := db.conversations.contains id
  let entry := db.entries.contains id
  let document := db.documents.contains id
  let submission := db.submissions.contains id
  match type with
  | .conversation => conversation && !entry && !document && !submission
  | .entry => entry && !conversation && !document && !submission
  | .document => document && !conversation && !entry && !submission
  | .submission => submission && !conversation && !entry && !document
  | .task => true

/-- The query that counts unmatched records, claims and revisions finds none. -/
def matched (db : Database) : Bool :=
  (db.conversations.entries.all fun row => db.recordIds.find row.1 == some .conversation) &&
  (db.entries.entries.all fun row => db.recordIds.find row.1 == some .entry) &&
  (db.documents.entries.all fun row => db.recordIds.find row.1 == some .document) &&
  (db.submissions.entries.all fun row => db.recordIds.find row.1 == some .submission) &&
  (db.recordIds.entries.all fun claim => db.claimMatches claim.1 claim.2) &&
  (db.revisions.entries.all fun row => db.documents.contains (ofLex row.1).1) &&
  (db.documents.entries.all fun row => row.2.retiredAt.isSome ||
    db.revisions.entries.any fun revision => (ofLex revision.1).1 == row.1 && revision.2.base)

/-- One more than the greatest claimed identity, at least 2 for no claim. -/
def observedNextId (db : Database) : Int := match db.recordIds.entries.getLast? with
  | none => 2
  | some claim => claim.1 + 1

/-- One more than the greatest sequence of the tables. -/
def observedNextSeq (db : Database) : Seq := let afterAll : List Seq → Seq
    | [] => 1
    | seq :: rest => rest.foldl max seq + 1
  max (max (afterAll (db.entries.values.map EntryRow.commitSeq))
      (afterAll (db.revisions.entries.map fun row => (ofLex row.1).2)))
    (max (afterAll (db.documents.values.map DocumentRow.createdAt))
      (afterAll (db.documents.values.filterMap DocumentRow.retiredAt)))

end Database

namespace SqliteStorage

/-- `SqliteStorage::Impl::recover`, which `open` runs over the database of an earlier run. -/
def recover (db : Database) : Expected SqliteStorage := do
  let storage : SqliteStorage := {}
  let state ← db.conversations.values.foldlM db.recoverConversation storage.state
  let state ← (db.entries.values.insertionSort fun a b => a.commitSeq ≤ b.commitSeq).foldlM
    db.recoverEntry state
  Database.checkForkParents state
  let live := db.documents.values.filter fun row => row.retiredAt.isNone
  let state ← (live.insertionSort fun a b => a.createdAt ≤ b.createdAt).foldlM
    db.recoverDocument state
  let state ← db.tasks.values.foldlM db.recoverTask state
  let state ← db.submissions.values.foldlM db.recoverSubmission state
  refuse (!db.matched) "SQLite records, ID claims, and document revisions do not match"
  let nextId := max db.nextId db.observedNextId
  let nextSeq := max db.nextSeq db.observedNextSeq
  refuse (nextId < 2 || nextSeq < 1 || db.nextId < 2 || db.nextSeq < 1 || db.observedNextId < 2 ||
    db.observedNextSeq < 1) "Invalid SQLite allocator metadata"
  let state ← state.restoreHighWaterMarks nextId nextSeq
  return ⟨{ db with nextId := nextId, nextSeq := nextSeq }, state⟩

end SqliteStorage

end CodingHarness.Durable
