import CodingHarness.Chord.Tracker
import CodingHarness.Durable.StorageState
import CodingHarness.Library.Actions

/-!
# Transactions of a Session

A Session runs the callback of one commit at a time. The calls of a callback read the storage, mint
identities, load documents into the Session's cache and stage what the commit will write. A call that
fails keeps what it did before it failed and the callback may go on, so a call is an action whose
errors keep the state.

The callbacks of a definition are functions here. A staged document of the source carries a tracker
of its own with the one change that was begun on it; the change alone is kept, and its base is the
value of that tracker. The reads of a transaction stage nothing and are left out, with the flag that
refuses them after a write.
-/

namespace CodingHarness.Durable

open Library Support Chord

/-! ## Definitions -/

structure DocumentDefinition where
  kind : Bytes
  version : Nat := 1
  scope : DocumentScope := .session
  history : DocumentHistory := .latest
  fork : DocumentFork := .current
  family : Bool := false
  initial : Value := ⟨.null, Json.wf_null⟩
  familyInitial : Value → Value := id
  migrate : Option (Json → Nat → Value) := none
  checkpoint : Option (Json → OpBatch → Nat → Bool) := none

/-- `TaskDefinition`, as far as `create_task` reads it. -/
structure TaskDefinition where
  kind : Bytes
  version : Int := 1
  initial : Json → Json

/-- What `create_task` is told of a new task. -/
structure TaskOptions where
  conversationId : Option ConversationId := none
  owner : Option TaskId := none
  background : Bool := false
  abandonOnRestart : Bool := false
  checkpoint : Option Json := none

/-- `EntryHeadVariant`: an explicit head, or the entry that is appended. -/
inductive EntryHead where
  | entry (id : EntryId)
  | self

/-- The text that names an incarnation in an error. -/
def documentText (record : DocumentRecord) (problem : Bytes) : Error :=
  validationError (ofString "Document " ++ intText record.id ++ ofString " (" ++ record.kind
    ++ ofString ")" ++ problem)

def scopeMismatchError (record : DocumentRecord) : Error :=
  documentText record " does not match the supplied definition semantics"

def newerVersionError (record : DocumentRecord) (version definitionVersion : Nat) : Error :=
  documentText record (ofString " has newer version " ++ intText version ++ ofString " than "
    ++ intText definitionVersion)

def migrationRequiredError (record : DocumentRecord) (version : Nat) : Error :=
  documentText record (ofString " requires migration from version " ++ intText version)

/-- The scope of a stored record is the definition's, and so are the policies of a conversation document. -/
def checkRecordScope (definition : DocumentDefinition) (record : DocumentRecord) : Expected Unit :=
  if record.scope ≠ definition.scope then .error (scopeMismatchError record)
  else if record.scope = .conversation ∧ (record.history ≠ definition.history ∨ record.fork ≠ definition.fork) then
    .error (scopeMismatchError record)
  else .ok ()

/-- A stored value is not newer than the definition; an older one needs a migration. -/
def checkRecordVersion (definition : DocumentDefinition) (record : DocumentRecord) (version : Nat) :
    Expected Unit :=
  if definition.version < version then
    .error (newerVersionError record version definition.version)
  else if version < definition.version ∧ definition.migrate.isNone then
    .error (migrationRequiredError record version)
  else .ok ()

/-- The stored value, migrated to the version of the definition. -/
def materializeDocument (definition : DocumentDefinition) (record : DocumentRecord) (version : Nat)
    (value : Json) : Expected Json := do
  checkRecordScope definition record
  checkRecordVersion definition record version
  if version = definition.version then return value
  else
    match definition.migrate with
    | none => .error (migrationRequiredError record version)
    | some migrate => return (migrate value version).1

def DocumentDefinition.documentCreateRecord (definition : DocumentDefinition) (address : DocumentAddress)
    (id : DocumentId) : DocumentRecord :=
  let record : DocumentRecord :=
    { id := id
      kind := definition.kind
      conversationId := address.conversationId
      taskId := address.taskId
      key := address.key }
  if definition.scope = .conversation then
    { record with history := definition.history, fork := definition.fork }
  else record

/-- The text that names a kind in an error. -/
def kindText (definition : DocumentDefinition) (problem : Bytes) : Error :=
  validationError (ofString "Document " ++ definition.kind ++ problem)

/-- The address has the scope of the definition, and a key when it is a family. -/
def checkAddress (definition : DocumentDefinition) (address : DocumentAddress) : Expected Unit :=
  if address.scope ≠ definition.scope then
    .error (kindText definition (ofString " requires a " ++ documentScopeName definition.scope
      ++ ofString " address"))
  else if definition.family ≠ address.key.isSome then
    .error (kindText definition (" requires "
      ++ ofString (if definition.family then "a family key" else "no family key")))
  else .ok ()

/-! ## Staged work -/

/-- An entry of the Session's document cache. -/
structure CachedDocument where
  record : DocumentRecord
  value : Json
  valueVersion : Nat
  storedVersion : Nat
  deltasSinceBase : Nat

/-- An incarnation that the transaction has acquired, with its draft. -/
structure StagedDocument where
  record : DocumentRecord
  address : DocumentAddress
  kind : Bytes
  change : Option ChangeState
  created : Bool := false
  storedVersion : Nat
  deltasSinceBase : Nat
  retire : Bool := false
  definitionVersion : Nat
  checkpoint : Option (Json → OpBatch → Nat → Bool)
  forkSource : Option DocumentCopySource := none

/-- The address key of a staged document. -/
def StagedDocument.key (document : StagedDocument) : Bytes := documentAddressKey document.kind document.address

/-- A settlement. Its status is documented as `done` or `unanswered`, and nothing checks the text. -/
structure SubmissionSettlement where
  status : Bytes := []
  answer : Option EntryId := none
  reason : Option Bytes := none
  detail : Option Json := none

/-- `SubmissionChange`: a settlement, or the placement at an entry. -/
inductive SubmissionChange where
  | settle (id : SubmissionId) (settlement : SubmissionSettlement)
  | place (id : SubmissionId) (entry : EntryId)

def SubmissionChange.id : SubmissionChange → SubmissionId
  | .settle id _ => id
  | .place id _ => id

/-- `Transaction::Impl`. -/
structure Transaction where
  writes : List StorageWrite := []
  documents : List StagedDocument := []
  latestDocuments : OrdMap Bytes Nat := .empty
  stagedSubmissions : OrdMap SubmissionId SubmissionRecord := .empty
  submissionChanges : List SubmissionChange := []
  stagedTasks : OrdMap TaskId TaskRecord := .empty
  createdTasks : OrdMap TaskId Unit := .empty

/-! ## Watches -/

/-- A delivery to the listener of a watch. -/
structure DocumentFrame where
  value : Json
  ops : OpBatch

inductive WatchEndReason where
  | stopped
  | cancelled
  | sessionClosed
  | sessionFailed
  | retired
  | listenerError
  deriving DecidableEq

/-- `DocumentWatch::Impl`, with the frames its listener was called with. The acquisition context
appears as whether it has been cancelled. -/
structure DocumentWatch where
  value : Json
  observedVersion : Nat
  cancelled : Bool := false
  started : Bool := false
  stopped : Bool := false
  endReason : WatchEndReason := .stopped
  pending : List DocumentFrame := []
  received : List DocumentFrame := []

/-- `Session::Impl` with its storage. A watch is shared between its handle and the registry, so the
registry holds positions in the list of all watches. -/
structure Session where
  storage : StorageState
  cached : OrdMap Bytes CachedDocument := .empty
  watches : OrdMap Bytes (List Nat) := .empty
  handles : List DocumentWatch := []
  failed : Bool := false

abbrev SessionAction (α : Type) := EStateM Error Session α

namespace Session

/-- Run a check or a read of the storage. -/
def check {σ α : Type} (x : Expected α) : EStateM Error σ α := MonadExcept.ofExcept x

/-- `Storage::mint_id` of an open storage. -/
def mintId : SessionAction Int := fun s =>
  if s.storage.closed then .error s.storage.closedError s
  else .ok s.storage.reserveId.2 { s with storage := s.storage.reserveId.1 }

/-- The current content of an incarnation that was just found. -/
def readCurrent (storage : StorageState) (record : DocumentRecord) : Expected StoredDocument := do
  let stored ← storage.document record.id none
  match stored with
  | some committed => return committed
  | none =>
    .error (validationError (ofString "Current document " ++ intText record.id ++ ofString " ("
      ++ record.kind ++ ofString ") cannot be read"))

/-- The storage part of `load_document`. -/
def readDocument (storage : StorageState) (definition : DocumentDefinition)
    (address : DocumentAddress) : Expected (Option CachedDocument) := do
  let found ← storage.findDocument definition.kind address none
  match found with
  | none => return none
  | some record =>
    let committed ← readCurrent storage record
    let value ← materializeDocument definition committed.record committed.version committed.value
    return some ⟨committed.record, value, definition.version, committed.version, committed.deltasSinceBase⟩

/-- `load_document`: a cached value of another version is dropped and read again. -/
def loadDocument (definition : DocumentDefinition) (address : DocumentAddress) :
    SessionAction (Option CachedDocument) := do
  let key := documentAddressKey definition.kind address
  let cached := (← get).cached.find key
  if cached.any fun entry => entry.valueVersion == definition.version then return cached
  else
    modify fun s => { s with cached := s.cached.erase key }
    let loaded ← check (readDocument (← get).storage definition address)
    match loaded with
    | none => return none
    | some entry =>
      modify fun s => { s with cached := s.cached.insert key entry }
      return some entry

end Session

/-! ## Watch calls -/

namespace DocumentWatch

def sampleCancellation (watch : DocumentWatch) : DocumentWatch := if !watch.stopped && watch.cancelled then
    { watch with stopped := true, endReason := .cancelled, pending := [] }
  else watch

/-- The delivery of a batch of frames, one at a time, until the watch is stopped. -/
def deliver : List DocumentFrame → DocumentWatch → DocumentWatch
  | [], watch => watch
  | frame :: rest, watch =>
    let sampled := watch.sampleCancellation
    if sampled.stopped then sampled
    else
      deliver rest
        { sampled with value := frame.value, received := sampled.received ++ [frame] }

/-- The delivery of everything that is buffered. -/
def flush (watch : DocumentWatch) : DocumentWatch := deliver watch.pending { watch with pending := [] }

/-- `DocumentWatch::start`. -/
def start : EStateM Error DocumentWatch Unit := do
  modify sampleCancellation
  let watch ← get
  if watch.stopped then throw ⟨.session, "Watch is stopped"⟩
  else if watch.started then throw ⟨.session, "Watch is already started"⟩
  else modify fun watch => { watch with started := true }.flush

/-- `DocumentWatch::stop`. -/
def stop (watch : DocumentWatch) : DocumentWatch := let sampled := watch.sampleCancellation
  if sampled.stopped then sampled
  else { sampled with stopped := true, endReason := .stopped, pending := [] }

end DocumentWatch

namespace Session

/-- A call on a Session besides its commits. -/
inductive Call where
  | snapshot (definition : DocumentDefinition) (address : DocumentAddress)
  | watchDoc (definition : DocumentDefinition) (address : DocumentAddress)
  | start (watch : Nat)
  | stop (watch : Nat)
  | cancel (watch : Nat)

/-- `Session::watch_doc` under a context that is not cancelled: the watch of a committed incarnation
joins the registry. -/
def watchDoc (definition : DocumentDefinition) (address : DocumentAddress) : SessionAction Unit := do
  let loaded ← loadDocument definition address
  match loaded with
  | none => return ()
  | some entry =>
    let key := documentAddressKey definition.kind address
    modify fun s =>
      { s with
        watches := s.watches.insert key ((s.watches.find key).getD [] ++ [s.handles.length])
        handles := s.handles ++ [{ value := entry.value, observedVersion := entry.valueVersion }] }

/-- An action on the watch behind a handle. -/
def onWatch (index : Nat) (x : EStateM Error DocumentWatch Unit) : SessionAction Unit := fun s =>
  match s.handles[index]? with
  | none => .ok () s
  | some watch =>
    match x watch with
    | .ok _ updated => .ok () { s with handles := s.handles.set index updated }
    | .error e updated => .error e { s with handles := s.handles.set index updated }

def sessionFailedError : Error := ⟨.session, "Session failed after a storage error; close and reopen it"⟩

/-- One call. A failed Session serves no documents, but the handles of its watches still work. -/
def call : Call → SessionAction Unit
  | .snapshot definition address => do
      if (← get).failed then throw sessionFailedError
      else
        let _ ← loadDocument definition address
  | .watchDoc definition address => do
      if (← get).failed then throw sessionFailedError
      else watchDoc definition address
  | .start watch => onWatch watch DocumentWatch.start
  | .stop watch => onWatch watch (modify DocumentWatch.stop)
  | .cancel watch => onWatch watch (modify fun watch => { watch with cancelled := true })

end Session

/-! ## Transaction calls -/

/-- A Session with the transaction that a callback is staging on it. -/
structure Work where
  session : Session
  tx : Transaction := {}

abbrev WorkAction (α : Type) := EStateM Error Work α

/-- The part of a call on the Session below the transaction. -/
def onSession {α : Type} (x : SessionAction α) : WorkAction α :=
  zoom Work.session (fun w s => { w with session := s }) x

namespace Transaction

/-- The identity of a staged conversation. -/
def conversationOf : StorageWrite → Option ConversationId
  | .conversation (some record) => some record.id
  | _ => none

def taskOf : StorageWrite → Option TaskRecord
  | .task (some record) => some record
  | _ => none

/-- The transaction has staged the conversation. -/
def hasConversation (tx : Transaction) (id : ConversationId) : Bool :=
  tx.writes.any fun write => conversationOf write == some id

/-- `staged_task`: the first write of the task, not the latest. -/
def stagedTask (tx : Transaction) (id : TaskId) : Option TaskRecord :=
  (tx.writes.filterMap taskOf).find? fun record => record.id == id

/-- `current_task`: the last staged record of the task, else the stored one. -/
def currentTask (w : Work) (id : TaskId) : Expected (Option TaskRecord) := match w.tx.stagedTasks.find id with
  | some staged => .ok (some staged)
  | none => w.session.storage.task id

/-- The record status of a task that has ended. -/
def terminal : Bytes := "terminal"

/-- A conversation that is stored or staged. -/
def requireConversation (w : Work) (id : ConversationId) : Expected Unit := if w.tx.hasConversation id then .ok ()
  else do
    let stored ← w.session.storage.conversation id
    let _ ← present stored (ofString "Conversation " ++ intText id ++ ofString " does not exist")

def requireOpenTask (record : TaskRecord) (id : TaskId) : Expected Unit := refuse (record.state.status == terminal)
    (ofString "Task " ++ intText id ++ ofString " is terminal")

/-- The task of an address is not terminal, or its conversation exists. -/
def checkDocumentOwner (w : Work) (address : DocumentAddress) : Expected Unit :=
  match address.taskId, address.conversationId with
  | some id, _ =>
    match w.tx.stagedTask id with
    | some staged => requireOpenTask staged id
    | none => do
        let stored ← w.session.storage.task id
        let record ← present stored (ofString "Task " ++ intText id ++ ofString " does not exist")
        requireOpenTask record id
  | none, some id => requireConversation w id
  | none, none => .ok ()

def push (writes : List StorageWrite) : WorkAction Unit :=
  modify fun w => { w with tx.writes := w.tx.writes ++ writes }

def createRootConversation : WorkAction Unit := push [.conversation (some { id := 1 })]

/-- `create_conversation` without an owner. -/
def createConversation : WorkAction Unit := do
  let id ← onSession Session.mintId
  push [.conversation (some { id := id })]

/-- `create_conversation` below a task; the owner's liveness is judged at assembly. -/
def createOwnedConversation (owner : TaskId) : WorkAction Unit := do
  let found ← Session.check (currentTask (← get) owner)
  let record ← Session.check (present found
    (ofString "Conversation owner task " ++ intText owner ++ ofString " does not exist"))
  let id ← onSession Session.mintId
  push [.conversation (some { id := id, owner := some ⟨record.conversationId, owner⟩ })]

/-- A document that a fork copies, and the point it is read at. -/
structure Copy where
  record : DocumentRecord
  point : DocumentPoint

/-- The `gather` loop of `fork_conversation`, with the addresses it has met. -/
def gather (point : DocumentPoint) (policy : DocumentFork) :
    List DocumentRecord → List Bytes → List Copy → Expected (List Bytes × List Copy)
  | [], addresses, copies => .ok (addresses, copies)
  | source :: rest, addresses, copies =>
    if source.fork ≠ policy then gather point policy rest addresses copies
    else
      let address := source.kind ++ ofString "\n" ++ source.key.getD []
      if addresses.contains address then
        invalid (ofString "Multiple documents share fork address " ++ source.kind)
      else gather point policy rest (address :: addresses) (copies ++ [⟨source, point⟩])

/-- `SIZE_MAX` as a scan limit. -/
def noLimit : Nat := 2 ^ 64 - 1

/-- The documents that a fork of `parent` at an entry copies. -/
def forkCopies (storage : StorageState) (parent : ConversationId) (at_ : EntryId) : Expected (List Copy) := do
  let found ← storage.conversation parent
  let _ ← present found (ofString "Conversation " ++ intText parent ++ ofString " does not exist")
  let visible ← storage.scanEntries parent noLimit
  let selected ← present (visible.find? fun entry => entry.id == at_)
    (ofString "Entry " ++ intText at_ ++ ofString " is not visible from conversation " ++ intText parent)
  let found ← storage.entry at_
  let stored ← present found "Fork entry does not exist"
  let asOf ← storage.scanConversationDocuments selected.conversationId (some stored.commitSeq) noLimit
  let current ← storage.scanConversationDocuments parent none noLimit
  let (addresses, copies) ← gather (some stored.commitSeq) .asOf asOf [] []
  let (_, copies) ← gather none .current current addresses copies
  return copies

/-- The `document.copy` writes of a fork, each with a fresh identity. -/
def copyWrites (conversation : ConversationId) : List Copy → SessionAction (List StorageWrite)
  | [] => pure []
  | copy :: rest => do
      let id ← Session.mintId
      let writes ← copyWrites conversation rest
      return .documentCopy
        (some { copy.record with
          id := id, createdAt := 0, retiredAt := none, conversationId := some conversation })
        (some ⟨copy.record.id, copy.point⟩) :: writes

/-- `fork_conversation`: the copies are chosen before the conversation gets its identity. -/
def forkConversation (parent : ConversationId) (at_ : EntryId) : WorkAction Unit := do
  let copies ← Session.check (forkCopies (← get).session.storage parent at_)
  let id ← onSession Session.mintId
  let writes ← onSession (copyWrites id copies)
  push (.conversation (some { id := id, parent := some ⟨parent, at_⟩ }) :: writes)

/-- `append_entry`: an entry may be its own head. -/
def appendEntry (conversationId : ConversationId) (kind : Bytes) (data : Json)
    (head : Option EntryHead) (model : List Json) (byTaskId : Option TaskId)
    (edits : List ContextEdit) : WorkAction Unit := do
  let id ← onSession Session.mintId
  let resolved := head.map fun head =>
    match head with
    | .entry existing => existing
    | .self => id
  push [.entry (some ⟨id, conversationId, kind, data, resolved, model, edits, byTaskId⟩)]

/-! ### Documents -/

/-- Stage a document as the newest of its address. -/
def stage (document : StagedDocument) : WorkAction Unit := modify fun w =>
    { w with
      tx.documents := w.tx.documents ++ [document]
      tx.latestDocuments := w.tx.latestDocuments.insert document.key w.tx.documents.length }

/-- The newest staged document of an address. -/
def latest (tx : Transaction) (key : Bytes) : Option StagedDocument :=
  (tx.latestDocuments.find key).bind fun index => tx.documents[index]?

/-- A staged incarnation with an open draft on a value. -/
def stagedDraft (definition : DocumentDefinition) (address : DocumentAddress)
    (record : DocumentRecord) (value : Json) (created : Bool) (storedVersion deltasSinceBase : Nat) :
    StagedDocument where
  record := record
  address := address
  kind := definition.kind
  change := some { base := value, candidate := value }
  created := created
  storedVersion := storedVersion
  deltasSinceBase := deltasSinceBase
  definitionVersion := definition.version
  checkpoint := definition.checkpoint

/-- The committed incarnation that an acquisition starts from; a retirement staged before makes it
create the replacement instead. -/
def loadForDraft (definition : DocumentDefinition) (address : DocumentAddress) (retiredInTx : Bool) :
    WorkAction (Option CachedDocument) :=
  if retiredInTx then pure none else onSession (Session.loadDocument definition address)

/-- The common part of the two `doc` operations: one draft for each address, loaded when the
incarnation exists and created otherwise. -/
def acquire (definition : DocumentDefinition) (address : DocumentAddress) (initial : Value) : WorkAction Unit := do
  Session.check (checkDocumentOwner (← get) address)
  let latest := (← get).tx.latest (documentAddressKey definition.kind address)
  if latest.any fun staged => !staged.retire && staged.change.isSome then return ()
  else
    let loaded ← loadForDraft definition address (latest.any StagedDocument.retire)
    match loaded with
    | some entry =>
      Session.check (checkRecordScope definition entry.record)
      Session.check (checkRecordVersion definition entry.record entry.storedVersion)
      stage (stagedDraft definition address entry.record entry.value false entry.storedVersion entry.deltasSinceBase)
    | none =>
      let id ← onSession Session.mintId
      stage (stagedDraft definition address (definition.documentCreateRecord address id) initial.1
        true definition.version 0)

/-- `doc` of a singleton. -/
def doc (definition : DocumentDefinition) (address : DocumentAddress) : WorkAction Unit := do
  Session.check (checkAddress definition address)
  if definition.family then
    throw (kindText definition " requires a family seed to create a member")
  else acquire definition address definition.initial

/-- `doc` of a family member with the caller's seed. -/
def docFrom (definition : DocumentDefinition) (address : DocumentAddress) (seed : Value) : WorkAction Unit := do
  Session.check (checkAddress definition address)
  if definition.family then acquire definition address (definition.familyInitial seed)
  else throw (kindText definition " is not a family")

/-- A draft operation on a staged document. -/
def draft (index : Nat) (op : DraftOp) : WorkAction Unit := modify fun w =>
    { w with
      tx.documents := w.tx.documents.modify index fun document =>
        { document with change := document.change.map fun change => change.perform op } }

def markRetired (index : Nat) (document : StagedDocument) : WorkAction Unit := modify fun w =>
    { w with
      tx.documents := w.tx.documents.set index { document with retire := true }
      tx.latestDocuments := w.tx.latestDocuments.insert document.key index }

/-- The staged document that a retirement meets first. -/
def stagedAt (tx : Transaction) (kind : Bytes) (address : DocumentAddress) : Option (Nat × StagedDocument) :=
  (tx.documents.findIdx? fun document => document.address == address && document.kind == kind).bind
    fun index => tx.documents[index]?.map fun document => (index, document)

/-- The part of `retire_doc` for an incarnation that the transaction has not staged. -/
def retireLoaded (definition : DocumentDefinition) (address : DocumentAddress) : WorkAction Unit := do
  Session.check (checkDocumentOwner (← get) address)
  let loaded ← onSession (Session.loadDocument definition address)
  match loaded with
  | none => return ()
  | some entry =>
    Session.check (checkRecordScope definition entry.record)
    stage
      { record := entry.record
        address := address
        kind := definition.kind
        change := none
        storedVersion := entry.storedVersion
        deltasSinceBase := entry.deltasSinceBase
        retire := true
        definitionVersion := definition.version
        checkpoint := definition.checkpoint }

/-- `retire_doc`: the staged incarnation that is met first, else the loaded one. -/
def retireDoc (definition : DocumentDefinition) (address : DocumentAddress) : WorkAction Unit := do
  Session.check (checkAddress definition address)
  match (← get).tx.stagedAt definition.kind address with
  | some (index, document) =>
    if document.retire then return ()
    else
      Session.check (checkRecordScope definition document.record)
      markRetired index document
  | none => retireLoaded definition address

/-! ### Tasks and submissions -/

/-- The owner of a new task, checked as far as `create_task` does. -/
def taskOwner (w : Work) (options : TaskOptions) : Expected (Option TaskRecord) := match options.owner with
  | none => .ok none
  | some owner => do
      let found ← currentTask w owner
      let record ← present found (ofString "Task owner " ++ intText owner ++ ofString " does not exist")
      refuse options.background "A child task cannot be background"
      refuse (options.conversationId.any fun id => id != record.conversationId)
        (ofString "A child task lives in its owner's conversation " ++ intText record.conversationId)
      let _ ← w.session.storage.conversation record.conversationId
      return some record

/-- `create_task`: a task without an owner or a conversation lives in conversation 1. -/
def createTask (definition : TaskDefinition) (input : Json) (options : TaskOptions) : WorkAction Unit := do
  let owner ← Session.check (taskOwner (← get) options)
  let id ← onSession Session.mintId
  let record : TaskRecord :=
    { id := id
      conversationId := (owner.map TaskRecord.conversationId).getD (options.conversationId.getD 1)
      kind := definition.kind
      version := definition.version
      input := input
      owner := options.owner
      background := options.background
      abandonOnRestart := options.abandonOnRestart
      state := ⟨"pending", some (options.checkpoint.getD (definition.initial input)), [], none, none⟩ }
  modify fun w =>
    { w with
      tx.writes := w.tx.writes ++ [.task (some record)]
      tx.stagedTasks := w.tx.stagedTasks.insert id record
      tx.createdTasks := w.tx.createdTasks.insert id () }

/-- `set_task`: every call adds a write, and the last one is the current record. -/
def setTask (record : TaskRecord) : WorkAction Unit := modify fun w =>
    { w with
      tx.writes := w.tx.writes ++ [.task (some record)]
      tx.stagedTasks := w.tx.stagedTasks.insert record.id record }

/-- `create_submission`: the record joins the batch at assembly. -/
def createSubmission (record : SubmissionRecord) : WorkAction Unit := do
  Session.check (requireConversation (← get) record.conversationId)
  let id ← onSession Session.mintId
  modify fun w =>
    { w with tx.stagedSubmissions := w.tx.stagedSubmissions.emplace id { record with id := id } }

/-- `settle_submission` and `place_submission`: the change is resolved at assembly. -/
def changeSubmission (change : SubmissionChange) : WorkAction Unit :=
  modify fun w => { w with tx.submissionChanges := w.tx.submissionChanges ++ [change] }

/-- One call of a callback. -/
inductive Call where
  | createRootConversation
  | createConversation
  | createOwnedConversation (owner : TaskId)
  | forkConversation (parent : ConversationId) (at_ : EntryId)
  | appendEntry (conversationId : ConversationId) (kind : Bytes) (data : Json)
      (head : Option EntryHead) (model : List Json) (byTaskId : Option TaskId)
      (edits : List ContextEdit)
  | doc (definition : DocumentDefinition) (address : DocumentAddress)
  | docFrom (definition : DocumentDefinition) (address : DocumentAddress) (seed : Value)
  | draft (index : Nat) (op : DraftOp)
  | retireDoc (definition : DocumentDefinition) (address : DocumentAddress)
  | createTask (definition : TaskDefinition) (input : Json) (options : TaskOptions)
  | setTask (record : TaskRecord)
  | createSubmission (record : SubmissionRecord)
  | settleSubmission (id : SubmissionId) (settlement : SubmissionSettlement)
  | placeSubmission (id : SubmissionId) (entry : EntryId)
  | session (call : Session.Call)

/-- The change that a call stages for a submission. -/
def Call.change : Call → Option SubmissionChange
  | .settleSubmission id settlement => some (.settle id settlement)
  | .placeSubmission id entry => some (.place id entry)
  | _ => none

/-- One call; the Session below may be called from the callback as well. -/
def call : Call → WorkAction Unit
  | .createRootConversation => createRootConversation
  | .createConversation => createConversation
  | .createOwnedConversation owner => createOwnedConversation owner
  | .forkConversation parent at_ => forkConversation parent at_
  | .appendEntry conversationId kind data head model byTaskId edits =>
    appendEntry conversationId kind data head model byTaskId edits
  | .doc definition address => doc definition address
  | .docFrom definition address seed => docFrom definition address seed
  | .draft index op => draft index op
  | .retireDoc definition address => retireDoc definition address
  | .createTask definition input options => createTask definition input options
  | .setTask record => setTask record
  | .createSubmission record => createSubmission record
  | .settleSubmission id settlement => changeSubmission (.settle id settlement)
  | .placeSubmission id entry => changeSubmission (.place id entry)
  | .session sessionCall => onSession (Session.call sessionCall)

/-- The calls of a callback; one that fails keeps what it had changed, and the rest go on. -/
def calls (w : Work) (list : List Call) : Work := list.foldl (fun w c => endState (call c) w) w

end Transaction

end CodingHarness.Durable
