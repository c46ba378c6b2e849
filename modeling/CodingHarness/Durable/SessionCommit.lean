import CodingHarness.Durable.Transaction

/-!
# Session commits

`commit_now` assembles the staged transaction into one batch, commits it to the storage and settles:
it updates the document cache, builds the publication for the commit listeners and delivers the
committed frames to the document watches. Every storage of the repository settles a commit before it
returns, so admission and settlement are one step here. The tracker of a staged document is new and
its only change is the prepared one, so its adoption cannot fail and is left out.
-/

namespace CodingHarness.Durable

open Library Support Chord

/-! ## Submissions -/

/-- The text that names a submission in an error. -/
def submissionText (id : SubmissionId) (problem : String) : Bytes :=
  ofString "Submission " ++ intText id ++ ofString problem

namespace SubmissionRecord

/-- A record that no change touches any more. -/
def isTerminal (record : SubmissionRecord) : Bool :=
  record.status == "done" || record.status == "unanswered"

/-- `operator==` of two records; the detail is compared as a JSON value. -/
def same (a b : SubmissionRecord) : Bool :=
  a.id == b.id && a.conversationId == b.conversationId && a.requestId == b.requestId &&
    a.type == b.type && a.status == b.status && a.entry == b.entry && a.answer == b.answer &&
    a.reason == b.reason &&
    match a.detail, b.detail with
    | none, none => true
    | some x, some y => Json.beq x y
    | _, _ => false

end SubmissionRecord

/-- `apply_submission_change`: a terminal record stays as it is. -/
def applySubmissionChange (current : SubmissionRecord) (change : SubmissionChange) : Expected SubmissionRecord :=
  if current.isTerminal then .ok current
  else
    match change with
    | .place _ entry =>
      if current.status ≠ "queued" then
        invalid (submissionText current.id " is not queued")
      else
        .ok { current with
          status := ofString (if current.type = "input" then "placed" else "done")
          entry := some entry }
    | .settle _ settlement =>
      if settlement.status = "done" ∧ current.status ≠ "placed" then
        invalid (submissionText current.id " is not a placed input")
      else
        .ok { current with
          status := settlement.status
          answer := settlement.answer
          reason := settlement.reason
          detail := settlement.detail }

/-- What a change that succeeds makes of a submission. -/
inductive Changed (current : SubmissionRecord) : SubmissionChange → SubmissionRecord → Prop where
  | ended {change : SubmissionChange} (hended : current.isTerminal = true) : Changed current change current
  | placed (id : SubmissionId) (entry : EntryId) (hopen : ¬current.isTerminal = true)
      (hqueued : current.status = "queued") :
      Changed current (.place id entry) { current with
        status := ofString (if current.type = "input" then "placed" else "done")
        entry := some entry }
  | settled (id : SubmissionId) (settlement : SubmissionSettlement) (hopen : ¬current.isTerminal = true) :
      Changed current (.settle id settlement) { current with
        status := settlement.status
        answer := settlement.answer
        reason := settlement.reason
        detail := settlement.detail }

theorem changed {current next : SubmissionRecord} {change : SubmissionChange}
    (h : applySubmissionChange current change = .ok next) : Changed current change next := by
  unfold applySubmissionChange at h
  split at h
  · next hended =>
    cases h
    exact .ended hended
  next hopen =>
  cases change with
  | place id entry =>
    simp only at h
    split at h
    · cases h
    next hqueued =>
    cases h
    exact .placed id entry hopen (not_not.1 hqueued)
  | settle id settlement =>
    simp only at h
    split at h
    · cases h
    · cases h
      exact .settled id settlement hopen

namespace Transaction

/-- The committed record a staged change starts from. -/
def committedSubmission (storage : StorageState) (id : SubmissionId) : Expected SubmissionRecord := do
  let stored ← storage.submission id
  present stored (submissionText id " does not exist")

/-- One staged change, resolved against the staged candidate first and committed state second. -/
def resolveSubmission (storage : StorageState) (staged : OrdMap SubmissionId SubmissionRecord)
    (change : SubmissionChange) : Expected (OrdMap SubmissionId SubmissionRecord) :=
  match staged.find change.id with
  | some current => do
      let next ← applySubmissionChange current change
      return staged.insert change.id next
  | none => do
      let current ← committedSubmission storage change.id
      let next ← applySubmissionChange current change
      if next.same current then return staged else return staged.insert change.id next

/-- The changes in order, each on what the ones before it left. -/
def resolveSubmissions (storage : StorageState) : OrdMap SubmissionId SubmissionRecord → List SubmissionChange →
      Expected (OrdMap SubmissionId SubmissionRecord)
  | staged, [] => .ok staged
  | staged, change :: rest => do
      let resolved ← resolveSubmission storage staged change
      resolveSubmissions storage resolved rest

/-! ## Tasks and owners -/

/-- No committed terminal task is replaced; a task that the transaction creates is no replacement. -/
def checkReplacedTasks (w : Work) : List TaskId → Expected Unit
  | [] => .ok ()
  | id :: rest =>
    if w.tx.createdTasks.contains id then checkReplacedTasks w rest
    else do
      let committed ← w.session.storage.task id
      refuse (committed.any fun record => record.state.status == terminal)
        (ofString "Task " ++ intText id ++ ofString " is already terminal")
      checkReplacedTasks w rest

/-- An owner is neither ended, nor held, nor marked. -/
def requireLiveOwner (what : String) (owner : TaskId) (record : TaskRecord) : Expected Unit := do
  let text := ofString what ++ ofString " " ++ intText owner
  refuse (record.state.status == terminal || record.state.status == "completing")
    (text ++ ofString " is " ++ record.state.status)
  refuse record.abortRequested (text ++ ofString " is abort-marked")

/-- The liveness of one owner, judged on its final candidate. -/
def checkOwner (w : Work) (what : String) (owner : TaskId) : Expected Unit := do
  let candidate ← currentTask w owner
  match candidate with
  | none => .ok ()
  | some record => requireLiveOwner what owner record

/-- The owner of a task that the transaction creates. -/
def createdOwner (tx : Transaction) (id : TaskId) : Option TaskId := (tx.stagedTasks.find id).bind TaskRecord.owner

/-- The owner of a conversation that a write creates. -/
def conversationOwner : StorageWrite → Option TaskId
  | .conversation (some record) => record.owner.map ConversationOwner.taskId
  | _ => none

def checkOwners (w : Work) (what : String) : List TaskId → Expected Unit
  | [] => .ok ()
  | owner :: rest => do
      checkOwner w what owner
      checkOwners w what rest

end Transaction

/-! ## Document writes -/

/-- A staged document with its prepared change. -/
structure PreparedDocument where
  document : StagedDocument
  prepared : Option Prepared

namespace PreparedDocument

variable (p : PreparedDocument)

/-- The prepared operations, none without a change. -/
def ops : OpBatch := (p.prepared.map Prepared.ops).getD []

/-- A loaded value of an older version is persisted in the new one. -/
def migrationOnly : Bool := !p.document.created && decide (p.document.storedVersion < p.document.definitionVersion)

/-- `document_written`. -/
def written : Bool := p.document.created || p.document.retire || p.migrationOnly || !p.ops.isEmpty

/-- The checkpoint predicate selects a base for an ordinary change. -/
def checkpoint : Bool := !p.document.created && !p.migrationOnly && !p.ops.isEmpty &&
    (match p.document.checkpoint, p.prepared with
      | some hook, some prepared => hook prepared.value prepared.ops p.document.deltasSinceBase
      | _, _ => false)

/-- `document_base`. -/
def base : Bool := p.document.created || p.migrationOnly || p.checkpoint

/-- The content write of a created or changed document. -/
def contentWrite : StorageWrite := let value := p.prepared.map Prepared.value
  if p.document.created then
    if p.document.forkSource.isSome then
      .documentCopy (some p.document.record) p.document.forkSource
    else .documentCreate (some p.document.record) p.document.definitionVersion value
  else
    .documentChange (some p.document.record.id) p.document.definitionVersion value
      (if p.base then [] else p.ops)

/-- The writes of one staged document. A retirement of a loaded incarnation is its only write; one
of a copy is lost, as the copy leaves the loop early. -/
def writes : List StorageWrite := if !p.written then []
  else if p.document.retire && !p.document.created then
    [.documentRetire (some p.document.record.id)]
  else if p.document.retire && !p.document.forkSource.isSome then
    [p.contentWrite, .documentRetire (some p.document.record.id)]
  else [p.contentWrite]

end PreparedDocument

/-- One staged document with its change prepared. -/
def prepareDocument (document : StagedDocument) : Expected PreparedDocument := match document.change with
  | none => .ok ⟨document, none⟩
  | some change => do
      let (prepared, _) ← change.prepare
      return ⟨document, some prepared⟩

/-- The staged documents with their changes prepared. -/
def prepareDocuments : List StagedDocument → Expected (List PreparedDocument)
  | [] => .ok []
  | document :: rest => do
      let prepared ← prepareDocument document
      let later ← prepareDocuments rest
      return prepared :: later

/-- The batch of a commit with its prepared documents. -/
structure Assembly where
  writes : List StorageWrite
  documents : List PreparedDocument

namespace Transaction

/-- The assembly of `commit_now`. -/
def assemble (w : Work) : Expected Assembly := do
  let submissions ← resolveSubmissions w.session.storage w.tx.stagedSubmissions w.tx.submissionChanges
  let tables := w.tx.writes ++ submissions.values.map fun record => .submission (some record)
  checkReplacedTasks w (w.tx.stagedTasks.entries.map Prod.fst)
  checkOwners w "Task owner"
    ((w.tx.createdTasks.entries.map Prod.fst).filterMap w.tx.createdOwner)
  checkOwners w "Conversation owner task" (tables.filterMap conversationOwner)
  let documents ← prepareDocuments w.tx.documents
  return ⟨tables ++ documents.flatMap PreparedDocument.writes, documents⟩

end Transaction

/-! ## Publication -/

/-- The published change of a document. -/
structure DocumentCommitChange where
  record : DocumentRecord
  conversationId : Option ConversationId
  value : Json
  ops : OpBatch
  version : Option Nat
  source : Option DocumentCopySource := none

/-- `CommitChange`. The identities that the source repeats beside a record are those of the record. -/
inductive CommitChange where
  | conversation (record : ConversationRecord)
  | entry (record : EntryRecord)
  | task (record : TaskRecord)
  | submission (record : SubmissionRecord)
  | document (change : DocumentCommitChange)

/-- What commit listeners get. -/
structure CommitPublication where
  seq : Seq
  changes : List CommitChange

/-- The change published for a table or submission write. -/
def tableChange : StorageWrite → Option CommitChange
  | .conversation record => record.map .conversation
  | .entry record => record.map .entry
  | .task record => record.map .task
  | .submission record => record.map .submission
  | _ => none

namespace PreparedDocument

/-- The record of a staged document, stamped with the commit that created or retired it. -/
def stampedRecord (p : PreparedDocument) (seq : Seq) : DocumentRecord := { p.document.record with
    createdAt := if p.document.created then seq else p.document.record.createdAt
    retiredAt := if p.document.retire then some seq else p.document.record.retiredAt }

/-- The change that `settle` publishes for a staged document. -/
def change (p : PreparedDocument) (seq : Seq) : Option DocumentCommitChange := if p.document.retire then
    some ⟨p.stampedRecord seq, p.document.address.conversationId, .null, [], none, none⟩
  else
    p.prepared.map fun prepared =>
      if p.document.created && p.document.forkSource.isSome then
        ⟨p.stampedRecord seq, p.document.address.conversationId, prepared.value, [],
          some p.document.definitionVersion, p.document.forkSource⟩
      else
        ⟨p.stampedRecord seq, p.document.address.conversationId, prepared.value,
          if p.document.created then [] else prepared.ops, some p.document.definitionVersion, none⟩

/-- The cache entry of a published document. -/
def cachedAs (p : PreparedDocument) (change : DocumentCommitChange) : CachedDocument :=
  ⟨change.record, change.value, p.document.definitionVersion, p.document.definitionVersion,
    if p.base then 0 else p.document.deltasSinceBase + 1⟩

/-- A publication updates the document cache; a retirement erases the entry. -/
def adopt (seq : Seq) (cached : OrdMap Bytes CachedDocument) (p : PreparedDocument) : OrdMap Bytes CachedDocument :=
  match p.change seq with
  | none => cached
  | some change =>
    if p.document.retire then cached.erase p.document.key
    else cached.insert p.document.key (p.cachedAs change)

end PreparedDocument

namespace Assembly

/-- The document changes of a commit, in the order of the staged documents. -/
def documentChanges (assembly : Assembly) (seq : Seq) : List DocumentCommitChange :=
  assembly.documents.filterMap fun p => p.change seq

/-- What a commit publishes: its table writes, then its documents. -/
def publication (assembly : Assembly) (seq : Seq) : CommitPublication :=
  ⟨seq, assembly.writes.filterMap tableChange ++ (assembly.documentChanges seq).map .document⟩

end Assembly

/-! ## Watch delivery -/

namespace DocumentWatch

/-- The operations an observer applies for a committed change, and the version it has then. -/
def observedOps (watch : DocumentWatch) (change : DocumentCommitChange) : OpBatch × Nat :=
  if change.record.retiredAt.isSome then ([.replace .null], watch.observedVersion)
  else if change.version = some watch.observedVersion then (change.ops, watch.observedVersion)
  else ([.replace change.value], change.version.getD watch.observedVersion)

/-- One committed change at one watch. A watch that is not started buffers its frames, also the
frame of a retirement, and is not ended then. -/
def observe (change : DocumentCommitChange) (watch : DocumentWatch) : DocumentWatch := if watch.stopped then watch
  else
    let (ops, version) := watch.observedOps change
    let current := { watch with observedVersion := version }
    if ops.isEmpty then current
    else
      let buffered := { current with pending := current.pending ++ [⟨change.value, ops⟩] }
      if !buffered.started then buffered
      else if change.record.retiredAt.isSome then
        { buffered.flush with stopped := true, endReason := .retired, pending := [] }
      else buffered.flush

end DocumentWatch

namespace Session

/-- The delivery of one committed change to the watches of its address. -/
def deliverChange (s : Session) (change : DocumentCommitChange) : Session :=
  let key := documentAddressKey change.record.kind change.record.address
  match s.watches.find key with
  | none => s
  | some registered =>
    let sampled := registered.foldl
      (fun handles index => handles.modify index DocumentWatch.sampleCancellation) s.handles
    let live := registered.filter fun index => sampled[index]?.any fun watch => !watch.stopped
    { s with
      handles := live.foldl
        (fun handles index => handles.modify index (DocumentWatch.observe change)) sampled
      watches := if change.record.retiredAt.isSome then s.watches.erase key else s.watches.insert key live }

/-- `settle` of a batch that the storage committed with the sequence `seq`. -/
def settle (s : Session) (assembly : Assembly) (seq : Seq) : Session :=
  let adopted := { s with cached := assembly.documents.foldl (PreparedDocument.adopt seq) s.cached }
  (assembly.documentChanges seq).foldl deliverChange adopted

/-- The end of one commit. -/
inductive Outcome where
  | rejected (error : Error)
  | unchanged
  | failed (error : Error)
  | committed (publication : CommitPublication)

/-- The commit of an assembled batch; an empty one never reaches the storage. -/
def commitBatch (s : Session) (assembly : Assembly) : Outcome × Session :=
  if assembly.writes.isEmpty then (.unchanged, s)
  else
    match s.storage.applyNext assembly.writes with
    | .error e => (.failed e, { s with failed := true })
    | .ok storage =>
      let seq := s.storage.nextSeq
      (.committed (assembly.publication seq), { s with storage := storage }.settle assembly seq)

/-- `commit_now` for a callback that makes the given calls and returns `returned`. -/
def commitNow (s : Session) (calls : List Transaction.Call) (returned : Expected Unit) : Outcome × Session :=
  if s.failed then (.rejected sessionFailedError, s)
  else
    let w := Transaction.calls ⟨s, {}⟩ calls
    match returned with
    | .error e => (.rejected e, w.session)
    | .ok () =>
      match Transaction.assemble w with
      | .error e => (.rejected e, w.session)
      | .ok assembly => w.session.commitBatch assembly

/-- A step of a program that uses Sessions on one storage: a commit, another call, or the opening of
a new Session. -/
inductive Step where
  | commit (calls : List Transaction.Call) (returned : Expected Unit)
  | call (call : Call)
  | reopen

def step (s : Session) : Step → Session
  | .commit calls returned => (s.commitNow calls returned).2
  | .call c => endState (call c) s
  | .reopen => { storage := s.storage }

def run (s : Session) (steps : List Step) : Session := steps.foldl step s

end Session

end CodingHarness.Durable
