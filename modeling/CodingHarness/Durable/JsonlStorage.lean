import CodingHarness.Durable.JsonlMarker
import CodingHarness.Durable.StorageState
import Mathlib.Data.Prod.Lex

/-!
# The JSONL storage

`JsonlStorage.cpp`: a directory with `main.jsonl`, which holds a marker line for every commit, and
sidecar files for document contents and live tasks. A commit appends its sidecar records, then its
marker, and then reclaims the sidecars that no reader needs any more; `recover` reads the directory,
replays the markers into a `StorageState` and repairs the sidecars.

The physical effects of a commit are a list of `DiskStep`s. Failing I/O calls, flushes and the identity checks of task
files (links, inodes) are left out, and a failed recovery has no directory.
-/

namespace CodingHarness.Durable

open Library Support Chord

/-! ## The directory -/

/-- A sidecar file, by what it holds. -/
inductive SidecarFile where
  | document (id : DocumentId)
  | task (id : TaskId)
  deriving DecidableEq

namespace SidecarFile

/-- `document_file` and `task_file`. -/
def name : SidecarFile → Bytes
  | .document id => ofString "doc-" ++ intText id ++ ofString ".jsonl"
  | .task id => ofString "task-" ++ intText id ++ ofString ".jsonl"

def id : SidecarFile → Int
  | .document id => id
  | .task id => id

def isTask : SidecarFile → Bool
  | .document _ => false
  | .task _ => true

/-- `document_id_from_file` and `task_id_from_file` read back every name without a minus sign. -/
def recognized (file : SidecarFile) : Bool := decide (0 ≤ file.id)

/-- The name of a file, followed by the file itself. -/
def nameKey (file : SidecarFile) : Lex (Bytes × Lex (Bool × Int)) := toLex (file.name, toLex (file.isTask, file.id))

theorem nameKey_injective : Function.Injective nameKey := by
  intro a b h
  have hpair : (a.isTask, a.id) = (b.isTask, b.id) := toLex_inj.1 (Prod.mk.inj (toLex_inj.1 h)).2
  cases a <;> cases b <;> simp_all [isTask, id]

/-- Files are listed in the order of their names. -/
instance : LinearOrder SidecarFile := LinearOrder.lift' nameKey nameKey_injective

end SidecarFile

/-- The files of a storage directory; a `.reclaim` file is listed under the file it replaces. -/
structure Directory where
  main : Bytes := []
  sidecars : OrdMap SidecarFile Bytes := .empty
  reclaims : OrdMap SidecarFile Bytes := .empty
  deriving DecidableEq

/-- The bytes of a sidecar file; an absent file has none. -/
def Directory.sidecar (directory : Directory) (file : SidecarFile) : Bytes := (directory.sidecars.find file).getD []

/-- One physical effect on the directory. -/
inductive DiskStep where
  | append (file : SidecarFile) (content : Bytes)
  | appendMain (content : Bytes)
  | remove (file : SidecarFile)
  | stage (file : SidecarFile) (content : Bytes)
  | rename (file : SidecarFile)
  deriving DecidableEq

def DiskStep.run (directory : Directory) : DiskStep → Directory
  | .append file content =>
    { directory with
      sidecars := directory.sidecars.insert file (directory.sidecar file ++ content) }
  | .appendMain content => { directory with main := directory.main ++ content }
  | .remove file => { directory with sidecars := directory.sidecars.erase file }
  | .stage file content => { directory with reclaims := directory.reclaims.insert file content }
  | .rename file =>
    match directory.reclaims.find file with
    | none => directory
    | some content =>
      { directory with
        sidecars := directory.sidecars.insert file content
        reclaims := directory.reclaims.erase file }

/-! ## Encoding a commit -/

/-- The document identity of a payload; a task payload has the default one. -/
def SidecarPayload.documentId : SidecarPayload → DocumentId
  | .document id _ => id
  | .task _ => 0

/-- The document content of a payload; a task payload has the default one. -/
def SidecarPayload.content : SidecarPayload → DocumentContent
  | .document _ content => content
  | .task _ => .base 1 .null

def DocumentContent.isBase : DocumentContent → Bool
  | .base _ _ => true
  | .delta _ _ => false

/-- Parse the lines of a sidecar file from the line `number` on. -/
def parseRecords (file : SidecarFile) : Nat → List RawLine → Expected (List SidecarRecord)
  | _, [] => .ok []
  | number, line :: rest => do
      let record ← parseSidecar line.text file.name number
      let records ← parseRecords file (number + 1) rest
      return record :: records

def loadSidecarRecords (directory : Directory) (file : SidecarFile) : Expected (List SidecarRecord) := do
  let (lines, _) ← readCompleteLines (directory.sidecar file) file.name
  parseRecords file 1 lines

/-- The newest base and the deltas after it, oldest first; the contents are given newest first. -/
def newestContent : List DocumentContent → List OpBatch → Option (Nat × Json × List OpBatch)
  | [], _ => none
  | .base version value :: _, batches => some (version, value, batches)
  | .delta _ ops :: older, batches => newestContent older (ops :: batches)

/-- The content a copy starts from, materialized from the sidecar file of its source; `none` gives
up the whole encoding. -/
def copiedBase (directory : Directory) (record : DocumentRecord) (source : DocumentCopySource) :
    Option (Nat × Json) := do
  let records ← (loadSidecarRecords directory (.document source.id)).toOption
  let revisions := match source.at_ with
    | none => records
    | some at_ => records.takeWhile fun revision => decide (revision.seq ≤ at_)
  guard !(source.at_.isSome && documentIsCurrentOnly record)
  let (version, value, batches) ←
    newestContent (revisions.map fun revision => revision.payload.content).reverse []
  let materialized ← (applyImmutableBatches value batches).toOption
  return (version, materialized)

/-- What one write contributes to a commit: an operation of the marker, a sidecar record, and
whether the record is a base of a changed document. -/
structure EncodedWrite where
  operation : Option MainOperation := none
  sidecar : Option (SidecarFile × SidecarRecord) := none
  rebases : Bool := false
  deriving DecidableEq

/-- The content of a change: a base when it has no operations. -/
def changeContent (version : Nat) (value : Option Json) (ops : OpBatch) : DocumentContent :=
  if ops.isEmpty then .base version (value.getD .null) else .delta version ops

/-- Encode one write; `ordinal` is the next free one. -/
def encodeWrite (directory : Directory) (seq : Seq) (ordinal : Int) : StorageWrite → Option EncodedWrite
  | .conversation (some record) => some { operation := some (.conversation record) }
  | .entry (some record) => some { operation := some (.entry record) }
  | .task (some record) =>
    if record.state.status = "terminal" then
      some { operation := some (.task record) }
    else
      some {
        operation := some (.taskSidecar record.id ordinal)
        sidecar := some (.task record.id, ⟨seq, ordinal, .task record⟩) }
  | .submission (some record) => some { operation := some (.submission record) }
  | .documentCreate (some record) version (some value) =>
    some {
      operation := some (.documentCreate record ordinal)
      sidecar := some (.document record.id, ⟨seq, ordinal, .document record.id (.base version value)⟩) }
  | .documentCopy (some record) (some source) => do
      let (version, value) ← copiedBase directory record source
      some {
        operation := some (.documentCopy record source ordinal)
        sidecar := some (.document record.id, ⟨seq, ordinal, .document record.id (.base version value)⟩) }
  | .documentChange (some id) version value ops =>
    some {
      operation := some (.documentChange id ordinal)
      sidecar := some (.document id, ⟨seq, ordinal, .document id (changeContent version value ops)⟩)
      rebases := ops.isEmpty }
  | .documentRetire (some id) => some { operation := some (.documentRetire id) }
  -- A batch that passed `validate` has no write without its fields.
  | _ => some {}

/-- Encode the writes of a batch; every sidecar record takes an ordinal. -/
def encodeWrites (directory : Directory) (seq : Seq) : Int → List StorageWrite → Option (List EncodedWrite)
  | _, [] => some []
  | ordinal, write :: rest => do
      let encoded ← encodeWrite directory seq ordinal write
      let next := if encoded.sidecar.isSome then ordinal + 1 else ordinal
      let encodedRest ← encodeWrites directory seq next rest
      return encoded :: encodedRest

/-- Append to the content of a file; a new file comes last. -/
def appendContent (file : SidecarFile) (content : Bytes) : List (SidecarFile × Bytes) → List (SidecarFile × Bytes)
  | [] => [(file, content)]
  | (other, before) :: rest =>
    if other = file then (other, before ++ content) :: rest
    else (other, before) :: appendContent file content rest

/-- Set the base offset of a file; a new file comes last. -/
def setOffset (file : SidecarFile) (offset : Nat) : List (SidecarFile × Nat) → List (SidecarFile × Nat)
  | [] => [(file, offset)]
  | (other, before) :: rest =>
    if other = file then (other, offset) :: rest
    else (other, before) :: setOffset file offset rest

/-- The file of a sidecar record: one line. -/
def recordLine (record : SidecarRecord) : Bytes := sidecarLine record ++ [0x0A]

/-- The accumulators of `encode_commit`: operations, sidecar contents and base offsets in the order
of their first use. -/
structure CommitEncoder where
  operations : List MainOperation := []
  sidecars : List (SidecarFile × Bytes) := []
  bases : List (SidecarFile × Nat) := []

def CommitEncoder.add (encoder : CommitEncoder) (write : EncodedWrite) : CommitEncoder where
  operations := encoder.operations ++ write.operation.toList
  sidecars := match write.sidecar with
    | none => encoder.sidecars
    | some (file, record) => appendContent file (recordLine record) encoder.sidecars
  bases := match write.sidecar with
    | some (file, _) =>
      if write.rebases then
        setOffset file ((encoder.sidecars.lookup file).getD []).length encoder.bases
      else encoder.bases
    | none => encoder.bases

/-- The bytes a commit appends to each file. -/
structure EncodedCommit where
  marker : Bytes := []
  sidecars : List (SidecarFile × Bytes) := []
  reclamations : List (SidecarFile × Bytes) := []
  deriving DecidableEq

/-- The task a write replaces, with whether it leaves it terminal. -/
def writtenTask : StorageWrite → Option (TaskId × Bool)
  | .task (some record) => some (record.id, decide (record.state.status = "terminal"))
  | _ => none

/-- Whether the last write of a batch to a task leaves it terminal. -/
def leavesTerminal (writes : List StorageWrite) (id : TaskId) : Bool :=
  ((writes.filterMap writtenTask).reverse.lookup id).getD false

/-- The reclamations of a commit: retired current-only documents, new bases of current-only
documents, terminal tasks. -/
def reclamationsOf (writes : List StorageWrite) (currentOnly : List DocumentId)
    (encoder : CommitEncoder) : List (SidecarFile × Bytes) :=
  let retired := StorageState.retiredInBatch writes
  let retirements := retired.eraseDups.filter currentOnly.contains
  let tasks := ((writes.filterMap writtenTask).map Prod.fst).eraseDups
  retirements.map (fun id => (SidecarFile.document id, [])) ++
  encoder.bases.filterMap (fun (file, offset) =>
    if !file.recognized || retired.contains file.id || !currentOnly.contains file.id then none
    else some (file, ((encoder.sidecars.lookup file).getD []).drop offset)) ++
  (tasks.filter (leavesTerminal writes)).map (fun id => (SidecarFile.task id, []))

/-- The bytes of a commit, file by file. -/
def encodeCommit (directory : Directory) (seq : Seq) (writes : List StorageWrite)
    (currentOnly : List DocumentId) : EncodedCommit :=
  match encodeWrites directory seq 0 writes with
  | none => {}
  | some encoded =>
    let encoder := encoded.foldl CommitEncoder.add {}
    { marker := markerLine ⟨seq, encoder.operations⟩ ++ [0x0A]
      sidecars := encoder.sidecars
      reclamations := reclamationsOf writes currentOnly encoder }

/-- The steps of a reclamation: an empty content removes the file. -/
def reclaimSteps : SidecarFile × Bytes → List DiskStep
  | (file, content) => if content.isEmpty then [.remove file] else [.stage file content, .rename file]

/-- The physical steps of a commit, in order. -/
def EncodedCommit.steps (encoded : EncodedCommit) : List DiskStep :=
  encoded.sidecars.map (fun (file, content) => .append file content) ++
    .appendMain encoded.marker :: encoded.reclamations.flatMap reclaimSteps

/-! ## Reading the directory -/

/-- The markers of `main.jsonl` from the line `number` on; their sequences increase strictly. -/
def parseMarkers : Seq → Nat → List RawLine → Expected (List MainMarker)
  | _, _, [] => .ok []
  | previous, number, line :: rest => do
      let marker ← parseMainMarker line.text number
      refuse (marker.seq ≤ previous) "Commit sequence does not strictly increase in main.jsonl"
      let markers ← parseMarkers marker.seq (number + 1) rest
      return marker :: markers

/-- A sidecar record with the offset of its line. -/
structure ParsedSidecar where
  record : SidecarRecord
  start : Nat
  deriving DecidableEq

/-- Whether a record does not follow the one before it. -/
def outOfOrder (previous : Option SidecarRecord) (record : SidecarRecord) : Bool := previous.any fun p =>
    record.seq < p.seq || (record.seq == p.seq && decide (record.ordinal ≤ p.ordinal))

/-- The records of a sidecar file from the line `number` on, in strictly increasing order. -/
def parseLines (file : SidecarFile) : Option SidecarRecord → Nat → List RawLine → Expected (List ParsedSidecar)
  | _, _, [] => .ok []
  | previous, number, line :: rest => do
      let record ← parseSidecar line.text file.name number
      refuse (outOfOrder previous record)
        (ofString "Sidecar records are out of order in " ++ file.name)
      let lines ← parseLines file (some record) (number + 1) rest
      return ⟨record, line.start⟩ :: lines

/-- A sidecar file as recovery read it: its complete bytes and its records. -/
structure ParsedFile where
  file : SidecarFile
  bytes : Bytes
  lines : List ParsedSidecar
  deriving DecidableEq

def parseFile : SidecarFile × Bytes → Expected ParsedFile
  | (file, bytes) => do
      let (lines, complete) ← readCompleteLines bytes file.name
      let records ← parseLines file none 1 lines
      return ⟨file, complete, records⟩

/-- `sidecar_key`, before it is joined to a string. -/
structure SidecarKey where
  file : SidecarFile
  seq : Seq
  ordinal : Int
  deriving DecidableEq

def keyOf (file : SidecarFile) (record : SidecarRecord) : SidecarKey := ⟨file, record.seq, record.ordinal⟩

/-! ## What recovery knows before it replays -/

/-- The records on disk by their keys, and the operations of all markers with their sequences. -/
structure RecoveryIndex where
  records : List (SidecarKey × SidecarRecord)
  operations : List (Seq × MainOperation)

/-- `record_by_key`. -/
def recordsByKey (files : List ParsedFile) : List (SidecarKey × SidecarRecord) :=
  files.flatMap fun parsed => parsed.lines.map fun line => (keyOf parsed.file line.record, line.record)

namespace RecoveryIndex

/-- The task an operation writes, with whether it leaves it live. -/
def taskState : MainOperation → Option (TaskId × Bool)
  | .task record => some (record.id, false)
  | .taskSidecar id _ => some (id, true)
  | _ => none

/-- `final_task_live`: the last operation on a task decides. -/
def finalTaskLive (index : RecoveryIndex) (id : TaskId) : Option Bool :=
  (index.operations.filterMap fun operation => taskState operation.2).reverse.lookup id

/-- Whether a marker retires the document. -/
def retired (index : RecoveryIndex) (id : DocumentId) : Bool :=
  index.operations.any fun operation => operation.2 == .documentRetire id

/-- The document and the ordinal of an operation whose content stands in a sidecar. -/
def documentReference : MainOperation → Option (DocumentId × Int)
  | .documentCreate record ordinal => some (record.id, ordinal)
  | .documentCopy record _ ordinal => some (record.id, ordinal)
  | .documentChange id ordinal => some (id, ordinal)
  | _ => none

def find (index : RecoveryIndex) (file : SidecarFile) (seq : Seq) (ordinal : Int) : Option SidecarRecord :=
  index.records.lookup ⟨file, seq, ordinal⟩

/-- The place of an operation on the document whose record is a base and is present. -/
def baseOf (index : RecoveryIndex) (id : DocumentId) (operation : Seq × MainOperation) : Option (Seq × Int) := do
  let (other, ordinal) ← documentReference operation.2
  guard (other = id)
  let record ← index.find (.document id) operation.1 ordinal
  guard (record.payload.documentId = id && record.payload.content.isBase)
  return (operation.1, ordinal)

/-- Whether the second place comes before the first. -/
def later (a b : Seq × Int) : Bool := b.1 < a.1 || (b.1 == a.1 && decide (b.2 < a.2))

/-- Keep the latest of the places seen so far. -/
def keepLatest (latest : Option (Seq × Int)) (place : Seq × Int) : Option (Seq × Int) :=
  if latest.all fun previous => later place previous then some place else latest

/-- `latest_bases`. -/
def latestBase (index : RecoveryIndex) (id : DocumentId) : Option (Seq × Int) :=
  (index.operations.filterMap (index.baseOf id)).foldl keepLatest none

def beforeLatestBase (index : RecoveryIndex) (id : DocumentId) (place : Seq × Int) : Bool :=
  (index.latestBase id).any fun base => later base place

end RecoveryIndex

/-! ## Replay -/

/-- The text of a replay problem at a sequence. -/
def atSequence (problem : Bytes) (seq : Seq) : Bytes := problem ++ intText seq

/-- The text for a record that is not on disk. -/
def missingRecord (file : SidecarFile) (seq : Seq) : Bytes :=
  atSequence (ofString "Missing confirmed sidecar record " ++ file.name ++ ofString " at sequence ") seq

/-- The confirmed record of a task; it may be missing when the task ends terminal. -/
def replayTask (index : RecoveryIndex) (seq : Seq) (confirmed : List SidecarKey) (id : TaskId)
    (ordinal : Int) : Expected (List SidecarKey × Option StorageWrite) := do
  let key : SidecarKey := ⟨.task id, seq, ordinal⟩
  refuse (confirmed.contains key) "Sidecar record is confirmed more than once"
  let optional := index.finalTaskLive id == some false
  match index.find (.task id) seq ordinal with
  | none => do
      refuse (!optional) (missingRecord (.task id) seq)
      return (confirmed, none)
  | some record =>
    match record.payload with
    | .task task => do
        refuse (task.id != id)
          (atSequence "Confirmed task sidecar data does not match commit " seq)
        return (key :: confirmed, if optional then none else some (.task (some task)))
    | .document _ _ => invalid (atSequence "Confirmed task sidecar data does not match commit " seq)

/-- Whether the content of a document operation may have been reclaimed. -/
def RecoveryIndex.reclaimed (index : RecoveryIndex) (seq : Seq) (id : DocumentId) (ordinal : Int) : Bool :=
  index.retired id || index.beforeLatestBase id (seq, ordinal)

/-- Confirm the content of a document operation, which may be reclaimed. -/
def confirmDocument (index : RecoveryIndex) (seq : Seq) (confirmed : List SidecarKey)
    (id : DocumentId) (ordinal : Int) :
    Expected (List SidecarKey × Option DocumentContent) := do
  let key : SidecarKey := ⟨.document id, seq, ordinal⟩
  refuse (confirmed.contains key) "Sidecar record is confirmed more than once"
  match index.find (.document id) seq ordinal with
  | none => do
      refuse (!index.reclaimed seq id ordinal) (missingRecord (.document id) seq)
      return (confirmed, none)
  | some record =>
    match record.payload with
    | .document other content => do
        refuse (other != id)
          (atSequence "Confirmed document sidecar data does not match commit " seq)
        return (key :: confirmed, some content)
    | .task _ => invalid (atSequence "Confirmed document sidecar data does not match commit " seq)

/-- The version and the value a creation is restored with: a reclaimed one still restores its
record. -/
def restoredBase (seq : Seq) : Option DocumentContent → Expected (Nat × Json)
  | none => .ok (1, .object [])
  | some (.base version value) => .ok (version, value)
  | some (.delta _ _) =>
    invalid (atSequence "Document creation lacks a confirmed base in commit " seq)

/-- The write a change is restored as; a delta is applied to the state before its commit. -/
def restoredChange (state : StorageState) (seq : Seq) (id : DocumentId) : DocumentContent → Expected StorageWrite
  | .base version value => .ok (.documentChange (some id) version (some value) [])
  | .delta version ops => do
      let current ← present ((state.document id none).toOption.getD none)
        (atSequence "Invalid committed state at sequence " seq)
      let applied ← present (applyImmutable current.value ops).toOption
        (atSequence "Invalid committed state at sequence " seq)
      return .documentChange (some id) version (some applied) ops

/-- Replay one operation: the keys confirmed so far and the write to restore. -/
def replayOperation (index : RecoveryIndex) (state : StorageState) (seq : Seq) (confirmed : List SidecarKey) :
    MainOperation → Expected (List SidecarKey × Option StorageWrite)
  | .conversation record => .ok (confirmed, some (.conversation (some record)))
  | .entry record => .ok (confirmed, some (.entry (some record)))
  | .task record => .ok (confirmed, some (.task (some record)))
  | .taskSidecar id ordinal => replayTask index seq confirmed id ordinal
  | .submission record => .ok (confirmed, some (.submission (some record)))
  | .documentRetire id => .ok (confirmed, some (.documentRetire (some id)))
  | .documentCreate record ordinal => do
      let (confirmed, content) ← confirmDocument index seq confirmed record.id ordinal
      let (version, value) ← restoredBase seq content
      return (confirmed, some (.documentCreate (some record) version (some value)))
  | .documentCopy record source ordinal => do
      let (confirmed, content) ← confirmDocument index seq confirmed record.id ordinal
      let _ ← restoredBase seq content
      return (confirmed, some (.documentCopy (some record) (some source)))
  | .documentChange id ordinal => do
      let (confirmed, content) ← confirmDocument index seq confirmed id ordinal
      match content with
      | some content =>
        if index.reclaimed seq id ordinal then return (confirmed, none)
        else do
          let write ← restoredChange state seq id content
          return (confirmed, some write)
      | none => return (confirmed, none)

def replayOperations (index : RecoveryIndex) (state : StorageState) (seq : Seq) :
    List SidecarKey → List MainOperation → Expected (List SidecarKey × List StorageWrite)
  | confirmed, [] => .ok (confirmed, [])
  | confirmed, operation :: rest => do
      let (confirmed, write) ← replayOperation index state seq confirmed operation
      let (confirmed, writes) ← replayOperations index state seq confirmed rest
      return (confirmed, write.toList ++ writes)

/-- Restore the commits in order, each from the records that its marker confirms. -/
def replayMarkers (index : RecoveryIndex) :
    List SidecarKey → StorageState → List MainMarker → Expected (List SidecarKey × StorageState)
  | confirmed, state, [] => .ok (confirmed, state)
  | confirmed, state, marker :: rest => do
      let (confirmed, writes) ← replayOperations index state marker.seq confirmed marker.writes
      let state ← present (state.restore writes marker.seq).toOption
        (atSequence "Invalid committed state at sequence " marker.seq)
      replayMarkers index confirmed state rest

/-! ## Repair -/

/-- Cut off the unconfirmed tail of a sidecar file. -/
def truncateUnconfirmed (confirmed : List SidecarKey) (lastSeq : Seq) (parsed : ParsedFile) : Expected ParsedFile :=
  let isConfirmed (line : ParsedSidecar) := confirmed.contains (keyOf parsed.file line.record)
  match parsed.lines.find? fun line => !isConfirmed line with
  | none => .ok parsed
  | some first => do
      refuse (parsed.lines.any fun line => first.start < line.start && isConfirmed line)
        (ofString "Confirmed record follows an unconfirmed tail in " ++ parsed.file.name)
      refuse (parsed.lines.any fun line => first.start ≤ line.start && line.record.seq ≤ lastSeq)
        (ofString "Unconfirmed sidecar record has a closed sequence in " ++ parsed.file.name)
      return { parsed with
        bytes := parsed.bytes.take first.start
        lines := parsed.lines.filter fun line => line.start < first.start }

/-- The reclamation of a repaired file; an empty content removes it. -/
def reclamation (index : RecoveryIndex) (parsed : ParsedFile) : Option Bytes := match parsed.file with
  | .task id =>
    if parsed.lines.isEmpty || index.finalTaskLive id == some false then some [] else none
  | .document id =>
    if parsed.lines.isEmpty || index.retired id then some []
    else
      match index.latestBase id with
      | none => none
      | some base =>
        let retained := parsed.lines.filter fun line =>
          !RecoveryIndex.later base (line.record.seq, line.record.ordinal)
        if retained.length = parsed.lines.length then none
        else some (retained.flatMap fun line => recordLine line.record)

/-- Rewrite a file to what replay has left of it. -/
def repairFile (index : RecoveryIndex) (sidecars : OrdMap SidecarFile Bytes) (parsed : ParsedFile) :
    OrdMap SidecarFile Bytes :=
  match reclamation index parsed with
  | none => sidecars.insert parsed.file parsed.bytes
  | some content =>
    if content.isEmpty then sidecars.erase parsed.file else sidecars.insert parsed.file content

/-- `JsonlStorage::Impl`, with its directory. -/
structure JsonlStorage where
  directory : Directory := {}
  state : StorageState := { closedMessage := "JSONL storage is closed" }
  deriving DecidableEq

def lastSeq (markers : List MainMarker) : Seq := (markers.getLast?.map MainMarker.seq).getD 0

/-- The operations of all markers with their sequences. -/
def operationsOf (markers : List MainMarker) : List (Seq × MainOperation) :=
  markers.flatMap fun marker => marker.writes.map fun operation => (marker.seq, operation)

namespace JsonlStorage

/-- `JsonlStorage::Impl::recover`. -/
def recover (directory : Directory) : Expected JsonlStorage := do
  let (mainLines, main) ← readCompleteLines directory.main "main.jsonl"
  let markers ← parseMarkers 0 1 mainLines
  let files ← (directory.sidecars.entries.filter fun entry => entry.1.recognized).mapM parseFile
  let index : RecoveryIndex := ⟨recordsByKey files, operationsOf markers⟩
  let storage : JsonlStorage := {}
  let (confirmed, state) ← replayMarkers index [] storage.state markers
  let repaired ← files.mapM (truncateUnconfirmed confirmed (lastSeq markers))
  return {
    directory := {
      main := main
      sidecars := repaired.foldl (repairFile index) directory.sidecars
      -- A leftover scratch file of a known sidecar is removed.
      reclaims := directory.reclaims.filter fun file => !file.recognized }
    state := state }

/-- The documents of a batch that keep no history. -/
def currentOnlyDocuments (state : StorageState) (writes : List StorageWrite) : List DocumentId :=
  writes.filterMap fun write =>
    match write with
    | .documentCreate (some record) _ _ | .documentCopy (some record) _ =>
      if documentIsCurrentOnly record then some record.id else none
    | .documentChange (some id) _ _ _ | .documentRetire (some id) =>
      if ((state.document id none).toOption.getD none).any
          (fun stored => documentIsCurrentOnly stored.record) then some id
      else none
    | _ => none

def encoded (storage : JsonlStorage) (writes : List StorageWrite) : EncodedCommit :=
  encodeCommit storage.directory storage.state.nextSeq writes
    (currentOnlyDocuments storage.state writes)

/-- `JsonlStorage::Impl::commit`: an empty batch has no effect. -/
def commit (storage : JsonlStorage) (writes : List StorageWrite) : Expected (JsonlStorage × Seq) := do
  let seq := storage.state.nextSeq
  let state ← storage.state.apply writes seq
  if writes.isEmpty then return (storage, seq)
  else
    return ({
      directory := (storage.encoded writes).steps.foldl DiskStep.run storage.directory
      state := state }, seq)

/-- `JsonlStorage::mint_id`: the next identity moves in memory only. -/
def mintId (storage : JsonlStorage) : Expected (JsonlStorage × Int) :=
  if storage.state.closed then .error storage.state.closedError
  else
    let (state, id) := storage.state.reserveId
    .ok ({ storage with state := state }, id)

/-- `JsonlStorage::close`. -/
def close (storage : JsonlStorage) : JsonlStorage := { storage with state := storage.state.close }

end JsonlStorage

end CodingHarness.Durable
