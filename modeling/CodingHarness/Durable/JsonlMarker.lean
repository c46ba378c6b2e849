import CodingHarness.Durable.EntryCodec
import CodingHarness.Durable.JsonlLines

/-!
# Commit markers of the JSONL backend

One line of `main.jsonl` is the marker of one commit: its sequence and one operation for every write.
A live task and a document content stand in a sidecar file; the marker names them by their ordinal in
the commit. `markerLine` writes a marker and `parseMainMarker` reads it back, without the creation
sequence of a document, which the replay sets again.
-/

namespace CodingHarness.Durable

open Library Support Chord

/-! ## Operations -/

/-- `MainOperation`, with a constructor for every `MainKind`. -/
inductive MainOperation where
  | conversation (record : ConversationRecord)
  | entry (record : EntryRecord)
  | task (record : TaskRecord)
  | taskSidecar (id : TaskId) (ordinal : Int)
  | submission (record : SubmissionRecord)
  | documentCreate (record : DocumentRecord) (ordinal : Int)
  | documentCopy (record : DocumentRecord) (source : DocumentCopySource) (ordinal : Int)
  | documentChange (id : DocumentId) (ordinal : Int)
  | documentRetire (id : DocumentId)
  deriving DecidableEq

/-- A commit as one line of the main file. -/
structure MainMarker where
  seq : Seq
  writes : List MainOperation
  deriving DecidableEq

/-! ## Writing -/

def historyName : DocumentHistory → Bytes
  | .rewindable => "rewindable"
  | .latest => "latest"

def forkName : DocumentFork → Bytes
  | .asOf => "asOf"
  | .current => "current"
  | .initial => "initial"

/-- `document_scope_value`. -/
def documentScopeMembers (record : DocumentRecord) : JsonObject Json := match record.scope with
  | .session => field "kind" (.string "session")
  | .conversation =>
    field "kind" (.string "conversation") ++ field "conversationId" (number (record.conversationId.getD 0))
  | .task => field "kind" (.string "task") ++ field "taskId" (number (record.taskId.getD 0))

def documentCreateRecord (record : DocumentRecord) : JsonObject Json := field "id" (number record.id) ++
  field "kind" (.string record.kind) ++
  optionalField "key" .string record.key ++
  field "scope" (.object (documentScopeMembers record)) ++
  (if record.scope = .conversation then
    field "history" (.string (historyName record.history)) ++ field "fork" (.string (forkName record.fork))
  else [])

/-- The `at` member of a copy source. -/
def pointValue : DocumentPoint → Json
  | some seq => number seq
  | none => .string "current"

/-- The `source` member of a copy. -/
def copySourceMembers (source : DocumentCopySource) : JsonObject Json :=
  field "id" (number source.id) ++ field "at" (pointValue source.at_)

/-- The members of one operation of a marker. -/
def operationMembers : MainOperation → JsonObject Json
  | .conversation record =>
    field "type" (.string "conversation") ++ field "value" (toSupport (encodeConversationRecord record))
  | .entry record => field "type" (.string "entry") ++ field "value" (entryValue record)
  | .task record =>
    field "type" (.string "task") ++ field "value" (toSupport (encodeTaskRecord record))
  | .taskSidecar id ordinal =>
    field "type" (.string "task.sidecar") ++ field "id" (number id) ++ field "ordinal" (number ordinal)
  | .submission record =>
    field "type" (.string "submission") ++ field "value" (toSupport (encodeSubmissionRecord record))
  | .documentCreate record ordinal =>
    field "type" (.string "document.create") ++
      field "record" (.object (documentCreateRecord record)) ++ field "ordinal" (number ordinal)
  | .documentCopy record source ordinal =>
    field "type" (.string "document.copy") ++ field "record" (.object (documentCreateRecord record)) ++
      field "source" (.object (copySourceMembers source)) ++ field "ordinal" (number ordinal)
  | .documentChange id ordinal =>
    field "type" (.string "document.change") ++ field "id" (number id) ++ field "ordinal" (number ordinal)
  | .documentRetire id => field "type" (.string "document.retire") ++ field "id" (number id)

def operationValue (operation : MainOperation) : Json := .object (operationMembers operation)

def markerMembers (marker : MainMarker) : JsonObject Json := field "format" (number 1) ++
  field "type" (.string "commit") ++
  field "seq" (number marker.seq) ++
  field "writes" (.array (marker.writes.map operationValue))

/-- The line of a marker, without its newline. -/
def markerLine (marker : MainMarker) : Bytes := writeJson (.object (markerMembers marker))

/-! ## Reading -/

/-- The history and the fork of a conversation document. -/
def parseDocumentModes (record : JsonObject Json) : Expected (DocumentHistory × DocumentFork) := do
  let history ←
    if jsonStringMember record "history" = some (ofString "rewindable") then .ok .rewindable
    else if jsonStringMember record "history" = some (ofString "latest") then .ok .latest
    else invalid "Invalid document record"
  let fork ←
    if jsonStringMember record "fork" = some (ofString "asOf") then .ok .asOf
    else if jsonStringMember record "fork" = some (ofString "initial") then .ok .initial
    else if jsonStringMember record "fork" = some (ofString "current") then .ok .current
    else invalid "Invalid document record"
  return (history, fork)

/-- The scope, history and fork that a record states, filled into `parsed`. -/
def parseDocumentScope (record scope : JsonObject Json) (scopeKind : Bytes)
    (parsed : DocumentRecord) : Expected DocumentRecord :=
  if scopeKind = "conversation" then do
    let conversationId ← present (jsonIntegerMember scope "conversationId") "Invalid document record"
    let (history, fork) ← parseDocumentModes record
    return { parsed with conversationId := some conversationId, history := history, fork := fork }
  else if scopeKind = "task" then do
    let taskId ← present (jsonIntegerMember scope "taskId") "Invalid document record"
    return { parsed with taskId := some taskId }
  else do
    refuse (scopeKind != "session") "Invalid document record"
    return parsed

def parseDocumentRecord (record : JsonObject Json) : Expected DocumentRecord := do
  let id ← present (jsonIntegerMember record "id") "Invalid document record"
  let kind ← present (jsonStringMember record "kind") "Invalid document record"
  let scope ← present (jsonObjectMember record "scope") "Invalid document record"
  let scopeKind ← present (jsonStringMember scope "kind") "Invalid document record"
  let parsed ← parseDocumentScope record scope scopeKind
    { id := id, kind := kind, key := jsonStringMember record "key" }
  return { parsed with retiredAt := jsonIntegerMember record "retiredAt" }

def parsePoint : Json → Expected DocumentPoint
  | .number seq => .ok (some seq.toInt)
  | .string name => do
      refuse (name != "current") "Invalid document copy source"
      return none
  | _ => invalid "Invalid document copy source"

def parseDocumentCopySource (source : JsonObject Json) : Expected DocumentCopySource := do
  let id ← present (jsonIntegerMember source "id") "Invalid document copy source"
  let at_ ← present (jsonMember source "at") "Invalid document copy source"
  let point ← parsePoint at_
  return ⟨id, point⟩

/-- The identity and the ordinal of an operation whose content stands in a sidecar. -/
def parseSidecarReference (operation : JsonObject Json) (problem : Bytes) : Expected (Int × Int) := do
  let id ← present (jsonIntegerMember operation "id") problem
  let ordinal ← present (jsonIntegerMember operation "ordinal") problem
  refuse (id < 0 || ordinal < 0) problem
  return (id, ordinal)

def parseCreation (operation : JsonObject Json) (problem : Bytes) : Expected (DocumentRecord × Int) := do
  let record ← present (jsonObjectMember operation "record") problem
  let id ← present (jsonIntegerMember record "id") problem
  let kind ← present (jsonStringMember record "kind") problem
  let ordinal ← present (jsonIntegerMember operation "ordinal") problem
  refuse (ordinal < 0) problem
  let parsed ← parseDocumentRecord record
  return ({ parsed with id := id, kind := kind }, ordinal)

def parseCopy (operation : JsonObject Json) (problem : Bytes) :
    Expected (DocumentRecord × DocumentCopySource × Int) := do
  let record ← present (jsonObjectMember operation "record") problem
  let id ← present (jsonIntegerMember record "id") problem
  let ordinal ← present (jsonIntegerMember operation "ordinal") problem
  let source ← present (jsonObjectMember operation "source") problem
  refuse (ordinal < 0) problem
  let parsed ← parseDocumentRecord record
  let parsedSource ← parseDocumentCopySource source
  return ({ parsed with id := id }, parsedSource, ordinal)

def parseTypedOperation (operation : JsonObject Json) (type description : Bytes) : Expected MainOperation :=
  if type = "conversation" then do
    let record ← present (jsonMember operation "value")
      (ofString "Invalid conversation write in " ++ description)
    let json ← fromSupport record
    .conversation <$> decodeConversationRecord json
  else if type = "entry" then do
    let record ← present (jsonMember operation "value")
      (ofString "Invalid entry write in " ++ description)
    .entry <$> parseEntry record description
  else if type = "task" then do
    let record ← present (jsonMember operation "value")
      (ofString "Invalid task write in " ++ description)
    let json ← fromSupport record
    .task <$> decodeTaskRecord json
  else if type = "task.sidecar" then do
    let (id, ordinal) ← parseSidecarReference operation
      (ofString "Invalid task sidecar write in " ++ description)
    return .taskSidecar id ordinal
  else if type = "submission" then do
    let record ← present (jsonMember operation "value")
      (ofString "Invalid submission write in " ++ description)
    let json ← fromSupport record
    .submission <$> decodeSubmissionRecord json
  else if type = "document.retire" then do
    let id ← present (jsonIntegerMember operation "id")
      (ofString "Invalid document retirement in " ++ description)
    return .documentRetire id
  else if type = "document.create" then do
    let (record, ordinal) ← parseCreation operation
      (ofString "Invalid document creation in " ++ description)
    return .documentCreate record ordinal
  else if type = "document.copy" then do
    let (record, source, ordinal) ← parseCopy operation
      (ofString "Invalid document copy in " ++ description)
    return .documentCopy record source ordinal
  else if type = "document.change" then do
    let (id, ordinal) ← parseSidecarReference operation
      (ofString "Invalid document change in " ++ description)
    return .documentChange id ordinal
  else invalid (ofString "Unknown write type in " ++ description)

def parseMainOperation (description : Bytes) (value : Json) : Expected MainOperation := do
  let operation ← present value.asObject (ofString "Invalid write in " ++ description)
  let type ← present (jsonStringMember operation "type")
    (ofString "Invalid write in " ++ description)
  parseTypedOperation operation type description

def parseMainMarker (text : Bytes) (line : Nat) : Expected MainMarker := do
  let description := lineOf "main.jsonl" line
  let parsed ← present (readJson text).toOption (ofString "Malformed complete " ++ description)
  let problem := ofString "Invalid commit marker in " ++ description
  let marker ← present parsed.asObject problem
  let format ← present (jsonMember marker "format") problem
  refuse (!isFormat format || jsonStringMember marker "type" != some (ofString "commit")) problem
  let seq ← present (jsonIntegerMember marker "seq") problem
  refuse (seq < 1) problem
  let writes ← present (jsonArrayMember marker "writes") problem
  let operations ← writes.mapM (parseMainOperation description)
  return ⟨seq, operations⟩

end CodingHarness.Durable
