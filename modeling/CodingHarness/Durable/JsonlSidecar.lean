import CodingHarness.Durable.StorageEncoding

/-!
# Sidecar records of the JSONL backend

A sidecar file of `JsonlStorage.cpp` holds one JSON record a line: the content of a document, or a
live task. `sidecarLine` writes a record and `parseSidecar` reads it back.

The writer states version 1 for every document content and leaves out the wait list and the join
policy of a task that does not wait, so the round trip is the identity exactly on the records that are
`Kept` (`parseSidecar_sidecarLine_iff`).
-/

namespace CodingHarness.Durable

open Library Support Chord

/-! ## Records -/

/-- The content of a document after one commit. -/
inductive DocumentContent where
  | base (version : Nat) (value : Json)
  | delta (version : Nat) (ops : OpBatch)
  deriving DecidableEq

/-- The payload of a sidecar record. -/
inductive SidecarPayload where
  | document (id : DocumentId) (content : DocumentContent)
  | task (record : TaskRecord)
  deriving DecidableEq

/-- One line of a sidecar file. -/
structure SidecarRecord where
  seq : Seq
  ordinal : Int
  payload : SidecarPayload
  deriving DecidableEq

/-! ## Writing -/

/-- The members of the `content` of a document record. -/
def contentMembers : DocumentContent → JsonObject Json
  | .base _ value =>
    field "version" (number 1) ++ field "kind" (.string "base") ++ field "value" (toSupport value)
  | .delta _ ops =>
    field "version" (number 1) ++ field "kind" (.string "delta") ++ field "ops" (opsValue ops)

/-- The `payload` member of a sidecar record. -/
def payloadMembers : SidecarPayload → JsonObject Json
  | .task record =>
    field "type" (.string "task") ++ field "value" (toSupport (encodeTaskRecord record))
  | .document id content =>
    field "type" (.string "document") ++ field "id" (number id) ++
      field "content" (.object (contentMembers content))

def sidecarMembers (record : SidecarRecord) : JsonObject Json := field "format" (number 1) ++
  field "type" (.string "record") ++
  field "seq" (number record.seq) ++
  field "ordinal" (number record.ordinal) ++
  field "payload" (.object (payloadMembers record.payload))

def sidecarLine (record : SidecarRecord) : Bytes := writeJson (.object (sidecarMembers record))

/-! ## Reading -/

def isFormat (value : Json) : Bool := value.asNumber.any (Double.eq (Double.ofInt 1))

def parseContent (value : Json) : Expected DocumentContent := do
  let content ← present value.asObject "Invalid document content"
  let version ← present (jsonIntegerMember content "version") "Invalid document content"
  let kind ← present (jsonStringMember content "kind") "Invalid document content"
  refuse (version < 1) "Invalid document content"
  -- The version is cast to 32 bits.
  let version := version.toNat % 2 ^ 32
  if kind = "base" then do
    let base ← present (jsonMember content "value") "Invalid document content"
    let decoded ← fromSupport base
    return .base version decoded
  else if kind = "delta" then do
    let ops ← present (jsonMember content "ops") "Invalid document content"
    let decoded ← decodeOps ops
    return .delta version decoded
  else invalid "Invalid document content"

def lineOf (file : Bytes) (line : Nat) : Bytes := file ++ ofString " line " ++ intText line

def parseTaskPayload (payload : JsonObject Json) (file : Bytes) : Expected TaskRecord := do
  let value ← present (jsonMember payload "value")
    (ofString "Invalid live task record in " ++ file)
  let json ← fromSupport value
  let task ← present (decodeTaskRecord json).toOption
    (ofString "Invalid live task record in " ++ file)
  refuse (task.state.status == "terminal")
    (ofString "Invalid live task record in " ++ file)
  return task

/-- The identity and the content of a document line. -/
def parseDocumentPayload (payload : JsonObject Json) (file : Bytes) (line : Nat) :
    Expected (DocumentId × DocumentContent) := do
  let id ← present (jsonIntegerMember payload "id")
    (ofString "Invalid document record in " ++ lineOf file line)
  let content ← present (jsonMember payload "content")
    (ofString "Invalid document record in " ++ lineOf file line)
  let decoded ← parseContent content
  return (id, decoded)

def parsePayload (payload : JsonObject Json) (file : Bytes) (line : Nat) : Expected SidecarPayload :=
  if jsonStringMember payload "type" = some (ofString "task") then
    .task <$> parseTaskPayload payload file
  else if jsonStringMember payload "type" = some (ofString "document") then
    (fun (id, content) => .document id content) <$> parseDocumentPayload payload file line
  else invalid (ofString "Invalid sidecar record in " ++ file)

def parseSidecar (text : Bytes) (file : Bytes) (line : Nat) : Expected SidecarRecord := do
  let parsed ← present (readJson text).toOption
    (ofString "Malformed complete " ++ lineOf file line)
  let problem := ofString "Invalid sidecar record in " ++ lineOf file line
  let root ← present parsed.asObject problem
  let format ← present (jsonMember root "format") problem
  refuse (!isFormat format || jsonStringMember root "type" != some (ofString "record")) problem
  let seq ← present (jsonIntegerMember root "seq") problem
  let ordinal ← present (jsonIntegerMember root "ordinal") problem
  let payload ← present (jsonObjectMember root "payload") problem
  refuse (seq < 1 || ordinal < 0) problem
  let payload ← parsePayload payload file line
  return ⟨seq, ordinal, payload⟩

/-! ## The round trip -/

/-- What a file keeps of a document content: every version is stated as 1. -/
def DocumentContent.persisted : DocumentContent → DocumentContent
  | .base _ value => .base 1 value
  | .delta _ ops => .delta 1 ops

def DocumentContent.version : DocumentContent → Nat
  | .base version _ => version
  | .delta version _ => version

/-- A content that a file can hold: a storable base, or a valid batch with exact positions. -/
def DocumentContent.Representable : DocumentContent → Prop
  | .base _ value => value.Storable
  | .delta _ ops => BatchRepresentable ops

/-- A payload that a file can hold: a document with an exact identity, or a live task. -/
def SidecarPayload.Representable : SidecarPayload → Prop
  | .document id content => Exact id ∧ 1 ≤ content.version ∧ content.Representable
  | .task record => record.Representable ∧ record.state.status ≠ "terminal"

/-- A sidecar record that a file can hold. -/
structure SidecarRecord.Representable (record : SidecarRecord) : Prop where
  seq : Exact record.seq
  one_le_seq : 1 ≤ record.seq
  ordinal : Exact record.ordinal
  ordinal_nonneg : 0 ≤ record.ordinal
  payload : record.payload.Representable

theorem exact_one : Exact 1 := by decide

@[simp] theorem isFormat_number_one : isFormat (number 1) = true := by
  have h : Double.eq (Double.ofInt 1) (Double.ofInt 1) = true :=
    Double.eq_self_of_isFinite (Double.isFinite_ofInt exact_one)
  simpa [isFormat] using h

variable {content : DocumentContent}

theorem parseContent_contentMembers (h : content.Representable) :
    parseContent (.object (contentMembers content)) = .ok content.persisted := by
  have hversion : jsonIntegerMember (contentMembers content) "version" = some 1 := by
    rw [jsonIntegerMember_of_number (n := 1) (by cases content <;> simp [contentMembers]) exact_one]
    rfl
  cases content with
  | base version value =>
    have hkind : jsonStringMember (contentMembers (.base version value)) "kind"
        = some (ofString "base") := by simp [contentMembers, jsonStringMember, Json.asString]
    have hvalue : jsonMember (contentMembers (.base version value)) "value" = some value := by
      simp [contentMembers, toSupport_eq h.2]
    simp [parseContent, Json.asObject, hversion, hkind, hvalue, fromSupport_eq h, DocumentContent.persisted]
  | delta version ops =>
    have hkind : jsonStringMember (contentMembers (.delta version ops)) "kind"
        = some (ofString "delta") := by simp [contentMembers, jsonStringMember, Json.asString]
    have hops : jsonMember (contentMembers (.delta version ops)) "ops"
        = some (opsValue ops) := by simp [contentMembers]
    simp [parseContent, Json.asObject, hversion, hkind, hops, decodeOps_opsValue h, DocumentContent.persisted]

theorem parsePayload_task {record : TaskRecord} (h : record.Representable)
    (hlive : record.state.status ≠ "terminal") (file : Bytes) (line : Nat) :
    parsePayload (payloadMembers (.task record)) file line = .ok (.task record.persisted) := by
  have hstorable := storable_encodeTaskRecord h
  simp [parsePayload, payloadMembers, jsonStringMember, Json.asString, parseTaskPayload,
    toSupport_eq hstorable.2, fromSupport_eq hstorable, decodeTaskRecord_encodeTaskRecord h.exactFields,
    TaskRecord.persisted, hlive]

theorem parsePayload_document {id : DocumentId} (hid : Exact id)
    (h : content.Representable) (hnonneg : 0 ≤ id) (file : Bytes) (line : Nat) :
    parsePayload (payloadMembers (.document id content)) file line = .ok (.document id content.persisted) := by
  have hmem : jsonIntegerMember (payloadMembers (.document id content)) "id" = some id := by
    rw [jsonIntegerMember_of_number (n := id) (by simp [payloadMembers]) hid, if_pos hnonneg]
  simp [parsePayload, parseDocumentPayload, hmem]
  simp [payloadMembers, jsonStringMember, Json.asString, parseContent_contentMembers h]

theorem parsePayload_document_negative {id : DocumentId}
    (hid : Exact id) (hnegative : ¬ 0 ≤ id) (file : Bytes) (line : Nat) (payload : SidecarPayload) :
    parsePayload (payloadMembers (.document id content)) file line ≠ .ok payload := by
  have hmem : jsonIntegerMember (payloadMembers (.document id content)) "id" = none := by
    rw [jsonIntegerMember_of_number (n := id) (by simp [payloadMembers]) hid, if_neg hnegative]
  simp [parsePayload, parseDocumentPayload, hmem]
  simp [payloadMembers, jsonStringMember, Json.asString]

theorem storable_contentMembers (h : content.Representable) : (Json.object (contentMembers content)).Storable := by
  cases content with
  | base version value =>
    unfold contentMembers
    exact storable_of_fields _ (by decide)
      (by simp [storable_number exact_one, storable_toSupport h])
  | delta version ops =>
    unfold contentMembers
    exact storable_of_fields _ (by decide)
      (by simp [storable_number exact_one, storable_opsValue h.2])

theorem storable_payloadMembers {payload : SidecarPayload} (h : payload.Representable) :
    (Json.object (payloadMembers payload)).Storable := by
  cases payload with
  | document id content =>
    unfold payloadMembers
    exact storable_of_fields _ (by decide)
      (by simp [storable_number h.1, storable_contentMembers h.2.2])
  | task record =>
    unfold payloadMembers
    exact storable_of_fields _ (by decide)
      (by simp [storable_toSupport (storable_encodeTaskRecord h.1)])

theorem storable_sidecarMembers {record : SidecarRecord} (h : record.Representable) :
    (Json.object (sidecarMembers record)).Storable := by
  unfold sidecarMembers
  exact storable_of_fields _ (by decide) (by
    simp [storable_number exact_one, storable_number h.seq, storable_number h.ordinal,
      storable_payloadMembers h.payload])

theorem parseSidecar_sidecarLine_eq_ok {record result : SidecarRecord} (h : record.Representable)
    (file : Bytes) (line : Nat) : parseSidecar (sidecarLine record) file line = .ok result ↔
      ∃ payload, parsePayload (payloadMembers record.payload) file line = .ok payload ∧
        ⟨record.seq, record.ordinal, payload⟩ = result := by
  have hread : readJson (sidecarLine record) = .ok (.object (sidecarMembers record)) :=
    readJson_writeJson (storable_sidecarMembers h).1 (storable_sidecarMembers h).2
  have hseq : jsonIntegerMember (sidecarMembers record) "seq" = some record.seq := by
    rw [jsonIntegerMember_of_number (n := record.seq) (by simp [sidecarMembers]) h.seq,
      if_pos (le_trans (by decide) h.one_le_seq)]
  have hordinal : jsonIntegerMember (sidecarMembers record) "ordinal" = some record.ordinal := by
    rw [jsonIntegerMember_of_number (n := record.ordinal) (by simp [sidecarMembers]) h.ordinal,
      if_pos h.ordinal_nonneg]
  have hmembers : jsonMember (sidecarMembers record) "format" = some (number 1) ∧
      jsonStringMember (sidecarMembers record) "type" = some (ofString "record") ∧
      jsonObjectMember (sidecarMembers record) "payload" = some (payloadMembers record.payload) := by
    simp [sidecarMembers, jsonStringMember, jsonObjectMember, Json.asString, Json.asObject]
  obtain ⟨hformat, htype, hpay⟩ := hmembers
  simp [parseSidecar, hread, Json.asObject, hformat, htype, hseq, hordinal, hpay, h.one_le_seq, h.ordinal_nonneg]

/-- The records that a sidecar line keeps whole: a document with a nonnegative identity and
version 1, and a task that waits or holds neither a wait list nor a join policy. -/
def SidecarRecord.Kept (record : SidecarRecord) : Prop := match record.payload with
  | .document id content => 0 ≤ id ∧ content.version = 1
  | .task task =>
    task.state.status = "waiting" ∨ (task.state.on = [] ∧ task.state.policy = none)

theorem DocumentContent.persisted_eq_self_iff (content : DocumentContent) :
    content.persisted = content ↔ content.version = 1 := by
  cases content <;> simp [DocumentContent.persisted, DocumentContent.version, eq_comm]

/-- **A sidecar line returns its record exactly for the kept records.** -/
theorem parseSidecar_sidecarLine_iff (record : SidecarRecord) (h : record.Representable) (file : Bytes) (line : Nat) :
    parseSidecar (sidecarLine record) file line = .ok record ↔ record.Kept := by
  rw [parseSidecar_sidecarLine_eq_ok h]
  obtain ⟨seq, ordinal, payload⟩ := record
  have hpayload := h.payload
  cases payload with
  | document id content =>
    by_cases hid : 0 ≤ id
    · simp [parsePayload_document hpayload.1 hpayload.2.2 hid, SidecarRecord.Kept, hid,
        DocumentContent.persisted_eq_self_iff]
    · simp [parsePayload_document_negative hpayload.1 hid, SidecarRecord.Kept, hid]
  | task record =>
    simp [parsePayload_task hpayload.1 hpayload.2, SidecarRecord.Kept, TaskRecord.persisted_eq_self_iff]

def secondVersion : SidecarRecord := ⟨1, 0, .document 1 (.base 2 .null)⟩

theorem secondVersion_representable : secondVersion.Representable where
  seq := exact_one
  one_le_seq := by decide
  ordinal := by decide
  ordinal_nonneg := by decide
  payload := ⟨exact_one, by decide, Json.storable_null⟩

/-- The version of a content is lost. -/
theorem secondVersion_reads_as_first : secondVersion.Representable ∧
      parseSidecar (sidecarLine secondVersion) "doc-1.jsonl" 1 = .ok ⟨1, 0, .document 1 (.base 1 .null)⟩ ∧
      parseSidecar (sidecarLine secondVersion) "doc-1.jsonl" 1 ≠ .ok secondVersion := by
  have hread : parseSidecar (sidecarLine secondVersion) "doc-1.jsonl" 1
      = .ok ⟨1, 0, .document 1 (.base 1 .null)⟩ := by decide +kernel
  exact ⟨secondVersion_representable, hread, by rw [hread]; decide⟩

/-- The same base as version 1 is kept. -/
theorem firstVersion_reads_back : parseSidecar (sidecarLine ⟨1, 0, .document 1 (.base 1 .null)⟩) "doc-1.jsonl" 1
      = .ok ⟨1, 0, .document 1 (.base 1 .null)⟩ := by
  refine (parseSidecar_sidecarLine_iff ⟨1, 0, .document 1 (.base 1 .null)⟩ ?_ _ 1).2 ⟨by decide, rfl⟩
  exact ⟨exact_one, by decide, by decide, by decide, exact_one, by decide, Json.storable_null⟩

end CodingHarness.Durable
