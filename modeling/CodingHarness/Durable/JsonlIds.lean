import CodingHarness.Durable.JsonlStorage
import CodingHarness.Support.JsonNumbers

/-!
# The identities a JSONL log keeps

The JSONL backend has no record of the next identity: a reopen rebuilds it from the log.
`commit_logged` says that a commit adds a marker that names every record of its batch, and
`recover_recordIds` that a recovered log puts the next identity above every record it names. Neither
asks anything of the payloads: a log with a value that does not come back as it was either fails to
open or still names its records.
-/

namespace CodingHarness.Durable

open Library Support Chord
open List (forall_mem_append mem_cons_of_mem mem_cons_self not_mem_nil)

/-! ## What a marker keeps -/

/-- The identity of the record that an operation names. -/
def MainOperation.recordId : MainOperation → Option Int
  | .conversation record => some record.id
  | .entry record => some record.id
  | .task record => some record.id
  | .taskSidecar id _ => some id
  | .submission record => some record.id
  | .documentCreate record _ | .documentCopy record _ _ => some record.id
  | .documentChange _ _ | .documentRetire _ => none

/-- An identity that survives the conversion to a double. -/
def Survives (id : Int) : Prop := (Double.ofInt id).toInt = id

instance (id : Int) : Decidable (Survives id) := inferInstanceAs (Decidable (_ = _))

theorem wf_arrayOf {α : Type} {items : List α} {encode : α → Json} (h : ∀ a, (encode a).WF) :
    (Json.array (items.map encode)).WF := by
  rw [Json.wf_array]
  intro v hv
  obtain ⟨a, -, rfl⟩ := List.mem_map.1 hv
  exact h a

theorem wf_editMembers (edit : ContextEdit) : (Json.object (editMembers toSupport edit)).WF := by
  unfold editMembers
  refine wf_of_fields _ (by decide) ?_
  simp only [forall_mem_append, forall_mem_field]
  exact ⟨⟨trivial, trivial⟩, wf_arrayOf toSupport_wf⟩

theorem wf_entryValue (entry : EntryRecord) : (entryValue entry).WF := by
  unfold entryValue entryMembers
  refine wf_of_fields _ (by decide) ?_
  simp only [forall_mem_append, forall_mem_field, forall_mem_optionalField]
  refine ⟨⟨⟨⟨⟨⟨⟨trivial, trivial⟩, trivial⟩, toSupport_wf _⟩, fun _ _ => trivial⟩, ?_⟩, fun _ _ => trivial⟩, ?_⟩
  · split
    · exact nofun
    · exact (forall_mem_field _ _).2 (wf_arrayOf toSupport_wf)
  split
  · exact nofun
  · exact (forall_mem_field _ _).2 (wf_arrayOf wf_editMembers)

theorem wf_documentScopeMembers (record : DocumentRecord) : (Json.object (documentScopeMembers record)).WF := by
  unfold documentScopeMembers
  cases record.scope with
  | session => exact wf_of_fields _ (by decide) ((forall_mem_field _ _).2 trivial)
  | conversation | task =>
    refine wf_of_fields _ (by decide) ?_
    simp only [forall_mem_append, forall_mem_field]
    exact ⟨trivial, trivial⟩

theorem wf_documentCreateRecord (record : DocumentRecord) : (Json.object (documentCreateRecord record)).WF := by
  unfold documentCreateRecord
  refine wf_of_fields _ (by decide) ?_
  simp only [forall_mem_append, forall_mem_field, forall_mem_optionalField]
  refine ⟨⟨⟨⟨trivial, trivial⟩, fun _ _ => trivial⟩, wf_documentScopeMembers record⟩, ?_⟩
  split
  · simp only [forall_mem_append, forall_mem_field]
    exact ⟨trivial, trivial⟩
  · exact nofun

theorem wf_copySourceMembers (source : DocumentCopySource) : (Json.object (copySourceMembers source)).WF := by
  unfold copySourceMembers
  refine wf_of_fields _ (by decide) ?_
  simp only [forall_mem_append, forall_mem_field]
  refine ⟨trivial, ?_⟩
  cases source.at_ with
  | none | some seq => exact trivial

theorem wf_operationValue (operation : MainOperation) : (operationValue operation).WF := by
  unfold operationValue operationMembers
  cases operation
  all_goals
    refine wf_of_fields _ (by decide) ?_
    simp only [forall_mem_append, forall_mem_field]
  case conversation record | task record | submission record => exact ⟨trivial, toSupport_wf _⟩
  case entry record => exact ⟨trivial, wf_entryValue record⟩
  case taskSidecar id ordinal | documentChange id ordinal => exact ⟨⟨trivial, trivial⟩, trivial⟩
  case documentCreate record ordinal => exact ⟨⟨trivial, wf_documentCreateRecord record⟩, trivial⟩
  case documentCopy record source ordinal =>
    exact ⟨⟨⟨trivial, wf_documentCreateRecord record⟩, wf_copySourceMembers source⟩, trivial⟩
  case documentRetire id => exact ⟨trivial, trivial⟩

theorem wf_markerMembers (marker : MainMarker) : (Json.object (markerMembers marker)).WF := by
  unfold markerMembers
  refine wf_of_fields _ (by decide) ?_
  simp only [forall_mem_append, forall_mem_field]
  exact ⟨⟨⟨trivial, trivial⟩, trivial⟩, wf_arrayOf wf_operationValue⟩

section Decoding

variable {members : JsonObject Json} {n : Int}

theorem decodeConversationRecord_id {record : ConversationRecord} (hn : Survives n) (hkeeps : Keeps members "id" n)
    (h : decodeConversationRecord (.object members) = .ok record) : record.id = n := by
  simp only [decodeConversationRecord, Json.asObject, bind_eq_ok, pure_eq_ok, present_eq_ok, Option.some.injEq] at h
  obtain ⟨_, rfl, value, hvalue, _, -, _, -, rfl⟩ := h
  change value.toInt = n
  rw [hkeeps value hvalue]
  exact hn

theorem decodeTaskRecord_id {record : TaskRecord} (hn : Survives n) (hkeeps : Keeps members "id" n)
    (h : decodeTaskRecord (.object members) = .ok record) : record.id = n := by
  simp only [decodeTaskRecord, Json.asObject, bind_eq_ok, pure_eq_ok, present_eq_ok, Option.some.injEq] at h
  obtain ⟨_, rfl, id, hid, _, -, _, -, _, -, _, -, _, -, value, hvalue, _, -, _, -, _, -, _, -, _, -, rfl⟩ := h
  change value.toInt = n
  rw [hkeeps value (by rw [jsonNumberMember, hid]; exact hvalue)]
  exact hn

theorem decodeSubmissionRecord_id {record : SubmissionRecord} (hn : Survives n) (hkeeps : Keeps members "id" n)
    (h : decodeSubmissionRecord (.object members) = .ok record) : record.id = n := by
  simp only [decodeSubmissionRecord, Json.asObject, bind_eq_ok, pure_eq_ok, present_eq_ok, Option.some.injEq] at h
  obtain ⟨_, rfl, id, hid, _, -, _, -, _, -, value, hvalue, _, -, _, -, _, -, rfl⟩ := h
  change value.toInt = n
  rw [hkeeps value (by rw [jsonNumberMember, hid]; exact hvalue)]
  exact hn

theorem parseEntry_id {record : EntryRecord} {description : Bytes} (hn : Survives n) (hkeeps : Keeps members "id" n)
    (h : parseEntry (.object members) description = .ok record) : record.id = n := by
  simp only [parseEntry, Json.asObject, bind_eq_ok, pure_eq_ok, present_eq_ok, Option.some.injEq] at h
  obtain ⟨_, rfl, id, hid, _, -, _, -, _, -, _, -, _, -, _, -, rfl⟩ := h
  exact hkeeps.integer hn hid

variable {operation : JsonObject Json} {record : DocumentRecord}

theorem parseCreation_id {ordinal : Int} {problem : Bytes} (hn : Survives n)
    (hmem : ∀ inner, jsonObjectMember operation "record" = some inner → Keeps inner "id" n)
    (h : parseCreation operation problem = .ok (record, ordinal)) : record.id = n := by
  simp only [parseCreation, bind_eq_ok, pure_eq_ok, present_eq_ok] at h
  obtain ⟨inner, hinner, id, hid, _, -, _, -, _, -, _, -, heq⟩ := h
  cases heq
  exact (hmem inner hinner).integer hn hid

theorem parseCopy_id {source : DocumentCopySource} {ordinal : Int} {problem : Bytes} (hn : Survives n)
    (hmem : ∀ inner, jsonObjectMember operation "record" = some inner → Keeps inner "id" n)
    (h : parseCopy operation problem = .ok (record, source, ordinal)) : record.id = n := by
  simp only [parseCopy, bind_eq_ok, pure_eq_ok, present_eq_ok] at h
  obtain ⟨inner, hinner, id, hid, _, -, _, -, _, -, _, -, _, -, heq⟩ := h
  cases heq
  exact (hmem inner hinner).integer hn hid

end Decoding

theorem jsonMember_written (object : JsonObject Json) (name : String) :
    jsonMember (Json.writtenMembers object) name = (jsonMember object name).map Json.written :=
  find_writtenMembers _ _

theorem jsonStringMember_written (object : JsonObject Json) (name : String) :
    jsonStringMember (Json.writtenMembers object) name = jsonStringMember object name := by
  rw [jsonStringMember, jsonMember_written, jsonStringMember]
  cases jsonMember object name with
  | none => rfl
  | some v =>
    cases v with
    | number value =>
      simp only [Option.map_some, Option.bind_some, Json.written]
      split
      · rfl
      · rfl
    | null | bool flag | string text | array items | object members => rfl

theorem keeps_recordValue {members : JsonObject Json} {name : String} {n : Int} {json : Json}
    (h : Keeps members name n) (hread : fromSupport (toSupport (.object members)).written = .ok json) :
    ∃ read, json = .object read ∧ Keeps read name n := by
  simp only [toSupport, Json.written, fromSupport, bind_eq_ok, pure_eq_ok] at hread
  obtain ⟨read, hread, rfl⟩ := hread
  exact ⟨read, rfl, h.toSupport.written.fromSupport hread⟩

theorem keeps_documentCreateRecord {operation inner : JsonObject Json} {record : DocumentRecord}
    (hmem : jsonMember operation "record" = some (.object (documentCreateRecord record)))
    (hinner : jsonObjectMember (Json.writtenMembers operation) "record" = some inner) :
    Keeps inner "id" record.id := by
  rw [jsonObjectMember, jsonMember_written, hmem] at hinner
  cases hinner
  have hid : Keeps (documentCreateRecord record) "id" record.id := keeps_of_member (by simp [documentCreateRecord])
  exact hid.written

/-- **An operation that reads back keeps the identity of its record.** -/
theorem parseMainOperation_recordId {operation parsed : MainOperation} {description : Bytes}
    {id : Int} (hid : operation.recordId = some id) (hn : Survives id)
    (h : parseMainOperation description (operationValue operation).written = .ok parsed) :
    parsed.recordId = some id := by
  rw [operationValue, Json.written] at h
  simp only [parseMainOperation, Json.asObject, bind_eq_ok, present_eq_ok, Option.some.injEq] at h
  obtain ⟨_, rfl, type, htype, h⟩ := h
  rw [jsonStringMember_written] at htype
  cases operation
  all_goals
    simp [operationMembers, jsonStringMember, Json.asString] at htype
    subst htype
  case conversation record =>
    cases hid
    have hkeeps : Keeps (field "id" (number record.id) ++ optionalField "owner" encodeOwner record.owner ++
        optionalField "parent" encodeParent record.parent) "id" record.id :=
      keeps_of_member (by simp)
    simp [parseTypedOperation, jsonMember_written, operationMembers] at h
    obtain ⟨json, hjson, decoded, hdec, rfl⟩ := h
    obtain ⟨read, rfl, hread⟩ := keeps_recordValue hkeeps hjson
    exact congrArg some (decodeConversationRecord_id hn hread hdec)
  case entry record =>
    cases hid
    have hkeeps : Keeps (entryMembers toSupport record) "id" record.id := keeps_of_member (by simp [entryMembers])
    simp [parseTypedOperation, jsonMember_written, operationMembers, entryValue] at h
    obtain ⟨decoded, hdec, rfl⟩ := h
    exact congrArg some (parseEntry_id hn hkeeps.written hdec)
  case task record =>
    cases hid
    have hkeeps : Keeps (taskMembers record) "id" record.id := keeps_of_member (by simp [taskMembers])
    simp [parseTypedOperation, jsonMember_written, operationMembers] at h
    obtain ⟨json, hjson, decoded, hdec, rfl⟩ := h
    obtain ⟨read, rfl, hread⟩ := keeps_recordValue hkeeps hjson
    exact congrArg some (decodeTaskRecord_id hn hread hdec)
  case taskSidecar task ordinal =>
    cases hid
    have hkeeps : Keeps (operationMembers (.taskSidecar id ordinal)) "id" id :=
      keeps_of_member (by simp [operationMembers])
    simp [parseTypedOperation, parseSidecarReference] at h
    obtain ⟨read, hread, _, _, _, rfl⟩ := h
    exact congrArg some (hkeeps.written.integer hn hread)
  case submission record =>
    cases hid
    have hkeeps : Keeps (submissionMembers record) "id" record.id := keeps_of_member (by simp [submissionMembers])
    simp [parseTypedOperation, jsonMember_written, operationMembers] at h
    obtain ⟨json, hjson, decoded, hdec, rfl⟩ := h
    obtain ⟨read, rfl, hread⟩ := keeps_recordValue hkeeps hjson
    exact congrArg some (decodeSubmissionRecord_id hn hread hdec)
  case documentCreate record ordinal =>
    cases hid
    have hkeeps := @keeps_documentCreateRecord (operationMembers (.documentCreate record ordinal))
    simp [parseTypedOperation] at h
    obtain ⟨decoded, read, hdec, rfl⟩ := h
    exact congrArg some (parseCreation_id hn (fun inner hinner => hkeeps (by simp [operationMembers]) hinner) hdec)
  case documentCopy record source ordinal =>
    cases hid
    have hkeeps := @keeps_documentCreateRecord (operationMembers (.documentCopy record source ordinal))
    simp [parseTypedOperation] at h
    obtain ⟨decoded, read, place, hdec, rfl⟩ := h
    exact congrArg some (parseCopy_id hn (fun inner hinner => hkeeps (by simp [operationMembers]) hinner) hdec)
  case documentChange document ordinal | documentRetire document => cases hid

theorem exists_of_mapM_ok {α β : Type} {f : α → Expected β} {items : List α} {results : List β}
    (h : items.mapM f = .ok results) {a : α} (ha : a ∈ items) : ∃ b, f a = .ok b ∧ b ∈ results := by
  induction items generalizing results with
  | nil => cases ha
  | cons item rest ih =>
    simp only [List.mapM_cons, bind_eq_ok, pure_eq_ok] at h
    obtain ⟨b, hb, later, hlater, rfl⟩ := h
    rcases List.mem_cons.1 ha with rfl | ha
    · exact ⟨b, hb, mem_cons_self⟩
    · obtain ⟨c, hc, hmem⟩ := ih hlater ha
      exact ⟨c, hc, mem_cons_of_mem _ hmem⟩

/-- The identities that the operations of a marker name. -/
def MainMarker.recordIds (marker : MainMarker) : List Int := marker.writes.filterMap MainOperation.recordId

/-- **A marker that reads back keeps the identities of its records.** -/
theorem parseMainMarker_recordIds {marker parsed : MainMarker} {line : Nat}
    (hn : ∀ id ∈ marker.recordIds, Survives id) (h : parseMainMarker (markerLine marker) line = .ok parsed) :
    ∀ id ∈ marker.recordIds, id ∈ parsed.recordIds := by
  have hread : readJson (markerLine marker) = .ok (Json.object (markerMembers marker)).written :=
    readJson_writeJson_written (wf_markerMembers marker)
  have hwrites : jsonArrayMember (Json.writtenMembers (markerMembers marker)) "writes"
      = some ((marker.writes.map operationValue).map Json.written) := by
    rw [jsonArrayMember, jsonMember_written, ← Json.writtenItems_eq]
    simp [markerMembers, Json.written, Json.asArray]
  simp only [parseMainMarker, hread, Except.toOption, Json.written, bind_eq_ok, present_eq_ok,
    pure_eq_ok, Option.some.injEq] at h
  obtain ⟨_, rfl, object, hobj, _, -, _, -, _, -, _, -, values, hvalues, operations, hoperations, rfl⟩ := h
  obtain rfl : Json.writtenMembers (markerMembers marker) = object := Option.some.inj hobj
  rw [hwrites, Option.some.injEq] at hvalues
  subst hvalues
  intro id hid
  obtain ⟨operation, hop, hrec⟩ := List.mem_filterMap.1 hid
  have hmem : (operationValue operation).written ∈ (marker.writes.map operationValue).map Json.written :=
    List.mem_map_of_mem (List.mem_map_of_mem hop)
  obtain ⟨read, hread, hmemRead⟩ := exists_of_mapM_ok hoperations hmem
  exact List.mem_filterMap.2 ⟨read, hmemRead, parseMainOperation_recordId hrec (hn id hid) hread⟩

/-! ## Replaying the log -/

section Replay

variable {index : RecoveryIndex} {state state' : StorageState} {seq : Seq} {confirmed confirmed' : List SidecarKey}
  {operation : MainOperation}

/-- A replayed operation restores a write with its identity, unless it is a live task that ends
terminal. -/
theorem replayOperation_recordId {write : Option StorageWrite} {id : Int}
    (h : replayOperation index state seq confirmed operation = .ok (confirmed', write))
    (hid : operation.recordId = some id) : (∃ restored, write = some restored ∧ restored.recordId = some id) ∨
      ((∃ ordinal, operation = .taskSidecar id ordinal) ∧ index.finalTaskLive id = some false) := by
  cases operation with
  | conversation record | entry record | task record | submission record =>
    cases h
    exact Or.inl ⟨_, rfl, hid⟩
  | taskSidecar task ordinal =>
    cases hid
    simp only [replayOperation, replayTask, bind_eq_ok] at h
    obtain ⟨_, -, h⟩ := h
    by_cases hfinal : index.finalTaskLive id = some false
    · exact Or.inr ⟨⟨ordinal, rfl⟩, hfinal⟩
    left
    have hlive : (index.finalTaskLive id == some false) = false := by simpa using hfinal
    rw [hlive] at h
    cases hfind : index.find (.task id) seq ordinal with
    | none => simp [hfind] at h
    | some record =>
      rw [hfind] at h
      cases hpay : record.payload with
      | document other content => simp [hpay] at h
      | task found =>
        simp only [hpay, bind_eq_ok, refuse_eq_ok, pure_eq_ok] at h
        obtain ⟨-, hsame, heq⟩ := h
        cases heq
        refine ⟨_, rfl, congrArg some ?_⟩
        simpa using hsame
  | documentCreate record ordinal | documentCopy record source ordinal =>
    simp only [replayOperation, bind_eq_ok, pure_eq_ok] at h
    obtain ⟨_, -, _, -, heq⟩ := h
    cases heq
    exact Or.inl ⟨_, rfl, hid⟩
  | documentChange document ordinal | documentRetire document => cases hid

theorem replayOperations_recordId {operations : List MainOperation} {writes : List StorageWrite}
    (h : replayOperations index state seq confirmed operations = .ok (confirmed', writes))
    (hmem : operation ∈ operations) {id : Int} (hid : operation.recordId = some id) : id ∈ recordIds writes ∨
      ((∃ ordinal, operation = .taskSidecar id ordinal) ∧ index.finalTaskLive id = some false) := by
  induction operations generalizing confirmed writes with
  | nil => cases hmem
  | cons first rest ih =>
    simp only [replayOperations, bind_eq_ok, pure_eq_ok] at h
    obtain ⟨⟨_, write⟩, hfirst, ⟨_, later⟩, hrest, heq⟩ := h
    cases heq
    rcases List.mem_cons.1 hmem with rfl | hmem
    · rcases replayOperation_recordId hfirst hid with ⟨restored, rfl, hrestored⟩ | hlive
      · left
        exact List.mem_filterMap.2 ⟨restored, List.mem_append_left _ (by simp), hrestored⟩
      · exact Or.inr hlive
    rcases ih hrest hmem with hin | hlive
    · left
      obtain ⟨restored, hrestored, hrec⟩ := List.mem_filterMap.1 hin
      exact List.mem_filterMap.2 ⟨restored, List.mem_append_right _ hrestored, hrec⟩
    · exact Or.inr hlive

variable {markers : List MainMarker}

theorem replayMarkers_recordId (h : replayMarkers index confirmed state markers = .ok (confirmed', state')) :
    state.nextId ≤ state'.nextId ∧
      ∀ marker ∈ markers, ∀ operation ∈ marker.writes, ∀ id, operation.recordId = some id → id < state'.nextId ∨
          ((∃ ordinal, operation = .taskSidecar id ordinal) ∧ index.finalTaskLive id = some false) := by
  induction markers generalizing confirmed state with
  | nil =>
    rw [replayMarkers, Except.ok.injEq, Prod.mk.injEq] at h
    exact ⟨le_of_eq (congrArg _ h.2), nofun⟩
  | cons first rest ih =>
    simp only [replayMarkers, bind_eq_ok, present_eq_ok] at h
    obtain ⟨⟨_, writes⟩, hreplay, restored, hrestored, hrest⟩ := h
    obtain ⟨hle, hbelow⟩ := ih hrest
    cases hbatch : state.restore writes first.seq with
    | error e => simp [hbatch, Except.toOption] at hrestored
    | ok next =>
      rw [hbatch, Except.toOption, Option.some.injEq] at hrestored
      subst hrestored
      obtain ⟨hraise, hids⟩ := StorageState.applyBatch_recordIds hbatch
      refine ⟨le_trans hraise hle, ?_⟩
      intro marker hmark operation hop id hid
      rcases List.mem_cons.1 hmark with rfl | hmark
      · rcases replayOperations_recordId hreplay hop hid with hin | hlive
        · exact Or.inl (lt_of_lt_of_le (hids id hin) hle)
        · exact Or.inr hlive
      · exact hbelow marker hmark operation hop id hid

theorem exists_terminal_of_finalTaskLive (hindex : index.operations = operationsOf markers) {id : TaskId}
    (h : index.finalTaskLive id = some false) :
    ∃ marker ∈ markers, ∃ record : TaskRecord, .task record ∈ marker.writes ∧ record.id = id := by
  rw [RecoveryIndex.finalTaskLive, List.lookup_eq_some_iff] at h
  obtain ⟨front, back, hsplit, -⟩ := h
  have hmem : (id, false) ∈ index.operations.filterMap fun operation =>
      RecoveryIndex.taskState operation.2 := by
    rw [← List.mem_reverse, hsplit]
    simp
  obtain ⟨⟨place, operation⟩, hop, hstate⟩ := List.mem_filterMap.1 hmem
  rw [hindex, operationsOf, List.mem_flatMap] at hop
  obtain ⟨marker, hmark, hin⟩ := hop
  obtain ⟨found, hfound, heq⟩ := List.mem_map.1 hin
  cases heq
  cases operation with
  | task record =>
    cases hstate
    exact ⟨marker, hmark, record, hfound, rfl⟩
  | taskSidecar task ordinal | conversation record | entry record | submission record
  | documentCreate record ordinal | documentCopy record source ordinal | documentChange document ordinal
  | documentRetire document => cases hstate

end Replay

/-! ## The log on disk -/

theorem checkLines_eq_ok {name : Bytes} {lines : List Bytes} {start number : Nat}
    {read : List RawLine} (h : checkLines name start number lines = .ok read) : read = rawLines start lines := by
  induction lines generalizing start number read with
  | nil =>
    cases h
    rfl
  | cons text rest ih =>
    simp only [checkLines, bind_eq_ok, pure_eq_ok] at h
    obtain ⟨_, -, later, hlater, rfl⟩ := h
    rw [rawLines, ih hlater]

theorem parseMarkers_mem {previous : Seq} {number start : Nat} {lines : List Bytes}
    {parsed : List MainMarker} (h : parseMarkers previous number (rawLines start lines) = .ok parsed)
    {text : Bytes} (hmem : text ∈ lines) : ∃ marker ∈ parsed, ∃ line, parseMainMarker text line = .ok marker := by
  induction lines generalizing previous number start parsed with
  | nil => cases hmem
  | cons first rest ih =>
    simp only [rawLines, parseMarkers, bind_eq_ok, pure_eq_ok] at h
    obtain ⟨marker, hmark, _, -, later, hlater, rfl⟩ := h
    rcases List.mem_cons.1 hmem with rfl | hmem
    · exact ⟨marker, mem_cons_self, number, hmark⟩
    · obtain ⟨found, hfound, line, hline⟩ := ih hlater hmem
      exact ⟨found, mem_cons_of_mem _ hfound, line, hline⟩

/-- The markers that the lines of `main.jsonl` are written from. -/
def Logged (directory : Directory) (markers : List MainMarker) : Prop :=
  directory.main = Lines.join 0x0A (markers.map markerLine)

variable {directory : Directory} {markers : List MainMarker}

/-- **A recovered log puts the next identity above every record it names.** -/
theorem recover_recordIds {storage : JsonlStorage} (hlog : Logged directory markers)
    (hn : ∀ marker ∈ markers, ∀ id ∈ marker.recordIds, Survives id)
    (h : JsonlStorage.recover directory = .ok storage) :
    Logged storage.directory markers ∧ ∀ marker ∈ markers, ∀ id ∈ marker.recordIds, id < storage.state.nextId := by
  have hnewline : ∀ line ∈ markers.map markerLine, (0x0A : UInt8) ∉ line := by
    intro line hline
    obtain ⟨marker, -, rfl⟩ := List.mem_map.1 hline
    exact newline_notMem_writeJson _
  have hcomplete : Lines.completePrefix 0x0A directory.main = directory.main := by
    have hjoin := @Lines.completePrefix_join _ _ (0x0A : UInt8) [] (markers.map markerLine) not_mem_nil
    rw [List.append_nil] at hjoin
    rw [hlog, hjoin]
  have hsplit : Lines.split 0x0A directory.main = markers.map markerLine := by
    have hjoin := @Lines.split_join _ _ (0x0A : UInt8) [] (markers.map markerLine) hnewline not_mem_nil
    rw [List.append_nil] at hjoin
    rw [hlog, hjoin]
  simp only [JsonlStorage.recover, readCompleteLines, splitCompleteLines, hcomplete, hsplit,
    bind_eq_ok, pure_eq_ok] at h
  obtain ⟨_, ⟨lines, hlines, rfl⟩, parsed, hparsed, files, -, ⟨_, state⟩, hreplay, repaired, -, rfl⟩ := h
  rw [checkLines_eq_ok hlines] at hparsed
  refine ⟨hlog, ?_⟩
  intro marker hmark id hid
  obtain ⟨read, hread, line, hline⟩ := parseMarkers_mem hparsed (List.mem_map_of_mem hmark)
  have hin := parseMainMarker_recordIds (hn marker hmark) hline id hid
  obtain ⟨operation, hop, hrec⟩ := List.mem_filterMap.1 hin
  obtain ⟨-, hbelow⟩ := replayMarkers_recordId hreplay
  rcases hbelow read hread operation hop id hrec with hlt | ⟨-, hfinal⟩
  · exact hlt
  -- The live record was skipped; the terminal one of the same task is restored.
  obtain ⟨last, hlast, record, hterm, rfl⟩ := exists_terminal_of_finalTaskLive rfl hfinal
  rcases hbelow last hlast (.task record) hterm record.id rfl with hlt | ⟨⟨_, hlive⟩, -⟩
  · exact hlt
  · cases hlive

/-! ## What a commit adds to the log -/

/-- A copy finds a base of its source in the sidecar file of the source. -/
def copyReadable (directory : Directory) : StorageWrite → Bool
  | .documentCopy (some record) (some source) => (copiedBase directory record source).isSome
  | _ => true

variable {seq : Seq} {documents : OrdMap DocumentId StoredDocumentState} {next next' : StorageState}

theorem StorageState.applyWrite_complete {batch : List StorageWrite} {consumeSeq : Bool}
    {write : StorageWrite} (h : applyWrite documents batch seq consumeSeq next write = .ok next') :
    (∀ record version, write ≠ .documentCreate record version none) ∧
      ∀ record, write ≠ .documentCopy record none := by
  constructor
  · rintro record version rfl
    obtain ⟨r, v, -, hvalue, -⟩ := applyDocumentCreate_eq_ok.1 h
    cases hvalue
  rintro record rfl
  obtain ⟨r, source, content, -, hsource, -⟩ := applyDocumentCopy_eq_ok.1 h
  cases hsource

theorem applyWrites_complete {batch writes : List StorageWrite} {consumeSeq : Bool}
    (h : StorageState.applyWrites documents batch seq consumeSeq next writes = .ok next') :
    (∀ record version, .documentCreate record version none ∉ writes) ∧
      ∀ record, .documentCopy record none ∉ writes := by
  induction writes generalizing next with
  | nil => exact ⟨fun _ _ => not_mem_nil, fun _ => not_mem_nil⟩
  | cons write rest ih =>
    obtain ⟨updated, hwrite, hrest⟩ := StorageState.applyWrites_cons_eq_ok.1 h
    obtain ⟨hcreate, hcopy⟩ := StorageState.applyWrite_complete hwrite
    obtain ⟨hcreates, hcopies⟩ := ih hrest
    constructor
    · intro record version hmem
      rcases List.mem_cons.1 hmem with heq | hmem
      · exact hcreate record version heq.symm
      · exact hcreates record version hmem
    intro record hmem
    rcases List.mem_cons.1 hmem with heq | hmem
    · exact hcopy record heq.symm
    · exact hcopies record hmem

theorem encodeWrite_recordId {ordinal : Int}
    {write : StorageWrite} (hcreate : ∀ record version, write ≠ .documentCreate record version none)
    (hcopy : ∀ record, write ≠ .documentCopy record none) (hreadable : copyReadable directory write = true) :
    ∃ encoded, encodeWrite directory seq ordinal write = some encoded ∧
      encoded.operation.bind MainOperation.recordId = write.recordId := by
  match write with
  | .conversation none | .conversation (some _) => exact ⟨_, rfl, rfl⟩
  | .entry none | .entry (some _) => exact ⟨_, rfl, rfl⟩
  | .submission none | .submission (some _) => exact ⟨_, rfl, rfl⟩
  | .task none => exact ⟨_, rfl, rfl⟩
  | .task (some record) =>
    rw [encodeWrite]
    split
    · exact ⟨_, rfl, rfl⟩
    · exact ⟨_, rfl, rfl⟩
  | .documentCreate none _ (some _) => exact ⟨_, rfl, rfl⟩
  | .documentCreate (some _) _ (some _) => exact ⟨_, rfl, rfl⟩
  | .documentCreate record version none => exact absurd rfl (hcreate record version)
  | .documentCopy none (some _) => exact ⟨_, rfl, rfl⟩
  | .documentCopy (some record) (some source) =>
    obtain ⟨base, hbase⟩ := Option.isSome_iff_exists.1 hreadable
    rw [encodeWrite, hbase]
    exact ⟨_, rfl, rfl⟩
  | .documentCopy record none => exact absurd rfl (hcopy record)
  | .documentChange none _ _ _ | .documentChange (some _) _ _ _ => exact ⟨_, rfl, rfl⟩
  | .documentRetire none | .documentRetire (some _) => exact ⟨_, rfl, rfl⟩
  | .unknown => exact ⟨_, rfl, rfl⟩

theorem encodeWrites_recordIds {ordinal : Int} {writes : List StorageWrite}
    (hcreate : ∀ record version, .documentCreate record version none ∉ writes)
    (hcopy : ∀ record, .documentCopy record none ∉ writes)
    (hreadable : ∀ write ∈ writes, copyReadable directory write = true) :
    ∃ encoded, encodeWrites directory seq ordinal writes = some encoded ∧
      (encoded.flatMap fun write => write.operation.toList).filterMap MainOperation.recordId = recordIds writes := by
  induction writes generalizing ordinal with
  | nil => exact ⟨[], rfl, rfl⟩
  | cons write rest ih =>
    obtain ⟨first, hfirst, hrec⟩ := @encodeWrite_recordId directory seq ordinal write
      (fun record version heq => hcreate record version (heq ▸ mem_cons_self))
      (fun record heq => hcopy record (heq ▸ mem_cons_self))
      (hreadable write mem_cons_self)
    obtain ⟨later, hlater, hids⟩ := @ih (if first.sidecar.isSome then ordinal + 1 else ordinal)
      (fun record version hmem => hcreate record version (mem_cons_of_mem _ hmem))
      (fun record hmem => hcopy record (mem_cons_of_mem _ hmem))
      (fun other hmem => hreadable other (mem_cons_of_mem _ hmem))
    refine ⟨first :: later, by simp [encodeWrites, hfirst, hlater], ?_⟩
    rw [List.flatMap_cons, List.filterMap_append, hids, recordIds, recordIds, List.filterMap_cons, ← hrec]
    cases first.operation with
    | none => rfl
    | some operation =>
      cases hop : operation.recordId with
      | none | some id => simp [hop]

theorem foldl_add_operations (encoded : List EncodedWrite) (encoder : CommitEncoder) :
    (encoded.foldl CommitEncoder.add encoder).operations
      = encoder.operations ++ encoded.flatMap fun write => write.operation.toList := by
  induction encoded generalizing encoder with
  | nil => simp
  | cons write rest ih =>
    rw [List.foldl_cons, ih, List.flatMap_cons, ← List.append_assoc]
    rfl

theorem foldl_run_main {steps : List DiskStep} (h : ∀ step ∈ steps, ∀ content, step ≠ .appendMain content) :
    (steps.foldl DiskStep.run directory).main = directory.main := by
  induction steps generalizing directory with
  | nil => rfl
  | cons step rest ih =>
    rw [List.foldl_cons, ih fun other hother => h other (mem_cons_of_mem _ hother)]
    have hstep := h step mem_cons_self
    cases step with
    | append file content | remove file | stage file content => rfl
    | appendMain content => exact absurd rfl (hstep content)
    | rename file =>
      rw [DiskStep.run]
      split
      · rfl
      · rfl

theorem steps_main (encoded : EncodedCommit) (directory : Directory) :
    (encoded.steps.foldl DiskStep.run directory).main = directory.main ++ encoded.marker := by
  rw [EncodedCommit.steps, List.foldl_append, List.foldl_cons, foldl_run_main]
  · show Directory.main (List.foldl _ _ _) ++ encoded.marker = _
    rw [foldl_run_main]
    intro step hstep content heq
    obtain ⟨⟨file, bytes⟩, -, rfl⟩ := List.mem_map.1 hstep
    cases heq
  intro step hstep content heq
  obtain ⟨⟨file, bytes⟩, -, hin⟩ := List.mem_flatMap.1 hstep
  rw [reclaimSteps, heq] at hin
  split at hin
  · simp at hin
  · simp at hin

/-- **A commit adds one marker, which names the records of the batch.** -/
theorem commit_logged {storage next : JsonlStorage} {writes : List StorageWrite}
    (hlog : Logged storage.directory markers)
    (hreadable : ∀ write ∈ writes, copyReadable storage.directory write = true)
    (h : storage.commit writes = .ok (next, seq)) :
    ∃ added : List MainMarker, Logged next.directory (markers ++ added) ∧
      (∀ marker ∈ added, marker.recordIds = recordIds writes) ∧
      (∀ id ∈ recordIds writes, ∃ marker ∈ added, id ∈ marker.recordIds) := by
  simp only [JsonlStorage.commit, bind_eq_ok] at h
  obtain ⟨state, happly, h⟩ := h
  split at h
  · rename_i hempty
    simp only [pure_eq_ok, Prod.mk.injEq] at h
    obtain ⟨rfl, -⟩ := h
    rw [List.isEmpty_iff] at hempty
    refine ⟨[], by simpa using hlog, (by simp), ?_⟩
    rw [hempty]
    rintro _ ⟨⟩
  simp only [pure_eq_ok, Prod.mk.injEq] at h
  obtain ⟨rfl, -⟩ := h
  obtain ⟨-, after, hwrites, -⟩ := StorageState.applyBatch_eq_ok.1 happly
  have hcomplete := applyWrites_complete hwrites
  obtain ⟨encoded, henc, hids⟩ := @encodeWrites_recordIds storage.directory
    storage.state.nextSeq 0 writes hcomplete.1 hcomplete.2 hreadable
  refine ⟨[⟨storage.state.nextSeq, (encoded.foldl CommitEncoder.add {}).operations⟩], ?_, ?_, ?_⟩
  · rw [Logged, steps_main, JsonlStorage.encoded, encodeCommit, henc, hlog]
    simp
  · intro marker hmark
    rw [List.mem_singleton.1 hmark, MainMarker.recordIds, foldl_add_operations]
    exact hids
  · intro id hid
    refine ⟨_, List.mem_singleton_self _, ?_⟩
    rw [MainMarker.recordIds, foldl_add_operations]
    exact hids ▸ hid

end CodingHarness.Durable
