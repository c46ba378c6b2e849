import CodingHarness.Chord.Applier
import CodingHarness.Durable.StorageEncoding

/-!
# Codecs of batches and records

Two readers decode an encoded batch: `decode_ops` of the storage and `decode_ops` of `Delta.cpp`, over the tuples
that `decodeTuples` reads. `ops_codec` shows that both return the batch. `record_codecs` is the round trip of task,
submission and conversation records.
-/

namespace CodingHarness.Durable

open Library Support Chord

/-! ## Batches -/

theorem decodedSize_number {n : Nat} (h : Exact n) : decodedSize (number n) = some n := by
  have hn : n < 2 ^ 53 := h
  have hint := Double.toInt_ofInt h
  have hsign : (Double.ofInt (n : Int)).isNegative = false := by
    rw [Double.isNegative_ofInt h]
    simp
  rw [Double.toInt, hsign, if_neg Bool.false_ne_true] at hint
  have hmagnitude : (Double.ofInt (n : Int)).magnitude = n := Int.ofNat_inj.1 hint
  simp only [decodedSize, asNumber_number, Option.bind_some, Double.isFinite_ofInt h,
    Double.isIntegral_ofInt h, hsign, hmagnitude, Bool.not_true, Bool.or_false, Bool.false_eq_true,
    if_false, Option.some.injEq]
  omega

theorem encodesPath_pathValue {path : Path} (h : PathExact path) : EncodesPath (pathValue path) path := by
  refine .mk (List.forall₂_map_left_iff.2 (List.forall₂_same.2 fun segment hmem => ?_))
  cases segment with
  | key key => exact .key key
  | index index => exact .index (decodedSize_number (h index hmem))

theorem encodes_opValue {op : Op} (h : OpRepresentable op) : Encodes (opValue op) op := by
  cases op with
  | replace value =>
    rw [opValue, toSupport_eq h.2]
    exact .replace value
  | set path value =>
    rw [opValue, toSupport_eq h.2.2]
    exact .set (encodesPath_pathValue h.1) value
  | delete path => exact .delete (encodesPath_pathValue h)
  | append path text => exact .append (encodesPath_pathValue h) text
  | truncate path count => exact .truncate (encodesPath_pathValue h.1) (decodedSize_number h.2)
  | splice path index remove items =>
    obtain ⟨hpath, hindex, hremove, hitems⟩ := h
    have hvalues : items.map toSupport = items := by
      conv_rhs => rw [← List.map_id items]
      exact List.map_congr_left fun item hitem => toSupport_eq (hitems item hitem).2
    rw [opValue, hvalues]
    exact .splice (encodesPath_pathValue hpath) (decodedSize_number hindex) (decodedSize_number hremove) items
  | move path permutation =>
    refine .move (encodesPath_pathValue h.1) (List.forall₂_map_left_iff.2 (List.forall₂_same.2 ?_))
    exact fun index hindex => decodedSize_number (h.2 index hindex)

/-- **Both readers of a batch return it.** -/
theorem ops_codec (spell : Double → Bytes) {ops : OpBatch} (h : BatchRepresentable ops) :
    decodeOps (opsValue ops) = .ok ops ∧
      ∃ tuples, fromSupport (opsValue ops) = .ok tuples ∧ decodeTuples spell tuples = .ok ops := by
  refine ⟨decodeOps_opsValue h, opsValue ops, fromSupport_eq (storable_opsValue h.2), ?_⟩
  refine decodeTuples_encodes spell (List.forall₂_map_left_iff.2 (List.forall₂_same.2 ?_)) h.1
  exact fun op hop => encodes_opValue (h.2 op hop)

/-- A batch with a path, a nested value and a permutation. -/
def mixedBatch : OpBatch := [.set [.key "log", .index 2] (.array [.bool true, .null]), .move [] [1, 0],
    .splice [.key "log"] 0 1 [.string "x"]]

theorem mixedBatch_representable : BatchRepresentable mixedBatch := by
  refine ⟨by decide, fun op hop => ?_⟩
  have hpath : PathExact [.key "log", .index 2] := by
    intro index hindex
    have hindex : index = 2 := by simpa using hindex
    subst hindex
    decide
  simp only [mixedBatch, List.mem_cons, List.not_mem_nil, or_false] at hop
  obtain rfl | rfl | rfl := hop
  · exact ⟨hpath, Json.storable_array (by simp)⟩
  · exact ⟨by simp [PathExact], by decide⟩
  · exact ⟨by simp [PathExact], by decide, by decide, by simp⟩

theorem ops_codec_mixedBatch : BatchRepresentable mixedBatch ∧ decodeOps (opsValue mixedBatch) = .ok mixedBatch ∧
      ∃ tuples, fromSupport (opsValue mixedBatch) = .ok tuples ∧ decodeTuples (fun _ => []) tuples = .ok mixedBatch :=
  ⟨mixedBatch_representable, ops_codec (fun _ => []) mixedBatch_representable⟩

/-- **Operations keep their text.** A batch is read back from the text that the SQLite backend stores for it. -/
theorem ops_text {ops : OpBatch} (h : BatchRepresentable ops) :
    (readJson (writeJson (opsValue ops))).bind decodeOps = .ok ops := by
  obtain ⟨hfinite, hwf⟩ := storable_opsValue h.2
  rw [readJson_writeJson hfinite hwf]
  exact decodeOps_opsValue h

theorem ops_text_mixedBatch : (readJson (writeJson (opsValue mixedBatch))).bind decodeOps = .ok mixedBatch :=
  ops_text mixedBatch_representable

/-! ## Records -/

/-- The integers of a submission pass through doubles unchanged. -/
structure SubmissionRecord.ExactFields (submission : SubmissionRecord) : Prop where
  id : Exact submission.id
  conversationId : Exact submission.conversationId
  entry : ∀ id, submission.entry = some id → Exact id
  answer : ∀ id, submission.answer = some id → Exact id

theorem decodeSubmissionRecord_encodeSubmissionRecord {submission : SubmissionRecord} (h : submission.ExactFields) :
    decodeSubmissionRecord (encodeSubmissionRecord submission) = .ok submission := by
  have hreq : jsonStringMember (submissionMembers submission) "requestId" = submission.requestId :=
    jsonStringMember_of_optional (by simp [submissionMembers])
  have hreason : jsonStringMember (submissionMembers submission) "reason" = submission.reason :=
    jsonStringMember_of_optional (by simp [submissionMembers])
  have hentry : jsonIntMember (submissionMembers submission) "entry" = submission.entry :=
    jsonIntMember_of_optional (by simp [submissionMembers]) h.entry
  have hanswer : jsonIntMember (submissionMembers submission) "answer" = submission.answer :=
    jsonIntMember_of_optional (by simp [submissionMembers]) h.answer
  have hrequired : jsonMember (submissionMembers submission) "id" = some (number submission.id) ∧
      jsonMember (submissionMembers submission) "conversationId" = some (number submission.conversationId) ∧
      jsonMember (submissionMembers submission) "type" = some (.string submission.type) ∧
      jsonMember (submissionMembers submission) "status" = some (.string submission.status) ∧
      jsonMember (submissionMembers submission) "detail" = submission.detail := by
    simp [submissionMembers]
  obtain ⟨hid, hconv, htype, hstat, hdetail⟩ := hrequired
  simp [decodeSubmissionRecord, encodeSubmissionRecord, Json.asObject, Json.asString, hid,
    hconv, htype, hstat, hdetail, hreq, hreason, hentry, hanswer, toInt_number h.id,
    toInt_number h.conversationId]

/-- The integers of a conversation pass through doubles unchanged. -/
structure ConversationRecord.ExactFields (conversation : ConversationRecord) : Prop where
  id : Exact conversation.id
  parent : ∀ parent, conversation.parent = some parent → Exact parent.conversationId ∧ Exact parent.at_
  owner : ∀ owner, conversation.owner = some owner → Exact owner.conversationId ∧ Exact owner.taskId

theorem decodeConversationRecord_encodeConversationRecord {conversation : ConversationRecord}
    (h : conversation.ExactFields) :
    decodeConversationRecord (encodeConversationRecord conversation) = .ok conversation := by
  obtain ⟨id, parent, owner⟩ := conversation
  have hpar : decodeParent (parent.map encodeParent) = .ok parent := by
    cases parent with
    | none => rfl
    | some parent =>
      obtain ⟨hconv, hat⟩ := h.parent parent rfl
      simp [decodeParent, encodeParent, Json.asObject, jsonNumberMember, toInt_number hconv, toInt_number hat]
  have howner : decodeOwner (owner.map encodeOwner) = .ok owner := by
    cases owner with
    | none => rfl
    | some owner =>
      obtain ⟨hconv, htask⟩ := h.owner owner rfl
      simp [decodeOwner, encodeOwner, Json.asObject, jsonNumberMember, toInt_number hconv, toInt_number htask]
  simp [decodeConversationRecord, encodeConversationRecord, Json.asObject, jsonNumberMember, hpar,
    howner, toInt_number h.id]

/-- **Task, submission and conversation records survive their encoding.** -/
theorem record_codecs : (∀ task : TaskRecord, task.ExactFields →
      (task.state.status = "waiting" ∨ (task.state.on = [] ∧ task.state.policy = none)) →
      decodeTaskRecord (encodeTaskRecord task) = .ok task) ∧
    (∀ submission : SubmissionRecord, submission.ExactFields →
      decodeSubmissionRecord (encodeSubmissionRecord submission) = .ok submission) ∧
    (∀ conversation : ConversationRecord, conversation.ExactFields →
      decodeConversationRecord (encodeConversationRecord conversation) = .ok conversation) := by
  refine ⟨fun task htask hkept => ?_, ?_, ?_⟩
  · rw [decodeTaskRecord_encodeTaskRecord htask, task.persisted_eq_self_iff.2 hkept]
  · exact fun _ => decodeSubmissionRecord_encodeSubmissionRecord
  · exact fun _ => decodeConversationRecord_encodeConversationRecord

/-- A task that waits, a submission and a child conversation. -/
theorem record_codecs_examples :
    let task : TaskRecord := { id := 3, conversationId := 1, state := { status := "waiting", on := [4] } }
    let submission : SubmissionRecord := { id := 5, conversationId := 1, entry := some 7 }
    let conversation : ConversationRecord := { id := 2, parent := some ⟨1, 7⟩ }
    decodeTaskRecord (encodeTaskRecord task) = .ok task ∧
      decodeSubmissionRecord (encodeSubmissionRecord submission) = .ok submission ∧
      decodeConversationRecord (encodeConversationRecord conversation) = .ok conversation := by
  refine ⟨record_codecs.1 _ ?_ (.inl rfl), record_codecs.2.1 _ ?_, record_codecs.2.2 _ ?_⟩
  · constructor <;> simp [Exact]
  · constructor <;> simp [Exact]
  · constructor <;> simp [Exact]

end CodingHarness.Durable
