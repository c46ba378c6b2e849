import CodingHarness.Durable.Records
import CodingHarness.Support.JsonAccess

/-!
# Encoding of operations and records

`StorageEncoding.cpp`: document operations as tuples, and conversation, task and submission records
as objects. The encoders emplace members with distinct literal names, which appends them.

Every integer of a record passes through a double. Within `Exact` integers each decoder undoes its
encoder: for operations (`decodeOps_opsValue`), for conversations and submissions, and for tasks up
to `TaskRecord.persisted`, since the wait list and the join policy of a task are written only while
the task waits (`decodeTaskRecord_encodeTaskRecord`).
-/

namespace CodingHarness.Durable

open Library Support Chord
open Json (storable_array storable_string)

/-! ## Operations -/

/-- One segment of `path_value`. -/
def segmentValue : PathSegment → Json
  | .key key => .string key
  | .index index => number index

def pathValue (path : Path) : Json := .array (path.map segmentValue)

def opValue : Op → Json
  | .replace value => .array [.string "r", toSupport value]
  | .set path value => .array [.string "s", pathValue path, toSupport value]
  | .delete path => .array [.string "d", pathValue path]
  | .append path text => .array [.string "a", pathValue path, .string text]
  | .truncate path count => .array [.string "t", pathValue path, number count]
  | .splice path index remove items =>
    .array [.string "p", pathValue path, number index, number remove, .array (items.map toSupport)]
  | .move path permutation =>
    .array [.string "m", pathValue path, .array (permutation.map fun index : Nat => number index)]

def opsValue (ops : OpBatch) : Json := .array (ops.map opValue)

/-- One segment of `decode_path`. -/
def decodeSegment : Json → Expected PathSegment
  | .string key => .ok (.key key)
  | segment => do
      let index ← present (nonnegativeInteger segment) "Invalid path"
      return .index index.toNat

def decodePath (value : Json) : Expected Path := do
  let segments ← present value.asArray "Invalid path"
  segments.mapM decodeSegment

def decodeSize (value : Json) : Expected Nat := do
  let size ← present (nonnegativeInteger value) "Invalid document operation"
  return size.toNat

/-- The path of an operation whose error hides the error of the path. -/
def decodeOpPath (value : Json) : Expected Path := present (decodePath value).toOption "Invalid document operation"

/-- One tuple of `decode_ops`. -/
def decodeOp (encoded : Json) : Expected Op := do
  let tuple ← present encoded.asArray "Invalid document operation"
  let head ← present tuple.head? "Invalid document operation"
  let verb ← present head.asString "Invalid document operation"
  match tuple.tail with
  | [value] =>
    if verb = "r" then .replace <$> fromSupport value
    else if verb = "d" then .delete <$> decodePath value
    else invalid "Unknown document operation verb"
  | [path, value] =>
    if verb = "s" then do
      let path ← decodeOpPath path
      let item ← present (fromSupport value).toOption "Invalid document operation"
      return .set path item
    else if verb = "a" then do
      let path ← decodeOpPath path
      let text ← present value.asString "Invalid document operation"
      return .append path text
    else if verb = "t" then do
      let path ← decodeOpPath path
      let count ← decodeSize value
      return .truncate path count
    else if verb = "m" then do
      let path ← decodeOpPath path
      let items ← present value.asArray "Invalid document operation"
      let permutation ← items.mapM decodeSize
      return .move path permutation
    else invalid "Unknown document operation verb"
  | [path, index, remove, items] =>
    if verb = "p" then do
      let path ← decodeOpPath path
      let index ← decodeSize index
      let remove ← decodeSize remove
      let items ← present items.asArray "Invalid document operation"
      let decoded ← items.mapM fromSupport
      return .splice path index remove decoded
    else invalid "Unknown document operation verb"
  | _ => invalid "Unknown document operation verb"

/-- `decode_ops`: the decoded batch is validated as a whole. -/
def decodeOps (value : Json) : Expected OpBatch := do
  let encoded ← present value.asArray "Invalid document operations"
  let ops ← encoded.mapM decodeOp
  validateBatch ops
  return ops

/-! ## Tasks -/

/-- The `error` member of a task outcome. -/
def encodeTaskOutcomeError (error : TaskOutcomeError) : JsonObject Json :=
  field "message" (.string error.message) ++ optionalField "detail" id error.detail

/-- The `outcome` member of a task state. -/
def encodeTaskOutcome (outcome : TaskOutcome) : JsonObject Json := field "status" (.string outcome.status) ++
  optionalField "result" id outcome.result ++
  optionalField "reason" .string outcome.reason ++
  optionalField "error" (fun error => .object (encodeTaskOutcomeError error)) outcome.error

/-- The `state` member of a task. -/
def encodeTaskState (state : TaskState) : JsonObject Json := field "status" (.string state.status) ++
  optionalField "checkpoint" id state.checkpoint ++
  (if state.status = "waiting" then
    field "on" (.array (state.on.map number)) ++
    optionalField "policy" (fun policy => .string (joinPolicyName policy)) state.policy
  else []) ++
  optionalField "outcome" (fun outcome => .object (encodeTaskOutcome outcome)) state.outcome

/-- The members of `encode_task_record`. -/
def taskMembers (task : TaskRecord) : JsonObject Json := field "id" (number task.id) ++
  field "conversationId" (number task.conversationId) ++
  field "kind" (.string task.kind) ++
  field "version" (number task.version) ++
  field "input" task.input ++
  optionalField "owner" number task.owner ++
  field "background" (.bool task.background) ++
  (if task.abandonOnRestart then field "abandonOnRestart" (.bool true) else []) ++
  field "abortRequested" (.bool task.abortRequested) ++
  optionalField "abortReason" .string task.abortReason ++
  optionalField "startedAt" number task.startedAt ++
  optionalField "endedAt" number task.endedAt ++
  field "state" (.object (encodeTaskState task.state)) ++
  (if task.memos.entries.isEmpty then [] else field "memos" (.object task.memos.entries))

def encodeTaskRecord (task : TaskRecord) : Json := .object (taskMembers task)

def decodeTaskOutcomeError (object : JsonObject Json) : TaskOutcomeError where
  message := (jsonStringMember object "message").getD []
  detail := jsonMember object "detail"

/-- The outcome of a decoded state; a member of the wrong type is skipped. -/
def decodeTaskOutcome (object : JsonObject Json) : TaskOutcome where
  status := (jsonStringMember object "status").getD []
  result := jsonMember object "result"
  reason := jsonStringMember object "reason"
  error := (jsonObjectMember object "error").map decodeTaskOutcomeError

def decodeWaitList : Option Json → Expected (List TaskId)
  | none => .ok []
  | some value => do
      let entries ← present value.asArray "Task wait list must be an array"
      entries.mapM fun entry => do
        let id ← present entry.asNumber "Task wait list entry must be a number"
        return id.toInt

def decodeJoinPolicy : Option Json → Expected (Option JoinPolicy)
  | none => .ok none
  | some value => do
      let policy ← present (value.asString.bind joinPolicyFromName) "Task join policy is invalid"
      return some policy

def decodeTaskState (object : JsonObject Json) : Expected TaskState := do
  let status ← present (jsonStringMember object "status") "Task state missing status"
  let on ← decodeWaitList (jsonMember object "on")
  let policy ← decodeJoinPolicy (jsonMember object "policy")
  return {
    status, on, policy
    checkpoint := jsonMember object "checkpoint"
    outcome := (jsonObjectMember object "outcome").map decodeTaskOutcome }

/-- A 64-bit integer member that is dropped when it is not a number. -/
def jsonIntMember (object : JsonObject Json) (name : String) : Option Int :=
  (jsonNumberMember object name).map Double.toInt

/-- A boolean member, false unless it is a boolean. -/
def jsonFlagMember (object : JsonObject Json) (name : String) : Bool :=
  ((jsonMember object name).bind Json.asBoolean).getD false

def decodeTaskRecord (json : Json) : Expected TaskRecord := do
  let object ← present json.asObject "Task record must be a JSON object"
  let id ← present (jsonMember object "id") "Task record missing required fields"
  let conversationId ← present (jsonMember object "conversationId")
    "Task record missing required fields"
  let kind ← present (jsonMember object "kind") "Task record missing required fields"
  let version ← present (jsonMember object "version") "Task record missing required fields"
  let input ← present (jsonMember object "input") "Task record missing required fields"
  let state ← present (jsonMember object "state") "Task record missing required fields"
  let id ← present id.asNumber "Invalid task record field types"
  let conversationId ← present conversationId.asNumber "Invalid task record field types"
  let kind ← present kind.asString "Invalid task record field types"
  let version ← present version.asNumber "Invalid task record field types"
  let state ← present state.asObject "Invalid task record field types"
  let state ← decodeTaskState state
  return {
    id := id.toInt
    conversationId := conversationId.toInt
    version := version.toInt
    kind, input, state
    owner := jsonIntMember object "owner"
    background := jsonFlagMember object "background"
    abandonOnRestart := jsonFlagMember object "abandonOnRestart"
    abortRequested := jsonFlagMember object "abortRequested"
    abortReason := jsonStringMember object "abortReason"
    startedAt := jsonIntMember object "startedAt"
    endedAt := jsonIntMember object "endedAt"
    memos := OrdMap.empty.emplaceAll ((jsonObjectMember object "memos").getD []) }

/-! ## Conversations -/

/-- The `owner` member of a conversation. -/
def encodeOwner (owner : ConversationOwner) : Json := .object (
  field "conversationId" (number owner.conversationId) ++ field "taskId" (number owner.taskId))

/-- The `parent` member of a conversation. -/
def encodeParent (parent : Parent) : Json := .object (
  field "conversationId" (number parent.conversationId) ++ field "at" (number parent.at_))

def encodeConversationRecord (conversation : ConversationRecord) : Json := .object (
  field "id" (number conversation.id) ++
  optionalField "owner" encodeOwner conversation.owner ++
  optionalField "parent" encodeParent conversation.parent)

/-- The edge to the parent of a decoded conversation. -/
def decodeParent : Option Json → Expected (Option Parent)
  | none => .ok none
  | some value => do
      let parent ← present value.asObject "Conversation parent must be a JSON object"
      let conversationId ← present (jsonNumberMember parent "conversationId")
        "Conversation parent missing an edge field"
      let at_ ← present (jsonNumberMember parent "at") "Conversation parent missing an edge field"
      return some ⟨conversationId.toInt, at_.toInt⟩

/-- The edge to the owner of a decoded conversation. -/
def decodeOwner : Option Json → Expected (Option ConversationOwner)
  | none => .ok none
  | some value => do
      let owner ← present value.asObject "Conversation owner must be a JSON object"
      let conversationId ← present (jsonNumberMember owner "conversationId")
        "Conversation owner missing an edge field"
      let taskId ← present (jsonNumberMember owner "taskId")
        "Conversation owner missing an edge field"
      return some ⟨conversationId.toInt, taskId.toInt⟩

def decodeConversationRecord (json : Json) : Expected ConversationRecord := do
  let object ← present json.asObject "Conversation record must be a JSON object"
  let id ← present (jsonNumberMember object "id") "Conversation record missing id"
  let parent ← decodeParent (jsonMember object "parent")
  let owner ← decodeOwner (jsonMember object "owner")
  return { id := id.toInt, parent, owner }

/-! ## Submissions -/

/-- The members of `encode_submission_record`. -/
def submissionMembers (submission : SubmissionRecord) : JsonObject Json := field "id" (number submission.id) ++
  field "conversationId" (number submission.conversationId) ++
  optionalField "requestId" .string submission.requestId ++
  field "type" (.string submission.type) ++
  field "status" (.string submission.status) ++
  optionalField "entry" number submission.entry ++
  optionalField "answer" number submission.answer ++
  optionalField "reason" .string submission.reason ++
  optionalField "detail" id submission.detail

def encodeSubmissionRecord (submission : SubmissionRecord) : Json := .object (submissionMembers submission)

def decodeSubmissionRecord (json : Json) : Expected SubmissionRecord := do
  let object ← present json.asObject "Submission record must be a JSON object"
  let id ← present (jsonMember object "id") "Submission record missing required fields"
  let conversationId ← present (jsonMember object "conversationId")
    "Submission record missing required fields"
  let type ← present (jsonMember object "type") "Submission record missing required fields"
  let status ← present (jsonMember object "status") "Submission record missing required fields"
  let id ← present id.asNumber "Invalid submission record field types"
  let conversationId ← present conversationId.asNumber "Invalid submission record field types"
  let type ← present type.asString "Invalid submission record field types"
  let status ← present status.asString "Invalid submission record field types"
  return {
    id := id.toInt
    conversationId := conversationId.toInt
    requestId := jsonStringMember object "requestId"
    type, status
    entry := jsonIntMember object "entry"
    answer := jsonIntMember object "answer"
    reason := jsonStringMember object "reason"
    detail := jsonMember object "detail" }

/-! ## What a file can hold -/

/-- A path whose indices a double represents. -/
def PathExact (path : Path) : Prop := ∀ index : Nat, .index index ∈ path → Exact index

/-- An operation that a file can hold: exact positions and storable values. -/
def OpRepresentable : Op → Prop
  | .replace value => value.Storable
  | .set path value => PathExact path ∧ value.Storable
  | .delete path => PathExact path
  | .append path _ => PathExact path
  | .truncate path count => PathExact path ∧ Exact count
  | .splice path index remove items =>
    PathExact path ∧ Exact index ∧ Exact remove ∧ ∀ item ∈ items, item.Storable
  | .move path permutation => PathExact path ∧ ∀ index ∈ permutation, Exact index

/-- A batch that a file can hold and its reader accepts. -/
def BatchRepresentable (ops : OpBatch) : Prop := validateBatch ops = .ok () ∧ ∀ op ∈ ops, OpRepresentable op

/-- A task outcome that a file can hold. -/
structure TaskOutcome.Representable (outcome : TaskOutcome) : Prop where
  result : ∀ value, outcome.result = some value → value.Storable
  detail : ∀ error value, outcome.error = some error → error.detail = some value → value.Storable

/-- A task that a file can hold. -/
structure TaskRecord.Representable (task : TaskRecord) : Prop where
  id : Exact task.id
  conversationId : Exact task.conversationId
  version : Exact task.version
  input : task.input.Storable
  owner : ∀ id, task.owner = some id → Exact id
  startedAt : ∀ time, task.startedAt = some time → Exact time
  endedAt : ∀ time, task.endedAt = some time → Exact time
  on : ∀ id ∈ task.state.on, Exact id
  checkpoint : ∀ value, task.state.checkpoint = some value → value.Storable
  outcome : ∀ outcome, task.state.outcome = some outcome → outcome.Representable
  memos : ∀ memo ∈ task.memos.entries, memo.2.Storable

/-- The integers of a task pass through doubles unchanged. -/
structure TaskRecord.ExactFields (task : TaskRecord) : Prop where
  id : Exact task.id
  conversationId : Exact task.conversationId
  version : Exact task.version
  owner : ∀ id, task.owner = some id → Exact id
  startedAt : ∀ time, task.startedAt = some time → Exact time
  endedAt : ∀ time, task.endedAt = some time → Exact time
  on : ∀ id ∈ task.state.on, Exact id

variable {task : TaskRecord}

theorem TaskRecord.Representable.exactFields (h : task.Representable) :
    task.ExactFields :=
  ⟨h.id, h.conversationId, h.version, h.owner, h.startedAt, h.endedAt, h.on⟩

/-! ## Operations survive -/

theorem mapM_map_ok {α β : Type} {encode : α → β} {decode : β → Expected α} {l : List α}
    (h : ∀ a ∈ l, decode (encode a) = .ok a) : (l.map encode).mapM decode = .ok l := by
  induction l with
  | nil => rfl
  | cons a rest ih =>
    have hrest := ih fun b hb => h b (List.mem_cons_of_mem _ hb)
    simp only [List.map_cons, List.mapM_cons, h a List.mem_cons_self, hrest, bind_eq_ok, pure_eq_ok]
    simp

@[simp] theorem toOption_ok {α : Type} (a : α) : (Except.ok a : Expected α).toOption = some a := rfl

theorem decodeSegment_segmentValue {segment : PathSegment} (h : ∀ index : Nat, segment = .index index → Exact index) :
    decodeSegment (segmentValue segment) = .ok segment := by
  cases segment with
  | key key => rfl
  | index index =>
    have hindex : nonnegativeInteger (number index) = some (index : Int) := by
      rw [nonnegativeInteger_number (h index rfl), if_pos (Int.natCast_nonneg index)]
    rw [number] at hindex
    simp [segmentValue, decodeSegment, number, hindex]

variable {path : Path}

theorem decodePath_pathValue (h : PathExact path) : decodePath (pathValue path) = .ok path := by
  have hsegs : (path.map segmentValue).mapM decodeSegment = .ok path :=
    mapM_map_ok fun segment hmem => decodeSegment_segmentValue fun index heq => h index (heq ▸ hmem)
  simpa [decodePath, pathValue, Json.asArray] using hsegs

theorem decodeOpPath_pathValue (h : PathExact path) : decodeOpPath (pathValue path) = .ok path := by
  simp [decodeOpPath, decodePath_pathValue h]

theorem decodeSize_number {n : Nat} (h : Exact n) : decodeSize (number n) = .ok n := by
  simp [decodeSize, nonnegativeInteger_number h]

theorem decodeOp_opValue {op : Op} (h : OpRepresentable op) : decodeOp (opValue op) = .ok op := by
  cases op with
  | replace value =>
    simp [opValue, decodeOp, Json.asArray, Json.asString, toSupport_eq h.2, fromSupport_eq h]
  | set path value =>
    simp [opValue, decodeOp, Json.asArray, Json.asString, decodeOpPath_pathValue h.1,
      toSupport_eq h.2.2, fromSupport_eq h.2]
  | delete path =>
    simp [opValue, decodeOp, Json.asArray, Json.asString, decodePath_pathValue h]
  | append path text =>
    simp [opValue, decodeOp, Json.asArray, Json.asString, decodeOpPath_pathValue h]
  | truncate path count =>
    simp [opValue, decodeOp, Json.asArray, Json.asString, decodeOpPath_pathValue h.1, decodeSize_number h.2]
  | splice path index remove items =>
    obtain ⟨hpath, hindex, hremove, hitems⟩ := h
    have hdec : (items.map toSupport).mapM fromSupport = .ok items := by
      refine mapM_map_ok fun item hitem => ?_
      rw [toSupport_eq (hitems item hitem).2, fromSupport_eq (hitems item hitem)]
    simp [opValue, decodeOp, Json.asArray, Json.asString, decodeOpPath_pathValue hpath,
      decodeSize_number hindex, decodeSize_number hremove, hdec]
  | move path permutation =>
    have hdec : (permutation.map fun index : Nat => number index).mapM decodeSize = .ok permutation :=
      mapM_map_ok fun index hindex => decodeSize_number (h.2 index hindex)
    simp [opValue, decodeOp, Json.asArray, Json.asString, decodeOpPath_pathValue h.1, hdec]

/-- **A valid batch survives its encoding.** -/
theorem decodeOps_opsValue {ops : OpBatch} (h : BatchRepresentable ops) : decodeOps (opsValue ops) = .ok ops := by
  have hops : (ops.map opValue).mapM decodeOp = .ok ops := mapM_map_ok fun op hop => decodeOp_opValue (h.2 op hop)
  simp [decodeOps, opsValue, Json.asArray, hops, h.1]

theorem storable_pathValue (h : PathExact path) : (pathValue path).Storable := by
  refine storable_array fun value hvalue => ?_
  obtain ⟨segment, hmem, rfl⟩ := List.mem_map.1 hvalue
  cases segment with
  | key key => exact storable_string key
  | index index => exact storable_number (h index hmem)

theorem storable_toSupport {value : Json} (h : value.Storable) : (toSupport value).Storable := by
  rwa [toSupport_eq h.2]

theorem storable_opValue {op : Op} (h : OpRepresentable op) : (opValue op).Storable := by
  cases op with
  | replace value => simp [opValue, storable_array, storable_toSupport h]
  | set path value =>
    simp [opValue, storable_array, storable_pathValue h.1, storable_toSupport h.2]
  | delete path | append path text =>
    have hpath : PathExact path := h
    simp [opValue, storable_array, storable_pathValue hpath]
  | truncate path count =>
    simp [opValue, storable_array, storable_pathValue h.1, storable_number h.2]
  | splice path index remove items =>
    obtain ⟨hpath, hindex, hremove, hitems⟩ := h
    have hvalues : (Json.array (items.map toSupport)).Storable := by
      refine storable_array fun value hvalue => ?_
      obtain ⟨item, hmem, rfl⟩ := List.mem_map.1 hvalue
      exact storable_toSupport (hitems item hmem)
    simp [opValue, storable_array, storable_pathValue hpath, storable_number hindex, storable_number hremove, hvalues]
  | move path permutation =>
    have hvalues : (Json.array (permutation.map fun index : Nat => number index)).Storable := by
      refine storable_array fun value hvalue => ?_
      obtain ⟨index, hmem, rfl⟩ := List.mem_map.1 hvalue
      exact storable_number (h.2 index hmem)
    simp [opValue, storable_array, storable_pathValue h.1, hvalues]

theorem storable_opsValue {ops : OpBatch} (h : ∀ op ∈ ops, OpRepresentable op) : (opsValue ops).Storable := by
  refine storable_array fun value hvalue => ?_
  obtain ⟨op, hmem, rfl⟩ := List.mem_map.1 hvalue
  exact storable_opValue (h op hmem)

/-! ## Records survive -/

variable {object : JsonObject Json}

theorem jsonIntMember_of_optional {name : String} {value : Option Int}
    (hmem : jsonMember object name = value.map number) (h : ∀ n, value = some n → Exact n) :
    jsonIntMember object name = value := by
  cases value with
  | none => simp [jsonIntMember, jsonNumberMember, hmem]
  | some n => simp [jsonIntMember, jsonNumberMember, hmem, toInt_number (h n rfl)]

theorem jsonStringMember_of_optional {name : String}
    {value : Option Bytes} (hmem : jsonMember object name = value.map Json.string) :
    jsonStringMember object name = value := by
  cases value with
  | none => simp [jsonStringMember, hmem]
  | some text => simp [jsonStringMember, hmem, Json.asString]

/-- What a file keeps of a task state: the wait list and the policy only while it waits. -/
def TaskState.persisted (state : TaskState) : TaskState :=
  if state.status = "waiting" then state else { state with on := [], policy := none }

def TaskRecord.persisted (task : TaskRecord) : TaskRecord := { task with state := task.state.persisted }

theorem TaskState.persisted_eq_self_iff (state : TaskState) :
    state.persisted = state ↔ state.status = "waiting" ∨ (state.on = [] ∧ state.policy = none) := by
  obtain ⟨status, checkpoint, on, policy, outcome⟩ := state
  by_cases hwaiting : status = "waiting"
  · simp [TaskState.persisted, hwaiting]
  · simp [TaskState.persisted, hwaiting, eq_comm]

theorem TaskRecord.persisted_eq_self_iff (task : TaskRecord) : task.persisted = task ↔
      task.state.status = "waiting" ∨ (task.state.on = [] ∧ task.state.policy = none) := by
  rw [← TaskState.persisted_eq_self_iff]
  constructor
  · intro h
    exact congrArg TaskRecord.state h
  · intro h
    rw [TaskRecord.persisted, h]

@[simp] theorem TaskState.persisted_status (state : TaskState) : state.persisted.status = state.status := by
  unfold TaskState.persisted
  split <;> rfl

theorem decodeTaskOutcome_encodeTaskOutcome (outcome : TaskOutcome) :
    decodeTaskOutcome (encodeTaskOutcome outcome) = outcome := by
  obtain ⟨status, result, error, reason⟩ := outcome
  have hreason : jsonStringMember (encodeTaskOutcome ⟨status, result, error, reason⟩) "reason"
      = reason := jsonStringMember_of_optional (by simp [encodeTaskOutcome])
  have herror : (jsonObjectMember (encodeTaskOutcome ⟨status, result, error, reason⟩) "error").map
      decodeTaskOutcomeError = error := by
    cases error with
    | none => simp [jsonObjectMember, encodeTaskOutcome]
    | some error =>
      simp [jsonObjectMember, encodeTaskOutcome, Json.asObject, decodeTaskOutcomeError,
        encodeTaskOutcomeError, jsonStringMember, Json.asString]
  rw [decodeTaskOutcome, hreason, herror]
  simp [encodeTaskOutcome, jsonStringMember, Json.asString]

theorem decodeTaskState_encodeTaskState {state : TaskState} (h : ∀ id ∈ state.on, Exact id) :
    decodeTaskState (encodeTaskState state) = .ok state.persisted := by
  obtain ⟨status, checkpoint, on, policy, outcome⟩ := state
  have hout : ((outcome.map fun outcome => Json.object (encodeTaskOutcome outcome)).bind
      Json.asObject).map decodeTaskOutcome = outcome := by
    cases outcome with
    | none => rfl
    | some outcome => simp [Json.asObject, decodeTaskOutcome_encodeTaskOutcome]
  by_cases hwaiting : status = "waiting"
  · subst hwaiting
    have hon : decodeWaitList (some (.array (on.map number))) = .ok on := by
      have hids : (on.map number).mapM (fun entry : Json => do
          let id ← present entry.asNumber "Task wait list entry must be a number"
          return id.toInt) = .ok on := by
        refine mapM_map_ok fun id hid => ?_
        simp [toInt_number (h id hid)]
      simpa [decodeWaitList, Json.asArray] using hids
    have hpolicy : decodeJoinPolicy (policy.map fun policy => .string (joinPolicyName policy)) = .ok policy := by
      cases policy with
      | none => rfl
      | some policy => simp [decodeJoinPolicy, Json.asString]
    simp [decodeTaskState, encodeTaskState, TaskState.persisted, jsonStringMember,
      jsonObjectMember, Json.asString, hon, hpolicy, hout]
  · simp [decodeTaskState, encodeTaskState, TaskState.persisted, jsonStringMember,
      jsonObjectMember, Json.asString, hwaiting, decodeWaitList, decodeJoinPolicy, hout]

/-- **A task survives its encoding, up to what a file keeps of it.** -/
theorem decodeTaskRecord_encodeTaskRecord (h : task.ExactFields) :
    decodeTaskRecord (encodeTaskRecord task) = .ok task.persisted := by
  have howner : jsonIntMember (taskMembers task) "owner" = task.owner :=
    jsonIntMember_of_optional (by simp [taskMembers]) h.owner
  have hbegun : jsonIntMember (taskMembers task) "startedAt" = task.startedAt :=
    jsonIntMember_of_optional (by simp [taskMembers]) h.startedAt
  have hended : jsonIntMember (taskMembers task) "endedAt" = task.endedAt :=
    jsonIntMember_of_optional (by simp [taskMembers]) h.endedAt
  have hreason : jsonStringMember (taskMembers task) "abortReason" = task.abortReason :=
    jsonStringMember_of_optional (by simp [taskMembers])
  have hback : jsonFlagMember (taskMembers task) "background" = task.background := by
    simp [jsonFlagMember, taskMembers, Json.asBoolean]
  have habort : jsonFlagMember (taskMembers task) "abortRequested" = task.abortRequested := by
    simp [jsonFlagMember, taskMembers, Json.asBoolean]
  have habandon : jsonFlagMember (taskMembers task) "abandonOnRestart" = task.abandonOnRestart := by
    cases habandon : task.abandonOnRestart <;>
      simp [jsonFlagMember, taskMembers, Json.asBoolean, habandon]
  have hmemos : (jsonObjectMember (taskMembers task) "memos").getD [] = task.memos.entries := by
    by_cases hempty : task.memos.entries = [] <;>
      simp [jsonObjectMember, taskMembers, Json.asObject, hempty]
  have hrequired : jsonMember (taskMembers task) "id" = some (number task.id) ∧
      jsonMember (taskMembers task) "conversationId" = some (number task.conversationId) ∧
      jsonMember (taskMembers task) "kind" = some (.string task.kind) ∧
      jsonMember (taskMembers task) "version" = some (number task.version) ∧
      jsonMember (taskMembers task) "input" = some task.input ∧
      jsonMember (taskMembers task) "state" = some (.object (encodeTaskState task.state)) := by
    simp [taskMembers]
  obtain ⟨hid, hconv, hkind, hversion, hinput, hstate⟩ := hrequired
  simp [decodeTaskRecord, encodeTaskRecord, Json.asObject, Json.asString, hid, hconv,
    hkind, hversion, hinput, hstate, decodeTaskState_encodeTaskState h.on, howner, hbegun,
    hended, hreason, hback, habort, habandon, hmemos, OrdMap.emplaceAll_entries,
    toInt_number h.id, toInt_number h.conversationId, toInt_number h.version,
    TaskRecord.persisted]

/-! ## Encoded records are storable -/

theorem storable_encodeTaskOutcome {outcome : TaskOutcome} (h : outcome.Representable) :
    (Json.object (encodeTaskOutcome outcome)).Storable := by
  unfold encodeTaskOutcome
  refine storable_of_fields _ (by decide) ?_
  simp only [allStorable_append, allStorable_field, allStorable_optionalField]
  refine ⟨⟨⟨storable_string _, h.result⟩, fun reason _ => storable_string reason⟩, fun error herror => ?_⟩
  unfold encodeTaskOutcomeError
  refine storable_of_fields _ (by decide) ?_
  simp only [allStorable_append, allStorable_field, allStorable_optionalField]
  exact ⟨storable_string _, fun value hvalue => h.detail error value herror hvalue⟩

theorem storable_encodeTaskState (h : task.Representable) : (Json.object (encodeTaskState task.state)).Storable := by
  have hon : (Json.array (task.state.on.map number)).Storable := by
    refine storable_array fun value hvalue => ?_
    obtain ⟨id, hmem, rfl⟩ := List.mem_map.1 hvalue
    exact storable_number (h.on id hmem)
  unfold encodeTaskState
  refine storable_of_fields _ (by decide) ?_
  simp only [allStorable_append, allStorable_field, allStorable_optionalField, allStorable_ite, allStorable_nil]
  refine ⟨⟨⟨storable_string _, h.checkpoint⟩, ?_⟩,
    fun outcome hout => storable_encodeTaskOutcome (h.outcome outcome hout)⟩
  split
  · exact ⟨hon, fun policy _ => storable_string _⟩
  · trivial

theorem storable_encodeTaskRecord (h : task.Representable) : (encodeTaskRecord task).Storable := by
  have hmemos : (Json.object task.memos.entries).Storable := by
    refine Json.storable_object ?_ h.memos
    exact (List.pairwise_map.2 task.memos.sorted).imp fun hlt => ne_of_lt hlt
  have howner : ∀ id, task.owner = some id → (number id).Storable := fun id hid => storable_number (h.owner id hid)
  have hbegun : ∀ time, task.startedAt = some time → (number time).Storable :=
    fun time htime => storable_number (h.startedAt time htime)
  have hended : ∀ time, task.endedAt = some time → (number time).Storable :=
    fun time htime => storable_number (h.endedAt time htime)
  unfold encodeTaskRecord taskMembers
  refine storable_of_fields _ (by decide) ?_
  simp [storable_number h.id, storable_number h.conversationId, storable_number h.version,
    h.input, storable_encodeTaskState h, hmemos]
  exact ⟨howner, hbegun, hended⟩

end CodingHarness.Durable
