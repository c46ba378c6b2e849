import CodingHarness.Support.JsonAccess
import CodingHarness.Durable.SessionCommit

/-!
# Submissions and boundaries

The admission of `WorkflowRuntime`: a draft is placed at once in an idle conversation with an empty
inbox, and otherwise waits as an inbox item until a boundary of the running generation places it. An
item holds its draft as JSON (`inputEntryJson`, `writeEntryJson`), which the boundary reads back.

The tables are those of `StorageState`. A write of a commit is applied when it is staged: a batch is
applied in the order of its writes, and no check of one table reads another one that the commit
changes. The inbox and the live run of a conversation are documents of their own; they appear here as
the values that the workflow reads and writes.
-/

namespace CodingHarness.Durable

open Library Support

/-! ## Drafts -/

/-- What a draft does while a run is active. -/
inductive WhenBusy where
  | steer
  | followUp
  | reject
  deriving DecidableEq

structure InputEntry where
  kind : Bytes
  data : Option Json := none

structure WriteEntry where
  kind : Bytes
  data : Option Json := none
  edits : List ContextEdit := []
  model : Option (List Json) := none
  head : Option EntryHead := none

/-- `SubmissionDraftBody`. -/
inductive SubmissionBody where
  | input (content : Json) (whenBusy : Option WhenBusy) (entry : Option InputEntry)
  | write (entry : WriteEntry)

/-- What a caller submits. -/
structure SubmissionDraft where
  requestId : Option Bytes := none
  body : SubmissionBody

def SubmissionBody.type : SubmissionBody → Bytes
  | .input .. => "input"
  | .write _ => "write"

/-! ## Integers in JSON -/

def asInteger (json : Json) : Expected Int := match json.asNumber with
  | none => invalid "Expected an integer field"
  | some value =>
    if value.isFinite ∧ value.isIntegral ∧ -2 ^ 63 ≤ value.toInt ∧ value.toInt < 2 ^ 63 then
      .ok value.toInt
    else invalid "Expected an integer field"

theorem asInteger_number {n : Int} (h : Exact n) : asInteger (number n) = .ok n := by
  have hbounds : -2 ^ 63 ≤ n ∧ n < 2 ^ 63 := by
    unfold Exact at h
    omega
  rw [asInteger, asNumber_number]
  dsimp only
  rw [toInt_number h, if_pos ⟨Double.isFinite_ofInt h, Double.isIntegral_ofInt h, hbounds⟩]

/-! ## Entries -/

/-- What an entry says apart from where it stands: the arguments of `append_entry`. -/
structure EntryDraft where
  kind : Bytes
  data : Json
  head : Option EntryHead := none
  model : List Json := []
  edits : List ContextEdit := []

/-- The record of an appended draft; a head of its own is the new entry. -/
def EntryDraft.record (draft : EntryDraft) (id : EntryId) (conversationId : ConversationId) : EntryRecord where
  id := id
  conversationId := conversationId
  kind := draft.kind
  data := draft.data
  head := draft.head.map fun head =>
    match head with
    | .entry existing => existing
    | .self => id
  model := draft.model
  edits := draft.edits

/-- `user_message_json`: a text is a single text block, other content passes through. -/
def userMessageJson (content : Json) (timestamp : Int) : Json := let body := match content.asString with
    | some text =>
      .array [.object (field "type" (.string "text") ++ field "text" (.string text))]
    | none => content
  .object (field "role" (.string "user") ++ (field "content" body ++ field "timestamp" (number timestamp)))

/-- `as_chord`, which ends the process for a number that is not finite. -/
def asChord (json : Json) : Expected Json := fromSupport (toSupport json)

/-- The entry that `append_input_entry` appends. -/
def inputEntryDraft (content : Json) (entry : Option InputEntry) (now : Int) : Expected EntryDraft := do
  let message := userMessageJson content now
  let model ← asChord message
  match entry with
  | none => return ⟨"pi.user", .object (field "model" (.array [message])), none, [model], []⟩
  | some entry =>
    let data := (entry.data.bind Json.asObject).getD []
    return ⟨entry.kind, .object ((data.insertOrAssign "kind" (.string entry.kind)).insertOrAssign
        "model" (.array [message])),
      none, [model], []⟩

/-- The entry that `append_write_entry` appends. -/
def writeEntryDraft (entry : WriteEntry) : EntryDraft :=
  ⟨entry.kind, entry.data.getD (.object []), entry.head, entry.model.getD [], entry.edits⟩

/-! ## Inbox items -/

/-- The mode of an inbox item. -/
inductive InboxMode where
  | write
  | steer
  | followUp
  deriving DecidableEq

/-- An item of an inbox. The two members that every item has are typed. -/
structure InboxItem where
  id : SubmissionId
  mode : InboxMode
  content : Option Json := none
  entry : Option Json := none

def inputEntryJson (entry : InputEntry) : Json :=
  .object (field "kind" (.string entry.kind) ++ optionalField "data" id entry.data)

def inputEntryFromJson (json : Json) : Expected InputEntry := do
  let value ← present json.asObject "Invalid input entry"
  let kind ← present ((jsonMember value "kind").bind Json.asString)
    "An input entry must have a kind"
  return ⟨kind, jsonMember value "data"⟩

/-- The head member of `write_entry_json`. -/
def headJson : EntryHead → Json
  | .self => .string "self"
  | .entry id => number id

def writeEntryJson (entry : WriteEntry) : Json :=
  .object (field "kind" (.string entry.kind) ++ (optionalField "data" id entry.data ++
    (optionalField "model" Json.array entry.model ++ optionalField "head" headJson entry.head)))

/-- The head that `write_entry_from_json` reads. -/
def headFromJson (json : Json) : Expected EntryHead := match json.asString with
  | some marker =>
    if marker = "self" then .ok .self
    else invalid "A write entry head must be \"self\" or an entry id"
  | none => do
      let pinned ← asInteger json
      return .entry pinned

/-- A context edit that `write_entry_from_json` reads. -/
def editFromJson (json : Json) : Expected ContextEdit := do
  let edit ← present json.asObject "A context edit must be an object"
  let problem := ofString "A context edit must have a target and action"
  let target ← present (jsonMember edit "target") problem
  let action ← present ((jsonMember edit "action").bind Json.asString) problem
  let targetId ← asInteger target
  refuse (action != "omit" && action != "replace")
    "A context edit action must be \"omit\" or \"replace\""
  match jsonMember edit "messages" with
  | some messages =>
    let array ← present messages.asArray "Context edit messages must be an array"
    return ⟨targetId, action, array⟩
  | none =>
    refuse (action == "replace") "A replace context edit must carry messages"
    return ⟨targetId, action, []⟩

/-- A member that may be absent, read by `read`. -/
def optionally {α : Type} (value : Option Json) (read : Json → Expected α) : Expected (Option α) := match value with
  | none => .ok none
  | some json => do
      let result ← read json
      return some result

def writeEntryFromJson (json : Json) : Expected WriteEntry := do
  let value ← present json.asObject "Invalid write entry"
  let kind ← present ((jsonMember value "kind").bind Json.asString)
    "A write entry must have a kind"
  let model ← optionally (jsonMember value "model") fun model =>
    present model.asArray "A write entry model must be an array"
  let head ← optionally (jsonMember value "head") headFromJson
  let edits ← optionally (jsonMember value "edits") fun edits => do
    let items ← present edits.asArray "A write entry edits must be an array"
    items.mapM editFromJson
  return ⟨kind, jsonMember value "data", edits.getD [], model, head⟩

/-- The item that a queued draft waits as. -/
def queuedItem (id : SubmissionId) : SubmissionBody → InboxItem
  | .input content whenBusy entry =>
    { id := id
      mode := if whenBusy = some .steer then .steer else .followUp
      content := some content
      entry := entry.map inputEntryJson }
  | .write entry => { id := id, mode := .write, entry := some (writeEntryJson entry) }

def isDisplayOnly (entry : WriteEntry) : Bool := entry.model.isNone && entry.head.isNone && entry.edits.isEmpty

def hasQueuedReset : List InboxItem → Expected Bool
  | [] => .ok false
  | item :: rest =>
    if item.mode = .write then do
      let entry ← present item.entry "An inbox item must have a entry"
      let draft ← present entry.asObject "An inbox write item entry must be an object"
      if (jsonMember draft "head").bind Json.asString = some (ofString "self") then return true
      else hasQueuedReset rest
    else hasQueuedReset rest

/-! ## The workflow of a Session -/

/-- `LiveRunState`: the run marker of a live document. -/
structure LiveRun where
  task : TaskId
  inputs : List SubmissionId
  deriving DecidableEq

/-- The committed state of the workflow, with what a running commit has staged on it. -/
structure Workflow where
  storage : StorageState
  inbox : ConversationId → List InboxItem := fun _ => []
  run : ConversationId → Option LiveRun := fun _ => none

abbrev WorkflowAction (α : Type) := EStateM Error Workflow α

inductive QueueMode where
  | all
  | oneAtATime
  deriving DecidableEq

/-- The settings of `WorkflowRuntime` that the workflow reads, with its generation definition. -/
structure WorkflowSettings where
  steeringMode : QueueMode := .oneAtATime
  followUpMode : QueueMode := .oneAtATime
  generation : TaskDefinition

namespace Workflow

def check {α : Type} (x : Expected α) : WorkflowAction α := MonadExcept.ofExcept x

def setStorage (storage : StorageState) : WorkflowAction Unit := modify fun s => { s with storage }

def mintId : WorkflowAction Int := do
  let s ← get
  setStorage s.storage.reserveId.1
  return s.storage.reserveId.2

def appendEntry (conversationId : ConversationId) (draft : EntryDraft) : WorkflowAction EntryRecord := do
  let id ← mintId
  let record := draft.record id conversationId
  let s ← get
  let storage ← check (StorageState.applyEntry s.storage.nextSeq s.storage (some record))
  setStorage storage
  return record

def createSubmission (conversationId : ConversationId) (draft : SubmissionDraft) (status : String)
    (entry : Option EntryId) (reason : Option Bytes) : WorkflowAction SubmissionId := do
  let s ← get
  let _ ← check (present (s.storage.conversations.find conversationId)
    (ofString "Conversation " ++ intText conversationId ++ ofString " does not exist"))
  let id ← mintId
  let record : SubmissionRecord :=
    { id := id
      conversationId := conversationId
      requestId := draft.requestId
      type := draft.body.type
      status := ofString status
      entry := entry
      reason := reason }
  modify fun s => { s with storage.submissions := s.storage.submissions.insert id record }
  return id

/-- `settle_submission` and `place_submission`, resolved as at assembly. -/
def changeSubmission (change : SubmissionChange) : WorkflowAction Unit := do
  let s ← get
  let current ← check (present (s.storage.submissions.find change.id)
    (submissionText change.id " does not exist"))
  let next ← check (applySubmissionChange current change)
  modify fun s => { s with storage.submissions := s.storage.submissions.insert change.id next }

def setInbox (conversationId : ConversationId) (items : List InboxItem) : WorkflowAction Unit :=
  modify fun s => { s with inbox := Function.update s.inbox conversationId items }

/-- Replace the run marker of a live document. -/
def setRun (conversationId : ConversationId) (run : Option LiveRun) : WorkflowAction Unit :=
  modify fun s => { s with run := Function.update s.run conversationId run }

/-- `start_run`: a pending generation task that answers the inputs. -/
def startRun (settings : WorkflowSettings) (conversationId : ConversationId)
    (inputs : List SubmissionId) : WorkflowAction Unit := do
  let task ← mintId
  let record : TaskRecord :=
    { id := task
      conversationId := conversationId
      kind := settings.generation.kind
      version := settings.generation.version
      input := .object []
      state := ⟨"pending", some (settings.generation.initial (.object [])), [], none, none⟩ }
  modify fun s => { s with storage.tasks := s.storage.tasks.insert task record }
  setRun conversationId (some ⟨task, inputs⟩)

/-- The inputs join the run, if it is still this task's. -/
def joinRunInputs (conversationId : ConversationId) (task : TaskId) (users : List SubmissionId) :
    WorkflowAction Unit := do
  let s ← get
  match s.run conversationId with
  | none => return ()
  | some run =>
    if run.task = task then setRun conversationId (some { run with inputs := run.inputs ++ users })
    else return ()

/-- The run goes on in a new task with the same inputs. -/
def handOver (settings : WorkflowSettings) (conversationId : ConversationId) : WorkflowAction Unit := do
  let s ← get
  let run ← check (present (s.run conversationId) "A live run must exist to hand over")
  startRun settings conversationId run.inputs

/-- The settlements of the inputs of a run. -/
def settleInputs (settlement : SubmissionSettlement) : List SubmissionId → WorkflowAction Unit
  | [] => return ()
  | input :: rest => do
      changeSubmission (.settle input settlement)
      settleInputs settlement rest

/-- `end_run`: settle the inputs of the run, if it is still this task's. -/
def endRun (conversationId : ConversationId) (task : TaskId) (settlement : SubmissionSettlement) :
    WorkflowAction Unit := do
  let s ← get
  match s.run conversationId with
  | none => return ()
  | some run =>
    if run.task = task then do
      settleInputs settlement run.inputs
      setRun conversationId none
    else return ()

/-! ### Boundaries -/

/-- `Boundary`, apart from the draft of its inbox. -/
structure Boundary where
  conversationId : ConversationId
  items : List InboxItem
  head : Option EntryId

structure BoundaryResult where
  users : List SubmissionId := []
  userEntries : List EntryRecord := []
  reset : Bool := false

/-- `prepare_boundary`: the head marker is the newest visible entry that carries a head. The pages of
the source are first parts of the same scan. -/
def prepareBoundary (conversationId : ConversationId) (items : List InboxItem) : WorkflowAction Boundary := do
  let s ← get
  let entries ← check (s.storage.scanEntries conversationId Transaction.noLimit)
  return ⟨conversationId, items, entries.findSome? EntryRecord.head⟩

def isStale (head : Option EntryId) (draft : WriteEntry) : Bool := match draft.head, head with
  | some (.entry pinned), some newest => decide (pinned < newest)
  | _, _ => false

/-- The positions of the items that one mode selects: the `pick` of `apply_boundary`. -/
def pick (items : List InboxItem) (mode : InboxMode) (queueMode : QueueMode) : List Nat :=
  let indexes := (items.zipIdx.filter fun item => item.1.mode = mode).map Prod.snd
  match queueMode with
  | .all => indexes
  | .oneAtATime => indexes.take 1

/-- The items at the given positions, in order. -/
def itemsAt (items : List InboxItem) (indexes : List Nat) : List InboxItem :=
  (items.zipIdx.filter fun item => indexes.contains item.2).map Prod.fst

/-- The items at the other positions: what is left when the given ones are erased from the back. -/
def itemsWithout (items : List InboxItem) (indexes : List Nat) : List InboxItem :=
  (items.zipIdx.filter fun item => !indexes.contains item.2).map Prod.fst

/-- The settlement of a write whose pinned head left the range. -/
def staleSettlement : SubmissionSettlement := ⟨"unanswered", none, some "stale", none⟩

/-- One round of the write loop of `apply_boundary`. The result is the head marker after it. -/
def placeWrite (conversationId : ConversationId) (head : Option EntryId) (item : InboxItem) :
    WorkflowAction (Option EntryId) := do
  let json ← check (present item.entry "An inbox item must have a entry")
  let draft ← check (writeEntryFromJson json)
  if isStale head draft then do
    changeSubmission (.settle item.id staleSettlement)
    return head
  else do
    let appended ← appendEntry conversationId (writeEntryDraft draft)
    changeSubmission (.place item.id appended.id)
    return appended.head.or head

/-- The write loop of `apply_boundary`. -/
def placeWrites (conversationId : ConversationId) :
    Option EntryId → List InboxItem → WorkflowAction (Option EntryId)
  | head, [] => return head
  | head, item :: rest => do
      let next ← placeWrite conversationId head item
      placeWrites conversationId next rest

/-- One round of the user loop of `apply_boundary`. -/
def placeUser (conversationId : ConversationId) (now : Int) (result : BoundaryResult)
    (item : InboxItem) : WorkflowAction BoundaryResult := do
  let content ← check (present item.content "An inbox item must have a content")
  let entry ← check (optionally item.entry inputEntryFromJson)
  let draft ← check (inputEntryDraft content entry now)
  let appended ← appendEntry conversationId draft
  changeSubmission (.place item.id appended.id)
  let kept := if draft.kind = "pi.reset" then { result with users := [], userEntries := [] }
    else result
  return { kept with
    users := kept.users ++ [item.id]
    userEntries := kept.userEntries ++ [appended] }

/-- The user loop of `apply_boundary`. -/
def placeUsers (conversationId : ConversationId) (now : Int) :
    BoundaryResult → List InboxItem → WorkflowAction BoundaryResult
  | result, [] => return result
  | result, item :: rest => do
      let next ← placeUser conversationId now result item
      placeUsers conversationId now next rest

/-- Where a run takes in what waits. -/
inductive BoundaryPoint where
  | postTools
  | final
  deriving DecidableEq

/-- The positions of the user items that a boundary selects. -/
def pickUsers (settings : WorkflowSettings) (items : List InboxItem) (final : Bool) : List Nat :=
  pick items .steer settings.steeringMode ++ if final then pick items .followUp settings.followUpMode else []

/-- `apply_boundary`: all writes and the selected users leave the inbox, the writes first. -/
def applyBoundary (settings : WorkflowSettings) (boundary : Boundary) (point : BoundaryPoint)
    (now : Int) : WorkflowAction BoundaryResult := do
  let reset ← check (hasQueuedReset boundary.items)
  let writes := pick boundary.items .write .all
  let users := pickUsers settings boundary.items (decide (point = .final) || reset)
  let _ ← placeWrites boundary.conversationId boundary.head (itemsAt boundary.items writes)
  let result ← placeUsers boundary.conversationId now {} (itemsAt boundary.items users)
  setInbox boundary.conversationId (itemsWithout boundary.items (writes ++ users))
  return { result with reset := reset }

/-! ### Admission -/

/-- The check of `admit_submission` on the kind of an input entry. -/
def checkInputKind : SubmissionBody → Expected Unit
  | .input _ _ (some entry) =>
    refuse (entry.kind.isEmpty || (ofString "pi.").isPrefixOf entry.kind)
      ("An input entry's kind must be a non-empty string not starting with \"pi.\", got "
        ++ entry.kind)
  | _ => .ok ()

/-- The submission that a request id already identifies. -/
def admittedBefore (s : Workflow) (conversationId : ConversationId) (draft : SubmissionDraft) :
    Expected (Option SubmissionId) :=
  match draft.requestId with
  | none => .ok none
  | some requestId => do
      let existing ← s.storage.submissionByRequest conversationId requestId
      match existing with
      | none => return none
      | some record =>
        refuse (record.type != draft.body.type) (ofString "Request " ++ requestId ++
          ofString " already identifies a submission of type " ++ record.type)
        return some record.id

/-- A display-only write, which appends and settles at once. -/
def admitDisplayOnly (conversationId : ConversationId) (draft : SubmissionDraft)
    (entry : WriteEntry) : WorkflowAction SubmissionId := do
  let appended ← appendEntry conversationId (writeEntryDraft entry)
  createSubmission conversationId draft "done" (some appended.id) none

/-- The rejection of an input that does not wait. -/
def checkWhenBusy (conversationId : ConversationId) : SubmissionBody → Expected Unit
  | .input _ (some .reject) _ =>
    .error ⟨.busy, ofString "Conversation " ++ intText conversationId ++ ofString " is busy"⟩
  | _ => .ok ()

/-- The admission to a busy conversation: the item waits for the next boundary of the run. -/
def admitBusy (conversationId : ConversationId) (draft : SubmissionDraft) : WorkflowAction SubmissionId := do
  check (checkWhenBusy conversationId draft.body)
  let id ← createSubmission conversationId draft "queued" none none
  let s ← get
  setInbox conversationId (s.inbox conversationId ++ [queuedItem id draft.body])
  return id

/-- The admission to an idle conversation behind waiting items: the item joins them and a final
boundary runs at once. -/
def admitBehind (settings : WorkflowSettings) (boundary : Boundary) (draft : SubmissionDraft)
    (now : Int) : WorkflowAction SubmissionId := do
  let id ← createSubmission boundary.conversationId draft "queued" none none
  let applied ← applyBoundary settings
    { boundary with items := boundary.items ++ [queuedItem id draft.body] } .final now
  if applied.users.isEmpty then return id
  else do
    startRun settings boundary.conversationId applied.users
    return id

/-- The admission to an idle conversation with an empty inbox. -/
def admitIdle (settings : WorkflowSettings) (boundary : Boundary) (draft : SubmissionDraft)
    (now : Int) : WorkflowAction SubmissionId :=
  match draft.body with
  | .write entry =>
    if isStale boundary.head entry then
      createSubmission boundary.conversationId draft "unanswered" none (some "stale")
    else do
      let appended ← appendEntry boundary.conversationId (writeEntryDraft entry)
      createSubmission boundary.conversationId draft "done" (some appended.id) none
  | .input content _ entry => do
      let draftEntry ← check (inputEntryDraft content entry now)
      let appended ← appendEntry boundary.conversationId draftEntry
      let id ← createSubmission boundary.conversationId draft "placed" (some appended.id) none
      startRun settings boundary.conversationId [id]
      return id

/-- The admission of a draft that is neither known nor settled at once. -/
def admitDraft (settings : WorkflowSettings) (conversationId : ConversationId)
    (draft : SubmissionDraft) (now : Int) : WorkflowAction SubmissionId := do
  let s ← get
  match s.run conversationId with
  | some _ => admitBusy conversationId draft
  | none => do
      let boundary ← prepareBoundary conversationId (s.inbox conversationId)
      if boundary.items.isEmpty then admitIdle settings boundary draft now
      else admitBehind settings boundary draft now

/-- A display-only write that no queued reset holds back. -/
def settlesAtOnce (s : Workflow) (conversationId : ConversationId) : SubmissionBody → Expected (Option WriteEntry)
  | .write entry =>
    if isDisplayOnly entry then do
      let reset ← hasQueuedReset (s.inbox conversationId)
      return if reset then none else some entry
    else .ok none
  | .input .. => .ok none

/-- `admit_submission`: a request id that is known gives its submission back. -/
def admitSubmission (settings : WorkflowSettings) (conversationId : ConversationId)
    (draft : SubmissionDraft) (now : Int) : WorkflowAction SubmissionId := do
  check (checkInputKind draft.body)
  let s ← get
  match ← check (admittedBefore s conversationId draft) with
  | some id => return id
  | none => do
      let _ ← check (present (s.storage.conversations.find conversationId)
        "The conversation does not exist")
      match ← check (settlesAtOnce s conversationId draft.body) with
      | some entry => admitDisplayOnly conversationId draft entry
      | none => admitDraft settings conversationId draft now

/-! ### Boundaries of a generation -/

/-- `integer_field` of an object. -/
def integerField (members : JsonObject Json) (name : String) : Expected Int := do
  let value ← present (jsonMember members name) "Expected an integer field"
  asInteger value

/-- `input_user`: the text and the time of the message that the replay of a run continues with. -/
def inputUser (entry : EntryRecord) : Expected (Bytes × Int) := do
  let envelope ← present entry.data.asObject "Invalid input entry"
  let message ← present
    (match jsonArrayMember envelope "model" with
      | some [message] => message.asObject
      | _ => none)
    "Invalid input message"
  let block ← present
    (match jsonArrayMember message "content" with
      | some [block] => block.asObject
      | _ => none)
    "Invalid input content"
  let text ← present (jsonStringMember block "text") "Invalid input text"
  let timestamp ← integerField message "timestamp"
  return (text, timestamp)

/-- The replay messages of the users that a boundary placed. -/
def inputUsers (entries : List EntryRecord) : Expected (List (Bytes × Int)) := entries.mapM inputUser

/-- The settlement of inputs that got no answer. -/
def unanswered (reason : Bytes) (detail : Option Json) : SubmissionSettlement :=
  ⟨"unanswered", none, some reason, detail⟩

/-- The commit of `finish_tool_round`, apart from the loaded tools. -/
def finishToolRound (settings : WorkflowSettings) (conversationId : ConversationId) (task : TaskId)
    (now : Int) : WorkflowAction Unit := do
  let s ← get
  let boundary ← prepareBoundary conversationId (s.inbox conversationId)
  let applied ← applyBoundary settings boundary .postTools now
  let _ ← check (inputUsers applied.userEntries)
  if applied.reset then do
    endRun conversationId task (unanswered "reset" none)
    if applied.users.isEmpty then return () else startRun settings conversationId applied.users
  else do
    joinRunInputs conversationId task applied.users
    handOver settings conversationId

/-- The commit of a final answer; `continuation` is what `onYield` decided. -/
def answer (settings : WorkflowSettings) (conversationId : ConversationId) (task : TaskId)
    (assistant : EntryDraft) (continuation : Option Json) (now : Int) : WorkflowAction Unit := do
  let s ← get
  let boundary ← prepareBoundary conversationId (s.inbox conversationId)
  let entry ← appendEntry conversationId assistant
  let applied ← applyBoundary settings boundary .final now
  match continuation, applied.users.isEmpty && !applied.reset with
  | some content, true => do
      let draft ← check (inputEntryDraft content none now)
      let _ ← appendEntry conversationId draft
      handOver settings conversationId
  | _, _ => do
      endRun conversationId task ⟨"done", some entry.id, none, none⟩
      if applied.users.isEmpty then return () else startRun settings conversationId applied.users

/-- The commit of a generation that was aborted or failed; the message of a failed one stays. -/
def endUnanswered (conversationId : ConversationId) (task : TaskId) (assistant : Option EntryDraft)
    (reason : Bytes) (detail : Option Json) : WorkflowAction Unit :=
  match assistant with
  | none => endRun conversationId task (unanswered reason detail)
  | some draft => do
      let _ ← appendEntry conversationId draft
      endRun conversationId task (unanswered reason detail)

/-! ### Withdrawal -/

/-- The settlement of a withdrawn submission. -/
def abortedSettlement : SubmissionSettlement := unanswered "aborted" none

/-- `remove_inbox_item`. -/
def removeItem (id : SubmissionId) (items : List InboxItem) : List InboxItem :=
  items.eraseP fun item => item.id == id

/-- `abort_submission`, apart from the word it answers. -/
def abortSubmission (id : SubmissionId) (conversationId : Option ConversationId) : WorkflowAction Unit := do
  let s ← get
  match s.storage.submissions.find id with
  | none => return ()
  | some record =>
    if conversationId.any fun conversation => record.conversationId != conversation then return ()
    else if record.status = "queued" then do
      changeSubmission (.settle id abortedSettlement)
      setInbox record.conversationId (removeItem id (s.inbox record.conversationId))
    else return ()

/-- The settlements of `withdraw_queued_inputs`, newest item first. -/
def withdrawItems : List InboxItem → WorkflowAction Unit
  | [] => return ()
  | item :: rest => do
      withdrawItems rest
      if item.mode = .write then return () else changeSubmission (.settle item.id abortedSettlement)

/-- `withdraw_queued_inputs`: queued writes stay. -/
def withdrawQueuedInputs (conversationId : ConversationId) : WorkflowAction Unit := do
  let s ← get
  withdrawItems (s.inbox conversationId)
  setInbox conversationId ((s.inbox conversationId).filter fun item => item.mode = .write)

/-! ### Runs -/

/-- A commit of the workflow. An entry of other work is an assistant message, a tool result or a
blocking summary. -/
inductive Step where
  | submit (conversationId : ConversationId) (draft : SubmissionDraft) (now : Int)
  | toolRound (conversationId : ConversationId) (task : TaskId) (now : Int)
  | answer (conversationId : ConversationId) (task : TaskId) (assistant : EntryDraft)
      (continuation : Option Json) (now : Int)
  | endUnanswered (conversationId : ConversationId) (task : TaskId) (assistant : Option EntryDraft)
      (reason : Bytes) (detail : Option Json)
  | abortSubmission (id : SubmissionId) (conversationId : Option ConversationId)
  | abortConversation (conversationId : ConversationId)
  | append (conversationId : ConversationId) (draft : EntryDraft)
  | createConversation (parent : Option Parent) (owner : Option ConversationOwner)

/-- `create_conversation` and `fork_conversation`: the new inbox and live document are empty. -/
def createConversation (parent : Option Parent) (owner : Option ConversationOwner) : WorkflowAction Unit := do
  let id ← mintId
  let s ← get
  let storage ← check (s.storage.applyConversation true (some ⟨id, parent, owner⟩))
  setStorage storage

def callback (settings : WorkflowSettings) : Step → WorkflowAction Unit
  | .submit conversationId draft now => do
      let _ ← admitSubmission settings conversationId draft now
  | .toolRound conversationId task now => finishToolRound settings conversationId task now
  | .answer conversationId task assistant continuation now =>
    answer settings conversationId task assistant continuation now
  | .endUnanswered conversationId task assistant reason detail =>
    endUnanswered conversationId task assistant reason detail
  | .abortSubmission id conversationId => abortSubmission id conversationId
  | .abortConversation conversationId => withdrawQueuedInputs conversationId
  | .append conversationId draft => do
      let _ ← appendEntry conversationId draft
  | .createConversation parent owner => createConversation parent owner

/-- A commit: a failed one leaves only the identifiers that it minted behind. -/
def commit (x : WorkflowAction Unit) (s : Workflow) : Workflow := match x s with
  | .ok _ t => { t with storage.nextSeq := t.storage.nextSeq + 1 }
  | .error _ t => { s with storage.nextId := t.storage.nextId }

/-- The workflow of a new Session: the root conversation with an empty inbox. -/
def initial : Workflow where
  storage := { conversations := OrdMap.empty.insert 1 { id := 1 }, conversationIds := [1] }

def runSteps (settings : WorkflowSettings) (s : Workflow) (steps : List Step) : Workflow :=
  steps.foldl (fun s step => commit (callback settings step) s) s

/-! ## What the calls do -/

/-- The workflow after an identifier was minted. -/
def minted (s : Workflow) : Workflow := { s with storage := s.storage.reserveId.1 }

/-- The workflow after an entry was appended. -/
def appended (s : Workflow) (record : EntryRecord) : Workflow := { s with
    storage := { s.storage with
        entries := s.storage.entries.insert record.id ⟨record, s.storage.nextSeq⟩
        entryIdsByConversation := s.storage.entryIdsByConversation.insert record.conversationId
          (s.storage.entryIds record.conversationId ++ [record.id])
        nextId := s.storage.nextId + 1 } }

/-- The workflow with another record of a submission. -/
def withSubmission (s : Workflow) (id : SubmissionId) (record : SubmissionRecord) : Workflow :=
  { s with storage.submissions := s.storage.submissions.insert id record }

variable {P E : Workflow → Prop}

theorem ensures_check {α : Type} {x : Expected α} (hE : ∀ s, P s → E s) :
    Ensures P (check x : WorkflowAction α) (fun a s => x = .ok a ∧ P s) E :=
  ensures_ofExcept (fun _ _ hx hs => ⟨hx, hs⟩) hE

theorem ensures_checkThen {α β : Type} {Q : β → Workflow → Prop} {x : Expected α}
    {f : α → WorkflowAction β} (hE : ∀ s, P s → E s) (h : ∀ a, x = .ok a → Ensures P (f a) Q E) :
    Ensures P (check x >>= f) Q E :=
  (ensures_check hE).bind fun a => ensures_assume fun hx => h a hx

theorem Ensures.ofStates {α : Type} {x : WorkflowAction α}
    {Q : α → Workflow → Prop} (h : ∀ s, P s → Ensures (fun t => t = s) x Q E) : Ensures P x Q E :=
  fun s hs => h s hs s rfl

theorem ensures_mintIdAt (s : Workflow) {E : Workflow → Prop} :
    Ensures (fun t => t = s) mintId (fun id t => id = s.storage.nextId ∧ t = s.minted) E := by
  rintro t rfl
  exact ⟨rfl, rfl⟩

theorem ensures_appendEntryAt (s : Workflow) (c : ConversationId) (draft : EntryDraft) :
    Ensures (fun t => t = s) (appendEntry c draft) (fun record t => record = draft.record s.storage.nextId c ∧
        StorageState.applyEntry s.storage.nextSeq s.minted.storage (some record) = .ok (s.appended record).storage ∧
        t = s.appended record) (fun t => t = s.minted) := by
  refine (ensures_mintIdAt s).bind fun id => ?_
  apply ensures_assume
  rintro rfl
  apply ensures_getAt
  refine ensures_checkThen (fun t ht => ht) fun storage happly => ?_
  have hstor : storage = (s.appended (draft.record s.storage.nextId c)).storage := by
    obtain ⟨record, hrec, -, -, -, -, rfl⟩ := StorageState.applyEntry_eq_ok.1 happly
    cases hrec
    simp [appended, minted, StorageState.reserveId, EntryDraft.record, StorageState.entryIds]
  subst hstor
  refine (ensures_modify (G := fun _ t => t = s.appended (draft.record s.storage.nextId c)) ?_).bind fun _ => ?_
  · rintro t rfl
    rfl
  · exact ensures_pure fun t ht => ⟨rfl, happly, ht⟩

/-- The record that `create_submission` stages. -/
def newSubmission (id : SubmissionId) (conversationId : ConversationId) (draft : SubmissionDraft)
    (status : String) (entry : Option EntryId) (reason : Option Bytes) : SubmissionRecord where
  id := id
  conversationId := conversationId
  requestId := draft.requestId
  type := draft.body.type
  status := ofString status
  entry := entry
  reason := reason

theorem ensures_createSubmissionAt (s : Workflow) (c : ConversationId) (draft : SubmissionDraft)
    (status : String) (entry : Option EntryId) (reason : Option Bytes) :
    Ensures (fun t => t = s) (createSubmission c draft status entry reason) (fun id t => id = s.storage.nextId ∧
        t = s.minted.withSubmission id (newSubmission id c draft status entry reason)) (fun t => t = s) := by
  apply ensures_getAt
  refine ensures_checkThen (fun t ht => ht) fun conversation _ => ?_
  refine (ensures_mintIdAt s).bind fun id => ?_
  apply ensures_assume
  rintro rfl
  refine (ensures_modify (G := fun _ t => t = s.minted.withSubmission s.storage.nextId
    (newSubmission s.storage.nextId c draft status entry reason)) ?_).bind fun _ => ?_
  · rintro t rfl
    rfl
  · exact ensures_pure fun t ht => ⟨rfl, ht⟩

theorem ensures_changeSubmissionAt (s : Workflow) (change : SubmissionChange) :
    Ensures (fun t => t = s) (changeSubmission change)
      (fun _ t => ∃ current next, s.storage.submissions.find change.id = some current ∧
        applySubmissionChange current change = .ok next ∧ t = s.withSubmission change.id next) (fun t => t = s) := by
  apply ensures_getAt
  refine ensures_checkThen (fun t ht => ht) fun current hcur => ?_
  refine ensures_checkThen (fun t ht => ht) fun next hnext => ?_
  rintro t rfl
  exact ⟨current, next, present_eq_ok.1 hcur, hnext, rfl⟩

end Workflow

end CodingHarness.Durable
