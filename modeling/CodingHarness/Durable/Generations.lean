import CodingHarness.Durable.Admission
import CodingHarness.Durable.TaskWrites

/-!
# Generations and compactions

The two built-in tasks of a conversation over the workflow and the task table. A generation carries the
run of its conversation through its phases; a compaction is listed in the live document while it works.
Every commit of theirs moves the run marker or the list and the record of the task together, after the
checks of `commit_with`. The live document appears here as the members that these commits read: the run
marker of `Workflow` and the list of compactions.

The passes of the scheduler and the commits of all other tasks are those of `Tasks`. A task is run by the
handlers of the definition of its kind, so none of these is a commit of a built-in task, and none creates
one.
-/

namespace CodingHarness.Durable

open Library Support

namespace Generations

/-- The built-in definitions, with the settings of the workflow. -/
structure Builtin where
  settings : WorkflowSettings
  compaction : TaskDefinition
  tool : TaskDefinition
  generationKind : settings.generation.kind = "pi.generation"
  compactionKind : compaction.kind = "pi.compaction"
  toolKind : tool.kind = "pi.tool"

/-- Built-in definitions without options. -/
def plainBuiltin : Builtin where
  settings := { generation := { kind := "pi.generation", initial := fun _ => .object [] } }
  compaction := { kind := "pi.compaction", initial := fun _ => .object [] }
  tool := { kind := "pi.tool", initial := fun _ => .object [] }
  generationKind := rfl
  compactionKind := rfl
  toolKind := rfl

/-- The committed state: the workflow, and the `compactions` members of the live documents. -/
structure State extends Workflow where
  compactions : ConversationId → List TaskId := fun _ => []

abbrev Action (α : Type) := EStateM Error State α

def check {α : Type} (x : Expected α) : Action α := MonadExcept.ofExcept x

def inWorkflow {α : Type} (x : WorkflowAction α) : Action α :=
  zoom State.toWorkflow (fun s w => { s with toWorkflow := w }) x

def setStorage (storage : StorageState) : Action Unit := modify fun s => { s with storage }

/-- The live document of a conversation that exists. -/
def liveDocument (conversationId : ConversationId) : Action Unit := do
  let s ← get
  let _ ← check (present (s.storage.conversations.find conversationId)
    (ofString "Conversation " ++ intText conversationId ++ ofString " does not exist"))
  return ()

def appendEntries (conversationId : ConversationId) : List EntryDraft → WorkflowAction Unit
  | [] => return ()
  | draft :: rest => do
      let _ ← Workflow.appendEntry conversationId draft
      appendEntries conversationId rest

/-! ## Compactions -/

def createTask (definition : TaskDefinition) (input : Json) (options : TaskOptions) : Action TaskId := do
  let s ← get
  let staged ← check (Tasks.create { tables := s.storage } (.task definition input options))
  setStorage staged.tables
  return s.storage.nextId

/-- `add_live_compaction_status`, for the task that it names. -/
def addLiveCompaction (conversationId : ConversationId) (task : TaskId) : Action Unit := modify fun s => { s with
    compactions := Function.update s.compactions conversationId (s.compactions conversationId ++ [task]) }

/-- `remove_live_compaction_status`. -/
def removeLiveCompaction (conversationId : ConversationId) (task : TaskId) : Action Unit := modify fun s => { s with
    compactions := Function.update s.compactions conversationId
      ((s.compactions conversationId).filter fun listed => listed != task) }

def createCompactionTask (builtin : Builtin) (conversationId : ConversationId) (input : Json)
    (owner : Option TaskId) (background : Bool) : Action TaskId := do
  let task ← createTask builtin.compaction input
    { conversationId := if owner.isSome then none else some conversationId
      owner := owner
      background := background }
  liveDocument conversationId
  addLiveCompaction conversationId task
  return task

/-! ## Task commits -/

def createdSince (before after : StorageState) : List TaskRecord :=
  after.tasks.values.filter fun record => decide (before.nextId ≤ record.id)

/-- `commit_with` around the work of a built-in task of the given kind. The owners of what was created
are judged as at assembly. -/
def commitWith (kind : Bytes) (task : TaskId) (allowAbort : Bool)
    (work : TaskRecord → Action (Option Tasks.NextTaskState)) (now : Int) : Action Unit := do
  let s ← get
  let current ← check (Tasks.runningTask s.storage task allowAbort)
  check (refuse (current.kind != kind) "Another definition runs the task")
  let next ← work current
  let t ← get
  let created := createdSince s.storage t.storage
  match next with
  | none => check (Tasks.checkOwners t.storage "Task owner" (created.filterMap TaskRecord.owner))
  | some next => do
      let record ← check (Tasks.nextRecord s.storage { tables := t.storage, created := created }
        current false next now)
      let storage := Tasks.setTasks t.storage [record]
      check (Tasks.checkOwners storage "Task owner" (created.filterMap TaskRecord.owner))
      setStorage storage

/-- `NextTaskState::terminal`. -/
def terminal (outcome : TaskOutcome) : Tasks.NextTaskState := { status := Tasks.terminal, outcome := some outcome }

/-- `NextTaskState::running`. -/
def running (checkpoint : Json) : Tasks.NextTaskState := { status := Tasks.running, checkpoint := some checkpoint }

/-- `NextTaskState::waiting` for all of the given tasks. -/
def waiting (checkpoint : Json) (on : List TaskId) : Tasks.NextTaskState :=
  { status := Tasks.waiting, checkpoint := some checkpoint, on := on, policy := some .allSettled }

/-- The outcome that names an entry or a submission. -/
def completed (name : String) (id : Int) : TaskOutcome :=
  { status := "completed", result := some (.object (field name (number id))) }

/-- What a phase of a generation commits. -/
inductive GenerationWork where
  /-- `finish_tool_round`. -/
  | finishToolRound (assistant now : Int)
  /-- The final answer of `request`. -/
  | answer (assistant : EntryDraft) (continuation : Option Json) (now : Int)
  /-- `fail_model_error`, and the failed and aborted responses of `request`. -/
  | fail (entries : List EntryDraft) (reason : Bytes) (detail : Option Json) (outcome : TaskOutcome)
  /-- The blocking compaction of `prepare` and of an overflow in `request`. -/
  | compact (entries : List EntryDraft) (input : Json) (checkpoint : Json)
  /-- `start_tool_round` and `recover_tool_round`, with the tasks that already exist. -/
  | callTools (entries : List EntryDraft) (calls : List Json) (existing : List TaskId)
      (checkpoint : Json)
  /-- The other commits of `prepare`, `request` and `retry`. -/
  | advance (entries : List EntryDraft) (background : Option Json) (checkpoint : Option Json)

/-- The tool tasks of a round, in the order of the calls. -/
def createTools (builtin : Builtin) (owner : TaskId) : List Json → Action (List TaskId)
  | [] => return []
  | input :: rest => do
      let task ← createTask builtin.tool input { owner := some owner }
      let later ← createTools builtin owner rest
      return task :: later

def generationWork (builtin : Builtin) (current : TaskRecord) : GenerationWork → Action (Option Tasks.NextTaskState)
  | .finishToolRound assistant now => do
      inWorkflow (Workflow.finishToolRound builtin.settings current.conversationId current.id now)
      return some (terminal (completed "entryId" assistant))
  | .answer assistant continuation now => do
      let s ← get
      inWorkflow (Workflow.answer builtin.settings current.conversationId current.id assistant continuation now)
      return some (terminal (completed "entryId" s.storage.nextId))
  | .fail entries reason detail outcome => do
      inWorkflow (appendEntries current.conversationId entries)
      inWorkflow (Workflow.endRun current.conversationId current.id (Workflow.unanswered reason detail))
      return some (terminal outcome)
  | .compact entries input checkpoint => do
      inWorkflow (appendEntries current.conversationId entries)
      let child ← createCompactionTask builtin current.conversationId input (some current.id) false
      return some (waiting checkpoint [child])
  | .callTools entries calls existing checkpoint => do
      inWorkflow (appendEntries current.conversationId entries)
      let tools ← createTools builtin current.id calls
      match existing ++ tools with
      | [] => return some (running checkpoint)
      | on => return some (waiting checkpoint on)
  | .advance entries background checkpoint => do
      inWorkflow (appendEntries current.conversationId entries)
      let s ← get
      match background with
      | none => return checkpoint.map running
      | some input =>
        if (s.compactions current.conversationId).isEmpty then do
          let _ ← createCompactionTask builtin current.conversationId input none true
          return checkpoint.map running
        else return checkpoint.map running

def abortRun (entries : List EntryDraft) (current : TaskRecord) : Action (Option Tasks.NextTaskState) := do
  inWorkflow (appendEntries current.conversationId entries)
  inWorkflow (Workflow.endRun current.conversationId current.id Workflow.abortedSettlement)
  return some (terminal { status := "aborted" })

/-- What a phase of a compaction commits. -/
inductive CompactionWork where
  /-- `complete`, `fail_no_model` and the failed summaries. -/
  | finish (outcome : TaskOutcome)
  /-- `place_summary`, with the message of the summary. -/
  | placeSummary (firstKept : EntryId) (message : Json) (now : Int)
  /-- The pinned request of `select`, and the retries. -/
  | advance (checkpoint : Json)

/-- The reason that the input of a compaction names. -/
def compactionReason (input : Json) : Bytes :=
  match input.asObject.bind fun members => jsonMember members "reason" with
  | none => "manual"
  | some reason => reason.asString.getD []

def placeSummary (builtin : Builtin) (current : TaskRecord) (firstKept : EntryId) (message : Json)
    (now : Int) : Action (Option Tasks.NextTaskState) := do
  removeLiveCompaction current.conversationId current.id
  let data := Json.object (field "reason" (.string (compactionReason current.input)))
  match current.owner with
  | some _ => do
      let entry ← inWorkflow (Workflow.appendEntry current.conversationId
        ⟨"pi.compaction", data, some (.entry firstKept), [message], []⟩)
      return some (terminal (completed "entryId" entry.id))
  | none => do
      let admitted ← inWorkflow (Workflow.admitSubmission builtin.settings current.conversationId
        { requestId := some (ofString "compaction:" ++ intText current.id)
          body := .write
            { kind := "pi.compaction"
              data := some data
              model := some [message]
              head := some (.entry firstKept) } } now)
      return some (terminal (completed "submissionId" admitted))

def compactionWork (builtin : Builtin) (current : TaskRecord) : CompactionWork → Action (Option Tasks.NextTaskState)
  | .finish outcome => do
      removeLiveCompaction current.conversationId current.id
      return some (terminal outcome)
  | .placeSummary firstKept message now => placeSummary builtin current firstKept message now
  | .advance checkpoint => return some (running checkpoint)

def abortCompaction (current : TaskRecord) : Action (Option Tasks.NextTaskState) := do
  removeLiveCompaction current.conversationId current.id
  return some (terminal { status := "aborted" })

/-! ## Other commits -/

/-- The kind of another task than a generation or a compaction. -/
def foreignKind (builtin : Builtin) (kind : Bytes) : Bool :=
  kind != builtin.settings.generation.kind && kind != builtin.compaction.kind

def foreignCreation (builtin : Builtin) : Tasks.Creation → Bool
  | .task definition _ _ => foreignKind builtin definition.kind
  | .conversation _ => true

/-- A commit of the scheduler or of another task. -/
def foreign (builtin : Builtin) (tables : StorageState) : Tasks.Step → Bool
  | .commitWith id _ _ creations _ _ =>
    (tables.tasks.find id).all (fun record => foreignKind builtin record.kind) &&
      creations.all (foreignCreation builtin)
  | .create creations => creations.all (foreignCreation builtin)
  | _ => true

def taskCommit (step : Tasks.Step) : Action Unit := do
  let s ← get
  let tables ← check (Tasks.callback s.storage step >>= Tasks.assemble s.storage)
  setStorage tables

/-- `create_conversation` and `fork_conversation`; the owner is judged as at assembly. -/
def createConversation (parent : Option Parent) (owner : Option TaskId) : Action Unit := do
  let s ← get
  match owner with
  | none => inWorkflow (Workflow.createConversation parent none)
  | some owner => do
      let record ← check (present (s.storage.tasks.find owner)
        (ofString "Conversation owner task " ++ intText owner ++ ofString " does not exist"))
      inWorkflow (Workflow.createConversation parent (some ⟨record.conversationId, owner⟩))
      check (Tasks.checkOwners s.storage "Conversation owner task" [owner])

/-! ## Runs -/

/-- A commit of the Harness. -/
inductive Step where
  | submit (conversationId : ConversationId) (draft : SubmissionDraft) (now : Int)
  | abortSubmission (id : SubmissionId) (conversationId : Option ConversationId)
  | abortConversation (conversationId : ConversationId) (background : Bool)
  | append (conversationId : ConversationId) (draft : EntryDraft)
  | createConversation (parent : Option Parent) (owner : Option TaskId)
  | compact (conversationId : ConversationId) (input : Json)
  | generation (task : TaskId) (work : GenerationWork) (now : Int)
  | abortRun (task : TaskId) (entries : List EntryDraft) (now : Int)
  | compaction (task : TaskId) (work : CompactionWork) (now : Int)
  | abortCompaction (task : TaskId) (now : Int)
  | task (step : Tasks.Step)

def callback (builtin : Builtin) : Step → Action Unit
  | .submit conversationId draft now => do
      let _ ← inWorkflow (Workflow.admitSubmission builtin.settings conversationId draft now)
  | .abortSubmission id conversationId => inWorkflow (Workflow.abortSubmission id conversationId)
  | .abortConversation conversationId background => do
      taskCommit (.abortConversation conversationId background)
      inWorkflow (Workflow.withdrawQueuedInputs conversationId)
  | .append conversationId draft => inWorkflow (appendEntries conversationId [draft])
  | .createConversation parent owner => createConversation parent owner
  | .compact conversationId input => do
      let _ ← createCompactionTask builtin conversationId input none false
  | .generation task work now =>
    commitWith builtin.settings.generation.kind task false
      (fun current => generationWork builtin current work) now
  | .abortRun task entries now =>
    commitWith builtin.settings.generation.kind task true (abortRun entries) now
  | .compaction task work now =>
    commitWith builtin.compaction.kind task false
      (fun current => compactionWork builtin current work) now
  | .abortCompaction task now => commitWith builtin.compaction.kind task true abortCompaction now
  | .task step => do
      let s ← get
      check (refuse (!foreign builtin s.storage step) "A built-in task is run by its own work")
      taskCommit step

/-- A commit: a failed one leaves only the identifiers that it minted behind. -/
def commit (builtin : Builtin) (s : State) (step : Step) : State := match callback builtin step s with
  | .ok _ t => { t with storage.nextSeq := t.storage.nextSeq + 1 }
  | .error _ t => { s with storage.nextId := t.storage.nextId }

def initial : State := { toWorkflow := Workflow.initial }

end Generations

end CodingHarness.Durable
