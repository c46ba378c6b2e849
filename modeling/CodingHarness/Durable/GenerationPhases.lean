import CodingHarness.Ai.StreamEvents
import CodingHarness.Durable.Transcript
import CodingHarness.Durable.Tasks

/-!
# The phases of a generation

A generation task goes through `prepare`, `request` and `retry`, and its checkpoint says where it is: the
attempt, the compaction that it has waited for and why. The checkpoint is a JSON object that four places
build and three read, so a member that one of them drops is gone for the next phase.

A run is any sequence of invocations of the task in one process. What the phases find outside the
checkpoint (the run marker, the outcome of the compaction, the size of the context, the response of the
model, a stop request, a failed commit) is the input of each invocation. A run is followed until the task
has ended or stands at a tool round: `finish_tool_round` hands over to another task.
-/

namespace CodingHarness.Durable

open Library Support

namespace Phases

open Ai (InferenceFailure)
open Transcript (stringField stringMember member AssistantMessage StopReason)

/-! ## Settings and the task -/

structure CompactionPolicy where
  enabled : Bool := true
  reserveTokens : Int := 16384
  keepRecentTokens : Int := 20000
  backgroundTokens : Int := 32768

structure RetryPolicy where
  enabled : Bool := true
  maxRetries : Int := 3
  baseDelayMs : Int := 2000
  maxAgentDelayMs : Int := 60000

/-- What the phases read of the settings, the model and the registry. -/
structure Settings where
  compaction : CompactionPolicy := {}
  retry : RetryPolicy := {}
  contextWindow : Int := 0
  /-- A compaction definition is installed. -/
  installed : Bool := true

/-- Where the record of the task stands. -/
inductive Stage where
  | running
  | waiting (on : List TaskId)
  | terminal (outcome : TaskOutcome)
  /-- The process has left the task: it is closed, or it could not write the end. -/
  | left

/-- The task, with what it has done so far: its model requests, the compactions that it has waited for
and its invocations. -/
structure Generation where
  checkpoint : Option Json := none
  stage : Stage := .running
  requests : Nat := 0
  compactions : Nat := 0
  phases : Nat := 0

/-- A phase: what it committed before a failure stays. -/
abbrev Phase (α : Type) := EStateM Error Generation α

def fail {α : Type} (message : String) : Phase α := throw (validationError (ofString message))

/-! ## Checkpoints -/

/-- The names of the phases. -/
inductive Name where
  | prepare
  | request
  | retry
  | tools
  deriving DecidableEq

/-- The phase that `dispatch` runs. -/
def phaseOf (checkpoint : Option Json) : Name := match checkpoint.bind fun json => stringMember json "phase" with
  | none => .prepare
  | some name =>
    if name = "retry" then .retry
    else if name = "request" then .request
    else if name = "tools" then .tools
    else .prepare

/-- The attempt, which is the first one unless the checkpoint names another. -/
def attemptOf (checkpoint : Option Json) : Int := match checkpoint.bind fun json => member json "attempt" with
  | none => 1
  | some value =>
    match asInteger value with
    | .ok attempt => attempt
    | .error _ => 1

/-- A task or an entry that a checkpoint names. -/
def idOf (name : String) (checkpoint : Option Json) : Option Int :=
  (checkpoint.bind fun json => member json name).bind fun value =>
    match asInteger value with
    | .ok id => some id
    | .error _ => none

/-- The compaction that the task has waited for. -/
def compactedOf (checkpoint : Option Json) : Option TaskId := idOf "compacted" checkpoint

/-- The last entry of the prepared context. -/
def cutoffOf (checkpoint : Option Json) : Option EntryId := idOf "cutoff" checkpoint

/-- The compaction was started because the context was over the threshold. -/
def thresholdBlocked (checkpoint : Option Json) : Bool :=
  ((checkpoint.bind fun json => member json "threshold").bind Json.asBoolean).getD false

/-- The overflow error that the compaction was started for. -/
def overflowOf (checkpoint : Option Json) : Option Bytes := checkpoint.bind fun json => stringMember json "overflow"

/-- The checkpoint of a blocking compaction over the threshold. -/
def thresholdCheckpoint (attempt : Int) (child : TaskId) : Json :=
  .object (stringField "phase" (ofString "prepare") ++ (field "attempt" (number attempt) ++
    (field "compacted" (number child) ++ field "threshold" (.bool true))))

/-- The checkpoint of a compaction after an overflow. -/
def overflowCheckpoint (attempt : Int) (child : TaskId) (text : Bytes) : Json :=
  .object (stringField "phase" (ofString "prepare") ++ (field "attempt" (number attempt) ++
    (field "compacted" (number child) ++ stringField "overflow" text)))

/-- The checkpoint of a prepared request. -/
def requestCheckpoint (attempt : Int) (cutoff : EntryId) (compacted : Option TaskId) : Json :=
  .object (stringField "phase" (ofString "request") ++ (field "attempt" (number attempt) ++
    (field "cutoff" (number cutoff) ++ optionalField "compacted" number compacted)))

/-- The checkpoint of a request that is to be tried again. -/
def retryCheckpoint (attempt wake : Int) (compacted : Option TaskId) : Json :=
  .object (stringField "phase" (ofString "retry") ++ (field "attempt" (number attempt) ++
    (field "until" (number wake) ++ optionalField "compacted" number compacted)))

/-- The checkpoint after the delay: the compaction is copied as it stands. -/
def retriedCheckpoint (attempt : Int) (compacted : Option Json) : Json :=
  .object (stringField "phase" (ofString "prepare") ++ (field "attempt" (number attempt) ++
    optionalField "compacted" id compacted))

def toolsCheckpoint (assistant : EntryId) (tools : List TaskId) : Json :=
  .object (stringField "phase" (ofString "tools") ++ (field "assistant" (number assistant) ++
    field "tools" (.array (tools.map number))))

/-! ## What a phase finds -/

/-- What `prepare` finds: the task of the run marker, the record of the compaction, the size of the
context, whether it can be cut, and the newest entry once the planned ones are appended. -/
structure PrepareInput where
  run : Expected (Option TaskId)
  record : Expected (Option TaskRecord)
  context : Expected Unit
  tokens : Int
  cut : Bool
  newest : Option EntryId
  listed : Bool
  child : TaskId
  commit : Expected Unit

def isRetryableInferenceFailure (failure : InferenceFailure) : Bool := !failure.outputStarted &&
    (failure.kind == .rateLimited || failure.kind == .transientTransportFailure)

/-- The assistant entry of a tool round and its tool tasks. -/
structure ToolRound where
  assistant : EntryId
  tools : List TaskId

/-- What `request` finds: whether the stop is requested before it and after the response, the outcomes of
its steps, the tool round that it recovers or starts, the response with its classified failure, and the
continuation that `on_yield` decides on. -/
structure RequestInput where
  run : Expected (Option TaskId)
  stopBefore : Bool
  published : Expected Unit
  loaded : Expected Unit
  recovered : Expected (Option ToolRound)
  planned : Expected Unit
  response : Expected AssistantMessage
  failure : Option InferenceFailure
  round : Expected ToolRound
  cut : Expected Bool
  child : TaskId
  now : Int
  stopAfter : Bool
  continuation : Expected Unit
  entry : EntryId
  commit : Expected Unit

/-- What `retry` finds: whether the stop is requested when it has waited. -/
structure RetryInput where
  stopRequested : Bool
  commit : Expected Unit

/-! ## prepare -/

def ownsRun (task : TaskId) (run : Expected (Option TaskId)) : Phase Unit := do
  match ← MonadExcept.ofExcept run with
  | none => fail "Generation task has no run"
  | some owner =>
    if owner ≠ task then fail "Generation task does not own the conversation run"

def compactionFailureText (outcome : TaskOutcome) : Bytes :=
  if outcome.status = "failed" ∨ outcome.status = "faulted" then
    ofString "Compaction failed: " ++ (outcome.error.map TaskOutcomeError.message).getD []
  else if outcome.status = "orphaned" then
    ofString "Compaction failed: " ++ outcome.reason.getD "orphaned"
  else "Compaction was aborted"

def terminalOutcome (record : Option TaskRecord) : Option TaskOutcome := record.bind fun record =>
    if record.state.status = Tasks.terminal then record.state.outcome else none

/-- The compaction has appended a summary. -/
def answered (record : Option TaskRecord) : Bool := match terminalOutcome record with
  | none => false
  | some outcome =>
    outcome.status == "completed" && (outcome.result.bind fun result => member result "entryId").isSome

/-- The model error that a compaction without success leaves. -/
def recoveryFailure (checkpoint : Option Json) (record : Option TaskRecord) : Option Bytes :=
  match overflowOf checkpoint with
  | some text => if answered record then none else some text
  | none =>
    if thresholdBlocked checkpoint then
      match terminalOutcome record with
      | none => none
      | some outcome =>
        if outcome.status = "completed" then none
        else some (compactionFailureText outcome)
    else none

def endWith (outcome : TaskOutcome) : Phase Unit := modify fun g => { g with stage := .terminal outcome }

def failedWith (message : Bytes) (detail : Option Json) : TaskOutcome :=
  { status := "failed", error := some { message := message, detail := detail } }

def failModelError (commit : Expected Unit) (text : Bytes) : Phase Unit := do
  MonadExcept.ofExcept commit
  endWith (failedWith text (some (.object (stringField "reason" "model_error"))))

/-- The threshold decision. -/
inductive Threshold where
  | none
  | background
  | blocking
  deriving DecidableEq

/-- The threshold decision of `prepare`. -/
def threshold (settings : Settings) (compacted : Option TaskId) (tokens : Int) (cut : Bool) : Threshold :=
  if compacted = Option.none ∧ settings.compaction.enabled ∧ 0 < settings.contextWindow ∧ cut then
    let blockingLine := settings.contextWindow - settings.compaction.reserveTokens
    let backgroundLine := blockingLine - settings.compaction.backgroundTokens
    if blockingLine < tokens then .blocking
    else if 0 < settings.compaction.backgroundTokens ∧ backgroundLine < tokens then .background
    else .none
  else .none

/-- `create_compaction`, up to the record that it creates. -/
def createCompaction (settings : Settings) : Phase Unit :=
  if settings.installed then pure () else fail "No compaction definition is installed"

/-- `prepare` after the outcome of a compaction. -/
def prepareRequest (settings : Settings) (input : PrepareInput) : Phase Unit := do
  MonadExcept.ofExcept input.context
  let g ← get
  let attempt := attemptOf g.checkpoint
  let compacted := compactedOf g.checkpoint
  match threshold settings compacted input.tokens input.cut with
  | .blocking => do
      MonadExcept.ofExcept input.commit
      createCompaction settings
      modify fun g => { g with
        checkpoint := some (thresholdCheckpoint attempt input.child)
        stage := .waiting [input.child]
        compactions := g.compactions + 1 }
  | decision => do
      MonadExcept.ofExcept input.commit
      match input.newest with
      | none => fail "Conversation has no entries to send"
      | some cutoff => do
          if decision = .background ∧ ¬ input.listed then createCompaction settings
          modify fun g => { g with
            checkpoint := some (requestCheckpoint attempt cutoff compacted)
            stage := .running }

def prepare (settings : Settings) (task : TaskId) (input : PrepareInput) : Phase Unit := do
  ownsRun task input.run
  let g ← get
  match compactedOf g.checkpoint with
  | none => prepareRequest settings input
  | some _ => do
      let record ← MonadExcept.ofExcept input.record
      match recoveryFailure g.checkpoint record with
      | some text => failModelError input.commit text
      | none => prepareRequest settings input

/-! ## request -/

def standAt (round : ToolRound) : Phase Unit := modify fun g => { g with
    checkpoint := some (toolsCheckpoint round.assistant round.tools)
    stage := if round.tools.isEmpty then .running else .waiting round.tools }

def overflowText (response : AssistantMessage) (failure : Option InferenceFailure) : Option Bytes :=
  if response.stopReason = .error ∧ failure.map InferenceFailure.kind = some .contextOverflow then
    some (response.errorMessage.getD "Context overflow")
  else none

def retryable (settings : Settings) (attempt : Int) (response : AssistantMessage)
    (failure : Option InferenceFailure) : Bool :=
  response.stopReason == .error && (overflowText response failure).isNone &&
    failure.any isRetryableInferenceFailure && settings.retry.enabled &&
    decide (attempt ≤ settings.retry.maxRetries)

def retryDelay (policy : RetryPolicy) (attempt : Int) : Int :=
  min policy.maxAgentDelayMs (max 0 policy.baseDelayMs * 2 ^ (attempt - 1).toNat)

/-- The outcome of a response that is not tried again. -/
def answerOutcome (input : RequestInput) (response : AssistantMessage) : TaskOutcome :=
  match response.stopReason with
  | .aborted =>
    if input.stopAfter then { status := "aborted" }
    else failedWith (response.errorMessage.getD "Model response ended with stop reason aborted") none
  | .error => failedWith (response.errorMessage.getD "Generation failed") none
  | _ => { status := "completed", result := some (.object (field "entryId" (number input.entry))) }

/-- The final answer, a model error or an abort. -/
def answer (input : RequestInput) (response : AssistantMessage) : Phase Unit := do
  if response.stopReason ≠ .aborted ∧ response.stopReason ≠ .error then
    MonadExcept.ofExcept input.continuation
  MonadExcept.ofExcept input.commit
  endWith (answerOutcome input response)

/-- A response that does not start a compaction. -/
def settleResponse (settings : Settings) (input : RequestInput) (response : AssistantMessage) : Phase Unit := do
  let g ← get
  let attempt := attemptOf g.checkpoint
  if retryable settings attempt response input.failure then do
    MonadExcept.ofExcept input.commit
    modify fun g => { g with
      checkpoint := some (retryCheckpoint attempt (input.now + retryDelay settings.retry attempt)
        (compactedOf g.checkpoint))
      stage := .running }
  else answer input response

def classify (settings : Settings) (input : RequestInput) (response : AssistantMessage) : Phase Unit := do
  let g ← get
  if response.stopReason = .toolUse then do
    let round ← MonadExcept.ofExcept input.round
    standAt round
  else
    match overflowText response input.failure with
    | none => settleResponse settings input response
    | some text =>
      if compactedOf g.checkpoint = none ∧ settings.compaction.enabled ∧ (cutoffOf g.checkpoint).isSome then do
        let cut ← MonadExcept.ofExcept input.cut
        if cut then do
          MonadExcept.ofExcept input.commit
          createCompaction settings
          modify fun g => { g with
            checkpoint := some (overflowCheckpoint (attemptOf g.checkpoint) input.child text)
            stage := .waiting [input.child]
            compactions := g.compactions + 1 }
        else settleResponse settings input response
      else settleResponse settings input response

def request (settings : Settings) (task : TaskId) (input : RequestInput) : Phase Unit := do
  ownsRun task input.run
  if input.stopBefore then fail "Request was aborted"
  else do
    MonadExcept.ofExcept input.published
    MonadExcept.ofExcept input.loaded
    match ← MonadExcept.ofExcept input.recovered with
    | some round => standAt round
    | none => do
        MonadExcept.ofExcept input.planned
        modify fun g => { g with requests := g.requests + 1 }
        match input.response with
        | .error error => do
            MonadExcept.ofExcept input.commit
            endWith (failedWith error.message none)
        | .ok response => classify settings input response

/-! ## retry -/

/-- `retry`, after its wait. A stop leaves the checkpoint to the abort or to the next process. -/
def retry (input : RetryInput) : Phase Unit := do
  let g ← get
  match g.checkpoint with
  | none => fail "Retry phase needs a checkpoint"
  | some checkpoint =>
    match member checkpoint "until", member checkpoint "attempt" with
    | some wake, some attempt => do
        let _ ← MonadExcept.ofExcept (asInteger wake)
        let attempt ← MonadExcept.ofExcept (asInteger attempt)
        if input.stopRequested then pure ()
        else do
          MonadExcept.ofExcept input.commit
          modify fun g => { g with
            checkpoint := some (retriedCheckpoint (attempt + 1) (member checkpoint "compacted"))
            stage := .running }
    | _, _ => fail "Retry checkpoint is incomplete"

/-! ## Invocations -/

/-- The input of an invocation, and what `run_task_execution` finds after the phase: the Harness is
closed, or the task is marked and its abort has an outcome, or a fault can be written. -/
structure Turn where
  prepare : PrepareInput
  request : RequestInput
  retry : RetryInput
  closed : Bool := false
  marked : Bool := false
  aborted : Option TaskOutcome := none
  settles : Bool := true

/-- `dispatch`, before a tool round. -/
def dispatch (settings : Settings) (task : TaskId) (turn : Turn) : Phase Unit := do
  let g ← get
  match phaseOf g.checkpoint with
  | .prepare => prepare settings task turn.prepare
  | .request => request settings task turn.request
  | .retry => retry turn.retry
  | .tools => pure ()

/-- The task has ended, was left, or stands at a tool round. -/
def Generation.over (g : Generation) : Bool := match g.stage with
  | .terminal _ | .left => true
  | _ => decide (phaseOf g.checkpoint = .tools)

/-- `settle_faulted`. -/
def faulted (turn : Turn) (message : Bytes) (g : Generation) : Generation := if turn.settles then
    { g with
      stage := .terminal { status := "faulted", error := some { message := message } } }
  else { g with stage := .left }

/-- The name that a fault gives to the phase. -/
def phaseName (checkpoint : Option Json) : Bytes :=
  (checkpoint.bind fun json => stringMember json "phase").getD "run"

/-- What `run_task_execution` does after a phase. -/
def afterPhase (turn : Turn) (before : Option Json) (outcome : Expected Unit) (g : Generation) : Generation :=
  match g.stage with
  | .terminal _ | .left => g
  | stage =>
    if turn.closed then { g with stage := .left }
    else if turn.marked then
      match turn.aborted with
      | some outcome => { g with stage := .terminal outcome }
      | none => { g with stage := .left }
    else
      match outcome, stage with
      | .error error, _ => faulted turn error.message g
      | .ok _, .waiting _ => g
      | .ok _, _ =>
        if g.checkpoint = before then
          faulted turn (ofString "Task pi.generation phase " ++ phaseName before ++
            " returned without durable progress") g
        else g

/-- A phase with its outcome and the state it leaves. -/
def outcomeOf (phase : Phase Unit) (g : Generation) : Expected Unit × Generation := match phase g with
  | .ok _ t => (.ok (), t)
  | .error error t => (.error error, t)

/-- The task at the start of an invocation; one that waited runs again. -/
def invoked (g : Generation) : Generation := { g with stage := .running, phases := g.phases + 1 }

def execute (settings : Settings) (task : TaskId) (g : Generation) (turn : Turn) : Generation := if g.over then g
  else
    let (outcome, t) := outcomeOf (dispatch settings task turn) (invoked g)
    afterPhase turn g.checkpoint outcome t

def run (settings : Settings) (task : TaskId) (turns : List Turn) : Generation :=
  turns.foldl (execute settings task) {}

end Phases

end CodingHarness.Durable
