import CodingHarness.Ai.StreamEvents
import Mathlib.Data.List.Infix

/-!
# Stream emitter

`StreamEmitter` stands between a provider adapter and the consumer's sink. It sends the start event,
passes events on, and turns every end of the stream into one terminal event with a scrubbed diagnostic.
The scrubbing itself, `bounded_redacted_text` with the limit for public errors, is the parameter `redact`.
-/

namespace CodingHarness.Ai

open Library Support Agent

/-! ## Diagnostics -/

/-- The loop of `replace_all`: `skip` bytes of the last match are still to be passed over. -/
def replaceAllLoop (search replacement : Bytes) : Nat → Bytes → Bytes
  | _, [] => []
  | skip + 1, _ :: rest => replaceAllLoop search replacement skip rest
  | 0, byte :: rest =>
    if search.isPrefixOf (byte :: rest) then
      replacement ++ replaceAllLoop search replacement (search.length - 1) rest
    else byte :: replaceAllLoop search replacement 0 rest

/-- `boost::algorithm::replace_all`. -/
def replaceAll (text search replacement : Bytes) : Bytes :=
  if search = [] then text else replaceAllLoop search replacement 0 text

/-- `kDefaultAbortDiagnostic`. -/
def defaultAbortDiagnostic : Bytes := "Request was aborted"

def isModelsDomainError (code : ErrorCode) : Bool :=
  code = .modelSource ∨ code = .modelValidation ∨ code = .provider ∨ code = .stream ∨ code = .auth ∨ code = .oAuth

section Diagnostics

variable (redact : Bytes → Bytes)

def safeDiagnosticText (text requestKey : Bytes) : Bytes :=
  redact (if requestKey ≠ [] ∧ requestKey ≠ "magpie" then
      replaceAll text requestKey "[REDACTED]"
    else text)

def safeError (error : Error) (requestKey : Bytes) : Error where
  code := error.code
  message := safeDiagnosticText redact error.message requestKey
  detail := safeDiagnosticText redact error.detail requestKey
  context := error.context.map fun context => safeDiagnosticText redact context requestKey

def publicErrorDiagnostic (error : Error) : Bytes :=
  redact (if error.detail ≠ [] ∧ ¬ error.detail <:+: error.message then
      error.message ++ (if error.message ≠ [] then ofString ": " else []) ++ error.detail
    else error.message)

end Diagnostics

def ensureToolArgumentsAllocated (assistant : AssistantMessage) : AssistantMessage := { assistant with
    content := assistant.content.map fun
      | .toolCall call =>
        if call.arguments.isNone then
          .toolCall { call with
            arguments := some ⟨.object [], Json.wf_empty⟩
            argumentsValid := true
            argumentError := none }
        else .toolCall call
      | content => content }

/-! ## State -/

/-- `StreamEmitter`, with the events that its sink was called with. -/
structure StreamEmitter where
  assistant : AssistantMessage
  sink : Option AssistantEventSink
  requestKey : Bytes := []
  started : Bool := false
  outputStarted : Bool := false
  terminated : Bool := false
  sinkFailure : Option Error := none
  sent : List AssistantStreamEvent := []

namespace StreamEmitter

def deliver (s : StreamEmitter) (event : AssistantStreamEvent) : Except Error Unit × StreamEmitter :=
  match s.sink with
  | none => (.ok (), s)
  | some sink =>
    let s := { s with sent := s.sent ++ [event] }
    match sink s.sent with
    | none => (.ok (), s)
    | some failure => (.error failure, { s with sinkFailure := some failure })

def emitStart (s : StreamEmitter) : Except Error Unit × StreamEmitter := if s.started then (.ok (), s)
  else
    let s := { s with started := true }
    match s.sinkFailure with
    | some failure => (.error failure, s)
    | none => s.deliver (.start s.assistant)

/-- The end of a finalizer: the sink's failure, or the message. -/
def deliverTerminal (s : StreamEmitter) (event : AssistantStreamEvent) :
    Except Error AssistantMessage × StreamEmitter :=
  match s.deliver event with
  | (.error failure, s) => (.error failure, s)
  | (.ok (), s) => (.ok s.assistant, s)

section Finalizers

variable (redact : Bytes → Bytes)

/-- The event of `finalize_error_event`; what it leaves unset is inherited from the message observed so
far. -/
def terminalError (s : StreamEmitter) (terminal : AssistantErrorEvent) : AssistantErrorEvent :=
  let error := terminal.error
  let assistant := ensureToolArgumentsAllocated { error with
    content := if error.content = [] then s.assistant.content else error.content
    api := if error.api = [] then s.assistant.api else error.api
    provider := if error.provider = [] then s.assistant.provider else error.provider
    model := if error.model = [] then s.assistant.model else error.model
    timestamp := if error.timestamp = 0 then s.assistant.timestamp else error.timestamp }
  let aborted : Bool := terminal.reason = .aborted ∨ assistant.stopReason = .aborted ∨
    terminal.failure.any (·.code = .cancelled) ∨ terminal.inferenceFailure.any (·.kind = .cancelled)
  let fallback := if aborted then defaultAbortDiagnostic else "Provider stream failed"
  let failure := match terminal.failure with
    | some failure => safeError redact failure s.requestKey
    | none =>
      { code := if aborted then .cancelled else .stream, message := assistant.errorMessage.getD fallback }
  let inferenceFailure := terminal.inferenceFailure.getD
    { kind := inferenceFailureKindFromTransport failure.code, outputStarted := s.outputStarted }
  let errorMessage := match assistant.errorMessage with
    | some message => if message ≠ [] then message else diagnosticOr failure fallback
    | none => diagnosticOr failure fallback
  let (errorMessage, failureMessage) := if errorMessage ≠ [] then
      (safeDiagnosticText redact errorMessage s.requestKey, safeDiagnosticText redact errorMessage s.requestKey)
    else (errorMessage, publicErrorDiagnostic redact failure)
  let failureCode := if aborted then .cancelled
    else if isModelsDomainError failure.code then failure.code
    else if requiresReauthentication inferenceFailure then .auth
    else .stream
  { reason := if aborted then .aborted else .error
    error := { assistant with
      errorMessage := some errorMessage
      stopReason := if aborted then .aborted else .error }
    failure := some { failure with code := failureCode, message := failureMessage }
    inferenceFailure := some { inferenceFailure with
      outputStarted := s.outputStarted
      kind := if aborted then .cancelled else inferenceFailure.kind } }
where
  /-- The diagnostic of a failure, or a fixed text. -/
  diagnosticOr (failure : Error) (fallback : Bytes) : Bytes := let diagnostic :=
      if failure.message ≠ [] ∨ failure.detail ≠ [] then publicErrorDiagnostic redact failure else []
    if diagnostic ≠ [] then diagnostic else fallback

def finalizeErrorEvent (s : StreamEmitter) (terminal : AssistantErrorEvent) :
    Except Error AssistantMessage × StreamEmitter :=
  match s.sinkFailure with
  | some failure => (.error failure, s)
  | none =>
    if s.terminated then (.ok s.assistant, s)
    else
      let event := s.terminalError redact terminal
      { s with terminated := true, assistant := event.error }.deliverTerminal (.error event)

def errorEventFromDone (terminal : AssistantDoneEvent) : AssistantErrorEvent where
  reason := terminal.reason
  error := terminal.message
  failure := some { code := .stream, message := [] }

/-- The message of a done event as `finalize_success` sends it. -/
def terminalMessage (s : StreamEmitter) (terminal : AssistantDoneEvent) : AssistantMessage :=
  { ensureToolArgumentsAllocated terminal.message with
    stopReason := terminal.reason
    errorMessage := terminal.message.errorMessage.map fun message =>
      safeDiagnosticText redact message s.requestKey }

/-- `finalize_success` with a done event. -/
def finalizeDone (s : StreamEmitter) (terminal : AssistantDoneEvent) :
    Except Error AssistantMessage × StreamEmitter :=
  match s.sinkFailure with
  | some failure => (.error failure, s)
  | none =>
    if s.terminated then (.ok s.assistant, s)
    else if terminal.reason = .error ∨ terminal.reason = .aborted ∨ terminal.message.stopReason = .error ∨
        terminal.message.stopReason = .aborted then
      s.finalizeErrorEvent redact (errorEventFromDone terminal)
    else
      let message := s.terminalMessage redact terminal
      { s with terminated := true, assistant := message }.deliverTerminal (.done ⟨terminal.reason, message⟩)

/-- `finalize_success` with a reason; the time is read from the clock. -/
def finalizeSuccess (s : StreamEmitter) (reason : StopReason) (now : Int) :
    Except Error AssistantMessage × StreamEmitter :=
  s.finalizeDone redact ⟨reason, { s.assistant with stopReason := reason, timestamp := now }⟩

def finalizeFailure (s : StreamEmitter) (failure : Error) (inferenceFailure : Option InferenceFailure)
    (reason : StopReason) : Except Error AssistantMessage × StreamEmitter :=
  s.finalizeErrorEvent redact ⟨reason, s.assistant, some failure, inferenceFailure⟩

def finalizeCancelled (s : StreamEmitter) : Except Error AssistantMessage × StreamEmitter :=
  s.finalizeErrorEvent redact {
    reason := .aborted
    error := { s.assistant with stopReason := .aborted }
    failure := some { code := .cancelled, message := defaultAbortDiagnostic }
    inferenceFailure := some { kind := .cancelled, outputStarted := s.outputStarted } }

def emitEvent (s : StreamEmitter) (event : AssistantStreamEvent) : Except Error Unit × StreamEmitter :=
  match s.sinkFailure with
  | some failure => (.error failure, s)
  | none =>
    match event with
    | .done terminal => (s.finalizeDone redact terminal).map (·.map fun _ => ()) id
    | .error terminal => (s.finalizeErrorEvent redact terminal).map (·.map fun _ => ()) id
    | event =>
      if s.terminated then (.ok (), s)
      else
        { s with
          assistant := event.observed.getD s.assistant
          outputStarted := s.outputStarted || event.isOutput }.deliver event

/-! ## Calls -/

/-- The calls of an adapter. -/
inductive Call where
  | emitStart
  | emitEvent (event : AssistantStreamEvent)
  | finalizeDone (terminal : AssistantDoneEvent)
  | finalizeSuccess (reason : StopReason) (now : Int)
  | finalizeErrorEvent (terminal : AssistantErrorEvent)
  | finalizeFailure (failure : Error) (inferenceFailure : Option InferenceFailure) (reason : StopReason)
  | finalizeCancelled

/-- What a call returns: an error, a message for a finalizer, nothing for the others. -/
abbrev Answer := Except Error (Option AssistantMessage)

def call (s : StreamEmitter) : Call → Answer × StreamEmitter
  | .emitStart => s.emitStart.map (·.map fun _ => none) id
  | .emitEvent event => (s.emitEvent redact event).map (·.map fun _ => none) id
  | .finalizeDone terminal => (s.finalizeDone redact terminal).map (·.map some) id
  | .finalizeSuccess reason now => (s.finalizeSuccess redact reason now).map (·.map some) id
  | .finalizeErrorEvent terminal => (s.finalizeErrorEvent redact terminal).map (·.map some) id
  | .finalizeFailure failure inferenceFailure reason =>
    (s.finalizeFailure redact failure inferenceFailure reason).map (·.map some) id
  | .finalizeCancelled => (s.finalizeCancelled redact).map (·.map some) id

def run (s : StreamEmitter) (calls : List Call) : StreamEmitter := calls.foldl (fun s c => (s.call redact c).2) s

end Finalizers

end StreamEmitter

end CodingHarness.Ai
