import CodingHarness.Agent.SessionEntries

/-!
# Assistant stream events

What a provider stream tells its consumer: the message as far as it is there, the parts of each content
block, and one terminal event. Errors carry the shared code, a message and a detail, and provider failures
a category for recovery.
-/

namespace CodingHarness.Ai

open Library Support Agent

/-! ## Errors -/

/-- `support::ErrorCode`. -/
inductive ErrorCode where
  | unknown
  | jsonParse
  | jsonSerialize
  | network
  | timeout
  | busy
  | cancelled
  | modelSource
  | modelValidation
  | provider
  | stream
  | auth
  | oAuth
  | tool
  | session
  | validation
  | workspace
  | process
  | resourceLimit
  | missingSessionCwd
  deriving DecidableEq

/-- `support::Error` with all its members. -/
structure Error where
  code : ErrorCode
  message : Bytes
  detail : Bytes := []
  context : Option Bytes := none
  deriving DecidableEq

/-- How a request to a provider failed. -/
inductive InferenceFailureKind where
  | unauthorized
  | rateLimited
  | contextOverflow
  | transientTransportFailure
  | invalidRequest
  | cancelled
  deriving DecidableEq

structure InferenceFailure where
  kind : InferenceFailureKind := .invalidRequest
  outputStarted : Bool := false
  suggestedBackoffMs : Option Nat := none
  providerCode : Option Bytes := none
  deriving DecidableEq

def requiresReauthentication (failure : InferenceFailure) : Bool :=
  !failure.outputStarted && failure.kind = .unauthorized

def inferenceFailureKindFromTransport : ErrorCode → InferenceFailureKind
  | .cancelled => .cancelled
  | .network => .transientTransportFailure
  | .timeout => .transientTransportFailure
  | .auth => .unauthorized
  | .oAuth => .unauthorized
  | _ => .invalidRequest

/-! ## Events -/

structure AssistantDoneEvent where
  reason : StopReason := .stop
  message : AssistantMessage
  deriving DecidableEq

structure AssistantErrorEvent where
  reason : StopReason := .error
  error : AssistantMessage
  failure : Option Error := none
  inferenceFailure : Option InferenceFailure := none
  deriving DecidableEq

/-- The events of an assistant stream. -/
inductive AssistantStreamEvent where
  | start (content : AssistantMessage)
  | textStart (contentIndex : Nat) (content : AssistantMessage)
  | textDelta (contentIndex : Nat) (delta : Bytes) (content : AssistantMessage)
  | textEnd (contentIndex : Nat) (text : Bytes) (content : AssistantMessage)
  | thinkingStart (contentIndex : Nat) (content : AssistantMessage)
  | thinkingDelta (contentIndex : Nat) (delta : Bytes) (content : AssistantMessage)
  | thinkingEnd (contentIndex : Nat) (text : Bytes) (content : AssistantMessage)
  | toolCallStart (contentIndex : Nat) (content : AssistantMessage)
  | toolCallDelta (contentIndex : Nat) (delta : Bytes) (content : AssistantMessage)
  | toolCallEnd (contentIndex : Nat) (toolCall : ToolCallContent) (content : AssistantMessage)
  | done (event : AssistantDoneEvent)
  | error (event : AssistantErrorEvent)
  deriving DecidableEq

namespace AssistantStreamEvent

/-- The member `partial` of the events that have one. -/
def observed : AssistantStreamEvent → Option AssistantMessage
  | start content => some content
  | textStart _ content => some content
  | textDelta _ _ content => some content
  | textEnd _ _ content => some content
  | thinkingStart _ content => some content
  | thinkingDelta _ _ content => some content
  | thinkingEnd _ _ content => some content
  | toolCallStart _ content => some content
  | toolCallDelta _ _ content => some content
  | toolCallEnd _ _ content => some content
  | done _ => none
  | error _ => none

/-- The events that show output of the model to the consumer. -/
def isOutput : AssistantStreamEvent → Bool
  | textDelta .. => true
  | thinkingDelta .. => true
  | toolCallStart .. => true
  | toolCallDelta .. => true
  | toolCallEnd .. => true
  | _ => false

def isTerminal : AssistantStreamEvent → Bool
  | done _ => true
  | error _ => true
  | _ => false

end AssistantStreamEvent

/-- `AssistantEventSink`: the answer to the last of the events that the sink was called with. -/
abbrev AssistantEventSink := List AssistantStreamEvent → Option Error

end CodingHarness.Ai
