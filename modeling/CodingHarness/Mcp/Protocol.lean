import CodingHarness.Support.JsonAccess

/-!
# MCP messages

The messages of `Protocol.hpp` and `ProtocolInternal.hpp` that the stdio client builds and the checks it
makes on the messages it reads. A frame of the wire is the compact JSON of one message and a newline;
nothing below reads that text again, so a frame is modelled by the message itself.
-/

namespace CodingHarness.Mcp

open Library Support

/-- Why a request fails. The server name and the tail of stderr are left out of the texts. The tag
`reconnecting` marks what `reconnect_transport` reports; the client hands the same error on. -/
inductive Failure where
  | closed
  | cancelled
  | timeout
  | transport (message : Bytes)
  | rejected (error : Json)
  | invalid (message : Bytes)
  | reconnecting (failure : Failure)
  deriving DecidableEq

/-- The outcome a completion is called with. -/
abbrev Outcome := Except Failure Json

/-- One message the client writes. -/
inductive Frame where
  | request (id : Nat) (method : Bytes) (params : Option Json)
  | notification (method : Bytes) (params : Option Json)
  | response (message : Json)
  deriving DecidableEq

/-- The id of a request; notifications are queued with id 0. -/
def Frame.id : Frame → Nat
  | .request id _ _ => id
  | _ => 0

def Frame.isRequest : Frame → Bool
  | .request .. => true
  | _ => false

/-- `static_cast<int>`. A value outside the range of `int` becomes its least value, as on x86. -/
def narrow (value : Double) : Int :=
  if value.isFinite ∧ -2 ^ 31 ≤ value.toInt ∧ value.toInt < 2 ^ 31 then value.toInt else -2 ^ 31

/-- `kSupportedProtocolVersions`; the first is the one the client asks for. -/
def supportedProtocolVersions : List Bytes := ["2025-11-25", "2025-06-18", "2025-03-26", "2024-11-05"].map ofString

def initializeParams (withRoots : Bool) : Json := .object (field "protocolVersion" (.string "2025-11-25") ++
    field "capabilities" (.object (if withRoots then field "roots" (.object []) else [])) ++
    field "clientInfo" (.object (field "name" (.string "pike") ++ field "version" (.string "0.1.0"))))

def initializeFrame (withRoots : Bool) (id : Nat) : Frame :=
  .request id "initialize" (some (initializeParams withRoots))

def initializedFrame : Frame := .notification "notifications/initialized" none

/-- The frame of `write_cancellation`. -/
def cancellationFrame (id : Nat) : Frame := .notification "notifications/cancelled" (some (.object
    (field "requestId" (number id) ++ field "reason" (.string "cancelled"))))

def withProgressToken (params : Option Json) (id : Nat) : Json := let given := (params.bind Json.asObject).getD []
  let token := JsonObject.insertOrAssign "progressToken" (number id)
    ((jsonObjectMember given "_meta").getD [])
  .object (JsonObject.insertOrAssign "_meta" (.object token) given)

def errorResponse (id : Json) (code : Int) (message : Bytes) : Json :=
  .object (field "jsonrpc" (.string "2.0") ++ field "id" id ++
    field "error" (.object (field "code" (number code) ++ field "message" (.string message))))

def resultResponse (id result : Json) : Json :=
  .object (field "jsonrpc" (.string "2.0") ++ field "id" id ++ field "result" result)

def validateInitializeResult (result : Json) : Except Failure Unit :=
  let missing (name : String) : Except Failure Unit :=
    .error (.invalid (ofString ("initialize result is missing " ++ name)))
  match result.asObject with
  | none => .error (.invalid "sent an invalid initialize result")
  | some object =>
    match jsonStringMember object "protocolVersion", jsonObjectMember object "capabilities",
        jsonObjectMember object "serverInfo" with
    | none, _, _ => missing "protocolVersion"
    | _, none, _ => missing "capabilities"
    | _, _, none => missing "serverInfo"
    | some version, some _, some info =>
      if (jsonStringMember info "name").isNone then
        .error (.invalid "initialize result has a serverInfo without a string name")
      else if (jsonStringMember info "version").isNone then
        .error (.invalid "initialize result has a serverInfo without a string version")
      else if (jsonMember object "instructions").isSome && (jsonStringMember object "instructions").isNone then
        .error (.invalid "initialize result has a non-string instructions")
      else if version ∉ supportedProtocolVersions then
        .error (.invalid (ofString "MCP server selected unsupported protocol version " ++ version))
      else .ok ()

def initializeInstructions (result : Json) : Option Bytes := do
  let object ← result.asObject
  let instructions ← jsonStringMember object "instructions"
  if instructions.isEmpty then none else some instructions

/-- The server capabilities a client keeps from the initialize result. -/
def initializeCapabilities (result : Json) : JsonObject Json :=
  ((result.asObject.bind (jsonObjectMember · "capabilities")).getD [])

def progressTokenOf (message : Json) : Option Double := do
  let object ← message.asObject
  let method ← jsonStringMember object "method"
  let params ← jsonObjectMember object "params"
  let token ← jsonNumberMember params "progressToken"
  let _ ← jsonNumberMember params "progress"
  if method = "notifications/progress" then some token else none

/-- The numeric `id` of a 2.0 message. -/
def responseId (message : Json) : Option Double := do
  let object ← message.asObject
  let version ← jsonStringMember object "jsonrpc"
  let id ← jsonNumberMember object "id"
  if version = "2.0" then some id else none

/-- `response_for_id`: the result of a message that answers the request, or `none`. -/
def responseForId (message : Json) (id : Nat) : Except Failure (Option Json) :=
  match message.asObject, responseId message with
  | some object, some value =>
    if narrow value ≠ id then .ok none
    else match jsonMember object "error", jsonMember object "result" with
      | some error, _ => .error (.rejected error)
      | none, none => .error (.invalid "MCP response has neither result nor error")
      | none, some result => .ok (some result)
  | _, _ => .ok none

/-- An answer names the request by a number that the narrowing maps to its id. -/
theorem narrow_of_responseForId {message result : Json} {id : Nat}
    (h : responseForId message id = .ok (some result)) :
    ∃ value, responseId message = some value ∧ narrow value = id := by
  unfold responseForId at h
  split at h
  · rename_i value _ hvalue
    split at h
    · cases h
    · rename_i hid
      exact ⟨_, hvalue, not_not.1 hid⟩
  · cases h

end CodingHarness.Mcp
