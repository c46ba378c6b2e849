import CodingHarness.Ai.MessageNormalization
import CodingHarness.Ai.StreamEvents

/-!
# Chat Completions events

`CompletionsEventProcessor` turns the chunks of a Chat Completions stream into content blocks of one assistant
message, and tells a sink what it adds. A call of it ends with a value, with an error, by an exception, or not
at all; what it changed before stays. `steps` is not in the program: it lists the actions on the blocks with the
state that each of them found.
-/

namespace CodingHarness.Ai

open Library Support Agent

/-! ## State -/

/-- A tool call of the stream and its block. -/
structure ToolSlot where
  key : Nat
  contentIndex : Nat
  streamIndex : Option Nat := none
  startEmitted : Bool := false
  deriving DecidableEq

/-- `CompletionsEventProcessor::Impl`, with the message it writes and the events its sink was called with. -/
structure ProcessorCore where
  model : Model
  toolSlots : OrdMap Nat ToolSlot := .empty
  toolIds : OrdMap Bytes Nat := .empty
  nextToolKey : Nat := 0
  textIndex : Option Nat := none
  thinkingIndex : Option Nat := none
  reasoningDetails : List Json := []
  sawFinishReason : Bool := false
  finishPending : Bool := false
  blocksFinished : Bool := false
  assistant : AssistantMessage
  sink : Option AssistantEventSink
  sent : List AssistantStreamEvent := []

/-- The actions on content blocks. A tool call fragment has an index, an id, and a function or not. -/
inductive BlockAction where
  | text (delta : Bytes)
  | thinking (delta : Bytes)
  | tool (index : Option Nat) (id : Option Bytes) (function : Bool)
  | details
  | finish
  deriving DecidableEq

/-- An action on the state it found. -/
structure BlockStep where
  action : BlockAction
  before : ProcessorCore

/-- The processor and the actions so far. -/
structure Processor extends ProcessorCore where
  steps : List BlockStep := []

/-- How a call ends that does not return a value: with an error, by an exception, or never. -/
inductive Fault where
  | failed (error : Error)
  | thrown
  | hang
  deriving DecidableEq

abbrev ProcessorAction := EStateM Fault Processor

/-- What the processor calls elsewhere: `parse_streaming_json`, `calculate_cost` for its model,
`provider_backoff_hint_ms` and `bounded_provider_error_detail`. -/
structure ProcessorServices where
  parseStreamingJson : Bytes → JsonValue
  calculateCost : Usage → UsageCost
  providerBackoffHintMs : JsonObject Json → Option Nat
  boundedProviderErrorDetail : Bytes → Bytes

def makeStreamError (services : ProcessorServices) (message detail : Bytes) : Error where
  code := .stream
  message := services.boundedProviderErrorDetail message
  detail := services.boundedProviderErrorDetail detail

namespace ProcessorCore

/-- The message with one more block. -/
def pushBlock (s : ProcessorCore) (block : AssistantContent) : AssistantMessage :=
  { s.assistant with content := s.assistant.content ++ [block] }

/-- The message with another block at an index. -/
def setBlock (s : ProcessorCore) (index : Nat) (block : AssistantContent) : AssistantMessage :=
  { s.assistant with content := s.assistant.content.set index block }

end ProcessorCore

namespace Processor

/-! ## Events and blocks -/

/-- `providers::emit`. -/
def emit (event : AssistantStreamEvent) : ProcessorAction Unit := fun s =>
  match s.sink with
  | none => .ok () s
  | some sink =>
    let s := { s with sent := s.sent ++ [event] }
    match sink s.sent with
    | none => .ok () s
    | some error => .error (.failed error) s

/-- Emit an event that carries the message. -/
def emitPartial (event : AssistantMessage → AssistantStreamEvent) : ProcessorAction Unit := do
  let s ← get
  emit (event s.assistant)

def record (action : BlockAction) : ProcessorAction Unit :=
  modify fun s => { s with steps := s.steps ++ [⟨action, s.toProcessorCore⟩] }

/-- `std::get` of the block at an index. -/
def readBlock {α : Type} (index : Nat) (read : AssistantContent → Option α) : ProcessorAction α := fun s =>
  match s.assistant.content[index]?.bind read with
  | some value => .ok value s
  | none => .error .thrown s

/-- `std::get` of the block at an index, and a change of it. -/
def editBlock (index : Nat) (edit : AssistantContent → Option AssistantContent) : ProcessorAction Unit := fun s =>
  match s.assistant.content[index]?.bind edit with
  | some block => .ok () { s with assistant := s.setBlock index block }
  | none => .error .thrown s

def appendText (delta : Bytes) : AssistantContent → Option AssistantContent
  | .text block => some (.text { block with text := block.text ++ delta })
  | _ => none

def appendThinking (delta : Bytes) : AssistantContent → Option AssistantContent
  | .thinking block => some (.thinking { block with thinking := block.thinking ++ delta })
  | _ => none

def thinkingText : AssistantContent → Option Bytes
  | .thinking block => some block.thinking
  | _ => none

/-- A text delta goes to the text block; the first one opens it. -/
def emitTextDelta (delta : Bytes) : ProcessorAction Unit := do
  if delta = [] then pure ()
  else
    record (.text delta)
    let s ← get
    let firstDelta := s.textIndex.isNone
    let index := s.textIndex.getD s.assistant.content.length
    if firstDelta then
      set { s with textIndex := some index, assistant := s.pushBlock (.text ⟨[], none⟩) }
    editBlock index (appendText delta)
    if firstDelta then emitPartial (.textStart index)
    emitPartial (.textDelta index delta)

/-- A thinking delta; the start event is sent as long as the block has no text. -/
def emitThinkingDelta (delta signature : Bytes) : ProcessorAction Unit := do
  if delta = [] then pure ()
  else
    record (.thinking delta)
    let s ← get
    let index := s.thinkingIndex.getD s.assistant.content.length
    if s.thinkingIndex.isNone then
      set { s with thinkingIndex := some index, assistant := s.pushBlock (.thinking ⟨[], some signature, false⟩) }
    let thinking ← readBlock index thinkingText
    editBlock index (appendThinking delta)
    if thinking = [] then emitPartial (.thinkingStart index)
    emitPartial (.thinkingDelta index delta)

/-! ## Tool calls -/

end Processor

namespace ProcessorCore

/-- The slot of a fragment, by its index and then by its id; `slots.at` throws for an id without a slot. -/
def findTool (s : ProcessorCore) (index : Option Nat) (id : Option Bytes) : Except Fault (Option ToolSlot) :=
  match index.bind s.toolSlots.find with
  | some slot => .ok (some slot)
  | none =>
    match id.bind s.toolIds.find with
    | none => .ok none
    | some key =>
      match s.toolSlots.find key with
      | some slot => .ok (some slot)
      | none => .error .thrown

/-- Keep the key of an id, unless the id is empty or has one. -/
def rememberId (ids : OrdMap Bytes Nat) (id : Option Bytes) (key : Nat) : OrdMap Bytes Nat := match id with
  | some id => if id = [] then ids else ids.emplace id key
  | none => ids

/-- A new slot and its tool call. The loop of the source does not change its key, so it does not end when the
key is taken. -/
def createTool (s : ProcessorCore) (index : Option Nat) (id : Option Bytes) :
    Except Fault (ToolSlot × ProcessorCore) :=
  let key := index.getD s.nextToolKey
  if s.toolSlots.contains key then .error .hang
  else
    let slot : ToolSlot := { key := key, contentIndex := s.assistant.content.length, streamIndex := index }
    .ok (slot, { s with
      nextToolKey := if index.isNone then s.nextToolKey + 1 else s.nextToolKey
      assistant := s.pushBlock (.toolCall {
        id := id.getD [], name := [], arguments := some ⟨.object [], Json.wf_empty⟩ })
      toolSlots := s.toolSlots.insert key slot
      toolIds := rememberId s.toolIds id key })

def findOrCreateTool (s : ProcessorCore) (index : Option Nat) (id : Option Bytes) :
    Except Fault (ToolSlot × ProcessorCore) := do
  let (slot, s) ←
    match ← s.findTool index id with
    | some slot => pure (slot, s)
    | none => s.createTool index id
  let slot := { slot with streamIndex := slot.streamIndex.or index }
  pure (slot, { s with
    toolSlots := s.toolSlots.insert slot.key slot
    toolIds := rememberId s.toolIds id slot.key })

end ProcessorCore

namespace Processor

/-- The slot of a fragment, found or created. -/
def routeTool (index : Option Nat) (id : Option Bytes) (function : Bool) : ProcessorAction ToolSlot := do
  record (.tool index id function)
  let s ← get
  match s.findOrCreateTool index id with
  | .ok (slot, core) =>
    set { s with toProcessorCore := core }
    pure slot
  | .error fault => throw fault

/-- The name and the arguments of a fragment, added to its tool call. -/
def appendCall (services : ProcessorServices) (name : Option Bytes) (delta : Bytes) :
    AssistantContent → Option AssistantContent
  | .toolCall call =>
    some (.toolCall { call with
      name := if call.name = [] then name.getD [] else call.name
      rawArguments := call.rawArguments ++ delta
      arguments := some (services.parseStreamingJson (call.rawArguments ++ delta))
      argumentsValid := true
      argumentError := none })
  | _ => none

/-- `std::get<ToolCallContent>`. -/
def toolCallOf : AssistantContent → Option ToolCallContent
  | .toolCall call => some call
  | _ => none

/-- One entry of `tool_calls` in `process_tool_calls`. -/
def processToolCall (services : ProcessorServices) (value : Json) : ProcessorAction Unit := do
  match value.asObject with
  | none =>
    throw (.failed (makeStreamError services "Malformed OpenAI Chat Completions tool call"
      "tool_calls entry must be an object"))
  | some toolCall =>
    let function := jsonObjectMember toolCall "function"
    let slot ← routeTool ((jsonIntegerMember toolCall "index").map Int.toNat) (jsonStringMember toolCall "id")
      function.isSome
    let _ ← readBlock slot.contentIndex toolCallOf
    match function with
    | none => pure ()
    | some function =>
      let delta := (jsonStringMember function "arguments").getD []
      editBlock slot.contentIndex (appendCall services (jsonStringMember function "name") delta)
      if !slot.startEmitted then
        emitPartial (.toolCallStart slot.contentIndex)
        modify fun s => { s with toolSlots := s.toolSlots.insert slot.key { slot with startEmitted := true } }
      emitPartial (.toolCallDelta slot.contentIndex delta)

def processToolCalls (services : ProcessorServices) (delta : JsonObject Json) : ProcessorAction Unit :=
  match jsonArrayMember delta "tool_calls" with
  | none => pure ()
  | some calls => calls.forM (processToolCall services)

/-! ## Reasoning details -/

/-- The details with one more, or with the last one continued, in `append_reasoning_detail`. -/
def mergeDetail (details : List Json) (type : Bytes) (detail : JsonObject Json) : List Json :=
  match details.getLast?.bind Json.asObject with
  | some last =>
    if jsonStringMember last "type" = some type ∧ type ≠ "reasoning.encrypted" then
      let field := if type = "reasoning.text" then "text" else "summary"
      let joined := match jsonStringMember detail field with
        | some next =>
          JsonObject.insertOrAssign (ofString field) (.string ((jsonStringMember last field).getD [] ++ next)) last
        | none => last
      let merged := detail.foldl (fun (members : JsonObject Json) member => members.emplace member.1 member.2) joined
      details.dropLast ++ [.object merged]
    else details ++ [.object detail]
  | none => details ++ [.object detail]

def signThinking (details : List Json) : AssistantContent → Option AssistantContent
  | .thinking block => some (.thinking { block with thinkingSignature := some (writeJson (.array details)) })
  | _ => none

def appendReasoningDetail (detail : JsonObject Json) : ProcessorAction Unit := do
  match jsonStringMember detail "type" with
  | none => pure ()
  | some type =>
    if type ≠ "reasoning.text" ∧ type ≠ "reasoning.summary" ∧ type ≠ "reasoning.encrypted" then pure ()
    else
      let s ← get
      let details := mergeDetail s.reasoningDetails type detail
      set { s with reasoningDetails := details }
      match s.thinkingIndex with
      | none => pure ()
      | some index => editBlock index (signThinking details)

/-- The part of `process` that reads `reasoning_details`. -/
def processDetails (details : List Json) : ProcessorAction Unit := do
  record .details
  let s ← get
  if s.thinkingIndex.isNone then
    let index := s.assistant.content.length
    set { s with thinkingIndex := some index, assistant := s.pushBlock (.thinking ⟨[], none, false⟩) }
    emitPartial (.thinkingStart index)
  details.forM fun detail =>
    match detail.asObject with
    | some object => appendReasoningDetail object
    | none => pure ()

/-! ## End of the blocks -/

def finalizeToolArguments (services : ProcessorServices) (call : ToolCallContent) : ToolCallContent := { call with
    arguments := some (services.parseStreamingJson call.rawArguments)
    argumentsValid := true
    argumentError := none }

/-- One content index in `finish_blocks`. -/
def finishBlock (services : ProcessorServices) (index : Nat) : ProcessorAction Unit := do
  let s ← get
  match s.assistant.content[index]? with
  | none => pure ()
  | some (.text block) => emitPartial (.textEnd index block.text)
  | some (.thinking block) => emitPartial (.thinkingEnd index block.thinking)
  | some (.toolCall call) =>
    if s.toolSlots.values.any fun slot => slot.contentIndex = index then
      let call := finalizeToolArguments services call
      set { s with assistant := s.setBlock index (.toolCall call) }
      emitPartial (.toolCallEnd index call)

def finishBlocks (services : ProcessorServices) : ProcessorAction Unit := do
  record .finish
  let s ← get
  (List.range s.assistant.content.length).forM (finishBlock services)
  modify fun s => { s with toolSlots := .empty }

/-- `finish_blocks`, once. -/
def finishPendingBlocks (services : ProcessorServices) : ProcessorAction Unit := do
  finishBlocks services
  modify fun s => { s with blocksFinished := true, finishPending := false }

/-! ## Chunks -/

structure CompletionsProviderError where
  code : Option Bytes
  message : Option Bytes
  suggestedBackoffMs : Option Nat
  deriving DecidableEq

structure CompletionsProcessOutcome where
  providerError : Option CompletionsProviderError := none
  deriving DecidableEq

def providerError (services : ProcessorServices) (event : JsonObject Json) : CompletionsProviderError :=
  let nested := jsonObjectMember event "error"
  let member (name : String) := (jsonStringMember event name).or (nested.bind fun nested => jsonStringMember nested name)
  { code := member "code"
    message := member "message"
    suggestedBackoffMs := services.providerBackoffHintMs event }

/-- `normalize_completions_usage` of the fields that `apply_usage` reads. -/
def normalizeCompletionsUsage (services : ProcessorServices) (usage : JsonObject Json) : Usage :=
  let inputDetails := jsonObjectMember usage "prompt_tokens_details"
  let promptTokens := (jsonIntegerMember usage "prompt_tokens").getD 0
  let completionTokens := (jsonIntegerMember usage "completion_tokens").getD 0
  let cachedTokens := match inputDetails with
    | some details => jsonIntegerMember details "cached_tokens"
    | none => jsonIntegerMember usage "cached_tokens"
  let cacheRead := cachedTokens.getD ((jsonIntegerMember usage "prompt_cache_hit_tokens").getD 0)
  let cacheWrite := (inputDetails.bind fun details => jsonIntegerMember details "cache_write_tokens").getD 0
  let reasoning := (jsonObjectMember usage "completion_tokens_details").bind fun details =>
    jsonIntegerMember details "reasoning_tokens"
  let input := max 0 (promptTokens - cacheRead - cacheWrite)
  let zero : Double := .zero false
  let counted : Usage := ⟨input, completionTokens, cacheRead, cacheWrite, none, some (reasoning.getD 0),
    input + completionTokens + cacheRead + cacheWrite, ⟨zero, zero, zero, zero, zero⟩⟩
  { counted with cost := services.calculateCost counted }

def applyUsage (services : ProcessorServices) (usage : Option (JsonObject Json)) : ProcessorAction Unit :=
  match usage with
  | none => pure ()
  | some usage =>
    modify fun s => { s with assistant := { s.assistant with usage := normalizeCompletionsUsage services usage } }

def setFinishReason (finishReason : Bytes) : ProcessorAction Unit := if finishReason = [] then pure ()
  else
    modify fun s =>
      let assistant := { s.assistant with rawStopReason := some finishReason }
      { s with
        sawFinishReason := true
        assistant := if finishReason = "stop" ∨ finishReason = "end" then { assistant with stopReason := .stop }
          else if finishReason = "length" then { assistant with stopReason := .length }
          else if finishReason = "function_call" ∨ finishReason = "tool_calls" then
            { assistant with stopReason := .toolUse }
          else { assistant with
            stopReason := .error
            errorMessage := some (ofString "Provider finish_reason: " ++ finishReason) } }

/-- The id and the model of the response in `process`. -/
def noteResponse (event : JsonObject Json) : ProcessorAction Unit := modify fun s =>
    let id := (jsonStringMember event "id").filter fun id => id ≠ []
    let model := (jsonStringMember event "model").filter fun model => model ≠ [] ∧ model ≠ s.model.id
    { s with assistant := { s.assistant with
      responseId := s.assistant.responseId.or id
      responseModel := s.assistant.responseModel.or model } }

/-- The first reasoning field with a text, and the text. -/
def reasoningDelta (delta : JsonObject Json) : Option (Bytes × Bytes) :=
  ["reasoning_content", "reasoning", "reasoning_text"].findSome? fun field =>
    ((jsonStringMember delta field).filter fun text => text ≠ []).map fun text => (text, ofString field)

/-- The delta of a choice in `process`. -/
def processDelta (services : ProcessorServices) (delta : JsonObject Json) : ProcessorAction Unit := do
  (jsonStringMember delta "content").forM emitTextDelta
  (reasoningDelta delta).forM fun (text, field) => emitThinkingDelta text field
  processToolCalls services delta
  (jsonArrayMember delta "reasoning_details").forM processDetails

/-- The finish reason of a choice in `process`. -/
def processFinish (services : ProcessorServices) (withUsage : Bool) (finish : Bytes) : ProcessorAction Unit := do
  setFinishReason finish
  modify fun s => { s with finishPending := true }
  let s ← get
  if withUsage ∧ !s.blocksFinished then finishPendingBlocks services

/-- A chunk without choices in `process`. -/
def processUsage (services : ProcessorServices) (withUsage : Bool) : ProcessorAction Unit := do
  let s ← get
  if withUsage ∧ s.finishPending ∧ !s.blocksFinished then finishPendingBlocks services

/-- A choice in `process`. -/
def processChoice (services : ProcessorServices) (withUsage : Bool) (choice : JsonObject Json) :
    ProcessorAction Unit := do
  applyUsage services (if withUsage then none else jsonObjectMember choice "usage")
  (jsonObjectMember choice "delta").forM (processDelta services)
  (jsonStringMember choice "finish_reason").forM (processFinish services withUsage)

/-- The choices of a chunk in `process`. -/
def processChoices (services : ProcessorServices) (withUsage : Bool) : Option (List Json) → ProcessorAction Unit
  | none => processUsage services withUsage
  | some [] => processUsage services withUsage
  | some (first :: _) =>
    match first.asObject with
    | none =>
      throw (.failed (makeStreamError services "Malformed OpenAI Chat Completions chunk"
        "choices[0] must be an object"))
    | some choice => processChoice services withUsage choice

def process (services : ProcessorServices) (event : JsonObject Json) : ProcessorAction CompletionsProcessOutcome :=
  if JsonObject.contains event "error" then pure { providerError := some (providerError services event) }
  else do
    noteResponse event
    applyUsage services (jsonObjectMember event "usage")
    processChoices services (JsonObject.contains event "usage") (jsonArrayMember event "choices")
    pure {}

def finish (services : ProcessorServices) : ProcessorAction Unit := do
  let s ← get
  if s.finishPending ∧ !s.blocksFinished then finishPendingBlocks services
  let s ← get
  match s.thinkingIndex with
  | some index => if s.reasoningDetails ≠ [] then editBlock index (signThinking s.reasoningDetails)
  | none => pure ()
  let s ← get
  if !s.sawFinishReason then
    throw (.failed (makeStreamError services "Stream ended without finish_reason" []))
  if s.assistant.stopReason = .error then
    throw (.failed (makeStreamError services
      (s.assistant.errorMessage.getD "Provider returned an error stop reason") []))

end Processor

end CodingHarness.Ai
