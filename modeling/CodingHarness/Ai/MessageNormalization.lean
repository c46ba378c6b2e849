import CodingHarness.Agent.SessionEntries

/-!
# Normalized provider history

`normalize_history` rewrites a message history for a provider: extended messages become user messages,
images and thinking are downgraded for models that cannot take them, assistant messages that ended in an
error disappear, and a tool call without a result gets a synthetic one. The calls that wait for a result
and the ids of the results seen since are carried from message to message.
-/

namespace CodingHarness.Ai

open Library Support Agent

/-! ## Texts -/

def utf8SequenceLength (lead : UInt8) : Nat := if lead ≤ 0x7F then 1
  else if 0xC2 ≤ lead ∧ lead ≤ 0xDF then 2
  else if 0xE0 ≤ lead ∧ lead ≤ 0xEF then 3
  else if 0xF0 ≤ lead ∧ lead ≤ 0xF4 then 4
  else 0

/-- `utf8_valid_sequence` for the sequence at the front of a text. -/
def utf8ValidSequence (text : Bytes) (length : Nat) : Bool := let lead := text.headD 0
  let second := text.getD 1 0
  length ≤ text.length &&
    ((text.take length).tail.all fun continuation => 0x80 ≤ continuation && continuation ≤ 0xBF) &&
    (if length = 3 then !((lead == 0xE0 && second < 0xA0) || (lead == 0xED && 0xA0 ≤ second))
    else if length = 4 then !((lead == 0xF0 && second < 0x90) || (lead == 0xF4 && 0x90 ≤ second))
    else true)

/-- `utf8_decode_code_point` for the sequence at the front of a text. -/
def utf8DecodeCodePoint (text : Bytes) (length : Nat) : Nat := let lead := (text.headD 0).toNat
  if length = 1 then lead
  else
    (text.take length).tail.foldl (fun result byte => result * 64 + byte.toNat % 64)
      (lead % (if length = 2 then 32 else if length = 3 then 16 else 8))

/-- The white space of `blank`. -/
def isBlankCodePoint (codePoint : Nat) : Bool :=
  (0x0009 ≤ codePoint ∧ codePoint ≤ 0x000D) ∨ codePoint = 0x0020 ∨ codePoint = 0x00A0 ∨ codePoint = 0x1680 ∨
    (0x2000 ≤ codePoint ∧ codePoint ≤ 0x200A) ∨ codePoint = 0x2028 ∨ codePoint = 0x2029 ∨
    codePoint = 0x202F ∨ codePoint = 0x205F ∨ codePoint = 0x3000 ∨ codePoint = 0xFEFF

/-- The loop of `blank`. -/
def blankLoop : Nat → Bytes → Bool
  | 0, _ => true
  | _ + 1, [] => true
  | fuel + 1, text =>
    let length := utf8SequenceLength (text.headD 0)
    if length = 0 ∨ !utf8ValidSequence text length then false
    else if !isBlankCodePoint (utf8DecodeCodePoint text length) then false
    else blankLoop fuel (text.drop length)

def blank (text : Bytes) : Bool := blankLoop text.length text

/-! ## Models -/

inductive ModelInput where
  | text
  | image
  deriving DecidableEq

/-- `Model`: the members that the normalization reads. -/
structure Model where
  id : Bytes
  api : Bytes
  provider : Bytes
  input : List ModelInput
  deriving DecidableEq

def supportsImages (model : Model) : Bool := model.input.contains .image

/-! ## Conversions -/

def textContent (text : Bytes) : Content := .text ⟨text, none⟩

def userTextMessage (text : Bytes) (timestamp : Int) : UserMessage := ⟨.blocks [textContent text], timestamp⟩

def bashExecutionToUserMessage (message : BashExecutionMessage) : UserMessage :=
  let command := ofString "Ran \x60" ++ message.command ++ ofString "\x60\n"
  let output := if message.output = [] then ofString "(no output)"
    else ofString "\x60\x60\x60\n" ++ message.output ++ ofString "\n\x60\x60\x60"
  let cancelled := if message.cancelled then ofString "\n\n(command cancelled)" else []
  let exited := match message.exitCode with
    | some code => if code ≠ 0 then ofString "\n\nCommand exited with code " ++ intText code else []
    | none => []
  let truncated := match message.fullOutputPath with
    | some path =>
      if message.truncated then ofString "\n\n[Output truncated. Full output: " ++ path ++ ofString "]"
      else []
    | none => []
  userTextMessage (command ++ output ++ cancelled ++ exited ++ truncated) message.timestamp

def branchSummaryToUserMessage (message : BranchSummaryMessage) : UserMessage :=
  userTextMessage (ofString ("The following is a summary of a branch that this conversation came back from:" ++
    "\n\n<summary>\n") ++ message.summary ++ ofString "</summary>") message.timestamp

def compactionSummaryToUserMessage (message : CompactionSummaryMessage) : UserMessage :=
  userTextMessage (ofString ("The conversation history before this point was compacted into the following " ++
    "summary:\n\n<summary>\n") ++ message.summary ++ ofString "\n</summary>") message.timestamp

def customMessageToUserMessage (message : CustomMessage) : UserMessage :=
  ⟨.blocks message.content, message.timestamp⟩

def excludedFromProviderContext : Message → Bool
  | .bashExecution message => message.excludeFromContext
  | _ => false

def extendedMessageToUserMessage (message : Message) : Option UserMessage :=
  if excludedFromProviderContext message then none
  else
    match message with
    | .bashExecution bash => some (bashExecutionToUserMessage bash)
    | .custom custom => some (customMessageToUserMessage custom)
    | .branchSummary branch => some (branchSummaryToUserMessage branch)
    | .compactionSummary compaction => some (compactionSummaryToUserMessage compaction)
    | _ => none

/-- `kUserImagePlaceholder`. -/
def userImagePlaceholder : Bytes := "(image omitted: model does not support images)"

/-- `kToolImagePlaceholder`. -/
def toolImagePlaceholder : Bytes := "(tool image omitted: model does not support images)"

/-- The loop of `downgrade_images`; the flag says that the block before is a placeholder. -/
def downgradeLoop (placeholder : Bytes) : Bool → List Content → List Content
  | _, [] => []
  | previous, .image _ :: rest =>
    if previous then downgradeLoop placeholder true rest
    else textContent placeholder :: downgradeLoop placeholder true rest
  | _, .text block :: rest =>
    .text block :: downgradeLoop placeholder (decide (block.text = placeholder)) rest
  | _, .thinking block :: rest => .thinking block :: downgradeLoop placeholder false rest

def downgradeImages (content : List Content) (placeholder : Bytes) (imageCapable : Bool) : List Content :=
  if imageCapable then content else downgradeLoop placeholder false content

/-- The assistant message comes from the model that will read it. -/
def sameModel (model : Model) (message : AssistantMessage) : Bool :=
  message.provider = model.provider ∧ message.api = model.api ∧ message.model = model.id

/-- One block of an assistant message in `normalize_history`. -/
def normalizeBlock (same : Bool) : AssistantContent → Option AssistantContent
  | .thinking block =>
    if block.redacted then (if same then some (.thinking block) else none)
    else if same ∧ block.thinkingSignature.any (· ≠ []) then some (.thinking block)
    else if blank block.thinking then none
    else if same then some (.thinking block)
    else some (.text ⟨block.thinking, none⟩)
  | .text block => some (.text (if same then block else { block with textSignature := none }))
  | .toolCall call => some (.toolCall (if same then call else { call with thoughtSignature := none }))

/-- An assistant message in `normalize_history`. -/
def normalizeAssistant (model : Model) (message : AssistantMessage) : AssistantMessage :=
  { message with content := message.content.filterMap (normalizeBlock (sameModel model message)) }

/-- A tool result in `normalize_history`. -/
def normalizeToolResult (model : Model) (message : ToolResultMessage) : ToolResultMessage :=
  { message with content := downgradeImages message.content toolImagePlaceholder (supportsImages model) }

/-- A user message in `normalize_history`; the string alternative passes through. -/
def normalizeUser (model : Model) (message : UserMessage) : UserMessage := match message.content with
  | .string _ => message
  | .blocks content =>
    { message with content := .blocks (downgradeImages content userImagePlaceholder (supportsImages model)) }

/-! ## History -/

/-- The tool calls of an assistant message. -/
def toolCalls (message : AssistantMessage) : List ToolCallContent := message.content.filterMap fun
    | .toolCall call => some call
    | _ => none

/-- The message ended in an error or an abort. -/
def failed (message : AssistantMessage) : Bool := message.stopReason = .error ∨ message.stopReason = .aborted

/-- The local variables of `normalize_history`. -/
structure NormalizeState where
  result : List Message := []
  pendingCalls : List ToolCallContent := []
  resultIds : List Bytes := []

/-- The result that `flush_orphans` makes up for a call. -/
def orphanResult (call : ToolCallContent) : ToolResultMessage where
  toolCallId := call.id
  toolName := call.name
  content := [textContent "No result provided"]
  isError := true

/-- The results for the calls that have none. -/
def orphans (pendingCalls : List ToolCallContent) (resultIds : List Bytes) : List Message :=
  (pendingCalls.filter fun call => call.id ∉ resultIds).map fun call => .toolResult (orphanResult call)

def NormalizeState.flushOrphans (s : NormalizeState) : NormalizeState where
  result := s.result ++ orphans s.pendingCalls s.resultIds
  pendingCalls := []
  resultIds := []

/-- One turn of the loop of `normalize_history`. -/
def normalizeMessage (model : Model) (s : NormalizeState) (message : Message) : NormalizeState := match message with
  | .assistant assistant =>
    let s := s.flushOrphans
    if failed assistant then s
    else
      let transformed := normalizeAssistant model assistant
      { s with
        result := s.result ++ [.assistant transformed]
        pendingCalls := toolCalls transformed }
  | .toolResult result =>
    { s with
      result := s.result ++ [.toolResult (normalizeToolResult model result)]
      resultIds := result.toolCallId :: s.resultIds }
  | message =>
    if excludedFromProviderContext message then s
    else
      let s := s.flushOrphans
      match message with
      | .user user => { s with result := s.result ++ [.user (normalizeUser model user)] }
      | message =>
        match extendedMessageToUserMessage message with
        | some converted => { s with result := s.result ++ [.user converted] }
        | none => s

def normalizeHistory (model : Model) (messages : List Message) : List Message :=
  (messages.foldl (normalizeMessage model) {}).flushOrphans.result

end CodingHarness.Ai
