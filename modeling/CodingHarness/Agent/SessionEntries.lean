import CodingHarness.Support.JsonAccess
import CodingHarness.Durable.Records

/-!
# Session entries

The data model of a session file: the messages of `ai/Message.hpp` with their content blocks, and the
entries of `SessionEntry.hpp`. An entry has a kind, an id, the parent as its line spells it, a timestamp
and a value; `SessionEntryValue` has one constructor for each kind, so an entry cannot carry the value of
another kind. The raw line and the parsed payload of an entry are not kept here.
-/

namespace CodingHarness.Agent

open Library Support

/-- `support::JsonValue`: the members of every object have distinct keys. -/
structure JsonValue where
  value : Json
  wf : value.WF

instance : DecidableEq JsonValue := fun a b =>
  decidable_of_iff (a.value = b.value) (by cases a; cases b; simp)

/-! ## Content blocks -/

structure TextContent where
  text : Bytes
  textSignature : Option Bytes := none
  deriving DecidableEq

structure ThinkingContent where
  thinking : Bytes
  thinkingSignature : Option Bytes := none
  redacted : Bool := false
  deriving DecidableEq

structure ImageContent where
  data : Bytes
  mimeType : Bytes
  deriving DecidableEq

structure ToolCallContent where
  id : Bytes
  name : Bytes
  arguments : Option JsonValue := none
  rawArguments : Bytes := []
  thoughtSignature : Option Bytes := none
  argumentsValid : Bool := true
  argumentError : Option Bytes := none
  deriving DecidableEq

/-- `Content`: what every role but the assistant holds. -/
inductive Content where
  | text (block : TextContent)
  | thinking (block : ThinkingContent)
  | image (block : ImageContent)
  deriving DecidableEq

inductive AssistantContent where
  | text (block : TextContent)
  | thinking (block : ThinkingContent)
  | toolCall (block : ToolCallContent)
  deriving DecidableEq

/-! ## Messages -/

structure UsageCost where
  input : Double
  output : Double
  cacheRead : Double
  cacheWrite : Double
  total : Double
  deriving DecidableEq

/-- `Usage`; the counters are 64-bit integers. -/
structure Usage where
  input : Int
  output : Int
  cacheRead : Int
  cacheWrite : Int
  cacheWrite1h : Option Int
  reasoning : Option Int
  totalTokens : Int
  cost : UsageCost
  deriving DecidableEq

/-- `AssistantStopReason`. -/
inductive StopReason where
  | pending
  | stop
  | toolUse
  | length
  | error
  | aborted
  deriving DecidableEq

structure DiagnosticErrorInfo where
  name : Option Bytes
  message : Bytes
  stack : Option Bytes
  code : Option Bytes
  deriving DecidableEq

structure DiagnosticEntry where
  type : Bytes
  timestamp : Int
  error : Option DiagnosticErrorInfo
  details : Option JsonValue
  deriving DecidableEq

/-- `SystemMessageSection`: a text replaces the section, no text removes it. -/
structure SystemMessageSection where
  name : Bytes
  text : Option Bytes
  deriving DecidableEq

/-- `Tool`; the grammar variants of `ConstrainedSampling` are a `std::map`. -/
structure Tool where
  name : Bytes
  description : Bytes
  parameters : JsonValue
  outputSchema : Option JsonValue
  constrainedSampling : Option (OrdMap Bytes Bytes)
  deriving DecidableEq

structure SystemMessage where
  content : Bytes
  sections : List SystemMessageSection := []
  toolsAdded : List Tool := []
  toolsRemoved : List Bytes := []
  timestamp : Int := 0
  deriving DecidableEq

/-- The two alternatives of `UserMessage.content`. -/
inductive UserContent where
  | string (text : Bytes)
  | blocks (content : List Content)
  deriving DecidableEq

structure UserMessage where
  content : UserContent
  timestamp : Int := 0
  deriving DecidableEq

structure AssistantMessage where
  content : List AssistantContent
  api : Bytes
  provider : Bytes
  model : Bytes
  responseModel : Option Bytes := none
  responseId : Option Bytes := none
  usage : Usage
  stopReason : StopReason := .stop
  rawStopReason : Option Bytes := none
  errorMessage : Option Bytes := none
  diagnostics : Option (List DiagnosticEntry) := none
  timestamp : Int := 0
  deriving DecidableEq

structure ToolResultMessage where
  toolCallId : Bytes
  toolName : Bytes
  content : List Content
  details : Option JsonValue := none
  nestedCalls : Option JsonValue := none
  isError : Bool := false
  timestamp : Int := 0
  durationMs : Option Int := none
  deriving DecidableEq

structure BashExecutionMessage where
  command : Bytes
  output : Bytes
  exitCode : Option Int := none
  cancelled : Bool := false
  truncated : Bool := false
  fullOutputPath : Option Bytes := none
  excludeFromContext : Bool := false
  timestamp : Int := 0
  deriving DecidableEq

structure CustomMessage where
  customType : Bytes
  content : List Content
  display : Bool := true
  details : Option JsonValue := none
  timestamp : Int := 0
  deriving DecidableEq

structure BranchSummaryMessage where
  summary : Bytes
  fromId : Bytes
  timestamp : Int := 0
  deriving DecidableEq

structure CompactionSummaryMessage where
  summary : Bytes
  tokensBefore : Int := 0
  timestamp : Int := 0
  deriving DecidableEq

/-- `MessageVariant`. -/
inductive Message where
  | system (message : SystemMessage)
  | user (message : UserMessage)
  | assistant (message : AssistantMessage)
  | toolResult (message : ToolResultMessage)
  | bashExecution (message : BashExecutionMessage)
  | custom (message : CustomMessage)
  | branchSummary (message : BranchSummaryMessage)
  | compactionSummary (message : CompactionSummaryMessage)
  deriving DecidableEq

/-! ## Entries -/

inductive SessionEntryKind where
  | header
  | message
  | modelChange
  | thinkingLevelChange
  | custom
  | customMessage
  | label
  | compaction
  | branchSummary
  | sessionInfo
  | unknown
  deriving DecidableEq

/-- `CustomMessageEntryContentBlock`. -/
inductive CustomBlock where
  | text (block : TextContent)
  | image (block : ImageContent)
  deriving DecidableEq

/-- `CustomMessageEntryContent`. -/
inductive CustomContent where
  | string (text : Bytes)
  | blocks (content : List CustomBlock)
  deriving DecidableEq

structure CompactionEntryValue where
  summary : Bytes
  firstKeptEntryId : Option Bytes := none
  tokensBefore : Nat := 0
  retainedTail : Option (List Message) := none
  details : Option JsonValue := none
  usage : Option Usage := none
  fromHook : Option Bool := none
  deriving DecidableEq

structure BranchSummaryEntryValue where
  fromId : Bytes
  summary : Bytes
  details : Option JsonValue := none
  usage : Option Usage := none
  fromHook : Option Bool := none
  deriving DecidableEq

/-- `SessionEntryValue`, with the message of a message entry. -/
inductive SessionEntryValue where
  | header
  | message (message : Message)
  | modelChange (provider modelId : Bytes)
  | thinkingLevelChange (thinkingLevel : Bytes)
  | custom (customType : Bytes) (data : Option JsonValue)
  | customMessage (customType : Bytes) (content : CustomContent) (display : Bool)
      (details : Option JsonValue)
  | label (targetId : Bytes) (label : Option Bytes)
  | compaction (value : CompactionEntryValue)
  | branchSummary (value : BranchSummaryEntryValue)
  | sessionInfo (name : Option Bytes)
  | unknown
  deriving DecidableEq

def SessionEntryValue.kind : SessionEntryValue → SessionEntryKind
  | .header => .header
  | .message _ => .message
  | .modelChange _ _ => .modelChange
  | .thinkingLevelChange _ => .thinkingLevelChange
  | .custom _ _ => .custom
  | .customMessage _ _ _ _ => .customMessage
  | .label _ _ => .label
  | .compaction _ => .compaction
  | .branchSummary _ => .branchSummary
  | .sessionInfo _ => .sessionInfo
  | .unknown => .unknown

/-- `ParentId`: a line without the field, an explicit `null`, or the id of an entry. -/
inductive ParentId where
  | absent
  | root
  | entry (entryId : Bytes)
  deriving DecidableEq

/-- `parent_entry_id`: an empty id names no entry. -/
def parentEntryId : ParentId → Option Bytes
  | .entry entryId => if entryId = [] then none else some entryId
  | _ => none

/-- `parent_id_from_optional`: an append without a parent writes an explicit `null`. -/
def parentIdFromOptional : Option Bytes → ParentId
  | some entryId => .entry entryId
  | none => .root

/-- An entry of a session file and its place in the tree. -/
structure SessionEntry where
  entryId : Bytes
  parentId : ParentId
  timestamp : Int := 0
  value : SessionEntryValue
  deriving DecidableEq

/-- `SessionEntry::kind`. -/
def SessionEntry.kind (entry : SessionEntry) : SessionEntryKind := entry.value.kind

/-- Whether the tree tracks the entry: it is neither a header nor of an unknown kind. -/
def SessionEntry.isTracked (entry : SessionEntry) : Bool :=
  entry.kind != .header && entry.kind != .unknown

end CodingHarness.Agent
