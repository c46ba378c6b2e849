import CodingHarness.Chord.Delta
import CodingHarness.Library.OrdMap
import Mathlib.Data.List.Lex

/-!
# Durable records

The records of `Records.hpp` that a storage commit carries, and the write kinds of a batch.
Identities and sequences are 64-bit integers of the source and appear as integers; definition
versions are unsigned and appear as naturals.

`StorageWrite` of the source is one flat record with a type string and a field for every kind. Here
each kind is a constructor with the optional fields the backends read for that kind, and `unknown`
stands for every other type string.
-/

namespace CodingHarness.Durable

open Library Support Chord

instance instLinearOrderUInt8 : LinearOrder UInt8 where
  le_refl := UInt8.le_refl
  le_trans _ _ _ := UInt8.le_trans
  le_antisymm _ _ := UInt8.le_antisymm
  le_total := UInt8.le_total
  lt_iff_le_not_ge a b := by
    rw [UInt8.lt_iff_toNat_lt, UInt8.le_iff_toNat_le, UInt8.le_iff_toNat_le]
    omega
  toDecidableLE := inferInstance
  toDecidableLT := inferInstance
  toDecidableEq := inferInstance

/-! ## Identities -/

abbrev ConversationId := Int
abbrev EntryId := Int
abbrev DocumentId := Int
abbrev TaskId := Int
abbrev SubmissionId := Int
abbrev Seq := Int

/-! ## Conversations and entries -/

/-- Inclusive transcript ancestry selected by a fork. -/
structure Parent where
  conversationId : ConversationId
  at_ : EntryId
  deriving DecidableEq

/-- The creator edge of a conversation. -/
structure ConversationOwner where
  conversationId : ConversationId
  taskId : TaskId
  deriving DecidableEq

/-- The immutable record of a conversation. -/
structure ConversationRecord where
  id : ConversationId
  parent : Option Parent := none
  owner : Option ConversationOwner := none
  deriving DecidableEq

/-- A context-only override of an earlier entry. -/
structure ContextEdit where
  target : EntryId
  action : Bytes
  messages : List Json := []
  deriving DecidableEq

/-- The immutable record of a transcript entry. -/
structure EntryRecord where
  id : EntryId
  conversationId : ConversationId
  kind : Bytes := []
  data : Json := .null
  head : Option EntryId := none
  model : List Json := []
  edits : List ContextEdit := []
  byTaskId : Option TaskId := none
  deriving DecidableEq

/-! ## Documents -/

/-- The ownership of a document. -/
inductive DocumentScope where
  | session
  | conversation
  | task
  deriving DecidableEq

/-- Whether a conversation document keeps its revisions. -/
inductive DocumentHistory where
  | latest
  | rewindable
  deriving DecidableEq

/-- What a conversation fork initializes a copied document from. -/
inductive DocumentFork where
  | asOf
  | current
  | initial
  deriving DecidableEq

/-- The logical identity of a document within its kind. -/
structure DocumentAddress where
  conversationId : Option ConversationId := none
  taskId : Option TaskId := none
  key : Option Bytes := none
  deriving DecidableEq

def DocumentAddress.scope (address : DocumentAddress) : DocumentScope := if address.taskId.isSome then .task
  else if address.conversationId.isSome then .conversation
  else .session

/-- The record of a document incarnation. -/
structure DocumentRecord where
  id : DocumentId
  kind : Bytes := []
  createdAt : Seq := 0
  conversationId : Option ConversationId := none
  taskId : Option TaskId := none
  key : Option Bytes := none
  history : DocumentHistory := .latest
  fork : DocumentFork := .current
  retiredAt : Option Seq := none
  deriving DecidableEq

namespace DocumentRecord

/-- The logical address an incarnation occupies. -/
def address (record : DocumentRecord) : DocumentAddress := ⟨record.conversationId, record.taskId, record.key⟩

def scope (record : DocumentRecord) : DocumentScope := record.address.scope

end DocumentRecord

def documentScopeName : DocumentScope → Bytes
  | .session => "session"
  | .conversation => "conversation"
  | .task => "task"

def documentIsCurrentOnly (record : DocumentRecord) : Bool :=
  record.scope != .conversation || record.history == .latest

def documentAddressKey (kind : Bytes) (address : DocumentAddress) : Bytes := let owner :=
    match address.taskId, address.conversationId with
    | some taskId, _ => intText taskId
    | none, some conversationId => intText conversationId
    | none, none => "session"
  let member := match address.key with
    | some key => ofString "family:" ++ key
    | none => "singleton"
  kind ++ ofString "|" ++ documentScopeName address.scope ++ ofString ":" ++ owner ++ ofString "|"
    ++ member

/-- A historical commit sequence, or `none` for the current state. -/
abbrev DocumentPoint := Option Seq

/-- A materialized document. -/
structure StoredDocument where
  record : DocumentRecord
  version : Nat
  value : Json
  deltasSinceBase : Nat
  deriving DecidableEq

/-- The persisted source of a document copy. -/
structure DocumentCopySource where
  id : DocumentId
  at_ : DocumentPoint := none
  deriving DecidableEq

/-! ## Tasks and submissions -/

/-- An error snapshot. -/
structure TaskOutcomeError where
  message : Bytes
  detail : Option Json := none
  deriving DecidableEq

/-- The reason and result of a terminal task. -/
structure TaskOutcome where
  status : Bytes
  result : Option Json := none
  error : Option TaskOutcomeError := none
  reason : Option Bytes := none
  deriving DecidableEq

/-- How a waiting task reacts to a failed member. -/
inductive JoinPolicy where
  | allSettled
  | failFast
  deriving DecidableEq

def joinPolicyName : JoinPolicy → Bytes
  | .failFast => "failFast"
  | .allSettled => "allSettled"

def joinPolicyFromName (name : Bytes) : Option JoinPolicy := if name = "failFast" then some .failFast
  else if name = "allSettled" then some .allSettled
  else none

@[simp] theorem joinPolicyFromName_joinPolicyName (policy : JoinPolicy) :
    joinPolicyFromName (joinPolicyName policy) = some policy := by
  cases policy <;> simp [joinPolicyFromName, joinPolicyName]

/-- The execution state of a task. -/
structure TaskState where
  status : Bytes
  checkpoint : Option Json := none
  on : List TaskId := []
  policy : Option JoinPolicy := none
  outcome : Option TaskOutcome := none
  deriving DecidableEq

/-- The replacement record of a task. -/
structure TaskRecord where
  id : TaskId
  conversationId : ConversationId
  kind : Bytes := []
  version : Int := 1
  input : Json := .null
  owner : Option TaskId := none
  background : Bool := false
  abandonOnRestart : Bool := false
  abortRequested : Bool := false
  abortReason : Option Bytes := none
  startedAt : Option Int := none
  endedAt : Option Int := none
  state : TaskState
  memos : OrdMap Bytes Json := .empty
  deriving DecidableEq

/-- The replacement record of a submission. -/
structure SubmissionRecord where
  id : SubmissionId
  conversationId : ConversationId
  requestId : Option Bytes := none
  type : Bytes := []
  status : Bytes := []
  entry : Option EntryId := none
  answer : Option EntryId := none
  reason : Option Bytes := none
  detail : Option Json := none
  deriving DecidableEq

/-! ## Storage writes -/

/-- One write of an atomic batch. -/
inductive StorageWrite where
  | conversation (record : Option ConversationRecord)
  | entry (record : Option EntryRecord)
  | documentCreate (record : Option DocumentRecord) (version : Nat) (value : Option Json)
  | documentCopy (record : Option DocumentRecord) (source : Option DocumentCopySource)
  | documentChange (id : Option DocumentId) (version : Nat) (value : Option Json) (ops : OpBatch)
  | documentRetire (id : Option DocumentId)
  | task (record : Option TaskRecord)
  | submission (record : Option SubmissionRecord)
  | unknown
  deriving DecidableEq

/-- The identity of the record that a write stores. -/
def StorageWrite.recordId : StorageWrite → Option Int
  | .conversation record => record.map ConversationRecord.id
  | .entry record => record.map EntryRecord.id
  | .documentCreate record _ _ | .documentCopy record _ => record.map DocumentRecord.id
  | .task record => record.map TaskRecord.id
  | .submission record => record.map SubmissionRecord.id
  | _ => none

/-- The identities of the records of a batch. -/
def recordIds (writes : List StorageWrite) : List Int := writes.filterMap StorageWrite.recordId

end CodingHarness.Durable
