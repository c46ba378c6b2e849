import CodingHarness.Agent.SessionEntries
import Mathlib.Data.List.Induction

/-!
# The context of a session path

`buildSessionContext` of `session/SessionTree.cpp`: the messages a root-to-leaf path sends to the model.
Without a retained tail the system messages before the last compaction are sent by one pass and the kept
entries by another, so a system message among the kept entries is sent twice.
-/

namespace CodingHarness.Agent

open Support List

structure SessionContext where
  messages : List Message := []
  provider : Option Bytes := none
  model : Option Bytes := none
  thinkingLevel : Bytes := "off"
  hasThinkingLevelEntry : Bool := false

/-- `std::holds_alternative<ai::SystemMessage>`. -/
def Message.isSystem : Message → Bool
  | .system _ => true
  | _ => false

def CustomBlock.content : CustomBlock → Content
  | .text block => .text block
  | .image block => .image block

/-- `emit_entry_message`: what the entry appends to the messages. -/
def emitEntryMessage (entry : SessionEntry) : List Message := match entry.value with
  | .message message => [message]
  | .branchSummary value => if value.summary = [] then [] else
      [.branchSummary { summary := value.summary, fromId := value.fromId, timestamp := entry.timestamp }]
  | .customMessage customType content display details =>
    [.custom {
      customType := customType
      content := match content with
        | .string text => [.text { text := text }]
        | .blocks blocks => blocks.map CustomBlock.content
      display := display
      details := details
      timestamp := entry.timestamp }]
  | _ => []

/-- `emit_compaction_messages`. The count of tokens is converted to a signed one. -/
def emitCompactionMessages (entry : SessionEntry) (value : CompactionEntryValue) : List Message :=
  let tail := value.retainedTail.getD []
  tail.filter Message.isSystem ++ .compactionSummary {
      summary := value.summary
      tokensBefore := Int.bmod value.tokensBefore (2 ^ 64)
      timestamp := entry.timestamp } ::
    tail.filter (!·.isSystem)

/-- One step of the pass that derives the model and the thinking level. -/
def SessionContext.apply (ctx : SessionContext) (entry : SessionEntry) : SessionContext := match entry.value with
  | .thinkingLevelChange level => { ctx with thinkingLevel := level, hasThinkingLevelEntry := true }
  | .modelChange provider modelId => { ctx with provider := some provider, model := some modelId }
  | .message (.assistant message) => { ctx with provider := some message.provider, model := some message.model }
  | _ => ctx

/-- The compaction entry closest to the leaf, with its value, between the entries before and after it. -/
def findCompaction : List SessionEntry →
    Option (List SessionEntry × SessionEntry × CompactionEntryValue × List SessionEntry)
  | [] => none
  | entry :: path =>
    match findCompaction path, entry.value with
    | some (before, found), _ => some (entry :: before, found)
    | none, .compaction value => some ([], entry, value, path)
    | none, _ => none

/-- `SessionEntry::message`. -/
def SessionEntry.message? (entry : SessionEntry) : Option Message := match entry.value with
  | .message message => some message
  | _ => none

/-- The system messages of message entries. -/
def systemMessages (entries : List SessionEntry) : List Message :=
  (entries.filterMap SessionEntry.message?).filter Message.isSystem

def CompactionEntryValue.firstKeptId (value : CompactionEntryValue) : Bytes := value.firstKeptEntryId.getD []

/-- `skip_ids`: the ids before the first kept entry, without the id of the compaction. -/
def skipIds (before : List SessionEntry) (compaction : SessionEntry) (value : CompactionEntryValue) : List Bytes :=
  ((before.takeWhile (·.entryId ≠ value.firstKeptId)).map SessionEntry.entryId).filter (· ≠ compaction.entryId)

def buildSessionContext (path : List SessionEntry) : SessionContext := let ctx := path.foldl SessionContext.apply {}
  match findCompaction path with
  | none => { ctx with messages := path.flatMap emitEntryMessage }
  | some (before, compaction, value, after) =>
    let system := if (value.retainedTail.getD []).any Message.isSystem then [] else systemMessages before
    let kept := if value.retainedTail.isSome then after
      else path.filter (·.entryId ∉ skipIds before compaction value)
    { ctx with
      messages := system ++ emitCompactionMessages compaction value ++ kept.flatMap emitEntryMessage }

/-! ## What the projection shows -/

/-- The entries kept before a compaction: from the first kept one on, without a retained tail. -/
def keptRange (before : List SessionEntry) (value : CompactionEntryValue) : List SessionEntry :=
  if value.retainedTail.isSome then [] else before.dropWhile (·.entryId ≠ value.firstKeptId)

/-- The provider and the model an entry sets. -/
def SessionEntry.modelSet (entry : SessionEntry) : Option (Bytes × Bytes) := match entry.value with
  | .modelChange provider modelId => some (provider, modelId)
  | .message (.assistant message) => some (message.provider, message.model)
  | _ => none

def SessionEntry.levelSet (entry : SessionEntry) : Option Bytes := match entry.value with
  | .thinkingLevelChange level => some level
  | _ => none

/-- What the messages of a path show: beside the messages of the last compaction, each message of the path
at most once; at the end those after the compaction, in order; of the others, no message before the first
kept entry but system messages. The model and the thinking level are the last ones set. -/
structure Projected (path : List SessionEntry) (ctx : SessionContext) : Prop where
  once : ctx.messages <+~ path.flatMap emitEntryMessage ++
    ((findCompaction path).map fun found => emitCompactionMessages found.2.1 found.2.2.1).getD []
  whole : findCompaction path = none → ctx.messages = path.flatMap emitEntryMessage
  after : ∀ {before compaction value after}, findCompaction path = some (before, compaction, value, after) →
    after.flatMap emitEntryMessage <:+ ctx.messages
  others : ∀ {before compaction value after}, findCompaction path = some (before, compaction, value, after) →
    ctx.messages.filter (!·.isSystem) = (emitCompactionMessages compaction value ++
      (keptRange before value ++ after).flatMap emitEntryMessage).filter (!·.isSystem)
  provider : ctx.provider = (path.filterMap SessionEntry.modelSet).getLast?.map (·.1)
  model : ctx.model = (path.filterMap SessionEntry.modelSet).getLast?.map (·.2)
  thinkingLevel : ctx.thinkingLevel = (path.filterMap SessionEntry.levelSet).getLast?.getD "off"

variable {path before after : List SessionEntry} {compaction : SessionEntry} {value : CompactionEntryValue}

theorem findCompaction_eq (h : findCompaction path = some (before, compaction, value, after)) :
    path = before ++ compaction :: after ∧ compaction.value = .compaction value := by
  induction path generalizing before with
  | nil => cases h
  | cons entry path ih =>
    rw [findCompaction] at h
    split at h
    · next before found hfound =>
      cases h
      obtain ⟨rfl, hvalue⟩ := ih hfound
      exact ⟨rfl, hvalue⟩
    · next hvalue =>
      cases h
      exact ⟨rfl, hvalue⟩
    · cases h

theorem emit_compaction (h : compaction.value = .compaction value) : emitEntryMessage compaction = [] := by
  rw [emitEntryMessage, h]

theorem systemMessages_eq (entries : List SessionEntry) :
    systemMessages entries = (entries.flatMap emitEntryMessage).filter Message.isSystem := by
  induction entries with
  | nil => rfl
  | cons entry entries ih =>
    rw [flatMap_cons, filter_append, ← ih]
    obtain ⟨entryId, parentId, timestamp, value⟩ := entry
    cases value with
    | message message => exact filter_append [message] _
    | branchSummary value =>
      change systemMessages entries = filter _ (if value.summary = [] then [] else [_]) ++ systemMessages entries
      split <;> rfl
    | _ => rfl

/-- Of entries with distinct ids only those before the first kept one are skipped. -/
theorem filter_skipIds (h : ((before ++ compaction :: after).map SessionEntry.entryId).Nodup) :
    (before ++ compaction :: after).filter (·.entryId ∉ skipIds before compaction value) =
      before.dropWhile (·.entryId ≠ value.firstKeptId) ++ compaction :: after := by
  have hsplit := takeWhile_append_dropWhile (p := (·.entryId ≠ value.firstKeptId)) (l := before)
  generalize hdropped : before.takeWhile (·.entryId ≠ value.firstKeptId) = dropped at hsplit
  generalize before.dropWhile (·.entryId ≠ value.firstKeptId) = kept at hsplit
  rw [skipIds, hdropped, ← hsplit, append_assoc, filter_append]
  rw [← hsplit, append_assoc, map_append, nodup_append] at h
  obtain ⟨-, -, hdisjoint⟩ := h
  have hskipped : dropped.filter
      (·.entryId ∉ (dropped.map SessionEntry.entryId).filter (· ≠ compaction.entryId)) = [] := by
    refine filter_eq_nil_iff.2 fun entry hentry => ?_
    have hmem := mem_map_of_mem (f := SessionEntry.entryId) hentry
    have hne := hdisjoint _ hmem _ (mem_map_of_mem (mem_append_right kept mem_cons_self))
    simp only [decide_eq_true_eq, not_not]
    exact mem_filter.2 ⟨hmem, decide_eq_true hne⟩
  have hshown : (kept ++ compaction :: after).filter
      (·.entryId ∉ (dropped.map SessionEntry.entryId).filter (· ≠ compaction.entryId)) =
      kept ++ compaction :: after := by
    refine filter_eq_self.2 fun entry hentry => decide_eq_true fun hmem => ?_
    exact hdisjoint _ (mem_filter.1 hmem).1 _ (mem_map_of_mem hentry) rfl
  rw [hskipped, hshown, nil_append]

theorem derived_model (path : List SessionEntry) :
    (path.foldl SessionContext.apply {}).provider = (path.filterMap SessionEntry.modelSet).getLast?.map (·.1) ∧
    (path.foldl SessionContext.apply {}).model = (path.filterMap SessionEntry.modelSet).getLast?.map (·.2) ∧
    (path.foldl SessionContext.apply {}).thinkingLevel =
      (path.filterMap SessionEntry.levelSet).getLast?.getD "off" := by
  induction path using List.reverseRecOn with
  | nil => exact ⟨rfl, rfl, rfl⟩
  | append_singleton path entry ih =>
    rw [foldl_append, foldl_cons, foldl_nil, filterMap_append, filterMap_append, SessionContext.apply]
    obtain ⟨hprovider, hmodel, hlevel⟩ := ih
    split <;> simp_all [SessionEntry.modelSet, SessionEntry.levelSet]

theorem messages_eq (hfound : findCompaction path = some (before, compaction, value, after))
    (h : (path.map SessionEntry.entryId).Nodup) : (buildSessionContext path).messages =
      (if (value.retainedTail.getD []).any Message.isSystem then [] else systemMessages before) ++
        emitCompactionMessages compaction value ++
        ((keptRange before value).flatMap emitEntryMessage ++ after.flatMap emitEntryMessage) := by
  obtain ⟨rfl, hvalue⟩ := findCompaction_eq hfound
  simp only [buildSessionContext, hfound, keptRange]
  by_cases htail : value.retainedTail.isSome
  · rw [if_pos htail, if_pos htail]
    rfl
  · rw [if_neg htail, if_neg htail, filter_skipIds h, flatMap_append, flatMap_cons, emit_compaction hvalue,
      nil_append]

/-- The system messages of the dropped and of the kept entries are sent once more than they should be,
exactly when there is one among the kept entries. -/
theorem twice_iff (dropped kept : List SessionEntry) :
    systemMessages (dropped ++ kept) ++ kept.flatMap emitEntryMessage <+~
      (dropped ++ kept).flatMap emitEntryMessage ↔ systemMessages kept = [] := by
  have happ : systemMessages (dropped ++ kept) = systemMessages dropped ++ systemMessages kept := by
    rw [systemMessages_eq, flatMap_append, filter_append, ← systemMessages_eq, ← systemMessages_eq]
  have hself : ∀ entries, (systemMessages entries).filter Message.isSystem = systemMessages entries :=
    fun _ => filter_eq_self.2 fun _ hmem => (mem_filter.1 hmem).2
  rw [happ, flatMap_append, subperm_append_right]
  constructor
  · intro h
    have hlen := (h.filter Message.isSystem).length_le
    rw [filter_append, hself, hself, ← systemMessages_eq, length_append] at hlen
    exact length_eq_zero_iff.1 (by omega)
  intro hnone
  rw [hnone, append_nil, systemMessages_eq]
  exact filter_sublist.subperm

/-- Whether a path keeps no system message before its last compaction: it has no compaction, or that one has
a retained tail, or no system message stands from the first kept entry on. -/
def SystemMessagesDropped (path : List SessionEntry) : Prop :=
  ∀ {before compaction value after}, findCompaction path = some (before, compaction, value, after) →
    systemMessages (keptRange before value) = []

section Compacted

variable (hfound : findCompaction path = some (before, compaction, value, after))
  (h : (path.map SessionEntry.entryId).Nodup)

include hfound h

theorem once_iff : (buildSessionContext path).messages <+~
    path.flatMap emitEntryMessage ++ emitCompactionMessages compaction value ↔
      systemMessages (keptRange before value) = [] := by
  rw [messages_eq hfound h]
  obtain ⟨rfl, hvalue⟩ := findCompaction_eq hfound
  rw [flatMap_append, flatMap_cons, emit_compaction hvalue, nil_append, append_assoc, append_assoc]
  split
  · next hsystem =>
    have htail : keptRange before value = [] := by
      refine if_pos (Option.isSome_iff_ne_none.2 fun hnone => ?_)
      rw [hnone] at hsystem
      cases hsystem
    refine iff_of_true ?_ (congrArg systemMessages htail)
    rw [htail, flatMap_nil, nil_append, nil_append]
    exact perm_append_comm.subperm.trans (sublist_append_right _ _).subperm
  obtain ⟨dropped, hdropped⟩ : ∃ dropped, before = dropped ++ keptRange before value := by
    rw [keptRange]
    split
    · exact ⟨before, (append_nil _).symm⟩
    · exact ⟨_, takeWhile_append_dropWhile.symm⟩
  generalize keptRange before value = kept at hdropped
  subst hdropped
  have hmoved : emitCompactionMessages compaction value ++
      (kept.flatMap emitEntryMessage ++ after.flatMap emitEntryMessage) ~
      kept.flatMap emitEntryMessage ++
        (after.flatMap emitEntryMessage ++ emitCompactionMessages compaction value) := by
    rw [← append_assoc (flatMap _ kept)]
    exact perm_append_comm
  rw [(hmoved.append_left _).subperm_right, ← append_assoc, subperm_append_right, twice_iff]

theorem others_eq :
    (buildSessionContext path).messages.filter (!·.isSystem) = (emitCompactionMessages compaction value ++
      (keptRange before value ++ after).flatMap emitEntryMessage).filter (!·.isSystem) := by
  have hnone : ∀ entries, (systemMessages entries).filter (!·.isSystem) = [] := fun entries =>
    filter_eq_nil_iff.2 fun message hmem => by simp [(mem_filter.1 hmem).2]
  rw [messages_eq hfound h, flatMap_append, append_assoc, filter_append]
  split
  · rw [filter_nil, nil_append]
  · rw [hnone, nil_append]

end Compacted

/-- **Context projection shows each message once and in order**, for entries with distinct ids, exactly when
no system message is kept before the last compaction. -/
theorem buildSessionContext_projected (h : (path.map SessionEntry.entryId).Nodup) :
    Projected path (buildSessionContext path) ↔ SystemMessagesDropped path := by
  constructor
  · intro hprojected before compaction value after hfound
    have honce := hprojected.once
    rw [hfound] at honce
    exact (once_iff hfound h).1 honce
  intro hdropped
  have hstate : ∃ messages, buildSessionContext path = { path.foldl SessionContext.apply {} with messages } := by
    rw [buildSessionContext]
    split <;> exact ⟨_, rfl⟩
  obtain ⟨messages, hstate⟩ := hstate
  obtain ⟨hprovider, hmodel, hlevel⟩ := derived_model path
  cases hfound : findCompaction path with
  | none =>
    have hmessages : (buildSessionContext path).messages = path.flatMap emitEntryMessage := by
      rw [buildSessionContext, hfound]
    refine ⟨?_, fun _ => hmessages, ?_, ?_, ?_, ?_, ?_⟩
    · rw [hfound, hmessages]
      exact (sublist_append_left _ _).subperm
    · intro _ _ _ _ hother
      cases hfound.symm.trans hother
    · intro _ _ _ _ hother
      cases hfound.symm.trans hother
    · rwa [hstate]
    · rwa [hstate]
    · rwa [hstate]
  | some found =>
    refine ⟨?_, fun hnone => ?_, ?_, fun hother => others_eq hother h, ?_, ?_, ?_⟩
    · rw [hfound]
      exact (once_iff hfound h).2 (hdropped hfound)
    · cases hnone.symm.trans hfound
    · intro _ _ _ _ hother
      rw [messages_eq hother h, ← append_assoc]
      exact suffix_append _ _
    · rwa [hstate]
    · rwa [hstate]
    · rwa [hstate]

/-- The compaction keeps the entries from `c` on, behind the system message, and a model is set after it. -/
def keptPath : List SessionEntry :=
  [⟨"a", .root, 0, .message (.system { content := [] })⟩, ⟨"b", .entry "a", 0, .message (.user { content := .string "u" })⟩,
    ⟨"c", .entry "b", 0, .branchSummary { fromId := "b", summary := "s" }⟩,
    ⟨"d", .entry "c", 0, .compaction { summary := "t", firstKeptEntryId := some "c" }⟩,
    ⟨"e", .entry "d", 0, .modelChange "p" "m"⟩, ⟨"f", .entry "e", 0, .message (.user { content := .string "u" })⟩]

theorem buildSessionContext_projected_kept : (buildSessionContext keptPath).messages.length = 4 ∧
    Projected keptPath (buildSessionContext keptPath) := by
  refine ⟨by decide, (buildSessionContext_projected (by decide)).2 fun hfound => ?_⟩
  cases hfound
  decide

/-- A system message and a compaction without a retained tail. -/
def promptPath (firstKept : Option Bytes) : List SessionEntry :=
  [⟨[0x61], .root, 0, .message (.system { content := [] })⟩,
    ⟨[0x62], .entry [0x61], 0, .compaction { summary := [], firstKeptEntryId := firstKept }⟩]

/-- A kept system message is sent before the summary and after it. -/
theorem kept_system_message_twice :
    ¬Projected (promptPath (some [0x61])) (buildSessionContext (promptPath (some [0x61]))) :=
  fun h => absurd h.once.length_le (by decide)

end CodingHarness.Agent
