import CodingHarness.Durable.TerminalRecords
import CodingHarness.Durable.Visibility
import CodingHarness.Support.JsonAccess
import Mathlib.Data.List.TakeWhile

/-!
# The context of a conversation

`context_view` reads the visible entries of a conversation, up to a selected one, and derives from
them what the model is shown: the newest head hides what lies before its target, edits omit or
replace the contribution of an entry, tool results are put behind their calls, and the first system
message may move to the front. `viewOf` is the part that works on the selected entries, so a view is
known as soon as these are.

A view at an entry does not change (`contextView_immutable`). The entries of a commit get identities
that are minted inside it, above everything stored before, and a stored entry or conversation is never
replaced; so the entries up to the selected one are the same after any later commits.
-/

namespace CodingHarness.Durable

open Library Support Chord
open OrdMap (find_insert find_insert_cases)
open StorageState (advanced_zero applyWrite_nextId scanEntries_spec)

namespace Context

/-! ## Messages -/

/-- `context_role`; a value without one has the empty role. -/
def contextRole (value : Json) : Bytes :=
  ((value.asObject.bind fun object => jsonMember object "role").bind Json.asString).getD []

/-- The identity and the name of a tool call block. -/
def toolCall (block : Json) : Option (Json × Json) := do
  let object ← block.asObject
  let type ← (jsonMember object "type").bind Json.asString
  if type = "toolCall" then
    let id ← jsonMember object "id"
    let name ← jsonMember object "name"
    return (id, name)
  else none

/-- The tool calls of an assistant message, in order. -/
def toolCalls (message : Json) : List (Json × Json) :=
  (((message.asObject.bind fun object => jsonMember object "content").bind Json.asArray).getD []).filterMap toolCall

def missingResult (call : Json × Json) (assistant : Json) : Json :=
  .object (field "role" (.string "toolResult") ++ field "toolCallId" call.1 ++ field "toolName" call.2 ++
    field "content" (.array [.object (field "type" (.string "text") ++ field "text" (.string
        "Tool result unavailable: history ends before this call completed."))]) ++
    field "isError" (.bool true) ++
    field "details" (.object (field "reason" (.string "missing_result"))) ++
    optionalField "timestamp" id
      (assistant.asObject.bind fun object => jsonMember object "timestamp"))

/-- A tool result for the call `id`. -/
def isResultOf (id : Bytes) (message : Json) : Bool := contextRole message == "toolResult" &&
    (message.asObject.bind fun object => jsonMember object "toolCallId").bind Json.asString == some id

/-- The message that answers a call: the first result before the next assistant message, or a
placeholder. -/
def resultFor (assistant : Json) (later : List Json) (call : Json × Json) : Json :=
  let found := call.1.asString.bind fun id =>
    (later.takeWhile fun message => contextRole message != "assistant").find? (isResultOf id)
  found.getD (missingResult call assistant)

def orderToolResults : List Json → List Json
  | [] => []
  | message :: later =>
    if contextRole message = "toolResult" then orderToolResults later
    else if contextRole message = "assistant" then
      message :: (toolCalls message).map (resultFor message later) ++ orderToolResults later
    else message :: orderToolResults later

/-! ## The view of the selected entries -/

/-- `ContextView`. -/
structure View where
  head : Option EntryRecord := none
  tail : Option EntryId := none
  entries : List EntryRecord := []
  contributions : List (List Json) := []
  messages : List Json := []
  deriving DecidableEq

def systemKind : Bytes := "pi.system"

def isSystem (message : Json) : Bool := contextRole message == "system"

/-- The newest entry that carries a head. -/
def newestHead (selected : List EntryRecord) : Option EntryRecord :=
  selected.reverse.find? fun entry => entry.head.isSome

/-- The entries from the head's target on. -/
def fromHead (selected : List EntryRecord) : Option EntryRecord → Expected (List EntryRecord)
  | none => .ok selected
  | some head =>
    match selected.dropWhile fun entry => some entry.id != head.head with
    | [] => invalid "Context head is not visible"
    | kept => .ok kept

/-- The edit that counts for an entry: the last one assigned. -/
def editFor (kept : List EntryRecord) (id : EntryId) : Option ContextEdit :=
  (kept.flatMap EntryRecord.edits).reverse.find? fun edit => edit.target == id

/-- The entries of a view: the head first, and the others without any head. -/
def viewEntries (kept : List EntryRecord) : Option EntryRecord → List EntryRecord
  | none => kept
  | some head => head :: kept.filter fun entry => entry.head.isNone

/-- An entry that brings a system message of its own or by replacement. -/
def bringsSystem (entry : EntryRecord) : Bool := entry.model.any isSystem ||
    entry.edits.any fun edit => edit.action == "replace" && edit.messages.any isSystem

/-- The baseline system message: that of the first system entry behind the head. -/
def baseline (head : Option EntryRecord) : List EntryRecord → Option Json
  | [] => none
  | entry :: rest =>
    if head.any fun head => entry.id ≤ head.id then baseline head rest
    else if entry.kind = systemKind then entry.model.find? isSystem
    else if head.isNone && bringsSystem entry then none
    else baseline head rest

/-- An assistant message that did not end regularly. -/
def isUnfinished (message : Json) : Bool := contextRole message == ofString "assistant" &&
    ((message.asObject.bind fun object => jsonMember object "stopReason").bind Json.asString).any
      fun reason => reason == ofString "aborted" || reason == ofString "error" || reason == ofString "deferred"

/-- The messages an entry stands for under its edit. -/
def editedModel (edit : Option ContextEdit) (entry : EntryRecord) : List Json := match edit with
  | none => entry.model
  | some edit =>
    if edit.action = "omit" then []
    else if edit.action = "replace" then edit.messages
    else entry.model

/-- What an entry contributes to the context. -/
def contribution (kept : List EntryRecord) (entry : EntryRecord) : List Json :=
  (editedModel (editFor kept entry.id) entry).filter fun message => !isUnfinished message

/-- The first system message moves to the front, from behind users or as the baseline. -/
def systemFirst (base : Option Json) (messages : List Json) : List Json :=
  let before := messages.takeWhile fun message => !isSystem message
  match messages.dropWhile fun message => !isSystem message with
  | [] => messages
  | system :: later =>
    if (before.all fun message => contextRole message == "user") || base.any fun base => Json.beq base system then
      system :: before ++ later
    else messages

/-- The view of the selected entries, oldest first. -/
def viewOf (selected : List EntryRecord) : Expected View := match selected.getLast? with
  | none => .ok {}
  | some last => do
      let head := newestHead selected
      let kept ← fromHead selected head
      let entries := viewEntries kept head
      let contributions := entries.map (contribution kept)
      return {
        head := head
        tail := some last.id
        entries := entries
        contributions := contributions
        messages := systemFirst (baseline head entries) (orderToolResults contributions.flatten) }

/-- The visible entries up to the selected one. -/
def upTo (conversation : ConversationId) (visible : List EntryRecord) : Option EntryId → Expected (List EntryRecord)
  | none => .ok visible
  | some at_ =>
    match visible.findIdx? fun entry => entry.id == at_ with
    | none =>
      .error (validationError (ofString "Entry " ++ intText at_ ++
        ofString " is not visible from conversation " ++ intText conversation))
    | some index => .ok (visible.take (index + 1))

/-- The visible entries of a conversation, oldest first. The source gives `scan_entries` the largest
limit there is, which no list of records reaches; here it is the number of stored entries. -/
def visibleEntries (storage : StorageState) (conversation : ConversationId) : Expected (List EntryRecord) := do
  let newestFirst ← storage.scanEntries conversation storage.entries.size
  return newestFirst.reverse

/-- `Transaction::context_view`. -/
def contextView (storage : StorageState) (conversation : ConversationId) (at_ : Option EntryId) :
    Expected View := do
  let visible ← visibleEntries storage conversation
  let selected ← upTo conversation visible at_
  viewOf selected

/-! ## What a conversation sees -/

/-- The entry is one of those a scan of the conversation lists. -/
def Sees (s : StorageState) (c : ConversationId) (e : EntryRecord) : Prop :=
  s.OwnBelow c none e ∨ ∃ a at_, s.Inherits c a at_ ∧ s.OwnBelow a (some at_) e

variable {s : StorageState} {c : ConversationId}

theorem Sees.stored {e : EntryRecord} (h : Sees s c e) : ∃ commitSeq, s.entries.find e.id = some ⟨e, commitSeq⟩ := by
  rcases h with hown | ⟨_, _, -, hown⟩
  · exact hown.1
  · exact hown.1

variable {record : ConversationRecord}

theorem visibleEntries_spec (hinv : s.Transcript) (stored : s.conversations.find c = some record) :
    ∃ visible, visibleEntries s c = .ok visible ∧ (∀ e, e ∈ visible ↔ Sees s c e) ∧
      visible.Pairwise fun older newer => older.id < newer.id := by
  obtain ⟨newestFirst, hscan, hmem, hsorted⟩ := scanEntries_spec hinv stored (le_refl s.entries.size)
  refine ⟨newestFirst.reverse, by rw [visibleEntries, hscan]; rfl, ?_, ?_⟩
  · intro e
    rw [List.mem_reverse]
    exact hmem e
  · rw [List.pairwise_reverse]
    exact hsorted

variable {visible : List EntryRecord}

theorem stored_of_visibleEntries (h : visibleEntries s c = .ok visible) :
    ∃ record, s.conversations.find c = some record := by
  cases hfind : s.conversations.find c with
  | some record => exact ⟨record, rfl⟩
  | none =>
    simp only [visibleEntries, StorageState.scanEntries, StorageState.reading,
      StorageState.scanEntriesLoop, hfind, bind_eq_ok] at h
    obtain ⟨_, hscan, -⟩ := h
    split at hscan
    · cases hscan
    · simp [StorageState.noConversation] at hscan

theorem inherits_trans {a b : ConversationId} {cut cut' : EntryId}
    (h : s.Inherits c a cut) (h' : s.Inherits a b cut') : s.Inherits c b cut' := by
  induction h with
  | direct stored edge => exact .through stored edge h'
  | through stored edge _ ih => exact .through stored edge (ih h')

/-- What the conversation of a visible entry sees below that entry is visible too. -/
theorem Sees.below {e target : EntryRecord}
    (h : Sees s c e) (htgt : Sees s e.conversationId target) (hle : target.id ≤ e.id) : Sees s c target := by
  rcases h with ⟨-, hown, -⟩ | ⟨a, cut, hinherits, -, hown, hcut⟩
  · rw [hown] at htgt
    exact htgt
  rw [hown] at htgt
  rcases htgt with ⟨hstored, htargetOwn, -⟩ | ⟨b, cut', hinherits', hbelow⟩
  · refine Or.inr ⟨a, cut, hinherits, hstored, htargetOwn, ?_⟩
    intro at_ hat
    exact hle.trans (hcut at_ hat)
  · exact Or.inr ⟨b, cut', inherits_trans hinherits hinherits', hbelow⟩

theorem sees_of_entryVisibleLoop {entry : EntryRecord} {fuel : Nat} {cutoff : Option EntryId}
    {visited : List ConversationId}
    (h : StorageState.entryVisibleLoop s.conversations entry entry.id fuel c cutoff visited = true) :
    (entry.conversationId = c ∧ ∀ at_, cutoff = some at_ → entry.id ≤ at_) ∨
      ∃ a at_, s.Inherits c a at_ ∧ entry.conversationId = a ∧ entry.id ≤ at_ := by
  induction fuel generalizing c cutoff visited with
  | zero => cases h
  | succ fuel ih =>
    simp only [StorageState.entryVisibleLoop] at h
    split at h
    · cases h
    split at h
    · cases h
    next conversation hstored =>
    split at h
    · next hown =>
      refine Or.inl ⟨hown, ?_⟩
      intro at_ hat
      simpa [hat] using h
    split at h
    · cases h
    next parent hpar =>
    refine Or.inr ?_
    rcases ih h with ⟨hown, hcut⟩ | ⟨a, at_, hinherits, hown, hcut⟩
    · exact ⟨_, _, .direct hstored hpar, hown, hcut _ rfl⟩
    · exact ⟨a, at_, .through hstored hpar hinherits, hown, hcut⟩

theorem sees_of_entryVisible (hinv : s.Transcript) {id : EntryId} (h : s.entryVisible c id = true):
    ∃ stored, s.entries.find id = some stored ∧ Sees s c stored.record := by
  unfold StorageState.entryVisible at h
  split at h
  · cases h
  next stored hstored =>
  have hid : stored.record.id = id := hinv.entryId id stored hstored
  refine ⟨stored, hstored, ?_⟩
  rw [← hid] at h hstored
  rcases sees_of_entryVisibleLoop h with ⟨hown, -⟩ | ⟨a, at_, hinherits, hown, hcut⟩
  · exact Or.inl ⟨⟨_, hstored⟩, hown, by simp⟩
  · exact Or.inr ⟨a, at_, hinherits, ⟨_, hstored⟩, hown, by simpa using hcut⟩

theorem entryVisibleLoop_of_sees (entry : EntryRecord) {n : Nat}
    (hdepth : StorageState.Depth s.conversations n c) (fuel : Nat)
    (hfuel : n < fuel) (cutoff : Option EntryId) (visited : List ConversationId)
    (hvisited : ∀ v ∈ visited, ∃ k, n < k ∧ StorageState.Depth s.conversations k v)
    (h : (entry.conversationId = c ∧ ∀ at_, cutoff = some at_ → entry.id ≤ at_) ∨
      ∃ a at_, s.Inherits c a at_ ∧ entry.conversationId = a ∧ entry.id ≤ at_) :
    StorageState.entryVisibleLoop s.conversations entry entry.id fuel c cutoff visited = true := by
  induction hdepth generalizing fuel cutoff visited with
  | @root c record stored top =>
    obtain ⟨fuel, rfl⟩ := Nat.exists_eq_succ_of_ne_zero (show fuel ≠ 0 by omega)
    have hfresh : visited.contains c = false := StorageState.Depth.fresh (.root stored top) hvisited
    simp only [StorageState.entryVisibleLoop, hfresh, stored, top]
    rcases h with ⟨hown, hcut⟩ | ⟨a, at_, hinherits, -⟩
    · cases cutoff with
      | none => simp [hown]
      | some at_ => simpa [hown] using hcut at_ rfl
    · simp [StorageState.inherits_iff_of_stored stored, top] at hinherits
  | @child c record parent n stored edge above ih =>
    obtain ⟨fuel, rfl⟩ := Nat.exists_eq_succ_of_ne_zero (show fuel ≠ 0 by omega)
    have hself : StorageState.Depth s.conversations (n + 1) c := .child stored edge above
    have hfresh : visited.contains c = false := hself.fresh hvisited
    simp only [StorageState.entryVisibleLoop, hfresh, stored, edge]
    rcases h with ⟨hown, hcut⟩ | ⟨a, at_, hinherits, hown, hcut⟩
    · cases cutoff with
      | none => simp [hown]
      | some at_ => simpa [hown] using hcut at_ rfl
    have hother : entry.conversationId ≠ c := by
      rintro rfl
      obtain ⟨k, hk, hka⟩ := hinherits.depth_lt hself
      have := hka.unique (hown ▸ hself)
      omega
    rw [if_neg hother]
    apply ih fuel (by omega)
    · exact hself.above_visited hvisited
    obtain ⟨parent', hpar, hcase⟩ := (StorageState.inherits_iff_of_stored stored a at_).1 hinherits
    rw [edge] at hpar
    cases hpar
    rcases hcase with ⟨rfl, rfl⟩ | habove
    · exact Or.inl ⟨hown, by simpa using hcut⟩
    · exact Or.inr ⟨a, at_, habove, hown, hcut⟩

theorem entryVisible_of_sees (hinv : s.Transcript) (stored : s.conversations.find c = some record) {e : EntryRecord}
    (h : Sees s c e) : s.entryVisible c e.id = true := by
  obtain ⟨n, hn, hdepth⟩ := hinv.depth c record stored
  have hwalk := entryVisibleLoop_of_sees e hdepth (s.conversations.size + 1) (by omega)
    none [] (by simp)
  unfold StorageState.entryVisible
  rcases h with ⟨⟨commitSeq, hfind⟩, hown, -⟩ | ⟨a, at_, hinherits, ⟨commitSeq, hfind⟩, hown, hcut⟩
  · rw [hfind]
    exact hwalk (Or.inl ⟨hown, by simp⟩)
  · rw [hfind]
    exact hwalk (Or.inr ⟨a, at_, hinherits, hown, hcut at_ rfl⟩)

theorem stored_of_entryVisible {id : EntryId} (h : s.entryVisible c id = true) :
    ∃ record, s.conversations.find c = some record := by
  unfold StorageState.entryVisible at h
  split at h
  · cases h
  cases hfind : s.conversations.find c with
  | some record => exact ⟨record, rfl⟩
  | none => simp [StorageState.entryVisibleLoop, hfind] at h

/-- A scan of a reachable state fails only for a conversation that is not stored. -/
theorem scanEntries_result (hinv : s.Transcript) (c : ConversationId) (limit : Nat) :
    (s.conversations.find c = none ∧ s.scanEntries c limit = StorageState.noConversation c) ∨
      ∃ record entries, s.conversations.find c = some record ∧ s.scanEntries c limit = .ok entries := by
  cases hfind : s.conversations.find c with
  | none =>
    refine Or.inl ⟨rfl, ?_⟩
    simp [StorageState.scanEntries, StorageState.reading, hinv.isOpen, StorageState.scanEntriesLoop, hfind]
    rfl
  | some record =>
    obtain ⟨n, hn, hdepth⟩ := hinv.depth c record hfind
    obtain ⟨visible, hloop, -⟩ := StorageState.scanEntriesLoop_spec hinv hdepth (s.conversations.size + 1) (by omega)
      none [] (by simp)
    have hscan : ∃ entries, s.scanEntries c limit = .ok entries := by
      rw [StorageState.scanEntries, StorageState.reading, hinv.isOpen, hloop]
      exact ⟨_, rfl⟩
    obtain ⟨entries, hents⟩ := hscan
    exact Or.inr ⟨record, entries, rfl, hents⟩

/-- **The check of a write and a scan agree.** The tables are those that a batch has reached after some of its
writes; with none of them they are the reachable state itself. -/
theorem entryVisible_iff_scanned {start next : StorageState} (hreach : start.Reachable) {batch writes : List StorageWrite}
    {seq : Seq} {consumeSeq : Bool}
    (hnext : StorageState.applyWrites start.documents batch seq consumeSeq start writes = .ok next) (c : ConversationId) :
    (∀ limit, (next.conversations.find c = none ∧ next.scanEntries c limit = StorageState.noConversation c) ∨
        ∃ entries, next.scanEntries c limit = .ok entries) ∧
      ∀ limit, next.entries.size ≤ limit → ∀ id, next.entryVisible c id = true ↔
        ∃ entries, next.scanEntries c limit = .ok entries ∧ ∃ e ∈ entries, e.id = id := by
  have hinv : next.Transcript :=
    StorageState.applyWrites_induction (fun _ _ _ _ hwrite h => h.applyWrite hwrite) hreach.transcript hnext
  refine ⟨fun limit => (scanEntries_result hinv c limit).imp_right fun ⟨_, entries, _, hscan⟩ => ⟨entries, hscan⟩, ?_⟩
  intro limit hlimit id
  constructor
  · intro hvisible
    obtain ⟨stored, hstored, hsees⟩ := sees_of_entryVisible hinv hvisible
    obtain ⟨record, hrecord⟩ := stored_of_entryVisible hvisible
    obtain ⟨entries, hscan, hmem, -⟩ := scanEntries_spec hinv hrecord hlimit
    exact ⟨entries, hscan, stored.record, (hmem _).2 hsees, hinv.entryId id stored hstored⟩
  rintro ⟨entries, hscan, e, he, rfl⟩
  rcases scanEntries_result hinv c limit with ⟨-, hnone⟩ | ⟨record, -, hrecord, -⟩
  · rw [hnone] at hscan
    cases hscan
  obtain ⟨entries', hscan', hmem, -⟩ := scanEntries_spec hinv hrecord hlimit
  cases hscan.symm.trans hscan'
  exact entryVisible_of_sees hinv hrecord ((hmem e).1 he)

theorem entryVisible_iff_scanned_nestedFork :
    (∃ entries, StorageState.nestedFork.scanEntries 6 3 = .ok entries ∧ ∃ e ∈ entries, e.id = 4) ∧
      StorageState.nestedFork.entryVisible 6 4 = true := by
  have hagree := (@entryVisible_iff_scanned _ _ StorageState.nestedFork_reachable [] [] 1 true rfl 6).2 3 (by decide) 4
  have hvisible : StorageState.nestedFork.entryVisible 6 4 = true := by decide
  exact ⟨hagree.1 hvisible, hvisible⟩

/-! ## Later tables -/

/-- The second tables come later: they keep every conversation and every entry, and their other
entries have identities from `bound` on. -/
structure Later (bound : EntryId) (a b : StorageState) : Prop where
  conversations : ∀ c record, a.conversations.find c = some record → b.conversations.find c = some record
  entries : ∀ id stored, a.entries.find id = some stored → b.entries.find id = some stored
  fresh : ∀ id stored, b.entries.find id = some stored → a.entries.find id = some stored ∨ bound ≤ id

theorem Later.refl (bound : EntryId) (a : StorageState) : Later bound a a where
  conversations _ _ h := h
  entries _ _ h := h
  fresh _ _ h := Or.inl h

variable {bound t low : EntryId}

theorem Later.trans {bound' : EntryId} {a b d : StorageState} (hab : Later bound a b)
    (hbd : Later bound' b d) (hle : bound ≤ bound') : Later bound a d where
  conversations c record h := hbd.conversations c record (hab.conversations c record h)
  entries id stored h := hbd.entries id stored (hab.entries id stored h)
  fresh id stored h := by
    rcases hbd.fresh id stored h with h | h
    · exact hab.fresh id stored h
    · exact Or.inr (hle.trans h)

section Later

variable {a b : StorageState}

theorem Later.inherits (h : Later bound a b) {x : ConversationId} {cut : EntryId}
    (hinherits : a.Inherits c x cut) : b.Inherits c x cut := by
  induction hinherits with
  | direct stored edge => exact .direct (h.conversations _ _ stored) edge
  | through stored edge _ ih => exact .through (h.conversations _ _ stored) edge ih

/-- A stored conversation has its whole ancestry stored, so it inherits nothing new. -/
theorem Later.inherits_old (h : Later bound a b) {n : Nat} {x : ConversationId} {cut : EntryId}
    (hdepth : StorageState.Depth a.conversations n c) (hinherits : b.Inherits c x cut) : a.Inherits c x cut := by
  induction hinherits generalizing n with
  | direct stored edge =>
    cases hdepth with
    | root stored' top =>
      rw [h.conversations _ _ stored'] at stored
      cases stored
      rw [top] at edge
      cases edge
    | child stored' edge' above =>
      rw [h.conversations _ _ stored'] at stored
      cases stored
      exact .direct stored' edge
  | through stored edge _ ih =>
    cases hdepth with
    | root stored' top =>
      rw [h.conversations _ _ stored'] at stored
      cases stored
      rw [top] at edge
      cases edge
    | child stored' edge' above =>
      rw [h.conversations _ _ stored'] at stored
      cases stored
      rw [edge] at edge'
      cases edge'
      exact .through stored' edge (ih above)

variable {e : EntryRecord} {cutoff : Option EntryId}

theorem Later.ownBelow (h : Later bound a b) (hown : a.OwnBelow c cutoff e) : b.OwnBelow c cutoff e := by
  obtain ⟨⟨commitSeq, hstored⟩, hrest⟩ := hown
  exact ⟨⟨commitSeq, h.entries _ _ hstored⟩, hrest⟩

theorem Later.ownBelow_old (h : Later bound a b) (hid : e.id < bound) (hown : b.OwnBelow c cutoff e) :
    a.OwnBelow c cutoff e := by
  obtain ⟨⟨commitSeq, hstored⟩, hrest⟩ := hown
  rcases h.fresh _ _ hstored with hold | hnew
  · exact ⟨⟨commitSeq, hold⟩, hrest⟩
  · exact absurd hid (not_lt.2 hnew)

theorem Later.sees (h : Later bound a b) (hsees : Sees a c e) : Sees b c e := by
  rcases hsees with hown | ⟨x, cut, hinherits, hown⟩
  · exact Or.inl (h.ownBelow hown)
  · exact Or.inr ⟨x, cut, h.inherits hinherits, h.ownBelow hown⟩

/-- Below the bound, a stored conversation sees the same entries later on. -/
theorem Later.sees_iff (h : Later bound a b) (hinv : a.Transcript)
    {record : ConversationRecord} (stored : a.conversations.find c = some record)
    (hid : e.id < bound) : Sees b c e ↔ Sees a c e := by
  constructor
  · obtain ⟨n, -, hdepth⟩ := hinv.depth c record stored
    rintro (hown | ⟨x, cut, hinherits, hown⟩)
    · exact Or.inl (h.ownBelow_old hid hown)
    · exact Or.inr ⟨x, cut, h.inherits_old hdepth hinherits, h.ownBelow_old hid hown⟩
  · exact h.sees

end Later

/-! ## The selected entries -/

theorem upTo_eq_filter (hsorted : visible.Pairwise fun older newer => older.id < newer.id)
    (ht : ∃ e ∈ visible, e.id = t) : upTo c visible (some t) = .ok (visible.filter fun e => decide (e.id ≤ t)) := by
  have hindex : ∃ index, (visible.findIdx? fun e => e.id == t) = some index ∧
      visible.take (index + 1) = visible.filter fun e => decide (e.id ≤ t) := by
    induction visible with
    | nil =>
      obtain ⟨e, he, -⟩ := ht
      cases he
    | cons first rest ih =>
      rw [List.pairwise_cons] at hsorted
      by_cases hfirst : first.id = t
      · refine ⟨0, by simp [List.findIdx?_cons, hfirst], ?_⟩
        have hrest : (rest.filter fun e => decide (e.id ≤ t)) = [] := by
          rw [List.filter_eq_nil_iff]
          intro e he
          have := hsorted.1 e he
          simpa [hfirst] using this
        simp [hfirst, hrest]
      obtain ⟨e, he, het⟩ := ht
      have herest : e ∈ rest := by
        rcases List.mem_cons.1 he with rfl | he
        · exact absurd het hfirst
        · exact he
      obtain ⟨index, hidx, htake⟩ := ih hsorted.2 ⟨e, herest, het⟩
      refine ⟨index + 1, by simp [List.findIdx?_cons, hfirst, hidx], ?_⟩
      have hle : first.id ≤ t := het ▸ (hsorted.1 e herest).le
      rw [List.take_succ_cons, htake, List.filter_cons_of_pos (by simpa using hle)]
  obtain ⟨index, hidx, htake⟩ := hindex
  simp only [upTo, hidx, htake]

theorem sorted_ext {xs ys : List EntryRecord} (hxs : xs.Pairwise fun older newer => older.id < newer.id)
    (hys : ys.Pairwise fun older newer => older.id < newer.id) (h : ∀ e, e ∈ xs ↔ e ∈ ys) : xs = ys := by
  have hnodup : ∀ {l : List EntryRecord}, (l.Pairwise fun older newer => older.id < newer.id) →
      l.Nodup := fun hl => hl.imp fun hlt heq => absurd (congrArg EntryRecord.id heq) hlt.ne
  apply List.Perm.eq_of_pairwise _ hxs hys ((List.perm_ext_iff_of_nodup (hnodup hxs) (hnodup hys)).2 h)
  intro x y _ _ hxy hyx
  exact absurd hxy (not_lt.2 hyx.le)

/-- The entries a view at `t` is made of. -/
def selectedAt (s : StorageState) (c : ConversationId) (t : EntryId) : List EntryRecord :=
  ((visibleEntries s c).toOption.getD []).filter fun e => decide (e.id ≤ t)

/-- **The selection is final.** Later tables select the same entries up to `t`. -/
theorem Later.selectedAt_eq {a b : StorageState} (h : Later bound a b) (ha : a.Transcript) (hb : b.Transcript)
    (stored : a.conversations.find c = some record) (ht : t < bound) : selectedAt b c t = selectedAt a c t := by
  obtain ⟨before, hprev, hmemBefore, hsortedBefore⟩ := visibleEntries_spec ha stored
  obtain ⟨after, hafter, hmemAfter, hsortedAfter⟩ := visibleEntries_spec hb (h.conversations c record stored)
  simp only [selectedAt, hprev, hafter, Except.toOption, Option.getD_some]
  apply sorted_ext (hsortedAfter.filter _) (hsortedBefore.filter _)
  intro e
  simp only [List.mem_filter, decide_eq_true_eq, hmemAfter, hmemBefore]
  constructor
  · rintro ⟨hsees, hle⟩
    exact ⟨(h.sees_iff ha stored (lt_of_le_of_lt hle ht)).1 hsees, hle⟩
  · rintro ⟨hsees, hle⟩
    exact ⟨h.sees hsees, hle⟩

/-! ## Stored entries are in order -/

/-- What the tables of a Session keep: every entry is below the next identity, a head names an entry
that is not newer and that the conversation of its own entry sees, and an edit has an older target. -/
structure InOrder (s : StorageState) : Prop where
  transcript : s.Transcript
  minted : ∀ id stored, s.entries.find id = some stored → id < s.nextId
  heads : ∀ id stored target, s.entries.find id = some stored → stored.record.head = some target →
    target ≤ id ∧ ∃ found, s.entries.find target = some found ∧ Sees s stored.record.conversationId found.record
  edits : ∀ id stored edit, s.entries.find id = some stored → edit ∈ stored.record.edits → edit.target < id

theorem inOrder_initial (closedMessage : Bytes) : InOrder { closedMessage := closedMessage } where
  transcript := (StorageState.Reachable.initial closedMessage).transcript
  minted _ _ h := by simp at h
  heads _ _ _ h := by simp at h
  edits _ _ _ h := by simp at h

theorem InOrder.advanced (h : InOrder s) (count : Nat) : InOrder (s.advanced count) where
  transcript := h.transcript.congr rfl rfl rfl rfl
  minted id stored hfind := lt_of_lt_of_le (h.minted id stored hfind) (by
    simp [StorageState.advanced])
  heads := by
    intro id stored target hfind hhead
    obtain ⟨hle, found, hfound, hsees⟩ := h.heads id stored target hfind hhead
    refine ⟨hle, found, hfound, ?_⟩
    have hlater : Later 0 s (s.advanced count) := ⟨fun _ _ h => h, fun _ _ h => h, fun _ _ h => Or.inl h⟩
    exact hlater.sees hsees
  edits := h.edits

def entryOf : StorageWrite → Option EntryRecord
  | .entry record => record
  | _ => none

/-- The identities of the entries of a batch, in order. -/
def entryIdsOf (writes : List StorageWrite) : List EntryId := (writes.filterMap entryOf).map EntryRecord.id

section Step

variable {documents : OrdMap DocumentId StoredDocumentState} {batch : List StorageWrite} {seq : Seq}
  {consumeSeq : Bool} {next next' : StorageState}

theorem checkEdits_visible {edits : List ContextEdit}
    (h : StorageState.checkEdits next c edits = .ok ()) {edit : ContextEdit} (hedit : edit ∈ edits) :
    next.entryVisible c edit.target = true := by
  induction edits with
  | nil => cases hedit
  | cons first rest ih =>
    simp only [StorageState.checkEdits, bind_eq_ok] at h
    obtain ⟨_, hvisible, _, -, hrest⟩ := h
    rcases List.mem_cons.1 hedit with rfl | hedit
    · simpa using hvisible
    · exact ih hrest hedit

variable {write : StorageWrite}

/-- A write adds its entry, with a head and with edit targets its conversation sees, or no entry at
all. -/
theorem applyWrite_entry (h : StorageState.applyWrite documents batch seq consumeSeq next write = .ok next') :
    (∃ record, entryOf write = some record ∧ next.entries.find record.id = none ∧
        StorageState.headHidden next record = false ∧
        (∀ edit ∈ record.edits, next.entryVisible record.conversationId edit.target = true) ∧
        next'.conversations = next.conversations ∧ next'.entries = next.entries.insert record.id ⟨record, seq⟩) ∨
      (entryOf write = none ∧ next'.entries = next.entries ∧ ∀ c record, next.conversations.find c = some record →
          next'.conversations.find c = some record) := by
  cases StorageState.applied h
  case entry r hnew hhead hedits =>
    rw [OrdMap.contains_eq_false_iff] at hnew
    exact Or.inl ⟨r, rfl, hnew, hhead, fun _ hedit => checkEdits_visible hedits hedit, rfl, rfl⟩
  case conversation r hnew hpar =>
    rw [OrdMap.contains_eq_false_iff] at hnew
    refine Or.inr ⟨rfl, rfl, fun c found hfound => ?_⟩
    have hne : c ≠ r.id := by
      rintro rfl
      rw [hnew] at hfound
      cases hfound
    rw [find_insert, if_neg hne, hfound]
  all_goals exact Or.inr ⟨rfl, rfl, fun _ _ h => h⟩

theorem later_applyWrite (h : StorageState.applyWrite documents batch seq consumeSeq next write = .ok next')
    (hbound : ∀ record, entryOf write = some record → bound ≤ record.id) : Later bound next next' := by
  rcases applyWrite_entry h with ⟨record, hentry, hnew, -, -, hconvs, hents⟩ | ⟨-, hents, hconvs⟩
  · refine ⟨by rw [hconvs]; exact fun _ _ h => h, ?_, ?_⟩
    · intro id stored hfind
      have hne : id ≠ record.id := by
        rintro rfl
        rw [hnew] at hfind
        cases hfind
      rw [hents, find_insert, if_neg hne, hfind]
    · intro id stored hfind
      rw [hents, find_insert] at hfind
      split at hfind
      · next hid =>
        subst hid
        exact Or.inr (hbound record hentry)
      · exact Or.inl hfind
  · exact ⟨hconvs, by rw [hents]; exact fun _ _ h => h, by rw [hents]; exact fun _ _ h => Or.inl h⟩

theorem InOrder.applyWrite (hinv : InOrder next)
    (h : StorageState.applyWrite documents batch seq consumeSeq next write = .ok next')
    (hnewer : ∀ record, entryOf write = some record →
      ∀ id stored, next.entries.find id = some stored → id < record.id) : InOrder next' := by
  have htrans : next'.Transcript := hinv.transcript.applyWrite h
  have hnext : next.nextId ≤ next'.nextId := applyWrite_nextId h
  have hlater : ∀ bound, (∀ record, entryOf write = some record → bound ≤ record.id) →
      Later bound next next' := fun bound hbound => later_applyWrite h hbound
  rcases applyWrite_entry h with ⟨record, hentry, hnew, hhead, hedits, hconvs, hents⟩ | ⟨hentry, hents, -⟩
  · have hkept : Later record.id next next' := hlater record.id (by
      intro other hother
      rw [hentry] at hother
      cases hother
      exact le_refl _)
    have hself : next'.entries.find record.id = some ⟨record, seq⟩ := by
      rw [hents, OrdMap.find_insert_self]
    refine ⟨htrans, ?_, ?_, ?_⟩
    · intro id stored hfind
      rw [hents, find_insert] at hfind
      split at hfind
      · next hid =>
        subst hid
        refine StorageState.applyWrite_recordId h ?_
        cases write <;> simp_all [entryOf, StorageWrite.recordId]
      · exact lt_of_lt_of_le (hinv.minted id stored hfind) hnext
    · intro id stored target hfind htgt
      rw [hents] at hfind
      rcases find_insert_cases hfind with ⟨rfl, rfl⟩ | hfind
      · have hrec : record.head = some target := htgt
        simp only [StorageState.headHidden, hrec, Option.any_some, Bool.and_eq_false_iff,
          bne_eq_false_iff_eq, Bool.not_eq_false'] at hhead
        rcases hhead with rfl | hvisible
        · exact ⟨le_refl _, _, hself, Or.inl ⟨⟨seq, hself⟩, rfl, by simp⟩⟩
        · obtain ⟨found, hfound, hsees⟩ := sees_of_entryVisible hinv.transcript hvisible
          exact ⟨(hnewer record hentry target found hfound).le, found, hkept.entries _ _ hfound, hkept.sees hsees⟩
      · obtain ⟨hle, found, hfound, hsees⟩ := hinv.heads id stored target hfind htgt
        exact ⟨hle, found, hkept.entries _ _ hfound, hkept.sees hsees⟩
    · intro id stored edit hfind hedit
      rw [hents] at hfind
      rcases find_insert_cases hfind with ⟨rfl, rfl⟩ | hfind
      · obtain ⟨found, hfound, -⟩ := sees_of_entryVisible hinv.transcript (hedits edit hedit)
        exact hnewer record hentry edit.target found hfound
      · exact hinv.edits id stored edit hfind hedit
  · have hkept : Later 0 next next' := hlater 0 (by simp [hentry])
    refine ⟨htrans, ?_, ?_, by rw [hents]; exact hinv.edits⟩
    · intro id stored hfind
      rw [hents] at hfind
      exact lt_of_lt_of_le (hinv.minted id stored hfind) hnext
    intro id stored target hfind htgt
    rw [hents] at hfind
    obtain ⟨hle, found, hfound, hsees⟩ := hinv.heads id stored target hfind htgt
    exact ⟨hle, found, hkept.entries _ _ hfound, hkept.sees hsees⟩

/-- A list of writes whose entries have rising identities above every stored one. -/
theorem InOrder.applyWrites {writes : List StorageWrite} (hinv : InOrder next) (bound : EntryId)
    (h : StorageState.applyWrites documents batch seq consumeSeq next writes = .ok next')
    (hsorted : (entryIdsOf writes).Pairwise (· < ·)) (hbound : ∀ id ∈ entryIdsOf writes, bound ≤ id)
    (hnewer : ∀ new ∈ entryIdsOf writes, ∀ id stored, next.entries.find id = some stored →
      id < new) : InOrder next' ∧ Later bound next next' := by
  induction writes generalizing next with
  | nil =>
    simp only [StorageState.applyWrites, Except.ok.injEq] at h
    exact h ▸ ⟨hinv, .refl bound _⟩
  | cons write rest ih =>
    obtain ⟨updated, hwrite, hrest⟩ := StorageState.applyWrites_cons_eq_ok.1 h
    have hfirst : ∀ record, entryOf write = some record →
        entryIdsOf (write :: rest) = record.id :: entryIdsOf rest := by
      intro record hrec
      simp [entryIdsOf, hrec]
    have hmem : ∀ id ∈ entryIdsOf rest, id ∈ entryIdsOf (write :: rest) := by
      intro id hid
      cases hentry : entryOf write with
      | none => simpa [entryIdsOf, hentry] using hid
      | some record =>
        rw [hfirst record hentry]
        exact List.mem_cons_of_mem _ hid
    have hstep : InOrder updated := hinv.applyWrite hwrite (by
      intro record hrec
      exact hnewer record.id (by simp [hfirst record hrec]))
    have hlater : Later bound next updated := later_applyWrite hwrite (by
      intro record hrec
      exact hbound record.id (by simp [hfirst record hrec]))
    have hsortedRest : (entryIdsOf rest).Pairwise (· < ·) := by
      cases hentry : entryOf write with
      | none => simpa [entryIdsOf, hentry] using hsorted
      | some record =>
        rw [hfirst record hentry] at hsorted
        exact hsorted.of_cons
    have hnewerRest : ∀ new ∈ entryIdsOf rest, ∀ id stored, updated.entries.find id = some stored → id < new := by
      intro new hnew id stored hfind
      rcases applyWrite_entry hwrite with ⟨record, hrec, -, -, -, -, hents⟩ | ⟨-, hents, -⟩
      · rw [hents, find_insert] at hfind
        split at hfind
        · next hid =>
          subst hid
          rw [hfirst record hrec, List.pairwise_cons] at hsorted
          exact hsorted.1 new hnew
        · exact hnewer new (hmem new hnew) id stored hfind
      · rw [hents] at hfind
        exact hnewer new (hmem new hnew) id stored hfind
    obtain ⟨hdone, hrestLater⟩ := ih hstep hrest hsortedRest (fun id hid => hbound id (hmem id hid)) hnewerRest
    exact ⟨hdone, hlater.trans hrestLater (le_refl _)⟩

end Step

/-! ## Staged entries -/

/-- An action of a callback that stages no entry. -/
def StagesNone {α : Type} (x : WorkAction α) : Prop := ∀ ids, Ensures (fun w => entryIdsOf w.tx.writes = ids) x
    (fun _ w => entryIdsOf w.tx.writes = ids) fun w => entryIdsOf w.tx.writes = ids

section StagesNone

variable {α β : Type}

theorem stagesNone_pure (a : α) : StagesNone (pure a) := fun _ => ensures_pure fun _ h => h

theorem stagesNone_throw (e : Error) : StagesNone (throw e : WorkAction α) := fun _ => ensures_throw fun _ h => h

theorem stagesNone_get : StagesNone (get : WorkAction Work) := fun _ => ensures_get fun _ h => h

theorem stagesNone_check (x : Expected α) : StagesNone (Session.check x : WorkAction α) :=
  fun _ => ensures_ofExcept (fun _ _ _ h => h) fun _ h => h

theorem StagesNone.bind {x : WorkAction α} {f : α → WorkAction β} (hx : StagesNone x)
    (hf : ∀ a, StagesNone (f a)) : StagesNone (x >>= f) :=
  fun ids => (hx ids).bind fun a => hf a ids

theorem stagesNone_onSession (x : SessionAction α) : StagesNone (onSession x) := by
  intro ids w hw
  unfold onSession zoom
  cases x w.session with
  | ok a s | error e s => exact hw

theorem stagesNone_modify {f : Work → Work} (h : ∀ w, entryIdsOf (f w).tx.writes = entryIdsOf w.tx.writes) :
    StagesNone (modify f : WorkAction PUnit) :=
  fun _ => ensures_modify fun w hw => (h w).trans hw

theorem stagesNone_push {writes : List StorageWrite} (h : ∀ write ∈ writes, entryOf write = none) :
    StagesNone (Transaction.push writes) := by
  apply stagesNone_modify
  intro w
  have hnone : writes.filterMap entryOf = [] := List.filterMap_eq_nil_iff.2 h
  simp [entryIdsOf, hnone]

end StagesNone

theorem entryOf_copyWrites (conversation : ConversationId) (copies : List Transaction.Copy) :
    Ensures (fun _ => True) (Transaction.copyWrites conversation copies)
      (fun writes _ => ∀ write ∈ writes, entryOf write = none) fun _ => True := by
  induction copies with
  | nil => exact ensures_pure fun _ _ => by simp
  | cons copy rest ih =>
    refine Ensures.bind (Q := fun _ _ => True) ?_ fun id => ih.bind fun writes => ?_
    · intro s _
      unfold Session.mintId
      split <;> trivial
    apply ensures_pure
    intro s hwrites write hwrite
    rcases List.mem_cons.1 hwrite with rfl | hwrite
    · rfl
    · exact hwrites write hwrite

theorem stagesNone_forkConversation (parent : ConversationId) (at_ : EntryId) :
    StagesNone (Transaction.forkConversation parent at_) := by
  refine stagesNone_get.bind fun w => (stagesNone_check _).bind fun copies =>
    (stagesNone_onSession _).bind fun id => ?_
  intro ids
  -- The copies are staged together with the conversation, and none of them is an entry.
  have hcopies : Ensures (fun w => entryIdsOf w.tx.writes = ids) (onSession (Transaction.copyWrites id copies))
      (fun writes w => entryIdsOf w.tx.writes = ids ∧ ∀ write ∈ writes, entryOf write = none)
      fun w => entryIdsOf w.tx.writes = ids := by
    refine Ensures.zoom fun t ht => ?_
    refine (entryOf_copyWrites id copies).mono (fun _ _ => trivial) ?_ fun _ _ => ht
    intro writes s hwrites
    exact ⟨ht, hwrites⟩
  refine hcopies.bind fun writes => ?_
  rintro w ⟨hw, hwrites⟩
  refine stagesNone_push ?_ ids w hw
  intro write hwrite
  rcases List.mem_cons.1 hwrite with rfl | hwrite
  · rfl
  · exact hwrites write hwrite

theorem stagesNone_acquire (definition : DocumentDefinition) (address : DocumentAddress)
    (initial : Value) : StagesNone (Transaction.acquire definition address initial) := by
  refine stagesNone_get.bind fun w => (stagesNone_check _).bind fun _ =>
    stagesNone_get.bind fun w => ?_
  dsimp only
  split
  · exact stagesNone_pure _
  refine StagesNone.bind ?_ fun loaded => ?_
  · unfold Transaction.loadForDraft
    split
    · exact stagesNone_pure _
    · exact stagesNone_onSession _
  cases loaded with
  | some entry =>
    exact (stagesNone_check _).bind fun _ => (stagesNone_check _).bind fun _ =>
      stagesNone_modify fun _ => rfl
  | none => exact (stagesNone_onSession _).bind fun _ => stagesNone_modify fun _ => rfl

theorem stagesNone_retireDoc (definition : DocumentDefinition) (address : DocumentAddress) :
    StagesNone (Transaction.retireDoc definition address) := by
  refine (stagesNone_check _).bind fun _ => stagesNone_get.bind fun w => ?_
  split
  · split
    · exact stagesNone_pure _
    · exact (stagesNone_check _).bind fun _ => stagesNone_modify fun _ => rfl
  refine stagesNone_get.bind fun w => (stagesNone_check _).bind fun _ =>
    (stagesNone_onSession _).bind fun loaded => ?_
  cases loaded with
  | none => exact stagesNone_pure _
  | some entry => exact (stagesNone_check _).bind fun _ => stagesNone_modify fun _ => rfl

theorem entryIdsOf_task (writes : List StorageWrite) (record : TaskRecord) :
    entryIdsOf (writes ++ [.task (some record)]) = entryIdsOf writes := by
  simp [entryIdsOf, entryOf]

/-- What a callback stages: entries with rising identities from `low` on, minted before now. -/
structure StagedInOrder (low : EntryId) (w : Work) : Prop where
  sorted : (entryIdsOf w.tx.writes).Pairwise (· < ·)
  minted : ∀ id ∈ entryIdsOf w.tx.writes, low ≤ id ∧ id < w.session.storage.nextId
  later : low ≤ w.session.storage.nextId

theorem StagedInOrder.of_same {w w' : Work} (h : StagedInOrder low w)
    (hids : entryIdsOf w'.tx.writes = entryIdsOf w.tx.writes)
    (hnext : w.session.storage.nextId ≤ w'.session.storage.nextId) : StagedInOrder low w' where
  sorted := by rw [hids]; exact h.sorted
  minted := by
    intro id hid
    rw [hids] at hid
    exact ⟨(h.minted id hid).1, lt_of_lt_of_le (h.minted id hid).2 hnext⟩
  later := h.later.trans hnext

theorem StagedInOrder.appendEntry (conversationId : ConversationId) (kind : Bytes)
    (data : Json) (head : Option EntryHead) (model : List Json) (byTaskId : Option TaskId)
    (edits : List ContextEdit) :
    Ensures (StagedInOrder low) (Transaction.appendEntry conversationId kind data head model byTaskId edits)
      (fun _ => StagedInOrder low) (StagedInOrder low) := by
  refine (ensures_mint fun _ hw => hw).bind fun id => ensures_modify ?_
  rintro w ⟨u, hu, rfl, rfl⟩
  have hids : ∀ record : EntryRecord, entryIdsOf (u.tx.writes ++ [.entry (some record)])
      = entryIdsOf u.tx.writes ++ [record.id] := by
    intro record
    simp [entryIdsOf, entryOf]
  refine ⟨?_, ?_, ?_⟩
  · show (entryIdsOf (u.tx.writes ++ _)).Pairwise (· < ·)
    rw [hids]
    refine List.pairwise_append.2 ⟨hu.sorted, List.pairwise_singleton _ _, ?_⟩
    intro x hx y hy
    rw [List.mem_singleton] at hy
    subst hy
    exact (hu.minted x hx).2
  · intro id hid
    have hid' : id ∈ entryIdsOf u.tx.writes ++ [u.session.storage.nextId] := by
      refine Eq.mp (congrArg (id ∈ ·) ?_) hid
      exact hids _
    rcases List.mem_append.1 hid' with hid | hid
    · exact ⟨(hu.minted id hid).1, (hu.minted id hid).2.trans (lt_add_one _)⟩
    rw [List.mem_singleton] at hid
    subst hid
    exact ⟨hu.later, lt_add_one u.session.storage.nextId⟩
  · exact hu.later.trans (lt_add_one u.session.storage.nextId).le

variable {w : Work}

theorem stagedInOrder_call (h : StagedInOrder low w) (c : Transaction.Call) :
    StagedInOrder low (endState (Transaction.call c) w) := by
  obtain ⟨count, hstor⟩ := (effects_call w c).storage
  have hnext : w.session.storage.nextId ≤ (endState (Transaction.call c) w).session.storage.nextId := by
    rw [hstor]
    simp [StorageState.advanced]
  have hkeep : StagesNone (Transaction.call c) → StagedInOrder low (endState (Transaction.call c) w) := by
    intro hnone
    exact h.of_same ((hnone _).endState rfl) hnext
  cases c with
  | appendEntry conversationId kind data head model byTaskId edits =>
    exact (StagedInOrder.appendEntry conversationId kind data head model byTaskId edits).endState h
  | createRootConversation => exact hkeep (stagesNone_push (by simp [entryOf]))
  | createConversation =>
    exact hkeep ((stagesNone_onSession _).bind fun _ => stagesNone_push (by simp [entryOf]))
  | createOwnedConversation owner =>
    exact hkeep (stagesNone_get.bind fun _ => (stagesNone_check _).bind fun _ =>
      (stagesNone_check _).bind fun _ => (stagesNone_onSession _).bind fun _ =>
        stagesNone_push (by simp [entryOf]))
  | forkConversation parent at_ => exact hkeep (stagesNone_forkConversation parent at_)
  | doc definition address =>
    refine hkeep ((stagesNone_check _).bind fun _ => ?_)
    split
    · exact stagesNone_throw _
    · exact stagesNone_acquire definition address _
  | docFrom definition address seed =>
    refine hkeep ((stagesNone_check _).bind fun _ => ?_)
    split
    · exact stagesNone_acquire definition address _
    · exact stagesNone_throw _
  | draft index op | settleSubmission id settlement | placeSubmission id entry =>
    exact hkeep (stagesNone_modify fun _ => rfl)
  | retireDoc definition address => exact hkeep (stagesNone_retireDoc definition address)
  | createTask definition input options =>
    exact hkeep (stagesNone_get.bind fun _ => (stagesNone_check _).bind fun _ =>
      (stagesNone_onSession _).bind fun _ => stagesNone_modify fun _ => entryIdsOf_task _ _)
  | setTask record => exact hkeep (stagesNone_modify fun _ => entryIdsOf_task _ _)
  | createSubmission record =>
    exact hkeep (stagesNone_get.bind fun _ => (stagesNone_check _).bind fun _ =>
      (stagesNone_onSession _).bind fun _ => stagesNone_modify fun _ => rfl)
  | session c => exact hkeep (stagesNone_onSession _)

theorem stagedInOrder_calls (h : StagedInOrder low w) (list : List Transaction.Call) :
    StagedInOrder low (Transaction.calls w list) := by
  unfold Transaction.calls
  induction list generalizing w with
  | nil => exact h
  | cons c rest ih => exact ih (stagedInOrder_call h c)

/-! ## Runs of a Session -/

variable {assembly : Assembly}

theorem entryIdsOf_assembly
    {submissions : OrdMap SubmissionId SubmissionRecord} (h : Assembled w assembly submissions) :
    entryIdsOf assembly.writes = entryIdsOf w.tx.writes := by
  have hsubs : (submissions.values.map fun record =>
      StorageWrite.submission (some record)).filterMap entryOf = [] := by
    rw [List.filterMap_eq_nil_iff]
    intro write hwrite
    obtain ⟨record, -, rfl⟩ := List.mem_map.1 hwrite
    rfl
  have hdocs : (assembly.documents.flatMap PreparedDocument.writes).filterMap entryOf = [] := by
    rw [List.filterMap_eq_nil_iff]
    intro write hwrite
    obtain ⟨p, -, hp⟩ := List.mem_flatMap.1 hwrite
    simp only [PreparedDocument.writes, PreparedDocument.contentWrite] at hp
    split at hp <;> grind [entryOf]
  rw [h.writes]
  simp [entryIdsOf, List.filterMap_append, hsubs, hdocs]

/-- The tables of a Session, and that later ones hold only entries with identities minted later. -/
structure Follows (s t : Session) : Prop where
  inOrder : InOrder t.storage
  later : Later s.storage.nextId s.storage t.storage
  nextId : s.storage.nextId ≤ t.storage.nextId

theorem Follows.refl {s : Session} (h : InOrder s.storage) : Follows s s := ⟨h, .refl _ _, le_refl _⟩

theorem Follows.trans {s t u : Session} (hst : Follows s t) (htu : Follows t u) : Follows s u :=
  ⟨htu.inOrder, hst.later.trans htu.later hst.nextId, hst.nextId.trans htu.nextId⟩

theorem follows_advanced {s t : Session} (h : InOrder s.storage) (count : Nat)
    (hstor : t.storage = s.storage.advanced count) : Follows s t := by
  refine ⟨hstor ▸ h.advanced count, ?_, by simp [hstor, StorageState.advanced]⟩
  rw [hstor]
  exact ⟨fun _ _ h => h, fun _ _ h => h, fun _ _ h => Or.inl h⟩

/-- A settled commit only adds entries with identities minted by its callback. -/
theorem follows_committed {s : Session} {calls : List Transaction.Call}
    {storage : StorageState} (h : InOrder s.storage)
    (hc : Session.Committed s calls w assembly storage) : Follows s hc.after := by
  obtain ⟨submissions, ha⟩ := assemble_eq_ok hc.assembled
  have hstaged : StagedInOrder s.storage.nextId w := by
    rw [hc.callback]
    have hstart : StagedInOrder s.storage.nextId ⟨s, {}⟩ := ⟨by simp [entryIdsOf], by simp [entryIdsOf], le_refl _⟩
    exact stagedInOrder_calls hstart calls
  obtain ⟨count, hadvanced⟩ := (effects_calls ⟨s, {}⟩ calls).storage
  rw [← hc.callback] at hadvanced
  have hprev : Follows s w.session := follows_advanced h count hadvanced
  obtain ⟨-, next, hwrites, hnext⟩ := StorageState.applyBatch_eq_ok.1 hc.applied
  have hids := entryIdsOf_assembly ha
  have hfind : w.session.storage.entries = s.storage.entries := by
    rw [hadvanced]
    rfl
  obtain ⟨hin, hlater⟩ := hprev.inOrder.applyWrites s.storage.nextId hwrites (by rw [hids]; exact hstaged.sorted)
    (by rw [hids]; exact fun id hid => (hstaged.minted id hid).1)
    (by
      rw [hids]
      intro new hnew id stored hstored
      rw [hfind] at hstored
      exact lt_of_lt_of_le (h.minted id stored hstored) (hstaged.minted new hnew).1)
  have hraised : w.session.storage.nextId ≤ next.nextId :=
    StorageState.applyWrites_induction (P := fun t => w.session.storage.nextId ≤ t.nextId)
      (fun _ _ _ _ hwrite hle => hle.trans (applyWrite_nextId hwrite)) (le_refl _)
      hwrites
  have hstor : hc.after.storage = { next with nextSeq := storage.nextSeq } := by
    rw [Session.Committed.after, Session.settle_storage, ← hnext]
  have hkeep : Later s.storage.nextId next hc.after.storage := by
    rw [hstor]
    exact ⟨fun _ _ h => h, fun _ _ h => h, fun _ _ h => Or.inl h⟩
  refine ⟨?_, ?_, ?_⟩
  · rw [hstor] at hkeep ⊢
    refine ⟨hin.transcript.congr rfl rfl rfl rfl, hin.minted, ?_, hin.edits⟩
    intro id stored target hfound hhead
    obtain ⟨hle, found, htgt, hsees⟩ := hin.heads id stored target hfound hhead
    exact ⟨hle, found, htgt, hkeep.sees hsees⟩
  · exact (hprev.later.trans hlater (le_refl _)).trans hkeep (le_refl _)
  · rw [hstor]
    exact hprev.nextId.trans hraised

/-- **One step.** -/
theorem follows_step {s : Session} (h : InOrder s.storage) (move : Session.Step) : Follows s (s.step move) := by
  cases move with
  | commit calls returned =>
    obtain ⟨count, hadvanced⟩ := (effects_calls ⟨s, {}⟩ calls).storage
    rcases s.commitNow_cases calls returned with ⟨-, hcase⟩ | ⟨outcome, -, hcase⟩ |
      ⟨-, w, assembly, storage, hc, hcase⟩
    · rw [Session.step, hcase]
      exact .refl h
    · rcases hcase with hcase | hcase
      · rw [Session.step, hcase]
        exact follows_advanced h count hadvanced
      · rw [Session.step, hcase]
        exact follows_advanced h count hadvanced
    · rw [Session.step, hcase]
      exact follows_committed h hc
  | call c =>
    apply follows_advanced h 0
    rw [advanced_zero]
    exact Session.call_storage s c
  | reopen =>
    apply follows_advanced h 0
    rw [advanced_zero]
    rfl

/-- **A run.** -/
theorem follows_run {s : Session} (h : InOrder s.storage) (steps : List Session.Step) : Follows s (s.run steps) := by
  unfold Session.run
  induction steps generalizing s with
  | nil => exact .refl h
  | cons move rest ih =>
    have hstep := follows_step h move
    exact hstep.trans (ih hstep.inOrder)

/-! ## The view at an entry -/

/-- The entries up to a visible one have a view: a head among them names one of them. -/
theorem viewOf_selected (hinv : InOrder s) (hvisible : visibleEntries s c = .ok visible) (t : EntryId) :
    ∃ view, viewOf (visible.filter fun e => decide (e.id ≤ t)) = .ok view := by
  obtain ⟨record, hstored⟩ := stored_of_visibleEntries hvisible
  obtain ⟨list, hlist, hmem, -⟩ := visibleEntries_spec hinv.transcript hstored
  rw [hvisible] at hlist
  cases hlist
  generalize hselected : (visible.filter fun e => decide (e.id ≤ t)) = selected
  have hmember : ∀ e, e ∈ selected ↔ Sees s c e ∧ e.id ≤ t := by
    intro e
    rw [← hselected, List.mem_filter, hmem, decide_eq_true_eq]
  have hkept : ∃ kept, fromHead selected (newestHead selected) = .ok kept := by
    cases hhead : newestHead selected with
    | none => exact ⟨_, rfl⟩
    | some head =>
      have hin : head ∈ selected := List.mem_reverse.1 (List.mem_of_find?_eq_some hhead)
      have hsome : head.head.isSome = true := by simpa using List.find?_some hhead
      obtain ⟨target, htgt⟩ := Option.isSome_iff_exists.1 hsome
      obtain ⟨hsees, hle⟩ := (hmember head).1 hin
      obtain ⟨commitSeq, hfind⟩ := hsees.stored
      obtain ⟨hbelow, found, hfound, hfoundSees⟩ := hinv.heads _ _ target hfind htgt
      have hid : found.record.id = target := hinv.transcript.entryId target found hfound
      have hfoundIn : found.record ∈ selected := by
        rw [hmember, hid]
        exact ⟨hsees.below hfoundSees (hid ▸ hbelow), hbelow.trans hle⟩
      cases hdrop : selected.dropWhile fun entry => some entry.id != head.head with
      | cons first rest => exact ⟨first :: rest, by simp [fromHead, hdrop]⟩
      | nil =>
        have hall := List.dropWhile_eq_nil_iff.1 hdrop found.record hfoundIn
        rw [htgt, hid] at hall
        simp at hall
  obtain ⟨kept, hkept⟩ := hkept
  unfold viewOf
  split
  · exact ⟨_, rfl⟩
  dsimp only
  rw [hkept]
  exact ⟨_, rfl⟩

theorem contextView_at (hinv : s.Transcript) (hvisible : visibleEntries s c = .ok visible)
    (ht : ∃ e ∈ visible, e.id = t) :
    contextView s c (some t) = viewOf (visible.filter fun e => decide (e.id ≤ t)) := by
  obtain ⟨record, hstored⟩ := stored_of_visibleEntries hvisible
  obtain ⟨list, hlist, -, hsorted⟩ := visibleEntries_spec hinv hstored
  rw [hvisible] at hlist
  cases hlist
  have hselected := upTo_eq_filter (c := c) hsorted ht
  unfold contextView
  rw [hvisible]
  show (upTo c visible (some t) >>= viewOf) = _
  rw [hselected]
  rfl

/-- In a list in order, nothing is newer than the last entry. -/
theorem le_last (hsorted : visible.Pairwise fun older newer => older.id < newer.id) {last : EntryRecord}
    (hlast : visible.getLast? = some last) : ∀ e ∈ visible, e.id ≤ last.id := by
  obtain ⟨front, rfl⟩ := List.getLast?_eq_some_iff.1 hlast
  intro e he
  rcases List.mem_append.1 he with hfront | hlastIn
  · exact ((List.pairwise_append.1 hsorted).2.2 e hfront last (by simp)).le
  · rw [List.mem_singleton.1 hlastIn]

/-- The view at a visible entry is there, and stays for every Session that follows. -/
theorem Follows.contextView {now next : Session} (hafter : Follows now next) (hnow : InOrder now.storage)
    (hvisible : visibleEntries now.storage c = .ok visible) (ht : ∃ e ∈ visible, e.id = t) :
    ∃ view, contextView now.storage c (some t) = .ok view ∧ contextView next.storage c (some t) = .ok view ∧
      (visible.getLast?.map EntryRecord.id = some t → contextView now.storage c none = .ok view) := by
  obtain ⟨record, hstored⟩ := stored_of_visibleEntries hvisible
  obtain ⟨list, hlist, hmem, hsorted⟩ := visibleEntries_spec hnow.transcript hstored
  have hsame : list = visible := by
    rw [hvisible] at hlist
    cases hlist
    rfl
  subst hsame
  obtain ⟨later, hlater, hmemLater, -⟩ := visibleEntries_spec hafter.inOrder.transcript
    (hafter.later.conversations c record hstored)
  obtain ⟨view, hview⟩ := viewOf_selected hnow hvisible t
  obtain ⟨e, he, het⟩ := ht
  have hbelow : t < now.storage.nextId := by
    obtain ⟨commitSeq, hfind⟩ := ((hmem e).1 he).stored
    exact het ▸ hnow.minted _ _ hfind
  have hselected : (later.filter fun e => decide (e.id ≤ t)) = list.filter fun e => decide (e.id ≤ t) := by
    have h := hafter.later.selectedAt_eq hnow.transcript hafter.inOrder.transcript hstored hbelow
    simpa [selectedAt, hvisible, hlater, Except.toOption] using h
  have hlaterMem : e ∈ later := (hmemLater e).2 (hafter.later.sees ((hmem e).1 he))
  refine ⟨view, ?_, ?_, ?_⟩
  · rw [contextView_at hnow.transcript hvisible ⟨e, he, het⟩, hview]
  · rw [contextView_at hafter.inOrder.transcript hlater ⟨e, hlaterMem, het⟩, hselected, hview]
  · intro hlast
    -- Everything visible is older than the newest entry, so the whole list is selected.
    have hall : (list.filter fun e => decide (e.id ≤ t)) = list := by
      rw [List.filter_eq_self]
      intro other hother
      obtain ⟨last, hlastMem, rfl⟩ := Option.map_eq_some_iff.1 hlast
      exact decide_eq_true (le_last hsorted hlastMem other hother)
    rw [hall] at hview
    simp only [contextView, hvisible, upTo]
    exact hview

/-- **The context at an entry is immutable.** At any time of a run, an entry `t` that a conversation
sees has a view. After any further steps this is still the view at `t`; and if `t` was the newest
entry the conversation saw, it is the view the conversation had then. -/
theorem contextView_immutable (closedMessage : Bytes) (before after : List Session.Step)
    (c : ConversationId) (t : EntryId) (visible : List EntryRecord)
    (hvisible : visibleEntries (({ storage := { closedMessage := closedMessage } } : Session).run
      before).storage c = .ok visible) (ht : ∃ e ∈ visible, e.id = t) :
    let now := ({ storage := { closedMessage := closedMessage } } : Session).run before
    ∃ view, contextView now.storage c (some t) = .ok view ∧
      contextView (now.run after).storage c (some t) = .ok view ∧
      (visible.getLast?.map EntryRecord.id = some t → contextView now.storage c none = .ok view) := by
  intro now
  have hnow : Follows _ now := follows_run (inOrder_initial closedMessage) before
  exact (follows_run hnow.inOrder after).contextView hnow.inOrder hvisible ht

def userMessage (text : String) : Json :=
  .object (field "role" (.string "user") ++ field "content" (.string (ofString text)))

/-- A commit of one entry in the root conversation. -/
def appendRoot (text : String) (head : Option EntryHead) (edits : List ContextEdit) : Transaction.Call :=
  .appendEntry 1 "pi.user" .null head [userMessage text] none edits

/-- Two entries in the root conversation, and later a head that hides them and an edit of the
first. -/
theorem contextView_immutable_root : let start : Session := { storage := { closedMessage := [] } }
    let before : List Session.Step :=
      [.commit [.createRootConversation, appendRoot "a" none [], appendRoot "b" none []] (.ok ())]
    let after : List Session.Step := [.commit [appendRoot "c" (some .self) [⟨2, "omit", []⟩]] (.ok ())]
    ∃ view, contextView (start.run before).storage 1 (some 3) = .ok view ∧
      contextView ((start.run before).run after).storage 1 (some 3) = .ok view ∧
      contextView (start.run before).storage 1 none = .ok view := by
  intro start before after
  obtain ⟨view, hnow, hlater, hnewest⟩ := contextView_immutable [] before after 1 3
    [⟨2, 1, "pi.user", .null, none, [userMessage "a"], [], none⟩,
      ⟨3, 1, "pi.user", .null, none, [userMessage "b"], [], none⟩]
    (by decide +kernel) ⟨_, List.mem_cons_of_mem _ List.mem_cons_self, rfl⟩
  exact ⟨view, hnow, hlater, hnewest rfl⟩

end Context

end CodingHarness.Durable
