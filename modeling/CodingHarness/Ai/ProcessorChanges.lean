import CodingHarness.Library.Actions
import CodingHarness.Ai.CompletionsEvents
import Mathlib.Logic.Relation

/-!
# What a chunk can change

Every call of the processor is a sequence of small changes (`Change`), whether it returns a value or an error.
They keep the indexes of the processor at blocks of the right kind (`Shape`), so no `std::get` of the program
fails. A call that does not return stops at a fragment: its key is taken, or its id has no slot (`Ends`).
-/

namespace CodingHarness.Ai

open Library Support Agent

/-! ## Changes -/

/-- The alternatives of `AssistantContent`. -/
inductive BlockKind where
  | text
  | thinking
  | toolCall
  deriving DecidableEq

def blockKind : AssistantContent → BlockKind
  | .text _ => .text
  | .thinking _ => .thinking
  | .toolCall _ => .toolCall

namespace Processor

def kinds (s : Processor) : List BlockKind := s.assistant.content.map blockKind

theorem kinds_length (s : Processor) : s.kinds.length = s.assistant.content.length := List.length_map _

/-- The state with one more action in its list. -/
def recorded (s : Processor) (action : BlockAction) : Processor :=
  { s with steps := s.steps ++ [⟨action, s.toProcessorCore⟩] }

/-- Nothing that the routing of fragments reads is different. -/
structure Quiet (s t : Processor) : Prop where
  slots : t.toolSlots = s.toolSlots
  ids : t.toolIds = s.toolIds
  nextKey : t.nextToolKey = s.nextToolKey
  text : t.textIndex = s.textIndex
  thinking : t.thinkingIndex = s.thinkingIndex
  finished : t.blocksFinished = s.blocksFinished
  steps : t.steps = s.steps
  kinds : t.kinds = s.kinds

/-- One small change. -/
inductive Change (s : Processor) : Processor → Prop where
  | quiet {t : Processor} (h : Quiet s t) : Change s t
  | recorded (action : BlockAction) (h : ∀ index id function, action ≠ .tool index id function) :
      Change s (s.recorded action)
  | openedText (block : TextContent) :
      Change s { s with textIndex := some s.assistant.content.length, assistant := s.pushBlock (.text block) }
  | openedThinking (block : ThinkingContent) :
      Change s { s with
        thinkingIndex := some s.assistant.content.length
        assistant := s.pushBlock (.thinking block) }
  | routed (index : Option Nat) (id : Option Bytes) (function : Bool) (slot : ToolSlot) (core : ProcessorCore)
      (h : s.findOrCreateTool index id = .ok (slot, core)) :
      Change s { s.recorded (.tool index id function) with toProcessorCore := core }
  | started (slot : ToolSlot) (h : s.toolSlots.find slot.key = some slot) :
      Change s { s with toolSlots := s.toolSlots.insert slot.key { slot with startEmitted := true } }
  | ended (h : s.blocksFinished = false) :
      Change s { s with toolSlots := .empty, blocksFinished := true, finishPending := false }

abbrev Reach : Processor → Processor → Prop := Relation.ReflTransGen Change

/-! ## Shape -/

/-- The indexes of the processor point at blocks of the right kind, and no two slots at one block. -/
structure Shape (s : Processor) : Prop where
  text : ∀ i, s.textIndex = some i → s.kinds[i]? = some .text
  thinking : ∀ i, s.thinkingIndex = some i → s.kinds[i]? = some .thinking
  key : ∀ k slot, s.toolSlots.find k = some slot → slot.key = k
  tool : ∀ k slot, s.toolSlots.find k = some slot → s.kinds[slot.contentIndex]? = some .toolCall
  apart : ∀ k slot k' slot', s.toolSlots.find k = some slot → s.toolSlots.find k' = some slot' →
    slot.contentIndex = slot'.contentIndex → k = k'

theorem Quiet.shape {s t : Processor} (h : Quiet s t) (hshape : s.Shape) : t.Shape where
  text := by
    rw [h.text, h.kinds]
    exact hshape.text
  thinking := by
    rw [h.thinking, h.kinds]
    exact hshape.thinking
  key := by
    rw [h.slots]
    exact hshape.key
  tool := by
    rw [h.slots, h.kinds]
    exact hshape.tool
  apart := by
    rw [h.slots]
    exact hshape.apart

theorem kinds_concat {kinds : List BlockKind} {kind other : BlockKind} {i : Nat}
    (h : kinds[i]? = some kind) : (kinds ++ [other])[i]? = some kind := by
  obtain ⟨hlt, -⟩ := List.getElem?_eq_some_iff.1 h
  rw [List.getElem?_append_left hlt, h]

end Processor

/-- How a fragment finds its slot: by its index, by its id, or not at all. -/
inductive Found (s : ProcessorCore) (index : Option Nat) (id : Option Bytes) : Option ToolSlot → Prop where
  | byIndex (n : Nat) (slot : ToolSlot) (hindex : index = some n) (hslot : s.toolSlots.find n = some slot) :
      Found s index id (some slot)
  | byId (name : Bytes) (key : Nat) (slot : ToolSlot) (hindex : ∀ n, index = some n → s.toolSlots.find n = none)
      (hid : id = some name) (hkey : s.toolIds.find name = some key) (hslot : s.toolSlots.find key = some slot) :
      Found s index id (some slot)
  | nowhere (hindex : ∀ n, index = some n → s.toolSlots.find n = none)
      (hid : ∀ name, id = some name → s.toolIds.find name = none) : Found s index id none

theorem Found.inMap {s : ProcessorCore} {index : Option Nat} {id : Option Bytes} {slot : ToolSlot}
    (h : Found s index id (some slot)) : ∃ k, s.toolSlots.find k = some slot := by
  cases h with
  | byIndex n slot hindex hslot => exact ⟨n, hslot⟩
  | byId name key slot hindex hid hkey hslot => exact ⟨key, hslot⟩

namespace ProcessorCore

variable {s : ProcessorCore} {index : Option Nat} {id : Option Bytes}

theorem findTool_ok {found : Option ToolSlot} (h : s.findTool index id = .ok found) : Found s index id found := by
  rw [findTool] at h
  split at h
  · rename_i slot hslot
    obtain ⟨n, hindex, hfind⟩ := Option.bind_eq_some_iff.1 hslot
    cases h
    exact .byIndex n slot hindex hfind
  rename_i hnone
  have hindex : ∀ n, index = some n → s.toolSlots.find n = none := by
    rintro n rfl
    exact hnone
  split at h
  · rename_i hids
    cases h
    refine .nowhere hindex ?_
    rintro name rfl
    exact hids
  rename_i key hkey
  obtain ⟨name, hid, hfind⟩ := Option.bind_eq_some_iff.1 hkey
  split at h
  · rename_i slot hslot
    cases h
    exact .byId name key slot hindex hid hfind hslot
  · exact nomatch h

theorem rememberId_twice (ids : OrdMap Bytes Nat) (id : Option Bytes) (key : Nat) :
    rememberId (rememberId ids id key) id key = rememberId ids id key := by
  cases id with
  | none => rfl
  | some name =>
    by_cases hname : name = []
    · simp [rememberId, hname]
    simp only [rememberId, hname, if_false]
    refine OrdMap.ext_find fun x => ?_
    rw [OrdMap.find_emplace, OrdMap.find_emplace, Option.or_assoc]
    split_ifs <;> simp

/-- The new slot of `create_tool`. -/
def newSlot (s : ProcessorCore) (index : Option Nat) : ToolSlot where
  key := index.getD s.nextToolKey
  contentIndex := s.assistant.content.length
  streamIndex := index

/-- What `find_or_create_tool` does when it returns: it uses the slot it found, or one with a free key. -/
structure Routed (s : ProcessorCore) (index : Option Nat) (id : Option Bytes) (slot : ToolSlot)
    (t : ProcessorCore) : Prop where
  found : (∃ old, Found s index id (some old) ∧ slot = { old with streamIndex := old.streamIndex.or index } ∧
      t.assistant = s.assistant ∧ t.nextToolKey = s.nextToolKey) ∨
    (Found s index id none ∧ slot = s.newSlot index ∧ s.toolSlots.find slot.key = none ∧
      (∃ call, t.assistant = s.pushBlock (.toolCall call) ∧ call.rawArguments = []) ∧
      t.nextToolKey = if index.isNone then s.nextToolKey + 1 else s.nextToolKey)
  slots : t.toolSlots = s.toolSlots.insert slot.key slot
  ids : t.toolIds = rememberId s.toolIds id slot.key
  rest : t = { s with
    toolSlots := t.toolSlots
    toolIds := t.toolIds
    nextToolKey := t.nextToolKey
    assistant := t.assistant }

theorem findOrCreateTool_ok {t : ProcessorCore} {slot : ToolSlot}
    (h : s.findOrCreateTool index id = .ok (slot, t)) : Routed s index id slot t := by
  rw [findOrCreateTool] at h
  cases hfound : s.findTool index id with
  | error fault => rw [hfound] at h; exact nomatch h
  | ok found =>
    rw [hfound] at h
    have hfind := findTool_ok hfound
    cases found with
    | some old =>
      obtain ⟨rfl, rfl⟩ := Prod.mk.inj (Except.ok.inj h)
      exact ⟨Or.inl ⟨old, hfind, rfl, rfl, rfl⟩, rfl, rfl, rfl⟩
    | none =>
      simp only [createTool] at h
      cases hfree : s.toolSlots.contains (index.getD s.nextToolKey) with
      | true => rw [hfree] at h; exact nomatch h
      | false =>
        rw [hfree] at h
        obtain ⟨rfl, rfl⟩ := Prod.mk.inj (Except.ok.inj h)
        have hindex : index.or index = index := by cases index <;> rfl
        refine ⟨Or.inr ⟨hfind, ?_, ?_, ⟨_, rfl, rfl⟩, rfl⟩, ?_, ?_, rfl⟩
        · simp only [newSlot, hindex]
        · exact (OrdMap.contains_eq_false_iff _ _).1 hfree
        · refine OrdMap.ext_find fun x => ?_
          simp only [hindex, OrdMap.find_insert]
          split_ifs <;> rfl
        · exact rememberId_twice _ _ _

/-- How a fragment gets no slot: its key is taken, or its id has a key without a slot. -/
inductive Stuck (s : ProcessorCore) (index : Option Nat) (id : Option Bytes) : Fault → Prop where
  | hang (hfound : Found s index id none) (htaken : ∃ slot, s.toolSlots.find (index.getD s.nextToolKey) = some slot) :
      Stuck s index id .hang
  | thrown (name : Bytes) (key : Nat) (hindex : ∀ n, index = some n → s.toolSlots.find n = none)
      (hid : id = some name) (hkey : s.toolIds.find name = some key) (hslot : s.toolSlots.find key = none) :
      Stuck s index id .thrown

theorem findTool_error {fault : Fault} (h : s.findTool index id = .error fault) : Stuck s index id fault := by
  rw [findTool] at h
  split at h
  · exact nomatch h
  rename_i hnone
  split at h
  · exact nomatch h
  rename_i key hkey
  obtain ⟨name, hid, hfind⟩ := Option.bind_eq_some_iff.1 hkey
  split at h
  · exact nomatch h
  rename_i hslot
  obtain rfl := Except.error.inj h
  refine .thrown name key ?_ hid hfind hslot
  rintro n rfl
  exact hnone

theorem findOrCreateTool_error {fault : Fault}
    (h : s.findOrCreateTool index id = .error fault) : Stuck s index id fault := by
  rw [findOrCreateTool] at h
  cases hfound : s.findTool index id with
  | error other =>
    rw [hfound] at h
    obtain rfl := Except.error.inj h
    exact findTool_error hfound
  | ok found =>
    rw [hfound] at h
    cases found with
    | some old => exact nomatch h
    | none =>
      simp only [createTool] at h
      cases htaken : s.toolSlots.contains (index.getD s.nextToolKey) with
      | true =>
        rw [htaken] at h
        obtain rfl := Except.error.inj h
        exact .hang (findTool_ok hfound) ((OrdMap.contains_eq_true_iff _ _).1 htaken)
      | false => rw [htaken] at h; exact nomatch h

end ProcessorCore

namespace Processor

variable {s t : Processor}

/-- The slot that a fragment used is the slot of its key, at a tool call. -/
theorem routed_shape {index : Option Nat} {id : Option Bytes} {slot : ToolSlot}
    (hshape : s.Shape) (h : ProcessorCore.Routed s.toProcessorCore index id slot t.toProcessorCore) : t.Shape := by
  have hfind : ∀ k, t.toolSlots.find k = if k = slot.key then some slot else s.toolSlots.find k := fun k => by
    rw [h.slots, OrdMap.find_insert]
  have htext : t.textIndex = s.textIndex := by rw [h.rest]
  have hthink : t.thinkingIndex = s.thinkingIndex := by rw [h.rest]
  rcases h.found with ⟨old, hold, rfl, hasst, -⟩ | ⟨-, rfl, hfree, ⟨call, hasst, -⟩, -⟩
  · have hkinds : t.kinds = s.kinds := congrArg (fun message => message.content.map blockKind) hasst
    obtain ⟨k, hk⟩ := hold.inMap
    obtain rfl := hshape.key k old hk
    refine ⟨by rw [htext, hkinds]; exact hshape.text, by rw [hthink, hkinds]; exact hshape.thinking,
      fun k slot hslot => ?_, fun k slot hslot => ?_, fun k slot k' slot' hslot hslot' hsame => ?_⟩
    · rw [hfind] at hslot
      split_ifs at hslot with heq
      · rw [heq, ← Option.some.inj hslot]
      · exact hshape.key k slot hslot
    · rw [hfind] at hslot
      rw [hkinds]
      split_ifs at hslot with heq
      · rw [← Option.some.inj hslot]
        exact hshape.tool old.key old hk
      · exact hshape.tool k slot hslot
    · have hback : ∀ k slot, t.toolSlots.find k = some slot →
          ∃ before, s.toolSlots.find k = some before ∧ before.contentIndex = slot.contentIndex := by
        intro k slot hslot
        rw [hfind] at hslot
        split_ifs at hslot with heq
        · exact ⟨old, by rw [heq]; exact hk, by rw [← Option.some.inj hslot]⟩
        · exact ⟨slot, hslot, rfl⟩
      obtain ⟨before, hprev, hindex⟩ := hback k slot hslot
      obtain ⟨before', hprev', hindex'⟩ := hback k' slot' hslot'
      exact hshape.apart k before k' before' hprev hprev' (hindex.trans (hsame.trans hindex'.symm))
  · have hkinds : t.kinds = s.kinds ++ [.toolCall] := by
      rw [kinds, hasst]
      exact List.map_append
    have hnew : t.kinds[s.assistant.content.length]? = some .toolCall := by
      rw [hkinds, ← s.kinds_length, List.getElem?_concat_length]
    have hold : ∀ k slot, s.toolSlots.find k = some slot → slot.contentIndex ≠ s.assistant.content.length := by
      intro k slot hslot heq
      obtain ⟨hlt, -⟩ := List.getElem?_eq_some_iff.1 (hshape.tool k slot hslot)
      rw [heq, kinds, List.length_map] at hlt
      exact Nat.lt_irrefl _ hlt
    refine ⟨fun i hi => ?_, fun i hi => ?_, fun k slot hslot => ?_, fun k slot hslot => ?_,
      fun k slot k' slot' hslot hslot' hsame => ?_⟩
    · rw [hkinds]
      exact kinds_concat (hshape.text i (htext ▸ hi))
    · rw [hkinds]
      exact kinds_concat (hshape.thinking i (hthink ▸ hi))
    · rw [hfind] at hslot
      split_ifs at hslot with heq
      · rw [heq, ← Option.some.inj hslot]
      · exact hshape.key k slot hslot
    · rw [hfind] at hslot
      split_ifs at hslot with heq
      · rw [← Option.some.inj hslot]
        exact hnew
      · rw [hkinds]
        exact kinds_concat (hshape.tool k slot hslot)
    · rw [hfind] at hslot hslot'
      split_ifs at hslot hslot' with heq heq' heq'
      · exact heq.trans heq'.symm
      · rw [← Option.some.inj hslot] at hsame
        exact absurd hsame.symm (hold k' slot' hslot')
      · rw [← Option.some.inj hslot'] at hsame
        exact absurd hsame (hold k slot hslot)
      · exact hshape.apart k slot k' slot' hslot hslot' hsame

theorem opened_shape {kind : BlockKind} (hshape : s.Shape) (hkinds : t.kinds = s.kinds ++ [kind])
    (hslots : t.toolSlots = s.toolSlots)
    (htext : ∀ i, t.textIndex = some i → s.textIndex = some i ∨ i = s.kinds.length ∧ kind = .text)
    (hthink : ∀ i, t.thinkingIndex = some i → s.thinkingIndex = some i ∨ i = s.kinds.length ∧ kind = .thinking) :
    t.Shape where
  text := by
    intro i hi
    rw [hkinds]
    rcases htext i hi with hold | ⟨rfl, rfl⟩
    · exact kinds_concat (hshape.text i hold)
    · exact List.getElem?_concat_length
  thinking := by
    intro i hi
    rw [hkinds]
    rcases hthink i hi with hold | ⟨rfl, rfl⟩
    · exact kinds_concat (hshape.thinking i hold)
    · exact List.getElem?_concat_length
  key := by
    rw [hslots]
    exact hshape.key
  tool := by
    intro k slot hslot
    rw [hslots] at hslot
    rw [hkinds]
    exact kinds_concat (hshape.tool k slot hslot)
  apart := by
    rw [hslots]
    exact hshape.apart

theorem Change.shape (h : Change s t) (hshape : s.Shape) : t.Shape := by
  cases h with
  | quiet h => exact h.shape hshape
  | recorded action h => exact ⟨hshape.text, hshape.thinking, hshape.key, hshape.tool, hshape.apart⟩
  | openedText block =>
    refine opened_shape hshape List.map_append rfl (fun i hi => Or.inr ⟨?_, rfl⟩) fun i hi => Or.inl hi
    exact (Option.some.inj hi).symm.trans s.kinds_length.symm
  | openedThinking block =>
    refine opened_shape hshape List.map_append rfl (fun i hi => Or.inl hi) fun i hi => Or.inr ⟨?_, rfl⟩
    exact (Option.some.inj hi).symm.trans s.kinds_length.symm
  | routed index id function slot core h => exact routed_shape hshape (ProcessorCore.findOrCreateTool_ok h)
  | started slot h =>
    have hback : ∀ k other, (s.toolSlots.insert slot.key { slot with startEmitted := true }).find k = some other →
        ∃ before, s.toolSlots.find k = some before ∧ other.key = before.key ∧
          other.contentIndex = before.contentIndex := by
      intro k other hother
      rw [OrdMap.find_insert] at hother
      split_ifs at hother with heq
      · cases hother
        exact ⟨slot, by rw [heq]; exact h, rfl, rfl⟩
      · exact ⟨other, hother, rfl, rfl⟩
    refine ⟨hshape.text, hshape.thinking, fun k other hother => ?_, fun k other hother => ?_,
      fun k other k' other' hother hother' hsame => ?_⟩
    · obtain ⟨before, hprev, hkey, -⟩ := hback k other hother
      exact hkey.trans (hshape.key k before hprev)
    · obtain ⟨before, hprev, -, hindex⟩ := hback k other hother
      rw [hindex]
      exact hshape.tool k before hprev
    · obtain ⟨before, hprev, -, hindex⟩ := hback k other hother
      obtain ⟨before', hprev', -, hindex'⟩ := hback k' other' hother'
      exact hshape.apart k before k' before' hprev hprev' (hindex.symm.trans (hsame.trans hindex'))
  | ended h =>
    exact ⟨hshape.text, hshape.thinking, (fun k slot hslot => nomatch hslot), (fun k slot hslot => nomatch hslot),
      fun k slot k' slot' hslot => nomatch hslot⟩

theorem Reach.shape (h : Reach s t) (hshape : s.Shape) : t.Shape := by
  induction h with
  | refl => exact hshape
  | tail hreach hchange ih => exact hchange.shape ih

/-! ## The parts of a chunk -/

/-- Nothing but the message around the blocks is different. -/
structure Still (s t : Processor) : Prop where
  slots : t.toolSlots = s.toolSlots
  ids : t.toolIds = s.toolIds
  nextKey : t.nextToolKey = s.nextToolKey
  text : t.textIndex = s.textIndex
  thinking : t.thinkingIndex = s.thinkingIndex
  reason : t.sawFinishReason = s.sawFinishReason
  pending : t.finishPending = s.finishPending
  finished : t.blocksFinished = s.blocksFinished
  steps : t.steps = s.steps
  content : t.assistant.content = s.assistant.content
  sink : t.sink = s.sink
  sent : t.sent = s.sent

theorem Still.quiet (h : Still s t) : Quiet s t :=
  ⟨h.slots, h.ids, h.nextKey, h.text, h.thinking, h.finished, h.steps, congrArg (List.map blockKind) h.content⟩

/-- The finish reason in `process`. -/
def noteFinishReason (finish : Bytes) : ProcessorAction Unit := do
  setFinishReason finish
  modify fun s => { s with finishPending := true }

/-- A condition that every part of a chunk keeps, or that holds of the fault where the chunk ends. -/
structure Leaves (services : ProcessorServices) (P : Processor → Prop) (F : Fault → Processor → Prop) : Prop where
  fail : ∀ error s, P s → F (.failed error) s
  still : ∀ s t, Still s t → P s → P t
  finishReason : ∀ finish, Leads P (noteFinishReason finish) (fun _ => P) F
  text : ∀ delta, Leads P (emitTextDelta delta) (fun _ => P) F
  thinking : ∀ delta signature, Leads P (emitThinkingDelta delta signature) (fun _ => P) F
  call : ∀ value, Leads P (processToolCall services value) (fun _ => P) F
  details : ∀ details, Leads P (processDetails details) (fun _ => P) F
  finish : Leads (fun s => P s ∧ s.blocksFinished = false) (finishPendingBlocks services) (fun _ => P) F

section Leaves

variable {services : ProcessorServices} {P : Processor → Prop} {F : Fault → Processor → Prop}

theorem forM_keeps {α : Type} {value : Option α} {f : α → ProcessorAction Unit}
    (h : ∀ a, Leads P (f a) (fun _ => P) F) : Leads P (value.forM f) (fun _ => P) F := by
  cases value with
  | none => exact leads_pure fun s hs => hs
  | some a => exact h a

theorem applyUsage_keeps (h : Leaves services P F) (usage : Option (JsonObject Json)) :
    Leads P (applyUsage services usage) (fun _ => P) F := by
  cases usage with
  | none => exact leads_pure fun s hs => hs
  | some usage =>
    exact leads_modify fun s hs => h.still s _ ⟨rfl, rfl, rfl, rfl, rfl, rfl, rfl, rfl, rfl, rfl, rfl, rfl⟩ hs

theorem processToolCalls_keeps (h : Leaves services P F) (delta : JsonObject Json) :
    Leads P (processToolCalls services delta) (fun _ => P) F := by
  rw [processToolCalls]
  split
  · exact leads_pure fun s hs => hs
  · exact leads_forM fun value _ => h.call value

theorem processDelta_keeps (h : Leaves services P F) (delta : JsonObject Json) :
    Leads P (processDelta services delta) (fun _ => P) F := by
  refine Leads.bind (forM_keeps h.text) fun _ => ?_
  refine Leads.bind (forM_keeps fun reasoning => h.thinking _ _) fun _ => ?_
  exact Leads.bind (processToolCalls_keeps h delta) fun _ => forM_keeps h.details

theorem finishWhen_keeps (h : Leaves services P F) {c : Processor → Prop} [DecidablePred c]
    (hopen : ∀ s, c s → s.blocksFinished = false) : Leads P (do
      let s ← get
      if c s then finishPendingBlocks services) (fun _ => P) F := by
  refine leads_get_bind fun s => leads_ite (fun hc => ?_) fun _ => leads_pure fun t ht => ht.2
  refine h.finish.mono (fun t ht => ?_) (fun _ _ ht => ht) fun _ _ ht => ht
  obtain ⟨rfl, hs⟩ := ht
  exact ⟨hs, hopen _ hc⟩

theorem processFinish_keeps (h : Leaves services P F) (withUsage : Bool) (finish : Bytes) :
    Leads P (processFinish services withUsage finish) (fun _ => P) F := by
  have hsplit : processFinish services withUsage finish = noteFinishReason finish >>= fun _ => (do
      let s ← get
      if withUsage ∧ !s.blocksFinished then finishPendingBlocks services) := by
    rw [noteFinishReason, bind_assoc]
    rfl
  rw [hsplit]
  exact Leads.bind (h.finishReason finish) fun _ => finishWhen_keeps h fun s hs => by simpa using hs.2

theorem processChoices_keeps (h : Leaves services P F) (withUsage : Bool) (choices : Option (List Json)) :
    Leads P (processChoices services withUsage choices) (fun _ => P) F := by
  have husage : Leads P (processUsage services withUsage) (fun _ => P) F :=
    finishWhen_keeps h fun s hs => by simpa using hs.2.2
  match choices with
  | none => exact husage
  | some [] => exact husage
  | some (first :: _) =>
    rw [processChoices]
    split
    · exact leads_throw fun s hs => h.fail _ s hs
    · refine Leads.bind (applyUsage_keeps h _) fun _ => ?_
      exact Leads.bind (forM_keeps (processDelta_keeps h)) fun _ => forM_keeps (processFinish_keeps h withUsage)

/-- **A chunk** keeps what its parts keep. -/
theorem process_keeps (h : Leaves services P F) (event : JsonObject Json) :
    Leads P (process services event) (fun _ => P) F := by
  refine leads_ite (fun _ => leads_pure fun s hs => hs) fun _ => ?_
  refine Leads.bind (Q := fun _ => P) (leads_modify fun s hs => ?_) fun _ => ?_
  · exact h.still s _ ⟨rfl, rfl, rfl, rfl, rfl, rfl, rfl, rfl, rfl, rfl, rfl, rfl⟩ hs
  refine Leads.bind (applyUsage_keeps h _) fun _ => ?_
  exact Leads.bind (processChoices_keeps h _ _) fun _ => leads_pure fun s hs => hs

end Leaves

/-! ## Calls -/

/-- How a call from a state ends without a value: with an error, or at a fragment that has no slot. -/
def Ends (start : Processor) (fault : Fault) (t : Processor) : Prop :=
  (∃ error, fault = .failed error ∧ Reach start t) ∨
    ∃ u index id function, Reach start u ∧ u.findOrCreateTool index id = .error fault ∧
      t = u.recorded (.tool index id function)

/-- A part of a call makes changes from `A` to `B`. -/
abbrev Runs {α : Type} (start : Processor) (A : Processor → Prop) (x : ProcessorAction α)
    (B : α → Processor → Prop) : Prop :=
  Leads (fun s => Reach start s ∧ A s) x (fun a t => Reach start t ∧ B a t) (Ends start)

/-- A property that quiet changes keep. -/
def Stable (A : Processor → Prop) : Prop := ∀ s t, Quiet s t → A s → A t

section Calls

variable {start : Processor} {A : Processor → Prop}

theorem quiet_sent (s : Processor) (sent : List AssistantStreamEvent) : Quiet s { s with sent := sent } :=
  ⟨rfl, rfl, rfl, rfl, rfl, rfl, rfl, rfl⟩

theorem quiet_assistant (s : Processor) (assistant : AssistantMessage)
    (h : assistant.content.map blockKind = s.kinds) : Quiet s { s with assistant := assistant } :=
  ⟨rfl, rfl, rfl, rfl, rfl, rfl, rfl, h⟩

variable {index : Nat}

/-- Another block of the same kind at an index does not change the kinds. -/
theorem kinds_set {content : List AssistantContent} {block next : AssistantContent}
    (h : content[index]? = some block) (hkind : blockKind next = blockKind block) :
    (content.set index next).map blockKind = content.map blockKind := by
  obtain ⟨hlt, -⟩ := List.getElem?_eq_some_iff.1 h
  refine List.ext_getElem? fun i => ?_
  rw [List.map_set, List.getElem?_set]
  split_ifs with heq hi
  · rw [← heq, List.getElem?_map, h, hkind]
    rfl
  · exact absurd (by rwa [List.length_map]) hi
  · rfl

theorem emit_runs (hA : Stable A) (event : AssistantStreamEvent) : Runs start A (emit event) fun _ => A := by
  rintro s ⟨hreach, hs⟩
  have hquiet := quiet_sent s (s.sent ++ [event])
  have hnext : Reach start { s with sent := s.sent ++ [event] } := hreach.tail (.quiet hquiet)
  unfold emit
  split
  · rename_i a t heq
    split at heq
    · obtain ⟨-, rfl⟩ := heq
      exact ⟨hreach, hs⟩
    dsimp only at heq
    split at heq
    · obtain ⟨-, rfl⟩ := heq
      exact ⟨hnext, hA _ _ hquiet hs⟩
    · exact nomatch heq
  rename_i e t heq
  split at heq
  · exact nomatch heq
  dsimp only at heq
  split at heq
  · exact nomatch heq
  · obtain ⟨rfl, rfl⟩ := heq
    exact Or.inl ⟨_, rfl, hnext⟩

theorem emitPartial_runs (hA : Stable A) (event : AssistantMessage → AssistantStreamEvent) :
    Runs start A (emitPartial event) fun _ => A :=
  leads_get_bind fun _ => (emit_runs hA _).mono (fun _ hs => hs.2) (fun _ _ ht => ht) fun _ _ ht => ht

theorem Runs.forget {α : Type} {x : ProcessorAction α} {B : α → Processor → Prop} (h : Runs start A x B) :
    Runs start A x fun _ _ => True :=
  h.mono (fun _ hs => hs) (fun _ _ ht => ⟨ht.1, trivial⟩) fun _ _ ht => ht

theorem record_runs (action : BlockAction) (h : ∀ index id function, action ≠ .tool index id function)
    (hA : ∀ s, A s → A (s.recorded action)) : Runs start A (record action) fun _ => A :=
  leads_modify fun s hs => ⟨hs.1.tail (.recorded action h), hA s hs.2⟩

theorem readBlock_runs {α : Type} {read : AssistantContent → Option α} {kind : BlockKind}
    (hread : ∀ block, blockKind block = kind → (read block).isSome)
    (hA : ∀ s, A s → Reach start s → s.kinds[index]? = some kind) :
    Runs start A (readBlock index read) fun _ => A := by
  rintro s ⟨hreach, hs⟩
  obtain ⟨block, hblock, hkind⟩ := Option.map_eq_some_iff.1 (List.getElem?_map ▸ hA s hs hreach)
  obtain ⟨value, hvalue⟩ := Option.isSome_iff_exists.1 (hread block hkind)
  rw [readBlock, hblock, Option.bind_some, hvalue]
  exact ⟨hreach, hs⟩

theorem editBlock_runs {edit : AssistantContent → Option AssistantContent} {kind : BlockKind}
    (hedit : ∀ block, blockKind block = kind → ∃ next, edit block = some next ∧ blockKind next = kind)
    (hstable : Stable A) (hA : ∀ s, A s → Reach start s → s.kinds[index]? = some kind) :
    Runs start A (editBlock index edit) fun _ => A := by
  rintro s ⟨hreach, hs⟩
  have hkinds := hA s hs hreach
  obtain ⟨block, hblock, hkind⟩ := Option.map_eq_some_iff.1 (List.getElem?_map ▸ hkinds)
  obtain ⟨next, hnext, hsame⟩ := hedit block hkind
  rw [editBlock, hblock, Option.bind_some, hnext]
  have hquiet := quiet_assistant s (s.setBlock index next) (kinds_set hblock (hsame.trans hkind.symm))
  exact ⟨hreach.tail (.quiet hquiet), hstable _ _ hquiet hs⟩

theorem stable_kinds (p : List BlockKind → Prop) : Stable fun s => p s.kinds :=
  fun _ _ hquiet hs => (congrArg p hquiet.kinds).mpr hs

theorem stable_true : Stable fun _ => True := fun _ _ _ _ => trivial

theorem stable_slot (slot : ToolSlot) : Stable fun s => s.toolSlots.find slot.key = some slot :=
  fun _ _ hquiet hs => (congrArg (fun slots => slots.find slot.key) hquiet.slots).trans hs

theorem appendText_kind (delta : Bytes) (block : AssistantContent) (h : blockKind block = .text) :
    ∃ next, appendText delta block = some next ∧ blockKind next = .text := by
  cases block with
  | text block => exact ⟨_, rfl, rfl⟩
  | _ => exact nomatch h

theorem appendThinking_kind (delta : Bytes) (block : AssistantContent) (h : blockKind block = .thinking) :
    ∃ next, appendThinking delta block = some next ∧ blockKind next = .thinking := by
  cases block with
  | thinking block => exact ⟨_, rfl, rfl⟩
  | _ => exact nomatch h

theorem appendCall_kind (services : ProcessorServices) (name : Option Bytes) (delta : Bytes)
    (block : AssistantContent) (h : blockKind block = .toolCall) :
    ∃ next, appendCall services name delta block = some next ∧ blockKind next = .toolCall := by
  cases block with
  | toolCall call => exact ⟨_, rfl, rfl⟩
  | _ => exact nomatch h

theorem signThinking_kind (details : List Json) (block : AssistantContent) (h : blockKind block = .thinking) :
    ∃ next, signThinking details block = some next ∧ blockKind next = .thinking := by
  cases block with
  | thinking block => exact ⟨_, rfl, rfl⟩
  | _ => exact nomatch h

/-- The start event where it is due, and then the delta. -/
theorem emitDelta_runs (hA : Stable A) (due : Prop) [Decidable due]
    (begun delta : AssistantMessage → AssistantStreamEvent) : Runs start A (do
      if due then emitPartial begun
      emitPartial delta) fun _ _ => True := by
  have hdelta : Runs start A (emitPartial delta) fun _ _ => True := (emitPartial_runs hA delta).forget
  exact leads_ite (fun _ => Leads.bind (emitPartial_runs hA begun) fun _ => hdelta) fun _ => hdelta

theorem kinds_opened (s : Processor) (block : AssistantContent) :
    ((s.assistant.content ++ [block]).map blockKind)[s.assistant.content.length]? = some (blockKind block) := by
  rw [List.map_append, ← s.kinds_length]
  exact List.getElem?_concat_length

theorem emitTextDelta_runs (hshape : start.Shape) (delta : Bytes) :
    Runs start (fun _ => True) (emitTextDelta delta) fun _ _ => True := by
  have hwrite : ∀ (index : Nat) (first : Bool), Runs start (fun s => s.kinds[index]? = some .text) (do
        editBlock index (appendText delta)
        if first then emitPartial (.textStart index)
        emitPartial (.textDelta index delta)) fun _ _ => True := by
    intro index first
    have hstable := stable_kinds fun kinds => kinds[index]? = some .text
    refine Leads.bind (editBlock_runs (appendText_kind delta) hstable fun _ hs _ => hs) fun _ => ?_
    exact emitDelta_runs hstable _ _ _
  refine leads_ite (fun _ => leads_pure fun s hs => hs) fun _ => ?_
  refine Leads.bind (record_runs (.text delta) (fun _ _ _ h => nomatch h) fun _ hs => hs) fun _ => ?_
  refine leads_get_bind fun s => ?_
  refine leads_ite (fun hnone => ?_) fun hsome => ?_
  · rw [Option.isNone_iff_eq_none.1 hnone]
    refine Leads.bind (leads_set fun t ht => ?_) fun _ => hwrite s.assistant.content.length true
    obtain ⟨rfl, hreach, -⟩ := ht
    exact ⟨hreach.tail (.openedText ⟨[], none⟩), t.kinds_opened _⟩
  obtain ⟨index, hindex⟩ := Option.ne_none_iff_exists'.1 (mt Option.isNone_iff_eq_none.2 hsome)
  rw [hindex]
  refine (hwrite index false).mono (fun t ht => ?_) (fun _ _ ht => ht) fun _ _ ht => ht
  obtain ⟨rfl, hreach, -⟩ := ht
  exact ⟨hreach, (hreach.shape hshape).text index hindex⟩

theorem emitThinkingDelta_runs (hshape : start.Shape) (delta signature : Bytes) :
    Runs start (fun _ => True) (emitThinkingDelta delta signature) fun _ _ => True := by
  have hwrite : ∀ index : Nat, Runs start (fun s => s.kinds[index]? = some .thinking) (do
        let thinking ← readBlock index thinkingText
        editBlock index (appendThinking delta)
        if thinking = [] then emitPartial (.thinkingStart index)
        emitPartial (.thinkingDelta index delta)) fun _ _ => True := by
    intro index
    have hstable := stable_kinds fun kinds => kinds[index]? = some .thinking
    have hread : ∀ block, blockKind block = .thinking → (thinkingText block).isSome := by
      intro block hkind
      cases block with
      | thinking block => rfl
      | _ => exact nomatch hkind
    refine Leads.bind (readBlock_runs hread fun _ hs _ => hs) fun thinking => ?_
    refine Leads.bind (editBlock_runs (appendThinking_kind delta) hstable fun _ hs _ => hs) fun _ => ?_
    exact emitDelta_runs hstable _ _ _
  refine leads_ite (fun _ => leads_pure fun s hs => hs) fun _ => ?_
  refine Leads.bind (record_runs (.thinking delta) (fun _ _ _ h => nomatch h) fun _ hs => hs) fun _ => ?_
  refine leads_get_bind fun s => ?_
  refine leads_ite (fun hnone => ?_) fun hsome => ?_
  · rw [Option.isNone_iff_eq_none.1 hnone]
    refine Leads.bind (leads_set fun t ht => ?_) fun _ => hwrite s.assistant.content.length
    obtain ⟨rfl, hreach, -⟩ := ht
    exact ⟨hreach.tail (.openedThinking ⟨[], some signature, false⟩), t.kinds_opened _⟩
  obtain ⟨index, hindex⟩ := Option.ne_none_iff_exists'.1 (mt Option.isNone_iff_eq_none.2 hsome)
  rw [hindex]
  refine (hwrite index).mono (fun t ht => ?_) (fun _ _ ht => ht) fun _ _ ht => ht
  obtain ⟨rfl, hreach, -⟩ := ht
  exact ⟨hreach, (hreach.shape hshape).thinking index hindex⟩

theorem routeTool_eq (s : Processor) (index : Option Nat) (id : Option Bytes) (function : Bool) :
    routeTool index id function s = match s.findOrCreateTool index id with
      | .ok (slot, core) => .ok slot { s.recorded (.tool index id function) with toProcessorCore := core }
      | .error fault => .error fault (s.recorded (.tool index id function)) := by
  show (match s.findOrCreateTool index id with
    | .ok (slot, core) => do
        set { s.recorded (.tool index id function) with toProcessorCore := core }
        pure slot
    | .error fault => throw fault : ProcessorAction ToolSlot) (s.recorded (.tool index id function)) = _
  cases s.findOrCreateTool index id <;> rfl

theorem routeTool_runs (index : Option Nat) (id : Option Bytes) (function : Bool) :
    Runs start (fun _ => True) (routeTool index id function) fun slot s =>
      s.toolSlots.find slot.key = some slot := by
  rintro s ⟨hreach, -⟩
  rw [routeTool_eq]
  cases hfound : s.findOrCreateTool index id with
  | ok result =>
    obtain ⟨slot, core⟩ := result
    refine ⟨hreach.tail (.routed index id function slot core hfound), ?_⟩
    show core.toolSlots.find slot.key = some slot
    rw [(ProcessorCore.findOrCreateTool_ok hfound).slots, OrdMap.find_insert_self]
  | error fault => exact Or.inr ⟨s, index, id, function, hreach, hfound, rfl⟩

theorem processToolCall_runs (hshape : start.Shape) (services : ProcessorServices) (value : Json) :
    Runs start (fun _ => True) (processToolCall services value) fun _ _ => True := by
  rw [processToolCall]
  cases value.asObject with
  | none => exact leads_throw fun s hs => Or.inl ⟨_, rfl, hs.1⟩
  | some toolCall =>
    refine Leads.bind (routeTool_runs _ _ _) fun slot => ?_
    have hkind : ∀ s : Processor, s.toolSlots.find slot.key = some slot → Reach start s →
        s.kinds[slot.contentIndex]? = some .toolCall := fun s hs hreach =>
      (hreach.shape hshape).tool slot.key slot hs
    have hread : ∀ block, blockKind block = .toolCall → (toolCallOf block).isSome := by
      intro block hkind
      cases block with
      | toolCall call => rfl
      | _ => exact nomatch hkind
    refine Leads.bind (readBlock_runs hread hkind) fun _ => ?_
    cases jsonObjectMember toolCall "function" with
    | none => exact leads_pure fun s hs => ⟨hs.1, trivial⟩
    | some function =>
      have hstable := stable_slot slot
      refine Leads.bind (editBlock_runs (appendCall_kind services _ _) hstable hkind) fun _ => ?_
      have hdelta : ∀ delta, Runs start (fun _ => True) (emitPartial (.toolCallDelta slot.contentIndex delta))
          fun _ _ => True := fun delta => emitPartial_runs stable_true _
      refine leads_ite (fun _ => ?_) fun _ => ?_
      · refine Leads.bind (emitPartial_runs hstable _) fun _ => ?_
        refine Leads.bind (leads_modify fun s hs => ?_) fun _ => hdelta _
        exact ⟨hs.1.tail (.started slot hs.2), trivial⟩
      · exact (hdelta _).mono (fun s hs => ⟨hs.1, trivial⟩) (fun _ _ ht => ht) fun _ _ ht => ht

theorem appendReasoningDetail_runs (hshape : start.Shape) (detail : JsonObject Json) :
    Runs start (fun _ => True) (appendReasoningDetail detail) fun _ _ => True := by
  rw [appendReasoningDetail]
  cases jsonStringMember detail "type" with
  | none => exact leads_pure fun s hs => hs
  | some type =>
    refine leads_ite (fun _ => leads_pure fun s hs => hs) fun _ => ?_
    refine leads_get_bind fun s => ?_
    cases hindex : s.thinkingIndex with
    | none =>
      refine Leads.bind (leads_set fun t ht => ?_) fun _ => leads_pure fun t ht => ht
      obtain ⟨rfl, hreach, -⟩ := ht
      exact ⟨hreach.tail (.quiet ⟨rfl, rfl, rfl, rfl, hindex.symm, rfl, rfl, rfl⟩), trivial⟩
    | some index =>
      have hstable := stable_kinds fun kinds => kinds[index]? = some .thinking
      refine Leads.bind (leads_set fun t ht => ?_) fun _ =>
        (editBlock_runs (signThinking_kind _) hstable fun _ hs _ => hs).forget
      obtain ⟨rfl, hreach, -⟩ := ht
      exact ⟨hreach.tail (.quiet ⟨rfl, rfl, rfl, rfl, hindex.symm, rfl, rfl, rfl⟩), (hreach.shape hshape).thinking index hindex⟩

theorem appendDetails_runs (hshape : start.Shape) (details : List Json) :
    Runs start (fun _ => True) (details.forM fun detail =>
      match detail.asObject with
      | some object => appendReasoningDetail object
      | none => pure ()) fun _ _ => True := by
  refine leads_forM fun detail _ => ?_
  split
  · exact appendReasoningDetail_runs hshape _
  · exact leads_pure fun s hs => hs

theorem processDetails_runs (hshape : start.Shape) (details : List Json) :
    Runs start (fun _ => True) (processDetails details) fun _ _ => True := by
  have hloop := appendDetails_runs hshape details
  refine Leads.bind (record_runs .details (fun _ _ _ h => by cases h) fun _ hs => hs) fun _ => ?_
  refine leads_get_bind fun s => ?_
  refine leads_ite (fun _ => ?_) fun _ => ?_
  · refine Leads.bind (Q := fun _ t => Reach start t ∧ True) (leads_set fun t ht => ?_) fun _ => ?_
    · obtain ⟨rfl, hreach, -⟩ := ht
      exact ⟨hreach.tail (.openedThinking ⟨[], none, false⟩), trivial⟩
    · exact Leads.bind (emitPartial_runs stable_true _) fun _ => hloop
  · exact hloop.mono (fun _ ht => ht.2) (fun _ _ ht => ht) fun _ _ ht => ht

theorem finishBlock_runs (hA : Stable A) (services : ProcessorServices) (index : Nat) :
    Runs start A (finishBlock services index) fun _ => A := by
  refine leads_get_bind fun s => ?_
  have hemit : ∀ event, Runs start A (emitPartial event) fun _ => A := fun event => emitPartial_runs hA event
  have hsame : ∀ event, Leads (fun t => t = s ∧ Reach start t ∧ A t) (emitPartial event)
      (fun _ t => Reach start t ∧ A t) (Ends start) := fun event =>
    (hemit event).mono (fun _ ht => ht.2) (fun _ _ ht => ht) fun _ _ ht => ht
  split
  · exact leads_pure fun t ht => ht.2
  · exact hsame _
  · exact hsame _
  · rename_i call hcall
    refine leads_ite (fun _ => ?_) fun _ => leads_pure fun t ht => ht.2
    refine Leads.bind (Q := fun _ t => Reach start t ∧ A t) (leads_set fun t ht => ?_) fun _ => hemit _
    obtain ⟨rfl, hreach, ht⟩ := ht
    have hquiet := quiet_assistant t (t.setBlock index (.toolCall (finalizeToolArguments services call)))
      (kinds_set hcall rfl)
    exact ⟨hreach.tail (.quiet hquiet), hA _ _ hquiet ht⟩

theorem finishPendingBlocks_runs (services : ProcessorServices) :
    Runs start (fun s => s.blocksFinished = false) (finishPendingBlocks services) fun _ _ => True := by
  have hstable : Stable fun s => s.blocksFinished = false := fun _ _ hquiet hs => hquiet.finished.trans hs
  have hblocks : Leads (fun s => Reach start s ∧ s.blocksFinished = false) (finishBlocks services)
      (fun _ t => ∃ u, Reach start u ∧ u.blocksFinished = false ∧ t = { u with toolSlots := .empty })
      (Ends start) := by
    refine Leads.bind (record_runs .finish (fun _ _ _ h => nomatch h) fun _ hs => hs) fun _ => ?_
    refine leads_get_bind fun s => ?_
    have hloop : Runs start (fun s => s.blocksFinished = false)
        ((List.range s.assistant.content.length).forM (finishBlock services)) fun _ s => s.blocksFinished = false :=
      leads_forM fun index _ => finishBlock_runs hstable services index
    refine Leads.bind (hloop.mono (fun _ ht => ht.2) (fun _ _ ht => ht) fun _ _ ht => ht) fun _ => ?_
    exact leads_modify fun t ht => ⟨t, ht.1, ht.2, rfl⟩
  refine Leads.bind hblocks fun _ => leads_modify fun t ht => ?_
  obtain ⟨u, hreach, hopen, rfl⟩ := ht
  exact ⟨hreach.tail (.ended hopen), trivial⟩

theorem finishReason_runs (finishReason : Bytes) :
    Leads (fun s => Reach start s) (noteFinishReason finishReason) (fun _ t => Reach start t) (Ends start) := by
  refine Leads.bind (Q := fun _ t => Reach start t) (leads_ite (fun _ => leads_pure fun s hs => hs) fun _ => ?_)
    fun _ => leads_modify fun s hs => hs.tail (.quiet ⟨rfl, rfl, rfl, rfl, rfl, rfl, rfl, rfl⟩)
  refine leads_modify fun s hs => hs.tail (.quiet ⟨rfl, rfl, rfl, rfl, rfl, rfl, rfl, ?_⟩)
  split_ifs <;> rfl

theorem Runs.simple {x : ProcessorAction Unit} (h : Runs start (fun _ => True) x fun _ _ => True) :
    Leads (fun s => Reach start s) x (fun _ t => Reach start t) (Ends start) :=
  h.mono (fun _ hs => ⟨hs, trivial⟩) (fun _ _ ht => ht.1) fun _ _ ht => ht

theorem reach_leaves (hshape : start.Shape) (services : ProcessorServices) :
    Leaves services (Reach start) (Ends start) where
  fail := fun _ _ hs => Or.inl ⟨_, rfl, hs⟩
  still := fun _ _ hstill hs => hs.tail (.quiet hstill.quiet)
  finishReason := finishReason_runs
  text := fun delta => (emitTextDelta_runs hshape delta).simple
  thinking := fun delta signature => (emitThinkingDelta_runs hshape delta signature).simple
  call := fun value => (processToolCall_runs hshape services value).simple
  details := fun details => (processDetails_runs hshape details).simple
  finish := (finishPendingBlocks_runs services).mono (fun _ hs => hs) (fun _ _ ht => ht.1) fun _ _ ht => ht

end Calls

/-! ## Sequences of chunks -/

/-- A call that does not return a value, but an error, is not the last one. -/
def attempt {α : Type} (x : ProcessorAction α) : ProcessorAction Unit := fun s =>
  match x s with
  | .ok _ t => .ok () t
  | .error (.failed _) t => .ok () t
  | .error fault t => .error fault t

/-- Chunks in order. A call that does not return is the last one. -/
def processAll (services : ProcessorServices) (events : List (JsonObject Json)) : ProcessorAction Unit :=
  events.forM fun event => attempt (process services event)

/-- A processor for a message that was not written before. -/
def create (model : Model) (assistant : AssistantMessage) (sink : Option AssistantEventSink) : Processor :=
  { model := model, assistant := assistant, sink := sink }

theorem create_shape (model : Model) (assistant : AssistantMessage) (sink : Option AssistantEventSink) :
    (create model assistant sink).Shape where
  text := fun _ h => nomatch h
  thinking := fun _ h => nomatch h
  key := fun _ _ h => nomatch h
  tool := fun _ _ h => nomatch h
  apart := fun _ _ _ _ h => nomatch h

/-- The end of a sequence of chunks: the last call returned, or it ended at a fragment without a slot. -/
theorem processAll_runs {start : Processor} (hshape : start.Shape) (services : ProcessorServices)
    (events : List (JsonObject Json)) :
    Leads (fun s => Reach start s) (processAll services events) (fun _ t => Reach start t) fun fault t =>
      ∃ u index id function, Reach start u ∧ u.findOrCreateTool index id = .error fault ∧
        t = u.recorded (.tool index id function) := by
  refine leads_forM fun event _ s hs => ?_
  have hrun := process_keeps (reach_leaves hshape services) event s hs
  rw [attempt]
  cases hres : process services event s with
  | ok outcome t =>
    rw [hres] at hrun
    exact hrun
  | error fault t =>
    rw [hres] at hrun
    cases fault with
    | failed error =>
      rcases hrun with ⟨_, -, hreach⟩ | ⟨u, index, id, function, hreach, hfault, rfl⟩
      · exact hreach
      · cases ProcessorCore.findOrCreateTool_error hfault
    | thrown | hang =>
      refine hrun.resolve_left ?_
      rintro ⟨_, ⟨⟩, _⟩

/-! ## A plain processor -/

def blankMessage : AssistantMessage where
  content := []
  api := "openai-completions"
  provider := "p"
  model := "m"
  usage := ⟨0, 0, 0, 0, none, none, 0, ⟨.zero false, .zero false, .zero false, .zero false, .zero false⟩⟩

/-- Services that price nothing, read no arguments and know no hint. -/
def plainServices : ProcessorServices where
  parseStreamingJson := fun _ => ⟨.object [], Json.wf_empty⟩
  calculateCost := fun _ => ⟨.zero false, .zero false, .zero false, .zero false, .zero false⟩
  providerBackoffHintMs := fun _ => none
  boundedProviderErrorDetail := fun text => text

def plainModel : Model where
  id := "m"
  api := "openai-completions"
  provider := "p"
  input := []

def deltaChunk (delta : JsonObject Json) : JsonObject Json :=
  [("choices", .array [.object [("delta", .object delta)]])]

end Processor

end CodingHarness.Ai
