import CodingHarness.Library.Histories
import CodingHarness.Ai.ProcessorChanges

/-!
# Tool calls stay apart

A fragment belongs to the tool call first opened for its index, or else for its id (`home`). The program
looks at its slots instead: by index, by id, and then it opens a call under a key from a counter that does not
know the indexes. `Fits` says when that is the same, from the fragments so far and the slots that the fragment
finds, and `fragments_apart` is the result for every sequence of chunks: when all fragments fit, every call
returns, and no two indexes and no two ids end in one tool call.

A fragment that does not fit can stop the processor for good (`taken_key_hangs`).
-/

namespace CodingHarness.Ai

open Library Support Agent
open Option (none_or some_or)

/-! ## Fragments -/

def nonempty (id : Option Bytes) : Option Bytes := id.filter fun name => name ≠ []

namespace BlockStep

def IsFragment (step : BlockStep) : Prop := ∃ index id function, step.action = .tool index id function

def callIndex (step : BlockStep) : Option Nat := match step.action with
  | .tool index _ _ => index
  | _ => none

/-- The id of a fragment, when it is not empty. -/
def callId (step : BlockStep) : Option Bytes := match step.action with
  | .tool _ id _ => nonempty id
  | _ => none

/-- The content index of the tool call that a fragment is added to. -/
def call (step : BlockStep) : Option Nat := match step.action with
  | .tool index id _ =>
    match step.before.findOrCreateTool index id with
    | .ok (slot, _) => some slot.contentIndex
    | .error _ => none
  | _ => none

/-- An earlier fragment has the index of this one. -/
def sameIndex (step earlier : BlockStep) : Bool := step.callIndex.isSome && earlier.callIndex = step.callIndex

/-- An earlier fragment has the id of this one. -/
def sameId (step earlier : BlockStep) : Bool := step.callId.isSome && earlier.callId = step.callId

/-- The call that a fragment belongs to: the one first opened for its index, or else for its id, or a new one. -/
def home (earlier : List BlockStep) (step : BlockStep) : Option Nat :=
  match (earlier.find? step.sameIndex).or (earlier.find? step.sameId) with
  | some first => first.call
  | none => some step.before.assistant.content.length

end BlockStep

/-- Fragments are in the calls they belong to, and different indexes or ids are in different calls. -/
structure Apart (steps : List BlockStep) : Prop where
  called : ∀ step ∈ steps, step.IsFragment → ∃ i, step.call = some i
  home : Along (fun earlier step => step.IsFragment → step.call = step.home earlier) steps
  indexes : ∀ step ∈ steps, ∀ other ∈ steps, ∀ m n, step.callIndex = some m → other.callIndex = some n →
    step.call = other.call → m = n
  ids : ∀ step ∈ steps, ∀ other ∈ steps, ∀ a b, step.callId = some a → other.callId = some b →
    step.call = other.call → a = b

/-! ## Fragments that fit -/

/-- An id of the slot with an index: of a fragment with that index, or of one without index whose id has the
key of the slot. Only fragments on the same side of the end of the blocks count. -/
def SlotId (earlier : List BlockStep) (s : ProcessorCore) (n : Nat) (name : Bytes) : Prop :=
  ∃ step ∈ earlier, step.before.blocksFinished = s.blocksFinished ∧ step.callId = some name ∧
    (step.callIndex = some n ∨ step.callIndex = none ∧ s.toolIds.find name = some n)

/-- A fragment fits what the processor knows: its slot is the one of its index, or the one of its id, or there
is none and the key for a new one is free. -/
inductive Fits (earlier : List BlockStep) (s : ProcessorCore) (index : Option Nat) (id : Option Bytes) : Prop
  | byIndex (n : Nat) (slot : ToolSlot) (hindex : index = some n) (hslot : s.toolSlots.find n = some slot)
      (hstream : slot.streamIndex = some n)
      (hids : ∀ name other, nonempty id = some name → SlotId earlier s n other → other = name)
  | byId (name : Bytes) (key : Nat) (slot : ToolSlot) (hid : nonempty id = some name)
      (hkey : s.toolIds.find name = some key) (hslot : s.toolSlots.find key = some slot)
      (hside : ∀ step ∈ earlier, step.callId = some name → step.before.blocksFinished = s.blocksFinished)
      (hindex : ∀ n, index = some n → (∀ other, s.toolSlots.find n = some other → n = key) ∧
        (slot.streamIndex = some n ∨ slot.streamIndex = none ∧ ∀ step ∈ earlier, step.callIndex ≠ some n))
  | opens (hid : ∀ name, nonempty id = some name → s.toolIds.find name = none)
      (hindex : ∀ n, index = some n → ∀ step ∈ earlier, step.callIndex ≠ some n)
      (hfree : s.toolSlots.find (index.getD s.nextToolKey) = none)

/-- A fragment fits; other steps always do. -/
def BlockStep.Fits (earlier : List BlockStep) (step : BlockStep) : Prop := match step.action with
  | .tool index id _ => Ai.Fits earlier step.before index id
  | _ => True

/-! ## Ids -/

namespace ProcessorCore

theorem find_rememberId (ids : OrdMap Bytes Nat) (id : Option Bytes) (key : Nat) (name : Bytes) :
    (rememberId ids id key).find name = (ids.find name).or (if nonempty id = some name then some key else none) := by
  cases id with
  | none => simp [rememberId, nonempty]
  | some other =>
    by_cases hother : other = []
    · simp [rememberId, nonempty, hother]
    simp only [rememberId, hother, if_false, OrdMap.find_emplace]
    by_cases hname : name = other
    · simp [nonempty, hname, hother]
    · simp [nonempty, hname, Ne.symm hname]

variable {ids : OrdMap Bytes Nat}

theorem rememberId_keeps {name : Bytes} {key : Nat} (id : Option Bytes) (other : Nat)
    (h : ids.find name = some key) : (rememberId ids id other).find name = some key := by
  rw [find_rememberId, h, some_or]

theorem rememberId_cases {id : Option Bytes} {key found : Nat} {name : Bytes}
    (h : (rememberId ids id key).find name = some found) :
    ids.find name = some found ∨ ids.find name = none ∧ nonempty id = some name ∧ found = key := by
  rw [find_rememberId] at h
  cases hold : ids.find name with
  | some old =>
    rw [hold, some_or] at h
    exact Or.inl h
  | none =>
    rw [hold, none_or] at h
    split_ifs at h with heq
    exact Or.inr ⟨rfl, heq, (Option.some.inj h).symm⟩

end ProcessorCore

namespace Processor

/-! ## The invariant -/

/-- What the slots and the ids say about the fragments so far. -/
structure Routing (s : Processor) : Prop where
  shape : s.Shape
  /-- The ids with a key are the ones that fragments had. -/
  idSeen : ∀ name key, s.toolIds.find name = some key → ∃ step ∈ s.steps, step.callId = some name
  seenId : ∀ step ∈ s.steps, ∀ name, step.callId = some name → ∃ key, s.toolIds.find name = some key
  /-- Before the blocks are finished, all steps were before that. -/
  past : s.blocksFinished = false → ∀ step ∈ s.steps, step.before.blocksFinished = false
  bound : ∀ step ∈ s.steps, ∀ i, step.call = some i → i < s.assistant.content.length
  /-- The fragments with the index of a slot are the ones with an index in its call. -/
  streamSeen : ∀ k slot n, s.toolSlots.find k = some slot → slot.streamIndex = some n →
    ∃ step ∈ s.steps, step.callIndex = some n
  streamCall : ∀ k slot n, s.toolSlots.find k = some slot → slot.streamIndex = some n →
    ∀ step ∈ s.steps, step.callIndex = some n → step.call = some slot.contentIndex
  callStream : ∀ k slot, s.toolSlots.find k = some slot → ∀ step ∈ s.steps,
    step.call = some slot.contentIndex → ∀ n, step.callIndex = some n → slot.streamIndex = some n
  /-- The slot of an id is the one of the first fragment with it, as long as none is from before the end. -/
  idCall : ∀ name key, s.toolIds.find name = some key →
    (∀ step ∈ s.steps, step.callId = some name → step.before.blocksFinished = s.blocksFinished) →
    ∃ slot first, s.toolSlots.find key = some slot ∧
      s.steps.find? (fun step => step.callId = some name) = some first ∧ first.call = some slot.contentIndex
  callId : ∀ k slot, s.toolSlots.find k = some slot → ∀ step ∈ s.steps, step.call = some slot.contentIndex →
    step.before.blocksFinished = s.blocksFinished ∧
      ∀ name, step.callId = some name → step.callIndex = none → s.toolIds.find name = some k
  apart : Apart s.steps

variable {s t : Processor}

/-- Changes that leave the fragments, their ids and the places of their slots alone keep the invariant. -/
theorem Routing.same (hinv : s.Routing) (ht : t.Shape) (hsteps : t.steps = s.steps)
    (hids : t.toolIds = s.toolIds) (hfin : t.blocksFinished = s.blocksFinished)
    (hlen : s.assistant.content.length ≤ t.assistant.content.length)
    (hback : ∀ k slot, t.toolSlots.find k = some slot → ∃ old, s.toolSlots.find k = some old ∧
      old.contentIndex = slot.contentIndex ∧ old.streamIndex = slot.streamIndex)
    (hforth : ∀ k old, s.toolSlots.find k = some old → ∃ slot, t.toolSlots.find k = some slot ∧
      old.contentIndex = slot.contentIndex) : t.Routing := by
  refine ⟨ht, ?_, ?_, ?_, fun step hstep i hi => ?_, fun k slot n hslot hstream => ?_,
    fun k slot n hslot hstream step hstep hn => ?_, fun k slot hslot step hstep hcall n hn => ?_,
    fun name key hkey hside => ?_, fun k slot hslot step hstep hcall => ?_, ?_⟩
  · rw [hids, hsteps]
    exact hinv.idSeen
  · rw [hids, hsteps]
    exact hinv.seenId
  · rw [hfin, hsteps]
    exact hinv.past
  · rw [hsteps] at hstep
    exact Nat.lt_of_lt_of_le (hinv.bound step hstep i hi) hlen
  · obtain ⟨old, hold, -, hsame⟩ := hback k slot hslot
    rw [hsteps]
    exact hinv.streamSeen k old n hold (hsame.trans hstream)
  · obtain ⟨old, hold, hindex, hsame⟩ := hback k slot hslot
    rw [hsteps] at hstep
    rw [← hindex]
    exact hinv.streamCall k old n hold (hsame.trans hstream) step hstep hn
  · obtain ⟨old, hold, hindex, hsame⟩ := hback k slot hslot
    rw [hsteps] at hstep
    rw [← hindex] at hcall
    exact hsame.symm.trans (hinv.callStream k old hold step hstep hcall n hn)
  · rw [hids] at hkey
    rw [hsteps, hfin] at hside
    obtain ⟨old, first, hold, hfirst, hcall⟩ := hinv.idCall name key hkey hside
    obtain ⟨slot, hslot, hindex⟩ := hforth key old hold
    rw [hsteps]
    exact ⟨slot, first, hslot, hfirst, hcall.trans (congrArg some hindex)⟩
  · obtain ⟨old, hold, hindex, -⟩ := hback k slot hslot
    rw [hsteps] at hstep
    rw [← hindex] at hcall
    rw [hfin, hids]
    exact hinv.callId k old hold step hstep hcall
  · rw [hsteps]
    exact hinv.apart

/-! ## A fragment that fits -/

/-- What holds of the slot of a fragment that fits. -/
structure Lands (s : Processor) (step : BlockStep) (index : Option Nat) (id : Option Bytes) (slot : ToolSlot) :
    Prop where
  home : step.home s.steps = some slot.contentIndex
  ownIndex : ∀ n, index = some n → slot.streamIndex = some n
  ownKey : ∀ name, nonempty id = some name → index = none →
    (ProcessorCore.rememberId s.toolIds id slot.key).find name = some slot.key
  same : ∀ old, s.toolSlots.find slot.key = some old → old.contentIndex = slot.contentIndex
  others : ∀ k other, k ≠ slot.key → s.toolSlots.find k = some other → other.contentIndex ≠ slot.contentIndex
  side : ∀ other ∈ s.steps, other.call = some slot.contentIndex → other.before.blocksFinished = s.blocksFinished
  stream : ∀ other ∈ s.steps, other.call = some slot.contentIndex → ∀ n, other.callIndex = some n →
    slot.streamIndex = some n
  ids : ∀ other ∈ s.steps, other.call = some slot.contentIndex → ∀ a b, other.callId = some a →
    nonempty id = some b → a = b
  idKey : ∀ other ∈ s.steps, other.call = some slot.contentIndex → ∀ name, other.callId = some name →
    other.callIndex = none → s.toolIds.find name = some slot.key
  streamSeen : ∀ n, slot.streamIndex = some n → index = some n ∨ ∃ other ∈ s.steps, other.callIndex = some n
  streamCall : ∀ n, slot.streamIndex = some n → ∀ other ∈ s.steps, other.callIndex = some n →
    other.call = some slot.contentIndex

variable {index : Option Nat} {id : Option Bytes}

/-- **A fragment that lands in its slot keeps the invariant.** -/
theorem Routing.landed (hinv : s.Routing) {function : Bool} {slot : ToolSlot} (ht : t.Shape)
    (hlands : s.Lands ⟨.tool index id function, s.toProcessorCore⟩ index id slot)
    (hcall : (⟨.tool index id function, s.toProcessorCore⟩ : BlockStep).call = some slot.contentIndex)
    (hsteps : t.steps = s.steps ++ [⟨.tool index id function, s.toProcessorCore⟩])
    (hslots : t.toolSlots = s.toolSlots.insert slot.key slot)
    (hids : t.toolIds = ProcessorCore.rememberId s.toolIds id slot.key) (hfin : t.blocksFinished = s.blocksFinished)
    (hlen : s.assistant.content.length ≤ t.assistant.content.length)
    (hbound : slot.contentIndex < t.assistant.content.length) : t.Routing := by
  generalize hx : (⟨.tool index id function, s.toProcessorCore⟩ : BlockStep) = x at *
  have hindex : x.callIndex = index := by rw [← hx]; rfl
  have hid : x.callId = nonempty id := by rw [← hx]; rfl
  have hside : x.before.blocksFinished = s.blocksFinished := by rw [← hx]
  have hmem : ∀ {step}, step ∈ t.steps → step ∈ s.steps ∨ step = x := by
    intro step hstep
    rw [hsteps, List.mem_append, List.mem_singleton] at hstep
    exact hstep
  have hold : ∀ {step}, step ∈ s.steps → step ∈ t.steps := fun hstep => by
    rw [hsteps]
    exact List.mem_append_left _ hstep
  have hlast : x ∈ t.steps := by simp [hsteps]
  have hfind : ∀ k other, t.toolSlots.find k = some other →
      k = slot.key ∧ other = slot ∨ k ≠ slot.key ∧ s.toolSlots.find k = some other := by
    intro k other hother
    rw [hslots, OrdMap.find_insert] at hother
    split_ifs at hother with heq
    · exact Or.inl ⟨heq, (Option.some.inj hother).symm⟩
    · exact Or.inr ⟨heq, hother⟩
  have hapart : ∀ k other, k ≠ slot.key → s.toolSlots.find k = some other → x.call ≠ some other.contentIndex := by
    intro k other hne hother heq
    rw [hcall] at heq
    exact hlands.others k other hne hother (Option.some.inj heq).symm
  constructor
  case shape => exact ht
  case idSeen =>
    intro name key hkey
    rw [hids] at hkey
    rcases ProcessorCore.rememberId_cases hkey with hkey | ⟨-, hname, -⟩
    · obtain ⟨step, hstep, hname⟩ := hinv.idSeen name key hkey
      exact ⟨step, hold hstep, hname⟩
    · exact ⟨x, hlast, hid.trans hname⟩
  case seenId =>
    intro step hstep name hname
    rw [hids]
    rcases hmem hstep with hstep | rfl
    · obtain ⟨key, hkey⟩ := hinv.seenId step hstep name hname
      exact ⟨key, ProcessorCore.rememberId_keeps id _ hkey⟩
    rw [ProcessorCore.find_rememberId, if_pos (hid.symm.trans hname)]
    cases s.toolIds.find name with
    | none | some key => exact ⟨_, rfl⟩
  case past =>
    intro hopen step hstep
    rw [hfin] at hopen
    rcases hmem hstep with hstep | rfl
    · exact hinv.past hopen step hstep
    · exact hside.trans hopen
  case bound =>
    intro step hstep i hi
    rcases hmem hstep with hstep | rfl
    · exact Nat.lt_of_lt_of_le (hinv.bound step hstep i hi) hlen
    · rw [hcall] at hi
      exact Option.some.inj hi ▸ hbound
  case streamSeen =>
    intro k other n hother hstream
    rcases hfind k other hother with ⟨-, rfl⟩ | ⟨-, hother⟩
    · rcases hlands.streamSeen n hstream with hn | ⟨step, hstep, hn⟩
      · exact ⟨x, hlast, hindex.trans hn⟩
      · exact ⟨step, hold hstep, hn⟩
    · obtain ⟨step, hstep, hn⟩ := hinv.streamSeen k other n hother hstream
      exact ⟨step, hold hstep, hn⟩
  case streamCall =>
    intro k other n hother hstream step hstep hn
    rcases hfind k other hother with ⟨-, rfl⟩ | ⟨hne, hother⟩
    · rcases hmem hstep with hstep | rfl
      · exact hlands.streamCall n hstream step hstep hn
      · exact hcall
    rcases hmem hstep with hstep | rfl
    · exact hinv.streamCall k other n hother hstream step hstep hn
    -- Two slots with one index would have a fragment in common.
    obtain ⟨seen, hseen, hindexed⟩ := hinv.streamSeen k other n hother hstream
    have hthere := hinv.streamCall k other n hother hstream seen hseen hindexed
    have hhere := hlands.streamCall n (hlands.ownIndex n (hindex.symm.trans hn)) seen hseen hindexed
    exact absurd (Option.some.inj (hthere.symm.trans hhere)) (hlands.others k other hne hother)
  case callStream =>
    intro k other hother step hstep hthere n hn
    rcases hfind k other hother with ⟨-, rfl⟩ | ⟨hne, hother⟩
    · rcases hmem hstep with hstep | rfl
      · exact hlands.stream step hstep hthere n hn
      · exact hlands.ownIndex n (hindex.symm.trans hn)
    rcases hmem hstep with hstep | rfl
    · exact hinv.callStream k other hother step hstep hthere n hn
    · exact absurd hthere (hapart k other hne hother)
  case idCall =>
    intro name key hkey hsides
    rw [hids] at hkey
    rw [hslots, hsteps, List.find?_append]
    rcases ProcessorCore.rememberId_cases hkey with hkey | ⟨hnew, hname, rfl⟩
    · obtain ⟨old, first, hslot, hfirst, hat⟩ := hinv.idCall name key hkey fun step hstep hname =>
        (hsides step (hold hstep) hname).trans hfin
      rw [OrdMap.find_insert, hfirst, some_or]
      split_ifs with heq
      · exact ⟨slot, first, rfl, rfl, by rw [hat, hlands.same old (heq ▸ hslot)]⟩
      · exact ⟨old, first, hslot, rfl, hat⟩
    have hnone : s.steps.find? (fun step => step.callId = some name) = none := by
      refine List.find?_eq_none.2 fun step hstep hsame => ?_
      obtain ⟨key, hkey⟩ := hinv.seenId step hstep name (of_decide_eq_true hsame)
      exact nomatch hnew.symm.trans hkey
    rw [OrdMap.find_insert_self, hnone, none_or]
    refine ⟨slot, x, rfl, ?_, hcall⟩
    rw [List.find?_cons_of_pos]
    exact decide_eq_true (hid.trans hname)
  case callId =>
    intro k other hother step hstep hthere
    rw [hfin, hids]
    rcases hfind k other hother with ⟨rfl, rfl⟩ | ⟨hne, hother⟩
    · rcases hmem hstep with hstep | rfl
      · refine ⟨hlands.side step hstep hthere, fun name hname hnone => ?_⟩
        exact ProcessorCore.rememberId_keeps id _ (hlands.idKey step hstep hthere name hname hnone)
      · exact ⟨hside, fun name hname hnone => hlands.ownKey name (hid.symm.trans hname) (hindex.symm.trans hnone)⟩
    rcases hmem hstep with hstep | rfl
    · obtain ⟨hsame, hkeys⟩ := hinv.callId k other hother step hstep hthere
      exact ⟨hsame, fun name hname hnone => ProcessorCore.rememberId_keeps id _ (hkeys name hname hnone)⟩
    · exact absurd hthere (hapart k other hne hother)
  case apart =>
    constructor
    case called =>
      intro step hstep hfragment
      rcases hmem hstep with hstep | rfl
      · exact hinv.apart.called step hstep hfragment
      · exact ⟨_, hcall⟩
    case home =>
      rw [hsteps]
      exact along_concat.2 ⟨hinv.apart.home, fun _ => hcall.trans hlands.home.symm⟩
    case indexes =>
      intro step hstep other hother m n hm hn hsame
      rcases hmem hstep with hstep | rfl <;> rcases hmem hother with hother | rfl
      · exact hinv.apart.indexes step hstep other hother m n hm hn hsame
      · have hstream := hlands.stream step hstep (hsame.trans hcall) m hm
        exact Option.some.inj (hstream.symm.trans (hlands.ownIndex n (hindex.symm.trans hn)))
      · have hstream := hlands.stream other hother (hsame.symm.trans hcall) n hn
        exact Option.some.inj ((hlands.ownIndex m (hindex.symm.trans hm)).symm.trans hstream)
      · exact Option.some.inj (hm.symm.trans hn)
    case ids =>
      intro step hstep other hother a b ha hb hsame
      rcases hmem hstep with hstep | rfl <;> rcases hmem hother with hother | rfl
      · exact hinv.apart.ids step hstep other hother a b ha hb hsame
      · exact hlands.ids step hstep (hsame.trans hcall) a b ha (hid.symm.trans hb)
      · exact (hlands.ids other hother (hsame.symm.trans hcall) b a hb (hid.symm.trans ha)).symm
      · exact Option.some.inj (ha.symm.trans hb)

/-! ## Fragments that fit land in their slot -/

variable {name : Bytes} {step : BlockStep}

theorem callId_ne_nil (h : step.callId = some name) : name ≠ [] := by
  rw [BlockStep.callId] at h
  split at h
  · exact of_decide_eq_true (Option.filter_eq_some_iff.1 h).2
  · exact nomatch h

theorem of_nonempty (h : nonempty id = some name) : id = some name :=
  (Option.filter_eq_some_iff.1 h).1

theorem Routing.named (hinv : s.Routing) {key : Nat}
    (hid : id = some name) (hkey : s.toolIds.find name = some key) : nonempty id = some name := by
  obtain ⟨step, -, hname⟩ := hinv.idSeen name key hkey
  rw [hid]
  exact Option.filter_eq_some_iff.2 ⟨rfl, decide_eq_true (callId_ne_nil hname)⟩

theorem home_byIndex {steps : List BlockStep} {n i : Nat} (hn : step.callIndex = some n)
    (hseen : ∃ other ∈ steps, other.callIndex = some n)
    (hcalls : ∀ other ∈ steps, other.callIndex = some n → other.call = some i) : step.home steps = some i := by
  obtain ⟨other, hother, hindex⟩ := hseen
  have hsome : (steps.find? step.sameIndex).isSome := by
    refine List.find?_isSome.2 ⟨other, hother, ?_⟩
    simp [BlockStep.sameIndex, hn, hindex]
  obtain ⟨first, hfirst⟩ := Option.isSome_iff_exists.1 hsome
  have hsame := List.find?_some hfirst
  rw [BlockStep.sameIndex, hn, Option.isSome_some, Bool.true_and] at hsame
  rw [BlockStep.home, hfirst, some_or]
  exact hcalls first (List.mem_of_find?_eq_some hfirst) (of_decide_eq_true hsame)

theorem find_sameIndex_none {steps : List BlockStep}
    (h : ∀ n, step.callIndex = some n → ∀ other ∈ steps, other.callIndex ≠ some n) :
    steps.find? step.sameIndex = none := by
  refine List.find?_eq_none.2 fun other hother hsame => ?_
  rw [BlockStep.sameIndex, Bool.and_eq_true] at hsame
  obtain ⟨n, hn⟩ := Option.isSome_iff_exists.1 hsame.1
  exact h n hn other hother ((of_decide_eq_true hsame.2).trans hn)

theorem home_byId {steps : List BlockStep} {step first : BlockStep}
    (hindex : ∀ n, step.callIndex = some n → ∀ other ∈ steps, other.callIndex ≠ some n)
    (hname : step.callId = some name)
    (hfirst : steps.find? (fun other => other.callId = some name) = some first) : step.home steps = first.call := by
  have hid : steps.find? step.sameId = some first := by
    rw [← hfirst]
    refine congrArg (fun p => steps.find? p) (funext fun other => ?_)
    simp [BlockStep.sameId, hname]
  rw [BlockStep.home, find_sameIndex_none hindex, none_or, hid]

theorem Routing.joins (hinv : s.Routing) (function : Bool)
    {old : ToolSlot} (hfit : Fits s.steps s.toProcessorCore index id)
    (hfound : Found s.toProcessorCore index id (some old)) :
    s.Lands ⟨.tool index id function, s.toProcessorCore⟩ index id
      { old with streamIndex := old.streamIndex.or index } := by
  obtain ⟨k, hk⟩ := hfound.inMap
  obtain rfl := hinv.shape.key k old hk
  have hjoin : (∀ n, index = some n →
        old.streamIndex = some n ∨ old.streamIndex = none ∧ ∀ step ∈ s.steps, step.callIndex ≠ some n) ∧
      (∀ name, nonempty id = some name → index = none → s.toolIds.find name = some old.key) ∧
      (∀ step ∈ s.steps, step.call = some old.contentIndex → ∀ a b, step.callId = some a →
        nonempty id = some b → a = b) ∧
      (⟨.tool index id function, s.toProcessorCore⟩ : BlockStep).home s.steps = some old.contentIndex := by
    cases hfit with
    | byIndex n slot hindex hslot hstream hids =>
      have hsame : slot = old := by
        cases hfound with
        | byIndex m _ hindex' hslot' =>
          obtain rfl := Option.some.inj (hindex.symm.trans hindex')
          exact Option.some.inj (hslot.symm.trans hslot')
        | byId _ _ _ hnone => exact nomatch hslot.symm.trans (hnone n hindex)
      subst hsame
      obtain rfl := hinv.shape.key n slot hslot
      refine ⟨fun m hm => Or.inl (hstream.trans (hindex.symm.trans hm)), fun name _ hnone => ?_,
        fun step hstep hcall a b ha hb => ?_, ?_⟩
      · exact nomatch hindex.symm.trans hnone
      · obtain ⟨hside, hkey⟩ := hinv.callId slot.key slot hslot step hstep hcall
        refine hids b a hb ⟨step, hstep, hside, ha, ?_⟩
        cases hstepIndex : step.callIndex with
        | none => exact Or.inr ⟨rfl, hkey a ha hstepIndex⟩
        | some m =>
          exact Or.inl ((hinv.callStream slot.key slot hslot step hstep hcall m hstepIndex).symm.trans hstream)
      · exact home_byIndex hindex (hinv.streamSeen slot.key slot slot.key hslot hstream)
          (hinv.streamCall slot.key slot slot.key hslot hstream)
    | byId name key slot hid hkey hslot hside hindex =>
      have hsame : slot = old := by
        cases hfound with
        | byIndex m _ hindex' hslot' =>
          obtain rfl := (hindex m hindex').1 old hslot'
          exact Option.some.inj (hslot.symm.trans hslot')
        | byId other _ _ _ hid' hkey' hslot' =>
          obtain rfl := Option.some.inj ((of_nonempty hid).symm.trans hid')
          obtain rfl := Option.some.inj (hkey.symm.trans hkey')
          exact Option.some.inj (hslot.symm.trans hslot')
      subst hsame
      obtain rfl := hinv.shape.key key slot hslot
      obtain ⟨there, first, hthere, hfirst, hcall⟩ := hinv.idCall name slot.key hkey hside
      obtain rfl := Option.some.inj (hslot.symm.trans hthere)
      refine ⟨fun n hn => (hindex n hn).2, fun other hother _ => ?_, fun step hstep hat a b ha hb => ?_, ?_⟩
      · obtain rfl := Option.some.inj (hid.symm.trans hother)
        exact hkey
      · obtain rfl := Option.some.inj (hid.symm.trans hb)
        have hname : first.callId = some name := by simpa using List.find?_some hfirst
        exact hinv.apart.ids step hstep first (List.mem_of_find?_eq_some hfirst) a name ha hname
          (hat.trans hcall.symm)
      · by_cases hseen : ∃ n, index = some n ∧ slot.streamIndex = some n
        · obtain ⟨n, hn, hstream⟩ := hseen
          exact home_byIndex hn (hinv.streamSeen slot.key slot n hslot hstream)
            (hinv.streamCall slot.key slot n hslot hstream)
        · have hindexed : ∀ n, index = some n → ∀ step ∈ s.steps, step.callIndex ≠ some n := fun n hn =>
            ((hindex n hn).2.resolve_left fun hstream => hseen ⟨n, hn, hstream⟩).2
          have hhome : BlockStep.home s.steps ⟨.tool index id function, s.toProcessorCore⟩ = first.call :=
            home_byId hindexed hid hfirst
          exact hhome.trans hcall
    | opens hid hindex hfree =>
      cases hfound with
      | byIndex n _ hn hslot =>
        subst hn
        exact nomatch hslot.symm.trans hfree
      | byId name key _ _ hname hkey => exact nomatch hkey.symm.trans (hid name (hinv.named hname hkey))
  obtain ⟨hindex, hkey, hids, hhome⟩ := hjoin
  refine ⟨hhome, fun n hn => ?_, fun name hname hnone => ?_, fun other hother => ?_, fun k other hne hother => ?_,
    fun step hstep hcall => ?_, fun step hstep hcall n hn => ?_, hids, fun step hstep hcall => ?_, fun n hn => ?_,
    fun n hn step hstep hstepIndex => ?_⟩
  · rcases hindex n hn with hstream | ⟨hstream, -⟩
    · rw [hstream, some_or]
    · rw [hstream, none_or, hn]
  · exact ProcessorCore.rememberId_keeps id _ (hkey name hname hnone)
  · rw [← Option.some.inj (hk.symm.trans hother)]
  · exact fun heq => hne (hinv.shape.apart k other old.key old hother hk heq)
  · exact (hinv.callId old.key old hk step hstep hcall).1
  · rw [hinv.callStream old.key old hk step hstep hcall n hn, some_or]
  · exact (hinv.callId old.key old hk step hstep hcall).2
  · cases hstream : old.streamIndex with
    | none => exact Or.inl (by rwa [hstream, none_or] at hn)
    | some m =>
      rw [hstream, some_or] at hn
      exact Or.inr (hinv.streamSeen old.key old n hk (hstream.trans hn))
  · cases hstream : old.streamIndex with
    | none =>
      have hn : index = some n := by rwa [hstream, none_or] at hn
      have hunseen := ((hindex n hn).resolve_left fun h => nomatch hstream.symm.trans h).2
      exact absurd hstepIndex (hunseen step hstep)
    | some m =>
      rw [hstream, some_or] at hn
      exact hinv.streamCall old.key old n hk (hstream.trans hn) step hstep hstepIndex

theorem Routing.opens (hinv : s.Routing) (function : Bool)
    (hfit : Fits s.steps s.toProcessorCore index id) (hfound : Found s.toProcessorCore index id none) :
    s.Lands ⟨.tool index id function, s.toProcessorCore⟩ index id (s.newSlot index) := by
  have hnew : ∀ step ∈ s.steps, step.call ≠ some s.assistant.content.length := fun step hstep hcall =>
    Nat.lt_irrefl _ (hinv.bound step hstep _ hcall)
  cases hfound with
  | nowhere hnoIndex hnoId =>
  cases hfit with
  | byIndex n slot hindex hslot => exact nomatch hslot.symm.trans (hnoIndex n hindex)
  | byId name key slot hid hkey => exact nomatch hkey.symm.trans (hnoId name (of_nonempty hid))
  | opens hid hindex hfree =>
    refine ⟨?_, fun n hn => hn, fun name hname _ => ?_, fun old hold => ?_, fun k other hne hother heq => ?_,
      fun step hstep hcall => absurd hcall (hnew step hstep), fun step hstep hcall => absurd hcall (hnew step hstep),
      fun step hstep hcall => absurd hcall (hnew step hstep), fun step hstep hcall => absurd hcall (hnew step hstep),
      fun n hn => Or.inl hn, fun n hn step hstep hcall => absurd hcall (hindex n hn step hstep)⟩
    · have hnone : s.steps.find? (BlockStep.sameId ⟨.tool index id function, s.toProcessorCore⟩) = none := by
        refine List.find?_eq_none.2 fun step hstep hsame => ?_
        rw [BlockStep.sameId, Bool.and_eq_true] at hsame
        obtain ⟨name, hname⟩ := Option.isSome_iff_exists.1 hsame.1
        obtain ⟨key, hkey⟩ := hinv.seenId step hstep name ((of_decide_eq_true hsame.2).trans hname)
        exact nomatch hkey.symm.trans (hid name hname)
      have hunseen : s.steps.find? (BlockStep.sameIndex ⟨.tool index id function, s.toProcessorCore⟩) = none :=
        find_sameIndex_none hindex
      rw [BlockStep.home, hunseen, hnone]
      rfl
    · rw [ProcessorCore.find_rememberId, hid name hname, if_pos hname, none_or]
    · exact nomatch hold.symm.trans hfree
    · obtain ⟨hlt, -⟩ := List.getElem?_eq_some_iff.1 (hinv.shape.tool k other hother)
      rw [heq, kinds, List.length_map] at hlt
      exact Nat.lt_irrefl _ hlt

theorem Routing.not_stuck (hinv : s.Routing) {fault : Fault} (hfit : Fits s.steps s.toProcessorCore index id) :
    ¬ ProcessorCore.Stuck s.toProcessorCore index id fault := by
  intro hstuck
  cases hstuck with
  | hang hfound htaken =>
    obtain ⟨slot, hslot⟩ := htaken
    cases hfound with
    | nowhere hnoIndex hnoId =>
    cases hfit with
    | byIndex n other hindex hother => exact nomatch hother.symm.trans (hnoIndex n hindex)
    | byId name key other hid hkey => exact nomatch hkey.symm.trans (hnoId name (of_nonempty hid))
    | opens hid hindex hfree => exact nomatch hslot.symm.trans hfree
  | thrown name key hnoIndex hid hkey hslot =>
    cases hfit with
    | byIndex n other hindex hother => exact nomatch hother.symm.trans (hnoIndex n hindex)
    | byId other key' slot hid' hkey' hslot' =>
      obtain rfl := Option.some.inj (hid.symm.trans (of_nonempty hid'))
      obtain rfl := Option.some.inj (hkey.symm.trans hkey')
      exact nomatch hslot.symm.trans hslot'
    | opens hid' => exact nomatch hkey.symm.trans (hid' name (hinv.named hid hkey))

/-! ## Runs -/

theorem Routing.noted (hinv : s.Routing) {action : BlockAction}
    (h : ∀ index id function, action ≠ .tool index id function) : (s.recorded action).Routing := by
  have hother : ∀ {step}, step ∈ (s.recorded action).steps →
      step ∈ s.steps ∨ step.callIndex = none ∧ step.callId = none ∧ step.call = none ∧ ¬ step.IsFragment ∧
        step.before = s.toProcessorCore := by
    intro step hstep
    rcases List.mem_append.1 hstep with hstep | hstep
    · exact Or.inl hstep
    obtain rfl := List.mem_singleton.1 hstep
    cases action with
    | tool index id function => exact absurd rfl (h index id function)
    | _ => exact Or.inr ⟨rfl, rfl, rfl, (fun ⟨_, _, _, heq⟩ => nomatch heq), rfl⟩
  have hold : ∀ {step}, step ∈ s.steps → step ∈ (s.recorded action).steps := fun hstep =>
    List.mem_append_left _ hstep
  refine ⟨⟨hinv.shape.text, hinv.shape.thinking, hinv.shape.key, hinv.shape.tool, hinv.shape.apart⟩,
    fun name key hkey => ?_, fun step hstep name hname => ?_, fun hopen step hstep => ?_, fun step hstep i hi => ?_,
    fun k slot n hslot hstream => ?_, fun k slot n hslot hstream step hstep hn => ?_,
    fun k slot hslot step hstep hcall n hn => ?_, fun name key hkey hside => ?_,
    fun k slot hslot step hstep hcall => ?_, ?_⟩
  · obtain ⟨step, hstep, hname⟩ := hinv.idSeen name key hkey
    exact ⟨step, hold hstep, hname⟩
  · rcases hother hstep with hstep | ⟨-, hid, -⟩
    · exact hinv.seenId step hstep name hname
    · exact nomatch hid.symm.trans hname
  · rcases hother hstep with hstep | ⟨-, -, -, -, hprev⟩
    · exact hinv.past hopen step hstep
    · rw [hprev]
      exact hopen
  · rcases hother hstep with hstep | ⟨-, -, hcall, -⟩
    · exact hinv.bound step hstep i hi
    · exact nomatch hcall.symm.trans hi
  · obtain ⟨step, hstep, hn⟩ := hinv.streamSeen k slot n hslot hstream
    exact ⟨step, hold hstep, hn⟩
  · rcases hother hstep with hstep | ⟨hindex, -⟩
    · exact hinv.streamCall k slot n hslot hstream step hstep hn
    · exact nomatch hindex.symm.trans hn
  · rcases hother hstep with hstep | ⟨hindex, -⟩
    · exact hinv.callStream k slot hslot step hstep hcall n hn
    · exact nomatch hindex.symm.trans hn
  · obtain ⟨slot, first, hslot, hfirst, hcall⟩ := hinv.idCall name key hkey fun step hstep hname =>
      hside step (hold hstep) hname
    refine ⟨slot, first, hslot, ?_, hcall⟩
    show (s.steps ++ _).find? _ = some first
    rw [List.find?_append, hfirst, some_or]
  · rcases hother hstep with hstep | ⟨-, -, hnone, -⟩
    · exact hinv.callId k slot hslot step hstep hcall
    · exact nomatch hnone.symm.trans hcall
  · refine ⟨fun step hstep hfragment => ?_, along_concat.2 ⟨hinv.apart.home, ?_⟩,
      fun step hstep other hstep' m n hm hn hsame => ?_, fun step hstep other hstep' a b ha hb hsame => ?_⟩
    · rcases hother hstep with hstep | ⟨-, -, -, hnot, -⟩
      · exact hinv.apart.called step hstep hfragment
      · exact absurd hfragment hnot
    · rintro ⟨index, id, function, heq⟩
      exact absurd heq (h index id function)
    · rcases hother hstep with hstep | ⟨hindex, -⟩
      · rcases hother hstep' with hstep' | ⟨hindex, -⟩
        · exact hinv.apart.indexes step hstep other hstep' m n hm hn hsame
        · exact nomatch hindex.symm.trans hn
      · exact nomatch hindex.symm.trans hm
    · rcases hother hstep with hstep | ⟨-, hid, -⟩
      · rcases hother hstep' with hstep' | ⟨-, hid, -⟩
        · exact hinv.apart.ids step hstep other hstep' a b ha hb hsame
        · exact nomatch hid.symm.trans hb
      · exact nomatch hid.symm.trans ha

theorem Routing.ended (hinv : s.Routing) (hopen : s.blocksFinished = false) :
    Routing { s with toolSlots := .empty, blocksFinished := true, finishPending := false } where
  shape := (Change.ended hopen).shape hinv.shape
  idSeen := hinv.idSeen
  seenId := hinv.seenId
  past := fun h => nomatch h
  bound := hinv.bound
  streamSeen := fun _ _ _ hslot => nomatch hslot
  streamCall := fun _ _ _ hslot => nomatch hslot
  callStream := fun _ _ hslot => nomatch hslot
  idCall := by
    intro name key hkey hside
    obtain ⟨step, hstep, hname⟩ := hinv.idSeen name key hkey
    exact nomatch (hinv.past hopen step hstep).symm.trans (hside step hstep hname)
  callId := fun _ _ hslot => nomatch hslot
  apart := hinv.apart

/-- **A fragment that fits keeps the invariant.** -/
theorem Routing.routed (hinv : s.Routing)
    {function : Bool} {slot : ToolSlot} (hfit : Fits s.steps s.toProcessorCore index id)
    (h : s.findOrCreateTool index id = .ok (slot, t.toProcessorCore))
    (hsteps : t.steps = s.steps ++ [⟨.tool index id function, s.toProcessorCore⟩]) : t.Routing := by
  have hrouted := ProcessorCore.findOrCreateTool_ok h
  have hshape : t.Shape := routed_shape hinv.shape hrouted
  have hcall : (⟨.tool index id function, s.toProcessorCore⟩ : BlockStep).call = some slot.contentIndex := by
    simp only [BlockStep.call, h]
  have hfin : t.blocksFinished = s.blocksFinished := by rw [hrouted.rest]
  have hbound : slot.contentIndex < t.assistant.content.length := by
    have hslot : t.toolSlots.find slot.key = some slot := by rw [hrouted.slots, OrdMap.find_insert_self]
    obtain ⟨hlt, -⟩ := List.getElem?_eq_some_iff.1 (hshape.tool slot.key slot hslot)
    rwa [kinds, List.length_map] at hlt
  rcases hrouted.found with ⟨old, hfound, rfl, hasst, -⟩ | ⟨hfound, rfl, -, ⟨call, hasst, -⟩, -⟩
  · refine hinv.landed hshape (hinv.joins function hfit hfound) hcall hsteps hrouted.slots hrouted.ids hfin ?_ hbound
    rw [hasst]
  refine hinv.landed hshape (hinv.opens function hfit hfound) hcall hsteps hrouted.slots hrouted.ids hfin ?_ hbound
  rw [hasst, ProcessorCore.pushBlock, List.length_append]
  exact Nat.le_add_right _ _

theorem Change.routing (h : Change s t) (hinv : s.Routing)
    (hfits : Along (fun earlier step => step.Fits earlier) t.steps) : t.Routing := by
  have hshape := h.shape hinv.shape
  have hlonger : ∀ block : AssistantContent,
      s.assistant.content.length ≤ (s.assistant.content ++ [block]).length := fun block => by
    rw [List.length_append]
    exact Nat.le_add_right _ _
  cases h with
  | quiet h =>
    have hlen : s.assistant.content.length = t.assistant.content.length := by
      rw [← t.kinds_length, ← s.kinds_length, h.kinds]
    refine hinv.same hshape h.steps h.ids h.finished hlen.le (fun k slot hslot => ?_) fun k old hold => ?_
    · exact ⟨slot, by rw [← h.slots, hslot], rfl, rfl⟩
    · exact ⟨old, by rw [h.slots, hold], rfl⟩
  | recorded action h => exact hinv.noted h
  | openedText block | openedThinking block =>
    exact hinv.same hshape rfl rfl rfl (hlonger _) (fun k slot hslot => ⟨slot, hslot, rfl, rfl⟩)
      fun k old hold => ⟨old, hold, rfl⟩
  | routed index id function slot core h => exact hinv.routed (along_concat.1 hfits).2 h rfl
  | started slot h =>
    refine hinv.same hshape rfl rfl rfl (Nat.le_refl _) (fun k other hother => ?_) fun k old hold => ?_
    · rw [OrdMap.find_insert] at hother
      split_ifs at hother with heq
      · cases hother
        exact ⟨slot, by rw [heq]; exact h, rfl, rfl⟩
      · exact ⟨other, hother, rfl, rfl⟩
    rw [OrdMap.find_insert]
    split_ifs with heq
    · rw [heq, h] at hold
      exact ⟨_, rfl, by rw [← Option.some.inj hold]⟩
    · exact ⟨old, hold, rfl⟩
  | ended h => exact hinv.ended h

theorem Change.steps (h : Change s t) : t.steps = s.steps ∨ ∃ step, t.steps = s.steps ++ [step] := by
  cases h with
  | quiet h => exact Or.inl h.steps
  | recorded action h | routed index id function slot core h => exact Or.inr ⟨_, rfl⟩
  | openedText block | openedThinking block | started slot h | ended h => exact Or.inl rfl

theorem Reach.routing (h : Reach s t) (hinv : s.Routing)
    (hfits : Along (fun earlier step => step.Fits earlier) t.steps) : t.Routing := by
  induction h with
  | refl => exact hinv
  | tail hreach hchange ih =>
    refine hchange.routing (ih ?_) hfits
    rcases hchange.steps with heq | ⟨step, heq⟩
    · rwa [← heq]
    · rw [heq] at hfits
      exact (along_concat.1 hfits).1

theorem create_routing (model : Model) (assistant : AssistantMessage) (sink : Option AssistantEventSink) :
    (create model assistant sink).Routing where
  shape := create_shape model assistant sink
  idSeen := by rintro _ _ ⟨⟩
  seenId := by rintro _ ⟨⟩
  past := by rintro _ _ ⟨⟩
  bound := by rintro _ ⟨⟩
  streamSeen := by rintro _ _ _ ⟨⟩
  streamCall := by rintro _ _ _ ⟨⟩
  callStream := by rintro _ _ ⟨⟩
  idCall := by rintro _ _ ⟨⟩
  callId := by rintro _ _ ⟨⟩
  apart := ⟨(by rintro _ ⟨⟩), along_nil, (by rintro _ ⟨⟩), (by rintro _ ⟨⟩)⟩

/-- **Tool calls stay apart.** When every fragment fits, every call of a sequence of chunks returns, every
fragment is in the call of its index or its id, and different indexes or ids are in different calls. -/
theorem fragments_apart (services : ProcessorServices) (model : Model) (assistant : AssistantMessage)
    (sink : Option AssistantEventSink) (events : List (JsonObject Json))
    (h : Along (fun earlier step => step.Fits earlier)
      (endState (processAll services events) (create model assistant sink)).steps) :
    ∃ t, processAll services events (create model assistant sink) = .ok () t ∧ Apart t.steps := by
  have hinv := create_routing model assistant sink
  have hrun := processAll_runs hinv.shape services events _ .refl
  rw [endState] at h
  cases hresult : processAll services events (create model assistant sink) with
  | ok result t =>
    rw [hresult] at h hrun
    exact ⟨t, rfl, (Reach.routing hrun hinv h).apart⟩
  | error fault t =>
    rw [hresult] at h hrun
    obtain ⟨u, index, id, function, hreach, hfault, rfl⟩ := hrun
    obtain ⟨hearlier, hfit⟩ := along_concat.1 h
    exact absurd (ProcessorCore.findOrCreateTool_error hfault) ((hreach.routing hinv hearlier).not_stuck hfit)

/-! ## Two streams -/

/-- A chunk with one fragment that has no function. -/
def fragmentChunk (index : Option Int) (id : Option Bytes) : JsonObject Json :=
  deltaChunk [(ofString "tool_calls", .array [.object (((index.map fun n => (ofString "index", number n)).toList) ++
    (id.map fun id => (ofString "id", .string id)).toList)])]

/-- What a fragment finds: the slots and the ids. -/
def seen (step : BlockStep) : BlockAction × List (Nat × ToolSlot) × List (Bytes × Nat) :=
  (step.action, step.before.toolSlots.entries, step.before.toolIds.entries)

/-- Two fragments of one index, the second one without an id. -/
theorem fragments_apart_continued :
    ∃ t, processAll plainServices [fragmentChunk (some 0) (some (ofString "a")), fragmentChunk (some 0) none]
        (create plainModel blankMessage none) = .ok () t ∧ Apart t.steps := by
  refine fragments_apart plainServices plainModel blankMessage none _ ?_
  generalize hend : Processor.steps _ = steps
  have hseen : steps.map seen = [(.tool (some 0) (some (ofString "a")) false, [], []),
        (.tool (some 0) none false, [(0, ⟨0, 0, some 0, false⟩)], [(ofString "a", 0)])] := by
    rw [← hend]
    decide +kernel
  obtain ⟨first, rest, rfl, hfirst, hrest⟩ := List.map_eq_cons_iff.1 hseen
  obtain ⟨second, rest, rfl, hsecond, hrest⟩ := List.map_eq_cons_iff.1 hrest
  obtain rfl := List.map_eq_nil_iff.1 hrest
  obtain ⟨hact, hslots, hids⟩ := by simpa only [seen, Prod.mk.injEq] using hfirst
  obtain ⟨hact', hslots', -⟩ := by simpa only [seen, Prod.mk.injEq] using hsecond
  refine along_concat.2 ⟨along_concat.2 ⟨along_nil, ?_⟩, ?_⟩
  · rw [BlockStep.Fits, hact]
    refine .opens (fun name _ => ?_) (fun _ _ _ h => nomatch h) ?_
    · rw [OrdMap.find, hids]
      rfl
    · rw [OrdMap.find, hslots]
      rfl
  rw [BlockStep.Fits, hact']
  refine .byIndex 0 ⟨0, 0, some 0, false⟩ rfl ?_ rfl fun _ _ h => nomatch h
  rw [OrdMap.find, hslots']
  rfl

/-- A fragment with index 0, then one without an index: the key from the counter is taken. -/
theorem taken_key_hangs : ¬ ∀ (services : ProcessorServices) (model : Model) (assistant : AssistantMessage)
        (sink : Option AssistantEventSink) (events : List (JsonObject Json)),
      ∃ t, processAll services events (create model assistant sink) = .ok () t ∧ Apart t.steps := by
  intro hclaim
  obtain ⟨t, hrun, -⟩ := hclaim plainServices plainModel blankMessage none
    [fragmentChunk (some 0) none, fragmentChunk none (some (ofString "b"))]
  have hhang : (match processAll plainServices [fragmentChunk (some 0) none, fragmentChunk none (some (ofString "b"))]
      (create plainModel blankMessage none) with
    | .error .hang _ => true
    | _ => false) = true := by decide +kernel
  rw [hrun] at hhang
  exact nomatch hhang

end Processor

end CodingHarness.Ai
