import CodingHarness.Ai.ProcessorChanges

/-!
# Events of a block

A sink is told every content block by one start event, its deltas, and one end event with the text that the
deltas make up (`WellTold`). `events_wellFormed` is the result for every sequence of chunks that the processor
accepts with its end. It needs `BlockStep.Sound` of every step: the blocks are not written after their end, a
thinking block that was opened without text does not get a text, and every tool call was started when the
blocks end.
-/

namespace CodingHarness.Ai

open Library Support Agent
open List (append_nil getElem?_eq_none getElem?_map length_append map_append map_set nil_append)

/-! ## What the sink is told -/

/-- The part of an event about a block. -/
inductive BlockEvent where
  | start (kind : BlockKind)
  | delta (kind : BlockKind) (text : Bytes)
  | stop (kind : BlockKind) (text : Bytes)
  deriving DecidableEq

/-- The content index of an event about a block, and what it says. -/
def blockEvent : AssistantStreamEvent → Option (Nat × BlockEvent)
  | .textStart index _ => some (index, .start .text)
  | .textDelta index delta _ => some (index, .delta .text delta)
  | .textEnd index text _ => some (index, .stop .text text)
  | .thinkingStart index _ => some (index, .start .thinking)
  | .thinkingDelta index delta _ => some (index, .delta .thinking delta)
  | .thinkingEnd index text _ => some (index, .stop .thinking text)
  | .toolCallStart index _ => some (index, .start .toolCall)
  | .toolCallDelta index delta _ => some (index, .delta .toolCall delta)
  | .toolCallEnd index call _ => some (index, .stop .toolCall call.rawArguments)
  | .start _ => none
  | .done _ => none
  | .error _ => none

/-- The events about the block at an index. -/
def eventsAt (c : Nat) (sent : List AssistantStreamEvent) : List BlockEvent :=
  sent.filterMap fun event => (blockEvent event).bind fun told => if told.1 = c then some told.2 else none

/-- The text, the thinking, or the raw arguments of a block. -/
def blockText : AssistantContent → Bytes
  | .text block => block.text
  | .thinking block => block.thinking
  | .toolCall call => call.rawArguments

/-- A start event and the deltas of a text. -/
def Begun (kind : BlockKind) (text : Bytes) (events : List BlockEvent) : Prop :=
  ∃ deltas : List Bytes, deltas.flatten = text ∧ events = .start kind :: deltas.map (.delta kind)

/-- One start event, the deltas of a text, and one end event with the text. -/
def WellTold (kind : BlockKind) (text : Bytes) (events : List BlockEvent) : Prop :=
  ∃ deltas : List Bytes, deltas.flatten = text ∧
    events = .start kind :: (deltas.map (.delta kind) ++ [.stop kind text])

/-- Every block of a message is well told, and nothing else is told. -/
structure WellFormed (message : AssistantMessage) (sent : List AssistantStreamEvent) : Prop where
  blocks : ∀ c block, message.content[c]? = some block → WellTold (blockKind block) (blockText block) (eventsAt c sent)
  beyond : ∀ c, message.content.length ≤ c → eventsAt c sent = []

/-- A step that keeps the events well formed, from the state it finds. -/
def BlockStep.Sound (step : BlockStep) : Prop := match step.action with
  | .text _ => step.before.blocksFinished = false
  | .thinking _ => step.before.blocksFinished = false ∧ ∀ index block, step.before.thinkingIndex = some index →
      step.before.assistant.content[index]? = some (.thinking block) → block.thinking ≠ []
  | .tool _ _ _ => step.before.blocksFinished = false
  | .details => step.before.thinkingIndex = none → step.before.blocksFinished = false
  | .finish => ∀ key slot, step.before.toolSlots.find key = some slot → slot.startEmitted = true

/-- A check of `Sound` that evaluates. -/
def BlockStep.check (step : BlockStep) : Bool := match step.action with
  | .text _ | .tool _ _ _ => !step.before.blocksFinished
  | .thinking _ => !step.before.blocksFinished &&
    match step.before.thinkingIndex.bind fun index => step.before.assistant.content[index]? with
    | some (.thinking block) => !block.thinking.isEmpty
    | _ => true
  | .details => step.before.thinkingIndex.isSome || !step.before.blocksFinished
  | .finish => step.before.toolSlots.values.all ToolSlot.startEmitted

theorem BlockStep.sound_of_check {step : BlockStep} (h : step.check = true) : step.Sound := by
  unfold BlockStep.check at h
  unfold BlockStep.Sound
  cases haction : step.action with
  | text delta | tool index id function => simpa [haction] using h
  | thinking delta =>
    simp only [haction, Bool.and_eq_true, Bool.not_eq_true'] at h
    refine ⟨h.1, fun index block hindex hblock hempty => ?_⟩
    have hcheck := h.2
    rw [hindex, Option.bind_some, hblock] at hcheck
    simp [hempty] at hcheck
  | details =>
    intro hnone
    simpa [haction, hnone] using h
  | finish =>
    intro key slot hslot
    simp only [haction, List.all_eq_true] at h
    exact h slot (OrdMap.mem_values_of_find hslot)

theorem eventsAt_append (c : Nat) (sent more : List AssistantStreamEvent) :
    eventsAt c (sent ++ more) = eventsAt c sent ++ eventsAt c more := List.filterMap_append

variable {event : AssistantStreamEvent} {index : Nat} {told : BlockEvent}

theorem eventsAt_cons
    (h : blockEvent event = some (index, told)) (c : Nat) (sent : List AssistantStreamEvent) :
    eventsAt c (event :: sent) = (if index = c then [told] else []) ++ eventsAt c sent := by
  rw [eventsAt, List.filterMap_cons, h, Option.bind_some]
  split_ifs <;> rfl

theorem eventsAt_one (h : blockEvent event = some (index, told)) (c : Nat) :
    eventsAt c [event] = if index = c then [told] else [] := by
  rw [eventsAt_cons h]
  exact append_nil _

theorem eventsAt_pair {event next : AssistantStreamEvent} {told more : BlockEvent}
    (h : blockEvent event = some (index, told)) (h' : blockEvent next = some (index, more)) (c : Nat) :
    eventsAt c [event, next] = if index = c then [told, more] else [] := by
  rw [eventsAt_cons h, eventsAt_one h']
  split_ifs <;> rfl

variable {events : List BlockEvent}

theorem Begun.more {kind : BlockKind} {text : Bytes} (h : Begun kind text events)
    (delta : Bytes) : Begun kind (text ++ delta) (events ++ [.delta kind delta]) := by
  obtain ⟨deltas, rfl, rfl⟩ := h
  refine ⟨deltas ++ [delta], ?_, ?_⟩
  · rw [List.flatten_concat]
  · rw [map_append, List.cons_append]
    rfl

theorem Begun.stop {kind : BlockKind} {text : Bytes} (h : Begun kind text events) :
    WellTold kind text (events ++ [.stop kind text]) := by
  obtain ⟨deltas, htext, rfl⟩ := h
  exact ⟨deltas, htext, rfl⟩

theorem begun_nil (kind : BlockKind) : Begun kind [] [.start kind] := ⟨[], rfl, rfl⟩

namespace Processor

/-! ## The invariant -/

def shown (s : Processor) : List (BlockKind × Bytes) :=
  s.assistant.content.map fun block => (blockKind block, blockText block)

/-- A tool call at an index has a slot and no events yet. -/
def Unstarted (s : Processor) (c : Nat) : Prop :=
  ∃ key slot, s.toolSlots.find key = some slot ∧ slot.contentIndex = c ∧ slot.startEmitted = false

/-- What was told of a block, before and after its end. -/
structure Told (ended unstarted : Prop) (kind : BlockKind) (text : Bytes) (events : List BlockEvent) : Prop where
  whole : ended → WellTold kind text events
  silent : ¬ ended → unstarted → text = [] ∧ events = []
  begun : ¬ ended → ¬ unstarted → Begun kind text events

/-- The sink was told the blocks, those of `ended` with their end. -/
structure Telling (ended : Nat → Prop) (s : Processor) : Prop where
  told : ∀ c kind text, s.shown[c]? = some (kind, text) →
    Told (ended c) (s.Unstarted c) kind text (eventsAt c s.sent)
  beyond : ∀ c, s.shown.length ≤ c → eventsAt c s.sent = []

variable {s t : Processor}

theorem Telling.at {ended ended' : Nat → Prop} (h : Telling ended s) (i : Nat)
    (hended : ∀ c, c ≠ i → (ended' c ↔ ended c)) (hshown : ∀ c, c ≠ i → t.shown[c]? = s.shown[c]?)
    (hevents : ∀ c, c ≠ i → eventsAt c t.sent = eventsAt c s.sent)
    (hslots : ∀ c, c ≠ i → (t.Unstarted c ↔ s.Unstarted c)) (hhere : ∃ kind text, t.shown[i]? = some (kind, text) ∧
      Told (ended' i) (t.Unstarted i) kind text (eventsAt i t.sent)) : Telling ended' t := by
  obtain ⟨kind, text, hat, htold⟩ := hhere
  refine ⟨fun c kind' text' hc => ?_, fun c hc => ?_⟩
  · by_cases hci : c = i
    · subst hci
      obtain ⟨rfl, rfl⟩ := Prod.mk.inj (Option.some.inj (hat.symm.trans hc))
      exact htold
    · rw [hshown c hci] at hc
      rw [hevents c hci]
      have hold := h.told c kind' text' hc
      rw [propext (hended c hci)]
      exact ⟨hold.whole, fun hopen hnone => hold.silent hopen ((hslots c hci).1 hnone),
        fun hopen hsome => hold.begun hopen fun hnone => hsome ((hslots c hci).2 hnone)⟩
  have hnone := getElem?_eq_none hc
  have hci : c ≠ i := by
    rintro rfl
    exact nomatch hat.symm.trans hnone
  rw [hevents c hci]
  exact h.beyond c (List.getElem?_eq_none_iff.1 ((hshown c hci).symm.trans hnone))

theorem unstarted_congr (h : t.toolSlots = s.toolSlots) (c : Nat) : t.Unstarted c ↔ s.Unstarted c := by
  rw [Unstarted, Unstarted, h]

variable {i : Nat} {sent : List AssistantStreamEvent}

theorem eventsAt_concat_other {c : Nat} (h : blockEvent event = some (i, told)) (hc : c ≠ i) :
    eventsAt c (sent ++ [event]) = eventsAt c sent := by
  rw [eventsAt_append, eventsAt_cons h, if_neg (Ne.symm hc)]
  exact append_nil _

theorem eventsAt_concat_here (h : blockEvent event = some (i, told)) :
    eventsAt i (sent ++ [event]) = eventsAt i sent ++ [told] := by
  rw [eventsAt_append, eventsAt_cons h, if_pos rfl]
  rfl

variable {kind : BlockKind}

theorem Telling.continued {ended : Nat → Prop} (h : Telling ended s)
    {text delta : Bytes} (hat : s.shown[i]? = some (kind, text))
    (hopen : ¬ ended i) (hbegun : ¬ s.Unstarted i) (hshown : t.shown = s.shown.set i (kind, text ++ delta))
    (hsent : t.sent = s.sent ++ [event]) (hslots : t.toolSlots = s.toolSlots)
    (hevent : blockEvent event = some (i, .delta kind delta)) : Telling ended t := by
  refine h.at i (fun _ _ => Iff.rfl) (fun c hc => ?_) (fun c hc => ?_) (fun c _ => unstarted_congr hslots c)
    ⟨kind, text ++ delta, ?_, ?_⟩
  · rw [hshown, List.getElem?_set_ne (Ne.symm hc)]
  · rw [hsent, eventsAt_concat_other hevent hc]
  · obtain ⟨hlt, -⟩ := List.getElem?_eq_some_iff.1 hat
    rw [hshown, List.getElem?_set_self hlt]
  · rw [hsent, eventsAt_concat_here hevent]
    exact ⟨fun hended => absurd hended hopen, fun _ hnone => absurd ((unstarted_congr hslots i).1 hnone) hbegun,
      fun _ _ => ((h.told i kind text hat).begun hopen hbegun).more delta⟩

variable {events : List AssistantStreamEvent} {told : List BlockEvent}

theorem Telling.opened {ended : Nat → Prop} (h : Telling ended s) {text : Bytes} (hopen : ¬ ended s.shown.length)
    (hstarted : ¬ t.Unstarted s.shown.length) (hbegun : Begun kind text told)
    (hevents : ∀ c, eventsAt c events = if s.shown.length = c then told else [])
    (hshown : t.shown = s.shown ++ [(kind, text)]) (hsent : t.sent = s.sent ++ events)
    (hslots : t.toolSlots = s.toolSlots) : Telling ended t := by
  refine h.at s.shown.length (fun _ _ => Iff.rfl) (fun c hc => ?_) (fun c hc => ?_) (fun c _ => unstarted_congr hslots c)
    ⟨kind, text, ?_, ?_⟩
  · rw [hshown]
    rcases Nat.lt_or_gt_of_ne hc with hlt | hgt
    · exact List.getElem?_append_left hlt
    rw [getElem?_eq_none hgt.le, getElem?_eq_none]
    rw [length_append]
    exact hgt
  · rw [hsent, eventsAt_append, hevents, if_neg (Ne.symm hc), append_nil]
  · rw [hshown, List.getElem?_concat_length]
  · rw [hsent, eventsAt_append, hevents, if_pos rfl, h.beyond _ (Nat.le_refl _), nil_append]
    exact ⟨fun hended => absurd hended hopen, fun _ hnone => absurd hnone hstarted, fun _ _ => hbegun⟩

/-- Before the end of the blocks, every tool call has a slot. -/
def Slotted (s : Processor) : Prop :=
  ∀ c text, s.shown[c]? = some (.toolCall, text) → ∃ key slot, s.toolSlots.find key = some slot ∧ slot.contentIndex = c

/-- The invariant of an accepted run. -/
structure Good (s : Processor) : Prop where
  heard : s.sink.isSome
  reason : s.sawFinishReason = true → s.finishPending = true ∨ s.blocksFinished = true
  telling : (∀ step ∈ s.steps, step.Sound) → Telling (fun _ => s.blocksFinished = true) s
  slotted : (∀ step ∈ s.steps, step.Sound) → s.blocksFinished = false → s.Slotted

/-! ## Calls that end with a value -/

variable {a : Unit}

theorem emit_ok (hsink : s.sink.isSome) (h : emit event s = .ok a t) : t = { s with sent := s.sent ++ [event] } := by
  obtain ⟨sink, hsome⟩ := Option.isSome_iff_exists.1 hsink
  rw [emit, hsome] at h
  dsimp only at h
  split at h
  · obtain ⟨-, rfl⟩ := h
    rw [hsome]
  · exact nomatch h

theorem emitPartial_ok {event : AssistantMessage → AssistantStreamEvent}
    (hsink : s.sink.isSome) (h : emitPartial event s = .ok a t) :
    t = { s with sent := s.sent ++ [event s.assistant] } := emit_ok hsink h

theorem readBlock_ok {α : Type} {read : AssistantContent → Option α} {value : α}
    (h : readBlock index read s = .ok value t) :
    ∃ block, s.assistant.content[index]? = some block ∧ read block = some value ∧ t = s := by
  rw [readBlock] at h
  split at h
  · rename_i found hfound
    obtain ⟨block, hblock, hread⟩ := Option.bind_eq_some_iff.1 hfound
    cases h
    exact ⟨block, hblock, hread, rfl⟩
  · cases h

variable {edit : AssistantContent → Option AssistantContent}

theorem editBlock_ok (h : editBlock index edit s = .ok a t) :
    ∃ block next, s.assistant.content[index]? = some block ∧ edit block = some next ∧
      t = { s with assistant := s.setBlock index next } := by
  rw [editBlock] at h
  split at h
  · rename_i next hnext
    obtain ⟨block, hblock, hedit⟩ := Option.bind_eq_some_iff.1 hnext
    cases h
    exact ⟨block, next, hblock, hedit, rfl⟩
  · cases h

variable {start delta : AssistantMessage → AssistantStreamEvent}

theorem emitDelta_ok {c : Prop} [Decidable c] (hsink : s.sink.isSome)
    (h : (if c then emitPartial start >>= fun _ => emitPartial delta else emitPartial delta) s = .ok a t) :
    t = { s with sent := s.sent ++ ((if c then [start s.assistant] else []) ++ [delta s.assistant]) } := by
  split_ifs at h ⊢ with hc
  · obtain ⟨_, u, hstart, h⟩ := run_bind_ok.1 h
    obtain rfl := emitPartial_ok hsink hstart
    obtain rfl := emitPartial_ok (by exact hsink) h
    rw [List.append_assoc]
  · rw [emitPartial_ok hsink h, nil_append]

theorem shown_length (s : Processor) : s.shown.length = s.assistant.content.length := List.length_map _

theorem shown_of_content {block : AssistantContent} (h : s.assistant.content[index]? = some block) :
    s.shown[index]? = some (blockKind block, blockText block) := by
  rw [shown, getElem?_map, h]
  rfl

theorem Shape.not_unstarted (hshape : s.Shape) {c : Nat} (h : s.kinds[c]? ≠ some .toolCall) : ¬ s.Unstarted c := by
  rintro ⟨key, slot, hslot, rfl, -⟩
  exact h (hshape.tool key slot hslot)

theorem sound_concat {steps : List BlockStep} {step : BlockStep} (h : ∀ other ∈ steps ++ [step], other.Sound) :
    (∀ other ∈ steps, other.Sound) ∧ step.Sound :=
  ⟨fun other hother => h other (List.mem_append_left _ hother), h step (by simp)⟩

/-- What a step on a text or a thinking block leaves alone. -/
structure Kept (action : BlockAction) (s t : Processor) : Prop where
  steps : t.steps = s.steps ++ [⟨action, s.toProcessorCore⟩]
  slots : t.toolSlots = s.toolSlots
  sink : t.sink = s.sink
  reason : t.sawFinishReason = s.sawFinishReason
  pending : t.finishPending = s.finishPending
  finished : t.blocksFinished = s.blocksFinished

variable {action : BlockAction}

theorem Kept.reasons (h : Kept action s t) (hs : s.Good) :
    t.sawFinishReason = true → t.finishPending = true ∨ t.blocksFinished = true := by
  rw [h.reason, h.pending, h.finished]
  exact hs.reason

theorem Good.unsound (hs : s.Good) (hkept : Kept action s t)
    (h : ¬ (⟨action, s.toProcessorCore⟩ : BlockStep).Sound) : t.Good where
  heard := hkept.sink ▸ hs.heard
  reason := hkept.reasons hs
  telling := by
    rw [hkept.steps]
    exact fun hsound => absurd (sound_concat hsound).2 h
  slotted := by
    rw [hkept.steps]
    exact fun hsound => absurd (sound_concat hsound).2 h

/-- **A block that is opened** keeps the invariant. -/
theorem Good.opened (hs : s.Good) (hshape : s.Shape)
    (hkept : Kept action s t) (hopen : (⟨action, s.toProcessorCore⟩ : BlockStep).Sound → s.blocksFinished = false)
    (hkind : kind ≠ .toolCall) {text : Bytes} (hbegun : Begun kind text told)
    (hevents : ∀ c, eventsAt c events = if s.shown.length = c then told else [])
    (hshown : t.shown = s.shown ++ [(kind, text)]) (hsent : t.sent = s.sent ++ events) : t.Good where
  heard := hkept.sink ▸ hs.heard
  reason := hkept.reasons hs
  telling := by
    rw [hkept.steps, hkept.finished]
    intro hsound
    obtain ⟨hearlier, hstep⟩ := sound_concat hsound
    have hfalse : ¬ s.blocksFinished = true := by simp [hopen hstep]
    have hfree : ¬ t.Unstarted s.shown.length := by
      rw [unstarted_congr hkept.slots]
      refine hshape.not_unstarted fun hkinds => ?_
      obtain ⟨hlt, -⟩ := List.getElem?_eq_some_iff.1 hkinds
      rw [kinds_length, shown_length] at hlt
      exact Nat.lt_irrefl _ hlt
    exact (hs.telling hearlier).opened hfalse hfree hbegun hevents hshown hsent hkept.slots
  slotted := by
    rw [hkept.steps, hkept.finished]
    intro hsound hfalse c text' hc
    rw [hkept.slots]
    refine hs.slotted (sound_concat hsound).1 hfalse c text' ?_
    rw [hshown] at hc
    rcases Nat.lt_or_ge c s.shown.length with hlt | hge
    · rwa [List.getElem?_append_left hlt] at hc
    rw [List.getElem?_append_right hge] at hc
    obtain ⟨hlt, heq⟩ := List.getElem?_eq_some_iff.1 hc
    simp only [List.getElem_singleton, Prod.mk.injEq] at heq
    exact absurd heq.1 hkind

/-- **A block that gets more text** keeps the invariant. -/
theorem Good.continued (hs : s.Good) (hshape : s.Shape)
    (hkept : Kept action s t) (hopen : (⟨action, s.toProcessorCore⟩ : BlockStep).Sound → s.blocksFinished = false)
    (hkind : kind ≠ .toolCall) {text delta : Bytes}
    (hat : s.shown[i]? = some (kind, text)) (hshown : t.shown = s.shown.set i (kind, text ++ delta))
    (hsent : t.sent = s.sent ++ [event]) (hevent : blockEvent event = some (i, .delta kind delta)) : t.Good where
  heard := hkept.sink ▸ hs.heard
  reason := hkept.reasons hs
  telling := by
    rw [hkept.steps, hkept.finished]
    intro hsound
    obtain ⟨hearlier, hstep⟩ := sound_concat hsound
    have hfalse : ¬ s.blocksFinished = true := by simp [hopen hstep]
    have hfree : ¬ s.Unstarted i := by
      refine hshape.not_unstarted fun hkinds => hkind ?_
      have hsame : s.kinds[i]? = (s.shown[i]?).map Prod.fst := by
        rw [kinds, shown, getElem?_map, getElem?_map, Option.map_map]
        rfl
      rw [hat, hkinds] at hsame
      exact (Option.some.inj hsame).symm
    exact (hs.telling hearlier).continued hat hfalse hfree hshown hsent hkept.slots hevent
  slotted := by
    rw [hkept.steps, hkept.finished]
    intro hsound hfalse c text' hc
    rw [hkept.slots]
    rw [hshown] at hc
    by_cases hci : c = i
    · subst hci
      obtain ⟨hlt, -⟩ := List.getElem?_eq_some_iff.1 hat
      rw [List.getElem?_set_self hlt] at hc
      exact absurd (Prod.mk.inj (Option.some.inj hc)).1 hkind
    · rw [List.getElem?_set_ne (Ne.symm hci)] at hc
      exact hs.slotted (sound_concat hsound).1 hfalse c text' hc

/-! ## Texts -/

theorem shown_concat_set (content : List AssistantContent) (block next : AssistantContent) :
    ((content ++ [block]).set content.length next).map (fun block => (blockKind block, blockText block)) =
      content.map (fun block => (blockKind block, blockText block)) ++ [(blockKind next, blockText next)] := by
  rw [List.set_append_right _ _ (Nat.le_refl _), Nat.sub_self, map_append]
  rfl

theorem write_ok {c : Prop} [Decidable c] (hsink : s.sink.isSome) (h : (editBlock index edit >>= fun _ =>
      if c then emitPartial start >>= fun _ => emitPartial delta else emitPartial delta) s = .ok a t) :
    ∃ block next, s.assistant.content[index]? = some block ∧ edit block = some next ∧ t = { s with
        assistant := s.setBlock index next
        sent := s.sent ++ ((if c then [start (s.setBlock index next)] else []) ++ [delta (s.setBlock index next)]) } := by
  obtain ⟨_, u, hedit, h⟩ := run_bind_ok.1 h
  obtain ⟨block, next, hblock, hnext, rfl⟩ := editBlock_ok hedit
  exact ⟨block, next, hblock, hnext, emitDelta_ok (by exact hsink) h⟩

theorem emitTextDelta_good {delta : Bytes} (hshape : s.Shape) (hs : s.Good)
    (h : emitTextDelta delta s = .ok () t) : t.Good := by
  rw [emitTextDelta] at h
  split_ifs at h
  · obtain ⟨-, rfl⟩ := run_pure_ok h
    exact hs
  rw [record, run_modify_bind, run_get_bind] at h
  dsimp only at h
  cases hindex : s.textIndex with
  | none =>
    rw [hindex] at h
    replace h := run_set_bind.symm.trans h
    obtain ⟨block, next, hblock, hnext, rfl⟩ := write_ok (by exact hs.heard) h
    rw [Option.getD_none] at hblock
    obtain rfl : block = .text ⟨[], none⟩ := (Option.some.inj (List.getElem?_concat_length.symm.trans hblock)).symm
    cases hnext
    have hbegun : Begun .text delta [.start .text, .delta .text delta] := (begun_nil .text).more delta
    refine hs.opened hshape ⟨rfl, rfl, rfl, rfl, rfl, rfl⟩ (fun hsound => hsound) (by decide) hbegun
      (fun c => ?_) ?_ rfl
    · rw [shown_length]
      exact eventsAt_pair rfl rfl c
    · exact shown_concat_set s.assistant.content _ _
  | some index =>
    rw [hindex] at h
    obtain ⟨block, next, hblock, hnext, rfl⟩ := write_ok (by exact hs.heard) h
    cases block with
    | text block =>
      cases hnext
      refine hs.continued hshape ⟨rfl, rfl, rfl, rfl, rfl, rfl⟩ (fun hsound => hsound) (by simp [blockKind])
        (shown_of_content hblock) ?_ rfl rfl
      exact map_set
    | _ => exact nomatch hnext

theorem emitThinkingDelta_good {delta signature : Bytes} (hshape : s.Shape) (hs : s.Good)
    (h : emitThinkingDelta delta signature s = .ok () t) : t.Good := by
  rw [emitThinkingDelta] at h
  split_ifs at h
  · obtain ⟨-, rfl⟩ := run_pure_ok h
    exact hs
  rw [record, run_modify_bind, run_get_bind] at h
  dsimp only at h
  cases hindex : s.thinkingIndex with
  | none =>
    rw [hindex] at h
    replace h := run_set_bind.symm.trans h
    obtain ⟨thinking, _, hread, h⟩ := run_bind_ok.1 h
    obtain ⟨found, hfound, hthink, rfl⟩ := readBlock_ok hread
    obtain ⟨block, next, hblock, hnext, rfl⟩ := write_ok (by exact hs.heard) h
    rw [Option.getD_none] at hblock hfound
    obtain rfl := Option.some.inj (List.getElem?_concat_length.symm.trans hblock)
    obtain rfl := Option.some.inj (List.getElem?_concat_length.symm.trans hfound)
    cases hnext
    cases hthink
    have hbegun : Begun .thinking delta [.start .thinking, .delta .thinking delta] := (begun_nil .thinking).more delta
    refine hs.opened hshape ⟨rfl, rfl, rfl, rfl, rfl, rfl⟩ (fun hsound => hsound.1) (by decide) hbegun
      (fun c => ?_) ?_ rfl
    · rw [shown_length, if_pos rfl]
      exact eventsAt_pair rfl rfl c
    · exact shown_concat_set s.assistant.content _ _
  | some index =>
    rw [hindex] at h
    obtain ⟨thinking, _, hread, h⟩ := run_bind_ok.1 h
    obtain ⟨found, hfound, hthink, rfl⟩ := readBlock_ok hread
    obtain ⟨block, next, hblock, hnext, rfl⟩ := write_ok (by exact hs.heard) h
    obtain rfl := Option.some.inj (hfound.symm.trans hblock)
    cases found with
    | thinking block =>
      cases hnext
      cases hthink
      -- A step that is sound finds a text here, so the start event was sent before.
      by_cases hempty : block.thinking = []
      · exact hs.unsound ⟨rfl, rfl, rfl, rfl, rfl, rfl⟩ fun hsound => hsound.2 index block hindex hblock hempty
      rw [if_neg hempty]
      refine hs.continued hshape ⟨rfl, rfl, rfl, rfl, rfl, rfl⟩ (fun hsound => hsound.1) (by simp [blockKind])
        (shown_of_content hblock) ?_ rfl rfl
      exact map_set
    | _ => exact nomatch hnext

/-! ## Reasoning details -/

/-- Where kinds, texts, slots and flags are the same, and the sink was told nothing. -/
structure Same (s t : Processor) : Prop where
  steps : t.steps = s.steps
  slots : t.toolSlots = s.toolSlots
  sink : t.sink = s.sink
  reason : t.sawFinishReason = s.sawFinishReason
  pending : t.finishPending = s.finishPending
  finished : t.blocksFinished = s.blocksFinished
  shown : t.shown = s.shown
  sent : t.sent = s.sent

theorem Telling.same {ended : Nat → Prop} (h : Telling ended s)
    (hslots : ∀ c, t.Unstarted c ↔ s.Unstarted c) (hshown : t.shown = s.shown) (hsent : t.sent = s.sent) :
    Telling ended t := by
  refine ⟨fun c kind text hc => ?_, ?_⟩
  · rw [hshown] at hc
    rw [hsent, propext (hslots c)]
    exact h.told c kind text hc
  · rw [hshown, hsent]
    exact h.beyond

theorem Good.same (hs : s.Good) (h : Same s t) : t.Good where
  heard := h.sink ▸ hs.heard
  reason := by
    rw [h.reason, h.pending, h.finished]
    exact hs.reason
  telling := by
    rw [h.steps, h.finished]
    exact fun hsound => (hs.telling hsound).same (unstarted_congr h.slots) h.shown h.sent
  slotted := by
    rw [h.steps, h.finished, Slotted, h.shown, h.slots]
    exact hs.slotted

theorem Good.recorded (hs : s.Good) (action : BlockAction) : (s.recorded action).Good where
  heard := hs.heard
  reason := hs.reason
  telling := fun hsound => (hs.telling (sound_concat hsound).1).same (fun _ => Iff.rfl) rfl rfl
  slotted := fun hsound => hs.slotted (sound_concat hsound).1

theorem shown_set {content : List AssistantContent} {block next : AssistantContent}
    (h : content[index]? = some block) (hkind : blockKind next = blockKind block)
    (htext : blockText next = blockText block) :
    (content.set index next).map (fun block => (blockKind block, blockText block)) =
      content.map fun block => (blockKind block, blockText block) := by
  refine List.ext_getElem? fun i => ?_
  rw [map_set, List.getElem?_set]
  split_ifs with heq hi
  · rw [← heq, getElem?_map, h, hkind, htext]
    rfl
  · obtain ⟨hlt, -⟩ := List.getElem?_eq_some_iff.1 h
    exact absurd (by rwa [List.length_map]) hi
  · rfl

variable {details : List Json}

theorem signThinking_same (h : editBlock index (signThinking details) s = .ok a t) : Same s t := by
  obtain ⟨block, next, hblock, hnext, rfl⟩ := editBlock_ok h
  refine ⟨rfl, rfl, rfl, rfl, rfl, rfl, ?_, rfl⟩
  cases block with
  | thinking block =>
    cases hnext
    exact shown_set hblock rfl rfl
  | _ => exact nomatch hnext

theorem appendReasoningDetail_good {detail : JsonObject Json} (hs : s.Good)
    (h : appendReasoningDetail detail s = .ok () t) : t.Good := by
  rw [appendReasoningDetail] at h
  cases htype : jsonStringMember detail "type" with
  | none =>
    rw [htype] at h
    obtain ⟨-, rfl⟩ := run_pure_ok h
    exact hs
  | some type =>
    rw [htype] at h
    dsimp only at h
    split_ifs at h
    · obtain ⟨-, rfl⟩ := run_pure_ok h
      exact hs
    rw [run_get_bind, run_set_bind] at h
    have hsame : Same s { s with reasoningDetails := mergeDetail s.reasoningDetails type detail } :=
      ⟨rfl, rfl, rfl, rfl, rfl, rfl, rfl, rfl⟩
    cases hindex : s.thinkingIndex with
    | none =>
      rw [hindex] at h
      obtain ⟨-, rfl⟩ := run_pure_ok h
      rw [← hindex]
      exact hs.same hsame
    | some index =>
      rw [hindex] at h
      have hnoted := hs.same hsame
      rw [hindex] at hnoted
      exact hnoted.same (signThinking_same h)

theorem good_forM {α : Type} {items : List α} {f : α → ProcessorAction Unit}
    (hf : ∀ a s t, Good s → f a s = .ok () t → Good t) (hs : s.Good) (h : items.forM f s = .ok () t) :
    t.Good := by
  have hloop : Leads Good (items.forM f) (fun _ => Good) fun _ _ => True :=
    leads_forM fun a _ => leads_of_ok fun s _ t => hf a s t
  have hend := hloop s hs
  rwa [h] at hend

theorem appendDetail_good (detail : Json) (u v : Processor) (hu : u.Good) (h : (match detail.asObject with
      | some object => appendReasoningDetail object
      | none => pure () : ProcessorAction Unit) u = .ok () v) : v.Good := by
  cases hobj : detail.asObject with
  | some object =>
    rw [hobj] at h
    exact appendReasoningDetail_good hu h
  | none =>
    rw [hobj] at h
    obtain ⟨-, rfl⟩ := run_pure_ok h
    exact hu

theorem processDetails_good (hshape : s.Shape) (hs : s.Good) (h : processDetails details s = .ok () t) : t.Good := by
  rw [processDetails] at h
  rw [record, run_modify_bind, run_get_bind] at h
  split_ifs at h with hnone
  · rw [run_set_bind] at h
    obtain ⟨_, _, hstart, h⟩ := run_bind_ok.1 h
    obtain rfl := emitPartial_ok (by exact hs.heard) hstart
    refine good_forM appendDetail_good ?_ h
    refine hs.opened hshape ⟨rfl, rfl, rfl, rfl, rfl, rfl⟩ (fun hsound => hsound ?_) (by decide)
      (begun_nil .thinking) (fun c => ?_) map_append rfl
    · exact Option.isNone_iff_eq_none.1 hnone
    · rw [shown_length]
      exact eventsAt_one rfl c
  · exact good_forM appendDetail_good (hs.recorded .details) h

/-! ## Tool calls -/

variable {slot : ToolSlot}

theorem routeTool_ok {index : Option Nat} {id : Option Bytes} {function : Bool}
    (h : routeTool index id function s = .ok slot t) : s.findOrCreateTool index id = .ok (slot, t.toProcessorCore) ∧
      t.steps = s.steps ++ [⟨.tool index id function, s.toProcessorCore⟩] := by
  rw [routeTool, record, run_modify_bind, run_get_bind] at h
  cases hfound : s.findOrCreateTool index id with
  | error fault =>
    have hsame : s.toProcessorCore.findOrCreateTool index id = .error fault := hfound
    dsimp only at h
    rw [hsame] at h
    exact nomatch h
  | ok result =>
    obtain ⟨found, core⟩ := result
    have hsame : s.toProcessorCore.findOrCreateTool index id = .ok (found, core) := hfound
    dsimp only at h
    rw [hsame] at h
    cases h
    exact ⟨rfl, rfl⟩

theorem Good.routed (hs : s.Good) (hshape : s.Shape) {index : Option Nat} {id : Option Bytes}
    {function : Bool} (h : s.findOrCreateTool index id = .ok (slot, t.toProcessorCore))
    (hsteps : t.steps = s.steps ++ [⟨.tool index id function, s.toProcessorCore⟩]) : t.Good := by
  have hrouted := ProcessorCore.findOrCreateTool_ok h
  have hsink : t.sink = s.sink := by rw [hrouted.rest]
  have hreason : t.sawFinishReason = s.sawFinishReason := by rw [hrouted.rest]
  have hpend : t.finishPending = s.finishPending := by rw [hrouted.rest]
  have hfin : t.blocksFinished = s.blocksFinished := by rw [hrouted.rest]
  have hsent : t.sent = s.sent := by rw [hrouted.rest]
  have hfind : ∀ k, t.toolSlots.find k = if k = slot.key then some slot else s.toolSlots.find k := fun k => by
    rw [hrouted.slots, OrdMap.find_insert]
  refine ⟨hsink ▸ hs.heard, by rw [hreason, hpend, hfin]; exact hs.reason, ?_, ?_⟩
  · rw [hsteps, hfin]
    intro hsound
    obtain ⟨hearlier, hstep⟩ := sound_concat hsound
    have hopen : s.blocksFinished = false := hstep
    have htelling := hs.telling hearlier
    rcases hrouted.found with ⟨old, hfound, rfl, hasst, -⟩ | ⟨-, rfl, hfree, ⟨call, hasst, hraw⟩, -⟩
    · obtain ⟨k, hk⟩ := hfound.inMap
      obtain rfl := hshape.key k old hk
      refine htelling.same (fun c => ?_) (by rw [shown, shown, hasst]) hsent
      constructor
      · rintro ⟨key, other, hother, hat, hbegun⟩
        rw [hfind] at hother
        split_ifs at hother with heq
        · cases hother
          exact ⟨old.key, old, hk, hat, hbegun⟩
        · exact ⟨key, other, hother, hat, hbegun⟩
      rintro ⟨key, other, hother, hat, hbegun⟩
      by_cases heq : key = old.key
      · subst heq
        obtain rfl := Option.some.inj (hk.symm.trans hother)
        exact ⟨old.key, _, (hfind _).trans (if_pos rfl), hat, hbegun⟩
      · exact ⟨key, other, ((hfind key).trans (if_neg heq)).trans hother, hat, hbegun⟩
    · have hshown : t.shown = s.shown ++ [(.toolCall, [])] := by
        rw [shown, hasst, ← hraw]
        exact map_append
      have hnew : t.Unstarted s.shown.length := ⟨_, _, (hfind _).trans (if_pos rfl), s.shown_length.symm, rfl⟩
      refine htelling.at s.shown.length (fun _ _ => Iff.rfl) (fun c hc => ?_) (fun c _ => by rw [hsent])
        (fun c hc => ?_) ⟨.toolCall, [], ?_, ?_⟩
      · rw [hshown]
        rcases Nat.lt_or_gt_of_ne hc with hlt | hgt
        · exact List.getElem?_append_left hlt
        rw [getElem?_eq_none hgt.le, getElem?_eq_none]
        rw [length_append]
        exact hgt
      · constructor
        · rintro ⟨key, other, hother, hat, hbegun⟩
          rw [hfind] at hother
          split_ifs at hother with heq
          · cases hother
            exact absurd (hat.symm.trans s.shown_length.symm) hc
          · exact ⟨key, other, hother, hat, hbegun⟩
        · rintro ⟨key, other, hother, hat, hbegun⟩
          refine ⟨key, other, (hfind key).trans ((if_neg ?_).trans hother), hat, hbegun⟩
          rintro rfl
          exact nomatch hfree.symm.trans hother
      · rw [hshown, List.getElem?_concat_length]
      · rw [hsent, htelling.beyond _ (Nat.le_refl _)]
        exact ⟨fun hended => absurd hended (by simp [hopen]), fun _ _ => ⟨rfl, rfl⟩, fun _ hnone => absurd hnew hnone⟩
  · rw [hsteps, hfin]
    intro hsound hopen c text hc
    have hslotted := hs.slotted (sound_concat hsound).1 hopen
    have hkeep : ∀ key other, s.toolSlots.find key = some other →
        ∃ key other', t.toolSlots.find key = some other' ∧ other'.contentIndex = other.contentIndex := by
      intro key other hother
      by_cases heq : key = slot.key
      · refine ⟨slot.key, slot, (hfind _).trans (if_pos rfl), ?_⟩
        rcases hrouted.found with ⟨old, hfound, rfl, -⟩ | ⟨-, rfl, hfree, -⟩
        · obtain ⟨k, hk⟩ := hfound.inMap
          obtain rfl := hshape.key k old hk
          rw [heq] at hother
          rw [Option.some.inj (hother.symm.trans hk)]
        · rw [heq] at hother
          exact nomatch hfree.symm.trans hother
      · exact ⟨key, other, ((hfind key).trans (if_neg heq)).trans hother, rfl⟩
    have hold : s.shown[c]? = some (.toolCall, text) →
        ∃ key other, t.toolSlots.find key = some other ∧ other.contentIndex = c := by
      intro hthere
      obtain ⟨key, other, hother, rfl⟩ := hslotted c text hthere
      exact hkeep key other hother
    rcases hrouted.found with ⟨old, -, -, hasst, -⟩ | ⟨-, rfl, -, ⟨call, hasst, -⟩, -⟩
    · exact hold (by rwa [shown, hasst] at hc)
    have hshown : t.shown = s.shown ++ [(.toolCall, blockText (.toolCall call))] := by
      rw [shown, hasst]
      exact map_append
    rw [hshown] at hc
    rcases Nat.lt_or_ge c s.shown.length with hlt | hge
    · exact hold (by rwa [List.getElem?_append_left hlt] at hc)
    obtain ⟨hlt, -⟩ := List.getElem?_eq_some_iff.1 hc
    rw [length_append] at hlt
    have hc : c = s.shown.length := Nat.le_antisymm (Nat.lt_succ_iff.1 hlt) hge
    exact ⟨_, _, (hfind _).trans (if_pos rfl), by rw [hc, shown_length]; rfl⟩

theorem Shape.started (hshape : s.Shape)
    (hslot : s.toolSlots.find slot.key = some slot) (hbegun : slot.startEmitted = true) :
    ¬ s.Unstarted slot.contentIndex := by
  rintro ⟨key, other, hother, hat, hnot⟩
  obtain rfl := hshape.apart key other slot.key slot hother hslot hat
  obtain rfl := Option.some.inj (hslot.symm.trans hother)
  exact nomatch hbegun.symm.trans hnot

/-- A fragment that is appended, with its start event when it is the first one with a function. -/
theorem Good.appended (hs : s.Good) (hshape : s.Shape)
    (hopen : (∀ step ∈ s.steps, step.Sound) → s.blocksFinished = false)
    (hslot : s.toolSlots.find slot.key = some slot) {call next : ToolCallContent} {delta : Bytes}
    (hcall : s.assistant.content[slot.contentIndex]? = some (.toolCall call))
    (hraw : next.rawArguments = call.rawArguments ++ delta) {message : AssistantMessage}
    (hmsg : message = s.setBlock slot.contentIndex (.toolCall next)) (ht : t = { s with
      assistant := message
      toolSlots := if slot.startEmitted then s.toolSlots
        else s.toolSlots.insert slot.key { slot with startEmitted := true }
      sent := s.sent ++ ((if slot.startEmitted then [] else [.toolCallStart slot.contentIndex message]) ++
        [.toolCallDelta slot.contentIndex delta message]) }) : t.Good := by
  have hat : s.shown[slot.contentIndex]? = some (.toolCall, call.rawArguments) := shown_of_content hcall
  have hshown : t.shown = s.shown.set slot.contentIndex (.toolCall, call.rawArguments ++ delta) := by
    rw [ht, hmsg, ← hraw]
    exact map_set
  obtain ⟨hlt, -⟩ := List.getElem?_eq_some_iff.1 hat
  have hslotted : s.Slotted → t.Slotted := by
    intro hslotted c text hc
    have hthere : ∃ text, s.shown[c]? = some (.toolCall, text) := by
      rw [hshown] at hc
      by_cases hcs : c = slot.contentIndex
      · exact ⟨_, hcs ▸ hat⟩
      · exact ⟨text, by rwa [List.getElem?_set_ne (Ne.symm hcs)] at hc⟩
    obtain ⟨text, hthere⟩ := hthere
    obtain ⟨key, other, hother, hindex⟩ := hslotted c text hthere
    rw [ht]
    dsimp only
    split_ifs
    · exact ⟨key, other, hother, hindex⟩
    by_cases heq : key = slot.key
    · subst heq
      obtain rfl := Option.some.inj (hslot.symm.trans hother)
      exact ⟨slot.key, _, OrdMap.find_insert_self _ _ _, hindex⟩
    · exact ⟨key, other, by rw [OrdMap.find_insert, if_neg heq, hother], hindex⟩
  have hsteps : t.steps = s.steps := by rw [ht]
  have hfin : t.blocksFinished = s.blocksFinished := by rw [ht]
  refine ⟨by rw [ht]; exact hs.heard, by rw [ht]; exact hs.reason, fun hsound => ?_, fun hsound hfalse => ?_⟩
  · rw [hsteps] at hsound
    have hended : ¬ s.blocksFinished = true := by simp [hopen hsound]
    have htelling := hs.telling hsound
    rw [hfin]
    cases hbegun : slot.startEmitted with
    | true =>
      rw [hbegun] at ht
      have hsent : t.sent = s.sent ++ [.toolCallDelta slot.contentIndex delta message] := by
        rw [ht]
        rfl
      refine htelling.continued hat hended (hshape.started hslot hbegun) hshown hsent ?_ rfl
      rw [ht]
      rfl
    | false =>
      rw [hbegun] at ht
      have hfind : ∀ k, t.toolSlots.find k =
          if k = slot.key then some { slot with startEmitted := true } else s.toolSlots.find k := fun k => by
        rw [ht]
        exact OrdMap.find_insert _ _ _ _
      have hsent : t.sent = s.sent ++
          [.toolCallStart slot.contentIndex message, .toolCallDelta slot.contentIndex delta message] := by
        rw [ht]
        rfl
      have hevents : ∀ c, eventsAt c t.sent = eventsAt c s.sent ++
          if slot.contentIndex = c then [.start .toolCall, .delta .toolCall delta] else [] := fun c => by
        rw [hsent, eventsAt_append, eventsAt_pair rfl rfl]
      obtain ⟨hempty, hnone⟩ := (htelling.told _ _ _ hat).silent hended ⟨slot.key, slot, hslot, rfl, hbegun⟩
      refine htelling.at slot.contentIndex (fun _ _ => Iff.rfl) (fun c hc => ?_) (fun c hc => ?_)
        (fun c hc => ?_) ⟨.toolCall, call.rawArguments ++ delta, ?_, ?_⟩
      · rw [hshown, List.getElem?_set_ne (Ne.symm hc)]
      · rw [hevents, if_neg (Ne.symm hc), append_nil]
      · constructor
        · rintro ⟨key, other, hother, hthere, hnot⟩
          rw [hfind] at hother
          split_ifs at hother with heq
          · cases hother
            exact nomatch hnot
          · exact ⟨key, other, hother, hthere, hnot⟩
        · rintro ⟨key, other, hother, hthere, hnot⟩
          refine ⟨key, other, (hfind key).trans ((if_neg ?_).trans hother), hthere, hnot⟩
          rintro rfl
          obtain rfl := Option.some.inj (hslot.symm.trans hother)
          exact hc hthere.symm
      · rw [hshown, List.getElem?_set_self hlt]
      · have hfree : ¬ t.Unstarted slot.contentIndex := by
          rintro ⟨key, other, hother, hthere, hnot⟩
          rw [hfind] at hother
          split_ifs at hother with heq
          · cases hother
            exact nomatch hnot
          · exact heq (hshape.apart key other slot.key slot hother hslot hthere)
        rw [hevents, if_pos rfl, hnone, hempty, nil_append, nil_append]
        exact ⟨fun h => absurd h hended, fun _ h => absurd h hfree, fun _ _ => (begun_nil .toolCall).more delta⟩
  · rw [hsteps] at hsound
    exact hslotted (hs.slotted hsound (hfin ▸ hfalse))

variable {services : ProcessorServices}

theorem processToolCall_good {value : Json} (hshape : s.Shape)
    (hs : s.Good) (h : processToolCall services value s = .ok () t) : t.Good := by
  rw [processToolCall] at h
  cases hobj : value.asObject with
  | none =>
    rw [hobj] at h
    cases h
  | some toolCall =>
    rw [hobj] at h
    obtain ⟨slot, u, hroute, h⟩ := run_bind_ok.1 h
    obtain ⟨hfound, hsteps⟩ := routeTool_ok hroute
    have hrouted := ProcessorCore.findOrCreateTool_ok hfound
    have hu := hs.routed hshape hfound hsteps
    have hushape : u.Shape := routed_shape hshape hrouted
    have hslot : u.toolSlots.find slot.key = some slot := by rw [hrouted.slots, OrdMap.find_insert_self]
    have hopen : (∀ step ∈ u.steps, step.Sound) → u.blocksFinished = false := by
      intro hsound
      rw [hsteps] at hsound
      have hfin : u.blocksFinished = s.blocksFinished := by rw [hrouted.rest]
      exact hfin.trans (sound_concat hsound).2
    obtain ⟨_, v, hread, hrest⟩ := run_bind_ok.1 h
    obtain ⟨_, -, -, hsame⟩ := readBlock_ok hread
    rw [hsame] at hrest
    cases hfunction : jsonObjectMember toolCall "function" with
    | none =>
      rw [hfunction] at hrest
      obtain ⟨-, rfl⟩ := run_pure_ok hrest
      exact hu
    | some function =>
      rw [hfunction] at hrest
      obtain ⟨_, w, hedit, hemit⟩ := run_bind_ok.1 hrest
      obtain ⟨block, next, hblock, hnext, rfl⟩ := editBlock_ok hedit
      cases block with
      | toolCall call =>
        obtain ⟨nextCall, rfl, hraw⟩ : ∃ nextCall, next = .toolCall nextCall ∧
            nextCall.rawArguments = call.rawArguments ++ (jsonStringMember function "arguments").getD [] :=
          ⟨_, (Option.some.inj hnext).symm, rfl⟩
        cases hbegun : slot.startEmitted with
        | true =>
          rw [hbegun] at hemit
          obtain rfl := emitPartial_ok (by exact hu.heard) hemit
          refine hu.appended hushape hopen hslot hblock hraw rfl ?_
          rw [hbegun]
          rfl
        | false =>
          rw [hbegun] at hemit
          obtain ⟨_, x, hstart, hrest⟩ := run_bind_ok.1 hemit
          obtain rfl := emitPartial_ok (by exact hu.heard) hstart
          rw [run_modify_bind] at hrest
          obtain rfl := emitPartial_ok (by exact hu.heard) hrest
          refine hu.appended hushape hopen hslot hblock hraw rfl ?_
          rw [hbegun, List.append_assoc]
          rfl
      | _ => cases hnext

/-! ## The end of the blocks -/

/-- What the end of a block leaves alone. -/
structure Framed (s t : Processor) : Prop where
  steps : t.steps = s.steps
  slots : t.toolSlots = s.toolSlots
  sink : t.sink = s.sink
  shown : t.shown = s.shown

/-- The end of one block: its end event, unless it is a tool call without a slot. -/
theorem finishBlock_ok (hsink : s.sink.isSome) (h : finishBlock services i s = .ok () t):
    Framed s t ∧ ∀ kind text, s.shown[i]? = some (kind, text) →
      (kind = .toolCall → ∃ key slot, s.toolSlots.find key = some slot ∧ slot.contentIndex = i) →
      ∃ event, blockEvent event = some (i, .stop kind text) ∧ t.sent = s.sent ++ [event] := by
  rw [finishBlock, run_get_bind] at h
  cases hblock : s.assistant.content[i]? with
  | none =>
    rw [hblock] at h
    obtain ⟨-, rfl⟩ := run_pure_ok h
    refine ⟨⟨rfl, rfl, rfl, rfl⟩, fun kind text hat => ?_⟩
    rw [shown, getElem?_map, hblock] at hat
    exact nomatch hat
  | some block =>
    rw [hblock] at h
    have hat := shown_of_content hblock
    cases block with
    | text block | thinking block =>
      obtain rfl := emitPartial_ok hsink h
      refine ⟨⟨rfl, rfl, rfl, rfl⟩, fun kind text hthere _ => ?_⟩
      obtain ⟨rfl, rfl⟩ := Prod.mk.inj (Option.some.inj (hat.symm.trans hthere))
      exact ⟨_, rfl, rfl⟩
    | toolCall call =>
      dsimp only at h
      split_ifs at h with hany
      · rw [run_set_bind] at h
        obtain rfl := emitPartial_ok (by exact hsink) h
        refine ⟨⟨rfl, rfl, rfl, shown_set hblock rfl rfl⟩, fun kind text hthere _ => ?_⟩
        obtain ⟨rfl, rfl⟩ := Prod.mk.inj (Option.some.inj (hat.symm.trans hthere))
        exact ⟨_, rfl, rfl⟩
      obtain ⟨-, rfl⟩ := run_pure_ok h
      refine ⟨⟨rfl, rfl, rfl, rfl⟩, fun kind text hthere hslot => ?_⟩
      obtain ⟨rfl, -⟩ := Prod.mk.inj (Option.some.inj (hat.symm.trans hthere))
      obtain ⟨key, slot, hfind, hindex⟩ := hslot rfl
      refine absurd (List.any_eq_true.2 ⟨slot, OrdMap.mem_values_of_find hfind, ?_⟩) hany
      exact decide_eq_true hindex

theorem Telling.ended (h : Telling (fun c => c < i) s) (hframed : Framed s t)
    (hslotted : s.Slotted) (hstarted : ∀ key slot, s.toolSlots.find key = some slot → slot.startEmitted = true)
    (hlt : i < s.shown.length) (hevent : ∀ kind text, s.shown[i]? = some (kind, text) →
      (kind = .toolCall → ∃ key slot, s.toolSlots.find key = some slot ∧ slot.contentIndex = i) →
      ∃ event, blockEvent event = some (i, .stop kind text) ∧ t.sent = s.sent ++ [event]) :
    Telling (fun c => c < i + 1) t := by
  obtain ⟨kind, text, hat⟩ : ∃ kind text, s.shown[i]? = some (kind, text) :=
    ⟨_, _, List.getElem?_eq_some_iff.2 ⟨hlt, rfl⟩⟩
  obtain ⟨event, hstop, hsent⟩ := hevent kind text hat fun hkind => hslotted i text (hkind ▸ hat)
  have hfree : ∀ c, ¬ s.Unstarted c := by
    rintro c ⟨key, slot, hslot, -, hnot⟩
    exact nomatch (hstarted key slot hslot).symm.trans hnot
  refine h.at i (fun c hc => ?_) (fun c _ => by rw [hframed.shown]) (fun c hc => ?_)
    (fun c _ => unstarted_congr hframed.slots c) ⟨kind, text, by rw [hframed.shown, hat], ?_⟩
  · exact ⟨fun hlt => Nat.lt_of_le_of_ne (Nat.lt_succ_iff.1 hlt) hc, fun hlt => Nat.lt_succ_of_lt hlt⟩
  · rw [hsent, eventsAt_concat_other hstop hc]
  · rw [hsent, eventsAt_concat_here hstop]
    have hbegun := (h.told i kind text hat).begun (Nat.lt_irrefl i) (hfree i)
    exact ⟨fun _ => hbegun.stop, fun hnot => absurd (Nat.lt_succ_self i) hnot, fun hnot => absurd (Nat.lt_succ_self i) hnot⟩

/-- **The end of the blocks** keeps the invariant. -/
theorem finishPendingBlocks_good (hs : s.Good)
    (hopen : s.blocksFinished = false) (h : finishPendingBlocks services s = .ok () t) :
    t.Good ∧ t.blocksFinished = true := by
  rw [finishPendingBlocks] at h
  obtain ⟨_, u, hblocks, hend⟩ := run_bind_ok.1 h
  obtain rfl := run_modify_ok hend
  rw [finishBlocks, record, run_modify_bind, run_get_bind] at hblocks
  obtain ⟨_, v, hloop, hclear⟩ := run_bind_ok.1 hblocks
  obtain rfl := run_modify_ok hclear
  -- After some of the blocks, those have their end, when all steps are sound.
  let I : List Nat → Processor → Prop := fun done u => Framed (s.recorded .finish) u ∧
    ((∀ step ∈ (s.recorded .finish).steps, step.Sound) → Telling (fun c => c < done.length) u)
  have hlead : Leads (I []) ((List.range s.assistant.content.length).forM (finishBlock services))
      (fun _ => I (List.range s.assistant.content.length)) fun _ _ => True := by
    refine leads_forM_along _ fun done i rest hsplit => leads_of_ok fun u _ w hu hw => ?_
    obtain ⟨hframed, hevent⟩ := finishBlock_ok (by rw [hu.1.sink]; exact hs.heard) hw
    have hi : i = done.length ∧ i < s.assistant.content.length := by
      have hget : (List.range s.assistant.content.length)[done.length]? = some i := by
        rw [hsplit, List.getElem?_append_right (Nat.le_refl _), Nat.sub_self]
        rfl
      obtain ⟨hlt, heq⟩ := List.getElem?_eq_some_iff.1 hget
      rw [List.getElem_range] at heq
      rw [List.length_range] at hlt
      exact ⟨heq.symm, heq ▸ hlt⟩
    refine ⟨⟨hframed.steps.trans hu.1.steps, hframed.slots.trans hu.1.slots, hframed.sink.trans hu.1.sink,
      hframed.shown.trans hu.1.shown⟩, fun hsound => ?_⟩
    obtain ⟨hearlier, hfinish⟩ := sound_concat hsound
    have hslotted : u.Slotted := by
      rw [Slotted, hu.1.shown, hu.1.slots]
      exact hs.slotted hearlier hopen
    have htelling := hu.2 hsound
    rw [← hi.1] at htelling
    rw [length_append, ← hi.1]
    refine htelling.ended hframed hslotted (fun key slot hslot => ?_) ?_ hevent
    · rw [hu.1.slots] at hslot
      exact hfinish key slot hslot
    · rw [hu.1.shown]
      exact hi.2.trans_eq s.shown_length.symm
  have hstart : I [] (s.recorded .finish) := by
    refine ⟨⟨rfl, rfl, rfl, rfl⟩, fun hsound => ?_⟩
    have hsame : (fun _ : Nat => s.blocksFinished = true) = fun c => c < 0 := funext fun c => propext
        ⟨(fun hended => nomatch hopen.symm.trans hended), fun hlt => absurd hlt (Nat.not_lt_zero c)⟩
    have htelling := hs.telling (sound_concat hsound).1
    rw [hsame] at htelling
    exact htelling.same (fun _ => Iff.rfl) rfl rfl
  have hdone := hlead _ hstart
  have hrun : (List.range s.assistant.content.length).forM (finishBlock services) (s.recorded .finish) = .ok () v :=
    hloop
  rw [hrun] at hdone
  obtain ⟨hframed, htold⟩ := hdone
  refine ⟨⟨by rw [hframed.sink]; exact hs.heard, fun _ => Or.inr rfl, fun hsound => ?_, fun _ h => nomatch h⟩, rfl⟩
  have htelling := htold fun step hstep => hsound step (hframed.steps.symm ▸ hstep)
  have hlen : v.shown.length = s.assistant.content.length := by
    rw [hframed.shown]
    exact s.shown_length
  refine ⟨fun c kind text hc => ?_, htelling.beyond⟩
  obtain ⟨hlt, -⟩ := List.getElem?_eq_some_iff.1 hc
  have hended : c < (List.range s.assistant.content.length).length := by
    rw [List.length_range, ← hlen]
    exact hlt
  exact ⟨fun _ => (htelling.told c kind text hc).whole hended, fun hnot => absurd rfl hnot, fun hnot => absurd rfl hnot⟩

/-! ## Accepted runs -/

/-- Chunks in order, and the end, when each of them is accepted. -/
def accept (services : ProcessorServices) (events : List (JsonObject Json)) : ProcessorAction Unit := do
  events.forM fun event => do
    let _ ← process services event
    pure ()
  finish services

theorem still_good (h : Still s t) (hs : s.Good) : t.Good :=
  hs.same ⟨h.steps, h.slots, h.sink, h.reason, h.pending, h.finished, by rw [shown, shown, h.content], h.sent⟩

theorem finishReason_good {finish : Bytes} (hs : s.Good) (h : noteFinishReason finish s = .ok () t) :
    t.Good := by
  rw [noteFinishReason, setFinishReason] at h
  obtain ⟨_, u, hset, hpend⟩ := run_bind_ok.1 h
  obtain rfl := run_modify_ok hpend
  split at hset
  · obtain ⟨-, rfl⟩ := run_pure_ok hset
    exact ⟨hs.heard, fun _ => Or.inl rfl, fun hsound => (hs.telling hsound).same (fun _ => Iff.rfl) rfl rfl, hs.slotted⟩
  obtain rfl := run_modify_ok hset
  have hshown : ∀ message : AssistantMessage, message.content = s.assistant.content →
      Good { s with sawFinishReason := true, finishPending := true, assistant := message } := by
    intro message hcont
    have hsame : ∀ t : Processor, t.assistant = message → t.shown = s.shown := by
      intro t ht
      rw [shown, shown, ht, hcont]
    refine ⟨hs.heard, fun _ => Or.inl rfl, fun hsound => ?_, fun hsound hopen => ?_⟩
    · exact (hs.telling hsound).same (fun _ => Iff.rfl) (hsame _ rfl) rfl
    · rw [Slotted, hsame _ rfl]
      exact hs.slotted hsound hopen
  refine hshown _ ?_
  show AssistantMessage.content _ = _
  split_ifs <;> rfl

theorem good_leaves {start : Processor} (hshape : start.Shape) (services : ProcessorServices) :
    Leaves services (fun s => Reach start s ∧ s.Good) fun _ _ => True := by
  have hreach := reach_leaves hshape services
  have hboth : ∀ {x : ProcessorAction Unit}, Leads (Reach start) x (fun _ => Reach start) (Ends start) →
      (∀ s t, s.Shape → s.Good → x s = .ok () t → t.Good) →
      Leads (fun s => Reach start s ∧ s.Good) x (fun _ s => Reach start s ∧ s.Good) fun _ _ => True := by
    intro x hx hgood
    have hsnd : Leads (fun s => s.Shape ∧ s.Good) x (fun _ t => t.Good) fun _ _ => True :=
      leads_of_ok fun s _ t hs => hgood s t hs.1 hs.2
    exact (hx.and hsnd).mono (fun s hs => ⟨hs.1, hs.1.shape hshape, hs.2⟩) (fun _ _ ht => ht) fun _ _ _ => trivial
  refine ⟨fun _ _ _ => trivial, fun s t hstill hs => ⟨hreach.still s t hstill hs.1, still_good hstill hs.2⟩,
    fun finish => ?_, fun delta => ?_, fun delta signature => ?_, fun value => ?_, fun details => ?_, ?_⟩
  · exact hboth (hreach.finishReason finish) fun s t _ hs h => finishReason_good hs h
  · exact hboth (hreach.text delta) fun s t hs hgood h => emitTextDelta_good hs hgood h
  · exact hboth (hreach.thinking delta signature) fun s t hs hgood h => emitThinkingDelta_good hs hgood h
  · exact hboth (hreach.call value) fun s t hs hgood h => processToolCall_good hs hgood h
  · exact hboth (hreach.details details) fun s t hs hgood h => processDetails_good hs hgood h
  · have hsnd : Leads (fun s => s.Good ∧ s.blocksFinished = false) (finishPendingBlocks services)
        (fun _ t => t.Good) fun _ _ => True :=
      leads_of_ok fun s _ t hs h => (finishPendingBlocks_good hs.1 hs.2 h).1
    exact (hreach.finish.and hsnd).mono (fun s hs => ⟨⟨hs.1.1, hs.2⟩, hs.1.2, hs.2⟩) (fun _ _ ht => ht)
      fun _ _ _ => trivial

theorem finishChecks_ok (h : (do
      let s ← get
      if !s.sawFinishReason then
        throw (.failed (makeStreamError services "Stream ended without finish_reason" []))
      if s.assistant.stopReason = .error then
        throw (.failed (makeStreamError services
          (s.assistant.errorMessage.getD "Provider returned an error stop reason") [])) :
      ProcessorAction Unit) s = .ok () t) : t = s ∧ s.sawFinishReason = true := by
  rw [run_get_bind] at h
  cases hsaw : s.sawFinishReason with
  | false =>
    rw [hsaw] at h
    exact nomatch h
  | true =>
    rw [hsaw] at h
    by_cases hstop : s.assistant.stopReason = .error
    · simp only [Bool.not_true, Bool.false_eq_true, if_false, if_pos hstop] at h
      exact nomatch h
    · simp only [Bool.not_true, Bool.false_eq_true, if_false, if_neg hstop] at h
      exact ⟨(run_pure_ok h).2, rfl⟩

/-- After the blocks only the signature of the thinking block can change. -/
theorem signature_good {u : Processor} (hu : u.Good) (hended : u.finishPending = true → u.blocksFinished = true)
    (h : (do
      let s ← get
      match s.thinkingIndex with
      | some index => if s.reasoningDetails ≠ [] then editBlock index (signThinking s.reasoningDetails)
      | none => pure ()
      let s ← get
      if !s.sawFinishReason then
        throw (.failed (makeStreamError services "Stream ended without finish_reason" []))
      if s.assistant.stopReason = .error then
        throw (.failed (makeStreamError services
          (s.assistant.errorMessage.getD "Provider returned an error stop reason") [])) :
      ProcessorAction Unit) u = .ok () t) : t.Good ∧ t.blocksFinished = true := by
  have hlast : ∀ v : Processor, v.Good → v.sawFinishReason = true →
      (v.finishPending = true → v.blocksFinished = true) → v.blocksFinished = true := by
    intro v hv hsaw hv'
    rcases hv.reason hsaw with hpend | hfin
    · exact hv' hpend
    · exact hfin
  rw [run_get_bind] at h
  cases hindex : u.thinkingIndex with
  | none =>
    rw [hindex] at h
    obtain ⟨rfl, hsaw⟩ := finishChecks_ok h
    exact ⟨hu, hlast _ hu hsaw hended⟩
  | some index =>
    rw [hindex] at h
    by_cases hdetails : u.reasoningDetails ≠ []
    · simp only [if_pos hdetails] at h
      obtain ⟨_, v, hedit, hchecks⟩ := run_bind_ok.1 h
      have hsame := signThinking_same hedit
      obtain ⟨rfl, hsaw⟩ := finishChecks_ok hchecks
      refine ⟨hu.same hsame, hlast _ (hu.same hsame) hsaw ?_⟩
      rw [hsame.pending, hsame.finished]
      exact hended
    simp only [if_neg hdetails] at h
    obtain ⟨rfl, hsaw⟩ := finishChecks_ok h
    exact ⟨hu, hlast _ hu hsaw hended⟩

theorem finish_good (hs : s.Good) (h : finish services s = .ok () t) : t.Good ∧ t.blocksFinished = true := by
  rw [finish, run_get_bind] at h
  split at h
  · rename_i hc
    obtain ⟨_, u, hblocks, hafter⟩ := run_bind_ok.1 h
    obtain ⟨hgood, hfin⟩ := finishPendingBlocks_good hs (by simpa using hc.2) hblocks
    exact signature_good hgood (fun _ => hfin) hafter
  · rename_i hc
    exact signature_good hs (fun hpend => by simpa [hpend] using hc) h

/-- **Events are well formed.** In a sequence of chunks that is accepted with its end, whose steps are all sound,
every block of the message has one start event, its deltas, and one end event with the text that they make up. -/
theorem events_wellFormed (services : ProcessorServices) (model : Model) (assistant : AssistantMessage)
    (sink : AssistantEventSink) (events : List (JsonObject Json)) (t : Processor) (hempty : assistant.content = [])
    (hrun : accept services events (create model assistant (some sink)) = .ok () t)
    (hsound : ∀ step ∈ t.steps, step.Sound) : WellFormed t.assistant t.sent := by
  have hshape := create_shape model assistant (some sink)
  have hgood : (create model assistant (some sink)).Good := by
    have hnone : (create model assistant (some sink)).shown = [] := by
      rw [shown]
      exact congrArg (List.map _) hempty
    refine ⟨rfl, (fun h => nomatch h), fun _ => ⟨fun c kind text hc => ?_, fun _ _ => rfl⟩, fun _ _ c text hc => ?_⟩
    · rw [hnone] at hc
      exact nomatch hc
    · rw [hnone] at hc
      exact nomatch hc
  rw [accept] at hrun
  obtain ⟨_, u, hchunks, hfinish⟩ := run_bind_ok.1 hrun
  have hloop : Leads (fun s => Reach (create model assistant (some sink)) s ∧ s.Good) (events.forM fun event => do
        let _ ← process services event
        pure ()) (fun _ s => Reach (create model assistant (some sink)) s ∧ s.Good) fun _ _ => True :=
    leads_forM fun event _ => Leads.bind (process_keeps (good_leaves hshape services) event)
      fun _ => leads_pure fun s hs => hs
  have hend := hloop _ ⟨.refl, hgood⟩
  rw [hchunks] at hend
  obtain ⟨htgood, hfinished⟩ := finish_good hend.2 hfinish
  have htelling := htgood.telling hsound
  refine ⟨fun c block hblock => ?_, fun c hc => htelling.beyond c (t.shown_length.trans_le hc)⟩
  exact (htelling.told c _ _ (shown_of_content hblock)).whole hfinished

/-! ## Two streams -/

/-- A chunk with a delta and a finish reason. -/
def lastChunk (delta : JsonObject Json) : JsonObject Json := [("choices", .array [.object [("delta", .object delta),
    ("finish_reason", .string "stop")]])]

/-- Reasoning, a text in two parts and a tool call. -/
def mixedChunks : List (JsonObject Json) :=
  [deltaChunk [("reasoning", .string "r")], deltaChunk [("content", .string "a")],
    deltaChunk [("tool_calls", .array [.object [("index", number 0), ("id", .string "c"),
      ("function", .object [("name", .string "f"), ("arguments", .string "\x7b\x7d")])]])],
    lastChunk [("content", .string "b")]]

theorem events_wellFormed_mixed : ∃ t, accept plainServices mixedChunks
        (create plainModel blankMessage (some fun _ => none)) = .ok () t ∧
      t.assistant.content.length = 3 ∧ WellFormed t.assistant t.sent := by
  have hend : (match accept plainServices mixedChunks (create plainModel blankMessage (some fun _ => none)) with
    | .ok _ t => decide (t.assistant.content.length = 3 ∧ t.steps.all BlockStep.check)
    | .error _ _ => false) = true := by decide +kernel
  cases hrun : accept plainServices mixedChunks (create plainModel blankMessage (some fun _ => none)) with
  | error fault t =>
    rw [hrun] at hend
    exact nomatch hend
  | ok result t =>
    rw [hrun] at hend
    obtain ⟨hlength, hsteps⟩ := of_decide_eq_true hend
    refine ⟨t, rfl, hlength, events_wellFormed plainServices plainModel blankMessage _ _ t rfl hrun fun step hstep => ?_⟩
    exact BlockStep.sound_of_check (List.all_eq_true.1 hsteps step hstep)

/-- Reasoning details open a thinking block, and the first text of it sends a second start event. -/
theorem thinking_started_twice :
    ¬ ∀ (services : ProcessorServices) (model : Model) (assistant : AssistantMessage) (sink : AssistantEventSink)
        (events : List (JsonObject Json)) (t : Processor), assistant.content = [] →
      accept services events (create model assistant (some sink)) = .ok () t → WellFormed t.assistant t.sent := by
  intro hclaim
  have hend : (match accept plainServices [deltaChunk [("reasoning_details", .array [])],
      lastChunk [("reasoning", .string "x")]]
      (create plainModel blankMessage (some fun _ => none)) with
    | .ok _ t => decide (t.assistant.content.length = 1 ∧ eventsAt 0 t.sent =
        [.start .thinking, .start .thinking, .delta .thinking "x", .stop .thinking "x"])
    | .error _ _ => false) = true := by decide +kernel
  cases hrun : accept plainServices [deltaChunk [("reasoning_details", .array [])],
      lastChunk [("reasoning", .string "x")]]
      (create plainModel blankMessage (some fun _ => none)) with
  | error fault t =>
    rw [hrun] at hend
    exact nomatch hend
  | ok result t =>
    rw [hrun] at hend
    obtain ⟨hlength, hevents⟩ := of_decide_eq_true hend
    obtain ⟨block, hblock⟩ := List.length_eq_one_iff.1 hlength
    have hwell := (hclaim _ _ _ _ _ t rfl hrun).blocks 0 block (by rw [hblock]; rfl)
    rw [hevents] at hwell
    obtain ⟨deltas, -, htold⟩ := hwell
    cases deltas with
    | nil | cons delta rest => simp at htold

end Processor

end CodingHarness.Ai
