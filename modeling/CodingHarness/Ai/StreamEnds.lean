import CodingHarness.Ai.StreamEmitter

/-!
# The end of a stream

A stream `EndsOnce`: the sink gets one terminal event and nothing after it, nothing after it failed, output
stays started, and later finalizers repeat the first one. `emit_start` does not ask whether the stream has
ended, so a first start after the end goes out. `ends_once_iff` shows that this is the only way to break the
law: a run ends once exactly when no start is `Late`.
-/

namespace CodingHarness.Ai

open Library Support Agent

namespace StreamEmitter

/-! ## The property -/

/-- `StreamEmitter(initial_assistant, sink, request_key)`. -/
def create (assistant : AssistantMessage) (sink : Option AssistantEventSink) (requestKey : Bytes) : StreamEmitter :=
  { assistant := assistant, sink := sink, requestKey := requestKey }

/-- The calls of `finalize_success`, `finalize_failure`, `finalize_cancelled` and `finalize_error_event`. -/
def Call.isFinalizer : Call → Bool
  | .emitStart => false
  | .emitEvent _ => false
  | _ => true

/-- The calls that end the stream: the finalizers and the terminal events. -/
def Call.isTerminal : Call → Bool
  | .emitStart => false
  | .emitEvent event => event.isTerminal
  | _ => true

/-- What a finalizer returns when the stream has ended. -/
def result (s : StreamEmitter) : Answer := match s.sinkFailure with
  | some failure => .error failure
  | none => .ok (some s.assistant)

/-- A stream ends exactly once. -/
structure EndsOnce (redact : Bytes → Bytes) (s : StreamEmitter) (calls : List Call) : Prop where
  /-- Nothing follows a terminal event, so there is one at most. -/
  terminal : ∀ before event after, (s.run redact calls).sent = before ++ event :: after →
    event.isTerminal → after = []
  /-- Nothing follows an event that the sink failed for. -/
  failed : ∀ sink, s.sink = some sink → ∀ before event after,
    (s.run redact calls).sent = before ++ event :: after → sink (before ++ [event]) ≠ none → after = []
  /-- Output that has started stays started. -/
  output : ∀ before after, calls = before ++ after → (s.run redact before).outputStarted →
    (s.run redact calls).outputStarted
  /-- A finalizer after a terminal call sends nothing and returns what that call left: the same message, or
  the error of the sink. -/
  finalize : ∀ before first between last after, calls = before ++ first :: (between ++ last :: after) →
    first.isTerminal → last.isFinalizer →
    let ended := (s.run redact before).call redact first
    let again := (s.run redact (before ++ first :: between)).call redact last
    again.1 = ended.2.result ∧ again.2.sent = (s.run redact (before ++ first :: between)).sent ∧
      (first.isFinalizer → ended.1 = ended.2.result)

/-- A start event would go out after the end of the stream. -/
structure Late (s : StreamEmitter) : Prop where
  first : s.started = false
  ended : s.terminated = true
  healthy : s.sinkFailure = none
  heard : s.sink.isSome

/-! ## What a call does -/

/-- The state in which an event is passed on. -/
def noting (s : StreamEmitter) (started outputStarted : Bool) (assistant : AssistantMessage) : StreamEmitter :=
  { s with started := started, outputStarted := outputStarted, assistant := assistant }

/-- The state in which the terminal event is sent. -/
def closing (s : StreamEmitter) (assistant : AssistantMessage) : StreamEmitter :=
  { s with terminated := true, assistant := assistant }

/-- The effect of a call: nothing is sent, an event is passed on, the stream ends, or a late start goes
out. -/
inductive Effect (s : StreamEmitter) : Call → StreamEmitter → Prop where
  | quiet (c : Call) (started : Bool) : Effect s c (s.noting started s.outputStarted s.assistant)
  | passed (c : Call) (started outputStarted : Bool) (assistant : AssistantMessage)
      (event : AssistantStreamEvent) (healthy : s.sinkFailure = none) (going : s.terminated = false)
      (inner : event.isTerminal = false) (output : s.outputStarted = true → outputStarted = true) :
      Effect s c ((s.noting started outputStarted assistant).deliver event).2
  | ended (c : Call) (assistant : AssistantMessage) (event : AssistantStreamEvent)
      (healthy : s.sinkFailure = none) (going : s.terminated = false) (terminal : event.isTerminal = true) :
      Effect s c ((s.closing assistant).deliver event).2
  | late (late : s.Late) :
      Effect s .emitStart ((s.noting true s.outputStarted s.assistant).deliver (.start s.assistant)).2

variable {redact : Bytes → Bytes}

theorem deliver_terminated (s : StreamEmitter) (event : AssistantStreamEvent) :
    (s.deliver event).2.terminated = s.terminated := by
  rw [deliver]
  cases s.sink with
  | none => rfl
  | some sink => cases hanswer : sink (s.sent ++ [event]) <;> simp [hanswer]

theorem deliverTerminal_snd (s : StreamEmitter) (event : AssistantStreamEvent) :
    (s.deliverTerminal event).2 = (s.deliver event).2 := by
  rw [deliverTerminal]
  split <;> rename_i heq <;> rw [heq]

variable {s : StreamEmitter}

theorem deliverTerminal_fst (hheal : s.sinkFailure = none) (event : AssistantStreamEvent):
    (s.deliverTerminal event).1.map some = (s.deliverTerminal event).2.result := by
  rw [deliverTerminal, deliver]
  cases s.sink with
  | none => simp [result, hheal, Except.map]
  | some sink => cases hanswer : sink (s.sent ++ [event]) <;> simp [result, hheal, hanswer, Except.map]

/-- The stream has ended, or its sink has failed. -/
def Ended (s : StreamEmitter) : Prop := s.terminated = true ∨ s.sinkFailure.isSome

theorem not_ended (hheal : s.sinkFailure = none) (hgoing : s.terminated = false) : ¬ s.Ended := by
  simp [Ended, hheal, hgoing]

/-- What a finalizer does: nothing when the stream has ended, and otherwise it ends the stream. -/
inductive Finalized (s : StreamEmitter) : Except Error AssistantMessage × StreamEmitter → Prop where
  | failed (failure : Error) (failed : s.sinkFailure = some failure) : Finalized s (.error failure, s)
  | again (healthy : s.sinkFailure = none) (ended : s.terminated = true) : Finalized s (.ok s.assistant, s)
  | ended (assistant : AssistantMessage) (event : AssistantStreamEvent) (healthy : s.sinkFailure = none)
      (going : s.terminated = false) (terminal : event.isTerminal = true) :
      Finalized s ((s.closing assistant).deliverTerminal event)

theorem finalizeErrorEvent_finalized (s : StreamEmitter) (terminal : AssistantErrorEvent) :
    Finalized s (s.finalizeErrorEvent redact terminal) := by
  rw [finalizeErrorEvent]
  split
  · rename_i failure hfailure
    exact .failed failure hfailure
  rename_i hheal
  split_ifs with hended
  · exact .again hheal hended
  · exact .ended _ (.error _) hheal (by simpa using hended) rfl

theorem finalizeDone_finalized (s : StreamEmitter) (terminal : AssistantDoneEvent) :
    Finalized s (s.finalizeDone redact terminal) := by
  rw [finalizeDone]
  split
  · rename_i failure hfailure
    exact .failed failure hfailure
  rename_i hheal
  split_ifs with hended
  · exact .again hheal hended
  · exact finalizeErrorEvent_finalized s _
  · exact .ended _ (.done _) hheal (by simpa using hended) rfl

variable {outcome : Except Error AssistantMessage × StreamEmitter}

theorem Finalized.effect (h : Finalized s outcome) (c : Call) : Effect s c outcome.2 := by
  cases h with
  | failed failure hfailed | again hheal hended => exact .quiet c s.started
  | ended assistant event hheal hgoing hterm =>
    rw [deliverTerminal_snd]
    exact .ended c assistant event hheal hgoing hterm

theorem Finalized.answer (h : Finalized s outcome) : outcome.1.map some = outcome.2.result := by
  cases h with
  | failed failure hfailed => simp [result, hfailed, Except.map]
  | again hheal hended => simp [result, hheal, Except.map]
  | ended assistant event hheal hgoing hterm =>
    have hclosing : (s.closing assistant).sinkFailure = none := hheal
    exact deliverTerminal_fst hclosing event

theorem Finalized.ends (h : Finalized s outcome) : outcome.2.Ended := by
  cases h with
  | failed failure hfailed => exact Or.inr (by rw [hfailed]; rfl)
  | again hheal hended => exact Or.inl hended
  | ended assistant event hheal hgoing hterm =>
    refine Or.inl ?_
    rw [deliverTerminal_snd, deliver_terminated]
    rfl

theorem Finalized.unchanged (h : Finalized s outcome) (hended : s.Ended) : outcome.2 = s := by
  cases h with
  | failed failure hfailed | again hheal hended => rfl
  | ended assistant event hheal hgoing hterm => exact absurd hended (not_ended hheal hgoing)

variable {c : Call}

theorem call_finalizer (redact : Bytes → Bytes) (s : StreamEmitter) (h : c.isFinalizer = true) :
    ∃ outcome, Finalized s outcome ∧ s.call redact c = (outcome.1.map some, outcome.2) := by
  cases c with
  | emitStart | emitEvent event => exact nomatch h
  | finalizeDone terminal => exact ⟨_, finalizeDone_finalized s terminal, rfl⟩
  | finalizeSuccess reason now => exact ⟨_, finalizeDone_finalized s _, rfl⟩
  | finalizeErrorEvent terminal => exact ⟨_, finalizeErrorEvent_finalized s terminal, rfl⟩
  | finalizeFailure failure inferenceFailure reason | finalizeCancelled =>
    exact ⟨_, finalizeErrorEvent_finalized s _, rfl⟩

theorem emitEvent_terminal (s : StreamEmitter) {event : AssistantStreamEvent} (h : event.isTerminal = true) :
    ∃ outcome, Finalized s outcome ∧ (s.emitEvent redact event).2 = outcome.2 := by
  unfold emitEvent
  split
  · rename_i failure hfailure
    exact ⟨_, .failed failure hfailure, rfl⟩
  cases event with
  | done terminal => exact ⟨_, finalizeDone_finalized s terminal, rfl⟩
  | error terminal => exact ⟨_, finalizeErrorEvent_finalized s terminal, rfl⟩
  | _ => exact nomatch h

theorem call_terminal (redact : Bytes → Bytes) (s : StreamEmitter) (h : c.isTerminal = true) :
    ∃ outcome, Finalized s outcome ∧ (s.call redact c).2 = outcome.2 := by
  cases hkind : c.isFinalizer with
  | true =>
    obtain ⟨outcome, hfinal, hcall⟩ := call_finalizer redact s hkind
    exact ⟨outcome, hfinal, by rw [hcall]⟩
  | false =>
    cases c with
    | emitStart => exact nomatch h
    | emitEvent event => exact emitEvent_terminal s h
    | _ => exact nomatch hkind

theorem emitStart_effect (s : StreamEmitter) : Effect s .emitStart s.emitStart.2 := by
  rw [emitStart]
  split_ifs with hbegun
  · exact .quiet _ s.started
  dsimp only
  split
  · exact .quiet _ true
  rename_i hheal
  show Effect s .emitStart ((s.noting true s.outputStarted s.assistant).deliver (.start s.assistant)).2
  rcases Bool.eq_false_or_eq_true s.terminated with hended | hgoing
  · rcases Option.eq_none_or_eq_some s.sink with hsink | ⟨sink, hsink⟩
    · have hsilent : (s.noting true s.outputStarted s.assistant).deliver (.start s.assistant) =
          (.ok (), s.noting true s.outputStarted s.assistant) := by
        simp only [deliver, noting, hsink]
      rw [hsilent]
      exact .quiet _ true
    · exact .late ⟨by simpa using hbegun, hended, hheal, by rw [hsink]; rfl⟩
  · exact .passed _ true s.outputStarted s.assistant _ hheal hgoing rfl id

theorem emitEvent_effect (s : StreamEmitter) (event : AssistantStreamEvent) (c : Call) :
    Effect s c (s.emitEvent redact event).2 := by
  cases hterm : event.isTerminal with
  | true =>
    obtain ⟨outcome, hfinal, hstate⟩ := emitEvent_terminal s hterm
    rw [hstate]
    exact hfinal.effect c
  | false =>
    unfold emitEvent
    split
    · exact .quiet c s.started
    rename_i hheal
    split
    · exact nomatch hterm
    · exact nomatch hterm
    · split_ifs with hended
      · exact .quiet c s.started
      · exact .passed c s.started (s.outputStarted || event.isOutput) (event.observed.getD s.assistant) event
          hheal (by simpa using hended) hterm fun houtput => by rw [houtput, Bool.true_or]

theorem call_effect (redact : Bytes → Bytes) (s : StreamEmitter) (c : Call) : Effect s c (s.call redact c).2 := by
  cases hkind : c.isFinalizer with
  | true =>
    obtain ⟨outcome, hfinal, hcall⟩ := call_finalizer redact s hkind
    rw [hcall]
    exact hfinal.effect c
  | false =>
    cases c with
    | emitStart => exact emitStart_effect s
    | emitEvent event => exact emitEvent_effect s event _
    | _ => exact nomatch hkind

/-! ## What holds after every run -/

theorem concat_eq_append_cons {α : Type} {list before after : List α} {last found : α}
    (h : list ++ [last] = before ++ found :: after) :
    (before = list ∧ found = last ∧ after = []) ∨ ∃ rest, after = rest ++ [last] ∧ list = before ++ found :: rest := by
  rcases List.eq_nil_or_concat after with rfl | ⟨rest, element, rfl⟩
  · obtain ⟨hprev, hfound⟩ := List.append_inj' h rfl
    exact Or.inl ⟨hprev.symm, (List.singleton_inj.1 hfound).symm, rfl⟩
  rw [List.concat_eq_append, ← List.cons_append, ← List.append_assoc] at h
  obtain ⟨hlist, hlast⟩ := List.append_inj' h rfl
  exact Or.inr ⟨rest, by rw [List.singleton_inj.1 hlast, List.concat_eq_append], hlist⟩

/-- A delivery adds the event to what the sink was called with, and keeps the answer. -/
theorem deliver_cases (s : StreamEmitter) (event : AssistantStreamEvent) :
    (s.sink = none ∧ (s.deliver event).2 = s) ∨ ∃ sink, s.sink = some sink ∧ (s.deliver event).2 = { s with
          sent := s.sent ++ [event]
          sinkFailure := (sink (s.sent ++ [event])).or s.sinkFailure } := by
  rw [deliver]
  cases hsink : s.sink with
  | none => exact Or.inl ⟨rfl, rfl⟩
  | some sink =>
    cases hanswer : sink (s.sent ++ [event]) <;> simp [hanswer]

/-- The flags say what the sink was called with. -/
structure Sound (s : StreamEmitter) : Prop where
  /-- Only the last event can have failed, and then its failure is kept. -/
  accepted : ∀ sink, s.sink = some sink → ∀ before event after, s.sent = before ++ event :: after →
    after ≠ [] ∨ s.sinkFailure = none → sink (before ++ [event]) = none
  going : s.terminated = false → ∀ event ∈ s.sent, event.isTerminal = false
  ended : s.terminated = true → s.sinkFailure = none → s.sink.isSome → ∃ event ∈ s.sent, event.isTerminal = true

/-- A healthy emitter stays sound when it sends an event that matches its flag. -/
theorem Sound.deliver {event : AssistantStreamEvent} (hheal : s.sinkFailure = none)
    (hacc : ∀ sink, s.sink = some sink → ∀ before event after, s.sent = before ++ event :: after →
      sink (before ++ [event]) = none)
    (hgoing : s.terminated = false → event.isTerminal = false ∧ ∀ event ∈ s.sent, event.isTerminal = false)
    (hended : s.terminated = true → s.sink.isSome →
      event.isTerminal = true ∨ ∃ event ∈ s.sent, event.isTerminal = true) : Sound (s.deliver event).2 := by
  rcases s.deliver_cases event with ⟨hsink, hstate⟩ | ⟨sink, hsink, hstate⟩
  · rw [hstate]
    refine ⟨fun sink hsome => ?_, fun hflag => (hgoing hflag).2, fun _ _ hsome => ?_⟩
    · exact nomatch hsink.symm.trans hsome
    · rw [hsink] at hsome
      exact nomatch hsome
  rw [hstate, hheal, Option.or_none]
  refine ⟨fun other hother before found after hsent hkept => ?_, fun hflag found hmem => ?_, fun hflag _ hsome => ?_⟩
  · obtain rfl : sink = other := Option.some.inj (hsink.symm.trans hother)
    rcases concat_eq_append_cons hsent with ⟨rfl, rfl, rfl⟩ | ⟨rest, rfl, hold⟩
    · exact hkept.resolve_left fun hne => hne rfl
    · exact hacc sink hsink before found rest hold
  · rcases List.mem_append.1 hmem with hold | hnew
    · exact (hgoing hflag).2 found hold
    · exact List.mem_singleton.1 hnew ▸ (hgoing hflag).1
  · rcases hended hflag hsome with hterm | ⟨found, hold, hterm⟩
    · exact ⟨event, List.mem_append_right _ List.mem_cons_self, hterm⟩
    · exact ⟨found, List.mem_append_left _ hold, hterm⟩

variable {t : StreamEmitter}

theorem Effect.sound (h : Effect s c t) (hsound : s.Sound) : t.Sound := by
  cases h with
  | quiet _ started => exact ⟨hsound.accepted, hsound.going, hsound.ended⟩
  | passed _ started outputStarted assistant event hheal hgoing hinner houtput =>
    refine Sound.deliver hheal (fun sink hsink before found after hsent => ?_) (fun _ => ?_) fun hflag => ?_
    · exact hsound.accepted sink hsink before found after hsent (Or.inr hheal)
    · exact ⟨hinner, hsound.going hgoing⟩
    · exact nomatch hgoing.symm.trans hflag
  | ended _ assistant event hheal hgoing hterm =>
    refine Sound.deliver hheal (fun sink hsink before found after hsent => ?_) (fun hflag => nomatch hflag)
      fun _ _ => Or.inl hterm
    exact hsound.accepted sink hsink before found after hsent (Or.inr hheal)
  | late hlate =>
    refine Sound.deliver hlate.healthy (fun sink hsink before found after hsent => ?_) (fun hflag => ?_)
      fun hflag hsome => Or.inr (hsound.ended hlate.ended hlate.healthy hsome)
    · exact hsound.accepted sink hsink before found after hsent (Or.inr hlate.healthy)
    · exact nomatch hlate.ended.symm.trans hflag

/-- A call only adds to what was sent, keeps the sink, and does not take started output back. -/
theorem Effect.grows (h : Effect s c t) :
    s.sent <+: t.sent ∧ t.sink = s.sink ∧ (s.outputStarted = true → t.outputStarted = true) := by
  have hdeliver : ∀ (u : StreamEmitter) (event : AssistantStreamEvent), u.sent <+: (u.deliver event).2.sent ∧
      (u.deliver event).2.sink = u.sink ∧ (u.deliver event).2.outputStarted = u.outputStarted := by
    intro u event
    rcases u.deliver_cases event with ⟨hsink, hstate⟩ | ⟨sink, hsink, hstate⟩
    · rw [hstate]
      exact ⟨List.prefix_rfl, rfl, rfl⟩
    · rw [hstate]
      exact ⟨List.prefix_append _ _, rfl, rfl⟩
  cases h with
  | quiet _ started => exact ⟨List.prefix_rfl, rfl, id⟩
  | passed _ started outputStarted assistant event hheal hgoing hinner houtput =>
    obtain ⟨hsent, hsink, hflag⟩ := hdeliver (s.noting started outputStarted assistant) event
    exact ⟨hsent, hsink, fun hold => hflag.trans (houtput hold)⟩
  | ended _ assistant event hheal hgoing hterm =>
    obtain ⟨hsent, hsink, hflag⟩ := hdeliver (s.closing assistant) event
    exact ⟨hsent, hsink, hflag.trans⟩
  | late hlate =>
    obtain ⟨hsent, hsink, hflag⟩ := hdeliver (s.noting true s.outputStarted s.assistant) (.start s.assistant)
    exact ⟨hsent, hsink, hflag.trans⟩

theorem run_append (s : StreamEmitter) (before after : List Call) :
    s.run redact (before ++ after) = (s.run redact before).run redact after :=
  List.foldl_append

theorem run_cons (s : StreamEmitter) (c : Call) (rest : List Call) :
    s.run redact (c :: rest) = (s.call redact c).2.run redact rest := rfl

theorem run_sound (redact : Bytes → Bytes) (s : StreamEmitter) (calls : List Call) (h : s.Sound) :
    (s.run redact calls).Sound := by
  induction calls generalizing s with
  | nil => exact h
  | cons c rest ih => exact ih _ ((s.call_effect redact c).sound h)

theorem run_grows (redact : Bytes → Bytes) (s : StreamEmitter) (calls : List Call) :
    s.sent <+: (s.run redact calls).sent ∧ (s.run redact calls).sink = s.sink ∧
      (s.outputStarted = true → (s.run redact calls).outputStarted = true) := by
  induction calls generalizing s with
  | nil => exact ⟨List.prefix_rfl, rfl, id⟩
  | cons c rest ih =>
    obtain ⟨hsent, hsink, houtput⟩ := (s.call_effect redact c).grows
    obtain ⟨hsent', hsink', houtput'⟩ := ih (s.call redact c).2
    exact ⟨hsent.trans hsent', hsink'.trans hsink, houtput' ∘ houtput⟩

/-! ## Runs without a late start -/

/-- No start event is called for after a terminal event was sent. -/
def InTime (redact : Bytes → Bytes) (s : StreamEmitter) (calls : List Call) : Prop :=
  ∀ before after, calls = before ++ .emitStart :: after → ¬ (s.run redact before).Late

theorem InTime.tail {rest : List Call} (h : InTime redact s (c :: rest)) :
    InTime redact (s.call redact c).2 rest := by
  intro before after hrest
  exact h (c :: before) after (by rw [hrest]; rfl)

theorem InTime.suffix {before after : List Call} (h : InTime redact s (before ++ after)) :
    InTime redact (s.run redact before) after := by
  intro between rest hafter
  rw [← run_append]
  exact h (before ++ between) rest (by rw [hafter, List.append_assoc])

theorem InTime.head {rest : List Call} (h : InTime redact s (c :: rest)) : c = .emitStart → ¬ s.Late := by
  rintro rfl
  exact h [] rest rfl

/-- Nothing was sent after a terminal event. -/
def TerminalLast (s : StreamEmitter) : Prop :=
  ∀ before event after, s.sent = before ++ event :: after → event.isTerminal = true → after = []

theorem Effect.terminalLast (h : Effect s c t)
    (hearly : c = .emitStart → ¬ s.Late) (hsound : s.Sound) (hlast : s.TerminalLast) : t.TerminalLast := by
  have hdeliver : ∀ (u : StreamEmitter) (event : AssistantStreamEvent),
      (∀ event ∈ u.sent, event.isTerminal = false) → (u.deliver event).2.TerminalLast := by
    intro u event hgoing before found after hsent hterm
    have hnone : ∀ rest, u.sent ≠ before ++ found :: rest := by
      intro rest hold
      have hfalse := hgoing found (hold ▸ List.mem_append_right _ List.mem_cons_self)
      exact nomatch hfalse.symm.trans hterm
    rcases u.deliver_cases event with ⟨hsink, hstate⟩ | ⟨sink, hsink, hstate⟩
    · rw [hstate] at hsent
      exact absurd hsent (hnone after)
    rw [hstate] at hsent
    rcases concat_eq_append_cons hsent with ⟨-, -, hafter⟩ | ⟨rest, -, hold⟩
    · exact hafter
    · exact absurd hold (hnone rest)
  cases h with
  | quiet _ started => exact hlast
  | passed _ started outputStarted assistant event hheal hgoing hinner houtput =>
    exact hdeliver _ event (hsound.going hgoing)
  | ended _ assistant event hheal hgoing hterm => exact hdeliver _ event (hsound.going hgoing)
  | late hlate => exact absurd hlate (hearly rfl)

theorem run_terminalLast (s : StreamEmitter) (calls : List Call) (htime : InTime redact s calls)
    (hsound : s.Sound) (hlast : s.TerminalLast) : (s.run redact calls).TerminalLast := by
  induction calls generalizing s with
  | nil => exact hlast
  | cons c rest ih =>
    have heffect := s.call_effect redact c
    exact ih _ htime.tail (heffect.sound hsound) (heffect.terminalLast htime.head hsound hlast)

theorem Effect.result (h : Effect s c t)
    (hearly : c = .emitStart → ¬ s.Late) (hended : s.Ended) : t.Ended ∧ t.result = s.result := by
  cases h with
  | quiet _ started => exact ⟨hended, rfl⟩
  | passed _ started outputStarted assistant event hheal hgoing hinner houtput =>
    exact absurd hended (not_ended hheal hgoing)
  | ended _ assistant event hheal hgoing hterm => exact absurd hended (not_ended hheal hgoing)
  | late hlate => exact absurd hlate (hearly rfl)

theorem run_result (s : StreamEmitter) (calls : List Call) (htime : InTime redact s calls) (hended : s.Ended) :
    (s.run redact calls).Ended ∧ (s.run redact calls).result = s.result := by
  induction calls generalizing s with
  | nil => exact ⟨hended, rfl⟩
  | cons c rest ih =>
    obtain ⟨hstill, hres⟩ := (s.call_effect redact c).result htime.head hended
    obtain ⟨hend, hsame⟩ := ih _ htime.tail hstill
    exact ⟨hend, hsame.trans hres⟩

/-! ## The result -/

theorem create_sound (assistant : AssistantMessage) (sink : Option AssistantEventSink) (requestKey : Bytes) :
    (create assistant sink requestKey).Sound where
  accepted := fun _ _ before event after hsent => by simp [create] at hsent
  going := fun _ event hmem => nomatch hmem
  ended := fun hflag => nomatch hflag

theorem Late.sends (h : s.Late) : (s.call redact .emitStart).2.sent = s.sent ++ [.start s.assistant] := by
  have hstart : s.emitStart = (s.noting true s.outputStarted s.assistant).deliver (.start s.assistant) := by
    rw [emitStart, h.first, if_neg Bool.false_ne_true]
    dsimp only
    split
    · rename_i failure hfailure
      exact nomatch h.healthy.symm.trans hfailure
    · rfl
  show s.emitStart.2.sent = _
  rw [hstart]
  rcases (s.noting true s.outputStarted s.assistant).deliver_cases (.start s.assistant) with
    ⟨hsink, -⟩ | ⟨sink, -, hstate⟩
  · have hheard := h.heard
    rw [show s.sink = none from hsink] at hheard
    exact nomatch hheard
  · rw [hstate]
    rfl

/-- A finalizer after a terminal call sends nothing and returns what that call left. -/
theorem finalizer_repeats {first last : Call} {between : List Call}
    (htime : InTime redact s (first :: between)) (hfirst : first.isTerminal = true)
    (hlast : last.isFinalizer = true) :
    ((s.run redact (first :: between)).call redact last).1 = (s.call redact first).2.result ∧
      ((s.run redact (first :: between)).call redact last).2 = s.run redact (first :: between) ∧
      (first.isFinalizer = true → (s.call redact first).1 = (s.call redact first).2.result) := by
  obtain ⟨outcome, hfinal, hstate⟩ := call_terminal redact s hfirst
  have hended : (s.call redact first).2.Ended := hstate ▸ hfinal.ends
  obtain ⟨hstill, hsame⟩ := run_result (s.call redact first).2 between htime.tail hended
  obtain ⟨again, hagain, hcall⟩ := call_finalizer redact (s.run redact (first :: between)) hlast
  have hunchanged : again.2 = s.run redact (first :: between) := hagain.unchanged hstill
  refine ⟨?_, by rw [hcall, hunchanged], fun hkind => ?_⟩
  · rw [hcall, ← hsame]
    exact hagain.answer.trans (congrArg result hunchanged)
  obtain ⟨own, hown, hcall⟩ := call_finalizer redact s hkind
  rw [hcall]
  exact hown.answer

/-- **A stream ends exactly once** unless a start is late, whatever the sink answers. -/
theorem ends_once_iff (redact : Bytes → Bytes) (assistant : AssistantMessage)
    (sink : Option AssistantEventSink) (requestKey : Bytes) (calls : List Call) :
    EndsOnce redact (create assistant sink requestKey) calls ↔ ∀ before after, calls = before ++ .emitStart :: after →
        ¬ ((create assistant sink requestKey).run redact before).Late := by
  have hsound := create_sound assistant sink requestKey
  constructor
  · rintro hends before after rfl hlate
    have hbefore := run_sound redact _ before hsound
    obtain ⟨event, hmem, hterminal⟩ := hbefore.ended hlate.ended hlate.healthy hlate.heard
    obtain ⟨early, later, hcut⟩ := List.append_of_mem hmem
    generalize hs : (create assistant sink requestKey).run redact before = s at hlate hcut
    obtain ⟨more, hmore⟩ := (run_grows redact (s.call redact .emitStart).2 after).1
    -- The start stands after the terminal event.
    have hall : ((create assistant sink requestKey).run redact (before ++ .emitStart :: after)).sent =
        early ++ event :: (later ++ .start s.assistant :: more) := by
      rw [run_append, hs, run_cons, ← hmore, hlate.sends, hcut]
      simp
    have hnil := hends.terminal early event _ hall hterminal
    simp at hnil
  intro htime
  have hintime : InTime redact (create assistant sink requestKey) calls := htime
  have hfinal := run_sound redact _ calls hsound
  have hgrows := run_grows redact (create assistant sink requestKey) calls
  refine ⟨?_, ?_, ?_, ?_⟩
  · exact run_terminalLast _ calls hintime hsound fun before event after hsent => by simp [create] at hsent
  · intro given hgiven before event after hsent hfailed
    by_contra hafter
    exact hfailed (hfinal.accepted given (hgrows.2.1.trans hgiven) before event after hsent (Or.inl hafter))
  · rintro before after rfl houtput
    rw [run_append]
    exact (run_grows redact _ after).2.2 houtput
  · rintro before first between last after rfl hfirst hlast
    have hsplit : before ++ first :: (between ++ last :: after) =
        before ++ ((first :: between) ++ last :: after) := rfl
    have htail := (hsplit ▸ hintime).suffix
    have hfront : InTime redact ((create assistant sink requestKey).run redact before) (first :: between) := by
      intro early rest hcut
      exact htail early (rest ++ last :: after) (by rw [hcut]; simp)
    obtain ⟨hanswer, hstate, hown⟩ := finalizer_repeats hfront hfirst hlast
    rw [← run_append] at hanswer hstate
    exact ⟨hanswer, by rw [hstate], hown⟩

def emptyMessage : AssistantMessage where
  content := []
  api := "openai-completions"
  provider := "p"
  model := "m"
  usage := ⟨0, 0, 0, 0, none, none, 0, ⟨.zero false, .zero false, .zero false, .zero false, .zero false⟩⟩

/-- A stream that is cancelled before it starts: the sink gets the error event and then the start. -/
theorem cancelled_then_started :
    ¬ EndsOnce id (create emptyMessage (some fun _ => none) []) [.finalizeCancelled, .emitStart] := by
  intro hends
  have hnil := hends.terminal [] _ [_] rfl rfl
  exact nomatch hnil

end StreamEmitter

end CodingHarness.Ai
