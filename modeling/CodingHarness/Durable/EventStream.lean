import CodingHarness.Durable.Transaction

/-!
# Agent event streams

A stream of agent events has a bounded buffer between the publications of a Session and one listener. A
publication is translated and buffered on the publication line; the buffer is drained by whoever finds it
ready: the publication itself, or the call that installs the listener. The `delivering` flag says that a
drain is under way, and it is handed over in critical sections that are separate from those that fill the
buffer, stop the stream and run the listener.

Every critical section and every return of the listener is a step of its own, so a run is any interleaving
of publications, `start`, drains, stops, cancellations and the end of the Session. A batch counts as
delivered from the critical section that takes it out of the buffer for the listener: a callback that is
entered may finish after a stop.

The translation of a publication and the snapshot of a view are parameters: nothing here depends on what
the events say.
-/

namespace CodingHarness.Durable

open Support
open List (append_assoc append_nil countP_append)

namespace EventStream

variable {View Change Event Held Listener : Type}

/-- What a publication passes to `advance`: the view before and after it, and what it changed. -/
structure Publication (View Change : Type) where
  before : View
  after : View
  change : Change

/-- `translate_publication`, which also updates the held generations, and `agent_event_snapshot`. -/
structure Translation (View Change Event Held : Type) where
  translate : Held → Publication View Change → List Event × Held
  snapshot : View → Event

/-- Where a call of `drain` is. -/
inductive Drain (Event Listener : Type) where
  /-- Before its first critical section. -/
  | called
  /-- At the head of its loop. -/
  | taking
  /-- In the call of the listener. -/
  | calling (listener : Option Listener) (batch : List Event)
  /-- The listener has failed and the stream is to be terminated. -/
  | failed (message : Bytes)

/-- `AgentEventStream::Impl`, with what was published to it, what it has delivered and what it has
reported. -/
structure Shared (View Event Held Listener : Type) where
  held : Held
  listenerHolder : Option Listener := none
  pending : List (List Event) := []
  started : Bool := false
  stopped : Bool := false
  delivering : Bool := false
  endReason : WatchEndReason := .stopped
  listenerError : Option Bytes := none
  published : List (List Event × View) := []
  delivered : List (List Event) := []
  reports : List Bytes := []

def kMaxPendingBatches : Nat := 100

/-- The buffer with one more batch: a full one is replaced by a snapshot of the newest view. -/
def buffered (snapshot : View → Event) (pending : List (List Event)) (batch : List Event)
    (after : View) : List (List Event) :=
  if kMaxPendingBatches ≤ pending.length then [[snapshot after]] else pending ++ [batch]

/-- `advance`, up to the drain that it calls. -/
def advance (translation : Translation View Change Event Held)
    (s : Shared View Event Held Listener) (publication : Publication View Change) :
    Shared View Event Held Listener × Option (Drain Event Listener) :=
  let (batch, held) := translation.translate s.held publication
  if batch.isEmpty then ({ s with held := held }, none)
  else if s.stopped then
    ({ s with held := held, published := s.published ++ [(batch, publication.after)] }, none)
  else
    ({ s with
        held := held
        published := s.published ++ [(batch, publication.after)]
        pending := buffered translation.snapshot s.pending batch publication.after },
      if s.started && !s.delivering then some .called else none)

def terminate (s : Shared View Event Held Listener) (reason : WatchEndReason)
    (error : Option Bytes) : Shared View Event Held Listener :=
  if s.stopped then s
  else
    { s with
      stopped := true
      endReason := reason
      listenerError := error
      pending := []
      listenerHolder := none
      reports := if reason = .listenerError then
          s.reports ++ [ofString "An agent event listener reported an error" ++ (match error with
            | some message => ofString ": " ++ message
            | none => [])]
        else s.reports }

/-- `start`, up to its drain. -/
def start (s : Shared View Event Held Listener) (listener : Listener) :
    Except Bytes (Shared View Event Held Listener × Drain Event Listener) :=
  if s.started then .error "Agent event stream is already started"
  else if s.stopped then .error "Agent event stream is stopped"
  else .ok ({ s with started := true, listenerHolder := some listener }, .called)

/-- The next critical section of `drain`. -/
def perform (s : Shared View Event Held Listener) :
    Drain Event Listener → Shared View Event Held Listener × Option (Drain Event Listener)
  | .called =>
    if s.stopped || !s.started || s.delivering then (s, none)
    else ({ s with delivering := true }, some .taking)
  | .taking =>
    if s.stopped then ({ s with delivering := false }, none)
    else
      match s.pending with
      | [] => ({ s with delivering := false }, none)
      | batch :: rest =>
        ({ s with pending := rest, delivered := s.delivered ++ [batch] }, some (.calling s.listenerHolder batch))
  -- The listener has the control.
  | .calling listener batch => (s, some (.calling listener batch))
  | .failed message => (terminate s .listenerError (some message), none)

/-- The return of the listener: a failure gives the flag back before it terminates the stream. -/
def returned (s : Shared View Event Held Listener) (outcome : Except Bytes Unit) :
    Drain Event Listener → Shared View Event Held Listener × Option (Drain Event Listener)
  | .calling _ _ =>
    match outcome with
    | .ok _ => (s, some .taking)
    | .error message => ({ s with delivering := false }, some (.failed message))
  | drain => (s, some drain)

/-! ## Runs -/

/-- A stream and the drains that are under way. -/
structure State (View Event Held Listener : Type) where
  shared : Shared View Event Held Listener
  drains : List (Drain Event Listener) := []

/-- A step. A stop of the handle, the cancellation and the end of the Session are terminations. -/
inductive Step (View Change Listener : Type) where
  | advance (publication : Publication View Change)
  | start (listener : Listener)
  | terminate (reason : WatchEndReason)
  | run (i : Nat)
  | returned (i : Nat) (outcome : Except Bytes Unit)

/-- A drain moves and the others stay where they are. -/
def move (s : State View Event Held Listener) (i : Nat)
    (action : Shared View Event Held Listener → Drain Event Listener →
      Shared View Event Held Listener × Option (Drain Event Listener)) :
    State View Event Held Listener :=
  match s.drains[i]? with
  | none => s
  | some drain =>
    let (shared, next) := action s.shared drain
    ⟨shared, s.drains.take i ++ next.toList ++ s.drains.drop (i + 1)⟩

def step (translation : Translation View Change Event Held)
    (s : State View Event Held Listener) : Step View Change Listener → State View Event Held Listener
  | .advance publication =>
    let (shared, next) := advance translation s.shared publication
    ⟨shared, s.drains ++ next.toList⟩
  | .start listener =>
    match start s.shared listener with
    | .ok (shared, next) => ⟨shared, s.drains ++ [next]⟩
    | .error _ => s
  | .terminate reason => { s with shared := terminate s.shared reason none }
  | .run i => move s i perform
  | .returned i outcome => move s i fun shared drain => returned shared outcome drain

/-- The state after a run from `s`. -/
def runSteps (translation : Translation View Change Event Held)
    (s : State View Event Held Listener) (steps : List (Step View Change Listener)) :
    State View Event Held Listener :=
  steps.foldl (step translation) s

def attached (held : Held) : State View Event Held Listener := { shared := { held := held } }

/-! ## What is delivered of what was published -/

/-- The delivered batches are the published ones in their order, except that a run of more batches than
the buffer holds may be replaced by a snapshot of the view at its end. -/
inductive Condenses (snapshot : View → Event) :
    List (List Event × View) → List (List Event) → Prop where
  | nil : Condenses snapshot [] []
  | batch {published : List (List Event × View)} {delivered : List (List Event)}
      (batch : List Event) (view : View) (earlier : Condenses snapshot published delivered) :
      Condenses snapshot (published ++ [(batch, view)]) (delivered ++ [batch])
  | snapshot {published : List (List Event × View)} {delivered : List (List Event)}
      (run : List (List Event × View)) (batch : List Event) (view : View)
      (earlier : Condenses snapshot published delivered) (full : kMaxPendingBatches ≤ run.length) :
      Condenses snapshot (published ++ (run ++ [(batch, view)])) (delivered ++ [[snapshot view]])

variable {published : List (List Event × View)} {snapshot : View → Event}

/-- The batches at the end of a sequence stand for at least as many publications. -/
theorem Condenses.split
    {sequence : List (List Event)} (h : Condenses snapshot published sequence)
    {front back : List (List Event)} (hsplit : sequence = front ++ back) :
    ∃ seen rest, published = seen ++ rest ∧ Condenses snapshot seen front ∧ back.length ≤ rest.length := by
  induction h generalizing back with
  | nil =>
    obtain ⟨rfl, rfl⟩ := List.append_eq_nil_iff.1 hsplit.symm
    exact ⟨[], [], rfl, .nil, Nat.le_refl 0⟩
  | batch batch view earlier ih =>
    rcases List.eq_nil_or_concat back with rfl | ⟨back, last, rfl⟩
    · rw [append_nil] at hsplit
      exact ⟨_, [], (append_nil _).symm, hsplit ▸ earlier.batch batch view, Nat.le_refl 0⟩
    rw [List.concat_eq_append, ← append_assoc] at hsplit
    obtain ⟨hfront, -⟩ := List.append_inj' hsplit rfl
    obtain ⟨seen, rest, rfl, hseen, hlen⟩ := ih hfront
    refine ⟨seen, rest ++ [(batch, view)], append_assoc _ _ _, hseen, ?_⟩
    rw [List.length_concat, List.length_append]
    exact Nat.succ_le_succ hlen
  | snapshot run batch view earlier full ih =>
    rcases List.eq_nil_or_concat back with rfl | ⟨back, last, rfl⟩
    · rw [append_nil] at hsplit
      exact ⟨_, [], (append_nil _).symm, hsplit ▸ earlier.snapshot run batch view full, Nat.le_refl 0⟩
    rw [List.concat_eq_append, ← append_assoc] at hsplit
    obtain ⟨hfront, -⟩ := List.append_inj' hsplit rfl
    obtain ⟨seen, rest, rfl, hseen, hlen⟩ := ih hfront
    refine ⟨seen, rest ++ (run ++ [(batch, view)]), append_assoc _ _ _, hseen, ?_⟩
    simp only [List.length_concat, List.length_append, List.length_singleton]
    omega

theorem Condenses.buffered {delivered pending : List (List Event)}
    (h : Condenses snapshot published (delivered ++ pending)) (batch : List Event) (after : View) :
    Condenses snapshot (published ++ [(batch, after)]) (delivered ++ buffered snapshot pending batch after) := by
  unfold EventStream.buffered
  split
  · next hfull =>
    -- The snapshot stands for everything that was in the buffer, and for the new batch.
    obtain ⟨seen, rest, rfl, hseen, hlen⟩ := h.split rfl
    rw [append_assoc]
    exact hseen.snapshot rest batch after (Nat.le_trans hfull hlen)
  · rw [← append_assoc]
    exact h.batch batch after

theorem buffered_length_le (snapshot : View → Event) (pending : List (List Event))
    (batch : List Event) (after : View) : (buffered snapshot pending batch after).length ≤ kMaxPendingBatches := by
  unfold buffered
  split
  · show 1 ≤ 100
    decide
  · rw [List.length_append]
    exact Nat.succ_le_of_lt (Nat.lt_of_not_le ‹_›)

/-! ## The invariant -/

/-- The drain holds the `delivering` flag. -/
def Drain.holdsFlag : Drain Event Listener → Bool
  | .taking | .calling _ _ => true
  | .called | .failed _ => false

/-- The drain is in a call of the listener. -/
def Drain.inListener : Drain Event Listener → Bool
  | .calling _ _ => true
  | _ => false

/-- What holds between any two steps. -/
structure Sound (snapshot : View → Event) (s : State View Event Held Listener) : Prop where
  flag : s.drains.countP Drain.holdsFlag = if s.shared.delivering then 1 else 0
  awake : s.shared.started = true → s.shared.stopped = false → s.shared.pending ≠ [] → s.drains ≠ []
  bounded : s.shared.pending.length ≤ kMaxPendingBatches
  complete : s.shared.stopped = false →
    Condenses snapshot s.shared.published (s.shared.delivered ++ s.shared.pending)
  order : ∃ seen, seen <+: s.shared.published ∧ Condenses snapshot seen s.shared.delivered
  installed : s.shared.started = true → s.shared.stopped = false → s.shared.listenerHolder ≠ none
  begun : s.shared.delivering = true → s.shared.started = true
  called : ∀ listener batch, Drain.calling listener batch ∈ s.drains → listener ≠ none

theorem Sound.attached (snapshot : View → Event) (held : Held) :
    Sound snapshot (attached held : State View Event Held Listener) where
  flag := rfl
  awake h := nomatch h
  bounded := Nat.zero_le _
  complete _ := .nil
  order := ⟨[], List.prefix_rfl, .nil⟩
  installed h := nomatch h
  begun h := nomatch h
  called _ _ h := nomatch h

theorem Condenses.order {delivered pending : List (List Event)}
    (h : Condenses snapshot published (delivered ++ pending)) :
    ∃ seen, seen <+: published ∧ Condenses snapshot seen delivered := by
  obtain ⟨seen, rest, rfl, hseen, -⟩ := h.split rfl
  exact ⟨seen, List.prefix_append seen rest, hseen⟩

variable {s : Shared View Event Held Listener} {drains before after : List (Drain Event Listener)}

section Terminate

variable (s : Shared View Event Held Listener) (reason : WatchEndReason) (error : Option Bytes)

@[simp] theorem terminate_stopped : (terminate s reason error).stopped = true := by
  unfold terminate
  split
  · assumption
  · rfl

@[simp] theorem terminate_delivering : (terminate s reason error).delivering = s.delivering := by
  unfold terminate
  split <;> rfl

@[simp] theorem terminate_started : (terminate s reason error).started = s.started := by
  unfold terminate
  split <;> rfl

@[simp] theorem terminate_published : (terminate s reason error).published = s.published := by
  unfold terminate
  split <;> rfl

@[simp] theorem terminate_delivered : (terminate s reason error).delivered = s.delivered := by
  unfold terminate
  split <;> rfl

theorem terminate_pending_length_le : (terminate s reason error).pending.length ≤ s.pending.length := by
  unfold terminate
  split
  · exact Nat.le_refl _
  · exact Nat.zero_le _

end Terminate

/-- Termination keeps the invariant; it is also all that a failed drain still has to do. -/
theorem Sound.terminate (h : Sound snapshot ⟨s, drains⟩) (reason : WatchEndReason)
    (error : Option Bytes) (hcount : before.countP Drain.holdsFlag = drains.countP Drain.holdsFlag)
    (hmem : before ⊆ drains) : Sound snapshot ⟨terminate s reason error, before⟩ where
  flag := by
    rw [terminate_delivering]
    exact hcount.trans h.flag
  awake _ hstopped := nomatch (terminate_stopped s reason error).symm.trans hstopped
  bounded := Nat.le_trans (terminate_pending_length_le s reason error) h.bounded
  complete hstopped := nomatch (terminate_stopped s reason error).symm.trans hstopped
  order := by
    rw [terminate_published, terminate_delivered]
    exact h.order
  installed _ hstopped := nomatch (terminate_stopped s reason error).symm.trans hstopped
  begun hdeliv := by
    rw [terminate_delivering] at hdeliv
    rw [terminate_started]
    exact h.begun hdeliv
  called listener batch hmember := h.called listener batch (hmem hmember)

theorem countP_called (condition : Prop) [Decidable condition] :
    (if condition then some Drain.called else none : Option (Drain Event Listener)).toList.countP
      Drain.holdsFlag = 0 := by
  split <;> rfl

theorem Sound.advance (translation : Translation View Change Event Held)
    (h : Sound translation.snapshot ⟨s, drains⟩) (publication : Publication View Change) :
    Sound translation.snapshot ⟨(advance translation s publication).1,
      drains ++ (advance translation s publication).2.toList⟩ := by
  rcases htranslate : translation.translate s.held publication with ⟨batch, held⟩
  simp only [EventStream.advance, htranslate]
  split
  · rw [Option.toList_none, append_nil]
    exact ⟨h.flag, h.awake, h.bounded, h.complete, h.order, h.installed, h.begun, h.called⟩
  split
  · next hstopped =>
    rw [Option.toList_none, append_nil]
    refine ⟨h.flag, h.awake, h.bounded, fun hrunning => ?_, ?_, h.installed, h.begun, h.called⟩
    · rw [hstopped] at hrunning
      cases hrunning
    · obtain ⟨seen, hseen, hcondenses⟩ := h.order
      exact ⟨seen, hseen.trans (List.prefix_append _ _), hcondenses⟩
  next hstopped =>
  have hcomplete := (h.complete (Bool.not_eq_true _ ▸ hstopped)).buffered batch publication.after
  refine ⟨?_, ?_, buffered_length_le _ _ _ _, fun _ => hcomplete, hcomplete.order, h.installed, h.begun, ?_⟩
  · rw [countP_append, countP_called, h.flag]
    rfl
  · intro hbegun _ _
    -- Either this call drains, or a drain holds the flag.
    cases hdeliv : s.delivering with
    | false => simp [show s.started = true from hbegun]
    | true =>
      have hflag := h.flag
      rw [hdeliv] at hflag
      intro hnil
      rw [(List.append_eq_nil_iff.1 hnil).1] at hflag
      cases hflag
  · intro listener called hmem
    rcases List.mem_append.1 hmem with hmem | hmem
    · exact h.called listener called hmem
    split at hmem
    · cases List.mem_singleton.1 hmem
    · cases hmem

theorem Sound.start (h : Sound snapshot ⟨s, drains⟩) {listener : Listener}
    {t : Shared View Event Held Listener} {next : Drain Event Listener}
    (hstart : start s listener = .ok (t, next)) : Sound snapshot ⟨t, drains ++ [next]⟩ := by
  unfold EventStream.start at hstart
  split at hstart
  · cases hstart
  split at hstart
  · cases hstart
  cases hstart
  refine ⟨?_, ?_, h.bounded, h.complete, h.order, ?_, fun _ => rfl, ?_⟩
  · rw [countP_append, h.flag]
    rfl
  · intro _ _ _ hnil
    cases (List.append_eq_nil_iff.1 hnil).2
  · intro _ _ hnone
    cases hnone
  · intro installed batch hmem
    rcases List.mem_append.1 hmem with hmem | hmem
    · exact h.called installed batch hmem
    · cases List.mem_singleton.1 hmem

variable {drain : Drain Event Listener}

theorem countP_moved {next : Option (Drain Event Listener)} {m n : Nat}
    (hflag : (before ++ drain :: after).countP Drain.holdsFlag = m)
    (hmove : m + next.toList.countP Drain.holdsFlag = n + [drain].countP Drain.holdsFlag) :
    (before ++ next.toList ++ after).countP Drain.holdsFlag = n := by
  simp only [countP_append, List.countP_cons, List.countP_nil] at hflag hmove ⊢
  omega

theorem Sound.delivering_of_holdsFlag
    (h : Sound snapshot ⟨s, before ++ drain :: after⟩) (hdrain : drain.holdsFlag = true) : s.delivering = true := by
  have hflag := h.flag
  cases hdeliv : s.delivering with
  | true => rfl
  | false =>
    simp [countP_append, hdrain, hdeliv] at hflag

theorem Sound.called_moved {drain next : Drain Event Listener} (h : Sound snapshot ⟨s, before ++ drain :: after⟩)
    (hnext : ∀ listener batch, next = .calling listener batch → listener ≠ none) :
    ∀ listener batch, Drain.calling listener batch ∈ before ++ [next] ++ after → listener ≠ none := by
  intro listener batch hmem
  simp only [List.mem_append, List.mem_singleton] at hmem
  rcases hmem with (hmem | hmem) | hmem
  · exact h.called listener batch (List.mem_append_left _ hmem)
  · exact hnext listener batch hmem.symm
  · exact h.called listener batch (List.mem_append_right _ (List.mem_cons_of_mem _ hmem))

theorem subset_removed (drain : Drain Event Listener) : before ++ after ⊆ before ++ drain :: after := by
  intro other hmem
  rcases List.mem_append.1 hmem with hmem | hmem
  · exact List.mem_append_left _ hmem
  · exact List.mem_append_right _ (List.mem_cons_of_mem _ hmem)

theorem Sound.perform (h : Sound snapshot ⟨s, before ++ drain :: after⟩) :
    Sound snapshot ⟨(perform s drain).1, before ++ (perform s drain).2.toList ++ after⟩ := by
  have hflag : (before ++ drain :: after).countP Drain.holdsFlag = if s.delivering then 1 else 0 := h.flag
  have hothers : ∀ listener batch, Drain.calling listener batch ∈ before ++ [] ++ after → listener ≠ none := by
    intro listener batch hmem
    rw [append_nil] at hmem
    exact h.called listener batch (subset_removed drain hmem)
  cases drain with
  | called =>
    simp only [EventStream.perform]
    split
    · next hidle =>
      refine ⟨countP_moved hflag rfl, ?_, h.bounded, h.complete, h.order, h.installed, h.begun, hothers⟩
      -- It leaves the buffer to the drain that holds the flag.
      intro hbegun hstopped _ hnil
      simp only [show s.started = true from hbegun, show s.stopped = false from hstopped,
        Bool.not_true, Bool.or_self, Bool.false_or] at hidle
      have hcount : (before ++ Option.toList none ++ after).countP Drain.holdsFlag =
          if s.delivering then 1 else 0 := countP_moved hflag rfl
      rw [show before ++ Option.toList none ++ after = [] from hnil, hidle] at hcount
      cases hcount
    next hready =>
    simp only [Bool.or_eq_true, Bool.not_eq_true', not_or, Bool.not_eq_true, Bool.not_eq_false] at hready
    rw [hready.2] at hflag
    refine ⟨countP_moved hflag rfl, ?_, h.bounded, h.complete, h.order, h.installed,
      fun _ => hready.1.2, h.called_moved ?_⟩
    · intro _ _ _ hnil
      simp at hnil
    · intro _ _ heq
      cases heq
  | taking =>
    have hdeliv : s.delivering = true := h.delivering_of_holdsFlag rfl
    rw [hdeliv] at hflag
    simp only [EventStream.perform]
    split
    · next hstopped =>
      refine ⟨countP_moved hflag rfl, fun _ hrunning => ?_, h.bounded, h.complete, h.order,
        h.installed, (fun hheld => nomatch hheld), hothers⟩
      rw [show s.stopped = false from hrunning] at hstopped
      cases hstopped
    next hstopped =>
    split
    · next hempty =>
      exact ⟨countP_moved hflag rfl, fun _ _ hne => absurd hempty hne, h.bounded, h.complete,
        h.order, h.installed, (fun hheld => nomatch hheld), hothers⟩
    next batch rest hpend =>
    have hrunning : s.stopped = false := Bool.not_eq_true _ ▸ hstopped
    have hcomplete : Condenses snapshot s.published (s.delivered ++ [batch] ++ rest) := by
      rw [append_assoc, List.singleton_append, ← hpend]
      exact h.complete hrunning
    have hbounded : rest.length ≤ kMaxPendingBatches := by
      have hlen := h.bounded
      rw [show s.pending = batch :: rest from hpend] at hlen
      exact Nat.le_of_succ_le hlen
    refine ⟨?_, ?_, hbounded, fun _ => hcomplete, hcomplete.order, h.installed, h.begun, h.called_moved ?_⟩
    · rw [hdeliv]
      exact countP_moved hflag rfl
    · intro _ _ _ hnil
      simp at hnil
    · intro listener _ heq
      cases heq
      exact h.installed (h.begun hdeliv) hrunning
  | calling listener batch =>
    show Sound snapshot ⟨s, before ++ [.calling listener batch] ++ after⟩
    rw [append_assoc, List.singleton_append]
    exact h
  | failed message =>
    apply h.terminate
    · exact countP_moved rfl rfl
    show before ++ [] ++ after ⊆ _
    rw [append_nil]
    exact subset_removed _

theorem Sound.returned (h : Sound snapshot ⟨s, before ++ drain :: after⟩) (outcome : Except Bytes Unit) :
    Sound snapshot ⟨(returned s outcome drain).1, before ++ (returned s outcome drain).2.toList ++ after⟩ := by
  have hsame : Sound snapshot ⟨s, before ++ [drain] ++ after⟩ := by
    rw [append_assoc, List.singleton_append]
    exact h
  cases drain with
  | called | taking | failed message => exact hsame
  | calling listener batch =>
    have hflag : (before ++ .calling listener batch :: after).countP Drain.holdsFlag =
        if s.delivering then 1 else 0 := h.flag
    cases outcome with
    | ok _ =>
      refine ⟨countP_moved hflag rfl, ?_, h.bounded, h.complete, h.order, h.installed, h.begun, h.called_moved ?_⟩
      · intro _ _ _ hnil
        simp [EventStream.returned] at hnil
      · intro _ _ heq
        cases heq
    | error message =>
      rw [h.delivering_of_holdsFlag rfl] at hflag
      refine ⟨countP_moved hflag rfl, ?_, h.bounded, h.complete, h.order, h.installed,
        (fun hheld => nomatch hheld), h.called_moved ?_⟩
      · intro _ _ _ hnil
        simp [EventStream.returned] at hnil
      · intro _ _ heq
        cases heq

/-- **Rule of moves.** What a drain keeps wherever it stands is kept by its move. -/
theorem move_rule {P : State View Event Held Listener → Prop}
    {action : Shared View Event Held Listener → Drain Event Listener →
      Shared View Event Held Listener × Option (Drain Event Listener)}
    (hact : ∀ shared before drain after, P ⟨shared, before ++ drain :: after⟩ →
      P ⟨(action shared drain).1, before ++ (action shared drain).2.toList ++ after⟩)
    {s : State View Event Held Listener} (h : P s) (i : Nat) : P (move s i action) := by
  unfold move
  split
  · exact h
  next drain hdrain =>
  obtain ⟨hlt, hget⟩ := List.getElem?_eq_some_iff.1 hdrain
  apply hact
  rw [← hget, ← List.drop_eq_getElem_cons hlt, List.take_append_drop]
  exact h

/-- **One step.** -/
theorem Sound.step (translation : Translation View Change Event Held)
    {s : State View Event Held Listener} (h : Sound translation.snapshot s)
    (action : Step View Change Listener) : Sound translation.snapshot (step translation s action) := by
  obtain ⟨shared, drains⟩ := s
  cases action with
  | advance publication => exact h.advance translation publication
  | start listener =>
    simp only [EventStream.step]
    split
    · next hstart => exact h.start hstart
    · exact h
  | terminate reason => exact h.terminate reason none rfl (List.Subset.refl drains)
  | run i => exact move_rule (fun _ _ _ _ hsound => hsound.perform) h i
  | returned i outcome => exact move_rule (fun _ _ _ _ hsound => hsound.returned outcome) h i

theorem Sound.runSteps (translation : Translation View Change Event Held)
    {s : State View Event Held Listener} (h : Sound translation.snapshot s)
    (steps : List (Step View Change Listener)) : Sound translation.snapshot (runSteps translation s steps) := by
  induction steps generalizing s with
  | nil => exact h
  | cons action rest ih => exact ih (h.step translation action)

/-! ## After the end -/

/-- The stream is stopped, and these are its deliveries. -/
def Ended (delivered : List (List Event)) (s : State View Event Held Listener) : Prop :=
  s.shared.stopped = true ∧ s.shared.delivered = delivered

variable {delivered : List (List Event)}

theorem Ended.perform (h : Ended delivered ⟨s, before ++ drain :: after⟩) :
    Ended delivered ⟨(perform s drain).1, before ++ (perform s drain).2.toList ++ after⟩ := by
  obtain ⟨hstopped, rfl⟩ := h
  cases drain with
  | called | taking => simp [Ended, EventStream.perform, show s.stopped = true from hstopped]
  | calling listener batch => exact ⟨hstopped, rfl⟩
  | failed message => exact ⟨terminate_stopped .., terminate_delivered ..⟩

theorem Ended.returned (h : Ended delivered ⟨s, before ++ drain :: after⟩) (outcome : Except Bytes Unit) :
    Ended delivered ⟨(returned s outcome drain).1, before ++ (returned s outcome drain).2.toList ++ after⟩ := by
  cases drain with
  | called | taking | failed message => exact h
  | calling listener batch =>
    cases outcome with
    | ok | error message => exact h

section

variable (translation : Translation View Change Event Held)
include translation

theorem Ended.advance
    (h : Ended delivered ⟨s, drains⟩) (publication : Publication View Change) :
    Ended delivered ⟨(advance translation s publication).1,
      drains ++ (advance translation s publication).2.toList⟩ := by
  rcases htranslate : translation.translate s.held publication with ⟨batch, held⟩
  simp only [EventStream.advance, htranslate]
  split
  · exact h
  split
  · exact h
  · next hrunning => exact absurd h.1 hrunning

theorem Ended.step
    {s : State View Event Held Listener} (h : Ended delivered s)
    (action : Step View Change Listener) : Ended delivered (step translation s action) := by
  obtain ⟨shared, drains⟩ := s
  cases action with
  | advance publication => exact h.advance translation publication
  | start listener =>
    simp only [EventStream.step, EventStream.start, show shared.stopped = true from h.1, if_true]
    split
    · next hstart => split at hstart <;> cases hstart
    · exact h
  | terminate reason => exact ⟨terminate_stopped .., (terminate_delivered ..).trans h.2⟩
  | run i => exact move_rule (fun _ _ _ _ hended => hended.perform) h i
  | returned i outcome => exact move_rule (fun _ _ _ _ hended => hended.returned outcome) h i

theorem Ended.runSteps
    {s : State View Event Held Listener} (h : Ended delivered s)
    (steps : List (Step View Change Listener)) : Ended delivered (runSteps translation s steps) := by
  induction steps generalizing s with
  | nil => exact h
  | cons action rest ih => exact ih (h.step translation action)

end

/-! ## Every run -/

/-- What a stream guarantees of a state. -/
structure Orderly (snapshot : View → Event) (s : State View Event Held Listener) : Prop where
  /-- The deliveries are in commit order and repeat nothing; a snapshot stands for the batches that it
  has replaced. -/
  order : ∃ seen, seen <+: s.shared.published ∧ Condenses snapshot seen s.shared.delivered
  /-- A stream that is not stopped has lost nothing. -/
  complete : s.shared.stopped = false →
    Condenses snapshot s.shared.published (s.shared.delivered ++ s.shared.pending)
  bounded : s.shared.pending.length ≤ kMaxPendingBatches
  oneCall : s.drains.countP Drain.inListener ≤ 1
  installed : ∀ listener batch, Drain.calling listener batch ∈ s.drains → listener ≠ none
  /-- A started stream whose buffer holds something has a drain under way. -/
  awake : s.shared.started = true → s.shared.stopped = false → s.drains = [] → s.shared.pending = []

theorem Sound.orderly {s : State View Event Held Listener} (h : Sound snapshot s) : Orderly snapshot s where
  order := h.order
  complete := h.complete
  bounded := h.bounded
  oneCall := by
    -- A drain in the listener holds the flag, and one drain does at most.
    have hle : s.drains.countP Drain.inListener ≤ s.drains.countP Drain.holdsFlag := by
      apply List.countP_mono_left
      intro drain _ hcall
      cases drain with
      | calling listener batch => rfl
      | called | taking | failed message => cases hcall
    rw [h.flag] at hle
    split at hle <;> omega
  installed := h.called
  awake hbegun hstopped hnone := by
    by_contra hpend
    exact h.awake hbegun hstopped hpend hnone

/-- **Streams neither stall nor reorder.** After every run the deliveries are the publications in order,
the buffer is bounded and no batch waits without a drain; and once the stream is stopped nothing more is
delivered, whatever happens later. -/
theorem orderly_runSteps (translation : Translation View Change Event Held) (held : Held)
    (steps later : List (Step View Change Listener)) :
    Orderly translation.snapshot (runSteps translation (attached held : State View Event Held Listener) steps) ∧
      ((runSteps translation (attached held : State View Event Held Listener) steps).shared.stopped = true →
        (runSteps translation (attached held) (steps ++ later)).shared.delivered =
          (runSteps translation (attached held) steps).shared.delivered) := by
  refine ⟨((Sound.attached translation.snapshot held).runSteps translation steps).orderly, ?_⟩
  intro hstopped
  rw [runSteps, List.foldl_append]
  exact (Ended.runSteps translation ⟨hstopped, rfl⟩ later).2

end EventStream

end CodingHarness.Durable
