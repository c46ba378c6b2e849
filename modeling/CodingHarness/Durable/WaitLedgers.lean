import CodingHarness.Durable.Waiters

/-!
# Who completes a wait

Every wait is completed at most once, because one actor at a time has its completion. `Ledger` says who
that is: the call that has not registered it, the maps and the lists of taken waiters, the actor that won
the exchange, or nobody after the completion was called. `Tally` lists what a step may do to one wait
together with the thread that it moves, and `step_ledgers` says that every step does one of these.
-/

namespace CodingHarness.Durable

open Library Support
open List (mem_append mem_append_left)

namespace Waiters

/-! ## Who has a completion -/

namespace Thread

/-- The thread is the call of the wait, before its registration. -/
def inCall (w : WaitId) : Thread → Bool
  | .idleStop v | .idleTasks v | .idleConversations v _ | .idleRegister v => v == w
  | _ => false

/-- The thread is about to call the completion of the wait. -/
def calls (w : WaitId) : Thread → Bool
  | .calling v _ _ => v == w
  | _ => false

/-- The waiters that the thread has taken and not come to. -/
def pending : Thread → List WaitId
  | .drain waiters _ => waiters
  | .calling _ _ rest => rest
  | _ => []

@[simp] theorem calls_calling (v w : WaitId) (result : Result) (rest : List WaitId) :
    calls w (.calling v result rest) = (v == w) := rfl

@[simp] theorem inCall_calling (v w : WaitId) (result : Result) (rest : List WaitId) :
    inCall w (.calling v result rest) = false := rfl

end Thread

def Shared.registered (s : Shared) : List WaitId := s.taskWaiters.map Prod.snd ++ s.idleWaiters.map Prod.snd

namespace State

/-- The number of threads about to call the completion of a wait. -/
def calls (s : State) (w : WaitId) : Nat := s.threads.countP (Thread.calls w)

/-- The number of calls of a wait that have not registered it. -/
def inCall (s : State) (w : WaitId) : Nat := s.threads.countP (Thread.inCall w)

/-- The waiters in the maps and in the lists of taken ones. -/
def pool (s : State) : List WaitId := s.shared.registered ++ s.threads.flatMap Thread.pending

end State

/-- The completion of a wait is in one place. -/
def Ledger (s : State) (w : WaitId) (wait : Wait) : Prop := match wait.phase with
  | .inCall => s.inCall w = 1 ∧ s.calls w = 0 ∧ wait.results = []
  | .registered => s.inCall w = 0 ∧ s.calls w = 0 ∧ wait.results = [] ∧ w ∈ s.pool
  | .claimed => s.inCall w = 0 ∧ s.calls w + wait.results.length = 1

/-- The completions of all waits. -/
structure Ledgers (s : State) : Prop where
  known : ∀ w wait, s.shared.waits.find w = some wait → Ledger s w wait
  unknown : ∀ w, s.shared.waits.find w = none → s.inCall w = 0 ∧ s.calls w = 0

/-! ## One thread moves -/

/-- The threads of two states differ in one. -/
def Replaces (s t : State) (old new : Option Thread) : Prop :=
  ∃ before after, s.threads = before ++ old.toList ++ after ∧ t.threads = before ++ new.toList ++ after

/-- A thread of an actor counts for a property. -/
def counts (thread : Option Thread) (p : Thread → Bool) : Nat := thread.toList.countP p

@[simp] theorem counts_none (p : Thread → Bool) : counts none p = 0 := rfl

@[simp] theorem counts_some (thread : Thread) (p : Thread → Bool) :
    counts (some thread) p = if p thread then 1 else 0 := by
  cases hp : p thread with
  | false | true => simp [counts, hp]

/-- The thread, if there is one, has taken no waiter and calls no completion. -/
def Quiet (thread : Option Thread) : Prop :=
  thread.toList.flatMap Thread.pending = [] ∧ ∀ v, counts thread (Thread.calls v) = 0

/-- What a step of a thread does, and the thread that it leaves behind. -/
inductive Performs (s : Shared) : Thread → Shared → Option Thread → Prop where
  | goes {thread : Thread} {new : Option Thread} (old : Quiet (some thread)) (quiet : Quiet new)
      (inCall : ∀ v, counts new (Thread.inCall v) = counts (some thread) (Thread.inCall v)) :
      Performs s thread s new
  | answers {thread : Thread} {w : WaitId} {result : Result} (old : Quiet (some thread))
      (inCall : ∀ v, thread.inCall v = (w == v)) (noRecord : ∀ record, result ≠ .record record) :
      Performs s thread (s.enter w .claimed) (some (.calling w result []))
  | registers (w : WaitId) : Performs s (.idleRegister w)
      { s.enter w .registered with
        idleWaiters := s.idleWaiters ++ [((s.waits.find w).bind Wait.scope, w)] } (some (.idleHook w))
  | hooks {thread : Thread} {new : Option Thread} (w : WaitId) (old : Quiet (some thread)) (quiet : Quiet new)
      (inCall : ∀ v, counts new (Thread.inCall v) = counts (some thread) (Thread.inCall v)) :
      Performs s thread (s.hook w) new
  | takes {index : Tasks.OwnershipIndex} {taken : List WaitId} {kept : List (Option ConversationId × WaitId)}
      (take : takeIdle index s.idleWaiters = some (taken, kept)) :
      Performs s (.settleTake index) { s with idleWaiters := kept } (some (.drain taken .idle))
  | wins {w : WaitId} {rest : List WaitId} {result : Result} (isOpen : s.open_ w = true) :
      Performs s (.drain (w :: rest) result) (s.enter w .claimed) (some (.calling w result rest))
  | skips {w : WaitId} {rest : List WaitId} {result : Result} (closed : ¬ s.open_ w = true) :
      Performs s (.drain (w :: rest) result) s (some (.drain rest result))
  | completes (w : WaitId) (rest : List WaitId) (result : Result) :
      Performs s (.calling w result rest) (s.complete w result) (some (.drain rest result))

theorem quiet_none : Quiet none := ⟨rfl, fun _ => rfl⟩

variable {thread : Thread}

theorem quiet_some (hpend : thread.pending = []) (hcalls : ∀ v, thread.calls v = false) :
    Quiet (some thread) := ⟨by simp [hpend], fun v => by simp [hcalls v]⟩

theorem performs {s after : Shared} {new : Option Thread}
    (h : perform s thread = (after, new)) : Performs s thread after new := by
  cases thread with
  | idleStop w | idleTasks w =>
    simp only [perform] at h
    split at h
    all_goals cases h
    · exact .answers (quiet_some rfl fun _ => rfl) (fun _ => rfl) fun _ heq => by cases heq
    · exact .goes (quiet_some rfl fun _ => rfl) (quiet_some rfl fun _ => rfl) fun v => by simp [Thread.inCall]
  | idleConversations w tasks =>
    simp only [perform] at h
    split at h
    · cases h
      exact .answers (quiet_some rfl fun _ => rfl) (fun _ => rfl) fun _ heq => by cases heq
    split at h
    all_goals cases h
    · exact .goes (quiet_some rfl fun _ => rfl) (quiet_some rfl fun _ => rfl) fun _ => rfl
    · exact .answers (quiet_some rfl fun _ => rfl) (fun _ => rfl) fun _ heq => by cases heq
    · exact .goes (quiet_some rfl fun _ => rfl) (quiet_some rfl fun _ => rfl) fun v => by simp [Thread.inCall]
  | idleRegister w =>
    cases h
    exact .registers w
  | idleHook w =>
    cases h
    exact .hooks w (quiet_some rfl fun _ => rfl) (quiet_some rfl fun _ => rfl) fun v => by simp [Thread.inCall]
  | taskHook w =>
    cases h
    exact .hooks w (quiet_some rfl fun _ => rfl) quiet_none fun v => by simp [Thread.inCall]
  | settleTasks | settleConversations tasks =>
    simp only [perform] at h
    split at h
    all_goals cases h
    · exact .goes (quiet_some rfl fun _ => rfl) quiet_none fun v => by simp [Thread.inCall]
    · exact .goes (quiet_some rfl fun _ => rfl) (quiet_some rfl fun _ => rfl) fun v => by simp [Thread.inCall]
  | settleTake index =>
    simp only [perform] at h
    split at h
    · cases h
      exact .goes (quiet_some rfl fun _ => rfl) (quiet_some rfl fun _ => rfl) fun _ => rfl
    next htake =>
    cases h
    exact .takes htake
  | drain waiters result =>
    cases waiters with
    | nil =>
      cases h
      exact .goes (quiet_some rfl fun _ => rfl) quiet_none fun v => by simp [Thread.inCall]
    | cons w rest =>
      simp only [perform] at h
      split at h
      all_goals cases h
      · next hopen => exact .wins hopen
      · next hclosed => exact .skips hclosed
  | calling w result rest =>
    cases h
    exact .completes w rest result

theorem Replaces.countP {s t : State} {old new : Option Thread} (h : Replaces s t old new) (p : Thread → Bool) :
    t.threads.countP p + counts old p = s.threads.countP p + counts new p := by
  obtain ⟨before, after, hs, ht⟩ := h
  rw [hs, ht]
  simp only [List.countP_append, counts]
  omega

/-- What a step does to one wait, with the thread that it moves. -/
inductive Tally (s t : State) (old new : Option Thread) (w : WaitId) (before after : Wait) : Prop where
  | same (phase : after.phase = before.phase) (results : after.results = before.results)
      (calls : counts new (Thread.calls w) = counts old (Thread.calls w))
      (inCall : counts new (Thread.inCall w) = counts old (Thread.inCall w))
      (located : before.phase = .registered → w ∈ s.pool → w ∈ t.pool)
  | registers (phase : after.phase = .registered) (results : after.results = before.results)
      (calls : counts new (Thread.calls w) = 0) (callsOld : counts old (Thread.calls w) = 0)
      (inCall : counts new (Thread.inCall w) = 0) (inCallOld : counts old (Thread.inCall w) = 1)
      (located : w ∈ t.pool)
  | answers (phase : after.phase = .claimed) (results : after.results = before.results)
      (calls : counts new (Thread.calls w) = 1) (callsOld : counts old (Thread.calls w) = 0)
      (inCall : counts new (Thread.inCall w) = 0) (inCallOld : counts old (Thread.inCall w) = 1)
  | wins (phaseOld : before.phase = .registered) (phase : after.phase = .claimed)
      (results : after.results = before.results)
      (calls : counts new (Thread.calls w) = 1) (callsOld : counts old (Thread.calls w) = 0)
      (inCall : counts new (Thread.inCall w) = 0) (inCallOld : counts old (Thread.inCall w) = 0)
  | completes (phase : after.phase = before.phase)
      (results : after.results.length = before.results.length + 1)
      (calls : counts new (Thread.calls w) = 0) (callsOld : counts old (Thread.calls w) = 1)
      (inCall : counts new (Thread.inCall w) = 0) (inCallOld : counts old (Thread.inCall w) = 0)

section Tally

variable {s t : State} {old new : Option Thread} {w : WaitId} {before after : Wait}

theorem Tally.ledger (htally : Tally s t old new w before after) (hmoves : Replaces s t old new)
    (h : Ledger s w before) : Ledger t w after := by
  have hcalls : t.calls w + counts old (Thread.calls w) = s.calls w + counts new (Thread.calls w) := hmoves.countP _
  have hinCall : t.inCall w + counts old (Thread.inCall w) =
      s.inCall w + counts new (Thread.inCall w) := hmoves.countP _
  -- Who had the completion decides which moves are possible.
  unfold Ledger at h ⊢
  cases htally with
  | same hphase hress hc hi hlocated =>
    rw [hphase, hress]
    cases hprev : before.phase with
    | inCall =>
      simp only [hprev] at h ⊢
      exact ⟨by omega, by omega, h.2.2⟩
    | registered =>
      simp only [hprev] at h ⊢
      exact ⟨by omega, by omega, h.2.2.1, hlocated hprev h.2.2.2⟩
    | claimed =>
      simp only [hprev] at h ⊢
      omega
  | registers hphase hress hc hcOld hi hiOld hlocated =>
    rw [hphase, hress]
    cases hprev : before.phase with
    | inCall =>
      simp only [hprev] at h ⊢
      exact ⟨by omega, by omega, h.2.2, hlocated⟩
    | registered | claimed =>
      simp only [hprev] at h
      omega
  | answers hphase hress hc hcOld hi hiOld =>
    rw [hphase, hress]
    cases hprev : before.phase with
    | inCall =>
      simp only [hprev] at h ⊢
      rw [h.2.2]
      exact ⟨by omega, by simp only [List.length_nil]; omega⟩
    | registered | claimed =>
      simp only [hprev] at h
      omega
  | wins hphaseOld hphase hress hc hcOld hi hiOld =>
    rw [hphase, hress]
    simp only [hphaseOld] at h ⊢
    rw [h.2.2.1]
    exact ⟨by omega, by simp only [List.length_nil]; omega⟩
  | completes hphase hress hc hcOld hi hiOld =>
    rw [hphase]
    cases hprev : before.phase with
    | inCall | registered =>
      simp only [hprev] at h
      omega
    | claimed =>
      simp only [hprev] at h ⊢
      omega

end Tally

section Moves

variable {s t : State} {old new : Option Thread}

/-- A waiter stays where the actors find it, or passes to the thread that moved. -/
theorem Replaces.pool (h : Replaces s t old new) {w : WaitId} (hmaps : w ∈ s.shared.registered →
      w ∈ t.shared.registered ∨ w ∈ new.toList.flatMap Thread.pending)
    (hlists : w ∈ old.toList.flatMap Thread.pending → w ∈ new.toList.flatMap Thread.pending)
    (hw : w ∈ s.pool) : w ∈ t.pool := by
  obtain ⟨before, after, hs, ht⟩ := h
  unfold State.pool at hw ⊢
  rw [hs] at hw
  rw [ht]
  simp only [List.flatMap_append, mem_append] at hw ⊢
  rcases hw with hw | (hw | hw) | hw
  · rcases hmaps hw with hw | hw
    · exact .inl hw
    · exact .inr (.inl (.inr hw))
  · exact .inr (.inl (.inl hw))
  · exact .inr (.inl (.inr (hlists hw)))
  · exact .inr (.inr hw)

theorem Replaces.counts_le (h : Replaces s t old new) (p : Thread → Bool) : counts old p ≤ s.threads.countP p := by
  obtain ⟨before, after, hs, -⟩ := h
  rw [hs]
  simp only [List.countP_append, counts]
  omega

theorem Ledgers.moves (h : Ledgers s) (hmoves : Replaces s t old new)
    (hwaits : ∀ w after, t.shared.waits.find w = some after →
      ∃ before, s.shared.waits.find w = some before ∧ Tally s t old new w before after)
    (hunknown : ∀ w, t.shared.waits.find w = none → s.shared.waits.find w = none ∧
      (counts old (Thread.calls w) + counts old (Thread.inCall w) = 0 →
        counts new (Thread.calls w) + counts new (Thread.inCall w) = 0)) : Ledgers t := by
  constructor
  · intro w after hshared
    obtain ⟨before, hprev, htally⟩ := hwaits w after hshared
    exact htally.ledger hmoves (h.known w before hprev)
  intro w hw
  obtain ⟨hnone, hnew⟩ := hunknown w hw
  obtain ⟨hinCall, hcalls⟩ := h.unknown w hnone
  have hcallsOld := hmoves.counts_le (Thread.calls w)
  have hinCallOld := hmoves.counts_le (Thread.inCall w)
  have hcallsNew := hmoves.countP (Thread.calls w)
  have hinCallNew := hmoves.countP (Thread.inCall w)
  unfold State.calls State.inCall at *
  omega

end Moves

/-! ## The steps of a thread -/

variable {result : Result}

section Perform

theorem find_update (s : Shared) (w : WaitId) (f : Wait → Wait) (v : WaitId) :
    (s.update w f).waits.find v = if v = w then (s.waits.find w).map f else s.waits.find v := by
  unfold Shared.update
  cases hw : s.waits.find w with
  | none =>
    by_cases hv : v = w
    · rw [if_pos hv, hv, hw]
      rfl
    · rw [if_neg hv]
  | some wait =>
    rw [OrdMap.find_insert]
    rfl

theorem update_fields (s : Shared) (w : WaitId) (f : Wait → Wait) :
    (s.update w f).tables = s.tables ∧ (s.update w f).taskWaiters = s.taskWaiters ∧
      (s.update w f).idleWaiters = s.idleWaiters ∧ (s.update w f).waitError = s.waitError := by
  unfold Shared.update
  cases s.waits.find w with
  | none | some wait => exact ⟨rfl, rfl, rfl, rfl⟩

variable {s t : State} {old new : Option Thread}

theorem Ledgers.updates (h : Ledgers s) (hmoves : Replaces s t old new) (w : WaitId)
    (f : Wait → Wait) (hwaits : t.shared.waits = (s.shared.update w f).waits)
    (hone : ∀ before, s.shared.waits.find w = some before → Tally s t old new w before (f before))
    (hothers : ∀ v, v ≠ w → ∀ before, Tally s t old new v before before)
    (hunknown : ∀ v, s.shared.waits.find v = none → counts old (Thread.calls v) + counts old (Thread.inCall v) = 0 →
        counts new (Thread.calls v) + counts new (Thread.inCall v) = 0) : Ledgers t := by
  apply h.moves hmoves
  · intro v after hshared
    rw [hwaits, find_update] at hshared
    split at hshared
    · next heq =>
      subst heq
      obtain ⟨before, hprev, rfl⟩ := Option.map_eq_some_iff.1 hshared
      exact ⟨before, hprev, hone before hprev⟩
    · next hne => exact ⟨after, hshared, hothers v hne after⟩
  intro v hv
  rw [hwaits, find_update] at hv
  have hnone : s.shared.waits.find v = none := by
    split at hv
    · next heq =>
      rw [heq]
      exact Option.map_eq_none_iff.1 hv
    · exact hv
  exact ⟨hnone, hunknown v hnone⟩

theorem Ledgers.silent (h : Ledgers s) (hmoves : Replaces s t old new) (hwaits : t.shared.waits = s.shared.waits)
    (hcounts : ∀ w, counts new (Thread.calls w) = counts old (Thread.calls w) ∧
      counts new (Thread.inCall w) = counts old (Thread.inCall w))
    (hlocated : ∀ w before, s.shared.waits.find w = some before → before.phase = .registered →
      w ∈ s.pool → w ∈ t.pool) : Ledgers t := by
  apply h.moves hmoves
  · intro w after hshared
    rw [hwaits] at hshared
    exact ⟨after, hshared, .same rfl rfl (hcounts w).1 (hcounts w).2 (hlocated w after hshared)⟩
  intro w hw
  rw [hwaits] at hw
  obtain ⟨hcalls, hinCall⟩ := hcounts w
  exact ⟨hw, fun hzero => by omega⟩

variable {w : WaitId}

theorem Ledgers.answers (h : Ledgers s)
    (hquiet : Quiet (some thread)) (hinCall : ∀ v, thread.inCall v = (w == v))
    (hmoves : Replaces s t (some thread) (some (.calling w result [])))
    (hshared : t.shared = s.shared.enter w .claimed) : Ledgers t := by
  refine h.updates hmoves w (fun wait => { wait with phase := .claimed }) ?_ ?_ ?_ ?_
  · rw [hshared]
    rfl
  · intro before _
    refine .answers rfl rfl ?_ ?_ ?_ ?_
    · simp
    · exact hquiet.2 w
    · simp
    · simp [hinCall]
  · intro v hne before
    have hneq : (w == v) = false := beq_false_of_ne (Ne.symm hne)
    refine .same rfl rfl ?_ ?_ fun _ hpool => ?_
    · simp [hquiet.2 v, hneq]
    · simp [hinCall, hneq]
    · refine hmoves.pool (fun hmaps => .inl ?_) (fun hlists => ?_) hpool
      · rw [hshared]
        unfold Shared.registered Shared.enter
        rw [(update_fields _ _ _).2.1, (update_fields _ _ _).2.2.1]
        exact hmaps
      · rw [hquiet.1] at hlists
        cases hlists
  · intro v _ hzero
    simpa [hquiet.2 v, hinCall] using hzero

theorem Ledgers.goes (h : Ledgers s) (hmoves : Replaces s t old new) (hshared : t.shared = s.shared)
    (hcounts : ∀ w, counts new (Thread.calls w) = counts old (Thread.calls w) ∧
      counts new (Thread.inCall w) = counts old (Thread.inCall w))
    (hlists : ∀ w, w ∈ old.toList.flatMap Thread.pending → w ∈ new.toList.flatMap Thread.pending) : Ledgers t := by
  refine h.silent hmoves (by rw [hshared]) hcounts ?_
  intro w _ _ _ hpool
  refine hmoves.pool (fun hmaps => .inl ?_) (hlists w) hpool
  rw [hshared]
  exact hmaps

theorem mem_takeIdle {index : Tasks.OwnershipIndex}
    {waiters : List (Option ConversationId × WaitId)} {taken : List WaitId}
    {kept : List (Option ConversationId × WaitId)} (h : takeIdle index waiters = some (taken, kept))
    (hw : w ∈ waiters.map Prod.snd) : w ∈ kept.map Prod.snd ∨ w ∈ taken := by
  induction waiters generalizing taken kept with
  | nil => cases hw
  | cons first rest ih =>
    obtain ⟨scope, v⟩ := first
    simp only [takeIdle, Option.bind_eq_bind, Option.bind_eq_some_iff] at h
    obtain ⟨one, -, ⟨others, stay⟩, hrest, heq⟩ := h
    have hmem : w = v ∨ w ∈ rest.map Prod.snd := by simpa using hw
    cases one with
    | true =>
      cases heq
      rcases hmem with rfl | hmem
      · exact .inr (List.mem_cons_self ..)
      rcases ih hrest hmem with hkept | htaken
      · exact .inl hkept
      · exact .inr (List.mem_cons_of_mem _ htaken)
    | false =>
      cases heq
      rcases hmem with rfl | hmem
      · exact .inl (List.mem_cons_self ..)
      rcases ih hrest hmem with hkept | htaken
      · exact .inl (List.mem_cons_of_mem _ hkept)
      · exact .inr htaken

theorem Ledgers.registers (h : Ledgers s) (hmoves : Replaces s t (some (.idleRegister w)) (some (.idleHook w)))
    (hshared : t.shared = { s.shared.enter w .registered with
      idleWaiters := s.shared.idleWaiters ++ [((s.shared.waits.find w).bind Wait.scope, w)] }) : Ledgers t := by
  have hreg : ∀ v, v ∈ s.shared.registered ∨ v = w → v ∈ t.shared.registered := by
    intro v hv
    rw [hshared]
    unfold Shared.registered Shared.enter at *
    rw [(update_fields _ _ _).2.1, List.map_append, mem_append, mem_append]
    rw [mem_append] at hv
    rcases hv with (hv | hv) | rfl
    · exact .inl hv
    · exact .inr (.inl hv)
    · exact .inr (.inr (List.mem_singleton_self _))
  refine h.updates hmoves w (fun wait => { wait with phase := .registered }) ?_ ?_ ?_ ?_
  · rw [hshared]
    rfl
  · intro before _
    refine .registers rfl rfl ?_ ?_ ?_ ?_ ?_
    · simp [Thread.calls]
    · simp [Thread.calls]
    · simp [Thread.inCall]
    · simp [Thread.inCall]
    · exact mem_append_left _ (hreg w (.inr rfl))
  · intro v hne before
    refine .same rfl rfl ?_ ?_ fun _ hpool => ?_
    · simp [Thread.calls]
    · simp [Thread.inCall, Ne.symm hne]
    · exact hmoves.pool (fun hmaps => .inl (hreg v (.inl hmaps))) (fun hlists => hlists) hpool
  · simp [Thread.calls, Thread.inCall]

theorem Ledgers.notes (h : Ledgers s) (hmoves : Replaces s t old new) (w : WaitId) {f : Wait → Wait}
    (hshared : t.shared = s.shared.update w f)
    (hf : ∀ wait, (f wait).phase = wait.phase ∧ (f wait).results = wait.results)
    (hcounts : ∀ v, counts new (Thread.calls v) = counts old (Thread.calls v) ∧
      counts new (Thread.inCall v) = counts old (Thread.inCall v))
    (hlists : ∀ v, v ∈ old.toList.flatMap Thread.pending → v ∈ new.toList.flatMap Thread.pending) : Ledgers t := by
  have hpool : ∀ v, v ∈ s.pool → v ∈ t.pool := by
    intro v hv
    refine hmoves.pool (fun hmaps => .inl ?_) (hlists v) hv
    rw [hshared]
    unfold Shared.registered
    rw [(update_fields _ _ _).2.1, (update_fields _ _ _).2.2.1]
    exact hmaps
  refine h.updates hmoves w f (by rw [hshared]) ?_ ?_ ?_
  · intro before _
    exact .same (hf before).1 (hf before).2 (hcounts w).1 (hcounts w).2 fun _ => hpool w
  · intro v _ before
    exact .same rfl rfl (hcounts v).1 (hcounts v).2 fun _ => hpool v
  · intro v _ hzero
    obtain ⟨hcalls, hinCall⟩ := hcounts v
    omega

theorem Ledgers.wins (h : Ledgers s) {rest : List WaitId} (hopen : s.shared.open_ w = true)
    (hmoves : Replaces s t (some (.drain (w :: rest) result)) (some (.calling w result rest)))
    (hshared : t.shared = s.shared.enter w .claimed) : Ledgers t := by
  obtain ⟨found, hfound, hreg⟩ := (Option.any_eq_true _ _).1 hopen
  refine h.updates hmoves w (fun wait => { wait with phase := .claimed }) ?_ ?_ ?_ ?_
  · rw [hshared]
    rfl
  · intro before hprev
    cases hprev.symm.trans hfound
    exact .wins (eq_of_beq hreg) rfl rfl (by simp) (by simp [Thread.calls]) (by simp)
      (by simp [Thread.inCall])
  · intro v hne before
    refine .same rfl rfl (by simp [Thread.calls, Ne.symm hne]) (by simp [Thread.inCall])
      fun _ hpool => ?_
    refine hmoves.pool (fun hmaps => .inl ?_) (fun hlists => ?_) hpool
    · rw [hshared]
      unfold Shared.registered Shared.enter
      rw [(update_fields _ _ _).2.1, (update_fields _ _ _).2.2.1]
      exact hmaps
    · simpa [Thread.pending, hne] using hlists
  · intro v hnone _
    have hne : v ≠ w := by
      rintro rfl
      rw [hfound] at hnone
      cases hnone
    simp [Ne.symm hne]

theorem Ledgers.skips (h : Ledgers s) {rest : List WaitId} (hclosed : ¬ s.shared.open_ w = true)
    (hmoves : Replaces s t (some (.drain (w :: rest) result)) (some (.drain rest result)))
    (hshared : t.shared = s.shared) : Ledgers t := by
  refine h.silent hmoves (by rw [hshared]) (fun v => ⟨by simp [Thread.calls], by simp [Thread.inCall]⟩) ?_
  intro v before hprev hreg hpool
  refine hmoves.pool (fun hmaps => .inl ?_) (fun hlists => ?_) hpool
  · rw [hshared]
    exact hmaps
  have hne : v ≠ w := by
    rintro rfl
    apply hclosed
    exact (Option.any_eq_true _ _).2 ⟨before, hprev, beq_iff_eq.2 hreg⟩
  simpa [Thread.pending, hne] using hlists

theorem Ledgers.completes (h : Ledgers s) {rest : List WaitId}
    (hmoves : Replaces s t (some (.calling w result rest)) (some (.drain rest result)))
    (hshared : t.shared = s.shared.complete w result) : Ledgers t := by
  refine h.updates hmoves w (fun wait => { wait with results := wait.results ++ [result] }) ?_ ?_ ?_ ?_
  · rw [hshared]
    rfl
  · intro before _
    exact .completes rfl (by simp) (by simp [Thread.calls]) (by simp) (by simp [Thread.inCall])
      (by simp)
  · intro v hne before
    refine .same rfl rfl (by simp [Thread.calls, Ne.symm hne]) (by simp [Thread.inCall])
      fun _ hpool => ?_
    refine hmoves.pool (fun hmaps => .inl ?_) (fun hlists => hlists) hpool
    rw [hshared]
    unfold Shared.registered Shared.complete
    rw [(update_fields _ _ _).2.1, (update_fields _ _ _).2.2.1]
    exact hmaps
  · simp [Thread.calls, Thread.inCall]

theorem perform_ledgers (h : Ledgers s)
    (hmoves : Replaces s t (some thread) (perform s.shared thread).2)
    (hshared : t.shared = (perform s.shared thread).1) : Ledgers t := by
  generalize hperform : perform s.shared thread = performed at hmoves hshared
  obtain ⟨after, new⟩ := performed
  cases performs hperform with
  | goes old quiet inCall =>
    exact h.goes hmoves hshared (fun v => ⟨(quiet.2 v).trans (old.2 v).symm, inCall v⟩) fun v hv =>
      (List.not_mem_nil (old.1 ▸ hv)).elim
  | answers old inCall => exact h.answers old inCall hmoves hshared
  | registers w => exact h.registers hmoves hshared
  | hooks w old quiet inCall =>
    exact h.notes hmoves w hshared (fun _ => ⟨rfl, rfl⟩)
      (fun v => ⟨(quiet.2 v).trans (old.2 v).symm, inCall v⟩) fun v hv =>
      (List.not_mem_nil (old.1 ▸ hv)).elim
  | takes htake =>
    refine h.silent hmoves (by rw [hshared]) (fun v => ⟨by simp [Thread.calls], by simp [Thread.inCall]⟩) ?_
    intro v _ _ _ hpool
    refine hmoves.pool (fun hmaps => ?_) (fun hlists => by simp [Thread.pending] at hlists) hpool
    rw [hshared]
    rcases List.mem_append.1 hmaps with htask | hidle
    · exact .inl (mem_append_left _ htask)
    rcases mem_takeIdle htake hidle with hkept | htaken
    · exact .inl (List.mem_append_right _ hkept)
    · exact .inr (by simpa [Thread.pending] using htaken)
  | wins hopen => exact h.wins hopen hmoves hshared
  | skips hclosed => exact h.skips hclosed hmoves hshared
  | completes => exact h.completes hmoves hshared

end Perform

/-! ## All steps -/

section Steps

variable {s t : State}

theorem replaces_spawn (threads : List Thread) (shared shared' : Shared) (new : Option Thread) :
    Replaces ⟨shared, threads⟩ ⟨shared', threads ++ new.toList⟩ none new :=
  ⟨threads, [], by simp, by simp⟩

theorem replaces_run {shared' : Shared} {i : Nat}
    (hthread : s.threads[i]? = some thread) (new : Option Thread) :
    Replaces s ⟨shared', s.threads.take i ++ new.toList ++ s.threads.drop (i + 1)⟩ (some thread)
      new := by
  refine ⟨s.threads.take i, s.threads.drop (i + 1), ?_, rfl⟩
  obtain ⟨hlt, hget⟩ := List.getElem?_eq_some_iff.1 hthread
  rw [← hget]
  simp

theorem Ledgers.begins (h : Ledgers s) {w : WaitId} {wait : Wait} {shared : Shared}
    (hnew : s.shared.waits.find w = none) (hress : wait.results = [])
    (hwaits : shared.waits = s.shared.waits.insert w wait)
    (hmaps : ∀ v, v ∈ s.shared.registered → v ∈ shared.registered)
    (hcalls : ∀ v, v ≠ w → thread.calls v = false) (hinCall : ∀ v, v ≠ w → thread.inCall v = false)
    (hplace : match wait.phase with
      | .inCall => thread.inCall w = true ∧ thread.calls w = false
      | .registered => thread.inCall w = false ∧ thread.calls w = false ∧ w ∈ shared.registered
      | .claimed => thread.inCall w = false ∧ thread.calls w = true) :
    Ledgers ⟨shared, s.threads ++ [thread]⟩ := by
  have hmoves : Replaces s ⟨shared, s.threads ++ [thread]⟩ none (some thread) :=
    replaces_spawn s.threads s.shared shared (some thread)
  obtain ⟨hinCallOld, hcallsOld⟩ := h.unknown w hnew
  have hcallsNew : State.calls ⟨shared, s.threads ++ [thread]⟩ w = if thread.calls w then 1 else 0 := by
    have hcount := hmoves.countP (Thread.calls w)
    rw [counts_none, counts_some] at hcount
    unfold State.calls at *
    omega
  have hinCallNew : State.inCall ⟨shared, s.threads ++ [thread]⟩ w = if thread.inCall w then 1 else 0 := by
    have hcount := hmoves.countP (Thread.inCall w)
    rw [counts_none, counts_some] at hcount
    unfold State.inCall at *
    omega
  constructor
  · intro v after hshared
    rw [hwaits, OrdMap.find_insert] at hshared
    split at hshared
    · next heq =>
      subst heq
      cases hshared
      unfold Ledger
      rw [hcallsNew, hinCallNew, hress]
      cases hphase : wait.phase with
      | inCall | claimed =>
        simp only [hphase] at hplace
        simp [hplace.1, hplace.2]
      | registered =>
        simp only [hphase] at hplace
        obtain ⟨hnotIn, hnotCalls, hreg⟩ := hplace
        simp only [hnotIn, hnotCalls]
        exact ⟨rfl, rfl, trivial, mem_append_left _ hreg⟩
    next hne =>
    have htally : Tally s ⟨shared, s.threads ++ [thread]⟩ none (some thread) v after after := by
      refine .same rfl rfl ?_ ?_ fun _ hpool => ?_
      · simp [hcalls v hne]
      · simp [hinCall v hne]
      · exact hmoves.pool (fun hv => .inl (hmaps v hv)) (fun hlists => by cases hlists) hpool
    exact htally.ledger hmoves (h.known v after hshared)
  · intro v hv
    rw [hwaits, OrdMap.find_insert] at hv
    split at hv
    · cases hv
    next hne =>
    have hcount := hmoves.countP (Thread.calls v)
    have hcount' := hmoves.countP (Thread.inCall v)
    obtain ⟨hinCallV, hcallsV⟩ := h.unknown v hv
    simp only [counts_none, counts_some, hcalls v hne, hinCall v hne, Bool.false_eq_true, if_false] at hcount hcount'
    unfold State.calls State.inCall at *
    dsimp only at hcount hcount' ⊢
    exact ⟨by omega, by omega⟩

theorem waitForTask_ledgers (h : Ledgers s) {w : WaitId} {id : TaskId} {stopped : Bool}
    (hnew : s.shared.waits.find w = none) :
    Ledgers ⟨(waitForTask s.shared w id stopped).1, s.threads ++ [(waitForTask s.shared w id stopped).2]⟩ := by
  -- The call completes the wait itself.
  have hanswer : ∀ result, Ledgers ⟨s.shared.begins w ⟨.task id, .claimed, stopped, false, []⟩,
        s.threads ++ [.calling w result []]⟩ := fun result =>
    h.begins hnew rfl rfl (fun _ hv => hv) (fun v hne => beq_false_of_ne (Ne.symm hne))
      (fun _ _ => rfl) ⟨rfl, beq_self_eq_true w⟩
  unfold waitForTask
  cases s.shared.waitError with
  | some error => exact hanswer _
  | none =>
    cases s.shared.tables.task id with
    | error error => exact hanswer _
    | ok found =>
      cases found with
      | none => exact hanswer _
      | some record =>
        dsimp only
        split
        · exact hanswer _
        split
        · exact hanswer _
        refine h.begins hnew rfl rfl ?_ (fun _ _ => rfl) (fun _ _ => rfl) ⟨rfl, rfl, ?_⟩
        · intro v hv
          rcases List.mem_append.1 hv with hv | hv
          · refine mem_append_left _ ?_
            rw [List.map_append]
            exact mem_append_left _ hv
          · exact List.mem_append_right _ hv
        refine mem_append_left _ ?_
        rw [List.map_append]
        exact List.mem_append_right _ (List.mem_singleton_self _)

theorem waitForIdle_ledgers (h : Ledgers s) {w : WaitId} {scope : Option ConversationId}
    {stopped : Bool} (hnew : s.shared.waits.find w = none) : Ledgers ⟨(waitForIdle s.shared w scope stopped).1,
      s.threads ++ [(waitForIdle s.shared w scope stopped).2]⟩ := by
  unfold waitForIdle
  cases s.shared.waitError with
  | some error =>
    exact h.begins hnew rfl rfl (fun _ hv => hv) (fun v hne => beq_false_of_ne (Ne.symm hne))
      (fun _ _ => rfl) ⟨rfl, beq_self_eq_true w⟩
  | none =>
    exact h.begins hnew rfl rfl (fun _ hv => hv) (fun _ _ => rfl)
      (fun v hne => beq_false_of_ne (Ne.symm hne)) ⟨beq_self_eq_true w, rfl⟩

theorem Ledgers.takes (h : Ledgers s) {shared : Shared} {waiters : List WaitId}
    (hwaits : shared.waits = s.shared.waits)
    (hmaps : ∀ v, v ∈ s.shared.registered → v ∈ shared.registered ∨ v ∈ waiters) :
    Ledgers ⟨shared, s.threads ++ [.drain waiters result]⟩ := by
  have hmoves : Replaces s ⟨shared, s.threads ++ [.drain waiters result]⟩ none (some (.drain waiters result)) :=
    replaces_spawn s.threads s.shared shared (some (.drain waiters result))
  refine h.silent hmoves hwaits (fun v => ⟨by simp [Thread.calls], by simp [Thread.inCall]⟩) ?_
  intro v _ _ _ hpool
  refine hmoves.pool (fun hv => ?_) (fun hlists => by cases hlists) hpool
  rcases hmaps v hv with hv | hv
  · exact .inl hv
  · exact .inr (by simpa [Thread.pending] using hv)

theorem notify_ledgers (h : Ledgers s) (id : TaskId) :
    Ledgers ⟨(notify s.shared id).1, s.threads ++ (notify s.shared id).2.toList⟩ := by
  have hsame : Ledgers ⟨s.shared, s.threads ++ []⟩ := by
    rw [List.append_nil]
    exact h
  unfold notify
  cases s.shared.tables.tasks.find id with
  | none => exact hsame
  | some record =>
    dsimp only
    split
    · exact hsame
    refine h.takes rfl ?_
    intro v hv
    rcases List.mem_append.1 hv with hv | hv
    · obtain ⟨waiter, hwaiter, rfl⟩ := List.mem_map.1 hv
      by_cases hid : waiter.1 = id
      · exact .inr (List.mem_map.2 ⟨waiter, List.mem_filter.2 ⟨hwaiter, by simp [hid]⟩, rfl⟩)
      · exact .inl (mem_append_left _ (List.mem_map.2 ⟨waiter, List.mem_filter.2 ⟨hwaiter, by simp [hid]⟩, rfl⟩))
    · exact .inl (List.mem_append_right _ hv)

variable {w : WaitId}

theorem cancel_ledgers (h : Ledgers s) (hopen : s.shared.open_ w = true) :
    Ledgers ⟨s.shared.enter w .claimed, s.threads ++ [.calling w .cancelled []]⟩ := by
  obtain ⟨found, hfound, hreg⟩ := (Option.any_eq_true _ _).1 hopen
  have hmoves : Replaces s ⟨s.shared.enter w .claimed, s.threads ++ [.calling w .cancelled []]⟩ none
      (some (.calling w .cancelled [])) :=
    replaces_spawn s.threads s.shared _ (some (.calling w .cancelled []))
  refine h.updates hmoves w (fun wait => { wait with phase := .claimed }) rfl ?_ ?_ ?_
  · intro before hprev
    cases hprev.symm.trans hfound
    exact .wins (eq_of_beq hreg) rfl rfl (by simp) rfl (by simp) rfl
  · intro v hne before
    refine .same rfl rfl (by simp [Ne.symm hne]) (by simp) fun _ hpool => ?_
    refine hmoves.pool (fun hmaps => .inl ?_) (fun hlists => by cases hlists) hpool
    unfold Shared.registered Shared.enter
    rw [(update_fields _ _ _).2.1, (update_fields _ _ _).2.2.1]
    exact hmaps
  · intro v hnone _
    have hne : v ≠ w := by
      rintro rfl
      rw [hfound] at hnone
      cases hnone
    simp [Ne.symm hne]

theorem find_of_not_contains (h : ¬ s.shared.waits.contains w = true) : s.shared.waits.find w = none := by
  cases hfind : s.shared.waits.find w with
  | none => rfl
  | some wait => exact absurd ((OrdMap.contains_eq_true_iff _ _).2 ⟨wait, hfind⟩) h

theorem step_ledgers (h : Ledgers s) (change : Step) : Ledgers (step s change) := by
  cases change with
  | commit change =>
    unfold step
    dsimp only
    split
    · exact h
    · exact ⟨h.known, h.unknown⟩
  | closeStorage => exact ⟨h.known, h.unknown⟩
  | waitForTask w id stopped =>
    unfold step
    dsimp only
    split
    · exact h
    · next hnew => exact waitForTask_ledgers h (find_of_not_contains hnew)
  | waitForIdle w scope stopped =>
    unfold step
    dsimp only
    split
    · exact h
    · next hnew => exact waitForIdle_ledgers h (find_of_not_contains hnew)
  | requestStop w =>
    have hmoves : Replaces s (step s (.requestStop w)) none none := ⟨s.threads, [], by simp, by simp [step]⟩
    exact h.notes hmoves w rfl (fun _ => ⟨rfl, rfl⟩) (fun v => ⟨rfl, rfl⟩) fun v hv => hv
  | cancel w =>
    unfold step
    dsimp only
    split
    · next hdue =>
      rw [Bool.and_eq_true] at hdue
      exact cancel_ledgers h hdue.2
    · exact h
  | notify id => exact notify_ledgers h id
  | settle =>
    have hmoves : Replaces s (step s .settle) none (some .settleTasks) :=
      replaces_spawn s.threads s.shared s.shared (some .settleTasks)
    exact h.goes hmoves rfl (fun v => ⟨by simp [Thread.calls], by simp [Thread.inCall]⟩) fun v hv => by
      cases hv
  | close error => exact h.takes rfl fun v hv => .inr hv
  | run i =>
    unfold step
    dsimp only
    cases hthread : s.threads[i]? with
    | none => exact h
    | some thread => exact perform_ledgers h (replaces_run hthread _) rfl

end Steps

end Waiters

end CodingHarness.Durable
