import CodingHarness.Durable.TaskWrites
import CodingHarness.Library.Cycles

/-!
# Wait cycles

A task is held by the tasks that it waits on, and by the work it owns while it holds its outcome or waits
on that work. `validateWait` walks from a member towards its owners and along its waits, but it starts
with the waiter as visited and compares owners only, so it accepts a wait that leads back to the waiter:
two tasks may wait on each other, and a task on itself or on its owner.

A run whose waits all lead away from their waiter stores no cycle. The invariant is about `Leads`, which
keeps the edges to owned work whatever the owner does, so that an owner that starts to hold its outcome
closes no cycle either.
-/

namespace CodingHarness.Durable

open Library Support Relation

namespace Tasks

/-! ## The relations -/

/-- A task waits, without an abort mark, on a live task. -/
def Waits (s : StorageState) (x y : TaskId) : Prop :=
  ∃ waiter member, s.tasks.find x = some waiter ∧ s.tasks.find y = some member ∧
    waiter.state.status = waiting ∧ waiter.abortRequested = false ∧ y ∈ waiter.state.on ∧
    live member = true

instance (s : StorageState) (x y : TaskId) : Decidable (Waits s x y) :=
  decidable_of_iff (∃ waiter ∈ s.tasks.find x, ∃ member ∈ s.tasks.find y,
      waiter.state.status = waiting ∧ waiter.abortRequested = false ∧ y ∈ waiter.state.on ∧
      live member = true) <| by
    simp only [Waits, Option.mem_def]
    constructor
    · rintro ⟨waiter, hwaiter, member, hmember, h⟩
      exact ⟨waiter, member, hwaiter, hmember, h⟩
    · rintro ⟨waiter, member, hwaiter, hmember, h⟩
      exact ⟨waiter, hwaiter, member, hmember, h⟩

/-- `y` is live work of `x` that is not background. -/
def Owns (s : StorageState) (x y : TaskId) : Prop :=
  ∃ member, s.tasks.find y = some member ∧ live member = true ∧ member.background = false ∧ member.owner = some x

/-- A task that holds its outcome, or waits on the given task. -/
def Holds (s : StorageState) (x y : TaskId) : Prop := ∃ owner, s.tasks.find x = some owner ∧
    (owner.state.status = completing ∨ (owner.state.status = waiting ∧ y ∈ owner.state.on))

/-- The first task cannot end before the second one. -/
def HeldBy (s : StorageState) (x y : TaskId) : Prop := Waits s x y ∨ (Owns s x y ∧ Holds s x y)

/-- The edges that hold a task now or once it ends. -/
def Leads (s : StorageState) (x y : TaskId) : Prop := Waits s x y ∨ Owns s x y

theorem HeldBy.leads {s : StorageState} {x y : TaskId} (h : HeldBy s x y) : Leads s x y := h.imp_right And.left

/-- `validate_wait` accepts the wait of a commit, beside the tasks that the commit creates. -/
def Accepted (s : StorageState) (id : TaskId) (creations : List Creation) (next : NextTaskState) : Prop :=
  ∃ staged policy, createAll { tables := s } creations = .ok staged ∧ next.policy = some policy ∧
    validateWait (overlayTasks s staged) id policy next.on = .ok ()

/-- The condition on an accepted wait: no live member of it leads back to the waiter. -/
def WaitLeadsAway (s : StorageState) : Step → Prop
  | .commitWith id _ _ creations (some next) _ => next.status = waiting → Accepted s id creations next →
      ∀ member ∈ next.on, ∀ record, s.tasks.find member = some record → live record = true →
        ¬ ReflTransGen (Leads s) member id
  | _ => True

/-- The task whose next state a commit writes. -/
def waiter : Step → Option TaskId
  | .commitWith id _ _ _ _ _ => some id
  | _ => none

/-! ## One commit -/

section Commit

variable {s t : StorageState} {step : Step} {cb : Callback} {x y : TaskId}

theorem Committed.live_before (h : Committed s t step cb) {after : TaskRecord}
    (hafter : t.tasks.find y = some after) (hlive : live after = true) :
    (∃ before, s.tasks.find y = some before ∧ live before = true ∧ before.owner = after.owner ∧
      before.background = after.background) ∨ s.nextId ≤ y := by
  rcases h.record hafter with hsame | ⟨before, hprev, halive, -, hwrite⟩ | ⟨hnew, -, -⟩
  · exact .inl ⟨after, hsame, hlive, rfl, rfl⟩
  · obtain ⟨-, howner, hback, -⟩ := hwrite.place
    exact .inl ⟨before, hprev, halive, howner.symm, hback.symm⟩
  · exact .inr hnew

theorem Committed.owns (h : Committed s t step cb) (howns : Owns t x y) : Owns s x y ∨ s.nextId ≤ y := by
  obtain ⟨after, hafter, hlive, hordinary, howner⟩ := howns
  rcases h.live_before hafter hlive with ⟨before, hprev, halive, hsame, hkept⟩ | hnew
  · exact .inl ⟨before, hprev, halive, hkept.trans hordinary, hsame.trans howner⟩
  · exact .inr hnew

theorem Write.waiting_after {staged : Staged} {before after : TaskRecord}
    (h : Write s staged step before after) (hwaiting : after.state.status = waiting)
    (hunmarked : after.abortRequested = false) :
    (before.state.status = waiting ∧ before.abortRequested = false ∧ before.state.on = after.state.on) ∨
    ∃ allowAbort abortInvocation creations next now,
      step = .commitWith before.id allowAbort abortInvocation creations (some next) now ∧
        next.status = waiting ∧ Accepted s before.id creations next ∧ after.state.on = next.on := by
  cases h with
  | @ends _ _ _ _ _ _ _ held =>
    cases held
    · exact absurd hwaiting (by decide : terminal ≠ waiting)
    · exact absurd hwaiting (by decide : completing ≠ waiting)
  | waits hstat htgt hwait hmade hpolicy hvalid =>
    subst htgt
    exact .inr ⟨_, _, _, _, _, rfl, hwait, ⟨_, _, hmade, hpolicy, hvalid⟩, rfl⟩
  | continues hstat | remembers hstat =>
    exact absurd (hstat.symm.trans hwaiting) (by decide)
  | returns | resumes => exact absurd hwaiting (by decide : pending ≠ waiting)
  | marks => cases hunmarked
  | faults | orphans | aborts | finalizes => exact absurd hwaiting (by decide : terminal ≠ waiting)
  | reserves => exact absurd hwaiting (by decide : running ≠ waiting)
  | migrates => exact .inl ⟨hwaiting, hunmarked, rfl⟩

theorem Committed.waits (hsound : Sound s) (h : Committed s t step cb) (hgood : WaitLeadsAway s step)
    (hwaits : Waits t x y) : Waits s x y ∨ (waiter step = some x ∧ ¬ ReflTransGen (Leads s) y x) ∨ s.nextId ≤ y := by
  obtain ⟨after, member, hafter, hmem, hwaiting, hunmarked, hon, hlive⟩ := hwaits
  rcases h.live_before hmem hlive with ⟨known, hknown, halive, -, -⟩ | hnew
  · rcases h.record hafter with hsame | ⟨before, hprev, -, -, hwrite⟩ | ⟨-, -, hfresh⟩
    · exact .inl ⟨after, known, hsame, hknown, hwaiting, hunmarked, hon, halive⟩
    · rcases hwrite.waiting_after hwaiting hunmarked with
        ⟨hwas, hwasUnmarked, hsame⟩ | ⟨_, _, _, next, _, rfl, hwait, hvalid, hnext⟩
      · rw [← hsame] at hon
        exact .inl ⟨before, known, hprev, hknown, hwas, hwasUnmarked, hon, halive⟩
      · have hid : before.id = x := hsound.keyed x before hprev
        rw [hnext] at hon
        refine .inr (.inl ⟨congrArg some hid, ?_⟩)
        rw [← hid]
        exact hgood hwait hvalid y hon known hknown halive
    · exact absurd (hfresh.status.symm.trans hwaiting) (by decide)
  · exact .inr (.inr hnew)

/-- An edge after a commit is an old one, leaves a waiter for a task that does not lead back to it, or
enters a new task. -/
theorem Committed.leads (hsound : Sound s) (h : Committed s t step cb) (hgood : WaitLeadsAway s step)
    (hleads : Leads t x y) : Leads s x y ∨ (waiter step = some x ∧ ¬ ReflTransGen (Leads s) y x) ∨ s.nextId ≤ y := by
  rcases hleads with hwaits | howns
  · rcases h.waits hsound hgood hwaits with hold | hnew
    · exact .inl (.inl hold)
    · exact .inr hnew
  rcases h.owns howns with hold | hnew
  · exact .inl (.inr hold)
  · exact .inr (.inr hnew)

theorem Committed.leads_new (hsound : Sound s) (h : Committed s t step cb) (hnew : s.nextId ≤ x)
    (hleads : Leads t x y) : s.nextId ≤ y ∧ x < y := by
  rcases hleads with ⟨after, -, hafter, -, hwaiting, -⟩ | ⟨after, hafter, -, -, howner⟩
  · rcases h.record hafter with hsame | ⟨before, hprev, -⟩ | ⟨-, -, hfresh⟩
    · exact absurd (hsound.taskIds x after hsame).2 (not_lt.2 hnew)
    · exact absurd (hsound.taskIds x before hprev).2 (not_lt.2 hnew)
    · exact absurd (hfresh.status.symm.trans hwaiting) (by decide)
  · have hlt : x < y := (h.sound hsound).owners y after hafter x howner
    exact ⟨hnew.trans (le_of_lt hlt), hlt⟩

theorem commit_acyclic (hsound : Sound s) (hacyclic : Acyclic (Leads s))
    (hgood : WaitLeadsAway s step) : Acyclic (Leads (commit s step)) := by
  rcases commit_cases hsound step with heq | ⟨cb, h⟩
  · rw [heq]
    exact hacyclic
  cases hwaiter : waiter step with
  | none =>
    refine hacyclic.addAbove (fun x y hleads => ?_) fun x y => h.leads_new hsound
    rcases h.leads hsound hgood hleads with hold | ⟨hstart, -⟩ | hnew
    · exact .inl hold
    · rw [hwaiter] at hstart
      cases hstart
    · exact .inr hnew
  | some start =>
    have hwaits : Acyclic fun x y => Leads s x y ∨ (x = start ∧ ¬ ReflTransGen (Leads s) y start) :=
      hacyclic.addFrom fun x y hedge => hedge
    refine hwaits.addAbove (fun x y hleads => ?_) fun x y => h.leads_new hsound
    rcases h.leads hsound hgood hleads with hold | ⟨hstart, hback⟩ | hnew
    · exact .inl (.inl hold)
    · rw [hwaiter] at hstart
      cases hstart
      exact .inl (.inr ⟨rfl, hback⟩)
    · exact .inr hnew

end Commit

/-! ## Runs -/

theorem initial_acyclic : Acyclic (Leads initial) := by
  intro x hx
  obtain ⟨y, hleads, -⟩ := TransGen.head'_iff.1 hx
  rcases hleads with ⟨_, _, hfind, -⟩ | ⟨_, hfind, -⟩
  · cases hfind
  · cases hfind

theorem run_acyclic {steps : List Step} (h : RunMeets WaitLeadsAway initial steps) :
    Acyclic (Leads (run initial steps)) :=
  run_induction (fun _ _ hsound hacyclic hgood => commit_acyclic hsound hacyclic hgood)
    initial_sound initial_acyclic h

/-- **No cycle of held tasks.** In every run whose waits lead away from their waiter, no task is held,
directly or through others, by itself. -/
theorem run_noWaitCycle (steps : List Step) (h : RunMeets WaitLeadsAway initial steps) (x : TaskId) :
    ¬ TransGen (HeldBy (run initial steps)) x x :=
  (run_acyclic h).mono (fun _ _ hheld => hheld.leads) x

/-- **Owners form a forest.** Whatever the waits of a run are, no task owns itself through the tasks it owns, and
a conversation is younger than the task that owns it. -/
theorem run_ownersAcyclic (steps : List Step) :
    Acyclic (fun x y => ∃ owned ∈ (run initial steps).tasks.find y, owned.owner = some x) ∧
      ∀ id, ∀ owned ∈ (run initial steps).conversations.find id, ∀ owner ∈ owned.owner, owner.taskId < id := by
  have hsound := run_sound steps initial_sound
  refine ⟨fun x hx => lt_irrefl x ?_, fun id owned hfind => hsound.conversationOwners id owned hfind⟩
  have hless : ∀ x y, (∃ owned ∈ (run initial steps).tasks.find y, owned.owner = some x) → x < y := by
    rintro x y ⟨owned, hfind, howner⟩
    exact hsound.owners y owned hfind x howner
  exact transGen_minimal hless x x hx

/-! ### Two tasks -/

theorem not_leads {s : StorageState} {x y : TaskId} (hsound : Sound s)
    (h : ∀ record ∈ s.tasks.values, record.owner ≠ some x ∧
      (record.id = x → record.state.status ≠ waiting)) : ¬ Leads s x y := by
  rintro (⟨record, -, hrec, -, hstat, -⟩ | ⟨record, hrec, -, -, howner⟩)
  · have hmem := OrdMap.mem_values_of_find hrec
    exact (h record hmem).2 (hsound.keyed x record hrec) hstat
  · have hmem := OrdMap.mem_values_of_find hrec
    exact (h record hmem).1 howner

def twoRunning : List Step :=
  [ .create [.task ⟨"work", 1, id⟩ .null {}, .task ⟨"work", 1, id⟩ .null {}], .reserve 2 ⟨1, .null, none⟩ 0,
    .reserve 3 ⟨1, .null, none⟩ 0 ]

def waitOn (id : TaskId) (members : List TaskId) : Step :=
  .commitWith id false false [] (some ⟨waiting, none, members, some .allSettled, none⟩) 0

/-- One of them may wait on the other. -/
theorem waitOnOther_noCycle : Waits (run initial (twoRunning ++ [waitOn 2 [3]])) 2 3 ∧
      ∀ x, ¬ TransGen (HeldBy (run initial (twoRunning ++ [waitOn 2 [3]]))) x x := by
  refine ⟨by decide +kernel, run_noWaitCycle _ ⟨trivial, trivial, trivial, ?_, trivial⟩⟩
  intro _ _ member hmember _ _ _ hback
  obtain rfl := List.mem_singleton.1 hmember
  -- The other task waits on nothing and owns nothing.
  rcases hback.cases_head with heq | ⟨y, hleads, -⟩
  · exact absurd heq (by decide)
  · exact not_leads (run_sound twoRunning initial_sound) (by decide +kernel) hleads

/-- Both may wait on each other: neither can end any more. -/
theorem mutualWait_cycle :
    ¬ ∀ x, ¬ TransGen (HeldBy (run initial (twoRunning ++ [waitOn 2 [3], waitOn 3 [2]]))) x x := by
  intro h
  have hfirst : Waits (run initial (twoRunning ++ [waitOn 2 [3], waitOn 3 [2]])) 2 3 := by
    decide +kernel
  have hsecond : Waits (run initial (twoRunning ++ [waitOn 2 [3], waitOn 3 [2]])) 3 2 := by
    decide +kernel
  exact h 2 (.tail (.single (.inl hfirst)) (.inl hsecond))

end Tasks

end CodingHarness.Durable
