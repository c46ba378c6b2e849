import CodingHarness.Durable.TaskWrites

/-!
# Recorded outcomes

A task that ends while it owns live work holds its outcome as `completing` until that work is gone. The
writers that act on stale reads check their record again inside the commit, but most of them only for
`terminal`: a phase that fails after its outcome was held, an abort that orphans, and a reservation of
a marked task all replace a held outcome. The migration checks nothing, so it may stage the write of a
terminal task, which the assembly refuses.

In every run whose commits meet `KeepsOutcome`, that is, whose scheduler outcomes and marked reservations
reach no held outcome and whose migrations reach no terminal task, a recorded outcome is final.
-/

namespace CodingHarness.Durable

open Library Support

namespace Tasks

/-! ## Final outcomes -/

/-- The record has an outcome. -/
def Ended (record : TaskRecord) : Prop := record.state.status = completing ∨ record.state.status = terminal

/-- Every outcome of the first tables is in the second ones, and no terminal task is live again. -/
def OutcomesKept (s t : StorageState) : Prop := ∀ id before, s.tasks.find id = some before → Ended before →
    ∃ after, t.tasks.find id = some after ∧ after.state.outcome = before.state.outcome ∧
      Ended after ∧ (before.state.status = terminal → after.state.status = terminal)

/-- No commit stages the write of a terminal task. -/
def StagesLive (s : StorageState) (step : Step) : Prop := ∀ cb, callback s step = .ok cb → ∀ record ∈ cb.writes,
    ∀ stored, s.tasks.find record.id = some stored → live stored = true

/-- Outcomes are final along a run, whatever its two states. -/
def OutcomesFinal (steps : List Step) : Prop := (∀ first later rest, steps = first ++ later ++ rest →
    OutcomesKept (run initial first) (run initial (first ++ later))) ∧
  ∀ first step rest, steps = first ++ step :: rest → StagesLive (run initial first) step

/-- The stored task is not completing. -/
def NotHeld (s : StorageState) (id : TaskId) : Prop :=
  ∀ record, s.tasks.find id = some record → record.state.status ≠ completing

instance (s : StorageState) (id : TaskId) : Decidable (NotHeld s id) :=
  inferInstanceAs (Decidable (∀ record ∈ s.tasks.find id, record.state.status ≠ completing))

/-- The condition: the writers that check too little do not reach an outcome. A reservation of a held record
needs the abort mark. -/
def KeepsOutcome (s : StorageState) : Step → Prop
  | .settleFaulted id _ _ => NotHeld s id
  | .settleOrphaned id _ _ => NotHeld s id
  | .abortTask id (some _) _ => NotHeld s id
  | .reserve id _ _ =>
    ∀ record, s.tasks.find id = some record → record.abortRequested = true → record.state.status ≠ completing
  | .migrate id _ => ∀ record, s.tasks.find id = some record → live record = true
  | _ => True

instance (s : StorageState) : (step : Step) → Decidable (KeepsOutcome s step)
  | .settleFaulted id _ _ => inferInstanceAs (Decidable (NotHeld s id))
  | .settleOrphaned id _ _ => inferInstanceAs (Decidable (NotHeld s id))
  | .abortTask id (some _) _ => inferInstanceAs (Decidable (NotHeld s id))
  | .reserve id _ _ => inferInstanceAs (Decidable
      (∀ record ∈ s.tasks.find id, record.abortRequested = true → record.state.status ≠ completing))
  | .migrate id _ =>
    inferInstanceAs (Decidable (∀ record ∈ s.tasks.find id, live record = true))
  | .abortTask _ none _ | .commitWith .. | .memo .. | .create _ | .mint | .openTasks
  | .markAbandoned _ | .markAll _ | .abortConversation .. | .finalize .. | .resume _
  | .returnTask _ => isTrue trivial

theorem OutcomesKept.refl (s : StorageState) : OutcomesKept s s := by
  intro id before hprev hended
  exact ⟨before, hprev, rfl, hended, fun h => h⟩

theorem OutcomesKept.trans {s t u : StorageState} (h : OutcomesKept s t) (h' : OutcomesKept t u) :
    OutcomesKept s u := by
  intro id before hprev hended
  obtain ⟨middle, hmid, hout, hmiddleEnded, hterm⟩ := h id before hprev hended
  obtain ⟨after, hafter, hout', hafterEnded, hterm'⟩ := h' id middle hmid hmiddleEnded
  exact ⟨after, hafter, hout'.trans hout, hafterEnded, fun h => hterm' (hterm h)⟩

/-! ## One commit -/

section Commit

variable {s : StorageState} {staged : Staged} {step : Step} {before after : TaskRecord}

theorem Write.held (h : Write s staged step before after) (hgood : KeepsOutcome s step)
    (hprev : s.tasks.find before.id = some before) (hheld : before.state.status = completing) :
    after.state.outcome = before.state.outcome ∧ Ended after := by
  cases h with
  | ends hstat | waits hstat | continues hstat | remembers hstat | returns hstat
  | resumes hstat => exact absurd (hheld.symm.trans hstat) (by decide)
  | marks | migrates => exact ⟨rfl, .inl hheld⟩
  | faults _ htgt | orphans _ htgt | aborts _ htgt =>
    subst htgt
    exact absurd hheld (hgood before hprev)
  | reserves _ htgt hfree =>
    subst htgt
    rcases hfree with hpending | hmarked
    · exact absurd (hheld.symm.trans hpending) (by decide)
    · exact absurd hheld (hgood before hprev hmarked)
  | finalizes => exact ⟨rfl, .inr rfl⟩

theorem Write.live_before (h : Write s staged step before after) (hgood : KeepsOutcome s step)
    (hprev : s.tasks.find before.id = some before) : live before = true := by
  cases h with
  | ends hstat | waits hstat | continues hstat | remembers hstat | returns hstat
  | resumes hstat | finalizes hstat =>
    unfold live
    rw [hstat]
    decide
  | marks halive | faults halive | orphans halive | aborts halive | reserves halive => exact halive
  | migrates htgt =>
    subst htgt
    exact hgood before hprev

theorem commit_outcomesKept (hsound : Sound s) (hgood : KeepsOutcome s step) : OutcomesKept s (commit s step) := by
  rcases commit_cases hsound step with heq | ⟨cb, h⟩
  · rw [heq]
    exact OutcomesKept.refl s
  intro id before hprev hended
  obtain ⟨after, hafter⟩ := h.stored hsound hprev
  refine ⟨after, hafter, ?_⟩
  rcases h.record hafter with hsame | ⟨known, hknown, halive, -, hwrite⟩ | ⟨hnew, -, -⟩
  · cases hprev.symm.trans hsame
    exact ⟨rfl, hended, fun hterm => hterm⟩
  · -- Only a live record is replaced, so the outcome is a held one.
    cases hprev.symm.trans hknown
    have hopen : before.state.status ≠ terminal := by
      simpa [live] using halive
    have hheld := hended.resolve_right hopen
    have hid := hsound.keyed id before hprev
    obtain ⟨hout, hafterEnded⟩ := hwrite.held hgood (hid ▸ hprev) hheld
    exact ⟨hout, hafterEnded, fun hterm => absurd hterm hopen⟩
  · exact absurd (hsound.taskIds id before hprev).2 (not_lt.2 hnew)

theorem stagesLive (hsound : Sound s) (hgood : KeepsOutcome s step) : StagesLive s step := by
  intro cb hcall record hrec stored hstored
  obtain ⟨before, hprev, hwrite⟩ := (callback_inverts hsound hcall).writes record hrec
  rw [hwrite.place.1] at hstored
  cases hprev.symm.trans hstored
  exact hwrite.live_before hgood hprev

end Commit

/-! ## Runs -/

theorem run_outcomesKept {s : StorageState} {steps : List Step} (hsound : Sound s)
    (h : RunMeets KeepsOutcome s steps) : OutcomesKept s (run s steps) := by
  induction steps generalizing s with
  | nil => exact OutcomesKept.refl s
  | cons step rest ih =>
    obtain ⟨hgood, hrest⟩ := h
    exact (commit_outcomesKept hsound hgood).trans (ih (commit_sound hsound step) hrest)

/-- **Recorded outcomes are final.** In every run whose scheduler outcomes and reservations reach no
held outcome, and whose migrations reach no terminal task, the outcome of a task never changes once
it is recorded, and no write of a terminal task is staged. -/
theorem run_outcomesFinal (steps : List Step) (h : RunMeets KeepsOutcome initial steps) : OutcomesFinal steps := by
  constructor
  · rintro first later rest rfl
    rw [runMeets_append, runMeets_append] at h
    have hkept := run_outcomesKept (run_sound first initial_sound) h.1.2
    rw [run_append]
    exact hkept
  rintro first step rest rfl
  rw [runMeets_append] at h
  exact stagesLive (run_sound first initial_sound) h.2.1

/-! ### A held outcome -/

def endTask (id : TaskId) : Step := .commitWith id false false []
    (some ⟨terminal, none, [], none, some { status := "completed" }⟩) 0

def ownsChild : List Step := [ .create [.task ⟨"work", 1, id⟩ .null {}], .reserve 2 ⟨1, .null, none⟩ 0,
    .commitWith 2 false false
      [.task ⟨"work", 1, id⟩ .null ⟨none, some 2, false, false, none⟩]
      (some ⟨running, some (.bool true), [], none, none⟩) 0 ]

def heldOutcome : List Step := ownsChild ++ [endTask 2]

def drained : List Step := [.reserve 3 ⟨1, .null, none⟩ 0, endTask 3]

/-- The status of a stored task, and that of its outcome. -/
def recorded (s : StorageState) (id : TaskId) : Option (Bytes × Option Bytes) := (s.tasks.find id).map fun record =>
    (record.state.status, record.state.outcome.map TaskOutcome.status)

theorem heldOutcome_final :
    recorded (run initial (heldOutcome ++ drained ++ [.finalize (run initial (heldOutcome ++ drained)) 0])) 2 =
        some (terminal, some (ofString "completed")) ∧
      OutcomesFinal (heldOutcome ++ drained ++ [.finalize (run initial (heldOutcome ++ drained)) 0]) := by
  refine ⟨by decide +kernel, run_outcomesFinal _ ?_⟩
  decide +kernel

/-- A phase that fails after its outcome was recorded replaces it. -/
theorem heldOutcome_replaced : recorded (run initial heldOutcome) 2 = some (completing, some (ofString "completed")) ∧
      ¬ OutcomesFinal (heldOutcome ++ [.settleFaulted 2 (ofString "phase failed") 0]) := by
  have hbefore : recorded (run initial heldOutcome) 2 = some (completing, some (ofString "completed")) := by
    decide +kernel
  have hafter : recorded (run initial (heldOutcome ++ [.settleFaulted 2 (ofString "phase failed") 0])) 2 =
      some (terminal, some (ofString "faulted")) := by
    decide +kernel
  refine ⟨hbefore, fun h => ?_⟩
  obtain ⟨before, hfind, heq⟩ := Option.map_eq_some_iff.1 hbefore
  obtain ⟨hstatus, houtcome⟩ := Prod.mk.inj heq
  obtain ⟨after, hstored, hkept, -⟩ := h.1 heldOutcome _ [] (List.append_nil _).symm 2 before hfind (.inl hstatus)
  rw [recorded, hstored, Option.map_some, hkept, houtcome] at hafter
  have hsame := (Prod.mk.inj (Option.some.inj hafter)).2
  exact absurd hsame (by decide)

end Tasks

end CodingHarness.Durable
