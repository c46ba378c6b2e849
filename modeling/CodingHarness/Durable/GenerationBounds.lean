import CodingHarness.Durable.GenerationPhases

/-!
# A generation cannot loop

A position is what a checkpoint says: the phase, the attempt and whether the task has waited for a
compaction. At each position so many requests, compactions and invocations are left, and every phase that
returns moves to a position with less (`ensures_dispatch`). The one exception is a retry that is stopped
while it waits; the process does not go on with the task then. The limit of the retries is a signed number
and the attempts are counted in a JSON number, so the bound counts a negative limit as zero and needs one
below `2 ^ 53` (`negativeRetries_exceeded`).
-/

namespace CodingHarness.Durable

open Library Support

namespace Phases

open Ai (InferenceFailure)
open Transcript (stringField stringMember member AssistantMessage StopReason)

/-! ## Reading a checkpoint -/

theorem asInteger_number_of_le {n : Int} (hpos : 0 ≤ n) (hle : n ≤ 2 ^ 53) : asInteger (number n) = .ok n := by
  rcases hle.lt_or_eq with hlt | rfl
  · exact asInteger_number (by unfold Exact; omega)
  · decide +kernel

/-- Where a task stands: its phase, its attempt and whether it has waited for a compaction. -/
structure Position where
  name : Name
  attempt : Nat
  compacted : Bool

/-- The requests, compactions and invocations that are left at a position, when a request may be tried
`retries` times more. -/
def Position.requestsLeft (retries : Nat) (position : Position) : Nat :=
  (retries + 1 - position.attempt) + (if position.name = .retry then 0 else 1) + if position.compacted then 0 else 1

def Position.compactionsLeft (position : Position) : Nat := if position.compacted then 0 else 1

def Position.phasesLeft (retries : Nat) (position : Position) : Nat := 3 * (retries + 1 - position.attempt) +
    (match position.name with
    | .prepare => 2
    | .request => 1
    | .retry | .tools => 0) +
    if position.compacted then 0 else 2

/-- The checkpoint says that the task stands at the position. -/
structure At (retries : Nat) (position : Position) (checkpoint : Option Json) : Prop where
  phase : phaseOf checkpoint = position.name
  attempt : attemptOf checkpoint = position.attempt
  compacted : (compactedOf checkpoint).isSome = position.compacted
  exactId : ∀ id, compactedOf checkpoint = some id → Exact id
  notTools : position.name ≠ .tools
  positive : 1 ≤ position.attempt
  counted : position.attempt ≤ retries + 1
  retried : position.name = .retry → position.attempt ≤ retries

theorem At.initial (retries : Nat) : At retries ⟨.prepare, 1, false⟩ none where
  phase := rfl
  attempt := rfl
  compacted := rfl
  exactId _ h := nomatch h
  notTools := by decide
  positive := Nat.le_refl 1
  counted := Nat.le_add_left 1 retries
  retried h := nomatch h

section Checkpoints

variable {retries attempt : Nat} (hretries : retries < 2 ^ 53) (hpos : 1 ≤ attempt)
  (hle : attempt ≤ retries + 1)

include hretries hpos hle

theorem asInteger_attempt : asInteger (number attempt) = .ok (attempt : Int) :=
  asInteger_number_of_le (by omega) (by omega)

variable {compacted : Option TaskId}

theorem At.of_members {json : Json} {name : Name} (hphase : phaseOf (some json) = name) (htools : name ≠ .tools)
    (hretry : name = .retry → attempt ≤ retries) (hattempt : member json "attempt" = some (number attempt))
    (hcomp : compactedOf (some json) = compacted) (hexact : ∀ id, compacted = some id → Exact id) :
    At retries ⟨name, attempt, compacted.isSome⟩ (some json) where
  phase := hphase
  attempt := by
    simp [attemptOf, hattempt, asInteger_attempt hretries hpos hle]
  compacted := by rw [hcomp]
  exactId id hid := hexact id (hcomp.symm.trans hid)
  notTools := htools
  positive := hpos
  counted := hle
  retried := hretry

theorem At.thresholdCheckpoint {child : TaskId} (hchild : Exact child) :
    At retries ⟨.prepare, attempt, true⟩ (some (thresholdCheckpoint attempt child)) := by
  show At retries ⟨.prepare, attempt, (some child).isSome⟩ _
  refine At.of_members hretries hpos hle (by rfl) (by decide) nofun ?_ ?_ ?_
  · simp [Phases.thresholdCheckpoint, stringField]
  · simp [compactedOf, idOf, Phases.thresholdCheckpoint, stringField, asInteger_number hchild]
  · rintro id ⟨⟩
    exact hchild

theorem At.overflowCheckpoint {child : TaskId} (hchild : Exact child) (text : Bytes) :
    At retries ⟨.prepare, attempt, true⟩ (some (overflowCheckpoint attempt child text)) := by
  show At retries ⟨.prepare, attempt, (some child).isSome⟩ _
  refine At.of_members hretries hpos hle (by rfl) (by decide) nofun ?_ ?_ ?_
  · simp [Phases.overflowCheckpoint, stringField]
  · simp [compactedOf, idOf, Phases.overflowCheckpoint, stringField, asInteger_number hchild]
  · rintro id ⟨⟩
    exact hchild

theorem At.requestCheckpoint (cutoff : EntryId) (hexact : ∀ id, compacted = some id → Exact id):
    At retries ⟨.request, attempt, compacted.isSome⟩ (some (requestCheckpoint attempt cutoff compacted)) := by
  refine At.of_members hretries hpos hle (by rfl) (by decide) nofun ?_ ?_ hexact
  · simp [Phases.requestCheckpoint, stringField]
  cases compacted with
  | none => simp [compactedOf, idOf, Phases.requestCheckpoint, stringField]
  | some id =>
    simp [compactedOf, idOf, Phases.requestCheckpoint, stringField, asInteger_number (hexact id rfl)]

theorem At.retryCheckpoint (hretry : attempt ≤ retries) (wake : Int) (hexact : ∀ id, compacted = some id → Exact id) :
    At retries ⟨.retry, attempt, compacted.isSome⟩ (some (retryCheckpoint attempt wake compacted)) := by
  refine At.of_members hretries hpos hle (by rfl) (by decide) (fun _ => hretry) ?_ ?_ hexact
  · simp [Phases.retryCheckpoint, stringField]
  cases compacted with
  | none => simp [compactedOf, idOf, Phases.retryCheckpoint, stringField]
  | some id =>
    simp [compactedOf, idOf, Phases.retryCheckpoint, stringField, asInteger_number (hexact id rfl)]

theorem At.retriedCheckpoint {checkpoint : Json} (hexact : ∀ id, compactedOf (some checkpoint) = some id → Exact id) :
    At retries ⟨.prepare, attempt, (compactedOf (some checkpoint)).isSome⟩
      (some (retriedCheckpoint attempt (member checkpoint "compacted"))) := by
  refine At.of_members hretries hpos hle (by rfl) (by decide) nofun ?_ ?_ hexact
  · simp [Phases.retriedCheckpoint, stringField]
  · simp [compactedOf, idOf, Phases.retriedCheckpoint, stringField]

end Checkpoints

/-! ## What a phase does -/

/-- The task has ended or stands at a tool round. -/
def Ended (t : Generation) : Prop := (∃ outcome, t.stage = .terminal outcome) ∨ phaseOf t.checkpoint = .tools

/-- A phase that fails has not gone beyond what was left. -/
structure Fails (retries : Nat) (position : Position) (g t : Generation) : Prop where
  requests : t.requests ≤ g.requests + position.requestsLeft retries
  compactions : t.compactions = g.compactions
  phases : t.phases = g.phases

/-- A phase that returns has ended the task or moved it to a position with less left. -/
inductive Proceeds (retries : Nat) (position : Position) (g t : Generation) : Prop where
  | ended (hended : Ended t) (hwithin : Fails retries position g t)
  | moved (next : Position) (hat : At retries next t.checkpoint)
      (hrequests : t.requests + next.requestsLeft retries ≤ g.requests + position.requestsLeft retries)
      (hcompactions : t.compactions + next.compactionsLeft ≤ g.compactions + position.compactionsLeft)
      (hphases : t.phases = g.phases)
      (hleft : next.phasesLeft retries < position.phasesLeft retries)

section Specifications

variable {settings : Settings} {retries : Nat} {position : Position} {g h : Generation} {task : TaskId}

theorem Fails.refl (retries : Nat) (position : Position) (g : Generation) : Fails retries position g g :=
  ⟨Nat.le_add_right _ _, rfl, rfl⟩

theorem ensures_check {α : Type} {x : Expected α} (hfails : Fails retries position g h) :
    Ensures (· = h) (MonadExcept.ofExcept x : Phase α) (fun _ t => t = h) (Fails retries position g) :=
  ensures_ofExcept (fun _ _ _ ht => ht) fun _ ht => ht ▸ hfails

theorem ensures_fail {α : Type} {message : String} {Q : α → Generation → Prop} (hfails : Fails retries position g h) :
    Ensures (· = h) (fail message : Phase α) Q (Fails retries position g) :=
  ensures_throw fun _ ht => ht ▸ hfails

theorem ensures_ownsRun {run : Expected (Option TaskId)} :
    Ensures (· = g) (ownsRun task run) (fun _ t => t = g) (Fails retries position g) := by
  refine (ensures_check (Fails.refl retries position g)).bind fun owner => ?_
  cases owner with
  | none => exact ensures_fail (Fails.refl retries position g)
  | some owner =>
    dsimp only
    split
    · exact ensures_fail (Fails.refl retries position g)
    · exact ensures_pure fun _ ht => ht

theorem ensures_endWith (outcome : TaskOutcome) (hfails : Fails retries position g h) :
    Ensures (· = h) (endWith outcome) (fun _ t => Proceeds retries position g t) (Fails retries position g) := by
  rintro _ rfl
  exact .ended (.inl ⟨outcome, rfl⟩) ⟨hfails.requests, hfails.compactions, hfails.phases⟩

theorem ensures_createCompaction (hfails : Fails retries position g h) :
    Ensures (· = h) (createCompaction settings) (fun _ t => t = h) (Fails retries position g) := by
  unfold createCompaction
  split
  · exact ensures_pure fun _ ht => ht
  · exact ensures_fail hfails

theorem threshold_blocking {compacted : Option TaskId} {tokens : Int} {cut : Bool}
    (h : threshold settings compacted tokens cut = .blocking) : compacted = none := by
  unfold threshold at h
  split at h
  · next hnone => exact hnone.1
  · cases h

theorem ensures_standAt (round : ToolRound) (hfails : Fails retries position g h) :
    Ensures (· = h) (standAt round) (fun _ t => Proceeds retries position g t) (Fails retries position g) := by
  rintro _ rfl
  exact .ended (.inr rfl) ⟨hfails.requests, hfails.compactions, hfails.phases⟩

variable {response : AssistantMessage}

theorem retryable_attempt_le {attempt : Nat}
    {failure : Option InferenceFailure} (h : retryable settings attempt response failure = true) :
    attempt ≤ settings.retry.maxRetries.toNat := by
  simp only [retryable, Bool.and_eq_true, decide_eq_true_eq] at h
  omega

variable (hretries : retries < 2 ^ 53) (hat : At retries position g.checkpoint)

include hretries hat

theorem ensures_prepareRequest (hname : position.name = .prepare) {input : PrepareInput}
    (hchild : Exact input.child) :
    Ensures (· = g) (prepareRequest settings input) (fun _ t => Proceeds retries position g t)
      (Fails retries position g) := by
  have hfails := Fails.refl retries position g
  refine (ensures_check hfails).bind fun _ => ?_
  apply ensures_getAt
  rw [hat.attempt]
  dsimp only
  split
  · next hblocking =>
    -- The task has not waited for a compaction, and from now on its checkpoint says that it has.
    have hnone := threshold_blocking hblocking
    have hcomp : position.compacted = false := by rw [← hat.compacted, hnone]; rfl
    refine (ensures_check hfails).bind fun _ => (ensures_createCompaction hfails).bind fun _ => ?_
    rintro _ rfl
    refine .moved _ (At.thresholdCheckpoint hretries hat.positive hat.counted hchild) ?_ ?_ rfl ?_
    · simp [Position.requestsLeft, hname, hcomp]
    · simp [Position.compactionsLeft, hcomp]
    · simp [Position.phasesLeft, hname, hcomp]
  refine (ensures_check hfails).bind fun _ => ?_
  split
  · exact ensures_fail hfails
  next cutoff _ =>
  have hmove : Ensures (· = g) (modify fun s => { s with
        checkpoint := some (requestCheckpoint position.attempt cutoff (compactedOf g.checkpoint))
        stage := .running } : Phase Unit)
      (fun _ t => Proceeds retries position g t) (Fails retries position g) := by
    rintro _ rfl
    refine .moved _ (At.requestCheckpoint hretries hat.positive hat.counted cutoff hat.exactId) ?_ ?_ rfl ?_
    · simp [Position.requestsLeft, hname, hat.compacted]
    · simp [Position.compactionsLeft, hat.compacted]
    · simp [Position.phasesLeft, hname, hat.compacted]
  split
  · exact (ensures_createCompaction hfails).bind fun _ => hmove
  · exact hmove

theorem ensures_prepare (hname : position.name = .prepare) {input : PrepareInput} (hchild : Exact input.child) :
    Ensures (· = g) (prepare settings task input) (fun _ t => Proceeds retries position g t)
      (Fails retries position g) := by
  have hfails := Fails.refl retries position g
  refine ensures_ownsRun.bind fun _ => ?_
  apply ensures_getAt
  split
  · exact ensures_prepareRequest hretries hat hname hchild
  refine (ensures_check hfails).bind fun record => ?_
  split
  · next text _ => exact (ensures_check hfails).bind fun _ => ensures_endWith _ hfails
  · exact ensures_prepareRequest hretries hat hname hchild

def requested (g : Generation) : Generation := { g with requests := g.requests + 1 }

omit hretries hat in
theorem fails_requested (hname : position.name = .request) : Fails retries position g (requested g) := by
  refine ⟨?_, rfl, rfl⟩
  simp only [requested, Position.requestsLeft, hname]
  simp
  omega

variable {input : RequestInput}

theorem ensures_settleResponse (hname : position.name = .request)
    (hcount : retries = settings.retry.maxRetries.toNat) :
    Ensures (· = requested g) (settleResponse settings input response)
      (fun _ t => Proceeds retries position g t) (Fails retries position g) := by
  have hfails : Fails retries position g (requested g) := fails_requested hname
  refine Ensures.bind (Q := fun r t => r = requested g ∧ t = requested g)
    (ensures_get fun t ht => ⟨ht, ht⟩) fun r => ?_
  apply ensures_assume
  rintro rfl
  have hattempt : attemptOf (requested g).checkpoint = position.attempt := hat.attempt
  dsimp only
  rw [hattempt]
  split
  · next hretryable =>
    have hretry : position.attempt ≤ retries := hcount ▸ retryable_attempt_le hretryable
    refine (ensures_check hfails).bind fun _ => ?_
    rintro _ rfl
    refine .moved _ (At.retryCheckpoint hretries hat.positive hat.counted hretry _ hat.exactId) ?_ ?_ rfl ?_
    · simp [Position.requestsLeft, hname, requested, hat.compacted]
      omega
    · simp [Position.compactionsLeft, requested, hat.compacted]
    · simp [Position.phasesLeft, hname, requested, hat.compacted]
  unfold answer
  split
  · exact (ensures_check hfails).bind fun _ => (ensures_check hfails).bind fun _ =>
      ensures_endWith _ hfails
  · exact (ensures_check hfails).bind fun _ => ensures_endWith _ hfails

theorem ensures_classify (hname : position.name = .request) (hcount : retries = settings.retry.maxRetries.toNat)
    (hchild : Exact input.child) : Ensures (· = requested g) (classify settings input response)
      (fun _ t => Proceeds retries position g t) (Fails retries position g) := by
  have hfails : Fails retries position g (requested g) := fails_requested hname
  have hsettle : Ensures (· = requested g) (settleResponse settings input response)
      (fun _ t => Proceeds retries position g t) (Fails retries position g) :=
    ensures_settleResponse hretries hat hname hcount
  refine Ensures.bind (Q := fun r t => r = requested g ∧ t = requested g)
    (ensures_get fun t ht => ⟨ht, ht⟩) fun r => ?_
  apply ensures_assume
  rintro rfl
  split
  · exact (ensures_check hfails).bind fun round => ensures_standAt round hfails
  split
  · exact hsettle
  split
  · next hovf hnone =>
    have hcomp : position.compacted = false := by
      rw [← hat.compacted]
      exact congrArg Option.isSome hnone.1
    refine (ensures_check hfails).bind fun cut => ?_
    split
    · refine (ensures_check hfails).bind fun _ => (ensures_createCompaction hfails).bind fun _ => ?_
      apply ensures_modify
      rintro _ rfl
      have hattempt : attemptOf (requested g).checkpoint = position.attempt := hat.attempt
      rw [hattempt]
      refine .moved _ (At.overflowCheckpoint hretries hat.positive hat.counted hchild _) ?_ ?_ rfl ?_
      · simp [Position.requestsLeft, hname, requested, hcomp]
        omega
      · simp [Position.compactionsLeft, requested, hcomp]
      · simp [Position.phasesLeft, hname, hcomp]
    · exact hsettle
  · exact hsettle

theorem ensures_request (hname : position.name = .request) (hcount : retries = settings.retry.maxRetries.toNat)
    (hchild : Exact input.child) :
    Ensures (· = g) (request settings task input) (fun _ t => Proceeds retries position g t)
      (Fails retries position g) := by
  have hfails := Fails.refl retries position g
  refine ensures_ownsRun.bind fun _ => ?_
  split
  · exact ensures_fail hfails
  refine (ensures_check hfails).bind fun _ => (ensures_check hfails).bind fun _ =>
    (ensures_check hfails).bind fun recovered => ?_
  split
  · next round => exact ensures_standAt round hfails
  refine (ensures_check hfails).bind fun _ => ?_
  refine Ensures.bind (Q := fun _ t => t = requested g) (ensures_modify fun t ht => congrArg requested ht) fun _ => ?_
  split
  · exact (ensures_check (fails_requested hname)).bind fun _ =>
      ensures_endWith _ (fails_requested hname)
  · exact ensures_classify hretries hat hname hcount hchild

theorem ensures_retry (hname : position.name = .retry) {input : RetryInput} : Ensures (· = g) (retry input)
      (fun _ t => Proceeds retries position g t ∨ (input.stopRequested = true ∧ t = g))
      (Fails retries position g) := by
  have hfails := Fails.refl retries position g
  apply ensures_getAt
  split
  · exact ensures_fail hfails
  next checkpoint hcheckpoint =>
  split
  · next wake attempt _ hattempt =>
    refine (ensures_check hfails).bind fun _ => ?_
    refine Ensures.bind (Q := fun n t => asInteger attempt = .ok n ∧ t = g)
      (ensures_ofExcept (fun _ _ hok ht => ⟨hok, ht⟩) fun _ ht => ht ▸ hfails) fun n => ?_
    apply ensures_assume
    intro hn
    split
    · next hstop => exact ensures_pure fun _ ht => .inr ⟨hstop, ht⟩
    refine (ensures_check hfails).bind fun _ => ?_
    have hnat : n = position.attempt := by
      rw [← hat.attempt, hcheckpoint]
      simp [attemptOf, hattempt, hn]
    have hretried := hat.retried hname
    have hcomp := hat.compacted
    rw [hcheckpoint] at hcomp
    rintro _ rfl
    left
    have hnext : At retries ⟨.prepare, position.attempt + 1, (compactedOf (some checkpoint)).isSome⟩
        (some (retriedCheckpoint ((position.attempt + 1 : Nat) : Int) (member checkpoint "compacted"))) :=
      At.retriedCheckpoint hretries (by omega) (by omega) (hcheckpoint ▸ hat.exactId)
    rw [hnat]
    refine .moved _ hnext ?_ ?_ rfl ?_
    · simp [Position.requestsLeft, hname, hcomp]
      omega
    · simp [Position.compactionsLeft, hcomp]
    · simp [Position.phasesLeft, hname, hcomp]
      omega
  · exact ensures_fail hfails

/-- **One phase.** Wherever the task stands, a phase that returns has ended it, has moved it to a
position with less left, or is a retry that was stopped. -/
theorem ensures_dispatch (hcount : retries = settings.retry.maxRetries.toNat) {turn : Turn}
    (hprepare : Exact turn.prepare.child) (hreq : Exact turn.request.child) :
    Ensures (· = g) (dispatch settings task turn) (fun _ t => Proceeds retries position g t ∨
        (position.name = .retry ∧ turn.retry.stopRequested = true ∧ t = g)) (Fails retries position g) := by
  apply ensures_getAt
  rw [hat.phase]
  cases hname : position.name with
  | prepare =>
    exact (ensures_prepare hretries hat hname hprepare).mono (fun _ ht => ht) (fun _ _ ht => .inl ht) fun _ ht => ht
  | request =>
    exact (ensures_request hretries hat hname hcount hreq).mono (fun _ ht => ht)
      (fun _ _ ht => .inl ht) fun _ ht => ht
  | retry =>
    refine (ensures_retry hretries hat hname).mono (fun _ ht => ht) ?_ fun _ ht => ht
    rintro _ t (hmoved | hstopped)
    · exact .inl hmoved
    · exact .inr ⟨rfl, hstopped⟩
  | tools => exact absurd hname hat.notTools

end Specifications

/-! ## Runs -/

/-- The bounds of the task, when a request may be tried `retries` times more. -/
structure Bounded (retries : Nat) (g : Generation) : Prop where
  requests : g.requests ≤ retries + 2
  compactions : g.compactions ≤ 1
  phases : g.phases ≤ 3 * retries + 4

/-- The task is over, with what it has done. -/
def OverWith (g t : Generation) : Prop :=
  t.over = true ∧ t.requests = g.requests ∧ t.compactions = g.compactions ∧ t.phases = g.phases

theorem overWith_faulted (turn : Turn) (message : Bytes) (g : Generation) : OverWith g (faulted turn message g) := by
  unfold faulted
  split
  · exact ⟨rfl, rfl, rfl, rfl⟩
  · exact ⟨rfl, rfl, rfl, rfl⟩

/-- After a phase the task is over, or it is as a phase without error left it: waiting, or with another
checkpoint. -/
theorem afterPhase_cases (turn : Turn) (before : Option Json) (outcome : Expected Unit) (g : Generation) :
    OverWith g (afterPhase turn before outcome g) ∨
      (∃ result, outcome = .ok result) ∧ afterPhase turn before outcome g = g ∧
        ((∃ on, g.stage = .waiting on) ∨ g.checkpoint ≠ before) := by
  obtain ⟨checkpoint, stage, requests, compactions, phases⟩ := g
  cases stage with
  | terminal end_ | left => exact .inl ⟨rfl, rfl, rfl, rfl⟩
  | running =>
    simp only [afterPhase]
    split
    · exact .inl ⟨rfl, rfl, rfl, rfl⟩
    split
    · split
      · exact .inl ⟨rfl, rfl, rfl, rfl⟩
      · exact .inl ⟨rfl, rfl, rfl, rfl⟩
    cases outcome with
    | error error => exact .inl (overWith_faulted _ _ _)
    | ok result =>
      dsimp only
      split
      · exact .inl (overWith_faulted _ _ _)
      · next hchanged => exact .inr ⟨⟨result, rfl⟩, rfl, .inr hchanged⟩
  | waiting on =>
    simp only [afterPhase]
    split
    · exact .inl ⟨rfl, rfl, rfl, rfl⟩
    split
    · split
      · exact .inl ⟨rfl, rfl, rfl, rfl⟩
      · exact .inl ⟨rfl, rfl, rfl, rfl⟩
    cases outcome with
    | error error => exact .inl (overWith_faulted _ _ _)
    | ok result => exact .inr ⟨⟨result, rfl⟩, rfl, .inl ⟨on, rfl⟩⟩

theorem At.phasesLeft_pos {retries : Nat} {position : Position} {checkpoint : Option Json}
    (hat : At retries position checkpoint) : 1 ≤ position.phasesLeft retries := by
  unfold Position.phasesLeft
  cases hname : position.name with
  | prepare | request => dsimp only; omega
  | retry =>
    have hretried := hat.retried hname
    omega
  | tools => exact absurd hname hat.notTools

theorem Ended.over {t : Generation} (h : Ended t) : t.over = true := by
  rcases h with ⟨outcome, hstage⟩ | htools
  · simp [Generation.over, hstage]
  unfold Generation.over
  split
  · rfl
  · rfl
  · exact decide_eq_true htools

theorem outcomeOf_cases {x : Phase Unit} {P : Generation → Prop} {Q : Unit → Generation → Prop}
    {E : Generation → Prop} (h : Ensures P x Q E) {g : Generation} (hg : P g) :
    (∃ t, outcomeOf x g = (.ok (), t) ∧ Q () t) ∨ ∃ error t, outcomeOf x g = (.error error, t) ∧ E t := by
  have hend := h g hg
  unfold outcomeOf
  cases hrun : x g with
  | ok a t =>
    rw [hrun] at hend
    exact .inl ⟨t, rfl, hend⟩
  | error e t =>
    rw [hrun] at hend
    exact .inr ⟨e, t, rfl, hend⟩

section Runs

variable {settings : Settings} {task : TaskId} {retries : Nat} {g : Generation} {turn : Turn}

/-- What is left at a position, for a task that stands there. -/
structure Covered (retries : Nat) (position : Position) (g : Generation) : Prop where
  place : At retries position g.checkpoint
  requests : g.requests + position.requestsLeft retries ≤ retries + 2
  compactions : g.compactions + position.compactionsLeft ≤ 1
  phases : g.phases + position.phasesLeft retries ≤ 3 * retries + 4

/-- The bounds hold, and a task that goes on has its rest left. -/
structure Within (retries : Nat) (g : Generation) : Prop where
  bounded : Bounded retries g
  covered : g.over = false → ∃ position, Covered retries position g

theorem Within.initial (retries : Nat) : Within retries {} where
  bounded := ⟨Nat.zero_le _, Nat.zero_le _, Nat.zero_le _⟩
  covered _ := by
    refine ⟨_, At.initial retries, ?_, ?_, ?_⟩
    · simp [Position.requestsLeft]
    · simp [Position.compactionsLeft]
    · simp [Position.phasesLeft]

variable {position : Position}

theorem Covered.bounded_of_fails {t : Generation}
    (h : Covered retries position g) (hfails : Fails retries position (invoked g) t) : Bounded retries t := by
  have hpos := h.place.phasesLeft_pos
  obtain ⟨hrequests, hcomps, hphases⟩ := hfails
  obtain ⟨-, hrequests', hcomps', hphases'⟩ := h
  simp only [invoked] at hrequests hcomps hphases
  constructor
  · omega
  · omega
  · omega

theorem Covered.moved {next : Position} {t : Generation} (h : Covered retries position g)
    (hat : At retries next t.checkpoint) (hrequests : t.requests + next.requestsLeft retries ≤
      (invoked g).requests + position.requestsLeft retries) (hcomps : t.compactions + next.compactionsLeft ≤
      (invoked g).compactions + position.compactionsLeft) (hphases : t.phases = (invoked g).phases)
    (hleft : next.phasesLeft retries < position.phasesLeft retries) : Covered retries next t := by
  obtain ⟨-, hrequests', hcomps', hphases'⟩ := h
  simp only [invoked] at hrequests hcomps hphases
  refine ⟨hat, ?_, ?_, ?_⟩
  · omega
  · omega
  · omega

theorem Covered.bounded (h : Covered retries position g) : Bounded retries g := by
  obtain ⟨-, hrequests, hcomps, hphases⟩ := h
  constructor
  · omega
  · omega
  · omega

theorem Bounded.within_of_overWith {t t' : Generation} (h : Bounded retries t)
    (hover : OverWith t t') : Within retries t' := by
  obtain ⟨hover, hrequests, hcomps, hphases⟩ := hover
  refine ⟨⟨hrequests ▸ h.requests, hcomps ▸ h.compactions, hphases ▸ h.phases⟩, ?_⟩
  intro hrunning
  rw [hover] at hrunning
  cases hrunning

/-- **One invocation** keeps the bounds. -/
theorem Within.execute (hretries : retries < 2 ^ 53)
    (hcount : retries = settings.retry.maxRetries.toNat) (hprepare : Exact turn.prepare.child)
    (hreq : Exact turn.request.child) (h : Within retries g) : Within retries (execute settings task g turn) := by
  unfold Phases.execute
  split
  · exact h
  next hover =>
  obtain ⟨position, hcovered⟩ := h.covered (Bool.not_eq_true _ ▸ hover)
  have hat : At retries position (invoked g).checkpoint := hcovered.place
  rcases outcomeOf_cases (ensures_dispatch hretries hat hcount hprepare hreq) rfl with
    ⟨t, hout, hphase⟩ | ⟨error, t, hout, hfails⟩
  · rw [hout]
    dsimp only
    have hbounded : Bounded retries t := by
      rcases hphase with (⟨-, hfails⟩ | ⟨next, hnext, hr, hc, hp, hl⟩) | ⟨-, -, rfl⟩
      · exact hcovered.bounded_of_fails hfails
      · exact (hcovered.moved hnext hr hc hp hl).bounded
      · exact hcovered.bounded_of_fails (Fails.refl _ _ _)
    rcases afterPhase_cases turn g.checkpoint (.ok ()) t with hover | ⟨-, hsame, hchanged⟩
    · exact hbounded.within_of_overWith hover
    rw [hsame]
    refine ⟨hbounded, fun hrunning => ?_⟩
    rcases hphase with (⟨hended, -⟩ | ⟨next, hnext, hr, hc, hp, hl⟩) | ⟨-, -, rfl⟩
    · rw [hended.over] at hrunning
      cases hrunning
    · exact ⟨next, hcovered.moved hnext hr hc hp hl⟩
    · -- A stopped retry is over: it has made no progress.
      rcases hchanged with ⟨on, hstage⟩ | hchanged
      · cases hstage
      · exact absurd rfl hchanged
  · rw [hout]
    rcases afterPhase_cases turn g.checkpoint (.error error) t with hover | ⟨⟨result, hok⟩, -⟩
    · exact (hcovered.bounded_of_fails hfails).within_of_overWith hover
    · cases hok

/-- The tasks that an invocation creates have ids that a double represents. -/
def Turn.Exact (turn : Turn) : Prop := Support.Exact turn.prepare.child ∧ Support.Exact turn.request.child

instance (turn : Turn) : Decidable turn.Exact :=
  inferInstanceAs (Decidable (Support.Exact turn.prepare.child ∧ Support.Exact turn.request.child))

theorem within_run (hretries : settings.retry.maxRetries < 2 ^ 53) (turns : List Turn)
    (hturns : ∀ turn ∈ turns, turn.Exact) : Within settings.retry.maxRetries.toNat (run settings task turns) := by
  have hlt : settings.retry.maxRetries.toNat < 2 ^ 53 := by omega
  have hfold : ∀ (turns : List Turn) (g : Generation), (∀ turn ∈ turns, turn.Exact) →
      Within settings.retry.maxRetries.toNat g →
      Within settings.retry.maxRetries.toNat (turns.foldl (Phases.execute settings task) g) := by
    intro turns
    induction turns with
    | nil => exact fun _ _ h => h
    | cons turn rest ih =>
      intro g hexact h
      obtain ⟨hprepare, hreq⟩ := hexact turn List.mem_cons_self
      apply ih _ fun turn hmem => hexact turn (List.mem_cons_of_mem _ hmem)
      exact h.execute hlt rfl hprepare hreq
  exact hfold turns {} hturns (Within.initial _)

/-- A phase that returns without error has changed the checkpoint or ended the task, unless it is a
retry that was stopped while it waited. -/
def Progresses (settings : Settings) (task : TaskId) (g : Generation) (turn : Turn) : Prop :=
  g.over = false → ∀ t, outcomeOf (dispatch settings task turn) (invoked g) = (.ok (), t) →
    t.checkpoint ≠ g.checkpoint ∨ (∃ outcome, t.stage = .terminal outcome) ∨
      (phaseOf g.checkpoint = .retry ∧ turn.retry.stopRequested = true)

theorem At.unique {next : Position} {checkpoint : Option Json}
    (h : At retries position checkpoint) (h' : At retries next checkpoint) : position = next := by
  obtain ⟨name, attempt, compacted⟩ := position
  obtain ⟨name', attempt', compacted'⟩ := next
  have hname : name = name' := h.phase.symm.trans h'.phase
  have hattempt : (attempt : Int) = attempt' := h.attempt.symm.trans h'.attempt
  have hcomp : compacted = compacted' := h.compacted.symm.trans h'.compacted
  rw [hname, hcomp, Int.ofNat_inj.1 hattempt]

theorem Within.progresses (hretries : retries < 2 ^ 53)
    (hcount : retries = settings.retry.maxRetries.toNat) (hturn : turn.Exact)
    (h : Within retries g) : Progresses settings task g turn := by
  intro hover t ht
  obtain ⟨position, hcovered⟩ := h.covered hover
  have hat : At retries position (invoked g).checkpoint := hcovered.place
  rcases outcomeOf_cases (ensures_dispatch hretries hat hcount hturn.1 hturn.2) rfl with
    ⟨t', hout, hphase⟩ | ⟨error, t', hout, -⟩
  · cases hout.symm.trans ht
    rcases hphase with (⟨hended, -⟩ | ⟨next, hnext, -, -, -, hleft⟩) | ⟨hname, hstop, -⟩
    · rcases hended with hterm | htools
      · exact .inr (.inl hterm)
      · -- The task stands at a tool round now.
        refine .inl fun hsame => hcovered.place.notTools ?_
        rw [← hcovered.place.phase, ← hsame, htools]
    · -- Less is left, so the position and with it the checkpoint is another one.
      refine .inl fun hsame => ?_
      rw [hsame] at hnext
      rw [hcovered.place.unique hnext] at hleft
      exact Nat.lt_irrefl _ hleft
    · exact .inr (.inr ⟨hcovered.place.phase.trans hname, hstop⟩)
  · cases hout.symm.trans ht

/-- **A generation cannot loop.** -/
theorem run_bounded (settings : Settings) (task : TaskId) (turns : List Turn)
    (hretries : settings.retry.maxRetries < 2 ^ 53) (hturns : ∀ turn ∈ turns, turn.Exact) :
    Bounded settings.retry.maxRetries.toNat (run settings task turns) ∧
      ∀ turn : Turn, turn.Exact → Progresses settings task (run settings task turns) turn := by
  have hwithin : Within settings.retry.maxRetries.toNat (run settings task turns) := within_run hretries turns hturns
  exact ⟨hwithin.bounded, fun turn hturn => hwithin.progresses (by omega) rfl hturn⟩

end Runs

/-! ## A rate limited model -/

/-- An invocation of task 4, which owns the run, against a model that is rate limited. -/
def rateLimited : Turn where
  prepare :=
    { run := .ok (some 4), record := .ok none, context := .ok (), tokens := 0, cut := false,
      newest := some 3, listed := false, child := 5, commit := .ok () }
  request :=
    { run := .ok (some 4), stopBefore := false, published := .ok (), loaded := .ok (),
      recovered := .ok none, planned := .ok (), response := .ok { stopReason := .error },
      failure := some { kind := .rateLimited }, round := .ok ⟨5, []⟩, cut := .ok false, child := 5,
      now := 0, stopAfter := false, continuation := .ok (), entry := 5, commit := .ok () }
  retry := { stopRequested := false, commit := .ok () }

/-- The same, with a stop that is requested while the retry waits. -/
def stoppedInRetry : Turn :=
  { rateLimited with retry := { stopRequested := true, commit := .ok () }, closed := true }

/-- Settings that ask for no retries with a negative number. -/
def negativeRetries : Settings := { retry := { maxRetries := -2 } }

theorem run_bounded_rateLimited : Bounded 3 (run {} 4 [rateLimited, rateLimited, rateLimited]) ∧
      Progresses {} 4 (run {} 4 [rateLimited, rateLimited, rateLimited]) rateLimited := by
  have hexact : rateLimited.Exact := by decide
  have hturns : ∀ turn ∈ [rateLimited, rateLimited, rateLimited], turn.Exact := by
    simp only [List.mem_cons, List.not_mem_nil, or_false, or_self, forall_eq]
    exact hexact
  obtain ⟨hbounded, hprogress⟩ := run_bounded {} 4 _ (by decide) hturns
  exact ⟨hbounded, hprogress rateLimited hexact⟩

/-- With a negative limit one request is already more than two above it; a retry that is stopped returns
without an error and leaves the checkpoint as it was; and an attempt beyond `2 ^ 53` is not counted. -/
theorem negativeRetries_exceeded : ¬ ((run negativeRetries 4 [rateLimited, rateLimited]).requests : Int) ≤
        negativeRetries.retry.maxRetries + 2 ∧ (run {} 4 [rateLimited, rateLimited]).over = false ∧
      (outcomeOf (dispatch {} 4 stoppedInRetry) (invoked (run {} 4 [rateLimited, rateLimited]))).1.isOk = true ∧
      (outcomeOf (dispatch {} 4 stoppedInRetry) (invoked (run {} 4 [rateLimited, rateLimited]))).2.checkpoint =
          (run {} 4 [rateLimited, rateLimited]).checkpoint ∧
      attemptOf (some (retriedCheckpoint (2 ^ 53 + 1) none)) = 2 ^ 53 := by
  decide +kernel

end Phases

end CodingHarness.Durable
