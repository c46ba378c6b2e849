import CodingHarness.Durable.AbortedInputs
import CodingHarness.Durable.Transcript

/-!
# Only a mark aborts a run

The stop token of an invocation is requested for two reasons: its task was marked, or the Harness closes.
The commit of an aborted response only asks the token. A marked task is refused by `commit_with`, so the
commit that gets through is exactly that of a close: it settles the inputs of a run that nobody aborted
(`close_aborts_run`). Without such a response every aborted input was withdrawn from the queue or belongs
to the run of a marked task (`run_warranted`).

A process is the committed state with the invocations that are under way and their stop tokens. A response
decides on the token before its commit; a token that was requested stays so.
-/

namespace CodingHarness.Durable

open Library Support

namespace AbortedRuns

open Transcript (AssistantMessage StopReason)
open Generations (Builtin GenerationWork Warranted marked justified)

/-! ## Processes -/

/-- The committed state, and the invocations of the process with their stop tokens. -/
structure Process where
  committed : Generations.State := Generations.initial
  closed : Bool := false
  invocations : List (TaskId × Bool) := []

def Process.active (p : Process) (task : TaskId) : Bool := p.invocations.any fun invocation => invocation.1 == task

/-- The stop of the invocation is requested. -/
def Process.stopRequested (p : Process) (task : TaskId) : Bool :=
  p.invocations.any fun invocation => invocation.1 == task && invocation.2

def failed (message : Bytes) : TaskOutcome := { status := "failed", error := some { message := message } }

/-- The last commit of `request` for a response without tool calls; `observed` is the stop request that
it has seen. -/
def responseWork (response : AssistantMessage) (observed : Bool) (entry : EntryDraft)
    (continuation : Option Json) (now : Int) : GenerationWork :=
  match response.stopReason with
  | .aborted =>
    if observed then
      .fail [] "aborted" none { status := "aborted" }
    else
      let message := response.errorMessage.getD
        "Model response ended with stop reason aborted"
      .fail [entry] "model_error" (some (.string message)) (failed message)
  | .error =>
    let message := response.errorMessage.getD "Generation failed"
    .fail [entry] "model_error" (some (.string message)) (failed message)
  | _ => .answer entry continuation now

/-- The other commits: no phase besides the aborted response ends a run as aborted, and the abort
handlers have a step of their own. -/
def plain : Generations.Step → Bool
  | .generation _ (.fail _ reason _ _) _ => reason == "model_error"
  | .abortRun _ _ _ => false
  | _ => true

/-- A step of the process. -/
inductive Step where
  | commit (step : Generations.Step)
  | invoke (task : TaskId)
  /-- The stop of a marked task's invocation. -/
  | signal (task : TaskId)
  | respond (task : TaskId) (response : AssistantMessage) (observed : Bool) (entry : EntryDraft)
      (continuation : Option Json) (now : Int)
  | abortHandler (task : TaskId) (entries : List EntryDraft) (now : Int)
  | finish (task : TaskId)
  | close
  | reopen

def isMarked (p : Process) (task : TaskId) : Bool :=
  (p.committed.storage.tasks.find task).any TaskRecord.abortRequested

/-- One step. The abort handler of a task runs when its stored record is marked. -/
def step (builtin : Builtin) (p : Process) : Step → Process
  | .commit change =>
    if plain change then { p with committed := Generations.commit builtin p.committed change } else p
  | .invoke task =>
    if p.closed || p.active task then p
    else { p with invocations := p.invocations ++ [(task, false)] }
  | .signal task =>
    if isMarked p task then
      { p with invocations := p.invocations.map fun invocation =>
          (invocation.1, invocation.2 || invocation.1 == task) }
    else p
  | .respond task response observed entry continuation now =>
    if p.active task && (!observed || p.stopRequested task) then
      let work := responseWork response observed entry continuation now
      { p with committed := Generations.commit builtin p.committed (.generation task work now) }
    else p
  | .abortHandler task entries now =>
    if p.active task && isMarked p task then
      { p with committed := Generations.commit builtin p.committed (.abortRun task entries now) }
    else p
  | .finish task =>
    { p with invocations := p.invocations.filter fun invocation => invocation.1 != task }
  | .close =>
    { p with
      closed := true
      invocations := p.invocations.map fun invocation => (invocation.1, true) }
  | .reopen => if p.closed && p.invocations.isEmpty then { p with closed := false } else p

def run (builtin : Builtin) (p : Process) (steps : List Step) : Process := steps.foldl (step builtin) p

/-- Every step of a run meets a condition on the process before it. -/
def RunMeets (builtin : Builtin) (G : Process → Step → Bool) : Process → List Step → Bool
  | _, [] => true
  | p, action :: rest => G p action && RunMeets builtin G (step builtin p action) rest

/-- Every step of a run relates the processes before and after it. -/
def EachStep (builtin : Builtin) (R : Process → Process → Prop) : Process → List Step → Prop
  | _, [] => True
  | p, action :: rest =>
    R p (step builtin p action) ∧ EachStep builtin R (step builtin p action) rest

/-- An input that is aborted after the step was aborted before, or waited in an inbox, or belonged to the
run of a marked task. -/
def Warrants (p next : Process) : Prop :=
  ∀ id, next.committed.Aborted id → p.committed.Aborted id ∨ Warranted p.committed id

/-- The step is no aborted response that has seen a stop request without a mark of its task. -/
def unforced (p : Process) : Step → Bool
  | .respond task response observed _ _ _ =>
    !(response.stopReason == .aborted && observed) || marked p.committed task
  | _ => true

/-! ## Steps and runs -/

theorem justified_of_plain {s : Generations.State} {change : Generations.Step}
    (h : plain change = true) : justified s change = true := by
  cases change with
  | generation task work now =>
    cases work with
    | fail entries reason detail outcome =>
      have hreason : reason = "model_error" := eq_of_beq h
      rw [hreason]
      rfl
    | finishToolRound assistant now | answer assistant continuation now | compact entries input checkpoint
    | callTools entries calls existing checkpoint | advance entries background checkpoint => rfl
  | abortRun task entries now => cases h
  | _ => rfl

variable {p : Process}

theorem justified_response {task : TaskId} {response : AssistantMessage}
    {observed : Bool} {entry : EntryDraft} {continuation : Option Json} {now : Int}
    (h : unforced p (.respond task response observed entry continuation now) = true) : justified p.committed
      (.generation task (responseWork response observed entry continuation now) now) = true := by
  cases hreason : response.stopReason with
  | aborted =>
    cases observed with
    | true =>
      simp only [unforced, hreason, beq_self_eq_true, Bool.and_self, Bool.not_true, Bool.false_or] at h
      simp [responseWork, hreason, justified, h]
    | false =>
      simp only [responseWork, hreason]
      rfl
  | error | pending | stop | toolUse | length =>
    simp only [responseWork, hreason]
    rfl

theorem marked_of_isMarked {task : TaskId} (h : isMarked p task = true) : marked p.committed task = true := by
  obtain ⟨record, hfind, hmark⟩ := (Option.any_eq_true _ _).1 h
  simp [marked, hfind, hmark]

/-- **One step** aborts only what is warranted. -/
theorem step_warrants (builtin : Builtin) {action : Step}
    (h : unforced p action = true) : Warrants p (step builtin p action) := by
  have hsame : Warrants p p := fun _ haborted => .inl haborted
  cases action with
  | commit change =>
    simp only [step]
    split
    · next hplain =>
      exact fun id haborted => Generations.commit_warranted (justified_of_plain hplain) haborted
    · exact hsame
  | invoke task =>
    simp only [step]
    split
    · exact hsame
    · exact fun _ haborted => .inl haborted
  | signal task | reopen =>
    simp only [step]
    split
    · exact fun _ haborted => .inl haborted
    · exact hsame
  | respond task response observed entry continuation now =>
    simp only [step]
    split
    · exact fun id haborted => Generations.commit_warranted (justified_response h) haborted
    · exact hsame
  | abortHandler task entries now =>
    simp only [step]
    split
    · next hactive =>
      have hmarked : justified p.committed (.abortRun task entries now) = true :=
        marked_of_isMarked (Bool.and_eq_true _ _ ▸ hactive).2
      exact fun id haborted => Generations.commit_warranted hmarked haborted
    · exact hsame
  | finish task | close => exact fun _ haborted => .inl haborted

/-- **Only a mark aborts a run**, in every run without an aborted response that has seen the stop of a
close. -/
theorem run_warranted (builtin : Builtin) (steps : List Step)
    (h : RunMeets builtin unforced {} steps = true) : EachStep builtin Warrants {} steps := by
  have hevery : ∀ (steps : List Step) (p : Process), RunMeets builtin unforced p steps = true →
      EachStep builtin Warrants p steps := by
    intro steps
    induction steps with
    | nil => exact fun _ _ => trivial
    | cons action rest ih =>
      intro p hmeets
      obtain ⟨haction, hrest⟩ := Bool.and_eq_true _ _ ▸ hmeets
      exact ⟨step_warrants builtin haction, ih _ hrest⟩
  exact hevery steps {} h

/-! ## A close in the middle of a request -/

/-- An input is admitted, and its generation (task 4) is reserved and invoked. -/
def requesting : List Step := [.commit (.submit 1 ⟨none, .input (.string "hello") none none⟩ 0),
    .commit (.task (.reserve 4 ⟨1, .object [], none⟩ 0)), .invoke 4]

def responseEntry : EntryDraft := ⟨"pi.assistant", .object [], none, [], []⟩

/-- The response that the provider gives to a request that was stopped. -/
def abortedResponse : AssistantMessage := { stopReason := .aborted }

/-- The task is marked and stopped while it requests, and its abort handler runs. -/
theorem run_warranted_marked : EachStep Generations.plainBuiltin Warrants {}
      (requesting ++ [.commit (.task (.abortTask 4 none 0)), .signal 4,
        .respond 4 abortedResponse true responseEntry none 0, .abortHandler 4 [] 0]) :=
  run_warranted Generations.plainBuiltin _ (by decide +kernel)

/-- The Harness is closed while the generation requests. -/
def closing : Process := run Generations.plainBuiltin {} (requesting ++ [.close])

theorem closing_submission :
    (closing.committed.storage.submissions.find 3).map SubmissionRecord.status = some (ofString "placed") := by
  decide +kernel

theorem closing_unmarked :
    closing.committed.storage.tasks.values.all (fun record => !record.abortRequested) = true := by
  decide +kernel

theorem closing_status {record : SubmissionRecord} (h : closing.committed.storage.submissions.find 3 = some record) :
    record.status = "placed" := by
  have hstat := closing_submission
  rw [h] at hstat
  exact Option.some.inj hstat

theorem closing_not_warranted : ¬ Warranted closing.committed 3 := by
  rintro ((⟨record, hfind, hqueued⟩ | ⟨c, item, hitem, -⟩) | ⟨key, record, hfind, hmark, -⟩)
  · exact absurd ((closing_status hfind).symm.trans hqueued) (by decide)
  · cases hitem
  · have hall := List.all_eq_true.1 closing_unmarked record (OrdMap.mem_values_of_find hfind)
    rw [hmark] at hall
    cases hall

/-- The response to the request that the close has stopped. -/
def lateResponse : Step := .respond 4 abortedResponse true responseEntry none 0

theorem lateResponse_aborts :
    ((step Generations.plainBuiltin closing lateResponse).committed.storage.submissions.find 3).any
      (fun record => record.status == ofString "unanswered" &&
        record.reason == some (ofString "aborted")) = true := by
  decide +kernel

/-- The response settles the placed input as aborted, though its task is not marked. -/
theorem close_aborts_run :
    ¬ EachStep Generations.plainBuiltin Warrants {} (requesting ++ [.close, lateResponse]) := by
  intro h
  have hlast : Warrants closing (step Generations.plainBuiltin closing lateResponse) := h.2.2.2.2.1
  obtain ⟨record, hfind, hrecord⟩ := (Option.any_eq_true _ _).1 lateResponse_aborts
  obtain ⟨hstatus, hreason⟩ := Bool.and_eq_true _ _ ▸ hrecord
  rcases hlast 3 ⟨record, hfind, eq_of_beq hstatus, eq_of_beq hreason⟩ with
    ⟨before, hbefore, haborted, -⟩ | hwarranted
  · exact absurd ((closing_status hbefore).symm.trans haborted) (by decide)
  · exact closing_not_warranted hwarranted

end AbortedRuns

end CodingHarness.Durable
