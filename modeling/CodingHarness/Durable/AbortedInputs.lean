import CodingHarness.Durable.QueuedEntries
import CodingHarness.Durable.Generations

/-!
# The inputs that a commit aborts

A submission is settled as unanswered with the reason `aborted` in two ways: it is withdrawn while it
waits in the inbox, or the run that it belongs to is ended so. This module says which submissions a commit
of the Harness can settle in this way: none besides the queued ones, and besides the inputs of the run
that an abort handler, or a response that was taken for an aborted one, ends.
-/

namespace CodingHarness.Durable

open Library Support

namespace Workflow

/-! ## Inside the workflow -/

/-- The submission is settled as unanswered because it was aborted. -/
def Aborted (s : Workflow) (id : SubmissionId) : Prop := ∃ record, s.storage.submissions.find id = some record ∧
    record.status = ofString "unanswered" ∧ record.reason = some (ofString "aborted")

/-- Nothing has been aborted since the start besides what is allowed. -/
def Spared (start : Workflow) (allowed : SubmissionId → Prop) (s : Workflow) : Prop :=
  ∀ id, s.Aborted id → start.Aborted id ∨ allowed id

/-- The submission is queued, in its record or in an inbox. -/
def Waits (s : Workflow) (id : SubmissionId) : Prop :=
  (∃ record, s.storage.submissions.find id = some record ∧ record.status = queued) ∨
    ∃ c, ∃ item ∈ s.inbox c, item.id = id

/-- The submission is an input of the run of the task. -/
def RunsIn (s : Workflow) (task : TaskId) (id : SubmissionId) : Prop :=
  ∃ c live, s.run c = some live ∧ live.task = task ∧ id ∈ live.inputs

variable {start s t : Workflow} {allowed : SubmissionId → Prop}

theorem spared_start (start : Workflow) (allowed : SubmissionId → Prop) : Spared start allowed start :=
  fun _ h => .inl h

theorem Spared.same (h : Spared start allowed s)
    (hsame : t.storage.submissions = s.storage.submissions) : Spared start allowed t := by
  rintro id ⟨record, hfind, haborted⟩
  exact h id ⟨record, hsame ▸ hfind, haborted⟩

theorem Spared.withSubmission (h : Spared start allowed s) {id : SubmissionId} {record : SubmissionRecord}
    (hrec : record.status = ofString "unanswered" → record.reason = some (ofString "aborted") →
      s.Aborted id ∨ allowed id) : Spared start allowed (s.withSubmission id record) := by
  rintro other ⟨found, hfind, hstat, hreason⟩
  rw [Workflow.withSubmission] at hfind
  rcases OrdMap.find_insert_cases hfind with ⟨rfl, rfl⟩ | hfind
  · rcases hrec hstat hreason with haborted | hallowed
    · exact h _ haborted
    · exact .inr hallowed
  · exact h other ⟨found, hfind, hstat, hreason⟩

variable {settlement : SubmissionSettlement}

theorem closed_spared (start : Workflow) (allowed : SubmissionId → Prop) :
    Closed (Spared start allowed) (fun _ _ => True) (fun _ => True) allowed where
  minted hs := hs.same rfl
  insertTask _ _ hs := hs.same rfl
  appended hs _ _ := hs.same rfl
  created _ _ _ _ _ hs _ hreason := Spared.withSubmission (hs.same rfl) fun _ haborted => absurd haborted hreason
  settled hs _ hallowed hcur hnext := by
    refine hs.withSubmission fun hstat hreason => ?_
    cases changed hnext with
    | ended => exact .inl ⟨_, hcur, hstat, hreason⟩
    | settled => exact .inr (hallowed ⟨hstat, hreason⟩)
  placed _ _ ht _ _ hcur hnext := by
    refine ht.withSubmission fun hstat hreason => ?_
    cases changed hnext with
    | ended => exact .inl ⟨_, hcur, hstat, hreason⟩
    | placed =>
      dsimp only at hstat
      split at hstat <;> exact absurd hstat (by decide)
  inbox hs _ := hs.same rfl
  push hs _ := hs.same rfl
  run hs _ := hs.same rfl

theorem opens_spared (start : Workflow) (allowed : SubmissionId → Prop) (c : ConversationId) :
    Opens (Spared start allowed) (Spared start allowed) (fun _ _ => True) c :=
  Closed.opens (fun _ _ => True) fun _ _ _ _ => trivial

theorem spares_admitSubmission (settings : WorkflowSettings) (c : ConversationId)
    (draft : SubmissionDraft) (now : Int) : Keeps (Spared start allowed) (admitSubmission settings c draft now) :=
  (closed_spared start allowed).admitSubmission settings (fun _ _ _ _ => trivial) trivial
    ((closed_spared start allowed).enqueues fun _ => trivial) now

theorem spares_abortingEndRun (c : ConversationId) (task : TaskId) (hends : Ends settlement)
    (hrun : s.run = start.run) (hs : Spared start (start.RunsIn task) s) :
    Ensures (fun t => t = s) (endRun c task settlement)
      (fun _ => Spared start (start.RunsIn task)) fun _ => True := by
  apply ensures_getAt
  split
  · exact ensures_pure fun t ht => ht ▸ hs
  next live hlive =>
  split
  · next htask =>
    have hinputs : ∀ id ∈ live.inputs, start.RunsIn task id := fun id hid => ⟨c, live, hrun ▸ hlive, htask, hid⟩
    refine Ensures.bind (Q := fun _ => Spared start (start.RunsIn task)) ?_ fun _ => ?_
    · exact ((closed_spared _ _).settleInputs hends _ fun id hid _ => hinputs id hid).mono
        (fun t ht => ht ▸ hs) (fun _ _ ht => ht) fun _ ht => ht
    · exact (closed_spared _ _).setRun c _ (.inl rfl)
  · exact ensures_pure fun t ht => ht ▸ hs

theorem spares_abortSubmission (id : SubmissionId) (c : Option ConversationId) :
    Ensures (fun s => s = start) (abortSubmission id c) (fun _ => Spared start start.Waits) fun _ => True := by
  have hstart := spared_start start start.Waits
  apply ensures_getAt
  split
  · exact ensures_pure fun t ht => ht ▸ hstart
  next record hrec =>
  split
  · exact ensures_pure fun t ht => ht ▸ hstart
  split
  · next hqueued =>
    have hwaits : start.Waits id := .inl ⟨record, hrec, hqueued⟩
    refine Ensures.bind (Q := fun _ => Spared start start.Waits) ?_ fun _ => ?_
    · exact ((closed_spared _ _).settle id (ends_unanswered ..) fun _ => hwaits).mono (fun t ht => ht ▸ hstart)
        (fun _ _ ht => ht) fun _ ht => ht
    · exact (closed_spared _ _).setInbox _ _ fun _ _ => trivial
  · exact ensures_pure fun t ht => ht ▸ hstart

/-- The withdrawn inputs were queued; the inboxes are those of the start. -/
theorem spares_withdrawQueuedInputs (c : ConversationId) (hs : Spared start start.Waits s)
    (hinbox : s.inbox = start.inbox) :
    Ensures (fun t => t = s) (withdrawQueuedInputs c) (fun _ => Spared start start.Waits) fun _ => True := by
  apply ensures_getAt
  refine Ensures.bind (Q := fun _ => Spared start start.Waits) ?_
    fun _ => (closed_spared _ _).setInbox c _ fun _ _ => trivial
  refine ((closed_spared _ _).withdrawItems (s.inbox c) fun item hitem => ?_).mono
    (fun t ht => ht ▸ hs) (fun _ _ ht => ht) fun _ ht => ht
  exact .inr ⟨c, item, hinbox ▸ hitem, rfl⟩

theorem spares_createConversation (parent : Option Parent) (owner : Option ConversationOwner) :
    Keeps (Spared start allowed) (createConversation parent owner) := by
  refine (closed_spared _ _).mintId.bind fun id => keeps_get fun s hs => keeps_check fun storage hstor => ?_
  obtain ⟨record, -, -, -, rfl⟩ := StorageState.applyConversation_eq_ok.1 hstor
  exact ensures_modify fun t _ => hs.same rfl

end Workflow

/-! ## The task table -/

namespace Tasks

variable {staged next : Staged}

theorem create_submissions {creation : Creation} (h : create staged creation = .ok next) :
    next.tables.submissions = staged.tables.submissions := by
  cases creation with
  | task definition input options =>
    obtain ⟨owner, -, h⟩ := bind_eq_ok.1 h
    cases h
    rfl
  | conversation owner =>
    cases owner with
    | none =>
      cases h
      rfl
    | some owner =>
      obtain ⟨record, -, h⟩ := bind_eq_ok.1 h
      cases h
      rfl

theorem createAll_submissions {creations : List Creation} (h : createAll staged creations = .ok next) :
    next.tables.submissions = staged.tables.submissions := by
  induction creations generalizing staged with
  | nil =>
    cases h
    rfl
  | cons creation rest ih =>
    obtain ⟨middle, hmid, hrest⟩ := bind_eq_ok.1 h
    exact (ih hrest).trans (create_submissions hmid)

/-- A callback that leaves the submissions as they are. -/
def Untouched (s : StorageState) (x : Expected Callback) : Prop :=
  ∀ cb, x = .ok cb → cb.staged.tables.submissions = s.submissions

section Untouched

variable {s : StorageState} {id : TaskId}

theorem untouched_write (records : List TaskRecord) : Untouched s (write s records) := by
  rintro cb ⟨⟩
  rfl

theorem untouched_bind {α : Type} {x : Expected α} {f : α → Expected Callback}
    (h : ∀ a, Untouched s (f a)) : Untouched s (x >>= f) := by
  intro cb hcb
  obtain ⟨a, -, hf⟩ := bind_eq_ok.1 hcb
  exact h a cb hf

theorem untouched_ite {condition : Prop} [Decidable condition] {x y : Expected Callback}
    (hx : Untouched s x) (hy : Untouched s y) : Untouched s (if condition then x else y) := by
  split
  · exact hx
  · exact hy

theorem untouched_find {f : TaskRecord → Expected Callback} (h : ∀ record, Untouched s (f record)) :
    Untouched s (match s.tasks.find id with
      | none => write s []
      | some record => f record) := by
  cases s.tasks.find id with
  | none => exact untouched_write _
  | some record => exact h record

theorem untouched_callback (step : Step) : Untouched s (callback s step) := by
  cases step with
  | commitWith id allowAbort abortInvocation creations next now =>
    refine untouched_bind fun current => ?_
    intro cb hcb
    obtain ⟨staged, hstaged, hnext⟩ := bind_eq_ok.1 hcb
    have hsame := createAll_submissions hstaged
    cases next with
    | none =>
      cases hnext
      exact hsame
    | some next =>
      obtain ⟨record, -, hcb⟩ := bind_eq_ok.1 hnext
      cases hcb
      exact hsame
  | memo id allowAbort keep key candidate =>
    exact untouched_bind fun _ => untouched_ite (untouched_write _) (untouched_write _)
  | create creations =>
    intro cb hcb
    obtain ⟨staged, hstaged, hcb⟩ := bind_eq_ok.1 hcb
    cases hcb
    exact createAll_submissions hstaged
  | mint =>
    rintro cb ⟨⟩
    rfl
  | openTasks | markAbandoned ids | markAll marks => exact untouched_write _
  | settleOrphaned id reason now | settleFaulted id message now | resume id | reserve id resolved now
  | returnTask id =>
    exact untouched_find fun _ => untouched_ite (untouched_write _) (untouched_write _)
  | abortTask id orphanReason now =>
    refine untouched_bind fun _ => untouched_ite ?_ (untouched_write _)
    cases orphanReason with
    | none | some reason => exact untouched_write _
  | abortConversation conversation background =>
    exact untouched_bind fun _ => untouched_bind fun _ => untouched_write _
  | finalize seen now => exact untouched_bind fun _ => untouched_write _
  | migrate id resolved => exact untouched_find fun _ => untouched_write _

end Untouched

theorem assemble_submissions {s t : StorageState} {cb : Callback} (h : assemble s cb = .ok t) :
    t.submissions = cb.staged.tables.submissions := by
  obtain ⟨-, -, h⟩ := bind_eq_ok.1 h
  obtain ⟨-, -, h⟩ := bind_eq_ok.1 h
  obtain ⟨-, -, h⟩ := bind_eq_ok.1 h
  cases h
  rfl

end Tasks

/-! ## The commits of the Harness -/

namespace Generations

variable {start : Workflow} {allowed : SubmissionId → Prop} {α β : Type}

/-- An action that aborts no more than is allowed, as long as it does not fail. -/
def Spares (start : Workflow) (allowed : SubmissionId → Prop) (x : Action α) : Prop :=
  Ensures (fun s => start.Spared allowed s.toWorkflow) x
    (fun _ s => start.Spared allowed s.toWorkflow) fun _ => True

theorem spares_pure (a : α) : Spares start allowed (pure a) := ensures_pure fun _ hs => hs

theorem Spares.bind {x : Action α} {f : α → Action β} (hx : Spares start allowed x)
    (hf : ∀ a, Spares start allowed (f a)) : Spares start allowed (x >>= f) := Ensures.bind hx hf

theorem spares_check {x : Expected α} : Spares start allowed (check x) :=
  ensures_ofExcept (fun _ _ _ hs => hs) fun _ _ => trivial

variable {f : State → Action α}

theorem spares_get (h : ∀ s, Spares start allowed (f s)) : Spares start allowed (get >>= f) := fun s hs => h s s hs

theorem spares_modify {f : State → State} (hf : ∀ s, (f s).storage.submissions = s.storage.submissions) :
    Spares start allowed (modify f) :=
  ensures_modify fun s hs => hs.same (hf s)

theorem spares_inWorkflow {x : WorkflowAction α}
    (hx : Workflow.Keeps (start.Spared allowed) x) : Spares start allowed (inWorkflow x) := by
  apply Ensures.zoom
  intro s hs
  exact hx.mono (fun t ht => ht ▸ hs) (fun _ _ ht => ht) fun _ _ => trivial

theorem spares_appendEntries (c : ConversationId) (drafts : List EntryDraft) :
    Workflow.Keeps (start.Spared allowed) (appendEntries c drafts) := by
  induction drafts with
  | nil => exact Workflow.keeps_pure _
  | cons draft rest ih => exact ((Workflow.closed_spared _ _).appendEntry c draft).bind fun _ => ih

variable {s : State}

theorem ensures_checkAt {x : Expected α} :
    Ensures (fun t => t = s) (check x : Action α) (fun a t => x = .ok a ∧ t = s) fun _ => True :=
  ensures_ofExcept (fun _ _ hx ht => ⟨hx, ht⟩) fun _ _ => trivial

theorem spares_getAt (h : ∀ s, start.Spared allowed s.toWorkflow → Ensures (fun t => t = s) (f s)
      (fun _ t => start.Spared allowed t.toWorkflow) fun _ => True) :
    Spares start allowed (get >>= f) := fun s hs => h s hs s rfl

theorem spares_setStorageAt {storage : StorageState}
    (hs : start.Spared allowed s.toWorkflow) (hsame : storage.submissions = s.storage.submissions) :
    Ensures (fun t => t = s) (setStorage storage) (fun _ t => start.Spared allowed t.toWorkflow) fun _ => True := by
  rintro t rfl
  exact hs.same hsame

theorem spares_createTask (definition : TaskDefinition) (input : Json) (options : TaskOptions) :
    Spares start allowed (createTask definition input options) := by
  apply spares_getAt
  intro s hs
  refine ensures_checkAt.bind fun staged => ?_
  apply ensures_assume
  intro hstaged
  exact (spares_setStorageAt hs (Tasks.create_submissions hstaged)).bind fun _ => spares_pure _

theorem spares_createTools (builtin : Builtin) (owner : TaskId) (calls : List Json) :
    Spares start allowed (createTools builtin owner calls) := by
  induction calls with
  | nil => exact spares_pure _
  | cons input rest ih =>
    exact (spares_createTask _ _ _).bind fun _ => ih.bind fun _ => spares_pure _

theorem spares_createCompactionTask (builtin : Builtin) (c : ConversationId) (input : Json)
    (owner : Option TaskId) (background : Bool) :
    Spares start allowed (createCompactionTask builtin c input owner background) := by
  refine (spares_createTask _ _ _).bind fun task => ?_
  refine (spares_get fun _ => spares_check.bind fun _ => spares_pure _).bind fun _ => ?_
  refine Spares.bind (spares_modify fun _ => ?_) fun _ => spares_pure _
  rfl

theorem spares_taskCommit (step : Tasks.Step) : Spares start allowed (taskCommit step) := by
  apply spares_getAt
  intro s hs
  refine ensures_checkAt.bind fun tables => ?_
  apply ensures_assume
  intro htables
  obtain ⟨cb, hcb, hassemble⟩ := bind_eq_ok.1 htables
  apply spares_setStorageAt hs
  exact (Tasks.assemble_submissions hassemble).trans (Tasks.untouched_callback step cb hcb)

variable {task : TaskId}

/-- `commit_with` aborts what its work aborts, when it is told for the state that the commit starts
from. -/
theorem spares_commitWith {kind : Bytes} {allowAbort : Bool}
    {work : TaskRecord → Action (Option Tasks.NextTaskState)} (now : Int)
    (hwork : ∀ current, Tasks.runningTask s.storage task allowAbort = .ok current →
      Ensures (fun t => t = s) (work current) (fun _ t => start.Spared allowed t.toWorkflow) fun _ => True) :
    Ensures (fun t => t = s) (commitWith kind task allowAbort work now)
      (fun _ t => start.Spared allowed t.toWorkflow) fun _ => True := by
  refine Ensures.bind (Q := fun r t => r = s ∧ t = s) (ensures_get fun t ht => ⟨ht, ht⟩) fun r => ?_
  apply ensures_assume
  rintro rfl
  refine ensures_checkAt.bind fun current => ?_
  apply ensures_assume
  intro hcur
  refine ensures_checkAt.bind fun _ => ?_
  apply ensures_assume
  intro _
  refine (hwork current hcur).bind fun next => ?_
  apply spares_getAt
  intro t ht
  cases next with
  | none => exact ensures_checkAt.mono (fun _ h => h) (fun _ _ h => h.2 ▸ ht) fun _ h => h
  | some next =>
    refine ensures_checkAt.bind fun record => ?_
    apply ensures_assume
    intro _
    refine ensures_checkAt.bind fun _ => ?_
    apply ensures_assume
    intro _
    exact spares_setStorageAt ht rfl

/-- The inputs that a commit may abort: those that wait, and those of the run of a stored task that
carries an abort mark. -/
def Warranted (s : State) (id : SubmissionId) : Prop :=
  s.Waits id ∨ ∃ key record, s.storage.tasks.find key = some record ∧
    record.abortRequested = true ∧ s.RunsIn record.id id

theorem Spares.at {x : Action α} (h : Spares start allowed x) (hs : start.Spared allowed s.toWorkflow) :
    Ensures (fun t => t = s) x (fun _ t => start.Spared allowed t.toWorkflow) fun _ => True :=
  h.mono (fun _ ht => ht ▸ hs) (fun _ _ ht => ht) fun _ ht => ht

variable {work : GenerationWork}

/-- A phase of a generation aborts nothing, unless it takes its response for an aborted one. -/
theorem spares_generationWork (builtin : Builtin) (current : TaskRecord)
    (h : ∀ entries reason detail outcome, work = .fail entries reason detail outcome → reason ≠ "aborted") :
    Spares start allowed (generationWork builtin current work) := by
  cases work with
  | finishToolRound assistant now =>
    refine Spares.bind (spares_inWorkflow ?_) fun _ => spares_pure _
    exact (Workflow.closed_spared _ _).finishToolRound _ (Workflow.opens_spared _ _ _) trivial _ now
  | answer assistant continuation now =>
    refine spares_get fun s => Spares.bind (spares_inWorkflow ?_) fun _ => spares_pure _
    exact (Workflow.closed_spared _ _).answer _ (Workflow.opens_spared _ _ _) trivial _ assistant continuation now
  | fail entries reason detail outcome =>
    have hreason : ¬ Workflow.Aborts (Workflow.unanswered reason detail) := by
      rintro ⟨-, haborted⟩
      exact h entries reason detail outcome rfl (Option.some.inj haborted)
    refine (spares_inWorkflow (spares_appendEntries _ entries)).bind fun _ => ?_
    refine Spares.bind (spares_inWorkflow ?_) fun _ => spares_pure _
    exact (Workflow.closed_spared _ _).endRun _ (Workflow.ends_unanswered ..) fun _ haborts => absurd haborts hreason
  | compact entries input checkpoint =>
    refine (spares_inWorkflow (spares_appendEntries _ entries)).bind fun _ => ?_
    exact (spares_createCompactionTask builtin _ input _ false).bind fun _ => spares_pure _
  | callTools entries calls existing checkpoint =>
    refine (spares_inWorkflow (spares_appendEntries _ entries)).bind fun _ => ?_
    refine (spares_createTools builtin _ calls).bind fun tools => ?_
    split
    · exact spares_pure _
    · exact spares_pure _
  | advance entries background checkpoint =>
    refine (spares_inWorkflow (spares_appendEntries _ entries)).bind fun _ => ?_
    refine spares_get fun s => ?_
    cases background with
    | none => exact spares_pure _
    | some input =>
      dsimp only
      split
      · exact (spares_createCompactionTask builtin _ input none true).bind fun _ =>
          spares_pure _
      · exact spares_pure _

theorem spares_compactionWork (builtin : Builtin) (current : TaskRecord) (work : CompactionWork) :
    Spares start allowed (compactionWork builtin current work) := by
  cases work with
  | finish outcome =>
    refine Spares.bind (spares_modify fun _ => ?_) fun _ => spares_pure _
    rfl
  | advance checkpoint => exact spares_pure _
  | placeSummary firstKept message now =>
    refine Spares.bind (spares_modify fun _ => ?_) fun _ => ?_
    · rfl
    split
    · exact (spares_inWorkflow ((Workflow.closed_spared _ _).appendEntry _ _)).bind fun _ =>
        spares_pure _
    · exact (spares_inWorkflow (Workflow.spares_admitSubmission _ _ _ now)).bind fun _ =>
        spares_pure _

theorem keeps_run_appendEntries {run : ConversationId → Option LiveRun} (c : ConversationId)
    (drafts : List EntryDraft) : Workflow.Keeps (fun t => t.run = run) (appendEntries c drafts) := by
  induction drafts with
  | nil => exact Workflow.keeps_pure _
  | cons draft rest ih =>
    refine Workflow.Keeps.bind (Workflow.Ensures.ofStates fun s hs => ?_) fun _ => ih
    apply (Workflow.ensures_appendEntryAt s c draft).mono (fun _ ht => ht)
    · rintro record t ⟨-, -, rfl⟩
      exact hs
    · exact fun _ _ => trivial

theorem spares_abortRun (entries : List EntryDraft) (current : TaskRecord) :
    Ensures (fun t => t = s) (abortRun entries current)
      (fun _ t => s.toWorkflow.Spared (s.RunsIn current.id) t.toWorkflow) fun _ => True := by
  have hstart := Workflow.spared_start s.toWorkflow (s.RunsIn current.id)
  have happ : Ensures (fun t => t = s) (inWorkflow (appendEntries current.conversationId entries))
      (fun _ t => s.toWorkflow.Spared (s.RunsIn current.id) t.toWorkflow ∧ t.run = s.run)
      fun _ => True := by
    apply Ensures.zoom
    rintro t rfl
    refine ((spares_appendEntries current.conversationId entries).and
      (keeps_run_appendEntries current.conversationId entries)).mono ?_ (fun _ _ hw => hw)
      fun _ hw => hw
    rintro w rfl
    exact ⟨hstart, rfl⟩
  refine happ.bind fun _ => ?_
  refine Ensures.bind (Q := fun _ (t : State) =>
    s.toWorkflow.Spared (s.RunsIn current.id) t.toWorkflow) ?_ fun _ => spares_pure _
  apply Ensures.zoom
  rintro t ⟨ht, hrun⟩
  exact Workflow.spares_abortingEndRun current.conversationId current.id (Workflow.ends_unanswered ..) hrun ht

/-- The task carries an abort mark, when it exists. -/
def marked (s : State) (task : TaskId) : Bool := (s.storage.tasks.find task).all TaskRecord.abortRequested

/-- The commit ends a run as aborted only when the task of the run is marked. -/
def justified (s : State) : Step → Bool
  | .generation task (.fail _ reason _ _) _ => reason != "aborted" || marked s task
  | .abortRun task _ _ => marked s task
  | _ => true

theorem runningTask_marked {s : StorageState} {current : TaskRecord}
    (h : Tasks.runningTask s task false = .ok current) :
    s.tasks.find task = some current ∧ current.abortRequested = false := by
  obtain ⟨hfind, -, hmark⟩ := Tasks.runningTask_eq_ok h
  exact ⟨hfind, by simpa using hmark⟩

variable {builtin : Builtin}

theorem spares_generation {now now' : Int} (h : justified s (.generation task work now) = true) :
    Ensures (fun t => t = s) (callback builtin (.generation task work now'))
      (fun _ t => s.toWorkflow.Spared (Warranted s) t.toWorkflow) fun _ => True := by
  apply spares_commitWith
  intro current hcur
  apply (spares_generationWork builtin current ?_).at (Workflow.spared_start _ _)
  rintro entries reason detail outcome rfl rfl
  -- The commit of a marked task is rejected.
  obtain ⟨hfind, hunmarked⟩ := runningTask_marked hcur
  simp [justified, marked, hfind, hunmarked] at h

theorem spares_abortHandler {entries : List EntryDraft} {now : Int} (h : marked s task = true) :
    Ensures (fun t => t = s) (callback builtin (.abortRun task entries now))
      (fun _ t => s.toWorkflow.Spared (Warranted s) t.toWorkflow) fun _ => True := by
  apply spares_commitWith
  intro current hcur
  refine (spares_abortRun entries current).mono (fun _ ht => ht) ?_ fun _ ht => ht
  rintro next t hspared id haborted
  have hfind := (Tasks.runningTask_eq_ok hcur).1
  have hmark : current.abortRequested = true := by simpa [marked, hfind] using h
  rcases hspared id haborted with hprev | hruns
  · exact .inl hprev
  · exact .inr (.inr ⟨task, current, hfind, hmark, hruns⟩)

theorem keeps_inbox_taskCommit (step : Tasks.Step) : Ensures (fun t => t = s) (taskCommit step)
      (fun _ t => s.toWorkflow.Spared s.Waits t.toWorkflow ∧ t.inbox = s.inbox) fun _ => True := by
  have hspares := (spares_taskCommit step).at (Workflow.spared_start s.toWorkflow s.Waits)
  have hinbox : Ensures (fun t => t = s) (taskCommit step) (fun _ t => t.inbox = s.inbox) fun _ => True := by
    refine Ensures.bind (Q := fun r t => r = s ∧ t = s) (ensures_get fun t ht => ⟨ht, ht⟩) fun r => ?_
    apply ensures_assume
    rintro rfl
    refine ensures_checkAt.bind fun tables => ?_
    apply ensures_assume
    intro _
    rintro t rfl
    rfl
  exact (hspares.and hinbox).mono (fun _ ht => ⟨ht, ht⟩) (fun _ _ ht => ht) fun _ ht => ht

/-- **One commit** aborts what waits, and the inputs of a marked task's run. -/
theorem spares_callback {step : Step} (h : justified s step = true) : Ensures (fun t => t = s) (callback builtin step)
      (fun _ t => s.toWorkflow.Spared (Warranted s) t.toWorkflow) fun _ => True := by
  have hstart := Workflow.spared_start s.toWorkflow (Warranted s)
  have hwaits : ∀ {t : State}, s.toWorkflow.Spared s.Waits t.toWorkflow →
      s.toWorkflow.Spared (Warranted s) t.toWorkflow :=
    fun ht id haborted => (ht id haborted).imp_right .inl
  cases step with
  | submit c draft now =>
    exact ((spares_inWorkflow (Workflow.spares_admitSubmission _ c draft now)).bind fun _ =>
      spares_pure _).at hstart
  | abortSubmission id c =>
    apply Ensures.zoom
    rintro t rfl
    exact (Workflow.spares_abortSubmission id c).mono (fun _ hw => hw) (fun _ _ hw => hwaits hw) fun _ hw => hw
  | abortConversation c background =>
    refine (keeps_inbox_taskCommit _).bind fun _ => ?_
    apply Ensures.zoom
    rintro t ⟨ht, hinbox⟩
    exact (Workflow.spares_withdrawQueuedInputs c ht hinbox).mono (fun _ hw => hw)
      (fun _ _ hw => hwaits hw) fun _ hw => hw
  | append c draft => exact (spares_inWorkflow (spares_appendEntries c [draft])).at hstart
  | createConversation parent owner =>
    refine Spares.at ?_ hstart
    refine spares_get fun t => ?_
    cases owner with
    | none => exact spares_inWorkflow (Workflow.spares_createConversation parent none)
    | some owner =>
      refine spares_check.bind fun record => ?_
      exact (spares_inWorkflow (Workflow.spares_createConversation parent _)).bind fun _ =>
        spares_check
  | compact c input =>
    exact ((spares_createCompactionTask builtin c input none false).bind fun _ =>
      spares_pure _).at hstart
  | generation task work now => exact spares_generation h
  | abortRun task entries now => exact spares_abortHandler h
  | compaction task work now =>
    apply spares_commitWith
    exact fun current _ => (spares_compactionWork builtin current work).at hstart
  | abortCompaction task now =>
    apply spares_commitWith
    intro current _
    refine Spares.at (Spares.bind (spares_modify fun _ => ?_) fun _ => spares_pure _) hstart
    rfl
  | task step =>
    refine Spares.at ?_ hstart
    exact spares_get fun _ => spares_check.bind fun _ => spares_taskCommit step

/-- What a commit has aborted was aborted before, or there was a warrant for it. -/
theorem commit_warranted {step : Step} (h : justified s step = true)
    {id : SubmissionId} (haborted : (commit builtin s step).Aborted id) : s.Aborted id ∨ Warranted s id := by
  have htriple : Ensures (fun t => t = s) (callback builtin step)
      (fun _ t => s.toWorkflow.Spared (Warranted s) t.toWorkflow) fun _ => True := spares_callback h
  have hstep := htriple s rfl
  unfold commit at haborted
  cases hrun : callback builtin step s with
  | ok _ t =>
    rw [hrun] at haborted hstep
    exact hstep id haborted
  | error _ t =>
    rw [hrun] at haborted
    exact .inl haborted

end Generations

end CodingHarness.Durable
