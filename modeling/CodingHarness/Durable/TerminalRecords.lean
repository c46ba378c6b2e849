import CodingHarness.Durable.Staging

/-!
# Terminal records

Task and submission writes replace whole records, and the storage below lets the last write win, so
that a terminal record stays as it is depends on what a Session puts into a batch. A task write is
staged under its identity, and the assembly refuses every staged identity whose committed task is
terminal unless the transaction created it, with an identity above every stored one. A submission
write carries a record that the assembly resolved from the committed one: a chain of
`apply_submission_change`, which leaves a terminal record alone. It sets an entry only when a queued
record is placed, so that an entry stays once the record has left the queue (`Follows`), unless a
settlement names the status `queued`: the text is not checked. Both facts are carried over whole runs
by `Later`.
-/

namespace CodingHarness.Durable

open Library Support Chord

/-! ## Submission changes -/

namespace SubmissionRecord

/-- The record has left the queue. -/
def Unqueued (record : SubmissionRecord) : Prop := record.status ≠ "queued"

/-- What may come after a record: a terminal record stays, and out of the queue the entry stays where
no settlement puts the record back. -/
structure Follows (kept : Prop) (old new : SubmissionRecord) : Prop where
  id : new.id = old.id
  terminal : old.isTerminal = true → new = old
  entry : kept → old.Unqueued → new.Unqueued ∧ new.entry = old.entry

theorem Follows.refl (kept : Prop) (record : SubmissionRecord) : Follows kept record record :=
  ⟨rfl, fun _ => rfl, fun _ h => ⟨h, rfl⟩⟩

theorem Follows.trans {kept : Prop} {a b c : SubmissionRecord} (hab : Follows kept a b) (hbc : Follows kept b c) :
    Follows kept a c where
  id := hbc.id.trans hab.id
  terminal h := by
    have hb := hab.terminal h
    subst hb
    exact hbc.terminal h
  entry hkept h := by
    obtain ⟨hb, hentry⟩ := hab.entry hkept h
    obtain ⟨hc, hentry'⟩ := hbc.entry hkept hb
    exact ⟨hc, hentry'.trans hentry⟩

end SubmissionRecord

/-- The change leaves the submissions that are `kept` out of the queue. -/
def SubmissionChange.Spares (kept : SubmissionId → Prop) : SubmissionChange → Prop
  | .settle id settlement => kept id → settlement.status ≠ "queued"
  | .place _ _ => True

variable {kept : SubmissionId → Prop}

open SubmissionRecord in
/-- **One change of a submission.** -/
theorem applySubmissionChange_follows {current next : SubmissionRecord} {change : SubmissionChange}
    (h : applySubmissionChange current change = .ok next) (hspares : change.Spares kept) :
    Follows (kept change.id) current next := by
  cases changed h with
  | ended => exact Follows.refl _ _
  | placed id entry hopen hqueued =>
    -- a queued record has not left the queue
    exact ⟨rfl, fun h => absurd h hopen, fun _ h => absurd hqueued h⟩
  | settled id settlement hopen => exact ⟨rfl, fun h => absurd h hopen, fun hkept _ => ⟨hspares hkept, rfl⟩⟩

variable {id : SubmissionId}

theorem applySubmissionChange_place {current next : SubmissionRecord}
    {entry : EntryId} (h : applySubmissionChange current (.place id entry) = .ok next) :
    next.Unqueued := by
  cases changed h with
  | ended hended =>
    intro hqueued
    simp [SubmissionRecord.isTerminal, hqueued] at hended
  | placed =>
    by_cases hinput : current.type = "input"
    · simp [SubmissionRecord.Unqueued, hinput]
    · simp [SubmissionRecord.Unqueued, hinput]

/-! ## Resolution -/

/-- The record a staged change meets: the staged candidate first, then the committed one. -/
def candidate (storage : StorageState) (staged : OrdMap SubmissionId SubmissionRecord)
    (id : SubmissionId) : Option SubmissionRecord :=
  (staged.find id).or (storage.submissions.find id)

/-- Every record of a map stands under its own identity. -/
def Named (records : OrdMap SubmissionId SubmissionRecord) : Prop :=
  ∀ id record, records.find id = some record → record.id = id

/-- What a resolution leads to: every candidate is followed by one, and the map stays named. -/
structure Resolves (kept : SubmissionId → Prop) (storage : StorageState)
    (staged staged' : OrdMap SubmissionId SubmissionRecord) : Prop where
  named : Named staged → Named staged'
  follows : ∀ id old, candidate storage staged id = some old →
    ∃ new, candidate storage staged' id = some new ∧ SubmissionRecord.Follows (kept id) old new

variable {storage : StorageState}

theorem Resolves.trans {a b c : OrdMap SubmissionId SubmissionRecord}
    (hab : Resolves kept storage a b) (hbc : Resolves kept storage b c) : Resolves kept storage a c where
  named h := hbc.named (hab.named h)
  follows id old h := by
    obtain ⟨mid, hmid, hfirst⟩ := hab.follows id old h
    obtain ⟨new, hnew, hsnd⟩ := hbc.follows id mid hmid
    exact ⟨new, hnew, hfirst.trans hsnd⟩

variable {staged : OrdMap SubmissionId SubmissionRecord}

theorem candidate_insert {id other : SubmissionId} {record : SubmissionRecord} :
    candidate storage (staged.insert id record) other
      = if other = id then some record else candidate storage staged other := by
  unfold candidate
  by_cases h : other = id <;> simp [h]

theorem Resolves.insert
    {old new : SubmissionRecord} (hold : candidate storage staged id = some old)
    (hid : old.id = id) (hnew : SubmissionRecord.Follows (kept id) old new) :
    Resolves kept storage staged (staged.insert id new) where
  named h other record hfind := by
    rcases OrdMap.find_insert_cases hfind with ⟨heq, rfl⟩ | hfind
    · rw [hnew.id, hid, heq]
    · exact h other record hfind
  follows other before hprev := by
    rw [candidate_insert]
    by_cases heq : other = id
    · subst heq
      rw [hold] at hprev
      cases hprev
      exact ⟨new, by simp, hnew⟩
    · exact ⟨before, by simpa [heq] using hprev, .refl _ _⟩

section Resolution

variable {staged' : OrdMap SubmissionId SubmissionRecord} {record : SubmissionRecord}

theorem committedSubmission_eq_ok (h : Transaction.committedSubmission storage id = .ok record) :
    storage.submissions.find id = some record := by
  simp only [Transaction.committedSubmission, StorageState.submission, StorageState.reading,
    bind_eq_ok, present_eq_ok] at h
  obtain ⟨found, hfound, rfl⟩ := h
  split at hfound
  · cases hfound
  · exact Except.ok.inj hfound

variable {change : SubmissionChange}

theorem resolveSubmission_cases (h : Transaction.resolveSubmission storage staged change = .ok staged') :
    ∃ old new, candidate storage staged change.id = some old ∧ applySubmissionChange old change = .ok new ∧
      (staged' = staged.insert change.id new ∨ (staged' = staged ∧ new.same old = true)) := by
  unfold Transaction.resolveSubmission at h
  split at h
  · rename_i old hold
    simp only [bind_eq_ok, pure_eq_ok] at h
    obtain ⟨new, hnew, rfl⟩ := h
    exact ⟨old, new, by simp [candidate, hold], hnew, Or.inl rfl⟩
  rename_i hnone
  simp only [bind_eq_ok] at h
  obtain ⟨old, hold, new, hnew, h⟩ := h
  refine ⟨old, new, by simp [candidate, hnone, committedSubmission_eq_ok hold], hnew, ?_⟩
  split at h
  · rename_i hsame
    cases h
    exact Or.inr ⟨rfl, hsame⟩
  · cases h
    exact Or.inl rfl

theorem candidate_id (hstored : Named storage.submissions) (hstaged : Named staged)
    (h : candidate storage staged id = some record) : record.id = id := by
  rcases Option.or_eq_some_iff.1 h with h | ⟨-, h⟩
  · exact hstaged id record h
  · exact hstored id record h

theorem unqueued_of_same {a b : SubmissionRecord} (h : a.same b = true) (ha : a.Unqueued) : b.Unqueued := by
  have hstat : a.status = b.status := by
    simp only [SubmissionRecord.same, Bool.and_eq_true, beq_iff_eq] at h
    exact h.1.1.1.1.2
  unfold SubmissionRecord.Unqueued at ha ⊢
  rwa [hstat] at ha

theorem resolveSubmission_resolves (hstored : Named storage.submissions)
    (hstaged : Named staged) (hspares : change.Spares kept)
    (h : Transaction.resolveSubmission storage staged change = .ok staged') : Resolves kept storage staged staged' := by
  obtain ⟨old, new, hold, hnew, rfl | ⟨rfl, -⟩⟩ := resolveSubmission_cases h
  · exact .insert hold (candidate_id hstored hstaged hold) (applySubmissionChange_follows hnew hspares)
  · exact ⟨id, fun other before hprev => ⟨before, hprev, .refl _ _⟩⟩

/-- **The resolution of a transaction.** Every candidate is followed by one. -/
theorem resolveSubmissions_resolves {changes : List SubmissionChange}
    (hstored : Named storage.submissions) (hstaged : Named staged) (hspares : ∀ change ∈ changes, change.Spares kept)
    (h : Transaction.resolveSubmissions storage staged changes = .ok staged') :
    Resolves kept storage staged staged' := by
  induction changes generalizing staged with
  | nil =>
    cases h
    exact ⟨id, fun _ before hprev => ⟨before, hprev, .refl _ _⟩⟩
  | cons change rest ih =>
    simp only [Transaction.resolveSubmissions, bind_eq_ok] at h
    obtain ⟨mid, hmid, hrest⟩ := h
    have hfirst := resolveSubmission_resolves hstored hstaged (hspares change List.mem_cons_self) hmid
    exact hfirst.trans (ih (hfirst.named hstaged) (fun c hc => hspares c (List.mem_cons_of_mem _ hc)) hrest)

end Resolution

/-! ## Staged task and submission writes -/

/-- What a callback that started with the next identity `low` has staged: its task writes are known
by their identities, what it created is above every older identity, and no submission is written
before the assembly. -/
structure Recorded (low : Int) (w : Work) : Prop where
  later : low ≤ w.session.storage.nextId
  tasks : ∀ task, .task (some task) ∈ w.tx.writes → w.tx.stagedTasks.contains task.id = true
  created : ∀ id, w.tx.createdTasks.contains id = true → low ≤ id
  unwritten : ∀ record, .submission record ∉ w.tx.writes
  named : Named w.tx.stagedSubmissions
  fresh : ∀ id, (w.tx.stagedSubmissions.find id).isSome → low ≤ id

theorem recorded_start (s : Session) : Recorded s.storage.nextId ⟨s, {}⟩ where
  later := le_refl _
  tasks task h := by simp at h
  created id h := by cases h
  unwritten record h := by simp at h
  named id record h := by cases h
  fresh id h := by cases h

/-- A write of neither a task nor a submission. -/
def IsOther (write : StorageWrite) : Prop :=
  (∀ task, write ≠ .task (some task)) ∧ ∀ submission, write ≠ .submission submission

variable {write : StorageWrite}

theorem IsRecord.other (h : IsRecord write) : IsOther write := by
  cases write with
  | conversation record | entry record => exact ⟨fun _ => nofun, fun _ => nofun⟩
  | _ => exact h.elim

theorem IsForkWrite.other {low high : Int} (h : IsForkWrite low high write) : IsOther write := by
  rcases h with h | ⟨record, source, rfl, -⟩
  · exact h.other
  · exact ⟨fun _ => nofun, fun _ => nofun⟩

section Recorded

variable {low : Int} {w w' : Work}

theorem Recorded.push (h : Recorded low w) (writes : List StorageWrite) (hwrites : ∀ write ∈ writes, IsOther write)
    (hnext : w.session.storage.nextId ≤ w'.session.storage.nextId)
    (htx : w'.tx = { w.tx with writes := w.tx.writes ++ writes }) : Recorded low w' where
  later := h.later.trans hnext
  tasks task hmem := by
    rw [htx] at hmem ⊢
    rcases List.mem_append.1 hmem with hmem | hmem
    · exact h.tasks task hmem
    · exact absurd rfl ((hwrites _ hmem).1 task)
  created id hid := by
    rw [htx] at hid
    exact h.created id hid
  unwritten record hmem := by
    rw [htx] at hmem
    rcases List.mem_append.1 hmem with hmem | hmem
    · exact h.unwritten record hmem
    · exact absurd rfl ((hwrites _ hmem).2 record)
  named := by
    rw [htx]
    exact h.named
  fresh id hid := by
    rw [htx] at hid
    exact h.fresh id hid

theorem Recorded.frame (h : Recorded low w) (hnext : w.session.storage.nextId ≤ w'.session.storage.nextId)
    (hwrites : w'.tx.writes = w.tx.writes) (htasks : w'.tx.stagedTasks = w.tx.stagedTasks)
    (hmade : w'.tx.createdTasks = w.tx.createdTasks)
    (hsubs : w'.tx.stagedSubmissions = w.tx.stagedSubmissions) : Recorded low w' where
  later := h.later.trans hnext
  tasks task hmem := by
    rw [hwrites] at hmem
    rw [htasks]
    exact h.tasks task hmem
  created id hid := h.created id (by rwa [hmade] at hid)
  unwritten record hmem := h.unwritten record (by rwa [hwrites] at hmem)
  named := by
    rw [hsubs]
    exact h.named
  fresh id hid := h.fresh id (by rwa [hsubs] at hid)

theorem Recorded.withTask (h : Recorded low w) (task : TaskRecord) :
    Recorded low { w with tx := w.tx.withTask task } where
  later := h.later
  tasks other hmem := by
    rw [Transaction.withTask, OrdMap.contains_insert, Bool.or_eq_true, decide_eq_true_iff]
    rcases List.mem_append.1 hmem with hmem | hmem
    · exact Or.inr (h.tasks other hmem)
    rw [List.mem_singleton] at hmem
    cases hmem
    exact Or.inl rfl
  created := h.created
  unwritten record hmem := by
    rcases List.mem_append.1 hmem with hmem | hmem
    · exact h.unwritten record hmem
    · rw [List.mem_singleton] at hmem
      cases hmem
  named := h.named
  fresh := h.fresh

theorem Effect.recorded (hw : Effect w w') (h : Recorded low w) : Recorded low w' := by
  obtain ⟨count, hstor⟩ := hw.storage
  have hnext : w.session.storage.nextId ≤ w'.session.storage.nextId := by
    rw [hstor]
    change _ ≤ w.session.storage.nextId + (count : Int)
    omega
  cases hw with
  | record write hwrite =>
    refine h.push [write] (fun other hother => ?_) hnext rfl
    rw [List.mem_singleton.1 hother]
    exact hwrite.other
  | fork writes count hwrites =>
    exact h.push writes (fun write hwrite => (hwrites write hwrite).other) hnext rfl
  | setTask task => exact h.withTask task
  | createTask task hid =>
    have hstaged := h.withTask task
    refine ⟨h.later.trans hnext, hstaged.tasks, fun id hmade => ?_, hstaged.unwritten, h.named, h.fresh⟩
    rw [OrdMap.contains_insert, Bool.or_eq_true, decide_eq_true_iff] at hmade
    rcases hmade with rfl | hmade
    · rw [hid]
      exact h.later
    · exact h.created id hmade
  | createSubmission submission hid =>
    refine ⟨h.later.trans hnext, h.tasks, h.created, h.unwritten, fun id record hfind => ?_, fun id hfind => ?_⟩
    · rw [OrdMap.find_emplace, Option.or_eq_some_iff] at hfind
      rcases hfind with hfind | ⟨-, hfind⟩
      · exact h.named id record hfind
      split at hfind
      · rename_i heq
        cases hfind
        exact heq.symm
      · cases hfind
    rw [OrdMap.find_emplace, Option.isSome_or, Bool.or_eq_true] at hfind
    rcases hfind with hfind | hfind
    · exact h.fresh id hfind
    split at hfind
    · rename_i heq
      rw [heq, hid]
      exact h.later
    · cases hfind
  | _ => exact h.frame hnext rfl rfl rfl rfl

end Recorded

/-! ## The assembled batch -/

/-- What an assembly is made of. -/
structure Assembled (w : Work) (assembly : Assembly)
    (submissions : OrdMap SubmissionId SubmissionRecord) : Prop where
  resolved : Transaction.resolveSubmissions w.session.storage w.tx.stagedSubmissions
    w.tx.submissionChanges = .ok submissions
  replaced : Transaction.checkReplacedTasks w (w.tx.stagedTasks.entries.map Prod.fst) = .ok ()
  prepared : prepareDocuments w.tx.documents = .ok assembly.documents
  writes : assembly.writes = (w.tx.writes ++ submissions.values.map fun record =>
    .submission (some record)) ++ assembly.documents.flatMap PreparedDocument.writes

theorem assemble_eq_ok {w : Work} {assembly : Assembly}
    (h : Transaction.assemble w = .ok assembly) : ∃ submissions, Assembled w assembly submissions := by
  simp only [Transaction.assemble, bind_eq_ok, pure_eq_ok] at h
  obtain ⟨submissions, hresolved, _, hreplaced, _, -, _, -, documents, hdocs, rfl⟩ := h
  exact ⟨submissions, hresolved, hreplaced, hdocs, rfl⟩

theorem checkReplacedTasks_eq_ok {w : Work} {ids : List TaskId}
    (h : Transaction.checkReplacedTasks w ids = .ok ()) {id : TaskId} (hid : id ∈ ids)
    (hmade : w.tx.createdTasks.contains id = false) {task : TaskRecord}
    (htask : w.session.storage.tasks.find id = some task) : task.state.status ≠ Transaction.terminal := by
  induction ids with
  | nil => cases hid
  | cons first rest ih =>
    unfold Transaction.checkReplacedTasks at h
    split at h
    · rename_i hskip
      rcases List.mem_cons.1 hid with rfl | hid
      · rw [hmade] at hskip
        cases hskip
      · exact ih h hid
    simp only [bind_eq_ok, refuse_eq_ok] at h
    obtain ⟨committed, hcommit, _, hlive, hrest⟩ := h
    rcases List.mem_cons.1 hid with rfl | hid
    · simp only [StorageState.task, StorageState.reading] at hcommit
      split at hcommit
      · cases hcommit
      cases hcommit
      rw [htask] at hlive
      simpa using hlive
    · exact ih hrest hid

theorem PreparedDocument.writes_other {p : PreparedDocument} (h : write ∈ p.writes) : IsOther write := by
  have hcont : IsOther p.contentWrite := by
    unfold PreparedDocument.contentWrite
    split
    · split <;> exact ⟨fun _ => nofun, fun _ => nofun⟩
    · exact ⟨fun _ => nofun, fun _ => nofun⟩
  have hretire : IsOther (.documentRetire (some p.document.record.id)) := ⟨fun _ => nofun, fun _ => nofun⟩
  unfold PreparedDocument.writes at h
  split at h
  · cases h
  split at h
  · rwa [List.mem_singleton.1 h]
  split at h
  · rcases List.mem_cons.1 h with rfl | h
    · exact hcont
    · rwa [List.mem_singleton.1 h]
  · rwa [List.mem_singleton.1 h]

namespace StorageState

def insertTask (tasks : OrdMap TaskId TaskRecord) : StorageWrite → OrdMap TaskId TaskRecord
  | .task (some record) => tasks.insert record.id record
  | _ => tasks

def insertSubmission (submissions : OrdMap SubmissionId SubmissionRecord) :
    StorageWrite → OrdMap SubmissionId SubmissionRecord
  | .submission (some record) => submissions.insert record.id record
  | _ => submissions

/-- A storage whose mints are fresh for its tasks and submissions. -/
structure MintsFresh (s : StorageState) : Prop where
  tasks : ∀ id task, s.tasks.find id = some task → id < s.nextId
  submissions : ∀ id record, s.submissions.find id = some record → record.id = id ∧ id < s.nextId

section Tables

variable {documents : OrdMap DocumentId StoredDocumentState} {batch : List StorageWrite} {seq : Seq}
  {consumeSeq : Bool} {next next' : StorageState}

theorem applyWrite_tables {write : StorageWrite}
    (h : applyWrite documents batch seq consumeSeq next write = .ok next') :
    next'.tasks = insertTask next.tasks write ∧ next'.submissions = insertSubmission next.submissions write ∧
      (MintsFresh next → MintsFresh next') := by
  have hnext := applyWrite_nextId h
  have hgrow : next'.tasks = next.tasks → next'.submissions = next.submissions →
      MintsFresh next → MintsFresh next' := by
    intro htasks hsubs hfresh
    refine ⟨fun id task hfind => ?_, fun id record hfind => ?_⟩
    · rw [htasks] at hfind
      exact lt_of_lt_of_le (hfresh.tasks id task hfind) hnext
    rw [hsubs] at hfind
    obtain ⟨hid, hlt⟩ := hfresh.submissions id record hfind
    exact ⟨hid, lt_of_lt_of_le hlt hnext⟩
  cases applied h
  case task =>
    refine ⟨rfl, rfl, fun hfresh => ⟨fun id task hfind => ?_, fun id record hfind => ?_⟩⟩
    · rw [OrdMap.find_insert] at hfind
      split at hfind
      · rename_i heq
        subst heq
        exact lt_of_lt_of_le (lt_add_one _) (le_max_right _ _)
      · exact lt_of_lt_of_le (hfresh.tasks id task hfind) hnext
    · obtain ⟨hid, hlt⟩ := hfresh.submissions id record hfind
      exact ⟨hid, lt_of_lt_of_le hlt hnext⟩
  case submission =>
    refine ⟨rfl, rfl, fun hfresh => ⟨fun id task hfind => ?_, fun id record hfind => ?_⟩⟩
    · exact lt_of_lt_of_le (hfresh.tasks id task hfind) hnext
    rcases OrdMap.find_insert_cases hfind with ⟨rfl, rfl⟩ | hfind
    · exact ⟨rfl, lt_of_lt_of_le (lt_add_one _) (le_max_right _ _)⟩
    · obtain ⟨hid, hlt⟩ := hfresh.submissions id record hfind
      exact ⟨hid, lt_of_lt_of_le hlt hnext⟩
  all_goals exact ⟨rfl, rfl, hgrow rfl rfl⟩

theorem applyWrites_tables {writes : List StorageWrite}
    (h : applyWrites documents batch seq consumeSeq next writes = .ok next') :
    next'.tasks = writes.foldl insertTask next.tasks ∧
      next'.submissions = writes.foldl insertSubmission next.submissions ∧ (MintsFresh next → MintsFresh next') := by
  induction writes generalizing next with
  | nil =>
    cases h
    exact ⟨rfl, rfl, id⟩
  | cons write rest ih =>
    obtain ⟨updated, hwrite, hrest⟩ := applyWrites_cons_eq_ok.1 h
    obtain ⟨htasks, hsubs, hfresh⟩ := applyWrite_tables hwrite
    obtain ⟨htasks', hsubs', hfresh'⟩ := ih hrest
    exact ⟨by rw [htasks', htasks]; rfl, by rw [hsubs', hsubs]; rfl,
      fun hstart => hfresh' (hfresh hstart)⟩

end Tables

variable {writes : List StorageWrite}

theorem applyNext_tables {s s' : StorageState} (h : s.applyNext writes = .ok s') :
    s'.tasks = writes.foldl insertTask s.tasks ∧ s'.submissions = writes.foldl insertSubmission s.submissions ∧
      (MintsFresh s → MintsFresh s') := by
  obtain ⟨-, next, hwrites, rfl⟩ := applyBatch_eq_ok.1 h
  obtain ⟨htasks, hsubs, hfresh⟩ := applyWrites_tables hwrites
  exact ⟨htasks, hsubs, fun hstart => ⟨(hfresh hstart).tasks, (hfresh hstart).submissions⟩⟩

theorem find_foldl_insertTask {tasks : OrdMap TaskId TaskRecord}
    {id : TaskId} (h : ∀ task, .task (some task) ∈ writes → task.id ≠ id) :
    (writes.foldl insertTask tasks).find id = tasks.find id := by
  induction writes generalizing tasks with
  | nil => rfl
  | cons write rest ih =>
    rw [List.foldl_cons, ih fun task hmem => h task (List.mem_cons_of_mem _ hmem)]
    cases write with
    | task record =>
      cases record with
      | none => rfl
      | some record =>
        have hne := h record List.mem_cons_self
        rw [insertTask, OrdMap.find_insert, if_neg (Ne.symm hne)]
    | _ => rfl

theorem foldl_insertSubmission_other (writes : List StorageWrite) {submissions : OrdMap SubmissionId SubmissionRecord}
    (h : ∀ record, .submission record ∉ writes) : writes.foldl insertSubmission submissions = submissions := by
  induction writes generalizing submissions with
  | nil => rfl
  | cons write rest ih =>
    rw [List.foldl_cons, ih fun record hmem => h record (List.mem_cons_of_mem _ hmem)]
    cases write with
    | submission record => exact absurd List.mem_cons_self (h record)
    | _ => rfl

end StorageState

/-! ## Runs -/

namespace StorageState

/-- What every later storage keeps of an earlier one. -/
structure Later (kept : SubmissionId → Prop) (s s' : StorageState) : Prop where
  task : ∀ id task, s.tasks.find id = some task → task.state.status = Transaction.terminal →
    s'.tasks.find id = some task
  submission : ∀ id record, s.submissions.find id = some record →
    ∃ later, s'.submissions.find id = some later ∧ SubmissionRecord.Follows (kept id) record later

theorem Later.refl (s : StorageState) : Later kept s s where
  task _ _ h _ := h
  submission _ record h := ⟨record, h, .refl _ _⟩

theorem Later.trans {a b c : StorageState} (hab : Later kept a b) (hbc : Later kept b c) : Later kept a c where
  task id task h hterm := hbc.task id task (hab.task id task h hterm) hterm
  submission id record h := by
    obtain ⟨mid, hmid, hfirst⟩ := hab.submission id record h
    obtain ⟨last, hlast, hsnd⟩ := hbc.submission id mid hmid
    exact ⟨last, hlast, hfirst.trans hsnd⟩

theorem nextId_le_advanced (s : StorageState) (count : Nat) : s.nextId ≤ (s.advanced count).nextId := by
  change s.nextId ≤ s.nextId + (count : Int)
  omega

theorem MintsFresh.advanced {s : StorageState} (h : s.MintsFresh) (count : Nat) : (s.advanced count).MintsFresh where
  tasks id task hfind := lt_of_lt_of_le (h.tasks id task hfind) (s.nextId_le_advanced count)
  submissions id record hfind := by
    obtain ⟨hid, hlt⟩ := h.submissions id record hfind
    exact ⟨hid, lt_of_lt_of_le hlt (s.nextId_le_advanced count)⟩

theorem MintsFresh.named {s : StorageState} (h : s.MintsFresh) : Named s.submissions :=
  fun id record hfind => (h.submissions id record hfind).1

end StorageState

section Commit

variable {s : Session} {calls : List Transaction.Call} {w : Work} {assembly : Assembly}

theorem Session.Committed.effects (h : Session.Committed s calls w assembly storage) : Effects ⟨s, {}⟩ w := by
  rw [h.callback]
  exact effects_calls _ calls

theorem Session.Committed.recorded (h : Session.Committed s calls w assembly storage) : Recorded s.storage.nextId w :=
  h.effects.invariant (fun _ _ heffect hrecorded => heffect.recorded hrecorded) (recorded_start s)

/-- The submission changes of a callback are those of its calls. -/
theorem EffectsOf.changes {allowed : SubmissionChange → Prop} {start w : Work} (h : EffectsOf allowed start w)
    (hstart : ∀ change ∈ start.tx.submissionChanges, allowed change) :
    ∀ change ∈ w.tx.submissionChanges, allowed change := by
  induction h with
  | refl => exact hstart
  | tail _ hlast ih =>
    cases hlast with
    | changeSubmission change hallowed =>
      intro other hmem
      rcases List.mem_append.1 hmem with hmem | hmem
      · exact ih other hmem
      · rw [List.mem_singleton.1 hmem]
        exact hallowed
    | _ => exact ih

/-- No call puts a submission that is `kept` back into the queue. -/
def Spare (kept : SubmissionId → Prop) (calls : List Transaction.Call) : Prop :=
  ∀ c ∈ calls, ∀ change ∈ c.change, change.Spares kept

section

variable (h : Session.Committed s calls w assembly storage)
include h

theorem Session.Committed.spares (hspare : Spare kept calls) :
    ∀ change ∈ w.tx.submissionChanges, change.Spares kept := by
  have heffects : EffectsOf (SubmissionChange.Spares kept) ⟨s, {}⟩ w := by
    rw [h.callback]
    exact effectsOf_calls _ calls hspare
  exact heffects.changes fun change hmem => by cases hmem

theorem Session.Committed.submissions
    {resolved : OrdMap SubmissionId SubmissionRecord} (ha : Assembled w assembly resolved)
    (hnamed : Named resolved) (id : SubmissionId) :
    storage.submissions.find id = candidate w.session.storage resolved id := by
  obtain ⟨-, hsubs, -⟩ := StorageState.applyNext_tables h.applied
  rw [hsubs, ha.writes, List.foldl_append, List.foldl_append,
    StorageState.foldl_insertSubmission_other _ h.recorded.unwritten,
    StorageState.foldl_insertSubmission_other (assembly.documents.flatMap _) ?_,
    List.foldl_map]
  · exact OrdMap.find_insertValues w.session.storage.submissions resolved SubmissionRecord.id hnamed id
  intro record hmem
  obtain ⟨p, -, hmem⟩ := List.mem_flatMap.1 hmem
  exact (PreparedDocument.writes_other hmem).2 record rfl

theorem Session.Committed.task_writes
    (hfresh : s.storage.MintsFresh) {id : TaskId} {task : TaskRecord} (hfind : s.storage.tasks.find id = some task)
    (hterm : task.state.status = Transaction.terminal) {other : TaskRecord}
    (hmem : .task (some other) ∈ assembly.writes) : other.id ≠ id := by
  rintro rfl
  obtain ⟨resolved, ha⟩ := assemble_eq_ok h.assembled
  obtain ⟨count, hstor⟩ := h.effects.storage
  have hcommit : w.session.storage.tasks.find other.id = some task := by
    rw [hstor]
    exact hfind
  -- the write was staged by the callback
  have hwrite : .task (some other) ∈ w.tx.writes := by
    rw [ha.writes] at hmem
    rcases List.mem_append.1 hmem with hmem | hmem
    · rcases List.mem_append.1 hmem with hmem | hmem
      · exact hmem
      · simp at hmem
    · obtain ⟨p, -, hmem⟩ := List.mem_flatMap.1 hmem
      exact absurd rfl ((PreparedDocument.writes_other hmem).1 other)
  have hstaged := h.recorded.tasks other hwrite
  obtain ⟨staged, hstaged⟩ := (OrdMap.contains_eq_true_iff _ _).1 hstaged
  have hlisted : other.id ∈ w.tx.stagedTasks.entries.map Prod.fst :=
    List.mem_map.2 ⟨_, (OrdMap.find_eq_some_iff _ _ _).1 hstaged, rfl⟩
  cases hmade : w.tx.createdTasks.contains other.id with
  | true =>
    have hlow := h.recorded.created other.id hmade
    exact absurd (hfresh.tasks other.id task hfind) (not_lt.2 hlow)
  | false => exact checkReplacedTasks_eq_ok ha.replaced hlisted hmade hcommit hterm

/-- **One commit.** -/
theorem Session.Committed.later
    (hfresh : s.storage.MintsFresh) (hspare : Spare kept calls) : StorageState.Later kept s.storage storage := by
  obtain ⟨resolved, ha⟩ := assemble_eq_ok h.assembled
  obtain ⟨count, hstor⟩ := h.effects.storage
  have hwfresh : w.session.storage.MintsFresh := by
    rw [hstor]
    exact hfresh.advanced count
  have hresolves := resolveSubmissions_resolves hwfresh.named h.recorded.named (h.spares hspare) ha.resolved
  refine ⟨fun id task hfind hterm => ?_, fun id record hfind => ?_⟩
  · obtain ⟨htasks, -, -⟩ := StorageState.applyNext_tables h.applied
    have hkept : w.session.storage.tasks.find id = some task := by
      rw [hstor]
      exact hfind
    rw [htasks, StorageState.find_foldl_insertTask, hkept]
    exact fun other hmem => h.task_writes hfresh hfind hterm hmem
  rw [h.submissions ha (hresolves.named h.recorded.named) id]
  apply hresolves.follows id record
  -- a staged submission is new, so the candidate is the committed record
  have hnone : w.tx.stagedSubmissions.find id = none := by
    cases hstaged : w.tx.stagedSubmissions.find id with
    | none => rfl
    | some staged =>
      have hlow := h.recorded.fresh id (by simp [hstaged])
      exact absurd (hfresh.submissions id record hfind).2 (not_lt.2 hlow)
  have hkept : w.session.storage.submissions.find id = some record := by
    rw [hstor]
    exact hfind
  rw [candidate, hnone, hkept]
  rfl

theorem Session.Committed.mintsFresh
    (hfresh : s.storage.MintsFresh) : storage.MintsFresh := by
  obtain ⟨count, hstor⟩ := h.effects.storage
  obtain ⟨-, -, hkeeps⟩ := StorageState.applyNext_tables h.applied
  apply hkeeps
  rw [hstor]
  exact hfresh.advanced count

end

end Commit

namespace Session

/-- The step puts the submission back into the queue: a settlement names the status `queued`. -/
def Step.Requeues (id : SubmissionId) : Step → Prop
  | .commit calls _ => ∃ settlement : SubmissionSettlement,
    .settleSubmission id settlement ∈ calls ∧ settlement.status = "queued"
  | _ => False

theorem Step.spare {calls : List Transaction.Call} {returned : Expected Unit}
    (h : ∀ id, kept id → ¬ (Step.commit calls returned).Requeues id) : Spare kept calls := by
  intro c hmem change hchange
  cases c with
  | settleSubmission id settlement =>
    cases hchange
    exact fun hkept hqueued => h id hkept ⟨settlement, hmem, hqueued⟩
  | placeSubmission id entry =>
    cases hchange
    trivial
  | _ => cases hchange

/-- **One step.** -/
theorem step_later (s : Session) (hfresh : s.storage.MintsFresh) (move : Step)
    (hkept : ∀ id, kept id → ¬ move.Requeues id) :
    StorageState.Later kept s.storage (s.step move).storage ∧ (s.step move).storage.MintsFresh := by
  cases move with
  | commit calls returned =>
    obtain ⟨count, hstor⟩ := (effects_calls ⟨s, {}⟩ calls).storage
    have hcb : StorageState.Later kept s.storage (s.storage.advanced count) ∧ (s.storage.advanced count).MintsFresh :=
      ⟨⟨fun _ _ h _ => h, fun _ record h => ⟨record, h, .refl _ _⟩⟩, hfresh.advanced count⟩
    rw [← hstor] at hcb
    rcases s.commitNow_cases calls returned with ⟨-, hcase⟩ | ⟨outcome, -, hcase⟩ |
      ⟨-, w, assembly, storage, hc, hcase⟩
    · rw [step, hcase]
      exact ⟨.refl _, hfresh⟩
    · rcases hcase with hcase | hcase
      · rw [step, hcase]
        exact hcb
      · rw [step, hcase]
        exact hcb
    · rw [step, hcase, Committed.after, settle_storage]
      exact ⟨hc.later hfresh (Step.spare hkept), hc.mintsFresh hfresh⟩
  | call c =>
    rw [step, call_storage]
    exact ⟨.refl _, hfresh⟩
  | reopen => exact ⟨.refl _, hfresh⟩

/-- **A run.** -/
theorem run_later (s : Session) (hfresh : s.storage.MintsFresh) (steps : List Step)
    (hkept : ∀ move ∈ steps, ∀ id, kept id → ¬ move.Requeues id) :
    StorageState.Later kept s.storage (s.run steps).storage ∧ (s.run steps).storage.MintsFresh := by
  induction steps generalizing s with
  | nil => exact ⟨.refl _, hfresh⟩
  | cons move rest ih =>
    obtain ⟨hfirst, hmid⟩ := s.step_later hfresh move (hkept move List.mem_cons_self)
    obtain ⟨hrest, hlast⟩ := ih (s.step move) hmid fun other hmem => hkept other (List.mem_cons_of_mem _ hmem)
    exact ⟨hfirst.trans hrest, hlast⟩

end Session

/-! ## Placements -/

/-- The transaction places the submission: at its turn, the staged placement meets a queued
candidate and sets the entry. -/
def Places (w : Work) (id : SubmissionId) (entry : EntryId) : Prop :=
  ∃ front back staged record, w.tx.submissionChanges = front ++ .place id entry :: back ∧
    Transaction.resolveSubmissions w.session.storage w.tx.stagedSubmissions front = .ok staged ∧
    candidate w.session.storage staged id = some record ∧ record.status = "queued"

theorem resolveSubmissions_append
    {staged result : OrdMap SubmissionId SubmissionRecord} {front back : List SubmissionChange} :
    Transaction.resolveSubmissions storage staged (front ++ back) = .ok result ↔
      ∃ mid, Transaction.resolveSubmissions storage staged front = .ok mid ∧
        Transaction.resolveSubmissions storage mid back = .ok result := by
  induction front generalizing staged with
  | nil => simp [Transaction.resolveSubmissions]
  | cons change rest ih =>
    simp only [List.cons_append, Transaction.resolveSubmissions, bind_eq_ok, ih]
    constructor
    · rintro ⟨next, hnext, mid, hmid, hback⟩
      exact ⟨mid, ⟨next, hnext, hmid⟩, hback⟩
    · rintro ⟨mid, ⟨next, hnext, hmid⟩, hback⟩
      exact ⟨next, hnext, mid, hmid, hback⟩

theorem applySubmissionChange_queued {current next : SubmissionRecord}
    {entry : EntryId} (hqueued : current.status = "queued")
    (h : applySubmissionChange current (.place id entry) = .ok next) : next.entry = some entry := by
  have hopen : current.isTerminal = false := by simp [SubmissionRecord.isTerminal, hqueued]
  simp only [applySubmissionChange, hopen, hqueued, Bool.false_eq_true, if_false, ne_eq,
    not_true_eq_false, Except.ok.injEq] at h
  rw [← h]

/-- A committed placement has set the entry of a record that has left the queue. -/
theorem Session.Committed.placed {s : Session} {calls : List Transaction.Call} {w : Work}
    {assembly : Assembly} {storage : StorageState}
    (h : Session.Committed s calls w assembly storage) (hfresh : s.storage.MintsFresh) (hspare : Spare kept calls)
    (hkept : kept id) {entry : EntryId} (hplaces : Places w id entry) :
    ∃ record, storage.submissions.find id = some record ∧ record.Unqueued ∧ record.entry = some entry := by
  obtain ⟨resolved, ha⟩ := assemble_eq_ok h.assembled
  obtain ⟨count, hstor⟩ := h.effects.storage
  have hstored : Named w.session.storage.submissions := by
    rw [hstor]
    exact (hfresh.advanced count).named
  obtain ⟨front, back, staged, queued, hchanges, hfront, hqueued, hstat⟩ := hplaces
  have hresolved := ha.resolved
  have hspares := h.spares hspare
  rw [hchanges] at hspares
  rw [hchanges, resolveSubmissions_append] at hresolved
  obtain ⟨mid, hmid, hrest⟩ := hresolved
  rw [hfront] at hmid
  cases hmid
  have hfirst := resolveSubmissions_resolves hstored h.recorded.named
    (fun c hc => hspares c (List.mem_append_left _ hc)) hfront
  have hstaged := hfirst.named h.recorded.named
  simp only [Transaction.resolveSubmissions, bind_eq_ok] at hrest
  obtain ⟨next, hnext, hback⟩ := hrest
  -- the placement meets the queued candidate
  obtain ⟨old, new, hold, hnew, hplaced⟩ := resolveSubmission_cases hnext
  rw [SubmissionChange.id, hqueued] at hold
  cases hold
  have hentry := applySubmissionChange_queued hstat hnew
  have hunqueued := applySubmissionChange_place hnew
  have hcand : candidate w.session.storage next id = some new := by
    rcases hplaced with rfl | ⟨-, hsame⟩
    · simp [candidate_insert, SubmissionChange.id]
    · -- the placed record differs from a queued one
      exact absurd hstat (unqueued_of_same hsame hunqueued)
  have hplace : (SubmissionChange.place id entry).Spares kept := trivial
  have hnextResolves := resolveSubmission_resolves hstored hstaged hplace hnext
  have hbackResolves := resolveSubmissions_resolves hstored (hnextResolves.named hstaged)
    (fun c hc => hspares c (List.mem_append_right _ (List.mem_cons_of_mem _ hc))) hback
  obtain ⟨final, hfinal, hfollows⟩ := hbackResolves.follows id new hcand
  obtain ⟨hleft, hsame⟩ := hfollows.entry hkept hunqueued
  refine ⟨final, ?_, hleft, hsame.trans hentry⟩
  rw [h.submissions ha (hbackResolves.named (hnextResolves.named hstaged)) id]
  exact hfinal

theorem Session.no_kept (steps : List Session.Step) :
    ∀ move ∈ steps, ∀ id, (fun _ : SubmissionId => False) id → ¬ move.Requeues id := fun _ _ _ h => h.elim

/-- **Terminal records are final.** In every run over a storage whose mints are fresh, a terminal
task and a done or unanswered submission stay exactly as they are, and an entry that a commit set by
placement stays while no settlement of the submission names the status `queued`. -/
theorem Session.terminal_records_final (s : Session) (hfresh : s.storage.MintsFresh)
    (before after : List Session.Step) :
    (∀ id task, (s.run before).storage.tasks.find id = some task → task.state.status = "terminal" →
      ((s.run before).run after).storage.tasks.find id = some task) ∧
    (∀ id record, (s.run before).storage.submissions.find id = some record →
      record.status = "done" ∨ record.status = "unanswered" →
      ((s.run before).run after).storage.submissions.find id = some record) ∧ (∀ calls publication placed id entry,
      (s.run before).commitNow calls (.ok ()) = (.committed publication, placed) →
      Places (Transaction.calls ⟨s.run before, {}⟩ calls) id entry →
      (∀ move ∈ .commit calls (.ok ()) :: after, ¬ move.Requeues id) →
      ∃ record, (placed.run after).storage.submissions.find id = some record ∧ record.entry = some entry) := by
  obtain ⟨-, hmid⟩ := s.run_later hfresh before (no_kept before)
  obtain ⟨hlater, -⟩ := (s.run before).run_later hmid after (no_kept after)
  refine ⟨hlater.task, fun id record hfind hstatus => ?_, ?_⟩
  · obtain ⟨last, hlast, hfollows⟩ := hlater.submission id record hfind
    rw [hlast, hfollows.terminal (by simpa [SubmissionRecord.isTerminal] using hstatus)]
  intro calls publication placed id entry hcommit hplaces hkept
  have hmoves : ∀ move ∈ .commit calls (.ok ()) :: after, ∀ other, other = id → ¬ move.Requeues other :=
    fun move hmove other heq => heq ▸ hkept move hmove
  have hspare := Step.spare (hmoves _ List.mem_cons_self)
  obtain ⟨w, assembly, storage, hc, -, rfl⟩ := committed_of_publication hcommit
  rw [← hc.callback] at hplaces
  obtain ⟨record, hrecord, hunqueued, hentry⟩ := hc.placed hmid hspare rfl hplaces
  have hafter : hc.after.storage = storage := by rw [Committed.after, settle_storage]
  have hfresh' : hc.after.storage.MintsFresh := by
    rw [hafter]
    exact hc.mintsFresh hmid
  obtain ⟨hrest, -⟩ := hc.after.run_later hfresh' after fun move hmove => hmoves move (List.mem_cons_of_mem _ hmove)
  rw [hafter] at hrest
  obtain ⟨last, hlast, hfollows⟩ := hrest.submission id record hrecord
  exact ⟨last, hlast, (hfollows.entry rfl hunqueued).2.trans hentry⟩

def endedTask : TaskRecord := { id := 2, conversationId := 1, state := ⟨"terminal", none, [], none, none⟩ }

/-- A root conversation with an ended task and a queued input. -/
def recordsRun : List Session.Step := [.commit [.createRootConversation, .setTask endedTask] (.ok ()),
    .commit [.createSubmission { id := 0, conversationId := 1, type := "input", status := "queued" }]
      (.ok ())]

/-- A replacement of the ended task, and the settlement of the input. -/
def lateRun : List Session.Step := [.commit [.setTask { endedTask with abortRequested := true }] (.ok ()),
    .commit [.settleSubmission 3 { status := "unanswered" }] (.ok ())]

def recordsSession : Session := Session.run { storage := {} } recordsRun

theorem StorageState.mintsFresh_empty : ({} : StorageState).MintsFresh where
  tasks id task h := by cases h
  submissions id record h := by cases h

theorem recordsRun_final : (recordsSession.run lateRun).storage.tasks.find 2 = some endedTask ∧
      ∃ record, ((recordsSession.commitNow [.placeSubmission 3 7] (.ok ())).2.run
          lateRun).storage.submissions.find 3 = some record ∧ record.entry = some 7 := by
  obtain ⟨htasks, -, hplaced⟩ := Session.terminal_records_final { storage := {} } StorageState.mintsFresh_empty
    recordsRun lateRun
  refine ⟨htasks 2 endedTask (by decide +kernel) (by decide +kernel), ?_⟩
  have hcommitted : ∃ publication,
      (recordsSession.commitNow [.placeSubmission 3 7] (.ok ())).1 = .committed publication :=
    ⟨_, rfl⟩
  obtain ⟨publication, hpublication⟩ := hcommitted
  refine hplaced [.placeSubmission 3 7] publication _ 3 7 (Prod.ext hpublication rfl) ?_ ?_
  · exact ⟨[], [], .empty, { id := 3, conversationId := 1, type := "input", status := "queued" }, rfl, rfl,
      by decide +kernel, rfl⟩
  intro move hmove
  rcases List.mem_cons.1 hmove with rfl | hmove
  · rintro ⟨settlement, hmem, -⟩
    simp at hmem
  simp only [lateRun, List.mem_cons, List.not_mem_nil, or_false] at hmove
  rcases hmove with rfl | rfl
  · rintro ⟨settlement, hmem, -⟩
    simp at hmem
  rintro ⟨settlement, hmem, hqueued⟩
  simp only [List.mem_singleton, Transaction.Call.settleSubmission.injEq, true_and] at hmem
  rw [hmem] at hqueued
  revert hqueued
  decide

/-- The settlement of the placed input back into the queue, and its placement at another entry. -/
def requeueRun : List Session.Step := [.commit [.settleSubmission 3 { status := "queued" }] (.ok ()),
    .commit [.placeSubmission 3 8] (.ok ())]

theorem requeueRun_replaces :
    let placed := (recordsSession.commitNow [.placeSubmission 3 7] (.ok ())).2
    (placed.storage.submissions.find 3).map SubmissionRecord.entry = some (some 7) ∧
      ((placed.run requeueRun).storage.submissions.find 3).map SubmissionRecord.entry = some (some 8) := by
  decide +kernel

end CodingHarness.Durable
