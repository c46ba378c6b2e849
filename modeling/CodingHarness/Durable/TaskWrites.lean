import CodingHarness.Durable.Tasks

/-!
# What a commit does to the tasks

`Write` lists every way in which a commit replaces a task record, with what the commit had checked, and
`callback_inverts` says that there is no other. `Created` says what a transaction adds. The results about
runs are derived from these two, so none of them takes a commit apart again.
-/

namespace CodingHarness.Durable

open Library Support
open OrdMap (find_insert find_insert_cases)

namespace Tasks

/-! ## Replaced records -/

/-- A record before and after a write of a commit. -/
inductive Write (s : StorageState) (staged : Staged) : Step → TaskRecord → TaskRecord → Prop where
  | ends {id : TaskId} {allowAbort abortInvocation : Bool} {creations : List Creation}
      {next : NextTaskState} {now : Int} {before : TaskRecord} {held : Bool}
      (status : before.state.status = running) (target : before.id = id)
      (isEnd : next.status = terminal) (made : createAll { tables := s } creations = .ok staged)
      (walk : hasOwnedLiveIn s staged before.id = some held) :
      Write s staged (.commitWith id allowAbort abortInvocation creations (some next) now) before
        (ended before held next.outcome now)
  | waits {id : TaskId} {allowAbort abortInvocation : Bool} {creations : List Creation}
      {next : NextTaskState} {now : Int} {before : TaskRecord} {policy : JoinPolicy}
      (status : before.state.status = running) (target : before.id = id)
      (isWait : next.status = waiting) (made : createAll { tables := s } creations = .ok staged)
      (chosen : next.policy = some policy)
      (valid : validateWait (overlayTasks s staged) before.id policy next.on = .ok ()) :
      Write s staged (.commitWith id allowAbort abortInvocation creations (some next) now) before
        { before with
          state :=
            { status := waiting
              checkpoint := next.checkpoint
              on := next.on
              policy := some policy
              outcome := none } }
  | continues {id : TaskId} {allowAbort abortInvocation : Bool} {creations : List Creation}
      {next : NextTaskState} {now : Int} {before : TaskRecord} {checkpoint : Option Json}
      (status : before.state.status = running) :
      Write s staged (.commitWith id allowAbort abortInvocation creations (some next) now) before
        { before with state := { before.state with checkpoint := checkpoint } }
  | remembers {step : Step} {before : TaskRecord} {memos : OrdMap Bytes Json}
      (status : before.state.status = running) :
      Write s staged step before { before with memos := memos }
  | returns {step : Step} {before : TaskRecord} (status : before.state.status = running) :
      Write s staged step before { before with state := { before.state with status := pending } }
  | marks {step : Step} {before : TaskRecord} {restart : Bool} (alive : live before = true) :
      Write s staged step before (marked restart before)
  | faults {id : TaskId} {message : Bytes} {now : Int} {before : TaskRecord}
      (alive : live before = true) (target : before.id = id) :
      Write s staged (.settleFaulted id message now) before (settled before (faulted message) now)
  | orphans {id : TaskId} {reason : Bytes} {now : Int} {before : TaskRecord}
      (alive : live before = true) (target : before.id = id) :
      Write s staged (.settleOrphaned id reason now) before (settled before (orphaned reason) now)
  | aborts {id : TaskId} {reason : Bytes} {now : Int} {before : TaskRecord}
      (alive : live before = true) (target : before.id = id) :
      Write s staged (.abortTask id (some reason) now) before (settled before (orphaned reason) now)
  | finalizes {seen : StorageState} {now : Int} {before : TaskRecord} {ready : List TaskId}
      {endedAt : Option Int} (status : before.state.status = completing)
      (made : staged = { tables := s }) (found : readyToFinalize seen = .ok ready)
      (mem : before.id ∈ ready) :
      Write s staged (.finalize seen now) before
        { before with state := { before.state with status := terminal }, endedAt := endedAt }
  | resumes {id : TaskId} {before : TaskRecord} (status : before.state.status = waiting) :
      Write s staged (.resume id) before
        { before with state := { before.state with status := pending, on := [], policy := none } }
  | reserves {id : TaskId} {resolved : Resolved} {now : Int} {before : TaskRecord}
      {startedAt : Option Int} (alive : live before = true) (target : before.id = id)
      (free : before.state.status = pending ∨ before.abortRequested = true) :
      Write s staged (.reserve id resolved now) before
        { resolvedRecord before resolved with
          state := { (resolvedRecord before resolved).state with status := running }
          startedAt := startedAt }
  | migrates {id : TaskId} {resolved : Resolved} {before : TaskRecord} (target : before.id = id) :
      Write s staged (.migrate id resolved) before (resolvedRecord before resolved)

variable {s t : StorageState} {step : Step}

theorem Write.place {staged : Staged} {before after : TaskRecord} (h : Write s staged step before after) :
    after.id = before.id ∧ after.owner = before.owner ∧ after.background = before.background ∧
      after.conversationId = before.conversationId := by
  cases h with
  | ends | waits | continues | remembers | returns | marks | faults | orphans | aborts | finalizes
  | resumes | reserves | migrates => exact ⟨rfl, rfl, rfl, rfl⟩

/-- The tasks are stored under their identities. -/
def Keyed (s : StorageState) : Prop := ∀ id record, s.tasks.find id = some record → record.id = id

theorem Keyed.of_mem (h : Keyed s) {record : TaskRecord} (hrec : record ∈ s.tasks.values) :
    s.tasks.find record.id = some record := by
  obtain ⟨entry, hentry, rfl⟩ := List.mem_map.1 hrec
  have hfind := (OrdMap.find_eq_some_iff s.tasks entry.1 entry.2).2 hentry
  rw [h _ _ hfind]
  exact hfind

/-! ## Created records -/

/-- The tables in order: every record has its own identity, and an owner is older than what it owns. -/
structure Sound (s : StorageState) : Prop where
  taskIds : ∀ id record, s.tasks.find id = some record → record.id = id ∧ id < s.nextId
  conversationIds : ∀ id record, s.conversations.find id = some record → record.id = id ∧ id < s.nextId
  owners : ∀ id record, s.tasks.find id = some record → ∀ owner, record.owner = some owner → owner < id
  conversationOwners : ∀ id record, s.conversations.find id = some record →
    ∀ owner, record.owner = some owner → owner.taskId < id

theorem Sound.keyed (h : Sound s) : Keyed s := fun id record hfind =>
  (h.taskIds id record hfind).1

/-- A task as it is created. -/
structure Fresh (record : TaskRecord) : Prop where
  status : record.state.status = pending
  outcome : record.state.outcome = none
  unmarked : record.abortRequested = false

/-- What a transaction has added to the committed tables. -/
structure Created (s : StorageState) (staged : Staged) : Prop where
  sound : Sound staged.tables
  nextId : s.nextId ≤ staged.tables.nextId
  kept : ∀ id, id < s.nextId → staged.tables.tasks.find id = s.tasks.find id
  keptConversations : ∀ id, id < s.nextId → staged.tables.conversations.find id = s.conversations.find id
  fresh : ∀ id record, s.nextId ≤ id → staged.tables.tasks.find id = some record → Fresh record
  created : ∀ record, record ∈ staged.created ↔
    s.nextId ≤ record.id ∧ staged.tables.tasks.find record.id = some record

section Created

variable {staged next : Staged}

theorem created_start (h : Sound s) : Created s { tables := s } where
  sound := h
  nextId := le_refl _
  kept _ _ := rfl
  keptConversations _ _ := rfl
  fresh id record hid hfind := absurd (h.taskIds id record hfind).2 (not_lt.2 hid)
  created record := by
    constructor
    · intro hmem
      cases hmem
    · rintro ⟨hid, hfind⟩
      exact absurd (h.taskIds _ record hfind).2 (not_lt.2 hid)

theorem Created.addTask (h : Created s staged) {record : TaskRecord}
    (hid : record.id = staged.tables.nextId) (hfresh : Fresh record)
    (howner : ∀ owner, record.owner = some owner → ∃ stored, staged.tables.tasks.find owner = some stored)
    (taskOwners conversationOwners : List TaskId) : Created s
      { tables := { staged.tables with
          tasks := staged.tables.tasks.insert staged.tables.nextId record
          nextId := staged.tables.nextId + 1 }
        created := staged.created ++ [record]
        taskOwners := taskOwners
        conversationOwners := conversationOwners } := by
  have hnext : staged.tables.nextId < staged.tables.nextId + 1 := Int.lt_succ _
  refine ⟨⟨?_, ?_, ?_, h.sound.conversationOwners⟩, h.nextId.trans (le_of_lt hnext), ?_, ?_, ?_, ?_⟩
  · intro id other hfind
    dsimp only at hfind
    rcases find_insert_cases hfind with ⟨rfl, rfl⟩ | hfind
    · exact ⟨hid, hnext⟩
    · obtain ⟨hkey, hlt⟩ := h.sound.taskIds id other hfind
      exact ⟨hkey, hlt.trans hnext⟩
  · intro id other hfind
    obtain ⟨hkey, hlt⟩ := h.sound.conversationIds id other hfind
    exact ⟨hkey, hlt.trans hnext⟩
  · intro id other hfind owner hother
    dsimp only at hfind
    rcases find_insert_cases hfind with ⟨rfl, rfl⟩ | hfind
    · obtain ⟨stored, hstored⟩ := howner owner hother
      exact (h.sound.taskIds owner stored hstored).2
    · exact h.sound.owners id other hfind owner hother
  · intro id hlt
    have hne : id ≠ staged.tables.nextId := ne_of_lt (hlt.trans_le h.nextId)
    exact ((find_insert _ _ _ _).trans (if_neg hne)).trans (h.kept id hlt)
  · exact h.keptConversations
  · intro id other hle hfind
    dsimp only at hfind
    rcases find_insert_cases hfind with ⟨-, rfl⟩ | hfind
    · exact hfresh
    · exact h.fresh id other hle hfind
  · intro other
    dsimp only
    rw [List.mem_append, List.mem_singleton, find_insert]
    constructor
    · rintro (hmem | rfl)
      · obtain ⟨hle, hfind⟩ := (h.created other).1 hmem
        have hne : other.id ≠ staged.tables.nextId := ne_of_lt (h.sound.taskIds _ other hfind).2
        rw [if_neg hne]
        exact ⟨hle, hfind⟩
      · rw [if_pos hid, hid]
        exact ⟨h.nextId, rfl⟩
    rintro ⟨hle, hfind⟩
    split at hfind
    · cases hfind
      exact .inr rfl
    · exact .inl ((h.created other).2 ⟨hle, hfind⟩)

theorem Created.addConversation (h : Created s staged) {record : ConversationRecord}
    (hid : record.id = staged.tables.nextId)
    (howner : ∀ owner, record.owner = some owner → ∃ stored, staged.tables.tasks.find owner.taskId = some stored)
    (conversationOwners : List TaskId) : Created s { staged with
      tables := { staged.tables with
        conversations := staged.tables.conversations.insert staged.tables.nextId record
        conversationIds := staged.tables.conversationIds ++ [staged.tables.nextId]
        nextId := staged.tables.nextId + 1 }
      conversationOwners := conversationOwners } := by
  have hnext : staged.tables.nextId < staged.tables.nextId + 1 := Int.lt_succ _
  refine ⟨⟨?_, ?_, h.sound.owners, ?_⟩, h.nextId.trans (le_of_lt hnext), h.kept, ?_, h.fresh, h.created⟩
  · intro id other hfind
    obtain ⟨hkey, hlt⟩ := h.sound.taskIds id other hfind
    exact ⟨hkey, hlt.trans hnext⟩
  · intro id other hfind
    dsimp only at hfind
    rcases find_insert_cases hfind with ⟨rfl, rfl⟩ | hfind
    · exact ⟨hid, hnext⟩
    · obtain ⟨hkey, hlt⟩ := h.sound.conversationIds id other hfind
      exact ⟨hkey, hlt.trans hnext⟩
  · intro id other hfind owner hother
    dsimp only at hfind
    rcases find_insert_cases hfind with ⟨rfl, rfl⟩ | hfind
    · obtain ⟨stored, hstored⟩ := howner owner hother
      exact (h.sound.taskIds _ stored hstored).2
    · exact h.sound.conversationOwners id other hfind owner hother
  · intro id hlt
    have hne : id ≠ staged.tables.nextId := ne_of_lt (hlt.trans_le h.nextId)
    exact ((find_insert _ _ _ _).trans (if_neg hne)).trans (h.keptConversations id hlt)

theorem created_mint (h : Sound s) : Created s { tables := s.reserveId.1 } := by
  have hstart := created_start h
  have hnext : s.nextId < s.nextId + 1 := Int.lt_succ _
  refine ⟨⟨?_, ?_, h.owners, h.conversationOwners⟩, le_of_lt hnext, hstart.kept,
    hstart.keptConversations, hstart.fresh, hstart.created⟩
  · intro id record hfind
    obtain ⟨hkey, hlt⟩ := h.taskIds id record hfind
    exact ⟨hkey, hlt.trans hnext⟩
  intro id record hfind
  obtain ⟨hkey, hlt⟩ := h.conversationIds id record hfind
  exact ⟨hkey, hlt.trans hnext⟩

theorem taskOwner_eq_ok {tables : StorageState} {options : TaskOptions} {found : Option TaskRecord}
    (h : taskOwner tables options = .ok found) :
    ∀ owner, options.owner = some owner → ∃ stored, tables.tasks.find owner = some stored := by
  intro owner howner
  simp only [taskOwner, howner, bind_eq_ok, present_eq_ok] at h
  obtain ⟨stored, hstored, -⟩ := h
  exact ⟨stored, hstored⟩

theorem create_created (h : Created s staged) {creation : Creation}
    (hcreate : create staged creation = .ok next) : Created s next := by
  cases creation with
  | task definition input options =>
    simp only [create, bind_eq_ok] at hcreate
    obtain ⟨owner, howner, hcreate⟩ := hcreate
    cases hcreate
    exact h.addTask rfl ⟨rfl, rfl, rfl⟩ (taskOwner_eq_ok howner) _ _
  | conversation owner =>
    cases owner with
    | none =>
      cases hcreate
      exact h.addConversation rfl (fun _ howner => by cases howner) _
    | some owner =>
      simp only [create, bind_eq_ok, present_eq_ok] at hcreate
      obtain ⟨stored, hstored, hcreate⟩ := hcreate
      cases hcreate
      refine h.addConversation rfl ?_ _
      rintro other howner
      cases howner
      exact ⟨stored, hstored⟩

theorem createAll_created {creations : List Creation} (h : Created s staged)
    (hcreate : createAll staged creations = .ok next) : Created s next := by
  induction creations generalizing staged with
  | nil =>
    cases hcreate
    exact h
  | cons creation rest ih =>
    simp only [createAll, bind_eq_ok] at hcreate
    obtain ⟨between, hbetween, hcreate⟩ := hcreate
    exact ih (create_created h hbetween) hcreate

end Created

/-! ## The callbacks -/

/-- A callback creates, and every write of it replaces a stored record in one of the ways of `Write`. -/
structure Inverts (s : StorageState) (step : Step) (cb : Callback) : Prop where
  created : Created s cb.staged
  writes : ∀ after ∈ cb.writes, ∃ before, s.tasks.find before.id = some before ∧ Write s cb.staged step before after

section Inversion

variable {cb : Callback}

theorem inverts_write {records : List TaskRecord} (hsound : Sound s) (h : write s records = .ok cb)
    (hrecords : ∀ after ∈ records, ∃ before, s.tasks.find before.id = some before ∧
      Write s { tables := s } step before after) : Inverts s step cb := by
  cases h
  exact ⟨created_start hsound, hrecords⟩

theorem inverts_nothing (hsound : Sound s) (h : write s [] = .ok cb) : Inverts s step cb :=
  inverts_write hsound h fun _ hafter => by cases hafter

theorem inverts_one {before after : TaskRecord} (hsound : Sound s) (h : write s [after] = .ok cb)
    (hprev : s.tasks.find before.id = some before)
    (hwrite : Write s { tables := s } step before after) : Inverts s step cb := by
  apply inverts_write hsound h
  intro other hother
  rw [List.mem_singleton.1 hother]
  exact ⟨before, hprev, hwrite⟩

variable {id : TaskId}

theorem runningTask_eq_ok {allowAbort : Bool} {current : TaskRecord} (h : runningTask s id allowAbort = .ok current) :
    s.tasks.find id = some current ∧ current.state.status = running ∧
      (current.abortRequested = true → allowAbort = true) := by
  simp only [runningTask, bind_eq_ok, present_eq_ok] at h
  obtain ⟨found, hfound, h⟩ := h
  split at h
  · cases h
  next hstat =>
  split at h
  · cases h
  next hmark =>
  cases h
  refine ⟨hfound, not_not.1 hstat, fun habort => ?_⟩
  rw [habort, Bool.true_and, Bool.not_eq_true, Bool.not_eq_false'] at hmark
  exact hmark

variable {now : Int}

theorem commitWith_inverts {allowAbort abortInvocation : Bool}
    {creations : List Creation} {next : Option NextTaskState} (hsound : Sound s)
    (h : commitWith s id allowAbort abortInvocation creations next now = .ok cb) :
    Inverts s (.commitWith id allowAbort abortInvocation creations next now) cb := by
  simp only [commitWith, bind_eq_ok] at h
  obtain ⟨current, hcur, staged, hstaged, h⟩ := h
  have hmade := createAll_created (created_start hsound) hstaged
  obtain ⟨hfind, hstat, -⟩ := runningTask_eq_ok hcur
  have hid := hsound.keyed id current hfind
  have hprev : s.tasks.find current.id = some current := by
    rw [hid]
    exact hfind
  cases next with
  | none =>
    cases h
    exact ⟨hmade, fun _ hafter => by cases hafter⟩
  | some next =>
    simp only [bind_eq_ok] at h
    obtain ⟨record, hrec, h⟩ := h
    cases h
    refine ⟨hmade, ?_⟩
    intro after hafter
    rw [List.mem_singleton.1 hafter]
    refine ⟨current, hprev, ?_⟩
    unfold nextRecord at hrec
    split at hrec
    · next hend =>
      simp only [bind_eq_ok, present_eq_ok] at hrec
      obtain ⟨held, hheld, hrec⟩ := hrec
      cases hrec
      exact .ends hstat hid hend hstaged hheld
    split at hrec
    · next hwait =>
      cases hpolicy : next.policy with
      | none =>
        rw [hpolicy] at hrec
        cases hrec
      | some policy =>
        rw [hpolicy] at hrec
        dsimp only at hrec
        split at hrec
        · cases hrec
        simp only [bind_eq_ok] at hrec
        obtain ⟨_, hvalid, hrec⟩ := hrec
        cases hrec
        exact .waits hstat hid hwait hstaged hpolicy hvalid
    split at hrec
    · next hrunning =>
      cases hrec
      rw [← hstat]
      exact .continues hstat
    · cases hrec
      exact .continues hstat

theorem memo_inverts {allowAbort keep : Bool} {key : Bytes} {candidate : Json}
    (hsound : Sound s) (h : memo s id allowAbort keep key candidate = .ok cb) : Inverts s step cb := by
  simp only [memo, bind_eq_ok] at h
  obtain ⟨current, hcur, h⟩ := h
  obtain ⟨hfind, hstat, -⟩ := runningTask_eq_ok hcur
  split at h
  · exact inverts_nothing hsound h
  refine inverts_one hsound h ?_ (.remembers hstat)
  rw [hsound.keyed id current hfind]
  exact hfind

theorem openTasks_inverts (hsound : Sound s) (h : openTasks s = .ok cb) : Inverts s step cb := by
  apply inverts_write hsound h
  intro after hafter
  obtain ⟨before, hprev, rfl⟩ := List.mem_map.1 hafter
  obtain ⟨hmem, hstat⟩ := List.mem_filter.1 hprev
  exact ⟨before, hsound.keyed.of_mem hmem, .returns (eq_of_beq hstat)⟩

theorem markAbandoned_inverts {ids : List TaskId} (hsound : Sound s)
    (h : markAbandoned s ids = .ok cb) : Inverts s step cb := by
  apply inverts_write hsound h
  intro after hafter
  obtain ⟨before, hprev, rfl⟩ := List.mem_map.1 hafter
  obtain ⟨hmem, hchecks⟩ := List.mem_filter.1 hprev
  rw [Bool.and_eq_true, Bool.and_eq_true] at hchecks
  exact ⟨before, hsound.keyed.of_mem hmem, .marks hchecks.1.2⟩

theorem settle_inverts {outcome : TaskOutcome} (hsound : Sound s) (h : settle s id outcome now = .ok cb)
    (hwrite : ∀ before : TaskRecord, live before = true → before.id = id →
      Write s { tables := s } step before (settled before outcome now)) : Inverts s step cb := by
  unfold settle at h
  cases hfind : s.tasks.find id with
  | none =>
    rw [hfind] at h
    exact inverts_nothing hsound h
  | some before =>
    rw [hfind] at h
    have hid := hsound.keyed id before hfind
    dsimp only at h
    split at h
    · next hlive =>
      refine inverts_one hsound h ?_ (hwrite before hlive hid)
      rw [hid]
      exact hfind
    · exact inverts_nothing hsound h

theorem abortTask_inverts {orphanReason : Option Bytes}
    (hsound : Sound s) (h : abortTask s id orphanReason now = .ok cb) :
    Inverts s (.abortTask id orphanReason now) cb := by
  simp only [abortTask, bind_eq_ok, present_eq_ok] at h
  obtain ⟨before, hfind, h⟩ := h
  have hid := hsound.keyed id before hfind
  have hprev : s.tasks.find before.id = some before := by
    rw [hid]
    exact hfind
  split at h
  · next hlive =>
    cases orphanReason with
    | some reason => exact inverts_one hsound h hprev (.aborts hlive hid)
    | none => exact inverts_one hsound h hprev (.marks hlive)
  · exact inverts_nothing hsound h

theorem markAll_inverts {marks : List (TaskId × Bool)} (hsound : Sound s)
    (h : markAll s marks = .ok cb) : Inverts s step cb := by
  apply inverts_write hsound h
  intro after hafter
  obtain ⟨before, hmem, heq⟩ := List.mem_filterMap.1 hafter
  split at heq
  · cases heq
  split at heq
  · cases heq
  next hchecks =>
  cases heq
  rw [Bool.not_eq_true, Bool.or_eq_false_iff, Bool.not_eq_false'] at hchecks
  exact ⟨before, hsound.keyed.of_mem (List.mem_of_mem_take hmem), .marks hchecks.1⟩

theorem abortConversation_inverts {c : ConversationId} {background : Bool} (hsound : Sound s)
    (h : abortConversation s c background = .ok cb) : Inverts s step cb := by
  simp only [abortConversation, bind_eq_ok] at h
  obtain ⟨conversations, -, reached, -, h⟩ := h
  apply inverts_write hsound h
  intro after hafter
  obtain ⟨id, -, heq⟩ := List.mem_filterMap.1 hafter
  split at heq
  · cases heq
  next before hfound =>
  split at heq
  · cases heq
  next hchecks =>
  cases heq
  rw [Bool.not_eq_true, Bool.or_eq_false_iff, Bool.not_eq_false'] at hchecks
  exact ⟨before, hsound.keyed.of_mem (List.mem_of_mem_take (List.mem_of_find?_eq_some hfound)), .marks hchecks.1⟩

theorem finalize_inverts {seen : StorageState} (hsound : Sound s) (h : finalize s seen now = .ok cb) :
    Inverts s (.finalize seen now) cb := by
  simp only [finalize, bind_eq_ok] at h
  obtain ⟨ready, hready, h⟩ := h
  apply inverts_write hsound h
  intro after hafter
  obtain ⟨before, hprev, rfl⟩ := List.mem_map.1 hafter
  obtain ⟨hmem, hchecks⟩ := List.mem_filter.1 hprev
  rw [Bool.and_eq_true] at hchecks
  exact ⟨before, hsound.keyed.of_mem (List.mem_of_mem_take hmem),
    .finalizes (eq_of_beq hchecks.2) rfl hready (List.contains_iff_mem.1 hchecks.1)⟩

/-- The callbacks that look at one record and then write it or leave it. -/
theorem find_inverts {f : TaskRecord → Expected Callback} (hsound : Sound s) (h : (match s.tasks.find id with
      | none => write s []
      | some record => f record) = .ok cb)
    (hf : ∀ before, s.tasks.find before.id = some before → before.id = id →
      f before = .ok cb → Inverts s step cb) : Inverts s step cb := by
  cases hfind : s.tasks.find id with
  | none =>
    rw [hfind] at h
    exact inverts_nothing hsound h
  | some before =>
    rw [hfind] at h
    have hid := hsound.keyed id before hfind
    apply hf before ?_ hid h
    rw [hid]
    exact hfind

theorem resume_inverts (hsound : Sound s) (h : resume s id = .ok cb) : Inverts s (.resume id) cb := by
  apply find_inverts hsound h
  intro before hprev _ hwrote
  split at hwrote
  · next hstat => exact inverts_one hsound hwrote hprev (.resumes hstat)
  · exact inverts_nothing hsound hwrote

variable {resolved : Resolved}

theorem reserve_inverts (hsound : Sound s)
    (h : reserve s id resolved now = .ok cb) : Inverts s (.reserve id resolved now) cb := by
  apply find_inverts hsound h
  intro before hprev hid hwrote
  split at hwrote
  · exact inverts_nothing hsound hwrote
  next hchecks =>
  rw [Bool.not_eq_true, Bool.or_eq_false_iff, Bool.not_eq_false', Bool.and_eq_false_iff,
    bne_eq_false_iff_eq, Bool.not_eq_false'] at hchecks
  exact inverts_one hsound hwrote hprev (.reserves hchecks.1 hid hchecks.2)

theorem migrate_inverts (hsound : Sound s)
    (h : migrate s id resolved = .ok cb) : Inverts s (.migrate id resolved) cb := by
  apply find_inverts hsound h
  intro before hprev hid hwrote
  exact inverts_one hsound hwrote hprev (.migrates hid)

theorem returnTask_inverts (hsound : Sound s) (h : returnTask s id = .ok cb) : Inverts s step cb := by
  apply find_inverts hsound h
  intro before hprev _ hwrote
  split at hwrote
  · next hstat => exact inverts_one hsound hwrote hprev (.returns hstat)
  · exact inverts_nothing hsound hwrote

theorem callback_inverts (hsound : Sound s) (h : callback s step = .ok cb) : Inverts s step cb := by
  cases step with
  | commitWith id allowAbort abortInvocation creations next now => exact commitWith_inverts hsound h
  | memo id allowAbort keep key candidate => exact memo_inverts hsound h
  | create creations =>
    simp only [callback, bind_eq_ok] at h
    obtain ⟨staged, hstaged, h⟩ := h
    cases h
    exact ⟨createAll_created (created_start hsound) hstaged, fun _ hafter => by cases hafter⟩
  | mint =>
    cases h
    exact ⟨created_mint hsound, fun _ hafter => by cases hafter⟩
  | openTasks => exact openTasks_inverts hsound h
  | markAbandoned ids => exact markAbandoned_inverts hsound h
  | settleOrphaned id reason now => exact settle_inverts hsound h fun _ hlive hid => .orphans hlive hid
  | settleFaulted id message now => exact settle_inverts hsound h fun _ hlive hid => .faults hlive hid
  | abortTask id orphanReason now => exact abortTask_inverts hsound h
  | markAll marks => exact markAll_inverts hsound h
  | abortConversation c background => exact abortConversation_inverts hsound h
  | finalize seen now => exact finalize_inverts hsound h
  | resume id => exact resume_inverts hsound h
  | reserve id resolved now => exact reserve_inverts hsound h
  | migrate id resolved => exact migrate_inverts hsound h
  | returnTask id => exact returnTask_inverts hsound h

end Inversion

/-! ## The commits -/

variable {id : TaskId} {records : List TaskRecord} {tables : StorageState}

theorem find_setTasks {record : TaskRecord} (h : (setTasks tables records).tasks.find id = some record) :
    (record ∈ records ∧ record.id = id) ∨
      (tables.tasks.find id = some record ∧ ∀ other ∈ records, other.id ≠ id) := by
  unfold setTasks at h
  dsimp only at h
  generalize tables.tasks = tasks at h ⊢
  induction records generalizing tasks with
  | nil => exact .inr ⟨h, fun _ hother => by cases hother⟩
  | cons first rest ih =>
    rw [List.foldl_cons] at h
    rcases ih (tasks.insert first.id first) h with ⟨hmem, hid⟩ | ⟨hfind, hrest⟩
    · exact .inl ⟨List.mem_cons_of_mem _ hmem, hid⟩
    rw [find_insert] at hfind
    split at hfind
    · next heq =>
      cases hfind
      exact .inl ⟨List.mem_cons_self .., heq.symm⟩
    next hne =>
    refine .inr ⟨hfind, ?_⟩
    intro other hother
    rcases List.mem_cons.1 hother with rfl | hother
    · exact Ne.symm hne
    · exact hrest other hother

theorem setTasks_stored (records : List TaskRecord) {record : TaskRecord} (h : tables.tasks.find id = some record) :
    ∃ after, (setTasks tables records).tasks.find id = some after := by
  unfold setTasks
  dsimp only
  generalize tables.tasks = tasks at h ⊢
  induction records generalizing tasks record with
  | nil => exact ⟨record, h⟩
  | cons first rest ih =>
    rw [List.foldl_cons]
    by_cases heq : id = first.id
    · subst heq
      exact ih (tasks.insert first.id first) (OrdMap.find_insert_self _ _ _)
    have hkept : (tasks.insert first.id first).find id = some record := by
      rw [find_insert, if_neg heq]
      exact h
    exact ih (tasks.insert first.id first) hkept

theorem checkReplaced_eq_ok (h : checkReplaced s records = .ok ()):
    ∀ record ∈ records, ∀ stored, s.tasks.find record.id = some stored → live stored = true := by
  induction records with
  | nil => exact fun _ hrec => by cases hrec
  | cons first rest ih =>
    simp only [checkReplaced, bind_eq_ok, refuse_eq_ok] at h
    obtain ⟨_, hfirst, hrest⟩ := h
    intro record hrec stored hstored
    rcases List.mem_cons.1 hrec with rfl | hrec
    · rw [hstored, Option.any_some, Bool.not_eq_false'] at hfirst
      exact hfirst
    · exact ih hrest record hrec stored hstored

/-- A commit that changed the tables, with the callback that it came from. -/
structure Committed (s t : StorageState) (step : Step) (cb : Callback) : Prop where
  called : callback s step = .ok cb
  inverts : Inverts s step cb
  open_ : ∀ after ∈ cb.writes, ∀ stored, s.tasks.find after.id = some stored → live stored = true
  tables : t = setTasks cb.staged.tables cb.writes

variable {cb : Callback}

theorem assemble_eq_ok (h : assemble s cb = .ok t) :
    checkReplaced s cb.writes = .ok () ∧ t = setTasks cb.staged.tables cb.writes := by
  simp only [assemble, bind_eq_ok] at h
  obtain ⟨_, hreplaced, _, -, _, -, h⟩ := h
  cases h
  exact ⟨hreplaced, rfl⟩

theorem commit_cases (h : Sound s) (step : Step) : commit s step = s ∨ ∃ cb, Committed s (commit s step) step cb := by
  unfold commit
  cases hcall : callback s step with
  | error error => exact .inl rfl
  | ok cb =>
    simp only [bind, Except.bind]
    cases hassemble : assemble s cb with
    | error error => exact .inl rfl
    | ok t =>
      obtain ⟨hreplaced, htables⟩ := assemble_eq_ok hassemble
      exact .inr ⟨cb, hcall, callback_inverts h hcall, checkReplaced_eq_ok hreplaced, htables⟩

/-- What a commit may make of one task: it stays, it is replaced while it is live, or it is new. -/
theorem Committed.record (h : Committed s t step cb) {after : TaskRecord} (hafter : t.tasks.find id = some after) :
    s.tasks.find id = some after ∨ (∃ before, s.tasks.find id = some before ∧ live before = true ∧ after ∈ cb.writes ∧
        Write s cb.staged step before after) ∨
      (s.nextId ≤ id ∧ cb.staged.tables.tasks.find id = some after ∧ Fresh after) := by
  have hmade := h.inverts.created
  rw [h.tables] at hafter
  rcases find_setTasks hafter with ⟨hmem, hid⟩ | ⟨hfind, -⟩
  · obtain ⟨before, hprev, hwrite⟩ := h.inverts.writes after hmem
    have hsame : before.id = id := hwrite.place.1.symm.trans hid
    rw [hsame] at hprev
    refine .inr (.inl ⟨before, hprev, ?_, hmem, hwrite⟩)
    exact h.open_ after hmem before (hid ▸ hprev)
  rcases lt_or_ge id s.nextId with hlt | hge
  · rw [hmade.kept id hlt] at hfind
    exact .inl hfind
  · exact .inr (.inr ⟨hge, hfind, hmade.fresh id after hge hfind⟩)

theorem Committed.stored (hsound : Sound s) (h : Committed s t step cb) {before : TaskRecord}
    (hprev : s.tasks.find id = some before) : ∃ after, t.tasks.find id = some after := by
  have hlt := (hsound.taskIds id before hprev).2
  rw [h.tables]
  apply setTasks_stored
  rw [h.inverts.created.kept id hlt]
  exact hprev

theorem Committed.keeps_terminal (hsound : Sound s) (h : Committed s t step cb) {record : TaskRecord}
    (hrec : s.tasks.find id = some record) (hended : live record = false) : t.tasks.find id = some record := by
  obtain ⟨after, hafter⟩ := h.stored hsound hrec
  rcases h.record hafter with hsame | ⟨before, hprev, hlive, -, -⟩ | ⟨hnew, -, -⟩
  · cases hrec.symm.trans hsame
    exact hafter
  · cases hrec.symm.trans hprev
    rw [hended] at hlive
    cases hlive
  · exact absurd (hsound.taskIds id record hrec).2 (not_lt.2 hnew)

theorem Committed.sound (hs : Sound s) (h : Committed s t step cb) : Sound t := by
  have hmade := h.inverts.created
  have hsound := hmade.sound
  -- A written record stands where the one before it stood.
  have hplace : ∀ id after, t.tasks.find id = some after → ∃ before,
      cb.staged.tables.tasks.find id = some before ∧ after.id = before.id ∧ after.owner = before.owner := by
    intro id after hafter
    rw [h.tables] at hafter
    rcases find_setTasks hafter with ⟨hmem, hid⟩ | ⟨hfind, -⟩
    · obtain ⟨before, hprev, hwrite⟩ := h.inverts.writes after hmem
      obtain ⟨hsame, howner, -, -⟩ := hwrite.place
      refine ⟨before, ?_, hsame, howner⟩
      rw [← hid, hsame, hmade.kept _ (hs.taskIds _ before hprev).2]
      exact hprev
    · exact ⟨after, hfind, rfl, rfl⟩
  have hconvs : t.conversations = cb.staged.tables.conversations := by
    rw [h.tables]
    rfl
  have hnextId : t.nextId = cb.staged.tables.nextId := by
    rw [h.tables]
    rfl
  constructor
  · intro id after hafter
    obtain ⟨before, hprev, hsame, -⟩ := hplace id after hafter
    rw [hsame, hnextId]
    exact hsound.taskIds id before hprev
  · rw [hconvs, hnextId]
    exact hsound.conversationIds
  · intro id after hafter owner howner
    obtain ⟨before, hprev, -, hsame⟩ := hplace id after hafter
    exact hsound.owners id before hprev owner (hsame ▸ howner)
  · rw [hconvs]
    exact hsound.conversationOwners

theorem commit_sound (h : Sound s) (step : Step) : Sound (commit s step) := by
  rcases commit_cases h step with heq | ⟨cb, hcommit⟩
  · rw [heq]
    exact h
  · exact hcommit.sound h

theorem run_append (s : StorageState) (first later : List Step) : run s (first ++ later) = run (run s first) later :=
  List.foldl_append

variable {G : StorageState → Step → Prop}

theorem runMeets_append {first later : List Step}:
    RunMeets G s (first ++ later) ↔ RunMeets G s first ∧ RunMeets G (run s first) later := by
  induction first generalizing s with
  | nil => exact (iff_of_eq (true_and _)).symm
  | cons step rest ih => exact (and_congr_right fun _ => ih).trans and_assoc.symm

/-- **The induction over a run.** What holds in the first state and is kept by every commit whose
condition is met holds after every run whose commits all meet it. -/
theorem run_induction {P : StorageState → Prop} (hstep : ∀ s step, Sound s → P s → G s step → P (commit s step))
    {steps : List Step} (hsound : Sound s) (h : P s) (hmeets : RunMeets G s steps) : P (run s steps) := by
  induction steps generalizing s with
  | nil => exact h
  | cons step rest ih =>
    obtain ⟨hgood, hrest⟩ := hmeets
    exact ih (commit_sound hsound step) (hstep s step hsound h hgood) hrest

theorem runMeets_true (s : StorageState) (steps : List Step) : RunMeets (fun _ _ => True) s steps := by
  induction steps generalizing s with
  | nil => trivial
  | cons step rest ih => exact ⟨trivial, ih (commit s step)⟩

theorem run_sound (steps : List Step) (h : Sound s) : Sound (run s steps) :=
  run_induction (P := Sound) (G := fun _ _ => True) (fun _ step hsound _ _ => commit_sound hsound step)
    h h (runMeets_true s steps)

theorem initial_sound : Sound initial where
  taskIds id record hfind := by cases hfind
  conversationIds id record hfind := by
    change (OrdMap.empty.insert 1 ({ id := 1 } : ConversationRecord)).find id = some record at hfind
    rcases find_insert_cases hfind with ⟨rfl, rfl⟩ | hfind
    · decide
    · cases hfind
  owners id record hfind := by cases hfind
  conversationOwners id record hfind owner howner := by
    change (OrdMap.empty.insert 1 ({ id := 1 } : ConversationRecord)).find id = some record at hfind
    rcases find_insert_cases hfind with ⟨-, rfl⟩ | hfind
    · cases howner
    · cases hfind

end Tasks

end CodingHarness.Durable
