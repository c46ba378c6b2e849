import CodingHarness.Durable.WaitLedgers

/-!
# Completions of waits

The close notification takes every waiter out of the maps. `wait_for_idle` looks at `wait_error` in one
critical section and registers in another, so its registration may come after the close notification, and
then nobody takes the waiter any more. In a run without such a registration every wait that is left after
the close notification is in the hands of an actor that will complete it.
-/

namespace CodingHarness.Durable

open Library Support

namespace Waiters

/-! ## The records of task waits -/

/-- The record is in the tables and has ended. -/
def Stored (tables : StorageState) (record : TaskRecord) : Prop :=
  tables.tasks.find record.id = some record ∧ Tasks.live record = false

/-- The wait is for the end of the task. -/
def ForTask (s : Shared) (w : WaitId) (id : TaskId) : Prop :=
  ∃ wait, s.waits.find w = some wait ∧ wait.target = .task id

/-- The thread may complete a wait with a record. -/
def Thread.Carries (w : WaitId) (record : TaskRecord) : Thread → Prop
  | .drain waiters (.record carried) => w ∈ waiters ∧ carried = record
  | .calling v (.record carried) rest => (w = v ∨ w ∈ rest) ∧ carried = record
  | _ => False

/-- Records go only to the waits for their tasks. -/
structure Records (s : State) : Prop where
  sound : Tasks.Sound s.shared.tables
  tasks : ∀ id w, (id, w) ∈ s.shared.taskWaiters → ForTask s.shared w id
  carried : ∀ thread ∈ s.threads, ∀ w record, thread.Carries w record →
    ForTask s.shared w record.id ∧ Stored s.shared.tables record
  results : ∀ w wait record, s.shared.waits.find w = some wait → .record record ∈ wait.results →
    wait.target = .task record.id ∧ Stored s.shared.tables record

section Records

variable {s t : State}

theorem Records.moves (h : Records s) (new : Option Thread) (hsound : Tasks.Sound t.shared.tables)
    (hstored : ∀ record, Stored s.shared.tables record → Stored t.shared.tables record)
    (hthreads : ∀ thread ∈ t.threads, thread ∈ s.threads ∨ new = some thread)
    (hwaits : ∀ w id, ForTask s.shared w id → ForTask t.shared w id)
    (htasks : ∀ id w, (id, w) ∈ t.shared.taskWaiters → (id, w) ∈ s.shared.taskWaiters ∨ ForTask t.shared w id)
    (hnew : ∀ thread, new = some thread → ∀ w record, thread.Carries w record →
      ForTask t.shared w record.id ∧ Stored t.shared.tables record)
    (hress : ∀ w wait record, t.shared.waits.find w = some wait → .record record ∈ wait.results →
      (∃ before, s.shared.waits.find w = some before ∧ before.target = wait.target ∧
        .record record ∈ before.results) ∨
      (wait.target = .task record.id ∧ Stored t.shared.tables record)) : Records t where
  sound := hsound
  tasks id w hmem := by
    rcases htasks id w hmem with hold | hfor
    · exact hwaits w id (h.tasks id w hold)
    · exact hfor
  carried thread hthread w record hcarry := by
    rcases hthreads thread hthread with hold | hadded
    · obtain ⟨hfor, hrec⟩ := h.carried thread hold w record hcarry
      exact ⟨hwaits w _ hfor, hstored record hrec⟩
    · exact hnew thread hadded w record hcarry
  results w wait record hwait hmem := by
    rcases hress w wait record hwait hmem with ⟨before, hprev, htgt, hold⟩ | hnow
    · obtain ⟨hfor, hrec⟩ := h.results w before record hprev hold
      exact ⟨htgt ▸ hfor, hstored record hrec⟩
    · exact hnow

variable {w : WaitId}

theorem forTask_update {shared : Shared} {v : WaitId} {f : Wait → Wait} {id : TaskId}
    (hf : ∀ wait, (f wait).target = wait.target) (h : ForTask shared v id) : ForTask (shared.update w f) v id := by
  obtain ⟨wait, hwait, htgt⟩ := h
  by_cases heq : v = w
  · subst heq
    refine ⟨f wait, ?_, (hf wait).trans htgt⟩
    rw [find_update, if_pos rfl, hwait]
    rfl
  refine ⟨wait, ?_, htgt⟩
  rw [find_update, if_neg heq]
  exact hwait

theorem Records.updates (h : Records s) (new : Option Thread) (w : WaitId) (f : Wait → Wait)
    (hf : ∀ wait, (f wait).target = wait.target ∧ (f wait).results = wait.results)
    (htables : t.shared.tables = s.shared.tables) (hupdate : t.shared.waits = (s.shared.update w f).waits)
    (htasks : t.shared.taskWaiters = s.shared.taskWaiters)
    (hthreads : ∀ thread ∈ t.threads, thread ∈ s.threads ∨ new = some thread)
    (hnew : ∀ thread, new = some thread → ∀ v record, thread.Carries v record →
      ForTask s.shared v record.id ∧ Stored s.shared.tables record) : Records t := by
  have hfor : ∀ v id, ForTask s.shared v id → ForTask t.shared v id := by
    intro v id hold
    obtain ⟨wait, hwait, htgt⟩ := forTask_update (w := w) (fun wait => (hf wait).1) hold
    exact ⟨wait, by rw [hupdate]; exact hwait, htgt⟩
  refine h.moves new (htables ▸ h.sound) (fun record hstored => htables ▸ hstored) hthreads hfor
    (fun id v hmem => .inl (htasks ▸ hmem)) ?_ ?_
  · intro thread hthread v record hcarry
    obtain ⟨hold, hstored⟩ := hnew thread hthread v record hcarry
    exact ⟨hfor v _ hold, htables ▸ hstored⟩
  intro v wait record hwait hmem
  rw [hupdate, find_update] at hwait
  split at hwait
  · next heq =>
    subst heq
    obtain ⟨before, hprev, rfl⟩ := Option.map_eq_some_iff.1 hwait
    exact .inl ⟨before, hprev, (hf before).1.symm, (hf before).2 ▸ hmem⟩
  · exact .inl ⟨wait, hwait, rfl, hmem⟩

theorem Records.silent (h : Records s) (new : Option Thread)
    (htables : t.shared.tables = s.shared.tables) (hwaits : t.shared.waits = s.shared.waits)
    (htasks : ∀ waiter ∈ t.shared.taskWaiters, waiter ∈ s.shared.taskWaiters)
    (hthreads : ∀ thread ∈ t.threads, thread ∈ s.threads ∨ new = some thread)
    (hnew : ∀ thread, new = some thread → ∀ v record, thread.Carries v record →
      ForTask s.shared v record.id ∧ Stored s.shared.tables record) : Records t := by
  have hfor : ∀ v id, ForTask s.shared v id → ForTask t.shared v id := by
    rintro v id ⟨wait, hwait, htgt⟩
    exact ⟨wait, by rw [hwaits]; exact hwait, htgt⟩
  refine h.moves new (htables ▸ h.sound) (fun record hstored => htables ▸ hstored) hthreads hfor
    (fun id v hmem => .inl (htasks _ hmem)) ?_ ?_
  · intro thread hthread v record hcarry
    obtain ⟨hold, hstored⟩ := hnew thread hthread v record hcarry
    exact ⟨hfor v _ hold, htables ▸ hstored⟩
  intro v wait record hwait hmem
  rw [hwaits] at hwait
  exact .inl ⟨wait, hwait, rfl, hmem⟩

theorem Records.completes (h : Records s) {result : Result} {rest : List WaitId}
    (hthread : .calling w result rest ∈ s.threads) (hshared : t.shared = s.shared.complete w result)
    (hthreads : ∀ thread ∈ t.threads, thread ∈ s.threads ∨ some (.drain rest result) = some thread) : Records t := by
  obtain ⟨htables, htasks, -, -⟩ := update_fields s.shared w fun wait =>
    { wait with results := wait.results ++ [result] }
  have hfor : ∀ v id, ForTask s.shared v id → ForTask t.shared v id := by
    intro v id hold
    rw [hshared]
    exact forTask_update (fun _ => rfl) hold
  have htables' : t.shared.tables = s.shared.tables := hshared ▸ htables
  refine h.moves (some (.drain rest result)) (htables' ▸ h.sound)
    (fun record hstored => htables' ▸ hstored) hthreads hfor ?_ ?_ ?_
  · intro id v hmem
    rw [hshared] at hmem
    exact .inl (htasks ▸ hmem)
  · intro thread heq v record hcarry
    cases heq
    have hold : (Thread.calling w result rest).Carries v record := by
      cases result with
      | record carried => exact ⟨.inr hcarry.1, hcarry.2⟩
      | idle | cancelled | rejected _ => cases hcarry
    obtain ⟨hfound, hstored⟩ := h.carried _ hthread v record hold
    exact ⟨hfor v _ hfound, htables' ▸ hstored⟩
  · intro v wait record hwait hmem
    rw [hshared] at hwait
    unfold Shared.complete at hwait
    rw [find_update] at hwait
    split at hwait
    · next heq =>
      subst heq
      obtain ⟨before, hprev, rfl⟩ := Option.map_eq_some_iff.1 hwait
      rcases List.mem_append.1 hmem with hold | hlast
      · exact .inl ⟨before, hprev, rfl, hold⟩
      -- The completion that was called just now.
      rw [List.mem_singleton] at hlast
      subst hlast
      obtain ⟨⟨found, hfound, htgt⟩, hstored⟩ := h.carried _ hthread v record ⟨.inl rfl, rfl⟩
      cases hprev.symm.trans hfound
      exact .inr ⟨htgt, htables' ▸ hstored⟩
    · exact .inl ⟨wait, hwait, rfl, hmem⟩

variable {thread : Thread}

theorem Quiet.carries (h : Quiet (some thread)) (v : WaitId) (record : TaskRecord) : ¬ thread.Carries v record := by
  obtain ⟨hpend, hcalls⟩ := h
  intro hcarry
  cases thread with
  | drain waiters result =>
    cases result with
    | record carried => simp_all [Thread.Carries, Thread.pending]
    | idle | cancelled | rejected _ => cases hcarry
  | calling w result rest => simpa using hcalls w
  | _ => cases hcarry

theorem perform_records (h : Records s) (hthread : thread ∈ s.threads)
    (hshared : t.shared = (perform s.shared thread).1)
    (hthreads : ∀ other ∈ t.threads, other ∈ s.threads ∨ (perform s.shared thread).2 = some other) : Records t := by
  generalize hperform : perform s.shared thread = performed at hshared hthreads
  obtain ⟨after, new⟩ := performed
  have hupdates : ∀ (w : WaitId) (f : Wait → Wait), (∀ wait, (f wait).target = wait.target ∧
      (f wait).results = wait.results) → t.shared.waits = (s.shared.update w f).waits →
      t.shared.tables = (s.shared.update w f).tables → t.shared.taskWaiters = (s.shared.update w f).taskWaiters →
      (∀ other, new = some other → ∀ v record, other.Carries v record →
        ForTask s.shared v record.id ∧ Stored s.shared.tables record) → Records t := by
    intro w f hf hwaits htables htasks hnew
    obtain ⟨hsameTables, hsameTasks, -, -⟩ := update_fields s.shared w f
    exact h.updates new w f hf (htables.trans hsameTables) hwaits (htasks.trans hsameTasks) hthreads hnew
  have hquiet : Quiet new → ∀ other, new = some other → ∀ v record, other.Carries v record →
      ForTask s.shared v record.id ∧ Stored s.shared.tables record := by
    rintro hnew other rfl v record hcarry
    exact absurd hcarry (hnew.carries v record)
  cases performs hperform with
  | goes old quiet inCall =>
    exact h.silent new (by rw [hshared]) (by rw [hshared]) (fun _ hmem => by rwa [hshared] at hmem)
      hthreads (hquiet quiet)
  | @answers _ w result old inCall noRecord =>
    refine hupdates w (fun wait => { wait with phase := .claimed }) (fun _ => ⟨rfl, rfl⟩) (hshared ▸ rfl)
      (hshared ▸ rfl) (hshared ▸ rfl) ?_
    intro other heq v record hcarry
    cases heq
    cases result with
    | record carried => exact absurd rfl (noRecord carried)
    | idle | cancelled | rejected _ => cases hcarry
  | registers w =>
    exact hupdates w (fun wait => { wait with phase := .registered }) (fun _ => ⟨rfl, rfl⟩) (hshared ▸ rfl)
      (hshared ▸ rfl) (hshared ▸ rfl) (hquiet (quiet_some rfl fun _ => rfl))
  | hooks w old quiet inCall =>
    exact hupdates w (fun wait => { wait with hooked := true }) (fun _ => ⟨rfl, rfl⟩) (hshared ▸ rfl)
      (hshared ▸ rfl) (hshared ▸ rfl) (hquiet quiet)
  | takes htake =>
    refine h.silent _ (by rw [hshared]) (by rw [hshared]) (fun _ hmem => by rwa [hshared] at hmem) hthreads ?_
    intro other heq v record hcarry
    cases heq
    cases hcarry
  | @wins w rest result hopen =>
    refine hupdates w (fun wait => { wait with phase := .claimed }) (fun _ => ⟨rfl, rfl⟩) (hshared ▸ rfl)
      (hshared ▸ rfl) (hshared ▸ rfl) ?_
    intro other heq v record hcarry
    cases heq
    apply h.carried _ hthread
    cases result with
    | record carried => exact ⟨List.mem_cons.2 hcarry.1, hcarry.2⟩
    | idle | cancelled | rejected _ => cases hcarry
  | @skips w rest result hclosed =>
    refine h.silent _ (by rw [hshared]) (by rw [hshared]) (fun _ hmem => by rwa [hshared] at hmem) hthreads ?_
    intro other heq v record hcarry
    cases heq
    apply h.carried _ hthread
    cases result with
    | record carried => exact ⟨List.mem_cons_of_mem _ hcarry.1, hcarry.2⟩
    | idle | cancelled | rejected _ => cases hcarry
  | completes => exact h.completes hthread hshared hthreads

theorem mem_spawn {threads : List Thread} {new : Option Thread} (h : thread ∈ threads ++ new.toList) :
    thread ∈ threads ∨ new = some thread := by
  rcases List.mem_append.1 h with hold | hnew
  · exact .inl hold
  · exact .inr (Option.mem_toList.1 hnew)

theorem Records.begins (h : Records s) {wait : Wait} {shared : Shared}
    (hfresh : s.shared.waits.find w = none) (hress : wait.results = []) (htables : shared.tables = s.shared.tables)
    (hwaits : shared.waits = s.shared.waits.insert w wait) (htasks : ∀ id v, (id, v) ∈ shared.taskWaiters →
      (id, v) ∈ s.shared.taskWaiters ∨ (v = w ∧ wait.target = .task id)) (hnew : ∀ v record, thread.Carries v record →
      v = w ∧ wait.target = .task record.id ∧ Stored s.shared.tables record) :
    Records ⟨shared, s.threads ++ [thread]⟩ := by
  have hadded : ∀ id, wait.target = .task id → ForTask shared w id := by
    intro id htgt
    refine ⟨wait, ?_, htgt⟩
    rw [hwaits]
    exact OrdMap.find_insert_self _ _ _
  refine h.moves (some thread) (htables ▸ h.sound) (fun record hstored => htables ▸ hstored)
    (fun other hother => mem_spawn hother) ?_ ?_ ?_ ?_
  · rintro v id ⟨found, hfound, htgt⟩
    refine ⟨found, ?_, htgt⟩
    have hne : v ≠ w := by
      rintro rfl
      rw [hfresh] at hfound
      cases hfound
    rw [hwaits, OrdMap.find_insert, if_neg hne]
    exact hfound
  · intro id v hmem
    rcases htasks id v hmem with hold | ⟨rfl, htgt⟩
    · exact .inl hold
    · exact .inr (hadded id htgt)
  · intro other heq v record hcarry
    cases heq
    obtain ⟨rfl, htgt, hstored⟩ := hnew v record hcarry
    exact ⟨hadded _ htgt, htables ▸ hstored⟩
  · intro v found record hfound hmem
    rw [hwaits] at hfound
    rcases OrdMap.find_insert_cases hfound with ⟨-, rfl⟩ | hfound
    · rw [hress] at hmem
      cases hmem
    · exact .inl ⟨found, hfound, rfl, hmem⟩

theorem waitForTask_records (h : Records s) {id : TaskId} {stopped : Bool} (hnew : s.shared.waits.find w = none) :
    Records ⟨(waitForTask s.shared w id stopped).1, s.threads ++ [(waitForTask s.shared w id stopped).2]⟩ := by
  have hanswer : ∀ result, (∀ record, result = .record record → record.id = id ∧ Stored s.shared.tables record) →
      Records ⟨s.shared.begins w ⟨.task id, .claimed, stopped, false, []⟩, s.threads ++ [.calling w result []]⟩ := by
    intro result hrec
    refine h.begins hnew rfl rfl rfl (fun _ _ hmem => .inl hmem) ?_
    intro v record hcarry
    cases result with
    | record carried =>
      obtain ⟨hv, rfl⟩ := hcarry
      obtain ⟨rfl, hstored⟩ := hrec carried rfl
      rcases hv with rfl | hv
      · exact ⟨rfl, rfl, hstored⟩
      · cases hv
    | idle | cancelled | rejected _ => cases hcarry
  unfold waitForTask
  cases s.shared.waitError with
  | some error => exact hanswer _ fun _ heq => by cases heq
  | none =>
    cases hread : s.shared.tables.task id with
    | error error => exact hanswer _ fun _ heq => by cases heq
    | ok found =>
      cases found with
      | none => exact hanswer _ fun _ heq => by cases heq
      | some record =>
        have hfind : s.shared.tables.tasks.find id = some record := by
          unfold StorageState.task StorageState.reading at hread
          split at hread
          · cases hread
          · exact Except.ok.inj hread
        dsimp only
        split
        · next hended =>
          apply hanswer
          rintro other heq
          cases heq
          have hid := (h.sound.taskIds id record hfind).1
          rw [Bool.not_eq_true'] at hended
          exact ⟨hid, by rw [hid]; exact hfind, hended⟩
        split
        · exact hanswer _ fun _ heq => by cases heq
        refine h.begins hnew rfl rfl rfl ?_ fun _ _ hcarry => by cases hcarry
        intro other v hmem
        rcases List.mem_append.1 hmem with hold | hadded
        · exact .inl hold
        · cases List.mem_singleton.1 hadded
          exact .inr ⟨rfl, rfl⟩

theorem waitForIdle_records (h : Records s) {scope : Option ConversationId}
    {stopped : Bool} (hnew : s.shared.waits.find w = none) : Records ⟨(waitForIdle s.shared w scope stopped).1,
      s.threads ++ [(waitForIdle s.shared w scope stopped).2]⟩ := by
  unfold waitForIdle
  cases s.shared.waitError with
  | some error | none =>
    exact h.begins hnew rfl rfl rfl (fun _ _ hmem => .inl hmem) fun _ _ hcarry => by cases hcarry

theorem notify_records (h : Records s) (id : TaskId) :
    Records ⟨(notify s.shared id).1, s.threads ++ (notify s.shared id).2.toList⟩ := by
  have hsame : Records ⟨s.shared, s.threads ++ []⟩ := by
    rw [List.append_nil]
    exact h
  unfold notify
  cases hfind : s.shared.tables.tasks.find id with
  | none => exact hsame
  | some record =>
    dsimp only
    split
    · exact hsame
    next hended =>
    refine h.silent _ rfl rfl (fun waiter hmem => List.mem_of_mem_filter hmem)
      (fun thread hthread => mem_spawn hthread) ?_
    intro thread heq v carried hcarry
    cases heq
    obtain ⟨hv, rfl⟩ := hcarry
    obtain ⟨waiter, hwaiter, rfl⟩ := List.mem_map.1 hv
    obtain ⟨hmem, hid⟩ := List.mem_filter.1 hwaiter
    have hkey := (h.sound.taskIds id record hfind).1
    refine ⟨?_, by rw [hkey]; exact hfind, by simpa using hended⟩
    rw [hkey, ← eq_of_beq hid]
    exact h.tasks waiter.1 waiter.2 hmem

theorem commit_records (h : Records s) (change : Tasks.Step) :
    Records ⟨{ s.shared with tables := Tasks.commit s.shared.tables change }, s.threads⟩ := by
  refine h.moves none (Tasks.commit_sound h.sound change) ?_ (fun _ hthread => .inl hthread)
    (fun _ _ hfor => hfor) (fun _ _ hmem => .inl hmem) (fun _ heq => by cases heq)
    fun _ wait _ hwait hmem => .inl ⟨wait, hwait, rfl, hmem⟩
  rintro record ⟨hfind, hended⟩
  refine ⟨?_, hended⟩
  rcases Tasks.commit_cases h.sound change with heq | ⟨cb, hcommit⟩
  · rw [heq]
    exact hfind
  · exact hcommit.keeps_terminal h.sound hfind hended

theorem step_records (h : Records s) (change : Step) : Records (step s change) := by
  cases change with
  | commit change =>
    unfold step
    dsimp only
    split
    · exact h
    · exact commit_records h change
  | closeStorage =>
    exact ⟨⟨h.sound.taskIds, h.sound.conversationIds, h.sound.owners, h.sound.conversationOwners⟩,
      h.tasks, h.carried, h.results⟩
  | waitForTask w id stopped =>
    unfold step
    dsimp only
    split
    · exact h
    · next hnew => exact waitForTask_records h (find_of_not_contains hnew)
  | waitForIdle w scope stopped =>
    unfold step
    dsimp only
    split
    · exact h
    · next hnew => exact waitForIdle_records h (find_of_not_contains hnew)
  | requestStop w =>
    obtain ⟨htables, htasks, -, -⟩ := update_fields s.shared w fun wait =>
      { wait with stopped := true }
    exact h.updates none w (fun wait => { wait with stopped := true }) (fun _ => ⟨rfl, rfl⟩) htables
      rfl htasks (fun _ hthread => .inl hthread) fun _ heq => by cases heq
  | cancel w =>
    unfold step
    dsimp only
    split
    · obtain ⟨htables, htasks, -, -⟩ := update_fields s.shared w fun wait =>
        { wait with phase := .claimed }
      refine h.updates (some (.calling w .cancelled [])) w
        (fun wait => { wait with phase := .claimed }) (fun _ => ⟨rfl, rfl⟩) htables rfl htasks
        (fun _ hthread => mem_spawn hthread) ?_
      intro thread heq v record hcarry
      cases heq
      cases hcarry
    · exact h
  | notify id => exact notify_records h id
  | settle =>
    refine h.silent (some .settleTasks) rfl rfl (fun _ hmem => hmem) (fun _ hthread => mem_spawn hthread) ?_
    intro thread heq v record hcarry
    cases heq
    cases hcarry
  | close error =>
    refine h.silent (some (close s.shared error).2) rfl rfl (fun _ hmem => by cases hmem)
      (fun _ hthread => mem_spawn hthread) ?_
    intro thread heq v record hcarry
    cases heq
    cases hcarry
  | run i =>
    unfold step
    dsimp only
    cases hthread : s.threads[i]? with
    | none => exact h
    | some thread =>
      refine perform_records h (List.mem_of_getElem? hthread) rfl ?_
      intro other hother
      rcases List.mem_append.1 hother with hother | hother
      · rcases mem_spawn hother with hold | hnew
        · exact .inl (List.mem_of_mem_take hold)
        · exact .inr hnew
      · exact .inl (List.mem_of_mem_drop hother)

end Records

/-! ## The close notification -/

/-- The condition on a step: `wait_for_idle` registers before the close notification. -/
def RegistersOpen (s : State) : Step → Prop
  | .run i => ∀ w, s.threads[i]? = some (.idleRegister w) → s.shared.waitError = none
  | _ => True

/-- Every step of a run meets the condition. -/
def RunRegistersOpen : State → List Step → Prop
  | _, [] => True
  | s, change :: rest => RegistersOpen s change ∧ RunRegistersOpen (step s change) rest

/-- The maps are empty after the close notification. -/
def Emptied (s : State) : Prop := s.shared.waitError ≠ none → s.shared.taskWaiters = [] ∧ s.shared.idleWaiters = []

section Close

variable {s : State}

theorem perform_maps (shared : Shared) (thread : Thread) : (perform shared thread).1.waitError = shared.waitError ∧
      (perform shared thread).1.taskWaiters = shared.taskWaiters ∧ ((∃ w, thread = .idleRegister w) ∨
        (shared.idleWaiters = [] → (perform shared thread).1.idleWaiters = [])) := by
  have hupdate : ∀ w f, (shared.update w f).waitError = shared.waitError ∧
      (shared.update w f).taskWaiters = shared.taskWaiters ∧
      ((∃ v, thread = .idleRegister v) ∨ (shared.idleWaiters = [] → (shared.update w f).idleWaiters = [])) := by
    intro w f
    obtain ⟨-, htasks, hidle, herror⟩ := update_fields shared w f
    exact ⟨herror, htasks, .inr fun hempty => hidle.trans hempty⟩
  have hsame : shared.waitError = shared.waitError ∧ shared.taskWaiters = shared.taskWaiters ∧
      ((∃ v, thread = .idleRegister v) ∨ (shared.idleWaiters = [] → shared.idleWaiters = [])) :=
    ⟨rfl, rfl, .inr fun hempty => hempty⟩
  generalize hperform : perform shared thread = performed
  obtain ⟨after, new⟩ := performed
  cases performs hperform with
  | goes | skips => exact hsame
  | answers | hooks | wins | completes => exact hupdate _ _
  | registers w =>
    obtain ⟨-, htasks, -, herror⟩ := update_fields shared w fun wait => { wait with phase := .registered }
    exact ⟨herror, htasks, .inl ⟨w, rfl⟩⟩
  | takes htake =>
    refine ⟨rfl, rfl, .inr fun hempty => ?_⟩
    rw [hempty] at htake
    cases htake
    rfl

theorem step_emptied (h : Emptied s) {change : Step} (hgood : RegistersOpen s change) : Emptied (step s change) := by
  -- The maps and the error of a step that leaves them alone.
  have hkept : ∀ t : State, t.shared.waitError = s.shared.waitError →
      t.shared.taskWaiters = s.shared.taskWaiters → t.shared.idleWaiters = s.shared.idleWaiters →
      Emptied t := by
    intro t herror htasks hidle hclosed
    rw [herror] at hclosed
    rw [htasks, hidle]
    exact h hclosed
  cases change with
  | commit change =>
    unfold step
    dsimp only
    split
    · exact h
    · exact hkept _ rfl rfl rfl
  | closeStorage | settle => exact hkept _ rfl rfl rfl
  | waitForTask w id stopped =>
    unfold step
    dsimp only
    split
    · exact h
    unfold waitForTask
    cases herror : s.shared.waitError with
    | some error => exact hkept _ rfl rfl rfl
    | none =>
      intro hclosed
      apply absurd _ hclosed
      dsimp only
      split
      · exact herror
      · exact herror
      · split
        · exact herror
        · split
          · exact herror
          · exact herror
  | waitForIdle w scope stopped =>
    unfold step
    dsimp only
    split
    · exact h
    unfold waitForIdle
    split
    · exact hkept _ rfl rfl rfl
    · exact hkept _ rfl rfl rfl
  | requestStop w =>
    obtain ⟨-, htasks, hidle, herror⟩ := update_fields s.shared w fun wait =>
      { wait with stopped := true }
    exact hkept _ herror htasks hidle
  | cancel w =>
    unfold step
    dsimp only
    split
    · obtain ⟨-, htasks, hidle, herror⟩ := update_fields s.shared w fun wait =>
        { wait with phase := .claimed }
      exact hkept _ herror htasks hidle
    · exact h
  | notify id =>
    unfold step notify
    dsimp only
    split
    · exact hkept _ rfl rfl rfl
    split
    · exact hkept _ rfl rfl rfl
    intro hclosed
    obtain ⟨htasks, hidle⟩ := h hclosed
    rw [htasks]
    exact ⟨rfl, hidle⟩
  | close error => exact fun _ => ⟨rfl, rfl⟩
  | run i =>
    unfold step
    dsimp only
    cases hthread : s.threads[i]? with
    | none => exact h
    | some thread =>
      obtain ⟨herror, htasks, hidle⟩ := perform_maps s.shared thread
      intro hclosed
      rw [herror] at hclosed
      obtain ⟨hnoTasks, hnoIdle⟩ := h hclosed
      refine ⟨htasks.trans hnoTasks, ?_⟩
      rcases hidle with ⟨w, rfl⟩ | hempty
      · exact absurd (hgood w hthread) hclosed
      · exact hempty hnoIdle

end Close

/-! ## Completion -/

/-- A wait whose completion has been called. -/
def Done (s : State) (w : WaitId) : Prop := ∃ wait, s.shared.waits.find w = some wait ∧ wait.results ≠ []

/-- An actor completes the wait by going on alone. -/
def Completes (s : State) (w : WaitId) : Prop := ∃ i n, Done (runSteps s (List.replicate n (.run i))) w

section Completion

variable {s : State} {i : Nat} {w : WaitId} {wait : Wait} {result : Result}

theorem step_run {thread next : Thread} (hthread : s.threads[i]? = some thread)
    (hnext : (perform s.shared thread).2 = some next) :
    (step s (.run i)).shared = (perform s.shared thread).1 ∧ (step s (.run i)).threads[i]? = some next := by
  obtain ⟨hlt, -⟩ := List.getElem?_eq_some_iff.1 hthread
  unfold step
  simp only [hthread, hnext]
  simp [Nat.min_eq_left (Nat.le_of_lt hlt)]

theorem calling_completes {rest : List WaitId} (hthread : s.threads[i]? = some (.calling w result rest))
    (hwait : s.shared.waits.find w = some wait) : Done (step s (.run i)) w := by
  obtain ⟨hshared, -⟩ := step_run hthread rfl
  refine ⟨{ wait with results := wait.results ++ [result] }, ?_, by simp⟩
  rw [hshared]
  show (s.shared.update w _).waits.find w = _
  rw [find_update, if_pos rfl, hwait]
  rfl

theorem drain_completes {waiters : List WaitId} (hthread : s.threads[i]? = some (.drain waiters result))
    (hmem : w ∈ waiters) (hwait : s.shared.waits.find w = some wait) (hphase : wait.phase = .registered) :
    ∃ n, Done (runSteps s (List.replicate n (.run i))) w := by
  induction waiters generalizing s with
  | nil => cases hmem
  | cons first rest ih =>
    by_cases hopen : s.shared.open_ first = true
    · have hperform : perform s.shared (.drain (first :: rest) result) =
          (s.shared.enter first .claimed, some (.calling first result rest)) := if_pos hopen
      obtain ⟨hshared, hcalling⟩ := step_run hthread (by rw [hperform])
      rw [hperform] at hshared
      by_cases heq : w = first
      · subst heq
        have hclaimed : (step s (.run i)).shared.waits.find w = some { wait with phase := .claimed } := by
          rw [hshared]
          show (s.shared.update w _).waits.find w = _
          rw [find_update, if_pos rfl, hwait]
          rfl
        exact ⟨2, calling_completes hcalling hclaimed⟩
      obtain ⟨hshared', hdrain⟩ := step_run hcalling rfl
      have hsame : (step (step s (.run i)) (.run i)).shared.waits.find w = some wait := by
        rw [hshared']
        show ((step s (.run i)).shared.update first _).waits.find w = _
        rw [find_update, if_neg heq, hshared]
        show (s.shared.update first _).waits.find w = _
        rw [find_update, if_neg heq]
        exact hwait
      obtain ⟨n, hdone⟩ := ih hdrain ((List.mem_cons.1 hmem).resolve_left heq) hsame
      exact ⟨n + 2, hdone⟩
    · have hperform : perform s.shared (.drain (first :: rest) result) =
          (s.shared, some (.drain rest result)) := if_neg hopen
      obtain ⟨hshared, hdrain⟩ := step_run hthread (by rw [hperform])
      rw [hperform] at hshared
      -- The waiter that is passed over is not the registered one.
      have hne : w ≠ first := by
        rintro rfl
        exact hopen ((Option.any_eq_true _ _).2 ⟨wait, hwait, beq_iff_eq.2 hphase⟩)
      obtain ⟨n, hdone⟩ := ih hdrain ((List.mem_cons.1 hmem).resolve_left hne) (by rw [hshared]; exact hwait)
      exact ⟨n + 1, hdone⟩

end Completion

/-! ## Runs -/

/-- Waits as they should be: completed once, with the terminal record of the task, and none left after the
close notification. A call that has not registered its wait may still be on its way. -/
structure WaitsComplete (s : State) : Prop where
  once : ∀ w wait, s.shared.waits.find w = some wait → wait.results.length ≤ 1
  records : ∀ w wait id record, s.shared.waits.find w = some wait → wait.target = .task id →
    .record record ∈ wait.results → record.id = id ∧ Stored s.shared.tables record
  closed : s.shared.waitError ≠ none → ∀ w wait, s.shared.waits.find w = some wait →
    wait.results.length = 1 ∨ s.inCall w ≠ 0 ∨ Completes s w

section Runs

variable {s : State}

theorem Ledger.length_le {w : WaitId} {wait : Wait} (h : Ledger s w wait) : wait.results.length ≤ 1 := by
  unfold Ledger at h
  cases hphase : wait.phase with
  | inCall =>
    simp only [hphase] at h
    rw [h.2.2]
    exact Nat.zero_le 1
  | registered =>
    simp only [hphase] at h
    rw [h.2.2.1]
    exact Nat.zero_le 1
  | claimed =>
    simp only [hphase] at h
    omega

theorem Ledger.completes {w : WaitId} {wait : Wait} (h : Ledger s w wait)
    (hwait : s.shared.waits.find w = some wait) (hmaps : s.shared.registered = []) :
    wait.results.length = 1 ∨ s.inCall w ≠ 0 ∨ Completes s w := by
  unfold Ledger at h
  cases hphase : wait.phase with
  | inCall =>
    simp only [hphase] at h
    exact .inr (.inl (by omega))
  | registered =>
    simp only [hphase] at h
    have hpool := h.2.2.2
    unfold State.pool at hpool
    rw [hmaps, List.nil_append] at hpool
    obtain ⟨thread, hthread, hpend⟩ := List.mem_flatMap.1 hpool
    obtain ⟨i, hi⟩ := List.mem_iff_getElem?.1 hthread
    cases thread with
    | drain waiters result =>
      obtain ⟨n, hdone⟩ := drain_completes hi hpend hwait hphase
      exact .inr (.inr ⟨i, n, hdone⟩)
    | calling v result rest =>
      -- One step later the thread has only the list left.
      obtain ⟨hshared, hdrain⟩ := step_run hi rfl
      by_cases heq : w = v
      · subst heq
        exact .inr (.inr ⟨i, 1, calling_completes hi hwait⟩)
      have hsame : (step s (.run i)).shared.waits.find w = some wait := by
        rw [hshared]
        show (s.shared.update v _).waits.find w = _
        rw [find_update, if_neg heq]
        exact hwait
      obtain ⟨n, hdone⟩ := drain_completes hdrain hpend hsame hphase
      exact .inr (.inr ⟨i, n + 1, hdone⟩)
    | _ => cases hpend
  | claimed =>
    simp only [hphase] at h
    rcases Nat.eq_zero_or_pos (s.calls w) with hzero | hpos
    · exact .inl (by omega)
    obtain ⟨thread, hthread, hcalls⟩ := List.countP_pos_iff.1 hpos
    obtain ⟨i, hi⟩ := List.mem_iff_getElem?.1 hthread
    cases thread with
    | calling v result rest =>
      obtain rfl := eq_of_beq hcalls
      exact .inr (.inr ⟨i, 1, calling_completes hi hwait⟩)
    | _ => cases hcalls

theorem waitsComplete (hledgers : Ledgers s) (hrecords : Records s) (hemptied : Emptied s) : WaitsComplete s where
  once w wait hwait := (hledgers.known w wait hwait).length_le
  records w wait id record hwait htgt hmem := by
    obtain ⟨hfor, hstored⟩ := hrecords.results w wait record hwait hmem
    rw [htgt] at hfor
    cases hfor
    exact ⟨rfl, hstored⟩
  closed hclosed w wait hwait := by
    obtain ⟨htasks, hidle⟩ := hemptied hclosed
    refine (hledgers.known w wait hwait).completes hwait ?_
    unfold Shared.registered
    rw [htasks, hidle]
    rfl

theorem run_ledgers (h : Ledgers s) (steps : List Step) : Ledgers (runSteps s steps) := by
  induction steps generalizing s with
  | nil => exact h
  | cons change rest ih => exact ih (step_ledgers h change)

theorem run_records (h : Records s) (steps : List Step) : Records (runSteps s steps) := by
  induction steps generalizing s with
  | nil => exact h
  | cons change rest ih => exact ih (step_records h change)

theorem run_emptied (h : Emptied s) {steps : List Step} (hgood : RunRegistersOpen s steps) :
    Emptied (runSteps s steps) := by
  induction steps generalizing s with
  | nil => exact h
  | cons change rest ih => exact ih (step_emptied h hgood.1) hgood.2

theorem initial_ledgers : Ledgers {} where
  known w wait hwait := by cases hwait
  unknown w _ := ⟨rfl, rfl⟩

theorem initial_records : Records {} where
  sound := Tasks.initial_sound
  tasks id w hmem := by cases hmem
  carried thread hthread := by cases hthread
  results w wait record hwait := by cases hwait

/-- **Every wait completes once.** In every run in which `wait_for_idle` registers no wait after the close
notification, no completion is called twice, a wait for a task that gets a record gets the terminal one
of its task, and after the close notification every wait was completed or is in the hands of an actor
that completes it. -/
theorem run_waitsComplete (steps : List Step) (h : RunRegistersOpen {} steps) : WaitsComplete (runSteps {} steps) :=
  waitsComplete (run_ledgers initial_ledgers steps) (run_records initial_records steps)
    (run_emptied (fun hclosed => absurd rfl hclosed) h)

end Runs

/-! ### A wait for idleness at the close -/

/-- A wait for idleness while a task is pending, up to its registration. -/
def idleCall : List Step := [ .commit (.create [.task ⟨"work", 1, id⟩ .null {}]),
    .waitForIdle 0 none false, .run 0, .run 0, .run 0 ]

def sessionClosed : Error := validationError "Session is closed"

/-- The close notification takes a waiter that is registered. -/
theorem registered_completes : (runSteps {} (idleCall ++ [.run 0, .close sessionClosed])).shared.waitError ≠ none ∧
      WaitsComplete (runSteps {} (idleCall ++ [.run 0, .close sessionClosed])) := by
  refine ⟨by decide +kernel, run_waitsComplete _ ?_⟩
  refine ⟨trivial, trivial, ?_, ?_, ?_, ?_, trivial, trivial⟩
  · exact fun _ _ => by decide +kernel
  · exact fun _ _ => by decide +kernel
  · exact fun _ _ => by decide +kernel
  · exact fun _ _ => by decide +kernel

theorem runSteps_quiet {s : State} (h : s.threads = []) (i n : Nat) : runSteps s (List.replicate n (.run i)) = s := by
  induction n with
  | zero => rfl
  | succ n ih =>
    have hstep : step s (.run i) = s := by
      unfold step
      simp [h]
    show runSteps (step s (.run i)) (List.replicate n (.run i)) = s
    rw [hstep]
    exact ih

/-- The close notification falls between the check of `wait_error` and the registration. -/
def lostWait : List Step := idleCall ++ [.close sessionClosed, .run 1, .closeStorage, .run 0, .run 0, .run 0]

/-- The wait stays registered, and nobody completes it. -/
theorem lostWait_incomplete : ¬ WaitsComplete (runSteps {} lostWait) := by
  intro h
  have hclosed : (runSteps {} lostWait).shared.waitError ≠ none := by
    decide +kernel
  have hresults : ((runSteps {} lostWait).shared.waits.find 0).map (fun wait => wait.results.length) = some 0 := by
    decide +kernel
  have hquiet : (runSteps {} lostWait).threads = [] := List.eq_nil_of_length_eq_zero (by decide +kernel)
  obtain ⟨wait, hwait, hlength⟩ := Option.map_eq_some_iff.1 hresults
  rcases h.closed hclosed 0 wait hwait with hone | hcall | ⟨i, n, found, hfound, hdone⟩
  · omega
  · exact hcall rfl
  · rw [runSteps_quiet hquiet] at hfound
    cases hwait.symm.trans hfound
    exact hdone (List.eq_nil_of_length_eq_zero hlength)

end Waiters

end CodingHarness.Durable
