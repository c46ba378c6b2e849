import CodingHarness.Durable.Publication
import CodingHarness.Durable.TaskGraph
import CodingHarness.Durable.TaskWrites

/-!
# The task graph over runs

A mounted task graph is advanced with the publication of every commit, and its watches get a frame
for each advance that made an operation. `watched_exact` says when this keeps the mount equal to a
fresh hydration: in every run whose commits are `Steady`. Two kinds of commit are not. One that ends
a task with conversations and then writes it live again loses their edges, as the node that comes
back starts without any (`revived_task_loses_edges`). One that changes a task and changes it back, or
creates and ends it, delivers a frame although the graph is what it was.
-/

namespace CodingHarness.Durable

open Library Support Chord
open List (filterMap_append foldl_cons mem_cons_of_mem mem_cons_self)
open OrdMap (contains_eq_true_iff find_insert find_insert_cases)

namespace TaskGraph

/-! ## Watches -/

/-- A watch, with the value it was attached at and the frames its listener got. -/
structure Watch where
  first : Json
  value : Json
  frames : List Frame := []
  stopped : Bool := false

/-- `ViewMount`. -/
structure Mount where
  value : Json
  watchers : List Watch := []

def Watch.receive (frame : Frame) (watch : Watch) : Watch := if watch.stopped then watch
  else { watch with value := frame.value, frames := watch.frames ++ [frame] }

/-- `deliver`. A watch that another listener stops while the frame goes round does not get it: that
is a watch stopped before the commit. -/
def Mount.deliver (mount : Mount) (frame : Frame) : Mount := ⟨frame.value, mount.watchers.map (Watch.receive frame)⟩

/-- `ViewMountRegistry::advance` at the task graph. -/
def Mount.advance (mount : Mount) (publication : CommitPublication) : Mount :=
  match advanceTaskGraph mount.value publication with
  | none => mount
  | some frame => mount.deliver frame

/-- A Session and the mount of its Harness. -/
structure State where
  session : Session
  mount : Option Mount := none

/-- A step: one of the Session, `watch_task_graph`, or the stop of a watch. -/
inductive Step where
  | session (move : Session.Step)
  | watch
  | stop (index : Nat)

/-- `watch_task_graph`: the first watch mounts the hydrated graph, and every watch starts from the
mounted value. -/
def watchTaskGraph (s : State) : State := match hydrateTaskGraph s.session.storage with
  | .error _ => s
  | .ok hydrated =>
    let mount := s.mount.getD ⟨hydrated, []⟩
    { s with mount := some { mount with
        watchers := mount.watchers ++ [{ first := mount.value, value := mount.value }] } }

/-- The publication of a commit, if it has one. -/
def published : Session.Outcome → Option CommitPublication
  | .committed publication => some publication
  | _ => none

/-- One step. A new Session has a new Harness, without a mount. -/
def step (s : State) : Step → State
  | .session (.commit calls returned) =>
    let (outcome, session) := s.session.commitNow calls returned
    ⟨session, match published outcome with
      | none => s.mount
      | some publication => s.mount.map fun mount => mount.advance publication⟩
  | .session (.call c) => { s with session := s.session.step (.call c) }
  | .session .reopen => ⟨s.session.step .reopen, none⟩
  | .watch => watchTaskGraph s
  | .stop index =>
    { s with mount := s.mount.map fun mount =>
        { mount with watchers := mount.watchers.modify index fun watch =>
            { watch with stopped := true } } }

def run (s : State) (steps : List Step) : State := steps.foldl step s

/-! ## Exact mounts -/

/-- Each frame turns the value before it into another one. -/
def Chained : Json → List Frame → Prop
  | _, [] => True
  | value, frame :: rest =>
    applyImmutable value frame.ops = .ok frame.value ∧ Json.beq value frame.value = false ∧ Chained frame.value rest

def lastValue (first : Json) (frames : List Frame) : Json := (frames.getLast?.map Frame.value).getD first

/-- What a watch has seen. -/
structure Watch.Follows (mount : Mount) (watch : Watch) : Prop where
  chained : Chained watch.first watch.frames
  value : watch.value = lastValue watch.first watch.frames
  current : watch.stopped = false → watch.value = mount.value

/-- The mount equals a fresh hydration, and every frame led from the last value to a different one. -/
def IsExact (s : State) : Prop := ∀ mount, s.mount = some mount →
    (∃ hydrated, hydrateTaskGraph s.session.storage = .ok hydrated ∧ Json.beq mount.value hydrated = true) ∧
    ∀ watch ∈ mount.watchers, watch.Follows mount

/-! ## Steady commits -/

/-- What the graph shows of a task besides its conversations. -/
def shown (task : TaskRecord) : Option (JsonObject Json) :=
  if terminalStatus task.state.status then none else some (displayed task)

/-- What the graph shows of a task of a table. -/
def shownIn (tasks : OrdMap TaskId TaskRecord) (id : TaskId) : Option (JsonObject Json) :=
  (tasks.find id).bind shown

/-- The stored conversations in the order of their creation. -/
def conversationsOf (storage : StorageState) : List ConversationRecord :=
  storage.conversationIds.filterMap storage.conversations.find

def conversationOf : StorageWrite → Option ConversationRecord
  | .conversation record => record
  | _ => none

def taskWrites (batch : List StorageWrite) : List TaskRecord := batch.filterMap Transaction.taskOf

/-- The conversations that a batch creates. -/
def conversationWrites (batch : List StorageWrite) : List ConversationRecord := batch.filterMap conversationOf

/-- A batch that the mounted graph follows exactly. -/
structure Steady (storage : StorageState) (batch : List StorageWrite) : Prop where
  /-- The identities of the conversations are exact as doubles. -/
  exactIds : ExactIds (conversationsOf storage ++ conversationWrites batch)
  /-- A task with conversations that is live after the batch was never ended in it. -/
  unrevived : ∀ id, ownedIds (conversationsOf storage) id ≠ [] →
    (shownIn (insertAll storage.tasks (taskWrites batch)) id).isSome →
    ∀ record ∈ taskWrites batch, record.id = id → (shown record).isSome
  /-- A batch that changes nothing in the graph has no detour: each of its writes shows what was
  shown before. -/
  direct : (∀ id, shownIn (insertAll storage.tasks (taskWrites batch)) id = shownIn storage.tasks id) →
    (∀ record ∈ conversationWrites batch, record.owner = none) →
    ∀ record ∈ taskWrites batch, shown record = shownIn storage.tasks record.id

/-- A step that the mounted graph follows exactly. -/
def StepMeets (s : State) : Step → Prop
  | .session (.commit calls _) =>
    s.mount.isSome → ∀ assembly, Transaction.assemble (Transaction.calls ⟨s.session, {}⟩ calls) = .ok assembly →
      Steady s.session.storage assembly.writes
  | _ => True

/-- Every step of a run is followed exactly. -/
def RunMeets : State → List Step → Prop
  | _, [] => True
  | s, move :: rest => StepMeets s move ∧ RunMeets (step s move) rest

/-! ## The tables below a Session -/

/-- The conversation tables of a storage are in order: an identity names its record, and the list of
conversations is complete and without repetition. -/
structure Catalogued (s : StorageState) : Prop where
  listed : ∀ id ∈ s.conversationIds, s.conversations.contains id = true
  named : ∀ id record, s.conversations.find id = some record → record.id = id
  distinct : s.conversationIds.Nodup

/-- The tables that a Session keeps: identities name their records, and the owner of a conversation
is stored. -/
structure Grounded (s : StorageState) : Prop where
  usable : s.closed = false
  fresh : s.MintsFresh
  keyed : Tasks.Keyed s
  catalogued : Catalogued s
  owners : ∀ record ∈ conversationsOf s, ∀ owner, record.owner = some owner → s.tasks.contains owner.taskId = true

theorem grounded_empty : Grounded {} where
  usable := rfl
  fresh := StorageState.mintsFresh_empty
  keyed _ _ h := by cases h
  catalogued := ⟨fun _ h => (by cases h), fun _ _ h => (by cases h), List.nodup_nil⟩
  owners _ h := by cases h

theorem Grounded.advanced {s : StorageState} (h : Grounded s) (count : Nat) : Grounded (s.advanced count) where
  usable := h.usable
  fresh := h.fresh.advanced count
  keyed := h.keyed
  catalogued := ⟨h.catalogued.listed, h.catalogued.named, h.catalogued.distinct⟩
  owners := h.owners

theorem Catalogued.ids {s : StorageState} (h : Catalogued s) :
    (conversationsOf s).map ConversationRecord.id = s.conversationIds := by
  have hlisted := h.listed
  unfold conversationsOf
  generalize s.conversationIds = ids at hlisted
  induction ids with
  | nil => rfl
  | cons id rest ih =>
    obtain ⟨record, hrec⟩ := (contains_eq_true_iff _ _).1 (hlisted id mem_cons_self)
    rw [List.filterMap_cons_some hrec, List.map_cons, h.named id record hrec,
      ih fun other hother => hlisted other (mem_cons_of_mem _ hother)]

section Tables

variable {documents : OrdMap DocumentId StoredDocumentState} {batch : List StorageWrite} {seq : Seq}
  {consumeSeq : Bool} {next next' : StorageState}

theorem applyWrite_conversations {write : StorageWrite}
    (h : StorageState.applyWrite documents batch seq consumeSeq next write = .ok next') :
    (conversationOf write = none ∧ next'.conversations = next.conversations ∧
        next'.conversationIds = next.conversationIds) ∨
      ∃ record, conversationOf write = some record ∧ next.conversations.contains record.id = false ∧
        next'.conversations = next.conversations.insert record.id record ∧
        next'.conversationIds = next.conversationIds ++ [record.id] := by
  cases StorageState.applied h
  case conversation r hnew hpar => exact Or.inr ⟨r, rfl, hnew, rfl, rfl⟩
  all_goals exact Or.inl ⟨rfl, rfl, rfl⟩

theorem applyWrites_conversations {writes : List StorageWrite} (hinv : Catalogued next)
    (h : StorageState.applyWrites documents batch seq consumeSeq next writes = .ok next') :
    Catalogued next' ∧ conversationsOf next' = conversationsOf next ++ conversationWrites writes := by
  induction writes generalizing next with
  | nil =>
    cases h
    exact ⟨hinv, by simp [conversationWrites]⟩
  | cons write rest ih =>
    obtain ⟨updated, hwrite, hrest⟩ := StorageState.applyWrites_cons_eq_ok.1 h
    rcases applyWrite_conversations hwrite with ⟨hnone, htable, hids⟩ | ⟨record, hsome, hnew, htable, hids⟩
    · have hupd : Catalogued updated := ⟨by rw [htable, hids]; exact hinv.listed, by rw [htable]; exact hinv.named,
          by rw [hids]; exact hinv.distinct⟩
      obtain ⟨hdone, hlist⟩ := ih hupd hrest
      refine ⟨hdone, ?_⟩
      rw [hlist, conversationsOf, conversationsOf, htable, hids, conversationWrites,
        conversationWrites, List.filterMap_cons_none hnone]
    -- The new conversation is in neither table yet.
    have habsent : record.id ∉ next.conversationIds := by
      intro hmem
      rw [hinv.listed _ hmem] at hnew
      cases hnew
    have hupd : Catalogued updated := by
      refine ⟨?_, ?_, ?_⟩
      · intro id hid
        rw [hids, List.mem_append, List.mem_singleton] at hid
        rw [htable, OrdMap.contains_insert]
        rcases hid with hid | hid
        · simp [hinv.listed id hid]
        · simp [hid]
      · intro id other hfind
        rw [htable] at hfind
        rcases find_insert_cases hfind with ⟨rfl, rfl⟩ | hfind
        · exact rfl
        · exact hinv.named id other hfind
      · rw [hids]
        refine List.nodup_append.2 ⟨hinv.distinct, List.nodup_singleton _, ?_⟩
        intro x hx y hy heq
        rw [List.mem_singleton] at hy
        exact habsent (hy ▸ heq ▸ hx)
    obtain ⟨hdone, hlist⟩ := ih hupd hrest
    refine ⟨hdone, ?_⟩
    have hkept : next.conversationIds.filterMap updated.conversations.find = conversationsOf next := by
      refine List.filterMap_congr fun id hid => ?_
      rw [htable, find_insert, if_neg]
      rintro rfl
      exact habsent hid
    have hlast : updated.conversations.find record.id = some record := by
      rw [htable, OrdMap.find_insert_self]
    rw [hlist, conversationsOf, hids, filterMap_append, hkept, conversationWrites,
      conversationWrites, List.filterMap_cons_some hsome]
    simp [hlast]

end Tables

/-! ## One commit -/

theorem foldl_insertTask_eq (writes : List StorageWrite) (tasks : OrdMap TaskId TaskRecord) :
    writes.foldl StorageState.insertTask tasks = insertAll tasks (taskWrites writes) := by
  induction writes generalizing tasks with
  | nil => rfl
  | cons write rest ih =>
    rw [foldl_cons, ih]
    cases write with
    | task record => cases record <;> rfl
    | _ => rfl

theorem taskChanges_publication (assembly : Assembly) (seq : Seq) :
    (assembly.publication seq).changes.filterMap taskChange = taskWrites assembly.writes := by
  simp only [Assembly.publication, filterMap_append, List.filterMap_filterMap, List.filterMap_map]
  have hdocs : (assembly.documentChanges seq).filterMap (taskChange ∘ CommitChange.document)
      = [] := List.filterMap_eq_nil_iff.2 fun _ _ => rfl
  rw [hdocs, List.append_nil]
  refine List.filterMap_congr fun write _ => ?_
  cases write with
  | task record | conversation record | entry record | submission record => cases record <;> rfl
  | _ => rfl

theorem conversationChanges_publication (assembly : Assembly) (seq : Seq) :
    (assembly.publication seq).changes.filterMap conversationChange = conversationWrites assembly.writes := by
  simp only [Assembly.publication, filterMap_append, List.filterMap_filterMap, List.filterMap_map]
  have hdocs : (assembly.documentChanges seq).filterMap (conversationChange ∘ CommitChange.document) = [] :=
    List.filterMap_eq_nil_iff.2 fun _ _ => rfl
  rw [hdocs, List.append_nil]
  refine List.filterMap_congr fun write _ => ?_
  cases write with
  | task record | conversation record | entry record | submission record => cases record <;> rfl
  | _ => rfl

variable {w : Work}

theorem checkOwners_eq_ok {what : String} {owners : List TaskId}
    (h : Transaction.checkOwners w what owners = .ok ()) :
    ∀ owner ∈ owners, Transaction.checkOwner w what owner = .ok () := by
  induction owners with
  | nil => simp
  | cons first rest ih =>
    simp only [Transaction.checkOwners, bind_eq_ok] at h
    obtain ⟨⟨⟩, hfirst, hrest⟩ := h
    intro owner howner
    rcases List.mem_cons.1 howner with rfl | howner
    · exact hfirst
    · exact ih hrest owner howner

variable {record : TaskRecord}

theorem checkOwner_live {what : String} {owner : TaskId} (h : Transaction.checkOwner w what owner = .ok ())
    (hrec : (w.tx.stagedTasks.find owner).or (w.session.storage.tasks.find owner) = some record) :
    terminalStatus record.state.status = false := by
  simp only [Transaction.checkOwner, bind_eq_ok] at h
  obtain ⟨candidate, hcand, h⟩ := h
  have hsame : candidate = some record := by
    rw [← hrec]
    unfold Transaction.currentTask at hcand
    split at hcand
    · rename_i staged hstaged
      cases hcand
      rw [hstaged]
      rfl
    rename_i hnone
    simp only [StorageState.task, StorageState.reading] at hcand
    split at hcand
    · cases hcand
    · rw [hnone]
      exact (Except.ok.inj hcand).symm
  subst hsame
  simp only [Transaction.requireLiveOwner, bind_eq_ok, refuse_eq_ok, Bool.or_eq_false_iff] at h
  obtain ⟨-, ⟨hlive, -⟩, -⟩ := h
  exact hlive

variable {assembly : Assembly}

/-- Only the staged writes of a batch create conversations or write tasks. -/
theorem assembled_writes {resolved : OrdMap SubmissionId SubmissionRecord} (h : Assembled w assembly resolved) :
    conversationWrites assembly.writes = conversationWrites w.tx.writes ∧
      ∀ tasks, assembly.writes.foldl StorageState.insertTask tasks
        = w.tx.writes.foldl StorageState.insertTask tasks := by
  have hsubs : ∀ write ∈ resolved.values.map fun record => StorageWrite.submission (some record),
      conversationOf write = none ∧ ∀ tasks, StorageState.insertTask tasks write = tasks := by
    intro write hwrite
    obtain ⟨record, -, rfl⟩ := List.mem_map.1 hwrite
    exact ⟨rfl, fun _ => rfl⟩
  have hdocs : ∀ write ∈ assembly.documents.flatMap PreparedDocument.writes,
      conversationOf write = none ∧ ∀ tasks, StorageState.insertTask tasks write = tasks := by
    intro write hwrite
    obtain ⟨p, -, hp⟩ := List.mem_flatMap.1 hwrite
    refine ⟨?_, (PreparedDocument.writes_other hp).insertTask_eq⟩
    simp only [PreparedDocument.writes, PreparedDocument.contentWrite] at hp
    split at hp <;> grind [conversationOf]
  have hskip : ∀ (writes : List StorageWrite), (∀ write ∈ writes,
      ∀ tasks, StorageState.insertTask tasks write = tasks) → ∀ tasks : OrdMap TaskId TaskRecord,
      writes.foldl StorageState.insertTask tasks = tasks := by
    intro writes hwrites tasks
    induction writes with
    | nil => rfl
    | cons write rest ih =>
      rw [foldl_cons, hwrites write mem_cons_self]
      exact ih fun other hother => hwrites other (mem_cons_of_mem _ hother)
  refine ⟨?_, fun tasks => ?_⟩
  · unfold conversationWrites
    rw [h.writes, filterMap_append, filterMap_append,
      List.filterMap_eq_nil_iff.2 fun write hwrite => (hsubs write hwrite).1,
      List.filterMap_eq_nil_iff.2 fun write hwrite => (hdocs write hwrite).1]
    simp
  · rw [h.writes, List.foldl_append, List.foldl_append, hskip _ (fun write hwrite => (hsubs write hwrite).2),
      hskip _ fun write hwrite => (hdocs write hwrite).2]

/-- What a commit does to the tables of the graph. -/
structure Moves (before after : StorageState) (batch : List StorageWrite) : Prop where
  grounded : Grounded after
  tasks : after.tasks = insertAll before.tasks (taskWrites batch)
  conversations : conversationsOf after = conversationsOf before ++ conversationWrites batch
  /-- The owner of a new conversation is live after the commit. -/
  liveOwners : ∀ record ∈ conversationWrites batch, ∀ owner, record.owner = some owner →
    (shownIn after.tasks owner.taskId).isSome
  /-- No ended task is written again. -/
  final : ∀ id task, before.tasks.find id = some task → terminalStatus task.state.status = true →
    ∀ record ∈ taskWrites batch, record.id ≠ id

theorem conversationOwner_of {write : StorageWrite} {record : ConversationRecord}
    {owner : ConversationOwner} (h : conversationOf write = some record) (howner : record.owner = some owner) :
    Transaction.conversationOwner write = some owner.taskId := by
  cases write with
  | conversation other =>
    simp only [conversationOf] at h
    subst h
    simp [Transaction.conversationOwner, howner]
  | _ => simp [conversationOf] at h

variable {tasks : OrdMap TaskId TaskRecord}

theorem keyed_insertAll (h : ∀ id record, tasks.find id = some record → record.id = id) (records : List TaskRecord) :
    ∀ id record, (insertAll tasks records).find id = some record → record.id = id := by
  unfold insertAll
  induction records generalizing tasks with
  | nil => exact h
  | cons first rest ih =>
    refine ih fun id record hfind => ?_
    rcases find_insert_cases hfind with ⟨rfl, rfl⟩ | hfind
    · exact rfl
    · exact h id record hfind

/-- **One commit.** -/
theorem moves_of_committed {s : Session} {calls : List Transaction.Call}
    {storage : StorageState} (h : Grounded s.storage) (hc : Session.Committed s calls w assembly storage) :
    Moves s.storage storage assembly.writes := by
  obtain ⟨count, hstor⟩ := hc.effects.storage
  obtain ⟨resolved, ha⟩ := assemble_eq_ok hc.assembled
  obtain ⟨hmade, hstagedTasks⟩ := assembled_writes ha
  have htables := StorageState.applyNext_tables hc.applied
  have hprev : w.session.storage.tasks = s.storage.tasks := by
    rw [hstor]
    rfl
  have hlist : conversationsOf w.session.storage = conversationsOf s.storage := by
    rw [hstor]
    rfl
  have htasks : storage.tasks = insertAll s.storage.tasks (taskWrites assembly.writes) := by
    rw [htables.1, foldl_insertTask_eq, hprev]
  -- The last staged record of a task is the stored one afterwards.
  have hfinal : ∀ id, storage.tasks.find id = (w.tx.stagedTasks.find id).or (w.session.storage.tasks.find id) := by
    intro id
    have hmir : Mirrors w := hc.callback ▸ mirrors_calls s calls
    rw [htables.1, hstagedTasks, find_foldl_insertTask_or, hmir]
  have hknown : OwnersKnown w := by
    rw [hc.callback]
    exact ownersKnown_calls (fun owner hmem => by simp at hmem) calls
  have hcatalogued : Catalogued w.session.storage := by
    rw [hstor]
    exact (h.advanced count).catalogued
  obtain ⟨-, next, hwrites, hnext⟩ := StorageState.applyBatch_eq_ok.1 hc.applied
  obtain ⟨hdone, hconvs⟩ := applyWrites_conversations hcatalogued hwrites
  have hafter : conversationsOf storage = conversationsOf s.storage ++ conversationWrites assembly.writes := by
    rw [← hlist, ← hconvs, ← hnext]
    rfl
  have hliveOwner : ∀ record ∈ conversationWrites assembly.writes, ∀ owner,
      record.owner = some owner → ∃ task, storage.tasks.find owner.taskId = some task ∧
        terminalStatus task.state.status = false := by
    intro record hrec owner howner
    rw [hmade] at hrec
    obtain ⟨write, hwrite, hof⟩ := List.mem_filterMap.1 hrec
    have hmem : owner.taskId ∈ w.tx.writes.filterMap Transaction.conversationOwner :=
      List.mem_filterMap.2 ⟨write, hwrite, conversationOwner_of hof howner⟩
    have hfound : ∃ task, storage.tasks.find owner.taskId = some task := by
      rw [hfinal]
      rcases hknown _ hmem with hstaged | hstored
      · obtain ⟨task, htask⟩ := (contains_eq_true_iff _ _).1 hstaged
        exact ⟨task, by simp [htask]⟩
      obtain ⟨task, htask⟩ := (contains_eq_true_iff _ _).1 hstored
      cases hstaged : w.tx.stagedTasks.find owner.taskId with
      | none => exact ⟨task, by simp [htask]⟩
      | some staged => exact ⟨staged, rfl⟩
    obtain ⟨task, htask⟩ := hfound
    refine ⟨task, htask, ?_⟩
    have hassembled := hc.assembled
    simp only [Transaction.assemble, bind_eq_ok] at hassembled
    obtain ⟨_, -, _, -, _, -, ⟨⟩, howners, -⟩ := hassembled
    refine checkOwner_live (checkOwners_eq_ok howners owner.taskId ?_) ((hfinal _).symm.trans htask)
    rw [filterMap_append]
    exact List.mem_append_left _ hmem
  refine ⟨⟨StorageState.applyBatch_closed hc.applied, hc.mintsFresh h.fresh, ?_, ?_, ?_⟩, htasks, hafter, ?_, ?_⟩
  · intro id record hfind
    rw [htasks] at hfind
    exact keyed_insertAll h.keyed _ id record hfind
  · rw [← hnext]
    exact ⟨hdone.listed, hdone.named, hdone.distinct⟩
  · intro record hrec owner howner
    rw [hafter, List.mem_append] at hrec
    rw [contains_eq_true_iff]
    rcases hrec with hrec | hrec
    · obtain ⟨task, htask⟩ := (contains_eq_true_iff _ _).1 (h.owners record hrec owner howner)
      rw [hfinal, hprev, htask]
      cases w.tx.stagedTasks.find owner.taskId with
      | none => exact ⟨task, rfl⟩
      | some staged => exact ⟨staged, rfl⟩
    · obtain ⟨task, htask, -⟩ := hliveOwner record hrec owner howner
      exact ⟨task, htask⟩
  · intro record hrec owner howner
    obtain ⟨task, htask, hlive⟩ := hliveOwner record hrec owner howner
    simp [shownIn, htask, shown, hlive]
  · intro id task hfind hterm record hrec
    obtain ⟨write, hwrite, hof⟩ := List.mem_filterMap.1 hrec
    have hmem : .task (some record) ∈ assembly.writes := by
      cases write with
      | task other =>
        cases other with
        | none => cases hof
        | some other =>
          cases hof
          exact hwrite
      | _ => cases hof
    have hstat : task.state.status = Transaction.terminal := by
      simpa [terminalStatus, Transaction.terminal] using hterm
    exact hc.task_writes h.fresh hfind hstat hmem

/-! ## Hydration -/

/-- **A hydration shows the tables.** -/
theorem Grounded.hydrate {s : StorageState} (h : Grounded s) : ∃ members, hydrateTaskGraph s = .ok (rootOf members) ∧
      Shows members (nodes s.tasks (ownedIds (conversationsOf s))) := by
  let live := (s.tasks.values.filter fun task => !terminalStatus task.state.status).insertionSort
    fun a b => a.id ≤ b.id
  let members := live.map fun task =>
    (taskKey task.id, nodeJson task (ownedIds (conversationsOf s) task.id))
  have hmem : ∀ task, task ∈ live ↔ s.tasks.find task.id = some task ∧ terminalStatus task.state.status = false := by
    intro task
    rw [List.mem_insertionSort, List.mem_filter]
    constructor
    · rintro ⟨hvalue, hlive⟩
      exact ⟨h.keyed.of_mem hvalue, by simpa using hlive⟩
    · rintro ⟨hfind, hlive⟩
      exact ⟨OrdMap.mem_values_of_find hfind, by simpa using hlive⟩
  have hids : (live.map TaskRecord.id).Nodup := by
    have hperm : (live.map TaskRecord.id).Perm
        ((s.tasks.values.filter fun task => !terminalStatus task.state.status).map TaskRecord.id) :=
      (List.perm_insertionSort _ _).map _
    rw [hperm.nodup_iff]
    refine List.Nodup.sublist (List.filter_sublist.map _) ?_
    have hkeys : s.tasks.values.map TaskRecord.id = s.tasks.entries.map Prod.fst := by
      unfold OrdMap.values
      rw [List.map_map]
      refine List.map_congr_left fun entry hentry => ?_
      exact h.keyed _ _ ((OrdMap.find_eq_some_iff _ _ _).2 hentry)
    rw [hkeys, List.nodup_iff_pairwise_ne, List.pairwise_map]
    exact s.tasks.sorted.imp fun hlt => ne_of_lt hlt
  have hnodup : JsonObject.NodupKeys members := by
    have hkeys : members.map Prod.fst = (live.map TaskRecord.id).map taskKey := by simp [members]
    unfold JsonObject.NodupKeys
    rw [hkeys]
    exact hids.map fun a b hab => taskKey_inj.1 hab
  refine ⟨members, ?_, hnodup, ?_, ?_⟩
  · have htasks : s.scanTasks s.tasks.size = .ok s.tasks.values := by
      rw [StorageState.scanTasks, StorageState.reading, h.usable]
      simp [OrdMap.size, OrdMap.values]
    have hconvs : s.scanConversations s.conversationIds.length = .ok (conversationsOf s) := by
      rw [StorageState.scanConversations, StorageState.reading, h.usable]
      simp only [Bool.false_eq_true, if_false, Except.ok.injEq]
      exact List.take_of_length_le (List.length_filterMap_le _ _)
    simp only [hydrateTaskGraph, htasks, hconvs]
    exact congrArg (fun tasks => Except.ok (rootOf tasks)) (JsonObject.emplaceAll_of_nodup hnodup)
  · intro key hkey
    obtain ⟨m, hm, rfl⟩ := List.mem_map.1 hkey
    obtain ⟨task, -, rfl⟩ := List.mem_map.1 hm
    exact ⟨task.id, rfl⟩
  · intro id
    cases hnode : nodes s.tasks (ownedIds (conversationsOf s)) id with
    | some node =>
      obtain ⟨task, hfind, hlive, rfl⟩ := nodes_eq_some hnode
      have hid : task.id = id := h.keyed _ _ hfind
      subst hid
      exact JsonObject.find_of_mem hnodup (List.mem_map.2 ⟨task, (hmem task).2 ⟨hfind, hlive⟩, rfl⟩)
    | none =>
      rw [JsonObject.find_eq_none_iff]
      intro hkey
      obtain ⟨m, hm, hkey⟩ := List.mem_map.1 hkey
      obtain ⟨task, htask, rfl⟩ := List.mem_map.1 hm
      have hid : task.id = id := taskKey_inj.1 hkey
      subst hid
      obtain ⟨hfind, hlive⟩ := (hmem task).1 htask
      simp [nodes, hfind, nodeOf, hlive] at hnode

/-! ## One advance -/

variable {records : List TaskRecord}

theorem find_insertAll_of_absent {id : TaskId}
    (h : ∀ record ∈ records, record.id ≠ id) (tasks : OrdMap TaskId TaskRecord) :
    (insertAll tasks records).find id = tasks.find id := by
  unfold insertAll
  induction records generalizing tasks with
  | nil => rfl
  | cons record rest ih =>
    rw [foldl_cons, ih fun other hother => h other (mem_cons_of_mem _ hother),
      find_insert, if_neg (Ne.symm (h record mem_cons_self))]

variable {edges : TaskId → List ConversationId}

theorem nodes_isSome_iff {id : TaskId} : (nodes tasks edges id).isSome ↔ (shownIn tasks id).isSome := by
  unfold nodes shownIn
  cases tasks.find id with
  | none => simp
  | some task => cases h : terminalStatus task.state.status <;> simp [nodeOf, shown, h]

variable {before after : StorageState} {batch : List StorageWrite}

theorem Moves.edgesKept (h : Moves before after batch) (hprev : Grounded before) (hsteady : Steady before batch) :
    EdgesKept before.tasks (conversationsOf before) (taskWrites batch) := by
  intro id howns hsome
  rw [nodes_isSome_iff] at hsome
  refine ⟨?_, fun record hrec hid => ?_⟩
  · -- The owner of a stored conversation is stored, and had it ended it would stay so.
    obtain ⟨c, hc⟩ := List.exists_mem_of_ne_nil _ howns
    obtain ⟨record, hrec, howned, -⟩ := mem_ownedIds.1 hc
    obtain ⟨owner, howner, heq⟩ := (Option.any_eq_true _ _).1 howned
    have hid : owner.taskId = id := by simpa using heq
    obtain ⟨task, htask⟩ := (contains_eq_true_iff _ _).1 (hprev.owners record hrec owner howner)
    rw [hid] at htask
    cases hterm : terminalStatus task.state.status with
    | false => simp [nodes, htask, nodeOf, hterm]
    | true =>
      rw [shownIn, find_insertAll_of_absent (h.final id task htask hterm), htask] at hsome
      simp [shown, hterm] at hsome
  have hlive := hsteady.unrevived id howns hsome record hrec hid
  cases hterm : terminalStatus record.state.status with
  | false => rfl
  | true => simp [shown, hterm] at hlive

theorem task_unchanged {patch : Patch} (h : Shows patch.tasks (nodes tasks edges))
    (hexact : ∀ id, ∀ c ∈ edges id, Exact c)
    (hshown : shown record = shownIn tasks record.id) : patch.task record = patch := by
  have hsome : (nodes tasks edges record.id).isSome ↔ (shownIn tasks record.id).isSome := nodes_isSome_iff
  unfold Patch.task
  dsimp only
  rw [h.find]
  cases hterm : terminalStatus record.state.status with
  | true =>
    have hnone : shownIn tasks record.id = none := by
      rw [← hshown]
      simp [shown, hterm]
    rw [hnone] at hsome
    simp only [if_true]
    rw [if_neg (by simpa using hsome)]
  | false =>
    have hlive : shownIn tasks record.id = some (displayed record) := by
      rw [← hshown]
      simp [shown, hterm]
    obtain ⟨task, hfind, hdisplayed⟩ := Option.bind_eq_some_iff.1 hlive
    unfold shown at hdisplayed
    split at hdisplayed
    · cases hdisplayed
    rename_i hstored
    have hnode : nodes tasks edges record.id = some (nodeJson task (edges record.id)) := by
      simp [nodes, hfind, nodeOf, hstored]
    have hsame : nodeJson task (edges record.id) = nodeJson record (edges record.id) :=
      nodeJson_eq_iff.2 ⟨Option.some.inj hdisplayed, rfl⟩
    rw [hnode, hsame]
    simp only [Bool.false_eq_true, if_false, Option.map_some, Option.getD_some,
      listedIds_nodeJson record (hexact record.id), Option.any_some, beq_nodeJson_self, if_true]

variable {members : JsonObject Json}

theorem patchAll_unchanged (h : Shows members (nodes tasks edges)) (hexact : ∀ id, ∀ c ∈ edges id, Exact c)
    {created : List ConversationRecord} (hshown : ∀ record ∈ records, shown record = shownIn tasks record.id)
    (hfree : ∀ record ∈ created, record.owner = none) : patchAll members records created = ⟨members, []⟩ := by
  have htasks : records.foldl Patch.task ⟨members, []⟩ = ⟨members, []⟩ := by
    induction records with
    | nil => rfl
    | cons record rest ih =>
      rw [foldl_cons, task_unchanged h hexact (hshown record mem_cons_self)]
      exact ih fun other hother => hshown other (mem_cons_of_mem _ hother)
  unfold patchAll
  rw [htasks]
  induction created with
  | nil => rfl
  | cons record rest ih =>
    have hnone := hfree record mem_cons_self
    rw [foldl_cons, show Patch.conversation ⟨members, []⟩ record = ⟨members, []⟩ by
      simp [Patch.conversation, hnone]]
    exact ih fun other hother => hfree other (mem_cons_of_mem _ hother)

theorem shown_of_beq {members' : JsonObject Json} {tasks tasks' : OrdMap TaskId TaskRecord}
    {before after : List ConversationRecord} (h : Shows members (nodes tasks (ownedIds before)))
    (h' : Shows members' (nodes tasks' (ownedIds after))) (hprev : ExactIds before)
    (hafter : ExactIds after) (hbeq : Json.beq (rootOf members) (rootOf members') = true) (id : TaskId) :
    shownIn tasks' id = shownIn tasks id ∧ ((shownIn tasks' id).isSome → ownedIds before id = ownedIds after id) := by
  have hsame := h.sameMember_of_beq h' hbeq id
  have hfirst : (nodes tasks (ownedIds before) id).isSome ↔ (shownIn tasks id).isSome := nodes_isSome_iff
  have hsnd : (nodes tasks' (ownedIds after) id).isSome ↔ (shownIn tasks' id).isSome := nodes_isSome_iff
  cases hnode : nodes tasks (ownedIds before) id with
  | none =>
    cases hnode' : nodes tasks' (ownedIds after) id with
    | none =>
      rw [hnode] at hfirst
      rw [hnode'] at hsnd
      have hnone : shownIn tasks id = none := by simpa using hfirst
      have hnone' : shownIn tasks' id = none := by simpa using hsnd
      rw [hnone, hnone']
      simp
    | some node' => simp [hnode, hnode', sameMember] at hsame
  | some node =>
    cases hnode' : nodes tasks' (ownedIds after) id with
    | none => simp [hnode, hnode', sameMember] at hsame
    | some node' =>
      rw [hnode, hnode'] at hsame
      obtain ⟨task, hfind, hlive, rfl⟩ := nodes_eq_some hnode
      obtain ⟨task', hfind', hlive', rfl⟩ := nodes_eq_some hnode'
      obtain ⟨hdisplayed, hedges⟩ := nodeJson_eq_iff.1 (nodeJson_eq_of_beq hsame)
      refine ⟨?_, fun _ => (idArray_inj (hprev.edges id) (hafter.edges id)).1 hedges⟩
      simp [shownIn, hfind, hfind', shown, hlive, hlive', hdisplayed]

/-- **A steady commit that changes nothing makes no operation.** -/
theorem Moves.changed (h : Moves before after batch) (hprev : Grounded before) (hsteady : Steady before batch)
    (hshows : Shows members (nodes before.tasks (ownedIds (conversationsOf before))))
    (hops : (patchAll members (taskWrites batch) (conversationWrites batch)).ops ≠ []) : Json.beq (rootOf members)
      (rootOf (patchAll members (taskWrites batch) (conversationWrites batch)).tasks) = false := by
  have hexactBefore : ExactIds (conversationsOf before) :=
    fun record hrec => hsteady.exactIds record (List.mem_append_left _ hrec)
  have hnodup : ((conversationsOf before ++ conversationWrites batch).map ConversationRecord.id).Nodup := by
    rw [← h.conversations, h.grounded.catalogued.ids]
    exact h.grounded.catalogued.distinct
  obtain ⟨hafter, -⟩ := hshows.patchAll hnodup hsteady.exactIds (h.edgesKept hprev hsteady)
  cases hbeq : Json.beq (rootOf members)
      (rootOf (patchAll members (taskWrites batch) (conversationWrites batch)).tasks) with
  | false => rfl
  | true =>
    exfalso
    have hsame := shown_of_beq hshows hafter hexactBefore hsteady.exactIds hbeq
    have hfree : ∀ record ∈ conversationWrites batch, record.owner = none := by
      intro record hrec
      cases howner : record.owner with
      | none => rfl
      | some owner =>
        -- The new conversation is an edge of its live owner that was not there before.
        exfalso
        have hlive := h.liveOwners record hrec owner howner
        rw [h.tasks] at hlive
        have hedges := (hsame owner.taskId).2 hlive
        have hmem : record.id ∈ ownedIds (conversationsOf before ++ conversationWrites batch)
            owner.taskId :=
          mem_ownedIds.2 ⟨record, List.mem_append_right _ hrec, by simp [ownedBy, howner], rfl⟩
        rw [← hedges] at hmem
        obtain ⟨other, hother, -, heq⟩ := mem_ownedIds.1 hmem
        rw [List.map_append] at hnodup
        exact (List.nodup_append.1 hnodup).2.2 _ (List.mem_map.2 ⟨other, hother, rfl⟩) _
          (List.mem_map.2 ⟨record, hrec, rfl⟩) heq
    have hdirect := hsteady.direct (fun id => (hsame id).1) hfree
    exact hops (by rw [patchAll_unchanged hshows hexactBefore.edges hdirect hfree])

/-! ## Runs -/

theorem lastValue_append (first : Json) (frames : List Frame) (frame : Frame) :
    lastValue first (frames ++ [frame]) = frame.value := by
  simp [lastValue]

theorem chained_append {first : Json} {frames : List Frame} {frame : Frame} (h : Chained first frames)
    (happly : applyImmutable (lastValue first frames) frame.ops = .ok frame.value)
    (hchange : Json.beq (lastValue first frames) frame.value = false) : Chained first (frames ++ [frame]) := by
  induction frames generalizing first with
  | nil => exact ⟨happly, hchange, trivial⟩
  | cons next rest ih =>
    obtain ⟨hfirst, hother, hrest⟩ := h
    have hlast : lastValue first (next :: rest) = lastValue next.value rest := by
      cases rest <;> simp [lastValue, List.getLast?_cons]
    rw [hlast] at happly hchange
    exact ⟨hfirst, hother, ih hrest happly hchange⟩

theorem Watch.Follows.receive {mount : Mount} {watch : Watch} (h : watch.Follows mount) {frame : Frame}
    (happly : applyImmutable mount.value frame.ops = .ok frame.value)
    (hchange : Json.beq mount.value frame.value = false) : (watch.receive frame).Follows (mount.deliver frame) := by
  unfold Watch.receive
  cases hstopped : watch.stopped with
  | true =>
    refine ⟨h.chained, h.value, fun hrunning => ?_⟩
    simp [hstopped] at hrunning
  | false =>
    have hvalue := (h.value.symm.trans (h.current hstopped))
    rw [← hvalue] at happly hchange
    exact ⟨chained_append h.chained happly hchange, (lastValue_append _ _ _).symm, fun _ => rfl⟩

/-- The mounted value shows the tables, and the watches follow it. -/
structure Mount.Holds (mount : Mount) (storage : StorageState) : Prop where
  shows_ : ∃ members, mount.value = rootOf members ∧
    Shows members (nodes storage.tasks (ownedIds (conversationsOf storage)))
  watches : ∀ watch ∈ mount.watchers, watch.Follows mount

/-- **One publication at a mount.** -/
theorem Mount.Holds.advance {mount : Mount} (h : mount.Holds before) (hmoves : Moves before after assembly.writes)
    (hprev : Grounded before) (hsteady : Steady before assembly.writes) (seq : Seq) :
    (mount.advance (assembly.publication seq)).Holds after := by
  obtain ⟨members, hvalue, hshows⟩ := h.shows_
  have hnodup : ((conversationsOf before ++ conversationWrites assembly.writes).map ConversationRecord.id).Nodup := by
    rw [← hmoves.conversations, hmoves.grounded.catalogued.ids]
    exact hmoves.grounded.catalogued.distinct
  obtain ⟨hpatched, htracks⟩ := hshows.patchAll hnodup hsteady.exactIds (hmoves.edgesKept hprev hsteady)
  rw [← hmoves.tasks, ← hmoves.conversations] at hpatched
  have hmounted : mountedTasks (field "tasks" (.object members)) = members := by
    simp [mountedTasks, Json.asObject]
  unfold Mount.advance advanceTaskGraph
  rw [hvalue]
  simp only [rootOf, Json.asObject, Option.bind_eq_bind, Option.bind_some, hmounted,
    taskChanges_publication, conversationChanges_publication]
  cases hops : (patchAll members (taskWrites assembly.writes) (conversationWrites assembly.writes)).ops with
  | nil =>
    -- Without an operation the nodes are the old ones.
    have hsame := htracks.applies
    rw [hops] at hsame
    simp only [applyOps, Except.ok.injEq] at hsame
    simp only [List.isEmpty_nil, if_true]
    exact ⟨⟨_, hvalue.trans hsame, hpatched⟩, h.watches⟩
  | cons op rest =>
    have hne : (patchAll members (taskWrites assembly.writes)
        (conversationWrites assembly.writes)).ops ≠ [] := by simp [hops]
    have hchange := hmoves.changed hprev hsteady hshows hne
    rw [hops] at hne
    simp only [List.isEmpty_cons, Bool.false_eq_true, if_false]
    refine ⟨⟨_, rfl, hpatched⟩, fun watch hwatch => ?_⟩
    obtain ⟨old, hold, rfl⟩ := List.mem_map.1 hwatch
    refine (h.watches old hold).receive ?_ ?_
    · have hvalid := htracks.valid
      have happlies := htracks.applies
      rw [hops] at hvalid happlies
      rw [hvalue]
      simp only [applyImmutable, hvalid]
      exact happlies
    · rw [hvalue]
      exact hchange

/-- A state in which the tables are in order and the mount shows them. -/
structure Sound (s : State) : Prop where
  grounded : Grounded s.session.storage
  mounted : ∀ mount, s.mount = some mount → mount.Holds s.session.storage

variable {s : State}

theorem Sound.isExact (h : Sound s) : IsExact s := by
  intro mount hmount
  obtain ⟨⟨members, hvalue, hshows⟩, hwatches⟩ := h.mounted mount hmount
  obtain ⟨hydrated, hok, hfresh⟩ := h.grounded.hydrate
  refine ⟨⟨_, hok, ?_⟩, hwatches⟩
  rw [hvalue]
  refine hshows.beq hfresh fun id node hnode => ?_
  obtain ⟨task, -, -, rfl⟩ := nodes_eq_some hnode
  exact beq_nodeJson_self _ _

theorem Sound.advanced {s' : State} (h : Sound s) (count : Nat)
    (hstor : s'.session.storage = s.session.storage.advanced count) (hmount : s'.mount = s.mount) : Sound s' where
  grounded := hstor ▸ h.grounded.advanced count
  mounted mount hfound := by
    rw [hmount] at hfound
    rw [hstor]
    exact ⟨(h.mounted mount hfound).shows_, (h.mounted mount hfound).watches⟩

/-- **One step.** -/
theorem Sound.step (h : Sound s) (move : Step) (hmeets : StepMeets s move) : Sound (step s move) := by
  cases move with
  | session move =>
    cases move with
    | commit calls returned =>
      obtain ⟨count, hstor⟩ := (effects_calls ⟨s.session, {}⟩ calls).storage
      unfold TaskGraph.step
      rcases s.session.commitNow_cases calls returned with ⟨-, hcase⟩ | ⟨outcome, hne, hcase⟩ |
        ⟨-, w, assembly, storage, hc, hcase⟩
      · simp only [hcase, published]
        exact h
      · have hnone : published outcome = none := by
          cases outcome with
          | committed publication => exact absurd rfl (hne publication)
          | _ => rfl
        rcases hcase with hcase | hcase
        · simp only [hcase, hnone]
          exact h.advanced count hstor rfl
        · simp only [hcase, hnone]
          exact h.advanced count hstor rfl
      · have hmoves := moves_of_committed h.grounded hc
        have hafter : hc.after.storage = storage := by
          rw [Session.Committed.after, Session.settle_storage]
        simp only [hcase, published]
        refine ⟨by rw [hafter]; exact hmoves.grounded, fun mount hmount => ?_⟩
        obtain ⟨old, hold, rfl⟩ := Option.map_eq_some_iff.1 hmount
        have hsteady := hmeets (by simp [hold]) assembly (hc.callback ▸ hc.assembled)
        show Mount.Holds _ hc.after.storage
        rw [hafter]
        exact (h.mounted old hold).advance hmoves h.grounded hsteady _
    | call c =>
      refine h.advanced 0 ?_ rfl
      rw [StorageState.advanced_zero]
      exact Session.call_storage s.session c
    | reopen => exact ⟨h.grounded, fun mount hmount => (by cases hmount)⟩
  | watch =>
    unfold TaskGraph.step watchTaskGraph
    obtain ⟨members, hok, hshows⟩ := h.grounded.hydrate
    rw [hok]
    refine ⟨h.grounded, fun mount hmount => ?_⟩
    -- A new watch starts from the mounted value, whether the mount is new or not.
    have hold : (s.mount.getD ⟨rootOf members, []⟩).Holds s.session.storage := by
      cases hfound : s.mount with
      | none => exact ⟨⟨members, rfl, hshows⟩, fun watch hwatch => (by cases hwatch)⟩
      | some mount => exact h.mounted mount hfound
    cases hmount
    refine ⟨hold.shows_, fun watch hwatch => ?_⟩
    rcases List.mem_append.1 hwatch with hwatch | hwatch
    · exact ⟨(hold.watches watch hwatch).chained, (hold.watches watch hwatch).value,
        (hold.watches watch hwatch).current⟩
    · rw [List.mem_singleton.1 hwatch]
      exact ⟨trivial, rfl, fun _ => rfl⟩
  | stop index =>
    refine ⟨h.grounded, fun mount hmount => ?_⟩
    obtain ⟨old, hold, rfl⟩ := Option.map_eq_some_iff.1 hmount
    have hholds := h.mounted old hold
    refine ⟨hholds.shows_, fun watch hwatch => ?_⟩
    rcases mem_modify hwatch with hwatch | ⟨other, hother, rfl⟩
    · exact ⟨(hholds.watches watch hwatch).chained, (hholds.watches watch hwatch).value,
        (hholds.watches watch hwatch).current⟩
    refine ⟨(hholds.watches other hother).chained, (hholds.watches other hother).value, ?_⟩
    intro hrunning
    cases hrunning

/-- **A run.** -/
theorem Sound.run (h : Sound s) (steps : List Step) (hmeets : RunMeets s steps) : Sound (run s steps) := by
  unfold TaskGraph.run
  induction steps generalizing s with
  | nil => exact h
  | cons move rest ih => exact ih (h.step move hmeets.1) hmeets.2

def start : State := { session := { storage := {} } }

/-- **The task graph is maintained exactly.** In every run from an empty storage whose commits are
steady, the mount equals a fresh hydration of the store, the operations of every frame turn the value
before it into its own, and no frame leaves the value as it was. -/
theorem watched_exact (steps : List Step) (hmeets : RunMeets start steps) : IsExact (run start steps) :=
  (Sound.run ⟨grounded_empty, fun mount hmount => (by cases hmount)⟩ steps hmeets).isExact

/-- A task without a checkpoint of its own. -/
def worker : TaskDefinition := { kind := "worker", initial := fun _ => .null }

/-- A commit of a callback that succeeds. -/
def commits (calls : List Transaction.Call) : Step := .session (.commit calls (.ok ()))

theorem stepMeets_commits {s : State} {calls : List Transaction.Call} (batch : List StorageWrite)
    (hwrites : (Transaction.assemble (Transaction.calls ⟨s.session, {}⟩ calls)).toOption.map Assembly.writes = some batch)
    (hsteady : Steady s.session.storage batch) : StepMeets s (commits calls) := by
  intro _ assembly h
  rw [h] at hwrites
  exact Option.some.inj hwrites ▸ hsteady

/-- The task of a watched graph that owns a conversation. -/
def ownerTask : TaskRecord :=
  { id := 2, conversationId := 1, kind := "worker", state := ⟨"pending", some .null, [], none, none⟩ }

def ended (task : TaskRecord) : TaskRecord := { task with state := ⟨"terminal", none, [], none, none⟩ }

/-- A task that owns a conversation, under a watch. -/
def ownedRun : List Step := [commits [.createRootConversation, .createTask worker .null {}],
    commits [.createOwnedConversation 2], .watch]

/-- Under a watch another task is created, and then the task that owns a conversation ends. -/
def endedRun : List Step :=
  ownedRun ++ [commits [.createTask worker .null {}], commits [.setTask (ended ownerTask)]]

theorem endedRun_exact : IsExact (run start endedRun) := by
  apply watched_exact
  refine ⟨fun h => absurd h (by decide +kernel), fun h => absurd h (by decide +kernel), trivial, ?_, ?_, trivial⟩
  · apply stepMeets_commits [.task (some { ownerTask with id := 4 })] (by decide +kernel)
    refine ⟨by decide +kernel, fun id howns _ record hrecord hid => ?_, fun hsame => ?_⟩
    · rw [← hid, List.mem_singleton.1 hrecord] at howns
      exact absurd howns (by decide +kernel)
    · exact absurd (hsame 4) (by decide +kernel)
  apply stepMeets_commits [.task (some (ended ownerTask))] (by decide +kernel)
  refine ⟨by decide +kernel, fun id _ hshown record hrecord hid => ?_, fun hsame => ?_⟩
  · rw [← hid, List.mem_singleton.1 hrecord] at hshown
    exact absurd hshown (by decide +kernel)
  · exact absurd (hsame 2) (by decide +kernel)

/-- One commit ends the task and writes it live again. -/
def revivedRun : List Step := ownedRun ++ [commits [.setTask (ended ownerTask), .setTask ownerTask]]

/-- One commit creates another task and ends it. -/
def transientRun : List Step :=
  ownedRun ++ [commits [.createTask worker .null {}, .setTask (ended { ownerTask with id := 4 })]]

/-- The mounted value compares equal to a fresh hydration. -/
def mountAgrees (s : State) : Bool := s.mount.all fun mount =>
    (hydrateTaskGraph s.session.storage).toOption.any fun hydrated => Json.beq mount.value hydrated

/-- The first frame of every watch changes the value. -/
def firstFrameChanges (s : State) : Bool := s.mount.all fun mount => mount.watchers.all fun watch =>
    watch.frames.head?.all fun frame => !Json.beq watch.first frame.value

theorem IsExact.mountAgrees (h : IsExact s) : mountAgrees s = true := by
  unfold TaskGraph.mountAgrees
  cases hmount : s.mount with
  | none => rfl
  | some mount =>
    obtain ⟨⟨hydrated, hok, hbeq⟩, -⟩ := h mount hmount
    simp [hok, hbeq, Except.toOption]

theorem IsExact.firstFrameChanges (h : IsExact s) : firstFrameChanges s = true := by
  unfold TaskGraph.firstFrameChanges
  cases hmount : s.mount with
  | none => rfl
  | some mount =>
    obtain ⟨-, hwatches⟩ := h mount hmount
    simp only [Option.all_some, List.all_eq_true]
    intro watch hwatch
    have hchained := (hwatches watch hwatch).chained
    cases hframes : watch.frames with
    | nil => rfl
    | cons frame rest =>
      rw [hframes] at hchained
      simp [hchained.2.1]

/-- The revived task has no edge to its conversation any more, and the task that came and went
delivered a frame of the value that was there before. -/
theorem revived_task_loses_edges : ¬ IsExact (run start revivedRun) ∧ ¬ IsExact (run start transientRun) := by
  refine ⟨fun h => ?_, fun h => ?_⟩
  · exact absurd h.mountAgrees (by decide +kernel)
  · exact absurd h.firstFrameChanges (by decide +kernel)

end TaskGraph

end CodingHarness.Durable
