import CodingHarness.Durable.StagedWrites
import CodingHarness.Durable.TaskWrites
import CodingHarness.Durable.Visibility

/-!
# The overlay of tasks

`overlay_tasks` merges one scan of the committed tasks with the writes of the transaction. `Complete` is what its
callers rely on: in ascending order, one record for each committed or staged task, the last staged candidate before
the committed record. The scan stops after `scanLimit` records, so the overlay is complete exactly when every
committed task behind the limit has been staged as well (`overlayTasks_complete_iff`).
-/

namespace CodingHarness.Durable

open Library Support Chord
open OrdMap (find_eq_some_iff find_insert find_insert_cases)

namespace Transaction

/-- `overlay_tasks` of a transaction that has not settled. -/
def overlayTasks (w : Work) : Expected (List TaskRecord) := do
  let committed ← w.session.storage.scanTasks Tasks.scanLimit
  let merged := w.tx.stagedTasks.entries.foldl (fun merged staged => merged.insert staged.1 staged.2)
    (Tasks.byId committed)
  return merged.values

/-- The last candidate that a batch of writes stages for a task. -/
def lastStaged (writes : List StorageWrite) (id : TaskId) : Option TaskRecord :=
  (writes.filterMap taskOf).reverse.find? fun record => record.id == id

/-- The record of a task as the transaction sees it. -/
def candidate (w : Work) (id : TaskId) : Option TaskRecord :=
  (lastStaged w.tx.writes id).or (w.session.storage.tasks.find id)

/-- The records are the candidates of all tasks, in ascending order. -/
structure Complete (w : Work) (records : List TaskRecord) : Prop where
  ascending : records.Pairwise fun a b => a.id < b.id
  candidates : ∀ id record, (record ∈ records ∧ record.id = id) ↔ candidate w id = some record

end Transaction

/-! ## Maps -/

def firstEntries (tasks : OrdMap TaskId TaskRecord) (limit : Nat) : OrdMap TaskId TaskRecord :=
  ⟨tasks.entries.take limit, tasks.sorted.sublist (List.take_sublist _ _)⟩

theorem find_firstEntries (tasks : OrdMap TaskId TaskRecord) (limit : Nat) (id : TaskId) (record : TaskRecord) :
    (firstEntries tasks limit).find id = some record ↔ (id, record) ∈ tasks.entries.take limit :=
  find_eq_some_iff (firstEntries tasks limit) id record

/-- The entries of a map, inserted one after another, hide those of the map below. -/
theorem find_insertEntries (base tasks : OrdMap TaskId TaskRecord) (id : TaskId) :
    (tasks.entries.foldl (fun merged staged => merged.insert staged.1 staged.2) base).find id =
      (tasks.find id).or (base.find id) := by
  obtain ⟨entries, hsorted⟩ := tasks
  change (entries.foldl (fun merged staged => merged.insert staged.1 staged.2) base).find id =
    (OrdMap.findEntry id entries).or (base.find id)
  induction entries generalizing base with
  | nil => rfl
  | cons entry rest ih =>
    obtain ⟨key, record⟩ := entry
    obtain ⟨hhead, hrest⟩ := List.pairwise_cons.1 hsorted
    rw [List.foldl_cons, ih _ hrest, find_insert, OrdMap.findEntry]
    by_cases hid : id = key
    · subst hid
      simp [OrdMap.findEntry_eq_none_of_lt id rest hhead]
    · simp [hid]

theorem values_ascending {tasks : OrdMap TaskId TaskRecord}
    (h : ∀ id record, tasks.find id = some record → record.id = id) :
    tasks.values.Pairwise fun a b => a.id < b.id := by
  rw [OrdMap.values, List.pairwise_map]
  refine tasks.sorted.imp_of_mem fun {a b} ha hb hlt => ?_
  rwa [h a.1 a.2 ((find_eq_some_iff _ _ _).2 ha), h b.1 b.2 ((find_eq_some_iff _ _ _).2 hb)]

/-! ## Committed and staged tasks -/

namespace StorageState

variable {documents : OrdMap DocumentId StoredDocumentState} {batch : List StorageWrite} {next next' : StorageState}

theorem applyWrite_keyed {seq : Seq} {consumeSeq : Bool} {write : StorageWrite} (h : Tasks.Keyed next)
    (hwrite : applyWrite documents batch seq consumeSeq next write = .ok next') : Tasks.Keyed next' := by
  cases applied hwrite
  case task record =>
    intro id stored hfind
    rcases find_insert_cases hfind with ⟨rfl, rfl⟩ | hfind
    · exact rfl
    · exact h id stored hfind
  all_goals exact h

theorem applyWrites_keyed {seq : Seq} {consumeSeq : Bool} {writes : List StorageWrite} (h : Tasks.Keyed next)
    (hwrites : applyWrites documents batch seq consumeSeq next writes = .ok next') : Tasks.Keyed next' := by
  induction writes generalizing next with
  | nil =>
    cases hwrites
    exact h
  | cons write rest ih =>
    obtain ⟨updated, hwrite, hrest⟩ := applyWrites_cons_eq_ok.1 hwrites
    exact ih (applyWrite_keyed h hwrite) hrest

/-- A reachable storage is open and has its tasks under their identities. -/
theorem Reachable.tasks {s : StorageState} (h : Reachable s) : s.closed = false ∧ Tasks.Keyed s := by
  refine ⟨h.transcript.isOpen, ?_⟩
  induction h with
  | initial closedMessage =>
    intro id record hfind
    cases hfind
  | batch writes seq consumeSeq run ok ih =>
    simp only [applyBatch, run.transcript.isOpen, Bool.false_eq_true, if_false, bind_eq_ok, pure_eq_ok] at ok
    obtain ⟨next, hnext, rfl⟩ := ok
    have hkeyed : Tasks.Keyed next := applyWrites_keyed ih hnext
    exact hkeyed
  | reserveId run ih => exact ih
  | marks nextId nextSeq run ok ih =>
    simp only [restoreHighWaterMarks, run.transcript.isOpen, Bool.false_eq_true, if_false, Except.ok.injEq] at ok
    subst ok
    exact ih

end StorageState

namespace Transaction

theorem lastStaged_append (writes : List StorageWrite) (write : StorageWrite) (id : TaskId) :
    lastStaged (writes ++ [write]) id = match taskOf write with
      | some record => if record.id = id then some record else lastStaged writes id
      | none => lastStaged writes id := by
  unfold lastStaged
  rw [List.filterMap_append]
  cases hwrite : taskOf write with
  | none => simp [hwrite]
  | some record =>
    simp only [List.filterMap_cons, hwrite, List.filterMap_nil, List.reverse_append, List.reverse_cons,
      List.reverse_nil, List.nil_append, List.singleton_append, List.find?_cons]
    by_cases hid : record.id = id
    · simp [hid]
    · rw [beq_false_of_ne hid, if_neg hid]

theorem find_foldl_insertTask (writes : List StorageWrite) (id : TaskId) :
    (writes.foldl StorageState.insertTask .empty).find id = lastStaged writes id := by
  induction writes using List.reverseRecOn with
  | nil => rfl
  | append_singleton rest write ih =>
    rw [List.foldl_append, List.foldl_cons, List.foldl_nil, lastStaged_append, ← ih]
    cases write with
    | task record =>
      cases record with
      | none => rfl
      | some record =>
        rw [StorageState.insertTask, find_insert]
        simp [taskOf, eq_comm]
    | _ => rfl

variable {record : TaskRecord}

theorem lastStaged_id {writes : List StorageWrite} {id : TaskId}
    (h : lastStaged writes id = some record) : record.id = id := by
  simpa using List.find?_some h

/-! ## The merge -/

section Merge

variable {w : Work}

def merged (w : Work) (id : TaskId) : Option TaskRecord :=
  (lastStaged w.tx.writes id).or ((firstEntries w.session.storage.tasks Tasks.scanLimit).find id)

theorem find_first_of_find {id : TaskId} {record : TaskRecord} {limit : Nat}
    (h : (firstEntries w.session.storage.tasks limit).find id = some record) :
    w.session.storage.tasks.find id = some record := by
  rw [find_firstEntries] at h
  exact (find_eq_some_iff _ _ _).2 (List.mem_of_mem_take h)

theorem overlayTasks_eq (hopen : w.session.storage.closed = false) (hkeyed : Tasks.Keyed w.session.storage)
    (hmir : Mirrors w) :
    ∃ tasks : OrdMap TaskId TaskRecord, overlayTasks w = .ok tasks.values ∧ ∀ id, tasks.find id = merged w id := by
  refine ⟨w.tx.stagedTasks.entries.foldl (fun merged staged => merged.insert staged.1 staged.2)
    (Tasks.byId (w.session.storage.tasks.values.take Tasks.scanLimit)), ?_, ?_⟩
  · simp only [overlayTasks, StorageState.scanTasks, StorageState.reading, hopen, Bool.false_eq_true, if_false]
    rfl
  intro id
  have hvalues : w.session.storage.tasks.values.take Tasks.scanLimit =
      (firstEntries w.session.storage.tasks Tasks.scanLimit).values := (List.map_take ..).symm
  have hfirst : (Tasks.byId (w.session.storage.tasks.values.take Tasks.scanLimit)).find id =
      (firstEntries w.session.storage.tasks Tasks.scanLimit).find id := by
    rw [Tasks.byId, hvalues, OrdMap.find_insertValues _ _ TaskRecord.id, OrdMap.find_empty, Option.or_none]
    exact fun key record hfind => hkeyed key record (find_first_of_find hfind)
  rw [find_insertEntries, hfirst, hmir, find_foldl_insertTask]
  rfl

/-- The merge shows every candidate exactly when the tasks behind the limit are staged. -/
theorem merged_eq_candidate_iff (hkeyed : Tasks.Keyed w.session.storage) : (∀ id, merged w id = candidate w id) ↔
      ∀ record ∈ w.session.storage.tasks.values.drop Tasks.scanLimit,
        (lastStaged w.tx.writes record.id).isSome = true := by
  have hsplit := List.take_append_drop Tasks.scanLimit w.session.storage.tasks.entries
  constructor
  · intro hsame record hrec
    rw [OrdMap.values, ← List.map_drop] at hrec
    obtain ⟨⟨id, stored⟩, hentry, rfl⟩ := List.mem_map.1 hrec
    have hfind : w.session.storage.tasks.find id = some stored :=
      (find_eq_some_iff _ _ _).2 (List.mem_of_mem_drop hentry)
    cases hstaged : lastStaged w.tx.writes stored.id with
    | some other => rfl
    | none =>
      -- The scan would have to show a task that comes after all it returns.
      rw [hkeyed id stored hfind] at hstaged
      have heq := hsame id
      rw [merged, candidate, hstaged, Option.none_or, Option.none_or, hfind, find_firstEntries] at heq
      have hsorted := w.session.storage.tasks.sorted
      rw [← hsplit] at hsorted
      exact absurd ((List.pairwise_append.1 hsorted).2.2 _ heq _ hentry) (lt_irrefl _)
  · intro hstaged id
    rw [merged, candidate]
    cases hlast : lastStaged w.tx.writes id with
    | some record => rfl
    | none =>
      cases hfind : w.session.storage.tasks.find id with
      | none =>
        cases hfirst : (firstEntries w.session.storage.tasks Tasks.scanLimit).find id with
        | none => rfl
        | some record => rw [find_first_of_find hfirst] at hfind; cases hfind
      | some record =>
        have hentry := (find_eq_some_iff _ _ _).1 hfind
        rw [← hsplit] at hentry
        rcases List.mem_append.1 hentry with htake | hdrop
        · exact (find_firstEntries _ _ _ _).2 htake
        have hvalue : record ∈ w.session.storage.tasks.values.drop Tasks.scanLimit := by
          rw [OrdMap.values, ← List.map_drop]
          exact List.mem_map_of_mem (f := Prod.snd) hdrop
        have hsome := hstaged record hvalue
        rw [hkeyed id record hfind, hlast] at hsome
        cases hsome

/-- The overlay of an open storage is complete exactly when the tasks behind the limit are staged. -/
theorem complete_iff (hopen : w.session.storage.closed = false) (hkeyed : Tasks.Keyed w.session.storage)
    (hmir : Mirrors w) : (∃ records, overlayTasks w = .ok records ∧ Complete w records) ↔
      ∀ record ∈ w.session.storage.tasks.values.drop Tasks.scanLimit,
        (lastStaged w.tx.writes record.id).isSome = true := by
  obtain ⟨tasks, hoverlay, hfind⟩ := overlayTasks_eq hopen hkeyed hmir
  have hids : ∀ id record, tasks.find id = some record → record.id = id := by
    intro id record hrec
    rw [hfind] at hrec
    rcases Option.or_eq_some_iff.1 hrec with hstaged | ⟨-, hcommit⟩
    · exact lastStaged_id hstaged
    · exact hkeyed id record (find_first_of_find hcommit)
  have hmem : ∀ id record, (record ∈ tasks.values ∧ record.id = id) ↔ tasks.find id = some record := by
    intro id record
    constructor
    · rintro ⟨hvalue, rfl⟩
      obtain ⟨entry, hentry, rfl⟩ := List.mem_map.1 hvalue
      have hstored := (find_eq_some_iff tasks entry.1 entry.2).2 hentry
      rwa [hids _ _ hstored]
    · exact fun hstored => ⟨OrdMap.mem_values_of_find hstored, hids id record hstored⟩
  rw [← merged_eq_candidate_iff hkeyed]
  constructor
  · rintro ⟨records, hok, hcomplete⟩ id
    obtain rfl : tasks.values = records := Except.ok.inj (hoverlay.symm.trans hok)
    rw [← hfind]
    refine Option.ext fun record => ?_
    rw [← hmem, hcomplete.candidates]
  intro hsame
  refine ⟨tasks.values, hoverlay, values_ascending hids, fun id record => ?_⟩
  rw [hmem, hfind, hsame]

end Merge

/-- **The overlay is complete** in a transaction over a reachable storage exactly when every committed task behind
the first `scanLimit` is staged. -/
theorem overlayTasks_complete_iff {session : Session} (hcommitted : StorageState.Reachable session.storage)
    (list : List Call) : (∃ records, overlayTasks (calls ⟨session, {}⟩ list) = .ok records ∧
        Complete (calls ⟨session, {}⟩ list) records) ↔
      ∀ record ∈ (calls ⟨session, {}⟩ list).session.storage.tasks.values.drop Tasks.scanLimit,
        (lastStaged (calls ⟨session, {}⟩ list).tx.writes record.id).isSome = true := by
  obtain ⟨count, hstorage⟩ := (effects_calls ⟨session, {}⟩ list).storage
  obtain ⟨hopen, hkeyed⟩ := hcommitted.tasks
  refine complete_iff ?_ ?_ (mirrors_calls session list)
  · rw [hstorage]
    exact hopen
  · rw [hstorage]
    exact hkeyed

/-! ## A crowded storage -/

def waitingTask (id : TaskId) : TaskRecord where
  id := id
  conversationId := 1
  kind := "sample"
  version := 1
  input := .null
  state := ⟨"pending", none, [], none, none⟩

theorem insertEntry_last {id : TaskId} {entries : List (TaskId × TaskRecord)} (h : ∀ entry ∈ entries, entry.1 < id) :
    OrdMap.insertEntry id record entries = entries ++ [(id, record)] := by
  induction entries with
  | nil => rfl
  | cons entry rest ih =>
    obtain ⟨key, stored⟩ := entry
    have hlt : key < id := h (key, stored) List.mem_cons_self
    rw [OrdMap.insertEntry, if_neg (ne_of_gt hlt), if_neg (not_lt_of_gt hlt),
      ih fun other hother => h other (List.mem_cons_of_mem _ hother), List.cons_append]

theorem exists_crowded (count : Nat) : ∃ s, StorageState.Reachable s ∧
      s.tasks.entries = (List.range count).map fun n : Nat => ((n : TaskId), waitingTask n) := by
  induction count with
  | zero => exact ⟨_, .initial [], rfl⟩
  | succ count ih =>
    obtain ⟨s, hs, htasks⟩ := ih
    have hlt : ∀ entry ∈ s.tasks.entries, entry.1 < (count : TaskId) := by
      intro entry hentry
      rw [htasks] at hentry
      obtain ⟨n, hn, rfl⟩ := List.mem_map.1 hentry
      exact Int.ofNat_lt.2 (List.mem_range.1 hn)
    have hnew : s.tasks.find (count : TaskId) = none := by
      cases hfind : s.tasks.find (count : TaskId) with
      | none => rfl
      | some record => exact absurd (hlt _ ((find_eq_some_iff _ _ _).1 hfind)) (lt_irrefl _)
    refine ⟨{ s with
      tasks := s.tasks.insert (count : TaskId) (waitingTask count)
      nextId := max s.nextId ((count : TaskId) + 1)
      nextSeq := max s.nextSeq (0 + 1) }, .batch [.task (some (waitingTask count))] 0 true hs ?_, ?_⟩
    · have hmoves : StorageState.taskMoves s (waitingTask count) = false := by
        rw [StorageState.taskMoves, show (waitingTask count).id = (count : TaskId) from rfl, hnew]
        rfl
      simp [StorageState.applyBatch, hs.tasks.1, StorageState.applyWrites, StorageState.applyWrite,
        StorageState.applyTask, hmoves, present, refuse, bind_eq_ok]
      exact ⟨rfl, rfl⟩
    · rw [List.range_succ, List.map_append, ← htasks]
      exact insertEntry_last hlt

/-- One task of a crowded storage is behind the limit. -/
theorem crowded_last {s : StorageState} (h : s.tasks.entries =
    (List.range (Tasks.scanLimit + 1)).map fun n : Nat => ((n : TaskId), waitingTask n)) :
    s.tasks.values.drop Tasks.scanLimit = [waitingTask Tasks.scanLimit] := by
  have hlength : ((List.range Tasks.scanLimit).map fun n : Nat => waitingTask (n : TaskId)).length = Tasks.scanLimit := by
    simp
  rw [OrdMap.values, h, List.map_map, List.range_succ, List.map_append]
  exact List.drop_left' hlength

/-- New candidates for a task that the scan shows and for the one behind the limit. -/
def overlapping : List Call := [.setTask { waitingTask 3 with abortRequested := true },
  .setTask { waitingTask Tasks.scanLimit with abortRequested := true }]

/-- A crowded storage whose last task is staged: the overlay shows the staged candidates. -/
theorem overlayTasks_complete_iff_overlapping : ∃ s records, StorageState.Reachable s ∧
    s.tasks.entries.length = Tasks.scanLimit + 1 ∧
    overlayTasks (calls ⟨{ storage := s }, {}⟩ overlapping) = .ok records ∧
    Complete (calls ⟨{ storage := s }, {}⟩ overlapping) records ∧
    { waitingTask 3 with abortRequested := true } ∈ records := by
  obtain ⟨s, hs, htasks⟩ := exists_crowded (Tasks.scanLimit + 1)
  have hstaged := (@overlayTasks_complete_iff { storage := s } hs overlapping).2 (by
    intro record hrec
    rw [show (calls ⟨{ storage := s }, {}⟩ overlapping).session.storage = s from rfl, crowded_last htasks,
      List.mem_singleton] at hrec
    rw [hrec]
    rfl)
  obtain ⟨records, hoverlay, hcomplete⟩ := hstaged
  exact ⟨s, records, hs, by simp [htasks], hoverlay, hcomplete, ((hcomplete.candidates 3 _).2 rfl).1⟩

/-- The task behind the limit is missing from the overlay. -/
theorem overlay_incomplete : ¬ ∀ (session : Session) (list : List Call), StorageState.Reachable session.storage →
      ∃ records, overlayTasks (calls ⟨session, {}⟩ list) = .ok records ∧
        Complete (calls ⟨session, {}⟩ list) records := by
  intro h
  obtain ⟨s, hs, htasks⟩ := exists_crowded (Tasks.scanLimit + 1)
  have hcomplete := (complete_iff (w := ⟨{ storage := s }, {}⟩) hs.tasks.1 hs.tasks.2 rfl).1
    (h { storage := s } [] hs)
  have hstaged := hcomplete (waitingTask Tasks.scanLimit) (by
    rw [crowded_last htasks]
    exact List.mem_singleton.2 rfl)
  cases hstaged

end Transaction

end CodingHarness.Durable
