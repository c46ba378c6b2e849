import CodingHarness.Durable.TaskOutcomes
import CodingHarness.Library.Walks

/-!
# Outcomes that are held

A task ends as `completing` while ordinary work below it is live, and `finalize_completing` writes its
terminal record once that work is gone. Both decide by a walk down the ownership tree, but neither sees
the whole tree. A commit of the task looks at the tasks of one limited scan and at no conversation, and a
round of `finalize_completing` at limited scans that it made before its commit.

`LiveBelow` is the work below a task in a given part of the tables. In every run whose walks see some of
the live work whenever there is any (`HoldSeen`), a task becomes terminal only after its work.
-/

namespace CodingHarness.Durable

open Library Support Relation

namespace Tasks

/-! ## The work below a task -/

namespace OwnershipIndex

/-- All tasks and conversations of the tables. -/
def whole (s : StorageState) : OwnershipIndex := ⟨s.tasks, s.conversations⟩

/-- A task hangs from its owner, or else from its conversation. -/
def Hangs (index : OwnershipIndex) (node : Node) (record : TaskRecord) : Prop := record ∈ index.tasks.values ∧
    match node with
    | .task id => record.owner = some id
    | .conversation id => record.owner = none ∧ record.conversationId = id

/-- One step down the tree, which does not enter a background task. -/
inductive Enters (index : OwnershipIndex) : Node → Node → Prop where
  | conversation {id : TaskId} {record : ConversationRecord} {owner : ConversationOwner}
      (stored : record ∈ index.conversations.values) (owned : record.owner = some owner)
      (owning : owner.taskId = id) : Enters index (.task id) (.conversation record.id)
  | task {node : Node} {record : TaskRecord} (hangs : index.Hangs node record)
      (ordinary : record.background = false) : Enters index node (.task record.id)

/-- A live task that is not background hangs below the task. -/
def LiveBelow (index : OwnershipIndex) (id : TaskId) : Prop :=
  ∃ node record, ReflTransGen index.Enters (.task id) node ∧ index.Hangs node record ∧
    record.background = false ∧ live record = true

variable {index : OwnershipIndex}

theorem mem_children {node : Node} {record : TaskRecord} :
    record ∈ index.children node ↔ index.Hangs node record := by
  cases node with
  | task id =>
    rw [children, List.mem_filter, beq_iff_eq]
    exact Iff.rfl
  | conversation id =>
    rw [children, List.mem_filter, Bool.and_eq_true, beq_iff_eq, Option.isNone_iff_eq_none]
    exact Iff.rfl

theorem mem_entered {node found : Node} :
    found ∈ index.entered false (fun _ => true) node ↔ index.Enters node found := by
  rw [entered, List.mem_append, List.mem_map, List.mem_map]
  constructor
  · rintro (⟨id, hid, rfl⟩ | ⟨record, hrec, rfl⟩)
    · cases node with
      | conversation _ => cases hid
      | task owner =>
        obtain ⟨record, hrec, rfl⟩ := List.mem_map.1 hid
        obtain ⟨hstored, howned⟩ := List.mem_filter.1 hrec
        obtain ⟨by_, hby, howner⟩ := (Option.any_eq_true _ _).1 howned
        exact .conversation hstored hby (eq_of_beq howner)
    · obtain ⟨hchild, hordinary⟩ := List.mem_filter.1 hrec
      rw [Bool.false_or, Bool.and_true, Bool.not_eq_true'] at hordinary
      exact .task (mem_children.1 hchild) hordinary
  intro h
  cases h with
  | @conversation id record by_ hstored howned howning =>
    have howner : (record.owner.any fun owner => owner.taskId == id) = true :=
      (Option.any_eq_true _ _).2 ⟨by_, howned, beq_iff_eq.2 howning⟩
    have hmem : record.id ∈ index.ownedConversations (.task id) :=
      List.mem_map.2 ⟨record, List.mem_filter.2 ⟨hstored, howner⟩, rfl⟩
    exact .inl ⟨record.id, hmem, rfl⟩
  | @task _ record hhangs hordinary =>
    have hentered : ((false || !record.background) && true) = true := by
      rw [hordinary]
      rfl
    exact .inr ⟨record, List.mem_filter.2 ⟨mem_children.2 hhangs, hentered⟩, rfl⟩

theorem walkDown_eq (index : OwnershipIndex) (crossBackground : Bool) (enter : TaskRecord → Bool)
    (fuel : Nat) (pending : List Node) : index.walkDown crossBackground enter fuel pending =
      (visits (index.entered crossBackground enter) fuel pending).map fun nodes =>
        nodes.flatMap index.children := by
  induction fuel generalizing pending with
  | zero =>
    cases pending with
    | nil | cons node rest => rfl
  | succ fuel ih =>
    cases pending with
    | nil => rfl
    | cons node rest =>
      rw [walkDown, visits, ih]
      cases visits (index.entered crossBackground enter) fuel _ with
      | none | some nodes => rfl

theorem ownedLive_eq {id : TaskId} {found : List TaskId} (h : index.ownedLive id = some found) :
    found ≠ [] ↔ index.LiveBelow id := by
  rw [ownedLive, walkDown_eq] at h
  cases hvisits : visits (index.entered false fun _ => true) index.rounds [.task id] with
  | none =>
    rw [hvisits] at h
    cases h
  | some nodes =>
    rw [hvisits] at h
    cases h
    have hedge : (fun a b => b ∈ index.entered false (fun _ => true) a) = index.Enters :=
      funext fun a => funext fun b => propext mem_entered
    constructor
    · intro hne
      obtain ⟨_, hfound⟩ := List.exists_mem_of_ne_nil _ hne
      obtain ⟨record, hrec, rfl⟩ := List.mem_map.1 hfound
      obtain ⟨hvisited, hlive⟩ := List.mem_filter.1 hrec
      obtain ⟨node, hnode, hchild⟩ := List.mem_flatMap.1 hvisited
      obtain ⟨start, hstart, hpath⟩ := (mem_visits hvisits).1 hnode
      obtain rfl := List.mem_singleton.1 hstart
      rw [hedge] at hpath
      rw [Bool.and_eq_true, Bool.not_eq_true'] at hlive
      exact ⟨node, record, hpath, mem_children.1 hchild, hlive⟩
    rintro ⟨node, record, hpath, hhangs, hordinary, hlive⟩
    rw [← hedge] at hpath
    have hnode := (mem_visits hvisits).2 ⟨_, List.mem_singleton_self _, hpath⟩
    have hvisited := List.mem_flatMap.2 ⟨node, hnode, mem_children.2 hhangs⟩
    have hcount : (!record.background && live record) = true := by
      rw [hordinary, hlive]
      rfl
    exact List.ne_nil_of_mem (List.mem_map.2 ⟨record, List.mem_filter.2 ⟨hvisited, hcount⟩, rfl⟩)

theorem LiveBelow.mono {other : OwnershipIndex} {id : TaskId}
    (htasks : ∀ record ∈ index.tasks.values, ∃ before ∈ other.tasks.values,
      record.id = before.id ∧ record.owner = before.owner ∧
        record.background = before.background ∧ record.conversationId = before.conversationId ∧
        (live record = true → live before = true))
    (hconvs : index.conversations = other.conversations) (h : index.LiveBelow id) : other.LiveBelow id := by
  have hhangs : ∀ node record, index.Hangs node record → ∃ before, other.Hangs node before ∧
      record.id = before.id ∧ record.background = before.background ∧
      (live record = true → live before = true) := by
    rintro node record ⟨hmem, hplace⟩
    obtain ⟨before, hprev, hid, howner, hback, hconv, hlive⟩ := htasks record hmem
    refine ⟨before, ⟨hprev, ?_⟩, hid, hback, hlive⟩
    rw [howner, hconv] at hplace
    exact hplace
  have henters : ∀ node found, index.Enters node found → other.Enters node found := by
    rintro node found (⟨hstored, howned, howning⟩ | ⟨hrec, hordinary⟩)
    · exact .conversation (hconvs ▸ hstored) howned howning
    obtain ⟨before, hprev, hid, hback, -⟩ := hhangs _ _ hrec
    rw [hid]
    exact .task hprev (hback ▸ hordinary)
  obtain ⟨node, record, hpath, hrec, hordinary, hlive⟩ := h
  obtain ⟨before, hprev, -, hback, halive⟩ := hhangs node record hrec
  exact ⟨node, before, ReflTransGen.mono henters _ _ hpath, hprev, hback ▸ hordinary, halive hlive⟩

end OwnershipIndex

open OwnershipIndex

/-! ## Commits that end tasks -/

/-- The commits of the claimed writers: those of a running task, and `finalize_completing`. -/
def writesOutcome : Step → Bool
  | .commitWith .. => true
  | .finalize .. => true
  | _ => false

/-- A task that such a commit ends is terminal only without live work below it, and else holds its
outcome. -/
def EndsAfterWork (s : StorageState) (step : Step) : Prop :=
  writesOutcome step = true → ∀ id before after, s.tasks.find id = some before → live before = true →
    (commit s step).tasks.find id = some after → Ended after →
      (after.state.status = terminal → ¬ (whole (commit s step)).LiveBelow id) ∧
      ((whole (commit s step)).LiveBelow id → after.state.status = completing)

/-- The condition: where ordinary work below a task is live, its walk sees some of it. -/
def HoldSeen (s : StorageState) : Step → Prop
  | .commitWith id _ _ creations (some next) _ =>
    next.status = terminal → ∀ staged, createAll { tables := s } creations = .ok staged →
      (whole staged.tables).LiveBelow id → (OwnershipIndex.mk (overlayTasks s staged) .empty).LiveBelow id
  | .finalize seen _ => ∀ world, loadWorld seen = .ok world → ∀ id record,
      s.tasks.find id = some record → record.state.status = completing →
        (whole s).LiveBelow id → world.index.LiveBelow id
  | _ => True

section Commit

variable {s t : StorageState} {step : Step} {cb : Callback} {id : TaskId}

theorem Committed.liveBelow (hsound : Sound s) (h : Committed s t step cb)
    (hlive : (whole t).LiveBelow id) : (whole cb.staged.tables).LiveBelow id := by
  refine hlive.mono ?_ ?_
  · intro record hrec
    have hfind := (h.sound hsound).keyed.of_mem hrec
    rw [h.tables] at hfind
    rcases find_setTasks hfind with ⟨hmem, -⟩ | ⟨hkept, -⟩
    · obtain ⟨before, hprev, hwrite⟩ := h.inverts.writes record hmem
      obtain ⟨hid, howner, hback, hconv⟩ := hwrite.place
      have hkept := h.inverts.created.kept _ (hsound.taskIds _ before hprev).2
      have hmember := OrdMap.mem_values_of_find (hkept.trans hprev)
      have halive := h.open_ record hmem before (by rw [hid]; exact hprev)
      exact ⟨before, hmember, hid, howner, hback, hconv, fun _ => halive⟩
    · exact ⟨record, OrdMap.mem_values_of_find hkept, rfl, rfl, rfl, rfl, fun halive => halive⟩
  · rw [h.tables]
    rfl

theorem hasOwnedLiveIn_eq {staged : Staged} (h : hasOwnedLiveIn s staged id = some false) :
    ¬ (OwnershipIndex.mk (overlayTasks s staged) .empty).LiveBelow id := by
  unfold hasOwnedLiveIn at h
  cases hfound : OwnershipIndex.ownedLive ⟨overlayTasks s staged, .empty⟩ id with
  | none =>
    rw [hfound] at h
    cases h
  | some found =>
    rw [hfound] at h
    cases found with
    | cons first rest => cases h
    | nil => exact fun hlive => (ownedLive_eq hfound).2 hlive rfl

theorem readyToFinalize_eq_ok {seen : StorageState} {ready : List TaskId}
    (h : readyToFinalize seen = .ok ready) (hid : id ∈ ready) :
    ∃ world, loadWorld seen = .ok world ∧ ¬ world.index.LiveBelow id := by
  simp only [readyToFinalize, bind_eq_ok] at h
  obtain ⟨world, hworld, h⟩ := h
  cases h
  obtain ⟨record, hrec, rfl⟩ := List.mem_map.1 hid
  have hnone := eq_of_beq (List.mem_filter.1 hrec).2
  exact ⟨world, hworld, fun hlive => (ownedLive_eq hnone).2 hlive rfl⟩

theorem held_of_live {record : TaskRecord} {P : Prop} (hlive : live record = true) (hended : Ended record) :
    (record.state.status = terminal → ¬ P) ∧ (P → record.state.status = completing) := by
  have hopen : record.state.status ≠ terminal := by
    simpa [live] using hlive
  exact ⟨fun hterm => absurd hterm hopen, fun _ => hended.resolve_right hopen⟩

theorem Committed.terminal_after (hsound : Sound s) (h : Committed s t step cb)
    (hgood : HoldSeen s step) (hwrites : writesOutcome step = true)
    {before after : TaskRecord} (hprev : s.tasks.find id = some before)
    (hwrite : Write s cb.staged step before after) (hterm : after.state.status = terminal) :
    ¬ (whole t).LiveBelow id := by
  intro hlive
  have hstaged := h.liveBelow hsound hlive
  have hid : before.id = id := hsound.keyed id before hprev
  cases hwrite with
  | @ends _ _ _ _ _ _ _ held hstat htgt hend hmade hwalk =>
    cases held with
    | true => exact absurd hterm (by decide : completing ≠ terminal)
    | false =>
      rw [hid] at hwalk htgt
      subst htgt
      exact hasOwnedLiveIn_eq hwalk (hgood hend _ hmade hstaged)
  | waits => exact absurd hterm (by decide : waiting ≠ terminal)
  | continues hstat | remembers hstat =>
    exact absurd (hstat.symm.trans hterm) (by decide)
  | returns | resumes => exact absurd hterm (by decide : pending ≠ terminal)
  | reserves => exact absurd hterm (by decide : running ≠ terminal)
  | marks halive =>
    unfold live at halive
    rw [show before.state.status = terminal from hterm] at halive
    exact absurd halive (by decide)
  | faults | orphans | aborts | migrates => cases hwrites
  | finalizes hstat hmade hfound hmem =>
    obtain ⟨world, hworld, hnone⟩ := readyToFinalize_eq_ok hfound hmem
    rw [hmade] at hstaged
    rw [hid] at hnone
    exact hnone (hgood world hworld id before hprev hstat hstaged)

theorem commit_endsAfterWork (hsound : Sound s) (hgood : HoldSeen s step) : EndsAfterWork s step := by
  intro hwrites id before after hprev hlive hafter hended
  rcases commit_cases hsound step with heq | ⟨cb, h⟩
  · rw [heq] at hafter
    cases hprev.symm.trans hafter
    exact held_of_live hlive hended
  rcases h.record hafter with hsame | ⟨known, hknown, halive, -, hwrite⟩ | ⟨-, -, hfresh⟩
  · cases hprev.symm.trans hsame
    exact held_of_live hlive hended
  · cases hprev.symm.trans hknown
    have hnone := h.terminal_after hsound hgood hwrites hprev hwrite
    exact ⟨hnone, fun hwork => hended.resolve_right fun hterm => hnone hterm hwork⟩
  · rcases hended with hstat | hstat
    · exact absurd (hfresh.status.symm.trans hstat) (by decide)
    · exact absurd (hfresh.status.symm.trans hstat) (by decide)

end Commit

/-! ## Runs -/

/-- **A task ends after its work.** In every run whose walks see some of the live work below a task
whenever there is any, every commit of a running task and every round of `finalize_completing` makes a
task terminal only if no live ordinary work is below it at that commit. -/
theorem run_endsAfterWork (steps : List Step) (h : RunMeets HoldSeen initial steps)
    (first : List Step) (step : Step) (rest : List Step) (hsteps : steps = first ++ step :: rest) :
    EndsAfterWork (run initial first) step := by
  rw [hsteps, runMeets_append] at h
  exact commit_endsAfterWork (run_sound first initial_sound) h.2.1

/-! ### Owned work -/

/-- A child holds the outcome of its owner. -/
theorem ownsChild_endsAfterWork : (whole (run initial (ownsChild ++ [endTask 2]))).LiveBelow 2 ∧
      EndsAfterWork (run initial ownsChild) (endTask 2) := by
  have hlive : (whole (run initial (ownsChild ++ [endTask 2]))).ownedLive 2 = some [3] := by
    decide +kernel
  refine ⟨(ownedLive_eq hlive).1 (List.cons_ne_nil _ _), ?_⟩
  refine run_endsAfterWork (ownsChild ++ [endTask 2]) ?_ ownsChild (endTask 2) [] rfl
  refine ⟨trivial, trivial, fun hend => absurd hend (by decide), ?_, trivial⟩
  intro _ staged hstaged _
  cases hstaged
  have hseen : OwnershipIndex.ownedLive ⟨overlayTasks (run initial ownsChild)
      { tables := run initial ownsChild }, .empty⟩ 2 = some [3] := by
    decide +kernel
  exact (ownedLive_eq hseen).1 (List.cons_ne_nil _ _)

/-- A running task that owns a conversation with a task in it. -/
def ownsConversation : List Step := [ .create [.task ⟨"work", 1, id⟩ .null {}], .reserve 2 ⟨1, .null, none⟩ 0,
    .commitWith 2 false false [.conversation (some 2)] none 0,
    .create [.task ⟨"work", 1, id⟩ .null ⟨some 3, none, false, false, none⟩] ]

/-- The task in the conversation is live, and the owner of the conversation is terminal. -/
theorem ownsConversation_endsBefore : ¬ EndsAfterWork (run initial ownsConversation) (endTask 2) := by
  intro h
  have hbefore : recorded (run initial ownsConversation) 2 = some (running, none) := by
    decide +kernel
  have hafter : recorded (commit (run initial ownsConversation) (endTask 2)) 2 =
      some (terminal, some (ofString "completed")) := by
    decide +kernel
  have hlive : (whole (commit (run initial ownsConversation) (endTask 2))).ownedLive 2 = some [4] := by
    decide +kernel
  obtain ⟨before, hfind, heq⟩ := Option.map_eq_some_iff.1 hbefore
  obtain ⟨after, hfind', heq'⟩ := Option.map_eq_some_iff.1 hafter
  have hrunning : before.state.status = running := (Prod.mk.inj heq).1
  have hterminal : after.state.status = terminal := (Prod.mk.inj heq').1
  have halive : live before = true := by
    unfold live
    rw [hrunning]
    decide
  exact (h rfl 2 before after hfind halive hfind' (.inr hterminal)).1 hterminal
    ((ownedLive_eq hlive).1 (List.cons_ne_nil _ _))

end Tasks

end CodingHarness.Durable
