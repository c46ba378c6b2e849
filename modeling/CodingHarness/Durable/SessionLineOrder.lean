import CodingHarness.Durable.SessionLine
import Mathlib.Data.List.Nodup
import Mathlib.Data.List.Range

/-!
# Order and completion on the Session line

Three invariants of the line. `Nested` says which calls may be directly above which: no call is made
from the head of the pump loop, the loop is left to reject only after a failure, and a callback or a
read's completion returns into the loop that started it. `Account` says where every admitted job is:
the started ones come first, then the rejected ones, then those that wait, and at most the last
started one is not over. `Wakes` says that a job that waits while no job is active has a call in
progress that will come to it, which is what the flags of the pump are for.
-/

namespace CodingHarness.Durable

open Library
open List (flatMap_cons length_append mem_cons_self)
open Bool (not_eq_true toNat_le toNat_true)

namespace SessionLine

/-! ## Calls in progress -/

/-- A call of `pump_line` that still holds `pumping_commits`. -/
def LineFrame.pumps : LineFrame → Bool
  | .pump .done => false
  | .pump _ => true
  | _ => false

def pumpCount : List LineFrame → Nat
  | [] => 0
  | frame :: rest => pumpCount rest + (LineFrame.pumps frame).toNat

/-- A callback or a read's completion runs inside the loop that started it. -/
def LineFrame.inLoop : LineFrame → Bool
  | .callback _ => true
  | .completing job => job.kind == .read
  | _ => false

def LineFrame.SettlesCommit : LineFrame → Prop
  | .settling job => job.kind = .commit
  | _ => True

/-- What may be directly below a call. -/
structure Over (failed : Bool) (frame : LineFrame) (rest : List LineFrame) : Prop where
  head : rest.head? ≠ some (.pump .head)
  exit : rest.head? = some (.pump .exit) → failed = true
  reject : frame = .reject → failed = true
  loop : LineFrame.inLoop frame = true → rest.head? = some (.pump .tail)
  kind : LineFrame.SettlesCommit frame

/-- Every call of the stack may be over the one below. -/
def Nested (failed : Bool) : List LineFrame → Prop
  | [] => True
  | frame :: rest => Over failed frame rest ∧ Nested failed rest

variable {stack : List LineFrame}

theorem Nested.mono {failed failed' : Bool} (h : Nested failed stack)
    (hfailed : failed = true → failed' = true) : Nested failed' stack := by
  induction stack with
  | nil => trivial
  | cons frame rest ih =>
    obtain ⟨hover, hrest⟩ := h
    exact ⟨⟨hover.head, fun hexit => hfailed (hover.exit hexit),
      fun hreject => hfailed (hover.reject hreject), hover.loop, hover.kind⟩, ih hrest⟩

variable {failed : Bool} {rest : List LineFrame} {frame : LineFrame}

theorem Nested.failed_of_exit
    (h : Nested failed (frame :: rest)) (hmem : .pump .exit ∈ rest) : failed = true := by
  induction rest generalizing frame with
  | nil => cases hmem
  | cons below rest ih =>
    rcases List.mem_cons.1 hmem with rfl | hmem
    · exact h.1.exit rfl
    · exact ih h.2 hmem

theorem Nested.failed_of_reject (h : Nested failed stack) (hmem : .reject ∈ stack) : failed = true := by
  induction stack with
  | nil => cases hmem
  | cons frame rest ih =>
    rcases List.mem_cons.1 hmem with rfl | hmem
    · exact h.1.reject rfl
    · exact ih h.2 hmem

theorem over_of_calm
    (hbelow : ∀ phase, rest.head? ≠ some (.pump phase)) (hreject : frame ≠ .reject)
    (hloop : LineFrame.inLoop frame = false) (hkind : LineFrame.SettlesCommit frame) : Over failed frame rest where
  head := hbelow _
  exit h := (hbelow _ h).elim
  reject h := (hreject h).elim
  loop h := by
    rw [hloop] at h
    cases h
  kind := hkind

theorem calm_of_outsideTurn (h : outsideTurn stack = true) (phase : PumpPhase) :
    stack.head? ≠ some (.pump phase) := by
  cases stack with
  | nil => exact nofun
  | cons frame rest =>
    rintro ⟨⟩
    cases h

/-- The pump invariant: the flag says whether a loop is on the stack, and there is at most one. -/
structure Pumps (w : SessionLine) : Prop where
  count : pumpCount w.stack = w.pumping.toNat
  nested : Nested w.failed w.stack
  commits : ∀ job, w.awaiting = some job → job.kind = .commit

section PumpSteps

variable {w w' : SessionLine}

theorem Pumps.below (h : Pumps w) (hstack : w.stack = frame :: rest) :
    Nested w.failed rest ∧ rest.head? ≠ some (.pump .head) ∧ (rest.head? = some (.pump .exit) → w.failed = true) := by
  have hnested := h.nested
  rw [hstack] at hnested
  exact ⟨hnested.2, hnested.1.head, hnested.1.exit⟩

theorem Pumps.countBelow (h : Pumps w) (hstack : w.stack = frame :: rest) :
    pumpCount rest + (LineFrame.pumps frame).toNat = w.pumping.toNat := by
  have hcount := h.count
  rw [hstack] at hcount
  exact hcount

theorem Pumps.countLeft (h : Pumps w) (hstack : w.stack = .pump .exit :: rest) : pumpCount rest = 0 := by
  have hcount := h.countBelow hstack
  have hflag : w.pumping.toNat ≤ 1 := toNat_le _
  have hone : (LineFrame.pumps (.pump .exit)).toNat = 1 := rfl
  omega

theorem Pumps.pumpLine (h : Pumps w) (hbelow : ∀ phase, w.stack.head? ≠ some (.pump phase)) : Pumps w.pumpLine := by
  unfold SessionLine.pumpLine
  split
  · exact ⟨h.count, h.nested, h.commits⟩
  rename_i hpumping
  rw [not_eq_true] at hpumping
  refine ⟨?_, ⟨over_of_calm hbelow nofun rfl trivial, h.nested⟩, h.commits⟩
  have hcount := h.count
  rw [hpumping] at hcount
  rw [pumpCount, hcount]
  rfl

theorem Pumps.finishCloseIfReady (h : Pumps w) (hhead : w.stack.head? ≠ some (.pump .head))
    (hexit : w.stack.head? = some (.pump .exit) → w.failed = true) : Pumps w.finishCloseIfReady := by
  rcases finishCloseIfReady_cases w with hsame | ⟨-, -, -, -, -, ⟨-, waiting, more, hnext⟩ | ⟨-, hnext⟩⟩
  · rw [hsame]
    exact h
  · rw [hnext]
    cases more with
    | none => exact ⟨h.count, h.nested, h.commits⟩
    | some left => exact ⟨h.count, ⟨⟨hhead, hexit, nofun, nofun, trivial⟩, h.nested⟩, h.commits⟩
  · rw [hnext]
    exact ⟨h.count, ⟨⟨hhead, hexit, nofun, nofun, trivial⟩, h.nested⟩, h.commits⟩

theorem plain_pumps (h : LineFrame.Plain frame) : LineFrame.pumps frame = false := by
  cases frame with
  | pump phase => cases phase <;> first | rfl | cases h
  | _ => rfl

theorem Pumps.behind {lineActive pumpRequested : Bool}
    (h : Pumps w) (hstack : w.stack = frame :: rest) (hframe : LineFrame.pumps frame = false) :
    Pumps { w with lineActive := lineActive, pumpRequested := pumpRequested, stack := .finish :: rest } := by
  obtain ⟨hnested, hhead, hexit⟩ := h.below hstack
  have hcount := h.countBelow hstack
  rw [hframe] at hcount
  exact ⟨hcount, ⟨⟨hhead, hexit, nofun, nofun, trivial⟩, hnested⟩, h.commits⟩

theorem Pumps.step (h : Pumps w) (hchange : LineChange w w') : Pumps w' := by
  cases hchange with
  | idle hstack | again hstack | stop hstack =>
    obtain ⟨hnested, hhead, hexit⟩ := h.below hstack
    have hcount := h.countBelow hstack
    exact ⟨hcount, ⟨⟨hhead, hexit, nofun, nofun, trivial⟩, hnested⟩, h.commits⟩
  | refuse hstack _ hfailed =>
    obtain ⟨hnested, hhead, hexit⟩ := h.below hstack
    have hcount := h.countBelow hstack
    exact ⟨hcount, ⟨⟨nofun, fun _ => hfailed, fun _ => hfailed, nofun, trivial⟩,
      ⟨hhead, hexit, nofun, nofun, trivial⟩, hnested⟩, h.commits⟩
  | start hstack _ _ _ =>
    obtain ⟨hnested, hhead, hexit⟩ := h.below hstack
    have hcount := h.countBelow hstack
    exact ⟨hcount, ⟨⟨nofun, nofun, nofun, fun _ => rfl, trivial⟩,
      ⟨hhead, hexit, nofun, nofun, trivial⟩, hnested⟩, h.commits⟩
  | leave hstack _ =>
    obtain ⟨hnested, hhead, hexit⟩ := h.below hstack
    have hcount := h.countLeft hstack
    exact ⟨hcount, ⟨⟨hhead, hexit, nofun, nofun, trivial⟩, hnested⟩, h.commits⟩
  | leaveFailed hstack hfailed =>
    obtain ⟨hnested, hhead, hexit⟩ := h.below hstack
    have hcount := h.countLeft hstack
    exact ⟨hcount, ⟨⟨nofun, nofun, fun _ => hfailed, nofun, trivial⟩,
      ⟨hhead, hexit, nofun, nofun, trivial⟩, hnested⟩, h.commits⟩
  | drained hstack | overRead hstack | overPumped hstack =>
    have hcount := h.countBelow hstack
    exact ⟨hcount, (h.below hstack).1, h.commits⟩
  | reject hstack _ =>
    have hnested := h.nested
    rw [hstack] at hnested
    have hcount := h.countBelow hstack
    exact ⟨hcount, ⟨⟨nofun, nofun, nofun, nofun, trivial⟩, hnested⟩, h.commits⟩
  | pop hstack hplain =>
    have hcount := h.countBelow hstack
    rw [plain_pumps hplain] at hcount
    exact ⟨hcount, (h.below hstack).1, h.commits⟩
  | shut hstack hplain =>
    obtain ⟨hnested, hhead, hexit⟩ := h.below hstack
    have hcount := h.countBelow hstack
    rw [plain_pumps hplain] at hcount
    exact Pumps.finishCloseIfReady ⟨hcount, hnested, h.commits⟩ hhead hexit
  | closers hstack hplain =>
    obtain ⟨hnested, hhead, hexit⟩ := h.below hstack
    have hcount := h.countBelow hstack
    rw [plain_pumps hplain] at hcount
    exact ⟨hcount, ⟨⟨hhead, hexit, nofun, nofun, trivial⟩, hnested⟩, h.commits⟩
  | closing hstack | overIdle hstack => exact Pumps.pumpLine (h.behind hstack rfl) fun _ => nofun
  | store hstack hkind =>
    obtain ⟨hnested, hhead, hexit⟩ := h.below hstack
    have hcount := h.countBelow hstack
    refine ⟨hcount, ⟨⟨hhead, hexit, nofun, nofun, trivial⟩, hnested⟩, ?_⟩
    rintro job ⟨⟩
    exact hkind
  | @answer rest job hstack =>
    have hnested := h.nested
    rcases hstack with hstack | hstack
    · rw [hstack] at hnested
      have hcount := h.countBelow hstack
      refine ⟨hcount, ⟨?_, hnested.2⟩, h.commits⟩
      exact ⟨hnested.1.head, hnested.1.exit, nofun, fun _ => hnested.1.loop rfl, trivial⟩
    rw [hstack] at hnested
    have hcount := h.countBelow hstack
    refine ⟨hcount, ⟨?_, hnested.2⟩, h.commits⟩
    have hcommit : job.kind = .commit := hnested.1.kind
    exact ⟨hnested.1.head, hnested.1.exit, nofun, by simp [LineFrame.inLoop, hcommit], trivial⟩
  | ignore => exact h
  | accept hturn _ _ kind =>
    exact Pumps.pumpLine ⟨h.count, h.nested, h.commits⟩ (calm_of_outsideTurn hturn)
  | @settle job hturn hawait committed =>
    have hcalm := calm_of_outsideTurn hturn
    have hcommit := h.commits job hawait
    have hloop : LineFrame.inLoop (.completing job) = false := by simp [LineFrame.inLoop, hcommit]
    unfold SessionLine.settle
    split
    · exact ⟨h.count, ⟨over_of_calm hcalm nofun rfl hcommit, h.nested⟩, nofun⟩
    split
    · exact ⟨h.count, ⟨over_of_calm hcalm nofun hloop trivial, h.nested⟩, nofun⟩
    split
    · exact ⟨h.count, ⟨over_of_calm hcalm nofun hloop trivial, h.nested.mono fun _ => rfl⟩, nofun⟩
    · exact ⟨h.count, ⟨over_of_calm hcalm nofun rfl hcommit, h.nested.mono fun _ => rfl⟩, nofun⟩
  | close hturn =>
    have hcalm := calm_of_outsideTurn hturn
    unfold SessionLine.closeCleanup
    split
    · exact ⟨h.count, ⟨over_of_calm hcalm nofun rfl trivial, h.nested⟩, h.commits⟩
    · exact ⟨h.count, ⟨over_of_calm (fun _ => nofun) nofun rfl trivial,
        over_of_calm hcalm nofun rfl trivial, h.nested⟩, h.commits⟩
  | awaitClose => exact ⟨h.count, h.nested, h.commits⟩

end PumpSteps

/-! ## Where the jobs are -/

/-- The job that a call has the line for. -/
def LineFrame.holds : LineFrame → List Nat
  | .callback job | .settling job | .completing job => [job.id]
  | _ => []

def LineFrame.completes : LineFrame → List Nat
  | .completing job => [job.id]
  | _ => []

def holders (w : SessionLine) : List Nat := w.stack.flatMap LineFrame.holds ++ (w.awaiting.map (·.id)).toList

/-- Where every admitted job is: started in order, then rejected in order, then waiting in order. The
last started one has the line while it is active, and the others and the rejected ones have got their
completion. -/
structure Account (w : SessionLine) : Prop where
  started : w.started = List.range w.started.length
  rejected : w.rejected = List.range' w.started.length w.rejected.length
  failure : w.rejected ≠ [] → w.failed = true
  pending : w.pending.map (·.id)
    = List.range' (w.started.length + w.rejected.length) w.pending.length
  admitted : w.started.length + w.rejected.length + w.pending.length = w.admitted
  active : w.lineActive = true → 0 < w.started.length
  holders : holders w = if w.lineActive then [w.started.length - 1] else []
  once : w.completed.Nodup
  completed : ∀ j, j ∈ w.completed ↔ j + w.lineActive.toNat < w.started.length ∨ j ∈ w.rejected ∨
      j ∈ w.stack.flatMap LineFrame.completes

section AccountSteps

variable {w w' : SessionLine} {pumping pumpRequested : Bool} {closeCompletions j : Nat}

/-- Calls that have no job may come and go, and a job may go from one call that has it to another. -/
theorem Account.reframe {closed closeNotified storageClosed failed closeFinishing : Bool}
    {storageCloses : Nat} {awaiting : Option LineJob} (h : Account w) (hfailed : w.failed = true → failed = true)
    (hhold : stack.flatMap LineFrame.holds ++ (awaiting.map (·.id)).toList = SessionLine.holders w)
    (hcompletes : stack.flatMap LineFrame.completes = w.stack.flatMap LineFrame.completes) : Account { w with
        closed := closed, closeNotified := closeNotified, storageClosed := storageClosed
        failed := failed, pumping := pumping, closeFinishing := closeFinishing
        pumpRequested := pumpRequested, closeCompletions := closeCompletions
        awaiting := awaiting, stack := stack, storageCloses := storageCloses } where
  started := h.started
  rejected := h.rejected
  failure hne := hfailed (h.failure hne)
  pending := h.pending
  admitted := h.admitted
  active := h.active
  holders := hhold.trans h.holders
  once := h.once
  completed := by
    rw [hcompletes]
    exact h.completed

theorem Account.pumpLine (h : Account w) : Account w.pumpLine := by
  unfold SessionLine.pumpLine
  split
  · exact h.reframe id rfl rfl
  · exact h.reframe id rfl rfl

theorem Account.finishCloseIfReady (h : Account w) : Account w.finishCloseIfReady := by
  rcases finishCloseIfReady_cases w with hsame | ⟨-, -, -, -, -, ⟨-, waiting, more, hnext⟩ | ⟨-, hnext⟩⟩
  · rw [hsame]
    exact h
  · rw [hnext]
    cases more with
    | none | some left => exact h.reframe id rfl rfl
  · rw [hnext]
    exact h.reframe id rfl rfl

theorem Account.holder {others : List Nat} (h : Account w)
    (hhold : SessionLine.holders w = j :: others ∨ SessionLine.holders w = others ++ [j]) :
    w.lineActive = true ∧ j + 1 = w.started.length ∧ others = [] := by
  have hactive : w.lineActive = true := by
    by_contra hne
    rw [not_eq_true] at hne
    rw [h.holders, hne] at hhold
    rcases hhold with hhold | hhold
    · cases hhold
    · simp at hhold
  have hpos := h.active hactive
  rw [h.holders, if_pos hactive] at hhold
  rcases hhold with hhold | hhold
  · rw [List.cons.injEq] at hhold
    exact ⟨hactive, by omega, hhold.2.symm⟩
  have hsplit : [] ++ [w.started.length - 1] = others ++ [j] := hhold
  obtain ⟨hothers, hj⟩ := List.append_inj' hsplit rfl
  rw [List.cons.injEq] at hj
  exact ⟨hactive, by omega, hothers.symm⟩

theorem Account.completes_last (h : Account w) (hj : j ∈ w.stack.flatMap LineFrame.completes):
    w.lineActive = true ∧ j + 1 = w.started.length := by
  obtain ⟨frame, hframe, hj⟩ := List.mem_flatMap.1 hj
  have hholds : j ∈ w.stack.flatMap LineFrame.holds := by
    refine List.mem_flatMap.2 ⟨frame, hframe, ?_⟩
    cases frame with
    | completing job => exact hj
    | _ => cases hj
  have hholder : j ∈ SessionLine.holders w := List.mem_append_left _ hholds
  rw [h.holders] at hholder
  split at hholder
  · rename_i hactive
    have hpos := h.active hactive
    rw [List.mem_singleton] at hholder
    exact ⟨hactive, by omega⟩
  · cases hholder

theorem Account.rejected_lt (h : Account w) (hj : j ∈ w.rejected) :
    w.started.length ≤ j ∧ j < w.started.length + w.rejected.length := by
  rw [h.rejected] at hj
  simpa using hj

theorem completes_eq_nil (h : stack.flatMap LineFrame.holds = []) : stack.flatMap LineFrame.completes = [] := by
  rw [List.flatMap_eq_nil_iff] at h ⊢
  intro frame hframe
  have hnone := h frame hframe
  cases frame with
  | completing job => cases hnone
  | _ => rfl

variable {job : LineJob}

theorem Account.next {later : List LineJob} (h : Account w) (hpend : w.pending = job :: later):
    job.id = w.started.length + w.rejected.length ∧
      later.map (·.id) = List.range' (w.started.length + w.rejected.length + 1) later.length := by
  have hids := h.pending
  rw [hpend, List.map_cons, List.length_cons, List.range'_succ, List.cons.injEq] at hids
  exact hids

theorem Account.complete {closed failed : Bool}
    {awaiting : Option LineJob} (h : Account w) (hfailed : w.failed = true → failed = true)
    (hhold : SessionLine.holders w = [job.id]) (hfree : w.stack.flatMap LineFrame.completes = [])
    (hrest : rest.flatMap LineFrame.holds = []) (hawait : awaiting = none) : Account { w with
        closed := closed, failed := failed, awaiting := awaiting
        completed := w.completed ++ [job.id], stack := .completing job :: rest } := by
  obtain ⟨hactive, hlast, -⟩ := h.holder (Or.inl hhold)
  have hcompletes := completes_eq_nil hrest
  have hnew : job.id ∉ w.completed := by
    rw [h.completed, hfree, hactive]
    rintro (hlt | hrej | hnone)
    · simp only [toNat_true] at hlt
      omega
    · have := (h.rejected_lt hrej).1
      omega
    · cases hnone
  refine
    { h with
      failure := fun hne => hfailed (h.failure hne)
      holders := ?_, once := ?_, completed := ?_ }
  · rw [← h.holders, hhold]
    simp [SessionLine.holders, LineFrame.holds, hrest, hawait]
  · exact h.once.append (List.nodup_singleton _) (List.disjoint_singleton.2 hnew)
  · intro j
    rw [List.mem_append, h.completed, hfree, flatMap_cons, hcompletes]
    simp only [List.not_mem_nil, or_false, LineFrame.completes, List.append_nil]
    exact or_assoc

theorem Account.overJob (h : Account w) (hstack : w.stack = .completing job :: rest) :
    Account { w with lineActive := false, pumpRequested := pumpRequested, stack := rest } := by
  have hhold : SessionLine.holders w
      = job.id :: (rest.flatMap LineFrame.holds ++ (w.awaiting.map (·.id)).toList) := by
    rw [SessionLine.holders, hstack]
    rfl
  obtain ⟨hactive, hlast, hothers⟩ := h.holder (Or.inl hhold)
  refine
    { h with
      active := nofun
      holders := hothers
      completed := ?_ }
  intro j
  have hrest := completes_eq_nil (List.append_eq_nil_iff.1 hothers).1
  rw [h.completed, hstack, flatMap_cons, hrest, hactive]
  simp only [LineFrame.completes, List.append_nil, List.mem_singleton, toNat_true,
    Bool.toNat_false, Nat.add_zero, List.not_mem_nil, or_false]
  constructor
  · rintro (hlt | hrej | rfl)
    · exact Or.inl (by omega)
    · exact Or.inr hrej
    · exact Or.inl (by omega)
  rintro (hlt | hrej)
  · by_cases hj : j = job.id
    · exact Or.inr (Or.inr hj)
    · exact Or.inl (by omega)
  · exact Or.inr (Or.inl hrej)

theorem Account.start {later : List LineJob}
    (h : Account w) (hstack : w.stack = .pump .head :: rest) (hactive : w.lineActive = false)
    (hfailed : w.failed = false) (hpend : w.pending = job :: later) : Account { w with
        pumpRequested := false
        lineActive := true
        pending := later
        started := w.started ++ [job.id]
        stack := .callback job :: .pump .tail :: rest } := by
  have hnone : w.rejected = [] := by
    by_contra hne
    rw [h.failure hne] at hfailed
    cases hfailed
  obtain ⟨hid, hlater⟩ := h.next hpend
  rw [hnone, List.length_nil, Nat.add_zero] at hid hlater
  have hlen : (w.started ++ [job.id]).length = w.started.length + 1 := length_append
  have hhold := h.holders
  rw [SessionLine.holders, hstack, hactive] at hhold
  refine
    { h with
      started := ?_, rejected := ?_, pending := ?_, admitted := ?_, active := ?_, holders := ?_
      completed := ?_ }
  · rw [hlen, List.range_succ, ← h.started, hid]
  · rw [hnone]
    rfl
  · rw [hlen, hnone]
    exact hlater
  · have := h.admitted
    rw [hpend, List.length_cons] at this
    simp only [hlen]
    omega
  · intro _
    rw [hlen]
    exact Nat.succ_pos _
  · rw [hlen, if_pos rfl, Nat.add_sub_cancel, ← hid]
    exact congrArg (job.id :: ·) hhold
  · intro j
    rw [h.completed, hlen, hactive, hstack]
    simp [LineFrame.completes]

theorem Account.reject {later : List LineJob}
    (h : Account w) (hstack : w.stack = .reject :: rest) (hfailed : w.failed = true)
    (hpend : w.pending = job :: later) : Account { w with
        pending := later
        completed := w.completed ++ [job.id]
        rejected := w.rejected ++ [job.id]
        stack := .rejecting job :: .reject :: rest } := by
  obtain ⟨hid, hlater⟩ := h.next hpend
  have hlen : (w.rejected ++ [job.id]).length = w.rejected.length + 1 := length_append
  have hnew : job.id ∉ w.completed := by
    rw [h.completed]
    rintro (hlt | hrej | hcompletes)
    · omega
    · have := (h.rejected_lt hrej).2
      omega
    · have := (h.completes_last hcompletes).2
      omega
  refine
    { h with
      rejected := ?_
      failure := fun _ => hfailed
      pending := ?_, admitted := ?_, holders := ?_, once := ?_, completed := ?_ }
  · rw [hlen, List.range'_1_concat, ← h.rejected, hid]
  · rw [hlen]
    exact hlater
  · have := h.admitted
    rw [hpend, List.length_cons] at this
    simp only [hlen]
    omega
  · rw [← h.holders, SessionLine.holders, SessionLine.holders, hstack]
    rfl
  · exact h.once.append (List.nodup_singleton _) (List.disjoint_singleton.2 hnew)
  · intro j
    rw [List.mem_append, h.completed, hstack]
    simp only [flatMap_cons, LineFrame.completes, List.nil_append, List.mem_append]
    tauto

theorem Account.enqueueLine (h : Account w) (kind : JobKind) : Account (w.enqueueLine kind) := by
  refine Account.pumpLine { h with pending := ?_, admitted := ?_ }
  · rw [List.map_append, h.pending, length_append, List.length_singleton, List.range'_1_concat, h.admitted]
    rfl
  have := h.admitted
  simp only [length_append, List.length_singleton]
  omega

theorem plain_holds (h : LineFrame.Plain frame) : LineFrame.holds frame = [] := by
  cases frame with
  | callback job | settling job | completing job => cases h
  | _ => rfl

theorem Account.retop (h : Account w) (hstack : w.stack = frame :: rest)
    (hframe : LineFrame.holds frame = []) (top : List LineFrame) (htop : top.flatMap LineFrame.holds = []) :
    Account { w with
        pumping := pumping, pumpRequested := pumpRequested, closeCompletions := closeCompletions
        stack := top ++ rest } := by
  have hone : [frame].flatMap LineFrame.holds = [] := by
    rw [List.flatMap_singleton, hframe]
  refine h.reframe id ?_ ?_
  · rw [SessionLine.holders, hstack, List.flatMap_append, flatMap_cons, htop, hframe]
  · have hsplit : w.stack = [frame] ++ rest := hstack
    rw [hsplit, List.flatMap_append, List.flatMap_append, completes_eq_nil htop, completes_eq_nil hone]

theorem Account.settle (h : Account w) (hawait : w.awaiting = some job) (committed : Bool) :
    Account (w.settle job committed) := by
  have hhold : SessionLine.holders w = w.stack.flatMap LineFrame.holds ++ [job.id] := by
    rw [SessionLine.holders, hawait]
    rfl
  obtain ⟨-, -, hfree⟩ := h.holder (Or.inr hhold)
  rw [hfree, List.nil_append] at hhold
  have hmoved : (LineFrame.settling job :: w.stack).flatMap LineFrame.holds
      ++ ((none : Option LineJob).map (·.id)).toList = SessionLine.holders w := by
    rw [flatMap_cons, hfree, hhold]
    rfl
  unfold SessionLine.settle
  split
  · exact h.reframe id hmoved rfl
  split
  · exact h.complete id hhold (completes_eq_nil hfree) hfree rfl
  split
  · exact h.complete (fun _ => rfl) hhold (completes_eq_nil hfree) hfree rfl
  · exact h.reframe (fun _ => rfl) hmoved rfl

theorem Account.step (h : Account w) (hpumps : Pumps w) (hchange : LineChange w w') : Account w' := by
  cases hchange with
  | idle hstack | stop hstack => exact h.retop hstack rfl [.pump .exit] rfl
  | refuse hstack _ _ => exact h.retop hstack rfl [.reject, .pump .exit] rfl
  | start hstack hactive hfailed hpend => exact h.start hstack hactive hfailed hpend
  | again hstack => exact h.retop hstack rfl [.pump .head] rfl
  | leave hstack _ => exact h.retop hstack rfl [.pump .done] rfl
  | leaveFailed hstack _ => exact h.retop hstack rfl [.reject, .pump .done] rfl
  | drained hstack _ => exact h.retop hstack rfl [] rfl
  | reject hstack hpend =>
    refine h.reject hstack (hpumps.nested.failed_of_reject ?_) hpend
    rw [hstack]
    exact mem_cons_self
  | pop hstack hplain => exact h.retop hstack (plain_holds hplain) [] rfl
  | shut hstack hplain =>
    exact Account.finishCloseIfReady (h.retop hstack (plain_holds hplain) [] rfl)
  | closers hstack hplain => exact h.retop hstack (plain_holds hplain) [.closer _] rfl
  | closing hstack => exact Account.pumpLine (h.retop hstack rfl [.finish] rfl)
  | @store rest job hstack _ =>
    have hhold : SessionLine.holders w
        = job.id :: (rest.flatMap LineFrame.holds ++ (w.awaiting.map (·.id)).toList) := by
      rw [SessionLine.holders, hstack]
      rfl
    obtain ⟨-, -, hothers⟩ := h.holder (Or.inl hhold)
    have hrest := (List.append_eq_nil_iff.1 hothers).1
    refine h.reframe id ?_ (by rw [hstack]; rfl)
    rw [hhold, hothers, flatMap_cons, hrest]
    rfl
  | @answer rest job hstack =>
    have hhold : SessionLine.holders w
        = job.id :: (rest.flatMap LineFrame.holds ++ (w.awaiting.map (·.id)).toList) := by
      rcases hstack with hstack | hstack
      all_goals
        rw [SessionLine.holders, hstack]
        rfl
    obtain ⟨-, -, hothers⟩ := h.holder (Or.inl hhold)
    rw [hothers] at hhold
    obtain ⟨hrest, hawait⟩ := List.append_eq_nil_iff.1 hothers
    refine h.complete id hhold ?_ hrest ?_
    · have hnone := completes_eq_nil hrest
      rcases hstack with hstack | hstack
      all_goals
        rw [hstack]
        exact hnone
    · simpa using hawait
  | overRead hstack | overPumped hstack => exact h.overJob hstack
  | @overIdle rest job hstack _ =>
    exact Account.pumpLine ((h.overJob hstack : Account
      { w with lineActive := false, pumpRequested := true, stack := rest }).reframe id rfl rfl)
  | ignore => exact h
  | accept _ _ _ kind => exact h.enqueueLine kind
  | settle _ hawait committed => exact h.settle hawait committed
  | close _ =>
    unfold SessionLine.closeCleanup
    split
    · exact h.reframe id rfl rfl
    · exact h.reframe id rfl rfl
  | awaitClose => exact h.reframe id rfl rfl

end AccountSteps

/-! ## Storage is closed last -/

/-- Storage is closed once, by a closed Session with nothing left on its line. -/
structure Shut (w : SessionLine) : Prop where
  finishing : w.closeFinishing = w.storageClosed
  closes : w.storageCloses = w.storageClosed.toNat
  shut : w.storageClosed = true → w.closed = true ∧ w.lineActive = false ∧ w.pending = []

section ShutSteps

variable {w w' : SessionLine}

theorem Shut.pumpLine (h : Shut w) : Shut w.pumpLine := by
  unfold SessionLine.pumpLine
  split
  · exact ⟨h.finishing, h.closes, h.shut⟩
  · exact ⟨h.finishing, h.closes, h.shut⟩

theorem Shut.finishCloseIfReady (h : Shut w) : Shut w.finishCloseIfReady := by
  rcases finishCloseIfReady_cases w with hsame | ⟨hclosed, hfinishing, -, hactive, hpend, ⟨hstor, -⟩ | ⟨hstor, hnext⟩⟩
  · rw [hsame]
    exact h
  · rw [h.finishing, hstor] at hfinishing
    cases hfinishing
  · rw [hnext]
    refine ⟨rfl, ?_, fun _ => ⟨hclosed, hactive, hpend⟩⟩
    rw [h.closes, hstor]
    rfl

theorem Shut.step (h : Shut w) (hchange : LineChange w w') : Shut w' := by
  have hopen : w.pending ≠ [] → w.storageClosed = false := by
    intro hne
    by_contra hstor
    rw [Bool.not_eq_false] at hstor
    exact hne (h.shut hstor).2.2
  cases hchange with
  | @start rest job later _ _ _ hpend | @reject rest job later _ hpend =>
    refine ⟨h.finishing, h.closes, ?_⟩
    intro hstor
    rw [hopen (by rw [hpend]; exact nofun)] at hstor
    cases hstor
  | shut _ _ => exact Shut.finishCloseIfReady ⟨h.finishing, h.closes, h.shut⟩
  | closing _ => exact Shut.pumpLine ⟨h.finishing, h.closes, h.shut⟩
  | overRead | overPumped =>
    exact ⟨h.finishing, h.closes, fun hs => ⟨(h.shut hs).1, rfl, (h.shut hs).2.2⟩⟩
  | overIdle _ _ =>
    refine Shut.pumpLine ⟨h.finishing, h.closes, ?_⟩
    exact fun hs => ⟨(h.shut hs).1, rfl, (h.shut hs).2.2⟩
  | accept _ _ hclosed kind =>
    refine Shut.pumpLine ⟨h.finishing, h.closes, ?_⟩
    intro hs
    rw [(h.shut hs).1] at hclosed
    cases hclosed
  | settle _ _ committed =>
    have hclosed : ∀ hs : w.storageClosed = true,
        true = true ∧ w.lineActive = false ∧ w.pending = [] := fun hs => ⟨rfl, (h.shut hs).2⟩
    unfold SessionLine.settle
    split
    · exact ⟨h.finishing, h.closes, h.shut⟩
    split
    · exact ⟨h.finishing, h.closes, h.shut⟩
    split
    · exact ⟨h.finishing, h.closes, hclosed⟩
    · exact ⟨h.finishing, h.closes, hclosed⟩
  | close _ =>
    unfold SessionLine.closeCleanup
    split
    · exact ⟨h.finishing, h.closes, fun hs => ⟨rfl, (h.shut hs).2⟩⟩
    · exact ⟨h.finishing, h.closes, fun hs => ⟨rfl, (h.shut hs).2⟩⟩
  | _ => exact ⟨h.finishing, h.closes, h.shut⟩

end ShutSteps

/-! ## No lost wake-up -/

/-- A call that will look at the queue again. -/
def LineFrame.attends : LineFrame → Bool
  | .pump .done => false
  | .pump _ | .reject => true
  | _ => false

/-- Some call in progress will come to the jobs that wait. -/
def Attended (stack : List LineFrame) (pumpRequested failed : Bool) : Prop :=
  .pump .head ∈ stack ∨ .reject ∈ stack ∨ (.pump .tail ∈ stack ∧ pumpRequested = true) ∨
    (failed = true ∧ .pump .exit ∈ stack)

/-- A job that waits while none is active is attended. -/
def Wakes (w : SessionLine) : Prop :=
  w.lineActive = false → w.pending ≠ [] → Attended w.stack w.pumpRequested w.failed

section WakeSteps

variable {w w' : SessionLine}

theorem Attended.transfer {stack' : List LineFrame} {requested failed failed' : Bool}
    (h : Attended stack requested failed) (hkeep : ∀ frame ∈ stack, LineFrame.attends frame = true → frame ∈ stack')
    (hfailed : failed = true → failed' = true) : Attended stack' requested failed' := by
  rcases h with hmem | hmem | ⟨hmem, hrequested⟩ | ⟨hf, hmem⟩
  · exact Or.inl (hkeep _ hmem rfl)
  · exact Or.inr (Or.inl (hkeep _ hmem rfl))
  · exact Or.inr (Or.inr (Or.inl ⟨hkeep _ hmem rfl, hrequested⟩))
  · exact Or.inr (Or.inr (Or.inr ⟨hfailed hf, hkeep _ hmem rfl⟩))

theorem Attended.pop {requested failed : Bool}
    (h : Attended (frame :: rest) requested failed) (hframe : LineFrame.attends frame = false) :
    Attended rest requested failed := by
  refine h.transfer ?_ id
  intro found hmem hattends
  rcases List.mem_cons.1 hmem with rfl | hmem
  · rw [hframe] at hattends
    cases hattends
  · exact hmem

theorem Attended.push {requested failed failed' : Bool}
    (h : Attended stack requested failed) (hfailed : failed = true → failed' = true) :
    Attended (frame :: stack) requested failed' :=
  h.transfer (fun _ hmem _ => List.mem_cons_of_mem _ hmem) hfailed

theorem plain_attends (h : LineFrame.Plain frame) : LineFrame.attends frame = false := by
  cases frame with
  | pump phase => cases phase <;> first | rfl | cases h
  | reject => cases h
  | _ => rfl

theorem pumpCount_pos (hmem : frame ∈ stack) (hframe : LineFrame.pumps frame = true) : 0 < pumpCount stack := by
  induction stack with
  | nil => cases hmem
  | cons top rest ih =>
    rw [pumpCount]
    rcases List.mem_cons.1 hmem with rfl | hmem
    · rw [hframe, toNat_true]
      exact Nat.succ_pos _
    · exact Nat.add_pos_left (ih hmem) _

theorem exists_pump_of_pumpCount (h : 0 < pumpCount stack) :
    .pump .head ∈ stack ∨ .pump .tail ∈ stack ∨ .pump .exit ∈ stack := by
  induction stack with
  | nil => cases h
  | cons top rest ih =>
    by_cases htop : LineFrame.pumps top = true
    · cases top with
      | pump phase =>
        cases phase with
        | done => cases htop
        | _ => simp
      | _ => cases htop
    rw [not_eq_true] at htop
    rw [pumpCount, htop] at h
    simpa [List.mem_cons] using (ih h).imp (Or.inr ·) (Or.imp (Or.inr ·) (Or.inr ·))

/-- A loop in progress below a call of another kind comes to the queue once a pump is requested. -/
theorem Pumps.attended (h : Pumps w) (hstack : w.stack = frame :: rest) (hframe : LineFrame.pumps frame = false)
    (hpumping : w.pumping = true) : Attended rest true w.failed := by
  have hcount := h.countBelow hstack
  rw [hframe, hpumping] at hcount
  have hpos : 0 < pumpCount rest := by
    rw [show pumpCount rest = 1 from hcount]
    exact Nat.one_pos
  have hnested := h.nested
  rw [hstack] at hnested
  rcases exists_pump_of_pumpCount hpos with hmem | hmem | hmem
  · exact Or.inl hmem
  · exact Or.inr (Or.inr (Or.inl ⟨hmem, rfl⟩))
  · exact Or.inr (Or.inr (Or.inr ⟨hnested.failed_of_exit hmem, hmem⟩))

theorem Pumps.wakes_pumpLine (h : Pumps w)
    (hcalm : ∀ phase, w.stack.head? ≠ some (.pump phase)) : Wakes w.pumpLine := by
  intro _ _
  unfold SessionLine.pumpLine
  split
  · rename_i hpumping
    cases hstack : w.stack with
    | nil =>
      have hcount := h.count
      rw [hstack, hpumping] at hcount
      cases hcount
    | cons frame rest =>
      have hframe : LineFrame.pumps frame = false := by
        cases frame with
        | pump phase =>
          rw [hstack] at hcalm
          exact (hcalm phase rfl).elim
        | _ => rfl
      exact (h.attended hstack hframe hpumping).push id
  · exact Or.inl mem_cons_self

theorem Pumps.only {phase : PumpPhase} (h : Pumps w)
    (hstack : w.stack = .pump phase :: rest) (hphase : LineFrame.pumps (.pump phase) = true)
    (hframe : LineFrame.pumps frame = true) : frame ∉ rest := by
  intro hmem
  have hcount := h.countBelow hstack
  have hpos := pumpCount_pos hmem hframe
  have hflag : w.pumping.toNat ≤ 1 := toNat_le _
  rw [hphase, toNat_true] at hcount
  omega

theorem Wakes.finishCloseIfReady (h : Wakes w) : Wakes w.finishCloseIfReady := by
  rcases finishCloseIfReady_cases w with hsame | ⟨-, -, -, -, hempty, ⟨-, waiting, more, hnext⟩ | ⟨-, hnext⟩⟩
  · rw [hsame]
    exact h
  · rw [hnext]
    exact fun _ hpend => (hpend hempty).elim
  · rw [hnext]
    exact fun _ hpend => (hpend hempty).elim

theorem Wakes.step (h : Wakes w) (hpumps : Pumps w) (hchange : LineChange w w') : Wakes w' := by
  cases hchange with
  | idle _ hidle =>
    intro hactive hpend
    rcases hidle with hidle | hidle
    · rw [show w.lineActive = false from hactive] at hidle
      cases hidle
    · exact (hpend hidle).elim
  | refuse | leaveFailed => exact fun _ _ => Or.inr (Or.inl mem_cons_self)
  | start _ _ _ _ => exact nofun
  | again _ => exact fun _ _ => Or.inl mem_cons_self
  | stop hstack hstop =>
    intro hactive hpend
    have hattended := h hactive hpend
    rw [hstack] at hattended
    rcases hattended with hmem | hmem | ⟨-, hrequested⟩ | ⟨hfailed, -⟩
    · rcases List.mem_cons.1 hmem with heq | hmem
      · cases heq
      · exact (hpumps.only hstack rfl rfl hmem).elim
    · exact Or.inr (Or.inl (by simpa using hmem))
    · rcases hstop with hstop | hstop
      · rw [hrequested] at hstop
        cases hstop
      · rw [show w.lineActive = false from hactive] at hstop
        cases hstop
    · exact Or.inr (Or.inr (Or.inr ⟨hfailed, mem_cons_self⟩))
  | leave hstack hfailed =>
    intro hactive hpend
    have hattended := h hactive hpend
    have hnested := hpumps.nested
    rw [hstack] at hattended hnested
    rcases hattended with hmem | hmem | ⟨hmem, -⟩ | ⟨hf, -⟩
    · rcases List.mem_cons.1 hmem with heq | hmem
      · cases heq
      · exact (hpumps.only hstack rfl rfl hmem).elim
    · rw [hnested.failed_of_reject hmem] at hfailed
      cases hfailed
    · rcases List.mem_cons.1 hmem with heq | hmem
      · cases heq
      · exact (hpumps.only hstack rfl rfl hmem).elim
    · rw [hf] at hfailed
      cases hfailed
  | drained _ hempty => exact fun _ hpend => (hpend hempty).elim
  | reject _ _ =>
    exact fun _ _ => Or.inr (Or.inl (List.mem_cons_of_mem _ mem_cons_self))
  | pop hstack hplain =>
    intro hactive hpend
    have hattended := h hactive hpend
    rw [hstack] at hattended
    exact hattended.pop (plain_attends hplain)
  | shut hstack hplain =>
    refine Wakes.finishCloseIfReady ?_
    intro hactive hpend
    have hattended := h hactive hpend
    rw [hstack] at hattended
    exact hattended.pop (plain_attends hplain)
  | closers hstack hplain =>
    intro hactive hpend
    have hattended := h hactive hpend
    rw [hstack] at hattended
    exact (hattended.pop (plain_attends hplain)).push id
  | closing hstack | overIdle hstack => exact (hpumps.behind hstack rfl).wakes_pumpLine fun _ => nofun
  | store hstack _ =>
    intro hactive hpend
    have hattended := h hactive hpend
    rw [hstack] at hattended
    exact (hattended.pop rfl).push id
  | answer hstack =>
    intro hactive hpend
    have hattended := h hactive hpend
    rcases hstack with hstack | hstack
    all_goals
      rw [hstack] at hattended
      exact (hattended.pop rfl).push id
  | overRead hstack hkind =>
    -- A read runs inside the loop that started it.
    intro _ _
    have hnested := hpumps.nested
    rw [hstack] at hnested
    have htail := hnested.1.loop (by simp [LineFrame.inLoop, hkind])
    exact Or.inr (Or.inr (Or.inl ⟨List.mem_of_head? htail, rfl⟩))
  | overPumped hstack hpumping => exact fun _ _ => hpumps.attended hstack rfl hpumping
  | ignore | awaitClose => exact h
  | accept hturn _ _ kind =>
    refine Pumps.wakes_pumpLine ⟨hpumps.count, hpumps.nested, hpumps.commits⟩ ?_
    exact calm_of_outsideTurn hturn
  | settle _ _ committed =>
    unfold SessionLine.settle
    split
    · exact fun hactive hpend => (h hactive hpend).push id
    split
    · exact fun hactive hpend => (h hactive hpend).push id
    split
    · exact fun hactive hpend => (h hactive hpend).push fun _ => rfl
    · exact fun hactive hpend => (h hactive hpend).push fun _ => rfl
  | close _ =>
    unfold SessionLine.closeCleanup
    split
    · exact fun hactive hpend => (h hactive hpend).push id
    · exact fun hactive hpend => ((h hactive hpend).push id).push id

end WakeSteps

/-! ## After a failure -/

/-- A Session that failed runs no callback and waits for no settlement. -/
def Quits (w : SessionLine) : Prop := w.failed = true → w.awaiting = none ∧ ∀ job, .callback job ∉ w.stack

section QuitSteps

variable {w w' : SessionLine}

theorem pumpLine_awaiting (w : SessionLine) : w.pumpLine.awaiting = w.awaiting := by
  unfold SessionLine.pumpLine
  split <;> rfl

@[simp]
theorem pumpLine_failed (w : SessionLine) : w.pumpLine.failed = w.failed := by
  unfold SessionLine.pumpLine
  split <;> rfl

@[simp]
theorem pumpLine_started (w : SessionLine) : w.pumpLine.started = w.started := by
  unfold SessionLine.pumpLine
  split <;> rfl

@[simp]
theorem finishCloseIfReady_failed (w : SessionLine) : w.finishCloseIfReady.failed = w.failed := by
  rcases finishCloseIfReady_cases w with hsame | ⟨-, -, -, -, -, ⟨-, _, _, hnext⟩ | ⟨-, hnext⟩⟩
  · rw [hsame]
  · rw [hnext]
  · rw [hnext]

@[simp]
theorem finishCloseIfReady_started (w : SessionLine) : w.finishCloseIfReady.started = w.started := by
  rcases finishCloseIfReady_cases w with hsame | ⟨-, -, -, -, -, ⟨-, _, _, hnext⟩ | ⟨-, hnext⟩⟩
  · rw [hsame]
  · rw [hnext]
  · rw [hnext]

theorem callback_mem_pumpLine {job : LineJob} (h : .callback job ∈ w.pumpLine.stack) : .callback job ∈ w.stack := by
  unfold SessionLine.pumpLine at h
  split at h
  · exact h
  · simpa using h

theorem Quits.pumpLine (h : Quits w) : Quits w.pumpLine := by
  intro hfailed
  rw [pumpLine_failed] at hfailed
  obtain ⟨hawait, hcb⟩ := h hfailed
  exact ⟨by rw [pumpLine_awaiting]; exact hawait, fun job hmem => hcb job (callback_mem_pumpLine hmem)⟩

theorem Quits.finishCloseIfReady (h : Quits w) : Quits w.finishCloseIfReady := by
  rcases finishCloseIfReady_cases w with hsame | ⟨-, -, -, -, -, ⟨-, waiting, more, hnext⟩ | ⟨-, hnext⟩⟩
  · rw [hsame]
    exact h
  · rw [hnext]
    intro hfailed
    obtain ⟨hawait, hcb⟩ := h hfailed
    refine ⟨hawait, ?_⟩
    cases more <;> simpa using hcb
  · rw [hnext]
    intro hfailed
    obtain ⟨hawait, hcb⟩ := h hfailed
    exact ⟨hawait, by simpa using hcb⟩

theorem Quits.retop (h : Quits w)
    (hstack : w.stack = frame :: rest) (top : List LineFrame)
    (htop : ∀ job, LineFrame.callback job ∉ top) (hfailed : w'.failed = w.failed)
    (hawait : w'.awaiting = w.awaiting) (hstack' : w'.stack = top ++ rest) : Quits w' := by
  intro hf
  rw [hfailed] at hf
  obtain ⟨hnone, hcb⟩ := h hf
  rw [hstack] at hcb
  refine ⟨hawait.trans hnone, ?_⟩
  intro job hmem
  rw [hstack'] at hmem
  rcases List.mem_append.1 hmem with hmem | hmem
  · exact htop job hmem
  · exact hcb job (List.mem_cons_of_mem _ hmem)

theorem Quits.step (h : Quits w) (hacct : Account w) (hchange : LineChange w w') : Quits w' := by
  cases hchange with
  | idle hstack | stop hstack => exact h.retop hstack [.pump .exit] (by simp) rfl rfl rfl
  | refuse hstack _ _ => exact h.retop hstack [.reject, .pump .exit] (by simp) rfl rfl rfl
  | start _ _ hfailed _ =>
    intro hf
    rw [show w.failed = true from hf] at hfailed
    cases hfailed
  | again hstack => exact h.retop hstack [.pump .head] (by simp) rfl rfl rfl
  | leave hstack _ => exact h.retop hstack [.pump .done] (by simp) rfl rfl rfl
  | leaveFailed hstack _ => exact h.retop hstack [.reject, .pump .done] (by simp) rfl rfl rfl
  | drained hstack | pop hstack | overRead hstack | overPumped hstack =>
    exact h.retop hstack [] (by simp) rfl rfl rfl
  | @reject rest job later hstack _ =>
    exact h.retop hstack [.rejecting job, .reject] (by simp) rfl rfl rfl
  | @shut rest frame hstack _ =>
    exact Quits.finishCloseIfReady (h.retop hstack [] (by simp) rfl rfl rfl : Quits { w with stack := rest })
  | @closers rest frame left waiting hstack _ =>
    exact h.retop hstack [.closer left] (by simp) rfl rfl rfl
  | @closing rest hstack =>
    exact Quits.pumpLine (h.retop hstack [.finish] (by simp) rfl rfl rfl : Quits { w with stack := .finish :: rest })
  | @store rest job hstack _ =>
    intro hf
    refine ((h hf).2 job ?_).elim
    rw [hstack]
    exact mem_cons_self
  | @answer rest job hstack =>
    rcases hstack with hstack | hstack
    · exact h.retop hstack [.completing job] (by simp) rfl rfl rfl
    · exact h.retop hstack [.completing job] (by simp) rfl rfl rfl
  | @overIdle rest job hstack _ =>
    exact Quits.pumpLine (h.retop hstack [.finish] (by simp) rfl rfl rfl
      : Quits { w with lineActive := false, pumpRequested := true, stack := .finish :: rest })
  | ignore | awaitClose => exact h
  | accept _ hfailed _ kind =>
    refine Quits.pumpLine ?_
    intro hf
    rw [show w.failed = true from hf] at hfailed
    cases hfailed
  | @settle job _ hawait committed =>
    -- The commit that is settled has the line, so no callback is in progress.
    have hhold : SessionLine.holders w = w.stack.flatMap LineFrame.holds ++ [job.id] := by
      rw [SessionLine.holders, hawait]
      rfl
    obtain ⟨-, -, hfree⟩ := hacct.holder (Or.inr hhold)
    have hcb : ∀ other, LineFrame.callback other ∉ w.stack := by
      intro other hmem
      cases List.flatMap_eq_nil_iff.1 hfree _ hmem
    unfold SessionLine.settle
    split
    · exact fun _ => ⟨rfl, by simpa using hcb⟩
    split
    · exact fun _ => ⟨rfl, by simpa [SessionLine.complete] using hcb⟩
    split
    · exact fun _ => ⟨rfl, by simpa [SessionLine.complete] using hcb⟩
    · exact fun _ => ⟨rfl, by simpa using hcb⟩
  | close _ =>
    unfold SessionLine.closeCleanup
    split
    · exact fun hf => ⟨(h hf).1, by simpa using (h hf).2⟩
    · exact fun hf => ⟨(h hf).1, by simpa using (h hf).2⟩

theorem LineChange.started_of_failed (hchange : LineChange w w') (hfailed : w.failed = true) :
    w'.failed = true ∧ w'.started = w.started := by
  cases hchange with
  | start _ _ hnot | accept _ hnot _ kind =>
    rw [hfailed] at hnot
    cases hnot
  | settle _ _ committed =>
    unfold SessionLine.settle
    split <;> exact ⟨hfailed, rfl⟩
  | close _ =>
    unfold SessionLine.closeCleanup
    split <;> exact ⟨hfailed, rfl⟩
  | _ => simp [hfailed, SessionLine.complete]

end QuitSteps

/-! ## The Session gives control back -/

section Progress

/-- The rounds a call of the Session still makes before it returns or calls outside code. -/
def LineFrame.rounds : LineFrame → Nat
  | .pump .head => 5
  | .pump .tail => 6
  | .pump .exit => 3
  | .pump .done | .reject | .finish => 1
  | .closing => 7
  | _ => 0

def rounds : List LineFrame → Nat
  | [] => 0
  | frame :: rest => LineFrame.rounds frame + rounds rest

theorem finishCloseIfReady_rounds (w : SessionLine) : rounds w.finishCloseIfReady.stack = rounds w.stack := by
  rcases finishCloseIfReady_cases w with hsame | ⟨-, -, -, -, -, ⟨-, _, more, hnext⟩ | ⟨-, hnext⟩⟩
  · rw [hsame]
  · rw [hnext]
    cases more with
    | none => rfl
    | some left => exact Nat.zero_add _
  · rw [hnext]
    exact Nat.zero_add _

theorem pumpLine_rounds_le (w : SessionLine) : rounds w.pumpLine.stack ≤ rounds w.stack + 5 := by
  unfold SessionLine.pumpLine
  split
  · exact Nat.le_add_right _ _
  · exact Nat.le_of_eq (Nat.add_comm _ _)

/-- A round of the Session's code ends in a call of outside code or leaves fewer rounds. -/
theorem proceed_rounds {w : SessionLine} (hturn : outsideTurn w.stack = false) : ∃ w', w.proceed = some w' ∧
      (outsideTurn w'.stack = true ∨ rounds w'.stack < rounds w.stack) := by
  cases hstack : w.stack with
  | nil =>
    rw [hstack] at hturn
    cases hturn
  | cons frame rest =>
    rw [hstack] at hturn
    cases frame with
    | pump phase =>
      cases phase with
      | head =>
        simp only [proceed, hstack]
        split
        · exact ⟨_, rfl, Or.inr (by simp [rounds, LineFrame.rounds])⟩
        split
        · exact ⟨_, rfl, Or.inr (by simp [rounds, LineFrame.rounds])⟩
        split
        · refine ⟨_, rfl, Or.inr ?_⟩
          simp only [rounds, LineFrame.rounds]
          omega
        · exact ⟨_, rfl, Or.inl rfl⟩
      | tail =>
        simp only [proceed, hstack]
        split
        · exact ⟨_, rfl, Or.inr (by simp [rounds, LineFrame.rounds])⟩
        · exact ⟨_, rfl, Or.inr (by simp [rounds, LineFrame.rounds])⟩
      | exit =>
        simp only [proceed, hstack]
        split
        · refine ⟨_, rfl, Or.inr ?_⟩
          simp only [rounds, LineFrame.rounds]
          omega
        · exact ⟨_, rfl, Or.inr (by simp [rounds, LineFrame.rounds])⟩
      | done =>
        simp only [proceed, hstack]
        refine ⟨_, rfl, Or.inr ?_⟩
        rw [finishCloseIfReady_rounds]
        simp [rounds, LineFrame.rounds]
    | reject =>
      simp only [proceed, hstack]
      split
      · exact ⟨_, rfl, Or.inr (by simp [rounds, LineFrame.rounds])⟩
      · exact ⟨_, rfl, Or.inl rfl⟩
    | finish =>
      simp only [proceed, hstack]
      refine ⟨_, rfl, Or.inr ?_⟩
      rw [finishCloseIfReady_rounds]
      simp [rounds, LineFrame.rounds]
    | closing =>
      simp only [proceed, hstack]
      refine ⟨_, rfl, Or.inr ?_⟩
      refine Nat.lt_of_le_of_lt (pumpLine_rounds_le _) ?_
      simp only [rounds, LineFrame.rounds]
      omega
    | _ => cases hturn

/-- The Session's code always comes to a point at which the outside has control. -/
theorem gives_control_back (w : SessionLine) :
    ∃ n w', runMoves step w (List.replicate n .proceed) = some w' ∧ outsideTurn w'.stack = true := by
  -- On the rounds that the calls of the Session still make.
  induction hrounds : rounds w.stack using Nat.strong_induction_on generalizing w with
  | _ k ih =>
    by_cases hturn : outsideTurn w.stack = true
    · exact ⟨0, w, rfl, hturn⟩
    rw [not_eq_true] at hturn
    obtain ⟨next, hnext, hless⟩ := proceed_rounds hturn
    rcases hless with hout | hless
    · exact ⟨1, next, runMoves_cons_eq_some.2 ⟨next, hnext, rfl⟩, hout⟩
    · obtain ⟨n, w', hrun, hout⟩ := ih _ (hrounds ▸ hless) next rfl
      exact ⟨n + 1, w', runMoves_cons_eq_some.2 ⟨next, hnext, hrun⟩, hout⟩

end Progress

/-! ## Runs -/

/-- What holds of the line at every point of a run. -/
structure Fifo (w : SessionLine) : Prop where
  /-- At most one job has the line: its callback or completion runs, or its batch is being stored. -/
  oneActive : (holders w).length ≤ 1
  /-- Callbacks run in admission order. -/
  startOrder : w.started = List.range w.started.length
  /-- No completion is called twice, and only those of admitted jobs are called. -/
  atMostOnce : w.completed.Nodup ∧ ∀ j ∈ w.completed, j < w.admitted
  /-- When no call is in progress, every admitted job has got its completion, except a commit that
  waits for its Storage settlement and the jobs queued behind it. -/
  exactlyOnce : w.stack = [] → ∀ j < w.admitted, j ∈ w.completed ∨
    ∃ job, w.awaiting = some job ∧ (j = job.id ∨ j ∈ w.pending.map (·.id))
  /-- The Session's own code always comes to a point at which the outside has control. -/
  returns : ∃ n w', runMoves step w (List.replicate n .proceed) = some w' ∧ outsideTurn w'.stack = true
  /-- After a failure no further callback runs. -/
  noCallback : w.failed = true → ∀ later w', runMoves step w later = some w' → w'.started = w.started
  /-- Only a failed Session rejects queued jobs, and in admission order. -/
  rejectionOrder : w.rejected = List.range' w.started.length w.rejected.length ∧ (w.rejected ≠ [] → w.failed = true)
  /-- When no call of a failed Session is in progress, every job it did not start is rejected. -/
  allRejected : w.failed = true → w.stack = [] →
    w.awaiting = none ∧ w.pending = [] ∧ w.started.length + w.rejected.length = w.admitted
  /-- `Storage::close` is called at most once, with no job on the line. -/
  closedLast : w.storageCloses ≤ 1 ∧
    (0 < w.storageCloses → holders w = [] ∧ w.pending = [] ∧ ∀ j < w.admitted, j ∈ w.completed)

section Runs

variable {w : SessionLine}

theorem runMoves_invariants {moves : List LineMove} (hrun : runMoves step {} moves = some w) :
    Pumps w ∧ Account w ∧ Shut w ∧ Wakes w ∧ Quits w := by
  refine runMoves_invariant (P := fun s => Pumps s ∧ Account s ∧ Shut s ∧ Wakes s ∧ Quits s) ?_ ?_ hrun
  · rintro before move next ⟨hpumps, hacct, hshut, hwakes, hquits⟩ hstep
    have hchange := step_change hstep
    exact ⟨hpumps.step hchange, hacct.step hpumps hchange, hshut.step hchange,
      hwakes.step hpumps hchange, hquits.step hacct hchange⟩
  · refine ⟨⟨rfl, trivial, nofun⟩, ?_, ⟨rfl, rfl, nofun⟩, fun _ hne => (hne rfl).elim, nofun⟩
    exact ⟨rfl, rfl, nofun, rfl, rfl, nofun, rfl, List.nodup_nil, by simp⟩

/-- When nothing has the line and nothing waits, every admitted job has got its completion. -/
theorem Account.all_completed (h : Account w) (hactive : w.lineActive = false)
    (hpend : w.pending = []) {j : Nat} (hj : j < w.admitted) : j ∈ w.completed := by
  have hadmitted := h.admitted
  rw [hpend, List.length_nil, Nat.add_zero] at hadmitted
  rw [h.completed, hactive]
  by_cases hbegun : j < w.started.length
  · exact Or.inl hbegun
  · rw [h.rejected, List.mem_range'_1]
    omega

theorem Account.completed_lt (h : Account w) {j : Nat} (hj : j ∈ w.completed) : j < w.admitted := by
  have hadmitted := h.admitted
  rcases (h.completed j).1 hj with hlt | hrej | hcompletes
  · omega
  · have := (h.rejected_lt hrej).2
    omega
  · have := (h.completes_last hcompletes).2
    omega

/-- When no call is in progress, the line is free or its commit waits for Storage. -/
theorem Account.awaits (h : Account w) (hstack : w.stack = []) (hactive : w.lineActive = true) :
    ∃ job, w.awaiting = some job ∧ job.id + 1 = w.started.length := by
  have hhold := h.holders
  have hpos := h.active hactive
  rw [SessionLine.holders, hstack, if_pos hactive] at hhold
  cases hawait : w.awaiting with
  | none =>
    rw [hawait] at hhold
    cases hhold
  | some job =>
    rw [hawait] at hhold
    have hid : job.id = w.started.length - 1 := (List.cons.injEq _ _ _ _ ▸ hhold).1
    exact ⟨job, rfl, by omega⟩

/-- **The Session line is a FIFO.** Whatever callbacks, completions, observers, close listeners and
Storage do, and whenever a commit settles, jobs start one at a time in admission order, every
completion is called exactly once, a failure rejects what is queued in admission order, and Storage is
closed once, last. -/
theorem session_line_fifo {moves : List LineMove} (hrun : runMoves step {} moves = some w) : Fifo w := by
  obtain ⟨hpumps, haccount, hshut, hwakes, hquits⟩ := runMoves_invariants hrun
  have hidle : w.stack = [] → w.lineActive = false → w.pending = [] := by
    intro hstack hactive
    by_contra hne
    have hattended := hwakes hactive hne
    rw [hstack] at hattended
    rcases hattended with hmem | hmem | ⟨hmem, -⟩ | ⟨-, hmem⟩ <;> cases hmem
  refine
    { oneActive := ?_
      startOrder := haccount.started
      atMostOnce := ⟨haccount.once, fun j hj => haccount.completed_lt hj⟩
      exactlyOnce := ?_
      returns := gives_control_back w
      noCallback := ?_
      rejectionOrder := ⟨haccount.rejected, haccount.failure⟩
      allRejected := ?_, closedLast := ?_ }
  · rw [haccount.holders]
    split
    · exact Nat.le_refl 1
    · exact Nat.zero_le 1
  · intro hstack j hj
    cases hactive : w.lineActive with
    | false => exact Or.inl (haccount.all_completed hactive (hidle hstack hactive) hj)
    | true =>
      obtain ⟨job, hawaiting, hlast⟩ := haccount.awaits hstack hactive
      have hadmitted := haccount.admitted
      by_cases hcompleted : j ∈ w.completed
      · exact Or.inl hcompleted
      refine Or.inr ⟨job, hawaiting, ?_⟩
      rw [haccount.completed, hactive, toNat_true] at hcompleted
      by_cases hstarted : j < w.started.length
      · exact Or.inl (by omega)
      rw [haccount.pending, List.mem_range'_1]
      rw [haccount.rejected, List.mem_range'_1] at hcompleted
      omega
  · intro hfailed later w' hlater
    refine (runMoves_invariant (P := fun s => s.failed = true ∧ s.started = w.started) ?_ ⟨hfailed, rfl⟩ hlater).2
    rintro before move next ⟨hbefore, hstarted⟩ hstep
    obtain ⟨hnext, hsame⟩ := (step_change hstep).started_of_failed hbefore
    exact ⟨hnext, hsame.trans hstarted⟩
  · intro hfailed hstack
    have hactive : w.lineActive = false := by
      by_contra hne
      rw [Bool.not_eq_false] at hne
      obtain ⟨job, hawaiting, -⟩ := haccount.awaits hstack hne
      rw [(hquits hfailed).1] at hawaiting
      cases hawaiting
    have hpending := hidle hstack hactive
    have hadmitted := haccount.admitted
    rw [hpending, List.length_nil, Nat.add_zero] at hadmitted
    exact ⟨(hquits hfailed).1, hpending, hadmitted⟩
  · refine ⟨by rw [hshut.closes]; exact toNat_le _, ?_⟩
    intro hpositive
    have hstorage : w.storageClosed = true := by
      by_contra hne
      rw [not_eq_true] at hne
      rw [hshut.closes, hne] at hpositive
      cases hpositive
    obtain ⟨-, hactive, hpending⟩ := hshut.shut hstorage
    refine ⟨?_, hpending, fun j hj => haccount.all_completed hactive hpending hj⟩
    rw [haccount.holders, hactive]
    rfl

/-- A commit whose Storage fails while a read is queued behind it, with a close listener that closes
the Session: the read is rejected inside the listener, before the commit's own completion. -/
def failedCommit : List LineMove :=
  [.accept .commit, .proceed, .return true, .return false, .proceed, .proceed, .proceed,
    .accept .read, .proceed, .proceed, .proceed,
    .settle false, .close, .proceed, .proceed, .proceed, .proceed, .return false,
    .proceed, .proceed, .proceed, .return false, .return false,
    .proceed, .proceed, .proceed, .proceed, .return false, .proceed]

def failedSession : SessionLine :=
  { closed := true
    closeNotified := true
    storageClosed := true
    failed := true
    closeFinishing := true
    admitted := 2
    started := [0]
    completed := [1, 0]
    rejected := [1]
    storageCloses := 1 }

theorem failedSession_fifo :
    runMoves step {} failedCommit = some failedSession ∧ Fifo failedSession ∧ failedSession.stack = [] :=
  ⟨rfl, @session_line_fifo failedSession failedCommit rfl, rfl⟩

end Runs

end SessionLine

end CodingHarness.Durable
