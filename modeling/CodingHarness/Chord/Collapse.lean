import CodingHarness.Chord.Tracker

/-!
# Prepared operations reproduce the draft

The batch that `prepare` publishes for a change without a splice or a move is collapsed: it keeps one
write for every topmost written path, at the place of the last write of that path. The proof follows
the collapsed batch along the recorded operations. After each of them (`Collapsed`), a path at or
below a topmost written path shows the candidate once its write is out, and the base, less the
deletions so far, before that; every other path shows the base less the deletions so far.

A collapsed write finds its container as the draft did, except where it appends to an array of the
base: the element before it must be out already. The collapsed batch therefore applies exactly when
the last writes of appended elements come in index order (`AppendsInOrder`), and then it reproduces
the candidate (`prepare_reproduces_iff`).
-/

namespace CodingHarness.Chord

open Library Support

open scoped Classical
open List (mem_cons_of_mem mem_cons_self prefix_rfl)

/-! ## Writes and deletions of a batch -/

/-- Some write of the batch is at the path. -/
def WroteAt (ops : OpBatch) (path : Path) : Prop := ∃ op ∈ ops, isWriteOp op = true ∧ opPath op = path

/-- Some deletion of the batch is at the path or above it. -/
def DeletedIn (ops : OpBatch) (path : Path) : Prop := ∃ deleted, .delete deleted ∈ ops ∧ deleted <+: path

/-- No write of the batch is at the path or above it. -/
def Unwritten (ops : OpBatch) (path : Path) : Prop := ∀ written, WroteAt ops written → ¬ written <+: path

/-- A written path with no written path above it. -/
def Topmost (ops : OpBatch) (path : Path) : Prop :=
  WroteAt ops path ∧ ∀ written, WroteAt ops written → written <+: path → written = path

variable {ops : OpBatch} {path : Path} {op : Op}

theorem wroteAt_cons : WroteAt (op :: ops) path ↔ (isWriteOp op = true ∧ opPath op = path) ∨ WroteAt ops path := by
  simp [WroteAt]

theorem deletedIn_append {xs ys : OpBatch} : DeletedIn (xs ++ ys) path ↔ DeletedIn xs path ∨ DeletedIn ys path := by
  simp [DeletedIn, or_and_right, exists_or]

theorem deletedIn_delete {deleted path : Path} : DeletedIn [.delete deleted] path ↔ deleted <+: path := by
  simp [DeletedIn]

theorem not_deletedIn_write (hop : isWriteOp op = true) (path : Path) : ¬ DeletedIn [op] path := by
  rintro ⟨deleted, hmem, -⟩
  rw [List.mem_singleton] at hmem
  subst hmem
  cases hop

variable {p q : Path}

theorem prefix_antisymm (hpq : p <+: q) (hqp : q <+: p) : p = q := hpq.eq_of_length_le hqp.length_le

theorem exists_topmost (h : WroteAt ops path) : ∃ top, top <+: path ∧ Topmost ops top := by
  induction hlen : path.length using Nat.strong_induction_on generalizing path with
  | _ n ih =>
    by_cases htop : Topmost ops path
    · exact ⟨path, prefix_rfl, htop⟩
    obtain ⟨above, habove, hstart, hne⟩ : ∃ above, WroteAt ops above ∧ above <+: path ∧ above ≠ path := by
      by_contra hnone
      exact htop ⟨h, fun written hwrote hstart => by
        by_contra hne
        exact hnone ⟨written, hwrote, hstart, hne⟩⟩
    have hshorter : above.length < n := by
      rw [← hlen]
      exact lt_of_le_of_ne hstart.length_le fun heq => hne (hstart.eq_of_length heq)
    obtain ⟨top, htopPrefix, htop⟩ := ih above.length hshorter habove rfl
    exact ⟨top, htopPrefix.trans hstart, htop⟩

theorem Topmost.unique {p q r : Path} (hp : Topmost ops p) (hq : Topmost ops q)
    (hpr : p <+: r) (hqr : q <+: r) : p = q := by
  rcases List.prefix_or_prefix_of_prefix hpr hqr with hpq | hqp
  · exact hq.2 p hp.1 hpq
  · exact (hp.2 q hq.1 hqp).symm

theorem Topmost.unwritten_above (hp : Topmost ops p) (hqp : q <+: p) (hne : q ≠ p) : Unwritten ops q := by
  intro written hwrote hstart
  have heq := hp.2 written hwrote (hstart.trans hqp)
  subst heq
  exact hne (prefix_antisymm hqp hstart)

/-! ## One recorded operation -/

variable {v v' : Json}

/-- A write changes nothing outside its path, leaves something at it and found its container. -/
theorem view_write (hwrite : isWriteOp op = true) (h : applyOp v op = .ok v') :
    (∀ r, ¬ opPath op <+: r → view v' r = view v r) ∧ (view v' (opPath op)).isSome ∧
      View.Settable (view v) (opPath op) := by
  have hset : ∃ value, setPath v (opPath op) value = .ok v' := by
    cases op with
    | set path value => exact ⟨value, h⟩
    | append path text =>
      simp only [applyOp, appendStringPath, bind_eq_ok] at h
      obtain ⟨current, -, hset⟩ := h
      exact ⟨_, hset⟩
    | truncate path count =>
      simp only [applyOp, truncateStringPath, bind_eq_ok] at h
      obtain ⟨current, -, truncated, -, hset⟩ := h
      exact ⟨_, hset⟩
    | replace value | delete path | splice path index remove items | move path permutation => cases hwrite
  obtain ⟨value, hset⟩ := hset
  have hview := view_setPath hset
  refine ⟨fun r hr => ?_, ?_, (setPath_isOk_iff _ value v).1 ⟨v', hset⟩⟩
  · rw [hview, View.put, if_neg hr]
  · rw [hview, View.put, if_pos prefix_rfl]
    simp

theorem view_delete {parent : Path} {key : Bytes} (hwf : v.WF)
    (h : applyOp v (.delete (parent ++ [.key key])) = .ok v') :
    view v' = View.drop (parent ++ [.key key]) (view v) ∧ view v parent = some .object := by
  simp only [applyOp, map_eq_ok, Prod.exists] at h
  obtain ⟨result, changed, herase, rfl⟩ := h
  exact ⟨view_erasePathFrom hwf herase, (erasePathFrom_isOk_iff _ parent key v).1 ⟨_, herase⟩⟩

/-- An unwritten path shows what it showed before, unless it was deleted. -/
theorem view_unwritten {r : Path} (hwf : v.WF) (hopsWF : ∀ op ∈ ops, OpWF op) (hplain : ∀ op ∈ ops, Plain op)
    (h : applyOps v ops = .ok v') (hr : Unwritten ops r) :
    view v' r = if DeletedIn ops r then none else view v r := by
  induction ops generalizing v with
  | nil =>
    cases h
    rw [if_neg]
    rintro ⟨_, hmem, -⟩
    cases hmem
  | cons op ops ih =>
    simp only [applyOps, bind_eq_ok] at h
    obtain ⟨mid, hmid, hrest⟩ := h
    have hstep := ih (wf_applyOp hwf (hopsWF op mem_cons_self) hmid) (fun o ho => hopsWF o (mem_cons_of_mem _ ho))
      (fun o ho => hplain o (mem_cons_of_mem _ ho)) hrest
      (fun written hwrote => hr written (wroteAt_cons.2 (Or.inr hwrote)))
    rw [hstep, ← List.singleton_append, deletedIn_append]
    by_cases hwrite : isWriteOp op = true
    · have hnot : ¬ opPath op <+: r := hr _ (wroteAt_cons.2 (Or.inl ⟨hwrite, rfl⟩))
      simp only [not_deletedIn_write hwrite r, false_or, (view_write hwrite hmid).1 r hnot]
    have hop := hplain op mem_cons_self
    cases op with
    | delete path =>
      obtain ⟨parent, key, rfl⟩ := hop
      rw [deletedIn_delete, (view_delete hwf hmid).1, View.drop]
      by_cases hdel : DeletedIn ops r <;>
        by_cases hstart : parent ++ [.key key] <+: r <;> simp [hdel, hstart]
    | set path value | append path text | truncate path count => exact absurd rfl hwrite
    | replace value | splice path index remove items | move path permutation => cases hop

/-! ## The collapsed batch along the recorded operations -/

/-- The state of the collapsed batch when `later` of the recorded operations are still to come. -/
structure Collapsed (st : ChangeState) (done later : OpBatch) (x : Json) : Prop where
  wf : x.WF
  written : ∀ top, Topmost st.recorded top → ∀ r, top <+: r →
    view x r = if ¬ WroteAt later top ∧ (view st.candidate top).isSome then view st.candidate r
      else if DeletedIn done top then none else view st.base r
  unwritten : ∀ r, Unwritten st.recorded r → view x r = if DeletedIn done r then none else view st.base r

/-- A change without a splice or a move, split at one recorded operation. -/
structure Split (st : ChangeState) (done : OpBatch) (op : Op) (later : OpBatch) (mid mid' : Json) :
    Prop where
  inv : st.Inv
  plain : ∀ o ∈ st.recorded, Plain o
  recorded : st.recorded = done ++ op :: later
  before : applyOps st.base done = .ok mid
  here : applyOp mid op = .ok mid'
  after : applyOps mid' later = .ok st.candidate

namespace Split

variable {st : ChangeState} {done later : OpBatch} {mid mid' x : Json}

section

variable (s : Split st done op later mid mid')
include s

theorem mem_done {o : Op} (h : o ∈ done) : o ∈ st.recorded := by
  rw [s.recorded]
  exact List.mem_append_left _ h

theorem mem_op : op ∈ st.recorded := by
  rw [s.recorded]
  exact List.mem_append_right _ mem_cons_self

theorem mem_later {o : Op} (h : o ∈ later) : o ∈ st.recorded := by
  rw [s.recorded]
  exact List.mem_append_right _ (mem_cons_of_mem _ h)

theorem mid_wf : mid.WF :=
  wf_applyOps s.inv.base_wf (fun _ ho => s.inv.recorded_wf _ (s.mem_done ho)) s.before

theorem mid'_wf : mid'.WF :=
  wf_applyOp s.mid_wf (s.inv.recorded_wf op s.mem_op) s.here

/-- Before the operation, the draft shows an unwritten path as the collapsed batch does. -/
theorem view_mid (hx : Collapsed st done (op :: later) x)
    {r : Path} (hr : Unwritten st.recorded r) : view mid r = view x r := by
  have hdone : Unwritten done r := by
    rintro written ⟨o, ho, hwrite⟩
    exact hr written ⟨o, s.mem_done ho, hwrite⟩
  rw [hx.unwritten r hr, view_unwritten s.inv.base_wf
    (fun o ho => s.inv.recorded_wf o (s.mem_done ho)) (fun o ho => s.plain o (s.mem_done ho))
    s.before hdone]

/-- After the operation, a path that no later write covers shows in the candidate what it shows now,
unless it is deleted. -/
theorem view_candidate {r : Path} (hr : Unwritten later r) :
    view st.candidate r = if DeletedIn later r then none else view mid' r :=
  view_unwritten s.mid'_wf (fun o ho => s.inv.recorded_wf o (s.mem_later ho))
    (fun o ho => s.plain o (s.mem_later ho)) s.after hr

end

end Split

variable {st : ChangeState}

theorem candidate_none_of_deleted (hinv : st.Inv)
    (hplain : ∀ op ∈ st.recorded, Plain op) {r : Path} (hr : Unwritten st.recorded r)
    (hdel : DeletedIn st.recorded r) : view st.candidate r = none := by
  rw [view_unwritten hinv.base_wf hinv.recorded_wf hplain hinv.replay hr, if_pos hdel]

/-- A topmost path that the candidate still has was deleted nowhere above. -/
theorem deleted_eq_of_isSome (hinv : st.Inv)
    (hplain : ∀ op ∈ st.recorded, Plain op) {top deleted : Path} (htop : Topmost st.recorded top)
    (hsome : (view st.candidate top).isSome) (hmem : .delete deleted ∈ st.recorded)
    (hstart : deleted <+: top) : deleted = top := by
  by_contra hne
  have hnone : view st.candidate deleted = none :=
    candidate_none_of_deleted hinv hplain (htop.unwritten_above hstart hne) ⟨deleted, hmem, prefix_rfl⟩
  rw [view_eq_none_below hnone hstart] at hsome
  cases hsome

theorem exists_last_write (h : WroteAt ops path) :
    ∃ done op later, ops = done ++ op :: later ∧ isWriteOp op = true ∧ opPath op = path ∧ ¬ WroteAt later path := by
  induction ops with
  | nil =>
    obtain ⟨op, hop, -⟩ := h
    cases hop
  | cons op ops ih =>
    by_cases hlater : WroteAt ops path
    · obtain ⟨done, o, later, rfl, hwrite, hpath, hlast⟩ := ih hlater
      exact ⟨op :: done, o, later, rfl, hwrite, hpath, hlast⟩
    rcases wroteAt_cons.1 h with ⟨hwrite, hpath⟩ | hops
    · exact ⟨[], op, ops, rfl, hwrite, hpath, hlater⟩
    · exact absurd hops hlater

variable {done later : OpBatch}

theorem exists_split (hinv : st.Inv) (hplain : ∀ op ∈ st.recorded, Plain op)
    (hrecorded : st.recorded = done ++ op :: later) : ∃ mid mid', Split st done op later mid mid' := by
  have hreplay := hinv.replay
  rw [hrecorded, applyOps_append, bind_eq_ok] at hreplay
  obtain ⟨mid, hmid, hrest⟩ := hreplay
  simp only [applyOps, bind_eq_ok] at hrest
  obtain ⟨mid', hmid', hlater⟩ := hrest
  exact ⟨mid, mid', hinv, hplain, hrecorded, hmid, hmid', hlater⟩

theorem unwritten_of_last {mid mid' : Json}
    (s : Split st done op later mid mid') {top : Path} (htop : Topmost st.recorded top)
    (hlast : ¬ WroteAt later top) : Unwritten later top := by
  rintro written ⟨o, ho, hwrite⟩ hstart
  have heq := htop.2 written ⟨o, s.mem_later ho, hwrite⟩ hstart
  subst heq
  exact hlast ⟨o, ho, hwrite⟩

/-- A topmost path that the candidate lost was deleted at it or above it. -/
theorem deletedIn_of_none (hinv : st.Inv)
    (hplain : ∀ op ∈ st.recorded, Plain op) {top : Path} (htop : Topmost st.recorded top)
    (hnone : view st.candidate top = none) : DeletedIn st.recorded top := by
  obtain ⟨done, op, later, hrecorded, hwrite, rfl, hlast⟩ := exists_last_write htop.1
  obtain ⟨mid, mid', s⟩ := exists_split hinv hplain hrecorded
  have hsome := (view_write hwrite s.here).2.1
  have hcand := s.view_candidate (unwritten_of_last s htop hlast)
  by_cases hdel : DeletedIn later (opPath op)
  · obtain ⟨deleted, hmem, hstart⟩ := hdel
    exact ⟨deleted, s.mem_later hmem, hstart⟩
  rw [if_neg hdel, hnone] at hcand
  rw [← hcand] at hsome
  cases hsome

/-! ## Steps of the collapsed batch -/

section Steps

variable {mid mid' x x' : Json}

theorem Collapsed.skip_write (hx : Collapsed st done (op :: later) x) (hwrite : isWriteOp op = true)
    (hskip : Topmost st.recorded (opPath op) → ¬ WroteAt later (opPath op) →
      view st.candidate (opPath op) = none) : Collapsed st (done ++ [op]) later x where
  wf := hx.wf
  written := by
    intro top htop r hr
    rw [hx.written top htop r hr, deletedIn_append, wroteAt_cons]
    simp only [not_deletedIn_write hwrite, or_false, hwrite, true_and]
    by_cases heq : opPath op = top
    · subst heq
      by_cases hlater : WroteAt later (opPath op)
      · simp [hlater]
      · simp [hlater, hskip htop hlater]
    · simp [heq]
  unwritten := by
    intro r hr
    rw [hx.unwritten r hr, deletedIn_append]
    simp only [not_deletedIn_write hwrite, or_false]

theorem Collapsed.write (hx : Collapsed st done (op :: later) x) (hwrite : isWriteOp op = true)
    (htop : Topmost st.recorded (opPath op)) (hlast : ¬ WroteAt later (opPath op)) {value : Json}
    (hvalue : tryGetPath st.candidate (opPath op) = some value) (hwf : x'.WF)
    (hview : view x' = View.put (opPath op) (view value) (view x)) : Collapsed st (done ++ [op]) later x' where
  wf := hwf
  written := by
    intro top htop' r hr
    rw [hview, View.put, deletedIn_append]
    by_cases heq : opPath op = top
    · subst heq
      have hsome : (view st.candidate (opPath op)).isSome := by
        rw [view_isSome_iff, hvalue]
        rfl
      obtain ⟨rest, rfl⟩ := hr
      rw [if_pos (List.prefix_append _ _), if_pos ⟨hlast, hsome⟩, List.drop_left, view_append, hvalue]
      rfl
    have hnot : ¬ opPath op <+: r := fun hstart => heq (htop.unique htop' hstart hr)
    rw [if_neg hnot, hx.written top htop' r hr, wroteAt_cons]
    simp only [not_deletedIn_write hwrite, or_false, heq, and_false, false_or]
  unwritten := by
    intro r hr
    have hnot : ¬ opPath op <+: r := hr _ htop.1
    rw [hview, View.put, if_neg hnot, hx.unwritten r hr, deletedIn_append]
    simp only [not_deletedIn_write hwrite, or_false]

/-- A deletion that is left out of the batch: a write above it covers it, or the base lacks it. -/
theorem Collapsed.skip_delete {deleted : Path} (hx : Collapsed st done (.delete deleted :: later) x)
    (hskip : (∃ written, WroteAt st.recorded written ∧ written <+: deleted ∧ written ≠ deleted) ∨
      view st.base deleted = none) : Collapsed st (done ++ [.delete deleted]) later x where
  wf := hx.wf
  written := by
    intro top htop r hr
    rw [hx.written top htop r hr, deletedIn_append, deletedIn_delete, wroteAt_cons]
    simp only [isWriteOp, Bool.false_eq_true, false_and, false_or]
    by_cases hstart : deleted <+: top
    · have hbase : view st.base r = none := by
        rcases hskip with ⟨written, hwrote, habove, hne⟩ | hnone
        · have heq := htop.2 written hwrote (habove.trans hstart)
          subst heq
          exact absurd (prefix_antisymm habove hstart) hne
        · exact view_eq_none_below hnone (hstart.trans hr)
      simp [hstart, hbase]
    · simp [hstart]
  unwritten := by
    intro r hr
    rw [hx.unwritten r hr, deletedIn_append, deletedIn_delete]
    by_cases hstart : deleted <+: r
    · have hbase : view st.base r = none := by
        rcases hskip with ⟨written, hwrote, habove, -⟩ | hnone
        · exact absurd (habove.trans hstart) (hr written hwrote)
        · exact view_eq_none_below hnone hstart
      simp [hstart, hbase]
    · simp [hstart]

theorem Collapsed.delete {deleted : Path} (s : Split st done (.delete deleted) later mid mid')
    (hx : Collapsed st done (.delete deleted :: later) x)
    (habove : ∀ written, WroteAt st.recorded written → written <+: deleted → written = deleted)
    (hwf : x'.WF) (hview : view x' = View.drop deleted (view x)) (hmid : view mid' = View.drop deleted (view mid)) :
    Collapsed st (done ++ [.delete deleted]) later x' where
  wf := hwf
  written := by
    intro top htop r hr
    have hbelow : deleted <+: r → deleted <+: top := by
      intro hstart
      rcases List.prefix_or_prefix_of_prefix hstart hr with h | h
      · exact h
      · rw [habove top htop.1 h]
    rw [hview, View.drop, deletedIn_append, deletedIn_delete]
    by_cases hstart : deleted <+: r
    · rw [if_pos hstart, if_neg, if_pos (Or.inr (hbelow hstart))]
      -- The write was out before, so the candidate cannot have the path any more.
      rintro ⟨hlast, hsome⟩
      rw [s.view_candidate (unwritten_of_last s htop hlast), hmid, View.drop, if_pos (hbelow hstart)] at hsome
      split at hsome <;> cases hsome
    have hnot : ¬ deleted <+: top := fun h => hstart (h.trans hr)
    rw [if_neg hstart, hx.written top htop r hr, wroteAt_cons]
    simp [isWriteOp, hnot]
  unwritten := by
    intro r hr
    rw [hview, View.drop, hx.unwritten r hr, deletedIn_append, deletedIn_delete]
    by_cases hstart : deleted <+: r <;> simp [hstart]

end Steps

/-! ## The write of a topmost path -/

theorem isStrictPrefix_iff : isStrictPrefix p q = true ↔ p <+: q ∧ p ≠ q := by
  rw [isStrictPrefix, Bool.and_eq_true, pathIsPrefix_iff, decide_eq_true_eq]
  constructor
  · rintro ⟨hstart, hlt⟩
    refine ⟨hstart, ?_⟩
    rintro rfl
    exact lt_irrefl _ hlt
  · rintro ⟨hstart, hne⟩
    exact ⟨hstart, lt_of_le_of_ne hstart.length_le fun heq => hne (hstart.eq_of_length heq)⟩

/-- A write survives exactly as the last write of a path with no write above it. -/
theorem writeSurvives_iff {later : OpBatch} : st.writeSurvives later path = true ↔ ¬ WroteAt later path ∧
      ∀ written, WroteAt st.recorded written → written <+: path → written = path := by
  simp only [ChangeState.writeSurvives, Bool.and_eq_true, Bool.not_eq_true', List.any_eq_false,
    Bool.and_eq_true, hasSamePath_iff, isStrictPrefix_iff, not_and, not_not, WroteAt, not_exists]
  constructor
  · rintro ⟨hlater, habove⟩
    refine ⟨fun op hop hwrite hpath => hlater op hop hwrite hpath.symm, ?_⟩
    rintro written ⟨op, hop, hwrite, rfl⟩ hstart
    exact habove op hop hwrite hstart
  rintro ⟨hlater, habove⟩
  exact ⟨fun op hop hwrite hpath => hlater op hop hwrite hpath.symm,
    fun op hop hwrite hstart => habove _ ⟨op, hop, hwrite, rfl⟩ hstart⟩

/-- What `emitWrite` adds for a path: nothing when the candidate lost it or it is as in the base,
a string delta, or a set. -/
theorem emitWrite_cases (st : ChangeState) (path : Path) :
    (tryGetPath st.candidate path = none ∧ st.emitWrite path = []) ∨
    ∃ value, tryGetPath st.candidate path = some value ∧
      ((.delete path ∉ st.recorded ∧ (∃ old, tryGetPath st.base path = some old ∧
          Json.beq old value = true) ∧ st.emitWrite path = []) ∨
        (.delete path ∉ st.recorded ∧ ∃ old new, tryGetPath st.base path = some (.string old) ∧
          value = .string new ∧ st.emitWrite path = emitStringChange old new path) ∨
        st.emitWrite path = [.set path value]) := by
  unfold ChangeState.emitWrite
  cases hvalue : tryGetPath st.candidate path with
  | none => exact Or.inl ⟨rfl, rfl⟩
  | some value =>
    refine Or.inr ⟨value, rfl, ?_⟩
    by_cases hmem : .delete path ∈ st.recorded
    · rw [(ChangeState.any_delete_iff st.recorded path).2 hmem]
      simp
    have hnot := hmem
    rw [← ChangeState.any_delete_iff, Bool.not_eq_true] at hmem
    rw [hmem]
    cases hbase : tryGetPath st.base path with
    | none => simp
    | some old =>
      by_cases hbeq : Json.beq old value = true
      · exact Or.inl ⟨hnot, ⟨old, rfl, hbeq⟩, by simp [hbeq]⟩
      refine Or.inr ?_
      simp only [Bool.not_false, Bool.true_and, Option.any_some, hbeq, Bool.false_eq_true, if_false]
      split
      · rename_i old' new hold hnew
        cases hnew
        exact Or.inl ⟨hnot, old', _, rfl, rfl, rfl⟩
      · exact Or.inr rfl

theorem opWF_emitStringChange (before after : Bytes) (path : Path) :
    ∀ op ∈ emitStringChange before after path, OpWF op := by
  intro op hop
  rcases mem_emitStringChange hop with ⟨text, rfl⟩ | ⟨count, rfl⟩ | rfl
  · trivial
  · trivial
  · exact Json.wf_string after

/-- A write that appends to an array of the base comes after the last write of the element before
it. -/
def AppendInOrder (st : ChangeState) (path : Path) (later : OpBatch) : Prop :=
  ∀ parent i, path = parent ++ [.index (i + 1)] → (tryGetPath st.candidate path).isSome →
    tryGetPath st.base (parent ++ [.index i]) = none → ¬ WroteAt later (parent ++ [.index i])

section Emit

variable {mid mid' x : Json}

theorem appendInOrder_of_base {path : Path} (h : (tryGetPath st.base path).isSome) : AppendInOrder st path later := by
  rintro parent i rfl - hnone
  have hprev := (@view_index_isSome st.base parent i (by rwa [view_isSome_iff])).2
  rw [view_isSome_iff, hnone] at hprev
  cases hprev

theorem appendInOrder_of_candidate {path : Path} (h : tryGetPath st.candidate path = none) :
    AppendInOrder st path later := by
  intro parent i _ hsome
  rw [h] at hsome
  cases hsome

section

variable (s : Split st done op later mid mid')
include s

section

variable (hx : Collapsed st done (op :: later) x)
include hx

section

variable (hwrite : isWriteOp op = true)
include hwrite

/-- Before the last write of a topmost path that the candidate keeps, an undeleted path shows the
base. -/
theorem Collapsed.view_base
    (htop : Topmost st.recorded (opPath op)) (hsome : (tryGetPath st.candidate (opPath op)).isSome)
    (hkept : .delete (opPath op) ∉ st.recorded) {r : Path} (hr : opPath op <+: r) : view x r = view st.base r := by
  have hdel : ¬ DeletedIn done (opPath op) := by
    rintro ⟨deleted, hmem, hstart⟩
    have heq := deleted_eq_of_isSome s.inv s.plain htop (by rwa [view_isSome_iff])
      (s.mem_done hmem) hstart
    rw [heq] at hmem
    exact hkept (s.mem_done hmem)
  rw [hx.written _ htop r hr, if_neg, if_neg hdel]
  rintro ⟨hnot, -⟩
  exact hnot (wroteAt_cons.2 (Or.inl ⟨hwrite, rfl⟩))

/-- The element before an appended one is out exactly when the append is in order. -/
theorem Collapsed.previous_isSome_iff
    (hsome : (tryGetPath st.candidate (opPath op)).isSome) {parent : Path} {i : Nat}
    (hpath : opPath op = parent ++ [.index (i + 1)]) (hpar : Unwritten st.recorded parent) :
    (view x (parent ++ [.index i])).isSome ↔ AppendInOrder st (opPath op) later := by
  have hdraft := (view_write hwrite s.here).2.2
  rw [hpath] at hdraft
  simp only [View.Settable, List.getLast?_append, List.getLast?_singleton, Option.some_or,
    List.dropLast_concat] at hdraft
  have hcand : (view st.candidate (parent ++ [.index i])).isSome := by
    refine (view_index_isSome ?_).2
    rw [← hpath, view_isSome_iff]
    exact hsome
  have hright : AppendInOrder st (opPath op) later ↔ (tryGetPath st.base (parent ++ [.index i]) = none →
        ¬ WroteAt later (parent ++ [.index i])) := by
    constructor
    · intro horder
      exact horder parent i hpath hsome
    intro horder q j hq _
    rw [hpath] at hq
    obtain ⟨rfl, hlast⟩ := List.append_inj' hq rfl
    simp only [List.cons.injEq, PathSegment.index.injEq, Nat.add_right_cancel_iff, and_true] at hlast
    subst hlast
    exact horder
  rw [hright]
  have hwrote : ∀ written, WroteAt st.recorded written → written <+: parent ++ [.index i] →
      written = parent ++ [.index i] := by
    intro written hwrote hstart
    rcases List.prefix_concat_iff.1 hstart with heq | habove
    · exact heq
    · exact absurd habove (hpar written hwrote)
  by_cases hrecorded : WroteAt st.recorded (parent ++ [.index i])
  · have hdel : ¬ DeletedIn done (parent ++ [.index i]) := by
      rintro ⟨deleted, hmem, hstart⟩
      rcases List.prefix_concat_iff.1 hstart with rfl | habove
      · -- Deletions end in a key.
        obtain ⟨q, key, heq⟩ := s.plain _ (s.mem_done hmem)
        have hlast := congrArg List.getLast? heq
        simp at hlast
      have hnone : view x parent = none := by
        rw [hx.unwritten parent hpar, if_pos ⟨deleted, hmem, habove⟩]
      rw [s.view_mid hx hpar, hnone] at hdraft
      cases hdraft.1
    have hne : opPath op ≠ parent ++ [.index i] := by
      rw [hpath]
      simp
    rw [hx.written _ ⟨hrecorded, hwrote⟩ _ prefix_rfl, if_neg hdel, wroteAt_cons]
    simp only [hne, and_false, false_or, hcand, and_true]
    by_cases hlater : WroteAt later (parent ++ [.index i])
    · simp [hlater, view_isSome_iff, Option.isSome_iff_ne_none]
    · simp [hlater, hcand]
  · have hunwritten : Unwritten st.recorded (parent ++ [.index i]) := by
      intro written hw hstart
      exact hrecorded (hwrote written hw hstart ▸ hw)
    rw [← s.view_mid hx hunwritten]
    refine ⟨fun _ _ => ?_, fun _ => hdraft.2⟩
    rintro ⟨o, ho, hw⟩
    exact hrecorded ⟨o, s.mem_later ho, hw⟩

/-- A surviving write finds its container exactly when it appends in order. -/
theorem Collapsed.settable_iff (htop : Topmost st.recorded (opPath op))
    (hsome : (tryGetPath st.candidate (opPath op)).isSome) :
    View.Settable (view x) (opPath op) ↔ AppendInOrder st (opPath op) later := by
  have hdraft := (view_write hwrite s.here).2.2
  rcases List.eq_nil_or_concat (opPath op) with hnil | ⟨parent, segment, hpath⟩
  · rw [hnil]
    refine ⟨?_, fun _ => trivial⟩
    rintro - parent i hindex
    simp at hindex
  rw [List.concat_eq_append] at hpath
  have hpar : Unwritten st.recorded parent := by
    refine htop.unwritten_above (hpath ▸ List.prefix_append _ _) fun heq => ?_
    rw [hpath] at heq
    simp at heq
  have hview := s.view_mid hx hpar
  cases segment with
  | key key =>
    rw [hpath] at hdraft ⊢
    simp only [View.Settable, List.getLast?_append, List.getLast?_singleton, Option.some_or,
      List.dropLast_concat] at hdraft ⊢
    refine ⟨?_, fun _ => hview ▸ hdraft⟩
    rintro - q i hindex
    simp at hindex
  | index i =>
    cases i with
    | zero =>
      rw [hpath] at hdraft ⊢
      simp only [View.Settable, List.getLast?_append, List.getLast?_singleton,
        Option.some_or, List.dropLast_concat] at hdraft ⊢
      refine ⟨?_, fun _ => hview ▸ hdraft⟩
      rintro - q i hindex
      simp at hindex
    | succ i =>
      rw [← hx.previous_isSome_iff s hwrite hsome hpath hpar]
      rw [hpath] at hdraft ⊢
      simp only [View.Settable, List.getLast?_append, List.getLast?_singleton,
        Option.some_or, List.dropLast_concat] at hdraft ⊢
      exact ⟨fun h => h.2, fun h => ⟨hview ▸ hdraft.1, h⟩⟩

/-- The batch a surviving write adds applies exactly when it appends in order, and then the write is
out. -/
theorem Collapsed.emit
    (htop : Topmost st.recorded (opPath op)) (hlast : ¬ WroteAt later (opPath op)) :
    ((∃ y, applyOps x (st.emitWrite (opPath op)) = .ok y) ↔ AppendInOrder st (opPath op) later) ∧
      ∀ y, applyOps x (st.emitWrite (opPath op)) = .ok y → Collapsed st (done ++ [op]) later y := by
  rcases emitWrite_cases st (opPath op) with
    ⟨hnone, hemit⟩ | ⟨value, hvalue, ⟨hkept, ⟨old, hold, hbeq⟩, hemit⟩ | ⟨hkept, old, new, hold, rfl, hemit⟩ | hemit⟩
  · rw [hemit]
    refine ⟨⟨fun _ => appendInOrder_of_candidate hnone, fun _ => ⟨x, rfl⟩⟩, ?_⟩
    rintro y ⟨⟩
    refine hx.skip_write hwrite fun _ _ => ?_
    rw [view, hnone]
    rfl
  · -- The candidate has again what the base has.
    have hsome : (tryGetPath st.candidate (opPath op)).isSome := by
      rw [hvalue]
      rfl
    rw [hemit]
    refine ⟨⟨fun _ => appendInOrder_of_base (by rw [hold]; rfl), fun _ => ⟨x, rfl⟩⟩, ?_⟩
    rintro y ⟨⟩
    refine hx.write hwrite htop hlast hvalue hx.wf ?_
    have hequivalent : Equivalent old value := equivalent_of_beq (wf_tryGetPath s.inv.base_wf hold)
        (wf_tryGetPath s.inv.candidate_wf hvalue) hbeq
    funext r
    unfold View.put
    split
    · rename_i hr
      rw [hx.view_base s hwrite htop hsome hkept hr]
      obtain ⟨rest, rfl⟩ := hr
      rw [view_append, hold, List.drop_left]
      exact hequivalent rest
    · rfl
  · have hsome : (tryGetPath st.candidate (opPath op)).isSome := by
      rw [hvalue]
      rfl
    have hcur : tryGetPath x (opPath op) = some (.string old) := by
      rw [tryGetPath_eq_string_iff, hx.view_base s hwrite htop hsome hkept prefix_rfl, ← tryGetPath_eq_string_iff]
      exact hold
    obtain ⟨updated, hupd, hview⟩ := applyOps_emitStringChange hcur new
    rw [hemit]
    refine ⟨⟨fun _ => appendInOrder_of_base (by rw [hold]; rfl), fun _ => ⟨updated, hupd⟩⟩, ?_⟩
    intro y hy
    rw [hupd, Except.ok.injEq] at hy
    subst hy
    refine hx.write hwrite htop hlast hvalue ?_ hview
    exact wf_applyOps hx.wf (opWF_emitStringChange old new (opPath op)) hupd
  · have hsome : (tryGetPath st.candidate (opPath op)).isSome := by
      rw [hvalue]
      rfl
    have happly : ∀ y, applyOps x [.set (opPath op) value] = .ok y ↔ setPath x (opPath op) value = .ok y := by
      simp [applyOps, applyOp]
    rw [hemit]
    simp only [happly, setPath_isOk_iff]
    refine ⟨hx.settable_iff s hwrite htop hsome, fun y hy => ?_⟩
    exact hx.write hwrite htop hlast hvalue
      (wf_setPath (wf_tryGetPath s.inv.candidate_wf hvalue) hx.wf hy) (view_setPath hy)

end

end

end

end Emit

/-! ## Deletions -/

variable {ops : OpBatch}

theorem mem_survivingPaths {path : Path} (hwrote : WroteAt ops path)
    (habove : ∀ written, WroteAt st.recorded written → written <+: path → written = path) :
    path ∈ st.survivingPaths ops := by
  induction ops with
  | nil =>
    obtain ⟨op, hop, -⟩ := hwrote
    cases hop
  | cons op later ih =>
    rw [ChangeState.survivingPaths]
    by_cases hlater : WroteAt later path
    · split
      · exact mem_cons_of_mem _ (ih hlater)
      · exact ih hlater
    rcases wroteAt_cons.1 hwrote with ⟨hwrite, rfl⟩ | hwrote
    · have hsurv : st.writeSurvives later (opPath op) = true := writeSurvives_iff.2 ⟨hlater, habove⟩
      rw [if_pos (by rw [hwrite, hsurv]; rfl)]
      exact mem_cons_self
    · exact absurd hwrote hlater

theorem survivingPaths_wroteAt (h : path ∈ st.survivingPaths ops) : WroteAt ops path := by
  induction ops with
  | nil => cases h
  | cons op later ih =>
    rw [ChangeState.survivingPaths] at h
    split at h
    · rename_i hop
      rw [Bool.and_eq_true] at hop
      rcases List.mem_cons.1 h with rfl | h
      · exact wroteAt_cons.2 (Or.inl ⟨hop.1, rfl⟩)
      · exact wroteAt_cons.2 (Or.inr (ih h))
    · exact wroteAt_cons.2 (Or.inr (ih h))

/-- A deletion is kept exactly when nothing above it is written and the base has it. -/
theorem deleteKept_iff : st.deleteKept path = true ↔
      (∀ written, WroteAt st.recorded written → written <+: path → written = path) ∧
        (tryGetPath st.base path).isSome := by
  rw [ChangeState.deleteKept, Bool.and_eq_true, Bool.not_eq_true', List.any_eq_false]
  refine and_congr_left fun _ => ?_
  constructor
  · intro hnone written hwrote hstart
    obtain ⟨top, htop, htopmost⟩ := exists_topmost hwrote
    have hsurv := @mem_survivingPaths st _ _ htopmost.1 htopmost.2
    have heq : top = path := by
      by_contra hne
      exact hnone top hsurv (isStrictPrefix_iff.2 ⟨htop.trans hstart, hne⟩)
    subst heq
    exact prefix_antisymm hstart htop
  intro habove written hwrote hstrict
  obtain ⟨hstart, hne⟩ := isStrictPrefix_iff.1 hstrict
  exact hne (habove written (survivingPaths_wroteAt hwrote) hstart)

theorem Collapsed.emit_delete {deleted : Path}
    {mid mid' x : Json} (s : Split st done (.delete deleted) later mid mid')
    (hx : Collapsed st done (.delete deleted :: later) x) :
    ∃ y, applyOps x (st.emitDelete (.delete deleted)) = .ok y ∧ Collapsed st (done ++ [.delete deleted]) later y := by
  rw [ChangeState.emitDelete]
  obtain ⟨parent, key, rfl⟩ := s.plain _ s.mem_op
  obtain ⟨hmid, hobj⟩ := view_delete s.mid_wf s.here
  by_cases hkept : st.deleteKept (parent ++ [.key key]) = true
  · obtain ⟨habove, -⟩ := deleteKept_iff.1 hkept
    have hpar : Unwritten st.recorded parent := by
      intro written hwrote hstart
      have heq := habove written hwrote (hstart.trans (List.prefix_append _ _))
      subst heq
      have hlen := hstart.length_le
      simp at hlen
    rw [s.view_mid hx hpar] at hobj
    obtain ⟨⟨y, changed⟩, hy⟩ := (erasePathFrom_isOk_iff (parent ++ [.key key]) parent key x).2 hobj
    refine ⟨y, ?_, hx.delete s habove (wf_erasePathFrom hx.wf hy) (view_erasePathFrom hx.wf hy) hmid⟩
    rw [if_pos hkept]
    simp [applyOps, applyOp, erasePath, hy]
  refine ⟨x, by rw [if_neg hkept]; rfl, hx.skip_delete ?_⟩
  rw [deleteKept_iff, not_and_or] at hkept
  rcases hkept with habove | hbase
  · simp only [not_forall] at habove
    obtain ⟨written, hwrote, hstart, hne⟩ := habove
    exact Or.inl ⟨written, hwrote, hstart, hne⟩
  refine Or.inr ?_
  rw [view, Option.map_eq_none_iff]
  simpa using hbase

/-! ## The whole batch -/

/-- The appends of a final part of the recorded operations are in order. -/
def InOrderFrom (st : ChangeState) (ops : OpBatch) : Prop :=
  ∀ before op later, ops = before ++ op :: later → isWriteOp op = true →
    st.writeSurvives later (opPath op) = true → AppendInOrder st (opPath op) later

theorem inOrderFrom_nil (st : ChangeState) : InOrderFrom st [] := by
  intro before op later h
  simp at h

theorem inOrderFrom_cons {later : OpBatch} :
    InOrderFrom st (op :: later) ↔ (isWriteOp op = true → st.writeSurvives later (opPath op) = true →
        AppendInOrder st (opPath op) later) ∧ InOrderFrom st later := by
  constructor
  · intro h
    exact ⟨h [] op later rfl, fun before o rest heq => h (op :: before) o rest (by rw [heq]; rfl)⟩
  rintro ⟨hhead, htail⟩ before o rest heq
  cases before with
  | nil =>
    obtain ⟨rfl, rfl⟩ := List.cons.inj heq
    exact hhead
  | cons first before =>
    obtain ⟨-, hrest⟩ := List.cons.inj heq
    exact htail before o rest hrest

/-- One recorded operation: its part of the batch applies exactly when it is in order. -/
theorem Collapsed.step {mid mid' x : Json}
    (s : Split st done op later mid mid') (hx : Collapsed st done (op :: later) x) :
    ((∃ y, applyOps x (st.collapseStep op later) = .ok y) ↔
        (isWriteOp op = true → st.writeSurvives later (opPath op) = true → AppendInOrder st (opPath op) later)) ∧
      ∀ y, applyOps x (st.collapseStep op later) = .ok y → Collapsed st (done ++ [op]) later y := by
  unfold ChangeState.collapseStep
  by_cases hwrite : isWriteOp op = true
  · by_cases hsurv : st.writeSurvives later (opPath op) = true
    · rw [if_pos (by rw [hwrite, hsurv]; rfl)]
      obtain ⟨hlast, habove⟩ := writeSurvives_iff.1 hsurv
      have htop : Topmost st.recorded (opPath op) := ⟨⟨op, s.mem_op, hwrite, rfl⟩, habove⟩
      obtain ⟨hiff, hnext⟩ := hx.emit s hwrite htop hlast
      exact ⟨hiff.trans ⟨fun h _ _ => h, fun h => h hwrite hsurv⟩, hnext⟩
    · have hempty : st.emitDelete op = [] := by
        cases op with
        | delete path => cases hwrite
        | _ => rfl
      rw [if_neg (by simp [hwrite, hsurv]), hempty]
      refine ⟨⟨fun _ _ h => absurd h hsurv, fun _ => ⟨x, rfl⟩⟩, ?_⟩
      rintro y ⟨⟩
      refine hx.skip_write hwrite fun htop hlast => ?_
      exact absurd (writeSurvives_iff.2 ⟨hlast, htop.2⟩) hsurv
  · have hplain := s.plain op s.mem_op
    rw [if_neg (by simp [hwrite])]
    cases op with
    | delete deleted =>
      obtain ⟨y, hy, hnext⟩ := hx.emit_delete s
      refine ⟨⟨fun _ h => absurd h hwrite, fun _ => ⟨y, hy⟩⟩, fun z hz => ?_⟩
      rw [hy, Except.ok.injEq] at hz
      exact hz ▸ hnext
    | set path value | append path text | truncate path count => exact absurd rfl hwrite
    | replace value | splice path index remove items | move path permutation => cases hplain

/-- **The collapsed batch applies exactly when its appends are in order.** -/
theorem Collapsed.run (hinv : st.Inv) (hplain : ∀ op ∈ st.recorded, Plain op)
    (later : OpBatch) {done : OpBatch} {x : Json} (hrecorded : st.recorded = done ++ later)
    (hx : Collapsed st done later x) : ((∃ y, applyOps x (st.collapseLoop later) = .ok y) ↔ InOrderFrom st later) ∧
      ∀ y, applyOps x (st.collapseLoop later) = .ok y → Collapsed st st.recorded [] y := by
  induction later generalizing done x with
  | nil =>
    refine ⟨⟨fun _ => inOrderFrom_nil st, fun _ => ⟨x, rfl⟩⟩, ?_⟩
    rintro y ⟨⟩
    rw [hrecorded, List.append_nil]
    exact hx
  | cons op later ih =>
    obtain ⟨mid, mid', s⟩ := exists_split hinv hplain hrecorded
    obtain ⟨hpart, hnext⟩ := hx.step s
    have hrest : st.recorded = (done ++ [op]) ++ later := by simp [hrecorded]
    rw [ChangeState.collapseLoop, inOrderFrom_cons, ← hpart]
    simp only [applyOps_append, bind_eq_ok]
    constructor
    · constructor
      · rintro ⟨y, z, hz, hy⟩
        exact ⟨⟨z, hz⟩, (ih hrest (hnext z hz)).1.1 ⟨y, hy⟩⟩
      · rintro ⟨⟨z, hz⟩, horder⟩
        obtain ⟨y, hy⟩ := (ih hrest (hnext z hz)).1.2 horder
        exact ⟨y, z, hz, hy⟩
    · rintro y ⟨z, hz, hy⟩
      exact (ih hrest (hnext z hz)).2 y hy

theorem collapsed_start (hinv : st.Inv) : Collapsed st [] st.recorded st.base where
  wf := hinv.base_wf
  written := by
    intro top htop r _
    have hnone : ¬ DeletedIn [] top := by simp [DeletedIn]
    rw [if_neg (fun h => h.1 htop.1), if_neg hnone]
  unwritten := by
    intro r _
    have hnone : ¬ DeletedIn [] r := by simp [DeletedIn]
    rw [if_neg hnone]

theorem Collapsed.equivalent (hinv : st.Inv)
    (hplain : ∀ op ∈ st.recorded, Plain op) {y : Json} (hy : Collapsed st st.recorded [] y) :
    Equivalent y st.candidate := by
  intro r
  by_cases hr : Unwritten st.recorded r
  · rw [hy.unwritten r hr, view_unwritten hinv.base_wf hinv.recorded_wf hplain hinv.replay hr]
  simp only [Unwritten, not_forall, not_not] at hr
  obtain ⟨written, hwrote, hstart⟩ := hr
  obtain ⟨top, htop, htopmost⟩ := exists_topmost hwrote
  have hlater : ¬ WroteAt [] top := by simp [WroteAt]
  rw [hy.written top htopmost r (htop.trans hstart)]
  by_cases hsome : (view st.candidate top).isSome
  · rw [if_pos ⟨hlater, hsome⟩]
  have hnone : view st.candidate top = none := by simpa using hsome
  rw [if_neg (fun h => hsome h.2), if_pos (deletedIn_of_none hinv hplain htopmost hnone),
    view_eq_none_below hnone (htop.trans hstart)]

/-! ## Validity -/

theorem validateOp_write (hwrite : isWriteOp op = true) (h : validateOp op = .ok ()) :
    (opPath op).isEmpty = false ∧ validateSafePath (opPath op) = .ok () := by
  cases op with
  | replace value | delete path | splice path index remove items | move path permutation => cases hwrite
  | _ =>
    simp only [validateOp, opPath] at h ⊢
    split at h
    · cases h
    · rename_i hempty
      exact ⟨by simpa using hempty, h⟩

theorem validateOp_emitWrite (hempty : path.isEmpty = false)
    (hsafe : validateSafePath path = .ok ()) : ∀ op ∈ st.emitWrite path, validateOp op = .ok () := by
  obtain ⟨hset, -, happ, htruncate⟩ := ChangeState.validateOp_of_safe hempty hsafe
  intro op hop
  rcases emitWrite_cases st path with ⟨-, hemit⟩ | ⟨value, -, ⟨-, -, hemit⟩ | ⟨-, old, new, -, -, hemit⟩ | hemit⟩
  · rw [hemit] at hop
    cases hop
  · rw [hemit] at hop
    cases hop
  · rw [hemit] at hop
    rcases mem_emitStringChange hop with ⟨text, rfl⟩ | ⟨count, rfl⟩ | rfl
    · exact happ text
    · exact htruncate count
    · exact hset _
  · rw [hemit, List.mem_singleton] at hop
    subst hop
    exact hset value

theorem validateOp_collapseLoop
    (h : ∀ op ∈ ops, validateOp op = .ok ()) : ∀ op ∈ st.collapseLoop ops, validateOp op = .ok () := by
  induction ops with
  | nil =>
    intro op hop
    cases hop
  | cons first later ih =>
    intro op hop
    rcases List.mem_append.1 hop with hop | hop
    · unfold ChangeState.collapseStep at hop
      split at hop
      · rename_i hfirst
        rw [Bool.and_eq_true] at hfirst
        obtain ⟨hempty, hsafe⟩ := validateOp_write hfirst.1 (h first mem_cons_self)
        exact validateOp_emitWrite hempty hsafe op hop
      cases first with
      | delete path =>
        rw [ChangeState.emitDelete] at hop
        split at hop
        · rw [List.mem_singleton.1 hop]
          exact h _ mem_cons_self
        · cases hop
      | _ => cases hop
    · exact ih (fun o ho => h o (mem_cons_of_mem _ ho)) op hop

/-! ## Prepared changes -/

namespace ChangeState

/-- Preparing the change succeeds, its operations take the base to the prepared value, and the
prepared value is the candidate. -/
def Reproduces (st : ChangeState) : Prop := ∃ prepared settled, st.prepare = .ok (prepared, settled) ∧
    ∃ result, applyImmutable prepared.base prepared.ops = .ok result ∧
      Equivalent result prepared.value ∧ Equivalent prepared.value st.candidate

/-- The last writes of elements appended to an array of the base come in index order. -/
def AppendsInOrder (st : ChangeState) : Prop := InOrderFrom st st.recorded

theorem reproduces_iff (hopen : st.settled = false) :
    st.Reproduces ↔ ∃ result, applyImmutable st.base st.preparedOps = .ok result ∧
      Equivalent result (if st.preparedOps.isEmpty then st.base else st.candidate) ∧
      Equivalent (if st.preparedOps.isEmpty then st.base else st.candidate) st.candidate := by
  constructor
  · rintro ⟨prepared, settled, hprepare, hres⟩
    simp only [prepare, hopen, Bool.false_eq_true, if_false, Except.ok.injEq, Prod.mk.injEq] at hprepare
    obtain ⟨rfl, -⟩ := hprepare
    exact hres
  · intro hres
    exact ⟨_, _, by simp only [prepare, hopen, Bool.false_eq_true, if_false]; rfl, hres⟩

theorem applyImmutable_eq_ok {target result : Json} :
    applyImmutable target ops = .ok result ↔ validateBatch ops = .ok () ∧ applyOps target ops = .ok result := by
  simp only [applyImmutable, bind_eq_ok]
  exact ⟨fun ⟨_, hvalid, happly⟩ => ⟨hvalid, happly⟩, fun ⟨hvalid, happly⟩ => ⟨(), hvalid, happly⟩⟩

theorem reproduces_of_apply (hopen : st.settled = false)
    (hvalid : validateBatch st.preparedOps = .ok ()) (result : Json)
    (happly : applyOps st.base st.preparedOps = .ok result)
    (hequivalent : Equivalent result st.candidate) : st.Reproduces := by
  rw [reproduces_iff hopen]
  refine ⟨result, applyImmutable_eq_ok.2 ⟨hvalid, happly⟩, ?_⟩
  cases hops : st.preparedOps with
  | nil =>
    rw [hops] at happly
    cases happly
    exact ⟨fun _ => rfl, hequivalent⟩
  | cons op ops => exact ⟨hequivalent, fun _ => rfl⟩

theorem reproduces_of_replace (hopen : st.settled = false)
    (hops : st.preparedOps = [.replace st.candidate]) : st.Reproduces := by
  refine reproduces_of_apply hopen ?_ st.candidate ?_ fun _ => rfl
  · rw [hops]
    rfl
  · rw [hops]
    rfl

theorem capOps_of_le (h : ¬ maxDeltaOperations < ops.length) :
    st.capOps ops = ops := if_neg h

theorem capOps_of_lt (h : maxDeltaOperations < ops.length) :
    st.capOps ops = [.replace st.candidate] := if_pos h

theorem reproduces_of_structural (hinv : st.Inv) (hopen : st.settled = false)
    (hstruct : st.structural = true) : st.Reproduces := by
  by_cases hlimit : maxDeltaOperations < st.recorded.length
  · refine reproduces_of_replace hopen ?_
    rw [preparedOps, if_pos hstruct, recordedOps, capOps_of_lt hlimit]
    exact capOps_of_le (by simp [maxDeltaOperations])
  have hops : st.preparedOps = st.recorded := by
    rw [preparedOps, if_pos hstruct, recordedOps, capOps_of_le hlimit, capOps_of_le hlimit]
  refine reproduces_of_apply hopen ?_ st.candidate ?_ fun _ => rfl
  · rw [hops]
    exact hinv.valid
  · rw [hops]
    exact hinv.replay

/-- A change without a splice or a move, within the limit, is faithful exactly when its appends are
in order. -/
theorem reproduces_collapsed_iff (hinv : st.Inv) (hopen : st.settled = false)
    (hstruct : st.structural = false) (hlimit : ¬ maxDeltaOperations < st.collapseOps.length) :
    st.Reproduces ↔ st.AppendsInOrder := by
  have hplain := hinv.plain hstruct
  have hops : st.preparedOps = st.collapseOps := by
    rw [preparedOps, hstruct, if_neg (by simp), capOps_of_le hlimit]
  obtain ⟨hiff, hend⟩ := Collapsed.run hinv hplain st.recorded rfl (collapsed_start hinv)
  constructor
  · intro hreproduces
    obtain ⟨result, hres, -⟩ := (reproduces_iff hopen).1 hreproduces
    rw [hops] at hres
    exact hiff.1 ⟨result, (applyImmutable_eq_ok.1 hres).2⟩
  intro horder
  obtain ⟨result, hres⟩ := hiff.2 horder
  refine reproduces_of_apply hopen ?_ result ?_ ((hend result hres).equivalent hinv hplain)
  · rw [hops]
    exact (validateBatch_eq_ok_iff _).2 (validateOp_collapseLoop ((validateBatch_eq_ok_iff _).1 hinv.valid))
  · rw [hops]
    exact hres

theorem run_settled (st : ChangeState) (ops : List DraftOp) : (st.run ops).settled = st.settled := by
  induction ops generalizing st with
  | nil => rfl
  | cons op ops ih =>
    have hstep : (st.perform op).settled = st.settled := by
      unfold perform
      split
      · rename_i updated hok
        exact (draft_frame hok).2.2.1
      · rfl
    exact (ih (st.perform op)).trans hstep

/-- **When prepared operations reproduce the draft.** For every base and every sequence of draft
operations, the prepared operations take the base to the candidate exactly when a splice or a move
took effect, or the batch is over the limit and replaced by the candidate, or the appends are in
order. -/
theorem prepare_reproduces_iff (base : Value) (ops : List DraftOp) : ((beginChange base).run ops).Reproduces ↔
      ((beginChange base).run ops).structural = true ∨
        maxDeltaOperations < ((beginChange base).run ops).collapseOps.length ∨
        ((beginChange base).run ops).AppendsInOrder := by
  have hinv := inv_run (inv_beginChange base) ops
  have hopen : ((beginChange base).run ops).settled = false := run_settled (beginChange base) ops
  generalize (beginChange base).run ops = st at hinv hopen
  cases hstructural : st.structural with
  | true => simp [reproduces_of_structural hinv hopen hstructural]
  | false =>
    by_cases hlimit : maxDeltaOperations < st.collapseOps.length
    · have hops : st.preparedOps = [.replace st.candidate] := by
        rw [preparedOps, hstructural, if_neg (by simp), capOps_of_lt hlimit]
      simp [hlimit, reproduces_of_replace hopen hops]
    · simp [hlimit, reproduces_collapsed_iff hinv hopen hstructural hlimit]

/-- Two elements appended to an empty array, then the first written again. -/
def rewriteFirst : List DraftOp := [.set [.index 0] ⟨.null, Json.wf_null⟩, .set [.index 1] ⟨.null, Json.wf_null⟩,
    .set [.index 0] ⟨.bool true, Json.wf_bool true⟩]

def emptyArray : Value := ⟨.array [], by simp⟩

/-- The prepared operations of that draft do not apply: they set the second element first. -/
theorem rewriteFirst_not_reproduced : ¬ ((beginChange emptyArray).run rewriteFirst).Reproduces := by
  rw [reproduces_iff (run_settled _ _)]
  rintro ⟨result, hresult, -⟩
  have hnone : (applyImmutable ((beginChange emptyArray).run rewriteFirst).base
      ((beginChange emptyArray).run rewriteFirst).preparedOps).toOption = none := by decide +kernel
  rw [hresult] at hnone
  cases hnone

end ChangeState

end CodingHarness.Chord
