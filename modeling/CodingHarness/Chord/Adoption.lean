import CodingHarness.Chord.Tracker

/-!
# Adoption of prepared changes

One tracker of `Tracker.cpp` with every change and every preparation made from it. Handles are
positions in the lists of changes and preparations; a position without an entry is a moved-from
handle, whose null state the source reports as settled or as not ready. Owner and revision tokens are
compared by identity in the source, and appear as numbers: a new revision token is one that no
earlier change or preparation holds. A preparation of another tracker may be handed in at any time
(`foreign`).

An adoption advances the tracker to a fresh revision token and settles every change that is still
open, so what was based on an older token can never come back. `Sound` is the invariant of every run
and `Later` says what a run cannot undo; together they give `adoption_loses_no_update`.
-/

namespace CodingHarness.Chord

open Library Support

/-! ## States -/

/-- `detail::TrackerState`. -/
structure TrackerState where
  owner : Nat
  revisionToken : Nat
  value : Json
  revision : UInt64
  changes : List Nat

/-- `detail::PreparedStatus`. -/
inductive PreparedStatus where
  | prepared
  | consumed
  | aborted
  | stale
  deriving DecidableEq

/-- `detail::PreparedState`. -/
structure PreparedState where
  owner : Nat
  baseToken : Nat
  baseRevision : UInt64
  base : Json
  value : Json
  ops : OpBatch
  status : PreparedStatus

/-- `detail::ChangeState` with what ties it to its tracker and to its preparation. -/
structure TrackedChange where
  owner : Nat
  baseToken : Nat
  baseRevision : UInt64
  state : ChangeState
  prepared : Option Nat

/-- A tracker with the changes and preparations made from it. -/
structure Tracking where
  tracker : TrackerState
  changes : List TrackedChange
  prepared : List PreparedState

/-- One call on the tracker, on a change, on its draft or on a preparation. -/
inductive TrackerCall where
  | beginChange
  | get (change : Nat) (path : Path)
  | draft (change : Nat) (op : DraftOp)
  | prepare (change : Nat)
  | prepareReplace (value : Value)
  | abortChange (change : Nat)
  | abortPrepared (prepared : Nat)
  | adopt (prepared : Nat)
  | foreign (other : Nat) (cell : PreparedState)

/-! ## Calls -/

/-- `Draft::get`. -/
def ChangeState.get (st : ChangeState) (path : Path) : Expected (Option Json) := do
  st.checkOpen
  validateSafePath path
  match path.getLast? with
  | none => return some st.candidate
  | some segment =>
    let receiver ← present (tryGetPath st.candidate path.dropLast) "unresolvable path"
    match segment, receiver with
    | .key key, .object members => return JsonObject.find key members
    | .index index, .array items => return items[index]?
    | _, _ => invalid "unresolvable path"

namespace PreparedState

/-- A preparation that is withdrawn unless it is settled already. -/
def abort (cell : PreparedState) : PreparedState :=
  if cell.status = .prepared then { cell with status := .aborted } else cell

end PreparedState

/-- A change of an older revision: an open one is settled as stale. -/
def TrackedChange.expire (change : TrackedChange) : TrackedChange := if change.state.settled then change
  else { change with state := { change.state with settled := true, stale := true } }

/-- The loop of `adopt` over the changes of the revision. -/
def markStale (changes : List TrackedChange) : List Nat → List TrackedChange
  | [] => changes
  | id :: rest =>
    match changes[id]? with
    | none => markStale changes rest
    | some change => markStale (changes.set id change.expire) rest

namespace Tracking

def track (initial : Value) : Tracking := ⟨⟨0, 0, initial.1, 0, []⟩, [], []⟩

variable (w : Tracking)

/-- `Tracker::begin_change`. -/
def beginChange : Tracking := { w with
    tracker := { w.tracker with changes := w.tracker.changes ++ [w.changes.length] }
    changes := w.changes ++ [⟨w.tracker.owner, w.tracker.revisionToken, w.tracker.revision,
      { base := w.tracker.value, candidate := w.tracker.value }, none⟩] }

/-- `Draft::get` through a change. -/
def get (change : Nat) (path : Path) : Expected (Option Json) := match w.changes[change]? with
  | none => invalid "Cannot use a settled overlay"
  | some tracked => tracked.state.get path

def draft (change : Nat) (op : DraftOp) : Expected Tracking := match w.changes[change]? with
  | none => invalid "Cannot use a settled overlay"
  | some tracked => do
      let state ← tracked.state.draft op
      return { w with changes := w.changes.set change { tracked with state := state } }

/-- `Change::prepare`. -/
def prepare (change : Nat) : Expected Tracking := match w.changes[change]? with
  | none => invalid "Change has already been settled"
  | some tracked => do
      let (result, state) ← tracked.state.prepare
      return { w with
        changes := w.changes.set change
          { tracked with state := state, prepared := some w.prepared.length }
        prepared := w.prepared ++ [⟨tracked.owner, tracked.baseToken, tracked.baseRevision,
          result.base, result.value, result.ops, .prepared⟩] }

/-- `Tracker::prepare_replace`. -/
def prepareReplace (value : Json) : Tracking := let equal := w.tracker.value.beq value
  { w with
    prepared := w.prepared ++ [⟨w.tracker.owner, w.tracker.revisionToken, w.tracker.revision,
      w.tracker.value, if equal then w.tracker.value else value,
      if equal then [] else [.replace value], .prepared⟩] }

/-- `Prepared::abort`. -/
def abortPrepared (prepared : Nat) : Tracking := match w.prepared[prepared]? with
  | none => w
  | some cell => { w with prepared := w.prepared.set prepared cell.abort }

/-- `Change::abort`. -/
def abortChange (change : Nat) : Tracking := match w.changes[change]? with
  | none => w
  | some tracked =>
    if !tracked.state.settled then
      { w with
        changes := w.changes.set change
          { tracked with state := { tracked.state with settled := true } } }
    else
      match tracked.prepared with
      | none => w
      | some prepared => w.abortPrepared prepared

/-- Why a preparation is refused before its revision is looked at. -/
def adoptProblem (cell : PreparedState) : Option String :=
  if cell.owner ≠ w.tracker.owner then some "Prepared change belongs to a different tracker"
  else
    match cell.status with
    | .consumed => some "Prepared change has already been used"
    | .aborted => some "Prepared change has been aborted"
    | .stale => some "Prepared change is stale"
    | .prepared => none

/-- `Tracker::adopt`. A preparation of an older revision is marked stale and refused. -/
def adopt (prepared : Nat) : Tracking × Expected Unit := match w.prepared[prepared]? with
  | none => (w, invalid "Prepared change is not ready")
  | some cell =>
    match w.adoptProblem cell with
    | some problem => (w, invalid problem)
    | none =>
      if cell.baseRevision ≠ w.tracker.revision ∨ cell.baseToken ≠ w.tracker.revisionToken then
        ({ w with prepared := w.prepared.set prepared { cell with status := .stale } },
          invalid "Prepared change is stale")
      else
        ({ tracker := { w.tracker with
              value := cell.value
              revisionToken := w.tracker.revisionToken + 1
              revision := w.tracker.revision + 1
              changes := [] }
           changes := markStale w.changes w.tracker.changes
           prepared := w.prepared.set prepared { cell with status := .consumed } }, .ok ())

/-- A call with its result; a rejected draft operation or preparation has no effect. -/
def step : TrackerCall → Tracking × Expected Unit
  | .beginChange => (w.beginChange, .ok ())
  | .get change path => (w, (w.get change path).map fun _ => ())
  | .draft change op =>
    match w.draft change op with
    | .ok next => (next, .ok ())
    | .error e => (w, .error e)
  | .prepare change =>
    match w.prepare change with
    | .ok next => (next, .ok ())
    | .error e => (w, .error e)
  | .prepareReplace value => (w.prepareReplace value.1, .ok ())
  | .abortChange change => (w.abortChange change, .ok ())
  | .abortPrepared prepared => (w.abortPrepared prepared, .ok ())
  | .adopt prepared => w.adopt prepared
  | .foreign other cell =>
    ({ w with prepared := w.prepared ++ [{ cell with owner := w.tracker.owner + 1 + other }] }, .ok ())

def run (calls : List TrackerCall) : Tracking := calls.foldl (fun w call => (w.step call).1) w

/-! ## What an adoption needs -/

variable {w}

variable {cell : PreparedState} {prepared : Nat}

theorem adopt_of_fresh (hcell : w.prepared[prepared]? = some cell) (howner : cell.owner = w.tracker.owner)
    (hstat : cell.status = .prepared) (hrev : cell.baseRevision = w.tracker.revision)
    (htoken : cell.baseToken = w.tracker.revisionToken) : w.adopt prepared =
      ({ tracker := { w.tracker with
            value := cell.value
            revisionToken := w.tracker.revisionToken + 1
            revision := w.tracker.revision + 1
            changes := [] }
         changes := markStale w.changes w.tracker.changes
         prepared := w.prepared.set prepared { cell with status := .consumed } }, .ok ()) := by
  simp [adopt, hcell, adoptProblem, howner, hstat, hrev, htoken]

/-- An adoption succeeds exactly for an unsettled preparation of this tracker and revision. -/
theorem adopt_eq_ok_iff : (w.adopt prepared).2 = .ok () ↔
      ∃ cell, w.prepared[prepared]? = some cell ∧ cell.owner = w.tracker.owner ∧
        cell.status = .prepared ∧ cell.baseRevision = w.tracker.revision ∧
        cell.baseToken = w.tracker.revisionToken := by
  constructor
  · intro h
    unfold adopt at h
    split at h
    · cases h
    rename_i cell hcell
    split at h
    · cases h
    rename_i hproblem
    split at h
    · cases h
    rename_i hfresh
    rw [not_or, not_not, not_not] at hfresh
    refine ⟨cell, hcell, ?_⟩
    unfold adoptProblem at hproblem
    split at hproblem
    · cases hproblem
    rename_i howner
    rw [not_not] at howner
    cases hstat : cell.status <;> rw [hstat] at hproblem <;> cases hproblem
    exact ⟨howner, rfl, hfresh⟩
  · rintro ⟨cell, hcell, howner, hstat, hrev, htoken⟩
    rw [adopt_of_fresh hcell howner hstat hrev htoken]

theorem adopt_of_refused (h : (w.adopt prepared).2 ≠ .ok ()) : (w.adopt prepared).1 = w ∨
      ∃ cell, w.prepared[prepared]? = some cell ∧ cell.status = .prepared ∧ (w.adopt prepared).1 =
          { w with prepared := w.prepared.set prepared { cell with status := .stale } } := by
  unfold adopt at h ⊢
  split
  · exact Or.inl rfl
  rename_i cell hcell
  split
  · exact Or.inl rfl
  rename_i hproblem
  split
  · refine Or.inr ⟨cell, hcell, ?_, rfl⟩
    unfold adoptProblem at hproblem
    split at hproblem
    · cases hproblem
    cases hstat : cell.status <;> rw [hstat] at hproblem <;> first
      | rfl
      | cases hproblem
  rename_i hfresh
  simp only [hcell, hproblem, if_neg hfresh] at h
  exact (h rfl).elim

/-! ## What a call can do -/

/-- The state right after the adoption of a preparation. -/
def adopted (w : Tracking) (prepared : Nat) (cell : PreparedState) : Tracking :=
  { tracker := { w.tracker with
        value := cell.value
        revisionToken := w.tracker.revisionToken + 1
        revision := w.tracker.revision + 1
        changes := [] }
    changes := markStale w.changes w.tracker.changes
    prepared := w.prepared.set prepared { cell with status := .consumed } }

/-- The moves a call can make. -/
inductive Moves (w : Tracking) : Tracking → Prop where
  | idle : Moves w w
  | opened : Moves w w.beginChange
  | edited {id : Nat} {change : TrackedChange} (state : ChangeState)
      (hchange : w.changes[id]? = some change) (hopen : change.state.settled = false)
      (hbase : state.base = change.state.base) :
      Moves w { w with changes := w.changes.set id { change with state := state } }
  | prepared {id : Nat} {change : TrackedChange} (state : ChangeState) (result : Prepared)
      (hchange : w.changes[id]? = some change) (hopen : change.state.settled = false)
      (hsettled : state.settled = true) (hbase : state.base = change.state.base)
      (hresult : result.base = change.state.base) :
      Moves w { w with
        changes := w.changes.set id
          { change with state := state, prepared := some w.prepared.length }
        prepared := w.prepared ++ [⟨change.owner, change.baseToken, change.baseRevision,
          result.base, result.value, result.ops, .prepared⟩] }
  | offered (cell : PreparedState)
      (hcell : cell.owner = w.tracker.owner → cell.baseToken = w.tracker.revisionToken ∧
        cell.baseRevision = w.tracker.revision ∧ cell.base = w.tracker.value) :
      Moves w { w with prepared := w.prepared ++ [cell] }
  | revoked {id : Nat} {cell : PreparedState} (status : PreparedStatus)
      (hcell : w.prepared[id]? = some cell) (hopen : cell.status = .prepared)
      (hstatus : status ≠ .prepared) :
      Moves w { w with prepared := w.prepared.set id { cell with status := status } }
  | adopted {id : Nat} {cell : PreparedState} (hcell : w.prepared[id]? = some cell)
      (howner : cell.owner = w.tracker.owner) (hopen : cell.status = .prepared)
      (hrevision : cell.baseRevision = w.tracker.revision)
      (htoken : cell.baseToken = w.tracker.revisionToken) : Moves w (w.adopted id cell)

theorem abortPrepared_moves (prepared : Nat) : Moves w (w.abortPrepared prepared) := by
  unfold abortPrepared
  split
  · exact .idle
  rename_i cell hcell
  unfold PreparedState.abort
  split
  · rename_i hopen
    exact .revoked .aborted hcell hopen (by decide)
  -- Writing a settled preparation back over itself changes nothing.
  have hsame : w.prepared.set prepared cell = w.prepared := by
    obtain ⟨hlt, hget⟩ := List.getElem?_eq_some_iff.1 hcell
    rw [← hget, List.set_getElem_self]
  rw [hsame]
  exact .idle

theorem abortChange_moves (change : Nat) : Moves w (w.abortChange change) := by
  unfold abortChange
  split
  · exact .idle
  rename_i tracked htracked
  split
  · rename_i hopen
    exact .edited _ htracked (by simpa using hopen) rfl
  split
  · exact .idle
  · exact abortPrepared_moves _

variable {next : Tracking}

theorem draft_moves {change : Nat} {op : DraftOp} (h : w.draft change op = .ok next) : Moves w next := by
  unfold draft at h
  split at h
  · cases h
  rename_i tracked htracked
  simp only [bind_eq_ok, pure_eq_ok] at h
  obtain ⟨state, hstate, rfl⟩ := h
  obtain ⟨hopen, hbase, -⟩ := ChangeState.draft_frame hstate
  exact .edited state htracked hopen hbase

theorem prepare_moves {change : Nat} (h : w.prepare change = .ok next) : Moves w next := by
  unfold prepare at h
  split at h
  · cases h
  rename_i tracked htracked
  simp only [bind_eq_ok, pure_eq_ok] at h
  obtain ⟨⟨result, state⟩, hprepare, rfl⟩ := h
  unfold ChangeState.prepare at hprepare
  split at hprepare
  · split at hprepare <;> cases hprepare
  rename_i hopen
  cases hprepare
  exact .prepared _ _ htracked (by simpa using hopen) rfl rfl rfl

theorem step_moves (call : TrackerCall) : Moves w (w.step call).1 := by
  cases call with
  | beginChange => exact .opened
  | get change path => exact .idle
  | draft change op =>
    simp only [step]
    split
    · rename_i next hnext
      exact draft_moves hnext
    · exact .idle
  | prepare change =>
    simp only [step]
    split
    · rename_i next hnext
      exact prepare_moves hnext
    · exact .idle
  | prepareReplace value => exact .offered _ fun _ => ⟨rfl, rfl, rfl⟩
  | abortChange change => exact abortChange_moves change
  | abortPrepared prepared => exact abortPrepared_moves prepared
  | adopt prepared =>
    by_cases hok : (w.adopt prepared).2 = .ok ()
    · obtain ⟨cell, hcell, howner, hstat, hrev, htoken⟩ := adopt_eq_ok_iff.1 hok
      simp only [step]
      rw [adopt_of_fresh hcell howner hstat hrev htoken]
      exact .adopted hcell howner hstat hrev htoken
    rcases adopt_of_refused hok with hsame | ⟨cell, hcell, hstat, hmarked⟩
    · simp only [step]
      rw [hsame]
      exact .idle
    simp only [step]
    rw [hmarked]
    exact .revoked .stale hcell hstat (by decide)
  | foreign other cell =>
    refine .offered _ fun howner => ?_
    simp only at howner
    omega

/-! ## The invariant -/

theorem expire_frame (change : TrackedChange) :
    change.expire.owner = change.owner ∧ change.expire.baseToken = change.baseToken ∧
      change.expire.baseRevision = change.baseRevision ∧
      change.expire.state.base = change.state.base ∧ change.expire.prepared = change.prepared ∧
      change.expire.state.settled = true := by
  unfold TrackedChange.expire
  split
  · rename_i hsettled
    exact ⟨rfl, rfl, rfl, rfl, rfl, hsettled⟩
  · exact ⟨rfl, rfl, rfl, rfl, rfl, rfl⟩

theorem expire_expire (change : TrackedChange) : change.expire.expire = change.expire := by
  rw [TrackedChange.expire, if_pos (expire_frame change).2.2.2.2.2]

theorem markStale_getElem? (ids : List Nat) (changes : List TrackedChange) (id : Nat) :
    (markStale changes ids)[id]? = changes[id]?.map fun change => if id ∈ ids then change.expire else change := by
  induction ids generalizing changes with
  | nil => cases h : changes[id]? <;> simp [markStale, h]
  | cons first rest ih =>
    unfold markStale
    split
    · rename_i hnone
      rw [ih]
      cases hid : changes[id]? with
      | none => rfl
      | some change =>
        have hne : id ≠ first := by
          rintro rfl
          rw [hid] at hnone
          cases hnone
        simp [hne]
    rename_i change hchange
    rw [ih, List.getElem?_set]
    by_cases heq : first = id
    · subst heq
      rw [if_pos rfl, if_pos (List.getElem?_eq_some_iff.1 hchange).1, hchange]
      simp [expire_expire]
    rw [if_neg heq]
    cases hid : changes[id]? with
    | none => rfl
    | some other => simp [Ne.symm heq]

/-- What a change or a preparation records of its revision agrees with the tracker while the token
is current. -/
structure Based (tracker : TrackerState) (token : Nat) (revision : UInt64) (base : Json) : Prop where
  le : token ≤ tracker.revisionToken
  revision_eq : token = tracker.revisionToken → revision = tracker.revision
  base_eq : token = tracker.revisionToken → base = tracker.value

/-- The invariant of a tracker: every change and every preparation of its own is based on a token it
has had, an open change is listed with the tracker, and a preparation has the token of its change. -/
structure Sound (w : Tracking) : Prop where
  cells : ∀ (id : Nat) (cell : PreparedState), w.prepared[id]? = some cell →
    cell.owner = w.tracker.owner → Based w.tracker cell.baseToken cell.baseRevision cell.base
  changes : ∀ (id : Nat) (change : TrackedChange), w.changes[id]? = some change → change.owner = w.tracker.owner ∧
      Based w.tracker change.baseToken change.baseRevision change.state.base
  listed : ∀ (id : Nat) (change : TrackedChange), w.changes[id]? = some change →
    change.state.settled = false → id ∈ w.tracker.changes
  linked : ∀ (id : Nat) (change : TrackedChange) (cellId : Nat), w.changes[id]? = some change →
    change.prepared = some cellId → ∃ cell, w.prepared[cellId]? = some cell ∧
      cell.owner = w.tracker.owner ∧ cell.baseToken = change.baseToken

theorem sound_track (initial : Value) : Sound (track initial) where
  cells id cell h := by cases h
  changes id change h := by cases h
  listed id change h := by cases h
  linked id change cellId h := by cases h

theorem getElem?_concat_of_some {α : Type} {l : List α} {x y : α} {i : Nat} (h : l[i]? = some y) :
    (l ++ [x])[i]? = some y := by
  rw [List.getElem?_append_left (List.getElem?_eq_some_iff.1 h).1]
  exact h

theorem getElem?_set_cases {α : Type} {l : List α} {x y : α} {i j : Nat}
    (h : (l.set i x)[j]? = some y) : (j = i ∧ y = x) ∨ l[j]? = some y := by
  rw [List.getElem?_set] at h
  split at h
  · rename_i heq
    split at h
    · cases h
      exact Or.inl ⟨heq.symm, rfl⟩
    · cases h
  · exact Or.inr h

theorem getElem?_set_of_some {α : Type} {l : List α} {x y : α} {i j : Nat} (h : l[j]? = some y) :
    (l.set i x)[j]? = some (if i = j then x else y) := by
  rw [List.getElem?_set]
  split
  · rename_i heq
    subst heq
    rw [if_pos (List.getElem?_eq_some_iff.1 h).1]
  · exact h

theorem Based.listing {tracker : TrackerState} {token : Nat} {revision : UInt64} {base : Json}
    (h : Based tracker token revision base) (changes : List Nat) :
    Based { tracker with changes := changes } token revision base :=
  ⟨h.le, h.revision_eq, h.base_eq⟩

theorem Based.advance {tracker tracker' : TrackerState} {token : Nat} {revision : UInt64}
    {base : Json} (h : Based tracker token revision base)
    (hnext : tracker'.revisionToken = tracker.revisionToken + 1) : Based tracker' token revision base := by
  have hlt : token ≠ tracker'.revisionToken := by
    have := h.le
    omega
  have hle : token ≤ tracker'.revisionToken := by
    have := h.le
    omega
  exact ⟨hle, fun heq => (hlt heq).elim, fun heq => (hlt heq).elim⟩

variable {id : Nat}

theorem Sound.setStatus (h : Sound w) (hcell : w.prepared[id]? = some cell) (status : PreparedStatus) :
    Sound { w with prepared := w.prepared.set id { cell with status := status } } where
  cells other found hfound howner := by
    rcases getElem?_set_cases hfound with ⟨rfl, rfl⟩ | hfound
    · exact h.cells other cell hcell howner
    · exact h.cells other found hfound howner
  changes := h.changes
  listed := h.listed
  linked other change cellId hchange hprep := by
    obtain ⟨found, hfound, howner, htoken⟩ := h.linked other change cellId hchange hprep
    refine ⟨_, getElem?_set_of_some hfound, ?_⟩
    split
    · rename_i heq
      subst heq
      rw [hcell] at hfound
      cases hfound
      exact ⟨howner, htoken⟩
    · exact ⟨howner, htoken⟩

/-- **Every move keeps the invariant.** -/
theorem Sound.moves (h : Sound w) (hmove : Moves w next) : Sound next := by
  cases hmove with
  | idle => exact h
  | opened =>
    refine ⟨?_, ?_, ?_, ?_⟩
    · intro id cell hcell howner
      exact (h.cells id cell hcell howner).listing _
    · intro id change hchange
      rcases getElem?_concat_cases hchange with hchange | ⟨-, rfl⟩
      · obtain ⟨howner, hbased⟩ := h.changes id change hchange
        exact ⟨howner, hbased.listing _⟩
      · exact ⟨rfl, le_rfl, fun _ => rfl, fun _ => rfl⟩
    · intro id change hchange hopen
      rcases getElem?_concat_cases hchange with hchange | ⟨rfl, -⟩
      · exact List.mem_append_left _ (h.listed id change hchange hopen)
      · exact List.mem_append_right _ (List.mem_singleton_self _)
    · intro id change cellId hchange hprep
      rcases getElem?_concat_cases hchange with hchange | ⟨-, rfl⟩
      · exact h.linked id change cellId hchange hprep
      · cases hprep
  | @edited id change state hchange hopen hbase =>
    refine ⟨h.cells, ?_, ?_, ?_⟩
    · intro other found hfound
      rcases getElem?_set_cases hfound with ⟨rfl, rfl⟩ | hfound
      · rw [hbase]
        exact h.changes other change hchange
      · exact h.changes other found hfound
    · intro other found hfound hstill
      rcases getElem?_set_cases hfound with ⟨rfl, rfl⟩ | hfound
      · exact h.listed other change hchange hopen
      · exact h.listed other found hfound hstill
    · intro other found cellId hfound hprep
      rcases getElem?_set_cases hfound with ⟨rfl, rfl⟩ | hfound
      · exact h.linked other change cellId hchange hprep
      · exact h.linked other found cellId hfound hprep
  | @prepared id change state result hchange hopen hsettled hbase hres =>
    obtain ⟨hchangeOwner, hchangeBased⟩ := h.changes id change hchange
    refine ⟨?_, ?_, ?_, ?_⟩
    · intro other found hfound howner
      rcases getElem?_concat_cases hfound with hfound | ⟨-, rfl⟩
      · exact h.cells other found hfound howner
      · rw [hres]
        exact hchangeBased
    · intro other found hfound
      rcases getElem?_set_cases hfound with ⟨rfl, rfl⟩ | hfound
      · rw [hbase]
        exact ⟨hchangeOwner, hchangeBased⟩
      · exact h.changes other found hfound
    · intro other found hfound hstill
      rcases getElem?_set_cases hfound with ⟨rfl, rfl⟩ | hfound
      · rw [hsettled] at hstill
        cases hstill
      · exact h.listed other found hfound hstill
    · intro other found cellId hfound hprep
      rcases getElem?_set_cases hfound with ⟨rfl, rfl⟩ | hfound
      · cases hprep
        exact ⟨_, List.getElem?_concat_length, hchangeOwner, rfl⟩
      · obtain ⟨cell, hcell, howner, htoken⟩ := h.linked other found cellId hfound hprep
        exact ⟨cell, getElem?_concat_of_some hcell, howner, htoken⟩
  | offered cell hcell =>
    refine ⟨?_, h.changes, h.listed, ?_⟩
    · intro id found hfound howner
      rcases getElem?_concat_cases hfound with hfound | ⟨-, rfl⟩
      · exact h.cells id found hfound howner
      · obtain ⟨htoken, hrev, hbase⟩ := hcell howner
        exact ⟨le_of_eq htoken, fun _ => hrev, fun _ => hbase⟩
    intro id change cellId hchange hprep
    obtain ⟨found, hfound, howner, htoken⟩ := h.linked id change cellId hchange hprep
    exact ⟨found, getElem?_concat_of_some hfound, howner, htoken⟩
  | revoked status hcell hopen hstat => exact h.setStatus hcell status
  | @adopted id cell hcell howner hopen hrev htoken =>
    have hset := h.setStatus hcell .consumed
    refine ⟨?_, ?_, ?_, ?_⟩
    · intro other found hfound hfoundOwner
      exact (hset.cells other found hfound hfoundOwner).advance rfl
    · intro other found hfound
      rw [adopted, markStale_getElem?, Option.map_eq_some_iff] at hfound
      obtain ⟨change, hchange, rfl⟩ := hfound
      obtain ⟨hchangeOwner, hbased⟩ := h.changes other change hchange
      obtain ⟨howner', htoken', hrev', hbase', -⟩ := expire_frame change
      split
      · rw [howner', htoken', hrev', hbase']
        exact ⟨hchangeOwner, hbased.advance rfl⟩
      · exact ⟨hchangeOwner, hbased.advance rfl⟩
    · -- Every open change was listed, so none is open after the loop.
      intro other found hfound hstill
      rw [adopted, markStale_getElem?, Option.map_eq_some_iff] at hfound
      obtain ⟨change, hchange, rfl⟩ := hfound
      split at hstill
      · rw [(expire_frame change).2.2.2.2.2] at hstill
        cases hstill
      · rename_i hunlisted
        exact (hunlisted (h.listed other change hchange hstill)).elim
    · intro other found cellId hfound hprep
      rw [adopted, markStale_getElem?, Option.map_eq_some_iff] at hfound
      obtain ⟨change, hchange, rfl⟩ := hfound
      obtain ⟨-, htoken', -, -, hprep', -⟩ := expire_frame change
      split at hprep
      · rename_i hlisted
        rw [if_pos hlisted, htoken']
        rw [hprep'] at hprep
        exact hset.linked other change cellId hchange hprep
      rename_i hunlisted
      rw [if_neg hunlisted]
      exact hset.linked other change cellId hchange hprep

/-! ## What a run cannot undo -/

/-- A later state of the same tracker: tokens only grow, settled preparations keep their status and
settled changes stay settled. -/
structure Later (w w' : Tracking) : Prop where
  owner : w'.tracker.owner = w.tracker.owner
  token : w.tracker.revisionToken ≤ w'.tracker.revisionToken
  cells : ∀ (id : Nat) (cell : PreparedState), w.prepared[id]? = some cell →
    ∃ cell', w'.prepared[id]? = some cell' ∧ cell'.owner = cell.owner ∧
      cell'.baseToken = cell.baseToken ∧ (cell.status ≠ .prepared → cell'.status = cell.status)
  changes : ∀ (id : Nat) (change : TrackedChange), w.changes[id]? = some change →
    ∃ change', w'.changes[id]? = some change' ∧ change'.baseToken = change.baseToken ∧
      (change.state.settled = true → change'.state.settled = true)

theorem Later.refl (w : Tracking) : Later w w where
  owner := rfl
  token := le_rfl
  cells _ cell hcell := ⟨cell, hcell, rfl, rfl, fun _ => rfl⟩
  changes _ change hchange := ⟨change, hchange, rfl, fun hsettled => hsettled⟩

theorem Later.trans {w₁ w₂ w₃ : Tracking} (h : Later w₁ w₂) (h' : Later w₂ w₃) : Later w₁ w₃ where
  owner := h'.owner.trans h.owner
  token := le_trans h.token h'.token
  cells id cell hcell := by
    obtain ⟨cell₂, hcell₂, howner₂, htoken₂, hstatus₂⟩ := h.cells id cell hcell
    obtain ⟨cell₃, hcell₃, howner₃, htoken₃, hstatus₃⟩ := h'.cells id cell₂ hcell₂
    refine ⟨cell₃, hcell₃, howner₃.trans howner₂, htoken₃.trans htoken₂, ?_⟩
    intro hne
    have hsame := hstatus₂ hne
    rw [← hsame] at hne
    exact (hstatus₃ hne).trans hsame
  changes id change hchange := by
    obtain ⟨change₂, hchange₂, htoken₂, hsettled₂⟩ := h.changes id change hchange
    obtain ⟨change₃, hchange₃, htoken₃, hsettled₃⟩ := h'.changes id change₂ hchange₂
    exact ⟨change₃, hchange₃, htoken₃.trans htoken₂, fun hs => hsettled₃ (hsettled₂ hs)⟩

theorem later_setStatus (hcell : w.prepared[id]? = some cell)
    (hopen : cell.status = .prepared) (status : PreparedStatus) (other : Nat)
    (found : PreparedState) (hfound : w.prepared[other]? = some found) :
    ∃ cell', (w.prepared.set id { cell with status := status })[other]? = some cell' ∧
      cell'.owner = found.owner ∧ cell'.baseToken = found.baseToken ∧
      (found.status ≠ .prepared → cell'.status = found.status) := by
  refine ⟨_, getElem?_set_of_some hfound, ?_⟩
  split
  · rename_i heq
    subst heq
    rw [hcell] at hfound
    cases hfound
    exact ⟨rfl, rfl, fun hne => (hne hopen).elim⟩
  · exact ⟨rfl, rfl, fun _ => rfl⟩

theorem later_of_moves (hmove : Moves w next) : Later w next := by
  have hcells := (Later.refl w).cells
  have hchanges := (Later.refl w).changes
  cases hmove with
  | idle => exact Later.refl w
  | opened =>
    refine ⟨rfl, le_rfl, hcells, ?_⟩
    intro id change hchange
    exact ⟨change, getElem?_concat_of_some hchange, rfl, fun hs => hs⟩
  | @edited id change state hchange hopen hbase =>
    refine ⟨rfl, le_rfl, hcells, ?_⟩
    intro other found hfound
    refine ⟨_, getElem?_set_of_some hfound, ?_⟩
    split
    · rename_i heq
      subst heq
      rw [hchange] at hfound
      cases hfound
      refine ⟨rfl, fun hs => ?_⟩
      rw [hopen] at hs
      cases hs
    · exact ⟨rfl, fun hs => hs⟩
  | @prepared id change state result hchange hopen hsettled hbase hres =>
    refine ⟨rfl, le_rfl, ?_, ?_⟩
    · intro other found hfound
      exact ⟨found, getElem?_concat_of_some hfound, rfl, rfl, fun _ => rfl⟩
    intro other found hfound
    refine ⟨_, getElem?_set_of_some hfound, ?_⟩
    split
    · rename_i heq
      subst heq
      rw [hchange] at hfound
      cases hfound
      exact ⟨rfl, fun _ => hsettled⟩
    · exact ⟨rfl, fun hs => hs⟩
  | offered cell hcell =>
    refine ⟨rfl, le_rfl, ?_, hchanges⟩
    intro other found hfound
    exact ⟨found, getElem?_concat_of_some hfound, rfl, rfl, fun _ => rfl⟩
  | revoked status hcell hopen hstat =>
    exact ⟨rfl, le_rfl, later_setStatus hcell hopen status, hchanges⟩
  | @adopted id cell hcell howner hopen hrev htoken =>
    refine ⟨rfl, Nat.le_succ _, later_setStatus hcell hopen .consumed, ?_⟩
    intro other change hchange
    obtain ⟨-, htoken', -, -, -, hsettled'⟩ := expire_frame change
    refine ⟨if other ∈ w.tracker.changes then change.expire else change, ?_, ?_⟩
    · rw [adopted, markStale_getElem?, hchange]
      rfl
    split
    · exact ⟨htoken', fun _ => hsettled'⟩
    · exact ⟨rfl, fun hs => hs⟩

theorem later_run (calls : List TrackerCall) : Later w (w.run calls) := by
  induction calls generalizing w with
  | nil => exact Later.refl w
  | cons call calls ih => exact (later_of_moves (step_moves call)).trans ih

/-- **Every run keeps the invariant.** -/
theorem Sound.run (h : Sound w) (calls : List TrackerCall) : Sound (w.run calls) := by
  induction calls generalizing w with
  | nil => exact h
  | cons call calls ih => exact ih (h.moves (step_moves call))

/-! ## Calls that are refused from then on -/

theorem refused_of_settled {change : TrackedChange} (hchange : w.changes[id]? = some change)
    (hsettled : change.state.settled = true) :
    (∀ op, (w.step (.draft id op)).2 ≠ .ok ()) ∧ (∀ path, (w.step (.get id path)).2 ≠ .ok ()) ∧
      (w.step (.prepare id)).2 ≠ .ok () := by
  refine ⟨?_, ?_, ?_⟩
  · intro op hok
    cases hdraft : change.state.draft op with
    | ok state =>
      have hopen := (ChangeState.draft_frame hdraft).1
      rw [hsettled] at hopen
      cases hopen
    | error e =>
      simp only [step, draft, hchange, hdraft] at hok
      cases hok
  · intro path hok
    simp only [step, get, hchange, ChangeState.get, ChangeState.checkOpen, hsettled, refuse] at hok
    cases hok
  · intro hok
    simp only [step, prepare, hchange, ChangeState.prepare, hsettled, if_true] at hok
    split at hok
    · rename_i next hnext
      split at hnext <;> cases hnext
    · cases hok

theorem adopt_refused_of_older (hcell : w.prepared[id]? = some cell)
    (hold : cell.baseToken ≠ w.tracker.revisionToken) : (w.step (.adopt id)).2 ≠ .ok () := by
  intro hok
  obtain ⟨found, hfound, -, -, -, htoken⟩ := adopt_eq_ok_iff.1 hok
  rw [hcell] at hfound
  cases hfound
  exact hold htoken

variable {u : Tracking}

theorem Later.adopt_refused (h : Later w u)
    (hcell : w.prepared[id]? = some cell) (hsettled : cell.status ≠ .prepared) : (u.step (.adopt id)).2 ≠ .ok () := by
  intro hok
  obtain ⟨cell', hcell', -, -, hstat⟩ := h.cells id cell hcell
  obtain ⟨found, hfound, -, hopen, -⟩ := adopt_eq_ok_iff.1 hok
  rw [hcell'] at hfound
  cases hfound
  exact hsettled ((hstat hsettled).symm.trans hopen)

theorem Later.adopt_refused_of_older (hsound : Sound w) (h : Later w u) (hcell : w.prepared[id]? = some cell)
    (hold : cell.baseToken ≠ w.tracker.revisionToken) : (u.step (.adopt id)).2 ≠ .ok () := by
  intro hok
  obtain ⟨cell', hcell', howner', htoken', -⟩ := h.cells id cell hcell
  obtain ⟨found, hfound, howner, -, -, htoken⟩ := adopt_eq_ok_iff.1 hok
  rw [hcell'] at hfound
  cases hfound
  have hle := (hsound.cells id cell hcell (by rw [← howner', howner, h.owner])).le
  have hgrows := h.token
  omega

/-- A change that can neither be drafted on, nor read, nor prepared, and whose preparation, if it has
one, is refused. -/
def Closed (w : Tracking) (id : Nat) : Prop :=
  (∀ op, (w.step (.draft id op)).2 ≠ .ok ()) ∧ (∀ path, (w.step (.get id path)).2 ≠ .ok ()) ∧
    (w.step (.prepare id)).2 ≠ .ok () ∧
    ∀ change cellId, w.changes[id]? = some change → change.prepared = some cellId →
      (w.step (.adopt cellId)).2 ≠ .ok ()

theorem closed_after_adoption (h : Sound w) (hlater : Later (w.adopted prepared cell) u) (hsound : Sound u)
    (hid : id < w.changes.length) : Closed u id := by
  obtain ⟨change, hchange⟩ : ∃ change, w.changes[id]? = some change := ⟨_, List.getElem?_eq_getElem hid⟩
  obtain ⟨-, htoken', -, -, -, hsettled'⟩ := expire_frame change
  have hafter : ∃ change', (w.adopted prepared cell).changes[id]? = some change' ∧
      change'.baseToken = change.baseToken ∧ change'.state.settled = true := by
    refine ⟨if id ∈ w.tracker.changes then change.expire else change, ?_, ?_⟩
    · rw [adopted, markStale_getElem?, hchange]
      rfl
    split
    · exact ⟨htoken', hsettled'⟩
    rename_i hunlisted
    refine ⟨rfl, ?_⟩
    cases hopen : change.state.settled with
    | true => rfl
    | false => exact (hunlisted (h.listed id change hchange hopen)).elim
  obtain ⟨change₁, hchange₁, htoken₁, hsettled₁⟩ := hafter
  obtain ⟨change₂, hchange₂, htoken₂, hsettled₂⟩ := hlater.changes id change₁ hchange₁
  obtain ⟨hdraft, hget, hprepare⟩ := refused_of_settled hchange₂ (hsettled₂ hsettled₁)
  refine ⟨hdraft, hget, hprepare, ?_⟩
  intro found cellId hfound hprep
  rw [hchange₂] at hfound
  cases hfound
  -- The preparation has the token of the change, which the adoption has left behind.
  obtain ⟨cell', hcell', -, hcellToken⟩ := hsound.linked id change₂ cellId hchange₂ hprep
  refine adopt_refused_of_older hcell' ?_
  have hle := (h.changes id change hchange).2.le
  have hgrows : w.tracker.revisionToken + 1 ≤ u.tracker.revisionToken := hlater.token
  omega

theorem tracker_unchanged {call : TrackerCall} (h : ∀ prepared, call = .adopt prepared → (w.step call).2 ≠ .ok ()) :
    (w.step call).1.tracker.revision = w.tracker.revision ∧ (w.step call).1.tracker.value = w.tracker.value := by
  cases call with
  | adopt prepared =>
    rcases adopt_of_refused (h prepared rfl) with hsame | ⟨cell, -, -, hmarked⟩
    · simp only [step]
      rw [hsame]
      exact ⟨rfl, rfl⟩
    simp only [step]
    rw [hmarked]
    exact ⟨rfl, rfl⟩
  | draft change op =>
    simp only [step]
    split
    · rename_i next hnext
      unfold draft at hnext
      split at hnext
      · cases hnext
      simp only [bind_eq_ok, pure_eq_ok] at hnext
      obtain ⟨state, -, rfl⟩ := hnext
      exact ⟨rfl, rfl⟩
    · exact ⟨rfl, rfl⟩
  | prepare change =>
    simp only [step]
    split
    · rename_i next hnext
      unfold prepare at hnext
      split at hnext
      · cases hnext
      simp only [bind_eq_ok, pure_eq_ok] at hnext
      obtain ⟨result, -, rfl⟩ := hnext
      exact ⟨rfl, rfl⟩
    · exact ⟨rfl, rfl⟩
  | abortChange change =>
    simp only [step, abortChange]
    split
    · exact ⟨rfl, rfl⟩
    split
    · exact ⟨rfl, rfl⟩
    split
    · exact ⟨rfl, rfl⟩
    · unfold abortPrepared
      split <;> exact ⟨rfl, rfl⟩
  | abortPrepared prepared =>
    simp only [step, abortPrepared]
    split <;> exact ⟨rfl, rfl⟩
  | _ => exact ⟨rfl, rfl⟩

/-- **Adoption loses no update.** In every run of one tracker, with any number of changes and
preparations: the revision and the value move only at a successful adoption; that one adopts an
unsettled preparation whose base is the value just before, advances the revision by one and takes the
preparation's value, and from then on the same preparation is refused and every change begun before is
closed; and a preparation that is settled, or based on an older revision, is never adopted. -/
theorem adoption_loses_no_update (initial : Value) (before : List TrackerCall) (call : TrackerCall) :
    ((∀ prepared, call = .adopt prepared → (((track initial).run before).step call).2 ≠ .ok ()) →
      (((track initial).run before).step call).1.tracker.revision = ((track initial).run before).tracker.revision ∧
        (((track initial).run before).step call).1.tracker.value = ((track initial).run before).tracker.value) ∧
    (∀ prepared, call = .adopt prepared → (((track initial).run before).step call).2 = .ok () →
      ∃ cell, ((track initial).run before).prepared[prepared]? = some cell ∧
        cell.status = .prepared ∧ cell.base = ((track initial).run before).tracker.value ∧
        (((track initial).run before).step call).1.tracker.revision
          = ((track initial).run before).tracker.revision + 1 ∧
        (((track initial).run before).step call).1.tracker.value = cell.value ∧
        ∀ later, (((((track initial).run before).step call).1.run later).step (.adopt prepared)).2 ≠ .ok () ∧
          ∀ id < ((track initial).run before).changes.length,
            Closed ((((track initial).run before).step call).1.run later) id) ∧
    ∀ prepared cell, ((track initial).run before).prepared[prepared]? = some cell → cell.status ≠ .prepared ∨
        cell.baseToken ≠ ((track initial).run before).tracker.revisionToken →
      ∀ later, ((((track initial).run before).run later).step (.adopt prepared)).2 ≠ .ok () := by
  have hsound : Sound ((track initial).run before) := (sound_track initial).run before
  generalize (track initial).run before = w at hsound
  refine ⟨tracker_unchanged, ?_, ?_⟩
  · rintro prepared rfl hok
    obtain ⟨cell, hcell, howner, hstatus, hrevision, htoken⟩ := adopt_eq_ok_iff.1 hok
    have hstep : (w.step (.adopt prepared)).1 = w.adopted prepared cell := by
      simp only [step]
      rw [adopt_of_fresh hcell howner hstatus hrevision htoken]
      rfl
    have hnext : Sound (w.adopted prepared cell) := hsound.moves (.adopted hcell howner hstatus hrevision htoken)
    rw [hstep]
    refine ⟨cell, hcell, hstatus, (hsound.cells prepared cell hcell howner).base_eq htoken, rfl, rfl, ?_⟩
    intro later
    refine ⟨?_, ?_⟩
    · have hconsumed : (w.adopted prepared cell).prepared[prepared]? = some { cell with status := .consumed } := by
        have hset := @getElem?_set_of_some _ _ { cell with status := .consumed } _ prepared _ hcell
        rw [if_pos rfl] at hset
        exact hset
      exact (later_run later).adopt_refused hconsumed (fun h => by cases h)
    · intro id hid
      exact closed_after_adoption hsound (later_run later) (hnext.run later) hid
  · intro prepared cell hcell hrefused later
    rcases hrefused with hsettled | hold
    · exact (later_run later).adopt_refused hcell hsettled
    · exact (later_run later).adopt_refused_of_older hsound hcell hold

def emptyObject : Value := ⟨.object [], Json.wf_empty⟩

/-- A draft and a replacement prepared from the same revision. -/
def rivalCalls : List TrackerCall := [.beginChange, .draft 0 (.set [.key "a"] ⟨.null, Json.wf_null⟩), .prepare 0,
    .prepareReplace ⟨.bool true, Json.wf_bool true⟩]

/-- The replacement is adopted and the rival draft's preparation is refused afterwards. -/
theorem rivalCalls_adoption : (((track emptyObject).run rivalCalls).step (.adopt 1)).2 = .ok () ∧
      Closed ((((track emptyObject).run rivalCalls).step (.adopt 1)).1.run []) 0 := by
  have hok : (((track emptyObject).run rivalCalls).step (.adopt 1)).2 = .ok () := by
    decide +kernel
  obtain ⟨-, hadopted, -⟩ := adoption_loses_no_update emptyObject rivalCalls (.adopt 1)
  obtain ⟨cell, -, -, -, -, -, hlater⟩ := hadopted 1 rfl hok
  exact ⟨hok, (hlater []).2 0 (by decide +kernel)⟩

end Tracking

end CodingHarness.Chord
