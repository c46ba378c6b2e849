import CodingHarness.Chord.StringChange

/-!
# Changes of a tracked value

A change of `Tracker.cpp`: a base, a candidate that draft operations edit, and the operations
recorded on the way. A rejected operation leaves the change as it was, so `perform` runs an operation
and `run` a sequence of them.

`prepare` publishes the recorded operations as they are once a splice or a move has taken effect, and
otherwise collapses them: the last write of every path survives unless a path above it was written as
well, and a deletion survives when the base had the member. Every change keeps `ChangeState.Inv`
(`inv_run`): its recorded operations replay its candidate from its base.
-/

namespace CodingHarness.Chord

open Library Support

/-! ## Draft operations -/

/-- A JSON value of the program: no object repeats a key. -/
abbrev Value := { v : Json // v.WF }

/-- The state of one change. -/
structure ChangeState where
  base : Json
  candidate : Json
  recorded : OpBatch := []
  structural : Bool := false
  settled : Bool := false
  stale : Bool := false

/-- `Tracker::begin_change` on a tracker that holds `value`. -/
def beginChange (value : Value) : ChangeState := { base := value.1, candidate := value.1 }

/-- One operation of a draft. -/
inductive DraftOp where
  | set (path : Path) (value : Value)
  | erase (path : Path)
  | appendString (path : Path) (text : Bytes)
  | truncateString (path : Path) (count : Nat)
  | splice (path : Path) (index remove : Nat) (items : List Value)
  | move (path : Path) (permutation : List Nat)

def isArray : Json → Bool
  | .array _ => true
  | _ => false

namespace ChangeState

variable (st : ChangeState)

def checkOpen : Expected Unit := refuse st.settled "Cannot use a settled overlay"

/-- A change with one more recorded operation. -/
def record (ops : OpBatch) (candidate : Json) : ChangeState :=
  { st with recorded := st.recorded ++ ops, candidate := candidate }

/-- `Draft::set`. -/
def set (path : Path) (value : Json) : Expected ChangeState := do
  st.checkOpen
  refuse path.isEmpty "path is empty"
  validateSafePath path
  if (tryGetPath st.candidate path).any (Json.beq · value) then return st
  else
    let updated ← setPath st.candidate path value
    return st.record [.set path value] updated

/-- `Draft::erase`. -/
def erase (path : Path) : Expected ChangeState := do
  st.checkOpen
  refuse path.isEmpty "path is empty"
  validateSafePath path
  refuse ((tryGetPath st.candidate path.dropLast).any isArray)
    "Overlay arrays cannot contain holes"
  let (updated, changed) ← erasePath st.candidate path
  if changed then return st.record [.delete path] updated else return st

def draftString (path : Path) : Expected Bytes := do
  match ← getPath st.candidate path with
  | .string text => .ok text
  | _ => invalid "unresolvable path"

/-- `Draft::append_string`. -/
def appendString (path : Path) (text : Bytes) : Expected ChangeState := do
  st.checkOpen
  refuse path.isEmpty "path is empty"
  validateSafePath path
  let current ← st.draftString path
  if text.isEmpty then return st
  else
    let updated ← setPath st.candidate path (.string (current ++ text))
    return st.record [.append path text] updated

/-- `Draft::truncate_string`. -/
def truncateString (path : Path) (count : Nat) : Expected ChangeState := do
  st.checkOpen
  refuse path.isEmpty "path is empty"
  validateSafePath path
  let _ ← st.draftString path
  if count = 0 then return st
  else
    let updated ← truncateStringPath st.candidate path count
    if Json.beq updated st.candidate then return st
    else return st.record [.truncate path count] updated

def draftArray (path : Path) : Expected (List Json) := do
  match ← getPath st.candidate path with
  | .array items => .ok items
  | _ => invalid "unresolvable path"

/-- `Draft::splice`: a removal and an insertion are recorded apart. -/
def splice (path : Path) (index remove : Nat) (items : List Json) : Expected ChangeState := do
  st.checkOpen
  validateSafePath path
  let array ← st.draftArray path
  let effectiveIndex := min index array.length
  let effectiveRemove := min remove (array.length - effectiveIndex)
  if effectiveRemove = 0 && items.isEmpty then return st
  else
    let updated ← splicePath st.candidate path effectiveIndex effectiveRemove items
    return { st.record
        ((if effectiveRemove = 0 then [] else [.splice path effectiveIndex effectiveRemove []]) ++
          (if items.isEmpty then [] else [.splice path effectiveIndex 0 items]))
        updated with
      structural := true }

/-- `Draft::move`. -/
def move (path : Path) (permutation : List Nat) : Expected ChangeState := do
  st.checkOpen
  validateSafePath path
  validatePermutation permutation
  let array ← st.draftArray path
  refuse (array.length != permutation.length) "unresolvable path"
  if pathIsIdentityPermutation permutation then return st
  else
    let updated ← movePath st.candidate path permutation
    return { st.record [.move path permutation] updated with structural := true }

def draft : DraftOp → Expected ChangeState
  | .set path value => st.set path value.1
  | .erase path => st.erase path
  | .appendString path text => st.appendString path text
  | .truncateString path count => st.truncateString path count
  | .splice path index remove items => st.splice path index remove (items.map Subtype.val)
  | .move path permutation => st.move path permutation

/-- A draft operation that has no effect when it is rejected. -/
def perform (op : DraftOp) : ChangeState := match st.draft op with
  | .ok updated => updated
  | .error _ => st

def run (ops : List DraftOp) : ChangeState := ops.foldl perform st

end ChangeState

/-! ## Preparing -/

/-- `kMaxDeltaOperations`. -/
def maxDeltaOperations : Nat := 4096

def isWriteOp : Op → Bool
  | .set .. | .append .. | .truncate .. => true
  | _ => false

def opPath : Op → Path
  | .replace _ => []
  | .set path _ | .delete path | .append path _ | .truncate path _ | .splice path _ _ _
  | .move path _ => path

def hasSamePath (left right : Path) : Bool := pathIsPrefix left right && pathIsPrefix right left

theorem pathIsPrefix_iff {p q : Path} : pathIsPrefix p q = true ↔ p <+: q := by
  rw [pathIsPrefix, List.isPrefixOf_iff_prefix]

theorem hasSamePath_iff {p q : Path} : hasSamePath p q = true ↔ p = q := by
  rw [hasSamePath, Bool.and_eq_true, pathIsPrefix_iff, pathIsPrefix_iff]
  constructor
  · rintro ⟨hpq, hqp⟩
    exact hpq.eq_of_length_le hqp.length_le
  · rintro rfl
    exact ⟨List.prefix_rfl, List.prefix_rfl⟩

def isStrictPrefix ( pre path : Path) : Bool := pathIsPrefix pre path && decide (pre.length < path.length)

namespace ChangeState

variable (st : ChangeState)

def emitWrite (path : Path) : OpBatch := match tryGetPath st.candidate path with
  | none => []
  | some candidate =>
    let base := tryGetPath st.base path
    let forceSet := st.recorded.any fun
      | .delete deleted => hasSamePath deleted path
      | _ => false
    if !forceSet && base.any (Json.beq · candidate) then []
    else
      match forceSet, base, candidate with
      | false, some (.string before), .string after => emitStringChange before after path
      | _, _, _ => [.set path candidate]

theorem any_delete_iff (recorded : List Op) (path : Path) : (recorded.any fun
      | .delete deleted => hasSamePath deleted path
      | _ => false) = true ↔ .delete path ∈ recorded := by
  rw [List.any_eq_true]
  constructor
  · rintro ⟨op, hop, hsame⟩
    cases op with
    | delete deleted =>
      rw [hasSamePath_iff] at hsame
      exact hsame ▸ hop
    | _ => cases hsame
  · intro hmem
    exact ⟨_, hmem, hasSamePath_iff.2 rfl⟩

/-- Whether a recorded write survives: no later write of its path, and no write above it. -/
def writeSurvives (later : OpBatch) (path : Path) : Bool :=
  !(later.any fun op => isWriteOp op && hasSamePath path (opPath op)) &&
    !(st.recorded.any fun op => isWriteOp op && isStrictPrefix (opPath op) path)

/-- The paths of the surviving writes of a final part of the recorded operations. -/
def survivingPaths : OpBatch → List Path
  | [] => []
  | op :: later =>
    if isWriteOp op && st.writeSurvives later (opPath op) then opPath op :: survivingPaths later
    else survivingPaths later

/-- Whether a recorded deletion is kept: no surviving write above it, and a member of the base. -/
def deleteKept (path : Path) : Bool :=
  !((st.survivingPaths st.recorded).any fun written => isStrictPrefix written path) &&
    (tryGetPath st.base path).isSome

/-- What a recorded operation that is no surviving write contributes to the collapsed batch. -/
def emitDelete : Op → OpBatch
  | .delete path => if st.deleteKept path then [.delete path] else []
  | _ => []

/-- What one recorded operation contributes to the collapsed batch. -/
def collapseStep (op : Op) (later : OpBatch) : OpBatch :=
  if isWriteOp op && st.writeSurvives later (opPath op) then st.emitWrite (opPath op)
  else st.emitDelete op

/-- What a final part of the recorded operations contributes to the collapsed batch. -/
def collapseLoop : OpBatch → OpBatch
  | [] => []
  | op :: later => st.collapseStep op later ++ collapseLoop later

def collapseOps : OpBatch := st.collapseLoop st.recorded

/-- A batch over the limit is replaced by the whole candidate. -/
def capOps (ops : OpBatch) : OpBatch := if ops.length > maxDeltaOperations then [.replace st.candidate] else ops

def recordedOps : OpBatch := st.capOps st.recorded

/-- The operations `Change::prepare` publishes. -/
def preparedOps : OpBatch := st.capOps (if st.structural then st.recordedOps else st.collapseOps)

end ChangeState

/-- A prepared change. -/
structure Prepared where
  base : Json
  value : Json
  ops : OpBatch

/-- `Change::prepare`: the change is settled. -/
def ChangeState.prepare (st : ChangeState) : Expected (Prepared × ChangeState) := if st.settled then
    if st.stale then invalid "Cannot use a settled overlay"
    else invalid "Change has already been settled"
  else
    let ops := st.preparedOps
    .ok (⟨st.base, if ops.isEmpty then st.base else st.candidate, ops⟩, { st with settled := true })

/-! ## What every change keeps -/

/-- An operation whose values repeat no key. -/
def OpWF : Op → Prop
  | .replace value => value.WF
  | .set _ value => value.WF
  | .splice _ _ _ items => ∀ item ∈ items, item.WF
  | _ => True

/-- The operations of a change without a splice or a move: writes, and deletions of object
members. -/
def Plain : Op → Prop
  | .set .. | .append .. | .truncate .. => True
  | .delete path => ∃ parent key, path = parent ++ [.key key]
  | _ => False

/-- The invariant of a change. -/
structure ChangeState.Inv (st : ChangeState) : Prop where
  base_wf : st.base.WF
  recorded_wf : ∀ op ∈ st.recorded, OpWF op
  valid : validateBatch st.recorded = .ok ()
  replay : applyOps st.base st.recorded = .ok st.candidate
  plain : st.structural = false → ∀ op ∈ st.recorded, Plain op

theorem applyOps_append (v : Json) (xs ys : OpBatch) :
    applyOps v (xs ++ ys) = applyOps v xs >>= fun w => applyOps w ys := by
  induction xs generalizing v with
  | nil => rfl
  | cons op xs ih =>
    simp only [List.cons_append, applyOps]
    cases applyOp v op with
    | error e => rfl
    | ok w => exact ih w

theorem validateBatch_eq_ok_iff (ops : OpBatch) :
    validateBatch ops = .ok () ↔ ∀ op ∈ ops, validateOp op = .ok () := by
  induction ops with
  | nil => simp [validateBatch]
  | cons op ops ih =>
    rw [validateBatch, bind_eq_ok, List.forall_mem_cons, ← ih]
    constructor
    · rintro ⟨_, hop, hops⟩
      exact ⟨hop, hops⟩
    · rintro ⟨hop, hops⟩
      exact ⟨(), hop, hops⟩

variable {path : Path} {value root updated : Json}

theorem wf_setPath (hvalue : value.WF) (hroot : root.WF) (h : setPath root path value = .ok updated) :
    updated.WF := wf_setPathFrom hvalue hroot h

theorem getArray_eq_ok {items : List Json} :
    getArray root path = .ok items ↔ tryGetPath root path = some (.array items) := by
  unfold getArray getPath
  cases hvalue : tryGetPath root path with
  | none => simp
  | some value => cases value <;> simp

theorem permuted_mem {items updated : List Json} {permutation : List Nat}
    (h : permuted items permutation = .ok updated) : ∀ v ∈ updated, v ∈ items := by
  induction permutation generalizing updated with
  | nil =>
    cases h
    simp
  | cons index rest ih =>
    cases hget : items[index]? with
    | none => simp [permuted, hget] at h
    | some item =>
      simp only [permuted, hget, bind_eq_ok, pure_eq_ok] at h
      obtain ⟨later, hlater, rfl⟩ := h
      intro v hv
      rcases List.mem_cons.1 hv with rfl | hv
      · exact List.mem_of_getElem? hget
      · exact ih hlater v hv

theorem wf_applyOp {op : Op} (hroot : root.WF) (hop : OpWF op) (h : applyOp root op = .ok updated) :
    updated.WF := by
  cases op with
  | replace value =>
    cases h
    exact hop
  | set path value => exact wf_setPath hop hroot h
  | delete path =>
    simp only [applyOp, map_eq_ok, Prod.exists] at h
    obtain ⟨result, changed, herase, rfl⟩ := h
    exact wf_erasePathFrom hroot herase
  | append path text =>
    simp only [applyOp, appendStringPath, bind_eq_ok] at h
    obtain ⟨current, -, hset⟩ := h
    exact wf_setPath (Json.wf_string _) hroot hset
  | truncate path count =>
    simp only [applyOp, truncateStringPath, bind_eq_ok] at h
    obtain ⟨current, -, truncated, -, hset⟩ := h
    exact wf_setPath (Json.wf_string _) hroot hset
  | splice path index remove items =>
    simp only [applyOp, splicePath, bind_eq_ok, getArray_eq_ok] at h
    obtain ⟨array, harray, hset⟩ := h
    have hitems := (Json.wf_array array).1 (wf_tryGetPath hroot harray)
    refine wf_setPath ((Json.wf_array _).2 fun v hv => ?_) hroot hset
    rcases List.mem_append.1 hv with hv | hv
    · rcases List.mem_append.1 hv with hv | hv
      · exact hitems v (List.mem_of_mem_take hv)
      · exact hop v hv
    · exact hitems v (List.mem_of_mem_drop hv)
  | move path permutation =>
    simp only [applyOp, movePath, bind_eq_ok, getArray_eq_ok] at h
    obtain ⟨array, harray, hmove⟩ := h
    split at hmove
    · simp at hmove
    simp only [bind_eq_ok] at hmove
    obtain ⟨updated, hpermuted, hset⟩ := hmove
    have hitems := (Json.wf_array array).1 (wf_tryGetPath hroot harray)
    exact wf_setPath ((Json.wf_array _).2 fun v hv => hitems v (permuted_mem hpermuted v hv)) hroot hset

variable {result : Json × Bool}

theorem tryGetPath_of_erase_index {whole parent : Path} {i : Nat}
    (h : erasePathFrom whole (parent ++ [.index i]) root = .ok result) :
    ∃ items, tryGetPath root parent = some (.array items) := by
  obtain ⟨updated, changed⟩ := result
  induction parent generalizing root updated with
  | nil =>
    cases root with
    | array items => exact ⟨items, rfl⟩
    | _ => simp [erasePathFrom] at h
  | cons segment parent ih =>
    obtain ⟨current, inner, hchild, hinner, -, -⟩ := erasePathFrom_cons (by simp) h
    rw [tryGetPath_cons, hchild]
    exact ih inner hinner

theorem erasePath_last_key (hpar : (tryGetPath root path.dropLast).any isArray = false)
    (h : erasePath root path = .ok result) : ∃ parent key, path = parent ++ [.key key] := by
  rcases List.eq_nil_or_concat path with rfl | ⟨parent, last, rfl⟩
  · simp [erasePath, erasePathFrom] at h
  rw [List.concat_eq_append] at h hpar ⊢
  cases last with
  | key key => exact ⟨parent, key, rfl⟩
  | index i =>
    obtain ⟨items, hitems⟩ := tryGetPath_of_erase_index h
    simp [hitems, isArray] at hpar

theorem tryGetPath_setPathFrom {whole : Path} (h : setPathFrom whole value path root = .ok updated):
    tryGetPath updated path = some value := by
  induction path generalizing root updated with
  | nil =>
    cases h
    rfl
  | cons segment rest ih =>
    obtain ⟨inner, hinner, -, hchild⟩ := setPathFrom_cons h
    rw [tryGetPath_cons, hchild, if_pos rfl, Option.bind_some]
    rcases hinner with ⟨rfl, rfl⟩ | ⟨current, -, hset⟩
    · rfl
    · exact ih hset

theorem tryGetPath_setPath (h : setPath root path value = .ok updated) : tryGetPath updated path = some value :=
  tryGetPath_setPathFrom h

theorem insertOrAssign_twice (key : Bytes) (a b : Json) (members : JsonObject Json) :
    JsonObject.insertOrAssign key b (JsonObject.insertOrAssign key a members)
      = JsonObject.insertOrAssign key b members := by
  induction members with
  | nil => simp [JsonObject.insertOrAssign]
  | cons m rest ih =>
    obtain ⟨k, v⟩ := m
    by_cases hk : k = key
    · simp [JsonObject.insertOrAssign, hk]
    · simp [JsonObject.insertOrAssign, hk, ih]

theorem setPathFrom_twice {whole : Path} {a b mid : Json} (h : setPathFrom whole a path root = .ok mid) :
    setPathFrom whole b path mid = setPathFrom whole b path root := by
  induction path generalizing root mid with
  | nil => rfl
  | cons segment rest ih =>
    cases segment with
    | key key =>
      cases root with
      | object members =>
        rw [setPathFrom] at h
        split at h
        · rename_i hempty
          cases h
          simp [setPathFrom, hempty, insertOrAssign_twice]
        rename_i hempty
        cases hfind : JsonObject.find key members with
        | none => simp [hfind] at h
        | some current =>
          simp only [hfind, bind_eq_ok, pure_eq_ok] at h
          obtain ⟨inner, hinner, rfl⟩ := h
          simp [setPathFrom, hempty, hfind, JsonObject.find_insertOrAssign, ih hinner, insertOrAssign_twice]
      | _ => simp [setPathFrom] at h
    | index index =>
      cases root with
      | array items =>
        rw [setPathFrom] at h
        split at h
        · simp at h
        split at h
        · rename_i hempty
          cases h
          by_cases hend : index = items.length
          · simp [setPathFrom, hempty, hend]
          · simp [setPathFrom, hempty, hend, List.set_set]
        rename_i hempty
        cases hget : items[index]? with
        | none => simp [hget] at h
        | some current =>
          obtain ⟨hlt, hitem⟩ := List.getElem?_eq_some_iff.1 hget
          simp only [hget, bind_eq_ok, pure_eq_ok] at h
          obtain ⟨inner, hinner, rfl⟩ := h
          simp [setPathFrom, hempty, hitem, ih hinner, List.set_set, hlt]
      | _ => simp [setPathFrom] at h

theorem wf_applyOps {ops : OpBatch} (hroot : root.WF)
    (hops : ∀ op ∈ ops, OpWF op) (h : applyOps root ops = .ok updated) : updated.WF := by
  induction ops generalizing root with
  | nil =>
    cases h
    exact hroot
  | cons op ops ih =>
    simp only [applyOps, bind_eq_ok] at h
    obtain ⟨mid, hmid, hrest⟩ := h
    exact ih (wf_applyOp hroot (hops op List.mem_cons_self) hmid)
      (fun o ho => hops o (List.mem_cons_of_mem _ ho)) hrest

namespace ChangeState

variable {st st' : ChangeState}

theorem Inv.candidate_wf (h : st.Inv) : st.candidate.WF := wf_applyOps h.base_wf h.recorded_wf h.replay

theorem inv_beginChange (value : Value) : (beginChange value).Inv where
  base_wf := value.2
  recorded_wf := by simp [beginChange]
  valid := rfl
  replay := rfl
  plain := by simp [beginChange]

/-- Recording operations that take the candidate to its new value keeps the invariant. -/
theorem Inv.record (h : st.Inv) {ops : OpBatch} {candidate : Json} (structural : Bool)
    (hwf : ∀ op ∈ ops, OpWF op) (hvalid : ∀ op ∈ ops, validateOp op = .ok ())
    (happly : applyOps st.candidate ops = .ok candidate)
    (hplain : structural = false → st.structural = false ∧ ∀ op ∈ ops, Plain op) :
    ({ st.record ops candidate with structural := structural } : ChangeState).Inv where
  base_wf := h.base_wf
  recorded_wf := by
    intro op hop
    rcases List.mem_append.1 hop with hop | hop
    · exact h.recorded_wf op hop
    · exact hwf op hop
  valid := by
    have hrecorded := (validateBatch_eq_ok_iff _).1 h.valid
    refine (validateBatch_eq_ok_iff _).2 fun op hop => ?_
    rcases List.mem_append.1 hop with hop | hop
    · exact hrecorded op hop
    · exact hvalid op hop
  replay := by
    have hbase : applyOps st.base (st.recorded ++ ops) = .ok candidate := by
      rw [applyOps_append, h.replay]
      exact happly
    exact hbase
  plain := by
    intro hstruct op hop
    obtain ⟨hprev, hops⟩ := hplain hstruct
    rcases List.mem_append.1 hop with hop | hop
    · exact h.plain hprev op hop
    · exact hops op hop

theorem draftString_eq_ok {text : Bytes} :
    st.draftString path = .ok text ↔ tryGetPath st.candidate path = some (.string text) := by
  unfold draftString getPath
  cases tryGetPath st.candidate path with
  | none => simp
  | some value => cases value <;> simp

theorem draftArray_eq_ok {items : List Json} :
    st.draftArray path = .ok items ↔ tryGetPath st.candidate path = some (.array items) := by
  unfold draftArray getPath
  cases tryGetPath st.candidate path with
  | none => simp
  | some value => cases value <;> simp

theorem validateOp_of_safe (hempty : path.isEmpty = false) (hsafe : validateSafePath path = .ok ()):
    (∀ value, validateOp (.set path value) = .ok ()) ∧ validateOp (.delete path) = .ok () ∧
      (∀ text, validateOp (.append path text) = .ok ()) ∧ ∀ count, validateOp (.truncate path count) = .ok () := by
  simp [validateOp, hempty, hsafe]

theorem inv_set (hvalue : value.WF) (h : st.Inv) (hok : st.set path value = .ok st') : st'.Inv := by
  simp only [ChangeState.set, bind_eq_ok, refuse_eq_ok] at hok
  obtain ⟨_, -, _, hempty, _, hsafe, hok⟩ := hok
  split at hok
  · cases hok
    exact h
  simp only [bind_eq_ok, pure_eq_ok] at hok
  obtain ⟨updated, hupd, rfl⟩ := hok
  refine h.record st.structural (by simpa [OpWF] using hvalue) ?_ ?_
    fun hstruct => ⟨hstruct, by simp [Plain]⟩
  · simpa using (validateOp_of_safe hempty hsafe).1 value
  · simp [applyOps, applyOp, hupd]

theorem inv_erase (h : st.Inv) (hok : st.erase path = .ok st') : st'.Inv := by
  simp only [ChangeState.erase, bind_eq_ok, refuse_eq_ok, Prod.exists] at hok
  obtain ⟨_, -, _, hempty, _, hsafe, _, hpar, updated, changed, herase, hok⟩ := hok
  split at hok
  · cases hok
    refine h.record st.structural (by simp [OpWF]) ?_ ?_
      fun hstruct => ⟨hstruct, ?_⟩
    · simpa using (validateOp_of_safe hempty hsafe).2.1
    · simp [applyOps, applyOp, herase]
    · -- An array cannot be the parent, so the last segment is a key.
      simpa [Plain] using erasePath_last_key hpar herase
  · cases hok
    exact h

theorem inv_appendString {text : Bytes} (h : st.Inv) (hok : st.appendString path text = .ok st') : st'.Inv := by
  simp only [ChangeState.appendString, bind_eq_ok, refuse_eq_ok, draftString_eq_ok] at hok
  obtain ⟨_, -, _, hempty, _, hsafe, current, hcur, hok⟩ := hok
  split at hok
  · cases hok
    exact h
  simp only [bind_eq_ok, pure_eq_ok] at hok
  obtain ⟨updated, hupd, rfl⟩ := hok
  refine h.record st.structural (by simp [OpWF]) ?_ ?_
    fun hstruct => ⟨hstruct, by simp [Plain]⟩
  · simpa using (validateOp_of_safe hempty hsafe).2.2.1 text
  · simp [applyOps, applyOp, appendStringPath, getString_eq_ok hcur, hupd]

theorem inv_truncateString {count : Nat} (h : st.Inv) (hok : st.truncateString path count = .ok st') : st'.Inv := by
  simp only [ChangeState.truncateString, bind_eq_ok, refuse_eq_ok] at hok
  obtain ⟨_, -, _, hempty, _, hsafe, _, -, hok⟩ := hok
  split at hok
  · cases hok
    exact h
  simp only [bind_eq_ok] at hok
  obtain ⟨updated, hupd, hok⟩ := hok
  split at hok
  · cases hok
    exact h
  cases hok
  refine h.record st.structural (by simp [OpWF]) ?_ ?_
    fun hstruct => ⟨hstruct, by simp [Plain]⟩
  · simpa using (validateOp_of_safe hempty hsafe).2.2.2 count
  · simp [applyOps, applyOp, hupd]

variable {index remove : Nat}

theorem splicePath_eq {array : List Json}
    (harray : tryGetPath root path = some (.array array)) (hindex : index ≤ array.length)
    (hremove : remove ≤ array.length - index) (items : List Json) : splicePath root path index remove items
      = setPath root path (.array (array.take index ++ items ++ array.drop (index + remove))) := by
  have hget : getArray root path = .ok array := getArray_eq_ok.2 harray
  simp only [splicePath, hget, bind, Except.bind, min_eq_left hindex, min_eq_left hremove]

theorem applyOps_splice {array items : List Json} (harray : tryGetPath root path = some (.array array))
    (hindex : index ≤ array.length) (hremove : remove ≤ array.length - index) (heffect : ¬ (remove = 0 ∧ items = []))
    (h : splicePath root path index remove items = .ok updated) :
    applyOps root ((if remove = 0 then [] else [.splice path index remove []]) ++
      (if items.isEmpty then [] else [.splice path index 0 items])) = .ok updated := by
  by_cases hzero : remove = 0
  · subst hzero
    have hitems : items ≠ [] := fun hempty => heffect ⟨rfl, hempty⟩
    simp [hitems, applyOps, applyOp, h]
  by_cases hitems : items = []
  · subst hitems
    simp [hzero, applyOps, applyOp, h]
  -- The insertion finds the shortened array and overwrites it.
  have hsettable : View.Settable (view root) path := by
    apply settable_of_isSome
    rw [view_isSome_iff, harray]
    rfl
  let rest := array.take index ++ [] ++ array.drop (index + remove)
  obtain ⟨mid, hmid⟩ := (setPath_isOk_iff path (.array rest) root).2 hsettable
  have hrest : tryGetPath mid path = some (.array rest) := tryGetPath_setPath hmid
  have hlen : index ≤ rest.length := by
    simp only [rest, List.append_nil, List.length_append, List.length_take, min_eq_left hindex]
    omega
  have hfirst : applyOp root (.splice path index remove []) = .ok mid := by
    rw [applyOp, splicePath_eq harray hindex hremove, hmid]
  have htake : rest.take index = array.take index := by
    simp [rest, List.length_take, min_eq_left hindex]
  have hdrop : rest.drop (index + 0) = array.drop (index + remove) := by
    simp [rest, List.length_take, min_eq_left hindex]
  have hsnd : applyOp mid (.splice path index 0 items) = .ok updated := by
    rw [applyOp, splicePath_eq hrest hlen (Nat.zero_le _), htake, hdrop, setPath, setPathFrom_twice hmid]
    rw [splicePath_eq harray hindex hremove] at h
    exact h
  simp [hzero, hitems, applyOps, hfirst, hsnd]

theorem inv_splice {items : List Json} (hitems : ∀ item ∈ items, item.WF) (h : st.Inv)
    (hok : st.splice path index remove items = .ok st') : st'.Inv := by
  simp only [ChangeState.splice, bind_eq_ok, draftArray_eq_ok] at hok
  obtain ⟨_, -, _, hsafe, array, harray, hok⟩ := hok
  split at hok
  · cases hok
    exact h
  simp only [bind_eq_ok, pure_eq_ok] at hok
  obtain ⟨updated, hupd, rfl⟩ := hok
  refine h.record true ?_ ?_ ?_ (by simp)
  · intro op hop
    rcases List.mem_append.1 hop with hop | hop
    · split at hop
      · simp at hop
      · rw [List.mem_singleton.1 hop]
        simp [OpWF]
    split at hop
    · simp at hop
    · rw [List.mem_singleton.1 hop]
      exact hitems
  · intro op hop
    rcases List.mem_append.1 hop with hop | hop <;> split at hop <;>
      simp_all [validateOp]
  · rename_i heffect
    refine applyOps_splice harray (by omega) (by omega) ?_ hupd
    simpa using heffect

theorem inv_move {permutation : List Nat} (h : st.Inv) (hok : st.move path permutation = .ok st') : st'.Inv := by
  simp only [ChangeState.move, bind_eq_ok, refuse_eq_ok] at hok
  obtain ⟨_, -, _, hsafe, _, hperm, _, -, _, -, hok⟩ := hok
  split at hok
  · cases hok
    exact h
  simp only [bind_eq_ok, pure_eq_ok] at hok
  obtain ⟨updated, hupd, rfl⟩ := hok
  refine h.record true (by simp [OpWF]) ?_ ?_ (by simp)
  · simp [validateOp, hsafe, hperm]
  · simp [applyOps, applyOp, hupd]

/-- **One draft operation keeps the invariant.** -/
theorem inv_draft {op : DraftOp} (h : st.Inv) (hok : st.draft op = .ok st') : st'.Inv := by
  cases op with
  | set path value => exact inv_set value.2 h hok
  | erase path => exact inv_erase h hok
  | appendString path text => exact inv_appendString h hok
  | truncateString path count => exact inv_truncateString h hok
  | splice path index remove items =>
    refine inv_splice (fun item hitem => ?_) h hok
    obtain ⟨value, -, rfl⟩ := List.mem_map.1 hitem
    exact value.2
  | move path permutation => exact inv_move h hok

theorem inv_perform (h : st.Inv) (op : DraftOp) : (st.perform op).Inv := by
  unfold perform
  split
  · rename_i updated hok
    exact inv_draft h hok
  · exact h

/-- A draft operation needs an open change and touches neither its base nor its flags. -/
theorem draft_frame {op : DraftOp} (hok : st.draft op = .ok st') :
    st.settled = false ∧ st'.base = st.base ∧ st'.settled = st.settled ∧ st'.stale = st.stale := by
  cases op with
  | set path value =>
    simp only [draft, ChangeState.set, checkOpen, bind_eq_ok, refuse_eq_ok] at hok
    obtain ⟨_, hopen, _, -, _, -, h⟩ := hok
    refine ⟨hopen, ?_⟩
    split at h
    · cases h
      exact ⟨rfl, rfl, rfl⟩
    simp only [bind_eq_ok, pure_eq_ok] at h
    obtain ⟨updated, -, rfl⟩ := h
    exact ⟨rfl, rfl, rfl⟩
  | erase path =>
    simp only [draft, ChangeState.erase, checkOpen, bind_eq_ok, refuse_eq_ok] at hok
    obtain ⟨_, hopen, _, -, _, -, _, -, _, -, h⟩ := hok
    refine ⟨hopen, ?_⟩
    split at h
    · cases h
      exact ⟨rfl, rfl, rfl⟩
    · cases h
      exact ⟨rfl, rfl, rfl⟩
  | appendString path text =>
    simp only [draft, ChangeState.appendString, checkOpen, bind_eq_ok, refuse_eq_ok] at hok
    obtain ⟨_, hopen, _, -, _, -, _, -, h⟩ := hok
    refine ⟨hopen, ?_⟩
    split at h
    · cases h
      exact ⟨rfl, rfl, rfl⟩
    simp only [bind_eq_ok, pure_eq_ok] at h
    obtain ⟨updated, -, rfl⟩ := h
    exact ⟨rfl, rfl, rfl⟩
  | truncateString path count =>
    simp only [draft, ChangeState.truncateString, checkOpen, bind_eq_ok, refuse_eq_ok] at hok
    obtain ⟨_, hopen, _, -, _, -, _, -, h⟩ := hok
    refine ⟨hopen, ?_⟩
    split at h
    · cases h
      exact ⟨rfl, rfl, rfl⟩
    simp only [bind_eq_ok] at h
    obtain ⟨updated, -, h⟩ := h
    split at h
    · cases h
      exact ⟨rfl, rfl, rfl⟩
    · cases h
      exact ⟨rfl, rfl, rfl⟩
  | splice path index remove items =>
    simp only [draft, ChangeState.splice, checkOpen, bind_eq_ok, refuse_eq_ok] at hok
    obtain ⟨_, hopen, _, -, _, -, h⟩ := hok
    refine ⟨hopen, ?_⟩
    split at h
    · cases h
      exact ⟨rfl, rfl, rfl⟩
    simp only [bind_eq_ok, pure_eq_ok] at h
    obtain ⟨updated, -, rfl⟩ := h
    exact ⟨rfl, rfl, rfl⟩
  | move path permutation =>
    simp only [draft, ChangeState.move, checkOpen, bind_eq_ok, refuse_eq_ok] at hok
    obtain ⟨_, hopen, _, -, _, -, _, -, _, -, h⟩ := hok
    refine ⟨hopen, ?_⟩
    split at h
    · cases h
      exact ⟨rfl, rfl, rfl⟩
    simp only [bind_eq_ok, pure_eq_ok] at h
    obtain ⟨updated, -, rfl⟩ := h
    exact ⟨rfl, rfl, rfl⟩

/-- **Every sequence of draft operations keeps the invariant.** -/
theorem inv_run (h : st.Inv) (ops : List DraftOp) : (st.run ops).Inv := by
  induction ops generalizing st with
  | nil => exact h
  | cons op ops ih => exact ih (inv_perform h op)

/-- **The record replays.** However a change is edited, the operations that it has recorded are valid, and they
take its base to exactly its candidate, with the members in their order. -/
theorem run_replays (base : Value) (ops : List DraftOp) :
    validateBatch ((beginChange base).run ops).recorded = .ok () ∧
      applyOps ((beginChange base).run ops).base ((beginChange base).run ops).recorded =
        .ok ((beginChange base).run ops).candidate := by
  have hinv := inv_run (inv_beginChange base) ops
  exact ⟨hinv.valid, hinv.replay⟩

end ChangeState

end CodingHarness.Chord
