import CodingHarness.Chord.Tracker
import CodingHarness.Support.JsonAccess

/-!
# The sequential applier

`apply` validates and executes the operations of a batch one after another on a value of its caller, and the second
entry point decodes each tuple when it is reached. `appliers_agree` compares both with `applyImmutable`, which
validates the whole batch first: they return the same values for the same inputs, and the caller's value is left
with the longest prefix of operations that could be applied and that has no root replacement.

`Encodes` says that a tuple is the form of an operation; a number stands for the size that `decodedSize` reads from
it. The spelling of numbers in error messages is a parameter (`frozen_string` of a double).
-/

namespace CodingHarness.Chord

open Library Support

/-! ## Decoding -/

/-- `decoded_size`: an integral number at or above zero, cut off at the largest `std::size_t`. -/
def decodedSize (value : Json) : Option Nat := value.asNumber.bind fun number =>
    if !number.isFinite || !number.isIntegral || number.isNegative then none
    else some (min number.magnitude (2 ^ 64 - 1))

section Decoding

variable (spell : Double → Bytes)

mutual
def frozenString : Json → Bytes
  | .null => "null"
  | .bool flag => if flag then "true" else "false"
  | .number value => spell value
  | .string text => text
  | .array items => (ofString ",").intercalate (frozenItems items)
  | .object _ => "[object Object]"

/-- The items of an array; `null` is spelled as nothing. -/
def frozenItems : List Json → List Bytes
  | [] => []
  | .null :: rest => [] :: frozenItems rest
  | item :: rest => frozenString item :: frozenItems rest
end

/-- One segment of `decode_path`. -/
def decodePathSegment (segment : Json) : Expected PathSegment := match segment.asString with
  | some key =>
    if isReservedSegment key then .error (validationError (ofString "unsafe path segment: " ++ key))
    else .ok (.key key)
  | none =>
    match decodedSize segment with
    | some index => .ok (.index index)
    | none => .error (validationError (ofString "unsafe path segment: " ++ frozenString spell segment))

/-- `decode_path`. -/
def decodeTuplePath (value : Json) (allowEmpty : Bool) : Expected Path := match value.asArray with
  | none => .error (validationError "path is not an array")
  | some segments =>
    if !allowEmpty && segments.isEmpty then .error (validationError "path is empty")
    else segments.mapM (decodePathSegment spell)

/-- A size of a tuple, or an error with the given text. -/
def decodeTupleSize (value : Json) (text : String) : Expected Nat := match decodedSize value with
  | some size => .ok size
  | none => .error (validationError (ofString text))

def decodeVerb (verb : Bytes) (arguments : List Json) : Expected Op :=
  let reject {α : Type} (text : String) : Expected α := .error (validationError (ofString text))
  if verb = "r" then
    match arguments with
    | [value] => .ok (.replace value)
    | _ => reject "r arity"
  else if verb = "s" then
    match arguments with
    | [path, value] => do
        let path ← decodeTuplePath spell path false
        return .set path value
    | _ => reject "s arity"
  else if verb = "d" then
    match arguments with
    | [path] => do
        let path ← decodeTuplePath spell path false
        return .delete path
    | _ => reject "d arity"
  else if verb = "a" then
    match arguments with
    | [path, value] =>
      match value.asString with
      | none => reject "a shape"
      | some text => do
          let path ← decodeTuplePath spell path false
          return .append path text
    | _ => reject "a shape"
  else if verb = "t" then
    match arguments with
    | [path, value] => do
        let count ← decodeTupleSize value "t shape"
        let path ← decodeTuplePath spell path false
        return .truncate path count
    | _ => reject "t shape"
  else if verb = "p" then
    match arguments with
    | [path, index, remove, items] => do
        let path ← decodeTuplePath spell path true
        let index ← decodeTupleSize index "p index"
        let remove ← decodeTupleSize remove "p remove"
        match items.asArray with
        | none => reject "p items"
        | some items => return .splice path index remove items
    | _ => reject "p arity"
  else if verb = "m" then
    match arguments with
    | [path, encoded] => do
        let path ← decodeTuplePath spell path true
        match encoded.asArray with
        | none => reject "m permutation is not an array"
        | some entries =>
          let permutation ← entries.mapM fun entry => decodeTupleSize entry "m permutation is not a bijection"
          validatePermutation permutation
          return .move path permutation
    | _ => reject "m arity"
  else .error (validationError (ofString "unknown op verb: " ++ verb))

/-- `decode_op`. -/
def decodeTuple (tuple : Json) : Expected Op := match tuple.asArray with
  | some (head :: arguments) =>
    match head.asString with
    | some verb => decodeVerb spell verb arguments
    | none => .error (validationError (ofString "unknown op verb: " ++ frozenString spell head))
  | _ => .error (validationError "op is not a tuple")

/-- `decode_ops`. -/
def decodeTuples (tuples : Json) : Expected OpBatch := match tuples.asArray with
  | none => .error (validationError "op batch is not an array")
  | some entries => entries.mapM (decodeTuple spell)

end Decoding

/-! ## Applying -/

def Op.isReplace : Op → Bool
  | .replace _ => true
  | _ => false

/-- `Applier`: the caller's value and the adopted root. -/
structure Applier where
  target : Json
  root : Json
  rootReplaced : Bool := false

namespace Applier

/-- `Applier::step`. -/
def step (a : Applier) (op : Op) : Expected Applier := do
  validateOp op
  let next ← applyImmutable a.root [op]
  return if op.isReplace then { a with root := next, rootReplaced := true }
    else { a with root := next, target := if a.rootReplaced then a.target else next }

/-- The loop of `apply`: the returned value, and the caller's value afterwards. -/
def applyOps (a : Applier) : OpBatch → Expected Json × Json
  | [] => (.ok a.root, a.target)
  | op :: rest =>
    match a.step op with
    | .error e => (.error e, a.target)
    | .ok next => next.applyOps rest

/-- The loop of `apply` over tuples. -/
def applyTuples (spell : Double → Bytes) (a : Applier) : List Json → Expected Json × Json
  | [] => (.ok a.root, a.target)
  | tuple :: rest =>
    match decodeTuple spell tuple with
    | .error e => (.error e, a.target)
    | .ok op =>
      match a.step op with
      | .error e => (.error e, a.target)
      | .ok next => next.applyTuples spell rest

end Applier

/-- `apply` with typed operations. -/
def apply (target : Json) (ops : OpBatch) : Expected Json × Json := Applier.applyOps ⟨target, target, false⟩ ops

/-- `apply` with an array of tuples. -/
def applyTuples (spell : Double → Bytes) (target tuples : Json) : Expected Json × Json := match tuples.asArray with
  | none => (.error (validationError "op batch is not an array"), target)
  | some entries => Applier.applyTuples spell ⟨target, target, false⟩ entries

/-! ## The tuple of an operation -/

/-- A segment of an encoded path. -/
inductive EncodesSegment : Json → PathSegment → Prop where
  | key (key : Bytes) : EncodesSegment (.string key) (.key key)
  | index {value : Json} {index : Nat} (h : decodedSize value = some index) : EncodesSegment value (.index index)

/-- An encoded path. -/
inductive EncodesPath : Json → Path → Prop where
  | mk {segments : List Json} {path : Path} (h : List.Forall₂ EncodesSegment segments path) :
      EncodesPath (.array segments) path

/-- The tuple of an operation. -/
inductive Encodes : Json → Op → Prop where
  | replace (value : Json) : Encodes (.array [.string "r", value]) (.replace value)
  | set {encoded : Json} {path : Path} (hpath : EncodesPath encoded path) (value : Json) :
      Encodes (.array [.string "s", encoded, value]) (.set path value)
  | delete {encoded : Json} {path : Path} (hpath : EncodesPath encoded path) :
      Encodes (.array [.string "d", encoded]) (.delete path)
  | append {encoded : Json} {path : Path} (hpath : EncodesPath encoded path) (text : Bytes) :
      Encodes (.array [.string "a", encoded, .string text]) (.append path text)
  | truncate {encoded size : Json} {path : Path} {count : Nat} (hpath : EncodesPath encoded path)
      (hcount : decodedSize size = some count) :
      Encodes (.array [.string "t", encoded, size]) (.truncate path count)
  | splice {encoded position size : Json} {path : Path} {index remove : Nat} (hpath : EncodesPath encoded path)
      (hindex : decodedSize position = some index) (hremove : decodedSize size = some remove) (items : List Json) :
      Encodes (.array [.string "p", encoded, position, size, .array items])
        (.splice path index remove items)
  | move {encoded : Json} {path : Path} {entries : List Json} {permutation : List Nat}
      (hpath : EncodesPath encoded path)
      (hentries : List.Forall₂ (fun entry index => decodedSize entry = some index) entries permutation) :
      Encodes (.array [.string "m", encoded, .array entries]) (.move path permutation)

/-! ## Steps and batches -/

variable {target value : Json} {op : Op}

theorem applyImmutable_cons {rest : OpBatch} : applyImmutable target (op :: rest) = .ok value ↔
      ∃ next, applyImmutable target [op] = .ok next ∧ applyImmutable next rest = .ok value := by
  simp only [applyImmutable, validateBatch, CodingHarness.Chord.applyOps, bind_eq_ok]
  constructor
  · rintro ⟨_, ⟨_, hop, hrest⟩, next, hnext, hvalue⟩
    exact ⟨next, ⟨(), ⟨(), hop, trivial⟩, next, hnext, rfl⟩, (), hrest, hvalue⟩
  rintro ⟨next, ⟨_, ⟨_, hop, _⟩, next', hnext, heq⟩, _, hrest, hvalue⟩
  cases heq
  exact ⟨(), ⟨(), hop, hrest⟩, next, hnext, hvalue⟩

theorem applyImmutable_nil : applyImmutable target [] = .ok value ↔ value = target := by
  change (Except.ok target : Expected Json) = .ok value ↔ value = target
  rw [Except.ok.injEq, eq_comm]

theorem validateOp_of_apply (h : applyImmutable target [op] = .ok value) : validateOp op = .ok () := by
  simp only [applyImmutable, validateBatch, bind_eq_ok] at h
  obtain ⟨_, ⟨_, hop, _⟩, _⟩ := h
  exact hop

namespace Applier

variable {a : Applier}

theorem step_eq_ok {next : Applier} : a.step op = .ok next ↔ ∃ root, applyImmutable a.root [op] = .ok root ∧
      next = if op.isReplace then { a with root := root, rootReplaced := true }
        else { a with root := root, target := if a.rootReplaced then a.target else root } := by
  simp only [step, bind_eq_ok, pure_eq_ok]
  constructor
  · rintro ⟨-, -, root, hroot, rfl⟩
    exact ⟨root, hroot, rfl⟩
  · rintro ⟨root, hroot, rfl⟩
    exact ⟨(), validateOp_of_apply hroot, root, hroot, rfl⟩

theorem root_of_step {next : Applier} (h : a.step op = .ok next) : applyImmutable a.root [op] = .ok next.root := by
  obtain ⟨root, hroot, rfl⟩ := step_eq_ok.1 h
  split <;> exact hroot

theorem step_error {e : Error} (h : a.step op = .error e) (root : Json) : applyImmutable a.root [op] ≠ .ok root := by
  intro hroot
  rw [step_eq_ok.2 ⟨root, hroot, rfl⟩] at h
  cases h

/-- **The returned value** of the loop is that of the whole batch. -/
theorem applyOps_value (ops : OpBatch) : (a.applyOps ops).1 = .ok value ↔ applyImmutable a.root ops = .ok value := by
  induction ops generalizing a with
  | nil =>
    rw [applyImmutable_nil, applyOps]
    simp [eq_comm]
  | cons op rest ih =>
    rw [applyImmutable_cons, applyOps]
    cases hstep : a.step op with
    | error e =>
      refine ⟨(fun h => nomatch h), ?_⟩
      rintro ⟨next, hnext, -⟩
      exact absurd hnext (step_error hstep next)
    | ok next =>
      rw [ih]
      have hroot := root_of_step hstep
      constructor
      · exact fun h => ⟨next.root, hroot, h⟩
      rintro ⟨root, hroot', h⟩
      cases hroot.symm.trans hroot'
      exact h

/-! ## The caller's value -/

theorem applyOps_target_of_replaced (ops : OpBatch) (h : a.rootReplaced = true) : (a.applyOps ops).2 = a.target := by
  induction ops generalizing a with
  | nil => rfl
  | cons op rest ih =>
    rw [applyOps]
    cases hstep : a.step op with
    | error e => rfl
    | ok next =>
      obtain ⟨root, -, rfl⟩ := step_eq_ok.1 hstep
      have hkept : (if op.isReplace then { a with root := root, rootReplaced := true }
          else { a with root := root, target := if a.rootReplaced then a.target else root }).rootReplaced =
            true := by
        split
        · rfl
        · exact h
      refine (ih hkept).trans ?_
      split <;> rfl

end Applier

/-- The value after the longest prefix of a batch that has no root replacement and can be applied. -/
def LongestPlain (target : Json) (ops : OpBatch) (after : Json) : Prop :=
  ∃ applied, applied <+: ops ∧ (∀ op ∈ applied, op.isReplace = false) ∧ applyImmutable target applied = .ok after ∧
    ∀ other, other <+: ops → (∀ op ∈ other, op.isReplace = false) →
      (∃ value, applyImmutable target other = .ok value) → other.length ≤ applied.length

/-- When the first operation cannot join the prefix, the prefix is empty. -/
theorem longestPlain_stop {rest : OpBatch}
    (h : op.isReplace = true ∨ ∀ next, applyImmutable target [op] ≠ .ok next) :
    LongestPlain target (op :: rest) target := by
  refine ⟨[], List.nil_prefix, by simp, applyImmutable_nil.2 rfl, ?_⟩
  intro other hother hplain hvalue
  cases other with
  | nil => exact Nat.le_refl _
  | cons first others =>
    obtain rfl := (List.cons_prefix_cons.1 hother).1
    rcases h with hreplace | hfail
    · rw [hplain _ List.mem_cons_self] at hreplace
      cases hreplace
    obtain ⟨value, happlied⟩ := hvalue
    obtain ⟨next, hnext, -⟩ := applyImmutable_cons.1 happlied
    exact absurd hnext (hfail next)

theorem LongestPlain.cons {next after : Json} {rest : OpBatch} (h : LongestPlain next rest after)
    (hplain : op.isReplace = false) (hop : applyImmutable target [op] = .ok next) :
    LongestPlain target (op :: rest) after := by
  obtain ⟨applied, hprefix, hall, hafter, hlongest⟩ := h
  refine ⟨op :: applied, List.cons_prefix_cons.2 ⟨rfl, hprefix⟩, ?_, applyImmutable_cons.2 ⟨next, hop, hafter⟩, ?_⟩
  · intro other hother
    rcases List.mem_cons.1 hother with rfl | hother
    · exact hplain
    · exact hall other hother
  intro other hother hotherPlain hvalue
  cases other with
  | nil => exact Nat.zero_le _
  | cons first others =>
    obtain ⟨rfl, hothers⟩ := List.cons_prefix_cons.1 hother
    obtain ⟨value, happlied⟩ := hvalue
    obtain ⟨next', hnext', hrest⟩ := applyImmutable_cons.1 happlied
    cases hop.symm.trans hnext'
    exact Nat.succ_le_succ (hlongest others hothers
      (fun op hop => hotherPlain op (List.mem_cons_of_mem _ hop)) ⟨value, hrest⟩)

/-- **The caller's value** after the loop. -/
theorem Applier.applyOps_longest {a : Applier} (ops : OpBatch) (hroot : a.root = a.target)
    (hplain : a.rootReplaced = false) : LongestPlain a.target ops (a.applyOps ops).2 := by
  induction ops generalizing a with
  | nil =>
    refine ⟨[], List.nil_prefix, by simp, applyImmutable_nil.2 rfl, fun other hother _ _ => ?_⟩
    rw [List.prefix_nil.1 hother]
  | cons op rest ih =>
    rw [Applier.applyOps]
    cases hstep : a.step op with
    | error e => exact longestPlain_stop (.inr (hroot ▸ Applier.step_error hstep))
    | ok next =>
      obtain ⟨root, hop, rfl⟩ := Applier.step_eq_ok.1 hstep
      cases hreplace : op.isReplace with
      | true =>
        rw [Applier.applyOps_target_of_replaced rest rfl]
        exact longestPlain_stop (.inl hreplace)
      | false =>
        simp only [hplain, Bool.false_eq_true, if_false]
        have hrest := ih (a := { a with root := root, target := root }) rfl hplain
        rw [hplain] at hrest
        exact hrest.cons hreplace (hroot ▸ hop)

/-! ## Tuples -/

section Tuples

variable (spell : Double → Bytes)

theorem decodeSegments_encodes {segments : List Json} {path : Path} (h : List.Forall₂ EncodesSegment segments path) :
    (validateSafePath path = .ok () → segments.mapM (decodePathSegment spell) = .ok path) ∧
      ∀ e, validateSafePath path = .error e → ∃ e', segments.mapM (decodePathSegment spell) = .error e' := by
  induction h with
  | nil => exact ⟨fun _ => rfl, fun e he => nomatch he⟩
  | @cons segment position segments path hseg hrest ih =>
    rw [List.mapM_cons]
    cases hseg with
    | key key =>
      rw [validateSafePath, decodePathSegment]
      simp only [Json.asString]
      cases hreserved : isReservedSegment key with
      | true => exact ⟨(fun h => nomatch h), fun e _ => ⟨_, rfl⟩⟩
      | false =>
        refine ⟨fun hsafe => ?_, fun e he => ?_⟩
        · rw [ih.1 hsafe]
          rfl
        obtain ⟨e', he'⟩ := ih.2 e he
        rw [he']
        exact ⟨e', rfl⟩
    | index hindex =>
      have hnum : segment.asString = none := by
        cases segment <;> first | rfl | simp [decodedSize, Json.asNumber] at hindex
      rw [validateSafePath, decodePathSegment, hnum, hindex]
      refine ⟨fun hsafe => ?_, fun e he => ?_⟩
      · rw [ih.1 hsafe]
        rfl
      obtain ⟨e', he'⟩ := ih.2 e he
      rw [he']
      exact ⟨e', rfl⟩

/-- The check of a path that must not be empty. -/
def validateInnerPath (path : Path) (allowEmpty : Bool) : Expected Unit :=
  if !allowEmpty && path.isEmpty then .error (validationError "path is empty") else validateSafePath path

theorem decodeTuplePath_encodes {encoded : Json} {path : Path} (h : EncodesPath encoded path) (allowEmpty : Bool) :
    (validateInnerPath path allowEmpty = .ok () → decodeTuplePath spell encoded allowEmpty = .ok path) ∧
      ∀ e, validateInnerPath path allowEmpty = .error e →
        ∃ e', decodeTuplePath spell encoded allowEmpty = .error e' := by
  obtain ⟨hsegs⟩ := h
  have hempty : ∀ {segments : List Json} {path : Path}, List.Forall₂ EncodesSegment segments path →
      segments.isEmpty = path.isEmpty := by
    intro segments path hsegs
    cases hsegs <;> rfl
  simp only [decodeTuplePath, validateInnerPath, Json.asArray, hempty hsegs]
  split
  · exact ⟨(fun h => nomatch h), fun e _ => ⟨_, rfl⟩⟩
  · exact decodeSegments_encodes spell hsegs

theorem decodeTupleSize_eq {size : Nat} (h : decodedSize value = some size) (text : String) :
    decodeTupleSize value text = .ok size := by
  rw [decodeTupleSize, h]

theorem decodeEntries_eq {entries : List Json} {permutation : List Nat} (text : String)
    (h : List.Forall₂ (fun entry index => decodedSize entry = some index) entries permutation) :
    (entries.mapM fun entry => decodeTupleSize entry text) = .ok permutation := by
  induction h with
  | nil => rfl
  | cons hentry _ ih =>
    rw [List.mapM_cons, decodeTupleSize_eq hentry, ih]
    rfl

/-- **A tuple is decoded** when its operation is valid, and rejected otherwise. -/
theorem decodeTuple_encodes {tuple : Json} (h : Encodes tuple op) :
    (validateOp op = .ok () → decodeTuple spell tuple = .ok op) ∧
      ∀ e, validateOp op = .error e → ∃ e', decodeTuple spell tuple = .error e' := by
  -- A verb with one path that must not be empty.
  have hinner : ∀ {encoded : Json} {path : Path} (make : Path → Op), EncodesPath encoded path →
      (∀ path, validateOp (make path) = validateInnerPath path false) →
      (validateOp (make path) = .ok () →
        (do let path ← decodeTuplePath spell encoded false; return make path) = Except.ok (make path)) ∧
      ∀ e, validateOp (make path) = .error e →
        ∃ e', (do let path ← decodeTuplePath spell encoded false; return make path : Expected Op) = .error e' := by
    intro encoded path make hpath hcheck
    rw [hcheck]
    obtain ⟨hok, herror⟩ := decodeTuplePath_encodes spell hpath false
    refine ⟨fun hvalid => ?_, fun e he => ?_⟩
    · rw [hok hvalid]
      rfl
    obtain ⟨e', he'⟩ := herror e he
    rw [he']
    exact ⟨e', rfl⟩
  cases h with
  | replace value =>
    refine ⟨fun _ => ?_, fun e he => by cases he⟩
    simp [decodeTuple, Json.asArray, Json.asString, decodeVerb]
  | set hpath value =>
    have h := hinner (fun path => .set path value) hpath fun _ => rfl
    simpa [decodeTuple, Json.asArray, Json.asString, decodeVerb] using h
  | delete hpath =>
    have h := hinner (fun path => .delete path) hpath fun _ => rfl
    simpa [decodeTuple, Json.asArray, Json.asString, decodeVerb] using h
  | append hpath text =>
    have h := hinner (fun path => .append path text) hpath fun _ => rfl
    simpa [decodeTuple, Json.asArray, Json.asString, decodeVerb] using h
  | truncate hpath hcount =>
    rename_i encoded size path count
    obtain ⟨hok, herror⟩ := hinner (fun path => .truncate path count) hpath fun _ => rfl
    have hdecode : decodeTuple spell (.array [.string "t", encoded, size]) =
        (do let path ← decodeTuplePath spell encoded false; return .truncate path count) := by
      simp only [decodeTuple, Json.asArray, Json.asString, decodeVerb, decodeTupleSize_eq hcount, ofString_inj]
      rfl
    rw [hdecode]
    exact ⟨hok, herror⟩
  | splice hpath hindex hremove items =>
    obtain ⟨hok, herror⟩ := decodeTuplePath_encodes spell hpath true
    refine ⟨fun hvalid => ?_, fun e he => ?_⟩
    · have hdec := hok hvalid
      simp [decodeTuple, Json.asArray, Json.asString, decodeVerb, hdec, decodeTupleSize_eq hindex,
        decodeTupleSize_eq hremove]
    obtain ⟨e', he'⟩ := herror e he
    refine ⟨e', ?_⟩
    simp only [decodeTuple, Json.asArray, Json.asString, decodeVerb, he', ofString_inj]
    rfl
  | move hpath hents =>
    rename_i encoded path entries permutation
    obtain ⟨hok, herror⟩ := decodeTuplePath_encodes spell hpath true
    have hdecode : decodeTuple spell (.array [.string "m", encoded, .array entries]) = (do
          let path ← decodeTuplePath spell encoded true
          validatePermutation permutation
          return .move path permutation) := by
      simp only [decodeTuple, Json.asArray, Json.asString, decodeVerb,
        decodeEntries_eq "m permutation is not a bijection" hents, ofString_inj]
      rfl
    rw [hdecode, validateOp]
    cases hsafe : validateSafePath path with
    | error e =>
      obtain ⟨e', he'⟩ := herror e hsafe
      rw [he']
      exact ⟨(fun h => by cases h), fun _ _ => ⟨e', rfl⟩⟩
    | ok u =>
      rw [hok hsafe]
      cases hbijection : validatePermutation permutation with
      | error e => exact ⟨(fun h => by cases h), fun _ _ => ⟨e, rfl⟩⟩
      | ok u => exact ⟨fun _ => rfl, fun _ h => by cases h⟩

/-- **The tuples of a valid batch are decoded.** -/
theorem decodeTuples_encodes {tuples : List Json} {ops : OpBatch} (h : List.Forall₂ Encodes tuples ops)
    (hvalid : validateBatch ops = .ok ()) : decodeTuples spell (.array tuples) = .ok ops := by
  change tuples.mapM (decodeTuple spell) = .ok ops
  induction h with
  | nil => rfl
  | cons hop _ ih =>
    simp only [validateBatch, bind_eq_ok] at hvalid
    obtain ⟨_, hhead, hrest⟩ := hvalid
    rw [List.mapM_cons, (decodeTuple_encodes spell hop).1 hhead, ih hrest]
    rfl

theorem Applier.step_of_invalid {a : Applier} {e : Error} (h : validateOp op = .error e) :
    a.step op = .error e := by
  rw [Applier.step, h]
  rfl

/-- **The loop over tuples** leaves the caller's value as the loop over their operations does, and returns the same
values. -/
theorem Applier.applyTuples_encodes {a : Applier} {tuples : List Json} {ops : OpBatch}
    (h : List.Forall₂ Encodes tuples ops) :
    (∀ value, (a.applyTuples spell tuples).1 = .ok value ↔ (a.applyOps ops).1 = .ok value) ∧
      (a.applyTuples spell tuples).2 = (a.applyOps ops).2 := by
  induction h generalizing a with
  | nil => exact ⟨fun _ => Iff.rfl, rfl⟩
  | @cons tuple op tuples ops htuple hrest ih =>
    rw [Applier.applyTuples, Applier.applyOps]
    obtain ⟨hdec, hrej⟩ := decodeTuple_encodes spell htuple
    cases hvalid : validateOp op with
    | error e =>
      obtain ⟨e', he'⟩ := hrej e hvalid
      rw [he', Applier.step_of_invalid hvalid]
      exact ⟨fun value => ⟨(fun h => nomatch h), (fun h => nomatch h)⟩, rfl⟩
    | ok u =>
      rw [hdec hvalid]
      cases hstep : a.step op with
      | error e =>
        simp only [hstep, reduceCtorEq, implies_true, and_self]
      | ok next =>
        simp only [hstep]
        exact ih

end Tuples

/-! ## The agreement -/

/-- **The appliers agree.** `apply` over operations and over their tuples return a value exactly when
`applyImmutable` does, and then the same one; the caller's value ends as the longest plain prefix leaves it. -/
theorem appliers_agree (target : Json) (ops : OpBatch) :
    (∀ value, (apply target ops).1 = .ok value ↔ applyImmutable target ops = .ok value) ∧
      LongestPlain target ops (apply target ops).2 ∧
      ∀ (spell : Double → Bytes) (tuples : List Json), List.Forall₂ Encodes tuples ops →
        (∀ value, (applyTuples spell target (.array tuples)).1 = .ok value ↔ applyImmutable target ops = .ok value) ∧
        LongestPlain target ops (applyTuples spell target (.array tuples)).2 := by
  have hvalue : ∀ value, (apply target ops).1 = .ok value ↔ applyImmutable target ops = .ok value :=
    fun value => Applier.applyOps_value ops
  have hlongest : LongestPlain target ops (apply target ops).2 :=
    Applier.applyOps_longest (a := ⟨target, target, false⟩) ops rfl rfl
  refine ⟨hvalue, hlongest, fun spell tuples htuples => ?_⟩
  obtain ⟨hsame, htarget⟩ := Applier.applyTuples_encodes spell (a := ⟨target, target, false⟩) htuples
  change (applyTuples spell target (.array tuples)).2 = (apply target ops).2 at htarget
  refine ⟨fun value => (hsame value).trans (hvalue value), ?_⟩
  rw [htarget]
  exact hlongest

def loggedState : Json := .object [(ofString "log", .string "a"), (ofString "list", .array [.null, .bool true])]

/-- Two plain operations, a replacement, and a deletion that fails behind it. -/
def failingOps : OpBatch := [.append [.key "log"] "b", .move [.key "list"] [1, 0], .replace (.string "new"),
  .delete [.key "log"]]

def failingTuples : List Json := [.array [.string "a", .array [.string "log"], .string "b"],
  .array [.string "m", .array [.string "list"], .array [.number (.ofInt 1), .number (.ofInt 0)]],
  .array [.string "r", .string "new"], .array [.string "d", .array [.string "log"]]]

/-- The caller's value is left with the two plain operations. -/
theorem appliers_agree_replaced : (∀ value, (applyTuples (fun _ => []) loggedState (.array failingTuples)).1 ≠ .ok value) ∧
    LongestPlain loggedState failingOps (applyTuples (fun _ => []) loggedState (.array failingTuples)).2 ∧
    (applyTuples (fun _ => []) loggedState (.array failingTuples)).2 =
      .object [(ofString "log", .string "ab"), (ofString "list", .array [.bool true, .null])] := by
  have hlog : EncodesPath (.array [.string "log"]) [.key "log"] := .mk (.cons (.key _) .nil)
  have hlist : EncodesPath (.array [.string "list"]) [.key "list"] := .mk (.cons (.key _) .nil)
  have htuples : List.Forall₂ Encodes failingTuples failingOps :=
    .cons (.append hlog _) (.cons (.move hlist (.cons (by decide) (.cons (by decide) .nil)))
      (.cons (.replace _) (.cons (.delete hlog) .nil)))
  obtain ⟨hsame, hlongest⟩ := (appliers_agree loggedState failingOps).2.2 (fun _ => []) failingTuples htuples
  refine ⟨fun value hvalue => ?_, hlongest, by decide +kernel⟩
  have hfails : (applyImmutable loggedState failingOps).toOption = none := by decide +kernel
  rw [(hsame value).1 hvalue] at hfails
  cases hfails

/-- After a replacement the caller keeps what came before it. -/
example : (apply .null [.replace (.string []), .append [.key "k"] []]).2 = .null := by decide +kernel

end CodingHarness.Chord
