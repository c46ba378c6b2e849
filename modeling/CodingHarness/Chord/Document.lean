import CodingHarness.Chord.Delta
import Mathlib.Data.List.Forall2
import Mathlib.Data.List.Infix
import Mathlib.Data.List.Perm.Subperm

/-!
# Documents as functions of paths

The abstract model of a JSON document: for every path, the shape of what stands there, if anything.
A scalar is its own shape; a container only says what kind it is, since its children have paths of
their own. The order of object members and the sign of zero are not part of the view, so values
that are equal in the sense of `Json::operator==` have the same view (`equivalent_of_beq`).

Writing at a path and erasing an object member act on views by `View.put` and `View.drop`
(`view_setPath`, `view_erasePath`), and whether a write succeeds is a matter of the view alone
(`setPath_isOk_iff`).
-/

namespace CodingHarness.Chord

open Library Support
open Option (bind_some)
open Json (wf_array wf_object)

/-! ## Views -/

/-- What stands at one path. -/
inductive Shape where
  | null
  | bool (flag : Bool)
  | number (value : Double)
  | string (text : Bytes)
  | array
  | object
  deriving DecidableEq

def unsignedZero : Double → Double
  | .zero _ => .zero false
  | value => value

def shape : Json → Shape
  | .null => .null
  | .bool flag => .bool flag
  | .number value => .number (unsignedZero value)
  | .string text => .string text
  | .array _ => .array
  | .object _ => .object

attribute [grind =] shape

abbrev View := Path → Option Shape

/-- What a value shows at every path. -/
def view (v : Json) : View := fun path => (tryGetPath v path).map shape

/-- Two values that show the same. -/
def Equivalent (v w : Json) : Prop := ∀ path, view v path = view w path

namespace View

/-- The document with the subtree `w` at `path`. -/
def put (path : Path) (w V : View) : View := fun r => if path <+: r then w (r.drop path.length) else V r

/-- The document without the subtree at `path`. -/
def drop (path : Path) (V : View) : View := fun r => if path <+: r then none else V r

/-- A write at `path` finds its container: an object for a key, and for an index an array that is
not shorter. -/
def Settable (V : View) (path : Path) : Prop := match path.getLast? with
  | none => True
  | some (.key _) => V path.dropLast = some .object
  | some (.index 0) => V path.dropLast = some .array
  | some (.index (i + 1)) =>
    V path.dropLast = some .array ∧ (V (path.dropLast ++ [.index i])).isSome

end View

variable {v : Json}

@[simp] theorem shape_eq_array : shape v = .array ↔ ∃ items, v = .array items := by
  cases v <;> simp [shape]

@[simp] theorem shape_eq_string {text : Bytes} : shape v = .string text ↔ v = .string text := by
  cases v <;> simp [shape]

@[simp] theorem view_nil (v : Json) : view v [] = some (shape v) := rfl

theorem tryGetPath_cons (v : Json) (segment : PathSegment) (rest : Path) :
    tryGetPath v (segment :: rest) = (child segment v).bind (tryGetPath · rest) := by
  rw [tryGetPath]
  cases child segment v <;> rfl

theorem view_cons (v : Json) (segment : PathSegment) (rest : Path) :
    view v (segment :: rest) = (child segment v).bind (view · rest) := by
  simp only [view, tryGetPath_cons]
  cases child segment v <;> rfl

theorem tryGetPath_append (v : Json) (path rest : Path) :
    tryGetPath v (path ++ rest) = (tryGetPath v path).bind (tryGetPath · rest) := by
  induction path generalizing v with
  | nil => rfl
  | cons segment path ih =>
    rw [List.cons_append, tryGetPath_cons, tryGetPath_cons]
    cases child segment v with
    | none => rfl
    | some value => exact ih value

theorem view_append (v : Json) (path rest : Path) :
    view v (path ++ rest) = (tryGetPath v path).bind (view · rest) := by
  simp only [view, tryGetPath_append]
  cases tryGetPath v path <;> rfl

theorem view_isSome_iff (v : Json) (path : Path) : (view v path).isSome = (tryGetPath v path).isSome := by
  simp [view]

theorem view_eq_none_below {path rest : Path} (h : view v path = none)
    (hstart : path <+: rest) : view v rest = none := by
  obtain ⟨tail, rfl⟩ := hstart
  rw [view, Option.map_eq_none_iff] at h
  rw [view_append, h]
  rfl

theorem view_index_isSome {v : Json} {path : Path} {i : Nat} (h : (view v (path ++ [.index (i + 1)])).isSome) :
    view v path = some .array ∧ (view v (path ++ [.index i])).isSome := by
  rw [view_append] at h ⊢
  cases hvalue : tryGetPath v path with
  | none => simp [hvalue] at h
  | some value =>
    rw [hvalue] at h
    simp only [bind_some, view_cons] at h ⊢
    cases value with
    | array items =>
      simp only [child] at h ⊢
      have hlt : i + 1 < items.length := by
        by_contra hge
        rw [List.getElem?_eq_none (not_lt.1 hge)] at h
        simp at h
      rw [List.getElem?_eq_getElem (show i < items.length by omega)]
      simp [view, hvalue, shape, tryGetPath]
    | null | bool flag | number value | string text | object members => simp [child] at h

/-! ## Writing -/

theorem child_insertOrAssign (key : Bytes) (value : Json) (members : JsonObject Json) (segment : PathSegment) :
    child segment (.object (JsonObject.insertOrAssign key value members))
      = if segment = .key key then some value else child segment (.object members) := by
  cases segment with
  | key key' =>
    by_cases hkey : key' = key
    · simp [child, JsonObject.find_insertOrAssign]
    · simp [child, JsonObject.find_insertOrAssign, hkey]
  | index i => simp [child]

theorem child_set {items : List Json} {index : Nat} (hlt : index < items.length) (value : Json)
    (segment : PathSegment) : child segment (.array (items.set index value))
      = if segment = .index index then some value else child segment (.array items) := by
  cases segment with
  | key key => simp [child]
  | index i =>
    by_cases hi : index = i
    · subst hi
      simp [child, hlt]
    · simp [child, List.getElem?_set_ne hi, Ne.symm hi]

theorem child_append (items : List Json) (value : Json) (segment : PathSegment) :
    child segment (.array (items ++ [value]))
      = if segment = .index items.length then some value else child segment (.array items) := by
  cases segment with
  | key key => simp [child]
  | index i =>
    by_cases hi : i = items.length
    · subst hi
      simp [child]
    simp only [child, PathSegment.index.injEq, hi, if_false]
    rcases Nat.lt_or_ge i items.length with hlt | hge
    · rw [List.getElem?_append_left hlt]
    · rw [List.getElem?_eq_none (by simp; omega), List.getElem?_eq_none hge]

variable {value root updated : Json} {segment : PathSegment}

theorem setPathFrom_cons {whole rest : Path} (h : setPathFrom whole value (segment :: rest) root = .ok updated) :
    ∃ inner, (rest = [] ∧ inner = value ∨ ∃ current, child segment root = some current ∧
          setPathFrom whole value rest current = .ok inner) ∧ shape updated = shape root ∧
      ∀ s, child s updated = if s = segment then some inner else child s root := by
  cases segment with
  | key key =>
    cases root with
    | object members =>
      rw [setPathFrom] at h
      cases rest with
      | nil =>
        simp only [List.isEmpty_nil, if_true, Except.ok.injEq] at h
        subst h
        exact ⟨value, Or.inl ⟨rfl, rfl⟩, rfl, child_insertOrAssign key value members⟩
      | cons next rest =>
        simp only [List.isEmpty_cons, Bool.false_eq_true, if_false] at h
        cases hfind : JsonObject.find key members with
        | none => simp [hfind] at h
        | some current =>
          simp only [hfind, bind_eq_ok, pure_eq_ok] at h
          obtain ⟨inner, hinner, rfl⟩ := h
          exact ⟨inner, Or.inr ⟨current, hfind, hinner⟩, rfl, child_insertOrAssign key inner members⟩
    | null | bool flag | number value | string text | array items => simp [setPathFrom] at h
  | index index =>
    cases root with
    | array items =>
      rw [setPathFrom] at h
      split at h
      · simp at h
      cases rest with
      | nil =>
        simp only [List.isEmpty_nil, if_true, Except.ok.injEq] at h
        subst h
        refine ⟨value, Or.inl ⟨rfl, rfl⟩, rfl, fun s => ?_⟩
        split
        · rename_i hend
          subst hend
          exact child_append items value s
        · exact child_set (by omega) value s
      | cons next rest =>
        simp only [List.isEmpty_cons, Bool.false_eq_true, if_false] at h
        cases hget : items[index]? with
        | none => simp [hget] at h
        | some current =>
          simp only [hget, bind_eq_ok, pure_eq_ok] at h
          obtain ⟨inner, hinner, rfl⟩ := h
          have hlt : index < items.length := (List.getElem?_eq_some_iff.1 hget).1
          exact ⟨inner, Or.inr ⟨current, hget, hinner⟩, rfl, child_set hlt inner⟩
    | null | bool flag | number value | string text | object members => simp [setPathFrom] at h

variable {whole path : Path}

theorem view_setPathFrom (h : setPathFrom whole value path root = .ok updated) :
    view updated = View.put path (view value) (view root) := by
  funext r
  induction path generalizing root updated r with
  | nil =>
    rw [setPathFrom, Except.ok.injEq] at h
    subst h
    simp [View.put]
  | cons segment rest ih =>
    obtain ⟨inner, hinner, hshape, hchild⟩ := setPathFrom_cons h
    cases r with
    | nil => simp [View.put, hshape]
    | cons s r =>
      rw [view_cons, hchild]
      by_cases hs : s = segment
      · subst hs
        rw [if_pos rfl, bind_some, View.put]
        simp only [List.cons_prefix_cons, true_and, List.length_cons, List.drop_succ_cons]
        rcases hinner with ⟨rfl, rfl⟩ | ⟨current, hcur, hset⟩
        · simp
        · rw [ih hset, View.put, view_cons, hcur]
          rfl
      rw [if_neg hs, View.put, if_neg, view_cons]
      intro hstart
      exact hs (List.cons_prefix_cons.1 hstart).1.symm

/-- **A write puts its value at the path and changes nothing else.** -/
theorem view_setPath {path : Path} (h : setPath root path value = .ok updated) :
    view updated = View.put path (view value) (view root) :=
  view_setPathFrom h

namespace View

theorem settable_cons_cons (root : Json) (segment next : PathSegment) (rest : Path) :
    Settable (view root) (segment :: next :: rest) ↔
      ∃ current, child segment root = some current ∧ Settable (view current) (next :: rest) := by
  have hlast : (segment :: next :: rest).getLast? = (next :: rest).getLast? := by simp
  obtain ⟨last, hsome⟩ : ∃ last, (next :: rest).getLast? = some last := ⟨_, List.getLast?_eq_some_getLast (by simp)⟩
  unfold Settable
  rw [hlast, hsome]
  cases hchild : child segment root with
  | none | some current =>
    cases last with
    | key key => simp [view_cons, hchild]
    | index i => cases i <;> simp [view_cons, hchild]

end View

theorem setPathFrom_cons_isOk_iff (whole rest : Path) (segment next : PathSegment) (value root : Json) :
    (∃ updated, setPathFrom whole value (segment :: next :: rest) root = .ok updated) ↔
      ∃ current, child segment root = some current ∧
        ∃ inner, setPathFrom whole value (next :: rest) current = .ok inner := by
  cases segment with
  | key key =>
    cases root with
    | object members =>
      rw [setPathFrom]
      cases hfind : JsonObject.find key members <;> simp [hfind, child]
    | null | bool flag | number value | string text | array items => simp [setPathFrom, child]
  | index index =>
    cases root with
    | array items =>
      rw [setPathFrom]
      cases hget : items[index]? with
      | none =>
        by_cases hgt : index > items.length <;> simp [hget, child, hgt]
      | some current =>
        have hlt : index < items.length := (List.getElem?_eq_some_iff.1 hget).1
        simp [hget, child, Nat.not_lt.2 (Nat.le_of_lt hlt)]
    | null | bool flag | number value | string text | object members => simp [setPathFrom, child]

theorem setPathFrom_singleton_isOk_iff (whole : Path) (segment : PathSegment) (value root : Json) :
    (∃ updated, setPathFrom whole value [segment] root = .ok updated) ↔ View.Settable (view root) [segment] := by
  cases segment with
  | key key => cases root <;> simp [setPathFrom, View.Settable, shape]
  | index index =>
    cases root with
    | array items =>
      cases index with
      | zero => simp [setPathFrom, View.Settable, shape]
      | succ i =>
        rcases Nat.lt_or_ge i items.length with hlt | hge
        · have hle : ¬ i + 1 > items.length := by omega
          simp [setPathFrom, View.Settable, shape, child, hlt, hle, view, tryGetPath]
        · have hgt : i + 1 > items.length := by omega
          simp [setPathFrom, View.Settable, view_cons, child, hge, hgt]
    | null | bool flag | number value | string text | object members =>
      cases index <;> simp [setPathFrom, View.Settable, shape]

theorem setPathFrom_isOk_iff (whole path : Path) (value root : Json) :
    (∃ updated, setPathFrom whole value path root = .ok updated) ↔ View.Settable (view root) path := by
  induction path generalizing root with
  | nil => simp [setPathFrom, View.Settable]
  | cons segment rest ih =>
    cases rest with
    | nil => exact setPathFrom_singleton_isOk_iff whole segment value root
    | cons next rest =>
      rw [setPathFrom_cons_isOk_iff, View.settable_cons_cons]
      simp only [ih]

/-- **A write succeeds exactly when it finds its container.** -/
theorem setPath_isOk_iff (path : Path) (value root : Json) :
    (∃ updated, setPath root path value = .ok updated) ↔ View.Settable (view root) path :=
  setPathFrom_isOk_iff path path value root

/-! ## Erasing a member -/

variable {changed : Bool}

theorem erasePathFrom_cons {whole rest : Path} {root updated : Json} (hrest : rest ≠ [])
    (h : erasePathFrom whole (segment :: rest) root = .ok (updated, changed)) :
    ∃ current inner, child segment root = some current ∧
      erasePathFrom whole rest current = .ok (inner, changed) ∧ shape updated = shape root ∧
      ∀ s, child s updated = if s = segment then some inner else child s root := by
  have hempty : rest.isEmpty = false := by simpa using hrest
  cases segment with
  | key key =>
    cases root with
    | object members =>
      rw [erasePathFrom] at h
      cases hfind : JsonObject.find key members with
      | none => simp [hempty, hfind] at h
      | some current =>
        simp only [hfind, hempty, Bool.false_eq_true, if_false, bind_eq_ok, pure_eq_ok,
          Prod.mk.injEq, Prod.exists] at h
        obtain ⟨inner, changed', hinner, rfl, rfl⟩ := h
        exact ⟨current, inner, hfind, hinner, rfl, child_insertOrAssign key inner members⟩
    | _ => simp [erasePathFrom] at h
  | index index =>
    cases root with
    | array items =>
      rw [erasePathFrom] at h
      cases hget : items[index]? with
      | none => simp [hget] at h
      | some current =>
        have hlt : index < items.length := (List.getElem?_eq_some_iff.1 hget).1
        simp only [hget, hempty, Bool.false_eq_true, if_false, bind_eq_ok, pure_eq_ok,
          Prod.mk.injEq, Prod.exists] at h
        obtain ⟨inner, changed', hinner, rfl, rfl⟩ := h
        exact ⟨current, inner, hget, hinner, rfl, child_set hlt inner⟩
    | _ => simp [erasePathFrom] at h

theorem erasePathFrom_cons_isOk {whole rest : Path} {root current : Json}
    {result : Json × Bool} (hrest : rest ≠ []) (hchild : child segment root = some current)
    (hres : erasePathFrom whole rest current = .ok result) :
    ∃ result', erasePathFrom whole (segment :: rest) root = .ok result' := by
  have hempty : rest.isEmpty = false := by simpa using hrest
  cases segment with
  | key key =>
    cases root with
    | object members =>
      rw [child] at hchild
      simp [erasePathFrom, hchild, hempty, hres]
    | _ => simp [child] at hchild
  | index index =>
    cases root with
    | array items =>
      rw [child] at hchild
      simp [erasePathFrom, hchild, hempty, hres]
    | _ => simp [child] at hchild

theorem wf_child {segment : PathSegment} {root value : Json} (hroot : root.WF)
    (h : child segment root = some value) : value.WF := by
  cases segment with
  | key key =>
    cases root with
    | object members =>
      exact ((wf_object members).1 hroot).2 _ (JsonObject.mem_of_find h)
    | _ => simp [child] at h
  | index index =>
    cases root with
    | array items => exact (wf_array items).1 hroot value (List.mem_of_getElem? h)
    | _ => simp [child] at h

theorem erasePathFrom_isOk_iff (whole path : Path) (key : Bytes) (root : Json) :
    (∃ result, erasePathFrom whole (path ++ [.key key]) root = .ok result) ↔ view root path = some .object := by
  induction path generalizing root with
  | nil =>
    cases root with
    | object members =>
      rw [List.nil_append, erasePathFrom]
      cases JsonObject.find key members <;> simp [shape]
    | null | bool flag | number value | string text | array items => simp [erasePathFrom, shape]
  | cons segment path ih =>
    rw [List.cons_append, view_cons]
    constructor
    · rintro ⟨⟨updated, changed⟩, h⟩
      obtain ⟨current, inner, hchild, hinner, -, -⟩ := erasePathFrom_cons (by simp) h
      rw [hchild, bind_some]
      exact (ih current).1 ⟨_, hinner⟩
    intro h
    cases hchild : child segment root with
    | none => simp [hchild] at h
    | some current =>
      rw [hchild, bind_some] at h
      obtain ⟨result, hres⟩ := (ih current).2 h
      exact erasePathFrom_cons_isOk (by simp) hchild hres

theorem view_erasePathFrom {key : Bytes} {root updated : Json} (hwf : root.WF)
    (h : erasePathFrom whole (path ++ [.key key]) root = .ok (updated, changed)) :
    view updated = View.drop (path ++ [.key key]) (view root) := by
  funext r
  induction path generalizing root updated r with
  | nil =>
    cases root with
    | object members =>
      have hnodup := ((wf_object members).1 hwf).1
      have hchild : shape updated = .object ∧ ∀ s, child s updated
          = if s = .key key then none else child s (.object members) := by
        rw [List.nil_append, erasePathFrom] at h
        cases hfind : JsonObject.find key members with
        | none =>
          simp only [hfind, List.isEmpty_nil, if_true, Except.ok.injEq, Prod.mk.injEq] at h
          obtain ⟨rfl, -⟩ := h
          refine ⟨rfl, fun s => ?_⟩
          by_cases hs : s = .key key
          · subst hs
            simp [child, hfind]
          · rw [if_neg hs]
        | some current =>
          simp only [hfind, List.isEmpty_nil, if_true, Except.ok.injEq, Prod.mk.injEq] at h
          obtain ⟨rfl, -⟩ := h
          refine ⟨rfl, fun s => ?_⟩
          cases s with
          | key key' => simp [child, JsonObject.find_erase hnodup]
          | index i => simp [child]
      cases r with
      | nil =>
        rw [view_nil, hchild.1]
        simp [View.drop, shape]
      | cons s r =>
        rw [view_cons, hchild.2, View.drop, view_cons]
        by_cases hs : s = .key key
        · subst hs
          simp
        have hnot : ¬ [PathSegment.key key] <+: s :: r := by
          intro hstart
          exact hs (List.cons_prefix_cons.1 hstart).1.symm
        rw [if_neg hs, List.nil_append, if_neg hnot]
    | null | bool flag | number value | string text | array items => simp [erasePathFrom] at h
  | cons segment path ih =>
    obtain ⟨current, inner, hcur, hinner, hshape, hchild⟩ := erasePathFrom_cons (by simp) h
    cases r with
    | nil => simp [View.drop, hshape]
    | cons s r =>
      rw [view_cons, hchild, View.drop]
      by_cases hs : s = segment
      · subst hs
        rw [if_pos rfl, bind_some, ih (wf_child hwf hcur) hinner, View.drop, view_cons, hcur]
        simp only [List.cons_append, List.cons_prefix_cons, true_and, bind_some]
      rw [if_neg hs, if_neg, view_cons]
      intro hstart
      exact hs (List.cons_prefix_cons.1 hstart).1.symm

/-! ## Well-formedness -/

theorem wf_tryGetPath {root value : Json} {path : Path} (hroot : root.WF)
    (h : tryGetPath root path = some value) : value.WF := by
  induction path generalizing root with
  | nil =>
    cases h
    exact hroot
  | cons segment rest ih =>
    rw [tryGetPath_cons] at h
    cases hchild : child segment root with
    | none => simp [hchild] at h
    | some current =>
      rw [hchild] at h
      exact ih (wf_child hroot hchild) h

theorem wf_insertOrAssign {key : Bytes} {value : Json} {members : JsonObject Json}
    (hvalue : value.WF) (hroot : (Json.object members).WF) :
    (Json.object (JsonObject.insertOrAssign key value members)).WF := by
  obtain ⟨hnodup, hmembers⟩ := (wf_object members).1 hroot
  refine (wf_object _).2 ⟨JsonObject.insertOrAssign_nodup hnodup, fun m hm => ?_⟩
  rcases JsonObject.mem_insertOrAssign hm with rfl | hm
  · exact hvalue
  · exact hmembers m hm

theorem wf_set {index : Nat} {value : Json} {items : List Json} (hvalue : value.WF)
    (hroot : (Json.array items).WF) : (Json.array (items.set index value)).WF := by
  refine (wf_array _).2 fun v hv => ?_
  rcases List.mem_or_eq_of_mem_set hv with hv | rfl
  · exact (wf_array items).1 hroot v hv
  · exact hvalue

theorem wf_setPathFrom (hvalue : value.WF)
    (hroot : root.WF) (h : setPathFrom whole value path root = .ok updated) : updated.WF := by
  induction path generalizing root updated with
  | nil =>
    cases h
    exact hvalue
  | cons segment rest ih =>
    cases segment with
    | key key =>
      cases root with
      | object members =>
        rw [setPathFrom] at h
        split at h
        · cases h
          exact wf_insertOrAssign hvalue hroot
        cases hfind : JsonObject.find key members with
        | none => simp [hfind] at h
        | some current =>
          simp only [hfind, bind_eq_ok, pure_eq_ok] at h
          obtain ⟨inner, hinner, rfl⟩ := h
          exact wf_insertOrAssign (ih (@wf_child (.key key) _ _ hroot hfind) hinner) hroot
      | _ => simp [setPathFrom] at h
    | index index =>
      cases root with
      | array items =>
        rw [setPathFrom] at h
        split at h
        · simp at h
        split at h
        · cases h
          split
          · refine (wf_array _).2 fun v hv => ?_
            rcases List.mem_append.1 hv with hv | hv
            · exact (wf_array items).1 hroot v hv
            · rw [List.mem_singleton.1 hv]
              exact hvalue
          · exact wf_set hvalue hroot
        cases hget : items[index]? with
        | none => simp [hget] at h
        | some current =>
          simp only [hget, bind_eq_ok, pure_eq_ok] at h
          obtain ⟨inner, hinner, rfl⟩ := h
          exact wf_set (ih (@wf_child (.index index) _ _ hroot hget) hinner) hroot
      | _ => simp [setPathFrom] at h

theorem wf_erasePathFrom {root updated : Json}
    (hroot : root.WF) (h : erasePathFrom whole path root = .ok (updated, changed)) :
    updated.WF := by
  induction path generalizing root updated with
  | nil => simp [erasePathFrom] at h
  | cons segment rest ih =>
    cases segment with
    | key key =>
      cases root with
      | object members =>
        rw [erasePathFrom] at h
        cases hfind : JsonObject.find key members with
        | none =>
          simp only [hfind] at h
          split at h
          · cases h
            exact hroot
          · simp at h
        | some current =>
          simp only [hfind] at h
          split at h
          · cases h
            obtain ⟨hnodup, hmembers⟩ := (wf_object members).1 hroot
            exact (wf_object _).2 ⟨JsonObject.erase_nodup hnodup,
              fun m hm => hmembers m ((JsonObject.erase_sublist key members).subset hm)⟩
          simp only [bind_eq_ok, pure_eq_ok, Prod.exists, Prod.mk.injEq] at h
          obtain ⟨inner, changed', hinner, rfl, rfl⟩ := h
          exact wf_insertOrAssign (ih (@wf_child (.key key) _ _ hroot hfind) hinner) hroot
      | _ => simp [erasePathFrom] at h
    | index index =>
      cases root with
      | array items =>
        rw [erasePathFrom] at h
        cases hget : items[index]? with
        | none => simp [hget] at h
        | some current =>
          simp only [hget] at h
          split at h
          · cases h
            exact (wf_array _).2 fun v hv =>
              (wf_array items).1 hroot v ((List.eraseIdx_sublist items index).subset hv)
          simp only [bind_eq_ok, pure_eq_ok, Prod.exists, Prod.mk.injEq] at h
          obtain ⟨inner, changed', hinner, rfl, rfl⟩ := h
          exact wf_set (ih (@wf_child (.index index) _ _ hroot hget) hinner) hroot
      | _ => simp [erasePathFrom] at h

/-! ## Equality -/

theorem beqItems_iff (as bs : List Json) :
    Json.beqItems as bs = true ↔ List.Forall₂ (fun a b => Json.beq a b = true) as bs := by
  induction as generalizing bs with
  | nil => cases bs <;> simp [Json.beqItems]
  | cons a as ih => cases bs <;> simp [Json.beqItems, ih]

theorem beqMembers_iff (as bs : JsonObject Json) :
    Json.beqMembers as bs = true ↔ ∀ m ∈ as, ∃ b, JsonObject.find m.1 bs = some b ∧ Json.beq m.2 b = true := by
  induction as with
  | nil => simp [Json.beqMembers]
  | cons m as ih =>
    obtain ⟨key, a⟩ := m
    rw [Json.beqMembers, Bool.and_eq_true, ih, List.forall_mem_cons]
    cases JsonObject.find key bs <;> simp

/-- Objects of one size, each key of the first among those of the second, have the same keys. -/
theorem keys_subset_of_length {as bs : JsonObject Json} (hnodup : JsonObject.NodupKeys as)
    (hlen : as.length = bs.length) (hsubset : as.map Prod.fst ⊆ bs.map Prod.fst) :
    bs.map Prod.fst ⊆ as.map Prod.fst := by
  have hperm : (as.map Prod.fst).Perm (bs.map Prod.fst) :=
    (List.subperm_of_subset hnodup hsubset).perm_of_length_le (by simp [hlen])
  exact hperm.symm.subset

theorem child_index_array (items : List Json) (i : Nat) : child (.index i) (.array items) = items[i]? := rfl

theorem child_key_object (members : JsonObject Json) (key : Bytes) :
    child (.key key) (.object members) = JsonObject.find key members := rfl

theorem equivalent_of_children {a b : Json} (hshape : shape a = shape b)
    (hchild : ∀ s, (child s a = none ∧ child s b = none) ∨
      ∃ x y, child s a = some x ∧ child s b = some y ∧ Equivalent x y) : Equivalent a b := by
  intro path
  cases path with
  | nil => simp [hshape]
  | cons s rest =>
    rw [view_cons, view_cons]
    rcases hchild s with ⟨ha, hb⟩ | ⟨x, y, ha, hb, hxy⟩
    · rw [ha, hb]
    · rw [ha, hb]
      exact hxy rest

theorem equivalent_of_beq {a b : Json} (ha : a.WF) (hb : b.WF) (h : Json.beq a b = true) : Equivalent a b := by
  induction a using Json.rec' generalizing b with
  | hnull =>
    cases b with
    | null => exact fun _ => rfl
    | _ => simp [Json.beq] at h
  | hbool flag =>
    cases b with
    | bool flag' =>
      simp only [Json.beq, decide_eq_true_eq] at h
      subst h
      exact fun _ => rfl
    | _ => simp [Json.beq] at h
  | hnum value =>
    cases b with
    | number value' =>
      refine equivalent_of_children ?_ fun s => Or.inl (by cases s <;> exact ⟨rfl, rfl⟩)
      simp only [Json.beq] at h
      simp only [shape, Shape.number.injEq]
      cases value <;> cases value' <;> simp_all [Double.eq, unsignedZero]
    | _ => simp [Json.beq] at h
  | hstr text =>
    cases b with
    | string text' =>
      simp only [Json.beq, decide_eq_true_eq] at h
      subst h
      exact fun _ => rfl
    | _ => simp [Json.beq] at h
  | harray items ih =>
    cases b with
    | array items' =>
      rw [Json.beq, beqItems_iff] at h
      refine equivalent_of_children rfl fun s => ?_
      cases s with
      | key key => exact Or.inl ⟨rfl, rfl⟩
      | index i =>
        rw [child_index_array, child_index_array]
        rcases Nat.lt_or_ge i items.length with hlt | hge
        · have hlt' : i < items'.length := h.length_eq ▸ hlt
          refine Or.inr ⟨items[i], items'[i], by simp, by simp, ?_⟩
          exact ih _ (List.getElem_mem hlt) ((wf_array _).1 ha _ (List.getElem_mem hlt))
            ((wf_array _).1 hb _ (List.getElem_mem hlt')) (h.get hlt hlt')
        · exact Or.inl ⟨List.getElem?_eq_none hge, List.getElem?_eq_none (h.length_eq ▸ hge)⟩
    | _ => simp [Json.beq] at h
  | hobj members ih =>
    cases b with
    | object members' =>
      rw [Json.beq, Bool.and_eq_true, decide_eq_true_eq, beqMembers_iff] at h
      obtain ⟨hlen, hmembers⟩ := h
      obtain ⟨hnodup, hwf⟩ := (wf_object _).1 ha
      have hsubset : members.map Prod.fst ⊆ members'.map Prod.fst := by
        intro key hkey
        obtain ⟨m, hm, rfl⟩ := List.mem_map.1 hkey
        obtain ⟨b, hfind, -⟩ := hmembers m hm
        exact List.mem_map.2 ⟨(m.1, b), JsonObject.mem_of_find hfind, rfl⟩
      refine equivalent_of_children rfl fun s => ?_
      cases s with
      | index i => exact Or.inl ⟨rfl, rfl⟩
      | key key =>
        rw [child_key_object, child_key_object]
        cases hfind : JsonObject.find key members with
        | none =>
          refine Or.inl ⟨rfl, (JsonObject.find_eq_none_iff key members').2 fun hmem => ?_⟩
          exact (JsonObject.find_eq_none_iff key members).1 hfind (keys_subset_of_length hnodup hlen hsubset hmem)
        | some x =>
          have hmem := JsonObject.mem_of_find hfind
          obtain ⟨y, hy, hbeq⟩ := hmembers _ hmem
          refine Or.inr ⟨x, y, rfl, hy, ih _ hmem (hwf _ hmem) ?_ hbeq⟩
          exact ((wf_object _).1 hb).2 _ (JsonObject.mem_of_find hy)
    | _ => simp [Json.beq] at h

end CodingHarness.Chord
