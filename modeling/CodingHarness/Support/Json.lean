import CodingHarness.Library.Double
import Mathlib.Data.List.Basic
import Mathlib.Data.List.Nodup
import Mathlib.Data.String.Basic

/-!
# JSON values and insertion-ordered objects

`support::JsonValue` and `chord::Json` have the same alternatives (null, boolean, double, string,
array, object), so one type `Json` stands for both; `toSupport` and `fromSupport` are the
conversions between them. Strings are byte strings, not necessarily valid UTF-8.

An object is `JsonObject`: a list of members in insertion order, looked up by a linear scan.
`Json.WF` states the class invariant that no object of the tree repeats a key, and `Json.beq` is
`Json::operator==`, which ignores the order of members.
-/

namespace CodingHarness.Support

open Library

universe u

/-! ## Strings and errors -/

/-- A `std::string`. -/
abbrev Bytes := List UInt8

instance instLawfulBEqUInt8 : LawfulBEq UInt8 := instLawfulBEq

instance instLawfulBEqBytes : LawfulBEq Bytes := List.instLawfulBEq

/-- The bytes of a string literal of the source. -/
def ofString (s : String) : Bytes := s.toList.flatMap String.utf8EncodeChar

instance : Coe String Bytes := ⟨ofString⟩

@[simp] theorem ofString_inj {a b : String} : ofString a = ofString b ↔ a = b := by
  constructor
  · intro h
    apply String.toByteArray_inj.1
    rw [← String.utf8Encode_toList, ← String.utf8Encode_toList, List.utf8Encode, List.utf8Encode]
    unfold ofString at h
    rw [h]
  · rintro rfl
    rfl

/-- `std::to_string` of an integer. -/
def intText (n : Int) : Bytes := ofString (toString n)

/-- The error classes used by the modelled code. -/
inductive ErrorCode where
  | validation
  | session
  | jsonParse
  | busy
  deriving DecidableEq

/-- `support::Error`. -/
structure Error where
  code : ErrorCode
  message : Bytes
  deriving DecidableEq

/-- `support::Expected`. -/
abbrev Expected (α : Type u) := Except Error α

/-- A validation error with the given message. -/
def validationError (message : Bytes) : Error := ⟨.validation, message⟩

@[simp] theorem bind_eq_ok {α β : Type} {x : Expected α} {f : α → Expected β} {b : β} :
    (x >>= f) = .ok b ↔ ∃ a, x = .ok a ∧ f a = .ok b := by
  cases x <;> simp [bind, Except.bind]

@[simp] theorem map_eq_ok {α β : Type} {x : Expected α} {f : α → β} {b : β} :
    f <$> x = .ok b ↔ ∃ a, x = .ok a ∧ f a = b := by
  cases x <;> simp [Functor.map, Except.map]

@[simp] theorem pure_eq_ok {α : Type} {a b : α} : (pure a : Expected α) = .ok b ↔ a = b := by
  simp [pure, Except.pure]

/-- A literal of the source where a `std::string` is expected. -/
instance : Coe String Bytes := ⟨ofString⟩

def invalid {α : Type} (message : Bytes) : Expected α := .error (validationError message)

/-- The value of an optional field, or an error when there is none. -/
def present {α : Type} (field : Option α) (message : Bytes) : Expected α := match field with
  | none => invalid message
  | some value => .ok value

/-- Stop with an error when a check finds a problem. -/
def refuse (problem : Bool) (message : Bytes) : Expected Unit := if problem then invalid message else .ok ()

variable {message : Bytes}

@[simp] theorem invalid_ne_ok {α : Type} {a : α} : (invalid message : Expected α) = .ok a ↔ False := by
  simp [invalid]

@[simp] theorem present_eq_ok {α : Type} {field : Option α} {a : α} :
    present field message = .ok a ↔ field = some a := by
  cases field <;> simp [present]

@[simp] theorem refuse_eq_ok {problem : Bool} {u : Unit} : refuse problem message = .ok u ↔ problem = false := by
  cases problem <;> simp [refuse]

/-! ## Insertion-ordered objects -/

abbrev JsonObject (α : Type u) := List (Bytes × α)

namespace JsonObject

variable {α : Type u}

/-- The value of the first member with the key. -/
def find (key : Bytes) : JsonObject α → Option α
  | [] => none
  | (k, v) :: rest => if k = key then some v else find key rest

/-- Whether a member with the key exists. -/
def contains (members : JsonObject α) (key : Bytes) : Bool := (find key members).isSome

/-- Append a member unless its key is present. -/
def emplace (members : JsonObject α) (key : Bytes) (value : α) : JsonObject α :=
  if contains members key then members else members ++ [(key, value)]

/-- Replace the value of an existing member in place, or append a new member. -/
def insertOrAssign (key : Bytes) (value : α) : JsonObject α → JsonObject α
  | [] => [(key, value)]
  | (k, v) :: rest =>
    if k = key then (k, value) :: rest else (k, v) :: insertOrAssign key value rest

/-- Remove the first member with the key. -/
def erase (key : Bytes) : JsonObject α → JsonObject α
  | [] => []
  | (k, v) :: rest => if k = key then rest else (k, v) :: erase key rest

/-- The class invariant: no key is repeated. -/
def NodupKeys (members : JsonObject α) : Prop := (members.map Prod.fst).Nodup

attribute [grind =] find insertOrAssign erase

@[simp] theorem find_nil (key : Bytes) : find key ([] : JsonObject α) = none := rfl

@[simp] theorem find_cons (key k : Bytes) (v : α) (rest : JsonObject α) :
    find key ((k, v) :: rest) = if k = key then some v else find key rest := rfl

theorem find_eq_none_iff (key : Bytes) (members : JsonObject α) :
    find key members = none ↔ key ∉ members.map Prod.fst := by
  induction members with
  | nil => simp
  | cons m rest ih =>
    obtain ⟨k, v⟩ := m
    by_cases hk : k = key
    · simp [hk]
    · simp [hk, ih, Ne.symm hk]

theorem contains_eq_false_iff (key : Bytes) (members : JsonObject α) :
    contains members key = false ↔ key ∉ members.map Prod.fst := by
  rw [contains, Option.isSome_eq_false_iff, Option.isNone_iff_eq_none, find_eq_none_iff]

theorem find_append (key : Bytes) (xs ys : JsonObject α) : find key (xs ++ ys) = (find key xs).or (find key ys) := by
  induction xs with
  | nil => simp
  | cons m rest ih =>
    obtain ⟨k, v⟩ := m
    by_cases hk : k = key
    · simp [hk]
    · simp [hk, ih]

variable {value : α} {members : JsonObject α} {key : Bytes}

theorem mem_of_find (h : find key members = some value) : (key, value) ∈ members := by
  induction members with
  | nil => simp at h
  | cons m rest ih =>
    obtain ⟨k, v⟩ := m
    by_cases hk : k = key
    · simp only [find_cons, hk, if_true, Option.some.injEq] at h
      simp [hk, h]
    · simp only [find_cons, hk, if_false] at h
      exact List.mem_cons_of_mem _ (ih h)

theorem find_of_mem (hnodup : NodupKeys members) (h : (key, value) ∈ members): find key members = some value := by
  induction members with
  | nil => simp at h
  | cons m rest ih =>
    obtain ⟨k, v⟩ := m
    simp only [NodupKeys, List.map_cons, List.nodup_cons] at hnodup
    rcases List.mem_cons.1 h with heq | hmem
    · obtain ⟨rfl, rfl⟩ := Prod.mk.inj heq
      simp
    have hk : k ≠ key := by
      rintro rfl
      exact hnodup.1 (List.mem_map.2 ⟨_, hmem, rfl⟩)
    simp only [find_cons, hk, if_false]
    exact ih hnodup.2 hmem

theorem find_insertOrAssign (key key' : Bytes) (value : α) (members : JsonObject α) :
    find key' (insertOrAssign key value members) = if key' = key then some value else find key' members := by
  induction members with
  | nil => simp [insertOrAssign, eq_comm]
  | cons m rest ih =>
    obtain ⟨k, v⟩ := m
    simp only [insertOrAssign]
    split
    · rename_i hk
      subst hk
      by_cases h : key' = k
      · simp [h]
      · simp [h, Ne.symm h]
    rename_i hk
    by_cases h : k = key'
    · subst h
      simp [hk]
    · simp [h, ih]

theorem insertOrAssign_keys (key : Bytes) (value : α) (members : JsonObject α) :
    (insertOrAssign key value members).map Prod.fst = if key ∈ members.map Prod.fst then members.map Prod.fst
        else members.map Prod.fst ++ [key] := by
  induction members with
  | nil => simp [insertOrAssign]
  | cons m rest ih =>
    simp only [insertOrAssign]
    split
    · rename_i hk
      simp [hk]
    rename_i hk
    simp only [List.map_cons, ih, List.mem_cons, Ne.symm hk, false_or]
    split <;> simp

theorem insertOrAssign_nodup (h : NodupKeys members) : NodupKeys (insertOrAssign key value members) := by
  rw [NodupKeys, insertOrAssign_keys]
  split
  · exact h
  rename_i hmem
  exact List.nodup_append.2 ⟨h, List.nodup_singleton _, by
    intro a ha b hb
    rw [List.mem_singleton] at hb
    subst hb
    rintro rfl
    exact hmem ha⟩

theorem mem_insertOrAssign {m : Bytes × α} (h : m ∈ insertOrAssign key value members) :
    m = (key, value) ∨ m ∈ members := by
  induction members with
  | nil => simpa [insertOrAssign] using h
  | cons a rest ih =>
    simp only [insertOrAssign] at h
    split at h
    · rename_i hk
      subst hk
      rcases List.mem_cons.1 h with rfl | h
      · exact Or.inl rfl
      · exact Or.inr (List.mem_cons_of_mem _ h)
    rcases List.mem_cons.1 h with rfl | h
    · exact Or.inr List.mem_cons_self
    rcases ih h with h | h
    · exact Or.inl h
    · exact Or.inr (List.mem_cons_of_mem _ h)

theorem erase_sublist (key : Bytes) (members : JsonObject α) : (erase key members).Sublist members := by
  induction members with
  | nil => exact List.Sublist.refl _
  | cons m rest ih =>
    simp only [erase]
    split
    · exact List.sublist_cons_self _ _
    · exact ih.cons_cons _

theorem erase_nodup (h : NodupKeys members) : NodupKeys (erase key members) :=
  List.Nodup.sublist ((erase_sublist key members).map _) h

theorem find_erase (hnodup : NodupKeys members) (key' : Bytes):
    find key' (erase key members) = if key' = key then none else find key' members := by
  induction members with
  | nil => simp [erase]
  | cons m rest ih =>
    obtain ⟨k, v⟩ := m
    simp only [NodupKeys, List.map_cons, List.nodup_cons] at hnodup
    simp only [erase]
    split
    · rename_i hk
      subst hk
      by_cases h : key' = k
      · subst h
        simp [(find_eq_none_iff key' rest).2 hnodup.1]
      · simp [h, Ne.symm h]
    rename_i hk
    by_cases h : k = key'
    · subst h
      simp [hk]
    · simp [h, ih hnodup.2]

/-- Insert every member in turn, a repeated key keeping its first value. -/
def emplaceAll (members acc : JsonObject α) : JsonObject α := members.foldl (fun acc m => emplace acc m.1 m.2) acc

theorem emplaceAll_of_nodup {acc : JsonObject α} (h : NodupKeys (acc ++ members)) :
    emplaceAll members acc = acc ++ members := by
  induction members generalizing acc with
  | nil => simp [emplaceAll]
  | cons m rest ih =>
    obtain ⟨k, v⟩ := m
    have hfresh : contains acc k = false := by
      rw [contains_eq_false_iff]
      intro hk
      simp only [NodupKeys, List.map_append, List.map_cons] at h
      exact (List.nodup_append.1 h).2.2 _ hk _ List.mem_cons_self rfl
    have happ : acc ++ (k, v) :: rest = (acc ++ [(k, v)]) ++ rest := by simp
    have hrec : emplaceAll rest (acc ++ [(k, v)]) = (acc ++ [(k, v)]) ++ rest := ih (by rw [← happ]; exact h)
    simp only [emplaceAll, List.foldl_cons, emplace, hfresh, Bool.false_eq_true, if_false]
    rw [happ]
    exact hrec

end JsonObject

/-! ## JSON values -/

/-- A JSON value. -/
inductive Json where
  | null
  | bool (flag : Bool)
  | number (value : Double)
  | string (text : Bytes)
  | array (items : List Json)
  | object (members : List (Bytes × Json))

namespace Json

/-- Induction over a JSON tree, with the hypothesis for every item and every member value. -/
theorem rec' {P : Json → Prop} (hnull : P .null) (hbool : ∀ flag, P (.bool flag))
    (hnum : ∀ value, P (.number value)) (hstr : ∀ text, P (.string text))
    (harray : ∀ items, (∀ v ∈ items, P v) → P (.array items))
    (hobj : ∀ members : JsonObject Json, (∀ m ∈ members, P m.2) → P (.object members)) (v : Json) : P v := by
  refine Json.rec (motive_1 := P) (motive_2 := fun l => ∀ v ∈ l, P v)
    (motive_3 := fun l => ∀ m ∈ l, P m.2) (motive_4 := fun m => P m.2)
    hnull hbool hnum hstr harray hobj ?_ ?_ ?_ ?_ ?_ v
  · simp
  · intro a as ha has w hw
    rcases List.mem_cons.1 hw with rfl | hw
    · exact ha
    · exact has w hw
  · simp
  · intro a as ha has w hw
    rcases List.mem_cons.1 hw with rfl | hw
    · exact ha
    · exact has w hw
  · intro _ _ h
    exact h

mutual
/-- Structural equality of trees, member order included. -/
def same : Json → Json → Bool
  | .null, .null => true
  | .bool a, .bool b => decide (a = b)
  | .number a, .number b => decide (a = b)
  | .string a, .string b => decide (a = b)
  | .array a, .array b => sameItems a b
  | .object a, .object b => sameMembers a b
  | _, _ => false
def sameItems : List Json → List Json → Bool
  | [], [] => true
  | a :: as, b :: bs => same a b && sameItems as bs
  | _, _ => false
def sameMembers : JsonObject Json → JsonObject Json → Bool
  | [], [] => true
  | (k, a) :: as, (l, b) :: bs => decide (k = l) && (same a b && sameMembers as bs)
  | _, _ => false
end

theorem sameItems_iff_of (as bs : List Json) (h : ∀ a ∈ as, ∀ b, same a b = true ↔ a = b) :
    sameItems as bs = true ↔ as = bs := by
  induction as generalizing bs with
  | nil => cases bs <;> simp [sameItems]
  | cons a as ih =>
    cases bs with
    | nil => simp [sameItems]
    | cons b bs =>
      have hrest := ih bs fun a' ha' => h a' (List.mem_cons_of_mem _ ha')
      simp [sameItems, h a List.mem_cons_self, hrest]

theorem sameMembers_iff_of (as bs : JsonObject Json) (h : ∀ m ∈ as, ∀ b, same m.2 b = true ↔ m.2 = b) :
    sameMembers as bs = true ↔ as = bs := by
  induction as generalizing bs with
  | nil => cases bs <;> simp [sameMembers]
  | cons m as ih =>
    obtain ⟨k, a⟩ := m
    cases bs with
    | nil => simp [sameMembers]
    | cons m' bs =>
      obtain ⟨l, b⟩ := m'
      have hrest := ih bs fun a' ha' => h a' (List.mem_cons_of_mem _ ha')
      have ha := h (k, a) List.mem_cons_self b
      simp only [sameMembers, Bool.and_eq_true, decide_eq_true_eq, ha, hrest, List.cons.injEq,
        Prod.mk.injEq, and_assoc]

theorem same_iff (a b : Json) : same a b = true ↔ a = b := by
  induction a using rec' generalizing b with
  | hnull | hbool flag | hnum value | hstr text => cases b <;> simp [same]
  | harray items ih =>
    cases b with
    | array items' =>
      rw [same, sameItems_iff_of items items' fun a ha b => ih a ha b, Json.array.injEq]
    | null | bool flag | number value | string text | object members => simp [same]
  | hobj members ih =>
    cases b with
    | object members' =>
      rw [same, sameMembers_iff_of members members' fun a ha b => ih a ha b, Json.object.injEq]
    | null | bool flag | number value | string text | array items => simp [same]

instance : DecidableEq Json := fun a b => decidable_of_iff _ (same_iff a b)

mutual
/-- `Json::operator==`: doubles compare by `==` and objects by key, not by position. -/
def beq : Json → Json → Bool
  | .null, .null => true
  | .bool a, .bool b => decide (a = b)
  | .number a, .number b => Double.eq a b
  | .string a, .string b => decide (a = b)
  | .array a, .array b => beqItems a b
  | .object a, .object b => decide (a.length = b.length) && beqMembers a b
  | _, _ => false
def beqItems : List Json → List Json → Bool
  | [], [] => true
  | a :: as, b :: bs => beq a b && beqItems as bs
  | _, _ => false
/-- Every member has an equal member under the same key on the other side. -/
def beqMembers : JsonObject Json → JsonObject Json → Bool
  | [], _ => true
  | (k, a) :: as, other =>
    (match JsonObject.find k other with
      | some b => beq a b
      | none => false) && beqMembers as other
end

mutual
def WF : Json → Prop
  | .array items => WFItems items
  | .object members => JsonObject.NodupKeys members ∧ WFMembers members
  | _ => True
def WFItems : List Json → Prop
  | [] => True
  | v :: rest => WF v ∧ WFItems rest
def WFMembers : JsonObject Json → Prop
  | [] => True
  | (_, v) :: rest => WF v ∧ WFMembers rest
end

theorem wfItems_iff (items : List Json) : WFItems items ↔ ∀ v ∈ items, WF v := by
  induction items with
  | nil => simp [WFItems]
  | cons v rest ih => simp [WFItems, ih]

theorem wfMembers_iff (members : JsonObject Json) : WFMembers members ↔ ∀ m ∈ members, WF m.2 := by
  induction members with
  | nil => simp [WFMembers]
  | cons m rest ih =>
    simp [WFMembers, ih]

@[simp] theorem wf_array (items : List Json) : WF (.array items) ↔ ∀ v ∈ items, WF v := by
  rw [WF, wfItems_iff]

@[simp] theorem wf_object (members : JsonObject Json) :
    WF (.object members) ↔ JsonObject.NodupKeys members ∧ ∀ m ∈ members, WF m.2 := by
  rw [WF, wfMembers_iff]

theorem wf_empty : WF (.object []) := by simp [JsonObject.NodupKeys]
@[simp] theorem wf_null : WF .null := trivial
@[simp] theorem wf_bool (flag : Bool) : WF (.bool flag) := trivial
@[simp] theorem wf_number (value : Double) : WF (.number value) := trivial
@[simp] theorem wf_string (text : Bytes) : WF (.string text) := trivial

end Json

end CodingHarness.Support
