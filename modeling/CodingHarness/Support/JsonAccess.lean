import CodingHarness.Support.JsonGrammar

/-!
# Typed members of JSON objects

The accessors of `JsonAccess.hpp`, the conversions of `chord/Json.cpp` between the two JSON
representations, and the vocabulary of the record encoders: fixed members, optional members and the
lookups in objects built from them.

`Json.Storable` collects what a value needs to survive a file: finite numbers and unique keys.
-/

namespace CodingHarness.Support

open Library
open List (map_append mem_cons_of_mem mem_cons_self)
open Json (finite_object wf_array wf_object)

/-! ## Accessors -/

def jsonMember (object : JsonObject Json) (name : String) : Option Json := JsonObject.find (ofString name) object

/-- `get_if<object_t>`. -/
def Json.asObject : Json → Option (JsonObject Json)
  | .object members => some members
  | _ => none

/-- `get_if<array_t>`. -/
def Json.asArray : Json → Option (List Json)
  | .array items => some items
  | _ => none

/-- `get_if<std::string>`. -/
def Json.asString : Json → Option Bytes
  | .string text => some text
  | _ => none

/-- `get_if<double>`. -/
def Json.asNumber : Json → Option Double
  | .number value => some value
  | _ => none

/-- `get_if<bool>`. -/
def Json.asBoolean : Json → Option Bool
  | .bool flag => some flag
  | _ => none

def jsonObjectMember (object : JsonObject Json) (name : String) : Option (JsonObject Json) :=
  (jsonMember object name).bind Json.asObject

def jsonArrayMember (object : JsonObject Json) (name : String) : Option (List Json) :=
  (jsonMember object name).bind Json.asArray

def jsonStringMember (object : JsonObject Json) (name : String) : Option Bytes :=
  (jsonMember object name).bind Json.asString

def jsonNumberMember (object : JsonObject Json) (name : String) : Option Double :=
  (jsonMember object name).bind Json.asNumber

/-- `static_cast<double>(std::numeric_limits<std::int64_t>::max())`, which rounds up. -/
def int64Bound : Nat := 2 ^ 63

/-- A finite number between zero and the 64-bit bound. -/
def integerInRange (value : Double) : Bool := value.isFinite && !value.isNegative && !value.exceeds int64Bound

/-- `json_integer_member`: a fraction is dropped. -/
def jsonIntegerMember (object : JsonObject Json) (name : String) : Option Int :=
  (jsonNumberMember object name).bind fun value =>
    if integerInRange value then some value.toInt else none

/-- `nonnegative_integer`: a fraction is rejected. -/
def nonnegativeInteger (value : Json) : Option Int := value.asNumber.bind fun value =>
    if integerInRange value && value.isIntegral then some value.toInt else none

/-- `number`: an integer as a JSON number. -/
def number (n : Int) : Json := .number (Double.ofInt n)

/-! ## The two representations -/

mutual
/-- `to_support_value`. -/
def toSupport : Json → Json
  | .null => .null
  | .bool flag => .bool flag
  | .number value => .number value
  | .string text => .string text
  | .array items => .array (toSupportItems items)
  | .object members => .object (toSupportMembers members [])
def toSupportItems : List Json → List Json
  | [] => []
  | item :: rest => toSupport item :: toSupportItems rest
/-- The converted members, emplaced after `acc`. -/
def toSupportMembers : List (Bytes × Json) → List (Bytes × Json) → List (Bytes × Json)
  | [], acc => acc
  | (key, value) :: rest, acc =>
    toSupportMembers rest (JsonObject.emplace acc key (toSupport value))
end

mutual
/-- `from_support_value`: a non-finite number is rejected. -/
def fromSupport : Json → Expected Json
  | .null => .ok .null
  | .bool flag => .ok (.bool flag)
  | .number value =>
    if value.isFinite then .ok (.number value)
    else .error (validationError "value contains a non-finite number and is not strict JSON")
  | .string text => .ok (.string text)
  | .array items => do
      let converted ← fromSupportItems items
      return .array converted
  | .object members => do
      let converted ← fromSupportMembers members []
      return .object converted
/-- The converted items; the first failure fails the whole. -/
def fromSupportItems : List Json → Expected (List Json)
  | [] => .ok []
  | item :: rest => do
      let converted ← fromSupport item
      let later ← fromSupportItems rest
      return converted :: later
/-- The converted members, emplaced after `acc`. -/
def fromSupportMembers : List (Bytes × Json) → List (Bytes × Json) → Expected (List (Bytes × Json))
  | [], acc => .ok acc
  | (key, value) :: rest, acc => do
      let converted ← fromSupport value
      fromSupportMembers rest (JsonObject.emplace acc key converted)
end

/-- What a value needs to survive a file. -/
def Json.Storable (v : Json) : Prop := v.Finite ∧ v.WF

theorem emplace_fresh {acc rest : List (Bytes × Json)} {key : Bytes} {value : Json}
    (h : JsonObject.NodupKeys (acc ++ (key, value) :: rest)) (converted : Json) :
    JsonObject.emplace acc key converted = acc ++ [(key, converted)] := by
  have hfresh : JsonObject.contains acc key = false := by
    rw [JsonObject.contains_eq_false_iff]
    intro hmem
    simp only [JsonObject.NodupKeys, map_append, List.map_cons] at h
    exact (List.nodup_append.1 h).2.2 _ hmem _ mem_cons_self rfl
  simp [JsonObject.emplace, hfresh]

variable {items : List Json}

theorem toSupportItems_eq (h : ∀ v ∈ items, toSupport v = v) : toSupportItems items = items := by
  induction items with
  | nil => rfl
  | cons v rest ih =>
    rw [toSupportItems, h v mem_cons_self, ih fun w hw => h w (mem_cons_of_mem _ hw)]

variable {members acc : List (Bytes × Json)}

theorem toSupportMembers_eq
    (h : ∀ m ∈ members, toSupport m.2 = m.2) (hnodup : JsonObject.NodupKeys (acc ++ members)) :
    toSupportMembers members acc = acc ++ members := by
  induction members generalizing acc with
  | nil => simp [toSupportMembers]
  | cons m rest ih =>
    obtain ⟨key, value⟩ := m
    have hvalue : toSupport value = value := h (key, value) mem_cons_self
    rw [toSupportMembers, hvalue, emplace_fresh hnodup,
      ih (fun n hn => h n (mem_cons_of_mem _ hn)) (by simpa using hnodup)]
    simp

theorem toSupport_eq {v : Json} (hwf : v.WF) : toSupport v = v := by
  induction v using Json.rec' with
  | hnull | hbool flag | hnum value | hstr text => rfl
  | harray items ih =>
    rw [wf_array] at hwf
    rw [toSupport, toSupportItems_eq fun v hv => ih v hv (hwf v hv)]
  | hobj members ih =>
    rw [wf_object] at hwf
    rw [toSupport, toSupportMembers_eq (fun m hm => ih m hm (hwf.2 m hm)) (by simpa using hwf.1)]
    rfl

theorem fromSupportItems_eq (h : ∀ v ∈ items, fromSupport v = .ok v) : fromSupportItems items = .ok items := by
  induction items with
  | nil => rfl
  | cons v rest ih =>
    rw [fromSupportItems, h v mem_cons_self, ih fun w hw => h w (mem_cons_of_mem _ hw)]
    rfl

theorem fromSupportMembers_eq (h : ∀ m ∈ members, fromSupport m.2 = .ok m.2)
    (hnodup : JsonObject.NodupKeys (acc ++ members)) : fromSupportMembers members acc = .ok (acc ++ members) := by
  induction members generalizing acc with
  | nil => simp [fromSupportMembers]
  | cons m rest ih =>
    obtain ⟨key, value⟩ := m
    have hvalue : fromSupport value = .ok value := h (key, value) mem_cons_self
    have hrest := @ih (acc ++ [(key, value)]) (fun n hn => h n (mem_cons_of_mem _ hn)) (by simpa using hnodup)
    rw [fromSupportMembers, hvalue]
    simp only [bind, Except.bind, emplace_fresh hnodup, hrest]
    simp

theorem fromSupport_eq {v : Json} (h : v.Storable) : fromSupport v = .ok v := by
  obtain ⟨hfinite, hwf⟩ := h
  induction v using Json.rec' with
  | hnull | hbool flag | hstr text => rfl
  | hnum value =>
    rw [Json.finite_number] at hfinite
    rw [fromSupport, if_pos hfinite]
  | harray items ih =>
    rw [wf_array] at hwf
    rw [Json.finite_array] at hfinite
    rw [fromSupport, fromSupportItems_eq fun v hv => ih v hv (hfinite v hv) (hwf v hv)]
    rfl
  | hobj members ih =>
    rw [wf_object] at hwf
    rw [finite_object] at hfinite
    rw [fromSupport, fromSupportMembers_eq (fun m hm => ih m hm (hfinite m hm) (hwf.2 m hm)) (by simpa using hwf.1)]
    rfl

theorem fromSupportItems_self {items converted : List Json} (h : ∀ v ∈ items, ∀ w, fromSupport v = .ok w → w = v)
    (hok : fromSupportItems items = .ok converted) : converted = items := by
  induction items generalizing converted with
  | nil =>
    cases hok
    rfl
  | cons v rest ih =>
    simp only [fromSupportItems, bind_eq_ok] at hok
    obtain ⟨first, hfirst, later, hlater, hok⟩ := hok
    cases hok
    rw [h v mem_cons_self first hfirst, ih (fun w hw => h w (mem_cons_of_mem _ hw)) hlater]

theorem fromSupportMembers_self {members acc converted : List (Bytes × Json)}
    (h : ∀ m ∈ members, ∀ w, fromSupport m.2 = .ok w → w = m.2) (hnodup : JsonObject.NodupKeys (acc ++ members))
    (hok : fromSupportMembers members acc = .ok converted) : converted = acc ++ members := by
  induction members generalizing acc with
  | nil =>
    cases hok
    exact (List.append_nil _).symm
  | cons m rest ih =>
    obtain ⟨key, value⟩ := m
    simp only [fromSupportMembers, bind_eq_ok] at hok
    obtain ⟨first, hfirst, hok⟩ := hok
    cases h (key, value) mem_cons_self first hfirst
    have hnew : JsonObject.contains acc key = false := by
      rw [JsonObject.contains_eq_false_iff]
      intro hmem
      rw [JsonObject.NodupKeys, map_append, List.map_cons, List.nodup_append] at hnodup
      exact hnodup.2.2 key hmem key mem_cons_self rfl
    rw [JsonObject.emplace, hnew, if_neg Bool.false_ne_true] at hok
    rw [ih (fun w hw => h w (mem_cons_of_mem _ hw)) (by simpa using hnodup) hok]
    simp

theorem fromSupport_self {v w : Json} (hwf : v.WF) (hok : fromSupport v = .ok w) : w = v := by
  induction v using Json.rec' generalizing w with
  | hnull | hbool flag | hstr text =>
    cases hok
    rfl
  | hnum value =>
    rw [fromSupport] at hok
    split at hok
    · cases hok
      rfl
    · cases hok
  | harray items ih =>
    rw [wf_array] at hwf
    simp only [fromSupport, bind_eq_ok] at hok
    obtain ⟨converted, hcvt, hok⟩ := hok
    cases hok
    rw [fromSupportItems_self (fun v hv w hw => ih v hv (hwf v hv) hw) hcvt]
  | hobj members ih =>
    rw [wf_object] at hwf
    simp only [fromSupport, bind_eq_ok] at hok
    obtain ⟨converted, hcvt, hok⟩ := hok
    cases hok
    rw [fromSupportMembers_self (fun m hm w hw => ih m hm (hwf.2 m hm) hw) (by simpa using hwf.1)
      hcvt]
    simp

/-! ## Building objects -/

def field (name : String) (value : Json) : JsonObject Json := [(ofString name, value)]

/-- A member that is written when present. -/
def optionalField {α : Type} (name : String) (encode : α → Json) : Option α → JsonObject Json
  | none => []
  | some value => [(ofString name, encode value)]

@[simp] theorem jsonMember_append (xs ys : JsonObject Json) (name : String) :
    jsonMember (xs ++ ys) name = (jsonMember xs name).or (jsonMember ys name) :=
  JsonObject.find_append _ _ _

@[simp] theorem jsonMember_nil (name : String) : jsonMember [] name = none := rfl

@[simp] theorem jsonMember_field (name name' : String) (value : Json) :
    jsonMember (field name value) name' = if name = name' then some value else none := by
  simp [jsonMember, field]

@[simp] theorem jsonMember_optionalField {α : Type} (name name' : String) (encode : α → Json) (value : Option α) :
    jsonMember (optionalField name encode value) name' = if name = name' then value.map encode else none := by
  cases value with
  | none => simp [optionalField]
  | some value => simp [jsonMember, optionalField]

@[simp] theorem jsonMember_ite (condition : Prop) [Decidable condition] (xs ys : JsonObject Json) (name : String) :
    jsonMember (if condition then xs else ys) name = if condition then jsonMember xs name else jsonMember ys name :=
  apply_ite (jsonMember · name) condition xs ys

/-- The names an object built by parts can have, in order. -/
class Fields (object : JsonObject Json) (names : outParam (List String)) : Prop where
  sublist : (object.map Prod.fst).Sublist (names.map ofString)

instance : Fields [] [] := ⟨List.Sublist.refl _⟩

instance (name : String) (value : Json) : Fields (field name value) [name] := ⟨List.Sublist.refl _⟩

instance {α : Type} (name : String) (encode : α → Json) (value : Option α) :
    Fields (optionalField name encode value) [name] := by
  constructor
  cases value with
  | none => exact List.nil_sublist _
  | some value => exact List.Sublist.refl _

instance (xs ys : JsonObject Json) (names names' : List String) [Fields xs names]
    [Fields ys names'] : Fields (xs ++ ys) (names ++ names') := by
  constructor
  rw [map_append, map_append]
  exact Fields.sublist.append Fields.sublist

instance (condition : Prop) [Decidable condition] (object : JsonObject Json) (names : List String)
    [Fields object names] : Fields (if condition then object else []) names := by
  constructor
  split
  · exact Fields.sublist
  · exact List.nil_sublist _

instance (condition : Prop) [Decidable condition] (object : JsonObject Json) (names : List String)
    [Fields object names] : Fields (if condition then [] else object) names := by
  constructor
  split
  · exact List.nil_sublist _
  · exact Fields.sublist

variable {names : List String}

theorem nodupKeys_of_fields (object : JsonObject Json) [Fields object names]
    (hnodup : names.Nodup) : JsonObject.NodupKeys object := by
  refine List.Nodup.sublist Fields.sublist (hnodup.map ?_)
  intro a b hab
  exact ofString_inj.1 hab

theorem Json.storable_object {members : JsonObject Json} (hnodup : JsonObject.NodupKeys members)
    (h : ∀ m ∈ members, m.2.Storable) : (Json.object members).Storable :=
  ⟨(finite_object members).2 fun m hm => (h m hm).1, (wf_object members).2 ⟨hnodup, fun m hm => (h m hm).2⟩⟩

theorem Json.storable_array (h : ∀ v ∈ items, v.Storable) : (Json.array items).Storable :=
  ⟨(Json.finite_array items).2 fun v hv => (h v hv).1, (wf_array items).2 fun v hv => (h v hv).2⟩

@[simp] theorem Json.storable_string (text : Bytes) : (Json.string text).Storable := ⟨trivial, trivial⟩

@[simp] theorem Json.storable_bool (flag : Bool) : (Json.bool flag).Storable := ⟨trivial, trivial⟩

@[simp] theorem Json.storable_null : Json.null.Storable := ⟨trivial, trivial⟩

/-- The members of an object built by parts are storable when the parts are. -/
def AllStorable (object : JsonObject Json) : Prop := ∀ m ∈ object, m.2.Storable

@[simp] theorem allStorable_append (xs ys : JsonObject Json) :
    AllStorable (xs ++ ys) ↔ AllStorable xs ∧ AllStorable ys := by
  simp only [AllStorable, List.mem_append]
  exact ⟨fun h => ⟨fun m hm => h m (Or.inl hm), fun m hm => h m (Or.inr hm)⟩, fun h m hm => hm.elim (h.1 m) (h.2 m)⟩

@[simp] theorem allStorable_nil : AllStorable [] := by simp [AllStorable]

@[simp] theorem allStorable_field (name : String) (value : Json) :
    AllStorable (field name value) ↔ value.Storable := by
  simp [AllStorable, field]

@[simp] theorem allStorable_optionalField {α : Type} (name : String) (encode : α → Json) (value : Option α) :
    AllStorable (optionalField name encode value) ↔ ∀ a, value = some a → (encode a).Storable := by
  cases value with
  | none => simp [optionalField]
  | some value => simp [AllStorable, optionalField]

@[simp] theorem allStorable_ite (condition : Prop) [Decidable condition] (xs ys : JsonObject Json) :
    AllStorable (if condition then xs else ys) ↔ if condition then AllStorable xs else AllStorable ys := by
  split <;> rfl

theorem storable_of_fields (object : JsonObject Json) [Fields object names]
    (hnodup : names.Nodup) (h : AllStorable object) : (Json.object object).Storable :=
  Json.storable_object (nodupKeys_of_fields object hnodup) h

/-! ## Integers -/

/-- An integer that a double represents exactly. -/
def Exact (n : Int) : Prop := n.natAbs < 2 ^ 53

instance (n : Int) : Decidable (Exact n) := inferInstanceAs (Decidable (n.natAbs < 2 ^ 53))

variable {n : Int}

theorem storable_number (h : Exact n) : (number n).Storable := ⟨Double.isFinite_ofInt h, trivial⟩

@[simp] theorem asNumber_number (n : Int) : (number n).asNumber = some (Double.ofInt n) := rfl

theorem toInt_number (h : Exact n) : (Double.ofInt n).toInt = n := Double.toInt_ofInt h

theorem integerInRange_ofInt (h : Exact n) : integerInRange (Double.ofInt n) = decide (0 ≤ n) := by
  have hexceeds : (Double.ofInt n).exceeds int64Bound = false := Double.exceeds_ofInt h (by decide)
  rw [integerInRange, Double.isFinite_ofInt h, Double.isNegative_ofInt h, hexceeds]
  by_cases hn : 0 ≤ n
  · simp [hn, not_lt.2 hn]
  · simp [hn, not_le.1 hn]

theorem nonnegativeInteger_number (h : Exact n) : nonnegativeInteger (number n) = if 0 ≤ n then some n else none := by
  simp only [nonnegativeInteger, asNumber_number, Option.bind_some, integerInRange_ofInt h,
    Double.isIntegral_ofInt h, Bool.and_true, decide_eq_true_eq, toInt_number h]

theorem jsonIntegerMember_of_number {object : JsonObject Json} {name : String}
    (hmem : jsonMember object name = some (number n)) (h : Exact n) :
    jsonIntegerMember object name = if 0 ≤ n then some n else none := by
  simp only [jsonIntegerMember, jsonNumberMember, hmem, Option.bind_some, asNumber_number,
    integerInRange_ofInt h, decide_eq_true_eq, toInt_number h]

/-- The values that a text of the grammar stands for. -/
def Shape.values : Shape → List Json
  | .value v | .element v | .member _ v => [v]
  | .items vs => vs
  | .members ms => ms.map Prod.snd

theorem Json.Storable.assigned {before members : List (Bytes × Json)} (h : ∀ m ∈ members, m.2.Storable)
    (hbefore : (Json.object before).Storable) : (Json.object (assigned before members)).Storable := by
  induction members generalizing before with
  | nil => exact hbefore
  | cons m members ih =>
    rw [List.forall_mem_cons] at h
    obtain ⟨hfinite, hwf⟩ := hbefore
    rw [finite_object] at hfinite
    rw [wf_object] at hwf
    have hmem : ∀ n ∈ JsonObject.insertOrAssign m.1 m.2 before, n.2.Storable := by
      intro n hn
      rcases JsonObject.mem_insertOrAssign hn with rfl | hn
      · exact h.1
      · exact ⟨hfinite n hn, hwf.2 n hn⟩
    exact ih h.2 ⟨(finite_object _).2 fun n hn => (hmem n hn).1,
      (wf_object _).2 ⟨JsonObject.insertOrAssign_nodup hwf.1, fun n hn => (hmem n hn).2⟩⟩

theorem Denotes.storable {unescaped : Bytes → Prop} {text : Bytes} {shape : Shape} (h : Denotes unescaped text shape) :
    ∀ v ∈ shape.values, v.Storable := by
  induction h with
  | number h =>
    obtain ⟨_, -, -, -, hvalue⟩ := h
    unfold fromChars at hvalue
    split at hvalue
    · split at hvalue <;> cases hvalue
      simp [Shape.values, Json.Storable, Double.isFinite]
    · cases hvalue
      simp [Shape.values, Json.Storable, Double.isFinite]
    · cases hvalue
  | object _ ih =>
    rintro _ (_ | ⟨_, ⟨⟩⟩)
    exact .assigned (fun m hm => ih _ (List.mem_map_of_mem hm)) ⟨trivial, Json.wf_empty⟩
  | members _ _ ih ih' => exact List.forall_mem_cons.2 ⟨ih _ List.mem_cons_self, ih'⟩
  | _ => simp_all [Shape.values, Json.Storable, JsonObject.NodupKeys]

/-- **What is read can be stored.** The value of an accepted text is read back from its own text, and survives the
conversion to the other JSON type. -/
theorem readJson_stable {text : Bytes} {v : Json} (h : readJson text = .ok v) :
    readJson (writeJson v) = .ok v ∧ fromSupport v = .ok v := by
  rw [readJson] at h
  split at h
  · next read _ hread =>
    cases h
    obtain ⟨_, _, _, hinner, -⟩ := (found _).value _ _ _ hread
    have hstorable := hinner.storable v List.mem_cons_self
    exact ⟨readJson_writeJson hstorable.1 hstorable.2, fromSupport_eq hstorable⟩
  · cases h

/-- A text with a repeated key, a negative zero, and the smallest and the largest number. -/
def repeatedText : Bytes := "\x7b\"a\":1e308,\"b\":-0.0,\"a\":[5e-324,1.7976931348623157e308,true]\x7d"

theorem readJson_stable_repeated : ∃ v, readJson repeatedText = .ok v ∧
    writeJson v = ofString "\x7b\"a\":[5E-324,1.7976931348623157E308,true],\"b\":-0\x7d" ∧
    readJson (writeJson v) = .ok v ∧ fromSupport v = .ok v := by
  have hread : (readJson repeatedText).toOption.map writeJson =
      some (ofString "\x7b\"a\":[5E-324,1.7976931348623157E308,true],\"b\":-0\x7d") := by decide +kernel
  cases hvalue : readJson repeatedText with
  | error e =>
    rw [hvalue] at hread
    cases hread
  | ok v =>
    rw [hvalue] at hread
    exact ⟨v, rfl, Option.some.inj hread, readJson_stable hvalue⟩

end CodingHarness.Support
