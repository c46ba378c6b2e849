import CodingHarness.Support.JsonAccess

/-!
# Numbers that survive any value around them

The round trip of `JsonText` asks for finite numbers everywhere. A record may hold a payload that is
not finite, and its own numbers still come back: the writer puts `null` for a number that is not
finite, so the text of a value is the text of `Json.written`, which is finite. `Keeps` then follows
one number member through the text and the conversions between the two representations.
-/

namespace CodingHarness.Support

open Library

namespace Json

mutual
/-- The value that the text of a value states: a number that is not finite is written as `null`. -/
def written : Json → Json
  | .null => .null
  | .bool flag => .bool flag
  | .number value => if value.isFinite then .number value else .null
  | .string text => .string text
  | .array items => .array (writtenItems items)
  | .object members => .object (writtenMembers members)
def writtenItems : List Json → List Json
  | [] => []
  | item :: rest => written item :: writtenItems rest
/-- The members as their text states them. -/
def writtenMembers : List (Bytes × Json) → List (Bytes × Json)
  | [] => []
  | (key, value) :: rest => (key, written value) :: writtenMembers rest
end

theorem writtenItems_eq (items : List Json) : writtenItems items = items.map written := by
  induction items with
  | nil => rfl
  | cons item rest ih => rw [writtenItems, ih, List.map_cons]

theorem writtenMembers_eq (members : List (Bytes × Json)) :
    writtenMembers members = members.map fun m => (m.1, written m.2) := by
  induction members with
  | nil => rfl
  | cons m rest ih =>
    rw [writtenMembers, ih, List.map_cons]

theorem finite_written (v : Json) : v.written.Finite := by
  induction v using Json.rec' with
  | hnull | hbool flag | hstr text => exact trivial
  | hnum value =>
    rw [written]
    split
    · assumption
    · exact trivial
  | harray items ih =>
    rw [written, writtenItems_eq, finite_array]
    intro v hv
    obtain ⟨item, hitem, rfl⟩ := List.mem_map.1 hv
    exact ih item hitem
  | hobj members ih =>
    rw [written, writtenMembers_eq, finite_object]
    intro m hm
    obtain ⟨member, hmem, rfl⟩ := List.mem_map.1 hm
    exact ih member hmem

theorem wf_written {v : Json} (h : v.WF) : v.written.WF := by
  induction v using Json.rec' with
  | hnull | hbool flag | hstr text => exact trivial
  | hnum value =>
    rw [written]
    split
    · exact trivial
    · exact trivial
  | harray items ih =>
    rw [wf_array] at h
    rw [written, writtenItems_eq, wf_array]
    intro v hv
    obtain ⟨item, hitem, rfl⟩ := List.mem_map.1 hv
    exact ih item hitem (h item hitem)
  | hobj members ih =>
    rw [wf_object] at h
    rw [written, writtenMembers_eq, wf_object]
    constructor
    · simpa [JsonObject.NodupKeys, Function.comp_def] using h.1
    intro m hm
    obtain ⟨member, hmem, rfl⟩ := List.mem_map.1 hm
    exact ih member hmem (h.2 member hmem)

end Json

open Json

theorem writeItems_written {items : List Json} (h : ∀ v ∈ items, writeValue v.written = writeValue v)
    (first : Bool) : writeItems first (items.map written) = writeItems first items := by
  induction items generalizing first with
  | nil => rfl
  | cons item rest ih =>
    rw [List.map_cons, writeItems, writeItems, h item List.mem_cons_self,
      ih fun v hv => h v (List.mem_cons_of_mem _ hv)]

theorem writeMembers_written {members : List (Bytes × Json)}
    (h : ∀ m ∈ members, writeValue m.2.written = writeValue m.2) (first : Bool) :
    writeMembers first (members.map fun m => (m.1, written m.2)) = writeMembers first members := by
  induction members generalizing first with
  | nil => rfl
  | cons m rest ih =>
    obtain ⟨key, value⟩ := m
    have hvalue : writeValue value.written = writeValue value := h (key, value) List.mem_cons_self
    rw [List.map_cons, writeMembers, writeMembers, hvalue, ih fun n hn => h n (List.mem_cons_of_mem _ hn)]

theorem writeValue_written (v : Json) : writeValue v.written = writeValue v := by
  induction v using Json.rec' with
  | hnull | hbool flag | hstr text => rfl
  | hnum value =>
    rw [written]
    split
    · rfl
    rename_i hfinite
    cases value with
    | nan | infinity negative => rfl
    | zero negative | finite negative mantissa exponent representable => exact absurd rfl hfinite
  | harray items ih => rw [written, writtenItems_eq, writeValue, writeValue, writeItems_written ih]
  | hobj members ih =>
    rw [written, writtenMembers_eq, writeValue, writeValue, writeMembers_written ih]

variable {v : Json}

/-- **Any text reads back as what it states.** -/
theorem readJson_writeJson_written (h : v.WF) : readJson (writeJson v) = .ok v.written := by
  rw [writeJson, ← writeValue_written]
  exact readJson_writeJson (finite_written v) (wf_written h)

/-! ## Objects without repeated keys -/

variable {P : Bytes × Json → Prop}

theorem forall_mem_field (name : String) (value : Json) :
    (∀ m ∈ field name value, P m) ↔ P (ofString name, value) := by
  simp [field]

theorem forall_mem_optionalField {α : Type} (name : String) (encode : α → Json) (value : Option α) :
    (∀ m ∈ optionalField name encode value, P m) ↔ ∀ a, value = some a → P (ofString name, encode a) := by
  cases value with
  | none | some value => simp [optionalField]

theorem wf_of_fields (object : JsonObject Json) {names : List String} [Fields object names]
    (hnodup : names.Nodup) (h : ∀ m ∈ object, m.2.WF) : (Json.object object).WF :=
  (Json.wf_object object).2 ⟨nodupKeys_of_fields object hnodup, h⟩

variable {members converted object : JsonObject Json}

theorem emplace_wf (h : (Json.object members).WF) (key : Bytes) {value : Json} (hvalue : value.WF):
    (Json.object (JsonObject.emplace members key value)).WF := by
  unfold JsonObject.emplace
  split
  · exact h
  rename_i hcontains
  rw [Json.wf_object] at h ⊢
  refine ⟨?_, ?_⟩
  · rw [Bool.not_eq_true, JsonObject.contains_eq_false_iff] at hcontains
    rw [JsonObject.NodupKeys, List.map_append, List.nodup_append]
    refine ⟨h.1, List.nodup_singleton _, ?_⟩
    intro a ha b hb heq
    rw [List.map_singleton, List.mem_singleton] at hb
    exact hcontains (by rwa [heq, hb] at ha)
  intro m hm
  rcases List.mem_append.1 hm with hm | hm
  · exact h.2 m hm
  · rw [List.mem_singleton.1 hm]
    exact hvalue

variable {acc : JsonObject Json}

theorem toSupportMembers_wf (h : ∀ m ∈ members, (toSupport m.2).WF) (hacc : (Json.object acc).WF) :
    (Json.object (toSupportMembers members acc)).WF := by
  induction members generalizing acc with
  | nil => exact hacc
  | cons m rest ih =>
    obtain ⟨key, value⟩ := m
    exact ih (fun n hn => h n (List.mem_cons_of_mem _ hn)) (emplace_wf hacc key (h (key, value) List.mem_cons_self))

/-- The conversion to the passive representation repeats no key, whatever it is given. -/
theorem toSupport_wf (v : Json) : (toSupport v).WF := by
  induction v using Json.rec' with
  | hnull | hbool flag | hnum value | hstr text => exact trivial
  | harray items ih =>
    rw [toSupport, Json.wf_array]
    induction items with
    | nil => rintro _ ⟨⟩
    | cons item rest ihItems =>
      intro v hv
      rcases List.mem_cons.1 hv with rfl | hv
      · exact ih item List.mem_cons_self
      · exact ihItems (fun w hw => ih w (List.mem_cons_of_mem _ hw)) v hv
  | hobj members ih => exact toSupportMembers_wf ih Json.wf_empty

/-! ## Members through the conversions -/

theorem find_writtenMembers (key : Bytes) (members : JsonObject Json) :
    JsonObject.find key (writtenMembers members) = (JsonObject.find key members).map written := by
  induction members with
  | nil => rfl
  | cons m rest ih =>
    rw [writtenMembers, JsonObject.find_cons, JsonObject.find_cons, ih]
    split
    · rfl
    · rfl

theorem find_emplace (key other : Bytes) (value : Json) (members : JsonObject Json) :
    JsonObject.find key (JsonObject.emplace members other value)
      = (JsonObject.find key members).or (if key = other then some value else none) := by
  unfold JsonObject.emplace
  split
  · rename_i hcontains
    split
    · rename_i heq
      rw [JsonObject.contains, ← heq] at hcontains
      obtain ⟨found, hfound⟩ := Option.isSome_iff_exists.1 hcontains
      rw [hfound]
      rfl
    · rw [Option.or_none]
  · rw [JsonObject.find_append, JsonObject.find_cons, JsonObject.find_nil]
    simp only [eq_comm]

theorem find_toSupportMembers (key : Bytes) (members acc : JsonObject Json) :
    JsonObject.find key (toSupportMembers members acc)
      = (JsonObject.find key acc).or ((JsonObject.find key members).map toSupport) := by
  induction members generalizing acc with
  | nil => simp [toSupportMembers]
  | cons m rest ih =>
    obtain ⟨other, value⟩ := m
    rw [toSupportMembers, ih, find_emplace, JsonObject.find_cons, Option.or_assoc]
    by_cases heq : key = other
    · simp [heq]
    · simp [heq, Ne.symm heq]

theorem find_fromSupportMembers {key : Bytes} (h : fromSupportMembers members acc = .ok converted) :
    JsonObject.find key converted = (JsonObject.find key acc).or
          ((JsonObject.find key members).bind fun value => (fromSupport value).toOption) := by
  induction members generalizing acc with
  | nil =>
    rw [fromSupportMembers, Except.ok.injEq] at h
    simp [h]
  | cons m rest ih =>
    obtain ⟨other, value⟩ := m
    rw [fromSupportMembers, bind_eq_ok] at h
    obtain ⟨item, hitem, hrest⟩ := h
    rw [ih hrest, find_emplace, JsonObject.find_cons, Option.or_assoc]
    by_cases heq : key = other
    · simp [heq, hitem, Except.toOption]
    · simp [heq, Ne.symm heq]

/-! ## A number member -/

/-- The number that an object has under a name, if it has one, is the integer `n`. -/
def Keeps (object : JsonObject Json) (name : String) (n : Int) : Prop :=
  ∀ value, jsonNumberMember object name = some value → value = Double.ofInt n

theorem keeps_of_member {name : String} {n : Int} (h : jsonMember object name = some (number n)) :
    Keeps object name n := by
  intro value hvalue
  rw [jsonNumberMember, h] at hvalue
  exact (Option.some.inj hvalue).symm

/-- A conversion that keeps or drops a number keeps what an object keeps. -/
theorem Keeps.convert {name : String} {n : Int} {f : Json → Option Json} (h : Keeps object name n)
    (hfind : jsonMember converted name = (jsonMember object name).bind f)
    (hnum : ∀ v value, (f v).bind asNumber = some value → v.asNumber = some value) : Keeps converted name n := by
  intro value hvalue
  apply h value
  rw [jsonNumberMember, hfind] at hvalue
  rw [jsonNumberMember]
  cases hmem : jsonMember object name with
  | none => simp [hmem] at hvalue
  | some v => exact hnum v value (by simpa [hmem] using hvalue)

variable {value : Double}

theorem asNumber_written (h : v.written.asNumber = some value) : v.asNumber = some value := by
  cases v with
  | number other =>
    rw [written] at h
    split at h
    · exact h
    · cases h
  | null | bool flag | string text | array items | object members => exact h

theorem asNumber_toSupport (h : (toSupport v).asNumber = some value) : v.asNumber = some value := by
  cases v with
  | number other | null | bool flag | string text | array items | object members => exact h

theorem asNumber_fromSupport {v converted : Json}
    (hcvt : fromSupport v = .ok converted) (h : converted.asNumber = some value) : v.asNumber = some value := by
  cases v with
  | number other =>
    rw [fromSupport] at hcvt
    split at hcvt
    · cases hcvt
      exact h
    · cases hcvt
  | null | bool flag | string text => cases hcvt; exact h
  | array items =>
    simp only [fromSupport, bind_eq_ok, pure_eq_ok] at hcvt
    obtain ⟨items, -, rfl⟩ := hcvt
    exact h
  | object members =>
    simp only [fromSupport, bind_eq_ok, pure_eq_ok] at hcvt
    obtain ⟨members, -, rfl⟩ := hcvt
    exact h

variable {name : String} {n : Int}

theorem Keeps.written (h : Keeps object name n) : Keeps (writtenMembers object) name n := by
  refine h.convert (f := fun v => some v.written) ?_ fun v value hv => asNumber_written hv
  rw [jsonMember, find_writtenMembers, jsonMember]
  cases JsonObject.find (ofString name) object with
  | none | some v => rfl

theorem Keeps.toSupport (h : Keeps object name n) : Keeps (toSupportMembers object []) name n := by
  refine h.convert (f := fun v => some (Support.toSupport v)) ?_ fun v value hv => asNumber_toSupport hv
  rw [jsonMember, find_toSupportMembers, jsonMember, JsonObject.find_nil, Option.none_or]
  cases JsonObject.find (ofString name) object with
  | none | some v => rfl

theorem Keeps.fromSupport (h : Keeps object name n)
    (hcvt : fromSupportMembers object [] = .ok converted) : Keeps converted name n := by
  refine h.convert (f := fun v => (Support.fromSupport v).toOption) ?_ ?_
  · rw [jsonMember, find_fromSupportMembers hcvt, jsonMember, JsonObject.find_nil, Option.none_or]
  intro v value hv
  cases hread : Support.fromSupport v with
  | error e => simp [hread, Except.toOption] at hv
  | ok other =>
    rw [hread] at hv
    exact asNumber_fromSupport hread hv

/-- A read integer is the one that was written, when the integer survives the number format. -/
theorem Keeps.integer (h : Keeps object name n) (hn : (Double.ofInt n).toInt = n) {id : Int}
    (hid : jsonIntegerMember object name = some id) : id = n := by
  rw [jsonIntegerMember, Option.bind_eq_some_iff] at hid
  obtain ⟨value, hvalue, hid⟩ := hid
  split at hid
  · cases hid
    rw [h value hvalue, hn]
  · cases hid

end CodingHarness.Support
