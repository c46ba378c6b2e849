import CodingHarness.Support.JsonGrammar
import Mathlib.Data.List.Sort

/-!
# Canonical JSON text

`canonical_json` writes the members of every object in the order of their keys, so the text does not depend on
the order in which they were inserted: two values have one canonical text exactly when they differ in that order
only (`canonicalJson_eq_iff`), and reading the text gives a value that does.
-/

namespace CodingHarness.Support

open Library
open List (append_assoc map_append map_cons mem_cons_of_mem mem_cons_self)

/-! ## Writing -/

/-- `left.key < right.key`: the order of strings by their bytes. -/
def keyLess : Bytes → Bytes → Bool
  | [], [] => false
  | [], _ :: _ => true
  | _ :: _, [] => false
  | a :: as, b :: bs => a.toNat < b.toNat || (a = b && keyLess as bs)

def sortMembers {α : Type} (members : List (Bytes × α)) : List (Bytes × α) :=
  members.insertionSort fun a b => keyLess b.1 a.1 = false

/-- Keys and texts of values, as the members of an object. -/
def writeTexts (first : Bool) : List (Bytes × Bytes) → Bytes
  | [] => []
  | (key, text) :: rest =>
    (if first then [] else [0x2C]) ++ (writeString key ++ 0x3A :: (text ++ writeTexts false rest))

mutual
/-- `write_value` in sorted order. -/
def writeSorted : Json → Bytes
  | .null => "null"
  | .bool flag => if flag then "true" else "false"
  | .number value => formatNumber value
  | .string text => writeString text
  | .array items => 0x5B :: (writeSortedItems true items ++ [0x5D])
  | .object members => 0x7B :: (writeTexts true (sortMembers (writeSortedMembers members)) ++ [0x7D])
/-- The items of an array, with a comma before all but the first. -/
def writeSortedItems (first : Bool) : List Json → Bytes
  | [] => []
  | item :: rest =>
    (if first then [] else [0x2C]) ++ (writeSorted item ++ writeSortedItems false rest)
/-- The members of an object, each with the text of its value. -/
def writeSortedMembers : List (Bytes × Json) → List (Bytes × Bytes)
  | [] => []
  | (key, value) :: rest => (key, writeSorted value) :: writeSortedMembers rest
end

def canonicalJson (value : Json) : Bytes := writeSorted value

/-! ## Member order -/

namespace Json

/-- Two values that differ in the order of object members only, at any level. -/
inductive Reordered : Json → Json → Prop
  | refl (v : Json) : Reordered v v
  | trans {u v w : Json} (h : Reordered u v) (h' : Reordered v w) : Reordered u w
  | members {members others : List (Bytes × Json)} (h : members.Perm others) :
      Reordered (.object members) (.object others)
  | item {v w : Json} (before after : List Json) (h : Reordered v w) :
      Reordered (.array (before ++ v :: after)) (.array (before ++ w :: after))
  | member {v w : Json} (before after : List (Bytes × Json)) (key : Bytes) (h : Reordered v w) :
      Reordered (.object (before ++ (key, v) :: after)) (.object (before ++ (key, w) :: after))

mutual
/-- The value with the members of every object in the order of their keys. -/
def sorted : Json → Json
  | .array items => .array (sortedItems items)
  | .object members => .object (sortMembers (sortedMembers members))
  | v => v
def sortedItems : List Json → List Json
  | [] => []
  | v :: rest => sorted v :: sortedItems rest
def sortedMembers : List (Bytes × Json) → List (Bytes × Json)
  | [] => []
  | (key, v) :: rest => (key, sorted v) :: sortedMembers rest
end

theorem sortedItems_eq (items : List Json) : sortedItems items = items.map sorted := by
  induction items with
  | nil => rfl
  | cons v rest ih => rw [sortedItems, ih, map_cons]

theorem sortedMembers_eq (members : List (Bytes × Json)) :
    sortedMembers members = members.map fun m => (m.1, sorted m.2) := by
  induction members with
  | nil => rfl
  | cons m rest ih =>
    obtain ⟨key, v⟩ := m
    rw [sortedMembers, ih, map_cons]

end Json

/-! ## Sorting -/

theorem keyLess_irrefl (a : Bytes) : keyLess a a = false := by
  induction a with
  | nil => rfl
  | cons c rest ih => simp [keyLess, ih]

theorem keyLess_trans {a b c : Bytes} (h : keyLess a b = true) (h' : keyLess b c = true) : keyLess a c = true := by
  induction a generalizing b c with
  | nil =>
    cases b with
    | nil => exact nomatch h
    | cons _ _ =>
      cases c with
      | nil => exact nomatch h'
      | cons _ _ => rfl
  | cons x as ih =>
    cases b with
    | nil => exact nomatch h
    | cons y bs =>
      cases c with
      | nil => exact nomatch h'
      | cons z cs =>
        simp only [keyLess, Bool.or_eq_true, Bool.and_eq_true, decide_eq_true_eq] at h h' ⊢
        rcases h with h | ⟨rfl, h⟩
        · rcases h' with h' | ⟨rfl, -⟩
          · exact Or.inl (h.trans h')
          · exact Or.inl h
        rcases h' with h' | ⟨rfl, h'⟩
        · exact Or.inl h'
        · exact Or.inr ⟨rfl, ih h h'⟩

theorem keyLess_total (a b : Bytes) : keyLess a b = true ∨ a = b ∨ keyLess b a = true := by
  induction a generalizing b with
  | nil =>
    cases b with
    | nil => exact Or.inr (Or.inl rfl)
    | cons _ _ => exact Or.inl rfl
  | cons x as ih =>
    cases b with
    | nil => exact Or.inr (Or.inr rfl)
    | cons y bs =>
      simp only [keyLess, Bool.or_eq_true, Bool.and_eq_true, decide_eq_true_eq]
      rcases Nat.lt_trichotomy x.toNat y.toNat with h | h | h
      · exact Or.inl (Or.inl h)
      · obtain rfl := UInt8.toNat_inj.1 h
        rcases ih bs with h | rfl | h
        · exact Or.inl (Or.inr ⟨rfl, h⟩)
        · exact Or.inr (Or.inl rfl)
        · exact Or.inr (Or.inr (Or.inr ⟨rfl, h⟩))
      · exact Or.inr (Or.inr (Or.inl h))

theorem keyLess_asymm {a b : Bytes} (h : keyLess a b = true) : keyLess b a = false := by
  cases hba : keyLess b a with
  | false => rfl
  | true => exact absurd (keyLess_trans h hba) (by simp [keyLess_irrefl])

section Sorting

variable {α β : Type}

instance : Std.Total fun a b : Bytes × α => keyLess b.1 a.1 = false where
  total a b := by
    cases hba : keyLess b.1 a.1 with
    | false => exact Or.inl rfl
    | true => exact Or.inr (keyLess_asymm hba)

instance : IsTrans (Bytes × α) fun a b => keyLess b.1 a.1 = false where
  trans a b c hab hbc := by
    rcases keyLess_total c.1 b.1 with h | h | h
    · exact absurd h (by simp [hbc])
    · rwa [h]
    · rcases keyLess_total b.1 a.1 with h' | h' | h'
      · exact absurd h' (by simp [hab])
      · rw [← h']
        exact keyLess_asymm h
      · exact keyLess_asymm (keyLess_trans h' h)

theorem sortMembers_perm (members : List (Bytes × α)) : (sortMembers members).Perm members :=
  List.perm_insertionSort _ members

theorem sortMembers_map (f : α → β) (members : List (Bytes × α)) :
    sortMembers (members.map fun m => (m.1, f m.2)) = (sortMembers members).map fun m => (m.1, f m.2) :=
  (List.map_insertionSort (fun a b : Bytes × α => keyLess b.1 a.1 = false)
    (fun a b : Bytes × β => keyLess b.1 a.1 = false) _ _ fun _ _ _ _ => Iff.rfl).symm

theorem sortMembers_pairwise {members : List (Bytes × α)} (hnodup : JsonObject.NodupKeys members) :
    (sortMembers members).Pairwise fun a b => keyLess a.1 b.1 = true := by
  have hsorted : (sortMembers members).Pairwise fun a b => keyLess b.1 a.1 = false := List.pairwise_insertionSort _ _
  have hkeys : (sortMembers members).Pairwise fun a b => a.1 ≠ b.1 := by
    have hperm := (sortMembers_perm members).map Prod.fst
    exact List.pairwise_map.1 (hperm.nodup_iff.2 hnodup)
  refine (hsorted.and hkeys).imp fun {a b} h => ?_
  rcases keyLess_total a.1 b.1 with hlt | heq | hgt
  · exact hlt
  · exact absurd heq h.2
  · exact absurd hgt (by simp [h.1])

theorem sortMembers_congr {members others : List (Bytes × α)} (hnodup : JsonObject.NodupKeys members)
    (h : members.Perm others) : sortMembers members = sortMembers others := by
  have hother : JsonObject.NodupKeys others := (h.map Prod.fst).nodup_iff.1 hnodup
  refine List.Perm.eq_of_pairwise (fun a b _ _ hab hba => ?_) (sortMembers_pairwise hnodup)
    (sortMembers_pairwise hother) ?_
  · exact absurd hba (by simp [keyLess_asymm hab])
  · exact (sortMembers_perm members).trans (h.trans (sortMembers_perm others).symm)

end Sorting

/-! ## Canonical text is the text of the sorted value -/

theorem writeTexts_eq (first : Bool) (members : List (Bytes × Json)) :
    writeTexts first (members.map fun m => (m.1, writeValue m.2)) = writeMembers first members := by
  induction members generalizing first with
  | nil => rfl
  | cons m rest ih =>
    obtain ⟨key, value⟩ := m
    rw [map_cons, writeTexts, writeMembers, ih]

theorem writeSortedMembers_eq {members : List (Bytes × Json)}
    (h : ∀ m ∈ members, writeSorted m.2 = writeValue m.2.sorted) :
    writeSortedMembers members = (Json.sortedMembers members).map fun m => (m.1, writeValue m.2) := by
  induction members with
  | nil => rfl
  | cons m rest ih =>
    obtain ⟨key, value⟩ := m
    rw [writeSortedMembers, Json.sortedMembers, map_cons, h (key, value) mem_cons_self,
      ih fun m hm => h m (mem_cons_of_mem _ hm)]

theorem writeSortedItems_eq {items : List Json} (h : ∀ v ∈ items, writeSorted v = writeValue v.sorted)
    (first : Bool) : writeSortedItems first items = writeItems first (Json.sortedItems items) := by
  induction items generalizing first with
  | nil => rfl
  | cons v rest ih =>
    rw [writeSortedItems, Json.sortedItems, writeItems, h v mem_cons_self, ih fun w hw => h w (mem_cons_of_mem _ hw)]

theorem writeSorted_eq (v : Json) : writeSorted v = writeValue v.sorted := by
  induction v using Json.rec' with
  | hnull | hbool flag | hnum value | hstr text => rfl
  | harray items ih => rw [writeSorted, Json.sorted, writeValue, writeSortedItems_eq ih]
  | hobj members ih =>
    rw [writeSorted, Json.sorted, writeValue, writeSortedMembers_eq ih, sortMembers_map, writeTexts_eq]

/-! ## Sorted values -/

namespace Json

variable {members : List (Bytes × Json)}

theorem mem_sortMembers {m : Bytes × Json} :
    m ∈ sortMembers (sortedMembers members) ↔ ∃ old ∈ members, m = (old.1, old.2.sorted) := by
  rw [(sortMembers_perm _).mem_iff, sortedMembers_eq, List.mem_map]
  simp [eq_comm]

theorem nodupKeys_sorted (h : JsonObject.NodupKeys members) :
    JsonObject.NodupKeys (sortMembers (sortedMembers members)) := by
  have hkeys : (sortedMembers members).map Prod.fst = members.map Prod.fst := by
    rw [sortedMembers_eq, List.map_map]
    rfl
  rw [JsonObject.NodupKeys, ((sortMembers_perm _).map Prod.fst).nodup_iff, hkeys]
  exact h

theorem sorted_wf {v : Json} (h : v.WF) : v.sorted.WF := by
  induction v using Json.rec' with
  | hnull | hbool flag | hnum value | hstr text => exact h
  | harray items ih =>
    rw [wf_array] at h
    rw [sorted, sortedItems_eq, wf_array]
    intro w hw
    obtain ⟨v, hv, rfl⟩ := List.mem_map.1 hw
    exact ih v hv (h v hv)
  | hobj members ih =>
    rw [wf_object] at h
    rw [sorted, wf_object]
    refine ⟨nodupKeys_sorted h.1, fun m hm => ?_⟩
    obtain ⟨old, hold, rfl⟩ := mem_sortMembers.1 hm
    exact ih old hold (h.2 old hold)

theorem sorted_finite {v : Json} (h : v.Finite) : v.sorted.Finite := by
  induction v using Json.rec' with
  | hnull | hbool flag | hnum value | hstr text => exact h
  | harray items ih =>
    rw [finite_array] at h
    rw [sorted, sortedItems_eq, finite_array]
    intro w hw
    obtain ⟨v, hv, rfl⟩ := List.mem_map.1 hw
    exact ih v hv (h v hv)
  | hobj members ih =>
    rw [finite_object] at h
    rw [sorted, finite_object]
    intro m hm
    obtain ⟨old, hold, rfl⟩ := mem_sortMembers.1 hm
    exact ih old hold (h old hold)

/-! ## Values up to member order -/

theorem Reordered.items {items : List Json} (f : Json → Json) (h : ∀ v ∈ items, Reordered v (f v)) :
    Reordered (.array items) (.array (items.map f)) := by
  suffices hprefix : ∀ before, Reordered (.array (before ++ items)) (.array (before ++ items.map f)) from hprefix []
  induction items with
  | nil => exact fun before => .refl _
  | cons v rest ih =>
    intro before
    have hrest := ih (fun w hw => h w (mem_cons_of_mem _ hw)) (before ++ [f v])
    rw [append_assoc, append_assoc] at hrest
    exact (Reordered.item before rest (h v mem_cons_self)).trans hrest

theorem Reordered.values (f : Json → Json) (h : ∀ m ∈ members, Reordered m.2 (f m.2)):
    Reordered (.object members) (.object (members.map fun m => (m.1, f m.2))) := by
  suffices hprefix : ∀ before, Reordered (.object (before ++ members))
      (.object (before ++ members.map fun m => (m.1, f m.2))) from hprefix []
  induction members with
  | nil => exact fun before => .refl _
  | cons m rest ih =>
    intro before
    have hrest := ih (fun w hw => h w (mem_cons_of_mem _ hw)) (before ++ [(m.1, f m.2)])
    rw [append_assoc, append_assoc] at hrest
    exact (Reordered.member before rest m.1 (h m mem_cons_self)).trans hrest

theorem reordered_sorted (v : Json) : Reordered v v.sorted := by
  induction v using Json.rec' with
  | hnull | hbool flag | hnum value | hstr text => exact .refl _
  | harray items ih =>
    rw [sorted, sortedItems_eq]
    exact .items sorted ih
  | hobj members ih =>
    rw [sorted]
    have hvalues := Reordered.values sorted ih
    rw [← sortedMembers_eq] at hvalues
    exact hvalues.trans (.members (sortMembers_perm _).symm)

theorem Reordered.symm {v w : Json} (h : Reordered v w) : Reordered w v := by
  induction h with
  | refl v => exact .refl v
  | trans _ _ ih ih' => exact ih'.trans ih
  | members h => exact .members h.symm
  | item before after _ ih => exact .item before after ih
  | member before after key _ ih => exact .member before after key ih

theorem Reordered.sorted_eq {v w : Json} (h : Reordered v w) (hwf : v.WF) : w.WF ∧ v.sorted = w.sorted := by
  induction h with
  | refl v => exact ⟨hwf, rfl⟩
  | trans _ _ ih ih' =>
    obtain ⟨hmid, heq⟩ := ih hwf
    obtain ⟨hlast, heq'⟩ := ih' hmid
    exact ⟨hlast, heq.trans heq'⟩
  | @members members others h =>
    rw [wf_object] at hwf
    refine ⟨(wf_object _).2 ⟨(h.map Prod.fst).nodup_iff.1 hwf.1, fun m hm => hwf.2 m (h.mem_iff.2 hm)⟩, ?_⟩
    have hkeys : JsonObject.NodupKeys (sortedMembers members) := by
      rw [sortedMembers_eq, JsonObject.NodupKeys, List.map_map]
      exact hwf.1
    rw [sorted, sorted]
    refine congrArg object (sortMembers_congr hkeys ?_)
    rw [sortedMembers_eq, sortedMembers_eq]
    exact h.map _
  | item before after h ih =>
    rw [wf_array] at hwf
    obtain ⟨hw, heq⟩ := ih (hwf _ (by simp))
    refine ⟨(wf_array _).2 fun u hu => ?_, ?_⟩
    · rcases List.mem_append.1 hu with hu | hu
      · exact hwf u (List.mem_append_left _ hu)
      · rcases List.mem_cons.1 hu with rfl | hu
        · exact hw
        · exact hwf u (List.mem_append_right _ (mem_cons_of_mem _ hu))
    · rw [sorted, sorted, sortedItems_eq, sortedItems_eq, map_append, map_append, map_cons, map_cons, heq]
  | member before after key h ih =>
    rw [wf_object] at hwf
    obtain ⟨hw, heq⟩ := ih (hwf.2 (key, _) (by simp))
    refine ⟨(wf_object _).2 ⟨?_, fun m hm => ?_⟩, ?_⟩
    · have hkeys := hwf.1
      rw [JsonObject.NodupKeys, map_append, map_cons] at hkeys ⊢
      exact hkeys
    · rcases List.mem_append.1 hm with hm | hm
      · exact hwf.2 m (List.mem_append_left _ hm)
      · rcases List.mem_cons.1 hm with rfl | hm
        · exact hw
        · exact hwf.2 m (List.mem_append_right _ (mem_cons_of_mem _ hm))
    · rw [sorted, sorted, sortedMembers_eq, sortedMembers_eq, map_append, map_append, map_cons, map_cons, heq]

end Json

/-! ## Reading canonical text -/

theorem readJson_canonicalJson {v : Json} (hfinite : v.Finite) (hwf : v.WF) :
    readJson (canonicalJson v) = .ok v.sorted := by
  rw [canonicalJson, writeSorted_eq]
  exact readJson_writeJson (Json.sorted_finite hfinite) (Json.sorted_wf hwf)

/-- **Canonical texts** are equal exactly for values that differ in member order only. -/
theorem canonicalJson_eq_iff {v w : Json} (hv : v.Finite) (hvwf : v.WF) (hw : w.Finite) (hwwf : w.WF) :
    canonicalJson v = canonicalJson w ↔ Json.Reordered v w := by
  constructor
  · intro heq
    have hread := readJson_canonicalJson hv hvwf
    rw [heq, readJson_canonicalJson hw hwwf] at hread
    have hsorted : w.sorted = v.sorted := Except.ok.inj hread
    exact (Json.reordered_sorted v).trans (hsorted ▸ (Json.reordered_sorted w).symm)
  · intro hreordered
    rw [canonicalJson, canonicalJson, writeSorted_eq, writeSorted_eq, (hreordered.sorted_eq hvwf).2]

/-- **JSON text is exact**: written text reads back as the value itself, and canonical text tells values apart up to
member order. The keys of an object are distinct in every value of the program. -/
theorem jsonText_exact {v : Json} (hfinite : v.Finite) (hwf : v.WF) : readJson (writeJson v) = .ok v ∧
      (∃ w, readJson (canonicalJson v) = .ok w ∧ Json.Reordered v w) ∧
      ∀ w : Json, w.Finite → w.WF → (canonicalJson v = canonicalJson w ↔ Json.Reordered v w) :=
  ⟨readJson_writeJson hfinite hwf, ⟨v.sorted, readJson_canonicalJson hfinite hwf, Json.reordered_sorted v⟩,
    fun _ hw hwwf => canonicalJson_eq_iff hfinite hwf hw hwwf⟩

/-- An object whose keys are out of order, with a control byte and a number below the fixed range. -/
def sampleValue : Json :=
  .object [("b", .array [.number (Double.ofInt (-7)), .string [0x0A, 0x22, 0x80]]), ("a", .null)]

theorem jsonText_exact_sample : readJson (writeJson sampleValue) = .ok sampleValue ∧
      (∃ w, readJson (canonicalJson sampleValue) = .ok w ∧ Json.Reordered sampleValue w) ∧
      ∀ w : Json, w.Finite → w.WF → (canonicalJson sampleValue = canonicalJson w ↔ Json.Reordered sampleValue w) := by
  have hnumber : (Double.ofInt (-7)).isFinite = true := by decide +kernel
  have hkeys : ofString "b" ≠ "a" := by decide +kernel
  refine jsonText_exact ?_ ?_
  · simp [sampleValue, hnumber]
  · simp [sampleValue, JsonObject.NodupKeys, hkeys, Json.WF, Json.WFItems]

example : canonicalJson sampleValue = ofString "\x7b\"a\":null,\"b\":[-7,\"\\n\\\"" ++ 0x80 :: "\"]\x7d" := by
  decide +kernel

end CodingHarness.Support
