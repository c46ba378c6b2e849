import Mathlib.Order.Lattice
import Mathlib.Data.List.Pairwise
import Mathlib.Data.List.Perm.Subperm

/-!
# Finite maps in key order

`OrdMap K V` is a list of entries in strictly increasing key order. The order is a field of the
structure, so two maps with the same lookups are equal (`ext_find`), and iteration in key order is
a function of the lookups alone.
-/

namespace CodingHarness.Library

universe u v

/-- A finite map whose entries are listed in strictly increasing key order. -/
structure OrdMap (K : Type u) (V : Type v) [LinearOrder K] where
  entries : List (K × V)
  sorted : entries.Pairwise fun a b => a.1 < b.1

namespace OrdMap

variable {K : Type u} {V : Type v} [LinearOrder K]

/-- Lookup in an entry list. -/
def findEntry (x : K) : List (K × V) → Option V
  | [] => none
  | (k, v) :: rest => if x = k then some v else findEntry x rest

/-- Insertion into an ordered entry list; an existing value is replaced. -/
def insertEntry (x : K) (w : V) : List (K × V) → List (K × V)
  | [] => [(x, w)]
  | (k, v) :: rest =>
    if x < k then (x, w) :: (k, v) :: rest
    else if x = k then (x, w) :: rest
    else (k, v) :: insertEntry x w rest

theorem insertEntry_keys (x : K) (w : V) (l : List (K × V)) (e : K × V)
    (he : e ∈ insertEntry x w l) : e.1 = x ∨ e ∈ l := by
  induction l with
  | nil => simp only [insertEntry, List.mem_singleton] at he; exact Or.inl (by rw [he])
  | cons a rest ih =>
    simp only [insertEntry] at he
    split at he
    · rcases List.mem_cons.1 he with rfl | he
      · exact Or.inl rfl
      · exact Or.inr he
    split at he
    · rcases List.mem_cons.1 he with rfl | he
      · exact Or.inl rfl
      · exact Or.inr (List.mem_cons_of_mem _ he)
    rcases List.mem_cons.1 he with rfl | he
    · exact Or.inr List.mem_cons_self
    rcases ih he with h | h
    · exact Or.inl h
    · exact Or.inr (List.mem_cons_of_mem _ h)

theorem insertEntry_sorted (x : K) (w : V) (l : List (K × V)) (hl : l.Pairwise fun a b => a.1 < b.1) :
    (insertEntry x w l).Pairwise fun a b => a.1 < b.1 := by
  induction l with
  | nil => simp [insertEntry]
  | cons a rest ih =>
    obtain ⟨hhead, hrest⟩ := List.pairwise_cons.1 hl
    simp only [insertEntry]
    split
    · rename_i hlt
      refine List.pairwise_cons.2 ⟨?_, hl⟩
      intro e he
      rcases List.mem_cons.1 he with rfl | he
      · exact hlt
      · exact lt_trans hlt (hhead e he)
    rename_i hnlt
    split
    · rename_i heq
      subst heq
      exact List.pairwise_cons.2 ⟨hhead, hrest⟩
    rename_i hne
    refine List.pairwise_cons.2 ⟨?_, ih hrest⟩
    intro e he
    rcases insertEntry_keys x w rest e he with h | h
    · rw [h]
      exact lt_of_le_of_ne (not_lt.1 hnlt) (Ne.symm hne)
    · exact hhead e h

/-- The empty map. -/
def empty : OrdMap K V := ⟨[], List.Pairwise.nil⟩

/-- Lookup by exact key. -/
def find (m : OrdMap K V) (x : K) : Option V := findEntry x m.entries

/-- Whether a key is present. -/
def contains (m : OrdMap K V) (x : K) : Bool := (m.find x).isSome

/-- Insert a value, replacing the one already stored under the key. -/
def insert (m : OrdMap K V) (x : K) (w : V) : OrdMap K V :=
  ⟨insertEntry x w m.entries, insertEntry_sorted x w m.entries m.sorted⟩

instance [DecidableEq V] : DecidableEq (OrdMap K V) := fun m n =>
  decidable_of_iff (m.entries = n.entries) ⟨fun h => by cases m; cases n; cases h; rfl, congrArg _⟩

/-- The values in key order. -/
def values (m : OrdMap K V) : List V := m.entries.map Prod.snd

/-- The number of entries. -/
def size (m : OrdMap K V) : Nat := m.entries.length

@[simp] theorem find_empty (x : K) : (empty : OrdMap K V).find x = none := rfl

theorem findEntry_insertEntry (x y : K) (w : V) (l : List (K × V)) :
    findEntry y (insertEntry x w l) = if y = x then some w else findEntry y l := by
  induction l with
  | nil => simp [insertEntry, findEntry]
  | cons a rest ih =>
    simp only [insertEntry]
    split
    · simp [findEntry]
    split
    · rename_i heq
      subst heq
      simp only [findEntry]
      split <;> rfl
    rename_i hne
    simp only [findEntry, ih]
    split
    · rename_i hyk
      subst hyk
      simp [Ne.symm hne]
    · rfl

@[simp] theorem find_insert (m : OrdMap K V) (x y : K) (w : V) :
    (m.insert x w).find y = if y = x then some w else m.find y :=
  findEntry_insertEntry x y w m.entries

/-- An entry after an insertion is the new one, or was there before. -/
theorem find_insert_cases {m : OrdMap K V} {x y : K} {v w : V} (h : (m.insert x w).find y = some v) :
    (y = x ∧ w = v) ∨ m.find y = some v := by
  rw [find_insert] at h
  split at h
  · next heq => exact .inl ⟨heq, Option.some.inj h⟩
  · exact .inr h

theorem find_insert_self (m : OrdMap K V) (x : K) (w : V) : (m.insert x w).find x = some w := by
  simp

theorem contains_eq_true_iff (m : OrdMap K V) (x : K) : m.contains x = true ↔ ∃ v, m.find x = some v := by
  rw [contains, Option.isSome_iff_exists]

theorem contains_eq_false_iff (m : OrdMap K V) (x : K) : m.contains x = false ↔ m.find x = none := by
  simp [contains]

theorem findEntry_eq_none_of_lt (x : K) (l : List (K × V)) (h : ∀ e ∈ l, x < e.1) : findEntry x l = none := by
  induction l with
  | nil => rfl
  | cons a rest ih =>
    obtain ⟨k, v⟩ := a
    have hk : x < k := h (k, v) List.mem_cons_self
    simp only [findEntry, ne_of_lt hk, if_false]
    exact ih fun e he => h e (List.mem_cons_of_mem _ he)

theorem findEntry_eq_some_iff (x : K) (w : V) (l : List (K × V))
    (hl : l.Pairwise fun a b => a.1 < b.1) : findEntry x l = some w ↔ (x, w) ∈ l := by
  induction l with
  | nil => simp [findEntry]
  | cons a rest ih =>
    obtain ⟨k, v⟩ := a
    obtain ⟨hhead, hrest⟩ := List.pairwise_cons.1 hl
    simp only [findEntry, List.mem_cons, Prod.mk.injEq]
    split
    · rename_i heq
      subst heq
      constructor
      · intro h
        exact Or.inl ⟨rfl, (Option.some.inj h).symm⟩
      rintro (⟨-, rfl⟩ | hmem)
      · rfl
      · exact absurd (hhead _ hmem) (lt_irrefl _)
    rename_i hne
    rw [ih hrest]
    simp [hne]

@[simp] theorem contains_insert (m : OrdMap K V) (x y : K) (w : V) :
    (m.insert x w).contains y = (decide (y = x) || m.contains y) := by
  by_cases h : y = x <;> simp [h, contains]

theorem find_eq_some_iff (m : OrdMap K V) (x : K) (w : V) : m.find x = some w ↔ (x, w) ∈ m.entries :=
  findEntry_eq_some_iff x w m.entries m.sorted

theorem mem_values_of_find {m : OrdMap K V} {x : K} {w : V} (h : m.find x = some w) : w ∈ m.values :=
  List.mem_map.2 ⟨(x, w), (m.find_eq_some_iff x w).1 h, rfl⟩

theorem insertEntry_length_of_absent (x : K) (w : V) (l : List (K × V))
    (h : findEntry x l = none) : (insertEntry x w l).length = l.length + 1 := by
  induction l with
  | nil => rfl
  | cons a rest ih =>
    rw [findEntry] at h
    split at h
    · cases h
    rename_i hne
    simp only [insertEntry, hne, if_false]
    split
    · simp
    · simp [ih h]

theorem size_insert_of_absent (m : OrdMap K V) {x : K} (w : V) (h : m.find x = none) :
    (m.insert x w).size = m.size + 1 :=
  insertEntry_length_of_absent x w m.entries h

theorem length_le_size (m : OrdMap K V) {keys : List K} (hnodup : keys.Nodup)
    (hstored : ∀ x ∈ keys, ∃ v, m.find x = some v) : keys.length ≤ m.size := by
  have hsubset : keys ⊆ m.entries.map Prod.fst := by
    intro x hx
    obtain ⟨v, hv⟩ := hstored x hx
    exact List.mem_map.2 ⟨(x, v), (m.find_eq_some_iff x v).1 hv, rfl⟩
  have hle := (List.subperm_of_subset hnodup hsubset).length_le
  rwa [List.length_map] at hle

theorem entries_ext (l l' : List (K × V)) (hl : l.Pairwise fun a b => a.1 < b.1)
    (hl' : l'.Pairwise fun a b => a.1 < b.1) (h : ∀ x, findEntry x l = findEntry x l') : l = l' := by
  induction l generalizing l' with
  | nil =>
    cases l' with
    | nil => rfl
    | cons a rest =>
      have hk := h a.1
      simp [findEntry] at hk
  | cons a rest ih =>
    obtain ⟨k, v⟩ := a
    obtain ⟨hhead, hrest⟩ := List.pairwise_cons.1 hl
    cases l' with
    | nil =>
      have hk := h k
      simp [findEntry] at hk
    | cons b rest' =>
      obtain ⟨k', v'⟩ := b
      obtain ⟨hhead', hrest'⟩ := List.pairwise_cons.1 hl'
      -- The least keys agree: a smaller one on either side would be missing on the other.
      have hkk : k = k' := by
        rcases lt_trichotomy k k' with hlt | heq | hgt
        · have hk := h k
          rw [findEntry, if_pos rfl, findEntry_eq_none_of_lt k ((k', v') :: rest')] at hk
          · cases hk
          intro e he
          rcases List.mem_cons.1 he with rfl | he
          · exact hlt
          · exact lt_trans hlt (hhead' e he)
        · exact heq
        · have hk := h k'
          rw [findEntry_eq_none_of_lt k' ((k, v) :: rest), findEntry, if_pos rfl] at hk
          · cases hk
          intro e he
          rcases List.mem_cons.1 he with rfl | he
          · exact hgt
          · exact lt_trans hgt (hhead e he)
      subst hkk
      have hv : v = v' := by
        have hk := h k
        simpa [findEntry] using hk
      subst hv
      have htail : rest = rest' := by
        refine ih rest' hrest hrest' fun x => ?_
        by_cases hx : x = k
        · subst hx
          rw [findEntry_eq_none_of_lt x rest hhead, findEntry_eq_none_of_lt x rest' hhead']
        · have hk := h x
          simpa [findEntry, hx] using hk
      rw [htail]

/-- **Maps with the same lookups are equal.** -/
theorem ext_find {m n : OrdMap K V} (h : ∀ x, m.find x = n.find x) : m = n := by
  obtain ⟨l, hl⟩ := m
  obtain ⟨l', hl'⟩ := n
  have : l = l' := entries_ext l l' hl hl' h
  subst this
  rfl

/-- Remove a key. -/
def erase (m : OrdMap K V) (x : K) : OrdMap K V := ⟨m.entries.filter fun e => decide (e.1 ≠ x), m.sorted.filter _⟩

@[simp] theorem find_erase (m : OrdMap K V) (x y : K) : (m.erase x).find y = if y = x then none else m.find y := by
  ext w
  rw [find_eq_some_iff, erase, List.mem_filter, ← find_eq_some_iff]
  split
  · rename_i heq
    simp [heq]
  · rename_i hne
    simp [hne]

/-- Keep the keys that satisfy a test. -/
def filter (m : OrdMap K V) (p : K → Bool) : OrdMap K V := ⟨m.entries.filter fun e => p e.1, m.sorted.filter _⟩

/-! ## Emplacing entry by entry -/

/-- Add an entry unless its key is present. -/
def emplace (m : OrdMap K V) (x : K) (w : V) : OrdMap K V := if m.contains x then m else m.insert x w

/-- Add the entries of a list in order. -/
def emplaceAll (m : OrdMap K V) (l : List (K × V)) : OrdMap K V := l.foldl (fun m e => m.emplace e.1 e.2) m

theorem find_emplace (m : OrdMap K V) (x y : K) (w : V) :
    (m.emplace x w).find y = (m.find y).or (if y = x then some w else none) := by
  unfold emplace
  cases hx : m.contains x with
  | true =>
    obtain ⟨v, hv⟩ := (m.contains_eq_true_iff x).1 hx
    by_cases hy : y = x
    · subst hy
      simp [hv]
    · simp [hy]
  | false =>
    rw [contains_eq_false_iff] at hx
    by_cases hy : y = x
    · subst hy
      simp [hx]
    · simp [hy]

theorem find_emplaceAll (m : OrdMap K V) (l : List (K × V)) (y : K) :
    (m.emplaceAll l).find y = (m.find y).or (findEntry y l) := by
  induction l generalizing m with
  | nil => simp [emplaceAll, findEntry]
  | cons e rest ih =>
    obtain ⟨k, v⟩ := e
    have hstep := ih (m.emplace k v)
    rw [find_emplace, Option.or_assoc] at hstep
    refine hstep.trans ?_
    by_cases hy : y = k <;> simp [findEntry, hy]

theorem find_insertValues (base m : OrdMap K V) (key : V → K) (hkey : ∀ x w, m.find x = some w → key w = x) (y : K) :
    (m.values.foldl (fun b w => b.insert (key w) w) base).find y = (m.find y).or (base.find y) := by
  obtain ⟨entries, hsorted⟩ := m
  have hkeys : ∀ e ∈ entries, key e.2 = e.1 := fun e he =>
    hkey e.1 e.2 ((findEntry_eq_some_iff e.1 e.2 entries hsorted).2 he)
  change ((entries.map Prod.snd).foldl (fun b w => b.insert (key w) w) base).find y
    = (findEntry y entries).or (base.find y)
  clear hkey
  induction entries generalizing base with
  | nil => simp [findEntry]
  | cons e rest ih =>
    obtain ⟨k, v⟩ := e
    rw [List.pairwise_cons] at hsorted
    have hk : key v = k := hkeys (k, v) List.mem_cons_self
    rw [List.map_cons, List.foldl_cons,
      ih _ hsorted.2 fun e he => hkeys e (List.mem_cons_of_mem _ he), hk, find_insert, findEntry]
    by_cases hy : y = k
    · subst hy
      simp [findEntry_eq_none_of_lt y rest hsorted.1]
    · simp [hy]

theorem emplaceAll_entries (m : OrdMap K V) : empty.emplaceAll m.entries = m := by
  apply ext_find
  intro x
  rw [find_emplaceAll, find_empty, Option.none_or]
  rfl

end OrdMap

end CodingHarness.Library
