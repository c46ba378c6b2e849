import Mathlib.Data.List.TakeDrop

/-!
# Vectors with checked access

A vector of C++ is a list here, and an operation outside its bounds has no result. `slice?` copies a range,
`eraseSlice?` removes one and `insertAt?` puts elements before a position.
-/

namespace CodingHarness.Library

open List (length_append length_map map_cons map_drop map_take)

universe u

variable {α : Type u}

/-- The range from `start` to `stop` of a vector. -/
def slice? (items : List α) (start stop : Nat) : Option (List α) :=
  if start ≤ stop ∧ stop ≤ items.length then some ((items.take stop).drop start) else none

/-- A vector without the range from `start` to `stop`. -/
def eraseSlice? (items : List α) (start stop : Nat) : Option (List α) :=
  if start ≤ stop ∧ stop ≤ items.length then some (items.take start ++ items.drop stop) else none

/-- A vector with further elements at a position. -/
def insertAt? (items : List α) (position : Nat) (inserted : List α) : Option (List α) :=
  if position ≤ items.length then some (items.take position ++ inserted ++ items.drop position) else none

/-- Set the element at an index. -/
def setAt? (items : List α) (index : Nat) (item : α) : Option (List α) :=
  if index < items.length then some (items.set index item) else none

/-! ## Lengths -/

variable {items result : List α} {start stop index : Nat} {item : α} {inserted : List α}

theorem length_of_slice? (h : slice? items start stop = some result) :
    start ≤ stop ∧ stop ≤ items.length ∧ result.length = stop - start := by
  unfold slice? at h
  split at h
  · next hrange =>
    cases h
    exact ⟨hrange.1, hrange.2, by rw [List.length_drop, List.length_take]; omega⟩
  · cases h

theorem length_of_eraseSlice? (h : eraseSlice? items start stop = some result) :
    start ≤ stop ∧ stop ≤ items.length ∧ result.length = items.length - (stop - start) := by
  unfold eraseSlice? at h
  split at h
  · next hrange =>
    cases h
    exact ⟨hrange.1, hrange.2, by
      rw [length_append, List.length_take, List.length_drop]; omega⟩
  · cases h

theorem length_of_insertAt? (h : insertAt? items index inserted = some result) :
    index ≤ items.length ∧ result.length = items.length + inserted.length := by
  unfold insertAt? at h
  split at h
  · next hindex =>
    cases h
    simp only [length_append, List.length_take, List.length_drop]
    omega
  · cases h

theorem length_of_setAt? (h : setAt? items index item = some result) :
    index < items.length ∧ result.length = items.length := by
  unfold setAt? at h
  split at h
  · next hindex =>
    cases h
    exact ⟨hindex, List.length_set⟩
  · cases h

variable {β : Type u} {f : α → Option β}

theorem length_of_mapM {results : List β} (h : items.mapM f = some results) : results.length = items.length := by
  induction items generalizing results with
  | nil =>
    cases h
    rfl
  | cons first rest ih =>
    rw [List.mapM_cons] at h
    simp only [Option.bind_eq_bind, Option.bind_eq_some_iff] at h
    obtain ⟨image, -, images, himages, heq⟩ := h
    cases heq
    rw [List.length_cons, List.length_cons, ih himages]

/-! ## Results -/

theorem slice?_tail (h : start ≤ items.length) : slice? items start items.length = some (items.drop start) := by
  rw [slice?, if_pos ⟨h, Nat.le_refl _⟩, List.take_length]

theorem eraseSlice?_tail (h : start ≤ items.length) :
    eraseSlice? items start items.length = some (items.take start) := by
  rw [eraseSlice?, if_pos ⟨h, Nat.le_refl _⟩, List.drop_length, List.append_nil]

variable {x : α}

theorem mem_of_slice? (h : slice? items start stop = some result) (hx : x ∈ result) : x ∈ items := by
  unfold slice? at h
  split at h
  · cases h
    exact List.mem_of_mem_take (List.mem_of_mem_drop hx)
  · cases h

theorem mem_of_eraseSlice? (h : eraseSlice? items start stop = some result) (hx : x ∈ result) : x ∈ items := by
  unfold eraseSlice? at h
  split at h
  · cases h
    exact (List.mem_append.1 hx).elim List.mem_of_mem_take List.mem_of_mem_drop
  · cases h

theorem mem_of_insertAt? (h : insertAt? items index inserted = some result) (hx : x ∈ result) :
    x ∈ items ∨ x ∈ inserted := by
  unfold insertAt? at h
  split at h
  · cases h
    rcases List.mem_append.1 hx with hx | hx
    · exact (List.mem_append.1 hx).imp_left List.mem_of_mem_take
    · exact .inl (List.mem_of_mem_drop hx)
  · cases h

theorem mem_of_setAt? (h : setAt? items index item = some result) (hx : x ∈ result) : x ∈ items ∨ x = item := by
  unfold setAt? at h
  split at h
  · cases h
    exact List.mem_or_eq_of_mem_set hx
  · cases h

variable {p : α → β → Prop}

theorem exists_mapM (h : ∀ x ∈ items, ∃ y, f x = some y ∧ p x y) :
    ∃ images, items.mapM f = some images ∧ List.Forall₂ p items images := by
  induction items with
  | nil => exact ⟨[], rfl, .nil⟩
  | cons first rest ih =>
    obtain ⟨image, himage, hfirst⟩ := h first List.mem_cons_self
    obtain ⟨images, himages, hrest⟩ := ih fun x hx => h x (List.mem_cons_of_mem _ hx)
    refine ⟨image :: images, ?_, .cons hfirst hrest⟩
    rw [List.mapM_cons, himage, himages]
    rfl

theorem exists_of_forall₂_right {images : List β}
    (h : List.Forall₂ p items images) {y : β} (hy : y ∈ images) : ∃ x ∈ items, p x y := by
  induction h with
  | nil => cases hy
  | cons hfirst _ ih =>
    rcases List.mem_cons.1 hy with rfl | hy
    · exact ⟨_, List.mem_cons_self, hfirst⟩
    · obtain ⟨x, hx, hp⟩ := ih hy
      exact ⟨x, List.mem_cons_of_mem _ hx, hp⟩

theorem map_length_of_forall₂ {p : List α → List β → Prop} {lines : List (List α)}
    {images : List (List β)} (h : List.Forall₂ p lines images)
    (hlen : ∀ line image, p line image → image.length = line.length) :
    images.map List.length = lines.map List.length := by
  induction h with
  | nil => rfl
  | cons hfirst _ ih => rw [map_cons, map_cons, ih, hlen _ _ hfirst]

theorem forall₂_getElem? {images : List β} (h : List.Forall₂ p items images) (hx : items[index]? = some x) :
    ∃ y, images[index]? = some y ∧ p x y := by
  induction h generalizing index with
  | nil => cases hx
  | cons hfirst _ ih =>
    cases index with
    | zero =>
      cases hx
      exact ⟨_, rfl, hfirst⟩
    | succ index => exact ih hx

/-! ## Maps -/

section Maps

variable (f : α → β)

theorem eq_map_of_mapM {g : α → Option β} {images : List β} (hg : ∀ x y, g x = some y → f x = y)
    (h : items.mapM g = some images) : images = items.map f := by
  induction items generalizing images with
  | nil =>
    cases h
    rfl
  | cons first rest ih =>
    rw [List.mapM_cons] at h
    simp only [Option.bind_eq_bind, Option.bind_eq_some_iff] at h
    obtain ⟨image, himage, images', himages, heq⟩ := h
    cases heq
    rw [map_cons, hg first image himage, ← ih himages]

theorem slice?_map (h : slice? items start stop = some result) :
    slice? (items.map f) start stop = some (result.map f) := by
  unfold slice? at h ⊢
  split at h
  · next hrange =>
    cases h
    rw [length_map, if_pos hrange, map_drop, map_take]
  · cases h

theorem eraseSlice?_map (h : eraseSlice? items start stop = some result) :
    eraseSlice? (items.map f) start stop = some (result.map f) := by
  unfold eraseSlice? at h ⊢
  split at h
  · next hrange =>
    cases h
    rw [length_map, if_pos hrange, List.map_append, map_drop, map_take]
  · cases h

theorem insertAt?_map (h : insertAt? items index inserted = some result) :
    insertAt? (items.map f) index (inserted.map f) = some (result.map f) := by
  unfold insertAt? at h ⊢
  split at h
  · next hindex =>
    cases h
    rw [length_map, if_pos hindex, List.map_append, List.map_append, map_drop, map_take]
  · cases h

theorem setAt?_map (h : setAt? items index item = some result) :
    setAt? (items.map f) index (f item) = some (result.map f) := by
  unfold setAt? at h ⊢
  split at h
  · next hindex =>
    cases h
    rw [length_map, if_pos hindex, List.map_set]
  · cases h

end Maps

/-! ## Parts in the middle -/

theorem getElem?_middle (a : List α) (x : α) (b : List α) : (a ++ x :: b)[a.length]? = some x := by
  rw [List.getElem?_append_right (Nat.le_refl _), Nat.sub_self, List.getElem?_cons_zero]

theorem set_middle (a : List α) (x y : α) (b : List α) : (a ++ x :: b).set a.length y = a ++ y :: b := by
  rw [List.set_append_right _ _ (Nat.le_refl _), Nat.sub_self, List.set_cons_zero]

theorem setAt?_middle (a : List α) (x y : α) (b : List α) : setAt? (a ++ x :: b) a.length y = some (a ++ y :: b) := by
  have hindex : a.length < (a ++ x :: b).length := by
    rw [length_append, List.length_cons]
    omega
  rw [setAt?, if_pos hindex, set_middle]

theorem insertAt?_middle (a inserted b : List α) :
    insertAt? (a ++ b) a.length inserted = some (a ++ inserted ++ b) := by
  have hindex : a.length ≤ (a ++ b).length := by
    rw [length_append]
    omega
  rw [insertAt?, if_pos hindex, List.take_left, List.drop_left]

theorem slice?_middle (a b c : List α) : slice? (a ++ (b ++ c)) a.length (a.length + b.length) = some b := by
  have hrange : a.length ≤ a.length + b.length ∧ a.length + b.length ≤ (a ++ (b ++ c)).length := by
    rw [length_append, length_append]
    omega
  rw [slice?, if_pos hrange, ← List.append_assoc, ← length_append, List.take_left, List.drop_left]

theorem eraseSlice?_middle (a b c : List α) :
    eraseSlice? (a ++ (b ++ c)) a.length (a.length + b.length) = some (a ++ c) := by
  have hrange : a.length ≤ a.length + b.length ∧ a.length + b.length ≤ (a ++ (b ++ c)).length := by
    rw [length_append, length_append]
    omega
  rw [eraseSlice?, if_pos hrange, List.take_left, ← List.append_assoc, ← length_append, List.drop_left]

theorem getElem?_concat_cases {α : Type} {l : List α} {x y : α} {i : Nat}
    (h : (l ++ [x])[i]? = some y) : l[i]? = some y ∨ (i = l.length ∧ y = x) := by
  rw [List.getElem?_append] at h
  split at h
  · exact Or.inl h
  obtain ⟨hbound, hx⟩ := List.getElem?_eq_some_iff.1 h
  rw [List.length_singleton] at hbound
  rw [List.getElem_singleton] at hx
  exact Or.inr ⟨by omega, hx.symm⟩

end CodingHarness.Library
