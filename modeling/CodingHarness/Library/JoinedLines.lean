import Mathlib.Data.List.Basic

/-!
# Joined lines

Lists of lines are texts cut at their line breaks, so the concatenation of two texts joins the last line of
the first one with the first line of the second one. A text that is put in at a place splits the text into
what is before the place and what is after it; everything that is said about places here comes from the
associativity of `joinLines`.
-/

namespace CodingHarness.Library

open List (append_assoc cons_append cons_ne_nil headD_cons tail_cons)

universe u v

variable {α : Type u} {β : Type v}

/-- The lines of one text followed by another one. -/
def joinLines : List (List α) → List (List α) → List (List α)
  | [], b => b
  | [x], b => (x ++ b.headD []) :: b.tail
  | x :: y :: a, b => x :: joinLines (y :: a) b

theorem joinLines_append (a : List (List α)) (x : List α) (b : List (List α)) :
    joinLines (a ++ [x]) b = a ++ (x ++ b.headD []) :: b.tail := by
  induction a with
  | nil => rfl
  | cons y a ih =>
    cases a with
    | nil => rfl
    | cons z a => exact congrArg (y :: ·) ih

theorem joinLines_cons (a : List (List α)) (x y : List α) (b : List (List α)) :
    joinLines (a ++ [x]) (y :: b) = a ++ (x ++ y) :: b :=
  joinLines_append a x (y :: b)

variable {a b : List (List α)}

theorem exists_concat (ha : a ≠ []) : ∃ lines last, a = lines ++ [last] :=
  ⟨a.dropLast, a.getLast ha, (List.dropLast_concat_getLast ha).symm⟩

theorem joinLines_ne_nil_left (ha : a ≠ []) (b : List (List α)) : joinLines a b ≠ [] := by
  obtain ⟨lines, last, rfl⟩ := exists_concat ha
  rw [joinLines_append]
  exact List.append_ne_nil_of_right_ne_nil _ (cons_ne_nil _ _)

theorem joinLines_ne_nil_right (a : List (List α)) (hb : b ≠ []) : joinLines a b ≠ [] := by
  cases a with
  | nil => exact hb
  | cons x a => exact joinLines_ne_nil_left (cons_ne_nil x a) b

theorem joinLines_assoc (a : List (List α)) (hb : b ≠ []) (c : List (List α)) :
    joinLines (joinLines a b) c = joinLines a (joinLines b c) := by
  rcases a.eq_nil_or_concat with rfl | ⟨a, x, rfl⟩
  · rfl
  rw [List.concat_eq_append]
  obtain ⟨b, y, rfl⟩ := exists_concat hb
  rw [joinLines_append b y c, joinLines_append a x]
  cases b with
  | nil =>
    -- The middle text has one line, which meets both of its neighbours.
    rw [List.nil_append, List.nil_append, joinLines_append a x, headD_cons, headD_cons,
      tail_cons, tail_cons, joinLines_append, append_assoc]
  | cons z b =>
    rw [joinLines_append a x, cons_append, cons_append, headD_cons, headD_cons,
      tail_cons, tail_cons, ← cons_append, ← append_assoc, joinLines_append,
      append_assoc, cons_append]

theorem joinLines_map (f : α → β) (a b : List (List α)) :
    (joinLines a b).map (List.map f) = joinLines (a.map (List.map f)) (b.map (List.map f)) := by
  rcases a.eq_nil_or_concat with rfl | ⟨a, x, rfl⟩
  · rfl
  rw [List.concat_eq_append, joinLines_append, List.map_append, List.map_append, List.map_singleton,
    joinLines_append, List.map_cons, List.map_append, List.map_tail]
  cases b <;> rfl

theorem flatten_joinLines (ha : a ≠ []) (b : List (List α)) : (joinLines a b).flatten = a.flatten ++ b.flatten := by
  obtain ⟨lines, last, rfl⟩ := exists_concat ha
  rw [joinLines_append, List.flatten_append, List.flatten_append, List.flatten_cons, List.flatten_singleton]
  cases b with
  | nil => simp
  | cons y b => simp

theorem intercalate_joinLines (separator : List β) {f : List α → List β}
    (hf : ∀ x y, f (x ++ y) = f x ++ f y) (ha : a ≠ []) (hb : b ≠ []) :
    List.intercalate separator ((joinLines a b).map f) =
      List.intercalate separator (a.map f) ++ List.intercalate separator (b.map f) := by
  induction a, b using joinLines.induct with
  | case1 => exact absurd rfl ha
  | case2 x b =>
    obtain ⟨y, b, rfl⟩ := List.exists_cons_of_ne_nil hb
    cases b with
    | nil => simp [joinLines, List.intercalate, hf]
    | cons z b => simp [joinLines, List.intercalate, hf, append_assoc]
  | case3 x y a b ih =>
    have hne : joinLines (y :: a) b ≠ [] := joinLines_ne_nil_left (cons_ne_nil y a) b
    obtain ⟨z, c, hjoined⟩ := List.exists_cons_of_ne_nil hne
    have hrest := ih (cons_ne_nil y a) hb
    rw [joinLines, hjoined]
    rw [hjoined] at hrest
    simp only [List.intercalate, List.map_cons, List.intersperse_cons_cons, List.flatten_cons] at hrest ⊢
    rw [hrest, append_assoc, append_assoc]

end CodingHarness.Library
