import CodingHarness.Library.JoinedLines
import CodingHarness.Tui.BufferSafety

/-!
# Places in a buffer

The cursor splits the document into the text before it and the text after it. What is inserted comes
between the two (`insertSegments_joined`), and a removal takes its segments from the end of the first or
from the beginning of the second.
-/

namespace CodingHarness.Tui

open Library Support
open Option (bind_eq_bind bind_some)

namespace TextBuffer

/-- The cursor is after `before` on the line that follows `lines`. -/
structure Around (s : TextBuffer) (lines : BufferDocument) (before after : BufferLine)
    (more : BufferDocument) : Prop where
  document : s.document = lines ++ (before ++ after) :: more
  cursor : s.cursor = ⟨lines.length, before.length⟩

variable {s t : TextBuffer} {lines more : BufferDocument} {before after : BufferLine}

theorem exists_around (h : CursorIn s.document s.cursor) :
    ∃ lines before after more, Around s lines before after more := by
  obtain ⟨line, hline, hcol⟩ := h
  have hindex := (List.getElem?_eq_some_iff.1 hline).1
  have hget := (List.getElem?_eq_some_iff.1 hline).2
  refine ⟨s.document.take s.cursor.line, line.take s.cursor.column, line.drop s.cursor.column,
    s.document.drop (s.cursor.line + 1), ?_, ?_⟩
  · rw [List.take_append_drop, ← hget, List.getElem_cons_drop, List.take_append_drop]
  · rw [List.length_take_of_le hindex.le, List.length_take_of_le hcol]

namespace Around

section

variable (h : Around s lines before after more)
include h

theorem line : s.document[s.cursor.line]? = some (before ++ after) := by
  rw [h.document, h.cursor]
  exact getElem?_middle _ _ _

theorem column : s.cursor.column = before.length := by rw [h.cursor]

theorem cursorIn : CursorIn s.document s.cursor := by
  refine ⟨_, h.line, ?_⟩
  rw [h.column, List.length_append]
  exact Nat.le_add_right _ _

theorem joined :
    s.document = joinLines (lines ++ [before]) (after :: more) := by rw [h.document, joinLines_cons]

theorem congr (hdoc : t.document = s.document)
    (hcursor : t.cursor = s.cursor) : Around t lines before after more :=
  ⟨hdoc.trans h.document, hcursor.trans h.cursor⟩

end

end Around

/-- What is inserted comes between the text before the cursor and the text after it. -/
theorem insertSegments_joined (h : Around s lines before after more) {inserted : BufferDocument}
    (hins : inserted ≠ []) (hstep : s.insertSegments inserted = some t) :
    t.document = joinLines (joinLines (lines ++ [before]) inserted) (after :: more) := by
  obtain ⟨first, rest, rfl⟩ := List.exists_cons_of_ne_nil hins
  have hlen : (before ++ after).length = before.length + after.length := List.length_append
  have hslice : slice? (before ++ after) before.length (before ++ after).length = some after := by
    have hmid := slice?_middle before after []
    rwa [List.append_nil, ← hlen] at hmid
  have herase : eraseSlice? (before ++ after) before.length (before ++ after).length = some before := by
    have hmid := eraseSlice?_middle before after []
    rwa [List.append_nil, ← hlen, List.append_nil] at hmid
  simp only [insertSegments, clampCursor_eq h.cursorIn, h.line, h.column, hslice, herase,
    bind_eq_bind, bind_some] at hstep
  have hset : ∀ line, setAt? s.document s.cursor.line line = some (lines ++ line :: more) := by
    intro line
    rw [h.document, h.cursor]
    exact setAt?_middle _ _ _ _
  rw [joinLines_cons]
  split at hstep
  · next hrest =>
    simp only [hset, bind_some] at hstep
    cases hstep
    rw [hrest, joinLines_cons]
  next hrest =>
  obtain ⟨middle, last, rfl⟩ := exists_concat hrest
  have hopened : lines ++ (before ++ first) :: more = (lines ++ [before ++ first]) ++ more := by
    rw [List.append_assoc, List.singleton_append]
  have hnext : s.cursor.line + 1 = (lines ++ [before ++ first]).length := by
    rw [h.cursor, List.length_append, List.length_singleton]
  have hlast : s.cursor.line + (first :: (middle ++ [last])).length - 1 =
      (lines ++ [before ++ first] ++ middle).length := by
    simp only [h.cursor, List.length_cons, List.length_append, List.length_nil]
    omega
  have hbroken : lines ++ [before ++ first] ++ (middle ++ [last]) ++ more =
      (lines ++ [before ++ first] ++ middle) ++ last :: more := by
    simp only [List.append_assoc, List.cons_append, List.nil_append]
  simp only [hset, hnext, hopened, insertAt?_middle, hlast, hbroken, getElem?_middle, setAt?_middle,
    bind_some] at hstep
  cases hstep
  rw [← List.cons_append, ← List.append_assoc, joinLines_cons]
  simp only [List.append_assoc, List.cons_append, List.nil_append]

variable {removed : BufferLine}

theorem removeUntil_forward (h : Around s lines before (removed ++ after) more) :
    s.removeUntil (before.length + removed.length) true =
      some (removed, { s with document := lines ++ (before ++ after) :: more }) := by
  have hset : s.document.set s.cursor.line (before ++ after) = lines ++ (before ++ after) :: more := by
    rw [h.document, h.cursor]
    exact set_middle _ _ _ _
  simp only [removeUntil, h.line, h.column, if_true, slice?_middle, eraseSlice?_middle, hset, bind_eq_bind, bind_some]
  rw [← h.column]

theorem removeUntil_backward (h : Around s lines (before ++ removed) after more) : s.removeUntil before.length false =
      some (removed, { s with
        document := lines ++ (before ++ after) :: more, cursor := ⟨lines.length, before.length⟩ }) := by
  have hset : s.document.set s.cursor.line (before ++ after) = lines ++ (before ++ after) :: more := by
    rw [h.document, h.cursor]
    exact set_middle _ _ _ _
  have hcol : s.cursor.column = before.length + removed.length := by
    rw [h.column, List.length_append]
  have hline : s.document[s.cursor.line]? = some (before ++ (removed ++ after)) := by
    rw [h.line, List.append_assoc]
  simp only [removeUntil, hline, hcol, Bool.false_eq_true, if_false, slice?_middle, eraseSlice?_middle,
    hset, bind_eq_bind, bind_some]
  rw [h.cursor]

end TextBuffer

end CodingHarness.Tui
