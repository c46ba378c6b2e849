import CodingHarness.Tui.PasteNumbers

/-!
# Edits that look at places only

Most helpers of the buffer move segments around without looking into them. They do the same to any two
documents whose segments correspond one by one: `Edit.natural` says so for a function on segments. The
helpers are described together with the segments that they add or take away, up to their order.
-/

namespace CodingHarness.Tui

open Library Support
open List (append_nil count_append flatten_cons length_map map_append nil_append take_append_drop)
open Option (bind_eq_bind bind_eq_some_iff bind_some)

namespace TextBuffer

/-- The segments of a document, changed one by one. -/
def mapped (f : BufferSegment → BufferSegment) (document : BufferDocument) : BufferDocument :=
  document.map (List.map f)

theorem flatten_mapped (f : BufferSegment → BufferSegment) (document : BufferDocument) :
    (mapped f document).flatten = document.flatten.map f := List.map_flatten.symm

variable {f : BufferSegment → BufferSegment} {index : Nat} {document : BufferDocument}

theorem getElem?_mapped {line : BufferLine} (h : document[index]? = some line) :
    (mapped f document)[index]? = some (line.map f) := by
  rw [mapped, List.getElem?_map, h, Option.map_some]

/-- The two buffers show corresponding segments and have the cursor at the same place; segments that are no
markers correspond to themselves. -/
structure Parallel (f : BufferSegment → BufferSegment) (s r : TextBuffer) : Prop where
  document : r.document = mapped f s.document
  cursor : r.cursor = s.cursor
  plain : ∀ segment : BufferSegment, segment.pasteId = none → f segment = segment

/-- The other buffer after the same change of places. -/
def mirrored (f : BufferSegment → BufferSegment) (r t : TextBuffer) : TextBuffer :=
  { r with document := mapped f t.document, cursor := t.cursor }

/-- An edit changes the document and the cursor only, and any parallel buffer in the same way. The
segments before it and those that it adds are the segments after it and those that it takes away. -/
structure Edit (s t : TextBuffer) (added gone : List BufferSegment)
    (other : (BufferSegment → BufferSegment) → TextBuffer → Option TextBuffer) : Prop where
  rest : ∃ document cursor, t = { s with document := document, cursor := cursor }
  perm : (s.document.flatten ++ added).Perm (gone ++ t.document.flatten)
  natural : ∀ f r, Parallel f s r → other f r = some (r.mirrored f t)

variable {s r : TextBuffer}

theorem mirrored_self (h : Parallel f s r) : r.mirrored f s = r := by
  rw [mirrored, ← h.document, ← h.cursor]

theorem mapped_eq_nil : mapped f document = [] ↔ document = [] := List.map_eq_nil_iff

theorem clampCursor_mirrored (h : Parallel f s r) :
    r.clampCursor = r.mirrored f s.clampCursor := by
  by_cases hempty : s.document = []
  · have hempty' : r.document = [] := by rw [h.document, mapped_eq_nil.2 hempty]
    simp only [clampCursor, hempty, hempty', if_true, h.cursor, mirrored]
    rfl
  have hempty' : r.document ≠ [] := by rwa [h.document, Ne, mapped_eq_nil]
  have hlen : r.document.length = s.document.length := by rw [h.document, mapped, length_map]
  simp only [clampCursor, if_neg hempty, if_neg hempty', h.cursor, hlen, mirrored, ← h.document]
  rw [h.document, mapped, getD_map_map, length_map]

theorem flatten_clampCursor (s : TextBuffer) : s.clampCursor.document.flatten = s.document.flatten := by
  by_cases hempty : s.document = []
  · simp [clampCursor, hempty]
  · simp [clampCursor, hempty]

theorem parallel_clampCursor (h : Parallel f s r) : Parallel f s.clampCursor r.clampCursor := by
  rw [clampCursor_mirrored h]
  exact ⟨rfl, rfl, h.plain⟩

theorem perm_flatten_line {line line' added gone : BufferLine}
    (hline : document[index]? = some line) (hperm : (line ++ added).Perm (gone ++ line')) :
    (document.flatten ++ added).Perm (gone ++ (document.set index line').flatten) := by
  induction document generalizing index with
  | nil => cases hline
  | cons first rest ih =>
    cases index with
    | zero =>
      cases hline
      rw [List.set_cons_zero, flatten_cons, flatten_cons]
      refine List.perm_iff_count.2 fun segment => ?_
      have hcount := List.perm_iff_count.1 hperm segment
      simp only [count_append] at hcount ⊢
      omega
    | succ index =>
      rw [List.set_cons_succ, flatten_cons, flatten_cons]
      refine List.perm_iff_count.2 fun segment => ?_
      have hcount := List.perm_iff_count.1 (ih hline) segment
      simp only [count_append] at hcount ⊢
      omega

theorem eq_of_insertAt? {α : Type} {items inserted result : List α}
    (h : insertAt? items index inserted = some result) :
    result = items.take index ++ inserted ++ items.drop index := by
  unfold insertAt? at h
  split at h
  · exact (Option.some.inj h).symm
  · cases h

theorem perm_take_append_drop (line inserted : BufferLine) (column : Nat) :
    (line ++ inserted).Perm (line.take column ++ inserted ++ line.drop column) := by
  refine List.perm_iff_count.2 fun segment => ?_
  have hcount := congrArg (List.count segment) (take_append_drop column line)
  simp only [count_append] at hcount ⊢
  omega

theorem Parallel.line (h : Parallel f s r) {line : BufferLine}
    (hline : s.document[index]? = some line) : r.document[index]? = some (line.map f) := by
  rw [h.document]
  exact getElem?_mapped hline

variable {t : TextBuffer}

theorem edit_insertUnits {units : List Bytes} (h : s.insertUnits units = some t) :
    Edit s t (units.map fun unit => ⟨unit, none⟩) [] fun _ r => r.insertUnits units := by
  simp only [insertUnits, bind_eq_bind, bind_eq_some_iff] at h
  obtain ⟨line, hline, inserted, hins, document, hset, heq⟩ := h
  cases heq
  refine ⟨⟨_, _, rfl⟩, ?_, fun f r h => ?_⟩
  · rw [eq_of_setAt? hset, eq_of_insertAt? hins]
    exact perm_flatten_line hline (perm_take_append_drop _ _ _)
  have hunits : (units.map fun unit => BufferSegment.mk unit none).map f = units.map fun unit => ⟨unit, none⟩ := by
    rw [List.map_map]
    exact List.map_congr_left fun unit _ => h.plain _ rfl
  have hins' := insertAt?_map f hins
  rw [hunits] at hins'
  have hset' : setAt? r.document s.cursor.line (inserted.map f) = some (mapped f document) := by
    rw [h.document]
    exact setAt?_map (List.map f) hset
  simp only [insertUnits, h.cursor, h.line hline, hins', hset', bind_eq_bind, bind_some, mirrored]

theorem edit_insertSegments {inserted : BufferDocument} (h : s.insertSegments inserted = some t) :
    Edit s t inserted.flatten [] fun f r => r.insertSegments (mapped f inserted) := by
  cases inserted with
  | nil =>
    cases h
    refine ⟨⟨_, _, rfl⟩, by simp, fun f r h => ?_⟩
    rw [mirrored_self h]
    rfl
  | cons first more =>
    simp only [insertSegments, bind_eq_bind, bind_eq_some_iff] at h
    obtain ⟨line, hline, after, hafter, before, hprev, h⟩ := h
    have hafterEq : after = line.drop s.clampCursor.cursor.column := by
      rw [eq_of_slice? hafter, List.take_length]
    have hbeforeEq : before = line.take s.clampCursor.cursor.column := by
      rw [eq_of_eraseSlice? hprev, List.drop_length, append_nil]
    -- The parallel buffer finds the corresponding pieces.
    have hother : ∀ f r, Parallel f s r → r.clampCursor.cursor = s.clampCursor.cursor ∧
        r.clampCursor.document[s.clampCursor.cursor.line]? = some (line.map f) ∧
        slice? (line.map f) s.clampCursor.cursor.column line.length = some (after.map f) ∧
        eraseSlice? (line.map f) s.clampCursor.cursor.column line.length = some (before.map f) := by
      intro f r hpar
      have hclamped := parallel_clampCursor hpar
      exact ⟨hclamped.cursor, hclamped.line hline, slice?_map f hafter, eraseSlice?_map f hprev⟩
    split at h
    · next hmore =>
      obtain ⟨document, hset, heq⟩ := Option.bind_eq_some_iff.1 h
      cases heq
      refine ⟨⟨_, _, rfl⟩, ?_, fun f r hpar => ?_⟩
      · rw [← flatten_clampCursor, eq_of_setAt? hset, hmore, flatten_cons, List.flatten_nil,
          append_nil, hbeforeEq, hafterEq]
        exact perm_flatten_line hline (perm_take_append_drop _ _ _)
      obtain ⟨hcursor, hline', hafter', hprev'⟩ := hother f r hpar
      have hset' : setAt? r.clampCursor.document s.clampCursor.cursor.line
          (before.map f ++ first.map f ++ after.map f) = some (mapped f document) := by
        rw [(parallel_clampCursor hpar).document, ← map_append, ← map_append]
        exact setAt?_map (List.map f) hset
      rw [mapped, List.map_cons, hmore, List.map_nil]
      simp only [insertSegments, hcursor, hline', length_map, hafter', hprev', if_true, hset',
        bind_eq_bind, bind_some, mirrored, List.length_append]
      rfl
    · next hmore =>
      simp only [bind_eq_some_iff] at h
      obtain ⟨opened, hopen, document, hins, last, hlast, document', hset, heq⟩ := h
      cases heq
      refine ⟨⟨_, _, rfl⟩, ?_, fun f r hpar => ?_⟩
      · -- What follows the cursor goes to the end of the last new line.
        have hopened : (s.clampCursor.document.flatten ++ first).Perm (after ++ opened.flatten) := by
          rw [eq_of_setAt? hopen]
          refine perm_flatten_line hline ?_
          rw [hbeforeEq, hafterEq]
          refine List.perm_iff_count.2 fun segment => ?_
          have hcount := congrArg (List.count segment) (take_append_drop s.clampCursor.cursor.column line)
          simp only [count_append] at hcount ⊢
          omega
        have hlonger : (document.flatten ++ after).Perm document'.flatten := by
          rw [eq_of_setAt? hset]
          exact perm_flatten_line hlast (List.Perm.refl _ : List.Perm _ ([] ++ _))
        rw [flatten_clampCursor] at hopened
        refine List.perm_iff_count.2 fun segment => ?_
        have hcount := List.perm_iff_count.1 hopened segment
        have hcount' := List.perm_iff_count.1 hlonger segment
        have hsplit := congrArg (fun lines => (List.flatten lines).count segment)
          (take_append_drop (s.clampCursor.cursor.line + 1) opened)
        rw [eq_of_insertAt? hins] at hcount'
        simp only [List.flatten_append, flatten_cons, count_append, nil_append] at hcount hcount' hsplit ⊢
        omega
      · obtain ⟨hcursor, hline', hafter', hprev'⟩ := hother f r hpar
        have hopen' : setAt? r.clampCursor.document s.clampCursor.cursor.line
            (before.map f ++ first.map f) = some (mapped f opened) := by
          rw [(parallel_clampCursor hpar).document, ← map_append]
          exact setAt?_map (List.map f) hopen
        have hins' := insertAt?_map (List.map f) hins
        have hlast' : (mapped f document)[s.clampCursor.cursor.line + (first :: more).length - 1]? =
          some (last.map f) := getElem?_mapped hlast
        have hset' : setAt? (mapped f document)
            (s.clampCursor.cursor.line + (first :: more).length - 1) (last.map f ++ after.map f) =
            some (mapped f document') := by
          rw [← map_append]
          exact setAt?_map (List.map f) hset
        have hmore' : more.map (List.map f) ≠ [] := fun hnil => hmore (List.map_eq_nil_iff.1 hnil)
        rw [mapped, List.map_cons]
        simp only [insertSegments, hcursor, hline', hafter', hprev', if_neg hmore', hopen', mapped,
          List.length_cons, length_map, bind_eq_bind, bind_some] at hins' hlast' hset' ⊢
        simp only [hins', hlast', hset', bind_some, mirrored, mapped, List.length_append, length_map]
        rfl

/-- Joining two lines keeps the segments. -/
theorem perm_joined {joined result : BufferDocument} {first second : BufferLine} {row other : Nat}
    (hfirst : document[row]? = some first) (hsecond : document[other]? = some second) (hne : row ≠ other)
    (hset : setAt? document row (first ++ second) = some joined)
    (herase : eraseSlice? joined other (other + 1) = some result) : document.flatten.Perm result.flatten := by
  have hjoined : (document.flatten ++ second).Perm joined.flatten := by
    rw [eq_of_setAt? hset]
    exact perm_flatten_line hfirst (List.Perm.refl _ : List.Perm _ ([] ++ _))
  have hsecond' : joined[other]? = some second := by
    rw [eq_of_setAt? hset, List.getElem?_set_ne hne, hsecond]
  have hline : joined = joined.take other ++ second :: joined.drop (other + 1) := by
    obtain ⟨hlt, hget⟩ := List.getElem?_eq_some_iff.1 hsecond'
    rw [← hget, ← List.drop_eq_getElem_cons hlt]
    exact (take_append_drop _ _).symm
  refine List.perm_iff_count.2 fun segment => ?_
  have hcount := List.perm_iff_count.1 hjoined segment
  have hsplit := congrArg (fun lines => (List.flatten lines).count segment) hline
  rw [eq_of_eraseSlice? herase]
  simp only [List.flatten_append, flatten_cons, count_append] at hcount hsplit ⊢
  omega

theorem edit_joinWithPrevious (hpos : 0 < s.cursor.line)
    (h : s.joinWithPrevious = some t) : Edit s t [] [] fun _ r => r.joinWithPrevious := by
  simp only [joinWithPrevious, bind_eq_bind, bind_eq_some_iff] at h
  obtain ⟨current, hcur, previous, hprevious, joined, hset, document, herase, heq⟩ := h
  cases heq
  refine ⟨⟨_, _, rfl⟩, ?_, fun f r hpar => ?_⟩
  · rw [append_nil, nil_append]
    exact perm_joined hprevious hcur (by omega) hset herase
  have hset' : setAt? r.document (s.cursor.line - 1) (previous.map f ++ current.map f) = some (mapped f joined) := by
    rw [hpar.document, ← map_append]
    exact setAt?_map (List.map f) hset
  have herase' : eraseSlice? (mapped f joined) s.cursor.line (s.cursor.line + 1) =
    some (mapped f document) := eraseSlice?_map (List.map f) herase
  simp only [joinWithPrevious, hpar.cursor, hpar.line hcur, hpar.line hprevious, hset',
    herase', bind_eq_bind, bind_some, mirrored, length_map]

theorem edit_joinWithNext (h : s.joinWithNext = some t) : Edit s t [] [] fun _ r => r.joinWithNext := by
  simp only [joinWithNext, bind_eq_bind, bind_eq_some_iff] at h
  obtain ⟨current, hcur, next, hnext, joined, hset, document, herase, heq⟩ := h
  cases heq
  refine ⟨⟨_, _, rfl⟩, ?_, fun f r hpar => ?_⟩
  · rw [append_nil, nil_append]
    exact perm_joined hcur hnext (by omega) hset herase
  have hset' : setAt? r.document s.cursor.line (current.map f ++ next.map f) = some (mapped f joined) := by
    rw [hpar.document, ← map_append]
    exact setAt?_map (List.map f) hset
  have herase' : eraseSlice? (mapped f joined) (s.cursor.line + 1) (s.cursor.line + 2) =
    some (mapped f document) := eraseSlice?_map (List.map f) herase
  simp only [joinWithNext, hpar.cursor, hpar.line hcur, hpar.line hnext, hset', herase', bind_eq_bind, bind_some]
  rw [mirrored, ← hpar.cursor]

theorem edit_removeUntil {target : Nat} {forward : Bool} {removed : BufferLine}
    (h : s.removeUntil target forward = some (removed, t)) :
    Edit s t [] removed (fun _ r => (r.removeUntil target forward).map Prod.snd) ∧
      ∀ f r, Parallel f s r → (r.removeUntil target forward).map Prod.fst = some (removed.map f) := by
  simp only [removeUntil, bind_eq_bind, bind_eq_some_iff] at h
  obtain ⟨line, hline, slice, hslice, kept, herase, heq⟩ := h
  obtain ⟨rfl, rfl⟩ := Prod.mk.inj (Option.some.inj heq)
  have hother : ∀ f r, Parallel f s r → r.removeUntil target forward = some (slice.map f, r.mirrored f { s with
        document := s.document.set s.cursor.line kept
        cursor := { s.cursor with column := if forward then s.cursor.column else target } }) := by
    intro f r hpar
    simp only [removeUntil, hpar.cursor, hpar.line hline, slice?_map f hslice,
      eraseSlice?_map f herase, bind_eq_bind, bind_some, mirrored]
    simp only [hpar.document, mapped, List.map_set]
  refine ⟨⟨⟨_, _, rfl⟩, ?_, fun f r hpar => ?_⟩, fun f r hpar => ?_⟩
  · refine perm_flatten_line hline ?_
    obtain ⟨hle, hbound, -⟩ := length_of_slice? hslice
    rw [eq_of_slice? hslice, eq_of_eraseSlice? herase, append_nil]
    generalize (if forward then s.cursor.column else target) = start at hle ⊢
    generalize (if forward then target else s.cursor.column) = stop at hle hbound ⊢
    have hjoin := congrArg (List.drop start) (take_append_drop stop line)
    rw [List.drop_append_of_le_length (by rw [List.length_take]; omega)] at hjoin
    refine List.perm_iff_count.2 fun segment => ?_
    have hcount := congrArg (List.count segment) hjoin
    have hcount' := congrArg (List.count segment) (take_append_drop start line)
    simp only [count_append] at hcount hcount' ⊢
    omega
  · rw [hother f r hpar]
    rfl
  · rw [hother f r hpar]
    rfl

/-- The end of `insert_newline`: the line is split at the cursor. -/
def splitLine (s : TextBuffer) : Option TextBuffer := do
  let current ← s.document[s.cursor.line]?
  let tail ← slice? current s.cursor.column current.length
  let kept ← eraseSlice? current s.cursor.column current.length
  let document ← setAt? s.document s.cursor.line kept
  let document ← insertAt? document (s.cursor.line + 1) [tail]
  some { s with document := document, cursor := ⟨s.cursor.line + 1, 0⟩ }

theorem insertNewline_eq (s : TextBuffer) :
    s.insertNewline = if !s.options.multiline then some { s with error := none }
      else { s.ready.pushUndo with lastAction := .none }.splitLine := rfl

theorem edit_splitLine (h : s.splitLine = some t) : Edit s t [] [] fun _ r => r.splitLine := by
  simp only [splitLine, bind_eq_bind, bind_eq_some_iff] at h
  obtain ⟨current, hcur, tail, htail, kept, hkept, opened, hset, document, hins, heq⟩ := h
  cases heq
  refine ⟨⟨_, _, rfl⟩, ?_, fun f r hpar => ?_⟩
  · have hopened : s.document.flatten.Perm (tail ++ opened.flatten) := by
      rw [eq_of_setAt? hset]
      refine perm_flatten_set hcur ?_
      rw [eq_of_slice? htail, eq_of_eraseSlice? hkept, List.take_length, List.drop_length, append_nil]
      nth_rewrite 1 [← take_append_drop s.cursor.column current]
      exact List.perm_append_comm
    refine List.perm_iff_count.2 fun segment => ?_
    have hcount := List.perm_iff_count.1 hopened segment
    have hsplit := congrArg (fun lines => (List.flatten lines).count segment)
      (take_append_drop (s.cursor.line + 1) opened)
    rw [eq_of_insertAt? hins]
    simp only [List.flatten_append, flatten_cons, List.flatten_nil, count_append, append_nil,
      nil_append] at hcount hsplit ⊢
    omega
  have hset' : setAt? r.document s.cursor.line (kept.map f) = some (mapped f opened) := by
    rw [hpar.document]
    exact setAt?_map (List.map f) hset
  have hins' : insertAt? (mapped f opened) (s.cursor.line + 1) [tail.map f] =
    some (mapped f document) := insertAt?_map (List.map f) hins
  simp only [splitLine, hpar.cursor, hpar.line hcur, length_map, slice?_map f htail,
    eraseSlice?_map f hkept, hset', hins', bind_eq_bind, bind_some, mirrored]

end TextBuffer

end CodingHarness.Tui
