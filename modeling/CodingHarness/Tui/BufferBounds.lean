import CodingHarness.Tui.PasteMarkers
import CodingHarness.Tui.UndoHistory

/-!
# The bounds of the buffer's helpers

`Sound` is what every operation relies on: the document has a line, the cursor is in it, and its segments
have a text in which a marker's number can be replaced. The helpers that operations are made of have a
result in such a state and lead to one again. The lines keep their lengths while pastes are forgotten
(`SameShape`), so that an erasure finds its columns where it looked them up. The last part bounds what the
word searches return, from what the segmentation libraries promise.
-/

namespace CodingHarness.Tui

open Library Support
open List (getElem?_eq_getElem getElem?_set_self length_append length_set length_take mem_cons_self)
open Option (bind_eq_bind bind_some)

/-! ## Sound states -/

/-- A segment has a text, and a marker's number can be replaced. -/
def SegmentOk (segment : BufferSegment) : Prop :=
  segment.text ≠ [] ∧ (segment.pasteId.isSome = true → Renumberable segment.text)

def LineOk (line : BufferLine) : Prop := ∀ segment ∈ line, SegmentOk segment

def DocumentOk (document : BufferDocument) : Prop := ∀ line ∈ document, LineOk line

/-- The cursor is in a line. -/
def CursorIn (document : BufferDocument) (cursor : BufferCursor) : Prop :=
  ∃ line, document[cursor.line]? = some line ∧ cursor.column ≤ line.length

theorem LineOk.append {a b : BufferLine} (ha : LineOk a) (hb : LineOk b) : LineOk (a ++ b) :=
  fun segment hmem => (List.mem_append.1 hmem).elim (ha segment) (hb segment)

variable {index bound position : Nat}

theorem DocumentOk.get {document : BufferDocument} (h : DocumentOk document)
    {line : BufferLine} (hline : document[index]? = some line) : LineOk line :=
  h line (List.mem_of_getElem? hline)

variable {document result : BufferDocument}

theorem DocumentOk.set (h : DocumentOk document)
    {line : BufferLine} (hline : LineOk line) (hset : setAt? document index line = some result) :
    DocumentOk result := by
  intro other hmem
  rcases mem_of_setAt? hset hmem with hmem | rfl
  · exact h other hmem
  · exact hline

variable {start stop : Nat}

theorem DocumentOk.erase (h : DocumentOk document)
    (herase : eraseSlice? document start stop = some result) : DocumentOk result :=
  fun line hmem => h line (mem_of_eraseSlice? herase hmem)

theorem LineOk.slice {line result : BufferLine} (h : LineOk line)
    (hslice : slice? line start stop = some result) : LineOk result :=
  fun segment hmem => h segment (mem_of_slice? hslice hmem)

theorem LineOk.erase {line result : BufferLine} (h : LineOk line)
    (herase : eraseSlice? line start stop = some result) : LineOk result :=
  fun segment hmem => h segment (mem_of_eraseSlice? herase hmem)

namespace TextBuffer

/-- The document has a line, the cursor is in it, and its segments are well formed. -/
structure Sound (s : TextBuffer) : Prop where
  cursor : CursorIn s.document s.cursor
  ok : DocumentOk s.document

/-- The documents that may come back are well formed. -/
structure Stored (s : TextBuffer) : Prop where
  undo : ∀ snapshot ∈ s.undo, DocumentOk snapshot.document
  kills : ∀ entry ∈ s.docKillRing, DocumentOk entry.document

variable {s : TextBuffer} {t : TextBuffer}

theorem Stored.frame (h : s.Stored) (hframe : Frame s t) : t.Stored := by
  obtain ⟨document, cursor, pastes, counter, rfl⟩ := hframe.rest
  exact ⟨h.undo, h.kills⟩

theorem Stored.pushUndo (h : s.Stored) (hok : DocumentOk s.document) :
    s.pushUndo.Stored := by
  refine ⟨fun snapshot hmem => ?_, h.kills⟩
  rcases List.mem_cons.1 hmem with rfl | hmem
  · exact hok
  · exact h.undo snapshot hmem

theorem sound_clampCursor (h : DocumentOk s.document) : s.clampCursor.Sound := by
  refine ⟨s.clampCursor_line, ?_⟩
  unfold clampCursor
  by_cases hempty : s.document = []
  · simp only [if_pos hempty]
    intro line hmem segment hseg
    rw [List.mem_singleton.1 hmem] at hseg
    cases hseg
  · simp only [if_neg hempty]
    exact h

theorem clampCursor_eq (h : CursorIn s.document s.cursor) : s.clampCursor = s := by
  obtain ⟨line, hline, hcol⟩ := h
  have hindex : s.cursor.line < s.document.length := (List.getElem?_eq_some_iff.1 hline).1
  have hempty : s.document ≠ [] := List.ne_nil_of_length_pos (by omega)
  have hmin : min s.cursor.line (s.document.length - 1) = s.cursor.line := by omega
  have hline' : (s.document.getD s.cursor.line []).length = line.length := by
    rw [List.getD_eq_getElem?_getD, hline]
    rfl
  have hmin' : min s.cursor.column line.length = s.cursor.column := by omega
  simp only [clampCursor, if_neg hempty, hmin, hline', hmin']

theorem ready_eq (h : CursorIn s.document s.cursor) : s.ready = { s with error := none } :=
  clampCursor_eq (s := { s with error := none }) h

/-! ## Insertion -/

theorem exists_insertSegments {inserted : BufferDocument} (hs : s.Sound)
    (hins : DocumentOk inserted) : ∃ t, s.insertSegments inserted = some t ∧ t.Sound := by
  cases inserted with
  | nil => exact ⟨s, rfl, hs⟩
  | cons first more =>
    obtain ⟨line, hline, hcol⟩ := hs.cursor
    have hindex : s.cursor.line < s.document.length := (List.getElem?_eq_some_iff.1 hline).1
    have hfirst : LineOk first := hins first mem_cons_self
    have hlineOk := hs.ok.get hline
    have hafter : LineOk (line.drop s.cursor.column) := fun segment hmem =>
      hlineOk segment (List.mem_of_mem_drop hmem)
    have hhead : LineOk (line.take s.cursor.column ++ first) :=
      LineOk.append (fun segment hmem => hlineOk segment (List.mem_of_mem_take hmem)) hfirst
    simp only [insertSegments, clampCursor_eq hs.cursor, hline, slice?_tail hcol,
      eraseSlice?_tail hcol, bind_eq_bind, bind_some]
    split
    · have hset : setAt? s.document s.cursor.line
          (line.take s.cursor.column ++ first ++ line.drop s.cursor.column) = some _ := if_pos hindex
      rw [hset, bind_some]
      refine ⟨_, rfl, ⟨_, getElem?_set_self hindex, ?_⟩, hs.ok.set (hhead.append hafter) hset⟩
      simp only [length_append]
      omega
    next hmore =>
    have hopen : setAt? s.document s.cursor.line (line.take s.cursor.column ++ first) = some _ := if_pos hindex
    have hinsert : insertAt? (s.document.set s.cursor.line (line.take s.cursor.column ++ first))
        (s.cursor.line + 1) more = some _ := if_pos (by rw [length_set]; omega)
    rw [hopen, bind_some, hinsert, bind_some]
    have hok := hs.ok.set hhead hopen
    have hlen := (length_of_insertAt? hinsert).2
    generalize (s.document.set s.cursor.line (line.take s.cursor.column ++ first)).take
      (s.cursor.line + 1) ++ more ++ (s.document.set s.cursor.line
      (line.take s.cursor.column ++ first)).drop (s.cursor.line + 1) = document at hinsert hlen ⊢
    have hdoc : DocumentOk document := fun other hmem =>
      (mem_of_insertAt? hinsert hmem).elim (hok other)
        fun hmem => hins other (List.mem_cons_of_mem _ hmem)
    have hlast : s.cursor.line + (first :: more).length - 1 < document.length := by
      rw [hlen, length_set, List.length_cons]
      omega
    have hset : setAt? document (s.cursor.line + (first :: more).length - 1)
        (document[s.cursor.line + (first :: more).length - 1] ++ line.drop s.cursor.column) =
        some _ := if_pos hlast
    rw [getElem?_eq_getElem hlast, bind_some, hset, bind_some]
    refine ⟨_, rfl, ⟨_, getElem?_set_self hlast, ?_⟩, hdoc.set ?_ hset⟩
    · exact Nat.sub_le _ _
    · exact (hdoc _ (List.getElem_mem hlast)).append hafter

theorem exists_soundUnits {units : List Bytes} (hs : s.Sound) (hunits : ∀ unit ∈ units, unit ≠ []) :
    ∃ t, s.insertUnits units = some t ∧ t.Sound := by
  obtain ⟨line, hline, hcol⟩ := hs.cursor
  have hindex : s.cursor.line < s.document.length := (List.getElem?_eq_some_iff.1 hline).1
  have hins : insertAt? line s.cursor.column (units.map fun unit => ⟨unit, none⟩) = some _ := if_pos hcol
  have hlineOk : LineOk (line.take s.cursor.column ++ (units.map fun unit => ⟨unit, none⟩) ++
      line.drop s.cursor.column) := by
    intro segment hmem
    rcases mem_of_insertAt? hins hmem with hmem | hmem
    · exact hs.ok.get hline segment hmem
    · obtain ⟨unit, hunit, rfl⟩ := List.mem_map.1 hmem
      exact ⟨hunits unit hunit, fun hsome => by cases hsome⟩
  have hset : setAt? s.document s.cursor.line (line.take s.cursor.column ++
      (units.map fun unit => ⟨unit, none⟩) ++ line.drop s.cursor.column) = some _ := if_pos hindex
  simp only [insertUnits, hline, hins, hset, bind_eq_bind, bind_some]
  refine ⟨_, rfl, ⟨_, getElem?_set_self hindex, ?_⟩, hs.ok.set hlineOk hset⟩
  simp only [length_append, List.length_map, length_take, List.length_drop]
  omega

/-! ## Deletion -/

theorem exists_joinWithPrevious (hs : s.Sound) (hline : 0 < s.cursor.line) :
    ∃ t, s.joinWithPrevious = some t ∧ t.Sound := by
  obtain ⟨current, hcur, -⟩ := hs.cursor
  have hindex : s.cursor.line < s.document.length := (List.getElem?_eq_some_iff.1 hcur).1
  have hindex' : s.cursor.line - 1 < s.document.length := by omega
  have hprevious : s.document[s.cursor.line - 1]? = some s.document[s.cursor.line - 1] := getElem?_eq_getElem hindex'
  have hset : setAt? s.document (s.cursor.line - 1) (s.document[s.cursor.line - 1] ++ current) =
    some _ := if_pos hindex'
  have herase : eraseSlice? (s.document.set (s.cursor.line - 1)
      (s.document[s.cursor.line - 1] ++ current)) s.cursor.line (s.cursor.line + 1) = some _ :=
    if_pos ⟨Nat.le_succ _, by rw [length_set]; omega⟩
  have hjoined := hs.ok.set ((hs.ok.get hprevious).append (hs.ok.get hcur)) hset
  simp only [joinWithPrevious, hcur, hprevious, hset, herase, bind_eq_bind, bind_some]
  refine ⟨_, rfl, ⟨s.document[s.cursor.line - 1] ++ current, ?_, ?_⟩, hjoined.erase herase⟩
  · simp only
    rw [List.getElem?_append_left (by rw [length_take, length_set]; omega),
      List.getElem?_take_of_lt (by omega), getElem?_set_self hindex']
  · rw [length_append]
    exact Nat.le_add_right _ _

theorem exists_joinWithNext (hs : s.Sound) (hline : s.cursor.line + 1 < s.document.length) :
    ∃ t, s.joinWithNext = some t ∧ t.Sound := by
  obtain ⟨current, hcur, hcol⟩ := hs.cursor
  have hindex : s.cursor.line < s.document.length := by omega
  have hnext : s.document[s.cursor.line + 1]? = some s.document[s.cursor.line + 1] := getElem?_eq_getElem hline
  have hset : setAt? s.document s.cursor.line (current ++ s.document[s.cursor.line + 1]) = some _ := if_pos hindex
  have herase : eraseSlice? (s.document.set s.cursor.line (current ++ s.document[s.cursor.line + 1]))
      (s.cursor.line + 1) (s.cursor.line + 2) = some _ :=
    if_pos ⟨Nat.le_succ _, by rw [length_set]; omega⟩
  have hjoined := hs.ok.set ((hs.ok.get hcur).append (hs.ok.get hnext)) hset
  simp only [joinWithNext, hcur, hnext, hset, herase, bind_eq_bind, bind_some]
  refine ⟨_, rfl, ⟨current ++ s.document[s.cursor.line + 1], ?_, ?_⟩, hjoined.erase herase⟩
  · simp only
    rw [List.getElem?_append_left (by rw [length_take, length_set]; omega),
      List.getElem?_take_of_lt (by omega), getElem?_set_self hindex]
  · rw [length_append]
    exact hcol.trans (Nat.le_add_right _ _)

variable {line : BufferLine}

theorem exists_removeUntil (hs : s.Sound)
    (hline : s.document[s.cursor.line]? = some line) {target : Nat} {forward : Bool}
    (hrange : if forward then s.cursor.column ≤ target ∧ target ≤ line.length
      else target ≤ s.cursor.column ∧ s.cursor.column ≤ line.length) :
    ∃ removed t, s.removeUntil target forward = some (removed, t) ∧ t.Sound ∧ LineOk removed := by
  have hindex : s.cursor.line < s.document.length := (List.getElem?_eq_some_iff.1 hline).1
  have hlineOk := hs.ok.get hline
  obtain ⟨start, stop, hstart, hstop, hle, hbound⟩ : ∃ start stop,
      (if forward then s.cursor.column else target) = start ∧
      (if forward then target else s.cursor.column) = stop ∧ start ≤ stop ∧ stop ≤ line.length := by
    cases forward with
    | true | false => exact ⟨_, _, rfl, rfl, hrange.1, hrange.2⟩
  have hslice : slice? line start stop = some _ := if_pos ⟨hle, hbound⟩
  have herase : eraseSlice? line start stop = some _ := if_pos ⟨hle, hbound⟩
  have hset : setAt? s.document s.cursor.line (line.take start ++ line.drop stop) = some _ := if_pos hindex
  simp only [removeUntil, hline, hstart, hstop, hslice, herase, bind_eq_bind, bind_some]
  refine ⟨_, _, rfl, ⟨⟨_, getElem?_set_self hindex, ?_⟩, ?_⟩, hlineOk.slice hslice⟩
  · simp only [length_append, length_take, List.length_drop]
    omega
  · exact hs.ok.set (hlineOk.erase herase) hset

/-! ## Forgetting pastes -/

/-- The lines are as long as before and the cursor has not moved. -/
structure SameShape (s t : TextBuffer) : Prop where
  lengths : t.document.map List.length = s.document.map List.length
  cursor : t.cursor = s.cursor

theorem SameShape.refl (s : TextBuffer) : SameShape s s := ⟨rfl, rfl⟩

theorem SameShape.trans {t u : TextBuffer} (h : SameShape s t) (h' : SameShape t u) : SameShape s u :=
  ⟨h'.lengths.trans h.lengths, h'.cursor.trans h.cursor⟩

theorem SameShape.length (h : SameShape s t) : t.document.length = s.document.length := by
  have hlen := congrArg List.length h.lengths
  rwa [List.length_map, List.length_map] at hlen

theorem SameShape.get (h : SameShape s t) (hline : s.document[index]? = some line) :
    ∃ line', t.document[index]? = some line' ∧ line'.length = line.length := by
  have hget := congrArg (·[index]?) h.lengths
  simp only [List.getElem?_map, hline, Option.map_some] at hget
  obtain ⟨line', hline', hlen⟩ := Option.map_eq_some_iff.1 hget
  exact ⟨line', hline', hlen⟩

theorem exists_renumberSegment {segment : BufferSegment} (h : SegmentOk segment) (id : Nat) :
    ∃ renumbered, renumberSegment id segment = some renumbered ∧ SegmentOk renumbered := by
  unfold renumberSegment
  cases hid : segment.pasteId with
  | none => exact ⟨segment, rfl, h⟩
  | some other =>
    by_cases hlater : id < other
    · obtain ⟨text, htext, hrenumberable, hne⟩ := exists_renumberMarker (h.2 (by rw [hid]; rfl)) (other - 1)
      exact ⟨⟨text, some (other - 1)⟩, by simp [hlater, htext], hne, fun _ => hrenumberable⟩
    · exact ⟨segment, by simp [hlater], h⟩

theorem exists_forgetPaste (h : DocumentOk s.document) (id : Nat) :
    ∃ t, s.forgetPaste id = some t ∧ DocumentOk t.document ∧ SameShape s t := by
  obtain ⟨document, hdoc, hlines⟩ : ∃ document,
      s.document.mapM (fun line => line.mapM (renumberSegment id)) = some document ∧
        List.Forall₂ (fun line line' : BufferLine => line'.length = line.length ∧ LineOk line')
          s.document document := by
    refine exists_mapM fun line hline => ?_
    obtain ⟨line', hline', hsegs⟩ := exists_mapM (p := fun _ renumbered => SegmentOk renumbered)
      fun segment hseg => exists_renumberSegment (h line hline segment hseg) id
    refine ⟨line', hline', hsegs.length_eq.symm, fun segment hmem => ?_⟩
    obtain ⟨-, -, hok⟩ := exists_of_forall₂_right hsegs hmem
    exact hok
  refine ⟨{ s with
    document := document
    pastes := fun other => if other < id then s.pastes other else s.pastes (other + 1)
    pasteCounter := s.pasteCounter - 1 }, by rw [forgetPaste, hdoc]; rfl, ?_, ?_, rfl⟩
  · intro line hmem
    obtain ⟨-, -, -, hok⟩ := exists_of_forall₂_right hlines hmem
    exact hok
  · exact map_length_of_forall₂ hlines fun _ _ h => h.1

theorem exists_forgetSegment (h : DocumentOk s.document) (segment : BufferSegment) :
    ∃ t, s.forgetSegment segment = some t ∧ DocumentOk t.document ∧ SameShape s t := by
  unfold forgetSegment
  cases segment.pasteId with
  | none => exact ⟨s, rfl, h, .refl s⟩
  | some id => exact exists_forgetPaste h id

theorem exists_forgetColumns (h : DocumentOk s.document)
    (hline : s.document[index]? = some line) {columns : List Nat} (hcolumns : ∀ c ∈ columns, c < line.length) :
    ∃ t, columns.foldlM (fun s column => do
      let segments ← s.document[index]?
      let segment ← segments[column]?
      s.forgetSegment segment) s = some t ∧ DocumentOk t.document ∧ SameShape s t := by
  induction columns generalizing s line with
  | nil => exact ⟨s, rfl, h, .refl s⟩
  | cons column columns ih =>
    have hlt : column < line.length := hcolumns column mem_cons_self
    have hcol : (line)[column]? = some (line)[column] := getElem?_eq_getElem hlt
    obtain ⟨next, hnext, hok, hshape⟩ := exists_forgetSegment h (line)[column]
    obtain ⟨line', hline', hlen⟩ := hshape.get hline
    obtain ⟨t, ht, hok', hshape'⟩ := ih hok hline' fun c hc => by
      rw [hlen]
      exact hcolumns c (List.mem_cons_of_mem _ hc)
    refine ⟨t, ?_, hok', hshape.trans hshape'⟩
    rw [List.foldlM_cons]
    simp only [hline, hcol, hnext, bind_eq_bind, bind_some]
    exact ht

theorem exists_forgetSpan (h : DocumentOk s.document) (start : Nat) {index stop : Nat}
    (hline : s.document[index]? = some line) (hstop : stop ≤ line.length) :
    ∃ t, s.forgetSpan index start stop = some t ∧ DocumentOk t.document ∧ SameShape s t := by
  refine exists_forgetColumns h hline fun column hmem => ?_
  obtain ⟨hlow, hhigh⟩ := List.mem_range'_1.1 hmem
  omega

theorem exists_forgetLines (h : DocumentOk s.document) {lines : List Nat}
    (hlines : ∀ line ∈ lines, line < s.document.length) :
    ∃ t, s.forgetLines lines = some t ∧ DocumentOk t.document ∧ SameShape s t := by
  induction lines generalizing s with
  | nil => exact ⟨s, rfl, h, .refl s⟩
  | cons index lines ih =>
    have hlt : index < s.document.length := hlines index mem_cons_self
    have hline : s.document[index]? = some s.document[index] := getElem?_eq_getElem hlt
    obtain ⟨next, hnext, hok, hshape⟩ := exists_forgetSpan h 0 hline le_rfl
    obtain ⟨t, ht, hok', hshape'⟩ := ih hok fun line hmem => by
      rw [hshape.length]
      exact hlines line (List.mem_cons_of_mem _ hmem)
    refine ⟨t, ?_, hok', hshape.trans hshape'⟩
    simp only [forgetLines, hline, hnext, bind_eq_bind, bind_some]
    exact ht

theorem exists_deleteSegment (hs : s.Sound) {column : Nat}
    (hline : s.document[s.cursor.line]? = some line) (hcol : column < line.length) :
    ∃ t line', s.deleteSegment column = some t ∧ DocumentOk t.document ∧ t.cursor = s.cursor ∧
      t.document[s.cursor.line]? = some line' ∧ line'.length + 1 = line.length := by
  have hseg : (line)[column]? = some (line)[column] := getElem?_eq_getElem hcol
  obtain ⟨next, hnext, hok, hshape⟩ := exists_forgetSegment hs.ok (line)[column]
  obtain ⟨line', hline', hlen⟩ := hshape.get hline
  have hcursor := hshape.cursor
  have herase : eraseSlice? line' column (column + 1) = some _ := if_pos ⟨Nat.le_succ _, by omega⟩
  have hindex : s.cursor.line < next.document.length := (List.getElem?_eq_some_iff.1 hline').1
  have hset : setAt? next.document s.cursor.line (line'.take column ++ line'.drop (column + 1)) =
    some _ := if_pos hindex
  let kept := line'.take column ++ line'.drop (column + 1)
  refine ⟨{ next with document := next.document.set s.cursor.line kept }, kept, ?_,
    hok.set ((hok.get hline').erase herase) hset, hcursor, getElem?_set_self hindex, ?_⟩
  · simp only [deleteSegment, hline, hseg, hnext, hcursor, hline', herase, hset, bind_eq_bind, bind_some]
    rfl
  have hkept := (length_of_eraseSlice? herase).2.2
  rw [show kept.length = line'.length - (column + 1 - column) from hkept]
  omega

/-- The erasure of a range is defined whatever its ends are. It leaves the state alone when an end is on no
line, and else the cursor in the document. -/
theorem exists_eraseOrdered (h : DocumentOk s.document) {start stop : BufferCursor}
    (horder : start.line < stop.line ∨ (start.line = stop.line ∧ start.column ≤ stop.column)) :
    ∃ t, s.eraseOrdered start stop = some t ∧
      ((t = s ∧ (s.document.length ≤ start.line ∨ s.document.length ≤ stop.line)) ∨ t.Sound) := by
  unfold eraseOrdered
  split
  · next hlines => exact ⟨s, rfl, .inl ⟨rfl, hlines⟩⟩
  next hlines =>
  rw [not_or, not_le, not_le] at hlines
  obtain ⟨hstart, hstop⟩ := hlines
  have hfirst : s.document[start.line]? = some s.document[start.line] := getElem?_eq_getElem hstart
  split
  · next hsame =>
    generalize s.document[start.line] = line at hfirst
    obtain ⟨next, hnext, hok, hshape⟩ := exists_forgetSpan h (min start.column line.length) hfirst
      (Nat.min_le_right stop.column line.length)
    obtain ⟨line', hline', hlen⟩ := hshape.get hfirst
    have hindex : start.line < next.document.length := (List.getElem?_eq_some_iff.1 hline').1
    have herase : eraseSlice? line' (min start.column line.length) (min stop.column line.length) =
      some _ := if_pos (by omega)
    have hset : setAt? next.document start.line _ = some (next.document.set start.line
      (line'.take (min start.column line.length) ++ line'.drop (min stop.column line.length))) :=
      if_pos hindex
    simp only [hfirst, hnext, hline', herase, hset, bind_eq_bind, bind_some]
    exact ⟨_, rfl, .inr (sound_clampCursor (hok.set ((hok.get hline').erase herase) hset))⟩
  next hsame =>
  -- The lines keep their lengths while the pastes are forgotten, so every later access is inside.
  have hlt : start.line < stop.line := by omega
  generalize s.document[start.line] = first at hfirst
  obtain ⟨second, hsnd, hok, hshape⟩ := exists_forgetSpan h (min start.column first.length) hfirst le_rfl
  obtain ⟨first', hfirst', hlen⟩ := hshape.get hfirst
  have hindex : start.line < second.document.length := (List.getElem?_eq_some_iff.1 hfirst').1
  have herase : eraseSlice? first' (min start.column first.length) first'.length = some _ :=
    eraseSlice?_tail (by omega)
  have hset : setAt? second.document start.line (first'.take (min start.column first.length)) =
    some _ := if_pos hindex
  have hokHead := hok.set ((hok.get hfirst').erase herase) hset
  have hlengthHead := (length_of_setAt? hset).2
  generalize second.document.set start.line (first'.take (min start.column first.length)) = document
    at hset hokHead hlengthHead
  have hmid : ∀ line ∈ List.range' (start.line + 1) (stop.line - (start.line + 1)), line < document.length := by
    intro line hmem
    obtain ⟨-, hhigh⟩ := List.mem_range'_1.1 hmem
    have hlengthSecond := hshape.length
    omega
  obtain ⟨third, hthird, hokThird, hshapeThird⟩ :=
    exists_forgetLines (s := { second with document := document }) hokHead hmid
  have hlengthThird : third.document.length = s.document.length := by
    rw [hshapeThird.length]
    exact hlengthHead.trans hshape.length
  have hlast : third.document[stop.line]? = some third.document[stop.line] := getElem?_eq_getElem (by omega)
  generalize third.document[stop.line] = last at hlast
  obtain ⟨fourth, hfourth, hokFourth, hshapeFourth⟩ := exists_forgetSpan hokThird 0 hlast
    (Nat.min_le_right stop.column last.length)
  obtain ⟨last', hlast', hlengthLast⟩ := hshapeFourth.get hlast
  have hslice : slice? last' (min stop.column last.length) last'.length = some _ := slice?_tail (by omega)
  have hlengthFourth : fourth.document.length = s.document.length := hshapeFourth.length.trans hlengthThird
  have hfirst'' : fourth.document[start.line]? = some fourth.document[start.line] := getElem?_eq_getElem (by omega)
  generalize fourth.document[start.line] = first'' at hfirst''
  have hset' : setAt? fourth.document start.line
    (first'' ++ last'.drop (min stop.column last.length)) = some _ := if_pos (by omega)
  have herase' : eraseSlice? (fourth.document.set start.line
      (first'' ++ last'.drop (min stop.column last.length))) (start.line + 1) (stop.line + 1) =
    some _ := if_pos ⟨by omega, by rw [length_set]; omega⟩
  have hokJoined := (hokFourth.set ((hokFourth.get hfirst'').append
    ((hokFourth.get hlast').slice hslice)) hset').erase herase'
  simp only [hfirst, hsnd, hfirst', herase, hset, hthird, hlast, hfourth, hlast', hslice, hfirst'',
    hset', herase', bind_eq_bind, bind_some]
  exact ⟨_, rfl, .inr (sound_clampCursor hokJoined)⟩

theorem exists_eraseRange (h : DocumentOk s.document) (start stop : BufferCursor) :
    ∃ t, s.eraseRange start stop = some t ∧
      ((t = s ∧ (s.document.length ≤ start.line ∨ s.document.length ≤ stop.line)) ∨ t.Sound) := by
  unfold eraseRange
  split
  · next hswapped =>
    have horder : stop.line < start.line ∨ (stop.line = start.line ∧ stop.column ≤ start.column) := by
      omega
    obtain ⟨t, ht, hsound⟩ := exists_eraseOrdered h horder
    exact ⟨t, ht, hsound.imp_left fun hout => ⟨hout.1, hout.2.symm⟩⟩
  · next hordered => exact exists_eraseOrdered h (by omega)

end TextBuffer

/-! ## Word boundaries -/

/-- What the segmentation libraries promise: graphemes are not empty and words lie in the text. -/
structure Segmenter.Lawful (lib : Segmenter) : Prop where
  graphemes : ∀ text, ∀ grapheme ∈ lib.splitGraphemes text, grapheme ≠ []
  words : ∀ text words, lib.segmentWords text = .ok words → ∀ word ∈ words, word.byteEnd ≤ text.length

variable {spans : List WordAtomicSpan}

theorem nextSegment_bound {finish : Nat} {words words' : List WordSegment}
    {spans' : List WordAtomicSpan} {segment : NavigationSegment}
    (hwords : ∀ word ∈ words, word.byteEnd ≤ bound) (hspans : ∀ span ∈ spans, span.byteEnd ≤ bound)
    (h : nextSegment finish words spans position = some (segment, words', spans')) :
    segment.byteStart = position ∧ segment.byteEnd ≤ bound ∧ (∀ word ∈ words', word.byteEnd ≤ bound) ∧
      ∀ span ∈ spans', span.byteEnd ≤ bound := by
  -- The words and spans that are left are among those that were there.
  have hwords' : ∀ word ∈ words.dropWhile fun word => decide (word.byteEnd ≤ position),
      word.byteEnd ≤ bound := fun word hmem => hwords word ((List.dropWhile_suffix _).subset hmem)
  have hspans' : ∀ span ∈ spans.dropWhile fun span => decide (span.byteEnd ≤ position),
      span.byteEnd ≤ bound := fun span hmem => hspans span ((List.dropWhile_suffix _).subset hmem)
  have hpiece : ∀ kept next, (∀ span ∈ kept, span.byteEnd ≤ bound) →
      wordPiece (words.dropWhile fun word => decide (word.byteEnd ≤ position)) kept position next =
        some (segment, words', spans') →
      segment.byteStart = position ∧ segment.byteEnd ≤ bound ∧
        (∀ word ∈ words', word.byteEnd ≤ bound) ∧ ∀ span ∈ spans', span.byteEnd ≤ bound := by
    intro kept next hkept hpiece
    unfold wordPiece at hpiece
    split at hpiece
    · cases hpiece
    next word later heq =>
    dsimp only at hpiece
    split at hpiece
    · cases hpiece
    obtain ⟨rfl, rfl, rfl⟩ := hpiece
    rw [heq] at hwords'
    have hword := hwords' word mem_cons_self
    exact ⟨rfl, (Nat.min_le_left _ _).trans hword, hwords', hkept⟩
  unfold nextSegment at h
  dsimp only at h
  split at h
  · next span later heq =>
    rw [heq] at hspans'
    split at h
    · next hstart =>
      obtain ⟨rfl, rfl, rfl⟩ := h
      exact ⟨hstart, hspans' span mem_cons_self, hwords', fun span' hmem =>
        hspans' span' (List.mem_cons_of_mem _ hmem)⟩
    · exact hpiece _ _ hspans' h
  · exact hpiece _ _ (by simp) h

variable {words : List WordSegment}

theorem mergeLoop_bound {finish fuel : Nat} (hfinish : finish ≤ bound)
    (hwords : ∀ word ∈ words, word.byteEnd ≤ bound) (hspans : ∀ span ∈ spans, span.byteEnd ≤ bound) :
    ∀ segment ∈ mergeLoop finish fuel words spans position, segment.byteStart ≤ bound ∧ segment.byteEnd ≤ bound := by
  induction fuel generalizing position words spans with
  | zero => intro segment hmem; cases hmem
  | succ fuel ih =>
    intro segment hmem
    rw [mergeLoop] at hmem
    split at hmem
    · cases hmem
    split at hmem
    · cases hmem
    next first words' spans' hnext =>
    obtain ⟨hstart, hend, hwords', hspans'⟩ := nextSegment_bound hwords hspans hnext
    rcases List.mem_cons.1 hmem with rfl | hmem
    · exact ⟨by omega, hend⟩
    · exact ih hwords' hspans' segment hmem

theorem mergeAtomicSpans_bound
    (hwords : ∀ word ∈ words, word.byteEnd ≤ bound) (hspans : ∀ span ∈ spans, span.byteEnd ≤ bound) :
    ∀ segment ∈ mergeAtomicSpans words spans, segment.byteStart ≤ bound ∧ segment.byteEnd ≤ bound := by
  refine mergeLoop_bound ?_ hwords hspans
  cases hlast : words.getLast? with
  | none => exact Nat.zero_le _
  | some last => exact hwords last (List.mem_of_getLast? hlast)

theorem clipAtomicSpans_bound {start finish : Nat} :
    ∀ span ∈ clipAtomicSpans spans start finish, span.byteEnd ≤ finish - start := by
  intro span hmem
  obtain ⟨clipped, -, rfl⟩ := List.mem_map.1 hmem
  exact Nat.sub_le_sub_right (Nat.min_le_right _ _) _

theorem findWordBackward_le {lib : Segmenter} (hlib : lib.Lawful) {text : Bytes}
    {cursor result : Nat} (h : findWordBackward lib text cursor spans = .ok result) : result ≤ cursor := by
  simp only [findWordBackward, bind, Except.bind, pure, Except.pure] at h
  split at h
  · next hzero =>
    cases h
    omega
  split at h
  · cases h
  next words hwords =>
  -- Every segment of the text before the cursor ends there at the latest.
  have hbound : ∀ segment ∈ (mergeAtomicSpans words (clipAtomicSpans spans 0 (min cursor text.length))).reverse,
      segment.byteStart ≤ cursor ∧ segment.byteEnd ≤ cursor := by
    intro segment hmem
    refine mergeAtomicSpans_bound (fun word hword => ?_) (fun span hspan => ?_) segment (List.mem_reverse.1 hmem)
    · have hend := hlib.words _ _ hwords word hword
      rw [length_take] at hend
      omega
    · have hend := clipAtomicSpans_bound span hspan
      omega
  generalize (mergeAtomicSpans words (clipAtomicSpans spans 0 (min cursor text.length))).reverse =
    segments at h hbound
  have hlast : ∀ (part : List NavigationSegment) (other : Nat), (∀ segment ∈ part, segment ∈ segments) →
      other ≤ cursor → (part.getLast?.map NavigationSegment.byteStart).getD other ≤ cursor := by
    intro part other hpart hother
    cases hlast : part.getLast? with
    | none => exact hother
    | some last => exact (hbound last (hpart last (List.mem_of_getLast? hlast))).1
  split at h
  · cases h
    exact hlast _ _ (fun segment hmem => (List.takeWhile_prefix _).subset hmem) (Nat.min_le_left _ _)
  next last rest heq =>
  have hsub : ∀ segment ∈ last :: rest, segment ∈ segments := fun segment hmem =>
    (List.dropWhile_suffix _).subset (heq ▸ hmem)
  have hmem := hbound last (hsub last mem_cons_self)
  split at h
  · cases h
    exact hmem.1
  split at h
  · cases h
    exact (Nat.sub_le _ _).trans hmem.2
  rw [heq] at h
  split at h
  · cases h
    exact hlast _ _ hsub hmem.1
  next before later heq' =>
  cases h
  have hprev : before ∈ last :: rest := (List.dropWhile_suffix _).subset (heq' ▸ mem_cons_self)
  exact (hbound before (hsub before hprev)).2

theorem le_findWordForward {lib : Segmenter} {text : Bytes} {cursor result : Nat} (hcursor : cursor ≤ text.length)
    (h : findWordForward lib text cursor spans = .ok result) : cursor ≤ result := by
  simp only [findWordForward, bind, Except.bind, pure, Except.pure, Nat.min_eq_left hcursor] at h
  split at h
  · cases h
    exact hcursor
  split at h
  · cases h
  split at h
  · cases h
    exact hcursor
  split at h
  · cases h
    exact Nat.le_add_right _ _
  split at h
  · cases h
    exact Nat.le_add_right _ _
  · cases h
    exact Nat.le_add_right _ _

end CodingHarness.Tui
