import CodingHarness.Tui.BufferBounds
import Mathlib.Data.List.SplitBy

/-!
# Operations of the buffer stay inside their bounds

An operation whose condition `Within` holds has a result and keeps the document and the cursor in order
(`within_apply`), and so does a run of such operations (`bounds_kept`). The condition is about the state
before the step: above all, that a forward word kill which continues another kill finds lines to join on
both sides. Two word kills of which one joins lines do not find them (`word_kills_out_of_bounds`).
-/

namespace CodingHarness.Tui

open Library Support
open List (getElem?_eq_getElem length_append mem_cons_of_mem mem_cons_self not_mem_nil)
open Option (bind_eq_bind bind_some map_some)
open Nat (sub_le zero_le)

namespace TextBuffer

/-! ## Columns -/

theorem columnAt_le_length (line : BufferLine) (offset : Nat) : columnAt line offset ≤ line.length := by
  induction line generalizing offset with
  | nil => exact zero_le _
  | cons segment rest ih =>
    rw [columnAt]
    split
    · exact zero_le _
    · exact Nat.succ_le_succ (ih _)

variable {line : BufferLine} {column offset : Nat}

theorem columnAt_le (h : offset ≤ (lineText (line.take column)).length) : columnAt line offset ≤ column := by
  induction line generalizing column offset with
  | nil => exact zero_le _
  | cons segment rest ih =>
    rw [columnAt]
    split
    · exact zero_le _
    next hoffset =>
    cases column with
    | zero => exact absurd (Nat.le_zero.1 h) hoffset
    | succ column =>
      rw [List.take_succ_cons, lineText, List.flatMap_cons, length_append] at h
      exact Nat.succ_le_succ (ih (Nat.sub_le_iff_le_add'.2 h))

/-- Segments have a text, so a column after others is never at the offset zero. -/
theorem le_columnAt (hline : LineOk line)
    (hcol : column ≤ line.length) (h : (lineText (line.take column)).length ≤ offset) :
    column ≤ columnAt line offset := by
  induction line generalizing column offset with
  | nil => exact hcol
  | cons segment rest ih =>
    cases column with
    | zero => exact zero_le _
    | succ column =>
      rw [List.take_succ_cons, lineText, List.flatMap_cons, length_append] at h
      have hpos := List.length_pos_of_ne_nil (hline segment mem_cons_self).1
      rw [columnAt, if_neg (by omega)]
      refine Nat.succ_le_succ (ih (fun other hmem => hline other (mem_cons_of_mem _ hmem))
        (Nat.le_of_succ_le_succ hcol) ?_)
      rw [lineText]
      omega

variable {s : TextBuffer}

theorem cursorByteOffset_eq (hline : s.document[s.cursor.line]? = some line):
    s.cursorByteOffset = (lineText (line.take s.cursor.column)).length := by
  rw [cursorByteOffset, List.getD_eq_getElem?_getD, hline]
  rfl

theorem length_lineText_take_le (line : BufferLine) (column : Nat) :
    (lineText (line.take column)).length ≤ (lineText line).length := by
  conv_rhs => rw [← List.take_append_drop column line]
  rw [lineText, lineText, List.flatMap_append, length_append]
  exact Nat.le_add_right _ _

/-! ## The invariant -/

/-- What holds in every state that a run reaches. -/
structure Inv (s : TextBuffer) : Prop where
  sound : s.Sound
  stored : s.Stored

theorem Inv.frame {t : TextBuffer} (h : s.Stored) (hframe : Frame s t) (hsound : t.Sound) : t.Inv :=
  ⟨hsound, h.frame hframe⟩

theorem Inv.ready_eq (h : s.Inv) : s.ready = { s with error := none } := TextBuffer.ready_eq h.sound.cursor

theorem Motion.inv {t : TextBuffer} (h : Motion s t) (hs : s.Inv)
    (hcursor : CursorIn t.document t.cursor) : t.Inv := by
  obtain ⟨cursor, index, action, error, rfl⟩ := h
  exact ⟨⟨hcursor, hs.sound.ok⟩, ⟨hs.stored.undo, hs.stored.kills⟩⟩

section Motions

variable {lib : Segmenter}

/-- The word before the cursor is on its line, or the cursor goes to an earlier line. -/
theorem exists_moveWordBackward (hlib : lib.Lawful) (hs : s.Inv) :
    ∃ t, s.moveWordBackward lib = some t ∧ Motion s t ∧ CursorIn t.document t.cursor ∧
      (t.cursor.line = s.cursor.line → t.cursor.column ≤ s.cursor.column) := by
  obtain ⟨line, hline, hcol⟩ := hs.sound.cursor
  simp only [moveWordBackward, hs.ready_eq]
  split
  · next hstart =>
    have hindex : s.cursor.line - 1 < s.document.length := (sub_le _ _).trans_lt (List.getElem?_eq_some_iff.1 hline).1
    simp only [getElem?_eq_getElem hindex, bind_eq_bind, bind_some]
    refine ⟨_, rfl, ⟨_, _, _, _, rfl⟩, ⟨_, getElem?_eq_getElem hindex, le_rfl⟩, fun heq => ?_⟩
    have heq' : s.cursor.line - 1 = s.cursor.line := heq
    omega
  simp only [hline, bind_eq_bind, bind_some]
  split
  · exact ⟨_, rfl, ⟨_, _, _, _, rfl⟩, hs.sound.cursor, fun _ => le_rfl⟩
  next previous hfound =>
  refine ⟨_, rfl, ⟨_, _, _, _, rfl⟩, ⟨line, hline, columnAt_le_length line previous⟩, fun _ => columnAt_le ?_⟩
  have hle := findWordBackward_le hlib hfound
  rwa [cursorByteOffset_eq (s := { s with error := none }) hline] at hle

/-- The word after the cursor is on its line, or the cursor goes to the next line. -/
theorem exists_moveWordForward (lib : Segmenter) (hs : s.Inv) :
    ∃ t, s.moveWordForward lib = some t ∧ Motion s t ∧ CursorIn t.document t.cursor ∧
      (t.cursor.line = s.cursor.line → s.cursor.column ≤ t.cursor.column) ∧
      (t.cursor.line ≠ s.cursor.line → s.options.multiline = true ∧ s.cursor.line + 1 < s.document.length ∧
        s.document[s.cursor.line]?.map List.length = some s.cursor.column) := by
  obtain ⟨line, hline, hcol⟩ := hs.sound.cursor
  simp only [moveWordForward, hs.ready_eq, hline, bind_eq_bind, bind_some]
  split
  · next hend =>
    refine ⟨_, rfl, ⟨_, _, _, _, rfl⟩, ⟨_, getElem?_eq_getElem hend.2.1, zero_le _⟩,
      fun heq => ?_, fun _ => ⟨hend.2.2, hend.2.1, ?_⟩⟩
    · exact absurd heq (Nat.succ_ne_self _)
    · rw [map_some, hend.1]
  split
  · exact ⟨_, rfl, ⟨_, _, _, _, rfl⟩, hs.sound.cursor, fun _ => le_rfl, fun hne => absurd rfl hne⟩
  next target hfound =>
  refine ⟨_, rfl, ⟨_, _, _, _, rfl⟩, ⟨line, hline, columnAt_le_length line target⟩,
    fun _ => ?_, fun hne => absurd rfl hne⟩
  rw [cursorByteOffset_eq (s := { s with error := none }) hline] at hfound
  exact le_columnAt (hs.sound.ok.get hline) hcol (le_findWordForward (length_lineText_take_le line _) hfound)

end Motions

/-! ## Documents that come in -/

theorem segmentLines_ok {lib : Segmenter} (hlib : lib.Lawful) (multiline : Bool) (text : Bytes) :
    DocumentOk (segmentLines lib multiline text) := by
  intro line hline segment hseg
  obtain ⟨source, -, rfl⟩ := List.mem_map.1 hline
  obtain ⟨unit, hunit, rfl⟩ := List.mem_map.1 hseg
  exact ⟨hlib.graphemes source unit hunit, fun hsome => by cases hsome⟩

theorem segmentLines_ne_nil (lib : Segmenter) (multiline : Bool) (text : Bytes) :
    segmentLines lib multiline text ≠ [] := by
  unfold segmentLines
  cases multiline with
  | true => simp [List.splitOn_ne_nil]
  | false => simp

theorem markerSegment_ok (id : Nat) (content : Bytes) : SegmentOk ⟨markerFor id content, some id⟩ :=
  ⟨markerFor_ne_nil id content, fun _ => renumberable_markerFor id content⟩

theorem materializeSegment_ok (entry : KillEntry) (remapped : List (Nat × Nat)) (s : TextBuffer)
    {segment : BufferSegment} (h : SegmentOk segment) : SegmentOk (materializeSegment entry remapped s segment).1 ∧
      (materializeSegment entry remapped s segment).2.2.document = s.document ∧
      (materializeSegment entry remapped s segment).2.2.cursor = s.cursor := by
  unfold materializeSegment
  split
  · exact ⟨h, rfl, rfl⟩
  split
  · exact ⟨markerSegment_ok _ _, rfl, rfl⟩
  split
  · exact ⟨h, rfl, rfl⟩
  · exact ⟨markerSegment_ok _ _, rfl, rfl⟩

theorem materializeLine_ok (entry : KillEntry) (remapped : List (Nat × Nat)) (s : TextBuffer) (h : LineOk line) :
    LineOk (materializeLine entry remapped s line).1 ∧
      (materializeLine entry remapped s line).2.2.document = s.document ∧
      (materializeLine entry remapped s line).2.2.cursor = s.cursor := by
  induction line generalizing remapped s with
  | nil => exact ⟨h, rfl, rfl⟩
  | cons segment rest ih =>
    obtain ⟨hfirst, hdoc, hcursor⟩ := materializeSegment_ok entry remapped s (h segment mem_cons_self)
    obtain ⟨hrest, hdoc', hcursor'⟩ := ih _ _ fun other hmem => h other (mem_cons_of_mem _ hmem)
    exact ⟨List.forall_mem_cons.2 ⟨hfirst, hrest⟩, hdoc'.trans hdoc, hcursor'.trans hcursor⟩

theorem materializeLines_ok (entry : KillEntry) (remapped : List (Nat × Nat)) (s : TextBuffer)
    {document : BufferDocument} (h : DocumentOk document) :
    DocumentOk (materializeLines entry remapped s document).1 ∧
      (materializeLines entry remapped s document).2.document = s.document ∧
      (materializeLines entry remapped s document).2.cursor = s.cursor := by
  induction document generalizing remapped s with
  | nil => exact ⟨h, rfl, rfl⟩
  | cons line rest ih =>
    obtain ⟨hfirst, hdoc, hcursor⟩ := materializeLine_ok entry remapped s (h line mem_cons_self)
    obtain ⟨hrest, hdoc', hcursor'⟩ := ih _ _ fun other hmem => h other (mem_cons_of_mem _ hmem)
    exact ⟨List.forall_mem_cons.2 ⟨hfirst, hrest⟩, hdoc'.trans hdoc, hcursor'.trans hcursor⟩

theorem exists_insertKill {entry : KillEntry} (hs : s.Inv) (hentry : DocumentOk entry.document):
    ∃ t, (s.materializeKill entry).2.insertSegments (s.materializeKill entry).1 = some t ∧ t.Inv := by
  obtain ⟨hok, hdoc, hcursor⟩ := materializeLines_ok entry [] s hentry
  have hsound : (s.materializeKill entry).2.Sound := by
    refine ⟨?_, ?_⟩
    · rw [materializeKill, hdoc, hcursor]
      exact hs.sound.cursor
    · rw [materializeKill, hdoc]
      exact hs.sound.ok
  obtain ⟨t, ht, hsound'⟩ := exists_insertSegments hsound hok
  exact ⟨t, ht, .frame hs.stored ((frame_materializeKill s entry).trans (frame_insertSegments ht)) hsound'⟩

/-! ## Kills -/

theorem exists_killRange {stop : BufferCursor} (hs : s.Sound)
    (hsame : s.cursor.line = stop.line → s.cursor.column ≤ stop.column ∧ CursorIn s.document stop) :
    ∃ text deleted t, s.killRange s.cursor stop = some (text, deleted, t) ∧ t.Sound ∧
      DocumentOk deleted ∧ (s.cursor.line = stop.line → deleted ≠ []) := by
  unfold killRange
  split
  · next heq =>
    obtain ⟨hle, line, hline, hcol⟩ := hsame heq
    rw [← heq] at hline
    obtain ⟨removed, t, hremove, hsound, hok⟩ : ∃ removed t,
        s.removeUntil stop.column true = some (removed, t) ∧ t.Sound ∧ LineOk removed :=
      exists_removeUntil hs hline ⟨hle, hcol⟩
    simp only [hremove, bind_eq_bind, bind_some]
    refine ⟨_, _, _, rfl, hsound, fun line hmem => ?_, fun _ => List.cons_ne_nil _ _⟩
    rwa [List.mem_singleton.1 hmem]
  next hne =>
  obtain ⟨t, ht, hsound⟩ := exists_eraseRange hs.ok s.cursor stop
  simp only [ht, bind_eq_bind, bind_some]
  refine ⟨_, _, _, rfl, ?_, fun line hmem => (not_mem_nil hmem).elim, fun heq => absurd heq hne⟩
  rcases hsound with ⟨rfl, -⟩ | hsound
  · exact hs
  · exact hsound

variable {deleted last : BufferDocument}

theorem mergeBackward_ok (hdel : DocumentOk deleted)
    (hlast : DocumentOk last) : DocumentOk (mergeBackward deleted last) := by
  unfold mergeBackward
  split
  · next lastDeleted first more hget =>
    intro line hmem
    simp only [List.mem_append, List.mem_singleton] at hmem
    rcases hmem with (hmem | rfl) | hmem
    · exact hdel line (List.dropLast_subset _ hmem)
    · exact (hdel _ (List.mem_of_getLast? hget)).append (hlast _ mem_cons_self)
    · exact hlast line (mem_cons_of_mem _ hmem)
  · exact hdel

theorem exists_mergeForward (hdel : DocumentOk deleted)
    (hlast : DocumentOk last) (hne : deleted ≠ []) (hne' : last ≠ []) :
    ∃ document, mergeForward deleted last = some document ∧ DocumentOk document := by
  cases deleted with
  | nil => exact absurd rfl hne
  | cons first more =>
    have hget := List.getLast?_eq_some_getLast hne'
    simp only [mergeForward, hget, List.head?_cons, List.tail_cons, bind_eq_bind, bind_some]
    refine ⟨_, rfl, fun line hmem => ?_⟩
    simp only [List.mem_append, List.mem_singleton] at hmem
    rcases hmem with (hmem | rfl) | hmem
    · exact hlast line (List.dropLast_subset _ hmem)
    · exact (hlast _ (List.getLast_mem hne')).append (hdel _ mem_cons_self)
    · exact hdel line (mem_cons_of_mem _ hmem)

theorem Inv.withKills (h : s.Inv) {ring : List Bytes} {kills : List KillEntry}
    {action : LastAction} (hkills : ∀ entry ∈ kills, DocumentOk entry.document) :
    { s with killRing := ring, docKillRing := kills, lastAction := action }.Inv :=
  ⟨⟨h.sound.cursor, h.sound.ok⟩, ⟨h.stored.undo, hkills⟩⟩

theorem Inv.pushUndo (h : s.Inv) : s.pushUndo.Inv := ⟨⟨h.sound.cursor, h.sound.ok⟩, h.stored.pushUndo h.sound.ok⟩

/-! ## Operations -/

/-- The range that `yank_pop` replaces, when it goes that far. -/
def Replaces (s : TextBuffer) (start stop : BufferCursor) : Prop :=
  s.lastAction = .yank ∧ s.lastYankRingIndex.isSome = true ∧ s.lastYankRange = some (start, stop) ∧
    ¬ (s.docKillRing.length < 2 ∧ s.killRing.length < 2) ∧
    ¬ ((!s.options.multiline) = true ∧ start.line ≠ stop.line)

/-- The state before an operation allows it. A forward word kill that continues a kill is not at the end of
a line that another one follows, and the newest entry has a line that takes in the word. The lines of the
range that was yanked last are still there when it is replaced. The operations that get columns or segments
from their caller get such as belong to the document. -/
def Within (s : TextBuffer) : BufferOp → Prop
  | .deleteWordForward =>
    s.lastAction = .kill → ∀ entry rest, s.docKillRing = entry :: rest →
      ∀ line, s.document[s.cursor.line]? = some line → if s.cursor.column = line.length then
          s.document.length ≤ s.cursor.line + 1 ∨ s.options.multiline = false
        else entry.document ≠ []
  | .yankPop =>
    ∀ start stop, s.Replaces start stop → start.line < s.document.length ∧ stop.line < s.document.length
  | .insertSegments inserted => DocumentOk inserted
  | .applyCompletionEdit lineIndex startSegment afterBegin _ _ =>
    ∀ line, s.document[lineIndex]? = some line → startSegment ≤ line.length ∧ afterBegin ≤ line.length
  | _ => True

section Operations

variable {lib : Segmenter}

theorem Inv.withFlags (h : s.Inv) (action : LastAction) (error : Option Error) :
    { s with lastAction := action, error := error }.Inv :=
  ⟨⟨h.sound.cursor, h.sound.ok⟩, ⟨h.stored.undo, h.stored.kills⟩⟩

theorem Inv.clampCursor (hok : DocumentOk s.document) (hstored : s.Stored) : s.clampCursor.Inv :=
  .frame hstored (frame_clampCursor s) (sound_clampCursor hok)

theorem within_setText (hlib : lib.Lawful) (hs : s.Inv) (text : Bytes) (clear : Bool) :
    ∃ t, s.setText lib text clear = some t ∧ t.Inv := by
  have hne := segmentLines_ne_nil lib s.options.multiline (sanitizeInput text s.options.multiline)
  simp only [setText, List.getLast?_eq_some_getLast hne, bind_eq_bind, bind_some]
  refine ⟨_, rfl, .clampCursor (segmentLines_ok hlib _ _) ⟨fun snapshot hmem => ?_, hs.stored.kills⟩⟩
  split at hmem
  · cases hmem
  · exact hs.stored.undo snapshot hmem

theorem within_insertSegments (hs : s.Inv) {inserted : BufferDocument} (h : DocumentOk inserted) :
    ∃ t, s.insertSegments inserted = some t ∧ t.Inv := by
  obtain ⟨t, ht, hsound⟩ := exists_insertSegments hs.sound h
  exact ⟨t, ht, .frame hs.stored (frame_insertSegments ht) hsound⟩

theorem within_insertUnits (hlib : lib.Lawful) (hs : s.Inv) (grapheme : Bytes) :
    ∃ t, s.insertUnits (lib.splitGraphemes grapheme) = some t ∧ t.Inv := by
  obtain ⟨t, ht, hsound⟩ := exists_soundUnits hs.sound (hlib.graphemes grapheme)
  exact ⟨t, ht, .frame hs.stored (frame_insertUnits ht) hsound⟩

theorem within_insertCharacter (hlib : lib.Lawful) (hs : s.Inv) (grapheme : Bytes) :
    ∃ t, s.insertCharacter lib grapheme = some t ∧ t.Inv := by
  simp only [insertCharacter, hs.ready_eq]
  split
  · exact ⟨_, rfl, hs.withFlags s.lastAction none⟩
  split
  · exact within_insertUnits hlib ((hs.withFlags s.lastAction none).pushUndo.withFlags .typeWord none) _
  · exact within_insertUnits hlib (hs.withFlags .typeWord none) _

theorem within_insertText (hlib : lib.Lawful) (hs : s.Inv) (text : Bytes) (recordUndo : Bool) :
    ∃ t, s.insertText lib text recordUndo = some t ∧ t.Inv := by
  simp only [insertText]
  split
  · exact ⟨_, rfl, hs.withFlags s.lastAction none⟩
  cases recordUndo with
  | true =>
    exact within_insertSegments ((hs.withFlags s.lastAction none).pushUndo.withFlags .none none)
      (segmentLines_ok hlib _ _)
  | false => exact within_insertSegments (hs.withFlags .none none) (segmentLines_ok hlib _ _)

theorem within_insertPaste (hlib : lib.Lawful) (hs : s.Inv) (text : Bytes) :
    ∃ t, s.insertPaste lib text = some t ∧ t.Inv := by
  obtain ⟨line, hline, -⟩ := hs.sound.cursor
  simp only [insertPaste, hs.ready_eq, hline, bind_eq_bind, bind_some]
  have hpushed := (hs.withFlags s.lastAction none).pushUndo.withFlags .none none
  split
  · exact ⟨_, rfl, hs.withFlags s.lastAction none⟩
  split
  · refine within_insertSegments ?_ ?_
    · exact ⟨⟨hpushed.sound.cursor, hpushed.sound.ok⟩, ⟨hpushed.stored.undo, hpushed.stored.kills⟩⟩
    · intro line hmem segment hseg
      rw [List.mem_singleton.1 hmem, List.mem_singleton] at hseg
      rw [hseg]
      exact markerSegment_ok _ _
  · exact within_insertSegments hpushed (segmentLines_ok hlib _ _)

theorem within_insertNewline (hs : s.Inv) : ∃ t, s.insertNewline = some t ∧ t.Inv := by
  simp only [insertNewline]
  split
  · exact ⟨_, rfl, hs.withFlags s.lastAction none⟩
  obtain ⟨line, hline, hcol⟩ := hs.sound.cursor
  have hindex : s.cursor.line < s.document.length := (List.getElem?_eq_some_iff.1 hline).1
  have hready : { s with error := none }.ready = { s with error := none } :=
    TextBuffer.ready_eq (s := { s with error := none }) hs.sound.cursor
  have hlineOk := hs.sound.ok.get hline
  have hset : setAt? s.document s.cursor.line (line.take s.cursor.column) = some _ := if_pos hindex
  have hins : insertAt? (s.document.set s.cursor.line (line.take s.cursor.column)) (s.cursor.line + 1)
      [line.drop s.cursor.column] = some _ := if_pos (by rw [List.length_set]; omega)
  have hkept : LineOk (line.take s.cursor.column) := fun segment hmem =>
    hlineOk segment (List.mem_of_mem_take hmem)
  have htail : LineOk (line.drop s.cursor.column) := fun segment hmem =>
    hlineOk segment (List.mem_of_mem_drop hmem)
  have hpushed := (hs.withFlags s.lastAction none).pushUndo
  simp only [hready, TextBuffer.pushUndo, hline, slice?_tail hcol, eraseSlice?_tail hcol, hset,
    hins, bind_eq_bind, bind_some]
  refine ⟨_, rfl, ⟨⟨line.drop s.cursor.column, ?_, zero_le _⟩, fun other hmem => ?_⟩,
    ⟨hpushed.stored.undo, hpushed.stored.kills⟩⟩
  · have hlen : ((s.document.set s.cursor.line (line.take s.cursor.column)).take
        (s.cursor.line + 1)).length = s.cursor.line + 1 := by
      rw [List.length_take, List.length_set]
      omega
    rw [List.append_assoc, List.getElem?_append_right (by rw [hlen]), hlen, Nat.sub_self]
    rfl
  rcases mem_of_insertAt? hins hmem with hmem | hmem
  · exact hs.sound.ok.set hkept hset other hmem
  · rwa [List.mem_singleton.1 hmem]

theorem within_joinWithPrevious (hs : s.Inv) (hline : 0 < s.cursor.line) :
    ∃ t, s.joinWithPrevious = some t ∧ t.Inv := by
  obtain ⟨t, ht, hsound⟩ := exists_joinWithPrevious hs.sound hline
  exact ⟨t, ht, .frame hs.stored (frame_joinWithPrevious ht hline) hsound⟩

theorem within_joinWithNext (hs : s.Inv) (hline : s.cursor.line + 1 < s.document.length) :
    ∃ t, s.joinWithNext = some t ∧ t.Inv := by
  obtain ⟨t, ht, hsound⟩ := exists_joinWithNext hs.sound hline
  exact ⟨t, ht, .frame hs.stored (frame_joinWithNext ht) hsound⟩

theorem within_backspace (hs : s.Inv) : ∃ t, s.backspace = some t ∧ t.Inv := by
  simp only [backspace, hs.ready_eq]
  have hflags := hs.withFlags .none none
  split
  · next hpos =>
    obtain ⟨line, hline, hcol⟩ := hs.sound.cursor
    have hlt : s.cursor.column - 1 < line.length := by omega
    obtain ⟨t, line', ht, hok, hcursor, hline', hlen⟩ := exists_deleteSegment hflags.pushUndo.sound hline hlt
    simp only [ht, bind_eq_bind, bind_some]
    have hstored := hflags.pushUndo.stored.frame (frame_deleteSegment ht)
    refine ⟨_, rfl, ⟨⟨line', ?_, ?_⟩, hok⟩, ⟨hstored.undo, hstored.kills⟩⟩
    · rw [hcursor]
      exact hline'
    have hcol' : t.cursor.column = s.cursor.column := congrArg BufferCursor.column hcursor
    dsimp only
    omega
  split
  · next hjoin => exact within_joinWithPrevious hflags.pushUndo hjoin.1
  · exact ⟨_, rfl, hflags⟩

theorem within_forwardDelete (hs : s.Inv) : ∃ t, s.forwardDelete = some t ∧ t.Inv := by
  obtain ⟨line, hline, hcol⟩ := hs.sound.cursor
  simp only [forwardDelete, hs.ready_eq, hline, bind_eq_bind, bind_some]
  have hflags := hs.withFlags .none none
  split
  · next hlt =>
    obtain ⟨t, line', ht, hok, hcursor, hline', hlen⟩ := exists_deleteSegment hflags.pushUndo.sound hline hlt
    refine ⟨t, ht, .frame hflags.pushUndo.stored (frame_deleteSegment ht) ⟨⟨line', ?_, ?_⟩, hok⟩⟩
    · rw [hcursor]
      exact hline'
    · have hcol' : t.cursor.column = s.cursor.column := congrArg BufferCursor.column hcursor
      omega
  split
  · next hjoin => exact within_joinWithNext hflags.pushUndo hjoin.1
  · exact ⟨_, rfl, hflags⟩

theorem within_eraseRange (hs : s.Inv) (start stop : BufferCursor) :
    ∃ t, s.eraseRange start stop = some t ∧ t.Inv := by
  obtain ⟨t, ht, hsound⟩ := exists_eraseRange hs.sound.ok start stop
  refine ⟨t, ht, .frame hs.stored (frame_eraseRange ht) ?_⟩
  rcases hsound with ⟨rfl, -⟩ | hsound
  · exact hs.sound
  · exact hsound

theorem within_moveWordBackward (hlib : lib.Lawful) (hs : s.Inv) : ∃ t, s.moveWordBackward lib = some t ∧ t.Inv := by
  obtain ⟨t, ht, hmotion, hcursor, -⟩ := exists_moveWordBackward hlib hs
  exact ⟨t, ht, hmotion.inv hs hcursor⟩

theorem within_moveWordForward (hs : s.Inv) : ∃ t, s.moveWordForward lib = some t ∧ t.Inv := by
  obtain ⟨t, ht, hmotion, hcursor, -⟩ := exists_moveWordForward lib hs
  exact ⟨t, ht, hmotion.inv hs hcursor⟩

theorem Inv.killed (hs : s.Inv) {document : BufferDocument} (h : DocumentOk document) (text : Bytes)
    (prepend wasKill : Bool) : (s.killed text document prepend wasKill).Inv :=
  hs.withKills fun entry hmem => (List.mem_cons.1 hmem).elim (fun heq => heq ▸ h) (hs.stored.kills entry)

theorem within_deleteWordBackward (hlib : lib.Lawful) (hs : s.Inv) :
    ∃ t, s.deleteWordBackward lib = some t ∧ t.Inv := by
  simp only [deleteWordBackward, hs.ready_eq]
  have hready := hs.withFlags s.lastAction none
  split
  · exact ⟨_, rfl, hready⟩
  obtain ⟨moved, hmoved, hmotion, hcursor, hprev⟩ := exists_moveWordBackward hlib hready
  have hinv := hmotion.inv hready hcursor
  have hdoc : moved.document = s.document := hmotion.document_eq
  simp only [hmoved, bind_eq_bind, bind_some]
  split
  · have hback : CursorIn moved.document s.cursor := hdoc.symm ▸ hs.sound.cursor
    exact ⟨_, rfl, ⟨hback, hinv.sound.ok⟩, ⟨hinv.stored.undo, hinv.stored.kills⟩⟩
  split
  · exact ⟨_, rfl, hinv⟩
  have hsame : moved.cursor.line = s.cursor.line →
      moved.cursor.column ≤ s.cursor.column ∧ CursorIn moved.document s.cursor := fun heq =>
    ⟨hprev heq, hdoc.symm ▸ hs.sound.cursor⟩
  obtain ⟨text, deleted, t, hkill, hsound, hdel, -⟩ :=
    exists_killRange (s := moved.pushUndo) hinv.pushUndo.sound hsame
  have hkilled : t.Inv := .frame hinv.pushUndo.stored (frame_killRange hkill) hsound
  rw [show moved.pushUndo.killRange moved.cursor s.cursor = _ from hkill, bind_some]
  split
  · next last rest _ hring =>
    refine ⟨_, rfl, hkilled.withKills fun entry hmem => ?_⟩
    have hkills := hkilled.stored.kills
    rw [show t.docKillRing = last :: rest from hring] at hkills
    rcases List.mem_cons.1 hmem with rfl | hmem
    · exact mergeBackward_ok hdel (hkills last mem_cons_self)
    · exact hkills entry (mem_cons_of_mem _ hmem)
  refine ⟨_, rfl, hkilled.withKills fun entry hmem => ?_⟩
  rcases List.mem_cons.1 hmem with rfl | hmem
  · exact hdel
  · exact hkilled.stored.kills entry hmem

theorem within_deleteWordForward (hs : s.Inv) (hwithin : s.Within .deleteWordForward) :
    ∃ t, s.deleteWordForward lib = some t ∧ t.Inv := by
  obtain ⟨line, hline, hcol⟩ := hs.sound.cursor
  have hready := hs.withFlags s.lastAction none
  simp only [deleteWordForward, hs.ready_eq, hline, bind_eq_bind, bind_some]
  split
  · exact ⟨_, rfl, hready⟩
  next hopen =>
  obtain ⟨moved, hmoved, hmotion, hcursor, hafter, hnext⟩ := exists_moveWordForward lib hready
  have hinv := hmotion.inv hready hcursor
  have hdoc : moved.document = s.document := hmotion.document_eq
  have hback : { moved with cursor := s.cursor }.Inv :=
    ⟨⟨hdoc.symm ▸ hs.sound.cursor, hinv.sound.ok⟩, ⟨hinv.stored.undo, hinv.stored.kills⟩⟩
  simp only [hmoved, bind_some]
  split
  · exact ⟨_, rfl, hback.withFlags s.lastAction moved.error⟩
  split
  · exact ⟨_, rfl, hinv⟩
  have hsame : s.cursor.line = moved.cursor.line →
      s.cursor.column ≤ moved.cursor.column ∧ CursorIn moved.document moved.cursor := fun heq =>
    ⟨hafter heq.symm, hcursor⟩
  obtain ⟨text, deleted, t, hkill, hsound, hdel, hdeletedLine⟩ :=
    exists_killRange (s := { moved with cursor := s.cursor }.pushUndo) hback.pushUndo.sound hsame
  have hkilled : t.Inv := .frame hback.pushUndo.stored (frame_killRange hkill) hsound
  have hringEq : t.docKillRing = s.docKillRing := by
    obtain ⟨document, cursor, pastes, counter, rfl⟩ := (frame_killRange hkill).rest
    obtain ⟨cursor', index, action, error, rfl⟩ := hmotion
    rfl
  rw [show TextBuffer.killRange _ s.cursor moved.cursor = _ from hkill, bind_some]
  split
  · next last rest hkillBefore hring =>
    rw [show t.docKillRing = last :: rest from hring] at hringEq
    have hkills := hkilled.stored.kills
    rw [show t.docKillRing = last :: rest from hring] at hkills
    have hallowed := hwithin (of_decide_eq_true hkillBefore) last rest hringEq.symm line hline
    -- The motion leaves the line only from its end, which the condition excludes.
    have hinside : s.cursor.column ≠ line.length := by
      intro hend
      rw [if_pos hend] at hallowed
      refine hopen ⟨hend.ge, ?_⟩
      rw [Bool.not_eq_true']
      exact hallowed
    rw [if_neg hinside] at hallowed
    have hsameLine : s.cursor.line = moved.cursor.line := by
      by_contra hne
      have hend := (hnext fun heq => hne heq.symm).2.2
      rw [hline, map_some, Option.some.injEq] at hend
      exact hinside hend.symm
    obtain ⟨document, hmerge, hok⟩ := exists_mergeForward hdel (hkills last mem_cons_self)
      (hdeletedLine hsameLine) hallowed
    rw [hmerge, bind_some]
    refine ⟨_, rfl, hkilled.withKills fun entry hmem => ?_⟩
    rcases List.mem_cons.1 hmem with rfl | hmem
    · exact hok
    · exact hkills entry (mem_cons_of_mem _ hmem)
  · refine ⟨_, rfl, hkilled.withKills fun entry hmem => ?_⟩
    rcases List.mem_cons.1 hmem with rfl | hmem
    · exact hdel
    · exact hkilled.stored.kills entry hmem

theorem newlineKill_ok : DocumentOk [[], []] := by
  intro line hmem segment hseg
  simp only [List.mem_cons, not_mem_nil, or_false, or_self] at hmem
  rw [hmem] at hseg
  cases hseg

theorem within_killToLineStart (hs : s.Inv) : ∃ t, s.killToLineStart = some t ∧ t.Inv := by
  obtain ⟨line, hline, hcol⟩ := hs.sound.cursor
  have hready := hs.withFlags s.lastAction none
  simp only [killToLineStart, hs.ready_eq]
  split
  · obtain ⟨removed, t, hremove, hsound, hok⟩ : ∃ removed t,
        { s with error := none }.pushUndo.removeUntil 0 false = some (removed, t) ∧ t.Sound ∧ LineOk removed :=
      exists_removeUntil hready.pushUndo.sound hline (by exact ⟨zero_le _, hcol⟩)
    have hinv : t.Inv := .frame hready.pushUndo.stored (frame_removeUntil hremove) hsound
    simp only [hremove, bind_eq_bind, bind_some]
    exact ⟨_, rfl, hinv.killed (fun other hmem => List.mem_singleton.1 hmem ▸ hok) _ _ _⟩
  split
  · next hjoin =>
    exact within_joinWithPrevious (hready.pushUndo.killed newlineKill_ok _ _ _) hjoin.1
  · exact ⟨_, rfl, hready⟩

theorem within_killToLineEnd (hs : s.Inv) : ∃ t, s.killToLineEnd = some t ∧ t.Inv := by
  obtain ⟨line, hline, hcol⟩ := hs.sound.cursor
  have hready := hs.withFlags s.lastAction none
  simp only [killToLineEnd, hs.ready_eq, hline, bind_eq_bind, bind_some]
  split
  · obtain ⟨removed, t, hremove, hsound, hok⟩ : ∃ removed t,
        { s with error := none }.pushUndo.removeUntil line.length true = some (removed, t) ∧ t.Sound ∧
          LineOk removed :=
      exists_removeUntil hready.pushUndo.sound hline (by exact ⟨hcol, le_rfl⟩)
    have hinv : t.Inv := .frame hready.pushUndo.stored (frame_removeUntil hremove) hsound
    simp only [hremove, bind_some]
    exact ⟨_, rfl, hinv.killed (fun other hmem => List.mem_singleton.1 hmem ▸ hok) _ _ _⟩
  split
  · next hjoin =>
    exact within_joinWithNext (hready.pushUndo.killed newlineKill_ok _ _ _) hjoin.1
  · exact ⟨_, rfl, hready⟩

theorem Inv.yanked (hs : s.Inv) (index : Option Nat) (start : BufferCursor) : (s.yanked index start).Inv :=
  ⟨⟨hs.sound.cursor, hs.sound.ok⟩, ⟨hs.stored.undo, hs.stored.kills⟩⟩

theorem within_yank (hlib : lib.Lawful) (hs : s.Inv) : ∃ t, s.yank lib = some t ∧ t.Inv := by
  have hready := hs.withFlags s.lastAction none
  simp only [yank]
  split
  · next entry rest hring =>
    have hentry := hs.stored.kills entry (hring ▸ mem_cons_self)
    obtain ⟨t, ht, hinv⟩ := exists_insertKill hready.pushUndo hentry
    simp only [ht, bind_eq_bind, bind_some]
    exact ⟨_, rfl, hinv.yanked _ _⟩
  · next text _ _ =>
    obtain ⟨t, ht, hinv⟩ := within_insertText hlib hready.pushUndo text false
    simp only [ht, bind_eq_bind, bind_some]
    exact ⟨_, rfl, hinv.yanked _ _⟩
  · exact ⟨_, rfl, hready⟩

theorem within_yankPop (hlib : lib.Lawful) (hs : s.Inv) (hwithin : s.Within .yankPop) :
    ∃ t, s.yankPop lib = some t ∧ t.Inv := by
  have hready := hs.withFlags s.lastAction none
  simp only [yankPop]
  split
  · next prior start stop hact hindex hrange =>
    split
    · exact ⟨_, rfl, hready⟩
    next hkilled =>
    split
    · exact ⟨_, rfl, hready⟩
    next hlines =>
    obtain ⟨hstart, hstop⟩ := hwithin start stop ⟨hact, Option.isSome_of_mem hindex, hrange, hkilled, hlines⟩
    -- The range is still in the document, so its erasure ends with the cursor in it.
    obtain ⟨erased, herased, hsound⟩ := exists_eraseRange
      (s := { { s with error := none }.pushUndo with cursor := start }) hs.sound.ok start stop
    have hinv : erased.Inv := by
      refine .frame (s := { { s with error := none }.pushUndo with cursor := start })
        ⟨hready.pushUndo.stored.undo, hready.pushUndo.stored.kills⟩ (frame_eraseRange herased) ?_
      rcases hsound with ⟨-, hout | hout⟩ | hsound
      · exact absurd hstart (not_lt.2 hout)
      · exact absurd hstop (not_lt.2 hout)
      · exact hsound
    simp only [herased, bind_eq_bind, bind_some]
    split
    · next hkills =>
      have hpos : 0 < erased.docKillRing.length := List.length_pos_of_ne_nil hkills
      have hnext : (prior + 1) % erased.docKillRing.length < erased.docKillRing.length := Nat.mod_lt _ hpos
      have hentry := hinv.stored.kills _ (List.getElem_mem hnext)
      obtain ⟨t, ht, hins⟩ := exists_insertKill hinv hentry
      simp only [getElem?_eq_getElem hnext, ht, bind_some]
      exact ⟨_, rfl, hins.yanked _ _⟩
    have hrotated : { erased with killRing := rotateKill erased.killRing }.Inv := hinv.withKills hinv.stored.kills
    split
    · exact ⟨_, rfl, hrotated⟩
    next text _ =>
    obtain ⟨t, ht, hins⟩ := within_insertText hlib hrotated text false
    simp only [ht, bind_some]
    exact ⟨_, rfl, hins.yanked _ _⟩
  · exact ⟨_, rfl, hready⟩

theorem within_undo (hs : s.Inv) : s.undoOnce.Inv := by
  simp only [undoOnce]
  split
  · exact hs.withFlags s.lastAction none
  next popped rest hundo =>
  refine .clampCursor (hs.stored.undo popped (hundo ▸ mem_cons_self)) ⟨fun snapshot hmem => ?_, hs.stored.kills⟩
  exact hs.stored.undo snapshot (hundo ▸ mem_cons_of_mem _ hmem)

theorem Inv.moved (hs : s.Inv) {index column : Nat} {line : BufferLine}
    (hline : s.document[index]? = some line) (hcol : column ≤ line.length) (error : Option Error) :
    { s with cursor := ⟨index, column⟩, error := error }.moved.Inv :=
  Motion.inv (s := s) ⟨⟨index, column⟩, none, .none, error, rfl⟩ hs ⟨line, hline, hcol⟩

theorem within_moveLeft (hs : s.Inv) : ∃ t, s.moveLeft = some t ∧ t.Inv := by
  obtain ⟨line, hline, hcol⟩ := hs.sound.cursor
  simp only [moveLeft, hs.ready_eq]
  split
  · exact ⟨_, rfl, hs.moved hline ((sub_le _ _).trans hcol) none⟩
  split
  · next hstart =>
    have hindex : s.cursor.line - 1 < s.document.length := (sub_le _ _).trans_lt (List.getElem?_eq_some_iff.1 hline).1
    simp only [getElem?_eq_getElem hindex, bind_eq_bind, bind_some]
    exact ⟨_, rfl, hs.moved (getElem?_eq_getElem hindex) le_rfl none⟩
  · exact ⟨_, rfl, hs.moved hline hcol none⟩

theorem within_moveRight (hs : s.Inv) : ∃ t, s.moveRight = some t ∧ t.Inv := by
  obtain ⟨line, hline, hcol⟩ := hs.sound.cursor
  simp only [moveRight, hs.ready_eq, hline, bind_eq_bind, bind_some]
  split
  · next hlt => exact ⟨_, rfl, hs.moved hline hlt none⟩
  split
  · next hnext =>
    exact ⟨_, rfl, hs.moved (getElem?_eq_getElem hnext.1) (zero_le _) none⟩
  · exact ⟨_, rfl, hs.moved hline hcol none⟩

theorem within_moveUp (hs : s.Inv) : ∃ t, s.moveUp = some t ∧ t.Inv := by
  obtain ⟨line, hline, hcol⟩ := hs.sound.cursor
  simp only [moveUp, hs.ready_eq]
  split
  · exact ⟨_, rfl, hs⟩
  split
  · have hindex : s.cursor.line - 1 < s.document.length := (sub_le _ _).trans_lt (List.getElem?_eq_some_iff.1 hline).1
    simp only [getElem?_eq_getElem hindex, bind_eq_bind, bind_some]
    exact ⟨_, rfl, hs.moved (getElem?_eq_getElem hindex) (Nat.min_le_right _ _) none⟩
  · exact ⟨_, rfl, hs.moved hline hcol none⟩

theorem within_moveDown (hs : s.Inv) : ∃ t, s.moveDown = some t ∧ t.Inv := by
  obtain ⟨line, hline, hcol⟩ := hs.sound.cursor
  simp only [moveDown, hs.ready_eq]
  split
  · exact ⟨_, rfl, hs⟩
  split
  · next hnext =>
    simp only [getElem?_eq_getElem hnext, bind_eq_bind, bind_some]
    exact ⟨_, rfl, hs.moved (getElem?_eq_getElem hnext) (Nat.min_le_right _ _) none⟩
  · exact ⟨_, rfl, hs.moved hline hcol none⟩

theorem within_moveToLineStart (hs : s.Inv) : s.moveToLineStart.Inv := by
  obtain ⟨line, hline, -⟩ := hs.sound.cursor
  exact hs.moved hline (zero_le _) s.error

theorem within_moveToLineEnd (hs : s.Inv) : ∃ t, s.moveToLineEnd = some t ∧ t.Inv := by
  obtain ⟨line, hline, -⟩ := hs.sound.cursor
  simp only [moveToLineEnd, clampCursor_eq hs.sound.cursor, hline, bind_eq_bind, bind_some]
  exact ⟨_, rfl, hs.moved hline le_rfl s.error⟩

theorem document_ne_nil (hs : s.Inv) : s.document ≠ [] := by
  obtain ⟨line, hline, -⟩ := hs.sound.cursor
  exact List.ne_nil_of_mem (List.mem_of_getElem? hline)

theorem within_moveToStart (hs : s.Inv) : s.moveToStart.Inv := by
  obtain ⟨first, rest, hdoc⟩ := List.exists_cons_of_ne_nil (document_ne_nil hs)
  exact hs.moved (by rw [hdoc]; rfl) (zero_le _) s.error

theorem within_moveToEnd (hs : s.Inv) : s.moveToEnd.Inv := by
  have hget := List.getLast?_eq_some_getLast (document_ne_nil hs)
  have hlast : s.document[s.document.length - 1]? = some (s.document.getLast (document_ne_nil hs)) := by
    rw [← hget, List.getLast?_eq_getElem?]
  refine hs.moved hlast ?_ s.error
  rw [hget]
  exact le_rfl

theorem findColumn_lt {line : BufferLine} {target : Bytes} {start column : Nat}
    (h : findColumn line target start = some column) : column < line.length := by
  obtain ⟨index, hindex, rfl⟩ := Option.map_eq_some_iff.1 h
  have hlt := (List.findIdx?_eq_some_iff_getElem.1 hindex).1
  rw [List.length_drop] at hlt
  omega

theorem findColumnBefore_lt {line : BufferLine} {target : Bytes} {stop column : Nat}
    (h : findColumnBefore line target stop = some column) : column < line.length := by
  have hfound := List.find?_some h
  by_contra hge
  rw [List.getElem?_eq_none (not_lt.1 hge)] at hfound
  cases hfound

theorem within_jumpTo (hs : s.Inv) (target : Bytes) (forward : Bool) : (s.jumpTo target forward).Inv := by
  have hindex : s.cursor.line < s.document.length := by
    obtain ⟨line, hline, -⟩ := hs.sound.cursor
    exact (List.getElem?_eq_some_iff.1 hline).1
  have hget : ∀ line, line < s.document.length → s.document[line]? = some (s.document.getD line []) := by
    intro line hline
    rw [List.getD_eq_getElem?_getD, getElem?_eq_getElem hline]
    rfl
  rw [jumpTo, clampCursor_eq hs.sound.cursor]
  generalize hfound : (if forward = true then _ else _ : Option BufferCursor) = found
  refine Motion.inv (s := s) ⟨found.getD s.cursor, none, .none, s.error, rfl⟩ hs ?_
  cases found with
  | none => exact hs.sound.cursor
  | some cursor =>
    -- Only lines of the document are searched, and a search finds columns of its line.
    split at hfound
    · obtain ⟨line, hmem, hcol⟩ := List.exists_of_findSome?_eq_some hfound
      obtain ⟨column, hfind, rfl⟩ := Option.map_eq_some_iff.1 hcol
      have hlow := List.mem_range'_1.1 hmem
      have hline : line < s.document.length := by
        split at hlow <;> omega
      exact ⟨_, hget line hline, (findColumn_lt hfind).le⟩
    obtain ⟨line, hmem, hcol⟩ := List.exists_of_findSome?_eq_some hfound
    obtain ⟨column, hfind, rfl⟩ := Option.map_eq_some_iff.1 hcol
    have hline : line < s.document.length := by
      split at hmem
      · have hlt := List.mem_range.1 (List.mem_reverse.1 hmem)
        omega
      · rwa [List.mem_singleton.1 hmem]
    exact ⟨_, hget line hline, (findColumnBefore_lt hfind).le⟩

theorem within_applyCompletionEdit (hlib : lib.Lawful) (hs : s.Inv)
    {lineIndex startSegment afterBegin : Nat} {middle resultStart : Bytes}
    (hwithin : s.Within (.applyCompletionEdit lineIndex startSegment afterBegin middle resultStart)) :
    ∃ t, s.applyCompletionEdit lib lineIndex startSegment afterBegin middle resultStart = some t ∧ t.Inv := by
  unfold applyCompletionEdit
  split
  · exact ⟨s, rfl, hs⟩
  next hindex =>
  rw [not_le] at hindex
  have hline : s.document[lineIndex]? = some s.document[lineIndex] := getElem?_eq_getElem hindex
  generalize s.document[lineIndex] = line at hline
  obtain ⟨hstart, hafter⟩ := hwithin line hline
  obtain ⟨inserted, later, hins⟩ := List.exists_cons_of_ne_nil (segmentLines_ne_nil lib s.options.multiline middle)
  obtain ⟨shown, later', hshown⟩ :=
    List.exists_cons_of_ne_nil (segmentLines_ne_nil lib s.options.multiline resultStart)
  have hslice : slice? line 0 startSegment = some _ := if_pos ⟨zero_le _, hstart⟩
  have hset : ∀ line', setAt? s.document lineIndex line' = some (s.document.set lineIndex line') :=
    fun _ => if_pos hindex
  have hlineOk := hs.sound.ok.get hline
  have hinsertedOk : LineOk inserted := segmentLines_ok hlib _ _ inserted (hins ▸ mem_cons_self)
  simp only [hline, hslice, hins, hshown, slice?_tail hafter, List.head?_cons, hset, bind_eq_bind, bind_some]
  refine ⟨_, rfl, ?_⟩
  have hclamped : DocumentOk (s.document.set lineIndex _) :=
    hs.sound.ok.set (((hlineOk.slice hslice).append hinsertedOk).append (hlineOk.slice (slice?_tail hafter))) (hset _)
  have hinv := Inv.clampCursor (s := { s with
    document := s.document.set lineIndex _, cursor := ⟨lineIndex, shown.length⟩ }) hclamped
    ⟨hs.stored.undo, hs.stored.kills⟩
  exact ⟨⟨hinv.sound.cursor, hinv.sound.ok⟩, ⟨hinv.stored.undo, hinv.stored.kills⟩⟩

theorem within_apply (hlib : lib.Lawful) (hs : s.Inv) {op : BufferOp} (hwithin : s.Within op) :
    ∃ t, op.apply lib s = some t ∧ t.Inv := by
  cases op with
  | setCursor cursor =>
    have hinv := Inv.clampCursor (s := { s with error := none, cursor := cursor }) hs.sound.ok
      ⟨hs.stored.undo, hs.stored.kills⟩
    exact ⟨_, rfl, ⟨hinv.sound.cursor, hinv.sound.ok⟩, ⟨hinv.stored.undo, hinv.stored.kills⟩⟩
  | setText text clear => exact within_setText hlib hs text clear
  | insertCharacter grapheme => exact within_insertCharacter hlib hs grapheme
  | insertText text recordUndo => exact within_insertText hlib hs text recordUndo
  | insertPaste text => exact within_insertPaste hlib hs text
  | insertNewline => exact within_insertNewline hs
  | backspace => exact within_backspace hs
  | forwardDelete => exact within_forwardDelete hs
  | deleteWordBackward => exact within_deleteWordBackward hlib hs
  | deleteWordForward => exact within_deleteWordForward hs hwithin
  | killToLineStart => exact within_killToLineStart hs
  | killToLineEnd => exact within_killToLineEnd hs
  | yank => exact within_yank hlib hs
  | yankPop => exact within_yankPop hlib hs hwithin
  | undo => exact ⟨_, rfl, within_undo hs⟩
  | pushUndo => exact ⟨_, rfl, hs.pushUndo⟩
  | clearUndo =>
    exact ⟨_, rfl, ⟨hs.sound.cursor, hs.sound.ok⟩, ⟨fun _ hmem => (not_mem_nil hmem).elim, hs.stored.kills⟩⟩
  | moveLeft => exact within_moveLeft hs
  | moveRight => exact within_moveRight hs
  | moveUp => exact within_moveUp hs
  | moveDown => exact within_moveDown hs
  | moveWordBackward => exact within_moveWordBackward hlib hs
  | moveWordForward => exact within_moveWordForward hs
  | moveToLineStart => exact ⟨_, rfl, within_moveToLineStart hs⟩
  | moveToLineEnd => exact within_moveToLineEnd hs
  | moveToStart => exact ⟨_, rfl, within_moveToStart hs⟩
  | moveToEnd => exact ⟨_, rfl, within_moveToEnd hs⟩
  | jumpTo target forward => exact ⟨_, rfl, within_jumpTo hs target forward⟩
  | eraseRange start stop => exact within_eraseRange hs start stop
  | insertSegments inserted => exact within_insertSegments hs hwithin
  | applyCompletionEdit => exact within_applyCompletionEdit hlib hs hwithin

end Operations

/-! ## Runs -/

/-- Every operation of a run is allowed by the state it is applied to. -/
def WithinRun (lib : Segmenter) : TextBuffer → List BufferOp → Prop
  | _, [] => True
  | s, op :: ops => s.Within op ∧ ∀ t, op.apply lib s = some t → t.WithinRun lib ops

theorem WithinRun.inv {lib : Segmenter} (hlib : lib.Lawful) (hs : s.Inv)
    {ops opening : List BufferOp} (h : s.WithinRun lib ops) (hopening : opening <+: ops) :
    ∃ t, s.run lib opening = some t ∧ t.Inv := by
  induction opening generalizing s ops with
  | nil => exact ⟨s, rfl, hs⟩
  | cons op opening ih =>
    obtain ⟨rest, rfl⟩ := hopening
    obtain ⟨next, hnext, hinv⟩ := within_apply hlib hs h.1
    obtain ⟨t, ht, hinv'⟩ := ih hinv (h.2 next hnext) (List.prefix_append _ _)
    refine ⟨t, ?_, hinv'⟩
    rw [run, List.foldlM_cons, hnext]
    exact ht

theorem inv_empty (options : TextBufferOptions) (ring : List Bytes) :
    TextBuffer.Inv { options := options, killRing := ring } := by
  refine ⟨⟨⟨[], rfl, le_rfl⟩, fun line hline segment hseg => ?_⟩,
    ⟨fun _ hmem => (not_mem_nil hmem).elim, fun _ hmem => (not_mem_nil hmem).elim⟩⟩
  rw [List.mem_singleton.1 hline] at hseg
  cases hseg

end TextBuffer

/-- A run from an empty buffer of operations that their states allow reaches its end, and in every state on
the way the document has a line and the cursor is in it. -/
theorem bounds_kept {lib : Segmenter} (hlib : lib.Lawful) (options : TextBufferOptions) (ring : List Bytes)
    (ops : List BufferOp) (hwithin : TextBuffer.WithinRun lib { options := options, killRing := ring } ops) :
    ∀ opening, opening <+: ops → ∃ t, TextBuffer.run lib { options := options, killRing := ring } opening = some t ∧
        t.document ≠ [] ∧ CursorIn t.document t.cursor := by
  intro opening hopening
  obtain ⟨t, ht, hinv⟩ := hwithin.inv hlib (TextBuffer.inv_empty options ring) hopening
  exact ⟨t, ht, TextBuffer.document_ne_nil hinv, hinv.sound.cursor⟩

theorem groupSegments_byteEnd {position : Nat} {groups : List Bytes} {word : WordSegment}
    (h : word ∈ groupSegments position groups) : word.byteEnd ≤ position + groups.flatten.length := by
  induction groups generalizing position with
  | nil => cases h
  | cons group rest ih =>
    rw [List.flatten_cons, length_append]
    rcases List.mem_cons.1 h with rfl | h
    · exact Nat.add_le_add_left (Nat.le_add_right _ _) _
    · have hle := ih h
      omega

theorem asciiSegmenter_lawful : asciiSegmenter.Lawful where
  graphemes text grapheme hmem := by
    obtain ⟨byte, -, rfl⟩ := List.mem_map.1 hmem
    exact List.cons_ne_nil _ _
  words text words hwords word hmem := by
    cases hwords
    have hle := groupSegments_byteEnd hmem
    rwa [List.flatten_splitBy, Nat.zero_add] at hle

/-- Two words of one line are killed one after the other. -/
theorem bounds_kept_two_words : ∃ t, TextBuffer.run asciiSegmenter {} [.insertText "a b" true, .moveToStart,
      .deleteWordForward, .deleteWordForward, .yank] = some t ∧ t.document ≠ [] ∧ CursorIn t.document t.cursor := by
  refine bounds_kept asciiSegmenter_lawful {} [] _ ?_ _ (List.prefix_refl _)
  refine ⟨trivial, fun s hs => ⟨trivial, fun s' hs' => ⟨?_, fun s'' hs'' => ⟨?_, fun _ _ =>
    ⟨trivial, fun _ _ => trivial⟩⟩⟩⟩⟩
  · cases hs'
    intro hkill
    cases hkill
  · -- The first kill leaves the space and the second word, and its entry has a line.
    have hrun : TextBuffer.run asciiSegmenter {} [.insertText "a b" true, .moveToStart,
        .deleteWordForward] = some s'' := by
      simp only [TextBuffer.run, List.foldlM_cons, List.foldlM_nil, bind_eq_bind, hs, hs', hs'', bind_some]
      rfl
    have hstate : (TextBuffer.run asciiSegmenter {} [.insertText "a b" true, .moveToStart,
        .deleteWordForward]).map (fun t => (t.docKillRing.map KillEntry.document, t.cursor.column,
          t.document)) = some ([[[⟨[0x61], none⟩]]], 0, [[⟨[0x20], none⟩, ⟨[0x62], none⟩]]) := by
      decide +kernel
    rw [hrun, map_some, Option.some.injEq, Prod.mk.injEq, Prod.mk.injEq] at hstate
    obtain ⟨hring, hcolumn, hdocument⟩ := hstate
    intro _ entry rest hentry line hline
    rw [hentry, List.map_cons, List.cons.injEq] at hring
    have hline' : line = [⟨[0x20], none⟩, ⟨[0x62], none⟩] := by
      rw [hdocument] at hline
      exact List.mem_singleton.1 (List.mem_of_getElem? hline)
    rw [hcolumn, hline', hring.1, if_neg (by decide)]
    exact List.cons_ne_nil _ _

/-- The first word of a line and then the line's end are killed. The second kill removes no segments, so
the first line that the merge takes from it does not exist. -/
theorem word_kills_out_of_bounds : TextBuffer.run asciiSegmenter {} [.insertText "a\nb" true, .moveToStart,
      .deleteWordForward, .deleteWordForward] = none := by
  decide +kernel

end CodingHarness.Tui
