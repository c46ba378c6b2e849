import CodingHarness.Tui.ReferenceSteps

/-!
# Pastes are kept

Through every run whose steps are `Kept`, the markers of the document stand for what was pasted and the
reference shows the same text (`pastes_kept`). The condition excludes one step of the word kills: a forward
kill that continues another one and takes a marker with it puts the marker into an entry without its
content. The marker that is yanked from there keeps its old number, and after a second yank two markers
share it (`yanked_marker_lost`).
-/

namespace CodingHarness.Tui

open Library Support
open List (flatten_cons length_map not_mem_nil)
open Option (bind_eq_bind bind_eq_some_iff bind_some)

namespace TextBuffer

variable {lib : Segmenter} {s r t : TextBuffer}

/-- The state before an operation allows it. A forward word kill that continues a kill takes no marker. The
operations that get places or segments from their caller neither bring nor double a marker, and a range
that is erased between two kills has none. -/
def Kept (lib : Segmenter) (s : TextBuffer) : BufferOp → Prop
  | .deleteWordForward =>
    s.lastAction = .kill → s.docKillRing ≠ [] → ∀ segment ∈ s.nextWord lib, segment.pasteId = none
  | .eraseRange start stop =>
    s.lastAction = .kill → Unmarked s.document start stop ∧ Unmarked s.document stop start
  | .insertSegments inserted => ∀ segment ∈ inserted.flatten, segment.pasteId = none
  | .applyCompletionEdit lineIndex startSegment afterBegin _ _ =>
    ∀ line, s.document[lineIndex]? = some line →
      ∀ segment ∈ (line.take startSegment).drop afterBegin, segment.pasteId = none
  | _ => True

/-! ## Insertion -/

theorem segmentLines_unmarked (lib : Segmenter) (multiline : Bool) (text : Bytes) :
    ∀ segment ∈ (segmentLines lib multiline text).flatten, segment.pasteId = none := by
  intro segment hmem
  obtain ⟨line, hline, hseg⟩ := List.mem_flatten.1 hmem
  obtain ⟨source, -, rfl⟩ := List.mem_map.1 hline
  obtain ⟨unit, -, rfl⟩ := List.mem_map.1 hseg
  rfl

variable {inserted : BufferDocument}

theorem mirrors_insertSegments (h : Mirrors s r) (hplain : ∀ segment ∈ inserted.flatten, segment.pasteId = none)
    (hstep : s.insertSegments inserted = some t) : ∃ r', r.insertSegments inserted = some r' ∧ Mirrors t r' := by
  obtain ⟨r', hr', hmir⟩ := h.editPlain (edit_insertSegments hstep) hplain
  have hsame : mapped (plainSegment s.pastes) inserted = inserted := plainDocument_plain hplain
  rw [hsame] at hr'
  exact ⟨r', hr', hmir⟩

theorem insertSegments_action (h : s.insertSegments inserted = some t) :
    t.lastAction = s.lastAction ∧ t.docKillRing = s.docKillRing ∧ t.pastes = s.pastes := by
  obtain ⟨document, cursor, rfl⟩ := (edit_insertSegments h).rest
  exact ⟨rfl, rfl, rfl⟩

theorem mirrors_insertUnits (h : Mirrors s r) {units : List Bytes} (hstep : s.insertUnits units = some t) :
    ∃ r', r.insertUnits units = some r' ∧ Mirrors t r' := by
  refine h.editPlain (edit_insertUnits hstep) fun segment hmem => ?_
  obtain ⟨unit, -, rfl⟩ := List.mem_map.1 hmem
  rfl

theorem insertUnits_action {units : List Bytes} (h : s.insertUnits units = some t) : t.lastAction = s.lastAction := by
  obtain ⟨document, cursor, rfl⟩ := (edit_insertUnits h).rest
  rfl

theorem Mirrors.multiline (h : Mirrors s r) : r.options.multiline = s.options.multiline := by
  rw [h.options]

theorem Mirrors.column (h : Mirrors s r) : r.cursor.column = s.cursor.column := by rw [h.parallel.cursor]

theorem Mirrors.cursorLine (h : Mirrors s r) : r.cursor.line = s.cursor.line := by rw [h.parallel.cursor]

variable {text : Bytes}

theorem mirrors_setText (h : Mirrors s r) {clear : Bool} (hstep : s.setText lib text clear = some t) :
    ∃ r', r.setText lib text clear = some r' ∧ Mirrors t r' ∧ t.Newest := by
  simp only [setText, bind_eq_bind, bind_eq_some_iff] at hstep
  obtain ⟨last, hlast, heq⟩ := hstep
  cases heq
  have hplain := segmentLines_unmarked lib s.options.multiline (sanitizeInput text s.options.multiline)
  simp only [setText, h.multiline, hlast, bind_eq_bind, bind_some]
  refine ⟨_, rfl, Mirrors.clampCursor { h with
    parallel := ⟨(plainDocument_plain hplain).symm, rfl, fun _ => plainSegment_plain⟩
    index := rfl
    range := rfl
    action := rfl
    error := rfl
    numbered := .of_plain hplain
    counted := fun id hsome => by cases hsome
    undo := ?_ }, .of_action fun hkill => by cases hkill⟩
  cases clear with
  | true => exact .nil
  | false => exact h.undo

theorem mirrors_insertCharacter (h : Mirrors s r) (hnewest : s.Newest) {grapheme : Bytes}
    (hstep : s.insertCharacter lib grapheme = some t) :
    ∃ r', r.insertCharacter lib grapheme = some r' ∧ Mirrors t r' ∧ t.Newest := by
  simp only [insertCharacter] at hstep ⊢
  split at hstep
  · next hempty =>
    cases hstep
    rw [if_pos hempty]
    exact ⟨_, rfl, h.noError, hnewest⟩
  next hempty =>
  rw [if_neg hempty]
  split at hstep
  · next hstarts =>
    rw [if_pos (by rw [h.action]; exact hstarts)]
    obtain ⟨r', hr', hmir⟩ := mirrors_insertUnits (h.ready.pushUndo.withAction .typeWord) hstep
    have hact : t.lastAction = .typeWord := insertUnits_action hstep
    exact ⟨r', hr', hmir, .of_action (hact.trans_ne (by decide))⟩
  next hstarts =>
  rw [if_neg (by rw [h.action]; exact hstarts)]
  obtain ⟨r', hr', hmir⟩ := mirrors_insertUnits (h.ready.withAction .typeWord) hstep
  have hact : t.lastAction = .typeWord := insertUnits_action hstep
  exact ⟨r', hr', hmir, .of_action (hact.trans_ne (by decide))⟩

theorem mirrors_insertText (h : Mirrors s r) (hnewest : s.Newest) {recordUndo : Bool}
    (hstep : s.insertText lib text recordUndo = some t) :
    ∃ r', r.insertText lib text recordUndo = some r' ∧ Mirrors t r' ∧ t.Newest := by
  have hstart : Mirrors { (if recordUndo then { s with error := none }.pushUndo else { s with error := none })
      with lastAction := .none } { (if recordUndo then { r with error := none }.pushUndo
      else { r with error := none }) with lastAction := .none } := by
    cases recordUndo with
    | true => exact h.noError.pushUndo.withAction .none
    | false => exact h.noError.withAction .none
  have hmultiline := hstart.multiline
  simp only [insertText, h.multiline] at hstep ⊢
  split at hstep
  · next hempty =>
    cases hstep
    rw [if_pos hempty]
    exact ⟨_, rfl, h.noError, hnewest⟩
  next hempty =>
  rw [if_neg hempty]
  obtain ⟨r', hr', hmir⟩ := mirrors_insertSegments hstart (segmentLines_unmarked lib _ _) hstep
  have hact : t.lastAction = .none := (insertSegments_action hstep).1
  rw [hmultiline]
  exact ⟨r', hr', hmir, .of_action (hact.trans_ne (by decide))⟩

theorem mirrors_insertMarker (h : Mirrors s r) (htext : text ≠ []) (hstep : TextBuffer.insertSegments { s with
      pasteCounter := s.pasteCounter + 1
      pastes := emplacePaste s.pastes (s.pasteCounter + 1) text }
      [[⟨markerFor (s.pasteCounter + 1) text, some (s.pasteCounter + 1)⟩]] = some t) :
    ∃ r', r.insertSegments [[⟨text, none⟩]] = some r' ∧ Mirrors t r' := by
  -- The number is new, so nothing is kept in its place.
  rw [emplacePaste, if_neg fun hsome => absurd (h.counted _ hsome) (by omega)] at hstep
  have hold : ∀ id ∈ pasteIds s.document.flatten, id ≤ s.pasteCounter := fun id hid =>
    h.counted id (h.numbered.content hid)
  have hupdate : ∀ id ∈ pasteIds s.document.flatten,
      Function.update s.pastes (s.pasteCounter + 1) (some text) id = s.pastes id := by
    intro id hid
    have hle := hold id hid
    exact Function.update_of_ne (by omega) _ _
  have hnum := h.numbered.congr hupdate
  have hcount : Counted (Function.update s.pastes (s.pasteCounter + 1) (some text)) (s.pasteCounter + 1) := by
    intro id hsome
    by_cases hnew : id = s.pasteCounter + 1
    · exact hnew.le
    · rw [Function.update_of_ne hnew] at hsome
      exact (h.counted id hsome).trans (Nat.le_succ _)
  have hmir : Mirrors { s with
      pasteCounter := s.pasteCounter + 1
      pastes := Function.update s.pastes (s.pasteCounter + 1) (some text) } r :=
    { h with
      parallel := by
        refine ⟨?_, h.parallel.cursor, fun _ => plainSegment_plain⟩
        rw [h.document]
        exact (plainDocument_congr hupdate).symm
      numbered := hnum
      counted := hcount }
  have hmark : Numbered (Function.update s.pastes (s.pasteCounter + 1) (some text))
      [⟨markerFor (s.pasteCounter + 1) text, some (s.pasteCounter + 1)⟩] := by
    refine ⟨fun segment hmem id hid => ?_, List.nodup_singleton _⟩
    obtain rfl := List.mem_singleton.1 hmem
    cases hid
    exact ⟨text, htext, Function.update_self _ _ _, rfl⟩
  obtain ⟨r', hr', hres⟩ := hmir.edit (edit_insertSegments hstep) (hnum.append hmark fun id hid hid' => by
      have hle := hold id hid
      obtain rfl := List.mem_singleton.1 hid'
      omega)
  refine ⟨r', ?_, hres⟩
  have hshown : mapped (plainSegment (Function.update s.pastes (s.pasteCounter + 1) (some text)))
      [[⟨markerFor (s.pasteCounter + 1) text, some (s.pasteCounter + 1)⟩]] = [[⟨text, none⟩]] := by
    simp only [mapped, List.map_cons, List.map_nil, plainSegment, expandSegment, bind_some,
      Function.update_self, Option.getD_some]
  rwa [hshown] at hr'

theorem mirrors_insertPaste (h : Mirrors s r) (hnewest : s.Newest) (hstep : s.insertPaste lib text = some t) :
    ∃ r', (BufferOp.insertPaste text).applyReference lib s r = some r' ∧ Mirrors t r' ∧ t.Newest := by
  have hpushed := h.ready.pushUndo.withAction .none
  have hmultiline : r.ready.options.multiline = s.ready.options.multiline := h.ready.multiline
  have hoptions : r.ready.options = s.ready.options := h.ready.options
  simp only [insertPaste, bind_eq_bind, bind_eq_some_iff] at hstep
  obtain ⟨line, hline, hstep⟩ := hstep
  simp only [BufferOp.applyReference, pastedText, hline, bind_eq_bind, bind_some]
  generalize normalizePastedText text s.ready.options.multiline (lineText (line.take s.ready.cursor.column))
    (lineText (line.drop s.ready.cursor.column)) = pasted at hstep ⊢
  split at hstep
  · next hempty =>
    cases hstep
    rw [if_pos hempty]
    exact ⟨_, rfl, h.ready, hnewest.ready⟩
  next hempty =>
  rw [if_neg hempty]
  have hcond : (r.ready.pushUndo.options.multiline = true ∧ r.ready.pushUndo.options.enablePasteMarkers = true ∧
      (10 < pasted.count 0x0A + 1 ∨ 1000 < utf16CodeUnitCount pasted)) ↔
      (s.ready.pushUndo.options.multiline = true ∧ s.ready.pushUndo.options.enablePasteMarkers = true ∧
      (10 < pasted.count 0x0A + 1 ∨ 1000 < utf16CodeUnitCount pasted)) := by
    rw [show r.ready.pushUndo.options = s.ready.pushUndo.options from hoptions]
  split at hstep
  · next hlarge =>
    rw [if_pos (hcond.2 hlarge)]
    obtain ⟨r', hr', hmir⟩ := mirrors_insertMarker hpushed hempty hstep
    have hact : t.lastAction = .none := (insertSegments_action hstep).1
    exact ⟨r', hr', hmir, .of_action (hact.trans_ne (by decide))⟩
  next hlarge =>
  rw [if_neg fun hlarge' => hlarge (hcond.1 hlarge')]
  obtain ⟨r', hr', hmir⟩ := mirrors_insertSegments hpushed (segmentLines_unmarked lib _ _) hstep
  have hact : t.lastAction = .none := (insertSegments_action hstep).1
  refine ⟨r', ?_, hmir, .of_action (hact.trans_ne (by decide))⟩
  rw [show r.ready.pushUndo.options.multiline = s.ready.pushUndo.options.multiline from hmultiline]
  exact hr'

theorem mirrors_insertNewline (h : Mirrors s r) (hnewest : s.Newest) (hstep : s.insertNewline = some t) :
    ∃ r', r.insertNewline = some r' ∧ Mirrors t r' ∧ t.Newest := by
  rw [insertNewline_eq] at hstep ⊢
  rw [h.multiline]
  split at hstep
  · next hsingle =>
    cases hstep
    rw [if_pos hsingle]
    exact ⟨_, rfl, h.noError, hnewest⟩
  next hsingle =>
  rw [if_neg hsingle]
  have hedit := edit_splitLine hstep
  obtain ⟨r', hr', hmir⟩ := (h.ready.pushUndo.withAction .none).editPlain hedit
    fun segment hmem => (not_mem_nil hmem).elim
  have hact : t.lastAction = .none := by
    obtain ⟨document, cursor, rfl⟩ := hedit.rest
    rfl
  exact ⟨r', hr', hmir, .of_action (hact.trans_ne (by decide))⟩

/-! ## Deletion -/

theorem mirrors_joinWithPrevious (h : Mirrors s r) (hpos : 0 < s.cursor.line)
    (hstep : s.joinWithPrevious = some t) : ∃ r', r.joinWithPrevious = some r' ∧ Mirrors t r' :=
  h.editPlain (edit_joinWithPrevious hpos hstep) fun _ hmem => (not_mem_nil hmem).elim

theorem mirrors_joinWithNext (h : Mirrors s r) (hstep : s.joinWithNext = some t) :
    ∃ r', r.joinWithNext = some r' ∧ Mirrors t r' :=
  h.editPlain (edit_joinWithNext hstep) fun _ hmem => (not_mem_nil hmem).elim

theorem mirrors_backspace (h : Mirrors s r) (hstep : s.backspace = some t) :
    ∃ r', r.backspace = some r' ∧ Mirrors t r' ∧ t.Newest := by
  have hready := h.ready.withAction .none
  have hcol : r.ready.cursor.column = s.ready.cursor.column := hready.column
  have hline : r.ready.cursor.line = s.ready.cursor.line := hready.cursorLine
  have hmultiline : r.ready.options.multiline = s.ready.options.multiline := hready.multiline
  simp only [backspace, hcol, hline, hmultiline] at hstep ⊢
  split at hstep
  · next hpos =>
    rw [if_pos hpos]
    obtain ⟨deleted, hdelete, heq⟩ := Option.bind_eq_some_iff.1 hstep
    cases heq
    obtain ⟨r', hr', hmir⟩ := mirrors_deleteSegment hready.pushUndo hdelete
    have hact : deleted.lastAction = .none := by
      obtain ⟨document, cursor, pastes, counter, rfl⟩ := (frame_deleteSegment hdelete).rest
      rfl
    simp only [hr', bind_eq_bind, bind_some, hmir.column, hmir.cursorLine]
    exact ⟨_, rfl, hmir.withCursor _, .of_action (hact.trans_ne (by decide))⟩
  next hpos =>
  rw [if_neg hpos]
  split at hstep
  · next hjoin =>
    rw [if_pos hjoin]
    obtain ⟨r', hr', hmir⟩ := mirrors_joinWithPrevious hready.pushUndo hjoin.1 hstep
    have hact : t.lastAction = .none := by
      obtain ⟨document, cursor, pastes, counter, rfl⟩ := (frame_joinWithPrevious hstep hjoin.1).rest
      rfl
    exact ⟨r', hr', hmir, .of_action (hact.trans_ne (by decide))⟩
  next hjoin =>
  cases hstep
  rw [if_neg hjoin]
  exact ⟨_, rfl, hready, .of_action fun hkill => by cases hkill⟩

theorem mirrors_forwardDelete (h : Mirrors s r) (hstep : s.forwardDelete = some t) :
    ∃ r', r.forwardDelete = some r' ∧ Mirrors t r' ∧ t.Newest := by
  have hready := h.ready.withAction .none
  have hcol : r.ready.cursor.column = s.ready.cursor.column := hready.column
  have hcursorLine : r.ready.cursor.line = s.ready.cursor.line := hready.cursorLine
  have hmultiline : r.ready.options.multiline = s.ready.options.multiline := hready.multiline
  have hlen : r.ready.document.length = s.ready.document.length := hready.length
  simp only [forwardDelete, bind_eq_bind, bind_eq_some_iff] at hstep
  obtain ⟨line, hline, hstep⟩ := hstep
  have hline' : r.ready.document[s.ready.cursor.line]? = some (line.map (plainSegment s.ready.pastes)) :=
    hready.line hline
  simp only [forwardDelete, hcol, hcursorLine, hmultiline, hlen, hline', length_map, bind_eq_bind, bind_some]
  split at hstep
  · next hlt =>
    rw [if_pos hlt]
    obtain ⟨r', hr', hmir⟩ := mirrors_deleteSegment hready.pushUndo hstep
    have hact : t.lastAction = .none := by
      obtain ⟨document, cursor, pastes, counter, rfl⟩ := (frame_deleteSegment hstep).rest
      rfl
    exact ⟨r', hr', hmir, .of_action (hact.trans_ne (by decide))⟩
  next hlt =>
  rw [if_neg hlt]
  split at hstep
  · next hjoin =>
    rw [if_pos hjoin]
    obtain ⟨r', hr', hmir⟩ := mirrors_joinWithNext hready.pushUndo hstep
    have hact : t.lastAction = .none := by
      obtain ⟨document, cursor, rfl⟩ := (edit_joinWithNext hstep).rest
      rfl
    exact ⟨r', hr', hmir, .of_action (hact.trans_ne (by decide))⟩
  next hjoin =>
  cases hstep
  rw [if_neg hjoin]
  exact ⟨_, rfl, hready, .of_action fun hkill => by cases hkill⟩

/-! ## Line kills -/

theorem mirrors_killed (h : Mirrors s r) (document : BufferDocument)
    (hnum : Numbered s.pastes (document.flatten ++ s.document.flatten)) {text text' : Bytes}
    (htext : text' = [] ↔ text = []) (prepend wasKill : Bool) : Mirrors (s.killed text document prepend wasKill)
        (r.killed text' (plainDocument s.pastes document) prepend wasKill) ∧
      (s.killed text document prepend wasKill).Newest :=
  ⟨h.withKill (.cons (mirrors_createKillEntry hnum.left r) h.kills) (List.cons_ne_nil _ _)
      (pushKill_length prepend wasKill h.ringLength htext) .kill,
    newest_of_entry rfl fun id hid => ⟨createKillEntry_pastes hid, hnum.disjoint id hid⟩⟩

theorem mirrors_killRest (h : Mirrors s r) {target : Nat} {forward : Bool} {removed : BufferLine}
    (prepend wasKill : Bool) (hstep : s.removeUntil target forward = some (removed, t)) :
    ∃ r', r.removeUntil target forward = some (removed.map (plainSegment s.pastes), r') ∧
      Mirrors (t.killed (lineText removed) [removed] prepend wasKill)
        (r'.killed (lineText (removed.map (plainSegment s.pastes))) [removed.map (plainSegment s.pastes)]
          prepend wasKill) ∧ (t.killed (lineText removed) [removed] prepend wasKill).Newest := by
  obtain ⟨r', hr', hmir, hkilled⟩ := mirrors_removeUntil h hstep
  have hpastes := (hkilled.pastes (List.cons_ne_nil _ _)).1
  have hrem : Numbered s.pastes removed := by
    have hleft := hkilled.numbered.left
    rwa [hpastes, List.flatten_singleton] at hleft
  have hres := mirrors_killed hmir [removed] hkilled.numbered (lineText_plain_eq_nil hrem) prepend wasKill
  rw [hpastes] at hres
  exact ⟨r', hr', hres.1, hres.2⟩

theorem mirrors_killBreak (h : Mirrors s r) (prepend wasKill : Bool) :
    Mirrors (s.pushUndo.killed [0x0A] [[], []] prepend wasKill) (r.pushUndo.killed [0x0A] [[], []] prepend wasKill) :=
  (mirrors_killed h.pushUndo [[], []] h.numbered Iff.rfl prepend wasKill).1

theorem newest_killBreak (s : TextBuffer) (prepend wasKill : Bool) (hkills : t.docKillRing =
    (s.pushUndo.killed [0x0A] [[], []] prepend wasKill).docKillRing) : t.Newest :=
  newest_of_entry hkills fun _ hid => (not_mem_nil hid).elim

theorem mirrors_killToLineStart (h : Mirrors s r) (hnewest : s.Newest) (hstep : s.killToLineStart = some t) :
    ∃ r', r.killToLineStart = some r' ∧ Mirrors t r' ∧ t.Newest := by
  have hready := h.ready
  have hnready := hnewest.ready
  simp only [killToLineStart] at hstep ⊢
  generalize s.ready = s₁ at hready hnready hstep
  simp only [hready.column, hready.cursorLine, hready.multiline, hready.action]
  split at hstep
  · next hcol =>
    rw [if_pos hcol]
    obtain ⟨⟨removed, next⟩, hremove, heq⟩ := Option.bind_eq_some_iff.1 hstep
    cases heq
    obtain ⟨r', hr', hmir, hnewest'⟩ := mirrors_killRest hready.pushUndo true (decide (s₁.lastAction = .kill)) hremove
    simp only [hr', bind_eq_bind, bind_some]
    exact ⟨_, rfl, hmir, hnewest'⟩
  next hcol =>
  rw [if_neg hcol]
  split at hstep
  · next hjoin =>
    rw [if_pos hjoin]
    obtain ⟨r', hr', hmir⟩ := mirrors_joinWithPrevious (mirrors_killBreak hready true _) hjoin.1 hstep
    refine ⟨r', hr', hmir, newest_killBreak s₁ true (decide (s₁.lastAction = .kill)) ?_⟩
    obtain ⟨document, cursor, pastes, counter, rfl⟩ := (frame_joinWithPrevious hstep hjoin.1).rest
    rfl
  next hjoin =>
  cases hstep
  rw [if_neg hjoin]
  exact ⟨_, rfl, hready, hnready⟩

theorem mirrors_killToLineEnd (h : Mirrors s r) (hnewest : s.Newest) (hstep : s.killToLineEnd = some t) :
    ∃ r', r.killToLineEnd = some r' ∧ Mirrors t r' ∧ t.Newest := by
  have hready := h.ready
  have hnready := hnewest.ready
  simp only [killToLineEnd] at hstep ⊢
  generalize s.ready = s₁ at hready hnready hstep
  obtain ⟨line, hline, hstep⟩ := Option.bind_eq_some_iff.1 hstep
  simp only [hready.column, hready.cursorLine, hready.line hline, length_map, hready.length,
    hready.multiline, hready.action, bind_eq_bind, bind_some]
  split at hstep
  · next hcol =>
    rw [if_pos hcol]
    obtain ⟨⟨removed, next⟩, hremove, heq⟩ := Option.bind_eq_some_iff.1 hstep
    cases heq
    obtain ⟨r', hr', hmir, hnewest'⟩ := mirrors_killRest hready.pushUndo false
      (decide (s₁.lastAction = .kill)) hremove
    simp only [hr', bind_some]
    exact ⟨_, rfl, hmir, hnewest'⟩
  next hcol =>
  rw [if_neg hcol]
  split at hstep
  · next hjoin =>
    rw [if_pos hjoin]
    obtain ⟨r', hr', hmir⟩ := mirrors_joinWithNext (mirrors_killBreak hready false _) hstep
    refine ⟨r', hr', hmir, newest_killBreak s₁ false (decide (s₁.lastAction = .kill)) ?_⟩
    obtain ⟨document, cursor, pastes, counter, rfl⟩ := (frame_joinWithNext hstep).rest
    rfl
  next hjoin =>
  cases hstep
  rw [if_neg hjoin]
  exact ⟨_, rfl, hready, hnready⟩

/-! ## Yanks and undo -/

variable {entry : KillEntry}

theorem materializeLine_unmarked {line : BufferLine}
    (h : ∀ segment ∈ line, segment.pasteId = none) (remapped : List (Nat × Nat)) :
    materializeLine entry remapped s line = (line, remapped, s) := by
  induction line with
  | nil => rfl
  | cons segment rest ih =>
    have hfirst : materializeSegment entry remapped s segment = (segment, remapped, s) := by
      rw [materializeSegment, h segment List.mem_cons_self]
    rw [materializeLine, hfirst, ih fun other hmem => h other (List.mem_cons_of_mem _ hmem)]

theorem materializeKill_unmarked (h : ∀ segment ∈ entry.document.flatten, segment.pasteId = none) :
    s.materializeKill entry = (entry.document, s) := by
  have hlines : ∀ document : BufferDocument, (∀ segment ∈ document.flatten, segment.pasteId = none) →
      materializeLines entry [] s document = (document, s) := by
    intro document hplain
    induction document with
    | nil => rfl
    | cons line rest ih =>
      rw [materializeLines, materializeLine_unmarked fun segment hmem =>
          hplain segment (List.mem_flatten.2 ⟨line, List.mem_cons_self, hmem⟩),
        ih fun segment hmem => hplain segment (List.mem_append_right line hmem)]
  exact hlines entry.document h

theorem MirrorsKill.unmarked {entry entry' : KillEntry} (h : MirrorsKill entry entry') :
    ∀ segment ∈ entry'.document.flatten, segment.pasteId = none := by
  intro segment hmem
  rw [h.document, plainDocument, ← List.map_flatten] at hmem
  obtain ⟨source, -, rfl⟩ := List.mem_map.1 hmem
  rfl

theorem mirrors_insertKill (h : Mirrors s r) {entry entry' : KillEntry} (hentry : MirrorsKill entry entry')
    (hstep : (s.materializeKill entry).2.insertSegments (s.materializeKill entry).1 = some t) :
    ∃ r', (r.materializeKill entry').2.insertSegments (r.materializeKill entry').1 = some r' ∧ Mirrors t r' := by
  obtain ⟨hspec, hplain⟩ := materializeKill_spec h.counted hentry.numbered
  rw [materializeKill_unmarked hentry.unmarked]
  generalize (s.materializeKill entry).2 = next at hspec hplain hstep
  have hold : ∀ id ∈ pasteIds s.document.flatten, id ≤ s.pasteCounter := fun id hid =>
    h.counted id (h.numbered.content hid)
  have hkept := hspec.kept
  have hcount := hspec.counted
  have hnew := hspec.numbered
  obtain ⟨pastes, counter, rfl⟩ := hspec.rest
  have hnum : Numbered pastes s.document.flatten := h.numbered.congr fun id hid => hkept id (hold id hid)
  have hmir : Mirrors { s with pastes := pastes, pasteCounter := counter } r := { h with
      parallel := by
        refine ⟨?_, h.parallel.cursor, fun _ => plainSegment_plain⟩
        rw [h.document]
        exact (plainDocument_congr fun id hid => hkept id (hold id hid)).symm
      numbered := hnum
      counted := hcount }
  obtain ⟨r', hr', hres⟩ := hmir.edit (edit_insertSegments hstep) (hnum.append hnew fun id hid hid' =>
      absurd (hold id hid) (not_le.2 (hspec.fresh id hid')))
  refine ⟨r', ?_, hres⟩
  rw [← hr', hentry.document, ← hplain]
  rfl

theorem Mirrors.yanked (h : Mirrors s r) (index : Option Nat) (start : BufferCursor) :
    Mirrors (s.yanked index start) (r.yanked index start) :=
  { h with
    parallel := ⟨h.parallel.document, h.parallel.cursor, h.parallel.plain⟩
    index := rfl
    range := by rw [TextBuffer.yanked, TextBuffer.yanked, h.parallel.cursor]
    action := rfl }

theorem yank_entry {rest : List KillEntry} (hring : s.docKillRing = entry :: rest) :
    s.yank lib = (({ s with error := none }.pushUndo.materializeKill entry).2.insertSegments
      ({ s with error := none }.pushUndo.materializeKill entry).1).bind fun t : TextBuffer =>
        some (t.yanked (some 0) s.cursor) := by
  simp only [yank]
  split
  · next heq =>
    rw [hring] at heq
    obtain ⟨rfl, rfl⟩ := List.cons.inj heq
    rfl
  · next heq _ => rw [hring] at heq; cases heq
  · next heq _ => rw [hring] at heq; cases heq

theorem yank_text (hring : s.docKillRing = []) (htext : s.killRing.getLast? = some text) :
    s.yank lib = ({ s with error := none }.pushUndo.insertText lib text false).bind fun t : TextBuffer =>
      some (t.yanked (some 0) s.cursor) := by
  simp only [yank]
  split
  · next heq => rw [hring] at heq; cases heq
  · next heq =>
    rw [htext] at heq
    cases heq
    rfl
  · next heq => rw [htext] at heq; cases heq

theorem yank_idle (hring : s.docKillRing = []) (htext : s.killRing.getLast? = none) :
    s.yank lib = some { s with error := none } := by
  simp only [yank]
  split
  · next heq => rw [hring] at heq; cases heq
  · next heq => rw [htext] at heq; cases heq
  · rfl

theorem mirrors_yank (h : Mirrors s r) (hnewest : s.Newest) (hstep : s.yank lib = some t) :
    ∃ r', r.yank lib = some r' ∧ Mirrors t r' ∧ t.Newest := by
  have hkills := h.kills
  cases hring : s.docKillRing with
  | cons entry rest =>
    rw [hring] at hkills
    obtain ⟨entry', rest', hentry, -, hring'⟩ := List.forall₂_cons_left_iff.1 hkills
    rw [yank_entry hring, bind_eq_some_iff] at hstep
    obtain ⟨next, hins, heq⟩ := hstep
    cases heq
    obtain ⟨r', hr', hmir⟩ := mirrors_insertKill h.noError.pushUndo hentry hins
    rw [yank_entry hring', hr', bind_some, h.parallel.cursor]
    exact ⟨_, rfl, hmir.yanked _ _, .of_action fun hkill => by cases hkill⟩
  | nil =>
    rw [hring] at hkills
    have hring' : r.docKillRing = [] := List.forall₂_nil_left_iff.1 hkills
    have htexts : r.killRing = s.killRing := h.ring hring
    cases hlast : s.killRing.getLast? with
    | none =>
      rw [yank_idle hring hlast] at hstep
      cases hstep
      exact ⟨_, yank_idle hring' (htexts ▸ hlast), h.noError, hnewest⟩
    | some text =>
      rw [yank_text hring hlast, bind_eq_some_iff] at hstep
      obtain ⟨next, hins, heq⟩ := hstep
      cases heq
      obtain ⟨r', hr', hmir, -⟩ :=
        mirrors_insertText (s := { s with error := none }.pushUndo) h.noError.pushUndo hnewest hins
      rw [yank_text hring' (htexts ▸ hlast), hr', bind_some, h.parallel.cursor]
      exact ⟨_, rfl, hmir.yanked _ _, .of_action fun hkill => by cases hkill⟩

/-- The end of `yank_pop`, once there is a range to replace. -/
def popYank (lib : Segmenter) (s : TextBuffer) (prior : Nat) (start stop : BufferCursor) : Option TextBuffer :=
  if s.docKillRing.length < 2 ∧ s.killRing.length < 2 then some s
  else if !s.options.multiline ∧ start.line ≠ stop.line then some s
  else do
    let s ← { s.pushUndo with cursor := start }.eraseRange start stop
    if s.docKillRing ≠ [] then
      let next := (prior + 1) % s.docKillRing.length
      let entry ← s.docKillRing[next]?
      let (document, t) := s.materializeKill entry
      let t ← t.insertSegments document
      some (t.yanked (some next) start)
    else
      let s := { s with killRing := rotateKill s.killRing }
      match s.killRing.getLast? with
      | none => some s
      | some text => do
          let t ← s.insertText lib text false
          some (t.yanked t.lastYankRingIndex start)

variable {start stop : BufferCursor}

theorem yankPop_pop {prior : Nat} (hact : s.lastAction = .yank)
    (hindex : s.lastYankRingIndex = some prior) (hrange : s.lastYankRange = some (start, stop)) :
    s.yankPop lib = { s with error := none }.popYank lib prior start stop := by
  unfold yankPop
  dsimp only
  split
  · next _ hindex' hrange' =>
    rw [hindex] at hindex'
    rw [hrange] at hrange'
    cases hindex'
    obtain ⟨rfl, rfl⟩ := Prod.mk.inj (Option.some.inj hrange')
    rfl
  · next hidle => exact (hidle _ _ _ hact hindex hrange).elim

theorem yankPop_idle (h : ¬ ∃ prior range, s.lastAction = .yank ∧ s.lastYankRingIndex = some prior ∧
    s.lastYankRange = some range) : s.yankPop lib = some { s with error := none } := by
  unfold yankPop
  dsimp only
  split
  · next prior start stop hact hindex hrange => exact (h ⟨_, _, hact, hindex, hrange⟩).elim
  · rfl

theorem length_rotateKill (ring : List Bytes) : (rotateKill ring).length = ring.length := by
  unfold rotateKill
  split
  · rfl
  next last hlast =>
  have hpos := List.length_pos_of_mem (List.mem_of_getLast? hlast)
  rw [List.length_cons, List.length_dropLast]
  omega

theorem mirrors_popYank (h : Mirrors s r) (hnewest : s.Newest) (hact : s.lastAction ≠ .kill)
    {prior : Nat} (hstep : s.popYank lib prior start stop = some t) :
    ∃ r', r.popYank lib prior start stop = some r' ∧ Mirrors t r' ∧ t.Newest := by
  have hlen : r.docKillRing.length = s.docKillRing.length := h.kills.length_eq.symm
  unfold popYank at hstep ⊢
  rw [hlen, h.ringLength, h.multiline]
  split at hstep
  · next hshort =>
    cases hstep
    rw [if_pos hshort]
    exact ⟨r, rfl, h, hnewest⟩
  next hshort =>
  rw [if_neg hshort]
  split at hstep
  · next hlines =>
    cases hstep
    rw [if_pos hlines]
    exact ⟨r, rfl, h, hnewest⟩
  next hlines =>
  rw [if_neg hlines]
  simp only [bind_eq_bind, bind_eq_some_iff] at hstep
  obtain ⟨erased, herase, hstep⟩ := hstep
  obtain ⟨r', hr', hmir⟩ := mirrors_eraseRange (h.pushUndo.withCursor start) herase
  have hact' : erased.lastAction ≠ .kill := by
    obtain ⟨document, cursor, pastes, counter, rfl⟩ := (frame_eraseRange herase).rest
    exact hact
  simp only [hr', bind_eq_bind, bind_some]
  have hlen' : r'.docKillRing.length = erased.docKillRing.length := hmir.kills.length_eq.symm
  have hempty : r'.docKillRing ≠ [] ↔ erased.docKillRing ≠ [] := by
    rw [← List.length_pos_iff, ← List.length_pos_iff, hlen']
  split at hstep
  · next hkills =>
    rw [if_pos (hempty.2 hkills), hlen']
    simp only [bind_eq_some_iff] at hstep
    obtain ⟨entry, hentry, next, hins, heq⟩ := hstep
    cases heq
    obtain ⟨entry', hentry', hmirrorsKill⟩ := forall₂_getElem? hmir.kills hentry
    obtain ⟨r'', hr'', hmir'⟩ := mirrors_insertKill hmir hmirrorsKill hins
    simp only [hentry', hr'', bind_some]
    exact ⟨_, rfl, hmir'.yanked _ _, .of_action fun hkill => by cases hkill⟩
  next hkills =>
  rw [if_neg fun hne => hkills (hempty.1 hne)]
  rw [not_not] at hkills
  have htexts := hmir.ring hkills
  have hrotated : Mirrors { erased with killRing := rotateKill erased.killRing }
      { r' with killRing := rotateKill r'.killRing } :=
    { hmir with
      parallel := ⟨hmir.parallel.document, hmir.parallel.cursor, hmir.parallel.plain⟩
      ringLength := by rw [length_rotateKill, length_rotateKill, hmir.ringLength]
      ring := fun _ => by rw [htexts] }
  cases hlast : (rotateKill erased.killRing).getLast? with
  | none =>
    simp only [hlast] at hstep
    cases hstep
    simp only [htexts, hlast] at hrotated ⊢
    exact ⟨_, rfl, hrotated, .of_action hact'⟩
  | some text =>
    simp only [hlast, bind_eq_some_iff] at hstep
    obtain ⟨next, hins, heq⟩ := hstep
    cases heq
    obtain ⟨r'', hr'', hmir', -⟩ := mirrors_insertText hrotated (.of_action hact') hins
    rw [htexts] at hr''
    simp only [htexts, hlast, hr'', bind_some, hmir'.index]
    exact ⟨_, rfl, hmir'.yanked _ _, .of_action fun hkill => by cases hkill⟩

theorem mirrors_yankPop (h : Mirrors s r) (hnewest : s.Newest) (hstep : s.yankPop lib = some t) :
    ∃ r', r.yankPop lib = some r' ∧ Mirrors t r' ∧ t.Newest := by
  by_cases hready : ∃ prior range, s.lastAction = .yank ∧ s.lastYankRingIndex = some prior ∧
      s.lastYankRange = some range
  · obtain ⟨prior, ⟨start, stop⟩, hact, hindex, hrange⟩ := hready
    rw [yankPop_pop hact hindex hrange] at hstep
    rw [yankPop_pop (h.action.trans hact) (h.index.trans hindex) (h.range.trans hrange)]
    exact mirrors_popYank h.noError hnewest (hact.trans_ne (by decide)) hstep
  rw [yankPop_idle hready] at hstep
  cases hstep
  rw [← h.action, ← h.index, ← h.range] at hready
  exact ⟨_, yankPop_idle hready, h.noError, hnewest⟩

theorem undoOnce_idle (h : s.undo = []) : s.undoOnce = { s with error := none } := by
  simp only [undoOnce]
  split
  · rfl
  · next heq => rw [h] at heq; cases heq

theorem undoOnce_popped {popped : Snapshot} {rest : List Snapshot} (h : s.undo = popped :: rest) :
    s.undoOnce = { s with
      document := popped.document
      cursor := popped.cursor
      pastes := popped.pastes
      pasteCounter := popped.pasteCounter
      undo := rest
      lastYankRingIndex := none
      lastYankRange := none
      lastAction := .none
      error := none }.clampCursor := by
  simp only [undoOnce]
  split
  · next heq => rw [h] at heq; cases heq
  next heq =>
  rw [h] at heq
  obtain ⟨rfl, rfl⟩ := List.cons.inj heq
  rfl

theorem mirrors_undo (h : Mirrors s r) (hnewest : s.Newest) : Mirrors s.undoOnce r.undoOnce ∧ s.undoOnce.Newest := by
  have hundo := h.undo
  cases hstack : s.undo with
  | nil =>
    rw [hstack] at hundo
    rw [undoOnce_idle hstack, undoOnce_idle (List.forall₂_nil_left_iff.1 hundo)]
    exact ⟨h.noError, hnewest⟩
  | cons popped rest =>
    rw [hstack] at hundo
    obtain ⟨popped', rest', hpopped, hrest, hstack'⟩ := List.forall₂_cons_left_iff.1 hundo
    rw [undoOnce_popped hstack, undoOnce_popped hstack']
    exact ⟨Mirrors.clampCursor { h with
      parallel := ⟨hpopped.document, hpopped.cursor, fun _ => plainSegment_plain⟩
      index := rfl
      range := rfl
      action := rfl
      error := rfl
      numbered := hpopped.numbered
      counted := hpopped.counted
      undo := hrest }, .of_action fun hkill => by cases hkill⟩

/-! ## Motions -/

theorem Mirrors.movedTo (h : Mirrors s r) (cursor : BufferCursor) :
    Mirrors { s with cursor := cursor }.moved { r with cursor := cursor }.moved := (h.withCursor cursor).moved

theorem newest_moved (s : TextBuffer) : s.moved.Newest := .of_action fun hkill => by cases hkill

theorem mirrors_moveLeft (h : Mirrors s r) (hstep : s.moveLeft = some t) :
    ∃ r', r.moveLeft = some r' ∧ Mirrors t r' ∧ t.Newest := by
  have hready := h.ready
  simp only [moveLeft] at hstep ⊢
  simp only [hready.column, hready.cursorLine, hready.multiline]
  split at hstep
  · next hcol =>
    cases hstep
    rw [if_pos hcol]
    exact ⟨_, rfl, hready.movedTo _, newest_moved _⟩
  next hcol =>
  rw [if_neg hcol]
  split at hstep
  · next hline =>
    rw [if_pos hline]
    obtain ⟨previous, hprevious, heq⟩ := Option.bind_eq_some_iff.1 hstep
    cases heq
    simp only [hready.line hprevious, length_map, bind_eq_bind, bind_some]
    exact ⟨_, rfl, hready.movedTo _, newest_moved _⟩
  next hline =>
  cases hstep
  rw [if_neg hline]
  exact ⟨_, rfl, hready.moved, newest_moved _⟩

theorem mirrors_moveRight (h : Mirrors s r) (hstep : s.moveRight = some t) :
    ∃ r', r.moveRight = some r' ∧ Mirrors t r' ∧ t.Newest := by
  have hready := h.ready
  simp only [moveRight] at hstep ⊢
  obtain ⟨line, hline, hstep⟩ := Option.bind_eq_some_iff.1 hstep
  simp only [hready.column, hready.cursorLine, hready.line hline, length_map, hready.length,
    hready.multiline, bind_eq_bind, bind_some]
  split at hstep
  · next hcol =>
    cases hstep
    rw [if_pos hcol]
    exact ⟨_, rfl, hready.movedTo _, newest_moved _⟩
  next hcol =>
  rw [if_neg hcol]
  split at hstep
  · next hnext =>
    cases hstep
    rw [if_pos hnext]
    exact ⟨_, rfl, hready.movedTo _, newest_moved _⟩
  next hnext =>
  cases hstep
  rw [if_neg hnext]
  exact ⟨_, rfl, hready.moved, newest_moved _⟩

theorem mirrors_moveUp (h : Mirrors s r) (hnewest : s.Newest) (hstep : s.moveUp = some t) :
    ∃ r', r.moveUp = some r' ∧ Mirrors t r' ∧ t.Newest := by
  have hready := h.ready
  simp only [moveUp, h.multiline] at hstep ⊢
  split at hstep
  · next hsingle =>
    cases hstep
    rw [if_pos hsingle]
    exact ⟨r, rfl, h, hnewest⟩
  next hsingle =>
  rw [if_neg hsingle]
  simp only [hready.column, hready.cursorLine]
  split at hstep
  · next hline =>
    rw [if_pos hline]
    obtain ⟨previous, hprevious, heq⟩ := Option.bind_eq_some_iff.1 hstep
    cases heq
    simp only [hready.line hprevious, length_map, bind_eq_bind, bind_some]
    exact ⟨_, rfl, hready.movedTo _, newest_moved _⟩
  next hline =>
  cases hstep
  rw [if_neg hline]
  exact ⟨_, rfl, hready.moved, newest_moved _⟩

theorem mirrors_moveDown (h : Mirrors s r) (hnewest : s.Newest) (hstep : s.moveDown = some t) :
    ∃ r', r.moveDown = some r' ∧ Mirrors t r' ∧ t.Newest := by
  have hready := h.ready
  simp only [moveDown, h.multiline] at hstep ⊢
  split at hstep
  · next hsingle =>
    cases hstep
    rw [if_pos hsingle]
    exact ⟨r, rfl, h, hnewest⟩
  next hsingle =>
  rw [if_neg hsingle]
  simp only [hready.column, hready.cursorLine, hready.length]
  split at hstep
  · next hline =>
    rw [if_pos hline]
    obtain ⟨next, hnext, heq⟩ := Option.bind_eq_some_iff.1 hstep
    cases heq
    simp only [hready.line hnext, length_map, bind_eq_bind, bind_some]
    exact ⟨_, rfl, hready.movedTo _, newest_moved _⟩
  next hline =>
  cases hstep
  rw [if_neg hline]
  exact ⟨_, rfl, hready.moved, newest_moved _⟩

theorem mirrors_moveToLineEnd (h : Mirrors s r) (hstep : s.moveToLineEnd = some t) :
    ∃ r', r.moveToLineEnd = some r' ∧ Mirrors t r' ∧ t.Newest := by
  have hclamped := h.clampCursor
  simp only [moveToLineEnd] at hstep ⊢
  obtain ⟨line, hline, heq⟩ := Option.bind_eq_some_iff.1 hstep
  cases heq
  simp only [hclamped.cursorLine, hclamped.line hline, length_map, bind_eq_bind, bind_some]
  exact ⟨_, rfl, hclamped.movedTo _, newest_moved _⟩

theorem mirrors_moveToEnd (h : Mirrors s r) : Mirrors s.moveToEnd r.moveToEnd := by
  have hlast : r.document.getLast?.map List.length = s.document.getLast?.map List.length := by
    rw [h.parallel.document, mapped, List.getLast?_map, Option.map_map]
    congr 1
    funext line
    exact length_map _
  unfold moveToEnd
  rw [hlast, h.length]
  exact h.movedTo _

/-! ## Surgery -/

variable {document : BufferDocument}

theorem mem_erased {segment : BufferSegment}
    (h : segment ∈ (erased start stop document).flatten) : segment ∈ document.flatten := by
  have hline : ∀ index, ∀ other ∈ document.getD index [], other ∈ document.flatten := by
    intro index other hmem
    rw [List.getD_eq_getElem?_getD] at hmem
    cases hget : document[index]? with
    | none => rw [hget] at hmem; cases hmem
    | some line =>
      rw [hget] at hmem
      exact List.mem_flatten.2 ⟨line, List.mem_of_getElem? hget, hmem⟩
  obtain ⟨line, hmem, hseg⟩ := List.mem_flatten.1 h
  have hpieces : ∀ a b c d, segment ∈ (document.getD a []).take c ++ (document.getD b []).drop d →
      segment ∈ document.flatten := fun a b c d hpiece =>
    (List.mem_append.1 hpiece).elim (fun hpiece => hline a segment (List.mem_of_mem_take hpiece))
      fun hpiece => hline b segment (List.mem_of_mem_drop hpiece)
  unfold erased at hmem
  split at hmem
  · rcases List.mem_or_eq_of_mem_set hmem with hmem | rfl
    · exact List.mem_flatten.2 ⟨line, hmem, hseg⟩
    · exact hpieces _ _ _ _ hseg
  simp only [List.mem_append, List.mem_singleton] at hmem
  rcases hmem with (hmem | rfl) | hmem
  · exact List.mem_flatten.2 ⟨line, List.mem_of_mem_take hmem, hseg⟩
  · exact hpieces _ _ _ _ hseg
  · exact List.mem_flatten.2 ⟨line, List.mem_of_mem_drop hmem, hseg⟩

/-- An erasure between two kills leaves the numbers of the newest entry alone. -/
theorem newest_eraseOrdered (hnewest : s.Newest)
    (horder : start.line < stop.line ∨ (start.line = stop.line ∧ start.column ≤ stop.column))
    (hkept : s.lastAction = .kill → Unmarked s.document start stop)
    (hstep : s.eraseOrdered start stop = some t) : t.Newest := by
  intro hkill
  have hact : s.lastAction = .kill := by
    obtain ⟨document, cursor, pastes, counter, rfl⟩ := (frame_eraseOrdered hstep).rest
    exact hkill
  by_cases hout : s.document.length ≤ start.line ∨ s.document.length ≤ stop.line
  · rw [eraseOrdered, if_pos hout] at hstep
    cases hstep
    exact hnewest hkill
  rw [not_or, not_le, not_le] at hout
  rw [eraseOrdered_unmarked horder hout.1 hout.2 (hkept hact)] at hstep
  cases hstep
  intro entry rest hring id hid
  obtain ⟨hpastes, hdoc⟩ := hnewest hact entry rest hring id hid
  refine ⟨hpastes, fun hmem => hdoc ?_⟩
  rw [flatten_clampCursor] at hmem
  obtain ⟨segment, hseg, hsome⟩ := mem_pasteIds.1 hmem
  exact mem_pasteIds.2 ⟨segment, mem_erased hseg, hsome⟩

theorem newest_eraseRange (hnewest : s.Newest)
    (hkept : s.Kept lib (.eraseRange start stop)) (hstep : s.eraseRange start stop = some t) : t.Newest := by
  unfold eraseRange at hstep
  split at hstep
  · exact newest_eraseOrdered hnewest (by omega) (fun hkill => (hkept hkill).2) hstep
  · exact newest_eraseOrdered hnewest (by omega) (fun hkill => (hkept hkill).1) hstep

theorem newest_insertSegments (hnewest : s.Newest) (hplain : ∀ segment ∈ inserted.flatten, segment.pasteId = none)
    (hstep : s.insertSegments inserted = some t) : t.Newest := by
  have hperm := (edit_insertSegments hstep).perm
  obtain ⟨hact, hring, hpastes⟩ := insertSegments_action hstep
  intro hkill entry rest heq id hid
  obtain ⟨hpaste, hdoc⟩ := hnewest (hact.symm.trans hkill) entry rest (hring.symm.trans heq) id hid
  refine ⟨hpaste.trans (by rw [hpastes]), fun hmem => hdoc ?_⟩
  obtain ⟨segment, hseg, hsome⟩ := mem_pasteIds.1 hmem
  rcases List.mem_append.1 (hperm.mem_iff.2 hseg) with hold | hnew
  · exact mem_pasteIds.2 ⟨segment, hold, hsome⟩
  · rw [hplain segment hnew] at hsome
    cases hsome

def markers (segments : List BufferSegment) : List BufferSegment :=
  segments.filter fun segment => segment.pasteId.isSome

theorem markers_append (a b : List BufferSegment) : markers (a ++ b) = markers a ++ markers b :=
  List.filter_append ..

theorem markers_eq_nil {segments : List BufferSegment} (h : ∀ segment ∈ segments, segment.pasteId = none) :
    markers segments = [] := by
  refine List.filter_eq_nil_iff.2 fun segment hmem => ?_
  rw [h segment hmem]
  decide

theorem numbered_of_markers {pastes : Pastes} {a b : List BufferSegment} (h : Numbered pastes a)
    (hsub : (markers b).Sublist (markers a)) : Numbered pastes b := by
  have hids : ∀ segments, pasteIds segments = pasteIds (markers segments) := by
    intro segments
    rw [pasteIds, pasteIds, markers, List.filterMap_filter]
    refine List.filterMap_congr fun segment _ => ?_
    cases segment.pasteId <;> rfl
  refine ⟨fun segment hmem id hid => ?_, ?_⟩
  · have hmark : segment ∈ markers b := List.mem_filter.2 ⟨hmem, by rw [hid]; rfl⟩
    exact h.marker segment (List.mem_filter.1 (hsub.subset hmark)).1 id hid
  rw [hids]
  have hdist := h.distinct
  rw [hids] at hdist
  exact hdist.sublist (hsub.filterMap _)

theorem markers_set {index : Nat} {line line' : BufferLine}
    (hline : document[index]? = some line) (hsub : (markers line').Sublist (markers line)) :
    (markers (document.set index line').flatten).Sublist (markers document.flatten) := by
  induction document generalizing index with
  | nil => cases hline
  | cons first rest ih =>
    cases index with
    | zero =>
      cases hline
      rw [List.set_cons_zero, flatten_cons, flatten_cons, markers_append, markers_append]
      exact hsub.append (.refl _)
    | succ index =>
      rw [List.set_cons_succ, flatten_cons, flatten_cons, markers_append, markers_append]
      exact (List.Sublist.refl _).append (ih hline)

theorem markers_pieces {line inserted : BufferLine} {start after : Nat}
    (hkept : ∀ segment ∈ (line.take start).drop after, segment.pasteId = none)
    (hins : ∀ segment ∈ inserted, segment.pasteId = none) :
    (markers (line.take start ++ inserted ++ line.drop after)).Sublist (markers line) := by
  rw [markers_append, markers_append, markers_eq_nil hins, List.append_nil]
  rcases Nat.le_total start after with hle | hle
  · have hsplit : line = line.take start ++ (line.drop start) := (List.take_append_drop _ _).symm
    nth_rewrite 3 [hsplit]
    rw [markers_append]
    refine (List.Sublist.refl _).append (List.Sublist.filter _ ?_)
    rw [← Nat.add_sub_cancel' hle, ← List.drop_drop]
    exact List.drop_sublist _ _
  have hoverlap : line.take start = line.take after ++ (line.take start).drop after := by
    have hjoin := (List.take_append_drop after (line.take start)).symm
    rwa [List.take_take, Nat.min_eq_left hle] at hjoin
  rw [hoverlap, markers_append, markers_eq_nil hkept, List.append_nil, ← markers_append, List.take_append_drop]

theorem mirrors_applyCompletionEdit (h : Mirrors s r) (hnewest : s.Newest)
    {lineIndex startSegment afterBegin : Nat} {middle resultStart : Bytes}
    (hkept : s.Kept lib (.applyCompletionEdit lineIndex startSegment afterBegin middle resultStart))
    (hstep : s.applyCompletionEdit lib lineIndex startSegment afterBegin middle resultStart = some t) :
    ∃ r', r.applyCompletionEdit lib lineIndex startSegment afterBegin middle resultStart = some r' ∧
      Mirrors t r' ∧ t.Newest := by
  unfold applyCompletionEdit at hstep ⊢
  rw [h.length, h.multiline]
  split at hstep
  · next hout =>
    cases hstep
    rw [if_pos hout]
    exact ⟨r, rfl, h, hnewest⟩
  next hout =>
  rw [if_neg hout]
  simp only [bind_eq_bind, bind_eq_some_iff] at hstep
  obtain ⟨line, hline, before, hprev, inserted, hins, after, hafter, document, hset, shown, hshown, heq⟩ := hstep
  cases heq
  have hplain : ∀ segment ∈ inserted, segment.pasteId = none := fun segment hmem =>
    segmentLines_unmarked lib _ _ segment (List.mem_flatten.2 ⟨inserted, List.mem_of_head? hins, hmem⟩)
  have hbeforeEq : before = line.take startSegment := by rw [eq_of_slice? hprev, List.drop_zero]
  have hafterEq : after = line.drop afterBegin := by rw [eq_of_slice? hafter, List.take_length]
  have hnum : Numbered s.pastes document.flatten := by
    refine numbered_of_markers h.numbered ?_
    rw [eq_of_setAt? hset]
    refine markers_set hline ?_
    rw [hbeforeEq, hafterEq]
    exact markers_pieces (hkept line hline) hplain
  have hins' : inserted.map (plainSegment s.pastes) = inserted :=
    (List.map_congr_left fun segment hmem => plainSegment_plain (hplain segment hmem)).trans (List.map_id _)
  have hset' : setAt? r.document lineIndex (before.map (plainSegment s.pastes) ++ inserted ++
      after.map (plainSegment s.pastes)) = some (plainDocument s.pastes document) := by
    rw [h.document, ← hins', ← List.map_append, ← List.map_append]
    exact setAt?_map (List.map (plainSegment s.pastes)) hset
  have hafter' := slice?_map (plainSegment s.pastes) hafter
  simp only [h.line hline, slice?_map (plainSegment s.pastes) hprev, hins, length_map, hafter',
    hset', hshown, bind_eq_bind, bind_some]
  refine ⟨_, rfl, ?_, .of_action fun hkill => by cases hkill⟩
  have hclamped := (h.renew ⟨lineIndex, shown.length⟩ hnum h.counted).clampCursor
  exact { hclamped with
    parallel := ⟨hclamped.parallel.document, hclamped.parallel.cursor, hclamped.parallel.plain⟩
    index := rfl
    range := rfl
    action := rfl }

/-! ## Runs -/

theorem mirrors_apply (h : Mirrors s r) (hnewest : s.Newest) {op : BufferOp} (hkept : s.Kept lib op)
    (hstep : op.apply lib s = some t) : ∃ r', op.applyReference lib s r = some r' ∧ Mirrors t r' ∧ t.Newest := by
  cases op with
  | setCursor cursor =>
    cases hstep
    have hclamped := (h.noError.withCursor cursor).clampCursor
    exact ⟨_, rfl, { hclamped with
      parallel := ⟨hclamped.parallel.document, hclamped.parallel.cursor, hclamped.parallel.plain⟩
      index := rfl
      range := rfl
      action := rfl }, .of_action fun hkill => by cases hkill⟩
  | setText text clear => exact mirrors_setText h hstep
  | insertCharacter grapheme => exact mirrors_insertCharacter h hnewest hstep
  | insertText text recordUndo => exact mirrors_insertText h hnewest hstep
  | insertPaste text => exact mirrors_insertPaste h hnewest hstep
  | insertNewline => exact mirrors_insertNewline h hnewest hstep
  | backspace => exact mirrors_backspace h hstep
  | forwardDelete => exact mirrors_forwardDelete h hstep
  | deleteWordBackward => exact mirrors_killBackward h hnewest hstep
  | deleteWordForward => exact mirrors_killForward h hnewest hkept hstep
  | killToLineStart => exact mirrors_killToLineStart h hnewest hstep
  | killToLineEnd => exact mirrors_killToLineEnd h hnewest hstep
  | yank => exact mirrors_yank h hnewest hstep
  | yankPop => exact mirrors_yankPop h hnewest hstep
  | undo =>
    cases hstep
    exact ⟨_, rfl, mirrors_undo h hnewest⟩
  | pushUndo =>
    cases hstep
    exact ⟨_, rfl, h.pushUndo, hnewest⟩
  | clearUndo =>
    cases hstep
    exact ⟨_, rfl, { h with
      parallel := ⟨h.parallel.document, h.parallel.cursor, h.parallel.plain⟩
      index := rfl
      range := rfl
      action := rfl
      undo := .nil }, .of_action fun hkill => by cases hkill⟩
  | moveLeft => exact mirrors_moveLeft h hstep
  | moveRight => exact mirrors_moveRight h hstep
  | moveUp => exact mirrors_moveUp h hnewest hstep
  | moveDown => exact mirrors_moveDown h hnewest hstep
  | moveWordBackward =>
    obtain ⟨hmotion, hact⟩ := moveWordBackward_motion hstep
    refine ⟨r.follow t, congrArg (Option.map r.follow) hstep, mirrors_follow h hmotion, ?_⟩
    exact hnewest.ready.motion hmotion hact
  | moveWordForward =>
    obtain ⟨hmotion, hact⟩ := moveWordForward_motion hstep
    refine ⟨r.follow t, congrArg (Option.map r.follow) hstep, mirrors_follow h hmotion, ?_⟩
    exact hnewest.ready.motion hmotion hact
  | moveToLineStart =>
    cases hstep
    refine ⟨r.moveToLineStart, rfl, ?_, newest_moved _⟩
    rw [TextBuffer.moveToLineStart, TextBuffer.moveToLineStart, h.parallel.cursor]
    exact h.movedTo _
  | moveToLineEnd => exact mirrors_moveToLineEnd h hstep
  | moveToStart =>
    cases hstep
    exact ⟨_, rfl, h.movedTo ⟨0, 0⟩, newest_moved _⟩
  | moveToEnd =>
    cases hstep
    exact ⟨_, rfl, mirrors_moveToEnd h, newest_moved _⟩
  | jumpTo target forward =>
    cases hstep
    exact ⟨_, rfl, mirrors_follow h ⟨_, _, _, _, rfl⟩, newest_moved _⟩
  | eraseRange start stop =>
    obtain ⟨r', hr', hmir⟩ := mirrors_eraseRange h hstep
    exact ⟨r', hr', hmir, newest_eraseRange hnewest hkept hstep⟩
  | insertSegments inserted =>
    obtain ⟨r', hr', hmir⟩ := mirrors_insertSegments h hkept hstep
    exact ⟨r', hr', hmir, newest_insertSegments hnewest hkept hstep⟩
  | applyCompletionEdit => exact mirrors_applyCompletionEdit h hnewest hkept hstep

/-- Every operation of a run is allowed by the state it is applied to. -/
def KeptRun (lib : Segmenter) : TextBuffer → List BufferOp → Prop
  | _, [] => True
  | s, op :: ops => s.Kept lib op ∧ ∀ t, op.apply lib s = some t → t.KeptRun lib ops

theorem KeptRun.mirrors {ops : List BufferOp} (hkept : s.KeptRun lib ops) (h : Mirrors s r)
    (hnewest : s.Newest) (hrun : s.run lib ops = some t) :
    ∃ r', referenceRun lib s r ops = some r' ∧ Mirrors t r' := by
  induction ops generalizing s r with
  | nil =>
    cases hrun
    exact ⟨r, rfl, h⟩
  | cons op ops ih =>
    obtain ⟨next, hnext, hrest⟩ := run_cons hrun
    obtain ⟨r', hr', hmir, hnewest'⟩ := mirrors_apply h hnewest hkept.1 hnext
    obtain ⟨r'', hr'', hmir'⟩ := ih (hkept.2 next hnext) hmir hnewest' hrest
    refine ⟨r'', ?_, hmir'⟩
    simp only [referenceRun, hnext, hr', bind_eq_bind, bind_some]
    exact hr''

theorem mirrors_empty (options : TextBufferOptions) (ring : List Bytes) :
    Mirrors { options := options, killRing := ring } { options := options, killRing := ring } :=
  { options := rfl
    parallel := ⟨rfl, rfl, fun _ => plainSegment_plain⟩
    index := rfl
    range := rfl
    action := rfl
    error := rfl
    numbered := .nil _
    counted := fun id hsome => by cases hsome
    undo := .nil
    kills := .nil
    ringLength := rfl
    ring := fun _ => rfl }

end TextBuffer

/-- In every state that a run of allowed operations reaches, every marker has its content and shows it, no
two markers share a number, and the expanded text is the text of the reference. -/
theorem pastes_kept (lib : Segmenter) (options : TextBufferOptions) (ring : List Bytes)
    (ops : List BufferOp) (t : TextBuffer)
    (hkept : TextBuffer.KeptRun lib { options := options, killRing := ring } ops)
    (hrun : TextBuffer.run lib { options := options, killRing := ring } ops = some t) :
    (∀ line ∈ t.document, ∀ segment ∈ line, ∀ id, segment.pasteId = some id →
        ∃ content, t.pastes id = some content ∧ segment.text = markerFor id content) ∧
      (t.document.flatten.filterMap BufferSegment.pasteId).Nodup ∧
      ∃ r, TextBuffer.referenceRun lib { options := options, killRing := ring }
          { options := options, killRing := ring } ops = some r ∧ t.expandedText = r.text := by
  obtain ⟨r, hr, hmirrors⟩ := hkept.mirrors (TextBuffer.mirrors_empty options ring)
    (.of_action fun hkill => by cases hkill) hrun
  refine ⟨fun line hline segment hsegment id hid => ?_, hmirrors.numbered.distinct, r, hr, ?_⟩
  · obtain ⟨content, -, hcontent, htext⟩ := hmirrors.numbered.marker segment
      (List.mem_flatten.2 ⟨line, hline, hsegment⟩) id hid
    exact ⟨content, hcontent, htext⟩
  · rw [TextBuffer.expandedText, expandDocument_eq, ← hmirrors.document]
    rfl

/-- A large paste is killed with its line and comes back. -/
theorem pastes_kept_yanked_line :
    ∃ t, TextBuffer.run asciiSegmenter {} [.insertPaste (List.replicate 10 0x0A), .killToLineStart, .yank] = some t ∧
      (∀ line ∈ t.document, ∀ segment ∈ line, ∀ id, segment.pasteId = some id →
        ∃ content, t.pastes id = some content ∧ segment.text = markerFor id content) ∧
      (t.document.flatten.filterMap BufferSegment.pasteId).Nodup ∧
      ∃ r, TextBuffer.referenceRun asciiSegmenter {} {} [.insertPaste (List.replicate 10 0x0A),
        .killToLineStart, .yank] = some r ∧ t.expandedText = r.text := by
  have hdefined : (TextBuffer.run asciiSegmenter {} [.insertPaste (List.replicate 10 0x0A),
      .killToLineStart, .yank]).isSome = true := by
    decide +kernel
  obtain ⟨t, ht⟩ := Option.isSome_iff_exists.1 hdefined
  exact ⟨t, ht, pastes_kept asciiSegmenter {} [] _ t ⟨trivial, fun _ _ => ⟨trivial, fun _ _ =>
    ⟨trivial, fun _ _ => trivial⟩⟩⟩ ht⟩

/-- A word and then a marker are killed, and come back twice. The deletion of one marker takes the content
of both, so the other one stands for its own text. -/
theorem yanked_marker_lost : (TextBuffer.run asciiSegmenter {} [.insertText "a " true,
        .insertPaste (List.replicate 10 0x0A), .moveToStart, .deleteWordForward, .deleteWordForward,
        .yank, .yank, .backspace]).any (fun t => t.document.flatten.any fun segment =>
          segment.pasteId.any fun id => (t.pastes id).isNone) = true ∧
      (TextBuffer.run asciiSegmenter {} [.insertText "a " true,
        .insertPaste (List.replicate 10 0x0A), .moveToStart, .deleteWordForward, .deleteWordForward,
        .yank, .yank, .backspace]).map TextBuffer.expandedText ≠
      (TextBuffer.referenceRun asciiSegmenter {} {} [.insertText "a " true,
        .insertPaste (List.replicate 10 0x0A), .moveToStart, .deleteWordForward, .deleteWordForward,
        .yank, .yank, .backspace]).map TextBuffer.text := by
  decide +kernel

end CodingHarness.Tui
