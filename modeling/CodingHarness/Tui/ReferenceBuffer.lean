import CodingHarness.Tui.KilledPastes
import CodingHarness.Tui.NaturalEdits

/-!
# The reference buffer

The reference is a buffer in which a paste is a segment that shows its content, so it has no numbers to
give out, to look up or to move. It makes every operation of the buffer in the same way; only where words
and jump targets are is read from the shown buffer, whose markers have other texts. `Mirrors` relates the
two: every segment of the buffer stands for what the reference shows in its place, in the document, in the
snapshots and in the kill entries.
-/

namespace CodingHarness.Tui

open Library Support

namespace TextBuffer

/-! ## Operations of the reference -/

/-- What `insert_paste` makes of a text. -/
def pastedText (s : TextBuffer) (text : Bytes) : Option Bytes := do
  let s := s.ready
  let line ← s.document[s.cursor.line]?
  some (normalizePastedText text s.options.multiline (lineText (line.take s.cursor.column))
    (lineText (line.drop s.cursor.column)))

/-- The shown buffer decides where a motion ends. -/
def follow (r shown : TextBuffer) : TextBuffer := { r.ready with
    cursor := shown.cursor
    lastYankRingIndex := shown.lastYankRingIndex
    lastAction := shown.lastAction
    error := shown.error }

/-- `delete_word_backward` with a motion. -/
def killBackward (s : TextBuffer) (move : TextBuffer → Option TextBuffer) : Option TextBuffer := let s := s.ready
  if s.cursor.column = 0 ∧ (s.cursor.line = 0 ∨ !s.options.multiline) then some s
  else do
    let wasKill := decide (s.lastAction = .kill)
    let original := s.cursor
    let originalAction := s.lastAction
    let s ← move s
    if s.error.isSome then some { s with cursor := original, lastAction := originalAction }
    else if original = s.cursor then some s
    else
      let (deletedText, deleted, s) ← s.pushUndo.killRange s.cursor original
      let s := { s with killRing := pushKill s.killRing deletedText true wasKill }
      match wasKill, s.docKillRing with
      | true, last :: rest =>
        some { s with
          docKillRing := s.createKillEntry (mergeBackward deleted last.document) :: rest
          lastAction := .kill }
      | _, ring => some { s with docKillRing := s.createKillEntry deleted :: ring, lastAction := .kill }

/-- `delete_word_forward` with a motion. -/
def killForward (s : TextBuffer) (move : TextBuffer → Option TextBuffer) : Option TextBuffer := do
  let s := s.ready
  let line ← s.document[s.cursor.line]?
  if line.length ≤ s.cursor.column ∧ (s.document.length ≤ s.cursor.line + 1 ∨ !s.options.multiline) then
    some s
  else
    let wasKill := decide (s.lastAction = .kill)
    let original := s.cursor
    let originalAction := s.lastAction
    let s ← move s
    if s.error.isSome then some { s with cursor := original, lastAction := originalAction }
    else if original = s.cursor then some s
    else
      let target := s.cursor
      let s := { s with cursor := original }.pushUndo
      let (deletedText, deleted, s) ← s.killRange original target
      let s := { s with killRing := pushKill s.killRing deletedText false wasKill }
      match wasKill, s.docKillRing with
      | true, last :: rest =>
        let document ← mergeForward deleted last.document
        some { s with docKillRing := { last with document := document } :: rest, lastAction := .kill }
      | _, ring => some { s with docKillRing := s.createKillEntry deleted :: ring, lastAction := .kill }

/-- The segments of the cursor's line up to where a forward word search leads. -/
def nextWord (lib : Segmenter) (s : TextBuffer) : BufferLine := let s := s.ready
  let line := s.document.getD s.cursor.line []
  match findWordForward lib (lineText line) s.cursorByteOffset (atomicSpans line 0) with
  | .error _ => []
  | .ok next => (line.take (columnAt line next)).drop s.cursor.column

end TextBuffer

open TextBuffer in
/-- An operation of the reference `r` beside the shown buffer `s`. -/
def BufferOp.applyReference (lib : Segmenter) (s r : TextBuffer) : BufferOp → Option TextBuffer
  | .insertPaste text => do
      let text ← s.pastedText text
      let r := r.ready
      if text = [] then some r
      else
        let r : TextBuffer := { r.pushUndo with lastAction := .none }
        if r.options.multiline ∧ r.options.enablePasteMarkers ∧
            (10 < text.count 0x0A + 1 ∨ 1000 < utf16CodeUnitCount text) then
          r.insertSegments [[⟨text, none⟩]]
        else r.insertSegments (segmentLines lib r.options.multiline text)
  | .moveWordBackward => (s.moveWordBackward lib).map r.follow
  | .moveWordForward => (s.moveWordForward lib).map r.follow
  | .deleteWordBackward => r.killBackward fun r => (s.ready.moveWordBackward lib).map r.follow
  | .deleteWordForward => r.killForward fun r => (s.ready.moveWordForward lib).map r.follow
  | .jumpTo target forward => some (r.follow (s.jumpTo target forward))
  | op => op.apply lib r

namespace TextBuffer

/-- The reference beside a run of the shown buffer. -/
def referenceRun (lib : Segmenter) : TextBuffer → TextBuffer → List BufferOp → Option TextBuffer
  | _, r, [] => some r
  | s, r, op :: ops => do
      let t ← op.apply lib s
      let r ← op.applyReference lib s r
      referenceRun lib t r ops

/-! ## The relation -/

/-- A snapshot of the reference holds what a snapshot stands for. -/
structure MirrorsSnapshot (a b : Snapshot) : Prop where
  numbered : Numbered a.pastes a.document.flatten
  counted : Counted a.pastes a.pasteCounter
  document : b.document = plainDocument a.pastes a.document
  cursor : b.cursor = a.cursor

/-- A kill entry of the reference holds what a kill entry stands for. -/
structure MirrorsKill (a b : KillEntry) : Prop where
  numbered : Numbered a.pastes a.document.flatten
  document : b.document = plainDocument a.pastes a.document

/-- The reference shows what the buffer stands for. -/
structure Mirrors (s r : TextBuffer) : Prop where
  options : r.options = s.options
  parallel : Parallel (plainSegment s.pastes) s r
  index : r.lastYankRingIndex = s.lastYankRingIndex
  range : r.lastYankRange = s.lastYankRange
  action : r.lastAction = s.lastAction
  error : r.error = s.error
  numbered : Numbered s.pastes s.document.flatten
  counted : Counted s.pastes s.pasteCounter
  undo : List.Forall₂ MirrorsSnapshot s.undo r.undo
  kills : List.Forall₂ MirrorsKill s.docKillRing r.docKillRing
  ringLength : r.killRing.length = s.killRing.length
  ring : s.docKillRing = [] → r.killRing = s.killRing

/-- The newest kill entry, which a kill may still extend, has the numbers and contents of the buffer, and
its markers are no longer in the document. -/
def Newest (s : TextBuffer) : Prop := s.lastAction = .kill → ∀ entry rest, s.docKillRing = entry :: rest →
    ∀ id ∈ pasteIds entry.document.flatten, entry.pastes id = s.pastes id ∧ id ∉ pasteIds s.document.flatten

theorem Newest.of_action {s : TextBuffer} (h : s.lastAction ≠ .kill) :
    s.Newest := fun hkill => absurd hkill h

theorem plainSegment_plain {pastes : Pastes} {segment : BufferSegment} (h : segment.pasteId = none) :
    plainSegment pastes segment = segment := by
  rw [plainSegment, expandSegment, h, Option.bind_none, Option.getD_none, ← h]

theorem plainDocument_plain {pastes : Pastes} {document : BufferDocument}
    (h : ∀ segment ∈ document.flatten, segment.pasteId = none) : plainDocument pastes document = document := by
  have hline : ∀ line ∈ document, line.map (plainSegment pastes) = line := fun line hline =>
    (List.map_congr_left fun segment hseg =>
      plainSegment_plain (h segment (List.mem_flatten.2 ⟨line, hline, hseg⟩))).trans (List.map_id _)
  exact (List.map_congr_left hline).trans (List.map_id _)

namespace Mirrors

variable {s r t : TextBuffer}

theorem document (h : Mirrors s r) : r.document = plainDocument s.pastes s.document := h.parallel.document

theorem clampCursor (h : Mirrors s r) : Mirrors s.clampCursor r.clampCursor := { h with
    parallel := parallel_clampCursor h.parallel
    numbered := by rw [flatten_clampCursor]; exact h.numbered }

theorem noError (h : Mirrors s r) : Mirrors { s with error := none } { r with error := none } := { h with
    parallel := ⟨h.parallel.document, h.parallel.cursor, h.parallel.plain⟩
    error := rfl }

theorem ready (h : Mirrors s r) : Mirrors s.ready r.ready := h.noError.clampCursor

theorem withAction (h : Mirrors s r) (action : LastAction) :
    Mirrors { s with lastAction := action } { r with lastAction := action } :=
  { h with
    parallel := ⟨h.parallel.document, h.parallel.cursor, h.parallel.plain⟩
    action := rfl }

theorem withCursor (h : Mirrors s r) (cursor : BufferCursor) :
    Mirrors { s with cursor := cursor } { r with cursor := cursor } :=
  { h with parallel := ⟨h.parallel.document, rfl, h.parallel.plain⟩ }

theorem moved (h : Mirrors s r) : Mirrors s.moved r.moved := { h with
    parallel := ⟨h.parallel.document, h.parallel.cursor, h.parallel.plain⟩
    index := rfl
    action := rfl }

theorem pushUndo (h : Mirrors s r) : Mirrors s.pushUndo r.pushUndo := { h with
    parallel := ⟨h.parallel.document, h.parallel.cursor, h.parallel.plain⟩
    index := rfl
    range := rfl
    undo := .cons ⟨h.numbered, h.counted, h.document, h.parallel.cursor⟩ h.undo }

variable {other : (BufferSegment → BufferSegment) → TextBuffer → Option TextBuffer}
  {added gone : List BufferSegment}

/-- An edit of places only, with new segments that have numbers of their own. -/
theorem edit (h : Mirrors s r)
    (hedit : Edit s t added gone other) (hadded : Numbered s.pastes (s.document.flatten ++ added)) :
    ∃ r', other (plainSegment s.pastes) r = some r' ∧ Mirrors t r' := by
  refine ⟨_, hedit.natural _ r h.parallel, ?_⟩
  have hnum := (hadded.perm hedit.perm).right
  obtain ⟨document, cursor, rfl⟩ := hedit.rest
  exact { h with
    parallel := ⟨rfl, rfl, h.parallel.plain⟩
    numbered := hnum }

theorem editPlain (h : Mirrors s r)
    (hedit : Edit s t added gone other) (hadded : ∀ segment ∈ added, segment.pasteId = none) :
    ∃ r', other (plainSegment s.pastes) r = some r' ∧ Mirrors t r' := by
  refine h.edit hedit (h.numbered.append (.of_plain hadded) fun id _ hid => ?_)
  obtain ⟨segment, hmem, hsome⟩ := mem_pasteIds.1 hid
  rw [hadded segment hmem] at hsome
  cases hsome

end Mirrors

end TextBuffer

end CodingHarness.Tui
