import CodingHarness.Tui.TextUnits
import CodingHarness.Library.Vectors

/-!
# The text buffer

`TextBuffer` is the editing engine of the terminal interface: lines of graphemes with a cursor, paste
markers that stand for longer pasted text, an undo stack and two kill rings. Every operation is a function
to `Option`: it has no result when the code indexes, slices or takes the front or back of a vector outside
its bounds, or when `substr` throws.

A paste's content is looked up by its number, so the map of the pastes is a function. Which range was
yanked last and from where is kept as in the source, with its two optional members.
-/

namespace CodingHarness.Tui

open Library Support

/-! ## Data -/

structure BufferCursor where
  line : Nat := 0
  column : Nat := 0
  deriving DecidableEq

/-- `BufferSegment`: a grapheme, or a paste marker. -/
structure BufferSegment where
  text : Bytes
  pasteId : Option Nat := none
  deriving DecidableEq

abbrev BufferLine := List BufferSegment

abbrev BufferDocument := List BufferLine

/-- `std::map` from paste numbers to contents. -/
abbrev Pastes := Nat → Option Bytes

/-- `TextBuffer::Snapshot`. -/
structure Snapshot where
  document : BufferDocument
  cursor : BufferCursor
  pastes : Pastes
  pasteCounter : Nat

/-- `TextBuffer::KillEntry`. -/
structure KillEntry where
  document : BufferDocument
  pastes : Pastes

/-- `TextBuffer::LastAction`. -/
inductive LastAction where
  | none
  | typeWord
  | kill
  | yank
  deriving DecidableEq

/-- `TextBufferOptions` without the ring, which is a member of the buffer. -/
structure TextBufferOptions where
  multiline : Bool := true
  enablePasteMarkers : Bool := true
  deriving DecidableEq

/-- `TextBuffer`. The most recent snapshot is the first of `undo`, and the most recent text the last of
`killRing`, as in `KillRing`; `docKillRing` has its most recent entry first. -/
structure TextBuffer where
  options : TextBufferOptions := {}
  document : BufferDocument := [[]]
  cursor : BufferCursor := {}
  pastes : Pastes := fun _ => none
  pasteCounter : Nat := 0
  undo : List Snapshot := []
  killRing : List Bytes := []
  docKillRing : List KillEntry := []
  lastYankRingIndex : Option Nat := none
  lastYankRange : Option (BufferCursor × BufferCursor) := none
  lastAction : LastAction := .none
  error : Option Error := none

def lineText (line : BufferLine) : Bytes := line.flatMap BufferSegment.text

/-- `KillRing::push`. -/
def pushKill (ring : List Bytes) (text : Bytes) (prepend accumulate : Bool) : List Bytes := if text = [] then ring
  else if accumulate then
    match ring.getLast? with
    | none => ring ++ [text]
    | some last => ring.dropLast ++ [if prepend then text ++ last else last ++ text]
  else ring ++ [text]

/-- `KillRing::rotate`. -/
def rotateKill (ring : List Bytes) : List Bytes := match ring.getLast? with
  | none => ring
  | some last => last :: ring.dropLast

namespace TextBuffer

/-! ## Queries -/

def text (s : TextBuffer) : Bytes := List.intercalate [0x0A] (s.document.map lineText)

def expandSegment (pastes : Pastes) (segment : BufferSegment) : Bytes :=
  (segment.pasteId.bind pastes).getD segment.text

/-- The text of a document with the contents of its pastes. -/
def expandDocument (pastes : Pastes) (document : BufferDocument) : Bytes :=
  List.intercalate [0x0A] (document.map fun line => line.flatMap (expandSegment pastes))

def expandedText (s : TextBuffer) : Bytes := expandDocument s.pastes s.document

def cursorByteOffset (s : TextBuffer) : Nat :=
  (lineText ((s.document.getD s.cursor.line []).take s.cursor.column)).length

/-! ## Private helpers -/

/-- The cursor goes into the document, which gets a line when it has none. -/
def clampCursor (s : TextBuffer) : TextBuffer := let document := if s.document = [] then [[]] else s.document
  let line := min s.cursor.line (document.length - 1)
  { s with
    document := document
    cursor := ⟨line, min s.cursor.column (document.getD line []).length⟩ }

/-- The first lines of most operations: the error is reset and the cursor clamped. -/
def ready (s : TextBuffer) : TextBuffer := { s with error := none }.clampCursor

def createSnapshot (s : TextBuffer) : Snapshot := ⟨s.document, s.cursor, s.pastes, s.pasteCounter⟩

/-- A snapshot for undo; a yank before it can no longer be replaced. -/
def pushUndo (s : TextBuffer) : TextBuffer :=
  { s with undo := s.createSnapshot :: s.undo, lastYankRingIndex := none, lastYankRange := none }

/-- `pastes_.emplace`: a content that is there stays. -/
def emplacePaste (pastes : Pastes) (id : Nat) (text : Bytes) : Pastes :=
  if (pastes id).isSome then pastes else Function.update pastes id (some text)

/-- `create_kill_entry`. Of the pastes only those of the killed segments are kept. -/
def createKillEntry (s : TextBuffer) (killed : BufferDocument) : KillEntry :=
  ⟨killed, fun id => if killed.any (·.any fun segment => segment.pasteId == some id) then s.pastes id
    else none⟩

/-- One segment in `materialize_kill`: the numbers given out so far, the counter and the pastes. -/
def materializeSegment (entry : KillEntry) (remapped : List (Nat × Nat)) (s : TextBuffer)
    (segment : BufferSegment) : BufferSegment × List (Nat × Nat) × TextBuffer :=
  match segment.pasteId with
  | none => (segment, remapped, s)
  | some source =>
    match remapped.lookup source with
    | some target => (⟨markerFor target ((entry.pastes source).getD []), some target⟩, remapped, s)
    | none =>
      let target := s.pasteCounter + 1
      let counted := { s with pasteCounter := target }
      match entry.pastes source with
      | none => (segment, remapped, counted)
      | some content =>
        (⟨markerFor target content, some target⟩, (source, target) :: remapped,
          { counted with pastes := Function.update s.pastes target (some content) })

/-- A line in `materialize_kill`. -/
def materializeLine (entry : KillEntry) : List (Nat × Nat) → TextBuffer → BufferLine →
    BufferLine × List (Nat × Nat) × TextBuffer
  | remapped, s, [] => ([], remapped, s)
  | remapped, s, segment :: rest =>
    let first := materializeSegment entry remapped s segment
    let others := materializeLine entry first.2.1 first.2.2 rest
    (first.1 :: others.1, others.2)

/-- The lines in `materialize_kill`. -/
def materializeLines (entry : KillEntry) : List (Nat × Nat) → TextBuffer → BufferDocument →
    BufferDocument × TextBuffer
  | _, s, [] => ([], s)
  | remapped, s, line :: rest =>
    let first := materializeLine entry remapped s line
    let others := materializeLines entry first.2.1 first.2.2 rest
    (first.1 :: others.1, others.2)

def materializeKill (s : TextBuffer) (entry : KillEntry) : BufferDocument × TextBuffer :=
  materializeLines entry [] s entry.document

/-- The segment that `forget_paste` leaves behind. -/
def renumberSegment (id : Nat) (segment : BufferSegment) : Option BufferSegment := match segment.pasteId with
  | none => some segment
  | some other =>
    if id < other then
      (renumberMarker segment.text (other - 1)).map fun text => ⟨text, some (other - 1)⟩
    else some segment

/-- `forget_paste`. The paste disappears and the later ones move down. -/
def forgetPaste (s : TextBuffer) (id : Nat) : Option TextBuffer := do
  let document ← s.document.mapM fun line => line.mapM (renumberSegment id)
  some { s with
    document := document
    pastes := fun other => if other < id then s.pastes other else s.pastes (other + 1)
    pasteCounter := s.pasteCounter - 1 }

/-- Forget the paste of a segment, if it has one. -/
def forgetSegment (s : TextBuffer) (segment : BufferSegment) : Option TextBuffer := match segment.pasteId with
  | none => some s
  | some id => s.forgetPaste id

/-- Cut the line between the cursor and a column out. -/
def removeUntil (s : TextBuffer) (target : Nat) (forward : Bool) : Option (BufferLine × TextBuffer) := do
  let line ← s.document[s.cursor.line]?
  let start := if forward then s.cursor.column else target
  let stop := if forward then target else s.cursor.column
  let removed ← slice? line start stop
  let kept ← eraseSlice? line start stop
  some (removed, { s with
    document := s.document.set s.cursor.line kept
    cursor := { s.cursor with column := start } })

def segmentLines (lib : Segmenter) (multiline : Bool) (text : Bytes) : BufferDocument :=
  (if multiline then text.splitOn 0x0A else [text]).map fun line =>
    (lib.splitGraphemes line).map fun unit => ⟨unit, none⟩

/-- The line before the cursor's line takes it in: the end of `backspace` and of `kill_to_line_start`. -/
def joinWithPrevious (s : TextBuffer) : Option TextBuffer := do
  let current ← s.document[s.cursor.line]?
  let previous ← s.document[s.cursor.line - 1]?
  let joined ← setAt? s.document (s.cursor.line - 1) (previous ++ current)
  let document ← eraseSlice? joined s.cursor.line (s.cursor.line + 1)
  some { s with document := document, cursor := ⟨s.cursor.line - 1, previous.length⟩ }

/-- The cursor's line takes in the next one: the end of `forward_delete` and of `kill_to_line_end`. -/
def joinWithNext (s : TextBuffer) : Option TextBuffer := do
  let current ← s.document[s.cursor.line]?
  let next ← s.document[s.cursor.line + 1]?
  let joined ← setAt? s.document s.cursor.line (current ++ next)
  let document ← eraseSlice? joined (s.cursor.line + 1) (s.cursor.line + 2)
  some { s with document := document }

/-- The loops of `erase_range` that forget the pastes in a range of a line. -/
def forgetSpan (s : TextBuffer) (line start stop : Nat) : Option TextBuffer :=
  (List.range' start (stop - start)).foldlM (fun s column => do
    let segments ← s.document[line]?
    let segment ← segments[column]?
    s.forgetSegment segment) s

/-- The end of the motions: a yank can no longer be replaced. -/
def moved (s : TextBuffer) : TextBuffer := { s with lastYankRingIndex := none, lastAction := .none }

/-! ## Insertion -/

/-- `insert_segments`: the first line joins the cursor's, the last takes what stood behind it. -/
def insertSegments (s : TextBuffer) (inserted : BufferDocument) : Option TextBuffer := match inserted with
  | [] => some s
  | first :: more => do
      let s := s.clampCursor
      let line ← s.document[s.cursor.line]?
      let after ← slice? line s.cursor.column line.length
      let before ← eraseSlice? line s.cursor.column line.length
      let head := before ++ first
      if more = [] then
        let document ← setAt? s.document s.cursor.line (head ++ after)
        some { s with document := document, cursor := { s.cursor with column := head.length } }
      else
        let opened ← setAt? s.document s.cursor.line head
        let document ← insertAt? opened (s.cursor.line + 1) more
        let lastIndex := s.cursor.line + inserted.length - 1
        let last ← document[lastIndex]?
        let document ← setAt? document lastIndex (last ++ after)
        some { s with
          document := document
          cursor := ⟨lastIndex, (last ++ after).length - after.length⟩ }

def setText (lib : Segmenter) (s : TextBuffer) (text : Bytes) (clearUndoStack : Bool) : Option TextBuffer := do
  let document := segmentLines lib s.options.multiline (sanitizeInput text s.options.multiline)
  let last ← document.getLast?
  some { s with
    error := none
    undo := if clearUndoStack then [] else s.undo
    lastYankRingIndex := none
    lastYankRange := none
    lastAction := .none
    pastes := fun _ => none
    pasteCounter := 0
    document := document
    cursor := ⟨document.length - 1, last.length⟩ }.clampCursor

/-- Put graphemes before the cursor, on its line. -/
def insertUnits (s : TextBuffer) (units : List Bytes) : Option TextBuffer := do
  let line ← s.document[s.cursor.line]?
  let line ← insertAt? line s.cursor.column (units.map fun unit => ⟨unit, none⟩)
  let document ← setAt? s.document s.cursor.line line
  some { s with
    document := document
    cursor := { s.cursor with column := s.cursor.column + units.length } }

/-- `insert_character`: a word that is typed is one undo step. -/
def insertCharacter (lib : Segmenter) (s : TextBuffer) (grapheme : Bytes) : Option TextBuffer :=
  let units := lib.splitGraphemes grapheme
  if units = [] then some { s with error := none }
  else if units.any isWhitespaceGrapheme ∨ s.lastAction ≠ .typeWord then
    { s.ready.pushUndo with lastAction := .typeWord }.insertUnits units
  else { s.ready with lastAction := .typeWord }.insertUnits units

def insertText (lib : Segmenter) (s : TextBuffer) (text : Bytes) (recordUndo : Bool) : Option TextBuffer :=
  let s := { s with error := none }
  let text := sanitizeInput text s.options.multiline
  if text = [] then some s
  else
    let s := if recordUndo then s.pushUndo else s
    let s := { s with lastAction := .none }
    s.insertSegments (segmentLines lib s.options.multiline text)

/-- `insert_paste`: a long paste is one marker segment. -/
def insertPaste (lib : Segmenter) (s : TextBuffer) (text : Bytes) : Option TextBuffer := do
  let s := s.ready
  let line ← s.document[s.cursor.line]?
  let before := lineText (line.take s.cursor.column)
  let after := lineText (line.drop s.cursor.column)
  let text := normalizePastedText text s.options.multiline before after
  if text = [] then some s
  else
    let s : TextBuffer := { s.pushUndo with lastAction := .none }
    if s.options.multiline ∧ s.options.enablePasteMarkers ∧
        (10 < text.count 0x0A + 1 ∨ 1000 < utf16CodeUnitCount text) then
      let id := s.pasteCounter + 1
      let s := { s with pasteCounter := id, pastes := emplacePaste s.pastes id text }
      s.insertSegments [[⟨markerFor id text, some id⟩]]
    else s.insertSegments (segmentLines lib s.options.multiline text)

def insertNewline (s : TextBuffer) : Option TextBuffer := let s := { s with error := none }
  if !s.options.multiline then some s
  else do
    let s := { s.ready.pushUndo with lastAction := .none }
    let current ← s.document[s.cursor.line]?
    let tail ← slice? current s.cursor.column current.length
    let kept ← eraseSlice? current s.cursor.column current.length
    let document ← setAt? s.document s.cursor.line kept
    let document ← insertAt? document (s.cursor.line + 1) [tail]
    some { s with document := document, cursor := ⟨s.cursor.line + 1, 0⟩ }

/-! ## Deletion -/

/-- Delete one segment of the cursor's line and forget its paste: the first branches of `backspace` and
`forward_delete`. -/
def deleteSegment (s : TextBuffer) (column : Nat) : Option TextBuffer := do
  let line ← s.document[s.cursor.line]?
  let segment ← (line)[column]?
  let s ← s.forgetSegment segment
  let line ← s.document[s.cursor.line]?
  let kept ← eraseSlice? line column (column + 1)
  let document ← setAt? s.document s.cursor.line kept
  some { s with document := document }

def backspace (s : TextBuffer) : Option TextBuffer := let s := { s.ready with lastAction := .none }
  if 0 < s.cursor.column then do
    let s ← s.pushUndo.deleteSegment (s.cursor.column - 1)
    some { s with cursor := { s.cursor with column := s.cursor.column - 1 } }
  else if 0 < s.cursor.line ∧ s.options.multiline then s.pushUndo.joinWithPrevious
  else some s

def forwardDelete (s : TextBuffer) : Option TextBuffer := do
  let s := { s.ready with lastAction := .none }
  let line ← s.document[s.cursor.line]?
  if s.cursor.column < line.length then s.pushUndo.deleteSegment s.cursor.column
  else if s.cursor.line + 1 < s.document.length ∧ s.options.multiline then s.pushUndo.joinWithNext
  else some s

/-- The pastes in the range of an erasure over several lines are forgotten line by line. -/
def forgetLines (s : TextBuffer) : List Nat → Option TextBuffer
  | [] => some s
  | line :: rest => do
      let segments ← s.document[line]?
      let s ← s.forgetSpan line 0 segments.length
      s.forgetLines rest

/-- `erase_range`, once the ends are in order. -/
def eraseOrdered (s : TextBuffer) (start stop : BufferCursor) : Option TextBuffer :=
  if s.document.length ≤ start.line ∨ s.document.length ≤ stop.line then some s
  else if start.line = stop.line then do
    let line ← s.document[start.line]?
    let clampedStart := min start.column line.length
    let clampedStop := min stop.column line.length
    let s ← s.forgetSpan start.line clampedStart clampedStop
    let line ← s.document[start.line]?
    let kept ← eraseSlice? line clampedStart clampedStop
    let document ← setAt? s.document start.line kept
    some { s with document := document, cursor := start }.clampCursor
  else do
    let first ← s.document[start.line]?
    let clampedStart := min start.column first.length
    let s ← s.forgetSpan start.line clampedStart first.length
    let first ← s.document[start.line]?
    let head ← eraseSlice? first clampedStart first.length
    let document ← setAt? s.document start.line head
    let s := { s with document := document }
    let s ← s.forgetLines (List.range' (start.line + 1) (stop.line - (start.line + 1)))
    let last ← s.document[stop.line]?
    let clampedStop := min stop.column last.length
    let s ← s.forgetSpan stop.line 0 clampedStop
    let last ← s.document[stop.line]?
    let tail ← slice? last clampedStop last.length
    let first ← s.document[start.line]?
    let document ← setAt? s.document start.line (first ++ tail)
    let document ← eraseSlice? document (start.line + 1) (stop.line + 1)
    some { s with document := document, cursor := start }.clampCursor

def eraseRange (s : TextBuffer) (start stop : BufferCursor) : Option TextBuffer :=
  if stop.line < start.line ∨ (start.line = stop.line ∧ stop.column < start.column) then
    s.eraseOrdered stop start
  else s.eraseOrdered start stop

/-! ## Words -/

/-- The atomic spans of a line: the bytes of its paste markers, from an offset on. -/
def atomicSpans : BufferLine → Nat → List WordAtomicSpan
  | [], _ => []
  | segment :: rest, offset =>
    let stop := offset + segment.text.length
    let later := atomicSpans rest stop
    if segment.pasteId.isSome then ⟨offset, stop⟩ :: later else later

/-- The column that a byte offset belongs to: the first one at or after it. -/
def columnAt : BufferLine → Nat → Nat
  | [], _ => 0
  | segment :: rest, offset =>
    if offset = 0 then 0 else columnAt rest (offset - segment.text.length) + 1

def moveWordBackward (lib : Segmenter) (s : TextBuffer) : Option TextBuffer := let s := s.ready
  if s.cursor.column = 0 ∧ 0 < s.cursor.line ∧ s.options.multiline then do
    let previous ← s.document[s.cursor.line - 1]?
    some { s with cursor := ⟨s.cursor.line - 1, previous.length⟩ }.moved
  else do
    let line ← s.document[s.cursor.line]?
    match findWordBackward lib (lineText line) s.cursorByteOffset (atomicSpans line 0) with
    | .error error => some { s with error := some error }
    | .ok previous => some { s with cursor := { s.cursor with column := columnAt line previous } }.moved

def moveWordForward (lib : Segmenter) (s : TextBuffer) : Option TextBuffer := do
  let s := s.ready
  let line ← s.document[s.cursor.line]?
  if s.cursor.column = line.length ∧ s.cursor.line + 1 < s.document.length ∧ s.options.multiline then
    some { s with cursor := ⟨s.cursor.line + 1, 0⟩ }.moved
  else
    match findWordForward lib (lineText line) s.cursorByteOffset (atomicSpans line 0) with
    | .error error => some { s with error := some error }
    | .ok next => some { s with cursor := { s.cursor with column := columnAt line next } }.moved

/-! ## Kills -/

/-- What a word kill removes: the range on one line, or nothing of the document when the range crosses a
line. -/
def killRange (s : TextBuffer) (start stop : BufferCursor) : Option (Bytes × BufferDocument × TextBuffer) :=
  if start.line = stop.line then do
    let (removed, s) ← s.removeUntil stop.column true
    some (lineText removed, [removed], s)
  else do
    let s ← s.eraseRange start stop
    some ([], [], s)

/-- The merge of a backward word kill with the kill before it. -/
def mergeBackward (deleted last : BufferDocument) : BufferDocument := match deleted.getLast?, last with
  | some lastDeleted, first :: more => deleted.dropLast ++ [lastDeleted ++ first] ++ more
  | _, _ => deleted

/-- The merge of a forward word kill with the kill before it. -/
def mergeForward (deleted last : BufferDocument) : Option BufferDocument := do
  let lastLine ← last.getLast?
  let firstDeleted ← deleted.head?
  some (last.dropLast ++ [lastLine ++ firstDeleted] ++ deleted.tail)

def deleteWordBackward (lib : Segmenter) (s : TextBuffer) : Option TextBuffer := let s := s.ready
  if s.cursor.column = 0 ∧ (s.cursor.line = 0 ∨ !s.options.multiline) then some s
  else do
    let wasKill := decide (s.lastAction = .kill)
    let original := s.cursor
    let originalAction := s.lastAction
    let s ← s.moveWordBackward lib
    if s.error.isSome then some { s with cursor := original, lastAction := originalAction }
    else if original = s.cursor then some s
    else
      let (deletedText, deleted, s) ← s.pushUndo.killRange s.cursor original
      let s := { s with killRing := pushKill s.killRing deletedText true wasKill }
      match wasKill, s.docKillRing with
      | true, last :: rest =>
        some { s with
          docKillRing := s.createKillEntry (mergeBackward deleted last.document) :: rest
          lastAction := .kill }
      | _, ring => some { s with docKillRing := s.createKillEntry deleted :: ring, lastAction := .kill }

/-- `delete_word_forward`: a continued kill merges with the newest entry, which needs a line on both sides. -/
def deleteWordForward (lib : Segmenter) (s : TextBuffer) : Option TextBuffer := do
  let s := s.ready
  let line ← s.document[s.cursor.line]?
  if line.length ≤ s.cursor.column ∧ (s.document.length ≤ s.cursor.line + 1 ∨ !s.options.multiline) then
    some s
  else
    let wasKill := decide (s.lastAction = .kill)
    let original := s.cursor
    let originalAction := s.lastAction
    let s ← s.moveWordForward lib
    if s.error.isSome then some { s with cursor := original, lastAction := originalAction }
    else if original = s.cursor then some s
    else
      let target := s.cursor
      let s := { s with cursor := original }.pushUndo
      let (deletedText, deleted, s) ← s.killRange original target
      let s := { s with killRing := pushKill s.killRing deletedText false wasKill }
      match wasKill, s.docKillRing with
      | true, last :: rest =>
        let document ← mergeForward deleted last.document
        some { s with docKillRing := { last with document := document } :: rest, lastAction := .kill }
      | _, ring => some { s with docKillRing := s.createKillEntry deleted :: ring, lastAction := .kill }

/-- A line kill puts its own entry into the ring of documents; only the text ring merges. -/
def killed (s : TextBuffer) (text : Bytes) (document : BufferDocument) (prepend wasKill : Bool) : TextBuffer :=
  { s with
    killRing := pushKill s.killRing text prepend wasKill
    docKillRing := s.createKillEntry document :: s.docKillRing
    lastAction := .kill }

/-- `kill_to_line_start`: at the start it takes the line break before. -/
def killToLineStart (s : TextBuffer) : Option TextBuffer := let s := s.ready
  let wasKill := decide (s.lastAction = .kill)
  if s.cursor.column ≠ 0 then do
    let (removed, s) ← s.pushUndo.removeUntil 0 false
    some (s.killed (lineText removed) [removed] true wasKill)
  else if 0 < s.cursor.line ∧ s.options.multiline then
    (s.pushUndo.killed [0x0A] [[], []] true wasKill).joinWithPrevious
  else some s

/-- `kill_to_line_end`: at the end it takes the line break behind. -/
def killToLineEnd (s : TextBuffer) : Option TextBuffer := do
  let s := s.ready
  let wasKill := decide (s.lastAction = .kill)
  let line ← s.document[s.cursor.line]?
  if line.length ≠ s.cursor.column then
    let (removed, s) ← s.pushUndo.removeUntil line.length true
    some (s.killed (lineText removed) [removed] false wasKill)
  else if s.cursor.line + 1 < s.document.length ∧ s.options.multiline then
    (s.pushUndo.killed [0x0A] [[], []] false wasKill).joinWithNext
  else some s

/-- The end of `yank` and `yank_pop`: the range is remembered. -/
def yanked (s : TextBuffer) (index : Option Nat) (start : BufferCursor) : TextBuffer :=
  { s with lastYankRingIndex := index, lastYankRange := some (start, s.cursor), lastAction := .yank }

def yank (lib : Segmenter) (s : TextBuffer) : Option TextBuffer := let s := { s with error := none }
  match s.docKillRing, s.killRing.getLast? with
  | entry :: _, _ => do
      let (document, t) := s.pushUndo.materializeKill entry
      let t ← t.insertSegments document
      some (t.yanked (some 0) s.cursor)
  | [], some text => do
      let t ← s.pushUndo.insertText lib text false
      some (t.yanked (some 0) s.cursor)
  | [], none => some s

/-- `yank_pop`: the range of the last yank is replaced by the next kill. -/
def yankPop (lib : Segmenter) (s : TextBuffer) : Option TextBuffer := let s := { s with error := none }
  match s.lastAction, s.lastYankRingIndex, s.lastYankRange with
  | .yank, some prior, some (start, stop) =>
    if s.docKillRing.length < 2 ∧ s.killRing.length < 2 then some s
    else if !s.options.multiline ∧ start.line ≠ stop.line then some s
    else do
      let s ← { s.pushUndo with cursor := start }.eraseRange start stop
      if s.docKillRing ≠ [] then
        let next := (prior + 1) % s.docKillRing.length
        let entry ← s.docKillRing[next]?
        let (document, t) := s.materializeKill entry
        let t ← t.insertSegments document
        some (t.yanked (some next) start)
      else
        let s := { s with killRing := rotateKill s.killRing }
        match s.killRing.getLast? with
        | none => some s
        | some text => do
            let t ← s.insertText lib text false
            some (t.yanked t.lastYankRingIndex start)
  | _, _, _ => some s

/-- `undo`. -/
def undoOnce (s : TextBuffer) : TextBuffer := let s := { s with error := none }
  match s.undo with
  | [] => s
  | popped :: rest =>
    { s with
      document := popped.document
      cursor := popped.cursor
      pastes := popped.pastes
      pasteCounter := popped.pasteCounter
      undo := rest
      lastYankRingIndex := none
      lastYankRange := none
      lastAction := .none }.clampCursor

def clearUndo (s : TextBuffer) : TextBuffer :=
  { s with undo := [], lastYankRingIndex := none, lastYankRange := none, lastAction := .none }

/-! ## Motions -/

def setCursor (s : TextBuffer) (cursor : BufferCursor) : TextBuffer :=
  { { s with error := none, cursor := cursor }.clampCursor with
    lastYankRingIndex := none
    lastYankRange := none
    lastAction := .none }

def moveLeft (s : TextBuffer) : Option TextBuffer := let s := s.ready
  if 0 < s.cursor.column then
    some { s with cursor := { s.cursor with column := s.cursor.column - 1 } }.moved
  else if 0 < s.cursor.line ∧ s.options.multiline then do
    let previous ← s.document[s.cursor.line - 1]?
    some { s with cursor := ⟨s.cursor.line - 1, previous.length⟩ }.moved
  else some s.moved

def moveRight (s : TextBuffer) : Option TextBuffer := do
  let s := s.ready
  let line ← s.document[s.cursor.line]?
  if s.cursor.column < line.length then
    some { s with cursor := { s.cursor with column := s.cursor.column + 1 } }.moved
  else if s.cursor.line + 1 < s.document.length ∧ s.options.multiline then
    some { s with cursor := ⟨s.cursor.line + 1, 0⟩ }.moved
  else some s.moved

def moveUp (s : TextBuffer) : Option TextBuffer := if !s.options.multiline then some s
  else
    let s := s.ready
    if 0 < s.cursor.line then do
      let previous ← s.document[s.cursor.line - 1]?
      some { s with cursor := ⟨s.cursor.line - 1, min s.cursor.column previous.length⟩ }.moved
    else some s.moved

def moveDown (s : TextBuffer) : Option TextBuffer := if !s.options.multiline then some s
  else
    let s := s.ready
    if s.cursor.line + 1 < s.document.length then do
      let next ← s.document[s.cursor.line + 1]?
      some { s with cursor := ⟨s.cursor.line + 1, min s.cursor.column next.length⟩ }.moved
    else some s.moved

def moveToLineStart (s : TextBuffer) : TextBuffer := { s with cursor := { s.cursor with column := 0 } }.moved

def moveToLineEnd (s : TextBuffer) : Option TextBuffer := do
  let s := s.clampCursor
  let line ← s.document[s.cursor.line]?
  some { s with cursor := { s.cursor with column := line.length } }.moved

def moveToStart (s : TextBuffer) : TextBuffer := { s with cursor := ⟨0, 0⟩ }.moved

def moveToEnd (s : TextBuffer) : TextBuffer :=
  { s with cursor := ⟨s.document.length - 1, (s.document.getLast?.map List.length).getD 0⟩ }.moved

/-- The first column from `start` on with a given text. -/
def findColumn (line : BufferLine) (target : Bytes) (start : Nat) : Option Nat :=
  ((line.drop start).findIdx? fun segment => segment.text == target).map (· + start)

/-- The last column before `stop` with a given text. -/
def findColumnBefore (line : BufferLine) (target : Bytes) (stop : Nat) : Option Nat :=
  (List.range stop).reverse.find? fun column => (line)[column]?.any fun segment => segment.text == target

def jumpTo (s : TextBuffer) (target : Bytes) (forward : Bool) : TextBuffer := let s := s.clampCursor
  let found := if forward then
      let count := if s.options.multiline then s.document.length - s.cursor.line else 1
      (List.range' s.cursor.line count).findSome? fun line =>
        let start := if line = s.cursor.line then s.cursor.column + 1 else 0
        (findColumn (s.document.getD line []) target start).map fun column => BufferCursor.mk line column
    else
      let lines := if s.options.multiline then (List.range (s.cursor.line + 1)).reverse
        else [s.cursor.line]
      lines.findSome? fun line =>
        let segments := s.document.getD line []
        let stop := if line = s.cursor.line then s.cursor.column else segments.length
        (findColumnBefore segments target stop).map fun column => BufferCursor.mk line column
  { s with cursor := found.getD s.cursor }.moved

def applyCompletionEdit (lib : Segmenter) (s : TextBuffer) (lineIndex startSegment afterBegin : Nat)
    (middle resultStart : Bytes) : Option TextBuffer :=
  if s.document.length ≤ lineIndex then some s
  else do
    let line ← s.document[lineIndex]?
    let before ← slice? line 0 startSegment
    let inserted ← (segmentLines lib s.options.multiline middle).head?
    let after ← slice? line afterBegin line.length
    let document ← setAt? s.document lineIndex (before ++ inserted ++ after)
    let shown ← (segmentLines lib s.options.multiline resultStart).head?
    some { { s with document := document, cursor := ⟨lineIndex, shown.length⟩ }.clampCursor with
      lastYankRingIndex := none
      lastYankRange := none
      lastAction := .none }

end TextBuffer

/-! ## Runs -/

/-- The operations of a buffer. -/
inductive BufferOp where
  | setCursor (cursor : BufferCursor)
  | setText (text : Bytes) (clearUndoStack : Bool)
  | insertCharacter (grapheme : Bytes)
  | insertText (text : Bytes) (recordUndo : Bool)
  | insertPaste (text : Bytes)
  | insertNewline
  | backspace
  | forwardDelete
  | deleteWordBackward
  | deleteWordForward
  | killToLineStart
  | killToLineEnd
  | yank
  | yankPop
  | undo
  | pushUndo
  | clearUndo
  | moveLeft
  | moveRight
  | moveUp
  | moveDown
  | moveWordBackward
  | moveWordForward
  | moveToLineStart
  | moveToLineEnd
  | moveToStart
  | moveToEnd
  | jumpTo (target : Bytes) (forward : Bool)
  | eraseRange (start stop : BufferCursor)
  | insertSegments (inserted : BufferDocument)
  | applyCompletionEdit (lineIndex startSegment afterBegin : Nat) (middle resultStart : Bytes)
  deriving DecidableEq

def BufferOp.apply (lib : Segmenter) (s : TextBuffer) : BufferOp → Option TextBuffer
  | .setCursor cursor => some (s.setCursor cursor)
  | .setText text clear => s.setText lib text clear
  | .insertCharacter grapheme => s.insertCharacter lib grapheme
  | .insertText text recordUndo => s.insertText lib text recordUndo
  | .insertPaste text => s.insertPaste lib text
  | .insertNewline => s.insertNewline
  | .backspace => s.backspace
  | .forwardDelete => s.forwardDelete
  | .deleteWordBackward => s.deleteWordBackward lib
  | .deleteWordForward => s.deleteWordForward lib
  | .killToLineStart => s.killToLineStart
  | .killToLineEnd => s.killToLineEnd
  | .yank => s.yank lib
  | .yankPop => s.yankPop lib
  | .undo => some s.undoOnce
  | .pushUndo => some s.pushUndo
  | .clearUndo => some s.clearUndo
  | .moveLeft => s.moveLeft
  | .moveRight => s.moveRight
  | .moveUp => s.moveUp
  | .moveDown => s.moveDown
  | .moveWordBackward => s.moveWordBackward lib
  | .moveWordForward => s.moveWordForward lib
  | .moveToLineStart => some s.moveToLineStart
  | .moveToLineEnd => s.moveToLineEnd
  | .moveToStart => some s.moveToStart
  | .moveToEnd => some s.moveToEnd
  | .jumpTo target forward => some (s.jumpTo target forward)
  | .eraseRange start stop => s.eraseRange start stop
  | .insertSegments inserted => s.insertSegments inserted
  | .applyCompletionEdit line start after middle result =>
    s.applyCompletionEdit lib line start after middle result

def TextBuffer.run (lib : Segmenter) (s : TextBuffer) (ops : List BufferOp) : Option TextBuffer :=
  ops.foldlM (BufferOp.apply lib) s

end CodingHarness.Tui
