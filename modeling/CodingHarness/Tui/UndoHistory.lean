import CodingHarness.Tui.TextBuffer

/-!
# Undoing edits

Every operation that changes the document first pushes a snapshot of it, with two exceptions that are part
of the design: a grapheme that continues a typed word belongs to the snapshot of the word's start, and four
operations leave the snapshot to their caller. `Recorded` says what the other operations do to the stack.
`undo_retraces` follows the stack through a run: as many undos as there were snapshots lead back to the
state at the start, when no unrecorded edit comes before the first snapshot.
-/

namespace CodingHarness.Tui

open Library Support
open List (foldlM_cons mem_cons_of_mem mem_cons_self)
open Option (bind_eq_bind bind_eq_some_iff)

namespace TextBuffer

/-! ## What the helpers leave alone -/

/-- The two states differ at most in what a snapshot holds, and the document keeps a line. -/
structure Frame (s t : TextBuffer) : Prop where
  rest : ∃ document cursor pastes pasteCounter,
    t = { s with document := document, cursor := cursor, pastes := pastes, pasteCounter := pasteCounter }
  nonempty : s.document ≠ [] → t.document ≠ []

namespace Frame

variable {s t u : TextBuffer}

theorem refl (s : TextBuffer) : Frame s s := ⟨⟨_, _, _, _, rfl⟩, id⟩

theorem trans (h : Frame s t) (h' : Frame t u) : Frame s u := by
  refine ⟨?_, fun hs => h'.nonempty (h.nonempty hs)⟩
  obtain ⟨document, cursor, pastes, counter, rfl⟩ := h.rest
  obtain ⟨document', cursor', pastes', counter', rfl⟩ := h'.rest
  exact ⟨document', cursor', pastes', counter', rfl⟩

theorem undo_eq (h : Frame s t) : t.undo = s.undo := by
  obtain ⟨document, cursor, pastes, counter, rfl⟩ := h.rest
  rfl

theorem of_length {document : BufferDocument} {cursor : BufferCursor} (h : s.document.length ≤ document.length) :
    Frame s { s with document := document, cursor := cursor } := by
  refine ⟨⟨document, cursor, _, _, rfl⟩, fun hs hnil => hs ?_⟩
  have hnil' : document = [] := hnil
  rw [hnil', List.length_nil, Nat.le_zero] at h
  exact List.length_eq_zero_iff.1 h

end Frame

theorem clampCursor_nonempty (s : TextBuffer) : s.clampCursor.document ≠ [] := by
  unfold clampCursor
  by_cases h : s.document = [] <;> simp [h]

theorem frame_clampCursor (s : TextBuffer) : Frame s s.clampCursor :=
  ⟨⟨_, _, s.pastes, s.pasteCounter, rfl⟩, fun _ => s.clampCursor_nonempty⟩

variable {s t : TextBuffer}

theorem frame_forgetPaste {id : Nat} (h : s.forgetPaste id = some t) : Frame s t := by
  simp only [forgetPaste, bind_eq_bind, bind_eq_some_iff] at h
  obtain ⟨document, hdoc, heq⟩ := h
  cases heq
  refine ⟨⟨_, s.cursor, _, _, rfl⟩, fun hs hnil => hs ?_⟩
  have hlen := length_of_mapM hdoc
  rw [show document = [] from hnil] at hlen
  exact List.length_eq_zero_iff.1 hlen.symm

theorem frame_forgetSegment {segment : BufferSegment} (h : s.forgetSegment segment = some t) : Frame s t := by
  unfold forgetSegment at h
  split at h
  · cases h
    exact .refl _
  · exact frame_forgetPaste h

theorem frame_forgetColumns {line : Nat} {columns : List Nat} (h : columns.foldlM (fun s column => do
      let segments ← s.document[line]?
      let segment ← segments[column]?
      s.forgetSegment segment) s = some t) : Frame s t := by
  induction columns generalizing s with
  | nil =>
    cases h
    exact .refl _
  | cons column columns ih =>
    rw [foldlM_cons] at h
    simp only [bind_eq_bind, bind_eq_some_iff] at h
    obtain ⟨next, ⟨segments, -, segment, -, hstep⟩, hrest⟩ := h
    exact (frame_forgetSegment hstep).trans (ih hrest)

theorem frame_forgetSpan {line start stop : Nat} (h : s.forgetSpan line start stop = some t) : Frame s t :=
  frame_forgetColumns h

theorem frame_forgetLines {lines : List Nat} (h : s.forgetLines lines = some t) : Frame s t := by
  induction lines generalizing s with
  | nil =>
    cases h
    exact .refl _
  | cons line lines ih =>
    simp only [forgetLines, bind_eq_bind, bind_eq_some_iff] at h
    obtain ⟨segments, -, next, hspan, hrest⟩ := h
    exact (frame_forgetSpan hspan).trans (ih hrest)

variable {start stop : BufferCursor}

theorem frame_eraseOrdered (h : s.eraseOrdered start stop = some t) : Frame s t := by
  unfold eraseOrdered at h
  split at h
  · cases h
    exact .refl _
  split at h
  · simp only [bind_eq_bind, bind_eq_some_iff] at h
    obtain ⟨line, -, forgotten, hspan, line', -, kept, -, document, hset, heq⟩ := h
    cases heq
    have herased : Frame forgotten { forgotten with document := document, cursor := start } :=
      .of_length (length_of_setAt? hset).2.ge
    exact (frame_forgetSpan hspan).trans (herased.trans (frame_clampCursor _))
  simp only [bind_eq_bind, bind_eq_some_iff] at h
  obtain ⟨first, -, second, hspan, first', -, head, -, document, hset, third, hlines, last, -, fourth,
    hspan', last', -, tail, -, first'', -, joined, -, erased, -, heq⟩ := h
  cases heq
  have hhead : Frame second { second with document := document } := .of_length (length_of_setAt? hset).2.ge
  have hprev : Frame s fourth := (frame_forgetSpan hspan).trans (hhead.trans ((frame_forgetLines hlines).trans
      (frame_forgetSpan hspan')))
  obtain ⟨document', cursor', pastes', counter', rfl⟩ := hprev.rest
  exact ⟨⟨_, _, _, _, rfl⟩, fun _ => clampCursor_nonempty _⟩

theorem frame_eraseRange (h : s.eraseRange start stop = some t) : Frame s t := by
  unfold eraseRange at h
  split at h
  · exact frame_eraseOrdered h
  · exact frame_eraseOrdered h

theorem frame_insertSegments {inserted : BufferDocument} (h : s.insertSegments inserted = some t) : Frame s t := by
  cases inserted with
  | nil =>
    cases h
    exact .refl _
  | cons first more =>
    simp only [insertSegments, bind_eq_bind, bind_eq_some_iff] at h
    obtain ⟨line, -, after, -, before, -, h⟩ := h
    refine (frame_clampCursor s).trans ?_
    split at h
    · obtain ⟨document, hset, heq⟩ := Option.bind_eq_some_iff.1 h
      cases heq
      exact .of_length (length_of_setAt? hset).2.ge
    simp only [bind_eq_some_iff] at h
    obtain ⟨opened, hopen, document, hins, last, -, document', hset, heq⟩ := h
    cases heq
    refine .of_length ?_
    rw [(length_of_setAt? hset).2, (length_of_insertAt? hins).2, (length_of_setAt? hopen).2]
    omega

theorem frame_insertUnits {units : List Bytes} (h : s.insertUnits units = some t) : Frame s t := by
  simp only [insertUnits, bind_eq_bind, bind_eq_some_iff] at h
  obtain ⟨line, -, inserted, -, document, hset, heq⟩ := h
  cases heq
  exact .of_length (length_of_setAt? hset).2.ge

theorem frame_joinWithPrevious (h : s.joinWithPrevious = some t) (hline : 0 < s.cursor.line) : Frame s t := by
  simp only [joinWithPrevious, bind_eq_bind, bind_eq_some_iff] at h
  obtain ⟨current, -, previous, -, joined, hset, document, herase, heq⟩ := h
  cases heq
  refine ⟨⟨document, _, _, _, rfl⟩, fun _ hnil => ?_⟩
  obtain ⟨-, hbound, hlen⟩ := length_of_eraseSlice? herase
  rw [show document = [] from hnil, List.length_nil] at hlen
  omega

theorem frame_joinWithNext (h : s.joinWithNext = some t) : Frame s t := by
  simp only [joinWithNext, bind_eq_bind, bind_eq_some_iff] at h
  obtain ⟨current, -, next, -, joined, -, document, herase, heq⟩ := h
  cases heq
  refine ⟨⟨document, _, _, _, rfl⟩, fun _ hnil => ?_⟩
  obtain ⟨-, hbound, hlen⟩ := length_of_eraseSlice? herase
  rw [show document = [] from hnil, List.length_nil] at hlen
  omega

theorem frame_deleteSegment {column : Nat} (h : s.deleteSegment column = some t) : Frame s t := by
  simp only [deleteSegment, bind_eq_bind, bind_eq_some_iff] at h
  obtain ⟨line, -, segment, -, next, hforget, line', -, kept, -, document, hset, heq⟩ := h
  cases heq
  exact (frame_forgetSegment hforget).trans (.of_length (length_of_setAt? hset).2.ge)

theorem frame_removeUntil {target : Nat} {forward : Bool} {removed : BufferLine}
    (h : s.removeUntil target forward = some (removed, t)) : Frame s t := by
  simp only [removeUntil, bind_eq_bind, bind_eq_some_iff] at h
  obtain ⟨line, -, slice, -, kept, -, heq⟩ := h
  obtain ⟨-, rfl⟩ := Prod.mk.inj (Option.some.inj heq)
  exact .of_length List.length_set.ge

theorem frame_killRange {text : Bytes}
    {deleted : BufferDocument} (h : s.killRange start stop = some (text, deleted, t)) : Frame s t := by
  unfold killRange at h
  split at h
  · obtain ⟨⟨removed, next⟩, hremove, heq⟩ := Option.bind_eq_some_iff.1 h
    obtain ⟨-, -, rfl⟩ := heq
    exact frame_removeUntil hremove
  obtain ⟨next, herase, heq⟩ := Option.bind_eq_some_iff.1 h
  obtain ⟨-, -, rfl⟩ := heq
  exact frame_eraseRange herase

theorem frame_materializeSegment (entry : KillEntry) (remapped : List (Nat × Nat)) (s : TextBuffer)
    (segment : BufferSegment) : Frame s (materializeSegment entry remapped s segment).2.2 := by
  unfold materializeSegment
  split
  · exact .refl _
  split
  · exact .refl _
  split
  · exact ⟨⟨s.document, s.cursor, s.pastes, _, rfl⟩, id⟩
  · exact ⟨⟨s.document, s.cursor, _, _, rfl⟩, id⟩

theorem frame_materializeLine (entry : KillEntry) (remapped : List (Nat × Nat)) (s : TextBuffer)
    (line : BufferLine) : Frame s (materializeLine entry remapped s line).2.2 := by
  induction line generalizing remapped s with
  | nil => exact .refl _
  | cons segment rest ih =>
    exact (frame_materializeSegment entry remapped s segment).trans (ih _ _)

theorem frame_materializeKill (s : TextBuffer) (entry : KillEntry) : Frame s (s.materializeKill entry).2 := by
  have hlines : ∀ (document : BufferDocument) (remapped : List (Nat × Nat)) (s : TextBuffer),
      Frame s (materializeLines entry remapped s document).2 := by
    intro document
    induction document with
    | nil => exact fun _ s => .refl s
    | cons line rest ih =>
      exact fun remapped s => (frame_materializeLine entry remapped s line).trans (ih _ _)
  exact hlines entry.document [] s

/-! ## Snapshots -/

/-- What an undo restores: the document, the pastes and their counter. A document without lines counts as
one empty line, which is what `clamp_cursor` makes of it. -/
def content (s : TextBuffer) : BufferDocument × Pastes × Nat :=
  (if s.document = [] then [[]] else s.document, s.pastes, s.pasteCounter)

@[simp] theorem content_clampCursor (s : TextBuffer) : s.clampCursor.content = s.content := by
  unfold clampCursor content
  by_cases h : s.document = [] <;> simp [h]

end TextBuffer

/-- What an undo restores from a snapshot. -/
def Snapshot.content (snapshot : Snapshot) : BufferDocument × Pastes × Nat :=
  (if snapshot.document = [] then [[]] else snapshot.document, snapshot.pastes, snapshot.pasteCounter)

namespace TextBuffer

/-- An operation either changes nothing that an undo restores, or pushes one snapshot of it. -/
structure Recorded (s t : TextBuffer) : Prop where
  nonempty : s.document ≠ [] → t.document ≠ []
  history : (t.undo = s.undo ∧ t.content = s.content) ∨
    ∃ snapshot, t.undo = snapshot :: s.undo ∧ snapshot.content = s.content

theorem ready_nonempty (s : TextBuffer) : s.ready.document ≠ [] := clampCursor_nonempty _

theorem ready_content (s : TextBuffer) : s.ready.content = s.content := content_clampCursor { s with error := none }

theorem Recorded.of_ready {s pushed t : TextBuffer} (h : Frame pushed t)
    (hundo : pushed.undo = s.ready.createSnapshot :: s.undo)
    (hdoc : pushed.document = s.ready.document) : Recorded s t :=
  ⟨fun _ => h.nonempty (hdoc ▸ s.ready_nonempty), .inr ⟨_, h.undo_eq.trans hundo, s.ready_content⟩⟩

theorem Recorded.congr {s t u : TextBuffer} (h : Recorded s t) (hundo : u.undo = t.undo)
    (hdoc : u.document = t.document) (hcont : u.content = t.content) : Recorded s u :=
  ⟨fun hs => hdoc ▸ h.nonempty hs, by rw [hundo, hcont]; exact h.history⟩

theorem Recorded.ready (s : TextBuffer) : Recorded s s.ready :=
  ⟨fun _ => s.ready_nonempty, .inl ⟨rfl, s.ready_content⟩⟩

theorem Recorded.refl (s : TextBuffer) : Recorded s s := ⟨id, .inl ⟨rfl, rfl⟩⟩

/-- The operations that leave the snapshot to their caller, and the grapheme that continues a word. -/
def Unrecorded (lib : Segmenter) (s : TextBuffer) : BufferOp → Prop
  | .eraseRange _ _ => True
  | .insertSegments _ => True
  | .applyCompletionEdit _ _ _ _ _ => True
  | .insertText _ recordUndo => recordUndo = false
  | .insertCharacter grapheme =>
    s.lastAction = .typeWord ∧ (lib.splitGraphemes grapheme).any isWhitespaceGrapheme = false
  | _ => False

/-- The operations that an undo can follow back. -/
def Retraceable : BufferOp → Prop
  | .undo => False
  | .setText _ _ => False
  | .clearUndo => False
  | _ => True

section Operations

variable {lib : Segmenter} {s t : TextBuffer}

theorem recorded_insertCharacter {grapheme : Bytes} (h : s.insertCharacter lib grapheme = some t)
    (hrecorded : ¬ s.Unrecorded lib (.insertCharacter grapheme)) : Recorded s t := by
  simp only [insertCharacter] at h
  split at h
  · cases h
    exact (Recorded.refl s).congr rfl rfl rfl
  split at h
  · exact .of_ready (frame_insertUnits h) rfl rfl
  next hcont =>
  rw [not_or, not_not, Bool.not_eq_true] at hcont
  exact absurd ⟨hcont.2, hcont.1⟩ hrecorded

variable {text : Bytes}

theorem recorded_insertText (h : s.insertText lib text true = some t) : Recorded s t := by
  simp only [insertText] at h
  split at h
  · cases h
    exact (Recorded.refl s).congr rfl rfl rfl
  · have hframe := frame_insertSegments h
    exact ⟨hframe.nonempty, .inr ⟨s.createSnapshot, hframe.undo_eq, rfl⟩⟩

theorem recorded_insertPaste (h : s.insertPaste lib text = some t) : Recorded s t := by
  simp only [insertPaste, bind_eq_bind, bind_eq_some_iff] at h
  obtain ⟨line, -, h⟩ := h
  split at h
  · cases h
    exact .ready s
  split at h
  · exact .of_ready (frame_insertSegments h) rfl rfl
  · exact .of_ready (frame_insertSegments h) rfl rfl

theorem recorded_insertNewline (h : s.insertNewline = some t) : Recorded s t := by
  simp only [insertNewline] at h
  split at h
  · cases h
    exact (Recorded.refl s).congr rfl rfl rfl
  simp only [bind_eq_bind, bind_eq_some_iff] at h
  obtain ⟨current, -, tail, -, kept, -, document, hset, document', hins, heq⟩ := h
  cases heq
  have hframe : Frame s.ready.pushUndo { s.ready.pushUndo with
      document := document', cursor := ⟨s.ready.cursor.line + 1, 0⟩ } := by
    refine .of_length ?_
    rw [(length_of_insertAt? hins).2, (length_of_setAt? hset).2]
    exact Nat.le_add_right _ _
  exact (Recorded.of_ready hframe rfl rfl).congr rfl rfl rfl

theorem recorded_backspace (h : s.backspace = some t) : Recorded s t := by
  simp only [backspace] at h
  split at h
  · obtain ⟨deleted, hdelete, heq⟩ := Option.bind_eq_some_iff.1 h
    cases heq
    exact (Recorded.of_ready (frame_deleteSegment hdelete) rfl rfl).congr rfl rfl rfl
  split at h
  · next hline => exact .of_ready (frame_joinWithPrevious h hline.1) rfl rfl
  · cases h
    exact (Recorded.ready s).congr rfl rfl rfl

theorem recorded_forwardDelete (h : s.forwardDelete = some t) : Recorded s t := by
  simp only [forwardDelete, bind_eq_bind, bind_eq_some_iff] at h
  obtain ⟨line, -, h⟩ := h
  split at h
  · exact .of_ready (frame_deleteSegment h) rfl rfl
  split at h
  · exact .of_ready (frame_joinWithNext h) rfl rfl
  · cases h
    exact (Recorded.ready s).congr rfl rfl rfl

/-- A motion changes at most the cursor and the flags. -/
def Motion (s t : TextBuffer) : Prop := ∃ cursor index action error,
    t = { s with cursor := cursor, lastYankRingIndex := index, lastAction := action, error := error }

theorem Motion.document_eq (h : Motion s t) : t.document = s.document := by
  obtain ⟨cursor, index, action, error, rfl⟩ := h
  rfl

/-- A motion from the ready buffer keeps what an undo restores. -/
theorem Motion.kept (h : Motion s.ready t) :
    t.undo = s.undo ∧ t.document = s.ready.document ∧ t.content = s.content := by
  obtain ⟨cursor, index, action, error, rfl⟩ := h
  exact ⟨rfl, rfl, s.ready_content⟩

theorem moveWordBackward_motion (h : s.moveWordBackward lib = some t) :
    Motion s.ready t ∧ (t.lastAction = .none ∨ t.lastAction = s.lastAction) := by
  simp only [moveWordBackward] at h
  split at h
  · obtain ⟨previous, -, heq⟩ := Option.bind_eq_some_iff.1 h
    cases heq
    exact ⟨⟨_, _, _, _, rfl⟩, .inl rfl⟩
  obtain ⟨line, -, h⟩ := Option.bind_eq_some_iff.1 h
  split at h
  · cases h
    exact ⟨⟨_, _, _, _, rfl⟩, .inr rfl⟩
  · cases h
    exact ⟨⟨_, _, _, _, rfl⟩, .inl rfl⟩

theorem moveWordForward_motion (h : s.moveWordForward lib = some t) :
    Motion s.ready t ∧ (t.lastAction = .none ∨ t.lastAction = s.lastAction) := by
  simp only [moveWordForward, bind_eq_bind, bind_eq_some_iff] at h
  obtain ⟨line, -, h⟩ := h
  split at h
  · cases h
    exact ⟨⟨_, _, _, _, rfl⟩, .inl rfl⟩
  split at h
  · cases h
    exact ⟨⟨_, _, _, _, rfl⟩, .inr rfl⟩
  · cases h
    exact ⟨⟨_, _, _, _, rfl⟩, .inl rfl⟩

theorem Recorded.of_motion (h : Motion s.ready t) : Recorded s t :=
  ⟨fun _ => h.document_eq ▸ s.ready_nonempty, .inl ⟨h.kept.1, h.kept.2.2⟩⟩

theorem Recorded.of_killRange {moved next : TextBuffer} {cursor start stop : BufferCursor}
    {deleted : BufferDocument} (hmotion : Recorded s moved) (hundo : moved.undo = s.undo)
    (hcont : moved.content = s.content)
    (hkill : { moved with cursor := cursor }.pushUndo.killRange start stop = some (text, deleted, next)) :
    Recorded s next := by
  have hframe := frame_killRange hkill
  refine ⟨fun hs => hframe.nonempty (hmotion.nonempty hs),
    .inr ⟨createSnapshot { moved with cursor := cursor }, hframe.undo_eq.trans ?_, hcont⟩⟩
  rw [← hundo]
  rfl

theorem recorded_deleteWordBackward (h : s.deleteWordBackward lib = some t) : Recorded s t := by
  simp only [deleteWordBackward] at h
  split at h
  · cases h
    exact .ready s
  obtain ⟨moved, hmove, h⟩ := Option.bind_eq_some_iff.1 h
  obtain ⟨hundo, hdoc, hcont⟩ := (moveWordBackward_motion hmove).1.kept
  rw [ready_content] at hcont
  have hmotion : Recorded s moved := ⟨fun _ => hdoc ▸ ready_nonempty _, .inl ⟨hundo, hcont⟩⟩
  split at h
  · cases h
    exact hmotion.congr rfl rfl rfl
  split at h
  · cases h
    exact hmotion
  obtain ⟨⟨text, deleted, next⟩, hkill, h⟩ := Option.bind_eq_some_iff.1 h
  have hnext : Recorded s next := .of_killRange hmotion hundo hcont hkill
  split at h <;> obtain rfl := Option.some.inj h <;> exact hnext.congr rfl rfl rfl

theorem recorded_deleteWordForward (h : s.deleteWordForward lib = some t) : Recorded s t := by
  simp only [deleteWordForward, bind_eq_bind, bind_eq_some_iff] at h
  obtain ⟨line, -, h⟩ := h
  split at h
  · cases h
    exact .ready s
  obtain ⟨moved, hmove, h⟩ := Option.bind_eq_some_iff.1 h
  obtain ⟨hundo, hdoc, hcont⟩ := (moveWordForward_motion hmove).1.kept
  rw [ready_content] at hcont
  have hmotion : Recorded s moved := ⟨fun _ => hdoc ▸ ready_nonempty _, .inl ⟨hundo, hcont⟩⟩
  split at h
  · cases h
    exact hmotion.congr rfl rfl rfl
  split at h
  · cases h
    exact hmotion
  obtain ⟨⟨text, deleted, next⟩, hkill, h⟩ := Option.bind_eq_some_iff.1 h
  have hnext : Recorded s next := .of_killRange hmotion hundo hcont hkill
  split at h
  · obtain ⟨document, -, heq⟩ := Option.bind_eq_some_iff.1 h
    cases heq
    exact hnext.congr rfl rfl rfl
  · cases h
    exact hnext.congr rfl rfl rfl

theorem recorded_killToLineStart (h : s.killToLineStart = some t) : Recorded s t := by
  simp only [killToLineStart] at h
  split at h
  · obtain ⟨⟨removed, next⟩, hremove, heq⟩ := Option.bind_eq_some_iff.1 h
    cases heq
    exact (Recorded.of_ready (frame_removeUntil hremove) rfl rfl).congr rfl rfl rfl
  split at h
  · next hline => exact .of_ready (frame_joinWithPrevious h hline.1) rfl rfl
  · cases h
    exact .ready s

theorem recorded_killToLineEnd (h : s.killToLineEnd = some t) : Recorded s t := by
  simp only [killToLineEnd, bind_eq_bind, bind_eq_some_iff] at h
  obtain ⟨line, -, h⟩ := h
  split at h
  · obtain ⟨⟨removed, next⟩, hremove, heq⟩ := Option.bind_eq_some_iff.1 h
    cases heq
    exact (Recorded.of_ready (frame_removeUntil hremove) rfl rfl).congr rfl rfl rfl
  split at h
  · exact .of_ready (frame_joinWithNext h) rfl rfl
  · cases h
    exact .ready s

theorem insertText_undo (h : s.insertText lib text false = some t) :
    t.undo = s.undo ∧ (s.document ≠ [] → t.document ≠ []) := by
  simp only [insertText] at h
  split at h
  · cases h
    exact ⟨rfl, id⟩
  · have hframe := frame_insertSegments h
    exact ⟨hframe.undo_eq, hframe.nonempty⟩

theorem recorded_yank (h : s.yank lib = some t) : Recorded s t := by
  simp only [yank] at h
  split at h
  · next entry _ _ =>
    obtain ⟨next, hins, heq⟩ := Option.bind_eq_some_iff.1 h
    cases heq
    have hframe := (frame_materializeKill _ entry).trans (frame_insertSegments hins)
    exact ⟨hframe.nonempty, .inr ⟨s.createSnapshot, hframe.undo_eq, rfl⟩⟩
  · obtain ⟨next, hins, heq⟩ := Option.bind_eq_some_iff.1 h
    cases heq
    obtain ⟨hundo, hnonempty⟩ := insertText_undo hins
    exact ⟨hnonempty, .inr ⟨s.createSnapshot, hundo, rfl⟩⟩
  · cases h
    exact (Recorded.refl s).congr rfl rfl rfl

theorem recorded_yankPop (h : s.yankPop lib = some t) : Recorded s t := by
  have hsame : Recorded s { s with error := none } := (Recorded.refl s).congr rfl rfl rfl
  simp only [yankPop] at h
  split at h
  · split at h
    · cases h
      exact hsame
    · split at h
      · cases h
        exact hsame
      · simp only [bind_eq_bind, bind_eq_some_iff] at h
        obtain ⟨erased, herase, h⟩ := h
        have hframe := frame_eraseRange herase
        have hundo : erased.undo = s.createSnapshot :: s.undo := hframe.undo_eq
        have hnonempty : s.document ≠ [] → erased.document ≠ [] := hframe.nonempty
        split at h
        · simp only [bind_eq_some_iff] at h
          obtain ⟨entry, -, next, hins, heq⟩ := h
          cases heq
          have hyank := (frame_materializeKill _ entry).trans (frame_insertSegments hins)
          exact ⟨fun hs => hyank.nonempty (hnonempty hs), .inr ⟨s.createSnapshot, hyank.undo_eq.trans hundo, rfl⟩⟩
        split at h
        · cases h
          exact ⟨hnonempty, .inr ⟨s.createSnapshot, hundo, rfl⟩⟩
        obtain ⟨next, hins, heq⟩ := Option.bind_eq_some_iff.1 h
        cases heq
        obtain ⟨hundo', hnonempty'⟩ := insertText_undo hins
        exact ⟨fun hs => hnonempty' (hnonempty hs), .inr ⟨s.createSnapshot, hundo'.trans hundo, rfl⟩⟩
  · cases h
    exact hsame

variable {op : BufferOp}

section

variable (h : op.apply lib s = some t)
include h

/-- A motion by characters or lines changes the cursor alone, and nothing where it stays on its only line. -/
theorem motion_of_apply
    (hop : op = .moveLeft ∨ op = .moveRight ∨ op = .moveUp ∨ op = .moveDown ∨ op = .moveToLineEnd) :
    t = s ∨ Motion s.ready t := by
  have hmoved : ∀ cursor, { s.ready with cursor := cursor }.moved = t → t = s ∨ Motion s.ready t := by
    rintro cursor rfl
    exact .inr ⟨cursor, none, .none, none, rfl⟩
  rcases hop with rfl | rfl | rfl | rfl | rfl
  · simp only [BufferOp.apply, moveLeft] at h
    split at h
    · exact hmoved _ (Option.some.inj h)
    split at h
    · obtain ⟨previous, -, heq⟩ := Option.bind_eq_some_iff.1 h
      exact hmoved _ (Option.some.inj heq)
    · exact hmoved _ (Option.some.inj h)
  · simp only [BufferOp.apply, moveRight, bind_eq_bind, bind_eq_some_iff] at h
    obtain ⟨line, -, h⟩ := h
    split at h
    · exact hmoved _ (Option.some.inj h)
    · split at h <;> exact hmoved _ (Option.some.inj h)
  · simp only [BufferOp.apply, moveUp] at h
    split at h
    · exact .inl (Option.some.inj h).symm
    split at h
    · obtain ⟨previous, -, heq⟩ := Option.bind_eq_some_iff.1 h
      exact hmoved _ (Option.some.inj heq)
    · exact hmoved _ (Option.some.inj h)
  · simp only [BufferOp.apply, moveDown] at h
    split at h
    · exact .inl (Option.some.inj h).symm
    split at h
    · obtain ⟨next, -, heq⟩ := Option.bind_eq_some_iff.1 h
      exact hmoved _ (Option.some.inj heq)
    · exact hmoved _ (Option.some.inj h)
  · simp only [BufferOp.apply, moveToLineEnd, bind_eq_bind, bind_eq_some_iff] at h
    obtain ⟨line, -, heq⟩ := h
    exact .inr ⟨_, _, _, _, (Option.some.inj heq).symm⟩

theorem recorded_motion
    (hop : op = .moveLeft ∨ op = .moveRight ∨ op = .moveUp ∨ op = .moveDown ∨ op = .moveToLineEnd) :
    Recorded s t := by
  rcases motion_of_apply h hop with rfl | hmotion
  · exact .refl t
  · exact .of_motion hmotion

theorem apply_recorded (hop : Retraceable op)
    (hrecorded : ¬ s.Unrecorded lib op) : Recorded s t := by
  have hrefl := Recorded.refl s
  have hready := Recorded.ready s
  cases op with
  | setCursor cursor =>
    cases h
    refine ⟨fun _ => clampCursor_nonempty _, .inl ⟨rfl, ?_⟩⟩
    exact content_clampCursor { s with error := none, cursor := cursor }
  | setText | undo | clearUndo => exact hop.elim
  | insertCharacter grapheme => exact recorded_insertCharacter h hrecorded
  | insertText text recordUndo =>
    cases recordUndo with
    | true => exact recorded_insertText h
    | false => exact absurd rfl hrecorded
  | insertPaste text => exact recorded_insertPaste h
  | insertNewline => exact recorded_insertNewline h
  | backspace => exact recorded_backspace h
  | forwardDelete => exact recorded_forwardDelete h
  | deleteWordBackward => exact recorded_deleteWordBackward h
  | deleteWordForward => exact recorded_deleteWordForward h
  | killToLineStart => exact recorded_killToLineStart h
  | killToLineEnd => exact recorded_killToLineEnd h
  | yank => exact recorded_yank h
  | yankPop => exact recorded_yankPop h
  | pushUndo =>
    cases h
    exact ⟨id, .inr ⟨s.createSnapshot, rfl, rfl⟩⟩
  | moveLeft | moveRight | moveUp | moveDown | moveToLineEnd => exact recorded_motion h (by simp)
  | moveWordBackward => exact .of_motion (moveWordBackward_motion h).1
  | moveWordForward => exact .of_motion (moveWordForward_motion h).1
  | moveToLineStart | moveToStart | moveToEnd =>
    cases h
    exact hrefl.congr rfl rfl rfl
  | jumpTo target forward =>
    cases h
    exact hready.congr rfl rfl rfl
  | eraseRange start stop | insertSegments inserted | applyCompletionEdit => exact absurd trivial hrecorded

/-- An edit that leaves its record to the caller does not touch the stack. -/
theorem apply_unrecorded (hop : s.Unrecorded lib op) :
    t.undo = s.undo ∧ (s.document ≠ [] → t.document ≠ []) := by
  cases op with
  | eraseRange start stop =>
    have hframe := frame_eraseRange h
    exact ⟨hframe.undo_eq, hframe.nonempty⟩
  | insertSegments inserted =>
    have hframe := frame_insertSegments h
    exact ⟨hframe.undo_eq, hframe.nonempty⟩
  | applyCompletionEdit line start after middle result =>
    simp only [BufferOp.apply, applyCompletionEdit] at h
    split at h
    · cases h
      exact ⟨rfl, id⟩
    simp only [bind_eq_bind, bind_eq_some_iff] at h
    obtain ⟨segments, -, before, -, inserted, -, after, -, document, -, shown, -, heq⟩ := h
    cases heq
    exact ⟨rfl, fun _ => clampCursor_nonempty _⟩
  | insertText text recordUndo =>
    obtain rfl : recordUndo = false := hop
    exact insertText_undo h
  | insertCharacter grapheme =>
    simp only [BufferOp.apply, insertCharacter] at h
    split at h
    · cases h
      exact ⟨rfl, id⟩
    rw [if_neg (by rw [hop.2]; simp [hop.1])] at h
    have hframe := frame_insertUnits h
    exact ⟨hframe.undo_eq, fun _ => hframe.nonempty s.ready_nonempty⟩
  | _ => exact hop.elim

end

end Operations

/-! ## Runs -/

section Runs

variable {lib : Segmenter} {s t : TextBuffer} {ops : List BufferOp}

theorem run_cons {op : BufferOp} (h : run lib s (op :: ops) = some t) :
    ∃ next, op.apply lib s = some next ∧ run lib next ops = some t := by
  exact Option.bind_eq_some_iff.1 h

theorem apply_nonempty {op : BufferOp} (h : op.apply lib s = some t) (hs : s.document ≠ []) : t.document ≠ [] := by
  by_cases hop : Retraceable op
  · by_cases hrecorded : s.Unrecorded lib op
    · exact (apply_unrecorded h hrecorded).2 hs
    · exact (apply_recorded h hop hrecorded).nonempty hs
  cases op with
  | setText text clear =>
    simp only [BufferOp.apply, setText, bind_eq_bind, bind_eq_some_iff] at h
    obtain ⟨last, -, heq⟩ := h
    cases heq
    exact clampCursor_nonempty _
  | undo =>
    cases h
    unfold undoOnce
    dsimp only
    split
    · exact hs
    · exact clampCursor_nonempty _
  | clearUndo =>
    cases h
    exact hs
  | _ => exact absurd trivial hop

theorem run_nonempty (h : run lib s ops = some t) (hs : s.document ≠ []) : t.document ≠ [] := by
  induction ops generalizing s with
  | nil =>
    cases h
    exact hs
  | cons op ops ih =>
    obtain ⟨next, hstep, hrest⟩ := run_cons h
    exact ih hrest (apply_nonempty hstep hs)

theorem run_pushed (h : run lib s ops = some t) (hops : ∀ op ∈ ops, Retraceable op) :
    ∃ pushed, t.undo = pushed ++ s.undo := by
  induction ops generalizing s with
  | nil =>
    cases h
    exact ⟨[], rfl⟩
  | cons op ops ih =>
    obtain ⟨next, hstep, hrest⟩ := run_cons h
    obtain ⟨pushed, hpushed⟩ := ih hrest fun op hmem => hops op (mem_cons_of_mem _ hmem)
    by_cases hrecorded : s.Unrecorded lib op
    · exact ⟨pushed, by rw [hpushed, (apply_unrecorded hstep hrecorded).1]⟩
    rcases (apply_recorded hstep (hops op mem_cons_self) hrecorded).history with
      ⟨hundo, -⟩ | ⟨snapshot, hundo, -⟩
    · exact ⟨pushed, by rw [hpushed, hundo]⟩
    · exact ⟨pushed ++ [snapshot], by rw [hpushed, hundo, List.append_assoc]; rfl⟩

/-- No unrecorded edit comes before the first snapshot of a run. -/
def RecordedFirst (lib : Segmenter) (s : TextBuffer) (ops : List BufferOp) : Prop :=
  ∀ before op after next, ops = before ++ op :: after → run lib s before = some next →
    next.undo.length = s.undo.length → ¬ next.Unrecorded lib op

theorem run_first (h : run lib s ops = some t) (hops : ∀ op ∈ ops, Retraceable op)
    (hfirst : RecordedFirst lib s ops) :
    ∃ pushed, t.undo = pushed ++ s.undo ∧ ((pushed = [] ∧ t.content = s.content) ∨
      ∃ first, pushed.getLast? = some first ∧ first.content = s.content) := by
  induction ops generalizing s with
  | nil =>
    cases h
    exact ⟨[], rfl, .inl ⟨rfl, rfl⟩⟩
  | cons op ops ih =>
    obtain ⟨next, hstep, hrest⟩ := run_cons h
    have hlater : ∀ op ∈ ops, Retraceable op := fun op hmem => hops op (mem_cons_of_mem _ hmem)
    have hrecorded : ¬ s.Unrecorded lib op := hfirst [] op ops s rfl rfl rfl
    rcases (apply_recorded hstep (hops op mem_cons_self) hrecorded).history with
      ⟨hundo, hcont⟩ | ⟨snapshot, hundo, hcont⟩
    · have hnext : RecordedFirst lib next ops := by
        rintro before op' after later rfl hprev hlen
        refine hfirst (op :: before) op' after later rfl ?_ (by rw [hlen, hundo])
        rw [run, foldlM_cons, hstep]
        exact hprev
      obtain ⟨pushed, hpushed, hshown⟩ := ih hrest hlater hnext
      exact ⟨pushed, by rw [hpushed, hundo], by rw [← hcont]; exact hshown⟩
    obtain ⟨pushed, hpushed⟩ := run_pushed hrest hlater
    refine ⟨pushed ++ [snapshot], by rw [hpushed, hundo, List.append_assoc]; rfl, .inr ?_⟩
    exact ⟨snapshot, List.getLast?_concat, hcont⟩

theorem undoOnce_cons {snapshot : Snapshot} {rest : List Snapshot} (h : t.undo = snapshot :: rest) :
    t.undoOnce.undo = rest ∧ t.undoOnce.content = snapshot.content ∧ t.undoOnce.document ≠ [] := by
  simp only [undoOnce, h]
  exact ⟨rfl, content_clampCursor _, clampCursor_nonempty _⟩

theorem iterate_undoOnce {pushed rest : List Snapshot} (h : t.undo = pushed ++ rest) {first : Snapshot}
    (hfirst : pushed.getLast? = some first) :
    (undoOnce^[pushed.length] t).content = first.content ∧ (undoOnce^[pushed.length] t).document ≠ [] := by
  induction pushed generalizing t with
  | nil => cases hfirst
  | cons snapshot pushed ih =>
    obtain ⟨hundo, hcont, hnonempty⟩ := undoOnce_cons h
    cases pushed with
    | nil =>
      cases hfirst
      exact ⟨hcont, hnonempty⟩
    | cons later pushed =>
      exact ih hundo hfirst

/-- The two states show the same document, pastes and counter. -/
def Restores (s t : TextBuffer) : Prop :=
  t.document = s.document ∧ t.pastes = s.pastes ∧ t.pasteCounter = s.pasteCounter

theorem restores_of_content (hs : s.document ≠ []) (ht : t.document ≠ []) (h : t.content = s.content) :
    Restores s t := by
  unfold content at h
  rw [if_neg hs, if_neg ht] at h
  obtain ⟨hdoc, hrest⟩ := Prod.mk.inj h
  obtain ⟨hpastes, hcounter⟩ := Prod.mk.inj hrest
  exact ⟨hdoc, hpastes, hcounter⟩

theorem undos_restore (hs : s.document ≠ []) (h : run lib s ops = some t)
    (hops : ∀ op ∈ ops, Retraceable op) (hfirst : RecordedFirst lib s ops) :
    Restores s (undoOnce^[t.undo.length - s.undo.length] t) := by
  obtain ⟨pushed, hpushed, hshown⟩ := run_first h hops hfirst
  have hcount : t.undo.length - s.undo.length = pushed.length := by
    rw [hpushed, List.length_append]
    omega
  rw [hcount]
  rcases hshown with ⟨rfl, hcont⟩ | ⟨first, hlast, hcont⟩
  · exact restores_of_content hs (run_nonempty h hs) hcont
  · obtain ⟨hrestored, hnonempty⟩ := iterate_undoOnce hpushed hlast
    exact restores_of_content hs hnonempty (hrestored.trans hcont)

/-! ## Typing -/

theorem clampCursor_line (s : TextBuffer) : ∃ line, s.clampCursor.document[s.clampCursor.cursor.line]? = some line ∧
      s.clampCursor.cursor.column ≤ line.length := by
  have hlen : 0 < s.clampCursor.document.length := List.length_pos_iff.2 s.clampCursor_nonempty
  have hline : s.clampCursor.cursor.line < s.clampCursor.document.length := by
    have hmin : s.clampCursor.cursor.line ≤ s.clampCursor.document.length - 1 := Nat.min_le_right _ _
    omega
  refine ⟨s.clampCursor.document[s.clampCursor.cursor.line], List.getElem?_eq_getElem hline, ?_⟩
  have hcol : s.clampCursor.cursor.column ≤
      (s.clampCursor.document.getD s.clampCursor.cursor.line []).length := Nat.min_le_right _ _
  rw [List.getD_eq_getElem?_getD, List.getElem?_eq_getElem hline] at hcol
  exact hcol

theorem exists_insertUnits (units : List Bytes) {line : BufferLine}
    (hline : s.document[s.cursor.line]? = some line) (hcol : s.cursor.column ≤ line.length) :
    ∃ t, s.insertUnits units = some t := by
  have hindex : s.cursor.line < s.document.length := (List.getElem?_eq_some_iff.1 hline).1
  refine Option.isSome_iff_exists.1 ?_
  simp only [insertUnits, hline, insertAt?, if_pos hcol, setAt?, if_pos hindex, bind_eq_bind,
    Option.bind_some, Option.isSome_some]

/-- Typing always succeeds. Typed without white space it leaves the action that makes the next grapheme
continue the word. -/
theorem exists_insertCharacter (lib : Segmenter) (s : TextBuffer) {grapheme : Bytes}
    (hunits : lib.splitGraphemes grapheme ≠ []) :
    ∃ t, s.insertCharacter lib grapheme = some t ∧ t.lastAction = .typeWord := by
  obtain ⟨line, hline, hcol⟩ := clampCursor_line { s with error := none }
  have hready : ∀ u : TextBuffer, u.document = s.ready.document → u.cursor = s.ready.cursor →
      ∃ t, u.insertUnits (lib.splitGraphemes grapheme) = some t ∧ t.lastAction = u.lastAction := by
    intro u hdoc hcursor
    obtain ⟨t, ht⟩ := exists_insertUnits (lib.splitGraphemes grapheme)
      (by rw [hdoc, hcursor]; exact hline) (by rw [hcursor]; exact hcol)
    refine ⟨t, ht, ?_⟩
    obtain ⟨document, cursor, pastes, counter, rfl⟩ := (frame_insertUnits ht).rest
    rfl
  simp only [insertCharacter, if_neg hunits]
  split
  · exact hready _ rfl rfl
  · exact hready _ rfl rfl

variable {graphemes : List Bytes}

theorem run_typed (hact : s.lastAction = .typeWord)
    (hunits : ∀ grapheme ∈ graphemes, lib.splitGraphemes grapheme ≠ [])
    (hword : ∀ grapheme ∈ graphemes, (lib.splitGraphemes grapheme).any isWhitespaceGrapheme = false) :
    ∃ t, run lib s (graphemes.map .insertCharacter) = some t ∧ t.undo = s.undo := by
  induction graphemes generalizing s with
  | nil => exact ⟨s, rfl, rfl⟩
  | cons grapheme graphemes ih =>
    obtain ⟨next, hnext, hnextAction⟩ := exists_insertCharacter lib s (hunits grapheme mem_cons_self)
    obtain ⟨t, ht, hundo⟩ := ih hnextAction (fun grapheme' hmem => hunits grapheme' (mem_cons_of_mem _ hmem))
      (fun grapheme' hmem => hword grapheme' (mem_cons_of_mem _ hmem))
    have hstep : (BufferOp.insertCharacter grapheme).apply lib s = some next := hnext
    refine ⟨t, ?_, hundo.trans ?_⟩
    · rw [List.map_cons, run, foldlM_cons, hstep]
      exact ht
    · exact (apply_unrecorded hstep ⟨hact, hword grapheme mem_cons_self⟩).1

/-- A typed word is removed by one undo. It starts after something other than typing, or with a grapheme of
white space, which belongs to the word after it. -/
theorem undo_typed {grapheme : Bytes} (hs : s.document ≠ [])
    (hfirst : s.lastAction ≠ .typeWord ∨ (lib.splitGraphemes grapheme).any isWhitespaceGrapheme = true)
    (hunits : ∀ typed ∈ grapheme :: graphemes, lib.splitGraphemes typed ≠ [])
    (hword : ∀ typed ∈ graphemes, (lib.splitGraphemes typed).any isWhitespaceGrapheme = false) :
    ∃ t, run lib s ((grapheme :: graphemes).map .insertCharacter) = some t ∧ Restores s t.undoOnce := by
  obtain ⟨next, hnext, hnextAction⟩ := exists_insertCharacter lib s (hunits grapheme mem_cons_self)
  have hstep : (BufferOp.insertCharacter grapheme).apply lib s = some next := hnext
  obtain ⟨t, ht, hundo⟩ := run_typed hnextAction (fun typed hmem => hunits typed (mem_cons_of_mem _ hmem)) hword
  refine ⟨t, ?_, ?_⟩
  · rw [List.map_cons, run, foldlM_cons, hstep]
    exact ht
  have hpushes : next.undo = s.ready.createSnapshot :: s.undo := by
    simp only [insertCharacter, if_neg (hunits grapheme mem_cons_self)] at hnext
    rw [if_pos hfirst.symm] at hnext
    exact (frame_insertUnits hnext).undo_eq
  obtain ⟨-, hcont, hnonempty⟩ := undoOnce_cons (hundo.trans hpushes)
  exact restores_of_content hs hnonempty (hcont.trans s.ready_content)

end Runs

end TextBuffer

/-- Undo retraces editing. From every reachable state, as many undos as a run without undo, `set_text` and
`clear_undo` pushed snapshots restore the state, when no unrecorded edit comes before the first snapshot;
and a typed word is removed by one undo. -/
theorem undo_retraces (lib : Segmenter) (options : TextBufferOptions) (ring : List Bytes)
    {earlier : List BufferOp} {s : TextBuffer}
    (hreached : TextBuffer.run lib { options := options, killRing := ring } earlier = some s) :
    (∀ ops t, (∀ op ∈ ops, TextBuffer.Retraceable op) → TextBuffer.RecordedFirst lib s ops →
      TextBuffer.run lib s ops = some t →
      TextBuffer.Restores s (TextBuffer.undoOnce^[t.undo.length - s.undo.length] t)) ∧
    ∀ grapheme graphemes, (∀ typed ∈ grapheme :: graphemes, lib.splitGraphemes typed ≠ []) →
      (s.lastAction ≠ .typeWord ∨ (lib.splitGraphemes grapheme).any isWhitespaceGrapheme = true) →
      (∀ typed ∈ graphemes, (lib.splitGraphemes typed).any isWhitespaceGrapheme = false) →
      ∃ t, TextBuffer.run lib s ((grapheme :: graphemes).map .insertCharacter) = some t ∧
        TextBuffer.Restores s t.undoOnce := by
  have hs : s.document ≠ [] := TextBuffer.run_nonempty hreached (by simp)
  exact ⟨fun ops t hops hfirst h => TextBuffer.undos_restore hs h hops hfirst,
    fun grapheme graphemes hunits hfirst hword => TextBuffer.undo_typed hs hfirst hunits hword⟩

/-- A line break, a letter and one undo for the letter, then the undo of the break. -/
theorem undo_retraces_newline :
    (∃ t, TextBuffer.run asciiSegmenter {} [.insertNewline, .insertCharacter [0x61]] = some t ∧
      TextBuffer.Restores {} (TextBuffer.undoOnce^[t.undo.length] t)) ∧
    ∃ t, TextBuffer.run asciiSegmenter {} [.insertCharacter [0x61], .insertCharacter [0x62]] = some t ∧
      TextBuffer.Restores {} t.undoOnce := by
  have hretraces := undo_retraces asciiSegmenter {} [] (show TextBuffer.run _ _ [] = some {} from rfl)
  constructor
  · refine ⟨_, rfl, hretraces.1 [.insertNewline, .insertCharacter [0x61]] _ ?_ ?_ rfl⟩
    · intro op hmem
      simp only [List.mem_cons, List.not_mem_nil, or_false] at hmem
      rcases hmem with rfl | rfl <;> trivial
    · rintro before op after next heq hrun hlength
      match before, heq with
      | [], heq =>
        obtain rfl := (List.cons.inj heq).1
        exact id
      | [first], heq =>
        obtain rfl := (List.cons.inj heq).1
        cases hrun
        cases hlength
      | first :: second :: more, heq =>
        simp at heq
  · refine hretraces.2 [0x61] [[0x62]] ?_ (.inl (by decide)) ?_
    · intro typed hmem
      simp only [List.mem_cons, List.not_mem_nil, or_false] at hmem
      rcases hmem with rfl | rfl <;> decide
    · intro typed hmem
      obtain rfl := List.mem_singleton.1 hmem
      decide

/-- A grapheme that continues a word pushes no snapshot, and so no undo leads back to the state before
it. -/
theorem typing_coalesces : ∃ s t, TextBuffer.run asciiSegmenter {} [.insertCharacter [0x61]] = some s ∧
      TextBuffer.run asciiSegmenter s [.insertCharacter [0x62]] = some t ∧ t.undo.length - s.undo.length = 0 ∧
      ¬ TextBuffer.Restores s (TextBuffer.undoOnce^[t.undo.length - s.undo.length] t) := by
  refine ⟨_, _, rfl, rfl, rfl, ?_⟩
  intro hrestores
  have hdocument := hrestores.1
  revert hdocument
  decide

end CodingHarness.Tui
