import CodingHarness.Tui.KillSteps
import CodingHarness.Tui.PasteIntegrity

/-!
# The two kill rings

The ring of texts and the ring of documents are `InStep` when they hold the same texts. Only kills change
them, apart from a rotation of the texts that needs an empty ring of documents, so the rings stay in step
along every run whose kills merge (`MergesRun.inStep`).
-/

namespace CodingHarness.Tui

open Library Support
open Option (bind_eq_bind bind_eq_some_iff)

/-- The text of a kill entry, with the texts of its markers. -/
def KillEntry.plainText (entry : KillEntry) : Bytes := documentText entry.document

namespace TextBuffer

/-- Both rings hold the same texts, and every entry has a line. -/
structure InStep (s : TextBuffer) : Prop where
  texts : s.killRing.reverse = s.docKillRing.map KillEntry.plainText
  lines : ∀ entry ∈ s.docKillRing, entry.document ≠ []

/-- The rings are the same. -/
structure SameRings (s t : TextBuffer) : Prop where
  ring : t.killRing = s.killRing
  entries : t.docKillRing = s.docKillRing

variable {lib : Segmenter} {s t u : TextBuffer}

theorem InStep.same (h : s.InStep) (hsame : SameRings s t) : t.InStep := by
  refine ⟨?_, ?_⟩
  · rw [hsame.ring, hsame.entries]
    exact h.texts
  · rw [hsame.entries]
    exact h.lines

theorem SameRings.trans (h : SameRings s t) (h' : SameRings t u) : SameRings s u :=
  ⟨h'.ring.trans h.ring, h'.entries.trans h.entries⟩

theorem Frame.sameRings (h : Frame s t) : SameRings s t := by
  obtain ⟨document, cursor, pastes, counter, rfl⟩ := h.rest
  exact ⟨rfl, rfl⟩

theorem Frame.same {pushed : TextBuffer} (h : Frame pushed t) (hpushed : SameRings s pushed) :
    SameRings s t := hpushed.trans h.sameRings

theorem Motion.sameRings (h : Motion s t) : SameRings s t := by
  obtain ⟨cursor, index, action, error, rfl⟩ := h
  exact ⟨rfl, rfl⟩

/-! ## Kills -/

variable {text : Bytes}

theorem pushKill_fresh {ring : List Bytes} (htext : text ≠ []) (prepend : Bool) :
    pushKill ring text prepend false = ring ++ [text] := by
  rw [pushKill, if_neg htext]
  rfl

theorem pushKill_merged {ring : List Bytes} {last text : Bytes} (htext : text ≠ []) (prepend : Bool) :
    pushKill (ring ++ [last]) text prepend true = ring ++ [if prepend then text ++ last else last ++ text] := by
  rw [pushKill, if_neg htext, if_pos rfl, List.getLast?_concat, List.dropLast_concat]

theorem Took.inStep {head tail deleted : BufferDocument} {prepend : Bool} (h : s.InStep)
    (htook : Took head tail s t deleted prepend) : t.InStep := by
  rcases htook.entered with ⟨last, rest, entry, hkilled, hring, hents, hmerged⟩ | ⟨hfresh, hents⟩
  · have hlast : last.document ≠ [] := h.lines last (hring ▸ List.mem_cons_self)
    have htexts : s.killRing = (rest.map KillEntry.plainText).reverse ++ [last.plainText] := by
      rw [← List.reverse_reverse s.killRing, h.texts, hring, List.map_cons, List.reverse_cons]
    have hentry : entry.plainText = if prepend then documentText deleted ++ last.plainText
        else last.plainText ++ documentText deleted := by
      rw [KillEntry.plainText, hmerged.document]
      cases prepend with
      | true => exact documentText_joinLines htook.nonempty hlast
      | false => exact documentText_joinLines hlast htook.nonempty
    refine ⟨?_, fun other hmem => ?_⟩
    · rw [htook.ring, decide_eq_true hkilled, htexts, pushKill_merged htook.text, ← hentry, hents,
        List.reverse_append, List.reverse_reverse, List.reverse_singleton, List.map_cons]
      rfl
    rw [hents] at hmem
    rcases List.mem_cons.1 hmem with rfl | hmem
    · rw [hmerged.document]
      cases prepend with
      | true => exact joinLines_ne_nil_left htook.nonempty _
      | false => exact joinLines_ne_nil_left hlast _
    · exact h.lines other (hring ▸ List.mem_cons_of_mem _ hmem)
  · have hring : pushKill s.killRing (documentText deleted) prepend (decide (s.lastAction = .kill)) =
        s.killRing ++ [documentText deleted] := by
      by_cases hkilled : s.lastAction = .kill
      · -- The rings are empty, so there is no text to merge with.
        have hempty : s.killRing = [] := by
          have htexts := h.texts
          rw [hfresh.resolve_left (not_not.2 hkilled)] at htexts
          exact List.reverse_eq_nil_iff.1 htexts
        rw [hempty, decide_eq_true hkilled, pushKill, if_neg htook.text]
        rfl
      · rw [decide_eq_false hkilled]
        exact pushKill_fresh htook.text prepend
    refine ⟨?_, fun other hmem => ?_⟩
    · rw [htook.ring, hring, hents, List.reverse_append, h.texts, List.map_cons]
      rfl
    rw [hents] at hmem
    rcases List.mem_cons.1 hmem with rfl | hmem
    · exact htook.nonempty
    · exact h.lines other hmem

variable {op : BufferOp}

theorem Outcome.inStep {head tail : BufferDocument} (h : s.InStep)
    (hout : Outcome lib head tail op s t) : t.InStep := by
  rcases hout with ⟨-, hspared⟩ | ⟨-, deleted, prepend, htook⟩
  · exact h.same hspared.motion.sameRings
  · exact htook.inStep h

theorem exists_outcome (hlib : lib.Lawful) (hs : s.Inv) (hstep : s.InStep)
    (hkill : op.isKill = true) (hmerges : s.Merges lib op) {lines more : BufferDocument}
    {before after : BufferLine} (h : Around s lines before after more) :
    ∃ t, op.apply lib s = some t ∧ t.Inv ∧ Outcome lib (lines ++ [before]) (after :: more) op s t := by
  cases op with
  | deleteWordBackward =>
    obtain ⟨t, ht, hinv⟩ := within_deleteWordBackward hlib hs
    exact ⟨t, ht, hinv, deleteWordBackward_outcome hlib hs h hmerges ht⟩
  | deleteWordForward =>
    have hwithin : s.Within .deleteWordForward := by
      intro _ entry rest hring line hline
      split
      · next hend =>
        have hsame := hmerges
        have hend' : (before ++ after).length = before.length := by
          rw [h.line] at hline
          rw [Option.some.inj hline, ← h.column, hend]
        have hafter : after = [] := by
          rw [List.length_append] at hend'
          exact List.length_eq_zero_iff.1 (by omega)
        rw [Merges, reach_deleteWordForward h, if_pos hafter] at hsame
        rcases Reach.ofBreak_ne hsame with hlast | hsingle
        · exact .inl (by simpa using hlast)
        · exact .inr hsingle
      · exact hstep.lines entry (hring ▸ List.mem_cons_self)
    obtain ⟨t, ht, hinv⟩ := within_deleteWordForward hs hwithin
    exact ⟨t, ht, hinv, deleteWordForward_outcome hs h hstep.lines hmerges ht⟩
  | killToLineStart =>
    obtain ⟨t, ht, hinv⟩ := within_killToLineStart hs
    exact ⟨t, ht, hinv, killToLineStart_outcome hs h hmerges ht⟩
  | killToLineEnd =>
    obtain ⟨t, ht, hinv⟩ := within_killToLineEnd hs
    exact ⟨t, ht, hinv, killToLineEnd_outcome hs h hmerges ht⟩
  | _ => cases hkill

/-! ## Other operations -/

theorem SameRings.refl (s : TextBuffer) : SameRings s s := ⟨rfl, rfl⟩

theorem sameRings_insertText {recordUndo : Bool} (h : s.insertText lib text recordUndo = some t) : SameRings s t := by
  simp only [insertText] at h
  split at h
  · cases h
    exact ⟨rfl, rfl⟩
  · cases recordUndo with
    | true | false => exact (frame_insertSegments h).same ⟨rfl, rfl⟩

theorem sameRings_insertCharacter {grapheme : Bytes} (h : s.insertCharacter lib grapheme = some t) :
    SameRings s t := by
  simp only [insertCharacter] at h
  split at h
  · cases h
    exact ⟨rfl, rfl⟩
  split at h
  · exact (frame_insertUnits h).same ⟨rfl, rfl⟩
  · exact (frame_insertUnits h).same ⟨rfl, rfl⟩

theorem sameRings_insertPaste (h : s.insertPaste lib text = some t) : SameRings s t := by
  simp only [insertPaste, bind_eq_bind, bind_eq_some_iff] at h
  obtain ⟨line, -, h⟩ := h
  split at h
  · cases h
    exact ⟨rfl, rfl⟩
  split at h
  · exact (frame_insertSegments h).same ⟨rfl, rfl⟩
  · exact (frame_insertSegments h).same ⟨rfl, rfl⟩

theorem sameRings_insertNewline (h : s.insertNewline = some t) : SameRings s t := by
  simp only [insertNewline] at h
  split at h
  · cases h
    exact ⟨rfl, rfl⟩
  simp only [bind_eq_bind, bind_eq_some_iff] at h
  obtain ⟨current, -, tail, -, kept, -, document, -, document', -, heq⟩ := h
  cases heq
  exact ⟨rfl, rfl⟩

theorem sameRings_backspace (h : s.backspace = some t) : SameRings s t := by
  simp only [backspace] at h
  split at h
  · obtain ⟨deleted, hdelete, heq⟩ := Option.bind_eq_some_iff.1 h
    cases heq
    have hsame : SameRings s deleted := (frame_deleteSegment hdelete).same ⟨rfl, rfl⟩
    exact ⟨hsame.ring, hsame.entries⟩
  split at h
  · next hline => exact (frame_joinWithPrevious h hline.1).same ⟨rfl, rfl⟩
  · cases h
    exact ⟨rfl, rfl⟩

theorem sameRings_forwardDelete (h : s.forwardDelete = some t) : SameRings s t := by
  simp only [forwardDelete, bind_eq_bind, bind_eq_some_iff] at h
  obtain ⟨line, -, h⟩ := h
  split at h
  · exact (frame_deleteSegment h).same ⟨rfl, rfl⟩
  split at h
  · exact (frame_joinWithNext h).same ⟨rfl, rfl⟩
  · cases h
    exact ⟨rfl, rfl⟩

theorem sameRings_insertKill {entry : KillEntry}
    (h : (s.materializeKill entry).2.insertSegments (s.materializeKill entry).1 = some t) : SameRings s t :=
  ((frame_materializeKill s entry).trans (frame_insertSegments h)).sameRings

theorem sameRings_yank (h : s.yank lib = some t) : SameRings s t := by
  simp only [yank] at h
  split at h
  · obtain ⟨next, hins, heq⟩ := Option.bind_eq_some_iff.1 h
    cases heq
    have hsame := sameRings_insertKill hins
    exact ⟨hsame.ring, hsame.entries⟩
  · obtain ⟨next, hins, heq⟩ := Option.bind_eq_some_iff.1 h
    cases heq
    have hsame := sameRings_insertText hins
    exact ⟨hsame.ring, hsame.entries⟩
  · cases h
    exact ⟨rfl, rfl⟩

/-- The texts are rotated only when there are no documents, and then there are no texts either. -/
theorem sameRings_yankPop (hs : s.InStep) (h : s.yankPop lib = some t) : SameRings s t := by
  simp only [yankPop] at h
  split at h
  · split at h
    · cases h
      exact ⟨rfl, rfl⟩
    · next hmany =>
      split at h
      · cases h
        exact ⟨rfl, rfl⟩
      simp only [bind_eq_bind, bind_eq_some_iff] at h
      obtain ⟨erased, herase, h⟩ := h
      have herased : SameRings s erased := (frame_eraseRange herase).same ⟨rfl, rfl⟩
      split at h
      · simp only [bind_eq_some_iff] at h
        obtain ⟨entry, -, next, hins, heq⟩ := h
        cases heq
        have hsame := herased.trans (sameRings_insertKill hins)
        exact ⟨hsame.ring, hsame.entries⟩
      next hempty =>
      rw [ne_eq, not_not, herased.entries] at hempty
      have htexts := hs.texts
      rw [hempty] at htexts
      have hring : s.killRing = [] := List.reverse_eq_nil_iff.1 htexts
      refine absurd ⟨?_, ?_⟩ hmany
      · exact (congrArg List.length hempty).trans_lt Nat.zero_lt_two
      · exact (congrArg List.length hring).trans_lt Nat.zero_lt_two
  · cases h
    exact ⟨rfl, rfl⟩

theorem sameRings_motion (h : op.apply lib s = some t)
    (hop : op = .moveLeft ∨ op = .moveRight ∨ op = .moveUp ∨ op = .moveDown ∨ op = .moveToLineEnd) :
    SameRings s t := by
  rcases motion_of_apply h hop with rfl | ⟨cursor, index, action, error, rfl⟩
  · exact .refl t
  · exact ⟨rfl, rfl⟩

theorem sameRings_apply (hs : s.InStep) (hkill : op.isKill = false)
    (h : op.apply lib s = some t) : SameRings s t := by
  cases op with
  | deleteWordBackward | deleteWordForward | killToLineStart | killToLineEnd => cases hkill
  | setText text clear =>
    simp only [BufferOp.apply, setText, bind_eq_bind, bind_eq_some_iff] at h
    obtain ⟨last, -, heq⟩ := h
    cases heq
    exact ⟨rfl, rfl⟩
  | insertCharacter grapheme => exact sameRings_insertCharacter h
  | insertText text recordUndo => exact sameRings_insertText h
  | insertPaste text => exact sameRings_insertPaste h
  | insertNewline => exact sameRings_insertNewline h
  | backspace => exact sameRings_backspace h
  | forwardDelete => exact sameRings_forwardDelete h
  | yank => exact sameRings_yank h
  | yankPop => exact sameRings_yankPop hs h
  | undo =>
    cases h
    cases hundo : s.undo with
    | nil =>
      rw [undoOnce_idle hundo]
      exact ⟨rfl, rfl⟩
    | cons popped rest =>
      rw [undoOnce_popped hundo]
      exact ⟨rfl, rfl⟩
  | moveLeft | moveRight | moveUp | moveDown | moveToLineEnd => exact sameRings_motion h (by simp)
  | moveWordBackward => exact SameRings.trans (t := s.ready) ⟨rfl, rfl⟩ (moveWordBackward_motion h).1.sameRings
  | moveWordForward => exact SameRings.trans (t := s.ready) ⟨rfl, rfl⟩ (moveWordForward_motion h).1.sameRings
  | eraseRange start stop => exact (frame_eraseRange h).sameRings
  | insertSegments inserted => exact (frame_insertSegments h).sameRings
  | applyCompletionEdit line start after middle result =>
    simp only [BufferOp.apply, applyCompletionEdit] at h
    split at h
    · cases h
      exact .refl s
    simp only [bind_eq_bind, bind_eq_some_iff] at h
    obtain ⟨segments, -, before, -, inserted, -, after, -, document, -, shown, -, heq⟩ := h
    cases heq
    exact ⟨rfl, rfl⟩
  | _ =>
    cases h
    exact ⟨rfl, rfl⟩

/-! ## Runs -/

def MergesRun (lib : Segmenter) : TextBuffer → List BufferOp → Prop
  | _, [] => True
  | s, op :: ops => s.Merges lib op ∧ ∀ t, op.apply lib s = some t → t.MergesRun lib ops

theorem inStep_apply (hlib : lib.Lawful) (hs : s.Inv) (hstep : s.InStep)
    (hmerges : s.Merges lib op) (h : op.apply lib s = some t) : t.InStep := by
  cases hkill : op.isKill with
  | false => exact hstep.same (sameRings_apply hstep hkill h)
  | true =>
    obtain ⟨lines, before, after, more, haround⟩ := exists_around hs.sound.cursor
    obtain ⟨u, hu, -, hout⟩ := exists_outcome hlib hs hstep hkill hmerges haround
    obtain rfl := Option.some.inj (hu.symm.trans h)
    exact hout.inStep hstep

theorem MergesRun.inStep (hlib : lib.Lawful) {ops : List BufferOp} (hmerges : s.MergesRun lib ops)
    (hwithin : s.WithinRun lib ops) (hs : s.Inv) (hstep : s.InStep) (hrun : s.run lib ops = some t) :
    t.Inv ∧ t.InStep := by
  induction ops generalizing s with
  | nil =>
    cases hrun
    exact ⟨hs, hstep⟩
  | cons op ops ih =>
    obtain ⟨next, hnext, hrest⟩ := run_cons hrun
    obtain ⟨next', hnext', hinv⟩ := within_apply hlib hs hwithin.1
    obtain rfl := Option.some.inj (hnext.symm.trans hnext')
    exact ih (hmerges.2 next hnext) (hwithin.2 next hnext) hinv (inStep_apply hlib hs hstep hmerges.1 hnext) hrest

end TextBuffer

end CodingHarness.Tui
