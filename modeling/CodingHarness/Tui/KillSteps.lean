import CodingHarness.Tui.BufferPlaces
import CodingHarness.Tui.ReferenceSteps

/-!
# Kill commands

`reach` says what a kill command has beside the cursor. A kill takes its segments from the end of the text
before the cursor or from the beginning of the text after it, and puts them into both rings (`Took`); a kill
that finds nothing spares the document and the rings (`Spared`). A kill `Merges` when it does not cross a
line as a word kill, and does not follow another kill as a line kill: only the ring of texts merges the line
kills, and a word kill that crosses a line takes nothing into the rings.
-/

namespace CodingHarness.Tui

open Library Support
open List (append_assoc append_nil cons_ne_nil length_append length_eq_zero_iff length_singleton)
open Option (bind_eq_bind bind_some)

/-- The text of lines, with the texts of the markers. -/
def documentText (document : BufferDocument) : Bytes := List.intercalate [0x0A] (document.map lineText)

/-- What is beside the cursor: nothing, no word that could be found, no word in that direction, segments of
the line, or the break to another line. -/
inductive Reach where
  | nothing
  | failed
  | here
  | sameLine
  | otherLine
  deriving DecidableEq

def Reach.takes : Reach → Bool
  | .sameLine => true
  | .otherLine => true
  | _ => false

def Reach.ofWord (line : BufferLine) (column : Nat) : Expected Nat → Reach
  | .error _ => .failed
  | .ok found => if TextBuffer.columnAt line found = column then .here else .sameLine

def Reach.ofBreak (another multiline : Bool) : Reach := if another && multiline then .otherLine else .nothing

def BufferOp.isKill : BufferOp → Bool
  | .deleteWordBackward => true
  | .deleteWordForward => true
  | .killToLineStart => true
  | .killToLineEnd => true
  | _ => false

theorem Reach.takes_ofBreak (another multiline : Bool) :
    (Reach.ofBreak another multiline).takes = (another && multiline) := by
  cases another <;> cases multiline <;> rfl

theorem Reach.ofBreak_ne {another multiline : Bool} (h : Reach.ofBreak another multiline ≠ .otherLine) :
    another = false ∨ multiline = false := by
  cases another
  · exact .inl rfl
  cases multiline
  · exact .inr rfl
  · exact absurd rfl h

namespace TextBuffer

/-- What a kill command has beside the cursor. -/
def reach (lib : Segmenter) (s : TextBuffer) (op : BufferOp) : Reach := let line := s.document.getD s.cursor.line []
  let previous := .ofBreak (0 < s.cursor.line) s.options.multiline
  let next := .ofBreak (s.cursor.line + 1 < s.document.length) s.options.multiline
  match op with
  | .deleteWordBackward =>
    if s.cursor.column = 0 then previous
    else
      .ofWord line s.cursor.column
        (findWordBackward lib (lineText line) s.cursorByteOffset (atomicSpans line 0))
  | .deleteWordForward =>
    if line.length ≤ s.cursor.column then next
    else
      .ofWord line s.cursor.column
        (findWordForward lib (lineText line) s.cursorByteOffset (atomicSpans line 0))
  | .killToLineStart => if s.cursor.column ≠ 0 then .sameLine else previous
  | .killToLineEnd => if line.length ≠ s.cursor.column then .sameLine else next
  | _ => .nothing

/-- Both rings treat a kill in the same way: a word kill stays on its line, and a line kill that takes
something does not follow another kill. -/
def Merges (lib : Segmenter) (s : TextBuffer) (op : BufferOp) : Prop := match op with
  | .deleteWordBackward => s.reach lib op ≠ .otherLine
  | .deleteWordForward => s.reach lib op ≠ .otherLine
  | .killToLineStart => s.lastAction = .kill → (s.reach lib op).takes = false
  | .killToLineEnd => s.lastAction = .kill → (s.reach lib op).takes = false
  | _ => True

/-! ## Effects -/

/-- The segments were at the end of the text before the cursor, or at the beginning of the text after it. -/
def Cut (head tail : BufferDocument) (t : TextBuffer) (deleted : BufferDocument) (prepend : Bool) : Prop :=
  ∃ lines before after more, Around t lines before after more ∧
    head = (if prepend then joinLines (lines ++ [before]) deleted else lines ++ [before]) ∧
    tail = (if prepend then after :: more else joinLines deleted (after :: more))

/-- An entry that takes in a kill after it. The contents come from the entry or from the buffer. -/
structure Merged (s : TextBuffer) (last entry : KillEntry) (deleted : BufferDocument)
    (prepend : Bool) : Prop where
  document : entry.document = (if prepend then joinLines deleted last.document else joinLines last.document deleted)
  pastes : ∀ id, entry.pastes id = last.pastes id ∨ entry.pastes id = none ∨ entry.pastes id = s.pastes id

/-- What the ring of documents is after a kill. -/
def Entered (s : TextBuffer) (ring : List KillEntry) (deleted : BufferDocument) (prepend : Bool) : Prop :=
  (∃ last rest entry, s.lastAction = .kill ∧ s.docKillRing = last :: rest ∧ ring = entry :: rest ∧
      Merged s last entry deleted prepend) ∨
    ((s.lastAction ≠ .kill ∨ s.docKillRing = []) ∧ ring = s.createKillEntry deleted :: s.docKillRing)

/-- A kill took segments of the document into both rings. -/
structure Took (head tail : BufferDocument) (s t : TextBuffer) (deleted : BufferDocument)
    (prepend : Bool) : Prop where
  cut : Cut head tail t deleted prepend
  nonempty : deleted ≠ []
  text : documentText deleted ≠ []
  options : t.options = s.options
  pastes : t.pastes = s.pastes
  counter : t.pasteCounter = s.pasteCounter
  action : t.lastAction = .kill
  ring : t.killRing = pushKill s.killRing (documentText deleted) prepend (decide (s.lastAction = .kill))
  entered : Entered s t.docKillRing deleted prepend

/-- A kill found nothing. -/
structure Spared (lib : Segmenter) (op : BufferOp) (s t : TextBuffer) : Prop where
  motion : Motion s t
  cursor : t.cursor = s.cursor
  action : t.lastAction = s.lastAction ∨ (s.reach lib op = .here ∧ t.lastAction = .none)

/-- A kill found nothing, or took what was beside the cursor. -/
def Outcome (lib : Segmenter) (head tail : BufferDocument) (op : BufferOp) (s t : TextBuffer) : Prop :=
  ((s.reach lib op).takes = false ∧ Spared lib op s t) ∨
    ((s.reach lib op).takes = true ∧ ∃ deleted prepend, Took head tail s t deleted prepend)

variable {lib : Segmenter} {s t : TextBuffer} {lines more : BufferDocument} {before after : BufferLine}

theorem documentText_line (line : BufferLine) : documentText [line] = lineText line := by
  simp [documentText, List.intercalate]

theorem documentText_joinLines {a b : BufferDocument} (ha : a ≠ []) (hb : b ≠ []) :
    documentText (joinLines a b) = documentText a ++ documentText b :=
  intercalate_joinLines _ (fun _ _ => List.flatMap_append) ha hb

theorem lineText_ne_nil {line : BufferLine} (hok : LineOk line) (hne : line ≠ []) : lineText line ≠ [] := by
  obtain ⟨first, rest, rfl⟩ := List.exists_cons_of_ne_nil hne
  exact List.append_ne_nil_of_left_ne_nil (hok first List.mem_cons_self).1 _

theorem mergeBackward_eq {deleted : BufferDocument} (hdel : deleted ≠ []) (last : BufferDocument) :
    mergeBackward deleted last = joinLines deleted last := by
  obtain ⟨lines, line, rfl⟩ := exists_concat hdel
  cases last with
  | nil => simp [mergeBackward, joinLines_append]
  | cons first more => simp [mergeBackward, joinLines_cons]

theorem mergeForward_eq {deleted last : BufferDocument} (hdel : deleted ≠ []) (hlast : last ≠ []) :
    mergeForward deleted last = some (joinLines last deleted) := by
  obtain ⟨lines, line, rfl⟩ := exists_concat hlast
  obtain ⟨first, rest, rfl⟩ := List.exists_cons_of_ne_nil hdel
  simp only [mergeForward, List.getLast?_concat, List.dropLast_concat, List.head?_cons, List.tail_cons,
    bind_eq_bind, bind_some, joinLines_cons, append_assoc, List.singleton_append]

theorem Around.getD (h : Around s lines before after more) : s.document.getD s.cursor.line [] = before ++ after := by
  rw [List.getD_eq_getElem?_getD, h.line, Option.getD_some]

variable {removed : BufferLine}

theorem killRange_line (h : Around s lines before (removed ++ after) more)
    (start stop : BufferCursor) (hstart : start.line = stop.line)
    (hstop : stop.column = before.length + removed.length) :
    s.killRange start stop = some (lineText removed, [removed],
      { s with document := lines ++ (before ++ after) :: more }) := by
  rw [killRange, if_pos hstart, hstop, removeUntil_forward h]
  rfl

/-- Where a word motion leaves the cursor. -/
def toWord (s : TextBuffer) (line : BufferLine) : Expected Nat → Option TextBuffer
  | .error error => some { s with error := some error }
  | .ok found => some { s with cursor := { s.cursor with column := columnAt line found }, error := none }.moved

theorem moveWordBackward_line (hs : s.Inv) (h : Around s lines before after more) (hprev : before ≠ []) :
    { s with error := none }.moveWordBackward lib = s.toWord (before ++ after) (findWordBackward lib
      (lineText (before ++ after)) s.cursorByteOffset (atomicSpans (before ++ after) 0)) := by
  have hstart : ¬ (s.cursor.column = 0 ∧ 0 < s.cursor.line ∧ s.options.multiline = true) := by
    rw [h.column, length_eq_zero_iff]
    exact fun hempty => hprev hempty.1
  have hready : { s with error := none }.ready = { s with error := none } := (hs.withFlags s.lastAction none).ready_eq
  simp only [moveWordBackward, hready, if_neg hstart, h.line, bind_eq_bind, bind_some]
  rfl

theorem moveWordForward_line (hs : s.Inv) (h : Around s lines before after more) (hafter : after ≠ []) :
    { s with error := none }.moveWordForward lib = s.toWord (before ++ after) (findWordForward lib
      (lineText (before ++ after)) s.cursorByteOffset (atomicSpans (before ++ after) 0)) := by
  have hend : ¬ (s.cursor.column = (before ++ after).length ∧ s.cursor.line + 1 < s.document.length ∧
      s.options.multiline = true) := by
    have hlen := List.length_pos_iff.2 hafter
    rw [h.column, length_append]
    omega
  have hready : { s with error := none }.ready = { s with error := none } := (hs.withFlags s.lastAction none).ready_eq
  simp only [moveWordForward, hready, h.line, bind_eq_bind, bind_some, if_neg hend]
  rfl

theorem reach_deleteWordBackward (h : Around s lines before after more) :
    s.reach lib .deleteWordBackward = if before = [] then .ofBreak (0 < s.cursor.line) s.options.multiline
      else .ofWord (before ++ after) before.length (findWordBackward lib (lineText (before ++ after))
        s.cursorByteOffset (atomicSpans (before ++ after) 0)) := by
  simp only [reach, h.getD, h.column, length_eq_zero_iff]

theorem createKillEntry_pastes_cases (s : TextBuffer) (killed : BufferDocument) (id : Nat) :
    (s.createKillEntry killed).pastes id = none ∨ (s.createKillEntry killed).pastes id = s.pastes id := by
  rw [createKillEntry]
  dsimp only
  split
  · exact .inr rfl
  · exact .inl rfl

/-- Nothing but the document, the cursor, the snapshots and the flags differs. -/
structure SameRest (s u : TextBuffer) : Prop where
  options : u.options = s.options
  pastes : u.pastes = s.pastes
  counter : u.pasteCounter = s.pasteCounter
  ring : u.killRing = s.killRing
  entries : u.docKillRing = s.docKillRing

theorem createKillEntry_congr {u : TextBuffer} (h : u.pastes = s.pastes) (killed : BufferDocument) :
    u.createKillEntry killed = s.createKillEntry killed := by
  rw [createKillEntry, createKillEntry, h]

variable {ring : List KillEntry} {head tail : BufferDocument}

theorem took_line {u : TextBuffer} {prepend : Bool}
    (hok : LineOk removed) (hne : removed ≠ []) (hcut : Cut head tail u [removed] prepend) (hrest : SameRest s u)
    (hentered : Entered s ring [removed] prepend) : Took head tail s { u with
      killRing := pushKill u.killRing (lineText removed) prepend (decide (s.lastAction = .kill))
      docKillRing := ring
      lastAction := .kill } [removed] prepend where
  cut := by
    obtain ⟨lines, before, after, more, haround, hsplit⟩ := hcut
    exact ⟨lines, before, after, more, haround.congr rfl rfl, hsplit⟩
  nonempty := cons_ne_nil _ _
  text := by
    rw [documentText_line]
    exact lineText_ne_nil hok hne
  options := hrest.options
  pastes := hrest.pastes
  counter := hrest.counter
  action := rfl
  ring := by rw [documentText_line, hrest.ring]
  entered := hentered

theorem fresh_cases (h : ∀ last rest, s.lastAction = .kill → ring = last :: rest → False) :
    s.lastAction ≠ .kill ∨ ring = [] := by
  by_cases hkilled : s.lastAction = .kill
  · cases ring with
    | nil => exact .inr rfl
    | cons last rest => exact (h last rest hkilled rfl).elim
  · exact .inl hkilled

/-- A kill of segments of one line that starts an entry. -/
theorem took_fresh {u : TextBuffer} {prepend : Bool}
    (hok : LineOk removed) (hne : removed ≠ []) (hcut : Cut head tail u [removed] prepend) (hrest : SameRest s u)
    (hfresh : ∀ last rest, decide (s.lastAction = .kill) = true → u.docKillRing = last :: rest → False) :
    Took head tail s { u with
      killRing := pushKill u.killRing (lineText removed) prepend (decide (s.lastAction = .kill))
      docKillRing := u.createKillEntry [removed] :: u.docKillRing
      lastAction := .kill } [removed] prepend := by
  refine took_line hok hne hcut hrest (.inr ⟨?_, ?_⟩)
  · rw [← hrest.entries]
    exact fresh_cases fun last rest hkilled => hfresh last rest (decide_eq_true hkilled)
  · exact congrArg₂ List.cons (createKillEntry_congr hrest.pastes [removed]) hrest.entries

/-- A command that has neither segments nor a break beside the cursor clears the error alone. -/
theorem outcome_idle {op : BufferOp} {another : Prop} [Decidable another]
    (hreach : s.reach lib op = .ofBreak another s.options.multiline)
    (hidle : ¬ (another ∧ s.options.multiline = true)) : Outcome lib head tail op s { s with error := none } := by
  refine .inl ⟨?_, ⟨⟨_, _, _, _, rfl⟩, rfl, .inl rfl⟩⟩
  rw [hreach, Reach.takes_ofBreak]
  by_contra htakes
  rw [Bool.not_eq_false, Bool.and_eq_true, decide_eq_true_iff] at htakes
  exact hidle htakes

/-- A line kill that takes something starts an entry. -/
theorem fresh_of_takes {op : BufferOp} (hmerges : s.lastAction = .kill → (s.reach lib op).takes = false)
    (htakes : (s.reach lib op).takes = true) : s.lastAction ≠ .kill := by
  intro hkilled
  rw [hmerges hkilled] at htakes
  cases htakes

/-- A word kill finds no word, is at its end already, or goes on with the segments up to it. -/
theorem word_cases {op : BufferOp} {found? : Expected Nat} {goOn : TextBuffer → Option TextBuffer}
    (h : Around s lines before after more)
    (hreach : s.reach lib op = .ofWord (before ++ after) before.length found?)
    (hstep : ((s.toWord (before ++ after) found?).bind fun u =>
      if u.error.isSome then some { u with cursor := s.cursor, lastAction := s.lastAction }
      else if s.cursor = u.cursor then some u
      else goOn u) = some t) :
    Outcome lib head tail op s t ∨ ∃ found, found? = .ok found ∧ (s.reach lib op).takes = true ∧
      columnAt (before ++ after) found ≠ before.length ∧ goOn { s with
        cursor := { s.cursor with column := columnAt (before ++ after) found }, error := none }.moved = some t := by
  cases found? with
  | error error =>
    cases hstep
    exact .inl (.inl ⟨by rw [hreach]; rfl, ⟨⟨_, _, _, _, rfl⟩, rfl, .inl rfl⟩⟩)
  | ok found =>
    simp only [toWord, moved, Option.bind_some, Option.isSome_none, Bool.false_eq_true, if_false] at hstep
    split at hstep
    · next hsame =>
      cases hstep
      have hcol : columnAt (before ++ after) found = before.length := by
        rw [← h.column]
        exact (congrArg BufferCursor.column hsame).symm
      rw [Reach.ofWord, if_pos hcol] at hreach
      exact .inl (.inl ⟨by rw [hreach]; rfl, ⟨⟨_, _, _, _, rfl⟩, hsame.symm, .inr ⟨hreach, rfl⟩⟩⟩)
    · next hother =>
      have hne : columnAt (before ++ after) found ≠ before.length := by
        rw [← h.column]
        exact fun heq => hother (congrArg (BufferCursor.mk s.cursor.line) heq.symm)
      rw [Reach.ofWord, if_neg hne] at hreach
      exact .inr ⟨found, rfl, by rw [hreach]; rfl, hne, hstep⟩

theorem deleteWordBackward_outcome (hlib : lib.Lawful) (hs : s.Inv) (h : Around s lines before after more)
    (hmerges : s.Merges lib .deleteWordBackward) (hstep : s.deleteWordBackward lib = some t) :
    Outcome lib (lines ++ [before]) (after :: more) .deleteWordBackward s t := by
  have hreach : s.reach lib .deleteWordBackward = _ := reach_deleteWordBackward h
  simp only [deleteWordBackward, hs.ready_eq] at hstep
  split at hstep
  · next hidle =>
    cases hstep
    rw [h.column, length_eq_zero_iff] at hidle
    refine outcome_idle (hreach.trans (if_pos hidle.1)) fun hjoin => ?_
    rcases hidle.2 with hline | hsingle
    · exact absurd hjoin.1 (by omega)
    · rw [hjoin.2] at hsingle
      cases hsingle
  next hbusy =>
  have hprev : before ≠ [] := by
    intro hempty
    refine hbusy ⟨h.column.trans (List.length_eq_zero_iff.2 hempty), ?_⟩
    have hsame := hmerges
    rw [Merges, hreach, if_pos hempty] at hsame
    rcases Reach.ofBreak_ne hsame with hline | hsingle
    · exact .inl (by simpa using hline)
    · exact .inr (by rw [hsingle]; rfl)
  rw [moveWordBackward_line hs h hprev] at hstep
  rw [if_neg hprev] at hreach
  rcases word_cases h hreach hstep with houtcome | ⟨found, hfound, htakes, hne, hstep⟩
  · exact houtcome
  have hle : columnAt (before ++ after) found ≤ before.length := by
    rw [← h.column]
    refine columnAt_le ?_
    have hle := findWordBackward_le hlib hfound
    rwa [cursorByteOffset_eq h.line] at hle
  obtain ⟨kept, removed, rfl, hkept⟩ : ∃ kept removed, before = kept ++ removed ∧
      columnAt (before ++ after) found = kept.length :=
    ⟨before.take _, before.drop _, (List.take_append_drop _ _).symm, (List.length_take_of_le hle).symm⟩
  have hrem : removed ≠ [] := by
    rintro rfl
    exact hne (by rw [hkept, append_nil])
  rw [hkept] at hstep
  obtain ⟨⟨text, deleted, u⟩, hkill, hstep⟩ := Option.bind_eq_some_iff.1 hstep
  have haround : Around { s with
      cursor := { s.cursor with column := kept.length }, lastYankRingIndex := none,
      lastAction := .none, error := none }.pushUndo lines kept (removed ++ after) more :=
    ⟨by rw [← append_assoc]; exact h.document, by rw [h.cursor]; rfl⟩
  have hline := killRange_line haround { s.cursor with column := kept.length } s.cursor rfl
    (by rw [h.column, length_append])
  obtain ⟨rfl, rfl, hu⟩ : text = lineText removed ∧ deleted = [removed] ∧ u = _ := by
    simpa only [Option.some.injEq, Prod.mk.injEq] using hkill.symm.trans hline
  have hok : LineOk removed := fun segment hmem =>
    hs.sound.ok.get h.line segment (List.mem_append_left _ (List.mem_append_right _ hmem))
  have hcut : Cut (lines ++ [kept ++ removed]) (after :: more) u [removed] true := by
    refine ⟨lines, kept, after, more, ?_, by rw [if_pos rfl, joinLines_cons], by rw [if_pos rfl]⟩
    rw [hu]
    exact ⟨rfl, by rw [h.cursor]; rfl⟩
  have hrest : SameRest s u := by
    rw [hu]
    exact ⟨rfl, rfl, rfl, rfl, rfl⟩
  refine .inr ⟨htakes, [removed], true, ?_⟩
  split at hstep
  · next last rest hkilled hring =>
    cases hstep
    refine took_line hok hrem hcut hrest (.inl ⟨last, rest, _, of_decide_eq_true hkilled,
      hrest.entries.symm.trans hring, rfl, mergeBackward_eq (cons_ne_nil removed []) _,
      fun number => .inr ?_⟩)
    rw [← hrest.pastes]
    exact createKillEntry_pastes_cases u _ number
  next hfresh =>
  cases hstep
  exact took_fresh hok hrem hcut hrest hfresh

theorem reach_deleteWordForward (h : Around s lines before after more) : s.reach lib .deleteWordForward =
      if after = [] then .ofBreak (s.cursor.line + 1 < s.document.length) s.options.multiline
      else .ofWord (before ++ after) before.length (findWordForward lib (lineText (before ++ after))
        s.cursorByteOffset (atomicSpans (before ++ after) 0)) := by
  have hend : (before ++ after).length ≤ before.length ↔ after = [] := by
    rw [length_append, ← length_eq_zero_iff]
    omega
  simp only [reach, h.getD, h.column, hend]

theorem deleteWordForward_outcome (hs : s.Inv) (h : Around s lines before after more)
    (hlines : ∀ entry ∈ s.docKillRing, entry.document ≠ [])
    (hmerges : s.Merges lib .deleteWordForward) (hstep : s.deleteWordForward lib = some t) :
    Outcome lib (lines ++ [before]) (after :: more) .deleteWordForward s t := by
  have hreach : s.reach lib .deleteWordForward = _ := reach_deleteWordForward h
  simp only [deleteWordForward, hs.ready_eq, h.line, bind_eq_bind, bind_some] at hstep
  have hend : (before ++ after).length ≤ s.cursor.column ↔ after = [] := by
    rw [h.column, length_append, ← length_eq_zero_iff]
    omega
  split at hstep
  · next hidle =>
    cases hstep
    rw [hend] at hidle
    refine outcome_idle (hreach.trans (if_pos hidle.1)) fun hjoin => ?_
    rcases hidle.2 with hline | hsingle
    · exact absurd hjoin.1 (by omega)
    · rw [hjoin.2] at hsingle
      cases hsingle
  next hbusy =>
  have hafter : after ≠ [] := by
    intro hempty
    refine hbusy ⟨hend.2 hempty, ?_⟩
    have hsame := hmerges
    rw [Merges, hreach, if_pos hempty] at hsame
    rcases Reach.ofBreak_ne hsame with hline | hsingle
    · exact .inl (by simpa using hline)
    · exact .inr (by rw [hsingle]; rfl)
  rw [moveWordForward_line hs h hafter] at hstep
  rw [if_neg hafter] at hreach
  rcases word_cases h hreach hstep with houtcome | ⟨found, hfound, htakes, hne, hstep⟩
  · exact houtcome
  have hle : before.length ≤ columnAt (before ++ after) found := by
    rw [cursorByteOffset_eq h.line, h.column] at hfound
    exact le_columnAt (hs.sound.ok.get h.line) (by rw [length_append]; omega)
      (le_findWordForward (length_lineText_take_le _ _) hfound)
  have hbound := columnAt_le_length (before ++ after) found
  rw [length_append] at hbound
  obtain ⟨removed, rest, rfl, hremovedLength⟩ : ∃ removed rest, after = removed ++ rest ∧
      columnAt (before ++ after) found = before.length + removed.length := by
    refine ⟨after.take (columnAt (before ++ after) found - before.length), after.drop _,
      (List.take_append_drop _ _).symm, ?_⟩
    rw [List.length_take_of_le (by omega)]
    omega
  have hrem : removed ≠ [] := by
    rintro rfl
    exact hne hremovedLength
  rw [hremovedLength] at hstep
  obtain ⟨⟨text, deleted, u⟩, hkill, hstep⟩ := Option.bind_eq_some_iff.1 hstep
  have haround : Around { s with
      lastYankRingIndex := none, lastAction := .none, error := none }.pushUndo lines before
      (removed ++ rest) more := ⟨h.document, h.cursor⟩
  have hline := killRange_line haround s.cursor
    { s.cursor with column := before.length + removed.length } rfl rfl
  obtain ⟨rfl, rfl, hu⟩ : text = lineText removed ∧ deleted = [removed] ∧ u = _ := by
    simpa only [Option.some.injEq, Prod.mk.injEq] using hkill.symm.trans hline
  have hok : LineOk removed := fun segment hmem =>
    hs.sound.ok.get h.line segment (List.mem_append_right _ (List.mem_append_left _ hmem))
  have hcut : Cut (lines ++ [before]) ((removed ++ rest) :: more) u [removed] false := by
    refine ⟨lines, before, rest, more, ?_, by simp, by simp [joinLines]⟩
    rw [hu]
    exact ⟨rfl, h.cursor⟩
  have hrest : SameRest s u := by
    rw [hu]
    exact ⟨rfl, rfl, rfl, rfl, rfl⟩
  refine .inr ⟨htakes, [removed], false, ?_⟩
  split at hstep
  · next last others hkilled hring =>
    have hring' : s.docKillRing = last :: others := hrest.entries.symm.trans hring
    have hlast : last.document ≠ [] := hlines last (hring' ▸ List.mem_cons_self)
    rw [mergeForward_eq (cons_ne_nil removed []) hlast] at hstep
    cases hstep
    exact took_line hok hrem hcut hrest (.inl ⟨last, others, _, of_decide_eq_true hkilled,
      hring', rfl, rfl, fun _ => .inl rfl⟩)
  next hfresh =>
  cases hstep
  exact took_fresh hok hrem hcut hrest hfresh

/-! ## Line kills -/

theorem joinWithPrevious_around {previous : BufferLine} (h : Around s (lines ++ [previous]) [] after more) :
    s.joinWithPrevious = some { s with
      document := lines ++ (previous ++ after) :: more, cursor := ⟨lines.length, previous.length⟩ } := by
  have hdoc : s.document = lines ++ previous :: after :: more := by
    rw [h.document, append_assoc]
    rfl
  have hline : s.cursor.line = lines.length + 1 := by
    rw [h.cursor, length_append, length_singleton]
  have hset : setAt? s.document lines.length (previous ++ after) =
      some (lines ++ (previous ++ after) :: after :: more) := by
    rw [hdoc]
    exact setAt?_middle _ _ _ _
  have herase : eraseSlice? (lines ++ (previous ++ after) :: after :: more) (lines.length + 1)
      (lines.length + 1 + 1) = some (lines ++ (previous ++ after) :: more) := by
    have hmid := eraseSlice?_middle (lines ++ [previous ++ after]) [after] more
    simpa only [append_assoc, List.singleton_append, length_append, length_singleton] using hmid
  have hprevious : s.document[lines.length]? = some previous := by
    rw [hdoc]
    exact getElem?_middle _ _ _
  have hcur := h.line
  rw [hline, List.nil_append] at hcur
  simp only [joinWithPrevious, hcur, hline, Nat.add_sub_cancel, hprevious, hset, herase, bind_eq_bind, bind_some]

theorem joinWithNext_around {next : BufferLine} (h : Around s lines before [] (next :: more)) :
    s.joinWithNext = some { s with document := lines ++ (before ++ next) :: more } := by
  have hline : s.cursor.line = lines.length := by rw [h.cursor]
  have hnext : s.document[lines.length + 1]? = some next := by
    rw [h.document, append_nil]
    have hmid := getElem?_middle (lines ++ [before]) next more
    simpa only [append_assoc, List.singleton_append, length_append, length_singleton] using hmid
  have hset : setAt? s.document lines.length (before ++ next) = some (lines ++ (before ++ next) :: next :: more) := by
    rw [h.document]
    exact setAt?_middle _ _ _ _
  have herase : eraseSlice? (lines ++ (before ++ next) :: next :: more) (lines.length + 1)
      (lines.length + 2) = some (lines ++ (before ++ next) :: more) := by
    have hmid := eraseSlice?_middle (lines ++ [before ++ next]) [next] more
    simpa only [append_assoc, List.singleton_append, length_append, length_singleton] using hmid
  have hcur : s.document[lines.length]? = some before := by
    rw [h.document, append_nil]
    exact getElem?_middle _ _ _
  simp only [joinWithNext, hline, hcur, hnext, hset, herase, bind_eq_bind, bind_some]

theorem killToLineStart_outcome (hs : s.Inv) (h : Around s lines before after more)
    (hmerges : s.Merges lib .killToLineStart) (hstep : s.killToLineStart = some t) :
    Outcome lib (lines ++ [before]) (after :: more) .killToLineStart s t := by
  have hreach : s.reach lib .killToLineStart =
      if before ≠ [] then .sameLine else .ofBreak (0 < s.cursor.line) s.options.multiline := by
    simp only [reach, h.column, ne_eq, length_eq_zero_iff]
  have hcol : s.cursor.column ≠ 0 ↔ before ≠ [] := by rw [h.column, ne_eq, length_eq_zero_iff]
  simp only [killToLineStart, hs.ready_eq] at hstep
  split at hstep
  · next hprev =>
    rw [hcol] at hprev
    rw [if_pos hprev] at hreach
    have hfresh := fresh_of_takes hmerges (by rw [hreach]; rfl)
    have haround : Around { s with error := none }.pushUndo lines ([] ++ before) after more := h.congr rfl rfl
    have hremove := removeUntil_backward haround
    rw [List.length_nil] at hremove
    rw [hremove] at hstep
    cases hstep
    refine .inr ⟨by rw [hreach]; rfl, [before], true, ?_⟩
    have hok : LineOk before := fun segment hmem =>
      hs.sound.ok.get h.line segment (List.mem_append_left _ hmem)
    refine took_line hok hprev ⟨lines, [], after, more, ⟨rfl, rfl⟩, ?_, by rw [if_pos rfl]⟩
      ⟨rfl, rfl, rfl, rfl, rfl⟩ (.inr ⟨.inl hfresh, rfl⟩)
    rw [if_pos rfl, joinLines_cons, List.nil_append]
  next hstart =>
  rw [hcol, not_not] at hstart
  subst hstart
  rw [if_neg (not_not.2 rfl)] at hreach
  split at hstep
  · next hjoin =>
    rw [hjoin.2, decide_eq_true hjoin.1] at hreach
    have hfresh := fresh_of_takes hmerges (by rw [hreach]; rfl)
    have hlines : lines ≠ [] := by
      rintro rfl
      have hline : s.cursor.line = 0 := by rw [h.cursor]; rfl
      exact absurd hjoin.1 (by rw [hline]; exact lt_irrefl 0)
    obtain ⟨lines, previous, rfl⟩ := exists_concat hlines
    have haround : Around ({ s with error := none }.pushUndo.killed [0x0A] [[], []] true
        (decide (s.lastAction = LastAction.kill))) (lines ++ [previous]) [] after more := h.congr rfl rfl
    obtain rfl := Option.some.inj ((joinWithPrevious_around haround).symm.trans hstep)
    refine .inr ⟨by rw [hreach]; rfl, [[], []], true, ?_⟩
    exact {
      cut := ⟨lines, previous, after, more, ⟨rfl, rfl⟩, by simp [joinLines_append], rfl⟩
      nonempty := cons_ne_nil _ _
      text := cons_ne_nil _ _
      options := rfl
      pastes := rfl
      counter := rfl
      action := rfl
      ring := rfl
      entered := .inr ⟨.inl hfresh, rfl⟩ }
  · next hidle =>
    cases hstep
    exact outcome_idle hreach hidle

theorem killToLineEnd_outcome (hs : s.Inv) (h : Around s lines before after more)
    (hmerges : s.Merges lib .killToLineEnd) (hstep : s.killToLineEnd = some t) :
    Outcome lib (lines ++ [before]) (after :: more) .killToLineEnd s t := by
  have hcol : (before ++ after).length ≠ s.cursor.column ↔ after ≠ [] := by
    rw [h.column, length_append, ne_eq, ne_eq, ← length_eq_zero_iff]
    omega
  have hreach : s.reach lib .killToLineEnd = if after ≠ [] then .sameLine
      else .ofBreak (s.cursor.line + 1 < s.document.length) s.options.multiline := by
    simp only [reach, h.getD, hcol]
  simp only [killToLineEnd, hs.ready_eq, h.line, bind_eq_bind, bind_some] at hstep
  split at hstep
  · next hafter =>
    rw [hcol] at hafter
    rw [if_pos hafter] at hreach
    have hfresh := fresh_of_takes hmerges (by rw [hreach]; rfl)
    have haround : Around { s with error := none }.pushUndo lines before (after ++ []) more := by
      rw [append_nil]
      exact h.congr rfl rfl
    have hremove := removeUntil_forward haround
    rw [← length_append] at hremove
    rw [hremove] at hstep
    cases hstep
    refine .inr ⟨by rw [hreach]; rfl, [after], false, ?_⟩
    have hok : LineOk after := fun segment hmem =>
      hs.sound.ok.get h.line segment (List.mem_append_right _ hmem)
    exact took_line hok hafter ⟨lines, before, [], more, ⟨rfl, h.cursor⟩, by simp, by simp [joinLines]⟩
      ⟨rfl, rfl, rfl, rfl, rfl⟩ (.inr ⟨.inl hfresh, rfl⟩)
  next hend =>
  rw [hcol, not_not] at hend
  subst hend
  rw [if_neg (not_not.2 rfl)] at hreach
  split at hstep
  · next hjoin =>
    rw [hjoin.2, decide_eq_true hjoin.1] at hreach
    have hfresh := fresh_of_takes hmerges (by rw [hreach]; rfl)
    have hmore : more ≠ [] := by
      rintro rfl
      have hlen := hjoin.1
      rw [h.document, h.cursor, length_append, length_singleton] at hlen
      exact lt_irrefl _ hlen
    obtain ⟨next, more, rfl⟩ := List.exists_cons_of_ne_nil hmore
    have haround : Around ({ s with error := none }.pushUndo.killed [0x0A] [[], []] false
        (decide (s.lastAction = LastAction.kill))) lines before [] (next :: more) := h.congr rfl rfl
    obtain rfl := Option.some.inj ((joinWithNext_around haround).symm.trans hstep)
    refine .inr ⟨by rw [hreach]; rfl, [[], []], false, ?_⟩
    exact {
      cut := ⟨lines, before, next, more, ⟨rfl, h.cursor⟩, rfl, rfl⟩
      nonempty := cons_ne_nil _ _
      text := cons_ne_nil _ _
      options := rfl
      pastes := rfl
      counter := rfl
      action := rfl
      ring := rfl
      entered := .inr ⟨.inl hfresh, rfl⟩ }
  · next hidle =>
    cases hstep
    exact outcome_idle hreach hidle

end TextBuffer

end CodingHarness.Tui
