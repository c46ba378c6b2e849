import CodingHarness.Support.Json
import Mathlib.Data.List.Induction

/-!
# Bounded output

`bound_output` cuts a text to whole lines within limits, and `OutputBuffer` does the same for a stream
of chunks without keeping the stream: a head window stops storing once it is full, a tail window drops
what lies before the window, in `push` by whole chunks and in `snapshot` by bytes.

A tail window is found again as long as the stored text is the whole stream or longer than the window
by a byte or a line (`Reaches`). `snapshot_eq_boundOutput` says so for every run. `push` compares with
`max_bytes + 1` and `max_lines + 1` in `size_t`, so the largest limit wraps to zero and the buffer of
a tail window then drops what it needs (`unlimitedTail_drops`).
-/

namespace CodingHarness.Chord

open Support
open List (append_assoc append_nil length_append nil_append take_append_drop)

/-! ## Bytes and lines -/

/-- `kNewline`. -/
def newline : UInt8 := 0x0A

def countNewlines (text : Bytes) : Nat := text.count newline

def endsWithNewline (text : Bytes) : Bool := text.getLast? == some newline

def countLines (text : Bytes) : Nat :=
  if text.isEmpty then 0 else countNewlines text + (if endsWithNewline text then 0 else 1)

/-- Whether a byte continues a multibyte sequence. -/
def isContinuation (byte : UInt8) : Bool := byte &&& 0xC0 == 0x80

def sanitizeOutput : Bytes → Bytes
  | [] => []
  | byte :: rest =>
    if byte ≤ 0x08 || (0x0B ≤ byte && byte ≤ 0x1F) then sanitizeOutput rest
    else
      match rest with
      | second :: third :: after =>
        if byte == 0xEF && second == 0xBF && 0xB9 ≤ third && third ≤ 0xBB then
          sanitizeOutput after
        else byte :: sanitizeOutput (second :: third :: after)
      | rest => byte :: sanitizeOutput rest

/-- `text.find(kNewline, index)` over the bytes from `index` on. -/
def findNewlineFrom (index : Nat) : Bytes → Option Nat
  | [] => none
  | byte :: rest => if byte = newline then some index else findNewlineFrom (index + 1) rest

/-- `text.find(kNewline, from)`. -/
def findNewline (text : Bytes) (start : Nat) : Option Nat := findNewlineFrom start (text.drop start)

/-- `text.rfind(kNewline, last)`. -/
def rfindNewline (text : Bytes) : Nat → Option Nat
  | 0 => if text[0]? = some newline then some 0 else none
  | n + 1 => if text[n + 1]? = some newline then some (n + 1) else rfindNewline text n

def characterStart (text : Bytes) (index : Nat) : Nat := index + ((text.drop index).takeWhile isContinuation).length

/-- The walk of `character_end` back to the start of a sequence. -/
def characterEndLoop (text : Bytes) : Nat → Nat
  | 0 => 0
  | n + 1 => if text[n + 1]?.any isContinuation then characterEndLoop text n else n + 1

def characterEnd (text : Bytes) (index : Nat) : Nat :=
  if text.length ≤ index then text.length else characterEndLoop text index

/-! ## Windows -/

/-- Which end of the output is kept. -/
inductive OutputRetention where
  | head
  | tail
  deriving DecidableEq

/-- `OutputLimits`; a `size_t` has 64 bits. -/
structure OutputLimits where
  maxBytes : UInt64 := 0
  maxLines : UInt64 := 0
  retain : OutputRetention := .head
  deriving DecidableEq

def OutputLimits.isZero (limits : OutputLimits) : Bool := limits.maxLines == 0 || limits.maxBytes == 0

/-- The end of the line that reaches `maxLines`: the loop of `head_range` after `lines` newlines. -/
def lineEndLoop (maxLines : Nat) : Nat → Nat → Bytes → Option Nat
  | _, _, [] => none
  | lines, index, byte :: rest =>
    if byte = newline then
      if lines + 1 = maxLines then some (index + 1)
      else lineEndLoop maxLines (lines + 1) (index + 1) rest
    else lineEndLoop maxLines lines (index + 1) rest

/-- The end of the window of `head_range`. -/
def headEnd (text : Bytes) (limits : OutputLimits) : Nat := if limits.isZero then 0
  else
    let lineEnd := (lineEndLoop limits.maxLines.toNat 0 0 text).getD text.length
    let maxBytes := limits.maxBytes.toNat
    if maxBytes < lineEnd then
      match rfindNewline text (maxBytes - 1) with
      | none => characterEnd text maxBytes
      | some index => index + 1
    else lineEnd

/-- The start of the line that reaches `maxLines` from the end: the loop of `tail_range` at `index`
after `lines` lines. -/
def lineStartLoop (text : Bytes) (maxLines : Nat) : Nat → Nat → Nat
  | lines, 0 => if text[0]? = some newline ∧ lines = maxLines then 1 else 0
  | lines, n + 1 =>
    if text[n + 1]? = some newline then
      if lines = maxLines then n + 2 else lineStartLoop text maxLines (lines + 1) n
    else lineStartLoop text maxLines lines n

/-- The line start of `tail_range`. A trailing newline ends the last line rather than starting
another. -/
def lineStart (text : Bytes) (maxLines : Nat) : Nat := let skipped := if endsWithNewline text then 2 else 1
  if text.length < skipped then 0 else lineStartLoop text maxLines 1 (text.length - skipped)

/-- The first line of `tail_range` that starts inside the byte window, or a cut of the last line when
it alone is too long. -/
def cutStart (text : Bytes) (maxBytes : Nat) : Nat := let cut := text.length - maxBytes
  match findNewline text (if cut = 0 then 0 else cut - 1) with
  | some index => if index + 1 < text.length then index + 1 else characterStart text cut
  | none => characterStart text cut

/-- The start of the window of `tail_range`. -/
def tailStart (text : Bytes) (limits : OutputLimits) : Nat := if limits.isZero then text.length
  else
    let start := lineStart text limits.maxLines.toNat
    if limits.maxBytes.toNat < text.length - start then cutStart text limits.maxBytes.toNat
    else start

/-- The line start of `tail_margin` at `index` after `newlines` newlines. -/
def marginLoop (text : Bytes) (maxLines : Nat) : Nat → Nat → Nat
  | _, 0 => 0
  | newlines, n + 1 =>
    if text[n + 1]? = some newline then
      if maxLines < newlines + 1 then n + 1 else marginLoop text maxLines (newlines + 1) n
    else marginLoop text maxLines newlines n

def tailMargin (text : Bytes) (limits : OutputLimits) : Bytes := let maxBytes := limits.maxBytes.toNat
  let byteStart := if maxBytes < text.length then characterEnd text (text.length - maxBytes - 1) else 0
  let lineStart := marginLoop text limits.maxLines.toNat 0 (text.length - 1)
  text.drop (max byteStart lineStart)

structure OutputSlice where
  text : Bytes
  bytes : Nat
  droppedBytes : Nat
  droppedLines : Nat
  deriving DecidableEq

def boundOutput (text : Bytes) (limits : OutputLimits) : OutputSlice := let kept := match limits.retain with
    | .head => text.take (headEnd text limits)
    | .tail => text.drop (tailStart text limits)
  { text := kept
    bytes := kept.length
    droppedBytes := text.length - kept.length
    droppedLines := countLines text - countLines kept }

/-! ## The buffer -/

/-- `OutputBuffer::StoredChunk`. -/
structure StoredChunk where
  text : Bytes
  bytes : Nat
  newlines : Nat
  deriving DecidableEq

/-- The chunks that are kept, and what is known of the whole output. -/
structure OutputBuffer where
  limits : OutputLimits
  chunks : List StoredChunk := []
  storedBytes : Nat := 0
  storedNewlines : Nat := 0
  full : Bool := false
  totalBytes : Nat := 0
  totalNewlines : Nat := 0
  endsWithNewline : Bool := true
  deriving DecidableEq

/-- A cut of the output, with the counts of the whole. -/
structure BoundedOutput where
  text : Bytes
  droppedBytes : Nat
  droppedLines : Nat
  deriving DecidableEq

namespace OutputBuffer

/-- Drop leading chunks while the rest holds more than a window. The sums with one are `size_t`. -/
def dropLeading (limits : OutputLimits) : Nat → Nat → List StoredChunk → Nat × Nat × List StoredChunk
  | bytes, newlines, first :: second :: rest =>
    let bytesAfter := bytes - first.bytes
    let newlinesAfter := newlines - first.newlines
    if bytesAfter ≤ (limits.maxBytes + 1).toNat ∧ newlinesAfter ≤ (limits.maxLines + 1).toNat then
      (bytes, newlines, first :: second :: rest)
    else dropLeading limits bytesAfter newlinesAfter (second :: rest)
  | bytes, newlines, chunks => (bytes, newlines, chunks)

/-- The totals of `OutputBuffer::push`. -/
def counting (buffer : OutputBuffer) (chunk : Bytes) : OutputBuffer := { buffer with
    totalBytes := buffer.totalBytes + chunk.length
    totalNewlines := buffer.totalNewlines + countNewlines chunk
    endsWithNewline := Chord.endsWithNewline chunk }

/-- `OutputBuffer::push`. -/
def push (buffer : OutputBuffer) (chunk : Bytes) : OutputBuffer := if chunk.isEmpty then buffer
  else if buffer.full then buffer.counting chunk
  else
    let chunks := buffer.chunks ++ [⟨chunk, chunk.length, countNewlines chunk⟩]
    let storedBytes := buffer.storedBytes + chunk.length
    let storedNewlines := buffer.storedNewlines + countNewlines chunk
    match buffer.limits.retain with
    | .head =>
      { buffer.counting chunk with
        chunks, storedBytes, storedNewlines
        full := decide (buffer.limits.maxBytes.toNat < storedBytes) ||
          decide (buffer.limits.maxLines.toNat ≤ storedNewlines) }
    | .tail =>
      let (storedBytes, storedNewlines, chunks) := dropLeading buffer.limits storedBytes storedNewlines chunks
      { buffer.counting chunk with chunks, storedBytes, storedNewlines }

def stored (buffer : OutputBuffer) : Bytes := buffer.chunks.flatMap StoredChunk.text

def trimmed (buffer : OutputBuffer) : Bytes :=
  if buffer.limits.retain = .tail then tailMargin buffer.stored buffer.limits else buffer.stored

/-- The buffer after `OutputBuffer::snapshot`. -/
def trim (buffer : OutputBuffer) : OutputBuffer := if buffer.limits.retain = .tail ∨ 1 < buffer.chunks.length then
    let text := buffer.trimmed
    let bytes := if buffer.limits.retain = .tail then text.length else buffer.storedBytes
    if text.isEmpty then { buffer with chunks := [], storedBytes := 0, storedNewlines := 0 }
    else
      { buffer with
        chunks := [⟨text, bytes, countNewlines text⟩]
        storedBytes := bytes
        storedNewlines := countNewlines text }
  else buffer

def keptLines (buffer : OutputBuffer) : Nat :=
  countLines buffer.stored - (boundOutput buffer.stored buffer.limits).droppedLines

def totalLines (buffer : OutputBuffer) : Nat := buffer.totalNewlines + (if buffer.endsWithNewline then 0 else 1)

/-- The result of `OutputBuffer::snapshot`. -/
def output (buffer : OutputBuffer) : BoundedOutput := let kept := boundOutput buffer.stored buffer.limits
  { text := sanitizeOutput kept.text
    droppedBytes := buffer.totalBytes - kept.bytes
    droppedLines := buffer.totalLines - buffer.keptLines }

/-- `OutputBuffer::snapshot`. -/
def snapshot (buffer : OutputBuffer) : OutputBuffer × BoundedOutput := (buffer.trim, buffer.output)

end OutputBuffer

/-- A call on a buffer. -/
inductive OutputCall where
  | push (chunk : Bytes)
  | snapshot

def OutputBuffer.call (buffer : OutputBuffer) : OutputCall → OutputBuffer
  | .push chunk => buffer.push chunk
  | .snapshot => buffer.snapshot.1

def OutputBuffer.run (limits : OutputLimits) (calls : List OutputCall) : OutputBuffer :=
  calls.foldl OutputBuffer.call { limits := limits }

def pushedBytes (calls : List OutputCall) : Bytes := calls.flatMap fun call =>
    match call with
    | .push chunk => chunk
    | .snapshot => []

/-! ## Lines of a part -/

@[simp] theorem countNewlines_append (a b : Bytes) :
    countNewlines (a ++ b) = countNewlines a + countNewlines b := List.count_append

variable {a b : Bytes}

theorem endsWithNewline_append (hb : b ≠ []) : endsWithNewline (a ++ b) = endsWithNewline b := by
  rw [endsWithNewline, endsWithNewline, List.getLast?_append_of_ne_nil _ hb]

variable {text : Bytes}

theorem countNewlines_pos_of_endsWithNewline (h : endsWithNewline text = true) : 0 < countNewlines text := by
  rw [endsWithNewline, beq_iff_eq] at h
  exact List.count_pos_iff.2 (List.mem_of_getLast? h)

theorem countLines_of_ne_nil (h : text ≠ []) :
    countLines text = countNewlines text + (if endsWithNewline text then 0 else 1) := by
  cases text with
  | nil => exact absurd rfl h
  | cons byte rest => rfl

theorem countLines_pos (h : text ≠ []) : 0 < countLines text := by
  rw [countLines_of_ne_nil h]
  cases hend : endsWithNewline text with
  | true =>
    have hpos := countNewlines_pos_of_endsWithNewline hend
    omega
  | false => simp

theorem countLines_suffix_le (a b : Bytes) : countLines b ≤ countLines (a ++ b) := by
  by_cases hb : b = []
  · rw [hb]
    exact Nat.zero_le _
  have hab : a ++ b ≠ [] := by simp [hb]
  rw [countLines_of_ne_nil hb, countLines_of_ne_nil hab, endsWithNewline_append hb, countNewlines_append]
  omega

theorem countLines_prefix_le (a b : Bytes) : countLines a ≤ countLines (a ++ b) := by
  by_cases hb : b = []
  · rw [hb, append_nil]
  by_cases ha : a = []
  · rw [ha]
    exact Nat.zero_le _
  have hab : a ++ b ≠ [] := by simp [hb]
  have hpos := countLines_pos hb
  rw [countLines_of_ne_nil hb] at hpos
  rw [countLines_of_ne_nil ha, countLines_of_ne_nil hab, endsWithNewline_append hb, countNewlines_append]
  have hone : (if endsWithNewline a then 0 else 1) ≤ 1 := by split <;> omega
  omega

/-- The bound of a text keeps a part of it, so neither difference goes below zero. -/
theorem boundOutput_le (text : Bytes) (limits : OutputLimits) : (boundOutput text limits).bytes ≤ text.length ∧
      countLines (boundOutput text limits).text ≤ countLines text := by
  unfold boundOutput
  cases limits.retain with
  | head =>
    have hlines := countLines_prefix_le (text.take (headEnd text limits)) (text.drop (headEnd text limits))
    rw [take_append_drop] at hlines
    exact ⟨by simp, hlines⟩
  | tail =>
    have hlines := countLines_suffix_le (text.take (tailStart text limits)) (text.drop (tailStart text limits))
    rw [take_append_drop] at hlines
    exact ⟨by simp, hlines⟩

variable {limits : OutputLimits}

theorem limits_ne_zero (h : limits.isZero = false) : limits.maxLines.toNat ≠ 0 ∧ limits.maxBytes.toNat ≠ 0 := by
  simp only [OutputLimits.isZero, Bool.or_eq_false_iff, beq_eq_false_iff_ne, ne_eq] at h
  exact ⟨fun hlines => h.1 (UInt64.toNat_inj.1 hlines), fun hbytes => h.2 (UInt64.toNat_inj.1 hbytes)⟩

/-! ## A head window -/

theorem lineEndLoop_append (maxLines lines index : Nat) (a b : Bytes) : lineEndLoop maxLines lines index (a ++ b)
      = (lineEndLoop maxLines lines index a).or
          (lineEndLoop maxLines (lines + countNewlines a) (index + a.length) b) := by
  induction a generalizing lines index with
  | nil => simp [lineEndLoop, countNewlines]
  | cons byte rest ih =>
    rw [List.cons_append, lineEndLoop, lineEndLoop]
    by_cases hbyte : byte = newline
    · rw [if_pos hbyte, if_pos hbyte]
      split
      · rfl
      rw [ih]
      have hcount : countNewlines (byte :: rest) = countNewlines rest + 1 := by
        simp [countNewlines, hbyte]
      rw [hcount, List.length_cons]
      congr 2 <;> omega
    rw [if_neg hbyte, if_neg hbyte, ih]
    have hcount : countNewlines (byte :: rest) = countNewlines rest := by
      simp [countNewlines, List.count_cons_of_ne hbyte]
    rw [hcount, List.length_cons]
    congr 2
    omega

variable {maxLines lines index : Nat}

theorem lineEndLoop_bounds {e : Nat}
    (h : lineEndLoop maxLines lines index text = some e) : index < e ∧ e ≤ index + text.length := by
  induction text generalizing lines index with
  | nil => cases h
  | cons byte rest ih =>
    rw [lineEndLoop] at h
    rw [List.length_cons]
    split at h
    · split at h
      · cases h
        omega
      · have := ih h
        omega
    · have := ih h
      omega

theorem lineEndLoop_isSome {text : Bytes} (hlines : lines < maxLines) (h : maxLines ≤ lines + countNewlines text) :
    ∃ e, lineEndLoop maxLines lines index text = some e := by
  induction text generalizing lines index with
  | nil =>
    simp only [countNewlines, List.count_nil] at h
    omega
  | cons byte rest ih =>
    rw [lineEndLoop]
    by_cases hbyte : byte = newline
    · have hcount : countNewlines (byte :: rest) = countNewlines rest + 1 := by
        simp [countNewlines, hbyte]
      rw [if_pos hbyte]
      split
      · exact ⟨_, rfl⟩
      apply ih
      · omega
      · omega
    have hcount : countNewlines (byte :: rest) = countNewlines rest := by
      simp [countNewlines, List.count_cons_of_ne hbyte]
    rw [if_neg hbyte]
    exact ih hlines (by omega)

theorem rfindNewline_append (b : Bytes) {last : Nat} (h : last < a.length) :
    rfindNewline (a ++ b) last = rfindNewline a last := by
  induction last with
  | zero => rw [rfindNewline, rfindNewline, List.getElem?_append_left h]
  | succ n ih => rw [rfindNewline, rfindNewline, List.getElem?_append_left h, ih (by omega)]

theorem characterEndLoop_append (b : Bytes) (h : index < a.length) :
    characterEndLoop (a ++ b) index = characterEndLoop a index := by
  induction index with
  | zero => rfl
  | succ n ih =>
    rw [characterEndLoop, characterEndLoop, List.getElem?_append_left h, ih (by omega)]

theorem characterEndLoop_le (text : Bytes) (index : Nat) : characterEndLoop text index ≤ index := by
  induction index with
  | zero => exact le_refl _
  | succ n ih =>
    rw [characterEndLoop]
    split
    · omega
    · exact le_refl _

theorem rfindNewline_le {last : Nat} (h : rfindNewline text last = some index) : index ≤ last := by
  induction last with
  | zero =>
    rw [rfindNewline] at h
    split at h
    · cases h
      exact le_refl _
    · cases h
  | succ n ih =>
    rw [rfindNewline] at h
    split at h
    · cases h
      exact le_refl _
    · have := ih h
      omega

theorem headEnd_le (text : Bytes) (limits : OutputLimits) : headEnd text limits ≤ text.length := by
  unfold headEnd
  split
  · exact Nat.zero_le _
  next hzero =>
  have hline : (lineEndLoop limits.maxLines.toNat 0 0 text).getD text.length ≤ text.length := by
    cases hloop : lineEndLoop limits.maxLines.toNat 0 0 text with
    | none => exact le_refl _
    | some e =>
      have := lineEndLoop_bounds hloop
      simp only [Option.getD_some]
      omega
  dsimp only
  split
  · next hlong =>
    cases hfind : rfindNewline text (limits.maxBytes.toNat - 1) with
    | none =>
      simp only [characterEnd]
      split
      · exact le_refl _
      · have := characterEndLoop_le text limits.maxBytes.toNat
        omega
    | some index =>
      have := rfindNewline_le hfind
      simp only
      omega
  · exact hline

/-- **A full head window does not move.** -/
theorem headEnd_append (b : Bytes) (h : limits.maxBytes.toNat < a.length ∨ limits.maxLines.toNat ≤ countNewlines a) :
    headEnd (a ++ b) limits = headEnd a limits := by
  unfold headEnd
  cases hzero : limits.isZero with
  | true => rfl
  | false =>
    simp only [Bool.false_eq_true, if_false]
    have hlimits := limits_ne_zero hzero
    -- Up to the byte limit, the two texts are the same.
    have hcut : limits.maxBytes.toNat < a.length → rfindNewline (a ++ b) (limits.maxBytes.toNat - 1)
            = rfindNewline a (limits.maxBytes.toNat - 1) ∧
          characterEnd (a ++ b) limits.maxBytes.toNat = characterEnd a limits.maxBytes.toNat := by
      intro hlt
      refine ⟨rfindNewline_append b (by omega), ?_⟩
      rw [characterEnd, characterEnd, if_neg (by rw [length_append]; omega),
        if_neg (by omega), characterEndLoop_append b hlt]
    rw [lineEndLoop_append]
    cases hline : lineEndLoop limits.maxLines.toNat 0 0 a with
    | some e =>
      have he := lineEndLoop_bounds hline
      rw [Option.some_or, Option.getD_some, Option.getD_some]
      by_cases hlt : limits.maxBytes.toNat < e
      · obtain ⟨hfind, hend⟩ := hcut (by omega)
        rw [if_pos hlt, if_pos hlt, hfind, hend]
      · rw [if_neg hlt, if_neg hlt]
    | none =>
      have hbytes : limits.maxBytes.toNat < a.length := by
        rcases h with h | h
        · exact h
        obtain ⟨e, he⟩ := @lineEndLoop_isSome limits.maxLines.toNat 0 0 a (by omega) (by omega)
        rw [hline] at he
        cases he
      obtain ⟨hfind, hend⟩ := hcut hbytes
      rw [Option.none_or, Option.getD_none, if_pos hbytes, hfind, hend]
      have hlater : a.length ≤ (lineEndLoop limits.maxLines.toNat (0 + countNewlines a)
          (0 + a.length) b).getD (a ++ b).length := by
        cases hrest : lineEndLoop limits.maxLines.toNat (0 + countNewlines a) (0 + a.length) b with
        | none => simp
        | some e =>
          have := lineEndLoop_bounds hrest
          simp only [Option.getD_some]
          omega
      rw [if_pos (by omega)]

/-! ## A tail window -/

/-- The text holds more than a window: a byte or a line more, or the one byte of a window that ends
with a newline. -/
def Reaches (limits : OutputLimits) (text : Bytes) : Prop :=
  limits.maxBytes.toNat < text.length ∨ limits.maxLines.toNat < countNewlines text ∨
    (limits.maxBytes.toNat = 1 ∧ 0 < countNewlines text)

theorem Reaches.ne_nil (h : Reaches limits text) : text ≠ [] := by
  rintro rfl
  rcases h with h | h | ⟨-, h⟩
  · exact absurd h (Nat.not_lt_zero _)
  · exact absurd h (Nat.not_lt_zero _)
  · exact absurd h (Nat.not_lt_zero _)

theorem Reaches.append (h : Reaches limits text) (more : Bytes) : Reaches limits (text ++ more) := by
  unfold Reaches
  rw [length_append, countNewlines_append]
  rcases h with h | h | ⟨hone, h⟩
  · exact .inl (by omega)
  · exact .inr (.inl (by omega))
  · exact .inr (.inr ⟨hone, by omega⟩)

theorem countNewlines_take_succ (text : Bytes) (n : Nat) : countNewlines (text.take (n + 1))
      = countNewlines (text.take n) + (if text[n]? = some newline then 1 else 0) := by
  rw [List.take_add_one, countNewlines_append]
  cases text[n]? with
  | none => rfl
  | some byte =>
    by_cases hbyte : byte = newline
    · simp [countNewlines, hbyte]
    · simp [countNewlines, hbyte]

theorem countNewlines_drop (text : Bytes) (n : Nat) : countNewlines (text.drop n)
      = countNewlines (text.drop (n + 1)) + (if text[n]? = some newline then 1 else 0) := by
  have hwhole : countNewlines (text.take n) + countNewlines (text.drop n) = countNewlines text := by
    rw [← countNewlines_append, take_append_drop]
  have hnext : countNewlines (text.take (n + 1)) + countNewlines (text.drop (n + 1)) = countNewlines text := by
    rw [← countNewlines_append, take_append_drop]
  rw [countNewlines_take_succ] at hnext
  omega

theorem lineStartLoop_le (text : Bytes) (maxLines lines n : Nat) : lineStartLoop text maxLines lines n ≤ n + 1 := by
  induction n generalizing lines with
  | zero =>
    rw [lineStartLoop]
    split <;> omega
  | succ n ih =>
    have hskip := ih lines
    have hcount := ih (lines + 1)
    rw [lineStartLoop]
    split
    · split <;> omega
    · omega

theorem getElem?_append_add (a b : Bytes) (n : Nat) : (a ++ b)[a.length + n]? = b[n]? := by
  rw [List.getElem?_append_right (Nat.le_add_right _ _), Nat.add_sub_cancel_left]

theorem lineStartLoop_append (a b : Bytes) (n : Nat) (hlines : lines ≤ maxLines) :
    lineStartLoop (a ++ b) maxLines lines (a.length + n) = a.length + lineStartLoop b maxLines lines n ∨
      (lineStartLoop b maxLines lines n = 0 ∧ lineStartLoop (a ++ b) maxLines lines (a.length + n) ≤ a.length ∧
        lines + countNewlines (b.take (n + 1)) ≤ maxLines) := by
  induction n generalizing lines with
  | zero =>
    have hbyte := getElem?_append_add a b 0
    have hcount := countNewlines_take_succ b 0
    rw [List.take_zero] at hcount
    cases hlen : a.length with
    | zero =>
      left
      rw [List.length_eq_zero_iff.1 hlen, nil_append, Nat.zero_add, Nat.zero_add]
    | succ m =>
      have hskip := lineStartLoop_le (a ++ b) maxLines lines m
      have hnext := lineStartLoop_le (a ++ b) maxLines (lines + 1) m
      rw [hlen, Nat.add_zero] at hbyte
      rw [Nat.add_zero, lineStartLoop, lineStartLoop, hbyte]
      by_cases hnewline : b[0]? = some newline
      · rw [if_pos hnewline]
        rw [if_pos hnewline] at hcount
        by_cases hlast : lines = maxLines
        · left
          rw [if_pos hlast, if_pos ⟨hnewline, hlast⟩]
        right
        rw [if_neg hlast, if_neg (fun h => hlast h.2)]
        refine ⟨rfl, hnext, ?_⟩
        rw [hcount]
        simp only [countNewlines, List.count_nil]
        omega
      right
      rw [if_neg hnewline, if_neg (fun h => hnewline h.1)]
      rw [if_neg hnewline] at hcount
      refine ⟨rfl, hskip, ?_⟩
      rw [hcount]
      simp only [countNewlines, List.count_nil]
      omega
  | succ n ih =>
    have hbyte := getElem?_append_add a b (n + 1)
    have hcount := countNewlines_take_succ b (n + 1)
    rw [← Nat.add_assoc] at hbyte ⊢
    rw [lineStartLoop, lineStartLoop, hbyte, hcount]
    by_cases hnewline : b[n + 1]? = some newline
    · rw [if_pos hnewline, if_pos hnewline, if_pos hnewline]
      by_cases hlast : lines = maxLines
      · rw [if_pos hlast, if_pos hlast]
        omega
      rw [if_neg hlast, if_neg hlast]
      rcases @ih (lines + 1) (by omega) with h | ⟨hzero, hle, hfew⟩
      · exact .inl h
      · exact .inr ⟨hzero, hle, by omega⟩
    rw [if_neg hnewline, if_neg hnewline, if_neg hnewline]
    rcases @ih lines hlines with h | ⟨hzero, hle, hfew⟩
    · exact .inl h
    · exact .inr ⟨hzero, hle, by omega⟩

theorem countNewlines_dropLast (h : endsWithNewline text = true) :
    countNewlines (text.take (text.length - 1)) + 1 = countNewlines text := by
  have hlast : text[text.length - 1]? = some newline := by
    rw [endsWithNewline, beq_iff_eq, List.getLast?_eq_getElem?] at h
    exact h
  have hpos : 0 < text.length := by
    have hlt := (List.getElem?_eq_some_iff.1 hlast).1
    omega
  have hcount := countNewlines_take_succ text (text.length - 1)
  rw [if_pos hlast, Nat.sub_add_cancel hpos, List.take_length] at hcount
  exact hcount.symm

theorem lineStart_append (a : Bytes) (hlines : maxLines ≠ 0)
    (hb : b ≠ []) (hshort : endsWithNewline b = true → 1 < b.length) :
    lineStart (a ++ b) maxLines = a.length + lineStart b maxLines ∨
      (lineStart b maxLines = 0 ∧ lineStart (a ++ b) maxLines ≤ a.length ∧ countNewlines b ≤ maxLines) := by
  have hpos := List.length_pos_iff.2 hb
  have hone : 1 ≤ maxLines := Nat.one_le_iff_ne_zero.2 hlines
  unfold lineStart
  rw [endsWithNewline_append hb, length_append]
  cases hend : endsWithNewline b with
  | true =>
    have hlong := hshort hend
    have hdrop := countNewlines_dropLast hend
    simp only [if_true]
    rw [if_neg (by omega), if_neg (by omega), Nat.add_sub_assoc (by omega)]
    rcases lineStartLoop_append a b (b.length - 2) hone with h | ⟨hzero, hle, hfew⟩
    · exact .inl h
    · rw [show b.length - 2 + 1 = b.length - 1 by omega] at hfew
      omega
  | false =>
    simp only [Bool.false_eq_true, if_false]
    rw [if_neg (by omega), if_neg (by omega), Nat.add_sub_assoc (by omega)]
    rcases lineStartLoop_append a b (b.length - 1) hone with h | ⟨hzero, hle, hfew⟩
    · exact .inl h
    · rw [Nat.sub_add_cancel hpos, List.take_length] at hfew
      omega

theorem findNewlineFrom_add (offset index : Nat) (text : Bytes) :
    findNewlineFrom (offset + index) text = (findNewlineFrom index text).map (offset + ·) := by
  induction text generalizing index with
  | nil => rfl
  | cons byte rest ih =>
    rw [findNewlineFrom, findNewlineFrom]
    split
    · rfl
    · exact ih (index + 1)

theorem cutStart_append (a : Bytes) {maxBytes : Nat} (h : maxBytes < b.length) :
    cutStart (a ++ b) maxBytes = a.length + cutStart b maxBytes := by
  have hcut : (a ++ b).length - maxBytes = a.length + (b.length - maxBytes) := by
    rw [length_append, Nat.add_sub_assoc (by omega)]
  have hdrop : ∀ n, (a ++ b).drop (a.length + n) = b.drop n := fun n => by simp [List.drop_append]
  have hcharacter : characterStart (a ++ b) (a.length + (b.length - maxBytes))
      = a.length + characterStart b (b.length - maxBytes) := by
    rw [characterStart, characterStart, hdrop, Nat.add_assoc]
  have hfind : findNewline (a ++ b) (a.length + (b.length - maxBytes - 1))
      = (findNewline b (b.length - maxBytes - 1)).map (a.length + ·) := by
    rw [findNewline, findNewline, hdrop, findNewlineFrom_add]
  unfold cutStart
  simp only [hcut]
  rw [if_neg (by omega), if_neg (by omega), Nat.add_sub_assoc (by omega), hfind, hcharacter]
  cases findNewline b (b.length - maxBytes - 1) with
  | none => rfl
  | some index =>
    simp only [Option.map_some, length_append]
    split
    · rw [if_pos (by omega), Nat.add_assoc]
    · rw [if_neg (by omega)]

theorem cutStart_newline (front : Bytes) (byte : UInt8) :
    cutStart (front ++ [byte, newline]) 1 = front.length + 1 := by
  have hcut : (front ++ [byte, newline]).length - 1 = front.length + 1 := by simp
  have hcharacter : characterStart (front ++ [byte, newline]) (front.length + 1) = front.length + 1 := by
    have hdrop : (front ++ [byte, newline]).drop (front.length + 1) = [newline] := by
      simp [List.drop_append]
    rw [characterStart, hdrop]
    rfl
  unfold cutStart
  simp only [hcut]
  rw [if_neg (by omega), Nat.add_sub_cancel, findNewline, List.drop_left, findNewlineFrom, hcharacter]
  by_cases hbyte : byte = newline
  · rw [if_pos hbyte]
    simp
  · rw [if_neg hbyte, findNewlineFrom, if_pos rfl]
    simp

theorem tailStart_newline (a : Bytes) (hzero : limits.isZero = false)
    (hone : limits.maxBytes.toNat = 1) : tailStart (a ++ [newline]) limits = a.length := by
  have hends : endsWithNewline (a ++ [newline]) = true := endsWithNewline_append (List.cons_ne_nil _ _)
  have hle : lineStart (a ++ [newline]) limits.maxLines.toNat ≤ a.length := by
    unfold lineStart
    simp only [hends, if_true, length_append, List.length_singleton]
    split
    · exact Nat.zero_le _
    · have h := lineStartLoop_le (a ++ [newline]) limits.maxLines.toNat 1 (a.length + 1 - 2)
      omega
  unfold tailStart
  simp only [hzero, Bool.false_eq_true, if_false, hone, length_append, List.length_singleton]
  by_cases hlong : 1 < a.length + 1 - lineStart (a ++ [newline]) limits.maxLines.toNat
  · rw [if_pos hlong]
    rcases List.eq_nil_or_concat' a with rfl | ⟨front, byte, rfl⟩
    · rw [List.length_nil] at hlong
      omega
    · rw [append_assoc, length_append]
      exact cutStart_newline front byte
  · rw [if_neg hlong]
    omega

/-- **A tail window is found in the last part of a text that reaches beyond it.** -/
theorem tailStart_append (a : Bytes) (h : limits.isZero = true ∨ a = [] ∨ Reaches limits b):
    tailStart (a ++ b) limits = a.length + tailStart b limits := by
  rcases h with hzero | rfl | h
  · rw [tailStart, tailStart, if_pos hzero, if_pos hzero, length_append]
  · rw [nil_append, List.length_nil, Nat.zero_add]
  · cases hzero : limits.isZero with
    | true => rw [tailStart, tailStart, if_pos hzero, if_pos hzero, length_append]
    | false =>
      obtain ⟨hlines, hbytes⟩ := limits_ne_zero hzero
      have hpos := List.length_pos_iff.2 h.ne_nil
      by_cases hsingle : b = [newline]
      · -- One newline reaches beyond a window of one byte only.
        have hone : limits.maxBytes.toNat = 1 := by
          rcases h with h | h | ⟨h, -⟩
          · rw [hsingle, List.length_singleton] at h
            omega
          · rw [hsingle] at h
            have : countNewlines [newline] = 1 := rfl
            omega
          · exact h
        have hb := tailStart_newline [] hzero hone
        rw [hsingle, tailStart_newline a hzero hone]
        rw [nil_append] at hb
        rw [hb, List.length_nil, Nat.add_zero]
      have hshort : endsWithNewline b = true → 1 < b.length := by
        intro hend
        by_contra hle
        obtain ⟨byte, rfl⟩ := List.length_eq_one_iff.1 (show b.length = 1 by omega)
        rw [endsWithNewline, List.getLast?_singleton, beq_iff_eq, Option.some_inj] at hend
        exact hsingle (by rw [hend])
      have hstart := lineStart_append a hlines h.ne_nil hshort
      unfold tailStart
      simp only [hzero, Bool.false_eq_true, if_false, length_append]
      rcases hstart with hstart | ⟨hfirst, hle, hfew⟩
      · rw [hstart, Nat.add_sub_add_left]
        split
        · exact cutStart_append a (by omega)
        · rfl
      -- Too few lines, so the bytes are too many and both texts are cut there.
      have hlong : limits.maxBytes.toNat < b.length := by
        rcases h with h | h | ⟨hone, hnewline⟩
        · exact h
        · omega
        · by_contra hle
          obtain ⟨byte, rfl⟩ := List.length_eq_one_iff.1 (show b.length = 1 by omega)
          have hmem := List.count_pos_iff.1 hnewline
          rw [List.mem_singleton] at hmem
          exact hsingle (by rw [hmem])
      rw [if_pos (by omega), if_pos (by omega), cutStart_append a hlong]

theorem characterEnd_le_of_lt (h : index < text.length) : characterEnd text index ≤ index := by
  rw [characterEnd, if_neg (Nat.not_le.2 h)]
  exact characterEndLoop_le text index

theorem marginLoop_reaches {newlines n : Nat} (h : newlines = countNewlines (text.drop (n + 1))) :
    marginLoop text maxLines newlines n = 0 ∨
      maxLines < countNewlines (text.drop (marginLoop text maxLines newlines n)) := by
  induction n generalizing newlines with
  | zero => exact .inl rfl
  | succ n ih =>
    have hdrop := countNewlines_drop text (n + 1)
    rw [marginLoop]
    by_cases hnewline : text[n + 1]? = some newline
    · rw [if_pos hnewline] at hdrop
      rw [if_pos hnewline]
      split
      · omega
      · exact ih (by omega)
    rw [if_neg hnewline] at hdrop
    rw [if_neg hnewline]
    exact ih (by omega)

/-- The margin is the whole text or a last part that reaches beyond the window. -/
theorem tailMargin_suffix (text : Bytes) (limits : OutputLimits) : ∃ before, text = before ++ tailMargin text limits ∧
      (before = [] ∨ Reaches limits (tailMargin text limits)) := by
  unfold tailMargin
  dsimp only
  generalize hbyte : (if limits.maxBytes.toNat < text.length then
    characterEnd text (text.length - limits.maxBytes.toNat - 1) else 0) = byteStart
  generalize hline : marginLoop text limits.maxLines.toNat 0 (text.length - 1) = lineStart
  refine ⟨text.take (max byteStart lineStart), (take_append_drop _ _).symm, ?_⟩
  rcases Nat.le_total lineStart byteStart with hle | hle
  · rw [max_eq_left hle]
    split at hbyte
    · next hlong =>
      have hend := characterEnd_le_of_lt (show text.length - limits.maxBytes.toNat - 1 < text.length by omega)
      right
      left
      rw [List.length_drop]
      omega
    · left
      rw [← hbyte, List.take_zero]
  rw [max_eq_right hle]
  have hend : countNewlines (text.drop (text.length - 1 + 1)) = 0 := by
    rw [List.drop_of_length_le (by omega)]
    rfl
  rcases marginLoop_reaches hend.symm with h | h
  · left
    rw [← hline, h, List.take_zero]
  · rw [hline] at h
    exact .inr (.inr (.inl h))

/-! ## Runs -/

/-- The limits that a buffer keeps to: of a tail window that keeps anything, neither limit is the
largest `size_t`, except a line limit beside a byte limit of one. -/
def OutputLimits.Fits (limits : OutputLimits) : Prop :=
  limits.retain = .head ∨ limits.maxBytes = 0 ∨ limits.maxLines = 0 ∨
    (limits.maxBytes ≠ -1 ∧ (limits.maxLines ≠ -1 ∨ limits.maxBytes = 1))

instance (limits : OutputLimits) : Decidable limits.Fits := by
  unfold OutputLimits.Fits
  infer_instance

theorem isZero_iff (limits : OutputLimits) : limits.isZero = true ↔ limits.maxLines = 0 ∨ limits.maxBytes = 0 := by
  simp [OutputLimits.isZero]

/-- The part of the stream that a buffer keeps, by its window. -/
def Window (limits : OutputLimits) (full : Bool) (text stored : Bytes) : Prop := match limits.retain with
  | .head =>
    ∃ after, text = stored ++ after ∧ if full then
        limits.maxBytes.toNat < stored.length ∨ limits.maxLines.toNat ≤ countNewlines stored
      else after = []
  | .tail =>
    full = false ∧ ∃ before, text = before ++ stored ∧
      (limits.isZero = true ∨ before = [] ∨ Reaches limits stored)

theorem Window.boundOutput_text {full : Bool} {text stored : Bytes} (h : Window limits full text stored) :
    (boundOutput text limits).text = (boundOutput stored limits).text := by
  unfold Window at h
  unfold boundOutput
  cases hretain : limits.retain with
  | head =>
    simp only [hretain] at h ⊢
    obtain ⟨after, rfl, hfull⟩ := h
    cases full with
    | true =>
      rw [headEnd_append after hfull, List.take_append_of_le_length (headEnd_le stored limits)]
    | false =>
      rw [hfull, append_nil]
  | tail =>
    simp only [hretain] at h ⊢
    obtain ⟨-, before, rfl, hreach⟩ := h
    rw [tailStart_append before hreach]
    simp [List.drop_append]

/-- The counts of a chunk are those of its text. -/
def StoredChunk.Counted (chunk : StoredChunk) : Prop :=
  chunk.bytes = chunk.text.length ∧ chunk.newlines = countNewlines chunk.text

/-- The totals of a buffer are those of the stream `text`. -/
structure OutputBuffer.Totals (buffer : OutputBuffer) (text : Bytes) : Prop where
  totalBytes : buffer.totalBytes = text.length
  totalNewlines : buffer.totalNewlines = countNewlines text
  ends : buffer.endsWithNewline = (text.isEmpty || Chord.endsWithNewline text)

/-- A buffer after the stream `text`. -/
structure OutputBuffer.Holds (buffer : OutputBuffer) (text : Bytes) : Prop where
  totals : buffer.Totals text
  counted : ∀ chunk ∈ buffer.chunks, chunk.Counted
  storedBytes : buffer.storedBytes = buffer.stored.length
  storedNewlines : buffer.storedNewlines = countNewlines buffer.stored
  window : Window buffer.limits buffer.full text buffer.stored

theorem reaches_of_dropped (htail : limits.retain = .tail) (hfits : limits.Fits) (hzero : limits.isZero = false)
    (h : ¬ (text.length ≤ (limits.maxBytes + 1).toNat ∧ countNewlines text ≤ (limits.maxLines + 1).toNat)) :
    Reaches limits text := by
  have hadd : ∀ limit : UInt64, limit ≠ -1 → (limit + 1).toNat = limit.toNat + 1 := by
    intro limit hlimit
    have hmax : limit.toNat ≠ (-1 : UInt64).toNat := fun heq => hlimit (UInt64.toNat_inj.1 heq)
    have hlt := limit.toNat_lt
    rw [UInt64.toNat_add]
    rw [show (-1 : UInt64).toNat = 2 ^ 64 - 1 from rfl] at hmax
    rw [show (1 : UInt64).toNat = 1 from rfl]
    omega
  have hkept : limits.maxBytes ≠ -1 ∧ (limits.maxLines ≠ -1 ∨ limits.maxBytes = 1) := by
    rcases hfits with hhead | hbytes | hlines | hkept
    · rw [htail] at hhead
      cases hhead
    · rw [(isZero_iff limits).2 (.inr hbytes)] at hzero
      cases hzero
    · rw [(isZero_iff limits).2 (.inl hlines)] at hzero
      cases hzero
    · exact hkept
  obtain ⟨hbytes, hlines⟩ := hkept
  rw [hadd _ hbytes] at h
  by_cases hlong : limits.maxBytes.toNat < text.length
  · exact .inl hlong
  have hnewlines : (limits.maxLines + 1).toNat < countNewlines text := by omega
  rcases hlines with hlines | hone
  · rw [hadd _ hlines] at hnewlines
    exact .inr (.inl (by omega))
  refine .inr (.inr ⟨?_, by omega⟩)
  rw [hone]
  rfl

theorem dropLeading_suffix (htail : limits.retain = .tail)
    (hfits : limits.Fits) (chunks : List StoredChunk) (hcount : ∀ chunk ∈ chunks, chunk.Counted) :
    ∃ before rest, chunks = before ++ rest ∧ OutputBuffer.dropLeading limits (chunks.flatMap StoredChunk.text).length
          (countNewlines (chunks.flatMap StoredChunk.text)) chunks
        = ((rest.flatMap StoredChunk.text).length, countNewlines (rest.flatMap StoredChunk.text), rest) ∧
      (limits.isZero = true ∨ before = [] ∨ Reaches limits (rest.flatMap StoredChunk.text)) := by
  induction chunks with
  | nil => exact ⟨[], [], rfl, rfl, .inr (.inl rfl)⟩
  | cons first tail ih =>
    cases tail with
    | nil => exact ⟨[], [first], rfl, rfl, .inr (.inl rfl)⟩
    | cons second rest =>
      obtain ⟨hbytes, hnewlines⟩ := hcount first (List.mem_cons_self ..)
      have hbytesAfter : ((first :: second :: rest).flatMap StoredChunk.text).length - first.bytes
          = ((second :: rest).flatMap StoredChunk.text).length := by
        rw [List.flatMap_cons, length_append, hbytes, Nat.add_sub_cancel_left]
      have hnewlinesAfter : countNewlines ((first :: second :: rest).flatMap StoredChunk.text) - first.newlines
            = countNewlines ((second :: rest).flatMap StoredChunk.text) := by
        rw [List.flatMap_cons, countNewlines_append, hnewlines, Nat.add_sub_cancel_left]
      rw [OutputBuffer.dropLeading]
      simp only [hbytesAfter, hnewlinesAfter]
      split
      · exact ⟨[], _, rfl, rfl, .inr (.inl rfl)⟩
      next hdropped =>
      obtain ⟨before, kept, hsplit, hdrop, hreach⟩ :=
        ih fun chunk hchunk => hcount chunk (List.mem_cons_of_mem _ hchunk)
      refine ⟨first :: before, kept, by rw [hsplit, List.cons_append], hdrop, ?_⟩
      cases hzero : limits.isZero with
      | true => exact .inl rfl
      | false =>
        rcases hreach with hreach | rfl | hreach
        · rw [hzero] at hreach
          cases hreach
        · rw [nil_append] at hsplit
          rw [← hsplit]
          exact .inr (.inr (reaches_of_dropped htail hfits hzero hdropped))
        · exact .inr (.inr hreach)

namespace OutputBuffer

variable {buffer : OutputBuffer}

theorem holds_empty (limits : OutputLimits) : ({ limits := limits } : OutputBuffer).Holds [] where
  totals := ⟨rfl, rfl, rfl⟩
  counted := by
    intro chunk hchunk
    cases hchunk
  storedBytes := rfl
  storedNewlines := rfl
  window := by
    unfold Window
    cases limits.retain with
    | head => exact ⟨[], rfl, rfl⟩
    | tail => exact ⟨rfl, [], rfl, .inr (.inl rfl)⟩

theorem Totals.counting (h : buffer.Totals text) {chunk : Bytes} (hchunk : chunk ≠ []) :
    (buffer.counting chunk).Totals (text ++ chunk) where
  totalBytes := by
    rw [length_append, ← h.totalBytes]
    rfl
  totalNewlines := by
    rw [countNewlines_append, ← h.totalNewlines]
    rfl
  ends := by
    rw [endsWithNewline_append hchunk]
    simp [hchunk, OutputBuffer.counting]

theorem Holds.appended_counted (h : buffer.Holds text) (chunk : Bytes) :
    ∀ stored ∈ buffer.chunks ++ [⟨chunk, chunk.length, countNewlines chunk⟩], StoredChunk.Counted stored := by
  intro stored hstored
  rcases List.mem_append.1 hstored with hstored | hstored
  · exact h.counted stored hstored
  · rw [List.mem_singleton.1 hstored]
    exact ⟨rfl, rfl⟩

theorem Holds.push (h : buffer.Holds text) (hfits : buffer.limits.Fits) (chunk : Bytes) :
    (buffer.push chunk).Holds (text ++ chunk) := by
  by_cases hempty : chunk = []
  · rw [hempty, append_nil]
    exact h
  have hwindow := h.window
  have htotals := h.totals.counting hempty
  have hcount := h.appended_counted chunk
  have hflat : (buffer.chunks ++ [StoredChunk.mk chunk chunk.length (countNewlines chunk)]).flatMap
      StoredChunk.text = buffer.stored ++ chunk := by
    rw [List.flatMap_append, stored]
    simp
  have hbytes : buffer.storedBytes + chunk.length = (buffer.stored ++ chunk).length := by
    rw [length_append, h.storedBytes]
  have hnewlines : buffer.storedNewlines + countNewlines chunk = countNewlines (buffer.stored ++ chunk) := by
    rw [countNewlines_append, h.storedNewlines]
  unfold Window at hwindow
  unfold OutputBuffer.push
  rw [if_neg (by simpa using hempty)]
  by_cases hfull : buffer.full = true
  · -- Only a head window is full, and it stays as it is.
    rw [if_pos hfull]
    refine ⟨htotals, h.counted, h.storedBytes, h.storedNewlines, ?_⟩
    show Window buffer.limits buffer.full (text ++ chunk) buffer.stored
    unfold Window
    cases hretain : buffer.limits.retain with
    | head =>
      simp only [hretain, hfull, if_true] at hwindow ⊢
      obtain ⟨after, htext, hcond⟩ := hwindow
      exact ⟨after ++ chunk, by rw [htext, append_assoc], hcond⟩
    | tail =>
      simp only [hretain] at hwindow
      rw [hfull] at hwindow
      cases hwindow.1
  rw [if_neg hfull]
  have hopen : buffer.full = false := Bool.not_eq_true _ ▸ hfull
  cases hretain : buffer.limits.retain with
  | head =>
    simp only [hretain, hopen, Bool.false_eq_true, if_false] at hwindow
    obtain ⟨after, htext, rfl⟩ := hwindow
    rw [append_nil] at htext
    refine ⟨⟨htotals.1, htotals.2, htotals.3⟩, hcount, ?_, ?_, ?_⟩
    · rw [stored, hflat, ← hbytes]
    · rw [stored, hflat, ← hnewlines]
    · rw [stored, hflat]
      unfold Window
      have hlimits : (buffer.counting chunk).limits = buffer.limits := rfl
      simp only [hlimits, hretain, hbytes, hnewlines]
      refine ⟨[], by rw [htext, append_nil], ?_⟩
      split
      · next hcond => simpa using hcond
      · rfl
  | tail =>
    simp only [hretain] at hwindow
    obtain ⟨-, before, htext, hreach⟩ := hwindow
    obtain ⟨dropped, kept, hsplit, hdrop, hkept⟩ := dropLeading_suffix hretain hfits _ hcount
    rw [hflat] at hdrop
    dsimp only
    rw [hbytes, hnewlines, hdrop]
    have hmem : ∀ stored ∈ kept, stored.Counted := fun stored hstored =>
      hcount stored (by rw [hsplit]; exact List.mem_append_right _ hstored)
    refine ⟨⟨htotals.1, htotals.2, htotals.3⟩, hmem, rfl, rfl, ?_⟩
    show Window buffer.limits buffer.full (text ++ chunk) (kept.flatMap StoredChunk.text)
    unfold Window
    simp only [hretain]
    refine ⟨hopen, before ++ dropped.flatMap StoredChunk.text, ?_, ?_⟩
    · rw [htext, append_assoc, ← hflat, hsplit, List.flatMap_append, append_assoc]
    rcases hkept with hzero | rfl | hkept
    · exact .inl hzero
    · rw [nil_append] at hsplit
      rw [← hsplit, hflat]
      rcases hreach with hzero | rfl | hreach
      · exact .inl hzero
      · exact .inr (.inl rfl)
      · exact .inr (.inr (hreach.append chunk))
    · exact .inr (.inr hkept)

/-- What a snapshot leaves in place of the stored text keeps its window. -/
theorem Holds.trimmed (h : buffer.Holds text) : Window buffer.limits buffer.full text buffer.trimmed := by
  have hwindow := h.window
  unfold OutputBuffer.trimmed
  unfold Window at hwindow ⊢
  cases hretain : buffer.limits.retain with
  | head =>
    simp only [hretain] at hwindow ⊢
    exact hwindow
  | tail =>
    simp only [hretain, if_true] at hwindow ⊢
    obtain ⟨hfull, before, htext, hreach⟩ := hwindow
    obtain ⟨front, hstored, hmargin⟩ := tailMargin_suffix buffer.stored buffer.limits
    refine ⟨hfull, before ++ front, by rw [htext, append_assoc, ← hstored], ?_⟩
    rcases hmargin with rfl | hmargin
    · rw [nil_append] at hstored
      rw [← hstored, append_nil]
      exact hreach
    · exact .inr (.inr hmargin)

theorem Holds.trim (h : buffer.Holds text) : buffer.trim.Holds text := by
  have hwindow := h.trimmed
  unfold OutputBuffer.trim
  split
  · have hbytes : (if buffer.limits.retain = .tail then buffer.trimmed.length else buffer.storedBytes)
        = buffer.trimmed.length := by
      unfold OutputBuffer.trimmed
      split
      · rfl
      · exact h.storedBytes
    dsimp only
    rw [hbytes]
    split
    · next hempty =>
      rw [List.isEmpty_iff.1 hempty] at hwindow
      refine ⟨⟨h.totals.1, h.totals.2, h.totals.3⟩, ?_, rfl, rfl, hwindow⟩
      intro chunk hchunk
      cases hchunk
    have hflat : [StoredChunk.mk buffer.trimmed buffer.trimmed.length
        (countNewlines buffer.trimmed)].flatMap StoredChunk.text = buffer.trimmed := by simp
    refine ⟨⟨h.totals.1, h.totals.2, h.totals.3⟩, ?_, ?_, ?_, ?_⟩
    · intro chunk hchunk
      rw [List.mem_singleton.1 hchunk]
      exact ⟨rfl, rfl⟩
    · rw [stored, hflat]
    · rw [stored, hflat]
    · rw [stored, hflat]
      exact hwindow
  · exact h

theorem push_limits (buffer : OutputBuffer) (chunk : Bytes) : (buffer.push chunk).limits = buffer.limits := by
  unfold OutputBuffer.push
  split
  · rfl
  split
  · rfl
  · cases hretain : buffer.limits.retain with
    | head | tail => rfl

theorem trim_limits (buffer : OutputBuffer) : buffer.trim.limits = buffer.limits := by
  unfold OutputBuffer.trim
  split
  · cases buffer.trimmed with
    | nil | cons byte rest => rfl
  · rfl

theorem call_limits (buffer : OutputBuffer) (call : OutputCall) : (buffer.call call).limits = buffer.limits := by
  cases call with
  | push chunk => exact push_limits buffer chunk
  | snapshot => exact trim_limits buffer

/-- **Every run keeps what its window needs of the stream.** -/
theorem run_holds (hfits : limits.Fits) (calls : List OutputCall) :
    (run limits calls).limits = limits ∧ (run limits calls).Holds (pushedBytes calls) := by
  induction calls using List.reverseRecOn with
  | nil => exact ⟨rfl, holds_empty limits⟩
  | append_singleton calls call ih =>
    obtain ⟨hlimits, hholds⟩ := ih
    rw [run, List.foldl_append, ← run, List.foldl_cons, List.foldl_nil]
    refine ⟨(call_limits _ call).trans hlimits, ?_⟩
    rw [pushedBytes, List.flatMap_append, ← pushedBytes, List.flatMap_singleton]
    cases call with
    | push chunk => exact hholds.push (hlimits.symm ▸ hfits) chunk
    | snapshot =>
      simp only [append_nil]
      exact hholds.trim

/-- No difference of `snapshot`, and none of a later `push`, goes below zero. -/
structure NoUnderflow (buffer : OutputBuffer) : Prop where
  bytes : (boundOutput buffer.stored buffer.limits).bytes ≤ buffer.totalBytes
  stored : (boundOutput buffer.stored buffer.limits).droppedLines ≤ countLines buffer.stored
  lines : buffer.keptLines ≤ buffer.totalLines
  chunkBytes : (buffer.chunks.map StoredChunk.bytes).sum = buffer.storedBytes
  chunkNewlines : (buffer.chunks.map StoredChunk.newlines).sum = buffer.storedNewlines

end OutputBuffer

/-- The next snapshot of a run is the bound of all it pushed, and no count underflows. -/
def SnapshotMeets (limits : OutputLimits) (calls : List OutputCall) : Prop :=
  let buffer := OutputBuffer.run limits calls
  let whole := boundOutput (pushedBytes calls) limits
  buffer.snapshot.2 = ⟨sanitizeOutput whole.text, whole.droppedBytes, whole.droppedLines⟩ ∧ buffer.NoUnderflow

/-- Every chunk is the text of a string. -/
def Utf8Calls (calls : List OutputCall) : Prop :=
  ∀ call ∈ calls, ∀ chunk, call = .push chunk → ∃ text : String, text.toUTF8.data.toList = chunk

theorem utf8Calls_pair {first second : Bytes} (hfirst : ∃ text : String, text.toUTF8.data.toList = first)
    (hsnd : ∃ text : String, text.toUTF8.data.toList = second) : Utf8Calls [.push first, .push second] := by
  intro call hcall chunk hpush
  subst hpush
  simp only [List.mem_cons, OutputCall.push.injEq, List.not_mem_nil, or_false] at hcall
  rcases hcall with rfl | rfl
  · exact hfirst
  · exact hsnd

variable {buffer : OutputBuffer}

theorem OutputBuffer.Holds.totalLines (h : buffer.Holds text) : buffer.totalLines = countLines text := by
  rw [OutputBuffer.totalLines, h.totals.totalNewlines, h.totals.ends]
  cases text with
  | nil | cons byte rest => rfl

theorem OutputBuffer.Holds.chunkSums (h : buffer.Holds text) :
    (buffer.chunks.map StoredChunk.bytes).sum = buffer.storedBytes ∧
      (buffer.chunks.map StoredChunk.newlines).sum = buffer.storedNewlines := by
  rw [h.storedBytes, h.storedNewlines, OutputBuffer.stored]
  have hcount := h.counted
  generalize buffer.chunks = chunks at hcount
  induction chunks with
  | nil => exact ⟨rfl, rfl⟩
  | cons chunk rest ih =>
    obtain ⟨hbytes, hnewlines⟩ := hcount chunk (List.mem_cons_self ..)
    obtain ⟨hsum, hsumNewlines⟩ := ih fun c hc => hcount c (List.mem_cons_of_mem _ hc)
    rw [List.map_cons, List.map_cons, List.sum_cons, List.sum_cons, List.flatMap_cons,
      length_append, countNewlines_append, hsum, hsumNewlines, hbytes, hnewlines]
    exact ⟨rfl, rfl⟩

theorem boundOutput_counts (text : Bytes) (limits : OutputLimits) :
    (boundOutput text limits).bytes = (boundOutput text limits).text.length ∧
      (boundOutput text limits).droppedBytes = text.length - (boundOutput text limits).text.length ∧
      (boundOutput text limits).droppedLines = countLines text - countLines (boundOutput text limits).text := by
  exact ⟨rfl, rfl, rfl⟩

theorem OutputBuffer.Holds.output (h : buffer.Holds text) :
    buffer.output = ⟨sanitizeOutput (boundOutput text buffer.limits).text,
        (boundOutput text buffer.limits).droppedBytes, (boundOutput text buffer.limits).droppedLines⟩ ∧
      buffer.NoUnderflow := by
  have htext := h.window.boundOutput_text
  obtain ⟨hbytes, hdropped, hlines⟩ := boundOutput_counts text buffer.limits
  obtain ⟨hstoredBytes, -, hstoredLines⟩ := boundOutput_counts buffer.stored buffer.limits
  obtain ⟨hle, hlinesLe⟩ := boundOutput_le text buffer.limits
  obtain ⟨-, hstoredLe⟩ := boundOutput_le buffer.stored buffer.limits
  obtain ⟨hchunkBytes, hchunkNewlines⟩ := h.chunkSums
  have hkept : buffer.keptLines = countLines (boundOutput text buffer.limits).text := by
    rw [OutputBuffer.keptLines, hstoredLines, htext]
    omega
  refine ⟨?_, ?_, ?_, ?_, hchunkBytes, hchunkNewlines⟩
  · rw [OutputBuffer.output, hdropped, hlines, h.totals.totalBytes, h.totalLines, hkept, ← htext,
      hstoredBytes, ← htext]
  · rw [h.totals.totalBytes, hstoredBytes, ← htext, ← hbytes]
    exact hle
  · exact Nat.sub_le _ _
  · rw [hkept, h.totalLines]
    exact hlinesLe

theorem tailStart_eq_zero (hzero : limits.isZero = false)
    (hline : lineStart text limits.maxLines.toNat = 0) (hbytes : text.length ≤ limits.maxBytes.toNat) :
    tailStart text limits = 0 := by
  unfold tailStart
  simp only [hzero, Bool.false_eq_true, if_false, hline]
  exact if_neg (by omega)

/-- A buffer that kept too little of a stream within the limits drops bytes of it. -/
theorem not_snapshotMeets {calls : List OutputCall} (hstored : (OutputBuffer.run limits calls).stored.length
      < (OutputBuffer.run limits calls).totalBytes)
    (hwhole : (boundOutput (pushedBytes calls) limits).droppedBytes = 0) : ¬ SnapshotMeets limits calls := by
  rintro ⟨hsnap, -⟩
  have hdropped := congrArg BoundedOutput.droppedBytes hsnap
  have hle := (boundOutput_le (OutputBuffer.run limits calls).stored (OutputBuffer.run limits calls).limits).1
  simp only [OutputBuffer.snapshot, OutputBuffer.output, hwhole] at hdropped
  omega

/-- A tail window that does not count the second of two bytes as within its limits forgets the
first. -/
theorem run_two (htail : limits.retain = .tail) (first second : UInt8) (hdrop : ¬ (1 ≤ (limits.maxBytes + 1).toNat ∧
      countNewlines [second] ≤ (limits.maxLines + 1).toNat)) :
    (OutputBuffer.run limits [.push [first], .push [second]]).stored.length
      < (OutputBuffer.run limits [.push [first], .push [second]]).totalBytes := by
  have hadd : countNewlines [first] + countNewlines [second] - countNewlines [first]
      = countNewlines [second] := Nat.add_sub_cancel_left _ _
  simp [OutputBuffer.run, OutputBuffer.call, OutputBuffer.push, OutputBuffer.counting, htail,
    OutputBuffer.dropLeading, OutputBuffer.stored, hadd, hdrop, -UInt64.toNat_add]

/-- A tail window of unbounded bytes forgets `a` when `b` comes, and one of unbounded lines a newline
when another comes. -/
theorem not_fits_drops (h : ¬ limits.Fits) : ¬ SnapshotMeets limits [.push [0x61], .push [0x62]] ∨
      ¬ SnapshotMeets limits [.push [newline], .push [newline]] := by
  simp only [OutputLimits.Fits, not_or, not_and] at h
  obtain ⟨hhead, hbytes, hlines, hkept⟩ := h
  have htail : limits.retain = .tail := by
    cases hretain : limits.retain with
    | head => exact absurd hretain hhead
    | tail => rfl
  have hzero : limits.isZero = false := by simp [OutputLimits.isZero, hbytes, hlines]
  by_cases hmax : limits.maxBytes = -1
  · left
    apply not_snapshotMeets
    · apply run_two htail
      rw [hmax]
      exact fun hle => absurd hle.1 (by decide)
    have hstart : tailStart [0x61, 0x62] limits = 0 := by
      apply tailStart_eq_zero hzero
      · simp [lineStart, lineStartLoop, endsWithNewline, newline]
      · rw [hmax]
        decide
    simp [boundOutput, pushedBytes, htail, hstart]
  right
  obtain ⟨hunbounded, hone⟩ := hkept hmax
  rw [not_not] at hunbounded
  apply not_snapshotMeets
  · apply run_two htail
    rw [hunbounded]
    exact fun hle => absurd hle.2 (by decide)
  have hne := (limits_ne_zero hzero).2
  have hnotOne : limits.maxBytes.toNat ≠ 1 := fun heq => hone (UInt64.toNat_inj.1 heq)
  have hstart : tailStart [newline, newline] limits = 0 := by
    apply tailStart_eq_zero hzero
    · rw [hunbounded]
      decide
    · show 2 ≤ limits.maxBytes.toNat
      omega
  simp [boundOutput, pushedBytes, htail, hstart]

/-- The buffer of an unbounded tail window forgets `a`, which the window keeps. -/
theorem unlimitedTail_drops : Utf8Calls [.push [0x61], .push [0x62]] ∧
      (OutputBuffer.run ⟨-1, 1, .tail⟩ [.push [0x61], .push [0x62]]).snapshot.2 = ⟨[0x62], 1, 0⟩ ∧
      boundOutput [0x61, 0x62] ⟨-1, 1, .tail⟩ = ⟨[0x61, 0x62], 2, 0, 0⟩ ∧
      ¬ SnapshotMeets ⟨-1, 1, .tail⟩ [.push [0x61], .push [0x62]] := by
  have hsnapshot : (OutputBuffer.run ⟨-1, 1, .tail⟩ [.push [0x61], .push [0x62]]).snapshot.2
      = ⟨[0x62], 1, 0⟩ := by decide
  refine ⟨utf8Calls_pair ⟨"a", by decide⟩ ⟨"b", by decide⟩, hsnapshot, by decide, ?_⟩
  rintro ⟨hmeets, -⟩
  exact absurd hmeets (by decide)

/-- **A snapshot is the bound of the whole stream, exactly for limits that fit.** -/
theorem snapshot_eq_boundOutput (limits : OutputLimits) :
    (∀ calls, Utf8Calls calls → SnapshotMeets limits calls) ↔ limits.Fits := by
  constructor
  · intro h
    by_contra hfits
    rcases not_fits_drops hfits with hdrops | hdrops
    · exact hdrops (h _ (utf8Calls_pair ⟨"a", by decide⟩ ⟨"b", by decide⟩))
    · exact hdrops (h _ (utf8Calls_pair ⟨"\n", by decide⟩ ⟨"\n", by decide⟩))
  intro hfits calls _
  obtain ⟨hlimits, hholds⟩ := OutputBuffer.run_holds hfits calls
  have houtput := hholds.output
  rw [hlimits] at houtput
  exact houtput

end CodingHarness.Chord
