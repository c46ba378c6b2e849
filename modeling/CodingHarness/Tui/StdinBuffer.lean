import CodingHarness.Support.Json
import CodingHarness.Library.Tokens

/-!
# Terminal input framing

`StdinBuffer` splits what is read from the terminal into complete sequences and bracketed pastes. The
handlers are modelled by the list of the events they receive, and the timeout by the calls of `flush` it
leads to. `extractPieces` keeps the terminal replies that the source drops without a trace, marked as
cancelled, so that the bytes of a text can be followed; `sequences` is what the source returns.
-/

namespace CodingHarness.Tui

open Library Support

/-! ## Bytes -/

def esc : UInt8 := 0x1B

/-- `kPasteStart`, `ESC [ 2 0 0 ~`. -/
def pasteStart : Bytes := [0x1B, 0x5B, 0x32, 0x30, 0x30, 0x7E]

/-- `kPasteEnd`, `ESC [ 2 0 1 ~`. -/
def pasteEnd : Bytes := [0x1B, 0x5B, 0x32, 0x30, 0x31, 0x7E]

/-- The two bytes that open an operating system command. -/
def oscStart : Bytes := [0x1B, 0x5D]

/-- The two bytes that open a device control string. -/
def dcsStart : Bytes := [0x1B, 0x50]

/-- The two bytes that open an application program command. -/
def apcStart : Bytes := [0x1B, 0x5F]

/-- The two bytes that open a control sequence. -/
def csiStart : Bytes := [0x1B, 0x5B]

/-- The string terminator, `ESC \`. -/
def stringEnd : Bytes := [0x1B, 0x5C]

def isDigit (c : UInt8) : Bool := 0x30 ≤ c && c ≤ 0x39

def isLowercase (c : UInt8) : Bool := 0x61 ≤ c && c ≤ 0x7A

def isControlString (data : Bytes) : Bool :=
  oscStart.isPrefixOf data || dcsStart.isPrefixOf data || apcStart.isPrefixOf data

/-! ## Replies of the terminal -/

/-- The keys of a Kitty graphics reply: letters with a number, separated by commas, up to a semicolon. -/
def matchesKittyKeys : Nat → Bytes → Bool
  | fuel + 1, letter :: equals :: rest =>
    if isLowercase letter && equals == 0x3D && !(rest.takeWhile isDigit).isEmpty then
      match rest.dropWhile isDigit with
      | 0x2C :: more => matchesKittyKeys fuel more
      | 0x3B :: _ => true
      | _ => false
    else false
  | _, _ => false

/-- The rest of a palette reply: one to three digits and a semicolon. -/
def matchesPalette (data : Bytes) : Bool := let digits := (data.takeWhile isDigit).length
  1 ≤ digits && digits ≤ 3 && (data.dropWhile isDigit).head? == some 0x3B

def matchesTerminalReplyHeader (data : Bytes) : Bool :=
  if dcsStart.isPrefixOf data then (dcsStart ++ [0x3E, 0x7C]).isPrefixOf data
  else if oscStart.isPrefixOf data then
    (oscStart ++ [0x31, 0x30, 0x3B]).isPrefixOf data || (oscStart ++ [0x31, 0x31, 0x3B]).isPrefixOf data ||
      (oscStart ++ [0x37, 0x35, 0x30, 0x31, 0x3B, 0x3F]).isPrefixOf data ||
      ((oscStart ++ [0x34, 0x3B]).isPrefixOf data && matchesPalette (data.drop 4))
  else (apcStart ++ [0x47]).isPrefixOf data && matchesKittyKeys data.length (data.drop 3)

/-! ## Complete sequences -/

/-- Whether a text is an escape sequence, may become one, or is none. -/
inductive SequenceStatus where
  | complete
  | incomplete
  | notEscape
  deriving DecidableEq

/-- The report of an SGR mouse event has three numbers between `<` and its last byte. -/
def isMouseReport (parts : Bytes) (last : UInt8) : Bool := let numbers := parts.splitOn 0x3B
  numbers.all (fun part => !part.isEmpty && part.all isDigit) && numbers.length == 3 &&
    (last == 0x4D || last == 0x6D)

/-- `is_complete_csi_sequence`, after the two bytes that open the sequence. -/
def isCompleteCsi (payload : Bytes) : SequenceStatus := match payload.getLast? with
  | none => .incomplete
  | some last =>
    if payload.head? = some 0x4D then if 4 ≤ payload.length then .complete else .incomplete
    else if 0x40 ≤ last ∧ last ≤ 0x7E then
      if payload.head? = some 0x3C then
        if isMouseReport (payload.dropLast.drop 1) last then .complete else .incomplete
      else .complete
    else .incomplete

/-- `is_complete_osc_sequence`. -/
def isCompleteOsc (data : Bytes) : SequenceStatus :=
  if [0x07].isSuffixOf data || stringEnd.isSuffixOf data then .complete else .incomplete

/-- `is_complete_string_terminated_sequence`. -/
def isCompleteString (data : Bytes) : SequenceStatus := if stringEnd.isSuffixOf data then .complete else .incomplete

def isCompleteSequence (data : Bytes) : SequenceStatus := match data with
  | [] => .notEscape
  | first :: afterEsc =>
    if first ≠ esc then .notEscape
    else
      match afterEsc with
      | [] => .incomplete
      | 0x5B :: payload => isCompleteCsi payload
      | 0x5D :: _ => isCompleteOsc data
      | 0x50 :: _ => isCompleteString data
      | 0x5F :: _ => isCompleteString data
      | 0x4F :: rest => if rest = [] then .incomplete else .complete
      | _ => .complete

def utf8SequenceLength (lead : UInt8) : Nat := if lead &&& 0x80 = 0 then 1
  else if lead &&& 0xE0 = 0xC0 then 2
  else if lead &&& 0xF0 = 0xE0 then 3
  else if lead &&& 0xF8 = 0xF0 then 4
  else 1

/-! ## Extraction -/

/-- A sequence that is handed on, or a reply that is dropped because it was cancelled. -/
inductive PieceKind where
  | sequence
  | cancelled
  deriving DecidableEq

/-- The bytes after a second escape that make the first one a key of its own. -/
def opensSequence (next : Option UInt8) : Bool :=
  next == some 0x5B || next == some 0x5D || next == some 0x4F || next == some 0x50 || next == some 0x5F

/-- The inner loop of `extract_complete_sequences`, over the ends from `stop` on: what it takes off the
front and how long that is. There is no result when the end of the input is reached. -/
def scanEscape (reply : Bool) (remaining : Bytes) : Nat → Nat → Option (PieceKind × Nat)
  | 0, _ => none
  | fuel + 1, stop =>
    let character := remaining[stop - 1]?
    if reply ∧ 2 < stop ∧ (character = some 0x18 ∨ character = some 0x1A) then
      some (.cancelled, stop)
    else if reply ∧ 2 < stop ∧ character = some esc ∧ stop < remaining.length ∧ remaining[stop]? ≠ some 0x5C then
      some (.cancelled, stop - 1)
    else
      match isCompleteSequence (remaining.take stop) with
      | .complete =>
        if remaining.take stop = [esc, esc] ∧ opensSequence remaining[stop]? then
          some (.sequence, 1)
        else some (.sequence, stop)
      | .incomplete => scanEscape reply remaining fuel (stop + 1)
      | .notEscape => some (.sequence, stop)

/-- One turn of the outer loop of `extract_complete_sequences`. -/
def nextPiece : Bytes → Option (PieceKind × Nat)
  | [] => none
  | first :: rest =>
    if first = esc then
      let reply := isControlString (first :: rest) && matchesTerminalReplyHeader (first :: rest)
      scanEscape reply (first :: rest) (rest.length + 1) 1
    else if rest.length + 1 < utf8SequenceLength first then none
    else some (.sequence, utf8SequenceLength first)

/-- `extract_complete_sequences`, with the cancelled replies and the remainder. -/
def extractPieces (text : Bytes) : List (PieceKind × Bytes) × Bytes := scanAll nextPiece text

/-- `ExtractedSequences::sequences`. -/
def sequences (text : Bytes) : List Bytes :=
  (extractPieces text).1.filterMap fun piece => if piece.1 = .sequence then some piece.2 else none

/-- `ExtractedSequences::remainder`. -/
def remainder (text : Bytes) : Bytes := (extractPieces text).2

/-! ## Kitty keys -/

/-- `parse_codepoint`: a decimal number of 32 bits. -/
def parseCodepoint (text : Bytes) : Option Nat :=
  let value := text.foldl (fun value digit => value * 10 + (digit.toNat - 0x30)) 0
  if text ≠ [] ∧ text.all isDigit ∧ value < 2 ^ 32 then some value else none

def encodedCodepoint (codepoint : Nat) : Option Bytes := if codepoint ≤ 0x7F then some [UInt8.ofNat codepoint]
  else if codepoint ≤ 0x7FF then
    some [UInt8.ofNat (0xC0 + codepoint / 64), UInt8.ofNat (0x80 + codepoint % 64)]
  else if codepoint ≤ 0xFFFF ∧ (codepoint < 0xD800 ∨ 0xDFFF < codepoint) then
    some [UInt8.ofNat (0xE0 + codepoint / 4096), UInt8.ofNat (0x80 + codepoint / 64 % 64),
      UInt8.ofNat (0x80 + codepoint % 64)]
  else if codepoint ≤ 0x10FFFF then
    some [UInt8.ofNat (0xF0 + codepoint / 262144), UInt8.ofNat (0x80 + codepoint / 4096 % 64),
      UInt8.ofNat (0x80 + codepoint / 64 % 64), UInt8.ofNat (0x80 + codepoint % 64)]
  else none

/-- Whether the alternatives after the first colon of a key are numbers. -/
def validAlternatives (alternatives : Bytes) : Bool := match cutAt [0x3A] alternatives with
  | none => alternatives.isEmpty || (parseCodepoint alternatives).isSome
  | some (shifted, base) =>
    (shifted.isEmpty || (parseCodepoint shifted).isSome) && (parseCodepoint base).isSome

/-- `duplicate_printable_text`: the text of an unmodified Kitty key, which some terminals send once more
as plain text. -/
def duplicatePrintableText (sequence : Bytes) : Option Bytes :=
  if csiStart.isPrefixOf sequence ∧ sequence.getLast? = some 0x75 then
    let body := (sequence.drop 2).dropLast
    if 0x3B ∈ body then none
    else
      let parts := (cutAt [0x3A] body).getD (body, [])
      match parseCodepoint parts.1 with
      | none => none
      | some codepoint =>
        if codepoint < 32 ∨ (0x3A ∈ body ∧ !validAlternatives parts.2) then none
        else encodedCodepoint codepoint
  else none

/-! ## The buffer -/

/-- What the handlers receive. -/
inductive Event where
  | data (sequence : Bytes)
  | paste (content : Bytes)
  deriving DecidableEq

/-- `StdinBuffer`, without its deadline, and the events delivered so far. -/
structure StdinBuffer where
  buffer : Bytes := []
  pasteMode : Bool := false
  pasteBuffer : Bytes := []
  pendingKittyPrintableText : Option Bytes := none
  events : List Event := []
  deriving DecidableEq

namespace StdinBuffer

/-- `emit_data_sequence`. -/
def emit (s : StdinBuffer) (sequence : Bytes) : StdinBuffer :=
  if s.pendingKittyPrintableText = some sequence then { s with pendingKittyPrintableText := none }
  else
    { s with
      pendingKittyPrintableText := duplicatePrintableText sequence
      events := s.events ++ [.data sequence] }

def emitAll (s : StdinBuffer) (sequences : List Bytes) : StdinBuffer := sequences.foldl emit s

/-- The part of `process` that looks for the end of a paste: the new state, and the input that is still to
be processed. -/
def finishPaste (s : StdinBuffer) (content : Bytes) : StdinBuffer × Option Bytes :=
  match cutAt pasteEnd content with
  | none => ({ s with buffer := [], pasteMode := true, pasteBuffer := content }, none)
  | some (pasted, remaining) =>
    ({ s with
       buffer := []
       pasteMode := false
       pasteBuffer := []
       pendingKittyPrintableText := none
       events := s.events ++ [.paste pasted] },
      if remaining = [] then none else some remaining)

/-- The body of `process` up to its recursive call. -/
def processOnce (s : StdinBuffer) (input : Bytes) : StdinBuffer × Option Bytes :=
  if input = [] ∧ s.buffer = [] then (s.emit [], none)
  else if s.pasteMode then s.finishPaste (s.pasteBuffer ++ (s.buffer ++ input))
  else
    match cutAt pasteStart (s.buffer ++ input) with
    | some (before, after) =>
      -- Only the complete sequences before the marker are emitted; their remainder is dropped.
      { s.emitAll (sequences before) with pendingKittyPrintableText := none }.finishPaste after
    | none =>
      ({ s.emitAll (sequences (s.buffer ++ input)) with buffer := remainder (s.buffer ++ input) }, none)

variable {s s' : StdinBuffer}

theorem finishPaste_shorter {content rest : Bytes} (h : s.finishPaste content = (s', some rest)) :
    s'.buffer = [] ∧ s'.pasteBuffer = [] ∧ rest.length < content.length := by
  unfold finishPaste at h
  split at h
  · cases h
  next pasted remaining hcut =>
  obtain ⟨rfl, hrest⟩ := Prod.mk.inj h
  have hlen := congrArg List.length (cutAt_eq hcut)
  split at hrest
  · cases hrest
  cases hrest
  simp only [List.length_append, pasteEnd, List.length_cons, List.length_nil] at hlen
  exact ⟨rfl, rfl, by omega⟩

theorem processOnce_shorter {input rest : Bytes} (h : s.processOnce input = (s', some rest)) :
    s'.buffer.length + s'.pasteBuffer.length + rest.length <
      s.buffer.length + s.pasteBuffer.length + input.length := by
  unfold processOnce at h
  split at h
  · cases h
  split at h
  · obtain ⟨hbuffer, hpaste, hlt⟩ := finishPaste_shorter h
    rw [hbuffer, hpaste]
    simp only [List.length_append] at hlt
    simp only [List.length_nil]
    omega
  split at h
  · next before after hcut =>
    obtain ⟨hbuffer, hpaste, hlt⟩ := finishPaste_shorter h
    have hlen := congrArg List.length (cutAt_eq hcut)
    rw [hbuffer, hpaste]
    simp only [List.length_append] at hlen
    simp only [List.length_nil]
    omega
  · cases h

def process (s : StdinBuffer) (input : Bytes) : StdinBuffer := match _h : s.processOnce input with
  | (s', none) => s'
  | (s', some rest) => process s' rest
termination_by s.buffer.length + s.pasteBuffer.length + input.length
decreasing_by exact processOnce_shorter (by assumption)

/-- `flush`: the buffer ends its fragment; an ambiguous control string is delivered as its two-byte start
and a reparse of its tail. -/
def flush (s : StdinBuffer) : StdinBuffer := if s.buffer = [] then s
  else
    let cleared := { s with buffer := [], pendingKittyPrintableText := none }
    if 2 < s.buffer.length ∧ isControlString s.buffer then
      (cleared.emit (s.buffer.take 2)).process (s.buffer.drop 2)
    else cleared.emit s.buffer

theorem process_done {input : Bytes} (h : s.processOnce input = (s', none)) : s.process input = s' := by
  rw [process]
  split
  · next heq => rw [h] at heq; exact (Prod.mk.inj heq).1.symm
  · next heq => rw [h] at heq; cases (Prod.mk.inj heq).2

theorem process_more {input rest : Bytes}
    (h : s.processOnce input = (s', some rest)) : s.process input = s'.process rest := by
  rw [process]
  split
  · next heq => rw [h] at heq; cases (Prod.mk.inj heq).2
  next heq =>
  rw [h] at heq
  obtain ⟨rfl, hrest⟩ := Prod.mk.inj heq
  rw [Option.some.inj hrest]

end StdinBuffer

end CodingHarness.Tui
