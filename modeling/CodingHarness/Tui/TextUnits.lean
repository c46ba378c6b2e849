import CodingHarness.Support.Json
import CodingHarness.Library.Decimal

/-!
# Text that goes into a buffer

The functions `TextBuffer` applies to text: decoding, the cleaning of typed and pasted text, paste markers
and the search for word boundaries. `Segmenter` stands for `split_graphemes` and `segment_words`, whose
answers come from utf8proc and ICU.
-/

namespace CodingHarness.Tui

open Library Support

/-! ## Decoding -/

/-- `utf8_sequence_length` of the width tables: a byte that starts no sequence has length zero. -/
def leadLength (lead : UInt8) : Nat := if lead < 0x80 then 1
  else if lead &&& 0xE0 = 0xC0 then 2
  else if lead &&& 0xF0 = 0xE0 then 3
  else if lead &&& 0xF8 = 0xF0 then 4
  else 0

def bits (byte : UInt8) (mask : Nat) : Nat := byte.toNat % mask

/-- `decode_utf8` at the front of a text: the code point and its length. Malformed input is one
replacement character for each byte. -/
def decodeUtf8 (text : Bytes) : Nat × Nat := match text with
  | [] => (0xFFFD, 0)
  | lead :: rest =>
    let length := leadLength lead
    let continuation := rest.take (length - 1)
    if length = 1 then (lead.toNat, 1)
    else if length = 0 ∨ text.length < length then (0xFFFD, 1)
    else if !continuation.all (fun byte => byte &&& 0xC0 == 0x80) then (0xFFFD, 1)
    else
      let codepoint :=
        continuation.foldl (fun value byte => value * 64 + bits byte 64) (bits lead (2 ^ (7 - length)))
      if length = 2 ∧ codepoint < 0x80 then (0xFFFD, 1)
      else if length = 3 ∧ (codepoint < 0x800 ∨ (0xD800 ≤ codepoint ∧ codepoint ≤ 0xDFFF)) then
        (0xFFFD, 1)
      else if length = 4 ∧ (codepoint < 0x10000 ∨ 0x10FFFF < codepoint) then (0xFFFD, 1)
      else (codepoint, length)

/-- The code points of a text with their bytes, in order. Every step takes a byte, so the length of the
text is enough fuel. -/
def decodeAll : Nat → Bytes → List (Nat × Bytes)
  | 0, _ => []
  | fuel + 1, text =>
    let decoded := decodeUtf8 text
    if decoded.2 = 0 then []
    else (decoded.1, text.take decoded.2) :: decodeAll fuel (text.drop decoded.2)

def utf16CodeUnitCount (text : Bytes) : Nat :=
  ((decodeAll text.length text).map fun decoded => if 0xFFFF < decoded.1 then 2 else 1).sum

/-- The white space of `is_whitespace_grapheme` beyond ASCII. -/
def unicodeSpaces : List Nat :=
  [0x00A0, 0x1680, 0x2000, 0x2001, 0x2002, 0x2003, 0x2004, 0x2005, 0x2006, 0x2007, 0x2008, 0x2009,
    0x200A, 0x2028, 0x2029, 0x202F, 0x205F, 0x3000, 0xFEFF]

def isWhitespaceGrapheme (segment : Bytes) : Bool := if segment = [] then false
  else if segment = [0x20] ∨ segment = [0x09] ∨ segment = [0x0A] ∨ segment = [0x0D] then true
  else (decodeUtf8 segment).2 ≠ 0 ∧ (decodeUtf8 segment).1 ∈ unicodeSpaces

/-! ## Typed text -/

def normalizeNewlines : Bytes → Bytes
  | [] => []
  | 0x0D :: 0x0A :: rest => 0x0A :: normalizeNewlines rest
  | byte :: rest => (if byte = 0x0D then 0x0A else byte) :: normalizeNewlines rest

def sanitizeInput (text : Bytes) (multiline : Bool) : Bytes := let normalized := normalizeNewlines text
  (decodeAll normalized.length normalized).flatMap fun decoded =>
    if decoded.1 = 0x0A then [if multiline then 0x0A else 0x20]
    else if decoded.1 = 0x09 ∨ (0x20 ≤ decoded.1 ∧ decoded.1 ≠ 0x7F) then decoded.2
    else []

/-! ## Pasted text -/

def parseDecimal (text : Bytes) : Option Nat := if text = [] then none
  else
    text.foldlM (fun value digit =>
      if 0x30 ≤ digit ∧ digit ≤ 0x39 then
        let next := value * 10 + (digit.toNat - 0x30)
        if 0x10FFFF < next then none else some next
      else none) 0

def encodeUtf8 (codepoint : Nat) : Bytes := if codepoint ≤ 0x7F then [UInt8.ofNat codepoint]
  else if codepoint ≤ 0x7FF then
    [UInt8.ofNat (0xC0 + codepoint / 64), UInt8.ofNat (0x80 + codepoint % 64)]
  else if codepoint ≤ 0xFFFF then
    [UInt8.ofNat (0xE0 + codepoint / 4096), UInt8.ofNat (0x80 + codepoint / 64 % 64),
      UInt8.ofNat (0x80 + codepoint % 64)]
  else if codepoint ≤ 0x10FFFF then
    [UInt8.ofNat (0xF0 + codepoint / 262144), UInt8.ofNat (0x80 + codepoint / 4096 % 64),
      UInt8.ofNat (0x80 + codepoint / 64 % 64), UInt8.ofNat (0x80 + codepoint % 64)]
  else []

def resolveReplyCharacter (codepoint : Nat) (shift ctrl : Bool) : Nat := let resolved :=
    if shift ∧ 0x61 ≤ codepoint ∧ codepoint ≤ 0x7A then codepoint - 0x20 else codepoint
  if !ctrl then resolved
  else if 0x61 ≤ resolved ∧ resolved ≤ 0x7A then resolved - 96
  else if 0x41 ≤ resolved ∧ resolved ≤ 0x5A then resolved - 64
  else if resolved = 0x20 then 0
  else if 0x5B ≤ resolved ∧ resolved ≤ 0x5F then resolved - 0x40
  else if resolved = 0x3F then 0x7F
  else resolved

/-- `PasteControlReply`, when one is recognised. -/
structure PasteControlReply where
  consumed : Nat
  press : Bool
  character : Nat

/-- `parse_paste_control_reply` at the front of a text. -/
def parsePasteControlReply : Bytes → Option PasteControlReply
  | 0x1B :: 0x5B :: rest => do
      let isParameter := fun byte : UInt8 =>
        (0x30 ≤ byte ∧ byte ≤ 0x39) ∨ byte = 0x3B ∨ byte = 0x3A
      let body := rest.takeWhile fun byte => decide (isParameter byte)
      if rest[body.length]? ≠ some 0x75 then none
      else
        let sections := body.splitOn 0x3B
        let keyParts := (sections.headD []).splitOn 0x3A
        if 2 < sections.length ∨ 3 < keyParts.length then none
        else
          let codepoint ← parseDecimal (keyParts.headD [])
          let modifierParts := (sections[1]?.map (List.splitOn 0x3A)).getD [[0x31]]
          if 2 < modifierParts.length then none
          else
            let modifierValue ← parseDecimal (modifierParts.headD [])
            let eventType ← (modifierParts[1]?.map parseDecimal).getD (some 1)
            -- The lock modifiers, 64 and 128, are ignored; of the others only the lowest four are known.
            let modifier := (modifierValue - 1) % 64 + (modifierValue - 1) / 256 * 256
            if modifierValue = 0 ∨ 16 ≤ modifier then none
            else
              some {
                consumed := body.length + 3
                press := eventType ≠ 2 ∧ eventType ≠ 3
                character := resolveReplyCharacter codepoint (modifier % 2 = 1) (modifier / 4 % 2 = 1) }
  | _ => none

def isFilteredControl (codepoint : Nat) : Bool :=
  codepoint < 0x20 ∨ codepoint = 0x7F ∨ (0x80 ≤ codepoint ∧ codepoint ≤ 0x9F)

def endsToken (codepoint : Nat) : Bool := codepoint = 0x20 ∨ isFilteredControl codepoint

def isWordCharacter (byte : UInt8) : Bool :=
  (0x30 ≤ byte ∧ byte ≤ 0x39) ∨ (0x61 ≤ byte ∧ byte ≤ 0x7A) ∨ (0x41 ≤ byte ∧ byte ≤ 0x5A) ∨
    byte = 0x5F ∨ byte = 0x2D

def isPathTrailingCharacter (byte : UInt8) : Bool :=
  isWordCharacter byte || byte == 0x2E || byte == 0x2F || byte == 0x7E

/-- `starts_path_token` at the front of a text. -/
def startsPathToken (text : Bytes) : Bool :=
  [0x2F].isPrefixOf text || [0x2E, 0x2F].isPrefixOf text || [0x7E, 0x2F].isPrefixOf text ||
    [0x2E, 0x2E, 0x2F].isPrefixOf text

/-- The local variables of `normalize_pasted_text`. -/
structure PasteState where
  result : Bytes := []
  previousCharacter : UInt8
  inPathToken : Bool := false
  afterCarriageReturn : Bool := false

/-- The lambda `emit` of `normalize_pasted_text`. -/
def PasteState.emit (s : PasteState) (multiline : Bool) (codepoint : Nat) : PasteState :=
  if codepoint = 0x0D ∨ codepoint = 0x0A then
    if multiline then { s with result := s.result ++ [0x0A], previousCharacter := 0x0A } else s
  else if codepoint = 0x09 then
    { s with result := s.result ++ [0x20, 0x20, 0x20, 0x20], previousCharacter := 0x20 }
  else if isFilteredControl codepoint then s
  else
    let result := s.result ++ encodeUtf8 codepoint
    { s with result := result, previousCharacter := result.getLast?.getD s.previousCharacter }

/-- The loop of `normalize_pasted_text`. -/
def normalizeLoop (multiline : Bool) : Nat → Bytes → PasteState → PasteState
  | 0, _, s => s
  | _ + 1, [], s => s
  | fuel + 1, text, s =>
    match parsePasteControlReply text with
    | some reply =>
      let emitted := if reply.press then
          { s.emit multiline reply.character with
            afterCarriageReturn := decide (reply.character = 0x0D) }
        else s
      normalizeLoop multiline fuel (text.drop reply.consumed) { emitted with inPathToken := false }
    | none =>
      let decoded := decodeUtf8 text
      if s.afterCarriageReturn ∧ decoded.1 = 0x0A then
        normalizeLoop multiline fuel (text.drop decoded.2) { s with afterCarriageReturn := false }
      else
        let startsPath := !s.inPathToken && startsPathToken text
        let spaced := if startsPath ∧ isWordCharacter s.previousCharacter then
            { s with result := s.result ++ [0x20], previousCharacter := 0x20 }
          else s
        normalizeLoop multiline fuel (text.drop decoded.2)
          { spaced.emit multiline decoded.1 with
            afterCarriageReturn := decide (decoded.1 = 0x0D)
            inPathToken := !endsToken decoded.1 && (s.inPathToken || startsPath) }

def normalizePastedText (text : Bytes) (multiline : Bool) (before after : Bytes) : Bytes :=
  let done := normalizeLoop multiline text.length text { previousCharacter := before.getLast?.getD 0 }
  if done.inPathToken ∧ (done.result.getLast?.any isPathTrailingCharacter) ∧
      (after.head?.any isWordCharacter) then done.result ++ [0x20]
  else done.result

/-! ## Paste markers -/

/-- `std::to_string` of a number. -/
def decimalText (n : Nat) : Bytes := (Double.digitsOf n).map fun digit => UInt8.ofNat (0x30 + digit)

def markerFor (id : Nat) (text : Bytes) : Bytes := let lines := text.count 0x0A + 1
  if 10 < lines then
    ofString "[paste #" ++ decimalText id ++ ofString " +" ++ decimalText lines ++ ofString " lines]"
  else
    ofString "[paste #" ++ decimalText id ++ ofString " " ++ decimalText (utf16CodeUnitCount text) ++ " chars]"

/-- The new text of a marker in `forget_paste`; there is none when `substr` throws. -/
def renumberMarker (marker : Bytes) (number : Nat) : Option Bytes :=
  let numberStart := (marker.idxOf? 0x23).elim 0 (· + 1)
  ((marker.drop numberStart).idxOf? 0x20).map fun length =>
    marker.take numberStart ++ decimalText number ++ marker.drop (numberStart + length)

/-! ## Words -/

structure WordSegment where
  byteStart : Nat
  byteEnd : Nat
  wordLike : Bool
  deriving DecidableEq

/-- `split_graphemes` and `segment_words`. -/
structure Segmenter where
  splitGraphemes : Bytes → List Bytes
  segmentWords : Bytes → Expected (List WordSegment)

/-- The segments of adjacent groups of bytes, from a position on. -/
def groupSegments : Nat → List Bytes → List WordSegment
  | _, [] => []
  | position, group :: rest =>
    ⟨position, position + group.length, group.all fun byte => 0x61 ≤ byte ∧ byte ≤ 0x7A⟩ ::
      groupSegments (position + group.length) rest

/-- The answers for lower-case letters, spaces and punctuation: every byte is a grapheme, and
letters that stand together are a word. -/
def asciiSegmenter : Segmenter where
  splitGraphemes text := text.map fun byte => [byte]
  segmentWords text := .ok (groupSegments 0 (text.splitBy fun a b =>
    (0x61 ≤ a ∧ a ≤ 0x7A) ∧ (0x61 ≤ b ∧ b ≤ 0x7A)))

structure WordAtomicSpan where
  byteStart : Nat
  byteEnd : Nat
  deriving DecidableEq

structure NavigationSegment where
  byteStart : Nat
  byteEnd : Nat
  wordLike : Bool := false
  atomic : Bool := false
  deriving DecidableEq

/-- The piece of a word that a turn of `merge_atomic_spans` takes, with the words and spans that are left. -/
def wordPiece (words : List WordSegment) (spans : List WordAtomicSpan) (position nextAtomic : Nat) :
    Option (NavigationSegment × List WordSegment × List WordAtomicSpan) :=
  match words with
  | [] => none
  | word :: later =>
    let pieceEnd := min word.byteEnd nextAtomic
    if pieceEnd ≤ position then none
    else
      some ({ byteStart := position, byteEnd := pieceEnd, wordLike := word.wordLike }, word :: later, spans)

/-- One turn of the loop of `merge_atomic_spans`. -/
def nextSegment (finish : Nat) (words : List WordSegment) (spans : List WordAtomicSpan) (position : Nat) :
    Option (NavigationSegment × List WordSegment × List WordAtomicSpan) :=
  let spans := spans.dropWhile fun span => decide (span.byteEnd ≤ position)
  let words := words.dropWhile fun word => decide (word.byteEnd ≤ position)
  match spans with
  | span :: later =>
    if span.byteStart = position then
      some ({ byteStart := span.byteStart, byteEnd := span.byteEnd, atomic := true }, words, later)
    else wordPiece words (span :: later) position span.byteStart
  | [] => wordPiece words [] position finish

/-- The loop of `merge_atomic_spans`; every turn moves the position on. -/
def mergeLoop (finish : Nat) : Nat → List WordSegment → List WordAtomicSpan → Nat → List NavigationSegment
  | 0, _, _, _ => []
  | fuel + 1, words, spans, position =>
    if finish ≤ position then []
    else
      match nextSegment finish words spans position with
      | none => []
      | some (segment, words, spans) =>
        segment :: mergeLoop finish fuel words spans segment.byteEnd

def mergeAtomicSpans (words : List WordSegment) (spans : List WordAtomicSpan) : List NavigationSegment :=
  let finish := (words.getLast?.map WordSegment.byteEnd).getD 0
  mergeLoop finish finish words spans 0

def clipAtomicSpans (spans : List WordAtomicSpan) (start finish : Nat) : List WordAtomicSpan :=
  (spans.filter fun span => !(span.byteEnd ≤ start || finish ≤ span.byteStart)).map fun span =>
    { byteStart := max span.byteStart start - start, byteEnd := min span.byteEnd finish - start }

/-- The code points that `whitespace_segment` skips. -/
def isEcmascriptSpace (codepoint : Nat) : Bool :=
  (0x09 ≤ codepoint ∧ codepoint ≤ 0x0D) ∨ codepoint = 0x20 ∨ codepoint = 0xA0 ∨ codepoint = 0x1680 ∨
    (0x2000 ≤ codepoint ∧ codepoint ≤ 0x200A) ∨ codepoint = 0x2028 ∨ codepoint = 0x2029 ∨
    codepoint = 0x202F ∨ codepoint = 0x205F ∨ codepoint = 0x3000 ∨ codepoint = 0xFEFF

def whitespaceSegment (text : Bytes) : Bool :=
  text ≠ [] && (decodeAll text.length text).all fun decoded => isEcmascriptSpace decoded.1

def isAsciiPunctuation (byte : UInt8) : Bool := byte ∈ ofString "()\x7b\x7d[]<>.,;:'\"!?+-=*/\\|&%^$#@~\x60"

def NavigationSegment.text (segment : NavigationSegment) (text : Bytes) : Bytes :=
  (text.take segment.byteEnd).drop segment.byteStart

/-- A segment of white space that a search skips. -/
def NavigationSegment.isSpace (segment : NavigationSegment) (text : Bytes) : Bool :=
  !segment.atomic && whitespaceSegment (segment.text text)

/-- A segment that a search over punctuation goes past. -/
def NavigationSegment.isPunctuation (segment : NavigationSegment) (text : Bytes) : Bool :=
  !(segment.atomic || segment.wordLike || whitespaceSegment (segment.text text))

/-- `find_word_backward`. The segments are taken from their end. -/
def findWordBackward (lib : Segmenter) (text : Bytes) (cursor : Nat) (spans : List WordAtomicSpan) :
    Expected Nat := do
  let cursor := min cursor text.length
  if cursor = 0 then return 0
  let start := text.take cursor
  let words ← lib.segmentWords start
  let segments := (mergeAtomicSpans words (clipAtomicSpans spans 0 cursor)).reverse
  let skipped := segments.takeWhile (·.isSpace start)
  match segments.dropWhile (·.isSpace start) with
  | [] => return (skipped.getLast?.map NavigationSegment.byteStart).getD cursor
  | last :: _ =>
    if last.atomic then return last.byteStart
    else if last.wordLike then
      -- A word starts after the last punctuation inside it.
      let inside := (last.text start).reverse.takeWhile fun byte => !isAsciiPunctuation byte
      return last.byteEnd - inside.length
    else
      let rest := segments.dropWhile (·.isSpace start)
      match rest.dropWhile (·.isPunctuation start) with
      | [] => return ((rest.getLast?).map NavigationSegment.byteStart).getD last.byteStart
      | before :: _ => return before.byteEnd

def findWordForward (lib : Segmenter) (text : Bytes) (cursor : Nat) (spans : List WordAtomicSpan) :
    Expected Nat := do
  let cursor := min cursor text.length
  if text.length ≤ cursor then return text.length
  let tail := text.drop cursor
  let words ← lib.segmentWords tail
  let segments := mergeAtomicSpans words (clipAtomicSpans spans cursor text.length)
  match segments.dropWhile (·.isSpace tail) with
  | [] => return text.length
  | first :: rest =>
    if first.atomic then return cursor + first.byteEnd
    else if first.wordLike then
      let inside := (first.text tail).takeWhile fun byte => !isAsciiPunctuation byte
      return cursor + (first.byteStart + inside.length)
    else
      let passed := (first :: rest).takeWhile (·.isPunctuation tail)
      return cursor + (passed.getLast?.map NavigationSegment.byteEnd).getD first.byteEnd

end CodingHarness.Tui
