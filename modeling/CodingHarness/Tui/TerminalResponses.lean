import CodingHarness.Tui.StdinBuffer

/-!
# Replies of the terminal in the input stream

The grammars of the replies that `TerminalStreamDecoder` takes out of the input: the cursor position, the cell
size, the keyboard protocol, the program status and the colors. `scanTerminalResponse` looks at one complete
escape sequence. The two computations with floating point numbers are parameters (`ColorArithmetic`): the level of
a color channel and the appearance of a color.
-/

namespace CodingHarness.Tui.InputDecoder

open Library Support

/-! ## Numbers -/

/-- `std::from_chars` for an unsigned number of the given width, over the whole text. -/
def parseUnsigned (bits : Nat) (text : Bytes) : Option Nat :=
  let value := text.foldl (fun value digit => value * 10 + (digit.toNat - 0x30)) 0
  if text ≠ [] ∧ text.all isDigit ∧ value < 2 ^ bits then some value else none

/-- `std::from_chars` for an `int`, over the whole text. -/
def parseInt : Bytes → Option Int
  | 0x2D :: digits =>
    match parseUnsigned 32 digits with
    | some value => if value ≤ 2 ^ 31 then some (-value) else none
    | none => none
  | digits => (parseUnsigned 31 digits).map Int.ofNat

/-- Two numbers with a separator between them. -/
def parsePair (separator : UInt8) (body : Bytes) : Option (Nat × Nat) := match cutAt [separator] body with
  | none => none
  | some (first, second) =>
    match parseUnsigned 64 first, parseUnsigned 64 second with
    | some a, some b => some (a, b)
    | _, _ => none

/-- Three numbers with semicolons between them. -/
def isNumberTriple (body : Bytes) : Bool := let numbers := body.splitOn 0x3B
  numbers.all (fun part => !part.isEmpty && part.all isDigit) && numbers.length == 3

/-! ## Colors -/

inductive TerminalAppearance where
  | unknown
  | dark
  | light
  deriving DecidableEq

/-- `RgbColor`, whose channels the modelled code sets to whole numbers only. -/
structure RgbColor where
  red : Int
  green : Int
  blue : Int
  deriving DecidableEq

/-- What the colors need of floating point numbers: `std::round(value / maximum * 255.0)`, and
`appearance_for_rgb`. -/
structure ColorArithmetic where
  channelLevel : Nat → Nat → Int
  appearanceForRgb : RgbColor → TerminalAppearance

inductive OscColorTarget where
  | foreground
  | background
  | palette (index : Nat)
  deriving DecidableEq

structure OscColorResponse where
  target : OscColorTarget
  rgb : Option RgbColor
  deriving DecidableEq

def hexDigit (c : UInt8) : Option Nat := if isDigit c then some (c.toNat - 0x30)
  else if 0x61 ≤ c ∧ c ≤ 0x66 then some (10 + c.toNat - 0x61)
  else if 0x41 ≤ c ∧ c ≤ 0x46 then some (10 + c.toNat - 0x41)
  else none

def parseOscHexChannel (arithmetic : ColorArithmetic) (channel : Bytes) : Option Int :=
  if channel = [] ∨ 8 < channel.length then none
  else
    match channel.mapM hexDigit with
    | none => none
    | some digits =>
      some (arithmetic.channelLevel (digits.foldl (fun value digit => value * 16 + digit) 0)
        (16 ^ channel.length - 1))

/-- A color from the texts of its three channels. -/
def parseChannels (arithmetic : ColorArithmetic) (red green blue : Bytes) : Option RgbColor :=
  match parseOscHexChannel arithmetic red, parseOscHexChannel arithmetic green,
      parseOscHexChannel arithmetic blue with
  | some r, some g, some b => some ⟨r, g, b⟩
  | _, _, _ => none

def isBlank (c : UInt8) : Bool := c == 0x20 || c == 0x09 || c == 0x0D || c == 0x0A

def lowered (c : UInt8) : UInt8 := if 0x41 ≤ c ∧ c ≤ 0x5A then c + 0x20 else c

def startsWithCaseInsensitive (value start : Bytes) : Bool := (start.map lowered).isPrefixOf (value.map lowered)

/-- The three channels of `rgb:` and `rgba:`; a fourth one is ignored. -/
def parseSlashes (arithmetic : ColorArithmetic) (value : Bytes) : Option RgbColor := match cutAt [0x2F] value with
  | none => none
  | some (red, rest) =>
    match cutAt [0x2F] rest with
    | none => none
    | some (green, afterSecond) =>
      let blue := ((cutAt [0x2F] afterSecond).map Prod.fst).getD afterSecond
      parseChannels arithmetic red green blue

def parseOscColorValue (arithmetic : ColorArithmetic) (rawValue : Bytes) : Option RgbColor :=
  match ((rawValue.dropWhile isBlank).reverse.dropWhile isBlank).reverse with
  | [] => none
  | 0x23 :: hex =>
    if hex.length = 6 then
      parseChannels arithmetic (hex.take 2) ((hex.drop 2).take 2) ((hex.drop 4).take 2)
    else if hex.length = 12 then
      parseChannels arithmetic (hex.take 4) ((hex.drop 4).take 4) ((hex.drop 8).take 4)
    else none
  | value =>
    if startsWithCaseInsensitive value "rgba:" then parseSlashes arithmetic (value.drop 5)
    else if startsWithCaseInsensitive value "rgb:" then parseSlashes arithmetic (value.drop 4)
    else none

/-- The target of a color reply and the text of its color. -/
def parseOscTarget (inner : Bytes) : Option (OscColorTarget × Bytes) :=
  if (ofString "10;").isPrefixOf inner then some (.foreground, inner.drop 3)
  else if (ofString "11;").isPrefixOf inner then some (.background, inner.drop 3)
  else if (ofString "4;").isPrefixOf inner then
    match cutAt [0x3B] (inner.drop 2) with
    | none => none
    | some (index, rest) =>
      if index = [] ∨ 3 < index.length then none
      else
        match parseInt index with
        | none => none
        | some value => if value < 0 then none else some (.palette value.toNat, rest)
  else none

def parseOscColorResponse (arithmetic : ColorArithmetic) (data : Bytes) : Option OscColorResponse :=
  let parse (inner : Bytes) : Option OscColorResponse := match parseOscTarget inner with
    | none => none
    | some (target, rawValue) =>
      if 0x07 ∈ rawValue ∨ esc ∈ rawValue then none
      else some ⟨target, parseOscColorValue arithmetic rawValue⟩
  if !oscStart.isPrefixOf data then none
  else if [0x07].isSuffixOf data then parse (data.drop 2).dropLast
  else if stringEnd.isSuffixOf data then parse (data.drop 2).dropLast.dropLast
  else none

/-! ## Responses -/

inductive KeyboardProtocolResponseKind where
  | kittyFlags
  | deviceAttributes
  deriving DecidableEq

inductive ColorSchemeResponseKind where
  | colorScheme
  | foreground
  | background
  | palette
  deriving DecidableEq

/-- `TerminalResponseVariant`. -/
inductive TerminalResponse where
  | cursorPosition (column row : Nat)
  | cellSize (heightPx widthPx : Nat)
  | keyboardProtocol (kind : KeyboardProtocolResponseKind) (flags : Nat)
  | programStatus
  | colorScheme (kind : ColorSchemeResponseKind) (appearance : TerminalAppearance)
      (colorResponse : Option OscColorResponse)
  deriving DecidableEq

def isProgramStatusReply (sequence : Bytes) : Bool := let start := esc :: "]7501;?"
  let plain (pairs : Bytes) : Bool := pairs.all fun value => value != 0x07 && value != esc
  let body := sequence.drop start.length
  if !start.isPrefixOf sequence then false
  else if stringEnd.isSuffixOf body then plain body.dropLast.dropLast
  else if [0x07].isSuffixOf body then plain body.dropLast
  else false

/-- `kColorSchemeResponsePrefix`. -/
def colorSchemeResponseStart : Bytes := esc :: "[?997;"

/-- `kCellSizeResponsePrefix`. -/
def cellSizeResponseStart : Bytes := esc :: "[6;"

def parseCursorPositionResponse (response : Bytes) : Option TerminalResponse :=
  if csiStart.isPrefixOf response ∧ response.getLast? = some 0x52 then
    match parsePair 0x3B (response.drop 2).dropLast with
    | none => none
    | some (rows, columns) =>
      if rows = 0 ∨ columns = 0 then none else some (.cursorPosition (columns - 1) (rows - 1))
  else none

def parseCellSizeResponse (response : Bytes) : Option TerminalResponse :=
  if cellSizeResponseStart.isPrefixOf response ∧ response.getLast? = some 0x74 then
    (parsePair 0x3B (response.drop cellSizeResponseStart.length).dropLast).map fun size =>
      .cellSize size.1 size.2
  else none

def parseKeyboardProtocolResponse (response : Bytes) : Option TerminalResponse :=
  let body := (response.drop 3).dropLast
  if !(csiStart ++ [0x3F]).isPrefixOf response || response.length < 5 then none
  else if response.getLast? = some 0x75 then (parseUnsigned 32 body).map (.keyboardProtocol .kittyFlags)
  else if response.getLast? = some 0x63 ∧ body.all (fun byte => isDigit byte || byte == 0x3B) then
    some (.keyboardProtocol .deviceAttributes 0)
  else none

structure ResponseScan where
  response : Option TerminalResponse := none
  consumed : Bool := false
  deriving DecidableEq

/-- A color reply as a response; only the background tells the appearance. -/
def oscColorResponse (arithmetic : ColorArithmetic) (osc : OscColorResponse) : TerminalResponse :=
  match osc.target with
  | .foreground => .colorScheme .foreground .unknown (some osc)
  | .background =>
    .colorScheme .background ((osc.rgb.map arithmetic.appearanceForRgb).getD .unknown) (some osc)
  | .palette _ => .colorScheme .palette .unknown (some osc)

/-- The starts of the color replies, OSC 10, 11 and 4. -/
def startsColorReply (sequence : Bytes) : Bool :=
  (oscStart ++ ofString "10;").isPrefixOf sequence || (oscStart ++ ofString "11;").isPrefixOf sequence ||
    (oscStart ++ ofString "4;").isPrefixOf sequence

def scanTerminalResponse (arithmetic : ColorArithmetic) (sequence : Bytes) : ResponseScan :=
  if (esc :: "]7501;").isPrefixOf sequence then
    if isProgramStatusReply sequence then ⟨some .programStatus, true⟩ else {}
  else if colorSchemeResponseStart.isPrefixOf sequence ∧ sequence.getLast? = some 0x6E then
    let value := (sequence.drop colorSchemeResponseStart.length).dropLast
    if value = "1" then ⟨some (.colorScheme .colorScheme .dark none), true⟩
    else if value = "2" then ⟨some (.colorScheme .colorScheme .light none), true⟩
    else ⟨none, true⟩
  else
    match parseOscColorResponse arithmetic sequence with
    | some osc => ⟨some (oscColorResponse arithmetic osc), true⟩
    | none =>
      if startsColorReply sequence then ⟨none, true⟩
      else
        match parseCellSizeResponse sequence with
        | some response => ⟨some response, true⟩
        | none =>
          match parseCursorPositionResponse sequence with
          | some response => ⟨some response, true⟩
          | none =>
            match parseKeyboardProtocolResponse sequence with
            | some response => ⟨some response, true⟩
            | none => {}

def isAppearanceResponseFragment (pending : Bytes) : Bool :=
  colorSchemeResponseStart.isPrefixOf pending || startsColorReply pending

def isMouseControlSequence (sequence : Bytes) : Bool :=
  if (csiStart ++ [0x4D]).isPrefixOf sequence && sequence.length == 6 then true
  else if !(csiStart ++ [0x3C]).isPrefixOf sequence || sequence.length < 6 then false
  else if sequence.getLast? ≠ some 0x4D ∧ sequence.getLast? ≠ some 0x6D then false
  else isNumberTriple (sequence.drop 3).dropLast

/-- A sequence that is consumed without a response has the start of a report about colors. -/
theorem appearance_of_silent {arithmetic : ColorArithmetic} {sequence : Bytes}
    (h : scanTerminalResponse arithmetic sequence = ⟨none, true⟩) : isAppearanceResponseFragment sequence = true := by
  rw [isAppearanceResponseFragment, Bool.or_eq_true]
  unfold scanTerminalResponse at h
  split at h
  · split at h <;> simp at h
  split at h
  · next hscheme => exact .inl hscheme.1
  split at h
  · simp at h
  split at h
  · next hstarts => exact .inr hstarts
  · repeat' split at h
    all_goals simp at h

end CodingHarness.Tui.InputDecoder
