import CodingHarness.Library.Markers
import CodingHarness.Tui.TerminalResponses

/-!
# The stream decoder of terminal input

`TerminalStreamDecoder` takes raw bytes and tells apart replies of the terminal, mouse reports, keys and pastes.
A byte is looked at in one of three modes: inside a paste, while an overlong escape sequence is skipped, or as part
of the pending bytes, from which `drain` takes complete sequences. `drainOnce` is one turn of its loop. The loop
has a fuel, and every function that calls it answers `none` when the fuel runs out; `feed` and `flush` are followed
from there. Decoding a key (`parse_raw_sequence`) is a parameter: the decoder only hands its result on.
-/

namespace CodingHarness.Tui.InputDecoder

open Library Support

universe u

variable {Key : Type u}

/-- `kMaxPendingBytes`. -/
def maxPendingBytes : Nat := 256

/-- The largest `std::size_t`. -/
def sizeMax : Nat := 2 ^ 64 - 1

/-! ## Lengths of sequences -/

/-- `utf8_sequence_length`; a byte that starts no sequence has length zero. -/
def utf8SequenceLength (lead : UInt8) : Nat := if lead < 0x80 then 1
  else if lead &&& 0xE0 = 0xC0 then 2
  else if lead &&& 0xF0 = 0xE0 then 3
  else if lead &&& 0xF8 = 0xF0 then 4
  else 0

def validUtf8Prefix (input : Bytes) (length : Nat) : Bool :=
  length != 0 && length ≤ input.length && (input.take length).tail.all fun byte => byte &&& 0xC0 == 0x80

/-- The control sequences of `escape_sequence_length`, after `ESC [`. -/
def csiSequenceLength (rest : Bytes) : Option Nat := match rest with
  | 0x5B :: body =>
    match body with
    | [] => none
    | final :: _ =>
      if 0x41 ≤ final ∧ final ≤ 0x45 then some 4
      else (body.findIdx? (· == 0x7E)).map (· + 4)
  | 0x4D :: body => if 3 ≤ body.length then some 6 else none
  | 0x3C :: body =>
    match body.findIdx? fun byte => byte == 0x4D || byte == 0x6D with
    | none => none
    | some finish => if isNumberTriple (body.take finish) then some (finish + 4) else none
  | _ =>
    match rest.findIdx? fun byte => 0x40 ≤ byte && byte ≤ 0x7E with
    | some index => some (index + 3)
    | none =>
      -- The six legacy forms that end in a dollar sign.
      match rest with
      | [digit, 0x24] => if 0x32 ≤ digit ∧ digit ≤ 0x38 ∧ digit ≠ 0x34 then some 4 else none
      | _ => none

/-- The end of an operating system command, after `ESC ]`: at a bell or a string terminator. -/
def oscSequenceLength (rest : Bytes) : Option Nat := let bell := (rest.findIdx? (· == 0x07)).map (· + 3)
  let terminator := (cutAt stringEnd rest).map (·.1.length + 4)
  match bell, terminator with
  | some a, some b => some (min a b)
  | some a, none => some a
  | none, other => other

def escapeSequenceLength (pending : Bytes) (endOfFeed : Bool) : Option Nat := match pending with
  | first :: kind :: rest =>
    if first ≠ esc then none
    else if kind = 0x5B then csiSequenceLength rest
    else if kind = 0x4F then if rest = [] then none else some 3
    else if kind = 0x5D then oscSequenceLength rest
    else if kind = 0x50 ∨ kind = 0x5F then (cutAt stringEnd rest).map (·.1.length + 4)
    else if kind = esc ∧ opensSequence rest.head? then some 1
    else if rest ≠ [] ∨ endOfFeed then some 2
    else none
  | _ => none

/-! ## The decoder -/

/-- What kind of over-long sequence is skipped. -/
inductive EscapeDiscardMode where
  | none
  | csi
  | osc
  | stringTerminated
  deriving DecidableEq

structure PasteEvent where
  text : Bytes
  originalBytes : Nat
  lines : Nat
  truncated : Bool
  deriving DecidableEq

/-- `InputEventVariant`. -/
inductive InputEvent (Key : Type u) where
  | key (event : Key)
  | paste (event : PasteEvent)
  deriving DecidableEq

structure StreamDecodeResult (Key : Type u) where
  responses : List TerminalResponse := []
  events : List (InputEvent Key) := []
  forwardedInput : Bytes := []
  mouseFrames : List Bytes := []
  deriving DecidableEq

structure TerminalStreamDecoder where
  pending : Bytes := []
  discardMode : EscapeDiscardMode := .none
  discardSawEscape : Bool := false
  pasteMode : Bool := false
  pasteText : Bytes := []
  pasteEndCandidate : Bytes := []
  pasteOriginalBytes : Nat := 0
  pasteLines : Nat := 1
  demuxAppearance : Bool := true
  kittyProtocolActive : Bool := false
  deriving DecidableEq

/-- The code the decoder calls and does not look into. -/
structure Decoding (Key : Type u) where
  arithmetic : ColorArithmetic
  parseRawSequence : Bytes → Bool → Option Key

/-- The responses that are forwarded as input too. -/
def TerminalResponse.isForwarded (demuxAppearance : Bool) : TerminalResponse → Bool
  | .cellSize _ _ => true
  | .colorScheme _ _ _ => !demuxAppearance
  | .keyboardProtocol .deviceAttributes _ => !demuxAppearance
  | _ => false

/-- `StreamDecodeResult::forwarded_input` grows. -/
def StreamDecodeResult.forward (r : StreamDecodeResult Key) (bytes : Bytes) : StreamDecodeResult Key :=
  { r with forwardedInput := r.forwardedInput ++ bytes }

/-- The results of two calls after each other. -/
def StreamDecodeResult.append (r r' : StreamDecodeResult Key) : StreamDecodeResult Key where
  responses := r.responses ++ r'.responses
  events := r.events ++ r'.events
  forwardedInput := r.forwardedInput ++ r'.forwardedInput
  mouseFrames := r.mouseFrames ++ r'.mouseFrames

namespace TerminalStreamDecoder

/-! ### Pastes -/

def enterPaste (d : TerminalStreamDecoder) (r : StreamDecodeResult Key) :
    TerminalStreamDecoder × StreamDecodeResult Key :=
  ({ d with
     pending := []
     pasteMode := true
     pasteText := []
     pasteEndCandidate := []
     pasteOriginalBytes := 0
     pasteLines := 1 },
    r.forward d.pending)

def commitPasteByte (d : TerminalStreamDecoder) (byte : UInt8) : TerminalStreamDecoder := { d with
    pasteOriginalBytes := if d.pasteOriginalBytes ≠ sizeMax then d.pasteOriginalBytes + 1 else d.pasteOriginalBytes
    pasteLines := if byte = 0x0A ∧ d.pasteLines ≠ sizeMax then d.pasteLines + 1 else d.pasteLines
    pasteText := d.pasteText ++ [byte] }

def consumePasteByte (d : TerminalStreamDecoder) (byte : UInt8) (r : StreamDecodeResult Key) :
    TerminalStreamDecoder × StreamDecodeResult Key :=
  let r := r.forward [byte]
  let parts := align pasteEnd (d.pasteEndCandidate ++ [byte])
  let d : TerminalStreamDecoder := { parts.1.foldl commitPasteByte d with pasteEndCandidate := parts.2 }
  if d.pasteEndCandidate ≠ pasteEnd then (d, r)
  else
    ({ d with
       pasteMode := false
       pasteText := []
       pasteEndCandidate := []
       pasteOriginalBytes := 0
       pasteLines := 1 },
      { r with events := r.events ++ [.paste ⟨d.pasteText, d.pasteOriginalBytes, d.pasteLines, false⟩] })

/-! ### Skipping -/

/-- `discard_escape_byte`: the mode and the flag after the byte, and whether the byte is skipped. -/
def discardEscapeByte (mode : EscapeDiscardMode) (sawEscape : Bool) (byte : UInt8) :
    (EscapeDiscardMode × Bool) × Bool :=
  match mode with
  | .none => ((.none, sawEscape), false)
  | .csi =>
    if byte = esc then ((.none, sawEscape), false)
    else if 0x40 ≤ byte ∧ byte ≤ 0x7E then ((.none, sawEscape), true)
    else ((.csi, sawEscape), true)
  | mode =>
    if mode = .osc ∧ byte = 0x07 then ((.none, false), true)
    else if sawEscape ∧ byte = 0x5C then ((.none, false), true)
    else ((mode, byte == esc), true)

/-- The terminators that end the skipping of a sequence, by its second byte. -/
def discardModeOf (pending : Bytes) : EscapeDiscardMode := match pending with
  | _ :: 0x5D :: _ => .osc
  | _ :: 0x50 :: _ => .stringTerminated
  | _ :: 0x5F :: _ => .stringTerminated
  | _ => .csi

/-! ### Draining -/

/-- A sequence that is ordinary input is forwarded, and its key is decoded. -/
def forwardKey (decoding : Decoding Key) (d : TerminalStreamDecoder) (sequence : Bytes)
    (r : StreamDecodeResult Key) : StreamDecodeResult Key :=
  match decoding.parseRawSequence sequence d.kittyProtocolActive with
  | some key => { r.forward sequence with events := r.events ++ [.key key] }
  | none => r.forward sequence

/-- A sequence that `scan_terminal_response` consumes. Its response is recorded, and some responses stay visible as
input. -/
def noteResponse (d : TerminalStreamDecoder) (sequence : Bytes) (response : Option TerminalResponse)
    (r : StreamDecodeResult Key) : StreamDecodeResult Key :=
  match response with
  | some response =>
    let r := { r with responses := r.responses ++ [response] }
    if response.isForwarded d.demuxAppearance then r.forward sequence else r
  | none => if d.demuxAppearance then r else r.forward sequence

/-- What `drain` does with one complete sequence. -/
def deliver (decoding : Decoding Key) (d : TerminalStreamDecoder) (sequence : Bytes)
    (r : StreamDecodeResult Key) : StreamDecodeResult Key :=
  if sequence.head? = some esc then
    let scan := scanTerminalResponse decoding.arithmetic sequence
    if scan.consumed then d.noteResponse sequence scan.response r
    else if isMouseControlSequence sequence then { r with mouseFrames := r.mouseFrames ++ [sequence] }
    else d.forwardKey decoding sequence r
  else d.forwardKey decoding sequence r

/-- How a turn of the loop of `drain` ends. -/
inductive Turn (Key : Type u) where
  | stop (d : TerminalStreamDecoder) (r : StreamDecodeResult Key)
  | again (d : TerminalStreamDecoder) (r : StreamDecodeResult Key)

/-- One turn of the loop of `drain`. -/
def drainOnce (decoding : Decoding Key) (endOfFeed : Bool) (d : TerminalStreamDecoder)
    (r : StreamDecodeResult Key) : Turn Key :=
  let take (length : Nat) : Turn Key :=
    .again { d with pending := d.pending.drop length } (d.deliver decoding (d.pending.take length) r)
  match d.pending with
  | [] => .stop d r
  | first :: rest =>
    if d.pending.length ≤ pasteStart.length ∧ d.pending.isPrefixOf pasteStart then
      if d.pending = pasteStart then .stop (d.enterPaste r).1 (d.enterPaste r).2 else .stop d r
    else if first = esc then
      match escapeSequenceLength d.pending endOfFeed with
      | some length => take length
      | none =>
        if maxPendingBytes ≤ d.pending.length then
          .stop { d with discardMode := discardModeOf d.pending, pending := [] } r
        else .stop d r
    else
      let length := utf8SequenceLength first
      if length = 0 then .again { d with pending := rest } (r.forward [first])
      else if d.pending.length < length then .stop d r
      else if !validUtf8Prefix d.pending length then .again { d with pending := rest } (r.forward [first])
      else take length

def drain (decoding : Decoding Key) (endOfFeed : Bool) :
    Nat → TerminalStreamDecoder → StreamDecodeResult Key → Option (TerminalStreamDecoder × StreamDecodeResult Key)
  | 0, _, _ => none
  | fuel + 1, d, r =>
    match drainOnce decoding endOfFeed d r with
    | .stop d r => some (d, r)
    | .again d r => drain decoding endOfFeed fuel d r

/-! ### Calls -/

/-- The body of the loop of `feed`. -/
def feedByte (decoding : Decoding Key) (state : TerminalStreamDecoder × StreamDecodeResult Key) (byte : UInt8) :
    Option (TerminalStreamDecoder × StreamDecodeResult Key) :=
  let d := state.1
  if d.pasteMode then some (d.consumePasteByte byte state.2)
  else
    let skip := discardEscapeByte d.discardMode d.discardSawEscape byte
    let d := { d with discardMode := skip.1.1, discardSawEscape := skip.1.2 }
    if skip.2 then some (d, state.2)
    else drain decoding false (d.pending.length + 2) { d with pending := d.pending ++ [byte] } state.2

def feed (decoding : Decoding Key) (d : TerminalStreamDecoder) (input : Bytes) :
    Option (TerminalStreamDecoder × StreamDecodeResult Key) := do
  let (d, r) ← input.foldlM (feedByte decoding) (d, {})
  drain decoding true (d.pending.length + 1) d r

def flush (decoding : Decoding Key) (d : TerminalStreamDecoder) : TerminalStreamDecoder × StreamDecodeResult Key :=
  if d.pasteMode then (d, {})
  else
    let key : Option Key :=
      if d.pending.head? = some esc then decoding.parseRawSequence d.pending d.kittyProtocolActive else none
    let r : StreamDecodeResult Key :=
      if d.pending ≠ [] ∧ (!d.demuxAppearance || !isAppearanceResponseFragment d.pending) then
        { events := (key.map InputEvent.key).toList, forwardedInput := d.pending }
      else {}
    ({ d with pending := [], discardMode := .none, discardSawEscape := false }, r)

end TerminalStreamDecoder

/-- A call of the decoder. -/
inductive DecoderCall where
  | feed (input : Bytes)
  | flush
  | setDemuxAppearance (enable : Bool)
  | setKittyProtocolActive (active : Bool)
  deriving DecidableEq

def DecoderCall.apply (decoding : Decoding Key) (d : TerminalStreamDecoder) :
    DecoderCall → Option (TerminalStreamDecoder × StreamDecodeResult Key)
  | .feed input => d.feed decoding input
  | .flush => some (d.flush decoding)
  | .setDemuxAppearance enable => some ({ d with demuxAppearance := enable }, {})
  | .setKittyProtocolActive active => some ({ d with kittyProtocolActive := active }, {})

def DecoderCall.input : DecoderCall → Bytes
  | .feed input => input
  | _ => []

/-- A sequence of calls of one decoder, and its results put together. -/
def run (decoding : Decoding Key) (state : TerminalStreamDecoder × StreamDecodeResult Key)
    (calls : List DecoderCall) : Option (TerminalStreamDecoder × StreamDecodeResult Key) :=
  calls.foldlM (fun state call =>
    (call.apply decoding state.1).map fun result => (result.1, state.2.append result.2)) state

end CodingHarness.Tui.InputDecoder
