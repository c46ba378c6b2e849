import CodingHarness.Library.Lines
import CodingHarness.Support.Json

/-!
# Server-sent events

`SseParser` keeps the bytes after the last newline, and the name and the data lines of the event that is
being read. A chunk is appended to the pending bytes and then all complete lines are consumed. A failed
`append` changes nothing.
-/

namespace CodingHarness.Support

open Library

/-- `kMaxPendingBytes`. -/
def maxPendingBytes : Nat := 8 * 1024 * 1024

def newlineByte : UInt8 := 0x0A

def stripTrailingCr (line : Bytes) : Bytes := if line.getLast? = some 0x0D then line.dropLast else line

/-- An event with its name and data, or the end marker. -/
structure SseEvent where
  event : Bytes
  data : Bytes
  done : Bool
  deriving DecidableEq

/-- The unfinished line and the event so far. -/
structure SseParser where
  pending : Bytes := []
  eventName : Bytes := []
  dataLines : List Bytes := []
  deriving DecidableEq

namespace SseParser

/-- The loop of `dispatch_event` over the data lines. -/
def joinData : List Bytes → Bytes
  | [] => []
  | [line] => line
  | line :: rest => line ++ newlineByte :: joinData rest

def dispatchEvent (s : SseParser) : Option SseEvent × SseParser :=
  if s.eventName = [] ∧ s.dataLines = [] then (none, s)
  else
    let data := joinData s.dataLines
    (some {
      event := if s.eventName = [] then "message" else s.eventName
      data := data
      done := data = "[DONE]" }, { s with eventName := [], dataLines := [] })

/-- The name and the value of a line that is neither empty nor a comment. -/
def lineField (line : Bytes) : Bytes × Bytes := match line.idxOf? 0x3A with
  | none => (line, [])
  | some colon =>
    let value := line.drop (colon + 1)
    (line.take colon, if value.head? = some 0x20 then value.tail else value)

/-- `consume_line`; it does not fail. -/
def consumeLine (s : SseParser) (line : Bytes) : Option SseEvent × SseParser := if line = [] then s.dispatchEvent
  else if line.head? = some 0x3A then (none, s)
  else
    let (field, value) := lineField line
    if field = "event" then (none, { s with eventName := value })
    else if field = "data" then (none, { s with dataLines := s.dataLines ++ [value] })
    else (none, s)

theorem consumeLine_pending (s : SseParser) (line : Bytes) : (s.consumeLine line).2.pending = s.pending := by
  simp only [consumeLine, dispatchEvent]
  split_ifs <;> rfl

/-- The loop of `append`. -/
def drain (s : SseParser) : List SseEvent × SseParser := match h : s.pending.idxOf? newlineByte with
  | none => ([], s)
  | some newline =>
    let line := s.pending.take newline
    let consumed := { s with pending := s.pending.drop (newline + 1) }.consumeLine (stripTrailingCr line)
    let drained := consumed.2.drain
    (consumed.1.toList ++ drained.1, drained.2)
termination_by s.pending.length
decreasing_by
  rw [consumeLine_pending, List.length_drop]
  obtain ⟨hlt, -⟩ := List.idxOf?_eq_some_iff.1 h
  omega

/-- `append`; `none` is the error of the buffer limit. -/
def append (s : SseParser) (bytes : Bytes) : Option (List SseEvent × SseParser) :=
  if maxPendingBytes < s.pending.length + bytes.length then none
  else some { s with pending := s.pending ++ bytes }.drain

def finish (s : SseParser) : Option SseEvent × SseParser := if s.pending ≠ [] then
    let consumed := { s with pending := [] }.consumeLine (stripTrailingCr s.pending)
    match consumed.1 with
    | some event => (some event, consumed.2)
    | none => consumed.2.dispatchEvent
  else s.dispatchEvent

/-- The events of a stream that comes in chunks; `none` when an `append` reports the limit. -/
def read (s : SseParser) : List Bytes → Option (List SseEvent)
  | [] => some s.finish.1.toList
  | chunk :: rest =>
    (s.append chunk).bind fun appended => (appended.2.read rest).map fun events => appended.1 ++ events

end SseParser

end CodingHarness.Support
