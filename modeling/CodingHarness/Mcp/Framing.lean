import CodingHarness.Support.Json
import CodingHarness.Library.Lines
import CodingHarness.Library.Tokens

/-!
# Framing of the stdio client

`StdioClientImpl::read_line` takes the lines of the server out of the reads of its pipe. What a read leaves behind
stays in the client for the next call: the bytes after the last newline, or, while an over-size line is dropped, that
its newline is still to come. `framing_resynchronises` says what the calls of one connection return.
-/

namespace CodingHarness.Mcp

open Library Support
open List (append_assoc length_append)

/-- `kMcpMaxMessageBytes`. -/
def mcpMaxMessageBytes : Nat := 16 * 1024 * 1024

/-- How one `async_read_some` ends. -/
inductive PipeRead where
  | data (chunk : Bytes)
  | endOfFile
  | aborted (timedOut : Bool)
  | failed

/-- The fields of the client that `read_line` uses. -/
structure LineReader where
  readBuffer : Bytes := []
  discardingOversizeFrame : Bool := false
  closed : Bool := false
  lastReadTimedOut : Bool := false
  lastReadWoken : Bool := false

/-- A line without the carriage return at its end. -/
def stripReturn (line : Bytes) : Bytes := if line.getLast? = some 0x0D then line.dropLast else line

/-- The next line of a buffer that is not empty, and what is behind it. -/
def takeLine (buffer : Bytes) : Option Bytes × Bytes :=
  match _hcut : cutAt [0x0A] buffer with
  | none => (none, buffer)
  | some (line, rest) => if stripReturn line = [] then takeLine rest else (some (stripReturn line), rest)
  termination_by buffer.length
  decreasing_by
    rw [(cutAt_symbol_eq _hcut).1]
    simp only [length_append, List.length_cons]
    omega

/-- The part of the loop before the read: a line of the buffer, or the reader that needs a read. -/
def LineReader.scan (s : LineReader) : Option Bytes × LineReader :=
  if s.discardingOversizeFrame then (none, s)
  else
    match takeLine s.readBuffer with
    | (some line, rest) => (some line, { s with readBuffer := rest })
    | (none, rest) =>
      if mcpMaxMessageBytes < rest.length then
        (none, { s with readBuffer := [], discardingOversizeFrame := true })
      else (none, { s with readBuffer := rest })

theorem LineReader.scan_found {s t : LineReader} {line : Bytes} (h : s.scan = (some line, t)) :
    ∃ rest, t = { s with readBuffer := rest } := by
  unfold LineReader.scan at h
  split at h
  · cases h
  split at h
  · cases h
    exact ⟨_, rfl⟩
  · split at h <;> cases h

/-- The part of the loop behind a read that got bytes. -/
def LineReader.receive (s : LineReader) (chunk : Bytes) : LineReader :=
  if chunk = [] then s
  else if s.discardingOversizeFrame then
    match cutAt [0x0A] chunk with
    | none => s
    | some (_, rest) => { s with readBuffer := rest, discardingOversizeFrame := false }
  else { s with readBuffer := s.readBuffer ++ chunk }

/-- A call of `read_line`: it waits for another read, or it returned. -/
inductive LineRead where
  | waiting (s : LineReader)
  | returned (line : Option Bytes) (s : LineReader) (reads : List PipeRead)

/-- The loop of `read_line` with the reads that complete from now on. -/
def readLoop (s : LineReader) : List PipeRead → LineRead
  | [] =>
    match s.scan with
    | (some line, s) => .returned (some line) s []
    | (none, s) => .waiting s
  | read :: reads =>
    match s.scan with
    | (some line, s) => .returned (some line) s (read :: reads)
    | (none, s) =>
      match read with
      | .data chunk => readLoop (s.receive chunk) reads
      | .endOfFile => .returned none { s with closed := true } reads
      | .failed => .returned none { s with closed := true } reads
      | .aborted true => .returned none { s with lastReadTimedOut := true } reads
      | .aborted false => .returned none { s with lastReadWoken := true } reads

def readLine (s : LineReader) (reads : List PipeRead) : LineRead :=
  readLoop { s with lastReadTimedOut := false, lastReadWoken := false } reads

/-- What a connection has returned after a number of calls: the lines, and the reads that no call has taken. -/
def readLines : Nat → LineReader → List PipeRead → List Bytes × List PipeRead
  | 0, _, reads => ([], reads)
  | calls + 1, s, reads =>
    match readLine s reads with
    | .waiting _ => ([], [])
    | .returned line s reads =>
      let (lines, left) := readLines calls s reads
      (line.toList ++ lines, left)

/-- The bytes that the reads got. -/
def received (reads : List PipeRead) : Bytes := reads.flatMap fun read =>
  match read with
  | .data chunk => chunk
  | _ => []

/-! ## Kept and dropped lines -/

/-- What the lines that are kept are returned as. -/
def delivered (lines : List (Bytes × Bool)) : List Bytes :=
  ((lines.filter Prod.snd).map fun line => stripReturn line.1).filter (· ≠ [])

/-- A stream of complete lines, each with whether it is kept, and a part that follows them; only over-size lines
are dropped. -/
structure Lined (stream : Bytes) (lines : List (Bytes × Bool)) (part : Bytes) : Prop where
  whole : ∀ line ∈ lines, 0x0A ∉ line.1
  oversize : ∀ line ∈ lines, line.2 = false → mcpMaxMessageBytes < line.1.length
  joined : stream = Lines.join 0x0A (lines.map Prod.fst) ++ part

/-- The part behind the lines is what the reader has buffered, or what it is dropping. -/
def Framed (stream : Bytes) (lines : List (Bytes × Bool)) (s : LineReader) : Prop :=
  ∃ part, Lined stream lines part ∧ (s.discardingOversizeFrame = false → s.readBuffer = part) ∧
    (s.discardingOversizeFrame = true → s.readBuffer = [] ∧ 0x0A ∉ part ∧ mcpMaxMessageBytes < part.length)

variable {stream part : Bytes} {lines : List (Bytes × Bool)} {s : LineReader}

theorem delivered_append (first later : List (Bytes × Bool)) :
    delivered (first ++ later) = delivered first ++ delivered later := by
  simp [delivered]

section

variable (h : Lined stream lines part)
include h

theorem delivered_length : (delivered lines).length ≤ stream.length := by
  have hlines : ∀ lines : List (Bytes × Bool), lines.length ≤ (Lines.join 0x0A (lines.map Prod.fst)).length := by
    intro lines
    induction lines with
    | nil => simp
    | cons line rest ih =>
      simp only [List.map_cons, Lines.join_cons, length_append, List.length_cons]
      omega
  have hkept : (delivered lines).length ≤ lines.length := by
    refine (List.length_filter_le _ _).trans ?_
    rw [List.length_map]
    exact List.length_filter_le _ _
  rw [h.joined, length_append]
  have := hlines lines
  omega

/-- One more line, of the bytes up to the next newline. -/
theorem Lined.line {line rest : Bytes} (hpart : part = line ++ 0x0A :: rest)
    (hline : 0x0A ∉ line) (kept : Bool) (hkept : kept = false → mcpMaxMessageBytes < line.length) :
    Lined stream (lines ++ [(line, kept)]) rest where
  whole := List.forall_mem_append.2 ⟨h.whole, by simpa using hline⟩
  oversize := List.forall_mem_append.2 ⟨h.oversize, by simpa using hkept⟩
  joined := by
    rw [h.joined, hpart]
    simp

theorem Lined.more (chunk : Bytes) : Lined (stream ++ chunk) lines (part ++ chunk) where
  whole := h.whole
  oversize := h.oversize
  joined := by rw [h.joined, append_assoc]

/-- Taking a line keeps the lines up to it, and there is none only when there is no newline left. -/
theorem Lined.takeLine : ∃ lines', Lined stream lines' (takeLine part).2 ∧
    delivered lines' = delivered lines ++ (takeLine part).1.toList ∧
    ((takeLine part).1 = none → 0x0A ∉ (takeLine part).2) := by
  fun_induction Mcp.takeLine part generalizing lines with
  | case1 buffer hcut => exact ⟨lines, h, by simp, fun _ => cutAt_symbol_none hcut⟩
  | case2 buffer line rest hcut hempty ih =>
    obtain ⟨hbuffer, hline⟩ := cutAt_symbol_eq hcut
    obtain ⟨lines', hlined, hadds, hnone⟩ := ih (h.line hbuffer hline true nofun)
    refine ⟨lines', hlined, ?_, hnone⟩
    rw [hadds, delivered_append]
    simp [delivered, hempty]
  | case3 buffer line rest hcut hreturned =>
    obtain ⟨hbuffer, hline⟩ := cutAt_symbol_eq hcut
    refine ⟨_, h.line hbuffer hline true nofun, ?_, nofun⟩
    rw [delivered_append]
    simp [delivered, hreturned]

end

/-! ## Calls -/

theorem Framed.scan (h : Framed stream lines s) : ∃ lines', Framed stream lines' s.scan.2 ∧
    delivered lines' = delivered lines ++ s.scan.1.toList ∧
    (s.scan.1 = none → ∃ part, Lined stream lines' part ∧ 0x0A ∉ part) := by
  obtain ⟨part, hlined, hbuffer, hdropped⟩ := h
  unfold LineReader.scan
  split
  · next hdiscard =>
    exact ⟨lines, ⟨part, hlined, hbuffer, hdropped⟩, by simp, fun _ => ⟨part, hlined, (hdropped hdiscard).2.1⟩⟩
  next hkeep =>
  rw [Bool.not_eq_true] at hkeep
  rw [hbuffer hkeep]
  obtain ⟨lines', hlined', hadds, hnone⟩ := hlined.takeLine
  generalize Mcp.takeLine part = found at hlined' hadds hnone
  obtain ⟨_ | line, rest⟩ := found
  · simp only
    split
    · next hsize => exact ⟨lines', ⟨rest, hlined', nofun, fun _ => ⟨rfl, hnone rfl, hsize⟩⟩, hadds,
        fun _ => ⟨rest, hlined', hnone rfl⟩⟩
    · exact ⟨lines', ⟨rest, hlined', fun _ => rfl, by simp [hkeep]⟩, hadds, fun _ => ⟨rest, hlined', hnone rfl⟩⟩
  · exact ⟨lines', ⟨rest, hlined', fun _ => rfl, by simp [hkeep]⟩, hadds, nofun⟩

theorem Framed.receive (h : Framed stream lines s) (chunk : Bytes) :
    ∃ lines', Framed (stream ++ chunk) lines' (s.receive chunk) ∧ delivered lines' = delivered lines := by
  obtain ⟨part, hlined, hbuffer, hdropped⟩ := h
  have hmore := hlined.more chunk
  unfold LineReader.receive
  split
  · next hempty => exact ⟨lines, ⟨part, by simpa [hempty] using hmore, hbuffer, hdropped⟩, rfl⟩
  split
  · next hdiscard =>
    obtain ⟨hnothing, hpart, hsize⟩ := hdropped hdiscard
    split
    · next hcut =>
      have hpart' : 0x0A ∉ part ++ chunk := by simp [hpart, cutAt_symbol_none hcut]
      have hsize' : mcpMaxMessageBytes < (part ++ chunk).length := by
        rw [length_append]
        omega
      exact ⟨lines, ⟨_, hmore, by simp [hdiscard], fun _ => ⟨hnothing, hpart', hsize'⟩⟩, rfl⟩
    next before rest hcut =>
    obtain ⟨hchunk, hprev⟩ := cutAt_symbol_eq hcut
    have hlong : mcpMaxMessageBytes < (part ++ before).length := by
      rw [length_append]
      omega
    have hcut : part ++ chunk = (part ++ before) ++ 0x0A :: rest := by simp [hchunk]
    refine ⟨_, ⟨rest, hmore.line hcut (by simp [hpart, hprev]) false fun _ => hlong, fun _ => rfl, nofun⟩, ?_⟩
    rw [delivered_append]
    simp [delivered]
  · next hkeep =>
    rw [Bool.not_eq_true] at hkeep
    exact ⟨lines, ⟨_, hmore, fun _ => by rw [hbuffer hkeep], by simp [hkeep]⟩, rfl⟩

theorem received_append (first later : List PipeRead) : received (first ++ later) = received first ++ received later :=
  List.flatMap_append

/-- What a call leaves. A call that waits has used up the reads and leaves no complete line. -/
inductive Called (stream : Bytes) (lines : List (Bytes × Bool)) (reads : List PipeRead) : LineRead → Prop where
  | waiting (lines' : List (Bytes × Bool)) (part : Bytes) (s : LineReader)
      (lined : Lined (stream ++ received reads) lines' part) (broken : 0x0A ∉ part)
      (same : delivered lines' = delivered lines) : Called stream lines reads (.waiting s)
  | returned (taken left : List PipeRead) (line : Option Bytes) (lines' : List (Bytes × Bool)) (s : LineReader)
      (split : reads = taken ++ left) (framed : Framed (stream ++ received taken) lines' s)
      (adds : delivered lines' = delivered lines ++ line.toList) (progress : 0 < line.toList.length + taken.length) :
      Called stream lines reads (.returned line s left)

theorem Framed.readLoop (h : Framed stream lines s) (reads : List PipeRead) :
    Called stream lines reads (readLoop s reads) := by
  induction reads generalizing stream lines s with
  | nil =>
    obtain ⟨lines', hframed, hadds, hnone⟩ := h.scan
    unfold Mcp.readLoop
    generalize s.scan = found at hframed hadds hnone
    obtain ⟨_ | line, s'⟩ := found
    · obtain ⟨part, hlined, hbroken⟩ := hnone rfl
      exact .waiting lines' part s' (by simpa [received] using hlined) hbroken (by simpa using hadds)
    · exact .returned [] [] (some line) lines' s' rfl (by simpa [received] using hframed) hadds (by simp)
  | cons read reads ih =>
    obtain ⟨lines', hframed, hadds, -⟩ := h.scan
    unfold Mcp.readLoop
    generalize s.scan = found at hframed hadds
    obtain ⟨_ | line, s'⟩ := found
    · have hends : ∀ t : LineReader, Framed stream lines' t → received [read] = [] →
          Called stream lines (read :: reads) (.returned none t reads) := by
        intro t ht hread
        exact .returned [read] reads none lines' t rfl (by rw [hread, List.append_nil]; exact ht) hadds (by simp)
      cases read with
      | data chunk =>
        obtain ⟨lines'', hframed', hsame⟩ := hframed.receive chunk
        have hlines : delivered lines'' = delivered lines := by simpa [hsame] using hadds
        have hcalled := ih hframed'
        have hcons : ∀ taken, received (.data chunk :: taken) = chunk ++ received taken := fun _ => rfl
        simp only
        generalize Mcp.readLoop (s'.receive chunk) reads = outcome at hcalled ⊢
        cases hcalled with
        | waiting lines₁ part s₁ lined broken same =>
          exact .waiting lines₁ part s₁ (by rw [hcons, ← append_assoc]; exact lined) broken (same.trans hlines)
        | returned taken left line lines₁ s₁ split framed adds progress =>
          exact .returned (.data chunk :: taken) left line lines₁ s₁ (by rw [split]; rfl)
            (by rw [hcons, ← append_assoc]; exact framed) (by rw [adds, hlines]) (by simp)
      | endOfFile => exact hends _ hframed rfl
      | failed => exact hends _ hframed rfl
      | aborted timedOut => cases timedOut <;> exact hends _ hframed rfl
    · exact .returned [] (read :: reads) (some line) lines' s' rfl (by simpa [received] using hframed) hadds (by simp)

theorem Framed.readLines (h : Framed stream lines s) (calls : Nat) (reads : List PipeRead) :
    ∃ taken lines' part, reads = taken ++ (readLines calls s reads).2 ∧ Lined (stream ++ received taken) lines' part ∧
      delivered lines' = delivered lines ++ (readLines calls s reads).1 ∧
      ((readLines calls s reads).1.length + taken.length < calls → (readLines calls s reads).2 = [] ∧ 0x0A ∉ part) := by
  induction calls generalizing stream lines s reads with
  | zero =>
    obtain ⟨part, hlined, -⟩ := h
    exact ⟨[], lines, part, rfl, by simpa [received] using hlined, by simp [Mcp.readLines], by omega⟩
  | succ calls ih =>
    have hstart : Framed stream lines { s with lastReadTimedOut := false, lastReadWoken := false } := h
    have hcalled := hstart.readLoop reads
    unfold Mcp.readLines readLine
    generalize Mcp.readLoop { s with lastReadTimedOut := false, lastReadWoken := false } reads = outcome at hcalled ⊢
    cases hcalled with
    | waiting lines' part s' lined broken same =>
      exact ⟨reads, lines', part, by simp, lined, by simpa using same, fun _ => ⟨rfl, broken⟩⟩
    | returned taken left line lines' s' split framed adds progress =>
      obtain ⟨taken', lines'', part, hsplit, hlined, hadds, hdone⟩ := ih framed left
      simp only
      refine ⟨taken ++ taken', lines'', part, ?_, ?_, ?_, fun hcalls => hdone ?_⟩
      · rw [append_assoc, ← hsplit]
        exact split
      · rw [received_append, ← append_assoc]
        exact hlined
      · rw [hadds, adds, append_assoc]
      · simp only [length_append] at hcalls
        omega

/-- **Framing resynchronises.** After any number of calls, the stream that was read is a sequence of complete lines
and a part of the next one, and the calls returned the lines that were kept, in order; the others are over-size. Once
there were more calls than bytes and reads, every read is used and the part holds no newline. -/
theorem framing_resynchronises (reads : List PipeRead) (calls : Nat) :
    ∃ taken left lines part, reads = taken ++ left ∧ readLines calls {} reads = (delivered lines, left) ∧
      received taken = Lines.join 0x0A (lines.map Prod.fst) ++ part ∧
      (∀ line ∈ lines, 0x0A ∉ line.1 ∧ (line.2 = false → mcpMaxMessageBytes < line.1.length)) ∧
      ((received reads).length + reads.length < calls → left = [] ∧ 0x0A ∉ part) := by
  have hstart : Framed [] [] {} := ⟨[], ⟨by simp, by simp, rfl⟩, fun _ => rfl, nofun⟩
  obtain ⟨taken, lines, part, hsplit, hlined, hadds, hdone⟩ := hstart.readLines calls reads
  have hadds' : (readLines calls {} reads).1 = delivered lines := by simpa [delivered] using hadds.symm
  refine ⟨taken, (readLines calls {} reads).2, lines, part, hsplit, Prod.ext hadds' rfl, hlined.joined,
    fun line hline => ⟨hlined.whole line hline, hlined.oversize line hline⟩, fun hcalls => hdone ?_⟩
  have hbytes := delivered_length hlined
  have hreads := congrArg List.length hsplit
  have hreceived := congrArg (fun reads => (received reads).length) hsplit
  simp only [received_append, length_append, List.nil_append] at hbytes hreads hreceived
  rw [hadds']
  omega

end CodingHarness.Mcp
