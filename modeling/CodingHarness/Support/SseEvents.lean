import CodingHarness.Support.SseParser

/-!
# Events of a chunked stream

The reference reading cuts a stream into lines and the lines into blocks at blank lines, and makes one
event of every block that has a field. `read_chunks` shows that `SseParser` returns these events however
the stream is cut, as long as no `append` reports the buffer limit, and that a stream within the limit is
always accepted. The limit is on the bytes of one `append`, so it can refuse the uncut stream.
-/

namespace CodingHarness.Support

open Library
open List (append_assoc length_append)

/-! ## The reference reading -/

/-- The lines of a stream, with LF or CRLF ends. -/
def referenceLines (stream : Bytes) : List Bytes := (stream.splitOn newlineByte).map stripTrailingCr

/-- The field of a line: what is before the colon, and what is after it and one space. A comment has none. -/
def referenceField (line : Bytes) : Option (Bytes × Bytes) := if line.head? = some 0x3A then none
  else
    let value := (line.dropWhile (· ≠ 0x3A)).tail
    some (line.takeWhile (· ≠ 0x3A), if value.head? = some 0x20 then value.tail else value)

/-- The values of the fields with a name. -/
def fieldValues (name : Bytes) (block : List Bytes) : List Bytes :=
  block.filterMap fun line => (referenceField line).bind fun field => if field.1 = name then some field.2 else none

/-- The event of a block of lines: its last name, and its data lines joined with newlines. -/
def referenceEvent (block : List Bytes) : Option SseEvent :=
  let name := (fieldValues "event" block).getLastD []
  let lines := fieldValues "data" block
  if name = [] ∧ lines = [] then none
  else
    let data := [newlineByte].intercalate lines
    some {
      event := if name = [] then "message" else name
      data := data
      done := data = "[DONE]" }

def referenceEvents (stream : Bytes) : List SseEvent :=
  ((referenceLines stream).splitOn []).filterMap referenceEvent

namespace SseParser

/-! ## Lines -/

theorem lineField_eq (line : Bytes) : lineField line = (line.takeWhile (· ≠ 0x3A),
        if (line.dropWhile (· ≠ 0x3A)).tail.head? = some 0x20 then (line.dropWhile (· ≠ 0x3A)).tail.tail
        else (line.dropWhile (· ≠ 0x3A)).tail) := by
  induction line with
  | nil => rfl
  | cons byte rest ih =>
    by_cases hcolon : byte = 0x3A
    · subst hcolon
      rfl
    have hname : (byte :: rest).takeWhile (· ≠ 0x3A) = byte :: rest.takeWhile (· ≠ 0x3A) :=
      List.takeWhile_cons_of_pos (by simpa using hcolon)
    have hvalue : (byte :: rest).dropWhile (· ≠ 0x3A) = rest.dropWhile (· ≠ 0x3A) :=
      List.dropWhile_cons_of_pos (by simpa using hcolon)
    rw [hname, hvalue, lineField, List.idxOf?_cons, if_neg (by simpa using hcolon)]
    rw [lineField] at ih
    cases hindex : rest.idxOf? 0x3A with
    | none | some colon =>
      rw [hindex] at ih
      obtain ⟨hfront, hback⟩ := Prod.mk.inj ih
      rw [← hfront, ← hback]
      rfl

/-- The parser has read the lines of the block so far. -/
structure Holds (s : SseParser) (block : List Bytes) : Prop where
  name : s.eventName = (fieldValues "event" block).getLastD []
  data : s.dataLines = fieldValues "data" block

def consumeLines (s : SseParser) : List Bytes → List SseEvent × SseParser
  | [] => ([], s)
  | line :: rest =>
    let consumed := s.consumeLine line
    let others := consumed.2.consumeLines rest
    (consumed.1.toList ++ others.1, others.2)

theorem consumeLines_append (s : SseParser) (front back : List Bytes) :
    s.consumeLines (front ++ back) = ((s.consumeLines front).1 ++ ((s.consumeLines front).2.consumeLines back).1,
        ((s.consumeLines front).2.consumeLines back).2) := by
  induction front generalizing s with
  | nil => simp [consumeLines]
  | cons line rest ih => simp [consumeLines, ih]

theorem joinData_eq (lines : List Bytes) : joinData lines = [newlineByte].intercalate lines := by
  induction lines with
  | nil => rfl
  | cons line rest ih =>
    cases rest with
    | nil => simp [joinData]
    | cons next rest => simp [joinData, ih]

variable {s : SseParser} {block lines : List Bytes}

theorem Holds.dispatch (h : s.Holds block) :
    s.dispatchEvent.1 = referenceEvent block ∧ s.dispatchEvent.2.Holds [] := by
  simp only [dispatchEvent, referenceEvent, ← h.name, ← h.data, joinData_eq]
  split_ifs with hnone
  · exact ⟨rfl, hnone.1, hnone.2⟩
  · exact ⟨rfl, rfl, rfl⟩
  · exact ⟨rfl, rfl, rfl⟩

theorem referenceField_eq (line : Bytes) :
    referenceField line = if line.head? = some 0x3A then none else some (lineField line) := by
  rw [lineField_eq]
  rfl

theorem fieldValues_concat (name : Bytes) (block : List Bytes) (line : Bytes) :
    fieldValues name (block ++ [line]) = fieldValues name block ++
      if line.head? = some 0x3A then [] else if (lineField line).1 = name then [(lineField line).2] else [] := by
  rw [fieldValues, List.filterMap_append, ← fieldValues]
  rw [List.filterMap_cons, referenceField_eq]
  split_ifs with hcomment hname
  · rfl
  · simp [hname]
  · simp [hname]

theorem Holds.consume {line : Bytes} (h : s.Holds block) (hline : line ≠ []) :
    (s.consumeLine line).1 = none ∧ (s.consumeLine line).2.Holds (block ++ [line]) := by
  rw [consumeLine, if_neg hline]
  split_ifs with hcomment
  · exact ⟨rfl, by simp [fieldValues_concat, hcomment, h.name], by simp [fieldValues_concat, hcomment, h.data]⟩
  dsimp only
  split_ifs with hevent hdata
  · have hother : ofString "event" ≠ "data" := by decide
    exact ⟨rfl, by simp [fieldValues_concat, hcomment, hevent],
      by simp [fieldValues_concat, hcomment, hevent, hother, h.data]⟩
  · have hother : ofString "data" ≠ "event" := by decide
    exact ⟨rfl, by simp [fieldValues_concat, hcomment, hdata, hother, h.name],
      by simp [fieldValues_concat, hcomment, hdata, h.data]⟩
  · exact ⟨rfl, by simp [fieldValues_concat, hcomment, hevent, h.name],
      by simp [fieldValues_concat, hcomment, hdata, h.data]⟩

theorem Holds.consumeLines (h : s.Holds block) (hlines : [] ∉ lines):
    (s.consumeLines lines).1 = [] ∧ (s.consumeLines lines).2.Holds (block ++ lines) := by
  induction lines generalizing s block with
  | nil => exact ⟨rfl, by rwa [List.append_nil]⟩
  | cons line rest ih =>
    rw [List.mem_cons, not_or] at hlines
    obtain ⟨hnone, hholds⟩ := h.consume (Ne.symm hlines.1)
    obtain ⟨hrest, hall⟩ := ih hholds hlines.2
    rw [SseParser.consumeLines, hnone, hrest]
    exact ⟨rfl, by rwa [append_assoc] at hall⟩

theorem Holds.consumeBlocks {blocks : List (List Bytes)} {last : List Bytes} (h : s.Holds [])
    (hblocks : ∀ block ∈ blocks, [] ∉ block) (hlast : [] ∉ last) :
    (s.consumeLines (Lines.join [] blocks ++ last)).1 = blocks.filterMap referenceEvent ∧
      (s.consumeLines (Lines.join [] blocks ++ last)).2.Holds last := by
  induction blocks generalizing s with
  | nil => exact h.consumeLines hlast
  | cons block blocks ih =>
    obtain ⟨hblock, hblocks⟩ := List.forall_mem_cons.1 hblocks
    obtain ⟨hnone, hholds⟩ := h.consumeLines hblock
    obtain ⟨hevent, hcleared⟩ := hholds.dispatch
    obtain ⟨hrest, hall⟩ := ih hcleared hblocks
    rw [Lines.join_cons, append_assoc, consumeLines_append, hnone, List.cons_append,
      SseParser.consumeLines, consumeLine, if_pos rfl, hevent, hrest, List.filterMap_cons]
    refine ⟨?_, hall⟩
    simp only [List.nil_append]
    cases hblock : referenceEvent block <;> simp

theorem consumeLines_dispatch (lines : List Bytes) :
    (({} : SseParser).consumeLines lines).1 ++ (({} : SseParser).consumeLines lines).2.dispatchEvent.1.toList =
      (lines.splitOn []).filterMap referenceEvent := by
  obtain ⟨blocks, last, rfl, hblocks, hlast⟩ := Lines.exists_join [] lines
  have hfresh : ({} : SseParser).Holds [] := ⟨rfl, rfl⟩
  obtain ⟨hevents, hholds⟩ := hfresh.consumeBlocks hblocks hlast
  rw [hevents, hholds.dispatch.1, Lines.splitOn_join hblocks hlast, List.filterMap_append]
  cases hlast : referenceEvent last <;> simp [hlast]

/-! ## Chunks -/

theorem consumeLine_withPending (s : SseParser) (bytes line : Bytes) : { s with pending := bytes }.consumeLine line =
      ((s.consumeLine line).1, { (s.consumeLine line).2 with pending := bytes }) := by
  simp only [consumeLine, dispatchEvent]
  split_ifs <;> rfl

theorem consumeLines_withPending (s : SseParser) (bytes : Bytes) (lines : List Bytes) :
    { s with pending := bytes }.consumeLines lines =
      ((s.consumeLines lines).1, { (s.consumeLines lines).2 with pending := bytes }) := by
  induction lines generalizing s with
  | nil => rfl
  | cons line rest ih =>
    rw [consumeLines, consumeLine_withPending]
    rw [ih]
    rfl

/-- The loop of `append` consumes the complete lines and leaves the rest. -/
theorem drain_join {torn : Bytes} (hpend : s.pending = Lines.join newlineByte lines ++ torn)
    (hlines : ∀ line ∈ lines, newlineByte ∉ line) (htorn : newlineByte ∉ torn) :
    s.drain = ((s.consumeLines (lines.map stripTrailingCr)).1,
      { (s.consumeLines (lines.map stripTrailingCr)).2 with pending := torn }) := by
  induction lines generalizing s with
  | nil =>
    rw [drain]
    have hnone : s.pending.idxOf? newlineByte = none := by
      rw [hpend]
      exact List.idxOf?_eq_none_iff.2 htorn
    split
    · simp only [List.map_nil, consumeLines, ← hpend.trans (List.nil_append torn)]
    · rename_i newline hfound
      cases hnone.symm.trans hfound
  | cons line lines ih =>
    obtain ⟨hline, hlines⟩ := List.forall_mem_cons.1 hlines
    rw [Lines.join_cons, append_assoc, List.cons_append] at hpend
    have hindex : s.pending.idxOf? newlineByte = some line.length := by
      rw [hpend]
      exact Lines.idxOf?_line hline _
    rw [drain]
    split
    · rename_i hfound
      cases hindex.symm.trans hfound
    rename_i newline hfound
    obtain rfl := Option.some.inj (hindex.symm.trans hfound)
    have htake : s.pending.take line.length = line := by rw [hpend, List.take_left]
    have hdrop : s.pending.drop (line.length + 1) = Lines.join newlineByte lines ++ torn := by
      rw [hpend, ← List.drop_drop, List.drop_left]
      rfl
    rw [htake, hdrop]
    dsimp only
    rw [consumeLine_withPending]
    rw [ih rfl hlines, consumeLines_withPending]
    rfl

/-- After some chunks the parser has consumed the complete lines of their text and holds the rest. -/
structure After (s : SseParser) (text : Bytes) (events : List SseEvent) (lines : List Bytes) : Prop where
  text : text = Lines.join newlineByte lines ++ s.pending
  complete : ∀ line ∈ lines, newlineByte ∉ line
  torn : newlineByte ∉ s.pending
  consumed : (({} : SseParser).consumeLines (lines.map stripTrailingCr)) = (events, { s with pending := [] })

variable {events new : List SseEvent}

theorem After.append {t : SseParser} {text chunk : Bytes}
    (h : s.After text events lines) (happ : s.append chunk = some (new, t)) :
    ∃ more, t.After (text ++ chunk) (events ++ new) (lines ++ more) := by
  rw [SseParser.append] at happ
  split_ifs at happ with hlimit
  obtain ⟨more, torn, hmore, hcomplete, htorn⟩ := Lines.exists_join newlineByte (s.pending ++ chunk)
  have hdrain := drain_join (s := { s with pending := s.pending ++ chunk }) hmore hcomplete htorn
  obtain ⟨hnew, hstate⟩ := Prod.mk.inj (hdrain.symm.trans (Option.some.inj happ))
  rw [consumeLines_withPending] at hnew hstate
  have hrest : ({ s with pending := [] } : SseParser).consumeLines (more.map stripTrailingCr) =
      (new, { t with pending := [] }) := by
    rw [consumeLines_withPending, ← hnew, ← hstate]
  refine ⟨more, ?_, ?_, ?_, ?_⟩
  · rw [h.text, append_assoc, hmore, Lines.join_append, append_assoc, ← hstate]
  · exact List.forall_mem_append.2 ⟨h.complete, hcomplete⟩
  · rw [← hstate]
    exact htorn
  · rw [List.map_append, consumeLines_append, h.consumed, hrest]

theorem finish_events (s : SseParser) : s.finish.1.toList =
      ({ s with pending := [] }.consumeLines [stripTrailingCr s.pending]).1 ++
        ({ s with pending := [] }.consumeLines [stripTrailingCr s.pending]).2.dispatchEvent.1.toList := by
  -- A blank line clears the event, so that the second dispatch returns nothing.
  have htwice : ∀ u : SseParser, u.dispatchEvent.2.dispatchEvent.1 = none := by
    intro u
    by_cases hnone : u.eventName = [] ∧ u.dataLines = []
    · have hsame : u.dispatchEvent = (none, u) := by rw [dispatchEvent, if_pos hnone]
      rw [hsame]
      exact congrArg Prod.fst hsame
    have hcleared : u.dispatchEvent.2 = { u with eventName := [], dataLines := [] } := by
      rw [dispatchEvent, if_neg hnone]
    rw [hcleared, dispatchEvent, if_pos ⟨rfl, rfl⟩]
  have hblank : ∀ u : SseParser, u.consumeLine [] = u.dispatchEvent := fun u => by rw [consumeLine, if_pos rfl]
  rw [finish]
  by_cases hpend : s.pending = []
  · have hstripped : stripTrailingCr s.pending = [] := by rw [hpend]; rfl
    have hsame : ({ s with pending := [] } : SseParser) = s := by rw [← hpend]
    rw [if_neg fun hne => hne hpend, hstripped, hsame, consumeLines, hblank]
    simp [consumeLines, htwice]
  rw [if_pos hpend, consumeLines]
  dsimp only
  by_cases hline : stripTrailingCr s.pending = []
  · rw [hline, hblank]
    cases hevent : ({ s with pending := [] } : SseParser).dispatchEvent.1 <;> simp [consumeLines, htwice]
  have hnone : (({ s with pending := [] } : SseParser).consumeLine (stripTrailingCr s.pending)).1 = none := by
    rw [consumeLine, if_neg hline]
    split_ifs
    · rfl
    · dsimp only
      split_ifs <;> rfl
  rw [hnone]
  simp [consumeLines]

theorem After.read {text : Bytes} {chunks : List Bytes}
    (h : s.After text events lines) (hread : s.read chunks = some new) :
    events ++ new = referenceEvents (text ++ chunks.flatten) := by
  induction chunks generalizing s text events lines new with
  | nil =>
    cases hread
    rw [List.flatten_nil, List.append_nil, referenceEvents, referenceLines, h.text,
      Lines.splitOn_join h.complete h.torn, List.map_append, ← consumeLines_dispatch, consumeLines_append,
      h.consumed, finish_events, append_assoc]
    rfl
  | cons chunk rest ih =>
    obtain ⟨⟨first, t⟩, happ, hrest⟩ := Option.bind_eq_some_iff.1 hread
    obtain ⟨others, hothers, rfl⟩ := Option.map_eq_some_iff.1 hrest
    obtain ⟨more, hafter⟩ := h.append happ
    rw [List.flatten_cons, ← append_assoc, ← append_assoc]
    exact ih hafter hothers

theorem drain_pending (s : SseParser) : s.drain.2.pending.length ≤ s.pending.length := by
  obtain ⟨lines, torn, hpend, hlines, htorn⟩ := Lines.exists_join newlineByte s.pending
  rw [drain_join hpend hlines htorn, hpend, length_append]
  exact Nat.le_add_left _ _

theorem read_accepts (s : SseParser) (chunks : List Bytes)
    (h : s.pending.length + chunks.flatten.length ≤ maxPendingBytes) : (s.read chunks).isSome := by
  induction chunks generalizing s with
  | nil => rfl
  | cons chunk rest ih =>
    rw [List.flatten_cons, length_append] at h
    have hlimit : ¬ maxPendingBytes < s.pending.length + chunk.length := by omega
    have hdrain := drain_pending { s with pending := s.pending ++ chunk }
    rw [length_append] at hdrain
    have hrest := ih { s with pending := s.pending ++ chunk }.drain.2 (by omega)
    rw [read, append, if_neg hlimit, Option.bind_some, Option.isSome_map]
    exact hrest

/-! ## The result -/

/-- **Events do not depend on the cuts.** When no `append` reports the limit, the events are those of the
reference reading, and those of the whole stream in one `append` when that is within the limit; and a stream
within the limit is accepted under every cut. -/
theorem read_chunks (chunks : List Bytes) : (∀ events, ({} : SseParser).read chunks = some events →
      events = referenceEvents chunks.flatten ∧
        ∀ whole, ({} : SseParser).read [chunks.flatten] = some whole → events = whole) ∧
      (chunks.flatten.length ≤ maxPendingBytes → (({} : SseParser).read chunks).isSome) := by
  have hstart : ({} : SseParser).After [] [] [] := ⟨rfl, (fun line hmem => nomatch hmem), List.not_mem_nil, rfl⟩
  refine ⟨fun events hread => ?_, fun hlength => read_accepts {} chunks (by simpa using hlength)⟩
  have hevents : events = referenceEvents chunks.flatten := hstart.read hread
  refine ⟨hevents, fun whole hwhole => ?_⟩
  have hone : whole = referenceEvents [chunks.flatten].flatten := hstart.read hwhole
  rw [hevents, hone, List.flatten_singleton]

theorem append_newlines {count : Nat} (h : count ≤ maxPendingBytes) :
    ({} : SseParser).append (List.replicate count newlineByte) =
      some ({ pending := List.replicate count newlineByte } : SseParser).drain ∧
      ({ pending := List.replicate count newlineByte } : SseParser).drain.2.pending = [] := by
  have hjoin : List.replicate count newlineByte = Lines.join newlineByte (List.replicate count []) ++ [] := by
    clear h
    induction count with
    | zero => rfl
    | succ count ih => rw [List.replicate_succ, List.replicate_succ, Lines.join_cons, ih]; rfl
  constructor
  · have hlimit : ¬ maxPendingBytes < ({} : SseParser).pending.length + (List.replicate count newlineByte).length := by
      rw [List.length_replicate]
      exact Nat.not_lt.2 ((Nat.zero_add count).symm ▸ h)
    rw [append, if_neg hlimit]
    rfl
  rw [drain_join (s := ⟨List.replicate count newlineByte, [], []⟩) hjoin (fun line hmem => ?_) List.not_mem_nil]
  rw [(List.mem_replicate.1 hmem).2]
  exact List.not_mem_nil

/-- A stream of newlines that is longer than the limit: it is accepted in two chunks, and refused as one. -/
theorem long_stream_uncut :
    (({} : SseParser).read [List.replicate maxPendingBytes newlineByte, [newlineByte]]).isSome ∧
      ({} : SseParser).read [[List.replicate maxPendingBytes newlineByte, [newlineByte]].flatten] = none := by
  generalize hcount : List.replicate maxPendingBytes newlineByte = newlines
  have hlength : newlines.length = maxPendingBytes := by rw [← hcount, List.length_replicate]
  obtain ⟨happend, hpending⟩ := append_newlines (Nat.le_refl maxPendingBytes)
  rw [hcount] at happend hpending
  constructor
  · rw [read, happend, Option.bind_some, Option.isSome_map]
    refine read_accepts _ _ ?_
    rw [hpending]
    decide
  have hlimit : maxPendingBytes < ({} : SseParser).pending.length + [newlines, [newlineByte]].flatten.length := by
    rw [List.flatten_cons, length_append, hlength]
    exact Nat.lt_add_of_pos_right (Nat.lt_add_of_pos_right Nat.one_pos)
  rw [read, append, if_pos hlimit]
  rfl

end SseParser

end CodingHarness.Support
