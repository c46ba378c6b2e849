import CodingHarness.Tui.StreamDecoder

/-!
# Where the bytes of the input stream go

An account cuts the input of a decoder into parts: forwarded bytes, mouse reports, replies of the terminal, pastes,
overlong sequences that were skipped, fragments dropped by `flush`, and color reports that are consumed without a
reply because their value is not understood. `Explains` says that the parts, in order, are the input, that every
part has its reason, and that the results of the calls are what the parts give. `bytes_accounted` proves an account
for every sequence of calls, and that every call ends. The last kind of part is not part of what the decoder
promises elsewhere: `colorReport_vanishes` is a run that needs it.
-/

namespace CodingHarness.Tui.InputDecoder

open Library Support
open List (append_assoc append_nil cons_ne_nil length_append length_cons)

universe u

variable {Key : Type u}

/-! ## Parts -/

/-- What became of a part of the input. -/
inductive Part where
  | forwarded (bytes : Bytes)
  | mouseFrame (sequence : Bytes)
  | response (sequence : Bytes) (answer : TerminalResponse) (forwarded : Bool)
  | consumed (sequence : Bytes)
  | skipped (head tail : Bytes)
  | dropped (fragment : Bytes)
  | paste (text : Bytes)
  deriving DecidableEq

namespace Part

/-- The bytes of a part; a paste has its markers. -/
def bytes : Part → Bytes
  | .forwarded bytes => bytes
  | .mouseFrame sequence => sequence
  | .response sequence _ _ => sequence
  | .consumed sequence => sequence
  | .skipped head tail => head ++ tail
  | .dropped fragment => fragment
  | .paste text => pasteStart ++ text ++ pasteEnd

/-- What `forwarded_input` has of a part. -/
def forwardedBytes : Part → Bytes
  | .forwarded bytes => bytes
  | .response sequence _ true => sequence
  | .paste text => pasteStart ++ text ++ pasteEnd
  | _ => []

def frame : Part → List Bytes
  | .mouseFrame sequence => [sequence]
  | _ => []

def reply : Part → List TerminalResponse
  | .response _ answer _ => [answer]
  | _ => []

/-- The event of a pasted text, whose two counters stop at the largest `std::size_t`. -/
def pasteEvent (text : Bytes) : PasteEvent :=
  ⟨text, min text.length sizeMax, min (1 + text.count 0x0A) sizeMax, false⟩

def pasted : Part → List PasteEvent
  | .paste text => [pasteEvent text]
  | _ => []

/-- Whether a part was dropped by `flush`. -/
def isDropped : Part → Bool
  | .dropped _ => true
  | _ => false

/-- Whether a part was consumed without a reply. -/
def isConsumed : Part → Bool
  | .consumed _ => true
  | _ => false

end Part

/-- The bytes that are skipped after an overlong sequence, with the mode and the flag they lead to. -/
inductive Skips (head : Bytes) : Bytes → EscapeDiscardMode → Bool → Prop where
  | start : Skips head [] (TerminalStreamDecoder.discardModeOf head) false
  | skip {tail : Bytes} {mode mode' : EscapeDiscardMode} {saw saw' : Bool} {byte : UInt8}
      (h : Skips head tail mode saw) (hmode : mode ≠ .none)
      (hbyte : TerminalStreamDecoder.discardEscapeByte mode saw byte = ((mode', saw'), true)) :
      Skips head (tail ++ [byte]) mode' saw'

/-- An escape sequence that reaches the limit of the pending bytes and is not complete. -/
def Overlong (head : Bytes) : Prop :=
  maxPendingBytes ≤ head.length ∧ head.head? = some esc ∧ ∃ endOfFeed, escapeSequenceLength head endOfFeed = none

def Part.Lawful (decoding : Decoding Key) : Part → Prop
  | .forwarded bytes => bytes ≠ []
  | .mouseFrame sequence => isMouseControlSequence sequence = true
  | .response sequence answer _ =>
    scanTerminalResponse decoding.arithmetic sequence = ⟨some answer, true⟩
  | .consumed sequence =>
    scanTerminalResponse decoding.arithmetic sequence = ⟨none, true⟩ ∧ isAppearanceResponseFragment sequence = true
  | .skipped head tail => Overlong head ∧ ∃ mode saw, Skips head tail mode saw
  | .dropped fragment => isAppearanceResponseFragment fragment = true
  | .paste text => cutAt pasteEnd (text ++ pasteEnd) = some (text, [])

/-- What the decoder is in the middle of: bytes that wait, a paste without its end marker, or skipping. -/
inductive Unfinished where
  | held (pending : Bytes)
  | paste (content : Bytes)
  | skipping (head tail : Bytes)
  deriving DecidableEq

namespace Unfinished

def bytes : Unfinished → Bytes
  | .held pending => pending
  | .paste content => pasteStart ++ content
  | .skipping head tail => head ++ tail

/-- What `forwarded_input` has of the unfinished part already. -/
def forwardedBytes : Unfinished → Bytes
  | .paste content => pasteStart ++ content
  | _ => []

end Unfinished

/-- The state of a decoder and its unfinished part. -/
inductive Reads (d : TerminalStreamDecoder) : Unfinished → Prop where
  | held (hpaste : d.pasteMode = false) (hmode : d.discardMode = .none) (hsaw : d.discardSawEscape = false) :
      Reads d (.held d.pending)
  | paste (hpaste : d.pasteMode = true) (hmode : d.discardMode = .none) (hsaw : d.discardSawEscape = false)
      (hpending : d.pending = []) (hsearch : Searching pasteEnd d.pasteText d.pasteEndCandidate)
      (hbytes : d.pasteOriginalBytes = min d.pasteText.length sizeMax)
      (hlines : d.pasteLines = min (1 + d.pasteText.count 0x0A) sizeMax) :
      Reads d (.paste (d.pasteText ++ d.pasteEndCandidate))
  | skipping {head tail : Bytes} (hpaste : d.pasteMode = false) (hpending : d.pending = [])
      (hmode : d.discardMode ≠ .none) (hoverlong : Overlong head)
      (hskips : Skips head tail d.discardMode d.discardSawEscape) : Reads d (.skipping head tail)

def StreamDecodeResult.pastes (r : StreamDecodeResult Key) : List PasteEvent := r.events.flatMap fun event =>
    match event with
    | .paste event => [event]
    | .key _ => []

/-- An account of the input and of the results of a decoder. -/
structure Explains (decoding : Decoding Key) (input : Bytes) (flushes : Nat) (r : StreamDecodeResult Key)
    (parts : List Part) (rest : Unfinished) : Prop where
  total : input = parts.flatMap Part.bytes ++ rest.bytes
  lawful : ∀ part ∈ parts, part.Lawful decoding
  forwarded : r.forwardedInput = parts.flatMap Part.forwardedBytes ++ rest.forwardedBytes
  frames : r.mouseFrames = parts.flatMap Part.frame
  replies : r.responses = parts.flatMap Part.reply
  pasted : r.pastes = parts.flatMap Part.pasted
  dropped : parts.countP Part.isDropped ≤ flushes

/-- The results of the calls so far and of the one that runs are explained. -/
def Accounted (decoding : Decoding Key) (earlier : StreamDecodeResult Key) (input : Bytes) (flushes : Nat)
    (state : TerminalStreamDecoder × StreamDecodeResult Key) : Prop :=
  ∃ parts rest, Explains decoding input flushes (earlier.append state.2) parts rest ∧ Reads state.1 rest

/-! ## Results -/

/-- The results grow by what a part gives. -/
structure Gives (part : Part) (r r' : StreamDecodeResult Key) : Prop where
  forwarded : r'.forwardedInput = r.forwardedInput ++ part.forwardedBytes
  frames : r'.mouseFrames = r.mouseFrames ++ part.frame
  replies : r'.responses = r.responses ++ part.reply
  pasted : r'.pastes = r.pastes ++ part.pasted

@[simp] theorem append_empty (r : StreamDecodeResult Key) : r.append {} = r := by
  simp [StreamDecodeResult.append]

theorem pastes_append (r r' : StreamDecodeResult Key) : (r.append r').pastes = r.pastes ++ r'.pastes := by
  simp [StreamDecodeResult.append, StreamDecodeResult.pastes]

/-- A part without a result. -/
theorem Gives.nothing {part : Part} {r : StreamDecodeResult Key} (hforward : part.forwardedBytes = [])
    (hframe : part.frame = []) (hreply : part.reply = []) (hpasted : part.pasted = []) : Gives part r r := by
  constructor
  all_goals simp [*]

theorem Gives.append {part : Part} {r r' : StreamDecodeResult Key} (h : Gives part r r')
    (earlier : StreamDecodeResult Key) : Gives part (earlier.append r) (earlier.append r') where
  forwarded := by simp [StreamDecodeResult.append, h.forwarded]
  frames := by simp [StreamDecodeResult.append, h.frames]
  replies := by simp [StreamDecodeResult.append, h.replies]
  pasted := by rw [pastes_append, pastes_append, h.pasted, append_assoc]

theorem gives_forward (bytes : Bytes) (r : StreamDecodeResult Key) :
    Gives (.forwarded bytes) r (r.forward bytes) where
  forwarded := rfl
  frames := (append_nil _).symm
  replies := (append_nil _).symm
  pasted := (append_nil _).symm

theorem deliver_gives (decoding : Decoding Key) (d : TerminalStreamDecoder) {sequence : Bytes}
    (hseq : sequence ≠ []) (r : StreamDecodeResult Key) :
    ∃ part : Part, part.bytes = sequence ∧ part.Lawful decoding ∧ part.isDropped = false ∧
      Gives part r (d.deliver decoding sequence r) := by
  have hkey : Gives (.forwarded sequence) r (d.forwardKey decoding sequence r) := by
    unfold TerminalStreamDecoder.forwardKey
    split
    · exact ⟨rfl, (append_nil _).symm, (append_nil _).symm, by simp [StreamDecodeResult.pastes, Part.pasted]⟩
    · exact gives_forward sequence r
  unfold TerminalStreamDecoder.deliver
  split
  · cases hscan : scanTerminalResponse decoding.arithmetic sequence with
    | mk response consumed =>
      cases consumed with
      | true =>
        rw [if_pos rfl]
        unfold TerminalStreamDecoder.noteResponse
        cases response with
        | some response =>
          refine ⟨.response sequence response (response.isForwarded d.demuxAppearance), rfl, hscan, rfl, ?_⟩
          simp only
          split
          · next hforw => rw [hforw]; exact ⟨rfl, by simp [StreamDecodeResult.forward, Part.frame],
              rfl, by simp [StreamDecodeResult.forward, StreamDecodeResult.pastes, Part.pasted]⟩
          next hforw =>
          rw [Bool.not_eq_true] at hforw
          rw [hforw]
          exact ⟨by simp [Part.forwardedBytes], by simp [Part.frame], rfl,
            by simp [StreamDecodeResult.pastes, Part.pasted]⟩
        | none =>
          simp only
          split
          · exact ⟨.consumed sequence, rfl, ⟨hscan, appearance_of_silent hscan⟩, rfl,
              by simp [Part.forwardedBytes], by simp [Part.frame], by simp [Part.reply],
              by simp [Part.pasted]⟩
          · exact ⟨.forwarded sequence, rfl, hseq, rfl, gives_forward sequence r⟩
      | false =>
        rw [if_neg Bool.false_ne_true]
        split
        · next hmouse =>
          exact ⟨.mouseFrame sequence, rfl, hmouse, rfl, by simp [Part.forwardedBytes], rfl,
            by simp [Part.reply], by simp [StreamDecodeResult.pastes, Part.pasted]⟩
        · exact ⟨.forwarded sequence, rfl, hseq, rfl, hkey⟩
  · exact ⟨.forwarded sequence, rfl, hseq, rfl, hkey⟩

/-! ## Lengths -/

variable {bytes : Bytes}

theorem findIdx?_lt {p : UInt8 → Bool} {index : Nat} (h : bytes.findIdx? p = some index) :
    index < bytes.length :=
  (List.findIdx?_eq_some_iff_findIdx_eq.1 h).1

theorem terminated_length {parts : Bytes × Bytes} (h : cutAt stringEnd bytes = some parts) :
    parts.1.length + 2 ≤ bytes.length := by
  have hlen := congrArg List.length (cutAt_eq h)
  simp only [length_append, stringEnd, length_cons, List.length_nil] at hlen
  omega

variable {n flushes : Nat}

theorem csiSequenceLength_bounds {rest : Bytes} (h : csiSequenceLength rest = some n) :
    1 ≤ n ∧ n ≤ rest.length + 2 := by
  unfold csiSequenceLength at h
  split at h
  · split at h
    · cases h
    · split at h
      · cases h
        simp only [length_cons]
        omega
      · obtain ⟨index, hindex, rfl⟩ := Option.map_eq_some_iff.1 h
        have hlt := findIdx?_lt hindex
        simp only [length_cons] at hlt ⊢
        omega
  · split at h
    · cases h
      simp only [length_cons]
      omega
    · cases h
  · split at h
    · cases h
    · next finish hfinish =>
      split at h
      · cases h
        have hlt := findIdx?_lt hfinish
        simp only [length_cons]
        omega
      · cases h
  · split at h
    · next index hindex =>
      cases h
      have hlt := findIdx?_lt hindex
      omega
    · split at h
      · split at h
        · cases h
          simp
        · cases h
      · cases h

theorem oscSequenceLength_bounds {rest : Bytes} (h : oscSequenceLength rest = some n) :
    1 ≤ n ∧ n ≤ rest.length + 2 := by
  have hbell : ∀ {n : Nat}, (rest.findIdx? (· == 0x07)).map (· + 3) = some n → 1 ≤ n ∧ n ≤ rest.length + 2 := by
    intro n hn
    obtain ⟨index, hindex, rfl⟩ := Option.map_eq_some_iff.1 hn
    have hlt := findIdx?_lt hindex
    omega
  have hterminator : ∀ {n : Nat}, (cutAt stringEnd rest).map (·.1.length + 4) = some n →
      1 ≤ n ∧ n ≤ rest.length + 2 := by
    intro n hn
    obtain ⟨parts, hparts, rfl⟩ := Option.map_eq_some_iff.1 hn
    have hlen := terminated_length hparts
    omega
  unfold oscSequenceLength at h
  simp only at h
  split at h
  · next a b ha hb =>
    cases h
    have := hbell ha
    have := hterminator hb
    omega
  · next a ha _ =>
    cases h
    exact hbell ha
  · exact hterminator h

theorem escapeSequenceLength_bounds {pending : Bytes} {endOfFeed : Bool}
    (h : escapeSequenceLength pending endOfFeed = some n) : 1 ≤ n ∧ n ≤ pending.length := by
  unfold escapeSequenceLength at h
  split at h
  · next first kind rest =>
    simp only [length_cons]
    split at h
    · cases h
    split at h
    · exact csiSequenceLength_bounds h
    split at h
    · split at h
      · cases h
      · next hrest =>
        cases h
        have hpos := List.length_pos_iff.2 hrest
        omega
    split at h
    · exact oscSequenceLength_bounds h
    split at h
    · obtain ⟨parts, hparts, rfl⟩ := Option.map_eq_some_iff.1 h
      have hlen := terminated_length hparts
      omega
    split at h
    · cases h
      omega
    split at h
    · cases h
      omega
    · cases h
  · cases h

/-! ## Draining -/

/-- The decoder is neither inside a paste nor skipping. -/
structure Idle (d : TerminalStreamDecoder) : Prop where
  notPasting : d.pasteMode = false
  notSkipping : d.discardMode = .none
  noEscape : d.discardSawEscape = false

variable {d : TerminalStreamDecoder}

theorem Idle.reads (h : Idle d) : Reads d (.held d.pending) := .held h.notPasting h.notSkipping h.noEscape

section Steps

variable {decoding : Decoding Key} {earlier r r' : StreamDecodeResult Key} {input : Bytes} {parts : List Part}

/-- One more part takes the bytes at the front of what is unfinished. -/
theorem Explains.add (part : Part) {rest : Unfinished} {bytes : Bytes} {flushes' : Nat}
    (h : Explains decoding input flushes r parts rest) (hbytes : rest.bytes = part.bytes ++ bytes)
    (hquiet : rest.forwardedBytes = []) (hlawful : part.Lawful decoding) (hgives : Gives part r r')
    (hflushes : flushes + [part].countP Part.isDropped ≤ flushes') :
    Explains decoding input flushes' r' (parts ++ [part]) (.held bytes) where
  total := by
    rw [h.total, hbytes]
    simp [Unfinished.bytes]
  lawful := by
    intro other hother
    rcases List.mem_append.1 hother with hother | hother
    · exact h.lawful other hother
    · rwa [List.mem_singleton.1 hother]
  forwarded := by
    rw [hgives.forwarded, h.forwarded, hquiet]
    simp [Unfinished.forwardedBytes]
  frames := by
    rw [hgives.frames, h.frames]
    simp
  replies := by
    rw [hgives.replies, h.replies]
    simp
  pasted := by
    rw [hgives.pasted, h.pasted]
    simp
  dropped := by
    rw [List.countP_append]
    exact (Nat.add_le_add_right h.dropped _).trans hflushes

theorem Explains.deliver {n : Nat} (h : Explains decoding input flushes (earlier.append r) parts (.held d.pending))
    (hpos : 1 ≤ n) (hle : n ≤ d.pending.length) :
    ∃ part, Explains decoding input flushes (earlier.append (d.deliver decoding (d.pending.take n) r))
      (parts ++ [part]) (.held (d.pending.drop n)) := by
  have hseq : d.pending.take n ≠ [] := by
    rw [← List.length_pos_iff, List.length_take]
    omega
  obtain ⟨part, hbytes, hlawful, hdropped, hgives⟩ := deliver_gives decoding d hseq r
  refine ⟨part, h.add part ?_ rfl hlawful (hgives.append earlier) (by simp [hdropped])⟩
  rw [hbytes]
  exact (List.take_append_drop _ _).symm

theorem Explains.become {rest : Unfinished}
    (h : Explains decoding input flushes r parts (.held bytes)) (hbytes : rest.bytes = bytes)
    (hforw : r'.forwardedInput = r.forwardedInput ++ rest.forwardedBytes)
    (hframes : r'.mouseFrames = r.mouseFrames) (hreplies : r'.responses = r.responses)
    (hpasted : r'.pastes = r.pastes) : Explains decoding input flushes r' parts rest where
  total := by rw [h.total, hbytes, Unfinished.bytes]
  lawful := h.lawful
  forwarded := by
    rw [hforw, h.forwarded]
    simp [Unfinished.forwardedBytes]
  frames := hframes.trans h.frames
  replies := hreplies.trans h.replies
  pasted := hpasted.trans h.pasted
  dropped := h.dropped

theorem enterPaste_accounted (h : Explains decoding input flushes (earlier.append r) parts (.held pasteStart))
    (hidle : Idle d) (hpend : d.pending = pasteStart) :
    Accounted decoding earlier input flushes (d.enterPaste r) := by
  refine ⟨parts, .paste [], h.become rfl ?_ rfl rfl rfl, ?_⟩
  · simp [TerminalStreamDecoder.enterPaste, StreamDecodeResult.forward, StreamDecodeResult.append,
      Unfinished.forwardedBytes, hpend]
  · exact .paste rfl hidle.notSkipping hidle.noEscape rfl (Searching.nil (by decide)) rfl rfl

theorem discard_accounted
    (h : Explains decoding input flushes (earlier.append r) parts (.held d.pending)) (hidle : Idle d)
    (hlong : Overlong d.pending) : Accounted decoding earlier input flushes
      ({ d with discardMode := TerminalStreamDecoder.discardModeOf d.pending, pending := [] }, r) := by
  refine ⟨parts, .skipping d.pending [], h.become (append_nil _) (append_nil _).symm rfl rfl rfl, ?_⟩
  refine .skipping hidle.notPasting rfl ?_ hlong ?_
  · unfold TerminalStreamDecoder.discardModeOf
    split <;> simp
  · rw [show d.discardSawEscape = false from hidle.noEscape]
    exact .start

/-- **One turn of `drain`** ends the loop with an account, or takes bytes off the pending ones. -/
theorem drainOnce_accounted (endOfFeed : Bool)
    (h : Explains decoding input flushes (earlier.append r) parts (.held d.pending)) (hidle : Idle d) :
    (∃ d' r', d.drainOnce decoding endOfFeed r = .stop d' r' ∧ Accounted decoding earlier input flushes (d', r')) ∨
    ∃ d' r' parts', d.drainOnce decoding endOfFeed r = .again d' r' ∧ Idle d' ∧ d'.pending.length < d.pending.length ∧
      Explains decoding input flushes (earlier.append r') parts' (.held d'.pending) := by
  have hstay : Accounted decoding earlier input flushes (d, r) := ⟨parts, .held d.pending, h, hidle.reads⟩
  -- What the loop does with a sequence of a known length.
  have htake : ∀ n, 1 ≤ n → n ≤ d.pending.length → ∃ d' r' parts',
      (.again { d with pending := d.pending.drop n } (d.deliver decoding (d.pending.take n) r) :
        TerminalStreamDecoder.Turn Key) = .again d' r' ∧ Idle d' ∧ d'.pending.length < d.pending.length ∧
      Explains decoding input flushes (earlier.append r') parts' (.held d'.pending) := by
    intro n hpos hle
    obtain ⟨part, hpart⟩ := h.deliver hpos hle
    refine ⟨_, _, _, rfl, ⟨hidle.notPasting, hidle.notSkipping, hidle.noEscape⟩, ?_, hpart⟩
    simp only [List.length_drop]
    omega
  -- A byte that starts no character is forwarded alone.
  have hbyte : ∀ first rest, d.pending = first :: rest → ∃ d' r' parts',
      (.again { d with pending := rest } (r.forward [first]) : TerminalStreamDecoder.Turn Key) = .again d' r' ∧
      Idle d' ∧ d'.pending.length < d.pending.length ∧
      Explains decoding input flushes (earlier.append r') parts' (.held d'.pending) := by
    intro first rest hpend
    rw [hpend] at h
    refine ⟨_, _, _, rfl, ⟨hidle.notPasting, hidle.notSkipping, hidle.noEscape⟩, ?_,
      h.add (.forwarded [first]) rfl rfl (cons_ne_nil _ _) ((gives_forward [first] r).append earlier) le_rfl⟩
    rw [hpend, length_cons]
    exact Nat.lt_succ_self _
  unfold TerminalStreamDecoder.drainOnce
  simp only
  split
  · exact .inl ⟨d, r, rfl, hstay⟩
  next first rest hpend =>
  split
  · split
    · next hstart =>
      rw [hstart] at h
      exact .inl ⟨_, _, rfl, enterPaste_accounted h hidle hstart⟩
    · exact .inl ⟨d, r, rfl, hstay⟩
  split
  · next hesc =>
    split
    · next length hlen =>
      have hbounds := escapeSequenceLength_bounds hlen
      exact .inr (htake length hbounds.1 hbounds.2)
    next hlen =>
    split
    · next hlimit =>
      refine .inl ⟨_, _, rfl, discard_accounted h hidle ⟨hlimit, ?_, endOfFeed, hlen⟩⟩
      rw [hpend, hesc, List.head?_cons]
    · exact .inl ⟨d, r, rfl, hstay⟩
  split
  · exact .inr (hbyte first rest hpend)
  next hzero =>
  split
  · exact .inl ⟨d, r, rfl, hstay⟩
  next hshort =>
  split
  · exact .inr (hbyte first rest hpend)
  · exact .inr (htake _ (Nat.one_le_iff_ne_zero.2 hzero) (Nat.not_lt.1 hshort))

/-- **`drain` ends** when it has a turn for every pending byte, and leaves an account. -/
theorem drain_accounted (endOfFeed : Bool) {fuel : Nat} (hfuel : d.pending.length < fuel)
    (h : Explains decoding input flushes (earlier.append r) parts (.held d.pending)) (hidle : Idle d) :
    ∃ state, d.drain decoding endOfFeed fuel r = some state ∧ Accounted decoding earlier input flushes state := by
  induction fuel generalizing d r parts with
  | zero => exact absurd hfuel (Nat.not_lt_zero _)
  | succ fuel ih =>
    unfold TerminalStreamDecoder.drain
    rcases drainOnce_accounted endOfFeed h hidle with ⟨d', r', hturn, hdone⟩ |
      ⟨d', r', parts', hturn, hidle', hshorter, hmore⟩
    · rw [hturn]
      exact ⟨_, rfl, hdone⟩
    · rw [hturn]
      exact ih (by omega) hmore hidle'

/-! ## Bytes -/

theorem Explains.push (h : Explains decoding input flushes r parts (.held bytes)) (byte : UInt8) :
    Explains decoding (input ++ [byte]) flushes r parts (.held (bytes ++ [byte])) where
  total := by
    rw [h.total]
    simp [Unfinished.bytes]
  lawful := h.lawful
  forwarded := h.forwarded
  frames := h.frames
  replies := h.replies
  pasted := h.pasted
  dropped := h.dropped

variable {byte : UInt8}

theorem push_accounted {fuel : Nat} (hfuel : d.pending.length + 1 < fuel)
    (h : Explains decoding input flushes (earlier.append r) parts (.held d.pending)) (hidle : Idle d) :
    ∃ state, TerminalStreamDecoder.drain decoding false fuel { d with pending := d.pending ++ [byte] } r =
        some state ∧ Accounted decoding earlier (input ++ [byte]) flushes state := by
  refine drain_accounted false ?_ (h.push byte) ⟨hidle.notPasting, hidle.notSkipping, hidle.noEscape⟩
  rw [length_append, List.length_singleton]
  exact hfuel

theorem commit_all (bytes : Bytes) (hbytes : d.pasteOriginalBytes = min d.pasteText.length sizeMax)
    (hlines : d.pasteLines = min (1 + d.pasteText.count 0x0A) sizeMax) :
    bytes.foldl TerminalStreamDecoder.commitPasteByte d = { d with
        pasteText := d.pasteText ++ bytes
        pasteOriginalBytes := min (d.pasteText ++ bytes).length sizeMax
        pasteLines := min (1 + (d.pasteText ++ bytes).count 0x0A) sizeMax } := by
  induction bytes generalizing d with
  | nil => simp [← hbytes, ← hlines]
  | cons byte rest ih =>
    rw [List.foldl_cons, ih]
    · simp [TerminalStreamDecoder.commitPasteByte]
    · simp only [TerminalStreamDecoder.commitPasteByte, hbytes, length_append, List.length_singleton]
      split <;> omega
    · simp only [TerminalStreamDecoder.commitPasteByte, hlines, List.count_append, List.count_singleton]
      by_cases hnewline : byte = 0x0A
      · simp only [hnewline, true_and, beq_self_eq_true, if_true]
        split <;> omega
      · simp [hnewline]

theorem consumePasteByte_accounted {content : Bytes}
    (h : Explains decoding input flushes (earlier.append r) parts (.paste content)) (hreads : Reads d (.paste content)) :
    Accounted decoding earlier (input ++ [byte]) flushes (d.consumePasteByte byte r) := by
  cases hreads with
  | paste hpaste hmode hsaw hpend hsearch hbytes hlines =>
    have hall := align_append pasteEnd (d.pasteEndCandidate ++ [byte])
    have hcommit := commit_all (align pasteEnd (d.pasteEndCandidate ++ [byte])).1 hbytes hlines
    have htotal : input ++ [byte] = parts.flatMap Part.bytes ++
        (pasteStart ++ (d.pasteText ++ (d.pasteEndCandidate ++ [byte]))) := by
      rw [h.total]
      simp [Unfinished.bytes]
    have hforw : (earlier.append (r.forward [byte])).forwardedInput = parts.flatMap Part.forwardedBytes ++
        (pasteStart ++ (d.pasteText ++ (d.pasteEndCandidate ++ [byte]))) := by
      have hprev := h.forwarded
      simp only [StreamDecodeResult.append, Unfinished.forwardedBytes] at hprev
      simp only [StreamDecodeResult.append, StreamDecodeResult.forward]
      rw [← append_assoc, hprev]
      simp
    unfold TerminalStreamDecoder.consumePasteByte
    simp only
    split
    · next hopen =>
      rw [hcommit]
      have hnext := hsearch.step byte hopen
      refine ⟨parts, .paste (d.pasteText ++ (align pasteEnd (d.pasteEndCandidate ++ [byte])).1 ++
        (align pasteEnd (d.pasteEndCandidate ++ [byte])).2), ?_, .paste hpaste hmode hsaw hpend hnext rfl rfl⟩
      refine ⟨?_, h.lawful, ?_, h.frames, h.replies, h.pasted, h.dropped⟩
      · rw [htotal, Unfinished.bytes, append_assoc d.pasteText, hall]
      · rw [hforw, Unfinished.forwardedBytes, append_assoc d.pasteText, hall]
    next hclosed =>
    simp only [ne_eq, Decidable.not_not] at hclosed
    rw [hcommit]
    have hfound := hsearch.found (by decide) byte hclosed
    have hwhole : d.pasteText ++ (d.pasteEndCandidate ++ [byte]) =
        d.pasteText ++ (align pasteEnd (d.pasteEndCandidate ++ [byte])).1 ++ pasteEnd := by
      rw [hclosed] at hall
      rw [append_assoc, hall]
    refine ⟨parts ++ [.paste (d.pasteText ++ (align pasteEnd (d.pasteEndCandidate ++ [byte])).1)], .held [], ?_, ?_⟩
    · refine ⟨?_, ?_, ?_, ?_, ?_, ?_, ?_⟩
      · rw [htotal, hwhole]
        simp [Unfinished.bytes, Part.bytes]
      · intro part hpart
        rcases List.mem_append.1 hpart with hpart | hpart
        · exact h.lawful part hpart
        · rw [List.mem_singleton.1 hpart, Part.Lawful, ← hwhole, ← append_assoc]
          exact hfound
      · refine hforw.trans ?_
        rw [hwhole]
        simp [Unfinished.forwardedBytes, Part.forwardedBytes]
      · refine h.frames.trans ?_
        simp [Part.frame]
      · refine h.replies.trans ?_
        simp [Part.reply]
      · rw [pastes_append]
        have hpasted := h.pasted
        rw [pastes_append] at hpasted
        simp only [StreamDecodeResult.pastes, StreamDecodeResult.forward, List.flatMap_append] at hpasted ⊢
        rw [← append_assoc, hpasted]
        rfl
      · have hcount := h.dropped
        simpa [Part.isDropped] using hcount
    · rw [← hpend]
      exact .held rfl hmode hsaw

/-! ## Skipping -/

variable {mode : EscapeDiscardMode} {head tail : Bytes} {saw : Bool}

theorem Skips.saw_of_csi (h : Skips head tail mode saw) (hmode : mode = .csi) : saw = false := by
  induction h with
  | start => rfl
  | @skip tail mode mode' saw saw' byte h hne hbyte ih =>
    subst hmode
    cases mode with
    | none => exact absurd rfl hne
    | csi =>
      simp only [TerminalStreamDecoder.discardEscapeByte] at hbyte
      split at hbyte
      · simp at hbyte
      split at hbyte
      · simp at hbyte
      simp only [Prod.mk.injEq, true_and, and_true] at hbyte
      rw [← hbyte]
      exact ih rfl
    | osc | stringTerminated =>
      simp only [TerminalStreamDecoder.discardEscapeByte] at hbyte
      split at hbyte
      · simp at hbyte
      · split at hbyte <;> simp at hbyte

theorem Skips.saw_of_none (h : Skips head tail mode saw) (hmode : mode = .none) : saw = false := by
  cases h with
  | start => rfl
  | @skip tail mode _ saw _ byte h hne hbyte =>
    subst hmode
    cases hcase : mode with
    | none => exact absurd hcase hne
    | csi =>
      rw [hcase] at hbyte
      have hdown := h.saw_of_csi hcase
      simp only [TerminalStreamDecoder.discardEscapeByte] at hbyte
      split at hbyte
      · simp at hbyte
      split at hbyte
      · simp only [Prod.mk.injEq, true_and, and_true] at hbyte
        rw [← hbyte]
        exact hdown
      · simp at hbyte
    | osc | stringTerminated =>
      rw [hcase] at hbyte
      simp only [TerminalStreamDecoder.discardEscapeByte] at hbyte
      split at hbyte
      · simp only [Prod.mk.injEq, true_and, and_true] at hbyte
        exact hbyte.symm
      split at hbyte
      · simp only [Prod.mk.injEq, true_and, and_true] at hbyte
        exact hbyte.symm
      · simp at hbyte

theorem discardEscapeByte_kept {mode' : EscapeDiscardMode} {saw saw' : Bool} (hmode : mode ≠ .none)
    (h : TerminalStreamDecoder.discardEscapeByte mode saw byte = ((mode', saw'), false)) :
    mode = .csi ∧ mode' = .none ∧ saw' = saw := by
  cases mode with
  | none => exact absurd rfl hmode
  | csi =>
    simp only [TerminalStreamDecoder.discardEscapeByte] at h
    split at h
    · simp only [Prod.mk.injEq, and_true] at h
      exact ⟨rfl, h.1.symm, h.2.symm⟩
    · split at h <;> simp at h
  | osc | stringTerminated =>
    simp only [TerminalStreamDecoder.discardEscapeByte] at h
    split at h
    · simp at h
    · split at h <;> simp at h

theorem Explains.close (h : Explains decoding input flushes r parts (.skipping head tail)) (hlong : Overlong head)
    (hskips : Skips head tail mode saw) :
    Explains decoding input flushes r (parts ++ [.skipped head tail]) (.held []) :=
  h.add (.skipped head tail) (append_nil _).symm rfl ⟨hlong, mode, saw, hskips⟩ (.nothing rfl rfl rfl rfl) le_rfl

theorem Explains.skip {head tail : Bytes} (h : Explains decoding input flushes r parts (.skipping head tail))
    (byte : UInt8) : Explains decoding (input ++ [byte]) flushes r parts (.skipping head (tail ++ [byte])) where
  total := by
    rw [h.total]
    simp [Unfinished.bytes]
  lawful := h.lawful
  forwarded := h.forwarded
  frames := h.frames
  replies := h.replies
  pasted := h.pasted
  dropped := h.dropped

/-! ## Calls -/

/-- **One byte** of `feed` keeps the account, in each of the three modes. -/
theorem feedByte_accounted (byte : UInt8) (h : Accounted decoding earlier input flushes (d, r)) :
    ∃ state, TerminalStreamDecoder.feedByte decoding (d, r) byte = some state ∧
      Accounted decoding earlier (input ++ [byte]) flushes state := by
  obtain ⟨parts, rest, hexplains, hreads⟩ := h
  simp only at hexplains hreads
  unfold TerminalStreamDecoder.feedByte
  cases rest with
  | held pending =>
    cases hreads with
    | held hpaste hmode hsaw =>
      rw [if_neg (by simp [hpaste])]
      simp only [hmode, TerminalStreamDecoder.discardEscapeByte, if_neg Bool.false_ne_true]
      have hidle : Idle { d with discardMode := .none } := ⟨hpaste, rfl, hsaw⟩
      exact push_accounted (d := { d with discardMode := .none }) (Nat.lt_succ_self _) hexplains hidle
  | paste content =>
    have hpaste : d.pasteMode = true := by
      cases hreads
      assumption
    rw [if_pos hpaste]
    exact ⟨_, rfl, consumePasteByte_accounted hexplains hreads⟩
  | skipping head tail =>
    cases hreads with
    | skipping hpaste hpend hmode hlong hskips =>
      rw [if_neg (by simp [hpaste])]
      cases hskip : TerminalStreamDecoder.discardEscapeByte d.discardMode d.discardSawEscape byte with
      | mk after skipped =>
        obtain ⟨mode', saw'⟩ := after
        cases skipped with
        | true =>
          refine ⟨_, rfl, ?_⟩
          have hmore := hskips.skip hmode hskip
          by_cases hended : mode' = .none
          · refine ⟨_, .held [], (hexplains.skip byte).close hlong hmore, ?_⟩
            rw [← hpend]
            exact .held hpaste hended (hmore.saw_of_none hended)
          · exact ⟨parts, _, hexplains.skip byte, .skipping hpaste hpend hended hlong hmore⟩
        | false =>
          obtain ⟨hcsi, rfl, rfl⟩ := discardEscapeByte_kept hmode hskip
          have hclosed := hexplains.close hlong hskips
          rw [← hpend] at hclosed
          exact push_accounted (d := { d with discardMode := .none }) (Nat.lt_succ_self _) hclosed
            ⟨hpaste, rfl, hskips.saw_of_csi hcsi⟩

end Steps

variable {earlier : StreamDecodeResult Key} {decoding : Decoding Key} {input : Bytes}

theorem foldlM_feedByte_accounted {state : TerminalStreamDecoder × StreamDecodeResult Key} (bytes : Bytes)
    (h : Accounted decoding earlier input flushes state) :
    ∃ state', bytes.foldlM (TerminalStreamDecoder.feedByte decoding) state = some state' ∧
      Accounted decoding earlier (input ++ bytes) flushes state' := by
  induction bytes generalizing state input with
  | nil => exact ⟨state, rfl, by rwa [append_nil]⟩
  | cons byte rest ih =>
    obtain ⟨next, hnext, hdone⟩ := feedByte_accounted (d := state.1) (r := state.2) byte h
    obtain ⟨last, hlast, hacct⟩ := ih hdone
    refine ⟨last, ?_, ?_⟩
    · rw [List.foldlM_cons, hnext]
      exact hlast
    · rwa [append_assoc, List.singleton_append] at hacct

/-- **`feed` ends**, and its bytes have an account. -/
theorem feed_accounted (bytes : Bytes) (h : Accounted decoding earlier input flushes (d, {})) :
    ∃ state, d.feed decoding bytes = some state ∧ Accounted decoding earlier (input ++ bytes) flushes state := by
  obtain ⟨⟨d', r'⟩, hfold, parts, rest, hexplains, hreads⟩ := foldlM_feedByte_accounted bytes h
  have hstay : Accounted decoding earlier (input ++ bytes) flushes (d', r') := ⟨parts, rest, hexplains, hreads⟩
  have hdrain : ∃ state, TerminalStreamDecoder.drain decoding true (d'.pending.length + 1) d' r' = some state ∧
      Accounted decoding earlier (input ++ bytes) flushes state := by
    -- Nothing is pending inside a paste or while bytes are skipped.
    have hempty : d'.pending = [] → TerminalStreamDecoder.drain decoding true (d'.pending.length + 1) d' r' =
        some (d', r') := by
      intro hpend
      simp [TerminalStreamDecoder.drain, TerminalStreamDecoder.drainOnce, hpend]
    cases hreads with
    | held hpaste hmode hsaw => exact drain_accounted true (Nat.lt_succ_self _) hexplains ⟨hpaste, hmode, hsaw⟩
    | paste _ _ _ hpend | skipping _ hpend => exact ⟨_, hempty hpend, hstay⟩
  obtain ⟨state, hstate, hacct⟩ := hdrain
  refine ⟨state, ?_, hacct⟩
  unfold TerminalStreamDecoder.feed
  rw [hfold]
  exact hstate

section Flush

variable {r : StreamDecodeResult Key} {parts : List Part}

theorem Explains.more {rest : Unfinished} (h : Explains decoding input flushes r parts rest) :
    Explains decoding input (flushes + 1) r parts rest :=
  ⟨h.total, h.lawful, h.forwarded, h.frames, h.replies, h.pasted, Nat.le_succ_of_le h.dropped⟩

/-- **`flush`** forwards what is pending, or drops it when it can only be a color report. -/
theorem flush_accounted (h : Accounted decoding earlier input flushes (d, {})) :
    Accounted decoding earlier input (flushes + 1) (d.flush decoding) := by
  obtain ⟨parts, rest, hexplains, hreads⟩ := h
  simp only at hexplains hreads
  unfold TerminalStreamDecoder.flush
  cases hreads with
  | held hpaste hmode hsaw =>
    rw [if_neg (by simp [hpaste])]
    have hidle : Reads { d with pending := [], discardMode := .none, discardSawEscape := false } (.held []) :=
      .held hpaste rfl rfl
    simp only
    split
    · next hforward =>
      refine ⟨parts ++ [.forwarded d.pending], .held [], ?_, hidle⟩
      refine hexplains.add (.forwarded d.pending) (append_nil _).symm rfl hforward.1 ?_ (Nat.le_succ _)
      refine Gives.append ⟨rfl, rfl, rfl, ?_⟩ earlier
      cases (if d.pending.head? = some esc then
          decoding.parseRawSequence d.pending d.kittyProtocolActive else none) <;>
        rfl
    next hkept =>
    by_cases hempty : d.pending = []
    · rw [hempty] at hexplains
      exact ⟨parts, .held [], hexplains.more, hidle⟩
    have hfragment : isAppearanceResponseFragment d.pending = true := by
      by_contra hother
      exact hkept ⟨hempty, by simp [hother]⟩
    exact ⟨_, .held [], hexplains.add (.dropped d.pending) (append_nil _).symm rfl hfragment (.nothing rfl rfl rfl rfl)
      le_rfl, hidle⟩
  | paste hpaste hmode hsaw hpend hsearch hbytes hlines =>
    rw [if_pos hpaste]
    exact ⟨parts, _, hexplains.more, .paste hpaste hmode hsaw hpend hsearch hbytes hlines⟩
  | skipping hpaste hpend hmode hlong hskips =>
    rw [if_neg (by simp [hpaste])]
    simp only [hpend, ne_eq, not_true_eq_false, false_and, if_false]
    exact ⟨_, .held [], (hexplains.close hlong hskips).more, .held hpaste rfl rfl⟩

end Flush

def flushCount (calls : List DecoderCall) : Nat := calls.count .flush

/-- **Every call ends**, and keeps the account. -/
theorem apply_accounted (call : DecoderCall) (h : Accounted decoding earlier input flushes (d, {})) :
    ∃ state, call.apply decoding d = some state ∧
      Accounted decoding earlier (input ++ call.input) (flushes + flushCount [call]) state := by
  cases call with
  | feed bytes => exact feed_accounted bytes h
  | flush =>
    refine ⟨_, rfl, ?_⟩
    rw [show DecoderCall.input _ = [] from rfl, append_nil]
    exact flush_accounted h
  | setDemuxAppearance enable | setKittyProtocolActive active =>
    refine ⟨_, rfl, ?_⟩
    rw [show DecoderCall.input _ = [] from rfl, append_nil]
    obtain ⟨parts, rest, hexplains, hreads⟩ := h
    refine ⟨parts, rest, hexplains, ?_⟩
    cases hreads with
    | held hpaste hmode hsaw => exact .held hpaste hmode hsaw
    | paste hpaste hmode hsaw hpend hsearch hbytes hlines =>
      exact .paste hpaste hmode hsaw hpend hsearch hbytes hlines
    | skipping hpaste hpend hmode hlong hskips => exact .skipping hpaste hpend hmode hlong hskips

theorem run_accounted (state : TerminalStreamDecoder × StreamDecodeResult Key) (calls : List DecoderCall)
    (h : Accounted decoding state.2 input flushes (state.1, {})) : ∃ state', run decoding state calls = some state' ∧
      Accounted decoding state'.2 (input ++ calls.flatMap DecoderCall.input) (flushes + flushCount calls)
        (state'.1, {}) := by
  induction calls generalizing state input flushes with
  | nil => exact ⟨state, rfl, by simpa [flushCount] using h⟩
  | cons call rest ih =>
    obtain ⟨⟨d, r⟩, hcall, parts, unfinished, hexplains, hreads⟩ := apply_accounted call h
    have hnext : Accounted decoding (state.2.append r) (input ++ call.input) (flushes + flushCount [call])
        (d, {}) := ⟨parts, unfinished, by rwa [append_empty], hreads⟩
    obtain ⟨last, hlast, hacct⟩ := ih (d, state.2.append r) hnext
    refine ⟨last, ?_, ?_⟩
    · unfold run at hlast ⊢
      rw [List.foldlM_cons, hcall]
      exact hlast
    have hcount : flushCount (call :: rest) = flushCount [call] + flushCount rest := by
      simp [flushCount, List.count_cons, Nat.add_comm]
    rw [append_assoc, Nat.add_assoc, ← hcount, ← List.flatMap_cons] at hacct
    exact hacct

/-- **Every byte has its place**: whatever a fresh decoder is called with, every call ends, and the input is, in
order, the bytes that were forwarded, mouse reports, replies, overlong sequences that were skipped, fragments that
a flush dropped, pastes with exactly the text before the first end marker, color reports without a reply, and what
the decoder is still in the middle of. -/
theorem bytes_accounted (decoding : Decoding Key) (calls : List DecoderCall) :
    ∃ d r parts rest, run decoding ({}, {}) calls = some (d, r) ∧
      Explains decoding (calls.flatMap DecoderCall.input) (flushCount calls) r parts rest ∧ Reads d rest := by
  have hstart : Accounted decoding {} [] 0 (({}, {}) : TerminalStreamDecoder × StreamDecodeResult Key) := by
    refine ⟨[], .held [], ⟨rfl, by simp, rfl, rfl, rfl, rfl, Nat.le_refl _⟩, ?_⟩
    exact .held rfl rfl rfl
  obtain ⟨⟨d, r⟩, hrun, parts, rest, hexplains, hreads⟩ := run_accounted ({}, {}) calls hstart
  rw [append_empty, List.nil_append, Nat.zero_add] at hexplains
  exact ⟨d, r, parts, rest, hrun, hexplains, hreads⟩

/-! ## A color report that vanishes -/

def keylessDecoding : Decoding Unit := ⟨⟨fun _ _ => 0, fun _ => .unknown⟩, fun _ _ => none⟩

/-- A color scheme report with a value that is not understood. -/
def oddReport : Bytes := esc :: "[?997;3n"

/-- The bytes of a color report with another value go nowhere: no account of them does without a part that is
consumed without a reply. -/
theorem colorReport_vanishes : ¬ ∃ d r parts rest, run keylessDecoding ({}, {}) [.feed oddReport] = some (d, r) ∧
      Explains keylessDecoding oddReport 0 r parts rest ∧ Reads d rest ∧ ∀ part ∈ parts, part.isConsumed = false := by
  rintro ⟨d, r, parts, rest, hrun, h, hreads, hnone⟩
  obtain ⟨rfl, rfl⟩ := Prod.mk.inj (Option.some.inj hrun)
  have hrest : rest.bytes = [] := by
    cases hreads with
    | held => rfl
    | paste hpaste => exact absurd hpaste Bool.false_ne_true
    | skipping _ _ hmode => exact absurd rfl hmode
  have hforwarded : parts.flatMap Part.forwardedBytes = [] := (List.append_eq_nil_iff.1 h.forwarded.symm).1
  have hempty : ∀ part ∈ parts, part.bytes = [] := by
    intro part hpart
    have hlawful := h.lawful part hpart
    cases part with
    | forwarded bytes => exact absurd (List.flatMap_eq_nil_iff.1 hforwarded _ hpart) hlawful
    | mouseFrame sequence => exact absurd (List.flatMap_eq_nil_iff.1 h.frames.symm _ hpart) (cons_ne_nil _ _)
    | response sequence answer forwarded =>
      exact absurd (List.flatMap_eq_nil_iff.1 h.replies.symm _ hpart) (cons_ne_nil _ _)
    | consumed sequence => exact absurd (hnone _ hpart) Bool.noConfusion
    | skipped head tail =>
      -- A skipped sequence is longer than the whole input.
      have hlength := congrArg List.length h.total
      have hsublist : (head ++ tail).length ≤ (parts.flatMap Part.bytes).length := by
        exact (List.sublist_flatten_of_mem (List.mem_map_of_mem (f := Part.bytes) hpart)).length_le
      have hlimit : 256 ≤ head.length := hlawful.1.1
      have hshort : oddReport.length = 9 := by decide
      rw [length_append] at hlength hsublist
      omega
    | dropped fragment =>
      have hcount : 0 < parts.countP Part.isDropped := List.countP_pos_iff.2 ⟨_, hpart, rfl⟩
      exact absurd h.dropped (Nat.not_le.2 hcount)
    | paste text => exact absurd (List.flatMap_eq_nil_iff.1 h.pasted.symm _ hpart) (cons_ne_nil _ _)
  have htotal := h.total
  rw [hrest, append_nil, List.flatMap_eq_nil_iff.2 hempty] at htotal
  exact absurd htotal (by decide)

end CodingHarness.Tui.InputDecoder
