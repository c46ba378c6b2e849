import CodingHarness.Tui.InputPieces

/-!
# Where the bytes of terminal input go

Every byte that `process` receives is delivered in a data sequence or a paste, stays in the buffer, or
belongs to one of two kinds of input that are dropped on purpose: the plain text some terminals send after
a Kitty key, and a reply that was cancelled. `Justified` describes such an account. `bytes_kept` proves it
for every run of `process` and `flush` calls in which what precedes a paste marker consists of complete
sequences. Otherwise the rest of an unfinished sequence is lost when the marker arrives
(`escape_lost_before_paste`): the escape key pressed just before a paste never reaches the handler.
-/

namespace CodingHarness.Tui

open Library Support
open List (append_assoc append_nil)

/-! ## Pastes in a text -/

/-- How a text is cut into what precedes each paste and the pastes themselves; the flag says whether the
text starts inside a paste. `atPaste` holds of what precedes each marker, and `atEnd` of what follows the
last paste. -/
inductive Segmented (atPaste atEnd : Bytes → Prop) : Bool → Bytes → Prop where
  | rest {text : Bytes} (hcut : cutAt pasteStart text = none) (hend : atEnd text) :
      Segmented atPaste atEnd false text
  | start {text before after : Bytes} (hcut : cutAt pasteStart text = some (before, after))
      (hbefore : atPaste before) (hafter : Segmented atPaste atEnd true after) :
      Segmented atPaste atEnd false text
  | opened {content : Bytes} (hcut : cutAt pasteEnd content = none) :
      Segmented atPaste atEnd true content
  | closed {content pasted remaining : Bytes} (hcut : cutAt pasteEnd content = some (pasted, remaining))
      (hremaining : Segmented atPaste atEnd false remaining) : Segmented atPaste atEnd true content

/-- What `process` looks at: the buffered bytes and the input. -/
def StdinBuffer.text (s : StdinBuffer) (input : Bytes) : Bytes :=
  if s.pasteMode then s.pasteBuffer ++ (s.buffer ++ input) else s.buffer ++ input

/-! ## Accounts -/

/-- What became of a part of the input. -/
inductive Piece where
  | data (sequence : Bytes)
  | repeated (sequence : Bytes)
  | cancelled (reply : Bytes)
  | paste (content : Bytes)
  deriving DecidableEq

/-- The bytes of a piece; a paste has its markers. -/
def Piece.bytes : Piece → Bytes
  | .data sequence => sequence
  | .repeated sequence => sequence
  | .cancelled reply => reply
  | .paste content => pasteStart ++ content ++ pasteEnd

def Piece.event : Piece → Option Event
  | .data sequence => some (.data sequence)
  | .repeated _ => none
  | .cancelled _ => none
  | .paste content => some (.paste content)

/-- A terminal reply that ends with CAN or SUB, or that a new escape cut off. -/
def IsCancelledReply (reply : Bytes) : Prop :=
  2 ≤ reply.length ∧ ∃ rest, matchesTerminalReplyHeader (reply ++ rest) = true ∧
    (reply.getLast? = some 0x18 ∨ reply.getLast? = some 0x1A ∨ rest.head? = some esc)

/-- An account in which every dropped part has its reason. The index is the text that the key delivered
last would repeat; it is forgotten at a paste and at a flush. -/
inductive Justified : List Piece → Option Bytes → Prop where
  | nil : Justified [] none
  | data {pieces : List Piece} {pending : Option Bytes} (sequence : Bytes)
      (h : Justified pieces pending) :
      Justified (pieces ++ [.data sequence]) (duplicatePrintableText sequence)
  | repeated {pieces : List Piece} {sequence : Bytes} (h : Justified pieces (some sequence)) :
      Justified (pieces ++ [.repeated sequence]) none
  | cancelled {pieces : List Piece} {pending : Option Bytes} {reply : Bytes}
      (hreply : IsCancelledReply reply) (h : Justified pieces pending) :
      Justified (pieces ++ [.cancelled reply]) pending
  | paste {pieces : List Piece} {pending : Option Bytes} (content : Bytes)
      (h : Justified pieces pending) : Justified (pieces ++ [.paste content]) none
  | forget {pieces : List Piece} {pending : Option Bytes} (h : Justified pieces pending) :
      Justified pieces none

namespace StdinBuffer

def held (s : StdinBuffer) : Bytes := if s.pasteMode then pasteStart ++ s.pasteBuffer else s.buffer

/-- The account explains what was delivered. -/
def Delivered (s : StdinBuffer) (pieces : List Piece) : Prop :=
  Justified pieces s.pendingKittyPrintableText ∧ s.events = pieces.filterMap Piece.event

/-- Every byte of the input has its place. -/
def Accounted (s : StdinBuffer) (input : Bytes) : Prop :=
  ∃ pieces, s.Delivered pieces ∧ input = pieces.flatMap Piece.bytes ++ s.held

/-- Only one of the two buffers is in use. -/
def Tidy (s : StdinBuffer) : Prop := if s.pasteMode then s.buffer = [] else s.pasteBuffer = []

/-! ## Emission -/

@[simp] theorem emit_buffer (s : StdinBuffer) (sequence : Bytes) : (s.emit sequence).buffer = s.buffer := by
  unfold emit
  split <;> rfl

@[simp] theorem emit_pasteMode (s : StdinBuffer) (sequence : Bytes) : (s.emit sequence).pasteMode = s.pasteMode := by
  unfold emit
  split <;> rfl

@[simp] theorem emit_pasteBuffer (s : StdinBuffer) (sequence : Bytes) :
    (s.emit sequence).pasteBuffer = s.pasteBuffer := by
  unfold emit
  split <;> rfl

@[simp] theorem emitAll_pasteMode (s : StdinBuffer) (emitted : List Bytes) :
    (s.emitAll emitted).pasteMode = s.pasteMode := by
  induction emitted generalizing s with
  | nil => rfl
  | cons sequence rest ih => exact (ih (s.emit sequence)).trans (emit_pasteMode s sequence)

@[simp] theorem emitAll_pasteBuffer (s : StdinBuffer) (emitted : List Bytes) :
    (s.emitAll emitted).pasteBuffer = s.pasteBuffer := by
  induction emitted generalizing s with
  | nil => rfl
  | cons sequence rest ih => exact (ih (s.emit sequence)).trans (emit_pasteBuffer s sequence)

variable {s : StdinBuffer} {pieces : List Piece}

theorem Delivered.emit (h : s.Delivered pieces) (sequence : Bytes):
    ∃ piece, (s.emit sequence).Delivered (pieces ++ [piece]) ∧ piece.bytes = sequence := by
  obtain ⟨hjustified, hevents⟩ := h
  unfold StdinBuffer.emit
  split
  · next hrepeat =>
    rw [hrepeat] at hjustified
    refine ⟨.repeated sequence, ⟨hjustified.repeated, ?_⟩, rfl⟩
    simp [hevents, Piece.event]
  · refine ⟨.data sequence, ⟨hjustified.data sequence, ?_⟩, rfl⟩
    simp [hevents, Piece.event]

/-- The sequences of an extraction are emitted and its cancelled replies are dropped. -/
theorem Delivered.emitAll (h : s.Delivered pieces) (extracted : List (PieceKind × Bytes))
    (hcanc : ∀ reply, (PieceKind.cancelled, reply) ∈ extracted → IsCancelledReply reply) :
    ∃ more, (s.emitAll (extracted.filterMap fun piece =>
        if piece.1 = .sequence then some piece.2 else none)).Delivered (pieces ++ more) ∧
      more.flatMap Piece.bytes = extracted.flatMap Prod.snd := by
  induction extracted generalizing s pieces with
  | nil => exact ⟨[], by rw [append_nil]; exact h, rfl⟩
  | cons piece rest ih =>
    have hrest : ∀ reply, (PieceKind.cancelled, reply) ∈ rest → IsCancelledReply reply :=
      fun reply hmem => hcanc reply (List.mem_cons_of_mem _ hmem)
    obtain ⟨kind, bytes⟩ := piece
    cases kind with
    | sequence =>
      obtain ⟨first, hfirst, hbytes⟩ := h.emit bytes
      obtain ⟨more, hmore, hflat⟩ := ih hfirst hrest
      refine ⟨first :: more, ?_, by simp [hbytes, hflat]⟩
      rw [append_assoc, List.singleton_append] at hmore
      exact hmore
    | cancelled =>
      have hreply := hcanc bytes List.mem_cons_self
      have hdropped : s.Delivered (pieces ++ [.cancelled bytes]) := ⟨h.1.cancelled hreply, by simp [h.2, Piece.event]⟩
      obtain ⟨more, hmore, hflat⟩ := ih hdropped hrest
      refine ⟨.cancelled bytes :: more, ?_, by simp [Piece.bytes, hflat]⟩
      rw [append_assoc, List.singleton_append] at hmore
      exact hmore

theorem Delivered.forget (h : s.Delivered pieces) : { s with pendingKittyPrintableText := none }.Delivered pieces :=
  ⟨h.1.forget, h.2⟩

end StdinBuffer

/-! ## Cancelled replies -/

theorem scanEscape_cancelled {text : Bytes} {fuel stop n : Nat} (hstop : 1 ≤ stop)
    (hfuel : fuel + stop = text.length + 1) (h : scanEscape (isReply text) text fuel stop = some (.cancelled, n)) :
    IsCancelledReply (text.take n) := by
  induction fuel generalizing stop with
  | zero => cases h
  | succ fuel ih =>
    have hheader : isReply text = true → matchesTerminalReplyHeader text = true := fun hreply =>
      ((Bool.and_eq_true _ _).mp hreply).2
    rw [scanEscape] at h
    split at h
    · next hcancel =>
      obtain ⟨hreply, hlong, hlast⟩ := hcancel
      obtain ⟨-, rfl⟩ := Prod.mk.inj (Option.some.inj h)
      have hgetLast : (text.take stop).getLast? = text[stop - 1]? := by
        rw [List.getLast?_eq_getElem?, List.length_take, Nat.min_eq_left (by omega),
          List.getElem?_take_of_lt (by omega)]
      refine ⟨by rw [List.length_take]; omega, text.drop stop, ?_, ?_⟩
      · rw [List.take_append_drop]
        exact hheader hreply
      · rw [hgetLast]
        exact hlast.imp_right .inl
    split at h
    · next habort =>
      obtain ⟨hreply, hlong, hescape, -, -⟩ := habort
      obtain ⟨-, rfl⟩ := Prod.mk.inj (Option.some.inj h)
      refine ⟨by rw [List.length_take]; omega, text.drop (stop - 1), ?_, .inr (.inr ?_)⟩
      · rw [List.take_append_drop]
        exact hheader hreply
      · rw [List.head?_drop]
        exact hescape
    split at h
    · split at h <;> cases (Prod.mk.inj (Option.some.inj h)).1
    · exact ih (by omega) (by omega) h
    · cases (Prod.mk.inj (Option.some.inj h)).1

theorem nextPiece_cancelled {text : Bytes} {n : Nat} (h : nextPiece text = some (.cancelled, n)) :
    IsCancelledReply (text.take n) := by
  cases text with
  | nil => cases h
  | cons first rest =>
    rw [nextPiece] at h
    split at h
    · exact scanEscape_cancelled le_rfl rfl h
    split at h
    · cases h
    · cases (Prod.mk.inj (Option.some.inj h)).1

theorem cancelled_of_extracted {text reply : Bytes}
    (h : (PieceKind.cancelled, reply) ∈ (extractPieces text).1) : IsCancelledReply reply := by
  obtain ⟨rest, n, hstep, hreply⟩ := exists_step_of_mem nextPiece_advances h
  have hreply' : reply = rest.take n := hreply
  rw [hreply']
  exact nextPiece_cancelled hstep

/-! ## Processing -/

/-- What precedes each paste consists of complete sequences. -/
abbrev Aligned : Bool → Bytes → Prop := Segmented (fun before => remainder before = []) fun _ => True

namespace StdinBuffer

/-- The part of the input that a call leaves to its recursive call. -/
structure Continues (s : StdinBuffer) (input : Bytes) (leftover : Option Bytes) : Prop where
  tidy : s.Tidy
  accounted : ∃ pieces, s.Delivered pieces ∧ input = pieces.flatMap Piece.bytes ++ s.held ++ leftover.getD []
  idle : ∀ rest, leftover = some rest → s.pasteMode = false ∧ s.buffer = [] ∧ Aligned false rest

variable {s : StdinBuffer} {pieces : List Piece}

theorem finishPaste_continues {content input : Bytes} (hdel : s.Delivered pieces)
    (hinput : input = pieces.flatMap Piece.bytes ++ (pasteStart ++ content)) (haligned : Aligned true content) :
    (s.finishPaste content).1.Continues input (s.finishPaste content).2 := by
  unfold finishPaste
  cases haligned with
  | opened hcut =>
    rw [hcut]
    exact ⟨by simp [Tidy], ⟨pieces, hdel, by simpa [held] using hinput⟩, by simp⟩
  | closed hcut hrem =>
    rename_i pasted remaining
    rw [hcut]
    refine ⟨by simp [Tidy], ⟨pieces ++ [.paste pasted], ⟨hdel.1.paste pasted, ?_⟩, ?_⟩, ?_⟩
    · simp [hdel.2, Piece.event]
    · have hrest : (if remaining = [] then none else some remaining).getD [] = remaining := by
        split
        · next h => exact h.symm
        · rfl
      simp only [hrest, held, Bool.false_eq_true, if_false, append_nil, hinput,
        cutAt_eq hcut, List.flatMap_append, List.flatMap_singleton, Piece.bytes, append_assoc]
    · intro rest hrest
      have hrest' : (if remaining = [] then none else some remaining) = some rest := hrest
      split at hrest'
      · cases hrest'
      · cases hrest'
        exact ⟨rfl, rfl, hrem⟩

theorem emitAll_sequences (h : s.Delivered pieces) (text : Bytes):
    ∃ more, (s.emitAll (sequences text)).Delivered (pieces ++ more) ∧
      more.flatMap Piece.bytes ++ remainder text = text := by
  obtain ⟨more, hmore, hflat⟩ := h.emitAll (extractPieces text).1 fun _ hmem => cancelled_of_extracted hmem
  refine ⟨more, hmore, ?_⟩
  rw [hflat]
  exact flatten_scanAll nextPiece_advances text

theorem processOnce_continues {before input : Bytes} (htidy : s.Tidy)
    (hacct : s.Accounted before) (haligned : Aligned s.pasteMode (s.text input)) :
    (s.processOnce input).1.Continues (before ++ input) (s.processOnce input).2 := by
  obtain ⟨pieces, hdel, hprev⟩ := hacct
  unfold processOnce
  split
  · next hempty =>
    -- An empty call on an empty buffer delivers an empty sequence.
    obtain ⟨rfl, hbuffer⟩ := hempty
    obtain ⟨piece, hpiece, hbytes⟩ := hdel.emit []
    refine ⟨by simpa [Tidy] using htidy, ⟨_, hpiece, ?_⟩, by simp⟩
    simp [hbytes, held, hprev]
  split
  · next hpaste =>
    have hbuffer : s.buffer = [] := by simpa [Tidy, hpaste] using htidy
    rw [hpaste, text, if_pos hpaste] at haligned
    refine finishPaste_continues hdel ?_ haligned
    rw [hprev, held, if_pos hpaste, hbuffer]
    simp
  next hpaste =>
  have hmode : s.pasteMode = false := by simpa using hpaste
  have hpasteBuffer : s.pasteBuffer = [] := by simpa [Tidy, hmode] using htidy
  have hheld : s.held = s.buffer := by simp [held, hmode]
  rw [hmode, text, if_neg hpaste] at haligned
  cases haligned with
  | rest hcut _ =>
    rw [hcut]
    obtain ⟨more, hmore, hflat⟩ := emitAll_sequences hdel (s.buffer ++ input)
    refine ⟨by simp [Tidy, hmode, hpasteBuffer], ⟨pieces ++ more, hmore, ?_⟩, by simp⟩
    have hkept : pieces.flatMap Piece.bytes ++ (more.flatMap Piece.bytes ++
        remainder (s.buffer ++ input)) = before ++ input := by
      rw [hflat, hprev, hheld, append_assoc]
    simp only [held, emitAll_pasteMode, hmode, Bool.false_eq_true, if_false,
      List.flatMap_append, append_assoc, Option.getD_none, append_nil, hkept]
  | start hcut hcomplete hafter =>
    rename_i prior after
    rw [hcut]
    obtain ⟨more, hmore, hflat⟩ := emitAll_sequences hdel prior
    rw [hcomplete, append_nil] at hflat
    refine finishPaste_continues hmore.forget ?_ hafter
    rw [List.flatMap_append, hflat, hprev, hheld, append_assoc, cutAt_eq hcut]
    simp

/-- A call of `process` keeps the account when what precedes its paste markers is complete. -/
theorem process_accounted {before input : Bytes} (htidy : s.Tidy)
    (hacct : s.Accounted before) (haligned : Aligned s.pasteMode (s.text input)) :
    (s.process input).Tidy ∧ (s.process input).Accounted (before ++ input) := by
  -- Induction on what is still to be read; the recursive call has less.
  induction hmeasure : s.buffer.length + s.pasteBuffer.length + input.length
    using Nat.strong_induction_on generalizing s before input with
  | _ measure ih =>
    have hcont := processOnce_continues htidy hacct haligned
    cases honce : s.processOnce input with
    | mk next leftover =>
      rw [honce] at hcont
      dsimp only at hcont
      obtain ⟨pieces, hdel, hinput⟩ := hcont.accounted
      cases leftover with
      | none =>
        rw [process_done honce]
        exact ⟨hcont.tidy, pieces, hdel, by simpa using hinput⟩
      | some rest =>
        rw [process_more honce]
        obtain ⟨hmode, hbuffer, hrest⟩ := hcont.idle rest rfl
        have hshorter := processOnce_shorter honce
        have hsofar : next.Accounted (pieces.flatMap Piece.bytes ++ next.held) := ⟨pieces, hdel, rfl⟩
        have htext : next.text rest = rest := by simp [text, hmode, hbuffer]
        have hlater := ih _ (hmeasure ▸ hshorter) hcont.tidy hsofar (by rw [hmode, htext]; exact hrest) rfl
        rw [hinput]
        exact hlater

/-! ## Buffered markers -/

/-- The buffer holds no start marker: its arrival opens the paste. -/
def NoMarker (s : StdinBuffer) : Prop := cutAt pasteStart s.buffer = none

theorem finishPaste_noMarker (s : StdinBuffer) (content : Bytes) : (s.finishPaste content).1.NoMarker := by
  unfold finishPaste
  split <;> rfl

theorem processOnce_noMarker (s : StdinBuffer) (input : Bytes) : (s.processOnce input).1.NoMarker := by
  unfold processOnce
  split
  · next hnone =>
    show cutAt pasteStart (s.emit []).buffer = none
    rw [emit_buffer, hnone.2]
    rfl
  split
  · exact finishPaste_noMarker _ _
  split
  · exact finishPaste_noMarker _ _
  next hcut =>
  obtain ⟨skipped, hsplit⟩ := remainder_suffix nextPiece_advances (s.buffer ++ input)
  rw [← hsplit] at hcut
  exact cutAt_right_none hcut

theorem process_noMarker (s : StdinBuffer) (input : Bytes) : (s.process input).NoMarker := by
  fun_induction process s input with
  | case1 s input next honce =>
    have hnext := processOnce_noMarker s input
    rwa [honce] at hnext
  | case2 s input next rest honce ih => exact ih

end StdinBuffer

/-! ## Runs -/

/-- The calls on a buffer. -/
inductive Call where
  | process (input : Bytes)
  | flush

def Call.input : Call → Bytes
  | .process input => input
  | .flush => []

def Call.apply (s : StdinBuffer) : Call → StdinBuffer
  | .process input => s.process input
  | .flush => s.flush

/-- What precedes each paste marker that the call sees is complete. A flush sees none. -/
def Call.IsAligned (s : StdinBuffer) : Call → Prop
  | .process input => Aligned s.pasteMode (s.text input)
  | .flush => True

theorem Call.apply_noMarker (s : StdinBuffer) (call : Call) : (call.apply s).NoMarker := by
  cases call with
  | process input => exact s.process_noMarker input
  | flush =>
    show s.flush.NoMarker
    rw [StdinBuffer.flush]
    split
    · next hnone =>
      rw [StdinBuffer.NoMarker, hnone]
      rfl
    split
    · exact StdinBuffer.process_noMarker _ _
    · rw [StdinBuffer.NoMarker, StdinBuffer.emit_buffer]
      rfl

def AllAligned : StdinBuffer → List Call → Prop
  | _, [] => True
  | s, call :: calls => call.IsAligned s ∧ AllAligned (call.apply s) calls

variable {s : StdinBuffer} {before : Bytes}

theorem StdinBuffer.flush_accounted (htidy : s.Tidy) (hacct : s.Accounted before) (hmarker : s.NoMarker) :
    s.flush.Tidy ∧ s.flush.Accounted before := by
  unfold flush
  split
  · exact ⟨htidy, hacct⟩
  next hbuffer =>
  -- A buffer in use means that no paste is open.
  have hmode : s.pasteMode = false := by
    by_contra hpaste
    exact hbuffer (by simpa [Tidy, hpaste] using htidy)
  have hpasteBuffer : s.pasteBuffer = [] := by simpa [Tidy, hmode] using htidy
  obtain ⟨pieces, hdel, hprev⟩ := hacct
  have hcleared : { s with buffer := [], pendingKittyPrintableText := none }.Delivered pieces := hdel.forget
  simp only [held, hmode, Bool.false_eq_true, if_false] at hprev
  split
  · obtain ⟨piece, hpiece, hbytes⟩ := hcleared.emit (s.buffer.take 2)
    have hacct' : ({ s with buffer := [], pendingKittyPrintableText := none }.emit
        (s.buffer.take 2)).Accounted (pieces.flatMap Piece.bytes ++ s.buffer.take 2) :=
      ⟨_, hpiece, by simp [hbytes, held, hmode]⟩
    have htail : cutAt pasteStart (s.buffer.drop 2) = none := by
      rw [NoMarker, ← List.take_append_drop 2 s.buffer] at hmarker
      exact cutAt_right_none hmarker
    have haligned : Aligned false (s.buffer.drop 2) := .rest htail trivial
    have hstart := process_accounted (by simp [Tidy, hmode, hpasteBuffer]) hacct'
      (show Aligned _ (text _ (s.buffer.drop 2)) by simpa [text, hmode] using haligned)
    rw [append_assoc, List.take_append_drop, ← hprev] at hstart
    exact hstart
  obtain ⟨piece, hpiece, hbytes⟩ := hcleared.emit s.buffer
  refine ⟨by simp [Tidy, hmode, hpasteBuffer], _, hpiece, ?_⟩
  simp [hbytes, held, hmode, hprev]

theorem Call.apply_accounted {call : Call} (htidy : s.Tidy)
    (hacct : s.Accounted before) (hmarker : s.NoMarker) (haligned : call.IsAligned s) :
    (call.apply s).Tidy ∧ (call.apply s).Accounted (before ++ call.input) := by
  cases call with
  | process input => exact StdinBuffer.process_accounted htidy hacct haligned
  | flush =>
    simp only [Call.apply, Call.input, append_nil]
    exact StdinBuffer.flush_accounted htidy hacct hmarker

theorem foldl_apply_accounted {calls : List Call} (htidy : s.Tidy)
    (hacct : s.Accounted before) (hmarker : s.NoMarker) (haligned : AllAligned s calls) (n : Nat) :
    ((calls.take n).foldl Call.apply s).Accounted (before ++ (calls.take n).flatMap Call.input) := by
  induction calls generalizing s before n with
  | nil => simpa using hacct
  | cons call calls ih =>
    cases n with
    | zero => simpa using hacct
    | succ n =>
      obtain ⟨htidy', hacct'⟩ := Call.apply_accounted htidy hacct hmarker haligned.1
      have hlater := ih htidy' hacct' (call.apply_noMarker s) haligned.2 n
      simpa [append_assoc] using hlater

/-- In every state of a run whose calls are aligned, the bytes of the input so far are, in order, those of
the delivered sequences and pastes, of the justified omissions and of the buffers. -/
theorem bytes_kept {calls : List Call} (h : AllAligned {} calls) (n : Nat) :
    ((calls.take n).foldl Call.apply {}).Accounted ((calls.take n).flatMap Call.input) := by
  have hstart : StdinBuffer.Accounted {} [] := ⟨[], ⟨.nil, rfl⟩, rfl⟩
  have hrun := foldl_apply_accounted (by simp [StdinBuffer.Tidy]) hstart rfl h n
  simpa using hrun

/-- A key, a paste and the escape key, which the timeout delivers. -/
theorem bytes_kept_escape_key :
    ([Call.process ([0x61] ++ pasteStart ++ [0x78] ++ pasteEnd), .process [esc], .flush].foldl
      Call.apply {}).Accounted ([0x61] ++ pasteStart ++ [0x78] ++ pasteEnd ++ [esc]) := by
  have hpaste : StdinBuffer.process {} ([0x61] ++ pasteStart ++ [0x78] ++ pasteEnd) =
      { events := [.data [0x61], .paste [0x78]] } := StdinBuffer.process_done (by decide +kernel)
  have hfirst : Aligned false ([0x61] ++ pasteStart ++ [0x78] ++ pasteEnd) :=
    .start (show cutAt _ _ = some ([0x61], [0x78] ++ pasteEnd) by decide +kernel) (by decide +kernel)
      (.closed (show cutAt _ _ = some ([0x78], []) by decide +kernel) (.rest rfl trivial))
  have haligned : AllAligned {} [.process ([0x61] ++ pasteStart ++ [0x78] ++ pasteEnd), .process [esc], .flush] := by
    refine ⟨hfirst, ?_, trivial, trivial⟩
    simp only [Call.apply, hpaste]
    exact .rest (by decide +kernel) trivial
  exact bytes_kept haligned 3

/-! ## An unfinished sequence before a paste -/

variable {pending : Option Bytes} {pieces : List Piece}

/-- When no sequence was delivered, every piece is a paste or a cancelled reply. -/
theorem Justified.of_no_data (h : Justified pieces pending) (hdata : ∀ sequence, Piece.data sequence ∉ pieces) :
    pending = none ∧ ∀ piece ∈ pieces, (∃ content, piece = .paste content) ∨
      ∃ reply, piece = .cancelled reply ∧ IsCancelledReply reply := by
  induction h with
  | nil => exact ⟨rfl, by simp⟩
  | data sequence _ _ => exact absurd (by simp) (hdata sequence)
  | repeated _ ih =>
    -- A repeat needs a key before it.
    have hpend := (ih fun sequence hmem => hdata sequence (List.mem_append_left _ hmem)).1
    cases hpend
  | cancelled hreply _ ih =>
    have hprev := ih fun sequence hmem => hdata sequence (List.mem_append_left _ hmem)
    refine ⟨hprev.1, fun piece hmem => ?_⟩
    rcases List.mem_append.1 hmem with hmem | hmem
    · exact hprev.2 piece hmem
    · exact .inr ⟨_, List.mem_singleton.1 hmem, hreply⟩
  | paste content _ ih =>
    have hprev := ih fun sequence hmem => hdata sequence (List.mem_append_left _ hmem)
    refine ⟨rfl, fun piece hmem => ?_⟩
    rcases List.mem_append.1 hmem with hmem | hmem
    · exact hprev.2 piece hmem
    · exact .inl ⟨content, List.mem_singleton.1 hmem⟩
  | forget _ ih => exact ⟨rfl, (ih hdata).2⟩

theorem Justified.head_of_no_data
    (h : Justified pieces pending) (hdata : ∀ sequence, Piece.data sequence ∉ pieces) (rest : Bytes) :
    pieces.flatMap Piece.bytes ≠ esc :: esc :: rest := by
  intro hbytes
  cases pieces with
  | nil => cases hbytes
  | cons piece pieces =>
    rcases (h.of_no_data hdata).2 piece List.mem_cons_self with ⟨content, rfl⟩ | ⟨reply, rfl, hreply⟩
    · simp [Piece.bytes, pasteStart, esc] at hbytes
    obtain ⟨hlong, later, hheader, -⟩ := hreply
    rcases reply with _ | ⟨first, _ | ⟨second, tail⟩⟩
    · cases hlong
    · simp at hlong
    · obtain ⟨rfl, rfl, -⟩ := hbytes
      cases hheader

/-- The escape key pressed just before a paste is lost. -/
theorem escape_lost_before_paste :
    ¬ ([Call.process [esc], .process (pasteStart ++ [0x78] ++ pasteEnd)].foldl Call.apply {}).Accounted
      ([esc] ++ (pasteStart ++ [0x78] ++ pasteEnd)) := by
  have hescape : StdinBuffer.process {} [esc] = { buffer := [esc] } := StdinBuffer.process_done (by decide +kernel)
  have hpaste : StdinBuffer.process { buffer := [esc] } (pasteStart ++ [0x78] ++ pasteEnd) =
      { events := [.paste [0x78]] } := StdinBuffer.process_done (by decide +kernel)
  simp only [List.foldl_cons, List.foldl_nil, Call.apply, hescape, hpaste]
  rintro ⟨pieces, ⟨hjustified, hevents⟩, hbytes⟩
  have hdata : ∀ sequence, Piece.data sequence ∉ pieces := by
    intro sequence hmem
    have hevent : Event.data sequence ∈ pieces.filterMap Piece.event := List.mem_filterMap.2 ⟨_, hmem, rfl⟩
    rw [← hevents] at hevent
    simp at hevent
  refine hjustified.head_of_no_data hdata ([0x5B, 0x32, 0x30, 0x30, 0x7E, 0x78] ++ pasteEnd) ?_
  simpa [StdinBuffer.held, pasteStart, pasteEnd, esc] using hbytes.symm

end CodingHarness.Tui
