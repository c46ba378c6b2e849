import CodingHarness.Tui.InputSplits

/-!
# Streams that depend on how they are cut

A stream that is not separable has two cuttings with different events. Where an escape stands alone in
front of another sequence, a chunk that ends right after the second escape delivers the two as one
sequence. Where the first bytes of a paste marker finish a sequence, a chunk that ends inside the marker
delivers that sequence, which one whole chunk drops.
-/

namespace CodingHarness.Tui

open Library Support
open List (append_assoc append_nil cons_append length_append length_cons length_take mem_cons_self prefix_refl)

/-! ## Unfinished pieces in a longer text -/

/-- The inner loop of the extraction goes past this end. -/
structure Passes (reply : Bool) (text : Bytes) (stop : Nat) : Prop where
  notCancelled : ¬ (reply ∧ 2 < stop ∧ (text[stop - 1]? = some 0x18 ∨ text[stop - 1]? = some 0x1A))
  notAborted : ¬ (reply ∧ 2 < stop ∧ text[stop - 1]? = some esc ∧ stop < text.length ∧ text[stop]? ≠ some 0x5C)
  incomplete : isCompleteSequence (text.take stop) = .incomplete

variable {fuel n : Nat} {text : Bytes} {reply : Bool} {stop : Nat}

theorem scanEscape_of_passes (h : Passes reply text stop):
    scanEscape reply text (fuel + 1) stop = scanEscape reply text fuel (stop + 1) := by
  rw [scanEscape, if_neg h.notCancelled, if_neg h.notAborted, h.incomplete]

theorem scanEscape_skip (k : Nat) (h : ∀ i, stop ≤ i → i < stop + k → Passes reply text i) :
    scanEscape reply text (fuel + k) stop = scanEscape reply text fuel (stop + k) := by
  induction k generalizing stop with
  | zero => rfl
  | succ k ih =>
    rw [← Nat.add_assoc, scanEscape_of_passes (h stop le_rfl (by omega)),
      ih fun i hlow hhigh => h i (by omega) (by omega)]
    congr 1
    omega

theorem passes_of_scanEscape_none
    (h : scanEscape reply text fuel stop = none) (i : Nat) (hlow : stop ≤ i) (hhigh : i < stop + fuel) :
    Passes reply text i := by
  induction fuel generalizing stop with
  | zero => omega
  | succ fuel ih =>
    rw [scanEscape] at h
    split at h
    · cases h
    next hcancel =>
    split at h
    · cases h
    next habort =>
    cases hstat : isCompleteSequence (text.take stop) with
    | complete =>
      rw [hstat] at h
      simp only at h
      split at h <;> cases h
    | notEscape =>
      rw [hstat] at h
      cases h
    | incomplete =>
      rw [hstat] at h
      rcases Nat.eq_or_lt_of_le hlow with rfl | hlater
      · exact ⟨hcancel, habort, hstat⟩
      · exact ih h hlater (by omega)

variable {kind : PieceKind}

/-- What the inner loop finds ends where it stands, or one byte before at an escape. -/
theorem scanEscape_end (hfuel : fuel + stop = text.length + 1) (hstop : 1 ≤ stop)
    (h : scanEscape reply text fuel stop = some (kind, n)) : stop ≤ n ∨ (stop ≤ n + 1 ∧ text[n]? = some esc) := by
  induction fuel generalizing stop with
  | zero => cases h
  | succ fuel ih =>
    rw [scanEscape] at h
    split at h
    · obtain ⟨-, rfl⟩ := Prod.mk.inj (Option.some.inj h)
      exact .inl le_rfl
    split at h
    · next habort =>
      obtain ⟨-, rfl⟩ := Prod.mk.inj (Option.some.inj h)
      exact .inr ⟨by omega, habort.2.2.1⟩
    split at h
    · split at h
      · next hpair =>
        -- Two escapes came apart.
        obtain ⟨-, rfl⟩ := Prod.mk.inj (Option.some.inj h)
        have hlen := congrArg List.length hpair.1
        rw [length_take] at hlen
        have hsnd : (text.take stop)[1]? = some esc := by rw [hpair.1]; rfl
        simp only [length_cons, List.length_nil] at hlen
        rw [List.getElem?_take] at hsnd
        split at hsnd
        · exact .inr ⟨by omega, hsnd⟩
        · cases hsnd
      · obtain ⟨-, rfl⟩ := Prod.mk.inj (Option.some.inj h)
        exact .inl le_rfl
    · rcases ih (by omega) (by omega) h with hlater | hlater
      · exact .inl (by omega)
      · exact .inr ⟨by omega, hlater.2⟩
    · obtain ⟨-, rfl⟩ := Prod.mk.inj (Option.some.inj h)
      exact .inl le_rfl

/-- A header that only a longer text shows consists of bytes that finish nothing. -/
theorem passes_of_longer_header {text more : Bytes} (hshort : isReply text = false)
    (hlong : isReply (text ++ more) = true)
    (h : ∀ i, 1 ≤ i → i ≤ text.length → Passes false text i) (i : Nat) (hlow : 1 ≤ i)
    (hhigh : i ≤ text.length) : Passes true (text ++ more) i := by
  obtain ⟨plain, hpartial, hbytes, -⟩ := header_of_longer hshort hlong
  have htake : (text ++ more).take i = text.take i := List.take_append_of_le_length hhigh
  have hchar : (text ++ more)[i - 1]? = text[i - 1]? := List.getElem?_append_left (by omega)
  -- The byte before a later end is one of the header.
  have hinside : 2 < i → ∀ c, text[i - 1]? = some c → IsPlain c := by
    intro hlate c hc
    obtain ⟨tail, htail⟩ := hpartial
    have hmem : (esc :: plain)[i - 1]? = some c := by
      rw [← htail, List.getElem?_append_left (by omega)]
      exact hc
    obtain ⟨j, hj⟩ : ∃ j, i - 1 = j + 1 := ⟨i - 2, by omega⟩
    rw [hj, List.getElem?_cons_succ] at hmem
    exact hbytes c (List.mem_of_getElem? hmem)
  refine ⟨?_, ?_, by rw [htake]; exact (h i hlow hhigh).incomplete⟩
  · rintro ⟨-, hlate, hcancel | hcancel⟩
    · exact absurd (hinside hlate _ (hchar ▸ hcancel)) (by decide)
    · exact absurd (hinside hlate _ (hchar ▸ hcancel)) (by decide)
  · rintro ⟨-, hlate, habort, -⟩
    exact absurd (hinside hlate _ (hchar ▸ habort)) (by decide)

theorem Passes.append {i : Nat} (more : Bytes) (h : Passes reply text i)
    (hlow : 1 ≤ i) (hhigh : i < text.length) : Passes reply (text ++ more) i := by
  have htake : (text ++ more).take i = text.take i := List.take_append_of_le_length hhigh.le
  have hchar : (text ++ more)[i - 1]? = text[i - 1]? := List.getElem?_append_left (by omega)
  have hnext : (text ++ more)[i]? = text[i]? := List.getElem?_append_left hhigh
  refine ⟨by rw [hchar]; exact h.notCancelled, ?_, by rw [htake]; exact h.incomplete⟩
  rw [hchar, hnext]
  rintro ⟨hreply, hlate, habort, -, hne⟩
  exact h.notAborted ⟨hreply, hlate, habort, hhigh, hne⟩

/-- More input finishes an unfinished piece after its last byte, or cuts it off at an escape that is its
last byte. -/
theorem nextPiece_stuck {text more : Bytes} (hnone : nextPiece text = none)
    (h : nextPiece (text ++ more) = some (kind, n)) :
    text.length ≤ n ∨ (text.length = n + 1 ∧ text[n]? = some esc) := by
  cases text with
  | nil => exact .inl (Nat.zero_le n)
  | cons first rest =>
    by_cases hesc : first = esc
    · subst hesc
      rw [cons_append, nextPiece, if_pos rfl] at h
      have hpasses := passes_of_scanEscape_none hnone
      have hfuel : (rest ++ more).length + 1 = more.length + 1 + rest.length := by
        rw [length_append]
        omega
      -- Up to the last end the longer text is scanned like the shorter one.
      have hskipped : ∀ i, 1 ≤ i → i < 1 + rest.length →
          Passes (isReply (esc :: (rest ++ more))) (esc :: (rest ++ more)) i := by
        intro i hlow hhigh
        have hshort : Passes (isReply (esc :: rest)) (esc :: rest) i := hpasses i hlow (by omega)
        cases hreply : isReply (esc :: rest) with
        | true =>
          rw [hreply] at hshort
          rw [← cons_append, isReply_append hreply more]
          exact hshort.append more hlow (by rw [length_cons]; omega)
        | false =>
          cases hlonger : isReply (esc :: (rest ++ more)) with
          | false =>
            rw [hreply] at hshort
            exact hshort.append more hlow (by rw [length_cons]; omega)
          | true =>
            refine passes_of_longer_header hreply hlonger (fun j hj hj' => ?_) i hlow (by rw [length_cons]; omega)
            rw [← hreply]
            exact hpasses j hj (by rw [length_cons] at hj'; omega)
      rw [hfuel] at h
      have hfound : scanEscape (isReply (esc :: (rest ++ more))) (esc :: (rest ++ more))
          (more.length + 1) (1 + rest.length) = some (kind, n) :=
        (scanEscape_skip rest.length hskipped).symm.trans h
      rcases scanEscape_end (by rw [length_cons, length_append]; omega) (by omega) hfound with
        hend | ⟨hend, hescape⟩
      · exact .inl (by rw [length_cons]; omega)
      by_cases hlate : (esc :: rest).length ≤ n
      · exact .inl hlate
      rw [length_cons] at hlate
      refine .inr ⟨by rw [length_cons]; omega, ?_⟩
      rw [← cons_append, List.getElem?_append_left (by rw [length_cons]; omega)] at hescape
      exact hescape
    · rw [nextPiece, if_neg hesc] at hnone
      rw [cons_append, nextPiece, if_neg hesc] at h
      split at hnone
      · split at h
        · cases h
        · obtain ⟨-, rfl⟩ := Prod.mk.inj (Option.some.inj h)
          exact .inl (by rw [length_cons]; omega)
      · cases hnone

theorem nextPiece_shorter {text more : Bytes}
    (h : nextPiece (text ++ more) = some (kind, n)) (hlong : n + 2 ≤ text.length) :
    nextPiece text = some (kind, n) := by
  cases hpiece : nextPiece text with
  | none =>
    rcases nextPiece_stuck hpiece h with hend | ⟨hend, -⟩
    · omega
    · omega
  | some found =>
    rcases nextPiece_append more hpiece with hsame | ⟨rfl, hsplit⟩
    · rw [← hsame, h]
    rw [h] at hsplit
    obtain ⟨-, rfl⟩ := Prod.mk.inj (Option.some.inj hsplit)
    simp at hlong

/-! ## The sequences that differ -/

theorem scanEscape_lone (hstop : 1 ≤ stop) (hfuel : fuel + stop = text.length + 1) (hlone : text.take 1 = [esc])
    (h : scanEscape reply text fuel stop = some (.sequence, 1)) : ∃ rest, text = esc :: esc :: rest ∧ rest ≠ [] := by
  induction fuel generalizing stop with
  | zero => cases h
  | succ fuel ih =>
    rw [scanEscape] at h
    split at h
    · cases (Prod.mk.inj (Option.some.inj h)).1
    split at h
    · cases (Prod.mk.inj (Option.some.inj h)).1
    split at h
    · next hstat =>
      split at h
      · next hpair =>
        obtain ⟨hpair, hopens⟩ := hpair
        refine ⟨text.drop stop, ?_, ?_⟩
        · have hparts := List.take_append_drop stop text
          rw [hpair] at hparts
          exact hparts.symm
        intro hnil
        rw [List.getElem?_eq_none (List.drop_eq_nil_iff.1 hnil)] at hopens
        cases hopens
      obtain ⟨-, rfl⟩ := Prod.mk.inj (Option.some.inj h)
      rw [hlone] at hstat
      cases hstat
    · exact ih (by omega) (by omega) h
    · next hstat =>
      obtain ⟨-, rfl⟩ := Prod.mk.inj (Option.some.inj h)
      rw [hlone] at hstat
      cases hstat

theorem nextPiece_lone (h : nextPiece text = some (.sequence, n))
    (hlone : text.take n = [esc]) : ∃ rest, text = esc :: esc :: rest ∧ rest ≠ [] ∧ n = 1 := by
  have hn : n = 1 := by
    have hlen := congrArg List.length hlone
    rw [length_take, Nat.min_eq_left (nextPiece_advances _ _ _ h).2] at hlen
    exact hlen
  subst hn
  cases text with
  | nil => cases h
  | cons first rest =>
    obtain rfl : first = esc := (List.cons.inj hlone).1
    obtain ⟨later, hlater, hsome⟩ := scanEscape_lone le_rfl rfl hlone h
    exact ⟨later, hlater, hsome, rfl⟩

theorem length_le_of_mem_sequences {text sequence : Bytes} (h : sequence ∈ sequences text) :
    sequence.length ≤ text.length := by
  obtain ⟨piece, hpiece, hkind⟩ := List.mem_filterMap.1 h
  have hbytes : piece.2 = sequence := by
    split at hkind
    · exact Option.some.inj hkind
    · cases hkind
  have hlonger := (List.sublist_flatten_of_mem (List.mem_map_of_mem (f := Prod.snd) hpiece)).length_le
  rw [← List.flatMap_def, hbytes] at hlonger
  have hflatten : (extractPieces text).1.flatMap Prod.snd ++ remainder text = text :=
    flatten_scanAll nextPiece_advances text
  have hsum := congrArg List.length hflatten
  rw [length_append] at hsum
  omega

theorem exists_lone_cut (h : [esc] ∈ sequences text) :
    ∃ start rest first later, text = start ++ rest ∧ start ≠ [] ∧ rest ≠ [] ∧
      sequences text = first ++ [esc] :: later ∧ sequences start = first ++ [[esc, esc]] := by
  induction hlen : text.length using Nat.strong_induction_on generalizing text with
  | _ length ih =>
    cases hpiece : nextPiece text with
    | none =>
      rw [(sequences_of_none hpiece).1] at h
      cases h
    | some found =>
      obtain ⟨kind, n⟩ := found
      obtain ⟨hpos, hle⟩ := nextPiece_advances text kind n hpiece
      have htext := (sequences_of_some hpiece).1
      by_cases hlone : kind = .sequence ∧ text.take n = [esc]
      · obtain ⟨rfl, htake⟩ := hlone
        obtain ⟨rest, rfl, hrest, rfl⟩ := nextPiece_lone hpiece htake
        exact ⟨[esc, esc], rest, [], sequences ((esc :: esc :: rest).drop 1), rfl, by simp, hrest,
          htext, by decide +kernel⟩
      have hlater : [esc] ∈ sequences (text.drop n) := by
        rw [htext] at h
        rcases List.mem_append.1 h with h | h
        · split at h
          · next hkind => exact absurd ⟨hkind, (List.mem_singleton.1 h).symm⟩ hlone
          · cases h
        · exact h
      obtain ⟨start, rest, first, later, hsplit, hstart, hrest, hseqs, hshort⟩ :=
        ih (text.drop n).length (by rw [List.length_drop]; omega) hlater rfl
      have hparts : text = text.take n ++ start ++ rest := by
        rw [append_assoc, ← hsplit, List.take_append_drop]
      -- The two escapes are behind the piece, so it is found without what follows them.
      have htwo : 2 ≤ start.length := by
        have hpair : [esc, esc] ∈ sequences start := by rw [hshort]; simp
        exact length_le_of_mem_sequences hpair
      have htake : (text.take n ++ start).take n = text.take n := by
        rw [List.take_append_of_le_length (by rw [length_take]; omega), List.take_take, Nat.min_self]
      have hdrop : (text.take n ++ start).drop n = start := by
        rw [List.drop_append_of_le_length (by rw [length_take]; omega), List.drop_take_self]
        rfl
      have hpiece' : nextPiece (text.take n ++ start) = some (kind, n) := by
        rw [hparts] at hpiece
        refine nextPiece_shorter hpiece ?_
        rw [length_append, length_take]
        omega
      have hfirst := (sequences_of_some hpiece').1
      rw [htake, hdrop] at hfirst
      refine ⟨text.take n ++ start, rest, (if kind = .sequence then [text.take n] else []) ++ first,
        later, hparts, fun hnil => hstart (List.append_eq_nil_iff.1 hnil).2, hrest, ?_, ?_⟩
      · rw [htext, hseqs, append_assoc]
      · rw [hfirst, hshort, append_assoc]

/-- The start of a marker has an escape, and so has the first sequence it finishes. -/
theorem escape_mem_of_finished {text sequence : Bytes} {later : List Bytes} (hnone : nextPiece text = none)
    (h : sequences (text ++ pasteStart.dropLast) = sequence :: later) : esc ∈ sequence := by
  cases hpiece : nextPiece (text ++ pasteStart.dropLast) with
  | none =>
    rw [(sequences_of_none hpiece).1] at h
    cases h
  | some found =>
    obtain ⟨kind, n⟩ := found
    obtain ⟨hpos, hle⟩ := nextPiece_advances _ kind n hpiece
    have hstuck := nextPiece_stuck hnone hpiece
    rw [(sequences_of_some hpiece).1] at h
    cases kind with
    | sequence =>
      obtain rfl : (text ++ pasteStart.dropLast).take n = sequence := (List.cons.inj h).1
      cases text with
      | nil =>
        obtain ⟨n, rfl⟩ : ∃ k, n = k + 1 := ⟨n - 1, by omega⟩
        exact mem_cons_self
      | cons first rest =>
        by_cases hesc : first = esc
        · obtain ⟨n, rfl⟩ : ∃ k, n = k + 1 := ⟨n - 1, by omega⟩
          rw [hesc]
          exact mem_cons_self
        -- An unfinished character takes the marker's first byte.
        rw [nextPiece, if_neg hesc] at hnone
        rw [cons_append, nextPiece, if_neg hesc] at hpiece
        split at hnone
        · next hshort =>
          split at hpiece
          · cases hpiece
          obtain ⟨-, rfl⟩ := Prod.mk.inj (Option.some.inj hpiece)
          have hbyte : ((first :: rest ++ pasteStart.dropLast).take
              (utf8SequenceLength first))[rest.length + 1]? = some esc := by
            rw [List.getElem?_take_of_lt hshort, List.getElem?_append_right (by rw [length_cons]), length_cons,
              Nat.sub_self]
            rfl
          exact List.mem_of_getElem? hbyte
        · cases hnone
    | cancelled =>
      have hmark : IsMarkerStart pasteStart.dropLast := prefix_refl _
      have hprev : n ≤ text.length := cancelled_before_marker hmark hpiece
      rw [List.drop_append_of_le_length hprev] at h
      rcases hstuck with hend | ⟨hend, hescape⟩
      · obtain rfl : n = text.length := by omega
        have hopen : sequences ([] ++ pasteStart.dropLast) = [] := by decide +kernel
        rw [List.drop_length, hopen] at h
        cases h
      -- The escape that cut the reply off stands alone in front of the marker.
      have hdrop : text.drop n = [esc] := by
        rw [List.drop_eq_getElem_cons (by omega), List.drop_of_length_le (by omega)]
        rw [List.getElem?_eq_getElem (by omega)] at hescape
        rw [Option.some.inj hescape]
      have hlone : sequences ([esc] ++ pasteStart.dropLast) = [[esc]] := by decide +kernel
      rw [hdrop, hlone] at h
      rw [← (List.cons.inj h).1]
      exact mem_cons_self

/-! ## The events that differ -/

theorem escape_not_mem_encodedCodepoint {codepoint : Nat} (hprintable : 32 ≤ codepoint)
    (h : encodedCodepoint codepoint = some text) : esc ∉ text := by
  -- A byte of the encoding is the code point itself or has its high bit set.
  have hbyte : ∀ n, n < 256 → 32 ≤ n → esc ≠ UInt8.ofNat n := by
    intro n hlt hle heq
    have hvalue := congrArg UInt8.toNat heq
    rw [UInt8.toNat_ofNat'] at hvalue
    have hesc : esc.toNat = 27 := rfl
    omega
  unfold encodedCodepoint at h
  split_ifs at h with hone htwo hthree hfour <;> obtain rfl := Option.some.inj h <;>
    simp only [List.mem_cons, List.not_mem_nil, or_false, not_or]
  · exact hbyte _ (by omega) (by omega)
  · exact ⟨hbyte _ (by omega) (by omega), hbyte _ (by omega) (by omega)⟩
  · exact ⟨hbyte _ (by omega) (by omega), hbyte _ (by omega) (by omega), hbyte _ (by omega) (by omega)⟩
  · exact ⟨hbyte _ (by omega) (by omega), hbyte _ (by omega) (by omega),
      hbyte _ (by omega) (by omega), hbyte _ (by omega) (by omega)⟩

theorem escape_not_mem_duplicate {sequence text : Bytes}
    (h : duplicatePrintableText sequence = some text) : esc ∉ text := by
  unfold duplicatePrintableText at h
  split at h
  · dsimp only at h
    split at h
    · cases h
    split at h
    · cases h
    split at h
    · cases h
    · next hvalid => exact escape_not_mem_encodedCodepoint (by omega) h
  · cases h

namespace StdinBuffer

/-- The text that the last key would repeat has no escape. -/
def PlainPending (s : StdinBuffer) : Prop := ∀ text, s.pendingKittyPrintableText = some text → esc ∉ text

variable {s : StdinBuffer}

theorem PlainPending.emitAll (h : s.PlainPending) (emitted : List Bytes) : (s.emitAll emitted).PlainPending := by
  induction emitted generalizing s with
  | nil => exact h
  | cons sequence rest ih =>
    refine ih (s := s.emit sequence) ?_
    unfold emit
    split
    · intro text htext
      cases htext
    · intro text htext
      exact escape_not_mem_duplicate htext

theorem emit_events_grow (s : StdinBuffer) (sequence : Bytes) : s.events <+: (s.emit sequence).events := by
  unfold emit
  split
  · exact prefix_refl _
  · exact List.prefix_append _ _

theorem emitAll_events_grow (s : StdinBuffer) (emitted : List Bytes) : s.events <+: (s.emitAll emitted).events := by
  induction emitted generalizing s with
  | nil => exact prefix_refl _
  | cons sequence rest ih => exact (emit_events_grow s sequence).trans (ih (s.emit sequence))

theorem finishPaste_events_grow (s : StdinBuffer) (content : Bytes) :
    s.events <+: (s.finishPaste content).1.events := by
  unfold finishPaste
  split
  · exact prefix_refl _
  · exact List.prefix_append _ _

theorem processOnce_events_grow (s : StdinBuffer) (input : Bytes) : s.events <+: (s.processOnce input).1.events := by
  unfold processOnce
  split
  · exact emit_events_grow s []
  split
  · exact finishPaste_events_grow s _
  split
  · next before after _ =>
    exact (emitAll_events_grow s (sequences before)).trans (finishPaste_events_grow
      { s.emitAll (sequences before) with pendingKittyPrintableText := none } after)
  · exact emitAll_events_grow s _

theorem process_events_grow (s : StdinBuffer) (input : Bytes) : s.events <+: (s.process input).events := by
  induction hmeasure : s.buffer.length + s.pasteBuffer.length + input.length
    using Nat.strong_induction_on generalizing s input with
  | _ measure ih =>
    have honce := processOnce_events_grow s input
    cases hnext : s.processOnce input with
    | mk next leftover =>
      rw [hnext] at honce
      cases leftover with
      | none => rw [process_done hnext]; exact honce
      | some rest =>
        rw [process_more hnext]
        exact honce.trans (ih _ (hmeasure ▸ processOnce_shorter hnext) next rest rfl)

theorem resume_events_grow (next : StdinBuffer × Option Bytes) : next.1.events <+: (resume next).events := by
  obtain ⟨s, leftover⟩ := next
  cases leftover with
  | none => exact prefix_refl _
  | some rest => exact process_events_grow s rest

theorem emit_escape {sequence : Bytes} (h : s.PlainPending) (hescape : esc ∈ sequence) :
    (s.emit sequence).events = s.events ++ [.data sequence] := by
  unfold emit
  split
  · next hrepeat => exact absurd hescape (h sequence hrepeat)
  · rfl

/-- The first of the sequences after some others shows in the events when it has an escape. -/
theorem emitAll_escape {sequence : Bytes} (h : s.PlainPending) (hescape : esc ∈ sequence) (first later : List Bytes) :
    (s.emitAll first).events ++ [.data sequence] <+: (s.emitAll (first ++ sequence :: later)).events := by
  have hfold : s.emitAll (first ++ sequence :: later) = ((s.emitAll first).emit sequence).emitAll later := by
    rw [emitAll, List.foldl_append]
    rfl
  rw [hfold, ← emit_escape (h.emitAll first) hescape]
  exact emitAll_events_grow _ later

end StdinBuffer

theorem ne_of_prefixes {first : List Event} {a b : Event} {events : List Event} (hne : a ≠ b)
    (ha : first ++ [a] <+: events) (hb : first ++ [b] <+: events) : False := by
  have hsame := List.prefix_of_prefix_length_le ha hb (by simp)
  have heq := hsame.eq_of_length (by simp)
  exact hne (List.cons.inj (List.append_cancel_left heq)).1

/-! ## Which streams agree -/

namespace StdinBuffer

/-- Every cut of the input in two gives the same. -/
def Agrees (s : StdinBuffer) (input : Bytes) : Prop :=
  ∀ a b, a ≠ [] → b ≠ [] → a ++ b = input → s.process input = (s.process a).process b

/-- No paste is open and nothing is buffered, as at the start and after a paste. -/
structure Idle (s : StdinBuffer) : Prop where
  notPasting : s.pasteMode = false
  empty : s.buffer = []
  plain : s.PlainPending

variable {s : StdinBuffer} {before after : Bytes}

/-- The events of a chunk start with what stands before its first marker. -/
theorem Idle.events_before (h : s.Idle) (hcut : cutAt pasteStart (before ++ after) = none ∧ after = [] ∨
      ∃ content, cutAt pasteStart (before ++ after) = some (before, content)) (hinput : before ++ after ≠ []) :
    (s.emitAll (sequences before)).events <+: (s.process (before ++ after)).events := by
  rcases hcut with ⟨hnone, rfl⟩ | ⟨content, hsome⟩
  · rw [process_plain hinput h.notPasting (by rw [h.empty]; exact hnone), h.empty, append_nil]
    exact prefix_refl _
  rw [process_eq_resume, processOnce_marker hinput h.notPasting (by rw [h.empty]; exact hsome)]
  exact (finishPaste_events_grow
    { s.emitAll (sequences before) with pendingKittyPrintableText := none } content).trans
    (resume_events_grow _)

theorem Idle.process_events (h : s.Idle) {input : Bytes} (hinput : input ≠ [])
    (hcut : cutAt pasteStart input = none) : (s.process input).events = (s.emitAll (sequences input)).events := by
  rw [process_plain hinput h.notPasting (by rw [h.empty]; exact hcut), h.empty]
  rfl

theorem Idle.noLoneEscape (h : s.Idle) (hcut : cutAt pasteStart (before ++ after) = none ∧ after = [] ∨
      ∃ content, cutAt pasteStart (before ++ after) = some (before, content))
    (hprev : cutAt pasteStart before = none) (hagrees : s.Agrees (before ++ after)) : [esc] ∉ sequences before := by
  intro hlone
  obtain ⟨start, rest, first, later, rfl, hstart, hrest, hseqs, hshort⟩ := exists_lone_cut hlone
  have hnonempty : start ++ rest ++ after ≠ [] := by
    intro hnil
    exact hstart (List.append_eq_nil_iff.1 (List.append_eq_nil_iff.1 hnil).1).1
  have hwhole := h.events_before hcut hnonempty
  rw [hseqs] at hwhole
  have hsplit := hagrees start (rest ++ after) hstart
    (fun hnil => hrest (List.append_eq_nil_iff.1 hnil).1) (append_assoc _ _ _).symm
  -- One chunk delivers the first escape, two chunks deliver both together.
  refine ne_of_prefixes (a := .data [esc]) (b := .data [esc, esc]) (by decide)
    ((emitAll_escape h.plain (by simp) first later).trans hwhole) ?_
  rw [hsplit]
  refine List.IsPrefix.trans ?_ (process_events_grow (s.process start) (rest ++ after))
  rw [h.process_events hstart (cutAt_left_none hprev), hshort]
  exact emitAll_escape h.plain (by simp) first []

theorem Idle.markerIntact (h : s.Idle)
    (hcut : cutAt pasteStart (before ++ pasteStart ++ after) = some (before, after))
    (hagrees : s.Agrees (before ++ pasteStart ++ after)) :
    sequences (before ++ pasteStart.dropLast) = sequences before := by
  -- The marker starts with an escape, so it leaves the sequences before it as they are.
  have hscan : extractPieces (before ++ pasteStart.dropLast) =
      ((extractPieces before).1 ++ (extractPieces (remainder before ++ pasteStart.dropLast)).1,
        remainder (remainder before ++ pasteStart.dropLast)) := by
    refine scanAll_append nextPiece_advances (fun _ => False) ?_ (fun _ _ hfalse => hfalse)
    intro x kind n hpiece
    rcases nextPiece_append pasteStart.dropLast hpiece with hsame | ⟨rfl, hsplit⟩
    · exact .inl hsame
    · cases hsplit
  have hseqs : sequences (before ++ pasteStart.dropLast) =
      sequences before ++ sequences (remainder before ++ pasteStart.dropLast) := by
    rw [sequences, hscan, List.filterMap_append]
    rfl
  by_contra hchanged
  have hfin : sequences (remainder before ++ pasteStart.dropLast) ≠ [] := fun hnil =>
    hchanged (by rw [hseqs, hnil, append_nil])
  obtain ⟨sequence, later, hfirst⟩ := List.exists_cons_of_ne_nil hfin
  have hescape := escape_mem_of_finished (nextPiece_remainder before) hfirst
  rw [hfirst] at hseqs
  have hmark : before ++ pasteStart.dropLast ++ ([0x7E] ++ after) = before ++ pasteStart ++ after := by
    simp [pasteStart]
  have hstart : before ++ pasteStart.dropLast ≠ [] := by simp [pasteStart]
  have hsplit := hagrees (before ++ pasteStart.dropLast) ([0x7E] ++ after) hstart (by simp) hmark
  have hshort : cutAt pasteStart (before ++ pasteStart.dropLast) = none := by
    cases hinside : cutAt pasteStart (before ++ pasteStart.dropLast) with
    | none => rfl
    | some parts =>
      have hlonger := cutAt_append (b := [0x7E] ++ after) hinside
      rw [hmark, hcut] at hlonger
      have hprev := (Prod.mk.inj (Option.some.inj hlonger)).1
      have hlen := congrArg List.length (cutAt_eq hinside)
      rw [hprev] at hlen
      simp [pasteStart] at hlen
  have hsnd : (s.emitAll (sequences before)).events ++ [.data sequence] <+:
      (s.process (before ++ pasteStart ++ after)).events := by
    rw [hsplit]
    refine List.IsPrefix.trans ?_ (process_events_grow _ _)
    rw [h.process_events hstart hshort, hseqs]
    exact emitAll_escape h.plain hescape (sequences before) later
  -- The whole chunk goes on with the paste.
  have hinput : before ++ pasteStart ++ after ≠ [] := by simp [pasteStart]
  rw [process_eq_resume, processOnce_marker hinput h.notPasting (by rw [h.empty]; exact hcut)] at hsnd
  cases hpaste : cutAt pasteEnd after with
  | none =>
    have hopen := hsnd.length_le
    rw [finishPaste, hpaste, resume, length_append] at hopen
    simp at hopen
  | some parts =>
    obtain ⟨pasted, remaining⟩ := parts
    refine ne_of_prefixes (a := .data sequence) (b := .paste pasted) (by simp) hsnd ?_
    refine List.IsPrefix.trans ?_ (resume_events_grow _)
    rw [finishPaste, hpaste]

/-- The state after the first paste of a chunk. -/
def afterPaste (s : StdinBuffer) (before pasted : Bytes) : StdinBuffer :=
  { events := (s.emitAll (sequences before)).events ++ [.paste pasted] }

theorem Idle.process_paste (h : s.Idle) {input before after pasted remaining : Bytes}
    (hcut : cutAt pasteStart input = some (before, after))
    (hpaste : cutAt pasteEnd after = some (pasted, remaining)) (hrem : remaining ≠ []) :
    s.process input = (s.afterPaste before pasted).process remaining := by
  have hinput : input ≠ [] := by
    rw [cutAt_eq hcut]
    simp [pasteStart]
  rw [process_eq_resume, processOnce_marker hinput h.notPasting (by rw [h.empty]; exact hcut), finishPaste, hpaste]
  simp only [if_neg hrem]
  rfl

theorem idle_afterPaste (s : StdinBuffer) (before pasted : Bytes) : (s.afterPaste before pasted).Idle :=
  ⟨rfl, rfl, by intro text htext; cases htext⟩

theorem Idle.agrees_afterPaste (h : s.Idle) {before after pasted remaining : Bytes}
    (hcut : cutAt pasteStart (before ++ pasteStart ++ after) = some (before, after))
    (hpaste : cutAt pasteEnd after = some (pasted, remaining)) (hagrees : s.Agrees (before ++ pasteStart ++ after)) :
    (s.afterPaste before pasted).Agrees remaining := by
  rintro a b ha hb rfl
  have hcont := cutAt_eq hpaste
  -- The first chunk ends inside what follows the paste.
  have hparts : before ++ pasteStart ++ (pasted ++ pasteEnd ++ a) ++ b = before ++ pasteStart ++ after := by
    rw [hcont]
    simp
  have hcont' : pasted ++ pasteEnd ++ a ++ b = after := by
    rw [hcont]
    simp
  have hstart : cutAt pasteStart (before ++ pasteStart ++ (pasted ++ pasteEnd ++ a)) =
      some (before, pasted ++ pasteEnd ++ a) := by
    refine cutAt_shorter (by decide) (b := b) ?_ rfl
    rw [hparts, hcont']
    exact hcut
  have hend : cutAt pasteEnd (pasted ++ pasteEnd ++ a) = some (pasted, a) := by
    refine cutAt_shorter (by decide) (b := b) ?_ rfl
    rw [hcont']
    exact hpaste
  have hsplit := hagrees _ b (by simp [pasteStart]) hb hparts
  rw [h.process_paste hcut hpaste (fun hnil => ha (List.append_eq_nil_iff.1 hnil).1),
    h.process_paste hstart hend ha] at hsplit
  exact hsplit

theorem Idle.separable (h : s.Idle) {input : Bytes} (hagrees : s.Agrees input) : Separable false input := by
  -- Induction on the length: each paste leaves a shorter text behind it.
  induction hlen : input.length using Nat.strong_induction_on generalizing s input with
  | _ length ih =>
    cases hcut : cutAt pasteStart input with
    | none =>
      refine .rest hcut (h.noLoneEscape (.inl ⟨?_, rfl⟩) hcut ?_)
      · rw [append_nil]
        exact hcut
      · rw [append_nil]
        exact hagrees
    | some parts =>
      obtain ⟨before, after⟩ := parts
      obtain rfl := cutAt_eq hcut
      have hprev : cutAt pasteStart before = none := by
        cases hinside : cutAt pasteStart before with
        | none => rfl
        | some parts =>
          have hlonger := cutAt_append (b := pasteStart ++ after) hinside
          rw [← append_assoc, hcut] at hlonger
          have hfirst := (Prod.mk.inj (Option.some.inj hlonger)).1
          have hsize := congrArg List.length (cutAt_eq hinside)
          rw [← hfirst] at hsize
          simp [pasteStart] at hsize
      have hlone : [esc] ∉ sequences before := by
        refine h.noLoneEscape (.inr ⟨after, ?_⟩) hprev (?_ : s.Agrees (before ++ (pasteStart ++ after)))
        · rw [← append_assoc]
          exact hcut
        · rw [← append_assoc]
          exact hagrees
      refine .start hcut ⟨hlone, h.markerIntact hcut hagrees⟩ ?_
      cases hpaste : cutAt pasteEnd after with
      | none => exact .opened hpaste
      | some parts =>
        obtain ⟨pasted, remaining⟩ := parts
        have hsize := congrArg List.length (cutAt_eq hpaste)
        have hpasteEnd : pasteEnd.length = 6 := rfl
        simp only [length_append] at hsize hlen
        exact .closed hpaste (ih remaining.length (by omega) (idle_afterPaste s before pasted)
          (h.agrees_afterPaste hcut hpaste hagrees) rfl)

end StdinBuffer

/-- Every two cuttings of a stream into non-empty chunks end in the same state, the delivered events
included, exactly when the stream is separable. -/
theorem splits_agree_iff (stream : Bytes) :
    (∀ first second : List Bytes, [] ∉ first → [] ∉ second → first.flatten = stream → second.flatten = stream →
      first.foldl StdinBuffer.process {} = second.foldl StdinBuffer.process {}) ↔ Separable false stream := by
  constructor
  · intro hcuttings
    refine StdinBuffer.Idle.separable (s := {}) ⟨rfl, rfl, by intro text htext; cases htext⟩ ?_
    rintro a b ha hb rfl
    have hwhole := hcuttings [a ++ b] [a, b] (by simp [ha]) (by simp [Ne.symm ha, Ne.symm hb])
      (by simp) (by simp)
    exact hwhole
  intro hseparable
  -- Every cutting ends like the one chunk.
  have hone : ∀ chunks : List Bytes, [] ∉ chunks → chunks.flatten = stream → stream ≠ [] →
      chunks.foldl StdinBuffer.process {} = StdinBuffer.process {} stream := by
    rintro chunks hnonempty rfl hstream
    refine StdinBuffer.foldl_process_eq hnonempty ?_ hseparable
    rintro rfl
    exact hstream rfl
  intro first second hfirst hsecond hflatten hflatten'
  by_cases hempty : stream = []
  · have hnil : ∀ chunks : List Bytes, [] ∉ chunks → chunks.flatten = [] → chunks = [] := by
      intro chunks hnonempty hflat
      cases chunks with
      | nil => rfl
      | cons chunk rest =>
        have hchunk : chunk = [] := (List.append_eq_nil_iff.1 hflat).1
        exact absurd (hchunk ▸ mem_cons_self) hnonempty
    rw [hnil first hfirst (hflatten.trans hempty), hnil second hsecond (hflatten'.trans hempty)]
  · rw [hone first hfirst hflatten hempty, hone second hsecond hflatten' hempty]

/-- Two escapes and the tail of an arrow key: read at once they are an escape and the arrow key, read in
two parts they are a pair of escapes and two characters. -/
theorem escape_pair_splits : ¬ ∀ first second : List Bytes, [] ∉ first → [] ∉ second →
      first.flatten = [esc, esc, 0x5B, 0x41] → second.flatten = [esc, esc, 0x5B, 0x41] →
      (first.foldl StdinBuffer.process {}).events = (second.foldl StdinBuffer.process {}).events := by
  intro hagree
  have hwhole : StdinBuffer.process {} [esc, esc, 0x5B, 0x41] =
      { events := [.data [esc], .data [esc, 0x5B, 0x41]] } :=
    StdinBuffer.process_done (by decide +kernel)
  have hpair : StdinBuffer.process {} [esc, esc] = { events := [.data [esc, esc]] } :=
    StdinBuffer.process_done (by decide +kernel)
  have htail : StdinBuffer.process { events := [.data [esc, esc]] } [0x5B, 0x41] =
      { events := [.data [esc, esc], .data [0x5B], .data [0x41]] } :=
    StdinBuffer.process_done (by decide +kernel)
  have hevents := hagree [[esc, esc, 0x5B, 0x41]] [[esc, esc], [0x5B, 0x41]] (by simp) (by simp) rfl rfl
  simp only [List.foldl_cons, List.foldl_nil, hwhole, hpair, htail] at hevents
  revert hevents
  decide

end CodingHarness.Tui
