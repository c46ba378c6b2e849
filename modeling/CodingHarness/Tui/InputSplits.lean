import CodingHarness.Tui.InputBytes

/-!
# Reads that cut the input differently

The terminal's bytes arrive in chunks of any size. `Separable` says which streams `StdinBuffer` treats alike
however they are cut: no escape stands alone in front of another sequence, and the first bytes of a paste
marker finish no sequence that was open before it. In such a stream every chunk may be cut once more
(`process_append`), so every cutting ends in the state of the one chunk. A stream that is not separable has
two cuttings that deliver different events (`splits_agree_iff`); the shortest is two escapes and an arrow
key's tail (`escape_pair_splits`).
-/

namespace CodingHarness.Tui

open Library Support
open List (append_assoc)

/-! ## Extraction in two parts -/

variable {text : Bytes}

theorem sequences_of_none (h : nextPiece text = none) : sequences text = [] ∧ remainder text = text := by
  have hscan : extractPieces text = ([], text) := scanAll_none h
  exact ⟨by rw [sequences, hscan]; rfl, by rw [remainder, hscan]⟩

theorem sequences_of_some {kind : PieceKind} {n : Nat} (h : nextPiece text = some (kind, n)) :
    sequences text = (if kind = .sequence then [text.take n] else []) ++ sequences (text.drop n) ∧
      remainder text = remainder (text.drop n) := by
  have hscan : extractPieces text = _ := scanAll_some nextPiece_advances h
  refine ⟨?_, by rw [remainder, hscan]; rfl⟩
  rw [sequences, hscan]
  cases kind <;> rfl

theorem nextPiece_remainder (text : Bytes) : nextPiece (remainder text) = none :=
  step_remainder nextPiece_advances text

variable {a b : Bytes}

/-- A text that starts with an unfinished piece has no piece when it is cut shorter. -/
theorem nextPiece_left_none (h : nextPiece (a ++ b) = none) : nextPiece a = none := by
  cases hpiece : nextPiece a with
  | none => rfl
  | some found =>
    rcases nextPiece_append b hpiece with hsame | ⟨-, hsplit⟩
    · rw [h] at hsame
      cases hsame
    · rw [h] at hsplit
      cases hsplit

theorem extractPieces_append (h : [esc] ∉ sequences (a ++ b)) :
    extractPieces (a ++ b) = ((extractPieces a).1 ++ (extractPieces (remainder a ++ b)).1,
        remainder (remainder a ++ b)) := by
  refine scanAll_append nextPiece_advances (fun piece => piece = (.sequence, [esc])) ?_ ?_
  · intro x kind n hpiece
    rcases nextPiece_append b hpiece with hsame | ⟨rfl, hsplit⟩
    · exact .inl hsame
    · exact .inr ⟨_, _, hsplit, rfl⟩
  · rintro piece hmem rfl
    exact h (List.mem_filterMap.2 ⟨_, hmem, rfl⟩)

theorem sequences_append (h : [esc] ∉ sequences (a ++ b)) :
    sequences (a ++ b) = sequences a ++ sequences (remainder a ++ b) := by
  rw [sequences, extractPieces_append h, List.filterMap_append]
  rfl

theorem remainder_append (h : [esc] ∉ sequences (a ++ b)) : remainder (a ++ b) = remainder (remainder a ++ b) := by
  rw [remainder, extractPieces_append h]

theorem scanEscape_cancelled_end {reply : Bool} {fuel stop n : Nat} (hstop : 1 ≤ stop)
    (h : scanEscape reply text fuel stop = some (.cancelled, n)) :
    1 ≤ n ∧ (text[n - 1]? = some 0x18 ∨ text[n - 1]? = some 0x1A ∨ text[n]? = some esc) := by
  induction fuel generalizing stop with
  | zero => cases h
  | succ fuel ih =>
    rw [scanEscape] at h
    split at h
    · next hcancel =>
      obtain ⟨-, rfl⟩ := Prod.mk.inj (Option.some.inj h)
      exact ⟨hstop, hcancel.2.2.imp_right .inl⟩
    split at h
    · next habort =>
      obtain ⟨-, rfl⟩ := Prod.mk.inj (Option.some.inj h)
      obtain ⟨-, hlong, hescape, -, -⟩ := habort
      exact ⟨by omega, .inr (.inr hescape)⟩
    split at h
    · split at h <;> cases (Prod.mk.inj (Option.some.inj h)).1
    · exact ih (by omega) h
    · cases (Prod.mk.inj (Option.some.inj h)).1

theorem nextPiece_cancelled_end {n : Nat} (h : nextPiece text = some (.cancelled, n)) :
    1 ≤ n ∧ (text[n - 1]? = some 0x18 ∨ text[n - 1]? = some 0x1A ∨ text[n]? = some esc) := by
  cases text with
  | nil => cases h
  | cons first rest =>
    rw [nextPiece] at h
    split at h
    · exact scanEscape_cancelled_end le_rfl h
    split at h
    · cases h
    · cases (Prod.mk.inj (Option.some.inj h)).1

/-- A start of the paste marker, and not all of it. -/
def IsMarkerStart (start : Bytes) : Prop := start <+: pasteStart.dropLast

/-- Apart from its first byte, the start of a marker has no byte that ends a reply. -/
theorem IsMarkerStart.getElem {start : Bytes} (h : IsMarkerStart start) (i : Nat) :
    start[i]? ≠ some 0x18 ∧ start[i]? ≠ some 0x1A ∧ (0 < i → start[i]? ≠ some esc) := by
  have hmark : ∀ j : Nat, pasteStart.dropLast[j]? ≠ some (0x18 : UInt8) ∧
      pasteStart.dropLast[j]? ≠ some (0x1A : UInt8) ∧ (0 < j → pasteStart.dropLast[j]? ≠ some esc) := by
    intro j
    match j with
    | 0 => decide
    | 1 => decide
    | 2 => decide
    | 3 => decide
    | 4 => decide
    | j + 5 => simp [pasteStart]
  by_cases hinside : i < start.length
  · obtain ⟨later, hlater⟩ := h
    have hsame : pasteStart.dropLast[i]? = start[i]? := by
      rw [← hlater, List.getElem?_append_left hinside]
    rw [← hsame]
    exact hmark i
  · rw [List.getElem?_eq_none (by omega)]
    simp

theorem cancelled_before_marker {text start : Bytes} {n : Nat} (hstart : IsMarkerStart start)
    (h : nextPiece (text ++ start) = some (.cancelled, n)) : n ≤ text.length := by
  obtain ⟨hpos, hend⟩ := nextPiece_cancelled_end h
  by_contra hlate
  rw [List.getElem?_append_right (by omega), List.getElem?_append_right (by omega)] at hend
  obtain ⟨hcan, hsub, -⟩ := hstart.getElem (n - 1 - text.length)
  rcases hend with hend | hend | hend
  · exact hcan hend
  · exact hsub hend
  · exact (hstart.getElem (n - text.length)).2.2 (by omega) hend

/-- When the start of a marker finishes no sequence, it stays in the remainder as a whole. -/
theorem marker_kept {text start : Bytes} (hstart : IsMarkerStart start)
    (h : sequences (text ++ start) = []) : start <:+ remainder (text ++ start) := by
  induction hlen : text.length using Nat.strong_induction_on generalizing text with
  | _ length ih =>
    cases hpiece : nextPiece (text ++ start) with
    | none =>
      rw [(sequences_of_none hpiece).2]
      exact List.suffix_append text start
    | some found =>
      obtain ⟨kind, n⟩ := found
      obtain ⟨hseqs, hremainder⟩ := sequences_of_some hpiece
      rw [h] at hseqs
      cases kind with
      | sequence => cases hseqs
      | cancelled =>
        obtain ⟨hpos, -⟩ := nextPiece_cancelled_end hpiece
        have hprev := cancelled_before_marker hstart hpiece
        have hdrop : (text ++ start).drop n = text.drop n ++ start := List.drop_append_of_le_length hprev
        rw [hdrop] at hseqs hremainder
        rw [hremainder]
        exact ih (text.drop n).length (by rw [List.length_drop]; omega) hseqs.symm rfl

/-! ## Separable streams -/

/-- What may stand before a paste marker: the marker's first bytes finish no sequence of it. -/
structure BeforePaste (before : Bytes) : Prop where
  noLoneEscape : [esc] ∉ sequences before
  markerIntact : sequences (before ++ pasteStart.dropLast) = sequences before

/-- The streams that may be cut anywhere. -/
abbrev Separable : Bool → Bytes → Prop := Segmented BeforePaste fun text => [esc] ∉ sequences text

theorem BeforePaste.right (h : BeforePaste (a ++ b)) : BeforePaste (remainder a ++ b) := by
  have hfirst := sequences_append h.noLoneEscape
  have hsnd := sequences_append (a := a) (b := b ++ pasteStart.dropLast)
    (by rw [← append_assoc, h.markerIntact]; exact h.noLoneEscape)
  refine ⟨fun hmem => h.noLoneEscape ?_, ?_⟩
  · rw [hfirst]
    exact List.mem_append_right _ hmem
  rw [← append_assoc, h.markerIntact, hfirst] at hsnd
  rw [append_assoc]
  exact (List.append_cancel_left hsnd).symm

/-- When a chunk ends inside a marker, the sequences before it are out and the marker's bytes wait behind
an unfinished piece, which stays unfinished. -/
theorem BeforePaste.cross {before start later : Bytes} (h : BeforePaste before)
    (hmark : pasteStart.dropLast = start ++ later) : sequences (before ++ start) = sequences before ∧
      ∃ open_, remainder (before ++ start) = open_ ++ start ∧ nextPiece open_ = none ∧ BeforePaste open_ := by
  have hwhole := h.markerIntact
  rw [hmark, ← append_assoc] at hwhole
  have hnoLone : [esc] ∉ sequences (before ++ start ++ later) := hwhole ▸ h.noLoneEscape
  have hlater := sequences_append hnoLone
  have hnoLone' : [esc] ∉ sequences (before ++ start) := fun hmem =>
    hnoLone (hlater ▸ List.mem_append_left _ hmem)
  have hstart := sequences_append hnoLone'
  -- The sequences of the three texts contain one another, so nothing was added.
  rw [hwhole, hstart, append_assoc] at hlater
  have hadded := List.append_eq_nil_iff.1 (List.self_eq_append_right.1 hlater)
  have hkept : start <:+ remainder (remainder before ++ start) := marker_kept ⟨later, hmark.symm⟩ hadded.1
  rw [← remainder_append hnoLone'] at hkept
  obtain ⟨open_, hopen⟩ := hkept
  have hnone : nextPiece open_ = none := by
    refine nextPiece_left_none (b := start) ?_
    rw [hopen]
    exact nextPiece_remainder _
  refine ⟨by rw [hstart, hadded.1, List.append_nil], open_, hopen.symm, hnone, ?_, ?_⟩
  · rw [(sequences_of_none hnone).1]
    exact List.not_mem_nil
  · rw [(sequences_of_none hnone).1, hmark, ← append_assoc, hopen]
    exact hadded.2

/-! ## Cutting one chunk -/

namespace StdinBuffer

/-- The rest of `process` after `processOnce`. -/
def resume (next : StdinBuffer × Option Bytes) : StdinBuffer := match next with
  | (s, none) => s
  | (s, some rest) => s.process rest

theorem process_eq_resume (s : StdinBuffer) (input : Bytes) : s.process input = resume (s.processOnce input) := by
  cases honce : s.processOnce input with
  | mk next leftover =>
    cases leftover with
    | none => exact process_done honce
    | some rest => exact process_more honce

variable {s : StdinBuffer}

theorem processOnce_paste {input : Bytes} (hinput : input ≠ []) (hmode : s.pasteMode = true):
    s.processOnce input = s.finishPaste (s.pasteBuffer ++ (s.buffer ++ input)) := by
  rw [processOnce, if_neg (fun h => hinput h.1), if_pos hmode]

theorem processOnce_marker {input before after : Bytes} (hinput : input ≠ [])
    (hmode : s.pasteMode = false) (hcut : cutAt pasteStart (s.buffer ++ input) = some (before, after)) :
    s.processOnce input =
      { s.emitAll (sequences before) with pendingKittyPrintableText := none }.finishPaste after := by
  rw [processOnce, if_neg (fun h => hinput h.1), if_neg (by rw [hmode]; decide), hcut]

theorem process_plain {input : Bytes} (hinput : input ≠ [])
    (hmode : s.pasteMode = false) (hcut : cutAt pasteStart (s.buffer ++ input) = none) : s.process input =
      { s.emitAll (sequences (s.buffer ++ input)) with buffer := remainder (s.buffer ++ input) } := by
  refine process_done ?_
  rw [processOnce, if_neg (fun h => hinput h.1), if_neg (by rw [hmode]; decide), hcut]

theorem emitAll_buffer (s : StdinBuffer) (buffer : Bytes) (emitted : List Bytes) :
    { s with buffer := buffer }.emitAll emitted = { s.emitAll emitted with buffer := buffer } := by
  induction emitted generalizing s with
  | nil => rfl
  | cons sequence rest ih =>
    have hstep : { s with buffer := buffer }.emit sequence = { s.emit sequence with buffer := buffer } := by
      unfold emit
      split <;> rfl
    have hrest := ih (s.emit sequence)
    rw [← hstep] at hrest
    exact hrest

theorem emitAll_append (s : StdinBuffer) (buffer : Bytes) (first second : List Bytes) :
    { s.emitAll first with buffer := buffer }.emitAll second =
      { s.emitAll (first ++ second) with buffer := buffer } := by
  have hfold : s.emitAll (first ++ second) = (s.emitAll first).emitAll second := List.foldl_append
  rw [emitAll_buffer, hfold]

/-- The fields of the buffers do not matter to the end of a paste: it overwrites them. -/
theorem finishPaste_overwrites (s : StdinBuffer) (mode : Bool) (buffer pasteBuffer content : Bytes) :
    { s with buffer := buffer, pasteMode := mode, pasteBuffer := pasteBuffer }.finishPaste content =
      s.finishPaste content := by
  cases cutAt pasteEnd content <;> rfl

def Ready (s : StdinBuffer) (input : Bytes) : Prop := Separable s.pasteMode (s.text input)

/-- A call with the first part and one with the second do what one call does, and the second part may be
cut once more. -/
def Splits (s : StdinBuffer) (a b : Bytes) : Prop :=
  s.process (a ++ b) = (s.process a).process b ∧ (s.process a).Ready b

theorem finishPaste_splits {content b : Bytes} (hb : b ≠ []) (h : Separable true (content ++ b))
    (hidle : ∀ (t : StdinBuffer) (rest : Bytes), rest ≠ [] → rest.length < content.length →
      t.pasteMode = false → t.buffer = [] → Separable false (rest ++ b) → t.Splits rest b) :
    resume (s.finishPaste (content ++ b)) = (resume (s.finishPaste content)).process b ∧
      (resume (s.finishPaste content)).Ready b := by
  cases hcut : cutAt pasteEnd content with
  | none =>
    -- The paste stays open and the next chunk continues it.
    have hopen : s.finishPaste content =
        ({ s with buffer := [], pasteMode := true, pasteBuffer := content }, none) := by
      rw [finishPaste, hcut]
    rw [hopen]
    refine ⟨?_, h⟩
    rw [resume, process_eq_resume, processOnce_paste hb rfl, finishPaste_overwrites]
    rfl
  | some parts =>
    obtain ⟨pasted, remaining⟩ := parts
    have hlen := congrArg List.length (cutAt_eq hcut)
    simp only [List.length_append, pasteEnd, List.length_cons, List.length_nil] at hlen
    have hrest : Separable false (remaining ++ b) := by
      cases h with
      | opened hnone =>
        rw [cutAt_append hcut] at hnone
        cases hnone
      | closed hsome hrem =>
        rw [cutAt_append hcut] at hsome
        obtain ⟨-, rfl⟩ := Prod.mk.inj (Option.some.inj hsome)
        exact hrem
    have hlong : remaining ++ b ≠ [] := fun hnil => hb (List.append_eq_nil_iff.1 hnil).2
    simp only [finishPaste, cutAt_append (b := b) hcut, hcut, if_neg hlong, resume]
    by_cases hempty : remaining = []
    · subst hempty
      exact ⟨rfl, hrest⟩
    · simp only [if_neg hempty]
      exact hidle _ remaining hempty (by omega) rfl rfl hrest

/-- The second call finds the marker and has the rest of what stands before it still to emit. -/
theorem splits_of_second {a b before rest after : Bytes} (ha : a ≠ []) (hb : b ≠ [])
    (hmode : s.pasteMode = false) (hfirst : cutAt pasteStart (s.buffer ++ a) = none)
    (hwhole : cutAt pasteStart (s.buffer ++ a ++ b) = some (before, after))
    (hsnd : cutAt pasteStart (remainder (s.buffer ++ a) ++ b) = some (rest, after))
    (hseqs : sequences before = sequences (s.buffer ++ a) ++ sequences rest)
    (hrest : BeforePaste rest) (hafter : Separable true after) : s.Splits a b := by
  have hab : a ++ b ≠ [] := fun hnil => ha (List.append_eq_nil_iff.1 hnil).1
  have hprocess := process_plain ha hmode hfirst
  have hmode' : (s.process a).pasteMode = false := by rw [hprocess]; simpa using hmode
  have hbuffer : (s.process a).buffer = remainder (s.buffer ++ a) := by rw [hprocess]
  refine ⟨?_, ?_⟩
  · rw [process_eq_resume s, processOnce_marker hab hmode (by rw [← append_assoc]; exact hwhole),
      process_eq_resume, processOnce_marker hb hmode' (by rw [hbuffer]; exact hsnd), hprocess,
      emitAll_append s (remainder (s.buffer ++ a)), ← hseqs]
    exact congrArg resume (finishPaste_overwrites _ _ _ _ after).symm
  · rw [Ready, hmode', text, if_neg (by rw [hmode']; decide), hbuffer]
    exact .start hsnd hrest hafter

theorem splits_plain {a b : Bytes} (ha : a ≠ []) (hb : b ≠ [])
    (hmode : s.pasteMode = false) (hcut : cutAt pasteStart (s.buffer ++ a ++ b) = none)
    (hend : [esc] ∉ sequences (s.buffer ++ a ++ b)) : s.Splits a b := by
  have hab : a ++ b ≠ [] := fun hnil => ha (List.append_eq_nil_iff.1 hnil).1
  have hprocess := process_plain ha hmode (cutAt_left_none hcut)
  have hmode' : (s.process a).pasteMode = false := by rw [hprocess]; simpa using hmode
  have hbuffer : (s.process a).buffer = remainder (s.buffer ++ a) := by rw [hprocess]
  have hrest : cutAt pasteStart (remainder (s.buffer ++ a) ++ b) = none := by
    obtain ⟨taken, htaken⟩ := remainder_suffix nextPiece_advances (s.buffer ++ a)
    rw [← htaken, append_assoc] at hcut
    exact cutAt_right_none hcut
  refine ⟨?_, ?_⟩
  · rw [process_plain hab hmode (by rw [← append_assoc]; exact hcut),
      process_plain hb hmode' (by rw [hbuffer]; exact hrest), hbuffer, hprocess,
      emitAll_append s (remainder (s.buffer ++ a)), ← sequences_append hend, ← remainder_append hend,
      append_assoc]
  rw [Ready, hmode', text, if_neg (by rw [hmode']; decide), hbuffer]
  refine .rest hrest fun hmem => hend ?_
  rw [sequences_append hend]
  exact List.mem_append_right _ hmem

theorem splits_before {a b before after : Bytes} (ha : a ≠ []) (hb : b ≠ [])
    (hmode : s.pasteMode = false) (hfirst : cutAt pasteStart (s.buffer ++ a) = none)
    (hcut : cutAt pasteStart (s.buffer ++ a ++ b) = some (before, after))
    (hprev : BeforePaste before) (hafter : Separable true after) : s.Splits a b := by
  have hwhole := cutAt_eq hcut
  have hcross := cutAt_cross (by decide) hfirst hcut
  have hbeforePrefix : before <+: s.buffer ++ a ++ b := ⟨pasteStart ++ after, by rw [hwhole, append_assoc]⟩
  obtain ⟨taken, htaken⟩ := remainder_suffix nextPiece_advances (s.buffer ++ a)
  have hskip : ∀ rest, taken ++ rest = before →
      cutAt pasteStart (remainder (s.buffer ++ a) ++ b) = some (rest, after) := by
    intro rest hrest
    have hcut' : cutAt pasteStart (taken ++ (remainder (s.buffer ++ a) ++ b)) = some (taken ++ rest, after) := by
      rw [hrest, ← append_assoc]
      exact htaken.symm ▸ hcut
    exact cutAt_right hcut'
  by_cases hinside : (s.buffer ++ a).length ≤ before.length
  · -- The marker lies in the second part.
    obtain ⟨later, rfl⟩ : s.buffer ++ a <+: before :=
      List.prefix_of_prefix_length_le (List.prefix_append _ b) hbeforePrefix hinside
    refine splits_of_second ha hb hmode hfirst hcut (hskip (remainder (s.buffer ++ a) ++ later) ?_)
      (sequences_append hprev.noLoneEscape) hprev.right hafter
    rw [← append_assoc]
    exact congrArg (· ++ later) htaken
  -- The first part ends inside the marker.
  obtain ⟨start, hstart⟩ : before <+: s.buffer ++ a :=
    List.prefix_of_prefix_length_le hbeforePrefix (List.prefix_append _ b) (by omega)
  rw [← hstart, List.length_append] at hcross
  obtain ⟨last, hlast⟩ : start <+: pasteStart := by
    rw [← hstart, append_assoc, append_assoc] at hwhole
    exact List.prefix_of_prefix_length_le ⟨b, List.append_cancel_left hwhole⟩ (List.prefix_append _ after) (by omega)
  have hlast' : last ≠ [] := by
    rintro rfl
    rw [← hlast, List.append_nil] at hcross
    omega
  have hmark : pasteStart.dropLast = start ++ last.dropLast := by
    rw [← hlast, List.dropLast_append_of_ne_nil hlast']
  obtain ⟨hsame, rest, hrest, hnone, hrestBefore⟩ := hprev.cross hmark
  rw [hstart] at hsame hrest
  have hskipped : taken ++ rest = before := by
    have hparts : taken ++ (rest ++ start) = s.buffer ++ a := hrest ▸ htaken
    rw [← hstart, ← append_assoc] at hparts
    exact List.append_cancel_right hparts
  refine splits_of_second ha hb hmode hfirst hcut (hskip rest hskipped) ?_ hrestBefore hafter
  rw [hsame, (sequences_of_none hnone).1, List.append_nil]

theorem splits_idle {a b : Bytes} (ha : a ≠ []) (hb : b ≠ [])
    (hmode : s.pasteMode = false) (h : Separable false (s.buffer ++ a ++ b)) : s.Splits a b := by
  -- Induction on the length of the first part, which gets shorter with every paste it contains.
  induction hlen : (s.buffer ++ a).length using Nat.strong_induction_on generalizing s a with
  | _ length ih =>
    have hab : a ++ b ≠ [] := fun hnil => ha (List.append_eq_nil_iff.1 hnil).1
    cases hcut : cutAt pasteStart (s.buffer ++ a) with
    | some parts =>
      obtain ⟨before, after⟩ := parts
      have hlonger := cutAt_append (b := b) hcut
      have hafter : Separable true (after ++ b) := by
        cases h with
        | rest hnone _ =>
          rw [hlonger] at hnone
          cases hnone
        | start hsome _ hafter =>
          rw [hlonger] at hsome
          obtain ⟨-, rfl⟩ := Prod.mk.inj (Option.some.inj hsome)
          exact hafter
      have hlen' := congrArg List.length (cutAt_eq hcut)
      simp only [List.length_append] at hlen hlen'
      rw [append_assoc] at hlonger
      rw [Splits, process_eq_resume s, processOnce_marker hab hmode hlonger, process_eq_resume s,
        processOnce_marker ha hmode hcut]
      refine finishPaste_splits hb hafter ?_
      intro t rest hrest hshorter htmode htbuffer hseparable
      refine ih rest.length (by omega) hrest htmode ?_ (by rw [htbuffer]; rfl)
      rw [htbuffer]
      exact hseparable
    | none =>
      cases h with
      | rest hnone hend => exact splits_plain ha hb hmode hnone hend
      | start hsome hprev hafter => exact splits_before ha hb hmode hcut hsome hprev hafter

theorem process_append {a b : Bytes} (ha : a ≠ []) (hb : b ≠ []) (h : s.Ready (a ++ b)) : s.Splits a b := by
  unfold Ready text at h
  by_cases hmode : s.pasteMode = true
  · rw [if_pos hmode, hmode, ← append_assoc, ← append_assoc] at h
    have hab : a ++ b ≠ [] := fun hnil => ha (List.append_eq_nil_iff.1 hnil).1
    rw [Splits, process_eq_resume s, processOnce_paste hab hmode, process_eq_resume s,
      processOnce_paste ha hmode, ← append_assoc s.buffer, ← append_assoc,
      ← append_assoc]
    refine finishPaste_splits hb h ?_
    intro t rest hrest _ htmode htbuffer hseparable
    refine splits_idle hrest hb htmode ?_
    rw [htbuffer]
    exact hseparable
  · rw [if_neg hmode, ← append_assoc, Bool.eq_false_of_not_eq_true hmode] at h
    exact splits_idle ha hb (Bool.eq_false_of_not_eq_true hmode) h

theorem foldl_process_eq {chunks : List Bytes} (hnonempty : [] ∉ chunks)
    (hsome : chunks ≠ []) (h : s.Ready chunks.flatten) : chunks.foldl process s = s.process chunks.flatten := by
  induction chunks generalizing s with
  | nil => exact absurd rfl hsome
  | cons chunk chunks ih =>
    by_cases hlast : chunks = []
    · simp [hlast]
    obtain ⟨hchunk, hlater⟩ := not_or.1 (List.mem_cons.not.1 hnonempty)
    have hflatten : chunks.flatten ≠ [] := by
      intro hnil
      obtain ⟨first, rest, rfl⟩ := List.exists_cons_of_ne_nil hlast
      have hfirst : first = [] := (List.append_eq_nil_iff.1 hnil).1
      exact hlater (hfirst ▸ List.mem_cons_self)
    obtain ⟨hsplit, hready⟩ := process_append (Ne.symm hchunk) hflatten h
    rw [List.foldl_cons, ih hlater hlast hready, List.flatten_cons, hsplit]

end StdinBuffer

end CodingHarness.Tui
