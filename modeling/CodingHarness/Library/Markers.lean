import CodingHarness.Library.Tokens

/-!
# Finding a marker in a stream

A reader that receives symbols one at a time and waits for a marker keeps the longest end of what it has read
that still starts the marker, and gives up the rest. `align` drops symbols until such an end is left. `Searching`
is the invariant of the reader: nothing it has read shows the marker, and no longer end of it starts one.
`Searching.step` is one symbol, and `Searching.found` says that the reader stops at the first occurrence.
-/

namespace CodingHarness.Library

open List (append_assoc append_nil)

universe u

variable {α : Type u} [DecidableEq α]

/-- Drop symbols from the front until the rest starts the marker: what is dropped, and what is kept. -/
def align (marker : List α) : List α → List α × List α
  | [] => ([], [])
  | symbol :: rest =>
    if symbol :: rest <+: marker then ([], symbol :: rest)
    else (symbol :: (align marker rest).1, (align marker rest).2)

section Align

variable {marker : List α}

theorem align_append (marker text : List α) : (align marker text).1 ++ (align marker text).2 = text := by
  induction text with
  | nil => rfl
  | cons symbol rest ih =>
    unfold align
    split
    · rfl
    · simp [ih]

theorem align_initial (text : List α) : (align marker text).2 <+: marker := by
  induction text with
  | nil => exact List.nil_prefix
  | cons symbol rest ih =>
    unfold align
    split
    · assumption
    · exact ih

/-- What is kept is the longest end that starts the marker. -/
theorem align_longest {text ending : List α} (hending : ending <:+ text) (hstarts : ending <+: marker) :
    ending.length ≤ (align marker text).2.length := by
  induction text with
  | nil => simp [List.suffix_nil.1 hending]
  | cons symbol rest ih =>
    unfold align
    split
    · exact hending.length_le
    next hwhole =>
    rcases List.suffix_cons_iff.1 hending with rfl | hrest
    · exact absurd hstarts hwhole
    · exact ih hrest

end Align

/-- The state of the search: `text` has been given up, and `candidate` may be the start of the marker. -/
structure Searching (marker text candidate : List α) : Prop where
  starts : candidate <+: marker
  short : candidate ≠ marker
  absent : ¬ marker <:+: text ++ candidate
  longest : ∀ ending, ending <:+ text ++ candidate → ending <+: marker → ending.length ≤ candidate.length

namespace Searching

variable {marker text candidate : List α}

omit [DecidableEq α] in
theorem nil (hmark : marker ≠ []) : Searching marker [] [] where
  starts := List.nil_prefix
  short := fun h => hmark h.symm
  absent := fun h => hmark (List.infix_nil.1 h)
  longest := by
    intro ending hending _
    simp [List.suffix_nil.1 hending]

/-- An end of the text that starts the marker is still kept when one more symbol has arrived. -/
theorem longest_next (h : Searching marker text candidate) (symbol : α) {ending : List α}
    (hending : ending <:+ text ++ candidate ++ [symbol]) (hstarts : ending <+: marker) :
    ending.length ≤ (align marker (candidate ++ [symbol])).2.length := by
  rcases List.eq_nil_or_concat ending with rfl | ⟨earlier, last, rfl⟩
  · exact Nat.zero_le _
  rw [List.concat_eq_append] at hending hstarts ⊢
  obtain ⟨hearlier, rfl⟩ : earlier <:+ text ++ candidate ∧ last = symbol := by
    obtain ⟨before, hprev⟩ := hending
    rw [← append_assoc] at hprev
    obtain ⟨heq, hlast⟩ := List.append_inj' hprev rfl
    exact ⟨⟨before, heq⟩, (List.cons.inj hlast).1⟩
  have hshort : earlier.length ≤ candidate.length :=
    h.longest earlier hearlier ((List.prefix_append earlier [last]).trans hstarts)
  -- Both are ends of what was read, so the shorter one is an end of the candidate.
  have hcand : earlier <:+ candidate :=
    List.suffix_of_suffix_length_le hearlier (List.suffix_append text candidate) hshort
  obtain ⟨before, hprev⟩ := hcand
  refine align_longest ⟨before, ?_⟩ hstarts
  rw [← hprev, append_assoc]

omit [DecidableEq α] in
/-- A marker that one more symbol completes is an end of what was read. -/
theorem suffix_of_infix (h : Searching marker text candidate) (symbol : α) {before after : List α}
    (hmark : before ++ marker ++ after = text ++ candidate ++ [symbol]) : after = [] := by
  rcases List.eq_nil_or_concat after with rfl | ⟨earlier, last, rfl⟩
  · rfl
  · rw [List.concat_eq_append, ← append_assoc] at hmark
    exact absurd ⟨before, earlier, (List.append_inj' hmark rfl).1⟩ h.absent

/-- **One symbol** that does not complete the marker. -/
theorem step (h : Searching marker text candidate) (symbol : α)
    (hkept : (align marker (candidate ++ [symbol])).2 ≠ marker) :
    Searching marker (text ++ (align marker (candidate ++ [symbol])).1) (align marker (candidate ++ [symbol])).2 := by
  have hread : text ++ (align marker (candidate ++ [symbol])).1 ++ (align marker (candidate ++ [symbol])).2 =
      text ++ candidate ++ [symbol] := by
    rw [append_assoc, align_append, append_assoc]
  refine ⟨align_initial _, hkept, ?_, ?_⟩
  · rintro ⟨before, after, hmark⟩
    rw [hread] at hmark
    obtain rfl := h.suffix_of_infix symbol hmark
    rw [append_nil] at hmark
    have hlong := h.longest_next symbol ⟨before, hmark⟩ List.prefix_rfl
    exact hkept ((align_initial _).eq_of_length_le hlong)
  intro ending hending hstarts
  rw [hread] at hending
  exact h.longest_next symbol hending hstarts

/-- **The first occurrence** is where the search stops. -/
theorem found (hmark : marker ≠ []) (h : Searching marker text candidate) (symbol : α)
    (hkept : (align marker (candidate ++ [symbol])).2 = marker) :
    cutAt marker (text ++ candidate ++ [symbol]) = some (text ++ (align marker (candidate ++ [symbol])).1, []) := by
  have hread : text ++ candidate ++ [symbol] = text ++ (align marker (candidate ++ [symbol])).1 ++ marker := by
    have hall := align_append marker (candidate ++ [symbol])
    rw [hkept] at hall
    rw [append_assoc, append_assoc, hall]
  cases hcut : cutAt marker (text ++ candidate ++ [symbol]) with
  | none =>
    rw [hread] at hcut
    have hshown := cutAt_ne_none hmark (text ++ (align marker (candidate ++ [symbol])).1) []
    rw [append_nil] at hshown
    exact absurd hcut hshown
  | some parts =>
    obtain ⟨before, after⟩ := parts
    have heq := cutAt_eq hcut
    obtain rfl := h.suffix_of_infix symbol heq.symm
    rw [append_nil, hread] at heq
    rw [List.append_cancel_right heq]

end Searching

end CodingHarness.Library
