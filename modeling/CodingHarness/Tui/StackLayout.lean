import Mathlib

/-!
# Stack layout

`StackLayout.cpp`: every entry of a stack starts at its clamped basis or intrinsic size, and what the
stack has more or less than that is handed out, or taken back, in rounds. The arithmetic is that of
`std::size_t`, so a sum of weights can wrap.

A round is described by `Moved`: every entry moves towards its bound by at most its `slack`, and the
entries move by the amount that was spent. `allocateStackSizes_fills` follows from that: while the
totals fit in a `std::size_t`, the sizes fill the space, or every entry that can move is at its bound.
-/

namespace CodingHarness.Tui

open List (sum_cons zipWith_cons_cons)

/-! ## The source -/

/-- A result of `std::size_t` arithmetic. -/
def sizeT (n : Nat) : Nat := n % 2 ^ 64

/-- `StackEntryOptions`: the size that is asked for, its limits and its weights. -/
structure StackEntryOptions where
  basis : Option Nat := none
  grow : Nat := 0
  shrink : Nat := 1
  minSize : Nat := 0
  maxSize : Nat := 9007199254740991

/-- Whether sizes grow or shrink. -/
inductive DistributeMode where
  | grow
  | shrink

/-- A requested size lands inside `[minSize, max(minSize, maxSize)]`. -/
def clampSize (size : Nat) (options : StackEntryOptions) : Nat := if size < options.minSize then options.minSize
  else if max options.minSize options.maxSize < size then max options.minSize options.maxSize else size

def distributeWeight (options : StackEntryOptions) (size : Nat) : DistributeMode → Nat
  | .grow => options.grow
  | .shrink => sizeT (options.shrink * max 1 size)

def isCandidate (options : StackEntryOptions) (size : Nat) : DistributeMode → Bool
  | .grow => 0 < options.grow && size < options.maxSize
  | .shrink => 0 < options.shrink && options.minSize < size

def proposedShare (remaining weight totalWeight : Nat) : Nat :=
  max 1 (sizeT (sizeT (remaining / totalWeight * weight) + sizeT (remaining % totalWeight * weight) / totalWeight))

/-- The weights of the candidates, added to `total`. -/
def totalWeight (mode : DistributeMode) : List StackEntryOptions → List Nat → Nat → Nat
  | options :: entries, size :: sizes, total =>
    totalWeight mode entries sizes
      (if isCandidate options size mode then sizeT (total + distributeWeight options size mode) else total)
  | _, _, total => total

def capacity (options : StackEntryOptions) (size : Nat) : DistributeMode → Nat
  | .grow => options.maxSize - size
  | .shrink => size - options.minSize

def resize (size delta : Nat) : DistributeMode → Nat
  | .grow => size + delta
  | .shrink => size - delta

/-- One round: the new sizes, what remains and what was distributed. -/
def round (mode : DistributeMode) (total : Nat) :
    List StackEntryOptions → List Nat → Nat → Nat → List Nat × Nat × Nat
  | options :: entries, size :: sizes, remaining, distributed =>
    if remaining = 0 then (size :: sizes, remaining, distributed)
    else if isCandidate options size mode then
      let proposed := proposedShare remaining (distributeWeight options size mode) total
      let delta := min remaining (min proposed (capacity options size mode))
      let rest := round mode total entries sizes (remaining - delta) (distributed + delta)
      (resize size delta mode :: rest.1, rest.2)
    else
      let rest := round mode total entries sizes remaining distributed
      (size :: rest.1, rest.2)
  | _, sizes, remaining, distributed => (sizes, remaining, distributed)

theorem round_spent (mode : DistributeMode) (total : Nat) (entries : List StackEntryOptions) (sizes : List Nat)
    (remaining distributed : Nat) : (round mode total entries sizes remaining distributed).2.1 +
      (round mode total entries sizes remaining distributed).2.2 = remaining + distributed := by
  fun_induction round mode total entries sizes remaining distributed with
  | case1 => rfl
  | case2 options entries size sizes remaining distributed _ _ proposed delta rest ih =>
    have hdelta : delta ≤ remaining := Nat.min_le_left _ _
    exact ih.trans (by omega)
  | case3 _ _ _ _ _ _ _ _ rest ih => exact ih
  | case4 => rfl

def distribute (mode : DistributeMode) (entries : List StackEntryOptions) (sizes : List Nat) (remaining : Nat) :
    List Nat :=
  if remaining = 0 then sizes
  else
    let total := totalWeight mode entries sizes 0
    if total = 0 then sizes
    else
      let after := round mode total entries sizes remaining 0
      if after.2.2 = 0 then after.1 else distribute mode entries after.1 after.2.1
termination_by remaining
decreasing_by
  have hspent : after.2.1 + after.2.2 = remaining + 0 := round_spent mode total entries sizes remaining 0
  change after.2.1 < remaining
  omega

/-- The clamped basis, or intrinsic size, of every entry. -/
def requestedSizes : List StackEntryOptions → List Nat → List Nat
  | [], _ => []
  | options :: entries, intrinsic =>
    clampSize (options.basis.getD (intrinsic.head?.getD 0)) options :: requestedSizes entries intrinsic.tail

def allocateStackSizes (entries : List StackEntryOptions) (intrinsic : List Nat) (available : Option Nat)
    (gap : Nat) : List Nat :=
  let sizes := requestedSizes entries intrinsic
  match available with
  | none => sizes
  | some available =>
    let gapTotal := if entries.isEmpty then 0 else sizeT ((entries.length - 1) * gap)
    let content := if gapTotal < available then available - gapTotal else 0
    let total := sizes.foldl (fun total size => sizeT (total + size)) 0
    if total < content then distribute .grow entries sizes (content - total)
    else if content < total then distribute .shrink entries sizes (total - content)
    else sizes

/-! ## What a round does -/

/-- The weight that decides whether an entry takes part. -/
def StackEntryOptions.flex (options : StackEntryOptions) : DistributeMode → Nat
  | .grow => options.grow
  | .shrink => options.shrink

/-- How far an entry can still move in a mode. -/
def slack (mode : DistributeMode) (options : StackEntryOptions) (size : Nat) : Nat :=
  if options.flex mode = 0 then 0 else capacity options size mode

/-- `distributeWeight` without the wrap. -/
def exactWeight (options : StackEntryOptions) (size : Nat) : DistributeMode → Nat
  | .grow => options.grow
  | .shrink => options.shrink * max 1 size

/-- The exact weight of an entry that can still move. -/
def weight (mode : DistributeMode) (options : StackEntryOptions) (size : Nat) : Nat :=
  if slack mode options size = 0 then 0 else exactWeight options size mode

def slacks (mode : DistributeMode) (entries : List StackEntryOptions) (sizes : List Nat) : Nat :=
  (List.zipWith (slack mode) entries sizes).sum

def weights (mode : DistributeMode) (entries : List StackEntryOptions) (sizes : List Nat) : Nat :=
  (List.zipWith (weight mode) entries sizes).sum

/-- The entries move by `amount` together, each of them towards its bound. -/
inductive Moved (mode : DistributeMode) : List StackEntryOptions → List Nat → List Nat → Nat → Prop where
  | refl (entries : List StackEntryOptions) (sizes : List Nat) : Moved mode entries sizes sizes 0
  | cons {options : StackEntryOptions} {entries : List StackEntryOptions} {size delta amount : Nat}
      {sizes after : List Nat} (hdelta : delta ≤ slack mode options size)
      (rest : Moved mode entries sizes after amount) :
      Moved mode (options :: entries) (size :: sizes) (resize size delta mode :: after) (delta + amount)

variable {mode : DistributeMode} {options : StackEntryOptions} {entries : List StackEntryOptions}
  {size delta amount : Nat} {sizes after : List Nat}

theorem isCandidate_iff : isCandidate options size mode = true ↔ 0 < slack mode options size := by
  by_cases hflex : options.flex mode = 0
  · cases mode <;> simp_all [isCandidate, slack, StackEntryOptions.flex]
  · cases mode <;>
      simp_all [isCandidate, slack, StackEntryOptions.flex, capacity, Nat.pos_iff_ne_zero]

theorem capacity_eq (h : isCandidate options size mode = true) :
    capacity options size mode = slack mode options size := by
  have hslack := isCandidate_iff.1 h
  unfold slack at hslack ⊢
  split at hslack
  · exact absurd hslack (lt_irrefl 0)
  · rename_i hflex
    rw [if_neg hflex]

theorem slack_resize (hdelta : delta ≤ slack mode options size) :
    slack mode options (resize size delta mode) + delta = slack mode options size := by
  unfold slack at hdelta ⊢
  split at hdelta
  · rename_i hflex
    rw [if_pos hflex, if_pos hflex]
    omega
  rename_i hflex
  rw [if_neg hflex, if_neg hflex]
  cases mode <;> simp only [capacity, resize] at hdelta ⊢ <;> omega

theorem resize_zero : resize size 0 mode = size := by
  cases mode <;> rfl

theorem resize_resize (first second : Nat) :
    resize (resize size first mode) second mode = resize size (first + second) mode := by
  cases mode with
  | grow => exact Nat.add_assoc size first second
  | shrink => exact Nat.sub_sub size first second

namespace Moved

section

variable (h : Moved mode entries sizes after amount)
include h

theorem trans {last : List Nat} {more : Nat}
    (hmore : Moved mode entries after last more) : Moved mode entries sizes last (amount + more) := by
  induction h generalizing last more with
  | refl => rwa [Nat.zero_add]
  | @cons options entries size delta amount sizes after hdelta rest ih =>
    cases hmore with
    | refl => exact .cons hdelta rest
    | @cons _ _ _ next more _ last hnext hrest =>
      have hslack := slack_resize hdelta
      have hsum := @cons mode options entries size (delta + next) _ sizes last (by omega) (ih hrest)
      rw [resize_resize, Nat.add_add_add_comm]
      exact hsum

theorem slacks_eq :
    slacks mode entries after + amount = slacks mode entries sizes := by
  induction h with
  | refl => rfl
  | cons hdelta _ ih =>
    have hslack := slack_resize hdelta
    simp only [slacks, zipWith_cons_cons, sum_cons] at ih ⊢
    omega

theorem weights_le :
    weights mode entries after ≤ weights mode entries sizes := by
  induction h with
  | refl => exact le_refl _
  | @cons options entries size delta amount sizes after hdelta _ ih =>
    have hslack := slack_resize hdelta
    have hweight : weight mode options (resize size delta mode) ≤ weight mode options size := by
      unfold weight
      split
      · exact Nat.zero_le _
      rw [if_neg (by omega)]
      cases mode with
      | grow => exact le_refl _
      | shrink => exact Nat.mul_le_mul_left _ (max_le_max (le_refl 1) (Nat.sub_le size delta))
    simp only [weights, zipWith_cons_cons, sum_cons] at ih ⊢
    exact Nat.add_le_add hweight ih

end

theorem sum_grow (h : Moved .grow entries sizes after amount) : after.sum = sizes.sum + amount := by
  induction h with
  | refl => rfl
  | cons _ _ ih =>
    simp only [sum_cons, resize, ih]
    omega

theorem sum_shrink (h : Moved .shrink entries sizes after amount) : after.sum + amount = sizes.sum := by
  induction h with
  | refl => rfl
  | @cons options _ size delta _ _ _ hdelta _ ih =>
    have hle : slack .shrink options size ≤ size := by
      unfold slack
      split
      · exact Nat.zero_le _
      · exact Nat.sub_le _ _
    simp only [sum_cons, resize]
    omega

theorem fixed (h : Moved mode entries sizes after amount) :
    ((entries.zip after).filter fun slot => slot.1.flex mode = 0) =
      (entries.zip sizes).filter fun slot => slot.1.flex mode = 0 := by
  induction h with
  | refl => rfl
  | @cons options _ size delta _ _ _ hdelta _ ih =>
    simp only [List.zip_cons_cons, List.filter_cons, ih]
    by_cases hflex : options.flex mode = 0
    · rw [slack, if_pos hflex, Nat.le_zero] at hdelta
      rw [hdelta, resize_zero]
    · rw [if_neg (by simpa using hflex), if_neg (by simpa using hflex)]

end Moved

/-- **One round** moves the entries by what it spends, and by something while an entry can move. -/
theorem round_moved (total : Nat) (entries : List StackEntryOptions) (sizes : List Nat)
    (remaining distributed : Nat) :
    ∃ amount, Moved mode entries sizes (round mode total entries sizes remaining distributed).1 amount ∧
      (round mode total entries sizes remaining distributed).2.2 = distributed + amount ∧
      (0 < remaining → 0 < slacks mode entries sizes → 0 < amount) := by
  fun_induction round mode total entries sizes remaining distributed with
  | case1 => exact ⟨0, .refl _ _, rfl, fun hpos => absurd hpos (lt_irrefl 0)⟩
  | case2 options entries size sizes remaining distributed hleft hcand proposed delta rest ih =>
    obtain ⟨amount, hmoved, hspent, -⟩ := ih
    have hcapacity := capacity_eq hcand
    rw [isCandidate_iff] at hcand
    have hproposed : 1 ≤ proposed := Nat.le_max_left _ _
    exact ⟨delta + amount, .cons (by omega) hmoved, hspent.trans (Nat.add_assoc _ _ _), fun _ _ => by omega⟩
  | case3 options entries size sizes remaining distributed hleft hcand rest ih =>
    obtain ⟨amount, hmoved, hspent, hpos⟩ := ih
    rw [isCandidate_iff, Nat.pos_iff_ne_zero, not_not] at hcand
    have hcons : Moved mode (options :: entries) (size :: sizes) _ _ := .cons (Nat.zero_le _) hmoved
    rw [resize_zero, Nat.zero_add] at hcons
    refine ⟨amount, hcons, hspent, fun hrem hslacks => hpos hrem ?_⟩
    rwa [slacks, zipWith_cons_cons, sum_cons, hcand, Nat.zero_add] at hslacks
  | case4 entries sizes remaining distributed hnone =>
    refine ⟨0, .refl _ _, rfl, fun _ hslacks => ?_⟩
    cases entries with
    | nil => exact absurd hslacks (lt_irrefl 0)
    | cons options entries =>
      cases sizes with
      | nil => exact absurd hslacks (lt_irrefl 0)
      | cons size sizes => exact absurd rfl (hnone options entries size sizes rfl)

/-! ## What is handed out -/

theorem sizeT_of_lt {n : Nat} (h : n < 2 ^ 64) : sizeT n = n := Nat.mod_eq_of_lt h

theorem totalWeight_eq (mode : DistributeMode) (entries : List StackEntryOptions) (sizes : List Nat)
    (total : Nat) (hfits : total + weights mode entries sizes < 2 ^ 64) :
    totalWeight mode entries sizes total = total + weights mode entries sizes := by
  fun_induction totalWeight mode entries sizes total with
  | case1 options entries size sizes total ih =>
    simp only [weights, zipWith_cons_cons, sum_cons] at hfits ih ⊢
    have hadded : (if isCandidate options size mode then sizeT (total + distributeWeight options size mode)
        else total) = total + weight mode options size := by
      by_cases hslack : slack mode options size = 0
      · rw [if_neg (by rw [isCandidate_iff]; omega), weight, if_pos hslack, Nat.add_zero]
      rw [weight, if_neg hslack] at hfits
      have hweight : distributeWeight options size mode = exactWeight options size mode := by
        cases mode with
        | grow => rfl
        | shrink => exact sizeT_of_lt (by simp only [exactWeight] at hfits; omega)
      rw [if_pos (isCandidate_iff.2 (Nat.pos_of_ne_zero hslack)), weight, if_neg hslack, hweight]
      exact sizeT_of_lt (by omega)
    rw [hadded] at ih ⊢
    rw [ih (by omega), Nat.add_assoc]
  | case2 entries sizes total hnone =>
    cases entries with
    | nil => rfl
    | cons options entries =>
      cases sizes with
      | nil => rfl
      | cons size sizes => exact absurd rfl (hnone options entries size sizes rfl)

theorem slacks_eq_zero (h : weights mode entries sizes = 0) : slacks mode entries sizes = 0 := by
  induction entries generalizing sizes with
  | nil => rfl
  | cons options entries ih =>
    cases sizes with
    | nil => rfl
    | cons size sizes =>
      simp only [weights, slacks, zipWith_cons_cons, sum_cons, Nat.add_eq_zero_iff] at h ih ⊢
      refine ⟨?_, ih h.2⟩
      by_contra hslack
      have hweight := h.1
      rw [weight, if_neg hslack] at hweight
      have hflex : options.flex mode ≠ 0 := fun hflex => hslack (if_pos hflex)
      cases mode with
      | grow => exact hflex hweight
      | shrink => exact (Nat.mul_ne_zero hflex (by omega)) hweight

/-- **The rounds** hand out the whole amount, or everything that can move. -/
theorem distribute_moved (mode : DistributeMode) (entries : List StackEntryOptions) (sizes : List Nat)
    (remaining : Nat) (hfits : weights mode entries sizes < 2 ^ 64) :
    Moved mode entries sizes (distribute mode entries sizes remaining)
      (min remaining (slacks mode entries sizes)) := by
  fun_induction distribute mode entries sizes remaining with
  | case1 => exact .refl _ _
  | case2 sizes remaining hleft total htotal =>
    have hweights : 0 + weights mode entries sizes = 0 :=
      (totalWeight_eq mode entries sizes 0 (by omega)).symm.trans htotal
    rw [slacks_eq_zero (by omega), Nat.min_zero]
    exact .refl _ _
  | case3 sizes remaining hleft total htotal after hnone =>
    obtain ⟨amount, hmoved, hspent, hpos⟩ := round_moved total entries sizes remaining 0
    obtain rfl : amount = 0 := by rw [Nat.zero_add] at hspent; exact hspent.symm.trans hnone
    have hslacks : slacks mode entries sizes = 0 := by
      by_contra hslacks
      exact lt_irrefl 0 (hpos (Nat.pos_of_ne_zero hleft) (Nat.pos_of_ne_zero hslacks))
    rwa [hslacks, Nat.min_zero]
  | case4 sizes remaining hleft total htotal after hsome ih =>
    obtain ⟨amount, hmoved, hspent, -⟩ := round_moved total entries sizes remaining 0
    have hleft : after.2.1 + after.2.2 = remaining + 0 := round_spent mode total entries sizes remaining 0
    have hslacks : slacks mode entries after.1 + amount = slacks mode entries sizes := hmoved.slacks_eq
    have hrest := hmoved.trans (ih (lt_of_le_of_lt hmoved.weights_le hfits))
    have hamount : after.2.2 = amount := by rw [← Nat.zero_add amount]; exact hspent
    rwa [show amount + min after.2.1 (slacks mode entries after.1) = min remaining (slacks mode entries sizes) by
      omega] at hrest

theorem foldl_sizeT (sizes : List Nat) (total : Nat) (hfits : total + sizes.sum < 2 ^ 64) :
    sizes.foldl (fun total size => sizeT (total + size)) total = total + sizes.sum := by
  induction sizes generalizing total with
  | nil => rfl
  | cons size sizes ih =>
    rw [sum_cons, ← Nat.add_assoc] at hfits
    have hhead : sizeT (total + size) = total + size := sizeT_of_lt (by omega)
    rw [List.foldl_cons, hhead, ih _ hfits, sum_cons, Nat.add_assoc]

theorem clampSize_bounds (size : Nat) (options : StackEntryOptions) :
    options.minSize ≤ clampSize size options ∧ clampSize size options ≤ max options.minSize options.maxSize := by
  unfold clampSize
  split
  · omega
  · split <;> omega

/-- What a stack does with an amount it has more, or less, than its entries asked for. -/
structure Distributed (mode : DistributeMode) (entries : List StackEntryOptions) (requested sizes : List Nat)
    (content amount : Nat) : Prop where
  /-- The sizes fill the space when the entries have the capacity for it. -/
  reached : amount ≤ slacks mode entries requested → sizes.sum = content
  /-- Otherwise no entry can move any more. -/
  bound : slacks mode entries requested < amount → slacks mode entries sizes = 0
  /-- An entry without a weight keeps the size it asked for. -/
  fixed : ((entries.zip sizes).filter fun slot => slot.1.flex mode = 0) =
    (entries.zip requested).filter fun slot => slot.1.flex mode = 0

/-- Every entry has a size, within its bounds. -/
def Within (entries : List StackEntryOptions) (sizes : List Nat) : Prop :=
  List.Forall₂ (fun options size => options.minSize ≤ size ∧ size ≤ max options.minSize options.maxSize)
    entries sizes

theorem within_requestedSizes (entries : List StackEntryOptions) (intrinsic : List Nat) :
    Within entries (requestedSizes entries intrinsic) := by
  induction entries generalizing intrinsic with
  | nil => exact .nil
  | cons options entries ih => exact .cons (clampSize_bounds _ options) (ih _)

theorem Moved.within (h : Moved mode entries sizes after amount) (hwithin : Within entries sizes) :
    Within entries after := by
  induction h with
  | refl => exact hwithin
  | cons hdelta _ ih =>
    obtain _ | ⟨⟨hmin, hmax⟩, hrest⟩ := hwithin
    refine .cons ?_ (ih hrest)
    unfold slack at hdelta
    cases mode <;> simp only [capacity, resize] at hdelta ⊢ <;> split at hdelta <;> omega

theorem Moved.distributed {content : Nat} (h : Moved mode entries sizes after (min amount (slacks mode entries sizes)))
    (hreached : amount ≤ slacks mode entries sizes → after.sum = content) :
    Distributed mode entries sizes after content amount where
  reached := hreached
  bound hlt := by
    have hslacks := h.slacks_eq
    omega
  fixed := h.fixed

theorem allocateStackSizes_some (entries : List StackEntryOptions) (intrinsic : List Nat) (available gap : Nat)
    (hgaps : (entries.length - 1) * gap < 2 ^ 64) (hsizes : (requestedSizes entries intrinsic).sum < 2 ^ 64) :
    allocateStackSizes entries intrinsic (some available) gap = let requested := requestedSizes entries intrinsic
      let content := available - (entries.length - 1) * gap
      if requested.sum < content then distribute .grow entries requested (content - requested.sum)
      else if content < requested.sum then distribute .shrink entries requested (requested.sum - content)
      else requested := by
  have hgap : (if entries.isEmpty then 0 else sizeT ((entries.length - 1) * gap)) = (entries.length - 1) * gap := by
    cases entries with
    | nil => exact (Nat.zero_mul gap).symm
    | cons => exact sizeT_of_lt hgaps
  have hcont : (if (entries.length - 1) * gap < available then available - (entries.length - 1) * gap else 0) =
      available - (entries.length - 1) * gap := by
    split <;> omega
  have htotal := foldl_sizeT (requestedSizes entries intrinsic) 0 (by rwa [Nat.zero_add])
  rw [Nat.zero_add] at htotal
  simp only [allocateStackSizes, hgap, hcont, htotal]

/-- **A stack fills its space** exactly when it can, and every size is within its bounds, while the gaps, the
requested sizes and the weights of the entries that can move fit in a `std::size_t`. -/
theorem allocateStackSizes_fills (entries : List StackEntryOptions) (intrinsic : List Nat) (available : Option Nat)
    (gap : Nat) (hgaps : (entries.length - 1) * gap < 2 ^ 64)
    (hsizes : (requestedSizes entries intrinsic).sum < 2 ^ 64)
    (hweights : ∀ total, available = some total →
      let requested := requestedSizes entries intrinsic
      let content := total - (entries.length - 1) * gap
      (requested.sum < content → weights .grow entries requested < 2 ^ 64) ∧
        (content < requested.sum → weights .shrink entries requested < 2 ^ 64)) :
    let requested := requestedSizes entries intrinsic
    let sizes := allocateStackSizes entries intrinsic available gap
    Within entries sizes ∧ (available = none → sizes = requested) ∧ ∀ total, available = some total →
      let content := total - (entries.length - 1) * gap
      (requested.sum = content → sizes = requested) ∧ (requested.sum < content →
          Distributed .grow entries requested sizes content (content - requested.sum)) ∧
        (content < requested.sum →
          Distributed .shrink entries requested sizes content (requested.sum - content)) := by
  intro requested sizes
  have hwithin : Within entries requested := within_requestedSizes entries intrinsic
  cases available with
  | none => exact ⟨hwithin, fun _ => rfl, fun _ heq => by cases heq⟩
  | some available =>
    have hsizes : sizes = if requested.sum < available - (entries.length - 1) * gap then
        distribute .grow entries requested (available - (entries.length - 1) * gap - requested.sum)
      else if available - (entries.length - 1) * gap < requested.sum then
        distribute .shrink entries requested (requested.sum - (available - (entries.length - 1) * gap))
      else requested := allocateStackSizes_some entries intrinsic available gap hgaps hsizes
    have hgrowing : requested.sum < available - (entries.length - 1) * gap →
        weights .grow entries requested < 2 ^ 64 := (hweights available rfl).1
    have hshrinking : available - (entries.length - 1) * gap < requested.sum →
        weights .shrink entries requested < 2 ^ 64 := (hweights available rfl).2
    clear_value sizes requested
    subst hsizes
    split
    · next hlt =>
      have hgrow := distribute_moved .grow entries requested
        (available - (entries.length - 1) * gap - requested.sum) (hgrowing hlt)
      refine ⟨hgrow.within hwithin, (fun heq => by cases heq), ?_⟩
      rintro _ ⟨⟩
      refine ⟨by omega, fun hlt => hgrow.distributed fun _ => ?_, by omega⟩
      rw [hgrow.sum_grow]
      omega
    split
    · next hlt =>
      have hshrink := distribute_moved .shrink entries requested
        (requested.sum - (available - (entries.length - 1) * gap)) (hshrinking hlt)
      refine ⟨hshrink.within hwithin, (fun heq => by cases heq), ?_⟩
      rintro _ ⟨⟩
      refine ⟨by omega, by omega, fun hlt => hshrink.distributed fun _ => ?_⟩
      have hsum := hshrink.sum_shrink
      omega
    refine ⟨hwithin, fun _ => rfl, ?_⟩
    rintro _ ⟨⟩
    exact ⟨fun _ => rfl, by omega, by omega⟩

/-- A row of two entries, one of which takes what is left. -/
theorem allocateStackSizes_fills_row : let entries : List StackEntryOptions := [{ basis := some 3 }, { grow := 1 }]
    Distributed .grow entries [3, 0] (allocateStackSizes entries [9] (some 10) 1) 9 6 :=
  (allocateStackSizes_fills [{ basis := some 3 }, { grow := 1 }] [9] (some 10) 1 (by decide) (by decide)
    (by rintro _ ⟨⟩; decide)).2.2 10 rfl |>.2.1 (by decide)

/-- Two growing entries whose weights add up to `2 ^ 64`: the round sees no weight, and nothing is handed out. -/
theorem allocateStackSizes_wrapped :
    let entries : List StackEntryOptions := [{ grow := 2 ^ 63 }, { grow := 2 ^ 63 }]
    1 ≤ slacks .grow entries [0, 0] ∧ allocateStackSizes entries [] (some 1) 0 = [0, 0] ∧
      ¬Distributed .grow entries (requestedSizes entries []) (allocateStackSizes entries [] (some 1) 0) 1 1 := by
  have hsizes : allocateStackSizes [{ grow := 2 ^ 63 }, { grow := 2 ^ 63 }] [] (some 1) 0 = [0, 0] := by
    have htotal : totalWeight .grow [{ grow := 2 ^ 63 }, { grow := 2 ^ 63 }] [0, 0] 0 = 0 := by decide
    change distribute .grow _ [0, 0] 1 = [0, 0]
    rw [distribute, if_neg Nat.one_ne_zero]
    exact if_pos htotal
  refine ⟨by decide, hsizes, fun h => ?_⟩
  have hsum := h.reached (by decide)
  rw [hsizes] at hsum
  exact absurd hsum (by decide)

end CodingHarness.Tui
