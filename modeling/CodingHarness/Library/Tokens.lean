import Mathlib.Data.List.Infix
import Mathlib.Data.List.TakeDrop

/-!
# Cutting a text into tokens

A tokenizer takes one token after another off the front of a text. `step` looks at what is left and says
how many symbols the next token has, or that more input is needed. `scanAll` repeats it: the tokens and
the remainder together are the text (`flatten_scanAll`). When a longer text does not change a token that
was already found, a text may be scanned in two parts (`scanAll_append`); the one token that a longer text
may turn into something else is named there.

`cutAt` splits a text at the first occurrence of a marker.
-/

namespace CodingHarness.Library

open List (cons_append length_drop)

universe u v

variable {α : Type u} {κ : Type v}

/-! ## Tokenizers -/

/-- What a step finds has at least one symbol and at most those that are there. -/
def Advances (step : List α → Option (κ × Nat)) : Prop :=
  ∀ text kind n, step text = some (kind, n) → 0 < n ∧ n ≤ text.length

/-- The tokens of a text and what is left when the step, or the fuel, finds no more. -/
def scan (step : List α → Option (κ × Nat)) : Nat → List α → List (κ × List α) × List α
  | 0, text => ([], text)
  | fuel + 1, text =>
    match step text with
    | none => ([], text)
    | some (kind, n) =>
      ((kind, text.take n) :: (scan step fuel (text.drop n)).1, (scan step fuel (text.drop n)).2)

attribute [grind =] scan

/-- Every token has a symbol, so the length of the text is enough fuel. -/
def scanAll (step : List α → Option (κ × Nat)) (text : List α) : List (κ × List α) × List α :=
  scan step text.length text

section Scan

variable {step : List α → Option (κ × Nat)} {text : List α}

theorem scan_fuel (h : Advances step) {fuel more : Nat} (hfuel : text.length ≤ fuel)
    (hmore : fuel ≤ more) : scan step more text = scan step fuel text := by
  induction fuel generalizing more text with
  | zero =>
    obtain rfl : text = [] := List.length_eq_zero_iff.1 (by omega)
    have hnil : step [] = none := by
      cases hstep : step [] with
      | none => rfl
      | some found =>
        have := h [] found.1 found.2 hstep
        omega
    cases more <;> simp [scan, hnil]
  | succ fuel ih =>
    obtain ⟨more, rfl⟩ : ∃ n, more = n + 1 := ⟨more - 1, by omega⟩
    rw [scan, scan]
    cases hstep : step text with
    | none => rfl
    | some found =>
      obtain ⟨hpos, hle⟩ := h text found.1 found.2 hstep
      have hdrop : (text.drop found.2).length ≤ fuel := by rw [length_drop]; omega
      have hsame : scan step more (text.drop found.2) = scan step fuel (text.drop found.2) := ih hdrop (by omega)
      simp only [hsame]

theorem scanAll_none (hstep : step text = none) : scanAll step text = ([], text) := by
  rw [scanAll]
  cases text.length with
  | zero => rfl
  | succ fuel => rw [scan, hstep]

theorem scanAll_some (h : Advances step) {kind : κ} {n : Nat} (hstep : step text = some (kind, n)) :
    scanAll step text = ((kind, text.take n) :: (scanAll step (text.drop n)).1, (scanAll step (text.drop n)).2) := by
  obtain ⟨hpos, hle⟩ := h text kind n hstep
  obtain ⟨fuel, hfuel⟩ : ∃ fuel, text.length = fuel + 1 := ⟨text.length - 1, by omega⟩
  have hsame : scan step fuel (text.drop n) = scanAll step (text.drop n) := by
    exact scan_fuel h le_rfl (by rw [length_drop]; omega)
  rw [scanAll, hfuel, scan, hstep]
  simp only [hsame]

/-- Induction along the tokens of a text. -/
theorem scan_induction (h : Advances step) {motive : List α → Prop}
    (stop : ∀ text, step text = none → motive text)
    (token : ∀ text kind n, step text = some (kind, n) → motive (text.drop n) → motive text) (text : List α) :
    motive text := by
  induction hlen : text.length using Nat.strong_induction_on generalizing text with
  | _ length ih =>
    cases hstep : step text with
    | none => exact stop text hstep
    | some found =>
      obtain ⟨hpos, hle⟩ := h text found.1 found.2 hstep
      exact token text found.1 found.2 hstep (ih _ (by rw [length_drop]; omega) _ rfl)

theorem flatten_scanAll (h : Advances step) (text : List α) :
    (scanAll step text).1.flatMap Prod.snd ++ (scanAll step text).2 = text := by
  induction text using scan_induction h with
  | stop text hstep => simp [scanAll_none hstep]
  | token text kind n hstep ih =>
    rw [scanAll_some h hstep]
    simp only [List.flatMap_cons, List.append_assoc, ih, List.take_append_drop]

theorem step_remainder (h : Advances step) (text : List α) : step (scanAll step text).2 = none := by
  induction text using scan_induction h with
  | stop text hstep => rwa [scanAll_none hstep]
  | token text kind n hstep ih => rwa [scanAll_some h hstep]

/-- Every token was found by the step at some point of the text. -/
theorem exists_step_of_mem (h : Advances step) {token : κ × List α} (hmem : token ∈ (scanAll step text).1) :
    ∃ rest n, step rest = some (token.1, n) ∧ token.2 = rest.take n := by
  induction text using scan_induction h with
  | stop text hstep => simp [scanAll_none hstep] at hmem
  | token text kind n hstep ih =>
    rw [scanAll_some h hstep] at hmem
    rcases List.mem_cons.1 hmem with rfl | hmem
    · exact ⟨text, n, hstep, rfl⟩
    · exact ih hmem

theorem remainder_suffix (h : Advances step) (text : List α) : (scanAll step text).2 <:+ text :=
  ⟨_, flatten_scanAll h text⟩

/-- A text is scanned in two parts when the second part changes no token of the first one. A step that
does change finds a token of the kind `bad`, and then the scan of the whole text shows one. -/
theorem scanAll_append (h : Advances step) (bad : κ × List α → Prop) {a b : List α}
    (hgrow : ∀ x kind n, step x = some (kind, n) → step (x ++ b) = some (kind, n) ∨
        ∃ kind' n', step (x ++ b) = some (kind', n') ∧ bad (kind', (x ++ b).take n'))
    (hbad : ∀ token ∈ (scanAll step (a ++ b)).1, ¬ bad token) :
    scanAll step (a ++ b) = ((scanAll step a).1 ++ (scanAll step ((scanAll step a).2 ++ b)).1,
        (scanAll step ((scanAll step a).2 ++ b)).2) := by
  induction a using scan_induction h with
  | stop a hstep => simp [scanAll_none hstep]
  | token a kind n hstep ih =>
    obtain ⟨-, hle⟩ := h a kind n hstep
    rcases hgrow a kind n hstep with hsame | ⟨kind', n', hother, hchanged⟩
    · have htake : (a ++ b).take n = a.take n := List.take_append_of_le_length hle
      have hdrop : (a ++ b).drop n = a.drop n ++ b := List.drop_append_of_le_length hle
      have hwhole := scanAll_some h hsame
      rw [htake, hdrop] at hwhole
      rw [hwhole] at hbad ⊢
      rw [scanAll_some h hstep, ih fun token hmem => hbad token (List.mem_cons_of_mem _ hmem)]
      rfl
    · rw [scanAll_some h hother] at hbad
      exact absurd hchanged (hbad _ List.mem_cons_self)

end Scan

/-! ## The first occurrence of a marker -/

variable [DecidableEq α]

/-- What is before and what is after the first occurrence of a marker. -/
def cutAt (marker : List α) : List α → Option (List α × List α)
  | [] => none
  | symbol :: rest =>
    if marker <+: symbol :: rest then some ([], (symbol :: rest).drop marker.length)
    else (cutAt marker rest).map fun parts => (symbol :: parts.1, parts.2)

attribute [grind =] cutAt

section CutAt

variable {marker : List α}

theorem cutAt_eq {text before after : List α} (h : cutAt marker text = some (before, after)) :
    text = before ++ marker ++ after := by
  induction text generalizing before with
  | nil => cases h
  | cons symbol rest ih =>
    rw [cutAt] at h
    split at h
    · next hprefix =>
      obtain ⟨rfl, rfl⟩ := Prod.mk.inj (Option.some.inj h)
      obtain ⟨tail, htail⟩ := hprefix
      rw [← htail]
      simp
    obtain ⟨parts, hparts, heq⟩ := Option.map_eq_some_iff.1 h
    obtain ⟨rfl, rfl⟩ := Prod.mk.inj heq
    rw [ih hparts]
    simp

theorem cutAt_ne_none (hmark : marker ≠ []) (before after : List α) :
    cutAt marker (before ++ marker ++ after) ≠ none := by
  induction before with
  | nil =>
    cases marker with
    | nil => exact absurd rfl hmark
    | cons symbol rest => simp [cutAt]
  | cons symbol before ih =>
    rw [cons_append, cons_append, cutAt]
    split
    · simp
    cases hcut : cutAt marker (before ++ marker ++ after) with
    | none => exact absurd hcut ih
    | some parts => simp

variable {a b before after : List α}

theorem cutAt_append (h : cutAt marker a = some (before, after)) :
    cutAt marker (a ++ b) = some (before, after ++ b) := by
  induction a generalizing before with
  | nil => cases h
  | cons symbol rest ih =>
    rw [cutAt] at h
    rw [cons_append, cutAt]
    split at h
    · next hprefix =>
      obtain ⟨rfl, rfl⟩ := Prod.mk.inj (Option.some.inj h)
      have hlonger : marker <+: symbol :: (rest ++ b) := by
        exact hprefix.trans (List.prefix_append _ _)
      rw [if_pos hlonger, ← cons_append, List.drop_append_of_le_length hprefix.length_le]
    next hprefix =>
    obtain ⟨parts, hparts, heq⟩ := Option.map_eq_some_iff.1 h
    obtain ⟨rfl, rfl⟩ := Prod.mk.inj heq
    -- An earlier occurrence would end inside the first part.
    have hshort : ¬ marker <+: symbol :: (rest ++ b) := by
      intro hlonger
      refine hprefix (List.prefix_of_prefix_length_le hlonger (List.prefix_append (symbol :: rest) b) ?_)
      have hlen := congrArg List.length (cutAt_eq hparts)
      simp only [List.length_append, List.length_cons] at hlen ⊢
      omega
    rw [if_neg hshort, ih hparts]
    rfl

theorem cutAt_left_none {a b : List α} (h : cutAt marker (a ++ b) = none) : cutAt marker a = none := by
  cases hcut : cutAt marker a with
  | none => rfl
  | some parts =>
    rw [cutAt_append hcut] at h
    cases h

theorem cutAt_right_none {a b : List α} (h : cutAt marker (a ++ b) = none) : cutAt marker b = none := by
  induction a with
  | nil => exact h
  | cons symbol a ih =>
    rw [cons_append, cutAt] at h
    split at h
    · cases h
    · exact ih (Option.map_eq_none_iff.1 h)

/-- What is before a marker shows no marker when a text is cut after it. -/
theorem cutAt_right {skipped text before after : List α}
    (h : cutAt marker (skipped ++ text) = some (skipped ++ before, after)) :
    cutAt marker text = some (before, after) := by
  induction skipped with
  | nil => exact h
  | cons symbol skipped ih =>
    rw [cons_append, cutAt] at h
    split at h
    · cases h
    obtain ⟨parts, hparts, heq⟩ := Option.map_eq_some_iff.1 h
    obtain ⟨hprev, rfl⟩ := Prod.mk.inj heq
    have hparts' : parts.1 = skipped ++ before := (List.cons.inj hprev).2
    exact ih (by rw [hparts, ← hparts'])

/-- A marker that only a longer text shows ends in the second part. -/
theorem cutAt_cross (hmark : marker ≠ []) (ha : cutAt marker a = none)
    (h : cutAt marker (a ++ b) = some (before, after)) : a.length < before.length + marker.length := by
  by_contra hlong
  have hwhole : before ++ marker <+: a ++ b := ⟨after, (cutAt_eq h).symm⟩
  obtain ⟨rest, hrest⟩ : before ++ marker <+: a := List.prefix_of_prefix_length_le hwhole (List.prefix_append a b)
      (by rw [List.length_append]; omega)
  exact cutAt_ne_none hmark before rest (hrest ▸ ha)

/-- A text that is cut after a marker shows the same occurrence. -/
theorem cutAt_shorter (hmark : marker ≠ [])
    (h : cutAt marker (a ++ b) = some (before, after ++ b)) (hlong : before ++ marker ++ after = a) :
    cutAt marker a = some (before, after) := by
  cases hcut : cutAt marker a with
  | none =>
    have hcross := cutAt_cross hmark hcut h
    rw [← hlong] at hcross
    simp only [List.length_append] at hcross
    omega
  | some parts =>
    rw [cutAt_append hcut] at h
    obtain ⟨hprev, hafter⟩ := Prod.mk.inj (Option.some.inj h)
    rw [← hprev, ← List.append_cancel_right hafter]

/-! A marker of one symbol is found at its first place. -/

theorem cutAt_symbol {symbol : α} {before after : List α} (h : symbol ∉ before) :
    cutAt [symbol] (before ++ symbol :: after) = some (before, after) := by
  induction before with
  | nil => simp [cutAt]
  | cons first before ih =>
    rw [List.mem_cons, not_or] at h
    rw [cons_append, cutAt, if_neg, ih h.2]
    · rfl
    · rintro ⟨tail, heq⟩
      exact h.1 (List.cons.inj heq).1

theorem cutAt_symbol_none {symbol : α} {text : List α} (h : cutAt [symbol] text = none) : symbol ∉ text := by
  intro hmem
  obtain ⟨before, after, rfl, hfirst⟩ := List.eq_append_cons_of_mem hmem
  rw [cutAt_symbol hfirst] at h
  cases h

theorem cutAt_symbol_eq {symbol : α} {text before after : List α} (h : cutAt [symbol] text = some (before, after)) :
    text = before ++ symbol :: after ∧ symbol ∉ before := by
  have hmem : symbol ∈ text := by
    rw [cutAt_eq h]
    simp
  obtain ⟨before', after', rfl, hfirst⟩ := List.eq_append_cons_of_mem hmem
  rw [cutAt_symbol hfirst] at h
  cases h
  exact ⟨rfl, hfirst⟩

end CutAt

end CodingHarness.Library
