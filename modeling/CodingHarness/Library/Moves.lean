import Mathlib.Logic.Function.Basic

/-!
# Runs of a machine

A machine is a step function that may refuse a move. `runMoves` makes a list of moves, and the rules
below carry what every accepted move keeps over a whole run.
-/

namespace CodingHarness.Library

universe u v

variable {σ : Type u} {μ : Type v}

/-- The state after a list of moves, when every one of them is accepted. -/
def runMoves (step : σ → μ → Option σ) : σ → List μ → Option σ
  | s, [] => some s
  | s, move :: rest => (step s move).bind fun next => runMoves step next rest

variable {step : σ → μ → Option σ} {s t : σ}

theorem runMoves_cons_eq_some {move : μ} {rest : List μ} : runMoves step s (move :: rest) = some t ↔
      ∃ next, step s move = some next ∧ runMoves step next rest = some t := by
  rw [runMoves, Option.bind_eq_some_iff]

theorem runMoves_append_eq_some {before after : List μ} : runMoves step s (before ++ after) = some t ↔
      ∃ mid, runMoves step s before = some mid ∧ runMoves step mid after = some t := by
  induction before generalizing s with
  | nil => simp [runMoves]
  | cons move before ih =>
    rw [List.cons_append, runMoves_cons_eq_some]
    constructor
    · rintro ⟨next, hnext, hrest⟩
      obtain ⟨mid, hmid, hafter⟩ := ih.1 hrest
      exact ⟨mid, runMoves_cons_eq_some.2 ⟨next, hnext, hmid⟩, hafter⟩
    rintro ⟨mid, hmid, hafter⟩
    obtain ⟨next, hnext, hrest⟩ := runMoves_cons_eq_some.1 hmid
    exact ⟨next, hnext, ih.2 ⟨mid, hrest, hafter⟩⟩

/-- **Invariant rule.** What holds at the start and is kept by every accepted move holds after every
run. -/
theorem runMoves_invariant {P : σ → Prop}
    (hstep : ∀ s move next, P s → step s move = some next → P next) {moves : List μ}
    (hstart : P s) (hrun : runMoves step s moves = some t) : P t := by
  induction moves generalizing s with
  | nil =>
    cases hrun
    exact hstart
  | cons move rest ih =>
    obtain ⟨next, hnext, hrest⟩ := runMoves_cons_eq_some.1 hrun
    exact ih (hstep s move next hstart hnext) hrest

end CodingHarness.Library
