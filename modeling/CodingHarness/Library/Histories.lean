import Mathlib.Data.List.Basic

/-!
# Lists of past events

A list of events is read in order, and a condition on an event may speak of the events before it.
-/

namespace CodingHarness.Library

universe u

variable {α : Type u} {P Q : List α → α → Prop} {events : List α} {event : α}

/-- Every event meets the condition with the events before it. -/
def Along (P : List α → α → Prop) (events : List α) : Prop :=
  ∀ earlier event later, events = earlier ++ event :: later → P earlier event

theorem along_nil : Along P [] := fun earlier event later h => by
  cases earlier with
  | nil => exact nomatch h
  | cons first rest => exact nomatch h

/-- **One more event.** -/
theorem along_concat : Along P (events ++ [event]) ↔ Along P events ∧ P events event := by
  constructor
  · intro h
    refine ⟨fun earlier other later heq => ?_, h events event [] rfl⟩
    refine h earlier other (later ++ [event]) ?_
    rw [heq, List.append_assoc]
    rfl
  rintro ⟨hevents, hevent⟩ earlier other later heq
  rcases List.eq_nil_or_concat later with rfl | ⟨later, last, rfl⟩
  · obtain ⟨rfl, hlast⟩ := List.append_inj' heq rfl
    obtain rfl := List.head_eq_of_cons_eq hlast
    exact hevent
  · rw [List.concat_eq_append, ← List.cons_append, ← List.append_assoc] at heq
    exact hevents earlier other later (List.append_inj' heq rfl).1

end CodingHarness.Library
