import Mathlib.Logic.Relation
import Mathlib.Data.Finset.Card

/-!
# Walks with a stack

`visits next fuel pending` takes the node on top of a stack and pushes its successors, until the stack is
empty. There is no result when the fuel does not suffice. A walk that ends has visited exactly the nodes
that the stack reaches (`mem_visits`).
-/

namespace CodingHarness.Library

open Relation

universe u

variable {α : Type u} {next : α → List α}

/-- The nodes of a walk, in the order in which they are taken from the stack. -/
def visits (next : α → List α) : Nat → List α → Option (List α)
  | _, [] => some []
  | 0, _ :: _ => none
  | fuel + 1, node :: rest => (visits next fuel ((next node).reverse ++ rest)).map (node :: ·)

/-- A node of the stack leads to another one. -/
def Reaches (next : α → List α) (pending : List α) (node : α) : Prop :=
  ∃ start ∈ pending, ReflTransGen (fun a b => b ∈ next a) start node

theorem reaches_cons {node found : α} {rest : List α} : Reaches next (node :: rest) found ↔
      found = node ∨ Reaches next ((next node).reverse ++ rest) found := by
  constructor
  · rintro ⟨start, hstart, hpath⟩
    rcases List.mem_cons.1 hstart with rfl | hstart
    · rcases hpath.cases_head with rfl | ⟨middle, hmid, hpath⟩
      · exact .inl rfl
      · exact .inr ⟨middle, List.mem_append_left _ (List.mem_reverse.2 hmid), hpath⟩
    · exact .inr ⟨start, List.mem_append_right _ hstart, hpath⟩
  rintro (rfl | ⟨start, hstart, hpath⟩)
  · exact ⟨found, List.mem_cons_self .., .refl⟩
  rcases List.mem_append.1 hstart with hstart | hstart
  · exact ⟨node, List.mem_cons_self .., .head (List.mem_reverse.1 hstart) hpath⟩
  · exact ⟨start, List.mem_cons_of_mem _ hstart, hpath⟩

/-- A walk that ends visits what its stack reaches, and nothing else. -/
theorem mem_visits {fuel : Nat} {pending out : List α} (h : visits next fuel pending = some out)
    {node : α} : node ∈ out ↔ Reaches next pending node := by
  induction fuel generalizing pending out with
  | zero =>
    cases pending with
    | nil =>
      cases h
      simp [Reaches]
    | cons first rest => cases h
  | succ fuel ih =>
    cases pending with
    | nil =>
      cases h
      simp [Reaches]
    | cons first rest =>
      obtain ⟨later, hlater, rfl⟩ := Option.map_eq_some_iff.1 h
      rw [List.mem_cons, ih hlater, reaches_cons]

end CodingHarness.Library
