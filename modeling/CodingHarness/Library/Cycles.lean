import Mathlib.Logic.Relation
import Mathlib.Order.Basic

/-!
# Relations without cycles

Two ways to add edges to a relation that has no cycle. New edges out of one point are harmless when
none of their targets leads back to it (`Acyclic.addFrom`), and new points are harmless when the edges
out of them only climb (`Acyclic.addAbove`).
-/

namespace CodingHarness.Library

open Relation

universe u

variable {α : Type u} {R S : α → α → Prop}

/-- No point leads back to itself. -/
def Acyclic (R : α → α → Prop) : Prop := ∀ x, ¬ TransGen R x x

theorem Acyclic.mono (h : Acyclic R) (hsub : ∀ x y, S x y → R x y) : Acyclic S :=
  fun x hx => h x (TransGen.mono hsub x x hx)

/-- A path to the point that the new edges leave does not need them. -/
theorem reflTransGen_of_addFrom {start : α} (hedge : ∀ x y, S x y → R x y ∨ x = start) {a : α}
    (h : ReflTransGen S a start) : ReflTransGen R a start := by
  induction h using ReflTransGen.head_induction_on with
  | refl => exact .refl
  | head hab _ ih =>
    rcases hedge _ _ hab with hold | rfl
    · exact .head hold ih
    · exact .refl

theorem Acyclic.addFrom (h : Acyclic R) {start : α}
    (hedge : ∀ x y, S x y → R x y ∨ (x = start ∧ ¬ ReflTransGen R y start)) : Acyclic S := by
  have hold : ∀ x y, S x y → R x y ∨ x = start := fun x y hxy =>
    (hedge x y hxy).imp_right And.left
  -- A path is an old one, or it passes a new edge.
  have hpath : ∀ a b, TransGen S a b → TransGen R a b ∨
      ∃ y, ReflTransGen S a start ∧ ¬ ReflTransGen R y start ∧ ReflTransGen S y b := by
    intro a b hab
    induction hab with
    | single hstep =>
      rcases hedge _ _ hstep with hr | ⟨rfl, hnew⟩
      · exact .inl (.single hr)
      · exact .inr ⟨_, .refl, hnew, .refl⟩
    | tail hab hstep ih =>
      rcases ih with ih | ⟨y, hay, hnew, hyb⟩
      · rcases hedge _ _ hstep with hr | ⟨rfl, hnew⟩
        · exact .inl (ih.tail hr)
        · exact .inr ⟨_, hab.to_reflTransGen, hnew, .refl⟩
      · exact .inr ⟨y, hay, hnew, hyb.tail hstep⟩
  intro x hx
  rcases hpath x x hx with hr | ⟨y, hstart, hnew, hyx⟩
  · exact h x hr
  · exact hnew (reflTransGen_of_addFrom hold (hyx.trans hstart))

theorem Acyclic.addAbove [Preorder α] (h : Acyclic R) {fresh : α → Prop} (hedge : ∀ x y, S x y → R x y ∨ fresh y)
    (hclimb : ∀ x y, fresh x → S x y → fresh y ∧ x < y) : Acyclic S := by
  -- Out of a new point every path climbs.
  have hup : ∀ a b, TransGen S a b → fresh a → fresh b ∧ a < b := by
    intro a b hab hfresh
    induction hab with
    | single hstep => exact hclimb _ _ hfresh hstep
    | tail _ hstep ih =>
      obtain ⟨hmid, hlt⟩ := ih
      obtain ⟨hend, hlt'⟩ := hclimb _ _ hmid hstep
      exact ⟨hend, hlt.trans hlt'⟩
  -- A path that ends at an old point is an old path.
  have hback : ∀ a b, TransGen S a b → ¬ fresh b → TransGen R a b := by
    intro a b hab
    induction hab with
    | single hstep =>
      intro hnot
      exact .single ((hedge _ _ hstep).resolve_right hnot)
    | tail _ hstep ih =>
      intro hnot
      have hmid := fun hfresh => hnot (hclimb _ _ hfresh hstep).1
      exact (ih hmid).tail ((hedge _ _ hstep).resolve_right hnot)
  intro x hx
  by_cases hfresh : fresh x
  · exact lt_irrefl x (hup x x hx hfresh).2
  · exact h x (hback x x hx hfresh)

end CodingHarness.Library
