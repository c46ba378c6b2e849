import CodingHarness.Library.Cycles
import Mathlib.Data.List.Perm.Subperm
import Mathlib.Data.Fintype.Card
import Mathlib.Data.Finite.Prod
import Mathlib.Order.WellFounded
import Mathlib.Data.List.Nodup

/-!
# Chains of parents and the forest they span

A partial function `up` gives each point at most one parent. `chain` follows the parents of a point
until there is none, and `below` lists a point with everything that hangs under it. A chain that ends
repeats nothing (`chain_nodup`). When no point is its own ancestor, every chain ends (`exists_chain`); a
chain that starts on a cycle never does (`chain_of_cycle`). The points under the roots are all points, each one
once, exactly when there is no cycle (`listing_perm_iff`).
-/

namespace CodingHarness.Library

open Relation

universe u

variable {α : Type u} {up : α → Option α}

/-- One step from a point to its parent. -/
def Climbs (up : α → Option α) (a b : α) : Prop := up a = some b

/-- The point and its ancestors; no result when the fuel does not suffice. -/
def chain (up : α → Option α) : Nat → α → Option (List α)
  | 0, _ => none
  | fuel + 1, a =>
    match up a with
    | none => some [a]
    | some b => (chain up fuel b).map (a :: ·)

variable {path : List α} {fuel : Nat} {a : α}

theorem chain_cases (h : chain up fuel a = some path) :
    (up a = none ∧ path = [a]) ∨ ∃ b rest lower, up a = some b ∧ chain up lower b = some rest ∧ path = a :: rest ∧
        fuel = lower + 1 := by
  cases fuel with
  | zero => cases h
  | succ fuel =>
    rw [chain] at h
    cases hup : up a with
    | none =>
      rw [hup] at h
      exact .inl ⟨rfl, (Option.some.inj h).symm⟩
    | some b =>
      rw [hup] at h
      obtain ⟨rest, hrest, rfl⟩ := Option.map_eq_some_iff.1 h
      exact .inr ⟨b, rest, fuel, rfl, hrest, rfl, rfl⟩

/-- A chain lists ancestors only. -/
theorem reaches_of_mem_chain {a b : α}
    (h : chain up fuel a = some path) (hb : b ∈ path) : ReflTransGen (Climbs up) a b := by
  induction fuel generalizing a path with
  | zero => cases h
  | succ fuel ih =>
    rcases chain_cases h with ⟨-, rfl⟩ | ⟨c, rest, lower, hup, hrest, rfl, hfuel⟩
    · rw [List.mem_singleton.1 hb]
    obtain rfl : fuel = lower := by omega
    rcases List.mem_cons.1 hb with rfl | hb
    · exact .refl
    · exact .head hup (ih hrest hb)

/-- Every parent of a point on a cycle is on a cycle. -/
theorem cycle_climbs {a b : α} (h : TransGen (Climbs up) a a) (hab : ReflTransGen (Climbs up) a b) :
    TransGen (Climbs up) b b := by
  induction hab with
  | refl => exact h
  | tail _ hstep ih =>
    obtain ⟨c, hc, hback⟩ := TransGen.head'_iff.1 ih
    obtain rfl := Option.some.inj (hc.symm.trans hstep)
    exact TransGen.tail' hback hstep

theorem up_of_cycle (h : TransGen (Climbs up) a a) : ∃ b, up a = some b := by
  obtain ⟨b, hb, -⟩ := TransGen.head'_iff.1 h
  exact ⟨b, hb⟩

/-- A chain that starts on a cycle has no end. -/
theorem chain_of_cycle (h : TransGen (Climbs up) a a) (fuel : Nat) : chain up fuel a = none := by
  induction fuel generalizing a with
  | zero => rfl
  | succ fuel ih =>
    obtain ⟨b, hb⟩ := up_of_cycle h
    have hnext : chain up fuel b = none := ih (cycle_climbs h (.single hb))
    rw [chain, hb]
    simp [hnext]

/-- A chain that ends repeats nothing. -/
theorem chain_nodup (h : chain up fuel a = some path) : path.Nodup := by
  induction fuel generalizing a path with
  | zero => cases h
  | succ fuel ih =>
    rcases chain_cases h with ⟨-, rfl⟩ | ⟨c, rest, lower, hup, hrest, rfl, hfuel⟩
    · exact List.nodup_singleton a
    obtain rfl : fuel = lower := by omega
    refine List.nodup_cons.2 ⟨fun hmem => ?_, ih hrest⟩
    have hcycle : TransGen (Climbs up) a a := .head' hup (reaches_of_mem_chain hrest hmem)
    cases h.symm.trans (chain_of_cycle hcycle (fuel + 1))

section Finite

variable {all : List α}

/-- Without cycles, and with finitely many parents, climbing is well founded. -/
theorem wellFounded_climbs (hacyclic : Acyclic (Climbs up)) (hall : ∀ a b, up a = some b → b ∈ all) :
    WellFounded fun b a => Climbs up a b := by
  -- Among the finitely many points of `all` a strict order is well founded.
  have hsub : WellFounded fun b a : { x // x ∈ all } => TransGen (Climbs up) a.1 b.1 := by
    have : Finite { x // x ∈ all } := List.finite_toSet all
    have : Std.Irrefl fun b a : { x // x ∈ all } => TransGen (Climbs up) a.1 b.1 := ⟨fun a h => hacyclic a.1 h⟩
    exact Finite.wellFounded_of_trans_of_irrefl _
  have hacc : ∀ x : { x // x ∈ all }, Acc (fun b a => Climbs up a b) x.1 := by
    intro x
    induction x using hsub.induction with
    | _ x ih => exact ⟨_, fun b hb => ih ⟨b, hall _ _ hb⟩ (.single hb)⟩
  exact ⟨fun a => ⟨_, fun b hb => hacc ⟨b, hall _ _ hb⟩⟩⟩

/-- Without cycles every chain ends. -/
theorem exists_chain (hacyclic : Acyclic (Climbs up)) (hall : ∀ a b, up a = some b → b ∈ all)
    (a : α) : ∃ fuel path, chain up fuel a = some path := by
  induction a using (wellFounded_climbs hacyclic hall).induction with
  | _ a ih =>
    cases hup : up a with
    | none => exact ⟨1, [a], by rw [chain, hup]⟩
    | some b =>
      obtain ⟨fuel, path, hpath⟩ := ih b hup
      exact ⟨fuel + 1, a :: path, by rw [chain, hup]; simp [hpath]⟩

end Finite

/-! ## Forests -/

/-- A point with everything under it, to a given depth. -/
def below (children : α → List α) : Nat → α → List α
  | 0, a => [a]
  | depth + 1, a => a :: (children a).flatMap (below children depth)

/-- The points `all`, their parents, the children of each point and the points without a parent. -/
structure Forest (up : α → Option α) (children : α → List α) (roots all : List α) : Prop where
  nodup : all.Nodup
  inside : ∀ a b, up a = some b → a ∈ all ∧ b ∈ all
  mem_children : ∀ a b, b ∈ children a ↔ up b = some a
  children_nodup : ∀ a, (children a).Nodup
  mem_roots : ∀ a, a ∈ roots ↔ a ∈ all ∧ up a = none
  roots_nodup : roots.Nodup

namespace Forest

variable {children : α → List α} {roots all : List α} {b root : α} {depth : Nat}

theorem reaches_of_mem_below (hforest : Forest up children roots all)
    (h : b ∈ below children depth a) : ReflTransGen (Climbs up) b a := by
  induction depth generalizing a with
  | zero => rw [List.mem_singleton.1 h]
  | succ depth ih =>
    rcases List.mem_cons.1 h with rfl | h
    · exact .refl
    · obtain ⟨c, hc, hb⟩ := List.mem_flatMap.1 h
      exact (ih hb).tail ((hforest.mem_children a c).1 hc)

theorem mem_below_self (depth : Nat) (a : α) : a ∈ below children depth a := by
  cases depth <;> simp [below]

/-- A child of a point under `a` is under `a`, one level deeper. -/
theorem mem_below_child {c : α} (hc : c ∈ below children depth a)
    (hb : b ∈ children c) : b ∈ below children (depth + 1) a := by
  induction depth generalizing a with
  | zero =>
    obtain rfl := List.mem_singleton.1 hc
    exact List.mem_cons_of_mem _ (List.mem_flatMap.2 ⟨b, hb, mem_below_self 0 b⟩)
  | succ depth ih =>
    rcases List.mem_cons.1 hc with rfl | hc
    · exact List.mem_cons_of_mem _ (List.mem_flatMap.2 ⟨b, hb, mem_below_self _ b⟩)
    · obtain ⟨d, hd, hc⟩ := List.mem_flatMap.1 hc
      exact List.mem_cons_of_mem _ (List.mem_flatMap.2 ⟨d, hd, ih hc⟩)

theorem mem_below_mono {depth deeper : Nat} (hle : depth ≤ deeper) (h : b ∈ below children depth a) :
    b ∈ below children deeper a := by
  induction depth generalizing a deeper with
  | zero =>
    obtain rfl := List.mem_singleton.1 h
    exact mem_below_self deeper b
  | succ depth ih =>
    obtain ⟨deeper, rfl⟩ : ∃ n, deeper = n + 1 := ⟨deeper - 1, by omega⟩
    rcases List.mem_cons.1 h with rfl | h
    · exact mem_below_self _ b
    · obtain ⟨c, hc, hb⟩ := List.mem_flatMap.1 h
      exact List.mem_cons_of_mem _ (List.mem_flatMap.2 ⟨c, hc, ih (by omega) hb⟩)

/-- The first point of a chain hangs under its last one. -/
theorem mem_below_of_chain (hforest : Forest up children roots all) {fuel : Nat}
    {path : List α} (ha : a ∈ all) (h : chain up fuel a = some path) :
    ∃ root ∈ roots, a ∈ below children (path.length - 1) root := by
  induction fuel generalizing a path with
  | zero => cases h
  | succ fuel ih =>
    rcases chain_cases h with ⟨hup, rfl⟩ | ⟨b, rest, lower, hup, hrest, rfl, hfuel⟩
    · exact ⟨a, (hforest.mem_roots a).2 ⟨ha, hup⟩, mem_below_self _ a⟩
    obtain rfl : fuel = lower := by omega
    obtain ⟨root, hroot, hb⟩ := ih (hforest.inside a b hup).2 hrest
    have hpos : rest.length ≠ 0 := by
      rcases chain_cases hrest with ⟨-, rfl⟩ | ⟨c, later, n, -, -, rfl, -⟩ <;> simp
    refine ⟨root, hroot, ?_⟩
    have hchild := mem_below_child hb ((hforest.mem_children b a).2 hup)
    exact mem_below_mono (by simp; omega) hchild

/-- Two points above a third one are above one another. -/
theorem comparable {c : α} (hab : ReflTransGen (Climbs up) a b) (hac : ReflTransGen (Climbs up) a c):
    ReflTransGen (Climbs up) b c ∨ ReflTransGen (Climbs up) c b :=
  ReflTransGen.total_of_right_unique (fun _ _ _ hx hy => Option.some.inj (hx.symm.trans hy)) hab hac

/-- Nothing that leads to a root is its own ancestor. -/
theorem not_cycle_of_root (hroot : up root = none) (h : ReflTransGen (Climbs up) a root) :
    ¬ TransGen (Climbs up) a a := by
  intro hcycle
  obtain ⟨b, hb⟩ := up_of_cycle (cycle_climbs hcycle h)
  rw [hroot] at hb
  cases hb

/-- Under a root, and so under everything that leads to one, nothing is listed twice. -/
theorem below_nodup (hforest : Forest up children roots all) (hroot : up root = none)
    (depth : Nat) (ha : ReflTransGen (Climbs up) a root) : (below children depth a).Nodup := by
  induction depth generalizing a with
  | zero => exact List.nodup_singleton a
  | succ depth ih =>
    have hchild : ∀ b ∈ children a, ReflTransGen (Climbs up) b root := fun b hb =>
      .head ((hforest.mem_children a b).1 hb) ha
    have hacyclic : ¬ TransGen (Climbs up) a a := not_cycle_of_root hroot ha
    refine List.nodup_cons.2 ⟨fun hmem => ?_, List.nodup_flatMap.2 ⟨fun b hb => ih (hchild b hb), ?_⟩⟩
    · obtain ⟨b, hb, hmem⟩ := List.mem_flatMap.1 hmem
      exact hacyclic (TransGen.tail' (hforest.reaches_of_mem_below hmem) ((hforest.mem_children a b).1 hb))
    -- Of two children with a common point below, one is above the other, and so above `a`.
    refine (hforest.children_nodup a).imp_of_mem fun {b c} hb hc hne => ?_
    have hbup : Climbs up b a := (hforest.mem_children a b).1 hb
    have hcup : Climbs up c a := (hforest.mem_children a c).1 hc
    have hclash : ∀ {x y}, Climbs up x a → Climbs up y a → x ≠ y → ¬ ReflTransGen (Climbs up) x y := by
      intro x y hx hy hxy hpath
      rcases hpath.cases_head with rfl | ⟨z, hz, hpath⟩
      · exact hxy rfl
      · obtain rfl := Option.some.inj (hz.symm.trans hx)
        exact hacyclic (TransGen.tail' hpath hy)
    intro x hxb hxc
    rcases comparable (hforest.reaches_of_mem_below hxb) (hforest.reaches_of_mem_below hxc) with
      hpath | hpath
    · exact hclash hbup hcup hne hpath
    · exact hclash hcup hbup hne.symm hpath

/-- All points under the roots, to a depth that suffices for every chain. -/
def listing (children : α → List α) (roots all : List α) : List α := roots.flatMap (below children all.length)

section

variable (hforest : Forest up children roots all)
include hforest

theorem mem_all_of_mem_below
    (ha : a ∈ all) (h : b ∈ below children depth a) : b ∈ all := by
  rcases (hforest.reaches_of_mem_below h).cases_head with rfl | ⟨c, hc, -⟩
  · exact ha
  · exact (hforest.inside b c hc).1

theorem listing_nodup : (listing children roots all).Nodup := by
  refine List.nodup_flatMap.2 ⟨fun a ha => hforest.below_nodup ((hforest.mem_roots a).1 ha).2 _ .refl, ?_⟩
  refine hforest.roots_nodup.imp_of_mem fun {a b} ha hb hne => ?_
  have hstay : ∀ {x y}, x ∈ roots → ReflTransGen (Climbs up) x y → x = y := by
    intro x y hx hpath
    rcases hpath.cases_head with rfl | ⟨z, hz, -⟩
    · rfl
    · rw [Climbs, ((hforest.mem_roots x).1 hx).2] at hz
      cases hz
  intro x hxa hxb
  rcases comparable (hforest.reaches_of_mem_below hxa) (hforest.reaches_of_mem_below hxb) with
    hpath | hpath
  · exact hne (hstay ha hpath)
  · exact hne (hstay hb hpath).symm

theorem listing_subset : listing children roots all ⊆ all := by
  intro a ha
  obtain ⟨root, hroot, hbelow⟩ := List.mem_flatMap.1 ha
  exact hforest.mem_all_of_mem_below ((hforest.mem_roots root).1 hroot).1 hbelow

/-- Without cycles every point is under a root. -/
theorem mem_listing (hacyclic : Acyclic (Climbs up))
    (ha : a ∈ all) : a ∈ listing children roots all := by
  obtain ⟨fuel, path, hpath⟩ := exists_chain hacyclic (fun x y h => (hforest.inside x y h).2) a
  -- A chain without repetition is no longer than `all`.
  have hsub : path ⊆ all := by
    intro x hx
    rcases (reaches_of_mem_chain hpath hx).cases_tail with heq | ⟨y, -, hy⟩
    · exact heq ▸ ha
    · exact (hforest.inside y x hy).2
  have hlen : path.length ≤ all.length := ((chain_nodup hpath).subperm hsub).length_le
  obtain ⟨root, hroot, hbelow⟩ := hforest.mem_below_of_chain ha hpath
  exact List.mem_flatMap.2 ⟨root, hroot, mem_below_mono (by omega) hbelow⟩

/-- The points under the roots are all points, each one once, exactly when no point is its own
ancestor; it is enough to count them. -/
theorem listing_perm_iff :
    (listing children roots all).Perm all ↔ Acyclic (Climbs up) := by
  constructor
  · intro hperm a hcycle
    obtain ⟨b, hb⟩ := up_of_cycle hcycle
    have hmem := hperm.mem_iff.2 (hforest.inside a b hb).1
    obtain ⟨root, hroot, hbelow⟩ := List.mem_flatMap.1 hmem
    exact not_cycle_of_root ((hforest.mem_roots root).1 hroot).2 (hforest.reaches_of_mem_below hbelow) hcycle
  intro hacyclic
  refine (List.perm_ext_iff_of_nodup hforest.listing_nodup hforest.nodup).2 fun a => ?_
  exact ⟨fun h => hforest.listing_subset h, fun h => hforest.mem_listing hacyclic h⟩

theorem listing_perm_of_length
    (h : all.length ≤ (listing children roots all).length) : (listing children roots all).Perm all :=
  (hforest.listing_nodup.subperm hforest.listing_subset).perm_of_length_le h

end

end Forest

end CodingHarness.Library
