import Mathlib.Data.Nat.Log
import Mathlib.Tactic.Ring

/-!
# IEEE binary64 values

A `Double` is a not-a-number, a signed infinity, a signed zero, or a signed finite nonzero value
`mantissa * 2 ^ exponent` with an odd mantissa, so that every finite value has one representation.
Conversion from an integer rounds to 53 significant bits, halves to even; conversion back drops
the fraction. Integers of at most 53 bits survive the round trip (`toInt_ofInt`).

`==` on doubles is `Double.eq`: it separates a not-a-number from everything, itself included, and
identifies the two zeros.
-/

namespace CodingHarness.Library

/-- An odd 53-bit mantissa and an exponent within the binary64 range. -/
def Representable (mantissa : Nat) (exponent : Int) : Prop :=
  mantissa % 2 = 1 ∧ mantissa < 2 ^ 53 ∧ -1074 ≤ exponent ∧ (mantissa.log2 : Int) + exponent < 1024

instance (mantissa : Nat) (exponent : Int) : Decidable (Representable mantissa exponent) :=
  inferInstanceAs (Decidable (_ ∧ _ ∧ _ ∧ _))

/-- A binary64 value. -/
inductive Double where
  | nan
  | infinity (negative : Bool)
  | zero (negative : Bool)
  | finite (negative : Bool) (mantissa : Nat) (exponent : Int)
      (representable : Representable mantissa exponent)
  deriving DecidableEq

namespace Double

/-- The comparison `a == b`. -/
def eq : Double → Double → Bool
  | .nan, _ => false
  | _, .nan => false
  | .zero _, .zero _ => true
  | a, b => decide (a = b)

/-- Values other than a not-a-number and the infinities. -/
def isFinite : Double → Bool
  | .zero _ => true
  | .finite .. => true
  | _ => false

/-- `x < 0`. -/
def isNegative : Double → Bool
  | .infinity negative => negative
  | .finite negative .. => negative
  | _ => false

/-- `trunc(x) == x`. An odd mantissa makes a negative exponent a proper fraction. -/
def isIntegral : Double → Bool
  | .nan => false
  | .infinity _ => true
  | .zero _ => true
  | .finite _ _ exponent _ => decide (0 ≤ exponent)

/-- `x > n` for a natural number `n`. -/
def exceeds : Double → Nat → Bool
  | .infinity false, _ => true
  | .finite false mantissa exponent _, n =>
    if 0 ≤ exponent then decide (n < mantissa * 2 ^ exponent.toNat)
    else decide (n * 2 ^ (-exponent).toNat < mantissa)
  | _, _ => false

/-- The integer part of the magnitude of a finite value. -/
def magnitude : Double → Nat
  | .finite _ mantissa exponent _ =>
    if 0 ≤ exponent then mantissa * 2 ^ exponent.toNat else mantissa / 2 ^ (-exponent).toNat
  | _ => 0

/-- Conversion to an integer, towards zero. -/
def toInt (x : Double) : Int := if x.isNegative then -(x.magnitude : Int) else x.magnitude

/-- Divide out the factors of two, at most `fuel` of them. -/
def stripTwos : Nat → Nat → Nat × Nat
  | 0, n => (n, 0)
  | fuel + 1, n =>
    if n % 2 = 0 then
      let r := stripTwos fuel (n / 2)
      (r.1, r.2 + 1)
    else (n, 0)

/-- `n / d` rounded to the nearest integer, halves to even. -/
def roundHalfEven (n d : Nat) : Nat := if 2 * (n % d) < d then n / d
  else if d < 2 * (n % d) then n / d + 1
  else n / d + n / d % 2

/-- The double nearest to a natural number, with a sign. -/
def ofMagnitude (negative : Bool) (n : Nat) : Double := if n = 0 then .zero negative
  else
    let k := n.log2 + 1 - 53
    let q := roundHalfEven n (2 ^ k)
    let s := stripTwos (q.log2 + 1) q
    if h : Representable s.1 (s.2 + k : Nat) then .finite negative s.1 (s.2 + k : Nat) h
    else .infinity negative

/-- The double nearest to an integer. -/
def ofInt (n : Int) : Double := ofMagnitude (decide (n < 0)) n.natAbs

attribute [grind =] eq isFinite isNegative magnitude stripTwos

@[simp] theorem eq_self_of_isFinite {x : Double} (h : x.isFinite = true) : eq x x = true := by
  cases x with
  | nan => simp [isFinite] at h
  | infinity negative => simp [isFinite] at h
  | zero negative => rfl
  | finite negative mantissa exponent representable => simp [eq]

/-- A converted integer is a value other than a not-a-number, and zero only without a sign. -/
theorem ofInt_cases (n : Int) : (∃ negative, ofInt n = .infinity negative) ∨ ofInt n = .zero false ∨
      ∃ negative mantissa exponent h, ofInt n = .finite negative mantissa exponent h := by
  unfold ofInt ofMagnitude
  by_cases hn : n = 0
  · subst hn
    exact Or.inr (Or.inl rfl)
  rw [if_neg (Int.natAbs_ne_zero.2 hn)]
  dsimp only
  split
  · rename_i hrep
    exact Or.inr (Or.inr ⟨_, _, _, hrep, rfl⟩)
  · exact Or.inl ⟨_, rfl⟩

theorem eq_ofInt_self (n : Int) : eq (ofInt n) (ofInt n) = true := by
  rcases ofInt_cases n with ⟨negative, h⟩ | h | ⟨negative, mantissa, exponent, hr, h⟩ <;>
    simp [h, eq]

variable {n : Int}

/-- Converted integers that compare equal are the same value. -/
theorem ofInt_eq_of_eq {m : Int} (h : eq (ofInt m) (ofInt n) = true) : ofInt m = ofInt n := by
  rcases ofInt_cases m with ⟨_, hm⟩ | hm | ⟨_, _, _, _, hm⟩ <;>
    rcases ofInt_cases n with ⟨_, hn⟩ | hn | ⟨_, _, _, _, hn⟩ <;>
    simp_all [eq]

theorem toInt_eq_of_eq {a b : Double} (h : eq a b = true) : a.toInt = b.toInt := by
  cases a <;> cases b <;> simp_all [eq, toInt, isNegative, magnitude]

theorem stripTwos_spec (fuel n : Nat) (hn : 0 < n) (hfuel : n < 2 ^ fuel) :
    (stripTwos fuel n).1 % 2 = 1 ∧ (stripTwos fuel n).1 * 2 ^ (stripTwos fuel n).2 = n := by
  induction fuel generalizing n with
  | zero => omega
  | succ fuel ih =>
    simp only [stripTwos]
    split
    · have hlt : n / 2 < 2 ^ fuel := by
        omega
      obtain ⟨hodd, hmul⟩ := ih (n / 2) (by omega) hlt
      rw [Nat.pow_succ, ← Nat.mul_assoc, hmul]
      omega
    · exact ⟨by omega, by simp⟩

theorem roundHalfEven_one (n : Nat) : roundHalfEven n 1 = n := by
  simp [roundHalfEven, Nat.mod_one]

/-- A nonzero natural number of at most 53 bits is a finite double of the same magnitude. -/
theorem ofMagnitude_exact (negative : Bool) {n : Nat} (hn : n ≠ 0) (hlt : n < 2 ^ 53) :
    ∃ mantissa exponent h, ofMagnitude negative n = .finite negative mantissa (exponent : Nat) h ∧
      mantissa * 2 ^ exponent = n := by
  have hlog : n.log2 < 53 := (Nat.log2_lt hn).2 hlt
  have hk : n.log2 + 1 - 53 = 0 := by omega
  have hpos : 0 < n := Nat.pos_of_ne_zero hn
  obtain ⟨hodd, hmul⟩ := stripTwos_spec (n.log2 + 1) n hpos Nat.lt_log2_self
  have hle : (stripTwos (n.log2 + 1) n).1 ≤ n := by
    calc (stripTwos (n.log2 + 1) n).1
        ≤ (stripTwos (n.log2 + 1) n).1 * 2 ^ (stripTwos (n.log2 + 1) n).2 :=
          Nat.le_mul_of_pos_right _ (Nat.two_pow_pos _)
      _ = n := hmul
  have hbits : (stripTwos (n.log2 + 1) n).1.log2 + (stripTwos (n.log2 + 1) n).2 < 53 := by
    have hself : 2 ^ (stripTwos (n.log2 + 1) n).1.log2 ≤ (stripTwos (n.log2 + 1) n).1 := Nat.log2_self_le (by omega)
    have hpow : 2 ^ ((stripTwos (n.log2 + 1) n).1.log2 + (stripTwos (n.log2 + 1) n).2) < 2 ^ 53 := by
      rw [Nat.pow_add]
      calc 2 ^ (stripTwos (n.log2 + 1) n).1.log2 * 2 ^ (stripTwos (n.log2 + 1) n).2
          ≤ (stripTwos (n.log2 + 1) n).1 * 2 ^ (stripTwos (n.log2 + 1) n).2 := Nat.mul_le_mul_right _ hself
        _ = n := hmul
        _ < 2 ^ 53 := hlt
    exact (Nat.pow_lt_pow_iff_right (by omega)).1 hpow
  have hrep : Representable (stripTwos (n.log2 + 1) n).1 ((stripTwos (n.log2 + 1) n).2 + 0 : Nat) := by
    refine ⟨hodd, by omega, by omega, ?_⟩
    omega
  refine ⟨_, (stripTwos (n.log2 + 1) n).2 + 0, hrep, ?_, by simpa using hmul⟩
  simp only [ofMagnitude, hn, if_false, hk, Nat.pow_zero, roundHalfEven_one]
  rw [dif_pos hrep]

theorem magnitude_ofMagnitude (negative : Bool) {n : Nat} (hlt : n < 2 ^ 53) :
    (ofMagnitude negative n).magnitude = n := by
  by_cases hn : n = 0
  · subst hn
    rfl
  · obtain ⟨mantissa, exponent, h, heq, hmul⟩ := ofMagnitude_exact negative hn hlt
    simp [heq, magnitude, hmul]

theorem isNegative_ofMagnitude (negative : Bool) {n : Nat} (hn : n ≠ 0) (hlt : n < 2 ^ 53) :
    (ofMagnitude negative n).isNegative = negative := by
  obtain ⟨mantissa, exponent, h, heq, -⟩ := ofMagnitude_exact negative hn hlt
  simp [heq, isNegative]

/-- **Integers of at most 53 bits survive the round trip through a double.** -/
theorem toInt_ofInt (h : n.natAbs < 2 ^ 53) : (ofInt n).toInt = n := by
  by_cases hn : n = 0
  · subst hn
    rfl
  have habs : n.natAbs ≠ 0 := Int.natAbs_ne_zero.2 hn
  simp only [toInt, ofInt, isNegative_ofMagnitude _ habs h, magnitude_ofMagnitude _ h, decide_eq_true_eq]
  split <;> omega

theorem isNegative_ofInt (h : n.natAbs < 2 ^ 53) : (ofInt n).isNegative = decide (n < 0) := by
  by_cases hn : n = 0
  · subst hn
    rfl
  · exact isNegative_ofMagnitude _ (Int.natAbs_ne_zero.2 hn) h

theorem isFinite_ofInt (h : n.natAbs < 2 ^ 53) : (ofInt n).isFinite = true := by
  by_cases hn : n = 0
  · subst hn
    rfl
  · obtain ⟨mantissa, exponent, hr, heq, -⟩ := ofMagnitude_exact (decide (n < 0)) (Int.natAbs_ne_zero.2 hn) h
    simp [ofInt, heq, isFinite]

theorem isIntegral_ofInt (h : n.natAbs < 2 ^ 53) : (ofInt n).isIntegral = true := by
  by_cases hn : n = 0
  · subst hn
    rfl
  · obtain ⟨mantissa, exponent, hr, heq, -⟩ := ofMagnitude_exact (decide (n < 0)) (Int.natAbs_ne_zero.2 hn) h
    simp [ofInt, heq, isIntegral]

theorem exceeds_ofInt (h : n.natAbs < 2 ^ 53) {bound : Nat} (hb : 2 ^ 53 ≤ bound) :
    (ofInt n).exceeds bound = false := by
  by_cases hn : n = 0
  · subst hn
    rfl
  obtain ⟨mantissa, exponent, hr, heq, hmul⟩ := ofMagnitude_exact (decide (n < 0)) (Int.natAbs_ne_zero.2 hn) h
  rw [ofInt, heq]
  cases decide (n < 0) with
  | true => rfl
  | false =>
    simp only [exceeds, Int.natCast_nonneg, if_true, Int.toNat_natCast, hmul, decide_eq_false_iff_not]
    omega

end Double

end CodingHarness.Library
