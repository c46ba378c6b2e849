import CodingHarness.Library.Double
import Mathlib.Algebra.Order.Field.Power
import Mathlib.Data.Rat.Cast.Order
import Mathlib.Tactic.FieldSimp
import Mathlib.Tactic.Linarith

/-!
# Decimal text of binary64 values

`ofRatio` rounds a nonnegative rational number to the nearest double, halves to even, and `ofDecimal`
does so for a decimal numeral `digits * 10 ^ exponent`; this is what a correctly rounding reader
computes. `shortestDecimal` is what a shortest round-trip writer prints: the numeral with the fewest
digits that reads back as the value. `ofDecimal_shortestDecimal` states the round trip.

Natural numbers are written and read as lists of decimal digits, most significant first.
-/

namespace CodingHarness.Library

open Nat (lt_log2_self pow_succ)

namespace Double

/-! ## Rounding a ratio -/

/-- The exponent of the leading bit of `n / d`. -/
def log2Ratio (n d : Nat) : Int := let guess : Int := (n.log2 : Int) - d.log2
  if d * 2 ^ guess.toNat ≤ n * 2 ^ (-guess).toNat then guess else guess - 1

/-- The double nearest to `n / d`, with a sign. -/
def ofRatio (negative : Bool) (n d : Nat) : Double := if n = 0 then .zero negative
  else
    let k := max (-1074) (log2Ratio n d - 52)
    let q := roundHalfEven (n * 2 ^ (-k).toNat) (d * 2 ^ k.toNat)
    if q = 0 then .zero negative
    else
      let s := stripTwos (q.log2 + 1) q
      if h : Representable s.1 (s.2 + k) then .finite negative s.1 (s.2 + k) h
      else .infinity negative

/-- The double nearest to `digits * 10 ^ exponent`, with a sign. -/
def ofDecimal (negative : Bool) (digits : Nat) (exponent : Int) : Double :=
  if 0 ≤ exponent then ofRatio negative (digits * 10 ^ exponent.toNat) 1
  else ofRatio negative digits (10 ^ (-exponent).toNat)

theorem pow_toNat (k : Int) : (2 : ℚ) ^ k.toNat = 2 ^ k * 2 ^ (-k).toNat := by
  rcases Int.le_total 0 k with hk | hk
  · obtain ⟨j, rfl⟩ := Int.eq_ofNat_of_zero_le hk
    simp
  obtain ⟨j, hj⟩ := Int.eq_ofNat_of_zero_le (show 0 ≤ -k by omega)
  obtain rfl : k = -(j : Int) := by omega
  simp

variable {n b mantissa : Nat}

theorem log2Ratio_spec {d : Nat} (hn : 0 < n) : (d : ℚ) * 2 ^ log2Ratio n d ≤ n := by
  have hpow : ∀ k : Int, (0 : ℚ) < 2 ^ k := fun k => zpow_pos (by norm_num) k
  rw [log2Ratio]
  split
  · rename_i hle
    generalize (n.log2 : Int) - d.log2 = k at hle ⊢
    have hcast : (d : ℚ) * 2 ^ k.toNat ≤ n * 2 ^ (-k).toNat := by exact_mod_cast hle
    rw [pow_toNat k, ← mul_assoc] at hcast
    exact le_of_mul_le_mul_right hcast (by positivity)
  -- One below the guess, the leading bits of numerator and denominator decide.
  have hnlog : (2 : ℚ) ^ (n.log2 : Int) ≤ n := by
    exact_mod_cast Nat.log2_self_le (show n ≠ 0 by omega)
  have hdlog : (d : ℚ) ≤ 2 ^ ((d.log2 : Int) + 1) := by
    exact_mod_cast (lt_log2_self (n := d)).le
  calc (d : ℚ) * 2 ^ ((n.log2 : Int) - d.log2 - 1)
      ≤ 2 ^ ((d.log2 : Int) + 1) * 2 ^ ((n.log2 : Int) - d.log2 - 1) := mul_le_mul_of_nonneg_right hdlog (hpow _).le
    _ = 2 ^ (n.log2 : Int) := by
        rw [← zpow_add₀ (by norm_num)]
        ring_nf
    _ ≤ n := hnlog

theorem roundHalfEven_mul (a : Nat) (hb : 0 < b) : roundHalfEven (a * b) b = a := by
  simp [roundHalfEven, hb]

theorem odd_mul_pow_inj {a i j : Nat} (ha : a % 2 = 1) (hb : b % 2 = 1) (h : a * 2 ^ i = b * 2 ^ j) :
    a = b ∧ i = j := by
  induction i generalizing j with
  | zero =>
    cases j with
    | zero => simpa using h
    | succ j =>
      rw [Nat.pow_zero, Nat.mul_one, pow_succ, ← Nat.mul_assoc] at h
      omega
  | succ i ih =>
    cases j with
    | zero =>
      rw [Nat.pow_zero, Nat.mul_one, pow_succ, ← Nat.mul_assoc] at h
      omega
    | succ j =>
      rw [pow_succ, pow_succ, ← Nat.mul_assoc, ← Nat.mul_assoc] at h
      obtain ⟨rfl, rfl⟩ := ih (Nat.eq_of_mul_eq_mul_right (by decide) h)
      exact ⟨rfl, rfl⟩

variable {exponent : Int}

/-- **A representable ratio is rounded to itself.** -/
theorem ofRatio_exact (negative : Bool) {d : Nat} (hd : 0 < d)
    (hrep : Representable mantissa exponent) (hval : (n : ℚ) = mantissa * 2 ^ exponent * d) :
    ofRatio negative n d = .finite negative mantissa exponent hrep := by
  obtain ⟨hodd, hbits, hlow, hhigh⟩ := id hrep
  have hpow : ∀ k : Int, (0 : ℚ) < 2 ^ k := fun k => zpow_pos (by norm_num) k
  have hm : 0 < mantissa := by omega
  have hn : 0 < n := by
    have : (0 : ℚ) < n := by
      rw [hval]
      exact mul_pos (mul_pos (by exact_mod_cast hm) (hpow _)) (by exact_mod_cast hd)
    exact_mod_cast this
  -- The rounding unit is not above the value's own exponent.
  have hunit : log2Ratio n d - 52 ≤ exponent := by
    have hlt : (2 : ℚ) ^ log2Ratio n d < 2 ^ (exponent + 53) := by
      have hspec := log2Ratio_spec (d := d) hn
      rw [hval, mul_comm] at hspec
      have hle : (2 : ℚ) ^ log2Ratio n d ≤ mantissa * 2 ^ exponent :=
        le_of_mul_le_mul_right hspec (by exact_mod_cast hd)
      have hmant : (mantissa : ℚ) < 2 ^ 53 := by exact_mod_cast hbits
      calc (2 : ℚ) ^ log2Ratio n d ≤ mantissa * 2 ^ exponent := hle
        _ < 2 ^ 53 * 2 ^ exponent := mul_lt_mul_of_pos_right hmant (hpow _)
        _ = 2 ^ (exponent + 53) := by
            rw [zpow_add₀ (by norm_num), mul_comm]
            norm_num
    have := (zpow_lt_zpow_iff_right₀ (by norm_num : (1 : ℚ) < 2)).1 hlt
    omega
  generalize hk : max (-1074) (log2Ratio n d - 52) = k
  obtain ⟨t, ht⟩ := Int.eq_ofNat_of_zero_le (show 0 ≤ exponent - k by omega)
  have hq : n * 2 ^ (-k).toNat = mantissa * 2 ^ t * (d * 2 ^ k.toNat) := by
    have hsplit : (2 : ℚ) ^ exponent = 2 ^ t * 2 ^ k := by
      rw [show exponent = (t : Int) + k by omega, zpow_add₀ (by norm_num), zpow_natCast]
    have : (n : ℚ) * 2 ^ (-k).toNat = mantissa * 2 ^ t * (d * 2 ^ k.toNat) := by
      rw [hval, pow_toNat k, hsplit]
      ring
    exact_mod_cast this
  have hround : roundHalfEven (n * 2 ^ (-k).toNat) (d * 2 ^ k.toNat) = mantissa * 2 ^ t := by
    rw [hq]
    exact roundHalfEven_mul _ (Nat.mul_pos hd (Nat.two_pow_pos _))
  have hpos : 0 < mantissa * 2 ^ t := Nat.mul_pos hm (Nat.two_pow_pos _)
  obtain ⟨hsodd, hsmul⟩ := stripTwos_spec _ (mantissa * 2 ^ t) hpos lt_log2_self
  obtain ⟨h1, h2⟩ := odd_mul_pow_inj hsodd hodd hsmul
  have hexp : ((stripTwos ((mantissa * 2 ^ t).log2 + 1) (mantissa * 2 ^ t)).2 : Int) + k = exponent := by
    omega
  simp only [ofRatio, hn.ne', if_false, hk, hround, hpos.ne', h1, hexp]
  rw [dif_pos hrep]

/-! ## Digits -/

/-- The digits of `n` before `acc`, at most `fuel` of them. -/
def digitsLoop : Nat → Nat → List Nat → List Nat
  | 0, _, acc => acc
  | fuel + 1, n, acc => if n < 10 then n :: acc else digitsLoop fuel (n / 10) (n % 10 :: acc)

/-- The decimal digits of `n`, most significant first. A number has at most as many decimal digits as
binary ones. -/
def digitsOf (n : Nat) : List Nat := digitsLoop (n.log2 + 1) n []

/-- The number a digit list denotes. -/
def ofDigits (digits : List Nat) : Nat := digits.foldl (fun n digit => 10 * n + digit) 0

theorem foldl_digits (digits : List Nat) (n : Nat) :
    digits.foldl (fun n digit => 10 * n + digit) n = n * 10 ^ digits.length + ofDigits digits := by
  induction digits generalizing n with
  | nil => simp [ofDigits]
  | cons digit rest ih =>
    have hcons : ofDigits (digit :: rest) = (10 * 0 + digit) * 10 ^ rest.length + ofDigits rest := ih (10 * 0 + digit)
    rw [List.foldl_cons, ih, hcons, List.length_cons, pow_succ]
    ring

theorem ofDigits_append (a b : List Nat) : ofDigits (a ++ b) = ofDigits a * 10 ^ b.length + ofDigits b := by
  rw [ofDigits, List.foldl_append, foldl_digits]
  rfl

theorem ofDigits_cons (digit : Nat) (rest : List Nat) :
    ofDigits (digit :: rest) = digit * 10 ^ rest.length + ofDigits rest := by
  rw [ofDigits, List.foldl_cons, foldl_digits]
  simp

theorem ofDigits_zeros (n : Nat) : ofDigits (List.replicate n 0) = 0 := by
  induction n with
  | zero => rfl
  | succ n ih => rw [List.replicate_succ, ofDigits_cons, ih]; simp

theorem digitsLoop_spec (fuel n : Nat) (acc : List Nat) (hfuel : n < 2 ^ fuel) (hpos : 0 < fuel) :
    ofDigits (digitsLoop fuel n acc) = n * 10 ^ acc.length + ofDigits acc ∧
      ((∀ digit ∈ acc, digit < 10) → ∀ digit ∈ digitsLoop fuel n acc, digit < 10) ∧
      (0 < n → ∃ head tail, digitsLoop fuel n acc = head :: tail ∧ head ≠ 0) ∧ (digitsLoop fuel n acc ≠ []) := by
  induction fuel generalizing n acc with
  | zero => omega
  | succ fuel ih =>
    rw [digitsLoop]
    split
    · rename_i hlt
      refine ⟨ofDigits_cons n acc, ?_, ?_, by simp⟩
      · intro hacc digit hdigit
        rcases List.mem_cons.1 hdigit with rfl | hdigit
        · exact hlt
        · exact hacc digit hdigit
      · intro hn
        exact ⟨n, acc, rfl, by omega⟩
    have hfuel' : n / 10 < 2 ^ fuel := by
      omega
    have hpos' : 0 < fuel := by
      rcases Nat.eq_zero_or_pos fuel with rfl | h
      · omega
      · exact h
    obtain ⟨hval, hdig, hhead, hne⟩ := ih (n / 10) (n % 10 :: acc) hfuel' hpos'
    refine ⟨?_, ?_, ?_, hne⟩
    · rw [hval, ofDigits_cons, List.length_cons, pow_succ]
      have hdiv := Nat.div_add_mod n 10
      calc n / 10 * (10 ^ acc.length * 10) + (n % 10 * 10 ^ acc.length + ofDigits acc)
          = (10 * (n / 10) + n % 10) * 10 ^ acc.length + ofDigits acc := by ring
        _ = n * 10 ^ acc.length + ofDigits acc := by rw [hdiv]
    · intro hacc
      refine hdig ?_
      intro digit hdigit
      rcases List.mem_cons.1 hdigit with rfl | hdigit
      · omega
      · exact hacc digit hdigit
    · intro _
      exact hhead (by omega)

@[simp] theorem ofDigits_digitsOf (n : Nat) : ofDigits (digitsOf n) = n := by
  have h := (digitsLoop_spec (n.log2 + 1) n [] lt_log2_self (by omega)).1
  simpa [digitsOf, ofDigits] using h

theorem digitsOf_lt (n : Nat) : ∀ digit ∈ digitsOf n, digit < 10 :=
  (digitsLoop_spec (n.log2 + 1) n [] lt_log2_self (by omega)).2.1 (by simp)

theorem digitsOf_head (hn : 0 < n) : ∃ head tail, digitsOf n = head :: tail ∧ head ≠ 0 :=
  (digitsLoop_spec (n.log2 + 1) n [] lt_log2_self (by omega)).2.2.1 hn

theorem digitsOf_ne_nil (n : Nat) : digitsOf n ≠ [] :=
  (digitsLoop_spec (n.log2 + 1) n [] lt_log2_self (by omega)).2.2.2

/-! ## The shortest numeral -/

/-- The exponent of the leading decimal digit of `n / d`. -/
def log10Ratio (n d : Nat) : Int := let guess : Int := ((digitsOf n).length : Int) - (digitsOf d).length
  if d * 10 ^ guess.toNat ≤ n * 10 ^ (-guess).toNat then guess else guess - 1

/-- Move trailing zeros of a numeral into its exponent. -/
def stripZeros : Nat → Nat → Int → Nat × Int
  | 0, digits, exponent => (digits, exponent)
  | fuel + 1, digits, exponent =>
    if digits % 10 = 0 ∧ digits ≠ 0 then stripZeros fuel (digits / 10) (exponent + 1)
    else (digits, exponent)

/-- The numerals of `length` digits next to `n / d`: the nearest one first. -/
def neighbours (n d length : Nat) : List (Nat × Int) := let scale := (length : Int) - 1 - log10Ratio n d
  let num := n * 10 ^ scale.toNat
  let den := d * 10 ^ (-scale).toNat
  [roundHalfEven num den, num / den, num / den + 1].map fun digits =>
    stripZeros (digits.log2 + 1) digits (-scale)

/-- The complete decimal expansion of `mantissa * 2 ^ exponent`. -/
def exactDecimal (mantissa : Nat) (exponent : Int) : Nat × Int :=
  let digits := mantissa * 2 ^ exponent.toNat * 5 ^ (-exponent).toNat
  stripZeros (digits.log2 + 1) digits (min exponent 0)

/-- The numeral with the fewest digits that reads back as `mantissa * 2 ^ exponent`. No double needs
more than 17 digits, so the complete expansion is only a bound of the search. -/
def shortestDecimal (mantissa : Nat) (exponent : Int) (representable : Representable mantissa exponent) :
    Nat × Int :=
  let n := mantissa * 2 ^ exponent.toNat
  let d := 2 ^ (-exponent).toNat
  let candidates := (List.range' 1 17).flatMap (neighbours n d)
  (candidates.find? fun c =>
    decide (c.1 % 10 ≠ 0 ∧ ofDecimal false c.1 c.2 = .finite false mantissa exponent representable)).getD
    (exactDecimal mantissa exponent)

theorem ofRatio_eq_finite_iff (negative : Bool) (n d mantissa : Nat) (exponent : Int)
    (h : Representable mantissa exponent) : ofRatio negative n d = .finite negative mantissa exponent h ↔
      ofRatio false n d = .finite false mantissa exponent h := by
  simp only [ofRatio]
  split
  · simp
  split
  · simp
  split
  · simp
  · simp

theorem ofDecimal_eq_finite_iff (negative : Bool) (digits : Nat) (scale : Int) (mantissa : Nat)
    (exponent : Int) (h : Representable mantissa exponent) :
    ofDecimal negative digits scale = .finite negative mantissa exponent h ↔
      ofDecimal false digits scale = .finite false mantissa exponent h := by
  simp only [ofDecimal]
  split
  · exact ofRatio_eq_finite_iff ..
  · exact ofRatio_eq_finite_iff ..

theorem stripZeros_spec (fuel digits : Nat) (exponent : Int) (hpos : 0 < digits) (hfuel : digits < 2 ^ fuel) :
    ∃ j : Nat, (stripZeros fuel digits exponent).2 = exponent + j ∧
      digits = (stripZeros fuel digits exponent).1 * 10 ^ j ∧ (stripZeros fuel digits exponent).1 % 10 ≠ 0 := by
  induction fuel generalizing digits exponent with
  | zero => omega
  | succ fuel ih =>
    rw [stripZeros]
    split
    · have hlt : digits / 10 < 2 ^ fuel := by
        omega
      obtain ⟨j, hexp, hdig, hlast⟩ := ih (digits / 10) (exponent + 1) (by omega) hlt
      refine ⟨j + 1, by rw [hexp]; push_cast; ring, ?_, hlast⟩
      rw [pow_succ, ← Nat.mul_assoc, ← hdig]
      omega
    · rename_i hne
      exact ⟨0, by simp, by simp, fun hzero => hne ⟨hzero, by omega⟩⟩

theorem exactDecimal_spec (h : Representable mantissa exponent) : (exactDecimal mantissa exponent).1 % 10 ≠ 0 ∧
      ofDecimal false (exactDecimal mantissa exponent).1 (exactDecimal mantissa exponent).2
        = .finite false mantissa exponent h := by
  have hm : 0 < mantissa := by have := h.1; omega
  have hpos : 0 < mantissa * 2 ^ exponent.toNat * 5 ^ (-exponent).toNat :=
    Nat.mul_pos (Nat.mul_pos hm (Nat.two_pow_pos _)) (Nat.pow_pos (by decide))
  obtain ⟨j, hexp, hdig, hlast⟩ := stripZeros_spec _ _ (min exponent 0) hpos lt_log2_self
  refine ⟨hlast, ?_⟩
  rw [exactDecimal, hexp]
  generalize (stripZeros _ _ _).1 = digits at hdig hlast ⊢
  rcases Int.le_total 0 exponent with hnonneg | hneg
  · obtain ⟨e, rfl⟩ := Int.eq_ofNat_of_zero_le hnonneg
    have hvalue : mantissa * 2 ^ e = digits * 10 ^ j := by simpa using hdig
    rw [show min (e : Int) 0 + j = (j : Int) by omega, ofDecimal, if_pos (by omega), Int.toNat_natCast, ← hvalue]
    exact ofRatio_exact false (by decide) h (by simp)
  obtain ⟨e, he⟩ := Int.eq_ofNat_of_zero_le (show 0 ≤ -exponent by omega)
  obtain rfl : exponent = -(e : Int) := by omega
  have hvalue : mantissa * 5 ^ e = digits * 10 ^ j := by simpa using hdig
  -- The expansion of a proper fraction is odd, so it has no zeros to strip.
  have hj : j = 0 := by
    rcases Nat.eq_zero_or_pos j with hj | hj
    · exact hj
    obtain ⟨i, rfl⟩ := Nat.exists_eq_succ_of_ne_zero hj.ne'
    have hodd : mantissa * 5 ^ e % 2 = 1 := by
      rw [Nat.mul_mod, h.1, Nat.pow_mod]
      simp
    rw [hvalue, pow_succ, ← Nat.mul_assoc] at hodd
    omega
  subst hj
  rw [Nat.pow_zero, Nat.mul_one] at hvalue
  rw [← hvalue]
  rcases Nat.eq_zero_or_pos e with rfl | hpos
  · exact ofRatio_exact false (by decide) h (by simp)
  rw [show min (-(e : Int)) 0 + ((0 : Nat) : Int) = -(e : Int) by omega, ofDecimal,
    if_neg (by omega), neg_neg, Int.toNat_natCast]
  refine ofRatio_exact false (Nat.pow_pos (by decide)) h ?_
  push_cast
  rw [show (10 : ℚ) = 2 * 5 by norm_num, mul_pow, zpow_neg, zpow_natCast]
  field_simp

/-- **The shortest numeral reads back as the value, under either sign.** -/
theorem ofDecimal_shortestDecimal (negative : Bool) (h : Representable mantissa exponent) :
    (shortestDecimal mantissa exponent h).1 % 10 ≠ 0 ∧
      ofDecimal negative (shortestDecimal mantissa exponent h).1 (shortestDecimal mantissa exponent h).2
        = .finite negative mantissa exponent h := by
  rw [ofDecimal_eq_finite_iff, shortestDecimal]
  cases hfound : List.find? _ _ with
  | none => exact exactDecimal_spec h
  | some c =>
    have hc := List.find?_some hfound
    exact of_decide_eq_true hc

end Double

end CodingHarness.Library
