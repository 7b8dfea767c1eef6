import FeedHandler.Bits
import Mathlib.Tactic.Ring
import Mathlib.Algebra.Order.Ring.Nat

/-!
# Quotient-sized division

`udiv_q` of `signals.cpp`: restoring division with one shift, compare and subtract
for each of exactly `QBITS` quotient bits, the comparison read off the sign bit of
the subtraction.  `divAfter n` is the loop after `n` of its iterations, which
process the bits `QBITS - 1` down to `QBITS - n`.
-/

namespace FeedHandler.Udiv

open Bits

variable {QBITS NBITS DBITS : Nat}

/-- The loop variables: the remainder and the quotient. -/
structure Division (QBITS DBITS : Nat) where
  rem : BitVec (DBITS + 1)
  q : BitVec QBITS

/-- `rem2`: the remainder with the next bit of the numerator. -/
def shifted (num : BitVec NBITS) (i : Nat) (rem : BitVec (DBITS + 1)) : BitVec (DBITS + 2) :=
  (rem.setWidth (DBITS + 2) <<< 1) ||| (BitVec.ofBool (num.getLsbD i)).setWidth (DBITS + 2)

/-- `diff`: the signed difference with the denominator. -/
def difference (den : BitVec DBITS) (rem2 : BitVec (DBITS + 2)) : BitVec (DBITS + 3) :=
  rem2.setWidth (DBITS + 3) - den.setWidth (DBITS + 3)

/-- One pass of the loop, for bit `i`. -/
def divStep (num : BitVec NBITS) (den : BitVec DBITS) (i : Nat) (d : Division QBITS DBITS) :
    Division QBITS DBITS :=
  let rem2 := shifted num i d.rem
  let diff := difference den rem2
  let neg := diff.getLsbD (DBITS + 2)
  { rem := if neg then rem2.setWidth (DBITS + 1) else diff.setWidth (DBITS + 1)
    q := setRange d.q i (BitVec.ofBool !neg) }

def divAfter (num : BitVec NBITS) (den : BitVec DBITS) : Nat → Division QBITS DBITS
  | 0 => { rem := (num >>> QBITS).setWidth (DBITS + 1), q := 0 }
  | n + 1 => divStep num den (QBITS - 1 - n) (divAfter num den n)

def udivQ (QBITS : Nat) (num : BitVec NBITS) (den : BitVec DBITS) : BitVec QBITS :=
  (divAfter num den QBITS : Division QBITS DBITS).q

/-! ### One pass -/

section Pass

variable {num : BitVec NBITS} {den : BitVec DBITS} {rem : BitVec (DBITS + 1)}
  {rem2 : BitVec (DBITS + 2)} {i : Nat}

/-- The shifted remainder is `2 * rem` and the next bit: the wider variable has room for
    every value of `rem`. -/
theorem toNat_shifted (num : BitVec NBITS) (i : Nat) (rem : BitVec (DBITS + 1)) :
    (shifted num i rem).toNat = 2 * rem.toNat + (num.getLsbD i).toNat := by
  have hbit := Bool.toNat_lt (num.getLsbD i)
  have hdouble : (rem.setWidth (DBITS + 2) <<< 1).toNat = 2 ^ 1 * rem.toNat := by
    rw [toNat_shiftLeft_widened rem (by omega), Nat.mul_comm]
  rw [shifted, BitVec.toNat_or, hdouble, toNat_ofBool_widened (by omega),
    ← Nat.two_pow_add_eq_or_of_lt (by omega)]

theorem shifted_lt (num : BitVec NBITS) (i : Nat) (hrem : rem.toNat < den.toNat) :
    (shifted num i rem).toNat < 2 * den.toNat := by
  have hbit := Bool.toNat_lt (num.getLsbD i)
  rw [toNat_shifted]
  omega

/-- The signed difference is exact, whatever the operands. -/
theorem toInt_difference (den : BitVec DBITS) (rem2 : BitVec (DBITS + 2)) :
    (difference den rem2).toInt = (rem2.toNat : Int) - (den.toNat : Int) :=
  toInt_sub_widened rem2 den (by omega) (by omega)

/-- **The sign bit is the comparison.** -/
theorem sign_difference (den : BitVec DBITS) (rem2 : BitVec (DBITS + 2)) :
    (difference den rem2).getLsbD (DBITS + 2) = decide (rem2.toNat < den.toNat) := by
  have hmsb : (difference den rem2).getLsbD (DBITS + 2) = (difference den rem2).msb :=
    (BitVec.msb_eq_getLsbD_last _).symm
  rw [hmsb, BitVec.msb_eq_toInt, toInt_difference, decide_eq_decide]
  omega

theorem toNat_difference (hge : den.toNat ≤ rem2.toNat) :
    (difference den rem2).toNat = rem2.toNat - den.toNat := by
  have hnonneg : (difference den rem2).msb = false := by
    rw [BitVec.msb_eq_toInt, toInt_difference, decide_eq_false_iff_not]
    omega
  have hint := toInt_difference den rem2
  rw [BitVec.toInt_eq_toNat_of_msb hnonneg] at hint
  omega

end Pass

/-! ### The loop -/

/-- Below `2 * den`, subtracting once where it fits leaves the residue. -/
theorem restored_eq_mod {rem2 den : Nat} (hlt : rem2 < 2 * den) :
    (if rem2 < den then rem2 else rem2 - den) = rem2 % den := by
  split_ifs with hless
  · exact (Nat.mod_eq_of_lt hless).symm
  · rw [Nat.mod_eq_sub_mod (by omega), Nat.mod_eq_of_lt (by omega)]

/-- What is subtracted is what the quotient bit stands for. -/
theorem restored_split (den k rem2 : Nat) :
    2 * (den * k) + rem2 = den * (2 * k + (!decide (rem2 < den)).toNat) +
      (if rem2 < den then rem2 else rem2 - den) := by
  split_ifs with hless
  · rw [decide_eq_true hless, Bool.not_true, Bool.toNat_false]
    ring
  · have hback : rem2 - den + den = rem2 := Nat.sub_add_cancel (by omega)
    rw [decide_eq_false hless, Bool.not_false, Bool.toNat_true]
    calc 2 * (den * k) + rem2 = 2 * (den * k) + (rem2 - den + den) := by rw [hback]
      _ = den * (2 * k + 1) + (rem2 - den) := by ring

/-- The numerator down to bit `i` is the one down to bit `i + 1` and bit `i`. -/
theorem div_two_pow (num : BitVec NBITS) (i : Nat) :
    num.toNat / 2 ^ i = 2 * (num.toNat / 2 ^ (i + 1)) + (num.getLsbD i).toNat := by
  have hbit : (num.getLsbD i).toNat = num.toNat / 2 ^ i % 2 := Nat.toNat_testBit _ _
  rw [hbit, Nat.pow_succ, ← Nat.div_div_eq_div_mul]
  omega

/-- Setting a bit above which alone there are bits adds its weight. -/
theorem toNat_setRange_bit (q : BitVec QBITS) {i : Nat} (hi : i < QBITS)
    (hlow : 2 ^ (i + 1) ∣ q.toNat) (b : Bool) :
    (setRange q i (BitVec.ofBool b)).toNat = q.toNat + b.toNat * 2 ^ i := by
  rcases hlow with ⟨k, hk⟩
  have hclear : q.getLsbD i = false := by
    rw [BitVec.getLsbD, hk, Nat.pow_succ, Nat.mul_assoc, Nat.testBit_two_pow_mul]
    simp
  rw [setRange_bit_eq_or q hi hclear, BitVec.toNat_or, toNat_ofBool_shifted hi, hk,
    ← Nat.two_pow_add_eq_or_of_lt (weight_lt b i)]

/-- **The loop invariant**, with the bits from `i` up processed. -/
structure Reached (num : BitVec NBITS) (den : BitVec DBITS) (i : Nat)
    (d : Division QBITS DBITS) : Prop where
  rem_lt : d.rem.toNat < den.toNat
  split : num.toNat / 2 ^ i = den.toNat * (d.q.toNat / 2 ^ i) + d.rem.toNat
  low : 2 ^ i ∣ d.q.toNat

section Loop

variable {num : BitVec NBITS} {den : BitVec DBITS} {d : Division QBITS DBITS} {i : Nat}

theorem toNat_rem_divStep (num : BitVec NBITS) (i : Nat) (hrem : d.rem.toNat < den.toNat) :
    (divStep num den i d).rem.toNat =
      if (shifted num i d.rem).toNat < den.toNat then (shifted num i d.rem).toNat
      else (shifted num i d.rem).toNat - den.toNat := by
  have hden := den.isLt
  have hlt := shifted_lt num i hrem
  have hwide : 2 ^ (DBITS + 1) = 2 ^ DBITS * 2 := Nat.pow_succ 2 DBITS
  simp only [divStep, sign_difference, decide_eq_true_eq]
  split_ifs with hneg
  · rw [BitVec.toNat_setWidth, Nat.mod_eq_of_lt (by omega)]
  · rw [BitVec.toNat_setWidth, toNat_difference (by omega), Nat.mod_eq_of_lt (by omega)]

theorem toNat_q_divStep (num : BitVec NBITS) (den : BitVec DBITS) (hi : i < QBITS)
    (hlow : 2 ^ (i + 1) ∣ d.q.toNat) :
    (divStep num den i d).q.toNat =
      d.q.toNat + (!decide ((shifted num i d.rem).toNat < den.toNat)).toNat * 2 ^ i := by
  simp only [divStep, sign_difference]
  exact toNat_setRange_bit _ hi hlow _

theorem Reached.step (h : Reached num den (i + 1) d) (hi : i < QBITS) :
    Reached num den i (divStep num den i d) := by
  have hlt := shifted_lt num i h.rem_lt
  have hrem := toNat_rem_divStep num i h.rem_lt
  have hpos : 0 < den.toNat := Nat.zero_lt_of_lt h.rem_lt
  rcases h.low with ⟨k, hk⟩
  -- the quotient so far is `2 ^ (i + 1) * k`, and this pass appends a bit to `k`
  have hhigh : d.q.toNat / 2 ^ (i + 1) = k := by
    rw [hk, Nat.mul_div_cancel_left _ (Nat.two_pow_pos _)]
  have hq : (divStep num den i d).q.toNat =
      2 ^ i * (2 * k + (!decide ((shifted num i d.rem).toNat < den.toNat)).toNat) := by
    rw [toNat_q_divStep num den hi h.low, hk, Nat.pow_succ]
    ring
  refine ⟨?_, ?_, ⟨_, hq⟩⟩
  · rw [hrem, restored_eq_mod hlt]
    exact Nat.mod_lt _ hpos
  · calc num.toNat / 2 ^ i
        = 2 * (den.toNat * k + d.rem.toNat) + (num.getLsbD i).toNat := by
          rw [div_two_pow, h.split, hhigh]
      _ = 2 * (den.toNat * k) + (shifted num i d.rem).toNat := by
          rw [toNat_shifted]
          ring
      _ = den.toNat * ((divStep num den i d).q.toNat / 2 ^ i) +
            (divStep num den i d).rem.toNat := by
          rw [restored_split, hq, Nat.mul_div_cancel_left _ (Nat.two_pow_pos i), hrem]

variable (hpre : num.toNat < den.toNat * 2 ^ QBITS)

include hpre

theorem toNat_rem_zero :
    (divAfter num den 0 : Division QBITS DBITS).rem.toNat = num.toNat / 2 ^ QBITS := by
  have hden := den.isLt
  have hwide : 2 ^ (DBITS + 1) = 2 ^ DBITS * 2 := Nat.pow_succ 2 DBITS
  have hlt : num.toNat / 2 ^ QBITS < den.toNat :=
    Nat.div_lt_of_lt_mul (by rw [Nat.mul_comm]; exact hpre)
  rw [divAfter, BitVec.toNat_setWidth, toNat_highBits, Nat.mod_eq_of_lt (by omega)]

theorem reached_divAfter {n : Nat} (hn : n ≤ QBITS) :
    Reached num den (QBITS - n) (divAfter num den n : Division QBITS DBITS) := by
  induction n with
  | zero =>
    have hrem := toNat_rem_zero hpre
    refine ⟨?_, ?_, ?_⟩
    · rw [hrem]
      exact Nat.div_lt_of_lt_mul (by rw [Nat.mul_comm]; exact hpre)
    · rw [hrem]
      simp [divAfter]
    · simp [divAfter]
  | succ n ih =>
    have hbefore := ih (Nat.le_of_succ_le hn)
    have hbit : QBITS - n = (QBITS - 1 - n) + 1 := by omega
    have hbit' : QBITS - (n + 1) = QBITS - 1 - n := by omega
    rw [hbit] at hbefore
    rw [hbit']
    exact hbefore.step (by omega)

/-- **The loop divides.** -/
theorem toNat_udivQ : (udivQ QBITS num den).toNat = num.toNat / den.toNat := by
  have hdone := reached_divAfter hpre (Nat.le_refl QBITS)
  have hsplit := hdone.split
  rw [Nat.sub_self, Nat.pow_zero, Nat.div_one, Nat.div_one] at hsplit
  have hpos : 0 < den.toNat := Nat.zero_lt_of_lt hdone.rem_lt
  rw [udivQ, hsplit, Nat.mul_add_div hpos, Nat.div_eq_of_lt hdone.rem_lt, Nat.add_zero]

end Loop

/-! ### Every pass is exact -/

/-- The loop variables as the pass for bit `i` finds them. -/
def beforeBit (num : BitVec NBITS) (den : BitVec DBITS) (i : Nat) : Division QBITS DBITS :=
  divAfter num den (QBITS - 1 - i)

/-- The loop variables as the pass for bit `i` leaves them. -/
def afterBit (num : BitVec NBITS) (den : BitVec DBITS) (i : Nat) : Division QBITS DBITS :=
  divAfter num den (QBITS - i)

/-- The pass for bit `i`, from `before` to `after`, computes on its sized variables what
    it would on unbounded ones: `rem2`, the signed difference and the new remainder lose
    no bit, the sign bit is the comparison, and the quotient so far divides the numerator
    so far. -/
structure PassExact (num : BitVec NBITS) (den : BitVec DBITS) (i : Nat)
    (before after : Division QBITS DBITS) : Prop where
  pass : after = divStep num den i before
  rem2 : (shifted num i before.rem).toNat = 2 * before.rem.toNat + (num.getLsbD i).toNat
  rem2_lt : (shifted num i before.rem).toNat < 2 * den.toNat
  diff : (difference den (shifted num i before.rem)).toInt =
    ((shifted num i before.rem).toNat : Int) - (den.toNat : Int)
  sign : (difference den (shifted num i before.rem)).getLsbD (DBITS + 2) = true ↔
    (shifted num i before.rem).toNat < den.toNat
  rem : after.rem.toNat =
    if (shifted num i before.rem).toNat < den.toNat then (shifted num i before.rem).toNat
    else (shifted num i before.rem).toNat - den.toNat
  rem_lt : after.rem.toNat < den.toNat
  split : (num >>> i).toNat = den.toNat * (after.q >>> i).toNat + after.rem.toNat

/-- Restoring division of `num` by `den`: the quotient, which fits `QBITS` bits, the
    initial remainder, which loses no bit either, and every pass. -/
structure RestoringDivision (QBITS : Nat) (num : BitVec NBITS) (den : BitVec DBITS) :
    Prop where
  quotient : (udivQ QBITS num den).toNat = num.toNat / den.toNat
  quotient_lt : num.toNat / den.toNat < 2 ^ QBITS
  first : (divAfter num den 0 : Division QBITS DBITS).rem.toNat = (num >>> QBITS).toNat
  first_lt : (num >>> QBITS).toNat < den.toNat
  passes : ∀ i, i < QBITS →
    PassExact num den i (beforeBit num den i : Division QBITS DBITS) (afterBit num den i)

section Exact

variable {num : BitVec NBITS} {den : BitVec DBITS} {d : Division QBITS DBITS} {i : Nat}

theorem afterBit_eq (hi : i < QBITS) :
    (afterBit num den i : Division QBITS DBITS) = divStep num den i (beforeBit num den i) := by
  have hpass : QBITS - i = (QBITS - 1 - i) + 1 := by omega
  have hbit : QBITS - 1 - (QBITS - 1 - i) = i := by omega
  rw [afterBit, hpass, divAfter, hbit, beforeBit]

theorem reached_beforeBit (hpre : num.toNat < den.toNat * 2 ^ QBITS) (hi : i < QBITS) :
    Reached num den (i + 1) (beforeBit num den i : Division QBITS DBITS) := by
  have hreached := reached_divAfter hpre (show QBITS - 1 - i ≤ QBITS by omega)
  have hbit : QBITS - (QBITS - 1 - i) = i + 1 := by omega
  rw [hbit] at hreached
  exact hreached

/-- From the loop invariant, one pass is exact. -/
theorem Reached.passExact (h : Reached num den (i + 1) d) (hi : i < QBITS) :
    PassExact num den i d (divStep num den i d) where
  pass := rfl
  rem2 := toNat_shifted num i d.rem
  rem2_lt := shifted_lt num i h.rem_lt
  diff := toInt_difference den _
  sign := by rw [sign_difference, decide_eq_true_eq]
  rem := toNat_rem_divStep num i h.rem_lt
  rem_lt := (h.step hi).rem_lt
  split := by
    rw [toNat_highBits, toNat_highBits]
    exact (h.step hi).split

/-- **`udiv_q` is exact restoring division**, at every size, whenever the quotient fits. -/
theorem restoringDivision (hpre : num.toNat < den.toNat * 2 ^ QBITS) :
    RestoringDivision QBITS num den where
  quotient := toNat_udivQ hpre
  quotient_lt := Nat.div_lt_of_lt_mul hpre
  first := by rw [toNat_rem_zero hpre, toNat_highBits]
  first_lt := by
    rw [toNat_highBits]
    exact Nat.div_lt_of_lt_mul (by rw [Nat.mul_comm]; exact hpre)
  passes := by
    intro i hi
    rw [afterBit_eq hi]
    exact (reached_beforeBit hpre hi).passExact hi

/-- The largest denominator and the largest quotient of a volume-weighted price. -/
theorem restoringDivision_largest :
    (0xFFFFFFFFEFFFFFFFFFF#76).toNat < (0xFFFFFFFFF#36).toNat * 2 ^ 40 ∧
      RestoringDivision 40 (0xFFFFFFFFEFFFFFFFFFF#76) (0xFFFFFFFFF#36) :=
  ⟨by decide, restoringDivision (by decide)⟩

end Exact

end FeedHandler.Udiv
