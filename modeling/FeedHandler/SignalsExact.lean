import FeedHandler.Signals
import Mathlib.Algebra.BigOperators.Ring.List
import Mathlib.Algebra.Group.Action.Defs
import Mathlib.Algebra.Order.BigOperators.Group.List
import Mathlib.Data.List.Induction
import Mathlib.Data.Vector.Basic

/-!
# The signal engine loses no bit

Each local variable of `compute_signals` holds the exact value of its expression,
whatever the levels of the snapshot are: the bounds of the width comments, proved.
The divisions that are used meet their precondition, and the record is the
wide-integer reference, the averages reduced to their signed 32-bit words.
-/

namespace FeedHandler.Signals

open Bits Udiv

/-! ### Sums over the levels -/

section Sums

variable (levels : List (Level 32 32))

theorem volumeOf_le : volumeOf levels ≤ levels.length * (2 ^ 32 - 1) := by
  have hle := List.sum_le_card_nsmul
    (levels.map fun level => if level.valid then level.size.toNat else 0) (2 ^ 32 - 1)
  rw [List.length_map, smul_eq_mul] at hle
  apply hle
  intro size hsize
  rcases List.mem_map.mp hsize with ⟨level, -, rfl⟩
  have hlt := level.size.isLt
  split_ifs <;> omega

/-- An average price is below `2 ^ 32`, multiplied out. -/
theorem notionalOf_le : notionalOf levels ≤ (2 ^ 32 - 1) * volumeOf levels := by
  rw [notionalOf, volumeOf, ← List.sum_map_mul_left]
  apply List.sum_le_sum
  intro level _
  have hprice : level.price.toNat * level.size.toNat ≤ (2 ^ 32 - 1) * level.size.toNat :=
    Nat.mul_le_mul_right _ (Nat.le_sub_one_of_lt level.price.isLt)
  split_ifs
  · exact hprice
  · exact Nat.zero_le _

theorem volumeOf_lt (hlen : levels.length ≤ DEPTH) : volumeOf levels < 2 ^ 36 := by
  have hle := volumeOf_le levels
  have hmul : levels.length * (2 ^ 32 - 1) ≤ DEPTH * (2 ^ 32 - 1) := Nat.mul_le_mul_right _ hlen
  simp only [DEPTH] at hmul
  omega

theorem notionalOf_lt (hlen : levels.length ≤ DEPTH) : notionalOf levels < 2 ^ 68 := by
  have hle := notionalOf_le levels
  have hvolume := volumeOf_lt levels hlen
  omega

/-- The loop over the levels: an accumulator wide enough for the sum of a field over
    the valid levels holds that sum. -/
theorem toNat_accumulate {m n : Nat} (field : Level 32 32 → BitVec m) (hmn : m ≤ n)
    (levels : List (Level 32 32))
    (hbound : (levels.map fun level => if level.valid then (field level).toNat else 0).sum <
      2 ^ n) :
    (levels.foldl (fun (acc : BitVec n) level =>
      if level.valid then acc + (field level).setWidth n else acc) 0).toNat =
      (levels.map fun level => if level.valid then (field level).toNat else 0).sum := by
  induction levels using List.reverseRecOn with
  | nil => exact BitVec.toNat_ofNat 0 n
  | append_singleton levels level ih =>
    rw [List.map_append, List.sum_append, List.map_singleton, List.sum_singleton] at hbound ⊢
    have hbefore := ih (Nat.lt_of_le_of_lt (Nat.le_add_right _ _) hbound)
    rw [List.foldl_append, List.foldl_cons, List.foldl_nil]
    split_ifs at hbound ⊢
    · rw [BitVec.toNat_add, BitVec.toNat_setWidth_of_le hmn, hbefore, Nat.mod_eq_of_lt hbound]
    · rw [hbefore, Nat.add_zero]

theorem toNat_volume (hlen : levels.length ≤ DEPTH) :
    (volume levels).toNat = volumeOf levels :=
  toNat_accumulate Level.size (by decide) levels (volumeOf_lt levels hlen)

theorem toNat_level_product (level : Level 32 32) :
    (product level).toNat = level.price.toNat * level.size.toNat :=
  toNat_mul_widened level.price level.size (by decide)

theorem toNat_notional (hlen : levels.length ≤ DEPTH) :
    (notional levels).toNat = notionalOf levels := by
  have hproducts : (levels.map fun level =>
      if level.valid then (product level).toNat else 0).sum = notionalOf levels := by
    simp only [toNat_level_product]
    rfl
  have hbound := notionalOf_lt levels hlen
  rw [← hproducts] at hbound ⊢
  exact toNat_accumulate product (by decide) levels hbound

end Sums

/-! ### Divisions -/

/-- A division within the precondition of `udiv_q`: the denominator is positive, the
    quotient fits `QBITS` bits, no remainder of the loop loses a bit, and the quotient
    is exact. -/
structure DivisionExact {NBITS DBITS : Nat} (QBITS : Nat) (num : BitVec NBITS)
    (den : BitVec DBITS) : Prop where
  den_pos : 0 < den.toNat
  num_lt : num.toNat < den.toNat * 2 ^ QBITS
  first : (divAfter num den 0 : Division QBITS DBITS).rem.toNat = num.toNat / 2 ^ QBITS
  rem2 : ∀ n, n < QBITS →
    (shifted num (QBITS - 1 - n) (divAfter num den n : Division QBITS DBITS).rem).toNat =
      2 * (divAfter num den n : Division QBITS DBITS).rem.toNat +
        (num.getLsbD (QBITS - 1 - n)).toNat
  rem : ∀ n, n < QBITS →
    (divAfter num den (n + 1) : Division QBITS DBITS).rem.toNat =
      (2 * (divAfter num den n : Division QBITS DBITS).rem.toNat +
        (num.getLsbD (QBITS - 1 - n)).toNat) % den.toNat
  quotient : (udivQ QBITS num den).toNat = num.toNat / den.toNat

theorem divisionExact {NBITS DBITS QBITS : Nat} {num : BitVec NBITS} {den : BitVec DBITS}
    (hpos : 0 < den.toNat) (hlt : num.toNat < den.toNat * 2 ^ QBITS) :
    DivisionExact QBITS num den where
  den_pos := hpos
  num_lt := hlt
  first := toNat_rem_zero hlt
  rem2 := fun _ _ => toNat_shifted _ _ _
  rem := by
    intro n hn
    have hrem := (reached_divAfter hlt (Nat.le_of_lt hn)).rem_lt
    rw [← toNat_shifted, divAfter, toNat_rem_divStep _ _ hrem]
    exact restored_eq_mod (shifted_lt num (QBITS - 1 - n) hrem)
  quotient := toNat_udivQ hlt

/-! ### The local variables -/

section Locals

variable (snap : BookSnap)

theorem toNat_bid_vol : (locals snap).bid_vol.toNat = volumeOf snap.bids.toList := by
  simp only [locals]
  exact toNat_volume _ (by simp)

theorem toNat_ask_vol : (locals snap).ask_vol.toNat = volumeOf snap.asks.toList := by
  simp only [locals]
  exact toNat_volume _ (by simp)

theorem toNat_bid_ps : (locals snap).bid_ps.toNat = notionalOf snap.bids.toList := by
  simp only [locals]
  exact toNat_notional _ (by simp)

theorem toNat_ask_ps : (locals snap).ask_ps.toNat = notionalOf snap.asks.toList := by
  simp only [locals]
  exact toNat_notional _ (by simp)

theorem toNat_total_vol :
    (locals snap).total_vol.toNat =
      (locals snap).bid_vol.toNat + (locals snap).ask_vol.toNat := by
  have htotal : (locals snap).total_vol =
      (locals snap).bid_vol.setWidth 37 + (locals snap).ask_vol.setWidth 37 := by
    simp only [locals]
  rw [htotal, toNat_add_widened _ _ (by decide) (by decide)]

theorem bid_heavy_iff :
    (locals snap).bid_heavy = true ↔
      (locals snap).ask_vol.toNat ≤ (locals snap).bid_vol.toNat := by
  have hheavy : (locals snap).bid_heavy =
      decide ((locals snap).bid_vol ≥ (locals snap).ask_vol) := by
    simp only [locals]
    rfl
  rw [hheavy, decide_eq_true_eq, ge_iff_le, BitVec.le_def]

theorem toNat_diff :
    (locals snap).diff.toNat =
      if (locals snap).bid_heavy then (locals snap).bid_vol.toNat - (locals snap).ask_vol.toNat
      else (locals snap).ask_vol.toNat - (locals snap).bid_vol.toNat := by
  have hheavy := bid_heavy_iff snap
  have hdiff : (locals snap).diff =
      if (locals snap).bid_heavy then (locals snap).bid_vol - (locals snap).ask_vol
      else (locals snap).ask_vol - (locals snap).bid_vol := by
    simp only [locals]
    rfl
  rw [hdiff]
  split_ifs with h
  · exact BitVec.toNat_sub_of_le (BitVec.le_def.mpr (hheavy.mp h))
  · refine BitVec.toNat_sub_of_le (BitVec.le_def.mpr ?_)
    have hlt := mt hheavy.mpr h
    omega

theorem diff_le_total : (locals snap).diff.toNat ≤ (locals snap).total_vol.toNat := by
  rw [toNat_diff, toNat_total_vol]
  split_ifs <;> omega

theorem toNat_imb_num : (locals snap).imb_num.toNat = (locals snap).diff.toNat * 2 ^ 16 := by
  have hnum : (locals snap).imb_num = (locals snap).diff.setWidth 53 <<< 16 := by
    simp only [locals]
  rw [hnum, toNat_shiftLeft_widened _ (by decide)]

theorem toNat_mp_b :
    (locals snap).mp_b.toNat = snap.bids[0].price.toNat * (locals snap).ask_vol.toNat := by
  have hproduct : (locals snap).mp_b =
      snap.bids[0].price.setWidth 68 * (locals snap).ask_vol.setWidth 68 := by
    simp only [locals]
  rw [hproduct, toNat_mul_widened _ _ (by decide)]

theorem toNat_mp_a :
    (locals snap).mp_a.toNat = snap.asks[0].price.toNat * (locals snap).bid_vol.toNat := by
  have hproduct : (locals snap).mp_a =
      snap.asks[0].price.setWidth 68 * (locals snap).bid_vol.setWidth 68 := by
    simp only [locals]
  rw [hproduct, toNat_mul_widened _ _ (by decide)]

theorem toNat_mp_num :
    (locals snap).mp_num.toNat = (locals snap).mp_b.toNat + (locals snap).mp_a.toNat := by
  have hsum : (locals snap).mp_num =
      (locals snap).mp_b.setWidth 69 + (locals snap).mp_a.setWidth 69 := by
    simp only [locals]
  rw [hsum, toNat_add_widened _ _ (by decide) (by decide)]

theorem toNat_vb_num : (locals snap).vb_num.toNat = (locals snap).bid_ps.toNat * 2 ^ 8 := by
  have hnum : (locals snap).vb_num = (locals snap).bid_ps.setWidth 76 <<< 8 := by
    simp only [locals]
  rw [hnum, toNat_shiftLeft_widened _ (by decide)]

theorem toNat_va_num : (locals snap).va_num.toNat = (locals snap).ask_ps.toNat * 2 ^ 8 := by
  have hnum : (locals snap).va_num = (locals snap).ask_ps.setWidth 76 <<< 8 := by
    simp only [locals]
  rw [hnum, toNat_shiftLeft_widened _ (by decide)]

/-! ### The four divisions -/

theorem imbalance_division (hused : (locals snap).total_vol ≠ 0) :
    DivisionExact 17 (locals snap).imb_num (locals snap).total_vol := by
  have hpos : 0 < (locals snap).total_vol.toNat :=
    Nat.pos_of_ne_zero fun h => hused (BitVec.eq_of_toNat_eq h)
  have hdiff := diff_le_total snap
  refine divisionExact hpos ?_
  rw [toNat_imb_num]
  omega

/-- The microprice numerator is a weighted sum of two prices, below `2 ^ 32` each. -/
theorem microprice_division (hused : 0 < (locals snap).total_vol) :
    DivisionExact 32 (locals snap).mp_num (locals snap).total_vol := by
  have hpos : 0 < (locals snap).total_vol.toNat := BitVec.lt_def.mp hused
  have hb : snap.bids[0].price.toNat * (locals snap).ask_vol.toNat ≤
      (2 ^ 32 - 1) * (locals snap).ask_vol.toNat :=
    Nat.mul_le_mul_right _ (Nat.le_sub_one_of_lt snap.bids[0].price.isLt)
  have ha : snap.asks[0].price.toNat * (locals snap).bid_vol.toNat ≤
      (2 ^ 32 - 1) * (locals snap).bid_vol.toNat :=
    Nat.mul_le_mul_right _ (Nat.le_sub_one_of_lt snap.asks[0].price.isLt)
  have htotal := toNat_total_vol snap
  refine divisionExact hpos ?_
  rw [toNat_mp_num, toNat_mp_b, toNat_mp_a]
  omega

/-- The average price of a side, in Q8, is below `2 ^ 40`. -/
theorem vwap_division {vol : BitVec 36} {num : BitVec 76} {levels : List (Level 32 32)}
    (hvol : vol.toNat = volumeOf levels) (hnum : num.toNat = notionalOf levels * 2 ^ 8)
    (hused : 0 < vol) : DivisionExact 40 num vol := by
  have hpos : 0 < vol.toNat := BitVec.lt_def.mp hused
  have hle := notionalOf_le levels
  refine divisionExact hpos ?_
  omega

theorem vwap_bid_division (hused : 0 < (locals snap).bid_vol) :
    DivisionExact 40 (locals snap).vb_num (locals snap).bid_vol :=
  vwap_division (toNat_bid_vol snap) ((toNat_vb_num snap).trans (by rw [toNat_bid_ps])) hused

theorem vwap_ask_division (hused : 0 < (locals snap).ask_vol) :
    DivisionExact 40 (locals snap).va_num (locals snap).ask_vol :=
  vwap_division (toNat_ask_vol snap) ((toNat_va_num snap).trans (by rw [toNat_ask_ps])) hused

/-! ### The record -/

theorem toNat_imb_q :
    (locals snap).imb_q.toNat =
      (locals snap).diff.toNat * 2 ^ 16 / (locals snap).total_vol.toNat := by
  have hq : (locals snap).imb_q =
      if (locals snap).total_vol = 0 then 0
      else udivQ 17 (locals snap).imb_num (locals snap).total_vol := by
    simp only [locals]
    rfl
  rw [hq]
  split_ifs with hzero
  · rw [hzero]
    exact (Nat.div_zero _).symm
  · rw [(imbalance_division snap hzero).quotient, toNat_imb_num]

theorem imb_q_le : (locals snap).imb_q.toNat ≤ 2 ^ 16 := by
  rw [toNat_imb_q]
  refine Nat.div_le_of_le_mul ?_
  exact Nat.mul_le_mul_right _ (diff_le_total snap)

/-- The quotient with the sign of the difference is the division toward zero. -/
theorem toInt_imbalance : (locals snap).imbalance.toInt = (reference snap).imbalance := by
  have hq := imb_q_le snap
  have hsigned : ((locals snap).imb_q.setWidth 32).toInt = (locals snap).imb_q.toNat :=
    toInt_widened _ (by decide)
  have himbalance : (locals snap).imbalance =
      if (locals snap).bid_heavy then (locals snap).imb_q.setWidth 32
      else -((locals snap).imb_q.setWidth 32) := by
    simp only [locals]
    rfl
  have hdiv : (((locals snap).imb_q.toNat : Nat) : Int) =
      (((locals snap).diff.toNat : Int) * 2 ^ 16).tdiv (locals snap).total_vol.toNat := by
    rw [toNat_imb_q]
    rfl
  have hreference : (reference snap).imbalance =
      ((((locals snap).bid_vol.toNat : Int) - (locals snap).ask_vol.toNat) * 2 ^ 16).tdiv
        (locals snap).total_vol.toNat := by
    rw [toNat_total_vol, toNat_bid_vol, toNat_ask_vol]
    simp only [reference]
    split_ifs with htotal
    · rfl
    · have hzero : volumeOf snap.bids.toList + volumeOf snap.asks.toList = 0 := by omega
      rw [hzero]
      exact (Int.tdiv_zero _).symm
  have hheavy := bid_heavy_iff snap
  have hdiff := toNat_diff snap
  rw [himbalance, hreference]
  by_cases h : (locals snap).bid_heavy = true
  · rw [if_pos h] at hdiff
    have hsign : ((locals snap).bid_vol.toNat : Int) - (locals snap).ask_vol.toNat =
        (locals snap).diff.toNat := by
      have hle := hheavy.mp h
      omega
    rw [if_pos h, hsigned, hdiv, hsign]
  · rw [if_neg h] at hdiff
    have hsign : ((locals snap).bid_vol.toNat : Int) - (locals snap).ask_vol.toNat =
        -((locals snap).diff.toNat : Int) := by
      have hle := mt hheavy.mpr h
      omega
    rw [if_neg h, BitVec.toInt_neg, hsigned, hsign, Int.neg_mul, Int.neg_tdiv, ← hdiv]
    exact Int.bmod_eq_of_le (by omega) (by omega)

theorem toNat_microprice : (locals snap).microprice.toNat = (reference snap).microprice := by
  have hmicro : (locals snap).microprice =
      if snap.bids[0].valid && snap.asks[0].valid && decide ((locals snap).total_vol > 0) then
        udivQ 32 (locals snap).mp_num (locals snap).total_vol
      else 0 := by
    simp only [locals]
    rfl
  have htotal : (locals snap).total_vol.toNat =
      volumeOf snap.bids.toList + volumeOf snap.asks.toList := by
    rw [toNat_total_vol, toNat_bid_vol, toNat_ask_vol]
  have hused : (snap.bids[0].valid && snap.asks[0].valid && decide ((locals snap).total_vol > 0)) =
      true ↔ snap.bids[0].valid = true ∧ snap.asks[0].valid = true ∧
        volumeOf snap.bids.toList + volumeOf snap.asks.toList ≠ 0 := by
    simp only [Bool.and_eq_true, decide_eq_true_eq, gt_iff_lt, BitVec.lt_def, htotal, and_assoc]
    exact and_congr_right fun _ => and_congr_right fun _ => Nat.pos_iff_ne_zero
  rw [hmicro]
  simp only [reference, hused]
  split_ifs with h
  · have hpos : 0 < (locals snap).total_vol := by
      rw [BitVec.lt_def, htotal]
      exact Nat.pos_of_ne_zero h.2.2
    rw [(microprice_division snap hpos).quotient, toNat_mp_num, toNat_mp_b, toNat_mp_a, htotal,
      toNat_bid_vol, toNat_ask_vol]
  · rfl

theorem toNat_spread : (locals snap).spread.toNat = (reference snap).spread := by
  have hspread : (locals snap).spread =
      if snap.bids[0].valid && snap.asks[0].valid &&
          decide (snap.asks[0].price ≥ snap.bids[0].price) then
        snap.asks[0].price - snap.bids[0].price
      else 0 := by
    simp only [locals]
  have hused : (snap.bids[0].valid && snap.asks[0].valid &&
      decide (snap.asks[0].price ≥ snap.bids[0].price)) = true ↔
      snap.bids[0].valid = true ∧ snap.asks[0].valid = true ∧
        snap.bids[0].price.toNat ≤ snap.asks[0].price.toNat := by
    simp only [Bool.and_eq_true, decide_eq_true_eq, ge_iff_le, BitVec.le_def, and_assoc]
  rw [hspread]
  simp only [reference, hused]
  split_ifs with h
  · exact BitVec.toNat_sub_of_le (BitVec.le_def.mpr h.2.2)
  · rfl

/-- An average price as the engine writes it: the reference reduced to a signed word. -/
theorem toInt_vwap {vol : BitVec 36} {num : BitVec 76} {levels : List (Level 32 32)}
    (hvol : vol.toNat = volumeOf levels) (hnum : num.toNat = notionalOf levels * 2 ^ 8) :
    (if vol > 0 then (udivQ 40 num vol).setWidth 32 else 0 : BitVec 32).toInt =
      ((if volumeOf levels ≠ 0 then notionalOf levels * 2 ^ 8 / volumeOf levels else 0 : Nat) :
        Int).bmod (2 ^ 32) := by
  have hused : vol > 0 ↔ volumeOf levels ≠ 0 := by
    rw [gt_iff_lt, BitVec.lt_def, hvol]
    exact Nat.pos_iff_ne_zero
  simp only [hused]
  split_ifs with h
  · rw [BitVec.toInt_eq_toNat_bmod, BitVec.toNat_setWidth,
      (vwap_division hvol hnum (hused.mpr h)).quotient, hvol, hnum, Int.natCast_mod]
    exact Int.emod_bmod _ _
  · rfl

theorem toInt_vwap_bid :
    (locals snap).vwap_bid.toInt = ((reference snap).vwap_bid : Int).bmod (2 ^ 32) := by
  have hvwap : (locals snap).vwap_bid =
      if (locals snap).bid_vol > 0 then
        (udivQ 40 (locals snap).vb_num (locals snap).bid_vol).setWidth 32
      else 0 := by
    simp only [locals]
    rfl
  rw [hvwap]
  exact toInt_vwap (toNat_bid_vol snap) ((toNat_vb_num snap).trans (by rw [toNat_bid_ps]))

theorem toInt_vwap_ask :
    (locals snap).vwap_ask.toInt = ((reference snap).vwap_ask : Int).bmod (2 ^ 32) := by
  have hvwap : (locals snap).vwap_ask =
      if (locals snap).ask_vol > 0 then
        (udivQ 40 (locals snap).va_num (locals snap).ask_vol).setWidth 32
      else 0 := by
    simp only [locals]
    rfl
  rw [hvwap]
  exact toInt_vwap (toNat_ask_vol snap) ((toNat_va_num snap).trans (by rw [toNat_ask_ps]))

end Locals

/-! ### Bit-exactness -/

/-- **No local variable loses a bit**, no division leaves its precondition, and the record
    is the reference. -/
structure BitExact (snap : BookSnap) : Prop where
  /-- The volumes are exact, after every level of the accumulation. -/
  volumes : ∀ k,
    (volume (snap.bids.toList.take k)).toNat = volumeOf (snap.bids.toList.take k) ∧
      (volume (snap.asks.toList.take k)).toNat = volumeOf (snap.asks.toList.take k)
  products : ∀ level ∈ snap.bids.toList ++ snap.asks.toList,
    (product level).toNat = level.price.toNat * level.size.toNat
  notionals : ∀ k,
    (notional (snap.bids.toList.take k)).toNat = notionalOf (snap.bids.toList.take k) ∧
      (notional (snap.asks.toList.take k)).toNat = notionalOf (snap.asks.toList.take k)
  total_vol : (locals snap).total_vol.toNat =
    (locals snap).bid_vol.toNat + (locals snap).ask_vol.toNat
  diff : (locals snap).diff.toNat =
    (((locals snap).bid_vol.toNat : Int) - (locals snap).ask_vol.toNat).natAbs
  imb_num : (locals snap).imb_num.toNat = (locals snap).diff.toNat * 2 ^ 16
  mp_b : (locals snap).mp_b.toNat = snap.bids[0].price.toNat * (locals snap).ask_vol.toNat
  mp_a : (locals snap).mp_a.toNat = snap.asks[0].price.toNat * (locals snap).bid_vol.toNat
  mp_num : (locals snap).mp_num.toNat = (locals snap).mp_b.toNat + (locals snap).mp_a.toNat
  vb_num : (locals snap).vb_num.toNat = (locals snap).bid_ps.toNat * 2 ^ 8
  va_num : (locals snap).va_num.toNat = (locals snap).ask_ps.toNat * 2 ^ 8
  /-- Each division that is used is within its precondition and exact. -/
  imbalance_div : (locals snap).total_vol ≠ 0 →
    DivisionExact 17 (locals snap).imb_num (locals snap).total_vol
  microprice_div : snap.bids[0].valid = true → snap.asks[0].valid = true →
    0 < (locals snap).total_vol → DivisionExact 32 (locals snap).mp_num (locals snap).total_vol
  vwap_bid_div : 0 < (locals snap).bid_vol →
    DivisionExact 40 (locals snap).vb_num (locals snap).bid_vol
  vwap_ask_div : 0 < (locals snap).ask_vol →
    DivisionExact 40 (locals snap).va_num (locals snap).ask_vol
  /-- The record. -/
  imbalance : (computeSignals snap).imbalance.toInt = (reference snap).imbalance
  microprice : (computeSignals snap).microprice.toNat = (reference snap).microprice
  spread : (computeSignals snap).spread.toNat = (reference snap).spread
  vwap_bid : (computeSignals snap).vwap_bid.toInt =
    ((reference snap).vwap_bid : Int).bmod (2 ^ 32)
  vwap_ask : (computeSignals snap).vwap_ask.toInt =
    ((reference snap).vwap_ask : Int).bmod (2 ^ 32)
  seq_num : (computeSignals snap).seq_num = snap.seq_num

theorem bitExact (snap : BookSnap) : BitExact snap where
  volumes := fun _ => ⟨toNat_volume _ (by simp), toNat_volume _ (by simp)⟩
  products := fun level _ => toNat_level_product level
  notionals := fun _ => ⟨toNat_notional _ (by simp), toNat_notional _ (by simp)⟩
  total_vol := toNat_total_vol snap
  diff := by
    have hheavy := bid_heavy_iff snap
    rw [toNat_diff]
    split_ifs with h
    · have hle := hheavy.mp h
      omega
    · have hlt := mt hheavy.mpr h
      omega
  imb_num := toNat_imb_num snap
  mp_b := toNat_mp_b snap
  mp_a := toNat_mp_a snap
  mp_num := toNat_mp_num snap
  vb_num := toNat_vb_num snap
  va_num := toNat_va_num snap
  imbalance_div := imbalance_division snap
  microprice_div := fun _ _ hused => microprice_division snap hused
  vwap_bid_div := vwap_bid_division snap
  vwap_ask_div := vwap_ask_division snap
  imbalance := toInt_imbalance snap
  microprice := toNat_microprice snap
  spread := toNat_spread snap
  vwap_bid := toInt_vwap_bid snap
  vwap_ask := toInt_vwap_ask snap
  seq_num := rfl

end FeedHandler.Signals
