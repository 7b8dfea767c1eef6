import Mathlib.Algebra.Order.Archimedean.Basic
import Mathlib.Algebra.Order.Round
import Mathlib.Data.Int.Log
import Mathlib.Data.Rat.Floor
import Mathlib.Tactic.FieldSimp
import Mathlib.Tactic.Linarith
import Mathlib.Tactic.NormNum
import Mathlib.Tactic.Positivity
import Mathlib.Tactic.Ring

/-!
# Rounding to binary64

Rounding of a rational to the nearest number with 53 significant bits, the even one of two
equally near, down to the subnormal spacing `2 ^ -1074`.  There is no largest number here:
the rounding is that of binary64 for magnitudes that do not overflow.  What a scaled
quotient of two naturals keeps of its integer part is the main result.
-/

namespace FeedHandler.Binary64

/-! ### The nearest integer -/

/-- The integer nearest to a rational, the even one of two. -/
def nearestInt (q : ℚ) : Int :=
  if Int.fract q < 1 / 2 then ⌊q⌋
  else if 1 / 2 < Int.fract q then ⌊q⌋ + 1
  else if Even ⌊q⌋ then ⌊q⌋ else ⌊q⌋ + 1

/-- What makes an integer the one that `q` is rounded to. -/
structure IsNearestInt (q : ℚ) (m : Int) : Prop where
  close : |(m : ℚ) - q| ≤ 1 / 2
  even_of_tie : |(m : ℚ) - q| = 1 / 2 → Even m

theorem isNearestInt_nearestInt (q : ℚ) : IsNearestInt q (nearestInt q) := by
  have hfract : q = ⌊q⌋ + Int.fract q := (Int.floor_add_fract q).symm
  have hnonneg := Int.fract_nonneg q
  have hlt := Int.fract_lt_one q
  have hdown : |(⌊q⌋ : ℚ) - q| = Int.fract q := by
    rw [abs_sub_comm, Int.self_sub_floor, abs_of_nonneg hnonneg]
  have hup : |((⌊q⌋ + 1 : Int) : ℚ) - q| = 1 - Int.fract q := by
    rw [abs_of_nonneg (by push_cast; linarith)]
    push_cast
    linarith
  unfold nearestInt
  split_ifs with hlow hhigh heven
  · exact ⟨by rw [hdown]; exact hlow.le, fun htie => by rw [hdown] at htie; linarith⟩
  · exact ⟨by rw [hup]; linarith, fun htie => by rw [hup] at htie; linarith⟩
  · exact ⟨by rw [hdown]; linarith, fun _ => heven⟩
  · exact ⟨by rw [hup]; linarith, fun _ => (Int.not_even_iff_odd.mp heven).add_one⟩

/-- Two integers as near as that differ by at most one; one of two neighbours is odd. -/
theorem IsNearestInt.unique {q : ℚ} {m n : Int} (hm : IsNearestInt q m) (hn : IsNearestInt q n) :
    m = n := by
  wlog hle : m ≤ n generalizing m n
  · exact (this hn hm (by omega)).symm
  have hm' := abs_le.mp hm.close
  have hn' := abs_le.mp hn.close
  have hgap : ((n - m : Int) : ℚ) ≤ 1 := by
    push_cast
    linarith
  have hstep : n - m ≤ 1 := by exact_mod_cast hgap
  by_contra hne
  have hnext : n = m + 1 := by omega
  have htie : (n : ℚ) = m + 1 := by exact_mod_cast hnext
  have heven_m := hm.even_of_tie (by rw [abs_of_nonpos] <;> linarith)
  have heven_n := hn.even_of_tie (by rw [abs_of_nonneg] <;> linarith)
  rw [hnext] at heven_n
  exact Int.not_even_iff_odd.mpr heven_m.add_one heven_n

theorem nearestInt_eq {q : ℚ} {m : Int} (h : IsNearestInt q m) : nearestInt q = m :=
  (isNearestInt_nearestInt q).unique h

theorem nearestInt_intCast (m : Int) : nearestInt (m : ℚ) = m :=
  nearestInt_eq ⟨by norm_num, fun htie => by norm_num at htie⟩

theorem nearestInt_neg (q : ℚ) : nearestInt (-q) = -nearestInt q := by
  obtain ⟨hclose, heven⟩ := isNearestInt_nearestInt q
  have habs : |((-nearestInt q : Int) : ℚ) - -q| = |(nearestInt q : ℚ) - q| := by
    rw [← abs_neg]
    push_cast
    ring_nf
  refine nearestInt_eq ⟨by rwa [habs], fun htie => ?_⟩
  rw [habs] at htie
  exact (heven htie).neg

theorem le_nearestInt {q : ℚ} {m : Int} (h : (m : ℚ) ≤ q) : m ≤ nearestInt q := by
  have hfloor : m ≤ ⌊q⌋ := Int.le_floor.mpr h
  unfold nearestInt
  split_ifs <;> omega

theorem nearestInt_le {q : ℚ} {m : Int} (h : q ≤ m) : nearestInt q ≤ m := by
  have hneg : -m ≤ nearestInt (-q) := le_nearestInt (by push_cast; linarith)
  rw [nearestInt_neg] at hneg
  omega

/-! ### The nearest binary64 number -/

/-- The spacing of the binary64 numbers at a magnitude. -/
def spacing (q : ℚ) : ℚ := 2 ^ (max (Int.log 2 |q|) (-1022) - 52)

/-- The binary64 number nearest to a rational, the even one of two. -/
def nearest (q : ℚ) : ℚ := nearestInt (q / spacing q) * spacing q

theorem spacing_pos (q : ℚ) : 0 < spacing q := zpow_pos (by norm_num) _

@[simp] theorem spacing_neg (q : ℚ) : spacing (-q) = spacing q := by rw [spacing, abs_neg]; rfl

@[simp] theorem nearest_zero : nearest 0 = 0 := by
  have hzero : nearestInt 0 = 0 := nearestInt_intCast 0
  rw [nearest, zero_div, hzero]
  simp

@[simp] theorem nearest_neg (q : ℚ) : nearest (-q) = -nearest q := by
  rw [nearest, spacing_neg, neg_div, nearestInt_neg, nearest]
  push_cast
  ring

theorem abs_nearest_sub_le (q : ℚ) : |nearest q - q| ≤ spacing q / 2 := by
  have hpos := spacing_pos q
  have hclose := (isNearestInt_nearestInt (q / spacing q)).close
  have hfactor : nearest q - q =
      (nearestInt (q / spacing q) - q / spacing q) * spacing q := by
    rw [sub_mul, div_mul_cancel₀ q hpos.ne', nearest]
  rw [hfactor, abs_mul, abs_of_pos hpos]
  linarith [mul_le_mul_of_nonneg_right hclose hpos.le]

theorem spacing_le {q : ℚ} (hq : 2 ^ (-1022 : Int) ≤ |q|) : spacing q ≤ |q| / 2 ^ 52 := by
  have hpos : 0 < |q| := lt_of_lt_of_le (zpow_pos (by norm_num) _) hq
  have hlog : -1022 ≤ Int.log 2 |q| := (Int.zpow_le_iff_le_log (by norm_num) hpos).mp hq
  have hself : (2 : ℚ) ^ Int.log 2 |q| ≤ |q| := Int.zpow_log_le_self (by norm_num) hpos
  rw [spacing, max_eq_left hlog, zpow_sub₀ (by norm_num)]
  exact div_le_div_of_nonneg_right hself (by positivity)

/-- Half a unit in the last place, relative to the number. -/
theorem abs_nearest_sub_le_div {q : ℚ} (hq : 2 ^ (-1022 : Int) ≤ |q|) :
    |nearest q - q| ≤ |q| / 2 ^ 53 := by
  have herror := abs_nearest_sub_le q
  have hspacing := spacing_le hq
  calc |nearest q - q| ≤ spacing q / 2 := herror
    _ ≤ |q| / 2 ^ 52 / 2 := by linarith
    _ = |q| / 2 ^ 53 := by ring

/-- Below `2 ^ (53 + e)` the numbers lie no further apart than `2 ^ e`. -/
theorem exists_mul_spacing {q : ℚ} {e : Int} (hzero : q ≠ 0) (he : -1074 ≤ e)
    (hq : |q| < 2 ^ (53 + e)) : ∃ j : Int, (2 : ℚ) ^ e = j * spacing q := by
  have hlog : Int.log 2 |q| < 53 + e :=
    (Int.lt_zpow_iff_log_lt (by norm_num) (abs_pos.mpr hzero)).mp hq
  obtain ⟨k, hk⟩ : ∃ k : Nat, e = k + (max (Int.log 2 |q|) (-1022) - 52) :=
    ⟨(e - (max (Int.log 2 |q|) (-1022) - 52)).toNat, by omega⟩
  refine ⟨2 ^ k, ?_⟩
  rw [spacing]
  conv_lhs => rw [hk]
  rw [zpow_add₀ (by norm_num), zpow_natCast]
  push_cast
  rfl

/-- Rounding passes no multiple of `2 ^ e`. -/
theorem le_nearest {q : ℚ} {m e : Int} (he : -1074 ≤ e) (hq : |q| < 2 ^ (53 + e))
    (h : m * 2 ^ e ≤ q) : m * 2 ^ e ≤ nearest q := by
  rcases eq_or_ne q 0 with rfl | hzero
  · rwa [nearest_zero]
  · obtain ⟨j, hj⟩ := exists_mul_spacing hzero he hq
    have hpos := spacing_pos q
    rw [hj, ← mul_assoc] at h ⊢
    have hquotient : ((m * j : Int) : ℚ) ≤ q / spacing q := by
      rw [le_div_iff₀ hpos]
      push_cast
      exact h
    have hround : ((m * j : Int) : ℚ) ≤ nearestInt (q / spacing q) :=
      Int.cast_le.mpr (le_nearestInt hquotient)
    push_cast at hround
    exact mul_le_mul_of_nonneg_right hround hpos.le

theorem nearest_le {q : ℚ} {m e : Int} (he : -1074 ≤ e) (hq : |q| < 2 ^ (53 + e))
    (h : q ≤ m * 2 ^ e) : nearest q ≤ m * 2 ^ e := by
  have hneg : ((-m : Int) : ℚ) * 2 ^ e ≤ nearest (-q) := by
    refine le_nearest he (by rwa [abs_neg]) ?_
    push_cast
    linarith
  rw [nearest_neg] at hneg
  push_cast at hneg
  linarith

theorem nearest_nonneg {q : ℚ} (hq : 0 ≤ q) : 0 ≤ nearest q := by
  have hpos := spacing_pos q
  have hint : 0 ≤ nearestInt (q / spacing q) := le_nearestInt (by push_cast; positivity)
  exact mul_nonneg (by exact_mod_cast hint) hpos.le

/-- A number with 53 significant bits is kept. -/
theorem nearest_eq_self {m e : Int} (he : -1074 ≤ e) (hm : |m| ≤ 2 ^ 53) :
    nearest (m * 2 ^ e) = m * 2 ^ e := by
  have hsmall : ∀ {n f : Int}, -1074 ≤ f → |n| < 2 ^ 53 →
      nearest (n * 2 ^ f) = n * 2 ^ f := by
    intro n f hf hn
    have hbound : |(n : ℚ) * 2 ^ f| < 2 ^ (53 + f) := by
      rw [abs_mul, abs_of_pos (zpow_pos (by norm_num : (0 : ℚ) < 2) f),
        zpow_add₀ (by norm_num)]
      refine mul_lt_mul_of_pos_right ?_ (zpow_pos (by norm_num) f)
      exact_mod_cast hn
    exact le_antisymm (nearest_le hf hbound le_rfl) (le_nearest hf hbound le_rfl)
  rcases hm.lt_or_eq with hlt | heq
  · exact hsmall he hlt
  · -- `2 ^ 53` itself is even: half of it at the next exponent
    obtain ⟨n, rfl⟩ : ∃ n, m = 2 * n := by
      rcases abs_choice m with habs | habs
      · exact ⟨2 ^ 52, by omega⟩
      · exact ⟨-2 ^ 52, by omega⟩
    have hshift : ((2 * n : Int) : ℚ) * 2 ^ e = n * 2 ^ (e + 1) := by
      rw [zpow_add_one₀ (by norm_num)]
      push_cast
      ring
    rw [abs_mul] at heq
    rw [hshift, hsmall (by omega) (by norm_num at heq ⊢; omega)]

theorem abs_nearestInt_le (q : ℚ) : |nearestInt (q / spacing q)| ≤ 2 ^ 53 := by
  have hpos := spacing_pos q
  have hlog : |q| < 2 ^ (Int.log 2 |q| + 1) := Int.lt_zpow_succ_log_self (by norm_num) _
  have hbound : |q| ≤ 2 ^ 53 * spacing q := by
    refine hlog.le.trans ?_
    have hexp : (2 : ℚ) ^ 53 * spacing q = 2 ^ (max (Int.log 2 |q|) (-1022) + 1) := by
      rw [spacing, ← zpow_natCast, ← zpow_add₀ (by norm_num)]
      congr 1
      push_cast
      ring
    rw [hexp]
    exact zpow_le_zpow_right₀ (by norm_num) (by omega)
  have hsides := abs_le.mp hbound
  refine abs_le.mpr ⟨le_nearestInt ?_, nearestInt_le ?_⟩
  · rw [le_div_iff₀ hpos]
    push_cast
    linarith
  · rw [div_le_iff₀ hpos]
    push_cast
    linarith

/-- Scaling by a power of two is exact. -/
theorem nearest_nearest_mul (q : ℚ) (s : Nat) :
    nearest (nearest q * 2 ^ s) = nearest q * 2 ^ s := by
  have hexp : nearest q * 2 ^ s = nearestInt (q / spacing q) *
      2 ^ (max (Int.log 2 |q|) (-1022) - 52 + s) := by
    rw [zpow_add₀ (by norm_num), zpow_natCast, ← mul_assoc]
    rfl
  rw [hexp]
  exact nearest_eq_self (by omega) (abs_nearestInt_le q)

/-! ### The integer part of a scaled number -/

section Scaled

variable {q : ℚ} {s : Nat}

theorem mul_zpow_neg_le_iff {m : Int} : m * 2 ^ (-s : Int) ≤ q ↔ (m : ℚ) ≤ q * 2 ^ s := by
  have hscale : (0 : ℚ) < 2 ^ s := by positivity
  rw [zpow_neg, zpow_natCast, ← div_eq_mul_inv, div_le_iff₀ hscale]

theorem le_mul_zpow_neg_iff {m : Int} : q ≤ m * 2 ^ (-s : Int) ↔ q * 2 ^ s ≤ (m : ℚ) := by
  have hscale : (0 : ℚ) < 2 ^ s := by positivity
  rw [zpow_neg, zpow_natCast, ← div_eq_mul_inv, le_div_iff₀ hscale]

theorem floor_le_floor_nearest (hs : s ≤ 1074) (hq : |q| < 2 ^ (53 + -s : Int)) :
    ⌊q * 2 ^ s⌋ ≤ ⌊nearest q * 2 ^ s⌋ := by
  have hfloor : (⌊q * 2 ^ s⌋ : ℚ) * 2 ^ (-s : Int) ≤ q :=
    mul_zpow_neg_le_iff.mpr (Int.floor_le _)
  exact Int.le_floor.mpr (mul_zpow_neg_le_iff.mp (le_nearest (by omega) hq hfloor))

theorem floor_nearest_le (hs : s ≤ 1074) (hq : |q| < 2 ^ (53 + -s : Int)) :
    ⌊nearest q * 2 ^ s⌋ ≤ ⌊q * 2 ^ s⌋ + 1 := by
  have hceil : q ≤ ((⌊q * 2 ^ s⌋ + 1 : Int) : ℚ) * 2 ^ (-s : Int) := by
    rw [le_mul_zpow_neg_iff]
    push_cast
    exact (Int.lt_floor_add_one _).le
  have hround := le_mul_zpow_neg_iff.mp (nearest_le (by omega) hq hceil)
  exact Int.floor_le_iff.mpr (lt_of_le_of_lt hround (lt_add_one _))

end Scaled

/-! ### The integer part of a scaled quotient -/

section Quotient

variable {n d s : Nat}

theorem natCast_div_mul_two_pow (hd : 0 < d) :
    (n : ℚ) / d * 2 ^ s = (n * 2 ^ s / d : Nat) + ((n * 2 ^ s % d : Nat) : ℚ) / d := by
  have hd' : (d : ℚ) ≠ 0 := Nat.cast_ne_zero.mpr hd.ne'
  have hsplit : ((n * 2 ^ s : Nat) : ℚ) = d * (n * 2 ^ s / d : Nat) + (n * 2 ^ s % d : Nat) := by
    exact_mod_cast (Nat.div_add_mod (n * 2 ^ s) d).symm
  push_cast at hsplit
  rw [div_mul_eq_mul_div, hsplit, add_div, mul_div_cancel_left₀ _ hd']

theorem floor_natCast_div_mul : ⌊(n : ℚ) / d * 2 ^ s⌋ = (n * 2 ^ s / d : Nat) := by
  have hcast : (n : ℚ) / d * 2 ^ s = ((n * 2 ^ s : Nat) : ℚ) / d := by
    push_cast
    ring
  rw [hcast, Rat.floor_natCast_div_natCast]
  rfl

theorem abs_natCast_div_lt (hd : 0 < d) (hs : s ≤ 53) (hlt : n < d * 2 ^ (53 - s)) :
    |(n : ℚ) / d| < 2 ^ (53 + -s : Int) := by
  have hd' : (0 : ℚ) < d := Nat.cast_pos.mpr hd
  have hexp : (53 + -s : Int) = ((53 - s : Nat) : Int) := by omega
  rw [abs_of_nonneg (by positivity), hexp, zpow_natCast, div_lt_iff₀ hd', mul_comm]
  exact_mod_cast hlt

theorem le_abs_natCast_div {k : Nat} {e : Int} (hn : 0 < n) (hd : 0 < d) (hbig : d ≤ 2 ^ k)
    (he : e ≤ -k) : 2 ^ e ≤ |(n : ℚ) / d| := by
  have hd' : (0 : ℚ) < d := Nat.cast_pos.mpr hd
  have hone : (1 : ℚ) ≤ n := Nat.one_le_cast.mpr hn
  have hbig' : (d : ℚ) ≤ 2 ^ k := by exact_mod_cast hbig
  calc (2 : ℚ) ^ e ≤ 2 ^ (-k : Int) := zpow_le_zpow_right₀ (by norm_num) he
    _ = 1 / 2 ^ k := by rw [zpow_neg, zpow_natCast, one_div]
    _ ≤ n / d := div_le_div₀ n.cast_nonneg hone hd' hbig'
    _ = |(n : ℚ) / d| := (abs_of_nonneg (by positivity)).symm

/-- The rounded quotient has the integer part of the exact one or the next integer. -/
theorem floor_nearest_div (hd : 0 < d) (hs : s ≤ 53) (hlt : n < d * 2 ^ (53 - s)) :
    ⌊nearest ((n : ℚ) / d) * 2 ^ s⌋ = (n * 2 ^ s / d : Nat) ∨
      ⌊nearest ((n : ℚ) / d) * 2 ^ s⌋ = (n * 2 ^ s / d : Nat) + 1 := by
  have hbound := abs_natCast_div_lt hd hs hlt
  have hlow := floor_le_floor_nearest (by omega) hbound
  have hhigh := floor_nearest_le (by omega) hbound
  rw [floor_natCast_div_mul] at hlow hhigh
  omega

/-- A quotient that is no integer is at least `1 / d` from the next one, and rounding moves
    it by less when the dividend is small. -/
theorem floor_nearest_div_eq {k : Nat} (hd : 0 < d) (hbig : d ≤ 2 ^ k) (hk : k ≤ 1022)
    (hs : s ≤ 53) (hlt : n < 2 ^ (53 - s)) :
    ⌊nearest ((n : ℚ) / d) * 2 ^ s⌋ = (n * 2 ^ s / d : Nat) := by
  have hn : n < d * 2 ^ (53 - s) := lt_of_lt_of_le hlt (Nat.le_mul_of_pos_left _ hd)
  have hlow := floor_le_floor_nearest (by omega) (abs_natCast_div_lt hd hs hn)
  rw [floor_natCast_div_mul] at hlow
  refine le_antisymm (Int.le_of_lt_add_one (Int.floor_lt.mpr ?_)) hlow
  rcases Nat.eq_zero_or_pos n with rfl | hpos
  · simp
  · have hd' : (0 : ℚ) < d := Nat.cast_pos.mpr hd
    have hquotient : (0 : ℚ) ≤ (n : ℚ) / d := by positivity
    have herror : nearest ((n : ℚ) / d) * 2 ^ s < (n : ℚ) / d * 2 ^ s + 1 / d := by
      have hround := (abs_le.mp (abs_nearest_sub_le_div (le_abs_natCast_div hpos hd hbig (by omega)))).2
      rw [abs_of_nonneg hquotient] at hround
      have hsmall : (n : ℚ) / d / 2 ^ 53 * 2 ^ s < 1 / d := by
        have hpow : (2 : ℚ) ^ 53 = 2 ^ (53 - s) * 2 ^ s := by
          rw [← pow_add, Nat.sub_add_cancel hs]
        have hcast : (n : ℚ) / 2 ^ (53 - s) < 1 := by
          rw [div_lt_one (by positivity)]
          exact_mod_cast hlt
        calc (n : ℚ) / d / 2 ^ 53 * 2 ^ s = n / 2 ^ (53 - s) / d := by
              rw [hpow]
              field_simp
          _ < 1 / d := div_lt_div_of_pos_right hcast hd'
      have hscaled := mul_le_mul_of_nonneg_right hround (by positivity : (0 : ℚ) ≤ 2 ^ s)
      linarith
    have hrest : ((n * 2 ^ s % d : Nat) : ℚ) / d + 1 / d ≤ 1 := by
      rw [← add_div, div_le_one hd']
      exact_mod_cast Nat.mod_lt _ hd
    rw [natCast_div_mul_two_pow hd] at herror
    rw [Int.cast_add, Int.cast_natCast, Int.cast_one]
    linarith

end Quotient

/-! ### Rounding a scaled decimal to an integer -/

theorem abs_nearest_mul_sub_le {q : ℚ} {c : Nat} (hc : 0 < c) (hq : 2 ^ (-1021 : Int) ≤ |q|) :
    |nearest (nearest q * c) - q * c| ≤ |q| * c / 2 ^ 51 := by
  have hc' : (1 : ℚ) ≤ c := Nat.one_le_cast.mpr hc
  have hpow : (2 : ℚ) ^ (-1021 : Int) = 2 * 2 ^ (-1022 : Int) := by
    rw [← zpow_one_add₀ (by norm_num)]
    rfl
  have hpos : (0 : ℚ) < 2 ^ (-1022 : Int) := zpow_pos (by norm_num) _
  have hfirst : |nearest q - q| ≤ |q| / 2 ^ 53 := abs_nearest_sub_le_div (by linarith)
  have hlow : |q| / 2 ≤ |nearest q| := by
    have htriangle := abs_sub_abs_le_abs_sub q (nearest q)
    rw [abs_sub_comm] at htriangle
    linarith
  have hhigh : |nearest q| ≤ 2 * |q| := by
    have htriangle := abs_sub_abs_le_abs_sub (nearest q) q
    linarith
  have hsecond : |nearest (nearest q * c) - nearest q * c| ≤ |nearest q * c| / 2 ^ 53 := by
    refine abs_nearest_sub_le_div ?_
    rw [abs_mul, abs_of_pos (by linarith : (0 : ℚ) < c)]
    have hgrow := le_mul_of_one_le_right (abs_nonneg (nearest q)) hc'
    linarith
  have hscaled : |nearest q * c - q * c| ≤ |q| * c / 2 ^ 53 := by
    rw [← sub_mul, abs_mul, abs_of_pos (by linarith : (0 : ℚ) < c)]
    have hmul := mul_le_mul_of_nonneg_right hfirst (by linarith : (0 : ℚ) ≤ c)
    linarith
  have hproduct : |nearest q * c| ≤ 2 * (|q| * c) := by
    rw [abs_mul, abs_of_pos (by linarith : (0 : ℚ) < c)]
    have hmul := mul_le_mul_of_nonneg_right hhigh (by linarith : (0 : ℚ) ≤ c)
    linarith
  have htotal := abs_sub_le (nearest (nearest q * c)) (nearest q * c) (q * c)
  have hnonneg : 0 ≤ |q| * c := by positivity
  linarith

/-- A number of `1 / (c * D)` read and scaled by `c` is rounded to one of the integers
    nearest to the exact product. -/
theorem two_mul_abs_nearestInt_le {k c D e : Nat} (hc : 0 < c) (hD : 0 < D)
    (hbig : c * D ≤ 2 ^ e) (he : e ≤ 1021) (hk : k < 2 ^ 50) :
    2 * |D * nearestInt (nearest (nearest ((k : ℚ) / (c * D : Nat)) * c)) - k| ≤ (D : Int) := by
  have hc' : (0 : ℚ) < c := Nat.cast_pos.mpr hc
  have hD' : (0 : ℚ) < D := Nat.cast_pos.mpr hD
  have hexact : (k : ℚ) / (c * D : Nat) * c = k / D := by
    push_cast
    field_simp
  rcases Nat.eq_zero_or_pos k with rfl | hpos
  · have hzero : nearestInt 0 = 0 := nearestInt_intCast 0
    simp [hzero]
  set z := nearest (nearest ((k : ℚ) / (c * D : Nat)) * c) with hz
  have hscaled : |z - k / D| ≤ k / D / 2 ^ 51 := by
    have hle := abs_nearest_mul_sub_le hc
      (le_abs_natCast_div (e := -1021) hpos (Nat.mul_pos hc hD) hbig (by omega))
    have hnonneg : (0 : ℚ) ≤ (k : ℚ) / (c * D : Nat) := by positivity
    rwa [abs_of_nonneg hnonneg, hexact] at hle
  have hround := (isNearestInt_nearestInt z).close
  have htotal : |(nearestInt z : ℚ) - k / D| ≤ 1 / 2 + k / D / 2 ^ 51 :=
    (abs_sub_le _ z _).trans (add_le_add hround hscaled)
  have hmul : |(D : ℚ) * nearestInt z - k| ≤ D / 2 + k / 2 ^ 51 := by
    have hfactor : (D : ℚ) * nearestInt z - k = D * (nearestInt z - k / D) := by
      field_simp
    rw [hfactor, abs_mul, abs_of_pos hD']
    calc (D : ℚ) * |(nearestInt z : ℚ) - k / D| ≤ D * (1 / 2 + k / D / 2 ^ 51) :=
          mul_le_mul_of_nonneg_left htotal hD'.le
      _ = D / 2 + k / 2 ^ 51 := by field_simp
  have hk' : (k : ℚ) < 2 ^ 50 := by exact_mod_cast hk
  have hlt : ((2 * |D * nearestInt z - k| : Int) : ℚ) < (D + 1 : Int) := by
    push_cast
    linarith
  have := Int.cast_lt.mp hlt
  omega

end FeedHandler.Binary64
