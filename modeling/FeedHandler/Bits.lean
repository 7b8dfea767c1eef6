import Mathlib.Algebra.GroupWithZero.Nat
import Mathlib.Data.List.OfFn
import Mathlib.Tactic.Common

/-!
# Ranges of bits and little-endian bytes

Writing a field into a range of a word, reading it back, arithmetic on words widened
far enough for the result, and the bytes of a word least significant first.  Words and
fields have any width.
-/

namespace FeedHandler.Bits

variable {w n m : Nat}

/-- The word with `v` written at bits `lo + n - 1` down to `lo`. -/
def setRange (word : BitVec w) (lo : Nat) (v : BitVec n) : BitVec w :=
  (word &&& ~~~((BitVec.allOnes n).setWidth w <<< lo)) ||| (v.setWidth w <<< lo)

theorem getLsbD_setRange (word : BitVec w) {lo : Nat} (v : BitVec n) (hfit : lo + n ≤ w)
    (i : Nat) :
    (setRange word lo v).getLsbD i =
      if lo ≤ i ∧ i < lo + n then v.getLsbD (i - lo) else word.getLsbD i := by
  simp only [setRange, BitVec.getLsbD_or, BitVec.getLsbD_and, BitVec.getLsbD_not,
    BitVec.getLsbD_shiftLeft, BitVec.getLsbD_setWidth, BitVec.getLsbD_allOnes]
  by_cases hlow : i < lo
  · have hout : ¬ (lo ≤ i ∧ i < lo + n) := by omega
    have hlt : i < w := by omega
    simp [hlow, hout, hlt]
  · by_cases hhigh : i < lo + n
    · have hin : lo ≤ i ∧ i < lo + n := by omega
      have hlt : i < w ∧ i - lo < w ∧ i - lo < n := by omega
      simp [hlow, hin, hlt]
    · have hout : ¬ (lo ≤ i ∧ i < lo + n) := by omega
      have hpast : ¬ i - lo < n := by omega
      have hzero : v.getLsbD (i - lo) = false := BitVec.getLsbD_of_ge _ _ (by omega)
      by_cases hlt : i < w
      · simp [hlow, hout, hpast, hlt, hzero]
      · simp [hout, hlt, BitVec.getLsbD_of_ge word i (by omega)]

theorem extract_setRange_self (word : BitVec w) {lo : Nat} (v : BitVec n) (hfit : lo + n ≤ w) :
    (setRange word lo v).extractLsb' lo n = v := by
  apply BitVec.eq_of_getLsbD_eq
  intro i hi
  rw [BitVec.getLsbD_extractLsb', getLsbD_setRange word v hfit,
    if_pos ⟨Nat.le_add_right _ _, Nat.add_lt_add_left hi _⟩, Nat.add_sub_cancel_left]
  simp [hi]

theorem extract_setRange_other (word : BitVec w) {lo start : Nat} (v : BitVec n)
    (hfit : lo + n ≤ w) (hapart : start + m ≤ lo ∨ lo + n ≤ start) :
    (setRange word lo v).extractLsb' start m = word.extractLsb' start m := by
  apply BitVec.eq_of_getLsbD_eq
  intro i hi
  rw [BitVec.getLsbD_extractLsb', BitVec.getLsbD_extractLsb', getLsbD_setRange word v hfit,
    if_neg (by omega)]

/-! ### Widened words -/

section Widened

variable (x : BitVec m) (y : BitVec n)

theorem toNat_highBits (k : Nat) : (x >>> k).toNat = x.toNat / 2 ^ k := by
  rw [BitVec.toNat_ushiftRight, Nat.shiftRight_eq_div_pow]

theorem two_mul_toNat_lt (hlt : m < w) : 2 * x.toNat < 2 ^ w := by
  calc 2 * x.toNat < 2 * 2 ^ m := Nat.mul_lt_mul_of_pos_left x.isLt Nat.two_pos
    _ = 2 ^ (m + 1) := by rw [Nat.pow_succ, Nat.mul_comm]
    _ ≤ 2 ^ w := Nat.pow_le_pow_right Nat.two_pos hlt

/-- A sum fits one bit more than the wider summand. -/
theorem toNat_add_widened (hm : m < w) (hn : n < w) :
    (x.setWidth w + y.setWidth w).toNat = x.toNat + y.toNat := by
  have hx := two_mul_toNat_lt x hm
  have hy := two_mul_toNat_lt y hn
  rw [BitVec.toNat_add, BitVec.toNat_setWidth_of_le (Nat.le_of_lt hm),
    BitVec.toNat_setWidth_of_le (Nat.le_of_lt hn), Nat.mod_eq_of_lt (by omega)]

/-- A product fits the widths of its factors together. -/
theorem toNat_mul_widened (hfit : m + n ≤ w) :
    (x.setWidth w * y.setWidth w).toNat = x.toNat * y.toNat := by
  have hlt : x.toNat * y.toNat < 2 ^ w :=
    calc x.toNat * y.toNat < 2 ^ m * 2 ^ n := Nat.mul_lt_mul'' x.isLt y.isLt
      _ = 2 ^ (m + n) := (Nat.pow_add 2 m n).symm
      _ ≤ 2 ^ w := Nat.pow_le_pow_right Nat.two_pos hfit
  rw [BitVec.toNat_mul, BitVec.toNat_setWidth_of_le (by omega),
    BitVec.toNat_setWidth_of_le (by omega), Nat.mod_eq_of_lt hlt]

theorem toNat_shiftLeft_widened {k : Nat} (hfit : m + k ≤ w) :
    (x.setWidth w <<< k).toNat = x.toNat * 2 ^ k := by
  have hlt : x.toNat * 2 ^ k < 2 ^ w :=
    calc x.toNat * 2 ^ k < 2 ^ m * 2 ^ k :=
          Nat.mul_lt_mul_of_pos_right x.isLt (Nat.two_pow_pos k)
      _ = 2 ^ (m + k) := (Nat.pow_add 2 m k).symm
      _ ≤ 2 ^ w := Nat.pow_le_pow_right Nat.two_pos hfit
  rw [BitVec.toNat_shiftLeft, BitVec.toNat_setWidth_of_le (by omega), Nat.shiftLeft_eq,
    Nat.mod_eq_of_lt hlt]

/-- A wider word read as signed: its top bit is clear. -/
theorem toInt_widened (hlt : m < w) : (x.setWidth w).toInt = (x.toNat : Int) := by
  have hnat := BitVec.toNat_setWidth_of_le (b := x) (Nat.le_of_lt hlt)
  have hhalf := two_mul_toNat_lt x hlt
  rw [← hnat] at hhalf
  rw [BitVec.toInt_eq_toNat_of_lt hhalf, hnat]

/-- The signed difference of two unsigned words. -/
theorem toInt_sub_widened (hm : m < w) (hn : n < w) :
    (x.setWidth w - y.setWidth w).toInt = (x.toNat : Int) - (y.toNat : Int) := by
  have hx := two_mul_toNat_lt x hm
  have hy := two_mul_toNat_lt y hn
  rw [BitVec.toInt_sub, toInt_widened x hm, toInt_widened y hn]
  -- both operands lie in the non-negative half of the signed range
  exact Int.bmod_eq_of_le (by omega) (by omega)

end Widened

/-! ### Single bits -/

/-- Setting a clear bit. -/
theorem setRange_bit_eq_or (word : BitVec w) {i : Nat} (hi : i < w)
    (hclear : word.getLsbD i = false) (b : Bool) :
    setRange word i (BitVec.ofBool b) = word ||| (BitVec.ofBool b).setWidth w <<< i := by
  apply BitVec.eq_of_getLsbD_eq
  intro j hj
  rw [getLsbD_setRange word _ (by omega)]
  simp only [BitVec.getLsbD_or, BitVec.getLsbD_shiftLeft, BitVec.getLsbD_setWidth]
  by_cases hji : j = i
  · subst hji
    have hpos : 0 < w := by omega
    rw [hclear]
    simp [hj, hpos]
  · have hout : ¬ (i ≤ j ∧ j < i + 1) := by omega
    rw [if_neg hout]
    by_cases hlt : j < i
    · simp [hlt]
    · have hzero : (BitVec.ofBool b).getLsbD (j - i) = false :=
        BitVec.getLsbD_of_ge _ _ (by omega)
      simp [hlt, hzero]

theorem toNat_ofBool_widened (hw : 0 < w) (b : Bool) :
    ((BitVec.ofBool b).setWidth w).toNat = b.toNat := by
  rw [BitVec.toNat_setWidth_of_le hw, BitVec.toNat_ofBool]

theorem toNat_ofBool_shifted {i : Nat} (hi : i < w) (b : Bool) :
    ((BitVec.ofBool b).setWidth w <<< i).toNat = b.toNat * 2 ^ i := by
  rw [toNat_shiftLeft_widened _ (by omega), BitVec.toNat_ofBool]

/-- The weight of bit `i` stays below that of bit `i + 1`. -/
theorem weight_lt (b : Bool) (i : Nat) : b.toNat * 2 ^ i < 2 ^ (i + 1) := by
  calc b.toNat * 2 ^ i < 2 * 2 ^ i :=
        Nat.mul_lt_mul_of_pos_right (Bool.toNat_lt b) (Nat.two_pow_pos i)
    _ = 2 ^ (i + 1) := by rw [Nat.pow_succ, Nat.mul_comm]

/-! ### Little-endian bytes -/

/-- The `k` low bytes of a word, least significant first. -/
def bytesLE (k : Nat) (x : BitVec w) : List (BitVec 8) :=
  List.ofFn fun i : Fin k => x.extractLsb' (8 * i.val) 8

@[simp] theorem length_bytesLE (k : Nat) (x : BitVec w) : (bytesLE k x).length = k := by
  simp [bytesLE]

theorem bytesLE_four (x : BitVec w) :
    bytesLE 4 x = [x.extractLsb' 0 8, x.extractLsb' 8 8, x.extractLsb' 16 8,
      x.extractLsb' 24 8] := by
  simp [bytesLE, List.ofFn_succ]

theorem extract_extract (x : BitVec w) {lo start : Nat} (h : start + m ≤ n) :
    (x.extractLsb' lo n).extractLsb' start m = x.extractLsb' (lo + start) m := by
  apply BitVec.eq_of_getLsbD_eq
  intro i hi
  have hin : start + i < n := by omega
  simp [hi, hin, Nat.add_assoc]

theorem bytesLE_eight (x : BitVec w) :
    bytesLE 8 x = bytesLE 4 (x.extractLsb' 0 32) ++ bytesLE 4 (x.extractLsb' 32 32) := by
  simp [bytesLE, List.ofFn_succ, extract_extract]

/-- The value of a byte string read least significant byte first. -/
def valueLE : List (BitVec 8) → Nat
  | [] => 0
  | byte :: bytes => byte.toNat + 2 ^ 8 * valueLE bytes

theorem bytesLE_succ (k : Nat) (x : BitVec w) :
    bytesLE (k + 1) x = x.extractLsb' 0 8 :: bytesLE k (x >>> 8) := by
  have hrest : ∀ i : Fin k, x.extractLsb' (8 * i.succ.val) 8 =
      (x >>> 8).extractLsb' (8 * i.val) 8 := by
    intro i
    apply BitVec.eq_of_getLsbD_eq
    intro j hj
    have hindex : 8 * i.succ.val + j = 8 + (8 * i.val + j) := by
      rw [Fin.val_succ]
      omega
    simp only [BitVec.getLsbD_extractLsb', BitVec.getLsbD_ushiftRight, hindex]
  rw [bytesLE, List.ofFn_succ]
  exact congrArg (_ :: ·) (congrArg List.ofFn (funext hrest))

theorem toNat_lowByte (x : BitVec w) : (x.extractLsb' 0 8).toNat = x.toNat % 2 ^ 8 := by
  rw [BitVec.extractLsb'_toNat, Nat.shiftRight_zero]

theorem valueLE_bytesLE (k : Nat) (x : BitVec w) :
    valueLE (bytesLE k x) = x.toNat % 2 ^ (8 * k) := by
  induction k generalizing x with
  | zero => simp [bytesLE, valueLE, Nat.mod_one]
  | succ k ih =>
    have hpow : 2 ^ (8 * (k + 1)) = 2 ^ 8 * 2 ^ (8 * k) := by
      rw [← Nat.pow_add, Nat.mul_succ, Nat.add_comm]
    rw [bytesLE_succ, valueLE, ih, toNat_lowByte, toNat_highBits, hpow, Nat.mod_mul]

theorem bytesLE_eq_of_value {bytes : List (BitVec 8)} {x : BitVec w}
    (h : x.toNat = valueLE bytes) : bytesLE bytes.length x = bytes := by
  induction bytes generalizing x with
  | nil => rfl
  | cons byte bytes ih =>
    have hlt := byte.isLt
    rw [valueLE] at h
    have hlow : x.extractLsb' 0 8 = byte := by
      apply BitVec.eq_of_toNat_eq
      rw [toNat_lowByte]
      omega
    have hhigh : (x >>> 8).toNat = valueLE bytes := by
      rw [toNat_highBits]
      omega
    rw [List.length_cons, bytesLE_succ, hlow, ih hhigh]

theorem valueLE_lt (bytes : List (BitVec 8)) : valueLE bytes < 2 ^ (8 * bytes.length) := by
  induction bytes with
  | nil => exact Nat.one_pos
  | cons byte bytes ih =>
    have hlt := byte.isLt
    have hpow : 2 ^ (8 * (bytes.length + 1)) = 2 ^ 8 * 2 ^ (8 * bytes.length) := by
      rw [← Nat.pow_add, Nat.mul_succ, Nat.add_comm]
    rw [valueLE, List.length_cons, hpow]
    omega

/-- A value determines its bytes. -/
theorem valueLE_injective {bytes bytes' : List (BitVec 8)} (hlen : bytes.length = bytes'.length)
    (h : valueLE bytes = valueLE bytes') : bytes = bytes' := by
  induction bytes generalizing bytes' with
  | nil => exact (List.eq_nil_of_length_eq_zero hlen.symm).symm
  | cons byte bytes ih =>
    cases bytes' with
    | nil => exact absurd hlen (Nat.succ_ne_zero _)
    | cons byte' bytes' =>
      have hlt := byte.isLt
      have hlt' := byte'.isLt
      rw [valueLE, valueLE] at h
      have hbyte : byte = byte' := BitVec.eq_of_toNat_eq (by omega)
      rw [hbyte, ih (Nat.succ.inj hlen) (by omega)]

/-- Any string of `k` bytes is that of a word of `8 * k` bits. -/
theorem exists_bytesLE {k : Nat} {bytes : List (BitVec 8)} (hlen : bytes.length = k) :
    ∃ x : BitVec (8 * k), bytesLE k x = bytes := by
  subst hlen
  refine ⟨BitVec.ofNat _ (valueLE bytes), bytesLE_eq_of_value ?_⟩
  rw [BitVec.toNat_ofNat, Nat.mod_eq_of_lt (valueLE_lt bytes)]

end FeedHandler.Bits
