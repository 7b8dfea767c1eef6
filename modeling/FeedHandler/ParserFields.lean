import FeedHandler.Parser

/-!
# What the parser computes

The value of each piece of `feed_parser`: the reciprocal multiply is the division
by 100, the little-endian reads undo the byte order of the wire, the packed word
reads back field by field, and one pass over the 22 bytes of a message gives the
word of its normalized fields.
-/

namespace FeedHandler.Parser

open Bits

/-! ### Division by 100 -/

theorem toNat_product (a b : BitVec 32) :
    (a.setWidth 64 * b.setWidth 64).toNat = a.toNat * b.toNat :=
  toNat_mul_widened a b (by decide)

theorem toNat_mid_sum (a b c : BitVec 64) :
    (a.setWidth 66 + b.setWidth 66 + (c >>> 32).setWidth 66).toNat =
      a.toNat + b.toNat + c.toNat / 2 ^ 32 := by
  have ha := a.isLt
  have hb := b.isLt
  have hc := c.isLt
  rw [BitVec.toNat_add, toNat_add_widened a b (by decide) (by decide), BitVec.toNat_setWidth,
    toNat_highBits]
  omega

/-- The four partial products of `x * M'`, put together. -/
theorem mulhi_split (x : Nat) :
    x / 2 ^ 32 * 0x47AE147A + (x / 2 ^ 32 * 0xE147AE15 + x % 2 ^ 32 * 0x47AE147A +
      x % 2 ^ 32 * 0xE147AE15 / 2 ^ 32) / 2 ^ 32 = x * 0x47AE147AE147AE15 / 2 ^ 64 := by
  omega

/-- The reciprocal is close enough for every 64-bit dividend. -/
theorem reciprocal_exact {x : Nat} (hx : x < 2 ^ 64) :
    (x * 0x47AE147AE147AE15 / 2 ^ 64 + (x - x * 0x47AE147AE147AE15 / 2 ^ 64) / 2) / 2 ^ 6 =
      x / 100 := by
  omega

theorem toNat_mh : mh.toNat = 0x47AE147A := rfl

theorem toNat_ml : ml.toNat = 0xE147AE15 := rfl

section Div100

variable (x : BitVec 64)

theorem toNat_high : (x.extractLsb' 32 32).toNat = x.toNat / 2 ^ 32 := by
  have hx : x.toNat / 2 ^ 32 < 2 ^ 32 := Nat.div_lt_of_lt_mul x.isLt
  rw [BitVec.extractLsb'_toNat, Nat.shiftRight_eq_div_pow, Nat.mod_eq_of_lt hx]

theorem toNat_low : (x.extractLsb' 0 32).toNat = x.toNat % 2 ^ 32 := by
  rw [BitVec.extractLsb'_toNat, Nat.shiftRight_zero]

theorem toNat_hh : (div100Steps x).hh.toNat = x.toNat / 2 ^ 32 * 0x47AE147A := by
  rw [← toNat_mh, ← toNat_high, ← toNat_product, div100Steps]

theorem toNat_hl : (div100Steps x).hl.toNat = x.toNat / 2 ^ 32 * 0xE147AE15 := by
  rw [← toNat_ml, ← toNat_high, ← toNat_product, div100Steps]

theorem toNat_lh : (div100Steps x).lh.toNat = x.toNat % 2 ^ 32 * 0x47AE147A := by
  rw [← toNat_mh, ← toNat_low, ← toNat_product, div100Steps]

theorem toNat_ll : (div100Steps x).ll.toNat = x.toNat % 2 ^ 32 * 0xE147AE15 := by
  rw [← toNat_ml, ← toNat_low, ← toNat_product, div100Steps]

theorem toNat_mid :
    (div100Steps x).mid.toNat =
      (div100Steps x).hl.toNat + (div100Steps x).lh.toNat +
        (div100Steps x).ll.toNat / 2 ^ 32 := by
  have hmid : (div100Steps x).mid = (div100Steps x).hl.setWidth 66 +
      (div100Steps x).lh.setWidth 66 + ((div100Steps x).ll >>> 32).setWidth 66 := by
    simp only [div100Steps]
  rw [hmid, toNat_mid_sum]

/-- The high words add up to the high word of `x * M'`. -/
theorem hh_add_mid :
    (div100Steps x).hh.toNat + (div100Steps x).mid.toNat / 2 ^ 32 =
      x.toNat * 0x47AE147AE147AE15 / 2 ^ 64 := by
  rw [toNat_mid, toNat_hh, toNat_hl, toNat_lh, toNat_ll]
  exact mulhi_split x.toNat

/-- `t` is the high word of `x * M'`. -/
theorem toNat_t : (div100Steps x).t.toNat = x.toNat * 0x47AE147AE147AE15 / 2 ^ 64 := by
  have ht : (div100Steps x).t =
      (div100Steps x).hh + ((div100Steps x).mid >>> 32).setWidth 64 := by
    simp only [div100Steps]
  have hbound : x.toNat * 0x47AE147AE147AE15 / 2 ^ 64 < 2 ^ 64 := by
    have hx := x.isLt
    omega
  have hmid : (div100Steps x).mid.toNat / 2 ^ 32 < 2 ^ 64 := by
    have hlt := (div100Steps x).mid.isLt
    omega
  rw [ht, BitVec.toNat_add, BitVec.toNat_setWidth, toNat_highBits, Nat.mod_eq_of_lt hmid,
    hh_add_mid, Nat.mod_eq_of_lt hbound]

theorem t_le : (div100Steps x).t.toNat ≤ x.toNat := by
  rw [toNat_t]
  omega

theorem toNat_diff : (div100Steps x).diff.toNat = x.toNat - (div100Steps x).t.toNat := by
  have hx := x.isLt
  have ht := t_le x
  have hdiff : (div100Steps x).diff = x.setWidth 65 - ((div100Steps x).t).setWidth 65 := by
    simp only [div100Steps]
  rw [hdiff, BitVec.toNat_sub, BitVec.toNat_setWidth, BitVec.toNat_setWidth]
  omega

theorem toNat_sum :
    (div100Steps x).sum.toNat =
      (div100Steps x).t.toNat + (x.toNat - (div100Steps x).t.toNat) / 2 := by
  have hx := x.isLt
  have ht := t_le x
  have hsum : (div100Steps x).sum = ((div100Steps x).t).setWidth 66 +
      (((div100Steps x).diff).sshiftRight 1).signExtend 66 := by
    simp only [div100Steps]
  have hmsb : (div100Steps x).diff.msb = false := by
    rw [BitVec.msb_eq_false_iff_two_mul_lt, toNat_diff]
    omega
  have hhalf : ((div100Steps x).diff >>> 1).msb = false := by
    rw [BitVec.msb_eq_false_iff_two_mul_lt, toNat_highBits, toNat_diff]
    omega
  rw [hsum, BitVec.sshiftRight_eq_of_msb_false hmsb,
    BitVec.signExtend_eq_setWidth_of_msb_false hhalf,
    toNat_add_widened _ _ (by decide) (by decide), toNat_highBits, toNat_diff]
  omega

theorem toNat_q : (div100Steps x).q.toNat = (div100Steps x).sum.toNat / 2 ^ 6 := by
  have hx := x.isLt
  have hsum : (div100Steps x).sum.toNat ≤ x.toNat := by
    rw [toNat_sum]
    have ht := t_le x
    omega
  have hmsb : (div100Steps x).sum.msb = false := by
    rw [BitVec.msb_eq_false_iff_two_mul_lt]
    omega
  have hq : (div100Steps x).q = (((div100Steps x).sum).sshiftRight 6).setWidth 64 := by
    simp only [div100Steps]
  have hlt : (div100Steps x).sum.toNat / 2 ^ 6 < 2 ^ 64 := by omega
  rw [hq, BitVec.sshiftRight_eq_of_msb_false hmsb, BitVec.toNat_setWidth, toNat_highBits,
    Nat.mod_eq_of_lt hlt]

/-- **The reciprocal multiply divides by 100.** -/
theorem toNat_parserDiv100 : (parserDiv100 x).toNat = x.toNat / 100 := by
  rw [parserDiv100, toNat_q, toNat_sum, toNat_t]
  exact reciprocal_exact x.isLt

/-- No intermediate value of `parser_div100` leaves its width, and the quotient is exact. -/
structure Div100Exact (x : BitVec 64) : Prop where
  hh : (div100Steps x).hh.toNat = x.toNat / 2 ^ 32 * mh.toNat
  hl : (div100Steps x).hl.toNat = x.toNat / 2 ^ 32 * ml.toNat
  lh : (div100Steps x).lh.toNat = x.toNat % 2 ^ 32 * mh.toNat
  ll : (div100Steps x).ll.toNat = x.toNat % 2 ^ 32 * ml.toNat
  mid : (div100Steps x).mid.toNat =
    (div100Steps x).hl.toNat + (div100Steps x).lh.toNat + (div100Steps x).ll.toNat / 2 ^ 32
  /-- The 64-bit addition does not wrap. -/
  t : (div100Steps x).t.toNat = (div100Steps x).hh.toNat + (div100Steps x).mid.toNat / 2 ^ 32
  t_eq : (div100Steps x).t.toNat = x.toNat * 0x47AE147AE147AE15 / 2 ^ 64
  t_le : (div100Steps x).t.toNat ≤ x.toNat
  /-- The difference is not negative, as a signed word. -/
  diff : (div100Steps x).diff.toInt = (x.toNat - (div100Steps x).t.toNat : Nat)
  sum : (div100Steps x).sum.toInt =
    ((div100Steps x).t.toNat + (x.toNat - (div100Steps x).t.toNat) / 2 : Nat)
  q : (div100Steps x).q.toNat =
    ((div100Steps x).t.toNat + (x.toNat - (div100Steps x).t.toNat) / 2) / 2 ^ 6
  q_eq : (parserDiv100 x).toNat = x.toNat / 100

/-- **`parser_div100` is exact** for every 64-bit dividend. -/
theorem div100Exact : Div100Exact x where
  hh := toNat_hh x
  hl := toNat_hl x
  lh := toNat_lh x
  ll := toNat_ll x
  mid := toNat_mid x
  t := (toNat_t x).trans (hh_add_mid x).symm
  t_eq := toNat_t x
  t_le := t_le x
  diff := by
    have hx := x.isLt
    rw [BitVec.toInt_eq_toNat_of_lt, toNat_diff]
    rw [toNat_diff]
    omega
  sum := by
    have hx := x.isLt
    have ht := t_le x
    rw [BitVec.toInt_eq_toNat_of_lt, toNat_sum]
    rw [toNat_sum]
    omega
  q := by rw [toNat_q, toNat_sum]
  q_eq := toNat_parserDiv100 x

end Div100

/-- Both branches of the preprocessor divide by the tick size. -/
theorem toNat_priceTicks (tick : TickSize) (price_r : BitVec 64) :
    (priceTicks tick price_r).toNat = price_r.toNat / tick.value.toNat := by
  unfold priceTicks
  split_ifs with hhundred
  · rw [toNat_parserDiv100, hhundred]
    rfl
  · exact BitVec.toNat_udiv

/-! ### Fields of a message -/

theorem le32_bytesLE (x : BitVec 32) (rest : List (BitVec 8)) :
    le32 (bytesLE 4 x ++ rest) = x := by
  apply BitVec.eq_of_getLsbD_eq
  intro i hi
  simp only [le32, bytesLE_four, List.cons_append, List.getD_cons_zero, List.getD_cons_succ,
    BitVec.getLsbD_or, BitVec.getLsbD_shiftLeft, BitVec.getLsbD_setWidth,
    BitVec.getLsbD_extractLsb']
  -- bit `i` comes from byte `i / 8` and no other
  have hbyte : i / 8 = 0 ∨ i / 8 = 1 ∨ i / 8 = 2 ∨ i / 8 = 3 := by omega
  grind

theorem le64_bytesLE (x : BitVec 64) (rest : List (BitVec 8)) :
    le64 (bytesLE 8 x ++ rest) = x := by
  have hlow : le32 (bytesLE 8 x ++ rest) = x.extractLsb' 0 32 := by
    rw [bytesLE_eight, List.append_assoc, le32_bytesLE]
  have hhigh : le32 ((bytesLE 8 x ++ rest).drop 4) = x.extractLsb' 32 32 := by
    rw [bytesLE_eight, List.append_assoc, List.drop_left' (length_bytesLE _ _), le32_bytesLE]
  apply BitVec.eq_of_getLsbD_eq
  intro i hi
  simp only [le64, hlow, hhigh, BitVec.getLsbD_or, BitVec.getLsbD_shiftLeft,
    BitVec.getLsbD_setWidth, BitVec.getLsbD_extractLsb']
  by_cases hhalf : i < 32
  · simp [hhalf, hi]
  · have hback : 32 + (i - 32) = i := by omega
    have hin : i - 32 < 64 ∧ i - 32 < 32 := by omega
    simp [hhalf, hi, hback, hin]

@[simp] theorem length_encodeMsg (m : RawMsg) : (encodeMsg m).length = RAW_MSG_BYTES := by
  simp [encodeMsg, RAW_MSG_BYTES]

/-- The types the order book is told about. -/
def RawMsg.known (m : RawMsg) : Bool :=
  m.msg_type == ADD || m.msg_type == UPDATE || m.msg_type == DELETE

/-- The normalized fields of a message at a tick size. -/
def RawMsg.normAt (tick : TickSize) (m : RawMsg) : NormMsg where
  price := (priceTicks tick m.price_raw).setWidth 32
  size := if m.msg_type = DELETE then 0 else m.size_raw.setWidth 32
  side := (m.side &&& 1).setWidth 1
  seq_num := m.seq_num

def RawMsg.norm (m : RawMsg) : NormMsg := m.normAt defaultTickSize

/-- **One pass of the loop** on the bytes of a message. -/
theorem parseMsgAt_encodeMsg (tick : TickSize) (m : RawMsg) :
    parseMsgAt tick (encodeMsg m) =
      if m.known then some (packNorm (m.normAt tick)) else none := by
  have hseq : le32 ((encodeMsg m).drop 2) = m.seq_num := by
    simp only [encodeMsg, List.append_assoc]
    exact le32_bytesLE _ _
  have hprice : le64 ((encodeMsg m).drop 6) = m.price_raw := by
    have hsplit : encodeMsg m = ([m.msg_type, m.side] ++ bytesLE 4 m.seq_num) ++
        (bytesLE 8 m.price_raw ++ bytesLE 8 m.size_raw) := by
      simp [encodeMsg]
    rw [hsplit, List.drop_left' (by simp)]
    exact le64_bytesLE _ _
  have hsize : le64 ((encodeMsg m).drop 14) = m.size_raw := by
    have hlen : ([m.msg_type, m.side] ++ bytesLE 4 m.seq_num ++ bytesLE 8 m.price_raw).length =
        14 := by simp
    have hread := le64_bytesLE m.size_raw []
    rw [List.append_nil] at hread
    rw [encodeMsg, List.drop_left' hlen]
    exact hread
  unfold parseMsgAt
  simp only [hseq, hprice, hsize]
  simp only [encodeMsg, List.append_assoc, List.cons_append, List.getD_cons_zero,
    List.getD_cons_succ, RawMsg.known, Bool.or_eq_true, beq_iff_eq, or_assoc]
  rfl

/-- The bits of the stream word that the order book is wired to. -/
def bookWord (w : AxisWord) : OrderBook.Word 32 32 := w.extractLsb' 0 97

/-- The packed fields read back through the order book's slices, and the padding is 0. -/
theorem decode_packNorm (m : NormMsg) :
    OrderBook.decode (bookWord (packNorm m)) true =
      { price := m.price, size := m.size, side := m.side, seqNum := m.seq_num, valid := true } ∧
    (packNorm m).extractLsb' 97 31 = 0 := by
  have hprice : (bookWord (packNorm m)).extractLsb' 0 32 = m.price := by
    rw [bookWord, extract_extract _ (by decide), packNorm]
    rw [extract_setRange_other _ _ (by decide) (by decide),
      extract_setRange_other _ _ (by decide) (by decide),
      extract_setRange_other _ _ (by decide) (by decide)]
    exact extract_setRange_self _ _ (by decide)
  have hsize : (bookWord (packNorm m)).extractLsb' 32 32 = m.size := by
    rw [bookWord, extract_extract _ (by decide), packNorm]
    rw [extract_setRange_other _ _ (by decide) (by decide),
      extract_setRange_other _ _ (by decide) (by decide)]
    exact extract_setRange_self _ _ (by decide)
  have hside : (bookWord (packNorm m)).extractLsb' 64 1 = m.side := by
    rw [bookWord, extract_extract _ (by decide), packNorm]
    rw [extract_setRange_other _ _ (by decide) (by decide)]
    exact extract_setRange_self _ _ (by decide)
  have hseq : (bookWord (packNorm m)).extractLsb' 65 32 = m.seq_num := by
    rw [bookWord, extract_extract _ (by decide), packNorm]
    exact extract_setRange_self _ _ (by decide)
  constructor
  · calc OrderBook.decode (bookWord (packNorm m)) true
        = { price := (bookWord (packNorm m)).extractLsb' 0 32
            size := (bookWord (packNorm m)).extractLsb' 32 32
            side := (bookWord (packNorm m)).extractLsb' 64 1
            seqNum := (bookWord (packNorm m)).extractLsb' 65 32
            valid := true } := rfl
      _ = _ := by rw [hprice, hsize, hside, hseq]
  · rw [packNorm, extract_setRange_other _ _ (by decide) (by decide),
      extract_setRange_other _ _ (by decide) (by decide),
      extract_setRange_other _ _ (by decide) (by decide),
      extract_setRange_other _ _ (by decide) (by decide)]
    rfl

end FeedHandler.Parser
