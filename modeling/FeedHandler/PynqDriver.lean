import FeedHandler.FeedPipeline

/-!
# Reading the records back

`stream_and_collect` of `pynq_driver.py`.  The board sends a record as seven 32-bit beats,
28 bytes with the padding of the C struct, and the driver cuts what it received into
pieces of 25, the length of its format string.  The first piece is the first record; every
later one starts in the padding or the fields of the record before.
-/

namespace FeedHandler.PynqDriver

open FeedHandler.Parser Signals AxisLayout Bits FeedPipeline

def WIRE_BYTES : Nat := 22

/-- `struct.calcsize("<iiIiiIB")`. -/
def SIG_BYTES : Nat := 25

/-- An entry of the list that the driver writes to its JSON file. -/
structure HwResult where
  seq_num : Int
  imbalance : Int
  microprice : Int
  spread : Int
  vwap_bid : Int
  vwap_ask : Int
deriving DecidableEq, Repr

/-- The `I` that starts at byte `k`. -/
def unsignedAt (chunk : List (BitVec 8)) (k : Nat) : Int := valueLE ((chunk.drop k).take 4)

/-- The `i` that starts at byte `k`. -/
def signedAt (chunk : List (BitVec 8)) (k : Nat) : Int :=
  (BitVec.ofNat 32 (valueLE ((chunk.drop k).take 4))).toInt

/-- The fields of `struct.unpack(SIG_FMT, chunk)`; the last one, `valid`, is `chunk[24]`. -/
def unpack (chunk : List (BitVec 8)) : HwResult where
  imbalance := signedAt chunk 0
  microprice := signedAt chunk 4
  spread := unsignedAt chunk 8
  vwap_bid := signedAt chunk 12
  vwap_ask := signedAt chunk 16
  seq_num := unsignedAt chunk 20

/-- The loop from index `i` on, with `left` passes to go. -/
def collectFrom (raw : List (BitVec 8)) (i : Nat) : Nat → List HwResult
  | 0 => []
  | left + 1 =>
    let chunk := (raw.drop (i * SIG_BYTES)).take SIG_BYTES
    if chunk.length < SIG_BYTES then []
    else
      (if chunk.getD 24 0#8 ≠ 0#8 then [unpack chunk] else []) ++ collectFrom raw (i + 1) left

/-- Send replay data to the FPGA, collect signal outputs.  `dma` is what the board sends
    back for the bytes sent to it; the buffer takes as much of it as it is long. -/
def streamAndCollect (PYNQ_AVAILABLE : Bool) (dma : List (BitVec 8) → List (BitVec 8))
    (replay_bytes : List (BitVec 8)) : List HwResult :=
  if PYNQ_AVAILABLE then
    let n_msg := replay_bytes.length / WIRE_BYTES
    let blank := List.replicate (n_msg * SIG_BYTES) 0#8
    let rx_buf := (dma replay_bytes ++ blank).take (n_msg * SIG_BYTES)
    collectFrom rx_buf 0 n_msg
  else []

/-! ### What the board sends -/

/-- The beats of the width converter, least significant first. -/
def beats (word : BitVec 224) : List (BitVec 32) :=
  (List.range 7).map fun k => word.extractLsb' (32 * k) 32

def recordBytes (s : SignalOut) : List (BitVec 8) := (beats (packSignal s)).flatMap (bytesLE 4)

theorem beats_packSignal (s : SignalOut) :
    beats (packSignal s) = [s.imbalance, s.microprice, s.spread, s.vwap_bid, s.vwap_ask,
      s.seq_num, s.valid.setWidth 32] := by
  have hvalid : (packSignal s).extractLsb' 192 32 = s.valid.setWidth 32 := by
    apply BitVec.eq_of_getLsbD_eq
    intro i hi
    simp (disch := decide) only [packSignal, BitVec.getLsbD_extractLsb', getLsbD_setRange,
      BitVec.getLsbD_setWidth, hi, decide_true, Bool.true_and]
    -- the other fields end below bit 192
    by_cases hbit : i = 0
    · simp [hbit]
    · rw [if_neg (by omega), if_neg (by omega), if_neg (by omega), if_neg (by omega),
        if_neg (by omega), if_neg (by omega), if_neg (by omega),
        BitVec.getLsbD_of_ge s.valid i (by omega)]
      simp
  have hrange : List.range 7 = [0, 1, 2, 3, 4, 5, 6] := rfl
  simp only [beats, hrange, List.map_cons, List.map_nil, hvalid]
  simp (disch := decide) only [packSignal, extract_setRange_self, extract_setRange_other]

theorem recordBytes_eq (s : SignalOut) :
    recordBytes s = bytesLE 4 s.imbalance ++ (bytesLE 4 s.microprice ++ (bytesLE 4 s.spread ++
      (bytesLE 4 s.vwap_bid ++ (bytesLE 4 s.vwap_ask ++ (bytesLE 4 s.seq_num ++
        bytesLE 4 (s.valid.setWidth 32)))))) := by
  rw [recordBytes, beats_packSignal]
  simp

@[simp] theorem length_recordBytes (s : SignalOut) : (recordBytes s).length = 28 := by
  simp [recordBytes_eq]

/-- The record in the types of its fields. -/
def sent (s : SignalOut) : HwResult where
  seq_num := s.seq_num.toNat
  imbalance := s.imbalance.toInt
  microprice := s.microprice.toNat
  spread := s.spread.toNat
  vwap_bid := s.vwap_bid.toInt
  vwap_ask := s.vwap_ask.toInt

theorem valueLE_word (x : BitVec 32) : valueLE (bytesLE 4 x) = x.toNat := by
  rw [valueLE_bytesLE]
  exact Nat.mod_eq_of_lt x.isLt

/-! ### The first piece -/

theorem unpack_first (s : SignalOut) (rest : List (BitVec 8)) :
    unpack ((recordBytes s ++ rest).take SIG_BYTES) =
      { sent s with microprice := s.microprice.toInt } := by
  have hunsigned : ∀ x : BitVec 32, (valueLE [x.extractLsb' 0 8, x.extractLsb' 8 8,
      x.extractLsb' 16 8, x.extractLsb' 24 8] : Int) = x.toNat := by
    intro x
    rw [← bytesLE_four, valueLE_word]
  have hsigned : ∀ x : BitVec 32, BitVec.ofNat 32 (valueLE [x.extractLsb' 0 8, x.extractLsb' 8 8,
      x.extractLsb' 16 8, x.extractLsb' 24 8]) = x := by
    intro x
    rw [← bytesLE_four, valueLE_word, BitVec.ofNat_toNat, BitVec.setWidth_eq]
  simp only [recordBytes_eq, bytesLE_four, SIG_BYTES, unpack, signedAt, unsignedAt, sent,
    List.cons_append, List.nil_append, List.take_succ_cons, List.drop_succ_cons, List.drop_zero,
    List.take_zero, hunsigned, hsigned]

/-! ### The second piece -/

/-- The bytes of a field that starts one byte before the end of the field `y`. -/
def straddle (y x : BitVec 32) : List (BitVec 8) :=
  [y.extractLsb' 8 8, y.extractLsb' 16 8, y.extractLsb' 24 8, x.extractLsb' 0 8]

/-- Behind a field that is 0, a field reads the same one byte late only if it is 0 too. -/
theorem eq_zero_of_straddle {x : BitVec 32} (h : straddle 0#32 x = bytesLE 4 x) : x = 0#32 := by
  rw [bytesLE_four, straddle] at h
  simp only [List.cons.injEq, and_true] at h
  rcases h with ⟨h₀, h₁, h₂, h₃⟩
  have hbytes : bytesLE 4 x = [0#8, 0#8, 0#8, 0#8] := by
    rw [bytesLE_four, ← h₃, ← h₀, ← h₁, ← h₂]
    decide
  apply BitVec.eq_of_toNat_eq
  rw [← valueLE_word, hbytes]
  rfl

section Fields

variable {x y : BitVec 32}

theorem valueLE_straddle_lt : valueLE (straddle y x) < 2 ^ 32 := valueLE_lt (straddle y x)

theorem straddle_of_value (h : valueLE (straddle y x) = x.toNat) :
    straddle y x = bytesLE 4 x :=
  valueLE_injective (length_bytesLE 4 x).symm (h.trans (valueLE_word x).symm)

theorem straddle_of_unsigned (h : (valueLE (straddle y x) : Int) = x.toNat) :
    straddle y x = bytesLE 4 x :=
  straddle_of_value (Int.ofNat.inj h)

theorem straddle_of_signed
    (h : (BitVec.ofNat 32 (valueLE (straddle y x))).toInt = x.toInt) :
    straddle y x = bytesLE 4 x := by
  have hword := congrArg BitVec.toNat (BitVec.eq_of_toInt_eq h)
  rw [BitVec.toNat_ofNat, Nat.mod_eq_of_lt valueLE_straddle_lt] at hword
  exact straddle_of_value hword

/-- A signed reading that is not negative is the unsigned one. -/
theorem toNat_of_toInt {w : BitVec 32} {n : Nat} (h : w.toInt = n) : w.toNat = n := by
  rw [BitVec.toInt_eq_toNat_cond] at h
  have hlt := w.isLt
  split_ifs at h <;> omega

theorem straddle_of_microprice
    (h : (BitVec.ofNat 32 (valueLE (straddle y x))).toInt = (x.toNat : Int)) :
    straddle y x = bytesLE 4 x := by
  have hword := toNat_of_toInt h
  rw [BitVec.toNat_ofNat, Nat.mod_eq_of_lt valueLE_straddle_lt] at hword
  exact straddle_of_value hword

end Fields

/-- **The second piece is never the second record**: were it, every field would be 0, and
    then so is the byte it takes for `valid`. -/
theorem unpack_second_ne (s : SignalOut) (rest : List (BitVec 8))
    (hvalid : ((0#8 :: 0#8 :: 0#8 :: recordBytes s ++ rest).take SIG_BYTES).getD 24 0#8 ≠ 0#8) :
    unpack ((0#8 :: 0#8 :: 0#8 :: recordBytes s ++ rest).take SIG_BYTES) ≠ sent s := by
  intro h
  have hpad : straddle 0#32 s.imbalance = [0#8, 0#8, 0#8, s.imbalance.extractLsb' 0 8] := rfl
  simp only [recordBytes_eq, bytesLE_four, SIG_BYTES, unpack, signedAt, unsignedAt, sent,
    List.cons_append, List.nil_append, List.take_succ_cons, List.drop_succ_cons, List.drop_zero,
    List.take_zero, ← hpad, HwResult.mk.injEq] at h
  rcases h with ⟨hseq, himbalance, hmicroprice, hspread, hvwap_bid, hvwap_ask⟩
  have h₀ := eq_zero_of_straddle (straddle_of_signed himbalance)
  rw [h₀] at hmicroprice
  have h₁ := eq_zero_of_straddle (straddle_of_microprice hmicroprice)
  rw [h₁] at hspread
  have h₂ := eq_zero_of_straddle (straddle_of_unsigned hspread)
  rw [h₂] at hvwap_bid
  have h₃ := eq_zero_of_straddle (straddle_of_signed hvwap_bid)
  rw [h₃] at hvwap_ask
  have h₄ := eq_zero_of_straddle (straddle_of_signed hvwap_ask)
  rw [h₄] at hseq
  have h₅ := eq_zero_of_straddle (straddle_of_unsigned hseq)
  simp [recordBytes_eq, bytesLE_four, SIG_BYTES, h₅] at hvalid

/-! ### The loop -/

theorem collectFrom_succ {raw chunk : List (BitVec 8)} {i : Nat} (left : Nat)
    (hchunk : (raw.drop (i * SIG_BYTES)).take SIG_BYTES = chunk)
    (hlen : chunk.length = SIG_BYTES) :
    collectFrom raw i (left + 1) =
      (if chunk.getD 24 0#8 ≠ 0#8 then [unpack chunk] else []) ++ collectFrom raw (i + 1) left := by
  rw [collectFrom, hchunk, if_neg (by rw [hlen]; exact Nat.lt_irrefl _)]

theorem length_collectFrom_le (raw : List (BitVec 8)) (i left : Nat) :
    (collectFrom raw i left).length ≤ left := by
  induction left generalizing i with
  | zero => exact Nat.le_refl 0
  | succ left ih =>
    have hrest := ih (i + 1)
    rw [collectFrom]
    split_ifs
    · exact Nat.zero_le _
    · exact Nat.succ_le_succ hrest
    · exact Nat.le_succ_of_le hrest

/-- The buffer is cut at a multiple of the piece length, so it cuts no piece. -/
theorem piece_eq (raw : List (BitVec 8)) {i n : Nat} (hi : i < n) :
    ((raw.take (n * SIG_BYTES)).drop (i * SIG_BYTES)).take SIG_BYTES =
      (raw.drop (i * SIG_BYTES)).take SIG_BYTES := by
  have hfit : SIG_BYTES ≤ n * SIG_BYTES - i * SIG_BYTES := by
    rw [← Nat.sub_mul]
    exact Nat.le_mul_of_pos_left _ (Nat.sub_pos_of_lt hi)
  rw [List.drop_take, List.take_take, Nat.min_eq_left hfit]

theorem drop_recordBytes (s : SignalOut) : (recordBytes s).drop SIG_BYTES = [0#8, 0#8, 0#8] := by
  have hpad : ∀ lo, 1 ≤ lo → (s.valid.setWidth 32).extractLsb' lo 8 = 0#8 := by
    intro lo hlo
    apply BitVec.eq_of_getLsbD_eq
    intro i _
    simp [BitVec.getLsbD_of_ge s.valid (lo + i) (by omega)]
  simp [recordBytes_eq, bytesLE_four, SIG_BYTES, hpad]

theorem length_take_SIG_BYTES {raw : List (BitVec 8)} (h : 28 ≤ raw.length) :
    (raw.take SIG_BYTES).length = SIG_BYTES := by
  rw [List.length_take]
  exact Nat.min_eq_left (Nat.le_trans (by decide) h)

/-- The first pass reads the first record. -/
theorem collectFrom_first {s : SignalOut} (hs : s.valid = 1#1) (rest : List (BitVec 8)) (n : Nat) :
    collectFrom ((recordBytes s ++ rest).take ((n + 1) * SIG_BYTES)) 0 (n + 1) =
      { sent s with microprice := s.microprice.toInt } ::
        collectFrom ((recordBytes s ++ rest).take ((n + 1) * SIG_BYTES)) 1 n := by
  have hfirst : ((recordBytes s ++ rest).drop (0 * SIG_BYTES)).take SIG_BYTES =
      (recordBytes s ++ rest).take SIG_BYTES := by
    rw [Nat.zero_mul, List.drop_zero]
  have hkept : ((recordBytes s ++ rest).take SIG_BYTES).getD 24 0#8 ≠ 0#8 := by
    simp [recordBytes_eq, bytesLE_four, SIG_BYTES, hs]
  rw [collectFrom_succ n ((piece_eq _ (Nat.succ_pos n)).trans hfirst)
    (length_take_SIG_BYTES (by simp)), if_pos hkept, unpack_first]
  rfl

/-- The second pass does not read the second record: it reads something else, or nothing
    and is a pass short. -/
theorem collectFrom_second_ne {s s' : SignalOut} (rest : List (BitVec 8)) {n : Nat}
    {results : List HwResult} (hlen : results.length = n) :
    collectFrom ((recordBytes s ++ (recordBytes s' ++ rest)).take ((n + 2) * SIG_BYTES)) 1
      (n + 1) ≠ sent s' :: results := by
  intro h
  have hsecond : ((recordBytes s ++ (recordBytes s' ++ rest)).drop (1 * SIG_BYTES)).take SIG_BYTES =
      (0#8 :: 0#8 :: 0#8 :: recordBytes s' ++ rest).take SIG_BYTES := by
    rw [Nat.one_mul, List.drop_append_of_le_length (by simp [SIG_BYTES]), drop_recordBytes]
    rfl
  have hlong : 28 ≤ (0#8 :: 0#8 :: 0#8 :: recordBytes s' ++ rest).length := by
    rw [List.length_append, List.length_cons, List.length_cons, List.length_cons,
      length_recordBytes]
    omega
  rw [collectFrom_succ n ((piece_eq _ (by omega)).trans hsecond)
    (length_take_SIG_BYTES hlong)] at h
  split_ifs at h with hkept
  · exact unpack_second_ne s' rest hkept (List.cons.inj h).1
  · have hshort := length_collectFrom_le
      ((recordBytes s ++ (recordBytes s' ++ rest)).take ((n + 2) * SIG_BYTES)) (1 + 1) n
    rw [List.nil_append] at h
    rw [h, List.length_cons, hlen] at hshort
    exact absurd hshort (Nat.not_succ_le_self n)

theorem collectFrom_eq_iff {rs : List SignalOut} (hvalid : ∀ s ∈ rs, s.valid = 1#1)
    (blank : List (BitVec 8)) :
    collectFrom ((rs.flatMap recordBytes ++ blank).take (rs.length * SIG_BYTES)) 0 rs.length =
        rs.map sent ↔
      rs.length ≤ 1 ∧ ∀ s ∈ rs, s.microprice.toNat < 2 ^ 31 := by
  rcases rs with - | ⟨s, - | ⟨s', rs⟩⟩
  · simp [collectFrom]
  · have hs := hvalid s List.mem_cons_self
    have hmicroprice : s.microprice.toInt = s.microprice.toNat ↔ s.microprice.toNat < 2 ^ 31 := by
      have hlt := s.microprice.isLt
      rw [BitVec.toInt_eq_toNat_cond]
      split_ifs <;> omega
    rw [List.flatMap_singleton, List.length_singleton, ← Nat.zero_add 1,
      collectFrom_first hs blank 0]
    simp [collectFrom, sent, hmicroprice]
  · have hs := hvalid s List.mem_cons_self
    rw [List.flatMap_cons, List.flatMap_cons, List.append_assoc, List.append_assoc,
      List.length_cons, collectFrom_first hs]
    constructor
    · intro h
      exact absurd (List.cons.inj h).2 (collectFrom_second_ne _ (List.length_map _))
    · rintro ⟨hlen, -⟩
      exact absurd hlen (by simp)

/-! ### A replay -/

theorem valid_records {msgs : List RawMsg} : ∀ s ∈ records msgs, s.valid = 1#1 := by
  intro s hs
  rw [records, List.mem_mapIdx] at hs
  rcases hs with ⟨k, hk, rfl⟩
  rfl

/-- Without a best level on both sides there is no microprice. -/
theorem microprice_eq_zero {snap : BookSnap}
    (h : snap.bids[0].valid = false ∨ snap.asks[0].valid = false) :
    (computeSignals snap).microprice = 0#32 := by
  change (locals snap).microprice = 0#32
  rcases h with h | h <;> simp [locals, h]

/-- One message leaves one side empty. -/
theorem microprice_record {msgs : List RawMsg} (hknown : ∀ m ∈ msgs, m.known = true)
    (hone : msgs.length ≤ 1) : ∀ s ∈ records msgs, s.microprice = 0#32 := by
  rcases msgs with - | ⟨m, - | ⟨m', msgs⟩⟩
  · simp [records]
  · intro s hs
    have hrecord : s = recordOf (bookOf [m]) m := by
      simpa [records, hknown m List.mem_cons_self] using hs
    have hbids : (OrderBook.emptyBook : OrderBook.Book 10 32 32).bids[0].valid = false := rfl
    have hasks : (OrderBook.emptyBook : OrderBook.Book 10 32 32).asks[0].valid = false := rfl
    rw [hrecord]
    apply microprice_eq_zero
    rcases Side.eq_bid_or_ask (marketMsg m).side with hside | hside
    · right
      simp [bookOf, OrderBook.applyMsg, hside, Side.BID, Side.ASK, hasks]
    · left
      simp [bookOf, OrderBook.applyMsg, hside, Side.BID, Side.ASK, hbids]
  · simp at hone

/-- **One record reads back, more do not.**  When a file of known messages is replayed and
    the board answers with all their records, the driver's list is those records exactly
    when there is at most one. -/
theorem collects_iff {msgs : List RawMsg} (hknown : ∀ m ∈ msgs, m.known = true)
    {dma : List (BitVec 8) → List (BitVec 8)}
    (hdma : dma (msgs.flatMap encodeMsg) = (records msgs).flatMap recordBytes) :
    streamAndCollect true dma (msgs.flatMap encodeMsg) = (records msgs).map sent ↔
      msgs.length ≤ 1 := by
  have hcount : (records msgs).length = msgs.length := by
    rw [records, List.length_mapIdx, List.filter_eq_self.mpr hknown]
  have hsent : (msgs.flatMap encodeMsg).length / WIRE_BYTES = (records msgs).length := by
    rw [hcount, List.length_flatMap]
    simp [WIRE_BYTES, RAW_MSG_BYTES]
  rw [streamAndCollect, if_pos rfl, hdma, hsent, ← hcount, collectFrom_eq_iff valid_records,
    hcount, and_iff_left_iff_imp]
  intro hone s hs
  rw [microprice_record hknown hone s hs]
  decide

/-- A replay of bids and an ask. -/
theorem collects_iff_fourMessages :
    streamAndCollect true (fun _ => (records fourMessages).flatMap recordBytes)
        (fourMessages.flatMap encodeMsg) = (records fourMessages).map sent ↔
      fourMessages.length ≤ 1 :=
  collects_iff (by decide) rfl

end FeedHandler.PynqDriver
