import FeedHandler.Bits
import FeedHandler.Signals

/-!
# The wide stream words

The two C-struct layouts of the block design: the snapshot word that
`orderbook_axis_wrap.v` drives and the signal engine reads as a `BookSnap`, and the
28-byte word of a `SignalOut`.  Every field starts on a 32-bit boundary.
-/

namespace FeedHandler.AxisLayout

open Bits Signals

variable {w m lo start : Nat}

/-! ### Levels -/

def packLevel (word : BitVec w) (lo : Nat) (level : Level 32 32) : BitVec w :=
  let word := setRange word lo level.price
  let word := setRange word (lo + 32) level.size
  setRange word (lo + 64) ((BitVec.ofBool level.valid).setWidth 32)

def readLevel (word : BitVec w) (lo : Nat) : Level 32 32 where
  price := word.extractLsb' lo 32
  size := word.extractLsb' (lo + 32) 32
  valid := word.extractLsb' (lo + 64) 1 == 1#1

/-- The slots of one side, 96 bits each. -/
def packLevels (word : BitVec w) (lo : Nat) : List (Level 32 32) → BitVec w
  | [] => word
  | level :: levels => packLevels (packLevel word lo level) (lo + 96) levels

theorem readLevel_packLevel (word : BitVec w) (level : Level 32 32) (hfit : lo + 96 ≤ w) :
    readLevel (packLevel word lo level) lo = level := by
  have hprice : (packLevel word lo level).extractLsb' lo 32 = level.price := by
    rw [packLevel, extract_setRange_other _ _ (by omega) (by omega),
      extract_setRange_other _ _ (by omega) (by omega)]
    exact extract_setRange_self _ _ (by omega)
  have hsize : (packLevel word lo level).extractLsb' (lo + 32) 32 = level.size := by
    rw [packLevel, extract_setRange_other _ _ (by omega) (by omega)]
    exact extract_setRange_self _ _ (by omega)
  have hvalid : (packLevel word lo level).extractLsb' (lo + 64) 1 = BitVec.ofBool level.valid := by
    have hslot : (packLevel word lo level).extractLsb' (lo + 64) 32 =
        (BitVec.ofBool level.valid).setWidth 32 := extract_setRange_self _ _ (by omega)
    have hbit := @extract_extract w 32 1 (packLevel word lo level) (lo + 64) 0 (by decide)
    rw [hslot] at hbit
    rw [← Nat.add_zero (lo + 64), ← hbit]
    cases level.valid <;> rfl
  rw [readLevel, hprice, hsize, hvalid]
  rcases level with ⟨price, size, valid⟩
  cases valid <;> rfl

theorem extract_packLevel_other (word : BitVec w) (level : Level 32 32) (hfit : lo + 96 ≤ w)
    (hapart : start + m ≤ lo ∨ lo + 96 ≤ start) :
    (packLevel word lo level).extractLsb' start m = word.extractLsb' start m := by
  rw [packLevel, extract_setRange_other _ _ (by omega) (by omega),
    extract_setRange_other _ _ (by omega) (by omega),
    extract_setRange_other _ _ (by omega) (by omega)]

theorem extract_packLevels_other (word : BitVec w) (levels : List (Level 32 32))
    (hfit : lo + 96 * levels.length ≤ w)
    (hapart : start + m ≤ lo ∨ lo + 96 * levels.length ≤ start) :
    (packLevels word lo levels).extractLsb' start m = word.extractLsb' start m := by
  induction levels generalizing word lo with
  | nil => rfl
  | cons level levels ih =>
    rw [List.length_cons] at hfit hapart
    rw [packLevels, ih _ (by omega) (by omega)]
    exact extract_packLevel_other _ _ (by omega) (by omega)

theorem readLevel_congr {word word' : BitVec w}
    (h : ∀ start m, lo ≤ start → start + m ≤ lo + 96 →
      word.extractLsb' start m = word'.extractLsb' start m) :
    readLevel word lo = readLevel word' lo := by
  rw [readLevel, readLevel, h lo 32 (by omega) (by omega), h (lo + 32) 32 (by omega) (by omega),
    h (lo + 64) 1 (by omega) (by omega)]

theorem readLevel_packLevels (word : BitVec w) (levels : List (Level 32 32))
    (hfit : lo + 96 * levels.length ≤ w) (k : Nat) (hk : k < levels.length) :
    readLevel (packLevels word lo levels) (lo + 96 * k) = levels[k] := by
  induction levels generalizing word lo k with
  | nil => exact absurd hk (Nat.not_lt_zero k)
  | cons level levels ih =>
    rw [List.length_cons] at hfit hk
    cases k with
    | zero =>
      have hkeep : readLevel (packLevels (packLevel word lo level) (lo + 96) levels) lo =
          readLevel (packLevel word lo level) lo :=
        readLevel_congr fun start m _ hend =>
          extract_packLevels_other _ _ (by omega) (.inl hend)
      exact hkeep.trans (readLevel_packLevel _ _ (by omega))
    | succ k =>
      have hslot : lo + 96 * (k + 1) = lo + 96 + 96 * k := by omega
      rw [packLevels, hslot]
      exact ih _ (by omega) k (by omega)

/-! ### The snapshot word -/

/-- `m_axis_tdata` of the wrapper. -/
def packSnap (snap : BookSnapshot 10 32 32) : BitVec 1984 :=
  let word := packLevels 0 0 snap.bids.toList
  let word := packLevels word 960 snap.asks.toList
  let word := setRange word 1920 snap.midprice
  setRange word 1952 snap.seqNum

/-- The struct that the signal engine reads from its input word. -/
def readSnap (word : BitVec 1984) : BookSnap where
  bids := Vector.ofFn fun i => readLevel word (0 + 96 * i.val)
  asks := Vector.ofFn fun i => readLevel word (960 + 96 * i.val)
  midprice := word.extractLsb' 1920 32
  seq_num := word.extractLsb' 1952 32

section Snap

variable (snap : BookSnapshot 10 32 32)

/-- The last two fields leave the levels alone. -/
theorem extract_packSnap_levels (hend : start + m ≤ 1920) :
    (packSnap snap).extractLsb' start m =
      (packLevels (packLevels (0 : BitVec 1984) 0 snap.bids.toList) 960
        snap.asks.toList).extractLsb' start m := by
  rw [packSnap, extract_setRange_other _ _ (by decide) (by omega),
    extract_setRange_other _ _ (by decide) (by omega)]

theorem readLevel_packSnap_bid {k : Nat} (hk : k < 10) :
    readLevel (packSnap snap) (0 + 96 * k) = snap.bids[k] := by
  have hkeep : readLevel (packSnap snap) (0 + 96 * k) =
      readLevel (packLevels (0 : BitVec 1984) 0 snap.bids.toList) (0 + 96 * k) := by
    apply readLevel_congr
    intro start m _ hend
    rw [extract_packSnap_levels snap (by omega),
      extract_packLevels_other _ _ (by simp) (.inl (by omega))]
  rw [hkeep, readLevel_packLevels _ _ (by simp) k (by simpa using hk)]
  simp

theorem readLevel_packSnap_ask {k : Nat} (hk : k < 10) :
    readLevel (packSnap snap) (960 + 96 * k) = snap.asks[k] := by
  have hkeep : readLevel (packSnap snap) (960 + 96 * k) =
      readLevel (packLevels (packLevels (0 : BitVec 1984) 0 snap.bids.toList) 960
        snap.asks.toList) (960 + 96 * k) := by
    apply readLevel_congr
    intro start m _ hend
    exact extract_packSnap_levels snap (by omega)
  rw [hkeep, readLevel_packLevels _ _ (by simp) k (by simpa using hk)]
  simp

/-- The engine reads what the book shows. -/
theorem readSnap_packSnap :
    readSnap (packSnap snap) =
      { bids := snap.bids
        asks := snap.asks
        midprice := snap.midprice
        seq_num := snap.seqNum } := by
  have hmidprice : (packSnap snap).extractLsb' 1920 32 = snap.midprice := by
    rw [packSnap, extract_setRange_other _ _ (by decide) (by decide)]
    exact extract_setRange_self _ _ (by decide)
  have hseq : (packSnap snap).extractLsb' 1952 32 = snap.seqNum :=
    extract_setRange_self _ _ (by decide)
  rw [readSnap, hmidprice, hseq]
  congr 1
  · apply Vector.ext
    intro k hk
    rw [Vector.getElem_ofFn]
    exact readLevel_packSnap_bid snap hk
  · apply Vector.ext
    intro k hk
    rw [Vector.getElem_ofFn]
    exact readLevel_packSnap_ask snap hk

end Snap

/-! ### The signal word -/

def packSignal (s : SignalOut) : BitVec 224 :=
  let word : BitVec 224 := 0
  let word := setRange word 0 s.imbalance
  let word := setRange word 32 s.microprice
  let word := setRange word 64 s.spread
  let word := setRange word 96 s.vwap_bid
  let word := setRange word 128 s.vwap_ask
  let word := setRange word 160 s.seq_num
  setRange word 192 s.valid

def readSignal (word : BitVec 224) : SignalOut where
  imbalance := word.extractLsb' 0 32
  microprice := word.extractLsb' 32 32
  spread := word.extractLsb' 64 32
  vwap_bid := word.extractLsb' 96 32
  vwap_ask := word.extractLsb' 128 32
  seq_num := word.extractLsb' 160 32
  valid := word.extractLsb' 192 1

/-- A record reads back. -/
theorem readSignal_packSignal (s : SignalOut) : readSignal (packSignal s) = s := by
  simp (disch := decide) only [readSignal, packSignal, extract_setRange_self,
    extract_setRange_other]

end FeedHandler.AxisLayout
