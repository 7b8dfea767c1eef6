import FeedHandler.GoldenAgreement
import FeedHandler.GoldenDiff
import FeedHandler.SignalsExact
import Mathlib.Data.Rat.Floor
import Mathlib.Tactic.FieldSimp

/-!
# The derived signals against the golden model

The engine and `OrderBookRef.snapshot` compute the same signals from the same levels
in different arithmetic: sized words with explicit sign handling here, Python integers
and exact quotients there.  Imbalance, microprice and midprice agree on every book.
The spread agrees unless the book is crossed, where the engine answers 0, and an
average price agrees while it fits the signed 32-bit word it is written to.
-/

namespace FeedHandler

/-- `int` of a quotient of integers. -/
theorem truncate_div (n : Int) {d : Nat} (hd : d ≠ 0) : truncate ((n : ℚ) / d) = n.tdiv d := by
  have hd' : (d : ℚ) ≠ 0 := Nat.cast_ne_zero.mpr hd
  have hpos : (0 : Int) < d := Int.natCast_pos.mpr (Nat.pos_of_ne_zero hd)
  have hden : (0 : Int) < ((n : ℚ) / d).den := Int.natCast_pos.mpr ((n : ℚ) / d).pos
  have hcross : ((n : ℚ) / d).num * d = n * ((n : ℚ) / d).den := by
    have hnum := Rat.mul_den_eq_num ((n : ℚ) / d)
    have hq : (((n : ℚ) / d).num : ℚ) * d = n * ((n : ℚ) / d).den := by
      rw [← hnum]
      field_simp
    exact_mod_cast hq
  unfold truncate
  calc ((n : ℚ) / d).num.tdiv ((n : ℚ) / d).den
      = (((n : ℚ) / d).num * d).tdiv (((n : ℚ) / d).den * d) :=
        (Int.mul_tdiv_mul_of_pos_left _ _ hpos).symm
    _ = (n * ((n : ℚ) / d).den).tdiv (d * ((n : ℚ) / d).den) := by
        rw [hcross, Int.mul_comm _ (d : Int)]
    _ = n.tdiv d := Int.mul_tdiv_mul_of_pos_left _ _ hden

namespace GoldenSignals

open GoldenAgreement GoldenDiff PriceLevelStore Signals

/-! ### Volume and notional of a side -/

section Levels

/-- `sum(s for _, s in levels)`. -/
def totalSize (levels : List (Nat × Nat)) : Nat := (levels.map fun e => e.2).sum

/-- `sum(p * s for p, s in levels)`. -/
def totalValue (levels : List (Nat × Nat)) : Nat := (levels.map fun e => e.1 * e.2).sum

@[simp] theorem totalSize_cons (e : Nat × Nat) (levels : List (Nat × Nat)) :
    totalSize (e :: levels) = e.2 + totalSize levels := List.sum_cons

/-- A weighted sum of prices is between the weight times a lower bound and the weight
    times an upper bound of them. -/
theorem mul_totalSize_le {levels : List (Nat × Nat)} {lo : Nat} (h : ∀ e ∈ levels, lo ≤ e.1) :
    lo * totalSize levels ≤ totalValue levels := by
  rw [totalSize, totalValue, ← List.sum_map_mul_left]
  exact List.sum_le_sum fun e he => Nat.mul_le_mul_right _ (h e he)

theorem totalValue_le {levels : List (Nat × Nat)} {hi : Nat} (h : ∀ e ∈ levels, e.1 ≤ hi) :
    totalValue levels ≤ hi * totalSize levels := by
  rw [totalSize, totalValue, ← List.sum_map_mul_left]
  exact List.sum_le_sum fun e he => Nat.mul_le_mul_right _ (h e he)

/-- The valid levels of a side, in ticks. -/
def levelsOf {depth : Nat} (store : Vector (Level 32 32) depth) : List (Nat × Nat) :=
  (validLevels store).map ticks

theorem sum_valid {depth : Nat} (store : Vector (Level 32 32) depth) (f : Nat × Nat → Nat) :
    (store.toList.map fun level =>
      if level.valid then f (level.price.toNat, level.size.toNat) else 0).sum =
      ((levelsOf store).map f).sum := by
  unfold levelsOf validLevels
  induction store.toList with
  | nil => rfl
  | cons level levels ih =>
    rw [List.map_cons, List.sum_cons, ih]
    cases hvalid : level.valid
    · simp [Level.asEntry, hvalid]
    · simp [Level.asEntry, hvalid, ticks]

theorem volumeOf_eq {depth : Nat} (store : Vector (Level 32 32) depth) :
    volumeOf store.toList = totalSize (levelsOf store) :=
  sum_valid store fun e => e.2

theorem notionalOf_eq {depth : Nat} (store : Vector (Level 32 32) depth) :
    notionalOf store.toList = totalValue (levelsOf store) :=
  sum_valid store fun e => e.1 * e.2

/-- A side the book can show has no level of size 0. -/
theorem totalSize_pos {depth : Nat} {isBid : Bool} {store : Vector (Level 32 32) depth}
    (hstore : WellFormed isBid store) (hsome : levelsOf store ≠ []) :
    0 < totalSize (levelsOf store) := by
  obtain ⟨e, levels, hcons⟩ := List.exists_cons_of_ne_nil hsome
  have hmem : e ∈ levelsOf store := hcons ▸ List.mem_cons_self
  rcases List.mem_map.mp hmem with ⟨entry, hentry, rfl⟩
  rcases List.mem_filterMap.mp hentry with ⟨level, hlevel, heq⟩
  obtain ⟨i, hi, rfl⟩ := List.getElem_of_mem hlevel
  rcases Level.asEntry_eq_some.mp heq with ⟨hvalid, -, hsize⟩
  have hi' : i < depth := by simpa using hi
  have hnonzero := hstore.nonzero i hi' (by simpa using hvalid)
  have hpos : 0 < (ticks entry).2 := by
    rw [ticks, ← hsize]
    refine Nat.pos_of_ne_zero fun hzero => hnonzero ?_
    exact BitVec.eq_of_toNat_eq (by simpa using hzero)
  rw [hcons, totalSize_cons]
  omega

end Levels

/-! ### The averages -/

def sideOf (isBid : Bool) (snap : BookSnap) : Vector (Level 32 32) 10 :=
  if isBid then snap.bids else snap.asks

def vwapOf (isBid : Bool) (out : SignalOut) : BitVec 32 :=
  if isBid then out.vwap_bid else out.vwap_ask

def goldenVwap (isBid : Bool) (snap : RefSnapshot) : Int :=
  if isBid then snap.vwap_bid else snap.vwap_ask

/-- The Q8 average price of a side: the exact quotient rounded down, which is what the
    golden model answers for these levels, between the lowest and the highest price. -/
structure IsAverage (isBid : Bool) (levels : List (Nat × Nat)) (vwap : Int) : Prop where
  floor_eq : vwap = ⌊256 * (totalValue levels : ℚ) / totalSize levels⌋
  golden_eq : ∀ (ref : OrderBookRef) (seq : Nat), ref.top isBid = levels →
    vwap = goldenVwap isBid (ref.snapshot seq)
  lowest : ∀ lo ∈ (levels.map Prod.fst).min?, 256 * (lo : Int) ≤ vwap
  highest : ∀ hi ∈ (levels.map Prod.fst).max?, vwap ≤ 256 * (hi : Int)

theorem floor_average (value size : Nat) :
    ⌊256 * (value : ℚ) / size⌋ = ((value * 2 ^ 8 / size : Nat) : Int) := by
  have hcast : 256 * (value : ℚ) / size = ((value * 2 ^ 8 : Nat) : ℚ) / (size : Nat) := by
    push_cast
    ring
  rw [hcast, Rat.floor_natCast_div_natCast]
  rfl

theorem goldenVwap_snapshot (isBid : Bool) (ref : OrderBookRef) (seq : Nat)
    (hsize : totalSize (ref.top isBid) ≠ 0) :
    goldenVwap isBid (ref.snapshot seq) =
      ((totalValue (ref.top isBid) * 2 ^ 8 / totalSize (ref.top isBid) : Nat) : Int) := by
  have hside : goldenVwap isBid (ref.snapshot seq) =
      if totalSize (ref.top isBid) ≠ 0 then
        truncate ((totalValue (ref.top isBid) : Nat) / (totalSize (ref.top isBid) : ℚ) *
          (256 : Nat))
      else 0 := by
    cases isBid <;> rfl
  have hquotient : ((totalValue (ref.top isBid) : Nat) : ℚ) / (totalSize (ref.top isBid) : ℚ) *
      (256 : Nat) = ((totalValue (ref.top isBid) * 2 ^ 8 : Nat) : Int) /
        (totalSize (ref.top isBid) : ℚ) := by
    push_cast
    ring
  rw [hside, if_pos hsize, hquotient, truncate_div _ hsize]
  rfl

theorem isAverage_of_eq {isBid : Bool} {levels : List (Nat × Nat)} (hsize : 0 < totalSize levels)
    {vwap : Int} (h : vwap = (totalValue levels * 2 ^ 8 / totalSize levels : Nat)) :
    IsAverage isBid levels vwap where
  floor_eq := by rw [h, floor_average]
  golden_eq := by
    rintro ref seq rfl
    rw [h, goldenVwap_snapshot isBid ref seq (Nat.ne_of_gt hsize)]
  lowest := by
    intro lo hlo
    have hle : ∀ e ∈ levels, lo ≤ e.1 := fun e he =>
      (List.min?_eq_some_iff.mp hlo).2 _ (List.mem_map_of_mem he)
    have hmul := mul_totalSize_le hle
    have hfloor : lo * 2 ^ 8 ≤ totalValue levels * 2 ^ 8 / totalSize levels := by
      rw [Nat.le_div_iff_mul_le hsize, Nat.mul_right_comm]
      exact Nat.mul_le_mul_right _ hmul
    omega
  highest := by
    intro hi hhi
    have hle : ∀ e ∈ levels, e.1 ≤ hi := fun e he =>
      (List.max?_eq_some_iff.mp hhi).2 _ (List.mem_map_of_mem he)
    have hmul := totalValue_le hle
    have hfloor : totalValue levels * 2 ^ 8 / totalSize levels ≤ hi * 2 ^ 8 := by
      refine Nat.div_le_of_le_mul ?_
      rw [← Nat.mul_assoc, Nat.mul_comm (totalSize levels)]
      exact Nat.mul_le_mul_right _ hmul
    omega

/-- What the engine writes: the average rounded down, reduced to a signed 32-bit word. -/
theorem toInt_vwapOf (isBid : Bool) (snap : BookSnap) :
    (vwapOf isBid (computeSignals snap)).toInt =
      ((totalValue (levelsOf (sideOf isBid snap)) * 2 ^ 8 /
        totalSize (levelsOf (sideOf isBid snap)) : Nat) : Int).bmod (2 ^ 32) := by
  have hzero : ∀ n d : Nat, (if d ≠ 0 then n * 2 ^ 8 / d else 0) = n * 2 ^ 8 / d := by
    intro n d
    split_ifs with hd
    · rfl
    · rw [not_not.mp hd, Nat.div_zero]
  cases isBid
  · refine (toInt_vwap_ask snap).trans ?_
    simp only [reference, hzero, volumeOf_eq, notionalOf_eq]
    rfl
  · refine (toInt_vwap_bid snap).trans ?_
    simp only [reference, hzero, volumeOf_eq, notionalOf_eq]
    rfl

/-- A snapshot of the levels of two sides; no signal reads its midprice. -/
def present (bids : BookSide true 10 32 32) (asks : BookSide false 10 32 32) : BookSnap where
  bids := bids.store
  asks := asks.store
  midprice := 0
  seq_num := 0

/-- A side with one level. -/
def single {isBid : Bool} {depth : Nat} [NeZero depth] (price size : BitVec 32) :
    BookSide isBid depth 32 32 :=
  BookSide.empty.apply price size

/-- **An average can leave its field.**  A bid at 30,000,500 ticks is shown as a negative
    price. -/
theorem dearBook_not_isAverage :
    ¬ ∀ (isBid : Bool) (snap : BookSnap), WellFormed true snap.bids → WellFormed false snap.asks →
      levelsOf (sideOf isBid snap) ≠ [] →
      IsAverage isBid (levelsOf (sideOf isBid snap))
        (vwapOf isBid (computeSignals snap)).toInt := by
  intro h
  have haverage := h true (present (single 30000500 1500000) (single 30001000 500000))
    (holds_store _).wellFormed (holds_store _).wellFormed (by decide +kernel)
  have hlt := BitVec.toInt_lt (x := vwapOf true
    (computeSignals (present (single 30000500 1500000) (single 30001000 500000))))
  rw [haverage.floor_eq, floor_average] at hlt
  revert hlt
  decide +kernel

/-- **When an average is the average.**  On a book the order book can show, the field of a
    side with a level is the exact Q8 average, rounded down, if and only if the average
    price is below `2 ^ 23` ticks. -/
theorem isAverage_iff (isBid : Bool) (snap : BookSnap) (hbids : WellFormed true snap.bids)
    (hasks : WellFormed false snap.asks) (hsome : levelsOf (sideOf isBid snap) ≠ []) :
    IsAverage isBid (levelsOf (sideOf isBid snap)) (vwapOf isBid (computeSignals snap)).toInt ↔
      totalValue (levelsOf (sideOf isBid snap)) <
        2 ^ 23 * totalSize (levelsOf (sideOf isBid snap)) := by
  have hsize : 0 < totalSize (levelsOf (sideOf isBid snap)) := by
    cases isBid
    · exact totalSize_pos hasks hsome
    · exact totalSize_pos hbids hsome
  have hword := toInt_vwapOf isBid snap
  have hfits : totalValue (levelsOf (sideOf isBid snap)) * 2 ^ 8 /
        totalSize (levelsOf (sideOf isBid snap)) < 2 ^ 31 ↔
      totalValue (levelsOf (sideOf isBid snap)) <
        2 ^ 23 * totalSize (levelsOf (sideOf isBid snap)) := by
    rw [Nat.div_lt_iff_lt_mul hsize]
    omega
  rw [← hfits]
  constructor
  · intro haverage
    have hlt := BitVec.toInt_lt (x := vwapOf isBid (computeSignals snap))
    rw [haverage.floor_eq, floor_average] at hlt
    omega
  · intro hlt
    refine isAverage_of_eq hsize (hword.trans ?_)
    exact Int.bmod_eq_of_le (le_trans (by decide) (Int.natCast_nonneg _)) (by omega)

/-- Bids at 200 and 199 ticks. -/
def cheapBids {depth : Nat} [NeZero depth] : BookSide true depth 32 32 :=
  (single 200 100).apply 199 50

/-- Asks at 201 and 202 ticks. -/
def cheapAsks {depth : Nat} [NeZero depth] : BookSide false depth 32 32 :=
  (single 201 30).apply 202 20

theorem isAverage_cheapBids :
    IsAverage true (levelsOf (sideOf true (present cheapBids cheapAsks)))
        (vwapOf true (computeSignals (present cheapBids cheapAsks))).toInt ↔
      totalValue (levelsOf (sideOf true (present cheapBids cheapAsks))) <
        2 ^ 23 * totalSize (levelsOf (sideOf true (present cheapBids cheapAsks))) :=
  isAverage_iff true _ (holds_store _).wellFormed (holds_store _).wellFormed (by decide +kernel)

/-! ### The other signals -/

/-- A snapshot of the hardware and a golden book that show the same levels. -/
structure SameLevels (bids : BookSide true 10 32 32) (asks : BookSide false 10 32 32)
    (snap : BookSnap) (ref : OrderBookRef) : Prop where
  shows_bids : Holds snap.bids bids.entries
  shows_asks : Holds snap.asks asks.entries
  topBids : ref.topBids = bids.entries.map ticks
  topAsks : ref.topAsks = asks.entries.map ticks

section Side

variable {isBid : Bool} {depth : Nat} {side : BookSide isBid depth 32 32}
  {store : Vector (Level 32 32) depth}

theorem volumeOf_of_holds (h : Holds store side.entries) :
    volumeOf store.toList = totalSize (side.entries.map ticks) := by
  rw [volumeOf_eq, levelsOf, h.validLevels_eq side.bounded]

theorem best_of_holds (h : Holds store side.entries) (hdepth : 0 < depth) :
    store[0].asEntry.map ticks = (side.entries.map ticks).head? := by
  rw [h 0 hdepth, List.head?_map, List.head?_eq_getElem?]

end Side

theorem microprice_snapshot (ref : OrderBookRef) (seq : Nat) :
    (ref.snapshot seq).microprice =
      match ref.topBids.head?, ref.topAsks.head? with
      | some bid, some ask =>
        if totalSize ref.topBids + totalSize ref.topAsks ≠ 0 then
          ((bid.1 * totalSize ref.topAsks + ask.1 * totalSize ref.topBids) /
            (totalSize ref.topBids + totalSize ref.topAsks) : Nat)
        else 0
      | _, _ => 0 := by
  unfold OrderBookRef.snapshot
  cases ref.topBids <;> cases ref.topAsks <;> simp [totalSize]

theorem spread_snapshot (ref : OrderBookRef) (seq : Nat) :
    (ref.snapshot seq).spread =
      match ref.topBids.head?, ref.topAsks.head? with
      | some bid, some ask => (ask.1 : Int) - bid.1
      | _, _ => 0 := by
  unfold OrderBookRef.snapshot
  cases ref.topBids <;> cases ref.topAsks <;> simp

section SameLevels

variable {bids : BookSide true 10 32 32} {asks : BookSide false 10 32 32} {snap : BookSnap}
  {ref : OrderBookRef} (h : SameLevels bids asks snap ref)

include h

theorem SameLevels.bid_vol : volumeOf snap.bids.toList = totalSize ref.topBids := by
  rw [h.topBids]
  exact volumeOf_of_holds h.shows_bids

theorem SameLevels.ask_vol : volumeOf snap.asks.toList = totalSize ref.topAsks := by
  rw [h.topAsks]
  exact volumeOf_of_holds h.shows_asks

theorem SameLevels.best_bid : snap.bids[0].asEntry.map ticks = ref.topBids.head? := by
  rw [h.topBids]
  exact best_of_holds h.shows_bids (by decide)

theorem SameLevels.best_ask : snap.asks[0].asEntry.map ticks = ref.topAsks.head? := by
  rw [h.topAsks]
  exact best_of_holds h.shows_asks (by decide)

theorem SameLevels.imbalance_eq (seq : Nat) :
    (computeSignals snap).imbalance.toInt = (ref.snapshot seq).imbalance := by
  have hgolden : (ref.snapshot seq).imbalance =
      if totalSize ref.topBids + totalSize ref.topAsks ≠ 0 then
        truncate (((totalSize ref.topBids : ℚ) - totalSize ref.topAsks) /
          (totalSize ref.topBids + totalSize ref.topAsks : Nat) * (2 ^ 16 : Nat))
      else 0 := rfl
  have hquotient : ((totalSize ref.topBids : ℚ) - totalSize ref.topAsks) /
      (totalSize ref.topBids + totalSize ref.topAsks : Nat) * (2 ^ 16 : Nat) =
      ((((totalSize ref.topBids : Int) - totalSize ref.topAsks) * 2 ^ 16 : Int) : ℚ) /
        (totalSize ref.topBids + totalSize ref.topAsks : Nat) := by
    push_cast
    ring
  refine (toInt_imbalance snap).trans ?_
  simp only [hgolden, reference, h.bid_vol, h.ask_vol]
  split_ifs with htotal
  · rw [hquotient, truncate_div _ htotal]
  · rfl

theorem SameLevels.microprice_eq (seq : Nat) :
    ((computeSignals snap).microprice.toNat : Int) = (ref.snapshot seq).microprice := by
  have hengine : (computeSignals snap).microprice.toNat = (reference snap).microprice :=
    toNat_microprice snap
  rw [hengine, microprice_snapshot, ← h.best_bid, ← h.best_ask]
  simp only [reference, h.bid_vol, h.ask_vol]
  unfold Level.asEntry
  cases hbid : snap.bids[0].valid <;> cases hask : snap.asks[0].valid <;> simp [ticks]

/-- The engine's spread is the golden one, no less than 0. -/
theorem SameLevels.spread_eq (seq : Nat) :
    ((computeSignals snap).spread.toNat : Int) = max 0 (ref.snapshot seq).spread := by
  have hengine : (computeSignals snap).spread.toNat = (reference snap).spread := toNat_spread snap
  rw [hengine, spread_snapshot, ← h.best_bid, ← h.best_ask]
  unfold reference Level.asEntry
  cases hbid : snap.bids[0].valid <;> cases hask : snap.asks[0].valid <;>
    simp [ticks, hbid, hask]
  split_ifs <;> omega

theorem SameLevels.midprice_eq (seq : Nat) :
    ((OrderBook.midprice snap.bids snap.asks).toNat : Int) = (ref.snapshot seq).midprice :=
  GoldenAgreement.midprice_eq h.best_bid h.best_ask seq

end SameLevels

/-- A dictionary with the levels of a side. -/
def dictOf {isBid : Bool} (side : BookSide isBid 10 32 32) : Dict Nat Nat where
  items := side.entries.map ticks
  distinct := by
    have hne : ((side.entries.map ticks).map Prod.fst).Pairwise fun p q => p ≠ q := by
      rw [List.pairwise_map]
      refine (ascending_ticks side).imp fun hlt heq => ?_
      exact absurd (levelRank_eq_iff.mpr heq) (ne_of_lt hlt)
    exact hne

theorem sorted_dictOf {isBid : Bool} (side : BookSide isBid 10 32 32) :
    ((dictOf side).sorted (OrderBookRef.tickRank isBid)).take 10 = side.entries.map ticks := by
  have hle : (side.entries.map ticks).Pairwise fun x y =>
      OrderBookRef.tickRank isBid x.1 ≤ OrderBookRef.tickRank isBid y.1 :=
    (ascending_ticks side).imp fun hlt => le_of_lt hlt
  have hlen : (side.entries.map ticks).length ≤ 10 := by
    rw [List.length_map]
    exact side.bounded
  rw [Dict.sorted, dictOf, hle.insertionSort_eq, List.take_of_length_le hlen]

def goldenOf (bids : BookSide true 10 32 32) (asks : BookSide false 10 32 32) : OrderBookRef where
  depth := 10
  bids := dictOf bids
  asks := dictOf asks

/-- Every two sides of the book are the levels of a snapshot and of a golden book. -/
theorem sameLevels_present (bids : BookSide true 10 32 32) (asks : BookSide false 10 32 32) :
    SameLevels bids asks (present bids asks) (goldenOf bids asks) where
  shows_bids := holds_store bids
  shows_asks := holds_store asks
  topBids := sorted_dictOf bids
  topAsks := sorted_dictOf asks

theorem within_of_eq {hw ref : Int} (h : hw = ref) : Within TOLERANCE hw ref := by
  rw [h, Within, Int.sub_self, abs_zero]
  decide

/-- Both sides have a level and the best bid is more than a tick above the best ask. -/
def Crossed (bids asks : List (Nat × Nat)) : Prop :=
  ∃ bid ∈ bids.head?, ∃ ask ∈ asks.head?, ask.1 + 1 < bid.1

/-- Crossed by more than a tick is a golden spread below -1. -/
theorem crossed_iff (ref : OrderBookRef) (seq : Nat) :
    Crossed ref.topBids ref.topAsks ↔ (ref.snapshot seq).spread < -1 := by
  rw [spread_snapshot, Crossed]
  cases ref.topBids.head? with
  | none => simp
  | some bid =>
    cases ref.topAsks.head? with
    | none => simp
    | some ask =>
      simp only [Option.mem_def, Option.some.injEq, exists_eq_left']
      omega

/-- **A crossed book.**  With a bid at 102 and an ask at 100 the golden spread is -2. -/
theorem crossedBook_spread :
    ¬ ∀ (bids : BookSide true 10 32 32) (asks : BookSide false 10 32 32) (snap : BookSnap)
      (ref : OrderBookRef) (seq : Nat), SameLevels bids asks snap ref →
      Within TOLERANCE (OrderBook.midprice snap.bids snap.asks).toNat
          (ref.snapshot seq).midprice ∧
        Within TOLERANCE (computeSignals snap).imbalance.toInt (ref.snapshot seq).imbalance ∧
        Within TOLERANCE (computeSignals snap).microprice.toNat (ref.snapshot seq).microprice ∧
        Within TOLERANCE (computeSignals snap).spread.toNat (ref.snapshot seq).spread := by
  intro h
  have hsame := sameLevels_present (single 102 5) (single 100 5)
  have hgolden : ((goldenOf (single 102 5) (single 100 5)).snapshot 0).spread = -2 := by
    rw [spread_snapshot, hsame.topBids, hsame.topAsks]
    decide
  obtain ⟨_, _, _, hspread⟩ := h _ _ _ _ 0 hsame
  rw [hsame.spread_eq 0, hgolden] at hspread
  exact absurd hspread (by decide)

/-- **The other signals agree.**  Midprice, imbalance and microprice are within the
    tolerance on every book.  The spread is unless the book is crossed by more than a
    tick, where the engine answers 0 and the golden model the negative difference. -/
theorem signals_agree {bids : BookSide true 10 32 32} {asks : BookSide false 10 32 32}
    {snap : BookSnap} {ref : OrderBookRef} (h : SameLevels bids asks snap ref) (seq : Nat) :
    Within TOLERANCE (OrderBook.midprice snap.bids snap.asks).toNat
        (ref.snapshot seq).midprice ∧
      Within TOLERANCE (computeSignals snap).imbalance.toInt (ref.snapshot seq).imbalance ∧
      Within TOLERANCE (computeSignals snap).microprice.toNat (ref.snapshot seq).microprice ∧
      (Within TOLERANCE (computeSignals snap).spread.toNat (ref.snapshot seq).spread ↔
        ¬ Crossed ref.topBids ref.topAsks) ∧
      (Crossed ref.topBids ref.topAsks → (computeSignals snap).spread.toNat = 0) := by
  have hspread := h.spread_eq seq
  refine ⟨within_of_eq (h.midprice_eq seq), within_of_eq (h.imbalance_eq seq),
    within_of_eq (h.microprice_eq seq), ?_, ?_⟩
  · rw [crossed_iff ref seq, hspread, Within, abs_le, TOLERANCE]
    omega
  · rw [crossed_iff ref seq]
    omega

theorem signals_agree_cheapBook :
    Within TOLERANCE (OrderBook.midprice (present cheapBids cheapAsks).bids
          (present cheapBids cheapAsks).asks).toNat
        ((goldenOf cheapBids cheapAsks).snapshot 0).midprice ∧
      Within TOLERANCE (computeSignals (present cheapBids cheapAsks)).imbalance.toInt
        ((goldenOf cheapBids cheapAsks).snapshot 0).imbalance ∧
      Within TOLERANCE (computeSignals (present cheapBids cheapAsks)).microprice.toNat
        ((goldenOf cheapBids cheapAsks).snapshot 0).microprice ∧
      (Within TOLERANCE (computeSignals (present cheapBids cheapAsks)).spread.toNat
          ((goldenOf cheapBids cheapAsks).snapshot 0).spread ↔
        ¬ Crossed (goldenOf cheapBids cheapAsks).topBids (goldenOf cheapBids cheapAsks).topAsks) ∧
      (Crossed (goldenOf cheapBids cheapAsks).topBids (goldenOf cheapBids cheapAsks).topAsks →
        (computeSignals (present cheapBids cheapAsks)).spread.toNat = 0) :=
  signals_agree (sameLevels_present cheapBids cheapAsks) 0

end GoldenSignals

end FeedHandler
