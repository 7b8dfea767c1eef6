import FeedHandler.FeedOverload
import FeedHandler.GoldenSignals

/-!
# What the signals can be

Facts about the records that hold of every book the hardware can show, and so of every
record a board ever delivers, whatever the load: the imbalance is a Q16 fraction that is
full exactly when one side is empty, the microprice lies between the best prices, and a
one-sided book has neither a microprice nor a spread.
-/

namespace FeedHandler.FeedPipeline

open AxisLayout GoldenAgreement GoldenSignals PriceLevelStore Signals Sync

/-! ### Two quotients -/

/-- A weighted mean lies between the two values. -/
theorem mean_between (p q : Nat) {a b : Nat} (hpos : 0 < a + b) :
    min p q ≤ (p * b + q * a) / (a + b) ∧ (p * b + q * a) / (a + b) ≤ max p q := by
  constructor
  · rw [Nat.le_div_iff_mul_le hpos]
    have hp := Nat.mul_le_mul_right b (Nat.min_le_left p q)
    have hq := Nat.mul_le_mul_right a (Nat.min_le_right p q)
    calc min p q * (a + b) = min p q * b + min p q * a := by rw [Nat.mul_add, Nat.add_comm]
      _ ≤ p * b + q * a := Nat.add_le_add hp hq
  · apply Nat.div_le_of_le_mul
    have hp := Nat.mul_le_mul_right b (Nat.le_max_left p q)
    have hq := Nat.mul_le_mul_right a (Nat.le_max_right p q)
    calc p * b + q * a ≤ max p q * b + max p q * a := Nat.add_le_add hp hq
      _ = (a + b) * max p q := by rw [Nat.add_mul, Nat.mul_comm a, Nat.mul_comm b, Nat.add_comm]

/-- The Q16 imbalance of two volumes. -/
def imbalanceOf (bid_vol ask_vol : Nat) : Int :=
  if bid_vol + ask_vol ≠ 0 then (((bid_vol : Int) - ask_vol) * 2 ^ 16).tdiv (bid_vol + ask_vol : Nat)
  else 0

theorem imbalanceOf_comm (bid_vol ask_vol : Nat) :
    imbalanceOf ask_vol bid_vol = -imbalanceOf bid_vol ask_vol := by
  have hneg : (ask_vol : Int) - bid_vol = -((bid_vol : Int) - ask_vol) := by omega
  unfold imbalanceOf
  rw [Nat.add_comm ask_vol, hneg, Int.neg_mul, Int.neg_tdiv]
  split_ifs <;> simp

theorem imbalanceOf_of_le {bid_vol ask_vol : Nat} (hle : ask_vol ≤ bid_vol) :
    imbalanceOf bid_vol ask_vol = ((bid_vol - ask_vol) * 2 ^ 16 / (bid_vol + ask_vol) : Nat) := by
  unfold imbalanceOf
  split_ifs with htotal
  · have hsub : (bid_vol : Int) - ask_vol = (bid_vol - ask_vol : Nat) := by omega
    rw [hsub]
    rfl
  · rw [not_not.mp htotal, Nat.div_zero]
    rfl

/-- With no more asks than bids the imbalance is between 0 and 1, and 1 without asks. -/
theorem imbalanceOf_heavy {bid_vol ask_vol : Nat} (hle : ask_vol ≤ bid_vol) :
    0 ≤ imbalanceOf bid_vol ask_vol ∧ imbalanceOf bid_vol ask_vol ≤ 2 ^ 16 ∧
      (imbalanceOf bid_vol ask_vol = 2 ^ 16 ↔ bid_vol ≠ 0 ∧ ask_vol = 0) := by
  have hmost : (bid_vol - ask_vol) * 2 ^ 16 / (bid_vol + ask_vol) ≤ 2 ^ 16 := by
    apply Nat.div_le_of_le_mul
    exact Nat.mul_le_mul_right _ (by omega)
  have hfull : 2 ^ 16 ≤ (bid_vol - ask_vol) * 2 ^ 16 / (bid_vol + ask_vol) ↔
      bid_vol ≠ 0 ∧ ask_vol = 0 := by
    by_cases hpos : 0 < bid_vol + ask_vol
    · rw [Nat.le_div_iff_mul_le hpos]
      omega
    · have hzero : bid_vol + ask_vol = 0 := Nat.eq_zero_of_not_pos hpos
      rw [hzero, Nat.div_zero]
      omega
  rw [imbalanceOf_of_le hle, ← hfull]
  generalize (bid_vol - ask_vol) * 2 ^ 16 / (bid_vol + ask_vol) = q at hmost
  omega

theorem imbalanceOf_range (bid_vol ask_vol : Nat) :
    -2 ^ 16 ≤ imbalanceOf bid_vol ask_vol ∧ imbalanceOf bid_vol ask_vol ≤ 2 ^ 16 ∧
      (imbalanceOf bid_vol ask_vol = 2 ^ 16 ↔ bid_vol ≠ 0 ∧ ask_vol = 0) ∧
      (imbalanceOf bid_vol ask_vol = -2 ^ 16 ↔ bid_vol = 0 ∧ ask_vol ≠ 0) := by
  have hcomm := imbalanceOf_comm bid_vol ask_vol
  rcases Nat.le_total ask_vol bid_vol with hle | hle
  · obtain ⟨hnonneg, hmost, hfull⟩ := imbalanceOf_heavy hle
    refine ⟨by omega, hmost, hfull, ?_⟩
    constructor
    · intro h
      omega
    · rintro ⟨hzero, hsome⟩
      omega
  · obtain ⟨hnonneg, hmost, hfull⟩ := imbalanceOf_heavy hle
    refine ⟨by omega, by omega, ?_, ?_⟩
    · constructor
      · intro h
        omega
      · rintro ⟨hsome, hzero⟩
        omega
    · rw [and_comm, ← hfull]
      omega

/-! ### One record -/

/-- What a record can say of the levels it was computed from. -/
structure InRange (out : SignalOut) (bids asks : List (Nat × Nat)) : Prop where
  valid : out.valid = 1#1
  imbalance : -2 ^ 16 ≤ out.imbalance.toInt ∧ out.imbalance.toInt ≤ 2 ^ 16
  bids_only : out.imbalance.toInt = 2 ^ 16 ↔ bids ≠ [] ∧ asks = []
  asks_only : out.imbalance.toInt = -2 ^ 16 ↔ bids = [] ∧ asks ≠ []
  microprice : ∀ bid ∈ bids.head?, ∀ ask ∈ asks.head?,
    min bid.1 ask.1 ≤ out.microprice.toNat ∧ out.microprice.toNat ≤ max bid.1 ask.1
  /-- Between the best prices, and 0 when they cross. -/
  spread : ∀ bid ∈ bids.head?, ∀ ask ∈ asks.head?, out.spread.toNat = ask.1 - bid.1
  one_sided : bids = [] ∨ asks = [] → out.microprice = 0#32 ∧ out.spread = 0#32

section Snapshot

variable {bids : BookSide true 10 32 32} {asks : BookSide false 10 32 32} {snap : BookSnap}

theorem totalSize_eq_zero_iff {isBid : Bool} (side : BookSide isBid 10 32 32) :
    totalSize (side.entries.map ticks) = 0 ↔ side.entries.map ticks = [] := by
  constructor
  · intro hzero
    rw [List.map_eq_nil_iff, List.eq_nil_iff_forall_not_mem]
    intro e he
    have hle : e.2.toNat ≤ totalSize (side.entries.map ticks) :=
      List.le_sum_of_mem (List.mem_map_of_mem (List.mem_map_of_mem he))
    exact side.nonzero e he (BitVec.eq_of_toNat_eq (by rw [hzero] at hle; simpa using hle))
  · intro hnil
    rw [hnil]
    rfl

variable (hbids : Holds snap.bids bids.entries) (hasks : Holds snap.asks asks.entries)

include hbids hasks

theorem sameLevels_goldenOf : SameLevels bids asks snap (goldenOf bids asks) where
  shows_bids := hbids
  shows_asks := hasks
  topBids := (sameLevels_present bids asks).topBids
  topAsks := (sameLevels_present bids asks).topAsks

theorem imbalance_eq : (computeSignals snap).imbalance.toInt =
    imbalanceOf (totalSize (bids.entries.map ticks)) (totalSize (asks.entries.map ticks)) := by
  rw [← volumeOf_of_holds hbids, ← volumeOf_of_holds hasks]
  exact toInt_imbalance snap

/-- **Every record of a book is in range.** -/
theorem inRange_computeSignals :
    InRange (computeSignals snap) (bids.entries.map ticks) (asks.entries.map ticks) := by
  have hsame := sameLevels_goldenOf hbids hasks
  have hmicroprice := hsame.microprice_eq 0
  have hspread := hsame.spread_eq 0
  rw [microprice_snapshot, hsame.topBids, hsame.topAsks] at hmicroprice
  rw [spread_snapshot, hsame.topBids, hsame.topAsks] at hspread
  obtain ⟨hlow, hhigh, hbid, hask⟩ := imbalanceOf_range (totalSize (bids.entries.map ticks))
    (totalSize (asks.entries.map ticks))
  rw [← imbalance_eq hbids hasks] at hlow hhigh hbid hask
  have hnone_bid := totalSize_eq_zero_iff bids
  have hnone_ask := totalSize_eq_zero_iff asks
  refine ⟨rfl, ⟨hlow, hhigh⟩, ?_, ?_, ?_, ?_, ?_⟩
  · rw [hbid, ne_eq, hnone_bid, hnone_ask]
  · rw [hask, ne_eq, hnone_bid, hnone_ask]
  · intro bid hbest ask hbest'
    rw [Option.mem_def] at hbest hbest'
    have hsome : totalSize (bids.entries.map ticks) ≠ 0 := by
      rw [ne_eq, hnone_bid]
      intro hnil
      simp [hnil] at hbest
    simp only [hbest, hbest'] at hmicroprice
    rw [if_pos (by omega), Int.natCast_inj] at hmicroprice
    rw [hmicroprice]
    exact mean_between bid.1 ask.1 (by omega)
  · intro bid hbest ask hbest'
    rw [Option.mem_def] at hbest hbest'
    simp only [hbest, hbest'] at hspread
    omega
  · intro hempty
    have hzero : (computeSignals snap).microprice.toNat = 0 ∧
        (computeSignals snap).spread.toNat = 0 := by
      rcases hempty with hnil | hnil
      · simp only [hnil, List.head?_nil] at hmicroprice hspread
        omega
      · cases hhead : (bids.entries.map ticks).head? <;>
          simp only [hnil, hhead, List.head?_nil] at hmicroprice hspread <;> omega
    exact ⟨BitVec.eq_of_toNat_eq hzero.1, BitVec.eq_of_toNat_eq hzero.2⟩

end Snapshot

/-! ### Every delivered record -/

theorem inRange_recordAfter (words : List (OrderBook.Word 32 32)) :
    InRange (recordAfter words) (levelsOf (snapAfter words).bids)
      (levelsOf (snapAfter words).asks) := by
  obtain ⟨⟨bids, hbids⟩, asks, hasks⟩ := @OrderBook.holds_bookAfter 10 32 32 _ words
  have hsnap : snapAfter words = readSnap (packSnap (OrderBook.snapshotAfter words true)) := rfl
  rw [recordAfter]
  rw [readSnap_packSnap] at hsnap
  have hbids' : Holds (snapAfter words).bids bids.entries := by rwa [hsnap]
  have hasks' : Holds (snapAfter words).asks asks.entries := by rwa [hsnap]
  rw [levelsOf, hbids'.validLevels_eq bids.bounded, levelsOf, hasks'.validLevels_eq asks.bounded]
  exact inRange_computeSignals hbids' hasks'

/-- Each record delivered is that of the book after some of the words kept, and within what
    its levels allow. -/
def Explained (b : Board) : Prop :=
  ∀ t, ∀ s ∈ b.delivered t, ∃ words, words <+: b.kept t ∧ s = recordAfter words ∧
    InRange s (levelsOf (snapAfter words).bids) (levelsOf (snapAfter words).asks)

/-- **A board never delivers a record out of range**, whatever the load. -/
theorem delivers_inRange {b : Board} (hreset : OrderBook.AfterReset b.book₀) : Explained b := by
  intro t s hs
  have hmem := (delivered_sublist hreset t).subset hs
  rw [leading, List.mem_mapIdx] at hmem
  rcases hmem with ⟨k, _, rfl⟩
  exact ⟨(b.kept t).take (k + 1), List.take_prefix _ _, rfl, inRange_recordAfter _⟩

theorem delivers_inRange_drainedBoard : Explained drainedBoard :=
  delivers_inRange (OrderBook.afterReset_powerUp _)

end FeedHandler.FeedPipeline
