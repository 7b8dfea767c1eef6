import FeedHandler.BookSide
import FeedHandler.LadderWindow

/-!
# One update of a price-level store

A store whose valid slots are a leading segment, sorted best first with non-zero
sizes, holds a side of the book, and one update through the three register stages
is one message on that side.  It keeps the best `depth` levels, as the module
promises, except in one corner: with no slot in front of which the new price
belongs the position encoder answers `depth - 1`, so a full store gives up its last
level for a price that is worse than all of its own.
-/

namespace FeedHandler

open Chisel PriceLevelStore

variable {depth priceBits sizeBits : Nat} {isBid : Bool}

/-! ### Well-formed register files hold a side -/

section Represents

variable {store : Vector (Level priceBits sizeBits) depth}

/-- Prices in strict order are distinct. -/
theorem wellFormed_of_sorted
    (leading : ∀ i j : Fin depth, i < j → (store.get j).valid = true → (store.get i).valid = true)
    (sorted : ∀ i j : Fin depth, i < j → (store.get j).valid = true →
      priceRank isBid (store.get i).price < priceRank isBid (store.get j).price)
    (nonzero : ∀ i : Fin depth, (store.get i).valid = true → (store.get i).size ≠ 0) :
    WellFormed isBid store where
  leading i j hij hj hvalid := leading ⟨i, hij.trans hj⟩ ⟨j, hj⟩ hij hvalid
  sorted i j hij hj hvalid :=
    (priceRank_lt_iff isBid _ _).mp (sorted ⟨i, hij.trans hj⟩ ⟨j, hj⟩ hij hvalid)
  distinct i j hi hj hvalid hvalid' heq := by
    have hrank := congrArg (priceRank isBid) heq
    rcases Nat.lt_trichotomy i j with hij | rfl | hji
    · exact absurd hrank (ne_of_lt (sorted ⟨i, hi⟩ ⟨j, hj⟩ hij hvalid'))
    · rfl
    · exact absurd hrank (ne_of_gt (sorted ⟨j, hj⟩ ⟨i, hi⟩ hji hvalid))
  nonzero i hi hvalid := nonzero ⟨i, hi⟩ hvalid

/-- The valid slots end where the first invalid one stands. -/
theorem WellFormed.exists_count (h : WellFormed isBid store) :
    ∃ n ≤ depth, ∀ i, (hi : i < depth) → (store[i].valid = true ↔ i < n) := by
  refine ⟨store.toList.findIdx fun level => !level.valid, ?_, ?_⟩
  · simpa using (List.findIdx_le_length : _ ≤ store.toList.length)
  · intro i hi
    constructor
    · intro hvalid
      by_contra hge
      have hin : store.toList.findIdx (fun level => !level.valid) < store.toList.length := by
        simpa using Nat.lt_of_le_of_lt (Nat.le_of_not_lt hge) hi
      have hfirst := List.findIdx_getElem (w := hin)
      rcases Nat.lt_or_eq_of_le (Nat.le_of_not_lt hge) with hlt | heq
      · have hbefore := h.leading _ i hlt hi hvalid
        simp [hbefore] at hfirst
      · simp [heq, hvalid] at hfirst
    · intro hlt
      simpa using List.not_of_lt_findIdx hlt

/-- **A well-formed register file holds a side of the book.** -/
theorem WellFormed.exists_side (h : WellFormed isBid store) :
    ∃ side : BookSide isBid depth priceBits sizeBits, Holds store side.entries := by
  rcases h.exists_count with ⟨n, hn, hvalid⟩
  have hentry : ∀ i, (hi : i < ((store.toList.take n).map
      fun level => (level.price, level.size)).length) → i < n ∧ i < depth := by
    intro i hi
    simp only [List.length_map, List.length_take, Vector.length_toList] at hi
    omega
  refine ⟨⟨(store.toList.take n).map fun level => (level.price, level.size), ?_, ?_, ?_⟩, ?_⟩
  · simp
  · rw [Ladder.Ascending, List.pairwise_iff_getElem]
    intro i j hi hj hij
    have hin := hentry j hj
    have hsorted := h.sorted i j hij hin.2 ((hvalid j hin.2).mpr hin.1)
    simpa [rank] using (priceRank_lt_iff isBid _ _).mpr hsorted
  · intro e he
    obtain ⟨i, hi, rfl⟩ := List.getElem_of_mem he
    have hin := hentry i hi
    simpa using h.nonzero i hin.2 ((hvalid i hin.2).mpr hin.1)
  · intro i hi
    by_cases hlt : i < n
    · have hsome : store[i].asEntry = some (store[i].price, store[i].size) :=
        Level.asEntry_eq_some.mpr ⟨(hvalid i hi).mpr hlt, rfl, rfl⟩
      simp [hsome, hlt, hi]
    · have hnone : store[i].asEntry = none := by
        rw [← Option.not_isSome_iff_eq_none, Level.asEntry_isSome]
        exact fun hthere => hlt ((hvalid i hi).mp hthere)
      simp [hnone, hlt]

end Represents

namespace PriceLevelStore

/-! ### The three stages on one message -/

/-- The module over the cycle of the `update` pulse and the two cycles after it. -/
def afterUpdate (isBid : Bool) (s : State depth priceBits sizeBits)
    (msg first second : MarketMsg priceBits sizeBits) : State depth priceBits sizeBits :=
  next isBid (next isBid (next isBid s msg true) first false) second false

theorem store_afterUpdate {s : State depth priceBits sizeBits}
    {store : Vector (Level priceBits sizeBits) depth} (h : InStage isBid store .idle s)
    (msg first second : MarketMsg priceBits sizeBits) :
    (afterUpdate isBid s msg first second).store = updateOnce isBid store msg.price msg.size := by
  have hlanded := ((h.start msg).choose first).land second
  exact hlanded.store_eq

/-- The best `depth` levels after a message: a delete removes the level at its price,
    another message writes its size there or takes its place in the order. -/
def bestLevels (isBid : Bool) (depth : Nat) (levels : List (Entry priceBits sizeBits))
    (price : BitVec priceBits) (size : BitVec sizeBits) : List (Entry priceBits sizeBits) :=
  if size = 0 then Ladder.discard (rank isBid) (priceRank isBid price) levels
  else (Ladder.put (rank isBid) (price, size) levels).take depth

/-- Every slot is valid and better than the price. -/
def WorstOfFull (isBid : Bool) (store : Vector (Level priceBits sizeBits) depth)
    (price : BitVec priceBits) : Prop :=
  ∀ i, (hi : i < depth) → store[i].valid = true ∧
    if isBid then price < store[i].price else store[i].price < price

theorem worstOfFull_iff {store : Vector (Level priceBits sizeBits) depth}
    {side : BookSide isBid depth priceBits sizeBits} (h : Holds store side.entries)
    (price : BitVec priceBits) :
    WorstOfFull isBid store price ↔
      side.entries.length = depth ∧ ∀ e ∈ side.entries, rank isBid e < priceRank isBid price := by
  constructor
  · intro hworst
    have hlong : ∀ i, (hi : i < depth) → i < side.entries.length := fun i hi =>
      (h.exists_entry hi (hworst i hi).1).1
    constructor
    · apply Nat.le_antisymm side.bounded
      by_contra hshort
      exact Nat.lt_irrefl _ (hlong side.entries.length (Nat.lt_of_not_le hshort))
    · intro e he
      obtain ⟨i, hi, rfl⟩ := List.getElem_of_mem he
      have hi' : i < depth := Nat.lt_of_lt_of_le hi side.bounded
      obtain ⟨_, hentry⟩ := h.exists_entry hi' (hworst i hi').1
      rw [hentry]
      exact (priceRank_lt_iff isBid _ _).mpr (hworst i hi').2
  · rintro ⟨hfull, hlast⟩ i hi
    have hlt : i < side.entries.length := by omega
    have hthere : store[i].asEntry = some side.entries[i] := by
      rw [h i hi, List.getElem?_eq_getElem hlt]
    rcases Level.asEntry_eq_some.mp hthere with ⟨hvalid, hprice, -⟩
    refine ⟨hvalid, (priceRank_lt_iff isBid _ _).mp ?_⟩
    rw [hprice]
    exact hlast _ (List.getElem_mem hlt)

/-- The message on the side keeps the best levels unless it comes last in a full one. -/
theorem applyEntries_eq_bestLevels_iff [NeZero depth]
    (side : BookSide isBid depth priceBits sizeBits) (price : BitVec priceBits)
    (size : BitVec sizeBits) :
    BookSide.applyEntries isBid depth side.entries price size =
        bestLevels isBid depth side.entries price size ↔
      ¬ (size ≠ 0 ∧ side.entries.length = depth ∧
        ∀ e ∈ side.entries, rank isBid e < priceRank isBid price) := by
  unfold BookSide.applyEntries bestLevels
  split_ifs with hsize hthere
  · simp [hsize]
  · -- the price is there: nothing is added, and it is not worse than its own level
    rcases hthere with ⟨e, he, hprice⟩
    have hkey : rank isBid e = rank isBid (price, size) := congrArg (priceRank isBid) hprice
    have hlen : (Ladder.put (rank isBid) (price, size) side.entries).length ≤ depth := by
      rw [side.ascending.length_put_of_mem he hkey]
      exact side.bounded
    rw [List.take_of_length_le hlen]
    refine ⟨fun _ hworst => ?_, fun _ => rfl⟩
    exact absurd hkey (ne_of_lt (hworst.2.2 e he))
  · have hnew : ∀ e ∈ side.entries, rank isBid e ≠ rank isBid (price, size) :=
      fun e he hkey => hthere ⟨e, he, priceRank_inj.mp hkey⟩
    have hiff := side.ascending.put_take_eq_iff (Nat.pos_of_ne_zero (NeZero.ne depth))
      side.bounded hnew
    rw [hiff]
    exact not_congr ⟨fun h => ⟨hsize, h⟩, fun h => h.2⟩

/-- A full bid store of two slots and a bid below both. -/
def fullBids : State 2 32 32 :=
  { powerUp with store := #v[⟨20, 1, true⟩, ⟨10, 1, true⟩] }

def lowBid : MarketMsg 32 32 where
  price := 5
  size := 7
  side := Side.BID
  seqNum := 0
  valid := true

theorem wellFormed_fullBids : WellFormed true fullBids.store := by
  apply wellFormed_of_sorted
  · decide
  · decide
  · decide

/-- **A better level is lost.**  The bid at 5 takes the slot of the bid at 10. -/
theorem lowBid_evicts :
    InStage true fullBids.store .idle fullBids ∧ WellFormed true fullBids.store ∧
      validLevels (afterUpdate true fullBids lowBid lowBid lowBid).store ≠
        bestLevels true 2 (validLevels fullBids.store) lowBid.price lowBid.size :=
  ⟨⟨rfl, rfl, rfl⟩, wellFormed_fullBids, by decide +kernel⟩

/-- **What one update keeps.**  On a well-formed store with no update in flight, full or
    not, the valid slots after the three stages are the best `depth` levels exactly
    unless the message has a size, every slot is valid and the price is worse than all
    of them. -/
theorem keepsBest_iff [NeZero depth] {s : State depth priceBits sizeBits}
    (hidle : InStage isBid s.store .idle s) (hwell : WellFormed isBid s.store)
    (msg first second : MarketMsg priceBits sizeBits) :
    validLevels (afterUpdate isBid s msg first second).store =
        bestLevels isBid depth (validLevels s.store) msg.price msg.size ↔
      ¬ (msg.size ≠ 0 ∧ WorstOfFull isBid s.store msg.price) := by
  rcases hwell.exists_side with ⟨side, hholds⟩
  have hafter := hholds.updateOnce msg.price msg.size
  rw [store_afterUpdate hidle, hafter.validLevels_eq (BookSide.bounded _),
    hholds.validLevels_eq side.bounded, worstOfFull_iff hholds]
  exact applyEntries_eq_bestLevels_iff side msg.price msg.size

/-- The bid at 15 finds its place in the full store. -/
theorem keepsBest_midBid :
    validLevels (afterUpdate true fullBids { lowBid with price := 15 } lowBid lowBid).store =
        bestLevels true 2 (validLevels fullBids.store) 15 lowBid.size ↔
      ¬ (lowBid.size ≠ 0 ∧ WorstOfFull true fullBids.store 15) :=
  keepsBest_iff ⟨rfl, rfl, rfl⟩ wellFormed_fullBids { lowBid with price := 15 } lowBid lowBid

end PriceLevelStore

end FeedHandler
