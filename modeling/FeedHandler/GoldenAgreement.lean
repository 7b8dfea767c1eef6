import FeedHandler.BookSide
import FeedHandler.LadderWindow
import FeedHandler.OrderBook
import FeedHandler.OrderBookRef
import Mathlib.Data.List.Induction
import Mathlib.Data.List.Infix

/-!
# The store against the golden model

A price-level store and `OrderBookRef` fed the same normalized messages.  On a
side of the book both are ladders: the golden one keeps every live level, the
store keeps at most `depth` of them.  So the store never shows a level the golden
model does not have, shows exactly its levels while there are at most `depth`, and
afterwards a leading segment that each delete of a live level shortens by at most
one.
-/

namespace FeedHandler.GoldenAgreement

open Chisel PriceLevelStore

/-- A normalized message as both models receive it: ticks and sizes of 32 bits,
    a delete has size 0. -/
structure Normalized where
  msg_type : BitVec 8
  side : BitVec 1
  price : BitVec 32
  size : BitVec 32
  seqNum : BitVec 32
  delete_size : msg_type = DELETE → size = 0

namespace Normalized

def market (m : Normalized) : MarketMsg 32 32 where
  price := m.price
  size := m.size
  side := m.side
  seqNum := m.seqNum
  valid := true

/-- The message applied to the golden model, its price back in satoshis. -/
def replay (ref : OrderBookRef) (m : Normalized) : OrderBookRef :=
  ref.apply m.msg_type m.side.toNat (m.price.toNat * TICK_SIZE) m.size.toNat

/-- The message is for the side `isBid`. -/
def On (isBid : Bool) (m : Normalized) : Prop := m.side = Side.ofBid isBid

instance (isBid : Bool) (m : Normalized) : Decidable (m.On isBid) :=
  inferInstanceAs (Decidable (_ = _))

def level (m : Normalized) : Nat × Nat := (m.price.toNat, m.size.toNat)

end Normalized

/-- A message and what stands on the bus afterwards: `update` is pulsed at most
    once every 3 cycles, so at least two more cycles pass before the next one. -/
structure Delivery where
  msg : Normalized
  idle : List (MarketMsg 32 32)
  spaced : 2 ≤ idle.length

theorem Delivery.exists_idle (d : Delivery) :
    ∃ first second rest, d.idle = first :: second :: rest := by
  rcases d with ⟨msg, idle, spaced⟩
  rcases idle with - | ⟨first, - | ⟨second, rest⟩⟩
  · simp at spaced
  · simp at spaced
  · exact ⟨first, second, rest, rfl⟩

/-- A bid update or, with size 0, a bid delete, and the shortest gap after it. -/
def bidAt (price size : BitVec 32) : Delivery where
  msg :=
    { msg_type := 0x55
      side := Side.BID
      price := price
      size := size
      seqNum := 0
      delete_size := fun h => absurd h (by decide) }
  idle := List.replicate 2 { price := 0, size := 0, side := 0, seqNum := 0, valid := false }
  spaced := by decide

def askAt (price size : BitVec 32) : Delivery :=
  { bidAt price size with msg := { (bidAt price size).msg with side := Side.ASK } }

section Runs

variable {depth : Nat} (isBid : Bool)

/-- The store while a message and the idle cycles after it pass. -/
def deliver (s : State depth 32 32) (d : Delivery) : State depth 32 32 :=
  d.idle.foldl (fun s bus => next isBid s bus false)
    (next isBid s d.msg.market (d.msg.side == Side.ofBid isBid))

/-- The store of one side after a reset and the given messages. -/
def storeAfter (s : State depth 32 32) (ds : List Delivery) : State depth 32 32 :=
  ds.foldl (deliver isBid) (resetRegs s)

def refFrom (ref : OrderBookRef) (ds : List Delivery) : OrderBookRef :=
  ds.foldl (fun ref d => d.msg.replay ref) ref

def refAfter (depth : Nat) (ds : List Delivery) : OrderBookRef := refFrom (.init depth) ds

def liveLevels (ref : OrderBookRef) : Nat := (ref.live isBid).items.length

end Runs

/-! ### Both sides as ladders of ticks and sizes -/

/-- An entry of the store in the golden model's terms. -/
def ticks {priceBits sizeBits : Nat} (e : Entry priceBits sizeBits) : Nat × Nat :=
  (e.1.toNat, e.2.toNat)

def levelRank (isBid : Bool) (e : Nat × Nat) : Int := OrderBookRef.tickRank isBid e.1

theorem levelRank_ticks {priceBits sizeBits : Nat} (isBid : Bool)
    (e : Entry priceBits sizeBits) : levelRank isBid (ticks e) = rank isBid e := rfl

theorem levelRank_eq_iff {isBid : Bool} {e e' : Nat × Nat} :
    levelRank isBid e = levelRank isBid e' ↔ e.1 = e'.1 :=
  (OrderBookRef.tickRank_injective isBid).eq_iff

variable {depth : Nat} {isBid : Bool}

theorem ascending_ticks (side : BookSide isBid depth 32 32) :
    Ladder.Ascending (levelRank isBid) (side.entries.map ticks) :=
  (Ladder.ascending_map (levelRank_ticks isBid)).mpr side.ascending

/-- The side's own message effect, in ticks: a change of a ladder that keeps at
    most `depth` entries. -/
theorem map_applyEntries (entries : List (Entry 32 32)) (price size : BitVec 32) :
    (BookSide.applyEntries isBid depth entries price size).map ticks =
      Ladder.updateWithin (levelRank isBid) depth (size = 0) (price.toNat, size.toNat)
        (entries.map ticks) := by
  have hkey : levelRank isBid (price.toNat, size.toNat) = priceRank isBid price := rfl
  have hthere : (∃ x ∈ entries.map ticks, levelRank isBid x =
      levelRank isBid (price.toNat, size.toNat)) ↔ ∃ e ∈ entries, e.1 = price := by
    simp only [List.mem_map, exists_exists_and_eq_and, levelRank_eq_iff, ticks, BitVec.toNat_inj]
  unfold BookSide.applyEntries Ladder.updateWithin
  simp only [hthere]
  split_ifs
  · rw [Ladder.map_discard (levelRank_ticks isBid), hkey]
  · rw [Ladder.map_put (levelRank_ticks isBid)]
    rfl
  · rw [Ladder.map_put (levelRank_ticks isBid), List.map_take]
    rfl

theorem on_iff (m : Normalized) : m.On isBid ↔ decide (m.side.toNat = 0) = isBid := by
  unfold Normalized.On
  rcases Side.eq_bid_or_ask m.side with hside | hside <;> rw [hside] <;> cases isBid <;> decide

/-- The golden model's message effect: the same change of a ladder that keeps
    everything. -/
theorem ladder_replay (ref : OrderBookRef) (m : Normalized) :
    (m.replay ref).ladder isBid =
      if m.On isBid then
        Ladder.update (levelRank isBid) (m.size = 0) m.level (ref.ladder isBid)
      else ref.ladder isBid := by
  have hticks : m.price.toNat * TICK_SIZE / TICK_SIZE = m.price.toNat :=
    Nat.mul_div_cancel _ (by decide)
  have hgone : (m.msg_type = DELETE ∨ m.size.toNat = 0) ↔ m.size = 0 := by
    constructor
    · rintro (htype | hsize)
      · exact m.delete_size htype
      · exact BitVec.eq_of_toNat_eq hsize
    · intro hsize
      exact Or.inr (congrArg BitVec.toNat hsize)
  have hrank := OrderBookRef.tickRank_injective isBid
  unfold OrderBookRef.ladder Normalized.replay
  rw [OrderBookRef.live_apply, hticks]
  simp only [on_iff]
  split_ifs with hside
  · simp only [OrderBookRef.applyTo, hgone, Ladder.update]
    split_ifs
    · exact Dict.sorted_pop hrank _ _
    · exact Dict.sorted_set hrank _ _ _
  · rfl

theorem length_ladder (ref : OrderBookRef) :
    (ref.ladder isBid).length = liveLevels isBid ref :=
  Dict.length_sorted _

theorem mem_ladder {ref : OrderBookRef} {e : Nat × Nat} :
    e ∈ ref.ladder isBid ↔ e ∈ (ref.live isBid).items :=
  Dict.mem_sorted

/-! ### The side a store holds -/

section Store

variable {s : State depth 32 32} {store : Vector (Level 32 32) depth}

theorem inStage_idle (h : InStage isBid store .idle s) (idle : List (MarketMsg 32 32)) :
    InStage isBid store .idle (idle.foldl (fun s bus => next isBid s bus false) s) := by
  induction idle generalizing s with
  | nil => exact h
  | cons bus idle ih => exact ih (h.stay bus)

/-- Once a message and its idle cycles have passed it has had its whole effect. -/
theorem inStage_deliver (h : InStage isBid store .idle s) (d : Delivery) :
    InStage isBid
      (if d.msg.On isBid then updateOnce isBid store d.msg.price d.msg.size else store) .idle
      (deliver isBid s d) := by
  unfold deliver
  by_cases hside : d.msg.On isBid
  · rw [if_pos hside, show (d.msg.side == Side.ofBid isBid) = true from
      beq_iff_eq.mpr hside]
    rcases d.exists_idle with ⟨first, second, rest, hidle⟩
    have hcompared := h.start d.msg.market
    have hlanded := (hcompared.choose first).land second
    rw [hidle, List.foldl_cons, List.foldl_cons]
    exact inStage_idle hlanded rest
  · rw [if_neg hside, show (d.msg.side == Side.ofBid isBid) = false from
      beq_eq_false_iff_ne.mpr hside]
    exact inStage_idle (h.stay _) _

variable [NeZero depth]

def onSide (side : BookSide isBid depth 32 32) (m : Normalized) : BookSide isBid depth 32 32 :=
  if m.On isBid then side.apply m.price m.size else side

def sideFrom (side : BookSide isBid depth 32 32) (ds : List Delivery) :
    BookSide isBid depth 32 32 :=
  ds.foldl (fun side d => onSide side d.msg) side

/-- The levels the store keeps after the given messages, in ticks. -/
def hardware (isBid : Bool) (depth : Nat) [NeZero depth] (ds : List Delivery) :
    List (Nat × Nat) :=
  (sideFrom (.empty : BookSide isBid depth 32 32) ds).entries.map ticks

def golden (isBid : Bool) (depth : Nat) (ds : List Delivery) : List (Nat × Nat) :=
  (refAfter depth ds).ladder isBid

theorem holds_storeFrom {side : BookSide isBid depth 32 32} (h : InStage isBid store .idle s)
    (hholds : Holds store side.entries) (ds : List Delivery) :
    Holds (ds.foldl (deliver isBid) s).store (sideFrom side ds).entries := by
  induction ds generalizing s store side with
  | nil => exact h.store_eq ▸ hholds
  | cons d ds ih =>
    have hstep : Holds
        (if d.msg.On isBid then updateOnce isBid store d.msg.price d.msg.size else store)
        (onSide side d.msg).entries := by
      unfold onSide
      split_ifs
      · exact hholds.updateOnce _ _
      · exact hholds
    exact ih (inStage_deliver h d) hstep

/-- **The store holds its side**: slot `i` reads as entry `i` of `hardware`. -/
theorem storeAfter_entry (s : State depth 32 32) (ds : List Delivery) {i : Nat} (hi : i < depth) :
    (storeAfter isBid s ds).store[i].asEntry.map ticks = (hardware isBid depth ds)[i]? := by
  have hholds : Holds (storeAfter isBid s ds).store (sideFrom .empty ds).entries :=
    holds_storeFrom (inStage_reset isBid s) holds_empty ds
  rw [hholds i hi, hardware, List.getElem?_map]

theorem map_onSide (side : BookSide isBid depth 32 32) (m : Normalized) :
    (onSide side m).entries.map ticks =
      if m.On isBid then
        Ladder.updateWithin (levelRank isBid) depth (m.size = 0) m.level (side.entries.map ticks)
      else side.entries.map ticks := by
  unfold onSide
  split_ifs
  · exact map_applyEntries _ _ _
  · rfl

end Store

/-! ### No phantom level -/

section Agreement

variable [NeZero depth]

theorem hardware_append_singleton (ds : List Delivery) (d : Delivery) :
    hardware isBid depth (ds ++ [d]) =
      if d.msg.On isBid then
        Ladder.updateWithin (levelRank isBid) depth (d.msg.size = 0) d.msg.level
          (hardware isBid depth ds)
      else hardware isBid depth ds := by
  unfold hardware sideFrom
  rw [List.foldl_append]
  exact map_onSide _ _

omit [NeZero depth] in
theorem golden_append_singleton (ds : List Delivery) (d : Delivery) :
    golden isBid depth (ds ++ [d]) =
      if d.msg.On isBid then
        Ladder.update (levelRank isBid) (d.msg.size = 0) d.msg.level (golden isBid depth ds)
      else golden isBid depth ds := by
  unfold golden refAfter refFrom
  rw [List.foldl_append]
  exact ladder_replay _ _

theorem ascending_hardware (ds : List Delivery) :
    Ladder.Ascending (levelRank isBid) (hardware isBid depth ds) :=
  ascending_ticks _

omit [NeZero depth] in
theorem ascending_golden (ds : List Delivery) :
    Ladder.Ascending (levelRank isBid) (golden isBid depth ds) :=
  OrderBookRef.ascending_ladder _ _

/-- Whatever the store has forgotten, what it keeps is live. -/
theorem hardware_subset_golden (ds : List Delivery) :
    hardware isBid depth ds ⊆ golden isBid depth ds := by
  induction ds using List.reverseRecOn with
  | nil => exact List.nil_subset _
  | append_singleton ds d ih =>
    rw [hardware_append_singleton, golden_append_singleton]
    split_ifs
    · exact (ascending_hardware ds).updateWithin_subset (ascending_golden ds) ih
    · exact ih

theorem mem_live_of_valid (isBid : Bool) (s : State depth 32 32) (ds : List Delivery) {i : Nat}
    (hi : i < depth) (hvalid : (storeAfter isBid s ds).store[i].valid = true) :
    ((storeAfter isBid s ds).store[i].price.toNat, (storeAfter isBid s ds).store[i].size.toNat) ∈
      ((refAfter depth ds).live isBid).items := by
  have hentry := @storeAfter_entry depth isBid _ s ds i hi
  have hsome : (storeAfter isBid s ds).store[i].asEntry =
      some ((storeAfter isBid s ds).store[i].price, (storeAfter isBid s ds).store[i].size) :=
    Level.asEntry_eq_some.mpr ⟨hvalid, rfl, rfl⟩
  rw [hsome] at hentry
  exact mem_ladder.mp (hardware_subset_golden ds (List.mem_of_getElem? hentry.symm))

/-- **No phantom or stale level.**  After any messages every valid slot is a live
    level of the golden model with exactly that size, so a price the golden model has
    deleted is in no valid slot. -/
theorem no_phantom_level (isBid : Bool) (s : State depth 32 32) (ds : List Delivery) {i : Nat}
    (hi : i < depth) (hvalid : (storeAfter isBid s ds).store[i].valid = true) :
    ((storeAfter isBid s ds).store[i].price.toNat, (storeAfter isBid s ds).store[i].size.toNat) ∈
        ((refAfter depth ds).live isBid).items ∧
      ∀ price, (∀ e ∈ ((refAfter depth ds).live isBid).items, e.1 ≠ price) →
        (storeAfter isBid s ds).store[i].price.toNat ≠ price := by
  have hlive := mem_live_of_valid isBid s ds hi hvalid
  exact ⟨hlive, fun price hdeleted => hdeleted _ hlive⟩

/-- A third bid evicts the first, the second is updated and the third deleted. -/
def evictUpdateDelete : List Delivery := [bidAt 1 4, bidAt 2 5, bidAt 3 6, bidAt 2 9, bidAt 3 0]

theorem no_phantom_level_evictUpdateDelete :
    ((storeAfter true (powerUp : State 2 32 32) evictUpdateDelete).store[0].price.toNat,
      (storeAfter true (powerUp : State 2 32 32) evictUpdateDelete).store[0].size.toNat) ∈
        ((refAfter 2 evictUpdateDelete).live true).items ∧
      ∀ price, (∀ e ∈ ((refAfter 2 evictUpdateDelete).live true).items, e.1 ≠ price) →
        (storeAfter true (powerUp : State 2 32 32) evictUpdateDelete).store[0].price.toNat ≠
          price :=
  no_phantom_level true powerUp evictUpdateDelete (by decide) (by decide +kernel)

/-! ### How far the store agrees -/

/-- The message deletes a level that the golden model has. -/
def Removes (isBid : Bool) (ref : OrderBookRef) (m : Normalized) : Prop :=
  m.On isBid ∧ m.size = 0 ∧ ∃ e ∈ (ref.live isBid).items, e.1 = m.price.toNat

instance (isBid : Bool) (ref : OrderBookRef) (m : Normalized) :
    Decidable (Removes isBid ref m) :=
  inferInstanceAs (Decidable (_ ∧ _ ∧ _))

/-- How many live levels of a side the messages delete, from `ref` on. -/
def removals (isBid : Bool) (ref : OrderBookRef) : List Delivery → Nat
  | [] => 0
  | d :: ds => (if Removes isBid ref d.msg then 1 else 0) + removals isBid (d.msg.replay ref) ds

def deletes (isBid : Bool) (ds : List Delivery) : Nat :=
  ds.countP fun d => decide (d.msg.On isBid ∧ d.msg.size = 0)

omit [NeZero depth] in
theorem removals_le_deletes (ref : OrderBookRef) (ds : List Delivery) :
    removals isBid ref ds ≤ deletes isBid ds := by
  induction ds generalizing ref with
  | nil => exact Nat.zero_le _
  | cons d ds ih =>
    have hrest := ih (d.msg.replay ref)
    rw [removals, deletes, List.countP_cons, ← deletes]
    have hhead : (if Removes isBid ref d.msg then 1 else 0) ≤
        if decide (d.msg.On isBid ∧ d.msg.size = 0) = true then 1 else 0 := by
      split_ifs with hremoves hdelete
      · exact Nat.le_refl _
      · exact absurd (decide_eq_true ⟨hremoves.1, hremoves.2.1⟩) hdelete
      · exact Nat.zero_le _
      · exact Nat.le_refl _
    omega

/-- The store has no levels but the golden ones, and the first `k` golden ones are
    there and first in the store too. -/
structure Covers (k : Nat) (kept full : List (Nat × Nat)) : Prop where
  subset : kept ⊆ full
  agree : kept.take k = full.take k
  reach : k ≤ full.length

/-- **One message** costs the agreement at most one level, and only when it deletes
    a live one. -/
theorem Covers.step {k : Nat} {side : BookSide isBid depth 32 32} {ref : OrderBookRef}
    (h : Covers k (side.entries.map ticks) (ref.ladder isBid)) (hk : k ≤ depth - 1)
    (m : Normalized) :
    Covers (k - if Removes isBid ref m then 1 else 0) ((onSide side m).entries.map ticks)
      ((m.replay ref).ladder isBid) := by
  have hkept := ascending_ticks side
  have hfull := OrderBookRef.ascending_ladder ref isBid
  rw [map_onSide, ladder_replay]
  by_cases hon : m.On isBid
  · rw [if_pos hon, if_pos hon]
    have hsubset : Ladder.updateWithin (levelRank isBid) depth (m.size = 0) m.level _ ⊆
        Ladder.update (levelRank isBid) (m.size = 0) m.level _ :=
      hkept.updateWithin_subset hfull h.subset
    by_cases hsize : m.size = 0
    · by_cases hlive : ∃ e ∈ (ref.live isBid).items, e.1 = m.price.toNat
      · rw [if_pos ⟨hon, hsize, hlive⟩]
        have hreach : (ref.ladder isBid).length ≤
            (Ladder.update (levelRank isBid) (m.size = 0) m.level (ref.ladder isBid)).length + 1 :=
          hfull.length_le_length_update
        cases k with
        | zero => exact ⟨hsubset, rfl, Nat.zero_le _⟩
        | succ k =>
          have hlength := h.reach
          exact ⟨hsubset, hkept.take_updateWithin_of_discard hfull hsize h.agree,
            Nat.le_of_succ_le_succ (hlength.trans hreach)⟩
      · have habsent : ∀ e ∈ ref.ladder isBid, levelRank isBid e ≠ levelRank isBid m.level :=
          fun e he hkey => hlive ⟨e, mem_ladder.mp he, levelRank_eq_iff.mp hkey⟩
        obtain ⟨hsame, hsame'⟩ :=
          Ladder.updateWithin_of_absent depth hsize h.subset habsent
        rw [if_neg fun hremoves => hlive hremoves.2.2, hsame, hsame']
        exact h
    · rw [if_neg fun hremoves => hsize hremoves.2.1]
      exact ⟨hsubset, Ladder.take_updateWithin_of_put hsize hk h.agree,
        h.reach.trans (Ladder.length_update_of_put hsize)⟩
  · rw [if_neg hon, if_neg hon, if_neg fun hremoves => hon hremoves.1]
    exact h

theorem Covers.run {k : Nat} {side : BookSide isBid depth 32 32} {ref : OrderBookRef}
    (h : Covers k (side.entries.map ticks) (ref.ladder isBid)) (hk : k ≤ depth - 1)
    (ds : List Delivery) :
    Covers (k - removals isBid ref ds) ((sideFrom side ds).entries.map ticks)
      ((refFrom ref ds).ladder isBid) := by
  induction ds generalizing k side ref with
  | nil => exact h
  | cons d ds ih =>
    have hrest := ih (h.step hk d.msg) ((Nat.sub_le _ _).trans hk)
    rw [Nat.sub_sub] at hrest
    exact hrest

omit [NeZero depth] in
theorem top_refAfter (isBid : Bool) (ds : List Delivery) :
    (refAfter depth ds).top isBid = (golden isBid depth ds).take depth := by
  have hdepth : (refAfter depth ds).depth = depth := by
    induction ds using List.reverseRecOn with
    | nil => rfl
    | append_singleton ds d ih =>
      unfold refAfter refFrom at *
      rw [List.foldl_append]
      exact (OrderBookRef.depth_apply _ _ _ _ _).trans ih
  rw [OrderBookRef.top_eq, hdepth, golden]

theorem Covers.slot {k i : Nat} {ds : List Delivery}
    (h : Covers k (hardware isBid depth ds) (golden isBid depth ds)) (s : State depth 32 32)
    (hi : i < depth) (hk : i < k) :
    (storeAfter isBid s ds).store[i].valid = true ∧
      ((refAfter depth ds).top isBid)[i]? =
        some ((storeAfter isBid s ds).store[i].price.toNat,
          (storeAfter isBid s ds).store[i].size.toNat) := by
  have hlength : i < (golden isBid depth ds).length := hk.trans_le h.reach
  have hgolden : (golden isBid depth ds)[i]? = some (golden isBid depth ds)[i] :=
    List.getElem?_eq_getElem hlength
  have hagree : (hardware isBid depth ds)[i]? = (golden isBid depth ds)[i]? := by
    rw [← List.getElem?_take_of_lt hk, h.agree, List.getElem?_take_of_lt hk]
  have hentry := @storeAfter_entry depth isBid _ s ds i hi
  rw [hagree, hgolden, Option.map_eq_some_iff] at hentry
  rcases hentry with ⟨e, hsome, hticks⟩
  rcases Level.asEntry_eq_some.mp hsome with ⟨hvalid, hprice, hsize⟩
  refine ⟨hvalid, ?_⟩
  rw [top_refAfter, List.getElem?_take_of_lt hi, hgolden, ← hticks, hprice, hsize]
  rfl

/-- The golden side has held at most `depth` live levels after each of the messages. -/
def NeverOver (isBid : Bool) (depth : Nat) (ds : List Delivery) : Prop :=
  ∀ pre, pre <+: ds → liveLevels isBid (refAfter depth pre) ≤ depth

instance (isBid : Bool) (depth : Nat) (ds : List Delivery) :
    Decidable (NeverOver isBid depth ds) :=
  decidable_of_iff (∀ pre ∈ ds.inits, liveLevels isBid (refAfter depth pre) ≤ depth) (by
    simp only [NeverOver, List.mem_inits])

/-- After `pre`, message `d` is the first that makes the golden side hold more than
    `depth` live levels. -/
def FirstOver (isBid : Bool) (depth : Nat) (pre : List Delivery) (d : Delivery) : Prop :=
  NeverOver isBid depth pre ∧ depth < liveLevels isBid (refAfter depth (pre ++ [d]))

instance (isBid : Bool) (depth : Nat) (pre : List Delivery) (d : Delivery) :
    Decidable (FirstOver isBid depth pre d) :=
  inferInstanceAs (Decidable (_ ∧ _))

omit [NeZero depth] in
theorem length_golden (ds : List Delivery) :
    (golden isBid depth ds).length = liveLevels isBid (refAfter depth ds) :=
  length_ladder _

theorem hardware_eq_golden {ds : List Delivery} (h : NeverOver isBid depth ds) :
    hardware isBid depth ds = golden isBid depth ds := by
  induction ds using List.reverseRecOn with
  | nil => cases isBid <;> rfl
  | append_singleton ds d ih =>
    have hbefore := ih fun pre hpre => h pre (hpre.trans (List.prefix_append _ _))
    have hroom := h _ (List.prefix_refl _)
    rw [← length_golden, golden_append_singleton] at hroom
    rw [hardware_append_singleton, golden_append_singleton, hbefore]
    split_ifs at hroom ⊢ with hon
    · exact Ladder.updateWithin_eq_update hroom
    · rfl

/-- The first message too many leaves all but one of the store's levels right. -/
theorem covers_of_firstOver {pre : List Delivery} {d : Delivery}
    (h : FirstOver isBid depth pre d) :
    Covers (depth - 1) (hardware isBid depth (pre ++ [d])) (golden isBid depth (pre ++ [d])) := by
  rcases h with ⟨hnever, hover⟩
  have hbefore : (golden isBid depth pre).length ≤ depth := by
    rw [length_golden]
    exact hnever pre (List.prefix_refl _)
  rw [← length_golden] at hover
  refine ⟨hardware_subset_golden _, ?_, by omega⟩
  rw [golden_append_singleton] at hover
  rw [hardware_append_singleton, golden_append_singleton, hardware_eq_golden hnever]
  split_ifs at hover ⊢ with hon
  · refine Ladder.take_updateWithin_of_put (fun hsize => ?_) (Nat.le_refl _) rfl
    rw [Ladder.update, if_pos hsize] at hover
    exact absurd (hover.trans_le ((List.length_filter_le _ _).trans hbefore)) (Nat.lt_irrefl _)
  · rfl

/-- After the first message too many, only deletes of live levels cost agreement. -/
theorem covers_after {pre : List Delivery} {d : Delivery} (h : FirstOver isBid depth pre d)
    (post : List Delivery) :
    Covers (depth - 1 - removals isBid (refAfter depth (pre ++ [d])) post)
      (hardware isBid depth (pre ++ d :: post)) (golden isBid depth (pre ++ d :: post)) := by
  have hrun := (covers_of_firstOver h).run (Nat.le_refl _) post
  have hsplit : pre ++ d :: post = (pre ++ [d]) ++ post := by simp
  have hside : sideFrom (.empty : BookSide isBid depth 32 32) (pre ++ [d] ++ post) =
      sideFrom (sideFrom .empty (pre ++ [d])) post := List.foldl_append
  have href : refAfter depth (pre ++ [d] ++ post) = refFrom (refAfter depth (pre ++ [d])) post :=
    List.foldl_append
  rw [hsplit, hardware, golden, hside, href]
  exact hrun

/-- **How accurate the store is.**  While the golden side has never held more than
    `depth` levels the valid slots are its top levels, all of them.  From the first
    message that makes it hold more, the first `depth - 1 - D` slots are valid and
    are the first golden levels, `D` the number of deletes for that side since. -/
theorem accurate (isBid : Bool) (s : State depth 32 32) (ds : List Delivery) :
    (NeverOver isBid depth ds →
      (validLevels (storeAfter isBid s ds).store).map ticks = (refAfter depth ds).top isBid) ∧
    ∀ pre d post, ds = pre ++ d :: post → FirstOver isBid depth pre d →
      ∀ i, (hi : i < depth) → i < depth - 1 - deletes isBid post →
        (storeAfter isBid s ds).store[i].valid = true ∧
          ((refAfter depth ds).top isBid)[i]? =
            some ((storeAfter isBid s ds).store[i].price.toNat,
              (storeAfter isBid s ds).store[i].size.toNat) := by
  constructor
  · intro hnever
    have hholds : Holds (storeAfter isBid s ds).store
        (sideFrom (.empty : BookSide isBid depth 32 32) ds).entries :=
      holds_storeFrom (inStage_reset isBid s) holds_empty ds
    have hlength : (golden isBid depth ds).length ≤ depth := by
      rw [length_golden]
      exact hnever ds (List.prefix_refl _)
    rw [hholds.validLevels_eq (BookSide.bounded _), top_refAfter, List.take_of_length_le hlength,
      ← hardware_eq_golden hnever]
    rfl
  · rintro pre d post rfl hfirst i hi hlt
    have hcovers := covers_after hfirst post
    have hremovals : removals isBid (refAfter depth (pre ++ [d])) post ≤ deletes isBid post :=
      removals_le_deletes _ _
    have hi' : i < depth - 1 - removals isBid (refAfter depth (pre ++ [d])) post := by omega
    exact hcovers.slot s hi hi'

/-- Two bids fit a store of two levels; a third leaves its best level right. -/
theorem accurate_overflow :
    (validLevels (storeAfter true (powerUp : State 2 32 32) [bidAt 1 4, bidAt 2 5]).store).map
        ticks = (refAfter 2 [bidAt 1 4, bidAt 2 5]).top true ∧
      (storeAfter true (powerUp : State 2 32 32)
        [bidAt 1 4, bidAt 2 5, bidAt 3 6]).store[0].valid = true ∧
      ((refAfter 2 [bidAt 1 4, bidAt 2 5, bidAt 3 6]).top true)[0]? =
        some ((storeAfter true (powerUp : State 2 32 32)
            [bidAt 1 4, bidAt 2 5, bidAt 3 6]).store[0].price.toNat,
          (storeAfter true (powerUp : State 2 32 32)
            [bidAt 1 4, bidAt 2 5, bidAt 3 6]).store[0].size.toNat) :=
  ⟨(accurate true powerUp _).1 (by decide),
    (accurate true powerUp _).2 [bidAt 1 4, bidAt 2 5] _ [] rfl (by decide) 0 (by decide)
      (by decide)⟩

/-! ### Top of book -/

/-- The golden side has never held more than `depth` levels, or fewer than `depth - 1`
    of its live levels have been deleted since it first did. -/
def TopCovered (isBid : Bool) (depth : Nat) (ds : List Delivery) : Prop :=
  NeverOver isBid depth ds ∨
    ∃ pre d post, ds = pre ++ d :: post ∧ FirstOver isBid depth pre d ∧
      removals isBid (refAfter depth (pre ++ [d])) post < depth - 1

theorem TopCovered.slot_zero {ds : List Delivery} (h : TopCovered isBid depth ds)
    (s : State depth 32 32) :
    (best (storeAfter isBid s ds).store).asEntry.map ticks =
      ((refAfter depth ds).top isBid).head? := by
  have hdepth : 0 < depth := Nat.pos_of_ne_zero (NeZero.ne depth)
  have hentry := @storeAfter_entry depth isBid _ s ds 0 hdepth
  have htop : ((refAfter depth ds).top isBid).head? = (golden isBid depth ds)[0]? := by
    rw [top_refAfter, List.head?_eq_getElem?, List.getElem?_take_of_lt hdepth]
  have hagree : (hardware isBid depth ds)[0]? = (golden isBid depth ds)[0]? := by
    rcases h with hnever | ⟨pre, d, post, rfl, hfirst, hremovals⟩
    · rw [hardware_eq_golden hnever]
    · have hcovers := covers_after hfirst post
      have hone : 0 < depth - 1 - removals isBid (refAfter depth (pre ++ [d])) post := by omega
      rw [← List.getElem?_take_of_lt hone, hcovers.agree, List.getElem?_take_of_lt hone]
  rw [htop, ← hagree, ← hentry]
  rfl

theorem TopCovered.valid_iff {ds : List Delivery} (h : TopCovered isBid depth ds)
    (s : State depth 32 32) :
    (best (storeAfter isBid s ds).store).valid = true ↔
      ((refAfter depth ds).live isBid).items ≠ [] := by
  have hdepth : depth ≠ 0 := NeZero.ne depth
  have hlength : (golden isBid depth ds).length = ((refAfter depth ds).live isBid).items.length :=
    length_golden ds
  rw [← Level.asEntry_isSome, ← Option.isSome_map (f := ticks), h.slot_zero s, top_refAfter,
    List.isSome_head?]
  simp [hdepth, ← List.length_eq_zero_iff, hlength]

theorem TopCovered.head?_top {ds : List Delivery} (h : TopCovered isBid depth ds)
    (s : State depth 32 32)
    (hvalid : (best (storeAfter isBid s ds).store).valid = true) :
    ((refAfter depth ds).top isBid).head? =
      some ((best (storeAfter isBid s ds).store).price.toNat,
        (best (storeAfter isBid s ds).store).size.toNat) := by
  rw [← h.slot_zero s, Level.asEntry, if_pos hvalid]
  rfl

theorem midprice_snapshot (ref : OrderBookRef) (seq : Nat) :
    (ref.snapshot seq).midprice =
      match ref.topBids.head?, ref.topAsks.head? with
      | some bid, some ask => ((bid.1 + ask.1) / 2 : Nat)
      | _, _ => 0 := by
  unfold OrderBookRef.snapshot
  cases ref.topBids <;> cases ref.topAsks <;> simp

theorem midprice_eq {bids asks : Vector (Level 32 32) depth} {ref : OrderBookRef}
    (hbids : (best bids).asEntry.map ticks = ref.topBids.head?)
    (hasks : (best asks).asEntry.map ticks = ref.topAsks.head?) (seq : Nat) :
    ((OrderBook.midprice bids asks).toNat : Int) = (ref.snapshot seq).midprice := by
  rw [OrderBook.midprice_toNat, midprice_snapshot, ← hbids, ← hasks]
  unfold Level.asEntry
  cases hbid : (best bids).valid <;> cases hask : (best asks).valid <;>
    simp [ticks]

/-- Eleven ever better bids, then deletes of the ten best. -/
def drained : List Delivery :=
  (List.range 11).map (fun n => bidAt (n + 1) 1) ++ (List.range 10).map fun n => bidAt (n + 2) 0

/-- **The best level can be lost.**  A store of ten levels has forgotten the eleventh
    bid, so after ten deletes it is empty while the golden side is not. -/
theorem best_level_lost :
    ¬ ∀ (isBid : Bool) (s : State 10 32 32) (ds : List Delivery),
      (storeAfter isBid s ds).store[0].valid = true ↔
        ((refAfter 10 ds).live isBid).items ≠ [] := by
  intro h
  have hgolden : ((refAfter 10 drained).live true).items ≠ [] := by decide +kernel
  have hvalid := (h true powerUp drained).mpr hgolden
  have hentry := @storeAfter_entry 10 true _ powerUp drained 0 (by decide)
  have hnone : hardware true 10 drained = [] := by decide +kernel
  rw [hnone, Level.asEntry, if_pos hvalid] at hentry
  exact absurd hentry (by simp)

/-- **Top of book.**  A valid slot 0 is always a live golden level.  As long as the
    golden side never held more than ten levels, or at most eight of its live levels
    have been deleted since it first did, slot 0 is valid exactly when the golden side
    has a level and is then its best one; with both sides so, the midprice is the
    golden one. -/
theorem best_level (ds : List Delivery) :
    (∀ (isBid : Bool) (s : State 10 32 32),
      ((storeAfter isBid s ds).store[0].valid = true →
        ((storeAfter isBid s ds).store[0].price.toNat,
          (storeAfter isBid s ds).store[0].size.toNat) ∈ ((refAfter 10 ds).live isBid).items) ∧
      (TopCovered isBid 10 ds →
        ((storeAfter isBid s ds).store[0].valid = true ↔
          ((refAfter 10 ds).live isBid).items ≠ []) ∧
        ((storeAfter isBid s ds).store[0].valid = true →
          ((refAfter 10 ds).top isBid).head? =
            some ((storeAfter isBid s ds).store[0].price.toNat,
              (storeAfter isBid s ds).store[0].size.toNat)))) ∧
    (∀ (bids asks : State 10 32 32) (seq : Nat), TopCovered true 10 ds → TopCovered false 10 ds →
      ((OrderBook.midprice (storeAfter true bids ds).store
          (storeAfter false asks ds).store).toNat : Int) =
        ((refAfter 10 ds).snapshot seq).midprice) := by
  constructor
  · intro isBid s
    refine ⟨fun hvalid => mem_live_of_valid isBid s ds _ hvalid, fun hcovered => ?_⟩
    exact ⟨hcovered.valid_iff s, hcovered.head?_top s⟩
  · intro bids asks seq hbids hasks
    exact midprice_eq (hbids.slot_zero bids) (hasks.slot_zero asks) seq

def tenBids : List Delivery := (List.range 10).map fun n => bidAt (n + 1) 1

/-- A bid too many, an ask, and deletes of the two best bids. -/
def elevenBids : List Delivery := tenBids ++ bidAt 11 1 :: [askAt 20 3, bidAt 11 0, bidAt 10 0]

theorem best_level_elevenBids :
    (((storeAfter true (powerUp : State 10 32 32) elevenBids).store[0].price.toNat,
        (storeAfter true (powerUp : State 10 32 32) elevenBids).store[0].size.toNat) ∈
          ((refAfter 10 elevenBids).live true).items) ∧
    ((storeAfter true (powerUp : State 10 32 32) elevenBids).store[0].valid = true ↔
      ((refAfter 10 elevenBids).live true).items ≠ []) ∧
    (((refAfter 10 elevenBids).top true).head? =
      some ((storeAfter true (powerUp : State 10 32 32) elevenBids).store[0].price.toNat,
        (storeAfter true (powerUp : State 10 32 32) elevenBids).store[0].size.toNat)) ∧
    ((OrderBook.midprice (storeAfter true (powerUp : State 10 32 32) elevenBids).store
        (storeAfter false (powerUp : State 10 32 32) elevenBids).store).toNat : Int) =
      ((refAfter 10 elevenBids).snapshot 0).midprice := by
  have hbest := best_level elevenBids
  have hbids : TopCovered true 10 elevenBids :=
    Or.inr ⟨tenBids, bidAt 11 1, _, rfl, by decide +kernel, by decide +kernel⟩
  have hasks : TopCovered false 10 elevenBids := Or.inl (by decide +kernel)
  have hvalid : (storeAfter true (powerUp : State 10 32 32) elevenBids).store[0].valid = true := by
    decide +kernel
  exact ⟨(hbest.1 true powerUp).1 hvalid, ((hbest.1 true powerUp).2 hbids).1,
    ((hbest.1 true powerUp).2 hbids).2 hvalid, hbest.2 powerUp powerUp 0 hbids hasks⟩

end Agreement

end FeedHandler.GoldenAgreement
