import FeedHandler.Dict
import Mathlib.Algebra.Order.Ring.Int
import Mathlib.Data.Rat.Defs

/-!
# The golden order book

`OrderBookRef` of `order_book_ref.py`, the software model the hardware output is
compared with: one unbounded dictionary from price ticks to size for each side,
sorted when it is read.  Python integers are `Nat` and `Int`, and the float
quotients of `snapshot` are read as exact rationals.
-/

namespace FeedHandler

/-- Must match the tick size of the parser. -/
def TICK_SIZE : Nat := 100

/-- Must match the depth of the hardware book. -/
def DEPTH : Nat := 10

/-- The byte `b'D'`. -/
def DELETE : BitVec 8 := 0x44#8

/-- `int(q)`: truncation toward zero. -/
def truncate (q : ℚ) : Int := q.num.tdiv q.den

structure OrderBookRef where
  depth : Nat
  bids : Dict Nat Nat
  asks : Dict Nat Nat

structure RefSnapshot where
  seq_num : Nat
  bids : List (Nat × Nat)
  asks : List (Nat × Nat)
  imbalance : Int
  midprice : Int
  microprice : Int
  spread : Int
  vwap_bid : Int
  vwap_ask : Int
deriving DecidableEq

namespace OrderBookRef

def init (depth : Nat) : OrderBookRef where
  depth := depth
  bids := .empty
  asks := .empty

/-- The effect of a message on the dictionary of its side. -/
def applyTo (book : Dict Nat Nat) (msg_type : BitVec 8) (price_ticks size_raw : Nat) :
    Dict Nat Nat :=
  if msg_type = DELETE ∨ size_raw = 0 then book.pop price_ticks
  else book.set price_ticks size_raw

def apply (ref : OrderBookRef) (msg_type : BitVec 8) (side price_raw size_raw : Nat) :
    OrderBookRef :=
  let price_ticks := price_raw / TICK_SIZE
  if side = 0 then { ref with bids := applyTo ref.bids msg_type price_ticks size_raw }
  else { ref with asks := applyTo ref.asks msg_type price_ticks size_raw }

def topBids (ref : OrderBookRef) : List (Nat × Nat) :=
  (ref.bids.sorted fun price : Nat => -(price : Int)).take ref.depth

def topAsks (ref : OrderBookRef) : List (Nat × Nat) :=
  (ref.asks.sorted fun price : Nat => (price : Int)).take ref.depth

def snapshot (ref : OrderBookRef) (seq : Nat) : RefSnapshot :=
  let bids := ref.topBids
  let asks := ref.topAsks
  let bid_vol := (bids.map fun e => e.2).sum
  let ask_vol := (asks.map fun e => e.2).sum
  let total := bid_vol + ask_vol
  let best_bid := (bids.head?.map fun e => e.1).getD 0
  let best_ask := (asks.head?.map fun e => e.1).getD 0
  { seq_num := seq
    bids := bids
    asks := asks
    imbalance :=
      if total ≠ 0 then truncate (((bid_vol : ℚ) - ask_vol) / total * (2 ^ 16 : Nat)) else 0
    midprice :=
      if bids ≠ [] ∧ asks ≠ [] then ((best_bid + best_ask) / 2 : Nat) else 0
    microprice :=
      if bids ≠ [] ∧ asks ≠ [] ∧ total ≠ 0 then
        ((best_bid * ask_vol + best_ask * bid_vol) / total : Nat)
      else 0
    spread := if bids ≠ [] ∧ asks ≠ [] then (best_ask : Int) - best_bid else 0
    vwap_bid :=
      if bid_vol ≠ 0 then
        truncate (((bids.map fun e => e.1 * e.2).sum : Nat) / (bid_vol : ℚ) * (256 : Nat))
      else 0
    vwap_ask :=
      if ask_vol ≠ 0 then
        truncate (((asks.map fun e => e.1 * e.2).sum : Nat) / (ask_vol : ℚ) * (256 : Nat))
      else 0 }

/-! ### One side at a time -/

/-- The order in which a side lists its prices: ascending means best first. -/
def tickRank (isBid : Bool) (price : Nat) : Int := if isBid then -price else price

theorem tickRank_injective (isBid : Bool) : Function.Injective (tickRank isBid) := by
  intro p q h
  cases isBid <;> simp only [tickRank] at h <;> simpa using h

def live (ref : OrderBookRef) (isBid : Bool) : Dict Nat Nat := if isBid then ref.bids else ref.asks

/-- The live levels of a side, best first, all of them. -/
def ladder (ref : OrderBookRef) (isBid : Bool) : List (Nat × Nat) :=
  (ref.live isBid).sorted (tickRank isBid)

def top (ref : OrderBookRef) (isBid : Bool) : List (Nat × Nat) :=
  if isBid then ref.topBids else ref.topAsks

theorem top_eq (ref : OrderBookRef) (isBid : Bool) :
    ref.top isBid = (ref.ladder isBid).take ref.depth := by
  cases isBid <;> rfl

@[simp] theorem depth_apply (ref : OrderBookRef) (msg_type : BitVec 8)
    (side price_raw size_raw : Nat) :
    (ref.apply msg_type side price_raw size_raw).depth = ref.depth := by
  unfold apply
  split_ifs <;> rfl

theorem live_apply (ref : OrderBookRef) (isBid : Bool) (msg_type : BitVec 8)
    (side price_raw size_raw : Nat) :
    (ref.apply msg_type side price_raw size_raw).live isBid =
      if decide (side = 0) = isBid then
        applyTo (ref.live isBid) msg_type (price_raw / TICK_SIZE) size_raw
      else ref.live isBid := by
  unfold apply live
  by_cases hside : side = 0 <;> cases isBid <;> simp [hside]

theorem ascending_ladder (ref : OrderBookRef) (isBid : Bool) :
    Ladder.Ascending (fun e : Nat × Nat => tickRank isBid e.1) (ref.ladder isBid) :=
  Dict.ascending_sorted (tickRank_injective isBid) _

end OrderBookRef

end FeedHandler
