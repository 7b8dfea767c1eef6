import Mathlib.Algebra.GroupWithZero.Nat

/-!
# Bundles of the order book

The Chisel bundles of `Types.scala`, generic in the price and size widths.
Prices are ticks, sizes are micro-units, and size `0` in a message deletes the
level at its price.
-/

namespace FeedHandler

namespace Side

def BID : BitVec 1 := 0#1
def ASK : BitVec 1 := 1#1

/-- The side bit that a store of the given sort direction listens to. -/
def ofBid (isBid : Bool) : BitVec 1 := if isBid then BID else ASK

theorem eq_bid_or_ask (side : BitVec 1) : side = BID ∨ side = ASK := by
  have h := side.isLt
  have hcases : side.toNat = 0 ∨ side.toNat = 1 := by omega
  exact hcases.imp (fun h => BitVec.eq_of_toNat_eq h) (fun h => BitVec.eq_of_toNat_eq h)

end Side

/-- Normalized market-data message from the parser, as the stores see it. -/
structure MarketMsg (priceBits sizeBits : Nat) where
  price : BitVec priceBits
  size : BitVec sizeBits
  side : BitVec 1
  seqNum : BitVec 32
  valid : Bool
deriving DecidableEq, Repr

structure Level (priceBits sizeBits : Nat) where
  price : BitVec priceBits
  size : BitVec sizeBits
  valid : Bool
deriving DecidableEq, Repr

/-- The level a slot is reset to. -/
def Level.empty {priceBits sizeBits : Nat} : Level priceBits sizeBits :=
  { price := 0, size := 0, valid := false }

/-- Slot 0 of a side. -/
def best {depth priceBits sizeBits : Nat} [NeZero depth]
    (levels : Vector (Level priceBits sizeBits) depth) : Level priceBits sizeBits :=
  levels[(0 : Fin depth)]

/-- Output snapshot: the levels of both sides, midprice and sequence number. -/
structure BookSnapshot (depth priceBits sizeBits : Nat) where
  bids : Vector (Level priceBits sizeBits) depth
  asks : Vector (Level priceBits sizeBits) depth
  midprice : BitVec priceBits
  seqNum : BitVec 32
  valid : Bool
deriving DecidableEq, Repr

end FeedHandler
