import FeedHandler.Udiv
import FeedHandler.Types

/-!
# The signal engine

`compute_signals` of `signals.cpp` for one snapshot: imbalance, microprice, spread
and the two volume-weighted prices of a ten-level book.  Every intermediate is held
in the width it is declared with, and an assignment keeps the low bits.
`reference` is the wide-integer reference of the testbench.
-/

namespace FeedHandler.Signals

open Udiv

abbrev DEPTH : Nat := 10

/-- Snapshot word from the order book. -/
structure BookSnap where
  bids : Vector (Level 32 32) DEPTH
  asks : Vector (Level 32 32) DEPTH
  midprice : BitVec 32
  seq_num : BitVec 32
deriving DecidableEq, Repr

/-- The signal record; `imbalance` and the two averages are signed words. -/
structure SignalOut where
  imbalance : BitVec 32
  microprice : BitVec 32
  spread : BitVec 32
  vwap_bid : BitVec 32
  vwap_ask : BitVec 32
  seq_num : BitVec 32
  valid : BitVec 1
deriving DecidableEq, Repr

def volume (levels : List (Level 32 32)) : BitVec 36 :=
  levels.foldl (fun vol level => if level.valid then vol + level.size.setWidth 36 else vol) 0

/-- The product of one level, valid or not. -/
def product (level : Level 32 32) : BitVec 64 := level.price.setWidth 64 * level.size.setWidth 64

/-- Sum of the products over the valid levels. -/
def notional (levels : List (Level 32 32)) : BitVec 68 :=
  levels.foldl (fun ps level => if level.valid then ps + (product level).setWidth 68 else ps) 0

/-- The local variables of one pass of the loop. -/
structure Locals where
  bid_vol : BitVec 36
  ask_vol : BitVec 36
  total_vol : BitVec 37
  bid_heavy : Bool
  diff : BitVec 36
  imb_num : BitVec 53
  imb_q : BitVec 17
  imbalance : BitVec 32
  mp_b : BitVec 68
  mp_a : BitVec 68
  mp_num : BitVec 69
  microprice : BitVec 32
  spread : BitVec 32
  bid_ps : BitVec 68
  ask_ps : BitVec 68
  vb_num : BitVec 76
  va_num : BitVec 76
  vwap_bid : BitVec 32
  vwap_ask : BitVec 32

def locals (snap : BookSnap) : Locals :=
  let bid_vol := volume snap.bids.toList
  let ask_vol := volume snap.asks.toList
  let total_vol := bid_vol.setWidth 37 + ask_vol.setWidth 37
  let bid_heavy := decide (bid_vol ≥ ask_vol)
  let diff := if bid_heavy then bid_vol - ask_vol else ask_vol - bid_vol
  let imb_num := diff.setWidth 53 <<< 16
  let imb_q := if total_vol = 0 then 0 else udivQ 17 imb_num total_vol
  let imbalance := if bid_heavy then imb_q.setWidth 32 else -(imb_q.setWidth 32)
  let best_bid := snap.bids[0]
  let best_ask := snap.asks[0]
  let mp_b := best_bid.price.setWidth 68 * ask_vol.setWidth 68
  let mp_a := best_ask.price.setWidth 68 * bid_vol.setWidth 68
  let mp_num := mp_b.setWidth 69 + mp_a.setWidth 69
  let microprice :=
    if best_bid.valid && best_ask.valid && decide (total_vol > 0) then udivQ 32 mp_num total_vol
    else 0
  let spread :=
    if best_bid.valid && best_ask.valid && decide (best_ask.price ≥ best_bid.price) then
      best_ask.price - best_bid.price
    else 0
  let bid_ps := notional snap.bids.toList
  let ask_ps := notional snap.asks.toList
  let vb_num := bid_ps.setWidth 76 <<< 8
  let va_num := ask_ps.setWidth 76 <<< 8
  let vwap_bid := if bid_vol > 0 then (udivQ 40 vb_num bid_vol).setWidth 32 else 0
  let vwap_ask := if ask_vol > 0 then (udivQ 40 va_num ask_vol).setWidth 32 else 0
  { bid_vol, ask_vol, total_vol, bid_heavy, diff, imb_num, imb_q, imbalance, mp_b, mp_a, mp_num,
    microprice, spread, bid_ps, ask_ps, vb_num, va_num, vwap_bid, vwap_ask }

def computeSignals (snap : BookSnap) : SignalOut where
  imbalance := (locals snap).imbalance
  microprice := (locals snap).microprice
  spread := (locals snap).spread
  vwap_bid := (locals snap).vwap_bid
  vwap_ask := (locals snap).vwap_ask
  seq_num := snap.seq_num
  valid := 1

/-! ### The wide-integer reference -/

def volumeOf (levels : List (Level 32 32)) : Nat :=
  (levels.map fun level => if level.valid then level.size.toNat else 0).sum

def notionalOf (levels : List (Level 32 32)) : Nat :=
  (levels.map fun level => if level.valid then level.price.toNat * level.size.toNat else 0).sum

/-- What the reference computes before it narrows the averages. -/
structure Reference where
  imbalance : Int
  microprice : Nat
  spread : Nat
  vwap_bid : Nat
  vwap_ask : Nat
  seq_num : BitVec 32
deriving DecidableEq, Repr

def reference (snap : BookSnap) : Reference :=
  let bid_vol := volumeOf snap.bids.toList
  let ask_vol := volumeOf snap.asks.toList
  let total := bid_vol + ask_vol
  let best_bid := snap.bids[0]
  let best_ask := snap.asks[0]
  { imbalance := if total ≠ 0 then (((bid_vol : Int) - ask_vol) * 2 ^ 16).tdiv total else 0
    microprice :=
      if best_bid.valid ∧ best_ask.valid ∧ total ≠ 0 then
        (best_bid.price.toNat * ask_vol + best_ask.price.toNat * bid_vol) / total
      else 0
    spread :=
      if best_bid.valid ∧ best_ask.valid ∧ best_bid.price.toNat ≤ best_ask.price.toNat then
        best_ask.price.toNat - best_bid.price.toNat
      else 0
    vwap_bid := if bid_vol ≠ 0 then notionalOf snap.bids.toList * 2 ^ 8 / bid_vol else 0
    vwap_ask := if ask_vol ≠ 0 then notionalOf snap.asks.toList * 2 ^ 8 / ask_vol else 0
    seq_num := snap.seq_num }

end FeedHandler.Signals
