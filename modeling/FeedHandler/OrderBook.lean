import FeedHandler.Bits
import FeedHandler.PriceLevelStore

/-!
# The order book

The top level of `OrderBook.scala`: an always-ready input queue, a message
register that takes a queued word every third cycle, a bid and an ask store, and
the registered snapshot.  `next` is one clock edge with reset low; registers
without a reset value (`word`, `seqD`, `snap`) keep running during reset.
-/

namespace FeedHandler.OrderBook

open Chisel

def QUEUE_DEPTH : Nat := 4

/-- Cycles from the message register to `snap.valid`. -/
def STORE_LATENCY : Nat := 3

/-- Cycles from the accept edge to `snap.valid` when the queue is empty. -/
def UPDATE_LATENCY : Nat := 2 + STORE_LATENCY

/-- The AXI-Stream payload: `{seqNum, side, size, price}`. -/
abbrev Word (priceBits sizeBits : Nat) := BitVec (priceBits + sizeBits + 1 + 32)

structure Input (priceBits sizeBits : Nat) where
  s_axis_tdata : Word priceBits sizeBits
  s_axis_tvalid : Bool
deriving DecidableEq, Repr

structure State (depth priceBits sizeBits : Nat) where
  bidStore : PriceLevelStore.State depth priceBits sizeBits
  askStore : PriceLevelStore.State depth priceBits sizeBits
  inQ : Queue (Word priceBits sizeBits) QUEUE_DEPTH
  dropCount : BitVec 16
  busy1 : Bool
  busy2 : Bool
  word : Word priceBits sizeBits
  doUpdate : Bool
  updateD : Vector Bool STORE_LATENCY
  seqD : Vector (BitVec 32) STORE_LATENCY
  seqHold : BitVec 32
  snap : BookSnapshot depth priceBits sizeBits

variable {depth priceBits sizeBits : Nat}

def decode (word : Word priceBits sizeBits) (doUpdate : Bool) :
    MarketMsg priceBits sizeBits where
  price := word.extractLsb' 0 priceBits
  size := word.extractLsb' priceBits sizeBits
  side := word.extractLsb' (priceBits + sizeBits) 1
  seqNum := word.extractLsb' (priceBits + sizeBits + 1) 32
  valid := doUpdate

/-- The word of a message, as the test bench packs it. -/
def pack (price size side seq : Nat) : Word priceBits sizeBits :=
  BitVec.ofNat _ (price ||| size <<< priceBits ||| side <<< (priceBits + sizeBits) |||
    seq <<< (priceBits + sizeBits + 1))

example : decode (pack 102 30 1 7 : Word 32 32) true = ⟨102, 30, Side.ASK, 7, true⟩ := by decide

/-- The word taken from the queue in this cycle (`deq.fire`), if any. -/
def take (s : State depth priceBits sizeBits) : Option (Word priceBits sizeBits) :=
  if !(s.busy1 || s.busy2) then s.inQ.deqBits else none

/-- The word written into the queue in this cycle (`enq.fire`), if any. -/
def accept (s : State depth priceBits sizeBits) (i : Input priceBits sizeBits) :
    Option (Word priceBits sizeBits) :=
  if i.s_axis_tvalid && s.inQ.enqReady then some i.s_axis_tdata else none

/-- The `update` wire of the bid store. -/
def bidUpdate (s : State depth priceBits sizeBits) : Bool :=
  s.doUpdate && (decode s.word s.doUpdate).side == Side.BID

/-- The `update` wire of the ask store. -/
def askUpdate (s : State depth priceBits sizeBits) : Bool :=
  s.doUpdate && (decode s.word s.doUpdate).side == Side.ASK

/-- Reset writes the registers that have a reset value and no others. -/
def resetRegs (s : State depth priceBits sizeBits) : State depth priceBits sizeBits :=
  { s with
    bidStore := PriceLevelStore.resetRegs s.bidStore
    askStore := PriceLevelStore.resetRegs s.askStore
    inQ := Queue.empty
    dropCount := 0
    busy1 := false
    busy2 := false
    doUpdate := false
    updateD := Vector.replicate STORE_LATENCY false
    seqHold := 0 }

/-- The module as it comes up before any clock edge, every register zero. -/
def powerUp : State depth priceBits sizeBits where
  bidStore := PriceLevelStore.powerUp
  askStore := PriceLevelStore.powerUp
  inQ := Queue.empty
  dropCount := 0
  busy1 := false
  busy2 := false
  word := 0
  doUpdate := false
  updateD := Vector.replicate STORE_LATENCY false
  seqD := Vector.replicate STORE_LATENCY 0
  seqHold := 0
  snap :=
    { bids := PriceLevelStore.emptyStore
      asks := PriceLevelStore.emptyStore
      midprice := 0
      seqNum := 0
      valid := false }

section Edge

variable [NeZero depth]

/-- One (priceBits+1)-bit add off the best levels, shifted down. -/
def midprice (bids asks : Vector (Level priceBits sizeBits) depth) : BitVec priceBits :=
  let bid := best bids
  let ask := best asks
  if bid.valid && ask.valid then
    ((bid.price.setWidth (priceBits + 1) + ask.price.setWidth (priceBits + 1)) >>> 1).setWidth
      priceBits
  else 0

/-- One clock edge of the module, reset low. -/
def next (s : State depth priceBits sizeBits) (i : Input priceBits sizeBits) :
    State depth priceBits sizeBits :=
  let msg := decode s.word s.doUpdate
  let updateD1 := s.updateD[STORE_LATENCY - 1]
  let seqPipe := s.seqD[STORE_LATENCY - 1]
  { bidStore := PriceLevelStore.next true s.bidStore msg (bidUpdate s)
    askStore := PriceLevelStore.next false s.askStore msg (askUpdate s)
    inQ := s.inQ.next (accept s i) (!(s.busy1 || s.busy2))
    dropCount := if i.s_axis_tvalid && !s.inQ.enqReady then s.dropCount + 1 else s.dropCount
    busy1 := (take s).isSome
    busy2 := s.busy1
    word := (take s).getD s.word
    doUpdate := (take s).isSome
    updateD := shiftIn s.doUpdate s.updateD
    seqD := shiftIn msg.seqNum s.seqD
    seqHold := if updateD1 then seqPipe else s.seqHold
    snap :=
      { bids := s.bidStore.store
        asks := s.askStore.store
        midprice := midprice s.bidStore.store s.askStore.store
        seqNum := if updateD1 then seqPipe else s.seqHold
        valid := updateD1 } }

def step (reset : Bool) (s : State depth priceBits sizeBits) (i : Input priceBits sizeBits) :
    State depth priceBits sizeBits :=
  if reset then resetRegs (next s i) else next s i

end Edge

/-! ### One message after the other

The book as its messages see it: two register files, each message routed by its
side bit and taking its whole effect before the next. -/

structure Book (depth priceBits sizeBits : Nat) where
  bids : Vector (Level priceBits sizeBits) depth
  asks : Vector (Level priceBits sizeBits) depth

def emptyBook : Book depth priceBits sizeBits where
  bids := PriceLevelStore.emptyStore
  asks := PriceLevelStore.emptyStore

def applyMsg (book : Book depth priceBits sizeBits) (msg : MarketMsg priceBits sizeBits) :
    Book depth priceBits sizeBits where
  bids := if msg.side = Side.BID then
      PriceLevelStore.updateOnce true book.bids msg.price msg.size
    else book.bids
  asks := if msg.side = Side.ASK then
      PriceLevelStore.updateOnce false book.asks msg.price msg.size
    else book.asks

def bookAfter (words : List (Word priceBits sizeBits)) : Book depth priceBits sizeBits :=
  words.foldl (fun book word => applyMsg book (decode word true)) emptyBook

/-- The sequence number of the last word, 0 before the first. -/
def lastSeq (words : List (Word priceBits sizeBits)) : BitVec 32 :=
  (words.getLast?.map fun word => (decode word true).seqNum).getD 0

def snapshotAfter [NeZero depth] (words : List (Word priceBits sizeBits)) (valid : Bool) :
    BookSnapshot depth priceBits sizeBits where
  bids := (bookAfter words : Book depth priceBits sizeBits).bids
  asks := (bookAfter words : Book depth priceBits sizeBits).asks
  midprice := midprice (bookAfter words : Book depth priceBits sizeBits).bids
    (bookAfter words : Book depth priceBits sizeBits).asks
  seqNum := lastSeq words
  valid := valid

@[simp] theorem bookAfter_nil :
    (bookAfter [] : Book depth priceBits sizeBits) = emptyBook := rfl

@[simp] theorem lastSeq_nil : lastSeq ([] : List (Word priceBits sizeBits)) = 0 := rfl

@[simp] theorem bookAfter_append_singleton (words : List (Word priceBits sizeBits))
    (word : Word priceBits sizeBits) :
    (bookAfter (words ++ [word]) : Book depth priceBits sizeBits) =
      applyMsg (bookAfter words) (decode word true) := by
  simp [bookAfter]

@[simp] theorem lastSeq_append_singleton (words : List (Word priceBits sizeBits))
    (word : Word priceBits sizeBits) :
    lastSeq (words ++ [word]) = (decode word true).seqNum := by
  simp [lastSeq]

/-- The midprice is the floor of the mean of the best prices: the add is one bit
    wider than a price, so nothing is lost. -/
theorem midprice_toNat [NeZero depth] (bids asks : Vector (Level priceBits sizeBits) depth) :
    (midprice bids asks).toNat =
      if (best bids).valid && (best asks).valid then
        ((best bids).price.toNat + (best asks).price.toNat) / 2
      else 0 := by
  have hbid := (best bids).price.isLt
  have hask := (best asks).price.isLt
  simp only [midprice]
  split_ifs with hvalid
  · rw [BitVec.toNat_setWidth, Bits.toNat_highBits,
      Bits.toNat_add_widened _ _ (Nat.lt_succ_self _) (Nat.lt_succ_self _)]
    exact Nat.mod_eq_of_lt (by omega)
  · rfl

/-! ### Reset -/

section Reset

variable [NeZero depth]

/-- **What a reset leaves.**  Every register with a reset value holds it and the
    snapshot register has captured the reset stores; the registers without a
    reset value hold anything. -/
structure AfterReset (s : State depth priceBits sizeBits) : Prop where
  bidStore : PriceLevelStore.InStage true PriceLevelStore.emptyStore .idle s.bidStore
  askStore : PriceLevelStore.InStage false PriceLevelStore.emptyStore .idle s.askStore
  inQ : s.inQ.items = []
  dropCount : s.dropCount = 0
  busy1 : s.busy1 = false
  busy2 : s.busy2 = false
  doUpdate : s.doUpdate = false
  updateD : s.updateD = Vector.replicate STORE_LATENCY false
  seqHold : s.seqHold = 0
  snap : s.snap = snapshotAfter [] false

variable {s : State depth priceBits sizeBits}

/-- One reset edge is enough where the registers behind the snapshot already hold
    their reset values, as at an all-zero power-up. -/
theorem afterReset_of_settled (hbids : s.bidStore.store = PriceLevelStore.emptyStore)
    (hasks : s.askStore.store = PriceLevelStore.emptyStore)
    (hupdate : s.updateD[STORE_LATENCY - 1] = false) (hseq : s.seqHold = 0)
    (i : Input priceBits sizeBits) : AfterReset (step true s i) where
  bidStore := PriceLevelStore.inStage_reset true _
  askStore := PriceLevelStore.inStage_reset false _
  inQ := rfl
  dropCount := rfl
  busy1 := rfl
  busy2 := rfl
  doUpdate := rfl
  updateD := rfl
  seqHold := rfl
  snap := by simp [step, resetRegs, next, snapshotAfter, emptyBook, hbids, hasks, hupdate, hseq]

/-- **Reset held for two edges** initialises the book from any contents at all. -/
theorem afterReset_of_held (s : State depth priceBits sizeBits)
    (i j : Input priceBits sizeBits) : AfterReset (step true (step true s i) j) := by
  have hupdate : (step true s i).updateD[STORE_LATENCY - 1] = false := by simp [step, resetRegs]
  exact afterReset_of_settled rfl rfl hupdate rfl j

/-- The zero power-up needs a single reset edge. -/
theorem afterReset_powerUp (i : Input priceBits sizeBits) :
    AfterReset (step true (powerUp : State depth priceBits sizeBits) i) :=
  afterReset_of_settled rfl rfl (by simp [powerUp]) rfl i

end Reset

end FeedHandler.OrderBook
