import FeedHandler.Types
import FeedHandler.ChiselUtil

/-!
# The price-level store

The single-sided sorted store of `PriceLevelStore.scala`: a parallel compare, a
per-slot decision and the write-back, in three register stages.  The functions
`parallelCompare`, `decideSlots` and `applyDecisions` are the combinational logic of the three
stages and `next` is one clock edge of the module.

The module's own contract is that `update` is pulsed at most once every three
cycles.  `InStage` says where an update is in the pipeline, and the lemmas after
it say what one clock edge does to it: under the contract a message reaches the
store two edges after its compare, with exactly the effect of `updateOnce` on the
register file the compare saw.
-/

namespace FeedHandler.PriceLevelStore

open Chisel

/-- The two compare bits of every slot (stage 1). -/
structure Compares (depth : Nat) where
  matchIdx : Vector Bool depth
  insertBefore : Vector Bool depth
deriving DecidableEq, Repr

/-- One-hot-ish decision per slot, all false = hold (stage 2). -/
structure Decisions (depth : Nat) where
  takeBelow : Vector Bool depth
  clearLast : Bool
  setSize : Vector Bool depth
  takeAbove : Vector Bool depth
  loadNew : Vector Bool depth
deriving DecidableEq, Repr

def Decisions.hold {depth : Nat} : Decisions depth where
  takeBelow := Vector.replicate depth false
  clearLast := false
  setSize := Vector.replicate depth false
  takeAbove := Vector.replicate depth false
  loadNew := Vector.replicate depth false

/-- The registers of the module, in the order of the source. -/
structure State (depth priceBits sizeBits : Nat) where
  store : Vector (Level priceBits sizeBits) depth
  comparesR : Compares depth
  updateR1 : Bool
  priceR1 : BitVec priceBits
  sizeR1 : BitVec sizeBits
  deleteR1 : Bool
  decisionsR : Decisions depth
  priceR : BitVec priceBits
  sizeR : BitVec sizeBits
deriving DecidableEq, Repr

variable {depth priceBits sizeBits : Nat}

def emptyStore : Vector (Level priceBits sizeBits) depth := Vector.replicate depth Level.empty

/-! ### The three stages -/

/-- Stage 1: compare every slot with the message price. -/
def parallelCompare (isBid : Bool) (store : Vector (Level priceBits sizeBits) depth)
    (price : BitVec priceBits) : Compares depth where
  matchIdx := store.map fun level => level.valid && level.price == price
  insertBefore := store.map fun level =>
    !level.valid || (if isBid then decide (price > level.price) else decide (price < level.price))

/-- Stage 2: encode the positions and decide per slot. -/
def decideSlots (compares : Compares depth) (updateR1 deleteR1 : Bool) : Decisions depth :=
  let hasMatch := compares.matchIdx.toList.any id
  let matchPos := priorityEncoder compares.matchIdx.toList
  let insertPos := priorityEncoder compares.insertBefore.toList
  { takeBelow := Vector.ofFn fun i =>
      updateR1 && hasMatch && deleteR1 && decide (i.val < depth - 1) &&
        decide (i.val ≥ matchPos)
    clearLast := updateR1 && hasMatch && deleteR1
    setSize := Vector.ofFn fun i =>
      updateR1 && hasMatch && !deleteR1 && decide (i.val = matchPos)
    takeAbove := Vector.ofFn fun i =>
      updateR1 && !hasMatch && !deleteR1 && decide (i.val > 0) &&
        decide (i.val > insertPos)
    loadNew := Vector.ofFn fun i =>
      updateR1 && !hasMatch && !deleteR1 && decide (i.val = insertPos) }

/-- Stage 3: what slot `i` is written with.  Later connections override earlier
    ones, in the order of the source. -/
def applySlot (store : Vector (Level priceBits sizeBits) depth) (decisions : Decisions depth)
    (price : BitVec priceBits) (size : BitVec sizeBits) (i : Fin depth) :
    Level priceBits sizeBits :=
  let level := store[i]
  let level := if decisions.loadNew[i] then { price, size, valid := true } else level
  let level := if decisions.takeAbove[i] then
      if 0 < i.val then store[i.val - 1] else level
    else level
  let level := if decisions.takeBelow[i] then
      if h : i.val + 1 < depth then store[i.val + 1] else level
    else level
  let level := if decisions.setSize[i] then { level with size } else level
  if decisions.clearLast && decide (i.val = depth - 1) then
    { level with valid := false }
  else level

/-- Stage 3: write every slot from its registered decision. -/
def applyDecisions (store : Vector (Level priceBits sizeBits) depth)
    (decisions : Decisions depth) (price : BitVec priceBits) (size : BitVec sizeBits) :
    Vector (Level priceBits sizeBits) depth :=
  Vector.ofFn (applySlot store decisions price size)

/-- One clock edge of the module, reset low. -/
def next (isBid : Bool) (s : State depth priceBits sizeBits) (msg : MarketMsg priceBits sizeBits)
    (update : Bool) : State depth priceBits sizeBits where
  store := applyDecisions s.store s.decisionsR s.priceR s.sizeR
  comparesR := parallelCompare isBid s.store msg.price
  updateR1 := update
  priceR1 := msg.price
  sizeR1 := msg.size
  deleteR1 := msg.size == 0
  decisionsR := decideSlots s.comparesR s.updateR1 s.deleteR1
  priceR := s.priceR1
  sizeR := s.sizeR1

/-- Reset writes the registers that have a reset value and no others. -/
def resetRegs (s : State depth priceBits sizeBits) : State depth priceBits sizeBits :=
  { s with store := emptyStore, updateR1 := false, decisionsR := Decisions.hold }

def step (isBid reset : Bool) (s : State depth priceBits sizeBits)
    (msg : MarketMsg priceBits sizeBits) (update : Bool) : State depth priceBits sizeBits :=
  if reset then resetRegs (next isBid s msg update) else next isBid s msg update

/-- The module as it comes up before any clock edge, every register zero. -/
def powerUp : State depth priceBits sizeBits where
  store := emptyStore
  comparesR := { matchIdx := Vector.replicate depth false
                 insertBefore := Vector.replicate depth false }
  updateR1 := false
  priceR1 := 0
  sizeR1 := 0
  deleteR1 := false
  decisionsR := Decisions.hold
  priceR := 0
  sizeR := 0

/-! ### One whole update -/

/-- The compare, decide and apply effect of one message on a register file, with
    no other message in between. -/
def updateOnce (isBid : Bool) (store : Vector (Level priceBits sizeBits) depth)
    (price : BitVec priceBits) (size : BitVec sizeBits) :
    Vector (Level priceBits sizeBits) depth :=
  applyDecisions store (decideSlots (parallelCompare isBid store price) true (size == 0)) price size

@[simp] theorem applyDecisions_hold (store : Vector (Level priceBits sizeBits) depth)
    (price : BitVec priceBits) (size : BitVec sizeBits) :
    applyDecisions store Decisions.hold price size = store := by
  ext i hi
  simp [applyDecisions, applySlot, Decisions.hold]

@[simp] theorem decideSlots_no_update (compares : Compares depth) (deleteR1 : Bool) :
    decideSlots compares false deleteR1 = Decisions.hold := by
  simp only [decideSlots, Decisions.hold, Bool.false_and]
  congr <;> ext i hi <;> simp

section Slots

variable {isBid : Bool} {store : Vector (Level priceBits sizeBits) depth}
  {price : BitVec priceBits} {size : BitVec sizeBits} {pos : Nat}

/-- A delete that finds its price pulls the levels below it up by one slot and
    clears the last slot. -/
theorem updateOnce_delete
    (hmatch : (parallelCompare isBid store price).matchIdx.toList.any id = true)
    (hpos : priorityEncoder (parallelCompare isBid store price).matchIdx.toList = pos)
    (hlt : pos < depth) (hsize : size = 0) {i : Nat} (hi : i < depth) :
    (updateOnce isBid store price size)[i] =
      if i < pos then store[i]
      else if h : i + 1 < depth then store[i + 1] else { store[i] with valid := false } := by
  simp only [updateOnce, applyDecisions, Vector.getElem_ofFn, applySlot, decideSlots, hmatch, hpos]
  by_cases hbefore : i < pos
  · have hinner : i ≠ depth - 1 := by omega
    simp [hbefore, hinner, hsize, Nat.not_le_of_lt hbefore]
  · by_cases hnext : i + 1 < depth
    · have hinner : i < depth - 1 ∧ i ≠ depth - 1 := by omega
      simp [hbefore, hnext, hinner, hsize, Nat.le_of_not_lt hbefore]
    · have hlast : i = depth - 1 := by omega
      simp [hbefore, hnext, ← hlast, hsize]

theorem updateOnce_resize
    (hmatch : (parallelCompare isBid store price).matchIdx.toList.any id = true)
    (hpos : priorityEncoder (parallelCompare isBid store price).matchIdx.toList = pos)
    (hsize : size ≠ 0) {i : Nat} (hi : i < depth) :
    (updateOnce isBid store price size)[i] =
      if i = pos then { store[i] with size } else store[i] := by
  have hdelete : (size == 0) = false := by simpa using hsize
  simp only [updateOnce, applyDecisions, Vector.getElem_ofFn, applySlot, decideSlots, hmatch, hpos,
    hdelete]
  simp

theorem updateOnce_missing
    (hmatch : (parallelCompare isBid store price).matchIdx.toList.any id = false)
    (hsize : size = 0) : updateOnce isBid store price size = store := by
  ext i hi
  simp [updateOnce, applyDecisions, applySlot, decideSlots, hmatch, hsize]

/-- A new price is loaded at the insert position and the levels from there on
    move down by one slot, the last one out of the store. -/
theorem updateOnce_insert
    (hmatch : (parallelCompare isBid store price).matchIdx.toList.any id = false)
    (hpos : priorityEncoder (parallelCompare isBid store price).insertBefore.toList = pos)
    (hsize : size ≠ 0) {i : Nat} (hi : i < depth) :
    (updateOnce isBid store price size)[i] =
      if i < pos then store[i]
      else if i = pos then { price, size, valid := true } else store[i - 1] := by
  have hdelete : (size == 0) = false := by simpa using hsize
  simp only [updateOnce, applyDecisions, Vector.getElem_ofFn, applySlot, decideSlots, hmatch, hpos,
    hdelete]
  rcases Nat.lt_trichotomy i pos with hlt | rfl | hgt
  · simp [hlt, Nat.not_lt_of_gt hlt, Nat.ne_of_lt hlt]
  · simp
  · have hpositive : 0 < i := Nat.lt_of_le_of_lt (Nat.zero_le _) hgt
    simp [hgt, hpositive, Nat.not_lt_of_gt hgt, Nat.ne_of_gt hgt]

end Slots

/-! ### The update contract -/

/-- Where the update in flight stands: none, compared (its compares are
    registered) or decided (its decisions are registered). -/
inductive Stage (priceBits sizeBits : Nat) where
  | idle
  | compared (price : BitVec priceBits) (size : BitVec sizeBits)
  | decided (price : BitVec priceBits) (size : BitVec sizeBits)

/-- The module holds the register file `store` and the update in flight is at the
    given stage, its compares taken against that register file. -/
structure InStage (isBid : Bool) (store : Vector (Level priceBits sizeBits) depth)
    (stage : Stage priceBits sizeBits) (s : State depth priceBits sizeBits) : Prop where
  store_eq : s.store = store
  pipeline : match stage with
    | .idle => s.updateR1 = false ∧ s.decisionsR = Decisions.hold
    | .compared price size =>
        (s.updateR1 = true ∧ s.comparesR = parallelCompare isBid store price ∧ s.priceR1 = price ∧
          s.sizeR1 = size ∧ s.deleteR1 = (size == 0)) ∧ s.decisionsR = Decisions.hold
    | .decided price size =>
        s.updateR1 = false ∧
          s.decisionsR = decideSlots (parallelCompare isBid store price) true (size == 0) ∧
          s.priceR = price ∧ s.sizeR = size

section Edges

variable {isBid : Bool} {store : Vector (Level priceBits sizeBits) depth}
  {s : State depth priceBits sizeBits} {price : BitVec priceBits} {size : BitVec sizeBits}

theorem inStage_reset (isBid : Bool) (s : State depth priceBits sizeBits) :
    InStage isBid emptyStore .idle (resetRegs s) :=
  ⟨rfl, rfl, rfl⟩

theorem InStage.stay (h : InStage isBid store .idle s) (msg : MarketMsg priceBits sizeBits) :
    InStage isBid store .idle (next isBid s msg false) := by
  rcases h with ⟨hstore, hupdate, hdecisions⟩
  refine ⟨?_, rfl, ?_⟩
  · simp [next, hdecisions, hstore]
  · simp [next, hupdate]

theorem InStage.start (h : InStage isBid store .idle s) (msg : MarketMsg priceBits sizeBits) :
    InStage isBid store (.compared msg.price msg.size) (next isBid s msg true) := by
  rcases h with ⟨hstore, hupdate, hdecisions⟩
  refine ⟨?_, ⟨rfl, ?_, rfl, rfl, rfl⟩, ?_⟩
  · simp [next, hdecisions, hstore]
  · simp [next, hstore]
  · simp [next, hupdate]

theorem InStage.choose (h : InStage isBid store (.compared price size) s)
    (msg : MarketMsg priceBits sizeBits) :
    InStage isBid store (.decided price size) (next isBid s msg false) := by
  rcases h with ⟨hstore, ⟨hupdate, hcompares, hprice, hsize, hdelete⟩, hdecisions⟩
  refine ⟨?_, rfl, ?_, hprice, hsize⟩
  · simp [next, hdecisions, hstore]
  · simp [next, hupdate, hcompares, hdelete]

/-- **The apply edge.**  The decided update lands as one whole update of the
    register file its compares saw. -/
theorem InStage.land (h : InStage isBid store (.decided price size) s)
    (msg : MarketMsg priceBits sizeBits) :
    InStage isBid (updateOnce isBid store price size) .idle (next isBid s msg false) := by
  rcases h with ⟨hstore, hupdate, hdecisions, hprice, hsize⟩
  refine ⟨?_, rfl, ?_⟩
  · simp [next, updateOnce, hstore, hdecisions, hprice, hsize]
  · simp [next, hupdate]

end Edges

end FeedHandler.PriceLevelStore
