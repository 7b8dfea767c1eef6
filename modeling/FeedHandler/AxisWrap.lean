import FeedHandler.FeedPipeline

/-!
# The AXI-Stream shell of the order book

`orderbook_axis_wrap.v`: the register that turns `aresetn` into the book's synchronous
reset, and the wires between the stream words and the book.  The register delays reset by
a cycle on both edges.  One low cycle of `aresetn` therefore resets the book in the
cycle after it, whose word is lost although `s_axis_tready` is high; from the cycle after
that the module is a fresh book, whatever went before.
-/

namespace FeedHandler.AxisWrap

open FeedHandler.Parser AxisLayout Sync

structure Input where
  aresetn : Bool
  s_axis_tdata : AxisWord
  s_axis_tvalid : Bool
  m_axis_tready : Bool

structure State (DEPTH : Nat) where
  reset_r : Bool
  u_book : OrderBook.State DEPTH 32 32

structure Output where
  s_axis_tready : Bool
  m_axis_tdata : BitVec 1984
  m_axis_tvalid : Bool
  dropped : BitVec 16

/-- What the book sees of the ports; `m_axis_tready` is not connected. -/
def bookInput (i : Input) : OrderBook.Input 32 32 where
  s_axis_tdata := bookWord i.s_axis_tdata
  s_axis_tvalid := i.s_axis_tvalid

def outputs (s : State 10) : Output where
  s_axis_tready := true
  m_axis_tdata := packSnap s.u_book.snap
  m_axis_tvalid := s.u_book.snap.valid
  dropped := s.u_book.dropCount

section Runs

variable {DEPTH : Nat} [NeZero DEPTH]

/-- One clock edge. -/
def next (s : State DEPTH) (i : Input) : State DEPTH where
  reset_r := !i.aresetn
  u_book := OrderBook.step s.reset_r s.u_book (bookInput i)

def cycle (s : State DEPTH) (ins : Nat → Input) (t : Nat) : State DEPTH := stateAt next s ins t

end Runs

/-- The word offered in cycle `t`, if any. -/
def offered (ins : Nat → Input) (t : Nat) : Option (OrderBook.Word 32 32) :=
  (bookInput (ins t)).arrival

/-! ### One reset edge of the book -/

section Book

variable {depth priceBits sizeBits : Nat} [NeZero depth]
  {s₀ s₁ : OrderBook.State depth priceBits sizeBits}
  {ins ins' : Nat → OrderBook.Input priceBits sizeBits}

/-- A reset edge leaves one register behind, and the next edge overwrites it unread. -/
def settled (s : OrderBook.State depth priceBits sizeBits) :
    OrderBook.State depth priceBits sizeBits :=
  { s with snap := OrderBook.snapshotAfter [] false }

theorem afterReset_settled (s : OrderBook.State depth priceBits sizeBits)
    (i : OrderBook.Input priceBits sizeBits) :
    OrderBook.AfterReset (settled (OrderBook.step true s i)) where
  bidStore := PriceLevelStore.inStage_reset true _
  askStore := PriceLevelStore.inStage_reset false _
  inQ := rfl
  dropCount := rfl
  busy1 := rfl
  busy2 := rfl
  doUpdate := rfl
  updateD := rfl
  seqHold := rfl
  snap := rfl

variable (hreset : OrderBook.AfterReset s₀) (hreset' : OrderBook.AfterReset s₁)
  (hsame : ∀ u, (ins u).arrival = (ins' u).arrival)

include hreset hreset' hsame

/-- **A reset book is a function of the words offered to it.** -/
theorem snap_congr (t : Nat) :
    (OrderBook.cycle s₀ ins t).snap = (OrderBook.cycle s₁ ins' t).snap := by
  rw [(OrderBook.tracks_cycle ins hreset t).snap, (OrderBook.tracks_cycle ins' hreset' t).snap,
    funext hsame]

theorem dropCount_congr (t : Nat) :
    (OrderBook.cycle s₀ ins t).dropCount = (OrderBook.cycle s₁ ins' t).dropCount := by
  have hvalid : ∀ i : OrderBook.Input priceBits sizeBits, i.s_axis_tvalid = i.arrival.isSome := by
    intro i
    unfold OrderBook.Input.arrival
    cases i.s_axis_tvalid <;> rfl
  have hdiscards : OrderBook.discards s₀ ins = OrderBook.discards s₁ ins' := by
    funext u
    rw [OrderBook.discards, OrderBook.discards, (OrderBook.tracks_cycle ins hreset u).accept_eq,
      (OrderBook.tracks_cycle ins' hreset' u).accept_eq, hvalid, hvalid, funext hsame, hsame u]
  apply BitVec.eq_of_toNat_eq
  have hcount := (OrderBook.counts_dropCount ins hreset).toNat_eq t
  rw [hdiscards] at hcount
  exact hcount.trans ((OrderBook.counts_dropCount ins' hreset').toNat_eq t).symm

end Book

/-! ### From the reset on -/

/-- `aresetn` is low in cycle `t` and high ever after. -/
structure Released (ins : Nat → Input) (t : Nat) : Prop where
  low : (ins t).aresetn = false
  high : ∀ u, t < u → (ins u).aresetn = true

section Released

variable {DEPTH : Nat} [NeZero DEPTH] {ins : Nat → Input} {t : Nat} (h : Released ins t)
  (s : State DEPTH)

include h

theorem Released.reset_r (u : Nat) : (cycle s ins (t + 2 + u)).reset_r = false := by
  have hhigh := h.high (t + 1 + u) (by omega)
  rw [show t + 2 + u = t + 1 + u + 1 by omega]
  change (!(ins (t + 1 + u)).aresetn) = false
  rw [hhigh]
  rfl

theorem Released.afterReset :
    OrderBook.AfterReset (settled (cycle s ins (t + 2)).u_book) := by
  have hreset : (cycle s ins (t + 1)).reset_r = true := by
    change (!(ins t).aresetn) = true
    rw [h.low]
    rfl
  have hbook : (cycle s ins (t + 2)).u_book =
      OrderBook.step true (cycle s ins (t + 1)).u_book (bookInput (ins (t + 1))) := by
    rw [← hreset]
    rfl
  rw [hbook]
  exact afterReset_settled _ _

/-- Two cycles after the low one the book runs from its reset state. -/
theorem Released.u_book_eq (u : Nat) :
    (cycle s ins (t + 3 + u)).u_book =
      OrderBook.cycle (settled (cycle s ins (t + 2)).u_book)
        (fun v => bookInput (ins (t + 2 + v))) (u + 1) := by
  have hnext : ∀ v, (cycle s ins (t + 2 + v + 1)).u_book =
      OrderBook.next (cycle s ins (t + 2 + v)).u_book (bookInput (ins (t + 2 + v))) := by
    intro v
    have hstep : (cycle s ins (t + 2 + v + 1)).u_book = OrderBook.step
        (cycle s ins (t + 2 + v)).reset_r (cycle s ins (t + 2 + v)).u_book
          (bookInput (ins (t + 2 + v))) := rfl
    rw [hstep, h.reset_r s v]
    rfl
  induction u with
  | zero => exact hnext 0
  | succ u ih =>
    have hbefore : (cycle s ins (t + 2 + (u + 1))).u_book =
        OrderBook.cycle (settled (cycle s ins (t + 2)).u_book)
          (fun v => bookInput (ins (t + 2 + v))) (u + 1) := by
      rw [show t + 2 + (u + 1) = t + 3 + u by omega]
      exact ih
    rw [show t + 3 + (u + 1) = t + 2 + (u + 1) + 1 by omega, hnext, hbefore]
    rfl

end Released

/-- The word on `m_axis` in a cycle, if it is valid. -/
def presented (s : State 10) : Option (BitVec 1984) :=
  if (outputs s).m_axis_tvalid then some (outputs s).m_axis_tdata else none

/-- The block design whose book starts from `book₀` and gets the words offered to the module
    from cycle `t` on; what follows the book is as in `b`. -/
def boardFrom (b : FeedPipeline.Board) (book₀ : OrderBook.State 10 32 32) (ins : Nat → Input)
    (t : Nat) : FeedPipeline.Board :=
  { b with
    book₀ := book₀
    out_msgs_tdata := fun u => (ins (t + u)).s_axis_tdata
    out_msgs_tvalid := fun u => (ins (t + u)).s_axis_tvalid }

/-- After its release the module is the book of the block design. -/
theorem Released.presented_eq {ins : Nat → Input} {t : Nat} (h : Released ins t)
    (b : FeedPipeline.Board) (s : State 10) (u : Nat) :
    presented (cycle s ins (t + 3 + u)) =
      (boardFrom b (settled (cycle s ins (t + 2)).u_book) ins (t + 2)).snapshot (u + 1) := by
  rw [presented, outputs, h.u_book_eq s]
  rfl

/-- **A reset forgets everything.**  Two runs of the module from any contents, with any
    inputs before, show the same words, pulses and drop count from the third cycle after a
    low one on, if the same words are offered from the second cycle after it on. -/
theorem reset_forgets (s s' : State 10) {ins ins' : Nat → Input} {t t' : Nat}
    (h : Released ins t) (h' : Released ins' t')
    (hsame : ∀ u, offered ins (t + 2 + u) = offered ins' (t' + 2 + u)) (u : Nat) :
    outputs (cycle s ins (t + 3 + u)) = outputs (cycle s' ins' (t' + 3 + u)) := by
  have hsnap := snap_congr (h.afterReset s) (h'.afterReset s') hsame (u + 1)
  have hcount := dropCount_congr (h.afterReset s) (h'.afterReset s') hsame (u + 1)
  rw [← h.u_book_eq s, ← h'.u_book_eq s'] at hsnap hcount
  rw [outputs, outputs, hsnap, hcount]

/-- The registers as the bitstream leaves them. -/
def configured : State 10 := ⟨false, OrderBook.powerUp⟩

/-- A message in every cycle, numbered from the cycle `n` of the reset. -/
def resetAt (n t : Nat) : Input where
  aresetn := decide (t ≠ n)
  s_axis_tdata := FeedPipeline.inTurn (t - n)
  s_axis_tvalid := true
  m_axis_tready := false

theorem released_resetAt (n : Nat) : Released (resetAt n) n where
  low := decide_eq_false (not_not.mpr rfl)
  high := fun _ hu => decide_eq_true (Nat.ne_of_gt hu)

/-- A module reset after four messages and one reset at once. -/
theorem reset_forgets_late :
    outputs (cycle configured (resetAt 4) (4 + 3 + 9)) =
      outputs (cycle ⟨true, OrderBook.powerUp⟩ (resetAt 0) (0 + 3 + 9)) :=
  reset_forgets _ _ (released_resetAt 4) (released_resetAt 0) (fun u => by
    simp only [offered, bookInput, resetAt, OrderBook.Input.arrival, if_true,
      show 4 + 2 + u - 4 = 0 + 2 + u - 0 by omega]) 9

/-! ### What the stream shows -/

section Shown

variable {DEPTH : Nat} [NeZero DEPTH]

/-- The words for which the book's queue had room in the `n` cycles from `t` on; a word that
    comes while the book is in reset is not kept. -/
def keptFrom (s : State DEPTH) (ins : Nat → Input) (t n : Nat) : List (OrderBook.Word 32 32) :=
  collect (fun u => if (cycle s ins (t + u)).reset_r then none
    else OrderBook.accept (cycle s ins (t + u)).u_book (bookInput (ins (t + u)))) n

/-- In how many of the `n` cycles from `t` on `m_axis_tvalid` was high. -/
def pulsesFrom (s : State DEPTH) (ins : Nat → Input) (t n : Nat) : Nat :=
  highs (fun u => (cycle s ins (t + u)).u_book.snap.valid) n

end Shown

/-- **The stream shows the book.**  From the third cycle after a low one on the word on
    `m_axis` is always the packed snapshot of the book after some of the words kept since
    the second, one more with every pulse: none before it is kept, and all of them 16
    cycles later. -/
theorem shows_kept (s : State 10) {ins : Nat → Input} {t : Nat} (h : Released ins t) (u : Nat) :
    pulsesFrom s ins (t + 3) (u + 1) ≤ (keptFrom s ins (t + 2) (u + 1)).length ∧
      (keptFrom s ins (t + 2) (u + 1)).length ≤ pulsesFrom s ins (t + 3) (u + 17) ∧
      (outputs (cycle s ins (t + 3 + u))).m_axis_tdata =
        packSnap (OrderBook.snapshotAfter
          ((keptFrom s ins (t + 2) (u + 1)).take (pulsesFrom s ins (t + 3) (u + 1)))
          (outputs (cycle s ins (t + 3 + u))).m_axis_tvalid) := by
  have hreset := h.afterReset s
  have hkept : ∀ n, keptFrom s ins (t + 2) n = OrderBook.kept
      (settled (cycle s ins (t + 2)).u_book) (fun v => bookInput (ins (t + 2 + v))) n := by
    intro n
    apply collect_congr
    intro v _
    rw [h.reset_r s v]
    cases v with
    | zero => rfl
    | succ v =>
      rw [← h.u_book_eq s v, show t + 3 + v = t + 2 + (v + 1) by omega]
      rfl
  have hpulses : ∀ n, pulsesFrom s ins (t + 3) n = OrderBook.pulses
      (settled (cycle s ins (t + 2)).u_book) (fun v => bookInput (ins (t + 2 + v))) (n + 1) := by
    intro n
    rw [OrderBook.pulses, highs_succ_start, pulsesFrom]
    simp only [← h.u_book_eq s]
    exact (Nat.zero_add _).symm
  have hshown := OrderBook.snap_eq (fun v => bookInput (ins (t + 2 + v))) hreset (u + 1)
  rw [← hkept, ← hpulses, ← h.u_book_eq s] at hshown
  refine ⟨?_, ?_, congrArg packSnap hshown⟩
  · rw [hkept, hpulses]
    exact OrderBook.pulses_le_kept _ hreset (u + 1)
  · rw [hkept, hpulses, show u + 17 + 1 = u + 1 + 12 + 5 by omega, OrderBook.pulses_eq hreset]
    exact (OrderBook.kept_isPrefix_takes hreset _ (u + 1)).length_le

theorem shows_kept_late :
    pulsesFrom configured (resetAt 4) (4 + 3) (9 + 1) ≤
        (keptFrom configured (resetAt 4) (4 + 2) (9 + 1)).length ∧
      (keptFrom configured (resetAt 4) (4 + 2) (9 + 1)).length ≤
        pulsesFrom configured (resetAt 4) (4 + 3) (9 + 17) ∧
      (outputs (cycle configured (resetAt 4) (4 + 3 + 9))).m_axis_tdata =
        packSnap (OrderBook.snapshotAfter
          ((keptFrom configured (resetAt 4) (4 + 2) (9 + 1)).take
            (pulsesFrom configured (resetAt 4) (4 + 3) (9 + 1)))
          (outputs (cycle configured (resetAt 4) (4 + 3 + 9))).m_axis_tvalid) :=
  shows_kept _ (released_resetAt 4) 9

end FeedHandler.AxisWrap
