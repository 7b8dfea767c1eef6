import FeedHandler.AxisDropFifo
import FeedHandler.BookDepartures

/-!
# What a drop counter proves

Both blocks that never back-pressure count what they lose in 16 bits, without
saturating.  In a run of any length the counter holds the number of words lost, mod
`2 ^ 16`, so a reading of 0 proves that nothing was lost only while fewer than `2 ^ 16`
words have been.  A source that never pauses overruns either block and reaches that
number.
-/

namespace FeedHandler

open Sync

namespace AxisDropFifo

variable {AW WIDTH : Nat} (s : State AW WIDTH) (ins : Nat → Input WIDTH)

/-- Every word that arrives is kept or counted. -/
theorem kept_add_lost (t : Nat) :
    (kept s ins t).length + lost s ins t = highs (fun u => (ins u).s_axis_tvalid) t := by
  apply length_collect_add_highs
  intro u haccept
  by_contra hidle
  rw [Bool.not_eq_true] at hidle
  simp [accept, hidle] at haccept

/-- With a reader that never accepts at most the memory and the output word are kept. -/
theorem length_kept_le (hstalled : ∀ t, (ins t).m_axis_tready = false) (t : Nat) :
    (kept s ins t).length ≤ 2 ^ AW + 1 := by
  have hnone : delivered s ins t = [] := by
    induction t with
    | zero => rfl
    | succ t ih =>
      have hnext : delivered s ins (t + 1) =
          delivered s ins t ++ (deliver (cycle s ins t) (ins t)).toList := rfl
      rw [hnext, ih, deliver, outTake, hstalled, Bool.and_false]
      rfl
  have hqueue := (tracks_cycle s ins t).ring.bound
  have hout : (queueAt AW ins t).out.toList.length ≤ 1 := by
    cases (queueAt AW ins t).out <;> simp
  rw [kept_eq, hnone, List.nil_append, DropQueue.held, List.length_append]
  omega

/-- A stream without a pause into a stalled FIFO loses all but a bounded number of its
    words, so the counter wraps. -/
theorem not_reliable_of_stalled (hvalid : ∀ t, (ins t).s_axis_tvalid = true)
    (hstalled : ∀ t, (ins t).m_axis_tready = false) :
    ¬ Reliable (discards s ins) (fun t => (cycle s ins t).dropped) (2 ^ 16 + (2 ^ AW + 1)) := by
  rw [(counts_dropped s ins).reliable_iff, Nat.not_lt]
  have hsum := kept_add_lost s ins (2 ^ 16 + (2 ^ AW + 1))
  have hkept := length_kept_le s ins hstalled (2 ^ 16 + (2 ^ AW + 1))
  simp only [hvalid] at hsum
  rw [highs_const_true, lost] at hsum
  omega

end AxisDropFifo

namespace OrderBook

variable {depth priceBits sizeBits : Nat} [NeZero depth]

theorem accepts_add_lost (s₀ : State depth priceBits sizeBits)
    (ins : Nat → Input priceBits sizeBits) (t : Nat) :
    (collect (accepts s₀ ins) t).length + lost s₀ ins t =
      highs (fun u => (ins u).s_axis_tvalid) t := by
  apply length_collect_add_highs
  intro u haccept
  rw [accepts, isSome_accept, Bool.and_eq_true] at haccept
  exact haccept.1

variable {s₀ : State depth priceBits sizeBits} (hreset : AfterReset s₀)
  (ins : Nat → Input priceBits sizeBits)

include hreset

/-- The queue and its pace bound what is kept of a stream. -/
theorem length_accepts_lt (t : Nat) :
    3 * (collect (accepts s₀ ins) t).length < t + 3 + 3 * QUEUE_DEPTH := by
  have htakes := (paced hreset ins).spaced.mul_highs_lt (by decide) 0 t
  have hqueue := (cycle s₀ ins t).inQ.bound
  have hkept := length_accepts hreset ins t
  rw [length_collect (takes s₀ ins)] at hkept
  rw [Nat.zero_add, highs_zero] at htakes
  omega

/-- A stream without a pause is three times as fast as the queue is served, so the counter
    wraps. -/
theorem not_reliable_of_stream (hvalid : ∀ t, (ins t).s_axis_tvalid = true) :
    ¬ Reliable (discards s₀ ins) (fun t => (cycle s₀ ins t).dropCount) (2 ^ 17) := by
  rw [(counts_dropCount ins hreset).reliable_iff, Nat.not_lt]
  have hsum := accepts_add_lost s₀ ins (2 ^ 17)
  have hkept := length_accepts_lt hreset ins (2 ^ 17)
  simp only [hvalid] at hsum
  rw [highs_const_true, lost] at hsum
  rw [QUEUE_DEPTH] at hkept
  omega

end OrderBook

/-- The FIFO of the block design with every register zero. -/
def clearedFifo : AxisDropFifo.State 5 224 where
  mem := fun _ => 0
  wr_ptr := 0
  rd_ptr := 0
  m_axis_tdata := 0
  m_axis_tvalid := false
  dropped := 0

/-- A word in every cycle, to a reader that never accepts. -/
def stalledStream : Nat → AxisDropFifo.Input 224 := fun t => ⟨BitVec.ofNat 224 t, true, false⟩

def clearedBook {depth : Nat} [NeZero depth] : OrderBook.State depth 32 32 :=
  OrderBook.step true OrderBook.powerUp ⟨0, false⟩

/-- A message in every cycle, of both sides in turn. -/
def bookStream : Nat → OrderBook.Input 32 32 := fun t => ⟨OrderBook.pack 100 5 (t % 2) t, true⟩

/-- **A drop counter can read 0 after a loss.** -/
theorem dropCounters_wrap :
    (¬ ∀ (s : AxisDropFifo.State 5 224) (ins : Nat → AxisDropFifo.Input 224) (t : Nat),
      Reliable (AxisDropFifo.discards s ins)
        (fun u => (AxisDropFifo.cycle s ins u).dropped) t) ∧
    ¬ ∀ (s₀ : OrderBook.State 10 32 32) (ins : Nat → OrderBook.Input 32 32) (t : Nat),
      OrderBook.AfterReset s₀ →
      Reliable (OrderBook.discards s₀ ins)
        (fun u => (OrderBook.cycle s₀ ins u).dropCount) t := by
  constructor
  · intro h
    apply AxisDropFifo.not_reliable_of_stalled clearedFifo stalledStream (fun _ => rfl) fun _ => rfl
    exact h clearedFifo stalledStream _
  · intro h
    have hreset : OrderBook.AfterReset (clearedBook : OrderBook.State 10 32 32) :=
      OrderBook.afterReset_powerUp _
    apply OrderBook.not_reliable_of_stream hreset bookStream fun _ => rfl
    exact h clearedBook bookStream _ hreset

/-- **What the drop counters prove.**  In every run of either block from reset the counter
    is the number of words lost, mod `2 ^ 16`; up to a cycle it reads 0 only where nothing
    was lost, and never decreases, if and only if fewer than `2 ^ 16` words were lost
    before that cycle. -/
theorem dropCounters_countModulo :
    (∀ {AW WIDTH : Nat} (s : AxisDropFifo.State AW WIDTH) (ins : Nat → AxisDropFifo.Input WIDTH),
      CountsModulo (AxisDropFifo.discards s ins) fun t => (AxisDropFifo.cycle s ins t).dropped) ∧
    ∀ {depth priceBits sizeBits : Nat} [NeZero depth]
      (s₀ : OrderBook.State depth priceBits sizeBits)
      (ins : Nat → OrderBook.Input priceBits sizeBits), OrderBook.AfterReset s₀ →
      CountsModulo (OrderBook.discards s₀ ins) fun t => (OrderBook.cycle s₀ ins t).dropCount :=
  ⟨fun s ins => (AxisDropFifo.counts_dropped s ins).countsModulo,
    fun _ ins hreset => (OrderBook.counts_dropCount ins hreset).countsModulo⟩

theorem dropCounters_countModulo_streams :
    (CountsModulo (AxisDropFifo.discards clearedFifo stalledStream) fun t =>
        (AxisDropFifo.cycle clearedFifo stalledStream t).dropped) ∧
      CountsModulo (OrderBook.discards (clearedBook : OrderBook.State 10 32 32) bookStream)
        fun t =>
          (OrderBook.cycle (clearedBook : OrderBook.State 10 32 32) bookStream t).dropCount :=
  ⟨dropCounters_countModulo.1 clearedFifo stalledStream,
    dropCounters_countModulo.2 clearedBook bookStream (OrderBook.afterReset_powerUp _)⟩

end FeedHandler
