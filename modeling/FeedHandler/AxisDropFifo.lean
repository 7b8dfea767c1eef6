import FeedHandler.EventCounter
import FeedHandler.RingWindow

/-!
# The drop-on-overflow FIFO

`axis_drop_fifo.v`: a memory of `2 ^ AW` words with wrap-bit pointers behind an
always-ready input, and a registered output word.  `next` is one clock edge with
reset high, the nonblocking assignments of the source reading the state before the
edge.  `DropQueue` is what the registers stand for: the queued words and the output
word.
-/

namespace FeedHandler.AxisDropFifo

open Sync

structure Input (WIDTH : Nat) where
  s_axis_tdata : BitVec WIDTH
  s_axis_tvalid : Bool
  m_axis_tready : Bool
deriving DecidableEq, Repr

structure State (AW WIDTH : Nat) where
  mem : BitVec AW → BitVec WIDTH
  wr_ptr : BitVec (AW + 1)
  rd_ptr : BitVec (AW + 1)
  m_axis_tdata : BitVec WIDTH
  m_axis_tvalid : Bool
  dropped : BitVec 16

variable {AW WIDTH : Nat}

def isEmpty (s : State AW WIDTH) : Bool := s.wr_ptr == s.rd_ptr

/-- The pointers' addresses are equal and their wrap bits are not. -/
def isFull (s : State AW WIDTH) : Bool :=
  (s.wr_ptr.setWidth AW == s.rd_ptr.setWidth AW) && (s.wr_ptr.msb != s.rd_ptr.msb)

def outTake (s : State AW WIDTH) (i : Input WIDTH) : Bool := s.m_axis_tvalid && i.m_axis_tready

def canLoad (s : State AW WIDTH) (i : Input WIDTH) : Bool :=
  !isEmpty s && (!s.m_axis_tvalid || i.m_axis_tready)

/-- One clock edge with `aresetn` high. -/
def next (s : State AW WIDTH) (i : Input WIDTH) : State AW WIDTH where
  mem := if i.s_axis_tvalid && !isFull s then
      Function.update s.mem (s.wr_ptr.setWidth AW) i.s_axis_tdata
    else s.mem
  wr_ptr := if i.s_axis_tvalid && !isFull s then s.wr_ptr + 1 else s.wr_ptr
  rd_ptr := if canLoad s i then s.rd_ptr + 1 else s.rd_ptr
  m_axis_tdata := if canLoad s i then s.mem (s.rd_ptr.setWidth AW) else s.m_axis_tdata
  m_axis_tvalid := if canLoad s i then true
    else if outTake s i then false
    else s.m_axis_tvalid
  dropped := if i.s_axis_tvalid && isFull s then s.dropped + 1 else s.dropped

/-- One clock edge with `aresetn` low: memory and output word keep their contents. -/
def resetRegs (s : State AW WIDTH) : State AW WIDTH :=
  { s with wr_ptr := 0, rd_ptr := 0, m_axis_tvalid := false, dropped := 0 }

def step (aresetn : Bool) (s : State AW WIDTH) (i : Input WIDTH) : State AW WIDTH :=
  if aresetn then next s i else resetRegs s

/-- The word written into the memory in this cycle, if any. -/
def accept (s : State AW WIDTH) (i : Input WIDTH) : Option (BitVec WIDTH) :=
  if i.s_axis_tvalid && !isFull s then some i.s_axis_tdata else none

def deliver (s : State AW WIDTH) (i : Input WIDTH) : Option (BitVec WIDTH) :=
  if outTake s i then some s.m_axis_tdata else none

/-! ### The queue behind the registers -/

/-- A queue of `cap` words in front of an output word. -/
structure DropQueue (W : Type) where
  queue : List W
  out : Option W

namespace DropQueue

variable {W : Type}

def start : DropQueue W where
  queue := []
  out := none

/-- Every word kept and not yet delivered, oldest first. -/
def held (p : DropQueue W) : List W := p.out.toList ++ p.queue

def hasRoom (cap : Nat) (p : DropQueue W) : Bool := decide (p.queue.length < cap)

/-- The output word is free or is taken now. -/
def loads (p : DropQueue W) (ready : Bool) : Bool := !p.out.isSome || ready

def accepted (cap : Nat) (p : DropQueue W) (offer : Option W) : Option W :=
  if p.hasRoom cap then offer else none

def delivered (p : DropQueue W) (ready : Bool) : Option W := if ready then p.out else none

def step (cap : Nat) (p : DropQueue W) (offer : Option W) (ready : Bool) : DropQueue W where
  queue := (if p.loads ready then p.queue.tail else p.queue) ++ (p.accepted cap offer).toList
  out := if p.loads ready then p.queue.head? else p.out

/-- **Conservation**: a cycle moves words from the offer to the held words to the
    delivery, and loses none. -/
theorem held_step (cap : Nat) (p : DropQueue W) (offer : Option W) (ready : Bool) :
    (p.delivered ready).toList ++ (p.step cap offer ready).held =
      p.held ++ (p.accepted cap offer).toList := by
  rcases p with ⟨queue, out⟩
  simp only [held, step, delivered, loads]
  cases out <;> cases ready <;> cases queue <;> simp

/-- The output word is missing only where there is nothing to load: at most the word
    that arrived in the last cycle is queued. -/
def Primed (p : DropQueue W) : Prop := p.out = none → p.queue.length ≤ 1

theorem primed_step (cap : Nat) (p : DropQueue W) (offer : Option W) (ready : Bool) :
    (p.step cap offer ready).Primed := by
  intro hout
  have hoffer : (p.accepted cap offer).toList.length ≤ 1 := by
    cases p.accepted cap offer <;> simp
  have hempty : p.queue.tail = [] ∧ p.loads ready = true := by
    simp only [step] at hout
    cases hloads : p.loads ready with
    | true =>
      rw [hloads, if_pos rfl, List.head?_eq_none_iff] at hout
      exact ⟨by rw [hout]; rfl, rfl⟩
    | false =>
      rw [hloads, if_neg (by simp)] at hout
      simp [loads, hout] at hloads
  simp only [step, hempty.2, if_true, hempty.1, List.nil_append]
  exact hoffer

/-- With two words of memory or more, there is room exactly while at most `cap` words
    are held. -/
theorem hasRoom_iff {cap : Nat} (hcap : 2 ≤ cap) {p : DropQueue W} (h : p.Primed) :
    p.hasRoom cap = true ↔ p.held.length < cap + 1 := by
  simp only [hasRoom, decide_eq_true_eq, held, List.length_append]
  cases hout : p.out with
  | none =>
    have hshort := h hout
    simp only [Option.toList_none, List.length_nil]
    omega
  | some w =>
    simp only [Option.toList_some, List.length_singleton]
    omega

end DropQueue

/-! ### The registers follow the queue -/

/-- The registers stand for `p`: its queue in the ring, its output word in the output
    register. -/
structure Tracks (s : State AW WIDTH) (p : DropQueue (BitVec WIDTH)) : Prop where
  ring : RingWindow s.mem s.rd_ptr s.wr_ptr p.queue
  valid : s.m_axis_tvalid = p.out.isSome
  data : ∀ w, p.out = some w → s.m_axis_tdata = w

def Input.offer (i : Input WIDTH) : Option (BitVec WIDTH) :=
  if i.s_axis_tvalid then some i.s_axis_tdata else none

variable {s : State AW WIDTH} {p : DropQueue (BitVec WIDTH)} {i : Input WIDTH}

theorem tracks_reset (s : State AW WIDTH) : Tracks (resetRegs s) .start where
  ring := RingWindow.empty _ _
  valid := rfl
  data := fun _ h => nomatch h

section Edge

variable (h : Tracks s p)

include h

theorem Tracks.isEmpty_iff : isEmpty s = true ↔ p.queue = [] := by
  rw [isEmpty, beq_iff_eq]
  exact h.ring.eq_iff

theorem Tracks.isFull_eq : isFull s = !p.hasRoom (2 ^ AW) := by
  have hbound := h.ring.bound
  have hfull : isFull s = true ↔ p.queue.length = 2 ^ AW := by
    rw [isFull, Bool.and_eq_true, beq_iff_eq, bne_iff_ne]
    exact h.ring.full_iff
  rw [Bool.eq_iff_iff, hfull, DropQueue.hasRoom]
  simp only [Bool.not_eq_true', decide_eq_false_iff_not]
  omega

theorem Tracks.accept_eq : accept s i = p.accepted (2 ^ AW) i.offer := by
  simp only [accept, DropQueue.accepted, h.isFull_eq, Input.offer, Bool.not_not]
  cases i.s_axis_tvalid <;> cases p.hasRoom (2 ^ AW) <;> rfl

theorem Tracks.deliver_eq : deliver s i = p.delivered i.m_axis_tready := by
  simp only [deliver, DropQueue.delivered, outTake, h.valid]
  cases hout : p.out with
  | none => simp
  | some w => simp [h.data w hout]

theorem Tracks.canLoad_iff :
    canLoad s i = true ↔ p.queue ≠ [] ∧ p.loads i.m_axis_tready = true := by
  rw [canLoad, Bool.and_eq_true, Bool.not_eq_true', ← Bool.not_eq_true, h.isEmpty_iff, h.valid]
  rfl

theorem Tracks.ring_push :
    RingWindow (next s i).mem s.rd_ptr (next s i).wr_ptr
      (p.queue ++ (p.accepted (2 ^ AW) i.offer).toList) := by
  have hfull := h.isFull_eq
  simp only [next, DropQueue.accepted, Input.offer, hfull, Bool.not_not]
  cases hvalid : i.s_axis_tvalid with
  | false => simpa using h.ring
  | true =>
    cases hroom : p.hasRoom (2 ^ AW) with
    | false => simpa using h.ring
    | true => simpa using h.ring.push (of_decide_eq_true hroom) i.s_axis_tdata

theorem Tracks.ring_next :
    RingWindow (next s i).mem (next s i).rd_ptr (next s i).wr_ptr
      (p.step (2 ^ AW) i.offer i.m_axis_tready).queue := by
  have hpush := h.ring_push (i := i)
  have hload := h.canLoad_iff (i := i)
  have hrd : (next s i).rd_ptr = if canLoad s i then s.rd_ptr + 1 else s.rd_ptr := rfl
  rw [hrd, DropQueue.step]
  cases hqueue : p.queue with
  | nil =>
    have hstay : ¬ canLoad s i = true := fun hcan => (hload.mp hcan).1 hqueue
    rw [hqueue] at hpush
    rw [if_neg hstay]
    simpa using hpush
  | cons w queue =>
    rw [hqueue] at hpush
    by_cases hloads : p.loads i.m_axis_tready = true
    · rw [if_pos (hload.mpr ⟨by simp [hqueue], hloads⟩), if_pos hloads]
      exact hpush.pop.2
    · rw [if_neg fun hcan => hloads (hload.mp hcan).2, if_neg hloads]
      exact hpush

theorem Tracks.out_next {w : BitVec WIDTH}
    (hout : (p.step (2 ^ AW) i.offer i.m_axis_tready).out = some w) :
    (next s i).m_axis_tvalid = true ∧ (next s i).m_axis_tdata = w := by
  have hload := h.canLoad_iff (i := i)
  simp only [DropQueue.step] at hout
  by_cases hloads : p.loads i.m_axis_tready = true
  · rw [if_pos hloads] at hout
    rcases List.head?_eq_some_iff.mp hout with ⟨queue, hqueue⟩
    have hring := h.ring
    rw [hqueue] at hring
    have hcan : canLoad s i = true := hload.mpr ⟨by simp [hqueue], hloads⟩
    simp only [next, hcan, if_true]
    exact ⟨trivial, hring.pop.1⟩
  · rw [if_neg hloads] at hout
    have hcan : ¬ canLoad s i = true := fun hcan => hloads (hload.mp hcan).2
    have hready : i.m_axis_tready = false := by
      simp only [DropQueue.loads, Bool.or_eq_true, not_or, Bool.not_eq_true] at hloads
      exact hloads.2
    simp [next, hcan, outTake, hready, h.valid, hout, h.data w hout]

theorem Tracks.out_none_next (hout : (p.step (2 ^ AW) i.offer i.m_axis_tready).out = none) :
    (next s i).m_axis_tvalid = false := by
  have hload := h.canLoad_iff (i := i)
  simp only [DropQueue.step] at hout
  by_cases hloads : p.loads i.m_axis_tready = true
  · rw [if_pos hloads, List.head?_eq_none_iff] at hout
    have hcan : ¬ canLoad s i = true := fun hcan => (hload.mp hcan).1 hout
    simp only [next, hcan, outTake, h.valid]
    simp only [DropQueue.loads, Bool.or_eq_true, Bool.not_eq_true'] at hloads
    rcases hloads with hfree | hready
    · simp [hfree]
    · simp [hready]
  · rw [if_neg hloads] at hout
    simp [DropQueue.loads, hout] at hloads

/-- **One edge of the module is one cycle of the queue.** -/
theorem Tracks.next : Tracks (next s i) (p.step (2 ^ AW) i.offer i.m_axis_tready) where
  ring := h.ring_next
  valid := by
    cases hout : (p.step (2 ^ AW) i.offer i.m_axis_tready).out with
    | none => exact h.out_none_next hout
    | some w => exact (h.out_next hout).1
  data := fun _ hout => (h.out_next hout).2

end Edge

/-! ### Runs -/

section Runs

variable (s : State AW WIDTH) (ins : Nat → Input WIDTH)

def cycle (t : Nat) : State AW WIDTH := stateAt AxisDropFifo.next (resetRegs s) ins t

/-- The words kept in the cycles before `t`, in order. -/
def kept (t : Nat) : List (BitVec WIDTH) := collect (fun u => accept (cycle s ins u) (ins u)) t

def delivered (t : Nat) : List (BitVec WIDTH) :=
  collect (fun u => deliver (cycle s ins u) (ins u)) t

/-- A word arrives in cycle `t` and is not kept. -/
def discards (t : Nat) : Bool :=
  (ins t).s_axis_tvalid && !(accept (cycle s ins t) (ins t)).isSome

/-- How many words that arrived before `t` were not kept. -/
def lost (t : Nat) : Nat := highs (discards s ins) t

def queueAt (AW : Nat) (ins : Nat → Input WIDTH) (t : Nat) : DropQueue (BitVec WIDTH) :=
  stateAt (fun p i => p.step (2 ^ AW) i.offer i.m_axis_tready) .start ins t

theorem tracks_cycle (t : Nat) : Tracks (cycle s ins t) (queueAt AW ins t) := by
  have hstep : ∀ (s : State AW WIDTH) (p : DropQueue (BitVec WIDTH)) (i : Input WIDTH),
      Tracks s p → Tracks (AxisDropFifo.next s i) (p.step (2 ^ AW) i.offer i.m_axis_tready) :=
    fun _ _ _ h => h.next
  exact simulation_stateAt ins (tracks_reset s) hstep t

theorem primed_queueAt (AW : Nat) (ins : Nat → Input WIDTH) (t : Nat) :
    (queueAt AW ins t).Primed :=
  invariant_stateAt ins (fun _ => Nat.zero_le _) (fun p i _ => p.primed_step _ i.offer _) t

/-- **Everything kept has been delivered or is held**, in that order. -/
theorem kept_eq (t : Nat) : kept s ins t = delivered s ins t ++ (queueAt AW ins t).held := by
  induction t with
  | zero => rfl
  | succ t ih =>
    have htracks := tracks_cycle s ins t
    have hheld := (queueAt AW ins t).held_step (2 ^ AW) (ins t).offer (ins t).m_axis_tready
    calc kept s ins (t + 1)
        = kept s ins t ++ (accept (cycle s ins t) (ins t)).toList := rfl
      _ = delivered s ins t ++ ((queueAt AW ins t).held ++
            ((queueAt AW ins t).accepted (2 ^ AW) (ins t).offer).toList) := by
          rw [ih, htracks.accept_eq, List.append_assoc]
      _ = (delivered s ins t ++ (deliver (cycle s ins t) (ins t)).toList) ++
            (queueAt AW ins (t + 1)).held := by
          rw [← hheld, htracks.deliver_eq, List.append_assoc]
          rfl

theorem delivered_isPrefix (t : Nat) : delivered s ins t <+: kept s ins t := by
  rw [kept_eq]
  exact List.prefix_append _ _

theorem accept_isSome_iff (hAW : 1 ≤ AW) {t : Nat} (hvalid : (ins t).s_axis_tvalid = true) :
    (accept (cycle s ins t) (ins t)).isSome = true ↔
      (kept s ins t).length - (delivered s ins t).length < 2 ^ AW + 1 := by
  have hcap : 2 ≤ 2 ^ AW := Nat.le_self_pow (Nat.ne_of_gt hAW) 2
  have hroom := DropQueue.hasRoom_iff hcap (primed_queueAt AW ins t)
  rw [kept_eq, List.length_append, Nat.add_sub_cancel_left, ← hroom,
    (tracks_cycle s ins t).accept_eq, DropQueue.accepted, Input.offer, hvalid]
  cases (queueAt AW ins t).hasRoom (2 ^ AW) <;> simp

theorem stable_of_stalled {t : Nat} (hvalid : (cycle s ins t).m_axis_tvalid = true)
    (hready : (ins t).m_axis_tready = false) :
    (cycle s ins (t + 1)).m_axis_tvalid = true ∧
      (cycle s ins (t + 1)).m_axis_tdata = (cycle s ins t).m_axis_tdata := by
  have hload : canLoad (cycle s ins t) (ins t) = false := by simp [canLoad, hvalid, hready]
  have hnext : cycle s ins (t + 1) = AxisDropFifo.next (cycle s ins t) (ins t) := rfl
  rw [hnext]
  simp [AxisDropFifo.next, hload, outTake, hready, hvalid]

theorem counts_dropped : Counts (discards s ins) fun t => (cycle s ins t).dropped where
  start := rfl
  step t := by
    have hdiscards : discards s ins t = ((ins t).s_axis_tvalid && isFull (cycle s ins t)) := by
      unfold discards accept
      cases (ins t).s_axis_tvalid <;> cases isFull (cycle s ins t) <;> rfl
    rw [hdiscards]
    rfl

theorem toNat_dropped (t : Nat) : (cycle s ins t).dropped.toNat = lost s ins t % 2 ^ 16 :=
  (counts_dropped s ins).toNat_eq t

/-- A run that keeps every word offered counts none as dropped. -/
theorem dropped_of_kept (hkept : ∀ t, accept (cycle s ins t) (ins t) = (ins t).offer) (t : Nat) :
    (cycle s ins t).dropped = 0 := by
  apply (counts_dropped s ins).eq_zero
  rw [highs_eq_zero_iff]
  intro u _
  rw [discards, hkept, Input.offer]
  cases (ins u).s_axis_tvalid <;> rfl

end Runs

/-- **A bounded FIFO that loses nothing it does not count.** -/
structure LosslessOrCounted (s : State AW WIDTH) (ins : Nat → Input WIDTH) : Prop where
  /-- A word offered is kept if and only if fewer than `2 ^ AW + 1` words kept before are
      undelivered at the start of the cycle. -/
  kept_iff : ∀ t, (ins t).s_axis_tvalid = true →
    ((accept (cycle s ins t) (ins t)).isSome = true ↔
      (kept s ins t).length - (delivered s ins t).length < 2 ^ AW + 1)
  in_order : ∀ t, delivered s ins t <+: kept s ins t
  /-- What was kept and not delivered is in the output register and the ring, in order. -/
  conserved : ∀ t, ∃ p, Tracks (cycle s ins t) p ∧
    kept s ins t = delivered s ins t ++ p.held
  /-- Nothing changes at the output while it is stalled. -/
  stable : ∀ t, (cycle s ins t).m_axis_tvalid = true → (ins t).m_axis_tready = false →
    (cycle s ins (t + 1)).m_axis_tvalid = true ∧
      (cycle s ins (t + 1)).m_axis_tdata = (cycle s ins t).m_axis_tdata
  /-- The counter counts, mod `2 ^ 16`, the words that were not kept. -/
  counted : ∀ t, (cycle s ins t).dropped.toNat = lost s ins t % 2 ^ 16

theorem losslessOrCounted (hAW : 1 ≤ AW) (s : State AW WIDTH) (ins : Nat → Input WIDTH) :
    LosslessOrCounted s ins where
  kept_iff := fun _ hvalid => accept_isSome_iff s ins hAW hvalid
  in_order := delivered_isPrefix s ins
  conserved := fun t => ⟨queueAt AW ins t, tracks_cycle s ins t, kept_eq s ins t⟩
  stable := fun _ hvalid hready => stable_of_stalled s ins hvalid hready
  counted := toNat_dropped s ins

/-- The module of the block design with an output that never accepts. -/
theorem losslessOrCounted_stalled :
    LosslessOrCounted
      { mem := fun _ => 0, wr_ptr := 0, rd_ptr := 0, m_axis_tdata := 0, m_axis_tvalid := false,
        dropped := 0 : State 5 224 }
      (fun t => ⟨BitVec.ofNat 224 t, true, false⟩) :=
  losslessOrCounted (by decide) _ _

end FeedHandler.AxisDropFifo
