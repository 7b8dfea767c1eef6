import Mathlib.Data.List.Basic
import Mathlib.Tactic.Common

/-!
# The pieces of `chisel3.util` the order book is built from

`PriorityEncoder`, `ShiftRegister` and `Queue`, each as its documentation
describes it, generic in sizes and payload.  Nothing here knows about prices.
-/

namespace FeedHandler.Chisel

/-! ### PriorityEncoder -/

/-- Position of the first high bit.  A priority mux returns its last input when
    no select is high, so with no bit set the answer is the last position. -/
def priorityEncoder : List Bool → Nat
  | [] => 0
  | [_] => 0
  | bit :: bits => if bit then 0 else priorityEncoder bits + 1

theorem priorityEncoder_eq (bits : List Bool) :
    priorityEncoder bits = min (bits.findIdx id) (bits.length - 1) := by
  induction bits with
  | nil => rfl
  | cons bit bits ih =>
    cases bits with
    | nil => simp [priorityEncoder]
    | cons next rest =>
      cases bit with
      | true => simp [priorityEncoder, List.findIdx_cons]
      | false =>
        have hskip : (false :: next :: rest).findIdx id = (next :: rest).findIdx id + 1 := by
          simp [List.findIdx_cons]
        have hstep : priorityEncoder (false :: next :: rest) =
            priorityEncoder (next :: rest) + 1 := rfl
        rw [hstep, ih, hskip]
        simp only [List.length_cons]
        omega

theorem priorityEncoder_of_first {bits : List Bool} {j : Nat} (hj : j < bits.length)
    (hbit : bits[j] = true) (hbefore : ∀ i, (hi : i < j) → bits[i] = false) :
    priorityEncoder bits = j := by
  have hfirst : bits.findIdx id = j :=
    (List.findIdx_eq hj).mpr ⟨hbit, fun i hi => by simpa using hbefore i hi⟩
  rw [priorityEncoder_eq, hfirst]
  omega

theorem priorityEncoder_of_none {bits : List Bool} (hnone : ∀ bit ∈ bits, bit = false) :
    priorityEncoder bits = bits.length - 1 := by
  have hlen : bits.findIdx id = bits.length :=
    List.findIdx_eq_length.mpr fun bit hbit => by simpa using hnone bit hbit
  rw [priorityEncoder_eq, hlen]
  omega

/-! ### ShiftRegister -/

theorem pred_lt {n : Nat} (i : Fin n) : i.val - 1 < n :=
  Nat.lt_of_le_of_lt (Nat.sub_le _ _) i.isLt

/-- `n` registers in series: one clock edge moves `x` in at the front. -/
def shiftIn {α : Type} {n : Nat} (x : α) (regs : Vector α n) : Vector α n :=
  Vector.ofFn fun i =>
    have hlt := pred_lt i
    if i.val = 0 then x else regs[i.val - 1]

@[simp] theorem shiftIn_zero {α : Type} {n : Nat} (x : α) (regs : Vector α n) (h : 0 < n) :
    (shiftIn x regs)[0] = x := by
  simp [shiftIn]

@[simp] theorem shiftIn_succ {α : Type} {n : Nat} (x : α) (regs : Vector α n) {i : Nat}
    (h : i + 1 < n) : (shiftIn x regs)[i + 1] = regs[i] := by
  simp [shiftIn]

/-! ### Queue -/

/-- `Queue(gen, entries)` without flow or pipe: at most `entries` words, oldest
    first. -/
structure Queue (α : Type) (entries : Nat) where
  items : List α
  bound : items.length ≤ entries

namespace Queue

variable {α : Type} {entries : Nat}

def empty : Queue α entries := { items := [], bound := Nat.zero_le _ }

/-- `enq.ready`: there is room before the edge; a dequeue in the same cycle does
    not count. -/
def enqReady (q : Queue α entries) : Bool := decide (q.items.length < entries)

/-- `deq.valid` and `deq.bits`: the oldest word, if there is one. -/
def deqBits (q : Queue α entries) : Option α := q.items.head?

/-- One clock edge: `enq` carries a word when `enq.valid`, and `deqReady` is
    `deq.ready`. -/
def next (q : Queue α entries) (enq : Option α) (deqReady : Bool) : Queue α entries where
  items := (if deqReady then q.items.tail else q.items) ++
    (if q.enqReady then enq.toList else [])
  bound := by
    have hkeep : (if deqReady then q.items.tail else q.items).length ≤ q.items.length := by
      split <;> simp
    have hbound := q.bound
    rw [List.length_append]
    by_cases hready : q.enqReady
    · have hroom : q.items.length < entries := by simpa [enqReady] using hready
      rw [if_pos hready]
      have hone : enq.toList.length ≤ 1 := by cases enq <;> simp
      omega
    · rw [if_neg hready]
      simpa using Nat.le_trans hkeep hbound

end Queue

end FeedHandler.Chisel
