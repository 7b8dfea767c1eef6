import FeedHandler.Sync
import Mathlib.Algebra.GroupWithZero.Nat

/-!
# Counters that wrap

A register that a wire increments holds the number of highs, reduced to its width.  Up to
a cycle it reads 0 only where there was no high, and never runs backwards, exactly while
the highs before that cycle fit the register.
-/

namespace FeedHandler.Sync

variable {width : Nat} {wire event : Nat → Bool} {counter : Nat → BitVec width} {n t : Nat}

/-! ### Highs -/

theorem highs_eq_zero_iff : highs wire t = 0 ↔ ∀ u < t, wire u = false := by
  induction t with
  | zero => simp
  | succ t ih =>
    rw [highs_succ, Nat.add_eq_zero_iff, ih]
    constructor
    · rintro ⟨hbefore, hnow⟩ u hu
      rcases Nat.lt_succ_iff_lt_or_eq.mp hu with hlt | rfl
      · exact hbefore u hlt
      · exact Bool.toNat_eq_zero.mp hnow
    · intro h
      exact ⟨fun u hu => h u (Nat.lt_succ_of_lt hu), by rw [h t (Nat.lt_succ_self t)]; rfl⟩

/-- The count passes through every number on its way. -/
theorem exists_highs_eq (h : n ≤ highs wire t) : ∃ u ≤ t, highs wire u = n := by
  rcases Nat.lt_or_eq_of_le h with hlt | rfl
  · obtain ⟨u, hut, -, hu⟩ := exists_high_of_lt hlt
    exact ⟨u, Nat.le_of_lt hut, hu⟩
  · exact ⟨t, Nat.le_refl t, rfl⟩

theorem highs_const_true (t : Nat) : highs (fun _ => true) t = t := by
  induction t with
  | zero => rfl
  | succ t ih => rw [highs_succ, ih, Bool.toNat_true]

/-- The highs with an event and those without are all of them. -/
theorem highs_and_add (wire event : Nat → Bool) (t : Nat) :
    highs (fun u => wire u && event u) t + highs (fun u => wire u && !event u) t =
      highs wire t := by
  induction t with
  | zero => rfl
  | succ t ih =>
    rw [highs_succ, highs_succ, highs_succ, ← ih]
    cases wire t <;> cases event t <;> simp <;> omega

/-- Where an event needs a high, every high has its event or is counted as without. -/
theorem length_collect_add_highs {α : Type} {signal : Nat → Option α}
    (hwire : ∀ u, (signal u).isSome → wire u = true) (t : Nat) :
    (collect signal t).length + highs (fun u => wire u && !(signal u).isSome) t =
      highs wire t := by
  have hsame : (fun u => (signal u).isSome) = fun u => wire u && (signal u).isSome := by
    funext u
    cases hevent : (signal u).isSome with
    | false => rw [Bool.and_false]
    | true => rw [hwire u hevent, Bool.true_and]
  rw [length_collect, hsame, ← highs_and_add wire fun u => (signal u).isSome]

/-! ### The register -/

/-- The register starts at 0 and is incremented in the cycles in which the wire is high. -/
structure Counts (wire : Nat → Bool) (counter : Nat → BitVec width) : Prop where
  start : counter 0 = 0
  step : ∀ t, counter (t + 1) = if wire t then counter t + 1 else counter t

/-- Up to cycle `t` the register reads 0 only where the wire has not been high, and never
    runs backwards. -/
structure Reliable (wire : Nat → Bool) (counter : Nat → BitVec width) (t : Nat) : Prop where
  zero : ∀ u ≤ t, counter u = 0 → ∀ v < u, wire v = false
  mono : ∀ u v, u ≤ v → v ≤ t → counter u ≤ counter v

/-- The register holds the count reduced to its width, and is reliable exactly while the
    count fits. -/
structure CountsModulo (wire : Nat → Bool) (counter : Nat → BitVec width) : Prop where
  counted : ∀ t, (counter t).toNat = highs wire t % 2 ^ width
  reliable : ∀ t, Reliable wire counter t ↔ highs wire t < 2 ^ width

variable (h : Counts wire counter)

include h

theorem Counts.toNat_eq (t : Nat) : (counter t).toNat = highs wire t % 2 ^ width := by
  induction t with
  | zero =>
    rw [h.start]
    exact (Nat.zero_mod _).symm
  | succ t ih =>
    rw [h.step, highs_succ]
    cases wire t with
    | false => exact ih
    | true => simp [BitVec.toNat_add, ih]

theorem Counts.eq_zero (hnone : highs wire t = 0) : counter t = 0 := by
  apply BitVec.eq_of_toNat_eq
  rw [h.toNat_eq, hnone]
  exact Nat.zero_mod _

/-- One cycle too many and the register has wrapped: when the count was `2 ^ width` it
    read 0. -/
theorem Counts.reliable_iff (t : Nat) : Reliable wire counter t ↔ highs wire t < 2 ^ width := by
  constructor
  · intro hreliable
    by_contra hmany
    obtain ⟨u, hut, hu⟩ := exists_highs_eq (Nat.le_of_not_lt hmany)
    have hzero : counter u = 0 := by
      apply BitVec.eq_of_toNat_eq
      rw [h.toNat_eq, hu, Nat.mod_self]
      exact (Nat.zero_mod _).symm
    have hnone := highs_eq_zero_iff.mpr (hreliable.zero u hut hzero)
    rw [hu] at hnone
    exact absurd hnone (Nat.two_pow_pos width).ne'
  · intro hfits
    have hexact : ∀ u ≤ t, (counter u).toNat = highs wire u := by
      intro u hut
      have hle : highs wire u ≤ highs wire t := highs_mono hut
      rw [h.toNat_eq, Nat.mod_eq_of_lt (Nat.lt_of_le_of_lt hle hfits)]
    constructor
    · intro u hut hzero
      apply highs_eq_zero_iff.mp
      rw [← hexact u hut, hzero]
      exact Nat.zero_mod _
    · intro u v huv hvt
      rw [BitVec.le_def, hexact u (huv.trans hvt), hexact v hvt]
      exact highs_mono huv

theorem Counts.countsModulo : CountsModulo wire counter where
  counted := h.toNat_eq
  reliable := h.reliable_iff

end FeedHandler.Sync
