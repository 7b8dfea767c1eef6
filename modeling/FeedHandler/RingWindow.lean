import Mathlib.Data.List.Basic
import Mathlib.Data.Nat.ModEq
import Mathlib.Logic.Function.Basic
import Mathlib.Tactic.Common

/-!
# Ring buffers with wrap-bit pointers

A memory of `2 ^ aw` words, a read and a write pointer one bit wider than an
address, and the queue that stands between them.  The extra bit tells a full ring
from an empty one.  Pushing and popping move one pointer each, and the pointers
wrap without a trace.
-/

namespace FeedHandler

variable {α : Type} {aw : Nat}

/-- The words from `rd` up to `wr` are the queue `q`, oldest first. -/
structure RingWindow (mem : BitVec aw → α) (rd wr : BitVec (aw + 1)) (q : List α) : Prop where
  bound : q.length ≤ 2 ^ aw
  span : wr.toNat = (rd.toNat + q.length) % 2 ^ (aw + 1)
  slot : ∀ k, (h : k < q.length) → mem (BitVec.ofNat aw (rd.toNat + k)) = q[k]

namespace RingWindow

variable {mem : BitVec aw → α} {rd wr : BitVec (aw + 1)} {q : List α} {x : α}

theorem address_eq (ptr : BitVec (aw + 1)) : ptr.setWidth aw = BitVec.ofNat aw ptr.toNat := by
  rw [BitVec.ofNat_toNat]

/-- Pointers at one address are told apart by the wrap bit. -/
theorem msb_ne_iff (haddress : wr.setWidth aw = rd.setWidth aw) :
    wr.msb ≠ rd.msb ↔ wr ≠ rd := by
  refine ⟨fun hmsb heq => hmsb (heq ▸ rfl), fun hne hmsb => hne ?_⟩
  apply BitVec.eq_of_getLsbD_eq
  intro i hi
  by_cases hlow : i < aw
  · have hbit := congrArg (fun v => v.getLsbD i) haddress
    simpa [BitVec.getLsbD_setWidth, hlow] using hbit
  · have htop : i = aw + 1 - 1 := by omega
    rw [htop, ← BitVec.msb_eq_getLsbD_last, ← BitVec.msb_eq_getLsbD_last, hmsb]

theorem toNat_succ (ptr : BitVec (aw + 1)) : (ptr + 1).toNat = (ptr.toNat + 1) % 2 ^ (aw + 1) := by
  have hone : (1 : BitVec (aw + 1)).toNat = 1 := by simp
  rw [BitVec.toNat_add, hone]

theorem address_ne {n k l : Nat} (hkl : k < l) (hl : l < k + 2 ^ aw) :
    BitVec.ofNat aw (n + k) ≠ BitVec.ofNat aw (n + l) := by
  intro h
  have hmod : (n + k) % 2 ^ aw = (n + l) % 2 ^ aw := by
    simpa using congrArg BitVec.toNat h
  have hdvd : 2 ^ aw ∣ (n + l) - (n + k) := (Nat.modEq_iff_dvd' (by omega)).mp hmod
  have hle := Nat.le_of_dvd (by omega) hdvd
  omega

theorem empty (mem : BitVec aw → α) (ptr : BitVec (aw + 1)) : RingWindow mem ptr ptr [] where
  bound := Nat.zero_le _
  span := (Nat.mod_eq_of_lt ptr.isLt).symm
  slot := fun _ h => nomatch h

variable (h : RingWindow mem rd wr q)

include h

/-- The pointers are equal exactly when the queue is empty. -/
theorem eq_iff : wr = rd ↔ q = [] := by
  have hrd := rd.isLt
  have hbound := h.bound
  have hspan := h.span
  have hpow : 2 ^ (aw + 1) = 2 * 2 ^ aw := by rw [Nat.pow_succ, Nat.mul_comm]
  rw [← BitVec.toNat_inj, ← List.length_eq_zero_iff, hspan]
  generalize 2 ^ aw = size at *
  rw [hpow] at hrd hspan ⊢
  by_cases hwrap : rd.toNat + q.length < 2 * size
  · rw [Nat.mod_eq_of_lt hwrap]
    omega
  · rw [Nat.mod_eq_sub_mod (by omega), Nat.mod_eq_of_lt (by omega)]
    omega

/-- The pointers differ in the wrap bit alone exactly when the ring is full. -/
theorem full_iff :
    (wr.setWidth aw = rd.setWidth aw ∧ wr.msb ≠ rd.msb) ↔ q.length = 2 ^ aw := by
  have hbound := h.bound
  have hspan := h.span
  have hempty := h.eq_iff
  have haddress : wr.setWidth aw = rd.setWidth aw ↔
      (rd.toNat + q.length) % 2 ^ aw = rd.toNat % 2 ^ aw := by
    rw [← BitVec.toNat_inj, BitVec.toNat_setWidth, BitVec.toNat_setWidth, hspan,
      Nat.mod_mod_of_dvd _ (Nat.pow_dvd_pow 2 (Nat.le_succ aw))]
  rw [and_congr_right msb_ne_iff, haddress, Ne, hempty, ← List.length_eq_zero_iff]
  constructor
  · rintro ⟨hmod, hne⟩
    have hdvd : 2 ^ aw ∣ (rd.toNat + q.length) - rd.toNat :=
      (Nat.modEq_iff_dvd' (Nat.le_add_right _ _)).mp hmod.symm
    rw [Nat.add_sub_cancel_left] at hdvd
    exact Nat.le_antisymm hbound (Nat.le_of_dvd (by omega) hdvd)
  · intro hfull
    have hsize : 0 < 2 ^ aw := Nat.two_pow_pos aw
    rw [hfull, Nat.add_mod_right]
    exact ⟨rfl, by omega⟩

theorem push (hroom : q.length < 2 ^ aw) (x : α) :
    RingWindow (Function.update mem (wr.setWidth aw) x) rd (wr + 1) (q ++ [x]) where
  bound := by
    rw [List.length_append, List.length_singleton]
    exact hroom
  span := by
    rw [toNat_succ, h.span, List.length_append, List.length_singleton, Nat.mod_add_mod,
      Nat.add_assoc]
  slot := by
    intro k hk
    have haddress : wr.setWidth aw = BitVec.ofNat aw (rd.toNat + q.length) := by
      rw [address_eq, h.span]
      refine BitVec.eq_of_toNat_eq ?_
      rw [BitVec.toNat_ofNat, BitVec.toNat_ofNat,
        Nat.mod_mod_of_dvd _ (Nat.pow_dvd_pow 2 (Nat.le_succ aw))]
    rw [haddress]
    by_cases hold : k < q.length
    · rw [Function.update_of_ne (address_ne hold (by omega)), h.slot k hold,
        List.getElem_append_left hold]
    · have hlast : k = q.length := by
        rw [List.length_append, List.length_singleton] at hk
        omega
      subst hlast
      simp

omit h in
/-- The word at the read pointer is the oldest one, and leaves the queue. -/
theorem pop (h : RingWindow mem rd wr (x :: q)) :
    mem (rd.setWidth aw) = x ∧ RingWindow mem (rd + 1) wr q := by
  refine ⟨?_, ?_, ?_, ?_⟩
  · rw [address_eq]
    exact h.slot 0 (by simp)
  · exact Nat.le_trans (Nat.le_succ _) h.bound
  · rw [h.span, toNat_succ, List.length_cons, Nat.mod_add_mod]
    congr 1
    omega
  · intro k hk
    have hnext := h.slot (k + 1) (by simpa using hk)
    have haddress : BitVec.ofNat aw ((rd + 1).toNat + k) =
        BitVec.ofNat aw (rd.toNat + (k + 1)) := by
      refine BitVec.eq_of_toNat_eq ?_
      rw [BitVec.toNat_ofNat, BitVec.toNat_ofNat, toNat_succ]
      rw [← Nat.mod_mod_of_dvd ((rd.toNat + 1) % 2 ^ (aw + 1) + k)
          (Nat.pow_dvd_pow 2 (Nat.le_succ aw)),
        Nat.mod_add_mod, Nat.mod_mod_of_dvd _ (Nat.pow_dvd_pow 2 (Nat.le_succ aw))]
      congr 1
      omega
    rw [haddress, hnext]
    rfl

end RingWindow

end FeedHandler
