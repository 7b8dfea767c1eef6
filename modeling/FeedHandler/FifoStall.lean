import FeedHandler.AxisDropFifo
import FeedHandler.PacedQueue

/-!
# The stall the FIFO absorbs

Records arrive at least `gap` cycles apart and the reader comes at least once in every
`n` cycles, except during one stall of up to `gap` cycles for each word of memory.
The words held are among those offered since some earlier offer and not read since;
were the memory full when another arrives, the cycles they span would not fit the stall
and the reads outside it.
-/

namespace FeedHandler.AxisDropFifo

open Sync

/-- Outside the `len` cycles from `start` on the wire is high in every `n` consecutive
    cycles. -/
def HighOutside (n start len : Nat) (wire : Nat → Bool) : Prop :=
  ∀ u, u + n ≤ start ∨ start + len ≤ u → ∃ v, u ≤ v ∧ v < u + n ∧ wire v = true

/-- The cycles of an interval are the stall's and those that pay for a high each `n`,
    before the stall and after it. -/
theorem HighOutside.length_le {n start len t u : Nat} {wire : Nat → Bool}
    (h : HighOutside n start len wire) (hn : 0 < n) (htu : t ≤ u) :
    u - t + n * highs wire t + 2 ≤ len + n * highs wire u + 2 * n := by
  have hbefore : highs wire t + (max t (min u start) - t) / n ≤
      highs wire (max t (min u start)) := by
    apply div_le_highs (Nat.le_max_left _ _)
    intro v hv hfit
    exact h v (by omega)
  have hafter : highs wire (min u (max t (start + len))) +
      (u - min u (max t (start + len))) / n ≤ highs wire u := by
    apply div_le_highs (Nat.min_le_left _ _)
    intro v hv hfit
    exact h v (by omega)
  have hbetween : highs wire (max t (min u start)) ≤ highs wire (min u (max t (start + len))) :=
    highs_mono (by omega)
  have hfirst := Nat.lt_mul_div_succ (max t (min u start) - t) hn
  have hsecond := Nat.lt_mul_div_succ (u - min u (max t (start + len))) hn
  have hcount : n * (highs wire t + (max t (min u start) - t) / n +
      (u - min u (max t (start + len))) / n) ≤ n * highs wire u :=
    Nat.mul_le_mul_left n (by omega)
  rw [Nat.mul_add, Nat.mul_add] at hcount
  rw [Nat.mul_succ] at hfirst hsecond
  omega

namespace DropQueue

variable {W : Type} {offers : Nat → Option W} {ready : Nat → Bool} {cap t : Nat} {p : DropQueue W}

/-- What is held in cycle `t`: nothing but perhaps the word that arrived in the cycle
    before, or, with a word at the output, no more than was offered from some offer on
    and not read from the cycle on in which that offer could first be read. -/
inductive Accounted (offers : Nat → Option W) (ready : Nat → Bool) :
    Nat → DropQueue W → Prop where
  | empty {t : Nat} : Accounted offers ready t ⟨[], none⟩
  | queued {a : Nat} {w : W} (hoffer : (offers a).isSome) :
      Accounted offers ready (a + 1) ⟨[w], none⟩
  | standing {a t : Nat} {w : W} {queue : List W} (hoffer : (offers a).isSome) (hthere : a + 2 ≤ t)
      (hheld : queue.length + 1 + highs ready t + highs (fun u => (offers u).isSome) a ≤
        highs (fun u => (offers u).isSome) t + highs ready (a + 2)) :
      Accounted offers ready t ⟨queue, some w⟩

theorem length_accepted_le (offer : Option W) :
    (p.accepted cap offer).toList.length ≤ offer.isSome.toNat := by
  unfold accepted
  split_ifs
  · cases offer <;> simp
  · simp

theorem accounted_accepted (p : DropQueue W) (cap : Nat) :
    Accounted offers ready (t + 1) ⟨(p.accepted cap (offers t)).toList, none⟩ := by
  cases haccepted : p.accepted cap (offers t) with
  | none => exact .empty
  | some w =>
    apply Accounted.queued
    have hnew := @length_accepted_le _ cap p (offers t)
    rw [haccepted] at hnew
    cases hoffer : offers t with
    | none => simp [hoffer] at hnew
    | some w => rfl

/-- **One cycle** adds at most what is offered and, with a word at the output, removes what
    is read. -/
theorem Accounted.step (h : Accounted offers ready t p) :
    Accounted offers ready (t + 1) (p.step cap (offers t) (ready t)) := by
  have hnew := @length_accepted_le _ cap p (offers t)
  have hoffers := highs_succ (fun u => (offers u).isSome) t
  have hreads := highs_succ ready t
  cases h with
  | empty => exact accounted_accepted _ cap
  | @queued a w hoffer =>
    apply Accounted.standing hoffer (Nat.le_refl _)
    have hfirst := highs_succ (fun u => (offers u).isSome) a
    rw [hoffer, Bool.toNat_true] at hfirst
    rw [show a + 1 + 1 = a + 2 from rfl] at hoffers ⊢
    simp only [loads, Option.isSome_none, Bool.not_false, Bool.true_or, if_true, List.tail_cons,
      List.nil_append]
    omega
  | @standing a _ w queue hoffer hthere hheld =>
    cases hread : ready t with
    | false =>
      apply Accounted.standing hoffer (show a + 2 ≤ t + 1 by omega)
      rw [hread, Bool.toNat_false] at hreads
      simp only [loads, Option.isSome_some, Bool.not_true, Bool.or_self, Bool.false_eq_true,
        if_false, List.length_append]
      omega
    | true =>
      rw [hread, Bool.toNat_true] at hreads
      cases queue with
      | nil => exact accounted_accepted _ cap
      | cons x xs =>
        apply Accounted.standing hoffer (show a + 2 ≤ t + 1 by omega)
        simp only [loads, Bool.or_true, if_true, List.tail_cons, List.length_append]
        rw [List.length_cons] at hheld
        omega

/-- **There is room for every word offered.** -/
theorem Accounted.hasRoom {gap n start len : Nat} (h : Accounted offers ready t p) (hcap : 2 ≤ cap)
    (hn : 0 < n) (hgap : 2 * n < gap) (hspaced : Spaced gap offers)
    (hready : HighOutside n start len ready) (hlen : len ≤ gap * cap)
    (hoffer : (offers t).isSome) : p.hasRoom cap = true := by
  rw [DropQueue.hasRoom, decide_eq_true_eq]
  cases h with
  | empty => exact Nat.lt_of_lt_of_le Nat.zero_lt_two hcap
  | queued => exact hcap
  | @standing a _ w queue hfirst hthere hheld =>
    by_contra hroom
    have hfull : cap ≤ queue.length := Nat.le_of_not_lt hroom
    -- the offers from `a` to `t` take `gap` cycles each
    have hrate := hspaced.mul_highs_lt (by omega) a (t + 1 - a)
    rw [show a + (t + 1 - a) = t + 1 by omega, highs_succ, hoffer, Bool.toNat_true,
      Nat.mul_succ] at hrate
    have hspan := hready.length_le hn hthere
    have hreads : highs ready (a + 2) ≤ highs ready t := highs_mono hthere
    obtain ⟨reads, hreads⟩ := Nat.exists_eq_add_of_le hreads
    have hwords : highs (fun u => (offers u).isSome) a + (cap + 1 + reads) ≤
        highs (fun u => (offers u).isSome) t := by omega
    have hcycles := Nat.mul_le_mul_left gap hwords
    have hpace : n * reads ≤ gap * reads := Nat.mul_le_mul_right reads (by omega)
    rw [hreads, Nat.mul_add n] at hspan
    rw [Nat.mul_add, Nat.mul_add gap (cap + 1), Nat.mul_succ] at hcycles
    omega

end DropQueue

section Runs

variable {AW WIDTH : Nat}

theorem accounted_queueAt (AW : Nat) (ins : Nat → Input WIDTH) (t : Nat) :
    DropQueue.Accounted (fun u => (ins u).offer) (fun u => (ins u).m_axis_tready) t
      (queueAt AW ins t) := by
  induction t with
  | zero => exact .empty
  | succ t ih => exact ih.step

/-- **The stall is absorbed.**  With records at least 22 cycles apart and a reader that
    comes at least once in every 7 cycles outside one stall of at most 22 cycles a word
    of memory, every word is kept and none is counted as dropped. -/
theorem absorbsStall (hAW : 1 ≤ AW) (s : State AW WIDTH) (ins : Nat → Input WIDTH)
    {start len : Nat} (hspaced : Spaced 22 fun t => (ins t).offer) (hlen : len ≤ 22 * 2 ^ AW)
    (hready : HighOutside 7 start len fun t => (ins t).m_axis_tready) (t : Nat) :
    accept (cycle s ins t) (ins t) = (ins t).offer ∧ (cycle s ins t).dropped = 0 := by
  have hcap : 2 ≤ 2 ^ AW := Nat.le_self_pow (Nat.ne_of_gt hAW) 2
  have hkept : ∀ u, accept (cycle s ins u) (ins u) = (ins u).offer := by
    intro u
    rw [(tracks_cycle s ins u).accept_eq, DropQueue.accepted]
    split_ifs with hroom
    · rfl
    · cases hoffer : (ins u).offer with
      | none => rfl
      | some w =>
        have hsome : ((ins u).offer).isSome = true := by rw [hoffer]; rfl
        exact absurd ((accounted_queueAt AW ins u).hasRoom hcap (by decide) (by decide) hspaced
          hready hlen hsome) hroom
  exact ⟨hkept t, dropped_of_kept s ins hkept t⟩

/-- A record in every 22nd cycle and a reader that first comes in cycle 44. -/
def lateReader : Nat → Input 224 :=
  fun t => ⟨BitVec.ofNat 224 t, decide (t % 22 = 0), decide (44 ≤ t)⟩

/-- Two words of memory absorb it. -/
theorem absorbsStall_lateReader :
    accept (cycle (resetRegs ⟨fun _ => 0, 0, 0, 0, false, 0⟩ : State 1 224) lateReader 66)
        (lateReader 66) = (lateReader 66).offer ∧
      (cycle (resetRegs ⟨fun _ => 0, 0, 0, 0, false, 0⟩ : State 1 224) lateReader 66).dropped
        = 0 := by
  have hevery : ∀ t, ((lateReader t).offer).isSome = true → t % 22 = 0 := by
    intro t h
    by_contra hne
    simp [Input.offer, lateReader, hne] at h
  refine @absorbsStall 1 224 (by decide) _ lateReader 0 44 ?_ ?_ ?_ 66
  · intro t u htu ht hu
    have ht' := hevery t ht
    have hu' := hevery u hu
    omega
  · decide
  · intro u hu
    exact ⟨u, Nat.le_refl u, by omega, decide_eq_true (by omega)⟩

end Runs

end FeedHandler.AxisDropFifo
