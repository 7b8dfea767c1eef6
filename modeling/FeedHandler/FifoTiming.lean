import FeedHandler.AxisDropFifo

/-!
# The FIFO under spaced records

When the output is read at least once in every `n` cycles and records arrive at
least `n + 2` cycles apart, a record has left before the next one arrives: it is in
the memory for one cycle and stands at the output until it is read.
-/

namespace FeedHandler.AxisDropFifo

open Sync

namespace DropQueue

variable {W : Type} {offers : Nat → Option W} {ready : Nat → Bool} {cap n t : Nat}
  {p : DropQueue W}

/-- The queue in cycle `t`, with at most the last record in it: in the memory, or at
    the output and not read since it got there. -/
inductive Single (offers : Nat → Option W) (ready : Nat → Bool) : Nat → DropQueue W → Prop where
  | empty {t : Nat} : Single offers ready t ⟨[], none⟩
  | queued {a : Nat} {w : W} (hoffer : offers a = some w) : Single offers ready (a + 1) ⟨[w], none⟩
  | standing {a t : Nat} {w : W} (hoffer : offers a = some w) (hthere : a + 2 ≤ t)
      (hunread : ∀ u, a + 2 ≤ u → u < t → ready u = false) : Single offers ready t ⟨[], some w⟩

/-! #### The states a record passes through -/

theorem step_start (hcap : 1 ≤ cap) (offer : Option W) (read : Bool) :
    start.step cap offer read = ⟨offer.toList, none⟩ := by
  have hroom : 0 < cap := hcap
  simp [start, step, loads, accepted, hasRoom, hroom]

theorem step_queued (cap : Nat) (w : W) (read : Bool) :
    (⟨[w], none⟩ : DropQueue W).step cap none read = ⟨[], some w⟩ := by
  simp [step, loads, accepted]

theorem step_standing (cap : Nat) (w : W) (read : Bool) :
    (⟨[], some w⟩ : DropQueue W).step cap none read =
      if read then ⟨[], none⟩ else ⟨[], some w⟩ := by
  cases read <;> simp [step, loads, accepted]

theorem Single.length_queue_le (h : Single offers ready t p) : p.queue.length ≤ 1 := by
  cases h <;> simp

section Rate

variable (hready : HighWithin n ready)

include hready

/-- The reader comes within `n` cycles of a record's arrival at the output. -/
theorem lt_of_unread {a : Nat} (hunread : ∀ u, a + 2 ≤ u → u < t → ready u = false) :
    t < a + (n + 2) := by
  obtain ⟨u, hle, hlt, hhigh⟩ := hready (a + 2)
  by_contra hpast
  have hlow := hunread u hle (by omega)
  exact absurd (hhigh.symm.trans hlow) (by decide)

theorem Single.eq_start (h : Single offers ready t p) (hspaced : Spaced (n + 2) offers) {w : W}
    (hoffer : offers t = some w) : p = start := by
  cases h with
  | empty => rfl
  | @queued a _ hfirst =>
    have hapart := hspaced a (a + 1) (Nat.lt_succ_self a) (by simp [hfirst]) (by simp [hoffer])
    omega
  | @standing a _ _ hfirst hthere hunread =>
    have hsoon := lt_of_unread hready hunread
    have hapart := hspaced a t (by omega) (by simp [hfirst]) (by simp [hoffer])
    omega

theorem Single.step (h : Single offers ready t p) (hspaced : Spaced (n + 2) offers)
    (hcap : 1 ≤ cap) : Single offers ready (t + 1) (p.step cap (offers t) (ready t)) := by
  cases hoffer : offers t with
  | some w =>
    rw [h.eq_start hready hspaced hoffer, step_start hcap]
    exact .queued hoffer
  | none =>
    cases h with
    | empty =>
      have hnext : (⟨[], none⟩ : DropQueue W).step cap none (ready t) = ⟨[], none⟩ :=
        step_start hcap none (ready t)
      rw [hnext]
      exact .empty
    | @queued a w hfirst =>
      rw [step_queued]
      exact .standing hfirst (Nat.le_refl _) fun u hle hlt => by omega
    | @standing a _ w hfirst hthere hunread =>
      rw [step_standing]
      cases hread : ready t with
      | true => exact .empty
      | false =>
        refine .standing hfirst (hthere.trans (Nat.le_succ t)) ?_
        intro u hle hlt
        rcases Nat.lt_succ_iff_lt_or_eq.mp hlt with hbefore | rfl
        · exact hunread u hle hbefore
        · exact hread

/-- Once no record has arrived for `n + 2` cycles, none is held. -/
theorem Single.held_eq_nil (h : Single offers ready t p) {T : Nat}
    (hquiet : ∀ u, T ≤ u → offers u = none) (hlate : T + (n + 2) ≤ t) : p.held = [] := by
  have hearly : ∀ {a : Nat} {w : W}, offers a = some w → a < T := by
    intro a w hoffer
    by_contra hle
    exact absurd ((hquiet a (by omega)).symm.trans hoffer) (by simp)
  cases h with
  | empty => rfl
  | queued hoffer =>
    have := hearly hoffer
    omega
  | standing hoffer hthere hunread =>
    have := hearly hoffer
    have := lt_of_unread hready hunread
    omega

end Rate

end DropQueue

section Runs

variable {AW WIDTH n : Nat} (s : State AW WIDTH) {ins : Nat → Input WIDTH} (hAW : 1 ≤ AW)
  (hspaced : Spaced (n + 2) fun t => (ins t).offer)
  (hready : HighWithin n fun t => (ins t).m_axis_tready)

include hspaced hready

theorem single_queueAt (AW t : Nat) :
    DropQueue.Single (fun u => (ins u).offer) (fun u => (ins u).m_axis_tready) t
      (queueAt AW ins t) := by
  induction t with
  | zero => exact .empty
  | succ t ih => exact ih.step hready hspaced Nat.one_le_two_pow

include hAW

theorem accept_of_spaced (t : Nat) : accept (cycle s ins t) (ins t) = (ins t).offer := by
  have hshort := (single_queueAt hspaced hready AW t).length_queue_le
  have hcap : 2 ≤ 2 ^ AW := Nat.le_self_pow (Nat.ne_of_gt hAW) 2
  have hroom : (queueAt AW ins t).hasRoom (2 ^ AW) = true :=
    decide_eq_true (Nat.lt_of_le_of_lt hshort hcap)
  rw [(tracks_cycle s ins t).accept_eq, DropQueue.accepted, if_pos hroom]

theorem kept_of_spaced (t : Nat) : kept s ins t = collect (fun u => (ins u).offer) t :=
  collect_congr fun u _ => accept_of_spaced s hAW hspaced hready u

/-- **Nothing is dropped.** -/
theorem dropped_of_spaced (t : Nat) : (cycle s ins t).dropped = 0 :=
  dropped_of_kept s ins (accept_of_spaced s hAW hspaced hready) t

/-- **Everything is delivered** once the records have stopped. -/
theorem delivered_of_quiet {T t : Nat} (hquiet : ∀ u, T ≤ u → (ins u).offer = none)
    (hlate : T + (n + 2) ≤ t) :
    delivered s ins t = collect (fun u => (ins u).offer) t := by
  have hheld := (single_queueAt hspaced hready AW t).held_eq_nil hready hquiet hlate
  rw [← kept_of_spaced s hAW hspaced hready, kept_eq, hheld, List.append_nil]

end Runs

end FeedHandler.AxisDropFifo
