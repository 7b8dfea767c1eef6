import FeedHandler.AxisDropFifo

/-!
# How long a record waits in the FIFO

The output word is missing only when everything kept before has gone, so every read
takes a word as long as there is one.  Hence a record waits for the reads that the words
ahead of it need and for nothing else, however fast records arrive and however many of
them are dropped.
-/

namespace FeedHandler.AxisDropFifo

open Sync

namespace DropQueue

variable {W : Type} {p : DropQueue W} {cap : Nat} {offer : Option W} {ready : Bool}

/-- A cycle that leaves no word at the output leaves at most the word that arrived in it. -/
theorem held_step_of_out (hout : (p.step cap offer ready).out = none) :
    (p.step cap offer ready).held = (p.accepted cap offer).toList := by
  rcases p with ⟨queue, out⟩
  simp only [step, loads] at hout
  cases out <;> cases ready <;> cases queue <;> simp_all [held, step, loads]

end DropQueue

section Runs

variable {AW WIDTH : Nat} (s : State AW WIDTH) (ins : Nat → Input WIDTH) {n t u : Nat}

/-- **The output word is missing only when everything kept before has gone.** -/
theorem delivered_of_out (hout : (queueAt AW ins (t + 1)).out = none) :
    delivered s ins (t + 1) = kept s ins t := by
  have hnow : kept s ins (t + 1) =
      kept s ins t ++ ((queueAt AW ins t).accepted (2 ^ AW) (ins t).offer).toList := by
    rw [← (tracks_cycle s ins t).accept_eq]
    rfl
  have hheld : (queueAt AW ins (t + 1)).held =
      ((queueAt AW ins t).accepted (2 ^ AW) (ins t).offer).toList :=
    DropQueue.held_step_of_out hout
  rw [kept_eq, hheld] at hnow
  exact List.append_cancel_right hnow

/-- A read takes the output word. -/
theorem length_delivered_succ {w : BitVec WIDTH} (hout : (queueAt AW ins t).out = some w) :
    (delivered s ins (t + 1)).length =
      (delivered s ins t).length + (ins t).m_axis_tready.toNat := by
  have hnow : delivered s ins (t + 1) = delivered s ins t ++
      ((queueAt AW ins t).delivered (ins t).m_axis_tready).toList := by
    rw [← (tracks_cycle s ins t).deliver_eq]
    rfl
  rw [hnow, List.length_append, DropQueue.delivered, hout]
  cases (ins t).m_axis_tready <;> rfl

/-- A word does not reach the output in the cycle in which it is kept. -/
theorem delivered_append_out_isPrefix (t : Nat) :
    delivered s ins (t + 1) ++ (queueAt AW ins (t + 1)).out.toList <+: kept s ins t := by
  have hnow : kept s ins (t + 1) =
      kept s ins t ++ ((queueAt AW ins t).accepted (2 ^ AW) (ins t).offer).toList := by
    rw [← (tracks_cycle s ins t).accept_eq]
    rfl
  have hqueue : (queueAt AW ins (t + 1)).queue =
      (if (queueAt AW ins t).loads (ins t).m_axis_tready then (queueAt AW ins t).queue.tail
        else (queueAt AW ins t).queue) ++
        ((queueAt AW ins t).accepted (2 ^ AW) (ins t).offer).toList := rfl
  rw [kept_eq, DropQueue.held, hqueue, ← List.append_assoc, ← List.append_assoc] at hnow
  exact ⟨_, List.append_cancel_right hnow⟩

/-- A word is delivered two cycles after it was kept at the earliest. -/
theorem delivered_isPrefix_kept (t : Nat) : delivered s ins (t + 2) <+: kept s ins t := by
  have hnow : delivered s ins (t + 2) = delivered s ins (t + 1) ++
      ((queueAt AW ins (t + 1)).delivered (ins (t + 1)).m_axis_tready).toList := by
    rw [← (tracks_cycle s ins (t + 1)).deliver_eq]
    rfl
  refine List.IsPrefix.trans ?_ (delivered_append_out_isPrefix s ins t)
  rw [hnow, List.prefix_append_right_inj, DropQueue.delivered]
  split_ifs
  · exact List.prefix_refl _
  · exact List.nil_prefix

theorem length_delivered_mono (h : t ≤ u) :
    (delivered s ins t).length ≤ (delivered s ins u).length :=
  (collect_mono h).length_le

theorem length_kept_mono (h : t ≤ u) : (kept s ins t).length ≤ (kept s ins u).length :=
  (collect_mono h).length_le

/-- **Every read counts**: from the second cycle on, each takes a word until all that were
    kept at the start have gone. -/
theorem served (h : t + 1 ≤ u) :
    (kept s ins t).length ≤ (delivered s ins u).length ∨
      (delivered s ins (t + 1)).length + highs (fun v => (ins v).m_axis_tready) u ≤
        (delivered s ins u).length + highs (fun v => (ins v).m_axis_tready) (t + 1) := by
  induction u, h using Nat.le_induction with
  | base => exact Or.inr (Nat.le_refl _)
  | succ u hle ih =>
    have hmono := length_delivered_mono s ins (Nat.le_succ u)
    cases hout : (queueAt AW ins u).out with
    | none =>
      obtain ⟨v, rfl⟩ : ∃ v, u = v + 1 := ⟨u - 1, by omega⟩
      have hgone := delivered_of_out s ins hout
      have hkept := length_kept_mono s ins (Nat.le_of_succ_le_succ hle)
      rw [← hgone] at hkept
      exact Or.inl (hkept.trans hmono)
    | some w =>
      refine ih.imp (fun hdone => hdone.trans hmono) fun hreads => ?_
      rw [length_delivered_succ s ins hout, highs_succ]
      omega

/-- The words kept before `t` that are still in the FIFO in cycle `t`. -/
def waiting (t : Nat) : Nat := (kept s ins t).length - (delivered s ins t).length

theorem waiting_eq (t : Nat) : waiting s ins t = (queueAt AW ins t).held.length := by
  rw [waiting, kept_eq, List.length_append, Nat.add_sub_cancel_left]

theorem waiting_le (t : Nat) : waiting s ins t ≤ 2 ^ AW + 1 := by
  have hbound := (tracks_cycle s ins t).ring.bound
  rw [waiting_eq, DropQueue.held, List.length_append]
  cases (queueAt AW ins t).out with
  | none =>
    rw [Option.toList_none, List.length_nil, Nat.zero_add]
    exact Nat.le_succ_of_le hbound
  | some w =>
    rw [Option.toList_some, List.length_singleton]
    omega

theorem isPrefix_of_length_le (h : t ≤ u)
    (hlength : (kept s ins t).length ≤ (delivered s ins u).length) :
    kept s ins t <+: delivered s ins u :=
  List.prefix_of_prefix_length_le (collect_mono h) (delivered_isPrefix s ins u) hlength

/-- As many reads as words are waiting are enough. -/
theorem isPrefix_of_reads (h : t + 1 ≤ u)
    (hreads : highs (fun v => (ins v).m_axis_tready) (t + 1) + waiting s ins t ≤
      highs (fun v => (ins v).m_axis_tready) u) : kept s ins t <+: delivered s ins u := by
  refine isPrefix_of_length_le s ins (Nat.le_of_succ_le h) ?_
  have hmono := length_delivered_mono s ins (Nat.le_add_right t 1)
  rcases served s ins h with hdone | hserved
  · exact hdone
  · unfold waiting at hreads
    omega

/-- With a reader that comes at least once in every `n` cycles, `n` cycles for each word
    waiting are enough. -/
theorem isPrefix_of_waiting_le (hread : HighWithin n fun t => (ins t).m_axis_tready) {k : Nat}
    (hk : waiting s ins t ≤ k) : kept s ins t <+: delivered s ins (t + 1 + n * k) := by
  have hn : 0 < n := by
    obtain ⟨u, hle, hlt, -⟩ := hread 0
    omega
  have hmany := @div_le_highs (fun v => (ins v).m_axis_tready) n (t + 1) (t + 1 + n * k)
    (Nat.le_add_right _ _) fun v _ _ => hread v
  rw [Nat.add_sub_cancel_left, Nat.mul_div_cancel_left _ hn] at hmany
  exact isPrefix_of_reads s ins (Nat.le_add_right _ _) (by omega)

/-- **A record waits for those ahead of it, and for nothing else.**  Whatever is offered
    and dropped, with a reader that comes at least once in every `n` cycles everything kept
    before a cycle has been delivered, in order, `n` cycles later for each word still
    waiting then and one more, so at the latest after `n * (2 ^ AW + 1) + 1` cycles. -/
theorem delivered_within (hread : HighWithin n fun t => (ins t).m_axis_tready) (t : Nat) :
    kept s ins t <+: delivered s ins (t + 1 + n * waiting s ins t) ∧
      kept s ins t <+: delivered s ins (t + 1 + n * (2 ^ AW + 1)) := by
  constructor
  · exact isPrefix_of_waiting_le s ins hread (Nat.le_refl _)
  · exact isPrefix_of_waiting_le s ins hread (waiting_le s ins t)

/-- A record in every cycle and a reader that comes in every seventh. -/
def crowded (t : Nat) : Input 224 := ⟨BitVec.ofNat 224 t, true, decide (t % 7 = 0)⟩

theorem delivered_within_crowded :
    kept (resetRegs ⟨fun _ => 0, 0, 0, 0, false, 0⟩ : State 5 224) crowded 90 <+:
        delivered (resetRegs ⟨fun _ => 0, 0, 0, 0, false, 0⟩ : State 5 224) crowded
          (90 + 1 + 7 * waiting (resetRegs ⟨fun _ => 0, 0, 0, 0, false, 0⟩ : State 5 224)
            crowded 90) ∧
      kept (resetRegs ⟨fun _ => 0, 0, 0, 0, false, 0⟩ : State 5 224) crowded 90 <+:
        delivered (resetRegs ⟨fun _ => 0, 0, 0, 0, false, 0⟩ : State 5 224) crowded
          (90 + 1 + 7 * (2 ^ 5 + 1)) :=
  delivered_within _ crowded (fun t => ⟨(t + 6) / 7 * 7, by omega, by omega,
    decide_eq_true (by omega)⟩) 90

/-- **Nothing kept is kept for ever**: a reader that keeps coming back gets every record
    that was not dropped. -/
theorem delivered_eventually (hagain : ∀ t, ∃ u, t ≤ u ∧ (ins u).m_axis_tready = true)
    (t : Nat) : ∃ u, kept s ins t <+: delivered s ins u := by
  obtain ⟨u, hle, hreads⟩ := exists_highs_ge hagain (t + 1) (waiting s ins t)
  exact ⟨u, isPrefix_of_reads s ins hle hreads⟩

theorem delivered_eventually_crowded :
    ∃ u, kept (resetRegs ⟨fun _ => 0, 0, 0, 0, false, 0⟩ : State 5 224) crowded 90 <+:
      delivered (resetRegs ⟨fun _ => 0, 0, 0, 0, false, 0⟩ : State 5 224) crowded u :=
  delivered_eventually _ crowded (fun t => ⟨t * 7, by omega, decide_eq_true (by omega)⟩) 90

end Runs

end FeedHandler.AxisDropFifo
