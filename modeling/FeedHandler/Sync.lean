import Mathlib.Data.List.Basic
import Mathlib.Data.List.Infix
import Mathlib.Data.List.Induction
import Mathlib.Tactic.Common

/-!
# Synchronous machines

A clocked block is a step function from the state before a clock edge and the
inputs of that cycle to the state after the edge.  This module runs such a step
over an input schedule, packages the two inductions every block needs (an
invariant of all cycles, a simulation of one machine by another), and collects
what a run does cycle by cycle: the list of events so far and their number, and
how these fare behind a delay line.
-/

namespace FeedHandler.Sync

variable {State Spec Input α : Type}

/-- The state at the start of cycle `t`, from `s`, under the schedule `ins`. -/
def stateAt (step : State → Input → State) (s : State) (ins : Nat → Input) : Nat → State
  | 0 => s
  | t + 1 => step (stateAt step s ins t) (ins t)

/-- What a signal of a run has delivered in the cycles before `t`, in order. -/
def collect (signal : Nat → Option α) : Nat → List α
  | 0 => []
  | t + 1 => collect signal t ++ (signal t).toList

/-- In how many of the cycles before `t` a wire of a run was high. -/
def highs (wire : Nat → Bool) : Nat → Nat
  | 0 => 0
  | t + 1 => highs wire t + (wire t).toNat

section Runs

variable (step : State → Input → State) (s : State) (ins : Nat → Input)

@[simp] theorem stateAt_zero : stateAt step s ins 0 = s := rfl

@[simp] theorem stateAt_succ (t : Nat) :
    stateAt step s ins (t + 1) = step (stateAt step s ins t) (ins t) := rfl

variable {step s}

/-- An invariant that holds at the start and that one step preserves holds in
    every cycle. -/
theorem invariant_stateAt {Inv : State → Prop} (hinit : Inv s)
    (hstep : ∀ s i, Inv s → Inv (step s i)) (t : Nat) :
    Inv (stateAt step s ins t) := by
  induction t with
  | zero => exact hinit
  | succ t ih => exact hstep _ _ ih

/-- **Lock-step simulation.**  If the states are related at the start and one
    step of both machines on the same input keeps them related, they are related
    in every cycle. -/
theorem simulation_stateAt {stepSpec : Spec → Input → Spec} {a : Spec}
    {Rel : State → Spec → Prop} (hinit : Rel s a)
    (hstep : ∀ s a i, Rel s a → Rel (step s i) (stepSpec a i)) (t : Nat) :
    Rel (stateAt step s ins t) (stateAt stepSpec a ins t) := by
  induction t with
  | zero => exact hinit
  | succ t ih => exact hstep _ _ _ ih

end Runs

section Events

variable (signal : Nat → Option α) (wire : Nat → Bool)

@[simp] theorem collect_zero : collect signal 0 = [] := rfl

@[simp] theorem collect_succ (t : Nat) :
    collect signal (t + 1) = collect signal t ++ (signal t).toList := rfl

@[simp] theorem highs_zero : highs wire 0 = 0 := rfl

@[simp] theorem highs_succ (t : Nat) :
    highs wire (t + 1) = highs wire t + (wire t).toNat := rfl

variable {signal wire}

theorem collect_mono {t u : Nat} (h : t ≤ u) : collect signal t <+: collect signal u := by
  induction h with
  | refl => exact List.prefix_refl _
  | step _ ih => exact ih.trans (List.prefix_append _ _)

theorem highs_mono {t u : Nat} (h : t ≤ u) : highs wire t ≤ highs wire u := by
  induction h with
  | refl => exact Nat.le_refl _
  | step _ ih => exact ih.trans (Nat.le_add_right _ _)

/-- The first cycle apart from the rest. -/
theorem highs_succ_start (wire : Nat → Bool) (t : Nat) :
    highs wire (t + 1) = (wire 0).toNat + highs (fun u => wire (u + 1)) t := by
  induction t with
  | zero => simp
  | succ t ih => rw [highs_succ, ih, highs_succ, Nat.add_assoc]

theorem highs_lt_of_high {t u : Nat} (h : t < u) (hwire : wire t = true) :
    highs wire t < highs wire u := by
  have hnext : highs wire (t + 1) ≤ highs wire u := highs_mono h
  rw [highs_succ, hwire] at hnext
  exact Nat.lt_of_lt_of_le (by simp) hnext

theorem eq_of_highs_eq {t u : Nat} (ht : wire t = true) (hu : wire u = true)
    (heq : highs wire t = highs wire u) : t = u := by
  rcases Nat.lt_trichotomy t u with hlt | rfl | hgt
  · exact absurd heq (Nat.ne_of_lt (highs_lt_of_high hlt ht))
  · rfl
  · exact absurd heq (Nat.ne_of_gt (highs_lt_of_high hgt hu))

theorem length_collect (signal : Nat → Option α) (t : Nat) :
    (collect signal t).length = highs (fun u => (signal u).isSome) t := by
  induction t with
  | zero => rfl
  | succ t ih =>
    rw [collect_succ, highs_succ, List.length_append, ih]
    cases signal t <;> rfl

/-- If the count has passed `k`, there was a pulse that found exactly `k` before it. -/
theorem exists_high_of_lt {t k : Nat} (h : k < highs wire t) :
    ∃ u < t, wire u = true ∧ highs wire u = k := by
  induction t with
  | zero => simp at h
  | succ t ih =>
    by_cases hk : k < highs wire t
    · obtain ⟨u, hut, hu⟩ := ih hk
      exact ⟨u, Nat.lt_succ_of_lt hut, hu⟩
    · rw [highs_succ] at h
      cases hw : wire t with
      | false => simp [hw] at h; omega
      | true =>
        refine ⟨t, Nat.lt_succ_self t, hw, ?_⟩
        simp [hw] at h
        omega

/-- An event stands where the events before it end. -/
theorem getElem?_collect_of_lt {t u : Nat} {x : α} (hlt : u < t) (hevent : signal u = some x) :
    (collect signal t)[(collect signal u).length]? = some x := by
  have hnext : collect signal (u + 1) <+: collect signal t := collect_mono hlt
  rw [collect_succ, hevent, Option.toList_some] at hnext
  rcases hnext with ⟨later, hall⟩
  rw [← hall, List.append_assoc, List.getElem?_append_right (Nat.le_refl _), Nat.sub_self]
  rfl

/-- The event number `k` came in a cycle before which there were `k`. -/
theorem exists_cycle_of_getElem? {t k : Nat} {x : α} (h : (collect signal t)[k]? = some x) :
    ∃ u < t, signal u = some x ∧ (collect signal u).length = k := by
  obtain ⟨hk, -⟩ := List.getElem?_eq_some_iff.mp h
  rw [length_collect] at hk
  obtain ⟨u, hlt, hhigh, hcount⟩ := exists_high_of_lt hk
  obtain ⟨y, hy⟩ := Option.isSome_iff_exists.mp hhigh
  have hstands := getElem?_collect_of_lt hlt hy
  rw [← length_collect] at hcount
  rw [hcount, h] at hstands
  exact ⟨u, hlt, hstands ▸ hy, hcount⟩

theorem highs_lt_of_exists {t u : Nat} (h : ∃ v, t ≤ v ∧ v < u ∧ wire v = true) :
    highs wire t < highs wire u := by
  rcases h with ⟨v, hlow, hhigh, hwire⟩
  exact Nat.lt_of_le_of_lt (highs_mono hlow) (highs_lt_of_high hhigh hwire)

/-- A wire that is high in every `n` consecutive cycles of an interval is high there at
    least once for every `n` of its cycles. -/
theorem div_le_highs {n t u : Nat} (htu : t ≤ u)
    (h : ∀ v, t ≤ v → v + n ≤ u → ∃ x, v ≤ x ∧ x < v + n ∧ wire x = true) :
    highs wire t + (u - t) / n ≤ highs wire u := by
  have hmany : ∀ k, t + n * k ≤ u → highs wire t + k ≤ highs wire (t + n * k) := by
    intro k
    induction k with
    | zero => exact fun _ => Nat.le_refl _
    | succ k ih =>
      intro hle
      have hnext : t + n * (k + 1) = t + n * k + n := by rw [Nat.mul_succ, Nat.add_assoc]
      rw [hnext] at hle ⊢
      have hbefore := ih (by omega)
      have hlast := highs_lt_of_exists (h (t + n * k) (Nat.le_add_right t _) hle)
      omega
  have hfit : n * ((u - t) / n) ≤ u - t := Nat.mul_div_le _ _
  exact (hmany _ (by omega)).trans (highs_mono (by omega))

/-- A signal that passes some of the events of another delivers them in their order. -/
theorem collect_sublist {signal' : Nat → Option α}
    (h : ∀ u x, signal' u = some x → signal u = some x) (t : Nat) :
    (collect signal' t).Sublist (collect signal t) := by
  induction t with
  | zero => exact List.Sublist.refl _
  | succ t ih =>
    rw [collect_succ, collect_succ]
    refine ih.append ?_
    cases hevent : signal' t with
    | none => exact List.nil_sublist _
    | some x => rw [h t x hevent]

/-- A wire that is high again and again is high as often as one likes. -/
theorem exists_highs_ge (hagain : ∀ t, ∃ u, t ≤ u ∧ wire u = true) (t k : Nat) :
    ∃ u, t ≤ u ∧ highs wire t + k ≤ highs wire u := by
  induction k with
  | zero => exact ⟨t, Nat.le_refl t, Nat.le_refl _⟩
  | succ k ih =>
    obtain ⟨u, htu, hu⟩ := ih
    obtain ⟨v, huv, hv⟩ := hagain u
    have hmore := highs_lt_of_high (Nat.lt_add_one v) hv
    have hsofar : highs wire u ≤ highs wire v := highs_mono huv
    exact ⟨v + 1, by omega, by omega⟩

section Complete

variable {xs : List α} {T t : Nat} (hin : ∀ u, collect signal u <+: xs)
  (hall : collect signal T = xs) (hle : T ≤ t)

include hin hall hle

theorem collect_eq_of_complete : collect signal t = xs :=
  (hin t).eq_of_length_le (hall ▸ (collect_mono hle).length_le)

theorem eq_none_of_complete : signal t = none := by
  have hnow := collect_eq_of_complete hin hall hle
  have hnext := collect_eq_of_complete hin hall (Nat.le_succ_of_le hle)
  rw [collect_succ, hnow] at hnext
  simpa using hnext

end Complete

theorem collect_congr {signal' : Nat → Option α} {t : Nat}
    (h : ∀ u < t, signal u = signal' u) : collect signal t = collect signal' t := by
  induction t with
  | zero => rfl
  | succ t ih =>
    rw [collect_succ, collect_succ, ih fun u hu => h u (Nat.lt_succ_of_lt hu),
      h t (Nat.lt_succ_self t)]

end Events

/-! ### Delay and rate -/

section Rate

variable {β : Type} {signal : Nat → Option α} {n m t : Nat}

/-- A signal behind `n` registers that hold nothing at the start. -/
def delayed (n : Nat) (signal : Nat → Option α) (t : Nat) : Option α :=
  if n ≤ t then signal (t - n) else none

/-- Two events of a signal are at least `n` cycles apart. -/
def Spaced (n : Nat) (signal : Nat → Option α) : Prop :=
  ∀ t u, t < u → (signal t).isSome → (signal u).isSome → t + n ≤ u

/-- A wire is high at least once in every `n` consecutive cycles. -/
def HighWithin (n : Nat) (wire : Nat → Bool) : Prop :=
  ∀ t, ∃ u, t ≤ u ∧ u < t + n ∧ wire u = true

@[simp] theorem delayed_zero : delayed 0 signal t = signal t := rfl

@[simp] theorem delayed_succ_zero : delayed (n + 1) signal 0 = none := rfl

@[simp] theorem delayed_succ_succ : delayed (n + 1) signal (t + 1) = delayed n signal t := by
  simp [delayed]

theorem delayed_eq_none_iff : delayed n signal t = none ↔ ∀ u, u + n = t → signal u = none := by
  unfold delayed
  split_ifs with hle
  · constructor
    · rintro hnone u rfl
      rwa [Nat.add_sub_cancel] at hnone
    · intro h
      exact h (t - n) (Nat.sub_add_cancel hle)
  · refine ⟨fun _ u hu => ?_, fun _ => rfl⟩
    omega

theorem exists_of_delayed {x : α} (h : delayed n signal t = some x) :
    ∃ u, signal u = some x ∧ u + n = t := by
  unfold delayed at h
  split_ifs at h with hle
  exact ⟨t - n, h, by omega⟩

theorem delayed_delayed : delayed n (delayed m signal) t = delayed (n + m) signal t := by
  unfold delayed
  by_cases hfirst : n ≤ t
  · by_cases hsecond : n + m ≤ t
    · rw [if_pos hfirst, if_pos (by omega), if_pos hsecond, Nat.sub_sub]
    · rw [if_pos hfirst, if_neg (by omega), if_neg hsecond]
  · rw [if_neg hfirst, if_neg (by omega)]

theorem map_delayed (f : α → β) :
    (delayed n signal t).map f = delayed n (fun u => (signal u).map f) t := by
  unfold delayed
  split_ifs <;> rfl

theorem collect_map (f : α → β) (t : Nat) :
    collect (fun u => (signal u).map f) t = (collect signal t).map f := by
  induction t with
  | zero => rfl
  | succ t ih =>
    rw [collect_succ, collect_succ, ih]
    cases signal t <;> simp

/-- A delayed signal has delivered what the signal had delivered that much earlier. -/
theorem collect_delayed : collect (delayed n signal) t = collect signal (t - n) := by
  induction t with
  | zero => simp
  | succ t ih =>
    rw [collect_succ, ih]
    by_cases hle : n ≤ t
    · rw [Nat.succ_sub hle, collect_succ, delayed, if_pos hle]
    · have hzero : t - n = 0 ∧ t + 1 - n = 0 := by omega
      rw [hzero.1, hzero.2, delayed, if_neg hle]
      rfl

theorem Spaced.mono (h : Spaced n signal) (hle : m ≤ n) : Spaced m signal :=
  fun t u hlt ht hu => (Nat.add_le_add_left hle t).trans (h t u hlt ht hu)

theorem Spaced.of_isSome (h : Spaced n signal) {signal' : Nat → Option β}
    (hsome : ∀ t, (signal' t).isSome = (signal t).isSome) : Spaced n signal' :=
  fun t u hlt ht hu => h t u hlt (hsome t ▸ ht) (hsome u ▸ hu)

theorem Spaced.delayed (h : Spaced n signal) : Spaced n (delayed m signal) := by
  intro t u hlt ht hu
  rcases Option.isSome_iff_exists.mp ht with ⟨x, hx⟩
  rcases Option.isSome_iff_exists.mp hu with ⟨y, hy⟩
  obtain ⟨t', ht', rfl⟩ := exists_of_delayed hx
  obtain ⟨u', hu', rfl⟩ := exists_of_delayed hy
  have hapart := h t' u' (by omega) (by simp [ht']) (by simp [hu'])
  omega

/-- Two taps of a delay line closer than the spacing are not both occupied. -/
theorem Spaced.delayed_eq_none (h : Spaced n signal) {i j : Nat} {x : α}
    (hi : Sync.delayed i signal t = some x) (hne : i ≠ j) (hij : i < j + n) (hji : j < i + n) :
    Sync.delayed j signal t = none := by
  cases hjx : Sync.delayed j signal t with
  | none => rfl
  | some y =>
    obtain ⟨u, hu, hut⟩ := exists_of_delayed hi
    obtain ⟨v, hv, hvt⟩ := exists_of_delayed hjx
    rcases Nat.lt_or_gt_of_ne (show u ≠ v by omega) with hlt | hgt
    · have hapart := h u v hlt (by simp [hu]) (by simp [hv])
      omega
    · have hapart := h v u hgt (by simp [hv]) (by simp [hu])
      omega

/-- What `f` makes of every non-empty leading segment of a list, shortest first. -/
def leading (f : List α → β) (xs : List α) : List β := xs.mapIdx fun k _ => f (xs.take (k + 1))

@[simp] theorem length_leading (f : List α → β) (xs : List α) :
    (leading f xs).length = xs.length := List.length_mapIdx

theorem map_leading {γ : Type} (g : β → γ) (f : List α → β) (xs : List α) :
    (leading f xs).map g = leading (fun ys => g (f ys)) xs :=
  List.ext_getElem (by simp) fun k _ _ => by simp [leading]

theorem leading_append_singleton (f : List α → β) (xs : List α) (x : α) :
    leading f (xs ++ [x]) = leading f xs ++ [f (xs ++ [x])] := by
  apply List.ext_getElem (by simp)
  intro k hk _
  rw [length_leading, List.length_append, List.length_singleton] at hk
  simp only [leading, List.getElem_mapIdx]
  by_cases hold : k < xs.length
  · rw [List.getElem_append_left (by simpa using hold), List.getElem_mapIdx,
      List.take_append_of_le_length hold]
  · have hlast : k = xs.length := by omega
    subst hlast
    have hall : (xs ++ [x]).length ≤ xs.length + 1 := by simp
    simp [List.take_of_length_le hall]

theorem leading_isPrefix (f : List α → β) {xs ys : List α} (h : xs <+: ys) :
    leading f xs <+: leading f ys := by
  rcases h with ⟨zs, rfl⟩
  induction zs using List.reverseRecOn with
  | nil => simp
  | append_singleton zs z ih =>
    rw [← List.append_assoc, leading_append_singleton]
    exact ih.trans (List.prefix_append _ _)

theorem leading_map {γ : Type} (f : List β → γ) (g : α → β) (xs : List α) :
    leading f (xs.map g) = leading (fun ys => f (ys.map g)) xs :=
  List.ext_getElem (by simp) fun k _ _ => by simp [leading]

theorem leading_congr {f g : List α → β} {xs : List α}
    (h : ∀ k, k < xs.length → f (xs.take (k + 1)) = g (xs.take (k + 1))) :
    leading f xs = leading g xs :=
  List.mapIdx_eq_mapIdx_iff.mpr h

/-- The segments that are longer than `xs`. -/
theorem drop_leading (f : List α → β) (xs ys : List α) :
    (leading f (xs ++ ys)).drop xs.length = leading (fun zs => f (xs ++ zs)) ys := by
  apply List.ext_getElem
  · simp
  · intro k _ _
    simp only [leading, List.getElem_drop, List.getElem_mapIdx]
    rw [Nat.add_assoc, List.take_length_add_append]

/-- A block that answers every event from all events up to it. -/
theorem collect_leading (f : List α → β) (t : Nat) :
    collect (fun u => (signal u).map fun _ => f (collect signal (u + 1))) t =
      leading f (collect signal t) := by
  induction t with
  | zero => rfl
  | succ t ih =>
    rw [collect_succ, ih, collect_succ]
    cases hevent : signal t with
    | none => simp
    | some x => simp [leading_append_singleton]

end Rate

end FeedHandler.Sync
