import FeedHandler.Sync

/-!
# A queue served at a fixed pace

Events arrive in some cycles, wait in order, and leave one at a time: the first
waiting event is taken in every cycle that has none taken in the `gap - 1` cycles
before it.  Nothing else is said about how the queue and its control are built, and
it settles when every event is taken: one cycle after it arrived, or `gap` cycles
after the event before it, whichever is later.
-/

namespace FeedHandler.Sync

variable {α : Type}

/-- Event number `k` of a signal, counted from 0, is `x` and falls in cycle `t`. -/
structure Occurs (signal : Nat → Option α) (k : Nat) (x : α) (t : Nat) : Prop where
  event : signal t = some x
  count : (collect signal t).length = k

/-- Event number `k` of the arrivals leaves a queue of the given pace in cycle `t`. -/
def Departs (gap : Nat) (arrivals : Nat → Option α) : Nat → Nat → Prop
  | 0, t => ∃ x a, Occurs arrivals 0 x a ∧ t = a + 1
  | k + 1, t => ∃ x a before, Occurs arrivals (k + 1) x a ∧ Departs gap arrivals k before ∧
      t = max (a + 1) (before + gap)

/-- `takes` empties the queue of `arrivals` in order, one event whenever one waits and
    none was taken less than `gap` cycles ago. -/
structure Paced (gap : Nat) (arrivals takes : Nat → Option α) : Prop where
  fifo : ∀ t, collect takes t <+: collect arrivals t
  fires : ∀ t, (takes t).isSome ↔
    (collect takes t).length < (collect arrivals t).length ∧ ∀ u < t, t < u + gap → takes u = none

/-! ### Counting events -/

section Count

variable {signal : Nat → Option α} {k n t u : Nat} {x y : α}

theorem length_collect_succ (h : signal t = some x) :
    (collect signal (t + 1)).length = (collect signal t).length + 1 := by
  rw [collect_succ, h, List.length_append]
  rfl

theorem length_collect_succ_none (h : signal t = none) :
    (collect signal (t + 1)).length = (collect signal t).length := by
  rw [collect_succ, h, List.length_append]
  rfl

theorem length_collect_mono (h : t ≤ u) :
    (collect signal t).length ≤ (collect signal u).length :=
  (collect_mono h).length_le

/-- No event falls between two cycles with the same count. -/
theorem eq_none_of_length_eq (h : (collect signal t).length = (collect signal n).length)
    (htu : t ≤ u) (hun : u < n) : signal u = none := by
  cases hu : signal u with
  | none => rfl
  | some x =>
    have hfirst : (collect signal t).length ≤ (collect signal u).length := length_collect_mono htu
    have hlast : (collect signal (u + 1)).length ≤ (collect signal n).length :=
      length_collect_mono hun
    rw [length_collect_succ hu] at hlast
    omega

theorem length_collect_of_quiet (htu : t ≤ u) (hquiet : ∀ v, t ≤ v → v < u → signal v = none) :
    (collect signal u).length = (collect signal t).length := by
  induction u, htu using Nat.le_induction with
  | base => rfl
  | succ u htu ih =>
    rw [length_collect_succ_none (hquiet u htu (Nat.lt_succ_self u))]
    exact ih fun v hv hvu => hquiet v hv (Nat.lt_succ_of_lt hvu)

theorem Occurs.length_succ (h : Occurs signal k x t) :
    (collect signal (t + 1)).length = k + 1 := by
  rw [length_collect_succ h.event, h.count]

theorem Occurs.cycle_eq (h : Occurs signal k x t) (h' : Occurs signal k y u) : t = u := by
  refine @eq_of_highs_eq (fun v => (signal v).isSome) t u ?_ ?_ ?_
  · exact congrArg Option.isSome h.event
  · exact congrArg Option.isSome h'.event
  · rw [← length_collect, ← length_collect, h.count, h'.count]

/-- The event is entry `k` of the list of events from then on. -/
theorem Occurs.getElem_collect (h : Occurs signal k x t) (hlt : t < u) :
    (collect signal u)[k]? = some x := by
  obtain ⟨rest, hrest⟩ := (collect_mono hlt : collect signal (t + 1) <+: collect signal u)
  rw [← hrest, collect_succ, h.event, ← h.count, List.append_assoc,
    List.getElem?_append_right le_rfl, Nat.sub_self]
  rfl

theorem exists_occurs (hk : k < (collect signal t).length) : ∃ x, ∃ u < t, Occurs signal k x u := by
  rw [length_collect] at hk
  obtain ⟨u, hut, hhigh, hcount⟩ := exists_high_of_lt hk
  rcases Option.isSome_iff_exists.mp hhigh with ⟨x, hx⟩
  exact ⟨x, u, hut, hx, by rw [length_collect]; exact hcount⟩

end Count

/-! ### Departures -/

section Departures

variable {gap k t a : Nat} {arrivals takes : Nat → Option α} {x : α}

/-- Every event that has arrived has a departure. -/
theorem Occurs.exists_departs (h : Occurs arrivals k x a) : ∃ t, Departs gap arrivals k t := by
  induction k generalizing x a with
  | zero => exact ⟨a + 1, x, a, h, rfl⟩
  | succ k ih =>
    have hearlier : k < (collect arrivals a).length := by
      rw [h.count]
      exact Nat.lt_succ_self k
    obtain ⟨y, b, -, hy⟩ := exists_occurs hearlier
    obtain ⟨before, hbefore⟩ := ih hy
    exact ⟨_, x, a, before, h, hbefore, rfl⟩

theorem Departs.unique {u : Nat} (h : Departs gap arrivals k t) (h' : Departs gap arrivals k u) :
    t = u := by
  induction k generalizing t u with
  | zero =>
    rcases h with ⟨x, a, hx, rfl⟩
    rcases h' with ⟨y, b, hy, rfl⟩
    rw [hx.cycle_eq hy]
  | succ k ih =>
    rcases h with ⟨x, a, before, hx, hbefore, rfl⟩
    rcases h' with ⟨y, b, before', hy, hbefore', rfl⟩
    rw [hx.cycle_eq hy, ih hbefore hbefore']

theorem Departs.exists_occurs (h : Departs gap arrivals k t) :
    ∃ x a, Occurs arrivals k x a ∧ a < t := by
  cases k with
  | zero =>
    rcases h with ⟨x, a, hx, rfl⟩
    exact ⟨x, a, hx, Nat.lt_succ_self a⟩
  | succ k =>
    rcases h with ⟨x, a, before, hx, -, rfl⟩
    exact ⟨x, a, hx, Nat.lt_of_lt_of_le (Nat.lt_succ_self a) (Nat.le_max_left _ _)⟩

variable (h : Paced gap arrivals takes)

include h

theorem Paced.length_le (t : Nat) :
    (collect takes t).length ≤ (collect arrivals t).length :=
  (h.fifo t).length_le

theorem Paced.spaced : Spaced gap takes := by
  intro t u htu ht hu
  by_contra hclose
  have hnone := ((h.fires u).mp hu).2 t htu (by omega)
  simp [hnone] at ht

/-- After a take nothing is taken before the next departure: first the pace forbids it,
    then the queue is empty until the next event arrives. -/
theorem Paced.quiet_until {before : Nat} (htaken : (takes before).isSome)
    (hcount : (collect takes before).length = k) (hnext : Occurs arrivals (k + 1) x a) (u : Nat)
    (hlow : before < u) (hhigh : u < max (a + 1) (before + gap)) : takes u = none := by
  rw [← Option.not_isSome_iff_eq_none]
  intro hu
  rcases Option.isSome_iff_exists.mp htaken with ⟨y, hy⟩
  have hpace := h.spaced before u hlow htaken hu
  have hwaiting := ((h.fires u).mp hu).1
  have hold : (collect takes (before + 1)).length ≤ (collect takes u).length :=
    length_collect_mono hlow
  have hnew : (collect arrivals u).length ≤ (collect arrivals a).length :=
    length_collect_mono (by omega)
  rw [length_collect_succ hy, hcount] at hold
  rw [hnext.count] at hnew
  omega

/-- **Event `k` is taken in its departure cycle**, the first after `k` others. -/
theorem Paced.taken_of_departs (hgap : 0 < gap) (hdeparts : Departs gap arrivals k t) :
    (takes t).isSome ∧ (collect takes t).length = k := by
  induction k generalizing t with
  | zero =>
    rcases hdeparts with ⟨x, a, hx, rfl⟩
    have harrived := hx.length_succ
    have hnone : takes a = none := by
      rw [← Option.not_isSome_iff_eq_none, h.fires]
      rintro ⟨hwaiting, -⟩
      rw [hx.count] at hwaiting
      exact absurd hwaiting (Nat.not_lt_zero _)
    have hbefore := h.length_le a
    rw [hx.count] at hbefore
    have hcount : (collect takes (a + 1)).length = 0 := by
      rw [length_collect_succ_none hnone]
      omega
    refine ⟨(h.fires _).mpr ⟨by omega, fun u hu _ => ?_⟩, hcount⟩
    exact eq_none_of_length_eq (t := 0) hcount.symm (Nat.zero_le u) hu
  | succ k ih =>
    rcases hdeparts with ⟨x, a, before, hx, hbefore, rfl⟩
    obtain ⟨htaken, hk⟩ := ih hbefore
    rcases Option.isSome_iff_exists.mp htaken with ⟨y, hy⟩
    have hafter : (collect takes (before + 1)).length = k + 1 := by
      rw [length_collect_succ hy, hk]
    have hquiet := h.quiet_until htaken hk hx
    have hcount : (collect takes (max (a + 1) (before + gap))).length = k + 1 := by
      rw [← hafter]
      exact length_collect_of_quiet (by omega) hquiet
    have hwaiting : (collect arrivals (a + 1)).length ≤
        (collect arrivals (max (a + 1) (before + gap))).length :=
      length_collect_mono (Nat.le_max_left _ _)
    rw [hx.length_succ] at hwaiting
    refine ⟨(h.fires _).mpr ⟨by omega, fun u hu hclose => ?_⟩, hcount⟩
    exact hquiet u (by omega) hu

/-- **What is taken when.**  An event is taken in its departure cycle and in no other, and
    nothing else is taken. -/
theorem Paced.taken_iff (hgap : 0 < gap) :
    takes t = some x ↔ ∃ k a, Occurs arrivals k x a ∧ Departs gap arrivals k t := by
  have hsame : ∀ {k a y}, Occurs arrivals k y a → Departs gap arrivals k t → takes t = some y := by
    intro k a y hy hdeparts
    obtain ⟨htaken, hk⟩ := h.taken_of_departs hgap hdeparts
    rcases Option.isSome_iff_exists.mp htaken with ⟨z, hz⟩
    rcases hdeparts.exists_occurs with ⟨w, b, hw, hlt⟩
    have hthere : (collect takes (t + 1))[k]? = some z :=
      Occurs.getElem_collect ⟨hz, hk⟩ (Nat.lt_succ_self t)
    obtain ⟨rest, hrest⟩ := h.fifo (t + 1)
    have harrived : (collect arrivals (t + 1))[k]? = some y := by
      rw [hy.cycle_eq hw] at hy
      exact hy.getElem_collect (Nat.lt_succ_of_lt hlt)
    rw [← hrest, List.getElem?_append_left (List.getElem?_eq_some_iff.mp hthere).1, hthere]
      at harrived
    rw [hz, harrived]
  constructor
  · intro htaken
    have hwaiting := ((h.fires t).mp (by rw [htaken]; rfl)).1
    obtain ⟨y, a, -, hy⟩ := exists_occurs hwaiting
    obtain ⟨u, hu⟩ := @Occurs.exists_departs _ gap _ _ _ _ hy
    obtain ⟨hother, hcount⟩ := h.taken_of_departs hgap hu
    rcases Option.isSome_iff_exists.mp hother with ⟨z, hz⟩
    have hut : t = u := Occurs.cycle_eq ⟨htaken, rfl⟩ ⟨hz, hcount⟩
    subst hut
    have hxy : x = y := Option.some.inj (htaken.symm.trans (hsame hy hu))
    exact ⟨_, a, hxy ▸ hy, hu⟩
  · rintro ⟨k, a, hx, hdeparts⟩
    exact hsame hx hdeparts

/-- An event that finds the queue empty and no take within the pace of the next cycle is
    taken in the next cycle. -/
theorem Paced.departs_eq_of_idle (hgap : 0 < gap) (hx : Occurs arrivals k x a)
    (hdeparts : Departs gap arrivals k t)
    (hempty : (collect takes a).length = (collect arrivals a).length)
    (hidle : ∀ u < a + 1, a + 1 < u + gap → takes u = none) : t = a + 1 := by
  cases k with
  | zero =>
    rcases hdeparts with ⟨y, b, hy, rfl⟩
    rw [hy.cycle_eq hx]
  | succ k =>
    rcases hdeparts with ⟨y, b, before, hy, hbefore, rfl⟩
    rw [hy.cycle_eq hx]
    obtain ⟨htaken, hcount⟩ := h.taken_of_departs hgap hbefore
    have hgone : before < a := by
      by_contra hle
      have hmono : (collect takes a).length ≤ (collect takes before).length :=
        length_collect_mono (Nat.le_of_not_lt hle)
      rw [hempty, hx.count] at hmono
      omega
    have hfar : before + gap ≤ a + 1 := by
      by_contra hclose
      have hnone := hidle before (by omega) (by omega)
      simp [hnone] at htaken
    exact Nat.max_eq_left hfar

omit h in
/-- Events the pace apart never wait for each other. -/
theorem Departs.eq_of_spaced (hspaced : Spaced gap arrivals) (hx : Occurs arrivals k x a)
    (hdeparts : Departs gap arrivals k t) : t = a + 1 := by
  induction k generalizing x a t with
  | zero =>
    rcases hdeparts with ⟨y, b, hy, rfl⟩
    rw [hy.cycle_eq hx]
  | succ k ih =>
    rcases hdeparts with ⟨y, b, before, hy, hbefore, rfl⟩
    obtain ⟨z, c, hz, -⟩ := hbefore.exists_occurs
    have hprevious : before = c + 1 := ih hz hbefore
    have hearlier : c < a := by
      by_contra hle
      have hmono : (collect arrivals a).length ≤ (collect arrivals c).length :=
        length_collect_mono (Nat.le_of_not_lt hle)
      rw [hx.count, hz.count] at hmono
      omega
    have hapart := hspaced c a hearlier (by rw [hz.event]; rfl) (by rw [hx.event]; rfl)
    rw [hy.cycle_eq hx, hprevious]
    exact Nat.max_eq_left (by omega)

/-- Behind events the pace apart the queue is a single register. -/
theorem Paced.takes_eq_of_spaced (hgap : 0 < gap) (hspaced : Spaced gap arrivals) :
    takes = delayed 1 arrivals := by
  funext t
  apply Option.ext
  intro x
  rw [h.taken_iff hgap]
  constructor
  · rintro ⟨k, a, hx, hdeparts⟩
    rw [hdeparts.eq_of_spaced hspaced hx, delayed_succ_succ, delayed_zero]
    exact hx.event
  · intro hx
    obtain ⟨a, ha, rfl⟩ := exists_of_delayed hx
    have hoccurs : Occurs arrivals (collect arrivals a).length x a := ⟨ha, rfl⟩
    obtain ⟨t, ht⟩ := @Occurs.exists_departs _ gap _ _ _ _ hoccurs
    rw [ht.eq_of_spaced hspaced hoccurs] at ht
    exact ⟨_, a, hoccurs, ht⟩

/-- While an event waits, one is taken in every `gap` cycles. -/
theorem Paced.exists_take (hgap : 0 < gap)
    (hwaits : (collect takes t).length < (collect arrivals t).length) :
    ∃ u, t ≤ u ∧ u < t + gap ∧ (takes u).isSome := by
  by_contra hnone
  have hquiet : ∀ u, t ≤ u → u < t + gap → takes u = none := by
    intro u hle hlt
    rw [← Option.not_isSome_iff_eq_none]
    exact fun htaken => hnone ⟨u, hle, hlt, htaken⟩
  have hlast : (takes (t + gap - 1)).isSome := by
    rw [h.fires]
    constructor
    · have hsame : (collect takes (t + gap - 1)).length = (collect takes t).length :=
        length_collect_of_quiet (by omega) fun v hle hlt => hquiet v hle (by omega)
      rw [hsame]
      exact hwaits.trans_le (length_collect_mono (by omega))
    · intro u hu hclose
      exact hquiet u (by omega) (by omega)
  simp [hquiet (t + gap - 1) (by omega) (by omega)] at hlast

/-- **What has arrived is taken** within `gap` cycles for each event that waits. -/
theorem Paced.taken_within (hgap : 0 < gap) (t k : Nat) :
    (collect arrivals t).length ≤ (collect takes (t + gap * k)).length ∨
      (collect takes t).length + k ≤ (collect takes (t + gap * k)).length := by
  induction k with
  | zero => exact Or.inr (Nat.le_refl _)
  | succ k ih =>
    have hmono : (collect takes (t + gap * k)).length ≤ (collect takes (t + gap * (k + 1))).length :=
      length_collect_mono (by rw [Nat.mul_succ]; omega)
    by_cases hdone : (collect arrivals t).length ≤ (collect takes (t + gap * k)).length
    · exact Or.inl (hdone.trans hmono)
    · have harrived : (collect arrivals t).length ≤ (collect arrivals (t + gap * k)).length :=
        length_collect_mono (Nat.le_add_right _ _)
      obtain ⟨u, hle, hlt, htaken⟩ :=
        h.exists_take hgap (show _ < (collect arrivals (t + gap * k)).length by omega)
      rcases Option.isSome_iff_exists.mp htaken with ⟨x, hx⟩
      have hnow := length_collect_succ hx
      have hsofar : (collect takes (t + gap * k)).length ≤ (collect takes u).length :=
        length_collect_mono hle
      have hnext : (collect takes (u + 1)).length ≤ (collect takes (t + gap * (k + 1))).length :=
        length_collect_mono (by rw [Nat.mul_succ]; omega)
      have hbefore := ih.resolve_left hdone
      exact Or.inr (by omega)

end Departures

/-! ### Bursts -/

/-- Any `k` consecutive cycles hold at most `n` highs and one more for every further `gap`
    cycles. -/
def Bursts (n gap : Nat) (wire : Nat → Bool) : Prop :=
  ∀ t k, 0 < k → highs wire (t + k) ≤ highs wire t + n + (k - 1) / gap

section Bursts

variable {n gap t : Nat} {wire : Nat → Bool} {signal : Nat → Option α}

/-- In a window the events of a spaced signal are paid for by the cycles up to the last. -/
theorem Spaced.mul_highs_le (h : Spaced gap signal) (t k : Nat) :
    highs (fun u => (signal u).isSome) (t + k) = highs (fun u => (signal u).isSome) t ∨
      ∃ v, t ≤ v ∧ v < t + k ∧ (signal v).isSome ∧
        gap * highs (fun u => (signal u).isSome) (t + k) ≤
          gap * highs (fun u => (signal u).isSome) t + (v - t) + gap := by
  induction k with
  | zero => exact Or.inl rfl
  | succ k ih =>
    rw [← Nat.add_assoc, highs_succ]
    cases hnow : (signal (t + k)).isSome with
    | false =>
      apply ih.imp id
      rintro ⟨v, hlow, hhigh, hv, hle⟩
      exact ⟨v, hlow, Nat.lt_succ_of_lt hhigh, hv, hle⟩
    | true =>
      right
      refine ⟨t + k, Nat.le_add_right t k, Nat.lt_succ_self _, hnow, ?_⟩
      rw [Bool.toNat_true, Nat.mul_succ]
      rcases ih with heq | ⟨v, hlow, hhigh, hv, hle⟩
      · rw [heq]
        omega
      · have hapart := h v (t + k) hhigh hv hnow
        omega

theorem Spaced.mul_highs_lt (h : Spaced gap signal) (hgap : 0 < gap) (t k : Nat) :
    gap * highs (fun u => (signal u).isSome) (t + k) <
      gap * highs (fun u => (signal u).isSome) t + k + gap := by
  rcases h.mul_highs_le t k with heq | ⟨v, hlow, hhigh, -, hle⟩
  · rw [heq]
    omega
  · omega

theorem Spaced.bursts (h : Spaced gap signal) (hgap : 0 < gap) (hn : 0 < n) :
    Bursts n gap fun u => (signal u).isSome := by
  intro t k hk
  have hcount := h.mul_highs_lt hgap t k
  generalize highs (fun u => (signal u).isSome) (t + k) = after at hcount ⊢
  generalize highs (fun u => (signal u).isSome) t = before at hcount ⊢
  by_contra hmore
  have hdiv : k < gap * ((k - 1) / gap + 1) + 1 := by
    have hlt := Nat.lt_mul_div_succ (k - 1) hgap
    omega
  have hmul : gap * (before + (k - 1) / gap + 1 + 1) ≤ gap * after :=
    Nat.mul_le_mul_left gap (by omega)
  rw [Nat.mul_add gap _ 1, Nat.add_assoc before, Nat.mul_add gap before] at hmul
  omega

/-- The work of a server that gets `gap` cycles of work with every high and does one cycle
    of it in every cycle: what is left stems from the highs since it was last idle. -/
theorem exists_busy_period {work : Nat → Nat} (hstart : work 0 = 0)
    (hstep : ∀ u, work (u + 1) ≤ work u - 1 + gap * (wire u).toNat) (t : Nat) :
    work t = 0 ∨ ∃ s < t, work t + gap * highs wire s + (t - 1 - s) ≤ gap * highs wire t := by
  induction t with
  | zero => exact Or.inl hstart
  | succ t ih =>
    have hnow := hstep t
    rw [highs_succ, Nat.mul_add]
    by_cases hidle : work t = 0
    · cases hwire : wire t with
      | false =>
        left
        simp [hwire] at hnow
        omega
      | true =>
        right
        refine ⟨t, Nat.lt_succ_self t, ?_⟩
        rw [hwire] at hnow
        omega
    · obtain ⟨s, hst, hle⟩ := ih.resolve_left hidle
      right
      refine ⟨s, Nat.lt_succ_of_lt hst, ?_⟩
      omega

/-- **Work under a burst bound.**  In a cycle with a high less than `n` events' work is
    left. -/
theorem Bursts.work_lt (h : Bursts n gap wire) (hgap : 1 < gap) {work : Nat → Nat}
    (hstart : work 0 = 0) (hstep : ∀ u, work (u + 1) ≤ work u - 1 + gap * (wire u).toNat)
    (hwire : wire t = true) : work t < gap * n := by
  have hone := h t 1 Nat.one_pos
  rw [highs_succ, hwire, Bool.toNat_true] at hone
  have hn : 1 ≤ n := by simpa using hone
  have hroom : gap * 1 ≤ gap * n := Nat.mul_le_mul_left gap hn
  rcases exists_busy_period hstart hstep t with hidle | ⟨s, hst, hbusy⟩
  · omega
  · have hwindow := h s (t + 1 - s) (by omega)
    rw [show s + (t + 1 - s) = t + 1 by omega, highs_succ, hwire, Bool.toNat_true,
      show t + 1 - s - 1 = t - s by omega] at hwindow
    have hdiv : gap * ((t - s) / gap) ≤ t - s := Nat.mul_div_le _ _
    have hmul := Nat.mul_le_mul_left gap hwindow
    rw [Nat.mul_add, Nat.mul_add, Nat.mul_add] at hmul
    omega

end Bursts

end FeedHandler.Sync
