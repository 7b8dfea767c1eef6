import FeedHandler.OrderBookRefinement
import FeedHandler.PacedQueue

/-!
# When the order book handles a message

The queue and the two busy flip-flops of the order book serve the kept messages at a
pace of three cycles, so a message is taken one cycle after it arrived or three cycles
after the message before it, whichever is later.  Behind the queue everything is a
delay line of the takes: the store is updated one cycle after the take and the
snapshot pulses five cycles after it.
-/

namespace FeedHandler

open Sync

namespace BookPipeline

variable {W : Type} {cap t : Nat} {p : BookPipeline W} {arrival : Option W}

/-- The stage of a message that was loaded, was compared or was decided on. -/
def stageOf : Option W → Option W → Option W → Flight W
  | some w, _, _ => .loaded w
  | none, some w, _ => .compared w
  | none, none, some w => .decided w
  | none, none, none => .idle

/-- Every word that has left the queue, oldest first. -/
def passed (p : BookPipeline W) : List W := p.shown ++ p.landed.toList ++ p.flight.toList

theorem passed_step : (p.step cap arrival).passed = p.passed ++ p.taken.toList := by
  have hstage := p.landing_append_advance
  calc (p.step cap arrival).passed
      = p.shown ++ p.landed.toList ++ (p.flight.landing.toList ++
          (p.flight.advance p.taken).toList) := by simp [passed, step, List.append_assoc]
    _ = p.passed ++ p.taken.toList := by rw [hstage]; simp [passed]

theorem advance_stageOf {taken first second third : Option W} (hfirst : first.isSome → taken = none)
    (hsecond : second.isSome → taken = none) :
    (stageOf first second third).advance taken = stageOf taken first second := by
  cases first with
  | some w =>
    rw [hfirst rfl]
    rfl
  | none =>
    cases second with
    | some w =>
      rw [hsecond rfl]
      rfl
    | none => cases third <;> cases taken <;> rfl

theorem ready_stageOf {first second third : Option W} :
    (stageOf first second third).ready = true ↔ first = none ∧ second = none := by
  cases first with
  | some w => simp [stageOf, Flight.ready]
  | none =>
    cases second with
    | some w => simp [stageOf, Flight.ready]
    | none => cases third <;> simp [stageOf, Flight.ready]

section Runs

variable (cap) (arrivals : Nat → Option W)

/-- The words written into the queue and the words taken from it, cycle by cycle. -/
def accepts (t : Nat) : Option W := (cycle cap arrivals t).accepted cap (arrivals t)
def takes (t : Nat) : Option W := (cycle cap arrivals t).taken

variable {cap arrivals}

theorem collect_takes (t : Nat) :
    collect (takes cap arrivals) t = (cycle cap arrivals t).passed := by
  induction t with
  | zero => rfl
  | succ t ih =>
    rw [collect_succ, ih]
    exact passed_step.symm

theorem collect_accepts (t : Nat) :
    collect (accepts cap arrivals) t =
      collect (takes cap arrivals) t ++ (cycle cap arrivals t).queue := by
  rw [collect_takes]
  exact (all_at cap arrivals t).symm

/-- **Behind the queue the stage is a delay line of the takes.** -/
theorem flight_eq (t : Nat) :
    (cycle cap arrivals t).flight =
      stageOf (delayed 1 (takes cap arrivals) t) (delayed 2 (takes cap arrivals) t)
        (delayed 3 (takes cap arrivals) t) := by
  induction t with
  | zero => rfl
  | succ t ih =>
    have hidle : ∀ {n}, (delayed n (takes cap arrivals) t).isSome → n = 1 ∨ n = 2 →
        takes cap arrivals t = none := by
      intro n hbusy hn
      have hnot : (cycle cap arrivals t).flight.ready ≠ true := by
        rw [ih, Ne, ready_stageOf]
        rintro ⟨hfirst, hsecond⟩
        rcases hn with rfl | rfl
        · simp [hfirst] at hbusy
        · simp [hsecond] at hbusy
      rw [takes, taken, if_neg hnot]
    simp only [delayed_succ_succ, delayed_zero]
    change (cycle cap arrivals t).flight.advance (takes cap arrivals t) = _
    rw [ih]
    exact advance_stageOf (fun hbusy => hidle hbusy (Or.inl rfl))
      fun hbusy => hidle hbusy (Or.inr rfl)

/-- **The queue is served at a pace of three cycles.** -/
theorem paced (cap : Nat) (arrivals : Nat → Option W) :
    Paced 3 (accepts cap arrivals) (takes cap arrivals) where
  fifo t := by
    rw [collect_accepts]
    exact List.prefix_append _ _
  fires t := by
    have hfree : (cycle cap arrivals t).flight.ready = true ↔
        ∀ u < t, t < u + 3 → takes cap arrivals u = none := by
      rw [flight_eq, ready_stageOf, delayed_eq_none_iff, delayed_eq_none_iff]
      constructor
      · rintro ⟨hfirst, hsecond⟩ u hlow hhigh
        rcases (show u + 1 = t ∨ u + 2 = t by omega) with hu | hu
        · exact hfirst u hu
        · exact hsecond u hu
      · intro h
        exact ⟨fun u hu => h u (by omega) (by omega), fun u hu => h u (by omega) (by omega)⟩
    rw [← hfree, collect_accepts, List.length_append, takes, taken]
    cases hqueue : (cycle cap arrivals t).queue with
    | nil => simp
    | cons w ws =>
      split_ifs with hready
      · simp [hready]
      · simp [hready]

theorem landed_eq (t : Nat) :
    (cycle cap arrivals t).landed = delayed 4 (takes cap arrivals) t := by
  cases t with
  | zero => rfl
  | succ t =>
    have hspaced := (paced cap arrivals).spaced
    rw [delayed_succ_succ]
    change (cycle cap arrivals t).flight.landing = _
    rw [flight_eq]
    cases hthird : delayed 3 (takes cap arrivals) t with
    | some w =>
      rw [hspaced.delayed_eq_none hthird (show 3 ≠ 1 by decide) (by decide) (by decide),
        hspaced.delayed_eq_none hthird (show 3 ≠ 2 by decide) (by decide) (by decide)]
      rfl
    | none =>
      cases delayed 1 (takes cap arrivals) t <;> cases delayed 2 (takes cap arrivals) t <;> rfl

theorem shown_eq (t : Nat) :
    (cycle cap arrivals t).shown = collect (takes cap arrivals) (t - 4) := by
  rw [← collect_delayed]
  induction t with
  | zero => rfl
  | succ t ih =>
    rw [collect_succ, ← ih, ← landed_eq]
    rfl

theorem pulse_eq (t : Nat) :
    (cycle cap arrivals t).pulse = (delayed 5 (takes cap arrivals) t).isSome := by
  cases t with
  | zero => rfl
  | succ t =>
    rw [delayed_succ_succ, ← landed_eq]
    rfl

end Runs

end BookPipeline

namespace OrderBook

variable {depth priceBits sizeBits : Nat} [NeZero depth]

def accepts (s₀ : State depth priceBits sizeBits) (ins : Nat → Input priceBits sizeBits) (t : Nat) :
    Option (Word priceBits sizeBits) :=
  accept (cycle s₀ ins t) (ins t)

def takes (s₀ : State depth priceBits sizeBits) (ins : Nat → Input priceBits sizeBits) (t : Nat) :
    Option (Word priceBits sizeBits) :=
  take (cycle s₀ ins t)

section Runs

variable {s₀ : State depth priceBits sizeBits} (hreset : AfterReset s₀)
  (ins : Nat → Input priceBits sizeBits)

include hreset

theorem accepts_eq :
    accepts s₀ ins = BookPipeline.accepts QUEUE_DEPTH fun u => (ins u).arrival :=
  funext fun u => (tracks_cycle ins hreset u).accept_eq

theorem takes_eq : takes s₀ ins = BookPipeline.takes QUEUE_DEPTH fun u => (ins u).arrival :=
  funext fun u => (tracks_cycle ins hreset u).take_eq

theorem paced : Paced 3 (accepts s₀ ins) (takes s₀ ins) := by
  rw [accepts_eq hreset, takes_eq hreset]
  exact BookPipeline.paced _ _

theorem takes_isSome_iff (t : Nat) :
    (takes s₀ ins t).isSome ↔ ∃ k, Departs 3 (accepts s₀ ins) k t := by
  constructor
  · intro h
    rcases Option.isSome_iff_exists.mp h with ⟨w, hw⟩
    obtain ⟨k, a, -, hk⟩ := ((paced hreset ins).taken_iff (by decide)).mp hw
    exact ⟨k, hk⟩
  · rintro ⟨k, hk⟩
    exact ((paced hreset ins).taken_of_departs (by decide) hk).1

theorem snap_valid_eq (t : Nat) :
    (cycle s₀ ins t).snap.valid = (delayed 5 (takes s₀ ins) t).isSome := by
  rw [(tracks_cycle ins hreset t).snap, takes_eq hreset, ← BookPipeline.pulse_eq]
  rfl

theorem pulses_eq (t : Nat) : pulses s₀ ins (t + 5) = (collect (takes s₀ ins) t).length := by
  rw [pulses_succ_eq ins hreset, BookPipeline.shown_eq, takes_eq hreset]
  rfl

/-- What has been written into the queue has been taken from it or waits. -/
theorem length_accepts (t : Nat) :
    (collect (accepts s₀ ins) t).length =
      (collect (takes s₀ ins) t).length + (cycle s₀ ins t).inQ.items.length := by
  rw [(tracks_cycle ins hreset t).queue, accepts_eq hreset, takes_eq hreset,
    BookPipeline.collect_accepts, List.length_append]

theorem queue_eq_nil_iff (t : Nat) :
    (cycle s₀ ins t).inQ.items = [] ↔
      (collect (takes s₀ ins) t).length = (collect (accepts s₀ ins) t).length := by
  rw [length_accepts hreset, ← List.length_eq_zero_iff]
  omega

/-- Whatever the queue holds has been taken from it twelve cycles later. -/
theorem kept_isPrefix_takes (t : Nat) :
    kept s₀ ins t <+: collect (takes s₀ ins) (t + 12) := by
  have hqueue : (cycle s₀ ins t).inQ.items.length ≤ 4 := (cycle s₀ ins t).inQ.bound
  have hwaiting := length_accepts hreset ins t
  have hserved : (collect (accepts s₀ ins) t).length ≤ (collect (takes s₀ ins) (t + 12)).length ∨
      (collect (takes s₀ ins) t).length + 4 ≤ (collect (takes s₀ ins) (t + 12)).length :=
    (paced hreset ins).taken_within (by decide) t 4
  have hlater : kept s₀ ins t <+: kept s₀ ins (t + 12) := collect_mono (Nat.le_add_right t 12)
  refine List.prefix_of_prefix_length_le hlater ((paced hreset ins).fifo (t + 12)) ?_
  change (collect (accepts s₀ ins) t).length ≤ _
  omega

omit hreset in
/-- The store update that follows a take. -/
theorem updates_succ {t : Nat} {w : Word priceBits sizeBits} (h : takes s₀ ins t = some w) :
    (cycle s₀ ins (t + 1)).word = w ∧
      bidUpdate (cycle s₀ ins (t + 1)) = ((decode w true).side == Side.BID) ∧
      askUpdate (cycle s₀ ins (t + 1)) = ((decode w true).side == Side.ASK) := by
  have hnext : cycle s₀ ins (t + 1) = next (cycle s₀ ins t) (ins t) := rfl
  have htake : take (cycle s₀ ins t) = some w := h
  have hupdate : (cycle s₀ ins (t + 1)).doUpdate = true := by
    rw [hnext, next, htake]
    rfl
  have hword : (cycle s₀ ins (t + 1)).word = w := by
    rw [hnext, next, htake]
    rfl
  refine ⟨hword, ?_, ?_⟩
  · rw [bidUpdate, hupdate, hword, Bool.true_and]
  · rw [askUpdate, hupdate, hword, Bool.true_and]

theorem exists_take_of_update {t : Nat} (h : (cycle s₀ ins t).doUpdate = true) :
    ∃ u, t = u + 1 ∧ (takes s₀ ins u).isSome := by
  cases t with
  | zero =>
    have hnone : (cycle s₀ ins 0).doUpdate = false := hreset.doUpdate
    simp [hnone] at h
  | succ u => exact ⟨u, rfl, h⟩

end Runs

/-- **The departure schedule.**  `Departs 3` of the kept messages says in which cycle each
    of them leaves the queue; everything after that has a fixed distance. -/
structure DepartsOnTime (s₀ : State depth priceBits sizeBits)
    (ins : Nat → Input priceBits sizeBits) : Prop where
  departure : ∀ k w a, Occurs (accepts s₀ ins) k w a → ∃! t, Departs 3 (accepts s₀ ins) k t
  taken : ∀ t w, take (cycle s₀ ins t) = some w ↔
    ∃ k a, Occurs (accepts s₀ ins) k w a ∧ Departs 3 (accepts s₀ ins) k t
  /-- One cycle after the take exactly one store is told to update, that of the message's
      side, with the message. -/
  updated : ∀ k w a t, Occurs (accepts s₀ ins) k w a → Departs 3 (accepts s₀ ins) k t →
    (cycle s₀ ins (t + 1)).word = w ∧
      bidUpdate (cycle s₀ ins (t + 1)) = ((decode w true).side == Side.BID) ∧
      askUpdate (cycle s₀ ins (t + 1)) = !bidUpdate (cycle s₀ ins (t + 1))
  onlyUpdated : ∀ u, (bidUpdate (cycle s₀ ins u) || askUpdate (cycle s₀ ins u)) = true →
    ∃ k t, Departs 3 (accepts s₀ ins) k t ∧ u = t + 1
  shown : ∀ u, (cycle s₀ ins u).snap.valid = true ↔
    ∃ k t, Departs 3 (accepts s₀ ins) k t ∧ u = t + 5
  inOrder : ∀ k t, Departs 3 (accepts s₀ ins) k t → pulses s₀ ins (t + 5) = k
  spaced : ∀ u v, u < v → (bidUpdate (cycle s₀ ins u) || askUpdate (cycle s₀ ins u)) = true →
    (bidUpdate (cycle s₀ ins v) || askUpdate (cycle s₀ ins v)) = true → u + 3 ≤ v
  /-- A message that arrives in cycle `a`, finds the queue empty and has no take in the two
      cycles before `a + 1` is shown `UPDATE_LATENCY` edges after the edge it arrived on. -/
  latency : ∀ k w a t, Occurs (accepts s₀ ins) k w a → Departs 3 (accepts s₀ ins) k t →
    (cycle s₀ ins a).inQ.items = [] →
    (∀ u < a + 1, a + 1 ≤ u + 2 → take (cycle s₀ ins u) = none) →
    t + 5 = a + 1 + UPDATE_LATENCY

section Schedule

variable {s₀ : State depth priceBits sizeBits} (hreset : AfterReset s₀)
  (ins : Nat → Input priceBits sizeBits)

include hreset

theorem exists_departs_of_update {u : Nat}
    (h : (bidUpdate (cycle s₀ ins u) || askUpdate (cycle s₀ ins u)) = true) :
    ∃ k t, Departs 3 (accepts s₀ ins) k t ∧ u = t + 1 := by
  have hupdate : (cycle s₀ ins u).doUpdate = true := by
    simp only [bidUpdate, askUpdate, ← Bool.and_or_distrib_left, Bool.and_eq_true] at h
    exact h.1
  obtain ⟨t, rfl, htaken⟩ := exists_take_of_update hreset ins hupdate
  obtain ⟨k, hk⟩ := (takes_isSome_iff hreset ins t).mp htaken
  exact ⟨k, t, hk, rfl⟩

/-- One cycle after the take of a message the store of its side and no other is told to
    update, with it. -/
theorem updated_of_departs {k a t : Nat} {w : Word priceBits sizeBits}
    (hw : Occurs (accepts s₀ ins) k w a) (ht : Departs 3 (accepts s₀ ins) k t) :
    (cycle s₀ ins (t + 1)).word = w ∧
      bidUpdate (cycle s₀ ins (t + 1)) = ((decode w true).side == Side.BID) ∧
      askUpdate (cycle s₀ ins (t + 1)) = !bidUpdate (cycle s₀ ins (t + 1)) := by
  have htaken : takes s₀ ins t = some w :=
    ((paced hreset ins).taken_iff (by decide)).mpr ⟨k, a, hw, ht⟩
  obtain ⟨hword, hbid, hask⟩ := updates_succ ins htaken
  refine ⟨hword, hbid, ?_⟩
  rw [hbid, hask]
  rcases Side.eq_bid_or_ask (decode w true).side with hside | hside <;> rw [hside] <;> rfl

/-- **Exact departure times**, for every schedule of arrivals. -/
theorem departsOnTime : DepartsOnTime s₀ ins where
  departure k w a hw := by
    obtain ⟨t, ht⟩ := @Occurs.exists_departs _ 3 _ _ _ _ hw
    exact ⟨t, ht, fun u hu => hu.unique ht⟩
  taken t w := (paced hreset ins).taken_iff (by decide)
  updated _ _ _ _ hw ht := updated_of_departs hreset ins hw ht
  onlyUpdated u h := exists_departs_of_update hreset ins h
  shown u := by
    rw [snap_valid_eq hreset]
    constructor
    · intro h
      rcases Option.isSome_iff_exists.mp h with ⟨w, hw⟩
      obtain ⟨t, ht, rfl⟩ := exists_of_delayed hw
      obtain ⟨k, hk⟩ := (takes_isSome_iff hreset ins t).mp (by rw [ht]; rfl)
      exact ⟨k, t, hk, rfl⟩
    · rintro ⟨k, t, hk, rfl⟩
      rw [delayed, if_pos (Nat.le_add_left 5 t), Nat.add_sub_cancel]
      exact (takes_isSome_iff hreset ins t).mpr ⟨k, hk⟩
  inOrder k t hk := by
    rw [pulses_eq hreset]
    exact ((paced hreset ins).taken_of_departs (by decide) hk).2
  spaced u v huv hu hv := by
    obtain ⟨k, t, ht, rfl⟩ := exists_departs_of_update hreset ins hu
    obtain ⟨j, t', ht', rfl⟩ := exists_departs_of_update hreset ins hv
    have hapart := (paced hreset ins).spaced t t' (by omega)
      ((takes_isSome_iff hreset ins t).mpr ⟨k, ht⟩) ((takes_isSome_iff hreset ins t').mpr ⟨j, ht'⟩)
    omega
  latency k w a t hw ht hempty hidle := by
    have hnow : t = a + 1 := by
      apply (paced hreset ins).departs_eq_of_idle (by decide) hw ht
      · exact (queue_eq_nil_iff hreset ins a).mp hempty
      · intro u hu hclose
        exact hidle u hu (by omega)
    rw [hnow]
    rfl

end Schedule

/-- A bid in cycle 0 and an ask in cycle 2. -/
def twoApart (t : Nat) : Input 32 32 where
  s_axis_tdata := pack (100 + t) 10 (t / 2) t
  s_axis_tvalid := decide (t = 0 ∨ t = 2)

/-- **The empty queue is not enough.**  The second message finds the queue empty and leaves
    it in cycle 4 with no take in the two cycles before, but the first was taken in the
    cycle before it arrived, so its snapshot comes one cycle late. -/
theorem twoApart_late :
    Occurs (accepts (step true (powerUp : State 1 32 32) ⟨0, false⟩) twoApart) 1
      (pack 102 10 1 2) 2 ∧
      Departs 3 (accepts (step true (powerUp : State 1 32 32) ⟨0, false⟩) twoApart) 1 4 ∧
      (cycle (step true (powerUp : State 1 32 32) ⟨0, false⟩) twoApart 2).inQ.items = [] ∧
      (∀ u < 4, 4 ≤ u + 2 →
        take (cycle (step true (powerUp : State 1 32 32) ⟨0, false⟩) twoApart u) = none) ∧
      (cycle (step true (powerUp : State 1 32 32) ⟨0, false⟩) twoApart
        (2 + 1 + UPDATE_LATENCY)).snap.valid = false := by
  refine ⟨⟨by decide +kernel, by decide +kernel⟩, ?_, by decide +kernel, by decide +kernel,
    by decide +kernel⟩
  exact ⟨pack 102 10 1 2, 2, 1, ⟨by decide +kernel, by decide +kernel⟩,
    ⟨pack 100 10 0 0, 0, ⟨by decide +kernel, by decide +kernel⟩, rfl⟩, rfl⟩

theorem departsOnTime_burst :
    DepartsOnTime (step true (powerUp : State 2 32 32) ⟨0, false⟩) (inARow burst) :=
  departsOnTime (afterReset_powerUp _) _

end OrderBook

end FeedHandler
