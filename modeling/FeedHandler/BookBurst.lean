import FeedHandler.BookDepartures

/-!
# Bursts the order book absorbs

Every message is three cycles of work for the stage behind the input queue.  The work
that waits is what the messages since the last idle cycle have brought and the stage
has not done yet, so a burst within the rate bound never finds `QUEUE_DEPTH` messages
in front of it, at whatever phase of the stage it starts.
-/

namespace FeedHandler

open Sync

/-- The cycles before the stage can take a word again. -/
def Flight.busy {W : Type} : Flight W → Nat
  | loaded _ => 2
  | compared _ => 1
  | _ => 0

namespace BookPipeline

variable {W : Type} {cap : Nat} {p : BookPipeline W} {arrival : Option W}
  {arrivals : Nat → Option W}

/-- The cycles of work in front of a word that arrives now. -/
def backlog (p : BookPipeline W) : Nat := 3 * p.queue.length + p.flight.busy

theorem length_accepted_le : (p.accepted cap arrival).toList.length ≤ arrival.isSome.toNat := by
  unfold accepted
  split_ifs
  · cases arrival <;> simp
  · simp

/-- One cycle does one cycle of work and brings three with an arrival. -/
theorem backlog_step :
    (p.step cap arrival).backlog ≤ p.backlog - 1 + 3 * arrival.isSome.toNat := by
  have hnew : (p.accepted cap arrival).toList.length ≤ arrival.isSome.toNat := length_accepted_le
  simp only [backlog, step, List.length_append, taken]
  cases p.flight with
  | idle =>
    cases p.queue with
    | nil =>
      simp [Flight.ready, Flight.advance, Flight.busy]
      omega
    | cons w ws =>
      simp [Flight.ready, Flight.advance, Flight.busy]
      omega
  | loaded w =>
    simp [Flight.ready, Flight.advance, Flight.busy]
    omega
  | compared w =>
    simp [Flight.ready, Flight.advance, Flight.busy]
    omega
  | decided w =>
    cases p.queue with
    | nil =>
      simp [Flight.ready, Flight.advance, Flight.busy]
      omega
    | cons w ws =>
      simp [Flight.ready, Flight.advance, Flight.busy]
      omega

/-- **The queue has room for every arrival** of a run within the bound. -/
theorem room_of_bursts (hburst : Bursts cap 3 fun u => (arrivals u).isSome) {t : Nat}
    (harrival : (arrivals t).isSome = true) : (cycle cap arrivals t).queue.length < cap := by
  have hwork : (cycle cap arrivals t).backlog < 3 * cap :=
    @Bursts.work_lt cap 3 t _ hburst (by decide) (fun u => (cycle cap arrivals u).backlog) rfl
      (fun _ => backlog_step) harrival
  unfold backlog at hwork
  omega

theorem accepted_of_bursts (hburst : Bursts cap 3 fun u => (arrivals u).isSome) (t : Nat) :
    accepts cap arrivals t = arrivals t := by
  unfold accepts accepted
  split_ifs with hroom
  · rfl
  · cases harrival : arrivals t with
    | none => rfl
    | some w => exact absurd (room_of_bursts hburst (by rw [harrival]; rfl)) hroom

end BookPipeline

namespace OrderBook

variable {depth priceBits sizeBits : Nat} [NeZero depth]

/-- **Nothing is lost.**  The queue has room whenever a message arrives, the drop counter
    stays 0, and every message updates the store of its side and no other, in its turn. -/
structure Absorbs (s₀ : State depth priceBits sizeBits) (ins : Nat → Input priceBits sizeBits) :
    Prop where
  room : ∀ t, (ins t).s_axis_tvalid = true → (cycle s₀ ins t).inQ.enqReady = true
  dropped : ∀ t, (cycle s₀ ins t).dropCount = 0
  reaches : ∀ k w a, Occurs (fun t => (ins t).arrival) k w a →
    ∃ t, Departs 3 (fun t => (ins t).arrival) k t ∧ (cycle s₀ ins (t + 1)).word = w ∧
      bidUpdate (cycle s₀ ins (t + 1)) = ((decode w true).side == Side.BID) ∧
      askUpdate (cycle s₀ ins (t + 1)) = !bidUpdate (cycle s₀ ins (t + 1))

theorem Input.isSome_arrival (i : Input priceBits sizeBits) :
    i.arrival.isSome = i.s_axis_tvalid := by
  unfold Input.arrival
  split_ifs with hvalid <;> simp [hvalid]

section Load

variable {s₀ : State depth priceBits sizeBits} {ins : Nat → Input priceBits sizeBits}

theorem bursts_arrival (hload : Bursts QUEUE_DEPTH 3 (fun t => (ins t).s_axis_tvalid) ∨
      Spaced 3 fun t => (ins t).arrival) :
    Bursts QUEUE_DEPTH 3 fun t => ((ins t).arrival).isSome := by
  rcases hload with hburst | hspaced
  · have hsame : (fun t => ((ins t).arrival).isSome) = fun t => (ins t).s_axis_tvalid :=
      funext fun t => (ins t).isSome_arrival
    rwa [hsame]
  · exact hspaced.bursts (by decide) (by decide)

/-- **The burst bound.**  A run in which every `k` consecutive cycles bring at most
    `QUEUE_DEPTH + (k - 1) / 3` messages loses none; so does one whose messages are at
    least three cycles apart. -/
theorem absorbs (hreset : AfterReset s₀)
    (hload : Bursts QUEUE_DEPTH 3 (fun t => (ins t).s_axis_tvalid) ∨
      Spaced 3 fun t => (ins t).arrival) : Absorbs s₀ ins := by
  have hburst := bursts_arrival hload
  have hall : accepts s₀ ins = fun t => (ins t).arrival := by
    rw [accepts_eq hreset]
    exact funext fun t => BookPipeline.accepted_of_bursts hburst t
  have hroom : ∀ t, (ins t).s_axis_tvalid = true → (cycle s₀ ins t).inQ.enqReady = true := by
    intro t hvalid
    have hfree := BookPipeline.room_of_bursts hburst (t := t) (by rw [Input.isSome_arrival, hvalid])
    rw [← (tracks_cycle ins hreset t).queue] at hfree
    exact decide_eq_true hfree
  refine ⟨hroom, dropCount_of_room ins hreset hroom, ?_⟩
  intro k w a hw
  obtain ⟨t, ht⟩ := @Occurs.exists_departs _ 3 _ _ _ _ hw
  rw [← hall] at hw ht
  exact ⟨t, hall ▸ ht, updated_of_departs hreset ins hw ht⟩

end Load

/-- The first four messages of the burst. -/
theorem absorbs_fourInARow :
    Absorbs (step true (powerUp : State 2 32 32) ⟨0, false⟩) (inARow (burst.take 4)) := by
  have hvalid : (fun t => (inARow (burst.take 4) t).s_axis_tvalid) = fun t => decide (t < 4) :=
    funext (valid_inARow _)
  have hcount : ∀ t, highs (fun u => decide (u < 4)) t = min t 4 := by
    intro t
    induction t with
    | zero => rfl
    | succ t ih =>
      rw [highs_succ, ih]
      by_cases hlow : t < 4
      · rw [decide_eq_true hlow, Bool.toNat_true]
        omega
      · rw [decide_eq_false hlow, Bool.toNat_false]
        omega
  refine absorbs (afterReset_powerUp _) (Or.inl ?_)
  intro t k _
  rw [hvalid, hcount, hcount, QUEUE_DEPTH]
  omega

end OrderBook

end FeedHandler
