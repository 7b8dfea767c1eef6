import FeedHandler.BookBurst

/-!
# The order book under spaced messages

When messages arrive at least three cycles apart the queue never holds more than
the message of the last cycle, and the book is a delay line: a message is taken
one cycle after it arrived, lands four cycles later and is shown on the sixth.
-/

namespace FeedHandler

open Sync

namespace BookPipeline

variable {W : Type} {cap t : Nat} {p : BookPipeline W} {arrivals : Nat → Option W}

/-- Every register of the pipeline is a tap of one delay line. -/
structure Flows (arrivals : Nat → Option W) (t : Nat) (p : BookPipeline W) : Prop where
  queue : p.queue = (delayed 1 arrivals t).toList
  flight : p.flight = stageOf (delayed 2 arrivals t) (delayed 3 arrivals t) (delayed 4 arrivals t)
  landed : p.landed = delayed 5 arrivals t
  shown : p.shown = collect arrivals (t - 5)
  pulse : p.pulse = (delayed 6 arrivals t).isSome

theorem Flows.length_queue_le (h : Flows arrivals t p) : p.queue.length ≤ 1 := by
  rw [h.queue]
  cases delayed 1 arrivals t <;> simp

section Spaced

variable (hcap : 0 < cap) (hspaced : Spaced 3 arrivals)

include hcap hspaced

theorem accepts_of_spaced : accepts cap arrivals = arrivals :=
  funext (accepted_of_bursts (hspaced.bursts (by decide) hcap))

theorem takes_of_spaced : takes cap arrivals = delayed 1 arrivals := by
  have hpaced := paced cap arrivals
  rw [accepts_of_spaced hcap hspaced] at hpaced
  exact hpaced.takes_eq_of_spaced (by decide) hspaced

theorem queue_of_spaced (t : Nat) :
    (cycle cap arrivals t).queue = (delayed 1 arrivals t).toList := by
  have hall : collect (accepts cap arrivals) t =
      collect (takes cap arrivals) t ++ (cycle cap arrivals t).queue := collect_accepts t
  rw [accepts_of_spaced hcap hspaced, takes_of_spaced hcap hspaced, collect_delayed] at hall
  cases t with
  | zero => rfl
  | succ t =>
    rw [delayed_succ_succ, delayed_zero]
    exact (List.append_cancel_left hall).symm

/-- **The pipeline is a delay line** for messages at least three cycles apart. -/
theorem flows_cycle (t : Nat) : Flows arrivals t (cycle cap arrivals t) where
  queue := queue_of_spaced hcap hspaced t
  flight := by rw [flight_eq, takes_of_spaced hcap hspaced, delayed_delayed, delayed_delayed,
    delayed_delayed]
  landed := by rw [landed_eq, takes_of_spaced hcap hspaced, delayed_delayed]
  shown := by rw [shown_eq, takes_of_spaced hcap hspaced, collect_delayed, Nat.sub_sub]
  pulse := by rw [pulse_eq, takes_of_spaced hcap hspaced, delayed_delayed]

end Spaced

end BookPipeline

namespace OrderBook

open BookPipeline

variable {depth priceBits sizeBits : Nat} [NeZero depth] {s₀ : State depth priceBits sizeBits}
  {ins : Nat → Input priceBits sizeBits} (hreset : AfterReset s₀)
  (hspaced : Spaced 3 fun t => (ins t).arrival)

include hreset hspaced

/-- The snapshot pulses for a message six cycles after it arrived, and shows the book
    after the messages that arrived up to then. -/
theorem snap_of_spaced (t : Nat) :
    (cycle s₀ ins t).snap =
      snapshotAfter (collect (fun u => (ins u).arrival) (t - 5))
        (delayed 6 (fun u => (ins u).arrival) t).isSome := by
  have hflows := @flows_cycle _ QUEUE_DEPTH _ (by decide) hspaced t
  rw [(tracks_cycle ins hreset t).snap, hflows.shown, hflows.pulse]

/-- **Nothing is dropped.** -/
theorem dropCount_of_spaced (t : Nat) : (cycle s₀ ins t).dropCount = 0 := by
  apply dropCount_of_room ins hreset
  intro u _
  have hshort := (@flows_cycle _ QUEUE_DEPTH _ (by decide) hspaced u).length_queue_le
  rw [← (tracks_cycle ins hreset u).queue] at hshort
  exact decide_eq_true (Nat.lt_of_le_of_lt hshort (by decide))

end OrderBook

end FeedHandler
