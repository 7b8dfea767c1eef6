import FeedHandler.FeedPipeline
import FeedHandler.FifoService

/-!
# The latency from byte to record

At the parser's rate and with a reader that comes in every 7 cycles, no word waits for
another: its record is offered to the FIFO after the delay of the book and the engine and
is read within 8 cycles, and never sooner than the registers on its way allow.
-/

namespace FeedHandler.FeedPipeline

open FeedHandler.Parser Sync

section Spaced

variable {AW WIDTH n : Nat} (s : AxisDropFifo.State AW WIDTH) {ins : Nat → AxisDropFifo.Input WIDTH}
  (hspaced : Spaced (n + 2) fun t => (ins t).offer)
  (hread : HighWithin n fun t => (ins t).m_axis_tready)

include hspaced hread

/-- Of spaced records at most one is in the FIFO. -/
theorem waiting_of_spaced (t : Nat) : AxisDropFifo.waiting s ins t ≤ 1 := by
  have hsingle := AxisDropFifo.single_queueAt hspaced hread AW t
  rw [AxisDropFifo.waiting_eq]
  generalize AxisDropFifo.queueAt AW ins t = p at hsingle
  cases hsingle with
  | empty => exact Nat.zero_le 1
  | queued => exact Nat.le_refl 1
  | standing => exact Nat.le_refl 1

theorem delivered_of_spaced (t : Nat) :
    AxisDropFifo.kept s ins t <+: AxisDropFifo.delivered s ins (t + 1 + n) := by
  have hwithin := AxisDropFifo.isPrefix_of_waiting_le s ins hread
    (waiting_of_spaced s hspaced hread t)
  rwa [Nat.mul_one] at hwithin

end Spaced

variable {b : Board} {msgs : List RawMsg}

/-- The records emitted before `t` are the first of those that are due, one for each word the
    parser emitted one delay earlier. -/
theorem collect_record_eq_take (h : Scheduled (msgs.flatMap encodeMsg) b) (t : Nat) :
    (collect b.record t).map AxisLayout.readSignal =
      (records msgs).take (collect b.message (t - (b.latency + 6))).length := by
  have hdue := collect_record_isPrefix h t
  have hlength := congrArg List.length (collect_record h.reset h.spaced t)
  rw [List.length_map, length_leading, List.length_map] at hlength
  rw [List.prefix_iff_eq_take] at hdue
  rw [hdue, List.length_map, hlength]

section Scheduled

variable (h : Scheduled (msgs.flatMap encodeMsg) b)

include h

theorem kept_eq_take (t : Nat) :
    (AxisDropFifo.kept b.fifo₀ b.fifoInput t).map AxisLayout.readSignal =
      (records msgs).take (collect b.message (t - (b.latency + 6))).length := by
  rw [AxisDropFifo.kept_of_spaced b.fifo₀ (by decide) (spaced_offer h.reset h.spaced) h.read t]
  simp only [offer_eq]
  exact collect_record_eq_take h t

theorem delivered_isPrefix_take (t : Nat) :
    b.delivered t <+: (records msgs).take (collect b.message (t - (b.latency + 8))).length := by
  have hearly : AxisDropFifo.delivered b.fifo₀ b.fifoInput t <+:
      AxisDropFifo.kept b.fifo₀ b.fifoInput (t - 2) :=
    (collect_mono (by omega)).trans (AxisDropFifo.delivered_isPrefix_kept b.fifo₀ b.fifoInput _)
  have hread := hearly.map AxisLayout.readSignal
  rwa [kept_eq_take h, Nat.sub_sub, Nat.add_comm 2] at hread

theorem take_isPrefix_delivered (t : Nat) :
    (records msgs).take (collect b.message t).length <+: b.delivered (t + (b.latency + 14)) := by
  have hlate := (delivered_of_spaced b.fifo₀ (spaced_offer h.reset h.spaced) h.read
    (t + (b.latency + 6))).map AxisLayout.readSignal
  rw [kept_eq_take h, Nat.add_sub_cancel] at hlate
  exact hlate

/-- Once the parser has emitted every word, every record is delivered. -/
theorem exists_delivered : ∃ T, ∀ t, T ≤ t → b.delivered t = records msgs := by
  rcases h.complete with ⟨T, hall⟩
  refine ⟨T + (b.latency + 14), fun t hle => ?_⟩
  have hlength : (collect b.message T).length = (records msgs).length := by
    rw [hall, feedParser_flatMap, ← leading_recordAfter, length_leading]
    simp only [List.length_map]
  have hlate := take_isPrefix_delivered h T
  rw [hlength, List.take_length] at hlate
  have hearly := delivered_isPrefix h t
  have hmono : b.delivered (T + (b.latency + 14)) <+: b.delivered t :=
    (collect_mono hle).map AxisLayout.readSignal
  exact (hearly.eq_of_length_le (hlate.trans hmono).length_le)

end Scheduled

/-- **The latency of a record.**  Between `latency + 8` and `latency + 14` cycles pass from
    the cycle in which the parser emits a word to the one in which its record is read: what
    has been read before a cycle are records of words emitted `latency + 8` cycles before it,
    and `latency + 14` cycles after it the records of all words emitted before it have been. -/
theorem latency_bounds (h : Scheduled (msgs.flatMap encodeMsg) b) (t : Nat) :
    b.delivered t <+:
        (records msgs).take (collect b.message (t - (b.latency + 8))).length ∧
      (records msgs).take (collect b.message t).length <+:
        b.delivered (t + (b.latency + 14)) :=
  ⟨delivered_isPrefix_take h t, take_isPrefix_delivered h t⟩

theorem latency_bounds_fourMessages :
    (pacedBoard (fourMessages.flatMap encodeMsg)).delivered 120 <+:
        (records fourMessages).take (collect
          (pacedBoard (fourMessages.flatMap encodeMsg)).message
          (120 - ((pacedBoard (fourMessages.flatMap encodeMsg)).latency + 8))).length ∧
      (records fourMessages).take (collect
          (pacedBoard (fourMessages.flatMap encodeMsg)).message 120).length <+:
        (pacedBoard (fourMessages.flatMap encodeMsg)).delivered
          (120 + ((pacedBoard (fourMessages.flatMap encodeMsg)).latency + 14)) :=
  latency_bounds (scheduled_pacedBoard _) 120

end FeedHandler.FeedPipeline
