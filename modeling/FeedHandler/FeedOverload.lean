import FeedHandler.DropCounters
import FeedHandler.FeedPipeline
import FeedHandler.FifoService

/-!
# The board under any load

What the board still guarantees when nothing is assumed of the rates: words may come in
every cycle and the output may never be read.  The book serves its queue at a pace of
three cycles and the engine follows, so the records that reach the FIFO are those of the
words the book has taken, in order; both blocks that can lose a word count what they lose,
and what is neither delivered nor counted is on its way in a bounded number of places.
-/

namespace FeedHandler.FeedPipeline

open FeedHandler.Parser Sync Signals AxisLayout

/-- The word that the book takes from its queue in cycle `t`, if any. -/
def Board.taken (b : Board) (t : Nat) : Option (OrderBook.Word 32 32) := OrderBook.take (b.book t)

variable {b : Board}

/-! ### What each block passes on -/

theorem message_of_accept {u : Nat} {w : OrderBook.Word 32 32}
    (h : OrderBook.accept (b.book u) (b.bookInput u) = some w) :
    (b.message u).map bookWord = some w := by
  rw [← arrival_eq]
  unfold OrderBook.accept at h
  split_ifs at h with hroom
  rw [OrderBook.Input.arrival, if_pos (Bool.and_eq_true_iff.mp hroom).1, h]

theorem kept_sublist (b : Board) (t : Nat) :
    (b.kept t).Sublist ((collect b.message t).map bookWord) := by
  rw [← collect_map]
  exact collect_sublist (fun _ _ => message_of_accept) t

theorem length_message_eq (b : Board) (t : Nat) :
    (collect b.message t).length = (b.kept t).length + b.bookLost t := by
  have hvalid : (fun u => (b.message u).isSome) = fun u => (b.bookInput u).s_axis_tvalid := by
    funext u
    cases hword : b.out_msgs_tvalid u <;> simp [Board.message, Board.bookInput, hword]
  rw [length_collect, hvalid, ← OrderBook.accepts_add_lost b.book₀ b.bookInput]
  rfl

theorem length_record_eq (b : Board) (t : Nat) :
    (collect b.record t).length = (b.fifoKept t).length + b.fifoLost t := by
  have hvalid : (fun u => (b.record u).isSome) = fun u => (b.fifoInput u).s_axis_tvalid := rfl
  rw [length_collect, hvalid, ← AxisDropFifo.kept_add_lost b.fifo₀]
  rfl

theorem record_of_accept {u : Nat} {w : BitVec 224}
    (h : AxisDropFifo.accept (b.fifo u) (b.fifoInput u) = some w) : b.record u = some w := by
  rw [← offer_eq]
  unfold AxisDropFifo.accept at h
  split_ifs at h with hroom
  rw [AxisDropFifo.Input.offer, if_pos (Bool.and_eq_true_iff.mp hroom).1, h]

theorem fifoKept_sublist (b : Board) (t : Nat) : (b.fifoKept t).Sublist (collect b.record t) :=
  collect_sublist (fun _ _ => record_of_accept) t

/-- A kept word is one that the parser emitted in a cycle of its own. -/
theorem exists_message_of_kept {t j : Nat} (h : j < (b.kept t).length) :
    ∃ u w, u < t ∧ b.message u = some w ∧
      Occurs (OrderBook.accepts b.book₀ b.bookInput) j (bookWord w) u := by
  obtain ⟨_, u, hlt, hkeeps⟩ := exists_occurs h
  obtain ⟨w, hmessage, rfl⟩ := Option.map_eq_some_iff.mp (message_of_accept hkeeps.event)
  exact ⟨u, w, hlt, hmessage, hkeeps⟩

/-- The records that the FIFO has lost by then stand before a record it delivers. -/
theorem exists_record_of_delivered {t k : Nat} {out : SignalOut}
    (h : (b.delivered t)[k]? = some out) :
    ∃ v < t, (∃ w, Occurs (fun u => AxisDropFifo.accept (b.fifo u) (b.fifoInput u)) k w v) ∧
      ((collect b.record (v + 1)).map readSignal)[k + b.fifoLost v]? = some out := by
  rw [Board.delivered, List.getElem?_map, Option.map_eq_some_iff] at h
  rcases h with ⟨w, hw, rfl⟩
  obtain ⟨hk, rfl⟩ := List.getElem?_eq_some_iff.mp hw
  have hkept := List.prefix_iff_getElem?.mp
    (AxisDropFifo.delivered_isPrefix b.fifo₀ b.fifoInput t) k hk
  obtain ⟨v, hlt, haccept, hcount⟩ := exists_cycle_of_getElem? hkept
  have hstands := getElem?_collect_of_lt (Nat.lt_succ_self v) (record_of_accept haccept)
  have hplace : (collect b.record v).length = k + b.fifoLost v :=
    (length_record_eq b v).trans (congrArg (· + b.fifoLost v) hcount)
  rw [hplace] at hstands
  refine ⟨v, hlt, ⟨_, haccept, hcount⟩, ?_⟩
  rw [List.getElem?_map, hstands]
  rfl

section Reset

variable (hreset : OrderBook.AfterReset b.book₀)

include hreset

theorem paced_taken : Paced 3 (OrderBook.accepts b.book₀ b.bookInput) b.taken :=
  OrderBook.paced hreset b.bookInput

/-- **Behind its queue the book is a delay line** of five cycles, whatever the load. -/
theorem record_of_taken (t : Nat) :
    b.record t = delayed (b.latency + 5) (fun u => (b.taken u).map fun _ =>
      packSignal (recordAfter (collect b.taken (u + 1)))) t := by
  have htaken : b.taken = BookPipeline.takes OrderBook.QUEUE_DEPTH
      fun u => (b.bookInput u).arrival := OrderBook.takes_eq hreset b.bookInput
  have hsnapshot : ∀ u, b.snapshot u = delayed 5 (fun v => (b.taken v).map fun _ =>
      packSnap (OrderBook.snapshotAfter (collect b.taken (v + 1)) true)) u := by
    intro u
    rw [Board.snapshot, Board.book, (OrderBook.tracks_cycle b.bookInput hreset u).snap,
      BookPipeline.shown_eq, BookPipeline.pulse_eq, ← htaken]
    by_cases hle : 5 ≤ u
    · have hlast : u - 4 = u - 5 + 1 := by omega
      simp only [delayed, if_pos hle, hlast]
      cases b.taken (u - 5) <;> rfl
    · simp only [delayed, if_neg hle]
      rfl
  simp only [Board.record, hsnapshot, map_delayed, delayed_delayed, Option.map_map]
  rfl

/-- The records emitted before `t` are those of the words taken one delay earlier. -/
theorem collect_record_of_taken (t : Nat) :
    (collect b.record t).map readSignal =
      leading recordAfter (collect b.taken (t - (b.latency + 5))) := by
  have hrecords : collect b.record t = leading (fun words => packSignal (recordAfter words))
      (collect b.taken (t - (b.latency + 5))) := by
    rw [← collect_leading, ← collect_delayed]
    exact collect_congr fun u _ => record_of_taken hreset u
  rw [hrecords, map_leading]
  simp only [readSignal_packSignal]

theorem length_record_of_taken (t : Nat) :
    (collect b.record t).length = (collect b.taken (t - (b.latency + 5))).length := by
  have hrecords := congrArg List.length (collect_record_of_taken hreset t)
  rwa [List.length_map, length_leading] at hrecords

theorem taken_isPrefix (t : Nat) : collect b.taken t <+: b.kept t := (paced_taken hreset).fifo t

/-- Each record delivered is that of a kept word, computed from all words kept up to it. -/
theorem delivered_sublist (t : Nat) : (b.delivered t).Sublist (leading recordAfter (b.kept t)) := by
  have hdelivered := (AxisDropFifo.delivered_isPrefix b.fifo₀ b.fifoInput t).sublist
  have hrecords := (hdelivered.trans (fifoKept_sublist b t)).map readSignal
  rw [collect_record_of_taken hreset] at hrecords
  have htaken := (collect_mono (Nat.sub_le t (b.latency + 5))).trans (taken_isPrefix hreset t)
  exact hrecords.trans (leading_isPrefix recordAfter htaken).sublist

/-- What is neither lost nor emitted is in the book's queue or behind it. -/
theorem length_kept_le (t : Nat) :
    (b.kept t).length ≤ (collect b.record t).length + (4 + (b.latency + 7) / 3) := by
  have hqueue : (OrderBook.cycle b.book₀ b.bookInput t).inQ.items.length ≤ 4 :=
    (OrderBook.cycle b.book₀ b.bookInput t).inQ.bound
  have hwaiting : (b.kept t).length = (collect b.taken t).length +
      (OrderBook.cycle b.book₀ b.bookInput t).inQ.items.length :=
    OrderBook.length_accepts hreset b.bookInput t
  have hpace := (paced_taken hreset).spaced.mul_highs_lt (by decide) (t - (b.latency + 5))
    (b.latency + 5)
  have hlate : (collect b.taken t).length ≤
      (collect b.taken (t - (b.latency + 5) + (b.latency + 5))).length :=
    length_collect_mono (by omega)
  rw [length_record_of_taken hreset]
  rw [← length_collect, ← length_collect] at hpace
  omega

end Reset

/-! ### Accounting for every word -/

/-- **Nothing is invented, reordered or lost without being counted**, whatever the load. -/
structure Accounted (b : Board) : Prop where
  kept : ∀ t, (b.kept t).Sublist ((collect b.message t).map bookWord)
  in_order : ∀ t, (b.delivered t).Sublist (leading recordAfter (b.kept t))
  book_dropped : ∀ t, (b.book t).dropCount.toNat = b.bookLost t % 2 ^ 16
  fifo_dropped : ∀ t, (b.fifo t).dropped.toNat = b.fifoLost t % 2 ^ 16
  /-- What the parser emitted has been delivered or lost, but for the places on the way: four
      in the book's queue, one for every three cycles of its delay and the engine's, and 33 in
      the FIFO. -/
  conserved : ∀ t,
    (b.delivered t).length + b.bookLost t + b.fifoLost t ≤ (collect b.message t).length ∧
      (collect b.message t).length ≤
        (b.delivered t).length + b.bookLost t + b.fifoLost t + (4 + (b.latency + 7) / 3 + 33)

theorem accounted (hreset : OrderBook.AfterReset b.book₀) : Accounted b where
  kept := kept_sublist b
  in_order := delivered_sublist hreset
  book_dropped := (OrderBook.counts_dropCount b.bookInput hreset).toNat_eq
  fifo_dropped := AxisDropFifo.toNat_dropped b.fifo₀ b.fifoInput
  conserved := by
    intro t
    have hbook := length_message_eq b t
    have hfifo := length_record_eq b t
    have hway := length_kept_le hreset t
    have hemitted : (collect b.record t).length ≤ (b.kept t).length := by
      rw [length_record_of_taken hreset]
      exact (length_collect_mono (Nat.sub_le _ _)).trans (taken_isPrefix hreset t).length_le
    have hwaiting := AxisDropFifo.waiting_le b.fifo₀ b.fifoInput t
    have hdelivered := (AxisDropFifo.delivered_isPrefix b.fifo₀ b.fifoInput t).length_le
    have hread : (b.delivered t).length = (AxisDropFifo.delivered b.fifo₀ b.fifoInput t).length :=
      List.length_map _
    change (b.fifoKept t).length - _ ≤ _ at hwaiting
    change _ ≤ (b.fifoKept t).length at hdelivered
    omega

/-- A word in every cycle and an output that is never read. -/
def floodedBoard : Board :=
  { pacedBoard [] with
    out_msgs_tdata := inTurn
    out_msgs_tvalid := fun _ => true
    m_axis_tready := fun _ => false }

theorem accounted_floodedBoard : Accounted floodedBoard :=
  accounted (OrderBook.afterReset_powerUp _)

/-! ### How long an answer takes -/

/-- The book's queue is empty of what it holds after twelve cycles, and the book and the
    engine answer `latency + 5` cycles after that. -/
theorem leading_kept_isPrefix (hreset : OrderBook.AfterReset b.book₀) (t : Nat) :
    leading recordAfter (b.kept t) <+:
      (collect b.record (t + (b.latency + 17))).map readSignal := by
  have htime : t + (b.latency + 17) - (b.latency + 5) = t + 12 := by omega
  rw [collect_record_of_taken hreset, htime]
  exact leading_isPrefix recordAfter (OrderBook.kept_isPrefix_takes hreset b.bookInput t)

/-- A FIFO that has had no more records than it has places has lost none. -/
theorem fifoLost_eq_zero (hfew : ∀ t, (collect b.record t).length ≤ 33) (t : Nat) :
    b.fifoLost t = 0 := by
  rw [Board.fifoLost, AxisDropFifo.lost, highs_eq_zero_iff]
  intro u _
  cases hvalid : (b.fifoInput u).s_axis_tvalid with
  | false => rw [AxisDropFifo.discards, hvalid, Bool.false_and]
  | true =>
    have hrecord : (b.record u).isSome = true := hvalid
    obtain ⟨w, hw⟩ := Option.isSome_iff_exists.mp hrecord
    have hnow := hfew (u + 1)
    rw [length_collect_succ hw] at hnow
    have hroom : (b.fifoKept u).length -
        (AxisDropFifo.delivered b.fifo₀ b.fifoInput u).length < 33 := by
      have hkept := (fifoKept_sublist b u).length_le
      omega
    have hkeeps := (AxisDropFifo.accept_isSome_iff b.fifo₀ b.fifoInput (by decide) hvalid).mpr hroom
    rw [AxisDropFifo.discards, hkeeps, Bool.not_true, Bool.and_false]

theorem fifoKept_isPrefix {n : Nat} (hread : HighWithin n b.m_axis_tready) (t : Nat) :
    (b.fifoKept t).map readSignal <+: b.delivered (t + 1 + 33 * n) := by
  have hdelivered := AxisDropFifo.isPrefix_of_waiting_le b.fifo₀ b.fifoInput hread
    (AxisDropFifo.waiting_le b.fifo₀ b.fifoInput t)
  rw [show n * (2 ^ 5 + 1) = 33 * n by omega] at hdelivered
  exact hdelivered.map readSignal

/-- The records of the words kept before a cycle are delivered in bounded time, if the FIFO
    has lost none. -/
theorem leading_kept_isPrefix_delivered (hreset : OrderBook.AfterReset b.book₀) {n : Nat}
    (hread : HighWithin n b.m_axis_tready) {t : Nat}
    (hnone : b.fifoLost (t + (b.latency + 17)) = 0) :
    leading recordAfter (b.kept t) <+: b.delivered (t + (b.latency + 18 + 33 * n)) := by
  have hemitted := leading_kept_isPrefix hreset t
  have hread := fifoKept_isPrefix hread (t + (b.latency + 17))
  have hfifo := length_record_eq b (t + (b.latency + 17))
  have hall : b.fifoKept (t + (b.latency + 17)) = collect b.record (t + (b.latency + 17)) :=
    (fifoKept_sublist b _).eq_of_length (by omega)
  rw [show t + (b.latency + 17) + 1 + 33 * n = t + (b.latency + 18 + 33 * n) by omega, hall] at hread
  exact hemitted.trans hread

/-- **Every kept word is answered in bounded time.**  With a reader that comes at least once
    in every `n` cycles, by `latency + 18 + 33 * n` cycles after a cycle each word kept
    before it has had its record delivered, or a record was lost and counted in its place;
    while the FIFO has lost none, the records of all of them have been delivered. -/
theorem answered_within (hreset : OrderBook.AfterReset b.book₀) {n : Nat}
    (hread : HighWithin n b.m_axis_tready) (t : Nat) :
    (b.kept t).length ≤ (b.delivered (t + (b.latency + 18 + 33 * n))).length +
        b.fifoLost (t + (b.latency + 17)) ∧
      (b.fifoLost (t + (b.latency + 17)) = 0 →
        leading recordAfter (b.kept t) <+: b.delivered (t + (b.latency + 18 + 33 * n))) := by
  refine ⟨?_, leading_kept_isPrefix_delivered hreset hread⟩
  have hanswers := (leading_kept_isPrefix hreset t).length_le
  have hfifo := length_record_eq b (t + (b.latency + 17))
  have hdelivered := (fifoKept_isPrefix hread (t + (b.latency + 17))).length_le
  rw [show t + (b.latency + 17) + 1 + 33 * n = t + (b.latency + 18 + 33 * n) by omega,
    List.length_map] at hdelivered
  rw [length_leading, List.length_map] at hanswers
  omega

/-- The flooded board with an output that is read in every seventh cycle. -/
def drainedBoard : Board := { floodedBoard with m_axis_tready := fun t => decide (t % 7 = 0) }

theorem answered_within_drainedBoard :
    (drainedBoard.kept 100).length ≤
        (drainedBoard.delivered (100 + (drainedBoard.latency + 18 + 33 * 7))).length +
          drainedBoard.fifoLost (100 + (drainedBoard.latency + 17)) ∧
      (drainedBoard.fifoLost (100 + (drainedBoard.latency + 17)) = 0 →
        leading recordAfter (drainedBoard.kept 100) <+:
          drainedBoard.delivered (100 + (drainedBoard.latency + 18 + 33 * 7))) :=
  answered_within (OrderBook.afterReset_powerUp _)
    (fun t => ⟨(t + 6) / 7 * 7, by omega, by omega, decide_eq_true (by omega)⟩) 100

/-! ### What a gap means -/

theorem seq_num_recordAfter (words : List (OrderBook.Word 32 32)) (w : OrderBook.Word 32 32) :
    (recordAfter (words ++ [w])).seq_num = (OrderBook.decode w true).seqNum := by
  have hseq : (snapAfter (words ++ [w])).seq_num = (OrderBook.decode w true).seqNum := by
    rw [snapAfter, readSnap_packSnap]
    exact OrderBook.lastSeq_append_singleton words w
  exact hseq

theorem seq_num_leading (words : List (OrderBook.Word 32 32)) :
    (leading recordAfter words).map SignalOut.seq_num =
      words.map fun w => (OrderBook.decode w true).seqNum := by
  induction words using List.reverseRecOn with
  | nil => rfl
  | append_singleton words w ih =>
    rw [leading_append_singleton, List.map_append, ih, List.map_append, List.map_singleton,
      List.map_singleton, seq_num_recordAfter]

/-- The record delivered in place `k` is that of the word which the book keeps in cycle `u`,
    and the FIFO keeps it in cycle `v`. -/
structure Passes (b : Board) (k u v : Nat) : Prop where
  book : ∃ w, Occurs (OrderBook.accepts b.book₀ b.bookInput) (k + b.fifoLost v) w u
  fifo : ∃ w, Occurs (fun t => AxisDropFifo.accept (b.fifo t) (b.fifoInput t)) k w v

section Passes

variable {j k u v u' v' : Nat}

theorem Passes.length_kept (h : Passes b k u v) : (b.kept u).length = k + b.fifoLost v := by
  obtain ⟨_, hkeeps⟩ := h.book
  exact hkeeps.count

theorem Passes.length_fifoKept (h : Passes b k u v) : (b.fifoKept v).length = k := by
  obtain ⟨_, hkeeps⟩ := h.fifo
  exact hkeeps.count

/-- A record has one such cycle in each block. -/
theorem Passes.unique (h : Passes b k u v) (h' : Passes b k u' v') : u = u' ∧ v = v' := by
  rcases h with ⟨⟨_, hbook⟩, _, hfifo⟩
  rcases h' with ⟨⟨_, hbook'⟩, _, hfifo'⟩
  obtain rfl : v = v' := hfifo.cycle_eq hfifo'
  exact ⟨hbook.cycle_eq hbook', rfl⟩

theorem Passes.lt (h : Passes b j u v) (h' : Passes b k u' v') (hjk : j < k) :
    u < u' ∧ v < v' := by
  have hbook := h.length_kept
  have hbook' := h'.length_kept
  have hv : v < v' := by
    by_contra hge
    have hkept : (b.fifoKept v').length ≤ (b.fifoKept v).length :=
      length_collect_mono (Nat.le_of_not_lt hge)
    rw [h.length_fifoKept, h'.length_fifoKept] at hkept
    omega
  have hlost : b.fifoLost v ≤ b.fifoLost v' := highs_mono hv.le
  refine ⟨?_, hv⟩
  by_contra hge
  have hkept : (b.kept u').length ≤ (b.kept u).length :=
    length_collect_mono (Nat.le_of_not_lt hge)
  omega

end Passes

theorem exists_passes (hreset : OrderBook.AfterReset b.book₀) {t k : Nat} {out : SignalOut}
    (h : (b.delivered t)[k]? = some out) :
    ∃ u v w, Passes b k u v ∧ u ≤ v ∧ v < t ∧ b.message u = some w ∧
      b.kept (u + 1) = b.kept u ++ [bookWord w] ∧ out = recordAfter (b.kept (u + 1)) := by
  obtain ⟨v, hlt, hfifo, hrecord⟩ := exists_record_of_delivered h
  rw [collect_record_of_taken hreset] at hrecord
  obtain ⟨hj, hout⟩ := List.getElem?_eq_some_iff.mp hrecord
  rw [length_leading] at hj
  simp only [leading, List.getElem_mapIdx] at hout
  -- the words taken up to the one that the record answers are those kept up to it
  have htaken := taken_isPrefix hreset (v + 1 - (b.latency + 5))
  obtain ⟨u, w, hu, hmessage, hbook⟩ :=
    exists_message_of_kept (Nat.lt_of_lt_of_le hj htaken.length_le)
  have hnow : b.kept (u + 1) = b.kept u ++ [bookWord w] :=
    congrArg (b.kept u ++ ·.toList) hbook.event
  have hwords : (collect b.taken (v + 1 - (b.latency + 5))).take (k + b.fifoLost v + 1) =
      b.kept (u + 1) := by
    have hlength : (b.kept (u + 1)).length = k + b.fifoLost v + 1 := hbook.length_succ
    have hkept : b.kept (u + 1) <+: b.kept (v + 1 - (b.latency + 5)) := collect_mono hu
    rw [List.prefix_iff_eq_take.mp hkept, List.prefix_iff_eq_take.mp htaken, List.take_take,
      hlength, Nat.min_eq_left hj]
  exact ⟨u, v, w, ⟨⟨_, hbook⟩, hfifo⟩, by omega, hlt, hmessage, hnow, by rw [← hout, hwords]⟩

end FeedHandler.FeedPipeline
