import FeedHandler.AxisLayout
import FeedHandler.BookTiming
import FeedHandler.FifoTiming
import FeedHandler.ParserFraming

/-!
# From bytes to delivered records

The four blocks of the block design in series: the words of `feed_parser` into the
order book, every snapshot into `compute_signals`, every record into
`axis_drop_fifo`.  No block can hold back the one before it, so the composition
rests on rates: words at least 22 cycles apart leave the book as a delay line, and
records as far apart leave the FIFO before the next one comes.
-/

namespace FeedHandler.FeedPipeline

open FeedHandler.Parser Sync Signals AxisLayout

/-- The registers of the book and the FIFO before the first cycle, the latency of the
    signal engine, and the signals that come from outside: when the parser emits which
    word, and when the output is read.  A data bus carries anything while it is not valid. -/
structure Board where
  book₀ : OrderBook.State 10 32 32
  fifo₀ : AxisDropFifo.State 5 224
  latency : Nat
  out_msgs_tdata : Nat → AxisWord
  out_msgs_tvalid : Nat → Bool
  out_sig_idle : Nat → BitVec 224
  m_axis_tready : Nat → Bool

namespace Board

variable (b : Board)

/-- The word that the parser emits in cycle `t`, if any. -/
def message (t : Nat) : Option AxisWord :=
  if b.out_msgs_tvalid t then some (b.out_msgs_tdata t) else none

def bookInput (t : Nat) : OrderBook.Input 32 32 where
  s_axis_tdata := bookWord (b.out_msgs_tdata t)
  s_axis_tvalid := b.out_msgs_tvalid t

def book (t : Nat) : OrderBook.State 10 32 32 := OrderBook.cycle b.book₀ b.bookInput t

/-- The words for which the book's input queue had room, in the cycles before `t`. -/
def kept (t : Nat) : List (OrderBook.Word 32 32) := OrderBook.kept b.book₀ b.bookInput t

/-- How many words came before `t` while the queue was full. -/
def bookLost (t : Nat) : Nat := OrderBook.lost b.book₀ b.bookInput t

/-- The snapshot word that the wrapper presents in cycle `t`, if any. -/
def snapshot (t : Nat) : Option (BitVec 1984) :=
  if (b.book t).snap.valid then some (packSnap (b.book t).snap) else none

/-- The record that the signal engine emits in cycle `t`, if any. -/
def record (t : Nat) : Option (BitVec 224) :=
  delayed b.latency
    (fun u => (b.snapshot u).map fun word => packSignal (computeSignals (readSnap word))) t

def fifoInput (t : Nat) : AxisDropFifo.Input 224 where
  s_axis_tdata := (b.record t).getD (b.out_sig_idle t)
  s_axis_tvalid := (b.record t).isSome
  m_axis_tready := b.m_axis_tready t

def fifo (t : Nat) : AxisDropFifo.State 5 224 := AxisDropFifo.cycle b.fifo₀ b.fifoInput t

def fifoKept (t : Nat) : List (BitVec 224) := AxisDropFifo.kept b.fifo₀ b.fifoInput t

def fifoLost (t : Nat) : Nat := AxisDropFifo.lost b.fifo₀ b.fifoInput t

/-- The records accepted at the FIFO's output in the cycles before `t`. -/
def delivered (t : Nat) : List SignalOut :=
  (AxisDropFifo.delivered b.fifo₀ b.fifoInput t).map readSignal

end Board

/-- What is assumed around the blocks for a byte stream: the book has been reset, the
    parser's schedule emits the words of the stream in order, all of them in the end and at
    least 22 cycles apart, and the output is read at least once in every 7 cycles. -/
structure Scheduled (stream : List (BitVec 8)) (b : Board) : Prop where
  reset : OrderBook.AfterReset b.book₀
  in_order : ∀ t, collect b.message t <+: (feedParser stream).words
  complete : ∃ t, collect b.message t = (feedParser stream).words
  spaced : Spaced 22 b.message
  read : HighWithin 7 b.m_axis_tready

/-! ### The records that are due -/

def marketMsg (m : RawMsg) : MarketMsg 32 32 where
  price := m.norm.price
  size := m.norm.size
  side := m.norm.side
  seqNum := m.seq_num
  valid := true

def bookOf (msgs : List RawMsg) : OrderBook.Book 10 32 32 :=
  msgs.foldl (fun book m => OrderBook.applyMsg book (marketMsg m)) OrderBook.emptyBook

def recordOf (book : OrderBook.Book 10 32 32) (m : RawMsg) : SignalOut :=
  computeSignals
    { bids := book.bids
      asks := book.asks
      midprice := OrderBook.midprice book.bids book.asks
      seq_num := m.seq_num }

/-- One record for each message of a known type, of the book up to and including it. -/
def records (msgs : List RawMsg) : List SignalOut :=
  (msgs.filter RawMsg.known).mapIdx fun k m =>
    recordOf (bookOf ((msgs.filter RawMsg.known).take (k + 1))) m

theorem seq_num_recordOf (book : OrderBook.Book 10 32 32) (m : RawMsg) :
    (recordOf book m).seq_num = m.seq_num := rfl

/-- The records have the numbers of their messages. -/
theorem seq_num_records (msgs : List RawMsg) :
    (records msgs).map SignalOut.seq_num = (msgs.filter RawMsg.known).map RawMsg.seq_num := by
  apply List.ext_getElem (by simp [records])
  intro k _ _
  simp only [records, List.getElem_map, List.getElem_mapIdx, seq_num_recordOf]

theorem decode_bookWord (m : RawMsg) :
    OrderBook.decode (bookWord (packNorm m.norm)) true = marketMsg m :=
  (decode_packNorm m.norm).1

theorem bookAfter_words (msgs : List RawMsg) :
    (OrderBook.bookAfter (msgs.map fun m => bookWord (packNorm m.norm)) :
      OrderBook.Book 10 32 32) = bookOf msgs := by
  simp only [OrderBook.bookAfter, bookOf, List.foldl_map, decode_bookWord]

/-- The snapshot that the engine reads after the given words. -/
def snapAfter (words : List (OrderBook.Word 32 32)) : BookSnap :=
  readSnap (packSnap (OrderBook.snapshotAfter words true))

/-- The record that the engine makes of it. -/
def recordAfter (words : List (OrderBook.Word 32 32)) : SignalOut :=
  computeSignals (snapAfter words)

theorem leading_recordAfter (msgs : List RawMsg) :
    leading recordAfter (((msgs.filter RawMsg.known).map fun m => packNorm m.norm).map bookWord) =
      records msgs := by
  rw [List.map_map]
  apply List.ext_getElem (by simp [records])
  intro k hk _
  have hlt : k < (msgs.filter RawMsg.known).length := by simpa using hk
  have hseq : OrderBook.lastSeq (((msgs.filter RawMsg.known).take (k + 1)).map fun m =>
      bookWord (packNorm m.norm)) = (msgs.filter RawMsg.known)[k].seq_num := by
    rw [List.take_succ_eq_append_getElem hlt, List.map_append, List.map_singleton,
      OrderBook.lastSeq_append_singleton, decode_bookWord]
    rfl
  simp only [leading, records, List.getElem_mapIdx, ← List.map_take, Function.comp_def]
  rw [recordAfter, snapAfter, readSnap_packSnap]
  simp only [OrderBook.snapshotAfter, bookAfter_words, hseq]
  rfl

/-! ### The blocks in series -/

section Series

variable {b : Board} {stream : List (BitVec 8)}

theorem arrival_eq (b : Board) (t : Nat) :
    (b.bookInput t).arrival = (b.message t).map bookWord := by
  cases hvalid : b.out_msgs_tvalid t <;>
    simp [Board.bookInput, OrderBook.Input.arrival, Board.message, hvalid]

theorem offer_eq (b : Board) (t : Nat) : (b.fifoInput t).offer = b.record t := by
  cases hrecord : b.record t <;> simp [Board.fifoInput, AxisDropFifo.Input.offer, hrecord]

theorem spaced_arrival (h : Spaced 22 b.message) :
    Spaced 3 fun t => (b.bookInput t).arrival :=
  (h.mono (by decide)).of_isSome fun t => by rw [arrival_eq, Option.isSome_map]

/-- **The book and the engine are a delay line** of six cycles and the engine's latency: a
    word's record is that of all the words up to it. -/
theorem record_eq (hreset : OrderBook.AfterReset b.book₀) (hspaced : Spaced 22 b.message)
    (t : Nat) :
    b.record t = delayed (b.latency + 6) (fun u => (b.bookInput u).arrival.map fun _ =>
      packSignal (recordAfter (collect (fun v => (b.bookInput v).arrival) (u + 1)))) t := by
  have hsnapshot : ∀ u, b.snapshot u = delayed 6 (fun v => (b.bookInput v).arrival.map fun _ =>
      packSnap (OrderBook.snapshotAfter (collect (fun w => (b.bookInput w).arrival) (v + 1))
        true)) u := by
    intro u
    rw [Board.snapshot, Board.book,
      OrderBook.snap_of_spaced hreset (spaced_arrival hspaced) u]
    by_cases hle : 6 ≤ u
    · have hlast : u - 5 = u - 6 + 1 := by omega
      simp only [delayed, if_pos hle, hlast]
      cases (b.bookInput (u - 6)).arrival <;> rfl
    · simp only [delayed, if_neg hle]
      rfl
  simp only [Board.record, hsnapshot, map_delayed, delayed_delayed, Option.map_map]
  rfl

/-- The records emitted in the cycles before `t` are those of the words emitted one delay
    earlier. -/
theorem collect_record (hreset : OrderBook.AfterReset b.book₀) (hspaced : Spaced 22 b.message)
    (t : Nat) :
    (collect b.record t).map readSignal =
      leading recordAfter ((collect b.message (t - (b.latency + 6))).map bookWord) := by
  have hrecords : collect b.record t =
      leading (fun words => packSignal (recordAfter words))
        (collect (fun u => (b.bookInput u).arrival) (t - (b.latency + 6))) := by
    rw [← collect_leading, ← collect_delayed]
    exact collect_congr fun u _ => record_eq hreset hspaced u
  have hwords : collect (fun u => (b.bookInput u).arrival) (t - (b.latency + 6)) =
      (collect b.message (t - (b.latency + 6))).map bookWord := by
    rw [← collect_map]
    exact collect_congr fun u _ => arrival_eq b u
  rw [hrecords, hwords, map_leading]
  simp only [readSignal_packSignal]

theorem spaced_offer (hreset : OrderBook.AfterReset b.book₀) (hspaced : Spaced 22 b.message) :
    Spaced (7 + 2) fun t => (b.fifoInput t).offer := by
  have hanswers : Spaced 22 fun u => (b.bookInput u).arrival.map fun _ =>
      packSignal (recordAfter (collect (fun v => (b.bookInput v).arrival) (u + 1))) :=
    hspaced.of_isSome fun t => by rw [Option.isSome_map, arrival_eq, Option.isSome_map]
  have hrecords : Spaced 22 b.record :=
    hanswers.delayed.of_isSome fun t => by rw [record_eq hreset hspaced]
  exact (hrecords.mono (by decide)).of_isSome fun t => by rw [offer_eq]

theorem collect_record_isPrefix {msgs : List RawMsg} (h : Scheduled (msgs.flatMap encodeMsg) b)
    (t : Nat) : (collect b.record t).map readSignal <+: records msgs := by
  have hwords := h.in_order (t - (b.latency + 6))
  rw [feedParser_flatMap] at hwords
  rw [collect_record h.reset h.spaced, ← leading_recordAfter]
  exact leading_isPrefix _ (hwords.map bookWord)

/-- After the last word, the engine emits its records and falls silent. -/
theorem exists_emitted {msgs : List RawMsg} (h : Scheduled (msgs.flatMap encodeMsg) b) :
    ∃ T, ∀ t, T ≤ t →
      b.record t = none ∧ (collect b.record t).map readSignal = records msgs := by
  rcases h.complete with ⟨T, hall⟩
  refine ⟨T + (b.latency + 6), ?_⟩
  intro t hle
  constructor
  · have hquiet : b.message (t - (b.latency + 6)) = none :=
      eq_none_of_complete h.in_order hall (by omega)
    rw [record_eq h.reset h.spaced, delayed, if_pos (by omega), arrival_eq, hquiet]
    rfl
  · have hwords : collect b.message (t - (b.latency + 6)) = _ :=
      collect_eq_of_complete h.in_order hall (by omega)
    rw [collect_record h.reset h.spaced, hwords, feedParser_flatMap]
    exact leading_recordAfter msgs

theorem delivered_isPrefix {msgs : List RawMsg} (h : Scheduled (msgs.flatMap encodeMsg) b)
    (t : Nat) : b.delivered t <+: records msgs := by
  have hkept := AxisDropFifo.kept_of_spaced b.fifo₀ (by decide)
    (spaced_offer h.reset h.spaced) h.read t
  simp only [offer_eq] at hkept
  have hdelivered := AxisDropFifo.delivered_isPrefix b.fifo₀ b.fifoInput t
  rw [hkept] at hdelivered
  exact (hdelivered.map readSignal).trans (collect_record_isPrefix h t)

end Series

/-! ### From end to end -/

/-- The board turns the messages into their records: what has been accepted at the FIFO's
    output is always a leading segment of the records that are due, each with the number of
    its message, from some cycle on it is all of them, and neither the book nor the FIFO ever
    counts a drop. -/
structure Delivers (b : Board) (msgs : List RawMsg) : Prop where
  in_order : ∀ t, b.delivered t <+: records msgs
  numbered : ∀ t, (b.delivered t).map SignalOut.seq_num <+:
    (msgs.filter RawMsg.known).map RawMsg.seq_num
  drained : ∃ T, ∀ t, T ≤ t → b.delivered t = records msgs
  book_dropped : ∀ t, (b.book t).dropCount = 0
  fifo_dropped : ∀ t, (b.fifo t).dropped = 0

/-- **From bytes to delivered records.**  For every stream of whole messages, whatever
    the schedule, latency and reader within the assumptions. -/
theorem delivers {b : Board} {msgs : List RawMsg}
    (h : Scheduled (msgs.flatMap encodeMsg) b) : Delivers b msgs where
  in_order := delivered_isPrefix h
  numbered := by
    intro t
    rw [← seq_num_records]
    exact (delivered_isPrefix h t).map _
  drained := by
    obtain ⟨T, hemitted⟩ := exists_emitted h
    refine ⟨T + (7 + 2), ?_⟩
    intro t hle
    have hquiet : ∀ u, T ≤ u → (b.fifoInput u).offer = none := by
      intro u hu
      rw [offer_eq]
      exact (hemitted u hu).1
    have hall := AxisDropFifo.delivered_of_quiet b.fifo₀ (by decide)
      (spaced_offer h.reset h.spaced) h.read hquiet hle
    simp only [offer_eq] at hall
    rw [Board.delivered, hall]
    exact (hemitted t (by omega)).2
  book_dropped := OrderBook.dropCount_of_spaced h.reset (spaced_arrival h.spaced)
  fifo_dropped := AxisDropFifo.dropped_of_spaced b.fifo₀ (by decide)
    (spaced_offer h.reset h.spaced) h.read

/-! ### A board that meets the assumptions -/

def paced (words : List AxisWord) (t : Nat) : Option AxisWord :=
  if t % 22 = 0 then words[t / 22]? else none

/-- A board fed at the parser's full rate and read in every seventh cycle. -/
def pacedBoard (stream : List (BitVec 8)) : Board where
  book₀ := OrderBook.step true OrderBook.powerUp ⟨0, false⟩
  fifo₀ :=
    { mem := fun _ => 0, wr_ptr := 0, rd_ptr := 0, m_axis_tdata := 0, m_axis_tvalid := false,
      dropped := 0 }
  latency := 56
  out_msgs_tdata := fun t => (paced (feedParser stream).words t).getD 0
  out_msgs_tvalid := fun t => (paced (feedParser stream).words t).isSome
  out_sig_idle := fun _ => 0
  m_axis_tready := fun t => decide (t % 7 = 0)

theorem collect_paced (words : List AxisWord) (t : Nat) :
    collect (paced words) t = words.take ((t + 21) / 22) := by
  induction t with
  | zero => simp
  | succ t ih =>
    rw [collect_succ, ih, paced]
    split_ifs with hdue
    · have hnow : (t + 21) / 22 = t / 22 := by omega
      have hnext : (t + 1 + 21) / 22 = t / 22 + 1 := by omega
      rw [hnow, hnext, List.take_add_one]
    · have hnext : (t + 1 + 21) / 22 = (t + 21) / 22 := by omega
      rw [hnext, Option.toList_none, List.append_nil]

/-- The assumptions can be met for every byte stream. -/
theorem scheduled_pacedBoard (stream : List (BitVec 8)) : Scheduled stream (pacedBoard stream) := by
  have hmessage : (pacedBoard stream).message = paced (feedParser stream).words := by
    funext t
    cases hword : paced (feedParser stream).words t <;> simp [Board.message, pacedBoard, hword]
  refine ⟨OrderBook.afterReset_powerUp _, ?_, ?_, ?_, ?_⟩
  · intro t
    rw [hmessage, collect_paced]
    exact List.take_prefix _ _
  · refine ⟨22 * (feedParser stream).words.length, ?_⟩
    rw [hmessage, collect_paced]
    exact List.take_of_length_le (by omega)
  · intro t u hlt ht hu
    rw [hmessage] at ht hu
    have hdue : ∀ v, (paced (feedParser stream).words v).isSome = true → v % 22 = 0 := by
      intro v hv
      by_contra hidle
      rw [paced, if_neg hidle] at hv
      exact absurd hv (by decide)
    have := hdue t ht
    have := hdue u hu
    omega
  · intro t
    exact ⟨(t + 6) / 7 * 7, by omega, by omega, decide_eq_true (by omega)⟩

/-- The words of bids and asks in turn, with deletes among the asks. -/
def inTurn (k : Nat) : AxisWord :=
  packNorm
    { price := BitVec.ofNat 32 (100 + 6 * (k % 2) + k % 5)
      size := BitVec.ofNat 32 ((k + 1) % 4)
      side := BitVec.ofNat 1 k
      seq_num := BitVec.ofNat 32 (k + 1) }

/-- A message of an unknown type and four of known ones. -/
theorem delivers_fiveMessages :
    Delivers (pacedBoard ((⟨0x58, 0, 0, 10000, 5⟩ :: fourMessages).flatMap encodeMsg))
      (⟨0x58, 0, 0, 10000, 5⟩ :: fourMessages) :=
  delivers (scheduled_pacedBoard _)

end FeedHandler.FeedPipeline
