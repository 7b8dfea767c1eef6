import FeedHandler.OrderBook
import FeedHandler.BookPipeline
import FeedHandler.BookSide
import FeedHandler.EventCounter

/-!
# The order book refines its pipeline

`Tracks s p` says that the registers of the order book are those of the abstract
pipeline `p`: the same queue, the same stage, each store holding the book after
the words that have landed with the stage's word in flight on the side it
selects, the three delay lines aligned, and the snapshot register holding the
book after the words that have been shown.  One clock edge keeps it, so the whole
run does.
-/

namespace FeedHandler.OrderBook

open Chisel PriceLevelStore Sync

variable {depth priceBits sizeBits : Nat}

/-- Where the word in flight stands in the store of one side. -/
def stageFor (side : BitVec 1) : Flight (Word priceBits sizeBits) → Stage priceBits sizeBits
  | .compared w =>
    if (decode w true).side = side then .compared (decode w true).price (decode w true).size
    else .idle
  | .decided w =>
    if (decode w true).side = side then .decided (decode w true).price (decode w true).size
    else .idle
  | _ => .idle

structure Tracks [NeZero depth] (s : State depth priceBits sizeBits)
    (p : BookPipeline (Word priceBits sizeBits)) : Prop where
  queue : s.inQ.items = p.queue
  busy1 : s.busy1 = p.flight.isLoaded
  busy2 : s.busy2 = p.flight.isCompared
  doUpdate : s.doUpdate = p.flight.isLoaded
  word : ∀ w, p.flight = .loaded w → s.word = w
  bids : InStage true (bookAfter p.applied : Book depth priceBits sizeBits).bids
    (stageFor Side.BID p.flight) s.bidStore
  asks : InStage false (bookAfter p.applied : Book depth priceBits sizeBits).asks
    (stageFor Side.ASK p.flight) s.askStore
  update0 : s.updateD[0] = p.flight.isCompared
  update1 : s.updateD[1] = p.flight.isDecided
  update2 : s.updateD[2] = p.landed.isSome
  seq0 : ∀ w, p.flight = .compared w → s.seqD[0] = (decode w true).seqNum
  seq1 : ∀ w, p.flight = .decided w → s.seqD[1] = (decode w true).seqNum
  seq2 : ∀ w, p.landed = some w → s.seqD[2] = (decode w true).seqNum
  seqHold : s.seqHold = lastSeq p.shown
  snap : s.snap = snapshotAfter p.shown p.pulse

/-- The levels of one side after the word that lands on this edge. -/
def landOn (isBid : Bool) (landing : Option (Word priceBits sizeBits))
    (levels : Vector (Level priceBits sizeBits) depth) : Vector (Level priceBits sizeBits) depth :=
  match landing with
  | some w =>
    if (decode w true).side = Side.ofBid isBid then
      updateOnce isBid levels (decode w true).price (decode w true).size
    else levels
  | none => levels

theorem bookAfter_applied_step (p : BookPipeline (Word priceBits sizeBits)) (cap : Nat)
    (arrival : Option (Word priceBits sizeBits)) :
    (bookAfter (p.step cap arrival).applied : Book depth priceBits sizeBits) =
      { bids := landOn true p.flight.landing (bookAfter p.applied).bids
        asks := landOn false p.flight.landing (bookAfter p.applied).asks } := by
  have happlied : (p.step cap arrival).applied = p.applied ++ p.flight.landing.toList := by
    simp [BookPipeline.applied, BookPipeline.step]
  rw [happlied]
  cases p.flight.landing with
  | none => simp [landOn]
  | some w => simp [landOn, applyMsg, Side.ofBid]

variable [NeZero depth] {s : State depth priceBits sizeBits}
  {p : BookPipeline (Word priceBits sizeBits)} {i : Input priceBits sizeBits}

theorem AfterReset.tracks (h : AfterReset s) : Tracks s .start where
  queue := h.inQ
  busy1 := h.busy1
  busy2 := h.busy2
  doUpdate := h.doUpdate
  word := fun _ hflight => nomatch hflight
  bids := h.bidStore
  asks := h.askStore
  update0 := by simp [h.updateD, BookPipeline.start, Flight.isCompared]
  update1 := by simp [h.updateD, BookPipeline.start, Flight.isDecided]
  update2 := by simp [h.updateD, BookPipeline.start]
  seq0 := fun _ hflight => nomatch hflight
  seq1 := fun _ hflight => nomatch hflight
  seq2 := fun _ hlanded => nomatch hlanded
  seqHold := h.seqHold
  snap := h.snap

def Input.arrival (i : Input priceBits sizeBits) : Option (Word priceBits sizeBits) :=
  if i.s_axis_tvalid then some i.s_axis_tdata else none

/-! ### One clock edge -/

theorem Tracks.take_eq (h : Tracks s p) : take s = p.taken := by
  simp only [take, BookPipeline.taken, Flight.ready_eq, h.busy1, h.busy2, Queue.deqBits, h.queue]

theorem Tracks.accept_eq (h : Tracks s p) :
    accept s i = p.accepted QUEUE_DEPTH i.arrival := by
  simp only [accept, BookPipeline.accepted, Queue.enqReady, h.queue, Input.arrival]
  by_cases hroom : p.queue.length < QUEUE_DEPTH <;> simp [hroom]

/-- **One edge of one store.**  Whatever the stage does, the store of either side
    follows it, and a word that lands has its whole effect on the side it selects
    and none on the other. -/
theorem Tracks.store_next (h : Tracks s p) {isBid : Bool}
    {store : PriceLevelStore.State depth priceBits sizeBits}
    {levels : Vector (Level priceBits sizeBits) depth}
    (hstore : InStage isBid levels (stageFor (Side.ofBid isBid) p.flight) store) :
    InStage isBid (landOn isBid p.flight.landing levels)
      (stageFor (Side.ofBid isBid) (p.flight.advance p.taken))
      (PriceLevelStore.next isBid store (decode s.word s.doUpdate)
        (s.doUpdate && (decode s.word s.doUpdate).side == Side.ofBid isBid)) := by
  have hupdate := h.doUpdate
  have hfresh : ∀ taken : Option (Word priceBits sizeBits),
      stageFor (Side.ofBid isBid) (Flight.idle.advance taken) = Stage.idle := by
    intro taken
    cases taken <;> rfl
  cases hflight : p.flight with
  | idle =>
    rw [hflight] at hstore hupdate
    rw [hfresh, hupdate]
    exact hstore.stay _
  | loaded w =>
    rw [hflight] at hstore hupdate
    rw [hupdate, h.word w hflight, show (Flight.loaded w).isLoaded = true from rfl]
    by_cases hside : (decode w true).side = Side.ofBid isBid
    · simp only [stageFor, Flight.advance, Flight.landing, landOn, hside, if_true, beq_self_eq_true,
        Bool.and_self]
      exact hstore.start (decode w true)
    · have hother : ((decode w true).side == Side.ofBid isBid) = false := by simpa using hside
      simp only [stageFor, Flight.advance, Flight.landing, landOn, hside, if_false, hother,
        Bool.and_false]
      exact hstore.stay _
  | compared w =>
    rw [hflight] at hstore hupdate
    rw [hupdate]
    by_cases hside : (decode w true).side = Side.ofBid isBid
    · simp only [stageFor, hside, if_true] at hstore
      simp only [stageFor, Flight.advance, Flight.landing, landOn, hside, if_true]
      exact hstore.choose _
    · simp only [stageFor, hside, if_false] at hstore
      simp only [stageFor, Flight.advance, Flight.landing, landOn, hside, if_false]
      exact hstore.stay _
  | decided w =>
    rw [hflight] at hstore hupdate
    change InStage isBid _ (stageFor (Side.ofBid isBid) (Flight.idle.advance p.taken)) _
    rw [hfresh, hupdate]
    by_cases hside : (decode w true).side = Side.ofBid isBid
    · simp only [stageFor, hside, if_true] at hstore
      simp only [Flight.landing, landOn, hside, if_true]
      exact hstore.land _
    · simp only [stageFor, hside, if_false] at hstore
      simp only [Flight.landing, landOn, hside, if_false]
      exact hstore.stay _

/-- What the snapshot register captures on an edge: the book that has landed. -/
theorem Tracks.seq_next (h : Tracks s p) :
    (if s.updateD[STORE_LATENCY - 1] then s.seqD[STORE_LATENCY - 1] else s.seqHold) =
      lastSeq (p.shown ++ p.landed.toList) := by
  have hupdate : s.updateD[STORE_LATENCY - 1] = p.landed.isSome := h.update2
  rw [hupdate]
  cases hlanded : p.landed with
  | none => simpa using h.seqHold
  | some w => exact (h.seq2 w hlanded).trans (lastSeq_append_singleton p.shown w).symm

theorem Tracks.take_isSome (h : Tracks s p) :
    (take s).isSome = (p.flight.advance p.taken).isLoaded := by
  rw [p.isLoaded_advance, h.take_eq]

/-- **One clock edge.**  The next state of the book tracks the next state of the
    pipeline, whatever arrives. -/
theorem Tracks.next (h : Tracks s p) :
    Tracks (next s i) (p.step QUEUE_DEPTH i.arrival) where
  queue := by
    have hitems : (OrderBook.next s i).inQ.items =
        (if p.flight.ready then s.inQ.items.tail else s.inQ.items) ++
          (if s.inQ.enqReady then (accept s i).toList else []) := by
      simp only [OrderBook.next, Queue.next, h.busy1, h.busy2, Flight.ready_eq]
    have hguard : (if s.inQ.enqReady then (accept s i).toList else []) = (accept s i).toList := by
      by_cases hroom : s.inQ.enqReady <;> simp [accept, hroom]
    rw [hitems, hguard, h.accept_eq, h.queue]
    rfl
  busy1 := h.take_isSome
  busy2 := h.busy1.trans (Flight.isCompared_advance _ _).symm
  doUpdate := h.take_isSome
  word := by
    intro w hflight
    have htaken : p.taken = some w := Flight.taken_of_advance_eq_loaded hflight
    simp [OrderBook.next, h.take_eq, htaken]
  bids := by
    rw [bookAfter_applied_step]
    exact h.store_next h.bids
  asks := by
    rw [bookAfter_applied_step]
    exact h.store_next h.asks
  update0 := by
    simp [OrderBook.next, BookPipeline.step, h.doUpdate]
  update1 := by
    simp [OrderBook.next, BookPipeline.step, h.update0]
  update2 := by
    simp [OrderBook.next, BookPipeline.step, h.update1]
  seq0 := by
    intro w hflight
    have hloaded : p.flight = .loaded w := Flight.eq_loaded_of_advance_eq_compared hflight
    simp [OrderBook.next, h.word w hloaded, decode]
  seq1 := by
    intro w hflight
    have hcompared : p.flight = .compared w := Flight.eq_compared_of_advance_eq_decided hflight
    simpa [OrderBook.next] using h.seq0 w hcompared
  seq2 := by
    intro w hlanded
    have hdecided : p.flight = .decided w := Flight.eq_decided_of_landing hlanded
    simpa [OrderBook.next] using h.seq1 w hdecided
  seqHold := h.seq_next
  snap := by
    have hpulse : s.updateD[STORE_LATENCY - 1] = p.landed.isSome := h.update2
    have hseq := h.seq_next
    rw [hpulse] at hseq
    simp only [OrderBook.next, h.bids.store_eq, h.asks.store_eq, hpulse, hseq]
    rfl

/-! ### Runs -/

section Runs

variable {s₀ : State depth priceBits sizeBits} (ins : Nat → Input priceBits sizeBits)

def cycle (s₀ : State depth priceBits sizeBits) (ins : Nat → Input priceBits sizeBits) (t : Nat) :
    State depth priceBits sizeBits :=
  stateAt next s₀ ins t

/-- The messages that arrived in the cycles before `t` while the input queue was
    not full, in arrival order. -/
def kept (s₀ : State depth priceBits sizeBits) (ins : Nat → Input priceBits sizeBits) (t : Nat) :
    List (Word priceBits sizeBits) :=
  collect (fun u => accept (cycle s₀ ins u) (ins u)) t

/-- A message arrives in cycle `t` and the input queue is full. -/
def discards (s₀ : State depth priceBits sizeBits) (ins : Nat → Input priceBits sizeBits)
    (t : Nat) : Bool :=
  (ins t).s_axis_tvalid && !(accept (cycle s₀ ins t) (ins t)).isSome

/-- How many messages that arrived before `t` were not kept. -/
def lost (s₀ : State depth priceBits sizeBits) (ins : Nat → Input priceBits sizeBits) (t : Nat) :
    Nat :=
  highs (discards s₀ ins) t

/-- In how many of the cycles before `t` `snap.valid` was high. -/
def pulses (s₀ : State depth priceBits sizeBits) (ins : Nat → Input priceBits sizeBits) (t : Nat) :
    Nat :=
  highs (fun u => (cycle s₀ ins u).snap.valid) t

variable (hreset : AfterReset s₀)

include hreset

/-- **The whole run tracks the pipeline.** -/
theorem tracks_cycle (t : Nat) :
    Tracks (cycle s₀ ins t)
      (BookPipeline.cycle QUEUE_DEPTH (fun u => (ins u).arrival) t) := by
  induction t with
  | zero => exact hreset.tracks
  | succ t ih => exact ih.next

theorem kept_eq (t : Nat) :
    kept s₀ ins t = BookPipeline.kept QUEUE_DEPTH (fun u => (ins u).arrival) t :=
  collect_congr fun u _ => (tracks_cycle ins hreset u).accept_eq

theorem pulses_succ_eq (t : Nat) :
    pulses s₀ ins (t + 1) =
      (BookPipeline.cycle QUEUE_DEPTH (fun u => (ins u).arrival) t).shown.length := by
  rw [← BookPipeline.highs_pulse]
  unfold pulses
  congr 1
  funext u
  rw [(tracks_cycle ins hreset u).snap]
  rfl

/-- In every cycle the snapshot is the book after the messages shown so far. -/
theorem snap_eq (t : Nat) :
    (cycle s₀ ins t).snap =
      snapshotAfter ((kept s₀ ins t).take (pulses s₀ ins (t + 1)))
        (cycle s₀ ins t).snap.valid := by
  have hsnap := (tracks_cycle ins hreset t).snap
  rw [kept_eq ins hreset, pulses_succ_eq ins hreset, ← BookPipeline.shown_eq_take, hsnap]
  rfl

omit hreset in
theorem isSome_accept (t : Nat) :
    (accept (cycle s₀ ins t) (ins t)).isSome =
      ((ins t).s_axis_tvalid && (cycle s₀ ins t).inQ.enqReady) := by
  unfold accept
  cases (ins t).s_axis_tvalid && (cycle s₀ ins t).inQ.enqReady <;> rfl

theorem counts_dropCount : Counts (discards s₀ ins) fun t => (cycle s₀ ins t).dropCount where
  start := hreset.dropCount
  step t := by
    have hdiscards : discards s₀ ins t =
        ((ins t).s_axis_tvalid && !(cycle s₀ ins t).inQ.enqReady) := by
      rw [discards, isSome_accept]
      cases (ins t).s_axis_tvalid <;> rfl
    rw [hdiscards]
    rfl

/-- Nothing is counted while the queue has room for every arrival. -/
theorem dropCount_of_room
    (hroom : ∀ t, (ins t).s_axis_tvalid = true → (cycle s₀ ins t).inQ.enqReady = true) (t : Nat) :
    (cycle s₀ ins t).dropCount = 0 := by
  apply (counts_dropCount ins hreset).eq_zero
  rw [highs_eq_zero_iff]
  intro u _
  rw [discards, isSome_accept]
  cases hvalid : (ins u).s_axis_tvalid with
  | false => rfl
  | true => simp [hroom u hvalid]

theorem pulses_le_kept (t : Nat) : pulses s₀ ins (t + 1) ≤ (kept s₀ ins t).length := by
  rw [kept_eq ins hreset, pulses_succ_eq ins hreset]
  exact BookPipeline.length_shown_le _ _ t

theorem exists_pulse {t k : Nat} (hk : k < (kept s₀ ins t).length) :
    ∃ u, (cycle s₀ ins u).snap.valid = true ∧ pulses s₀ ins u = k := by
  rw [kept_eq ins hreset] at hk
  obtain ⟨u, -, hshown⟩ := BookPipeline.exists_shown _ _ (Nat.succ_le_of_lt hk)
  rw [← pulses_succ_eq ins hreset] at hshown
  obtain ⟨v, -, hv⟩ := exists_high_of_lt (Nat.lt_of_succ_le hshown)
  exact ⟨v, hv⟩

end Runs

/-! ### The book as its users see it -/

/-- The snapshot register shows the book after `words`: the levels of both sides,
    the floor of the mean of the best prices when both are there, and the last
    sequence number. -/
structure Shows (snap : BookSnapshot depth priceBits sizeBits)
    (words : List (Word priceBits sizeBits)) : Prop where
  bids : snap.bids = (bookAfter words : Book depth priceBits sizeBits).bids
  asks : snap.asks = (bookAfter words : Book depth priceBits sizeBits).asks
  midprice : snap.midprice.toNat =
    if (best snap.bids).valid && (best snap.asks).valid then
      ((best snap.bids).price.toNat + (best snap.asks).price.toNat) / 2
    else 0
  seqNum : snap.seqNum = lastSeq words

/-- **The pipelined book refines the one-message-at-a-time book.**  `kept` is the
    list of messages the input queue had room for, and a pulse is a cycle with
    `snap.valid`. -/
structure RefinesSequential (s₀ : State depth priceBits sizeBits)
    (ins : Nat → Input priceBits sizeBits) : Prop where
  /-- A pulse with `k` pulses before it shows the book after exactly the first `k + 1`
      messages, and message `k + 1` has been kept by then. -/
  pulse : ∀ t k, (cycle s₀ ins t).snap.valid = true → pulses s₀ ins t = k →
    k < (kept s₀ ins t).length ∧ Shows (cycle s₀ ins t).snap ((kept s₀ ins t).take (k + 1))
  complete : ∀ t k, k < (kept s₀ ins t).length →
    ∃! u, (cycle s₀ ins u).snap.valid = true ∧ pulses s₀ ins u = k
  /-- In every cycle the snapshot is the book after the messages whose pulse has
      occurred. -/
  untorn : ∀ t, Shows (cycle s₀ ins t).snap ((kept s₀ ins t).take (pulses s₀ ins (t + 1)))

theorem shows_snapshotAfter (words : List (Word priceBits sizeBits)) (valid : Bool) :
    Shows (snapshotAfter words valid : BookSnapshot depth priceBits sizeBits) words where
  bids := rfl
  asks := rfl
  midprice := midprice_toNat _ _
  seqNum := rfl

section Refinement

variable {s₀ : State depth priceBits sizeBits} (hreset : AfterReset s₀)
  (ins : Nat → Input priceBits sizeBits)

include hreset

theorem shows_cycle (t : Nat) :
    Shows (cycle s₀ ins t).snap ((kept s₀ ins t).take (pulses s₀ ins (t + 1))) := by
  rw [snap_eq ins hreset t]
  exact shows_snapshotAfter _ _

theorem refinesSequential : RefinesSequential s₀ ins where
  pulse := by
    intro t k hvalid hk
    have hcount : pulses s₀ ins (t + 1) = k + 1 := by
      have hsucc := highs_succ (fun u => (cycle s₀ ins u).snap.valid) t
      simp only [hvalid] at hsucc
      exact hsucc.trans (congrArg (· + 1) hk)
    have hle := pulses_le_kept ins hreset t
    refine ⟨by omega, ?_⟩
    rw [← hcount]
    exact shows_cycle hreset ins t
  complete := by
    intro t k hk
    obtain ⟨u, hvalid, hu⟩ := exists_pulse ins hreset hk
    refine ⟨u, ⟨hvalid, hu⟩, ?_⟩
    rintro v ⟨hvalid', hv⟩
    exact eq_of_highs_eq hvalid' hvalid (hv.trans hu.symm)
  untorn := shows_cycle hreset ins

end Refinement

/-- A word in every cycle until the words are through. -/
def inARow (words : List (Word priceBits sizeBits)) (t : Nat) : Input priceBits sizeBits where
  s_axis_tdata := words[t]?.getD 0
  s_axis_tvalid := words[t]?.isSome

theorem valid_inARow (words : List (Word priceBits sizeBits)) (t : Nat) :
    (inARow words t).s_axis_tvalid = decide (t < words.length) := by
  rw [Bool.eq_iff_iff, decide_eq_true_iff]
  exact (isSome_getElem? _ _).to_iff

/-- Seven messages of both sides with an update and a delete, of which the queue has no room
    for the last. -/
def burst : List (Word 32 32) :=
  [pack 100 10 0 1, pack 103 20 1 2, pack 101 30 0 3, pack 102 5 1 4, pack 100 0 0 5,
    pack 101 40 0 6, pack 99 7 0 7]

example : lost (step true (powerUp : State 2 32 32) ⟨0, false⟩) (inARow burst) 7 = 1 := by
  decide +kernel

theorem refinesSequential_burst :
    RefinesSequential (step true (powerUp : State 2 32 32) ⟨0, false⟩) (inARow burst) :=
  refinesSequential (afterReset_powerUp _) _

/-! ### The representation invariant -/

/-- Both sides of the book after any messages are sides of the book in the sense of
    `BookSide`. -/
theorem holds_bookAfter (words : List (Word priceBits sizeBits)) :
    (∃ bids : BookSide true depth priceBits sizeBits,
      Holds (bookAfter words : Book depth priceBits sizeBits).bids bids.entries) ∧
    ∃ asks : BookSide false depth priceBits sizeBits,
      Holds (bookAfter words : Book depth priceBits sizeBits).asks asks.entries := by
  induction words using List.reverseRecOn with
  | nil => exact ⟨⟨.empty, holds_empty⟩, .empty, holds_empty⟩
  | append_singleton words word ih =>
    rcases ih with ⟨⟨bids, hbids⟩, asks, hasks⟩
    rw [bookAfter_append_singleton]
    simp only [applyMsg]
    constructor
    · split_ifs
      · exact ⟨_, hbids.updateOnce _ _⟩
      · exact ⟨_, hbids⟩
    · split_ifs
      · exact ⟨_, hasks.updateOnce _ _⟩
      · exact ⟨_, hasks⟩

theorem wellFormed_bookAfter (words : List (Word priceBits sizeBits)) :
    WellFormed true (bookAfter words : Book depth priceBits sizeBits).bids ∧
      WellFormed false (bookAfter words : Book depth priceBits sizeBits).asks := by
  obtain ⟨⟨_, hbids⟩, _, hasks⟩ := @holds_bookAfter depth _ _ _ words
  exact ⟨hbids.wellFormed, hasks.wellFormed⟩

/-- **The representation invariant holds in every cycle**, also while an update is
    half way through the stages, in both stores and in the snapshot register. -/
theorem wellFormed_cycle {s₀ : State depth priceBits sizeBits} (hreset : AfterReset s₀)
    (ins : Nat → Input priceBits sizeBits) (t : Nat) :
    WellFormed true (cycle s₀ ins t).bidStore.store ∧
      WellFormed false (cycle s₀ ins t).askStore.store ∧
      WellFormed true (cycle s₀ ins t).snap.bids ∧
      WellFormed false (cycle s₀ ins t).snap.asks := by
  have htracks := tracks_cycle ins hreset t
  have hshown := shows_cycle hreset ins t
  rw [htracks.bids.store_eq, htracks.asks.store_eq, hshown.bids, hshown.asks]
  exact ⟨(wellFormed_bookAfter _).1, (wellFormed_bookAfter _).2, wellFormed_bookAfter _⟩

/-- The book while the update of the third message is half way. -/
theorem wellFormed_cycle_burst :
    WellFormed true
        (cycle (step true (powerUp : State 2 32 32) ⟨0, false⟩) (inARow burst) 9).bidStore.store ∧
      WellFormed false
        (cycle (step true (powerUp : State 2 32 32) ⟨0, false⟩) (inARow burst) 9).askStore.store ∧
      WellFormed true
        (cycle (step true (powerUp : State 2 32 32) ⟨0, false⟩) (inARow burst) 9).snap.bids ∧
      WellFormed false
        (cycle (step true (powerUp : State 2 32 32) ⟨0, false⟩) (inARow burst) 9).snap.asks :=
  wellFormed_cycle (afterReset_powerUp _) _ 9

end FeedHandler.OrderBook
