import FeedHandler.CoinbaseFeed
import FeedHandler.FeedOverload
import FeedHandler.GoldenEndToEnd

/-!
# From the feed to the board

The file that the adapter captures is the stream that the board is fed.  A board that keeps
up delivers the signals of snapshots that list what the feed lets rest.  A board that does
not leaves numbers out, and what it leaves out before a record it has counted as lost.
-/

namespace FeedHandler.FeedToBook

open FeedHandler.Parser AxisLayout CoinbaseFeed FeedPipeline GoldenEndToEnd GoldenReplay
open GoldenSignals Level2 OrderBookRef Signals Sync

/-! ### Quotes that the hardware can hold -/

/-- The quotes fit the words of the hardware and their book its levels. -/
structure InScale (quotes : List Quote) : Prop where
  tick : ∀ q ∈ quotes, q.tick < 2 ^ 32
  size : ∀ q ∈ quotes, q.size < 2 ^ 32
  depth : ∀ pre, pre <+: quotes → ∀ isBid, (occupied pre isBid).ncard ≤ DEPTH

/-- The quotes that a replay file carries. -/
def quotesIn (file : List (BitVec 8)) : List Quote := (wireMsgs file).map quoteOf

def quotesOf (msgs : List RawMsg) : List Quote := (msgs.map ofRaw).map quoteOf

theorem quotesIn_flatMap (msgs : List RawMsg) :
    quotesIn (msgs.flatMap encodeMsg) = quotesOf msgs := by
  rw [quotesIn, wireMsgs_flatMap, quotesOf]

theorem fits_iff {m : RawMsg} :
    Fits m ↔ (quoteOf (ofRaw m)).tick < 2 ^ 32 ∧ (quoteOf (ofRaw m)).size < 2 ^ 32 := by
  have hsize : (quoteOf (ofRaw m)).size < 2 ^ 32 ↔
      m.msg_type = DELETE ∨ m.size_raw.toNat < 2 ^ 32 := by
    change (if m.msg_type = DELETE then 0 else m.size_raw.toNat) < 2 ^ 32 ↔ _
    split_ifs with htype <;> simp [htype]
  rw [hsize]
  rfl

/-- Records with a type and a side of the feed are in scale if the two runs compare on them. -/
theorem inScale_iff {msgs : List RawMsg} (hroutable : ∀ m ∈ msgs, Routable (ofRaw m)) :
    InScale (quotesOf msgs) ↔ Comparable msgs := by
  have hlevels : ∀ pre isBid, (occupied (quotesOf pre) isBid).ncard =
      GoldenAgreement.liveLevels isBid (GoldenReplay.bookAfter (pre.map ofRaw)) := by
    intro pre isBid
    rw [quotesOf, ncard_occupied, GoldenAgreement.length_ladder]
  constructor
  · intro hscale
    refine ⟨fun m hm => ⟨hroutable m hm, fits_iff.mpr ?_⟩, fun pre hpre isBid => ?_⟩
    · have hquote := List.mem_map_of_mem (f := quoteOf) (List.mem_map_of_mem (f := ofRaw) hm)
      exact ⟨hscale.tick _ hquote, hscale.size _ hquote⟩
    · rw [← hlevels]
      exact hscale.depth _ ((hpre.map ofRaw).map quoteOf) isBid
  · intro hcomparable
    have hquotes : ∀ q ∈ quotesOf msgs, q.tick < 2 ^ 32 ∧ q.size < 2 ^ 32 := by
      simp only [quotesOf, List.forall_mem_map]
      exact fun m hm => fits_iff.mp (hcomparable.readable m hm).2
    refine ⟨fun q hq => (hquotes q hq).1, fun q hq => (hquotes q hq).2, fun seg hseg isBid => ?_⟩
    obtain ⟨wire, hwire, rfl⟩ := List.prefix_map_iff.mp hseg
    obtain ⟨pre, hpre, rfl⟩ := List.prefix_map_iff.mp hwire
    exact (hlevels pre isBid).le.trans (hcomparable.neverFull pre hpre isBid)

/-! ### What the snapshots list -/

/-- The snapshot lists what rests after the quotes, each side best first. -/
def Lists (snap : BookSnap) (quotes : List Quote) : Prop :=
  ∀ isBid,
    ((levelsOf (sideOf isBid snap)).Pairwise fun e e' =>
      tickRank isBid e.1 < tickRank isBid e'.1) ∧
    ∀ tick size, (tick, size) ∈ levelsOf (sideOf isBid snap) ↔
      resting quotes isBid tick = some size

theorem lists_snapAfter {msgs : List RawMsg} {m : RawMsg} (h : Comparable (msgs ++ [m])) :
    Lists (snapAfter (wordsOf (msgs ++ [m]))) (quotesOf (msgs ++ [m])) := by
  intro isBid
  have hlength : ((GoldenReplay.bookAfter ((msgs ++ [m]).map ofRaw)).ladder isBid).length ≤
      DEPTH := by
    rw [GoldenAgreement.length_ladder]
    exact h.neverFull _ (List.prefix_refl _) isBid
  have hall : levelsOf (sideOf isBid (snapAfter (wordsOf (msgs ++ [m])))) =
      (GoldenReplay.bookAfter ((msgs ++ [m]).map ofRaw)).ladder isBid := by
    rw [levelsOf_eq_top h.sameLevels, top_bookAfter, List.take_of_length_le hlength]
  rw [hall]
  exact ⟨ascending_ladder _ _, fun tick size => mem_ladder_bookAfter⟩

/-! ### A board that keeps up -/

section Captured

variable {F : Type} [PyFloat F] {n : Int} {frames : List (Except PyError (Json F))} {b : Board}

/-- **From the feed to the board.**  A board fed a captured file whose quotes are in scale
    delivers, in order and in the end all of them, the signals of one snapshot for each
    quote of the messages taken, and each snapshot lists exactly what rests then. -/
theorem delivers_feed (hboard : Scheduled (capture n frames).1.file b)
    (hscale : InScale (quotesIn (capture n frames).1.file)) :
    (∃ taken uss, taken <+: frames ∧ ((capture n frames).2 = .closed → taken = frames) ∧
      updatesOf taken = .ok uss ∧
      uss.flatten.mapM quote = .ok (quotesIn (capture n frames).1.file)) ∧
    ∃ snaps, List.Forall₂ Lists snaps (leading id (quotesIn (capture n frames).1.file)) ∧
      (∀ t, b.delivered t <+: snaps.map computeSignals) ∧
      ∃ T, ∀ t, T ≤ t → b.delivered t = snaps.map computeSignals := by
  obtain ⟨taken, uss, msgs, htaken, huss, hholds, hclosed⟩ := capture_holds n frames
  rw [hholds.file] at hboard hscale ⊢
  rw [quotesIn_flatMap] at hscale ⊢
  have hcomparable := (inScale_iff hholds.routable).mp hscale
  have hrecords : records msgs =
      (leading (fun ms => snapAfter (wordsOf ms)) msgs).map computeSignals := by
    rw [records_eq hcomparable.readable, map_leading]
  refine ⟨⟨taken, uss, htaken, hclosed, huss, mapM_quote hholds.recorded.sent⟩,
    leading (fun ms => snapAfter (wordsOf ms)) msgs, ?_, ?_, ?_⟩
  · rw [quotesOf, leading_map, leading_map]
    exact forall₂_leading fun _ _ hpre => lists_snapAfter (hcomparable.isPrefix hpre)
  · intro t
    rw [← hrecords]
    exact delivered_isPrefix hboard t
  · obtain ⟨T, hall⟩ := exists_delivered hboard
    exact ⟨T, fun t hle => (hall t hle).trans hrecords⟩

end Captured

/-- Whole numbers, of which every float operation of the adapter is exact. -/
instance wholeFloat : PyFloat Int where
  ofStr _ := .error .ValueError
  ofInt n := .ok n
  isZero n := n == 0
  isPos n := decide (0 < n)
  roundMul n scale := .ok (n * scale)

def update (side : String) (price_level new_quantity : Int) : Json Int :=
  .obj [("side", .str side), ("price_level", .int price_level),
    ("new_quantity", .int new_quantity)]

/-- A snapshot of two bids and an ask, and an update that deletes the better bid, quotes the
    other one and another ask, and then the best ask three times. -/
def twoFrames : List (Except PyError (Json Int)) :=
  [.ok (.obj [("channel", .str "l2_data"), ("events", .arr [.obj [("type", .str "snapshot"),
      ("updates", .arr [update "bid" 1850 3, update "bid" 1849 2, update "offer" 1852 1])]])]),
    .ok (.obj [("channel", .str "l2_data"), ("events", .arr [.obj [("type", .str "update"),
      ("updates", .arr [update "bid" 1850 0, update "bid" 1849 5, update "offer" 1853 2,
        update "offer" 1852 6, update "offer" 1852 9, update "offer" 1852 4])]])])]

/-- The records of the updates. -/
def twoFramesMsgs : List RawMsg :=
  [⟨ADD, 0, 1, 185000000000, 3000000⟩, ⟨ADD, 0, 2, 184900000000, 2000000⟩,
    ⟨ADD, 1, 3, 185200000000, 1000000⟩, ⟨DELETE, 0, 4, 185000000000, 0⟩,
    ⟨UPDATE, 0, 5, 184900000000, 5000000⟩, ⟨UPDATE, 1, 6, 185300000000, 2000000⟩,
    ⟨UPDATE, 1, 7, 185200000000, 6000000⟩, ⟨UPDATE, 1, 8, 185200000000, 9000000⟩,
    ⟨UPDATE, 1, 9, 185200000000, 4000000⟩]

theorem file_twoFrames : (capture 0 twoFrames).1.file = twoFramesMsgs.flatMap encodeMsg := by
  decide +kernel

theorem inScale_twoFrames : InScale (quotesIn (capture 0 twoFrames).1.file) := by
  have hroutable : ∀ m ∈ twoFramesMsgs, Routable (ofRaw m) := by decide
  rw [file_twoFrames, quotesIn_flatMap, inScale_iff hroutable]
  exact ⟨by decide, by decide +kernel⟩

theorem delivers_feed_twoFrames :
    (∃ taken uss, taken <+: twoFrames ∧ ((capture 0 twoFrames).2 = .closed → taken = twoFrames) ∧
      updatesOf taken = .ok uss ∧
      uss.flatten.mapM quote = .ok (quotesIn (capture 0 twoFrames).1.file)) ∧
    ∃ snaps, List.Forall₂ Lists snaps (leading id (quotesIn (capture 0 twoFrames).1.file)) ∧
      (∀ t, (pacedBoard (capture 0 twoFrames).1.file).delivered t <+:
        snaps.map computeSignals) ∧
      ∃ T, ∀ t, T ≤ t →
        (pacedBoard (capture 0 twoFrames).1.file).delivered t = snaps.map computeSignals :=
  delivers_feed (scheduled_pacedBoard _) inScale_twoFrames

/-! ### A board that does not -/

theorem sublistForall₂_of_sublist {α β : Type} {R : α → β → Prop} {xs ys : List α} {zs : List β}
    (hsub : xs.Sublist ys) (h : List.Forall₂ R ys zs) : List.SublistForall₂ R xs zs := by
  induction hsub generalizing zs with
  | slnil => exact .nil
  | cons y _ ih =>
    cases h with
    | cons _ htail => exact .cons_right (ih htail)
  | cons_cons y _ ih =>
    cases h with
    | cons hhead htail => exact .cons hhead (ih htail)

/-- **A board that is overrun is one that missed messages.**  Whatever the load, some of the
    messages are those whose words the book has kept; if a replay of these can be compared,
    every record delivered is a golden snapshot of it, in order. -/
theorem misses_messages {b : Board} {msgs : List RawMsg} (hreset : OrderBook.AfterReset b.book₀)
    (hstream : ∀ t, collect b.message t <+: (feedParser (msgs.flatMap encodeMsg)).words)
    (t : Nat) :
    ∃ ms, ms.Sublist msgs ∧ b.kept t = wordsOf ms ∧
      (Comparable ms →
        List.SublistForall₂ SameRecord (b.delivered t) (processReplay (ms.flatMap encodeMsg))) := by
  have hkept : (b.kept t).Sublist (wordsOf (msgs.filter RawMsg.known)) := by
    have hwords := ((hstream t).map bookWord).sublist
    rw [feedParser_flatMap, List.map_map] at hwords
    exact (kept_sublist b t).trans hwords
  obtain ⟨ms, hms, hwordsOf⟩ := List.sublist_map_iff.mp hkept
  refine ⟨ms, hms.trans List.filter_sublist, hwordsOf, fun hcomparable => ?_⟩
  have hdelivered : (b.delivered t).Sublist (records ms) := by
    have hrecords := delivered_sublist hreset t
    rw [hwordsOf, leading_map] at hrecords
    rw [records_eq hcomparable.readable]
    exact hrecords
  exact sublistForall₂_of_sublist hdelivered hcomparable.sameRecords

/-- A board fed the words of a stream in consecutive cycles. -/
def burstBoard (stream : List (BitVec 8)) : Board :=
  { pacedBoard stream with
    out_msgs_tdata := fun t => ((feedParser stream).words[t]?).getD 0
    out_msgs_tvalid := fun t => ((feedParser stream).words[t]?).isSome }

theorem message_burstBoard (stream : List (BitVec 8)) (t : Nat) :
    (burstBoard stream).message t = (feedParser stream).words[t]? := by
  cases hword : (feedParser stream).words[t]? <;> simp [Board.message, burstBoard, hword]

theorem collect_burstBoard (stream : List (BitVec 8)) (t : Nat) :
    collect (burstBoard stream).message t = (feedParser stream).words.take t := by
  induction t with
  | zero => rfl
  | succ t ih => rw [collect_succ, ih, message_burstBoard, List.take_add_one]

theorem collect_burstBoard_isPrefix (stream : List (BitVec 8)) (t : Nat) :
    collect (burstBoard stream).message t <+: (feedParser stream).words := by
  rw [collect_burstBoard]
  exact List.take_prefix _ _

/-- The board that gets the nine messages in as many cycles. -/
def overrunBoard : Board := burstBoard (twoFramesMsgs.flatMap encodeMsg)

theorem reset_overrunBoard : OrderBook.AfterReset overrunBoard.book₀ :=
  OrderBook.afterReset_powerUp _

theorem collect_overrunBoard_isPrefix (t : Nat) :
    collect overrunBoard.message t <+: (feedParser (twoFramesMsgs.flatMap encodeMsg)).words :=
  collect_burstBoard_isPrefix _ t

theorem accepts_overrunBoard :
    OrderBook.accepts overrunBoard.book₀ overrunBoard.bookInput =
      BookPipeline.accepts OrderBook.QUEUE_DEPTH fun u => (wordsOf twoFramesMsgs)[u]? := by
  have harrival : (fun u => (overrunBoard.bookInput u).arrival) =
      fun u => (wordsOf twoFramesMsgs)[u]? := by
    funext u
    have hknown : twoFramesMsgs.filter RawMsg.known = twoFramesMsgs := by decide
    rw [arrival_eq, overrunBoard, message_burstBoard, feedParser_flatMap, hknown,
      ← List.getElem?_map, List.map_map]
    rfl
  rw [OrderBook.accepts_eq reset_overrunBoard, harrival]

/-- The last message, which quotes the best ask again. -/
def requote : RawMsg := ⟨UPDATE, 1, 9, 185200000000, 4000000⟩

/-- The queue has no room for the seventh and the eighth. -/
theorem kept_overrunBoard : overrunBoard.kept 9 = wordsOf (twoFramesMsgs.take 6 ++ [requote]) := by
  change collect (OrderBook.accepts overrunBoard.book₀ overrunBoard.bookInput) 9 = _
  rw [accepts_overrunBoard]
  decide +kernel

theorem bookLost_overrunBoard : overrunBoard.bookLost 9 = 2 := by
  have hkept : (overrunBoard.kept 9).length = 7 := congrArg List.length kept_overrunBoard
  have hwords : (collect overrunBoard.message 9).length = 9 := by
    rw [overrunBoard, collect_burstBoard, feedParser_flatMap]
    rfl
  have hall := length_message_eq overrunBoard 9
  omega

theorem misses_messages_twoFrames :
    overrunBoard.bookLost 9 = 2 ∧
    ∃ ms, ms.Sublist twoFramesMsgs ∧ overrunBoard.kept 400 = wordsOf ms ∧
      (Comparable ms →
        List.SublistForall₂ SameRecord (overrunBoard.delivered 400)
          (processReplay (ms.flatMap encodeMsg))) :=
  ⟨bookLost_overrunBoard,
    misses_messages (b := overrunBoard) reset_overrunBoard collect_overrunBoard_isPrefix 400⟩

/-- By the end of cycle `u` the parser has emitted the words of `seen` and then that of `m`,
    which the book keeps after those of `ms`. -/
structure Heard (b : Board) (u : Nat) (m : RawMsg) (seen ms : List RawMsg) : Prop where
  emitted : (collect b.message (u + 1)).map bookWord = wordsOf (seen ++ [m])
  kept : b.kept (u + 1) = wordsOf (ms ++ [m])
  sublist : ms.Sublist seen

theorem wordsOf_append_singleton (msgs : List RawMsg) (m : RawMsg) :
    wordsOf (msgs ++ [m]) = wordsOf msgs ++ [bookWord (packNorm m.norm)] := List.map_append

theorem exists_heard {b : Board} {msgs : List RawMsg} (hknown : ∀ m ∈ msgs, m.known = true)
    {u : Nat} {w : AxisWord} (hmessage : b.message u = some w)
    (hnow : b.kept (u + 1) = b.kept u ++ [bookWord w])
    (hstream : collect b.message (u + 1) <+: (feedParser (msgs.flatMap encodeMsg)).words) :
    ∃ m seen ms, seen ++ [m] <+: msgs ∧ Heard b u m seen ms := by
  have hemitted : collect b.message (u + 1) = collect b.message u ++ [w] := by
    rw [collect_succ, hmessage]
    rfl
  rw [feedParser_flatMap, List.filter_eq_self.mpr hknown, List.prefix_map_iff] at hstream
  obtain ⟨all, hall, hwords⟩ := hstream
  rcases List.eq_nil_or_concat' all with rfl | ⟨seen, m, rfl⟩
  · rw [hemitted] at hwords
    simp at hwords
  · rw [hemitted, List.map_append, List.map_singleton] at hwords
    obtain ⟨hseen, hm⟩ := List.append_inj' hwords (List.length_singleton.trans
      List.length_singleton.symm)
    have hword : bookWord w = bookWord (packNorm m.norm) :=
      congrArg bookWord (List.singleton_inj.mp hm)
    have hbefore : (collect b.message u).map bookWord = wordsOf seen :=
      (congrArg (List.map bookWord) hseen).trans List.map_map
    have hsub := kept_sublist b u
    rw [hbefore] at hsub
    obtain ⟨ms, hms, hkept⟩ := List.sublist_map_iff.mp hsub
    refine ⟨m, seen, ms, hall, ?_, ?_, hms⟩
    · rw [hemitted, List.map_append, hbefore, List.map_singleton, hword]
      exact (wordsOf_append_singleton seen m).symm
    · rw [hnow, hkept, hword]
      exact (wordsOf_append_singleton ms m).symm

/-- **What is quoted again heals.**  Whatever the load and whatever has been lost, the record
    delivered in place `k` is that of the messages kept up to its own; if those left out are of
    prices quoted again since, its snapshot lists what rests after all the messages seen. -/
theorem requoted_heals {b : Board} {msgs : List RawMsg} (hreset : OrderBook.AfterReset b.book₀)
    (hknown : ∀ m ∈ msgs, m.known = true)
    (hstream : ∀ t, collect b.message t <+: (feedParser (msgs.flatMap encodeMsg)).words)
    {t k : Nat} {out : SignalOut} (hout : (b.delivered t)[k]? = some out) :
    ∃ u v, Passes b k u v ∧ u ≤ v ∧ v < t ∧
      (∃ m seen ms, seen ++ [m] <+: msgs ∧ Heard b u m seen ms) ∧
      ∀ m seen ms, Heard b u m seen ms →
        out = computeSignals (snapAfter (wordsOf (ms ++ [m]))) ∧
        (Comparable (ms ++ [m]) → Conflated (quotesOf (seen ++ [m])) (quotesOf (ms ++ [m])) →
          Lists (snapAfter (wordsOf (ms ++ [m]))) (quotesOf (seen ++ [m]))) := by
  obtain ⟨u, v, w, hpasses, huv, hlt, hmessage, hnow, hrecord⟩ := exists_passes hreset hout
  refine ⟨u, v, hpasses, huv, hlt, exists_heard hknown hmessage hnow (hstream (u + 1)), ?_⟩
  intro m seen ms hheard
  refine ⟨by rw [hrecord, hheard.kept]; rfl, fun hcomparable hconflated isBid => ?_⟩
  obtain ⟨hbest, hlisted⟩ := lists_snapAfter hcomparable isBid
  refine ⟨hbest, fun tick size => ?_⟩
  rw [hlisted, hconflated.resting_eq]

theorem fifoLost_overrunBoard (t : Nat) : overrunBoard.fifoLost t = 0 := by
  apply fifoLost_eq_zero
  intro u
  have htaken := (taken_isPrefix reset_overrunBoard (u - (overrunBoard.latency + 5))).length_le
  have hkept := (kept_sublist overrunBoard (u - (overrunBoard.latency + 5))).length_le
  have hwords := (collect_overrunBoard_isPrefix (u - (overrunBoard.latency + 5))).length_le
  have hnine : (feedParser (twoFramesMsgs.flatMap encodeMsg)).words.length = 9 := by
    rw [feedParser_flatMap]
    rfl
  rw [List.length_map] at hkept
  rw [length_record_of_taken reset_overrunBoard]
  omega

theorem exists_delivered_overrunBoard :
    ∃ T, leading recordAfter (wordsOf (twoFramesMsgs.take 6 ++ [requote])) <+:
      overrunBoard.delivered T := by
  rw [← kept_overrunBoard]
  exact ⟨_, leading_kept_isPrefix_delivered reset_overrunBoard (scheduled_pacedBoard []).read
    (fifoLost_overrunBoard _)⟩

theorem heard_overrunBoard :
    Heard overrunBoard 8 requote (twoFramesMsgs.take 8) (twoFramesMsgs.take 6) where
  emitted := by
    rw [overrunBoard, collect_burstBoard, feedParser_flatMap]
    rfl
  kept := kept_overrunBoard
  sublist := by decide

/-- Two quotes of the best ask are lost, and the record of the third shows the whole book. -/
theorem requoted_heals_twoFrames :
    ∃ t out, (overrunBoard.delivered t)[6]? = some out ∧
      out = computeSignals (snapAfter (wordsOf (twoFramesMsgs.take 6 ++ [requote]))) ∧
      Lists (snapAfter (wordsOf (twoFramesMsgs.take 6 ++ [requote]))) (quotesOf twoFramesMsgs) := by
  obtain ⟨T, hT⟩ := exists_delivered_overrunBoard
  have hout := List.prefix_iff_getElem?.mp hT 6 (by decide)
  obtain ⟨u, v, hpasses, -, -, -, hall⟩ :=
    requoted_heals reset_overrunBoard (by decide) collect_overrunBoard_isPrefix hout
  have hlast : Occurs (OrderBook.accepts overrunBoard.book₀ overrunBoard.bookInput) 6
      (bookWord (packNorm requote.norm)) 8 := by
    rw [accepts_overrunBoard]
    exact ⟨by decide +kernel, by decide +kernel⟩
  obtain ⟨w, hbook⟩ := hpasses.book
  rw [fifoLost_overrunBoard] at hbook
  obtain rfl : u = 8 := hbook.cycle_eq hlast
  obtain ⟨hrecord, hlists⟩ := hall _ _ _ heard_overrunBoard
  have hcomparable : Comparable (twoFramesMsgs.take 6 ++ [requote]) :=
    ⟨by decide, by decide +kernel⟩
  have hconflated : Conflated (quotesOf (twoFramesMsgs.take 8 ++ [requote]))
      (quotesOf (twoFramesMsgs.take 6 ++ [requote])) :=
    .keep _ (.keep _ (.keep _ (.keep _ (.keep _ (.keep _ (.drop (.head _) rfl rfl
      (.drop (.head _) rfl rfl (.keep _ .nil))))))))
  exact ⟨T, _, hout, hrecord, hlists hcomparable hconflated⟩

section Numbers

variable {F : Type} [PyFloat F] {n : Int} {frames : List (Except PyError (Json F))} {b : Board}

/-- The word in a place of the stream has the number of the place. -/
theorem seqNum_words {k : Nat} {w : AxisWord}
    (h : (feedParser (capture n frames).1.file).words[k]? = some w) :
    (OrderBook.decode (bookWord w) true).seqNum.toNat = k + 1 := by
  obtain ⟨_, _, msgs, -, -, hholds, -⟩ := capture_holds n frames
  rw [hholds.file, feedParser_flatMap, hholds.filter_known, List.getElem?_map,
    Option.map_eq_some_iff] at h
  rcases h with ⟨m, hm, rfl⟩
  have hseqs := congrArg (fun seqs => seqs[k]?) hholds.recorded.seqs
  simp only [List.getElem?_map, hm, Option.map_some] at hseqs
  rw [decode_bookWord]
  obtain ⟨hk, hseq⟩ := List.getElem?_eq_some_iff.mp hseqs.symm
  rw [List.getElem_range', Nat.one_mul, Nat.zero_add] at hseq
  exact hseq.symm.trans (Nat.add_comm 1 k)

theorem seq_num_of_delivered (hreset : OrderBook.AfterReset b.book₀)
    (hstream : ∀ t, collect b.message t <+: (feedParser (capture n frames).1.file).words)
    {t k : Nat} {out : SignalOut} (hout : (b.delivered t)[k]? = some out) :
    ∃ u v, Passes b k u v ∧ v < t ∧ out = recordAfter (b.kept (u + 1)) ∧
      out.seq_num.toNat = k + 1 + b.fifoLost v + b.bookLost u := by
  obtain ⟨u, v, w, hpasses, -, hlt, hw, hkept, hrecord⟩ := exists_passes hreset hout
  have hstands := getElem?_collect_of_lt (Nat.lt_succ_self u) hw
  obtain ⟨hplace, hword⟩ := List.getElem?_eq_some_iff.mp hstands
  have hnumber := seqNum_words ((List.prefix_iff_getElem?.mp (hstream (u + 1)) _ hplace).trans
    (congrArg some hword))
  refine ⟨u, v, hpasses, hlt, hrecord, ?_⟩
  rw [hrecord, hkept, seq_num_recordAfter, hnumber, length_message_eq, hpasses.length_kept]
  omega

/-- **Every gap has been counted.**  Whatever the load, each delivered record is that of the
    words kept up to its own, and from the cycles in which one passed to those of a later one
    the numbers go up by one for each record delivered, each record that the FIFO and each word
    that the book counts as lost. -/
theorem gaps_counted (hreset : OrderBook.AfterReset b.book₀)
    (hstream : ∀ t, collect b.message t <+: (feedParser (capture n frames).1.file).words)
    {t j k : Nat} (hjk : j < k) {out out' : SignalOut} (hj : (b.delivered t)[j]? = some out)
    (hk : (b.delivered t)[k]? = some out') :
    ∃ u v u' v', Passes b j u v ∧ Passes b k u' v' ∧ u < u' ∧ v < v' ∧ v' < t ∧
      out = recordAfter (b.kept (u + 1)) ∧ out' = recordAfter (b.kept (u' + 1)) ∧
      out'.seq_num.toNat = out.seq_num.toNat + (k - j) + (b.fifoLost v' - b.fifoLost v) +
        (b.bookLost u' - b.bookLost u) := by
  obtain ⟨u, v, hpasses, -, hrecord, hseq⟩ := seq_num_of_delivered hreset hstream hj
  obtain ⟨u', v', hpasses', hlt, hrecord', hseq'⟩ := seq_num_of_delivered hreset hstream hk
  obtain ⟨hu, hv⟩ := hpasses.lt hpasses' hjk
  have hbook : b.bookLost u ≤ b.bookLost u' := highs_mono hu.le
  have hfifo : b.fifoLost v ≤ b.fifoLost v' := highs_mono hv.le
  exact ⟨u, v, u', v', hpasses, hpasses', hu, hv, hlt, hrecord, hrecord', by omega⟩

end Numbers

/-- The sixth and the ninth message are the last two that the board keeps. -/
theorem gaps_counted_twoFrames :
    ∃ t out out', (overrunBoard.delivered t)[5]? = some out ∧
      (overrunBoard.delivered t)[6]? = some out' ∧
      out.seq_num = 6 ∧ out'.seq_num = 9 ∧
      ∃ u v u' v', Passes overrunBoard 5 u v ∧ Passes overrunBoard 6 u' v' ∧ u < u' ∧ v < v' ∧
        v' < t ∧ out = recordAfter (overrunBoard.kept (u + 1)) ∧
        out' = recordAfter (overrunBoard.kept (u' + 1)) ∧
        out'.seq_num.toNat = out.seq_num.toNat + (6 - 5) +
          (overrunBoard.fifoLost v' - overrunBoard.fifoLost v) +
          (overrunBoard.bookLost u' - overrunBoard.bookLost u) := by
  obtain ⟨T, hT⟩ := exists_delivered_overrunBoard
  have hstream : ∀ t, collect overrunBoard.message t <+:
      (feedParser (capture 0 twoFrames).1.file).words := by
    rw [file_twoFrames]
    exact collect_overrunBoard_isPrefix
  have hnumbers : (leading recordAfter (wordsOf (twoFramesMsgs.take 6 ++ [requote]))).map
      SignalOut.seq_num = [1, 2, 3, 4, 5, 6, 9] := by
    rw [seq_num_leading]
    decide +kernel
  have hsixth := List.prefix_iff_getElem?.mp hT 5 (by decide)
  have hninth := List.prefix_iff_getElem?.mp hT 6 (by decide)
  refine ⟨T, _, _, hsixth, hninth, ?_, ?_,
    gaps_counted reset_overrunBoard hstream (by decide) hsixth hninth⟩
  · rw [← List.getElem_map SignalOut.seq_num (h := by rw [hnumbers]; decide)]
    simp only [hnumbers]
    rfl
  · rw [← List.getElem_map SignalOut.seq_num (h := by rw [hnumbers]; decide)]
    simp only [hnumbers]
    rfl

end FeedHandler.FeedToBook
