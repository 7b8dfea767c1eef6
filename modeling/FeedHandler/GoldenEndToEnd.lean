import FeedHandler.FeedLatency
import FeedHandler.GoldenReplay
import FeedHandler.GoldenSignals

/-!
# From bytes to the golden records

The hardware and the golden model read one replay file.  Where the parser reads every
message as the golden model does and the golden book never outgrows the store, the record
the board delivers for message `k` is the golden snapshot after message `k`, field by
field: all signals but the spread of a crossed book and an average that leaves its word.
The diff of such records finds fault only with a golden spread below the tolerance.
-/

namespace FeedHandler.GoldenEndToEnd

open FeedHandler.Parser GoldenAgreement GoldenReplay GoldenSignals PriceLevelStore Signals Sync
open AxisLayout FeedPipeline

/-! ### Files that can be compared -/

/-- Both runs read the message alike: the parser knows its type and takes its side byte, and
    its price and size fit their fields. -/
def Readable (m : RawMsg) : Prop := Routable (ofRaw m) ∧ Fits m

instance (m : RawMsg) : Decidable (Readable m) := inferInstanceAs (Decidable (_ ∧ _))

/-- Neither golden side ever holds more levels than the store. -/
def NeverFull (msgs : List RawMsg) : Prop :=
  ∀ pre, pre <+: msgs →
    ∀ isBid, liveLevels isBid (GoldenReplay.bookAfter (pre.map ofRaw)) ≤ DEPTH

instance (msgs : List RawMsg) : Decidable (NeverFull msgs) :=
  decidable_of_iff (∀ pre ∈ msgs.inits, ∀ isBid,
    liveLevels isBid (GoldenReplay.bookAfter (pre.map ofRaw)) ≤ DEPTH) (by
      simp only [NeverFull, List.mem_inits])

/-- A replay the two runs can be compared on. -/
structure Comparable (msgs : List RawMsg) : Prop where
  readable : ∀ m ∈ msgs, Readable m
  neverFull : NeverFull msgs

theorem Comparable.isPrefix {pre msgs : List RawMsg} (h : Comparable msgs) (hpre : pre <+: msgs) :
    Comparable pre where
  readable := fun m hm => h.readable m (hpre.subset hm)
  neverFull := fun seg hseg => h.neverFull seg (hseg.trans hpre)

/-! ### Both runs as deliveries of normalized messages -/

/-- The message as the order book gets it, in the golden model's terms. -/
def normalized (m : RawMsg) : Normalized where
  msg_type := m.msg_type
  side := m.norm.side
  price := m.norm.price
  size := m.norm.size
  seqNum := m.seq_num
  delete_size := fun htype => if_pos htype

/-- The message and the shortest gap after it. -/
def delivery (m : RawMsg) : Delivery where
  msg := normalized m
  idle := (bidAt 0#32 0#32).idle
  spaced := (bidAt 0#32 0#32).spaced

theorem replay_normalized {m : RawMsg} (h : Readable m) (ref : OrderBookRef) :
    (normalized m).replay ref = applyMsg ref (ofRaw m) := by
  obtain ⟨⟨-, hside⟩, hfits⟩ := h
  have hticks : m.norm.price.toNat * TICK_SIZE / TICK_SIZE = m.price_raw.toNat / TICK_SIZE := by
    rw [Nat.mul_div_cancel _ (by decide), toNat_norm_price, Nat.mod_eq_of_lt hfits.1]
  have hsize : ∀ book : Dict Nat Nat,
      OrderBookRef.applyTo book m.msg_type (m.price_raw.toNat / TICK_SIZE) m.norm.size.toNat =
        OrderBookRef.applyTo book m.msg_type (m.price_raw.toNat / TICK_SIZE)
          m.size_raw.toNat := by
    intro book
    rw [toNat_norm_size_of_fits hfits]
    unfold OrderBookRef.applyTo
    split_ifs with htype <;> simp_all
  have hzero : m.norm.side.toNat = 0 ↔ m.side.toNat = 0 := by
    change m.side.toNat = 0 ∨ m.side.toNat % 2 = 1 at hside
    rw [toNat_norm_side]
    omega
  change ref.apply m.msg_type m.norm.side.toNat (m.norm.price.toNat * TICK_SIZE)
      m.norm.size.toNat =
    ref.apply m.msg_type m.side.toNat m.price_raw.toNat m.size_raw.toNat
  simp only [OrderBookRef.apply, hticks, hsize]
  by_cases hbid : m.side.toNat = 0
  · rw [if_pos (hzero.mpr hbid), if_pos hbid]
  · rw [if_neg fun hask => hbid (hzero.mp hask), if_neg hbid]

theorem refFrom_delivery {msgs : List RawMsg} (h : ∀ m ∈ msgs, Readable m) (ref : OrderBookRef) :
    refFrom ref (msgs.map delivery) = (msgs.map ofRaw).foldl applyMsg ref := by
  induction msgs generalizing ref with
  | nil => rfl
  | cons m msgs ih =>
    have hfirst : (delivery m).msg.replay ref = applyMsg ref (ofRaw m) :=
      replay_normalized (h m List.mem_cons_self) ref
    rw [List.map_cons, List.map_cons, List.foldl_cons, ← hfirst,
      ← ih fun m' hm' => h m' (List.mem_cons_of_mem m hm')]
    rfl

theorem refAfter_delivery {msgs : List RawMsg} (h : ∀ m ∈ msgs, Readable m) :
    refAfter DEPTH (msgs.map delivery) = GoldenReplay.bookAfter (msgs.map ofRaw) :=
  refFrom_delivery h (.init DEPTH)

theorem Comparable.neverOver {msgs : List RawMsg} (h : Comparable msgs) (isBid : Bool) :
    NeverOver isBid DEPTH (msgs.map delivery) := by
  intro pre hpre
  obtain ⟨raw, hraw, rfl⟩ := List.prefix_map_iff.mp hpre
  rw [refAfter_delivery (h.isPrefix hraw).readable]
  exact h.neverFull raw hraw isBid

/-! ### The same levels after every message -/

/-- The side of the hardware book after the messages. -/
def sideAfter {depth : Nat} [NeZero depth] (isBid : Bool) (msgs : List RawMsg) :
    BookSide isBid depth 32 32 :=
  sideFrom .empty (msgs.map delivery)

theorem holds_bookOf (msgs : List RawMsg) :
    Holds (bookOf msgs).bids (sideAfter true msgs : BookSide true 10 32 32).entries ∧
      Holds (bookOf msgs).asks (sideAfter false msgs : BookSide false 10 32 32).entries := by
  induction msgs using List.reverseRecOn with
  | nil => exact ⟨holds_empty, holds_empty⟩
  | append_singleton msgs m ih =>
    have hbook : bookOf (msgs ++ [m]) = OrderBook.applyMsg (bookOf msgs) (marketMsg m) := by
      rw [bookOf, List.foldl_append]
      rfl
    have hside : ∀ isBid, (sideAfter isBid (msgs ++ [m]) : BookSide isBid 10 32 32) =
        onSide (sideAfter isBid msgs) (normalized m) := by
      intro isBid
      rw [sideAfter, List.map_append, sideFrom, List.foldl_append]
      rfl
    rw [hbook, hside, hside]
    unfold onSide Normalized.On OrderBook.applyMsg
    constructor
    · change Holds (if m.norm.side = Side.BID then _ else _)
        (if m.norm.side = Side.BID then _ else _ : BookSide true 10 32 32).entries
      split_ifs
      · exact ih.1.updateOnce _ _
      · exact ih.1
    · change Holds (if m.norm.side = Side.ASK then _ else _)
        (if m.norm.side = Side.ASK then _ else _ : BookSide false 10 32 32).entries
      split_ifs
      · exact ih.2.updateOnce _ _
      · exact ih.2

theorem Comparable.top_eq {msgs : List RawMsg} (h : Comparable msgs) (isBid : Bool) :
    (GoldenReplay.bookAfter (msgs.map ofRaw)).top isBid =
      (sideAfter isBid msgs : BookSide isBid 10 32 32).entries.map ticks := by
  have hnever : NeverOver isBid 10 (msgs.map delivery) := h.neverOver isBid
  have hfits : (golden isBid DEPTH (msgs.map delivery)).length ≤ DEPTH := by
    rw [length_golden]
    exact hnever _ (List.prefix_refl _)
  have htop := @top_refAfter DEPTH isBid (msgs.map delivery)
  rw [refAfter_delivery h.readable, List.take_of_length_le hfits] at htop
  exact htop.trans (hardware_eq_golden hnever).symm

/-! ### Record by record -/

/-- Two answers that agree on every non-empty leading segment agree one by one. -/
theorem forall₂_leading {α β γ : Type} {R : β → γ → Prop} {f : List α → β} {g : List α → γ}
    {xs : List α} (h : ∀ ys x, ys ++ [x] <+: xs → R (f (ys ++ [x])) (g (ys ++ [x]))) :
    List.Forall₂ R (leading f xs) (leading g xs) := by
  induction xs using List.reverseRecOn with
  | nil => exact .nil
  | append_singleton xs x ih =>
    rw [leading_append_singleton, leading_append_singleton]
    refine List.rel_append (ih fun ys y hys => h ys y (hys.trans (List.prefix_append _ _))) ?_
    exact .cons (h xs x (List.prefix_refl _)) .nil

/-- The words that the parser emits for the messages, as the book gets them. -/
def wordsOf (msgs : List RawMsg) : List (OrderBook.Word 32 32) :=
  msgs.map fun m => bookWord (packNorm m.norm)

theorem records_eq {msgs : List RawMsg} (h : ∀ m ∈ msgs, Readable m) :
    records msgs = leading (fun ms => computeSignals (snapAfter (wordsOf ms))) msgs := by
  have hknown : msgs.filter RawMsg.known = msgs :=
    List.filter_eq_self.mpr fun m hm => (known_iff m).mpr (h m hm).1.1
  have hwords := leading_recordAfter msgs
  rw [hknown, List.map_map, leading_map] at hwords
  exact hwords.symm

theorem snapAfter_append_singleton (msgs : List RawMsg) (m : RawMsg) :
    snapAfter (wordsOf (msgs ++ [m])) =
      { bids := (bookOf (msgs ++ [m])).bids
        asks := (bookOf (msgs ++ [m])).asks
        midprice := OrderBook.midprice (bookOf (msgs ++ [m])).bids (bookOf (msgs ++ [m])).asks
        seq_num := m.seq_num } := by
  have hseq : OrderBook.lastSeq (wordsOf (msgs ++ [m])) = m.seq_num := by
    rw [wordsOf, List.map_append, List.map_singleton, OrderBook.lastSeq_append_singleton,
      decode_bookWord]
    rfl
  have hbook : (OrderBook.bookAfter (wordsOf (msgs ++ [m])) : OrderBook.Book 10 32 32) =
      bookOf (msgs ++ [m]) := bookAfter_words (msgs ++ [m])
  rw [snapAfter, readSnap_packSnap]
  simp only [OrderBook.snapshotAfter, hbook, hseq]

theorem Comparable.sameLevels {msgs : List RawMsg} {m : RawMsg} (h : Comparable (msgs ++ [m])) :
    SameLevels (sideAfter true (msgs ++ [m])) (sideAfter false (msgs ++ [m]))
      (snapAfter (wordsOf (msgs ++ [m])))
      (GoldenReplay.bookAfter ((msgs ++ [m]).map ofRaw)) where
  shows_bids := by
    rw [snapAfter_append_singleton]
    exact (holds_bookOf _).1
  shows_asks := by
    rw [snapAfter_append_singleton]
    exact (holds_bookOf _).2
  topBids := h.top_eq true
  topAsks := h.top_eq false

/-- A record of the hardware and a snapshot of the golden model say the same: everything but
    a negative spread, shown as 0, and the average prices, reduced to a signed word. -/
structure SameRecord (out : SignalOut) (snap : RefSnapshot) : Prop where
  seq_num : out.seq_num.toNat = snap.seq_num
  imbalance : out.imbalance.toInt = snap.imbalance
  microprice : (out.microprice.toNat : Int) = snap.microprice
  spread : (out.spread.toNat : Int) = max 0 snap.spread
  vwap_bid : out.vwap_bid.toInt = snap.vwap_bid.bmod (2 ^ 32)
  vwap_ask : out.vwap_ask.toInt = snap.vwap_ask.bmod (2 ^ 32)
  valid : out.valid = 1

theorem levelsOf_eq_top {bids : BookSide true 10 32 32} {asks : BookSide false 10 32 32}
    {snap : BookSnap} {ref : OrderBookRef} (h : SameLevels bids asks snap ref) (isBid : Bool) :
    levelsOf (sideOf isBid snap) = ref.top isBid := by
  cases isBid
  · have hasks := congrArg (List.map ticks) (h.shows_asks.validLevels_eq asks.bounded)
    exact hasks.trans h.topAsks.symm
  · have hbids := congrArg (List.map ticks) (h.shows_bids.validLevels_eq bids.bounded)
    exact hbids.trans h.topBids.symm

/-- The golden average, which is 0 for a side without volume. -/
theorem goldenVwap_exact (isBid : Bool) (ref : OrderBookRef) (seq : Nat) :
    goldenVwap isBid (ref.snapshot seq) =
      (totalValue (ref.top isBid) * 2 ^ 8 / totalSize (ref.top isBid) : Nat) := by
  by_cases hsize : totalSize (ref.top isBid) = 0
  · have hzero : goldenVwap isBid (ref.snapshot seq) = 0 := by
      cases isBid
      · exact if_neg (not_not.mpr hsize)
      · exact if_neg (not_not.mpr hsize)
    rw [hzero, hsize, Nat.div_zero]
    rfl
  · exact goldenVwap_snapshot isBid ref seq hsize

/-- The engine's average is the golden one, reduced to its word. -/
theorem vwap_eq {bids : BookSide true 10 32 32} {asks : BookSide false 10 32 32}
    {snap : BookSnap} {ref : OrderBookRef} (h : SameLevels bids asks snap ref) (isBid : Bool)
    (seq : Nat) :
    (vwapOf isBid (computeSignals snap)).toInt =
      (goldenVwap isBid (ref.snapshot seq)).bmod (2 ^ 32) := by
  rw [toInt_vwapOf, levelsOf_eq_top h, goldenVwap_exact]

theorem Comparable.sameRecord {msgs : List RawMsg} {m : RawMsg} (h : Comparable (msgs ++ [m])) :
    SameRecord (computeSignals (snapAfter (wordsOf (msgs ++ [m]))))
      (snapshotAfter ((msgs ++ [m]).map ofRaw)) := by
  have hsame := h.sameLevels
  have hseq : lastSeq ((msgs ++ [m]).map ofRaw) = m.seq_num.toNat := by
    simp [lastSeq, ofRaw]
  refine
    { seq_num := ?_
      imbalance := hsame.imbalance_eq _
      microprice := hsame.microprice_eq _
      spread := hsame.spread_eq _
      vwap_bid := vwap_eq hsame true _
      vwap_ask := vwap_eq hsame false _
      valid := rfl }
  rw [snapAfter_append_singleton]
  exact hseq.symm

theorem processReplay_flatMap (msgs : List RawMsg) :
    processReplay (msgs.flatMap encodeMsg) =
      leading (fun ms => snapshotAfter (ms.map ofRaw)) msgs := by
  rw [processReplay_eq, wireMsgs_flatMap, leading_map]

theorem Comparable.sameRecords {msgs : List RawMsg} (h : Comparable msgs) :
    List.Forall₂ SameRecord (records msgs) (processReplay (msgs.flatMap encodeMsg)) := by
  rw [records_eq h.readable, processReplay_flatMap]
  exact forall₂_leading fun _ _ hpre => (h.isPrefix hpre).sameRecord

/-- **From bytes to the golden records.**  A board fed a comparable replay delivers, in
    order, one record for each golden snapshot and the same as it; from some cycle on it
    has delivered all of them. -/
theorem delivers_golden {b : Board} {msgs : List RawMsg}
    (hboard : Scheduled (msgs.flatMap encodeMsg) b) (h : Comparable msgs) :
    (∀ t, List.Forall₂ SameRecord (b.delivered t)
      ((processReplay (msgs.flatMap encodeMsg)).take (b.delivered t).length)) ∧
    ∃ T, ∀ t, T ≤ t →
      List.Forall₂ SameRecord (b.delivered t) (processReplay (msgs.flatMap encodeMsg)) := by
  constructor
  · intro t
    have hpre : b.delivered t <+: records msgs := delivered_isPrefix hboard t
    have htake := List.forall₂_take (b.delivered t).length h.sameRecords
    rwa [← List.prefix_iff_eq_take.mp hpre] at htake
  · obtain ⟨T, hall⟩ := exists_delivered hboard
    refine ⟨T, fun t hle => ?_⟩
    rw [hall t hle]
    exact h.sameRecords

theorem comparable_fourMessages : Comparable fourMessages where
  readable := by decide
  neverFull := by decide +kernel

theorem delivers_golden_fourMessages :
    (∀ t, List.Forall₂ SameRecord ((pacedBoard (fourMessages.flatMap encodeMsg)).delivered t)
      ((processReplay (fourMessages.flatMap encodeMsg)).take
        ((pacedBoard (fourMessages.flatMap encodeMsg)).delivered t).length)) ∧
    ∃ T, ∀ t, T ≤ t →
      List.Forall₂ SameRecord ((pacedBoard (fourMessages.flatMap encodeMsg)).delivered t)
        (processReplay (fourMessages.flatMap encodeMsg)) :=
  delivers_golden (scheduled_pacedBoard _) comparable_fourMessages

/-! ### Records for the diff -/

def jsonLevels (levels : List (Nat × Nat)) : List (Int × Int) :=
  levels.map fun e => ((e.1 : Int), (e.2 : Int))

/-- A snapshot of the hardware and its signals under the keys of the golden snapshot. -/
def hwRecord (snap : BookSnap) : GoldenDiff.SnapRecord where
  seq_num := (computeSignals snap).seq_num.toNat
  imbalance := (computeSignals snap).imbalance.toInt
  midprice := snap.midprice.toNat
  microprice := (computeSignals snap).microprice.toNat
  spread := (computeSignals snap).spread.toNat
  vwap_bid := (computeSignals snap).vwap_bid.toInt
  vwap_ask := (computeSignals snap).vwap_ask.toInt
  bids := jsonLevels (levelsOf snap.bids)
  asks := jsonLevels (levelsOf snap.asks)

def refRecord (snap : RefSnapshot) : GoldenDiff.SnapRecord where
  seq_num := snap.seq_num
  imbalance := snap.imbalance
  midprice := snap.midprice
  microprice := snap.microprice
  spread := snap.spread
  vwap_bid := snap.vwap_bid
  vwap_ask := snap.vwap_ask
  bids := jsonLevels snap.bids
  asks := jsonLevels snap.asks

/-- What the hardware computes for each message of a replay. -/
def hwRecords (msgs : List RawMsg) : List GoldenDiff.SnapRecord :=
  leading (fun ms => hwRecord (snapAfter (wordsOf ms))) msgs

/-- Two records are the same for the diff but for a negative reference spread. -/
structure SameJson (h r : GoldenDiff.SnapRecord) : Prop where
  imbalance : h.imbalance = r.imbalance
  midprice : h.midprice = r.midprice
  microprice : h.microprice = r.microprice
  spread : h.spread = max 0 r.spread
  bids : h.bids = r.bids

theorem sameJson_of_sameLevels {bids : BookSide true 10 32 32} {asks : BookSide false 10 32 32}
    {snap : BookSnap} {ref : OrderBookRef} (h : SameLevels bids asks snap ref)
    (hmid : snap.midprice = OrderBook.midprice snap.bids snap.asks) (seq : Nat) :
    SameJson (hwRecord snap) (refRecord (ref.snapshot seq)) where
  imbalance := h.imbalance_eq seq
  midprice := by
    have hgolden := h.midprice_eq seq
    rw [← hmid] at hgolden
    exact hgolden
  microprice := h.microprice_eq seq
  spread := h.spread_eq seq
  bids := congrArg jsonLevels (levelsOf_eq_top h true)

theorem Comparable.sameJson {msgs : List RawMsg} {m : RawMsg} (h : Comparable (msgs ++ [m])) :
    SameJson (hwRecord (snapAfter (wordsOf (msgs ++ [m]))))
      (refRecord (snapshotAfter ((msgs ++ [m]).map ofRaw))) := by
  refine sameJson_of_sameLevels h.sameLevels ?_ _
  rw [snapAfter_append_singleton]

/-- The loop finds fault with such a pair only for the spread. -/
theorem SameJson.compared_iff {h r : GoldenDiff.SnapRecord} {tolerance : Int}
    (hsame : SameJson h r) (htol : 0 ≤ tolerance) :
    GoldenDiff.Compared tolerance h r ↔ -tolerance ≤ r.spread := by
  have hspread : GoldenDiff.Within tolerance h.spread r.spread ↔ -tolerance ≤ r.spread := by
    rw [GoldenDiff.Within, hsame.spread, abs_le]
    omega
  have hequal : ∀ {hw ref : Int}, hw = ref → GoldenDiff.Within tolerance hw ref := by
    rintro hw ref rfl
    rwa [GoldenDiff.Within, Int.sub_self, abs_zero]
  rw [← hspread]
  constructor
  · intro hcompared
    exact hcompared.signals .spread (by decide)
  · intro hwithin
    refine ⟨fun signal hsignal => ?_, ?_⟩
    · cases signal with
      | imbalance => exact hequal hsame.imbalance
      | midprice => exact hequal hsame.midprice
      | microprice => exact hequal hsame.microprice
      | spread => exact hwithin
      | vwap_bid => exact absurd hsignal (by decide)
      | vwap_ask => exact absurd hsignal (by decide)
    · rintro j - hb hhb rb hrb
      rw [hsame.bids] at hhb
      rw [Option.mem_unique hhb hrb]

theorem forall₂_compared_iff {hw ref : List GoldenDiff.SnapRecord} {tolerance : Int}
    (hsame : List.Forall₂ SameJson hw ref) (htol : 0 ≤ tolerance) :
    List.Forall₂ (GoldenDiff.Compared tolerance) hw ref ↔ ∀ r ∈ ref, -tolerance ≤ r.spread := by
  induction hsame with
  | nil => simp
  | cons hpair _ ih =>
    rw [List.forall₂_cons, List.forall_mem_cons, ih, hpair.compared_iff htol]

end FeedHandler.GoldenEndToEnd
