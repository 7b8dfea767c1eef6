import FeedHandler.Binary64
import FeedHandler.GoldenEndToEnd
import FeedHandler.Level2

/-!
# The floats of the golden model

`snapshot` computes the imbalance and the average prices in Python floats.  Their division
and their product round to binary64; the scale is a power of two, so only the quotient can
move, and `int` reads its integer part.  While prices and sizes fit the fields of the
hardware, the imbalance is the one exact arithmetic gives and an average price is at most
one unit above it, exact for a notional below `2 ^ 45`.  The diff compares no average, so
no rounding shows in its verdict: only a crossed book can make it fail.
-/

namespace FeedHandler.GoldenFloat

open Binary64 GoldenEndToEnd GoldenReplay GoldenSignals Level2 Sync
open FeedHandler.Parser (Fits RawMsg encodeMsg fourMessages)

/-! ### The program's arithmetic -/

/-- `snapshot` with the results of `/` and `*` on floats as Python rounds them. -/
def snapshot (ref : OrderBookRef) (seq : Nat) : RefSnapshot :=
  let bids := ref.topBids
  let asks := ref.topAsks
  let bid_vol := (bids.map fun e => e.2).sum
  let ask_vol := (asks.map fun e => e.2).sum
  let total := bid_vol + ask_vol
  { ref.snapshot seq with
    imbalance :=
      if total ≠ 0 then
        truncate (nearest (nearest (((bid_vol : ℚ) - ask_vol) / total) * (2 ^ 16 : Nat)))
      else 0
    vwap_bid :=
      if bid_vol ≠ 0 then
        truncate (nearest (nearest (((bids.map fun e => e.1 * e.2).sum : Nat) / (bid_vol : ℚ)) *
          (256 : Nat)))
      else 0
    vwap_ask :=
      if ask_vol ≠ 0 then
        truncate (nearest (nearest (((asks.map fun e => e.1 * e.2).sum : Nat) / (ask_vol : ℚ)) *
          (256 : Nat)))
      else 0 }

def next (r : Replay) (m : WireMsg) : Replay :=
  let book := applyMsg r.book m
  { book, snaps := r.snaps ++ [snapshot book m.seq] }

def processReplay (data : List (BitVec 8)) : List RefSnapshot :=
  ((wireMsgs data).foldl next { book := .init DEPTH, snaps := [] }).snaps

def snapshotAfter (ms : List WireMsg) : RefSnapshot := snapshot (bookAfter ms) (lastSeq ms)

theorem foldl_next (ms : List WireMsg) :
    ms.foldl next { book := .init DEPTH, snaps := [] } =
      { book := bookAfter ms, snaps := leading snapshotAfter ms } := by
  induction ms using List.reverseRecOn with
  | nil => rfl
  | append_singleton ms m ih =>
    rw [List.foldl_append, ih, leading_append_singleton]
    simp only [List.foldl_cons, List.foldl_nil, next, snapshotAfter, bookAfter,
      List.foldl_append, lastSeq, List.getLast?_append, List.getLast?_singleton,
      Option.some_or, Option.map_some, Option.getD_some]

theorem processReplay_eq (data : List (BitVec 8)) :
    processReplay data = leading snapshotAfter (wireMsgs data) := by
  rw [processReplay, foldl_next]

/-! ### `int` of a rounded quotient -/

theorem truncate_neg (q : ℚ) : truncate (-q) = -truncate q := by
  rw [truncate, Rat.num_neg_eq_neg_num, Rat.den_neg_eq_den, Int.neg_tdiv]
  rfl

theorem truncate_of_nonneg {q : ℚ} (hq : 0 ≤ q) : truncate q = ⌊q⌋ := by
  rw [truncate, Int.tdiv_eq_ediv_of_nonneg (Rat.num_nonneg.mpr hq), Rat.floor_def']

theorem truncate_nearest_mul (q : ℚ) (s : Nat) :
    truncate (nearest (nearest q * (2 ^ s : Nat))) = truncate (nearest q * 2 ^ s) := by
  rw [Nat.cast_pow, Nat.cast_ofNat, nearest_nearest_mul]

/-- What the program computes for a quotient of naturals and a scale `2 ^ s`. -/
theorem truncate_nearest_div (n d s : Nat) :
    truncate (nearest (nearest ((n : ℚ) / d) * (2 ^ s : Nat))) =
      ⌊nearest ((n : ℚ) / d) * 2 ^ s⌋ := by
  have hnonneg : 0 ≤ nearest ((n : ℚ) / d) := nearest_nonneg (by positivity)
  rw [truncate_nearest_mul, truncate_of_nonneg (by positivity)]

/-- What the exact snapshot has there. -/
theorem truncate_natCast_div (n d s : Nat) :
    truncate ((n : ℚ) / d * (2 ^ s : Nat)) = (n * 2 ^ s / d : Nat) := by
  rw [Nat.cast_pow, Nat.cast_ofNat, truncate_of_nonneg (by positivity), floor_natCast_div_mul]

/-- A small dividend of either sign keeps its truncated quotient. -/
theorem truncate_nearest_intCast_div {n : Int} {d s k : Nat} (hd : 0 < d) (hbig : d ≤ 2 ^ k)
    (hk : k ≤ 1022) (hs : s ≤ 53) (hn : n.natAbs < 2 ^ (53 - s)) :
    truncate (nearest (nearest ((n : ℚ) / d) * (2 ^ s : Nat))) =
      truncate ((n : ℚ) / d * (2 ^ s : Nat)) := by
  have hpositive : truncate (nearest (nearest ((n.natAbs : ℚ) / d) * (2 ^ s : Nat))) =
      truncate ((n.natAbs : ℚ) / d * (2 ^ s : Nat)) := by
    rw [truncate_nearest_div, truncate_natCast_div, floor_nearest_div_eq hd hbig hk hs hn]
  rcases n.natAbs_eq with heq | heq
  · rw [heq, Int.cast_natCast]
    exact hpositive
  · rw [heq, Int.cast_neg, Int.cast_natCast, neg_div, nearest_neg, neg_mul, nearest_neg,
      neg_mul, truncate_neg, truncate_neg, hpositive]

/-! ### Levels that fit the fields of the hardware -/

/-- Price and size of the message fit 32 bits, the size unless it is ignored. -/
def Narrow (m : WireMsg) : Prop :=
  m.price_raw / TICK_SIZE < 2 ^ 32 ∧ (m.msg_type = DELETE ∨ m.size_raw < 2 ^ 32)

instance (m : WireMsg) : Decidable (Narrow m) := inferInstanceAs (Decidable (_ ∧ _))

theorem Narrow.quoteOf_lt {m : WireMsg} (h : Narrow m) :
    (quoteOf m).tick < 2 ^ 32 ∧ (quoteOf m).size < 2 ^ 32 := by
  refine ⟨h.1, ?_⟩
  unfold quoteOf
  dsimp only
  split_ifs with hdelete
  · decide
  · exact h.2.resolve_left hdelete

/-- What rests somewhere was quoted there. -/
theorem exists_quote_of_resting {quotes : List Quote} {isBid : Bool} {tick size : Nat}
    (h : resting quotes isBid tick = some size) :
    ∃ q ∈ quotes, q.tick = tick ∧ q.size = size := by
  obtain ⟨hlast, -⟩ := Option.filter_eq_some_iff.mp h
  obtain ⟨q, hq, hsize⟩ := Option.map_eq_some_iff.mp hlast
  obtain ⟨hmem, hthis⟩ := List.mem_filter.mp (List.mem_of_getLast? hq)
  exact ⟨q, hmem, (of_decide_eq_true hthis).2, hsize⟩

section Volumes

variable {ms : List WireMsg} (h : ∀ m ∈ ms, Narrow m) (isBid : Bool)
include h

theorem lt_of_mem_top {e : Nat × Nat} (he : e ∈ (bookAfter ms).top isBid) :
    e.1 < 2 ^ 32 ∧ e.2 < 2 ^ 32 := by
  obtain ⟨tick, size⟩ := e
  obtain ⟨q, hq, htick, hsize⟩ := exists_quote_of_resting (mem_top_bookAfter.mp he).1
  obtain ⟨m, hm, rfl⟩ := List.mem_map.mp hq
  have hlt := (h m hm).quoteOf_lt
  rw [htick, hsize] at hlt
  exact hlt

theorem totalSize_lt : totalSize ((bookAfter ms).top isBid) < 2 ^ 36 := by
  have hlength : ((bookAfter ms).top isBid).length ≤ DEPTH := by
    rw [top_bookAfter]
    exact List.length_take_le _ _
  have hsum : totalSize ((bookAfter ms).top isBid) ≤
      ((bookAfter ms).top isBid).length * 2 ^ 32 := by
    have hle := List.sum_le_card_nsmul (((bookAfter ms).top isBid).map fun e => e.2) (2 ^ 32) (by
      intro size hsize
      obtain ⟨e, he, rfl⟩ := List.mem_map.mp hsize
      exact (lt_of_mem_top h isBid he).2.le)
    rwa [List.length_map, smul_eq_mul] at hle
  have hten : ((bookAfter ms).top isBid).length * 2 ^ 32 ≤ 10 * 2 ^ 32 :=
    Nat.mul_le_mul_right _ hlength
  omega

end Volumes

/-! ### A snapshot in floats against the exact one -/

/-- What rounding does to a snapshot: an average price may come out one unit higher, unless
    the notional of its side is small. -/
structure RoundedFrom (exact rounded : RefSnapshot) : Prop where
  same : { rounded with vwap_bid := exact.vwap_bid, vwap_ask := exact.vwap_ask } = exact
  vwap_mem : ∀ isBid, goldenVwap isBid rounded = goldenVwap isBid exact ∨
    goldenVwap isBid rounded = goldenVwap isBid exact + 1
  vwap_eq : ∀ isBid, totalValue (listed exact isBid) < 2 ^ 45 →
    goldenVwap isBid rounded = goldenVwap isBid exact

theorem goldenVwap_float (isBid : Bool) (ref : OrderBookRef) (seq : Nat) :
    goldenVwap isBid (snapshot ref seq) =
      if totalSize (ref.top isBid) ≠ 0 then
        ⌊nearest ((totalValue (ref.top isBid) : ℚ) / totalSize (ref.top isBid)) * 2 ^ 8⌋
      else 0 := by
  have hside : goldenVwap isBid (snapshot ref seq) =
      if totalSize (ref.top isBid) ≠ 0 then
        truncate (nearest (nearest ((totalValue (ref.top isBid) : ℚ) /
          totalSize (ref.top isBid)) * (2 ^ 8 : Nat)))
      else 0 := by
    cases isBid <;> rfl
  rw [hside, truncate_nearest_div]

section Snapshot

variable {ms : List WireMsg} (h : ∀ m ∈ ms, Narrow m)
include h

theorem imbalance_float : (snapshotAfter ms).imbalance =
    (GoldenReplay.snapshotAfter ms).imbalance := by
  have hbids := totalSize_lt h true
  have hasks := totalSize_lt h false
  have hrounded : (snapshotAfter ms).imbalance =
      if totalSize ((bookAfter ms).top true) + totalSize ((bookAfter ms).top false) ≠ 0 then
        truncate (nearest (nearest (((totalSize ((bookAfter ms).top true) : ℚ) -
          totalSize ((bookAfter ms).top false)) / (totalSize ((bookAfter ms).top true) +
            totalSize ((bookAfter ms).top false) : Nat)) * (2 ^ 16 : Nat)))
      else 0 := rfl
  have hexact : (GoldenReplay.snapshotAfter ms).imbalance =
      if totalSize ((bookAfter ms).top true) + totalSize ((bookAfter ms).top false) ≠ 0 then
        truncate (((totalSize ((bookAfter ms).top true) : ℚ) -
          totalSize ((bookAfter ms).top false)) / (totalSize ((bookAfter ms).top true) +
            totalSize ((bookAfter ms).top false) : Nat) * (2 ^ 16 : Nat))
      else 0 := rfl
  rw [hrounded, hexact]
  generalize totalSize ((bookAfter ms).top true) = bid_vol at hbids ⊢
  generalize totalSize ((bookAfter ms).top false) = ask_vol at hasks ⊢
  refine if_ctx_congr Iff.rfl (fun htotal => ?_) fun _ => rfl
  have hcast : (bid_vol : ℚ) - ask_vol = ((bid_vol - ask_vol : Int) : ℚ) := by push_cast; rfl
  rw [hcast]
  have hbig : bid_vol + ask_vol ≤ 2 ^ 37 := by omega
  have hsmall : ((bid_vol : Int) - ask_vol).natAbs < 2 ^ (53 - 16) := by omega
  exact truncate_nearest_intCast_div (Nat.pos_of_ne_zero htotal) hbig (by decide) (by decide)
    hsmall

theorem vwap_float (isBid : Bool) :
    goldenVwap isBid (snapshotAfter ms) = goldenVwap isBid (GoldenReplay.snapshotAfter ms) ∨
      goldenVwap isBid (snapshotAfter ms) =
        goldenVwap isBid (GoldenReplay.snapshotAfter ms) + 1 := by
  rw [snapshotAfter, GoldenReplay.snapshotAfter, goldenVwap_float, goldenVwap_exact]
  split_ifs with hsize
  · have hpos := Nat.pos_of_ne_zero hsize
    have hvalue := totalValue_le fun e he => (lt_of_mem_top h isBid he).1.le
    refine floor_nearest_div hpos (by decide) (lt_of_le_of_lt hvalue ?_)
    rw [Nat.mul_comm]
    exact Nat.mul_lt_mul_of_pos_left (by decide) hpos
  · rw [not_not.mp hsize, Nat.div_zero]
    exact .inl rfl

theorem vwap_float_eq (isBid : Bool)
    (hvalue : totalValue (listed (GoldenReplay.snapshotAfter ms) isBid) < 2 ^ 45) :
    goldenVwap isBid (snapshotAfter ms) =
      goldenVwap isBid (GoldenReplay.snapshotAfter ms) := by
  have hlt := totalSize_lt h isBid
  rw [listed_snapshotAfter] at hvalue
  rw [snapshotAfter, GoldenReplay.snapshotAfter, goldenVwap_float, goldenVwap_exact]
  split_ifs with hsize
  · exact floor_nearest_div_eq (Nat.pos_of_ne_zero hsize) hlt.le (by decide) (by decide) hvalue
  · rw [not_not.mp hsize, Nat.div_zero]
    rfl

theorem roundedFrom_snapshotAfter :
    RoundedFrom (GoldenReplay.snapshotAfter ms) (snapshotAfter ms) where
  same := by
    change { GoldenReplay.snapshotAfter ms with imbalance := (snapshotAfter ms).imbalance } = _
    rw [imbalance_float h]
  vwap_mem := vwap_float h
  vwap_eq := vwap_float_eq h

end Snapshot

/-- **What floats change in the golden model.**  On a replay whose prices and sizes fit the
    fields of the hardware, the snapshots that Python computes are the exact ones but for
    averages one unit above, and for those only where the notional of the side is `2 ^ 45`
    or more. -/
theorem replay_rounded {data : List (BitVec 8)} (h : ∀ m ∈ wireMsgs data, Narrow m) :
    List.Forall₂ RoundedFrom (GoldenReplay.processReplay data) (processReplay data) := by
  rw [GoldenReplay.processReplay_eq, processReplay_eq]
  exact forall₂_leading fun _ _ hpre =>
    roundedFrom_snapshotAfter fun m hm => h m (hpre.subset hm)

/-- Bids at `2 ^ 31` and the next tick, with an average `1 / 65537` of a unit below a whole
    one. -/
def nearlyWhole : List RawMsg :=
  [⟨Parser.ADD, 0, 1, 214748364800, 65281⟩, ⟨Parser.ADD, 0, 2, 214748364900, 256⟩]

theorem replay_rounded_nearlyWhole :
    List.Forall₂ RoundedFrom (GoldenReplay.processReplay (nearlyWhole.flatMap encodeMsg))
      (processReplay (nearlyWhole.flatMap encodeMsg)) :=
  replay_rounded (by rw [wireMsgs_flatMap]; decide)

-- the second average does come out one unit above
example : (processReplay (nearlyWhole.flatMap encodeMsg)).map (goldenVwap true) =
    [2 ^ 39, 2 ^ 39 + 1] := by
  decide +kernel

/-! ### The verdict of the diff on the program's snapshots -/

theorem RoundedFrom.sameJson {hw : GoldenDiff.SnapRecord} {exact rounded : RefSnapshot}
    (h : RoundedFrom exact rounded) (hsame : SameJson hw (refRecord exact)) :
    SameJson hw (refRecord rounded) := by
  rw [← h.same] at hsame
  exact ⟨hsame.imbalance, hsame.midprice, hsame.microprice, hsame.spread, hsame.bids⟩

theorem narrow_of_comparable {msgs : List RawMsg} (h : Comparable msgs) :
    ∀ m ∈ msgs.map ofRaw, Narrow m := by
  intro m hm
  obtain ⟨raw, hraw, rfl⟩ := List.mem_map.mp hm
  exact (h.readable raw hraw).2

theorem sameJsons_float {msgs : List RawMsg} (h : Comparable msgs) :
    List.Forall₂ SameJson (hwRecords msgs)
      ((processReplay (msgs.flatMap encodeMsg)).map refRecord) := by
  rw [processReplay_eq, wireMsgs_flatMap, leading_map, map_leading]
  refine forall₂_leading fun ys y hpre => ?_
  have hpart := h.isPrefix hpre
  exact (roundedFrom_snapshotAfter (narrow_of_comparable hpart)).sameJson hpart.sameJson

/-- **When the golden diff passes.**  On a comparable replay the diff of what the hardware
    computes against the snapshots that Python computes returns `True` exactly when no
    golden spread is below minus the tolerance: nothing but a crossed book can make it fail,
    and no rounding shows, at any tolerance. -/
theorem diff_passes_iff {msgs : List RawMsg} (h : Comparable msgs) {tolerance : Int}
    (htol : 0 ≤ tolerance) :
    GoldenDiff.Passes (hwRecords msgs)
        ((processReplay (msgs.flatMap encodeMsg)).map refRecord) tolerance ↔
      ∀ snap ∈ processReplay (msgs.flatMap encodeMsg), -tolerance ≤ snap.spread := by
  rw [GoldenDiff.passes_iff, forall₂_compared_iff (sameJsons_float h) htol,
    List.forall_mem_map]
  rfl

theorem diff_passes_fourMessages :
    GoldenDiff.Passes (hwRecords fourMessages)
        ((processReplay (fourMessages.flatMap encodeMsg)).map refRecord) GoldenDiff.TOLERANCE ↔
      ∀ snap ∈ processReplay (fourMessages.flatMap encodeMsg),
        -GoldenDiff.TOLERANCE ≤ snap.spread :=
  diff_passes_iff comparable_fourMessages (by decide)

end FeedHandler.GoldenFloat
