import FeedHandler.GoldenReplay
import Mathlib.Data.Set.Card

/-!
# The book that a feed of quotes describes

A level-2 feed quotes absolute sizes: at a price rests what the last quote for it says,
and nothing after a quote of size 0.  That is said here without any data structure, and
the golden model computes it: its two dictionaries hold what rests, and the lists of each
of its snapshots are the best ten of it, best first.
-/

namespace FeedHandler.Level2

open GoldenReplay OrderBookRef
open FeedHandler.Parser (RawMsg UPDATE dearBid encodeMsg fourMessages)

/-- The size at one price of one side, 0 for none. -/
structure Quote where
  isBid : Bool
  tick : Nat
  size : Nat
deriving DecidableEq, Repr

/-- What rests at a price after the quotes. -/
def resting (quotes : List Quote) (isBid : Bool) (tick : Nat) : Option Nat :=
  ((quotes.filter fun q => q.isBid = isBid ∧ q.tick = tick).getLast?.map Quote.size).filter (· ≠ 0)

/-- The prices of a side that have a size. -/
def occupied (quotes : List Quote) (isBid : Bool) : Set Nat :=
  {t | (resting quotes isBid t).isSome}

/-- The prices of a side that come before `tick` and have a size. -/
def ahead (quotes : List Quote) (isBid : Bool) (tick : Nat) : Set Nat :=
  {t | tickRank isBid t < tickRank isBid tick ∧ (resting quotes isBid t).isSome}

/-- The quote that a record carries. -/
def quoteOf (m : WireMsg) : Quote where
  isBid := m.side = 0
  tick := m.price_raw / TICK_SIZE
  size := if m.msg_type = DELETE then 0 else m.size_raw

theorem resting_append_singleton (quotes : List Quote) (q : Quote) (isBid : Bool) (tick : Nat) :
    resting (quotes ++ [q]) isBid tick =
      if q.isBid = isBid ∧ q.tick = tick then
        if q.size = 0 then none else some q.size
      else resting quotes isBid tick := by
  unfold resting
  rw [List.filter_append]
  by_cases hq : q.isBid = isBid ∧ q.tick = tick
  · rw [List.filter_cons_of_pos (by simpa using hq), List.filter_nil, List.getLast?_append,
      List.getLast?_singleton, Option.some_or, if_pos hq]
    by_cases hsize : q.size = 0 <;> simp [Option.filter, hsize]
  · rw [List.filter_cons_of_neg (by simpa using hq), List.filter_nil, List.append_nil, if_neg hq]

/-! ### The dictionaries hold what rests -/

theorem get_applyTo (book : Dict Nat Nat) (m : WireMsg) (tick : Nat) :
    (applyTo book m.msg_type (m.price_raw / TICK_SIZE) m.size_raw).get tick =
      if (quoteOf m).tick = tick then
        if (quoteOf m).size = 0 then none else some (quoteOf m).size
      else book.get tick := by
  unfold applyTo quoteOf
  by_cases hdelete : m.msg_type = DELETE
  · simp only [hdelete, true_or, if_true, Dict.get_pop, eq_comm]
  · by_cases hsize : m.size_raw = 0
    · simp only [hdelete, hsize, or_true, if_true, if_false, Dict.get_pop, eq_comm]
    · simp only [hdelete, hsize, or_self, if_false, Dict.get_set, eq_comm]

/-- **The golden dictionaries are the level-2 book of the records.** -/
theorem get_live_bookAfter (ms : List WireMsg) (isBid : Bool) (tick : Nat) :
    ((bookAfter ms).live isBid).get tick = resting (ms.map quoteOf) isBid tick := by
  induction ms using List.reverseRecOn with
  | nil => cases isBid <;> rfl
  | append_singleton ms m ih =>
    have hside : (quoteOf m).isBid = isBid ↔ updatedSide m = Side.ofBid isBid := by
      unfold quoteOf updatedSide
      by_cases hzero : m.side = 0 <;> cases isBid <;> simp [hzero, Side.ofBid, Side.BID, Side.ASK]
    rw [List.map_append, List.map_singleton, resting_append_singleton, bookAfter,
      List.foldl_append, List.foldl_cons, List.foldl_nil, live_applyMsg]
    by_cases hthis : updatedSide m = Side.ofBid isBid
    · rw [if_pos hthis, get_applyTo]
      simp only [hside.mpr hthis, true_and]
      exact if_congr Iff.rfl rfl ih
    · rw [if_neg hthis, if_neg fun h => hthis (hside.mp h.1)]
      exact ih

/-! ### The lists show the best of it -/

section Ladder

variable {ms : List WireMsg} {isBid : Bool} {tick size : Nat}

theorem mem_ladder_bookAfter :
    (tick, size) ∈ (bookAfter ms).ladder isBid ↔
      resting (ms.map quoteOf) isBid tick = some size := by
  rw [ladder, Dict.mem_sorted, ← Dict.get_eq_some, get_live_bookAfter]

/-- The golden side has one entry for each price with a size. -/
theorem ncard_resting (p : Nat → Bool) :
    {t | p t ∧ (resting (ms.map quoteOf) isBid t).isSome}.ncard =
      (((bookAfter ms).ladder isBid).filter fun e : Nat × Nat => p e.1).length := by
  let priced := ((bookAfter ms).ladder isBid).filter fun e : Nat × Nat => p e.1
  have hset : {t | p t ∧ (resting (ms.map quoteOf) isBid t).isSome} =
      ↑(priced.map Prod.fst).toFinset := by
    ext t
    simp only [Set.mem_ofPred_eq, Option.isSome_iff_exists, List.coe_toFinset, List.mem_map,
      priced, List.mem_filter]
    constructor
    · rintro ⟨hprice, size, hsize⟩
      exact ⟨(t, size), ⟨mem_ladder_bookAfter.mpr hsize, hprice⟩, rfl⟩
    · rintro ⟨⟨t, size⟩, ⟨hmem, hprice⟩, rfl⟩
      exact ⟨hprice, size, mem_ladder_bookAfter.mp hmem⟩
  have hnodup : (priced.map Prod.fst).Nodup := by
    have hasc := (ascending_ladder (bookAfter ms) isBid).sublist
      (List.filter_sublist (p := fun e => p e.1))
    exact List.pairwise_map.mpr (hasc.imp fun hlt heq => hlt.ne (congrArg (tickRank isBid) heq))
  rw [hset, Set.ncard_coe_finset, List.toFinset_card_of_nodup hnodup, List.length_map]

theorem ncard_ahead :
    (ahead (ms.map quoteOf) isBid tick).ncard =
      (((bookAfter ms).ladder isBid).filter fun e : Nat × Nat =>
        tickRank isBid e.1 < tickRank isBid tick).length := by
  have hprices := @ncard_resting ms isBid fun t => tickRank isBid t < tickRank isBid tick
  simpa only [ahead, decide_eq_true_eq] using hprices

theorem ncard_occupied :
    (occupied (ms.map quoteOf) isBid).ncard = ((bookAfter ms).ladder isBid).length := by
  have hprices := @ncard_resting ms isBid fun _ => true
  simpa only [occupied, true_and, List.filter_true] using hprices

theorem top_bookAfter : (bookAfter ms).top isBid = ((bookAfter ms).ladder isBid).take DEPTH := by
  have hdepth : (bookAfter ms).depth = DEPTH := by
    induction ms using List.reverseRecOn with
    | nil => rfl
    | append_singleton ms m ih =>
      rw [bookAfter, List.foldl_append]
      exact (depth_apply _ _ _ _ _).trans ih
  rw [top_eq, hdepth]

theorem mem_top_bookAfter :
    (tick, size) ∈ (bookAfter ms).top isBid ↔
      resting (ms.map quoteOf) isBid tick = some size ∧
        (ahead (ms.map quoteOf) isBid tick).ncard < DEPTH := by
  rw [top_bookAfter, (ascending_ladder _ _).mem_take, mem_ladder_bookAfter, ncard_ahead]

end Ladder

/-- The list of one side of a snapshot. -/
def listed (snap : RefSnapshot) (isBid : Bool) : List (Nat × Nat) :=
  if isBid then snap.bids else snap.asks

theorem listed_snapshotAfter (ms : List WireMsg) (isBid : Bool) :
    listed (snapshotAfter ms) isBid = (bookAfter ms).top isBid := by
  cases isBid <;> rfl

/-- **What a golden snapshot lists.**  Snapshot `i` lists for each side, best first, the
    sizes that rest after the first `i + 1` records at the prices with fewer than ten
    better ones. -/
theorem lists_best {data : List (BitVec 8)} {i : Nat} {snap : RefSnapshot}
    (hsnap : (processReplay data)[i]? = some snap) (isBid : Bool) :
    let quotes := ((wireMsgs data).take (i + 1)).map quoteOf
    ((listed snap isBid).Pairwise fun e e' => tickRank isBid e.1 < tickRank isBid e'.1) ∧
      ∀ tick size, (tick, size) ∈ listed snap isBid ↔
        resting quotes isBid tick = some size ∧ (ahead quotes isBid tick).ncard < DEPTH := by
  have hbook : snap = snapshotAfter ((wireMsgs data).take (i + 1)) := by
    rw [processReplay_eq, List.getElem?_eq_some_iff] at hsnap
    rcases hsnap with ⟨_, rfl⟩
    simp only [Sync.leading, List.getElem_mapIdx]
  rw [hbook, listed_snapshotAfter]
  refine ⟨?_, fun tick size => mem_top_bookAfter⟩
  rw [top_bookAfter]
  exact (ascending_ladder _ _).sublist (List.take_sublist _ _)

/-- The bids after two adds, an ask and a delete. -/
theorem lists_best_fourMessages :
    let quotes := ((wireMsgs (fourMessages.flatMap encodeMsg)).take (3 + 1)).map quoteOf
    let snap := snapshotAfter (wireMsgs (fourMessages.flatMap encodeMsg))
    ((listed snap true).Pairwise fun e e' => tickRank true e.1 < tickRank true e'.1) ∧
      ∀ tick size, (tick, size) ∈ listed snap true ↔
        resting quotes true tick = some size ∧ (ahead quotes true tick).ncard < DEPTH :=
  lists_best (i := 3) (by rw [processReplay_eq]; rfl) true

/-! ### Only what rests matters -/

/-- `kept` is what is left of the quotes when some are left out, each of a price that `kept`
    quotes again later. -/
inductive Conflated : List Quote → List Quote → Prop
  | nil : Conflated [] []
  | keep (q : Quote) {quotes kept : List Quote} (h : Conflated quotes kept) :
      Conflated (q :: quotes) (q :: kept)
  | drop {q q' : Quote} {quotes kept : List Quote} (hlater : q' ∈ kept)
      (hside : q'.isBid = q.isBid) (htick : q'.tick = q.tick) (h : Conflated quotes kept) :
      Conflated (q :: quotes) kept

/-- Each price has the same last quote. -/
theorem Conflated.getLast?_eq {quotes kept : List Quote} (h : Conflated quotes kept) (isBid : Bool)
    (tick : Nat) :
    (quotes.filter fun q => q.isBid = isBid ∧ q.tick = tick).getLast? =
      (kept.filter fun q => q.isBid = isBid ∧ q.tick = tick).getLast? := by
  induction h with
  | nil => rfl
  | keep q _ ih =>
    by_cases hq : q.isBid = isBid ∧ q.tick = tick
    · rw [List.filter_cons_of_pos (by simpa using hq), List.filter_cons_of_pos (by simpa using hq),
        List.getLast?_cons, List.getLast?_cons, ih]
    · rw [List.filter_cons_of_neg (by simpa using hq), List.filter_cons_of_neg (by simpa using hq),
        ih]
  | @drop q q' quotes kept hlater hside htick _ ih =>
    by_cases hq : q.isBid = isBid ∧ q.tick = tick
    · have hmem : q' ∈ kept.filter fun q => q.isBid = isBid ∧ q.tick = tick :=
        List.mem_filter.mpr ⟨hlater, by simpa [hside, htick] using hq⟩
      obtain ⟨last, hlast⟩ := Option.isSome_iff_exists.mp
        (List.getLast?_isSome.mpr (List.ne_nil_of_mem hmem))
      rw [List.filter_cons_of_pos (by simpa using hq), List.getLast?_cons, ih, hlast]
      rfl
    · rw [List.filter_cons_of_neg (by simpa using hq), ih]

theorem Conflated.resting_eq {quotes kept : List Quote} (h : Conflated quotes kept) (isBid : Bool)
    (tick : Nat) : resting quotes isBid tick = resting kept isBid tick := by
  rw [resting, resting, h.getLast?_eq]

theorem Conflated.refl (quotes : List Quote) : Conflated quotes quotes := by
  induction quotes with
  | nil => exact .nil
  | cons q quotes ih => exact .keep q ih

/-- A quote that a later one of its price overrides does not matter. -/
theorem resting_overridden {before after : List Quote} {q q' : Quote} (hlater : q' ∈ after)
    (hside : q'.isBid = q.isBid) (htick : q'.tick = q.tick) (isBid : Bool) (tick : Nat) :
    resting (before ++ q :: after) isBid tick = resting (before ++ after) isBid tick := by
  have hconflated : Conflated (before ++ q :: after) (before ++ after) := by
    induction before with
    | nil => exact .drop hlater hside htick (.refl after)
    | cons q₀ before ih => exact .keep q₀ ih
  exact hconflated.resting_eq isBid tick

theorem top_bookAfter_congr {ms ms' : List WireMsg}
    (h : ∀ isBid tick, resting (ms.map quoteOf) isBid tick = resting (ms'.map quoteOf) isBid tick)
    (isBid : Bool) : (bookAfter ms).top isBid = (bookAfter ms').top isBid := by
  have hladder : (bookAfter ms).ladder isBid = (bookAfter ms').ladder isBid := by
    apply (ascending_ladder _ _).eq_of_mem_iff (ascending_ladder _ _)
    rintro ⟨tick, size⟩
    rw [mem_ladder_bookAfter, mem_ladder_bookAfter, h]
  rw [top_bookAfter, top_bookAfter, hladder]

theorem snapshot_congr {ref ref' : OrderBookRef} (h : ∀ isBid, ref.top isBid = ref'.top isBid)
    (seq : Nat) : ref.snapshot seq = ref'.snapshot seq := by
  have hbids : ref.topBids = ref'.topBids := h true
  have hasks : ref.topAsks = ref'.topAsks := h false
  unfold OrderBookRef.snapshot
  rw [hbids, hasks]

theorem snapshotAfter_congr {before before' seen : List WireMsg} (hseen : seen ≠ [])
    (h : ∀ isBid tick, resting ((before ++ seen).map quoteOf) isBid tick =
      resting ((before' ++ seen).map quoteOf) isBid tick) :
    snapshotAfter (before ++ seen) = snapshotAfter (before' ++ seen) := by
  have hseq : lastSeq (before ++ seen) = lastSeq (before' ++ seen) := by
    rw [lastSeq, lastSeq, List.getLast?_append_of_ne_nil _ hseen,
      List.getLast?_append_of_ne_nil _ hseen]
  rw [snapshotAfter, snapshotAfter, hseq]
  exact snapshot_congr (top_bookAfter_congr h) _

/-- **A feed may be conflated.**  Leaving out a record whose price a later record of the
    same side quotes again changes no golden snapshot from that later record on. -/
theorem conflates {m m' : RawMsg} (hside : (quoteOf (ofRaw m')).isBid = (quoteOf (ofRaw m)).isBid)
    (htick : (quoteOf (ofRaw m')).tick = (quoteOf (ofRaw m)).tick)
    (before between after : List RawMsg) :
    (processReplay ((before ++ m :: between ++ m' :: after).flatMap encodeMsg)).drop
        (before ++ m :: between).length =
      (processReplay ((before ++ between ++ m' :: after).flatMap encodeMsg)).drop
        (before ++ between).length := by
  simp only [processReplay_eq, wireMsgs_flatMap, Sync.leading_map, Sync.drop_leading]
  apply Sync.leading_congr
  intro k _
  -- a leading segment of what follows begins with `m'`
  have hlater : quoteOf (ofRaw m') ∈ (((m' :: after).take (k + 1)).map ofRaw).map quoteOf := by
    simp
  have hsplit : (before ++ between ++ (m' :: after).take (k + 1)).map ofRaw =
      (before ++ between).map ofRaw ++ ((m' :: after).take (k + 1)).map ofRaw := List.map_append
  rw [List.map_append, hsplit]
  apply snapshotAfter_congr (by simp)
  intro isBid tick
  simp only [List.map_append, List.map_cons, List.append_assoc, List.cons_append]
  exact resting_overridden (List.mem_append_right _ hlater) hside htick isBid tick

/-- A bid quoted again with another size, with another message between the two. -/
theorem conflates_dearBid :
    (processReplay ((fourMessages ++ dearBid :: [strayMsg] ++
        ⟨UPDATE, 0, 9, 429496729600, 3⟩ :: fourMessages).flatMap encodeMsg)).drop
          (fourMessages ++ dearBid :: [strayMsg]).length =
      (processReplay ((fourMessages ++ [strayMsg] ++
        ⟨UPDATE, 0, 9, 429496729600, 3⟩ :: fourMessages).flatMap encodeMsg)).drop
          (fourMessages ++ [strayMsg]).length :=
  @conflates dearBid ⟨UPDATE, 0, 9, 429496729600, 3⟩ rfl rfl fourMessages [strayMsg] fourMessages

end FeedHandler.Level2
