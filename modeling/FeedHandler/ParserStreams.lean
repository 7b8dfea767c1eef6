import FeedHandler.GoldenReplay

/-!
# Streams of any bytes, in any pieces, at any tick size

Bytes come from a DMA in bursts, and the last message may be incomplete.  The parser
waits with the bytes it has, so the words do not depend on where the bursts are cut, and
an incomplete record at the end of a file counts for neither the parser nor the golden
model.  The parser built for another `TICK_SIZE` frames every stream alike.
-/

namespace FeedHandler.Parser

open GoldenReplay (ofRaw wireMsgs)

/-! ### Any bytes -/

theorem recvBytes_eq_none {n : Nat} {stream : List (BitVec 8)} (hshort : stream.length < n) :
    recvBytes n stream = none := by
  induction n generalizing stream with
  | zero => exact absurd hshort (Nat.not_lt_zero _)
  | succ n ih =>
    cases stream with
    | nil => rfl
    | cons byte stream =>
      rw [recvBytes, ih (Nat.lt_of_succ_lt_succ hshort)]
      rfl

/-- Fewer bytes than a message: the read blocks. -/
theorem feedParserAt_short (tick : TickSize) {stream : List (BitVec 8)}
    (hshort : stream.length < RAW_MSG_BYTES) :
    feedParserAt tick stream = { words := [], pending := stream } := by
  rw [feedParserAt]
  split_ifs with hnil
  · rw [hnil]
  · split
    · rfl
    · rename_i hsome
      rw [recvBytes_eq_none hshort] at hsome
      exact absurd hsome (by simp)

/-- Any bytes are whole messages and less than one more. -/
theorem exists_messages (data : List (BitVec 8)) :
    ∃ (msgs : List RawMsg) (tail : List (BitVec 8)),
      tail.length < RAW_MSG_BYTES ∧ data = msgs.flatMap encodeMsg ++ tail := by
  induction h : data.length using Nat.strongRecOn generalizing data with
  | _ n ih =>
    by_cases hshort : data.length < RAW_MSG_BYTES
    · exact ⟨[], data, hshort, rfl⟩
    · have hchunk : (data.take RAW_MSG_BYTES).length = GoldenReplay.WIRE_BYTES := by
        rw [List.length_take]
        exact Nat.min_eq_left (Nat.le_of_not_lt hshort)
      have hless : (data.drop RAW_MSG_BYTES).length < n := by
        rw [List.length_drop, ← h]
        exact Nat.sub_lt (Nat.lt_of_lt_of_le (by decide) (Nat.le_of_not_lt hshort)) (by decide)
      obtain ⟨m, hm⟩ := GoldenReplay.exists_encodeMsg hchunk
      obtain ⟨msgs, tail, htail, hrest⟩ := ih _ hless _ rfl
      refine ⟨m :: msgs, tail, htail, ?_⟩
      rw [List.flatMap_cons, List.append_assoc, ← hrest, hm, List.take_append_drop]

theorem feedParser_messages_append (msgs : List RawMsg) (bytes : List (BitVec 8)) :
    feedParser (msgs.flatMap encodeMsg ++ bytes) =
      { words := (feedParser (msgs.flatMap encodeMsg)).words ++ (feedParser bytes).words
        pending := (feedParser bytes).pending } := by
  rw [feedParser_flatMap]
  exact feedParserAt_flatMap_append defaultTickSize msgs bytes

theorem pending_messages_append (msgs : List RawMsg) {tail : List (BitVec 8)}
    (htail : tail.length < RAW_MSG_BYTES) :
    feedParser (msgs.flatMap encodeMsg ++ tail) =
      { words := (feedParser (msgs.flatMap encodeMsg)).words, pending := tail } := by
  have hshort : feedParser tail = { words := [], pending := tail } := feedParserAt_short _ htail
  rw [feedParser_messages_append, hshort, List.append_nil]

/-! ### Bursts -/

/-- The parser goes on with the next burst of bytes. -/
def ParserRun.resume (run : ParserRun) (burst : List (BitVec 8)) : ParserRun where
  words := run.words ++ (feedParser (run.pending ++ burst)).words
  pending := (feedParser (run.pending ++ burst)).pending

theorem feedParser_append (front back : List (BitVec 8)) :
    feedParser (front ++ back) = (feedParser front).resume back := by
  obtain ⟨msgs, tail, htail, rfl⟩ := exists_messages front
  rw [List.append_assoc, feedParser_messages_append, pending_messages_append msgs htail,
    ParserRun.resume]

/-- **Bursts do not show.**  However the bytes are cut into bursts, the words and the bytes
    left over are those of the whole stream. -/
theorem feedParser_bursts (bursts : List (List (BitVec 8))) :
    bursts.foldl ParserRun.resume { words := [], pending := [] } =
      feedParser bursts.flatten := by
  induction bursts using List.reverseRecOn with
  | nil => rw [List.flatten_nil, feedParser_nil, List.foldl_nil]
  | append_singleton bursts burst ih =>
    rw [List.foldl_append, ih, List.flatten_append, feedParser_append, List.foldl_cons,
      List.foldl_nil, List.flatten_singleton]

/-! ### Incomplete files -/

theorem wireMsgs_messages_append (msgs : List RawMsg) {tail : List (BitVec 8)}
    (htail : tail.length < RAW_MSG_BYTES) :
    wireMsgs (msgs.flatMap encodeMsg ++ tail) = msgs.map ofRaw := by
  induction msgs with
  | nil =>
    have hnone : tail.length / GoldenReplay.WIRE_BYTES = 0 := Nat.div_eq_of_lt htail
    rw [List.flatMap_nil, List.nil_append, wireMsgs, hnone]
    rfl
  | cons m msgs ih =>
    rw [List.flatMap_cons, List.append_assoc, GoldenReplay.wireMsgs_append (length_encodeMsg m),
      GoldenReplay.unpack_encodeMsg, ih, List.map_cons]

/-- **Files of any length.**  The parser is left with the incomplete record at the end, the
    golden model does not read it, and the two replays agree exactly when every whole
    record is of a known type and has a side byte that is 0 or odd. -/
theorem routesAgree_any (data : List (BitVec 8)) :
    (feedParser data).pending = data.drop (RAW_MSG_BYTES * (data.length / RAW_MSG_BYTES)) ∧
      (GoldenReplay.RoutesAgree data ↔ ∀ m ∈ wireMsgs data, GoldenReplay.Routable m) := by
  obtain ⟨msgs, tail, htail, rfl⟩ := exists_messages data
  have hlen : (msgs.flatMap encodeMsg).length = RAW_MSG_BYTES * msgs.length := by
    rw [List.length_flatMap]
    simp [Nat.mul_comm]
  have hcount : (msgs.flatMap encodeMsg ++ tail).length / RAW_MSG_BYTES = msgs.length := by
    rw [List.length_append, hlen, Nat.mul_add_div (by decide), Nat.div_eq_of_lt htail,
      Nat.add_zero]
  constructor
  · rw [pending_messages_append msgs htail, hcount, ← hlen, List.drop_left]
  · have hsame : GoldenReplay.RoutesAgree (msgs.flatMap encodeMsg ++ tail) ↔
        GoldenReplay.RoutesAgree (msgs.flatMap encodeMsg) := by
      unfold GoldenReplay.RoutesAgree
      rw [GoldenReplay.goldenRoutes_eq, GoldenReplay.goldenRoutes_eq,
        wireMsgs_messages_append msgs htail, GoldenReplay.wireMsgs_flatMap,
        GoldenReplay.hardwareRoutes, GoldenReplay.hardwareRoutes,
        pending_messages_append msgs htail]
    rw [hsame, GoldenReplay.routesAgree_flatMap, wireMsgs_messages_append msgs htail,
      List.forall_mem_map]

/-! ### What a build carries -/

/-- **Every build frames and decodes alike.**  On any bytes, the parser built for any tick
    size emits in order one word for each whole message of a known type, carrying that
    message with its price divided by the tick size, and waits with the rest; built for
    100 it is `feed_parser`, reciprocal and all. -/
theorem feedParserAt_carries (tick : TickSize) (data : List (BitVec 8)) :
    ∃ (msgs : List RawMsg) (tail : List (BitVec 8)), data = msgs.flatMap encodeMsg ++ tail ∧
      tail.length < RAW_MSG_BYTES ∧ (feedParserAt tick data).pending = tail ∧
      List.Forall₂ (Carries tick.value.toNat) (msgs.filter RawMsg.known)
        (feedParserAt tick data).words ∧
      (tick.value = 100#64 → feedParserAt tick data = feedParser data) := by
  obtain ⟨msgs, tail, htail, rfl⟩ := exists_messages data
  refine ⟨msgs, tail, rfl, htail, ?_, ?_, ?_⟩
  · rw [feedParserAt_flatMap_append, feedParserAt_short tick htail]
  · rw [feedParserAt_flatMap_append, feedParserAt_short tick htail, List.append_nil,
      List.forall₂_map_right_iff, List.forall₂_same]
    exact fun m _ => carries_packNorm tick m
  · intro hhundred
    rcases tick with ⟨value, hvalue⟩
    subst hhundred
    rfl

end FeedHandler.Parser
