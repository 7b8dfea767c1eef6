import FeedHandler.ParserFraming
import FeedHandler.Sync

/-!
# Replay of a recorded file

`process_replay` of `order_book_ref.py`: the file cut into records of 22 bytes,
every record applied to the golden book, one snapshot after each.  The hardware
reads the same bytes through `feed_parser`.  The two runs can be compared record
by record only while they agree on which records count and on the side each of them
updates.
-/

namespace FeedHandler.GoldenReplay

open Bits
open FeedHandler.Parser

def WIRE_BYTES : Nat := 22

/-- What `struct.unpack("<cBIQQ", chunk)` returns. -/
structure WireMsg where
  msg_type : BitVec 8
  side : Nat
  seq : Nat
  price_raw : Nat
  size_raw : Nat
deriving DecidableEq, Repr

def unpack (chunk : List (BitVec 8)) : WireMsg where
  msg_type := chunk.getD 0 0
  side := (chunk.getD 1 0).toNat
  seq := valueLE ((chunk.drop 2).take 4)
  price_raw := valueLE ((chunk.drop 6).take 8)
  size_raw := valueLE ((chunk.drop 14).take 8)

/-- `data[i * WIRE_BYTES : (i + 1) * WIRE_BYTES]`. -/
def chunkAt (data : List (BitVec 8)) (i : Nat) : List (BitVec 8) :=
  (data.drop (i * WIRE_BYTES)).take WIRE_BYTES

/-- The messages of the loop, in order; a last incomplete record is not read. -/
def wireMsgs (data : List (BitVec 8)) : List WireMsg :=
  (List.range (data.length / WIRE_BYTES)).map fun i => unpack (chunkAt data i)

def applyMsg (book : OrderBookRef) (m : WireMsg) : OrderBookRef :=
  book.apply m.msg_type m.side m.price_raw m.size_raw

/-- The state of the loop. -/
structure Replay where
  book : OrderBookRef
  snaps : List RefSnapshot

def Replay.next (r : Replay) (m : WireMsg) : Replay :=
  let book := applyMsg r.book m
  { book, snaps := r.snaps ++ [book.snapshot m.seq] }

def processReplay (data : List (BitVec 8)) : List RefSnapshot :=
  ((wireMsgs data).foldl Replay.next { book := .init DEPTH, snaps := [] }).snaps

/-! ### One snapshot for each record -/

def bookAfter (ms : List WireMsg) : OrderBookRef := ms.foldl applyMsg (.init DEPTH)

def lastSeq (ms : List WireMsg) : Nat := (ms.getLast?.map WireMsg.seq).getD 0

def snapshotAfter (ms : List WireMsg) : RefSnapshot := (bookAfter ms).snapshot (lastSeq ms)

theorem foldl_next (ms : List WireMsg) :
    ms.foldl Replay.next { book := .init DEPTH, snaps := [] } =
      { book := bookAfter ms, snaps := Sync.leading snapshotAfter ms } := by
  induction ms using List.reverseRecOn with
  | nil => rfl
  | append_singleton ms m ih =>
    rw [List.foldl_append, ih, Sync.leading_append_singleton]
    simp only [List.foldl_cons, List.foldl_nil, Replay.next, snapshotAfter, bookAfter,
      List.foldl_append, lastSeq, List.getLast?_append, List.getLast?_singleton,
      Option.some_or, Option.map_some, Option.getD_some]

/-- **Snapshot `i` is the book after the first `i + 1` records.** -/
theorem processReplay_eq (data : List (BitVec 8)) :
    processReplay data = Sync.leading snapshotAfter (wireMsgs data) := by
  rw [processReplay, foldl_next]

theorem seq_leading (ms : List WireMsg) :
    (Sync.leading snapshotAfter ms).map RefSnapshot.seq_num = ms.map WireMsg.seq := by
  induction ms using List.reverseRecOn with
  | nil => rfl
  | append_singleton ms m ih =>
    rw [Sync.leading_append_singleton, List.map_append, List.map_append, ih]
    simp [snapshotAfter, lastSeq, OrderBookRef.snapshot]

/-! ### Reading a file of whole records -/

/-- A wire message as Python integers. -/
def ofRaw (m : RawMsg) : WireMsg where
  msg_type := m.msg_type
  side := m.side.toNat
  seq := m.seq_num.toNat
  price_raw := m.price_raw.toNat
  size_raw := m.size_raw.toNat

theorem unpack_encodeMsg (m : RawMsg) : unpack (encodeMsg m) = ofRaw m := by
  have hseq : ((encodeMsg m).drop 2).take 4 = bytesLE 4 m.seq_num := by
    simp only [encodeMsg, List.append_assoc]
    exact List.take_left' (length_bytesLE _ _)
  have hprice : ((encodeMsg m).drop 6).take 8 = bytesLE 8 m.price_raw := by
    have hsplit : encodeMsg m = ([m.msg_type, m.side] ++ bytesLE 4 m.seq_num) ++
        (bytesLE 8 m.price_raw ++ bytesLE 8 m.size_raw) := by
      simp [encodeMsg]
    rw [hsplit, List.drop_left' (by simp)]
    exact List.take_left' (length_bytesLE _ _)
  have hsize : ((encodeMsg m).drop 14).take 8 = bytesLE 8 m.size_raw := by
    rw [encodeMsg, List.drop_left' (by simp)]
    exact List.take_of_length_le (length_bytesLE _ _).le
  unfold unpack
  rw [hseq, hprice, hsize, valueLE_bytesLE, valueLE_bytesLE, valueLE_bytesLE,
    Nat.mod_eq_of_lt m.seq_num.isLt, Nat.mod_eq_of_lt m.price_raw.isLt,
    Nat.mod_eq_of_lt m.size_raw.isLt]
  rfl

theorem wireMsgs_append {chunk : List (BitVec 8)} (hlen : chunk.length = WIRE_BYTES)
    (rest : List (BitVec 8)) : wireMsgs (chunk ++ rest) = unpack chunk :: wireMsgs rest := by
  have hcount : (chunk ++ rest).length / WIRE_BYTES = rest.length / WIRE_BYTES + 1 := by
    rw [List.length_append, hlen, Nat.add_comm, Nat.add_div_right _ (by decide)]
  have hfirst : chunkAt (chunk ++ rest) 0 = chunk := by
    rw [chunkAt, Nat.zero_mul, List.drop_zero, ← hlen]
    exact List.take_left
  have hnext : ∀ i, chunkAt (chunk ++ rest) (i + 1) = chunkAt rest i := by
    intro i
    have hoffset : (i + 1) * WIRE_BYTES = chunk.length + i * WIRE_BYTES := by
      rw [hlen, Nat.succ_mul, Nat.add_comm]
    rw [chunkAt, hoffset, List.drop_length_add_append, chunkAt]
  rw [wireMsgs, hcount, List.range_succ_eq_map, List.map_cons, hfirst, List.map_map]
  exact congrArg (unpack chunk :: ·) (List.map_congr_left fun i _ => congrArg unpack (hnext i))

theorem wireMsgs_flatMap (msgs : List RawMsg) :
    wireMsgs (msgs.flatMap encodeMsg) = msgs.map ofRaw := by
  induction msgs with
  | nil => rfl
  | cons m msgs ih =>
    rw [List.flatMap_cons, wireMsgs_append (length_encodeMsg m), ih, unpack_encodeMsg,
      List.map_cons]

/-- Any 22 bytes are the encoding of a message. -/
theorem exists_encodeMsg {chunk : List (BitVec 8)} (hlen : chunk.length = WIRE_BYTES) :
    ∃ m, encodeMsg m = chunk := by
  rcases chunk with - | ⟨msg_type, - | ⟨side, rest⟩⟩
  · simp [WIRE_BYTES] at hlen
  · simp [WIRE_BYTES] at hlen
  · have hrest : rest.length = 20 := by simpa [WIRE_BYTES] using hlen
    obtain ⟨seq, hseq⟩ : ∃ x : BitVec 32, bytesLE 4 x = rest.take 4 :=
      exists_bytesLE (k := 4) (by simp [hrest])
    obtain ⟨price, hprice⟩ : ∃ x : BitVec 64, bytesLE 8 x = (rest.drop 4).take 8 :=
      exists_bytesLE (k := 8) (by simp [hrest])
    obtain ⟨size, hsize⟩ : ∃ x : BitVec 64, bytesLE 8 x = (rest.drop 4).drop 8 :=
      exists_bytesLE (k := 8) (by simp [hrest])
    refine ⟨⟨msg_type, side, seq, price, size⟩, ?_⟩
    rw [encodeMsg, hseq, hprice, hsize, List.append_assoc, List.append_assoc,
      List.take_append_drop, List.take_append_drop]
    rfl

/-- A file of whole records is the concatenation of encoded messages. -/
theorem exists_flatMap {data : List (BitVec 8)} (hwhole : WIRE_BYTES ∣ data.length) :
    ∃ msgs : List RawMsg, msgs.flatMap encodeMsg = data := by
  rcases hwhole with ⟨n, hn⟩
  induction n generalizing data with
  | zero => exact ⟨[], (List.eq_nil_of_length_eq_zero (by simpa using hn)).symm⟩
  | succ n ih =>
    rw [Nat.mul_succ] at hn
    have hchunk : (data.take WIRE_BYTES).length = WIRE_BYTES := by
      rw [List.length_take]
      omega
    have hrest : (data.drop WIRE_BYTES).length = WIRE_BYTES * n := by
      rw [List.length_drop]
      omega
    obtain ⟨m, hm⟩ := exists_encodeMsg hchunk
    obtain ⟨msgs, hmsgs⟩ := ih hrest
    refine ⟨m :: msgs, ?_⟩
    rw [List.flatMap_cons, hm, hmsgs, List.take_append_drop]

/-! ### Which records count and where they go -/

/-- The sequence number and the side of each message that `feed_parser` passes to the
    order book. -/
def hardwareRoutes (data : List (BitVec 8)) : List (Nat × BitVec 1) :=
  (feedParser data).words.map fun w =>
    let msg := OrderBook.decode (bookWord w) true
    (msg.seqNum.toNat, msg.side)

/-- The side of the book that `apply` updates. -/
def updatedSide (m : WireMsg) : BitVec 1 := if m.side = 0 then Side.BID else Side.ASK

/-- The sequence number of each snapshot of `process_replay` and the side that was
    updated before it. -/
def goldenRoutes (data : List (BitVec 8)) : List (Nat × BitVec 1) :=
  List.zipWith (fun snap m => (snap.seq_num, updatedSide m)) (processReplay data) (wireMsgs data)

/-- Both runs count the same messages and route them to the same sides. -/
def RoutesAgree (data : List (BitVec 8)) : Prop := hardwareRoutes data = goldenRoutes data

/-- The type is one the parser knows and the side byte is 0 or odd. -/
def Routable (m : WireMsg) : Prop :=
  (m.msg_type = ADD ∨ m.msg_type = UPDATE ∨ m.msg_type = DELETE) ∧ (m.side = 0 ∨ m.side % 2 = 1)

instance (m : WireMsg) : Decidable (Routable m) := inferInstanceAs (Decidable (_ ∧ _))

/-- `apply` changes the dictionary of `updatedSide` and leaves the other one alone. -/
theorem live_applyMsg (book : OrderBookRef) (m : WireMsg) (isBid : Bool) :
    (applyMsg book m).live isBid =
      if updatedSide m = Side.ofBid isBid then
        OrderBookRef.applyTo (book.live isBid) m.msg_type (m.price_raw / TICK_SIZE) m.size_raw
      else book.live isBid := by
  have hside : decide (m.side = 0) = isBid ↔ updatedSide m = Side.ofBid isBid := by
    unfold updatedSide
    by_cases hzero : m.side = 0 <;> cases isBid <;> simp [hzero, Side.ofBid, Side.BID, Side.ASK]
  rw [applyMsg, OrderBookRef.live_apply]
  simp only [hside]

theorem hardwareRoutes_flatMap (msgs : List RawMsg) :
    hardwareRoutes (msgs.flatMap encodeMsg) =
      (msgs.filter RawMsg.known).map fun m => (m.seq_num.toNat, m.norm.side) := by
  rw [hardwareRoutes, feedParser_flatMap, List.map_map]
  apply List.map_congr_left
  intro m _
  simp only [Function.comp_apply, (decode_packNorm m.norm).1]
  rfl

theorem goldenRoutes_eq (data : List (BitVec 8)) :
    goldenRoutes data = (wireMsgs data).map fun m => (m.seq, updatedSide m) := by
  have hsplit : goldenRoutes data = List.zip ((processReplay data).map RefSnapshot.seq_num)
      ((wireMsgs data).map updatedSide) := by
    rw [List.zip_map, List.zip, List.map_zipWith]
    rfl
  rw [hsplit, processReplay_eq, seq_leading, List.zip_map']

theorem norm_side_eq_iff (m : RawMsg) :
    m.norm.side = updatedSide (ofRaw m) ↔ m.side.toNat = 0 ∨ m.side.toNat % 2 = 1 := by
  rw [← BitVec.toNat_inj, toNat_norm_side, updatedSide]
  change _ = (if m.side.toNat = 0 then Side.BID else Side.ASK).toNat ↔ _
  split_ifs with hzero
  · simp [hzero, Side.BID]
  · simp [hzero, Side.ASK]

theorem known_iff (m : RawMsg) :
    m.known = true ↔ m.msg_type = ADD ∨ m.msg_type = UPDATE ∨ m.msg_type = DELETE := by
  simp [RawMsg.known, or_assoc]

theorem routesAgree_flatMap (msgs : List RawMsg) :
    RoutesAgree (msgs.flatMap encodeMsg) ↔ ∀ m ∈ msgs, Routable (ofRaw m) := by
  unfold RoutesAgree
  rw [hardwareRoutes_flatMap, goldenRoutes_eq, wireMsgs_flatMap, List.map_map]
  constructor
  · intro h
    -- a record the parser drops makes the hardware's sequence shorter
    have hlen : (msgs.filter RawMsg.known).length = msgs.length := by
      simpa using congrArg List.length h
    have hknown : ∀ m ∈ msgs, m.known = true := List.length_filter_eq_length_iff.mp hlen
    rw [List.filter_eq_self.mpr hknown, List.map_inj_left] at h
    intro m hm
    have hside : m.norm.side = updatedSide (ofRaw m) := congrArg Prod.snd (h m hm)
    exact ⟨(known_iff m).mp (hknown m hm), (norm_side_eq_iff m).mp hside⟩
  · intro h
    have hknown : ∀ m ∈ msgs, m.known = true := fun m hm => (known_iff m).mpr (h m hm).1
    rw [List.filter_eq_self.mpr hknown, List.map_inj_left]
    intro m hm
    exact Prod.ext rfl ((norm_side_eq_iff m).mpr (h m hm).2)

/-- A record of type `'T'`. -/
def strayMsg : RawMsg :=
  { msg_type := 0x54#8, side := 0, seq_num := 7, price_raw := 6500000, size_raw := 5 }

/-- **A record too many.**  The golden model applies a record of a type the parser drops. -/
theorem strayMsg_not_routesAgree :
    WIRE_BYTES ∣ (encodeMsg strayMsg).length ∧ ¬ RoutesAgree (encodeMsg strayMsg) := by
  refine ⟨by rw [length_encodeMsg]; decide, fun h => ?_⟩
  have hroutable := (routesAgree_flatMap [strayMsg]).mp (by simpa using h) strayMsg (by simp)
  exact absurd hroutable (by decide)

/-- **When the replays can be compared.**  On a file of whole records the hardware and
    the golden model count the same messages and route them to the same sides exactly
    when every record has a known type and a side byte that is 0 or odd. -/
theorem routesAgree_iff {data : List (BitVec 8)} (hwhole : WIRE_BYTES ∣ data.length) :
    RoutesAgree data ↔ ∀ m ∈ wireMsgs data, Routable m := by
  obtain ⟨msgs, rfl⟩ := exists_flatMap hwhole
  rw [routesAgree_flatMap, wireMsgs_flatMap, List.forall_mem_map]

theorem routesAgree_fourMessages :
    RoutesAgree (fourMessages.flatMap encodeMsg) ↔
      ∀ m ∈ wireMsgs (fourMessages.flatMap encodeMsg), Routable m :=
  routesAgree_iff (by decide)

end FeedHandler.GoldenReplay
