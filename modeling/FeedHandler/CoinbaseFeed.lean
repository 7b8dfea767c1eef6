import FeedHandler.ExceptLoops
import FeedHandler.Level2

/-!
# The feed adapter

`coinbase_feed.py`: level-2 messages of the exchange in, records of 22 bytes out.  A
message is what `json.loads` makes of it, with fields missing or of any type; every
Python exception on the way ends the run, and the file then holds the records of the
messages before.  Floats are a parameter: the adapter parses them, compares them with
zero and rounds them, and nothing here depends on how.
-/

namespace FeedHandler.CoinbaseFeed

open FeedHandler.Parser (RawMsg ADD UPDATE)
open ExceptLoops

inductive PyError where
  | AttributeError
  | OverflowError
  | StructError
  | TypeError
  | ValueError
deriving DecidableEq, Repr

/-- The float operations of the adapter, as far as they return. -/
class PyFloat (F : Type) where
  /-- `float(s)` -/
  ofStr : String → Except PyError F
  /-- `float(n)` -/
  ofInt : Int → Except PyError F
  /-- `x == 0` -/
  isZero : F → Bool
  /-- `x > 0` -/
  isPos : F → Bool
  /-- `int(round(x * scale))` -/
  roundMul : F → Nat → Except PyError Int

/-- A value that `json.loads` returns. -/
inductive Json (F : Type) where
  | null
  | bool (b : Bool)
  | int (n : Int)
  | float (x : F)
  | str (s : String)
  | arr (xs : List (Json F))
  | obj (fields : List (String × Json F))

variable {F : Type}

namespace Json

/-- `j.get(key, missing)`. -/
def get (j : Json F) (key : String) (missing : Json F) : Except PyError (Json F) :=
  match j with
  | obj fields => .ok ((fields.lookup key).getD missing)
  | _ => .error .AttributeError

/-- What a `for` loop over the value runs through. -/
def items : Json F → Except PyError (List (Json F))
  | arr xs => .ok xs
  | obj fields => .ok (fields.map fun e => str e.1)
  | str s => .ok (s.toList.map fun c => str c.toString)
  | _ => .error .TypeError

/-- `j == s`. -/
def isStr (j : Json F) (s : String) : Bool :=
  match j with
  | str t => t == s
  | _ => false

variable [PyFloat F]

def truthy : Json F → Bool
  | null => false
  | bool b => b
  | int n => n != 0
  | float x => !PyFloat.isZero x
  | str s => s != ""
  | arr xs => !xs.isEmpty
  | obj fields => !fields.isEmpty

/-- `a and b`. -/
def pyAnd (a b : Json F) : Json F := if a.truthy then b else a

/-- `a or b`. -/
def pyOr (a b : Json F) : Json F := if a.truthy then a else b

/-- `float(j)`. -/
def toFloat : Json F → Except PyError F
  | bool b => PyFloat.ofInt b.toNat
  | int n => PyFloat.ofInt n
  | float x => .ok x
  | str s => PyFloat.ofStr s
  | _ => .error .TypeError

end Json

variable [PyFloat F]

/-- `struct.pack(WIRE_FMT, ...)`: a field that does not hold its value raises. -/
def pack (msg_type : BitVec 8) (side seq : Nat) (price_raw size_raw : Int) :
    Except PyError (List (BitVec 8)) :=
  if side < 2 ^ 8 ∧ seq < 2 ^ 32 ∧ (0 ≤ price_raw ∧ price_raw < 2 ^ 64) ∧
      (0 ≤ size_raw ∧ size_raw < 2 ^ 64) then
    .ok (Parser.encodeMsg
      { msg_type := msg_type
        side := BitVec.ofNat 8 side
        seq_num := BitVec.ofNat 32 seq
        price_raw := BitVec.ofInt 64 price_raw
        size_raw := BitVec.ofInt 64 size_raw })
  else .error .StructError

def encodeMsg (msg_type : BitVec 8) (side seq : Nat) (price_usd size_btc : F) :
    Except PyError (List (BitVec 8)) := do
  let price_raw ← PyFloat.roundMul price_usd (10 ^ 8)
  let size_raw ← PyFloat.roundMul size_btc (10 ^ 6)
  pack msg_type side seq price_raw size_raw

/-- The wire type for an event type and a size. -/
def mtype (etype : Json F) (size_btc : F) : BitVec 8 :=
  if (etype.isStr "snapshot" || etype.isStr "l2update") && PyFloat.isPos size_btc then
    if etype.isStr "snapshot" then ADD else UPDATE
  else if PyFloat.isZero size_btc then DELETE
  else UPDATE

/-- The loop state of `_handle`. -/
structure Handling where
  seq : Nat
  packets : List (List (BitVec 8))

/-- One update of an event: the body of the inner loop. -/
def handleUpdate (etype : Json F) (h : Handling) (upd : Json F) : Except PyError Handling := do
  let side_str ← upd.get "side" (.str "bid")
  let side := if side_str.isStr "bid" then 0 else 1
  let new_quantity ← upd.get "new_quantity" .null
  let price_level ← upd.get "price_level" (.int 0)
  -- computed and never used
  let _price ← ((new_quantity.pyAnd price_level).pyOr price_level).toFloat
  let price_usd ← price_level.toFloat
  let quantity ← upd.get "new_quantity" (.int 0)
  let size_btc ← quantity.toFloat
  let seq := h.seq + 1
  let pkt ← encodeMsg (mtype etype size_btc) side seq price_usd size_btc
  return { seq, packets := h.packets ++ [pkt] }

/-- Parse a message into packets, numbered on from `seq`. -/
def handle (seq : Nat) (msg : Json F) : Except PyError Handling := do
  let channel ← msg.get "channel" .null
  if !channel.isStr "l2_data" then return { seq, packets := [] }
  let events ← (← msg.get "events" (.arr [])).items
  events.foldlM (fun h event => do
    let etype ← event.get "type" (.str "")
    let updates ← (← event.get "updates" (.arr [])).items
    updates.foldlM (handleUpdate etype) h) { seq, packets := [] }

/-- The adapter while it writes a file. -/
structure Feed where
  seq : Nat
  file : List (BitVec 8)
  count : Nat

/-- The packets of a message are written and counted. -/
def Feed.write (feed : Feed) (h : Handling) : Feed where
  seq := h.seq
  file := feed.file ++ h.packets.flatten
  count := feed.count + h.packets.length

/-- How a run ends. -/
inductive Ended where
  | closed
  | reached
  | raised (e : PyError)
deriving DecidableEq, Repr

/-- The loop over the frames of the socket; a frame is what `json.loads` makes of it. -/
def run (max_messages : Int) (feed : Feed) :
    List (Except PyError (Json F)) → Feed × Ended
  | [] => (feed, .closed)
  | frame :: frames =>
    match frame >>= handle feed.seq with
    | .error e => (feed, .raised e)
    | .ok h =>
      let feed := feed.write h
      if max_messages ≠ 0 ∧ max_messages ≤ feed.count then (feed, .reached)
      else run max_messages feed frames

/-- Capture at least `n` records to a replay file. -/
def capture (n : Int) (frames : List (Except PyError (Json F))) : Feed × Ended :=
  run n { seq := 0, file := [], count := 0 } frames

/-! ### One update -/

/-- `float(upd.get(key, 0))`. -/
def number (upd : Json F) (key : String) : Except PyError F := do
  (← upd.get key (.int 0)).toFloat

/-- `m` is the record of the update `u.2` of an event of type `u.1`. -/
structure Sent (u : Json F × Json F) (m : RawMsg) : Prop where
  side : ∃ side_str, u.2.get "side" (.str "bid") = .ok side_str ∧
    m.side = if side_str.isStr "bid" then 0#8 else 1#8
  price : ∃ x, number u.2 "price_level" = .ok x ∧
    PyFloat.roundMul x (10 ^ 8) = .ok (m.price_raw.toNat : Int)
  size : ∃ x, number u.2 "new_quantity" = .ok x ∧
    PyFloat.roundMul x (10 ^ 6) = .ok (m.size_raw.toNat : Int) ∧ m.msg_type = mtype u.1 x

omit [PyFloat F] in
theorem pack_eq_ok {msg_type : BitVec 8} {side seq : Nat} {price_raw size_raw : Int}
    {pkt : List (BitVec 8)} (h : pack msg_type side seq price_raw size_raw = .ok pkt) :
    ∃ m : RawMsg, pkt = Parser.encodeMsg m ∧ m.msg_type = msg_type ∧
      m.side = BitVec.ofNat 8 side ∧ m.seq_num.toNat = seq ∧
      (m.price_raw.toNat : Int) = price_raw ∧ (m.size_raw.toNat : Int) = size_raw := by
  unfold pack at h
  split_ifs at h with hfits
  rcases hfits with ⟨-, hseq, ⟨hprice, hprice'⟩, hsize, hsize'⟩
  have hraw : ∀ n : Int, 0 ≤ n → n < 2 ^ 64 → ((BitVec.ofInt 64 n).toNat : Int) = n := by
    intro n hnonneg hlt
    rw [BitVec.toNat_ofInt]
    omega
  exact ⟨_, (Except.ok.inj h).symm, rfl, rfl, Nat.mod_eq_of_lt hseq, hraw _ hprice hprice',
    hraw _ hsize hsize'⟩

theorem handleUpdate_eq_ok {etype upd : Json F} {h h' : Handling}
    (hrun : handleUpdate etype h upd = .ok h') :
    ∃ m : RawMsg, Sent (etype, upd) m ∧ m.seq_num.toNat = h.seq + 1 ∧
      h' = { seq := h.seq + 1, packets := h.packets ++ [Parser.encodeMsg m] } := by
  simp only [handleUpdate, encodeMsg, bind_eq_ok, pure_eq_ok] at hrun
  rcases hrun with ⟨side_str, hside, _, -, level, hlevel, _, -, price, hprice, quantity, hquantity,
    size, hsize, pkt, ⟨price_raw, hprice_raw, size_raw, hsize_raw, hpack⟩, rfl⟩
  obtain ⟨m, rfl, htype, hm_side, hseq, hm_price, hm_size⟩ := pack_eq_ok hpack
  refine ⟨m, ⟨⟨side_str, hside, ?_⟩, ⟨price, ?_, ?_⟩, ⟨size, ?_, ?_, htype⟩⟩, hseq, rfl⟩
  · rw [hm_side]
    split_ifs <;> rfl
  · exact bind_eq_ok.mpr ⟨level, hlevel, hprice⟩
  · rw [hprice_raw, hm_price]
  · exact bind_eq_ok.mpr ⟨quantity, hquantity, hsize⟩
  · rw [hsize_raw, hm_size]

theorem Sent.routable {u : Json F × Json F} {m : RawMsg} (h : Sent u m) :
    GoldenReplay.Routable (GoldenReplay.ofRaw m) := by
  rcases h.side with ⟨side_str, -, hside⟩
  rcases h.size with ⟨x, -, -, htype⟩
  constructor
  · change m.msg_type = ADD ∨ m.msg_type = UPDATE ∨ m.msg_type = DELETE
    rw [htype]
    unfold mtype
    split_ifs <;> simp
  · change m.side.toNat = 0 ∨ m.side.toNat % 2 = 1
    rw [hside]
    split_ifs <;> decide

/-! ### One message -/

/-- The updates of an event, each with the type of the event. -/
def eventUpdates (event : Json F) : Except PyError (List (Json F × Json F)) := do
  let etype ← event.get "type" (.str "")
  let updates ← (← event.get "updates" (.arr [])).items
  return updates.map fun upd => (etype, upd)

/-- The updates that a message carries, in order. -/
def updatesIn (msg : Json F) : Except PyError (List (Json F × Json F)) := do
  let channel ← msg.get "channel" .null
  if !channel.isStr "l2_data" then return []
  let events ← (← msg.get "events" (.arr [])).items
  return (← events.mapM eventUpdates).flatten

theorem handle_eq_ok {seq : Nat} {msg : Json F} {h : Handling} :
    handle seq msg = .ok h ↔ ∃ us, updatesIn msg = .ok us ∧
      us.foldlM (fun h u => handleUpdate u.1 h u.2) { seq, packets := [] } = .ok h := by
  have hbody : ∀ (h : Handling) (event : Json F), (do
      let etype ← event.get "type" (.str "")
      let updates ← (← event.get "updates" (.arr [])).items
      updates.foldlM (handleUpdate etype) h) =
        eventUpdates event >>= fun us => us.foldlM (fun h u => handleUpdate u.1 h u.2) h := by
    intro h event
    simp only [eventUpdates, bind_assoc, pure_bind, List.foldlM_map]
  unfold handle updatesIn
  simp only [hbody]
  cases msg.get "channel" .null with
  | error e => simp [bind_eq_ok]
  | ok channel =>
    by_cases hother : !channel.isStr "l2_data"
    · simp only [bind_eq_ok, Except.ok.injEq, exists_eq_left', if_pos hother, pure_eq_ok]
      exact pure_eq_ok.symm
    · simp only [bind_eq_ok, Except.ok.injEq, exists_eq_left', if_neg hother, pure_eq_ok,
        foldlM_flatten]
      constructor
      · rintro ⟨_, hevents, events, hitems, uss, huss, hrun⟩
        exact ⟨uss.flatten, ⟨_, hevents, events, hitems, uss, huss, rfl⟩, hrun⟩
      · rintro ⟨_, ⟨_, hevents, events, hitems, uss, huss, rfl⟩, hrun⟩
        exact ⟨_, hevents, events, hitems, uss, huss, hrun⟩

/-- The records `msgs` of the updates `us`, numbered from `first + 1`. -/
structure Recorded (first : Nat) (us : List (Json F × Json F)) (msgs : List RawMsg) : Prop where
  sent : List.Forall₂ Sent us msgs
  seqs : msgs.map (fun m => m.seq_num.toNat) = List.range' (first + 1) msgs.length

theorem Recorded.append {first : Nat} {us us' : List (Json F × Json F)} {msgs msgs' : List RawMsg}
    (h : Recorded first us msgs) (h' : Recorded (first + msgs.length) us' msgs') :
    Recorded first (us ++ us') (msgs ++ msgs') where
  sent := List.rel_append h.sent h'.sent
  seqs := by
    rw [List.map_append, h.seqs, h'.seqs, List.length_append, Nat.add_right_comm,
      List.range'_append_1]

/-- **One message** gives one record for each of its updates, numbered on. -/
theorem handle_recorded {seq : Nat} {msg : Json F} {h : Handling} (hrun : handle seq msg = .ok h) :
    ∃ us msgs, updatesIn msg = .ok us ∧ Recorded seq us msgs ∧
      h = { seq := seq + msgs.length, packets := msgs.map Parser.encodeMsg } := by
  obtain ⟨us, hus, hloop⟩ := handle_eq_ok.mp hrun
  -- the loop invariant: what has been handled is recorded
  have hinv := foldlM_rule
    (fun done h => ∃ msgs, Recorded seq done msgs ∧
      h = { seq := seq + msgs.length, packets := msgs.map Parser.encodeMsg })
    (by
      rintro done u h h' ⟨msgs, hmsgs, rfl⟩ hupdate
      obtain ⟨m, hsent, hseq, rfl⟩ := handleUpdate_eq_ok hupdate
      have hone : Recorded (seq + msgs.length) [u] [m] :=
        ⟨List.Forall₂.cons hsent List.Forall₂.nil, by simpa using hseq⟩
      exact ⟨msgs ++ [m], hmsgs.append hone, by simp [Nat.add_assoc]⟩)
    ⟨[], ⟨List.Forall₂.nil, rfl⟩, rfl⟩ hloop
  rcases hinv with ⟨msgs, hmsgs, hstate⟩
  exact ⟨us, msgs, hus, hmsgs, hstate⟩

/-! ### A whole run -/

/-- The file holds the records of the updates, and the counters count them. -/
structure Holds (us : List (Json F × Json F)) (feed : Feed) (msgs : List RawMsg) : Prop where
  recorded : Recorded 0 us msgs
  file : feed.file = msgs.flatMap Parser.encodeMsg
  seq : feed.seq = msgs.length
  count : feed.count = msgs.length

theorem Holds.write {us us' : List (Json F × Json F)} {feed : Feed} {msgs msgs' : List RawMsg}
    (h : Holds us feed msgs) (hrecorded : Recorded feed.seq us' msgs') :
    Holds (us ++ us')
      (feed.write { seq := feed.seq + msgs'.length, packets := msgs'.map Parser.encodeMsg })
      (msgs ++ msgs') where
  recorded := h.recorded.append (by rwa [Nat.zero_add, ← h.seq])
  file := by rw [Feed.write, h.file, List.flatMap_append, List.flatMap_def (l := msgs')]
  seq := by rw [Feed.write, h.seq, List.length_append]
  count := by rw [Feed.write, h.count, List.length_map, List.length_append]

/-- The updates of the frames, message by message. -/
def updatesOf (frames : List (Except PyError (Json F))) :
    Except PyError (List (List (Json F × Json F))) :=
  frames.mapM fun frame => frame >>= updatesIn

/-- **Whole runs.**  However a run ends, the file holds the records of the updates of the
    messages taken, all of them if the socket closed. -/
theorem run_holds {us : List (Json F × Json F)} {feed : Feed} {msgs : List RawMsg}
    (h : Holds us feed msgs) (max_messages : Int) (frames : List (Except PyError (Json F))) :
    ∃ taken uss msgs', taken <+: frames ∧ updatesOf taken = .ok uss ∧
      Holds (us ++ uss.flatten) (run max_messages feed frames).1 msgs' ∧
      ((run max_messages feed frames).2 = .closed → taken = frames) := by
  have hstop : ∀ {us feed msgs}, Holds us feed msgs →
      Holds (us ++ ([] : List (List (Json F × Json F))).flatten) feed msgs := by
    intro us feed msgs h
    rwa [List.flatten_nil, List.append_nil]
  induction frames generalizing us feed msgs with
  | nil => exact ⟨[], [], msgs, List.prefix_rfl, rfl, hstop h, fun _ => rfl⟩
  | cons frame frames ih =>
    unfold run
    cases hframe : frame >>= handle feed.seq with
    | error e => exact ⟨[], [], msgs, List.nil_prefix, rfl, hstop h, by simp⟩
    | ok handled =>
      rw [bind_eq_ok] at hframe
      rcases hframe with ⟨msg, rfl, hrun⟩
      obtain ⟨us₁, msgs₁, hus, hrecorded, rfl⟩ := handle_recorded hrun
      have hnext := h.write hrecorded
      dsimp only
      split_ifs with hlimit
      · refine ⟨[.ok msg], [us₁], msgs ++ msgs₁, ⟨frames, rfl⟩, ?_, ?_, by simp⟩
        · exact mapM_cons_eq_ok.mpr ⟨us₁, [], hus, rfl, rfl⟩
        · rwa [List.flatten_cons, List.flatten_nil, List.append_nil]
      · obtain ⟨taken, uss, msgs', htaken, huss, hholds, hclosed⟩ := ih hnext
        refine ⟨.ok msg :: taken, us₁ :: uss, msgs', ?_, ?_, ?_, ?_⟩
        · exact List.cons_prefix_cons.mpr ⟨rfl, htaken⟩
        · exact mapM_cons_eq_ok.mpr ⟨us₁, uss, hus, huss, rfl⟩
        · rwa [List.flatten_cons, ← List.append_assoc]
        · exact fun hend => congrArg _ (hclosed hend)

theorem capture_holds (n : Int) (frames : List (Except PyError (Json F))) :
    ∃ taken uss msgs, taken <+: frames ∧ updatesOf taken = .ok uss ∧
      Holds uss.flatten (capture n frames).1 msgs ∧
      ((capture n frames).2 = .closed → taken = frames) :=
  run_holds (⟨⟨List.Forall₂.nil, rfl⟩, rfl, rfl, rfl⟩ : Holds [] _ []) n frames

theorem Holds.routable {us : List (Json F × Json F)} {feed : Feed} {msgs : List RawMsg}
    (h : Holds us feed msgs) : ∀ m ∈ msgs, GoldenReplay.Routable (GoldenReplay.ofRaw m) := by
  intro m hm
  obtain ⟨i, hi, rfl⟩ := List.getElem_of_mem hm
  have hlen := h.recorded.sent.length_eq
  exact (h.recorded.sent.get (hlen ▸ hi) hi).routable

theorem Holds.filter_known {us : List (Json F × Json F)} {feed : Feed} {msgs : List RawMsg}
    (h : Holds us feed msgs) : msgs.filter RawMsg.known = msgs :=
  List.filter_eq_self.mpr fun m hm => (GoldenReplay.known_iff m).mpr (h.routable m hm).1

/-- **A captured file replays.**  Whatever messages come and however the run ends, the file
    is whole records numbered from 1; the parser passes every one of them on and is left
    with no byte, and the golden model counts and routes them alike. -/
theorem capture_replays (n : Int) (frames : List (Except PyError (Json F))) :
    let feed := (capture n frames).1
    (Parser.feedParser feed.file).pending = [] ∧
      (GoldenReplay.hardwareRoutes feed.file).map Prod.fst = List.range' 1 feed.count ∧
      GoldenReplay.RoutesAgree feed.file := by
  obtain ⟨taken, uss, msgs, -, -, hholds, -⟩ := capture_holds n frames
  dsimp only
  rw [hholds.file, hholds.count]
  refine ⟨?_, ?_, ?_⟩
  · rw [Parser.feedParser_flatMap]
  · rw [GoldenReplay.hardwareRoutes_flatMap, hholds.filter_known, List.map_map]
    exact hholds.recorded.seqs
  · exact (GoldenReplay.routesAgree_flatMap msgs).mpr hholds.routable

/-! ### The book that a capture records -/

/-- What an update says of its price, in the units of the book. -/
def quote (u : Json F × Json F) : Except PyError Level2.Quote := do
  let side_str ← u.2.get "side" (.str "bid")
  let price_usd ← number u.2 "price_level"
  let price_raw ← PyFloat.roundMul price_usd (10 ^ 8)
  let size_btc ← number u.2 "new_quantity"
  let size_raw ← PyFloat.roundMul size_btc (10 ^ 6)
  return {
    isBid := side_str.isStr "bid"
    tick := price_raw.toNat / TICK_SIZE
    size := if mtype u.1 size_btc = DELETE then 0 else size_raw.toNat }

theorem Sent.quote_eq {u : Json F × Json F} {m : RawMsg} (h : Sent u m) :
    quote u = .ok (Level2.quoteOf (GoldenReplay.ofRaw m)) := by
  rcases h with ⟨⟨side_str, hget, hside⟩, ⟨price, hprice, hprice_raw⟩, ⟨size, hsize, hsize_raw, htype⟩⟩
  simp only [quote, bind_eq_ok, pure_eq_ok]
  refine ⟨side_str, hget, price, hprice, _, hprice_raw, size, hsize, _, hsize_raw, ?_⟩
  have hbid : decide (m.side.toNat = 0) = side_str.isStr "bid" := by
    rw [hside]
    cases side_str.isStr "bid" <;> rfl
  simp only [Level2.quoteOf, GoldenReplay.ofRaw, hbid, htype, Int.toNat_natCast]

theorem mapM_quote {us : List (Json F × Json F)} {msgs : List RawMsg}
    (h : List.Forall₂ Sent us msgs) :
    us.mapM quote = .ok ((msgs.map GoldenReplay.ofRaw).map Level2.quoteOf) := by
  induction h with
  | nil => rfl
  | cons hsent _ ih => exact mapM_cons_eq_ok.mpr ⟨_, _, hsent.quote_eq, ih, rfl⟩

/-- **A captured file records the book of the feed.**  Replayed, the golden book has at
    each price what the updates of the messages taken let rest there. -/
theorem capture_level2 (n : Int) (frames : List (Except PyError (Json F))) :
    ∃ taken uss quotes, taken <+: frames ∧ ((capture n frames).2 = .closed → taken = frames) ∧
      updatesOf taken = .ok uss ∧ uss.flatten.mapM quote = .ok quotes ∧
      quotes.length = (capture n frames).1.count ∧
      ∀ isBid tick, ((GoldenReplay.bookAfter
          (GoldenReplay.wireMsgs (capture n frames).1.file)).live isBid).get tick =
        Level2.resting quotes isBid tick := by
  obtain ⟨taken, uss, msgs, htaken, huss, hholds, hclosed⟩ := capture_holds n frames
  refine ⟨taken, uss, (msgs.map GoldenReplay.ofRaw).map Level2.quoteOf, htaken, hclosed, huss,
    mapM_quote hholds.recorded.sent, ?_, ?_⟩
  · rw [hholds.count, List.length_map, List.length_map]
  · intro isBid tick
    rw [hholds.file, GoldenReplay.wireMsgs_flatMap]
    exact Level2.get_live_bookAfter _ isBid tick

/-! ### The limit -/

theorem isPrefix_run (max_messages : Int) (feed : Feed) (frames : List (Except PyError (Json F))) :
    feed.file <+: (run max_messages feed frames).1.file := by
  induction frames generalizing feed with
  | nil => exact List.prefix_rfl
  | cons frame frames ih =>
    unfold run
    cases frame >>= handle feed.seq with
    | error e => exact List.prefix_rfl
    | ok h =>
      have hwrite : feed.file <+: (feed.write h).file := List.prefix_append _ _
      dsimp only
      split_ifs
      · exact hwrite
      · exact hwrite.trans (ih _)

theorem limit_of_reached {max_messages : Int} {feed : Feed}
    {frames : List (Except PyError (Json F))} (h : (run max_messages feed frames).2 = .reached) :
    max_messages ≠ 0 ∧ max_messages ≤ (run max_messages feed frames).1.count := by
  induction frames generalizing feed with
  | nil => exact absurd h (by simp [run])
  | cons frame frames ih =>
    unfold run at h ⊢
    cases hframe : frame >>= handle feed.seq with
    | error e =>
      rw [hframe] at h
      exact absurd h (by simp)
    | ok handled =>
      rw [hframe] at h
      dsimp only at h ⊢
      split_ifs at h ⊢ with hlimit
      · exact hlimit
      · exact ih h

/-- **The limit only cuts.**  The file of a limited run is the start of the file of the
    unlimited one; the run is cut only once it has counted the limit, and a run that is
    not cut is the unlimited run. -/
theorem run_limit (max_messages : Int) (feed : Feed) (frames : List (Except PyError (Json F))) :
    (run max_messages feed frames).1.file <+: (run 0 feed frames).1.file ∧
      ((run max_messages feed frames).2 = .reached →
        max_messages ≤ (run max_messages feed frames).1.count) ∧
      ((run max_messages feed frames).2 ≠ .reached →
        run max_messages feed frames = run 0 feed frames) := by
  induction frames generalizing feed with
  | nil => exact ⟨List.prefix_rfl, by simp [run], fun _ => rfl⟩
  | cons frame frames ih =>
    unfold run
    cases frame >>= handle feed.seq with
    | error e => exact ⟨List.prefix_rfl, by simp, fun _ => rfl⟩
    | ok h =>
      dsimp only
      rw [if_neg (c := (0 : Int) ≠ 0 ∧ _) (by simp)]
      split_ifs with hlimit
      · exact ⟨isPrefix_run 0 _ frames, fun _ => hlimit.2, by simp⟩
      · exact ih (feed.write h)

end FeedHandler.CoinbaseFeed
