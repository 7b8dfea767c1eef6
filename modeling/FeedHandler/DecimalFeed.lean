import FeedHandler.Binary64
import FeedHandler.CoinbaseFeed

/-!
# Quotes in decimals

The exchange quotes prices and sizes as decimal numerals of up to eight places.  The
adapter reads them into floats, scales and rounds: of a price nothing is lost, a size is
rounded to a micro-unit.  A capture of such quotes never raises, and the golden model
replays its file to the book that the exchange quoted, in ticks and micro-units.
-/

namespace FeedHandler.DecimalFeed

open Binary64 CoinbaseFeed ExceptLoops
open FeedHandler.Parser (RawMsg ADD UPDATE)

/-! ### Decimal numerals and floats -/

/-- The number that a string of digits writes. -/
def digitsValue : List Char → Option Nat :=
  List.foldlM (fun n c => if c.isDigit then some (10 * n + (c.toNat - '0'.toNat)) else none) 0

/-- The number that a plain decimal numeral writes: digits, and digits after a point. -/
def readDecimal (s : String) : Option ℚ :=
  match s.toList.splitOn '.' with
  | [whole] => if whole = [] then none else (digitsValue whole).map fun n => n
  | [whole, places] =>
    if whole = [] ∨ places = [] then none
    else (digitsValue (whole ++ places)).map fun n => n / (10 ^ places.length : Nat)
  | _ => none

variable {F : Type} [PyFloat F]

/-- Python floats as binary64 numbers, as far as they are finite and nothing overflows. -/
structure IsBinary64 (value : F → Option ℚ) : Prop where
  ofStr : ∀ s q, readDecimal s = some q → q < 2 ^ 200 →
    ∃ x, PyFloat.ofStr s = .ok x ∧ value x = some (nearest q)
  isZero : ∀ x q, value x = some q → PyFloat.isZero x = decide (q = 0)
  roundMul : ∀ x q (scale : Nat), value x = some q → scale ≤ 2 ^ 53 → |q * scale| < 2 ^ 200 →
    PyFloat.roundMul x scale = .ok (nearestInt (nearest (q * scale)))

/-! ### What the exchange says -/

/-- A quote of the exchange, price and size in units of `10 ^ -8`. -/
structure DecimalQuote where
  isBid : Bool
  price : Nat
  size : Nat
deriving DecidableEq, Repr

/-- The update `u.2` makes the quote, in numerals of up to eight places. -/
structure Quotes (u : Json F × Json F) (d : DecimalQuote) : Prop where
  side : ∃ side_str, u.2.get "side" (.str "bid") = .ok side_str ∧ side_str.isStr "bid" = d.isBid
  price : ∃ p, (∀ missing, u.2.get "price_level" missing = .ok (.str p)) ∧
    readDecimal p = some ((d.price : ℚ) / (10 ^ 8 : Nat))
  size : ∃ s, (∀ missing, u.2.get "new_quantity" missing = .ok (.str s)) ∧
    readDecimal s = some ((d.size : ℚ) / (10 ^ 8 : Nat))
  price_lt : d.price < 2 ^ 50
  size_lt : d.size < 2 ^ 50

/-- The quote as the book has it: the exact price rounded down to a tick of `10 ^ -6`, and the
    size to a nearest micro-unit. -/
structure RecordedAs (d : DecimalQuote) (q : Level2.Quote) : Prop where
  isBid : q.isBid = d.isBid
  tick : q.tick = d.price / 100
  size : |100 * (q.size : Int) - d.size| ≤ 50

/-! ### Reading and scaling a numeral -/

section Numerals

variable {value : F → Option ℚ} (h64 : IsBinary64 value) {k c D : Nat} {s : String}

theorem nearest_decimal_mem (hk : k < 2 ^ 50) :
    0 ≤ nearest ((k : ℚ) / (10 ^ 8 : Nat)) ∧ nearest ((k : ℚ) / (10 ^ 8 : Nat)) ≤ 2 ^ 50 := by
  have hk' : (k : ℚ) < 2 ^ 50 := by exact_mod_cast hk
  have hnonneg : (0 : ℚ) ≤ (k : ℚ) / (10 ^ 8 : Nat) := by positivity
  have hle : (k : ℚ) / (10 ^ 8 : Nat) ≤ 2 ^ 50 :=
    (div_le_self k.cast_nonneg (by norm_num)).trans hk'.le
  have hpow : (2 : ℚ) ^ 50 = (2 ^ 50 : Int) * 2 ^ (0 : Int) := by norm_num
  refine ⟨nearest_nonneg hnonneg, ?_⟩
  rw [hpow] at hle ⊢
  refine nearest_le (by decide) ?_ hle
  rw [abs_of_nonneg hnonneg]
  exact lt_of_le_of_lt hle (by norm_num)

include h64

/-- The integer that the adapter packs for a numeral: one of those nearest to the exact
    product. -/
theorem roundMul_ofStr (hc : 0 < c) (hD : 0 < D) (hcD : c * D = 10 ^ 8) (hk : k < 2 ^ 50)
    (hread : readDecimal s = some ((k : ℚ) / (10 ^ 8 : Nat))) :
    ∃ (x : F) (raw : Nat), PyFloat.ofStr s = .ok x ∧ PyFloat.roundMul x c = .ok (raw : Int) ∧
      2 * |(D : Int) * raw - k| ≤ D ∧ (PyFloat.isZero x = true → raw = 0) := by
  obtain ⟨hnonneg, hle⟩ := nearest_decimal_mem hk
  have hscale : c ≤ 10 ^ 8 := by
    rw [← hcD]
    exact Nat.le_mul_of_pos_right _ hD
  have hscale' : (c : ℚ) ≤ 10 ^ 8 := by exact_mod_cast hscale
  have hsmall : (k : ℚ) / (10 ^ 8 : Nat) < 2 ^ 200 := by
    have hk' : (k : ℚ) < 2 ^ 50 := by exact_mod_cast hk
    refine lt_of_le_of_lt (div_le_self k.cast_nonneg (by norm_num)) (hk'.trans ?_)
    norm_num
  obtain ⟨x, hx, hvalue⟩ := h64.ofStr s _ hread hsmall
  have hproduct : |nearest ((k : ℚ) / (10 ^ 8 : Nat)) * c| < 2 ^ 200 := by
    rw [abs_of_nonneg (by positivity)]
    refine lt_of_le_of_lt (mul_le_mul hle hscale' c.cast_nonneg (by positivity)) ?_
    norm_num
  have hround := h64.roundMul x _ c hvalue (hscale.trans (by norm_num)) hproduct
  have hnearest : 0 ≤ nearestInt (nearest (nearest ((k : ℚ) / (10 ^ 8 : Nat)) * c)) :=
    le_nearestInt (by
      rw [Int.cast_zero]
      exact nearest_nonneg (by positivity))
  obtain ⟨raw, hraw⟩ := Int.eq_ofNat_of_zero_le hnearest
  rw [hraw] at hround
  refine ⟨x, raw, hx, hround, ?_, fun hzero => ?_⟩
  · have hbound := two_mul_abs_nearestInt_le (k := k) (e := 27) hc hD (by rw [hcD]; decide)
      (by decide) hk
    rwa [hcD, hraw] at hbound
  · have hvalue_zero : nearest ((k : ℚ) / (10 ^ 8 : Nat)) = 0 := by
      rw [h64.isZero x _ hvalue] at hzero
      exact of_decide_eq_true hzero
    rw [hvalue_zero, zero_mul, nearest_zero] at hraw
    exact Int.ofNat_inj.mp (hraw.symm.trans (nearestInt_intCast 0))

end Numerals

/-! ### One update -/

theorem number_of_str {upd : Json F} {key s : String}
    (h : ∀ missing, upd.get key missing = .ok (.str s)) : number upd key = PyFloat.ofStr s := by
  rw [number, h]
  rfl

/-- `a and b or b` is `b`. -/
theorem pyOr_pyAnd (a b : Json F) : (a.pyAnd b).pyOr b = b := by
  unfold Json.pyAnd
  by_cases ha : a.truthy = true
  · rw [if_pos ha, Json.pyOr, ite_self]
  · rw [if_neg ha, Json.pyOr, if_neg ha]

section Update

variable {value : F → Option ℚ} (h64 : IsBinary64 value) {u : Json F × Json F} {d : DecimalQuote}
  (h : Quotes u d)
include h64 h

/-- Nothing is lost of a price. -/
theorem exists_price : ∃ x, number u.2 "price_level" = .ok x ∧
    PyFloat.roundMul x (10 ^ 8) = .ok (d.price : Int) := by
  obtain ⟨p, hget, hread⟩ := h.price
  obtain ⟨x, raw, hx, hround, hnear, -⟩ :=
    roundMul_ofStr h64 (c := 10 ^ 8) (D := 1) (by decide) (by decide) (by decide) h.price_lt hread
  have hraw : raw = d.price := by
    have hdiff := abs_le.mp (by omega : |((1 : Nat) : Int) * raw - d.price| ≤ 0)
    omega
  rw [hraw] at hround
  exact ⟨x, (number_of_str hget).trans hx, hround⟩

/-- A size is rounded to a nearest micro-unit. -/
theorem exists_size : ∃ (x : F) (raw : Nat), number u.2 "new_quantity" = .ok x ∧
    PyFloat.roundMul x (10 ^ 6) = .ok (raw : Int) ∧ |100 * (raw : Int) - d.size| ≤ 50 ∧
      (PyFloat.isZero x = true → raw = 0) := by
  obtain ⟨s, hget, hread⟩ := h.size
  obtain ⟨x, raw, hx, hround, hnear, hzero⟩ :=
    roundMul_ofStr h64 (c := 10 ^ 6) (D := 100) (by decide) (by decide) (by decide) h.size_lt hread
  have hhalf : |100 * (raw : Int) - d.size| ≤ 50 := by
    change 2 * |100 * (raw : Int) - d.size| ≤ 100 at hnear
    omega
  exact ⟨x, raw, (number_of_str hget).trans hx, hround, hhalf, hzero⟩

/-- The record of an update carries its quote. -/
theorem recordedAs_of_sent {m : RawMsg} (hsent : Sent u m) :
    RecordedAs d (Level2.quoteOf (GoldenReplay.ofRaw m)) where
  isBid := by
    obtain ⟨side_str, hget, hbid⟩ := h.side
    obtain ⟨side_str', hget', hside⟩ := hsent.side
    obtain rfl := Except.ok.inj (hget.symm.trans hget')
    change decide (m.side.toNat = 0) = d.isBid
    rw [← hbid, hside]
    cases side_str.isStr "bid" <;> rfl
  tick := by
    obtain ⟨x, hx, hround⟩ := exists_price h64 h
    obtain ⟨x', hx', hround'⟩ := hsent.price
    obtain rfl := Except.ok.inj (hx.symm.trans hx')
    have hraw : d.price = m.price_raw.toNat :=
      Int.ofNat_inj.mp (Except.ok.inj (hround.symm.trans hround'))
    rw [hraw]
    rfl
  size := by
    obtain ⟨x, raw, hx, hround, hhalf, hzero⟩ := exists_size h64 h
    obtain ⟨x', hx', hround', htype⟩ := hsent.size
    obtain rfl := Except.ok.inj (hx.symm.trans hx')
    have hraw : raw = m.size_raw.toNat :=
      Int.ofNat_inj.mp (Except.ok.inj (hround.symm.trans hround'))
    have hsize : (Level2.quoteOf (GoldenReplay.ofRaw m)).size = raw := by
      change (if m.msg_type = DELETE then 0 else m.size_raw.toNat) = raw
      rw [← hraw]
      split_ifs with hdelete
      · refine (hzero ?_).symm
        by_contra hsome
        rw [htype, mtype, if_neg hsome] at hdelete
        split_ifs at hdelete <;> exact absurd hdelete (by decide)
      · rfl
    rwa [hsize]

/-- The update is sent: every field holds its value. -/
theorem handleUpdate_returns {st : Handling} (hseq : st.seq + 1 < 2 ^ 32) :
    ∃ st', handleUpdate u.1 st u.2 = .ok st' := by
  obtain ⟨side_str, hside, -⟩ := h.side
  obtain ⟨p, hprice, -⟩ := h.price
  obtain ⟨s, hsize, -⟩ := h.size
  obtain ⟨x, hx, hprice_raw⟩ := exists_price h64 h
  obtain ⟨y, raw, hy, hsize_raw, hhalf, -⟩ := exists_size h64 h
  rw [number_of_str hprice] at hx
  rw [number_of_str hsize] at hy
  have hraw : raw < 2 ^ 64 := by
    have hsides := abs_le.mp hhalf
    have hlt := h.size_lt
    omega
  have hprice_lt := h.price_lt
  have hfits : (if side_str.isStr "bid" then 0 else 1) < 2 ^ 8 ∧ st.seq + 1 < 2 ^ 32 ∧
      ((0 : Int) ≤ d.price ∧ (d.price : Int) < 2 ^ 64) ∧ (0 : Int) ≤ raw ∧ (raw : Int) < 2 ^ 64 := by
    refine ⟨by split_ifs <;> decide, hseq, by omega, by omega⟩
  obtain ⟨pkt, hpkt⟩ : ∃ pkt, encodeMsg (mtype u.1 y) (if side_str.isStr "bid" then 0 else 1)
      (st.seq + 1) x y = .ok pkt := by
    simp only [encodeMsg, bind_eq_ok]
    exact ⟨_, _, hprice_raw, _, hsize_raw, if_pos hfits⟩
  refine ⟨{ seq := st.seq + 1, packets := st.packets ++ [pkt] }, ?_⟩
  simp only [handleUpdate, bind_eq_ok, pure_eq_ok]
  refine ⟨side_str, hside, _, hsize _, _, hprice _, x, ?_, x, hx, _, hsize _, y, hy, pkt, hpkt, rfl⟩
  rw [pyOr_pyAnd]
  exact hx

end Update

/-! ### A whole capture -/

section Capture

variable {value : F → Option ℚ} (h64 : IsBinary64 value)
include h64

theorem handle_returns {seq : Nat} {msg : Json F} {us : List (Json F × Json F)}
    (hus : updatesIn msg = .ok us) (hall : ∀ u ∈ us, ∃ d, Quotes u d)
    (hseq : seq + us.length < 2 ^ 32) : ∃ st, handle seq msg = .ok st := by
  have hloop : ∃ st, us.foldlM (fun st u => handleUpdate u.1 st u.2)
      ({ seq, packets := [] } : Handling) = .ok st := by
    refine exists_foldlM_eq_ok (fun done st => st.seq = seq + done.length) ?_ rfl
    rintro done u st hpre hst
    obtain ⟨d, hd⟩ := hall u (hpre.subset (by simp))
    have hle := hpre.length_le
    rw [List.length_append, List.length_singleton] at hle
    have hroom : st.seq + 1 < 2 ^ 32 := by omega
    obtain ⟨st', hst'⟩ := handleUpdate_returns h64 hd hroom
    obtain ⟨m, -, -, rfl⟩ := handleUpdate_eq_ok hst'
    refine ⟨_, hst', ?_⟩
    rw [List.length_append, List.length_singleton, hst]
    rfl
  obtain ⟨st, hst⟩ := hloop
  exact ⟨st, handle_eq_ok.mpr ⟨us, hus, hst⟩⟩

/-- No message of decimal quotes ends the run. -/
theorem run_ne_raised {frames : List (Except PyError (Json F))}
    {uss : List (List (Json F × Json F))} (huss : updatesOf frames = .ok uss)
    (hall : ∀ u ∈ uss.flatten, ∃ d, Quotes u d) {feed : Feed}
    (hseq : feed.seq + uss.flatten.length < 2 ^ 32) (max_messages : Int) (e : PyError) :
    (run max_messages feed frames).2 ≠ .raised e := by
  induction frames generalizing uss feed with
  | nil => simp [run]
  | cons frame frames ih =>
    obtain ⟨us, uss, hframe, hrest, rfl⟩ := mapM_cons_eq_ok.mp huss
    obtain ⟨msg, rfl, hus⟩ := bind_eq_ok.mp hframe
    rw [List.flatten_cons, List.length_append] at hseq
    rw [List.flatten_cons, List.forall_mem_append] at hall
    have hroom : feed.seq + us.length < 2 ^ 32 := by omega
    obtain ⟨st, hst⟩ := handle_returns h64 hus hall.1 hroom
    obtain ⟨us', msgs, hus', hrecorded, rfl⟩ := handle_recorded hst
    obtain rfl := Except.ok.inj (hus.symm.trans hus')
    have hcount := hrecorded.sent.length_eq
    unfold run
    rw [show ((.ok msg : Except PyError (Json F)) >>= handle feed.seq) = _ from hst]
    dsimp only
    split_ifs
    · simp
    · refine ih hrest hall.2 ?_
      change feed.seq + msgs.length + uss.flatten.length < 2 ^ 32
      omega

theorem recordedAs_quotes {us : List (Json F × Json F)} {ds : List DecimalQuote}
    {msgs : List RawMsg} (hquotes : List.Forall₂ Quotes us ds) (hsent : List.Forall₂ Sent us msgs) :
    List.Forall₂ RecordedAs ds ((msgs.map GoldenReplay.ofRaw).map Level2.quoteOf) := by
  induction hquotes generalizing msgs with
  | nil =>
    cases hsent
    exact .nil
  | cons hquote _ ih =>
    cases hsent with
    | cons hfirst hrest => exact .cons (recordedAs_of_sent h64 hquote hfirst) (ih hrest)

/-- **A capture keeps the decimals of the exchange.**  From frames whose updates quote
    decimals of up to eight places, a capture takes all of them or as many as it counts,
    and never raises; replayed, the golden book has at each tick what those quotes let rest
    there, their prices in ticks and their sizes to the nearest micro-unit. -/
theorem capture_decimals {frames : List (Except PyError (Json F))}
    {uss : List (List (Json F × Json F))} (huss : updatesOf frames = .ok uss)
    {ds : List DecimalQuote} (hds : List.Forall₂ Quotes uss.flatten ds)
    (hlen : ds.length < 2 ^ 32) (n : Int) :
    (∀ e, (capture n frames).2 ≠ .raised e) ∧
      ((capture n frames).1.count = ds.length ∨ n ≠ 0 ∧ n ≤ (capture n frames).1.count) ∧
      ∃ quotes, List.Forall₂ RecordedAs (ds.take (capture n frames).1.count) quotes ∧
        ∀ isBid tick, ((GoldenReplay.bookAfter
            (GoldenReplay.wireMsgs (capture n frames).1.file)).live isBid).get tick =
          Level2.resting quotes isBid tick := by
  have hall : ∀ u ∈ uss.flatten, ∃ d, Quotes u d := by
    intro u hu
    obtain ⟨i, hi, rfl⟩ := List.getElem_of_mem hu
    have hlen := hds.length_eq
    exact ⟨_, hds.get hi (hlen ▸ hi)⟩
  have hraised : ∀ e, (capture n frames).2 ≠ .raised e :=
    run_ne_raised h64 huss hall (by rw [Nat.zero_add, hds.length_eq]; exact hlen) n
  obtain ⟨taken, uss', msgs, htaken, huss', hholds, hclosed⟩ := capture_holds n frames
  have hpre : uss'.flatten <+: uss.flatten :=
    (isPrefix_of_mapM htaken huss huss').flatten
  have hcount : (capture n frames).1.count = uss'.flatten.length := by
    rw [hholds.count, hholds.recorded.sent.length_eq]
  have hkept : List.Forall₂ Quotes uss'.flatten (ds.take (capture n frames).1.count) := by
    have hseg := List.forall₂_take uss'.flatten.length hds
    rwa [← List.prefix_iff_eq_take.mp hpre, ← hcount] at hseg
  refine ⟨hraised, ?_, (msgs.map GoldenReplay.ofRaw).map Level2.quoteOf, ?_, ?_⟩
  · cases hend : (capture n frames).2 with
    | closed =>
      obtain rfl := hclosed hend
      obtain rfl := Except.ok.inj (huss.symm.trans huss')
      exact .inl (hcount.trans hds.length_eq)
    | reached => exact .inr (limit_of_reached hend)
    | raised e => exact absurd hend (hraised e)
  · exact recordedAs_quotes h64 hkept hholds.recorded.sent
  · intro isBid tick
    rw [hholds.file, GoldenReplay.wireMsgs_flatMap]
    exact Level2.get_live_bookAfter _ isBid tick

end Capture

/-! ### The floats themselves -/

/-- The finite binary64 numbers. -/
structure Finite where
  value : ℚ
  kept : nearest value = value

def Finite.round (q : ℚ) : Finite where
  value := nearest q
  kept := by simpa using nearest_nearest_mul q 0

/-- Floats that neither overflow nor are asked for anything but plain numerals. -/
instance finiteFloat : PyFloat Finite where
  ofStr s :=
    match readDecimal s with
    | some q => .ok (.round q)
    | none => .error .ValueError
  ofInt n := .ok (.round n)
  isZero x := decide (x.value = 0)
  isPos x := decide (0 < x.value)
  roundMul x scale := .ok (nearestInt (nearest (x.value * scale)))

theorem isBinary64_finite : IsBinary64 fun x : Finite => some x.value where
  ofStr := by
    intro s q hread _
    refine ⟨.round q, ?_, rfl⟩
    simp only [PyFloat.ofStr, hread]
  isZero := by
    rintro x q hvalue
    rw [← Option.some.inj hvalue]
    rfl
  roundMul := by
    rintro x q scale hvalue - -
    rw [← Option.some.inj hvalue]
    rfl

def update (side price_level new_quantity : String) : Json Finite :=
  .obj [("side", .str side), ("price_level", .str price_level),
    ("new_quantity", .str new_quantity)]

theorem quotes_update {etype : Json Finite} {side p s : String} {d : DecimalQuote}
    (hside : (Json.str side : Json Finite).isStr "bid" = d.isBid)
    (hp : readDecimal p = some ((d.price : ℚ) / (10 ^ 8 : Nat)))
    (hs : readDecimal s = some ((d.size : ℚ) / (10 ^ 8 : Nat)))
    (hprice : d.price < 2 ^ 50) (hsize : d.size < 2 ^ 50) :
    Quotes (etype, update side p s) d where
  side := ⟨.str side, rfl, hside⟩
  price := ⟨p, fun _ => rfl, hp⟩
  size := ⟨s, fun _ => rfl, hs⟩
  price_lt := hprice
  size_lt := hsize

/-- Two bids and an ask; the better bid is then deleted. -/
def decimalFrames : List (Except PyError (Json Finite)) :=
  [.ok (.obj [("channel", .str "l2_data"), ("events", .arr [.obj [("type", .str "snapshot"),
      ("updates", .arr [update "bid" "64999.99" "0.12345678", update "bid" "64999.5" "2",
        update "offer" "65000.00000001" "0.00000049"])]])]),
    .ok (.obj [("channel", .str "l2_data"), ("events", .arr [.obj [("type", .str "update"),
      ("updates", .arr [update "bid" "64999.99" "0"])]])])]

def decimalQuotes : List DecimalQuote :=
  [⟨true, 6499999000000, 12345678⟩, ⟨true, 6499950000000, 200000000⟩,
    ⟨false, 6500000000001, 49⟩, ⟨true, 6499999000000, 0⟩]

theorem capture_decimals_decimalFrames :
    (∀ e, (capture 0 decimalFrames).2 ≠ .raised e) ∧
      ((capture 0 decimalFrames).1.count = decimalQuotes.length ∨
        (0 : Int) ≠ 0 ∧ 0 ≤ ((capture 0 decimalFrames).1.count : Int)) ∧
      ∃ quotes, List.Forall₂ RecordedAs
          (decimalQuotes.take (capture 0 decimalFrames).1.count) quotes ∧
        ∀ isBid tick, ((GoldenReplay.bookAfter
            (GoldenReplay.wireMsgs (capture 0 decimalFrames).1.file)).live isBid).get tick =
          Level2.resting quotes isBid tick := by
  have hupdates : updatesOf decimalFrames = .ok [[_, _, _], [_]] := rfl
  refine capture_decimals isBinary64_finite hupdates ?_ (by decide) 0
  exact .cons (quotes_update rfl (by decide +kernel) (by decide +kernel) (by decide) (by decide))
    (.cons (quotes_update rfl (by decide +kernel) (by decide +kernel) (by decide) (by decide))
    (.cons (quotes_update rfl (by decide +kernel) (by decide +kernel) (by decide) (by decide))
    (.cons (quotes_update rfl (by decide +kernel) (by decide +kernel) (by decide) (by decide))
      .nil)))

end FeedHandler.DecimalFeed
