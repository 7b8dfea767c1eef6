import Mathlib.Algebra.Order.Ring.Int
import Mathlib.Data.List.Forall2

/-!
# The golden diff

`diff_hw_vs_ref` of `order_book_ref.py`: two JSON lists of snapshot records, compared
one by one.  The loop looks at four of the six signals and at the bid prices of the
levels both records list, three at most.  It passes exactly when these agree, so a pass
says nothing of the two average prices, of the ask side, or of a reference level the
hardware does not list.
-/

namespace FeedHandler.GoldenDiff

/-- A snapshot record of either file; a level is its price and its size. -/
structure SnapRecord where
  seq_num : Int
  imbalance : Int
  midprice : Int
  microprice : Int
  spread : Int
  vwap_bid : Int
  vwap_ask : Int
  bids : List (Int × Int)
  asks : List (Int × Int)
deriving DecidableEq, Repr

/-- The keys of the signals. -/
inductive Signal
  | imbalance
  | midprice
  | microprice
  | spread
  | vwap_bid
  | vwap_ask
deriving DecidableEq, Repr

def Signal.key : Signal → String
  | .imbalance => "imbalance"
  | .midprice => "midprice"
  | .microprice => "microprice"
  | .spread => "spread"
  | .vwap_bid => "vwap_bid"
  | .vwap_ask => "vwap_ask"

def SnapRecord.get (record : SnapRecord) : Signal → Int
  | .imbalance => record.imbalance
  | .midprice => record.midprice
  | .microprice => record.microprice
  | .spread => record.spread
  | .vwap_bid => record.vwap_bid
  | .vwap_ask => record.vwap_ask

/-- The default of `tolerance`. -/
def TOLERANCE : Int := 1

/-- Two values differ by at most the tolerance. -/
def Within (tolerance hw ref : Int) : Prop := |hw - ref| ≤ tolerance

instance (tolerance hw ref : Int) : Decidable (Within tolerance hw ref) :=
  inferInstanceAs (Decidable (_ ≤ _))

/-! ### The loop -/

/-- The local `errors` and the lines printed so far. -/
structure Tally where
  errors : Nat
  printed : List String
deriving Repr

def Tally.mismatch (tally : Tally) (line : String) : Tally where
  errors := tally.errors + 1
  printed := tally.printed ++ [line]

/-- The keys the loop goes through. -/
def checkedKeys : List Signal := [.imbalance, .midprice, .microprice, .spread]

def checkKey (tolerance : Int) (h r : SnapRecord) (tally : Tally) (signal : Signal) : Tally :=
  let seq := r.seq_num
  let key := signal.key
  let hw := h.get signal
  let ref := r.get signal
  if |hw - ref| > tolerance then
    tally.mismatch s!"[seq={seq}] {key}: hw={hw} ref={ref} MISMATCH"
  else tally

def checkBid (seq : Int) (tally : Tally) (entry : ((Int × Int) × (Int × Int)) × Nat) : Tally :=
  let hb := entry.1.1.1
  let rb := entry.1.2.1
  let j := entry.2
  if hb ≠ rb then tally.mismatch s!"[seq={seq}] bids[{j}].price: hw={hb} ref={rb} MISMATCH"
  else tally

def checkRecord (tolerance : Int) (tally : Tally) (pair : SnapRecord × SnapRecord) : Tally :=
  let h := pair.1
  let r := pair.2
  let tally := checkedKeys.foldl (checkKey tolerance h r) tally
  ((h.bids.take 3).zip (r.bids.take 3)).zipIdx.foldl (checkBid r.seq_num) tally

/-- What a call prints and returns. -/
structure Report where
  printed : List String
  passed : Bool
deriving Repr

def diffHwVsRef (hw ref : List SnapRecord) (tolerance : Int) : Except String Report :=
  let n := hw.length
  let m := ref.length
  if n ≠ m then .error s!"Length mismatch: hw={n} ref={m}"
  else
    let tally := (hw.zip ref).foldl (checkRecord tolerance) { errors := 0, printed := [] }
    let errors := tally.errors
    let verdict :=
      if errors = 0 then s!"PASS — {n} snapshots match (tolerance={tolerance})"
      else s!"FAIL — {errors} mismatches in {n} snapshots"
    .ok { printed := tally.printed ++ [verdict], passed := errors = 0 }

/-- The call returns `True`. -/
def Passes (hw ref : List SnapRecord) (tolerance : Int) : Prop :=
  ∃ report, diffHwVsRef hw ref tolerance = .ok report ∧ report.passed = true

/-! ### What a record is checked for -/

/-- The first three reference levels are listed, each with the reference price. -/
def SameTop (hw ref : List (Int × Int)) : Prop :=
  ∀ j < 3, ∀ level ∈ ref[j]?, ∃ shown ∈ hw[j]?, shown.1 = level.1

/-- The record matches the reference. -/
structure Matches (tolerance : Int) (h r : SnapRecord) : Prop where
  signals : ∀ signal, Within tolerance (h.get signal) (r.get signal)
  bids : SameTop h.bids r.bids
  asks : SameTop h.asks r.asks

/-- What the loop looks at agrees. -/
structure Compared (tolerance : Int) (h r : SnapRecord) : Prop where
  signals : ∀ signal ∈ checkedKeys, Within tolerance (h.get signal) (r.get signal)
  bids : ∀ j < 3, ∀ hb ∈ h.bids[j]?, ∀ rb ∈ r.bids[j]?, hb.1 = rb.1

/-- What the loop does not look at agrees. -/
structure Unchecked (tolerance : Int) (h r : SnapRecord) : Prop where
  vwap_bid : Within tolerance h.vwap_bid r.vwap_bid
  vwap_ask : Within tolerance h.vwap_ask r.vwap_ask
  listed : min 3 r.bids.length ≤ h.bids.length
  asks : SameTop h.asks r.asks

/-- The first three reference levels are listed with their prices: as many as there are,
    and none of those both sides list has another price. -/
theorem sameTop_iff {hw ref : List (Int × Int)} :
    SameTop hw ref ↔
      (∀ j < 3, ∀ hb ∈ hw[j]?, ∀ rb ∈ ref[j]?, hb.1 = rb.1) ∧ min 3 ref.length ≤ hw.length := by
  constructor
  · intro h
    constructor
    · intro j hj hb hhb rb hrb
      obtain ⟨shown, hshown, hprice⟩ := h j hj rb hrb
      rw [Option.mem_unique hhb hshown]
      exact hprice
    · by_contra hlt
      have hj : hw.length < ref.length := by omega
      obtain ⟨shown, hshown, -⟩ := h hw.length (by omega) ref[hw.length]
        (List.getElem?_eq_getElem hj)
      simp at hshown
  · rintro ⟨hprices, hlen⟩ j hj level hlevel
    rcases List.getElem?_eq_some_iff.mp hlevel with ⟨hlt, -⟩
    have hlisted : j < hw.length := by omega
    refine ⟨hw[j], List.getElem?_eq_getElem hlisted, ?_⟩
    exact hprices j hj _ (List.getElem?_eq_getElem hlisted) level hlevel

theorem matches_iff {tolerance : Int} {h r : SnapRecord} :
    Matches tolerance h r ↔ Compared tolerance h r ∧ Unchecked tolerance h r := by
  constructor
  · rintro ⟨hsignals, hbids, hasks⟩
    rcases sameTop_iff.mp hbids with ⟨hprices, hlisted⟩
    refine ⟨⟨fun signal _ => hsignals signal, hprices⟩, ?_⟩
    exact ⟨hsignals .vwap_bid, hsignals .vwap_ask, hlisted, hasks⟩
  · rintro ⟨⟨hsignals, hprices⟩, hvwap_bid, hvwap_ask, hlisted, hasks⟩
    refine ⟨fun signal => ?_, sameTop_iff.mpr ⟨hprices, hlisted⟩, hasks⟩
    cases signal with
    | imbalance => exact hsignals .imbalance (by decide)
    | midprice => exact hsignals .midprice (by decide)
    | microprice => exact hsignals .microprice (by decide)
    | spread => exact hsignals .spread (by decide)
    | vwap_bid => exact hvwap_bid
    | vwap_ask => exact hvwap_ask

/-! ### The verdict -/

/-- A loop whose body counts an error exactly on a bad item ends without one exactly when
    there is no bad item. -/
theorem errors_foldl {α : Type} {check : Tally → α → Tally} {good : α → Prop}
    (hcheck : ∀ tally x, (check tally x).errors = 0 ↔ tally.errors = 0 ∧ good x) (xs : List α)
    (tally : Tally) :
    (xs.foldl check tally).errors = 0 ↔ tally.errors = 0 ∧ ∀ x ∈ xs, good x := by
  induction xs generalizing tally with
  | nil => simp
  | cons x xs ih =>
    rw [List.foldl_cons, ih, hcheck, List.forall_mem_cons, and_assoc]

theorem errors_checkKey (tolerance : Int) (h r : SnapRecord) (tally : Tally) (signal : Signal) :
    (checkKey tolerance h r tally signal).errors = 0 ↔
      tally.errors = 0 ∧ Within tolerance (h.get signal) (r.get signal) := by
  unfold checkKey Within
  simp only [gt_iff_lt]
  split_ifs with hfar
  · simp [Tally.mismatch, hfar]
  · simp [not_lt.mp hfar]

theorem errors_checkBid (seq : Int) (tally : Tally) (entry : ((Int × Int) × (Int × Int)) × Nat) :
    (checkBid seq tally entry).errors = 0 ↔ tally.errors = 0 ∧ entry.1.1.1 = entry.1.2.1 := by
  unfold checkBid
  simp only
  split_ifs with hprice
  · simp [Tally.mismatch, hprice]
  · simp [not_not.mp hprice]

/-- The zipped and numbered top levels, one by one. -/
theorem forall_zipIdx_iff {hw ref : List (Int × Int)} :
    (∀ entry ∈ ((hw.take 3).zip (ref.take 3)).zipIdx, entry.1.1.1 = entry.1.2.1) ↔
      ∀ j < 3, ∀ hb ∈ hw[j]?, ∀ rb ∈ ref[j]?, hb.1 = rb.1 := by
  constructor
  · intro h j hj hb hhb rb hrb
    refine h ((hb, rb), j) ?_
    rw [List.mem_zipIdx_iff_getElem?, List.getElem?_zip_eq_some, List.getElem?_take_of_lt hj,
      List.getElem?_take_of_lt hj]
    exact ⟨hhb, hrb⟩
  · rintro h ⟨⟨hb, rb⟩, j⟩ hentry
    rw [List.mem_zipIdx_iff_getElem?, List.getElem?_zip_eq_some] at hentry
    rcases hentry with ⟨hhb, hrb⟩
    have hj : j < 3 := by
      rcases List.getElem?_eq_some_iff.mp hhb with ⟨hlt, -⟩
      exact Nat.lt_of_lt_of_le hlt (List.length_take_le 3 hw)
    rw [List.getElem?_take_of_lt hj] at hhb hrb
    exact h j hj hb hhb rb hrb

theorem errors_checkRecord (tolerance : Int) (tally : Tally) (pair : SnapRecord × SnapRecord) :
    (checkRecord tolerance tally pair).errors = 0 ↔
      tally.errors = 0 ∧ Compared tolerance pair.1 pair.2 := by
  unfold checkRecord
  simp only
  rw [errors_foldl (errors_checkBid _), errors_foldl (errors_checkKey tolerance pair.1 pair.2),
    forall_zipIdx_iff, and_assoc]
  exact and_congr_right fun _ => ⟨fun h => ⟨h.1, h.2⟩, fun h => ⟨h.1, h.2⟩⟩

/-- The call returns `True` when the lists are of one length and no error was counted. -/
theorem passes_iff_errors {hw ref : List SnapRecord} {tolerance : Int} :
    Passes hw ref tolerance ↔ hw.length = ref.length ∧
      ((hw.zip ref).foldl (checkRecord tolerance) { errors := 0, printed := [] }).errors = 0 := by
  unfold Passes diffHwVsRef
  constructor
  · rintro ⟨report, hreport, hpassed⟩
    by_cases hlen : hw.length = ref.length
    · simp only [hlen, ne_eq, not_true_eq_false, if_false, Except.ok.injEq] at hreport
      rw [← hreport, decide_eq_true_eq] at hpassed
      exact ⟨hlen, hpassed⟩
    · simp only [hlen, ne_eq, not_false_eq_true, if_true] at hreport
      cases hreport
  · rintro ⟨hlen, herrors⟩
    simp only [hlen, ne_eq, not_true_eq_false, if_false]
    exact ⟨_, rfl, decide_eq_true herrors⟩

/-- **What a pass means**: as many records on both sides, and at every index what the loop
    looks at agrees. -/
theorem passes_iff {hw ref : List SnapRecord} {tolerance : Int} :
    Passes hw ref tolerance ↔ List.Forall₂ (Compared tolerance) hw ref := by
  rw [passes_iff_errors, errors_foldl (errors_checkRecord tolerance), List.forall₂_iff_zip]
  refine and_congr_right fun _ => ?_
  constructor
  · intro h a b hpair
    exact h.2 (a, b) hpair
  · intro h
    exact ⟨rfl, fun pair hpair => h hpair⟩

/-- The hardware record lists no ask and a negative bid average. -/
def goldenRecord : SnapRecord where
  seq_num := 1
  imbalance := 0
  midprice := 100
  microprice := 100
  spread := 2
  vwap_bid := 25344
  vwap_ask := 25856
  bids := [(99, 5)]
  asks := [(101, 5)]

def strayRecord : SnapRecord := { goldenRecord with vwap_bid := -1, asks := [] }

/-- **A pass is not a match.** -/
theorem strayRecord_passes :
    ¬ ∀ (hw ref : List SnapRecord) (tolerance : Int), hw.length = ref.length → 0 ≤ tolerance →
      Passes hw ref tolerance → List.Forall₂ (Matches tolerance) hw ref := by
  intro h
  have hpasses : Passes [strayRecord] [goldenRecord] TOLERANCE := by
    refine passes_iff.mpr (List.Forall₂.cons ⟨by decide, ?_⟩ List.Forall₂.nil)
    rintro j - hb hhb rb hrb
    exact congrArg Prod.fst (Option.mem_unique hhb hrb)
  have hmatches := h [strayRecord] [goldenRecord] TOLERANCE rfl (by decide) hpasses
  cases hmatches with
  | cons hrecord _ => exact absurd (hrecord.signals .vwap_bid) (by decide)

/-- **When a pass is a match.**  Either the loop finds a difference at some index, or at
    every index what it does not look at agrees: the average prices, the asks, and that
    the first three reference bids are listed. -/
theorem passes_matches_iff (hw ref : List SnapRecord) (tolerance : Int) :
    (Passes hw ref tolerance → List.Forall₂ (Matches tolerance) hw ref) ↔
      (¬ List.Forall₂ (Compared tolerance) hw ref ∨
        List.Forall₂ (Unchecked tolerance) hw ref) := by
  have hsplit : List.Forall₂ (Matches tolerance) hw ref ↔
      List.Forall₂ (Compared tolerance) hw ref ∧ List.Forall₂ (Unchecked tolerance) hw ref := by
    simp only [List.forall₂_iff_zip, matches_iff]
    constructor
    · rintro ⟨hlen, h⟩
      exact ⟨⟨hlen, fun hpair => (h hpair).1⟩, ⟨hlen, fun hpair => (h hpair).2⟩⟩
    · rintro ⟨⟨hlen, hcompared⟩, ⟨_, hunchecked⟩⟩
      exact ⟨hlen, fun hpair => ⟨hcompared hpair, hunchecked hpair⟩⟩
  rw [passes_iff, hsplit]
  tauto

end FeedHandler.GoldenDiff
