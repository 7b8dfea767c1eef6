import FeedHandler.ExceptLoops
import FeedHandler.GoldenEndToEnd
import FeedHandler.PynqDriver

/-!
# A run of the driver

`run` of `pynq_driver.py`: what the driver collects goes to a JSON file, and with a golden
file `diff_hw_vs_ref` compares the two.  The comparison reads a midprice and bids from every
record of either file, and those of the driver have neither.
-/

namespace FeedHandler.DriverRun

open ExceptLoops GoldenDiff GoldenReplay PynqDriver

inductive PyError where
  | AssertionError (message : String)
  | KeyError (key : String)
deriving DecidableEq, Repr

/-- A record of a JSON file under the keys that `diff_hw_vs_ref` reads, `none` for a key
    that is not there. -/
structure JsonRecord where
  seq_num : Option Int
  get : Signal → Option Int
  bids : Option (List (Int × Int))

/-- `record[key]`. -/
def item {α : Type} (key : String) : Option α → Except PyError α
  | some value => .ok value
  | none => .error (.KeyError key)

/-! ### The diff of two files -/

def checkItem (tolerance seq : Int) (h r : JsonRecord) (tally : Tally) (signal : Signal) :
    Except PyError Tally := do
  let key := signal.key
  let hw ← item key (h.get signal)
  let ref ← item key (r.get signal)
  if |hw - ref| > tolerance then
    return tally.mismatch s!"[seq={seq}] {key}: hw={hw} ref={ref} MISMATCH"
  else return tally

def checkItems (tolerance : Int) (tally : Tally) (pair : JsonRecord × JsonRecord) :
    Except PyError Tally := do
  let h := pair.1
  let r := pair.2
  let seq ← item "seq_num" r.seq_num
  let tally ← checkedKeys.foldlM (checkItem tolerance seq h r) tally
  let hw ← item "bids" h.bids
  let ref ← item "bids" r.bids
  return ((hw.take 3).zip (ref.take 3)).zipIdx.foldl (checkBid seq) tally

/-- `diff_hw_vs_ref` on files whose records may lack keys. -/
def diffFiles (hw ref : List JsonRecord) (tolerance : Int) : Except PyError Report :=
  let n := hw.length
  let m := ref.length
  if n ≠ m then .error (.AssertionError s!"Length mismatch: hw={n} ref={m}")
  else do
    let tally ← (hw.zip ref).foldlM (checkItems tolerance) { errors := 0, printed := [] }
    let errors := tally.errors
    let verdict :=
      if errors = 0 then s!"PASS — {n} snapshots match (tolerance={tolerance})"
      else s!"FAIL — {errors} mismatches in {n} snapshots"
    return { printed := tally.printed ++ [verdict], passed := errors = 0 }

/-- A record with every key. -/
def complete (record : SnapRecord) : JsonRecord where
  seq_num := some record.seq_num
  get signal := some (record.get signal)
  bids := some record.bids

theorem checkItem_complete (tolerance : Int) (h r : SnapRecord) (tally : Tally) (signal : Signal) :
    checkItem tolerance r.seq_num (complete h) (complete r) tally signal =
      .ok (checkKey tolerance h r tally signal) := by
  change (if _ then _ else _) = Except.ok (if _ then _ else _)
  split_ifs <;> rfl

theorem checkItems_complete (tolerance : Int) (tally : Tally) (h r : SnapRecord) :
    checkItems tolerance tally (complete h, complete r) =
      .ok (checkRecord tolerance tally (h, r)) := by
  have hkeys := foldlM_eq_ok (checkItem_complete tolerance h r) checkedKeys tally
  change Except.bind (checkedKeys.foldlM _ tally) _ = _
  rw [hkeys]
  rfl

/-- On complete records nothing raises but the assertion. -/
theorem diffFiles_complete (hw ref : List SnapRecord) (tolerance : Int) :
    diffFiles (hw.map complete) (ref.map complete) tolerance =
      (diffHwVsRef hw ref tolerance).mapError .AssertionError := by
  have hpass : ∀ tally (pair : SnapRecord × SnapRecord),
      checkItems tolerance tally (complete pair.1, complete pair.2) =
        .ok (checkRecord tolerance tally pair) :=
    fun tally pair => checkItems_complete tolerance tally pair.1 pair.2
  have hloop := foldlM_eq_ok hpass (hw.zip ref) { errors := 0, printed := [] }
  unfold diffFiles diffHwVsRef
  simp only [List.length_map, List.zip_map, List.foldlM_map, Prod.map]
  by_cases hlen : hw.length ≠ ref.length
  · rw [if_pos hlen, if_pos hlen]
    rfl
  · rw [if_neg hlen, if_neg hlen, hloop]
    rfl

/-! ### The driver's file -/

/-- An entry of the file that the driver writes. -/
def entry (result : HwResult) : JsonRecord where
  seq_num := some result.seq_num
  get
    | .imbalance => some result.imbalance
    | .midprice => none
    | .microprice => some result.microprice
    | .spread => some result.spread
    | .vwap_bid => some result.vwap_bid
    | .vwap_ask => some result.vwap_ask
  bids := none

/-- The file that `process_replay` writes for a replay. -/
def goldenFile (replay : List (BitVec 8)) : List JsonRecord :=
  ((processReplay replay).map GoldenEndToEnd.refRecord).map complete

/-- What a run writes, and how its comparison ends, if there is one. -/
structure Outcome where
  written : List JsonRecord
  compared : Except PyError (Option Report)

def run (PYNQ_AVAILABLE : Bool) (dma : List (BitVec 8) → List (BitVec 8))
    (replay : List (BitVec 8)) (golden : Option (List JsonRecord)) : Outcome where
  written := (streamAndCollect PYNQ_AVAILABLE dma replay).map entry
  compared :=
    match golden with
    | none => .ok none
    | some ref => do
      let report ← diffFiles ((streamAndCollect PYNQ_AVAILABLE dma replay).map entry) ref TOLERANCE
      return some report

/-- The second key of the loop is not there. -/
theorem checkItems_entry (tolerance : Int) (tally : Tally) (result : HwResult) (r : SnapRecord) :
    checkItems tolerance tally (entry result, complete r) = .error (.KeyError "midprice") := by
  have hfirst : ∃ tally', checkItem tolerance r.seq_num (entry result) (complete r) tally
      .imbalance = .ok tally' := by
    dsimp only [checkItem, entry, complete, item, bind, Except.bind]
    split_ifs
    · exact ⟨_, rfl⟩
    · exact ⟨_, rfl⟩
  obtain ⟨tally', htally'⟩ := hfirst
  change Except.bind (checkedKeys.foldlM _ tally) _ = _
  rw [checkedKeys, List.foldlM_cons, htally']
  rfl

/-- Against a golden file there are three ends: a failed assertion, a missing key, and a
    verdict on no record at all. -/
theorem diffFiles_entries (hw : List HwResult) (ref : List SnapRecord) (tolerance : Int) :
    (hw.length ≠ ref.length ∧ ∃ message,
      diffFiles (hw.map entry) (ref.map complete) tolerance = .error (.AssertionError message)) ∨
    (hw.length = ref.length ∧ ref ≠ [] ∧
      diffFiles (hw.map entry) (ref.map complete) tolerance = .error (.KeyError "midprice")) ∨
    (hw.length = ref.length ∧ ref = [] ∧
      ∃ report, diffFiles (hw.map entry) (ref.map complete) tolerance = .ok report) := by
  by_cases hlen : hw.length = ref.length
  · have hsame : ¬(hw.map entry).length ≠ (ref.map complete).length := by simpa using hlen
    rw [diffFiles, if_neg hsame]
    cases hw with
    | nil =>
      have hnone : ref = [] := List.eq_nil_of_length_eq_zero hlen.symm
      exact Or.inr (Or.inr ⟨hlen, hnone, by rw [hnone]; exact ⟨_, rfl⟩⟩)
    | cons result results =>
      obtain ⟨r, rs, rfl⟩ : ∃ r rs, ref = r :: rs :=
        List.exists_cons_of_length_pos (hlen ▸ Nat.succ_pos _)
      refine Or.inr (Or.inl ⟨hlen, by simp, ?_⟩)
      rw [List.map_cons, List.map_cons, List.zip_cons_cons, List.foldlM_cons, checkItems_entry]
      rfl
  · have hdiffer : (hw.map entry).length ≠ (ref.map complete).length := by simpa using hlen
    rw [diffFiles, if_pos hdiffer]
    exact Or.inl ⟨hlen, _, rfl⟩

theorem length_streamAndCollect_le (PYNQ_AVAILABLE : Bool)
    (dma : List (BitVec 8) → List (BitVec 8)) (replay : List (BitVec 8)) :
    (streamAndCollect PYNQ_AVAILABLE dma replay).length ≤ replay.length / PynqDriver.WIRE_BYTES := by
  unfold streamAndCollect
  split_ifs
  · exact length_collectFrom_le _ _ _
  · exact Nat.zero_le _

theorem length_processReplay (replay : List (BitVec 8)) :
    (processReplay replay).length = replay.length / PynqDriver.WIRE_BYTES := by
  rw [processReplay_eq, Sync.length_leading, wireMsgs, List.length_map, List.length_range]
  rfl

/-- **The driver compares nothing.**  Whatever the board sends back, a run against the
    golden file of its own replay reaches a verdict only if the replay holds no message; if
    the driver has collected a record for every message, the comparison raises at the first
    one. -/
theorem run_compares_iff (PYNQ_AVAILABLE : Bool) (dma : List (BitVec 8) → List (BitVec 8))
    (replay : List (BitVec 8)) :
    let outcome := run PYNQ_AVAILABLE dma replay (some (goldenFile replay))
    ((∃ report, outcome.compared = .ok report) ↔ replay.length < PynqDriver.WIRE_BYTES) ∧
      (outcome.compared = .error (.KeyError "midprice") ↔
        PynqDriver.WIRE_BYTES ≤ replay.length ∧
          outcome.written.length = replay.length / PynqDriver.WIRE_BYTES) := by
  let hw := streamAndCollect PYNQ_AVAILABLE dma replay
  let ref := (processReplay replay).map GoldenEndToEnd.refRecord
  have hn : ref.length = replay.length / PynqDriver.WIRE_BYTES := by
    rw [List.length_map, length_processReplay]
  have hle : hw.length ≤ ref.length := hn ▸ length_streamAndCollect_le PYNQ_AVAILABLE dma replay
  have hshort : ref = [] ↔ replay.length < PynqDriver.WIRE_BYTES := by
    rw [← List.length_eq_zero_iff, hn, Nat.div_eq_zero_iff]
    simp [PynqDriver.WIRE_BYTES]
  have hwritten : (hw.map entry).length = hw.length := List.length_map _
  change ((∃ report, Except.bind (diffFiles (hw.map entry) (ref.map complete) TOLERANCE) _ =
      .ok report) ↔ _) ∧
    (Except.bind (diffFiles (hw.map entry) (ref.map complete) TOLERANCE) _ = _ ↔
      _ ∧ (hw.map entry).length = _)
  rw [← hshort, ← Nat.not_lt, ← hshort, ← hn, hwritten]
  rcases diffFiles_entries hw ref TOLERANCE with ⟨hlen, message, hend⟩ | ⟨hlen, hsome, hend⟩ |
    ⟨hlen, hnone, report, hend⟩
  · have hsome : ref ≠ [] := by
      intro hnone
      rw [hnone] at hle hlen
      exact hlen (Nat.le_antisymm hle (Nat.zero_le _))
    simp [hend, hsome, hlen, Except.bind]
  · simp [hend, hsome, hlen, Except.bind]
  · rw [hend]
    simp [hnone, Except.bind, pure, Except.pure]

end FeedHandler.DriverRun
