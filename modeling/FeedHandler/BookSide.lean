import FeedHandler.PriceLevelStore
import FeedHandler.Ladder
import Mathlib.Tactic.Ring
import Mathlib.Algebra.Order.Ring.Int
import Mathlib.Order.Interval.Set.Defs

/-!
# One side of the book as a ladder

What a price-level store is for: it keeps at most `depth` price levels, best
first, each with a non-zero size.  `BookSide` is that object, with its invariant
in the type, and `BookSide.apply` is the effect of one message on it.  The store's
whole three-stage update refines it: a register file that holds a side holds
`apply` of that side afterwards.

A message at a new price enters a store whose last level has been given up, so a
full store always loses its last level, also when the new price is worse than
every level it holds.
-/

namespace FeedHandler

open Chisel PriceLevelStore

variable {depth priceBits sizeBits : Nat}

/-- A price level that is there: price and size. -/
abbrev Entry (priceBits sizeBits : Nat) := BitVec priceBits × BitVec sizeBits

/-- The position of a price in the order of a side: ascending means best first,
    so bids count downwards. -/
def priceRank (isBid : Bool) (price : BitVec priceBits) : Int :=
  if isBid then -(price.toNat : Int) else price.toNat

def rank (isBid : Bool) (e : Entry priceBits sizeBits) : Int := priceRank isBid e.1

theorem priceRank_inj {isBid : Bool} {p q : BitVec priceBits} :
    priceRank isBid p = priceRank isBid q ↔ p = q := by
  refine ⟨fun h => BitVec.eq_of_toNat_eq ?_, fun h => h ▸ rfl⟩
  cases isBid <;> simp only [priceRank] at h <;> simp at h <;> omega

theorem priceRank_lt_iff (isBid : Bool) (p q : BitVec priceBits) :
    priceRank isBid p < priceRank isBid q ↔ if isBid then q < p else p < q := by
  cases isBid <;> simp [priceRank, BitVec.lt_def]

/-- **A side of the book.**  At most `depth` levels, best first with no price
    twice, every size non-zero. -/
structure BookSide (isBid : Bool) (depth priceBits sizeBits : Nat) where
  entries : List (Entry priceBits sizeBits)
  bounded : entries.length ≤ depth
  ascending : Ladder.Ascending (rank isBid) entries
  nonzero : ∀ e ∈ entries, e.2 ≠ 0

namespace BookSide

variable {isBid : Bool}

@[ext] theorem ext {side side' : BookSide isBid depth priceBits sizeBits}
    (h : side.entries = side'.entries) : side = side' := by
  cases side; cases side'; simpa using h

def empty : BookSide isBid depth priceBits sizeBits where
  entries := []
  bounded := Nat.zero_le _
  ascending := Ladder.ascending_nil
  nonzero := by simp

/-- The levels after one message: a delete removes the level at its price, a
    price that is there gets the new size, and a new price is placed after the
    last of `depth` levels has been given up. -/
def applyEntries (isBid : Bool) (depth : Nat) (entries : List (Entry priceBits sizeBits))
    (price : BitVec priceBits) (size : BitVec sizeBits) : List (Entry priceBits sizeBits) :=
  if size = 0 then Ladder.discard (rank isBid) (priceRank isBid price) entries
  else if ∃ e ∈ entries, e.1 = price then Ladder.put (rank isBid) (price, size) entries
  else Ladder.put (rank isBid) (price, size) (entries.take (depth - 1))

theorem ascending_applyEntries (side : BookSide isBid depth priceBits sizeBits)
    (price : BitVec priceBits) (size : BitVec sizeBits) :
    Ladder.Ascending (rank isBid) (applyEntries isBid depth side.entries price size) := by
  unfold applyEntries
  split_ifs with hsize hthere
  · exact side.ascending.discard _
  · exact side.ascending.put _
  · exact (side.ascending.sublist (List.take_sublist _ _)).put _

theorem nonzero_applyEntries (side : BookSide isBid depth priceBits sizeBits)
    (price : BitVec priceBits) (size : BitVec sizeBits) :
    ∀ e ∈ applyEntries isBid depth side.entries price size, e.2 ≠ 0 := by
  intro e he
  unfold applyEntries at he
  split_ifs at he with hsize hthere
  · exact side.nonzero e (Ladder.mem_discard.mp he).1
  · rcases Ladder.mem_of_mem_put he with rfl | he
    · exact hsize
    · exact side.nonzero e he
  · rcases Ladder.mem_of_mem_put he with rfl | he
    · exact hsize
    · exact side.nonzero e (List.mem_of_mem_take he)

variable [NeZero depth]

theorem length_applyEntries_le (side : BookSide isBid depth priceBits sizeBits)
    (price : BitVec priceBits) (size : BitVec sizeBits) :
    (applyEntries isBid depth side.entries price size).length ≤ depth := by
  have hdepth : 0 < depth := Nat.pos_of_ne_zero (NeZero.ne depth)
  have hbounded := side.bounded
  unfold applyEntries
  split_ifs with hsize hthere
  · exact (List.length_filter_le _ _).trans hbounded
  · obtain ⟨e, he, hprice⟩ := hthere
    have hkey : rank isBid e = rank isBid (price, size) := congrArg (priceRank isBid) hprice
    rwa [side.ascending.length_put_of_mem he hkey]
  · refine Ladder.length_put_le.trans ?_
    rw [List.length_take]
    omega

def apply (side : BookSide isBid depth priceBits sizeBits) (price : BitVec priceBits)
    (size : BitVec sizeBits) : BookSide isBid depth priceBits sizeBits where
  entries := applyEntries isBid depth side.entries price size
  bounded := side.length_applyEntries_le price size
  ascending := side.ascending_applyEntries price size
  nonzero := side.nonzero_applyEntries price size

end BookSide

/-! ### Register files that hold a side -/

/-- The entry a slot shows, if it is valid. -/
def Level.asEntry (level : Level priceBits sizeBits) : Option (Entry priceBits sizeBits) :=
  if level.valid then some (level.price, level.size) else none

def validLevels (store : Vector (Level priceBits sizeBits) depth) :
    List (Entry priceBits sizeBits) :=
  store.toList.filterMap Level.asEntry

/-- The valid slots form a prefix that reads, slot by slot, as `entries`.  What
    the invalid slots still contain does not matter. -/
def Holds (store : Vector (Level priceBits sizeBits) depth)
    (entries : List (Entry priceBits sizeBits)) : Prop :=
  ∀ i, (hi : i < depth) → store[i].asEntry = entries[i]?

theorem Level.asEntry_eq_some {level : Level priceBits sizeBits} {e : Entry priceBits sizeBits} :
    level.asEntry = some e ↔ level.valid = true ∧ level.price = e.1 ∧ level.size = e.2 := by
  unfold Level.asEntry
  split_ifs with hvalid
  · simp [hvalid, Prod.ext_iff]
  · simp [hvalid]

theorem Level.asEntry_isSome {level : Level priceBits sizeBits} :
    level.asEntry.isSome = level.valid := by
  unfold Level.asEntry
  split_ifs with hvalid <;> simp [hvalid]

theorem holds_empty : Holds (emptyStore : Vector (Level priceBits sizeBits) depth) [] := by
  intro i hi
  simp [emptyStore, Level.empty, Level.asEntry]

/-- The register file that shows a side and nothing else. -/
def BookSide.store {isBid : Bool} (side : BookSide isBid depth priceBits sizeBits) :
    Vector (Level priceBits sizeBits) depth :=
  Vector.ofFn fun i =>
    match side.entries[i.val]? with
    | some e => { price := e.1, size := e.2, valid := true }
    | none => .empty

theorem holds_store {isBid : Bool} (side : BookSide isBid depth priceBits sizeBits) :
    Holds side.store side.entries := by
  intro i hi
  rw [BookSide.store, Vector.getElem_ofFn]
  cases side.entries[i]? with
  | none => simp [Level.empty, Level.asEntry]
  | some e => simp [Level.asEntry]

theorem filterMap_asEntry_eq {levels : List (Level priceBits sizeBits)}
    {entries : List (Entry priceBits sizeBits)} (hlen : entries.length ≤ levels.length)
    (hslot : ∀ i, (hi : i < levels.length) → levels[i].asEntry = entries[i]?) :
    levels.filterMap Level.asEntry = entries := by
  induction levels generalizing entries with
  | nil => simpa using hlen
  | cons level levels ih =>
    have hhead := hslot 0 (by simp)
    have htail : ∀ i, (hi : i < levels.length) → levels[i].asEntry = entries.tail[i]? := by
      intro i hi
      have hnext := hslot (i + 1) (by simpa using hi)
      simpa [List.getElem?_tail] using hnext
    have hlenTail : entries.tail.length ≤ levels.length := by
      rw [List.length_tail]
      exact Nat.sub_le_of_le_add hlen
    have hrest := ih hlenTail htail
    cases entries with
    | nil => simpa [List.filterMap_cons, show level.asEntry = none by simpa using hhead] using hrest
    | cons e es =>
      simpa [List.filterMap_cons, show level.asEntry = some e by simpa using hhead] using hrest

theorem Holds.validLevels_eq {store : Vector (Level priceBits sizeBits) depth}
    {entries : List (Entry priceBits sizeBits)} (h : Holds store entries)
    (hlen : entries.length ≤ depth) : validLevels store = entries :=
  filterMap_asEntry_eq (by simpa using hlen) fun i hi => by
    simpa using h i (by simpa using hi)

/-! ### What the compares say -/

/-- Where a new price goes: in front of the first worse level, but never past the
    last slot.  With no slot qualifying the encoder answers `depth - 1`. -/
def insertIndex (isBid : Bool) (depth : Nat) (entries : List (Entry priceBits sizeBits))
    (price : BitVec priceBits) : Nat :=
  min (depth - 1) (entries.findIdx fun e => decide (priceRank isBid price < rank isBid e))

theorem insertIndex_le_length_take (isBid : Bool) (depth : Nat)
    (entries : List (Entry priceBits sizeBits)) (price : BitVec priceBits) :
    insertIndex isBid depth entries price ≤ (entries.take (depth - 1)).length := by
  have hle : entries.findIdx (fun e => decide (priceRank isBid price < rank isBid e)) ≤
    entries.length := List.findIdx_le_length
  rw [List.length_take, insertIndex]
  omega

/-- Giving up the last of `depth` levels and then placing a new price is an insert
    at its insert index. -/
theorem put_take_eq_insertIdx {isBid : Bool} {entries : List (Entry priceBits sizeBits)}
    {price : BitVec priceBits} (hnew : ¬ ∃ e ∈ entries, e.1 = price) (size : BitVec sizeBits) :
    Ladder.put (rank isBid) (price, size) (entries.take (depth - 1)) =
      (entries.take (depth - 1)).insertIdx (insertIndex isBid depth entries price)
        (price, size) := by
  rw [Ladder.put_eq_insertIdx, List.findIdx_take]
  · rfl
  · exact fun e he heq => hnew ⟨e, List.mem_of_mem_take he, priceRank_inj.mp heq⟩

section Compares

variable {store : Vector (Level priceBits sizeBits) depth}
  {entries : List (Entry priceBits sizeBits)} (h : Holds store entries)
  {isBid : Bool} {price : BitVec priceBits}

theorem matchBit_eq (level : Level priceBits sizeBits) :
    (level.valid && level.price == price) = level.asEntry.any fun e => e.1 == price := by
  unfold Level.asEntry
  split_ifs with hvalid <;> simp [hvalid]

theorem insertBit_eq (level : Level priceBits sizeBits) :
    (!level.valid ||
      (if isBid then decide (price > level.price) else decide (price < level.price))) =
      level.asEntry.all fun e => decide (priceRank isBid price < rank isBid e) := by
  unfold Level.asEntry
  split_ifs with hvalid <;> simp_all [rank, priceRank_lt_iff]

include h

theorem Holds.matchIdx {i : Nat} (hi : i < depth) :
    (parallelCompare isBid store price).matchIdx[i] =
      entries[i]?.any fun e => e.1 == price := by
  simp [parallelCompare, matchBit_eq, h i hi]

theorem Holds.insertBefore {i : Nat} (hi : i < depth) :
    (parallelCompare isBid store price).insertBefore[i] =
      entries[i]?.all fun e => decide (priceRank isBid price < rank isBid e) := by
  simp only [parallelCompare, Vector.getElem_map, insertBit_eq, h i hi]

theorem Holds.hasMatch (hlen : entries.length ≤ depth) :
    (parallelCompare isBid store price).matchIdx.toList.any id = true ↔
      ∃ e ∈ entries, e.1 = price := by
  rw [List.any_eq_true]
  constructor
  · rintro ⟨bit, hbit, hhigh⟩
    obtain ⟨i, hi, rfl⟩ := List.getElem_of_mem hbit
    have hi' : i < depth := by simpa using hi
    rw [Vector.getElem_toList, h.matchIdx hi', id, Option.any_eq_true] at hhigh
    rcases hhigh with ⟨e, he, hprice⟩
    exact ⟨e, List.mem_of_getElem? he, by simpa using hprice⟩
  · rintro ⟨e, he, hprice⟩
    obtain ⟨i, hi, rfl⟩ := List.getElem_of_mem he
    have hi' : i < depth := Nat.lt_of_lt_of_le hi hlen
    refine ⟨_, List.getElem_mem (by simpa using hi' : i < _), ?_⟩
    rw [Vector.getElem_toList, h.matchIdx hi', List.getElem?_eq_getElem hi]
    simpa using hprice

theorem Holds.matchPos (hlen : entries.length ≤ depth)
    (hasc : Ladder.Ascending (rank isBid) entries) {j : Nat} (hj : j < entries.length)
    (hprice : entries[j].1 = price) :
    priorityEncoder (parallelCompare isBid store price).matchIdx.toList = j := by
  have hj' : j < depth := Nat.lt_of_lt_of_le hj hlen
  refine priorityEncoder_of_first (by simpa using hj') ?_ fun i hij => ?_
  · rw [Vector.getElem_toList, h.matchIdx hj', List.getElem?_eq_getElem hj]
    simpa using hprice
  · have hi : i < entries.length := hij.trans hj
    have hlt := List.pairwise_iff_getElem.mp hasc i j hi hj hij
    have hne : entries[i].1 ≠ price := fun heq =>
      absurd (congrArg (priceRank isBid) (heq.trans hprice.symm)) (ne_of_lt hlt)
    rw [Vector.getElem_toList, h.matchIdx (hij.trans hj'), List.getElem?_eq_getElem hi]
    simpa using hne

/-- The encoded insert position is the insert index of the side. -/
theorem Holds.insertPos (hlen : entries.length ≤ depth) :
    priorityEncoder (parallelCompare isBid store price).insertBefore.toList =
      insertIndex isBid depth entries price := by
  unfold insertIndex
  generalize hpos :
    entries.findIdx (fun e => decide (priceRank isBid price < rank isBid e)) = pos
  have hle : pos ≤ entries.length := hpos ▸ List.findIdx_le_length
  have hbefore : ∀ i, (hi : i < pos) → (hd : i < depth) →
      (parallelCompare isBid store price).insertBefore[i] = false := by
    intro i hi hd
    have hlow := List.not_of_lt_findIdx (hpos ▸ hi)
    rw [h.insertBefore hd, List.getElem?_eq_getElem (Nat.lt_of_lt_of_le hi hle)]
    simpa using hlow
  by_cases hfull : pos < depth
  · rw [Nat.min_eq_right (by omega)]
    refine priorityEncoder_of_first (by simpa using hfull) ?_ fun i hi => ?_
    · rw [Vector.getElem_toList, h.insertBefore hfull]
      by_cases hin : pos < entries.length
      · have hhigh : decide (priceRank isBid price < rank isBid entries[pos]) = true := by
          subst hpos
          exact @List.findIdx_getElem _ (fun e => decide (priceRank isBid price < rank isBid e)) _
            hin
        rw [List.getElem?_eq_getElem hin]
        simpa using hhigh
      · rw [List.getElem?_eq_none (by omega)]
        rfl
    · rw [Vector.getElem_toList]
      exact hbefore i hi (hi.trans hfull)
  · rw [Nat.min_eq_left (by omega), priorityEncoder_of_none]
    · simp
    · intro bit hbit
      obtain ⟨i, hi, rfl⟩ := List.getElem_of_mem hbit
      have hi' : i < depth := by simpa using hi
      rw [Vector.getElem_toList]
      exact hbefore i (by omega) hi'

end Compares

/-! ### The store refines the side -/

section Refinement

variable {store : Vector (Level priceBits sizeBits) depth}
  {entries : List (Entry priceBits sizeBits)} {isBid : Bool} {price : BitVec priceBits}
  {size : BitVec sizeBits}

theorem Holds.updateOnce_eraseIdx (h : Holds store entries) (hlen : entries.length ≤ depth)
    (hasc : Ladder.Ascending (rank isBid) entries) {j : Nat} (hj : j < entries.length)
    (hprice : entries[j].1 = price) (hsize : size = 0) :
    Holds (updateOnce isBid store price size) (entries.eraseIdx j) := by
  have hmatch : (parallelCompare isBid store price).matchIdx.toList.any id = true :=
    (h.hasMatch hlen).mpr ⟨_, List.getElem_mem hj, hprice⟩
  have hpos := h.matchPos hlen hasc hj hprice
  intro i hi
  rw [updateOnce_delete hmatch hpos (by omega) hsize hi, List.getElem?_eraseIdx]
  split_ifs with hbefore hnext
  · exact h i hi
  · exact h (i + 1) hnext
  · rw [List.getElem?_eq_none (by omega)]
    rfl

theorem Holds.updateOnce_set (h : Holds store entries) (hlen : entries.length ≤ depth)
    (hasc : Ladder.Ascending (rank isBid) entries) {j : Nat} (hj : j < entries.length)
    (hprice : entries[j].1 = price) (hsize : size ≠ 0) :
    Holds (updateOnce isBid store price size) (entries.set j (price, size)) := by
  have hmatch : (parallelCompare isBid store price).matchIdx.toList.any id = true :=
    (h.hasMatch hlen).mpr ⟨_, List.getElem_mem hj, hprice⟩
  have hpos := h.matchPos hlen hasc hj hprice
  intro i hi
  rw [updateOnce_resize hmatch hpos hsize hi, List.getElem?_set]
  split_ifs with hij hji hji
  · subst hij
    have hthere : store[i].asEntry = some entries[i] := by rw [h i hi, List.getElem?_eq_getElem hj]
    rcases Level.asEntry_eq_some.mp hthere with ⟨hvalid, hold, -⟩
    exact Level.asEntry_eq_some.mpr ⟨hvalid, hold.trans hprice, rfl⟩
  all_goals first | omega | exact h i hi

theorem Holds.updateOnce_insertIdx (h : Holds store entries) (hlen : entries.length ≤ depth)
    (hnew : ¬ ∃ e ∈ entries, e.1 = price) (hsize : size ≠ 0) :
    Holds (updateOnce isBid store price size)
      (Ladder.put (rank isBid) (price, size) (entries.take (depth - 1))) := by
  have hmatch : (parallelCompare isBid store price).matchIdx.toList.any id = false := by
    rw [← Bool.not_eq_true, h.hasMatch hlen]
    exact hnew
  have hroom := insertIndex_le_length_take isBid depth entries price
  have hcap : insertIndex isBid depth entries price ≤ depth - 1 := Nat.min_le_left _ _
  intro i hi
  rw [updateOnce_insert hmatch (h.insertPos hlen) hsize hi, put_take_eq_insertIdx hnew,
    List.getElem?_insertIdx]
  split_ifs with hbefore hat hlong
  · rw [h i hi, List.getElem?_take_of_lt (by omega)]
  · rfl
  · exact absurd (hat ▸ hroom) hlong
  · rw [h (i - 1) (by omega), List.getElem?_take_of_lt (by omega)]

/-- **The store refines the side.**  One whole update of a register file that
    holds a side leaves it holding `apply` of that side. -/
theorem Holds.updateOnce [NeZero depth] {side : BookSide isBid depth priceBits sizeBits}
    (h : Holds store side.entries) (price : BitVec priceBits) (size : BitVec sizeBits) :
    Holds (updateOnce isBid store price size) (side.apply price size).entries := by
  have hlen := side.bounded
  simp only [BookSide.apply, BookSide.applyEntries]
  by_cases hthere : ∃ e ∈ side.entries, e.1 = price
  · obtain ⟨e, he, hprice⟩ := hthere
    obtain ⟨j, hj, rfl⟩ := List.getElem_of_mem he
    have hkey : rank isBid side.entries[j] = rank isBid (price, size) :=
      congrArg (priceRank isBid) hprice
    by_cases hsize : size = 0
    · rw [if_pos hsize, side.ascending.discard_eq_eraseIdx hj (k := priceRank isBid price) hkey]
      exact h.updateOnce_eraseIdx hlen side.ascending hj hprice hsize
    · rw [if_neg hsize, if_pos ⟨_, he, hprice⟩, side.ascending.put_eq_set hj hkey]
      exact h.updateOnce_set hlen side.ascending hj hprice hsize
  · by_cases hsize : size = 0
    · have hmatch : (parallelCompare isBid store price).matchIdx.toList.any id = false := by
        rw [← Bool.not_eq_true, h.hasMatch hlen]
        exact hthere
      rw [if_pos hsize, updateOnce_missing hmatch hsize, Ladder.discard_eq_self]
      · exact h
      · exact fun e he heq => hthere ⟨e, he, priceRank_inj.mp heq⟩
    · rw [if_neg hsize, if_neg hthere]
      exact h.updateOnce_insertIdx hlen hthere hsize

end Refinement

/-! ### Well-formed register files -/

/-- **The representation invariant of a store**, slot by slot: the valid slots form
    a leading segment, their prices are strictly best first and pairwise distinct,
    and no valid slot has size 0. -/
structure WellFormed (isBid : Bool) (store : Vector (Level priceBits sizeBits) depth) : Prop where
  leading : ∀ i j, (hij : i < j) → (hj : j < depth) → store[j].valid = true → store[i].valid = true
  sorted : ∀ i j, (hij : i < j) → (hj : j < depth) → store[j].valid = true →
    if isBid then store[j].price < store[i].price else store[i].price < store[j].price
  distinct : ∀ i j, (hi : i < depth) → (hj : j < depth) → store[i].valid = true →
    store[j].valid = true → store[i].price = store[j].price → i = j
  nonzero : ∀ i, (hi : i < depth) → store[i].valid = true → store[i].size ≠ 0

section WellFormed

variable {isBid : Bool} {store : Vector (Level priceBits sizeBits) depth}
  {side : BookSide isBid depth priceBits sizeBits} (h : Holds store side.entries)

include h

theorem Holds.exists_entry {i : Nat} (hi : i < depth) (hvalid : store[i].valid = true) :
    ∃ hlt : i < side.entries.length, side.entries[i] = (store[i].price, store[i].size) := by
  have hsome : store[i].asEntry = some (store[i].price, store[i].size) :=
    Level.asEntry_eq_some.mpr ⟨hvalid, rfl, rfl⟩
  rw [h i hi] at hsome
  exact List.getElem?_eq_some_iff.mp hsome

theorem Holds.rank_lt {i j : Nat} (hij : i < j) (hj : j < depth) (hvalid : store[j].valid = true)
    (hvalid' : store[i].valid = true) :
    priceRank isBid store[i].price < priceRank isBid store[j].price := by
  obtain ⟨hltj, hj'⟩ := h.exists_entry hj hvalid
  obtain ⟨hlti, hi'⟩ := h.exists_entry (hij.trans hj) hvalid'
  have hlt := List.pairwise_iff_getElem.mp side.ascending i j hlti hltj hij
  rw [hi', hj'] at hlt
  exact hlt

theorem Holds.valid_of_lt {i j : Nat} (hij : i < j) (hj : j < depth)
    (hvalid : store[j].valid = true) : store[i].valid = true := by
  obtain ⟨hlt, -⟩ := h.exists_entry hj hvalid
  rw [← Level.asEntry_isSome, h i (hij.trans hj), List.getElem?_eq_getElem (hij.trans hlt)]
  rfl

theorem Holds.wellFormed : WellFormed isBid store where
  leading _ _ hij hj hvalid := h.valid_of_lt hij hj hvalid
  sorted _ _ hij hj hvalid :=
    (priceRank_lt_iff isBid _ _).mp (h.rank_lt hij hj hvalid (h.valid_of_lt hij hj hvalid))
  distinct i j hi hj hvalid hvalid' heq := by
    rcases Nat.lt_trichotomy i j with hlt | rfl | hgt
    · exact absurd (congrArg (priceRank isBid) heq) (ne_of_lt (h.rank_lt hlt hj hvalid' hvalid))
    · rfl
    · exact absurd (congrArg (priceRank isBid) heq) (ne_of_gt (h.rank_lt hgt hi hvalid hvalid'))
  nonzero i hi hvalid := by
    obtain ⟨hlt, heq⟩ := h.exists_entry hi hvalid
    have hsize := side.nonzero _ (List.getElem_mem hlt)
    rw [heq] at hsize
    exact hsize

end WellFormed

end FeedHandler
