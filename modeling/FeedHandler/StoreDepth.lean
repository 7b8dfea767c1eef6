import FeedHandler.GoldenAgreement
import FeedHandler.LadderNested

/-!
# What the depth of a store decides

A store gives up its last level to make room for a new price, so what it shows depends
on its depth.  Deeper is never worse: on the same messages every level of a store is a
level of any deeper one.  And what a store has forgotten is not lost for good: while the
golden side fits the store again, each level it misses comes back with the next message
for that price, and with no other.
-/

namespace FeedHandler.StoreDepth

open GoldenAgreement PriceLevelStore

variable {isBid : Bool} {depth extra : Nat}

/-- The levels a store shows after the given messages, best first, in ticks. -/
def shown (isBid : Bool) (s : State depth 32 32) (ds : List Delivery) : List (Nat × Nat) :=
  (validLevels (storeAfter isBid s ds).store).map ticks

theorem shown_eq_hardware [NeZero depth] (s : State depth 32 32) (ds : List Delivery) :
    shown isBid s ds = hardware isBid depth ds := by
  have hholds : Holds (storeAfter isBid s ds).store
      (sideFrom (.empty : BookSide isBid depth 32 32) ds).entries :=
    holds_storeFrom (inStage_reset isBid s) holds_empty ds
  rw [shown, hholds.validLevels_eq (BookSide.bounded _), hardware]

/-! ### A deeper store -/

theorem nested_hardware [NeZero depth] [NeZero (depth + extra)] (ds : List Delivery) :
    Ladder.Nested (levelRank isBid) depth extra (hardware isBid depth ds)
      (hardware isBid (depth + extra) ds) := by
  induction ds using List.reverseRecOn with
  | nil => exact Ladder.nested_nil _ _ _
  | append_singleton ds d ih =>
    rw [hardware_append_singleton, hardware_append_singleton]
    split_ifs
    · exact ih.updateWithin (Nat.pos_of_ne_zero (NeZero.ne depth))
    · exact ih

theorem asEntry_of_valid {level : Level 32 32} (hvalid : level.valid = true) :
    level.asEntry = some (level.price, level.size) :=
  Level.asEntry_eq_some.mpr ⟨hvalid, rfl, rfl⟩

/-- A valid slot is determined by its entry. -/
theorem eq_of_asEntry_eq {level level' : Level 32 32} (hvalid : level.valid = true)
    (h : level'.asEntry.map ticks = level.asEntry.map ticks) : level' = level := by
  have hentry : level'.asEntry = level.asEntry := by
    refine Option.map_injective (fun e e' heq => ?_) h
    have hboth := Prod.ext_iff.mp heq
    exact Prod.ext (BitVec.eq_of_toNat_eq hboth.1) (BitVec.eq_of_toNat_eq hboth.2)
  rw [asEntry_of_valid hvalid, Level.asEntry_eq_some] at hentry
  rcases level with ⟨price, size, valid⟩
  rcases level' with ⟨price', size', valid'⟩
  obtain ⟨hvalid', hprice, hsize⟩ := hentry
  simp_all

/-- **Deeper is never worse.**  Whatever the two stores held before the reset, after the
    same messages every valid slot of the shallow store is a slot of the deeper one, no
    higher up and lower by at most the difference in depth, and the deeper store shows at
    most that many levels more. -/
theorem deeper_store_keeps (isBid : Bool) (s : State depth 32 32)
    (s' : State (depth + extra) 32 32) (ds : List Delivery) :
    (∀ i, (hi : i < depth) → (storeAfter isBid s ds).store[i].valid = true →
      ∃ j, ∃ hj : j < depth + extra, i ≤ j ∧ j ≤ i + extra ∧
        (storeAfter isBid s' ds).store[j] = (storeAfter isBid s ds).store[i]) ∧
    (shown isBid s' ds).length ≤ (shown isBid s ds).length + extra := by
  cases depth with
  | zero =>
    refine ⟨fun i hi => absurd hi (Nat.not_lt_zero i), ?_⟩
    have hslots : (shown isBid s' ds).length ≤ 0 + extra := by
      unfold shown validLevels
      rw [List.length_map]
      exact (List.length_filterMap_le _ _).trans (by simp)
    omega
  | succ depth =>
    have : NeZero (depth + 1 + extra) := ⟨by omega⟩
    have hnested := @nested_hardware isBid (depth + 1) extra _ _ ds
    rw [shown_eq_hardware, shown_eq_hardware]
    refine ⟨fun i hi hvalid => ?_, hnested.behind⟩
    have hentry := @storeAfter_entry (depth + 1) isBid _ s ds i hi
    have hshown : i < (hardware isBid (depth + 1) ds).length := by
      rw [asEntry_of_valid hvalid] at hentry
      exact (List.getElem?_eq_some_iff.mp hentry.symm).1
    obtain ⟨j, hle, hfar, heq⟩ := hnested.exists_index hshown
    have hj : j < depth + 1 + extra := by omega
    refine ⟨j, hj, hle, hfar, eq_of_asEntry_eq hvalid ?_⟩
    rw [hentry, @storeAfter_entry (depth + 1 + extra) isBid _ s' ds j hj, heq]

/-! ### What a store has forgotten -/

/-- The message is for the price `price` of the side. -/
def Writes (isBid : Bool) (price : Nat) (d : Delivery) : Prop :=
  d.msg.On isBid ∧ d.msg.price.toNat = price

instance (isBid : Bool) (price : Nat) (d : Delivery) : Decidable (Writes isBid price d) :=
  inferInstanceAs (Decidable (_ ∧ _))

/-- After each message of `post` the golden side fits a store of `depth` levels, whatever
    it held before. -/
def Fits (isBid : Bool) (depth : Nat) (pre post : List Delivery) : Prop :=
  ∀ seg, seg <+: post → seg ≠ [] → liveLevels isBid (refAfter depth (pre ++ seg)) ≤ depth

instance (isBid : Bool) (depth : Nat) (pre post : List Delivery) :
    Decidable (Fits isBid depth pre post) :=
  decidable_of_iff
    (∀ seg ∈ post.inits, seg ≠ [] → liveLevels isBid (refAfter depth (pre ++ seg)) ≤ depth) (by
      simp only [Fits, List.mem_inits])

variable [NeZero depth]

/-- The level is live and the store does not show it. -/
def Missing (isBid : Bool) (depth : Nat) [NeZero depth] (ds : List Delivery)
    (level : Nat × Nat) : Prop :=
  level ∈ golden isBid depth ds ∧ level ∉ hardware isBid depth ds

theorem missing_append_singleton {pre : List Delivery} {d : Delivery} {level : Nat × Nat}
    (hroom : liveLevels isBid (refAfter depth (pre ++ [d])) ≤ depth) :
    Missing isBid depth (pre ++ [d]) level ↔
      Missing isBid depth pre level ∧ ¬ Writes isBid level.1 d := by
  rw [← length_golden, golden_append_singleton] at hroom
  unfold Missing Writes
  rw [hardware_append_singleton, golden_append_singleton]
  split_ifs at hroom ⊢ with hon
  · rw [(ascending_hardware pre).missing_updateWithin (ascending_golden pre)
      (hardware_subset_golden pre) hroom, ne_eq, levelRank_eq_iff]
    exact and_congr_right fun _ =>
      ⟨fun hne hwrites => hne hwrites.2.symm, fun hnot heq => hnot ⟨hon, heq.symm⟩⟩
  · exact ⟨fun h => ⟨h, fun hwrites => hon hwrites.1⟩, And.left⟩

theorem missing_append {pre post : List Delivery} (hfits : Fits isBid depth pre post)
    (level : Nat × Nat) :
    Missing isBid depth (pre ++ post) level ↔
      Missing isBid depth pre level ∧ ∀ d ∈ post, ¬ Writes isBid level.1 d := by
  induction post using List.reverseRecOn with
  | nil => simp
  | append_singleton post d ih =>
    have hbefore : Fits isBid depth pre post := fun seg hseg hne =>
      hfits seg (hseg.trans (List.prefix_append _ _)) hne
    have hroom := hfits (post ++ [d]) (List.prefix_refl _) (by simp)
    rw [← List.append_assoc] at hroom ⊢
    rw [missing_append_singleton hroom, ih hbefore]
    simp only [List.mem_append, List.mem_singleton, or_imp, forall_and, forall_eq, and_assoc]

theorem hardware_eq_golden_iff (ds : List Delivery) :
    hardware isBid depth ds = golden isBid depth ds ↔ ∀ level, ¬ Missing isBid depth ds level := by
  constructor
  · rintro heq level ⟨hlive, hmissing⟩
    exact hmissing (heq ▸ hlive)
  · intro h
    refine (ascending_hardware ds).eq_of_mem_iff (ascending_golden ds) fun level => ?_
    refine ⟨fun hshown => hardware_subset_golden ds hshown, fun hlive => ?_⟩
    by_contra hmissing
    exact h level ⟨hlive, hmissing⟩

theorem hardware_eq_golden_append_iff {pre post : List Delivery}
    (hfits : Fits isBid depth pre post) :
    hardware isBid depth (pre ++ post) = golden isBid depth (pre ++ post) ↔
      ∀ level, Missing isBid depth pre level → ∃ d ∈ post, Writes isBid level.1 d := by
  rw [hardware_eq_golden_iff]
  constructor
  · intro h level hmissing
    by_contra hnone
    refine h level ((missing_append hfits level).mpr ⟨hmissing, ?_⟩)
    exact fun d hd hwrites => hnone ⟨d, hd, hwrites⟩
  · intro h level hmissing
    obtain ⟨hbefore, hunwritten⟩ := (missing_append hfits level).mp hmissing
    obtain ⟨d, hd, hwrites⟩ := h level hbefore
    exact hunwritten d hd hwrites

/-- **A store recovers level by level.**  Over messages after each of which the golden side
    fits the store, the live levels the store does not show at the end are those it did not
    show before and no message has been for since; so it shows every live level again
    exactly when each of those it missed has been written. -/
theorem recovers (s : State depth 32 32) {pre post : List Delivery}
    (hfits : Fits isBid depth pre post) :
    (∀ level, (level ∈ golden isBid depth (pre ++ post) ∧ level ∉ shown isBid s (pre ++ post)) ↔
      (level ∈ golden isBid depth pre ∧ level ∉ shown isBid s pre) ∧
        ∀ d ∈ post, ¬ Writes isBid level.1 d) ∧
    (shown isBid s (pre ++ post) = golden isBid depth (pre ++ post) ↔
      ∀ level, level ∈ golden isBid depth pre ∧ level ∉ shown isBid s pre →
        ∃ d ∈ post, Writes isBid level.1 d) := by
  rw [shown_eq_hardware, shown_eq_hardware]
  exact ⟨missing_append hfits, hardware_eq_golden_append_iff hfits⟩

/-- A store of two levels has forgotten the worst of three bids; after a delete there is
    room for it, and a further bid at its price brings it back. -/
theorem recovers_threeBids :
    (∀ level, (level ∈ golden true 2 ([bidAt 1 4, bidAt 2 5, bidAt 3 6] ++ [bidAt 3 0, bidAt 1 7]) ∧
        level ∉ shown true (powerUp : State 2 32 32)
          ([bidAt 1 4, bidAt 2 5, bidAt 3 6] ++ [bidAt 3 0, bidAt 1 7])) ↔
      (level ∈ golden true 2 [bidAt 1 4, bidAt 2 5, bidAt 3 6] ∧
        level ∉ shown true (powerUp : State 2 32 32) [bidAt 1 4, bidAt 2 5, bidAt 3 6]) ∧
        ∀ d ∈ [bidAt 3 0, bidAt 1 7], ¬ Writes true level.1 d) ∧
    (shown true (powerUp : State 2 32 32)
        ([bidAt 1 4, bidAt 2 5, bidAt 3 6] ++ [bidAt 3 0, bidAt 1 7]) =
          golden true 2 ([bidAt 1 4, bidAt 2 5, bidAt 3 6] ++ [bidAt 3 0, bidAt 1 7]) ↔
      ∀ level, level ∈ golden true 2 [bidAt 1 4, bidAt 2 5, bidAt 3 6] ∧
        level ∉ shown true (powerUp : State 2 32 32) [bidAt 1 4, bidAt 2 5, bidAt 3 6] →
          ∃ d ∈ [bidAt 3 0, bidAt 1 7], Writes true level.1 d) :=
  recovers powerUp (by decide)

end FeedHandler.StoreDepth
