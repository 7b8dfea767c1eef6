import FeedHandler.LadderWindow

/-!
# Two sizes of ladder, and what a small one has forgotten

The same changes applied to a ladder that keeps at most `n` entries and to one that
keeps at most `n + k`.  Giving up the last entry first never loses more in the large
ladder than in the small one: the small ladder stays within the large one and at most
`k` shorter, so an entry of it is at most `k` places further down in the large one.

Beside a ladder that keeps everything, the entries a small ladder misses while there
is room for all of them are those it missed before, less the keys written since.
-/

namespace FeedHandler.Ladder

variable {α κ : Type} [LinearOrder κ] {key : α → κ} {gone : Prop} [Decidable gone] {e x : α}
  {l m : List α} {n k i : Nat}

/-! ### Ladders within ladders -/

theorem Ascending.subperm_of_subset (hl : Ascending key l) (hsub : l ⊆ m) : l.Subperm m :=
  List.subperm_of_subset (hl.imp fun hlt heq => absurd (heq ▸ hlt) (lt_irrefl _)) hsub

theorem Ascending.length_le_of_subset (hl : Ascending key l) (hsub : l ⊆ m) :
    l.length ≤ m.length :=
  (hl.subperm_of_subset hsub).length_le

theorem Ascending.sublist_of_subset (hl : Ascending key l) (hm : Ascending key m)
    (hsub : l ⊆ m) : l.Sublist m := by
  have : Std.Antisymm fun x y : α => key x < key y :=
    ⟨fun _ _ hxy hyx => absurd hxy (lt_asymm hyx)⟩
  exact List.sublist_of_subperm_of_pairwise (hl.subperm_of_subset hsub) hl hm

/-- An entry of a sublist stands in the list no higher, and lower by at most the
    difference in length. -/
theorem exists_index_of_sublist (h : l.Sublist m) (hi : i < l.length) :
    ∃ j, i ≤ j ∧ j + l.length ≤ i + m.length ∧ m[j]? = l[i]? := by
  induction h generalizing i with
  | slnil => exact absurd hi (Nat.not_lt_zero i)
  | @cons l m a _ ih =>
    obtain ⟨j, hle, hfar, heq⟩ := ih hi
    refine ⟨j + 1, Nat.le_succ_of_le hle, ?_, by simpa using heq⟩
    rw [List.length_cons]
    omega
  | @cons_cons l m a hsub ih =>
    cases i with
    | zero => exact ⟨0, Nat.le_refl 0, by simpa using hsub.length_le, rfl⟩
    | succ i =>
      obtain ⟨j, hle, hfar, heq⟩ := ih (Nat.lt_of_succ_lt_succ hi)
      refine ⟨j + 1, Nat.succ_le_succ hle, ?_, by simpa using heq⟩
      rw [List.length_cons, List.length_cons]
      omega

/-! ### A small ladder and a larger one -/

theorem Ascending.updateWithin (hl : Ascending key l) (n : Nat) :
    Ascending key (updateWithin key n gone e l) := by
  unfold Ladder.updateWithin
  split_ifs
  · exact hl.discard _
  · exact hl.put _
  · exact (hl.sublist (List.take_sublist _ _)).put _

theorem Ascending.length_discard_of_there (hl : Ascending key l)
    (hthere : ∃ y ∈ l, key y = key e) : (Ladder.discard key (key e) l).length + 1 = l.length := by
  obtain ⟨y, hy, hkey⟩ := hthere
  obtain ⟨j, hj, rfl⟩ := List.getElem_of_mem hy
  rw [hl.discard_eq_eraseIdx hj hkey, List.length_eraseIdx_add_one hj]

theorem Ascending.length_updateWithin_of_there (hl : Ascending key l) (hgone : ¬ gone)
    (hthere : ∃ y ∈ l, key y = key e) :
    (Ladder.updateWithin key n gone e l).length = l.length := by
  obtain ⟨y, hy, hkey⟩ := hthere
  rw [Ladder.updateWithin, if_neg hgone, if_pos ⟨y, hy, hkey⟩, hl.length_put_of_mem hy hkey]

theorem length_updateWithin_of_new (hgone : ¬ gone) (hnew : ¬ ∃ y ∈ l, key y = key e) :
    (Ladder.updateWithin key n gone e l).length = min (n - 1) l.length + 1 := by
  have habsent : ∀ y ∈ l.take (n - 1), key y ≠ key e :=
    fun y hy hkey => hnew ⟨y, List.mem_of_mem_take hy, hkey⟩
  rw [Ladder.updateWithin, if_neg hgone, if_neg hnew, length_put_of_new habsent, List.length_take]

/-- A ladder of at most `n` entries within one of at most `n + k`, and at most `k` shorter. -/
structure Nested (key : α → κ) (n k : Nat) (l m : List α) : Prop where
  small : Ascending key l
  large : Ascending key m
  subset : l ⊆ m
  behind : m.length ≤ l.length + k
  bounded : l.length ≤ n
  larger : m.length ≤ n + k

theorem nested_nil (key : α → κ) (n k : Nat) : Nested key n k [] [] where
  small := ascending_nil
  large := ascending_nil
  subset := List.nil_subset _
  behind := Nat.zero_le _
  bounded := Nat.zero_le _
  larger := Nat.zero_le _

/-- Where the large ladder gives up an entry the small one holds, it is the small one's
    last, given up as well. -/
theorem Nested.take_subset (h : Nested key n k l m) :
    l.take (n - 1) ⊆ m.take (n + k - 1) := by
  intro x hx
  by_cases hroom : m.length ≤ n + k - 1
  · rw [List.take_of_length_le hroom]
    exact h.subset (List.mem_of_mem_take hx)
  · obtain ⟨i, hi, rfl⟩ := List.getElem_of_mem hx
    have hi' : i < n - 1 ∧ i < l.length := by simpa using hi
    obtain ⟨j, -, hfar, heq⟩ :=
      exists_index_of_sublist (h.small.sublist_of_subset h.large h.subset) hi'.2
    have hbehind := h.behind
    have hbounded := h.bounded
    have hlarger := h.larger
    rw [List.getElem_take]
    refine List.mem_of_getElem? (i := j) ?_
    rw [List.getElem?_take_of_lt (by omega), heq, List.getElem?_eq_getElem hi'.2]

theorem Ascending.length_updateWithin_le (hl : Ascending key l) (hn : 0 < n)
    (hbounded : l.length ≤ n) : (Ladder.updateWithin key n gone e l).length ≤ n := by
  by_cases hgone : gone
  · rw [Ladder.updateWithin, if_pos hgone]
    exact (List.length_filter_le _ _).trans hbounded
  · by_cases hthere : ∃ y ∈ l, key y = key e
    · rwa [hl.length_updateWithin_of_there hgone hthere]
    · rw [length_updateWithin_of_new hgone hthere]
      omega

theorem Nested.updateWithin_subset (h : Nested key n k l m) :
    updateWithin key n gone e l ⊆ updateWithin key (n + k) gone e m := by
  intro x hx
  unfold updateWithin at *
  split_ifs at hx ⊢ with hgone hlarge hthere hthere
  · obtain ⟨hx, hkey⟩ := mem_discard.mp hx
    exact mem_discard.mpr ⟨h.subset hx, hkey⟩
  · rw [h.small.mem_put] at hx
    exact h.large.mem_put.mpr (hx.imp_right fun hx => ⟨h.subset hx.1, hx.2⟩)
  · rw [(h.small.sublist (List.take_sublist _ _)).mem_put] at hx
    exact h.large.mem_put.mpr
      (hx.imp_right fun hx => ⟨h.subset (List.mem_of_mem_take hx.1), hx.2⟩)
  · obtain ⟨y, hy, hkey⟩ := hthere
    exact absurd ⟨y, h.subset hy, hkey⟩ hlarge
  · rw [(h.small.sublist (List.take_sublist _ _)).mem_put] at hx
    exact (h.large.sublist (List.take_sublist _ _)).mem_put.mpr
      (hx.imp_right fun hx => ⟨h.take_subset hx.1, hx.2⟩)

theorem Nested.length_updateWithin_le (h : Nested key n k l m) :
    (updateWithin key (n + k) gone e m).length ≤ (updateWithin key n gone e l).length + k := by
  have hbehind := h.behind
  have hbounded := h.bounded
  have hlarger := h.larger
  by_cases hgone : gone
  · rw [updateWithin, updateWithin, if_pos hgone, if_pos hgone]
    by_cases hthere : ∃ y ∈ l, key y = key e
    · obtain ⟨y, hy, hkey⟩ := hthere
      have hsmall := h.small.length_discard_of_there ⟨y, hy, hkey⟩
      have hlarge := h.large.length_discard_of_there ⟨y, h.subset hy, hkey⟩
      omega
    · have habsent : ∀ y ∈ l, key y ≠ key e := fun y hy hkey => hthere ⟨y, hy, hkey⟩
      have hshorter : (discard key (key e) m).length ≤ m.length := List.length_filter_le _ _
      rw [discard_eq_self habsent]
      omega
  · by_cases hlarge : ∃ y ∈ m, key y = key e
    · rw [h.large.length_updateWithin_of_there hgone hlarge]
      by_cases hthere : ∃ y ∈ l, key y = key e
      · rwa [h.small.length_updateWithin_of_there hgone hthere]
      · rw [length_updateWithin_of_new hgone hthere]
        omega
    · have hthere : ¬ ∃ y ∈ l, key y = key e :=
        fun ⟨y, hy, hkey⟩ => hlarge ⟨y, h.subset hy, hkey⟩
      rw [length_updateWithin_of_new hgone hthere, length_updateWithin_of_new hgone hlarge]
      omega

/-- **One change of both keeps the small ladder within the large one.** -/
theorem Nested.updateWithin (h : Nested key n k l m) (hn : 0 < n) :
    Nested key n k (updateWithin key n gone e l) (updateWithin key (n + k) gone e m) where
  small := h.small.updateWithin n
  large := h.large.updateWithin (n + k)
  subset := h.updateWithin_subset
  behind := h.length_updateWithin_le
  bounded := h.small.length_updateWithin_le hn h.bounded
  larger := h.large.length_updateWithin_le (Nat.add_pos_left hn k) h.larger

theorem Nested.exists_index (h : Nested key n k l m) (hi : i < l.length) :
    ∃ j, i ≤ j ∧ j ≤ i + k ∧ m[j]? = l[i]? := by
  obtain ⟨j, hle, hfar, heq⟩ :=
    exists_index_of_sublist (h.small.sublist_of_subset h.large h.subset) hi
  have hbehind := h.behind
  exact ⟨j, hle, by omega, heq⟩

/-! ### What a small ladder misses -/

/-- **While there is room nothing new is missed**: after a change that leaves the large
    ladder with at most `n` entries, the small one misses what it missed before, except at
    the key of the change. -/
theorem Ascending.missing_updateWithin (hl : Ascending key l) (hm : Ascending key m)
    (hsub : l ⊆ m) (hroom : (Ladder.update key gone e m).length ≤ n) :
    (x ∈ Ladder.update key gone e m ∧ x ∉ Ladder.updateWithin key n gone e l) ↔
      (x ∈ m ∧ x ∉ l) ∧ key x ≠ key e := by
  have hwithin : Ladder.update key gone e l ⊆ Ladder.update key gone e m := by
    intro y hy
    rw [hm.mem_update]
    rw [hl.mem_update] at hy
    exact hy.imp_right fun hy => ⟨hsub hy.1, hy.2⟩
  have hkept : Ladder.updateWithin key n gone e l = Ladder.update key gone e l :=
    updateWithin_eq_update ((hl.update.length_le_of_subset hwithin).trans hroom)
  rw [hkept, hm.mem_update, hl.mem_update]
  constructor
  · rintro ⟨hx | hx, hmissing⟩
    · exact absurd (Or.inl hx) hmissing
    · exact ⟨⟨hx.1, fun hxl => hmissing (Or.inr ⟨hxl, hx.2⟩)⟩, hx.2⟩
  · rintro ⟨⟨hx, hmissing⟩, hkey⟩
    refine ⟨Or.inr ⟨hx, hkey⟩, ?_⟩
    rintro (⟨rfl, -⟩ | ⟨hxl, -⟩)
    · exact hkey rfl
    · exact hmissing hxl

end FeedHandler.Ladder
