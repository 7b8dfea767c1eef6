import FeedHandler.Ladder

/-!
# A ladder that keeps only its best entries

The same changes applied to a ladder that keeps everything and to one that keeps
at most `n` entries.  The small ladder makes room for a new key by giving up its
last entry first, so it forgets, and what it has forgotten it cannot show again
when a better entry is discarded.  The lemmas say what it still gets right: it
never holds an entry the large ladder does not hold, it is the large ladder while
that has at most `n` entries, and a leading segment on which the two agree is kept
by every `put` and shortened by at most one by every `discard`.
-/

namespace FeedHandler.Ladder

variable {α κ : Type} [LinearOrder κ] (key : α → κ)

/-- One change of a ladder that keeps everything: discard the key of `e`, or write `e`. -/
def update (gone : Prop) [Decidable gone] (e : α) (l : List α) : List α :=
  if gone then discard key (key e) l else put key e l

/-- The same change of a ladder that keeps at most `n` entries. -/
def updateWithin (n : Nat) (gone : Prop) [Decidable gone] (e : α) (l : List α) : List α :=
  if gone then discard key (key e) l
  else if ∃ x ∈ l, key x = key e then put key e l
  else put key e (l.take (n - 1))

variable {key} {gone : Prop} [Decidable gone] {e : α} {l m : List α} {n k : Nat}

theorem Ascending.update (hm : Ascending key m) : Ascending key (update key gone e m) := by
  unfold Ladder.update
  split_ifs
  · exact hm.discard _
  · exact hm.put _

theorem Ascending.mem_update (hm : Ascending key m) {x : α} :
    x ∈ Ladder.update key gone e m ↔ (x = e ∧ ¬ gone) ∨ (x ∈ m ∧ key x ≠ key e) := by
  unfold Ladder.update
  split_ifs with hgone
  · simp [hgone]
  · simp [hm.mem_put, hgone]

/-- **Nothing is invented.**  The small ladder stays within the large one. -/
theorem Ascending.updateWithin_subset (hl : Ascending key l) (hm : Ascending key m)
    (hsub : l ⊆ m) : updateWithin key n gone e l ⊆ Ladder.update key gone e m := by
  intro x hx
  rw [hm.mem_update]
  unfold updateWithin at hx
  split_ifs at hx with hgone hthere
  · obtain ⟨hx, hkey⟩ := mem_discard.mp hx
    exact Or.inr ⟨hsub hx, hkey⟩
  · rw [hl.mem_put] at hx
    exact hx.imp (fun h => ⟨h, hgone⟩) fun h => ⟨hsub h.1, h.2⟩
  · rw [(hl.sublist (List.take_sublist _ _)).mem_put] at hx
    exact hx.imp (fun h => ⟨h, hgone⟩) fun h => ⟨hsub (List.mem_of_mem_take h.1), h.2⟩

theorem updateWithin_eq_update (hroom : (update key gone e l).length ≤ n) :
    updateWithin key n gone e l = update key gone e l := by
  unfold updateWithin update at *
  split_ifs at hroom ⊢ with hgone hthere
  · rfl
  · rfl
  · have hnew : ∀ x ∈ l, key x ≠ key e := fun x hx hkey => hthere ⟨x, hx, hkey⟩
    rw [length_put_of_new hnew] at hroom
    rw [List.take_of_length_le (by omega)]

/-- A `put` keeps every leading segment on which the two agree, up to `n - 1`. -/
theorem take_updateWithin_of_put (hgone : ¬ gone) (hk : k ≤ n - 1) (h : l.take k = m.take k) :
    (updateWithin key n gone e l).take k = (update key gone e m).take k := by
  have hput : (put key e l).take k = (put key e m).take k := by
    rw [take_put, h, ← take_put]
  unfold updateWithin update
  rw [if_neg hgone, if_neg hgone]
  split_ifs
  · exact hput
  · rw [take_put, List.take_take, Nat.min_eq_left hk, ← take_put, hput]

/-- A `discard` shortens it by at most one. -/
theorem Ascending.take_updateWithin_of_discard (hl : Ascending key l) (hm : Ascending key m)
    (hgone : gone) (h : l.take (k + 1) = m.take (k + 1)) :
    (updateWithin key n gone e l).take k = (Ladder.update key gone e m).take k := by
  unfold updateWithin Ladder.update
  rw [if_pos hgone, if_pos hgone, hl.take_discard, h, ← hm.take_discard]

/-- Discarding a key that the large ladder does not have changes neither. -/
theorem updateWithin_of_absent (n : Nat) (hgone : gone) (hsub : l ⊆ m)
    (habsent : ∀ x ∈ m, key x ≠ key e) :
    updateWithin key n gone e l = l ∧ update key gone e m = m := by
  unfold updateWithin update
  rw [if_pos hgone, if_pos hgone]
  exact ⟨discard_eq_self fun x hx => habsent x (hsub hx), discard_eq_self habsent⟩

theorem Ascending.length_le_length_update (hm : Ascending key m) :
    m.length ≤ (Ladder.update key gone e m).length + 1 := by
  unfold Ladder.update
  split_ifs
  · exact hm.length_le_length_discard _
  · exact length_le_length_put.trans (Nat.le_succ _)

theorem length_update_of_put (hgone : ¬ gone) : m.length ≤ (update key gone e m).length := by
  unfold update
  rw [if_neg hgone]
  exact length_le_length_put

/-! ### A full ladder and the best `n` entries -/

theorem put_eq_append (hlast : ∀ x ∈ l, key x < key e) : put key e l = l ++ [e] := by
  induction l with
  | nil => rfl
  | cons y ys ih =>
    have hy : key y < key e := hlast y List.mem_cons_self
    rw [put, if_neg (not_lt_of_gt hy), if_neg (ne_of_gt hy),
      ih fun x hx => hlast x (List.mem_cons_of_mem _ hx), List.cons_append]

/-- Giving up the last entry first costs nothing when the new one is better than it. -/
theorem put_take_of_better (hlen : l.length = n) (hnew : ∀ x ∈ l, key x ≠ key e)
    (hbetter : ∃ x ∈ l, key e < key x) :
    put key e (l.take (n - 1)) = (put key e l).take n := by
  induction l generalizing n with
  | nil => simp at hbetter
  | cons y ys ih =>
    subst hlen
    rw [List.length_cons, Nat.add_sub_cancel]
    have hy : ¬ key e = key y := fun heq => hnew y List.mem_cons_self heq.symm
    by_cases hlt : key e < key y
    · rw [put, if_pos hlt, List.take_succ_cons]
      cases ys with
      | nil => rfl
      | cons z zs => rw [List.length_cons, List.take_succ_cons, put, if_pos hlt]
    · obtain ⟨x, hx, hex⟩ := hbetter
      have hys : x ∈ ys := by
        rcases List.mem_cons.mp hx with rfl | hys
        · exact absurd hex hlt
        · exact hys
      obtain ⟨m, hm⟩ : ∃ m, ys.length = m + 1 :=
        Nat.exists_eq_succ_of_ne_zero (Nat.ne_of_gt (List.length_pos_of_mem hys))
      have hrest := ih hm (fun z hz => hnew z (List.mem_cons_of_mem _ hz)) ⟨x, hys, hex⟩
      rw [Nat.add_sub_cancel] at hrest
      rw [hm, List.take_succ_cons, put, put, if_neg hlt, if_neg hlt, if_neg hy, if_neg hy,
        List.take_succ_cons, hrest]

/-- **When the best `n` are kept.**  A ladder of at most `n` entries that makes room for a
    new key by giving up its last entry ends up with the best `n` exactly unless it was
    full and the new key comes after all of its own. -/
theorem Ascending.put_take_eq_iff (hl : Ascending key l) (hn : 0 < n) (hlen : l.length ≤ n)
    (hnew : ∀ x ∈ l, key x ≠ key e) :
    Ladder.put key e (l.take (n - 1)) = (Ladder.put key e l).take n ↔
      ¬ (l.length = n ∧ ∀ x ∈ l, key x < key e) := by
  constructor
  · rintro h ⟨hfull, hlast⟩
    have hkept : e ∈ Ladder.put key e (l.take (n - 1)) :=
      (hl.sublist (List.take_sublist _ _)).mem_put.mpr (Or.inl rfl)
    rw [h, put_eq_append hlast, ← hfull, List.take_left] at hkept
    exact hnew e hkept rfl
  · intro h
    by_cases hfull : l.length = n
    · apply put_take_of_better hfull hnew
      by_contra hnone
      refine h ⟨hfull, fun x hx => lt_of_le_of_ne ?_ (hnew x hx)⟩
      exact le_of_not_gt fun hlt => hnone ⟨x, hx, hlt⟩
    · rw [List.take_of_length_le (show l.length ≤ n - 1 by omega), List.take_of_length_le]
      exact length_put_le.trans (by omega)

end FeedHandler.Ladder
