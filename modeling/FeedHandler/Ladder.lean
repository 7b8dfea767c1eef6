import Mathlib.Data.List.Sort
import Mathlib.Data.List.InsertIdx
import Mathlib.Order.Defs.LinearOrder
import Mathlib.Tactic.Common

/-!
# Ladders

A ladder is a list whose entries carry keys in strictly ascending order, best
first.  Two operations change it: `put` writes an entry at its key, in place when
the key is there and in sorted position when it is not, and `discard` removes the
entry of a key.  Both are stated over an arbitrary entry type and an arbitrary
linear order of keys, together with the three views the rest of the development
needs: by membership, by index, and by leading segment.
-/

namespace FeedHandler.Ladder

variable {α κ : Type} [LinearOrder κ] (key : α → κ)

/-- Keys strictly ascend along the list, so no key occurs twice. -/
def Ascending (l : List α) : Prop := l.Pairwise fun x y => key x < key y

/-- Write `e` at its key. -/
def put (e : α) : List α → List α
  | [] => [e]
  | x :: xs =>
    if key e < key x then e :: x :: xs
    else if key e = key x then e :: xs
    else x :: put e xs

/-- Remove the entry at key `k`. -/
def discard (k : κ) (l : List α) : List α := l.filter fun x => key x ≠ k

variable {key} {e x : α} {k : κ} {l l' : List α}

/-! ### Membership -/

theorem ascending_nil : Ascending key [] := List.Pairwise.nil

theorem Ascending.sublist (hl : Ascending key l) (h : l'.Sublist l) : Ascending key l' :=
  List.Pairwise.sublist h hl

/-- Two ladders with the same entries are the same list. -/
theorem Ascending.eq_of_mem_iff (hl : Ascending key l) (hl' : Ascending key l')
    (h : ∀ x, x ∈ l ↔ x ∈ l') : l = l' := by
  have nodup : ∀ {m : List α}, Ascending key m → m.Nodup := fun hm =>
    hm.imp fun hlt heq => absurd (heq ▸ hlt) (lt_irrefl _)
  have hperm : l.Perm l' := (List.perm_ext_iff_of_nodup (nodup hl) (nodup hl')).mpr h
  refine hperm.eq_of_pairwise ?_ hl hl'
  intro a b _ _ hab hba
  exact absurd hab (lt_asymm hba)

@[simp] theorem mem_discard : x ∈ discard key k l ↔ x ∈ l ∧ key x ≠ k := by
  simp [discard]

theorem Ascending.discard (hl : Ascending key l) (k : κ) : Ascending key (discard key k l) :=
  hl.sublist List.filter_sublist

theorem mem_of_mem_put (h : x ∈ put key e l) : x = e ∨ x ∈ l := by
  induction l with
  | nil => simpa [put] using h
  | cons y ys ih =>
    simp only [put] at h
    split_ifs at h with hlt heq
    · simpa using h
    · rcases List.mem_cons.mp h with h | h
      · exact Or.inl h
      · exact Or.inr (List.mem_cons_of_mem _ h)
    · rcases List.mem_cons.mp h with h | h
      · exact Or.inr (h ▸ List.mem_cons_self)
      · exact (ih h).imp_right (List.mem_cons_of_mem _)

theorem Ascending.put (hl : Ascending key l) (e : α) : Ascending key (put key e l) := by
  induction l with
  | nil => exact List.pairwise_singleton _ _
  | cons y ys ih =>
    rcases List.pairwise_cons.mp hl with ⟨hhead, htail⟩
    simp only [Ladder.put]
    split_ifs with hlt heq
    · refine List.pairwise_cons.mpr ⟨fun z hz => ?_, hl⟩
      rcases List.mem_cons.mp hz with rfl | hz
      · exact hlt
      · exact hlt.trans (hhead z hz)
    · exact List.pairwise_cons.mpr ⟨fun z hz => heq ▸ hhead z hz, htail⟩
    · refine List.pairwise_cons.mpr ⟨fun z hz => ?_, ih htail⟩
      rcases mem_of_mem_put hz with rfl | hz
      · exact lt_of_le_of_ne (not_lt.mp hlt) fun h => heq h.symm
      · exact hhead z hz

theorem Ascending.mem_put (hl : Ascending key l) :
    x ∈ Ladder.put key e l ↔ x = e ∨ (x ∈ l ∧ key x ≠ key e) := by
  induction l with
  | nil => simp [Ladder.put]
  | cons y ys ih =>
    rcases List.pairwise_cons.mp hl with ⟨hhead, htail⟩
    simp only [Ladder.put]
    split_ifs with hlt heq
    · have hne : ∀ z ∈ y :: ys, key z ≠ key e := by
        intro z hz
        rcases List.mem_cons.mp hz with rfl | hz
        · exact ne_of_gt hlt
        · exact ne_of_gt (hlt.trans (hhead z hz))
      constructor
      · intro hx
        exact (List.mem_cons.mp hx).imp_right fun h => ⟨h, hne x h⟩
      · rintro (rfl | ⟨hx, -⟩)
        · exact List.mem_cons_self
        · exact List.mem_cons_of_mem _ hx
    · have hne : ∀ z ∈ ys, key z ≠ key e := fun z hz => heq ▸ ne_of_gt (hhead z hz)
      constructor
      · intro hx
        exact (List.mem_cons.mp hx).imp_right fun h => ⟨List.mem_cons_of_mem _ h, hne x h⟩
      · rintro (rfl | ⟨hx, hkey⟩)
        · exact List.mem_cons_self
        · rcases List.mem_cons.mp hx with rfl | hx
          · exact absurd heq.symm hkey
          · exact List.mem_cons_of_mem _ hx
    · rw [List.mem_cons, ih htail, List.mem_cons]
      constructor
      · rintro (rfl | h | ⟨hx, hkey⟩)
        · exact Or.inr ⟨Or.inl rfl, fun h => heq h.symm⟩
        · exact Or.inl h
        · exact Or.inr ⟨Or.inr hx, hkey⟩
      · rintro (h | ⟨h | hx, hkey⟩)
        · exact Or.inr (Or.inl h)
        · exact Or.inl h
        · exact Or.inr (Or.inr ⟨hx, hkey⟩)

/-! ### Positions -/

theorem discard_eq_self (h : ∀ x ∈ l, key x ≠ k) : discard key k l = l :=
  List.filter_eq_self.mpr fun x hx => by simpa using h x hx

/-- A new key goes in front of the first entry with a larger key. -/
theorem put_eq_insertIdx (hnew : ∀ x ∈ l, key x ≠ key e) :
    put key e l = l.insertIdx (l.findIdx fun x => key e < key x) e := by
  induction l with
  | nil => rfl
  | cons y ys ih =>
    have hy : key e ≠ key y := fun h => hnew y List.mem_cons_self h.symm
    by_cases hlt : key e < key y
    · simp [put, hlt, List.findIdx_cons]
    · simp [put, hlt, hy, List.findIdx_cons, ih fun x hx => hnew x (List.mem_cons_of_mem _ hx)]

theorem Ascending.put_eq_set (hl : Ascending key l) {j : Nat} (hj : j < l.length)
    (hkey : key l[j] = key e) : Ladder.put key e l = l.set j e := by
  induction l generalizing j with
  | nil => simp at hj
  | cons y ys ih =>
    rcases List.pairwise_cons.mp hl with ⟨hhead, htail⟩
    cases j with
    | zero =>
      have hkey' : key e = key y := by simpa using hkey.symm
      simp [Ladder.put, hkey']
    | succ j =>
      have hj' : j < ys.length := by simpa using hj
      have hkey' : key ys[j] = key e := by simpa using hkey
      have hlt : key y < key e := hkey' ▸ hhead _ (List.getElem_mem hj')
      simp [Ladder.put, not_lt_of_gt hlt, ne_of_gt hlt, ih htail hj' hkey']

theorem Ascending.discard_eq_eraseIdx (hl : Ascending key l) {j : Nat} (hj : j < l.length)
    (hkey : key l[j] = k) : Ladder.discard key k l = l.eraseIdx j := by
  induction l generalizing j with
  | nil => simp at hj
  | cons y ys ih =>
    rcases List.pairwise_cons.mp hl with ⟨hhead, htail⟩
    cases j with
    | zero =>
      have hkey' : key y = k := by simpa using hkey
      have hrest : Ladder.discard key k ys = ys :=
        discard_eq_self fun z hz => hkey' ▸ ne_of_gt (hhead z hz)
      simpa [Ladder.discard, hkey'] using hrest
    | succ j =>
      have hj' : j < ys.length := by simpa using hj
      have hkey' : key ys[j] = k := by simpa using hkey
      have hne : key y ≠ k := ne_of_lt (hkey' ▸ hhead _ (List.getElem_mem hj'))
      have hrest := ih htail hj' hkey'
      rw [Ladder.discard] at hrest ⊢
      rw [List.filter_cons_of_pos (by simpa using hne), hrest, List.eraseIdx_cons_succ]

theorem length_put_le : (put key e l).length ≤ l.length + 1 := by
  induction l with
  | nil => simp [put]
  | cons y ys ih =>
    simp only [put]
    split_ifs <;> simp only [List.length_cons] <;> omega

theorem length_le_length_put : l.length ≤ (put key e l).length := by
  induction l with
  | nil => simp
  | cons y ys ih =>
    simp only [put]
    split_ifs <;> simp only [List.length_cons] <;> omega

theorem Ascending.length_put_of_mem (hl : Ascending key l) (hx : x ∈ l) (hkey : key x = key e) :
    (Ladder.put key e l).length = l.length := by
  obtain ⟨j, hj, rfl⟩ := List.getElem_of_mem hx
  rw [hl.put_eq_set hj hkey, List.length_set]

theorem length_put_of_new (hnew : ∀ x ∈ l, key x ≠ key e) :
    (put key e l).length = l.length + 1 := by
  rw [put_eq_insertIdx hnew, List.length_insertIdx_of_le_length List.findIdx_le_length]

/-! ### Leading segments -/

theorem take_put (n : Nat) : (put key e l).take n = (put key e (l.take n)).take n := by
  induction l generalizing n with
  | nil => simp
  | cons y ys ih =>
    cases n with
    | zero => simp
    | succ n =>
      simp only [put, List.take_succ_cons]
      split_ifs with hlt heq
      · simp [List.take_succ_cons]
        cases n with
        | zero => simp
        | succ n => simp [List.take_take]
      · simp [List.take_take]
      · rw [List.take_succ_cons, List.take_succ_cons, ih]

/-- The leading `n` entries are those with fewer than `n` before them. -/
theorem Ascending.mem_take (hl : Ascending key l) (n : Nat) :
    x ∈ l.take n ↔ x ∈ l ∧ (l.filter fun y => key y < key x).length < n := by
  induction l generalizing n with
  | nil => simp
  | cons y ys ih =>
    rcases List.pairwise_cons.mp hl with ⟨hfirst, hrest⟩
    cases n with
    | zero => simp
    | succ n =>
      rw [List.take_succ_cons, List.mem_cons, List.mem_cons, ih hrest]
      constructor
      · rintro (rfl | ⟨hx, hcount⟩)
        · have hnone : (x :: ys).filter (fun z => key z < key x) = [] := by
            rw [List.filter_eq_nil_iff]
            intro z hz
            rcases List.mem_cons.mp hz with rfl | hz
            · simp
            · simpa using (hfirst z hz).le
          exact ⟨Or.inl rfl, by rw [hnone]; exact Nat.succ_pos n⟩
        · refine ⟨Or.inr hx, ?_⟩
          rw [List.filter_cons_of_pos (by simpa using hfirst x hx), List.length_cons]
          omega
      · rintro ⟨rfl | hx, hcount⟩
        · exact Or.inl rfl
        · rw [List.filter_cons_of_pos (by simpa using hfirst x hx), List.length_cons] at hcount
          exact Or.inr ⟨hx, by omega⟩

/-- A discard removes at most one entry of a ladder. -/
theorem Ascending.length_le_length_discard (hl : Ascending key l) (k : κ) :
    l.length ≤ (Ladder.discard key k l).length + 1 := by
  by_cases h : ∃ x ∈ l, key x = k
  · obtain ⟨x, hx, hkey⟩ := h
    obtain ⟨j, hj, rfl⟩ := List.getElem_of_mem hx
    rw [hl.discard_eq_eraseIdx hj hkey, List.length_eraseIdx_of_lt hj]
    omega
  · have hnone : ∀ x ∈ l, key x ≠ k := fun x hx hk => h ⟨x, hx, hk⟩
    rw [discard_eq_self hnone]
    omega

/-- The first `n` entries after a discard depend only on the first `n + 1` before it. -/
theorem Ascending.take_discard (hl : Ascending key l) (n : Nat) :
    (Ladder.discard key k l).take n = (Ladder.discard key k (l.take (n + 1))).take n := by
  by_cases hn : n < l.length
  · have hsplit : Ladder.discard key k l =
        Ladder.discard key k (l.take (n + 1)) ++ Ladder.discard key k (l.drop (n + 1)) := by
      rw [Ladder.discard, Ladder.discard, Ladder.discard, ← List.filter_append,
        List.take_append_drop]
    have hlen := (hl.sublist (List.take_sublist (n + 1) l)).length_le_length_discard k
    rw [List.length_take, Nat.min_eq_left hn] at hlen
    rw [hsplit, List.take_append_of_le_length (by omega)]
  · rw [List.take_of_length_le (show l.length ≤ n + 1 by omega)]

/-! ### Renaming the entries -/

section Map

variable {β : Type} {key' : β → κ} {f : α → β} (hf : ∀ x, key' (f x) = key x)

include hf

theorem map_put (e : α) (l : List α) : (put key e l).map f = put key' (f e) (l.map f) := by
  induction l with
  | nil => rfl
  | cons x xs ih =>
    simp only [put, List.map_cons, hf]
    split_ifs <;> simp [ih]

theorem map_discard (k : κ) (l : List α) :
    (discard key k l).map f = discard key' k (l.map f) := by
  simp only [discard, List.filter_map]
  congr 1
  exact List.filter_congr fun x _ => by simp [hf]

theorem ascending_map : Ascending key' (l.map f) ↔ Ascending key l := by
  simp only [Ascending, List.pairwise_map, hf]

end Map

end FeedHandler.Ladder
