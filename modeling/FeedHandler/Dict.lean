import FeedHandler.Ladder
import Mathlib.Data.List.Sort
import Mathlib.Data.List.Nodup

/-!
# Dictionaries and their sorted items

An insertion-ordered dictionary, as in Python: `set` overwrites the value of a
key in place or appends a new item, `pop` removes a key if it is there.  Sorting
the items by an injective rank of the keys gives a ladder, and on that ladder the
two operations are `put` and `discard`.
-/

namespace FeedHandler

/-- A dictionary: items in insertion order, no key twice. -/
structure Dict (κ ν : Type) where
  items : List (κ × ν)
  distinct : (items.map Prod.fst).Nodup

namespace Dict

variable {κ ν : Type}

def empty : Dict κ ν := { items := [], distinct := List.nodup_nil }

variable [DecidableEq κ]

theorem keys_overwrite (items : List (κ × ν)) (k : κ) (v : ν) :
    (items.map fun e => if e.1 = k then (k, v) else e).map Prod.fst = items.map Prod.fst := by
  rw [List.map_map]
  apply List.map_congr_left
  intro e _
  simp only [Function.comp]
  split_ifs with hk
  · exact hk.symm
  · rfl

/-- `d[k] = v`. -/
def set (d : Dict κ ν) (k : κ) (v : ν) : Dict κ ν :=
  if h : k ∈ d.items.map Prod.fst then
    { items := d.items.map fun e => if e.1 = k then (k, v) else e
      distinct := by rw [keys_overwrite]; exact d.distinct }
  else
    { items := d.items ++ [(k, v)]
      distinct := by
        rw [List.map_append, List.nodup_append]
        refine ⟨d.distinct, List.nodup_singleton _, ?_⟩
        intro a ha b hb hab
        have hb : b = k := List.mem_singleton.mp hb
        exact h (hb ▸ hab ▸ ha) }

/-- `d.pop(k, None)`. -/
def pop (d : Dict κ ν) (k : κ) : Dict κ ν where
  items := d.items.filter fun e => e.1 ≠ k
  distinct := d.distinct.sublist (List.filter_sublist.map Prod.fst)

theorem mem_set {d : Dict κ ν} {k : κ} {v : ν} {e : κ × ν} :
    e ∈ (d.set k v).items ↔ e = (k, v) ∨ (e ∈ d.items ∧ e.1 ≠ k) := by
  unfold set
  split_ifs with hk
  · simp only [List.mem_map]
    constructor
    · rintro ⟨a, ha, rfl⟩
      split_ifs with hak
      · exact Or.inl rfl
      · exact Or.inr ⟨ha, hak⟩
    · rintro (rfl | ⟨he, hek⟩)
      · obtain ⟨a, ha, hak⟩ := List.mem_map.mp hk
        exact ⟨a, ha, by simp [hak]⟩
      · exact ⟨e, he, by simp [hek]⟩
  · have hother : ∀ a ∈ d.items, a.1 ≠ k := fun a ha hak => hk (List.mem_map.mpr ⟨a, ha, hak⟩)
    simp only [List.mem_append, List.mem_singleton]
    constructor
    · rintro (he | he)
      · exact Or.inr ⟨he, hother e he⟩
      · exact Or.inl he
    · rintro (he | ⟨he, -⟩)
      · exact Or.inr he
      · exact Or.inl he

theorem mem_pop {d : Dict κ ν} {k : κ} {e : κ × ν} :
    e ∈ (d.pop k).items ↔ e ∈ d.items ∧ e.1 ≠ k := by
  simp [pop]

/-! ### Looking a key up -/

/-- `d.get(k)`. -/
def get (d : Dict κ ν) (k : κ) : Option ν := (d.items.find? fun e => e.1 = k).map Prod.snd

theorem get_eq_some {d : Dict κ ν} {k : κ} {v : ν} : d.get k = some v ↔ (k, v) ∈ d.items := by
  rw [get, Option.map_eq_some_iff]
  constructor
  · rintro ⟨⟨k', v'⟩, hfound, rfl⟩
    have hk : k' = k := by simpa using List.find?_some hfound
    exact hk ▸ List.mem_of_find?_eq_some hfound
  · intro hmem
    have hsome : (d.items.find? fun e => e.1 = k).isSome :=
      List.find?_isSome.mpr ⟨(k, v), hmem, by simp⟩
    rcases Option.isSome_iff_exists.mp hsome with ⟨e, hfound⟩
    have hk : e.1 = k := by simpa using List.find?_some hfound
    have hsame : e = (k, v) :=
      List.inj_on_of_nodup_map d.distinct (List.mem_of_find?_eq_some hfound) hmem hk
    exact ⟨e, hfound, congrArg Prod.snd hsame⟩

@[simp] theorem get_empty (k : κ) : (empty : Dict κ ν).get k = none := rfl

theorem get_set (d : Dict κ ν) (k k' : κ) (v : ν) :
    (d.set k v).get k' = if k' = k then some v else d.get k' := by
  apply Option.ext
  intro v'
  rw [get_eq_some, mem_set]
  split_ifs with hk
  · simp [hk, eq_comm]
  · simp [hk, get_eq_some]

theorem get_pop (d : Dict κ ν) (k k' : κ) :
    (d.pop k).get k' = if k' = k then none else d.get k' := by
  apply Option.ext
  intro v'
  rw [get_eq_some, mem_pop]
  split_ifs with hk
  · simp [hk]
  · simp [hk, get_eq_some]

/-! ### Sorted items -/

section Sorted

variable {ι : Type} [LinearOrder ι] {rank : κ → ι}

omit [DecidableEq κ]

/-- `sorted(d.items(), key=...)`, the key computed from the dictionary key. -/
def sorted (rank : κ → ι) (d : Dict κ ν) : List (κ × ν) :=
  d.items.insertionSort fun x y => rank x.1 ≤ rank y.1

@[simp] theorem mem_sorted {d : Dict κ ν} {e : κ × ν} : e ∈ d.sorted rank ↔ e ∈ d.items :=
  List.mem_insertionSort _

@[simp] theorem length_sorted (d : Dict κ ν) : (d.sorted rank).length = d.items.length :=
  List.length_insertionSort _ _

theorem ascending_sorted (hrank : Function.Injective rank) (d : Dict κ ν) :
    Ladder.Ascending (fun e : κ × ν => rank e.1) (d.sorted rank) := by
  have htotal : Std.Total fun x y : κ × ν => rank x.1 ≤ rank y.1 :=
    ⟨fun x y => le_total (rank x.1) (rank y.1)⟩
  have htrans : IsTrans (κ × ν) fun x y => rank x.1 ≤ rank y.1 := ⟨fun _ _ _ => le_trans⟩
  have hle : (d.sorted rank).Pairwise fun x y => rank x.1 ≤ rank y.1 :=
    List.pairwise_insertionSort _ _
  have hperm : ((d.sorted rank).map Prod.fst).Perm (d.items.map Prod.fst) :=
    (List.perm_insertionSort _ _).map _
  have hne : (d.sorted rank).Pairwise fun x y => x.1 ≠ y.1 :=
    List.pairwise_map.mp (hperm.nodup_iff.mpr d.distinct)
  exact hle.imp₂ (fun _ _ hle hne => lt_of_le_of_ne hle fun h => hne (hrank h)) hne

variable [DecidableEq κ] (hrank : Function.Injective rank) (d : Dict κ ν) (k : κ)

include hrank

theorem sorted_set (v : ν) :
    (d.set k v).sorted rank = Ladder.put (fun e => rank e.1) (k, v) (d.sorted rank) := by
  have hasc := ascending_sorted hrank d
  apply (ascending_sorted hrank _).eq_of_mem_iff (hasc.put _)
  intro e
  rw [mem_sorted, mem_set, hasc.mem_put, mem_sorted]
  simp only [ne_eq, hrank.eq_iff]

theorem sorted_pop :
    (d.pop k).sorted rank = Ladder.discard (fun e => rank e.1) (rank k) (d.sorted rank) := by
  have hasc := ascending_sorted hrank d
  apply (ascending_sorted hrank _).eq_of_mem_iff (hasc.discard _)
  intro e
  rw [mem_sorted, mem_pop, Ladder.mem_discard, mem_sorted]
  simp only [ne_eq, hrank.eq_iff]

end Sorted

end Dict

end FeedHandler
