import Mathlib.Data.List.Forall2
import Mathlib.Tactic.Common

/-!
# Loops that may raise

Computations in `Except` taken apart, and the rule for a loop over a list whose body may
raise: what holds before the first pass and is kept by every pass that returns holds of
what the loop returns, together with the elements it went through.
-/

namespace FeedHandler.ExceptLoops

variable {ε α β γ : Type}

theorem bind_eq_ok {x : Except ε α} {f : α → Except ε β} {b : β} :
    (x >>= f) = .ok b ↔ ∃ a, x = .ok a ∧ f a = .ok b := by
  cases x <;> simp [bind, Except.bind]

theorem pure_eq_ok {a b : α} : (pure a : Except ε α) = .ok b ↔ a = b :=
  Except.ok.injEq a b ▸ Iff.rfl

/-- **The loop rule.**  The invariant speaks of the elements already done. -/
theorem foldlM_rule {body : β → α → Except ε β} (Inv : List α → β → Prop)
    (hstep : ∀ done x s s', Inv done s → body s x = .ok s' → Inv (done ++ [x]) s')
    {xs : List α} {s₀ s : β} (hstart : Inv [] s₀) (hrun : xs.foldlM body s₀ = .ok s) :
    Inv xs s := by
  have hall : ∀ done s₁, Inv done s₁ → xs.foldlM body s₁ = .ok s → Inv (done ++ xs) s := by
    clear hstart hrun
    induction xs with
    | nil =>
      intro done s₁ hinv hrun
      rw [List.foldlM_nil, pure_eq_ok] at hrun
      rwa [List.append_nil, ← hrun]
    | cons x xs ih =>
      intro done s₁ hinv hrun
      rw [List.foldlM_cons, bind_eq_ok] at hrun
      rcases hrun with ⟨s₂, hfirst, hrest⟩
      rw [← List.singleton_append, ← List.append_assoc]
      exact ih (done ++ [x]) s₂ (hstep done x s₁ s₂ hinv hfirst) hrest
  exact hall [] s₀ hstart hrun

/-- **The rule for loops that return.**  Every pass from the invariant returns and keeps it;
    the elements done so far are a leading part of the list. -/
theorem exists_foldlM_eq_ok {body : β → α → Except ε β} {xs : List α} (Inv : List α → β → Prop)
    (hstep : ∀ done x s, done ++ [x] <+: xs → Inv done s →
      ∃ s', body s x = .ok s' ∧ Inv (done ++ [x]) s')
    {s₀ : β} (hstart : Inv [] s₀) : ∃ s, xs.foldlM body s₀ = .ok s := by
  have hall : ∀ rest done s₁, done ++ rest = xs → Inv done s₁ →
      ∃ s, rest.foldlM body s₁ = .ok s := by
    intro rest
    induction rest with
    | nil => exact fun _ s₁ _ _ => ⟨s₁, rfl⟩
    | cons x rest ih =>
      intro done s₁ hsplit hinv
      have hsplit' : done ++ [x] ++ rest = xs := by
        rw [List.append_assoc, List.singleton_append, hsplit]
      obtain ⟨s₂, hfirst, hnext⟩ := hstep done x s₁ ⟨rest, hsplit'⟩ hinv
      obtain ⟨s, hrest⟩ := ih (done ++ [x]) s₂ hsplit' hnext
      exact ⟨s, by rw [List.foldlM_cons, bind_eq_ok]; exact ⟨s₂, hfirst, hrest⟩⟩
  exact hall xs [] s₀ rfl hstart

/-- A loop whose body always returns is a plain one. -/
theorem foldlM_eq_ok {body : β → α → Except ε β} {value : β → α → β}
    (h : ∀ s x, body s x = .ok (value s x)) (xs : List α) (s : β) :
    xs.foldlM body s = .ok (xs.foldl value s) := by
  induction xs generalizing s with
  | nil => rfl
  | cons x xs ih =>
    rw [List.foldlM_cons, h, List.foldl_cons, ← ih]
    rfl

theorem mapM_cons_eq_ok {f : α → Except ε β} {x : α} {xs : List α} {ys : List β} :
    (x :: xs).mapM f = .ok ys ↔ ∃ y zs, f x = .ok y ∧ xs.mapM f = .ok zs ∧ ys = y :: zs := by
  simp only [List.mapM_cons, bind_eq_ok, pure_eq_ok]
  constructor
  · rintro ⟨y, hy, zs, hzs, rfl⟩
    exact ⟨y, zs, hy, hzs, rfl⟩
  · rintro ⟨y, zs, hy, hzs, rfl⟩
    exact ⟨y, hy, zs, hzs, rfl⟩

/-- What is read from a leading part is a leading part of what is read. -/
theorem isPrefix_of_mapM {f : α → Except ε β} {xs xs' : List α} {ys ys' : List β}
    (hpre : xs' <+: xs) (h : xs.mapM f = .ok ys) (h' : xs'.mapM f = .ok ys') : ys' <+: ys := by
  obtain ⟨rest, rfl⟩ := hpre
  rw [List.mapM_append, h', bind_eq_ok] at h
  rcases h with ⟨_, hfirst, hrest⟩
  obtain rfl := Except.ok.inj hfirst
  rw [bind_eq_ok] at hrest
  rcases hrest with ⟨zs, -, hys⟩
  exact ⟨zs, pure_eq_ok.mp hys⟩

/-- A nested loop is one loop over what the inner ones go through. -/
theorem foldlM_flatten {read : α → Except ε (List γ)} {body : β → γ → Except ε β}
    {xs : List α} {s₀ s : β} :
    xs.foldlM (fun s x => read x >>= fun ys => ys.foldlM body s) s₀ = .ok s ↔
      ∃ yss, xs.mapM read = .ok yss ∧ yss.flatten.foldlM body s₀ = .ok s := by
  induction xs generalizing s₀ with
  | nil =>
    constructor
    · exact fun hrun => ⟨[], rfl, hrun⟩
    · rintro ⟨yss, hyss, hrun⟩
      obtain rfl : [] = yss := pure_eq_ok.mp hyss
      exact hrun
  | cons x xs ih =>
    rw [List.foldlM_cons]
    simp only [bind_eq_ok, mapM_cons_eq_ok, ih]
    constructor
    · rintro ⟨s₁, ⟨ys, hread, hinner⟩, yss, hyss, houter⟩
      refine ⟨ys :: yss, ⟨ys, yss, hread, hyss, rfl⟩, ?_⟩
      rw [List.flatten_cons, List.foldlM_append, hinner]
      exact houter
    · rintro ⟨_, ⟨ys, yss, hread, hyss, rfl⟩, hrun⟩
      rw [List.flatten_cons, List.foldlM_append, bind_eq_ok] at hrun
      rcases hrun with ⟨s₁, hinner, houter⟩
      exact ⟨s₁, ⟨ys, hread, hinner⟩, yss, hyss, houter⟩

end FeedHandler.ExceptLoops
