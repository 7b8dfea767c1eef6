import FeedHandler.Sync

/-!
# A queue in front of a three-cycle stage

The abstract machine behind the order book's control, over any word type: words
arrive at most one a cycle, wait in a bounded queue, and are taken one at a time
by a stage that is loaded, compares, decides and lands in consecutive cycles.  A
new word is taken only when the stage is free or about to land, so two words are
never taken less than three cycles apart.  What has landed is shown one cycle
later with a pulse.

The machine carries the words themselves, so order and completeness are one
invariant: everything accepted is shown, landed, in flight or queued, in that
order.
-/

namespace FeedHandler

open Sync

inductive Flight (W : Type) where
  | idle
  | loaded (w : W)
  | compared (w : W)
  | decided (w : W)
deriving DecidableEq, Repr

namespace Flight

variable {W : Type}

def isLoaded : Flight W → Bool
  | loaded _ => true
  | _ => false

def isCompared : Flight W → Bool
  | compared _ => true
  | _ => false

def isDecided : Flight W → Bool
  | decided _ => true
  | _ => false

/-- The stage can take a new word in this cycle. -/
def ready : Flight W → Bool
  | idle => true
  | decided _ => true
  | _ => false

def toList : Flight W → List W
  | idle => []
  | loaded w => [w]
  | compared w => [w]
  | decided w => [w]

/-- The word that lands on this cycle's edge. -/
def landing : Flight W → Option W
  | decided w => some w
  | _ => none

/-- The stage after an edge on which the word `taken` was taken. -/
def advance (taken : Option W) : Flight W → Flight W
  | loaded w => compared w
  | compared w => decided w
  | _ => match taken with
    | some w => loaded w
    | none => idle

theorem ready_eq (flight : Flight W) :
    flight.ready = !(flight.isLoaded || flight.isCompared) := by
  cases flight <;> rfl

section Advance

variable (taken : Option W) (flight : Flight W) {w : W}

@[simp] theorem isCompared_advance : (flight.advance taken).isCompared = flight.isLoaded := by
  cases flight <;> cases taken <;> rfl

@[simp] theorem isDecided_advance : (flight.advance taken).isDecided = flight.isCompared := by
  cases flight <;> cases taken <;> rfl

@[simp] theorem isSome_landing : flight.landing.isSome = flight.isDecided := by
  cases flight <;> rfl

variable {taken flight}

theorem taken_of_advance_eq_loaded (h : flight.advance taken = .loaded w) : taken = some w := by
  cases flight <;> cases taken <;> simp_all [advance]

theorem eq_loaded_of_advance_eq_compared (h : flight.advance taken = .compared w) :
    flight = .loaded w := by
  cases flight <;> cases taken <;> simp_all [advance]

theorem eq_compared_of_advance_eq_decided (h : flight.advance taken = .decided w) :
    flight = .compared w := by
  cases flight <;> cases taken <;> simp_all [advance]

theorem eq_decided_of_landing (h : flight.landing = some w) : flight = .decided w := by
  cases flight <;> simp_all [landing]

end Advance

end Flight

/-- The queue, the stage, and what has come out of it. -/
structure BookPipeline (W : Type) where
  queue : List W
  flight : Flight W
  landed : Option W
  shown : List W
  pulse : Bool

namespace BookPipeline

variable {W : Type}

def start : BookPipeline W where
  queue := []
  flight := .idle
  landed := none
  shown := []
  pulse := false

def taken (p : BookPipeline W) : Option W :=
  if p.flight.ready then p.queue.head? else none

def accepted (cap : Nat) (p : BookPipeline W) (arrival : Option W) : Option W :=
  if p.queue.length < cap then arrival else none

def step (cap : Nat) (p : BookPipeline W) (arrival : Option W) : BookPipeline W where
  queue := (if p.flight.ready then p.queue.tail else p.queue) ++
    (p.accepted cap arrival).toList
  flight := p.flight.advance p.taken
  landed := p.flight.landing
  shown := p.shown ++ p.landed.toList
  pulse := p.landed.isSome

/-- Every word accepted so far, oldest first. -/
def all (p : BookPipeline W) : List W :=
  p.shown ++ p.landed.toList ++ p.flight.toList ++ p.queue

def applied (p : BookPipeline W) : List W := p.shown ++ p.landed.toList

variable {cap : Nat} {p : BookPipeline W} {arrival : Option W}

theorem taken_toList_append_queue (p : BookPipeline W) :
    p.taken.toList ++ (if p.flight.ready then p.queue.tail else p.queue) = p.queue := by
  unfold taken
  split_ifs with hready
  · cases p.queue <;> rfl
  · rfl

theorem isLoaded_advance (p : BookPipeline W) :
    (p.flight.advance p.taken).isLoaded = p.taken.isSome := by
  unfold taken
  cases p.flight with
  | idle => cases p.queue <;> rfl
  | loaded w => rfl
  | compared w => rfl
  | decided w => cases p.queue <;> rfl

/-- The stage neither loses nor invents a word. -/
theorem landing_append_advance (p : BookPipeline W) :
    p.flight.landing.toList ++ (p.flight.advance p.taken).toList =
      p.flight.toList ++ p.taken.toList := by
  unfold taken
  cases hflight : p.flight with
  | idle => cases p.queue <;> rfl
  | loaded w => rfl
  | compared w => rfl
  | decided w => cases p.queue <;> rfl

/-- **Nothing is lost, duplicated or reordered** by a cycle: what has been
    accepted afterwards is what was accepted before and the word accepted now. -/
theorem all_step : (p.step cap arrival).all = p.all ++ (p.accepted cap arrival).toList := by
  have hstage := p.landing_append_advance
  have hqueue := p.taken_toList_append_queue
  calc (p.step cap arrival).all
      = p.shown ++ p.landed.toList ++ (p.flight.landing.toList ++
          (p.flight.advance p.taken).toList) ++
          ((if p.flight.ready then p.queue.tail else p.queue) ++
            (p.accepted cap arrival).toList) := by simp [all, step, List.append_assoc]
    _ = p.shown ++ p.landed.toList ++ p.flight.toList ++ (p.taken.toList ++
          (if p.flight.ready then p.queue.tail else p.queue)) ++
            (p.accepted cap arrival).toList := by rw [hstage]; simp [List.append_assoc]
    _ = p.all ++ (p.accepted cap arrival).toList := by rw [hqueue]; simp [all]

/-! ### Runs -/

section Runs

variable (cap) (arrivals : Nat → Option W)

def cycle (t : Nat) : BookPipeline W := stateAt (step cap) start arrivals t

def kept (t : Nat) : List W :=
  collect (fun u => (cycle cap arrivals u).accepted cap (arrivals u)) t

theorem all_at (t : Nat) : (cycle cap arrivals t).all = kept cap arrivals t := by
  induction t with
  | zero => rfl
  | succ t ih =>
    rw [kept, collect_succ]
    change ((cycle cap arrivals t).step cap (arrivals t)).all = _
    rw [all_step, ih]
    rfl

/-- The pulses up to and including cycle `t` are as many as the words shown. -/
theorem highs_pulse (t : Nat) :
    highs (fun u => (cycle cap arrivals u).pulse) (t + 1) =
      (cycle cap arrivals t).shown.length := by
  induction t with
  | zero => rfl
  | succ t ih =>
    rw [highs_succ, ih]
    change _ + ((cycle cap arrivals t).step cap (arrivals t)).pulse.toNat =
      ((cycle cap arrivals t).step cap (arrivals t)).shown.length
    cases hlanded : (cycle cap arrivals t).landed <;> simp [step, hlanded]

theorem shown_eq_take (t : Nat) :
    (cycle cap arrivals t).shown =
      (kept cap arrivals t).take (cycle cap arrivals t).shown.length := by
  rw [← all_at, all, List.append_assoc, List.append_assoc, List.take_left']
  rfl

theorem length_shown_le (t : Nat) :
    (cycle cap arrivals t).shown.length ≤ (kept cap arrivals t).length := by
  rw [← all_at]
  simp only [all, List.length_append]
  omega

end Runs

/-! ### Progress -/

/-- How many cycles the next word to be shown still needs, one of them for the
    pulse itself. -/
def distance (p : BookPipeline W) : Nat :=
  if p.landed.isSome then 1
  else match p.flight with
    | .decided _ => 2
    | .compared _ => 3
    | .loaded _ => 4
    | .idle => 5

/-- With a word on its way, a cycle shows one or brings the next one closer. -/
theorem step_progress (h : p.shown.length < p.all.length) :
    p.shown.length < (p.step cap arrival).shown.length ∨
      (p.step cap arrival).shown = p.shown ∧
        (p.step cap arrival).distance < p.distance := by
  cases hlanded : p.landed with
  | some w =>
    left
    simp [step, hlanded]
  | none =>
    right
    refine ⟨by simp [step, hlanded], ?_⟩
    cases hflight : p.flight with
    | idle =>
      cases hqueue : p.queue with
      | nil => simp [all, hlanded, hflight, hqueue, Flight.toList] at h
      | cons w ws =>
        simp [distance, step, taken, hlanded, hflight, hqueue, Flight.ready, Flight.advance,
          Flight.landing]
    | loaded w => simp [distance, step, hlanded, hflight, Flight.advance, Flight.landing]
    | compared w => simp [distance, step, hlanded, hflight, Flight.advance, Flight.landing]
    | decided w => simp [distance, step, hlanded, hflight, Flight.landing]

theorem distance_lt (p : BookPipeline W) : p.distance < 6 := by
  unfold distance
  split
  · decide
  · split <;> decide

/-- **Every accepted word is shown.**  The measure counts the words still to be
    shown and, below them, the distance of the next one. -/
theorem exists_shown (cap : Nat) (arrivals : Nat → Option W) {n t : Nat}
    (hkept : n ≤ (kept cap arrivals t).length) :
    ∃ u, t ≤ u ∧ n ≤ (cycle cap arrivals u).shown.length := by
  induction hmeasure : 6 * (n - (cycle cap arrivals t).shown.length) +
    (cycle cap arrivals t).distance using Nat.strong_induction_on generalizing t with
  | _ m ih =>
    by_cases hdone : n ≤ (cycle cap arrivals t).shown.length
    · exact ⟨t, Nat.le_refl t, hdone⟩
    · have hwaiting : (cycle cap arrivals t).shown.length < (cycle cap arrivals t).all.length := by
        rw [all_at]
        omega
      have hgrow : n ≤ (kept cap arrivals (t + 1)).length :=
        hkept.trans (collect_mono (Nat.le_succ t)).length_le
      have hdistance := distance_lt (cycle cap arrivals (t + 1))
      have hsmaller : 6 * (n - (cycle cap arrivals (t + 1)).shown.length) +
          (cycle cap arrivals (t + 1)).distance < m := by
        rcases @step_progress _ cap _ (arrivals t) hwaiting with hshown | hcloser
        · change _ < (cycle cap arrivals (t + 1)).shown.length at hshown
          omega
        · obtain ⟨hsame, hcloser⟩ := hcloser
          change (cycle cap arrivals (t + 1)).shown = _ at hsame
          change (cycle cap arrivals (t + 1)).distance < _ at hcloser
          rw [hsame]
          omega
      obtain ⟨u, htu, hu⟩ := ih _ hsmaller hgrow rfl
      exact ⟨u, Nat.le_of_succ_le htu, hu⟩

end BookPipeline

end FeedHandler
