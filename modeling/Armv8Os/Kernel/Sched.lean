/-
  `kernel/sched.c`: process states, `_activate_proc` and `simple_sched`.

  The scheduler keeps one `state` and one `killed` flag per process, the queue of runnable
  processes, and the process each CPU runs.  Everything here happens under `schlock`.

  Which process `traverse_queue` takes from the queue depends on the time each has used; that choice
  is an ARGUMENT here (`choice`), so a result for every choice holds for the real one.  The nested
  queues of the containers are one queue: `traverse_queue` finds a process in them exactly when
  there is one.

  The lemmas say what the two functions can do to ONE process, which is all that the waiting code
  needs: `activateProc_state` and `simpleSched_switch`.
-/
import Mathlib.Tactic

set_option linter.unusedSectionVars false

namespace Armv8Os.Kernel

open Function (update update_of_ne)

/-- `enum procstate`. -/
inductive ProcState where
  | unused | runnable | running | sleeping | deepsleeping | zombie
  deriving Repr, DecidableEq

/-- The data under `schlock`. -/
structure Sched (C P : Type) where
  state : P → ProcState
  killed : P → Bool
  rq : List P
  thisproc : C → P

variable {C P : Type} [DecidableEq C] [DecidableEq P]

/-- `_activate_proc`: `true` when the process has been put on the queue. -/
def activateProc (k : Sched C P) (p : P) (onalert : Bool) : Bool × Sched C P :=
  match k.state p with
  | .running | .runnable => (false, k)
  | .sleeping | .unused =>
    (true, { k with state := update k.state p .runnable, rq := p :: k.rq })
  | .deepsleeping =>
    if onalert then (false, k)
    else (true, { k with state := update k.state p .runnable, rq := p :: k.rq })
  | .zombie => (false, k)

/-- `update_this_state`; the idle process of a CPU is never on the queue. -/
def updateThisState (idle : C → P) (k : Sched C P) (c : C) (newState : ProcState) : Sched C P :=
  { k with
    state := update k.state (k.thisproc c) newState
    rq := if newState = .runnable ∧ k.thisproc c ≠ idle c then k.thisproc c :: k.rq else k.rq }

/-- `pick_next`: the chosen process of the queue, the idle process when the queue is empty. -/
def pickNext (idle : C → P) (k : Sched C P) (c : C) : Option P → Option (P × Sched C P)
  | some q => if q ∈ k.rq then some (q, { k with rq := k.rq.erase q }) else none
  | none => if k.rq = [] then some (idle c, k) else none

/-- `simple_sched(new_state)` on CPU `c`.  The result names the process that runs on; there is none
    when a killed process is turned back at the top.  `none` is a failed assertion (or a `choice`
    that is not on the queue). -/
def simpleSched (idle : C → P) (k : Sched C P) (c : C) (newState : ProcState) (choice : Option P) :
    Option (Option P × Sched C P) :=
  if k.killed (k.thisproc c) = true ∧ newState ≠ .zombie then some (none, k)
  else if k.state (k.thisproc c) ≠ .running then none
  else
    match pickNext idle (updateThisState idle k c newState) c choice with
    | none => none
    | some (next, k₂) =>
      if k₂.state next ≠ .runnable then none
      else some (some next,
        { k₂ with
          thisproc := update k₂.thisproc c next
          state := update k₂.state next .running })

/-! ## What the two functions do to one process -/

variable {p : P}

/-- Nobody but the activated process changes its state. -/
theorem activateProc_of_ne (k : Sched C P) {u : P} (onalert : Bool) (h : u ≠ p) :
    (activateProc k p onalert).2.state u = k.state u := by
  unfold activateProc
  split <;> try rfl
  · exact update_of_ne h ..
  · exact update_of_ne h ..
  · split
    · rfl
    · exact update_of_ne h ..

variable {k : Sched C P}

/-- A runnable process stays runnable. -/
theorem activateProc_runnable (onalert : Bool) (h : k.state p = .runnable) :
    activateProc k p onalert = (false, k) := by
  simp only [activateProc, h]

/-- `activate_proc` wakes a process from deep sleep. -/
theorem activateProc_deep (h : k.state p = .deepsleeping) :
    (activateProc k p false).2.state p = .runnable := by
  simp [activateProc, h]

/-- `alert_proc` does not. -/
theorem alertProc_deep (h : k.state p = .deepsleeping) :
    activateProc k p true = (false, k) := by
  simp only [activateProc, h, if_true]

variable {idle : C → P} {choice : Option P}

theorem pickNext_state {k₂ : Sched C P} {c : C} {q : P}
    (h : pickNext idle k c choice = some (q, k₂)) : k₂.state = k.state ∧ k₂.killed = k.killed := by
  cases choice with
  | none =>
    obtain ⟨_, h⟩ := Option.ite_none_right_eq_some.mp h
    cases h
    exact ⟨rfl, rfl⟩
  | some r =>
    obtain ⟨_, h⟩ := Option.ite_none_right_eq_some.mp h
    cases h
    exact ⟨rfl, rfl⟩

variable {newState : ProcState}

/-- **A context switch.**  The caller was running and not turned back; the next process was runnable
    (after the caller took its new state) and runs now; nobody else changes state. -/
theorem simpleSched_switch {k' : Sched C P} {c : C}
    {next : P} (h : simpleSched idle k c newState choice = some (some next, k')) :
    update k.state (k.thisproc c) newState next = .runnable ∧
    k'.state = update (update k.state (k.thisproc c) newState) next .running := by
  unfold simpleSched at h
  split at h
  · cases h
  · split at h
    · cases h
    · split at h
      · cases h
      · rename_i q k₂ hpick
        obtain ⟨hstate, _⟩ := pickNext_state hpick
        split at h
        · cases h
        · rename_i hrunnable
          cases h
          rw [hstate] at hrunnable
          show _ ∧ update k₂.state next .running = _
          rw [hstate]
          exact ⟨not_not.mp hrunnable, rfl⟩

/-- A process is turned back exactly when it is killed and does not exit, and then nothing happens. -/
theorem simpleSched_back {k' : Sched C P} {c : C}
    (h : simpleSched idle k c newState choice = some (none, k')) :
    k.killed (k.thisproc c) = true ∧ newState ≠ .zombie ∧ k' = k := by
  unfold simpleSched at h
  split at h
  · rename_i hback
    cases h
    exact ⟨hback.1, hback.2, rfl⟩
  · split at h
    · cases h
    · split at h
      · cases h
      · split at h
        · cases h
        · cases h

end Armv8Os.Kernel
