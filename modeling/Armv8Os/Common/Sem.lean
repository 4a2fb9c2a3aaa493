/-
  `common/sem.c`: counting semaphores.

  A `Semaphore` is a value and a list of sleepers.  `_insert_into_list(&sem->sleeplist, ..)` puts a
  new waiter right behind the list head and `_post_sem` takes `sleeplist.prev`, so with the most
  recent waiter FIRST in `sleeplist` a post wakes the LAST one.  What a waiter is stays a type
  parameter `W` (the source has a `WaitData` that points to a process).

  The functions here are the bodies executed under the semaphore's own lock; what the waiter does
  before and after it sleeps is the business of the modules that run threads.

  `CountsSleepers` is the bookkeeping invariant of the source (`val < 0` counts the sleepers); the main
  result is `postAllSem_eq`: the do-while loop of `post_all_sem` terminates, wakes every sleeper in
  the order they went to sleep and leaves `max val 0`.
-/
import Mathlib.Tactic

namespace Armv8Os.Sem

open List

variable {W : Type*}

/-- `Semaphore`: the counter and the waiters, the most recent one first. -/
structure Semaphore (W : Type*) where
  val : Int
  sleeplist : List W
  deriving Repr, DecidableEq

/-- `init_sem`. -/
def initSem (val : Int) : Semaphore W := { val := val, sleeplist := [] }

/-- `_query_sem`. -/
def querySem (sem : Semaphore W) : Int := sem.val

/-- `_get_sem`: take a token if there is one, never sleep. -/
def getSem (sem : Semaphore W) : Bool × Semaphore W :=
  if 0 < sem.val then (true, { sem with val := sem.val - 1 }) else (false, sem)

/-- `get_all_sem`: take every token. -/
def getAllSem (sem : Semaphore W) : Int × Semaphore W :=
  if 0 < sem.val then (sem.val, { sem with val := 0 }) else (0, sem)

/-- The first half of `_wait_sem`, up to `sched`: `true` when the caller got a token at once,
    `false` when it has been put on the sleep list. -/
def waitSem (sem : Semaphore W) (w : W) : Bool × Semaphore W :=
  if 0 ≤ sem.val - 1 then (true, { sem with val := sem.val - 1 })
  else (false, { val := sem.val - 1, sleeplist := w :: sem.sleeplist })

/-- `_post_sem`: the woken waiter if there is one.  `none` is the failed
    `ASSERT(!_empty_list(&sem->sleeplist))`. -/
def postSem (sem : Semaphore W) : Option (Option W × Semaphore W) :=
  if sem.val + 1 ≤ 0 then
    match sem.sleeplist.getLast? with
    | none => none
    | some w => some (some w, { val := sem.val + 1, sleeplist := sem.sleeplist.dropLast })
  else some (none, { sem with val := sem.val + 1 })

/-- The `do _post_sem(sem), ret++; while (!_get_sem(sem));` of `post_all_sem`.  `woken` collects
    the waiters in the order they are activated. -/
def postAllLoop : Nat → Semaphore W → Int → List W → Option (Int × List W × Semaphore W)
  | 0, _, _, _ => none
  | n + 1, sem, ret, woken =>
    match postSem sem with
    | none => none
    | some (w, sem₁) =>
      if (getSem sem₁).1 then some (ret + 1, woken ++ w.toList, (getSem sem₁).2)
      else postAllLoop n (getSem sem₁).2 (ret + 1) (woken ++ w.toList)

/-- `post_all_sem`.  One round per sleeper and one that puts a token and takes it back. -/
def postAllSem (sem : Semaphore W) : Option (Int × List W × Semaphore W) :=
  postAllLoop ((-sem.val).toNat + 1) sem (-1) []

/-- The sleep list has exactly `max 0 (-val)` entries. -/
def CountsSleepers (sem : Semaphore W) : Prop := sem.sleeplist.length = (-sem.val).toNat

theorem countsSleepers_initSem {v : Int} (hv : 0 ≤ v) : CountsSleepers (initSem v : Semaphore W) := by
  simp only [CountsSleepers, initSem, length_nil]
  omega

variable {sem : Semaphore W}

theorem countsSleepers_waitSem (h : CountsSleepers sem) (w : W) :
    CountsSleepers (waitSem sem w).2 := by
  unfold waitSem CountsSleepers at *
  split
  · simp only; omega
  · simp only [length_cons]; omega

/-- A post on a semaphore that counts its sleepers never fails its assertion and keeps it so. -/
theorem countsSleepers_postSem (h : CountsSleepers sem) :
    ∃ w sem', postSem sem = some (w, sem') ∧ CountsSleepers sem' ∧ sem'.val = sem.val + 1 := by
  unfold postSem CountsSleepers at *
  by_cases hv : sem.val + 1 ≤ 0
  · have hne : sem.sleeplist ≠ [] := by
      intro h0; rw [h0] at h; simp only [length_nil] at h; omega
    rw [if_pos hv, getLast?_eq_getLast_of_ne_nil hne]
    refine ⟨_, _, rfl, ?_, rfl⟩
    simp only [length_dropLast]; omega
  · rw [if_neg hv]
    refine ⟨_, _, rfl, ?_, rfl⟩
    simp only; omega

theorem waitSem_of_pos (h : 0 < sem.val) (w : W) : waitSem sem w = (true, { sem with val := sem.val - 1 }) :=
  if_pos (by omega)

/-- Waiting on a semaphore without tokens puts the caller to sleep. -/
theorem waitSem_of_nonpos (h : sem.val ≤ 0) (w : W) :
    waitSem sem w = (false, { val := sem.val - 1, sleeplist := w :: sem.sleeplist }) := if_neg (by omega)

theorem postSem_of_nonneg (h : 0 ≤ sem.val) : postSem sem = some (none, { sem with val := sem.val + 1 }) :=
  if_neg (by omega)

/-- A post wakes the oldest sleeper. -/
theorem postSem_of_neg {w : W} {ws : List W} (h : sem.val < 0) (hs : sem.sleeplist = ws ++ [w]) :
    postSem sem = some (some w, { val := sem.val + 1, sleeplist := ws }) := by
  unfold postSem
  rw [if_pos (by omega), hs]
  simp

/-- One round of the loop on a semaphore with a sleeper: it is woken and the loop goes on. -/
theorem postAllLoop_sleeper {n : Nat} {ret : Int} {woken : List W} {w : W}
    {ws : List W} (hv : sem.val + 1 ≤ 0) (hs : sem.sleeplist = ws ++ [w]) :
    postAllLoop (n + 1) sem ret woken =
      postAllLoop n { val := sem.val + 1, sleeplist := ws } (ret + 1) (woken ++ [w]) := by
  have hget : ¬ 0 < sem.val + 1 := by omega
  simp [postAllLoop, postSem_of_neg (by omega) hs, getSem, hget]

/-- The last round: nobody sleeps, the token that is put is taken back. -/
theorem postAllLoop_last {n : Nat} {ret : Int} {woken : List W}
    (hv : 0 ≤ sem.val) : postAllLoop (n + 1) sem ret woken = some (ret + 1, woken, sem) := by
  have hget : 0 < sem.val + 1 := by omega
  simp [postAllLoop, postSem_of_nonneg hv, getSem, hget]

/-- The loop wakes the whole list from its last entry on, by induction on the sleepers. -/
theorem postAllLoop_eq (ws : List W) : ∀ (n : Nat) (sem : Semaphore W) (ret : Int) (woken : List W),
    CountsSleepers sem → sem.sleeplist = ws.reverse → sem.val ≤ 0 → ws.length < n →
    postAllLoop n sem ret woken =
      some (ret + 1 + ws.length, woken ++ ws, { val := 0, sleeplist := [] }) := by
  induction ws with
  | nil =>
    intro n sem ret woken hb hs hv hn
    obtain ⟨n, rfl⟩ := Nat.exists_eq_succ_of_ne_zero (by omega : n ≠ 0)
    have hval : sem.val = 0 := by
      unfold CountsSleepers at hb; rw [hs] at hb; simp at hb; omega
    rw [postAllLoop_last (by omega)]
    cases sem
    simp_all
  | cons w ws ih =>
    intro n sem ret woken hb hs hv hn
    obtain ⟨n, rfl⟩ := Nat.exists_eq_succ_of_ne_zero (by omega : n ≠ 0)
    have hlen : (-sem.val).toNat = ws.length + 1 := by
      unfold CountsSleepers at hb; rw [hs] at hb; simp at hb; omega
    have hb' : CountsSleepers ({ val := sem.val + 1, sleeplist := ws.reverse } : Semaphore W) := by
      simp only [CountsSleepers, length_reverse]; omega
    rw [postAllLoop_sleeper (by omega) (by rw [hs, reverse_cons]),
      ih n _ (ret + 1) (woken ++ [w]) hb' rfl (by simp only; omega) (by simp at hn; omega)]
    simp only [append_assoc, singleton_append, length_cons]
    have hret : ret + 1 + 1 + (ws.length : Int) = ret + 1 + ((ws.length + 1 : Nat) : Int) := by
      push_cast; ring
    rw [hret]

/-- **`post_all_sem` terminates and wakes everybody**: on a semaphore that counts its sleepers it activates the
    sleepers in the order they went to sleep and leaves `max val 0`, so no token is left over. -/
theorem postAllSem_eq (h : CountsSleepers sem) :
    postAllSem sem = some ((sem.sleeplist.length : Int), sem.sleeplist.reverse,
      { val := max sem.val 0, sleeplist := [] }) := by
  unfold postAllSem
  rcases Int.le_total sem.val 0 with hv | hv
  · rw [postAllLoop_eq sem.sleeplist.reverse _ sem (-1) [] h (by simp) hv
      (by unfold CountsSleepers at h; simp; omega)]
    simp [max_eq_right hv]
  · have hnil : sem.sleeplist = [] := by
      apply eq_nil_of_length_eq_zero
      unfold CountsSleepers at h; omega
    rw [postAllLoop_last hv, hnil]
    cases sem
    simp_all

end Armv8Os.Sem
