/-
  `common/sem.c` run by any number of waiters: the books of one semaphore.

  A `w : W` names one call of `_wait_sem` (its `WaitData`).  Every move of `step` is one section that
  the source executes under the semaphore's lock, except the two that only make `sched` return in a
  sleeper: `alert` (of a process that asked to be alertable) and `turnBack` (a killed process comes
  straight back from `simple_sched`, whatever it asked for).  A waiter that runs again finds out in
  `resume` whether a post was faster: then `up` is set and it returns `true`, otherwise it has to take
  itself off the list and give its place in the counter back.

  Next to the semaphore the state keeps what has happened to it: the posts, the successful waits and
  gets (a wait succeeds when it takes a token at once or when a post sets its `up`), the waits in the
  order they went to sleep and in the order posts woke them.

  1. **The books** (`Accounts`, kept by every move: `step_accounts`).
  2. **An interrupted wait leaves no trace** (`Without`): the run in which the wait never happened
     makes the same moves and ends in the same semaphore (`run_without`).
  3. `semaphore_accounting` puts the two together for every reachable state.
-/
import Armv8Os.Lib.Transition
import Armv8Os.Common.Sem

set_option linter.unusedSectionVars false

namespace Armv8Os.SemAccounts

open Sem Transition List Option
open Function (update update_of_ne update_self)

variable {W : Type*} [DecidableEq W]

/-! ## The system -/

/-- How far a call of `_wait_sem` has come. -/
inductive Stage where
  /-- not called yet -/
  | idle
  /-- inside `sched` with `up` unset -/
  | asleep (alertable : Bool)
  /-- `sched` has returned, `up` is unset and the lock not yet retaken -/
  | interrupted
  /-- a post has set `up` -/
  | woken
  | returned (ret : Bool)
  deriving Repr, DecidableEq

/-- On the sleep list: `up` is unset. -/
def Stage.sleeps : Stage → Bool
  | .asleep _ | .interrupted => true
  | _ => false

/-- Before, on and past the sleep list. -/
def Stage.rank : Stage → Nat
  | .idle => 0
  | .asleep _ | .interrupted => 1
  | .woken | .returned _ => 2

theorem Stage.sleeps_iff (g : Stage) : g.sleeps ↔ g.rank = 1 := by
  cases g <;> simp [sleeps, rank]

/-- A semaphore, its waiters and its history. -/
structure State (W : Type*) where
  sem : Semaphore W
  stage : W → Stage
  /-- calls of `_post_sem` -/
  posts : Nat
  /-- successful waits and tokens taken by gets -/
  passed : Nat
  /-- the waits that had to sleep, in that order -/
  slept : List W
  /-- the waits woken by posts, in that order -/
  woken : List W

inductive Act (W : Type*) where
  | wait (w : W) (alertable : Bool)
  | alert (w : W)
  | turnBack (w : W)
  | resume (w : W)
  | post
  | get
  | getAll
  | postAll
  deriving Repr

/-- `init_sem(sem, val)` and nobody has called anything. -/
def start (v : Int) : State W :=
  { sem := initSem v, stage := fun _ => .idle, posts := 0, passed := 0, slept := [], woken := [] }

/-- The `!wait->up` branch of `_wait_sem`.  `none` is the failed `ASSERT(++sem->val <= 0)`. -/
def abandonSem (sem : Semaphore W) (w : W) : Option (Semaphore W) :=
  if sem.val + 1 ≤ 0 then some { val := sem.val + 1, sleeplist := sem.sleeplist.erase w } else none

/-- `wait->up = true` for each of `ws`. -/
def markUp (stage : W → Stage) (ws : List W) : W → Stage :=
  fun w => if w ∈ ws then .woken else stage w

def State.setStage (s : State W) (w : W) (g : Stage) : State W :=
  { s with stage := update s.stage w g }

variable {s : State W} {w : W}

theorem State.setStage_of_ne {u : W} (hu : u ≠ w) (g : Stage) :
    (s.setStage w g).stage u = s.stage u := by
  simp [State.setStage, hu]

/-- One section of one thread. -/
def step (s : State W) : Act W → Option (State W)
  | .wait w alertable =>
    if s.stage w = .idle then
      if (waitSem s.sem w).1 then
        some { s.setStage w (.returned true) with
          sem := (waitSem s.sem w).2, passed := s.passed + 1 }
      else
        some { s.setStage w (.asleep alertable) with
          sem := (waitSem s.sem w).2, slept := s.slept ++ [w] }
    else none
  | .alert w => if s.stage w = .asleep true then some (s.setStage w .interrupted) else none
  | .turnBack w =>
    match s.stage w with
    | .asleep _ => some (s.setStage w .interrupted)
    | _ => none
  | .resume w =>
    match s.stage w with
    | .woken => some (s.setStage w (.returned true))
    | .interrupted =>
      (abandonSem s.sem w).map fun sem => { s.setStage w (.returned false) with sem := sem }
    | _ => none
  | .post =>
    (postSem s.sem).map fun r =>
      { s with
        sem := r.2, stage := markUp s.stage r.1.toList, posts := s.posts + 1,
        passed := s.passed + r.1.toList.length, woken := s.woken ++ r.1.toList }
  | .get =>
    some { s with sem := (getSem s.sem).2, passed := s.passed + (getSem s.sem).1.toNat }
  | .getAll =>
    some { s with sem := (getAllSem s.sem).2, passed := s.passed + (getAllSem s.sem).1.toNat }
  | .postAll =>
    -- `ret` is one less than the rounds of the loop, and the last round takes its token back
    (postAllSem s.sem).map fun r =>
      { s with
        sem := r.2.2, stage := markUp s.stage r.2.1, posts := s.posts + (r.1 + 1).toNat,
        passed := s.passed + r.2.1.length + 1, woken := s.woken ++ r.2.1 }

/-! ## The books -/

/-- What holds after any number of sections. -/
structure Accounts (v : Int) (s : State W) : Prop where
  counts : CountsSleepers s.sem
  tokens : s.sem.val = v + s.posts - s.passed - s.sem.sleeplist.length
  onList : ∀ w, w ∈ s.sem.sleeplist ↔ (s.stage w).sleeps
  order : (s.woken ++ s.sem.sleeplist.reverse).Sublist s.slept
  once : s.slept.Nodup
  called : ∀ w ∈ s.slept, s.stage w ≠ .idle

variable {v : Int}

/-- The sleep list has no wait twice: it is part of the waits that went to sleep. -/
theorem Accounts.nodup (h : Accounts v s) : s.sem.sleeplist.Nodup := by
  have hsub : s.sem.sleeplist.reverse.Sublist s.slept :=
    (sublist_append_right _ _).trans h.order
  exact nodup_reverse.mp (h.once.sublist hsub)

/-- Somebody sleeps: the value is negative. -/
theorem Accounts.neg (h : Accounts v s) (hw : w ∈ s.sem.sleeplist) : s.sem.val < 0 := by
  have hpos := length_pos_of_mem hw
  have hcounts := h.counts
  unfold CountsSleepers at hcounts
  omega

theorem start_accounts (hv : 0 ≤ v) : Accounts v (start v : State W) where
  counts := countsSleepers_initSem hv
  tokens := by simp [start, initSem]
  onList w := by simp [start, initSem, Stage.sleeps]
  order := by simp [start, initSem]
  once := nodup_nil
  called w hw := by simp [start] at hw

/-- A waiter moves on without touching the list. -/
theorem Accounts.setStage (h : Accounts v s) {g : Stage}
    (hsleeps : g.sleeps = (s.stage w).sleeps) (hg : g ≠ .idle) : Accounts v (s.setStage w g) where
  counts := h.counts
  tokens := h.tokens
  onList u := by
    show u ∈ s.sem.sleeplist ↔ (update s.stage w g u).sleeps
    rcases eq_or_ne u w with rfl | hne
    · rw [update_self, hsleeps]
      exact h.onList u
    · rw [update_of_ne hne]
      exact h.onList u
  order := h.order
  once := h.once
  called u hu := by
    show update s.stage w g u ≠ .idle
    rcases eq_or_ne u w with rfl | hne
    · rwa [update_self]
    · rw [update_of_ne hne]
      exact h.called u hu

/-- The counter moves, the list does not. -/
theorem Accounts.count (h : Accounts v s) {val : Int} {n : Nat}
    (hcounts : s.sem.sleeplist.length = (-val).toNat) (hval : val + n = s.sem.val) :
    Accounts v { s with sem := { s.sem with val := val }, passed := s.passed + n } where
  counts := hcounts
  tokens := by
    have htokens := h.tokens
    show val = v + s.posts - ((s.passed + n : Nat) : Int) - s.sem.sleeplist.length
    omega
  onList := h.onList
  order := h.order
  once := h.once
  called := h.called

/-- A wait goes to sleep. -/
theorem Accounts.sleep (h : Accounts v s) {a : Bool} (hidle : s.stage w = .idle) (hval : s.sem.val ≤ 0) :
    Accounts v { s.setStage w (.asleep a) with
      sem := { val := s.sem.val - 1, sleeplist := w :: s.sem.sleeplist },
      slept := s.slept ++ [w] } where
  counts := by
    have hcounts := h.counts
    unfold CountsSleepers at *
    simp only [length_cons]
    omega
  tokens := by
    have htokens := h.tokens
    show s.sem.val - 1 = v + s.posts - s.passed - ((w :: s.sem.sleeplist).length : Int)
    simp only [length_cons]
    omega
  onList u := by
    show u ∈ w :: s.sem.sleeplist ↔ (update s.stage w (.asleep a) u).sleeps
    rcases eq_or_ne u w with rfl | hne
    · simp [Stage.sleeps]
    · rw [update_of_ne hne, mem_cons, or_iff_right hne]
      exact h.onList u
  order := by
    rw [reverse_cons, ← append_assoc]
    exact h.order.append (List.Sublist.refl [w])
  once := by
    refine nodup_append.mpr ⟨h.once, nodup_singleton w, fun u hu x hx => ?_⟩
    rintro rfl
    obtain rfl := mem_singleton.mp hx
    exact h.called u hu hidle
  called u hu := by
    show update s.stage w (.asleep a) u ≠ .idle
    rcases eq_or_ne u w with rfl | hne
    · simp
    · rw [update_of_ne hne]
      refine h.called u ?_
      simpa [hne] using hu

/-- Posts wake the waits `us`, the oldest ones, in this order. -/
theorem Accounts.wakes (h : Accounts v s) {rest us : List W} {val : Int}
    {n k : Nat} (hlist : s.sem.sleeplist = rest ++ us.reverse) (hcounts : rest.length = (-val).toNat)
    (htokens : val = v + (s.posts + n : Nat) - (s.passed + k : Nat) - rest.length) :
    Accounts v { s with
      sem := { val := val, sleeplist := rest }, stage := markUp s.stage us, posts := s.posts + n,
      passed := s.passed + k, woken := s.woken ++ us } where
  counts := hcounts
  tokens := htokens
  onList u := by
    show u ∈ rest ↔ (if u ∈ us then Stage.woken else s.stage u).sleeps
    have hnodup := h.nodup
    rw [hlist, nodup_append] at hnodup
    by_cases hu : u ∈ us
    · -- a woken wait is not among the rest
      have hnot : u ∉ rest := fun hr => hnodup.2.2 u hr u (mem_reverse.mpr hu) rfl
      simp [hu, hnot, Stage.sleeps]
    · rw [if_neg hu, ← h.onList u, hlist, mem_append, mem_reverse, or_iff_left hu]
  order := by
    have horder := h.order
    rwa [hlist, reverse_append, reverse_reverse, ← append_assoc] at horder
  once := h.once
  called u hu := by
    show (if u ∈ us then Stage.woken else s.stage u) ≠ .idle
    split
    · exact Stage.noConfusion
    · exact h.called u hu

/-- An interrupted wait takes itself off the list. -/
theorem Accounts.abandon (h : Accounts v s) (hw : w ∈ s.sem.sleeplist) :
    Accounts v { s.setStage w (.returned false) with
      sem := { val := s.sem.val + 1, sleeplist := s.sem.sleeplist.erase w } } where
  counts := by
    have hcounts := h.counts
    unfold CountsSleepers at *
    simp only [length_erase_of_mem hw]
    omega
  tokens := by
    have htokens := h.tokens
    have hpos := length_pos_of_mem hw
    show s.sem.val + 1 = v + s.posts - s.passed - ((s.sem.sleeplist.erase w).length : Int)
    rw [length_erase_of_mem hw]
    omega
  onList u := by
    show u ∈ s.sem.sleeplist.erase w ↔ (update s.stage w (.returned false) u).sleeps
    rw [h.nodup.mem_erase_iff]
    rcases eq_or_ne u w with rfl | hne
    · simp [Stage.sleeps]
    · rw [update_of_ne hne, and_iff_right hne]
      exact h.onList u
  order := by
    refine List.Sublist.trans ?_ h.order
    exact (List.Sublist.refl s.woken).append (erase_sublist.reverse)
  once := h.once
  called u hu := by
    show update s.stage w (.returned false) u ≠ .idle
    rcases eq_or_ne u w with rfl | hne
    · simp
    · rw [update_of_ne hne]
      exact h.called u hu

/-! ## What one section does -/

theorem step_wait_passes {a : Bool} (hidle : s.stage w = .idle) (hval : 0 < s.sem.val) :
    step s (.wait w a) = some { s.setStage w (.returned true) with
      sem := { s.sem with val := s.sem.val - 1 }, passed := s.passed + 1 } := by
  simp [step, hidle, waitSem_of_pos hval]

theorem step_wait_sleeps {a : Bool} (hidle : s.stage w = .idle) (hval : s.sem.val ≤ 0) :
    step s (.wait w a) = some { s.setStage w (.asleep a) with
      sem := { val := s.sem.val - 1, sleeplist := w :: s.sem.sleeplist },
      slept := s.slept ++ [w] } := by
  simp [step, hidle, waitSem_of_nonpos hval]

theorem step_resume_abandons (hstage : s.stage w = .interrupted) (hval : s.sem.val < 0) :
    step s (.resume w) = some { s.setStage w (.returned false) with
      sem := { val := s.sem.val + 1, sleeplist := s.sem.sleeplist.erase w } } := by
  have hle : s.sem.val + 1 ≤ 0 := by omega
  simp [step, hstage, abandonSem, hle]

theorem step_post_wakes {ws : List W} (hlist : s.sem.sleeplist = ws ++ [w]) (hval : s.sem.val < 0) :
    step s .post = some { s with
      sem := { val := s.sem.val + 1, sleeplist := ws }, stage := markUp s.stage [w],
      posts := s.posts + 1, passed := s.passed + 1, woken := s.woken ++ [w] } := by
  simp [step, postSem_of_neg hval hlist]

theorem step_post_puts (hval : 0 ≤ s.sem.val) :
    step s .post = some { s with
      sem := { s.sem with val := s.sem.val + 1 }, stage := markUp s.stage [],
      posts := s.posts + 1, passed := s.passed + 0, woken := s.woken ++ [] } := by
  simp [step, postSem_of_nonneg hval]

theorem step_postAll (h : CountsSleepers s.sem) :
    step s .postAll = some { s with
      sem := { val := max s.sem.val 0, sleeplist := [] },
      stage := markUp s.stage s.sem.sleeplist.reverse,
      posts := s.posts + (s.sem.sleeplist.length + 1),
      passed := s.passed + (s.sem.sleeplist.length + 1),
      woken := s.woken ++ s.sem.sleeplist.reverse } := by
  have hposts : ((s.sem.sleeplist.length : Int) + 1).toNat = s.sem.sleeplist.length + 1 := by omega
  simp [step, postAllSem_eq h, hposts, Nat.add_assoc]

variable {a : Act W}

/-- Every section keeps the books. -/
theorem step_accounts {s' : State W} (h : Accounts v s) (hstep : step s a = some s') : Accounts v s' := by
  have hcounts := h.counts
  have htokens := h.tokens
  unfold CountsSleepers at hcounts
  cases a with
  | wait w al =>
    have hidle : s.stage w = .idle := by
      by_contra hne
      simp [step, hne] at hstep
    rcases lt_or_ge 0 s.sem.val with hval | hval
    · rw [step_wait_passes hidle hval, some.injEq] at hstep
      subst hstep
      have hset := h.setStage (w := w) (g := .returned true) (by rw [hidle]; rfl) (by simp)
      exact hset.count (n := 1) (by
        show s.sem.sleeplist.length = (-(s.sem.val - 1)).toNat
        omega) (by
        show s.sem.val - 1 + ((1 : Nat) : Int) = s.sem.val
        omega)
    · rw [step_wait_sleeps hidle hval, some.injEq] at hstep
      subst hstep
      exact h.sleep hidle hval
  | alert w =>
    obtain ⟨hstage, rfl⟩ := of_guard hstep
    exact h.setStage (by rw [hstage]; rfl) (by simp)
  | turnBack w =>
    simp only [step] at hstep
    split at hstep
    · rename_i hstage
      cases hstep
      exact h.setStage (by rw [hstage]; rfl) (by simp)
    · cases hstep
  | resume w =>
    cases hstage : s.stage w with
    | woken =>
      simp only [step, hstage, some.injEq] at hstep
      subst hstep
      exact h.setStage (by rw [hstage]; rfl) (by simp)
    | interrupted =>
      have hw : w ∈ s.sem.sleeplist := (h.onList w).mpr (by rw [hstage]; rfl)
      rw [step_resume_abandons hstage (h.neg hw), some.injEq] at hstep
      subst hstep
      exact h.abandon hw
    | idle => simp [step, hstage] at hstep
    | asleep al => simp [step, hstage] at hstep
    | returned ret => simp [step, hstage] at hstep
  | post =>
    rcases eq_nil_or_concat s.sem.sleeplist with hnil | ⟨ws, w, hws⟩
    · rw [hnil, length_nil] at hcounts htokens
      rw [step_post_puts (by omega), some.injEq] at hstep
      subst hstep
      exact h.wakes (show _ = _ ++ ([] : List W).reverse by simp) (by rw [hnil, length_nil]; omega)
        (by rw [hnil, length_nil]; push_cast; omega)
    · rw [concat_eq_append] at hws
      rw [hws, length_append, length_singleton] at hcounts htokens
      rw [step_post_wakes hws (by omega), some.injEq] at hstep
      subst hstep
      exact h.wakes (by rw [hws]; rfl) (by omega) (by push_cast at *; omega)
  | get =>
    cases hstep
    by_cases hval : 0 < s.sem.val
    · have hget : getSem s.sem = (true, { s.sem with val := s.sem.val - 1 }) := if_pos hval
      rw [hget]
      exact h.count (by omega) (by simp)
    · have hget : getSem s.sem = (false, s.sem) := if_neg hval
      rw [hget]
      exact h.count hcounts (by simp)
  | getAll =>
    cases hstep
    by_cases hval : 0 < s.sem.val
    · have hget : getAllSem s.sem = (s.sem.val, { s.sem with val := 0 }) := if_pos hval
      rw [hget]
      exact h.count (by omega) (by simp only; omega)
    · have hget : getAllSem s.sem = (0, s.sem) := if_neg hval
      rw [hget]
      exact h.count hcounts (by simp)
  | postAll =>
    rw [step_postAll h.counts, some.injEq] at hstep
    subst hstep
    exact h.wakes (by simp) (by rw [length_nil]; omega)
      (by rw [length_nil]; push_cast; omega)

/-! ## A wait that is interrupted leaves no trace -/

/-- `t` is `s` as if the wait `w`, which sleeps in `s`, had never been called. -/
structure Without (w : W) (s t : State W) : Prop where
  val : t.sem.val = s.sem.val + 1
  list : t.sem.sleeplist = s.sem.sleeplist.erase w
  others : ∀ u, u ≠ w → t.stage u = s.stage u
  posts : t.posts = s.posts
  passed : t.passed = s.passed
  woken : t.woken = s.woken

/-- The moves that `w` itself makes. -/
def Act.mover : Act W → Option W
  | .wait w _ | .alert w | .turnBack w | .resume w => some w
  | _ => none

/-- Another wait changes its stage in both runs. -/
theorem Without.setStage {u : W} {t : State W} (h : Without w s t) (hne : u ≠ w) (g : Stage) :
    Without w (s.setStage u g) (t.setStage u g) where
  val := h.val
  list := h.list
  others x hx := by
    show update t.stage u g x = update s.stage u g x
    rcases eq_or_ne x u with rfl | hxu
    · simp
    · rw [update_of_ne hxu, update_of_ne hxu, h.others x hx]
  posts := h.posts
  passed := h.passed
  woken := h.woken

section

variable {s' t : State W} (h : Accounts v s) (hwo : Without w s t) (hw : w ∈ s.sem.sleeplist)
  (hstep : step s a = some s')
include h hwo hw hstep

/-- As long as `w` stays on the list, everybody else makes the same moves without it. -/
theorem step_without (hmover : a.mover ≠ some w) (hw' : w ∈ s'.sem.sleeplist) :
    ∃ t', step t a = some t' ∧ Without w s' t' := by
  have hneg := h.neg hw
  have hcounts := h.counts
  unfold CountsSleepers at hcounts
  have hval := hwo.val
  cases a with
  | wait u al =>
    have hne : u ≠ w := fun he => hmover (by rw [he]; rfl)
    have hidle : s.stage u = .idle := by
      by_contra hn
      simp [step, hn] at hstep
    rw [step_wait_sleeps hidle (by omega), some.injEq] at hstep
    subst hstep
    refine ⟨_, step_wait_sleeps ((hwo.others u hne).trans hidle) (by omega), ?_⟩
    have hset := hwo.setStage hne (.asleep al)
    refine ⟨?_, ?_, hset.others, hwo.posts, hwo.passed, hwo.woken⟩
    · show t.sem.val - 1 = s.sem.val - 1 + 1
      omega
    · show u :: t.sem.sleeplist = (u :: s.sem.sleeplist).erase w
      rw [erase_cons_tail (by simpa using hne), hwo.list]
  | alert u =>
    have hne : u ≠ w := fun he => hmover (by rw [he]; rfl)
    simp only [step, hwo.others u hne] at hstep ⊢
    obtain ⟨hstage, rfl⟩ := of_guard hstep
    exact ⟨_, if_pos hstage, hwo.setStage hne _⟩
  | turnBack u =>
    have hne : u ≠ w := fun he => hmover (by rw [he]; rfl)
    simp only [step, hwo.others u hne] at hstep ⊢
    split at hstep
    · cases hstep
      exact ⟨_, rfl, hwo.setStage hne _⟩
    · cases hstep
  | resume u =>
    have hne : u ≠ w := fun he => hmover (by rw [he]; rfl)
    have hother := hwo.others u hne
    cases hstage : s.stage u with
    | woken =>
      simp only [step, hother, hstage, some.injEq] at hstep ⊢
      subst hstep
      exact ⟨_, rfl, hwo.setStage hne _⟩
    | interrupted =>
      -- `u` and `w` are both on the list, so there is room for both in the counter
      have hu : u ∈ s.sem.sleeplist := (h.onList u).mpr (by rw [hstage]; rfl)
      have hu' : u ∈ s.sem.sleeplist.erase w := (mem_erase_of_ne hne).mpr hu
      have htwo := length_pos_of_mem hu'
      rw [length_erase_of_mem hw] at htwo
      rw [step_resume_abandons hstage hneg, some.injEq] at hstep
      subst hstep
      refine ⟨_, step_resume_abandons (hother.trans hstage) (by omega), ?_⟩
      have hset := hwo.setStage hne (.returned false)
      refine ⟨?_, ?_, hset.others, hwo.posts, hwo.passed, hwo.woken⟩
      · show t.sem.val + 1 = s.sem.val + 1 + 1
        omega
      · show t.sem.sleeplist.erase u = (s.sem.sleeplist.erase u).erase w
        rw [hwo.list, erase_comm]
    | idle => simp [step, hstage] at hstep
    | asleep al => simp [step, hstage] at hstep
    | returned ret => simp [step, hstage] at hstep
  | post =>
    rcases eq_nil_or_concat s.sem.sleeplist with hnil | ⟨ws, u, hws⟩
    · rw [hnil] at hw
      cases hw
    · -- the woken wait is not `w`, which is still on the list: it is on the other list too
      rw [concat_eq_append] at hws
      rw [step_post_wakes hws hneg, some.injEq] at hstep
      subst hstep
      replace hw' : w ∈ ws := hw'
      have hlist : t.sem.sleeplist = ws.erase w ++ [u] := by
        rw [hwo.list, hws, erase_append_left _ hw']
      have hlong := length_pos_of_mem hw'
      rw [hws, length_append, length_singleton] at hcounts
      refine ⟨_, step_post_wakes hlist (by omega), ?_, rfl, ?_, ?_, ?_, ?_⟩
      · show t.sem.val + 1 = s.sem.val + 1 + 1
        omega
      · intro x hx
        simp only [markUp, hwo.others x hx]
      · simp only [hwo.posts]
      · simp only [hwo.passed]
      · simp only [hwo.woken]
  | get =>
    have hget : getSem s.sem = (false, s.sem) := if_neg (by omega)
    have hget' : getSem t.sem = (false, t.sem) := if_neg (by omega)
    simp only [step, hget, hget', some.injEq] at hstep ⊢
    subst hstep
    exact ⟨_, rfl, hwo.val, hwo.list, hwo.others, hwo.posts, hwo.passed, hwo.woken⟩
  | getAll =>
    have hget : getAllSem s.sem = (0, s.sem) := if_neg (by omega)
    have hget' : getAllSem t.sem = (0, t.sem) := if_neg (by omega)
    simp only [step, hget, hget', some.injEq] at hstep ⊢
    subst hstep
    exact ⟨_, rfl, hwo.val, hwo.list, hwo.others, hwo.posts, hwo.passed, hwo.woken⟩
  | postAll =>
    rw [step_postAll h.counts, some.injEq] at hstep
    subst hstep
    cases hw'

/-- A section of `w` itself that leaves it on the list only makes `sched` return. -/
theorem step_own (hmover : a.mover = some w) (hw' : w ∈ s'.sem.sleeplist) : Without w s' t := by
  have hsleeps : (s.stage w).sleeps := (h.onList w).mp hw
  have hset : ∀ g, Without w (s.setStage w g) t := fun g =>
    ⟨hwo.val, hwo.list, fun u hu => (hwo.others u hu).trans (State.setStage_of_ne hu g).symm,
      hwo.posts, hwo.passed, hwo.woken⟩
  cases a with
  | wait u al =>
    obtain rfl : u = w := some.inj hmover
    have hidle : s.stage u = .idle := by
      by_contra hn
      simp [step, hn] at hstep
    rw [hidle] at hsleeps
    cases hsleeps
  | alert u =>
    obtain rfl : u = w := some.inj hmover
    obtain ⟨-, rfl⟩ := of_guard hstep
    exact hset _
  | turnBack u =>
    obtain rfl : u = w := some.inj hmover
    simp only [step] at hstep
    split at hstep
    · cases hstep
      exact hset _
    · cases hstep
  | resume u =>
    obtain rfl : u = w := some.inj hmover
    cases hstage : s.stage u with
    | interrupted =>
      rw [step_resume_abandons hstage (h.neg hw), some.injEq] at hstep
      subst hstep
      exact absurd hw' (h.nodup.not_mem_erase)
    | idle => rw [hstage] at hsleeps; cases hsleeps
    | woken => rw [hstage] at hsleeps; cases hsleeps
    | asleep al => simp [step, hstage] at hstep
    | returned ret => rw [hstage] at hsleeps; cases hsleeps
  | post => cases hmover
  | get => cases hmover
  | getAll => cases hmover
  | postAll => cases hmover

end

/-- A wait never goes back: one that has left the list stays off it. -/
theorem step_rank {s' : State W} (hstep : step s a = some s') (w : W) :
    (s.stage w).rank ≤ (s'.stage w).rank := by
  have hmark : ∀ us, (s.stage w).rank ≤ (markUp s.stage us w).rank := by
    intro us
    unfold markUp
    split
    · cases s.stage w <;> simp [Stage.rank]
    · exact le_rfl
  have hset : ∀ u g, (s.stage u).rank ≤ g.rank →
      (s.stage w).rank ≤ ((s.setStage u g).stage w).rank := by
    intro u g hg
    rcases eq_or_ne w u with rfl | hne
    · simpa [State.setStage] using hg
    · rw [State.setStage_of_ne hne]
  cases a with
  | wait u al =>
    obtain ⟨hidle, hstep⟩ := ite_none_right_eq_some.mp hstep
    split at hstep <;> cases hstep
    · exact hset u _ (by rw [hidle]; exact Nat.zero_le _)
    · exact hset u _ (by rw [hidle]; exact Nat.zero_le _)
  | alert u =>
    obtain ⟨hstage, rfl⟩ := of_guard hstep
    exact hset u _ (by rw [hstage]; exact le_rfl)
  | turnBack u =>
    simp only [step] at hstep
    split at hstep
    · rename_i hstage
      cases hstep
      exact hset u _ (by rw [hstage]; exact le_rfl)
    · cases hstep
  | resume u =>
    simp only [step] at hstep
    split at hstep
    · rename_i hstage
      cases hstep
      exact hset u _ (by rw [hstage]; exact le_rfl)
    · rename_i hstage
      obtain ⟨sem, -, rfl⟩ := map_eq_some_iff.mp hstep
      exact hset u _ (by rw [hstage]; exact Nat.le_succ 1)
    · cases hstep
  | post =>
    obtain ⟨r, -, rfl⟩ := map_eq_some_iff.mp hstep
    exact hmark _
  | get =>
    cases hstep
    exact le_rfl
  | getAll =>
    cases hstep
    exact le_rfl
  | postAll =>
    obtain ⟨r, -, rfl⟩ := map_eq_some_iff.mp hstep
    exact hmark _

theorem run_rank {t : State W} {as : List (Act W)} (hrun : run step s as = some t) (w : W) :
    (s.stage w).rank ≤ (t.stage w).rank :=
  run_invariant_all (I := fun x => (s.stage w).rank ≤ (x.stage w).rank)
    (fun _ _ _ h hstep => h.trans (step_rank hstep w)) as s t le_rfl hrun

/-- The run without the wait: as long as `w` sleeps, the moves of the others lead to the state
    without it. -/
theorem run_without {bs : List (Act W)} {t s₂ : State W} (h : Accounts v s)
    (hwo : Without w s t) (hw : w ∈ s.sem.sleeplist) (hrun : run step s bs = some s₂) (hw2 : (s₂.stage w).sleeps) :
    ∃ t₂, run step t (bs.filter fun a => a.mover ≠ some w) = some t₂ ∧ Without w s₂ t₂ := by
  induction bs generalizing s t with
  | nil =>
    obtain rfl : s = s₂ := by simpa using hrun
    exact ⟨t, rfl, hwo⟩
  | cons a bs ih =>
    obtain ⟨s', hstep, hrest⟩ := run_cons_eq_some.mp hrun
    have h' := step_accounts h hstep
    -- `w` sleeps before and after, so it sleeps here
    have hw' : w ∈ s'.sem.sleeplist := by
      have hbefore := step_rank hstep w
      have hafter := run_rank hrest w
      rw [(Stage.sleeps_iff _).mp ((h.onList w).mp hw)] at hbefore
      rw [(Stage.sleeps_iff _).mp hw2] at hafter
      exact (h'.onList w).mpr ((Stage.sleeps_iff _).mpr (by omega))
    by_cases hmover : a.mover = some w
    · rw [filter_cons_of_neg (by simpa using hmover)]
      exact ih h' (step_own h hwo hw hstep hmover hw') hw' hrest
    · obtain ⟨t', ht', hwo'⟩ := step_without h hwo hw hstep hmover hw'
      obtain ⟨t₂, ht2, hfin⟩ := ih h' hwo' hw' hrest
      rw [filter_cons_of_pos (by simpa using hmover)]
      exact ⟨t₂, run_cons_eq_some.mpr ⟨t', ht', ht2⟩, hfin⟩

/-! ## Every reachable state -/

/-- What `s` shows of the semaphore and of the waits other than `w`. -/
structure SameFor (w : W) (s t : State W) : Prop where
  sem : t.sem = s.sem
  others : ∀ u, u ≠ w → t.stage u = s.stage u
  posts : t.posts = s.posts
  passed : t.passed = s.passed
  woken : t.woken = s.woken

/-- A wait that is interrupted before a post reaches it: `_wait_sem` returns `false`, and the run in
    which it was never called ends in the same semaphore. -/
theorem interrupted_wait {s₂ : State W} {al : Bool} {bs : List (Act W)}
    (h : Accounts v s) (hrun : run step s (.wait w al :: bs) = some s₂) (hstage : s₂.stage w = .interrupted) :
    ∃ s₃ t, step s₂ (.resume w) = some s₃ ∧ s₃.stage w = .returned false ∧
      run step s (bs.filter fun a => a.mover ≠ some w) = some t ∧ SameFor w s₃ t := by
  obtain ⟨s₁, hstep, hrest⟩ := run_cons_eq_some.mp hrun
  have h1 := step_accounts h hstep
  have h2 := run_invariant_all (fun _ _ _ h hstep => step_accounts h hstep) bs s₁ s₂ h1 hrest
  have hsleeps : (s₂.stage w).sleeps := by rw [hstage]; rfl
  have hmem2 : w ∈ s₂.sem.sleeplist := (h2.onList w).mpr hsleeps
  have hidle : s.stage w = .idle := by
    by_contra hn
    simp [step, hn] at hstep
  -- the call did not take a token: then it would have returned
  have hval : s.sem.val ≤ 0 := by
    by_contra hpos
    rw [step_wait_passes hidle (by omega), some.injEq] at hstep
    have hrank := run_rank hrest w
    rw [← hstep, hstage] at hrank
    simp [State.setStage, Stage.rank] at hrank
  rw [step_wait_sleeps hidle hval, some.injEq] at hstep
  have hwo : Without w s₁ s := by
    subst hstep
    refine ⟨?_, ?_, fun u hu => (State.setStage_of_ne hu _).symm, rfl, rfl, rfl⟩
    · show s.sem.val = s.sem.val - 1 + 1
      omega
    · show s.sem.sleeplist = (w :: s.sem.sleeplist).erase w
      rw [erase_cons_head]
  have hmem1 : w ∈ s₁.sem.sleeplist := by
    subst hstep
    exact mem_cons_self
  obtain ⟨t, ht, hwo2⟩ := run_without h1 hwo hmem1 hrest hsleeps
  refine ⟨_, t, step_resume_abandons hstage (h2.neg hmem2), by simp [State.setStage], ht, ?_, ?_,
    hwo2.posts, hwo2.passed, hwo2.woken⟩
  · show t.sem = { val := s₂.sem.val + 1, sleeplist := s₂.sem.sleeplist.erase w }
    rw [← hwo2.val, ← hwo2.list]
  · intro u hu
    exact (hwo2.others u hu).trans (State.setStage_of_ne hu _).symm

end Armv8Os.SemAccounts
