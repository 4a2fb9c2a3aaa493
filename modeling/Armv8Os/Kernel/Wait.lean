/-
  `common/sem.c` over `kernel/sched.c`: processes that wait on semaphores, post them, kill each other
  and are scheduled on any number of CPUs, in any interleaving.

  1. **Model** — a step is one section under a semaphore's lock or under `schlock`.  The source gives
     the locks away in the middle of two functions, and these are the places where a step ends:
       - `_wait_sem` takes `schlock`, releases the semaphore and only then calls `sched`
         (`Pc.sched`), so a post and a kill can land in between;
       - `_post_sem` sets `wait->up` under the semaphore's lock and then needs `schlock` to activate
         the waiter (`Pc.post`), and it keeps the semaphore locked until it has;
       - `kill` sets `killed` first and alerts afterwards (`Pc.kill`).

  2. **The slip** — `simple_sched` turns a killed process back BEFORE it looks at the state it is
     asked for, so an unalertable wait of a killed process does not sleep at all and returns
     `false` (`killed_waiter_returns_false`).

  3. **The result** — `unalertable_wait_returns_true`: in every run in which no killed process gets
     to `simple_sched` from an unalertable wait, such a wait returns only after a post has set its
     `wait->up`, and it returns `true`; a kill that lands during the sleep does no harm.  What
     carries it is `WaitInv`: whoever sleeps deeply with `up` set has a poster that still holds the
     semaphore and will activate it.
-/
import Armv8Os.Lib.Transition
import Armv8Os.Common.Sem
import Armv8Os.Kernel.Sched

set_option linter.unusedSectionVars false

namespace Armv8Os.Kernel

open Sem Transition List Option
open Function (update update_of_ne update_self)

variable {C S P : Type} [DecidableEq C] [DecidableEq S] [DecidableEq P]

/-! ## The model -/

/-- Where a process stands. -/
inductive Pc (S P : Type) where
  | fresh                                -- created, not started
  | run                                  -- outside the functions below
  | sched (x : S) (alertable : Bool)     -- in `_wait_sem`, at `sched` with `schlock` held
  | asleep (x : S) (alertable : Bool)    -- switched out there
  | back (x : S) (alertable : Bool)      -- `sched` has returned
  | taken (x : S) (alertable : Bool)     -- `--sem->val >= 0`: `_wait_sem` returns `true` at once
  | returned (x : S) (alertable ret : Bool)  -- `_wait_sem` returns `wait->up`
  | yield                                -- at `sched(RUNNABLE)` with `schlock` held
  | yielded                              -- switched out there
  | exit                                 -- at `sched(ZOMBIE)` with `schlock` held
  | dead
  | post (x : S) (p : P)                 -- in `_post_sem`, `up` of `p` set, before `activate_proc(p)`
  | kill (p : P)                         -- in `kill`, `killed` of `p` set, before `alert_proc(p)`
  deriving Repr, DecidableEq

/-- The scheduler, the semaphores with their locks, and the processes.  `up p` is `wait->up` of the
    `WaitData` of `p`'s current wait. -/
structure State (C S P : Type) where
  sched : Sched C P
  schlock : Option P
  sem : S → Semaphore P
  semLock : S → Option P
  up : P → Bool
  pc : P → Pc S P

/-- One move of the process that runs on CPU `c`. -/
inductive Act (C S P : Type) where
  | start (c : C) (q : P)                      -- `fork` / `start_proc`
  | wait (c : C) (x : S) (alertable : Bool)    -- `_lock_sem`, `_wait_sem` up to `sched`
  | sched (c : C) (choice : Option P)          -- `simple_sched`
  | wake (c : C)                               -- `_wait_sem` after `sched`
  | ret (c : C)                                -- `_wait_sem` returns to its caller
  | post (c : C) (x : S)                       -- `_lock_sem`, `_post_sem` up to `activate_proc`
  | activate (c : C)                           -- `activate_proc(wait->proc)`, `_unlock_sem`
  | kill (c : C) (q : P)                       -- `target_proc -> killed = true`
  | alert (c : C)                              -- `alert_proc(target_proc)`
  | yield (c : C)                              -- `_acquire_sched_lock` of `yield`
  | exit (c : C)                               -- `_acquire_sched_lock` of `exit`
  deriving Repr, DecidableEq

/-- The state a process at `sched` asks for. -/
def Pc.newState : Pc S P → Option ProcState
  | .sched _ alertable => some (if alertable then .sleeping else .deepsleeping)
  | .yield => some .runnable
  | .exit => some .zombie
  | _ => none

/-- Where a process stands once it has been switched out of `sched`. -/
def Pc.suspend : Pc S P → Pc S P
  | .sched x alertable => .asleep x alertable
  | .yield => .yielded
  | .exit => .dead
  | pc => pc

/-- Where a process goes on when it is switched in (a new one enters through `proc_entry`). -/
def Pc.resume : Pc S P → Pc S P
  | .asleep x alertable => .back x alertable
  | .yielded => .run
  | .fresh => .run
  | pc => pc

/-- The process on CPU `c`. -/
def State.this (s : State C S P) (c : C) : P := s.sched.thisproc c

/-- `_wait_sem(sem, alertable)` up to the call of `sched`. -/
def waitSection (s : State C S P) (p : P) (x : S) (alertable : Bool) : Option (State C S P) :=
  match waitSem (s.sem x) p with
  | (true, sem) =>
    some { s with sem := update s.sem x sem, pc := update s.pc p (.taken x alertable) }
  | (false, sem) =>
    if s.schlock = none then
      some { s with
        schlock := some p
        sem := update s.sem x sem
        up := update s.up p false
        pc := update s.pc p (.sched x alertable) }
    else none

/-- `_sched(new_state)`, entered with `schlock` held; whoever runs on releases it. -/
def schedSection (idle : C → P) (s : State C S P) (c : C) (newState : ProcState)
    (choice : Option P) : Option (State C S P) :=
  match simpleSched idle s.sched c newState choice with
  | none => none
  | some (none, k) =>
    some { s with
      sched := k
      schlock := none
      pc := update s.pc (s.this c) (s.pc (s.this c)).suspend.resume }
  | some (some q, k) =>
    let pc₁ := update s.pc (s.this c) (s.pc (s.this c)).suspend
    some { s with sched := k, schlock := none, pc := update pc₁ q (pc₁ q).resume }

/-- The end of `_wait_sem`: without `up` the waiter takes itself off the list. -/
def wakeSection (s : State C S P) (p : P) (x : S) (alertable : Bool) : Option (State C S P) :=
  if s.up p then some { s with pc := update s.pc p (.returned x alertable true) }
  else if (s.sem x).val + 1 ≤ 0 then
    some { s with
      sem := update s.sem x
        { val := (s.sem x).val + 1, sleeplist := (s.sem x).sleeplist.erase p }
      pc := update s.pc p (.returned x alertable false) }
  else none

/-- `_post_sem(sem)` up to `activate_proc`: the semaphore stays locked while a waiter is activated. -/
def postSection (s : State C S P) (q : P) (x : S) : Option (State C S P) :=
  match postSem (s.sem x) with
  | none => none
  | some (none, sem) => some { s with sem := update s.sem x sem }
  | some (some p, sem) =>
    some { s with
      sem := update s.sem x sem
      semLock := update s.semLock x (some q)
      up := update s.up p true
      pc := update s.pc q (.post x p) }

/-- **One move.**  `none` when the process does not stand there, when a lock it needs is taken, or
    when an assertion fails; the last arm of `ret` is `ASSERT(_wait_sem(sem, false))`. -/
def step (idle : C → P) (s : State C S P) : Act C S P → Option (State C S P)
  | .start c q =>
    if s.pc (s.this c) = .run ∧ s.pc q = .fresh ∧ s.schlock = none then
      some { s with
        sched := { (activateProc s.sched q false).2 with
          killed := update s.sched.killed q (s.sched.killed (s.this c)) } }
    else none
  | .wait c x alertable =>
    if s.pc (s.this c) = .run ∧ s.semLock x = none then waitSection s (s.this c) x alertable else none
  | .sched c choice =>
    if s.schlock = some (s.this c) then
      match (s.pc (s.this c)).newState with
      | none => none
      | some newState => schedSection idle s c newState choice
    else none
  | .wake c =>
    match s.pc (s.this c) with
    | .back x alertable => if s.semLock x = none then wakeSection s (s.this c) x alertable else none
    | _ => none
  | .ret c =>
    match s.pc (s.this c) with
    | .taken _ _ | .returned _ _ true | .returned _ true false =>
      some { s with pc := update s.pc (s.this c) .run }
    | _ => none
  | .post c x =>
    if s.pc (s.this c) = .run ∧ s.semLock x = none then postSection s (s.this c) x else none
  | .activate c =>
    match s.pc (s.this c) with
    | .post x p =>
      if s.schlock = none then
        some { s with
          sched := (activateProc s.sched p false).2
          semLock := update s.semLock x none
          pc := update s.pc (s.this c) .run }
      else none
    | _ => none
  | .kill c q =>
    if s.pc (s.this c) = .run ∧ s.sched.state q ≠ .unused then
      some { s with
        sched := { s.sched with killed := update s.sched.killed q true }
        pc := update s.pc (s.this c) (.kill q) }
    else none
  | .alert c =>
    match s.pc (s.this c) with
    | .kill q =>
      if s.schlock = none then
        some { s with
          sched := (activateProc s.sched q true).2
          pc := update s.pc (s.this c) .run }
      else none
    | _ => none
  | .yield c =>
    if s.pc (s.this c) = .run ∧ s.schlock = none then
      some { s with schlock := some (s.this c), pc := update s.pc (s.this c) .yield }
    else none
  | .exit c =>
    if s.pc (s.this c) = .run ∧ s.schlock = none then
      some { s with schlock := some (s.this c), pc := update s.pc (s.this c) .exit }
    else none

/-- After `define_init(sched)`: every CPU runs its idle process, nobody else has been started, and
    `val x` is what `init_sem` gave semaphore `x`. -/
def boot (idle : C → P) (isIdle : P → Bool) (val : S → Int) : State C S P :=
  { sched :=
      { state := fun p => if isIdle p then .running else .unused
        killed := fun _ => false
        rq := []
        thisproc := idle }
    schlock := none
    sem := fun x => initSem (val x)
    semLock := fun _ => none
    up := fun _ => false
    pc := fun p => if isIdle p then .run else .fresh }

/-! ## What a move can do -/

/-- **Everything a move can do.**  The invariant is proved by cases on this relation. -/
inductive Moves (s : State C S P) : Act C S P → State C S P → Prop where
  | start {c q} (hq : s.pc q = .fresh) :
      Moves s (.start c q) { s with
        sched := { (activateProc s.sched q false).2 with
          killed := update s.sched.killed q (s.sched.killed (s.this c)) } }
  | take {c x alertable sem} (hp : s.pc (s.this c) = .run)
      (hlist : sem.sleeplist = (s.sem x).sleeplist) :
      Moves s (.wait c x alertable) { s with
        sem := update s.sem x sem
        pc := update s.pc (s.this c) (.taken x alertable) }
  | sleep {c x alertable v} (hp : s.pc (s.this c) = .run) (hfree : s.semLock x = none)
      (hl : s.schlock = none) :
      Moves s (.wait c x alertable) { s with
        schlock := some (s.this c)
        sem := update s.sem x { val := v, sleeplist := s.this c :: (s.sem x).sleeplist }
        up := update s.up (s.this c) false
        pc := update s.pc (s.this c) (.sched x alertable) }
  | turnBack {c choice newState} (hp : (s.pc (s.this c)).newState = some newState)
      (hl : s.schlock = some (s.this c)) (hk : s.sched.killed (s.this c) = true) :
      Moves s (.sched c choice) { s with
        schlock := none
        pc := update s.pc (s.this c) (s.pc (s.this c)).suspend.resume }
  | switch {c choice newState q k} (hp : (s.pc (s.this c)).newState = some newState)
      (hl : s.schlock = some (s.this c))
      (hq : update s.sched.state (s.this c) newState q = .runnable)
      (hk : k.state = update (update s.sched.state (s.this c) newState) q .running) :
      Moves s (.sched c choice) { s with
        sched := k
        schlock := none
        pc := update (update s.pc (s.this c) (s.pc (s.this c)).suspend) q
          (update s.pc (s.this c) (s.pc (s.this c)).suspend q).resume }
  | wakeUp {c x alertable} (hp : s.pc (s.this c) = .back x alertable) (hfree : s.semLock x = none)
      (hup : s.up (s.this c) = true) :
      Moves s (.wake c) { s with pc := update s.pc (s.this c) (.returned x alertable true) }
  | wakeAlone {c x alertable v} (hp : s.pc (s.this c) = .back x alertable)
      (hfree : s.semLock x = none) (hup : s.up (s.this c) = false) :
      Moves s (.wake c) { s with
        sem := update s.sem x { val := v, sleeplist := (s.sem x).sleeplist.erase (s.this c) }
        pc := update s.pc (s.this c) (.returned x alertable false) }
  | ret {c x alertable}
      (hp : s.pc (s.this c) = .taken x alertable ∨ ∃ r, s.pc (s.this c) = .returned x alertable r) :
      Moves s (.ret c) { s with pc := update s.pc (s.this c) .run }
  | postToken {c x sem} (hlist : sem.sleeplist = (s.sem x).sleeplist) :
      Moves s (.post c x) { s with sem := update s.sem x sem }
  | postWake {c x p v} (hp : s.pc (s.this c) = .run) (hfree : s.semLock x = none)
      (hlast : (s.sem x).sleeplist.getLast? = some p) :
      Moves s (.post c x) { s with
        sem := update s.sem x { val := v, sleeplist := (s.sem x).sleeplist.dropLast }
        semLock := update s.semLock x (some (s.this c))
        up := update s.up p true
        pc := update s.pc (s.this c) (.post x p) }
  | activate {c x p} (hp : s.pc (s.this c) = .post x p) (hl : s.schlock = none) :
      Moves s (.activate c) { s with
        sched := (activateProc s.sched p false).2
        semLock := update s.semLock x none
        pc := update s.pc (s.this c) .run }
  | kill {c q} (hp : s.pc (s.this c) = .run) :
      Moves s (.kill c q) { s with
        sched := { s.sched with killed := update s.sched.killed q true }
        pc := update s.pc (s.this c) (.kill q) }
  | alert {c q} (hp : s.pc (s.this c) = .kill q) :
      Moves s (.alert c) { s with
        sched := (activateProc s.sched q true).2
        pc := update s.pc (s.this c) .run }
  | yield {c} (hp : s.pc (s.this c) = .run) (hl : s.schlock = none) :
      Moves s (.yield c)
        { s with schlock := some (s.this c), pc := update s.pc (s.this c) .yield }
  | exit {c} (hp : s.pc (s.this c) = .run) (hl : s.schlock = none) :
      Moves s (.exit c)
        { s with schlock := some (s.this c), pc := update s.pc (s.this c) .exit }

variable {x : S} {alertable : Bool}

/-- The section of `_wait_sem` before `sched`. -/
theorem waitSection_moves {s s' : State C S P} {c : C} (hp : s.pc (s.this c) = .run) (hfree : s.semLock x = none)
    (h : waitSection s (s.this c) x alertable = some s') : Moves s (.wait c x alertable) s' := by
  unfold waitSection waitSem at h
  split at h
  · rename_i sem hw
    split at hw
    · cases hw; cases h
      exact .take hp rfl
    · cases hw
  · rename_i sem hw
    split at hw
    · cases hw
    · obtain ⟨hl, h⟩ := ite_none_right_eq_some.mp h
      cases hw; cases h
      exact .sleep hp hfree hl

variable {newState : ProcState}

/-- `simple_sched`. -/
theorem schedSection_moves {idle : C → P} {s s' : State C S P} {c : C}
    {choice : Option P} (hp : (s.pc (s.this c)).newState = some newState)
    (hl : s.schlock = some (s.this c)) (h : schedSection idle s c newState choice = some s') :
    Moves s (.sched c choice) s' := by
  unfold schedSection at h
  split at h
  · cases h
  · rename_i k hsched
    obtain ⟨hk, _, rfl⟩ := simpleSched_back hsched
    cases h
    exact .turnBack hp hl hk
  · rename_i q k hsched
    obtain ⟨hq, hk⟩ := simpleSched_switch hsched
    cases h
    exact .switch hp hl hq hk

/-- `_post_sem` up to `activate_proc`. -/
theorem postSection_moves {s s' : State C S P} {c : C} (hp : s.pc (s.this c) = .run)
    (hfree : s.semLock x = none) (h : postSection s (s.this c) x = some s') :
    Moves s (.post c x) s' := by
  unfold postSection postSem at h
  split at h
  · cases h
  · rename_i sem hpost
    split at hpost
    · split at hpost <;> cases hpost
    · cases hpost; cases h
      exact .postToken rfl
  · rename_i p sem hpost
    split at hpost
    · split at hpost
      · cases hpost
      · rename_i w hlast
        cases hpost; cases h
        exact .postWake hp hfree hlast
    · cases hpost

/-- **Inversion of `step`.** -/
theorem step_moves {idle : C → P} {s s' : State C S P} {a : Act C S P}
    (h : step idle s a = some s') : Moves s a s' := by
  cases a with
  | start c q =>
    obtain ⟨⟨_, hq, _⟩, rfl⟩ := of_guard h
    exact .start hq
  | wait c x alertable =>
    obtain ⟨⟨hp, hfree⟩, h⟩ := ite_none_right_eq_some.mp h
    exact waitSection_moves hp hfree h
  | sched c choice =>
    obtain ⟨hl, h⟩ := ite_none_right_eq_some.mp h
    split at h
    · cases h
    · rename_i newState hp
      exact schedSection_moves hp hl h
  | wake c =>
    simp only [step] at h
    split at h
    · rename_i x alertable hp
      obtain ⟨hfree, h⟩ := ite_none_right_eq_some.mp h
      unfold wakeSection at h
      split at h
      · rename_i hup
        cases h
        exact .wakeUp hp hfree hup
      · rename_i hup
        obtain ⟨_, rfl⟩ := of_guard h
        exact .wakeAlone hp hfree (by simpa using hup)
    · cases h
  | ret c =>
    simp only [step] at h
    split at h
    · rename_i x alertable hp
      cases h
      exact .ret (.inl hp)
    · rename_i x alertable hp
      cases h
      exact .ret (.inr ⟨_, hp⟩)
    · rename_i x hp
      cases h
      exact .ret (.inr ⟨_, hp⟩)
    · cases h
  | post c x =>
    obtain ⟨⟨hp, hfree⟩, h⟩ := ite_none_right_eq_some.mp h
    exact postSection_moves hp hfree h
  | activate c =>
    simp only [step] at h
    split at h
    · rename_i x p hp
      obtain ⟨hl, rfl⟩ := of_guard h
      exact .activate hp hl
    · cases h
  | kill c q =>
    obtain ⟨⟨hp, _⟩, rfl⟩ := of_guard h
    exact .kill hp
  | alert c =>
    simp only [step] at h
    split at h
    · rename_i q hp
      obtain ⟨_, rfl⟩ := of_guard h
      exact .alert hp
    · cases h
  | yield c =>
    obtain ⟨⟨hp, hl⟩, rfl⟩ := of_guard h
    exact .yield hp hl
  | exit c =>
    obtain ⟨⟨hp, hl⟩, rfl⟩ := of_guard h
    exact .exit hp hl

/-! ## Deep sleepers are only woken by posts -/

/-- On the sleep list of `x`, or taken off it and not returned yet. -/
def Pc.waitsOn (x : S) : Pc S P → Prop
  | .sched y _ | .asleep y _ | .back y _ => y = x
  | _ => False

/-- Somebody has set `up` of `p` on `x` and is about to activate it. -/
def Poster (s : State C S P) (x : S) (p : P) : Prop := ∃ q, s.pc q = .post x p

/-- What holds of `p` when it stands at a position of an UNALERTABLE wait. -/
def Owed (s : State C S P) (p : P) : Pc S P → Prop
  | .sched x false => s.up p = true → Poster s x p
  | .asleep x false =>
    (s.sched.state p = .deepsleeping ∧ (s.up p = true → Poster s x p)) ∨
    (s.sched.state p = .runnable ∧ s.up p = true)
  | .back _ false => s.up p = true
  | .returned _ false r => s.up p = true ∧ r = true
  | _ => True

/-- The bookkeeping of the waits. -/
structure WaitInv (s : State C S P) : Prop where
  schlock : ∀ p x alertable, s.pc p = .sched x alertable → s.schlock = some p
  nodup : ∀ x, (s.sem x).sleeplist.Nodup
  listed : ∀ x, ∀ p ∈ (s.sem x).sleeplist, s.up p = false ∧ (s.pc p).waitsOn x
  posting : ∀ q x p, s.pc q = .post x p →
    s.semLock x = some q ∧ s.up p = true ∧ (s.pc p).waitsOn x
  owed : ∀ p, Owed s p (s.pc p)

variable {pc : Pc S P} {p : P}

/-- A position keeps what is owed to it while `up`, the sleeper's state and its posters stay. -/
theorem Owed.frame {s s' : State C S P} (h : Owed s p pc) (hup : s'.up p = s.up p)
    (hstate : ∀ x, pc = .asleep x false → s'.sched.state p = s.sched.state p)
    (hpost : ∀ x, Poster s x p → Poster s' x p) : Owed s' p pc := by
  cases pc with
  | sched x alertable =>
    cases alertable
    · intro hu
      exact hpost x (h (hup ▸ hu))
    · trivial
  | asleep x alertable =>
    cases alertable
    · show (_ ∧ _) ∨ (_ ∧ _)
      rw [hstate x rfl, hup]
      rcases h with ⟨hd, hu⟩ | hr
      · exact .inl ⟨hd, fun hu' => hpost x (hu hu')⟩
      · exact .inr hr
    · trivial
  | back x alertable =>
    cases alertable
    · exact hup.trans h
    · trivial
  | returned x alertable r =>
    cases alertable
    · exact ⟨hup.trans h.1, h.2⟩
    · trivial
  | _ => trivial

section

variable {s s' : State C S P} (h : WaitInv s) (hup : s'.up = s.up)
  (hlist : ∀ x, (s'.sem x).sleeplist = (s.sem x).sleeplist) (hsem : s'.semLock = s.semLock)
include h hup hlist hsem

/-- A move that leaves the lists and `up` alone and takes nobody out of a wait. -/
theorem WaitInv.frame (hwaits : ∀ u x, (s.pc u).waitsOn x → (s'.pc u).waitsOn x)
    (hposts : ∀ q x p, s'.pc q = .post x p ↔ s.pc q = .post x p)
    (hsched : ∀ u x alertable, s'.pc u = .sched x alertable → s'.schlock = some u)
    (howed : ∀ u, Owed s' u (s'.pc u)) : WaitInv s' := by
  constructor
  · exact hsched
  · intro x
    rw [hlist]; exact h.nodup x
  · intro x p hp
    rw [hlist] at hp
    obtain ⟨hu, hw⟩ := h.listed x p hp
    exact ⟨by rw [hup]; exact hu, hwaits p x hw⟩
  · intro q x p hq
    obtain ⟨hlock, hu, hw⟩ := h.posting q x p ((hposts q x p).mp hq)
    exact ⟨by rw [hsem]; exact hlock, by rw [hup]; exact hu, hwaits p x hw⟩
  · exact howed

/-- One process moves on, to a position `pc` that keeps it in its wait if it is in one. -/
theorem WaitInv.goto (hpc : s'.pc = update s.pc p pc) (hwaits : ∀ x, (s.pc p).waitsOn x → pc.waitsOn x)
    (hfrom : ∀ x r, s.pc p ≠ .post x r) (hto : ∀ x r, pc ≠ .post x r)
    (hsched : ∀ x alertable, pc ≠ .sched x alertable) (hl : ∀ u, u ≠ p → s.schlock = some u → s'.schlock = some u)
    (hstate : ∀ u x, u ≠ p → s.pc u = .asleep x false → s'.sched.state u = s.sched.state u)
    (howed : Owed s' p pc) : WaitInv s' := by
  have hposts : ∀ q x r, s'.pc q = .post x r ↔ s.pc q = .post x r := by
    intro q x r
    rw [hpc]
    by_cases hq : q = p
    · subst hq
      rw [update_self]
      exact ⟨fun e => absurd e (hto x r), fun e => absurd e (hfrom x r)⟩
    · rw [update_of_ne hq]
  refine h.frame hup hlist hsem (fun u x => ?_) hposts (fun u x alertable => ?_) (fun u => ?_)
  · rw [hpc]
    by_cases hu : u = p
    · subst hu; rw [update_self]; exact hwaits x
    · rw [update_of_ne hu]; exact id
  · rw [hpc]
    by_cases hu : u = p
    · subst hu
      rw [update_self]
      exact fun e => absurd e (hsched x alertable)
    · rw [update_of_ne hu]
      exact fun e => hl u hu (h.schlock u x alertable e)
  · rw [hpc]
    by_cases hu : u = p
    · subst hu; rw [update_self]; exact howed
    · rw [update_of_ne hu]
      refine (h.owed u).frame (by rw [hup]) (fun x hx => hstate u x hu hx) ?_
      rintro x ⟨q, hq⟩
      exact ⟨q, (hposts q x u).mpr hq⟩

end

/-- Replacing a semaphore by one with the same sleepers changes no sleep list. -/
theorem sleeplist_update {s : State C S P} {sem : Semaphore P} (h : sem.sleeplist = (s.sem x).sleeplist) (y : S) :
    (update s.sem x sem y).sleeplist = (s.sem y).sleeplist := by
  by_cases hy : y = x
  · subst hy; rw [update_self, h]
  · rw [update_of_ne hy]

section

variable {s s' : State C S P} (h : WaitInv s)
include h

/-- A process that goes to sleep: nobody can have posted its new wait yet. -/
theorem waitInv_sleep {v : Int} (hp : s.pc p = .run) (hl : s.schlock = none) (hl' : s'.schlock = some p)
    (hsem : s'.sem = update s.sem x { val := v, sleeplist := p :: (s.sem x).sleeplist })
    (hlock : s'.semLock = s.semLock) (hup : s'.up = update s.up p false)
    (hpc : s'.pc = update s.pc p (.sched x alertable)) (hsched : s'.sched = s.sched) :
    WaitInv s' := by
  have hnot : ∀ y, p ∉ (s.sem y).sleeplist := by
    intro y hy
    have hw := (h.listed y p hy).2
    rw [hp] at hw
    exact hw
  have hpc' : ∀ u, u ≠ p → s'.pc u = s.pc u := fun u hu => by
    rw [hpc, update_of_ne hu]
  have hup' : ∀ u, u ≠ p → s'.up u = s.up u := fun u hu => by
    rw [hup, update_of_ne hu]
  have hposts : ∀ q y r, s'.pc q = .post y r → s.pc q = .post y r := by
    intro q y r hq
    have hqp : q ≠ p := fun e => by subst e; simp [hpc] at hq
    rw [← hpc' q hqp]; exact hq
  constructor
  · intro u y a hu
    by_cases hne : u = p
    · subst hne; exact hl'
    · rw [hpc' u hne] at hu
      have := h.schlock u y a hu
      rw [hl] at this
      cases this
  · intro y
    rw [hsem]
    by_cases hy : y = x
    · subst hy
      rw [update_self]
      exact nodup_cons.mpr ⟨hnot y, h.nodup y⟩
    · rw [update_of_ne hy]; exact h.nodup y
  · intro y u hu
    by_cases hne : u = p
    · subst hne
      have hy : y = x := by
        by_contra hy
        rw [hsem, update_of_ne hy] at hu
        exact hnot y hu
      subst hy
      exact ⟨by rw [hup, update_self], by rw [hpc, update_self]; rfl⟩
    · have hu' : u ∈ (s.sem y).sleeplist := by
        rw [hsem] at hu
        by_cases hy : y = x
        · subst hy
          rw [update_self] at hu
          exact (mem_cons.mp hu).resolve_left hne
        · rwa [update_of_ne hy] at hu
      rw [hup' u hne, hpc' u hne]
      exact h.listed y u hu'
  · intro q y r hq
    obtain ⟨hlk, hu, hw⟩ := h.posting q y r (hposts q y r hq)
    have hrp : r ≠ p := fun e => by subst e; rw [hp] at hw; exact hw
    rw [hlock, hup' r hrp, hpc' r hrp]
    exact ⟨hlk, hu, hw⟩
  · intro u
    by_cases hne : u = p
    · subst hne
      rw [hpc, update_self]
      cases alertable
      · intro hu
        rw [hup, update_self] at hu
        cases hu
      · trivial
    · rw [hpc' u hne]
      refine (h.owed u).frame (hup' u hne) (fun _ _ => by rw [hsched]) ?_
      rintro y ⟨q, hq⟩
      have hqp : q ≠ p := fun e => by subst e; rw [hp] at hq; cases hq
      exact ⟨q, by rw [hpc' q hqp]; exact hq⟩

/-- A process leaves its wait: it is on no list any more, and nobody who could still activate it
    holds the semaphore. -/
theorem waitInv_leave {ret : Bool} (hp : s.pc p = .back x alertable) (hfree : s.semLock x = none)
    (hsub : ∀ y, (s'.sem y).sleeplist.Sublist (s.sem y).sleeplist)
    (hnot : ∀ y, p ∉ (s'.sem y).sleeplist) (hl : s'.schlock = s.schlock)
    (hlock : s'.semLock = s.semLock) (hup : s'.up = s.up) (hsched : s'.sched = s.sched)
    (hpc : s'.pc = update s.pc p (.returned x alertable ret))
    (howed : alertable = false → s.up p = true ∧ ret = true) : WaitInv s' := by
  have hpc' : ∀ u, u ≠ p → s'.pc u = s.pc u := fun u hu => by
    rw [hpc, update_of_ne hu]
  have hposts : ∀ q y r, s'.pc q = .post y r ↔ s.pc q = .post y r := by
    intro q y r
    by_cases hq : q = p
    · subst hq; simp [hpc, hp]
    · rw [hpc' q hq]
  constructor
  · intro u y a hu
    have hne : u ≠ p := fun e => by subst e; simp [hpc] at hu
    rw [hpc' u hne] at hu
    rw [hl]; exact h.schlock u y a hu
  · exact fun y => (h.nodup y).sublist (hsub y)
  · intro y u hu
    have hne : u ≠ p := fun e => hnot y (e ▸ hu)
    rw [hup, hpc' u hne]
    exact h.listed y u ((hsub y).subset hu)
  · intro q y r hq
    obtain ⟨hlk, hu, hw⟩ := h.posting q y r ((hposts q y r).mp hq)
    -- a poster of `p` would have `x` locked
    have hne : r ≠ p := by
      rintro rfl
      rw [hp] at hw
      obtain rfl : x = y := hw
      rw [hfree] at hlk
      cases hlk
    rw [hlock, hup, hpc' r hne]
    exact ⟨hlk, hu, hw⟩
  · intro u
    by_cases hne : u = p
    · subst hne
      rw [hpc, update_self]
      cases alertable
      · rw [← hup] at howed
        exact howed rfl
      · trivial
    · rw [hpc' u hne]
      refine (h.owed u).frame (by rw [hup]) (fun _ _ => by rw [hsched]) ?_
      rintro y ⟨q, hq⟩
      exact ⟨q, (hposts q y u).mpr hq⟩

/-- A post takes the oldest waiter off the list and keeps the semaphore locked for it. -/
theorem waitInv_post {q : P} {v : Int} (hq : s.pc q = .run) (hfree : s.semLock x = none)
    (hlast : (s.sem x).sleeplist.getLast? = some p)
    (hsem : s'.sem = update s.sem x { val := v, sleeplist := (s.sem x).sleeplist.dropLast })
    (hlock : s'.semLock = update s.semLock x (some q)) (hl : s'.schlock = s.schlock)
    (hup : s'.up = update s.up p true) (hsched : s'.sched = s.sched)
    (hpc : s'.pc = update s.pc q (.post x p)) : WaitInv s' := by
  have hmem : p ∈ (s.sem x).sleeplist := mem_of_getLast? hlast
  obtain ⟨_, hpw⟩ := h.listed x p hmem
  have hpq : p ≠ q := fun e => by subst e; rw [hq] at hpw; exact hpw
  have hpc' : ∀ u, u ≠ q → s'.pc u = s.pc u := fun u hu => by
    rw [hpc, update_of_ne hu]
  have hup' : ∀ u, u ≠ p → s'.up u = s.up u := fun u hu => by
    rw [hup, update_of_ne hu]
  have hupp : s'.up p = true := by rw [hup, update_self]
  have hposter : Poster s' x p := ⟨q, by rw [hpc, update_self]⟩
  have hgone : p ∉ (s.sem x).sleeplist.dropLast := by
    have happ := dropLast_append_getLast? p hlast
    have hnd := h.nodup x
    rw [← happ, nodup_append] at hnd
    intro hm
    exact hnd.2.2 p hm p (by simp) rfl
  constructor
  · intro u y a hu
    have hne : u ≠ q := fun e => by subst e; simp [hpc] at hu
    rw [hpc' u hne] at hu
    rw [hl]; exact h.schlock u y a hu
  · intro y
    rw [hsem]
    by_cases hy : y = x
    · subst hy
      rw [update_self]
      exact (h.nodup y).sublist (dropLast_sublist _)
    · rw [update_of_ne hy]; exact h.nodup y
  · intro y u hu
    have hold : u ∈ (s.sem y).sleeplist ∧ u ≠ p := by
      rw [hsem] at hu
      by_cases hy : y = x
      · subst hy
        rw [update_self] at hu
        exact ⟨mem_of_mem_dropLast hu, fun e => hgone (e ▸ hu)⟩
      · rw [update_of_ne hy] at hu
        refine ⟨hu, ?_⟩
        rintro rfl
        -- `p` waits on one semaphore only
        have hw := (h.listed y u hu).2
        cases hpc : s.pc u with
        | sched z a | asleep z a | back z a =>
          rw [hpc] at hw hpw
          exact hy (hw.symm.trans hpw)
        | _ => rw [hpc] at hw; exact hw
    obtain ⟨hu0, hw⟩ := h.listed y u hold.1
    have hne : u ≠ q := fun e => by subst e; rw [hq] at hw; exact hw
    rw [hup' u hold.2, hpc' u hne]
    exact ⟨hu0, hw⟩
  · intro q' y r hq'
    by_cases hne : q' = q
    · subst hne
      rw [hpc, update_self] at hq'
      cases hq'
      rw [hlock, update_self, hpc' p hpq]
      exact ⟨rfl, hupp, hpw⟩
    · rw [hpc' q' hne] at hq'
      obtain ⟨hlk, hu, hw⟩ := h.posting q' y r hq'
      have hy : y ≠ x := fun e => by subst e; rw [hfree] at hlk; cases hlk
      have hrq : r ≠ q := fun e => by subst e; rw [hq] at hw; exact hw
      rw [hlock, update_of_ne hy, hpc' r hrq]
      refine ⟨hlk, ?_, hw⟩
      by_cases hrp : r = p
      · rw [hrp]; exact hupp
      · rw [hup' r hrp]; exact hu
  · intro u
    by_cases huq : u = q
    · subst huq
      rw [hpc, update_self]
      trivial
    · rw [hpc' u huq]
      by_cases hne : u = p
      · subst hne
        have howed := h.owed u
        cases hpcu : s.pc u with
        | sched z a =>
          rw [hpcu] at hpw
          obtain rfl : z = x := hpw
          cases a
          · exact fun _ => hposter
          · trivial
        | asleep z a =>
          rw [hpcu] at hpw howed
          obtain rfl : z = x := hpw
          cases a
          · show (_ ∧ _) ∨ (_ ∧ _)
            rw [hsched]
            rcases howed with hd | hr
            · exact .inl ⟨hd.1, fun _ => hposter⟩
            · exact .inr ⟨hr.1, hupp⟩
          · trivial
        | back z a =>
          cases a
          · exact hupp
          · trivial
        | _ => rw [hpcu] at hpw; exact hpw.elim
      · refine (h.owed u).frame (hup' u hne) (fun _ _ => by rw [hsched]) ?_
        rintro y ⟨q', hq'⟩
        have hqq : q' ≠ q := fun e => by subst e; rw [hq] at hq'; cases hq'
        exact ⟨q', by rw [hpc' q' hqq]; exact hq'⟩

/-- The poster activates its waiter: asleep it becomes runnable, and `schlock` being free it is not
    on its way to sleep. -/
theorem waitInv_activate {q : P} (hq : s.pc q = .post x p) (hl : s.schlock = none) (hl' : s'.schlock = s.schlock)
    (hsem : s'.sem = s.sem) (hlock : s'.semLock = update s.semLock x none)
    (hup : s'.up = s.up) (hsched : s'.sched = (activateProc s.sched p false).2)
    (hpc : s'.pc = update s.pc q .run) : WaitInv s' := by
  obtain ⟨hxq, hupp, hpw⟩ := h.posting q x p hq
  have hpc' : ∀ u, u ≠ q → s'.pc u = s.pc u := fun u hu => by
    rw [hpc, update_of_ne hu]
  have hwq : ∀ u y, (s.pc u).waitsOn y → u ≠ q := fun u y hw e => by
    subst e; rw [hq] at hw; exact hw
  constructor
  · intro u y a hu
    have hne : u ≠ q := fun e => by subst e; simp [hpc] at hu
    rw [hpc' u hne] at hu
    rw [hl']; exact h.schlock u y a hu
  · intro y
    rw [hsem]; exact h.nodup y
  · intro y u hu
    rw [hsem] at hu
    obtain ⟨hu0, hw⟩ := h.listed y u hu
    rw [hup, hpc' u (hwq u y hw)]
    exact ⟨hu0, hw⟩
  · intro q' y r hq'
    have hne : q' ≠ q := fun e => by subst e; simp [hpc] at hq'
    rw [hpc' q' hne] at hq'
    obtain ⟨hlk, hu, hw⟩ := h.posting q' y r hq'
    have hy : y ≠ x := by
      rintro rfl
      rw [hxq] at hlk
      exact hne (some.inj hlk).symm
    rw [hlock, update_of_ne hy, hup, hpc' r (hwq r y hw)]
    exact ⟨hlk, hu, hw⟩
  · intro u
    by_cases huq : u = q
    · subst huq
      rw [hpc, update_self]
      trivial
    · rw [hpc' u huq]
      by_cases hne : u = p
      · subst hne
        have howed := h.owed u
        cases hpcu : s.pc u with
        | sched z a =>
          have := h.schlock u z a hpcu
          rw [hl] at this
          cases this
        | asleep z a =>
          rw [hpcu] at howed
          cases a
          · refine .inr ⟨?_, by rw [hup]; exact hupp⟩
            rw [hsched]
            rcases howed with ⟨hd, _⟩ | ⟨hr, _⟩
            · exact activateProc_deep hd
            · rw [activateProc_runnable false hr]; exact hr
          · trivial
        | back z a =>
          cases a
          · show s'.up u = true
            rw [hup]; exact hupp
          · trivial
        | _ => rw [hpcu] at hpw; exact hpw.elim
      · refine (h.owed u).frame (by rw [hup]) (fun _ _ => ?_) ?_
        · rw [hsched]; exact activateProc_of_ne _ _ hne
        · rintro y ⟨q', hq'⟩
          have hqq : q' ≠ q := by
            rintro rfl
            rw [hq] at hq'
            cases hq'
            exact hne rfl
          exact ⟨q', by rw [hpc' q' hqq]; exact hq'⟩

end

theorem Pc.waitsOn_suspend : pc.suspend.waitsOn x ↔ pc.waitsOn x := by
  cases pc <;> exact Iff.rfl

theorem Pc.waitsOn_resume : pc.resume.waitsOn x ↔ pc.waitsOn x := by
  cases pc <;> exact Iff.rfl

theorem Pc.suspend_eq_post : pc.suspend = .post x p ↔ pc = .post x p := by
  cases pc <;> simp [Pc.suspend]

theorem Pc.resume_eq_post : pc.resume = .post x p ↔ pc = .post x p := by
  cases pc <;> simp [Pc.resume]

theorem Pc.suspend_ne_sched (pc : Pc S P) (x : S) (alertable : Bool) : pc.suspend ≠ .sched x alertable := by
  cases pc <;> simp [Pc.suspend]

theorem Pc.resume_eq_sched :
    pc.resume = .sched x alertable ↔ pc = .sched x alertable := by
  cases pc <;> simp [Pc.resume]

/-- The caller of a context switch: in an unalertable wait it has gone to deep sleep. -/
theorem owed_suspend {s s' : State C S P} (h : Owed s p (s.pc p))
    (hp : (s.pc p).newState = some newState) (hup : s'.up p = s.up p)
    (hstate : s'.sched.state p = newState) (hpost : ∀ x, Poster s x p → Poster s' x p) :
    Owed s' p (s.pc p).suspend := by
  cases hpc : s.pc p with
  | sched x alertable =>
    rw [hpc] at h hp
    cases alertable
    · cases hp
      exact .inl ⟨hstate, fun hu => hpost x (h (hup ▸ hu))⟩
    · trivial
  | yield => trivial
  | exit => trivial
  | _ => rw [hpc] at hp; cases hp

/-- The process that is switched in: in an unalertable wait it was runnable, so `up` is set. -/
theorem owed_resume {s s' : State C S P} {q : P} (h : Owed s q pc)
    (hup : s'.up q = s.up q) (hrunnable : ∀ x, pc = .asleep x false → s.sched.state q = .runnable)
    (hpost : ∀ x, Poster s x q → Poster s' x q) : Owed s' q pc.resume := by
  cases pc with
  | asleep x alertable =>
    cases alertable
    · show s'.up q = true
      rw [hup]
      rcases h with ⟨hd, _⟩ | ⟨_, hu⟩
      · rw [hrunnable x rfl] at hd; cases hd
      · exact hu
    · trivial
  | fresh => trivial
  | yielded => trivial
  | sched x alertable =>
    show Owed s' q (.sched x alertable)
    exact h.frame hup (fun _ e => by cases e) hpost
  | back x alertable =>
    show Owed s' q (.back x alertable)
    exact h.frame hup (fun _ e => by cases e) hpost
  | returned x alertable r =>
    show Owed s' q (.returned x alertable r)
    exact h.frame hup (fun _ e => by cases e) hpost
  | _ => trivial

/-- A context switch from `p` to `q`. -/
theorem waitInv_switch {s s' : State C S P} (h : WaitInv s) {q : P}
    (hp : (s.pc p).newState = some newState) (hl : s.schlock = some p)
    (hq : update s.sched.state p newState q = .runnable)
    (hstate : s'.sched.state = update (update s.sched.state p newState) q .running)
    (hsem : s'.sem = s.sem) (hlock : s'.semLock = s.semLock) (hup : s'.up = s.up)
    (hpc : s'.pc = update (update s.pc p (s.pc p).suspend) q
      (update s.pc p (s.pc p).suspend q).resume) : WaitInv s' := by
  -- where everybody stands after the switch
  have hpcq : s'.pc q = (update s.pc p (s.pc p).suspend q).resume := by
    rw [hpc, update_self]
  have hpcp : p ≠ q → s'.pc p = (s.pc p).suspend := fun hne => by
    rw [hpc, update_of_ne hne, update_self]
  have hpcu : ∀ u, u ≠ q → u ≠ p → s'.pc u = s.pc u := fun u huq hup => by
    rw [hpc, update_of_ne huq, update_of_ne hup]
  have hposts : ∀ u x r, s'.pc u = .post x r ↔ s.pc u = .post x r := by
    intro u x r
    by_cases huq : u = q
    · subst huq
      rw [hpcq, Pc.resume_eq_post]
      by_cases hup : u = p
      · subst hup; rw [update_self, Pc.suspend_eq_post]
      · rw [update_of_ne hup]
    · by_cases hup : u = p
      · subst hup; rw [hpcp huq, Pc.suspend_eq_post]
      · rw [hpcu u huq hup]
  have hposter : ∀ u x, Poster s x u → Poster s' x u := by
    rintro u x ⟨r, hr⟩
    exact ⟨r, (hposts r x u).mpr hr⟩
  refine h.frame hup (fun x => by rw [hsem]) hlock (fun u x hw => ?_) hposts
    (fun u x alertable hu => ?_) (fun u => ?_)
  · by_cases huq : u = q
    · subst huq
      rw [hpcq, Pc.waitsOn_resume]
      by_cases hup : u = p
      · subst hup; rw [update_self, Pc.waitsOn_suspend]; exact hw
      · rw [update_of_ne hup]; exact hw
    · by_cases hup : u = p
      · subst hup; rw [hpcp huq, Pc.waitsOn_suspend]; exact hw
      · rw [hpcu u huq hup]; exact hw
  · -- only the caller stood at `sched`
    exfalso
    have hat : ∀ u, u ≠ p → s.pc u ≠ .sched x alertable := fun u hup e => by
      have := h.schlock u x alertable e
      rw [hl] at this
      exact hup (some.inj this).symm
    by_cases huq : u = q
    · subst huq
      rw [hpcq, Pc.resume_eq_sched] at hu
      by_cases hup : u = p
      · subst hup; rw [update_self] at hu; exact Pc.suspend_ne_sched _ _ _ hu
      · rw [update_of_ne hup] at hu; exact hat u hup hu
    · by_cases hup : u = p
      · subst hup; rw [hpcp huq] at hu; exact Pc.suspend_ne_sched _ _ _ hu
      · rw [hpcu u huq hup] at hu; exact hat u hup hu
  · by_cases huq : u = q
    · subst huq
      rw [hpcq]
      by_cases hup' : u = p
      · -- the caller picked itself again, so it did not ask for deep sleep
        subst hup'
        rw [update_self] at hq ⊢
        rw [hq] at hp
        cases hpu : s.pc u with
        | sched x alertable => rw [hpu] at hp; cases alertable <;> cases hp
        | yield => trivial
        | exit => trivial
        | _ => rw [hpu] at hp; cases hp
      · rw [update_of_ne hup'] at hq ⊢
        exact owed_resume (h.owed u) (by rw [hup]) (fun _ _ => hq) (hposter u)
    · by_cases hup' : u = p
      · subst hup'
        rw [hpcp huq]
        refine owed_suspend (h.owed u) hp (by rw [hup]) ?_ (hposter u)
        rw [hstate, update_of_ne huq, update_self]
      · rw [hpcu u huq hup']
        refine (h.owed u).frame (by rw [hup]) (fun _ _ => ?_) (hposter u)
        rw [hstate, update_of_ne huq, update_of_ne hup']

/-! ## Unalertable waits -/

/-- At the `sched` of an unalertable wait. -/
def Pc.deepWait : Pc S P → Bool
  | .sched _ false => true
  | _ => false

/-- The condition: no killed process gets to `simple_sched` from an unalertable wait. -/
def NotKilledAtDeepSleep (s : State C S P) : Act C S P → Prop
  | .sched c _ => (s.pc (s.this c)).deepWait = true → s.sched.killed (s.this c) = false
  | _ => True

instance (s : State C S P) (a : Act C S P) : Decidable (NotKilledAtDeepSleep s a) :=
  match a with
  | .sched _ _ => inferInstanceAs (Decidable (_ → _))
  | .start _ _ | .wait _ _ _ | .wake _ | .ret _ | .post _ _ | .activate _ | .kill _ _ | .alert _
  | .yield _ | .exit _ => isTrue trivial

/-- Every allowed move keeps the invariant. -/
theorem moves_waitInv {s s' : State C S P} {a : Act C S P} (h : WaitInv s)
    (hC : NotKilledAtDeepSleep s a) (hm : Moves s a s') : WaitInv s' := by
  have hfree : ∀ {p : P}, s.schlock = none → ∀ u, u ≠ p → s.schlock = some u → some p = some u := by
    intro p hl u _ hu
    rw [hl] at hu
    cases hu
  cases hm with
  | start hq =>
    refine h.frame rfl (fun _ => rfl) rfl (fun _ _ => id) (fun _ _ _ => Iff.rfl) h.schlock fun u => ?_
    refine (h.owed u).frame rfl (fun x hx => ?_) (fun _ hpost => hpost)
    exact activateProc_of_ne _ _ fun e => by subst e; rw [hq] at hx; cases hx
  | take hp hlist =>
    exact h.goto rfl (sleeplist_update hlist) rfl rfl (by simp [hp, Pc.waitsOn]) (by simp [hp])
      (by simp) (by simp) (fun _ _ hu => hu) (fun _ _ _ _ => rfl) trivial
  | sleep hp _ hl => exact waitInv_sleep h hp hl rfl rfl rfl rfl rfl rfl
  | @turnBack c choice newState hp hl hk =>
    have hother : ∀ u, u ≠ s.this c → s.schlock = some u → (none : Option P) = some u := by
      intro u hne hu
      rw [hl] at hu
      exact absurd (some.inj hu).symm hne
    cases hpc : s.pc (s.this c) with
    | sched x alertable =>
      cases alertable
      · rw [hC (by rw [hpc]; rfl)] at hk
        cases hk
      · exact h.goto rfl (fun _ => rfl) rfl rfl (by simp [hpc, Pc.suspend, Pc.resume, Pc.waitsOn])
          (by simp [hpc]) (by simp [Pc.suspend, Pc.resume]) (by simp [Pc.suspend, Pc.resume]) hother
          (fun _ _ _ _ => rfl) trivial
    | yield =>
      exact h.goto rfl (fun _ => rfl) rfl rfl (by simp [hpc, Pc.waitsOn]) (by simp [hpc])
        (by simp [Pc.suspend, Pc.resume]) (by simp [Pc.suspend, Pc.resume]) hother
        (fun _ _ _ _ => rfl) trivial
    | exit =>
      exact h.goto rfl (fun _ => rfl) rfl rfl (by simp [hpc, Pc.waitsOn]) (by simp [hpc])
        (by simp [Pc.suspend, Pc.resume]) (by simp [Pc.suspend, Pc.resume]) hother
        (fun _ _ _ _ => rfl) trivial
    | _ => rw [hpc] at hp; cases hp
  | switch hp hl hq hk => exact waitInv_switch h hp hl hq hk rfl rfl rfl rfl
  | @wakeUp c x alertable hp hfree hup =>
    refine waitInv_leave h hp hfree (fun _ => List.Sublist.refl _) (fun y hy => ?_) rfl rfl rfl rfl rfl
      (fun _ => ⟨hup, rfl⟩)
    rw [(h.listed y _ hy).1] at hup
    cases hup
  | @wakeAlone c x alertable v hp hfree hup =>
    -- an unalertable waiter never gets here
    have halert : alertable = true := by
      have howed := h.owed (s.this c)
      rw [hp] at howed
      cases alertable
      · rw [show s.up (s.this c) = true from howed] at hup
        cases hup
      · rfl
    refine waitInv_leave h hp hfree (fun y => ?_) (fun y => ?_) rfl rfl rfl rfl rfl (fun e => ?_)
    · by_cases hy : y = x
      · subst hy
        simp only [update_self]
        exact erase_sublist
      · simp only [update_of_ne hy]
        exact List.Sublist.refl _
    · by_cases hy : y = x
      · subst hy
        simp only [update_self]
        exact (h.nodup y).not_mem_erase
      · simp only [update_of_ne hy]
        intro hmem
        have hw := (h.listed y _ hmem).2
        rw [hp] at hw
        exact hy hw.symm
    · rw [halert] at e
      cases e
  | @ret c x alertable hp =>
    have hout : (∀ y, ¬ (s.pc (s.this c)).waitsOn y) ∧ ∀ y r, s.pc (s.this c) ≠ .post y r := by
      rcases hp with hp | ⟨r, hp⟩ <;> simp [hp, Pc.waitsOn]
    exact h.goto rfl (fun _ => rfl) rfl rfl (fun y hw => absurd hw (hout.1 y)) hout.2 (by simp) (by simp)
      (fun _ _ hu => hu) (fun _ _ _ _ => rfl) trivial
  | postToken hlist =>
    exact h.frame rfl (sleeplist_update hlist) rfl (fun _ _ => id) (fun _ _ _ => Iff.rfl) h.schlock
      fun u => (h.owed u).frame rfl (fun _ _ => rfl) (fun _ hpost => hpost)
  | postWake hp hfree hlast => exact waitInv_post h hp hfree hlast rfl rfl rfl rfl rfl rfl
  | activate hp hl => exact waitInv_activate h hp hl rfl rfl rfl rfl rfl rfl
  | kill hp =>
    exact h.goto rfl (fun _ => rfl) rfl rfl (by simp [hp, Pc.waitsOn]) (by simp [hp]) (by simp) (by simp)
      (fun _ _ hu => hu) (fun _ _ _ _ => rfl) trivial
  | @alert c q hp =>
    refine h.goto rfl (fun _ => rfl) rfl rfl (by simp [hp, Pc.waitsOn]) (by simp [hp]) (by simp) (by simp)
      (fun _ _ hu => hu) (fun u x _ hx => ?_) trivial
    -- the only place where the two kinds of sleep differ
    have howed := h.owed u
    rw [hx] at howed
    by_cases huq : u = q
    · subst huq
      rcases howed with ⟨hd, _⟩ | ⟨hr, _⟩
      · show (activateProc s.sched u true).2.state u = _
        rw [alertProc_deep hd]
      · show (activateProc s.sched u true).2.state u = _
        rw [activateProc_runnable true hr]
    · exact activateProc_of_ne _ _ huq
  | yield hp hl =>
    exact h.goto rfl (fun _ => rfl) rfl rfl (by simp [hp, Pc.waitsOn]) (by simp [hp]) (by simp) (by simp)
      (hfree hl) (fun _ _ _ _ => rfl) trivial
  | exit hp hl =>
    exact h.goto rfl (fun _ => rfl) rfl rfl (by simp [hp, Pc.waitsOn]) (by simp [hp]) (by simp) (by simp)
      (hfree hl) (fun _ _ _ _ => rfl) trivial

/-- Nobody waits when the machine comes up. -/
theorem boot_waitInv (idle : C → P) (isIdle : P → Bool) (val : S → Int) :
    WaitInv (boot idle isIdle val) := by
  have hpc : ∀ p, (boot idle isIdle val).pc p = .run ∨ (boot idle isIdle val).pc p = .fresh := by
    intro p
    show (if _ then _ else _) = _ ∨ (if _ then _ else _) = _
    split
    · exact .inl rfl
    · exact .inr rfl
  constructor
  · intro p x alertable hp
    rcases hpc p with hr | hr <;> rw [hr] at hp <;> cases hp
  · exact fun _ => nodup_nil
  · intro x p hp
    cases hp
  · intro q x p hq
    rcases hpc q with hr | hr <;> rw [hr] at hq <;> cases hq
  · intro p
    rcases hpc p with hr | hr <;> rw [hr] <;> trivial

/-- **Unalertable waits are never interrupted** in a run in which no killed process gets to
    `simple_sched` from one: a wait that did not find a token returns only after a post has set its
    `wait->up`, and returns `true`. -/
theorem unalertable_wait_returns_true (idle : C → P) (isIdle : P → Bool) (val : S → Int)
    (as : List (Act C S P)) (s : State C S P)
    (hmeets : RunMeets (step idle) NotKilledAtDeepSleep (boot idle isIdle val) as)
    (hrun : run (step idle) (boot idle isIdle val) as = some s) (p : P) (x : S) (ret : Bool)
    (hret : s.pc p = .returned x false ret) : s.up p = true ∧ ret = true := by
  have hinv : WaitInv s :=
    run_invariant (C := NotKilledAtDeepSleep) (I := WaitInv)
      (fun _ _ _ h hC hs => moves_waitInv h hC (step_moves hs)) as _ s (boot_waitInv idle isIdle val)
      hmeets hrun
  have howed := hinv.owed p
  rw [hret] at howed
  exact howed

/-- Two CPUs with the idle processes `0` and `1`. -/
def idle2 (c : Fin 2) : Fin 4 := c.castLE (by decide)

/-- Processes `2` and `3` are started and get a CPU each. -/
def twoRunning : List (Act (Fin 2) Unit (Fin 4)) :=
  [.start 0 2, .start 0 3, .yield 0, .sched 0 (some 2), .yield 1, .sched 1 (some 3)]

/-- Process `2` waits unalertably, is killed in its sleep by `3`, and then posted. -/
def killedAsleep : List (Act (Fin 2) Unit (Fin 4)) :=
  twoRunning ++ [.wait 0 () false, .sched 0 none, .kill 1 2, .alert 1, .post 1 (), .activate 1,
    .yield 0, .sched 0 (some 2), .wake 0]

/-- Process `2` is killed first. -/
def killedBefore : List (Act (Fin 2) Unit (Fin 4)) :=
  twoRunning ++ [.kill 1 2, .alert 1, .wait 0 () false, .sched 0 none, .wake 0]

theorem unalertable_wait_killed_asleep : ∃ s,
    run (step idle2) (boot idle2 (fun p => p < 2) fun _ : Unit => 0) killedAsleep = some s ∧
    s.sched.killed 2 = true ∧ s.pc 2 = .returned () false true ∧ s.up 2 = true := by
  refine exists_run (P := fun s => s.sched.killed 2 = true ∧ s.pc 2 = .returned () false true) (by decide) fun s hs hv => ?_
  exact ⟨hv.1, hv.2, (unalertable_wait_returns_true idle2 _ _ killedAsleep s (by decide) hs 2 () true hv.2).1⟩

/-- **The slip**: a process that is killed before an unalertable wait returns from it with `false`,
    no post having happened, and the assertion around the call fails. -/
theorem killed_waiter_returns_false : ∃ s,
    run (step idle2) (boot idle2 (fun p => p < 2) fun _ : Unit => 0) killedBefore = some s ∧
    s.pc 2 = .returned () false false ∧ s.up 2 = false ∧ step idle2 s (.ret 0) = none := by
  exact exists_run
    (P := fun s => s.pc 2 = .returned () false false ∧ s.up 2 = false ∧ step idle2 s (.ret 0) = none) (by decide) fun _ _ hs => hs

end Armv8Os.Kernel
