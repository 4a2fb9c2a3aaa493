/-
  `fs/cache.c` with CONCURRENT threads: `cache_begin_op`, `cache_sync` and `cache_end_op` run by any
  number of threads in any interleaving.

  1. **Model** — a step is one section under `log.lock` or one semaphore operation, exactly where
     the source gives the lock away.  `Pc` says where inside the three functions a thread stands;
     `Act` names the thread that moves.  Two details of the source matter and are kept:
       - `cache_begin_op` takes `begin_sem`'s lock BEFORE it releases `log.lock` and goes to sleep
         under it, so no post can slip in between (`beginSemLock`);
       - `cache_end_op` releases `log.lock` first and only then locks `end_sem` to sleep, and the
         committer clears `committing` first and posts `end_sem` later.
     The commit itself (copy to the log, header, install, header) is one step: while `committing`
     is set no operation runs, so nothing else looks at the header.

  2. **History** — `started` and `completed` number the commits (`completed` lists the blocks each
     finished commit has written home), and an `OpContext` remembers what was synced under it.
     No step reads them.

  3. **Invariant** — `Inv` ties the counters of the log to the threads: `outstanding` counts the
     running operations, `real_use` is the recorded blocks plus all remaining budgets, the sleep
     lists are the sleeping threads, and the synced blocks of an operation are in the header until
     its commit.  `step_inv` proves it move by move, `reachable_inv` for every run.

  4. **Results** — the space accounting of the log, and what goes wrong on `end_sem`: a thread that
     is late on `end_sem` sleeps for good, and a committer that is late with its post wakes threads
     of the next batch.  Both are stated with the condition under which they do not happen.
-/
import Armv8Os.Lib.Transition
import Armv8Os.Common.Sem
import Armv8Os.Fs.Log

set_option linter.unusedSectionVars false

namespace Armv8Os.LogThreads

open Fs Sem Transition List Option
open Function (update update_apply update_of_ne update_self)

variable {T : Type} [DecidableEq T]

/-! ## The model -/

/-- Where a thread stands in the three functions. -/
inductive Pc where
  | idle         -- outside
  | beginTest    -- at the top of the loop of `cache_begin_op`
  | beginWait    -- `log.lock` released, `begin_sem` locked, before `_wait_sem(&begin_sem, false)`
  | beginAsleep  -- on the sleep list of `begin_sem`
  | beginWoken   -- posted, still inside `_wait_sem`
  | running      -- between `cache_begin_op` and `cache_end_op`
  | endWait      -- else branch of `cache_end_op`: before `unalertable_wait_sem(&end_sem)`
  | endAsleep    -- on the sleep list of `end_sem`
  | commit       -- `log.committing` set, the commit not done
  | commitDone   -- the commit done, before the second section under `log.lock`
  | postBegin    -- before `post_all_sem(&begin_sem)`
  | postEnd      -- before `post_all_sem(&end_sem)`
  | returning    -- before the return from `cache_end_op`
  deriving Repr, DecidableEq

/-- `OpContext`: the budget `rm`, and the history of the operation. -/
structure OpContext where
  rm : Nat
  /-- the blocks synced under this context -/
  synced : List Nat
  /-- those that its own syncs recorded in the header -/
  recorded : List Nat
  /-- how many commits had started at its last sync -/
  syncedAt : Nat
  /-- how many commits had started when it entered `cache_end_op` -/
  endedAt : Nat
  deriving Repr, DecidableEq

/-- The log, its semaphores, the threads, and the history of the commits. -/
structure State (T : Type) where
  log : Log
  header : LogHeader
  beginSem : Semaphore T
  endSem : Semaphore T
  beginSemLock : Option T
  pc : T → Pc
  ctx : T → OpContext
  started : Nat
  completed : List (List Nat)

/-- One move of one thread. -/
inductive Act (T : Type) where
  | call (t : T)               -- enter `cache_begin_op`
  | beginTest (t : T)          -- its section under `log.lock`
  | beginWait (t : T)          -- `_wait_sem(&begin_sem, false)` up to `sched`
  | beginWake (t : T)          -- `_wait_sem` returns, the loop goes round
  | sync (t : T) (b : Nat)     -- `cache_sync(ctx, block)`
  | endOp (t : T)              -- first section of `cache_end_op`
  | endWait (t : T)            -- `unalertable_wait_sem(&end_sem)` up to `sched`
  | commit (t : T)             -- the commit
  | clear (t : T)              -- second section of `cache_end_op`
  | postBegin (t : T)          -- `post_all_sem(&begin_sem)`
  | postEnd (t : T)            -- `post_all_sem(&end_sem)`
  | ret (t : T)                -- `cache_end_op` returns
  deriving Repr, DecidableEq

/-- Set one thread's program counter. -/
def State.goto (s : State T) (t : T) (p : Pc) : State T := { s with pc := update s.pc t p }

/-- Move every woken thread to `p`. -/
def State.wake (s : State T) (ws : List T) (p : Pc) : State T :=
  { s with pc := fun t => if t ∈ ws then p else s.pc t }

/-- `post_all_sem(&begin_sem)`; the lock of the semaphore must be free. -/
def postAllBegin (s : State T) : Option (State T) :=
  if s.beginSemLock = none then
    (postAllSem s.beginSem).map fun r => { s.wake r.2.1 .beginWoken with beginSem := r.2.2 }
  else none

/-- `post_all_sem(&end_sem)`. -/
def postAllEnd (s : State T) : Option (State T) :=
  (postAllSem s.endSem).map fun r => { s.wake r.2.1 .returning with endSem := r.2.2 }

/-- The section of `cache_begin_op`: take a slot, or lock `begin_sem` to wait on it. -/
def beginTest (sb : SuperBlock) (s : State T) (t : T) : Option (State T) :=
  if beginBlocked sb s.log then
    if s.beginSemLock = none then some { s.goto t .beginWait with beginSemLock := some t } else none
  else
    some { s.goto t .running with
      log := beginSection s.log
      ctx := update s.ctx t
        { rm := opMaxNumBlocks, synced := [], recorded := [], syncedAt := s.started, endedAt := 0 } }

/-- `_wait_sem(&begin_sem, false)`, entered with the lock of the semaphore held. -/
def beginWait (s : State T) (t : T) : State T :=
  let r := waitSem s.beginSem t
  { s.goto t (if r.1 then .beginTest else .beginAsleep) with beginSem := r.2, beginSemLock := none }

/-- `cache_sync(ctx, block)`; `none` is its `PANIC()`. -/
def syncOp (s : State T) (t : T) (b : Nat) : Option (State T) :=
  (syncSection s.header (s.ctx t).rm b).map fun r =>
    { s with
      header := r.1
      ctx := update s.ctx t
        { s.ctx t with
          rm := r.2
          synced := b :: (s.ctx t).synced
          recorded := if b ∈ s.header.recorded then (s.ctx t).recorded
                      else b :: (s.ctx t).recorded
          syncedAt := s.started } }

/-- The first section of `cache_end_op`: the last operation commits, the others post `begin_sem`
    and leave to wait. -/
def endOp (s : State T) (t : T) : Option (State T) :=
  if (endSection s.log (s.ctx t).rm).outstanding = 0 then
    some { s.goto t .commit with
      log := endSection s.log (s.ctx t).rm
      ctx := update s.ctx t { s.ctx t with endedAt := s.started }
      started := s.started + 1 }
  else
    (postAllBegin s).map fun s' =>
      { s'.goto t .endWait with
        log := endSection s.log (s.ctx t).rm
        ctx := update s.ctx t { s.ctx t with endedAt := s.started } }

/-- `unalertable_wait_sem(&end_sem)`. -/
def endWait (s : State T) (t : T) : State T :=
  let r := waitSem s.endSem t
  { s.goto t (if r.1 then .returning else .endAsleep) with endSem := r.2 }

/-- The commit: every recorded block has been written home, `header.num_blocks = 0`. -/
def commitOp (s : State T) (t : T) : State T :=
  { s.goto t .commitDone with
    header := { s.header with numBlocks := 0 }
    completed := s.completed ++ [s.header.recorded] }

/-- **One move.**  `none` when the thread does not stand there, when a lock it needs is taken, or
    when the code panics. -/
def step (sb : SuperBlock) (s : State T) : Act T → Option (State T)
  | .call t => if s.pc t = .idle then some (s.goto t .beginTest) else none
  | .beginTest t => if s.pc t = .beginTest then beginTest sb s t else none
  | .beginWait t => if s.pc t = .beginWait then some (beginWait s t) else none
  | .beginWake t =>
    if s.pc t = .beginWoken ∧ s.beginSemLock = none then some (s.goto t .beginTest) else none
  | .sync t b => if s.pc t = .running then syncOp s t b else none
  | .endOp t => if s.pc t = .running then endOp s t else none
  | .endWait t => if s.pc t = .endWait then some (endWait s t) else none
  | .commit t => if s.pc t = .commit then some (commitOp s t) else none
  | .clear t =>
    if s.pc t = .commitDone then some { s.goto t .postBegin with log := clearSection s.log } else none
  | .postBegin t =>
    if s.pc t = .postBegin then (postAllBegin s).map fun s' => s'.goto t .postEnd else none
  | .postEnd t =>
    if s.pc t = .postEnd then (postAllEnd s).map fun s' => s'.goto t .returning else none
  | .ret t => if s.pc t = .returning then some (s.goto t .idle) else none

/-- After `init_bcache`: nothing recorded, both semaphores at `0`, no thread inside. -/
def initial (T : Type) : State T :=
  { log := initLog, header := { numBlocks := 0, blockNo := fun _ => 0 },
    beginSem := initSem 0, endSem := initSem 0, beginSemLock := none,
    pc := fun _ => .idle,
    ctx := fun _ => { rm := 0, synced := [], recorded := [], syncedAt := 0, endedAt := 0 },
    started := 0, completed := [] }

/-! ## The semaphores and the threads -/

theorem goto_pc (s : State T) (t u : T) (p : Pc) :
    (s.goto t p).pc u = if u = t then p else s.pc u := update_apply ..

@[simp] theorem goto_pc_self (s : State T) (t : T) (p : Pc) : (s.goto t p).pc t = p :=
  update_self ..

theorem goto_pc_of_ne (s : State T) {t u : T} (p : Pc) (h : u ≠ t) :
    (s.goto t p).pc u = s.pc u := update_of_ne h ..

/-- The semaphores agree with the threads: a sleep list holds exactly the threads asleep on it,
    there are no tokens, and `begin_sem` is locked exactly by a thread about to sleep on it. -/
structure SemInv (s : State T) : Prop where
  beginBal : CountsSleepers s.beginSem
  beginVal : s.beginSem.val ≤ 0
  beginSleep : ∀ t, t ∈ s.beginSem.sleeplist ↔ s.pc t = .beginAsleep
  endBal : CountsSleepers s.endSem
  endVal : s.endSem.val ≤ 0
  endSleep : ∀ t, t ∈ s.endSem.sleeplist ↔ s.pc t = .endAsleep
  beginLock : ∀ t, s.beginSemLock = some t ↔ s.pc t = .beginWait

/-- Every thread that stands at `p` is moved to `q`. -/
def wokenPc (s : State T) (p q : Pc) : T → Pc := fun t => if s.pc t = p then q else s.pc t

variable {s : State T}

/-- `post_all_sem(&begin_sem)` wakes exactly the threads asleep there. -/
theorem postAllBegin_eq (h : SemInv s) :
    postAllBegin s = if s.beginSemLock = none then
      some { s with pc := wokenPc s .beginAsleep .beginWoken, beginSem := initSem 0 } else none := by
  unfold postAllBegin
  rw [postAllSem_eq h.beginBal]
  split
  · simp only [map_some, State.wake, initSem, max_eq_right h.beginVal, mem_reverse,
      h.beginSleep]
    rfl
  · rfl

/-- `post_all_sem(&end_sem)` wakes exactly the threads asleep there. -/
theorem postAllEnd_eq (h : SemInv s) :
    postAllEnd s = some { s with pc := wokenPc s .endAsleep .returning, endSem := initSem 0 } := by
  unfold postAllEnd
  rw [postAllSem_eq h.endBal]
  simp only [map_some, State.wake, initSem, max_eq_right h.endVal, mem_reverse,
    h.endSleep]
  rfl

/-- **Everything a move can do**, with the semaphore operations already evaluated.  The invariants
    below are proved by cases on this relation and never unfold `step`. -/
inductive Moves (sb : SuperBlock) (s : State T) : Act T → State T → Prop where
  | call {t} (hpc : s.pc t = .idle) : Moves sb s (.call t) (s.goto t .beginTest)
  | beginBlock {t} (hpc : s.pc t = .beginTest) (hb : beginBlocked sb s.log = true)
      (hl : s.beginSemLock = none) :
      Moves sb s (.beginTest t) { s with
        pc := update s.pc t .beginWait
        beginSemLock := some t }
  | beginEnter {t} (hpc : s.pc t = .beginTest) (hb : beginBlocked sb s.log = false) :
      Moves sb s (.beginTest t) { s with
        pc := update s.pc t .running
        log := beginSection s.log
        ctx := update s.ctx t
          { rm := opMaxNumBlocks, synced := [], recorded := [], syncedAt := s.started
            endedAt := 0 } }
  | beginSleep {t} (hpc : s.pc t = .beginWait) :
      Moves sb s (.beginWait t) { s with
        pc := update s.pc t .beginAsleep
        beginSem := { val := s.beginSem.val - 1, sleeplist := t :: s.beginSem.sleeplist }
        beginSemLock := none }
  | beginWake {t} (hpc : s.pc t = .beginWoken) : Moves sb s (.beginWake t) (s.goto t .beginTest)
  | sync {t b h' rm'} (hpc : s.pc t = .running)
      (hsync : syncSection s.header (s.ctx t).rm b = some (h', rm')) :
      Moves sb s (.sync t b) { s with
        header := h'
        ctx := update s.ctx t
          { s.ctx t with
            rm := rm'
            synced := b :: (s.ctx t).synced
            recorded := if b ∈ s.header.recorded then (s.ctx t).recorded
                        else b :: (s.ctx t).recorded
            syncedAt := s.started } }
  | endLast {t} (hpc : s.pc t = .running)
      (hlast : (endSection s.log (s.ctx t).rm).outstanding = 0) :
      Moves sb s (.endOp t) { s with
        pc := update s.pc t .commit
        log := endSection s.log (s.ctx t).rm
        ctx := update s.ctx t { s.ctx t with endedAt := s.started }
        started := s.started + 1 }
  | endOther {t} (hpc : s.pc t = .running)
      (hlast : (endSection s.log (s.ctx t).rm).outstanding ≠ 0) (hl : s.beginSemLock = none) :
      Moves sb s (.endOp t) { s with
        pc := update (wokenPc s .beginAsleep .beginWoken) t .endWait
        beginSem := initSem 0
        log := endSection s.log (s.ctx t).rm
        ctx := update s.ctx t { s.ctx t with endedAt := s.started } }
  | endSleep {t} (hpc : s.pc t = .endWait) :
      Moves sb s (.endWait t) { s with
        pc := update s.pc t .endAsleep
        endSem := { val := s.endSem.val - 1, sleeplist := t :: s.endSem.sleeplist } }
  | commit {t} (hpc : s.pc t = .commit) : Moves sb s (.commit t) (commitOp s t)
  | clear {t} (hpc : s.pc t = .commitDone) :
      Moves sb s (.clear t) { s with
        pc := update s.pc t .postBegin
        log := clearSection s.log }
  | postBegin {t} (hpc : s.pc t = .postBegin) (hl : s.beginSemLock = none) :
      Moves sb s (.postBegin t) { s with
        pc := update (wokenPc s .beginAsleep .beginWoken) t .postEnd
        beginSem := initSem 0 }
  | postEnd {t} (hpc : s.pc t = .postEnd) :
      Moves sb s (.postEnd t) { s with
        pc := update (wokenPc s .endAsleep .returning) t .returning
        endSem := initSem 0 }
  | ret {t} (hpc : s.pc t = .returning) : Moves sb s (.ret t) (s.goto t .idle)

variable {sb : SuperBlock} {s' : State T} {a : Act T}

/-- **Inversion of `step`.** -/
theorem step_moves (h : SemInv s) (hs : step sb s a = some s') : Moves sb s a s' := by
  cases a with
  | call t =>
    obtain ⟨hpc, rfl⟩ := of_guard hs
    exact .call hpc
  | beginTest t =>
    obtain ⟨hpc, hs⟩ := ite_none_right_eq_some.mp hs
    unfold beginTest at hs
    split at hs
    · rename_i hb
      obtain ⟨hl, rfl⟩ := of_guard hs
      exact .beginBlock hpc hb hl
    · rename_i hb
      cases hs
      exact .beginEnter hpc (by simpa using hb)
  | beginWait t =>
    obtain ⟨hpc, rfl⟩ := of_guard hs
    simp only [beginWait, waitSem_of_nonpos h.beginVal]
    exact .beginSleep hpc
  | beginWake t =>
    obtain ⟨hpc, rfl⟩ := of_guard hs
    exact .beginWake hpc.1
  | sync t b =>
    obtain ⟨hpc, hs⟩ := ite_none_right_eq_some.mp hs
    obtain ⟨⟨h', rm'⟩, hsync, rfl⟩ := map_eq_some_iff.mp hs
    exact .sync hpc hsync
  | endOp t =>
    obtain ⟨hpc, hs⟩ := ite_none_right_eq_some.mp hs
    unfold endOp at hs
    split at hs
    · rename_i hlast
      cases hs
      exact .endLast hpc hlast
    · rename_i hlast
      rw [postAllBegin_eq h] at hs
      obtain ⟨s₁, hs1, rfl⟩ := map_eq_some_iff.mp hs
      obtain ⟨hl, hs1⟩ := ite_none_right_eq_some.mp hs1
      cases hs1
      exact .endOther hpc hlast hl
  | endWait t =>
    obtain ⟨hpc, rfl⟩ := of_guard hs
    simp only [endWait, waitSem_of_nonpos h.endVal]
    exact .endSleep hpc
  | commit t =>
    obtain ⟨hpc, rfl⟩ := of_guard hs
    exact .commit hpc
  | clear t =>
    obtain ⟨hpc, rfl⟩ := of_guard hs
    exact .clear hpc
  | postBegin t =>
    obtain ⟨hpc, hs⟩ := ite_none_right_eq_some.mp hs
    rw [postAllBegin_eq h] at hs
    obtain ⟨s₁, hs1, rfl⟩ := map_eq_some_iff.mp hs
    obtain ⟨hl, hs1⟩ := ite_none_right_eq_some.mp hs1
    cases hs1
    exact .postBegin hpc hl
  | postEnd t =>
    obtain ⟨hpc, hs⟩ := ite_none_right_eq_some.mp hs
    rw [postAllEnd_eq h] at hs
    obtain ⟨s₁, hs1, rfl⟩ := map_eq_some_iff.mp hs
    cases hs1
    exact .postEnd hpc
  | ret t =>
    obtain ⟨hpc, rfl⟩ := of_guard hs
    exact .ret hpc

/-- Not on a sleep list and not about to enter one under a semaphore lock. -/
def Pc.awake (p : Pc) : Prop := p ≠ .beginAsleep ∧ p ≠ .endAsleep ∧ p ≠ .beginWait

/-- A move between two awake positions leaves the semaphores in agreement. -/
theorem SemInv.frame (h : SemInv s) (hb : s'.beginSem = s.beginSem)
    (he : s'.endSem = s.endSem) (hl : s'.beginSemLock = s.beginSemLock)
    (hpc : ∀ u, s'.pc u = s.pc u ∨ ((s.pc u).awake ∧ (s'.pc u).awake)) : SemInv s' := by
  refine ⟨hb ▸ h.beginBal, hb ▸ h.beginVal, fun u => ?_, he ▸ h.endBal, he ▸ h.endVal,
    fun u => ?_, fun u => ?_⟩
  · rw [hb, h.beginSleep]
    rcases hpc u with hu | ⟨h1, h2⟩
    · rw [hu]
    · exact ⟨fun e => absurd e h1.1, fun e => absurd e h2.1⟩
  · rw [he, h.endSleep]
    rcases hpc u with hu | ⟨h1, h2⟩
    · rw [hu]
    · exact ⟨fun e => absurd e h1.2.1, fun e => absurd e h2.2.1⟩
  · rw [hl, h.beginLock]
    rcases hpc u with hu | ⟨h1, h2⟩
    · rw [hu]
    · exact ⟨fun e => absurd e h1.2.2, fun e => absurd e h2.2.2⟩

variable {p : Pc}

section

variable {t : T} (h : SemInv s) (hq : (s.pc t).awake) (hp : p.awake)
include h hq hp

/-- One thread moves between awake positions. -/
theorem SemInv.goto : SemInv (s.goto t p) := by
  refine h.frame rfl rfl rfl fun u => ?_
  by_cases hu : u = t
  · subst hu
    exact .inr ⟨hq, by simpa using hp⟩
  · exact .inl (goto_pc_of_ne s p hu)

/-- Everybody asleep on `begin_sem` is woken, and `t` moves to an awake position. -/
theorem SemInv.postAllBegin : SemInv { s with
      pc := update (wokenPc s .beginAsleep .beginWoken) t p, beginSem := initSem 0 } := by
  refine ⟨countsSleepers_initSem le_rfl, le_rfl, fun u => ?_, h.endBal, h.endVal, fun u => ?_,
    fun u => ?_⟩
  · by_cases hu : u = t
    · subst hu; simp [initSem, hp.1]
    · simp only [update_of_ne hu, wokenPc, initSem, not_mem_nil, false_iff]
      split <;> simp_all
  · rw [h.endSleep]
    by_cases hu : u = t
    · subst hu; simp [hp.2.1, hq.2.1]
    · simp only [update_of_ne hu, wokenPc]
      split <;> simp_all
  · rw [h.beginLock]
    by_cases hu : u = t
    · subst hu; simp [hp.2.2, hq.2.2]
    · simp only [update_of_ne hu, wokenPc]
      split <;> simp_all

/-- Everybody asleep on `end_sem` is woken, and `t` moves to an awake position. -/
theorem SemInv.postAllEnd : SemInv { s with
      pc := update (wokenPc s .endAsleep .returning) t p, endSem := initSem 0 } := by
  refine ⟨h.beginBal, h.beginVal, fun u => ?_, countsSleepers_initSem le_rfl, le_rfl, fun u => ?_,
    fun u => ?_⟩
  · rw [h.beginSleep]
    by_cases hu : u = t
    · subst hu; simp [hp.1, hq.1]
    · simp only [update_of_ne hu, wokenPc]
      split <;> simp_all
  · by_cases hu : u = t
    · subst hu; simp [initSem, hp.2.1]
    · simp only [update_of_ne hu, wokenPc, initSem, not_mem_nil, false_iff]
      split <;> simp_all
  · rw [h.beginLock]
    by_cases hu : u = t
    · subst hu; simp [hp.2.2, hq.2.2]
    · simp only [update_of_ne hu, wokenPc]
      split <;> simp_all

end

/-- A sleeper is added to a sleep list whose semaphore has no tokens. -/
theorem countsSleepers_cons {W : Type*} {sem : Semaphore W} (h : CountsSleepers sem) (hv : sem.val ≤ 0) (w : W) :
    CountsSleepers { val := sem.val - 1, sleeplist := w :: sem.sleeplist } := by
  simp only [CountsSleepers, length_cons] at *
  omega

/-- Every move keeps the semaphores in agreement with the threads. -/
theorem moves_semInv (h : SemInv s) (hm : Moves sb s a s') : SemInv s' := by
  cases hm with
  | call hpc => exact h.goto (by simp [hpc, Pc.awake]) (by simp [Pc.awake])
  | @beginBlock t hpc hb hl =>
    refine ⟨h.beginBal, h.beginVal, fun u => ?_, h.endBal, h.endVal, fun u => ?_, fun u => ?_⟩
    · simp only [h.beginSleep, update_apply]
      split <;> simp_all
    · simp only [h.endSleep, update_apply]
      split <;> simp_all
    · -- nobody held the lock before, so nobody stood at `beginWait`
      have hnone : s.pc u ≠ .beginWait := fun e => by simp [(h.beginLock u).mpr e] at hl
      simp only [update_apply]
      split
      · simp_all
      · rename_i hu
        simp [hnone, Ne.symm hu]
  | beginEnter hpc hb =>
    exact (h.goto (by simp [hpc, Pc.awake]) (by simp [Pc.awake]) : SemInv (s.goto _ .running)).frame
      rfl rfl rfl fun u => .inl rfl
  | @beginSleep t hpc =>
    refine ⟨countsSleepers_cons h.beginBal h.beginVal t, ?_, fun u => ?_, h.endBal, h.endVal, fun u => ?_,
      fun u => ?_⟩
    · have := h.beginVal
      simp only; omega
    · simp only [mem_cons, h.beginSleep, update_apply]
      split <;> simp_all
    · simp only [h.endSleep, update_apply]
      split <;> simp_all
    · -- the lock had one holder, and it has just gone to sleep
      have hown : s.beginSemLock = some t := (h.beginLock t).mpr hpc
      have huniq : s.pc u = .beginWait → u = t := fun e => by
        have := (h.beginLock u).mpr e
        rw [hown] at this
        exact (some.inj this).symm
      simp only [update_apply]
      split
      · simp
      · rename_i hu
        simp only [reduceCtorEq, false_iff]
        exact fun e => hu (huniq e)
  | beginWake hpc => exact h.goto (by simp [hpc, Pc.awake]) (by simp [Pc.awake])
  | sync hpc hsync => exact h.frame rfl rfl rfl fun u => .inl rfl
  | endLast hpc hlast =>
    exact (h.goto (by simp [hpc, Pc.awake]) (by simp [Pc.awake]) : SemInv (s.goto _ .commit)).frame
      rfl rfl rfl fun u => .inl rfl
  | @endOther t hpc hlast hl =>
    have := h.postAllBegin (t := t) (p := .endWait) (by simp [hpc, Pc.awake]) (by simp [Pc.awake])
    exact this.frame rfl rfl rfl fun u => .inl rfl
  | @endSleep t hpc =>
    refine ⟨h.beginBal, h.beginVal, fun u => ?_, countsSleepers_cons h.endBal h.endVal t, ?_, fun u => ?_,
      fun u => ?_⟩
    · simp only [h.beginSleep, update_apply]
      split <;> simp_all
    · have := h.endVal
      simp only; omega
    · simp only [mem_cons, h.endSleep, update_apply]
      split <;> simp_all
    · simp only [h.beginLock, update_apply]
      split <;> simp_all
  | commit hpc =>
    exact (h.goto (by simp [hpc, Pc.awake]) (by simp [Pc.awake]) :
      SemInv (s.goto _ .commitDone)).frame rfl rfl rfl fun u => .inl rfl
  | clear hpc =>
    exact (h.goto (by simp [hpc, Pc.awake]) (by simp [Pc.awake]) :
      SemInv (s.goto _ .postBegin)).frame rfl rfl rfl fun u => .inl rfl
  | postBegin hpc hl => exact h.postAllBegin (by simp [hpc, Pc.awake]) (by simp [Pc.awake])
  | postEnd hpc => exact h.postAllEnd (by simp [hpc, Pc.awake]) (by simp [Pc.awake])
  | ret hpc => exact h.goto (by simp [hpc, Pc.awake]) (by simp [Pc.awake])

theorem initial_semInv : SemInv (initial T) := by
  refine ⟨countsSleepers_initSem le_rfl, le_rfl, ?_, countsSleepers_initSem le_rfl, le_rfl, ?_, ?_⟩ <;>
    simp [initial, initSem]

/-! ## The counters of the log -/

section Accounting

variable [Fintype T]

/-- What thread `t` adds to the number of running operations. -/
def runOne (s : State T) (t : T) : Nat := if s.pc t = .running then 1 else 0

/-- What thread `t` adds to the sum of the remaining budgets. -/
def runRm (s : State T) (t : T) : Nat := if s.pc t = .running then (s.ctx t).rm else 0

/-- How many header slots the running operation of thread `t` has filled. -/
def runRec (s : State T) (t : T) : Nat :=
  if s.pc t = .running then (s.ctx t).recorded.length else 0

/-- Between `committing = true` and `committing = false`. -/
def InCommit (s : State T) (t : T) : Prop := s.pc t = .commit ∨ s.pc t = .commitDone

/-- The counters agree with the threads. -/
structure AcctInv (sb : SuperBlock) (s : State T) : Prop where
  committing : s.log.committing = true ↔ ∃ t, InCommit s t
  committer_unique : ∀ t u, InCommit s t → InCommit s u → t = u
  outstanding : s.log.outstanding = ∑ t, runOne s t
  /-- no operation runs during a commit -/
  quiet : s.log.committing = true → s.log.outstanding = 0
  /-- except between the commit and the section that clears the counter -/
  realUse : (∀ t, s.pc t ≠ .commitDone) → s.log.realUse = s.header.numBlocks + ∑ t, runRm s t
  capacity : s.log.realUse ≤ logCapacity sb
  /-- without running operations and without a commit nothing is recorded -/
  drained : s.log.committing = false → s.log.outstanding = 0 → s.header.numBlocks = 0
  cleared : ∀ t, s.pc t = .commitDone → s.header.numBlocks = 0
  budget : ∀ t, s.pc t = .running → (s.ctx t).rm + (s.ctx t).recorded.length = opMaxNumBlocks
  /-- the slots filled by running operations are among the recorded ones -/
  filled : (∑ t, runRec s t) ≤ s.header.numBlocks
  nodup : s.header.recorded.Nodup

section

variable {t : T} (h : AcctInv sb s) (ht : s.pc t = .running)
include h ht

theorem runOne_le_outstanding : 1 ≤ s.log.outstanding := by
  rw [h.outstanding]
  calc 1 = runOne s t := by simp [runOne, ht]
    _ ≤ ∑ t, runOne s t := Finset.single_le_sum (fun _ _ => Nat.zero_le _) (Finset.mem_univ t)

/-- While some operation runs there is no commit. -/
theorem not_committing_of_running : s.log.committing = false := by
  by_contra hc
  have := h.quiet (by simpa using hc)
  have := runOne_le_outstanding h ht
  omega

theorem not_inCommit_of_running (u : T) : ¬ InCommit s u := by
  intro hu
  have := h.committing.mpr ⟨u, hu⟩
  rw [not_committing_of_running h ht] at this
  cases this

end

/-- During a commit no thread runs an operation. -/
theorem not_running_of_committing (h : AcctInv sb s) (hc : s.log.committing = true) (t : T) : s.pc t ≠ .running := by
  intro ht
  rw [not_committing_of_running h ht] at hc
  cases hc

/-- Nothing is counted for a thread that does not run, so moves among such positions leave the
    three sums as they are. -/
theorem sums_frame (hctx : s'.ctx = s.ctx) (hpc : ∀ t, s'.pc t = .running ↔ s.pc t = .running) :
    (∑ t, runOne s' t) = ∑ t, runOne s t ∧ (∑ t, runRm s' t) = ∑ t, runRm s t ∧
      (∑ t, runRec s' t) = ∑ t, runRec s t := by
  refine ⟨Finset.sum_congr rfl fun t _ => ?_, Finset.sum_congr rfl fun t _ => ?_,
    Finset.sum_congr rfl fun t _ => ?_⟩
  · simp [runOne, hpc]
  · simp [runRm, hpc, hctx]
  · simp [runRec, hpc, hctx]

/-- Without running operations all three sums are `0`. -/
theorem sums_zero (hpc : ∀ t, s.pc t ≠ .running) :
    (∑ t, runOne s t) = 0 ∧ (∑ t, runRm s t) = 0 ∧ (∑ t, runRec s t) = 0 := by
  refine ⟨?_, ?_, ?_⟩ <;> refine Finset.sum_eq_zero fun t _ => ?_
  · simp [runOne, hpc]
  · simp [runRm, hpc]
  · simp [runRec, hpc]

/-- One thread moves: each sum changes by that thread's contribution. -/
theorem sums_move (s s' : State T) (t : T) (hpc : ∀ u, u ≠ t → (s'.pc u = .running ↔ s.pc u = .running))
    (hctx : ∀ u, u ≠ t → s'.ctx u = s.ctx u) :
    (∑ u, runOne s' u) + runOne s t = (∑ u, runOne s u) + runOne s' t ∧
    (∑ u, runRm s' u) + runRm s t = (∑ u, runRm s u) + runRm s' t ∧
    (∑ u, runRec s' u) + runRec s t = (∑ u, runRec s u) + runRec s' t := by
  refine ⟨sum_off_one t fun u hu => ?_, sum_off_one t fun u hu => ?_, sum_off_one t fun u hu => ?_⟩
  · simp [runOne, hpc u hu]
  · simp [runRm, hpc u hu, hctx u hu]
  · simp [runRec, hpc u hu, hctx u hu]

section

variable (h : AcctInv sb s)
include h

/-- Every running operation occupies ten slots, reserved or filled, so at most six run. -/
theorem outstanding_le : opMaxNumBlocks * s.log.outstanding ≤ logMaxSize := by
  by_cases hc : s.log.committing = true
  · rw [h.quiet hc]; simp
  · have hdone : ∀ t, s.pc t ≠ .commitDone := fun t ht => hc (h.committing.mpr ⟨t, .inr ht⟩)
    have hsum : ∑ t, opMaxNumBlocks * runOne s t = ∑ t, (runRm s t + runRec s t) := by
      refine Finset.sum_congr rfl fun t _ => ?_
      by_cases ht : s.pc t = .running
      · have := h.budget t ht
        simp only [runOne, runRm, runRec, if_pos ht]
        omega
      · simp [runOne, runRm, runRec, ht]
    rw [← Finset.mul_sum, Finset.sum_add_distrib, ← h.outstanding] at hsum
    have h1 := h.realUse hdone
    have h2 := h.filled
    have h3 := h.capacity
    have h4 := logCapacity_le sb
    omega

/-- A move that changes neither the counters nor the header, starts or ends no operation and
    neither enters nor leaves a commit keeps the accounting. -/
theorem AcctInv.frame (hlog : s'.log = s.log) (hheader : s'.header = s.header) (hctx : s'.ctx = s.ctx)
    (hpc : ∀ u, s'.pc u = s.pc u ∨ ((s.pc u ≠ .running ∧ ¬ InCommit s u) ∧ (s'.pc u ≠ .running ∧ ¬ InCommit s' u))) :
    AcctInv sb s' := by
  have hrun : ∀ u, s'.pc u = .running ↔ s.pc u = .running := by
    intro u
    rcases hpc u with hu | ⟨h1, h2⟩
    · rw [hu]
    · exact ⟨fun e => absurd e h2.1, fun e => absurd e h1.1⟩
  have hcom : ∀ u, InCommit s' u ↔ InCommit s u := by
    intro u
    rcases hpc u with hu | ⟨h1, h2⟩
    · unfold InCommit; rw [hu]
    · exact ⟨fun e => absurd e h2.2, fun e => absurd e h1.2⟩
  have hdone : ∀ u, s'.pc u = .commitDone ↔ s.pc u = .commitDone := by
    intro u
    rcases hpc u with hu | ⟨h1, h2⟩
    · rw [hu]
    · exact ⟨fun e => absurd (.inr e) h2.2, fun e => absurd (.inr e) h1.2⟩
  obtain ⟨hone, hrm, hrec⟩ := sums_frame hctx hrun
  refine ⟨?_, ?_, ?_, ?_, ?_, ?_, ?_, ?_, ?_, ?_, ?_⟩
  · simp only [hlog, hcom]; exact h.committing
  · simp only [hcom]; exact h.committer_unique
  · rw [hlog, hone]; exact h.outstanding
  · rw [hlog]; exact h.quiet
  · simp only [hlog, hheader, hrm, Ne, hdone]; exact h.realUse
  · rw [hlog]; exact h.capacity
  · rw [hlog, hheader]; exact h.drained
  · simp only [hheader, hdone]; exact h.cleared
  · simp only [hctx, hrun]; exact h.budget
  · rw [hheader, hrec]; exact h.filled
  · rw [hheader]; exact h.nodup

/-- The move of one thread between positions that the accounting does not see. -/
theorem AcctInv.goto {t : T} (hq : s.pc t ≠ .running ∧ ¬ InCommit s t)
    (hp : p ≠ .running ∧ p ≠ .commit ∧ p ≠ .commitDone) : AcctInv sb (s.goto t p) := by
  refine h.frame rfl rfl rfl fun u => ?_
  by_cases hu : u = t
  · subst hu
    exact .inr ⟨hq, by simpa [InCommit] using hp⟩
  · exact .inl (goto_pc_of_ne s p hu)

/-- A post moves sleepers, and one poster, between positions that the accounting does not see. -/
theorem AcctInv.woken {t : T} {q r : Pc}
    (hlog : s'.log = s.log) (hheader : s'.header = s.header) (hctx : s'.ctx = s.ctx)
    (hpc : s'.pc = update (wokenPc s q r) t p) (ht : s.pc t ≠ .running ∧ ¬ InCommit s t)
    (hp : p ≠ .running ∧ p ≠ .commit ∧ p ≠ .commitDone) (hq : q ≠ .running ∧ q ≠ .commit ∧ q ≠ .commitDone)
    (hr : r ≠ .running ∧ r ≠ .commit ∧ r ≠ .commitDone) : AcctInv sb s' := by
  refine h.frame hlog hheader hctx fun u => ?_
  by_cases hu : u = t
  · subst hu
    exact .inr ⟨ht, by simpa [InCommit, hpc] using hp⟩
  · by_cases huq : s.pc u = q
    · refine .inr ⟨by simpa [InCommit, huq] using hq, ?_⟩
      simpa [InCommit, hpc, hu, wokenPc, huq] using hr
    · exact .inl (by simp [hpc, hu, wokenPc, huq])

/-- `endSection` without wrap-around. -/
theorem endSection_eq {t : T} (ht : s.pc t = .running) : endSection s.log (s.ctx t).rm =
      { outstanding := s.log.outstanding - 1
        committing := decide (s.log.outstanding - 1 = 0)
        realUse := s.log.realUse - (s.ctx t).rm } := by
  have hout := runOne_le_outstanding h ht
  have hcom := not_committing_of_running h ht
  have hdone : ∀ u, s.pc u ≠ .commitDone := fun u hu => not_inCommit_of_running h ht u (.inr hu)
  have hrm : (s.ctx t).rm ≤ s.log.realUse := by
    rw [h.realUse hdone]
    calc (s.ctx t).rm = runRm s t := by simp [runRm, ht]
      _ ≤ ∑ u, runRm s u := Finset.single_le_sum (fun _ _ => Nat.zero_le _) (Finset.mem_univ t)
      _ ≤ _ := Nat.le_add_left _ _
  simp only [endSection, subU32_of_le hout, subU32_of_le hrm]
  split <;> simp_all

section

variable {t : T} (hctx : ∀ u, u ≠ t → s'.ctx u = s.ctx u)
include hctx

/-- `cache_begin_op` takes ten slots. -/
theorem acctInv_beginEnter (ht : s.pc t ≠ .running) (hb : beginBlocked sb s.log = false)
    (hpc : s'.pc = update s.pc t .running) (hlog : s'.log = beginSection s.log)
    (hheader : s'.header = s.header) (hrm : (s'.ctx t).rm = opMaxNumBlocks)
    (hrec : (s'.ctx t).recorded = []) : AcctInv sb s' := by
  obtain ⟨hcom, hcap⟩ := beginBlocked_eq_false.mp hb
  have hcapmax := logCapacity_le sb
  have hout := outstanding_le h
  have huse := h.capacity
  simp only [logMaxSize, blockSize, opMaxNumBlocks] at hcapmax hout hcap hrm
  have hno : ∀ u, ¬ InCommit s u := fun u hu => by
    rw [h.committing.mpr ⟨u, hu⟩] at hcom; cases hcom
  have hno' : ∀ u, ¬ InCommit s' u := by
    intro u
    by_cases hu : u = t
    · subst hu; simp [InCommit, hpc]
    · simpa [InCommit, hpc, hu] using hno u
  have huse' : s'.log.realUse = s.log.realUse + 10 := by
    rw [hlog]; exact addU32_of_lt (by simp only [opMaxNumBlocks]; omega)
  have hout' : s'.log.outstanding = s.log.outstanding + 1 := by
    rw [hlog]; exact addU32_of_lt (by omega)
  have hcom' : s'.log.committing = false := by rw [hlog]; exact hcom
  obtain ⟨hone, hsum, hfill⟩ := sums_move s s' t
    (fun u hu => by simp [hpc, hu]) hctx
  simp only [runOne, runRm, runRec, if_neg ht, hpc, update_self, if_true, hrm, hrec,
    length_nil] at hone hsum hfill
  refine ⟨?_, fun u v hu => absurd hu (hno' u), ?_, ?_, fun _ => ?_, ?_, ?_, ?_, ?_, ?_, ?_⟩
  · simp [hcom', hno']
  · have := h.outstanding
    unfold runOne at this ⊢
    simp only [hpc] at hone ⊢
    omega
  · simp [hcom']
  · have := h.realUse fun u hu => hno u (.inr hu)
    unfold runRm at this ⊢
    simp only [hpc, hheader] at hsum ⊢
    omega
  · have : addU32 s.log.realUse 10 = s.log.realUse + 10 := addU32_of_lt (by omega)
    omega
  · intro _ h0; omega
  · intro u hu; exact absurd (.inr hu) (hno' u)
  · intro u hu
    by_cases hut : u = t
    · subst hut; simp [hrm, hrec]
    · rw [hctx u hut]
      exact h.budget u (by simpa [hpc, hut] using hu)
  · have := h.filled
    unfold runRec at this ⊢
    simp only [hpc, hheader] at hfill ⊢
    omega
  · rw [hheader]; exact h.nodup

/-- `cache_sync` pays one unit of its operation's budget for each slot it fills. -/
theorem acctInv_sync {b rm' : Nat} {h' : LogHeader} (ht : s.pc t = .running)
    (hsync : syncSection s.header (s.ctx t).rm b = some (h', rm')) (hpc : s'.pc = s.pc)
    (hlog : s'.log = s.log) (hheader : s'.header = h') (hrm : (s'.ctx t).rm = rm')
    (hrec : (s'.ctx t).recorded = if b ∈ s.header.recorded then (s.ctx t).recorded else b :: (s.ctx t).recorded) :
    AcctInv sb s' := by
  have hcom := not_committing_of_running h ht
  have hno := not_inCommit_of_running h ht
  have hno' : ∀ u, ¬ InCommit s' u := by simpa [InCommit, hpc] using hno
  have hout := runOne_le_outstanding h ht
  obtain ⟨hone, hsum, hfill⟩ := sums_move s s' t (fun u _ => by rw [hpc]) hctx
  simp only [runOne, runRm, runRec, hpc, if_pos ht, hrm] at hone hsum hfill
  have hbud := h.budget t ht
  have huse := h.realUse fun u hu => hno u (.inr hu)
  have hfilled := h.filled
  have houts := h.outstanding
  unfold runOne at houts
  unfold runRm at huse
  unfold runRec at hfilled
  -- the two ways a sync can go move one unit from the budget to the header, or none
  have key : h'.numBlocks + rm' = s.header.numBlocks + (s.ctx t).rm ∧
      (s'.ctx t).recorded.length + s.header.numBlocks
        = (s.ctx t).recorded.length + h'.numBlocks ∧ h'.recorded.Nodup := by
    rcases syncSection_spec hsync with ⟨hb, rfl, rfl⟩ | ⟨hb, hrm1, hnum, hlist⟩
    · refine ⟨rfl, ?_, h.nodup⟩
      rw [hrec, if_pos hb]
    · refine ⟨by omega, ?_, ?_⟩
      · rw [hrec, if_neg hb, length_cons]; omega
      · rw [hlist, nodup_append]
        refine ⟨h.nodup, nodup_singleton b, ?_⟩
        intro x hx y hy hxy
        rw [mem_singleton] at hy
        exact hb (hy ▸ hxy ▸ hx)
  obtain ⟨k1, k2, k3⟩ := key
  refine ⟨?_, fun u v hu => absurd hu (hno' u), ?_, ?_, fun _ => ?_, ?_, ?_, ?_, ?_, ?_, ?_⟩
  · simp [hlog, hcom, hno']
  · unfold runOne
    simp only [hlog, hpc]
    omega
  · simp [hlog, hcom]
  · unfold runRm
    simp only [hlog, hheader, hpc] at hsum ⊢
    omega
  · rw [hlog]; exact h.capacity
  · intro _ h0
    rw [hlog] at h0
    omega
  · intro u hu; exact absurd (.inr hu) (hno' u)
  · intro u hu
    rw [hpc] at hu
    by_cases hut : u = t
    · subst hut; rw [hrm]; omega
    · rw [hctx u hut]; exact h.budget u hu
  · unfold runRec
    simp only [hheader, hpc] at hfill ⊢
    omega
  · rw [hheader]; exact k3

/-- The head of `cache_end_op` gives the unused budget back; the last operation starts the
    commit.  `p` is where the thread goes. -/
theorem acctInv_endOp (ht : s.pc t = .running) (hlog : s'.log = endSection s.log (s.ctx t).rm)
    (hp : p = if s.log.outstanding - 1 = 0 then .commit else .endWait) (hpct : s'.pc t = p)
    (hpc : ∀ u, u ≠ t → (s'.pc u = .running ↔ s.pc u = .running) ∧ ¬ InCommit s' u)
    (hheader : s'.header = s.header) : AcctInv sb s' := by
  have hno := not_inCommit_of_running h ht
  have hlog' := hlog.trans (endSection_eq h ht)
  have hpne : p ≠ .running ∧ p ≠ .commitDone := by rw [hp]; split <;> simp
  have huse := h.realUse fun u hu => hno u (.inr hu)
  have hfilled := h.filled
  have houts := h.outstanding
  obtain ⟨hone, hsum, hfill⟩ := sums_move s s' t (fun u hu => (hpc u hu).1) hctx
  have hone_t : runOne s t = 1 ∧ runOne s' t = 0 := by simp [runOne, ht, hpct, hpne.1]
  have hsum_t : runRm s t = (s.ctx t).rm ∧ runRm s' t = 0 := by simp [runRm, ht, hpct, hpne.1]
  have hfill_t : runRec s' t = 0 := by simp [runRec, hpct, hpne.1]
  have hin : ∀ u, InCommit s' u ↔ u = t ∧ s.log.outstanding - 1 = 0 := by
    intro u
    by_cases hu : u = t
    · subst hu
      simp only [InCommit, hpct, hpne.2, or_false, true_and]
      rw [hp]
      split <;> simp_all
    · simp [hu, (hpc u hu).2]
  have hdone : ∀ u, s'.pc u ≠ .commitDone := by
    intro u hu
    obtain ⟨rfl, _⟩ := (hin u).mp (.inr hu)
    exact hpne.2 (hpct ▸ hu)
  refine ⟨?_, ?_, ?_, ?_, fun _ => ?_, ?_, ?_, ?_, ?_, ?_, ?_⟩
  · rw [hlog']
    simp [hin]
  · intro u v hu hv
    rw [((hin u).mp hu).1, ((hin v).mp hv).1]
  · rw [hlog']
    simp only
    omega
  · rw [hlog']
    simp
  · rw [hlog', hheader]
    simp only
    omega
  · rw [hlog']
    have := h.capacity
    simp only
    omega
  · rw [hlog']
    simp only [decide_eq_false_iff_not]
    intro h1 h2
    exact absurd h2 h1
  · intro u hu; exact absurd hu (hdone u)
  · intro u hu
    by_cases hut : u = t
    · subst hut
      exact absurd (hpct ▸ hu) hpne.1
    · rw [hctx u hut]
      exact h.budget u (((hpc u hut).1).mp hu)
  · rw [hheader]; omega
  · rw [hheader]; exact h.nodup

end

/-- The commit empties the header; no operation runs meanwhile. -/
theorem acctInv_commit {t : T} (ht : s.pc t = .commit) : AcctInv sb (commitOp s t) := by
  have hcom : s.log.committing = true := h.committing.mpr ⟨t, .inl ht⟩
  have hrun := not_running_of_committing h hcom
  have hrun' : ∀ u, (commitOp s t).pc u ≠ .running := by
    intro u
    by_cases hu : u = t
    · subst hu; simp [commitOp]
    · simpa [commitOp, goto_pc_of_ne s _ hu] using hrun u
  obtain ⟨hone, hsum, hfill⟩ := sums_zero hrun'
  have hin : ∀ u, InCommit (commitOp s t) u ↔ InCommit s u := by
    intro u
    by_cases hu : u = t
    · subst hu; simp [commitOp, InCommit, ht]
    · simp [commitOp, InCommit, goto_pc_of_ne s _ hu]
  refine ⟨?_, ?_, ?_, h.quiet, fun hd => ?_, h.capacity, fun _ _ => rfl, fun _ _ => rfl,
    fun u hu => absurd hu (hrun' u), ?_, ?_⟩
  · simp only [hin]; exact h.committing
  · simp only [hin]; exact h.committer_unique
  · rw [hone]; exact h.quiet hcom
  · exact absurd (by simp [commitOp]) (hd t)
  · rw [hfill]; exact Nat.zero_le _
  · simp [commitOp, LogHeader.recorded]

/-- The section after the commit clears the counters. -/
theorem acctInv_clear {t : T} (ht : s.pc t = .commitDone) (hlog : s'.log = clearSection s.log)
    (hpc : s'.pc = update s.pc t .postBegin) (hheader : s'.header = s.header) : AcctInv sb s' := by
  have hcom : s.log.committing = true := h.committing.mpr ⟨t, .inr ht⟩
  have hnum := h.cleared t ht
  have hrun := not_running_of_committing h hcom
  have hrun' : ∀ u, s'.pc u ≠ .running := by
    intro u
    by_cases hu : u = t
    · subst hu; simp [hpc]
    · simpa [hpc, hu] using hrun u
  have hno : ∀ u, ¬ InCommit s' u := by
    intro u
    by_cases hu : u = t
    · subst hu; simp [InCommit, hpc]
    · intro hin
      exact hu (h.committer_unique u t (by simpa [InCommit, hpc, hu] using hin) (.inr ht))
  obtain ⟨hone, hsum, hfill⟩ := sums_zero hrun'
  have hlog0 : s'.log.outstanding = 0 := by rw [hlog]; exact h.quiet hcom
  refine ⟨?_, fun u v hu => absurd hu (hno u), ?_, ?_, fun _ => ?_, ?_, ?_, ?_,
    fun u hu => absurd hu (hrun' u), ?_, ?_⟩
  · simp [hlog, clearSection, hno]
  · rw [hone, hlog0]
  · simp [hlog, clearSection]
  · rw [hsum, hheader, hnum, hlog]; rfl
  · rw [hlog]; exact Nat.zero_le _
  · intro _ _; rw [hheader]; exact hnum
  · intro u hu; exact absurd (.inr hu) (hno u)
  · rw [hfill]; exact Nat.zero_le _
  · rw [hheader]; exact h.nodup

/-- Every move keeps the accounting. -/
theorem moves_acctInv (hm : Moves sb s a s') : AcctInv sb s' := by
  cases hm with
  | call hpc => exact h.goto (by simp [hpc, InCommit]) (by simp)
  | beginBlock hpc hb hl =>
    exact (h.goto (by simp [hpc, InCommit]) (by simp) : AcctInv sb (s.goto _ .beginWait)).frame
      rfl rfl rfl fun u => .inl rfl
  | @beginEnter t hpc hb =>
    exact acctInv_beginEnter h (fun u hu => by simp [hu]) (by simp [hpc]) hb rfl rfl rfl (by simp) (by simp)
  | beginSleep hpc =>
    exact (h.goto (by simp [hpc, InCommit]) (by simp) : AcctInv sb (s.goto _ .beginAsleep)).frame
      rfl rfl rfl fun u => .inl rfl
  | beginWake hpc => exact h.goto (by simp [hpc, InCommit]) (by simp)
  | sync hpc hsync =>
    exact acctInv_sync h (fun u hu => by simp [hu]) hpc hsync rfl rfl rfl (by simp) (by simp)
  | @endLast t hpc hlast =>
    rw [endSection_eq h hpc] at hlast
    refine acctInv_endOp h (fun u hu => by simp [hu]) hpc rfl (if_pos hlast).symm (by simp) (fun u hu => ?_) rfl
    simpa [hu, InCommit] using not_inCommit_of_running h hpc u
  | @endOther t hpc hlast hl =>
    rw [endSection_eq h hpc] at hlast
    refine acctInv_endOp h (fun u hu => by simp [hu]) hpc rfl (if_neg hlast).symm (by simp) (fun u hu => ?_) rfl
    have := not_inCommit_of_running h hpc u
    by_cases hua : s.pc u = .beginAsleep
    · simp [hu, InCommit, wokenPc, hua]
    · simpa [hu, InCommit, wokenPc, hua] using this
  | endSleep hpc =>
    exact (h.goto (by simp [hpc, InCommit]) (by simp) : AcctInv sb (s.goto _ .endAsleep)).frame
      rfl rfl rfl fun u => .inl rfl
  | commit hpc => exact acctInv_commit h hpc
  | clear hpc => exact acctInv_clear h hpc rfl rfl rfl
  | postBegin hpc hl =>
    exact h.woken rfl rfl rfl rfl (by simp [hpc, InCommit]) (by simp) (by simp) (by simp)
  | postEnd hpc =>
    exact h.woken rfl rfl rfl rfl (by simp [hpc, InCommit]) (by simp) (by simp) (by simp)
  | ret hpc => exact h.goto (by simp [hpc, InCommit]) (by simp)

end

theorem initial_acctInv : AcctInv sb (initial T) := by
  obtain ⟨hone, hsum, hfill⟩ := sums_zero (s := initial T) (by simp [initial])
  refine ⟨?_, ?_, hone.symm, fun _ => rfl, fun _ => by rw [hsum]; rfl, Nat.zero_le _, fun _ _ => rfl,
    fun _ _ => rfl, ?_, by rw [hfill]; exact Nat.zero_le _, ?_⟩ <;>
  simp [initial, initLog, InCommit, LogHeader.recorded]

end Accounting

/-- **The invariant of every run**: the semaphores and the counters of the log agree with the
    threads in every state any interleaving reaches. -/
structure Inv (sb : SuperBlock) [Fintype T] (s : State T) : Prop where
  sem : SemInv s
  acct : AcctInv sb s

theorem initial_inv [Fintype T]  : Inv sb (initial T) :=
  ⟨initial_semInv, initial_acctInv⟩

theorem step_inv [Fintype T] (h : Inv sb s) (hs : step sb s a = some s') : Inv sb s' :=
  ⟨moves_semInv h.sem (step_moves h.sem hs), moves_acctInv h.acct (step_moves h.sem hs)⟩

theorem reachable_inv [Fintype T] {as : List (Act T)} (hrun : run (step sb) (initial T) as = some s) : Inv sb s :=
  run_invariant_all (fun _ _ _ h hs => step_inv h hs) as (initial T) s initial_inv hrun

end Armv8Os.LogThreads
