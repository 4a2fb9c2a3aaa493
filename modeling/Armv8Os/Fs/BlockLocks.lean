/-
  `cache_acquire` and `cache_release` of `fs/cache.c` run by any number of threads.

  A move of `step` is one section under `LRUcache.lock`, or one semaphore operation.  `cache_acquire`
  takes the spinlock of the block's semaphore BEFORE it gives up `LRUcache.lock` and holds it up to
  `--val`, so between the search and the wait a thread is `locked`, and a section that needs the same
  spinlock is not enabled.  A `Block *` is a pointer of its own type `P`: `kalloc` picks any pointer that
  is not allocated, freed ones included, so a stale pointer would be noticed.  A thread may hold
  several blocks, also while it acquires another one.

  The flag `acquired` is what keeps a block from being evicted.  It is meant to say that somebody holds the
  block or waits for it, but `cache_release` clears it by looking at the semaphore's value.  The
  invariant (`BlockOk`) ties the flag, the value, the sleep list and the threads' program counters
  together:

  1. each step changes at most one block and the threads' relation to it, so only that block has to be
     checked again (`Inv.change`);
  2. the value is 1 minus the owner minus the sleepers, hence `val >= 0` in `cache_release` means that
     nobody else is waiting, and nobody can be on the way: the spinlock is free;
  3. `block_lock_exclusion` is the result for all runs;
  4. a miss looks at the last block only: `block_cache_small` bounds the list as long as nothing keeps that one.
-/
import Armv8Os.Lib.Transition
import Armv8Os.Common.Sem
import Armv8Os.Fs.Defines

set_option linter.unusedSectionVars false

namespace Armv8Os.Fs.BlockLocks

open Sem Transition List Option
open Function (update update_of_ne update_self update_apply update_eq_self)

variable {T P : Type*} [DecidableEq T] [DecidableEq P]

/-! ## The system -/

/-- `Block` without its data; `spin` is the thread that has the spinlock of `lock`. -/
structure Block (T : Type*) where
  blockNo : Nat
  acquired : Bool
  pinned : Bool
  valid : Bool
  lock : Semaphore T
  spin : Option T

/-- Where a thread is in `cache_acquire`, with the block it has found (or, on a miss, made). -/
inductive Pc (P : Type*) where
  | idle
  /-- past the search, about to do `--val` -/
  | locked (p : P) (miss : Bool)
  | asleep (p : P) (miss : Bool)
  /-- a post has set `up` -/
  | woken (p : P) (miss : Bool)
  /-- past the wait -/
  | passed (p : P) (miss : Bool)
  /-- the block of a miss has been read from the device -/
  | read (p : P)
  deriving DecidableEq

structure Thread (P : Type*) where
  pc : Pc P
  /-- acquired and not yet released -/
  held : List P

/-- `LRUcache`, the allocated blocks and the threads. -/
structure State (T P : Type*) where
  lru : List P
  size : Nat
  capacity : Nat
  blocks : P → Option (Block T)
  threads : T → Thread P

/-- `init_LRUcache`, and no thread has called anything. -/
def initLRUcache : State T P :=
  { lru := [], size := 0, capacity := evictionThreshold, blocks := fun _ => none,
    threads := fun _ => { pc := .idle, held := [] } }

inductive Act (T P : Type*) where
  /-- the search; `p` is what `kalloc` returns on a miss -/
  | search (t : T) (b : Nat) (p : P)
  | wait (t : T)
  | resume (t : T)
  | relist (t : T)
  | read (t : T)
  | evict (t : T)
  | release (t : T) (p : P)
  /-- the holder sets or clears `pinned` -/
  | pin (t : T) (p : P) (v : Bool)
  deriving Repr

def State.setBlock (s : State T P) (p : P) (B : Block T) : State T P :=
  { s with blocks := update s.blocks p (some B) }

def State.setThread (s : State T P) (t : T) (th : Thread P) : State T P :=
  { s with threads := update s.threads t th }

def State.setPc (s : State T P) (t : T) (pc : Pc P) : State T P :=
  s.setThread t { s.threads t with pc := pc }

/-- Return from `cache_acquire` with the block. -/
def State.hold (s : State T P) (t : T) (p : P) : State T P :=
  s.setThread t { pc := .idle, held := p :: (s.threads t).held }

/-- `init_block` with what the miss then sets; `_lock_sem` comes with it. -/
def newBlock (b : Nat) (t : T) : Block T :=
  { blockNo := b, acquired := true, pinned := false, valid := false, lock := initSem 1, spin := some t }

/-- The loop over the list. -/
def State.find (s : State T P) (b : Nat) : Option P :=
  s.lru.find? fun p => (s.blocks p).map Block.blockNo = some b

/-- The end of a miss: the last block goes if the cache is too large and nothing keeps the block. -/
def State.evictLast (s : State T P) : State T P :=
  if s.capacity < s.size then
    match s.lru.getLast? with
    | none => s
    | some q =>
      match s.blocks q with
      | none => s
      | some B =>
        if !B.pinned && !B.acquired then
          { s with
            lru := s.lru.dropLast, size := s.size - 1, blocks := update s.blocks q none }
        else s
  else s

/-- `wait->up = true` of the waiter a post has taken off the list. -/
def State.wake (s : State T P) (w : T) : State T P :=
  match (s.threads w).pc with
  | .asleep p miss => s.setPc w (.woken p miss)
  | _ => s

/-- One section of one thread. -/
def step (s : State T P) : Act T P → Option (State T P)
  | .search t b p =>
    if (s.threads t).pc = .idle then
      match s.find b with
      | some q =>
        match s.blocks q with
        | some B =>
          if B.spin = none then
            some ((s.setBlock q { B with acquired := true, spin := some t }).setPc t (.locked q false))
          else none
        | none => none
      | none =>
        if s.blocks p = none then
          some ({ s.setBlock p (newBlock b t) with lru := p :: s.lru, size := s.size + 1 }.setPc t
            (.locked p true))
        else none
    else none
  | .wait t =>
    match (s.threads t).pc with
    | .locked p miss =>
      (s.blocks p).map fun B =>
        (s.setBlock p { B with lock := (waitSem B.lock t).2, spin := none }).setPc t
          (if (waitSem B.lock t).1 then .passed p miss else .asleep p miss)
    | _ => none
  | .resume t =>
    match (s.threads t).pc with
    | .woken p miss => some (s.setPc t (.passed p miss))
    | _ => none
  | .relist t =>
    match (s.threads t).pc with
    | .passed p false =>
      (s.blocks p).map fun B =>
        { s.setBlock p { B with acquired := true } with lru := p :: s.lru.erase p }.hold t p
    | _ => none
  | .read t =>
    match (s.threads t).pc with
    | .passed p true =>
      (s.blocks p).map fun B => (s.setBlock p { B with valid := true }).setPc t (.read p)
    | _ => none
  | .evict t =>
    match (s.threads t).pc with
    | .read p => some (s.evictLast.hold t p)
    | _ => none
  | .release t p =>
    if (s.threads t).pc = .idle ∧ p ∈ (s.threads t).held then
      (s.blocks p).bind fun B =>
        if B.spin = none then
          (postSem B.lock).map fun r =>
            let s' := (s.setBlock p { B with
                acquired := if 0 ≤ querySem B.lock then false else B.acquired, lock := r.2 }).setThread t
              { s.threads t with held := (s.threads t).held.erase p }
            match r.1 with
            | none => s'
            | some w => s'.wake w
        else none
    else none
  | .pin t p v =>
    if (s.threads t).pc = .idle ∧ p ∈ (s.threads t).held then
      (s.blocks p).map fun B => s.setBlock p { B with pinned := v }
    else none

/-! ## The invariant -/

/-- The block whose spinlock the thread has. -/
@[simp] def Pc.locks : Pc P → Option P
  | .locked p _ => some p
  | _ => none

/-- The block the thread sleeps on. -/
@[simp] def Pc.sleeps : Pc P → Option P
  | .asleep p _ => some p
  | _ => none

/-- The block the thread has got but not yet returned. -/
@[simp] def Pc.owns : Pc P → Option P
  | .woken p _ | .passed p _ | .read p => some p
  | _ => none

/-- The thread has the block's token: from the hand-off in a post, or from `--val`, to its release. -/
def Thread.Owns (th : Thread P) (p : P) : Prop := th.pc.owns = some p ∨ p ∈ th.held

/-- The thread holds the block, waits for it, or is about to. -/
def Thread.Uses (th : Thread P) (p : P) : Prop :=
  th.pc.locks = some p ∨ th.pc.sleeps = some p ∨ th.Owns p

/-- The thread has the block once. -/
def Thread.Once (th : Thread P) (p : P) : Prop :=
  th.held.count p ≤ 1 ∧ (th.pc.owns = some p → p ∉ th.held)

/-- One block and the threads. -/
structure BlockOk (threads : T → Thread P) (p : P) (B : Block T) : Prop where
  counts : CountsSleepers B.lock
  nodup : B.lock.sleeplist.Nodup
  sleepers : ∀ t, t ∈ B.lock.sleeplist ↔ (threads t).pc.sleeps = some p
  spin : ∀ t, B.spin = some t ↔ (threads t).pc.locks = some p
  one : ∀ t t', (threads t).Owns p → (threads t').Owns p → t = t'
  token : B.lock.val ≤ 1 ∧ ((∃ t, (threads t).Owns p) ↔ B.lock.val ≤ 0)
  flag : ∀ t, (threads t).Uses p → B.acquired = true
  once : ∀ t, (threads t).Once p

/-- What every section keeps. -/
structure Inv (s : State T P) : Prop where
  nodup : s.lru.Nodup
  size : s.size = s.lru.length
  allocated : ∀ p, s.blocks p ≠ none ↔ p ∈ s.lru
  names : ∀ p q B C, s.blocks p = some B → s.blocks q = some C → B.blockNo = C.blockNo → p = q
  block : ∀ p B, s.blocks p = some B → BlockOk s.threads p B
  live : ∀ t p, (s.threads t).Uses p → s.blocks p ≠ none

/-! ## What a step leaves alone -/

/-- Two states of a thread that are the same to the block `q`. -/
structure SameOn (q : P) (th th' : Thread P) : Prop where
  locks : th'.pc.locks = some q ↔ th.pc.locks = some q
  sleeps : th'.pc.sleeps = some q ↔ th.pc.sleeps = some q
  owns : th'.Owns q ↔ th.Owns q
  once : th.Once q → th'.Once q

theorem SameOn.refl (q : P) (th : Thread P) : SameOn q th th :=
  ⟨Iff.rfl, Iff.rfl, Iff.rfl, id⟩

variable {th : Thread P} {q : P}

theorem SameOn.uses {th' : Thread P} (h : SameOn q th th') : th'.Uses q ↔ th.Uses q := by
  unfold Thread.Uses
  rw [h.locks, h.sleeps, h.owns]

/-- The program counter speaks of no block but `p`. -/
def Pc.About (pc : Pc P) (p : P) : Prop :=
  ∀ q, pc.locks = some q ∨ pc.sleeps = some q ∨ pc.owns = some q → q = p

variable {p : P}

/-- A thread that is only concerned with `p` is the same to every other block. -/
theorem SameOn.of_about {th' : Thread P} (h : th.pc.About p) (h' : th'.pc.About p)
    (hheld : th'.held.count q = th.held.count q) (hne : q ≠ p) : SameOn q th th' := by
  have hmem : q ∈ th'.held ↔ q ∈ th.held := by
    rw [← count_pos_iff, ← count_pos_iff, hheld]
  have hno : ∀ {pc : Pc P}, pc.About p →
      pc.locks ≠ some q ∧ pc.sleeps ≠ some q ∧ pc.owns ≠ some q := fun ha =>
    ⟨fun h => hne (ha q (.inl h)), fun h => hne (ha q (.inr (.inl h))),
      fun h => hne (ha q (.inr (.inr h)))⟩
  obtain ⟨hl, hs, ho⟩ := hno h
  obtain ⟨hl', hs', ho'⟩ := hno h'
  refine ⟨iff_of_false hl' hl, iff_of_false hs' hs, ?_, fun hone => ⟨hheld ▸ hone.1, fun h => absurd h ho'⟩⟩
  unfold Thread.Owns
  rw [hmem]
  exact ⟨.imp_left fun h => absurd h ho', .imp_left fun h => absurd h ho⟩

variable {threads : T → Thread P} {B : Block T} {B' : Block T}

/-- A block stays in order when the threads are the same to it. -/
theorem BlockOk.same {threads' : T → Thread P}
    (h : BlockOk threads p B) (hsame : ∀ t, SameOn p (threads t) (threads' t))
    (hlock : B'.lock = B.lock) (hspin : B'.spin = B.spin)
    (hflag : B.acquired = true → B'.acquired = true) : BlockOk threads' p B' where
  counts := by rw [hlock]; exact h.counts
  nodup := by rw [hlock]; exact h.nodup
  sleepers t := by rw [hlock, (hsame t).sleeps]; exact h.sleepers t
  spin t := by rw [hspin, (hsame t).locks]; exact h.spin t
  one t t' ht ht' := h.one t t' ((hsame t).owns.mp ht) ((hsame t').owns.mp ht')
  token := by
    rw [hlock]
    exact ⟨h.token.1, (exists_congr fun t => (hsame t).owns).trans h.token.2⟩
  flag t ht := hflag (h.flag t ((hsame t).uses.mp ht))
  once t := (hsame t).once (h.once t)

variable {s s' : State T P}

/-- A section that works on the block `p` has to be checked there only. -/
theorem Inv.change (h : Inv s) (hblocks : s'.blocks = update s.blocks p (some B))
    (hsame : ∀ q, q ≠ p → ∀ t, SameOn q (s.threads t) (s'.threads t))
    (hname : ∀ q C, q ≠ p → s.blocks q = some C → C.blockNo ≠ B.blockNo)
    (hok : BlockOk s'.threads p B) (hnodup : s'.lru.Nodup) (hsize : s'.size = s'.lru.length)
    (hmem : ∀ q, q ∈ s'.lru ↔ q = p ∨ q ∈ s.lru) : Inv s' := by
  have hself : s'.blocks p = some B := by rw [hblocks, update_self]
  have hother : ∀ q, q ≠ p → s'.blocks q = s.blocks q := fun q hq => by
    rw [hblocks, update_of_ne hq]
  refine ⟨hnodup, hsize, ?_, ?_, ?_, ?_⟩
  · intro q
    rw [hmem]
    rcases eq_or_ne q p with rfl | hq
    · simp [hself]
    · rw [hother q hq, h.allocated q, or_iff_right hq]
  · intro q r C D hC hD heq
    by_cases hq : q = p <;> by_cases hr : r = p
    · rw [hq, hr]
    · rw [hq, hself, some.injEq] at hC
      rw [hother r hr] at hD
      exact absurd (hC ▸ heq.symm) (hname r D hr hD)
    · rw [hr, hself, some.injEq] at hD
      rw [hother q hq] at hC
      exact absurd (hD ▸ heq) (hname q C hq hC)
    · rw [hother q hq] at hC
      rw [hother r hr] at hD
      exact h.names q r C D hC hD heq
  · intro q C hC
    rcases eq_or_ne q p with rfl | hq
    · rw [hself, some.injEq] at hC
      exact hC ▸ hok
    · rw [hother q hq] at hC
      exact (h.block q C hC).same (hsame q hq) rfl rfl id
  · intro t q hq
    rcases eq_or_ne q p with rfl | hne
    · simp [hself]
    · rw [hother q hne]
      exact h.live t q ((hsame q hne t).uses.mp hq)

/-- The same for a block that is there already and keeps its number, on an unchanged list. -/
theorem Inv.set (h : Inv s)
    (hB : s.blocks p = some B) (hblocks : s'.blocks = update s.blocks p (some B'))
    (hno : B'.blockNo = B.blockNo) (hsame : ∀ q, q ≠ p → ∀ t, SameOn q (s.threads t) (s'.threads t))
    (hok : BlockOk s'.threads p B') (hlru : s'.lru.Perm s.lru) (hsize : s'.size = s.size) : Inv s' := by
  have hp : p ∈ s.lru := (h.allocated p).mp (by simp [hB])
  refine h.change hblocks hsame ?_ hok (hlru.symm.nodup h.nodup)
    (by rw [hsize, h.size, hlru.length_eq]) ?_
  · intro q C hq hC heq
    exact hq (h.names q p C B hC hB (heq.trans hno))
  · intro q
    rw [hlru.mem_iff]
    exact ⟨.inr, fun hq => hq.elim (fun heq => heq ▸ hp) id⟩

/-! ## One thread moves -/

variable {t : T}

/-- Only the thread `t` moves. -/
theorem sameOn_update
    (h : SameOn q (threads t) th) (u : T) : SameOn q (threads u) (update threads t th u) := by
  rcases eq_or_ne u t with rfl | hne
  · rwa [update_self]
  · rw [update_of_ne hne]
    exact SameOn.refl q _

/-- What holds of the moved thread and of all others holds of every thread. -/
theorem forall_update {F : T → Thread P → Prop}
    (ht : F t th) (hu : ∀ u, u ≠ t → F u (threads u)) (u : T) : F u (update threads t th u) := by
  rcases eq_or_ne u t with rfl | hne
  · rwa [update_self]
  · rw [update_of_ne hne]
    exact hu u hne

variable {miss : Bool}

theorem Thread.once_of_not_mem (h : p ∉ th.held) : th.Once p := by
  refine ⟨?_, fun _ => h⟩
  rw [count_eq_zero_of_not_mem h]
  exact Nat.zero_le 1

/-- The thread takes the block's spinlock and sets the flag. -/
theorem BlockOk.lock (h : BlockOk threads p B) (hidle : (threads t).pc = .idle) (hspin : B.spin = none) :
    BlockOk (update threads t { threads t with pc := .locked p miss }) p
      { B with acquired := true, spin := some t } := by
  have hfree : ∀ u, (threads u).pc.locks ≠ some p := fun u hu => by
    have := (h.spin u).mpr hu
    rw [hspin] at this
    cases this
  -- the thread owns the blocks it holds, as before
  have howns : ∀ u, (update threads t { threads t with pc := .locked p miss } u).Owns p ↔
      (threads u).Owns p :=
    forall_update (F := fun u th => th.Owns p ↔ (threads u).Owns p) (by simp [Thread.Owns, hidle])
      fun _ _ => Iff.rfl
  refine ⟨h.counts, h.nodup, ?_, ?_, ?_, ?_, fun _ _ => rfl, ?_⟩
  · refine forall_update (F := fun u th => u ∈ B.lock.sleeplist ↔ th.pc.sleeps = some p) ?_ ?_
    · simp [h.sleepers, hidle]
    · exact fun u _ => h.sleepers u
  · refine forall_update (F := fun u th => some t = some u ↔ th.pc.locks = some p) ?_ ?_
    · simp
    · intro u hu
      exact iff_of_false (fun heq => hu (some.inj heq).symm) (hfree u)
  · exact fun u u' hu hu' => h.one u u' ((howns u).mp hu) ((howns u').mp hu')
  · exact ⟨h.token.1, (exists_congr howns).trans h.token.2⟩
  · refine forall_update (F := fun _ th => th.Once p) ?_ fun u _ => h.once u
    exact ⟨(h.once t).1, fun hpc => by cases hpc⟩

/-- The block of a miss: nobody else knows it yet. -/
theorem BlockOk.new (b : Nat) (hnone : ∀ u, ¬ (threads u).Uses p) :
    BlockOk (update threads t { threads t with pc := .locked p true }) p (newBlock b t) := by
  have hheld : ∀ u, p ∉ (threads u).held := fun u hu => hnone u (.inr (.inr (.inr hu)))
  have howns : ∀ u, ¬ (update threads t { threads t with pc := .locked p true } u).Owns p :=
    forall_update (F := fun _ th => ¬ th.Owns p) (by simp [Thread.Owns, hheld])
      fun u _ hu => hnone u (.inr (.inr hu))
  refine ⟨countsSleepers_initSem (by decide), nodup_nil, ?_, ?_, ?_, ?_, fun _ _ => rfl, ?_⟩
  · refine forall_update (F := fun u th => u ∈ [] ↔ th.pc.sleeps = some p) (by simp) ?_
    exact fun u _ => iff_of_false not_mem_nil fun hu => hnone u (.inr (.inl hu))
  · refine forall_update (F := fun u th => some t = some u ↔ th.pc.locks = some p) (by simp) ?_
    intro u hu
    exact iff_of_false (fun heq => hu (some.inj heq).symm) fun hl => hnone u (.inl hl)
  · exact fun u _ hu => absurd hu (howns u)
  · refine ⟨le_rfl, iff_of_false (fun ⟨u, hu⟩ => howns u hu) (by show ¬ (1 : Int) ≤ 0; decide)⟩
  · refine forall_update (F := fun _ th => th.Once p) ?_ fun u _ => ?_
    · exact Thread.once_of_not_mem (hheld t)
    · exact Thread.once_of_not_mem (hheld u)

section

variable (h : BlockOk threads p B) (hpc : (threads t).pc = .locked p miss)
include h hpc

/-- The thread gives the spinlock up. -/
theorem BlockOk.unlock {pc : Pc P} (hl : pc.locks = none) (u : T) :
    none = some u ↔ (update threads t { threads t with pc := pc } u).pc.locks = some p := by
  refine forall_update (F := fun u th => none = some u ↔ th.pc.locks = some p) (by rw [hl]; simp) (fun u hu => ?_) u
  refine iff_of_false (by simp) fun hl => hu ?_
  have hspin := (h.spin t).mpr (by simp [hpc])
  rw [(h.spin u).mpr hl] at hspin
  exact some.inj hspin

/-- `--val >= 0`: the thread gets the token that nobody owned. -/
theorem BlockOk.pass (hval : 0 < B.lock.val) :
    BlockOk (update threads t { threads t with pc := .passed p miss }) p
      { B with lock := { B.lock with val := B.lock.val - 1 }, spin := none } := by
  have hone : B.lock.val = 1 := by have := h.token.1; omega
  have hno : ∀ u, ¬ (threads u).Owns p := fun u hu => by
    have := h.token.2.mp ⟨u, hu⟩
    omega
  have howns : ∀ u, (update threads t { threads t with pc := .passed p miss } u).Owns p ↔
      u = t :=
    forall_update (F := fun u th => th.Owns p ↔ u = t) (by simp [Thread.Owns])
      fun u hu => iff_of_false (hno u) hu
  refine ⟨?_, h.nodup, ?_, ?_, ?_, ?_, ?_, ?_⟩
  · have hcounts := h.counts
    unfold CountsSleepers at *
    show B.lock.sleeplist.length = (-(B.lock.val - 1)).toNat
    omega
  · refine forall_update (F := fun u th => u ∈ B.lock.sleeplist ↔ th.pc.sleeps = some p) ?_
      fun u _ => h.sleepers u
    simp [h.sleepers, hpc]
  · exact h.unlock hpc rfl
  · intro u u' hu hu'
    rw [howns] at hu hu'
    rw [hu, hu']
  · refine ⟨by show B.lock.val - 1 ≤ 1; omega, iff_of_true ⟨t, (howns t).mpr rfl⟩ ?_⟩
    show B.lock.val - 1 ≤ 0
    omega
  · exact fun _ _ => h.flag t (.inl (by simp [hpc]))
  · refine forall_update (F := fun _ th => th.Once p) ?_ fun u _ => h.once u
    exact ⟨(h.once t).1, fun _ hheld => hno t (.inr hheld)⟩

/-- `--val < 0`: the thread goes to sleep, the owner stays. -/
theorem BlockOk.sleep (hval : B.lock.val ≤ 0) :
    BlockOk (update threads t { threads t with pc := .asleep p miss }) p
      { B with
        lock := { val := B.lock.val - 1, sleeplist := t :: B.lock.sleeplist }, spin := none } := by
  have howns : ∀ u, (update threads t { threads t with pc := .asleep p miss } u).Owns p ↔
      (threads u).Owns p :=
    forall_update (F := fun u th => th.Owns p ↔ (threads u).Owns p) (by simp [Thread.Owns, hpc])
      fun _ _ => Iff.rfl
  refine ⟨?_, ?_, ?_, ?_, ?_, ?_, ?_, ?_⟩
  · have hcounts := h.counts
    unfold CountsSleepers at *
    show (t :: B.lock.sleeplist).length = (-(B.lock.val - 1)).toNat
    rw [length_cons]
    omega
  · refine nodup_cons.mpr ⟨fun ht => ?_, h.nodup⟩
    rw [h.sleepers, hpc] at ht
    cases ht
  · refine forall_update (F := fun u th => u ∈ t :: B.lock.sleeplist ↔ th.pc.sleeps = some p)
      (by simp) fun u hu => ?_
    rw [mem_cons, or_iff_right hu]
    exact h.sleepers u
  · exact h.unlock hpc rfl
  · exact fun u u' hu hu' => h.one u u' ((howns u).mp hu) ((howns u').mp hu')
  · refine ⟨by show B.lock.val - 1 ≤ 1; omega, iff_of_true ?_ ?_⟩
    · obtain ⟨u, hu⟩ := h.token.2.mpr hval
      exact ⟨u, (howns u).mpr hu⟩
    · show B.lock.val - 1 ≤ 0
      omega
  · exact fun _ _ => h.flag t (.inl (by simp [hpc]))
  · refine forall_update (F := fun _ th => th.Once p) ?_ fun u _ => h.once u
    exact ⟨(h.once t).1, fun hpc => by cases hpc⟩

end

section

variable (h : BlockOk threads p B) (hidle : (threads t).pc = .idle) (hheld : p ∈ (threads t).held)
include h hidle hheld

/-- A release on which nobody waits: the token is free, and the flag is cleared. -/
theorem BlockOk.free (hspin : B.spin = none) (hval : 0 ≤ B.lock.val) :
    BlockOk (update threads t { threads t with held := (threads t).held.erase p }) p
      { B with acquired := false, lock := { B.lock with val := B.lock.val + 1 } } := by
  have hzero : B.lock.val = 0 := by
    have := h.token.2.mp ⟨t, .inr hheld⟩
    omega
  have hcounts := h.counts
  unfold CountsSleepers at hcounts
  have hnil : B.lock.sleeplist = [] := eq_nil_of_length_eq_zero (by omega)
  -- nobody is left: no owner but `t`, no sleeper, and the spinlock is free
  have hgone : p ∉ (threads t).held.erase p := by
    have hcount := (h.once t).1
    rw [← count_eq_zero, count_erase_self]
    omega
  have hnone : ∀ u, ¬ (update threads t
      { threads t with held := (threads t).held.erase p } u).Uses p := by
    refine forall_update (F := fun _ th => ¬ th.Uses p) ?_ fun u hu => ?_
    · simp [Thread.Uses, Thread.Owns, hidle, hgone]
    · rintro (hl | hs | ho)
      · have := (h.spin u).mpr hl
        rw [hspin] at this
        cases this
      · have := (h.sleepers u).mpr hs
        rw [hnil] at this
        cases this
      · exact hu (h.one u t ho (.inr hheld))
  refine ⟨?_, h.nodup, ?_, ?_, ?_, ?_, fun u hu => absurd hu (hnone u), ?_⟩
  · show B.lock.sleeplist.length = (-(B.lock.val + 1)).toNat
    omega
  · intro u
    refine iff_of_false ?_ fun hs => hnone u (.inr (.inl hs))
    rw [hnil]
    exact not_mem_nil
  · intro u
    refine iff_of_false ?_ fun hl => hnone u (.inl hl)
    simp [hspin]
  · exact fun u _ hu => absurd (.inr (.inr hu)) (hnone u)
  · refine ⟨by show B.lock.val + 1 ≤ 1; omega, iff_of_false ?_ ?_⟩
    · rintro ⟨u, hu⟩
      exact hnone u (.inr (.inr hu))
    · show ¬ B.lock.val + 1 ≤ 0
      omega
  · refine forall_update (F := fun _ th => th.Once p) ?_ fun u _ => h.once u
    exact Thread.once_of_not_mem hgone

/-- A release that hands the token to the oldest sleeper. -/
theorem BlockOk.handOff {w : T} {ws : List T} (hlist : B.lock.sleeplist = ws ++ [w])
    (hw : (threads w).pc = .asleep p miss) : BlockOk (update
        (update threads t { threads t with held := (threads t).held.erase p }) w
          { threads w with pc := .woken p miss }) p
      { B with lock := { val := B.lock.val + 1, sleeplist := ws } } := by
  have hne : t ≠ w := by
    rintro rfl
    rw [hidle] at hw
    cases hw
  have hcounts := h.counts
  have hnodup := h.nodup
  unfold CountsSleepers at hcounts
  rw [hlist, length_append, length_singleton] at hcounts
  rw [hlist, nodup_append] at hnodup
  have hgone : p ∉ (threads t).held.erase p := by
    have hcount := (h.once t).1
    rw [← count_eq_zero, count_erase_self]
    omega
  -- everybody but `t` and `w` is where it was
  have hall : ∀ {F : T → Thread P → Prop}, F w { threads w with pc := .woken p miss } →
      F t { threads t with held := (threads t).held.erase p } →
      (∀ u, u ≠ w → u ≠ t → F u (threads u)) → ∀ u, F u (update
        (update threads t { threads t with held := (threads t).held.erase p }) w
          { threads w with pc := .woken p miss } u) := fun hFw hFt hF =>
    forall_update hFw fun u huw => forall_update (F := fun u th => u ≠ w → _) (fun _ => hFt)
      (fun u hut huw => hF u huw hut) u huw
  have hnot : ∀ u, u ≠ t → ¬ (threads u).Owns p := fun u hut hu => hut (h.one u t hu (.inr hheld))
  have howns : ∀ u, (update
        (update threads t { threads t with held := (threads t).held.erase p }) w
          { threads w with pc := .woken p miss } u).Owns p ↔ u = w := by
    refine hall (F := fun u th => th.Owns p ↔ u = w) (by simp [Thread.Owns]) ?_ ?_
    · simp [Thread.Owns, hidle, hgone, hne]
    · exact fun u huw hut => iff_of_false (hnot u hut) huw
  refine ⟨?_, hnodup.1, ?_, ?_, ?_, ?_, ?_, ?_⟩
  · show ws.length = (-(B.lock.val + 1)).toNat
    omega
  · refine hall (F := fun u th => u ∈ ws ↔ th.pc.sleeps = some p) ?_ ?_ ?_
    · exact iff_of_false (fun hmem => hnodup.2.2 w hmem w mem_cons_self rfl) (by simp)
    · refine iff_of_false (fun hmem => ?_) (by simp [hidle])
      have := (h.sleepers t).mp (by rw [hlist]; exact mem_append_left _ hmem)
      rw [hidle] at this
      cases this
    · intro u huw _
      rw [← h.sleepers u, hlist, mem_append, mem_singleton, or_iff_left huw]
  · refine hall (F := fun u th => B.spin = some u ↔ th.pc.locks = some p) ?_ ?_
      fun u _ _ => h.spin u
    · rw [h.spin w, hw]
      simp
    · exact h.spin t
  · intro u u' hu hu'
    rw [howns] at hu hu'
    rw [hu, hu']
  · refine ⟨by show B.lock.val + 1 ≤ 1; omega, iff_of_true ⟨w, (howns w).mpr rfl⟩ ?_⟩
    show B.lock.val + 1 ≤ 0
    omega
  · exact fun _ _ => h.flag t (.inr (.inr (.inr hheld)))
  · refine hall (F := fun _ th => th.Once p) ?_ ?_ fun u _ _ => h.once u
    · exact ⟨(h.once w).1, fun _ hmem => hnot w hne.symm (.inr hmem)⟩
    · exact Thread.once_of_not_mem hgone

end

/-! ## Every section keeps the invariant -/

/-- The search finds a block with this number. -/
theorem find_some {b : Nat} (h : s.find b = some p) :
    ∃ B, s.blocks p = some B ∧ B.blockNo = b := by
  have hp := find?_some h
  simpa [map_eq_some_iff] using hp

/-- The search fails: no block has this number. -/
theorem find_none (hinv : Inv s) {b : Nat} (h : s.find b = none)
    {C : Block T} (hC : s.blocks q = some C) : C.blockNo ≠ b := by
  have hq : q ∈ s.lru := (hinv.allocated q).mp (by simp [hC])
  have hnot := find?_eq_none.mp h q hq
  simpa [hC] using hnot

/-- A section after which all threads are to all blocks what they were. -/
theorem Inv.same (h : Inv s) (hB : s.blocks p = some B)
    (hblocks : s'.blocks = update s.blocks p (some B')) (hno : B'.blockNo = B.blockNo)
    (hlock : B'.lock = B.lock) (hspin : B'.spin = B.spin) (hflag : B.acquired = true → B'.acquired = true)
    (hsame : ∀ q t, SameOn q (s.threads t) (s'.threads t)) (hlru : s'.lru.Perm s.lru)
    (hsize : s'.size = s.size) : Inv s' :=
  h.set hB hblocks hno (fun q _ => hsame q)
    ((h.block p B hB).same (hsame p) hlock hspin hflag) hlru hsize

/-- The block a thread has got stays its own when `cache_acquire` returns it. -/
theorem SameOn.returned (hpc : ∃ miss, th.pc = .passed p miss ∨ th.pc = .read p)
    (q : P) : SameOn q th { pc := .idle, held := p :: th.held } := by
  have howns : th.pc.owns = some p := by
    obtain ⟨miss, hpc | hpc⟩ := hpc <;> rw [hpc] <;> rfl
  have hrest : th.pc.locks = none ∧ th.pc.sleeps = none := by
    obtain ⟨miss, hpc | hpc⟩ := hpc <;> rw [hpc] <;> exact ⟨rfl, rfl⟩
  refine ⟨by rw [hrest.1]; rfl, by rw [hrest.2]; rfl, ?_, ?_⟩
  · unfold Thread.Owns
    rw [howns]
    simp [eq_comm]
  · rintro ⟨hcount, hout⟩
    refine ⟨?_, fun hidle => by cases hidle⟩
    rcases eq_or_ne p q with rfl | hne
    · rw [count_cons_self, count_eq_zero_of_not_mem (hout howns)]
    · rwa [count_cons_of_ne hne]

/-- The block that is evicted is nobody's. -/
theorem Inv.unused (h : Inv s) (hB : s.blocks q = some B)
    (hflag : B.acquired = false) (t : T) : ¬ (s.threads t).Uses q := fun hu => by
  have := (h.block q B hB).flag t hu
  rw [hflag] at this
  cases this

/-- What the end of a miss does: the last block goes, which nothing keeps, or nothing happens. -/
theorem evictLast_cases (h : Inv s) :
    (s.evictLast = s ∧ (s.size ≤ s.capacity ∨
      ∃ q ∈ s.lru.getLast?, ∃ B ∈ s.blocks q, (B.acquired || B.pinned) = true)) ∨
    ∃ rest q B, s.lru = rest ++ [q] ∧ s.blocks q = some B ∧ B.pinned = false ∧ B.acquired = false ∧ s.evictLast =
      { s with lru := rest, size := s.size - 1, blocks := update s.blocks q none } := by
  unfold State.evictLast
  split
  · rcases eq_nil_or_concat s.lru with hnil | ⟨rest, q, hq⟩
    · left
      simp [hnil, h.size]
    · rw [concat_eq_append] at hq
      obtain ⟨B, hB⟩ := ne_none_iff_exists'.mp ((h.allocated q).mpr (by rw [hq]; simp))
      simp only [hq, getLast?_concat, hB, dropLast_concat]
      split
      · rename_i hkeep
        simp only [Bool.and_eq_true, Bool.not_eq_true'] at hkeep
        exact .inr ⟨rest, q, B, rfl, hB, hkeep.1, hkeep.2, rfl⟩
      · rename_i hkeep
        refine .inl ⟨rfl, .inr ⟨q, rfl, B, hB, ?_⟩⟩
        simp only [Bool.and_eq_true, Bool.not_eq_true', not_and, Bool.not_eq_false] at hkeep
        rw [Bool.or_eq_true_iff]
        exact (Bool.eq_false_or_eq_true B.pinned).elim .inr fun hpin => .inl (hkeep hpin)
  · rename_i hsize
    exact .inl ⟨rfl, .inl (not_lt.mp hsize)⟩

theorem Inv.evictLast_rest (h : Inv s) : s.evictLast.threads = s.threads ∧ s.evictLast.capacity = s.capacity := by
  obtain ⟨heq, -⟩ | ⟨_, _, _, -, -, -, -, heq⟩ := evictLast_cases h <;> rw [heq] <;> exact ⟨rfl, rfl⟩

theorem Inv.evicted (h : Inv s) : Inv s.evictLast := by
  obtain ⟨heq, -⟩ | ⟨rest, q, B, hlru, hB, -, hflag, heq⟩ := evictLast_cases h
  · rw [heq]
    exact h
  · rw [heq]
    have hnodup := h.nodup
    rw [hlru, nodup_append] at hnodup
    have hqrest : q ∉ rest := fun hq => hnodup.2.2 q hq q mem_cons_self rfl
    have hother : ∀ {p}, p ≠ q → update s.blocks q none p = s.blocks p := fun hne =>
      update_of_ne hne _ _
    have hne : ∀ {p C}, update s.blocks q none p = some C → p ≠ q := by
      rintro p C hC rfl
      rw [update_self] at hC
      cases hC
    refine ⟨hnodup.1, ?_, ?_, ?_, ?_, ?_⟩
    · show s.size - 1 = rest.length
      rw [h.size, hlru, length_append, length_singleton, Nat.add_sub_cancel]
    · intro p
      show update s.blocks q none p ≠ none ↔ p ∈ rest
      rcases eq_or_ne p q with rfl | hpq
      · simp [hqrest]
      · rw [hother hpq, h.allocated p, hlru, mem_append, mem_singleton, or_iff_left hpq]
    · intro p r C D hC hD
      exact h.names p r C D ((hother (hne hC)).symm.trans hC) ((hother (hne hD)).symm.trans hD)
    · intro p C hC
      exact h.block p C ((hother (hne hC)).symm.trans hC)
    · intro t p hp
      have hpq : p ≠ q := by
        rintro rfl
        exact h.unused hB hflag t hp
      show update s.blocks q none p ≠ none
      rw [hother hpq]
      exact h.live t p hp

/-- A block update that changes nothing. -/
theorem update_same (hB : s.blocks p = some B) :
    s.blocks = update s.blocks p (some B) := by
  rw [← hB, update_eq_self]

theorem about_of {pc : Pc P} (h : pc = .idle ∨ ∃ miss, pc = .locked p miss ∨
    pc = .asleep p miss ∨ pc = .woken p miss ∨ pc = .passed p miss ∨ pc = .read p) : pc.About p := by
  rintro q (hq | hq | hq) <;>
    obtain rfl | ⟨miss, rfl | rfl | rfl | rfl | rfl⟩ := h <;> simp_all

/-- A thread that is to every block what it was. -/
theorem SameOn.of_pc {pc : Pc P} (hl : pc.locks = th.pc.locks)
    (hs : pc.sleeps = th.pc.sleeps) (ho : pc.owns = th.pc.owns) (q : P) :
    SameOn q th { th with pc := pc } := by
  refine ⟨by rw [hl], by rw [hs], ?_, ?_⟩
  · unfold Thread.Owns
    rw [ho]
  · unfold Thread.Once
    rw [ho]
    exact id

/-- A release takes one block off those the thread holds. -/
theorem SameOn.erased (hidle : th.pc = .idle) (hne : q ≠ p) :
    SameOn q th { th with held := th.held.erase p } :=
  SameOn.of_about (about_of (.inl hidle)) (about_of (.inl hidle)) (count_erase_of_ne hne) hne

/-- `cache_release`: the flag is cleared when nobody waits, else the oldest sleeper gets the block. -/
theorem Inv.released (h : Inv s)
    (hB : s.blocks p = some B) (hidle : (s.threads t).pc = .idle) (hheld : p ∈ (s.threads t).held)
    (hspin : B.spin = none) (hstep : ((postSem B.lock).map fun r =>
      let s' := (s.setBlock p { B with
          acquired := if 0 ≤ querySem B.lock then false else B.acquired, lock := r.2 }).setThread t
        { s.threads t with held := (s.threads t).held.erase p }
      match r.1 with
      | none => s'
      | some w => s'.wake w) = some s') : Inv s' := by
  have hok := h.block p B hB
  have hcounts := hok.counts
  unfold CountsSleepers at hcounts
  have hsame : ∀ q, q ≠ p → ∀ u, SameOn q (s.threads u) (update s.threads t
      { s.threads t with held := (s.threads t).held.erase p } u) :=
    fun q hq => sameOn_update (SameOn.erased hidle hq)
  rcases lt_or_ge B.lock.val 0 with hval | hval
  · -- there is a sleeper, and the last of the list is woken
    have hlen : B.lock.sleeplist ≠ [] := by
      intro hnil
      rw [hnil, length_nil] at hcounts
      omega
    obtain ⟨ws, w, hlist⟩ : ∃ ws w, B.lock.sleeplist = ws ++ [w] :=
      ⟨_, _, (dropLast_append_getLast hlen).symm⟩
    have hsleeps := (hok.sleepers w).mp (by rw [hlist]; simp)
    obtain ⟨miss, hw⟩ : ∃ miss, (s.threads w).pc = .asleep p miss := by
      cases hpc : (s.threads w).pc <;> rw [hpc] at hsleeps <;> simp_all
    have hne : w ≠ t := by
      rintro rfl
      rw [hidle] at hw
      cases hw
    have hw' : update s.threads t
        { s.threads t with held := (s.threads t).held.erase p } w = s.threads w :=
      update_of_ne hne _ _
    have hquery : ¬ 0 ≤ querySem B.lock := not_le.mpr hval
    rw [postSem_of_neg hval hlist, map_some, some.injEq] at hstep
    subst hstep
    simp only [State.wake, State.setThread, State.setPc, State.setBlock, hw', hw, hquery, if_false]
    refine h.set hB rfl rfl ?_ (hok.handOff hidle hheld hlist hw) (.refl _) rfl
    intro q hq u
    refine forall_update (F := fun u th => SameOn q (s.threads u) th) ?_ (fun u _ => hsame q hq u) u
    exact SameOn.of_about (about_of (.inr ⟨miss, .inr (.inl hw)⟩))
      (about_of (by simp)) rfl hq
  · have hquery : 0 ≤ querySem B.lock := hval
    rw [postSem_of_nonneg hval, map_some, some.injEq] at hstep
    subst hstep
    simp only [hquery, if_true]
    exact h.set hB rfl rfl hsame (hok.free hidle hheld hspin hval) (.refl _) rfl

theorem step_inv {a : Act T P} (h : Inv s) (hstep : step s a = some s') : Inv s' := by
  cases a with
  | search t b p =>
    obtain ⟨hidle, hstep⟩ := ite_none_right_eq_some.mp hstep
    have hsame : ∀ r miss q, q ≠ r → ∀ u, SameOn q (s.threads u)
        (update s.threads t { s.threads t with pc := .locked r miss } u) :=
      fun r miss q hq => sameOn_update (SameOn.of_about (about_of (.inl hidle))
        (about_of (.inr ⟨miss, .inl rfl⟩)) rfl hq)
    cases hfind : s.find b with
    | some q =>
      obtain ⟨B, hB, -⟩ := find_some hfind
      simp only [hfind, hB] at hstep
      obtain ⟨hspin, rfl⟩ := of_guard hstep
      exact h.set hB rfl rfl (hsame q false) ((h.block q B hB).lock hidle hspin)
        (.refl _) rfl
    | none =>
      simp only [hfind] at hstep
      obtain ⟨hfresh, rfl⟩ := of_guard hstep
      have hp : p ∉ s.lru := fun hp => (h.allocated p).mpr hp hfresh
      refine h.change rfl (hsame p true) (fun q C _ hC => find_none h hfind hC)
        (BlockOk.new b fun u hu => h.live u p hu hfresh) (nodup_cons.mpr ⟨hp, h.nodup⟩) ?_
        fun q => mem_cons
      show s.size + 1 = (p :: s.lru).length
      rw [length_cons, h.size]
  | wait t =>
    simp only [step] at hstep
    split at hstep
    · rename_i p miss hpc
      obtain ⟨B, hB, rfl⟩ := map_eq_some_iff.mp hstep
      have hok := h.block p B hB
      have hsame : ∀ pc : Pc P, pc.About p → ∀ q, q ≠ p → ∀ u, SameOn q (s.threads u)
          (update s.threads t { s.threads t with pc := pc } u) :=
        fun pc hpc' q hq => sameOn_update (SameOn.of_about (about_of (.inr ⟨miss, .inl hpc⟩))
          hpc' rfl hq)
      rcases lt_or_ge 0 B.lock.val with hval | hval
      · rw [waitSem_of_pos hval]
        exact h.set hB rfl rfl (hsame _ (about_of (by simp))) (hok.pass hpc hval)
          (.refl _) rfl
      · rw [waitSem_of_nonpos hval]
        exact h.set hB rfl rfl (hsame _ (about_of (by simp))) (hok.sleep hpc hval)
          (.refl _) rfl
    · cases hstep
  | resume t =>
    simp only [step] at hstep
    split at hstep
    · rename_i p miss hpc
      cases hstep
      obtain ⟨B, hB⟩ := ne_none_iff_exists'.mp
        (h.live t p (.inr (.inr (.inl (by rw [hpc]; rfl)))))
      refine h.same hB (update_same hB) rfl rfl rfl id (fun q => sameOn_update ?_) (.refl _) rfl
      exact SameOn.of_pc (by rw [hpc]; rfl) (by rw [hpc]; rfl) (by rw [hpc]; rfl) q
    · cases hstep
  | relist t =>
    simp only [step] at hstep
    split at hstep
    · rename_i p hpc
      obtain ⟨B, hB, rfl⟩ := map_eq_some_iff.mp hstep
      have hp : p ∈ s.lru := (h.allocated p).mp (by simp [hB])
      exact h.same hB rfl rfl rfl rfl (fun _ => rfl)
        (fun q => sameOn_update (SameOn.returned ⟨false, .inl hpc⟩ q))
        (perm_cons_erase hp).symm rfl
    · cases hstep
  | read t =>
    simp only [step] at hstep
    split at hstep
    · rename_i p hpc
      obtain ⟨B, hB, rfl⟩ := map_eq_some_iff.mp hstep
      refine h.same hB rfl rfl rfl rfl id (fun q => sameOn_update ?_) (.refl _) rfl
      exact SameOn.of_pc (by rw [hpc]; rfl) (by rw [hpc]; rfl) (by rw [hpc]; rfl) q
    · cases hstep
  | evict t =>
    simp only [step] at hstep
    split at hstep
    · rename_i p hpc
      cases hstep
      have hev := h.evicted
      have hpc' : (s.evictLast.threads t).pc = .read p := by
        rw [h.evictLast_rest.1]
        exact hpc
      obtain ⟨B, hB⟩ := ne_none_iff_exists'.mp
        (hev.live t p (.inr (.inr (.inl (by rw [hpc']; rfl)))))
      exact hev.same hB (update_same hB) rfl rfl rfl id
        (fun q => sameOn_update (SameOn.returned ⟨true, .inr hpc'⟩ q)) (.refl _) rfl
    · cases hstep
  | release t p =>
    obtain ⟨hcan, hstep⟩ := ite_none_right_eq_some.mp hstep
    obtain ⟨hidle, hheld⟩ := hcan
    obtain ⟨B, hB, hstep⟩ := bind_eq_some_iff.mp hstep
    obtain ⟨hspin, hstep⟩ := ite_none_right_eq_some.mp hstep
    exact h.released hB hidle hheld hspin hstep
  | pin t p v =>
    obtain ⟨-, hstep⟩ := ite_none_right_eq_some.mp hstep
    obtain ⟨B, hB, rfl⟩ := map_eq_some_iff.mp hstep
    exact h.same hB rfl rfl rfl rfl id (fun q u => SameOn.refl q _) (.refl _) rfl

/-! ## All runs -/

theorem init_inv : Inv (initLRUcache : State T P) where
  nodup := nodup_nil
  size := rfl
  allocated _ := iff_of_false (fun h => h rfl) not_mem_nil
  names _ _ _ _ hB := by cases hB
  block _ _ hB := by cases hB
  live _ _ hu := by simp [initLRUcache, Thread.Uses, Thread.Owns] at hu

variable {t : T} {a : Act T P}

/-- The block a thread has made on a miss that it has not finished. -/
def Pc.missed : Pc P → Option P
  | .locked p miss | .asleep p miss | .woken p miss | .passed p miss => if miss then some p else none
  | .read p => some p
  | .idle => none

theorem Thread.uses_of_missed {th : Thread P} (h : th.pc.missed = some p) : th.Uses p := by
  unfold Thread.Uses Thread.Owns
  cases hpc : th.pc <;> rw [hpc] at h <;> simp_all [Pc.missed]

@[grind =] theorem threads_setThread (s : State T P) (t u : T) (th : Thread P) :
    (s.setThread t th).threads u = if u = t then th else s.threads u :=
  update_apply ..

@[grind =] theorem lru_wake (s : State T P) (w : T) : (s.wake w).lru = s.lru := by
  unfold State.wake
  split <;> rfl

@[grind =] theorem capacity_wake (s : State T P) (w : T) : (s.wake w).capacity = s.capacity := by
  unfold State.wake
  split <;> rfl

@[grind =] theorem missed_wake (s : State T P) (w u : T) : ((s.wake w).threads u).pc.missed = (s.threads u).pc.missed := by
  unfold State.wake
  split
  · grind [State.setPc, Pc.missed]
  · rfl

/-- The list of blocks in one step: it is put in another order, a miss adds a block, or a miss ends. -/
theorem step_lru (h : Inv s) (hstep : step s a = some s') :
    (s'.lru.Perm s.lru ∧ s'.capacity = s.capacity ∧ ∀ u, (s'.threads u).pc.missed = (s.threads u).pc.missed) ∨
    (∃ t p, s.blocks p = none ∧ (s.threads t).pc = .idle ∧ s'.lru = p :: s.lru ∧ s'.capacity = s.capacity ∧
      s'.threads = update s.threads t { s.threads t with pc := .locked p true }) ∨
    ∃ t p, a = .evict t ∧ (s.threads t).pc = .read p ∧ s' = s.evictLast.hold t p := by
  have hmem := h.allocated
  cases a with
  | evict t => grind [step]
  | release t p =>
    obtain ⟨-, hstep⟩ := ite_none_right_eq_some.mp hstep
    obtain ⟨B, -, hstep⟩ := bind_eq_some_iff.mp hstep
    obtain ⟨-, hstep⟩ := ite_none_right_eq_some.mp hstep
    obtain ⟨⟨woken, lock⟩, -, rfl⟩ := map_eq_some_iff.mp hstep
    left
    cases woken with
    | none => grind [State.setThread, State.setBlock]
    | some w => grind [State.setThread, State.setBlock]
  | search t b p | wait t | resume t | relist t | read t | pin t p v =>
    grind [step, map_eq_some_iff, State.setPc, State.setThread, State.setBlock, State.hold, Pc.missed]

/-- A block leaves the list only when nobody uses it and it is not pinned. -/
theorem step_detaches (h : Inv s) (hstep : step s a = some s') (hp : p ∈ s.lru) (hp' : p ∉ s'.lru) :
    (∀ t, ¬ (s.threads t).Uses p) ∧ ∃ B, s.blocks p = some B ∧ B.pinned = false := by
  obtain ⟨hperm, -, -⟩ | ⟨t, q, -, -, hlru, -, -⟩ | ⟨t, q, -, -, rfl⟩ := step_lru h hstep
  · exact absurd (hperm.mem_iff.mpr hp) hp'
  · rw [hlru] at hp'
    exact absurd (mem_cons_of_mem q hp) hp'
  · replace hp' : p ∉ s.evictLast.lru := hp'
    obtain ⟨heq, -⟩ | ⟨rest, q, B, hlru, hB, hpin, hflag, heq⟩ := evictLast_cases h
    · rw [heq] at hp'
      exact absurd hp hp'
    · rw [heq] at hp'
      rw [hlru, mem_append, mem_singleton] at hp
      obtain rfl : p = q := hp.resolve_left hp'
      exact ⟨h.unused hB hflag, B, hB, hpin⟩

/-- The number of a cached block. -/
def State.number (s : State T P) (p : P) : Option Nat := (s.blocks p).map Block.blockNo

/-- **Block lock exclusion.**  However the sections of `cache_acquire` and `cache_release` interleave, for
    any number of threads and any block numbers: the list has at most one block per number and as many
    blocks as `size` says; at most one thread is between acquire and release of a number; the block
    of a thread that holds it or waits for it is on the list; and a block that a move takes off the
    list is not pinned, nobody holds it and nobody waits for it. -/
theorem block_lock_exclusion {as : List (Act T P)} {s : State T P} (hrun : run step initLRUcache as = some s) :
    (s.lru.map s.number).Nodup ∧ (∀ p ∈ s.lru, s.number p ≠ none) ∧ s.size = s.lru.length ∧
    (∀ t t' p p', (s.threads t).Owns p → (s.threads t').Owns p' → s.number p = s.number p' →
      t = t' ∧ p = p') ∧
    (∀ t p, (s.threads t).Uses p → p ∈ s.lru) ∧
    ∀ a s', step s a = some s' → ∀ p ∈ s.lru, p ∉ s'.lru →
      (∀ t, ¬ (s.threads t).Uses p) ∧ ∃ B, s.blocks p = some B ∧ B.pinned = false := by
  have h : Inv s := run_invariant_all (fun _ _ _ h hstep => step_inv h hstep) as _ s init_inv hrun
  have hsome : ∀ p ∈ s.lru, ∃ B, s.blocks p = some B := fun p hp =>
    ne_none_iff_exists'.mp ((h.allocated p).mpr hp)
  have hinj : ∀ p ∈ s.lru, ∀ q ∈ s.lru, s.number p = s.number q → p = q := by
    intro p hp q hq heq
    obtain ⟨B, hB⟩ := hsome p hp
    obtain ⟨C, hC⟩ := hsome q hq
    rw [State.number, State.number, hB, hC] at heq
    exact h.names p q B C hB hC (some.inj heq)
  have hlive : ∀ t p, (s.threads t).Uses p → p ∈ s.lru := fun t p hu =>
    (h.allocated p).mp (h.live t p hu)
  refine ⟨h.nodup.map_on hinj, ?_, h.size, ?_, hlive,
    fun a s' hstep p hp hp' => step_detaches h hstep hp hp'⟩
  · intro p hp
    obtain ⟨B, hB⟩ := hsome p hp
    simp [State.number, hB]
  · intro t t' p p' hp hp' heq
    obtain rfl := hinj p (hlive t p (.inr (.inr hp))) p' (hlive t' p' (.inr (.inr hp'))) heq
    obtain ⟨B, hB⟩ := hsome p (hlive t p (.inr (.inr hp)))
    exact ⟨(h.block p B hB).one t t' hp hp', rfl⟩

/-- A thread misses block 7, another one finds it and has to sleep; the release hands it the block, and
    the flag has stayed set all the time. -/
theorem block_lock_exclusion_handOff :
    ∃ s : State Nat Nat, run step initLRUcache
        [.search 0 7 100, .wait 0, .read 0, .evict 0, .search 1 7 200, .wait 1, .release 0 100,
          .resume 1] = some s ∧
      s.lru = [100] ∧ (s.blocks 100).map Block.acquired = some true ∧ (s.threads 1).Owns 100 ∧
      ∀ t p, (s.threads t).Owns p → s.number p = some 7 → t = 1 := by
  have hrun : run step (initLRUcache : State Nat Nat)
      [.search 0 7 100, .wait 0, .read 0, .evict 0, .search 1 7 200, .wait 1, .release 0 100,
        .resume 1] = some _ := rfl
  obtain ⟨-, -, -, hone, -, -⟩ := block_lock_exclusion hrun
  refine ⟨_, hrun, rfl, rfl, .inl rfl, fun t p ht hp => ?_⟩
  exact (hone t 1 p 100 ht (.inl rfl) (hp.trans rfl)).1

/-! ## The size of the cache -/

/-- The cached blocks that are acquired or pinned. -/
def State.kept (s : State T P) : Nat := s.lru.countP fun p => (s.blocks p).any fun B => B.acquired || B.pinned

/-- A miss that finds the cache too large finds nothing that keeps the last block. -/
def TailFree (s : State T P) : Act T P → Prop
  | .evict _ => s.capacity < s.size → ∀ q ∈ s.lru.getLast?, ∀ B ∈ s.blocks q, (B.acquired || B.pinned) = false
  | _ => True

/-- The cache is too large by the misses `ms` at most that have not ended. -/
structure Bounded (s : State T P) (ms : List P) : Prop where
  capacity : s.capacity = evictionThreshold
  nodup : ms.Nodup
  missed : ∀ p ∈ ms, ∃ t, (s.threads t).pc.missed = some p
  length : s.lru.length ≤ evictionThreshold + ms.length

theorem Bounded.kept {ms : List P} (h : Inv s) (hb : Bounded s ms) : s.lru.length ≤ evictionThreshold + s.kept := by
  have hsub : ms ⊆ s.lru.filter fun p => (s.blocks p).any fun B => B.acquired || B.pinned := by
    intro p hp
    obtain ⟨t, ht⟩ := hb.missed p hp
    have hu := Thread.uses_of_missed ht
    obtain ⟨B, hB⟩ := ne_none_iff_exists'.mp (h.live t p hu)
    refine mem_filter.mpr ⟨(h.allocated p).mp (h.live t p hu), ?_⟩
    rw [hB, any_some, (h.block p B hB).flag t hu, Bool.true_or]
  have hle := (hb.nodup.subperm hsub).length_le
  rw [← countP_eq_length_filter] at hle
  exact hb.length.trans (Nat.add_le_add_left hle _)

/-- The end of a miss takes a block off the list, or the list was short enough. -/
theorem length_evictLast (h : Inv s) (hC : TailFree s (.evict t)) :
    s.evictLast.lru.length ≤ s.capacity ∨ s.evictLast.lru.length + 1 = s.lru.length := by
  obtain ⟨heq, hnone⟩ | ⟨rest, q, B, hlru, -, -, -, heq⟩ := evictLast_cases h
  · left
    rw [heq, ← h.size]
    by_contra hlt
    obtain hle | ⟨q, hq, B, hB, hkept⟩ := hnone
    · exact hlt hle
    · rw [hC (not_le.mp hlt) q hq B hB] at hkept
      cases hkept
  · right
    rw [heq, hlru, length_append, length_singleton]

theorem step_bounded {ms : List P} (h : Inv s) (hb : Bounded s ms) (hC : TailFree s a) (hstep : step s a = some s') :
    ∃ ms', Bounded s' ms' := by
  obtain ⟨hperm, hcap, hmissed⟩ | ⟨t, p, hfresh, hidle, hlru, hcap, hthreads⟩ | ⟨t, p, rfl, hpc, rfl⟩ := step_lru h hstep
  · refine ⟨ms, hcap.trans hb.capacity, hb.nodup, fun p hp => ?_, hperm.length_eq ▸ hb.length⟩
    obtain ⟨t, ht⟩ := hb.missed p hp
    exact ⟨t, (hmissed t).trans ht⟩
  · refine ⟨p :: ms, hcap.trans hb.capacity, nodup_cons.mpr ⟨fun hp => ?_, hb.nodup⟩,
      forall_mem_cons.mpr ⟨⟨t, ?_⟩, fun q hq => ?_⟩, ?_⟩
    · obtain ⟨u, hu⟩ := hb.missed p hp
      exact h.live u p (Thread.uses_of_missed hu) hfresh
    · rw [hthreads, update_self]
      rfl
    · obtain ⟨u, hu⟩ := hb.missed q hq
      refine ⟨u, ?_⟩
      rw [hthreads, update_of_ne, hu]
      rintro rfl
      rw [hidle] at hu
      cases hu
    · rw [hlru, length_cons, length_cons]
      exact Nat.succ_le_succ hb.length
  · have hsame := h.evictLast_rest
    rcases length_evictLast h hC with hle | hle
    · exact ⟨[], hsame.2.trans hb.capacity, nodup_nil, fun _ hq => (nomatch hq), hb.capacity ▸ hle⟩
    · refine ⟨ms.erase p, hsame.2.trans hb.capacity, hb.nodup.erase p, fun q hq => ?_, ?_⟩
      · obtain ⟨hne, hq⟩ := hb.nodup.mem_erase_iff.mp hq
        obtain ⟨u, hu⟩ := hb.missed q hq
        refine ⟨u, ?_⟩
        show (update s.evictLast.threads t _ u).pc.missed = some q
        rw [hsame.1, update_of_ne, hu]
        rintro rfl
        rw [hpc] at hu
        exact hne (some.inj hu).symm
      · have hms := le_length_erase (a := p) (l := ms)
        have := hb.length
        show s.evictLast.lru.length ≤ _
        omega

/-- **The cache stays small**: as long as a miss that finds too many blocks finds a last one that nothing keeps, there are at most
    `EVICTION_THRESHOLD` on top of those that are acquired or pinned. -/
theorem block_cache_small {as : List (Act T P)} {s : State T P} (hmeets : RunMeets step TailFree initLRUcache as)
    (hrun : run step initLRUcache as = some s) : s.lru.length ≤ evictionThreshold + s.kept := by
  have hinit : Inv (initLRUcache : State T P) ∧ ∃ ms, Bounded (initLRUcache : State T P) ms :=
    ⟨init_inv, [], rfl, nodup_nil, fun _ hp => (nomatch hp), Nat.zero_le _⟩
  obtain ⟨hinv, ms, hb⟩ := run_invariant (I := fun s : State T P => Inv s ∧ ∃ ms, Bounded s ms)
    (fun s a s' h hC hstep => ⟨step_inv h.1 hstep, h.2.elim fun ms hb => step_bounded h.1 hb hC hstep⟩) as _ s hinit hmeets hrun
  exact hb.kept hinv

/-- The call of `cache_acquire` that misses the block `b`. -/
def acquireMiss (b : Nat) : List (Act Unit Nat) := [.search () b b, .wait (), .read (), .evict ()]

/-- Each of the first `n` blocks is read and released. -/
def readAll (n : Nat) : List (Act Unit Nat) := (List.range n).flatMap fun b => acquireMiss b ++ [.release () b]

instance (s : State T P) : DecidablePred (TailFree s)
  | .evict _ => inferInstanceAs (Decidable (_ < _ → ∀ q ∈ s.lru.getLast?, ∀ B ∈ s.blocks q, _ = false))
  | .search .. | .wait _ | .resume _ | .relist _ | .read _ | .release .. | .pin .. => isTrue trivial

/-- After 21 blocks the first one is gone. -/
theorem block_cache_small_evicts : ∃ s : State Unit Nat, run step initLRUcache (readAll 21) = some s ∧
    s.find 0 = none ∧ s.lru.length ≤ evictionThreshold + s.kept := by
  refine exists_run (P := fun s => s.find 0 = none) (by decide +kernel) fun s hrun hs => ⟨hs, ?_⟩
  exact block_cache_small (by decide +kernel) hrun

/-- A block that stays acquired is the last of the list from some time on, and nothing is evicted any more. -/
theorem block_cache_grows : ∃ s : State Unit Nat,
    run step initLRUcache (acquireMiss 100 ++ readAll 21 ++ acquireMiss 21) = some s ∧ s.kept = 2 ∧ s.lru.length = 23 :=
  exists_run (P := fun s => s.kept = 2 ∧ s.lru.length = 23) (by decide +kernel) fun _ _ hs => hs

end Armv8Os.Fs.BlockLocks
