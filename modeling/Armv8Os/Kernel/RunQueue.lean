/-
  `kernel/sched.c` with its containers: the nested run queues on any number of CPUs.

  `Kernel.Sched` is the scheduler as the waiting code sees it.  Here are the queues themselves: every
  container has one, with processes and with the containers below it; `traverse_queue` walks down to the
  unit that has used the least time, skipping containers without a process.  The times come from the
  clock, so they are arguments (`now`, `now'`) of the moves; the arithmetic on them is that of the source,
  `u64` counters read as `int`s.

  All moves are sections under `schlock`.  A process calls `sched` with RUNNABLE, SLEEPING or DEEPSLEEPING,
  or it exits; the idle process of a CPU only ever yields (`idle_entry`).  No move changes the container
  of a process: `set_container_to_this` and `create_container` choose it before `start_proc`.

  1. **Queues** (`QueueOk`): a process is on the queue of its container exactly when it is RUNNABLE.
  2. **CPUs** (`CpuOk`): the RUNNING processes are the `thisproc`s, and an idle process that does not run
     is RUNNABLE.
  3. Both hold in every reachable state, and the two assertions of `simple_sched` never fail:
     `run_queue_invariant`.
-/
import Armv8Os.Lib.Transition
import Armv8Os.Kernel.Sched

set_option linter.unusedSectionVars false

namespace Armv8Os.RunQueue

open Kernel Transition List
open Function (update update_of_ne update_self)

/-! ## The source -/

/-- What is on a queue: `schinfo.iscontainer` tells which. -/
inductive Entity (P K : Type) where
  | proc (p : P)
  | group (k : K)
  deriving Repr, DecidableEq

/-- `struct schinfo` without its list node. -/
structure SchInfo where
  start : UInt64
  occupy : UInt64
  deriving Repr, DecidableEq

/-- What does not change: the idle process of each CPU, the container of each process, and the tree of
    containers with the distance of each from `root_container`. -/
structure Config (C P K : Type) where
  idle : C → P
  idle_inj : Function.Injective idle
  container : P → K
  rootContainer : K
  parent : K → K
  depth : K → Nat
  height : Nat
  depth_root : depth rootContainer = 0
  depth_parent : ∀ k, k ≠ rootContainer → depth k = depth (parent k) + 1
  depth_lt : ∀ k, depth k < height

/-- The data under `schlock`. -/
structure State (C P K : Type) where
  state : P → ProcState
  killed : P → Bool
  rq : K → List (Entity P K)
  info : Entity P K → SchInfo
  thisproc : C → P

variable {C P K : Type} [DecidableEq C] [DecidableEq P] [DecidableEq K]

/-- `_insert_into_list(&k->schqueue.rq, ..)`. -/
def State.insert (s : State C P K) (k : K) (u : Entity P K) : State C P K :=
  { s with rq := update s.rq k (u :: s.rq k) }

/-- `_detach_from_list` of a queue node. -/
def State.detach (s : State C P K) (u : Entity P K) : State C P K :=
  { s with rq := fun k => (s.rq k).erase u }

def State.setState (s : State C P K) (p : P) (v : ProcState) : State C P K :=
  { s with state := update s.state p v }

def State.setInfo (s : State C P K) (u : Entity P K) (i : SchInfo) : State C P K :=
  { s with info := update s.info u i }

/-- `schinfo.occupy_ += now_occupy`: an `int` added to a `u64`. -/
def State.charge (s : State C P K) (u : Entity P K) (t : Int32) : State C P K :=
  s.setInfo u { s.info u with occupy := (s.info u).occupy + t.toInt64.toUInt64 }

/-- A `u64` assigned to an `int`. -/
def toInt (x : UInt64) : Int32 := x.toUInt32.toInt32

/-- `_activate_proc`. -/
def activateProc (cfg : Config C P K) (s : State C P K) (p : P) (onalert : Bool) :
    Bool × State C P K :=
  match s.state p with
  | .running | .runnable => (false, s)
  | .sleeping | .unused => (true, (s.setState p .runnable).insert (cfg.container p) (.proc p))
  | .deepsleeping =>
    if onalert then (false, s)
    else (true, (s.setState p .runnable).insert (cfg.container p) (.proc p))
  | .zombie => (false, s)

/-- `activate_group`. -/
def activateGroup (cfg : Config C P K) (s : State C P K) (k : K) : State C P K :=
  s.insert (cfg.parent k) (.group k)

/-- The loop of `update_this_state` over the containers, up to the root container. -/
def chargeParents (cfg : Config C P K) (t : Int32) : Nat → K → State C P K → State C P K
  | 0, _, s => s
  | n + 1, k, s =>
    if k ≠ cfg.rootContainer then chargeParents cfg t n (cfg.parent k) (s.charge (.group k) t) else s

/-- `update_this_state`. -/
def updateThisState (cfg : Config C P K) (s : State C P K) (c : C) (newState : ProcState)
    (now : UInt64) : State C P K :=
  let this := s.thisproc c
  let s₁ := if newState = .runnable ∧ this ≠ cfg.idle c then
      s.insert (cfg.container this) (.proc this) else s
  let s₂ := s₁.setState this newState
  if this = cfg.idle c then s₂
  else
    let nowOccupy := toInt (now - (s₂.info (.proc this)).start)
    chargeParents cfg nowOccupy (cfg.depth (cfg.container this)) (cfg.container this)
      (s₂.charge (.proc this) nowOccupy)

/-- `not_empty_container`: some queue below has a process on it. -/
def notEmptyContainer (s : State C P K) : Nat → K → Bool
  | 0, _ => false
  | n + 1, k => (s.rq k).any fun u =>
    match u with
    | .proc _ => true
    | .group g => notEmptyContainer s n g

/-- A container without a process is passed over. -/
def skipped (s : State C P K) (n : Nat) : Entity P K → Bool
  | .proc _ => false
  | .group g => !notEmptyContainer s n g

/-- One round of the loop of `traverse_queue`: `best` is `min_` with `next_schinfo`. -/
def consider (s : State C P K) (n : Nat) (best : Int32 × Option (Entity P K)) (u : Entity P K) :
    Int32 × Option (Entity P K) :=
  let occupyTime := toInt (s.info u).occupy
  if skipped s n u then best
  else if best.1 = -1 ∨ occupyTime < best.1 then (occupyTime, some u) else best

/-- `next_schinfo` after the loop. -/
def nextUnit (s : State C P K) (n : Nat) (k : K) : Option (Entity P K) :=
  ((s.rq k).foldl (consider s n) (-1, none)).2

/-- `traverse_queue`; the number bounds how far down it goes. -/
def traverseQueue (s : State C P K) : Nat → K → Option P
  | 0, _ => none
  | n + 1, k =>
    match nextUnit s n k with
    | none => none
    | some (.proc p) => some p
    | some (.group g) => traverseQueue s n g

/-- `pick_next`. -/
def pickNext (cfg : Config C P K) (s : State C P K) (c : C) : P × State C P K :=
  match traverseQueue s cfg.height cfg.rootContainer with
  | none => (cfg.idle c, s)
  | some p => (p, s.detach (.proc p))

/-- `update_this_proc`. -/
def updateThisProc (s : State C P K) (c : C) (p : P) (now : UInt64) : State C P K :=
  let s' : State C P K := { s with thisproc := update s.thisproc c p }
  s'.setInfo (.proc p) { s.info (.proc p) with start := now }

/-- `simple_sched` on CPU `c`.  `none` is a failed assertion. -/
def simpleSched (cfg : Config C P K) (s : State C P K) (c : C) (newState : ProcState)
    (now now' : UInt64) : Option (State C P K) :=
  if s.killed (s.thisproc c) = true ∧ newState ≠ .zombie then some s
  else if s.state (s.thisproc c) ≠ .running then none
  else
    let r := pickNext cfg (updateThisState cfg s c newState now) c
    let s₃ := updateThisProc r.2 c r.1 now'
    if s₃.state r.1 ≠ .runnable then none else some (s₃.setState r.1 .running)

/-! ## The system -/

inductive Act (C P K : Type) where
  /-- `activate_proc`, by `start_proc` or by a post -/
  | activate (p : P)
  /-- `alert_proc` -/
  | alert (p : P)
  /-- `kill` sets the flag -/
  | setKilled (p : P)
  | activateGroup (k : K)
  | sched (c : C) (newState : ProcState) (now now' : UInt64)
  | exit (c : C) (now now' : UInt64)

/-- What a process may pass to `sched`: an idle process only yields. -/
def Allowed (cfg : Config C P K) (s : State C P K) (c : C) (newState : ProcState) : Prop :=
  newState = .runnable ∨
    (newState = .sleeping ∨ newState = .deepsleeping) ∧ s.thisproc c ≠ cfg.idle c

instance (cfg : Config C P K) (s : State C P K) (c : C) (newState : ProcState) :
    Decidable (Allowed cfg s c newState) :=
  inferInstanceAs (Decidable (newState = .runnable ∨
    (newState = .sleeping ∨ newState = .deepsleeping) ∧ s.thisproc c ≠ cfg.idle c))

/-- One section under `schlock`.  `create_container` activates a container once. -/
def step (cfg : Config C P K) (s : State C P K) : Act C P K → Option (State C P K)
  | .activate p => some (activateProc cfg s p false).2
  | .alert p => some (activateProc cfg s p true).2
  | .setKilled p => some { s with killed := update s.killed p true }
  | .activateGroup k =>
    if k ≠ cfg.rootContainer ∧ Entity.group k ∉ s.rq (cfg.parent k) then some (activateGroup cfg s k)
    else none
  | .sched c newState now now' =>
    if Allowed cfg s c newState then simpleSched cfg s c newState now now' else none
  | .exit c now now' =>
    if s.thisproc c ≠ cfg.idle c then simpleSched cfg s c .zombie now now' else none

/-- `define_init(sched)`: every CPU runs its idle process, nothing else has been started. -/
def boot [Fintype C] (cfg : Config C P K) (info : Entity P K → SchInfo) : State C P K :=
  { state := fun p => if ∃ c, cfg.idle c = p then .running else .unused
    killed := fun _ => false
    rq := fun _ => []
    info := info
    thisproc := cfg.idle }

/-! ## Queues -/

/-- A process is on the queue of its container exactly when it is RUNNABLE, and on no other; the idle
    processes are on none. -/
structure QueueOk (cfg : Config C P K) (s : State C P K) : Prop where
  listed : ∀ p k, Entity.proc p ∈ s.rq k ↔
    k = cfg.container p ∧ s.state p = .runnable ∧ ∀ c, cfg.idle c ≠ p
  nodup : ∀ k, (s.rq k).Nodup
  below : ∀ g k, Entity.group g ∈ s.rq k → g ≠ cfg.rootContainer ∧ k = cfg.parent g

variable {s : State C P K}

theorem mem_insert {k k' : K} {u v : Entity P K} :
    v ∈ (s.insert k u).rq k' ↔ (k' = k ∧ v = u) ∨ v ∈ s.rq k' := by
  show v ∈ update s.rq k (u :: s.rq k) k' ↔ _
  rcases eq_or_ne k' k with rfl | hne
  · simp
  · simp [hne]

theorem nodup_insert {k : K} {u : Entity P K} (h : ∀ k, (s.rq k).Nodup)
    (hu : u ∉ s.rq k) (k' : K) : ((s.insert k u).rq k').Nodup := by
  show (update s.rq k (u :: s.rq k) k').Nodup
  rcases eq_or_ne k' k with rfl | hne
  · rw [update_self]
    exact nodup_cons.mpr ⟨hu, h k'⟩
  · rw [update_of_ne hne]
    exact h k'

variable {cfg : Config C P K} {s' : State C P K}

/-- Only the queues and the states matter. -/
theorem QueueOk.congr (h : QueueOk cfg s)
    (hrq : s'.rq = s.rq) (hstate : s'.state = s.state) : QueueOk cfg s' :=
  ⟨by rw [hrq, hstate]; exact h.listed, by rw [hrq]; exact h.nodup, by rw [hrq]; exact h.below⟩

variable {p : P}

/-- A process that is not on a queue becomes RUNNABLE and is put on the one of its container. -/
theorem QueueOk.enqueue (h : QueueOk cfg s) (hstate : s.state p ≠ .runnable) (hidle : ∀ c, cfg.idle c ≠ p) :
    QueueOk cfg ((s.setState p .runnable).insert (cfg.container p) (.proc p)) := by
  have hout : ∀ k, Entity.proc p ∉ s.rq k := fun k hk => hstate ((h.listed p k).mp hk).2.1
  refine ⟨?_, nodup_insert h.nodup (hout _), ?_⟩
  · intro q k
    rw [mem_insert]
    show _ ∨ Entity.proc q ∈ s.rq k ↔ k = _ ∧ update s.state p .runnable q = _ ∧ _
    rcases eq_or_ne q p with rfl | hne
    · simp [hout, hidle]
    · rw [h.listed, update_of_ne hne]
      simp [hne]
  · intro g k hk
    rw [mem_insert] at hk
    exact h.below g k (hk.resolve_left fun hk => by cases hk.2)

/-- A process that is not on a queue changes to a state in which it is not either. -/
theorem QueueOk.setState (h : QueueOk cfg s) {v : ProcState} (hold : s.state p ≠ .runnable ∨ ∃ c, cfg.idle c = p)
    (hnew : v ≠ .runnable ∨ ∃ c, cfg.idle c = p) : QueueOk cfg (s.setState p v) := by
  refine ⟨?_, h.nodup, h.below⟩
  intro q k
  show Entity.proc q ∈ s.rq k ↔ k = _ ∧ update s.state p v q = _ ∧ _
  rw [h.listed]
  rcases eq_or_ne q p with rfl | hne
  · rw [update_self]
    constructor
    · rintro ⟨-, hrun, hidle⟩
      exact hold.elim (absurd hrun) fun ⟨c, hc⟩ => absurd hc (hidle c)
    · rintro ⟨-, hrun, hidle⟩
      exact hnew.elim (absurd hrun) fun ⟨c, hc⟩ => absurd hc (hidle c)
  · rw [update_of_ne hne]

/-- The chosen process is taken off its queue and runs. -/
theorem QueueOk.dequeue (h : QueueOk cfg s)  :
    QueueOk cfg ((s.detach (.proc p)).setState p .running) := by
  refine ⟨?_, fun k => (h.nodup k).erase _, fun g k hk => h.below g k (mem_of_mem_erase hk)⟩
  intro q k
  show Entity.proc q ∈ (s.rq k).erase (.proc p) ↔ k = _ ∧ update s.state p .running q = _ ∧ _
  rw [(h.nodup k).mem_erase_iff, h.listed]
  rcases eq_or_ne q p with rfl | hne
  · simp
  · simp [hne]

/-! ## The choice -/

/-- The containers that `traverse_queue` and `not_empty_container` come to, from one queue to the next. -/
def Below (s : State C P K) : K → K → Prop := Relation.ReflTransGen fun k g => Entity.group g ∈ s.rq k

section Choice

variable {n : Nat} {k : K}

/-- What the loop of `traverse_queue` has found on `l`: `min_` is -1 as long as `next_schinfo` is NULL. -/
def Chosen (s : State C P K) (n : Nat) (l : List (Entity P K)) : Int32 × Option (Entity P K) → Prop
  | (min, none) => min = -1 ∧ ∀ u ∈ l, skipped s n u = true
  | (_, some u) => u ∈ l ∧ skipped s n u = false

theorem foldl_consider (l : List (Entity P K)) : Chosen s n l (l.foldl (consider s n) (-1, none)) := by
  induction l using reverseRecOn with
  | nil => exact ⟨rfl, fun u hu => absurd hu not_mem_nil⟩
  | append_singleton l v ih =>
    rw [foldl_append]
    show Chosen s n (l ++ [v]) (consider s n _ v)
    generalize l.foldl (consider s n) (-1, none) = best at ih ⊢
    obtain ⟨min, next⟩ := best
    unfold consider
    dsimp only
    split_ifs with hskip hmin
    · cases next with
      | none => exact ⟨ih.1, forall_mem_append.mpr ⟨ih.2, forall_mem_singleton.mpr hskip⟩⟩
      | some u => exact ⟨mem_append_left _ ih.1, ih.2⟩
    · exact ⟨mem_append_right l mem_cons_self, Bool.eq_false_of_not_eq_true hskip⟩
    · cases next with
      | none => exact absurd (.inl ih.1) hmin
      | some u => exact ⟨mem_append_left _ ih.1, ih.2⟩

theorem nextUnit_some {u : Entity P K} (h : nextUnit s n k = some u) : u ∈ s.rq k ∧ skipped s n u = false := by
  have hchosen := foldl_consider (s := s) (n := n) (s.rq k)
  rwa [show (s.rq k).foldl (consider s n) (-1, none) = (_, some u) from Prod.ext rfl h] at hchosen

theorem nextUnit_none (h : nextUnit s n k = none) : ∀ u ∈ s.rq k, skipped s n u = true := by
  have hchosen := foldl_consider (s := s) (n := n) (s.rq k)
  rw [show (s.rq k).foldl (consider s n) (-1, none) = (_, none) from Prod.ext rfl h] at hchosen
  exact hchosen.2

/-- `traverse_queue` returns a process that is on a queue it comes to. -/
theorem traverseQueue_mem (h : traverseQueue s n k = some p) : ∃ k', Below s k k' ∧ Entity.proc p ∈ s.rq k' := by
  induction n generalizing k with
  | zero => cases h
  | succ n ih =>
    unfold traverseQueue at h
    split at h
    · cases h
    · rename_i q hq
      cases h
      exact ⟨k, .refl, (nextUnit_some hq).1⟩
    · rename_i g hg
      obtain ⟨k', hbelow, hp⟩ := ih h
      exact ⟨k', .head (nextUnit_some hg).1 hbelow, hp⟩

/-- The two recursions agree: what is not passed over leads to a process. -/
theorem traverseQueue_isSome : (traverseQueue s n k).isSome = notEmptyContainer s n k := by
  induction n generalizing k with
  | zero => rfl
  | succ n ih =>
    have hany : notEmptyContainer s (n + 1) k = (s.rq k).any (!skipped s n ·) := by
      unfold notEmptyContainer
      congr 1
      funext u
      cases u with
      | proc q => rfl
      | group g => exact (Bool.not_not _).symm
    rw [hany]
    unfold traverseQueue
    cases hu : nextUnit s n k with
    | none => exact (any_eq_false.mpr fun v hv => by rw [nextUnit_none hu v hv]; exact Bool.false_ne_true).symm
    | some u =>
      obtain ⟨hmem, hskip⟩ := nextUnit_some hu
      rw [any_eq_true.mpr ⟨u, hmem, by rw [hskip]; rfl⟩]
      cases u with
      | proc q => rfl
      | group g => exact ih.trans (Bool.not_eq_eq_eq_not.mp hskip)

end Choice

/-! ## CPUs -/

/-- The RUNNING processes are the `thisproc`s, one for each CPU; an idle process that does not run is
    RUNNABLE, and it runs on its own CPU only. -/
structure CpuOk (cfg : Config C P K) (s : State C P K) : Prop where
  running : ∀ p, s.state p = .running ↔ ∃ c, s.thisproc c = p
  one : Function.Injective s.thisproc
  idle : ∀ c, s.thisproc c = cfg.idle c ∨ s.state (cfg.idle c) = .runnable
  own : ∀ c c', s.thisproc c = cfg.idle c' → c = c'

/-- Charging time touches nothing but the times. -/
theorem chargeParents_frame (cfg : Config C P K) (t : Int32) : ∀ (n : Nat) (k : K) (s : State C P K),
    (chargeParents cfg t n k s).state = s.state ∧ (chargeParents cfg t n k s).rq = s.rq ∧
      (chargeParents cfg t n k s).thisproc = s.thisproc ∧
      (chargeParents cfg t n k s).killed = s.killed := by
  intro n
  induction n with
  | zero => exact fun _ _ => ⟨rfl, rfl, rfl, rfl⟩
  | succ n ih =>
    intro k s
    unfold chargeParents
    split
    · exact ih _ (s.charge (.group k) t)
    · exact ⟨rfl, rfl, rfl, rfl⟩

/-- `update_this_state`, times apart. -/
theorem updateThisState_frame (cfg : Config C P K) (s : State C P K) (c : C) (newState : ProcState) (now : UInt64) :
    (updateThisState cfg s c newState now).state =
      update s.state (s.thisproc c) newState ∧
    (updateThisState cfg s c newState now).rq =
      (if newState = .runnable ∧ s.thisproc c ≠ cfg.idle c then
        s.insert (cfg.container (s.thisproc c)) (.proc (s.thisproc c)) else s).rq ∧
    (updateThisState cfg s c newState now).thisproc = s.thisproc ∧
    (updateThisState cfg s c newState now).killed = s.killed := by
  have hsame : ∀ b : Prop, [Decidable b] →
      let t := if b then s.insert (cfg.container (s.thisproc c)) (.proc (s.thisproc c)) else s
      t.state = s.state ∧ t.thisproc = s.thisproc ∧ t.killed = s.killed := by
    intro b _
    split <;> exact ⟨rfl, rfl, rfl⟩
  obtain ⟨hstate, hthis, hkilled⟩ :=
    hsame (newState = .runnable ∧ s.thisproc c ≠ cfg.idle c)
  unfold updateThisState
  dsimp only
  split
  · refine ⟨?_, rfl, hthis, hkilled⟩
    exact congrArg (update · (s.thisproc c) newState) hstate
  · obtain ⟨h1, h2, h3, h4⟩ := chargeParents_frame cfg _ (cfg.depth (cfg.container (s.thisproc c)))
      (cfg.container (s.thisproc c)) _
    rw [h1, h2, h3, h4]
    refine ⟨?_, rfl, hthis, hkilled⟩
    exact congrArg (update · (s.thisproc c) newState) hstate

/-- `this` is on its queue again exactly when it yields. -/
theorem QueueOk.updated (hq : QueueOk cfg s) (hc : CpuOk cfg s) (c : C) (newState : ProcState) (now : UInt64) :
    QueueOk cfg (updateThisState cfg s c newState now) := by
  obtain ⟨hstate, hrq, -, -⟩ := updateThisState_frame cfg s c newState now
  have hrunning : s.state (s.thisproc c) ≠ .runnable := by
    rw [(hc.running _).mpr ⟨c, rfl⟩]
    exact ProcState.noConfusion
  by_cases hthis : s.thisproc c = cfg.idle c
  · rw [if_neg (fun h => h.2 hthis)] at hrq
    exact (hq.setState (v := newState) (.inl hrunning) (.inr ⟨c, hthis.symm⟩)).congr hrq hstate
  · by_cases hnew : newState = .runnable
    · rw [if_pos ⟨hnew, hthis⟩] at hrq
      refine (hq.enqueue hrunning fun c' hc' => hthis ?_).congr hrq (hnew ▸ hstate)
      rw [← hc', hc.own c c' hc'.symm]
    · rw [if_neg (fun h => hnew h.1)] at hrq
      exact (hq.setState (.inl hrunning) (.inl hnew)).congr hrq hstate

variable {newState : ProcState}

/-- The CPU takes the next process, which was RUNNABLE. -/
theorem CpuOk.switch (hc : CpuOk cfg s) {c : C}
    {next : P} (hnew : newState ≠ .running)
    (hidle : s.thisproc c = cfg.idle c → newState = .runnable)
    (hnext : update s.state (s.thisproc c) newState next = .runnable)
    (hwho : next = cfg.idle c ∨ ∀ c', cfg.idle c' ≠ next)
    (hstate : s'.state = update (update s.state (s.thisproc c) newState) next .running)
    (hthis : s'.thisproc = update s.thisproc c next) : CpuOk cfg s' := by
  -- on the other CPUs run processes that are neither `this` nor `next`
  have hthere : ∀ c', c' ≠ c → s.thisproc c' ≠ s.thisproc c := fun c' hne heq => hne (hc.one heq)
  have hnot : ∀ c', c' ≠ c → s.thisproc c' ≠ next := by
    intro c' hne heq
    have hrun := (hc.running (s.thisproc c')).mpr ⟨c', rfl⟩
    rw [← heq, update_of_ne (hthere c' hne), hrun] at hnext
    cases hnext
  refine ⟨?_, ?_, ?_, ?_⟩
  · intro p
    rw [hstate, hthis]
    rcases eq_or_ne p next with rfl | hpn
    · exact iff_of_true (update_self ..) ⟨c, update_self ..⟩
    · rw [update_of_ne hpn]
      rcases eq_or_ne p (s.thisproc c) with rfl | hpt
      · rw [update_self]
        refine iff_of_false hnew ?_
        rintro ⟨c', hc'⟩
        rcases eq_or_ne c' c with rfl | hne
        · rw [update_self] at hc'
          exact hpn hc'.symm
        · rw [update_of_ne hne] at hc'
          exact hthere c' hne hc'
      · rw [update_of_ne hpt, hc.running]
        constructor
        · rintro ⟨c', hc'⟩
          refine ⟨c', ?_⟩
          rw [update_of_ne (by rintro rfl; exact hpt hc'.symm), hc']
        · rintro ⟨c', hc'⟩
          rcases eq_or_ne c' c with rfl | hne
          · rw [update_self] at hc'
            exact absurd hc'.symm hpn
          · rw [update_of_ne hne] at hc'
            exact ⟨c', hc'⟩
  · intro c₁ c₂ heq
    rw [hthis] at heq
    by_cases h1 : c₁ = c <;> by_cases h2 : c₂ = c
    · rw [h1, h2]
    · rw [h1, update_self, update_of_ne h2] at heq
      exact absurd heq.symm (hnot c₂ h2)
    · rw [h2, update_self, update_of_ne h1] at heq
      exact absurd heq (hnot c₁ h1)
    · rw [update_of_ne h1, update_of_ne h2] at heq
      exact hc.one heq
  · intro c'
    rw [hstate, hthis]
    rcases eq_or_ne next (cfg.idle c') with heq | hne
    · -- only its own CPU can have chosen an idle process
      have hcc : c' = c := by
        rcases hwho with hwho | hwho
        · exact cfg.idle_inj (heq.symm.trans hwho)
        · exact absurd heq.symm (hwho c')
      left
      rw [hcc, update_self, heq, hcc]
    · rw [update_of_ne hne.symm]
      rcases eq_or_ne c' c with rfl | hcc
      · right
        by_cases hthisidle : s.thisproc c' = cfg.idle c'
        · rw [hthisidle, update_self]
          exact hidle hthisidle
        · rw [update_of_ne (Ne.symm hthisidle)]
          exact (hc.idle c').resolve_left hthisidle
      · rw [update_of_ne hcc]
        refine (hc.idle c').imp_right fun hrun => ?_
        rw [update_of_ne, hrun]
        intro heq
        have hrunning := (hc.running (s.thisproc c)).mpr ⟨c, rfl⟩
        rw [← heq, hrun] at hrunning
        cases hrunning
  · intro c₁ c₂ heq
    rw [hthis] at heq
    rcases eq_or_ne c₁ c with rfl | hne
    · rw [update_self] at heq
      rcases hwho with hwho | hwho
      · exact cfg.idle_inj (hwho.symm.trans heq)
      · exact absurd heq.symm (hwho c₂)
    · rw [update_of_ne hne] at heq
      exact hc.own c₁ c₂ heq

/-- `simple_sched` returns, and it keeps the queues and the CPUs in order. -/
theorem simpleSched_ok (hq : QueueOk cfg s) (hc : CpuOk cfg s)
    (c : C) (newState : ProcState) (now now' : UInt64) (hnew : newState ≠ .running)
    (hidle : s.thisproc c = cfg.idle c → newState = .runnable) :
    ∃ s', simpleSched cfg s c newState now now' = some s' ∧ QueueOk cfg s' ∧ CpuOk cfg s' := by
  unfold simpleSched
  by_cases hkilled : s.killed (s.thisproc c) = true ∧ newState ≠ .zombie
  · rw [if_pos hkilled]
    exact ⟨s, rfl, hq, hc⟩
  · have hrunning := (hc.running (s.thisproc c)).mpr ⟨c, rfl⟩
    rw [if_neg hkilled, if_neg (not_not.mpr hrunning)]
    have hq1 := hq.updated hc c newState now
    obtain ⟨hstate, -, hthis, -⟩ := updateThisState_frame cfg s c newState now
    generalize updateThisState cfg s c newState now = s₁ at hq1 hstate hthis ⊢
    cases htrav : traverseQueue s₁ cfg.height cfg.rootContainer with
    | none =>
      have hpick : pickNext cfg s₁ c = (cfg.idle c, s₁) := by rw [pickNext, htrav]
      rw [hpick]
      -- the idle process has just yielded, or it has been waiting
      have hrunnable : update s.state (s.thisproc c) newState (cfg.idle c) = .runnable := by
        by_cases heq : s.thisproc c = cfg.idle c
        · rw [heq, update_self]
          exact hidle heq
        · rw [update_of_ne (Ne.symm heq)]
          exact (hc.idle c).resolve_left heq
      have hassert : (updateThisProc s₁ c (cfg.idle c) now').state (cfg.idle c) = .runnable := by
        show s₁.state (cfg.idle c) = _
        rw [hstate]
        exact hrunnable
      refine ⟨_, if_neg (not_not.mpr hassert), ?_, ?_⟩
      · exact (hq1.setState (v := .running) (.inr ⟨c, rfl⟩) (.inr ⟨c, rfl⟩)).congr rfl rfl
      · refine hc.switch hnew hidle hrunnable (.inl rfl) ?_ ?_
        · exact congrArg (update · (cfg.idle c) .running) hstate
        · exact congrArg (update · c (cfg.idle c)) hthis
    | some p =>
      have hpick : pickNext cfg s₁ c = (p, s₁.detach (.proc p)) := by rw [pickNext, htrav]
      rw [hpick]
      obtain ⟨k, -, hk⟩ := traverseQueue_mem htrav
      obtain ⟨-, hrunnable, hnotidle⟩ := (hq1.listed p k).mp hk
      have hassert : (updateThisProc (s₁.detach (.proc p)) c p now').state p = .runnable := hrunnable
      refine ⟨_, if_neg (not_not.mpr hassert), hq1.dequeue.congr rfl rfl, ?_⟩
      refine hc.switch hnew hidle (hstate ▸ hrunnable) (.inr hnotidle) ?_ ?_
      · exact congrArg (update · p .running) hstate
      · exact congrArg (update · c p) hthis

/-! ## All runs -/

/-- An idle process runs or is RUNNABLE, so nothing activates it. -/
theorem CpuOk.not_idle (hc : CpuOk cfg s)
    (hrunning : s.state p ≠ .running) (hrunnable : s.state p ≠ .runnable) (c : C) : cfg.idle c ≠ p := by
  rintro rfl
  rcases hc.idle c with hthis | hstate
  · exact hrunning ((hc.running _).mpr ⟨c, hthis⟩)
  · exact hrunnable hstate

/-- `_activate_proc` keeps everything in order. -/
theorem activateProc_ok (hq : QueueOk cfg s) (hc : CpuOk cfg s) (p : P) (onalert : Bool) :
    QueueOk cfg (activateProc cfg s p onalert).2 ∧ CpuOk cfg (activateProc cfg s p onalert).2 := by
  have hput : s.state p ≠ .running → s.state p ≠ .runnable →
      QueueOk cfg ((s.setState p .runnable).insert (cfg.container p) (.proc p)) ∧
        CpuOk cfg ((s.setState p .runnable).insert (cfg.container p) (.proc p)) := by
    intro hrunning hrunnable
    refine ⟨hq.enqueue hrunnable (hc.not_idle hrunning hrunnable), ?_, hc.one, ?_, hc.own⟩
    · intro q
      show update s.state p .runnable q = .running ↔ ∃ c, s.thisproc c = q
      rcases eq_or_ne q p with rfl | hne
      · rw [update_self]
        exact iff_of_false ProcState.noConfusion fun h => hrunning ((hc.running q).mpr h)
      · rw [update_of_ne hne]
        exact hc.running q
    · intro c
      refine (hc.idle c).imp_right fun hstate => ?_
      show update s.state p .runnable (cfg.idle c) = .runnable
      rw [update_of_ne (hc.not_idle hrunning hrunnable c), hstate]
  unfold activateProc
  cases hstate : s.state p with
  | running => exact ⟨hq, hc⟩
  | runnable => exact ⟨hq, hc⟩
  | sleeping => exact hput (by simp [hstate]) (by simp [hstate])
  | unused => exact hput (by simp [hstate]) (by simp [hstate])
  | deepsleeping =>
    cases onalert with
    | true => exact ⟨hq, hc⟩
    | false => exact hput (by simp [hstate]) (by simp [hstate])
  | zombie => exact ⟨hq, hc⟩

/-- `activate_group` hangs a container below its parent. -/
theorem QueueOk.group (hq : QueueOk cfg s) {k : K}
    (hroot : k ≠ cfg.rootContainer) (hout : Entity.group k ∉ s.rq (cfg.parent k)) :
    QueueOk cfg (activateGroup cfg s k) := by
  refine ⟨?_, nodup_insert hq.nodup hout, ?_⟩
  · intro p k'
    refine mem_insert.trans ((or_iff_right fun h => ?_).trans (hq.listed p k'))
    cases h.2
  · intro g k' hg
    rcases mem_insert.mp hg with ⟨hk', hgk⟩ | hg
    · cases hgk
      exact ⟨hroot, hk'⟩
    · exact hq.below g k' hg

/-- Everything that holds between two sections. -/
def Inv (cfg : Config C P K) (s : State C P K) : Prop := QueueOk cfg s ∧ CpuOk cfg s

/-- What a caller may pass to `sched` keeps the scheduler going. -/
theorem Allowed.fit {c : C} (h : Allowed cfg s c newState) :
    newState ≠ .running ∧ (s.thisproc c = cfg.idle c → newState = .runnable) := by
  rcases h with rfl | ⟨rfl | rfl, hthis⟩
  · exact ⟨ProcState.noConfusion, fun _ => rfl⟩
  · exact ⟨ProcState.noConfusion, fun h => absurd h hthis⟩
  · exact ⟨ProcState.noConfusion, fun h => absurd h hthis⟩

theorem step_inv {a : Act C P K} (h : Inv cfg s) (hstep : step cfg s a = some s') : Inv cfg s' := by
  obtain ⟨hq, hc⟩ := h
  cases a with
  | activate p =>
    cases hstep
    exact activateProc_ok hq hc p false
  | alert p =>
    cases hstep
    exact activateProc_ok hq hc p true
  | setKilled p =>
    cases hstep
    exact ⟨hq.congr rfl rfl, hc.running, hc.one, hc.idle, hc.own⟩
  | activateGroup k =>
    obtain ⟨hk, rfl⟩ := of_guard hstep
    exact ⟨hq.group hk.1 hk.2, hc.running, hc.one, hc.idle, hc.own⟩
  | sched c newState now now' =>
    obtain ⟨hallowed, hstep⟩ := Option.ite_none_right_eq_some.mp hstep
    obtain ⟨s₁, hs1, hok⟩ := simpleSched_ok hq hc c newState now now' hallowed.fit.1
      hallowed.fit.2
    obtain rfl := Option.some.inj (hs1.symm.trans hstep)
    exact hok
  | exit c now now' =>
    obtain ⟨hthis, hstep⟩ := Option.ite_none_right_eq_some.mp hstep
    obtain ⟨s₁, hs1, hok⟩ := simpleSched_ok hq hc c .zombie now now' ProcState.noConfusion
      (fun h => absurd h hthis)
    obtain rfl := Option.some.inj (hs1.symm.trans hstep)
    exact hok

theorem boot_inv [Fintype C] (cfg : Config C P K) (info : Entity P K → SchInfo) :
    Inv cfg (boot cfg info) := by
  have hstate : ∀ p, (boot cfg info).state p = if ∃ c, cfg.idle c = p then .running else .unused :=
    fun _ => rfl
  refine ⟨⟨?_, fun _ => nodup_nil, fun _ _ h => absurd h not_mem_nil⟩,
    ⟨?_, cfg.idle_inj, fun _ => .inl rfl, fun _ _ h => cfg.idle_inj h⟩⟩
  · intro p k
    refine iff_of_false not_mem_nil ?_
    rintro ⟨-, hrun, -⟩
    rw [hstate] at hrun
    split at hrun <;> cases hrun
  · intro p
    rw [hstate]
    split
    · rename_i hidle
      exact iff_of_true rfl hidle
    · rename_i hidle
      exact iff_of_false ProcState.noConfusion hidle

/-- **The run queue invariant.**  On any number of CPUs and in any container tree, however activations,
    alerts, kills, calls of `sched` and exits interleave: a process other than the idle ones is on the
    queue of its container when it is RUNNABLE, once, and on no queue otherwise; the RUNNING processes
    are the `thisproc`s of the CPUs, each of exactly one, and every `thisproc` is RUNNING; and
    `simple_sched` returns, so neither of its assertions fails, also when the next process is an idle one. -/
theorem run_queue_invariant [Fintype C] {cfg : Config C P K} {info : Entity P K → SchInfo}
    {as : List (Act C P K)} {s : State C P K} (hrun : run (step cfg) (boot cfg info) as = some s) :
    (∀ p, (∀ c, cfg.idle c ≠ p) → ∀ k, Entity.proc p ∈ s.rq k ↔
      k = cfg.container p ∧ s.state p = .runnable) ∧
    (∀ c k, Entity.proc (cfg.idle c) ∉ s.rq k) ∧ (∀ k, (s.rq k).Nodup) ∧
    (∀ p, s.state p = .running → ∃! c, s.thisproc c = p) ∧ (∀ c, s.state (s.thisproc c) = .running) ∧
    (∀ c newState now now', Allowed cfg s c newState →
      ∃ s', step cfg s (.sched c newState now now') = some s') ∧
    (∀ c now now', s.thisproc c ≠ cfg.idle c → ∃ s', step cfg s (.exit c now now') = some s') := by
  obtain ⟨hq, hc⟩ : Inv cfg s :=
    run_invariant_all (fun _ _ _ h hstep => step_inv h hstep) as _ s (boot_inv cfg info) hrun
  refine ⟨?_, ?_, hq.nodup, ?_, fun c => (hc.running _).mpr ⟨c, rfl⟩, ?_, ?_⟩
  · intro p hidle k
    rw [hq.listed p k]
    exact and_congr_right fun _ => and_iff_left hidle
  · intro c k hk
    exact ((hq.listed _ k).mp hk).2.2 c rfl
  · intro p hp
    obtain ⟨c, rfl⟩ := (hc.running p).mp hp
    exact ⟨c, rfl, fun c' hc' => hc.one hc'⟩
  · intro c newState now now' hallowed
    obtain ⟨s', hs', -⟩ := simpleSched_ok hq hc c newState now now' hallowed.fit.1
      hallowed.fit.2
    exact ⟨s', (if_pos hallowed).trans hs'⟩
  · intro c now now' hthis
    obtain ⟨s', hs', -⟩ := simpleSched_ok hq hc c .zombie now now' ProcState.noConfusion
      (fun h => absurd h hthis)
    exact ⟨s', (if_pos hthis).trans hs'⟩

/-- Two CPUs with the idle processes 0 and 1; process 3 lives in a container below the root. -/
def twoCpus : Config Bool Nat Bool where
  idle c := if c then 1 else 0
  idle_inj := by decide
  container p := p == 3
  rootContainer := false
  parent _ := false
  depth k := k.toNat
  height := 2
  depth_root := rfl
  depth_parent := by decide
  depth_lt := by decide

/-- Both CPUs find a process, the second one in the nested queue; when that one goes to sleep, the
    CPU falls back to its idle process, and the next section of `sched` there is fine too. -/
theorem run_queue_invariant_twoCpus :
    ∃ s, run (step twoCpus) (boot twoCpus fun _ => { start := 0, occupy := 0 })
        [.activate 3, .activateGroup true, .activate 2, .sched false .runnable 1 2,
          .sched true .runnable 3 4, .sched true .sleeping 5 6] = some s ∧
      (s.thisproc false, s.thisproc true) = (2, 1) ∧ s.state 3 = .sleeping ∧
      (∀ k, Entity.proc 3 ∉ s.rq k) ∧ ∃ s', step twoCpus s (.sched true .runnable 7 8) = some s' := by
  refine exists_run (P := fun s => (s.thisproc false, s.thisproc true) = (2, 1) ∧ s.state 3 = .sleeping) rfl
    fun s hrun ⟨hthis, hstate⟩ => ?_
  obtain ⟨hlisted, -, -, -, -, hsched, -⟩ := run_queue_invariant hrun
  refine ⟨hthis, hstate, fun k hk => ?_, hsched true .runnable 7 8 (.inl rfl)⟩
  rw [((hlisted 3 (by decide) k).mp hk).2] at hstate
  cases hstate

/-! ## Work conservation -/

/-- The queues follow the tree of containers, and a node is on a list once. -/
structure Populated (cfg : Config C P K) (s : State C P K) : Prop where
  below : ∀ g k, Entity.group g ∈ s.rq k → g ≠ cfg.rootContainer ∧ k = cfg.parent g
  nodup : ∀ k, (s.rq k).Nodup

theorem Populated.depth {g k : K} (h : Populated cfg s) (hg : Entity.group g ∈ s.rq k) : cfg.depth g = cfg.depth k + 1 := by
  obtain ⟨hne, rfl⟩ := h.below g k hg
  exact cfg.depth_parent g hne

/-- The recursion of `not_empty_container` goes deep enough. -/
theorem Populated.notEmptyContainer {n : Nat} {k : K} (h : Populated cfg s) (hn : cfg.height ≤ cfg.depth k + n) :
    notEmptyContainer s n k = true ↔ ∃ k' q, Below s k k' ∧ Entity.proc q ∈ s.rq k' := by
  induction n generalizing k with
  | zero => exact absurd (cfg.depth_lt k) (not_lt.mpr hn)
  | succ n ih =>
    have hdeep : ∀ g, Entity.group g ∈ s.rq k → cfg.height ≤ cfg.depth g + n := fun g hg => by
      rw [h.depth hg]
      omega
    unfold RunQueue.notEmptyContainer
    rw [any_eq_true]
    constructor
    · rintro ⟨_ | g, hu, hbusy⟩
      · exact ⟨k, _, .refl, hu⟩
      · obtain ⟨k', q, hbelow, hq⟩ := (ih (hdeep g hu)).mp hbusy
        exact ⟨k', q, .head hu hbelow, hq⟩
    · rintro ⟨k', q, hbelow, hq⟩
      rcases hbelow.cases_head with rfl | ⟨g, hg, hbelow⟩
      · exact ⟨_, hq, rfl⟩
      · exact ⟨_, hg, (ih (hdeep g hg)).mpr ⟨k', q, hbelow, hq⟩⟩

/-- **Work conservation**, whatever the times are: `traverse_queue` returns NULL exactly when no process is on a queue that is
    reached through activated containers, and then `pick_next` chooses the idle process.  Otherwise it returns a process on such a
    queue, and `pick_next` takes that process off and leaves the rest as it is. -/
theorem work_conserving (h : Populated cfg s) (c : C) :
    (traverseQueue s cfg.height cfg.rootContainer = none ↔
      ∀ k, Below s cfg.rootContainer k → ∀ q, Entity.proc q ∉ s.rq k) ∧
    (traverseQueue s cfg.height cfg.rootContainer = none → pickNext cfg s c = (cfg.idle c, s)) ∧
    ∀ q, traverseQueue s cfg.height cfg.rootContainer = some q →
      (∃ k, Below s cfg.rootContainer k ∧ Entity.proc q ∈ s.rq k) ∧
        pickNext cfg s c = (q, { s with rq := fun k => (s.rq k).filter (· != Entity.proc q) }) := by
  refine ⟨?_, fun hnone => by rw [pickNext, hnone], fun q hq => ⟨traverseQueue_mem hq, ?_⟩⟩
  · have hbusy := h.notEmptyContainer (k := cfg.rootContainer) (n := cfg.height) (Nat.le_add_left _ _)
    rw [← Option.not_isSome_iff_eq_none, traverseQueue_isSome, hbusy]
    exact ⟨fun hno k hbelow q hq => hno ⟨k, q, hbelow, hq⟩, fun hno ⟨k, q, hbelow, hq⟩ => hno k hbelow q hq⟩
  · have hdetach : s.detach (.proc q) = { s with rq := fun k => (s.rq k).filter (· != Entity.proc q) } :=
      congrArg (fun rq => { s with rq := rq }) (funext fun k => (h.nodup k).erase_eq_filter _)
    rw [pickNext, hq, ← hdetach]

/-- Process 2 and a container with process 3 on the queue of `twoCpus`, with these times. -/
def contest (two group : UInt64) : State Bool Nat Bool where
  state _ := .runnable
  killed _ := false
  rq k := if k then [.proc 3] else [.proc 2, .group true]
  info u := { start := 0, occupy := match u with | .proc _ => two | .group _ => group }
  thisproc c := twoCpus.idle c

theorem populated_contest (two group : UInt64) : Populated twoCpus (contest two group) := by
  refine ⟨fun g k hg => ?_, fun k => by cases k <;> simp [contest]⟩
  cases k <;> simp [contest] at hg
  subst hg
  exact ⟨by decide, rfl⟩

/-- The container has used less time, so its process is taken. -/
theorem work_conserving_contest : traverseQueue (contest 7 5) 2 false = some 3 ∧
    (pickNext twoCpus (contest 7 5) true).2.rq true = [] := by
  obtain ⟨-, -, hsome⟩ := work_conserving (populated_contest 7 5) true
  obtain ⟨-, hpick⟩ := hsome 3 rfl
  exact ⟨rfl, by rw [hpick]; rfl⟩

end Armv8Os.RunQueue
