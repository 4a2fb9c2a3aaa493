/-
  `kernel/console.c` run by any number of threads: who owns `input.lock`.

  Here a move is one access to `input`, or one call on a lock, so that threads which do NOT own the lock meet in the middle of a
  section.  `owner` remembers who took the spinlock; the lock itself only knows that it is taken.

  `console_read` drops the lock in order to sleep and does not take it again: what it does afterwards, and its release, happens
  without the lock (`console_read_unlocked`).  As long as no read has to sleep, all is well (`console_lock_owned`).

  `rpos` is `input.r` without wrap-around; it names the committed bytes.
-/
import Armv8Os.Common.Sem
import Armv8Os.Kernel.Console

namespace Armv8Os.ConsoleLock

open Sem Transition List
open Console (Input consoleIntr ctrlD lineFeed)

/-! ## The program -/

/-- The variables of `console_read`. -/
structure Reader where
  target : Int
  n : Int
  deriving DecidableEq

inductive Job where
  | read (n : Int)
  | intr (c : UInt8)
  | write (n : Int)
  deriving DecidableEq

/-- Where a thread is: what it does next. -/
inductive Pc where
  | out (ret : Int)  -- outside; its last call returned `ret`
  | acquire (job : Job)
  | test (rd : Reader)  -- `while (input.r == input.w)`
  | sleep (rd : Reader)  -- `get_all_sem`, the release of the lock, `_wait_sem`
  | asleep (rd : Reader)
  | load (rd : Reader)  -- the old value in `input.r++`
  | take (rd : Reader) (reg : UInt64) (pos : Nat)  -- the new value, and the byte
  | intr (c : UInt8)
  | write (n : Int)
  | release (ret : Int)
  deriving DecidableEq

/-- Between the acquire and the release: the next move uses `input` or releases the lock. -/
def Pc.critical : Pc → Bool
  | .out _ | .acquire _ | .asleep _ => false
  | _ => true

structure State (T : Type*) where
  input : Input
  rlock : Semaphore T
  locked : Bool
  owner : Option T
  rpos : Nat
  pc : T → Pc
  killed : T → Bool
  returned : List (T × Nat)  -- the bytes that were copied out, and for whom

inductive Act (T : Type*) where
  | call (t : T) (job : Job)
  | move (t : T)
  | kill (t : T)

def start {T : Type*} (buf : Fin 128 → UInt8) : State T :=
  { input := (Console.start buf).input, rlock := initSem 0, locked := false, owner := none, rpos := 0, pc := fun _ => .out 0,
    killed := fun _ => false, returned := [] }

/-- `post_all_sem` lets `_wait_sem` return. -/
def Pc.wake : Pc → Pc
  | .asleep rd => .test rd
  | g => g

section Program

variable {T : Type*} [DecidableEq T]

def State.goto (s : State T) (t : T) (g : Pc) : State T := { s with pc := Function.update s.pc t g }

/-- The head of the loop of `console_read`. -/
def Reader.next (rd : Reader) : Pc := if 0 < rd.n then .test rd else .release (rd.target - rd.n)

/-- What follows `_acquire_spinlock`. -/
def Job.enter : Job → Pc
  | .read n => Reader.next { target := n, n := n }
  | .intr c => .intr c
  | .write n => .write n

/-- `get_all_sem(&input.rlock)`, the release of `input.lock` and `_wait_sem`.  A killed process comes back from `sched` at once and
takes itself off the list. -/
def sleepMove (s : State T) (t : T) (rd : Reader) : State T :=
  let rlock := (getAllSem s.rlock).2
  let s := { s with locked := false, owner := none }
  if (waitSem rlock t).1 then { s with rlock := (waitSem rlock t).2 }.goto t (.test rd)
  else if s.killed t then { s with rlock := rlock }.goto t (.test rd)
  else { s with rlock := (waitSem rlock t).2 }.goto t (.asleep rd)

/-- The second half of `c = input.buf[input.r++ % INPUT_BUF]`, and what is done with `c`. -/
def takeMove (s : State T) (t : T) (rd : Reader) (reg : UInt64) (pos : Nat) : State T :=
  let c := s.input.buf (Fin.ofNat 128 reg.toNat)
  let s := { s with input := { s.input with r := reg + 1 }, rpos := pos + 1 }
  if c = ctrlD then
    if rd.n < rd.target then
      { s with input := { s.input with r := s.input.r - 1 }, rpos := pos }.goto t (.release (rd.target - rd.n))
    else s.goto t (.release (rd.target - rd.n))
  else
    let rd := { rd with n := rd.n - 1 }
    let s := { s with returned := s.returned ++ [(t, pos)] }
    if c = lineFeed then s.goto t (.release (rd.target - rd.n)) else s.goto t rd.next

/-- The body of `console_intr`. -/
def intrMove (s : State T) (t : T) (c : UInt8) : Option (State T) :=
  let post := (consoleIntr s.input c).post
  let s := { s with input := (consoleIntr s.input c).input }
  if post then
    (postAllSem s.rlock).map fun r =>
      ({ s with rlock := r.2.2, pc := fun u => if u ∈ r.2.1 then (s.pc u).wake else s.pc u } : State T).goto t (.release 0)
  else some (s.goto t (.release 0))

/-- The next move of a thread. -/
def move (s : State T) (t : T) : Option (State T) :=
  match s.pc t with
  | .out _ => none
  | .acquire job => if s.locked then none else some ({ s with locked := true, owner := some t }.goto t job.enter)
  | .test rd =>
    if s.input.r = s.input.w then
      if s.killed t then some (s.goto t (.release (-1))) else some (s.goto t (.sleep rd))
    else some (s.goto t (.load rd))
  | .sleep rd => some (sleepMove s t rd)
  | .asleep _ => none
  | .load rd => some (s.goto t (.take rd s.input.r s.rpos))
  | .take rd reg pos => some (takeMove s t rd reg pos)
  | .intr c => intrMove s t c
  | .write n => some (s.goto t (.release n))
  | .release ret => some ({ s with locked := false, owner := none }.goto t (.out ret))

def step (s : State T) : Act T → Option (State T)
  | .call t job =>
    match s.pc t with
    | .out _ => some (s.goto t (.acquire job))
    | _ => none
  | .move t => move s t
  -- the reader sleeps so deeply that `alert_proc` does not wake it
  | .kill t => some { s with killed := Function.update s.killed t true }

end Program

/-! ## Owners -/

/-- Has dropped the lock in order to sleep, or is about to. -/
def Pc.sleeps : Pc → Bool
  | .sleep _ | .asleep _ => true
  | _ => false

def Pc.isTest : Pc → Bool
  | .test _ => true
  | _ => false

theorem Pc.wake_of_awake {g : Pc} (hg : g.sleeps = false) : g.wake = g := by
  cases g <;> first | rfl | cases hg

theorem Reader.sleeps_next (rd : Reader) : rd.next.sleeps = false := by
  unfold Reader.next
  split <;> rfl

theorem Reader.next_ne_take (rd rd' : Reader) (reg : UInt64) (pos : Nat) : rd.next ≠ .take rd' reg pos := by
  unfold Reader.next
  split <;> exact Pc.noConfusion

theorem Job.sleeps_enter (job : Job) : job.enter.sleeps = false := by
  cases job with
  | read n => exact Reader.sleeps_next _
  | intr _ => rfl
  | write _ => rfl

theorem Job.enter_ne_take (job : Job) (rd : Reader) (reg : UInt64) (pos : Nat) : job.enter ≠ .take rd reg pos := by
  cases job with
  | read n => exact Reader.next_ne_take _ rd reg pos
  | intr _ => exact Pc.noConfusion
  | write _ => exact Pc.noConfusion

theorem r_eraseLine (n : Nat) (inp : Input) : (Console.eraseLine n inp).1.r = inp.r := by
  induction n generalizing inp with
  | zero => rfl
  | succ n ih =>
    rw [Console.eraseLine]
    split
    · exact ih _
    · rfl

/-- Only a reader moves `r`. -/
theorem r_consoleIntr (inp : Input) (c : UInt8) : (consoleIntr inp c).input.r = inp.r := by
  unfold consoleIntr Console.store
  split
  · rfl
  split
  · split <;> rfl
  split
  · exact r_eraseLine _ _
  split
  · rfl
  split
  · generalize (if c = Console.carriageReturn then lineFeed else c) = c'
    by_cases hcommit : c' = lineFeed ∨ c' = ctrlD ∨ inp.e + 1 - inp.r = 128
    · rw [if_pos hcommit]
    · rw [if_neg hcommit]
  · rfl

section Owners

variable {T : Type*}

/-- What holds in every state of a run in which no read goes to sleep. -/
structure Inv (s : State T) : Prop where
  locked : s.locked = s.owner.isSome
  owned : ∀ t, (s.pc t).critical = true → s.owner = some t
  awake : ∀ t, (s.pc t).sleeps = false
  shadow : s.input.r = UInt64.ofNat s.rpos
  loaded : ∀ t rd reg pos, s.pc t = .take rd reg pos → reg = s.input.r ∧ pos = s.rpos
  fresh : ∀ x ∈ s.returned, x.2 < s.rpos
  once : (s.returned.map Prod.snd).Nodup

theorem start_inv (buf : Fin 128 → UInt8) : Inv (start buf : State T) where
  locked := rfl
  owned _ h := nomatch h
  awake _ := rfl
  shadow := rfl
  loaded _ _ _ _ h := nomatch h
  fresh _ h := nomatch h
  once := nodup_nil

variable [DecidableEq T] {s s' : State T} {t : T}

theorem pc_goto_self (s : State T) (t : T) (g : Pc) : (s.goto t g).pc t = g := Function.update_self ..

theorem pc_goto_of_ne (s : State T) {t u : T} (hne : u ≠ t) (g : Pc) : (s.goto t g).pc u = s.pc u := Function.update_of_ne hne ..

/-- The owner is the only one in a section, so it may change `input` as it likes. -/
theorem Inv.inside (h : Inv s) (hin : (s.pc t).critical = true) {g : Pc} (hg : g.sleeps = false)
    {inp : Input} {rlock : Semaphore T} {rpos : Nat} {returned : List (T × Nat)} (hshadow : inp.r = UInt64.ofNat rpos)
    (hload : ∀ rd reg pos, g = .take rd reg pos → reg = inp.r ∧ pos = rpos) (hfresh : ∀ x ∈ returned, x.2 < rpos)
    (honce : (returned.map Prod.snd).Nodup) :
    Inv ({ s with input := inp, rlock := rlock, rpos := rpos, returned := returned }.goto t g) := by
  have howner := h.owned t hin
  constructor
  · exact h.locked
  · intro u hu
    by_cases hut : u = t
    · rw [hut]
      exact howner
    · rw [pc_goto_of_ne _ hut] at hu
      exact h.owned u hu
  · intro u
    by_cases hut : u = t
    · rw [hut, pc_goto_self]
      exact hg
    · rw [pc_goto_of_ne _ hut]
      exact h.awake u
  · exact hshadow
  · intro u rd reg pos hu
    by_cases hut : u = t
    · rw [hut, pc_goto_self] at hu
      exact hload rd reg pos hu
    · -- somebody else inside would own the lock as well
      rw [pc_goto_of_ne _ hut] at hu
      have hother := h.owned u (by rw [show s.pc u = _ from hu]; rfl)
      rw [howner] at hother
      exact absurd (Option.some.inj hother).symm hut
  · exact hfresh
  · exact honce

/-- Moves of the owner that change nothing but its place. -/
theorem Inv.goto (h : Inv s) (hin : (s.pc t).critical = true) {g : Pc} (hg : g.sleeps = false)
    (hload : ∀ rd reg pos, g = .take rd reg pos → reg = s.input.r ∧ pos = s.rpos) : Inv (s.goto t g) :=
  h.inside hin hg h.shadow hload h.fresh h.once

/-- Moves of a thread to a place outside of the section, and what they do to the lock. -/
theorem Inv.outside (h : Inv s) {g : Pc} (hg : g.sleeps = false) (hout : g.critical = false) {locked : Bool} {owner : Option T}
    (hlocked : locked = owner.isSome) (howner : ∀ u, u ≠ t → (s.pc u).critical = true → owner = some u) :
    Inv ({ s with locked := locked, owner := owner }.goto t g) := by
  constructor
  · exact hlocked
  · intro u hu
    by_cases hut : u = t
    · rw [hut, pc_goto_self, hout] at hu
      cases hu
    · rw [pc_goto_of_ne _ hut] at hu
      exact howner u hut hu
  · intro u
    by_cases hut : u = t
    · rw [hut, pc_goto_self]
      exact hg
    · rw [pc_goto_of_ne _ hut]
      exact h.awake u
  · exact h.shadow
  · intro u rd reg pos hu
    by_cases hut : u = t
    · rw [hut, pc_goto_self] at hu
      rw [hu] at hout
      cases hout
    · rw [pc_goto_of_ne _ hut] at hu
      exact h.loaded u rd reg pos hu
  · exact h.fresh
  · exact h.once

/-- The acquire: nobody is inside. -/
theorem Inv.enter (h : Inv s) (hfree : s.locked = false) (job : Job) :
    Inv ({ s with locked := true, owner := some t }.goto t job.enter) := by
  have hnone : s.owner = none := by
    rw [h.locked] at hfree
    exact Option.isSome_eq_false_iff.mp hfree |> Option.isNone_iff_eq_none.mp
  have hnobody : ∀ u, (s.pc u).critical = false := by
    intro u
    by_contra hu
    have := h.owned u (by simpa using hu)
    rw [hnone] at this
    cases this
  constructor
  · rfl
  · intro u hu
    by_cases hut : u = t
    · rw [hut]
      rfl
    · rw [pc_goto_of_ne _ hut] at hu
      exact absurd hu (by rw [hnobody u]; exact Bool.false_ne_true)
  · intro u
    by_cases hut : u = t
    · rw [hut, pc_goto_self]
      exact job.sleeps_enter
    · rw [pc_goto_of_ne _ hut]
      exact h.awake u
  · exact h.shadow
  · intro u rd reg pos hu
    by_cases hut : u = t
    · rw [hut, pc_goto_self] at hu
      exact absurd hu (job.enter_ne_take rd reg pos)
    · rw [pc_goto_of_ne _ hut] at hu
      exact h.loaded u rd reg pos hu
  · exact h.fresh
  · exact h.once

/-- The byte at `rpos` goes to one reader, and `rpos` passes it. -/
theorem Inv.take (h : Inv s) {rd : Reader} {reg : UInt64} {pos : Nat} (ht : s.pc t = .take rd reg pos) :
    Inv (takeMove s t rd reg pos) := by
  have hin : (s.pc t).critical = true := by rw [ht]; rfl
  obtain ⟨rfl, rfl⟩ := h.loaded t rd reg pos ht
  have hshadow : s.input.r + 1 = UInt64.ofNat (s.rpos + 1) := by
    rw [h.shadow, UInt64.ofNat_add]
    rfl
  have hfresh : ∀ x ∈ s.returned, x.2 < s.rpos + 1 := fun x hx => (h.fresh x hx).trans (Nat.lt_succ_self _)
  unfold takeMove
  dsimp only
  split
  · split
    · refine h.inside hin rfl ?_ (fun _ _ _ => Pc.noConfusion) h.fresh h.once
      show s.input.r + 1 - 1 = _
      rw [UInt64.add_sub_cancel]
      exact h.shadow
    · exact h.inside hin rfl hshadow (fun _ _ _ => Pc.noConfusion) hfresh h.once
  · have hfresh' : ∀ x ∈ s.returned ++ [(t, s.rpos)], x.2 < s.rpos + 1 := by
      intro x hx
      obtain hx | hx := mem_append.mp hx
      · exact hfresh x hx
      · rw [mem_singleton.mp hx]
        exact Nat.lt_succ_self _
    have honce : ((s.returned ++ [(t, s.rpos)]).map Prod.snd).Nodup := by
      rw [map_append, map_singleton]
      refine nodup_append.mpr ⟨h.once, nodup_singleton _, ?_⟩
      intro p hp q hq
      obtain ⟨x, hx, rfl⟩ := mem_map.mp hp
      rw [mem_singleton.mp hq]
      exact (h.fresh x hx).ne
    split
    · exact h.inside hin rfl hshadow (fun _ _ _ => Pc.noConfusion) hfresh' honce
    · exact h.inside hin (Reader.sleeps_next _) hshadow
        (fun _ _ _ hnext => absurd hnext (Reader.next_ne_take _ _ _ _)) hfresh' honce

/-- Nobody sleeps, so `post_all_sem` wakes nobody. -/
theorem Inv.intr (h : Inv s) {c : UInt8} (ht : s.pc t = .intr c) (hmove : intrMove s t c = some s') : Inv s' := by
  have hin : (s.pc t).critical = true := by rw [ht]; rfl
  have hshadow : (consoleIntr s.input c).input.r = UInt64.ofNat s.rpos := by
    rw [r_consoleIntr]
    exact h.shadow
  unfold intrMove at hmove
  dsimp only at hmove
  split at hmove
  · obtain ⟨r, -, rfl⟩ := Option.map_eq_some_iff.mp hmove
    have hpc : (fun u => if u ∈ r.2.1 then (s.pc u).wake else s.pc u) = s.pc := by
      funext u
      rw [Pc.wake_of_awake (h.awake u), ite_self]
    rw [hpc]
    exact h.inside hin rfl hshadow (fun _ _ _ => Pc.noConfusion) h.fresh h.once
  · cases hmove
    exact h.inside hin rfl hshadow (fun _ _ _ => Pc.noConfusion) h.fresh h.once

/-- The read that is at its test finds a byte, or its process has been killed. -/
def Ready (s : State T) : Act T → Prop
  | .move t => (s.pc t).isTest = true → s.input.r ≠ s.input.w ∨ s.killed t = true
  | .call _ _ | .kill _ => True

instance decidableReady (s : State T) : ∀ a, Decidable (Ready s a)
  | .move t => inferInstanceAs (Decidable ((s.pc t).isTest = true → s.input.r ≠ s.input.w ∨ s.killed t = true))
  | .call _ _ | .kill _ => isTrue trivial

theorem Inv.move (h : Inv s) (hready : Ready s (.move t)) (hmove : move s t = some s') : Inv s' := by
  unfold ConsoleLock.move at hmove
  split at hmove
  case h_1 => cases hmove
  case h_2 job ht =>
    split at hmove
    · cases hmove
    · next hfree =>
      cases hmove
      exact h.enter (by simpa using hfree) job
  case h_3 rd ht =>
    have hin : (s.pc t).critical = true := by rw [ht]; rfl
    have hgoto {g : Pc} (hg : g.sleeps = false) (hnt : ∀ rd reg pos, g ≠ .take rd reg pos) : Inv (s.goto t g) :=
      h.goto hin hg fun rd reg pos heq => absurd heq (hnt rd reg pos)
    split at hmove
    next hempty =>
      have hkilled := (hready (by rw [ht]; rfl)).resolve_left (fun hne => hne hempty)
      rw [if_pos hkilled] at hmove
      cases hmove
      exact hgoto rfl fun _ _ _ => Pc.noConfusion
    next =>
      cases hmove
      exact hgoto rfl fun _ _ _ => Pc.noConfusion
  case h_4 rd ht =>
    have hawake := h.awake t
    rw [ht] at hawake
    cases hawake
  case h_5 => cases hmove
  case h_6 rd ht =>
    cases hmove
    refine h.goto (by rw [ht]; rfl) rfl ?_
    intro _ _ _ heq
    cases heq
    exact ⟨rfl, rfl⟩
  case h_7 rd reg pos ht =>
    cases hmove
    exact h.take ht
  case h_8 c ht => exact h.intr ht hmove
  case h_9 n ht =>
    cases hmove
    exact h.goto (by rw [ht]; rfl) rfl fun _ _ _ => Pc.noConfusion
  case h_10 ret ht =>
    cases hmove
    refine h.outside rfl rfl rfl ?_
    intro u hut hu
    have howner := h.owned t (by rw [ht]; rfl)
    rw [h.owned u hu] at howner
    exact absurd (Option.some.inj howner) hut

theorem step_inv {a : Act T} (h : Inv s) (hready : Ready s a) (hstep : step s a = some s') : Inv s' := by
  cases a with
  | call t job =>
    unfold step at hstep
    dsimp only at hstep
    split at hstep
    · cases hstep
      exact h.outside rfl rfl h.locked fun u _ hu => h.owned u hu
    · cases hstep
  | move t => exact h.move hready hstep
  | kill t =>
    cases hstep
    exact ⟨h.locked, h.owned, h.awake, h.shadow, h.loaded, h.fresh, h.once⟩

/-- **Who is in a section owns `input.lock`, and no byte is returned twice**, in every run in which no read has to sleep. -/
theorem console_lock_owned (buf : Fin 128 → UInt8) (as : List (Act T)) (s : State T) (hready : RunMeets step Ready (start buf) as)
    (hrun : run step (start buf) as = some s) :
    (∀ t, (s.pc t).critical = true → s.owner = some t) ∧ (s.returned.map Prod.snd).Nodup := by
  have hinv := run_invariant (fun _ _ _ h => step_inv h) as (start buf) s (start_inv buf) hready hrun
  exact ⟨hinv.owned, hinv.once⟩

end Owners

/-- A character arrives at `t`. -/
def typed (t : Fin 3) (c : UInt8) : List (Act (Fin 3)) := [.call t (.intr c), .move t, .move t, .move t]

/-- `x` and a line feed are typed; a process has read the first and goes on to the second. -/
theorem console_lock_owned_line : ∃ s, run step (start fun _ => 0)
      (typed 2 120 ++ typed 2 10 ++ [.call 0 (.read 9), .move 0, .move 0, .move 0, .move 0]) = some s ∧
    s.returned = [(0, 0)] ∧ (s.pc 0).critical = true ∧ s.owner = some 0 ∧ (s.returned.map Prod.snd).Nodup := by
  have hready : RunMeets step Ready (start fun _ => 0)
      (typed 2 120 ++ typed 2 10 ++ [.call 0 (.read 9), .move 0, .move 0, .move 0, .move 0]) := by decide +kernel
  refine exists_run (P := fun s => s.returned = [(0, 0)] ∧ (s.pc 0).critical = true) (by decide +kernel)
    fun s hrun ⟨hreturned, hin⟩ => ?_
  obtain ⟨howned, honce⟩ := console_lock_owned _ _ s hready hrun
  exact ⟨hreturned, hin, howned 0 hin, honce⟩

/-- Two processes sleep for input.  `x` and a line feed wake both of them.  They go on without the lock, load the same `r` and return
the same byte; the first one is about to release a lock it does not own. -/
theorem console_read_unlocked : ∃ s, run step (start fun _ => 0)
      ([.call 0 (.read 9), .move 0, .move 0, .move 0, .call 1 (.read 9), .move 1, .move 1, .move 1] ++ typed 2 120 ++ typed 2 10 ++
        [.move 0, .move 1, .move 0, .move 1, .move 0, .move 1, .move 0, .move 0, .move 0]) = some s ∧
    s.returned = [(0, 0), (1, 0), (0, 1)] ∧ s.owner = none ∧ s.pc 0 = .release 2 ∧ (s.pc 1).critical = true := by
  decide +kernel

end Armv8Os.ConsoleLock
