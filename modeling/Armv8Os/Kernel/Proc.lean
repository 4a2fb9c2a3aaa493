/-
  `kernel/proc.c` and `kernel/container.c`: the process tree, `wait` and `exit`.

  Every process is somewhere in its own code (`Pc`), and a move of `step` is one section: what is done
  under `plock`, one semaphore operation, or a step of `exit` between two of them.  `exit` holds `plock`
  over its whole loop, so it is cut into its rounds: the waiting of other processes on their semaphores
  can fall between them.  It takes `schlock` before it gives up `plock` and keeps it until the
  process is ZOMBIE; whoever calls `is_zombie` needs `schlock` and cannot see it before.

  A new process is known to its creator alone until `start_proc`, so `create_proc` comes together with
  `set_parent_to_this` and `set_container_to_this` (each done or left out): `spawn`.  `fork` is a
  `spawn` with both, and `create_container` is a move of its own.

  A `pidmap` is the list of the pids in use.  Its counter `free_num` is left out: it starts one above the
  number of pids, so it is never 0 before they are used up.
-/
import Armv8Os.Lib.Transition
import Armv8Os.Lib.Forest
import Armv8Os.Common.Sem

namespace Armv8Os.Proc

open Sem Transition
open Function (update)

/-! ## The source -/

def pidMax : Nat := 0x1000

/-- `alloc_pid`: the least pid that is free, -1 when there is none. -/
def allocPid (used : List Nat) : Int × List Nat :=
  match (List.range' 1 (pidMax - 1)).find? fun n => n ∉ used with
  | some n => (n, n :: used)
  | none => (-1, used)

/-- `free_pid`.  For -1 it clears a bit in front of the map, which is not set. -/
def freePid (used : List Nat) (pid : Int) : List Nat := if 0 < pid then used.erase pid.toNat else used

/-- Where a process is. -/
inductive Pc where
  /-- no such process yet -/
  | absent
  /-- UNUSED: created and not started -/
  | created
  | run
  /-- in `wait`, `children` was not empty -/
  | checked
  /-- in `wait`, asleep on `childexit` -/
  | asleep
  /-- in `wait`, has a token and not yet `plock` -/
  | got
  /-- in the loop of `exit`, with `plock` -/
  | exiting
  /-- has posted its parent's `childexit`, with `plock` -/
  | posted
  /-- in `_sched(ZOMBIE)`, with `schlock` -/
  | switching
  | zombie
  /-- freed by `wait` -/
  | reaped
  deriving Repr, DecidableEq

/-- `struct container`. -/
structure Container (P K : Type) where
  parent : Option K
  rootproc : P
  localpidmap : List Nat
  deriving Repr

/-- The processes, by field, the containers and the two locks; `reaped` is the history of `wait`. -/
structure State (P K : Type) where
  pc : P → Pc
  pid : P → Int
  localpid : P → Int
  exitcode : P → Int
  parent : P → Option P
  children : P → List P
  container : P → K
  childexit : P → Semaphore P
  containers : K → Option (Container P K)
  pidmap : List Nat
  plock : Option P
  schlock : Option P
  reaped : List P

variable {P K : Type} [DecidableEq P] [DecidableEq K]

def State.setPc (s : State P K) (p : P) (c : Pc) : State P K :=
  { s with pc := update s.pc p c }

def State.setSem (s : State P K) (p : P) (sem : Semaphore P) : State P K :=
  { s with childexit := update s.childexit p sem }

/-- `create_proc`: `init_proc` on a new process, in the root container. -/
def createProc (rc : K) (s : State P K) (q : P) : State P K :=
  { s with
    pc := update s.pc q .created
    pid := update s.pid q (allocPid s.pidmap).1
    pidmap := (allocPid s.pidmap).2
    localpid := update s.localpid q 0
    exitcode := update s.exitcode q 0
    parent := update s.parent q none
    children := update s.children q []
    container := update s.container q rc
    childexit := update s.childexit q (initSem 0) }

/-- `p->parent = ..` and `_insert_into_list(&..->children, &p->ptnode)`. -/
def attach (s : State P K) (p q : P) : State P K :=
  { s with
    parent := update s.parent q (some p)
    children := update s.children p (q :: s.children p) }

/-- `set_container_to_this`. -/
def setContainerToThis (s : State P K) (p q : P) : State P K :=
  { s with container := update s.container q (s.container p) }

/-- `create_container` up to `start_proc`. -/
def createContainer (rc : K) (s : State P K) (p q : P) (k : K) : State P K :=
  let s' := attach (createProc rc s q) p q
  { s' with
    containers := update s'.containers k
      (some { parent := some (s.container p), rootproc := q, localpidmap := [] })
    container := update s'.container q k }

/-- `start_proc`: `none` for a container that does not exist. -/
def startProc (root : P) (s : State P K) (q : P) : Option (State P K) :=
  let s' := if s.parent q = none then attach s root q else s
  (s'.containers (s'.container q)).map fun k =>
    { s' with
      localpid := update s'.localpid q (allocPid k.localpidmap).1
      containers := update s'.containers (s'.container q)
        (some { k with localpidmap := (allocPid k.localpidmap).2 })
      pc := update s'.pc q .run }

/-- `post_sem(&p->childexit)`; the only waiter is `p` itself. -/
def postChildexit (s : State P K) (p : P) : Option (State P K) :=
  (postSem (s.childexit p)).map fun r =>
    let s' := s.setSem p r.2
    match r.1 with
    | none => s'
    | some w => s'.setPc w .got

/-- One round of the loop of `exit`: the first child goes to the root process of its container. -/
def handOver (s : State P K) (p : P) : Option (State P K) :=
  match s.children p with
  | [] => none
  | c :: rest =>
    (s.containers (s.container c)).bind fun k =>
      let s' := attach { s with children := update s.children p rest } k.rootproc c
      if s.pc c = .zombie then postChildexit s' k.rootproc else some s'

/-- The loop of `wait` over the children. -/
def State.findZombie (s : State P K) (p : P) : Option P := (s.children p).find? fun c => s.pc c = .zombie

/-- What `wait` returns in `w_pid`, 0 if the loop finds nothing. -/
def State.waitResult (s : State P K) (p : P) : Int :=
  match s.findZombie p with
  | none => 0
  | some z => s.localpid z

/-- The section of `wait` under `plock`. -/
def reap (s : State P K) (p : P) : State P K :=
  match s.findZombie p with
  | none => s.setPc p .run
  | some z =>
    { s with
      pc := update (update s.pc z .reaped) p .run
      parent := update s.parent z none
      children := update s.children p ((s.children p).erase z)
      containers := fun k =>
        if k = s.container z then (s.containers k).map fun c =>
          { c with localpidmap := freePid c.localpidmap (s.localpid z) }
        else s.containers k
      pidmap := freePid s.pidmap (s.pid z)
      reaped := z :: s.reaped }

/-- `traverse_proc`; the number bounds how deep it goes, and the outer `none` says that it is too small. -/
def traverseProc (s : State P K) (pid : Int) : Nat → P → Option (Option P) :=
  Forest.search s.children fun c => s.pid c = pid

/-! ## The system -/

inductive Act (P K : Type) where
  /-- `create_proc`, then `set_parent_to_this` and `set_container_to_this` or not -/
  | spawn (p q : P) (adopt join : Bool)
  | createContainer (p q : P) (k : K)
  | start (p q : P)
  | check (p : P)
  | waitSem (p : P)
  | reap (p : P)
  | exit (p : P) (code : Int)
  | handOver (p : P)
  | postParent (p : P)
  | toSched (p : P)
  | die (p : P)
  deriving Repr

/-- One section of one process.  `none`: the process is not there in its code, a lock is taken, or an
    assertion fails (a container's root process does not exit). -/
def step (root : P) (rc : K) (s : State P K) : Act P K → Option (State P K)
  | .spawn p q adopt join =>
    if s.pc p = .run ∧ s.pc q = .absent ∧ (adopt = true → s.plock = none) then
      let s₁ := createProc rc s q
      let s₂ := if adopt then attach s₁ p q else s₁
      some (if join then setContainerToThis s₂ p q else s₂)
    else none
  | .createContainer p q k =>
    if s.pc p = .run ∧ s.pc q = .absent ∧ s.containers k = none ∧ s.plock = none then
      some (createContainer rc s p q k)
    else none
  | .start p q =>
    if s.pc p = .run ∧ s.pc q = .created ∧ (s.parent q = none → s.plock = none) then startProc root s q
    else none
  | .check p =>
    if s.pc p = .run ∧ s.children p ≠ [] then some (s.setPc p .checked) else none
  | .waitSem p =>
    if s.pc p = .checked then
      some ((s.setSem p (waitSem (s.childexit p) p).2).setPc p
        (if (waitSem (s.childexit p) p).1 then .got else .asleep))
    else none
  | .reap p =>
    if s.pc p = .got ∧ s.plock = none ∧ s.schlock = none then some (reap s p) else none
  | .exit p code =>
    if s.pc p = .run ∧ s.plock = none then
      (s.containers (s.container p)).bind fun k =>
        if p ≠ k.rootproc then
          some { s.setPc p .exiting with
            exitcode := update s.exitcode p code, plock := some p }
        else none
    else none
  | .handOver p =>
    if s.pc p = .exiting ∧ s.schlock = none then handOver s p else none
  | .postParent p =>
    if s.pc p = .exiting ∧ s.children p = [] then
      (s.parent p).bind fun q => (postChildexit s q).map fun s' => s'.setPc p .posted
    else none
  | .toSched p =>
    if s.pc p = .posted ∧ s.schlock = none then
      some { s.setPc p .switching with plock := none, schlock := some p }
    else none
  | .die p =>
    if s.pc p = .switching then some { s.setPc p .zombie with schlock := none } else none

/-- `define_init(root_proc)`: the root process runs in the root container, it is its own parent, and
    it is on no list. -/
def boot (root : P) (rc : K) : State P K :=
  { pc := fun p => if p = root then .run else .absent
    pid := fun _ => 1
    localpid := fun _ => 1
    exitcode := fun _ => 0
    parent := fun p => if p = root then some root else none
    children := fun _ => []
    container := fun _ => rc
    childexit := fun _ => initSem 0
    containers := fun k =>
      if k = rc then some { parent := none, rootproc := root, localpidmap := [1] } else none
    pidmap := [1]
    plock := none
    schlock := none
    reaped := [] }

end Armv8Os.Proc
