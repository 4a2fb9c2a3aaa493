/-
  `fs/pipe.c`: pipes.

  A pipe is a ring of 512 bytes with two counters that wrap around at 2^32.  A writer that finds the ring full, and a reader that
  finds it empty, sleeps on a semaphore with the lock dropped; other writers and readers run in between.

  1. **Program** — `writeLoop` and `readLoop` are the loops; a move of `step` is what a process does between two moments at which
     it gives up `pi->lock`, together with the `_wait_sem` it goes to sleep in.

  2. **Specification** — the state keeps the bytes that were stored and those that were taken out, in the order of events.

  3. **Crux** — `Fifo`: what was taken, followed by what is in the ring, is what was stored.  Sleeping needs `Sleepers`: the lists
     of the semaphores hold the processes that sleep there.

  What `killed` says at each look is a choice of the environment.
-/
import Armv8Os.Lib.Transition
import Armv8Os.Lib.Ring
import Armv8Os.Common.Sem

set_option linter.unusedSectionVars false

namespace Armv8Os.Pipes

open Sem Transition List Option

/-! ## The program -/

/-- `Pipe`; `PIPESIZE` is 512. -/
structure Pipe (T : Type*) where
  wlock : Semaphore T
  rlock : Semaphore T
  data : Fin 512 → UInt8
  nread : UInt32
  nwrite : UInt32
  readopen : Bool
  writeopen : Bool

/-- `pipeAlloc`; `kalloc` leaves the data as they are. -/
def pipeAlloc {T : Type*} (data : Fin 512 → UInt8) : Pipe T :=
  { wlock := initSem 0, rlock := initSem 0, data := data, nread := 0, nwrite := 0, readopen := true, writeopen := true }

/-- How the loop of `pipeWrite` ends. -/
inductive WriteEnd where
  | done
  | refused  -- no reader, or killed
  | full (rest : List UInt8)
  deriving DecidableEq

section Program

variable {T : Type*}

/-- `pi->data[pi->nwrite++ % PIPESIZE] = b`. -/
def Pipe.put (pi : Pipe T) (b : UInt8) : Pipe T :=
  { pi with data := Ring.write pi.data pi.nwrite.toNat b, nwrite := pi.nwrite + 1 }

/-- The loop of `pipeWrite`, and the bytes it has stored; `killed` says after how many bytes it finds the process killed. -/
def writeLoop : Option Nat → List UInt8 → Pipe T → WriteEnd × List UInt8 × Pipe T
  | _, [], pi => (.done, [], pi)
  | killed, b :: bs, pi =>
    if pi.readopen = false ∨ killed = some 0 then (.refused, [], pi)
    else if pi.nwrite = pi.nread + 512 then (.full (b :: bs), [], pi)
    else
      let (ending, stored, pi') := writeLoop (killed.map (· - 1)) bs (pi.put b)
      (ending, b :: stored, pi')

/-- The `for` of `pipeRead`. -/
def readLoop : Nat → Pipe T → List UInt8 × Pipe T
  | 0, pi => ([], pi)
  | n + 1, pi =>
    if pi.nread = pi.nwrite then ([], pi)
    else
      let (bs, pi') := readLoop n { pi with nread := pi.nread + 1 }
      (pi.data (Fin.ofNat 512 pi.nread.toNat) :: bs, pi')

end Program

/-! ## The system -/

/-- Where a process is; `up` is that of its `WaitData`. -/
inductive Stage where
  | out (ret : Int)  -- outside; its last call returned `ret`
  | write (i : Nat) (rest : List UInt8) (up : Bool)  -- in `_wait_sem(&pi->wlock)`
  | read (n : Int) (up : Bool)  -- in `_wait_sem(&pi->rlock)`
  deriving DecidableEq

def Stage.wake : Stage → Stage
  | .out ret => .out ret
  | .write i rest _ => .write i rest true
  | .read n _ => .read n true

/-- The pipe, the processes and the history. -/
structure State (T : Type*) where
  pipe : Pipe T
  stage : T → Stage
  freed : Bool
  stored : List UInt8
  taken : List UInt8

inductive Act (T : Type*) where
  | write (t : T) (bytes : List UInt8) (killed : Option Nat)
  | read (t : T) (n : Int) (killed : Bool)
  | resumeWrite (t : T) (killed : Option Nat)
  | resumeRead (t : T) (killed : Bool)
  | close (writable : Bool)

def start {T : Type*} (data : Fin 512 → UInt8) : State T :=
  { pipe := pipeAlloc data, stage := fun _ => .out 0, freed := false, stored := [], taken := [] }

section System

variable {T : Type*} [DecidableEq T]

def State.goto (s : State T) (t : T) (g : Stage) : State T := { s with stage := Function.update s.stage t g }

/-- `up` is set for each of `ws`. -/
def State.wake (s : State T) (ws : List T) : State T :=
  { s with stage := fun t => if t ∈ ws then (s.stage t).wake else s.stage t }

/-- `post_all_sem(&pi->rlock)`. -/
def wakeReaders (s : State T) : Option (State T) :=
  (postAllSem s.pipe.rlock).map fun r => { s with pipe := { s.pipe with rlock := r.2.2 } }.wake r.2.1

/-- `post_all_sem(&pi->wlock)`. -/
def wakeWriters (s : State T) : Option (State T) :=
  (postAllSem s.pipe.wlock).map fun r => { s with pipe := { s.pipe with wlock := r.2.2 } }.wake r.2.1

/-- `get_all_sem(&pi->wlock)` and `_wait_sem`. -/
def sleepWriter (s : State T) (t : T) (i : Nat) (rest : List UInt8) : State T :=
  let (got, wlock) := waitSem (getAllSem s.pipe.wlock).2 t
  { s with pipe := { s.pipe with wlock := wlock } }.goto t (.write i rest got)

/-- `get_all_sem(&pi->rlock)` and `_wait_sem`. -/
def sleepReader (s : State T) (t : T) (n : Int) : State T :=
  let (got, rlock) := waitSem (getAllSem s.pipe.rlock).2 t
  { s with pipe := { s.pipe with rlock := rlock } }.goto t (.read n got)

/-- `pipeWrite` with `i` bytes written, from the lock on. -/
def writeSection (s : State T) (t : T) (i : Nat) (bytes : List UInt8) (killed : Option Nat) : Option (State T) :=
  let (ending, stored, pi) := writeLoop killed bytes s.pipe
  let s := { s with pipe := pi, stored := s.stored ++ stored }
  match ending with
  | .refused => some (s.goto t (.out (-1)))
  | .done => (wakeReaders s).map (·.goto t (.out (i + stored.length)))
  | .full rest => (wakeReaders s).map (sleepWriter · t (i + stored.length) rest)

/-- `pipeRead`, from the lock on. -/
def readSection (s : State T) (t : T) (n : Int) (killed : Bool) : Option (State T) :=
  if s.pipe.nread = s.pipe.nwrite ∧ s.pipe.writeopen then
    if killed then some (s.goto t (.out (-1))) else some (sleepReader s t n)
  else
    let (bs, pi) := readLoop n.toNat s.pipe
    (wakeWriters { s with pipe := pi, taken := s.taken ++ bs }).map (·.goto t (.out bs.length))

/-- `pipeClose`. -/
def pipeClose (s : State T) (writable : Bool) : Option (State T) :=
  let close (s : State T) : State T := { s with freed := !s.pipe.readopen && !s.pipe.writeopen }
  if writable then
    (postSem s.pipe.rlock).map fun r =>
      close ({ s with pipe := { s.pipe with writeopen := false, rlock := r.2 } }.wake r.1.toList)
  else
    (postSem s.pipe.wlock).map fun r =>
      close ({ s with pipe := { s.pipe with readopen := false, wlock := r.2 } }.wake r.1.toList)

/-- One section of one process. -/
def step (s : State T) (a : Act T) : Option (State T) :=
  if s.freed then none
  else
    match a with
    | .write t bytes killed =>
      match s.stage t with
      | .out _ => writeSection s t 0 bytes killed
      | _ => none
    | .resumeWrite t killed =>
      match s.stage t with
      | .write i rest true => writeSection s t i rest killed
      | _ => none
    | .read t n killed =>
      match s.stage t with
      | .out _ => readSection s t n killed
      | _ => none
    | .resumeRead t killed =>
      match s.stage t with
      | .read n true => readSection s t n killed
      | _ => none
    | .close writable => pipeClose s writable


/-- In `_wait_sem`, and no post has come. -/
def Stage.asleep : Stage → Bool
  | .write _ _ false | .read _ false => true
  | _ => false

/-- The call of `pipeRead` that makes this move. -/
def Act.reader (s : State T) : Act T → Option (T × Int)
  | .read t n _ => some (t, n)
  | .resumeRead t _ =>
    match s.stage t with
    | .read n _ => some (t, n)
    | _ => none
  | _ => none

/-- A move is a section of `pipeWrite` or of `pipeRead`, or `pipeClose`. -/
theorem step_cases {s s' : State T} {a : Act T} (hstep : step s a = some s') :
    (∃ t i bytes killed, (s.stage t).asleep = false ∧ a.reader s = none ∧ writeSection s t i bytes killed = some s') ∨
      (∃ t n killed, (s.stage t).asleep = false ∧ a.reader s = some (t, n) ∧ readSection s t n killed = some s') ∨
      ∃ writable, a = .close writable ∧ pipeClose s writable = some s' := by
  unfold step at hstep
  split at hstep
  next => cases hstep
  next =>
    cases a with
    | write t bytes killed =>
      dsimp only at hstep
      split at hstep
      next ret hstage => exact .inl ⟨t, 0, bytes, killed, by rw [hstage]; rfl, rfl, hstep⟩
      next => cases hstep
    | resumeWrite t killed =>
      dsimp only at hstep
      split at hstep
      next i rest hstage => exact .inl ⟨t, i, rest, killed, by rw [hstage]; rfl, rfl, hstep⟩
      next => cases hstep
    | read t n killed =>
      dsimp only at hstep
      split at hstep
      next ret hstage => exact .inr (.inl ⟨t, n, killed, by rw [hstage]; rfl, rfl, hstep⟩)
      next => cases hstep
    | resumeRead t killed =>
      dsimp only at hstep
      split at hstep
      next n hstage => exact .inr (.inl ⟨t, n, killed, by rw [hstage]; rfl, by simp [Act.reader, hstage], hstep⟩)
      next => cases hstep
    | close writable => exact .inr (.inr ⟨writable, rfl, hstep⟩)

end System

/-! ## The ring -/

section Bytes

variable {T : Type*} {pi : Pipe T}

/-- `nwrite - nread`, modulo 2^32. -/
def Pipe.count (pi : Pipe T) : Nat := (pi.nwrite - pi.nread).toNat

/-- The bytes that are in the ring. -/
def Pipe.ring (pi : Pipe T) : List UInt8 := Ring.window pi.data pi.nread.toNat pi.count

/-- The counters agree modulo the size of the ring, which divides 2^32. -/
theorem nwrite_modEq (pi : Pipe T) : pi.nwrite.toNat ≡ pi.nread.toNat + pi.count [MOD 512] := by
  have hr := pi.nread.toNat_lt
  rw [Pipe.count, UInt32.toNat_sub]
  show _ % 512 = _ % 512
  omega

theorem count_put (hroom : pi.count < 512) (b : UInt8) : (pi.put b).count = pi.count + 1 := by
  simp only [Pipe.count, Pipe.put, UInt32.toNat_sub, UInt32.toNat_add, UInt32.reduceToNat] at hroom ⊢
  omega

theorem ring_put (hroom : pi.count < 512) (b : UInt8) : (pi.put b).ring = pi.ring ++ [b] := by
  unfold Pipe.ring
  rw [count_put hroom]
  show Ring.window (Ring.write pi.data pi.nwrite.toNat b) pi.nread.toNat (pi.count + 1) = _
  rw [Ring.write_congr pi.data (nwrite_modEq pi), Ring.window_push pi.data pi.nread.toNat b hroom]

theorem count_lt_of_not_full (hle : pi.count ≤ 512) (hfull : pi.nwrite ≠ pi.nread + 512) : pi.count < 512 := by
  refine lt_of_le_of_ne hle fun heq => hfull ?_
  have hr := pi.nread.toNat_lt
  have hw := pi.nwrite.toNat_lt
  apply UInt32.toNat_inj.mp
  simp only [Pipe.count, UInt32.toNat_sub, UInt32.toNat_add, UInt32.reduceToNat] at heq ⊢
  omega

theorem ring_eq_nil_iff : pi.ring = [] ↔ pi.nread = pi.nwrite := by
  rw [← length_eq_zero_iff, Pipe.ring, Ring.length_window, Pipe.count]
  constructor
  · intro h
    have hr := pi.nread.toNat_lt
    have hw := pi.nwrite.toNat_lt
    apply UInt32.toNat_inj.mp
    rw [UInt32.toNat_sub] at h
    omega
  · intro h
    rw [h, UInt32.sub_self]
    rfl

theorem ring_take (hne : pi.nread ≠ pi.nwrite) :
    pi.ring = pi.data (Fin.ofNat 512 pi.nread.toNat) :: ({ pi with nread := pi.nread + 1 } : Pipe T).ring ∧
      ({ pi with nread := pi.nread + 1 } : Pipe T).count < pi.count := by
  have hr := pi.nread.toNat_lt
  have hw := pi.nwrite.toNat_lt
  have hne' : pi.nread.toNat ≠ pi.nwrite.toNat := mt UInt32.toNat_inj.mp hne
  have hcount : pi.count = ({ pi with nread := pi.nread + 1 } : Pipe T).count + 1 := by
    simp only [Pipe.count, UInt32.toNat_sub, UInt32.toNat_add, UInt32.reduceToNat]
    omega
  have hnext : pi.nread.toNat + 1 ≡ (pi.nread + 1).toNat [MOD 512] := by
    rw [UInt32.toNat_add]
    show _ % 512 = _ % 512
    simp only [UInt32.reduceToNat]
    omega
  refine ⟨?_, by omega⟩
  unfold Pipe.ring
  rw [hcount, Ring.window_cons, Ring.window_congr pi.data hnext]

/-- The parts that the loops leave alone. -/
structure Kept (pi pi' : Pipe T) : Prop where
  wlock : pi'.wlock = pi.wlock
  rlock : pi'.rlock = pi.rlock
  readopen : pi'.readopen = pi.readopen
  writeopen : pi'.writeopen = pi.writeopen

theorem writeLoop_spec {killed : Option Nat} {bytes stored : List UInt8} {ending : WriteEnd} {pi' : Pipe T} (hle : pi.count ≤ 512)
    (h : writeLoop killed bytes pi = (ending, stored, pi')) :
    pi'.count ≤ 512 ∧ pi'.ring = pi.ring ++ stored ∧ Kept pi pi' ∧ (ending = .done → stored = bytes) ∧
      ∀ rest, ending = .full rest → pi.readopen = true ∧ bytes = stored ++ rest := by
  induction bytes generalizing killed pi ending stored pi' with
  | nil =>
    cases h
    exact ⟨hle, (append_nil _).symm, ⟨rfl, rfl, rfl, rfl⟩, fun _ => rfl, fun rest hrest => nomatch hrest⟩
  | cons b bs ih =>
    rw [writeLoop] at h
    split at h
    next =>
      cases h
      exact ⟨hle, (append_nil _).symm, ⟨rfl, rfl, rfl, rfl⟩, fun hdone => (nomatch hdone), fun rest hrest => nomatch hrest⟩
    next hopen =>
      have hread : pi.readopen = true := Bool.not_eq_false _ ▸ (not_or.mp hopen).1
      split at h
      next =>
        cases h
        refine ⟨hle, (append_nil _).symm, ⟨rfl, rfl, rfl, rfl⟩, fun hdone => (nomatch hdone), fun rest hrest => ?_⟩
        cases hrest
        exact ⟨hread, rfl⟩
      next hfull =>
        have hroom := count_lt_of_not_full hle hfull
        obtain ⟨ending', stored', pi'', hrec⟩ : ∃ e st p, writeLoop (killed.map (· - 1)) bs (pi.put b) = (e, st, p) := ⟨_, _, _, rfl⟩
        rw [hrec] at h
        cases h
        obtain ⟨hcount, hring, hkept, hdone, hrest⟩ := ih (by rw [count_put hroom]; exact hroom) hrec
        refine ⟨hcount, ?_, ⟨hkept.wlock, hkept.rlock, hkept.readopen, hkept.writeopen⟩, fun h => ?_, fun rest h => ⟨hread, ?_⟩⟩
        · rw [hring, ring_put hroom, append_assoc]
          rfl
        · rw [hdone h]
        · rw [(hrest rest h).2]
          rfl

theorem readLoop_spec {n : Nat} {bs : List UInt8} {pi' : Pipe T} (h : readLoop n pi = (bs, pi')) :
    pi.ring = bs ++ pi'.ring ∧ pi'.count ≤ pi.count ∧ Kept pi pi' ∧ (0 < n → bs = [] → pi'.ring = []) := by
  induction n generalizing pi bs pi' with
  | zero =>
    cases h
    exact ⟨rfl, le_rfl, ⟨rfl, rfl, rfl, rfl⟩, fun hn => absurd hn (lt_irrefl 0)⟩
  | succ n ih =>
    rw [readLoop] at h
    split at h
    next hempty =>
      cases h
      exact ⟨rfl, le_rfl, ⟨rfl, rfl, rfl, rfl⟩, fun _ _ => ring_eq_nil_iff.mpr hempty⟩
    next hne =>
      obtain ⟨bs', pi'', hrec⟩ : ∃ b p, readLoop n { pi with nread := pi.nread + 1 } = (b, p) := ⟨_, _, rfl⟩
      rw [hrec] at h
      cases h
      obtain ⟨hring, hlt⟩ := ring_take hne
      obtain ⟨hrest, hle, hkept, -⟩ := ih hrec
      refine ⟨?_, hle.trans hlt.le, ⟨hkept.wlock, hkept.rlock, hkept.readopen, hkept.writeopen⟩, fun _ hnil => (nomatch hnil)⟩
      rw [hring, hrest]
      rfl

end Bytes

/-! ## First in, first out -/

section Order

variable {T : Type*} [DecidableEq T] {s s' : State T} {t : T}

/-- What was taken out, followed by what is in the ring, is what was stored. -/
structure Fifo (s : State T) : Prop where
  bounded : s.pipe.count ≤ 512
  order : s.taken ++ s.pipe.ring = s.stored

/-- The bytes `new` come in behind those in the ring, and `old` go out in front. -/
structure Moved (s s' : State T) (new old : List UInt8) : Prop where
  bounded : s'.pipe.count ≤ 512
  stored : s'.stored = s.stored ++ new
  taken : s'.taken = s.taken ++ old
  ring : s.pipe.ring ++ new = old ++ s'.pipe.ring

theorem Fifo.moved (h : Fifo s) {new old : List UInt8} (hmoved : Moved s s' new old) : Fifo s' := by
  refine ⟨hmoved.bounded, ?_⟩
  rw [hmoved.taken, append_assoc, ← hmoved.ring, ← append_assoc, h.order, hmoved.stored]

/-- The bytes, the counters and the ends of the pipe are the same. -/
structure Same (s s' : State T) : Prop where
  data : s'.pipe.data = s.pipe.data
  nread : s'.pipe.nread = s.pipe.nread
  nwrite : s'.pipe.nwrite = s.pipe.nwrite
  readopen : s'.pipe.readopen = s.pipe.readopen
  writeopen : s'.pipe.writeopen = s.pipe.writeopen
  stored : s'.stored = s.stored
  taken : s'.taken = s.taken

theorem Same.trans {s₁ s₂ s₃ : State T} (h : Same s₁ s₂) (h' : Same s₂ s₃) : Same s₁ s₃ :=
  ⟨h'.data.trans h.data, h'.nread.trans h.nread, h'.nwrite.trans h.nwrite, h'.readopen.trans h.readopen,
    h'.writeopen.trans h.writeopen, h'.stored.trans h.stored, h'.taken.trans h.taken⟩

theorem Same.count (h : Same s s') : s'.pipe.count = s.pipe.count := by
  rw [Pipe.count, h.nread, h.nwrite]
  rfl

theorem Same.ring (h : Same s s') : s'.pipe.ring = s.pipe.ring := by
  rw [Pipe.ring, h.data, h.nread, h.count]
  rfl

theorem Moved.same {s'' : State T} {new old : List UInt8} (h : Moved s s' new old) (hsame : Same s' s'') : Moved s s'' new old :=
  ⟨hsame.count ▸ h.bounded, hsame.stored.trans h.stored, hsame.taken.trans h.taken, hsame.ring ▸ h.ring⟩

theorem same_goto (s : State T) (t : T) (g : Stage) : Same s (s.goto t g) := ⟨rfl, rfl, rfl, rfl, rfl, rfl, rfl⟩

theorem same_wakeReaders (h : wakeReaders s = some s') : Same s s' := by
  obtain ⟨r, -, rfl⟩ := map_eq_some_iff.mp h
  exact ⟨rfl, rfl, rfl, rfl, rfl, rfl, rfl⟩

theorem same_wakeWriters (h : wakeWriters s = some s') : Same s s' := by
  obtain ⟨r, -, rfl⟩ := map_eq_some_iff.mp h
  exact ⟨rfl, rfl, rfl, rfl, rfl, rfl, rfl⟩

section

variable (hle : s.pipe.count ≤ 512)
include hle

theorem writeSection_moved {i : Nat} {bytes : List UInt8} {killed : Option Nat}
    (h : writeSection s t i bytes killed = some s') : ∃ new, Moved s s' new [] := by
  unfold writeSection at h
  obtain ⟨ending, stored, pi, hloop⟩ : ∃ e st p, writeLoop killed bytes s.pipe = (e, st, p) := ⟨_, _, _, rfl⟩
  rw [hloop] at h
  obtain ⟨hcount, hring, -, -, -⟩ := writeLoop_spec hle hloop
  have hstored : Moved s { s with pipe := pi, stored := s.stored ++ stored } stored [] :=
    ⟨hcount, rfl, (append_nil _).symm, hring.symm⟩
  refine ⟨stored, ?_⟩
  cases ending with
  | refused =>
    cases h
    exact hstored.same (same_goto ..)
  | done =>
    obtain ⟨s₁, hwake, rfl⟩ := map_eq_some_iff.mp h
    exact (hstored.same (same_wakeReaders hwake)).same (same_goto ..)
  | full rest =>
    obtain ⟨s₁, hwake, rfl⟩ := map_eq_some_iff.mp h
    exact (hstored.same (same_wakeReaders hwake)).same ⟨rfl, rfl, rfl, rfl, rfl, rfl, rfl⟩

/-- A section of `pipeRead`.  If it returns 0 although bytes were asked for, there are none and no more can come. -/
theorem readSection_moved {n : Int} {killed : Bool} (h : readSection s t n killed = some s') :
    (∃ old, Moved s s' [] old) ∧ (0 < n → s'.stage t = .out 0 → s'.pipe.ring = [] ∧ s'.pipe.writeopen = false) := by
  unfold readSection at h
  split at h
  next =>
    split at h
    · cases h
      refine ⟨⟨[], ⟨hle, (append_nil _).symm, (append_nil _).symm, append_nil _⟩⟩, fun _ hret => ?_⟩
      cases (Function.update_self ..).symm.trans hret
    · cases h
      refine ⟨⟨[], ⟨hle, (append_nil _).symm, (append_nil _).symm, append_nil _⟩⟩, fun _ hret => ?_⟩
      cases (Function.update_self ..).symm.trans hret
  next hgo =>
    obtain ⟨bs, pi, hloop⟩ : ∃ b p, readLoop n.toNat s.pipe = (b, p) := ⟨_, _, rfl⟩
    rw [hloop] at h
    obtain ⟨hring, hcount, hkept, hempty⟩ := readLoop_spec hloop
    obtain ⟨s₁, hwake, rfl⟩ := map_eq_some_iff.mp h
    have hsame := (same_wakeWriters hwake).trans (same_goto s₁ t (.out bs.length))
    have hmoved : Moved s { s with pipe := pi, taken := s.taken ++ bs } [] bs :=
      ⟨hcount.trans hle, (append_nil _).symm, rfl, (append_nil _).trans hring⟩
    refine ⟨⟨bs, hmoved.same hsame⟩, fun hn hret => ?_⟩
    have hnil : bs = [] := by
      have hlength : (Stage.out bs.length) = .out 0 := (Function.update_self ..).symm.trans hret
      exact length_eq_zero_iff.mp (Int.ofNat_inj.mp (Stage.out.inj hlength))
    have hnone : pi.ring = [] := hempty (by omega) hnil
    refine ⟨hsame.ring.trans hnone, hsame.writeopen.trans (hkept.writeopen.trans ?_)⟩
    -- the ring was empty before, so the loop was left because of the other condition
    have hwas : s.pipe.nread = s.pipe.nwrite := by
      rw [← ring_eq_nil_iff, hring, hnil, hnone]
      rfl
    exact Bool.eq_false_iff.mpr fun hopen => hgo ⟨hwas, hopen⟩

theorem pipeClose_moved {writable : Bool} (h : pipeClose s writable = some s') : Moved s s' [] [] := by
  unfold pipeClose at h
  split at h
  all_goals
    obtain ⟨r, -, rfl⟩ := map_eq_some_iff.mp h
    exact ⟨hle, (append_nil _).symm, (append_nil _).symm, append_nil _⟩

/-- What a move does to the bytes, and when `pipeRead` returns 0. -/
theorem step_moved {a : Act T} (hstep : step s a = some s') :
    (∃ new old, Moved s s' new old) ∧ ∀ t n, a.reader s = some (t, n) → 0 < n → s'.stage t = .out 0 →
      s'.pipe.ring = [] ∧ s'.pipe.writeopen = false := by
  rcases step_cases hstep with ⟨t, i, bytes, killed, -, hreader, hwrite⟩ | ⟨t, n, killed, -, hreader, hread⟩ | ⟨writable, rfl, hclose⟩
  · obtain ⟨new, hmoved⟩ := writeSection_moved hle hwrite
    refine ⟨⟨new, [], hmoved⟩, fun u n hu => ?_⟩
    rw [hreader] at hu
    cases hu
  · obtain ⟨⟨old, hmoved⟩, hzero⟩ := readSection_moved hle hread
    refine ⟨⟨[], old, hmoved⟩, fun u m hu => ?_⟩
    rw [hreader] at hu
    cases hu
    exact hzero
  · exact ⟨⟨[], [], pipeClose_moved hle hclose⟩, fun u n hu => nomatch hu⟩

end

theorem start_fifo (data : Fin 512 → UInt8) : Fifo (start data : State T) :=
  ⟨show (0 - 0 : UInt32).toNat ≤ 512 by decide, ring_eq_nil_iff.mpr rfl⟩

/-- **A pipe is a FIFO byte stream**: the counters are at most 512 apart modulo 2^32; what was read, followed by what is in the
ring, is what was stored; each move keeps the unread bytes and puts new ones behind them; and `pipeRead` returns 0 only at the
end of the stream. -/
theorem pipe_fifo (data : Fin 512 → UInt8) (as : List (Act T)) (s : State T) (hrun : run step (start data) as = some s) :
    (s.pipe.nwrite - s.pipe.nread).toNat ≤ 512 ∧ s.taken ++ s.pipe.ring = s.stored ∧
      ∀ a s', step s a = some s' →
        (∃ new old, s'.stored = s.stored ++ new ∧ s'.taken = s.taken ++ old ∧ s.pipe.ring ++ new = old ++ s'.pipe.ring) ∧
        ∀ t n, a.reader s = some (t, n) → 0 < n → s'.stage t = .out 0 → s'.pipe.ring = [] ∧ s'.pipe.writeopen = false := by
  have hfifo : Fifo s := by
    refine run_invariant_all (I := Fifo) (fun s a s' h hstep => ?_) as _ s (start_fifo data) hrun
    obtain ⟨⟨new, old, hmoved⟩, -⟩ := step_moved h.bounded hstep
    exact h.moved hmoved
  refine ⟨hfifo.bounded, hfifo.order, fun a s' hstep => ?_⟩
  obtain ⟨⟨new, old, hmoved⟩, hzero⟩ := step_moved hfifo.bounded hstep
  exact ⟨⟨new, old, hmoved.stored, hmoved.taken, hmoved.ring⟩, hzero⟩

end Order

/-- Three bytes are written and two are read. -/
theorem pipe_fifo_short : ∃ s, run step (start (fun _ => 0) : State (Fin 2)) [.write 0 [1, 2, 3] none, .read 1 2 false] = some s ∧
    s.stored = [1, 2, 3] ∧ s.taken = [1, 2] ∧ (s.pipe.nwrite - s.pipe.nread).toNat ≤ 512 ∧ s.taken ++ s.pipe.ring = s.stored := by
  refine exists_run (P := fun s => s.stored = [1, 2, 3] ∧ s.taken = [1, 2]) (by decide +kernel) fun s hrun hs => ?_
  obtain ⟨hbounded, horder, -⟩ := pipe_fifo _ _ s hrun
  exact ⟨hs.1, hs.2, hbounded, horder⟩

/-! ## Closing an end -/

section Close

variable {T : Type*} {s s' : State T} {t : T}

/-- The semaphores count the processes on their lists, and nobody sleeps at an end whose other end is closed. -/
structure Inv (s : State T) : Prop where
  rcounts : CountsSleepers s.pipe.rlock
  wcounts : CountsSleepers s.pipe.wlock
  readers : ∀ t n, s.stage t = .read n false → t ∈ s.pipe.rlock.sleeplist
  writers : ∀ t i rest, s.stage t = .write i rest false → t ∈ s.pipe.wlock.sleeplist
  noWriter : s.pipe.writeopen = false → s.pipe.rlock.sleeplist = []
  noReader : s.pipe.readopen = false → s.pipe.wlock.sleeplist = []

theorem start_inv (data : Fin 512 → UInt8) : Inv (start data : State T) :=
  ⟨countsSleepers_initSem le_rfl, countsSleepers_initSem le_rfl, fun _ _ h => (nomatch h), fun _ _ _ h => (nomatch h), fun _ => rfl,
    fun _ => rfl⟩

theorem countsSleepers_getAllSem {sem : Semaphore T} (h : CountsSleepers sem) : CountsSleepers (getAllSem sem).2 := by
  unfold getAllSem CountsSleepers at *
  split
  · simp only
    omega
  · exact h

/-- After `get_all_sem` there is no token, so `_wait_sem` sleeps. -/
theorem waitSem_getAllSem (sem : Semaphore T) (t : T) :
    ∃ v, waitSem (getAllSem sem).2 t = (false, { val := v, sleeplist := t :: sem.sleeplist }) := by
  unfold waitSem getAllSem
  split
  · exact ⟨_, rfl⟩
  next hpos =>
    rw [if_neg (show ¬ 0 ≤ sem.val - 1 by omega)]
    exact ⟨_, rfl⟩

variable [DecidableEq T]

section

variable (h : Inv s)
include h

/-- The processes `ws` wake up, and the lists keep the others. -/
theorem Inv.wake (ws : List T) {pi : Pipe T} (hr : CountsSleepers pi.rlock) (hw : CountsSleepers pi.wlock)
    (hreaders : ∀ t ∈ s.pipe.rlock.sleeplist, t ∉ ws → t ∈ pi.rlock.sleeplist)
    (hwriters : ∀ t ∈ s.pipe.wlock.sleeplist, t ∉ ws → t ∈ pi.wlock.sleeplist)
    (hnoWriter : pi.writeopen = false → pi.rlock.sleeplist = []) (hnoReader : pi.readopen = false → pi.wlock.sleeplist = []) :
    Inv ({ s with pipe := pi }.wake ws) := by
  have hstage : ∀ t g, ({ s with pipe := pi }.wake ws).stage t = g → g.asleep = true → t ∉ ws ∧ s.stage t = g := by
    intro t g hg hasleep
    by_cases hin : t ∈ ws
    · have hwoken : (s.stage t).wake = g := (if_pos hin).symm.trans hg
      rw [← hwoken] at hasleep
      cases hwas : s.stage t <;> rw [hwas] at hasleep <;> cases hasleep
    · exact ⟨hin, (if_neg hin).symm.trans hg⟩
  refine ⟨hr, hw, fun t n ht => ?_, fun t i rest ht => ?_, hnoWriter, hnoReader⟩
  · obtain ⟨hin, hwas⟩ := hstage t _ ht rfl
    exact hreaders t (h.readers t n hwas) hin
  · obtain ⟨hin, hwas⟩ := hstage t _ ht rfl
    exact hwriters t (h.writers t i rest hwas) hin

theorem Inv.wakeReaders (hwake : wakeReaders s = some s') : Inv s' := by
  unfold Pipes.wakeReaders at hwake
  rw [postAllSem_eq h.rcounts] at hwake
  cases hwake
  refine h.wake _ ?_ h.wcounts (fun t ht hnot => absurd (mem_reverse.mpr ht) hnot) (fun t ht _ => ht) (fun _ => rfl) h.noReader
  show (0 : Nat) = (-(max s.pipe.rlock.val 0)).toNat
  omega

theorem Inv.wakeWriters (hwake : wakeWriters s = some s') : Inv s' := by
  unfold Pipes.wakeWriters at hwake
  rw [postAllSem_eq h.wcounts] at hwake
  cases hwake
  refine h.wake _ h.rcounts ?_ (fun t ht _ => ht) (fun t ht hnot => absurd (mem_reverse.mpr ht) hnot) h.noWriter fun _ => rfl
  show (0 : Nat) = (-(max s.pipe.wlock.val 0)).toNat
  omega

/-- A process leaves its call or goes on to sleep, with the lists as `pi` has them. -/
theorem Inv.goto {g : Stage} {pi : Pipe T} (hr : CountsSleepers pi.rlock) (hw : CountsSleepers pi.wlock)
    (hrlist : ∀ u ∈ s.pipe.rlock.sleeplist, u ∈ pi.rlock.sleeplist) (hwlist : ∀ u ∈ s.pipe.wlock.sleeplist, u ∈ pi.wlock.sleeplist)
    (hread : ∀ n, g = .read n false → t ∈ pi.rlock.sleeplist) (hwrite : ∀ i rest, g = .write i rest false → t ∈ pi.wlock.sleeplist)
    (hnoWriter : pi.writeopen = false → pi.rlock.sleeplist = []) (hnoReader : pi.readopen = false → pi.wlock.sleeplist = []) :
    Inv ({ s with pipe := pi }.goto t g) := by
  have hstage : ∀ u g', ({ s with pipe := pi }.goto t g).stage u = g' → (u = t ∧ g = g') ∨ s.stage u = g' := by
    intro u g' hu
    by_cases heq : u = t
    · subst heq
      exact .inl ⟨rfl, (Function.update_self ..).symm.trans hu⟩
    · exact .inr ((Function.update_of_ne heq ..).symm.trans hu)
  refine ⟨hr, hw, fun u n hu => ?_, fun u i rest hu => ?_, hnoWriter, hnoReader⟩
  · rcases hstage u _ hu with ⟨rfl, hg⟩ | hwas
    · exact hread n hg
    · exact hrlist u (h.readers u n hwas)
  · rcases hstage u _ hu with ⟨rfl, hg⟩ | hwas
    · exact hwrite i rest hg
    · exact hwlist u (h.writers u i rest hwas)

theorem Inv.out (t : T) (ret : Int) : Inv (s.goto t (.out ret)) :=
  h.goto h.rcounts h.wcounts (fun _ hu => hu) (fun _ hu => hu) (fun _ hg => nomatch hg) (fun _ _ hg => nomatch hg) h.noWriter h.noReader

theorem Inv.sleepWriter (hopen : s.pipe.readopen = true) (t : T) (i : Nat) (rest : List UInt8) :
    Inv (sleepWriter s t i rest) := by
  have hcounts := countsSleepers_waitSem (countsSleepers_getAllSem h.wcounts) t
  obtain ⟨v, hwait⟩ := waitSem_getAllSem s.pipe.wlock t
  unfold Pipes.sleepWriter
  rw [hwait] at hcounts ⊢
  refine h.goto h.rcounts hcounts (fun _ hu => hu) (fun _ hu => mem_cons_of_mem _ hu) (fun _ hg => nomatch hg)
    (fun _ _ _ => mem_cons_self) h.noWriter fun hclosed => ?_
  rw [show _ = true from hopen] at hclosed
  cases hclosed

theorem Inv.sleepReader (hopen : s.pipe.writeopen = true) (t : T) (n : Int) : Inv (sleepReader s t n) := by
  have hcounts := countsSleepers_waitSem (countsSleepers_getAllSem h.rcounts) t
  obtain ⟨v, hwait⟩ := waitSem_getAllSem s.pipe.rlock t
  unfold Pipes.sleepReader
  rw [hwait] at hcounts ⊢
  refine h.goto hcounts h.wcounts (fun _ hu => mem_cons_of_mem _ hu) (fun _ hu => hu) (fun _ _ => mem_cons_self)
    (fun _ _ hg => nomatch hg) (fun hclosed => ?_) h.noReader
  rw [show _ = true from hopen] at hclosed
  cases hclosed

/-- The loops move bytes only. -/
theorem Inv.kept {pi : Pipe T} (hkept : Kept s.pipe pi) (stored taken : List UInt8) :
    Inv { s with pipe := pi, stored := stored, taken := taken } := by
  obtain ⟨hw, hr, hro, hwo⟩ := hkept
  constructor
  · exact hr ▸ h.rcounts
  · exact hw ▸ h.wcounts
  · exact hr ▸ h.readers
  · exact hw ▸ h.writers
  · exact hr ▸ hwo ▸ h.noWriter
  · exact hw ▸ hro ▸ h.noReader

end

/-- An end is closed while at most one process sleeps at the other end. -/
def CloseAlone (s : State T) : Act T → Prop
  | .close true => s.pipe.rlock.sleeplist.length ≤ 1
  | .close false => s.pipe.wlock.sleeplist.length ≤ 1
  | _ => True

/-- One post empties a list of at most one. -/
theorem postSem_alone {sem sem' : Semaphore T} {w : Option T} (hcounts : CountsSleepers sem) (hone : sem.sleeplist.length ≤ 1)
    (h : postSem sem = some (w, sem')) : CountsSleepers sem' ∧ sem'.sleeplist = [] ∧ ∀ t ∈ sem.sleeplist, t ∈ w.toList := by
  obtain ⟨w', sem'', hpost, hcounts', -⟩ := countsSleepers_postSem hcounts
  obtain ⟨rfl, rfl⟩ := Prod.mk.inj (some.inj (hpost.symm.trans h))
  refine ⟨hcounts', ?_⟩
  unfold postSem CountsSleepers at *
  cases hlist : sem.sleeplist with
  | nil =>
    rw [hlist, length_nil] at hcounts
    rw [if_neg (by omega)] at h
    cases h
    exact ⟨hlist, fun t ht => nomatch ht⟩
  | cons a rest =>
    obtain rfl : rest = [] := by
      rw [hlist, length_cons] at hone
      exact length_eq_zero_iff.mp (by omega)
    rw [hlist, length_singleton] at hcounts
    rw [if_pos (by omega), hlist] at h
    cases h
    exact ⟨rfl, fun t ht => ht⟩

theorem Inv.pipeClose (h : Inv s) {writable : Bool} (halone : CloseAlone s (.close writable)) (hclose : pipeClose s writable = some s') :
    Inv s' := by
  have hfreed : ∀ {s₁ : State T} (b : Bool), Inv s₁ → Inv { s₁ with freed := b } :=
    fun _ h1 => ⟨h1.rcounts, h1.wcounts, h1.readers, h1.writers, h1.noWriter, h1.noReader⟩
  cases writable with
  | true =>
    obtain ⟨r, hpost, rfl⟩ := map_eq_some_iff.mp hclose
    obtain ⟨hcounts, hempty, hwoken⟩ := postSem_alone h.rcounts halone hpost
    exact hfreed _ (h.wake _ hcounts h.wcounts (fun t ht hnot => absurd (hwoken t ht) hnot) (fun t ht _ => ht) (fun _ => hempty) h.noReader)
  | false =>
    obtain ⟨r, hpost, rfl⟩ := map_eq_some_iff.mp hclose
    obtain ⟨hcounts, hempty, hwoken⟩ := postSem_alone h.wcounts halone hpost
    exact hfreed _ (h.wake _ h.rcounts hcounts (fun t ht _ => ht) (fun t ht hnot => absurd (hwoken t ht) hnot) h.noWriter fun _ => hempty)

theorem Inv.writeSection (h : Inv s) (hle : s.pipe.count ≤ 512) {i : Nat} {bytes : List UInt8} {killed : Option Nat}
    (hwrite : writeSection s t i bytes killed = some s') : Inv s' := by
  unfold Pipes.writeSection at hwrite
  obtain ⟨ending, stored, pi, hloop⟩ : ∃ e st p, writeLoop killed bytes s.pipe = (e, st, p) := ⟨_, _, _, rfl⟩
  rw [hloop] at hwrite
  obtain ⟨-, -, hkept, -, hfull⟩ := writeLoop_spec hle hloop
  have hbytes := h.kept hkept (s.stored ++ stored) s.taken
  cases ending with
  | refused =>
    cases hwrite
    exact hbytes.out t (-1)
  | done =>
    obtain ⟨s₁, hwake, rfl⟩ := map_eq_some_iff.mp hwrite
    exact (hbytes.wakeReaders hwake).out t _
  | full rest =>
    obtain ⟨s₁, hwake, rfl⟩ := map_eq_some_iff.mp hwrite
    refine (hbytes.wakeReaders hwake).sleepWriter ?_ t _ rest
    exact (same_wakeReaders hwake).readopen.trans (hkept.readopen.trans (hfull rest rfl).1)

theorem Inv.readSection (h : Inv s) {n : Int} {killed : Bool} (hread : readSection s t n killed = some s') : Inv s' := by
  unfold Pipes.readSection at hread
  split at hread
  next hsleep =>
    split at hread
    · cases hread
      exact h.out t (-1)
    · cases hread
      exact h.sleepReader hsleep.2 t n
  next =>
    obtain ⟨bs, pi, hloop⟩ : ∃ b p, readLoop n.toNat s.pipe = (b, p) := ⟨_, _, rfl⟩
    rw [hloop] at hread
    obtain ⟨-, -, hkept, -⟩ := readLoop_spec hloop
    obtain ⟨s₁, hwake, rfl⟩ := map_eq_some_iff.mp hread
    exact ((h.kept hkept s.stored (s.taken ++ bs)).wakeWriters hwake).out t _

theorem step_inv {a : Act T} (h : Fifo s ∧ Inv s) (halone : CloseAlone s a) (hstep : step s a = some s') : Fifo s' ∧ Inv s' := by
  obtain ⟨⟨new, old, hmoved⟩, -⟩ := step_moved h.1.bounded hstep
  refine ⟨h.1.moved hmoved, ?_⟩
  rcases step_cases hstep with ⟨t, i, bytes, killed, -, -, hwrite⟩ | ⟨t, n, killed, -, -, hread⟩ | ⟨writable, rfl, hclose⟩
  · exact h.2.writeSection h.1.bounded hwrite
  · exact h.2.readSection hread
  · exact h.2.pipeClose halone hclose

end Close

end Armv8Os.Pipes
