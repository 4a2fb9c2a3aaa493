/-
  `driver/sd.c`: `sdrw` and `sd_intr`, with the queue of `common/list.c` between them.

  1. **Program** — the callers of `sdrw` and the CPUs in `sd_intr` take their sections under the queue lock and under
     `sd_lock` in any order.  The queue is a ring linked through the callers' own buffers.

  2. **Specification** — `InOrder`: one request at a time, completed in the order of the pushes.

  3. **Crux** — `Inv`: exactly one party has the `Turn` to move the head of the queue on.

  NOTE: `sd_intr` posts BEFORE it pops.  The woken caller may return while its buffer is still linked
  (`returned_linked`), and its next `sdrw`, with a buffer at the same place on the stack, breaks the ring (`overtaken`).
-/
import Armv8Os.Lib.Transition
import Mathlib.Data.List.Iterate

set_option linter.unusedSectionVars false

namespace Armv8Os.Sd

open Transition List Option
open Function (update update_of_ne update_self)

variable {C B : Type*} [DecidableEq C] [DecidableEq B]

/-! ## `Queue` of `common/list.c` -/

structure Queue (B : Type*) where
  begin : Option B
  last : Option B  -- `end`
  sz : Nat
  next : B → B
  prev : B → B

def initListNode (q : Queue B) (node : B) : Queue B :=
  { q with next := update q.next node node, prev := update q.prev node node }

def mergeList (q : Queue B) (node₁ node₂ : B) : Queue B :=
  let node₃ := q.next node₁
  let node₄ := q.prev node₂
  { q with
    next := update (update q.next node₁ node₂) node₄ node₃
    prev := update (update q.prev node₂ node₁) node₃ node₄ }

def detachFromList (q : Queue B) (node : B) : Queue B :=
  let next := update q.next (q.prev node) (q.next node)
  initListNode { q with next := next, prev := update q.prev (next node) (q.prev node) } node

def queuePush (q : Queue B) (item : B) : Queue B :=
  let q' := initListNode q item
  if q.sz = 0 then { q' with begin := some item, last := some item, sz := 1 }
  else { q.last.elim q' (mergeList q' · item) with last := some item, sz := q.sz + 1 }

/-- `none` is the PANIC, or the access through a null `begin`. -/
def queuePop (q : Queue B) : Option (Queue B) :=
  if q.sz = 0 then none
  else if q.sz = 1 then some { q with begin := none, last := none, sz := 0 }
  else q.begin.map fun t => { detachFromList q t with begin := some (q.next t), sz := q.sz - 1 }

/-- The `sz` nodes from `begin` on. -/
def Queue.nodes (q : Queue B) : List B := q.begin.elim [] fun b => List.iterate q.next b q.sz

/-! ## The driver -/

/-- `B_DIRTY` and `B_VALID`. -/
structure Flags where
  dirty : Bool
  valid : Bool
  deriving DecidableEq

/-- A read has no flag set, a write is dirty. -/
def Flags.request (f : Flags) : Bool := f.dirty || !f.valid

def Flags.serve (f : Flags) : Flags :=
  if f.dirty then ⟨false, true⟩ else if !f.valid then { f with valid := true } else f

/-- Where the caller of `sdrw(b)` is. -/
inductive Pc where
  | idle  -- not in a call
  | loop  -- the flags are the old ones: it goes round the loop
  | start  -- it found `sz == 1`
  | wait
  deriving DecidableEq

/-- Where a CPU is in `sd_intr`. -/
inductive Intr where
  | idle
  | posted  -- holds `sd_lock`
  | next  -- found `sz` not 0 after its pop
  deriving DecidableEq

/-- `card` is the request that the card works on; the three lists are the history. -/
structure State (C B : Type*) where
  queue : Queue B
  pc : B → Pc
  flags : B → Flags
  oldFlag : B → Flags
  sl : B → Nat
  intr : C → Intr
  sdLock : Bool
  card : Option B
  pushed : List B
  started : List B
  completed : List B

inductive Act (C B : Type*) where
  | sdrw (b : B) (f : Flags)
  | push (b : B)
  | start (b : B)
  | wait (b : B)  -- passes the semaphore and tests the flags
  | intr (c : C)
  | pop (c : C)
  | next (c : C)
  deriving DecidableEq

def step (s : State C B) : Act C B → Option (State C B)
  | .sdrw b f =>
    if s.pc b = .idle ∧ f.request then
      some { s with pc := update s.pc b .loop, flags := update s.flags b f, oldFlag := update s.oldFlag b f }
    else none
  | .push b =>
    if s.pc b = .loop then
      let q := queuePush s.queue b
      some { s with
        queue := q, sl := update s.sl b 0, pushed := s.pushed ++ [b]
        pc := update s.pc b (if q.sz = 1 then .start else .wait) }
    else none
  | .start b =>
    if s.pc b = .start ∧ s.sdLock = false then
      some { s with pc := update s.pc b .wait, card := some b, started := s.started ++ [b] }
    else none
  | .wait b =>
    if s.pc b = .wait ∧ 0 < s.sl b then
      some { s with
        sl := update s.sl b (s.sl b - 1)
        pc := update s.pc b (if s.oldFlag b = s.flags b then .loop else .idle) }
    else none
  | .intr c =>
    s.queue.begin.bind fun b =>
      -- the interrupt is that of a started request
      if s.intr c = .idle ∧ s.card.isSome ∧ s.queue.sz ≠ 0 ∧ s.sdLock = false then
        some { s with
          flags := update s.flags b (s.flags b).serve, sl := update s.sl b (s.sl b + 1)
          intr := update s.intr c .posted, sdLock := true, card := none, completed := s.completed ++ [b] }
      else none
  | .pop c =>
    if s.intr c = .posted then
      (queuePop s.queue).map fun q =>
        { s with queue := q, sdLock := false, intr := update s.intr c (if q.sz = 0 then .idle else .next) }
    else none
  | .next c =>
    s.queue.begin.bind fun b =>
      if s.intr c = .next ∧ s.sdLock = false then
        some { s with intr := update s.intr c .idle, card := some b, started := s.started ++ [b] }
      else none

/-- No call is on its way; the buffers hold anything. -/
def init (next prev : B → B) (flags : B → Flags) (sl : B → Nat) : State C B :=
  { queue := ⟨none, none, 0, next, prev⟩, pc := fun _ => .idle, flags := flags, oldFlag := flags, sl := sl
    intr := fun _ => .idle, sdLock := false, card := none, pushed := [], started := [], completed := [] }

/-- The buffers that a step of `sd_intr` accesses. -/
def touched (s : State C B) : Act C B → List B
  | .intr _ => s.queue.begin.toList
  | .pop _ => if s.queue.sz = 1 then [] else s.queue.begin.elim [] fun b => [b, s.queue.next b, s.queue.prev b]
  | .next _ => s.queue.begin.toList
  | _ => []

/-- The buffer with which a step calls `sdrw`. -/
def Act.called : Act C B → Option B
  | .sdrw b _ => some b
  | _ => none

def Act.woken : Act C B → Bool
  | .wait _ => true
  | _ => false

/-- The card works on one request at a time, in the order of the pushes, and each interrupt completes the one it works
on.  Every call pushes once, and the driver does not come to rest before all requests are completed. -/
structure InOrder (s : State C B) : Prop where
  completed : s.completed <+: s.started
  started : s.started <+: s.pushed
  one : s.started.length ≤ s.completed.length + 1
  intr : ∀ c s', step s (.intr c) = some s' →
    ∃ b, s.card = some b ∧ s.started = s.completed ++ [b] ∧ s'.completed = s.completed ++ [b]
  once : ∀ b s', step s (.wait b) = some s' → s'.pc b = .idle
  rest : (∀ a : Act C B, a.called = none → step s a = none) → s.started = s.pushed ∧ s.completed = s.pushed

/-- `sdrw` is not called with a buffer that is still on the queue. -/
def Unlinked (s : State C B) (a : Act C B) : Prop := ∀ b ∈ a.called, b ∉ s.queue.nodes

/-- A woken caller goes on when no handler is between its post and its pop. -/
def Patient (s : State C B) (a : Act C B) : Prop := a.woken → s.sdLock = false

instance decidableUnlinked (s : State C B) (a : Act C B) : Decidable (Unlinked s a) :=
  inferInstanceAs (Decidable (∀ b ∈ a.called, b ∉ s.queue.nodes))

instance decidablePatient (s : State C B) (a : Act C B) : Decidable (Patient s a) :=
  inferInstanceAs (Decidable (a.woken → s.sdLock = false))

/-! ## The ring -/

section Ring

variable {q : Queue B} {next next' : B → B} {b e x : B} {l : List B}

/-- The links run from `b` through `l` and end in `e`. -/
def Linked (next : B → B) (e : B) : B → List B → Prop
  | b, [] => next b = e
  | b, c :: l => next b = c ∧ Linked next e c l

section

variable (h : Linked next e b l)
include h

theorem Linked.congr (hsame : ∀ x ∈ b :: l, next' x = next x) : Linked next' e b l := by
  induction l generalizing b with
  | nil => exact (hsame b mem_cons_self).trans h
  | cons c l ih =>
    obtain ⟨hb, hsame⟩ := forall_mem_cons.mp hsame
    exact ⟨hb.trans h.1, ih h.2 hsame⟩

theorem Linked.write (hx : x ∉ b :: l) (v : B) : Linked (update next x v) e b l := by
  refine h.congr fun y hy => update_of_ne ?_ ..
  rintro rfl
  exact hx hy

theorem Linked.last : next (l.getLastD b) = e := by
  induction l generalizing b with
  | nil => exact h
  | cons c l ih =>
    rw [getLastD_cons]
    exact ih h.2

/-- The last link is set to another node. -/
theorem Linked.redirect (hnodup : (b :: l).Nodup) : Linked (update next (l.getLastD b) x) x b l := by
  induction l generalizing b with
  | nil => exact update_self ..
  | cons c l ih =>
    obtain ⟨hb, hnodup⟩ := nodup_cons.mp hnodup
    rw [getLastD_cons]
    refine ⟨(update_of_ne ?_ ..).trans h.1, ih h.2 hnodup⟩
    rintro rfl
    exact hb getLastD_mem_cons

end

theorem Linked.concat (h : Linked next x b l) (hx : next x = e) : Linked next e b (l ++ [x]) := by
  induction l generalizing b with
  | nil => exact ⟨h, hx⟩
  | cons c l ih => exact ⟨h.1, ih h.2⟩

theorem Linked.iterate (h : Linked next e b l) : List.iterate next b (l.length + 1) = b :: l := by
  induction l generalizing b with
  | nil => rfl
  | cons c l ih =>
    show b :: iterate next (next b) (l.length + 1) = _
    rw [h.1, ih h.2]

/-- The queue is a ring of the nodes `l`. -/
def Queue.Holds (q : Queue B) : List B → Prop
  | [] => q.begin = none ∧ q.sz = 0
  | b :: l => q.begin = some b ∧ q.last = some (l.getLastD b) ∧ q.sz = l.length + 1 ∧ (b :: l).Nodup ∧
      Linked q.next b b l ∧ q.prev b = l.getLastD b

section

variable (h : q.Holds l)
include h

theorem Queue.Holds.nodes : q.nodes = l := by
  cases l with
  | nil =>
    rw [Queue.nodes, h.1]
    rfl
  | cons b l =>
    obtain ⟨hbegin, -, hsz, -, hlinked, -⟩ := h
    rw [Queue.nodes, hbegin, hsz]
    exact hlinked.iterate

theorem Queue.Holds.sz : q.sz = l.length := by
  cases l with
  | nil => exact h.2
  | cons b l => exact h.2.2.1

theorem Queue.Holds.begin : q.begin = l.head? := by
  cases l with
  | nil => exact h.1
  | cons b l => exact h.1

theorem Queue.Holds.nodup : l.Nodup := by
  cases l with
  | nil => exact nodup_nil
  | cons b l => exact h.2.2.2.1

theorem Queue.Holds.push (hx : x ∉ l) : (queuePush q x).Holds (l ++ [x]) := by
  rw [queuePush, h.sz]
  cases l with
  | nil => exact ⟨rfl, rfl, rfl, nodup_singleton x, update_self .., update_self ..⟩
  | cons b l =>
    obtain ⟨hbegin, hlast, hsz, hnodup, hlinked, -⟩ := h
    have hend : l.getLastD b ≠ x := by
      rintro rfl
      exact hx getLastD_mem_cons
    have hfirst : update q.next x x (l.getLastD b) = b := (update_of_ne hend ..).trans hlinked.last
    have hring : Linked (update (update (update q.next x x) (l.getLastD b) x) x b) b b (l ++ [x]) :=
      (((hlinked.write hx x).redirect hnodup).write hx b).concat (update_self ..)
    rw [if_neg (length_pos_of_mem mem_cons_self).ne', hlast, cons_append]
    refine ⟨hbegin, ?_, ?_, nodup_append.mpr ⟨hnodup, nodup_singleton x, ?_⟩, ?_, ?_⟩
    · exact congrArg some getLastD_concat.symm
    · rw [length_append]
      rfl
    · rintro y hy z hz rfl
      exact hx (mem_singleton.mp hz ▸ hy)
    · simpa only [elim_some, mergeList, initListNode, update_self, hfirst] using hring
    · simp only [elim_some, mergeList, initListNode, update_self, hfirst]
      exact getLastD_concat.symm

end

theorem Queue.Holds.pop (h : q.Holds (b :: l)) : ∃ q', queuePop q = some q' ∧ q'.Holds l := by
  obtain ⟨hbegin, hlast, hsz, hnodup, hlinked, hprev⟩ := h
  rw [queuePop, if_neg (by omega)]
  cases l with
  | nil => exact ⟨_, if_pos hsz, rfl, rfl⟩
  | cons c l =>
    obtain ⟨hb, hnodup⟩ := nodup_cons.mp hnodup
    obtain ⟨hbc, hlinked⟩ := hlinked
    rw [getLastD_cons] at hlast hprev
    have hend : b ≠ l.getLastD c := by
      rintro rfl
      exact hb getLastD_mem_cons
    have hcb : c ≠ b := by
      rintro rfl
      exact hb mem_cons_self
    have hring : Linked (update (update q.next (l.getLastD c) c) b b) c c l :=
      (hlinked.redirect hnodup).write hb b
    rw [if_neg (by rw [hsz, length_cons]; omega), hbegin]
    refine ⟨_, rfl, congrArg some hbc, hlast, ?_, hnodup, ?_, ?_⟩
    · exact congrArg (· - 1) hsz
    · simpa only [detachFromList, initListNode, hprev, hbc] using hring
    · simp only [detachFromList, initListNode, hprev, hbc, update_of_ne hend, update_of_ne hcb, update_self]

end Ring

/-! ## The invariant -/

/-- Who moves the head of the queue on. -/
inductive Turn (C B : Type*) where
  | nobody
  | caller (b : B)
  | card (b : B)
  | posted (c : C)
  | next (c : C)

namespace Turn

def intr (τ : Turn C B) (c : C) : Intr :=
  match τ with
  | posted d => if c = d then .posted else .idle
  | next d => if c = d then .next else .idle
  | _ => .idle

def busy : Turn C B → Option B
  | card b => some b
  | _ => none

def locked : Turn C B → Bool
  | posted _ => true
  | _ => false

/-- How many requests on the queue have been started, and completed. -/
def started : Turn C B → Nat
  | card _ => 1
  | posted _ => 1
  | _ => 0

def completed : Turn C B → Nat
  | posted _ => 1
  | _ => 0

def Fits (l : List B) : Turn C B → Prop
  | nobody => l = []
  | caller b => l.head? = some b
  | card b => l.head? = some b
  | _ => l ≠ []

variable {τ : Turn C B} {c : C}

theorem eq_posted (h : τ.intr c = .posted) : τ = posted c := by
  cases τ <;> grind [intr]

theorem eq_next (h : τ.intr c = .next) : τ = next c := by
  cases τ <;> grind [intr]

end Turn

/-- What a buffer holds.  It is `pending` on the queue until the handler has served it; with `k`, its caller is there
until it has left the queue. -/
structure Buffer (k : Prop) (s : State C B) (τ : Turn C B) (l pending : List B) (b : B) : Prop where
  caller : s.pc b = .start ↔ τ = .caller b
  queued : b ∈ pending → (s.pc b = .start ∨ s.pc b = .wait) ∧ s.oldFlag b = s.flags b ∧ (s.flags b).request ∧ s.sl b = 0
  served : s.pc b = .wait → b ∉ pending → s.oldFlag b ≠ s.flags b ∧ 0 < s.sl b
  loop : s.pc b = .loop → b ∉ l ∧ s.oldFlag b = s.flags b ∧ (s.flags b).request
  idle : k → b ∈ l → s.pc b ≠ .idle

/-- The queue is `l`, and the requests `done` have left it. -/
structure Inv (k : Prop) (s : State C B) (τ : Turn C B) (done l : List B) : Prop where
  holds : s.queue.Holds l
  fits : τ.Fits l
  intr : ∀ c, s.intr c = τ.intr c
  busy : s.card = τ.busy
  locked : s.sdLock = τ.locked
  pushed : s.pushed = done ++ l
  started : s.started = done ++ l.take τ.started
  completed : s.completed = done ++ l.take τ.completed
  buffer : ∀ b, Buffer k s τ l (l.drop τ.completed) b

section Steps

variable {k : Prop} {s s' : State C B} {τ : Turn C B} {done l : List B} {a : Act C B} {b : B} {c : C}

section

variable (h : Inv k s τ done l)
include h

theorem Inv.sdrw {f : Flags} (hpc : s.pc b = .idle) (hf : f.request) (hb : b ∉ l) :
    Inv k { s with pc := update s.pc b .loop, flags := update s.flags b f, oldFlag := update s.oldFlag b f } τ done l := by
  refine ⟨h.holds, h.fits, h.intr, h.busy, h.locked, h.pushed, h.started, h.completed, fun x => ?_⟩
  have := h.buffer x
  constructor <;> grind [Buffer]

theorem Inv.push (hpc : s.pc b = .loop) : ∃ τ', Inv k { s with
        queue := queuePush s.queue b, sl := update s.sl b 0, pushed := s.pushed ++ [b]
        pc := update s.pc b (if (queuePush s.queue b).sz = 1 then .start else .wait) } τ' done (l ++ [b]) := by
  obtain ⟨hb, hflags, hrequest⟩ := (h.buffer b).loop hpc
  have hholds := h.holds.push hb
  rw [hholds.sz, length_append, length_singleton]
  have hpushed : s.pushed ++ [b] = done ++ (l ++ [b]) := by rw [h.pushed, append_assoc]
  have hfits := h.fits
  cases l with
  | nil =>
    -- nobody had the turn: the caller takes it
    obtain rfl : τ = .nobody := by cases τ <;> simp_all [Turn.Fits]
    refine ⟨.caller b, hholds, rfl, h.intr, h.busy, h.locked, hpushed, h.started, h.completed, fun x => ?_⟩
    have := h.buffer x
    constructor <;> grind [Buffer, Turn.completed]
  | cons e l =>
    have hstarted : τ.started ≤ (e :: l).length := by cases τ <;> simp [Turn.started]
    have hcompleted : τ.completed ≤ (e :: l).length := by cases τ <;> simp [Turn.completed]
    refine ⟨τ, hholds, ?_, h.intr, h.busy, h.locked, hpushed, ?_, ?_, fun x => ?_⟩
    · cases τ <;> simp_all [Turn.Fits]
    · exact h.started.trans (by rw [take_append_of_le_length hstarted])
    · exact h.completed.trans (by rw [take_append_of_le_length hcompleted])
    · have := h.buffer x
      constructor <;> grind [Buffer]

theorem Inv.start (hpc : s.pc b = .start) :
    Inv k { s with pc := update s.pc b .wait, card := some b, started := s.started ++ [b] } (.card b) done l := by
  obtain rfl := (h.buffer b).caller.mp hpc
  obtain ⟨l, rfl⟩ : ∃ t, l = b :: t := head?_eq_some_iff.mp h.fits
  refine ⟨h.holds, rfl, h.intr, rfl, h.locked, h.pushed, ?_, h.completed, fun x => ?_⟩
  · simp [h.started, Turn.started]
  · have := h.buffer x
    constructor <;> grind [Buffer, Turn.completed]

theorem Inv.wait (hpc : s.pc b = .wait) (hsl : 0 < s.sl b) (hk : k → s.sdLock = false) : Inv k { s with
      sl := update s.sl b (s.sl b - 1)
      pc := update s.pc b (if s.oldFlag b = s.flags b then .loop else .idle) } τ done l := by
  refine ⟨h.holds, h.fits, h.intr, h.busy, h.locked, h.pushed, h.started, h.completed, fun x => ?_⟩
  have := h.buffer x
  -- it is no longer pending, so it is not on the queue either
  have hpending : k → l.drop τ.completed = l := by
    intro hk'
    have := h.locked.symm.trans (hk hk')
    cases τ <;> simp_all [Turn.locked, Turn.completed]
  constructor <;> grind [Buffer]

end

theorem serve_ne {f : Flags} (h : f.request) : f ≠ f.serve := by
  rcases f with ⟨_ | _, _ | _⟩ <;> simp_all [Flags.request, Flags.serve]

section

variable (h : Inv k s τ done l)
include h

/-- The card works on the head of the queue. -/
theorem Inv.card (hbegin : s.queue.begin = some b) (hcard : s.card.isSome) : τ = .card b ∧ ∃ t, l = b :: t := by
  have hhead : l.head? = some b := h.holds.begin.symm.trans hbegin
  have hbusy := h.busy ▸ hcard
  have hfits := h.fits
  refine ⟨?_, head?_eq_some_iff.mp hhead⟩
  cases τ <;> simp_all [Turn.busy, Turn.Fits]

theorem Inv.post (hbegin : s.queue.begin = some b) (hcard : s.card.isSome) (c : C) : Inv k { s with
      flags := update s.flags b (s.flags b).serve, sl := update s.sl b (s.sl b + 1)
      intr := update s.intr c .posted, sdLock := true, card := none, completed := s.completed ++ [b] } (.posted c) done l := by
  obtain ⟨rfl, l, rfl⟩ := h.card hbegin hcard
  have hb : b ∉ l := (nodup_cons.mp h.holds.nodup).1
  have hrequest := ((h.buffer b).queued mem_cons_self).2.2.1
  refine ⟨h.holds, cons_ne_nil b l, fun d => ?_, rfl, rfl, h.pushed, h.started, ?_, fun x => ?_⟩
  · have := h.intr d
    grind [Turn.intr]
  · simp [h.completed, Turn.completed]
  · have := h.buffer x
    have := serve_ne hrequest
    constructor <;> grind [Buffer, Turn.completed]

theorem Inv.pop (hc : s.intr c = .posted) : ∃ q τ' b t, queuePop s.queue = some q ∧ l = b :: t ∧
      Inv k { s with queue := q, sdLock := false, intr := update s.intr c (if q.sz = 0 then .idle else .next) } τ' (done ++ [b]) t := by
  obtain rfl := Turn.eq_posted ((h.intr c).symm.trans hc)
  obtain ⟨b, l, rfl⟩ := exists_cons_of_ne_nil h.fits
  obtain ⟨q, hpop, hholds⟩ := h.holds.pop
  have hsz := hholds.sz
  -- the handler keeps the turn if there is a next request
  obtain ⟨τ, hfits, hintr, hnone⟩ : ∃ τ : Turn C B, τ.Fits l ∧
      (∀ d, update s.intr c (if q.sz = 0 then .idle else .next) d = τ.intr d) ∧
      τ.busy = none ∧ τ.locked = false ∧ τ.started = 0 ∧ τ.completed = 0 ∧ ∀ b, τ ≠ .caller b := by
    have := h.intr
    cases l with
    | nil => exact ⟨.nobody, rfl, by grind [Turn.intr], rfl, rfl, rfl, rfl, nofun⟩
    | cons e l => exact ⟨.next c, cons_ne_nil e l, by grind [Turn.intr], rfl, rfl, rfl, rfl, nofun⟩
  obtain ⟨hbusy, hlocked, hstarted, hcompleted, hcaller⟩ := hnone
  refine ⟨q, τ, b, l, hpop, rfl, hholds, hfits, hintr, h.busy.trans hbusy.symm, hlocked.symm, ?_, ?_, ?_, fun x => ?_⟩
  · simp [h.pushed]
  · rw [hstarted]
    simp [h.started, Turn.started]
  · rw [hcompleted]
    simp [h.completed, Turn.completed]
  · have := h.buffer x
    constructor <;> grind [Buffer, Turn.completed]

theorem Inv.next (hc : s.intr c = .next) (hbegin : s.queue.begin = some b) :
    Inv k { s with intr := update s.intr c .idle, card := some b, started := s.started ++ [b] } (.card b) done l := by
  obtain rfl := Turn.eq_next ((h.intr c).symm.trans hc)
  have hhead : l.head? = some b := h.holds.begin.symm.trans hbegin
  obtain ⟨t, rfl⟩ := head?_eq_some_iff.mp hhead
  refine ⟨h.holds, hhead, fun d => ?_, rfl, h.locked, h.pushed, ?_, h.completed, fun x => ?_⟩
  · have := h.intr d
    grind [Turn.intr]
  · simp [h.started, Turn.started]
  · have := h.buffer x
    constructor <;> grind [Buffer, Turn.completed]

end

/-- With `k`, in runs where the callers are patient. -/
def Reached (k : Prop) (s : State C B) : Prop := ∃ τ done l, Inv k s τ done l

section

variable (h : Inv k s τ done l)
include h

theorem Inv.reached (ha : Unlinked s a) (hk : k → Patient s a) (hstep : step s a = some s') : Reached k s' := by
  cases a with
  | sdrw b f =>
    obtain ⟨⟨hpc, hf⟩, ⟨⟩⟩ := ite_none_right_eq_some.mp hstep
    exact ⟨τ, done, l, h.sdrw hpc hf (h.holds.nodes ▸ ha b rfl)⟩
  | push b =>
    obtain ⟨hpc, ⟨⟩⟩ := ite_none_right_eq_some.mp hstep
    obtain ⟨τ', h'⟩ := h.push hpc
    exact ⟨τ', done, _, h'⟩
  | start b =>
    obtain ⟨⟨hpc, -⟩, ⟨⟩⟩ := ite_none_right_eq_some.mp hstep
    exact ⟨_, done, l, h.start hpc⟩
  | wait b =>
    obtain ⟨⟨hpc, hsl⟩, ⟨⟩⟩ := ite_none_right_eq_some.mp hstep
    exact ⟨τ, done, l, h.wait hpc hsl fun hk' => hk hk' rfl⟩
  | intr c =>
    obtain ⟨b, hbegin, hstep⟩ := bind_eq_some_iff.mp hstep
    obtain ⟨⟨-, hcard, -⟩, ⟨⟩⟩ := ite_none_right_eq_some.mp hstep
    exact ⟨_, done, l, h.post hbegin hcard c⟩
  | pop c =>
    obtain ⟨hc, hstep⟩ := ite_none_right_eq_some.mp hstep
    obtain ⟨q, τ', b, t, hpop, -, h'⟩ := h.pop hc
    rw [hpop] at hstep
    cases hstep
    exact ⟨τ', _, t, h'⟩
  | next c =>
    obtain ⟨b, hbegin, hstep⟩ := bind_eq_some_iff.mp hstep
    obtain ⟨⟨hc, -⟩, ⟨⟩⟩ := ite_none_right_eq_some.mp hstep
    exact ⟨_, done, l, h.next hc hbegin⟩

theorem Inv.touched (a : Act C B) : touched s a ⊆ l := by
  have hbegin : s.queue.begin.toList ⊆ l := by
    rw [h.holds.begin]
    cases l <;> simp
  cases a with
  | intr _ => exact hbegin
  | next _ => exact hbegin
  | pop _ =>
    have hholds := h.holds
    match l with
    | [] => simp [Sd.touched, hholds.1]
    | [b] => simp [Sd.touched, hholds.2.2.1]
    | b :: c :: l =>
      obtain ⟨hbegin, -, hsz, -, ⟨hnext, -⟩, hprev⟩ := hholds
      have hlast : s.queue.prev b ∈ b :: c :: l := hprev ▸ getLastD_mem_cons
      simpa [Sd.touched, hbegin, hsz, hnext] using hlast
  | _ => exact nil_subset l

/-- Who has the turn can take it. -/
theorem Inv.enabled [Inhabited C] (hl : l ≠ []) : ∃ a : Act C B, a.called = none ∧ step s a ≠ none := by
  obtain ⟨e, t, rfl⟩ := exists_cons_of_ne_nil hl
  have hbegin : s.queue.begin = some e := h.holds.begin
  have hsz := h.holds.sz
  have hlocked := h.locked
  have hbusy := h.busy
  cases τ with
  | nobody => exact absurd h.fits hl
  | caller b =>
    have hpc := (h.buffer b).caller.mpr rfl
    exact ⟨.start b, rfl, by simp [step, hpc, hlocked, Turn.locked]⟩
  | card b =>
    have hidle := h.intr default
    exact ⟨.intr default, rfl, by simp [step, hbegin, hidle, hsz, hbusy, hlocked, Turn.locked, Turn.busy, Turn.intr]⟩
  | posted c =>
    have hc : s.intr c = .posted := (h.intr c).trans (if_pos rfl)
    obtain ⟨q, -, -, -, hpop, -⟩ := h.pop hc
    exact ⟨.pop c, rfl, by simp [step, hc, hpop]⟩
  | next c =>
    have hc : s.intr c = .next := (h.intr c).trans (if_pos rfl)
    exact ⟨.next c, rfl, by simp [step, hbegin, hc, hlocked, Turn.locked]⟩

theorem Inv.inOrder [Inhabited C] : InOrder s := by
  have hle : τ.completed ≤ τ.started ∧ τ.started ≤ τ.completed + 1 := by
    cases τ <;> simp [Turn.completed, Turn.started]
  constructor
  · rw [h.completed, h.started, prefix_append_right_inj]
    exact take_prefix_take_left hle.1
  · rw [h.started, h.pushed, prefix_append_right_inj]
    exact take_prefix ..
  · rw [h.started, h.completed]
    simp
    omega
  · intro c s' hstep
    obtain ⟨b, hbegin, hstep⟩ := bind_eq_some_iff.mp hstep
    obtain ⟨⟨-, hcard, -⟩, ⟨⟩⟩ := ite_none_right_eq_some.mp hstep
    obtain ⟨rfl, l, rfl⟩ := h.card hbegin hcard
    refine ⟨b, h.busy, ?_, rfl⟩
    simp [h.started, h.completed, Turn.started, Turn.completed]
  · intro b s' hstep
    obtain ⟨⟨hpc, hsl⟩, ⟨⟩⟩ := ite_none_right_eq_some.mp hstep
    have := h.buffer b
    grind [Buffer]
  · intro hrest
    obtain rfl : l = [] := by
      by_contra hl
      obtain ⟨a, ha, hstep⟩ := h.enabled hl
      exact hstep (hrest a ha)
    simp [h.started, h.completed, h.pushed]

end

end Steps

/-! ## The results -/

variable {next prev : B → B} {flags : B → Flags} {sl : B → Nat} {s : State C B} {as : List (Act C B)}

theorem inv_init (k : Prop) : Inv k (init next prev flags sl : State C B) .nobody [] [] :=
  ⟨⟨rfl, rfl⟩, rfl, fun _ => rfl, rfl, rfl, rfl, rfl, rfl, fun _ => ⟨⟨nofun, nofun⟩, nofun, nofun, nofun, nofun⟩⟩

/-- As long as no caller uses a buffer again that is still on the queue, requests are started and completed in order. -/
theorem sdrw_in_order [Inhabited C] (hmeets : RunMeets step Unlinked (init next prev flags sl : State C B) as)
    (hrun : run step (init next prev flags sl) as = some s) : InOrder s := by
  have hreached : Reached False s := by
    refine run_invariant ?_ as _ s ⟨_, _, _, inv_init False⟩ hmeets hrun
    rintro s a s' ⟨τ, done, l, h⟩ ha hstep
    exact h.reached ha False.elim hstep
  obtain ⟨τ, done, l, h⟩ := hreached
  exact h.inOrder

/-- Two callers.  The first one returns before the pop, and calls again: its buffer links itself out of the ring, and the
handler starts it before the second one. -/
def again : List (Act Unit Bool) :=
  [.sdrw false ⟨false, false⟩, .push false, .start false, .sdrw true ⟨false, false⟩, .push true, .intr (), .wait false,
    .sdrw false ⟨false, false⟩, .push false, .pop (), .next ()]

def boot : State Unit Bool := init id id (fun _ => ⟨false, false⟩) fun _ => 0

theorem overtaken : ∃ s, run step boot again = some s ∧ s.pushed = [false, true, false] ∧ s.started = [false, false] ∧
    ¬ InOrder s :=
  ⟨_, rfl, rfl, rfl, fun h => absurd h.started (by decide)⟩

theorem sdrw_in_order_second : ∃ s, run step boot (again.take 6 ++ [.pop (), .wait false, .next ()]) = some s ∧ InOrder s := by
  have hrun : run step boot (again.take 6 ++ [.pop (), .wait false, .next ()]) = some _ := rfl
  exact ⟨_, hrun, sdrw_in_order (by decide) hrun⟩

end Armv8Os.Sd
