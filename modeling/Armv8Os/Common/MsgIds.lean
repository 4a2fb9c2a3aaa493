/-
  `common/ipc.c` as a whole: the table of queues, creation and removal, and processes that are killed.

  `Common.Ipc` follows the messages of ONE queue that stays.  Here a call names a queue by its identifier, the queue may go away,
  and `kill` wakes a sleeping process although nobody has detached its node.

  1. **Program** — `getMsgq`, `newque`, `freeque` and the sections under `msg_ids.lock`, one move of `step` each.

  2. **Specification** — `NoStale`: a node on a list belongs to a process that is asleep in the call that put it there.
     `Released`: what a removal owes to the processes on the lists.

  3. **Crux** — a process has a node on a list exactly while it sleeps there (`Booked`): nodes come and leave only together with
     their processes (`Booked.sleep`, `Booked.leave`).  `kill` and the shortcut of the scheduler for killed processes break this,
     and so does `freeque`, which takes the wrong list.

  The `r_msg` of a receiver is NOT initialised: what it holds before somebody writes to it is a choice of the environment.
-/
import Armv8Os.Common.Ipc

set_option linter.unusedSectionVars false

namespace Armv8Os.MsgIds

open Ipc (Msg Receiver MsgQueue testmsg findMsg enomem einval eagain e2big enomsg)
open Function (update update_eq_self update_of_ne update_self)
open Transition List Option

/-! ## The program -/

def enoseq : Int := -2
def enoent : Int := -3
def eexist : Int := -4
def eidrm : Int := -7

/-- `SEQ_MULTIPLIER`. -/
def seqMultiplier : Int := 16

/-- `IPC_PRIVATE`. -/
def ipcPrivate : Int := 0

/-- The word `r_msg` of a receiver. -/
inductive RMsg (δ : Type*) where
  | junk (word : Option (Msg δ))  -- what was on the stack before
  | written (word : Option (Msg δ))
  deriving DecidableEq

def RMsg.value {δ : Type*} : RMsg δ → Option (Msg δ)
  | .junk word | .written word => word

/-- `msg_queue` with its key and number. -/
structure Entry (T δ : Type*) where
  key : Int
  seq : Int
  que : MsgQueue T δ
  deriving DecidableEq

/-- Where a process is. -/
inductive Stage (δ : Type*) where
  | out (ret : Int)  -- outside; its last call returned `ret`
  | blocked (id : Fin 16) (msgid : Int) (msg : Msg δ)  -- asleep on `q_sender`
  | retry (msgid : Int) (msg : Msg δ)  -- `_sched` returns in `sys_msgsnd`
  | waiting (id : Fin 16) (size : Int) (rmsg : RMsg δ)  -- asleep on `q_receiver`
  | woken (size : Int) (rmsg : RMsg δ)  -- `_sched` returns in `sys_msgrcv`
  | spinning  -- in the loop of `pipeline_send`, for good
  deriving DecidableEq

/-- `msg_ids`, the processes and the history. -/
structure State (T δ : Type*) where
  inUse : Int
  seq : UInt16
  entries : Fin 16 → Option (Entry T δ)
  locked : Bool  -- somebody spins with `msg_ids.lock`
  stage : T → Stage δ
  killed : T → Bool
  activated : List T  -- the calls of `activate_proc`
  stored : List (T × Msg δ)  -- what `store_msg` has copied, and for whom
  freed : List (Msg δ)  -- the calls of `free_msg`
  kfreed : List (MsgQueue T δ)  -- the queues given to `kfree`, as they were then

inductive Act (T δ : Type*) where
  | msgget (t : T) (key : Int) (create excl alloc : Bool)
  | msgsnd (t : T) (msgid : Int) (msgp : Option Int) (msgsz : Int) (loaded : Option δ) (nowait : Bool)
  | retry (t : T)
  | msgrcv (t : T) (msgid : Int) (msgp : Bool) (msgsz mtype : Int) (nowait : Bool) (word : Option (Msg δ))
  | resume (t : T)
  | msgctl (t : T) (msgid : Int) (rmid : Bool)
  | kill (t : T)

/-- `init_ipc`; nobody has called anything. -/
def start {T δ : Type*} : State T δ :=
  { inUse := 0, seq := 0, entries := fun _ => none, locked := false, stage := fun _ => .out 0, killed := fun _ => false,
    activated := [], stored := [], freed := [], kfreed := [] }

section Program

variable {T δ : Type*}

/-- `ipc_buildin`. -/
def ipcBuildin (id : Fin 16) (seq : Int) : Int := seq * seqMultiplier + id

/-- `get_msgq`; `none` if it reads before the table. -/
def getMsgq (s : State T δ) (msgid : Int) : Option (Option (Fin 16 × Entry T δ)) :=
  let id := msgid.tmod seqMultiplier
  if id < 0 then none
  else
    let slot := Fin.ofNat 16 id.toNat
    match s.entries slot with
    | none => some none
    | some e => if msgid.tdiv seqMultiplier ≠ e.seq then some none else some (some (slot, e))

/-- The loop of `ipc_addid`. -/
def freeSlot (s : State T δ) : Option (Fin 16) := (List.finRange 16).find? fun id => (s.entries id).isNone

/-- `ipc_findkey`. -/
def ipcFindkey (s : State T δ) (key : Int) : Option (Fin 16 × Entry T δ) :=
  (List.finRange 16).findSome? fun id => (s.entries id).bind fun e => if e.key = key then some (id, e) else none

/-- Whom `pipeline_send` finds, and the others. -/
def firstMatch : List (Receiver T) → Msg δ → Option (Receiver T × List (Receiver T))
  | [], _ => none
  | rcver :: rs, msg =>
    if testmsg rcver.mtype msg.mtype then some (rcver, rs)
    else (firstMatch rs msg).map fun (found, rest) => (found, rcver :: rest)

/-- `_activate_proc` for a process in one of the calls. -/
def Stage.wake : Stage δ → Stage δ
  | .blocked _ msgid msg => .retry msgid msg
  | .waiting _ size rmsg => .woken size rmsg
  | g => g

/-- The `r_msg` on the stack of a process is written. -/
def Stage.setRmsg (msg : Option (Msg δ)) : Stage δ → Stage δ
  | .waiting id size _ => .waiting id size (.written msg)
  | .woken size _ => .woken size (.written msg)
  | g => g

variable [DecidableEq T]

def State.goto (s : State T δ) (t : T) (g : Stage δ) : State T δ := { s with stage := update s.stage t g }

def State.setQue (s : State T δ) (id : Fin 16) (e : Entry T δ) (que : MsgQueue T δ) : State T δ :=
  { s with entries := update s.entries id (some { e with que := que }) }

def State.setRmsg (s : State T δ) (t : T) (msg : Option (Msg δ)) : State T δ := s.goto t ((s.stage t).setRmsg msg)

/-- `activate_proc`. -/
def State.activate (s : State T δ) (t : T) : State T δ :=
  { s.goto t (s.stage t).wake with activated := s.activated ++ [t] }

/-- `newque`. -/
def newque (s : State T δ) (key : Int) (alloc : Bool) : State T δ × Int :=
  if alloc then
    match freeSlot s with
    | none => (s, enoseq)
    | some id =>
      ({ s with
          inUse := s.inUse + 1, seq := s.seq + 1
          entries := update s.entries id (some { key := key, seq := s.seq.toNat, que := Ipc.newque }) },
        ipcBuildin id s.seq.toNat)
  else (s, enomem)

/-- `sys_msgget`. -/
def msgget (s : State T δ) (key : Int) (create excl alloc : Bool) : State T δ × Int :=
  if key = ipcPrivate then newque s key alloc
  else
    match ipcFindkey s key with
    | none => if create then newque s key alloc else (s, enoent)
    | some (id, e) => if excl then (s, eexist) else (s, ipcBuildin id e.seq)

/-- `ss_wakeup` on a list whose nodes belong to these processes.  The word `proc` is at the same place in a `msg_sender` and in a
`msg_receiver`. -/
def ssWakeup (s : State T δ) (procs : List T) : State T δ := procs.foldl State.activate s

/-- `expunge_all` on a list of receivers. -/
def expungeAll (s : State T δ) (rs : List (Receiver T)) : State T δ :=
  rs.foldl (fun s rcver => (s.setRmsg rcver.proc none).activate rcver.proc) s

/-- `freeque`.  It calls `ss_wakeup(&msgq->q_receiver)`, and then `expunge_all` finds an empty list. -/
def freeque (s : State T δ) (id : Fin 16) (e : Entry T δ) : State T δ :=
  let s := { s with entries := update s.entries id none }
  let s := ssWakeup s (e.que.receiver.map (·.proc))
  let que := { e.que with receiver := [] }
  let s := expungeAll s que.receiver
  let s := { s with freed := s.freed ++ que.message }
  { s with inUse := s.inUse - 1, kfreed := s.kfreed ++ [{ que with message := [] }] }

/-- `sys_msgsnd` from `retry` on. -/
def sendSection (s : State T δ) (t : T) (msgid : Int) (msg : Msg δ) (nowait : Bool) : Option (State T δ) :=
  if s.locked then none
  else
    match getMsgq s msgid with
    | none => none
    | some none => some { s.goto t (.out eidrm) with freed := s.freed ++ [msg] }
    | some (some (id, e)) =>
      if e.que.maxMsg < e.que.sumMsg + 1 then
        if nowait then some { s.goto t (.out eagain) with freed := s.freed ++ [msg] }
        else
          -- a killed process comes back from `_sched` at once
          let g := if s.killed t then .retry msgid msg else .blocked id msgid msg
          some ((s.setQue id e { e.que with sender := e.que.sender ++ [t] }).goto t g)
      else
        match firstMatch e.que.receiver msg with
        | some (rcver, rest) =>
          let s := s.setQue id e { e.que with receiver := rest }
          -- a detached node is its own successor, so the loop does not get past a small buffer
          if rcver.size < msg.size then
            some { ((s.setRmsg rcver.proc none).activate rcver.proc).goto t .spinning with locked := true }
          else some (((s.setRmsg rcver.proc (some msg)).activate rcver.proc).goto t (.out 0))
        | none =>
          some ((s.setQue id e { e.que with message := e.que.message ++ [msg], sumMsg := e.que.sumMsg + 1 }).goto t (.out 0))

/-- `sys_msgrcv` from the lock on, up to where it returns or sleeps. -/
def recvSection (s : State T δ) (t : T) (msgid msgsz mtype : Int) (nowait : Bool) (word : Option (Msg δ)) : Option (State T δ) :=
  if s.locked then none
  else
    match getMsgq s msgid with
    | none => none
    | some none => some (s.goto t (.out eidrm))
    | some (some (id, e)) =>
      match findMsg mtype e.que.message with
      | some (msg, rest) =>
        if msgsz < msg.size then some (s.goto t (.out e2big))
        else
          let s := s.setQue id e { e.que with message := rest, sumMsg := e.que.sumMsg - 1, sender := [] }
          let s := ssWakeup s e.que.sender
          some { s.goto t (.out (min msgsz msg.size)) with stored := s.stored ++ [(t, msg)], freed := s.freed ++ [msg] }
      | none =>
        if nowait then some (s.goto t (.out enomsg))
        else
          let g := if s.killed t then .woken msgsz (.junk word) else .waiting id msgsz (.junk word)
          some ((s.setQue id e
            { e.que with receiver := e.que.receiver ++ [{ proc := t, mtype := mtype, size := msgsz }] }).goto t g)

/-- One section of one process. -/
def step (s : State T δ) : Act T δ → Option (State T δ)
  | .msgget t key create excl alloc =>
    match s.stage t with
    | .out _ =>
      if s.locked then none
      else
        let (s', ret) := msgget s key create excl alloc
        some (s'.goto t (.out ret))
    | _ => none
  | .msgsnd t msgid msgp msgsz loaded nowait =>
    match s.stage t with
    | .out _ =>
      match msgp with
      | none => some (s.goto t (.out einval))
      | some mtype =>
        if msgsz < 0 ∨ mtype < 1 then some (s.goto t (.out einval))
        else
          match loaded with
          | none => some (s.goto t (.out enomem))
          | some data => sendSection s t msgid { mtype := mtype, size := msgsz, data := data } nowait
    | _ => none
  | .retry t =>
    match s.stage t with
    | .retry msgid msg => sendSection s t msgid msg false
    | _ => none
  | .msgrcv t msgid msgp msgsz mtype nowait word =>
    match s.stage t with
    | .out _ =>
      if msgsz < 0 ∨ msgp = false then some (s.goto t (.out einval)) else recvSection s t msgid msgsz mtype nowait word
    | _ => none
  | .resume t =>
    match s.stage t with
    | .woken size rmsg =>
      match rmsg.value with
      | none => some (s.goto t (.out e2big))
      | some msg =>
        some { s.goto t (.out (min size msg.size)) with stored := s.stored ++ [(t, msg)], freed := s.freed ++ [msg] }
    | _ => none
  | .msgctl t msgid rmid =>
    match s.stage t with
    | .out _ =>
      if rmid then
        if s.locked then none
        else
          match getMsgq s msgid with
          | none => none
          | some none => some (s.goto t (.out 0))
          | some (some (id, e)) => some ((freeque s id e).goto t (.out 0))
      else some (s.goto t (.out einval))
    | _ => none
  -- `alert_proc` wakes whoever is SLEEPING
  | .kill t => some { s.goto t (s.stage t).wake with killed := update s.killed t true }

end Program

/-! ## The loops -/

section Loops

variable {T δ : Type*}

theorem firstMatch_some {rs rest : List (Receiver T)} {msg : Msg δ} {rcver : Receiver T}
    (h : firstMatch rs msg = some (rcver, rest)) : ∃ l₁ l₂, rs = l₁ ++ rcver :: l₂ ∧ rest = l₁ ++ l₂ := by
  induction rs generalizing rest with
  | nil => cases h
  | cons r rs ih =>
    unfold firstMatch at h
    split at h
    · cases h
      exact ⟨[], _, rfl, rfl⟩
    · obtain ⟨⟨found, rest'⟩, hrec, heq⟩ := map_eq_some_iff.mp h
      cases heq
      obtain ⟨l₁, l₂, rfl, rfl⟩ := ih hrec
      exact ⟨r :: l₁, l₂, rfl, rfl⟩

variable [DecidableEq T] {s : State T δ}

@[simp] theorem stage_goto_self (s : State T δ) (t : T) (g : Stage δ) : (s.goto t g).stage t = g := update_self ..

theorem stage_goto_of_ne (s : State T δ) {t u : T} (g : Stage δ) (hne : u ≠ t) : (s.goto t g).stage u = s.stage u :=
  update_of_ne hne ..

theorem stage_handOff_of_ne (s : State T δ) {t u : T} (word : Option (Msg δ)) (hne : t ≠ u) :
    ((s.setRmsg u word).activate u).stage t = s.stage t :=
  (stage_goto_of_ne _ _ hne).trans (stage_goto_of_ne _ _ hne)

@[simp] theorem Stage.wake_wake (g : Stage δ) : g.wake.wake = g.wake := by cases g <;> rfl

/-- Everybody on the list is awake, and only they. -/
theorem stage_ssWakeup (procs : List T) (t : T) :
    (ssWakeup s procs).stage t = if t ∈ procs then (s.stage t).wake else s.stage t := by
  induction procs generalizing s with
  | nil => rfl
  | cons u procs ih =>
    show (ssWakeup (s.activate u) procs).stage t = _
    rw [ih]
    show (if t ∈ procs then (update s.stage u _ t).wake else update s.stage u _ t) = _
    by_cases htu : t = u
    · subst htu
      rw [update_self, Stage.wake_wake, ite_self, if_pos mem_cons_self]
    · rw [update_of_ne htu]
      simp only [mem_cons, htu, false_or]

/-- Waking up changes stages and the history only. -/
theorem ssWakeup_eq (procs : List T) :
    ssWakeup s procs = { s with stage := (ssWakeup s procs).stage, activated := s.activated ++ procs } := by
  induction procs generalizing s with
  | nil => simp [ssWakeup]
  | cons u procs ih =>
    show ssWakeup (s.activate u) procs = { s with stage := (ssWakeup (s.activate u) procs).stage, activated := _ }
    rw [ih]
    simp [State.activate, State.goto]

end Loops

/-! ## No stale nodes -/

section Stale

variable {T δ : Type*}

/-- The queue on which a process sleeps. -/
def Stage.asleep : Stage δ → Option (Fin 16)
  | .blocked id _ _ | .waiting id _ _ => some id
  | _ => none

/-- The nodes on the lists of a queue belong to processes that are asleep there, one for each. -/
structure Entry.Sound (stage : T → Stage δ) (id : Fin 16) (e : Entry T δ) : Prop where
  sender : ∀ t ∈ e.que.sender, ∃ msgid msg, stage t = .blocked id msgid msg
  senderOnce : e.que.sender.Nodup
  receiver : ∀ r ∈ e.que.receiver, ∃ rmsg, stage r.proc = .waiting id r.size rmsg
  receiverOnce : (e.que.receiver.map (·.proc)).Nodup

/-- **No stale waiter nodes**, and whoever returns from `_sched` in `sys_msgrcv` finds an `r_msg` that was written. -/
structure NoStale (s : State T δ) : Prop where
  entry : ∀ id e, s.entries id = some e → e.Sound s.stage id
  blocked : ∀ t id msgid msg, s.stage t = .blocked id msgid msg → ∃ e, s.entries id = some e ∧ t ∈ e.que.sender
  waiting : ∀ t id size rmsg, s.stage t = .waiting id size rmsg →
    ∃ e, s.entries id = some e ∧ t ∈ e.que.receiver.map (·.proc)
  written : ∀ t size rmsg, s.stage t = .woken size rmsg → ∃ word, rmsg = .written word

/-- The node of a process that sleeps: the queue it is on, and the size of the buffer if it is a receiver's. -/
def Stage.node : Stage δ → Option (Fin 16 × Option Int)
  | .blocked id _ _ => some (id, none)
  | .waiting id size _ => some (id, some size)
  | _ => none

/-- A stage outside the lists, with an `r_msg` that may be read. -/
def Stage.settled : Stage δ → Prop
  | .blocked .. | .waiting .. | .woken _ (.junk _) => False
  | _ => True

theorem Stage.settled.node {g : Stage δ} (h : g.settled) : g.node = none := by
  cases g with
  | blocked id msgid msg => exact h.elim
  | waiting id size rmsg => exact h.elim
  | _ => rfl

/-- The nodes on the two lists of a queue, with their processes. -/
def nodes (que : MsgQueue T δ) : List (T × Option Int) :=
  que.sender.map (·, none) ++ que.receiver.map fun r => (r.proc, some r.size)

def listed : Option (Entry T δ) → List (T × Option Int)
  | none => []
  | some e => nodes e.que

def State.nodes (s : State T δ) (id : Fin 16) : List (T × Option Int) := listed (s.entries id)

/-- A process has a node on a list exactly while it sleeps there, and only one; whoever is awake may go on. -/
structure Booked (s : State T δ) : Prop where
  mem_iff : ∀ id u k, (u, k) ∈ s.nodes id ↔ (s.stage u).node = some (id, k)
  once : ∀ id, (s.nodes id).Nodup
  awake : ∀ u, (s.stage u).node = none → (s.stage u).settled

theorem start_booked : Booked (start : State T δ) where
  mem_iff _ _ _ := iff_of_false not_mem_nil (some_ne_none _ ∘ Eq.symm)
  once _ := nodup_nil
  awake _ _ := trivial

theorem Entry.mem_sender {e : Entry T δ} {t : T} : t ∈ e.que.sender ↔ (t, none) ∈ nodes e.que := by
  simp [nodes]

theorem Entry.mem_receiver {e : Entry T δ} {t : T} :
    t ∈ e.que.receiver.map (·.proc) ↔ ∃ size, (t, some size) ∈ nodes e.que := by
  simp [nodes]

theorem State.nodes_of_entry {s : State T δ} {id : Fin 16} {e : Entry T δ} (he : s.entries id = some e) :
    s.nodes id = MsgIds.nodes e.que :=
  congrArg listed he

theorem Booked.sound {s : State T δ} (h : Booked s) {id : Fin 16} {e : Entry T δ} (he : s.entries id = some e) :
    e.Sound s.stage id := by
  have hnodes := s.nodes_of_entry he
  obtain ⟨hsenders, hreceivers, -⟩ := nodup_append'.mp (hnodes ▸ h.once id)
  constructor
  · intro t ht
    have hnode := (h.mem_iff id t none).mp (hnodes ▸ Entry.mem_sender.mp ht)
    cases hstage : s.stage t with
    | blocked j msgid msg =>
      rw [hstage] at hnode
      cases hnode
      exact ⟨msgid, msg, rfl⟩
    | _ =>
      rw [hstage] at hnode
      cases hnode
  · exact hsenders.of_map _
  · intro r hr
    have hnode := (h.mem_iff id r.proc (some r.size)).mp (hnodes ▸ mem_append_right _ (mem_map_of_mem hr))
    cases hstage : s.stage r.proc with
    | waiting j size rmsg =>
      rw [hstage] at hnode
      cases hnode
      exact ⟨rmsg, rfl⟩
    | _ =>
      rw [hstage] at hnode
      cases hnode
  · -- the stage of a process tells the size of its buffer
    have hproc := hreceivers.map_on (f := Prod.fst) (by
      rintro ⟨u, k⟩ hk ⟨v, k'⟩ hk' rfl
      have hnode := (h.mem_iff id u k).mp (hnodes ▸ mem_append_right _ hk)
      rw [(h.mem_iff id u k').mp (hnodes ▸ mem_append_right _ hk')] at hnode
      cases hnode
      rfl)
    rwa [List.map_map] at hproc

theorem Booked.noStale {s : State T δ} (h : Booked s) : NoStale s := by
  have hlisted : ∀ id u k, (s.stage u).node = some (id, k) → ∃ e, s.entries id = some e ∧ (u, k) ∈ nodes e.que := by
    intro id u k hu
    have hin := (h.mem_iff id u k).mpr hu
    unfold State.nodes at hin
    cases he : s.entries id with
    | none =>
      rw [he] at hin
      cases hin
    | some e =>
      rw [he] at hin
      exact ⟨e, rfl, hin⟩
  constructor
  · exact fun id e he => h.sound he
  · intro t id msgid msg ht
    obtain ⟨e, he, hin⟩ := hlisted id t none (by rw [ht]; rfl)
    exact ⟨e, he, Entry.mem_sender.mpr hin⟩
  · intro t id size rmsg ht
    obtain ⟨e, he, hin⟩ := hlisted id t (some size) (by rw [ht]; rfl)
    exact ⟨e, he, Entry.mem_receiver.mpr ⟨size, hin⟩⟩
  · intro t size rmsg ht
    have hsettled := h.awake t (by rw [ht]; rfl)
    rw [ht] at hsettled
    cases rmsg with
    | junk word => exact hsettled.elim
    | written word => exact ⟨word, rfl⟩

variable [DecidableEq T] {s s' : State T δ} {t : T} {id : Fin 16} {e : Entry T δ} {que : MsgQueue T δ}

theorem State.nodes_update {o : Option (Entry T δ)} (hentries : s'.entries = update s.entries id o) :
    s'.nodes = update s.nodes id (listed o) := by
  unfold State.nodes
  rw [hentries]
  exact Function.comp_update listed s.entries id o

section

variable (h : Booked s)
include h

/-- No list changes, and only processes that are awake move. -/
theorem Booked.congr (hnodes : s'.nodes = s.nodes)
    (hstage : ∀ u, s'.stage u = s.stage u ∨ (s.stage u).node = none ∧ (s'.stage u).settled) : Booked s' := by
  have hnode : ∀ u, (s'.stage u).node = (s.stage u).node := by
    intro u
    rcases hstage u with heq | ⟨hawake, hsettled⟩
    · rw [heq]
    · rw [hawake, hsettled.node]
  refine ⟨fun id u k => ?_, fun id => hnodes ▸ h.once id, fun u hu => ?_⟩
  · rw [hnodes, hnode]
    exact h.mem_iff id u k
  · rcases hstage u with heq | ⟨-, hsettled⟩
    · rw [heq] at hu ⊢
      exact h.awake u hu
    · exact hsettled

/-- A process that is awake goes on. -/
theorem Booked.goto {g : Stage δ} (hentries : s'.entries = s.entries) (hstage : s'.stage = update s.stage t g)
    (hawake : (s.stage t).node = none) (hg : g.settled) : Booked s' := by
  refine h.congr (by unfold State.nodes; rw [hentries]) fun u => ?_
  rw [hstage]
  rcases eq_or_ne u t with rfl | hne
  · exact .inr ⟨hawake, by rwa [update_self]⟩
  · exact .inl (update_of_ne hne ..)

/-- The messages of a queue change, or a queue without nodes comes or goes. -/
theorem Booked.update {o : Option (Entry T δ)} (hentries : s'.entries = update s.entries id o) (hstage : s'.stage = s.stage)
    (hnodes : listed o = s.nodes id) : Booked s' := by
  refine h.congr ?_ fun u => .inl (congrFun hstage u)
  rw [s.nodes_update hentries, hnodes, update_eq_self]

/-- A process goes to sleep on a queue, with a node on one of the lists. -/
theorem Booked.sleep (he : s.entries id = some e) (hawake : (s.stage t).node = none) {g : Stage δ} {k : Option Int}
    (hg : g.node = some (id, k)) (hperm : (nodes que).Perm ((t, k) :: nodes e.que)) : Booked ((s.setQue id e que).goto t g) := by
  rw [← s.nodes_of_entry he] at hperm
  have hnodes : ((s.setQue id e que).goto t g).nodes = Function.update s.nodes id (nodes que) := s.nodes_update (o := some { e with que := que }) rfl
  have hnot : ∀ j k', (t, k') ∉ s.nodes j := by
    intro j k' hin
    rw [(h.mem_iff j t k').mp hin] at hawake
    cases hawake
  constructor
  · intro j u k'
    rw [hnodes]
    rcases eq_or_ne u t with rfl | hu
    · rw [stage_goto_self, hg]
      rcases eq_or_ne j id with rfl | hj
      · rw [update_self, hperm.mem_iff]
        simp [hnot, eq_comm]
      · simp [update_of_ne hj, hnot, hj.symm]
    · rw [stage_goto_of_ne _ g hu]
      refine Iff.trans ?_ (h.mem_iff j u k')
      rcases eq_or_ne j id with rfl | hj
      · rw [update_self, hperm.mem_iff]
        simp [hu]
      · rw [update_of_ne hj]
  · intro j
    rw [hnodes]
    rcases eq_or_ne j id with rfl | hj
    · rw [update_self, hperm.nodup_iff]
      exact nodup_cons.mpr ⟨hnot j k, h.once j⟩
    · rw [update_of_ne hj]
      exact h.once j
  · intro u hu
    rcases eq_or_ne u t with rfl | hne
    · rw [stage_goto_self, hg] at hu
      cases hu
    · rw [stage_goto_of_ne _ g hne] at hu ⊢
      exact h.awake u hu

/-- Some processes leave the lists of a queue, together with their nodes. -/
theorem Booked.leave (he : s.entries id = some e) {gone : List (T × Option Int)}
    (hperm : (nodes e.que).Perm (gone ++ nodes que)) (hentries : s'.entries = (s.setQue id e que).entries)
    (hgone : ∀ u k, (u, k) ∈ gone → (s'.stage u).settled) (hkept : ∀ u, (∀ k, (u, k) ∉ gone) → s'.stage u = s.stage u) :
    Booked s' := by
  have hnodes : s'.nodes = Function.update s.nodes id (nodes que) := s.nodes_update (o := some { e with que := que }) hentries
  have hwas := s.nodes_of_entry he
  have honce := hperm.nodup_iff.mp (hwas ▸ h.once id)
  constructor
  · intro j u k
    rw [hnodes]
    by_cases hu : ∃ k', (u, k') ∈ gone
    · obtain ⟨k', hk'⟩ := hu
      have hnode := (h.mem_iff id u k').mp (hwas ▸ hperm.mem_iff.mpr (mem_append_left _ hk'))
      refine iff_of_false (fun hin => ?_) (by rw [(hgone u k' hk').node]; exact some_ne_none _ ∘ Eq.symm)
      rcases eq_or_ne j id with rfl | hj
      · rw [update_self] at hin
        have hsame := (h.mem_iff j u k).mp (hwas ▸ hperm.mem_iff.mpr (mem_append_right _ hin))
        rw [hnode] at hsame
        cases hsame
        exact (nodup_append'.mp honce).2.2 hk' hin
      · rw [update_of_ne hj, h.mem_iff, hnode] at hin
        cases hin
        exact hj rfl
    · push Not at hu
      rw [hkept u hu]
      refine Iff.trans ?_ (h.mem_iff j u k)
      rcases eq_or_ne j id with rfl | hj
      · rw [update_self, hwas, hperm.mem_iff, mem_append, or_iff_right (hu k)]
      · rw [update_of_ne hj]
  · intro j
    rw [hnodes]
    rcases eq_or_ne j id with rfl | hj
    · rw [update_self]
      exact honce.of_append_right
    · rw [update_of_ne hj]
      exact h.once j
  · intro u hu
    by_cases hin : ∃ k, (u, k) ∈ gone
    · obtain ⟨k, hk⟩ := hin
      exact hgone u k hk
    · push Not at hin
      rw [hkept u hin] at hu ⊢
      exact h.awake u hu

end

section

variable (h : Booked s) (he : s.entries id = some e)
include h he

/-- `sys_msgrcv` wakes all senders. -/
theorem Booked.ssWakeup (hsender : que.sender = []) (hreceiver : que.receiver = e.que.receiver) :
    Booked (ssWakeup (s.setQue id e que) e.que.sender) := by
  have hperm : (nodes e.que).Perm (e.que.sender.map (·, none) ++ nodes que) := by
    simp [nodes, hsender, hreceiver]
  refine h.leave he hperm (by rw [ssWakeup_eq]) (fun u k hu => ?_) fun u hu => ?_
  · obtain ⟨u', hin, heq⟩ := mem_map.mp hu
    cases heq
    obtain ⟨msgid, msg, hwas⟩ := (h.sound he).sender u hin
    rw [stage_ssWakeup, if_pos hin]
    show (s.stage u).wake.settled
    rw [hwas]
    trivial
  · rw [stage_ssWakeup, if_neg fun hin => hu none (mem_map_of_mem hin)]
    rfl

variable {msg : Msg δ} {rcver : Receiver T} {rest : List (Receiver T)}
  (hfound : firstMatch e.que.receiver msg = some (rcver, rest))
include hfound

/-- The receiver that `pipeline_send` finds. -/
theorem Booked.found :
    (∃ rmsg, s.stage rcver.proc = .waiting id rcver.size rmsg) ∧
      (nodes e.que).Perm ([(rcver.proc, some rcver.size)] ++ nodes { e.que with receiver := rest }) := by
  obtain ⟨l₁, l₂, hrs, rfl⟩ := firstMatch_some hfound
  refine ⟨(h.sound he).receiver rcver (hrs ▸ mem_append_right l₁ mem_cons_self), ?_⟩
  simp only [nodes, hrs, map_append, map_cons, ← append_assoc]
  exact perm_middle

/-- `pipeline_send` detaches a receiver, writes to its `r_msg` and activates it. -/
theorem Booked.handOff (word : Option (Msg δ)) :
    Booked (((s.setQue id e { e.que with receiver := rest }).setRmsg rcver.proc word).activate rcver.proc) := by
  obtain ⟨⟨rmsg, hwas⟩, hperm⟩ := h.found he hfound
  refine h.leave he hperm rfl (fun u k hu => ?_) fun u hu => ?_
  · cases mem_singleton.mp hu
    simp [State.activate, State.setRmsg, State.setQue, hwas, Stage.setRmsg, Stage.wake, Stage.settled]
  · refine stage_handOff_of_ne _ word ?_
    rintro rfl
    exact hu _ mem_cons_self

end

theorem getMsgq_some {msgid : Int} (h : getMsgq s msgid = some (some (id, e))) :
    s.entries id = some e ∧ msgid = ipcBuildin id e.seq := by
  unfold getMsgq at h
  dsimp only at h
  split at h
  next => cases h
  next hid =>
    split at h
    next => cases h
    next e' he =>
      split at h
      next => cases h
      next hseq =>
        cases h
        refine ⟨he, ?_⟩
        have hdiv := Int.mul_tdiv_add_tmod msgid seqMultiplier
        have hlt : msgid.tmod seqMultiplier < 16 := Int.tmod_lt_of_pos _ (by decide)
        have hval : ((Fin.ofNat 16 (msgid.tmod seqMultiplier).toNat : Fin 16) : Int) = msgid.tmod seqMultiplier := by
          show (((msgid.tmod seqMultiplier).toNat % 16 : Nat) : Int) = _
          omega
        unfold ipcBuildin
        rw [not_not.mp hseq] at hdiv
        linarith

/-- A new queue has empty lists. -/
theorem Booked.newque (h : Booked s) (key : Int) (alloc : Bool) : Booked (newque s key alloc).1 := by
  unfold MsgIds.newque
  split
  · cases hslot : freeSlot s with
    | none => exact h
    | some id =>
      have hfree : s.entries id = none := by
        have hnone := find?_some hslot
        exact isNone_iff_eq_none.mp hnone
      exact h.update rfl rfl (congrArg listed hfree).symm
  · exact h

theorem stage_msgget (key : Int) (create excl alloc : Bool) : (msgget s key create excl alloc).1.stage = s.stage := by
  have hnew : (newque s key alloc).1.stage = s.stage := by
    unfold newque
    split
    · cases freeSlot s <;> rfl
    · rfl
  unfold msgget
  split
  · exact hnew
  · cases ipcFindkey s key with
    | none =>
      cases create with
      | true => exact hnew
      | false => rfl
    | some found =>
      cases excl <;> rfl

theorem Booked.msgget (h : Booked s) (key : Int) (create excl alloc : Bool) : Booked (msgget s key create excl alloc).1 := by
  unfold MsgIds.msgget
  split
  · exact h.newque key alloc
  · split
    next =>
      split
      · exact h.newque key alloc
      · exact h
    next =>
      split
      · exact h
      · exact h

/-- Nobody who sleeps in a call is killed, no killed process goes to sleep in one, and a queue is removed only when nobody sleeps
on it. -/
def Undisturbed (s : State T δ) : Act T δ → Prop
  | .kill t => (s.stage t).asleep = none
  | .msgsnd t .. | .retry t | .msgrcv t .. => s.killed t = false
  | .msgctl _ msgid _ =>
    match getMsgq s msgid with
    | some (some (_, e)) => e.que.sender = [] ∧ e.que.receiver = []
    | _ => True
  | _ => True

instance decidableUndisturbed (s : State T δ) : (a : Act T δ) → Decidable (Undisturbed s a)
  | .kill t => inferInstanceAs (Decidable ((s.stage t).asleep = none))
  | .msgsnd t .. | .retry t | .msgrcv t .. => inferInstanceAs (Decidable (s.killed t = false))
  | .msgctl _ msgid _ =>
    match h : getMsgq s msgid with
    | some (some (_, e)) => decidable_of_iff (e.que.sender = [] ∧ e.que.receiver = []) (by simp only [Undisturbed, h])
    | some none => isTrue (by simp only [Undisturbed, h])
    | none => isTrue (by simp only [Undisturbed, h])
  | .msgget .. | .resume _ => isTrue trivial

section

variable (h : Booked s) (hawake : (s.stage t).node = none) (halive : s.killed t = false)
include h hawake halive

theorem Booked.sendSection {msgid : Int} {msg : Msg δ}
    {nowait : Bool} (hsend : sendSection s t msgid msg nowait = some s') : Booked s' := by
  unfold MsgIds.sendSection at hsend
  split at hsend
  next => cases hsend
  next =>
    split at hsend
    next => cases hsend
    next =>
      cases hsend
      exact h.goto rfl rfl hawake trivial
    next id e hget =>
      obtain ⟨he, -⟩ := getMsgq_some hget
      split at hsend
      next =>
        split at hsend
        · cases hsend
          exact h.goto rfl rfl hawake trivial
        · rw [halive] at hsend
          cases hsend
          refine h.sleep he hawake (g := .blocked id msgid msg) rfl ?_
          simp only [nodes, map_append, append_assoc]
          exact perm_middle
      next =>
        split at hsend
        next rcver rest hfound =>
          have hawake' : ∀ word : Option (Msg δ), ((((s.setQue id e { e.que with receiver := rest }).setRmsg rcver.proc word).activate
              rcver.proc).stage t).node = none := by
            intro word
            have hne : t ≠ rcver.proc := by
              rintro rfl
              obtain ⟨⟨rmsg, hwas⟩, -⟩ := h.found he hfound
              rw [hwas] at hawake
              cases hawake
            rw [stage_handOff_of_ne _ word hne]
            exact hawake
          split at hsend
          · cases hsend
            exact (h.handOff he hfound none).goto rfl rfl (hawake' none) trivial
          · cases hsend
            exact (h.handOff he hfound (some msg)).goto rfl rfl (hawake' (some msg)) trivial
        next =>
          cases hsend
          have hque : Booked (s.setQue id e
              { e.que with message := e.que.message ++ [msg], sumMsg := e.que.sumMsg + 1 }) :=
            h.update rfl rfl (s.nodes_of_entry he).symm
          exact hque.goto rfl rfl hawake trivial

theorem Booked.recvSection {msgid msgsz mtype : Int}
    {nowait : Bool} {word : Option (Msg δ)} (hrecv : recvSection s t msgid msgsz mtype nowait word = some s') : Booked s' := by
  unfold MsgIds.recvSection at hrecv
  split at hrecv
  next => cases hrecv
  next =>
    split at hrecv
    next => cases hrecv
    next =>
      cases hrecv
      exact h.goto rfl rfl hawake trivial
    next id e hget =>
      obtain ⟨he, -⟩ := getMsgq_some hget
      split at hrecv
      next msg rest hfind =>
        split at hrecv
        · cases hrecv
          exact h.goto rfl rfl hawake trivial
        · cases hrecv
          have hout : t ∉ e.que.sender := by
            intro hin
            obtain ⟨msgid, msg, hwas⟩ := (h.sound he).sender t hin
            rw [hwas] at hawake
            cases hawake
          have hwoken : Booked (MsgIds.ssWakeup (s.setQue id e
              { e.que with message := rest, sumMsg := e.que.sumMsg - 1, sender := [] }) e.que.sender) :=
            h.ssWakeup he rfl rfl
          refine hwoken.goto rfl rfl ?_ trivial
          rw [stage_ssWakeup, if_neg hout]
          exact hawake
      next =>
        split at hrecv
        · cases hrecv
          exact h.goto rfl rfl hawake trivial
        · rw [halive] at hrecv
          cases hrecv
          refine h.sleep he hawake (g := .waiting id msgsz (.junk word)) rfl ?_
          simp only [nodes, map_append, ← append_assoc]
          exact perm_append_singleton ..

end

theorem Stage.wake_of_awake {g : Stage δ} (h : g.asleep = none) : g.wake = g := by
  cases g with
  | blocked id msgid msg => cases h
  | waiting id size rmsg => cases h
  | _ => rfl

theorem step_booked {a : Act T δ} (h : Booked s) (hquiet : Undisturbed s a) (hstep : step s a = some s') : Booked s' := by
  cases a with
  | msgget t key create excl alloc =>
    simp only [step] at hstep
    split at hstep
    next ret hstage =>
      split at hstep
      next => cases hstep
      next =>
        cases hstep
        refine (h.msgget key create excl alloc).goto rfl rfl ?_ trivial
        rw [stage_msgget, hstage]
        rfl
    next => cases hstep
  | msgsnd t msgid msgp msgsz loaded nowait =>
    simp only [step] at hstep
    split at hstep
    next ret hstage =>
      have hawake : (s.stage t).node = none := by rw [hstage]; rfl
      cases msgp with
      | none =>
        cases hstep
        exact h.goto rfl rfl hawake trivial
      | some mtype =>
        change (if msgsz < 0 ∨ mtype < 1 then _ else _) = some s' at hstep
        split at hstep
        · cases hstep
          exact h.goto rfl rfl hawake trivial
        · cases loaded with
          | none =>
            cases hstep
            exact h.goto rfl rfl hawake trivial
          | some data => exact h.sendSection hawake hquiet hstep
    next => cases hstep
  | retry t =>
    simp only [step] at hstep
    split at hstep
    next msgid msg hstage => exact h.sendSection (by rw [hstage]; rfl) hquiet hstep
    next => cases hstep
  | msgrcv t msgid msgp msgsz mtype nowait word =>
    simp only [step] at hstep
    split at hstep
    next ret hstage =>
      have hawake : (s.stage t).node = none := by rw [hstage]; rfl
      split at hstep
      · cases hstep
        exact h.goto rfl rfl hawake trivial
      · exact h.recvSection hawake hquiet hstep
    next => cases hstep
  | resume t =>
    simp only [step] at hstep
    split at hstep
    next size rmsg hstage =>
      have hawake : (s.stage t).node = none := by rw [hstage]; rfl
      split at hstep
      · cases hstep
        exact h.goto rfl rfl hawake trivial
      next msg _ =>
        cases hstep
        exact h.goto rfl rfl hawake trivial
    next => cases hstep
  | msgctl t msgid rmid =>
    simp only [step] at hstep
    split at hstep
    next ret hstage =>
      have hawake : (s.stage t).node = none := by rw [hstage]; rfl
      split at hstep
      next =>
        split at hstep
        next => cases hstep
        next =>
          split at hstep
          next => cases hstep
          next =>
            cases hstep
            exact h.goto rfl rfl hawake trivial
          next id e hget =>
            cases hstep
            simp only [Undisturbed, hget] at hquiet
            obtain ⟨hsender, hreceiver⟩ := hquiet
            have hnodes : [] = s.nodes id := by
              rw [s.nodes_of_entry (getMsgq_some hget).1, nodes, hsender, hreceiver]
              rfl
            have hfree : Booked (freeque s id e) := h.update (o := none)
              (by simp [freeque, hreceiver, ssWakeup, expungeAll]) (by simp [freeque, hreceiver, ssWakeup, expungeAll]) hnodes
            refine hfree.goto rfl rfl ?_ trivial
            simp [freeque, hreceiver, ssWakeup, expungeAll, hawake]
      next =>
        cases hstep
        exact h.goto rfl rfl hawake trivial
    next => cases hstep
  | kill t =>
    cases hstep
    refine h.congr rfl fun u => .inl ?_
    show update s.stage t (s.stage t).wake u = s.stage u
    rw [Stage.wake_of_awake hquiet, update_eq_self]

/-- **Undisturbed runs leave no stale nodes**: every node on a list belongs to a process that sleeps there, each has one, and what
a receiver reads from `r_msg` was written. -/
theorem run_noStale (as : List (Act T δ)) (s : State T δ) (hquiet : RunMeets step Undisturbed start as)
    (hrun : run step start as = some s) : NoStale s :=
  (run_invariant (I := Booked) (fun _ _ _ h => step_booked h) as start s start_booked hquiet hrun).noStale

end Stale

/-- A receiver waits and is handed a message, while another one keeps waiting. -/
theorem run_noStale_handOff :
    ∃ s, run step (start : State (Fin 3) Nat)
        [.msgget 0 5 true false true, .msgrcv 0 0 true 8 0 false (some ⟨1, 4, 99⟩), .msgrcv 1 0 true 8 3 false none,
          .msgsnd 2 0 (some 7) 4 (some 10) false] = some s ∧
      s.stage 0 = .woken 8 (.written (some ⟨7, 4, 10⟩)) ∧ s.stage 1 = .waiting 0 8 (.junk none) ∧ NoStale s := by
  refine exists_run (P := fun s => s.stage 0 = .woken 8 (.written (some ⟨7, 4, 10⟩)) ∧ s.stage 1 = .waiting 0 8 (.junk none))
    (by decide +kernel) fun s hrun hs => ?_
  exact ⟨hs.1, hs.2, run_noStale _ s (by decide +kernel) hrun⟩

/-- A receiver that is killed in its sleep reads what happens to be in `r_msg`, returns, and leaves its node behind. -/
theorem kill_leaves_node :
    ∃ s, run step (start : State (Fin 2) Nat)
        [.msgget 1 5 true false true, .msgrcv 0 0 true 8 0 false (some ⟨1, 4, 99⟩), .kill 0, .resume 0] = some s ∧
      s.stage 0 = .out 4 ∧ s.stored = [(0, ⟨1, 4, 99⟩)] ∧ ¬ NoStale s := by
  refine exists_run (P := fun s => s.stage 0 = .out 4 ∧ s.stored = [(0, ⟨1, 4, 99⟩)] ∧
    (s.entries 0).map (·.que.receiver) = some [{ proc := 0, mtype := 0, size := 8 }]) (by decide +kernel)
    fun s hrun ⟨hstage, hstored, hentry⟩ => ⟨hstage, hstored, fun hstale => ?_⟩
  obtain ⟨e, he, hreceiver⟩ := map_eq_some_iff.mp hentry
  obtain ⟨rmsg, hwaiting⟩ := (hstale.entry 0 e he).receiver _ (hreceiver ▸ mem_cons_self)
  rw [hstage] at hwaiting
  cases hwaiting

/-! ## Removal -/

section Removal

variable {T δ : Type*} [DecidableEq T] {s s' : State T δ} {t : T} {id : Fin 16} {e : Entry T δ} {msgid : Int}

/-- What the removal of the queue `e` owes: everybody on its lists is activated once, receivers find NULL, messages are freed, and
nothing leads to the queue any more. -/
structure Released (s s' : State T δ) (msgid : Int) (e : Entry T δ) : Prop where
  activated : ∃ l, s'.activated = s.activated ++ l ∧ l.Perm (e.que.sender ++ e.que.receiver.map (·.proc)) ∧ l.Nodup
  senders : ∀ u ∈ e.que.sender, ∃ msg, s'.stage u = .retry msgid msg
  receivers : ∀ r ∈ e.que.receiver, (∃ rmsg, s'.stage r.proc = .woken r.size rmsg ∧ rmsg.value = none) ∧
    step s' (.resume r.proc) = some (s'.goto r.proc (.out e2big))
  messages : s'.freed = s.freed ++ e.que.message
  unlinked : ∃ que, s'.kfreed = s.kfreed ++ [que] ∧ que.sender = [] ∧ que.receiver = [] ∧ que.message = []
  gone : getMsgq s' msgid = some none
  eidrm : ∀ u msg, s'.stage u = .retry msgid msg →
    step s' (.retry u) = some { s'.goto u (.out eidrm) with freed := s'.freed ++ [msg] }

theorem freeque_eq (s : State T δ) (id : Fin 16) (e : Entry T δ) :
    freeque s id e =
      { s with
        inUse := s.inUse - 1, entries := update s.entries id none
        stage := fun u => if u ∈ e.que.receiver.map (·.proc) then (s.stage u).wake else s.stage u
        activated := s.activated ++ e.que.receiver.map (·.proc), freed := s.freed ++ e.que.message
        kfreed := s.kfreed ++ [{ e.que with receiver := [], message := [] }] } := by
  unfold freeque
  dsimp only [expungeAll, foldl]
  rw [ssWakeup_eq]
  congr 1
  funext u
  exact stage_ssWakeup ..

/-- An identifier leads to its slot only. -/
theorem getMsgq_none (hentry : s'.entries id = none) (hget : getMsgq s msgid = some (some (id, e))) :
    getMsgq s' msgid = some none := by
  unfold getMsgq at hget ⊢
  dsimp only at hget ⊢
  split at hget
  next => cases hget
  next hid =>
    rw [if_neg hid]
    split at hget
    next => cases hget
    next e' he =>
      split at hget
      next => cases hget
      next =>
        cases hget
        rw [hentry]

end Removal

/-- The calls that fill queue 0 and one more, which sleeps. -/
def fillQueue : List (Act (Fin 2) Nat) :=
  .msgget 1 5 true false true :: List.replicate 256 (.msgsnd 1 0 (some 1) 0 (some 0) false) ++ [.msgsnd 0 0 (some 1) 0 (some 0) false]

end Armv8Os.MsgIds
