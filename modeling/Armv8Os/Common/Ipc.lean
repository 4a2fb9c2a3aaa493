/-
  `common/ipc.c`: message queues.

  A sender finds room or sleeps on `q_sender` and tries again; a message goes to the first waiting receiver that asked for
  its type, or to the tail of `q_message`.  A receiver takes a message off `q_message` or sleeps on `q_receiver` until a
  sender has put one into its `r_msg`.

  1. **Program** — `pipelineSend`, `findMsg` and the sections under `msg_ids.lock`, one move of `step` each.

  2. **Specification** — the state keeps what has been accepted, what has left the queue and what has been returned, in
     that order of events.

  3. **Crux** — `Inv`: what was accepted is on the queue, in some `r_msg`, or returned.  The order needs more: with
     receivers of type 0 nobody waits while a message is there (`InOrder`).

  The calls all name one queue that exists.  What `load_msg` makes of a payload stays a type parameter `δ`.
-/
import Armv8Os.Lib.Transition

set_option linter.unusedSectionVars false

namespace Armv8Os.Ipc

open Transition List Option
open Function (update update_of_ne update_self)

/-! ## The program -/

def enomem : Int := -1
def einval : Int := -5
def eagain : Int := -6
def e2big : Int := -8
def enomsg : Int := -9

/-- `MAX_MSGNUM`. -/
def maxMsgnum : Int := 256

/-- `msg_msg`. -/
structure Msg (δ : Type*) where
  mtype : Int
  size : Int
  data : δ
  deriving Repr, DecidableEq

/-- `msg_receiver`.  Its `r_msg` is in the stage of the process. -/
structure Receiver (T : Type*) where
  proc : T
  mtype : Int
  size : Int
  deriving Repr, DecidableEq

/-- `msg_queue`, with the heads of its lists first. -/
structure MsgQueue (T δ : Type*) where
  maxMsg : Int
  sumMsg : Int
  message : List (Msg δ)
  sender : List T
  receiver : List (Receiver T)
  deriving DecidableEq

/-- `newque`. -/
def newque {T δ : Type*} : MsgQueue T δ :=
  { maxMsg := maxMsgnum, sumMsg := 0, message := [], sender := [], receiver := [] }

/-- `testmsg`. -/
def testmsg (rqtype type : Int) : Bool :=
  if rqtype = 0 then true else if rqtype < 0 then rqtype + type ≤ 0 else rqtype = type

section Program

variable {T δ : Type*}

/-- `pipeline_send`: the receiver that gets the message, if any, and the ones that still wait.  A matching receiver whose
buffer is too small is detached, which makes it its own successor, and the loop never leaves it: `none`. -/
def pipelineSend : List (Receiver T) → Msg δ → Option (Option (Receiver T) × List (Receiver T))
  | [], _ => some (none, [])
  | rcver :: rs, msg =>
    if testmsg rcver.mtype msg.mtype then
      if rcver.size < msg.size then none else some (some rcver, rs)
    else (pipelineSend rs msg).map fun (found, rest) => (found, rcver :: rest)

/-- The loop of `sys_msgrcv` over `q_message`: the message it ends with, and the queue without it.  For a negative type
each match lowers the bound, and the last match counts. -/
def findMsg : Int → List (Msg δ) → Option (Msg δ × List (Msg δ))
  | _, [] => none
  | mtype, msg :: ms =>
    if testmsg mtype msg.mtype then
      if mtype < -1 then
        match findMsg (mtype + 1) ms with
        | some (found, rest) => some (found, msg :: rest)
        | none => some (msg, ms)
      else some (msg, ms)
    else (findMsg mtype ms).map fun (found, rest) => (found, msg :: rest)

end Program

/-! ## The system -/

/-- Where a process is. -/
inductive Stage (δ : Type*) where
  | out (ret : Int)  -- outside; its last call returned `ret`
  | blocked (msg : Msg δ)  -- asleep on `q_sender`
  | retry (msg : Msg δ)  -- activated by `ss_wakeup`
  | waiting (mtype size : Int)  -- asleep on `q_receiver`
  | handed (msg : Msg δ) (size : Int)  -- activated, with `r_msg` set
  deriving DecidableEq

/-- The queue, the processes and the history. -/
structure State (T δ : Type*) where
  que : MsgQueue T δ
  stage : T → Stage δ
  accepted : List (Msg δ)
  left : List (Msg δ)
  returned : List (Msg δ)

inductive Act (T δ : Type*) where
  | msgsnd (t : T) (msgp : Option Int) (msgsz : Int) (loaded : Option δ) (nowait : Bool)
  | retry (t : T)
  | msgrcv (t : T) (msgp : Bool) (msgsz mtype : Int) (nowait : Bool)
  | resume (t : T)

/-- Nobody has called anything. -/
def start {T δ : Type*} : State T δ :=
  { que := newque, stage := fun _ => .out 0, accepted := [], left := [], returned := [] }

section System

variable {T δ : Type*} [DecidableEq T]

def State.goto (s : State T δ) (t : T) (g : Stage δ) : State T δ := { s with stage := update s.stage t g }

/-- `ss_wakeup(&msgq->q_sender)`. -/
def ssWakeup (s : State T δ) : State T δ :=
  { s with
    que := { s.que with sender := [] }
    stage := fun t =>
      match s.stage t with
      | .blocked msg => if t ∈ s.que.sender then .retry msg else .blocked msg
      | g => g }

/-- `sys_msgsnd` from `retry` on. -/
def sendSection (s : State T δ) (t : T) (msg : Msg δ) (nowait : Bool) : Option (State T δ) :=
  if s.que.maxMsg < s.que.sumMsg + 1 then
    if nowait then some (s.goto t (.out eagain))
    else some { s.goto t (.blocked msg) with que := { s.que with sender := s.que.sender ++ [t] } }
  else
    (pipelineSend s.que.receiver msg).map fun (found, rest) =>
      match found with
      | some rcver =>
        { (s.goto rcver.proc (.handed msg rcver.size)).goto t (.out 0) with
          que := { s.que with receiver := rest }, accepted := s.accepted ++ [msg], left := s.left ++ [msg] }
      | none =>
        { s.goto t (.out 0) with
          que := { s.que with message := s.que.message ++ [msg], sumMsg := s.que.sumMsg + 1 }
          accepted := s.accepted ++ [msg] }

/-- `sys_msgrcv` from the lock on, up to where it returns or sleeps. -/
def recvSection (s : State T δ) (t : T) (msgsz mtype : Int) (nowait : Bool) : State T δ :=
  match findMsg mtype s.que.message with
  | some (msg, rest) =>
    if msgsz < msg.size then s.goto t (.out e2big)
    else
      let s' := { s with que := { s.que with message := rest, sumMsg := s.que.sumMsg - 1 } }
      { (ssWakeup s').goto t (.out (min msgsz msg.size)) with
        left := s.left ++ [msg], returned := s.returned ++ [msg] }
  | none =>
    if nowait then s.goto t (.out enomsg)
    else
      { s.goto t (.waiting mtype msgsz) with
        que := { s.que with receiver := s.que.receiver ++ [{ proc := t, mtype := mtype, size := msgsz }] } }

/-- One section of one process. -/
def step (s : State T δ) : Act T δ → Option (State T δ)
  | .msgsnd t msgp msgsz loaded nowait =>
    match s.stage t with
    | .out _ =>
      match msgp with
      | none => some (s.goto t (.out einval))
      | some mtype =>
        if msgsz < 0 ∨ mtype < 1 then some (s.goto t (.out einval))
        else
          match loaded with
          | none => some (s.goto t (.out enomem))
          | some data => sendSection s t { mtype := mtype, size := msgsz, data := data } nowait
    | _ => none
  | .retry t =>
    match s.stage t with
    | .retry msg => sendSection s t msg false  -- it would not have slept with `IPC_NOWAIT`
    | _ => none
  | .msgrcv t msgp msgsz mtype nowait =>
    match s.stage t with
    | .out _ =>
      if msgsz < 0 ∨ msgp = false then some (s.goto t (.out einval)) else some (recvSection s t msgsz mtype nowait)
    | _ => none
  | .resume t =>
    match s.stage t with
    | .handed msg size => some { s.goto t (.out (min size msg.size)) with returned := s.returned ++ [msg] }
    | _ => none

end System

/-! ## What a move does -/

/-- Neither asleep nor with a message to copy out. -/
def Stage.awake {δ : Type*} : Stage δ → Prop
  | .out _ | .retry _ => True
  | _ => False

/-- A process returns, tries to send, looks for a message, or copies one out. -/
theorem step_cases {T δ : Type*} [DecidableEq T] {s s' : State T δ} {a : Act T δ} (hstep : step s a = some s') :
    (∃ t ret, (s.stage t).awake ∧ s' = s.goto t (.out ret)) ∨
    (∃ t msg nowait, (s.stage t).awake ∧ sendSection s t msg nowait = some s') ∨
    (∃ t msgp msgsz mtype nowait, a = .msgrcv t msgp msgsz mtype nowait ∧ (s.stage t).awake ∧
      s' = recvSection s t msgsz mtype nowait) ∨
    ∃ t msg size, s.stage t = .handed msg size ∧
      s' = { s.goto t (.out (min size msg.size)) with returned := s.returned ++ [msg] } := by
  cases a with
  | msgsnd t msgp msgsz loaded nowait =>
    simp only [step] at hstep
    split at hstep
    next ret hstage =>
      have hawake : (s.stage t).awake := by rw [hstage]; trivial
      cases msgp with
      | none => exact .inl ⟨t, _, hawake, (some.inj hstep).symm⟩
      | some mtype =>
        change (if msgsz < 0 ∨ mtype < 1 then _ else _) = some s' at hstep
        split at hstep
        · exact .inl ⟨t, _, hawake, (some.inj hstep).symm⟩
        · cases loaded with
          | none => exact .inl ⟨t, _, hawake, (some.inj hstep).symm⟩
          | some data => exact .inr (.inl ⟨t, _, nowait, hawake, hstep⟩)
    next => cases hstep
  | retry t =>
    simp only [step] at hstep
    split at hstep
    next msg hstage => exact .inr (.inl ⟨t, msg, false, by rw [hstage]; trivial, hstep⟩)
    next => cases hstep
  | msgrcv t msgp msgsz mtype nowait =>
    simp only [step] at hstep
    split at hstep
    next ret hstage =>
      have hawake : (s.stage t).awake := by rw [hstage]; trivial
      split at hstep
      · exact .inl ⟨t, _, hawake, (some.inj hstep).symm⟩
      · exact .inr (.inr (.inl ⟨t, msgp, msgsz, mtype, nowait, rfl, hawake, (some.inj hstep).symm⟩))
    next => cases hstep
  | resume t =>
    simp only [step] at hstep
    split at hstep
    next msg size hstage =>
      exact .inr (.inr (.inr ⟨t, msg, size, hstage, (some.inj hstep).symm⟩))
    next => cases hstep

/-! ## What the loops find -/

section Loops

variable {T δ : Type*}

theorem pipelineSend_some {rs rest : List (Receiver T)} {msg : Msg δ} {rcver : Receiver T}
    (h : pipelineSend rs msg = some (some rcver, rest)) : ∃ l₁ l₂, rs = l₁ ++ rcver :: l₂ ∧ rest = l₁ ++ l₂ := by
  induction rs generalizing rest with
  | nil => cases h
  | cons r rs ih =>
    unfold pipelineSend at h
    split at h
    · split at h
      · cases h
      · cases h
        exact ⟨[], _, rfl, rfl⟩
    · obtain ⟨⟨found, rest'⟩, hrec, heq⟩ := map_eq_some_iff.mp h
      cases heq
      obtain ⟨l₁, l₂, rfl, rfl⟩ := ih hrec
      exact ⟨r :: l₁, l₂, rfl, rfl⟩

/-- Nobody wants the message: nobody is detached. -/
theorem pipelineSend_none {rs rest : List (Receiver T)} {msg : Msg δ} (h : pipelineSend rs msg = some (none, rest)) :
    rest = rs ∧ ∀ r ∈ rs, testmsg r.mtype msg.mtype = false := by
  induction rs generalizing rest with
  | nil =>
    cases h
    exact ⟨rfl, fun r hr => absurd hr not_mem_nil⟩
  | cons r rs ih =>
    unfold pipelineSend at h
    split at h
    next =>
      split at h
      all_goals cases h
    next htest =>
      obtain ⟨⟨found, rest'⟩, hrec, heq⟩ := map_eq_some_iff.mp h
      cases heq
      obtain ⟨rfl, hnone⟩ := ih hrec
      exact ⟨rfl, forall_mem_cons.mpr ⟨Bool.eq_false_iff.mpr htest, hnone⟩⟩

theorem findMsg_some {mtype : Int} {ms rest : List (Msg δ)} {msg : Msg δ} (h : findMsg mtype ms = some (msg, rest)) :
    ∃ l₁ l₂, ms = l₁ ++ msg :: l₂ ∧ rest = l₁ ++ l₂ := by
  induction ms generalizing mtype rest with
  | nil => cases h
  | cons m ms ih =>
    unfold findMsg at h
    split at h
    · split at h
      · split at h
        next found rest' hrec =>
          cases h
          obtain ⟨l₁, l₂, rfl, rfl⟩ := ih hrec
          exact ⟨m :: l₁, l₂, rfl, rfl⟩
        next =>
          cases h
          exact ⟨[], _, rfl, rfl⟩
      · cases h
        exact ⟨[], _, rfl, rfl⟩
    · obtain ⟨⟨found, rest'⟩, hrec, heq⟩ := map_eq_some_iff.mp h
      cases heq
      obtain ⟨l₁, l₂, rfl, rfl⟩ := ih hrec
      exact ⟨m :: l₁, l₂, rfl, rfl⟩

end Loops

/-! ## Nothing is lost -/

section Conservation

variable {T δ : Type*}

/-- The message in the `r_msg` of an activated receiver. -/
def Stage.held : Stage δ → Multiset (Msg δ)
  | .handed msg _ => {msg}
  | _ => 0

theorem Stage.awake.held_eq_zero {g : Stage δ} (h : g.awake) : g.held = 0 := by
  cases g with
  | handed msg size => cases h
  | _ => rfl

/-- What was accepted is on the queue, in an `r_msg`, or returned. -/
structure Inv [Fintype T] (s : State T δ) : Prop where
  conserved : (s.accepted : Multiset (Msg δ)) = s.que.message + ∑ t, (s.stage t).held + s.returned
  counted : s.que.sumMsg = s.que.message.length
  bounded : s.que.sumMsg ≤ s.que.maxMsg
  waiting : ∀ r ∈ s.que.receiver, s.stage r.proc = .waiting r.mtype r.size
  once : (s.que.receiver.map (·.proc)).Nodup

theorem start_inv [Fintype T] : Inv (start : State T δ) where
  conserved := by
    show (0 : Multiset (Msg δ)) = 0 + ∑ _ : T, (0 : Multiset (Msg δ)) + 0
    rw [Finset.sum_const_zero, add_zero, add_zero]
  counted := rfl
  bounded := show (0 : Int) ≤ maxMsgnum by decide
  waiting r hr := absurd hr not_mem_nil
  once := nodup_nil

variable [Fintype T] [DecidableEq T] {s s' : State T δ} {t : T} {msg : Msg δ}

/-- One process changes its stage. -/
theorem held_update (stage : T → Stage δ) (t : T) (g : Stage δ) :
    ∑ u, (update stage t g u).held + (stage t).held = ∑ u, (stage u).held + g.held := by
  have hsum := sum_off_one (f := fun u => (update stage t g u).held) (g := fun u => (stage u).held) t fun u hu => by
    rw [update_of_ne hu]
  rwa [update_self] at hsum

/-- A process that holds nothing and does not wait moves on, to where it holds nothing. -/
theorem Inv.goto (h : Inv s) {g : Stage δ} (hheld : (s.stage t).held = 0) (hg : g.held = 0)
    (hout : ∀ r ∈ s.que.receiver, r.proc ≠ t) : Inv (s.goto t g) where
  conserved := by
    have hsum := held_update s.stage t g
    rw [hheld, hg, add_zero, add_zero] at hsum
    show (s.accepted : Multiset (Msg δ)) = s.que.message + ∑ u, (update s.stage t g u).held + s.returned
    rw [hsum]
    exact h.conserved
  counted := h.counted
  bounded := h.bounded
  waiting r hr := by
    show update s.stage t g r.proc = _
    rw [update_of_ne (hout r hr)]
    exact h.waiting r hr
  once := h.once

/-- A process that is awake is not on `q_receiver`. -/
theorem Inv.not_waiting (h : Inv s) (ht : (s.stage t).awake) : ∀ r ∈ s.que.receiver, r.proc ≠ t := by
  rintro r hr rfl
  rw [h.waiting r hr] at ht
  exact ht

/-- `sys_msgsnd` puts the message on the queue. -/
theorem Inv.enqueue (h : Inv s) (hroom : ¬ s.que.maxMsg < s.que.sumMsg + 1) (msg : Msg δ) :
    Inv { s with
      que := { s.que with message := s.que.message ++ [msg], sumMsg := s.que.sumMsg + 1 }
      accepted := s.accepted ++ [msg] } where
  conserved := by
    show ((s.accepted ++ [msg] : List (Msg δ)) : Multiset (Msg δ)) =
      (s.que.message ++ [msg] : List (Msg δ)) + ∑ u, (s.stage u).held + s.returned
    rw [← Multiset.coe_add, ← Multiset.coe_add, h.conserved]
    abel
  counted := by
    show s.que.sumMsg + 1 = ((s.que.message ++ [msg]).length : Int)
    rw [h.counted, length_append]
    rfl
  bounded := not_lt.mp hroom
  waiting := h.waiting
  once := h.once

/-- `pipeline_send` hands the message to a waiting receiver. -/
theorem Inv.handOff (h : Inv s) {rcver : Receiver T} {rest : List (Receiver T)} (msg : Msg δ)
    (hsend : pipelineSend s.que.receiver msg = some (some rcver, rest)) :
    Inv { s.goto rcver.proc (.handed msg rcver.size) with
      que := { s.que with receiver := rest }, accepted := s.accepted ++ [msg], left := s.left ++ [msg] } := by
  obtain ⟨l₁, l₂, hrs, rfl⟩ := pipelineSend_some hsend
  have hwas : s.stage rcver.proc = .waiting rcver.mtype rcver.size :=
    h.waiting rcver (hrs ▸ mem_append_right l₁ mem_cons_self)
  have honce := h.once
  rw [hrs, map_append, map_cons, nodup_middle, nodup_cons, ← map_append] at honce
  constructor
  case conserved =>
    have hsum := held_update s.stage rcver.proc (.handed msg rcver.size)
    rw [hwas, show (Stage.waiting rcver.mtype rcver.size : Stage δ).held = 0 from rfl, add_zero,
      show (Stage.handed msg rcver.size).held = {msg} from rfl] at hsum
    show ((s.accepted ++ [msg] : List (Msg δ)) : Multiset (Msg δ)) =
      s.que.message + ∑ u, (update s.stage rcver.proc (.handed msg rcver.size) u).held + s.returned
    rw [hsum, ← Multiset.coe_add, h.conserved, Multiset.coe_singleton]
    abel
  case counted => exact h.counted
  case bounded => exact h.bounded
  case waiting =>
    intro r hr
    show update s.stage rcver.proc _ r.proc = _
    rw [update_of_ne]
    · exact h.waiting r (hrs ▸ ((Sublist.refl _).middle rcver).subset hr)
    · intro heq
      exact honce.1 (mem_map.mpr ⟨r, hr, heq⟩)
  case once => exact honce.2

/-- `sys_msgrcv` takes a message off the queue. -/
theorem Inv.dequeue (h : Inv s) {mtype : Int} {rest : List (Msg δ)}
    (hfind : findMsg mtype s.que.message = some (msg, rest)) :
    Inv { s with
      que := { s.que with message := rest, sumMsg := s.que.sumMsg - 1 }
      left := s.left ++ [msg], returned := s.returned ++ [msg] } := by
  obtain ⟨l₁, l₂, hms, rfl⟩ := findMsg_some hfind
  have hperm : (s.que.message : Multiset (Msg δ)) = {msg} + (l₁ ++ l₂ : List (Msg δ)) := by
    rw [hms, Multiset.singleton_add, Multiset.cons_coe, Multiset.coe_eq_coe]
    exact perm_middle
  have hlength : (s.que.message.length : Int) = ((l₁ ++ l₂).length : Int) + 1 := by
    rw [hms, length_append, length_append, length_cons]
    push_cast
    ring
  constructor
  case conserved =>
    show (s.accepted : Multiset (Msg δ)) =
      (l₁ ++ l₂ : List (Msg δ)) + ∑ u, (s.stage u).held + (s.returned ++ [msg] : List (Msg δ))
    rw [h.conserved, hperm, ← Multiset.coe_add s.returned, Multiset.coe_singleton]
    abel
  case counted =>
    show s.que.sumMsg - 1 = _
    rw [h.counted, hlength]
    exact add_sub_cancel_right _ _
  case bounded =>
    show s.que.sumMsg - 1 ≤ s.que.maxMsg
    have hbound := h.bounded
    omega
  case waiting => exact h.waiting
  case once => exact h.once

/-- Senders wake up; nobody holds more or less. -/
theorem held_ssWakeup (s : State T δ) (t : T) : ((ssWakeup s).stage t).held = (s.stage t).held := by
  show (match s.stage t with
    | .blocked msg => if t ∈ s.que.sender then Stage.retry msg else .blocked msg
    | g => g).held = _
  split
  next msg hstage =>
    rw [hstage]
    split <;> rfl
  next => rfl

theorem Inv.ssWakeup (h : Inv s) : Inv (ssWakeup s) where
  conserved := by
    show (s.accepted : Multiset (Msg δ)) = s.que.message + ∑ u, ((Ipc.ssWakeup s).stage u).held + s.returned
    rw [Finset.sum_congr rfl fun t _ => held_ssWakeup s t]
    exact h.conserved
  counted := h.counted
  bounded := h.bounded
  waiting r hr := by
    show (match s.stage r.proc with
      | .blocked msg => if r.proc ∈ s.que.sender then Stage.retry msg else .blocked msg
      | g => g) = _
    rw [h.waiting r hr]
  once := h.once

/-- A receiver goes to sleep. -/
theorem Inv.wait (h : Inv s) (hheld : (s.stage t).held = 0) (hout : ∀ r ∈ s.que.receiver, r.proc ≠ t)
    (mtype size : Int) :
    Inv { s.goto t (.waiting mtype size) with
      que := { s.que with receiver := s.que.receiver ++ [{ proc := t, mtype := mtype, size := size }] } } := by
  have hmoved : Inv (s.goto t (.waiting mtype size)) := h.goto hheld rfl hout
  refine ⟨hmoved.conserved, hmoved.counted, hmoved.bounded, fun r hr => ?_, ?_⟩
  · rcases mem_append.mp hr with hr | hr
    · exact hmoved.waiting r hr
    · obtain rfl := mem_singleton.mp hr
      exact update_self ..
  · show ((s.que.receiver ++ [_]).map _).Nodup
    rw [map_append, map_singleton, ← concat_eq_append]
    refine h.once.concat fun hin => ?_
    obtain ⟨r, hr, heq⟩ := mem_map.mp hin
    exact hout r hr heq

/-- An activated receiver copies its message out. -/
theorem Inv.resume (h : Inv s) {size : Int} (hstage : s.stage t = .handed msg size) (ret : Int) :
    Inv { s.goto t (.out ret) with returned := s.returned ++ [msg] } := by
  have hsum := held_update s.stage t (.out ret)
  rw [hstage, show (Stage.handed msg size).held = {msg} from rfl, show (Stage.out ret : Stage δ).held = 0 from rfl,
    add_zero] at hsum
  refine ⟨?_, h.counted, h.bounded, fun r hr => ?_, h.once⟩
  · show (s.accepted : Multiset (Msg δ)) =
      s.que.message + ∑ u, (update s.stage t (.out ret) u).held + (s.returned ++ [msg] : List (Msg δ))
    rw [h.conserved, ← hsum, ← Multiset.coe_add, Multiset.coe_singleton]
    abel
  · show update s.stage t _ r.proc = _
    rw [update_of_ne, h.waiting r hr]
    intro heq
    have hwaits := h.waiting r hr
    rw [heq, hstage] at hwaits
    cases hwaits

theorem Inv.sendSection (h : Inv s) (hheld : (s.stage t).held = 0) (hout : ∀ r ∈ s.que.receiver, r.proc ≠ t)
    {nowait : Bool} (hsend : sendSection s t msg nowait = some s') : Inv s' := by
  unfold Ipc.sendSection at hsend
  split at hsend
  next =>
    split at hsend
    all_goals cases hsend
    · exact h.goto hheld rfl hout
    · obtain ⟨hconserved, hcounted, hbounded, hwaiting, honce⟩ := h.goto (g := .blocked msg) hheld rfl hout
      exact ⟨hconserved, hcounted, hbounded, hwaiting, honce⟩
  next hroom =>
    obtain ⟨⟨found, rest⟩, hfound, rfl⟩ := map_eq_some_iff.mp hsend
    cases found with
    | some rcver =>
      obtain ⟨l₁, l₂, hrs, rfl⟩ := pipelineSend_some hfound
      have hne : t ≠ rcver.proc := (hout rcver (hrs ▸ mem_append_right l₁ mem_cons_self)).symm
      refine (h.handOff msg hfound).goto ?_ rfl fun r hr => hout r (hrs ▸ ((Sublist.refl _).middle rcver).subset hr)
      show (update s.stage rcver.proc _ t).held = 0
      rw [update_of_ne hne]
      exact hheld
    | none => exact (h.enqueue hroom msg).goto hheld rfl hout

theorem Inv.recvSection (h : Inv s) (hheld : (s.stage t).held = 0) (hout : ∀ r ∈ s.que.receiver, r.proc ≠ t)
    (msgsz mtype : Int) (nowait : Bool) : Inv (recvSection s t msgsz mtype nowait) := by
  unfold Ipc.recvSection
  split
  next msg rest hfind =>
    split
    · exact h.goto hheld rfl hout
    · exact (h.dequeue hfind).ssWakeup.goto ((held_ssWakeup _ t).trans hheld) rfl hout
  next =>
    split
    · exact h.goto hheld rfl hout
    · exact h.wait hheld hout mtype msgsz

theorem step_inv {a : Act T δ} (h : Inv s) (hstep : step s a = some s') : Inv s' := by
  rcases step_cases hstep with ⟨t, ret, hawake, rfl⟩ | ⟨t, msg, nowait, hawake, hsend⟩ |
    ⟨t, _, msgsz, mtype, nowait, -, hawake, rfl⟩ | ⟨t, msg, size, hstage, rfl⟩
  · exact h.goto hawake.held_eq_zero rfl (h.not_waiting hawake)
  · exact h.sendSection hawake.held_eq_zero (h.not_waiting hawake) hsend
  · exact h.recvSection hawake.held_eq_zero (h.not_waiting hawake) msgsz mtype nowait
  · exact h.resume hstage _

end Conservation

/-! ## Order -/

section Order

variable {T δ : Type*}

/-- The receive calls ask for type 0. -/
def Act.typeZero : Act T δ → Prop
  | .msgrcv _ _ _ mtype _ => mtype = 0
  | _ => True

/-- Nobody waits while there is a message, so a message never overtakes another one. -/
structure InOrder (s : State T δ) : Prop where
  order : s.accepted = s.left ++ s.que.message
  types : ∀ r ∈ s.que.receiver, r.mtype = 0
  empty : s.que.receiver ≠ [] → s.que.message = []

theorem start_inOrder : InOrder (start : State T δ) :=
  ⟨rfl, fun _ hr => absurd hr not_mem_nil, fun hne => absurd rfl hne⟩

variable [DecidableEq T] {s s' : State T δ} {t : T} {msg : Msg δ}

theorem InOrder.goto (h : InOrder s) (g : Stage δ) : InOrder (s.goto t g) := ⟨h.order, h.types, h.empty⟩

theorem InOrder.sendSection (h : InOrder s) {nowait : Bool} (hsend : sendSection s t msg nowait = some s') :
    InOrder s' := by
  unfold Ipc.sendSection at hsend
  split at hsend
  next =>
    split at hsend
    all_goals
      cases hsend
      exact ⟨h.order, h.types, h.empty⟩
  next =>
    obtain ⟨⟨found, rest⟩, hfound, rfl⟩ := map_eq_some_iff.mp hsend
    cases found with
    | some rcver =>
      obtain ⟨l₁, l₂, hrs, rfl⟩ := pipelineSend_some hfound
      have hempty : s.que.message = [] := h.empty (hrs ▸ append_ne_nil_of_right_ne_nil _ (cons_ne_nil _ _))
      refine ⟨?_, fun r hr => h.types r (hrs ▸ ((Sublist.refl _).middle rcver).subset hr), fun _ => hempty⟩
      show s.accepted ++ [msg] = s.left ++ [msg] ++ s.que.message
      rw [h.order, hempty, append_nil, append_nil]
    | none =>
      -- a receiver of type 0 takes everything, so there is none
      obtain ⟨rfl, hnone⟩ := pipelineSend_none hfound
      have hrs : s.que.receiver = [] := by
        refine eq_nil_iff_forall_not_mem.mpr fun r hr => ?_
        have htest := hnone r hr
        rw [h.types r hr] at htest
        cases htest
      refine ⟨?_, h.types, fun hne => absurd hrs hne⟩
      show s.accepted ++ [msg] = s.left ++ (s.que.message ++ [msg])
      rw [h.order, append_assoc]

theorem InOrder.recvSection (h : InOrder s) (msgsz : Int) (nowait : Bool) : InOrder (recvSection s t msgsz 0 nowait) := by
  unfold Ipc.recvSection
  cases hms : s.que.message with
  | nil =>
    show InOrder (if nowait then _ else _)
    split
    · exact h.goto _
    · refine ⟨h.order, fun _ hr => ?_, fun _ => hms⟩
      rcases mem_append.mp hr with hr | hr
      · exact h.types _ hr
      · obtain rfl := mem_singleton.mp hr
        rfl
  | cons msg rest =>
    show InOrder (if msgsz < msg.size then _ else _)
    split
    · exact h.goto _
    · refine ⟨?_, h.types, fun hne => ?_⟩
      · show s.accepted = s.left ++ [msg] ++ rest
        rw [h.order, hms, append_assoc]
        rfl
      · have hempty := h.empty hne
        rw [hms] at hempty
        cases hempty

theorem step_inOrder {a : Act T δ} (h : InOrder s) (hzero : a.typeZero) (hstep : step s a = some s') : InOrder s' := by
  rcases step_cases hstep with ⟨t, ret, -, rfl⟩ | ⟨t, msg, nowait, -, hsend⟩ |
    ⟨t, _, msgsz, mtype, nowait, rfl, -, rfl⟩ | ⟨t, msg, size, -, rfl⟩
  · exact h.goto _
  · exact h.sendSection hsend
  · obtain rfl : mtype = 0 := hzero
    exact h.recvSection msgsz nowait
  · exact ⟨h.order, h.types, h.empty⟩

end Order

/-- **Messages are neither lost nor duplicated**: at every moment each accepted message is on the queue, in the `r_msg` of an
activated receiver, or returned; and to receivers of type 0 they go in the order in which they were accepted. -/
theorem messages_conserved {T δ : Type*} [Fintype T] [DecidableEq T] (as : List (Act T δ)) (s : State T δ)
    (hrun : run step start as = some s) :
    (s.accepted : Multiset (Msg δ)) = s.que.message + ∑ t, (s.stage t).held + s.returned ∧
      s.que.sumMsg = s.que.message.length ∧ (s.que.message.length : Int) ≤ s.que.maxMsg ∧
      ((∀ a ∈ as, a.typeZero) → s.accepted = s.left ++ s.que.message) := by
  have hinv := run_invariant_all (I := Inv) (fun _ _ _ h hstep => step_inv h hstep) as _ s start_inv hrun
  refine ⟨hinv.conserved, hinv.counted, hinv.counted ▸ hinv.bounded, fun hzero => ?_⟩
  have hmeets : RunMeets step (fun _ a => a.typeZero) start as := runMeets_of_forall as start hzero
  exact (run_invariant (I := InOrder) (fun _ _ _ h => step_inOrder h) as _ s start_inOrder hmeets hrun).order

/-- One process waits and is handed the first message; the second one is queued, and taken by another process before the
first has been copied out. -/
theorem messages_conserved_handOff :
    ∃ s, run step (start : State (Fin 3) Nat)
        [.msgrcv 0 true 8 0 false, .msgsnd 1 (some 7) 4 (some 10) false, .msgsnd 1 (some 5) 4 (some 11) false,
          .msgrcv 2 true 8 0 false] = some s ∧
      s.stage 0 = .handed ⟨7, 4, 10⟩ 8 ∧ s.returned = [⟨5, 4, 11⟩] ∧
      (s.accepted : Multiset (Msg Nat)) = s.que.message + ∑ t, (s.stage t).held + s.returned ∧
      s.que.sumMsg = s.que.message.length ∧ (s.que.message.length : Int) ≤ s.que.maxMsg ∧
      s.accepted = s.left ++ s.que.message := by
  refine exists_run (P := fun s => s.stage 0 = .handed ⟨7, 4, 10⟩ 8 ∧ s.returned = [⟨5, 4, 11⟩]) (by decide +kernel)
    fun s hrun hs => ?_
  obtain ⟨hconserved, hcounted, hbounded, horder⟩ := messages_conserved _ s hrun
  refine ⟨hs.1, hs.2, hconserved, hcounted, hbounded, horder ?_⟩
  simp [Act.typeZero]

end Armv8Os.Ipc
