/-
  `common/list.c`: `add_to_queue` and `fetch_from_queue`, the lock-free stack below the page allocator.

  1. **Program** — each call is its single atomic steps: it reads the head, reads or writes `node->next`, and tries to
     swap the head.  The swap compares POINTERS.

  2. **Specification** — `live`: the nodes added and not yet fetched, from the history of the calls that took effect.

  3. **Crux** — `Inv`: the nodes reachable from the head are the live ones.  A fetch keeps that if the link it has saved
     is still the node's link when its swap succeeds.

  NOTE: that can fail.  Another CPU may fetch the node and the one below it and add the node again; then the head is the
  same pointer, the swap succeeds, and it installs a node that its holder still uses (`fetch_stale`).
-/
import Armv8Os.Lib.Chain
import Armv8Os.Lib.Transition

set_option linter.unusedSectionVars false

namespace Armv8Os.Queue

open Transition List Option
open Function (update update_of_ne update_self)

variable {C ν : Type*} [DecidableEq C] [DecidableEq ν]

/-! ## The program -/

/-- Where a CPU is in a call. -/
inductive Pc (ν : Type*) where
  | idle
  | addRead (node : ν)
  | addLink (node : ν) (head : Option ν)
  | addSwap (node : ν)
  | fetchRead
  | fetchNext (node : ν)
  | fetchSwap (node : ν) (next : Option ν)
  deriving DecidableEq

/-- The calls that took effect. -/
inductive Event (ν : Type*) where
  | added (node : ν)
  | fetched (node : ν)
  deriving DecidableEq

/-- The head, the links and the CPUs.  `owner` is the caller that last fetched a node and may add it, and `history` is
newest first. -/
structure State (C ν : Type*) where
  head : Option ν
  next : ν → Option ν
  pc : C → Pc ν
  owner : ν → Option C
  history : List (Event ν)

inductive Act (C ν : Type*) where
  | add (c : C) (node : ν)  -- the call
  | fetch (c : C)  -- the call
  | read (c : C)
  | link (c : C)
  | swap (c : C) (spurious : Bool)  -- the swap is a weak one
  | write (c : C) (node : ν) (v : Option ν)  -- a caller writes to a node that is its own
  deriving DecidableEq

def State.goto (s : State C ν) (c : C) (pc : Pc ν) : State C ν := { s with pc := update s.pc c pc }

/-- One atomic step. -/
def step (s : State C ν) : Act C ν → Option (State C ν)
  | .add c n => if s.pc c = .idle ∧ s.owner n = some c then some (s.goto c (.addRead n)) else none
  | .fetch c => if s.pc c = .idle then some (s.goto c .fetchRead) else none
  | .read c =>
    match s.pc c with
    | .addRead n => some (s.goto c (.addLink n s.head))
    | .fetchRead =>
      match s.head with
      | some n => some (s.goto c (.fetchNext n))
      | none => some (s.goto c .idle)  -- it returns NULL
    | .fetchNext n => some (s.goto c (.fetchSwap n (s.next n)))
    | _ => none
  | .link c =>
    match s.pc c with
    | .addLink n h => some { s.goto c (.addSwap n) with next := update s.next n h }
    | _ => none
  | .swap c spurious =>
    match s.pc c with
    | .addSwap n =>
      if s.head = s.next n ∧ spurious = false then
        some { s.goto c .idle with
          head := some n, owner := update s.owner n none, history := .added n :: s.history }
      else
        -- the expected value is `node->next`, so a failed swap writes there
        some { s.goto c (.addRead n) with next := update s.next n s.head }
    | .fetchSwap n next =>
      if s.head = some n ∧ spurious = false then
        some { s.goto c .idle with
          head := next, owner := update s.owner n (some c), history := .fetched n :: s.history }
      else some (s.goto c .fetchRead)
    | _ => none
  | .write c n v =>
    if s.pc c = .idle ∧ s.owner n = some c then some { s with next := update s.next n v } else none

/-- An empty stack: `owner` says who may add which node first, and `junk` is what the nodes hold. -/
def init (owner : ν → Option C) (junk : ν → Option ν) : State C ν :=
  { head := none, next := junk, pc := fun _ => .idle, owner := owner, history := [] }

/-! ## The specification -/

/-- The node has been added, and not fetched since. -/
def live : List (Event ν) → ν → Prop
  | [], _ => False
  | .added m :: es, n => m = n ∨ live es n
  | .fetched m :: es, n => m ≠ n ∧ live es n

/-- Between two fetches of a node there is an add of it. -/
def FetchedOnce (es : List (Event ν)) : Prop :=
  ∀ newer between older n, es = newer ++ .fetched n :: (between ++ .fetched n :: older) → .added n ∈ between

/-- What a fetch must find at its swap: the link it saved is still the link of the node. -/
def Pc.fresh (s : State C ν) : Pc ν → Prop
  | .fetchSwap n next => s.head = some n → next = s.next n
  | _ => True

/-- No step is a swap with an outdated link. -/
def Fresh (s : State C ν) : Act C ν → Prop
  | .swap c _ => (s.pc c).fresh s
  | _ => True

instance decidablePcFresh (s : State C ν) : ∀ pc, Decidable (Pc.fresh s pc)
  | .fetchSwap n next => inferInstanceAs (Decidable (s.head = some n → next = s.next n))
  | .idle => isTrue trivial
  | .addRead _ => isTrue trivial
  | .addLink _ _ => isTrue trivial
  | .addSwap _ => isTrue trivial
  | .fetchRead => isTrue trivial
  | .fetchNext _ => isTrue trivial

instance decidableFresh (s : State C ν) : ∀ a, Decidable (Fresh s a)
  | .swap c _ => inferInstanceAs (Decidable ((s.pc c).fresh s))
  | .add _ _ => isTrue trivial
  | .fetch _ => isTrue trivial
  | .read _ => isTrue trivial
  | .link _ => isTrue trivial
  | .write _ _ _ => isTrue trivial

/-! ## The invariant -/

/-- The node a CPU is about to add. -/
def Pc.adding : Pc ν → Option ν
  | .addRead n => some n
  | .addLink n _ => some n
  | .addSwap n => some n
  | _ => none

structure Inv (s : State C ν) (l : List ν) : Prop where
  chain : Chain s.next s.head l
  live : ∀ n, n ∈ l ↔ live s.history n
  owned : ∀ n c, s.owner n = some c → n ∉ l
  adding : ∀ c n, (s.pc c).adding = some n → s.owner n = some c
  once : FetchedOnce s.history

/-- A node that is live and was once fetched has been added since. -/
theorem added_of_live {between older : List (Event ν)} {n : ν} (h : live (between ++ .fetched n :: older) n) :
    .added n ∈ between := by
  induction between with
  | nil => exact absurd rfl h.1
  | cons e between ih =>
    cases e with
    | added m =>
      rcases h with rfl | h
      · exact mem_cons_self
      · exact mem_cons_of_mem _ (ih h)
    | fetched m => exact mem_cons_of_mem _ (ih h.2)

theorem FetchedOnce.added {es : List (Event ν)} (h : FetchedOnce es) (n : ν) : FetchedOnce (.added n :: es) := by
  intro newer between older m heq
  cases newer with
  | nil => cases heq
  | cons e newer => exact h newer between older m (cons.inj heq).2

theorem FetchedOnce.fetched {es : List (Event ν)} (h : FetchedOnce es) {n : ν} (hlive : Queue.live es n) :
    FetchedOnce (.fetched n :: es) := by
  intro newer between older m heq
  cases newer with
  | nil =>
    obtain ⟨hm, rfl⟩ := cons.inj heq
    obtain rfl := Event.fetched.inj hm
    exact added_of_live hlive
  | cons e newer => exact h newer between older m (cons.inj heq).2

section Steps

variable {s : State C ν} {l : List ν} {c : C} {n : ν}

/-- A CPU moves on: the stack is the same. -/
theorem Inv.goto (h : Inv s l) {pc : Pc ν} (hpc : ∀ n, pc.adding = some n → s.owner n = some c) : Inv (s.goto c pc) l := by
  refine ⟨h.chain, h.live, h.owned, fun c' n hn => ?_, h.once⟩
  change (update s.pc c pc c').adding = some n at hn
  rcases eq_or_ne c' c with rfl | hne
  · rw [update_self] at hn
    exact hpc n hn
  · rw [update_of_ne hne] at hn
    exact h.adding c' n hn

/-- A caller writes to a node of its own, which is not on the stack. -/
theorem Inv.write (h : Inv s l) (hown : s.owner n = some c) (v : Option ν) :
    Inv { s with next := update s.next n v } l :=
  ⟨h.chain.update (h.owned n c hown) v, h.live, h.owned, h.adding, h.once⟩

/-- The swap of `add_to_queue` succeeds. -/
theorem Inv.push (h : Inv s l) (hpc : s.pc c = .addSwap n) (hhead : s.head = s.next n) :
    Inv { s.goto c .idle with
      head := some n, owner := update s.owner n none, history := .added n :: s.history } (n :: l) := by
  have hown : s.owner n = some c := h.adding c n (by rw [hpc]; rfl)
  refine ⟨Chain.cons (hhead ▸ h.chain), fun m => ?_, fun m c' hm => ?_, fun c' m hm => ?_, h.once.added n⟩
  · rw [mem_cons, h.live m, eq_comm]
    rfl
  · change update s.owner n none m = some c' at hm
    rcases eq_or_ne m n with rfl | hne
    · rw [update_self] at hm
      cases hm
    · rw [update_of_ne hne] at hm
      rw [mem_cons, not_or]
      exact ⟨hne, h.owned m c' hm⟩
  · change (update s.pc c .idle c').adding = some m at hm
    show update s.owner n none m = some c'
    rcases eq_or_ne c' c with rfl | hne
    · rw [update_self] at hm
      cases hm
    · rw [update_of_ne hne] at hm
      have hown' := h.adding c' m hm
      rw [update_of_ne, hown']
      -- a node has one owner
      rintro rfl
      exact hne (some.inj (hown'.symm.trans hown))

/-- The swap of `fetch_from_queue` succeeds, with the link that the node has now. -/
theorem Inv.pop (h : Inv s l) (hhead : s.head = some n) :
    ∃ l', Inv { s.goto c .idle with
      head := s.next n, owner := update s.owner n (some c), history := .fetched n :: s.history } l' := by
  obtain ⟨l', rfl, hchain⟩ := Chain.pop (hhead ▸ h.chain)
  have hnew : n ∉ l' := (nodup_cons.mp h.chain.nodup).1
  refine ⟨l', hchain, fun m => ?_, fun m c' hm => ?_, fun c' m hm => ?_,
    h.once.fetched ((h.live n).mp mem_cons_self)⟩
  · show m ∈ l' ↔ n ≠ m ∧ Queue.live s.history m
    rw [← h.live m, mem_cons]
    constructor
    · intro hm
      refine ⟨?_, Or.inr hm⟩
      rintro rfl
      exact hnew hm
    · rintro ⟨hne, heq | hm⟩
      · exact absurd heq.symm hne
      · exact hm
  · change update s.owner n (some c) m = some c' at hm
    rcases eq_or_ne m n with rfl | hne
    · exact hnew
    · rw [update_of_ne hne] at hm
      exact fun hin => h.owned m c' hm (mem_cons_of_mem n hin)
  · change (update s.pc c .idle c').adding = some m at hm
    show update s.owner n (some c) m = some c'
    rcases eq_or_ne c' c with rfl | hne
    · rw [update_self] at hm
      cases hm
    · rw [update_of_ne hne] at hm
      have hown := h.adding c' m hm
      rw [update_of_ne, hown]
      rintro rfl
      exact h.owned m c' hown mem_cons_self

theorem step_inv {s' : State C ν} {a : Act C ν} (h : Inv s l) (hfresh : Fresh s a) (hstep : step s a = some s') :
    ∃ l', Inv s' l' := by
  cases a with
  | add c n =>
    obtain ⟨⟨-, hown⟩, rfl⟩ := of_guard hstep
    exact ⟨l, h.goto fun m hm => some.inj hm ▸ hown⟩
  | fetch c =>
    obtain ⟨-, rfl⟩ := of_guard hstep
    exact ⟨l, h.goto fun m hm => nomatch hm⟩
  | read c =>
    simp only [step] at hstep
    split at hstep
    next n hpc =>
      cases hstep
      exact ⟨l, h.goto fun m hm => some.inj hm ▸ h.adding c n (by rw [hpc]; rfl)⟩
    next hpc =>
      split at hstep
      all_goals
        cases hstep
        exact ⟨l, h.goto fun m hm => nomatch hm⟩
    next n hpc =>
      cases hstep
      exact ⟨l, h.goto fun m hm => nomatch hm⟩
    next => cases hstep
  | link c =>
    simp only [step] at hstep
    split at hstep
    next n o hpc =>
      cases hstep
      have hown : s.owner n = some c := h.adding c n (by rw [hpc]; rfl)
      have hmoved : Inv (s.goto c (.addSwap n)) l := h.goto fun m hm => some.inj hm ▸ hown
      exact ⟨l, hmoved.write hown o⟩
    next => cases hstep
  | swap c spurious =>
    simp only [step] at hstep
    split at hstep
    next n hpc =>
      have hown : s.owner n = some c := h.adding c n (by rw [hpc]; rfl)
      split at hstep
      next hok =>
        cases hstep
        exact ⟨n :: l, h.push hpc hok.1⟩
      next =>
        cases hstep
        have hmoved : Inv (s.goto c (.addRead n)) l := h.goto fun m hm => some.inj hm ▸ hown
        exact ⟨l, hmoved.write hown s.head⟩
    next n next hpc =>
      split at hstep
      next hok =>
        cases hstep
        change (s.pc c).fresh s at hfresh
        rw [hpc] at hfresh
        obtain rfl := hfresh hok.1
        exact h.pop hok.1
      next =>
        cases hstep
        exact ⟨l, h.goto fun m hm => nomatch hm⟩
    next => cases hstep
  | write c n v =>
    obtain ⟨⟨-, hown⟩, rfl⟩ := of_guard hstep
    exact ⟨l, h.write hown v⟩

end Steps

theorem init_inv (owner : ν → Option C) (junk : ν → Option ν) : Inv (init owner junk) [] := by
  refine ⟨Chain.nil, fun n => ?_, fun n c _ => not_mem_nil, fun c n hn => (nomatch hn), ?_⟩
  · exact ⟨fun hn => absurd hn not_mem_nil, fun hn => False.elim hn⟩
  · intro newer between older n heq
    exact absurd heq.symm (append_ne_nil_of_right_ne_nil _ (cons_ne_nil _ _))

/-! ## The stack -/

/-- **The stack**, as long as every successful swap of a fetch installs the link that its node has at that moment: no node
is fetched twice without an add in between, and the stack is what was added and not fetched. -/
theorem stack_safe (owner : ν → Option C) (junk : ν → Option ν) (as : List (Act C ν)) (s : State C ν)
    (hfresh : RunMeets step Fresh (init owner junk) as) (hrun : run step (init owner junk) as = some s) :
    FetchedOnce s.history ∧ ∀ n, Reaches s.next s.head n ↔ live s.history n := by
  obtain ⟨l, h⟩ := run_invariant (I := fun s : State C ν => ∃ l, Inv s l)
    (fun s a s' ⟨l, h⟩ hfresh hstep => step_inv h hfresh hstep) as _ s ⟨[], init_inv owner junk⟩ hfresh hrun
  refine ⟨h.once, fun n => ?_⟩
  rw [h.chain.reaches_iff]
  exact h.live n

/-- An add and a fetch without a pause. -/
def addNow (c : C) (n : ν) : List (Act C ν) := [.add c n, .read c, .link c, .swap c false]

def fetchNow (c : C) : List (Act C ν) := [.fetch c, .read c, .read c, .swap c false]

/-- One CPU fetches a node between another one's read and swap: that swap fails, and its fetch gets the next node. -/
theorem stack_safe_contended :
    ∃ s, run step (init (fun _ : Bool => some true) fun _ => none)
        (addNow true true ++ addNow true false ++ [.fetch false, .read false, .read false] ++ fetchNow true ++
          [.swap false false, .read false, .read false, .swap false false]) = some s ∧
      s.history = [.fetched true, .fetched false, .added false, .added true] ∧
      FetchedOnce s.history ∧ ∀ n, Reaches s.next s.head n ↔ live s.history n := by
  refine exists_run (P := fun s => s.history = [.fetched true, .fetched false, .added false, .added true]) (by decide +kernel)
    fun s hrun hhistory => ?_
  exact ⟨hhistory, stack_safe _ _ _ s (by decide +kernel) hrun⟩

/-- A stale swap: between a CPU's read of `node->next` and its swap, the other one fetches both nodes and adds the first
one again.  The second node is then on the stack while its holder still has it, and it is fetched again. -/
theorem fetch_stale :
    ∃ s, run step (init (fun _ : Bool => some true) fun _ => none)
        (addNow true true ++ addNow true false ++ [.fetch false, .read false, .read false] ++ fetchNow true ++
          fetchNow true ++ addNow true false ++ [.swap false false]) = some s ∧
      Reaches s.next s.head true ∧ ¬ live s.history true ∧
      ∃ t, run step s (fetchNow false) = some t ∧ ¬ FetchedOnce t.history := by
  have hview : (run step (init (fun _ : Bool => some true) fun _ => none)
        (addNow true true ++ addNow true false ++ [.fetch false, .read false, .read false] ++ fetchNow true ++
          fetchNow true ++ addNow true false ++ [.swap false false])).map
        (fun s => (s.head, s.history, (run step s (fetchNow false)).map (·.history))) =
      some (some true, [.fetched false, .added false, .fetched true, .fetched false, .added false, .added true],
        some [.fetched true, .fetched false, .added false, .fetched true, .fetched false, .added false,
          .added true]) := by decide +kernel
  obtain ⟨s, hrun, hs⟩ := map_eq_some_iff.mp hview
  simp only [Prod.mk.injEq] at hs
  obtain ⟨hhead, hhistory, ht⟩ := hs
  obtain ⟨t, hfetch, hagain⟩ := map_eq_some_iff.mp ht
  refine ⟨s, hrun, hhead ▸ Reaches.here true, ?_, t, hfetch, fun honce => ?_⟩
  · rw [hhistory]
    simp [live]
  · have hadded := honce [] [.fetched false, .added false] [.fetched false, .added false, .added true] true hagain
    simp at hadded

end Armv8Os.Queue
