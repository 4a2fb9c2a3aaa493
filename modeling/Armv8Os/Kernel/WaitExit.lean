/-
  The books of `wait` and `exit`: tokens on `childexit` against exited children.

  `exit` posts the parent's `childexit` BEFORE the process is ZOMBIE, hands its own children to the root
  processes of their containers and posts once more for those that are dead already; `wait` takes a
  token without any lock and looks for a zombie only later.  The invariant is one equation per
  process that is not itself exiting (`Balanced`):

      value + (1 if its `wait` has done `--val` and not yet reaped) = number of its exited children.

  A waiter that sleeps has taken its token on credit: the value is -1 then, and no child has exited.

  1. `Balanced.post`: a post moves the equation by one, also when it wakes the sleeper.
  2. The tree and the locks (`Inv`): whoever receives children or a post is alive, and a child that has
     posted is ZOMBIE as soon as both locks are free.
  3. `wait_exit_accounting`: every reachable state is balanced, and a `wait` that has a token reaps.
  4. `exit_completes`: `exit` does not get stuck.
-/
import Armv8Os.Kernel.Proc

set_option linter.unusedSectionVars false

namespace Armv8Os.Proc

open Sem Transition List Option
open Function (update update_apply update_eq_self update_of_ne update_self)

variable {P K : Type} [DecidableEq P] [DecidableEq K]

/-! ## Where a process is -/

/-- Not on its way out: it may be given children and tokens. -/
def Pc.live : Pc → Bool
  | .created | .run | .checked | .asleep | .got => true
  | _ => false

/-- Past the post in `exit`. -/
def Pc.exited : Pc → Bool
  | .posted | .switching | .zombie => true
  | _ => false

/-- There is a `struct proc`. -/
def Pc.present : Pc → Bool
  | .absent | .reaped => false
  | _ => true

/-- `start_proc` has been called. -/
def Pc.started : Pc → Bool
  | .absent | .created | .reaped => false
  | _ => true

/-- Calls of `wait` past `--val`. -/
def Pc.waiting : Pc → Nat
  | .asleep | .got => 1
  | _ => 0

/-- After a post on its own `childexit`. -/
def Pc.woke : Pc → Pc
  | .asleep => .got
  | c => c

theorem Pc.woke_keeps (c : Pc) : c.woke.live = c.live ∧ c.woke.exited = c.exited ∧
    c.woke.present = c.present ∧ c.woke.started = c.started ∧ c.woke.waiting = c.waiting := by
  cases c <;> exact ⟨rfl, rfl, rfl, rfl, rfl⟩

variable {c c₀ : Pc}

theorem Pc.present_of_live (h : c.live = true) : c.present = true := by
  cases c <;> first | rfl | cases h

/-! ## The equation -/

/-- The semaphore of the process `p` at `c`, with `n` exited children. -/
structure Balanced (c : Pc) (p : P) (sem : Semaphore P) (n : Nat) : Prop where
  list : sem.sleeplist = if c = .asleep then [p] else []
  counts : CountsSleepers sem
  books : sem.val + c.waiting = n

variable {p : P} {sem : Semaphore P} {n : Nat}

/-- The value is -1 while the process sleeps, and never negative otherwise. -/
theorem Balanced.val (h : Balanced c p sem n) :
    if c = .asleep then sem.val = -1 else 0 ≤ sem.val := by
  have hcounts := h.counts
  unfold CountsSleepers at hcounts
  rw [h.list] at hcounts
  split
  · rename_i hc
    rw [if_pos hc, length_singleton] at hcounts
    omega
  · rename_i hc
    rw [if_neg hc, length_nil] at hcounts
    omega

/-- A post for one more exited child; it wakes the process if it sleeps. -/
theorem Balanced.post (h : Balanced c p sem n) :
    ∃ sem', postSem sem = some (if c = .asleep then some p else none, sem') ∧
      Balanced c.woke p sem' (n + 1) := by
  have hval := h.val
  have hbooks := h.books
  have hlist := h.list
  by_cases hc : c = .asleep
  · subst hc
    rw [if_pos rfl] at hval hlist ⊢
    refine ⟨{ val := 0, sleeplist := [] }, ?_, rfl, rfl, ?_⟩
    · simp [postSem, hval, hlist]
    · show (0 : Int) + (1 : Nat) = ((n + 1 : Nat) : Int)
      have : (Pc.waiting .asleep : Int) = 1 := rfl
      omega
  · rw [if_neg hc] at hval hlist ⊢
    have hwoke : c.woke = c := by cases c <;> first | rfl | exact absurd rfl hc
    refine ⟨_, postSem_of_nonneg hval, ?_, ?_, ?_⟩
    · rw [hwoke, if_neg hc]
      exact hlist
    · show sem.sleeplist.length = (-(sem.val + 1)).toNat
      rw [hlist, length_nil]
      omega
    · rw [hwoke]
      show sem.val + 1 + _ = ((n + 1 : Nat) : Int)
      omega

/-- `wait_sem` by a process that is not asleep. -/
theorem Balanced.waitSem (h : Balanced .checked p sem n) :
    Balanced (if (Sem.waitSem sem p).1 then .got else .asleep) p (Sem.waitSem sem p).2 n := by
  have hval := h.val
  have hbooks := h.books
  have hlist := h.list
  rw [if_neg (by decide)] at hval hlist
  replace hbooks : sem.val + (0 : Nat) = n := hbooks
  rcases lt_or_ge 0 sem.val with hpos | hpos
  · rw [waitSem_of_pos hpos]
    refine ⟨hlist, ?_, ?_⟩
    · show sem.sleeplist.length = (-(sem.val - 1)).toNat
      rw [hlist, length_nil]
      omega
    · show sem.val - 1 + (1 : Nat) = (n : Int)
      omega
  · rw [waitSem_of_nonpos hpos, hlist]
    refine ⟨rfl, ?_, ?_⟩
    · show 1 = (-(sem.val - 1)).toNat
      omega
    · show sem.val - 1 + (1 : Nat) = (n : Int)
      omega

/-! ## The invariant -/

/-- The exited children of a process. -/
def State.exitedChildren (s : State P K) (p : P) : Nat := (s.children p).countP fun c => (s.pc c).exited

/-- The tree and the containers.  Only the root process of a container can be its own parent. -/
structure Tree (root : P) (rc : K) (s : State P K) : Prop where
  linked : ∀ c q, c ∈ s.children q ↔ s.parent c = some q ∧ c ≠ root
  nodup : ∀ q, (s.children q).Nodup
  parents : ∀ q, s.children q ≠ [] → (s.pc q).live = true ∨ s.pc q = .exiting
  gone : ∀ p, (s.pc p).present = false → s.parent p = none
  attached : ∀ p, (s.pc p).started = true → s.parent p ≠ none
  self : ∀ p k, s.parent p = some p → s.containers (s.container p) = some k → p = k.rootproc
  base : ∃ k, s.containers rc = some k ∧ k.rootproc = root
  boot : (s.pc root).started = true
  homes : ∀ p, (s.pc p).present = true → s.containers (s.container p) ≠ none
  roots : ∀ k C, s.containers k = some C → s.container C.rootproc = k ∧ (s.pc C.rootproc).live = true
  named : ∀ p, (s.pc p).started = true → s.localpid p ≠ 0
  reaped : s.reaped.Nodup ∧ ∀ p ∈ s.reaped, s.pc p = .reaped

/-- Who has the locks. -/
structure Locks (s : State P K) : Prop where
  plock : ∀ p, s.plock = some p ↔ s.pc p = .exiting ∨ s.pc p = .posted
  schlock : ∀ p, s.schlock = some p ↔ s.pc p = .switching

/-- Every process that is not exiting is balanced. -/
def Books (s : State P K) : Prop :=
  ∀ p, (s.pc p).live = true → Balanced (s.pc p) p (s.childexit p) (s.exitedChildren p)

structure Inv (root : P) (rc : K) (s : State P K) : Prop where
  tree : Tree root rc s
  locks : Locks s
  books : Books s

variable {s s' : State P K}

/-- The count only looks at which children have exited. -/
theorem exitedChildren_congr (hchildren : s'.children p = s.children p)
    (hexited : ∀ c ∈ s.children p, (s'.pc c).exited = (s.pc c).exited) :
    s'.exitedChildren p = s.exitedChildren p := by
  unfold State.exitedChildren
  rw [hchildren]
  exact countP_congr fun c hc => by rw [hexited c hc]

variable {root : P} {rc : K}

/-- The root process of the root container is alive. -/
theorem Tree.root_live (h : Tree root rc s) :
    (s.pc root).live = true := by
  obtain ⟨k, hk, rfl⟩ := h.base
  exact (h.roots rc k hk).2

/-- Containers that are the same up to their pids. -/
theorem rootproc_eq (hroots : ∀ k, (s'.containers k).map (·.rootproc) = (s.containers k).map (·.rootproc)) {k : K}
    {D : Container P K} (hD : s'.containers k = some D) : ∃ E, s.containers k = some E ∧ E.rootproc = D.rootproc := by
  have hmap := hroots k
  rw [hD] at hmap
  exact map_eq_some_iff.mp hmap.symm

/-- A process moves on, and may get its name on the way. -/
theorem Tree.moves (h : Tree root rc s) (hpc : s'.pc = update s.pc p c)
    (hsame : s'.children = s.children ∧ s'.parent = s.parent ∧ s'.container = s.container ∧ s'.reaped = s.reaped)
    (hroots : ∀ k, (s'.containers k).map (·.rootproc) = (s.containers k).map (·.rootproc))
    (hlocal : ∀ q, q ≠ p → s'.localpid q = s.localpid q) (hnamed : c.started = true → s'.localpid p ≠ 0)
    (hpresent : c.present = (s.pc p).present) (hstarted : c.started = true → s.parent p ≠ none)
    (hboot : (s.pc p).started = true → c.started = true) (hfree : (s.pc p).live = true → c.live = true ∨
      c = .exiting ∧ ∀ k C, s.containers k = some C → C.rootproc ≠ p)
    (hparents : s.children p ≠ [] → c.live = true ∨ c = .exiting) (hreaped : s.pc p ≠ .reaped) : Tree root rc s' := by
  obtain ⟨hch, hpar, hcon, hreap⟩ := hsame
  have hself : s'.pc p = c := by rw [hpc, update_self]
  have hother : ∀ q, q ≠ p → s'.pc q = s.pc q := fun q hq => by rw [hpc, update_of_ne hq]
  have hkept : ∀ q, (s'.pc q).present = (s.pc q).present := by
    intro q
    rcases eq_or_ne q p with rfl | hq
    · rw [hself, hpresent]
    · rw [hother q hq]
  have hroots' := fun k => (hroots k).symm
  refine ⟨?_, ?_, ?_, ?_, ?_, ?_, ?_, ?_, ?_, ?_, ?_, ?_⟩
  · rw [hch, hpar]; exact h.linked
  · rw [hch]; exact h.nodup
  · intro q hq
    rw [hch] at hq
    rcases eq_or_ne q p with rfl | hne
    · rw [hself]
      exact hparents hq
    · rw [hother q hne]
      exact h.parents q hq
  · intro q hq
    rw [hpar]
    exact h.gone q (hkept q ▸ hq)
  · intro q hq
    rw [hpar]
    rcases eq_or_ne q p with rfl | hne
    · exact hstarted (hself ▸ hq)
    · exact h.attached q (hother q hne ▸ hq)
  · intro q D hq hD
    rw [hpar] at hq
    rw [hcon] at hD
    obtain ⟨E, hE, heq⟩ := rootproc_eq hroots hD
    rw [← heq]
    exact h.self q E hq hE
  · obtain ⟨E, hE, hroot⟩ := h.base
    obtain ⟨D, hD, heq⟩ := rootproc_eq hroots' hE
    exact ⟨D, hD, heq.trans hroot⟩
  · rcases eq_or_ne root p with rfl | hne
    · rw [hself]
      exact hboot h.boot
    · rw [hother root hne]
      exact h.boot
  · intro q hq
    obtain ⟨E, hE⟩ := ne_none_iff_exists'.mp (h.homes q (hkept q ▸ hq))
    obtain ⟨D, hD, -⟩ := rootproc_eq hroots' hE
    rw [hcon, hD]
    exact some_ne_none D
  · intro k D hD
    obtain ⟨E, hE, heq⟩ := rootproc_eq hroots hD
    obtain ⟨hk, hlive⟩ := h.roots k E hE
    rw [← heq, hcon]
    refine ⟨hk, ?_⟩
    rcases eq_or_ne E.rootproc p with heq | hne
    · rw [heq] at hlive ⊢
      rw [hself]
      exact (hfree hlive).resolve_right fun hno => hno.2 k E hE heq
    · rwa [hother _ hne]
  · intro q hq
    rcases eq_or_ne q p with rfl | hne
    · exact hnamed (hself ▸ hq)
    · rw [hlocal q hne]
      exact h.named q (hother q hne ▸ hq)
  · rw [hreap]
    refine ⟨h.reaped.1, fun q hq => ?_⟩
    have hqr := h.reaped.2 q hq
    rw [hother q (by rintro rfl; exact hreaped hqr)]
    exact hqr

/-- A process moves on in its own code. -/
theorem Tree.moved (h : Tree root rc s) (hp : s.pc p = c₀) (hpc : s'.pc = update s.pc p c)
    (hsame : s'.children = s.children ∧ s'.parent = s.parent ∧ s'.container = s.container ∧
      s'.containers = s.containers ∧ s'.localpid = s.localpid ∧ s'.reaped = s.reaped)
    (hpresent : c.present = c₀.present) (hstarted : c.started = c₀.started)
    (hfree : c₀.live = true → c.live = true ∨
      c = .exiting ∧ ∀ k C, s.containers k = some C → C.rootproc ≠ p)
    (hparents : s.children p ≠ [] → c.live = true ∨ c = .exiting) (hreaped : c₀ ≠ .reaped) :
    Tree root rc s' := by
  subst hp
  obtain ⟨hch, hpar, hcon, hcons, hloc, hreap⟩ := hsame
  refine h.moves hpc ⟨hch, hpar, hcon, hreap⟩ (fun k => by rw [hcons]) (fun q _ => by rw [hloc]) ?_ hpresent ?_
    hstarted.trans hfree hparents hreaped
  · rw [hloc, hstarted]
    exact h.named p
  · rw [hstarted]
    exact h.attached p

/-- The locks after a process has moved: it has those of its new place, and the others have what they had. -/
theorem Locks.moves (h : Locks s) (hpc : s'.pc = update s.pc p c)
    (hplock : ∀ q, s'.plock = some q ↔ if q = p then c = .exiting ∨ c = .posted else s.plock = some q)
    (hschlock : ∀ q, s'.schlock = some q ↔ if q = p then c = .switching else s.schlock = some q) : Locks s' := by
  constructor
  · intro q
    rw [hplock, hpc]
    split
    next heq => rw [heq, update_self]
    next hne => rw [update_of_ne hne, h.plock]
  · intro q
    rw [hschlock, hpc]
    split
    next heq => rw [heq, update_self]
    next hne => rw [update_of_ne hne, h.schlock]

/-- A process moves and keeps the locks it has. -/
theorem Locks.moved (h : Locks s) (hp : s.pc p = c₀) (hpc : s'.pc = update s.pc p c)
    (hsame : s'.plock = s.plock ∧ s'.schlock = s.schlock)
    (hplock : c = .exiting ∨ c = .posted ↔ c₀ = .exiting ∨ c₀ = .posted)
    (hschlock : c = .switching ↔ c₀ = .switching) : Locks s' := by
  subst hp
  refine h.moves hpc (fun q => ?_) fun q => ?_
  · rw [hsame.1]
    split
    next heq => rw [heq, hplock, h.plock]
    next => rfl
  · rw [hsame.2]
    split
    next heq => rw [heq, hschlock, h.schlock]
    next => rfl

/-- The other processes' books do not change when a process moves on and no child of theirs exits. -/
theorem Books.moved (h : Books s) (hp : s.pc p = c₀) (hpc : s'.pc = update s.pc p c)
    (hchildren : s'.children = s.children) (hexited : c.exited = c₀.exited)
    (hsem : ∀ q, q ≠ p → s'.childexit q = s.childexit q)
    (hbooks : c.live = true → Balanced c p (s'.childexit p) (s.exitedChildren p)) : Books s' := by
  intro q hq
  have hcount : s'.exitedChildren q = s.exitedChildren q :=
    exitedChildren_congr (by rw [hchildren]) fun x _ => by
      rw [hpc]
      rcases eq_or_ne x p with rfl | hx
      · rw [update_self, hexited, hp]
      · rw [update_of_ne hx]
  rw [hcount]
  rw [hpc] at hq ⊢
  rcases eq_or_ne q p with rfl | hne
  · rw [update_self] at hq ⊢
    exact hbooks hq
  · rw [update_of_ne hne] at hq ⊢
    rw [hsem q hne]
    exact h q hq

/-! ## New processes -/

/-- A pid that `alloc_pid` gives out was free. -/
theorem allocPid_spec {used : List Nat} (h : (allocPid used).1 ≠ -1) :
    ∃ n : Nat, 0 < n ∧ n < pidMax ∧ n ∉ used ∧ allocPid used = ((n : Int), n :: used) := by
  unfold allocPid at h ⊢
  split
  · rename_i n hn
    have hmem := mem_range'_1.mp (mem_of_find?_eq_some hn)
    have hfree := find?_some hn
    exact ⟨n, by omega, by unfold pidMax at *; omega, by simpa using hfree, rfl⟩
  · rename_i hnone
    rw [hnone] at h
    exact absurd rfl h

theorem allocPid_ne_zero (used : List Nat) : (allocPid used).1 ≠ 0 := by
  by_cases hnone : (allocPid used).1 = -1
  · rw [hnone]
    decide
  · obtain ⟨n, hn, -, -, halloc⟩ := allocPid_spec hnone
    rw [halloc]
    exact Int.natCast_ne_zero.mpr hn.ne'

variable {q : P}

/-- A process that does not exist yet: nobody's parent, child or root process. -/
theorem Tree.absent (h : Tree root rc s) (hq : s.pc q = .absent) : s.parent q = none ∧ s.children q = [] ∧ q ≠ root ∧
      (∀ p, q ∉ s.children p) ∧ ∀ k C, s.containers k = some C → C.rootproc ≠ q := by
  have hnone : s.parent q = none := h.gone q (by rw [hq]; rfl)
  refine ⟨hnone, ?_, ?_, ?_, ?_⟩
  · by_contra hne
    rcases h.parents q hne with hl | he
    · rw [hq] at hl; cases hl
    · rw [hq] at he; cases he
  · rintro rfl
    have := h.root_live
    rw [hq] at this
    cases this
  · intro p hp
    have := ((h.linked q p).mp hp).1
    rw [hnone] at this
    cases this
  · rintro k C hC rfl
    have := (h.roots k C hC).2
    rw [hq] at this
    cases this

/-- `create_proc`. -/
theorem Inv.create (h : Inv root rc s) (hq : s.pc q = .absent) : Inv root rc (createProc rc s q) := by
  obtain ⟨hnone, hempty, hqroot, hchild, hrootproc⟩ := h.tree.absent hq
  have ht := h.tree
  have hchildren : (createProc rc s q).children = s.children := by
    show update s.children q [] = s.children
    rw [← hempty, update_eq_self]
  have hparent : (createProc rc s q).parent = s.parent := by
    show update s.parent q none = s.parent
    rw [← hnone, update_eq_self]
  have hself : (createProc rc s q).pc q = .created := update_self ..
  have hother : ∀ p, p ≠ q → (createProc rc s q).pc p = s.pc p := fun p hp =>
    update_of_ne hp ..
  have hcon : ∀ p, p ≠ q → (createProc rc s q).container p = s.container p := fun p hp =>
    update_of_ne hp ..
  have hcount : ∀ p, (createProc rc s q).exitedChildren p = s.exitedChildren p := fun p =>
    exitedChildren_congr (by rw [hchildren]) fun c hc => by
      rw [hother c (by rintro rfl; exact hchild p hc)]
  refine ⟨⟨?_, ?_, ?_, ?_, ?_, ?_, ht.base, ?_, ?_, ?_, ?_, ?_⟩,
    h.locks.moved hq rfl ⟨rfl, rfl⟩ (by decide) (by decide), ?_⟩
  · rw [hchildren, hparent]; exact ht.linked
  · rw [hchildren]; exact ht.nodup
  · intro p hp
    rw [hchildren] at hp
    rw [hother p (by rintro rfl; exact hp hempty)]
    exact ht.parents p hp
  · intro p hp
    rw [hparent]
    rcases eq_or_ne p q with rfl | hne
    · exact hnone
    · exact ht.gone p (hother p hne ▸ hp)
  · intro p hp
    rw [hparent]
    have hne : p ≠ q := by rintro rfl; rw [hself] at hp; cases hp
    exact ht.attached p (hother p hne ▸ hp)
  · intro p k hp hk
    rw [hparent] at hp
    have hne : p ≠ q := by rintro rfl; rw [hnone] at hp; cases hp
    rw [hcon p hne] at hk
    exact ht.self p k hp hk
  · rw [hother root hqroot.symm]; exact ht.boot
  · intro p hp
    rcases eq_or_ne p q with rfl | hne
    · obtain ⟨k, hk, -⟩ := ht.base
      show s.containers (update s.container p rc p) ≠ none
      rw [update_self, hk]
      simp
    · rw [hcon p hne]
      exact ht.homes p (hother p hne ▸ hp)
  · intro k C hC
    have hne := hrootproc k C hC
    rw [hcon _ hne, hother _ hne]
    exact ht.roots k C hC
  · intro p hp
    have hne : p ≠ q := by rintro rfl; rw [hself] at hp; cases hp
    show update s.localpid q 0 p ≠ 0
    rw [update_of_ne hne]
    exact ht.named p (hother p hne ▸ hp)
  · refine ⟨ht.reaped.1, fun p hp => ?_⟩
    have hpr := ht.reaped.2 p hp
    rw [hother p (by rintro rfl; rw [hq] at hpr; cases hpr)]
    exact hpr
  · intro p hp
    rw [hcount p]
    show Balanced _ p (update s.childexit q (initSem 0) p) _
    rcases eq_or_ne p q with rfl | hne
    · rw [hself, update_self, State.exitedChildren, hempty]
      exact ⟨rfl, rfl, rfl⟩
    · rw [update_of_ne hne, hother p hne]
      exact h.books p (hother p hne ▸ hp)

/-- A process is put under a live one, from under `p` or (when it has no parent) from nowhere. -/
theorem Tree.attach (h : Tree root rc s) {r c : P}
    {rest : List P} (hrest : ∀ x, x ∈ rest ↔ x ∈ s.children p ∧ x ≠ c) (hnodup : rest.Nodup)
    (hold : ∀ q, s.parent c = some q → q = p) (hc : c ≠ root) (hpresent : (s.pc c).present = true)
    (hr : (s.pc r).live = true) (hself : r = c → ∀ k, s.containers (s.container c) = some k → c = k.rootproc) :
    Tree root rc (attach { s with children := update s.children p rest } r c) := by
  have hpar : ∀ x, x ≠ c → (Proc.attach { s with children := update s.children p rest } r c).parent x
      = s.parent x := fun x hx => update_of_ne hx ..
  have hmem : ∀ x y, x ∈ (Proc.attach { s with children := update s.children p rest } r
      c).children y ↔ (y = r ∧ x = c) ∨ (x ∈ s.children y ∧ x ≠ c) := by
    intro x y
    have hmid : x ∈ update s.children p rest y ↔ x ∈ s.children y ∧ x ≠ c := by
      rcases eq_or_ne y p with rfl | hy
      · rw [update_self]
        exact hrest x
      · rw [update_of_ne hy]
        refine ⟨fun hx => ⟨hx, ?_⟩, And.left⟩
        rintro rfl
        exact hy (hold y ((h.linked x y).mp hx).1)
    show x ∈ update (update s.children p rest) r
      (c :: update s.children p rest r) y ↔ _
    rcases eq_or_ne y r with rfl | hy
    · rw [update_self, mem_cons, hmid]
      simp
    · rw [update_of_ne hy, hmid]
      simp [hy]
  refine ⟨?_, ?_, ?_, ?_, ?_, ?_, h.base, h.boot, h.homes, h.roots, h.named, h.reaped⟩
  · intro x y
    rw [hmem]
    show _ ↔ update s.parent c (some r) x = some y ∧ x ≠ root
    rcases eq_or_ne x c with rfl | hx
    · rw [update_self]
      simp [hc, eq_comm]
    · rw [update_of_ne hx, h.linked]
      simp [hx]
  · intro y
    have hmid : (update s.children p rest y).Nodup := by
      rcases eq_or_ne y p with rfl | hy
      · rwa [update_self]
      · rw [update_of_ne hy]
        exact h.nodup y
    show (update (update s.children p rest) r
      (c :: update s.children p rest r) y).Nodup
    rcases eq_or_ne y r with rfl | hy
    · rw [update_self]
      refine nodup_cons.mpr ⟨fun hcmem => ?_, hmid⟩
      rcases eq_or_ne y p with rfl | hyp
      · rw [update_self] at hcmem
        exact ((hrest c).mp hcmem).2 rfl
      · rw [update_of_ne hyp] at hcmem
        exact hyp (hold y ((h.linked c y).mp hcmem).1)
    · rwa [update_of_ne hy]
  · intro y hy
    obtain ⟨x, hx⟩ := exists_mem_of_ne_nil _ hy
    rcases (hmem x y).mp hx with ⟨rfl, -⟩ | ⟨hx, -⟩
    · exact .inl hr
    · exact h.parents y (ne_nil_of_mem hx)
  · intro x hx
    have hne : x ≠ c := by
      rintro rfl
      replace hx : (s.pc x).present = false := hx
      rw [hpresent] at hx
      cases hx
    rw [hpar x hne]
    exact h.gone x hx
  · intro x hx
    rcases eq_or_ne x c with rfl | hne
    · show update s.parent x (some r) x ≠ none
      rw [update_self]
      exact some_ne_none r
    · rw [hpar x hne]
      exact h.attached x hx
  · intro x k hx hk
    rcases eq_or_ne x c with rfl | hne
    · replace hx : update s.parent x (some r) x = some x := hx
      rw [update_self] at hx
      exact hself (some.inj hx) k hk
    · rw [hpar x hne] at hx
      exact h.self x k hx hk

/-- A created process without a parent becomes a child of a live one. -/
theorem Inv.adopt (h : Inv root rc s)
    (hnone : s.parent q = none) (hq : s.pc q = .created) (hp : (s.pc p).live = true) (hne : p ≠ q) :
    Inv root rc (attach s p q) := by
  have hqroot : q ≠ root := by
    rintro rfl
    exact h.tree.attached q h.tree.boot hnone
  have hout : ∀ y, q ∉ s.children y := fun y hy => by
    have := ((h.tree.linked q y).mp hy).1
    rw [hnone] at this
    cases this
  have hsame : ({ s with children := update s.children p (s.children p) } : State P K) = s := by
    rw [update_eq_self]
  have hrest : ∀ x, x ∈ s.children p ↔ x ∈ s.children p ∧ x ≠ q := fun x =>
    ⟨fun hx => ⟨hx, by rintro rfl; exact hout p hx⟩, And.left⟩
  have htree := h.tree.attach (r := p) hrest (h.tree.nodup p)
    (fun y hy => by rw [hnone] at hy; cases hy) hqroot (by rw [hq]; rfl) hp
    (fun heq => absurd heq hne)
  rw [hsame] at htree
  refine ⟨htree, ⟨h.locks.plock, h.locks.schlock⟩, fun x hx => ?_⟩
  -- the new child has not exited
  have hcount : (attach s p q).exitedChildren x = s.exitedChildren x := by
    show (update s.children p (q :: s.children p) x).countP _ = _
    rcases eq_or_ne x p with rfl | hxp
    · rw [update_self, countP_cons_of_neg (by show ¬ (s.pc q).exited = true; rw [hq]; decide)]
      rfl
    · rw [update_of_ne hxp]
      rfl
  rw [hcount]
  exact h.books x hx

/-- A created process that is no root process joins a container. -/
theorem Inv.join (h : Inv root rc s) {k : K} (hq : s.pc q = .created) (hk : s.containers k ≠ none)
    (hrootproc : ∀ k' C, s.containers k' = some C → C.rootproc ≠ q) (hself : s.parent q ≠ some q) :
    Inv root rc { s with container := update s.container q k } := by
  have ht := h.tree
  have hother : ∀ p, p ≠ q → update s.container q k p = s.container p := fun p hp =>
    update_of_ne hp ..
  refine ⟨⟨ht.linked, ht.nodup, ht.parents, ht.gone, ht.attached, ?_, ht.base, ht.boot, ?_, ?_,
    ht.named, ht.reaped⟩, ⟨h.locks.plock, h.locks.schlock⟩, h.books⟩
  · intro p C hp hC
    have hne : p ≠ q := by rintro rfl; exact hself hp
    replace hC : s.containers (update s.container q k p) = some C := hC
    rw [hother p hne] at hC
    exact ht.self p C hp hC
  · intro p hp
    show s.containers (update s.container q k p) ≠ none
    rcases eq_or_ne p q with rfl | hne
    · rwa [update_self]
    · rw [hother p hne]
      exact ht.homes p hp
  · intro k' C hC
    show update s.container q k C.rootproc = k' ∧ _
    rw [hother _ (hrootproc k' C hC)]
    exact ht.roots k' C hC

variable {C : Container P K}

/-- A new container around a created process. -/
theorem Inv.newContainer (h : Inv root rc s) {k : K}
    (hq : s.pc q = .created) (hk : s.containers k = none) (hC : C.rootproc = q)
    (hrootproc : ∀ k' C, s.containers k' = some C → C.rootproc ≠ q) (hself : s.parent q ≠ some q) :
    Inv root rc { s with
      containers := update s.containers k (some C)
      container := update s.container q k } := by
  have ht := h.tree
  have hother : ∀ p, p ≠ q → update s.container q k p = s.container p := fun p hp =>
    update_of_ne hp ..
  -- nobody else is in the new container
  have hold : ∀ p, (s.pc p).present = true → s.container p ≠ k := by
    rintro p hp rfl
    exact ht.homes p hp hk
  have hpresent : ∀ p, s.parent p = some p → (s.pc p).present = true := by
    intro p hp
    by_contra hgone
    rw [ht.gone p (by simpa using hgone)] at hp
    cases hp
  refine ⟨⟨ht.linked, ht.nodup, ht.parents, ht.gone, ht.attached, ?_, ?_, ht.boot, ?_, ?_,
    ht.named, ht.reaped⟩, ⟨h.locks.plock, h.locks.schlock⟩, h.books⟩
  · intro p D hp hD
    have hne : p ≠ q := by rintro rfl; exact hself hp
    replace hD : update s.containers k (some C) (update s.container q k p) = some D := hD
    rw [hother p hne, update_of_ne (hold p (hpresent p hp))] at hD
    exact ht.self p D hp hD
  · obtain ⟨D, hD, hroot⟩ := ht.base
    refine ⟨D, ?_, hroot⟩
    show update s.containers k (some C) rc = some D
    rw [update_of_ne, hD]
    rintro rfl
    rw [hk] at hD
    cases hD
  · intro p hp
    show update s.containers k (some C) (update s.container q k p) ≠ none
    rcases eq_or_ne p q with rfl | hne
    · rw [update_self, update_self]
      exact some_ne_none C
    · rw [hother p hne, update_of_ne (hold p hp)]
      exact ht.homes p hp
  · intro k' D hD
    replace hD : update s.containers k (some C) k' = some D := hD
    show update s.container q k D.rootproc = k' ∧ (s.pc D.rootproc).live = true
    rcases eq_or_ne k' k with rfl | hne
    · rw [update_self, some.injEq] at hD
      rw [← hD, hC, update_self, hq]
      exact ⟨rfl, rfl⟩
    · rw [update_of_ne hne] at hD
      rw [hother _ (hrootproc k' D hD)]
      exact ht.roots k' D hD

/-- `start_proc` on a process that has its parent. -/
theorem Inv.start (h : Inv root rc s) (hq : s.pc q = .created) (hparent : s.parent q ≠ none)
    (hC : s.containers (s.container q) = some C) {n : Int} {map : List Nat} (hn : n ≠ 0) :
    Inv root rc { s with
      localpid := update s.localpid q n
      containers := update s.containers (s.container q) (some { C with localpidmap := map })
      pc := update s.pc q .run } := by
  refine ⟨h.tree.moves (p := q) rfl ⟨rfl, rfl, rfl, rfl⟩ ?_ (fun p hp => update_of_ne hp ..) (fun _ => ?_) (by rw [hq]; rfl)
    (fun _ => hparent) (fun _ => rfl) (fun _ => .inl rfl) (fun _ => .inl rfl) (by rw [hq]; decide),
    h.locks.moved hq rfl ⟨rfl, rfl⟩ (by decide) (by decide),
    h.books.moved hq rfl rfl rfl (fun _ _ => rfl) fun _ => ?_⟩
  · -- the containers are the same up to their pids
    intro k
    rcases eq_or_ne k (s.container q) with rfl | hne
    · exact (congrArg _ (update_self ..)).trans (by rw [hC]; rfl)
    · exact congrArg _ (update_of_ne hne ..)
  · show update s.localpid q n q ≠ 0
    rwa [update_self]
  · have hq' := h.books q (by rw [hq]; rfl)
    rw [hq] at hq'
    exact ⟨hq'.list, hq'.counts, hq'.books⟩

/-! ## Posts -/

/-- `post_sem` on the `childexit` of a balanced process. -/
theorem postChildexit_spec (hb : Balanced (s.pc p) p (s.childexit p) n) :
    ∃ sem, postChildexit s p = some ((s.setSem p sem).setPc p (s.pc p).woke) ∧
      Balanced (s.pc p).woke p sem (n + 1) := by
  obtain ⟨sem, hpost, hb'⟩ := hb.post
  refine ⟨sem, ?_, hb'⟩
  unfold postChildexit
  rw [hpost, map_some]
  by_cases hc : s.pc p = .asleep
  · rw [if_pos hc, hc]
    rfl
  · have hwoke : (s.pc p).woke = s.pc p := by
      cases hpc : s.pc p <;> first | rfl | exact absurd hpc hc
    rw [if_neg hc, hwoke]
    show some (s.setSem p sem) = some { s.setSem p sem with pc := update s.pc p (s.pc p) }
    rw [update_eq_self]
    rfl

/-- The tree does not notice a post to a live process. -/
theorem Tree.post (h : Tree root rc s) (hp : (s.pc p).live = true) (sem : Semaphore P) :
    Tree root rc ((s.setSem p sem).setPc p (s.pc p).woke) := by
  obtain ⟨hlive, -, hpresent, hstarted, -⟩ := (s.pc p).woke_keeps
  refine h.moved (p := p) rfl rfl ⟨rfl, rfl, rfl, rfl, rfl, rfl⟩ hpresent hstarted
    (fun _ => .inl (hlive.trans hp)) (fun _ => .inl (hlive.trans hp)) ?_
  intro hreaped
  rw [hreaped] at hp
  cases hp

/-- Neither do the locks. -/
theorem Locks.post (h : Locks s) (sem : Semaphore P) : Locks ((s.setSem p sem).setPc p (s.pc p).woke) :=
  h.moved (p := p) rfl rfl ⟨rfl, rfl⟩ (by cases s.pc p <;> decide) (by cases s.pc p <;> decide)

/-- A post settles the books of a process that has one exited child more than it knows of. -/
theorem Books.post (hothers : ∀ q, q ≠ p → (s.pc q).live = true →
      Balanced (s.pc q) q (s.childexit q) (s.exitedChildren q))
    (hself : Balanced (s.pc p).woke p sem (s.exitedChildren p)) :
    Books ((s.setSem p sem).setPc p (s.pc p).woke) := by
  intro q hq
  have hcount : ((s.setSem p sem).setPc p (s.pc p).woke).exitedChildren q = s.exitedChildren q :=
    exitedChildren_congr rfl fun x _ => by
      show (update s.pc p (s.pc p).woke x).exited = (s.pc x).exited
      rcases eq_or_ne x p with rfl | hx
      · rw [update_self, (s.pc x).woke_keeps.2.1]
      · rw [update_of_ne hx]
  rw [hcount]
  replace hq : (update s.pc p (s.pc p).woke q).live = true := hq
  show Balanced (update s.pc p (s.pc p).woke q) q (update s.childexit p sem q) _
  rcases eq_or_ne q p with rfl | hne
  · rw [update_self, update_self]
    exact hself
  · rw [update_of_ne hne] at hq
    rw [update_of_ne hne, update_of_ne hne]
    exact hothers q hne hq

/-! ## `exit` -/

/-- A child exists. -/
theorem Tree.child_present (h : Tree root rc s) {c : P} (hc : c ∈ s.children q) : (s.pc c).present = true := by
  by_contra hgone
  have := ((h.linked c q).mp hc).1
  rw [h.gone c (by simpa using hgone)] at this
  cases this

/-- A process that exits is not its own child. -/
theorem Tree.not_own_child (h : Tree root rc s) (hp : s.pc p = .exiting) : p ∉ s.children p := by
  intro hmem
  obtain ⟨k, hk⟩ := ne_none_iff_exists'.mp (h.homes p (by rw [hp]; rfl))
  have hroot := h.self p k ((h.linked p p).mp hmem).1 hk
  have hlive := (h.roots _ k hk).2
  rw [← hroot, hp] at hlive
  cases hlive

/-- Under `plock` and `schlock`, a child that has exited is ZOMBIE. -/
theorem Inv.zombie_of_exited (h : Inv root rc s) {c : P}
    (hplock : s.plock ≠ some c) (hschlock : s.schlock = none) (hc : (s.pc c).exited = true) :
    s.pc c = .zombie := by
  cases hpc : s.pc c with
  | posted => exact absurd ((h.locks.plock c).mpr (.inr hpc)) hplock
  | switching =>
    have := (h.locks.schlock c).mpr hpc
    rw [hschlock] at this
    cases this
  | zombie => rfl
  | absent | created | run | checked | asleep | got | exiting | reaped => rw [hpc] at hc; cases hc

/-- One round of the loop: it does not fail, and everything stays in order. -/
theorem Inv.handOver (h : Inv root rc s) (hp : s.pc p = .exiting) (hsch : s.schlock = none) (hne : s.children p ≠ []) :
    ∃ s', handOver s p = some s' ∧ Inv root rc s' := by
  obtain ⟨c, rest, hlist⟩ := exists_cons_of_ne_nil hne
  have hmem : c ∈ s.children p := by rw [hlist]; exact mem_cons_self
  obtain ⟨hparent, hcroot⟩ := (h.tree.linked c p).mp hmem
  have hpresent := h.tree.child_present hmem
  obtain ⟨k, hk⟩ := ne_none_iff_exists'.mp (h.tree.homes c hpresent)
  have hrlive := (h.tree.roots _ k hk).2
  have hrp : k.rootproc ≠ p := by
    rintro rfl
    rw [hp] at hrlive
    cases hrlive
  have hnodup := h.tree.nodup p
  rw [hlist, nodup_cons] at hnodup
  have hrest : ∀ x, x ∈ rest ↔ x ∈ s.children p ∧ x ≠ c := by
    intro x
    rw [hlist, mem_cons]
    refine ⟨fun hx => ⟨.inr hx, by rintro rfl; exact hnodup.1 hx⟩, fun hx => hx.1.resolve_left hx.2⟩
  have htree := h.tree.attach (r := k.rootproc) hrest hnodup.2
    (fun q hq => some.inj (hq.symm.trans hparent)) hcroot hpresent hrlive
    (fun heq k' hk' => by rw [hk, some.injEq] at hk'; rw [← hk']; exact heq.symm)
  -- the root process has the child on top of its own, nobody else gets one
  let s₁ := attach { s with children := update s.children p rest } k.rootproc c
  have hcount : ∀ q, (s.pc q).live = true → s₁.exitedChildren q =
      s.exitedChildren q + if q = k.rootproc ∧ (s.pc c).exited = true then 1 else 0 := by
    intro q hq
    have hqp : q ≠ p := by rintro rfl; rw [hp] at hq; cases hq
    show (update (update s.children p rest) k.rootproc
      (c :: update s.children p rest k.rootproc) q).countP (fun x => (s.pc x).exited) = _
    rcases eq_or_ne q k.rootproc with rfl | hqr
    · rw [update_self, update_of_ne hrp, countP_cons]
      simp [State.exitedChildren]
    · rw [update_of_ne hqr, update_of_ne hqp]
      simp [State.exitedChildren, hqr]
  have hlocks : Locks s₁ := ⟨h.locks.plock, h.locks.schlock⟩
  unfold Proc.handOver
  rw [hlist]
  simp only [hk, bind_some]
  by_cases hz : s.pc c = .zombie
  · rw [if_pos hz]
    have hexited : (s.pc c).exited = true := by rw [hz]; rfl
    obtain ⟨sem, hpost, hb⟩ := postChildexit_spec (p := k.rootproc) (s := s₁) (h.books _ hrlive)
    refine ⟨_, hpost, htree.post hrlive sem, hlocks.post sem, Books.post ?_ ?_⟩
    · intro q hq hlive
      rw [hcount q hlive, if_neg (fun hno => hq hno.1)]
      exact h.books q hlive
    · rw [hcount _ hrlive, if_pos ⟨rfl, hexited⟩]
      exact hb
  · rw [if_neg hz]
    have hexited : (s.pc c).exited ≠ true := by
      intro hexited
      refine hz (h.zombie_of_exited ?_ hsch hexited)
      rw [(h.locks.plock p).mpr (.inl hp)]
      intro heq
      exact h.tree.not_own_child hp (some.inj heq ▸ hmem)
    refine ⟨_, rfl, htree, hlocks, fun q hlive => ?_⟩
    rw [hcount q hlive, if_neg (fun hno => hexited hno.2)]
    exact h.books q hlive

/-- The parent of an exiting process without children is alive: a process that exits before its
    children hands them over first. -/
theorem Inv.parent_live (h : Inv root rc s)
    (hp : s.pc p = .exiting) (hempty : s.children p = []) (hq : s.parent p = some q) :
    (s.pc q).live = true ∧ p ∈ s.children q := by
  have hpr : p ≠ root := by
    rintro rfl
    have := h.tree.root_live
    rw [hp] at this
    cases this
  have hmem : p ∈ s.children q := (h.tree.linked p q).mpr ⟨hq, hpr⟩
  refine ⟨(h.tree.parents q (ne_nil_of_mem hmem)).resolve_right fun hexit => ?_, hmem⟩
  -- both would have `plock`
  have hlock := (h.locks.plock q).mpr (.inl hexit)
  rw [(h.locks.plock p).mpr (.inl hp), some.injEq] at hlock
  rw [← hlock, hempty] at hmem
  cases hmem

/-- One element of a list starts to count. -/
theorem countP_update {l : List P} {f : P → Bool} (hnodup : l.Nodup) (hmem : p ∈ l)
    (hf : f p = false) : l.countP (update f p true) = l.countP f + 1 := by
  have hperm := perm_cons_erase hmem
  have hout : p ∉ l.erase p := hnodup.not_mem_erase
  rw [hperm.countP_eq, hperm.countP_eq, countP_cons_of_pos (by simp),
    countP_cons_of_neg (by simp [hf])]
  refine congrArg (· + 1) (countP_congr fun x hx => ?_)
  rw [update_of_ne (by rintro rfl; exact hout hx)]

/-- `post_sem(&this->parent->childexit)`. -/
theorem Inv.postParent (h : Inv root rc s)
    (hp : s.pc p = .exiting) (hempty : s.children p = []) (hq : s.parent p = some q) :
    ∃ s', (postChildexit s q).map (fun s' => s'.setPc p .posted) = some s' ∧ Inv root rc s' := by
  obtain ⟨hqlive, hmem⟩ := h.parent_live hp hempty hq
  have hqp : q ≠ p := by rintro rfl; rw [hp] at hqlive; cases hqlive
  obtain ⟨sem, hpost, hb⟩ := postChildexit_spec (h.books q hqlive)
  refine ⟨_, by rw [hpost, map_some], ?_⟩
  have hpc : ((s.setSem q sem).setPc q (s.pc q).woke).pc p = .exiting := by
    show update s.pc q (s.pc q).woke p = .exiting
    rw [update_of_ne hqp.symm, hp]
  refine ⟨(h.tree.post hqlive sem).moved hpc rfl ⟨rfl, rfl, rfl, rfl, rfl, rfl⟩ rfl rfl
    (fun hl => by cases hl) (fun hne => absurd hempty hne) (by decide),
    (h.locks.post sem).moved hpc rfl ⟨rfl, rfl⟩ (by decide) (by decide), ?_⟩
  · -- the parent has one more exited child, and it is the only one that has this child
    let pc := update (update s.pc q (s.pc q).woke) p .posted
    have hself : pc p = .posted := update_self ..
    have hother : ∀ x, x ≠ p → pc x = update s.pc q (s.pc q).woke x := fun x hx => update_of_ne hx ..
    have hexited : ∀ x, (pc x).exited = update (fun x => (s.pc x).exited) p true x := by
      intro x
      rcases eq_or_ne x p with rfl | hx
      · rw [hself, update_self]
        rfl
      · rw [hother x hx, update_of_ne hx]
        rcases eq_or_ne x q with rfl | hxq
        · rw [update_self, (s.pc x).woke_keeps.2.1]
        · rw [update_of_ne hxq]
    intro x hx
    replace hx : (pc x).live = true := hx
    have hxp : x ≠ p := by
      rintro rfl
      rw [hself] at hx
      cases hx
    rw [hother x hxp] at hx
    show Balanced (pc x) x (update s.childexit q sem x) ((s.children x).countP fun c => (pc c).exited)
    rw [hother x hxp, funext hexited]
    rcases eq_or_ne x q with rfl | hxq
    · rw [update_self, update_self, countP_update (h.tree.nodup x) hmem (by
        show (s.pc p).exited = false
        rw [hp]
        rfl)]
      exact hb
    · rw [update_of_ne hxq] at hx ⊢
      rw [update_of_ne hxq]
      have hcount : (s.children x).countP (update (fun x => (s.pc x).exited) p true) =
          s.exitedChildren x := by
        refine countP_congr fun c hc => ?_
        rw [update_of_ne]
        rintro rfl
        exact hxq (some.inj (((h.tree.linked c x).mp hc).1.symm.trans hq))
      rw [hcount]
      exact h.books x hx

/-! ## `wait` -/

/-- **A wait that has a token finds a zombie**, as soon as it has the locks. -/
theorem Inv.findZombie (h : Inv root rc s) (hp : s.pc p = .got) (hplock : s.plock = none) (hsch : s.schlock = none) :
    ∃ z, s.findZombie p = some z ∧ z ∈ s.children p ∧ s.pc z = .zombie := by
  have hb := h.books p (by rw [hp]; rfl)
  rw [hp] at hb
  have hval : 0 ≤ (s.childexit p).val := by
    have := hb.val
    rwa [if_neg (by decide)] at this
  have hbooks : (s.childexit p).val + (1 : Nat) = (s.exitedChildren p : Int) := hb.books
  have hpos : 0 < (s.children p).countP fun c => (s.pc c).exited := by
    have : (0 : Int) < s.exitedChildren p := by omega
    exact_mod_cast this
  obtain ⟨c, hc, hexited⟩ := countP_pos_iff.mp hpos
  have hzombie := h.zombie_of_exited (by rw [hplock]; simp) hsch hexited
  cases hfind : s.findZombie p with
  | none =>
    have := find?_eq_none.mp hfind c hc
    simp [hzombie] at this
  | some z =>
    have hz := find?_some hfind
    exact ⟨z, rfl, mem_of_find?_eq_some hfind, by simpa using hz⟩

/-- A zombie is taken out of the tree. -/
theorem Tree.remove (h : Tree root rc s) {z : P} (hmem : z ∈ s.children p) (hz : s.pc z = .zombie)
    (hpc : s'.pc = update s.pc z .reaped) (hpar : s'.parent = update s.parent z none)
    (hch : s'.children = update s.children p ((s.children p).erase z))
    (hsame : s'.container = s.container ∧ s'.localpid = s.localpid ∧ s'.reaped = z :: s.reaped)
    (hroots : ∀ k, (s'.containers k).map (·.rootproc) = (s.containers k).map (·.rootproc)) : Tree root rc s' := by
  obtain ⟨hcon, hloc, hreap⟩ := hsame
  obtain ⟨hparent, hzroot⟩ := (h.linked z p).mp hmem
  have hself : s'.pc z = .reaped := by rw [hpc, update_self]
  have hother : ∀ x, x ≠ z → s'.pc x = s.pc x := fun x hx => by rw [hpc, update_of_ne hx]
  have hne : ∀ {x}, (s'.pc x).present = true → x ≠ z := by
    rintro x hx rfl
    rw [hself] at hx
    cases hx
  have hpresent : ∀ {x}, (s'.pc x).started = true → (s'.pc x).present = true := by
    intro x hx
    cases hpcx : s'.pc x <;> rw [hpcx] at hx <;> first | rfl | cases hx
  have hup : ∀ x, x ≠ z → s'.parent x = s.parent x := fun x hx => by rw [hpar, update_of_ne hx]
  have hchildren : ∀ x y, x ∈ s'.children y ↔ x ∈ s.children y ∧ x ≠ z := by
    intro x y
    rw [hch]
    rcases eq_or_ne y p with rfl | hy
    · rw [update_self, (h.nodup y).mem_erase_iff, and_comm]
    · rw [update_of_ne hy]
      refine ⟨fun hx => ⟨hx, ?_⟩, And.left⟩
      rintro rfl
      exact hy (some.inj (((h.linked x y).mp hx).1.symm.trans hparent))
  have hroots' := fun k => (hroots k).symm
  refine ⟨?_, ?_, ?_, ?_, ?_, ?_, ?_, ?_, ?_, ?_, ?_, ?_⟩
  · intro x y
    rw [hchildren, hpar, h.linked]
    rcases eq_or_ne x z with rfl | hx
    · simp
    · simp [hx]
  · intro y
    rw [hch]
    rcases eq_or_ne y p with rfl | hy
    · rw [update_self]
      exact (h.nodup y).erase z
    · rw [update_of_ne hy]
      exact h.nodup y
  · intro y hy
    obtain ⟨x, hx⟩ := exists_mem_of_ne_nil _ hy
    have hold := h.parents y (ne_nil_of_mem ((hchildren x y).mp hx).1)
    rwa [hother y (by rintro rfl; rw [hz] at hold; revert hold; decide)]
  · intro x hx
    rcases eq_or_ne x z with rfl | hxz
    · rw [hpar, update_self]
    · rw [hup x hxz]
      exact h.gone x (hother x hxz ▸ hx)
  · intro x hx
    have hxz := hne (hpresent hx)
    rw [hup x hxz]
    exact h.attached x (hother x hxz ▸ hx)
  · intro x D hx hD
    rw [hcon] at hD
    obtain ⟨E, hE, heq⟩ := rootproc_eq hroots hD
    rcases eq_or_ne x z with rfl | hxz
    · rw [hpar, update_self] at hx
      cases hx
    · rw [← heq]
      exact h.self x E (hup x hxz ▸ hx) hE
  · obtain ⟨E, hE, hroot⟩ := h.base
    obtain ⟨D, hD, heq⟩ := rootproc_eq hroots' hE
    exact ⟨D, hD, heq.trans hroot⟩
  · rw [hother root hzroot.symm]
    exact h.boot
  · intro x hx
    obtain ⟨E, hE⟩ := ne_none_iff_exists'.mp (h.homes x (hother x (hne hx) ▸ hx))
    obtain ⟨D, hD, -⟩ := rootproc_eq hroots' hE
    rw [hcon, hD]
    exact some_ne_none D
  · intro k D hD
    obtain ⟨E, hE, heq⟩ := rootproc_eq hroots hD
    obtain ⟨hk, hlive⟩ := h.roots k E hE
    rw [← heq, hcon, hother _ (by intro heq; rw [heq, hz] at hlive; cases hlive)]
    exact ⟨hk, hlive⟩
  · intro x hx
    rw [hloc]
    exact h.named x (hother x (hne (hpresent hx)) ▸ hx)
  · have hnew : z ∉ s.reaped := fun hin => by
      have := h.reaped.2 z hin
      rw [hz] at this
      cases this
    rw [hreap]
    refine ⟨nodup_cons.mpr ⟨hnew, h.reaped.1⟩, fun x hx => ?_⟩
    rcases mem_cons.mp hx with rfl | hold
    · exact hself
    · rw [hother x (by rintro rfl; exact hnew hold)]
      exact h.reaped.2 x hold

/-- The section under `plock` takes the zombie out of the tree and settles the books. -/
theorem Inv.reap (h : Inv root rc s) (hp : s.pc p = .got)
    (hplock : s.plock = none) (hsch : s.schlock = none) : Inv root rc (reap s p) := by
  obtain ⟨z, hfind, hmem, hz⟩ := h.findZombie hp hplock hsch
  have hzp : z ≠ p := by rintro rfl; rw [hp] at hz; cases hz
  unfold Proc.reap
  rw [hfind]
  dsimp only
  have hp' : update s.pc z .reaped p = .got := (update_of_ne hzp.symm ..).trans hp
  have hroots : ∀ k, ((if k = s.container z then (s.containers k).map fun c =>
      { c with localpidmap := freePid c.localpidmap (s.localpid z) } else s.containers k).map (·.rootproc)) =
        (s.containers k).map (·.rootproc) := by
    intro k
    split
    · rw [Option.map_map]
      rfl
    · rfl
  have htree : Tree root rc { s with
      pc := update s.pc z .reaped
      parent := update s.parent z none
      children := update s.children p ((s.children p).erase z)
      containers := fun k =>
        if k = s.container z then (s.containers k).map fun c =>
          { c with localpidmap := freePid c.localpidmap (s.localpid z) }
        else s.containers k
      pidmap := freePid s.pidmap (s.pid z)
      reaped := z :: s.reaped } := h.tree.remove hmem hz rfl rfl rfl ⟨rfl, rfl, rfl⟩ hroots
  have hlocks : Locks { s with pc := update s.pc z .reaped } :=
    h.locks.moved hz rfl ⟨rfl, rfl⟩ (by decide) (by decide)
  refine ⟨htree.moved hp' rfl ⟨rfl, rfl, rfl, rfl, rfl, rfl⟩ rfl rfl (fun _ => .inl rfl)
    (fun _ => .inl rfl) (by decide),
    hlocks.moved hp' rfl ⟨rfl, rfl⟩ (by decide) (by decide), fun x hx => ?_⟩
  -- who has exited among the children that are left
  have hexited : ∀ c, c ≠ z → (update (update s.pc z .reaped) p .run c).exited = (s.pc c).exited := by
    intro c hc
    rcases eq_or_ne c p with rfl | hcp
    · rw [update_self, hp]; rfl
    · rw [update_of_ne hcp, update_of_ne hc]
  show Balanced (update (update s.pc z .reaped) p .run x) x (s.childexit x)
    ((update s.children p ((s.children p).erase z) x).countP fun c => (update (update s.pc z .reaped) p .run c).exited)
  replace hx : (update (update s.pc z .reaped) p .run x).live = true := hx
  rcases eq_or_ne x p with rfl | hxp
  · have hb := h.books x (by rw [hp]; rfl)
    rw [hp] at hb
    have hbooks : (s.childexit x).val + (1 : Nat) = (s.exitedChildren x : Int) := hb.books
    have hcount : ((s.children x).erase z).countP (fun c => (update (update s.pc z .reaped) x .run c).exited) + 1 =
        s.exitedChildren x := by
      unfold State.exitedChildren
      rw [(perm_cons_erase hmem).countP_eq, countP_cons_of_pos (by rw [hz]; rfl)]
      refine congrArg (· + 1) (countP_congr fun c hc => ?_)
      rw [hexited c (by rintro rfl; exact (h.tree.nodup x).not_mem_erase hc)]
    rw [update_self, update_self]
    refine ⟨hb.list, hb.counts, ?_⟩
    show (s.childexit x).val + (0 : Nat) = _
    omega
  · have hxz : x ≠ z := by rintro rfl; rw [update_of_ne hxp, update_self] at hx; cases hx
    have hcount : (s.children x).countP (fun c => (update (update s.pc z .reaped) p .run c).exited) = s.exitedChildren x := by
      refine countP_congr fun c hc => ?_
      rw [hexited c]
      rintro rfl
      have hparent := ((h.tree.linked c p).mp hmem).1
      exact hxp (some.inj (((h.tree.linked c x).mp hc).1.symm.trans hparent))
    rw [update_of_ne hxp, update_of_ne hxz] at hx ⊢
    rw [update_of_ne hxp, hcount]
    exact h.books x hx

/-! ## Every section -/

theorem attach_parent (s : State P K) (p q : P) : (Proc.attach s p q).parent q = some p :=
  update_self ..

section

variable (h : Inv root rc s)
include h

/-- `create_proc` with or without a parent and a container. -/
theorem Inv.spawn (adopt join : Bool) (hp : s.pc p = .run) (hq : s.pc q = .absent) : Inv root rc (
      let s₁ := createProc rc s q
      let s₂ := if adopt then Proc.attach s₁ p q else s₁
      if join then setContainerToThis s₂ p q else s₂) := by
  obtain ⟨-, -, -, -, hrootproc⟩ := h.tree.absent hq
  have hpq : p ≠ q := by rintro rfl; rw [hp] at hq; cases hq
  have h1 := h.create hq
  have hq1 : (createProc rc s q).pc q = .created := update_self ..
  have hp1 : (createProc rc s q).pc p = .run := (update_of_ne hpq ..).trans hp
  have hnone1 : (createProc rc s q).parent q = none := update_self ..
  have h2 : Inv root rc (Proc.attach (createProc rc s q) p q) :=
    h1.adopt hnone1 hq1 (by rw [hp1]; rfl) hpq
  have hnone2 : (Proc.attach (createProc rc s q) p q).parent q ≠ some q := by
    rw [attach_parent]
    exact fun heq => hpq (some.inj heq)
  -- joining the creator's container, whose root process is an older one
  have hjoin : ∀ {t : State P K}, Inv root rc t → t.pc q = .created → t.pc p = .run →
      t.containers = s.containers → t.parent q ≠ some q → Inv root rc (setContainerToThis t p q) :=
    fun ht hqt hpt hct hself => ht.join hqt (ht.tree.homes p (by rw [hpt]; rfl))
      (by rw [hct]; exact hrootproc) hself
  cases adopt <;> cases join
  · exact h1
  · exact hjoin h1 hq1 hp1 rfl (hnone1 ▸ (some_ne_none q).symm)
  · exact h2
  · exact hjoin h2 hq1 hp1 rfl hnone2

/-- `create_container`. -/
theorem Inv.createContainer {k : K} (hp : s.pc p = .run) (hq : s.pc q = .absent) (hk : s.containers k = none) :
    Inv root rc (createContainer rc s p q k) := by
  obtain ⟨-, -, -, -, hrootproc⟩ := h.tree.absent hq
  have hpq : p ≠ q := by rintro rfl; rw [hp] at hq; cases hq
  have hq1 : (createProc rc s q).pc q = .created := update_self ..
  have hp1 : (createProc rc s q).pc p = .run := (update_of_ne hpq ..).trans hp
  have h2 : Inv root rc (Proc.attach (createProc rc s q) p q) :=
    (h.create hq).adopt (update_self ..) hq1 (by rw [hp1]; rfl) hpq
  refine h2.newContainer hq1 hk rfl hrootproc ?_
  show (Proc.attach (createProc rc s q) p q).parent q ≠ some q
  rw [attach_parent]
  exact fun heq => hpq (some.inj heq)

/-- `start_proc`, which gives a process without a parent to the root process. -/
theorem Inv.startProc (hq : s.pc q = .created) (hstart : startProc root s q = some s') : Inv root rc s' := by
  obtain ⟨C, hC, rfl⟩ := map_eq_some_iff.mp hstart
  by_cases hnone : s.parent q = none
  · rw [if_pos hnone] at hC ⊢
    have hne : root ≠ q := by
      rintro rfl
      have := h.tree.boot
      rw [hq] at this
      cases this
    refine (h.adopt hnone hq h.tree.root_live hne).start hq ?_ hC (allocPid_ne_zero _)
    rw [attach_parent]
    exact some_ne_none root
  · rw [if_neg hnone] at hC ⊢
    exact h.start hq hnone hC (allocPid_ne_zero _)

/-- The start of `exit`: the process takes `plock`. -/
theorem Inv.exit {C : Container P K} {code : Int} (hp : s.pc p = .run) (hplock : s.plock = none)
    (hC : s.containers (s.container p) = some C) (hroot : p ≠ C.rootproc) : Inv root rc { s.setPc p .exiting with
      exitcode := update s.exitcode p code, plock := some p } := by
  refine ⟨h.tree.moved hp rfl ⟨rfl, rfl, rfl, rfl, rfl, rfl⟩ rfl rfl (fun _ => .inr ⟨rfl, ?_⟩)
    (fun _ => .inr rfl) (by decide),
    h.locks.moves (p := p) rfl (fun q => ?_) fun q => ?_,
    h.books.moved hp rfl rfl rfl (fun _ _ => rfl) (fun hl => by cases hl)⟩
  · -- it is the root process of no container: a root process lives in its own
    rintro k D hD rfl
    have hk := (h.tree.roots k D hD).1
    rw [hk, hD, some.injEq] at hC
    exact hroot (by rw [hC])
  · show some p = some q ↔ _
    rw [hplock]
    split
    next heq => simp [heq]
    next hne => simp [Ne.symm hne]
  · show s.schlock = some q ↔ _
    split
    next heq => rw [heq, h.locks.schlock, hp]; decide
    next => rfl

end

/-- Past the post, a process has no children. -/
theorem Tree.children_eq_nil (h : Tree root rc s) (hp : (s.pc p).exited = true) : s.children p = [] := by
  by_contra hne
  rcases h.parents p hne with hl | he
  · generalize s.pc p = c at hl hp
    cases c <;> first | exact absurd hl (by decide) | exact absurd hp (by decide)
  · rw [he] at hp
    cases hp

/-- From `plock` to `schlock`. -/
theorem Inv.toSched (h : Inv root rc s) (hp : s.pc p = .posted) (hsch : s.schlock = none) :
    Inv root rc { s.setPc p .switching with plock := none, schlock := some p } := by
  have hempty := h.tree.children_eq_nil (p := p) (by rw [hp]; rfl)
  refine ⟨h.tree.moved hp rfl ⟨rfl, rfl, rfl, rfl, rfl, rfl⟩ rfl rfl (fun hl => by cases hl)
    (fun hne => absurd hempty hne) (by decide),
    h.locks.moves (p := p) rfl (fun q => ?_) fun q => ?_,
    h.books.moved hp rfl rfl rfl (fun _ _ => rfl) (fun hl => by cases hl)⟩
  · show none = some q ↔ _
    rw [(h.locks.plock p).mpr (.inr hp)]
    split
    next heq => simp
    next hne => simp [Ne.symm hne]
  · show some p = some q ↔ _
    rw [hsch]
    split
    next heq => simp [heq]
    next hne => simp [Ne.symm hne]

/-- `_sched(ZOMBIE)`. -/
theorem Inv.die (h : Inv root rc s)
    (hp : s.pc p = .switching) : Inv root rc { s.setPc p .zombie with schlock := none } := by
  have hempty := h.tree.children_eq_nil (p := p) (by rw [hp]; rfl)
  refine ⟨h.tree.moved hp rfl ⟨rfl, rfl, rfl, rfl, rfl, rfl⟩ rfl rfl (fun hl => by cases hl)
    (fun hne => absurd hempty hne) (by decide),
    h.locks.moves (p := p) rfl (fun q => ?_) fun q => ?_,
    h.books.moved hp rfl rfl rfl (fun _ _ => rfl) (fun hl => by cases hl)⟩
  · show s.plock = some q ↔ _
    split
    next heq => rw [heq, h.locks.plock, hp]; decide
    next => rfl
  · show none = some q ↔ _
    rw [(h.locks.schlock p).mpr hp]
    split
    next heq => simp
    next hne => simp [Ne.symm hne]

theorem step_inv {a : Act P K} (h : Inv root rc s) (hstep : step root rc s a = some s') : Inv root rc s' := by
  cases a with
  | spawn p q adopt join =>
    obtain ⟨⟨hp, hq, -⟩, rfl⟩ := of_guard hstep
    exact h.spawn adopt join hp hq
  | createContainer p q k =>
    obtain ⟨⟨hp, hq, hk, -⟩, rfl⟩ := of_guard hstep
    exact h.createContainer hp hq hk
  | start p q =>
    obtain ⟨⟨-, hq, -⟩, hstep⟩ := ite_none_right_eq_some.mp hstep
    exact h.startProc hq hstep
  | check p =>
    obtain ⟨⟨hp, -⟩, rfl⟩ := of_guard hstep
    refine ⟨h.tree.moved hp rfl ⟨rfl, rfl, rfl, rfl, rfl, rfl⟩ rfl rfl (fun _ => .inl rfl)
      (fun _ => .inl rfl) (by decide), h.locks.moved hp rfl ⟨rfl, rfl⟩ (by decide) (by decide),
      h.books.moved hp rfl rfl rfl (fun _ _ => rfl) fun _ => ?_⟩
    have hb := h.books p (by rw [hp]; rfl)
    rw [hp] at hb
    exact ⟨hb.list, hb.counts, hb.books⟩
  | waitSem p =>
    obtain ⟨hp, rfl⟩ := of_guard hstep
    have hb := h.books p (by rw [hp]; rfl)
    rw [hp] at hb
    have hb' := hb.waitSem
    -- the process is past the wait or asleep, and that is all that has changed
    have hpc : ∀ b : Bool, (if b then Pc.got else Pc.asleep).live = true ∧
        (if b then Pc.got else Pc.asleep).exited = false ∧
        (if b then Pc.got else Pc.asleep).present = true ∧
        (if b then Pc.got else Pc.asleep).started = true := by decide
    obtain ⟨hlive, hexited, hpresent, hstarted⟩ := hpc (waitSem (s.childexit p) p).1
    refine ⟨h.tree.moved hp rfl ⟨rfl, rfl, rfl, rfl, rfl, rfl⟩ hpresent hstarted
      (fun _ => .inl hlive) (fun _ => .inl hlive) (by decide),
      h.locks.moved hp rfl ⟨rfl, rfl⟩ (by split <;> decide) (by split <;> decide),
      h.books.moved hp rfl rfl hexited (fun q hq => update_of_ne hq ..) fun _ => ?_⟩
    show Balanced _ p (update s.childexit p (waitSem (s.childexit p) p).2 p) _
    rw [update_self]
    exact hb'
  | reap p =>
    obtain ⟨⟨hp, hplock, hsch⟩, rfl⟩ := of_guard hstep
    exact h.reap hp hplock hsch
  | exit p code =>
    obtain ⟨⟨hp, hplock⟩, hstep⟩ := ite_none_right_eq_some.mp hstep
    obtain ⟨C, hC, hstep⟩ := bind_eq_some_iff.mp hstep
    obtain ⟨hroot, rfl⟩ := of_guard hstep
    exact h.exit hp hplock hC hroot
  | handOver p =>
    obtain ⟨⟨hp, hsch⟩, hstep⟩ := ite_none_right_eq_some.mp hstep
    have hne : s.children p ≠ [] := by
      intro hnil
      simp [handOver, hnil] at hstep
    obtain ⟨s₁, hs1, hinv⟩ := h.handOver hp hsch hne
    obtain rfl := some.inj (hs1.symm.trans hstep)
    exact hinv
  | postParent p =>
    obtain ⟨⟨hp, hempty⟩, hstep⟩ := ite_none_right_eq_some.mp hstep
    obtain ⟨q, hq, hstep⟩ := bind_eq_some_iff.mp hstep
    obtain ⟨s₁, hs1, hinv⟩ := h.postParent hp hempty hq
    obtain rfl := some.inj (hs1.symm.trans hstep)
    exact hinv
  | toSched p =>
    obtain ⟨⟨hp, hsch⟩, rfl⟩ := of_guard hstep
    exact h.toSched hp hsch
  | die p =>
    obtain ⟨hp, rfl⟩ := of_guard hstep
    exact h.die hp

theorem boot_inv (root : P) (rc : K) : Inv root rc (boot root rc) := by
  have hroot : (boot root rc : State P K).pc root = .run := if_pos rfl
  have hother : ∀ p, p ≠ root → (boot root rc : State P K).pc p = .absent := fun p hp => if_neg hp
  have hcontainer : (boot root rc : State P K).containers rc =
      some { parent := none, rootproc := root, localpidmap := [1] } := if_pos rfl
  have hsome : ∀ k C, (boot root rc : State P K).containers k = some C → k = rc ∧ C.rootproc = root := by
    intro k C hC
    obtain ⟨hk, rfl⟩ := of_guard hC
    exact ⟨hk, rfl⟩
  have hstarted : ∀ p, ((boot root rc : State P K).pc p).started = true → p = root := by
    intro p hp
    by_contra hne
    rw [hother p hne] at hp
    cases hp
  refine ⟨⟨?_, fun _ => nodup_nil, fun q hq => absurd rfl hq, ?_, ?_, ?_, ⟨_, hcontainer, rfl⟩,
    by rw [hroot]; rfl, ?_, ?_, fun _ _ => Int.one_ne_zero, nodup_nil, fun p hp => by cases hp⟩,
    ⟨fun q => ?_, fun q => ?_⟩, fun p _ => ?_⟩
  · -- the root process is on no list, and nobody else has a parent
    intro c q
    refine iff_of_false not_mem_nil ?_
    rintro ⟨hparent, hne⟩
    rw [show (boot root rc : State P K).parent c = none from if_neg hne] at hparent
    cases hparent
  · intro p hp
    refine if_neg ?_
    rintro rfl
    rw [hroot] at hp
    cases hp
  · intro p hp
    obtain rfl := hstarted p hp
    show (if p = p then some p else none) ≠ none
    rw [if_pos rfl]
    exact some_ne_none p
  · intro p k hp hk
    obtain ⟨-, hk⟩ := hsome _ k hk
    obtain ⟨heq, -⟩ := ite_none_right_eq_some.mp hp
    rw [hk, heq]
  · intro p _
    show (boot root rc : State P K).containers rc ≠ none
    rw [hcontainer]
    exact some_ne_none _
  · intro k C hC
    obtain ⟨hk, heq⟩ := hsome k C hC
    rw [heq, hroot]
    exact ⟨hk.symm, rfl⟩
  · refine iff_of_false (by rintro ⟨⟩) ?_
    rcases eq_or_ne q root with rfl | hne
    · rw [hroot]; decide
    · rw [hother q hne]; decide
  · refine iff_of_false (by rintro ⟨⟩) ?_
    rcases eq_or_ne q root with rfl | hne
    · rw [hroot]; decide
    · rw [hother q hne]; decide
  · have hpc : (boot root rc : State P K).pc p = .run ∨ (boot root rc : State P K).pc p = .absent :=
      (eq_or_ne p root).imp (by rintro rfl; exact hroot) (hother p)
    rcases hpc with hpc | hpc <;> rw [hpc] <;> exact ⟨rfl, rfl, rfl⟩

/-! ## The books -/

/-- Calls of `wait` that have a token and have not reaped. -/
def Pc.tokens : Pc → Nat
  | .got => 1
  | _ => 0

/-- While the parent sleeps in `wait` the value is -1, with no token taken and no child exited. -/
theorem childexit_negative : ∃ s : State Nat Nat,
    run (step 0 0) (boot 0 0) [.spawn 0 1 true true, .start 0 1, .check 0, .waitSem 0] = some s ∧
      (s.pc 0).live = true ∧ (s.childexit 0).val = -1 ∧ (s.pc 0).tokens = 0 ∧ s.exitedChildren 0 = 0 ∧
      (s.childexit 0).val + (s.pc 0).tokens ≠ s.exitedChildren 0 :=
  ⟨_, rfl, rfl, rfl, rfl, rfl, by decide⟩

/-- In every run of any processes.  For every process that is not in `exit`: what is left of a positive
    value, with the token its `wait` has, is the number of its exited children, and the value itself
    is that number less one for a `wait` past `--val`.  A `wait` with a token finds a zombie when it gets
    to look, reaps this one and no other and returns its pid, which is not 0; and no process is reaped
    twice. -/
theorem wait_exit_accounting {root : P} {rc : K} {as : List (Act P K)} {s : State P K}
    (hrun : run (step root rc) (boot root rc) as = some s) :
    (∀ p, (s.pc p).live = true →
      max 0 (s.childexit p).val + (s.pc p).tokens = s.exitedChildren p ∧
      (s.childexit p).val + (s.pc p).waiting = s.exitedChildren p) ∧
    (∀ p s', step root rc s (.reap p) = some s' → ∃ z ∈ s.children p, s.pc z = .zombie ∧
      s.waitResult p = s.localpid z ∧ s.waitResult p ≠ 0 ∧ z ∉ s.reaped ∧ s'.reaped = z :: s.reaped ∧
      s'.children p = (s.children p).erase z ∧
      s'.pc = update (update s.pc z .reaped) p .run) ∧
    s.reaped.Nodup := by
  have h : Inv root rc s :=
    run_invariant_all (fun _ _ _ h hstep => step_inv h hstep) as _ s (boot_inv root rc) hrun
  refine ⟨fun p hp => ?_, fun p s' hstep => ?_, h.tree.reaped.1⟩
  · have hb := h.books p hp
    have hval := hb.val
    have hbooks := hb.books
    refine ⟨?_, hbooks⟩
    by_cases hasleep : s.pc p = .asleep
    · -- the value is -1: the debt of the sleeper
      rw [if_pos hasleep] at hval
      rw [hasleep] at hbooks ⊢
      replace hbooks : (s.childexit p).val + (1 : Nat) = s.exitedChildren p := hbooks
      show max 0 (s.childexit p).val + (0 : Nat) = _
      omega
    · have htokens : (s.pc p).tokens = (s.pc p).waiting := by
        generalize s.pc p = c at hasleep
        cases c <;> first | rfl | exact absurd rfl hasleep
      rw [if_neg hasleep] at hval
      rw [htokens]
      omega
  · obtain ⟨⟨hp, hplock, hsch⟩, rfl⟩ := of_guard hstep
    obtain ⟨z, hfind, hmem, hz⟩ := h.findZombie hp hplock hsch
    have hresult : s.waitResult p = s.localpid z := by
      unfold State.waitResult
      rw [hfind]
    refine ⟨z, hmem, hz, hresult, ?_, ?_, ?_, ?_, ?_⟩
    · rw [hresult]
      exact h.tree.named z (by rw [hz]; rfl)
    · intro hin
      have := h.tree.reaped.2 z hin
      rw [hz] at this
      cases this
    all_goals
      unfold reap
      rw [hfind]
    exact update_self ..

/-- A child leaves a zombie of its own to the root process, and two calls of `wait` reap both. -/
theorem wait_exit_accounting_orphan : ∃ s : State Nat Nat,
    run (step 0 0) (boot 0 0)
      [.spawn 0 1 true true, .start 0 1, .spawn 1 2 true true, .start 1 2, .check 0, .waitSem 0,
        .exit 2 7, .postParent 2, .toSched 2, .die 2, .exit 1 0, .handOver 1, .postParent 1,
        .toSched 1, .die 1, .reap 0, .check 0, .waitSem 0, .reap 0] = some s ∧
      s.reaped = [1, 2] ∧ s.reaped.Nodup ∧
      max 0 (s.childexit 0).val + (s.pc 0).tokens = s.exitedChildren 0 := by
  refine exists_run (P := fun s => s.reaped = [1, 2] ∧ (s.pc 0).live = true) rfl fun s hrun hs => ?_
  obtain ⟨hbooks, -, hnodup⟩ := wait_exit_accounting hrun
  exact ⟨hs.1, hnodup, (hbooks 0 hs.2).1⟩

/-! ## `exit` comes to its end -/

/-- What a round of the loop leaves to the next one. -/
theorem Inv.handOver_frame (h : Inv root rc s) (hp : s.pc p = .exiting) (hstep : Proc.handOver s p = some s') :
    s'.pc p = .exiting ∧ s'.schlock = s.schlock ∧ s'.children p = (s.children p).tail := by
  unfold Proc.handOver at hstep
  cases hlist : s.children p with
  | nil => simp [hlist] at hstep
  | cons c rest =>
    simp only [hlist] at hstep
    obtain ⟨k, hk, hstep⟩ := bind_eq_some_iff.mp hstep
    have hrlive := (h.tree.roots _ k hk).2
    have hrp : p ≠ k.rootproc := by
      rintro rfl
      rw [hp] at hrlive
      cases hrlive
    let s₁ := attach { s with children := update s.children p rest } k.rootproc c
    have hchildren : s₁.children p = rest := (update_of_ne hrp ..).trans (update_self ..)
    split at hstep
    · obtain ⟨sem, hpost, -⟩ := postChildexit_spec (p := k.rootproc) (s := s₁) (h.books _ hrlive)
      obtain rfl := some.inj (hpost.symm.trans hstep)
      exact ⟨(update_of_ne hrp ..).trans hp, rfl, hchildren⟩
    · obtain rfl := some.inj hstep
      exact ⟨hp, rfl, hchildren⟩

/-- The loop goes on until no child is left. -/
theorem Inv.handOver_all (h : Inv root rc s) (hp : s.pc p = .exiting) (hsch : s.schlock = none) :
    ∃ s', run (step root rc) s (replicate (s.children p).length (.handOver p)) = some s' ∧
      Inv root rc s' ∧ s'.pc p = .exiting ∧ s'.schlock = none ∧ s'.children p = [] := by
  generalize hn : (s.children p).length = n
  induction n generalizing s with
  | zero => exact ⟨s, rfl, h, hp, hsch, length_eq_zero_iff.mp hn⟩
  | succ n ih =>
    obtain ⟨s₁, hstep, h₁⟩ := h.handOver hp hsch (ne_nil_of_length_eq_add_one hn)
    obtain ⟨hp₁, hsch₁, hchildren⟩ := h.handOver_frame hp hstep
    obtain ⟨s', hrun, hrest⟩ := ih h₁ hp₁ (hsch₁.trans hsch) (by rw [hchildren, length_tail, hn]; rfl)
    refine ⟨s', run_cons_eq_some.mpr ⟨s₁, ?_, hrun⟩, hrest⟩
    rw [step, if_pos ⟨hp, hsch⟩, hstep]

/-- **`exit` comes to its end.**  From every reachable state with a process inside `exit` and the scheduler's lock
    free: a round for each child, the post to the parent, the switch, and it is a zombie without children. -/
theorem exit_completes {as : List (Act P K)} (hrun : run (step root rc) (boot root rc) as = some s)
    (hp : s.pc p = .exiting) (hsch : s.schlock = none) :
    ∃ s', run (step root rc) s (replicate (s.children p).length (.handOver p) ++
        [.postParent p, .toSched p, .die p]) = some s' ∧ s'.pc p = .zombie ∧ s'.children p = [] := by
  have h := run_invariant_all (fun _ _ _ => step_inv) as _ s (boot_inv root rc) hrun
  obtain ⟨s₁, hloop, h₁, hp₁, hsch₁, hempty⟩ := h.handOver_all hp hsch
  obtain ⟨q, hq⟩ := ne_none_iff_exists'.mp (h₁.tree.attached p (by rw [hp₁]; rfl))
  obtain ⟨sem, hpost, -⟩ := postChildexit_spec (h₁.books q (h₁.parent_live hp₁ hempty hq).1)
  let s₂ := ((s₁.setSem q sem).setPc q (s₁.pc q).woke).setPc p .posted
  let s₃ := { s₂.setPc p .switching with plock := none, schlock := some p }
  let s₄ := { s₃.setPc p .zombie with schlock := none }
  have hposted : step root rc s₁ (.postParent p) = some s₂ := by
    rw [step, if_pos ⟨hp₁, hempty⟩, hq, bind_some, hpost, map_some]
  have hswitch : step root rc s₂ (.toSched p) = some s₃ := if_pos ⟨update_self .., hsch₁⟩
  have hdead : step root rc s₃ (.die p) = some s₄ := if_pos (update_self ..)
  refine ⟨s₄, ?_, update_self .., hempty⟩
  rw [run_append, hloop, bind_some, run, hposted, bind_some, run, hswitch, bind_some, run, hdead, bind_some, run]

theorem exit_completes_parent : ∃ s : State Nat Nat,
    run (step 0 0) (boot 0 0) [.spawn 0 1 true true, .start 0 1, .spawn 1 2 true true, .start 1 2, .exit 1 0] =
      some s ∧
    ∃ s', run (step 0 0) s [.handOver 1, .postParent 1, .toSched 1, .die 1] = some s' ∧ s'.pc 1 = .zombie := by
  refine exists_run (P := fun s => s.pc 1 = .exiting ∧ s.schlock = none ∧ s.children 1 = [2]) rfl
    fun s hrun ⟨hp, hsch, hchildren⟩ => ?_
  obtain ⟨s', hrun', hz, -⟩ := exit_completes hrun hp hsch
  rw [hchildren] at hrun'
  exact ⟨s', hrun', hz⟩

end Armv8Os.Proc
