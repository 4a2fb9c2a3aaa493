/-
  The process tree: parent pointers, lists of children and `traverse_proc`.

  `exit` gives each child to the root process of the CHILD's container.  For the root process of a
  container, which its creator has as a child, this is the child itself: when the creator exits, that
  process becomes its own parent and the tree below it is cut off (`container_root_cut_off`).

  1. As long as no process exits with such a child, the parent of a process is older than it: a creator, the
     root process of its container, or the root of all.  `Shape` says so with a birth order.
  2. `Shape.frame`, `Shape.create`, `Shape.attach`, `Shape.rehome`: what every section is made of.
  3. `process_tree`: from any live process the parent pointers lead to the root, and `traverse_proc` ends
     and finds it.  The pids have to be different for that, so `alloc_pid` must not run out of them.
-/
import Armv8Os.Kernel.WaitExit

set_option linter.unusedSectionVars false

namespace Armv8Os.Proc

open Sem Transition List Option
open Function (update update_eq_self update_of_ne update_self)

variable {P K : Type} [DecidableEq P] [DecidableEq K]

/-! ## The shape -/

/-- `p->parent`; for NULL it stays where it is. -/
def State.up (s : State P K) (p : P) : P := (s.parent p).getD p

/-- `p->container->rootproc`. -/
def State.rootOf (s : State P K) (p : P) : Option P := (s.containers (s.container p)).map (·.rootproc)

/-- The processes in the order of their birth, `b` of them so far. -/
structure Shape (root : P) (rank : P → Nat) (b : Nat) (s : State P K) : Prop where
  older : ∀ q, ∀ c ∈ s.children q, rank q < rank c
  eldest : ∀ p, (s.pc p).present = true → p ≠ root → rank root < rank p
  home : ∀ p r, (s.pc p).present = true → s.rootOf p = some r → r ≠ p → rank r < rank p
  below : ∀ p, (s.pc p).present = true → rank p < b
  used : ∀ p, (s.pc p).present = true → 0 < s.pid p ∧ (s.pid p).toNat ∈ s.pidmap
  unique : ∀ p q, (s.pc p).present = true → (s.pc q).present = true → s.pid p = s.pid q → p = q
  settled : ∀ p, s.pc p = .exiting → ∀ c ∈ s.children p, s.rootOf c ≠ some c
  parents : ∀ q, s.children q ≠ [] → s.parent q ≠ none
  roots : ∀ p r, (s.pc p).present = true → s.rootOf p = some r → s.parent r ≠ none

/-- A step that adds nothing to the tree. -/
structure Frame (s s' : State P K) : Prop where
  children : ∀ q, ∀ c ∈ s'.children q, c ∈ s.children q
  present : ∀ p, (s'.pc p).present = true → (s.pc p).present = true
  rootOf : ∀ p, s'.rootOf p = s.rootOf p
  pid : s'.pid = s.pid
  pidmap : ∀ p, (s'.pc p).present = true → (s.pid p).toNat ∈ s.pidmap → (s.pid p).toNat ∈ s'.pidmap
  exiting : ∀ p, s'.pc p = .exiting → s.pc p = .exiting ∨ ∀ c ∈ s.children p, s.rootOf c ≠ some c
  parent : ∀ p, s.parent p ≠ none → (s'.children p ≠ [] ∨ ∃ x, s'.rootOf x = some p) → s'.parent p ≠ none

variable {s s' : State P K} {rank : P → Nat} {root : P} {b : Nat}

theorem Shape.frame (h : Shape root rank b s) (hf : Frame s s') : Shape root rank b s' := by
  refine ⟨fun q c hc => h.older q c (hf.children q c hc), fun p hp => h.eldest p (hf.present p hp),
    fun p r hp hr => h.home p r (hf.present p hp) (hf.rootOf p ▸ hr),
    fun p hp => h.below p (hf.present p hp), fun p hp => ?_, fun p q hp hq heq => ?_,
    fun p hp c hc => ?_, fun q hq => ?_, fun p r hp hr => ?_⟩
  · rw [hf.pid]
    obtain ⟨hpos, hmem⟩ := h.used p (hf.present p hp)
    exact ⟨hpos, hf.pidmap p hp hmem⟩
  · rw [hf.pid] at heq
    exact h.unique p q (hf.present p hp) (hf.present q hq) heq
  · rw [hf.rootOf c]
    rcases hf.exiting p hp with hexit | hfree
    · exact h.settled p hexit c (hf.children p c hc)
    · exact hfree c (hf.children p c hc)
  · obtain ⟨c, hc⟩ := exists_mem_of_ne_nil _ hq
    exact hf.parent q (h.parents q (ne_nil_of_mem (hf.children q c hc))) (Or.inl hq)
  · exact hf.parent r (h.roots p r (hf.present p hp) (hf.rootOf p ▸ hr)) (Or.inr ⟨p, hr⟩)

variable {p : P}

/-- A process moves on in its own code. -/
theorem Frame.moved {c : Pc} (hpc : s'.pc = update s.pc p c)
    (hsame : s'.children = s.children ∧ s'.parent = s.parent ∧ s'.container = s.container ∧
      s'.containers = s.containers ∧ s'.pid = s.pid ∧ s'.pidmap = s.pidmap) (hpresent : (s.pc p).present = true)
    (hexiting : c = .exiting → s.pc p = .exiting ∨ ∀ x ∈ s.children p, s.rootOf x ≠ some x) :
    Frame s s' := by
  obtain ⟨hchildren, hparent, hcontainer, hcontainers, hpid, hpidmap⟩ := hsame
  refine ⟨fun q x hx => hchildren ▸ hx, fun q hq => ?_, fun q => ?_, hpid, fun _ _ hq => hpidmap ▸ hq,
    fun q hq => ?_, fun q hq _ => hparent ▸ hq⟩
  · rcases eq_or_ne q p with rfl | hne
    · exact hpresent
    · rwa [hpc, update_of_ne hne] at hq
  · unfold State.rootOf
    rw [hcontainers, hcontainer]
  · rcases eq_or_ne q p with rfl | hne
    · rw [hpc, update_self] at hq
      exact hexiting hq
    · rw [hpc, update_of_ne hne] at hq
      exact Or.inl hq

/-! ## What a section is made of -/

variable {rc : K} {q : P}

/-- A new process is the youngest. -/
theorem Shape.create (h : Shape root rank b s) (ht : Tree root rc s) (hq : s.pc q = .absent)
    (hpid : (allocPid s.pidmap).1 ≠ -1) :
    Shape root (update rank q b) (b + 1) (createProc rc s q) := by
  obtain ⟨hnone, hempty, hqroot, hchild, hrootproc⟩ := ht.absent hq
  obtain ⟨n, hn, -, hfree, halloc⟩ := allocPid_spec hpid
  have hrootlt : rank root < b := h.below root (Pc.present_of_live ht.root_live)
  have hrank : ∀ p, p ≠ q → update rank q b p = rank p := fun p hp => update_of_ne hp ..
  have hpc : ∀ p, p ≠ q → (createProc rc s q).pc p = s.pc p := fun p hp => update_of_ne hp ..
  have hrootOf : ∀ p, p ≠ q → (createProc rc s q).rootOf p = s.rootOf p := by
    intro p hp
    unfold State.rootOf
    rw [show (createProc rc s q).container p = s.container p from update_of_ne hp ..]
    rfl
  have hpidOf : ∀ p, p ≠ q → (createProc rc s q).pid p = s.pid p := fun p hp => update_of_ne hp ..
  have hpidq : (createProc rc s q).pid q = n := (update_self ..).trans (by rw [halloc])
  have hpidmap : (createProc rc s q).pidmap = n :: s.pidmap := by
    show (allocPid s.pidmap).2 = _
    rw [halloc]
  have hchildren : (createProc rc s q).children = s.children := by
    show update s.children q [] = s.children
    rw [← hempty, update_eq_self]
  have hparent : (createProc rc s q).parent = s.parent := by
    show update s.parent q none = s.parent
    rw [← hnone, update_eq_self]
  -- the root process of any container is there already
  have hroots : ∀ k C, s.containers k = some C → rank C.rootproc < b := fun k C hC =>
    h.below _ (Pc.present_of_live (ht.roots k C hC).2)
  have hnew : ∀ p, p ≠ q → ((createProc rc s q).pc p).present = true → s.pid p ≠ n := by
    intro p hp hpresent heq
    rw [hpc p hp] at hpresent
    have := (h.used p hpresent).2
    rw [heq] at this
    exact hfree this
  refine ⟨fun p c hc => ?_, fun p hp hne => ?_, fun p r hp hr hne => ?_, fun p hp => ?_, fun p hp => ?_,
    fun p p' hp hp' heq => ?_, fun p hp c hc => ?_, ?_, fun p r hp hr => ?_⟩
  · rw [hchildren] at hc
    have hcq : c ≠ q := by rintro rfl; exact hchild p hc
    have hpq : p ≠ q := by rintro rfl; rw [hempty] at hc; cases hc
    rw [hrank p hpq, hrank c hcq]
    exact h.older p c hc
  · rw [hrank root hqroot.symm]
    rcases eq_or_ne p q with rfl | hpq
    · rwa [update_self]
    · rw [hrank p hpq]
      exact h.eldest p (hpc p hpq ▸ hp) hne
  · rcases eq_or_ne p q with rfl | hpq
    · obtain ⟨C, hC, rfl⟩ := map_eq_some_iff.mp hr
      rw [update_self, hrank _ hne]
      exact hroots _ C hC
    · rw [hrootOf p hpq] at hr
      obtain ⟨C, hC, rfl⟩ := map_eq_some_iff.mp hr
      rw [hrank p hpq, hrank _ (hrootproc _ C hC)]
      exact h.home p _ (hpc p hpq ▸ hp) hr hne
  · rcases eq_or_ne p q with rfl | hpq
    · rw [update_self]
      exact Nat.lt_succ_self b
    · rw [hrank p hpq]
      exact Nat.lt_succ_of_lt (h.below p (hpc p hpq ▸ hp))
  · rw [hpidmap]
    rcases eq_or_ne p q with rfl | hpq
    · rw [hpidq]
      exact ⟨by exact_mod_cast hn, mem_cons_self⟩
    · rw [hpidOf p hpq]
      obtain ⟨hpos, hmem⟩ := h.used p (hpc p hpq ▸ hp)
      exact ⟨hpos, mem_cons_of_mem n hmem⟩
  · by_cases hpq : p = q <;> by_cases hpq' : p' = q
    · rw [hpq, hpq']
    · subst hpq
      rw [hpidq, hpidOf p' hpq'] at heq
      exact absurd heq.symm (hnew p' hpq' hp')
    · subst hpq'
      rw [hpidq, hpidOf p hpq] at heq
      exact absurd heq (hnew p hpq hp)
    · rw [hpidOf p hpq, hpidOf p' hpq'] at heq
      exact h.unique p p' (hpc p hpq ▸ hp) (hpc p' hpq' ▸ hp') heq
  · rw [hchildren] at hc
    have hpq : p ≠ q := by rintro rfl; rw [hempty] at hc; cases hc
    rw [hrootOf c (by rintro rfl; exact hchild p hc)]
    exact h.settled p (hpc p hpq ▸ hp) c hc
  · rw [hchildren, hparent]
    exact h.parents
  · rw [hparent]
    rcases eq_or_ne p q with rfl | hpq
    · -- the new process is in the root container
      replace hr : Option.map _ (s.containers (update s.container p rc p)) = some r := hr
      obtain ⟨C, hC, hCroot⟩ := ht.base
      rw [update_self, hC, map_some, hCroot] at hr
      rw [← some.inj hr]
      exact ht.attached root ht.boot
    · exact h.roots p r (hpc p hpq ▸ hp) (hrootOf p hpq ▸ hr)

/-- An older process that does not exit gets a child. -/
theorem Shape.attach (h : Shape root rank b s)
    {c : P} (holder : rank p < rank c) (hp : s.pc p ≠ .exiting) (hlinked : s.parent p ≠ none) :
    Shape root rank b (attach s p c) := by
  have hchildren : ∀ q x, x ∈ (Proc.attach s p c).children q → q = p ∧ x = c ∨ x ∈ s.children q := by
    intro q x hx
    replace hx : x ∈ update s.children p (c :: s.children p) q := hx
    rcases eq_or_ne q p with rfl | hne
    · rw [update_self] at hx
      exact (mem_cons.mp hx).imp (fun hx => ⟨rfl, hx⟩) id
    · rw [update_of_ne hne] at hx
      exact Or.inr hx
  have hparent : ∀ q, s.parent q ≠ none → (Proc.attach s p c).parent q ≠ none := by
    intro q hq
    show update s.parent c (some p) q ≠ none
    rcases eq_or_ne q c with rfl | hne
    · rw [update_self]
      exact some_ne_none p
    · rwa [update_of_ne hne]
  refine ⟨fun q x hx => ?_, h.eldest, h.home, h.below, h.used, h.unique, fun q hq x hx => ?_,
    fun q hq => hparent q ?_, fun q r hq hr => hparent r (h.roots q r hq hr)⟩
  · rcases hchildren q x hx with ⟨rfl, rfl⟩ | hx
    · exact holder
    · exact h.older q x hx
  · rcases hchildren q x hx with ⟨rfl, -⟩ | hx
    · exact absurd hq hp
    · exact h.settled q hq x hx
  · obtain ⟨x, hx⟩ := exists_mem_of_ne_nil _ hq
    rcases hchildren q x hx with ⟨rfl, -⟩ | hx
    · exact hlinked
    · exact h.parents q (ne_nil_of_mem hx)

/-- A process goes to a container whose root process is older, or itself. -/
theorem Shape.rehome (h : Shape root rank b s) (hsame : s'.children = s.children ∧ s'.parent = s.parent ∧ s'.pc = s.pc ∧ s'.pid = s.pid ∧
      s'.pidmap = s.pidmap) (hother : ∀ p, p ≠ q → (s.pc p).present = true → s'.rootOf p = s.rootOf p)
    (hq : ∀ r, s'.rootOf q = some r → s.parent r ≠ none ∧ (r ≠ q → rank r < rank q))
    (hpresent : ∀ p, ∀ c ∈ s.children p, (s.pc c).present = true)
    (hparent : ∀ p, q ∈ s.children p → s.pc p ≠ .exiting) : Shape root rank b s' := by
  obtain ⟨hchildren, hpar, hpc, hpid, hpidmap⟩ := hsame
  refine ⟨hchildren ▸ h.older, hpc ▸ h.eldest, fun p r hp hr hne => ?_, hpc ▸ h.below, ?_, ?_,
    fun p hp c hc => ?_, ?_, fun p r hp hr => ?_⟩
  · rcases eq_or_ne p q with rfl | hpq
    · exact (hq r hr).2 hne
    · rw [hpc] at hp
      exact h.home p r hp (hother p hpq hp ▸ hr) hne
  · rw [hpc, hpid, hpidmap]
    exact h.used
  · rw [hpc, hpid]
    exact h.unique
  · rw [hchildren] at hc
    rw [hpc] at hp
    have hcq : c ≠ q := by rintro rfl; exact hparent p hc hp
    rw [hother c hcq (hpresent p c hc)]
    exact h.settled p hp c hc
  · rw [hchildren, hpar]
    exact h.parents
  · rw [hpar]
    rcases eq_or_ne p q with rfl | hpq
    · exact (hq r hr).1
    · rw [hpc] at hp
      exact h.roots p r hp (hother p hpq hp ▸ hr)

/-! ## Every section -/

/-- No process exits while a child of it is the root process of a container, and no process is created
    without a pid. -/
def Undisturbed (s : State P K) : Act P K → Prop
  | .exit p _ => ∀ c ∈ s.children p, s.rootOf c ≠ some c
  | .spawn .. | .createContainer .. => (allocPid s.pidmap).1 ≠ -1
  | _ => True

instance (s : State P K) : (a : Act P K) → Decidable (Undisturbed s a)
  | .exit p _ => inferInstanceAs (Decidable (∀ c ∈ s.children p, s.rootOf c ≠ some c))
  | .spawn .. | .createContainer .. => inferInstanceAs (Decidable ((allocPid s.pidmap).1 ≠ -1))
  | .start .. | .check _ | .waitSem _ | .reap _ | .handOver _ | .postParent _ | .toSched _ | .die _ => isTrue trivial

section

variable (h : Shape root rank b s) (hinv : Inv root rc s)
include h hinv

/-- `create_proc` with or without a parent and a container. -/
theorem Shape.spawn (adopt join : Bool)
    (hp : s.pc p = .run) (hq : s.pc q = .absent) (hpid : (allocPid s.pidmap).1 ≠ -1) :
    Shape root (update rank q b) (b + 1) ( let s₁ := createProc rc s q
      let s₂ := if adopt then Proc.attach s₁ p q else s₁
      if join then setContainerToThis s₂ p q else s₂) := by
  have hpq : p ≠ q := by rintro rfl; rw [hp] at hq; cases hq
  have hlt : update rank q b p < update rank q b q := by
    rw [update_of_ne hpq, update_self]
    exact h.below p (by rw [hp]; rfl)
  have hp1 : (createProc rc s q).pc p = .run := (update_of_ne hpq ..).trans hp
  have h1 := h.create hinv.tree hq hpid
  have hinv1 := hinv.create hq
  have h2 := h1.attach hlt (by rw [hp1]; decide) (hinv1.tree.attached p (by rw [hp1]; rfl))
  have hinv2 : Inv root rc (Proc.attach (createProc rc s q) p q) :=
    hinv1.adopt (update_self ..) (update_self ..) (by rw [hp1]; rfl) hpq
  -- joining the creator's container, whose root process is older than the new one
  have hjoin : ∀ {t : State P K}, Shape root (update rank q b) (b + 1) t → Inv root rc t →
      t.pc p = .run → (∀ x, q ∈ t.children x → x = p) →
      Shape root (update rank q b) (b + 1) (setContainerToThis t p q) := by
    intro t ht hinvt hpt hparent
    refine ht.rehome (q := q) ⟨rfl, rfl, rfl, rfl, rfl⟩ (fun x hx _ => ?_) (fun r hr => ?_)
      (fun x c hc => hinvt.tree.child_present hc) (fun x hx => ?_)
    · show Option.map _ (t.containers (update t.container q (t.container p) x)) = _
      rw [update_of_ne hx]
      rfl
    · replace hr : Option.map _ (t.containers (update t.container q (t.container p) q)) = some r := hr
      rw [update_self] at hr
      refine ⟨ht.roots p r (by rw [hpt]; rfl) hr, fun _ => ?_⟩
      rcases eq_or_ne r p with rfl | hrp
      · exact hlt
      · exact (ht.home p r (by rw [hpt]; rfl) hr hrp).trans hlt
    · rw [hparent x hx, hpt]
      decide
  have hnone : ∀ x, q ∉ (createProc rc s q).children x := by
    intro x hx
    have := ((hinv1.tree.linked q x).mp hx).1
    rw [show (createProc rc s q).parent q = none from update_self ..] at this
    cases this
  have hone : ∀ x, q ∈ (Proc.attach (createProc rc s q) p q).children x → x = p := by
    intro x hx
    have := ((hinv2.tree.linked q x).mp hx).1
    rw [attach_parent, some.injEq] at this
    exact this.symm
  cases adopt <;> cases join
  · exact h1
  · exact hjoin h1 hinv1 hp1 fun x hx => absurd hx (hnone x)
  · exact h2
  · exact hjoin h2 hinv2 hp1 hone

/-- `create_container`: the new process is its own root process. -/
theorem Shape.createContainer {k : K} (hp : s.pc p = .run)
    (hq : s.pc q = .absent) (hk : s.containers k = none) (hpid : (allocPid s.pidmap).1 ≠ -1) :
    Shape root (update rank q b) (b + 1) (createContainer rc s p q k) := by
  have hpq : p ≠ q := by rintro rfl; rw [hp] at hq; cases hq
  have hinv2 := hinv.spawn true false hp hq
  have h2 := h.spawn hinv true false hp hq hpid
  let s₁ := Proc.attach (createProc rc s q) p q
  have hpc : s₁.pc p = .run := (update_of_ne hpq ..).trans hp
  have hparent : s₁.parent q = some p := attach_parent ..
  refine h2.rehome (q := q) ⟨rfl, rfl, rfl, rfl, rfl⟩ (fun x hx hpresent => ?_) (fun r hr => ?_)
    (fun x c hc => hinv2.tree.child_present hc) (fun x hx => ?_)
  · -- nobody is in a container that was not there
    have hhome : s₁.container x ≠ k := by
      intro heq
      refine hinv2.tree.homes x hpresent ?_
      show s.containers (s₁.container x) = none
      rw [heq]
      exact hk
    show Option.map _ (update s.containers k _ (update s₁.container q k x)) = _
    rw [update_of_ne hx, update_of_ne hhome]
    rfl
  · replace hr : Option.map Container.rootproc (update s.containers k _ (update s₁.container q k q)) = some r := hr
    rw [update_self, update_self] at hr
    obtain rfl : q = r := Option.some.inj hr
    refine ⟨?_, fun hne => absurd rfl hne⟩
    show s₁.parent q ≠ none
    rw [hparent]
    exact Option.some_ne_none p
  · have := ((hinv2.tree.linked q x).mp hx).1
    replace this : s₁.parent q = some x := this
    rw [hparent, Option.some.injEq] at this
    show s₁.pc x ≠ .exiting
    rw [← this, hpc]
    decide

/-- `start_proc`. -/
theorem Shape.startProc (hq : s.pc q = .created) (hstart : startProc root s q = some s') : Shape root rank b s' := by
  obtain ⟨C, hC, rfl⟩ := map_eq_some_iff.mp hstart
  generalize ht : (if s.parent q = none then Proc.attach s root q else s) = t at hC ⊢
  have hshape : Shape root rank b t ∧ t.pc q = .created := by
    rw [← ht]
    split
    · have hroot := hinv.tree.root_live
      have hne : q ≠ root := by
        rintro rfl
        have := hinv.tree.boot
        rw [hq] at this
        cases this
      refine ⟨h.attach (h.eldest q (by rw [hq]; rfl) hne) ?_ (hinv.tree.attached root hinv.tree.boot), hq⟩
      intro hexit
      rw [hexit] at hroot
      cases hroot
    · exact ⟨h, hq⟩
  refine hshape.1.frame ⟨fun _ _ hc => hc, fun p hp => ?_, fun p => ?_, rfl, fun _ _ hp => hp, fun p hp => ?_,
    fun _ hp _ => hp⟩
  · rcases eq_or_ne p q with rfl | hne
    · rw [hshape.2]
      rfl
    · replace hp : (update t.pc q .run p).present = true := hp
      rwa [update_of_ne hne] at hp
  · show Option.map _ (update t.containers (t.container q) _ (t.container p)) = _
    unfold State.rootOf
    by_cases hcon : t.container p = t.container q
    · rw [hcon, update_self, hC]
      rfl
    · rw [update_of_ne hcon]
  · replace hp : update t.pc q .run p = .exiting := hp
    rcases eq_or_ne p q with rfl | hne
    · rw [update_self] at hp
      cases hp
    · rw [update_of_ne hne] at hp
      exact Or.inl hp

end

/-- A post to a live process. -/
theorem Frame.post {n : Nat} (hb : Balanced (s.pc p) p (s.childexit p) n)
    (hlive : (s.pc p).live = true) (hpost : postChildexit s p = some s') : Frame s s' := by
  obtain ⟨sem, hspec, -⟩ := postChildexit_spec hb
  obtain rfl := some.inj (hspec.symm.trans hpost)
  refine Frame.moved (p := p) rfl ⟨rfl, rfl, rfl, rfl, rfl, rfl⟩ (Pc.present_of_live hlive) ?_
  intro hexit
  have := (s.pc p).woke_keeps.1.trans hlive
  rw [hexit] at this
  cases this

section

variable (h : Shape root rank b s) (hinv : Inv root rc s)
include h hinv

/-- One round of the loop of `exit`: the root process of the child's container is older than the child. -/
theorem Shape.handOver (hp : s.pc p = .exiting) (hstep : handOver s p = some s') : Shape root rank b s' := by
  unfold Proc.handOver at hstep
  split at hstep
  · cases hstep
  · rename_i c rest hlist
    have hmem : c ∈ s.children p := by rw [hlist]; exact mem_cons_self
    obtain ⟨C, hC, hstep⟩ := bind_eq_some_iff.mp hstep
    have hrootOf : s.rootOf c = some C.rootproc := by
      unfold State.rootOf
      rw [hC]
      rfl
    have hne : C.rootproc ≠ c := by
      intro heq
      rw [heq] at hrootOf
      exact h.settled p hp c hmem hrootOf
    have hlive := (hinv.tree.roots _ C hC).2
    have hcut : Frame s { s with children := update s.children p rest } := by
      refine ⟨fun q x hx => ?_, fun _ hq => hq, fun _ => rfl, rfl, fun _ _ hq => hq, fun _ hq => Or.inl hq,
        fun _ hq _ => hq⟩
      replace hx : x ∈ update s.children p rest q := hx
      rcases eq_or_ne q p with rfl | hqp
      · rw [update_self] at hx
        rw [hlist]
        exact mem_cons_of_mem c hx
      · rwa [update_of_ne hqp] at hx
    have hattach := (h.frame hcut).attach
      (h.home c _ (hinv.tree.child_present hmem) hrootOf hne) (p := C.rootproc) (by
        intro hexit
        replace hexit : s.pc C.rootproc = .exiting := hexit
        rw [hexit] at hlive
        cases hlive) (h.roots c _ (hinv.tree.child_present hmem) hrootOf)
    split at hstep
    · exact hattach.frame (Frame.post (hinv.books _ hlive) hlive hstep)
    · cases hstep
      exact hattach

/-- The section of `wait` under `plock`. -/
theorem Frame.reap (hp : s.pc p = .got) (hplock : s.plock = none) (hsch : s.schlock = none) : Frame s (reap s p) := by
  obtain ⟨z, hfind, hmem, hz⟩ := hinv.findZombie hp hplock hsch
  have hpc : (Proc.reap s p).pc = update (update s.pc z .reaped) p .run := by
    unfold Proc.reap
    rw [hfind]
  have hzp : z ≠ p := by rintro rfl; rw [hp] at hz; cases hz
  have hpres : ∀ q, ((Proc.reap s p).pc q).present = true → q ≠ z ∧ (s.pc q).present = true := by
    intro q hq
    rw [hpc] at hq
    rcases eq_or_ne q p with rfl | hqp
    · exact ⟨hzp.symm, by rw [hp]; rfl⟩
    · rw [update_of_ne hqp] at hq
      rcases eq_or_ne q z with rfl | hqz
      · rw [update_self] at hq
        cases hq
      · rw [update_of_ne hqz] at hq
        exact ⟨hqz, hq⟩
  have hsub : ∀ q, ∀ c ∈ (Proc.reap s p).children q, c ∈ s.children q := by
    intro q c hc
    unfold Proc.reap at hc
    rw [hfind] at hc
    replace hc : c ∈ update s.children p ((s.children p).erase z) q := hc
    rcases eq_or_ne q p with rfl | hqp
    · rw [update_self] at hc
      exact mem_of_mem_erase hc
    · rwa [update_of_ne hqp] at hc
  have hrootOf : ∀ q, (Proc.reap s p).rootOf q = s.rootOf q := by
    intro q
    unfold Proc.reap
    rw [hfind]
    show Option.map _ (if s.container q = s.container z then (s.containers (s.container q)).map _ else
      s.containers (s.container q)) = _
    split
    · rw [Option.map_map]
      rfl
    · rfl
  refine ⟨hsub, fun q hq => (hpres q hq).2, hrootOf, ?_, fun q hq hused => ?_, fun q hq => ?_,
    fun q hq hneeds => ?_⟩
  · unfold Proc.reap
    rw [hfind]
  · -- the freed pid is nobody else's
    obtain ⟨hqz, hpresent⟩ := hpres q hq
    have hzpresent : (s.pc z).present = true := by rw [hz]; rfl
    have hpos := (h.used z hzpresent).1
    have hdiff : (s.pid q).toNat ≠ (s.pid z).toNat := fun heq =>
      hqz (h.unique q z hpresent hzpresent (by omega))
    unfold Proc.reap
    rw [hfind]
    show _ ∈ freePid s.pidmap (s.pid z)
    rw [freePid, if_pos hpos]
    exact (mem_erase_of_ne hdiff).mpr hused
  · rw [hpc] at hq
    rcases eq_or_ne q p with rfl | hqp
    · rw [update_self] at hq
      cases hq
    · rw [update_of_ne hqp] at hq
      rcases eq_or_ne q z with rfl | hqz
      · rw [update_self] at hq
        cases hq
      · rw [update_of_ne hqz] at hq
        exact Or.inl hq
  · -- the reaped process has no children and is no root process
    have hqz : q ≠ z := by
      rintro rfl
      rcases hneeds with hchildren | ⟨x, hx⟩
      · obtain ⟨c, hc⟩ := exists_mem_of_ne_nil _ hchildren
        rcases hinv.tree.parents q (ne_nil_of_mem (hsub q c hc)) with hl | he
        · rw [hz] at hl; cases hl
        · rw [hz] at he; cases he
      · rw [hrootOf x] at hx
        obtain ⟨C, hC, hCroot⟩ := map_eq_some_iff.mp hx
        have hl := (hinv.tree.roots _ C hC).2
        rw [hCroot, hz] at hl
        cases hl
    unfold Proc.reap
    rw [hfind]
    show update s.parent z none q ≠ none
    rwa [update_of_ne hqz]

theorem step_shape {a : Act P K} (hcond : Undisturbed s a)
    (hstep : step root rc s a = some s') : ∃ rank' b', Shape root rank' b' s' := by
  cases a with
  | spawn p q adopt join =>
    obtain ⟨⟨hp, hq, -⟩, rfl⟩ := of_guard hstep
    exact ⟨_, _, h.spawn hinv adopt join hp hq hcond⟩
  | createContainer p q k =>
    obtain ⟨⟨hp, hq, hk, -⟩, rfl⟩ := of_guard hstep
    exact ⟨_, _, h.createContainer hinv hp hq hk hcond⟩
  | start p q =>
    obtain ⟨⟨-, hq, -⟩, hstep⟩ := ite_none_right_eq_some.mp hstep
    exact ⟨_, _, h.startProc hinv hq hstep⟩
  | check p =>
    obtain ⟨⟨hp, -⟩, rfl⟩ := of_guard hstep
    exact ⟨_, _, h.frame (.moved (p := p) rfl ⟨rfl, rfl, rfl, rfl, rfl, rfl⟩ (by rw [hp]; rfl) fun hno => by
      cases hno)⟩
  | waitSem p =>
    obtain ⟨hp, rfl⟩ := of_guard hstep
    refine ⟨_, _, h.frame (.moved (p := p) rfl ⟨rfl, rfl, rfl, rfl, rfl, rfl⟩ (by rw [hp]; rfl) fun hno => ?_)⟩
    split at hno <;> cases hno
  | reap p =>
    obtain ⟨⟨hp, hplock, hsch⟩, rfl⟩ := of_guard hstep
    exact ⟨_, _, h.frame (Frame.reap h hinv hp hplock hsch)⟩
  | exit p code =>
    obtain ⟨⟨hp, -⟩, hstep⟩ := ite_none_right_eq_some.mp hstep
    obtain ⟨C, -, hstep⟩ := bind_eq_some_iff.mp hstep
    obtain ⟨-, rfl⟩ := of_guard hstep
    exact ⟨_, _, h.frame (.moved (p := p) rfl ⟨rfl, rfl, rfl, rfl, rfl, rfl⟩ (by rw [hp]; rfl) fun _ =>
      Or.inr hcond)⟩
  | handOver p =>
    obtain ⟨⟨hp, -⟩, hstep⟩ := ite_none_right_eq_some.mp hstep
    exact ⟨_, _, h.handOver hinv hp hstep⟩
  | postParent p =>
    obtain ⟨⟨hp, hempty⟩, hstep⟩ := ite_none_right_eq_some.mp hstep
    obtain ⟨q, hq, hstep⟩ := bind_eq_some_iff.mp hstep
    obtain ⟨s₁, hpost, rfl⟩ := map_eq_some_iff.mp hstep
    obtain ⟨hlive, -⟩ := hinv.parent_live hp hempty hq
    have h1 := h.frame (Frame.post (hinv.books q hlive) hlive hpost)
    have hp1 : (s₁.pc p).present = true := by
      have hqp : p ≠ q := by rintro rfl; rw [hp] at hlive; cases hlive
      obtain ⟨sem, hspec, -⟩ := postChildexit_spec (hinv.books q hlive)
      obtain rfl := some.inj (hspec.symm.trans hpost)
      show (update s.pc q _ p).present = true
      rw [update_of_ne hqp, hp]
      rfl
    exact ⟨_, _, h1.frame (.moved (p := p) rfl ⟨rfl, rfl, rfl, rfl, rfl, rfl⟩ hp1 fun hno => by cases hno)⟩
  | toSched p =>
    obtain ⟨⟨hp, -⟩, rfl⟩ := of_guard hstep
    exact ⟨_, _, h.frame (.moved (p := p) rfl ⟨rfl, rfl, rfl, rfl, rfl, rfl⟩ (by rw [hp]; rfl) fun hno => by
      cases hno)⟩
  | die p =>
    obtain ⟨hp, rfl⟩ := of_guard hstep
    exact ⟨_, _, h.frame (.moved (p := p) rfl ⟨rfl, rfl, rfl, rfl, rfl, rfl⟩ (by rw [hp]; rfl) fun hno => by
      cases hno)⟩

end

theorem boot_shape (root : P) (rc : K) :
    Shape root (fun p => if p = root then 0 else 1) 1 (boot root rc : State P K) := by
  have hpresent : ∀ p, ((boot root rc : State P K).pc p).present = true → p = root := by
    intro p hp
    by_contra hne
    rw [show (boot root rc : State P K).pc p = .absent from if_neg hne] at hp
    cases hp
  refine ⟨fun q c hc => absurd hc not_mem_nil, fun p hp hne => absurd (hpresent p hp) hne,
    fun p r hp hr hne => ?_, fun p hp => ?_, fun _ _ => ⟨Int.one_pos, mem_singleton.mpr rfl⟩,
    fun p q hp hq _ => (hpresent p hp).trans (hpresent q hq).symm,
    fun p _ c hc => absurd hc not_mem_nil, fun q hq => absurd rfl hq, fun p r hp hr => ?_⟩
  all_goals obtain rfl := hpresent p hp
  · replace hr : Option.map Container.rootproc (if rc = rc then some _ else none) = some r := hr
    rw [if_pos rfl] at hr
    exact absurd (some.inj hr).symm hne
  · show (if p = p then 0 else 1) < 1
    rw [if_pos rfl]
    exact Nat.one_pos
  · replace hr : Option.map Container.rootproc (if rc = rc then some _ else none) = some r := hr
    rw [if_pos rfl] at hr
    rw [← some.inj hr]
    show (if p = p then some p else none) ≠ none
    rw [if_pos rfl]
    exact some_ne_none p

/-! ## The tree -/

/-- There is nothing to find below a process without children. -/
theorem traverseProc_leaf {c : P} {pid : Int} {n : Nat} (h : s.children p = []) :
    traverseProc s pid n p ≠ some (some c) := by
  intro hfind
  cases n with
  | zero => cases hfind
  | succ n =>
    replace hfind : Forest.searchAll _ _ (s.children p) = some (some c) := hfind
    rw [h] at hfind
    cases hfind

/-- Process 1 creates a container and exits: the root process 2 of that container is its own parent, no
    way up from it leads to the root, and `kill` does not find it. -/
theorem container_root_cut_off : ∃ s : State Nat Nat,
    run (step 0 0) (boot 0 0)
      [.spawn 0 1 true true, .start 0 1, .createContainer 1 2 5, .start 1 2, .exit 1 0, .handOver 1,
        .postParent 1, .toSched 1, .die 1, .check 0, .waitSem 0, .reap 0] = some s ∧
      s.pc 2 = .run ∧ s.parent 2 = some 2 ∧ (∀ n, s.up^[n] 2 ≠ 0) ∧
      ∀ n, traverseProc s (s.pid 2) n 0 ≠ some (some 2) := by
  refine ⟨_, rfl, rfl, rfl, fun n => ?_, fun n => traverseProc_leaf rfl⟩
  rw [Function.iterate_fixed (by rfl)]
  decide

/-- In every run in which no process exits while a child of it is the root process of a container, and no
    process is created without a pid: from every started process the parent pointers lead to the root
    process and meet nobody twice before, the lists of children are the parent pointers (of all but the
    root process, which is its own parent and on no list), and `traverse_proc` ends for every pid and
    finds every started process but the root one by its pid. -/
theorem process_tree {root : P} {rc : K} {as : List (Act P K)} {s : State P K}
    (hrun : run (step root rc) (boot root rc) as = some s)
    (hmeets : RunMeets (step root rc) Undisturbed (boot root rc) as) :
    (∀ p, (s.pc p).started = true →
      ∃ n, s.up^[n] p = root ∧ ∀ i j, i < j → j ≤ n → s.up^[i] p ≠ s.up^[j] p) ∧
    (∀ p q, p ≠ root → (p ∈ s.children q ↔ s.parent p = some q)) ∧ (∀ q, root ∉ s.children q) ∧
    (∃ N, ∀ n, N ≤ n → (∀ pid, ∃ r, traverseProc s pid n root = some r) ∧
      ∀ p, (s.pc p).started = true → p ≠ root → traverseProc s (s.pid p) n root = some (some p)) := by
  obtain ⟨hinv, rank, b, h⟩ : Inv root rc s ∧ ∃ rank b, Shape root rank b s :=
    run_invariant (I := fun s => Inv root rc s ∧ ∃ rank b, Shape root rank b s)
      (fun _ _ _ ⟨hinv, _, _, h⟩ hcond hstep => ⟨step_inv hinv hstep, step_shape h hinv hcond hstep⟩)
      as _ s ⟨boot_inv root rc, _, _, boot_shape root rc⟩ hmeets hrun
  have hlinked : ∀ p q, p ≠ root → (p ∈ s.children q ↔ s.parent p = some q) := fun p q hp =>
    (hinv.tree.linked p q).trans (and_iff_left hp)
  have hup : ∀ p, s.parent p ≠ none → p ≠ root →
      s.parent (s.up p) ≠ none ∧ rank (s.up p) < rank p ∧ p ∈ s.children (s.up p) := by
    intro p hp hne
    obtain ⟨q, hq⟩ := ne_none_iff_exists'.mp hp
    have hmem : p ∈ s.children q := (hlinked p q hne).mpr hq
    rw [State.up, hq, getD_some]
    exact ⟨h.parents q (ne_nil_of_mem hmem), h.older q p hmem, hmem⟩
  have hrank : ∀ q, ∀ c ∈ s.children q, rank q < rank c ∧ rank c < b := fun q c hc =>
    ⟨h.older q c hc, h.below c (hinv.tree.child_present hc)⟩
  refine ⟨fun p hp => ?_, hlinked, fun q hq => ((hinv.tree.linked root q).mp hq).2 rfl,
    b - rank root + 1, fun n hn => ⟨fun pid => Forest.search_ends hrank hn, fun p hp hne => ?_⟩⟩
  · exact Forest.climb (fun p hp hne => ⟨(hup p hp hne).1, (hup p hp hne).2.1⟩) (hinv.tree.attached p hp)
  · have hpresent : (s.pc p).present = true := by
      generalize s.pc p = c at hp
      cases c <;> first | rfl | cases hp
    refine Forest.search_finds hrank hn (Forest.below_root hup (hinv.tree.attached p hp) hne)
      (decide_eq_true rfl) fun q c hc hpid => ?_
    exact h.unique c p (hinv.tree.child_present hc) hpresent (of_decide_eq_true hpid)

/-- A process leaves a child to the root process of its container, and a container stays where it is. -/
theorem process_tree_handOver : ∃ s : State Nat Nat,
    run (step 0 0) (boot 0 0)
      [.spawn 0 1 true true, .start 0 1, .createContainer 0 2 5, .start 0 2, .spawn 1 3 true true,
        .start 1 3, .exit 1 0, .handOver 1, .postParent 1, .toSched 1, .die 1] = some s ∧
      s.parent 3 = some 0 ∧ (∃ n, s.up^[n] 3 = 0) ∧
      ∃ N, ∀ n, N ≤ n → traverseProc s (s.pid 3) n 0 = some (some 3) := by
  refine exists_run (P := fun s => s.parent 3 = some 0 ∧ (s.pc 3).started = true) rfl fun s hrun ⟨hparent, hstarted⟩ => ?_
  obtain ⟨hclimb, -, -, N, hfind⟩ := process_tree hrun (by decide)
  obtain ⟨n, hn, -⟩ := hclimb 3 hstarted
  exact ⟨hparent, ⟨n, hn⟩, N, fun n hle => (hfind n hle).2 3 hstarted (by decide)⟩

end Armv8Os.Proc
