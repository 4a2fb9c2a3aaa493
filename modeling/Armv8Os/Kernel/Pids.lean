/-
  The names of processes: `pid` from the global `pidmap`, `localpid` from the map of the container.

  1. `Names` is what the naming depends on.  A section of `proc.c` creates, starts or reaps a process there, or leaves it as it is:
     `step_names`.
  2. `alloc_pid` returns -1 when all pids are in use, and nobody looks at it: the next processes are all called -1
     (`pids_exhausted`).  As long as the maps do not run out, the names of the processes are different (`pids_unique`).
  3. `fork` returns the `pid` of the child; `gettid` in the child and `wait` in the parent return its `localpid`.  The two maps go
     their own ways (`fork_names_differ`); the names are the same if they agree at the time of the fork (`fork_names_child`).
-/
import Armv8Os.Kernel.WaitExit

set_option linter.unusedSectionVars false

namespace Armv8Os.Proc

open Sem Transition
open Function (update update_comm update_eq_self update_idem update_of_ne update_self)

variable {P K : Type}

/-! ## Names -/

inductive Phase where
  | absent
  | created
  | started
  | reaped
  deriving DecidableEq

def Pc.phase : Pc → Phase
  | .absent => .absent
  | .created => .created
  | .reaped => .reaped
  | _ => .started

theorem Pc.present_eq_true {c : Pc} : c.present = true ↔ c.phase = .created ∨ c.phase = .started := by
  cases c <;> decide

theorem Pc.started_eq_true {c : Pc} : c.started = true ↔ c.phase = .started := by
  cases c <;> decide

@[ext] structure Names (P K : Type) where
  phase : P → Phase
  pid : P → Int
  localpid : P → Int
  container : P → K
  pidmap : List Nat
  localmaps : K → Option (List Nat)

def State.names (s : State P K) : Names P K :=
  { phase := fun p => (s.pc p).phase, pid := s.pid, localpid := s.localpid, container := s.container, pidmap := s.pidmap,
    localmaps := fun k => (s.containers k).map (·.localpidmap) }

variable {root q : P} {rc : K}

section Moves

variable [DecidableEq P] [DecidableEq K]

/-- `create_proc`, and the container the process is put into. -/
def Names.create (n : Names P K) (q : P) (k : K) : Names P K :=
  { n with
    phase := update n.phase q .created
    pid := update n.pid q (allocPid n.pidmap).1
    localpid := update n.localpid q 0
    container := update n.container q k
    pidmap := (allocPid n.pidmap).2 }

/-- `init_container`. -/
def Names.openMap (n : Names P K) (k : K) : Names P K := { n with localmaps := update n.localmaps k (some []) }

/-- `start_proc`. -/
def Names.begin (n : Names P K) (q : P) (map : List Nat) : Names P K :=
  { n with
    phase := update n.phase q .started
    localpid := update n.localpid q (allocPid map).1
    localmaps := update n.localmaps (n.container q) (some (allocPid map).2) }

/-- The two calls of `free_pid` in `wait`. -/
def Names.forget (n : Names P K) (z : P) : Names P K :=
  { n with
    phase := update n.phase z .reaped
    pidmap := freePid n.pidmap (n.pid z)
    localmaps := fun k =>
      if k = n.container z then (n.localmaps k).map fun map => freePid map (n.localpid z) else n.localmaps k }

theorem phase_update (pc : P → Pc) (p : P) (c : Pc) :
    (fun x => (update pc p c x).phase) = update (fun x => (pc x).phase) p c.phase := by
  funext x
  rcases eq_or_ne x p with rfl | hx
  · rw [update_self, update_self]
  · rw [update_of_ne hx, update_of_ne hx]

variable {s s' : State P K} {p : P}

/-- A process moves on between its start and its end. -/
theorem names_moved {c : Pc} (hpc : s'.pc = update s.pc p c) (hphase : c.phase = (s.pc p).phase)
    (hsame : s'.pid = s.pid ∧ s'.localpid = s.localpid ∧ s'.container = s.container ∧ s'.pidmap = s.pidmap ∧
      s'.containers = s.containers) : s'.names = s.names := by
  obtain ⟨hpid, hlocal, hcontainer, hpidmap, hcontainers⟩ := hsame
  unfold State.names
  rw [hpc, phase_update, hphase, update_eq_self, hpid, hlocal, hcontainer, hpidmap, hcontainers]

theorem names_post {n : Nat} (hb : Balanced (s.pc p) p (s.childexit p) n)
    (hpost : postChildexit s p = some s') : s'.names = s.names := by
  obtain ⟨sem, hspec, -⟩ := postChildexit_spec hb
  obtain rfl := Option.some.inj (hspec.symm.trans hpost)
  refine names_moved (p := p) rfl ?_ ⟨rfl, rfl, rfl, rfl, rfl⟩
  cases s.pc p <;> rfl

theorem names_handOver (hinv : Inv root rc s) (hstep : handOver s p = some s') :
    s'.names = s.names := by
  unfold handOver at hstep
  split at hstep
  · cases hstep
  · obtain ⟨C, hC, hstep⟩ := Option.bind_eq_some_iff.mp hstep
    split at hstep
    · have hlive := (hinv.tree.roots _ C hC).2
      exact names_post (s := attach { s with children := _ } C.rootproc _) (hinv.books _ hlive) hstep
    · cases hstep
      rfl

theorem names_create (rc : K) (s : State P K) (q : P) : (createProc rc s q).names = s.names.create q rc := by
  unfold State.names Names.create createProc
  rw [phase_update]
  rfl

theorem names_spawn (rc : K) (s : State P K) (p q : P) (adopt join : Bool) (hpq : p ≠ q) :
    (let s₁ := createProc rc s q
      let s₂ := if adopt then attach s₁ p q else s₁
      if join then setContainerToThis s₂ p q else s₂).names = s.names.create q (if join then s.container p else rc) := by
  have hcreate := names_create rc s q
  have hattach : (attach (createProc rc s q) p q).names = s.names.create q rc := hcreate
  have hjoin {t : State P K} (ht : t.names = s.names.create q rc) :
      (setContainerToThis t p q).names = s.names.create q (s.container p) := by
    have hcontainer : t.container = update s.container q rc := congrArg Names.container ht
    have hset : (setContainerToThis t p q).names =
        { t.names with container := update t.container q (t.container p) } := rfl
    rw [hset, ht, hcontainer, update_of_ne hpq, update_idem]
    rfl
  cases adopt <;> cases join
  · exact hcreate
  · exact hjoin hcreate
  · exact hattach
  · exact hjoin hattach

theorem names_createContainer (rc : K) (s : State P K) (p q : P) (k : K) :
    (createContainer rc s p q k).names = (s.names.openMap k).create q k := by
  unfold State.names createContainer Names.openMap Names.create createProc attach
  dsimp only
  rw [phase_update, update_idem]
  congr 1
  funext x
  rcases eq_or_ne x k with rfl | hx
  · rw [update_self, update_self]
    rfl
  · rw [update_of_ne hx, update_of_ne hx]

theorem names_startProc (hstep : startProc root s q = some s') :
    ∃ map, s.names.localmaps (s.container q) = some map ∧ s'.names = s.names.begin q map := by
  unfold startProc at hstep
  generalize ht : (if s.parent q = none then attach s root q else s) = t at hstep
  have hnames : t.names = s.names := by
    rw [← ht]
    split <;> rfl
  have hcontainer : t.container = s.container := congrArg Names.container hnames
  obtain ⟨C, hC, rfl⟩ := Option.map_eq_some_iff.mp hstep
  refine ⟨C.localpidmap, ?_, ?_⟩
  · rw [← hnames, ← hcontainer]
    show (t.containers (t.container q)).map _ = _
    rw [hC]
    rfl
  · rw [← hnames]
    unfold State.names Names.begin
    dsimp only
    rw [phase_update]
    congr 1
    funext x
    rcases eq_or_ne x (t.container q) with rfl | hx
    · rw [update_self, update_self]
      rfl
    · rw [update_of_ne hx, update_of_ne hx]

theorem names_reap {z : P} (hp : s.pc p = .got) (hfind : s.findZombie p = some z) (hz : s.pc z = .zombie) :
    (reap s p).names = s.names.forget z := by
  have hpz : p ≠ z := by
    rintro rfl
    rw [hp] at hz
    cases hz
  unfold reap
  rw [hfind]
  unfold State.names Names.forget
  dsimp only
  rw [phase_update, phase_update]
  congr 1
  · rw [update_comm hpz.symm, show (Pc.run).phase = (s.pc p).phase by rw [hp]; rfl, update_eq_self]
    rfl
  · funext k
    split
    · rw [Option.map_map, Option.map_map]
      rfl
    · rfl

/-- What a section does to the names. -/
theorem step_names {a : Act P K} (hinv : Inv root rc s) (hstep : step root rc s a = some s') :
    s'.names = s.names ∨
    (∃ p q adopt join, a = .spawn p q adopt join ∧ s.pc q = .absent ∧
      s'.names = s.names.create q (if join then s.container p else rc)) ∨
    (∃ p q k, a = .createContainer p q k ∧ s.pc q = .absent ∧ s.containers k = none ∧
      s'.names = (s.names.openMap k).create q k) ∨
    (∃ p q map, a = .start p q ∧ s.pc q = .created ∧ s.names.localmaps (s.container q) = some map ∧
      s'.names = s.names.begin q map) ∨
    ∃ p z, a = .reap p ∧ s.findZombie p = some z ∧ s.pc z = .zombie ∧ s'.names = s.names.forget z := by
  cases a with
  | spawn p q adopt join =>
    obtain ⟨⟨hp, hq, -⟩, rfl⟩ := of_guard hstep
    have hpq : p ≠ q := by rintro rfl; rw [hp] at hq; cases hq
    exact .inr (.inl ⟨p, q, adopt, join, rfl, hq, names_spawn rc s p q adopt join hpq⟩)
  | createContainer p q k =>
    obtain ⟨⟨-, hq, hk, -⟩, rfl⟩ := of_guard hstep
    exact .inr (.inr (.inl ⟨p, q, k, rfl, hq, hk, names_createContainer rc s p q k⟩))
  | start p q =>
    obtain ⟨⟨-, hq, -⟩, hstep⟩ := Option.ite_none_right_eq_some.mp hstep
    obtain ⟨map, hmap, hnames⟩ := names_startProc hstep
    exact .inr (.inr (.inr (.inl ⟨p, q, map, rfl, hq, hmap, hnames⟩)))
  | check p =>
    obtain ⟨⟨hp, -⟩, rfl⟩ := of_guard hstep
    exact .inl (names_moved (p := p) rfl (by rw [hp]; rfl) ⟨rfl, rfl, rfl, rfl, rfl⟩)
  | waitSem p =>
    obtain ⟨hp, rfl⟩ := of_guard hstep
    refine .inl (names_moved (p := p) rfl ?_ ⟨rfl, rfl, rfl, rfl, rfl⟩)
    rw [hp]
    split <;> rfl
  | reap p =>
    obtain ⟨⟨hp, hplock, hsch⟩, rfl⟩ := of_guard hstep
    obtain ⟨z, hfind, -, hz⟩ := hinv.findZombie hp hplock hsch
    exact .inr (.inr (.inr (.inr ⟨p, z, rfl, hfind, hz, names_reap hp hfind hz⟩)))
  | exit p code =>
    obtain ⟨⟨hp, -⟩, hstep⟩ := Option.ite_none_right_eq_some.mp hstep
    obtain ⟨C, -, hstep⟩ := Option.bind_eq_some_iff.mp hstep
    obtain ⟨-, rfl⟩ := of_guard hstep
    exact .inl (names_moved (p := p) rfl (by rw [hp]; rfl) ⟨rfl, rfl, rfl, rfl, rfl⟩)
  | handOver p =>
    obtain ⟨-, hstep⟩ := Option.ite_none_right_eq_some.mp hstep
    exact .inl (names_handOver hinv hstep)
  | postParent p =>
    obtain ⟨⟨hp, hempty⟩, hstep⟩ := Option.ite_none_right_eq_some.mp hstep
    obtain ⟨q, hq, hstep⟩ := Option.bind_eq_some_iff.mp hstep
    obtain ⟨s₁, hpost, rfl⟩ := Option.map_eq_some_iff.mp hstep
    obtain ⟨hlive, -⟩ := hinv.parent_live hp hempty hq
    have hpost := names_post (hinv.books q hlive) hpost
    have hphase : (s₁.pc p).phase = .started := by
      rw [show (s₁.pc p).phase = (s.pc p).phase from congrFun (congrArg Names.phase hpost) p, hp]
      rfl
    have hmoved : (s₁.setPc p .posted).names = s₁.names := names_moved (p := p) rfl hphase.symm ⟨rfl, rfl, rfl, rfl, rfl⟩
    exact .inl (hmoved.trans hpost)
  | toSched p =>
    obtain ⟨⟨hp, -⟩, rfl⟩ := of_guard hstep
    exact .inl (names_moved (p := p) rfl (by rw [hp]; rfl) ⟨rfl, rfl, rfl, rfl, rfl⟩)
  | die p =>
    obtain ⟨hp, rfl⟩ := of_guard hstep
    exact .inl (names_moved (p := p) rfl (by rw [hp]; rfl) ⟨rfl, rfl, rfl, rfl, rfl⟩)

end Moves

/-! ## Different names -/

/-- Every process has a pid of its own that is marked in the map, and every started one a local pid in the map of its container. -/
structure Distinct (n : Names P K) : Prop where
  pid : ∀ p, n.phase p = .created ∨ n.phase p = .started → ∃ i : Nat, 0 < i ∧ i < pidMax ∧ n.pid p = i ∧ i ∈ n.pidmap
  pid_inj : ∀ p q, n.phase p = .created ∨ n.phase p = .started → n.phase q = .created ∨ n.phase q = .started →
    n.pid p = n.pid q → p = q
  localpid : ∀ p, n.phase p = .started →
    ∃ (i : Nat) (map : List Nat), 0 < i ∧ i < pidMax ∧ n.localpid p = i ∧ n.localmaps (n.container p) = some map ∧ i ∈ map
  localpid_inj : ∀ p q, n.phase p = .started → n.phase q = .started → n.container p = n.container q →
    n.localpid p = n.localpid q → p = q
  unnamed : ∀ p, n.phase p = .created → n.localpid p = 0

section Distinct

variable [DecidableEq P] [DecidableEq K] {n : Names P K}

theorem Distinct.openMap (h : Distinct n) {k : K} (hk : n.localmaps k = none) : Distinct (n.openMap k) := by
  refine ⟨h.pid, h.pid_inj, ?_, h.localpid_inj, h.unnamed⟩
  intro p hp
  obtain ⟨i, map, hpos, hlt, hname, hmap, hmem⟩ := h.localpid p hp
  have hne : n.container p ≠ k := by
    rintro rfl
    rw [hk] at hmap
    cases hmap
  exact ⟨i, map, hpos, hlt, hname, (update_of_ne hne ..).trans hmap, hmem⟩

/-- The new pid was not in use. -/
theorem Distinct.create (h : Distinct n) (k : K) (hq : n.phase q = .absent) (hpid : (allocPid n.pidmap).1 ≠ -1) :
    Distinct (n.create q k) := by
  obtain ⟨i, hpos, hlt, hfree, halloc⟩ := allocPid_spec hpid
  have hphase : (n.create q k).phase q = .created := update_self ..
  have hname : (n.create q k).pid q = i := (update_self ..).trans (by rw [halloc])
  have hmap : (n.create q k).pidmap = i :: n.pidmap := by
    show (allocPid n.pidmap).2 = _
    rw [halloc]
  have hother {p : P} (hp : p ≠ q) : (n.create q k).phase p = n.phase p ∧ (n.create q k).pid p = n.pid p ∧
      (n.create q k).localpid p = n.localpid p ∧ (n.create q k).container p = n.container p :=
    ⟨update_of_ne hp .., update_of_ne hp .., update_of_ne hp .., update_of_ne hp ..⟩
  have hstarted {p : P} (hp : (n.create q k).phase p = .started) : p ≠ q := by
    rintro rfl
    rw [hphase] at hp
    cases hp
  -- nobody else has the new pid
  have hnew {p : P} (hp : p ≠ q) (hin : n.phase p = .created ∨ n.phase p = .started) : n.pid p ≠ i := by
    intro heq
    obtain ⟨j, -, -, hj, hmem⟩ := h.pid p hin
    rw [hj] at heq
    exact hfree (Int.natCast_inj.mp heq ▸ hmem)
  constructor
  · intro p hp
    rw [hmap]
    rcases eq_or_ne p q with rfl | hne
    · exact ⟨i, hpos, hlt, hname, List.mem_cons_self⟩
    · obtain ⟨hph, hpi, -, -⟩ := hother hne
      rw [hph] at hp
      obtain ⟨j, hjpos, hjlt, hj, hmem⟩ := h.pid p hp
      exact ⟨j, hjpos, hjlt, hpi.trans hj, List.mem_cons_of_mem _ hmem⟩
  · intro p p' hp hp' heq
    by_contra hne
    rcases eq_or_ne p q with rfl | hpq
    · obtain ⟨hph, hpi, -, -⟩ := hother (Ne.symm hne)
      rw [hname, hpi] at heq
      rw [hph] at hp'
      exact hnew (Ne.symm hne) hp' heq.symm
    · obtain ⟨hph, hpi, -, -⟩ := hother hpq
      rw [hph] at hp
      rw [hpi] at heq
      rcases eq_or_ne p' q with rfl | hpq'
      · rw [hname] at heq
        exact hnew hpq hp heq
      · obtain ⟨hph', hpi', -, -⟩ := hother hpq'
        rw [hph'] at hp'
        rw [hpi'] at heq
        exact hne (h.pid_inj p p' hp hp' heq)
  · intro p hp
    obtain ⟨hph, -, hlo, hco⟩ := hother (hstarted hp)
    rw [hph] at hp
    rw [hlo, hco]
    exact h.localpid p hp
  · intro p p' hp hp' hcon heq
    obtain ⟨hph, -, hlo, hco⟩ := hother (hstarted hp)
    obtain ⟨hph', -, hlo', hco'⟩ := hother (hstarted hp')
    rw [hph] at hp
    rw [hph'] at hp'
    rw [hco, hco'] at hcon
    rw [hlo, hlo'] at heq
    exact h.localpid_inj p p' hp hp' hcon heq
  · intro p hp
    rcases eq_or_ne p q with rfl | hne
    · exact update_self ..
    · obtain ⟨hph, -, hlo, -⟩ := hother hne
      rw [hph] at hp
      rw [hlo]
      exact h.unnamed p hp

/-- The new local pid was not in use in this container. -/
theorem Distinct.begin (h : Distinct n) {map : List Nat} (hq : n.phase q = .created)
    (hmap : n.localmaps (n.container q) = some map) (hpid : (allocPid map).1 ≠ -1) : Distinct (n.begin q map) := by
  obtain ⟨i, hpos, hlt, hfree, halloc⟩ := allocPid_spec hpid
  have hname : (n.begin q map).localpid q = i := (update_self ..).trans (by rw [halloc])
  have hphase {p : P} (hp : p ≠ q) : (n.begin q map).phase p = n.phase p := update_of_ne hp ..
  have hlocal {p : P} (hp : p ≠ q) : (n.begin q map).localpid p = n.localpid p := update_of_ne hp ..
  have hpresent {p : P} (hp : (n.begin q map).phase p = .created ∨ (n.begin q map).phase p = .started) :
      n.phase p = .created ∨ n.phase p = .started := by
    rcases eq_or_ne p q with rfl | hne
    · exact .inl hq
    · rwa [hphase hne] at hp
  have hqmap : (n.begin q map).localmaps (n.container q) = some (i :: map) :=
    (update_self ..).trans (by rw [halloc])
  have hnew {p : P} (hp : n.phase p = .started) (hcon : n.container p = n.container q) : n.localpid p ≠ i := by
    intro heq
    obtain ⟨j, map', -, -, hj, hmap', hmem⟩ := h.localpid p hp
    rw [hcon, hmap] at hmap'
    rw [hj] at heq
    exact hfree (Int.natCast_inj.mp heq ▸ Option.some.inj hmap' ▸ hmem)
  constructor
  · exact fun p hp => h.pid p (hpresent hp)
  · exact fun p p' hp hp' heq => h.pid_inj p p' (hpresent hp) (hpresent hp') heq
  · intro p hp
    rcases eq_or_ne p q with rfl | hne
    · exact ⟨i, i :: map, hpos, hlt, hname, hqmap, List.mem_cons_self⟩
    · rw [hphase hne] at hp
      obtain ⟨j, map', hjpos, hjlt, hj, hmap', hmem⟩ := h.localpid p hp
      rw [hlocal hne]
      by_cases hcon : n.container p = n.container q
      · rw [hcon, hmap] at hmap'
        cases hmap'
        exact ⟨j, i :: map, hjpos, hjlt, hj, (congrArg _ hcon).trans hqmap, List.mem_cons_of_mem _ hmem⟩
      · exact ⟨j, map', hjpos, hjlt, hj, (update_of_ne hcon ..).trans hmap', hmem⟩
  · intro p p' hp hp' hcon heq
    by_contra hne
    rcases eq_or_ne p q with rfl | hpq
    · rw [hphase (Ne.symm hne)] at hp'
      rw [hname, hlocal (Ne.symm hne)] at heq
      exact hnew hp' hcon.symm heq.symm
    · rw [hphase hpq] at hp
      rw [hlocal hpq] at heq
      rcases eq_or_ne p' q with rfl | hpq'
      · rw [hname] at heq
        exact hnew hp hcon heq
      · rw [hphase hpq'] at hp'
        rw [hlocal hpq'] at heq
        exact hne (h.localpid_inj p p' hp hp' hcon heq)
  · intro p hp
    rcases eq_or_ne p q with rfl | hne
    · rw [show (n.begin p map).phase p = .started from update_self ..] at hp
      cases hp
    · rw [hphase hne] at hp
      rw [hlocal hne]
      exact h.unnamed p hp

theorem mem_freePid {used : List Nat} {i j : Nat} (hmem : i ∈ used) (hne : i ≠ j) : i ∈ freePid used j := by
  unfold freePid
  split
  · exact (List.mem_erase_of_ne (by rwa [Int.toNat_natCast])).mpr hmem
  · exact hmem

/-- The freed names are nobody else's. -/
theorem Distinct.forget (h : Distinct n) {z : P} (hz : n.phase z = .started) : Distinct (n.forget z) := by
  obtain ⟨i, -, -, hi, -⟩ := h.pid z (.inr hz)
  obtain ⟨j, map, -, -, hj, hmap, -⟩ := h.localpid z hz
  have hother {p : P} {ph : Phase} (hp : (n.forget z).phase p = ph) (hph : ph ≠ .reaped) : p ≠ z ∧ n.phase p = ph := by
    rcases eq_or_ne p z with rfl | hne
    · rw [show (n.forget p).phase p = .reaped from update_self ..] at hp
      exact absurd hp.symm hph
    · exact ⟨hne, (update_of_ne hne ..).symm.trans hp⟩
  have hpresent {p : P} (hp : (n.forget z).phase p = .created ∨ (n.forget z).phase p = .started) :
      p ≠ z ∧ (n.phase p = .created ∨ n.phase p = .started) := by
    rcases hp with hp | hp
    · exact ⟨(hother hp (by decide)).1, .inl (hother hp (by decide)).2⟩
    · exact ⟨(hother hp (by decide)).1, .inr (hother hp (by decide)).2⟩
  constructor
  · intro p hp
    obtain ⟨hne, hp⟩ := hpresent hp
    obtain ⟨m, hpos, hlt, hm, hmem⟩ := h.pid p hp
    refine ⟨m, hpos, hlt, hm, ?_⟩
    show m ∈ freePid n.pidmap (n.pid z)
    rw [hi]
    refine mem_freePid hmem ?_
    rintro rfl
    exact hne (h.pid_inj p z hp (.inr hz) (hm.trans hi.symm))
  · exact fun p p' hp hp' heq => h.pid_inj p p' (hpresent hp).2 (hpresent hp').2 heq
  · intro p hp
    obtain ⟨hne, hp⟩ := hother hp (by decide)
    obtain ⟨m, map', hpos, hlt, hm, hmap', hmem⟩ := h.localpid p hp
    by_cases hcon : n.container p = n.container z
    · have hdiff : m ≠ j := by
        rintro rfl
        exact hne (h.localpid_inj p z hp hz hcon (hm.trans hj.symm))
      refine ⟨m, freePid map' j, hpos, hlt, hm, ?_, mem_freePid hmem hdiff⟩
      show (if n.container p = n.container z then (n.localmaps (n.container p)).map _ else _) = _
      rw [if_pos hcon, hmap', hj]
      rfl
    · exact ⟨m, map', hpos, hlt, hm, (if_neg hcon).trans hmap', hmem⟩
  · intro p p' hp hp' hcon heq
    exact h.localpid_inj p p' (hother hp (by decide)).2 (hother hp' (by decide)).2 hcon heq
  · intro p hp
    exact h.unnamed p (hother hp (by decide)).2

end Distinct

section Unique

variable [DecidableEq P] [DecidableEq K]

/-- The maps have a name left for a process that is created, or started. -/
def Supplied (s : State P K) : Act P K → Prop
  | .spawn .. | .createContainer .. => (allocPid s.pidmap).1 ≠ -1
  | .start _ q => ∀ C ∈ s.containers (s.container q), (allocPid C.localpidmap).1 ≠ -1
  | _ => True

instance (s : State P K) (a : Act P K) : Decidable (Supplied s a) := by
  cases a <;> unfold Supplied <;> infer_instance

theorem step_distinct {s s' : State P K} {a : Act P K} (h : Distinct s.names) (hinv : Inv root rc s)
    (hcond : Supplied s a) (hstep : step root rc s a = some s') : Distinct s'.names := by
  obtain hsame | ⟨p, q, adopt, join, rfl, hq, hnames⟩ | ⟨p, q, k, rfl, hq, hk, hnames⟩ | ⟨p, q, map, rfl, hq, hmap, hnames⟩ |
    ⟨p, z, rfl, -, hz, hnames⟩ := step_names hinv hstep
  · rw [hsame]
    exact h
  · rw [hnames]
    exact h.create _ (congrArg Pc.phase hq) hcond
  · rw [hnames]
    refine (h.openMap ?_).create k (congrArg Pc.phase hq) hcond
    show (s.containers k).map _ = none
    rw [hk]
    rfl
  · rw [hnames]
    obtain ⟨C, hC, hCmap⟩ := Option.map_eq_some_iff.mp hmap
    exact h.begin (congrArg Pc.phase hq) hmap (hCmap ▸ hcond C hC)
  · rw [hnames]
    exact h.forget (congrArg Pc.phase hz)

theorem boot_distinct (root : P) (rc : K) : Distinct (boot root rc : State P K).names := by
  have hroot {p : P} {ph : Phase} (hp : (boot root rc : State P K).names.phase p = ph) (hph : ph ≠ .absent) : p = root ∧ ph = .started := by
    by_cases heq : p = root
    · refine ⟨heq, ?_⟩
      rw [← hp]
      show (if p = root then Pc.run else Pc.absent).phase = _
      rw [if_pos heq]
      rfl
    · rw [← hp] at hph
      refine absurd ?_ hph
      show (if p = root then Pc.run else Pc.absent).phase = _
      rw [if_neg heq]
      rfl
  have hpresent {p : P} (hp : (boot root rc : State P K).names.phase p = .created ∨ (boot root rc : State P K).names.phase p = .started) :
      p = root := hp.elim (fun hp => (hroot hp (by decide)).1) (fun hp => (hroot hp (by decide)).1)
  constructor
  · exact fun _ _ => ⟨1, Nat.one_pos, by decide, rfl, List.mem_singleton.mpr rfl⟩
  · exact fun p q hp hq _ => (hpresent hp).trans (hpresent hq).symm
  · intro p _
    refine ⟨1, [1], Nat.one_pos, by decide, rfl, ?_, List.mem_singleton.mpr rfl⟩
    show Option.map _ (if rc = rc then some _ else none) = _
    rw [if_pos rfl]
    rfl
  · exact fun p q hp hq _ _ => (hroot hp (by decide)).1.trans (hroot hq (by decide)).1.symm
  · intro p hp
    cases (hroot hp (by decide)).2

/-- **Different processes have different names** in every run in which the maps do not run out: all pids and local pids lie in
`[1, PID_MAX)`, no two processes that exist have the same pid, no two started ones of a container the same local pid (a process that
is not started has none), and `wait` frees names that are in use. -/
theorem pids_unique {root : P} {rc : K} {as : List (Act P K)} {s : State P K}
    (hrun : run (step root rc) (boot root rc) as = some s) (hmeets : RunMeets (step root rc) Supplied (boot root rc) as) :
    (∀ p, (s.pc p).present = true → 1 ≤ s.pid p ∧ s.pid p < pidMax) ∧
    (∀ p q, (s.pc p).present = true → (s.pc q).present = true → s.pid p = s.pid q → p = q) ∧
    (∀ p, (s.pc p).started = true → 1 ≤ s.localpid p ∧ s.localpid p < pidMax) ∧
    (∀ p q, (s.pc p).started = true → (s.pc q).started = true → s.container p = s.container q → s.localpid p = s.localpid q → p = q) ∧
    (∀ p, s.pc p = .created → s.localpid p = 0) ∧
    ∀ p s', step root rc s (.reap p) = some s' → ∃ z C, s.findZombie p = some z ∧ s.containers (s.container z) = some C ∧
      (s.pid z).toNat ∈ s.pidmap ∧ (s.localpid z).toNat ∈ C.localpidmap := by
  obtain ⟨hinv, h⟩ := run_invariant (I := fun s => Inv root rc s ∧ Distinct s.names)
    (fun _ _ _ ⟨hinv, h⟩ hcond hstep => ⟨step_inv hinv hstep, step_distinct h hinv hcond hstep⟩)
    as _ s ⟨boot_inv root rc, boot_distinct root rc⟩ hmeets hrun
  refine ⟨?_, ?_, ?_, ?_, ?_, ?_⟩
  · intro p hp
    obtain ⟨i, hpos, hlt, hi, -⟩ := h.pid p (Pc.present_eq_true.mp hp)
    rw [show s.pid p = i from hi]
    omega
  · exact fun p q hp hq heq => h.pid_inj p q (Pc.present_eq_true.mp hp) (Pc.present_eq_true.mp hq) heq
  · intro p hp
    obtain ⟨i, -, hpos, hlt, hi, -⟩ := h.localpid p (Pc.started_eq_true.mp hp)
    rw [show s.localpid p = i from hi]
    omega
  · exact fun p q hp hq hcon heq => h.localpid_inj p q (Pc.started_eq_true.mp hp) (Pc.started_eq_true.mp hq) hcon heq
  · exact fun p hp => h.unnamed p (congrArg Pc.phase hp)
  · intro p s' hstep
    obtain ⟨⟨hp, hplock, hsch⟩, -⟩ := Option.ite_none_right_eq_some.mp hstep
    obtain ⟨z, hfind, -, hz⟩ := hinv.findZombie hp hplock hsch
    have hstarted : s.names.phase z = .started := congrArg Pc.phase hz
    obtain ⟨i, -, -, hi, hmem⟩ := h.pid z (.inr hstarted)
    obtain ⟨j, map, -, -, hj, hmap, hmem'⟩ := h.localpid z hstarted
    obtain ⟨C, hC, rfl⟩ := Option.map_eq_some_iff.mp hmap
    refine ⟨z, C, hfind, hC, ?_, ?_⟩
    · rw [show s.pid z = i from hi]
      exact hmem
    · rw [show s.localpid z = j from hj]
      exact hmem'

end Unique

/-- A process has been reaped and its names are given to another one; the root process of a container has a local pid of its own map. -/
theorem pids_unique_reuse : ∃ s : State Nat Nat,
    run (step 0 0) (boot 0 0)
      [.spawn 0 1 true true, .start 0 1, .createContainer 0 2 5, .start 0 2, .exit 1 0, .postParent 1, .toSched 1, .die 1, .check 0,
        .waitSem 0, .reap 0, .spawn 0 3 true true, .start 0 3] = some s ∧
      s.pid 3 = 2 ∧ s.localpid 3 = 2 ∧ s.localpid 2 = 1 ∧ s.pid 3 ≠ s.pid 2 := by
  refine exists_run (P := fun s => (s.pid 3 = 2 ∧ s.localpid 3 = 2 ∧ s.localpid 2 = 1) ∧ (s.pc 3).present = true ∧
    (s.pc 2).present = true) rfl fun s hrun ⟨⟨hpid, hlocal, hlocal'⟩, hthree, htwo⟩ => ?_
  obtain ⟨-, hinj, -⟩ := pids_unique hrun (by decide)
  refine ⟨hpid, hlocal, hlocal', fun heq => ?_⟩
  exact absurd (hinj 3 2 hthree htwo heq) (by decide)

/-! ## No name left -/

/-- The map after `n` allocations. -/
def afterAllocs : Nat → List Nat
  | 0 => [1]
  | n + 1 => (allocPid (afterAllocs n)).2

theorem allocPid_range (n : Nat) :
    allocPid (List.range' 1 n).reverse =
      if n < pidMax - 1 then (((n + 1 : Nat) : Int), (n + 1) :: (List.range' 1 n).reverse) else (-1, (List.range' 1 n).reverse) := by
  have hused : (List.range' 1 (min n (pidMax - 1))).find? (fun i => i ∉ (List.range' 1 n).reverse) = none := by
    rw [List.find?_eq_none]
    intro i hi
    have := List.mem_range'_1.mp hi
    have hmem : i ∈ (List.range' 1 n).reverse := List.mem_reverse.mpr (List.mem_range'_1.mpr (by omega))
    simp [hmem]
  unfold allocPid
  by_cases hn : n < pidMax - 1
  · obtain ⟨m, hm⟩ : ∃ m, pidMax - 1 = n + (m + 1) := ⟨pidMax - 1 - n - 1, by omega⟩
    have hsplit : List.range' 1 (pidMax - 1) = List.range' 1 n ++ (n + 1) :: List.range' (n + 1 + 1) m := by
      rw [hm, ← List.range'_append_1, Nat.add_comm 1 n, List.range'_succ]
    rw [min_eq_left hn.le] at hused
    have hfree : n + 1 ∉ (List.range' 1 n).reverse := by
      rw [List.mem_reverse, List.mem_range'_1]
      omega
    rw [hsplit, List.find?_append, hused, Option.none_or, List.find?_cons_of_pos (by simpa using hfree), if_pos hn]
  · rw [min_eq_right (by omega)] at hused
    rw [hused, if_neg hn]

theorem afterAllocs_eq (n : Nat) : afterAllocs n = (List.range' 1 (min (n + 1) (pidMax - 1))).reverse := by
  induction n with
  | zero => rfl
  | succ n ih =>
    rw [afterAllocs, ih, allocPid_range]
    by_cases hn : n + 1 < pidMax - 1
    · have hnext : List.range' 1 (n + 1 + 1) = List.range' 1 (n + 1) ++ [n + 1 + 1] := by
        rw [List.range'_concat, Nat.one_mul, Nat.add_comm 1]
      rw [min_eq_left hn.le, min_eq_left hn, if_pos hn, hnext, List.reverse_append]
      rfl
    · rw [min_eq_right (by omega), min_eq_right (by omega), if_neg (by omega)]

theorem allocPid_exhausted {n : Nat} (hn : pidMax - 2 ≤ n) : (allocPid (afterAllocs n)).1 = -1 := by
  rw [afterAllocs_eq, allocPid_range, min_eq_right (by omega), if_neg (lt_irrefl _)]

/-- `n` times `fork` by the root process. -/
def forks : Nat → List (Act Nat Nat)
  | 0 => []
  | n + 1 => forks n ++ [.spawn 0 (n + 1) true true, .start 0 (n + 1)]

theorem startProc_some [DecidableEq P] [DecidableEq K] (root : P) {s : State P K} {C : Container P K}
    (hC : s.containers (s.container q) = some C) :
    ∃ s', startProc root s q = some s' ∧ s'.pc = update s.pc q .run ∧ s'.plock = s.plock := by
  unfold startProc
  split
  · exact ⟨_, congrArg (Option.map _) hC, rfl, rfl⟩
  · exact ⟨_, congrArg (Option.map _) hC, rfl, rfl⟩

/-- All forks succeed, and the child has whatever `alloc_pid` has returned. -/
theorem run_forks (n : Nat) : ∃ s, run (step 0 0) (boot 0 0) (forks n) = some s ∧ s.pc 0 = .run ∧ s.plock = none ∧
    s.container 0 = 0 ∧ s.pidmap = afterAllocs n ∧ s.names.localmaps 0 = some (afterAllocs n) ∧ (∀ q, n < q → s.pc q = .absent) ∧
    ∀ q, q < n → s.pc (q + 1) = .run ∧ s.container (q + 1) = 0 ∧ s.pid (q + 1) = (allocPid (afterAllocs q)).1 ∧
      s.localpid (q + 1) = (allocPid (afterAllocs q)).1 := by
  induction n with
  | zero =>
    refine ⟨boot 0 0, rfl, rfl, rfl, rfl, rfl, rfl, ?_, ?_⟩
    · exact fun q hq => if_neg hq.ne'
    · exact fun q hq => absurd hq (Nat.not_lt_zero q)
  | succ n ih =>
    obtain ⟨s, hrun, hroot, hplock, hzero, hpidmap, hmap, habsent, hforked⟩ := ih
    have hnew : s.pc (n + 1) = .absent := habsent _ (Nat.lt_succ_self n)
    have hne : (0 : Nat) ≠ n + 1 := (Nat.succ_ne_zero n).symm
    obtain ⟨C, hC, -⟩ := Option.map_eq_some_iff.mp hmap
    -- `create_proc`, `set_parent_to_this`, `set_container_to_this`
    obtain ⟨s₁, hspawn, hnames1, hpc1, hplock1, hcontainers1⟩ : ∃ s₁, step 0 0 s (.spawn 0 (n + 1) true true) = some s₁ ∧
        s₁.names = s.names.create (n + 1) (s.container 0) ∧ s₁.pc = update s.pc (n + 1) .created ∧ s₁.plock = none ∧
        s₁.containers = s.containers :=
      ⟨_, if_pos ⟨hroot, hnew, fun _ => hplock⟩, names_spawn 0 s 0 (n + 1) true true hne, rfl, hplock, rfl⟩
    rw [hzero] at hnames1
    have hcontainer1 : s₁.container = update s.container (n + 1) 0 := congrArg Names.container hnames1
    have hmap1 : s₁.names.localmaps = s.names.localmaps := by rw [hnames1]; rfl
    -- `start_proc`
    obtain ⟨s₂, hstart, hpc2, hplock2⟩ := startProc_some 0 (s := s₁) (q := n + 1) (C := C)
      (by rw [hcontainers1, hcontainer1, update_self]; exact hC)
    obtain ⟨map, hmap2, hnames2⟩ := names_startProc hstart
    rw [hcontainer1, update_self, hmap1, hmap] at hmap2
    obtain rfl := Option.some.inj hmap2
    rw [hnames1] at hnames2
    have hpc : s₂.pc = update s.pc (n + 1) .run := by rw [hpc2, hpc1, update_idem]
    have hstep : step 0 0 s₁ (.start 0 (n + 1)) = some s₂ := by
      refine (if_pos ⟨?_, ?_, fun _ => hplock1⟩).trans hstart
      · rw [hpc1, update_of_ne hne, hroot]
      · rw [hpc1, update_self]
    have hcontainer : s₂.container = update s.container (n + 1) 0 := congrArg Names.container hnames2
    have hpid : s₂.pid = update s.pid (n + 1) (allocPid s.pidmap).1 := congrArg Names.pid hnames2
    have hlocal : s₂.localpid = update s.localpid (n + 1) (allocPid (afterAllocs n)).1 :=
      (congrArg Names.localpid hnames2).trans (update_idem ..)
    refine ⟨s₂, ?_, ?_, hplock2.trans hplock1, ?_, ?_, ?_, ?_, ?_⟩
    · rw [forks, run_append, hrun]
      exact run_cons_eq_some.mpr ⟨s₁, hspawn, run_cons_eq_some.mpr ⟨s₂, hstep, rfl⟩⟩
    · rw [hpc, update_of_ne hne, hroot]
    · rw [hcontainer, update_of_ne hne, hzero]
    · rw [show s₂.pidmap = (allocPid s.pidmap).2 from congrArg Names.pidmap hnames2, hpidmap]
      rfl
    · rw [hnames2]
      show update _ (update s.container (n + 1) 0 (n + 1)) _ 0 = _
      rw [update_self, update_self]
      rfl
    · intro q hq
      rw [hpc, update_of_ne (by omega)]
      exact habsent q (by omega)
    · intro q hq
      rw [hpc, hcontainer, hpid, hlocal]
      rcases eq_or_ne q n with rfl | hqn
      · rw [update_self, update_self, update_self, update_self, hpidmap]
        exact ⟨rfl, rfl, rfl, rfl⟩
      · have hother : q + 1 ≠ n + 1 := by omega
        rw [update_of_ne hother, update_of_ne hother, update_of_ne hother, update_of_ne hother]
        exact hforked q (by omega)

/-- After 4094 forks all pids are in use.  The next two processes run with pid -1 and local pid -1. -/
theorem pids_exhausted : ∃ s, run (step 0 0) (boot 0 0) (forks 4096) = some s ∧ (s.pc 4095).started = true ∧
    (s.pc 4096).started = true ∧ s.container 4095 = s.container 4096 ∧ s.pid 4095 = -1 ∧ s.pid 4096 = -1 ∧ s.localpid 4095 = -1 ∧
    s.localpid 4096 = -1 := by
  obtain ⟨s, hrun, -, -, -, -, -, -, hforked⟩ := run_forks 4096
  obtain ⟨hpc, hcon, hpid, hlocal⟩ := hforked 4094 (by omega)
  obtain ⟨hpc', hcon', hpid', hlocal'⟩ := hforked 4095 (by omega)
  have hlast := allocPid_exhausted (n := 4094) (by decide)
  have hlast' := allocPid_exhausted (n := 4095) (by decide)
  refine ⟨s, hrun, ?_, ?_, hcon.trans hcon'.symm, hpid.trans hlast, hpid'.trans hlast', hlocal.trans hlast, hlocal'.trans hlast'⟩
  · rw [hpc]
    rfl
  · rw [hpc']
    rfl

/-! ## The name of a child -/

/-- What `fork`, and so `sys_clone`, returns: `fork_p->pid`, read before `start_proc`. -/
def State.forkResult (s : State P K) (q : P) : Int := s.pid q

/-- `sys_gettid` in the process `q`. -/
def State.gettid (s : State P K) (q : P) : Int := s.localpid q

/-- `q` is called `v`, or will be when it is started. -/
structure Called (q : P) (v : Int) (n : Names P K) : Prop where
  pid : n.pid q = v
  born : n.phase q ≠ .absent
  next : n.phase q = .created → ∃ map, n.localmaps (n.container q) = some map ∧ (allocPid map).1 = v
  name : n.phase q = .started → n.localpid q = v

section Child

variable [DecidableEq P] [DecidableEq K] {n : Names P K} {q : P} {v : Int}

theorem Called.congr (h : Called q v n) {n' : Names P K} (hpid : n'.pid q = n.pid q) (hphase : n'.phase q = n.phase q)
    (hlocal : n'.localpid q = n.localpid q)
    (hmap : n.phase q = .created → ∀ map, n.localmaps (n.container q) = some map → n'.localmaps (n'.container q) = some map) :
    Called q v n' := by
  refine ⟨hpid.trans h.pid, ?_, ?_, ?_⟩
  · rw [hphase]
    exact h.born
  · intro hq
    rw [hphase] at hq
    obtain ⟨map, hold, hnext⟩ := h.next hq
    exact ⟨map, hmap hq map hold, hnext⟩
  · intro hq
    rw [hphase] at hq
    exact hlocal.trans (h.name hq)

theorem Called.create (h : Called q v n) {q' : P} (k : K) (hq' : n.phase q' = .absent) : Called q v (n.create q' k) := by
  have hne : q ≠ q' := by
    rintro rfl
    exact h.born hq'
  refine h.congr (update_of_ne hne ..) (update_of_ne hne ..) (update_of_ne hne ..) fun _ map hmap => ?_
  show n.localmaps (update n.container q' k q) = some map
  rwa [update_of_ne hne]

theorem Called.openMap (h : Called q v n) {k : K} (hk : n.localmaps k = none) : Called q v (n.openMap k) := by
  refine h.congr rfl rfl rfl fun _ map hmap => ?_
  have hne : n.container q ≠ k := by
    rintro rfl
    rw [hk] at hmap
    cases hmap
  exact (update_of_ne hne ..).trans hmap

theorem Called.begin (h : Called q v n) {q' : P} {map : List Nat} (hq' : n.phase q' = .created)
    (hmap : n.localmaps (n.container q') = some map)
    (halone : n.phase q = .created → q' = q ∨ n.container q' ≠ n.container q) : Called q v (n.begin q' map) := by
  rcases eq_or_ne q q' with rfl | hne
  · -- its own start takes the name that was waiting for it
    obtain ⟨map', hmap', hnext⟩ := h.next hq'
    obtain rfl := Option.some.inj (hmap.symm.trans hmap')
    have hphase : (n.begin q map).phase q = .started := update_self ..
    refine ⟨h.pid, ?_, ?_, ?_⟩
    · rw [hphase]
      exact Phase.noConfusion
    · intro hq
      rw [hphase] at hq
      cases hq
    · exact fun _ => (update_self ..).trans hnext
  · refine h.congr rfl (update_of_ne hne ..) (update_of_ne hne ..) fun hq map' hmap' => ?_
    have hcon := (halone hq).resolve_left hne.symm
    exact (update_of_ne hcon.symm ..).trans hmap'

theorem Called.forget (h : Called q v n) {z : P} (hz : n.phase z = .started)
    (halone : n.phase q = .created → n.container z ≠ n.container q) : Called q v (n.forget z) := by
  rcases eq_or_ne q z with rfl | hne
  · have hphase : (n.forget q).phase q = .reaped := update_self ..
    refine ⟨h.pid, ?_, ?_, ?_⟩
    · rw [hphase]
      exact Phase.noConfusion
    · intro hq
      rw [hphase] at hq
      cases hq
    · intro hq
      rw [hphase] at hq
      cases hq
  · exact h.congr rfl (update_of_ne hne ..) rfl fun hq map hmap => (if_neg (halone hq).symm).trans hmap

/-- As long as `q` is not started, no other process of its container is started or reaped. -/
def Alone (q : P) (s : State P K) : Act P K → Prop
  | .start _ q' => s.pc q = .created → q' = q ∨ s.container q' ≠ s.container q
  | .reap p => s.pc q = .created → ∀ z ∈ s.findZombie p, s.container z ≠ s.container q
  | _ => True

instance (q : P) (s : State P K) (a : Act P K) : Decidable (Alone q s a) := by
  cases a <;> unfold Alone <;> infer_instance

theorem step_called {s s' : State P K} {a : Act P K} (h : Called q v s.names) (hinv : Inv root rc s)
    (halone : Alone q s a) (hstep : step root rc s a = some s') : Called q v s'.names := by
  have hcreated (hq : s.names.phase q = .created) : s.pc q = .created := by
    replace hq : (s.pc q).phase = .created := hq
    generalize s.pc q = c at hq
    cases c <;> first | rfl | cases hq
  obtain hsame | ⟨p, q', adopt, join, rfl, hq', hnames⟩ | ⟨p, q', k, rfl, hq', hk, hnames⟩ | ⟨p, q', map, rfl, hq', hmap, hnames⟩ |
    ⟨p, z, rfl, hfind, hz, hnames⟩ := step_names hinv hstep
  · rw [hsame]
    exact h
  · rw [hnames]
    exact h.create _ (congrArg Pc.phase hq')
  · rw [hnames]
    refine (h.openMap ?_).create k (congrArg Pc.phase hq')
    show (s.containers k).map _ = none
    rw [hk]
    rfl
  · rw [hnames]
    exact h.begin (congrArg Pc.phase hq') hmap fun hq => halone (hcreated hq)
  · rw [hnames]
    exact h.forget (congrArg Pc.phase hz) fun hq => halone (hcreated hq) z hfind

/-- **A child has one name** if at the time of the `fork` the next pid of the global map is the next one of the container, and nobody
else of the container is started or reaped before the child is started: what `fork` returns is what `gettid` returns in the child,
as long as it exists, and what the `wait` returns that reaps it. -/
theorem fork_names_child {root : P} {rc : K} {as₁ as₂ : List (Act P K)} {s₁ s₂ s₃ : State P K} {p : P} {C : Container P K}
    (hrun1 : run (step root rc) (boot root rc) as₁ = some s₁) (hC : s₁.containers (s₁.container p) = some C)
    (hagree : (allocPid s₁.pidmap).1 = (allocPid C.localpidmap).1) (hfork : step root rc s₁ (.spawn p q true true) = some s₂)
    (hrun2 : run (step root rc) s₂ as₂ = some s₃) (halone : RunMeets (step root rc) (Alone q) s₂ as₂) :
    ((s₃.pc q).started = true → s₃.gettid q = s₂.forkResult q) ∧
      ∀ r, s₃.findZombie r = some q → s₃.waitResult r = s₂.forkResult q := by
  have hinv1 := run_invariant_all (fun _ _ _ h hstep => step_inv h hstep) as₁ _ s₁ (boot_inv root rc) hrun1
  obtain ⟨⟨hp, hq, -⟩, hs2⟩ := Option.ite_none_right_eq_some.mp hfork
  have hpq : p ≠ q := by rintro rfl; rw [hp] at hq; cases hq
  have hnames : s₂.names = s₁.names.create q (s₁.container p) := by
    rw [← Option.some.inj hs2]
    exact names_spawn rc s₁ p q true true hpq
  have hcalled : Called q (s₂.forkResult q) s₂.names := by
    have hphase : (s₁.names.create q (s₁.container p)).phase q = .created := update_self ..
    have hpid : s₂.pid q = (allocPid s₁.pidmap).1 :=
      (congrFun (congrArg Names.pid hnames) q).trans (update_self ..)
    refine ⟨rfl, ?_, ?_, ?_⟩
    · rw [hnames, hphase]
      exact Phase.noConfusion
    · intro _
      refine ⟨C.localpidmap, ?_, hagree.symm.trans hpid.symm⟩
      rw [hnames]
      show (s₁.containers (update s₁.container q (s₁.container p) q)).map _ = _
      rw [update_self, hC]
      rfl
    · intro hstarted
      rw [hnames, hphase] at hstarted
      cases hstarted
  obtain ⟨-, h3⟩ := run_invariant (I := fun s => Inv root rc s ∧ Called q (s₂.forkResult q) s.names)
    (fun _ _ _ ⟨hinv, h⟩ hcond hstep => ⟨step_inv hinv hstep, step_called h hinv hcond hstep⟩)
    as₂ s₂ s₃ ⟨step_inv hinv1 hfork, hcalled⟩ halone hrun2
  constructor
  · exact fun hq => h3.name (Pc.started_eq_true.mp hq)
  · intro r hfind
    have hz : s₃.pc q = .zombie := of_decide_eq_true (List.find?_some (p := fun c => decide (s₃.pc c = .zombie)) hfind)
    unfold State.waitResult
    rw [hfind]
    exact h3.name (congrArg Pc.phase hz)

end Child

/-- A child of the root process is started, exits and is about to be reaped. -/
theorem fork_names_child_root : ∃ s₂ s₃ : State Nat Nat,
    step 0 0 (boot 0 0) (.spawn 0 1 true true) = some s₂ ∧
      run (step 0 0) s₂ [.start 0 1, .exit 1 0, .postParent 1, .toSched 1, .die 1, .check 0, .waitSem 0] = some s₃ ∧
      s₂.forkResult 1 = 2 ∧ s₃.gettid 1 = 2 ∧ s₃.waitResult 0 = 2 := by
  have hfork : step 0 0 (boot 0 0 : State Nat Nat) (.spawn 0 1 true true) = some _ := rfl
  obtain ⟨s₃, hrun, hpc, hfind⟩ : ∃ s₃, run (step 0 0)
      (setContainerToThis (attach (createProc 0 (boot 0 0 : State Nat Nat) 1) 0 1) 0 1)
      [.start 0 1, .exit 1 0, .postParent 1, .toSched 1, .die 1, .check 0, .waitSem 0] = some s₃ ∧ (s₃.pc 1).started = true ∧
      s₃.findZombie 0 = some 1 := ⟨_, rfl, rfl, rfl⟩
  have hboot : run (step 0 0) (boot 0 0 : State Nat Nat) [] = some (boot 0 0) := rfl
  obtain ⟨hgettid, hwait⟩ := fork_names_child hboot rfl rfl hfork hrun (by decide)
  exact ⟨_, s₃, hfork, hrun, rfl, hgettid hpc, hwait 0 hfind⟩

/-- In a container whose root process is 1: `fork` returns 3, `gettid` in the child returns 2, and so does the `wait` that reaps it. -/
theorem fork_names_differ : ∃ s₁ s₂ s₃ : State Nat Nat,
    run (step 0 0) (boot 0 0) [.createContainer 0 1 5, .start 0 1] = some s₁ ∧ step 0 0 s₁ (.spawn 1 2 true true) = some s₂ ∧
      run (step 0 0) s₂ [.start 1 2, .exit 2 0, .postParent 2, .toSched 2, .die 2, .check 1, .waitSem 1] = some s₃ ∧
      s₂.forkResult 2 = 3 ∧ s₃.gettid 2 = 2 ∧ s₃.findZombie 1 = some 2 ∧ s₃.waitResult 1 = 2 :=
  ⟨_, _, _, rfl, rfl, rfl, rfl, rfl, rfl, rfl⟩

end Armv8Os.Proc
