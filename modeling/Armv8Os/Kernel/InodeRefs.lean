/-
  The reference counts of inodes, over every run of system calls.

  `rc` of an inode in memory should be the number of its users: open files, processes that stand in it, and
  `inodes.root`.  Then nothing that is used is freed, and nothing that is unused stays.

  NOTE: it is not so.

  1. `init_proc` sets `cwd = inodes.root` and takes no reference.  `fork` puts a counted one in its place, but a process
     made by `create_proc` alone keeps it, and its `exit` gives back a reference that was never taken: the root inode
     is freed under `inodes.root`.
  2. `sys_chdir` keeps the reference to what turns out to be no directory.
  3. `execve` gives its inode back, and then once more when the arguments do not fit.

  A run without these three keeps every count exact, from any state where it is.
-/
import Armv8Os.Kernel.AccountCalls
import Armv8Os.Fs.BlockOwnership

namespace Armv8Os.Sysfile

open Prog Fs Fs.Blocks Transition Option

section

variable {σ P : Type} [Fintype P] {cache : BlockCache σ} {sb : SuperBlock}

/-- Every inode in memory has as many references as users, and what is used is in memory. -/
structure ExactRefs (s : (σ × Mem) × Tables P) : Prop where
  counted : ∀ p ip, s.1.2.heap p = some ip → ip.rc = uses s.2 p ∧ 0 < uses s.2 p
  gone : ∀ p, s.1.2.heap p = none → uses s.2 p = 0
  fresh : ∀ p, s.1.2.next ≤ p → s.1.2.heap p = none
  files : FileTable s.2

/-- Users are watched, locks are not. -/
theorem exactRefs_iff (s : (σ × Mem) × Tables P) : ExactRefs s ↔ Accounted none True s := by
  constructor
  · intro h
    refine ⟨uses s.2, ?_, fun _ => ⟨h.files, rfl⟩⟩
    rw [add_zero]
    exact ⟨h.counted, h.gone, h.fresh, fun y hy => by cases hy⟩
  · rintro ⟨R, h, hbooks⟩
    obtain ⟨hfiles, rfl⟩ := hbooks trivial
    rw [add_zero] at h
    exact ⟨h.counted, h.gone, h.fresh, hfiles⟩

/-- No process is made by `create_proc` alone once there is a root, `chdir` is not called on what is no directory, and
the arguments of `execve` fit. -/
def Balanced (cache : BlockCache σ) (sb : SuperBlock) (s : (σ × Mem) × Tables P) (call : Call P) : Prop :=
  call.fits ∧ TakesAndGives cache sb s call

instance (s : (σ × Mem) × Tables P) (call : Call P) : Decidable (Balanced cache sb s call) :=
  inferInstanceAs (Decidable (_ ∧ _))

/-- **Reference counts of inodes are exact**, in every run whose calls are balanced. -/
theorem inode_refs_exact [DecidableEq P] {s₀ s : (σ × Mem) × Tables P} {calls : List (Call P)} (hstart : ExactRefs s₀)
    (hmeets : RunMeets (step cache sb) (Balanced cache sb) s₀ calls)
    (hrun : run (step cache sb) s₀ calls = some s) : ExactRefs s := by
  rw [exactRefs_iff] at hstart ⊢
  refine run_invariant (I := Accounted none True) (fun s call s' h hC hstep => ?_) calls s₀ s hstart hmeets hrun
  exact accounted_step cache sb hC.1 (fun hH => absurd rfl hH) (fun _ => hC.2) h hstep

/-- A process enters the root with a reference of its own. -/
def enterRoot [DecidableEq P] (p : P) : SysM σ P Unit := do
  let t ← onSnd get
  match t.root with
  | none => pure ()
  | some r => do
    let d ← inFs (inodeShare r)
    setProc p (some { ofile := fun _ => none, cwd := some d })

theorem ExactRefs.enterRoot [DecidableEq P] {s s' : (σ × Mem) × Tables P} {p : P} (h : ExactRefs s)
    (hp : s.2.procs p = none) (henter : exec (Sysfile.enterRoot p) s = some s') : ExactRefs s' := by
  rw [exactRefs_iff] at h ⊢
  refine of_wp_exec (E := fun _ => True) (wp_bind.mpr (wp_onSnd.mpr (wp_get.mpr ?_))) henter
  show Ret (match s.2.root with
    | none => pure ()
    | some r => do
      let d ← inFs (inodeShare r)
      Sysfile.setProc p (some { ofile := fun _ => none, cwd := some d })) s fun _ => Accounted none True
  cases s.2.root with
  | none => exact h
  | some r =>
    refine wp_seq (owing_share h r) fun d s₁ h1 => wp_setProc.mpr ?_
    obtain ⟨hbooks, rfl, htables⟩ := h1
    refine hbooks.setProc fun _ i => ?_
    rw [htables, hp, standsIn_some, pointsTo_some, bump_apply]
    show 0 = 0 + (if d = i then 1 else 0) + 0 - _
    ring

end

/-- A process and its child: files are opened, shared and closed, a directory is made and removed. -/
def family : List (Call (Fin 3)) :=
  [.openat 1 true true [47] { creat := false, wronly := false, rdwr := false }, .dup 1 0, .fork 1 2, .close 1 0,
    .mkdirat 2 true [47, 100], .chdir 2 [47, 100], .unlinkat 1 true 0 true [47, 100], .close 1 1, .exit 2]

theorem inode_refs_exact_family : ∃ s₀ s₁ s₂ s, Cache.initBcache (logDisk 63) rootDisk = .ok s₀ ∧
    boot (bcache (logDisk 63)) (logDisk 63) s₀ (fun p => p == 0) = some s₁ ∧ exec (enterRoot 1) s₁ = some s₂ ∧
    run (step (bcache (logDisk 63)) (logDisk 63)) s₂ family = some s ∧
    (s.1.2.heap 0).map Inode.rc = some 2 ∧ ExactRefs s := by
  have hview : ((Cache.initBcache (logDisk 63) rootDisk).toOption.bind fun s₀ =>
      (boot (bcache (logDisk 63)) (logDisk 63) s₀ (fun p : Fin 3 => p == 0)).bind fun s₁ =>
      if (s₁.2.procs 1).isNone then (exec (enterRoot 1) s₁).bind fun s₂ =>
        if RunMeets (step (bcache (logDisk 63)) (logDisk 63)) (Balanced (bcache (logDisk 63)) (logDisk 63)) s₂ family
        then run (step (bcache (logDisk 63)) (logDisk 63)) s₂ family else none else none).map
          (fun s => (s.1.2.heap 0).map Inode.rc) = some (some 2) := by
    decide +kernel
  obtain ⟨s, hs, hrc⟩ := map_eq_some_iff.mp hview
  obtain ⟨s₀, hs0, hs⟩ := bind_eq_some_iff.mp hs
  obtain ⟨s₁, hs1, hs⟩ := bind_eq_some_iff.mp hs
  obtain ⟨hnew, hs⟩ := ite_none_right_eq_some.mp hs
  obtain ⟨s₂, hs2, hs⟩ := bind_eq_some_iff.mp hs
  obtain ⟨hmeets, hrun⟩ := ite_none_right_eq_some.mp hs
  have hboot : ExactRefs s₁ := (exactRefs_iff s₁).mpr (accounted_boot _ _ (fun _ hy => by cases hy) hs1)
  have hstart := hboot.enterRoot (isNone_iff_eq_none.mp hnew) hs2
  exact ⟨s₀, s₁, s₂, s, toOption_eq_some.mp hs0, hs1, hs2, hrun, hrc, inode_refs_exact hstart hmeets hrun⟩

/-- A process is made as the kernel makes its first user process, and exits. -/
def firstUser : List (Call Bool) := [.createProc false, .exit false]

/-- The root inode is freed under `inodes.root`. -/
theorem root_inode_freed : ∃ s₀ s₁ s, Cache.initBcache (logDisk 63) rootDisk = .ok s₀ ∧
    boot (bcache (logDisk 63)) (logDisk 63) s₀ (fun p => p) = some s₁ ∧ ExactRefs s₁ ∧
    run (step (bcache (logDisk 63)) (logDisk 63)) s₁ firstUser = some s ∧
    s.2.root = some 0 ∧ s.1.2.heap 0 = none := by
  have hview : ((Cache.initBcache (logDisk 63) rootDisk).toOption.bind fun s₀ =>
      (boot (bcache (logDisk 63)) (logDisk 63) s₀ (fun p : Bool => p)).bind fun s₁ =>
        run (step (bcache (logDisk 63)) (logDisk 63)) s₁ firstUser).map
          (fun s => (s.2.root, (s.1.2.heap 0).isNone)) = some (some 0, true) := by
    decide +kernel
  obtain ⟨s, hs, hroot⟩ := map_eq_some_iff.mp hview
  obtain ⟨s₀, hs0, hs⟩ := bind_eq_some_iff.mp hs
  obtain ⟨s₁, hs1, hrun⟩ := bind_eq_some_iff.mp hs
  have hboot : ExactRefs s₁ := (exactRefs_iff s₁).mpr (accounted_boot _ _ (fun _ hy => by cases hy) hs1)
  obtain ⟨hroot, hfreed⟩ := Prod.ext_iff.mp hroot
  exact ⟨s₀, s₁, s, toOption_eq_some.mp hs0, hs1, hboot, hrun, hroot, isNone_iff_eq_none.mp hfreed⟩

end Armv8Os.Sysfile
