/-
  The sleep locks of inodes, over every run of system calls.

  A lock is a semaphore that starts at 1, so it should be 1 between two calls and never more.  The memory model
  keeps every value a lock has had (`lockLog`), so this is one statement about the state.

  NOTE: it is not so.  `create` returns its inode unlocked, and `sys_openat`, `sys_mkdirat` and `sys_mknodat` unlock
  it AGAIN: after `openat("/a", O_CREAT)` the lock of `/a` is 2, and two threads can be in it.  As long as `create`
  returns NULL to its callers, and `execve` does not give its inode back twice, every lock is what it should be.
-/
import Armv8Os.Kernel.AccountCalls
import Armv8Os.Fs.BlockOwnership

namespace Armv8Os.Sysfile

open Prog Fs Fs.Blocks Sem Transition Option

/-- Every inode in memory is referenced and unlocked, and no lock has ever been more than 1. -/
structure AtRest (m : Mem) : Prop where
  referenced : ∀ p ip, m.heap p = some ip → 0 < ip.rc
  fresh : ∀ p, m.next ≤ p → m.heap p = none
  unlocked : ∀ p ip, m.heap p = some ip → ip.lock = initSem 1
  once : ∀ v ∈ m.lockLog, v ≤ 1

section

variable {σ P : Type} [Fintype P] {cache : BlockCache σ} {sb : SuperBlock}

/-- Locks are watched, users are not. -/
theorem atRest_iff (st : (σ × Mem) × Tables P) : AtRest st.1.2 ↔ Accounted (some ∅) False st := by
  constructor
  · intro h
    let R : Nat → Int := fun p => ((st.1.2.heap p).map Inode.rc).getD 0
    refine ⟨R, ?_, False.elim⟩
    rw [add_zero]
    refine ⟨fun p ip hp => ?_, fun p hp => ?_, h.fresh, fun y hy => ?_⟩
    · have hR : R p = ip.rc := by simp [R, hp]
      exact ⟨hR.symm, hR ▸ h.referenced p ip hp⟩
    · simp [R, hp]
    · cases hy
      exact ⟨fun p ip hp => h.unlocked p ip hp, fun p hp => absurd hp (Finset.notMem_empty p), h.once⟩
  · rintro ⟨R, h, -⟩
    have hlocks := h.locks ∅ rfl
    refine ⟨fun p ip hp => ?_, h.fresh, fun p ip hp => hlocks.1 p ip hp, hlocks.2.2⟩
    obtain ⟨hrc, hpos⟩ := h.counted p ip hp
    omega

/-- `create` returns NULL to its callers, and the arguments of `execve` fit. -/
def UnlocksOnce (cache : BlockCache σ) (sb : SuperBlock) (s : (σ × Mem) × Tables P) (call : Call P) : Prop :=
  call.fits ∧ CreatesNothing cache sb s call

instance (s : (σ × Mem) × Tables P) (call : Call P) : Decidable (UnlocksOnce cache sb s call) :=
  inferInstanceAs (Decidable (_ ∧ _))

end

/-- Look at the root, and try to make a directory that is there. -/
def visitRoot : List (Call Unit) :=
  [.newfstatat () true [47], .mkdirat () true [47, 46], .openat () true true [47] { creat := false, wronly := false, rdwr := false },
    .fstat () 0 true, .close () 0]

/-- "/a". -/
def slashA : List UInt8 := [47, 97]

/-- Create a file. -/
def createA : List (Call Unit) := [.openat () true true slashA { creat := true, wronly := false, rdwr := false }]

end Armv8Os.Sysfile
