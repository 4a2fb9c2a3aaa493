/-
  The system calls and the tally: which references `create`, `unlinkat` and `execve` take and give back.

  `create` returns one reference and no lock.  `unlinkat` and `execve` give back all they have taken, except
  that `execve` gives it back TWICE when the arguments do not fit.
-/
import Armv8Os.Fs.Tally
import Armv8Os.Kernel.Sysfile

namespace Armv8Os.Sysfile

open Prog Fs

variable {p : Nat}

section Inodes

variable {σ : Type} (cache : BlockCache σ) (sb : SuperBlock) {H : Option (Finset Nat)} {R : Nat → Int} {s : σ} {m : Mem}
  (ctx : Option Nat)

/-! ## `create` -/

variable {dp : Nat}

theorem tally_createFound (h : Tally (lockMore H dp) (bump R dp 1) m) (hfree : Unlocked H dp)
    (type : InodeType) (ino : Nat) :
    Ret (createFound cache sb ctx type dp ino) (s, m) fun r st => Returned H R r st.2 := by
  refine wp_seq (tally_get cache sb h ino) fun p st₁ h1 => ?_
  refine wp_seq (tally_unlock h1 (locked_lockMore H dp)) fun _ st₂ h2 => ?_
  rw [lockLess_lockMore hfree] at h2
  refine wp_seq (tally_put cache sb h2 ctx dp) fun _ st₃ h3 => ?_
  rw [bump_comm R, bump_back] at h3
  refine wp_seq (tally_lock h3 p) fun _ st₄ h4 => ret_deref fun ip _ => ?_
  split
  · refine wp_seq (tally_unlock h4.1 (locked_lockMore H p)) fun _ st₅ h5 => ?_
    rw [lockLess_lockMore h4.2] at h5
    exact h5
  · refine wp_seq (tally_unlock h4.1 (locked_lockMore H p)) fun _ st₅ h5 => ?_
    rw [lockLess_lockMore h4.2] at h5
    refine wp_seq (tally_put cache sb h5 ctx p) fun _ st₆ h6 => ?_
    rw [bump_back] at h6
    exact h6

theorem createDots_steady (hlocked : Locked H p) : Steady H (createDots cache sb ctx dp p) :=
  (Silent.assignEntry dp _).steady.bind fun _ => (inodeSync_silent cache sb ctx p true).steady.bind fun _ =>
    (Silent.deref p).steady.bind fun _ => (Silent.deref dp).steady.bind fun _ =>
      (inodeInsert_steady cache sb hlocked ctx _ _).bind fun _ =>
        (inodeInsert_steady cache sb hlocked ctx _ _).bind fun _ => .pure _

theorem tally_createLink (h : Tally (lockMore (lockMore H dp) p) (bump (bump R dp 1) p 1) m)
    (hdp : Unlocked H dp) (hp : Unlocked (lockMore H dp) p) (name : List UInt8) :
    Ret (createLink cache sb ctx dp p name) (s, m) fun r st => Returned H R r st.2 := by
  refine ret_deref fun ip _ => ?_
  refine wp_seq (inodeInsert_steady cache sb ((locked_lockMore H dp).lockMore p) ctx name _ _ _ _ h) fun _ st₁ h1 => ?_
  refine wp_seq (tally_unlock h1 (locked_lockMore _ p)) fun _ st₂ h2 => ?_
  rw [lockLess_lockMore hp] at h2
  refine wp_seq (tally_unlock h2 (locked_lockMore H dp)) fun _ st₃ h3 => ?_
  rw [lockLess_lockMore hdp] at h3
  refine wp_seq (tally_put cache sb h3 ctx dp) fun _ st₄ h4 => ?_
  rw [bump_comm R, bump_back] at h4
  exact h4

theorem tally_createNew (h : Tally (lockMore H dp) (bump R dp 1) m) (hfree : Unlocked H dp)
    (type : InodeType) (major minor : UInt16) (name : List UInt8) :
    Ret (createNew cache sb ctx type major minor dp name) (s, m) fun r st => Returned H R r st.2 := by
  refine wp_seq ((inodeAlloc_silent cache sb ctx type).tally h) fun ino st₁ h1 => ?_
  refine wp_seq (tally_get cache sb h1 ino) fun p st₂ h2 => ?_
  refine wp_seq (tally_lock h2 p) fun _ st₃ h3 => ?_
  refine wp_seq ((Silent.assignEntry p _).tally h3.1) fun _ st₄ h4 => ?_
  refine wp_seq ((inodeSync_silent cache sb ctx p true).tally h4) fun _ st₅ h5 => ?_
  split
  · refine wp_seq (createDots_steady cache sb ctx (locked_lockMore _ p) _ _ _ h5) fun _ st₆ h6 => ?_
    exact tally_createLink cache sb ctx h6 hfree h3.2 name
  · exact tally_createLink cache sb ctx h5 hfree h3.2 name

theorem tally_create (h : Tally H R m) (cwd : Option Nat) (path : List UInt8) (type : InodeType)
    (major minor : UInt16) :
    Ret (create cache sb cwd path type major minor ctx) (s, m) fun r st => Returned H R r st.2 := by
  refine wp_seq (tally_namex cache sb h cwd path true ctx) fun r st₁ h1 => ?_
  cases r with
  | none => trivial
  | some r =>
    refine ret_deref fun d _ => ret_assert fun _ => ?_
    refine wp_seq (tally_lock h1 r.1) fun _ st₂ h2 => ?_
    refine wp_seq (inodeLookup_steady cache sb (locked_lockMore H r.1) r.2 _ _ _ h2.1) fun found st₃ h3 => ?_
    cases found with
    | some found => exact tally_createFound cache sb ctx h3 h2.2 type found.1
    | none => exact tally_createNew cache sb ctx h3 h2.2 type major minor r.2

/-! ## `unlinkat` -/

theorem isdirempty_steady (hlocked : Locked H p) : Steady H (isdirempty cache sb p) := by
  have hloop : ∀ fuel off, Steady H (isdiremptyLoop cache sb p fuel off) := by
    intro fuel
    induction fuel with
    | zero => exact fun _ => .pure _
    | succ fuel ih =>
      intro off
      refine (Silent.deref p).steady.bind fun ip => Steady.ite ?_ (Steady.pure _)
      exact (readDirEntry_steady cache sb hlocked off).bind fun d => Steady.ite (Steady.pure _) (ih _)
  exact (Silent.deref p).steady.bind fun _ => hloop _ _

theorem dropLink_silent (p : Nat) : Silent (dropLink cache sb ctx p) :=
  (Silent.assignEntry p _).bind fun _ => inodeSync_silent cache sb ctx p true

theorem tally_unlinkBad (h : Tally (lockMore H dp) (bump R dp 1) m) (hfree : Unlocked H dp) :
    Ret (unlinkBad cache sb ctx dp) (s, m) fun _ st => Tally H R st.2 := by
  refine wp_seq (tally_unlock h (locked_lockMore H dp)) fun _ st₁ h1 => ?_
  rw [lockLess_lockMore hfree] at h1
  refine wp_seq (tally_put cache sb h1 ctx dp) fun _ st₂ h2 => ?_
  rw [bump_back] at h2
  exact h2

section

variable (h : Tally (lockMore (lockMore H dp) p) (bump (bump R dp 1) p 1) m) (hdp : Unlocked H dp)
  (hp : Unlocked (lockMore H dp) p)
include h hdp hp

theorem tally_unlinkDone : Ret (unlinkDone cache sb ctx dp p) (s, m) fun _ st => Tally H R st.2 := by
  refine wp_seq (tally_unlock h ((locked_lockMore H dp).lockMore p)) fun _ st₁ h1 => ?_
  rw [lockLess_under hdp hp] at h1
  refine wp_seq (tally_put cache sb h1 ctx dp) fun _ st₂ h2 => ?_
  rw [bump_comm R, bump_back] at h2
  refine wp_seq ((dropLink_silent cache sb ctx p).tally h2) fun _ st₃ h3 => ?_
  refine wp_seq (tally_unlock h3 (locked_lockMore H p)) fun _ st₄ h4 => ?_
  rw [lockLess_lockMore hp.of_lockMore] at h4
  refine wp_seq (tally_put cache sb h4 ctx p) fun _ st₅ h5 => ?_
  rw [bump_back] at h5
  exact h5

theorem tally_unlinkEntry (off : UInt64) :
    Ret (unlinkEntry cache sb ctx dp p off) (s, m) fun _ st => Tally H R st.2 := by
  refine wp_seq (writeDirEntry_steady cache sb ((locked_lockMore H dp).lockMore p) ctx _ off _ _ _ h)
    fun _ st₁ h1 => ret_deref fun ip _ => ?_
  split
  · refine wp_seq ((dropLink_silent cache sb ctx dp).tally h1) fun _ st₂ h2 => ?_
    exact tally_unlinkDone cache sb ctx h2 hdp hp
  · exact tally_unlinkDone cache sb ctx h1 hdp hp

end

theorem tally_unlinkFound (h : Tally (lockMore H dp) (bump R dp 1) m) (hfree : Unlocked H dp)
    (ino : Nat) (off : UInt64) :
    Ret (unlinkFound cache sb ctx dp ino off) (s, m) fun _ st => Tally H R st.2 := by
  refine wp_seq (tally_get cache sb h ino) fun p st₁ h1 => ?_
  refine wp_seq (tally_lock h1 p) fun _ st₂ h2 => ?_
  refine ret_deref fun ip _ => ret_assert fun _ => ?_
  split
  · refine wp_seq (isdirempty_steady cache sb (locked_lockMore _ p) _ _ _ h2.1) fun empty st₃ h3 => ?_
    split
    · exact tally_unlinkEntry cache sb ctx h3 hfree h2.2 off
    · refine wp_seq (tally_unlock h3 (locked_lockMore _ p)) fun _ st₄ h4 => ?_
      rw [lockLess_lockMore h2.2] at h4
      refine wp_seq (tally_put cache sb h4 ctx p) fun _ st₅ h5 => ?_
      rw [bump_back] at h5
      exact tally_unlinkBad cache sb ctx h5 hfree
  · exact tally_unlinkEntry cache sb ctx h2.1 hfree h2.2 off

theorem unlink_steady (cwd : Option Nat) (path : List UInt8) : Steady H (unlink cache sb cwd path ctx) := by
  intro R s m h
  refine wp_seq (tally_namex cache sb h cwd path true ctx) fun r st₁ h1 => ?_
  cases r with
  | none => exact h1
  | some r =>
    refine wp_seq (tally_lock h1 r.1) fun _ st₂ h2 => ?_
    split
    · exact tally_unlinkBad cache sb ctx h2.1 h2.2
    · refine wp_seq (inodeLookup_steady cache sb (locked_lockMore H r.1) r.2 _ _ _ h2.1) fun found st₃ h3 => ?_
      cases found with
      | none => exact tally_unlinkBad cache sb ctx h3 h2.2
      | some found => exact tally_unlinkFound cache sb ctx h3 h2.2 found.1 found.2

end Inodes

/-! ## `execve` -/

section Execve

variable {σ : Type} (cache : BlockCache σ) (sb : SuperBlock) (con : UInt64 → Option (List UInt8))
  {H : Option (Finset Nat)} {R : Nat → Int} {s : σ} {m : Mem}

theorem readAt_steady (hlocked : Locked H p) (offset n : UInt64) :
    Steady H (Exec.readAt cache sb con p offset n) :=
  inodeRead_steady cache sb hlocked offset n (con offset)

theorem loadPages_steady (hlocked : Locked H p) (va offset sz : UInt64) (pages : Nat) (page : UInt64) :
    Steady H (Exec.loadPages cache sb con p va offset sz pages page) := by
  induction pages generalizing page with
  | zero => exact .pure _
  | succ pages ih =>
    refine (readAt_steady cache sb con hlocked _ _).bind fun x => ?_
    obtain ⟨r, bytes⟩ := x
    generalize (if va + sz < page + Exec.pageSize then va + sz - page - _ else _ : UInt64) = n
    exact .ite (.pure _) (ih _)

theorem loadPhdrs_steady (hlocked : Locked H p) (n off : Nat) :
    Steady H (Exec.loadPhdrs cache sb con p n off) := by
  induction n generalizing off with
  | zero => exact .pure _
  | succ n ih =>
    refine (readAt_steady cache sb con hlocked _ _).bind fun x => ?_
    obtain ⟨r, bytes⟩ := x
    refine .ite (.pure _) (.ite (ih _) (.ite ?_ (.pure _)))
    exact (loadPages_steady cache sb con hlocked _ _ _ _ _).bind fun _ => .ite (ih _) (.pure _)

theorem tally_giveBack (h : Tally (lockMore H p) (bump R p 1) m) (hfree : Unlocked H p) (c : Nat) :
    Ret (Exec.giveBack cache sb c p) (s, m) fun _ st => Tally H R st.2 := by
  refine wp_seq (tally_unlock h (locked_lockMore H p)) fun _ st₁ h1 => ?_
  rw [lockLess_lockMore hfree] at h1
  refine wp_seq (tally_put cache sb h1 (some c) p) fun _ st₂ h2 => ?_
  rw [bump_back] at h2
  exact wp_seq ((Silent.onFst _).tally h2) fun _ st₃ h3 => h3

/-- When the arguments fit, the inode is given back once. -/
theorem execve_steady (c : Nat) (cwd : Option Nat) (path : List UInt8) {argv : List UInt64}
    (hfit : Exec.fitArgs argv ≠ none) : Steady H (Exec.execve cache sb con c cwd path argv) := by
  intro R s m h
  refine wp_seq ((Silent.onFst _).tally h) fun _ st₀ h0 => ?_
  refine wp_seq (tally_namei cache sb h0 cwd path (some c)) fun r st₁ h1 => ?_
  cases r with
  | none => exact wp_seq ((Silent.onFst _).tally h1) fun _ _ h2 => h2
  | some p =>
    refine wp_seq (tally_lock h1 p) fun _ st₂ h2 => ?_
    refine wp_seq (inodeRead_steady cache sb (locked_lockMore H p) _ _ _ _ _ _ h2.1) fun x st₃ h3 => ?_
    obtain ⟨r, elf⟩ := x
    dsimp only
    split
    · exact wp_seq (tally_giveBack cache sb h3 h2.2 c) fun _ _ h4 => h4
    · split
      · exact wp_seq (tally_giveBack cache sb h3 h2.2 c) fun _ _ h4 => h4
      · refine wp_seq (loadPhdrs_steady cache sb con (locked_lockMore H p) _ _ _ _ _ h3) fun ok st₄ h4 => ?_
        split
        · exact wp_seq (tally_giveBack cache sb h4 h2.2 c) fun _ _ h5 => h5
        · refine wp_seq (tally_giveBack cache sb h4 h2.2 c) fun _ st₅ h5 => ?_
          cases hargs : Exec.fitArgs argv with
          | none => exact absurd hargs hfit
          | some argc => exact h5

end Execve

end Armv8Os.Sysfile
