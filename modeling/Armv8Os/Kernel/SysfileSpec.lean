/-
  What the small functions of `kernel/sysfile.c` and `fs/file.c` do to the tables, as rules for `wp`.

  A rule holds for every failure postcondition that allows the failures of the file system and a process that is
  not there: `Tame E`.  What is left are the two failures that are about descriptors.
-/
import Armv8Os.Fs.Tally
import Armv8Os.Kernel.Sysfile

namespace Armv8Os.Sysfile

open Prog Fs List

/-- `E` allows every failure that is not about a descriptor. -/
def Tame (E : Halt → Prop) : Prop := ∀ e, e ≠ .badIndex → e ≠ .nullFile → E e

theorem tame_true : Tame fun _ => True := fun _ _ _ => trivial

/-- `ftable.file[f] = file`. -/
def Tables.setFile {P : Type} (t : Tables P) (f : Nat) (file : File) : Tables P :=
  { t with file := Function.update t.file f file }

/-- The process `p` has `pr`. -/
def Tables.setProc {P : Type} [DecidableEq P] (t : Tables P) (p : P) (pr : Option ProcFiles) : Tables P :=
  { t with procs := Function.update t.procs p pr }

section Rules

variable {σ P α : Type} {E : Halt → Prop} {st : (σ × Mem) × Tables P}

theorem wp_inFs {f : FsM σ α} {Q : α → (σ × Mem) × Tables P → Prop} :
    wp (inFs f) Q E st ↔ wp f (fun a fs => Q a (fs, st.2)) (fun e => E (.fs e)) st.1 := by
  unfold wp inFs
  cases f st.1 with
  | ok r => exact Iff.rfl
  | error e => exact Iff.rfl

/-- What the file system ensures when it returns. -/
theorem wp_inFs_of_ret (hE : Tame E) {f : FsM σ α} {Q : α → (σ × Mem) × Tables P → Prop}
    (h : wp f (fun a fs => Q a (fs, st.2)) (fun _ => True) st.1) : wp (inFs f) Q E st := by
  rw [wp_inFs]
  exact wp_mono h (fun _ _ hQ => hQ) fun e _ => hE _ (by simp) (by simp)

/-- What is known of a program is known of the rest of it, when its first part has returned. -/
theorem ret_inFs_rest {β : Type} {f : FsM σ β} {g : β → FsM σ α} {Q : α → σ × Mem → Prop}
    {Q' : β → (σ × Mem) × Tables P → Prop} {c : Prop} (h : Ret (inFs f) st Q')
    (hg : c → Ret (f >>= g) st.1 Q) : Ret (inFs f) st fun b st' => Q' b st' ∧ (c → Ret (g b) st'.1 Q) := by
  by_cases hc : c
  · have hrest : Ret (inFs f) st fun b (st' : (σ × Mem) × Tables P) => Ret (g b) st'.1 Q :=
      wp_inFs.mpr (wp_bind.mp (hg hc))
    exact wp_mono (wp_and h hrest) (fun _ _ h1 => ⟨h1.1, fun _ => h1.2⟩) fun _ _ => trivial
  · exact wp_imp h (fun _ _ h1 => ⟨h1, fun hc' => absurd hc' hc⟩)

variable {f : Nat}

theorem wp_getFile {Q : File → (σ × Mem) × Tables P → Prop} :
    wp (getFile f) Q E st ↔ Q (st.2.file f) st := Iff.rfl

theorem wp_setFile {file : File} {Q : Unit → (σ × Mem) × Tables P → Prop} :
    wp (setFile f file) Q E st ↔ Q () (st.1, Tables.setFile st.2 f file) := Iff.rfl

variable {Q : Option Nat → (σ × Mem) × Tables P → Prop}

/-- `filealloc` finds an entry without references, if there is one. -/
theorem wp_filealloc (hnone : Q none st)
    (hsome : ∀ f, f < nfile → (st.2.file f).ref = 0 →
      Q (some f) (st.1, Tables.setFile st.2 f { st.2.file f with ref := 1 })) : wp filealloc Q E st := by
  rw [filealloc, wp_bind, wp_onSnd, wp_get]
  cases hf : (List.range' 0 nfile).find? fun f => (st.2.file f).ref = 0 with
  | none => exact hnone
  | some f =>
    have hlt := mem_of_find?_eq_some hf
    rw [mem_range'_1] at hlt
    have hfree := find?_some hf
    exact hsome f (by omega) (of_decide_eq_true hfree)

variable {p : P}

theorem wp_thisproc (hE : Tame E) {Q : ProcFiles → (σ × Mem) × Tables P → Prop}
    (h : ∀ pr, st.2.procs p = some pr → Q pr st) : wp (thisproc p) Q E st := by
  rw [thisproc, wp_bind, wp_onSnd, wp_get]
  cases hp : st.2.procs p with
  | none => exact hE _ (by simp) (by simp)
  | some pr => exact h pr hp

/-- `fd2file` returns what stands in the slot of a descriptor in range. -/
theorem wp_fd2file (hE : Tame E) {fd : Int} (hnone : Q none st)
    (hsome : ∀ pr f, st.2.procs p = some pr → fd.toNat < nofile → pr.ofile fd.toNat = some f → Q (some f) st) :
    wp (fd2file p fd) Q E st := by
  refine wp_bind.mpr (wp_thisproc hE fun pr hpr => ?_)
  show Q (if 0 ≤ fd ∧ fd < nofile then pr.ofile fd.toNat else none) st
  split
  · rename_i hfd
    cases hf : pr.ofile fd.toNat with
    | none => exact hnone
    | some f => exact hsome pr f hpr (by omega) hf
  · exact hnone

variable [DecidableEq P]

theorem wp_setProc {pr : Option ProcFiles} {Q : Unit → (σ × Mem) × Tables P → Prop} :
    wp (setProc p pr) Q E st ↔ Q () (st.1, Tables.setProc st.2 p pr) := Iff.rfl

/-- `fdalloc` finds a free slot, if there is one. -/
theorem wp_fdalloc (hE : Tame E)
    (hnone : ∀ pr, st.2.procs p = some pr → (∀ fd < nofile, pr.ofile fd ≠ none) → Q none st)
    (hsome : ∀ pr fd, st.2.procs p = some pr → fd < nofile → pr.ofile fd = none →
      Q (some fd) (st.1, Tables.setProc st.2 p (some (ProcFiles.setOfile pr fd (some f))))) :
    wp (fdalloc p f) Q E st := by
  refine wp_bind.mpr (wp_thisproc hE fun pr hpr => ?_)
  cases hfd : (List.range' 0 nofile).find? fun fd => pr.ofile fd = none with
  | none =>
    refine hnone pr hpr fun fd hlt hfree => ?_
    have hall := find?_eq_none.mp hfd fd (mem_range'_1.mpr (by omega))
    exact hall (decide_eq_true hfree)
  | some fd =>
    have hlt := mem_of_find?_eq_some hfd
    rw [mem_range'_1] at hlt
    have hfree := find?_some hfd
    exact hsome pr fd hpr (by omega) (of_decide_eq_true hfree)

end Rules

end Armv8Os.Sysfile
