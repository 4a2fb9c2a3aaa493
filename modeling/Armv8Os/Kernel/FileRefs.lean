/-
  The reference counts of the file table, over every run of system calls.

  `ref` of an entry should be the number of slots, over the descriptor tables of all processes, that point to it.
  `Slotted x` says this in the middle of a call, which holds `x f` references to the entry `f` itself: `filealloc` and
  `filedup` take one, `fileclose` gives one, and a slot that is written takes it over.  Only the tables count here;
  what the file system does with its blocks and inodes does not reach them.

  NOTE: two calls do not come out even.

  1. `sys_close` does not look at its descriptor.  Out of range it writes outside `ofile`, and for an empty slot it
     closes a NULL file.
  2. `sys_pipe2` does not look at what `fdalloc` returns.  With less than two free slots an entry stays open for ever.
-/
import Armv8Os.Kernel.Accounts
import Armv8Os.Fs.BlockOwnership

namespace Armv8Os.Sysfile

open Prog Fs Fs.Blocks Transition Option Finset
open Function (update update_of_ne update_self)

/-! ## The slots -/

variable {pr : ProcFiles} {f fd : Nat}

section Slots

variable {P : Type}

/-- The slots of a process that point to the entry `f`. -/
def slotsOf (f : Nat) : Option ProcFiles → Int
  | none => 0
  | some pr => ∑ fd ∈ Finset.range nofile, pointsTo f (pr.ofile fd)

theorem slotsOf_setOfile (hfd : fd < nofile) (pr : ProcFiles) (o : Option Nat) :
    slotsOf f (some (ProcFiles.setOfile pr fd o)) = slotsOf f (some pr) - pointsTo f (pr.ofile fd) + pointsTo f o :=
  sum_update (mem_range.mpr hfd) (pointsTo f) pr.ofile o

/-- Nothing is open. -/
theorem slotsOf_empty (h : ∀ fd < nofile, pr.ofile fd = none) (f : Nat) : slotsOf f (some pr) = 0 := by
  refine sum_eq_zero fun fd hfd => ?_
  rw [h fd (mem_range.mp hfd)]
  rfl

variable [Fintype P]

/-- The slots of all processes that point to the entry `f`. -/
def slots (t : Tables P) (f : Nat) : Int := ∑ p, slotsOf f (t.procs p)

/-- Every entry has one reference for each slot, and `x f` that a call holds.  Beyond the table nothing is open. -/
structure Slotted (x : Nat → Int) (t : Tables P) : Prop where
  counted : ∀ f, (t.file f).ref = slots t f + x f
  bound : ∀ f, nfile ≤ f → (t.file f).ref ≤ 0

variable {x : Nat → Int}

section

variable {t : Tables P} (h : Slotted x t)
include h

theorem Slotted.lt_of_pos (hf : 0 < (t.file f).ref) : f < nfile := by
  by_contra hle
  have := h.bound f (by omega)
  omega

/-- References are taken or given. -/
theorem Slotted.setFile (hlt : f < nfile) {file : File}
    {k : Int} (href : file.ref = (t.file f).ref + k) : Slotted (bump x f k) (Tables.setFile t f file) := by
  refine ⟨fun g => ?_, fun g hg => ?_⟩
  · have hcounted := h.counted g
    show (update t.file f file g).ref = slots t g + _
    rcases eq_or_ne g f with rfl | hne
    · rw [update_self, bump_self]
      omega
    · rw [update_of_ne hne, bump_of_ne _ hne, hcounted]
  · have hne : g ≠ f := by omega
    show (update t.file f file g).ref ≤ 0
    rw [update_of_ne hne]
    exact h.bound g hg

/-- Anything but the count is written. -/
theorem Slotted.sameRef {file : File} (href : file.ref = (t.file f).ref) : Slotted x (Tables.setFile t f file) := by
  have hrefs : ∀ g, (update t.file f file g).ref = (t.file g).ref := by
    intro g
    rcases eq_or_ne g f with rfl | hne
    · rw [update_self, href]
    · rw [update_of_ne hne]
  refine ⟨fun g => (hrefs g).trans (h.counted g), fun g hg => ?_⟩
  show (update t.file f file g).ref ≤ 0
  rw [hrefs]
  exact h.bound g hg

end

variable [DecidableEq P]

theorem slots_setProc (t : Tables P) (p : P) (pr : Option ProcFiles) (f : Nat) :
    slots (Tables.setProc t p pr) f = slots t f - slotsOf f (t.procs p) + slotsOf f pr :=
  sum_update (mem_univ p) (slotsOf f) t.procs pr

/-- The slots of a process change, and the call has the difference. -/
theorem Slotted.setProc {y : Nat → Int} {t : Tables P} (h : Slotted x t) {p : P} {pr : Option ProcFiles}
    (hy : ∀ f, y f = x f + slotsOf f (t.procs p) - slotsOf f pr) : Slotted y (Tables.setProc t p pr) := by
  refine ⟨fun f => ?_, h.bound⟩
  show (t.file f).ref = _
  rw [h.counted f, slots_setProc, hy f]
  ring

section

variable {t : Tables P} {p : P} (h : Slotted x t) (hpr : t.procs p = some pr)
include h hpr

/-- A free slot takes over a reference. -/
theorem Slotted.fillSlot (hfd : fd < nofile) (hfree : pr.ofile fd = none) :
    Slotted (bump x f (-1)) (Tables.setProc t p (some (ProcFiles.setOfile pr fd (some f)))) := by
  refine h.setProc fun g => ?_
  rw [hpr, slotsOf_setOfile hfd, hfree, bump_apply, pointsTo_some]
  show _ = x g + _ - (_ - 0 + _)
  split <;> ring

/-- A slot gives a reference to the call. -/
theorem Slotted.clearSlot (hfd : fd < nofile) (hslot : pr.ofile fd = some f) :
    Slotted (bump x f 1) (Tables.setProc t p (some (ProcFiles.setOfile pr fd none))) := by
  refine h.setProc fun g => ?_
  rw [hpr, slotsOf_setOfile hfd, hslot, bump_apply, pointsTo_some]
  show _ = x g + _ - (_ - _ + 0)
  split <;> ring

/-- Only the directory of a process changes. -/
theorem Slotted.sameSlots {pr' : ProcFiles} (hslots : pr'.ofile = pr.ofile) : Slotted x (Tables.setProc t p (some pr')) := by
  refine h.setProc fun f => ?_
  have hsame : slotsOf f (some pr') = slotsOf f (some pr) := by simp only [slotsOf, hslots]
  rw [hpr, hsame]
  ring

end

end Slots

/-! ## The functions -/

/-- A failure that is not about a descriptor. -/
def Allowed (e : Halt) : Prop := e ≠ .badIndex ∧ e ≠ .nullFile

theorem tame_allowed : Tame Allowed := fun _ hindex hnull => ⟨hindex, hnull⟩

section Tables

variable {σ P : Type} (cache : BlockCache σ) {st : (σ × Mem) × Tables P}

/-- The file system does not reach the tables. -/
theorem wp_inFs_tables {α : Type} (f : FsM σ α) {Q : α → (σ × Mem) × Tables P → Prop}
    (h : ∀ a fs, Q a (fs, st.2)) : wp (inFs f) Q Allowed st := by
  refine wp_inFs_of_ret tame_allowed ?_
  unfold wp
  cases f st.1 with
  | ok r => exact h r.1 r.2
  | error e => trivial

theorem wp_endOp_tables {c : Nat} {Q : Unit → (σ × Mem) × Tables P → Prop} (h : ∀ fs, Q () (fs, st.2)) :
    wp (endOp cache c) Q Allowed st :=
  wp_bind.mpr (wp_inFs_tables _ fun _ fs => h fs)

theorem wp_finish_tables {α : Type} {a : α} {Q : α → (σ × Mem) × Tables P → Prop} (h : ∀ fs, Q a (fs, st.2)) :
    wp (finish cache a) Q Allowed st :=
  wp_bind.mpr (wp_endOp_tables cache h)

/-- `openat`, `mkdirat` and `mknodat` on their way out. -/
theorem wp_giveInodeBack_tables (sb : SuperBlock) {q : Nat} {r : Int} {Q : Int → (σ × Mem) × Tables P → Prop}
    (h : ∀ fs, Q r (fs, st.2)) : wp (giveInodeBack cache sb q r) Q Allowed st :=
  wp_bind.mpr (wp_inFs_tables _ fun _ _ => wp_bind.mpr (wp_inFs_tables _ fun _ _ => wp_finish_tables cache h))

end Tables

section Functions

variable {σ P : Type} [Fintype P] (cache : BlockCache σ) (sb : SuperBlock) {x : Nat → Int}
  {st : (σ × Mem) × Tables P} {p : P}

theorem slotted_filealloc (h : Slotted x st.2) :
    wp filealloc (fun r st' => Slotted (taken x r) st'.2 ∧ st'.2.procs = st.2.procs) Allowed st := by
  refine wp_filealloc ⟨h, rfl⟩ fun f hlt hfree => ⟨h.setFile hlt ?_, rfl⟩
  rw [hfree]
  rfl

theorem slotted_filedup (h : Slotted x st.2) (f : Nat) :
    wp (filedup f) (fun _ st' => Slotted (bump x f 1) st'.2 ∧ st'.2.procs = st.2.procs) Allowed st := by
  refine wp_bind.mpr (wp_getFile.mpr (wp_bind.mpr (wp_assert.mpr ⟨fun hpos => ?_, fun _ => ?_⟩)))
  · exact wp_setFile.mpr ⟨h.setFile (h.lt_of_pos (of_decide_eq_true hpos)) rfl, rfl⟩
  · exact tame_allowed _ (by simp) (by simp)

theorem slotted_fileclose (h : Slotted x st.2) (f : Nat) :
    wp (fileclose cache sb (some f)) (fun _ st' => Slotted (bump x f (-1)) st'.2 ∧ st'.2.procs = st.2.procs)
      Allowed st := by
  refine wp_bind.mpr (wp_getFile.mpr (wp_bind.mpr (wp_assert.mpr ⟨fun hpos => ?_, fun _ => ?_⟩)))
  · have hpos := of_decide_eq_true hpos
    have hlt := h.lt_of_pos hpos
    refine wp_ite.mpr ⟨fun _ => wp_setFile.mpr ⟨h.setFile hlt rfl, rfl⟩, fun hlast => ?_⟩
    refine wp_bind.mpr (wp_setFile.mpr ?_)
    have hclosed : Slotted (bump x f (-1)) (Tables.setFile st.2 f { st.2.file f with ref := 0, type := .none }) := by
      refine h.setFile hlt ?_
      show 0 = (st.2.file f).ref + -1
      omega
    unfold closeLast
    cases (st.2.file f).type with
    | inode =>
      refine wp_bind.mpr (wp_inFs_tables _ fun _ _ => wp_bind.mpr (wp_inFs_tables _ fun _ _ => ?_))
      exact wp_endOp_tables cache fun _ => ⟨hclosed, rfl⟩
    | pipe => exact ⟨hclosed, rfl⟩
    | none => exact ⟨hclosed, rfl⟩
  · exact tame_allowed _ (by simp) (by simp)

theorem slotted_closeIf (f : Option Nat) (h : Slotted (taken x f) st.2) :
    wp (closeIf cache sb f) (fun _ st' => Slotted x st'.2 ∧ st'.2.procs = st.2.procs) Allowed st := by
  cases f with
  | none => exact ⟨h, rfl⟩
  | some f =>
    refine wp_imp (slotted_fileclose cache sb h f) (fun _ _ h1 => ?_)
    rwa [taken, bump_back] at h1

theorem slotted_filestat (h : Slotted x st.2) (f : Nat) :
    wp (filestat f) (fun _ st' => Slotted x st'.2) Allowed st := by
  refine wp_bind.mpr (wp_getFile.mpr ?_)
  cases (st.2.file f).type with
  | inode =>
    refine wp_bind.mpr (wp_inFs_tables _ fun _ _ => wp_bind.mpr (wp_inFs_tables _ fun _ _ => ?_))
    exact wp_bind.mpr (wp_inFs_tables _ fun _ _ => h)
  | pipe => exact h
  | none => exact h

theorem advance_ref (file : File) (r : UInt64) : (file.advance r).ref = file.ref := by
  unfold File.advance
  split <;> rfl

section

variable (h : Slotted x st.2)
include h

theorem slotted_fileread (f : Nat) (n : UInt64) (con : Option (List UInt8)) (piped : Int) :
    wp (fileread cache sb f n con piped) (fun _ st' => Slotted x st'.2) Allowed st := by
  refine wp_bind.mpr (wp_getFile.mpr (wp_ite.mpr ⟨fun _ => h, fun _ => ?_⟩))
  cases (st.2.file f).type with
  | inode =>
    refine wp_bind.mpr (wp_inFs_tables _ fun _ _ => wp_bind.mpr (wp_inFs_tables _ fun r _ => ?_))
    refine wp_bind.mpr (wp_setFile.mpr (wp_bind.mpr (wp_inFs_tables _ fun _ _ => ?_)))
    exact h.sameRef (advance_ref _ r.1)
  | pipe => exact h
  | none => exact tame_allowed _ (by simp) (by simp)

theorem slotted_filewrite (f : Nat) (src : Nat → UInt8) (n : UInt64) (piped : Int) :
    wp (filewrite cache sb f src n piped) (fun _ st' => Slotted x st'.2) Allowed st := by
  refine wp_bind.mpr (wp_getFile.mpr (wp_ite.mpr ⟨fun _ => h, fun _ => ?_⟩))
  cases (st.2.file f).type with
  | inode =>
    refine wp_bind.mpr (wp_inFs_tables _ fun _ _ => wp_bind.mpr (wp_inFs_tables _ fun _ _ => ?_))
    refine wp_bind.mpr (wp_inFs_tables _ fun r _ => wp_bind.mpr (wp_setFile.mpr ?_))
    refine wp_bind.mpr (wp_inFs_tables _ fun _ _ => wp_bind.mpr (wp_endOp_tables cache fun _ => ?_))
    exact h.sameRef (advance_ref _ r)
  | pipe => exact h
  | none => exact tame_allowed _ (by simp) (by simp)

theorem slotted_read (fd size : Int) (writeable : Bool) (con : Option (List UInt8))
    (piped : Int) : wp (sysRead cache sb p fd size writeable con piped) (fun _ st' => Slotted x st'.2) Allowed st := by
  refine wp_bind.mpr (wp_fd2file tame_allowed h fun pr f _ _ _ => wp_ite.mpr ⟨fun _ => h, fun _ => ?_⟩)
  exact slotted_fileread cache sb h f _ con piped

theorem slotted_write (fd size : Int) (readable : Bool) (src : Nat → UInt8) (piped : Int) :
    wp (sysWrite cache sb p fd size readable src piped) (fun _ st' => Slotted x st'.2) Allowed st := by
  refine wp_bind.mpr (wp_fd2file tame_allowed h fun pr f _ _ _ => wp_ite.mpr ⟨fun _ => h, fun _ => ?_⟩)
  exact slotted_filewrite cache sb h f src _ piped

theorem slotted_writev (fd : Int) (readable : Bool) (iov : List Iovec) :
    wp (sysWritev cache sb p fd readable iov) (fun _ st' => Slotted x st'.2) Allowed st := by
  have hloop : ∀ (f : Nat) (iov : List Iovec) (tot : Int) (st : (σ × Mem) × Tables P), Slotted x st.2 →
      wp (writevLoop cache sb f iov tot) (fun _ st' => Slotted x st'.2) Allowed st := by
    intro f iov
    induction iov with
    | nil => exact fun _ _ h => h
    | cons v iov ih =>
      intro tot st h
      refine wp_ite.mpr ⟨fun _ => h, fun _ => ?_⟩
      exact wp_seq (slotted_filewrite cache sb h f v.src v.len v.piped) fun n st₁ h1 => ih _ st₁ h1
  refine wp_bind.mpr (wp_fd2file tame_allowed h fun pr f _ _ _ => wp_ite.mpr ⟨fun _ => h, fun _ => ?_⟩)
  exact hloop f iov 0 st h

theorem slotted_fstat (fd : Int) (writeable : Bool) :
    wp (sysFstat p fd writeable) (fun _ st' => Slotted x st'.2) Allowed st := by
  refine wp_bind.mpr (wp_fd2file tame_allowed h fun pr f _ _ _ => wp_ite.mpr ⟨fun _ => h, fun _ => ?_⟩)
  exact slotted_filestat h f

/-- The calls on a path that begin with `namei` or `create`. -/
theorem slotted_onPath {c : Prop} [Decidable c] {f : ProcFiles → FsM σ (Option Nat)} {g : Nat → SysM σ P Int} {r : Int}
    (hg : ∀ q fs, wp (g q) (fun _ st' => Slotted x st'.2) Allowed (fs, st.2)) :
    wp (do
      let pr ← thisproc p
      if c then pure (-1)
      else do
        beginOp cache sysCtx
        match ← inFs (f pr) with
        | none => finish cache r
        | some ip => g ip : SysM σ P Int) (fun _ st' => Slotted x st'.2) Allowed st := by
  refine wp_bind.mpr (wp_thisproc tame_allowed fun pr _ => wp_ite.mpr ⟨fun _ => h, fun _ => ?_⟩)
  refine wp_bind.mpr (wp_inFs_tables _ fun _ _ => wp_bind.mpr (wp_inFs_tables _ fun r _ => ?_))
  cases r with
  | none => exact wp_finish_tables cache fun _ => h
  | some q => exact hg q _

theorem slotted_newfstatat (ok : Bool) (path : List UInt8) :
    wp (sysNewfstatat cache sb p ok path) (fun _ st' => Slotted x st'.2) Allowed st := by
  refine slotted_onPath cache h fun q fs => ?_
  refine wp_bind.mpr (wp_inFs_tables _ fun _ _ => wp_bind.mpr (wp_inFs_tables _ fun _ _ => ?_))
  exact wp_giveInodeBack_tables cache sb fun _ => h

theorem slotted_unlinkat (atCwd : Bool) (flag : Int) (readable : Bool) (path : List UInt8) :
    wp (sysUnlinkat cache sb p atCwd flag readable path) (fun _ st' => Slotted x st'.2) Allowed st := by
  refine wp_bind.mpr (wp_assert.mpr ⟨fun _ => ?_, fun _ => tame_allowed _ (by simp) (by simp)⟩)
  refine wp_bind.mpr (wp_thisproc tame_allowed fun pr _ => wp_ite.mpr ⟨fun _ => h, fun _ => ?_⟩)
  refine wp_bind.mpr (wp_inFs_tables _ fun _ _ => wp_bind.mpr (wp_inFs_tables _ fun r _ => ?_))
  exact wp_finish_tables cache fun _ => h

theorem slotted_mkdirat (ok : Bool) (path : List UInt8) :
    wp (sysMkdirat cache sb p ok path) (fun _ st' => Slotted x st'.2) Allowed st :=
  slotted_onPath cache h fun _ _ => wp_giveInodeBack_tables cache sb fun _ => h

theorem slotted_mknodat (ok : Bool) (path : List UInt8) (major minor : UInt16) :
    wp (sysMknodat cache sb p ok path major minor) (fun _ st' => Slotted x st'.2) Allowed st :=
  slotted_onPath cache h fun _ _ => wp_giveInodeBack_tables cache sb fun _ => h

theorem slotted_execve (path : List UInt8) (argv : List UInt64) (con : UInt64 → Option (List UInt8)) :
    wp (sysExecve cache sb p path argv con) (fun _ st' => Slotted x st'.2) Allowed st :=
  wp_bind.mpr (wp_thisproc tame_allowed fun _ _ => wp_inFs_tables _ fun _ _ => h)

theorem slotted_setPipeEnd (f : Nat) (writable : Bool) :
    wp (setPipeEnd f writable) (fun _ st' => Slotted x st'.2 ∧ st'.2.procs = st.2.procs) Allowed st :=
  wp_bind.mpr (wp_getFile.mpr (wp_setFile.mpr ⟨h.sameRef rfl, rfl⟩))

end

theorem taken_comm (x : Nat → Int) (a b : Option Nat) : taken (taken x a) b = taken (taken x b) a := by
  cases a with
  | none => rfl
  | some p =>
    cases b with
    | none => rfl
    | some q => exact bump_comm x p q 1 1

/-- `pipeAlloc` returns two references, or it has closed what it had opened. -/
theorem slotted_pipeAlloc (h : Slotted x st.2) (kalloced : Bool) :
    wp (pipeAlloc cache sb kalloced) (fun r st' => Slotted (taken (taken x (r.map Prod.fst)) (r.map Prod.snd)) st'.2 ∧
      st'.2.procs = st.2.procs ∧ (r ≠ none → kalloced = true)) Allowed st := by
  refine wp_seq (slotted_filealloc h) fun f₀ st₁ h1 => ?_
  refine wp_seq (slotted_filealloc h1.1) fun f₁ st₂ h2 => ?_
  have hgiveUp : wp (do closeIf cache sb f₀; closeIf cache sb f₁; pure none : SysM σ P (Option (Nat × Nat)))
      (fun r st' => Slotted (taken (taken x (r.map Prod.fst)) (r.map Prod.snd)) st'.2 ∧
        st'.2.procs = st.2.procs ∧ (r ≠ none → kalloced = true)) Allowed st₂ := by
    have hboth := h2.1
    rw [taken_comm] at hboth
    refine wp_seq (slotted_closeIf cache sb f₀ hboth) fun _ st₃ h3 => ?_
    refine wp_seq (slotted_closeIf cache sb f₁ h3.1) fun _ st₄ h4 => ⟨h4.1, ?_, fun hr => absurd rfl hr⟩
    rw [h4.2, h3.2, h2.2, h1.2]
  cases kalloced with
  | false => exact hgiveUp
  | true =>
    cases f₀ with
    | none => exact hgiveUp
    | some a =>
      cases f₁ with
      | none => exact hgiveUp
      | some b =>
        refine wp_seq (slotted_setPipeEnd h2.1 a false) fun _ st₃ h3 => ?_
        refine wp_seq (slotted_setPipeEnd h3.1 b true) fun _ st₄ h4 => ⟨h4.1, ?_, fun _ => rfl⟩
        rw [h4.2, h3.2, h2.2, h1.2]

end Functions

/-! ## The calls that write to slots -/

section Calls

variable {σ P : Type} [Fintype P] [DecidableEq P] (cache : BlockCache σ) (sb : SuperBlock) {x : Nat → Int}
  {st : (σ × Mem) × Tables P} {p : P}

section

variable (h : Slotted x st.2)
include h

theorem slotted_fdalloc (f : Nat) : wp (fdalloc p f) (fun r st' => st'.2.file = st.2.file ∧ match r with
      | none => Slotted x st'.2 | some _ => Slotted (bump x f (-1)) st'.2) Allowed st :=
  wp_fdalloc tame_allowed (fun _ _ _ => ⟨rfl, h⟩) fun _ _ hpr hlt hfree => ⟨rfl, h.fillSlot hpr hlt hfree⟩

theorem slotted_dup (fd : Int) : wp (sysDup p fd) (fun _ st' => Slotted x st'.2) Allowed st := by
  refine wp_bind.mpr (wp_fd2file tame_allowed h fun pr f _ _ _ => ?_)
  refine wp_seq (slotted_fdalloc h f) fun r st₁ h1 => ?_
  cases r with
  | none => exact h1.2
  | some fd' =>
    -- the slot is there before the reference
    refine wp_seq (slotted_filedup h1.2 f) fun _ _ h2 => ?_
    rw [bump_comm, bump_back] at h2
    exact h2.1

theorem slotted_close (fd : Int) (hfd : 0 ≤ fd ∧ fd < nofile) (hslot : ∀ pr ∈ st.2.procs p, pr.ofile fd.toNat ≠ none) :
    wp (sysClose cache sb p fd) (fun _ st' => Slotted x st'.2) Allowed st := by
  refine wp_bind.mpr (wp_thisproc tame_allowed fun pr hpr => ?_)
  refine wp_ite.mpr ⟨fun _ => wp_bind.mpr (wp_setProc.mpr ?_), fun hout => absurd hfd hout⟩
  cases hf : pr.ofile fd.toNat with
  | none => exact absurd hf (hslot pr hpr)
  | some f =>
    have hcleared := h.clearSlot hpr (by omega) hf
    refine wp_seq (slotted_fileclose cache sb hcleared f) fun _ _ h1 => ?_
    rw [bump_back] at h1
    exact h1.1

theorem slotted_openat (atCwd readable : Bool) (path : List UInt8) (mode : OpenMode) :
    wp (sysOpenat cache sb p atCwd readable path mode) (fun _ st' => Slotted x st'.2) Allowed st := by
  refine slotted_onPath cache h fun q fs => ?_
  refine wp_seq (slotted_filealloc h) fun r st₁ h1 => ?_
  cases r with
  | none => exact wp_giveInodeBack_tables cache sb fun _ => h1.1
  | some f =>
    refine wp_seq (slotted_fdalloc h1.1 f) fun r st₂ h2 => ?_
    cases r with
    | none =>
      refine wp_seq (slotted_fileclose cache sb h2.2 f) fun _ st₃ h3 => ?_
      rw [taken, bump_back] at h3
      exact wp_giveInodeBack_tables cache sb fun _ => h3.1
    | some fd =>
      have hslot := h2.2
      rw [taken, bump_back] at hslot
      refine wp_bind.mpr (wp_inFs_tables _ fun _ _ => wp_bind.mpr (wp_endOp_tables cache fun _ => ?_))
      exact wp_bind.mpr (wp_getFile.mpr (wp_bind.mpr (wp_setFile.mpr (hslot.sameRef rfl))))

end

/-- Two descriptors are free. -/
def TwoFree (pr : ProcFiles) : Prop := 1 < ((Finset.range nofile).filter fun fd => pr.ofile fd = none).card

section

variable (h : Slotted x st.2)
include h

theorem slotted_pipe2 (kalloced : Bool) (hfree : kalloced = true → ∀ pr ∈ st.2.procs p, TwoFree pr) :
    wp (sysPipe2 cache sb p kalloced) (fun _ st' => Slotted x st'.2) Allowed st := by
  refine wp_seq (slotted_pipeAlloc cache sb h kalloced) fun r st₁ h1 => ?_
  obtain ⟨hslots, hprocs, hkalloced⟩ := h1
  cases r with
  | none => exact hslots
  | some fs =>
    refine wp_bind.mpr (wp_fdalloc tame_allowed (fun pr hpr hfull => ?_) fun pr fd hpr hlt hnone => ?_)
    all_goals
      rw [hprocs] at hpr
      obtain ⟨a, ha, b, hb, hab⟩ := one_lt_card.mp (hfree (hkalloced (by simp)) pr hpr)
      rw [mem_filter, mem_range] at ha hb
    · exact absurd ha.2 (hfull a ha.1)
    · have hfirst := hslots.fillSlot (f := fs.1) (by rw [hprocs, hpr]) hlt hnone
      -- one of the two is still free
      obtain ⟨c, hc, hne, hcfree⟩ : ∃ c < nofile, c ≠ fd ∧ pr.ofile c = none := by
        rcases eq_or_ne a fd with rfl | hne
        · exact ⟨b, hb.1, hab.symm, hb.2⟩
        · exact ⟨a, ha.1, hne, ha.2⟩
      have hstill : (ProcFiles.setOfile pr fd (some fs.1)).ofile c = none := by
        show update pr.ofile fd (some fs.1) c = none
        rw [update_of_ne hne, hcfree]
      have hproc : (Tables.setProc st₁.2 p (some (ProcFiles.setOfile pr fd (some fs.1)))).procs p =
        some (ProcFiles.setOfile pr fd (some fs.1)) := update_self ..
      refine wp_bind.mpr (wp_fdalloc tame_allowed (fun pr' hpr' hfull => ?_) fun pr' fd' hpr' hlt' hnone' => ?_)
      · obtain rfl := some.inj (hproc.symm.trans hpr')
        exact absurd hstill (hfull c hc)
      · have hsecond := hfirst.fillSlot (f := fs.2) hpr' hlt' hnone'
        have hx : bump (bump (bump (bump x fs.1 1) fs.2 1) fs.1 (-1)) fs.2 (-1) = x := by
          rw [bump_comm _ fs.2 fs.1, bump_back, bump_back]
        show Slotted x _
        rw [← hx]
        exact hsecond

theorem slotted_chdir (path : List UInt8) :
    wp (sysChdir cache sb p path) (fun _ st' => Slotted x st'.2) Allowed st := by
  refine wp_bind.mpr (wp_thisproc tame_allowed fun pr hpr => ?_)
  refine wp_bind.mpr (wp_inFs_tables _ fun _ _ => wp_bind.mpr (wp_inFs_tables _ fun r _ => ?_))
  cases r with
  | none => exact wp_finish_tables cache fun _ => h
  | some q =>
    refine wp_bind.mpr (wp_inFs_tables _ fun _ _ => wp_bind.mpr (wp_inFs_tables _ fun ip _ => ?_))
    refine wp_bind.mpr (wp_inFs_tables _ fun _ _ => wp_ite.mpr ⟨fun _ => wp_finish_tables cache fun _ => h, fun _ => ?_⟩)
    refine wp_bind.mpr (wp_inFs_tables _ fun _ _ => wp_bind.mpr (wp_endOp_tables cache fun _ => ?_))
    exact wp_bind.mpr (wp_setProc.mpr (h.sameSlots hpr rfl))

/-! ## Processes -/

theorem slotted_createProc {q : P} (hq : st.2.procs q = none) :
    wp (createProc q) (fun _ st' => Slotted x st'.2 ∧ ∃ qr, st'.2.procs q = some qr ∧ ∀ fd, qr.ofile fd = none)
      Allowed st := by
  refine wp_bind.mpr (wp_onSnd.mpr (wp_get.mpr (wp_setProc.mpr ⟨h.setProc fun f => ?_, ?_⟩)))
  · rw [hq, slotsOf_empty fun _ _ => rfl]
    show x f = x f + 0 - 0
    ring
  · exact ⟨_, update_self .., fun _ => rfl⟩

theorem slotted_forkFiles {q : P} (pr : ProcFiles) (hfd : fd < nofile)
    (hq : ∃ qr, st.2.procs q = some qr ∧ ∀ i, fd ≤ i → qr.ofile i = none) :
    wp (forkFiles pr q fd) (fun _ st' => Slotted x st'.2 ∧
      ∃ qr, st'.2.procs q = some qr ∧ ∀ i, fd + 1 ≤ i → qr.ofile i = none) Allowed st := by
  obtain ⟨qr, hqr, hfree⟩ := hq
  unfold forkFiles
  cases pr.ofile fd with
  | none => exact ⟨h, qr, hqr, fun i hi => hfree i (by omega)⟩
  | some f =>
    refine wp_seq (slotted_filedup h f) fun _ st₁ h1 => ?_
    have hqr1 : st₁.2.procs q = some qr := by rw [h1.2, hqr]
    refine wp_bind.mpr (wp_thisproc tame_allowed fun qr' hqr' => wp_setProc.mpr ?_)
    obtain rfl : qr' = qr := some.inj (hqr'.symm.trans hqr1)
    have hfilled := h1.1.fillSlot (f := f) hqr1 hfd (hfree fd le_rfl)
    rw [bump_back] at hfilled
    refine ⟨hfilled, _, update_self .., fun i hi => ?_⟩
    show update qr'.ofile fd (some f) i = none
    rw [update_of_ne (by omega)]
    exact hfree i (by omega)

theorem slotted_fork {q : P} (hq : st.2.procs q = none) :
    wp (fork p q) (fun _ st' => Slotted x st'.2) Allowed st := by
  refine wp_bind.mpr (wp_thisproc tame_allowed fun pr hpr => ?_)
  refine wp_seq (slotted_createProc h hq) fun _ st₁ h1 => ?_
  obtain ⟨hslots, qr, hqr, hempty⟩ := h1
  refine wp_seq (wp_forRange (I := fun fd st' => Slotted x st'.2 ∧
    ∃ qr, st'.2.procs q = some qr ∧ ∀ i, fd ≤ i → qr.ofile i = none) ⟨hslots, qr, hqr, fun i _ => hempty i⟩
    fun fd hfd st₂ h2 => slotted_forkFiles h2.1 pr hfd h2.2) fun _ st₂ h2 => ?_
  refine wp_bind.mpr (wp_thisproc tame_allowed fun qr' hqr' => ?_)
  cases qr'.cwd with
  | none => exact h2.1
  | some r =>
    cases pr.cwd with
    | none => exact tame_allowed _ (by simp) (by simp)
    | some d => exact wp_bind.mpr (wp_inFs_tables _ fun _ _ => wp_bind.mpr (wp_setProc.mpr (h2.1.sameSlots hqr' rfl)))

theorem slotted_exitFile (hfd : fd < nofile) (hclosed : ∀ pr ∈ st.2.procs p, ∀ i < fd, pr.ofile i = none) :
    wp (exitFile cache sb p fd) (fun _ st' => Slotted x st'.2 ∧ ∀ pr ∈ st'.2.procs p, ∀ i < fd + 1, pr.ofile i = none)
      Allowed st := by
  refine wp_bind.mpr (wp_thisproc tame_allowed fun pr hpr => ?_)
  cases hf : pr.ofile fd with
  | none =>
    refine ⟨h, fun pr' hpr' i hi => ?_⟩
    obtain rfl : pr' = pr := some.inj (hpr'.symm.trans hpr)
    rcases Nat.lt_succ_iff_lt_or_eq.mp hi with hlt | rfl
    · exact hclosed pr' hpr' i hlt
    · exact hf
  | some f =>
    refine wp_seq (slotted_fileclose cache sb h f) fun _ st₁ h1 => wp_setProc.mpr ?_
    have hpr1 : st₁.2.procs p = some pr := by rw [h1.2, hpr]
    have hcleared := h1.1.clearSlot hpr1 hfd hf
    rw [bump_comm, bump_back] at hcleared
    refine ⟨hcleared, fun pr' hpr' i hi => ?_⟩
    replace hpr' : update st₁.2.procs p (some (ProcFiles.setOfile pr fd none)) p = some pr' := hpr'
    rw [update_self] at hpr'
    cases hpr'
    show update pr.ofile fd none i = none
    rcases Nat.lt_succ_iff_lt_or_eq.mp hi with hlt | rfl
    · rw [update_of_ne (by omega)]
      exact hclosed pr hpr i hlt
    · exact update_self ..

theorem slotted_exit : wp (exit cache sb p) (fun _ st' => Slotted x st'.2) Allowed st := by
  refine wp_seq (wp_forRange (I := fun fd st' => Slotted x st'.2 ∧ ∀ pr ∈ st'.2.procs p, ∀ i < fd, pr.ofile i = none)
    ⟨h, fun _ _ i hi => absurd hi (by omega)⟩ fun fd hfd st₁ h1 => slotted_exitFile cache sb h1.1 hfd h1.2)
    fun _ st₁ h1 => wp_bind.mpr (wp_thisproc tame_allowed fun pr hpr => ?_)
  have hgone : Slotted x (Tables.setProc st₁.2 p none) := by
    refine h1.1.setProc fun f => ?_
    rw [hpr, slotsOf_empty (h1.2 pr hpr)]
    show x f = x f + 0 - 0
    ring
  cases pr.cwd with
  | none => exact wp_bind.mpr (wp_setProc.mpr hgone)
  | some d =>
    refine wp_bind.mpr (wp_inFs_tables _ fun _ _ => wp_bind.mpr (wp_inFs_tables _ fun _ _ => ?_))
    exact wp_bind.mpr (wp_endOp_tables cache fun _ => wp_bind.mpr (wp_setProc.mpr hgone))

end

end Calls

/-! ## Any call -/

section Step

variable {σ P : Type}

/-- `close` is called on an open descriptor, and `pipe2` with two free ones. -/
def UsesSlots (s : (σ × Mem) × Tables P) : Call P → Prop
  | .close p fd => (0 ≤ fd ∧ fd < nofile) ∧ ∀ pr ∈ s.2.procs p, pr.ofile fd.toNat ≠ none
  | .pipe2 p kalloced => kalloced = true → ∀ pr ∈ s.2.procs p, TwoFree pr
  | _ => True

instance (pr : ProcFiles) : Decidable (TwoFree pr) := inferInstanceAs (Decidable (1 < Finset.card _))

instance (s : (σ × Mem) × Tables P) : DecidablePred (UsesSlots s)
  | .close p fd => inferInstanceAs (Decidable ((0 ≤ fd ∧ fd < nofile) ∧ ∀ pr ∈ s.2.procs p, pr.ofile fd.toNat ≠ none))
  | .pipe2 p kalloced => inferInstanceAs (Decidable (kalloced = true → ∀ pr ∈ s.2.procs p, TwoFree pr))
  | .createProc _ | .fork .. | .exit _ | .execve .. | .openat .. | .mkdirat .. | .mknodat .. | .unlinkat ..
  | .newfstatat .. | .chdir .. | .dup .. | .read .. | .write .. | .writev .. | .fstat .. => isTrue trivial

variable [Fintype P] [DecidableEq P] {cache : BlockCache σ} {sb : SuperBlock} {s s' : (σ × Mem) × Tables P}
  {call : Call P}

theorem slotted_prog (hproper : call.proper s.2 = true) (hC : UsesSlots s call) (h : Slotted 0 s.2) :
    wp (call.prog cache sb) (fun _ s' => Slotted 0 s'.2) Allowed s := by
  cases call with
  | createProc q => exact wp_seq (slotted_createProc h (isNone_iff_eq_none.mp hproper)) fun _ _ h1 => h1.1
  | fork p q => exact slotted_fork h (isNone_iff_eq_none.mp hproper)
  | exit p => exact slotted_exit cache sb h
  | execve p path argv con => exact slotted_execve cache sb h path argv con
  | openat p atCwd readable path mode => exact slotted_openat cache sb h atCwd readable path mode
  | mkdirat p ok path => exact slotted_mkdirat cache sb h ok path
  | mknodat p ok path major minor => exact slotted_mknodat cache sb h ok path major minor
  | unlinkat p atCwd flag readable path => exact slotted_unlinkat cache sb h atCwd flag readable path
  | newfstatat p ok path => exact slotted_newfstatat cache sb h ok path
  | chdir p path => exact slotted_chdir cache sb h path
  | dup p fd => exact slotted_dup h fd
  | close p fd => exact slotted_close cache sb h fd hC.1 hC.2
  | read p fd size writeable con piped => exact slotted_read cache sb h fd size writeable con piped
  | write p fd size readable src piped => exact slotted_write cache sb h fd size readable src piped
  | writev p fd readable iov => exact slotted_writev cache sb h fd readable iov
  | fstat p fd writeable => exact slotted_fstat h fd writeable
  | pipe2 p kalloced => exact slotted_pipe2 cache sb h kalloced hC

theorem slotted_step (hC : UsesSlots s call) (h : Slotted 0 s.2) (hstep : step cache sb s call = some s') :
    Slotted 0 s'.2 := by
  obtain ⟨hproper, hstep⟩ := ite_none_right_eq_some.mp hstep
  exact of_wp_exec (I := fun s' => Slotted 0 s'.2) (slotted_prog hproper hC h) hstep

omit [DecidableEq P] in
/-- What a slot points to is an open entry of the table. -/
theorem Slotted.open_of_slot {t : Tables P} (h : Slotted 0 t) {p : P}
    (hpr : t.procs p = some pr) (hfd : fd < nofile) (hf : pr.ofile fd = some f) : f < nfile ∧ 0 < (t.file f).ref := by
  have hpoints : ∀ o, 0 ≤ pointsTo f o := by
    intro o
    unfold pointsTo
    split <;> decide
  have hslotsOf : ∀ q, 0 ≤ slotsOf f (t.procs q) := by
    intro q
    cases t.procs q with
    | none => exact le_rfl
    | some qr => exact sum_nonneg fun i _ => hpoints _
  have hone : (1 : Int) ≤ slotsOf f (t.procs p) := by
    have hterm := single_le_sum (f := fun i => pointsTo f (pr.ofile i)) (fun i _ => hpoints _)
      (mem_range.mpr hfd)
    rw [hpr]
    simp only [hf, pointsTo_some, if_pos] at hterm
    exact hterm
  have hall : slotsOf f (t.procs p) ≤ slots t f :=
    single_le_sum (f := fun q => slotsOf f (t.procs q)) (fun q _ => hslotsOf q) (mem_univ p)
  have hpos : 0 < (t.file f).ref := by
    have hcounted := h.counted f
    simp only [Pi.zero_apply, add_zero] at hcounted
    omega
  exact ⟨h.lt_of_pos hpos, hpos⟩

/-- Every entry has one reference for each slot that points to it, and slots point to open entries. -/
structure ExactSlots (t : Tables P) : Prop where
  counted : ∀ f, (t.file f).ref = slots t f
  opened : ∀ p pr fd f, t.procs p = some pr → fd < nofile → pr.ofile fd = some f → f < nfile ∧ 0 < (t.file f).ref
  bound : ∀ f, nfile ≤ f → (t.file f).ref ≤ 0

omit [DecidableEq P] in
theorem exactSlots_iff (t : Tables P) : ExactSlots t ↔ Slotted 0 t := by
  constructor
  · exact fun h => ⟨fun f => by rw [h.counted f, Pi.zero_apply, add_zero], h.bound⟩
  · intro h
    refine ⟨fun f => ?_, fun p pr fd f hpr hfd hf => h.open_of_slot hpr hfd hf, h.bound⟩
    rw [h.counted f, Pi.zero_apply, add_zero]

/-- **Reference counts of the file table are exact**, in every run that closes open descriptors only and makes pipes
with two free ones only, and no such call goes wrong on a descriptor. -/
theorem file_refs_exact {s₀ s : (σ × Mem) × Tables P} {calls : List (Call P)} (hstart : ExactSlots s₀.2)
    (hmeets : RunMeets (step cache sb) UsesSlots s₀ calls) (hrun : run (step cache sb) s₀ calls = some s) :
    ExactSlots s.2 ∧ ∀ call : Call P, call.proper s.2 = true → UsesSlots s call →
      call.prog cache sb s ≠ .error .badIndex ∧ call.prog cache sb s ≠ .error .nullFile := by
  rw [exactSlots_iff] at hstart ⊢
  have hend : Slotted 0 s.2 := run_invariant (I := fun s => Slotted 0 s.2)
    (fun s call s' h hC hstep => slotted_step hC h hstep) calls s₀ s hstart hmeets hrun
  refine ⟨hend, fun call hproper hC => ?_⟩
  have hprog : wp (call.prog cache sb) (fun _ s' => Slotted 0 s'.2) Allowed s := slotted_prog hproper hC hend
  exact ⟨fun herror => (of_wp_error hprog herror).1 rfl, fun herror => (of_wp_error hprog herror).2 rfl⟩

omit [DecidableEq P] in
theorem exactSlots_tablesAtBoot (live : P → Bool) : ExactSlots (tablesAtBoot live) := by
  rw [exactSlots_iff]
  refine ⟨fun f => ?_, fun f _ => le_rfl⟩
  have hslotsOf : ∀ q, slotsOf f ((tablesAtBoot live).procs q) = 0 := by
    intro q
    simp only [tablesAtBoot]
    split
    · exact slotsOf_empty (fun _ _ => rfl) f
    · rfl
  rw [slots, sum_eq_zero fun q _ => hslotsOf q]
  rfl

end Step

/-- The tables before there is a file system, with one process. -/
def oneProcess (s₀ : Cache.State) : (Cache.State × Mem) × Tables (Fin 2) := ((s₀, noInodes), tablesAtBoot fun p => p == 0)

/-- A pipe is made and shared with a child, which closes one end and duplicates the other. -/
def pipeline : List (Call (Fin 2)) := [.pipe2 0 true, .fork 0 1, .close 1 0, .dup 1 1, .close 0 1, .exit 0]

theorem file_refs_exact_pipeline : ∃ s₀ s, Cache.initBcache (logDisk 63) rootDisk = .ok s₀ ∧
    run (step (bcache (logDisk 63)) (logDisk 63)) (oneProcess s₀) pipeline = some s ∧
    ((s.2.file 0).ref, (s.2.file 1).ref) = (0, 2) ∧ ExactSlots s.2 := by
  have hview : ((Cache.initBcache (logDisk 63) rootDisk).toOption.bind fun s₀ =>
      if RunMeets (step (bcache (logDisk 63)) (logDisk 63)) UsesSlots (oneProcess s₀) pipeline
      then run (step (bcache (logDisk 63)) (logDisk 63)) (oneProcess s₀) pipeline else none).map
        (fun s => ((s.2.file 0).ref, (s.2.file 1).ref)) = some (0, 2) := by
    decide +kernel
  obtain ⟨s, hs, hrefs⟩ := map_eq_some_iff.mp hview
  obtain ⟨s₀, hs0, hs⟩ := bind_eq_some_iff.mp hs
  obtain ⟨hmeets, hrun⟩ := ite_none_right_eq_some.mp hs
  exact ⟨s₀, s, toOption_eq_some.mp hs0, hrun, hrefs, (file_refs_exact (exactSlots_tablesAtBoot _) hmeets hrun).1⟩

/-- A process whose descriptors have all been duplicated from one. -/
def fullTable (s₀ : Cache.State) : (Cache.State × Mem) × Tables Unit :=
  ((s₀, noInodes),
    { file := fun f => if f = 0 then { File.empty with type := .pipe, ref := 128 } else File.empty
      procs := fun _ => some { ofile := fun _ => some 0, cwd := none }
      root := none })

theorem exactSlots_fullTable (s₀ : Cache.State) : ExactSlots (fullTable s₀).2 := by
  rw [exactSlots_iff]
  refine ⟨fun f => ?_, fun f hf => ?_⟩
  · have hslots : slots (fullTable s₀).2 f = 128 * pointsTo f (some 0) := by
      show (∑ _ : Unit, ∑ _ ∈ Finset.range nofile, pointsTo f (some 0)) = _
      simp [nofile]
    rw [hslots, pointsTo_some, Pi.zero_apply, add_zero]
    show (if f = 0 then { File.empty with type := .pipe, ref := 128 } else File.empty).ref = _
    rcases eq_or_ne f 0 with rfl | hne
    · rfl
    · rw [if_neg hne, if_neg hne.symm]
      rfl
  · have hne : f ≠ 0 := by
      rintro rfl
      exact absurd hf (by decide)
    show (if f = 0 then { File.empty with type := .pipe, ref := 128 } else File.empty).ref ≤ 0
    rw [if_neg hne]
    rfl

/-- `close` of -1 is outside `ofile`, `close` of what is not open follows NULL, and `pipe2` without free descriptors
leaves an entry that nobody can close. -/
theorem descriptors_unchecked : ∃ s₀ s, Cache.initBcache (logDisk 63) rootDisk = .ok s₀ ∧
    sysClose (bcache (logDisk 63)) (logDisk 63) 0 (-1) (oneProcess s₀) = .error .badIndex ∧
    sysClose (bcache (logDisk 63)) (logDisk 63) 0 5 (oneProcess s₀) = .error .nullFile ∧
    ExactSlots (fullTable s₀).2 ∧
    run (step (bcache (logDisk 63)) (logDisk 63)) (fullTable s₀) [.pipe2 () true] = some s ∧
    (s.2.file 1).ref = 1 ∧ slots s.2 1 = 0 := by
  have hview : ((Cache.initBcache (logDisk 63) rootDisk).toOption.bind fun s₀ =>
      run (step (bcache (logDisk 63)) (logDisk 63)) (fullTable s₀) [.pipe2 () true]).map
        (fun s => ((s.2.file 1).ref, slots s.2 1)) = some (1, 0) := by
    decide +kernel
  obtain ⟨s, hs, hleak⟩ := map_eq_some_iff.mp hview
  obtain ⟨s₀, hs0, hrun⟩ := bind_eq_some_iff.mp hs
  obtain ⟨href, hslots⟩ := Prod.ext_iff.mp hleak
  exact ⟨s₀, s, toOption_eq_some.mp hs0, rfl, rfl, exactSlots_fullTable s₀, hrun, href, hslots⟩

end Armv8Os.Sysfile
