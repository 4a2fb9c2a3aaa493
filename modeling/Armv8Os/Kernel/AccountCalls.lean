/-
  Every system call keeps the books.

  The crux is in what does NOT come out even.  With `E` (the books are exact) a new process must not get
  `inodes.root` for nothing, and `chdir` has to give back what it does not use; with `H = some _` (locks are watched)
  `create` must not return an inode, because its callers unlock it once more; and with or without, the arguments
  of `execve` have to fit.  These are the conditions of `accounted_step`.
-/
import Armv8Os.Kernel.Accounts

namespace Armv8Os.Sysfile

open Prog Fs Transition

/-! ## The calls on descriptors -/

section Calls

variable {σ P : Type} [Fintype P] (cache : BlockCache σ) (sb : SuperBlock) {H : Option (Finset Nat)}
  {E : Prop} {x : Nat → Int} {st : (σ × Mem) × Tables P} {p : P}

section

variable (h : Owing H E x st)
include h

theorem owing_read (fd size : Int) (writeable : Bool) (con : Option (List UInt8))
    (piped : Int) : Ret (sysRead cache sb p fd size writeable con piped) st fun _ st' => Owing H E x st' := by
  refine wp_bind.mpr (wp_fd2file tame_true h fun pr f _ _ _ => wp_ite.mpr ⟨fun _ => h, fun _ => ?_⟩)
  exact owing_fileread cache sb h f _ con piped

theorem owing_write (fd size : Int) (readable : Bool) (src : Nat → UInt8) (piped : Int) :
    Ret (sysWrite cache sb p fd size readable src piped) st fun _ st' => Owing H E x st' := by
  refine wp_bind.mpr (wp_fd2file tame_true h fun pr f _ _ _ => wp_ite.mpr ⟨fun _ => h, fun _ => ?_⟩)
  exact owing_filewrite cache sb h f src _ piped

theorem owing_writev (fd : Int) (readable : Bool) (iov : List Iovec) :
    Ret (sysWritev cache sb p fd readable iov) st fun _ st' => Owing H E x st' := by
  have hloop : ∀ (f : Nat) (iov : List Iovec) (tot : Int) (st : (σ × Mem) × Tables P), Owing H E x st →
      Ret (writevLoop cache sb f iov tot) st fun _ st' => Owing H E x st' := by
    intro f iov
    induction iov with
    | nil => exact fun _ _ h => h
    | cons v iov ih =>
      intro tot st h
      refine wp_ite.mpr ⟨fun _ => h, fun _ => ?_⟩
      exact wp_seq (owing_filewrite cache sb h f v.src v.len v.piped) fun n st₁ h1 => ih _ st₁ h1
  refine wp_bind.mpr (wp_fd2file tame_true h fun pr f _ _ _ => wp_ite.mpr ⟨fun _ => h, fun _ => ?_⟩)
  exact hloop f iov 0 st h

theorem owing_fstat (fd : Int) (writeable : Bool) :
    Ret (sysFstat p fd writeable) st fun _ st' => Owing H E x st' := by
  refine wp_bind.mpr (wp_fd2file tame_true h fun pr f _ _ _ => wp_ite.mpr ⟨fun _ => h, fun _ => ?_⟩)
  exact owing_filestat h f

theorem owing_finish {α : Type} (a : α) : Ret (finish cache a) st fun _ st' => Owing H E x st' :=
  wp_seq (owing_endOp cache h sysCtx) fun _ _ h1 => h1.1

/-! ## The calls on paths -/

theorem owing_newfstatat (ok : Bool) (path : List UInt8) :
    Ret (sysNewfstatat cache sb p ok path) st fun _ st' => Owing H E x st' := by
  refine wp_bind.mpr (wp_thisproc tame_true fun pr hpr => wp_ite.mpr ⟨fun _ => h, fun _ => ?_⟩)
  refine wp_seq (owing_beginOp cache h sysCtx) fun _ st₁ h1 => ?_
  refine wp_seq (owing_returned h1.1 fun _ _ _ hR => tally_namei cache sb hR pr.cwd path _) fun r st₂ h2 => ?_
  cases r with
  | none => exact owing_finish cache h2.1 _
  | some q =>
    refine wp_seq (owing_lock h2.1 q) fun _ st₃ h3 => ?_
    refine wp_seq (owing_steady (stati_silent q).steady h3.1) fun _ st₄ h4 => ?_
    refine wp_seq (owing_unlock h4.1 h3.2.1) fun _ st₅ h5 => ?_
    refine wp_seq (owing_put cache sb h5.1 _ q) fun _ st₆ h6 => ?_
    rw [taken, bump_back] at h6
    exact owing_finish cache h6.1 _

theorem owing_unlinkat (atCwd : Bool) (flag : Int) (readable : Bool) (path : List UInt8) :
    Ret (sysUnlinkat cache sb p atCwd flag readable path) st fun _ st' => Owing H E x st' := by
  refine wp_bind.mpr (wp_assert.mpr ⟨fun _ => ?_, fun _ => trivial⟩)
  refine wp_bind.mpr (wp_thisproc tame_true fun pr hpr => wp_ite.mpr ⟨fun _ => h, fun _ => ?_⟩)
  refine wp_seq (owing_beginOp cache h sysCtx) fun _ st₁ h1 => ?_
  refine wp_seq (owing_steady (unlink_steady cache sb _ pr.cwd path) h1.1) fun r st₂ h2 => ?_
  exact owing_finish cache h2.1 r

end

/-- `begin_op`, and then this. -/
def inOp {α : Type} (f : FsM σ α) : FsM σ α := do
  onFst (cache.beginOp sysCtx)
  f

/-- What is returned is locked. -/
def heldBy (H : Option (Finset Nat)) : Option Nat → Option (Finset Nat)
  | none => H
  | some q => lockMore H q

theorem taken_add (R x : Nat → Int) (r : Option Nat) : taken (R + x) r = R + taken x r := by
  cases r with
  | none => rfl
  | some q => exact bump_add R x q 1

/-- What `create` returns is NOT locked.  This makes no difference if locks are not watched, or if it returns NULL. -/
theorem tally_created {R : Nat → Int} {fs : σ × Mem} {f : FsM σ (Option Nat)}
    (hf : Ret f fs fun r st => Returned H R r st.2) (hnull : H ≠ none → Ret f fs fun r _ => r = none) :
    Ret f fs fun r st => Tally (heldBy H r) (taken R r) st.2 ∧ ∀ q, r = some q → Unlocked H q := by
  cases H with
  | none =>
    refine wp_imp hf (fun r st h => ⟨?_, fun _ _ _ hh => by cases hh⟩)
    cases r with
    | none => exact h
    | some q => exact h
  | some y =>
    refine wp_mono (wp_and hf (hnull (by simp))) (fun r st h => ?_) fun _ _ => trivial
    obtain ⟨h, rfl⟩ := h
    exact ⟨h, fun _ hq => by cases hq⟩

/-- `openat` without `O_CREAT` locks what it has found. -/
theorem tally_openInode {R : Nat → Int} {fs : σ × Mem} (h : Tally H R fs.2) (cwd : Option Nat) (path : List UInt8)
    (mode : OpenMode)
    (hnull : H ≠ none → mode.creat = true → Ret (create cache sb cwd path inodeRegular 0 0 (some sysCtx)) fs fun r _ =>
      r = none) :
    Ret (openInode cache sb cwd path mode) fs fun r st =>
      Tally (heldBy H r) (taken R r) st.2 ∧ ∀ q, r = some q → Unlocked H q := by
  refine wp_ite.mpr ⟨fun hcreat => ?_, fun _ => ?_⟩
  · exact tally_created (tally_create cache sb _ h cwd path inodeRegular 0 0) fun hH => hnull hH hcreat
  · refine wp_seq (tally_namei cache sb h cwd path _) fun r st₁ h1 => ?_
    cases r with
    | none => exact ⟨h1, fun _ hq => by cases hq⟩
    | some q =>
      refine wp_seq (tally_lock h1 q) fun _ st₂ h2 => ⟨h2.1, ?_⟩
      rintro _ ⟨⟩
      exact h2.2

/-- What `begin_op` leaves, if `c` says what follows it. -/
theorem owing_begin {α : Type} {f : FsM σ α} {Q : α → σ × Mem → Prop} {c : Prop} (h : Owing H E x st)
    (hf : c → Ret (inOp cache f) st.1 Q) :
    Ret (beginOp cache sysCtx) st fun _ st' => (Owing H E x st' ∧ st'.2 = st.2) ∧ (c → Ret f st'.1 Q) :=
  ret_inFs_rest (owing_beginOp cache h sysCtx) hf

theorem owing_giveInodeBack {q : Nat} (h : Owing (lockMore H q) E (bump x q 1) st) (hfree : Unlocked H q) (r : Int) :
    Ret (giveInodeBack cache sb q r) st fun _ st' => Owing H E x st' := by
  refine wp_seq (owing_unlock h hfree) fun _ st₁ h1 => ?_
  refine wp_seq (owing_put cache sb h1.1 _ q) fun _ st₂ h2 => ?_
  rw [bump_back] at h2
  exact owing_finish cache h2.1 r

/-- The reference of the call becomes the reference of the file. -/
theorem owing_openFile {q f : Nat} (h : Owing (lockMore H q) E (bump x q 1) st) (hfree : Unlocked H q)
    (hlt : f < nfile) (href : (st.2.file f).ref = 1) (htype : E → (st.2.file f).type ≠ .inode) (mode : OpenMode)
    (fd : Nat) : Ret (openFile cache mode q f fd) st fun _ st' => Owing H E x st' := by
  refine wp_seq (owing_unlock h hfree) fun _ st₁ h1 => ?_
  refine wp_seq (owing_endOp cache h1.1 sysCtx) fun _ st₂ h2 => ?_
  have htables : st₂.2 = st.2 := h2.2.trans h1.2
  refine wp_bind.mpr (wp_getFile.mpr (wp_bind.mpr (wp_setFile.mpr ?_)))
  have hpos : 0 < (mode.file (st₂.2.file f) q).ref := by
    show 0 < (st₂.2.file f).ref
    rw [htables, href]
    decide
  refine h2.1.setFile (fun _ => hlt) (fun _ hle => ?_) fun hE _ p => ?_
  · omega
  · have hnone : opens p (st₂.2.file f) = 0 := by
      rw [htables]
      exact opens_of_not_inode (htype hE) p
    rw [hnone, opens_inode hpos rfl, bump_apply]
    show _ = _ - if q = p then 1 else 0
    ring

section

variable (h : Owing H E x st)
include h

/-- What a function returns and has locked is held by the call. -/
theorem Owing.held {f : FsM σ (Option Nat)} (hf : ∀ R, Tally H R st.1.2 → Ret f st.1 fun r fs =>
      Tally (heldBy H r) (taken R r) fs.2 ∧ ∀ q, r = some q → Unlocked H q) : Ret (Fs.inFs f) st fun r st' =>
      Owing (heldBy H r) E (taken x r) st' ∧ (∀ q, r = some q → Unlocked H q) ∧ st'.2 = st.2 := by
  refine h.inFs (K := heldBy H) (y := taken x) (G := fun r => ∀ q, r = some q → Unlocked H q) fun R hR => ?_
  simp only [← taken_add]
  exact hf (R + x) hR

theorem owing_mkdirat (ok : Bool) (path : List UInt8) (hnull : H ≠ none → ok = true → ∀ pr, st.2.procs p = some pr →
      Ret (inOp cache (create cache sb pr.cwd path inodeDirectory 0 0 (some sysCtx))) st.1 fun r _ => r = none) :
    Ret (sysMkdirat cache sb p ok path) st fun _ st' => Owing H E x st' := by
  refine wp_bind.mpr (wp_thisproc tame_true fun pr hpr => wp_ite.mpr ⟨fun _ => h, fun hok => ?_⟩)
  refine wp_seq (owing_begin cache h fun hH : H ≠ none => hnull hH (by simpa using hok) pr hpr) fun _ st₁ h1 => ?_
  refine wp_seq (h1.1.1.held fun R hR =>
    tally_created (tally_create cache sb _ hR pr.cwd path inodeDirectory 0 0) h1.2) fun r st₂ h2 => ?_
  cases r with
  | none => exact owing_finish cache h2.1 _
  | some q => exact owing_giveInodeBack cache sb h2.1 (h2.2.1 q rfl) _

theorem owing_mknodat (ok : Bool) (path : List UInt8) (major minor : UInt16)
    (hnull : H ≠ none → ok = true → ∀ pr, st.2.procs p = some pr →
      Ret (inOp cache (create cache sb pr.cwd path inodeDevice major minor (some sysCtx))) st.1 fun r _ => r = none) :
    Ret (sysMknodat cache sb p ok path major minor) st fun _ st' => Owing H E x st' := by
  refine wp_bind.mpr (wp_thisproc tame_true fun pr hpr => wp_ite.mpr ⟨fun _ => h, fun hok => ?_⟩)
  refine wp_seq (owing_begin cache h fun hH : H ≠ none => hnull hH (by simpa using hok) pr hpr) fun _ st₁ h1 => ?_
  refine wp_seq (h1.1.1.held fun R hR =>
    tally_created (tally_create cache sb _ hR pr.cwd path inodeDevice major minor) h1.2) fun r st₂ h2 => ?_
  cases r with
  | none => exact owing_finish cache h2.1 _
  | some q => exact owing_giveInodeBack cache sb h2.1 (h2.2.1 q rfl) _

theorem owing_execve (path : List UInt8) {argv : List UInt64}
    (con : UInt64 → Option (List UInt8)) (hfit : Exec.fitArgs argv ≠ none) :
    Ret (sysExecve cache sb p path argv con) st fun _ st' => Owing H E x st' := by
  refine wp_bind.mpr (wp_thisproc tame_true fun pr _ => ?_)
  exact wp_imp (owing_steady (execve_steady cache sb con sysCtx pr.cwd path hfit) h) (fun _ _ h1 => h1.1)

theorem owing_setPipeEnd {f : Nat} (hlt : f < nfile) (htype : E → (st.2.file f).type ≠ .inode)
    (writable : Bool) : Ret (setPipeEnd f writable) st fun _ st' => Owing H E x st' ∧ st'.2.procs = st.2.procs ∧
      ∀ g, (E → (st.2.file g).type ≠ .inode) → E → (st'.2.file g).type ≠ .inode := by
  refine wp_bind.mpr (wp_getFile.mpr (wp_setFile.mpr ⟨?_, rfl, fun g hg hE => ?_⟩))
  · refine h.sameFile (fun _ => hlt) (fun _ _ => by simp) fun hE _ p => ?_
    rw [opens_of_not_inode (htype hE)]
    exact opens_of_not_inode (by simp) p
  · simp only [Tables.setFile, Function.update_apply]
    split
    · simp
    · exact hg hE

theorem owing_closeIf (f : Option Nat) : Ret (closeIf cache sb f) st fun _ st' => Owing H E x st' := by
  cases f with
  | none => exact h
  | some f => exact wp_imp (owing_fileclose cache sb h f) (fun _ _ h1 => h1.1)

theorem owing_pipeAlloc (kalloced : Bool) : Ret (pipeAlloc cache sb kalloced) st fun _ st' => Owing H E x st' := by
  refine wp_seq (owing_filealloc h) fun f₀ st₁ h1 => ?_
  refine wp_seq (owing_filealloc h1.1) fun f₁ st₂ h2 => ?_
  have hgiveUp : Ret (do closeIf cache sb f₀; closeIf cache sb f₁; pure none : SysM σ P (Option (Nat × Nat))) st₂
      fun _ st' => Owing H E x st' :=
    wp_seq (owing_closeIf cache sb h2.1 f₀) fun _ _ h3 => wp_seq (owing_closeIf cache sb h3 f₁) fun _ _ h4 => h4
  cases kalloced with
  | false => exact hgiveUp
  | true =>
    cases f₀ with
    | none => exact hgiveUp
    | some a =>
      cases f₁ with
      | none => exact hgiveUp
      | some b =>
        obtain ⟨hlt, href, htype⟩ := h1.2.2.2 a rfl
        obtain ⟨hlt', -, htype'⟩ := h2.2.2.2 b rfl
        have hsame : st₂.2.file a = st₁.2.file a := h2.2.2.1 a (by rw [href]; decide)
        rw [← hsame] at htype
        refine wp_seq (owing_setPipeEnd h2.1 hlt htype false) fun _ st₃ h3 => ?_
        exact wp_seq (owing_setPipeEnd h3.1 hlt' (h3.2.2 b htype') true) fun _ _ h4 => h4.1

end

/-! ## The calls that write to `struct proc` -/

variable [DecidableEq P]

section

variable (h : Owing H E x st)
include h

/-- A slot of `ofile` is no user of an inode. -/
theorem owing_fdalloc (f : Nat) : Ret (fdalloc p f) st fun _ st' => Owing H E x st' ∧ st'.2.file = st.2.file :=
  wp_fdalloc tame_true (fun _ _ _ => ⟨h, rfl⟩) fun _ _ hpr _ _ => ⟨h.sameCwd hpr rfl, rfl⟩

theorem owing_dup (fd : Int) : Ret (sysDup p fd) st fun _ st' => Owing H E x st' := by
  refine wp_bind.mpr (wp_fd2file tame_true h fun pr f _ _ _ => ?_)
  refine wp_seq (owing_fdalloc h f) fun r st₁ h1 => ?_
  cases r with
  | none => exact h1.1
  | some fd' => exact wp_seq (owing_filedup h1.1 f) fun _ _ h2 => h2.1

theorem owing_close (fd : Int) : Ret (sysClose cache sb p fd) st fun _ st' => Owing H E x st' := by
  refine wp_bind.mpr (wp_thisproc tame_true fun pr hpr => wp_ite.mpr ⟨fun _ => ?_, fun _ => trivial⟩)
  refine wp_bind.mpr (wp_setProc.mpr ?_)
  have hslot : Owing H E x (st.1, Tables.setProc st.2 p (some (ProcFiles.setOfile pr fd.toNat none))) :=
    h.sameCwd hpr rfl
  cases pr.ofile fd.toNat with
  | none => trivial
  | some f => exact wp_seq (owing_fileclose cache sb hslot f) fun _ _ h1 => h1.1

theorem owing_openat (atCwd readable : Bool) (path : List UInt8) (mode : OpenMode)
    (hnull : H ≠ none → mode.creat = true → readable = true → atCwd = true → ∀ pr, st.2.procs p = some pr →
      Ret (inOp cache (create cache sb pr.cwd path inodeRegular 0 0 (some sysCtx))) st.1 fun r _ => r = none) :
    Ret (sysOpenat cache sb p atCwd readable path mode) st fun _ st' => Owing H E x st' := by
  refine wp_bind.mpr (wp_thisproc tame_true fun pr hpr => wp_ite.mpr ⟨fun _ => h, fun hargs => ?_⟩)
  obtain ⟨hread, hat⟩ : readable = true ∧ atCwd = true := by simpa using hargs
  refine wp_seq (owing_begin cache h fun hc : H ≠ none ∧ mode.creat = true =>
    hnull hc.1 hc.2 hread hat pr hpr) fun _ st₁ h1 => ?_
  refine wp_seq (h1.1.1.held fun R hR =>
    tally_openInode cache sb hR pr.cwd path mode fun hH hcreat => h1.2 ⟨hH, hcreat⟩) fun r st₂ h2 => ?_
  cases r with
  | none => exact owing_finish cache h2.1 _
  | some q =>
    have hfree := h2.2.1 q rfl
    refine wp_seq (owing_filealloc h2.1) fun r st₃ h3 => ?_
    cases r with
    | none => exact owing_giveInodeBack cache sb h3.1 hfree _
    | some f =>
      obtain ⟨hlt, href, htype⟩ := h3.2.2.2 f rfl
      refine wp_seq (owing_fdalloc h3.1 f) fun r st₄ h4 => ?_
      cases r with
      | none =>
        refine wp_seq (owing_fileclose cache sb h4.1 f) fun _ st₅ h5 => ?_
        exact owing_giveInodeBack cache sb h5.1 hfree _
      | some fd =>
        refine owing_openFile cache h4.1 hfree hlt ?_ ?_ mode fd
        · rw [h4.2, href]
        · rw [h4.2]
          exact htype

end

/-- The type of what a path names, as `sys_chdir` sees it. -/
def typeOf (cwd : Option Nat) (path : List UInt8) : FsM σ (Option InodeType) := do
  match ← namei cache sb cwd path (some sysCtx) with
  | none => pure none
  | some q => do
    inodeLock q
    let ip ← onSnd (Mem.deref q)
    pure (some ip.entry.type)

section

variable (h : Owing H E x st)
include h

theorem owing_chdir (path : List UInt8) (hdir : E → ∀ pr, st.2.procs p = some pr →
      Ret (inOp cache (typeOf cache sb pr.cwd path)) st.1 fun r _ => ∀ type, r = some type → type = inodeDirectory) :
    Ret (sysChdir cache sb p path) st fun _ st' => Owing H E x st' := by
  refine wp_bind.mpr (wp_thisproc tame_true fun pr hpr => ?_)
  refine wp_seq (owing_begin cache h fun hE => hdir hE pr hpr) fun _ st₁ h1 => ?_
  refine wp_seq (ret_inFs_rest (owing_returned h1.1.1 fun _ _ _ hR => tally_namei cache sb hR pr.cwd path _) h1.2)
    fun r st₂ h2 => ?_
  cases r with
  | none => exact owing_finish cache h2.1.1 _
  | some q =>
    refine wp_seq (ret_inFs_rest (owing_lock h2.1.1 q) h2.2) fun _ st₃ h3 => ?_
    refine wp_seq (ret_inFs_rest (owing_steady (Silent.deref q).steady h3.1.1) h3.2) fun ip st₄ h4 => ?_
    refine wp_seq (owing_unlock h4.1.1 h3.1.2.1) fun _ st₅ h5 => ?_
    refine wp_ite.mpr ⟨fun hother => ?_, fun _ => ?_⟩
    · -- what is no directory is not given back
      have hE : ¬ E := fun hE => hother (h4.2 hE _ rfl)
      exact owing_finish cache (h5.1.anything hE) _
    · cases hcwd : pr.cwd with
      | none => trivial
      | some d =>
        refine wp_seq (owing_put cache sb h5.1 _ d) fun _ st₆ h6 => ?_
        refine wp_seq (owing_endOp cache h6.1 sysCtx) fun _ st₇ h7 => ?_
        refine wp_bind.mpr (wp_setProc.mpr ?_)
        have hproc : st₇.2.procs p = some pr := by
          rw [h7.2, h6.2, h5.2, h4.1.2, h3.1.2.2, h2.1.2, h1.1.2, hpr]
        -- the old directory is given back, the new one is kept
        refine h7.1.setProc fun _ i => ?_
        rw [hproc, standsIn_some, standsIn_some, hcwd, pointsTo_some, pointsTo_some, taken, bump_apply, bump_apply]
        split <;> split <;> ring

theorem owing_pipe2 (kalloced : Bool) : Ret (sysPipe2 cache sb p kalloced) st fun _ st' => Owing H E x st' := by
  refine wp_seq (owing_pipeAlloc cache sb h kalloced) fun r st₁ h1 => ?_
  cases r with
  | none => exact h1
  | some fs =>
    refine wp_seq (owing_fdalloc h1 fs.1) fun _ st₂ h2 => ?_
    exact wp_seq (owing_fdalloc h2.1 fs.2) fun _ _ h3 => h3.1

/-! ## Processes -/

/-- A new process stands in `inodes.root`, and nobody has taken a reference for it. -/
theorem owing_createProc {q : P} (hq : st.2.procs q = none) :
    Ret (createProc q) st fun _ st' => Owing H E (fun i => x i - pointsTo i st.2.root) st' ∧
      (∀ r, r ≠ q → st'.2.procs r = st.2.procs r) ∧ ∃ qr, st'.2.procs q = some qr ∧ qr.cwd = st.2.root := by
  refine wp_bind.mpr (wp_onSnd.mpr (wp_get.mpr (wp_setProc.mpr ⟨h.setProc fun _ i => ?_, fun r hr => ?_, ?_⟩)))
  · rw [hq, standsIn_some]
    show _ = x i + 0 - _
    rw [add_zero]
  · exact Function.update_of_ne hr ..
  · exact ⟨_, Function.update_self .., rfl⟩

theorem owing_forkFiles {q : P} (pr : ProcFiles) (fd : Nat) {qr : ProcFiles} (hq : st.2.procs q = some qr) :
    Ret (forkFiles pr q fd) st fun _ st' => Owing H E x st' ∧
      (∀ r, r ≠ q → st'.2.procs r = st.2.procs r) ∧ ∃ qr', st'.2.procs q = some qr' ∧ qr'.cwd = qr.cwd := by
  unfold forkFiles
  cases pr.ofile fd with
  | none => exact ⟨h, fun _ _ => rfl, qr, hq, rfl⟩
  | some f =>
    refine wp_seq (owing_filedup h f) fun _ st₁ h1 => ?_
    have hq1 : st₁.2.procs q = some qr := by rw [h1.2, hq]
    refine wp_bind.mpr (wp_thisproc tame_true fun qr' hqr' => wp_setProc.mpr ?_)
    obtain rfl : qr' = qr := Option.some.inj (hqr'.symm.trans hq1)
    refine ⟨h1.1.sameCwd hq1 rfl, fun r hr => ?_, _, Function.update_self .., rfl⟩
    show Function.update st₁.2.procs q _ r = _
    rw [Function.update_of_ne hr, h1.2]

theorem owing_fork {q : P} (hq : st.2.procs q = none) : Ret (fork p q) st fun _ st' => Owing H E x st' := by
  refine wp_bind.mpr (wp_thisproc tame_true fun pr hpr => ?_)
  refine wp_seq (owing_createProc h hq) fun _ st₁ h1 => ?_
  -- while the files are copied the child stands in the root, for nothing
  let y : Nat → Int := fun i => x i - pointsTo i st.2.root
  have hloop : Ret (Prog.forRange nofile (forkFiles pr q)) st₁ fun _ st' =>
      Owing H E y st' ∧ ∃ qr, st'.2.procs q = some qr ∧ qr.cwd = st.2.root := by
    refine wp_forRange (I := fun _ st' => Owing H E y st' ∧ ∃ qr, st'.2.procs q = some qr ∧ qr.cwd = st.2.root)
      ⟨h1.1, h1.2.2⟩ fun fd _ st₂ h2 => ?_
    obtain ⟨hbooks, qr, hqr, hcwd⟩ := h2
    refine wp_imp (owing_forkFiles hbooks pr fd hqr) (fun _ st₃ h3 => ⟨h3.1, ?_⟩)
    obtain ⟨qr', hqr', hcwd'⟩ := h3.2.2
    exact ⟨qr', hqr', hcwd'.trans hcwd⟩
  refine wp_seq hloop fun _ st₂ h2 => wp_bind.mpr (wp_thisproc tame_true fun qr hqr => ?_)
  obtain ⟨hbooks, qr', hqr', hcwd⟩ := h2
  obtain rfl : qr = qr' := Option.some.inj (hqr.symm.trans hqr')
  rw [hcwd]
  cases hroot : st.2.root with
  | none =>
    have hy : y = x := by
      funext i
      simp [y, hroot, pointsTo]
    rw [hy] at hbooks
    exact hbooks
  | some r =>
    cases pr.cwd with
    | none => trivial
    | some d =>
      refine wp_seq (owing_share hbooks d) fun d' st₃ h3 => wp_bind.mpr (wp_setProc.mpr ?_)
      obtain ⟨hbooks3, rfl, htables⟩ := h3
      refine hbooks3.setProc fun _ i => ?_
      rw [htables, hqr', standsIn_some, standsIn_some, hcwd, bump_apply, pointsTo_some]
      show x i = x i - pointsTo i st.2.root + _ + _ - _
      ring

theorem owing_exitFile (fd : Nat) : Ret (exitFile cache sb p fd) st fun _ st' => Owing H E x st' := by
  refine wp_bind.mpr (wp_thisproc tame_true fun pr hpr => ?_)
  cases pr.ofile fd with
  | none => exact h
  | some f =>
    refine wp_seq (owing_fileclose cache sb h f) fun _ st₁ h1 => wp_setProc.mpr ?_
    have hproc : st₁.2.procs p = some pr := by rw [h1.2, hpr]
    exact h1.1.sameCwd hproc rfl

theorem owing_exit : Ret (exit cache sb p) st fun _ st' => Owing H E x st' := by
  refine wp_seq (wp_forRange (I := fun _ => Owing H E x) h fun fd _ st₁ h1 => owing_exitFile cache sb h1 fd)
    fun _ st₁ h1 => wp_bind.mpr (wp_thisproc tame_true fun pr hpr => ?_)
  cases hcwd : pr.cwd with
  | none =>
    refine wp_bind.mpr (wp_setProc.mpr (h1.setProc fun _ i => ?_))
    rw [hpr, standsIn_some, hcwd]
    show x i = x i + 0 - 0
    ring
  | some d =>
    refine wp_seq (owing_beginOp cache h1 sysCtx) fun _ st₂ h2 => ?_
    refine wp_seq (owing_put cache sb h2.1 _ d) fun _ st₃ h3 => ?_
    refine wp_seq (owing_endOp cache h3.1 sysCtx) fun _ st₄ h4 => ?_
    have hproc : st₄.2.procs p = some pr := by rw [h4.2, h3.2, h2.2, hpr]
    refine wp_bind.mpr (wp_setProc.mpr (h4.1.setProc fun _ i => ?_))
    rw [hproc, standsIn_some, hcwd, bump_apply, pointsTo_some]
    show x i = x i + _ + _ - 0
    split <;> ring

end

end Calls

/-! ## Any call -/

section Step

variable {σ P : Type} (cache : BlockCache σ) (sb : SuperBlock)

/-- The arguments of `execve` fit on the stack. -/
def Call.fits : Call P → Prop
  | .execve _ _ argv _ => Exec.fitArgs argv ≠ none
  | _ => True

/-- Run in this state, `create` does not return an inode. -/
def Null (s : (σ × Mem) × Tables P) (p : P) (path : List UInt8) (type : InodeType) (major minor : UInt16) : Prop :=
  ∀ pr ∈ s.2.procs p, Ret (inOp cache (create cache sb pr.cwd path type major minor (some sysCtx))) s.1 fun r _ =>
    r = none

/-- Whoever calls `create` gets NULL. -/
def CreatesNothing (s : (σ × Mem) × Tables P) : Call P → Prop
  | .openat p atCwd readable path mode =>
    mode.creat = true → readable = true → atCwd = true → Null cache sb s p path inodeRegular 0 0
  | .mkdirat p ok path => ok = true → Null cache sb s p path inodeDirectory 0 0
  | .mknodat p ok path major minor => ok = true → Null cache sb s p path inodeDevice major minor
  | _ => True

/-- No process is made by `create_proc` alone once there is a root, and `chdir` is not called on what is no
directory. -/
def TakesAndGives (s : (σ × Mem) × Tables P) : Call P → Prop
  | .createProc _ => s.2.root = none
  | .chdir p path => ∀ pr ∈ s.2.procs p, Ret (inOp cache (typeOf cache sb pr.cwd path)) s.1 fun r _ =>
      ∀ type ∈ r, type = inodeDirectory
  | _ => True

instance : DecidablePred (Call.fits (P := P))
  | .execve _ _ argv _ => inferInstanceAs (Decidable (Exec.fitArgs argv ≠ none))
  | .createProc _ | .fork .. | .exit _ | .openat .. | .mkdirat .. | .mknodat .. | .unlinkat .. | .newfstatat ..
  | .chdir .. | .dup .. | .close .. | .read .. | .write .. | .writev .. | .fstat .. | .pipe2 .. => isTrue trivial

instance (s : (σ × Mem) × Tables P) (p : P) (path : List UInt8) (type : InodeType) (major minor : UInt16) :
    Decidable (Null cache sb s p path type major minor) :=
  inferInstanceAs (Decidable (∀ pr ∈ s.2.procs p,
    wp (inOp cache (create cache sb pr.cwd path type major minor (some sysCtx))) (fun r _ => r = none) _ s.1))

instance (s : (σ × Mem) × Tables P) : DecidablePred (CreatesNothing cache sb s)
  | .openat p atCwd readable path mode => inferInstanceAs (Decidable
      (mode.creat = true → readable = true → atCwd = true → Null cache sb s p path inodeRegular 0 0))
  | .mkdirat p ok path => inferInstanceAs (Decidable (ok = true → Null cache sb s p path inodeDirectory 0 0))
  | .mknodat p ok path major minor =>
    inferInstanceAs (Decidable (ok = true → Null cache sb s p path inodeDevice major minor))
  | .createProc _ | .fork .. | .exit _ | .execve .. | .unlinkat .. | .newfstatat .. | .chdir .. | .dup .. | .close ..
  | .read .. | .write .. | .writev .. | .fstat .. | .pipe2 .. => isTrue trivial

/-- By looking at the type, not by going through all of them. -/
instance decidableNamesDirectory : DecidablePred fun r : Option InodeType => ∀ type ∈ r, type = inodeDirectory
  | none => isTrue fun _ h => by cases h
  | some type => decidable_of_iff (type = inodeDirectory) ⟨fun h _ ht => Option.some.inj ht ▸ h, fun h => h type rfl⟩

instance (s : (σ × Mem) × Tables P) : DecidablePred (TakesAndGives cache sb s)
  | .createProc _ => inferInstanceAs (Decidable (s.2.root = none))
  | .chdir p path => inferInstanceAs (Decidable (∀ pr ∈ s.2.procs p,
      wp (inOp cache (typeOf cache sb pr.cwd path)) (fun r _ => ∀ type ∈ r, type = inodeDirectory) _ s.1))
  | .fork .. | .exit _ | .execve .. | .openat .. | .mkdirat .. | .mknodat .. | .unlinkat .. | .newfstatat ..
  | .dup .. | .close .. | .read .. | .write .. | .writev .. | .fstat .. | .pipe2 .. => isTrue trivial

variable [Fintype P] {H : Option (Finset Nat)} {E : Prop} {s s' : (σ × Mem) × Tables P} {call : Call P}

theorem uses_tablesAtBoot (live : P → Bool) : uses (tablesAtBoot live) = 0 := by
  funext p
  have hstands : ∀ q, standsIn p ((tablesAtBoot live).procs q) = 0 := by
    intro q
    simp only [tablesAtBoot]
    split <;> rfl
  have hopens : ∀ f, opens p ((tablesAtBoot live).file f) = 0 := fun f =>
    opens_of_not_inode (by simp [tablesAtBoot, File.empty]) p
  unfold uses
  rw [Finset.sum_eq_zero fun f _ => hopens f, Finset.sum_eq_zero fun q _ => hstands q]
  rfl

/-- The books are in order when the file system comes up. -/
theorem accounted_boot {s₀ : σ} {live : P → Bool} (hH : ∀ y, H = some y → y = ∅)
    (hboot : boot cache sb s₀ live = some s) : Accounted H E s := by
  have hempty : Tally H 0 { heap := fun _ => none, head := [], next := 0, lockLog := [] } := by
    refine ⟨fun p ip hp => ?_, fun _ _ => rfl, fun _ _ => rfl, fun y hy => ?_⟩
    · cases hp
    · obtain rfl := hH y hy
      exact ⟨fun p ip hp => (by cases hp), fun p hp => absurd hp (Finset.notMem_empty p), fun v hv => (by cases hv)⟩
  have hbooks : Books E 0 (tablesAtBoot live) := fun _ =>
    ⟨⟨fun f _ => by simp [tablesAtBoot, File.empty], fun f _ => le_rfl⟩, (uses_tablesAtBoot live).symm⟩
  refine of_wp_exec (E := fun _ => True) ?_ hboot
  refine wp_ite.mpr ⟨fun _ => ?_, fun _ => ⟨0, by rwa [add_zero], hbooks⟩⟩
  have hstart : Owing H E 0 ((s₀, ({ heap := fun _ => none, head := [], next := 0, lockLog := [] } : Mem)),
    tablesAtBoot live) := ⟨0, by rwa [add_zero], hbooks⟩
  have hget := hstart.inFs (f := inodeGet cache sb rootInodeNo) (K := fun _ => H) (y := fun p => bump 0 p 1)
    (G := fun _ => True) fun R hR => by
      refine wp_imp (tally_get cache sb hR rootInodeNo) (fun p _ h1 => ⟨?_, trivial⟩)
      rwa [bump_add] at h1
  refine wp_seq hget fun p st₁ h1 => wp_onSnd.mpr (wp_modify.mpr ?_)
  -- the reference is `inodes.root` from now on
  refine h1.1.tables fun _ hfiles => ⟨⟨hfiles.closed, hfiles.bound⟩, fun i => ?_⟩
  have hroot : st₁.2.root = none := by rw [h1.2.2]; rfl
  simp only [uses, hroot, bump_apply, pointsTo_some]
  show 0 + (_ + if p = i then 1 else 0) = 0 + (if p = i then 1 else 0) + (_ + 0)
  ring

variable [DecidableEq P] (hfit : call.fits) (hnull : H ≠ none → CreatesNothing cache sb s call)
  (hback : E → TakesAndGives cache sb s call) (h : Accounted H E s)
include hfit hnull hback h

theorem accounted_prog (hproper : call.proper s.2 = true) : Ret (call.prog cache sb) s fun _ s' => Accounted H E s' := by
  cases call with
  | createProc q =>
    refine wp_seq (owing_createProc h (Option.isNone_iff_eq_none.mp hproper)) fun _ s₁ h1 => ?_
    by_cases hE : E
    · have hroot : s.2.root = none := hback hE
      have hzero : (fun i => (0 : Nat → Int) i - pointsTo i s.2.root) = 0 := by
        funext i
        simp [hroot, pointsTo]
      rw [hzero] at h1
      exact h1.1
    · exact h1.1.anything hE
  | fork p q => exact owing_fork h (Option.isNone_iff_eq_none.mp hproper)
  | exit p => exact owing_exit cache sb h
  | execve p path argv con => exact owing_execve cache sb h path con hfit
  | openat p atCwd readable path mode => exact owing_openat cache sb h atCwd readable path mode hnull
  | mkdirat p ok path => exact owing_mkdirat cache sb h ok path hnull
  | mknodat p ok path major minor => exact owing_mknodat cache sb h ok path major minor hnull
  | unlinkat p atCwd flag readable path => exact owing_unlinkat cache sb h atCwd flag readable path
  | newfstatat p ok path => exact owing_newfstatat cache sb h ok path
  | chdir p path => exact owing_chdir cache sb h path hback
  | dup p fd => exact owing_dup h fd
  | close p fd => exact owing_close cache sb h fd
  | read p fd size writeable con piped => exact owing_read cache sb h fd size writeable con piped
  | write p fd size readable src piped => exact owing_write cache sb h fd size readable src piped
  | writev p fd readable iov => exact owing_writev cache sb h fd readable iov
  | fstat p fd writeable => exact owing_fstat h fd writeable
  | pipe2 p kalloced => exact owing_pipe2 cache sb h kalloced

/-- **Every call keeps the books.** -/
theorem accounted_step (hstep : step cache sb s call = some s') : Accounted H E s' := by
  obtain ⟨hproper, hstep⟩ := Option.ite_none_right_eq_some.mp hstep
  exact of_wp_exec (accounted_prog cache sb hfit hnull hback h hproper) hstep

end Step

end Armv8Os.Sysfile
