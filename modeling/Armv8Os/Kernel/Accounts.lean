/-
  The books of the inode layer, kept by every system call.

  Users of an inode are the open files on it, the processes that stand in it, and `inodes.root`: `uses`.  The
  tally of the inode layer says how many references ARE out.  `Owing H E x` compares the two in the middle of
  a call: `x p` references more are out than there are users, because the call itself holds them.

  1. Every write to a table moves references between the table and the call (`Owing.setFile`, `Owing.setProc`).
  2. Every function of the inode layer moves references between the call and the inode (`owing_put`, ...).
  3. A call has to come out even: it starts and ends with `Owing H E 0`.

  Without `E` the tables are not looked at, and what is left is what the tally says about locks.
-/
import Armv8Os.Kernel.InodeTally
import Armv8Os.Kernel.SysfileSpec

namespace Armv8Os.Sysfile

open Prog Fs Transition

/-! ## The users of an inode -/

/-- One, if the entry is an open file on the inode at `p`. -/
def opens (p : Nat) (file : File) : Int := if 0 < file.ref ∧ file.type = .inode ∧ file.ip = p then 1 else 0

/-- One, if the pointer is `p`. -/
def pointsTo (p : Nat) (o : Option Nat) : Int := if o = some p then 1 else 0

/-- One, if a process is there and stands in the inode at `p`. -/
def standsIn (p : Nat) (pr : Option ProcFiles) : Int := pointsTo p (pr.bind ProcFiles.cwd)

theorem standsIn_some (q : Nat) (pr : ProcFiles) : standsIn q (some pr) = pointsTo q pr.cwd := rfl

theorem pointsTo_some (p q : Nat) : pointsTo p (some q) = if q = p then 1 else 0 := by
  unfold pointsTo
  simp only [Option.some.injEq]

/-- The users of the inode at `p`. -/
def uses {P : Type} [Fintype P] (t : Tables P) (p : Nat) : Int :=
  (∑ f ∈ Finset.range nfile, opens p (t.file f)) + (∑ q, standsIn p (t.procs q)) + pointsTo p t.root

/-- A closed entry has no inode, and beyond the table nothing is open. -/
structure FileTable {P : Type} (t : Tables P) : Prop where
  closed : ∀ f, (t.file f).ref ≤ 0 → (t.file f).type ≠ .inode
  bound : ∀ f, nfile ≤ f → (t.file f).ref ≤ 0

theorem FileTable.lt_of_pos {P : Type} {t : Tables P} (h : FileTable t) {f : Nat} (hf : 0 < (t.file f).ref) :
    f < nfile := by
  by_contra hle
  have := h.bound f (by omega)
  omega

theorem FileTable.lt_of_inode {P : Type} {t : Tables P} (h : FileTable t) {f : Nat}
    (hf : (t.file f).type = .inode) : f < nfile := by
  apply h.lt_of_pos
  by_contra hle
  exact h.closed f (by omega) hf

section Uses

variable {P : Type} [Fintype P] {t : Tables P}

theorem uses_setFile {f : Nat} (hf : f < nfile) (file : File) (p : Nat) :
    uses (Tables.setFile t f file) p = uses t p - opens p (t.file f) + opens p file := by
  have hsum := sum_update (Finset.mem_range.mpr hf) (opens p) t.file file
  simp only [uses, Tables.setFile]
  rw [hsum]
  ring

variable [DecidableEq P]

theorem uses_setProc (q : P) (pr : Option ProcFiles) (p : Nat) :
    uses (Tables.setProc t q pr) p = uses t p - standsIn p (t.procs q) + standsIn p pr := by
  have hsum := sum_update (Finset.mem_univ q) (standsIn p) t.procs pr
  simp only [uses, Tables.setProc]
  rw [hsum]
  ring

end Uses

/-! ## The books -/

/-- If `E`, then `R` is the number of users. -/
def Books {P : Type} [Fintype P] (E : Prop) (R : Nat → Int) (t : Tables P) : Prop := E → FileTable t ∧ R = uses t

/-- `x p` references more are out for the inode at `p` than it has users. -/
def Owing {σ P : Type} [Fintype P] (H : Option (Finset Nat)) (E : Prop) (x : Nat → Int)
    (st : (σ × Mem) × Tables P) : Prop :=
  ∃ R, Tally H (R + x) st.1.2 ∧ Books E R st.2

/-- The books between two calls. -/
def Accounted {σ P : Type} [Fintype P] (H : Option (Finset Nat)) (E : Prop) (st : (σ × Mem) × Tables P) : Prop :=
  Owing H E 0 st

theorem bump_add (R x : Nat → Int) (p : Nat) (k : Int) : bump (R + x) p k = R + bump x p k := by
  funext q
  rcases eq_or_ne q p with rfl | hq
  · simp only [bump_self, Pi.add_apply]
    omega
  · simp only [bump_of_ne _ hq, Pi.add_apply]

theorem bump_apply (x : Nat → Int) (p q : Nat) (k : Int) : bump x p k q = x q + if p = q then k else 0 := by
  rcases eq_or_ne q p with rfl | hq
  · simp
  · rw [bump_of_ne _ hq, if_neg (Ne.symm hq), add_zero]

section Tables

variable {σ P : Type} [Fintype P] {H : Option (Finset Nat)} {E : Prop} {x x' : Nat → Int}
  {st : (σ × Mem) × Tables P}

/-- References go from the call to a table, or back: what is written down is no longer owed. -/
theorem Owing.tables {t' : Tables P} (h : Owing H E x st)
    (hnew : E → FileTable st.2 → FileTable t' ∧ ∀ p, x' p + uses t' p = x p + uses st.2 p) :
    Owing H E x' (st.1, t') := by
  obtain ⟨R, htally, hbooks⟩ := h
  refine ⟨R + x - x', ?_, fun hE => ?_⟩
  · rwa [sub_add_cancel]
  · obtain ⟨hfiles, rfl⟩ := hbooks hE
    obtain ⟨hfiles', hx⟩ := hnew hE hfiles
    refine ⟨hfiles', ?_⟩
    funext p
    have := hx p
    simp only [Pi.sub_apply, Pi.add_apply]
    omega

/-- Without `E` the books say nothing. -/
theorem Owing.anything (h : Owing H E x st) (hE : ¬ E) : Owing H E x' st :=
  h.tables fun hE' => absurd hE' hE

section

variable {f : Nat} {file : File} (h : Owing H E x st) (hlive : FileTable st.2 → f < nfile)
  (hclosed : FileTable st.2 → file.ref ≤ 0 → file.type ≠ .inode)
include h hlive hclosed

theorem Owing.setFile (hx : E → FileTable st.2 → ∀ p, x' p = x p + opens p (st.2.file f) - opens p file) :
    Owing H E x' (st.1, Tables.setFile st.2 f file) := by
  refine h.tables fun hE hfiles => ⟨⟨?_, ?_⟩, fun p => ?_⟩
  · intro g hg
    rcases eq_or_ne g f with rfl | hne
    · simp only [Tables.setFile, Function.update_self] at hg ⊢
      exact hclosed hfiles hg
    · simp only [Tables.setFile, Function.update_of_ne hne] at hg ⊢
      exact hfiles.closed g hg
  · intro g hg
    have hne : g ≠ f := by
      have := hlive hfiles
      omega
    simp only [Tables.setFile, Function.update_of_ne hne]
    exact hfiles.bound g hg
  · rw [uses_setFile (hlive hfiles), hx hE hfiles p]
    ring

/-- An entry that stays open, or closed, on its inode. -/
theorem Owing.sameFile (hsame : E → FileTable st.2 → ∀ p, opens p file = opens p (st.2.file f)) :
    Owing H E x (st.1, Tables.setFile st.2 f file) := by
  refine h.setFile hlive hclosed fun hE hfiles p => ?_
  rw [hsame hE hfiles p]
  ring

end

variable [DecidableEq P]

theorem Owing.setProc (h : Owing H E x st) {q : P} {pr : Option ProcFiles}
    (hx : E → ∀ p, x' p = x p + standsIn p (st.2.procs q) - standsIn p pr) :
    Owing H E x' (st.1, Tables.setProc st.2 q pr) := by
  refine h.tables fun hE hfiles => ⟨⟨hfiles.closed, hfiles.bound⟩, fun p => ?_⟩
  rw [uses_setProc, hx hE p]
  ring

/-- A process that stays where it is. -/
theorem Owing.sameCwd (h : Owing H E x st) {q : P} {pr pr' : ProcFiles} (hpr : st.2.procs q = some pr)
    (hcwd : pr'.cwd = pr.cwd) : Owing H E x (st.1, Tables.setProc st.2 q (some pr')) := by
  refine h.setProc fun _ p => ?_
  have hsame : standsIn p (some pr') = standsIn p (st.2.procs q) := by
    simp only [standsIn, hpr, Option.bind_some, hcwd]
  rw [hsame]
  ring

end Tables

/-! ## The inode layer -/

section Inodes

variable {σ P : Type} [Fintype P] (cache : BlockCache σ) (sb : SuperBlock) {H : Option (Finset Nat)} {E : Prop}
  {x : Nat → Int} {st : (σ × Mem) × Tables P}

/-- A function of the inode layer that takes or gives references, and does not see the tables. -/
theorem Owing.inFs {α : Type} {f : FsM σ α} {K : α → Option (Finset Nat)} {y : α → Nat → Int} {G : α → Prop}
    (h : Owing H E x st) (hf : ∀ R, Tally H (R + x) st.1.2 → Ret f st.1 fun a fs => Tally (K a) (R + y a) fs.2 ∧ G a) :
    Ret (Fs.inFs f) st fun a st' => Owing (K a) E (y a) st' ∧ G a ∧ st'.2 = st.2 := by
  obtain ⟨R, htally, hbooks⟩ := h
  refine wp_inFs_of_ret tame_true (wp_imp (hf R htally) (fun a fs h1 => ?_))
  exact ⟨⟨R, h1.1, hbooks⟩, h1.2, rfl⟩

theorem owing_steady {α : Type} {f : FsM σ α} (hf : Steady H f) (h : Owing H E x st) :
    Ret (Fs.inFs f) st fun _ st' => Owing H E x st' ∧ st'.2 = st.2 := by
  have hret := h.inFs (K := fun _ => H) (y := fun _ => x) (G := fun _ => True) fun R hR =>
    wp_imp (hf _ _ _ hR) (fun _ _ h1 => ⟨h1, trivial⟩)
  exact wp_imp hret (fun _ _ h1 => ⟨h1.1, h1.2.2⟩)

theorem owing_lock (h : Owing H E x st) (p : Nat) :
    Ret (Fs.inFs (inodeLock p)) st fun _ st' => Owing (lockMore H p) E x st' ∧ Unlocked H p ∧ st'.2 = st.2 :=
  h.inFs (K := fun _ => lockMore H p) (y := fun _ => x) (G := fun _ => Unlocked H p) fun _ hR => tally_lock hR p

theorem owing_unlock {p : Nat} (h : Owing (lockMore H p) E x st) (hfree : Unlocked H p) :
    Ret (Fs.inFs (inodeUnlock p)) st fun _ st' => Owing H E x st' ∧ st'.2 = st.2 := by
  have hret := h.inFs (K := fun _ => H) (y := fun _ => x) (G := fun _ => True) fun R hR => by
    refine wp_imp (tally_unlock hR (locked_lockMore H p)) (fun _ _ h1 => ⟨?_, trivial⟩)
    rwa [lockLess_lockMore hfree] at h1
  exact wp_imp hret (fun _ _ h1 => ⟨h1.1, h1.2.2⟩)

theorem owing_put (h : Owing H E x st) (ctx : Option Nat) (p : Nat) :
    Ret (Fs.inFs (inodePut cache sb ctx p)) st fun _ st' => Owing H E (bump x p (-1)) st' ∧ st'.2 = st.2 := by
  have hret := h.inFs (K := fun _ => H) (y := fun _ => bump x p (-1)) (G := fun _ => True) fun R hR => by
    refine wp_imp (tally_put cache sb hR ctx p) (fun _ _ h1 => ⟨?_, trivial⟩)
    rwa [bump_add] at h1
  exact wp_imp hret (fun _ _ h1 => ⟨h1.1, h1.2.2⟩)

theorem owing_share (h : Owing H E x st) (p : Nat) :
    Ret (Fs.inFs (inodeShare p)) st fun q st' => Owing H E (bump x p 1) st' ∧ q = p ∧ st'.2 = st.2 :=
  h.inFs (K := fun _ => H) (y := fun _ => bump x p 1) (G := fun q => q = p) fun R hR => by
    refine wp_imp (tally_share hR p) (fun _ _ h1 => ⟨?_, h1.1⟩)
    rw [← bump_add]
    exact h1.2

/-- One reference more to what is returned. -/
def taken (x : Nat → Int) : Option Nat → Nat → Int
  | none => x
  | some p => bump x p 1

theorem returned_add {R : Nat → Int} {r : Option Nat} {m : Mem} (h : Returned H (R + x) r m) :
    Tally H (R + taken x r) m := by
  cases r with
  | none => exact h
  | some p =>
    show Tally H (R + bump x p 1) m
    rw [← bump_add]
    exact h

/-- `namei` and `create`: what they return is held by the call. -/
theorem owing_returned {f : FsM σ (Option Nat)} (h : Owing H E x st)
    (hf : ∀ R s m, Tally H R m → Ret f (s, m) fun r st => Returned H R r st.2) :
    Ret (Fs.inFs f) st fun r st' => Owing H E (taken x r) st' ∧ st'.2 = st.2 := by
  have hret := h.inFs (K := fun _ => H) (y := taken x) (G := fun _ => True) fun R hR =>
    wp_imp (hf _ st.1.1 st.1.2 hR) (fun _ _ h1 => ⟨returned_add h1, trivial⟩)
  exact wp_imp hret (fun _ _ h1 => ⟨h1.1, h1.2.2⟩)

theorem owing_beginOp (h : Owing H E x st) (c : Nat) :
    Ret (beginOp cache c) st fun _ st' => Owing H E x st' ∧ st'.2 = st.2 :=
  owing_steady (Silent.onFst _).steady h

theorem owing_endOp (h : Owing H E x st) (c : Nat) :
    Ret (endOp cache c) st fun _ st' => Owing H E x st' ∧ st'.2 = st.2 :=
  wp_seq (owing_steady (Silent.onFst _).steady h) fun _ _ h1 => h1

end Inodes

/-! ## `fs/file.c` -/

section Files

variable {σ P : Type} [Fintype P] (cache : BlockCache σ) (sb : SuperBlock) {H : Option (Finset Nat)} {E : Prop}
  {x : Nat → Int} {st : (σ × Mem) × Tables P}

theorem opens_of_not_inode {file : File} (h : file.type ≠ .inode) (p : Nat) : opens p file = 0 :=
  if_neg fun hopen => h hopen.2.1

theorem opens_inode {file : File} (hpos : 0 < file.ref) (h : file.type = .inode) (p : Nat) :
    opens p file = if file.ip = p then 1 else 0 := by
  unfold opens
  simp only [hpos, h, true_and]

theorem owing_filealloc (h : Owing H E x st) :
    Ret filealloc st fun r st' => Owing H E x st' ∧ st'.2.procs = st.2.procs ∧
      (∀ g, (st.2.file g).ref ≠ 0 → st'.2.file g = st.2.file g) ∧
      ∀ f, r = some f → f < nfile ∧ (st'.2.file f).ref = 1 ∧ (E → (st'.2.file f).type ≠ .inode) := by
  refine wp_filealloc ⟨h, rfl, fun _ _ => rfl, fun f hf => by cases hf⟩ fun f hlt hfree => ⟨?_, rfl, fun g hg => ?_, ?_⟩
  · refine h.sameFile (fun _ => hlt) (fun _ hle => ?_) fun _ hfiles p => ?_
    · exact absurd hle (by simp)
    · have hnone := hfiles.closed f (by omega)
      have hnone' : opens p { st.2.file f with ref := 1 } = 0 := opens_of_not_inode (by simpa using hnone) p
      rw [hnone', opens_of_not_inode hnone]
  · exact Function.update_of_ne (by rintro rfl; exact hg hfree) ..
  · rintro g ⟨⟩
    simp only [Tables.setFile, Function.update_self]
    refine ⟨hlt, trivial, fun hE => ?_⟩
    obtain ⟨R, -, hbooks⟩ := h
    exact (hbooks hE).1.closed f (by omega)

theorem owing_filedup (h : Owing H E x st) (f : Nat) :
    Ret (filedup f) st fun _ st' => Owing H E x st' ∧ st'.2.procs = st.2.procs := by
  refine wp_bind.mpr (wp_getFile.mpr (wp_bind.mpr (wp_assert.mpr ⟨fun hpos => ?_, fun _ => trivial⟩)))
  have hpos := of_decide_eq_true hpos
  refine wp_setFile.mpr ⟨h.sameFile (fun hfiles => hfiles.lt_of_pos hpos) (fun _ hle => ?_) fun _ _ p => ?_, rfl⟩
  · show (st.2.file f).type ≠ .inode
    have : (st.2.file f).ref + 1 ≤ 0 := hle
    omega
  · have hpos' : 0 < (st.2.file f).ref + 1 := by omega
    simp only [opens, hpos, hpos']

theorem owing_fileclose (h : Owing H E x st) (f : Nat) :
    Ret (fileclose cache sb (some f)) st fun _ st' => Owing H E x st' ∧ st'.2.procs = st.2.procs := by
  refine wp_bind.mpr (wp_getFile.mpr (wp_bind.mpr (wp_assert.mpr ⟨fun hpos => ?_, fun _ => trivial⟩)))
  have hpos := of_decide_eq_true hpos
  have hlive : FileTable st.2 → f < nfile := fun hfiles => hfiles.lt_of_pos hpos
  refine wp_ite.mpr ⟨fun hmore => ?_, fun hlast => ?_⟩
  · refine wp_setFile.mpr ⟨h.sameFile hlive (fun _ hle => ?_) fun _ _ p => ?_, rfl⟩
    · show (st.2.file f).type ≠ .inode
      have : (st.2.file f).ref - 1 ≤ 0 := hle
      omega
    · simp only [opens, hpos, hmore]
  · refine wp_bind.mpr (wp_setFile.mpr ?_)
    -- the entry is closed first, so its reference is owed until `inode_put`
    have hclose : ∀ y : Nat → Int, (∀ p, y p = x p + opens p (st.2.file f)) →
        Owing H E y (st.1, Tables.setFile st.2 f { st.2.file f with ref := 0, type := .none }) := by
      intro y hy
      refine h.setFile hlive (fun _ _ => by simp) fun _ _ p => ?_
      have hnone : opens p { st.2.file f with ref := 0, type := .none } = 0 := opens_of_not_inode (by simp) p
      rw [hy p, hnone, sub_zero]
    unfold closeLast
    cases htype : (st.2.file f).type with
    | inode =>
      have howed := hclose (bump x (st.2.file f).ip 1) fun p => by rw [bump_apply, opens_inode hpos htype]
      refine wp_seq (owing_beginOp cache howed closeCtx) fun _ st₁ h1 => ?_
      refine wp_seq (owing_put cache sb h1.1 (some closeCtx) _) fun _ st₂ h2 => ?_
      rw [bump_back] at h2
      refine wp_imp (owing_endOp cache h2.1 closeCtx) (fun _ st₃ h3 => ⟨h3.1, ?_⟩)
      rw [h3.2, h2.2, h1.2]
      rfl
    | pipe => exact ⟨hclose x fun p => by rw [opens_of_not_inode (by simp [htype]), add_zero], rfl⟩
    | none => exact ⟨hclose x fun p => by rw [opens_of_not_inode (by simp [htype]), add_zero], rfl⟩

theorem stati_silent (p : Nat) : Silent (stati p : FsM σ InodeEntry) :=
  (Silent.deref p).bind fun _ => (Silent.assert _ _).bind fun _ => Silent.pure _

theorem owing_filestat (h : Owing H E x st) (f : Nat) : Ret (filestat f) st fun _ st' => Owing H E x st' := by
  refine wp_bind.mpr (wp_getFile.mpr ?_)
  cases (st.2.file f).type with
  | inode =>
    refine wp_seq (owing_lock h _) fun _ st₁ h1 => ?_
    refine wp_seq (owing_steady (stati_silent _).steady h1.1) fun _ st₂ h2 => ?_
    exact wp_seq (owing_unlock h2.1 h1.2.1) fun _ _ h3 => h3.1
  | pipe => exact h
  | none => exact h

theorem opens_advance (file : File) (r : UInt64) (p : Nat) : opens p (file.advance r) = opens p file := by
  unfold File.advance
  split <;> rfl

/-- The offset of an open file moves. -/
theorem Owing.advance (h : Owing H E x st) {f : Nat} {file : File} (hfile : st.2.file f = file)
    (htype : file.type = .inode) (r : UInt64) :
    Owing H E x (st.1, Tables.setFile st.2 f (file.advance r)) := by
  subst hfile
  refine h.sameFile (fun hfiles => hfiles.lt_of_inode htype) (fun hfiles hle => ?_)
    fun _ _ p => opens_advance _ r p
  unfold File.advance at hle ⊢
  split at hle
  · exact absurd htype (hfiles.closed f hle)
  · exact absurd htype (hfiles.closed f hle)

theorem owing_fileread (h : Owing H E x st) (f : Nat) (n : UInt64) (con : Option (List UInt8)) (piped : Int) :
    Ret (fileread cache sb f n con piped) st fun _ st' => Owing H E x st' := by
  refine wp_bind.mpr (wp_getFile.mpr (wp_ite.mpr ⟨fun _ => h, fun _ => ?_⟩))
  cases htype : (st.2.file f).type with
  | inode =>
    refine wp_seq (owing_lock h _) fun _ st₁ h1 => ?_
    refine wp_seq (owing_steady (inodeRead_steady cache sb (locked_lockMore H _) _ _ _) h1.1) fun r st₂ h2 => ?_
    have hfile : st₂.2.file f = st.2.file f := by rw [h2.2, h1.2.2]
    refine wp_bind.mpr (wp_setFile.mpr ?_)
    exact wp_seq (owing_unlock (h2.1.advance hfile htype r.1) h1.2.1) fun _ _ h3 => h3.1
  | pipe => exact h
  | none => trivial

theorem owing_filewrite (h : Owing H E x st) (f : Nat) (src : Nat → UInt8) (n : UInt64) (piped : Int) :
    Ret (filewrite cache sb f src n piped) st fun _ st' => Owing H E x st' := by
  refine wp_bind.mpr (wp_getFile.mpr (wp_ite.mpr ⟨fun _ => h, fun _ => ?_⟩))
  cases htype : (st.2.file f).type with
  | inode =>
    refine wp_seq (owing_beginOp cache h closeCtx) fun _ st₀ h0 => ?_
    refine wp_seq (owing_lock h0.1 _) fun _ st₁ h1 => ?_
    refine wp_seq (owing_steady (inodeWrite_steady cache sb (locked_lockMore H _) _ _ _ _) h1.1) fun r st₂ h2 => ?_
    have hfile : st₂.2.file f = st.2.file f := by rw [h2.2, h1.2.2, h0.2]
    refine wp_bind.mpr (wp_setFile.mpr ?_)
    refine wp_seq (owing_unlock (h2.1.advance hfile htype r) h1.2.1) fun _ st₃ h3 => ?_
    exact wp_seq (owing_endOp cache h3.1 closeCtx) fun _ _ h4 => h4.1
  | pipe => exact h
  | none => trivial

end Files

end Armv8Os.Sysfile
