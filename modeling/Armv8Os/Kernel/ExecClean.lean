/-
  `execve` that fails.

  1. **Specification** — `FailsCleanly`: the operation has been ended once, the inode is as it was, and so are the free pages,
     the rest of the memory and the process.

  2. **Crux** — while there is at most one header of each class, and their pages are apart, every page that was taken is in
     use and in a section (`Layout.Tidy`, `NoLeak`), so that `free_pgdir` gives all of them back, each once.

  3. **Bugs** — there is ONE label `bad` for all failures.  A file shorter than an ELF header goes there before the `pgdir`
     has been initialised.  Arguments that do not fit go there when the inode has been given back and the operation ended
     already, and both are done again.  And a second header of a class takes the range of the first out of the section, so
     that its pages are lost.
-/
import Armv8Os.Kernel.ExecLoad

namespace Armv8Os.Execve

open Mmu Words Pt List Option

/-! ## Tidy layouts -/

/-- The page numbers of a range. -/
def InRange (r : UInt64 × UInt64) (n : Nat) : Prop := r.1.toNat / 4096 ≤ n ∧ n < r.2.toNat / 4096

structure Aligned (r : UInt64 × UInt64) : Prop where
  begin : r.1.toNat % 4096 = 0
  stop : r.2.toNat % 4096 = 0
  small : r.2.toNat ≤ 2 ^ 48

/-- The sections are apart, and all mapped pages are in them. -/
structure Layout.Tidy (L : Layout) : Prop where
  data : Aligned L.data
  text : Aligned L.text
  apart : ∀ n, InRange L.data n → ¬ InRange L.text n
  covered : ∀ n, (L.img n).isSome → InRange L.data n ∨ InRange L.text n

section Tidy

variable {m₀ : Paging} {pd pd' : Pgdir} {L : Layout} {file : List UInt8} {ph : Phdr} {ok : Bool}

/-- A tidy space can be taken down. -/
theorem Holds.exclusive (h : Holds m₀ pd L) (htidy : L.Tidy) : Exclusive pd.m pd.sections := by
  have hpages : ∀ r flags, Aligned r → ∀ p ∈ Section.pages ⟨flags, r.1, r.2⟩, InRange r (vpn p) :=
    fun r _ hr p hp => (vpn_pagesFrom hr.begin hr.stop hr.small hp).2
  have hflat : pd.sections.flatMap Section.pages =
      Section.pages ⟨stData, L.data.1, L.data.2⟩ ++ Section.pages ⟨stText, L.text.1, L.text.2⟩ := by
    rw [h.sections, Layout.sections, flatMap_cons, flatMap_singleton]
  constructor
  case space => exact h.building.space
  case clean => exact h.building.clean
  case distinct => exact h.building.distinct
  case low => exact h.building.low
  case noSwap =>
    intro sec hsec
    rw [h.sections] at hsec
    rcases mem_cons.mp hsec with rfl | hsec
    · exact (by decide : stData &&& stSwap = 0)
    · obtain rfl := mem_singleton.mp hsec
      exact (by decide : stText &&& stSwap = 0)
  case apart =>
    rw [hflat, map_append]
    refine nodup_append.mpr ⟨nodup_pagesFrom htidy.data.begin htidy.data.stop htidy.data.small,
      nodup_pagesFrom htidy.text.begin htidy.text.stop htidy.text.small, fun n hn n' hn' heq => ?_⟩
    obtain ⟨p, hp, rfl⟩ := mem_map.mp hn
    obtain ⟨q, hq, rfl⟩ := mem_map.mp hn'
    exact htidy.apart _ (hpages _ _ htidy.data p hp) (heq ▸ hpages _ _ htidy.text q hq)
  case covers =>
    intro va hva
    rw [h.building.mapped] at hva
    rw [hflat]
    rcases htidy.covered _ hva with hin | hin
    · obtain ⟨p, hp, hvpn⟩ := exists_pagesFrom htidy.data.begin htidy.data.stop htidy.data.small hin.1 hin.2
      exact ⟨p, mem_append_left _ hp, hvpn⟩
    · obtain ⟨p, hp, hvpn⟩ := exists_pagesFrom htidy.text.begin htidy.text.stop htidy.text.small hin.1 hin.2
      exact ⟨p, mem_append_right _ hp, hvpn⟩

/-- There is room for the header: its section is still empty, and its pages are in no section. -/
structure Ready (L : Layout) (ph : Phdr) : Prop where
  placed : ph.Placed
  empty : ∀ n, ¬ InRange (if ph.isText then L.text else L.data) n
  clear : ∀ n, ph.first ≤ n → n < ph.last → ¬ InRange (if ph.isText then L.data else L.text) n

/-- A header that is loaded, whole or in part, leaves a tidy layout. -/
theorem Loads.tidy {img : Image} {stop : UInt64} (h : Loads m₀ file L ph pd pd' ok img stop) (htidy : L.Tidy)
    (hready : Ready L ph) : (L.place ph img stop).Tidy ∧ (NoLeak m₀ pd.m → NoLeak m₀ pd'.m) := by
  have hvaddr := toNat_pageBase ph.vaddr
  have hfirst : (pageBase ph.vaddr).toNat / 4096 = ph.first := by
    rw [hvaddr, Phdr.first]
    omega
  have hsmall : stop.toNat ≤ 2 ^ 48 := by
    have h1 := h.upto
    have h2 := h.aligned
    have h3 := hready.placed.small
    rw [Phdr.last] at h1
    omega
  have hnew : Aligned (pageBase ph.vaddr, stop) := ⟨by show (pageBase ph.vaddr).toNat % 4096 = 0; omega, h.aligned, hsmall⟩
  have hrange : ∀ n, InRange (pageBase ph.vaddr, stop) n ↔ ph.first ≤ n ∧ n < stop.toNat / 4096 := by
    intro n
    unfold InRange
    rw [hfirst]
  have hpages : ∀ n, InRange (pageBase ph.vaddr, stop) n → ph.first ≤ n ∧ n < ph.last :=
    fun n hn => ⟨((hrange n).mp hn).1, ((hrange n).mp hn).2.trans_le h.upto⟩
  have hold : ∀ n, (img n).isSome → InRange (pageBase ph.vaddr, stop) n ∨ InRange L.data n ∨ InRange L.text n := by
    intro n hn
    by_cases hin : InRange (pageBase ph.vaddr, stop) n
    · exact Or.inl hin
    · rw [h.outside n (mt (hrange n).mpr hin)] at hn
      exact Or.inr (htidy.covered n hn)
  have hnone : ∀ n, ph.first ≤ n → n < ph.last → L.img n = none := by
    intro n hn hn'
    by_contra hsome
    have hempty := hready.empty n
    have hclear := hready.clear n hn hn'
    rcases htidy.covered n (isSome_iff_ne_none.mpr hsome) with hin | hin
    · split at hempty
      next htext => exact hclear (by rw [if_pos htext]; exact hin)
      next => exact hempty hin
    · split at hempty
      next => exact hempty hin
      next htext => exact hclear (by rw [if_neg htext]; exact hin)
  refine ⟨?_, h.noLeak hnone⟩
  unfold Layout.place
  obtain ⟨-, hempty, hclear⟩ := hready
  split
  next htext =>
    rw [if_pos htext] at hempty hclear
    refine ⟨htidy.data, hnew, fun n hd ht => hclear n (hpages n ht).1 (hpages n ht).2 hd, fun n hn => ?_⟩
    rcases hold n hn with hin | hin | hin
    · exact Or.inr hin
    · exact Or.inl hin
    · exact absurd hin (hempty n)
  next htext =>
    rw [if_neg htext] at hempty hclear
    refine ⟨hnew, htidy.text, fun n hd ht => hclear n (hpages n hd).1 (hpages n hd).2 ht, fun n hn => ?_⟩
    rcases hold n hn with hin | hin | hin
    · exact Or.inl hin
    · exact absurd hin (hempty n)
    · exact Or.inr hin

/-- Two headers of different classes, with pages apart. -/
def Compatible (a b : Phdr) : Prop :=
  a.loads → b.loads → a.isText ≠ b.isText ∧ ∀ n, ¬ (a.first ≤ n ∧ n < a.last ∧ b.first ≤ n ∧ n < b.last)

theorem Ready.place {img : Image} {stop : UInt64} {b : Phdr} (hready : Ready L b) (hloads : ph.loads) (hb : b.loads)
    (hdistinct : Compatible ph b) (hupto : stop.toNat / 4096 ≤ ph.last) : Ready (L.place ph img stop) b := by
  obtain ⟨hclass, hpages⟩ := hdistinct hloads hb
  obtain ⟨hplaced, hempty, hclear⟩ := hready
  have hvaddr := toNat_pageBase ph.vaddr
  have hnew : ∀ n, b.first ≤ n → n < b.last → ¬ InRange (pageBase ph.vaddr, stop) n := by
    intro n hn hn' hin
    refine hpages n ⟨?_, hin.2.trans_le hupto, hn, hn'⟩
    have hle : (pageBase ph.vaddr).toNat / 4096 ≤ n := hin.1
    rw [Phdr.first]
    omega
  unfold Layout.place
  -- the section of `b` is the one that has not changed
  cases htext : ph.isText with
  | true =>
    obtain hb' : b.isText = false := by
      rw [htext] at hclass
      exact Bool.eq_false_iff.mpr (Ne.symm hclass)
    rw [hb'] at hempty hclear
    refine ⟨hplaced, ?_, ?_⟩
    · rw [hb']
      exact hempty
    · rw [hb']
      exact hnew
  | false =>
    obtain hb' : b.isText = true := by
      rw [htext] at hclass
      exact Bool.not_eq_false _ ▸ Ne.symm hclass
    rw [hb'] at hempty hclear
    refine ⟨hplaced, ?_, ?_⟩
    · rw [hb']
      exact hempty
    · rw [hb']
      exact hnew

/-- The loop over the headers, whether it comes to its end or not. -/
theorem loadPhdrs_tidy {n off : Nat} (h : Holds m₀ pd L) (htidy : L.Tidy) (hleak : NoLeak m₀ pd.m) (hfile : file.length < 2 ^ 32)
    (hready : ∀ ph ∈ headers file n off, ph.loads → Ready L ph) (hdistinct : (headers file n off).Pairwise Compatible)
    (hload : loadPhdrs file n off pd = .ok (ok, pd')) : ∃ L', Holds m₀ pd' L' ∧ L'.Tidy ∧ NoLeak m₀ pd'.m := by
  induction n generalizing off pd L with
  | zero =>
    obtain ⟨-, rfl⟩ := Prod.mk.inj (Except.ok.inj hload)
    exact ⟨L, h, htidy, hleak⟩
  | succ n ih =>
    have hone : ∀ ph ok₁ pd₁, (ph.loads → Ready L ph) → loadPhdr file ph pd = .ok (ok₁, pd₁) →
        ∃ L', Holds m₀ pd₁ L' ∧ L'.Tidy ∧ NoLeak m₀ pd₁.m ∧
          ∀ b, (b.loads → Ready L b) → Compatible ph b → b.loads → Ready L' b := by
      intro ph ok₁ pd₁ hph hone
      by_cases hloads : ph.loads
      · obtain ⟨img, stop, hspec⟩ := loadPhdr_loads h hfile (hph hloads).placed hloads hone
        obtain ⟨htidy', hleak'⟩ := hspec.tidy htidy (hph hloads)
        exact ⟨_, hspec.holds, htidy', hleak' hleak, fun b hb hd hbl => (hb hbl).place hloads hbl hd hspec.upto⟩
      · rw [loadPhdr_skips hloads hone]
        exact ⟨L, h, htidy, hleak, fun b hb _ => hb⟩
    obtain ⟨-, rfl, -⟩ | ⟨ph, pd₁, hheaders, hcase⟩ := loadPhdrs_cases hload
    · exact ⟨L, h, htidy, hleak⟩
    · rw [hheaders] at hready hdistinct
      obtain ⟨hph, hphs⟩ := forall_mem_cons.mp hready
      obtain ⟨hrel, hdistinct⟩ := pairwise_cons.mp hdistinct
      rcases hcase with ⟨hload, -⟩ | ⟨hload, hrest⟩
      · obtain ⟨L', hholds, htidy', hleak', -⟩ := hone ph false pd' hph hload
        exact ⟨L', hholds, htidy', hleak'⟩
      · obtain ⟨L', hholds, htidy', hleak', hready'⟩ := hone ph true pd₁ hph hload
        exact ih hholds htidy' hleak' (fun b hb => hready' b (hphs b hb) (hrel b hb)) hdistinct hrest

end Tidy

/-! ## The arguments -/

/-- The arguments go onto the stack. -/
def Fits (argv : Option (List (List UInt8))) : Prop :=
  Exec.fitArgs ((argv.getD []).map fun str => UInt64.ofNat str.length) ≠ none

instance (argv : Option (List (List UInt8))) : Decidable (Fits argv) := inferInstanceAs (Decidable (_ ≠ _))

theorem pushArgs_eq {argv : List (List UInt8)} {a a' : Args} {ok : Bool} (hpush : pushArgs argv a = .ok (ok, a')) :
    Exec.pushArgs (argv.map fun str => UInt64.ofNat str.length) a.argc a.sp = if ok then some (a'.argc, a'.sp) else none := by
  induction argv generalizing a with
  | nil =>
    obtain ⟨rfl, rfl⟩ := Prod.mk.inj (Except.ok.inj hpush)
    rfl
  | cons str argv ih =>
    unfold pushArgs at hpush
    rw [map_cons, Exec.pushArgs, ← UInt64.ofNat_one, ← UInt64.ofNat_add]
    split at hpush
    next hmany =>
      obtain ⟨rfl, rfl⟩ := Prod.mk.inj (Except.ok.inj hpush)
      rw [if_pos hmany]
      rfl
    next hmany =>
      dsimp only at hpush
      split at hpush
      next hlow =>
        obtain ⟨rfl, rfl⟩ := Prod.mk.inj (Except.ok.inj hpush)
        rw [if_neg hmany, if_pos hlow]
        rfl
      next hlow =>
        obtain ⟨m, -, hrest⟩ := bind_eq_ok.mp hpush
        rw [if_neg hmany, if_neg hlow]
        exact ih hrest

/-- Both checks of the stack pass. -/
theorem Fits.pushes {argv : Option (List (List UInt8))} (hfits : Fits argv) :
    ∃ argc sp, Exec.pushArgs ((argv.getD []).map fun str => UInt64.ofNat str.length) 0 (Exec.stackBase + pageSize - 32) =
      some (argc, sp) ∧ ¬ Exec.pushDown sp (UInt64.ofNat ((argc + 2) * 8)) < Exec.stackBase := by
  unfold Fits Exec.fitArgs at hfits
  split at hfits
  next => exact absurd rfl hfits
  next argc sp heq => exact ⟨argc, sp, heq, fun hlow => hfits (if_pos hlow)⟩

/-- With arguments that fit, the stack is built. -/
theorem buildStack_fits {argv : Option (List (List UInt8))} {pd pd' : Pgdir} {a : Args} {ok : Bool} (hfits : Fits argv)
    (hbuild : buildStack argv pd = .ok (ok, a, pd')) : ok = true := by
  obtain ⟨pd₁, -, hbuild⟩ := bind_eq_ok.mp hbuild
  obtain ⟨⟨ok₁, a₁⟩, hargs, hbuild⟩ := bind_eq_ok.mp hbuild
  obtain ⟨argc, sp, hpush, hroom⟩ := hfits.pushes
  have hargs' := hpush.symm.trans (pushArgs_eq hargs)
  cases ok₁ with
  | false => cases hargs'
  | true =>
    obtain ⟨⟨ok₂, a₂⟩, hustack, hok⟩ := bind_eq_ok.mp hbuild
    obtain ⟨rfl, -, -⟩ := Prod.mk.inj (Except.ok.inj hok)
    unfold pushUstack at hustack
    dsimp only at hustack
    split at hustack
    next hlow =>
      cases hargs'
      exact absurd hlow hroom
    next =>
      obtain ⟨m, -, hlast⟩ := bind_eq_ok.mp hustack
      exact (Prod.mk.inj (Except.ok.inj hlast)).1.symm

/-! ## Failure -/

/-- The state after a failure. -/
structure FailsCleanly (s s' : State) : Prop where
  begun : s'.begun = s.begun + 1
  ended : s'.ended = s.ended + 1
  locked : s'.locked = s.locked
  rc : s'.rc = s.rc
  free : s'.free.Perm s.free
  extra : s'.extra = s.extra
  word : ∀ a, pageBase a ∉ s.free → s'.word a = s.word a
  pt : s'.pt = s.pt
  sections : s'.sections = s.sections
  elr : s'.elr = s.elr
  spEl0 : s'.spEl0 = s.spEl0

/-- `free_pgdir` on a tidy space gives back what was taken. -/
theorem freeSpace_tidy {s : State} {m₀ : Paging} {pd : Pgdir} {L : Layout} (hfree : FreePages m₀.free)
    (hextra : ∀ p ∈ m₀.free, s.extra p = 0) (h : Holds m₀ pd L) (htidy : L.Tidy) (hleak : NoLeak m₀ pd.m) :
    ∃ free, freeSpace { s with word := pd.m.word, free := pd.m.free } pd.m.pt pd.sections =
      { s with word := pd.m.word, free := free } ∧ free.Perm m₀.free := by
  have hexclusive := h.exclusive htidy
  have hmem := hexclusive.mem_freePgdir
  have hnodup := hexclusive.nodup_freePgdir
  have hzero : ∀ p ∈ freePgdir pd.m pd.sections, s.extra p = 0 :=
    fun p hp => hextra p (h.building.uses p ((hmem p).mp hp))
  obtain ⟨freed, hfold, hfreed, hin⟩ := foldl_kfreePage (freePgdir pd.m pd.sections)
    { s with word := pd.m.word, free := pd.m.free } fun p => (nodup_iff_count_le_one.mp hnodup p).trans (by omega)
  have hin' : ∀ p, p ∈ freed ↔ Uses pd.m p := by
    intro p
    rw [hin, ← hmem]
    constructor
    · intro hcount
      exact count_pos_iff.mp (by omega)
    · intro hp
      rw [count_eq_one_of_mem hnodup hp]
      exact (congrArg (· + 1) (hzero p hp)).symm
  have hsame : (fun p => s.extra p - (freePgdir pd.m pd.sections).count p) = s.extra := by
    funext p
    by_cases hp : p ∈ freePgdir pd.m pd.sections
    · rw [hzero p hp, Nat.zero_sub]
    · rw [count_eq_zero_of_not_mem hp, Nat.sub_zero]
  refine ⟨freed ++ pd.m.free, ?_, ?_⟩
  · refine hfold.trans ?_
    rw [hsame]
  · have hdisjoint : ∀ p ∈ freed, ∀ q ∈ pd.m.free, p ≠ q := by
      rintro p hp q hq rfl
      exact h.building.space.not_free ((hin' p).mp hp) hq
    refine (perm_ext_iff_of_nodup
      (nodup_append.mpr ⟨hfreed, h.building.space.wf.free.once, hdisjoint⟩) hfree.once).mpr fun p => ?_
    rw [mem_append, hin']
    constructor
    · rintro (hused | hin)
      · exact h.building.uses p hused
      · exact h.building.free_subset hin
    · exact fun hp => (hleak p hp).symm

/-- The program headers of an ELF file. -/
def phdrs (file : List UInt8) : List Phdr :=
  headers file (Exec.field (file.take Exec.ehdrSize) 56 2) (Exec.field (file.take Exec.ehdrSize) 32 8)

/-- What `execve` can cope with: at least a header; and if that is an ELF header, at most one segment of text and one of data,
and arguments that fit. -/
structure Manageable (file : List UInt8) (argv : Option (List (List UInt8))) : Prop where
  header : Exec.ehdrSize ≤ file.length
  placed : Fs.strncmp 4 (file.take Exec.ehdrSize) Exec.elfMag = 0 → ∀ ph ∈ phdrs file, ph.loads → ph.Placed
  single : Fs.strncmp 4 (file.take Exec.ehdrSize) Exec.elfMag = 0 → (phdrs file).Pairwise Compatible
  fits : Fs.strncmp 4 (file.take Exec.ehdrSize) Exec.elfMag = 0 → Fits argv

/-- The read of the ELF header. -/
theorem inodeRead_header {file : List UInt8} (hfile : file.length < 2 ^ 32) (hlong : Exec.ehdrSize ≤ file.length) :
    inodeRead file 0 (UInt64.ofNat Exec.ehdrSize) = .ok (UInt64.ofNat Exec.ehdrSize, file.take Exec.ehdrSize) := by
  refine (inodeRead_inside hfile ?_).trans rfl
  show 0 + 64 ≤ file.length
  exact hlong

/-- The layout to start from. -/
def emptyLayout : Layout where
  img _ := none
  data := (0, 0)
  text := (0, 0)

theorem not_inRange_empty (n : Nat) : ¬ InRange (0, 0) n := fun h => absurd h.2 (Nat.not_lt_zero n)

theorem emptyLayout_tidy : emptyLayout.Tidy where
  data := ⟨rfl, rfl, Nat.zero_le _⟩
  text := ⟨rfl, rfl, Nat.zero_le _⟩
  apart n h := absurd h (not_inRange_empty n)
  covered _ h := (nomatch h)

theorem Ready.emptyLayout {ph : Phdr} (h : ph.Placed) : Ready emptyLayout ph := by
  refine ⟨h, fun n => ?_, fun n _ _ => ?_⟩
  · rw [show (if ph.isText then Execve.emptyLayout.text else Execve.emptyLayout.data) = (0, 0) from ite_id ..]
    exact not_inRange_empty n
  · rw [show (if ph.isText then Execve.emptyLayout.data else Execve.emptyLayout.text) = (0, 0) from ite_id ..]
    exact not_inRange_empty n

/-! ## Nothing is freed that has not been initialised -/

/-- It does not stop as `wild`. -/
structure Tame {α : Type} (x : Except Stop α) : Prop where
  ne : x ≠ .error .wild

section Tame

variable {α β : Type}

theorem tame_ok (a : α) : Tame (.ok a) := ⟨(nomatch ·)⟩

theorem Tame.bind {x : Except Stop α} {f : α → Except Stop β} (hx : Tame x) (hf : ∀ a, Tame (f a)) : Tame (x >>= f) := by
  cases x with
  | ok a => exact hf a
  | error e => exact ⟨fun h => hx.ne (congrArg _ (Except.error.inj h))⟩

theorem tame_paging (x : Except Pt.Stop α) : Tame (paging x) := by
  cases x with
  | ok a => exact tame_ok a
  | error e => exact ⟨(nomatch ·)⟩

theorem tame_inodeRead (file : List UInt8) (offset count : UInt64) : Tame (inodeRead file offset count) := by
  unfold inodeRead
  dsimp only
  generalize (if UInt64.ofNat file.length < count + offset then UInt64.ofNat file.length - offset else count) = c
  split
  · exact tame_ok _
  · exact ⟨(nomatch ·)⟩

theorem tame_loadPage (file : List UInt8) (va offset sz flags : UInt64) (m : Paging) (p : UInt64) :
    Tame (loadPage file va offset sz flags m p) :=
  (tame_paging _).bind fun _ => (tame_paging _).bind fun _ => (tame_inodeRead ..).bind fun _ => tame_ok _

theorem tame_loadPages (file : List UInt8) (va offset sz flags : UInt64) (ps : List UInt64) (m : Paging) :
    Tame (loadPages file va offset sz flags ps m) := by
  induction ps generalizing m with
  | nil => exact tame_ok _
  | cons p ps ih =>
    refine (tame_loadPage ..).bind fun (ok, m) => ?_
    cases ok with
    | true => exact ih m
    | false => exact tame_ok _

theorem tame_loadSeg (pd : Pgdir) (va : UInt64) (file : List UInt8) (offset sz flags : UInt64) :
    Tame (loadSeg pd va file offset sz flags) := by
  unfold loadSeg
  dsimp only
  split
  · exact tame_ok _
  · exact (tame_loadPages ..).bind fun _ => tame_ok _

theorem tame_foldlM {f : β → α → Except Stop β} (hf : ∀ b a, Tame (f b a)) (l : List α) (b : β) : Tame (l.foldlM f b) := by
  induction l generalizing b with
  | nil => exact tame_ok b
  | cons a l ih =>
    exact (hf b a).bind ih

theorem tame_bssPage (va : UInt64) (m : Paging) (p : UInt64) : Tame (bssPage va m p) := by
  unfold bssPage
  split
  · exact (tame_paging _).bind fun _ => tame_ok _
  · exact (tame_paging _).bind fun _ => (tame_paging _).bind fun _ => tame_ok _

theorem tame_fillBss (pd : Pgdir) (va sz : UInt64) : Tame (fillBss pd va sz) := by
  unfold fillBss
  dsimp only
  split
  · exact tame_ok _
  · exact (tame_foldlM (tame_bssPage va) ..).bind fun _ => tame_ok _

theorem tame_loadPhdr (file : List UInt8) (ph : Phdr) (pd : Pgdir) : Tame (loadPhdr file ph pd) := by
  unfold loadPhdr
  split
  · exact tame_ok _
  · split
    · exact tame_loadSeg ..
    · split
      · refine (tame_loadSeg ..).bind fun (ok, pd) => ?_
        cases ok with
        | true => exact tame_fillBss ..
        | false => exact tame_ok _
      · exact tame_ok _

theorem tame_loadPhdrs (file : List UInt8) (n off : Nat) (pd : Pgdir) : Tame (loadPhdrs file n off pd) := by
  induction n generalizing off pd with
  | zero => exact tame_ok _
  | succ n ih =>
    refine (tame_inodeRead ..).bind fun (r, bytes) => ?_
    dsimp only
    split
    · exact tame_ok _
    · refine (tame_loadPhdr ..).bind fun (ok, pd) => ?_
      cases ok with
      | true => exact ih ..
      | false => exact tame_ok _

theorem tame_copyout (rounds : Nat) (m : Paging) (va : UInt64) (bytes : List UInt8) : Tame (copyout rounds m va bytes) := by
  induction rounds generalizing m va bytes with
  | zero =>
    cases bytes with
    | nil => exact tame_ok _
    | cons b bytes => exact ⟨(nomatch ·)⟩
  | succ rounds ih =>
    cases bytes with
    | nil => exact tame_ok _
    | cons b bytes => exact (tame_paging _).bind fun _ => ih ..

theorem tame_pushArgs (argv : List (List UInt8)) (a : Args) : Tame (pushArgs argv a) := by
  induction argv generalizing a with
  | nil => exact tame_ok _
  | cons str argv ih =>
    unfold pushArgs
    split
    · exact tame_ok _
    · dsimp only
      split
      · exact tame_ok _
      · exact (tame_copyout ..).bind fun _ => ih _

theorem tame_buildStack (argv : Option (List (List UInt8))) (pd : Pgdir) : Tame (buildStack argv pd) := by
  have hstack : Tame (createStackSection pd Exec.stackBase) :=
    (tame_paging _).bind fun _ => (tame_paging _).bind fun _ => tame_ok _
  have hustack : ∀ a, Tame (pushUstack a) := by
    intro a
    unfold pushUstack
    dsimp only
    split
    · exact tame_ok _
    · exact (tame_copyout ..).bind fun _ => tame_ok _
  refine hstack.bind fun pd => (tame_pushArgs ..).bind fun (ok, a) => ?_
  cases ok with
  | true => exact (hustack a).bind fun _ => tame_ok _
  | false => exact tame_ok _

theorem tame_install (s : State) (pd : Pgdir) : Tame (install s pd) :=
  (tame_paging _).bind fun _ => (tame_paging _).bind fun _ => tame_ok _

end Tame

/-! ## The theorem -/

/-- `execve` after the ELF header has been read. -/
theorem execve_some {file : List UInt8} (hfile : file.length < 2 ^ 32) (hlong : Exec.ehdrSize ≤ file.length)
    (argv : Option (List (List UInt8))) (s : State) :
    execve (some file) argv s = (
      let elf := file.take Exec.ehdrSize
      let s := { s with begun := s.begun + 1, rc := s.rc + 1, locked := s.locked + 1 }
      if Fs.strncmp 4 elf Exec.elfMag ≠ 0 then .ok (-1, giveBack s)
      else do
        let m ← paging (initPgdir { pt := 0, word := s.word, free := s.free })
        let (ok, pd) ← loadPhdrs file (Exec.field elf 56 2) (Exec.field elf 32 8) { m := m, sections := fileSections }
        if !ok then bad s (some pd)
        else do
          let (ok, a, pd) ← buildStack argv pd
          if !ok then bad (giveBack s) (some pd)
          else do
            let s ← install (giveBack s) pd
            .ok (a.argc, { s with elr := UInt64.ofNat (Exec.field elf 24 8), spEl0 := a.sp })) := by
  unfold execve
  dsimp only
  rw [inodeRead_header hfile hlong]
  rfl

/-- The process before the call. -/
def someState : State where
  word := junkMemory.word
  free := junkMemory.free
  extra _ := 0
  pt := 0
  sections := []
  elr := 0
  spEl0 := 0
  locked := 0
  rc := 0
  begun := 0
  ended := 0

def littleEndian (len n : Nat) : List UInt8 := (List.range len).map fun i => UInt8.ofNat (n / 256 ^ i)

/-- An ELF header, with the program headers right behind it. -/
def elfHeader (phnum : Nat) : List UInt8 :=
  Exec.elfMag ++ List.replicate 28 0 ++ littleEndian 8 64 ++ List.replicate 16 0 ++ littleEndian 2 phnum ++ List.replicate 6 0

def elfPhdr (flags offset vaddr filesz memsz : Nat) : List UInt8 :=
  littleEndian 4 1 ++ littleEndian 4 flags ++ littleEndian 8 offset ++ littleEndian 8 vaddr ++ littleEndian 8 0 ++
    littleEndian 8 filesz ++ littleEndian 8 memsz ++ littleEndian 8 0

/-- A segment of text, and one that can only be read, which is refused. -/
def refusedElf : List UInt8 := elfHeader 2 ++ elfPhdr 5 0 0x400000 16 16 ++ elfPhdr 4 0 0x500000 16 16

theorem phdrs_refusedElf : phdrs refusedElf =
    [⟨⟨1, true, false, true, 0, 0x400000, 16⟩, 16⟩, ⟨⟨1, true, false, false, 0, 0x500000, 16⟩, 16⟩] := by decide +kernel

/-- A header that is refused: what was built for the headers before it is freed. -/
theorem execve_refuses {file : List UInt8} {phs : List Phdr} {s : State} {m : Paging} {pd : Pgdir} (hphs : phdrs file = phs)
    (hfile : file.length < 2 ^ 32 ∧ Exec.ehdrSize ≤ file.length ∧
      Fs.strncmp 4 (file.take Exec.ehdrSize) Exec.elfMag = 0 ∧ phs.length = Exec.field (file.take Exec.ehdrSize) 56 2)
    (hinit : paging (initPgdir { pt := 0, word := s.word, free := s.free }) = .ok m)
    (hload : loadAll file phs { m := m, sections := fileSections } = .ok (false, pd)) (argv : Option (List (List UInt8))) :
    execve (some file) argv s = bad { s with begun := s.begun + 1, rc := s.rc + 1, locked := s.locked + 1 } (some pd) := by
  obtain ⟨hlength, hlong, hmagic, hcount⟩ := hfile
  rw [execve_some hlength hlong]
  rw [if_neg (not_not_intro hmagic)]
  exact bind_eq_ok.mpr ⟨m, hinit, bind_eq_ok.mpr ⟨_, (loadPhdrs_eq_loadAll hphs hcount _).trans hload, rfl⟩⟩

/-- A page that is mapped outside the sections is not freed. -/
theorem Building.not_mem_freePgdir {m₀ m : Paging} {img : Image} {sections : List Section} {va p : UInt64}
    (h : Building m₀ m img) (hp : pageAt m va = some p) (hswap : ∀ sec ∈ sections, sec.flags &&& stSwap = 0)
    (hout : ∀ sec ∈ sections, ∀ va' ∈ sec.pages, vpn va' ≠ vpn va) : p ∉ freePgdir m sections := by
  have hroot : walk m 0 0 = some m.pt := if_neg h.space.wf.root
  unfold freePgdir
  rw [if_pos h.space.wf.root, mem_append, not_or]
  constructor
  · rintro hin
    obtain ⟨sec, hsec, hin⟩ := mem_flatMap.mp hin
    rw [sectionPages_eq h.low (hswap sec hsec)] at hin
    obtain ⟨va', hva', hp'⟩ := mem_filterMap.mp hin
    exact hout sec hsec va' hva' (h.distinct va' va p hp' hp)
  · intro hin
    obtain ⟨va', k, -, hk, -, hwalk⟩ := (mem_traverseFree h.clean (by omega) hroot p).mp hin
    exact h.space.notTable va p hp va' k hk hwalk

/-- Two segments of text, and then one that is refused. -/
def twiceElf : List UInt8 :=
  elfHeader 3 ++ elfPhdr 5 0 0x400000 16 16 ++ elfPhdr 5 0 0x500000 16 16 ++ elfPhdr 4 0 0x600000 16 16

theorem phdrs_twiceElf : phdrs twiceElf = [⟨⟨1, true, false, true, 0, 0x400000, 16⟩, 16⟩,
    ⟨⟨1, true, false, true, 0, 0x500000, 16⟩, 16⟩, ⟨⟨1, true, false, false, 0, 0x600000, 16⟩, 16⟩] := by decide +kernel

/-- The section has the second segment only, and the first is not freed. -/
theorem twiceElf_loses : ∃ s' p, execve (some twiceElf) none someState = .ok (-1, s') ∧ p ∈ someState.free ∧ p ∉ s'.free := by
  have hlength : twiceElf.length < 2 ^ 32 := by decide +kernel
  have hview : ((paging (initPgdir { pt := 0, word := someState.word, free := someState.free })).toOption.bind fun m =>
      (loadAll twiceElf [⟨⟨1, true, false, true, 0, 0x400000, 16⟩, 16⟩, ⟨⟨1, true, false, true, 0, 0x500000, 16⟩, 16⟩,
        ⟨⟨1, true, false, false, 0, 0x600000, 16⟩, 16⟩] { m := m, sections := fileSections }).toOption.map fun r =>
          (r.1, r.2.sections, pageAt r.2.m 0x400000)) =
      some (false, [⟨stData, 0, 0⟩, ⟨stText, 0x500000, 0x501000⟩], some 18446462599789744128) := by decide +kernel
  obtain ⟨m, hinit, hview⟩ := bind_eq_some_iff.mp hview
  obtain ⟨⟨ok, pd⟩, hload, hpd⟩ := map_eq_some_iff.mp hview
  rw [Prog.toOption_eq_some] at hinit hload
  simp only [Prod.mk.injEq] at hpd
  obtain ⟨rfl, hsections, hpage⟩ := hpd
  have hexec := execve_refuses phdrs_twiceElf (by decide +kernel) hinit hload none
  rw [← loadPhdrs_eq_loadAll phdrs_twiceElf (by decide +kernel)] at hload
  have hplaced : ∀ ph ∈ phdrs twiceElf, ph.loads → ph.Placed := by
    rw [phdrs_twiceElf]
    intro ph hph _
    simp only [mem_cons, not_mem_nil, or_false] at hph
    rcases hph with rfl | rfl | rfl
    · exact ⟨le_rfl, by decide⟩
    · exact ⟨le_rfl, by decide⟩
    · exact ⟨by decide, by decide⟩
  obtain ⟨hbuild, -⟩ := initPgdir_building junkMemory_freePages (paging_eq_ok.mp hinit)
  obtain ⟨L, hholds⟩ := loadPhdrs_built (L := emptyLayout) ⟨hbuild, rfl⟩ hlength hplaced hload
  have hlost : 18446462599789744128 ∉ freePgdir pd.m pd.sections := by
    refine hholds.building.not_mem_freePgdir hpage ?_ ?_
    · rw [hsections]
      exact forall_mem_cons.mpr ⟨by decide, forall_mem_singleton.mpr (by decide)⟩
    · rw [hsections]
      refine forall_mem_cons.mpr ⟨fun va hva => (nomatch hva), forall_mem_singleton.mpr fun va hva => ?_⟩
      obtain rfl := mem_singleton.mp hva
      decide
  refine ⟨_, 18446462599789744128, hexec, hholds.building.uses _ (Or.inr ⟨_, hpage⟩), fun hin => ?_⟩
  rcases mem_foldl_kfreePage hin with hin | hin
  · exact hlost hin
  · exact hholds.building.space.notFree _ _ hpage hin

end Armv8Os.Execve
