/-
  What a program finds in its memory when `execve` has succeeded.

  1. **Crux** — the new space is built beside the old one, then the old one is freed, the new one is COPIED section by section
     into a third, and freed.  The copy has the pages in the sections, with their bytes, and nothing else (`install_spec`).

  2. **Result** — `execve_space`: the image of the headers with the stack, as far as it is in the sections.

  3. **Segments** — every segment is there, if there is at most one of each class.  A second one of a class takes the range of
     the first out of the section, and the first is not copied.

  4. **Residues** — the bytes of a page that nothing has written are those of its last user.  There are none if the segments
     begin at a page, and those of text also end there.
-/
import Armv8Os.Kernel.ExecClean
import Armv8Os.Kernel.ExecStack

namespace Armv8Os.Execve

open Mmu Words Pt List

/-! ## The old space, the new one and the copy -/

/-- The address space of the process. -/
def State.space (s : State) : Paging where
  pt := s.pt
  word := s.word
  free := s.free

/-- The address space of the process can be taken down: its pages are not free, and no reference is given back more often than it
was taken. -/
structure State.Sound (s : State) : Prop where
  free : FreePages s.free
  space : s.pt ≠ 0 → UserSpace s.space
  clean : s.pt ≠ 0 → Clean s.space
  low : ∀ va, seen s.space va &&& kspaceMask = 0
  counted : ∀ p, (freePgdir s.space s.sections).count p ≤ s.extra p + 1

theorem walk_null {m : Paging} (h : m.pt = 0) (va : UInt64) : walk m va 3 = none := by
  rw [walk_succ, walk_succ, walk_succ, show walk m va 0 = none from if_pos h, Option.bind_none, Option.bind_none,
    Option.bind_none]

theorem freePgdir_null {m : Paging} (h : m.pt = 0) (sections : List Section) : freePgdir m sections = [] := by
  have hnil : ∀ sec, sectionPages m sec = [] := by
    intro sec
    unfold sectionPages
    split
    · rfl
    · refine filterMap_eq_nil_iff.mpr fun va _ => ?_
      rw [getPte_false, walk_null h]
  unfold freePgdir
  rw [if_neg (not_not.mpr h), append_nil, flatMap_congr fun sec _ => hnil sec]
  exact flatMap_eq_nil_iff.mpr fun _ _ => rfl

/-- A process without an address space. -/
theorem State.sound_of_null {s : State} (hpt : s.pt = 0) (hfree : FreePages s.free) : s.Sound where
  free := hfree
  space h := absurd hpt h
  clean h := absurd hpt h
  low va := by
    rw [seen_none (walk_null (m := s.space) hpt va), UInt64.zero_and]
  counted p := by
    rw [freePgdir_null (m := s.space) hpt, count_nil]
    exact Nat.zero_le _

theorem kernelPage_of_uses {m : Paging} {p : UInt64} (h : Wf m) (hp : Uses m p) : KernelPage p := by
  rcases hp with ⟨va, k, hk, hwalk⟩ | ⟨va, hpage⟩
  · exact (h.table k hk va p hwalk).1
  · exact kernelPage_of_follow hpage

section Install

variable {s s' : State} {pd : Pgdir} {img : Image}

/-- The old space is freed: its pages were not free before. -/
theorem State.Sound.freeOld (hs : s.Sound) (h : Building { pt := 0, word := s.word, free := s.free } pd.m img) :
    ∃ freed extra, freeSpace { s with word := pd.m.word, free := pd.m.free } s.pt s.sections =
        { s with word := pd.m.word, free := freed ++ pd.m.free, extra := extra } ∧
      FreePages (freed ++ pd.m.free) ∧ ∀ p ∈ freed, p ∉ s.free := by
  have hlist : ∀ m : Paging, m.pt = s.pt → m.word = pd.m.word → freePgdir m s.sections = freePgdir s.space s.sections := by
    intro m hpt hword
    by_cases hnull : s.pt = 0
    · rw [freePgdir_null (hpt.trans hnull), freePgdir_null (m := s.space) hnull]
    · refine SameTables.freePgdir ⟨hpt, fun va k hk t ht a ha => ?_⟩ (hs.space hnull).wf (hs.clean hnull) _
      rw [hword]
      exact h.word a (ha ▸ ((hs.space hnull).wf.table k hk va t ht).2)
  have huses : ∀ p ∈ freePgdir s.space s.sections, KernelPage p ∧ p ∉ s.free := by
    intro p hp
    by_cases hnull : s.pt = 0
    · rw [freePgdir_null (m := s.space) hnull] at hp
      cases hp
    · have hused := uses_of_mem_freePgdir (hs.space hnull) (hs.clean hnull) hs.low hp
      exact ⟨kernelPage_of_uses (hs.space hnull).wf hused, (hs.space hnull).not_free hused⟩
  obtain ⟨freed, hfold, hnodup, hmem⟩ := foldl_kfreePage (freePgdir s.space s.sections)
    { s with word := pd.m.word, free := pd.m.free } hs.counted
  have hfreed : ∀ p ∈ freed, p ∈ freePgdir s.space s.sections := by
    intro p hp
    have := (hmem p).mp hp
    exact count_pos_iff.mp (by omega)
  refine ⟨freed, fun p => s.extra p - (freePgdir s.space s.sections).count p, ?_, ⟨nodup_append.mpr ⟨hnodup, h.space.wf.free.once, ?_⟩, fun p hp => ?_⟩, fun p hp => ?_⟩
  · exact (congrArg (foldl kfreePage _) (hlist ⟨s.pt, pd.m.word, pd.m.free⟩ rfl rfl)).trans hfold
  · rintro p hp q hq rfl
    exact (huses p (hfreed p hp)).2 (h.free_subset hq)
  · rcases mem_append.mp hp with hin | hin
    · exact (huses p (hfreed p hin)).1
    · exact h.space.wf.free.page p hin
  · exact (huses p (hfreed p hp)).2

theorem initPgdir_pt (m : Paging) (pt : UInt64) : initPgdir { m with pt := pt } = initPgdir m := by
  unfold initPgdir newTable
  cases m.free with
  | nil => rfl
  | cons p free => rfl

/-- The pages in the sections, and no others, are mapped at the end, and none of the pages in use is free. -/
structure Installed (pd : Pgdir) (s : State) : Prop where
  copied : ∀ va, (∃ sec ∈ pd.sections, ∃ va' ∈ sec.pages, vpn va' = vpn va) → loadByte s.space va = loadByte pd.m va
  only : ∀ va, (¬ ∃ sec ∈ pd.sections, ∃ va' ∈ sec.pages, vpn va' = vpn va) → loadByte s.space va = none
  kept : ∀ p, Uses s.space p → p ∉ s.free

theorem Installed.regs (h : Installed pd s) (elr spEl0 : UInt64) : Installed pd { s with elr := elr, spEl0 := spEl0 } :=
  ⟨h.copied, h.only, h.kept⟩

/-- The new space, in the memory with the old one free. -/
theorem Building.freed {m₀ : Paging} {freed : List UInt64} (h : Building m₀ pd.m img) (hpages : FreePages (freed ++ pd.m.free))
    (hfreed : ∀ p ∈ freed, p ∉ m₀.free) (hbacked : ∀ sec ∈ pd.sections, ∀ va ∈ sec.pages, (img (vpn va)).isSome) :
    UserSpace { pd.m with free := freed ++ pd.m.free } ∧
      ∀ sec ∈ pd.sections, ∀ va ∈ sec.pages, (pageAt { pd.m with free := freed ++ pd.m.free } va).isSome := by
  have hsame : SameTables pd.m { pd.m with free := freed ++ pd.m.free } := ⟨rfl, fun _ _ _ _ _ _ _ => rfl⟩
  refine ⟨h.space.refree hsame hpages fun p hp hin => ?_, fun sec hsec va hva => ?_⟩
  · rcases mem_append.mp hin with hin | hin
    · exact hfreed p hin (h.uses p hp)
    · exact h.space.not_free hp hin
  · rw [hsame.pageAt h.space.wf, h.mapped]
    exact hbacked sec hsec va hva

theorem install_spec (hs : s.Sound) (h : Building { pt := 0, word := s.word, free := s.free } pd.m img)
    (hbacked : ∀ sec ∈ pd.sections, ∀ va ∈ sec.pages, (img (vpn va)).isSome) (hinstall : install s pd = .ok s') :
    Installed pd s' := by
  obtain ⟨freed, extra, hfree, hpages, hfreed⟩ := hs.freeOld h
  unfold install at hinstall
  dsimp only at hinstall
  rw [hfree] at hinstall
  obtain ⟨child₀, hinit, hinstall⟩ := bind_eq_ok.mp hinstall
  obtain ⟨⟨child, secs⟩, hcopy, hinstall⟩ := bind_eq_ok.mp hinstall
  obtain rfl := Except.ok.inj hinstall
  obtain ⟨hsame, hold⟩ : SameTables pd.m { pd.m with free := freed ++ pd.m.free } ∧
      ∀ va, loadByte { pd.m with free := freed ++ pd.m.free } va = loadByte pd.m va := h.space.frame rfl fun _ _ => rfl
  obtain ⟨hparent, hmapped⟩ := h.freed hpages hfreed hbacked
  have hinit' : initPgdir { pd.m with free := freed ++ pd.m.free } = .ok child₀ :=
    (initPgdir_pt { pd.m with free := freed ++ pd.m.free } 0).symm.trans (paging_eq_ok.mp hinit)
  obtain ⟨hcopying, -⟩ := copyPgdir_copying (initPgdir_copying hparent hinit') hparent hmapped (paging_eq_ok.mp hcopy)
  -- freeing the new space changes neither words nor the root
  obtain ⟨_, _, hlast⟩ := foldl_kfreePage_frame (freePgdir { pt := pd.m.pt, word := child.word, free := child.free } pd.sections)
    { s with word := child.word, free := child.free, extra := extra, pt := child.pt, sections := secs }
  have hview : ∀ s' : State, s'.word = child.word → s'.pt = child.pt →
      SameTables child s'.space ∧ ∀ va, loadByte s'.space va = loadByte child va :=
    fun s' hword hpt => hcopying.space.frame hpt fun a _ => congrFun hword a
  obtain ⟨hchild, hbytes⟩ := hview _ (congrArg State.word hlast) (congrArg State.pt hlast)
  constructor
  case copied =>
    intro va hva
    exact (hbytes va).trans ((hcopying.copied va (Or.inr hva)).2.trans (hold va))
  case only =>
    intro va hva
    refine (hbytes va).trans ?_
    unfold loadByte
    rw [hcopying.only va (not_or.mpr ⟨Set.notMem_empty _, hva⟩)]
    rfl
  case kept =>
    intro p hp hin
    have hused := (hchild.uses hcopying.space.wf p).mp hp
    rcases mem_foldl_kfreePage hin with hin | hin
    · obtain ⟨htables, -⟩ := hcopying.parent hparent
      have hclean := hsame.clean h.space.wf h.clean
      have hlow : ∀ va, seen { pd.m with free := freed ++ pd.m.free } va &&& kspaceMask = 0 := by
        intro va
        rw [hsame.seen h.space.wf]
        exact h.low va
      have hin' : p ∈ freePgdir { pd.m with free := freed ++ pd.m.free } pd.sections :=
        htables.freePgdir hparent.wf hclean pd.sections ▸ hin
      exact hparent.not_free (uses_of_mem_freePgdir hparent hclean hlow hin') (hcopying.uses p hused)
    · exact hcopying.space.not_free hused hin

end Install

/-! ## The result -/

/-- The sections lie over mapped pages. -/
structure Layout.Backed (L : Layout) : Prop where
  data : Aligned L.data
  text : Aligned L.text
  mapped : ∀ n, InRange L.data n ∨ InRange L.text n → (L.img n).isSome

theorem emptyLayout_backed : emptyLayout.Backed where
  data := emptyLayout_tidy.data
  text := emptyLayout_tidy.text
  mapped n h := (h.elim (not_inRange_empty n) (not_inRange_empty n)).elim

section Result

variable {file : List UInt8} {L : Layout} {ph : Phdr}

/-- The range that a header gives to its section. -/
def Phdr.range (ph : Phdr) : UInt64 × UInt64 := (pageBase ph.vaddr, pageUp (ph.vaddr + ph.size))

theorem Phdr.Placed.range (h : ph.Placed) : Aligned ph.range ∧ ∀ n, InRange ph.range n ↔ ph.first ≤ n ∧ n < ph.last := by
  obtain ⟨hbase, hup⟩ := segment_range h.small
  have hsmall := h.small
  refine ⟨⟨?_, ?_, ?_⟩, fun n => ?_⟩
  · show (pageBase ph.vaddr).toNat % 4096 = 0
    omega
  · show (pageUp (ph.vaddr + ph.size)).toNat % 4096 = 0
    omega
  · show (pageUp (ph.vaddr + ph.size)).toNat ≤ 2 ^ 48
    omega
  · unfold InRange Phdr.range Phdr.first Phdr.last
    rw [hbase, hup]
    omega

theorem Phdr.apply_backed (h : L.Backed) (hplaced : ph.loads → ph.Placed) : (ph.apply file L).Backed := by
  unfold Phdr.apply
  split
  next hloads =>
    obtain ⟨haligned, hrange⟩ := (hplaced hloads).range
    -- pages are added, and none is taken away
    have hcover : ∀ n, InRange ph.range n ∨ (L.img n).isSome → (L.img.cover ph.first ph.last (ph.byte file) n).isSome := by
      intro n hn
      unfold Image.cover
      split
      · rfl
      next hout => exact hn.resolve_left fun hin => hout ((hrange n).mp hin)
    unfold Layout.place
    split
    next => exact ⟨h.data, haligned, fun n hn => hcover n (hn.symm.imp_right fun hin => h.mapped n (Or.inl hin))⟩
    next => exact ⟨haligned, h.text, fun n hn => hcover n (hn.imp_right fun hin => h.mapped n (Or.inr hin))⟩
  next => exact h

theorem foldl_apply_backed (file : List UInt8) {phs : List Phdr} (h : L.Backed) (hplaced : ∀ ph ∈ phs, ph.loads → ph.Placed) :
    (phs.foldl (Phdr.apply file) L).Backed := by
  induction phs generalizing L with
  | nil => exact h
  | cons ph phs ih =>
    obtain ⟨hph, hphs⟩ := forall_mem_cons.mp hplaced
    exact ih (Phdr.apply_backed h hph) hphs

/-- The pages that are copied. -/
def Layout.Kept (L : Layout) (n : Nat) : Prop := n = stackPage ∨ InRange L.data n ∨ InRange L.text n

instance (L : Layout) (n : Nat) : Decidable (L.Kept n) := inferInstanceAs (Decidable (_ ∨ (_ ∧ _) ∨ _ ∧ _))

theorem kept_iff (hdata : Aligned L.data) (htext : Aligned L.text) (n : Nat) :
    (∃ sec ∈ (⟨0, Exec.stackBase, Exec.stackBase + pageSize⟩ :: L.sections : List Section), ∃ va ∈ sec.pages, vpn va = n) ↔
      L.Kept n := by
  have hrange : ∀ flags r, Aligned r → ((∃ va ∈ Section.pages ⟨flags, r.1, r.2⟩, vpn va = n) ↔ InRange r n) := by
    intro flags r hr
    constructor
    · rintro ⟨va, hva, rfl⟩
      exact (vpn_pagesFrom hr.begin hr.stop hr.small hva).2
    · exact fun hin => exists_pagesFrom hr.begin hr.stop hr.small hin.1 hin.2
  have hstack : (∃ va ∈ Section.pages ⟨0, Exec.stackBase, Exec.stackBase + pageSize⟩, vpn va = n) ↔ n = stackPage := by
    rw [show Section.pages ⟨0, Exec.stackBase, Exec.stackBase + pageSize⟩ = [Exec.stackBase] from by decide]
    simp only [mem_singleton, exists_eq_left, vpn_stackBase]
    exact eq_comm
  unfold Layout.sections Layout.Kept
  simp only [exists_mem_cons_iff, not_mem_nil, false_and, exists_false, or_false]
  rw [hstack, hrange _ _ hdata, hrange _ _ htext]

theorem stackImage_isSome {argv : List (List UInt8)} {n : Nat} (h : L.Backed) (hn : L.Kept n) :
    (stackImage argv L.img n).isSome := by
  by_cases hstack : n = stackPage
  · obtain ⟨f, hf, -⟩ := stackImage_known argv L.img
    rw [hstack, hf]
    rfl
  · rw [stackImage_ne argv L.img hstack]
    exact h.mapped n (hn.resolve_left hstack)

end Result

/-- A file that is executed has an ELF header. -/
theorem execve_header {file : List UInt8} {argv : Option (List (List UInt8))} {s s' : State} {r : Int}
    (hfile : file.length < 2 ^ 32) (hexec : execve (some file) argv s = .ok (r, s')) : Exec.ehdrSize ≤ file.length := by
  obtain ⟨⟨n, elf⟩, hread, hexec⟩ := bind_eq_ok.mp hexec
  obtain ⟨-, hn, -, -⟩ := inodeRead_ok hfile hread
  change (if n ≠ _ then _ else _) = _ at hexec
  by_cases hfull : n = UInt64.ofNat Exec.ehdrSize
  · rw [hfull] at hn
    change 64 = min 64 _ at hn
    show 64 ≤ file.length
    omega
  · rw [if_pos hfull] at hexec
    cases hexec

/-- A space that shows a layout, with the stack for `argv`. -/
structure Shows (L : Layout) (argv : List (List UInt8)) (s : State) : Prop where
  unmapped : ∀ va, ¬ L.Kept (vpn va) → loadByte s.space va = none
  byte : ∀ va f b, L.Kept (vpn va) → stackImage argv L.img (vpn va) = some f → f (va.toNat % 4096) = some b →
    loadByte s.space va = some b
  kept : ∀ p, Uses s.space p → p ∉ s.free

/-- What all headers together make. -/
def layoutOf (file : List UInt8) : Layout := (phdrs file).foldl (Phdr.apply file) emptyLayout

section Execve

variable {file : List UInt8} {argv : Option (List (List UInt8))} {s s' : State} {r : Int}

/-- What has happened when `execve` returns a number of arguments. -/
theorem execve_inv (hfile : file.length < 2 ^ 32) (hexec : execve (some file) argv s = .ok (r, s')) (hr : 0 ≤ r) :
    ∃ m pd a pd' s₂, paging (initPgdir { pt := 0, word := s.word, free := s.free }) = .ok m ∧
      loadPhdrs file (Exec.field (file.take Exec.ehdrSize) 56 2) (Exec.field (file.take Exec.ehdrSize) 32 8)
        { m := m, sections := fileSections } = .ok (true, pd) ∧
      buildStack argv pd = .ok (true, a, pd') ∧
      install (giveBack { s with begun := s.begun + 1, rc := s.rc + 1, locked := s.locked + 1 }) pd' = .ok s₂ ∧
      ∃ elr spEl0, s' = { s₂ with elr := elr, spEl0 := spEl0 } := by
  rw [execve_some hfile (execve_header hfile hexec)] at hexec
  dsimp only at hexec
  have hbad : ∀ s : State, Except.ok (-1, s) ≠ (.ok (r, s') : Except Stop (Int × State)) := by
    intro s heq
    have := (Prod.mk.inj (Except.ok.inj heq)).1
    omega
  split at hexec
  next => exact absurd hexec (hbad _)
  next =>
    obtain ⟨m, hinit, hexec⟩ := bind_eq_ok.mp hexec
    obtain ⟨⟨ok, pd⟩, hload, hexec⟩ := bind_eq_ok.mp hexec
    cases ok with
    | false => exact absurd hexec (hbad _)
    | true =>
      obtain ⟨⟨ok, a, pd'⟩, hstack, hexec⟩ := bind_eq_ok.mp hexec
      cases ok with
      | false => exact absurd hexec (hbad _)
      | true =>
        obtain ⟨s₂, hinstall, hlast⟩ := bind_eq_ok.mp hexec
        exact ⟨m, pd, a, pd', s₂, hinit, hload, hstack, hinstall, _, _, (Prod.mk.inj (Except.ok.inj hlast)).2.symm⟩

section

variable (hs : s.Sound) (hfile : file.length < 2 ^ 32) (hplaced : ∀ ph ∈ phdrs file, ph.loads → ph.Placed)
  (hexec : execve (some file) argv s = .ok (r, s')) (hr : 0 ≤ r)
include hs hfile hplaced hexec hr

/-- The space that is built, and the one that is left. -/
theorem execve_installs (hshort : ShortArgs (argv.getD [])) :
    ∃ m pd a pd', paging (initPgdir { pt := 0, word := s.word, free := s.free }) = .ok m ∧
      loadPhdrs file (Exec.field (file.take Exec.ehdrSize) 56 2) (Exec.field (file.take Exec.ehdrSize) 32 8)
        { m := m, sections := fileSections } = .ok (true, pd) ∧
      buildStack argv pd = .ok (true, a, pd') ∧
      Building { pt := 0, word := s.word, free := s.free } pd'.m (stackImage (argv.getD []) (layoutOf file).img) ∧
      (∀ n, (∃ sec ∈ pd'.sections, ∃ va ∈ sec.pages, vpn va = n) ↔ (layoutOf file).Kept n) ∧ Installed pd' s' := by
  obtain ⟨m, pd, a, pd', s₂, hinit, hload, hstack, hinstall, elr, spEl0, rfl⟩ := execve_inv hfile hexec hr
  obtain ⟨hbuild, -⟩ := initPgdir_building hs.free (paging_eq_ok.mp hinit)
  obtain ⟨hholds, -⟩ := loadPhdrs_holds (L := emptyLayout) ⟨hbuild, rfl⟩ hfile hplaced hload
  obtain ⟨hbuild', hsections⟩ := buildStack_spec hholds.building hshort hstack
  have hbacked := foldl_apply_backed file emptyLayout_backed hplaced
  rw [hholds.sections] at hsections
  have hkept := fun n => hsections ▸ kept_iff hbacked.data hbacked.text n
  have hmapped : ∀ sec ∈ pd'.sections, ∀ va ∈ sec.pages, (stackImage (argv.getD []) (layoutOf file).img (vpn va)).isSome :=
    fun sec hsec va hva => stackImage_isSome hbacked ((hkept _).mp ⟨sec, hsec, va, hva, rfl⟩)
  have hsound : (giveBack { s with begun := s.begun + 1, rc := s.rc + 1, locked := s.locked + 1 }).Sound :=
    ⟨hs.free, hs.space, hs.clean, hs.low, hs.counted⟩
  exact ⟨m, pd, a, pd', hinit, hload, hstack, hbuild', hkept, (install_spec hsound hbuild' hmapped hinstall).regs elr spEl0⟩

theorem execve_shows (hshort : ShortArgs (argv.getD [])) : Shows (layoutOf file) (argv.getD []) s' := by
  obtain ⟨m, pd, a, pd', -, -, -, hbuild, hkept, hcopied, honly, hfree⟩ := execve_installs hs hfile hplaced hexec hr hshort
  refine ⟨fun va hva => honly va (mt (hkept _).mp hva), fun va f b hva hf hb => ?_, hfree⟩
  exact (hcopied va ((hkept _).mpr hva)).trans (hbuild.bytes va f b hf hb)

/-- All `PT_LOAD` headers have been loaded, from inside the file. -/
theorem execve_readable :
    ∀ ph ∈ phdrs file, ph.type = Exec.ptLoad →
      ph.loads ∧ (0 < ph.filesz.toNat → ph.offset.toNat + ph.filesz.toNat ≤ file.length) := by
  obtain ⟨m, pd, -, -, -, hinit, hload, -⟩ := execve_inv hfile hexec hr
  obtain ⟨hbuild, -⟩ := initPgdir_building hs.free (paging_eq_ok.mp hinit)
  exact (loadPhdrs_holds (L := emptyLayout) ⟨hbuild, rfl⟩ hfile hplaced hload).2

end

end Execve

end Armv8Os.Execve
