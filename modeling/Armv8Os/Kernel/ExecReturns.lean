/-
  `execve` that succeeds: what it needs.

  Each page that is mapped takes a page and three tables at most, so that a count of free pages is enough for all loops:
  `Room` says how much has gone so far.  Reads are complete if the segments lie inside the file, and the arguments go onto
  the stack if `Exec.fitArgs` says so.
-/
import Armv8Os.Kernel.ExecImage

namespace Armv8Os.Execve

open Mmu Words Pt List

/-! ## Segments -/

section Segment

variable {m₀ m : Paging} {img : Image} {file : List UInt8} {va offset sz flags p : UInt64} {pd : Pgdir} {secs : List Section}

theorem loadPage_returns (flags : UInt64) (h : UserSpace m) (hfile : file.length < 2 ^ 32) (hsmall : va.toNat + sz.toNat ≤ 2 ^ 48)
    (hread : offset.toNat + sz.toNat ≤ file.length) (hp : p ∈ pagesFrom (pageBase va) (pageUp (va + sz)))
    (hroom : 4 ≤ m.free.length) :
    ∃ m', loadPage file va offset sz flags m p = .ok (true, m') ∧ m.free.length ≤ m'.free.length + 4 := by
  obtain ⟨⟨fileOff, pageOff, n⟩, hpart⟩ : ∃ part, filePart va sz p = part := ⟨_, rfl⟩
  obtain ⟨hfileOff, -, hn, hbefore, hafter, -⟩ := filePart_eq (by omega) hp hpart
  cases hm : m.free with
  | nil =>
    rw [hm] at hroom
    exact absurd hroom (by decide)
  | cons ka free =>
    obtain ⟨m', hmap, hle⟩ := h.vmmap_returns hm (fun _ _ => rfl) hroom p flags
    have hsum : (offset + fileOff).toNat = offset.toNat + fileOff.toNat := by
      rw [UInt64.toNat_add]
      omega
    obtain ⟨bytes, hfull⟩ : ∃ bytes, inodeRead file (offset + fileOff) n = .ok (n, bytes) :=
      ⟨_, inodeRead_inside hfile (by omega)⟩
    unfold loadPage
    rw [hpart, ← hm]
    refine ⟨{ m' with word := blit m'.word (ka + pageOff) bytes.length fun i => bytes.getD i 0 },
      bind_eq_ok.mpr ⟨_, paging_eq_ok.mpr (allocPageForUser_cons hm), bind_eq_ok.mpr ⟨m', paging_eq_ok.mpr hmap,
        bind_eq_ok.mpr ⟨_, hfull, ?_⟩⟩⟩, hle⟩
    dsimp only
    rw [beq_self_eq_true]

theorem loadPages_returns {ps : List UInt64} (h : Building m₀ m img) (hfile : file.length < 2 ^ 32)
    (hsmall : va.toNat + sz.toNat ≤ 2 ^ 48) (hread : offset.toNat + sz.toNat ≤ file.length)
    (hps : ∀ p ∈ ps, p ∈ pagesFrom (pageBase va) (pageUp (va + sz))) (hflags : flags &&& addressMask = 0) (hvalid : isValid flags)
    (hlow : flags &&& kspaceMask = 0) (hroom : 4 * ps.length ≤ m.free.length) :
    ∃ m', loadPages file va offset sz flags ps m = .ok (true, m') ∧ m.free.length ≤ m'.free.length + 4 * ps.length := by
  induction ps generalizing m img with
  | nil => exact ⟨m, rfl, le_rfl⟩
  | cons p ps ih =>
    obtain ⟨hp, hps⟩ := forall_mem_cons.mp hps
    rw [length_cons] at hroom ⊢
    obtain ⟨m₁, hone, hle⟩ := loadPage_returns flags h.space hfile hsmall hread hp (by omega)
    obtain ⟨f, hbuild, -, -⟩ := loadPage_building h hfile hsmall hflags hvalid hlow hp hone
    obtain ⟨m', hrest, hle'⟩ := ih hbuild hps (by omega)
    exact ⟨m', bind_eq_ok.mpr ⟨_, hone, hrest⟩, by omega⟩

theorem length_segment (hsmall : va.toNat + sz.toNat ≤ 2 ^ 48) : (pagesFrom (pageBase va) (pageUp (va + sz))).length =
    (va.toNat + sz.toNat + 4095) / 4096 - va.toNat / 4096 := by
  obtain ⟨hbase, hup⟩ := segment_range hsmall
  unfold pagesFrom Section.pages
  rw [length_map, length_range]
  dsimp only
  omega

theorem loadSeg_returns (h : Building m₀ pd.m img) (hfile : file.length < 2 ^ 32) (hsmall : va.toNat + sz.toNat ≤ 2 ^ 48)
    (hread : offset.toNat + sz.toNat ≤ file.length)
    (hset : setSection flags (fun sec => { sec with begin := pageBase va, stop := pageUp (va + sz) }) pd.sections = some secs)
    (hroom : 4 * ((va.toNat + sz.toNat + 4095) / 4096 - va.toNat / 4096) ≤ pd.m.free.length) :
    ∃ pd', loadSeg pd va file offset sz flags = .ok (true, pd') ∧
      pd.m.free.length ≤ pd'.m.free.length + 4 * ((va.toNat + sz.toNat + 4095) / 4096 - va.toNat / 4096) := by
  have hlength := length_segment hsmall
  obtain ⟨haddress, hvalid, hlow⟩ := loadSeg_flags flags
  obtain ⟨m', hpages, hle⟩ := loadPages_returns h hfile hsmall hread (fun _ hp => hp) haddress hvalid hlow (by rw [hlength]; exact hroom)
  rw [hlength] at hle
  refine ⟨{ m := m', sections := secs }, ?_, hle⟩
  unfold loadSeg
  dsimp only
  rw [hset]
  exact bind_eq_ok.mpr ⟨_, hpages, rfl⟩

/-- `get_pte` finds a page that is mapped. -/
theorem getPte_of_mapped (h : (pageAt m va).isSome) : ∃ pte, getPte m va false = .ok (pte, m) := by
  cases hwalk : walk m va 3 with
  | none =>
    unfold pageAt at h
    rw [seen_none hwalk, follow_zero] at h
    cases h
  | some t => exact ⟨_, by rw [getPte_false, hwalk]⟩

theorem bssPage_returns (h : Building m₀ m img) (hshared : p < va → (img (vpn p)).isSome) (hroom : 4 ≤ m.free.length) :
    ∃ m', bssPage va m p = .ok m' ∧ m.free.length ≤ m'.free.length + 4 := by
  unfold bssPage
  split
  next hlt =>
    obtain ⟨pte, hget⟩ := getPte_of_mapped ((h.mapped p).trans (hshared hlt))
    exact ⟨_, bind_eq_ok.mpr ⟨_, paging_eq_ok.mpr hget, rfl⟩, Nat.le_add_right _ _⟩
  next =>
    cases hm : m.free with
    | nil =>
      rw [hm] at hroom
      exact absurd hroom (by decide)
    | cons ka free =>
      obtain ⟨m', hmap, hle⟩ := h.space.vmmap_returns hm (fun _ _ => rfl) hroom p pteUserData
      rw [← hm]
      exact ⟨_, bind_eq_ok.mpr ⟨_, paging_eq_ok.mpr (allocPageForUser_cons hm), bind_eq_ok.mpr ⟨m', paging_eq_ok.mpr hmap, rfl⟩⟩, hle⟩

theorem bssPages_returns {ps : List UInt64} (h : Building m₀ m img) (hnear : ∀ p ∈ ps, va.toNat < p.toNat + 4096)
    (hnodup : (ps.map vpn).Nodup) (hshared : ∀ p ∈ ps, p < va → (img (vpn p)).isSome) (hroom : 4 * ps.length ≤ m.free.length) :
    ∃ m', ps.foldlM (bssPage va) m = .ok m' ∧ m.free.length ≤ m'.free.length + 4 * ps.length := by
  induction ps generalizing m img with
  | nil => exact ⟨m, rfl, le_rfl⟩
  | cons p ps ih =>
    obtain ⟨hp, hps⟩ := forall_mem_cons.mp hnear
    obtain ⟨hpshared, hsharedRest⟩ := forall_mem_cons.mp hshared
    rw [map_cons, nodup_cons] at hnodup
    obtain ⟨hnot, hnodup⟩ := hnodup
    rw [length_cons] at hroom ⊢
    obtain ⟨m₁, hone, hle⟩ := bssPage_returns h hpshared (by omega)
    obtain ⟨f, hbuild, -, -⟩ := bssPage_building h hp hpshared hone
    have hold : ∀ q ∈ ps, q < va → (Function.update img (vpn p) (some f) (vpn q)).isSome := by
      intro q hq hlt
      have hne : vpn q ≠ vpn p := fun heq => hnot (heq ▸ mem_map_of_mem hq)
      rw [Function.update_of_ne hne]
      exact hsharedRest q hq hlt
    obtain ⟨m', hrest, hle'⟩ := ih hbuild hps hnodup hold (by omega)
    exact ⟨m', by rw [foldlM_cons]; exact bind_eq_ok.mpr ⟨m₁, hone, hrest⟩, by omega⟩

theorem fillBss_returns (h : Building m₀ pd.m img) (hsmall : va.toNat + sz.toNat ≤ 2 ^ 48)
    (hset : setSection stBss (fun sec => { sec with stop := pageUp (va + sz) }) pd.sections = some secs)
    (hshared : va.toNat % 4096 ≠ 0 → (img (va.toNat / 4096)).isSome)
    (hroom : 4 * ((va.toNat + sz.toNat + 4095) / 4096 - va.toNat / 4096) ≤ pd.m.free.length) :
    ∃ pd', fillBss pd va sz = .ok (true, pd') ∧
      pd.m.free.length ≤ pd'.m.free.length + 4 * ((va.toNat + sz.toNat + 4095) / 4096 - va.toNat / 4096) := by
  have hlength := length_segment hsmall
  have hbss := bss_pages hsmall hshared
  obtain ⟨m', hpages, hle⟩ := bssPages_returns h (fun p hp => (hbss p hp).1) (segment_pages hsmall).1
    (fun p hp => (hbss p hp).2) (by rw [hlength]; exact hroom)
  rw [hlength] at hle
  refine ⟨{ m := m', sections := secs }, ?_, hle⟩
  unfold fillBss
  dsimp only
  rw [hset]
  exact bind_eq_ok.mpr ⟨_, hpages, rfl⟩

end Segment

/-! ## Headers -/

/-- A segment that can be loaded. -/
structure Phdr.Loadable (file : List UInt8) (ph : Phdr) : Prop where
  loads : ph.loads
  placed : ph.Placed
  inside : ph.offset.toNat + ph.filesz.toNat ≤ file.length

instance {file : List UInt8} {ph : Phdr} : Decidable (ph.Loadable file) :=
  decidable_of_iff (ph.loads ∧ (ph.filesz.toNat ≤ ph.size.toNat ∧ ph.vaddr.toNat + ph.size.toNat ≤ 2 ^ 48) ∧
      ph.offset.toNat + ph.filesz.toNat ≤ file.length)
    ⟨fun ⟨hl, ⟨hf, hs⟩, hi⟩ => ⟨hl, ⟨hf, hs⟩, hi⟩, fun ⟨hl, ⟨hf, hs⟩, hi⟩ => ⟨hl, ⟨hf, hs⟩, hi⟩⟩

/-- The pages it may take; the last page of the file's part is counted twice. -/
def Phdr.cost (ph : Phdr) : Nat := 4 * (ph.last - ph.first + 1)

section Header

variable {m₀ : Paging} {pd : Pgdir} {L : Layout} {file : List UInt8} {ph : Phdr}

theorem loadPhdr_returns (h : Holds m₀ pd L) (hfile : file.length < 2 ^ 32) (hph : ph.Loadable file)
    (hroom : ph.cost ≤ pd.m.free.length) :
    ∃ pd', loadPhdr file ph pd = .ok (true, pd') ∧ pd.m.free.length ≤ pd'.m.free.length + ph.cost := by
  obtain ⟨hloads, ⟨hfits, hsmall⟩, hinside⟩ := hph
  unfold Phdr.cost Phdr.last Phdr.first at hroom ⊢
  unfold loadPhdr
  rw [if_neg (not_not.mpr (type_of_loads hloads))]
  by_cases htext : ph.isText
  · have hsize : ph.size = ph.filesz := if_pos htext
    rw [hsize] at hroom hsmall ⊢
    obtain ⟨pd', hload, hle⟩ := loadSeg_returns h.building hfile hsmall hinside (h.setText _ _) (by omega)
    rw [if_pos htext]
    exact ⟨pd', hload, by omega⟩
  · have hdata : ph.isData := (Bool.or_eq_true _ _ ▸ hloads).resolve_left htext
    have hsize : ph.size = ph.memsz := if_neg htext
    rw [hsize] at hroom hsmall hfits ⊢
    have hend : (ph.vaddr + ph.filesz).toNat = ph.vaddr.toNat + ph.filesz.toNat := by
      rw [UInt64.toNat_add]
      omega
    have hrest : (ph.memsz - ph.filesz).toNat = ph.memsz.toNat - ph.filesz.toNat :=
      toNat_diff hfits
    obtain ⟨pd₁, hload, hle⟩ := loadSeg_returns h.building hfile (by omega) hinside
      (h.setData (pageBase ph.vaddr) (pageUp (ph.vaddr + ph.filesz))) (by omega)
    obtain ⟨hsections, img₁, hbuild, -, -, hbytes⟩ := loadSeg_spec h.building hfile (by omega) (h.setData _ _) hload
    have hshared : (ph.vaddr + ph.filesz).toNat % 4096 ≠ 0 → (img₁ ((ph.vaddr + ph.filesz).toNat / 4096)).isSome := by
      intro hne
      rw [hend] at hne ⊢
      obtain ⟨f, hf, -⟩ := (hbytes rfl).2 ((ph.vaddr.toNat + ph.filesz.toNat) / 4096) (by omega) (by omega)
      exact hf ▸ rfl
    obtain ⟨pd', hfill, hle'⟩ := fillBss_returns hbuild (by omega)
      (setSection_bss hsections (pageUp (ph.vaddr + ph.filesz + (ph.memsz - ph.filesz)))) hshared (by omega)
    rw [if_neg htext, if_pos hdata]
    exact ⟨pd', bind_eq_ok.mpr ⟨_, hload, hfill⟩, by omega⟩

theorem loadAll_returns {phs : List Phdr} (h : Holds m₀ pd L) (hfile : file.length < 2 ^ 32)
    (hphs : ∀ ph ∈ phs, ph.type = Exec.ptLoad → ph.Loadable file) (hroom : (phs.map Phdr.cost).sum ≤ pd.m.free.length) :
    ∃ pd', loadAll file phs pd = .ok (true, pd') ∧ pd.m.free.length ≤ pd'.m.free.length + (phs.map Phdr.cost).sum := by
  induction phs generalizing pd L with
  | nil => exact ⟨pd, rfl, le_rfl⟩
  | cons ph phs ih =>
    obtain ⟨hph, hphs⟩ := forall_mem_cons.mp hphs
    rw [map_cons, sum_cons] at hroom ⊢
    have hone : ∃ pd₁, loadPhdr file ph pd = .ok (true, pd₁) ∧ pd.m.free.length ≤ pd₁.m.free.length + ph.cost := by
      by_cases htype : ph.type = Exec.ptLoad
      · exact loadPhdr_returns h hfile (hph htype) (by omega)
      · exact ⟨pd, if_pos htype, Nat.le_add_right _ _⟩
    obtain ⟨pd₁, hload, hle⟩ := hone
    have hplaced : ph.loads → ph.Placed := fun hloads => (hph (type_of_loads hloads)).placed
    obtain ⟨pd', hrest, hle'⟩ := ih (loadPhdr_holds h hfile hplaced hload) hphs (by omega)
    exact ⟨pd', bind_eq_ok.mpr ⟨_, hload, hrest⟩, by omega⟩

end Header

/-! ## The stack -/

section Stack

variable {m₀ m : Paging} {img : Image} {pd : Pgdir} {va : UInt64} {a : Args} {k : Stack} {argv : List (List UInt8)}

theorem createStackSection_returns (va : UInt64) (h : UserSpace pd.m) (hroom : 4 ≤ pd.m.free.length) :
    ∃ pd', createStackSection pd va = .ok pd' ∧ pd.m.free.length ≤ pd'.m.free.length + 4 := by
  cases hm : pd.m.free with
  | nil =>
    rw [hm] at hroom
    exact absurd hroom (by decide)
  | cons ka free =>
    have hpage : KernelPage ka := h.wf.free.page ka (hm ▸ mem_cons_self)
    have hfill : ∀ a, pageBase a ≠ ka → blit pd.m.word ka 4096 (fun _ => 0) a = pd.m.word a := fun a ha => blit_wholePage hpage ha
    obtain ⟨m', hmap, hle⟩ := h.vmmap_returns hm hfill hroom va pteUserData
    rw [← hm]
    exact ⟨⟨m', ⟨0, va, va + pageSize⟩ :: pd.sections⟩, bind_eq_ok.mpr ⟨_, paging_eq_ok.mpr (allocPageForUser_cons hm),
      bind_eq_ok.mpr ⟨m', paging_eq_ok.mpr hmap, rfl⟩⟩, hle⟩

theorem copyout_returns {rounds : Nat} {bytes : List UInt8} (h : Building m₀ m img) (hmapped : (img (vpn va)).isSome)
    (hne : bytes ≠ []) (hlen : va.toNat % 4096 + bytes.length ≤ 4096) :
    ∃ m', copyout (rounds + 1) m va bytes = .ok m' ∧ m'.free = m.free := by
  have hmapped' : (pageAt m (pageBase va)).isSome := by
    rw [h.mapped, vpn_pageBase]
    exact hmapped
  obtain ⟨pte, hget⟩ := getPte_of_mapped hmapped'
  exact ⟨_, copyout_once hne hlen (paging_eq_ok.mpr hget), rfl⟩

/-- `copyout` to the stack. -/
theorem Pushing.copyout_returns {n : UInt64} {bytes : List UInt8} (h : Pushing m₀ a k) (rounds : Nat) (hne : bytes ≠ [])
    (hn : n.toNat = bytes.length) (hsmall : n.toNat ≤ 0x60000000) (hcheck : ¬ Exec.pushDown a.sp n < Exec.stackBase) :
    ∃ m', Execve.copyout (rounds + 1) a.m (Exec.pushDown a.sp n) bytes = .ok m' ∧ m'.free = a.m.free := by
  obtain ⟨hin, hroom, hvpn⟩ := pushDown_spec h.inStack hsmall hcheck
  have hb := hin.bottom
  have htop := h.inStack.top
  exact Execve.copyout_returns h.building (by rw [hvpn]; exact h.mapped) hne (by omega)

/-- The strings go onto the stack. -/
theorem pushArgs_returns (h : Pushing m₀ a k) (hshort : ShortArgs argv)
    (hfits : Exec.pushArgs (argv.map fun str => UInt64.ofNat str.length) a.argc a.sp ≠ none) :
    ∃ a', pushArgs argv a = .ok (true, a') ∧ a'.m.free = a.m.free := by
  induction argv generalizing a k with
  | nil => exact ⟨a, rfl, rfl⟩
  | cons str argv ih =>
    obtain ⟨hstr, hshort⟩ := forall_mem_cons.mp hshort
    rw [List.map_cons, Exec.pushArgs, ← UInt64.ofNat_one, ← UInt64.ofNat_add] at hfits
    have hmany : ¬ Exec.maxArg ≤ a.argc := fun hmany => hfits (if_pos hmany)
    rw [if_neg hmany] at hfits
    have hcheck : ¬ Exec.pushDown a.sp (UInt64.ofNat (str.length + 1)) < Exec.stackBase := fun hlow => hfits (if_pos hlow)
    rw [if_neg hcheck] at hfits
    obtain ⟨hlen, hsmall⟩ := toNat_length_arg hstr
    have hne : str ++ [0] ≠ [] := append_ne_nil_of_right_ne_nil _ (cons_ne_nil _ _)
    obtain ⟨m, hcopy, hfree⟩ := h.copyout_returns str.length hne hlen hsmall hcheck
    obtain ⟨a', hrest, hfree'⟩ := ih (h.push hlen hsmall hcheck hcopy) hshort hfits
    refine ⟨a', ?_, hfree'.trans hfree⟩
    unfold pushArgs
    rw [if_neg hmany]
    rw [if_neg hcheck]
    exact bind_eq_ok.mpr ⟨m, hcopy, hrest⟩

theorem buildStack_returns {argv : Option (List (List UInt8))} (h : Building m₀ pd.m img) (hshort : ShortArgs (argv.getD []))
    (hfits : Fits argv) (hroom : 4 ≤ pd.m.free.length) :
    ∃ a pd', buildStack argv pd = .ok (true, a, pd') ∧ a.argc = (argv.getD []).length ∧
      pd.m.free.length ≤ pd'.m.free.length + 4 := by
  obtain ⟨pd₁, hstack, hle⟩ := createStackSection_returns Exec.stackBase h.space hroom
  obtain ⟨hbuild1, -⟩ := createStackSection_spec h hstack
  have hstart := Pushing.start hbuild1
  obtain ⟨argc, sp, hpush, hroom'⟩ := hfits.pushes
  obtain ⟨a, hargs, hfree⟩ := pushArgs_returns hstart hshort (hpush ▸ Option.some_ne_none _)
  obtain ⟨hpushing, hargc, hmax⟩ := pushArgs_spec hstart hshort hargs
  obtain ⟨hlen, hsmall, hne⟩ := hpushing.ustack_bytes (hmax (Nat.zero_le _))
  have hcheck : ¬ Exec.pushDown a.sp (UInt64.ofNat ((a.argc + 2) * 8)) < Exec.stackBase := by
    cases hpush.symm.trans (pushArgs_eq hargs)
    exact hroom'
  obtain ⟨rounds, hrounds⟩ := Nat.exists_eq_succ_of_ne_zero (mt length_eq_zero_iff.mp hne)
  obtain ⟨m, hcopy, hfree'⟩ := hpushing.copyout_returns rounds hne hlen hsmall hcheck
  have hustack : pushUstack a = .ok (true, { a with sp := Exec.pushDown a.sp (UInt64.ofNat ((a.argc + 2) * 8)), m := m }) := by
    unfold pushUstack
    rw [if_neg hcheck]
    refine bind_eq_ok.mpr ⟨m, ?_, rfl⟩
    rw [hrounds]
    exact hcopy
  refine ⟨_, { pd₁ with m := m }, bind_eq_ok.mpr ⟨pd₁, hstack, bind_eq_ok.mpr ⟨_, hargs, bind_eq_ok.mpr ⟨_, hustack, rfl⟩⟩⟩,
    hargc.trans (Nat.zero_add _), ?_⟩
  show _ ≤ m.free.length + 4
  rw [hfree', hfree]
  exact hle

end Stack

/-! ## The copy -/

section Copy

variable {s : State} {pd : Pgdir} {img : Image}

theorem initPgdir_returns {m : Paging} (h : m.free ≠ []) : ∃ m', initPgdir m = .ok m' ∧ m.free.length = m'.free.length + 1 := by
  obtain ⟨p, free, hm⟩ := exists_cons_of_ne_nil h
  refine ⟨emptyRoot m p free, ?_, by rw [hm]; rfl⟩
  unfold initPgdir newTable
  rw [hm]
  rfl

theorem install_returns (hs : s.Sound) (h : Building { pt := 0, word := s.word, free := s.free } pd.m img)
    (hbacked : ∀ sec ∈ pd.sections, ∀ va ∈ sec.pages, (img (vpn va)).isSome)
    (hroom : 4 * (pd.sections.map (·.pages.length)).sum + 1 ≤ pd.m.free.length) : ∃ s', install s pd = .ok s' := by
  obtain ⟨freed, extra, hfree, hpages, hfreed⟩ := hs.freeOld h
  obtain ⟨hparent, hmapped⟩ := h.freed hpages hfreed hbacked
  have hlarge : (freed ++ pd.m.free).length = freed.length + pd.m.free.length := length_append
  obtain ⟨child₀, hinit, hlength⟩ := initPgdir_returns (m := { pd.m with free := freed ++ pd.m.free })
    (ne_nil_of_length_pos (show 0 < (freed ++ pd.m.free).length by omega))
  have hcopying := initPgdir_copying hparent hinit
  obtain ⟨child, secs, hcopy⟩ := copyPgdir_returns [] hcopying hparent hmapped (by
    dsimp only at hlength
    omega)
  unfold install
  dsimp only
  rw [hfree]
  exact ⟨_, bind_eq_ok.mpr ⟨child₀, paging_eq_ok.mpr ((initPgdir_pt _ 0).trans hinit),
    bind_eq_ok.mpr ⟨(child, secs), paging_eq_ok.mpr hcopy, rfl⟩⟩⟩

end Copy

/-! ## The whole -/

/-- The pages of the two sections. -/
def Layout.width (L : Layout) : Nat := (Section.pages ⟨stData, L.data.1, L.data.2⟩).length + (Section.pages ⟨stText, L.text.1, L.text.2⟩).length

section Whole

variable {file : List UInt8} {L : Layout} {ph : Phdr} {argv : Option (List (List UInt8))} {s : State}

theorem Phdr.Placed.length_pages (h : ph.Placed) (flags : UInt64) :
    (Section.pages ⟨flags, pageBase ph.vaddr, pageUp (ph.vaddr + ph.size)⟩).length = ph.last - ph.first := by
  obtain ⟨hbase, hup⟩ := segment_range h.small
  unfold Section.pages Phdr.last Phdr.first
  rw [length_map, length_range]
  dsimp only
  omega

theorem Phdr.apply_width (file : List UInt8) (L : Layout) (h : ph.loads → ph.Placed) : (ph.apply file L).width ≤ L.width + (ph.last - ph.first) := by
  unfold Phdr.apply
  split
  next hloads =>
    unfold Layout.place Layout.width
    split
    next =>
      dsimp only
      rw [(h hloads).length_pages]
      omega
    next =>
      dsimp only
      rw [(h hloads).length_pages]
      omega
  next => exact Nat.le_add_right _ _

theorem foldl_apply_width (file : List UInt8) (L : Layout) {phs : List Phdr} (h : ∀ ph ∈ phs, ph.loads → ph.Placed) :
    4 * (phs.foldl (Phdr.apply file) L).width ≤ 4 * L.width + (phs.map Phdr.cost).sum := by
  induction phs generalizing L with
  | nil => exact le_rfl
  | cons ph phs ih =>
    obtain ⟨hph, hphs⟩ := forall_mem_cons.mp h
    have hone := Phdr.apply_width file L hph
    have hrest := ih (ph.apply file L) hphs
    rw [foldl_cons, map_cons, sum_cons]
    unfold Phdr.cost at hrest ⊢
    omega

/-- An ELF file that can be executed. -/
structure Executable (file : List UInt8) : Prop where
  length : file.length < 2 ^ 32
  header : Exec.ehdrSize ≤ file.length
  magic : Fs.strncmp 4 (file.take Exec.ehdrSize) Exec.elfMag = 0
  count : (phdrs file).length = Exec.field (file.take Exec.ehdrSize) 56 2
  loadable : ∀ ph ∈ phdrs file, ph.type = Exec.ptLoad → ph.Loadable file

instance : Decidable (Executable file) :=
  decidable_of_iff (file.length < 2 ^ 32 ∧ Exec.ehdrSize ≤ file.length ∧
      Fs.strncmp 4 (file.take Exec.ehdrSize) Exec.elfMag = 0 ∧ (phdrs file).length = Exec.field (file.take Exec.ehdrSize) 56 2 ∧
      ∀ ph ∈ phdrs file, ph.type = Exec.ptLoad → ph.Loadable file)
    ⟨fun ⟨hl, hh, hm, hc, hp⟩ => ⟨hl, hh, hm, hc, hp⟩, fun h => ⟨h.length, h.header, h.magic, h.count, h.loadable⟩⟩

theorem Executable.placed (h : Executable file) : ∀ ph ∈ phdrs file, ph.loads → ph.Placed :=
  fun ph hph hloads => (h.loadable ph hph (type_of_loads hloads)).placed

/-- **`execve` succeeds** on such a file, if the arguments fit and there are pages enough. -/
theorem execve_returns (hs : s.Sound) (h : Executable file) (hshort : ShortArgs (argv.getD [])) (hfits : Fits argv)
    (hroom : 2 * ((phdrs file).map Phdr.cost).sum + 10 ≤ s.free.length) :
    ∃ s', execve (some file) argv s = .ok (((argv.getD []).length : Int), s') := by
  obtain ⟨m, hinit, hfree1⟩ := initPgdir_returns (m := { pt := 0, word := s.word, free := s.free })
    (ne_nil_of_length_pos (show 0 < s.free.length by omega))
  dsimp only at hfree1
  obtain ⟨hbuild, -⟩ := initPgdir_building hs.free hinit
  have hempty : Holds { pt := 0, word := s.word, free := s.free } { m := m, sections := fileSections } emptyLayout := ⟨hbuild, rfl⟩
  obtain ⟨pd, hall, hfree2⟩ := loadAll_returns hempty h.length h.loadable (by dsimp only; omega)
  have hload := (loadPhdrs_eq_loadAll (show _ = phdrs file from rfl) h.count _).trans hall
  obtain ⟨hholds, -⟩ := loadPhdrs_holds hempty h.length h.placed hload
  dsimp only at hfree2
  obtain ⟨a, pd', hstack, hargc, hfree3⟩ := buildStack_returns hholds.building hshort hfits (by omega)
  obtain ⟨hbuild', hsections⟩ := buildStack_spec hholds.building hshort hstack
  have hbacked := foldl_apply_backed file emptyLayout_backed h.placed
  have hwidth := foldl_apply_width file emptyLayout h.placed
  rw [hholds.sections] at hsections
  have hmapped : ∀ sec ∈ pd'.sections, ∀ va ∈ sec.pages, (stackImage (argv.getD []) (layoutOf file).img (vpn va)).isSome :=
    fun sec hsec va hva => stackImage_isSome hbacked ((hsections ▸ kept_iff hbacked.data hbacked.text _).mp ⟨sec, hsec, va, hva, rfl⟩)
  have hsound : (giveBack { s with begun := s.begun + 1, rc := s.rc + 1, locked := s.locked + 1 }).Sound :=
    ⟨hs.free, hs.space, hs.clean, hs.low, hs.counted⟩
  have hpages : (pd'.sections.map (·.pages.length)).sum = 1 + (layoutOf file).width := by
    rw [hsections]
    rfl
  obtain ⟨s₂, hinstall⟩ := install_returns hsound hbuild' hmapped (by
    rw [hpages]
    unfold layoutOf
    change _ ≤ 4 * 0 + _ at hwidth
    omega)
  rw [execve_some h.length h.header]
  rw [if_neg (not_not.mpr h.magic), ← hargc]
  exact ⟨_, bind_eq_ok.mpr ⟨m, paging_eq_ok.mpr hinit, bind_eq_ok.mpr ⟨_, hload, bind_eq_ok.mpr ⟨_, hstack,
    bind_eq_ok.mpr ⟨s₂, hinstall, rfl⟩⟩⟩⟩⟩

end Whole

/-- A process without an address space, and pages enough for two small segments. -/
def roomyState (word : UInt64 → UInt64) : State where
  word := word
  free := (List.range 48).map fun i => 0xffff000000100000 + 0x1000 * UInt64.ofNat i
  extra _ := 0
  pt := 0
  sections := []
  elr := 0
  spEl0 := 0
  locked := 0
  rc := 0
  begun := 0
  ended := 0

theorem roomyState_sound (word : UInt64 → UInt64) : (roomyState word).Sound := by
  refine State.sound_of_null rfl ⟨?_, ?_⟩
  · exact (by decide +kernel : (roomyState fun _ => 0).free.Nodup)
  · have hall : ((roomyState fun _ => 0).free.all fun p => decide (KernelPage p)) = true := by decide +kernel
    exact fun p hp => of_decide_eq_true (all_eq_true.mp hall p hp)

theorem execve_roomyState {file : List UInt8} {argv : Option (List (List UInt8))} (h : Executable file)
    (hshort : ShortArgs (argv.getD [])) (hfits : Fits argv) (hcost : ((phdrs file).map Phdr.cost).sum ≤ 19)
    (word : UInt64 → UInt64) : ∃ s', execve (some file) argv (roomyState word) = .ok (((argv.getD []).length : Int), s') := by
  have hlength : (roomyState word).free.length = 48 := length_map _ |>.trans length_range
  exact execve_returns (roomyState_sound word) h hshort hfits (by omega)

end Armv8Os.Execve
