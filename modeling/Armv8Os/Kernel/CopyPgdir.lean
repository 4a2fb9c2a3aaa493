/-
  `copy_pgdir`: the address space of a child.

  1. **Program** — `copyPgdir`: for each section of the parent a section of the child, and for each of its pages a free page,
     filled from the parent's and mapped at the same address with the same flags.

  2. **Crux** — `Copying`: everything that is written lies in pages that were free when the child was made, so the parent
     cannot tell, and the child is made of such pages only.

  3. **Isolation** — `Apart`: no page is used by both.  A store goes to a mapped page, which is no table, so it keeps that.
-/
import Armv8Os.Kernel.AddressSpace

namespace Armv8Os.Pt

open Mmu Words Transition List Option UInt64

/-! ## The program -/

/-- `struct section`. -/
structure Section where
  flags : UInt64
  begin : UInt64
  stop : UInt64
  deriving Repr, DecidableEq

/-- The addresses of `for (va = begin; va < end; va += PAGE_SIZE)`. -/
def Section.pages (sec : Section) : List UInt64 :=
  (List.range ((sec.stop.toNat - sec.begin.toNat + 4095) / 4096)).map fun i => sec.begin + pageSize * UInt64.ofNat i

/-- The body of the inner loop.  A page that the parent has not mapped is a NULL that is followed. -/
def copyPage (fromPt : UInt64) (child : Paging) (va : UInt64) : Except Stop Paging :=
  match getPte { child with pt := fromPt } va false with
  | .error _ => .error .fault
  | .ok (pte, _) => do
    let flags := pteFlags (child.word pte)
    let fromKa := p2k (pteAddress (child.word pte))
    let (ka, child) ← allocPageForUser child
    let child := { child with word := blit child.word ka 4096 fun i => readByte child.word (fromKa + UInt64.ofNat i) }
    vmmap child va ka flags

/-- `copy_pgdir`: the memory, as the child sees it, and the sections of the child, the head of the list first. -/
def copyPgdir (fromPt : UInt64) : List Section → Paging → List Section → Except Stop (Paging × List Section)
  | [], child, childSections => .ok (child, childSections)
  | sec :: sections, child, childSections => do
    let child ← sec.pages.foldlM (copyPage fromPt) child
    copyPgdir fromPt sections child (sec :: childSections)

/-! ## The copy -/

section Copy

variable {m₀ child child' : Paging} {D : Set Nat} {va : UInt64}

/-- Some pages of the parent `m₀` have been copied to `child`: those with page numbers in `D`. -/
structure Copying (m₀ child : Paging) (D : Set Nat) : Prop where
  space : UserSpace child
  used : ∃ used, m₀.free = used ++ child.free
  uses : ∀ p, Uses child p → p ∈ m₀.free
  word : ∀ a, pageBase a ∉ m₀.free → child.word a = m₀.word a
  copied : ∀ va, vpn va ∈ D → pteFlags (seen child va) = pteFlags (seen m₀ va) ∧ loadByte child va = loadByte m₀ va
  only : ∀ va, vpn va ∉ D → pageAt child va = none

theorem Copying.free_subset (h : Copying m₀ child D) : child.free ⊆ m₀.free := by
  obtain ⟨used, hused⟩ := h.used
  rw [hused]
  exact subset_append_right used child.free

/-- The parent sees nothing of it. -/
theorem Copying.parent (h : Copying m₀ child D) (hparent : UserSpace m₀) :
    SameTables m₀ { child with pt := m₀.pt } ∧ ∀ va, loadByte { child with pt := m₀.pt } va = loadByte m₀ va :=
  hparent.frame rfl fun a ha => h.word a (hparent.not_free ha)

theorem pteFlags_and_mask (w : UInt64) : pteFlags w &&& addressMask = 0 := by
  unfold pteFlags
  rw [UInt64.and_assoc, show (0xFFFF000000000FFF : UInt64) &&& addressMask = 0 from by decide, UInt64.and_zero]

theorem isValid_pteFlags (w : UInt64) : isValid (pteFlags w) = isValid w := by
  unfold isValid pteFlags
  rw [UInt64.and_assoc, show (0xFFFF000000000FFF : UInt64) &&& pteValid = pteValid from by decide]

/-- `init_pgdir` makes the child. -/
theorem initPgdir_copying (hparent : UserSpace m₀) (hinit : initPgdir m₀ = .ok child) : Copying m₀ child ∅ := by
  obtain ⟨p, free, hm, rfl⟩ := initPgdir_ok hinit
  have hpages : FreePages (p :: free) := hm ▸ hparent.wf.free
  refine ⟨emptyRoot_userSpace hpages, ⟨[p], hm⟩, ?_, fun a ha => if_neg fun heq => ha ?_,
    fun va hva => absurd hva (Set.notMem_empty _),
    fun va _ => eq_none_iff_forall_ne_some.mpr (pageAt_emptyRoot (hpages.page p mem_cons_self) va)⟩
  · rintro q (⟨va, k, -, hwalk⟩ | ⟨va, hq⟩)
    · rw [walk_emptyRoot (hpages.page p mem_cons_self), ite_none_right_eq_some] at hwalk
      rw [hm, ← some.inj hwalk.2]
      exact mem_cons_self
    · exact absurd hq (pageAt_emptyRoot (hpages.page p mem_cons_self) va q)
  · rw [hm, heq]
    exact mem_cons_self

section

variable (h : Copying m₀ child D) (hparent : UserSpace m₀)
include h hparent

/-- What `copyPage` does when the parent has the page. -/
theorem copyPage_ok {p : UInt64} (hp : pageAt m₀ va = some p) : copyPage m₀.pt child va = (do
      let (ka, child) ← allocPageForUser child
      vmmap { child with word := blit child.word ka 4096 fun i => readByte child.word (p + UInt64.ofNat i) } va ka
        (pteFlags (seen m₀ va))) := by
  obtain ⟨hsame, -⟩ := h.parent hparent
  have hseen := hsame.seen hparent.wf va
  unfold pageAt at hp
  rw [← hseen] at hp ⊢
  cases ht : walk { child with pt := m₀.pt } va 3 with
  | none =>
    rw [seen_none ht, follow_zero] at hp
    cases hp
  | some t =>
    obtain ⟨-, hfollow⟩ := ite_none_right_eq_some.mp hp
    rw [seen_some ht] at hfollow ⊢
    unfold copyPage
    rw [getPte_false, ht]
    show (allocPageForUser child >>= _) = _
    rw [← some.inj hfollow]

/-- One page is copied. -/
theorem copyPage_copying (hmapped : (pageAt m₀ va).isSome)
    (hcopy : copyPage m₀.pt child va = .ok child') : Copying m₀ child' (insert (vpn va) D) := by
  obtain ⟨p, hp⟩ := isSome_iff_exists.mp hmapped
  rw [copyPage_ok h hparent hp] at hcopy
  obtain ⟨⟨ka, child₁⟩, halloc, hmap⟩ := bind_eq_ok.mp hcopy
  obtain ⟨free, hfree, rfl⟩ := allocPageForUser_ok halloc
  have hkapage : KernelPage ka := h.space.wf.free.page ka (hfree ▸ mem_cons_self)
  have hppage := kernelPage_of_follow hp
  have hvalid : isValid (pteFlags (seen m₀ va)) := by
    rw [isValid_pteFlags]
    exact (ite_none_right_eq_some.mp hp).1
  have hfill : ∀ a, pageBase a ≠ ka → blit child.word ka 4096 (fun i => readByte child.word (p + UInt64.ofNat i)) a = child.word a :=
    fun a ha => blit_wholePage hkapage ha
  have hnew := h.space.mapNew hfree hfill (pteFlags_and_mask _) hvalid hmap
  -- the new page holds the bytes of the parent's page
  have hbytes : ∀ va', readByte (blit child.word ka 4096 fun i => readByte child.word (p + UInt64.ofNat i)) (ka + va' % pageSize) =
      readByte m₀.word (p + va' % pageSize) := by
    intro va'
    have hoff : (va' % pageSize).toNat < 4096 := by
      rw [toNat_offset]
      omega
    rw [readByte_blit, toNat_inPage hkapage hoff, if_pos ⟨by omega, by omega⟩, Nat.add_sub_cancel_left, UInt64.ofNat_toNat]
    refine readByte_page hppage (fun a ha => h.word a ?_) hoff
    rw [ha]
    exact hparent.notFree va p hp
  constructor
  case space => exact hnew.space
  case used =>
    obtain ⟨used, hused⟩ := h.used
    obtain ⟨used', hused'⟩ := hnew.used
    exact ⟨used ++ used', by rw [hused, hused', append_assoc]⟩
  case uses =>
    intro q hq
    rcases hnew.uses q hq with hold | hin
    · exact h.uses q hold
    · exact h.free_subset hin
  case word =>
    intro a ha
    rw [hnew.word a (fun hin => ha (h.free_subset hin)), h.word a ha]
    exact fun va' k hk ht => ha (h.uses _ (Or.inl ⟨va', k, hk, ht⟩))
  case copied =>
    intro va' hva'
    rw [hnew.seen, hnew.loadByte h.space hkapage]
    by_cases heq : vpn va' = vpn va
    · rw [if_pos heq, if_pos heq, pteFlags_k2p hkapage (pteFlags_and_mask _), hbytes, seen_vpn m₀ heq]
      refine ⟨rfl, ?_⟩
      unfold loadByte pageAt
      rw [seen_vpn m₀ heq, show follow (seen m₀ va) = some p from hp]
      rfl
    · rw [if_neg heq, if_neg heq]
      exact h.copied va' ((Set.mem_insert_iff.mp hva').resolve_left heq)
  case only =>
    intro va' hva'
    obtain ⟨hne, hnot⟩ := not_or.mp hva'
    rw [hnew.pageAt, if_neg hne]
    exact h.only va' hnot

/-- The inner loop. -/
theorem copyPages_copying {vas : List UInt64}
    (hmapped : ∀ va ∈ vas, (pageAt m₀ va).isSome) (hcopy : vas.foldlM (copyPage m₀.pt) child = .ok child') :
    Copying m₀ child' (D ∪ {n | ∃ va ∈ vas, vpn va = n}) := by
  induction vas generalizing child D with
  | nil =>
    obtain rfl := Except.ok.inj hcopy
    have hset : D ∪ {n | ∃ va ∈ ([] : List UInt64), vpn va = n} = D := by
      ext n
      simp
    rw [hset]
    exact h
  | cons va vas ih =>
    obtain ⟨child₁, hone, hrest⟩ := bind_eq_ok.mp hcopy
    obtain ⟨hva, hvas⟩ := forall_mem_cons.mp hmapped
    have hset : D ∪ {n | ∃ va' ∈ va :: vas, vpn va' = n} = insert (vpn va) D ∪ {n | ∃ va ∈ vas, vpn va = n} := by
      ext n
      simp only [Set.mem_union, Set.mem_insert_iff, Set.mem_ofPred_eq, exists_mem_cons_iff]
      tauto
    rw [hset]
    exact ih (copyPage_copying h hparent hva hone) hvas hrest

/-- The outer loop. -/
theorem copyPgdir_copying {sections done secs : List Section}
    (hmapped : ∀ sec ∈ sections, ∀ va ∈ sec.pages, (pageAt m₀ va).isSome)
    (hcopy : copyPgdir m₀.pt sections child done = .ok (child', secs)) :
    Copying m₀ child' (D ∪ {n | ∃ sec ∈ sections, ∃ va ∈ sec.pages, vpn va = n}) ∧ secs = sections.reverse ++ done := by
  induction sections generalizing child D done with
  | nil =>
    obtain ⟨rfl, rfl⟩ := Prod.mk.inj (Except.ok.inj hcopy)
    have hset : D ∪ {n | ∃ sec ∈ ([] : List Section), ∃ va ∈ sec.pages, vpn va = n} = D := by
      ext n
      simp
    rw [hset]
    exact ⟨h, rfl⟩
  | cons sec sections ih =>
    obtain ⟨child₁, hpages, hrest⟩ := bind_eq_ok.mp hcopy
    obtain ⟨hsec, hsecs⟩ := forall_mem_cons.mp hmapped
    obtain ⟨hcopying, hlist⟩ := ih (copyPages_copying h hparent hsec hpages) hsecs hrest
    have hset : D ∪ {n | ∃ sec' ∈ sec :: sections, ∃ va ∈ sec'.pages, vpn va = n} =
        D ∪ {n | ∃ va ∈ sec.pages, vpn va = n} ∪ {n | ∃ sec ∈ sections, ∃ va ∈ sec.pages, vpn va = n} := by
      ext n
      simp only [Set.mem_union, Set.mem_ofPred_eq, exists_mem_cons_iff]
      exact or_assoc.symm
    rw [hset, reverse_cons, append_assoc]
    exact ⟨hcopying, hlist⟩

/-- A page of its own and three tables are enough for each page. -/
theorem copyPage_returns (hmapped : (pageAt m₀ va).isSome) (hfree : 4 ≤ child.free.length) :
    ∃ child', copyPage m₀.pt child va = .ok child' ∧ child.free.length ≤ child'.free.length + 4 := by
  obtain ⟨p, hp⟩ := isSome_iff_exists.mp hmapped
  rw [copyPage_ok h hparent hp]
  cases hm : child.free with
  | nil =>
    rw [hm] at hfree
    exact absurd hfree (by decide)
  | cons ka free =>
    have hkapage : KernelPage ka := h.space.wf.free.page ka (hm ▸ mem_cons_self)
    have hfill : ∀ a, pageBase a ≠ ka → blit child.word ka 4096 (fun i => readByte child.word (p + UInt64.ofNat i)) a = child.word a :=
      fun a ha => blit_wholePage hkapage ha
    rw [allocPageForUser_cons hm, ← hm]
    exact h.space.vmmap_returns hm hfill hfree va _

theorem copyPages_returns {vas : List UInt64}
    (hmapped : ∀ va ∈ vas, (pageAt m₀ va).isSome) (hfree : 4 * vas.length ≤ child.free.length) :
    ∃ child', vas.foldlM (copyPage m₀.pt) child = .ok child' ∧ child.free.length ≤ child'.free.length + 4 * vas.length := by
  induction vas generalizing child D with
  | nil => exact ⟨child, rfl, le_rfl⟩
  | cons va vas ih =>
    obtain ⟨hva, hvas⟩ := forall_mem_cons.mp hmapped
    rw [length_cons] at hfree ⊢
    obtain ⟨child₁, hone, hle⟩ := copyPage_returns h hparent hva (by omega)
    obtain ⟨child', hrest, hle'⟩ := ih (copyPage_copying h hparent hva hone) hvas (by omega)
    exact ⟨child', by rw [foldlM_cons, hone]; exact hrest, by omega⟩

end

theorem copyPgdir_returns {sections : List Section} (done : List Section) (h : Copying m₀ child D) (hparent : UserSpace m₀)
    (hmapped : ∀ sec ∈ sections, ∀ va ∈ sec.pages, (pageAt m₀ va).isSome)
    (hfree : 4 * (sections.map (·.pages.length)).sum ≤ child.free.length) :
    ∃ child' secs, copyPgdir m₀.pt sections child done = .ok (child', secs) := by
  induction sections generalizing child D done with
  | nil => exact ⟨child, done, rfl⟩
  | cons sec sections ih =>
    obtain ⟨hsec, hsecs⟩ := forall_mem_cons.mp hmapped
    rw [map_cons, sum_cons] at hfree
    obtain ⟨child₁, hone, hle⟩ := copyPages_returns h hparent hsec (by omega)
    obtain ⟨child', secs, hrest⟩ : ∃ child' secs, copyPgdir m₀.pt sections child₁ (sec :: done) = .ok (child', secs) :=
      ih (sec :: done) (copyPages_copying h hparent hsec hone) hsecs (by omega)
    exact ⟨child', secs, bind_eq_ok.mpr ⟨child₁, hone, hrest⟩⟩

end Copy

/-- An address inside a page-aligned section has the number of one of its pages. -/
theorem vpn_mem_pages {sec : Section} {va : UInt64} (hbegin : sec.begin.toNat % 4096 = 0) (hle : sec.begin ≤ va)
    (hlt : va < sec.stop) : ∃ va' ∈ sec.pages, vpn va' = vpn va := by
  have hle' := UInt64.le_iff_toNat_le.mp hle
  have hlt' := UInt64.lt_iff_toNat_lt.mp hlt
  have hend := sec.stop.toNat_lt
  refine ⟨sec.begin + pageSize * UInt64.ofNat ((va.toNat - sec.begin.toNat) / 4096),
    List.mem_map.mpr ⟨_, List.mem_range.mpr (by omega), rfl⟩, ?_⟩
  unfold vpn
  rw [toNat_page (by omega)]
  omega

/-- The pages of a page-aligned section lie inside it. -/
theorem pages_inside {sec : Section} {va : UInt64} (hbegin : sec.begin.toNat % 4096 = 0) (hstop : sec.stop.toNat % 4096 = 0)
    (hva : va ∈ sec.pages) : sec.begin ≤ va ∧ va < sec.stop := by
  obtain ⟨i, hi, rfl⟩ := mem_map.mp hva
  have hi' := mem_range.mp hi
  have hlt := sec.stop.toNat_lt
  rw [le_iff_toNat_le, lt_iff_toNat_lt, toNat_page (by omega)]
  omega

/-! ## Isolation -/

/-- Two spaces in one memory without a page in common. -/
structure Apart (m : Paging) (a b : UInt64) : Prop where
  left : UserSpace { m with pt := a }
  right : UserSpace { m with pt := b }
  apart : ∀ p, Uses { m with pt := a } p → ¬ Uses { m with pt := b } p

theorem Apart.symm {m : Paging} {a b : UInt64} (h : Apart m a b) : Apart m b a :=
  ⟨h.right, h.left, fun p hb ha => h.apart p ha hb⟩

/-- A store on one side keeps the spaces apart, and the other side sees nothing of it. -/
theorem Apart.store {m m' : Paging} {a b va : UInt64} {v : UInt8} (h : Apart m a b)
    (hstore : storeByte { m with pt := a } va v = some m') :
    Apart m' a b ∧ ∀ va', loadByte { m' with pt := b } va' = loadByte { m with pt := b } va' := by
  obtain ⟨p, hp, rfl⟩ := map_eq_some_iff.mp hstore
  have hpage := kernelPage_of_follow hp
  have hoff : (va % pageSize).toNat + 1 ≤ 4096 := by
    rw [toNat_offset]
    omega
  have hword : ∀ x, pageBase x ≠ p → blit m.word (p + va % pageSize) 1 (fun _ => v) x = m.word x :=
    fun x hx => blit_page hpage hoff hx
  have hsame := h.left.sameTables hp hword
  obtain ⟨hframe, hbytes⟩ : SameTables { m with pt := b }
      { m with pt := b, word := blit m.word (p + va % pageSize) 1 fun _ => v } ∧ _ :=
    h.right.frame rfl fun x hx => hword x fun heq => h.apart p (Or.inr ⟨va, hp⟩) (heq ▸ hx)
  refine ⟨⟨h.left.transfer hsame h.left.wf.free fun _ hx => hx, h.right.transfer hframe h.right.wf.free fun _ hx => hx,
    fun q hq hq' => ?_⟩, hbytes⟩
  exact h.apart q ((hsame.uses h.left.wf q).mp hq) ((hframe.uses h.right.wf q).mp hq')

/-- A store by the parent (`true`) or by the child. -/
def storeBy (parent child : UInt64) (m : Paging) (w : Bool × UInt64 × UInt8) : Option Paging :=
  storeByte { m with pt := if w.1 then parent else child } w.2.1 w.2.2

theorem Apart.storeBy {m m' : Paging} {parent child : UInt64} {w : Bool × UInt64 × UInt8} (h : Apart m parent child)
    (hstore : storeBy parent child m w = some m') :
    Apart m' parent child ∧ ∀ va, loadByte { m' with pt := if w.1 then child else parent } va =
      loadByte { m with pt := if w.1 then child else parent } va := by
  obtain ⟨side, va, v⟩ := w
  cases side with
  | true => exact h.store hstore
  | false =>
    obtain ⟨hapart, hbytes⟩ := h.symm.store hstore
    exact ⟨hapart.symm, hbytes⟩

/-- What `fork` wants of the address space of a child: `m₀` is the memory before, `child` the memory after, each with the
root of its own side. -/
structure Forked (m₀ : Paging) (sections : List Section) (child : Paging) (secs : List Section) : Prop where
  kept : ∀ sec, sec ∈ secs ↔ sec ∈ sections
  bytes : ∀ sec ∈ sections, ∀ va, sec.begin ≤ va → va < sec.stop →
    (loadByte m₀ va).isSome ∧ loadByte child va = loadByte m₀ va ∧ pteFlags (seen child va) = pteFlags (seen m₀ va)
  parent : ∀ va, seen { child with pt := m₀.pt } va = seen m₀ va ∧ loadByte { child with pt := m₀.pt } va = loadByte m₀ va
  disjoint : ∀ va va' p, pageAt child va = some p → pageAt { child with pt := m₀.pt } va' ≠ some p
  isolated : ∀ ws m, run (storeBy m₀.pt child.pt) child ws = some m → ∀ w m', storeBy m₀.pt child.pt m w = some m' →
    ∀ va, loadByte { m' with pt := if w.1 then child.pt else m₀.pt } va =
      loadByte { m with pt := if w.1 then child.pt else m₀.pt } va

/-- **The address space of a child.**  It returns while there are four free pages for each page to copy, and the child then
has a copy of its own. -/
theorem fork_copies {m₀ child₀ : Paging} {sections : List Section} (hparent : UserSpace m₀)
    (haligned : ∀ sec ∈ sections, sec.begin.toNat % 4096 = 0 ∧ sec.stop.toNat % 4096 = 0)
    (hmapped : ∀ sec ∈ sections, ∀ va, sec.begin ≤ va → va < sec.stop → (pageAt m₀ va).isSome)
    (hinit : initPgdir m₀ = .ok child₀) :
    (4 * (sections.map (·.pages.length)).sum ≤ child₀.free.length →
      ∃ child secs, copyPgdir m₀.pt sections child₀ [] = .ok (child, secs)) ∧
    ∀ child secs, copyPgdir m₀.pt sections child₀ [] = .ok (child, secs) → Forked m₀ sections child secs := by
  have hstart := initPgdir_copying hparent hinit
  have hpages : ∀ sec ∈ sections, ∀ va ∈ sec.pages, (pageAt m₀ va).isSome := by
    intro sec hsec va hva
    obtain ⟨hbegin, hstop⟩ := haligned sec hsec
    obtain ⟨hle, hlt⟩ := pages_inside hbegin hstop hva
    exact hmapped sec hsec va hle hlt
  refine ⟨copyPgdir_returns [] hstart hparent hpages, fun child secs hcopy => ?_⟩
  obtain ⟨hcopying, hsecs⟩ := copyPgdir_copying hstart hparent hpages hcopy
  obtain ⟨hsame, hbytes⟩ := hcopying.parent hparent
  have hspace : UserSpace { child with pt := m₀.pt } :=
    hparent.transfer hsame hcopying.space.wf.free hcopying.free_subset
  have hapart : Apart child m₀.pt child.pt := by
    refine ⟨hspace, hcopying.space, fun p hp hp' => ?_⟩
    exact hparent.not_free ((hsame.uses hparent.wf p).mp hp) (hcopying.uses p hp')
  constructor
  case kept =>
    intro sec
    rw [hsecs, append_nil, mem_reverse]
  case bytes =>
    intro sec hsec va hle hlt
    obtain ⟨va', hva', hvpn⟩ := vpn_mem_pages (haligned sec hsec).1 hle hlt
    obtain ⟨hflags, hbyte⟩ := hcopying.copied va (Or.inr ⟨sec, hsec, va', hva', hvpn⟩)
    refine ⟨?_, hbyte, hflags⟩
    unfold loadByte
    rw [isSome_map]
    exact hmapped sec hsec va hle hlt
  case parent => exact fun va => ⟨hsame.seen hparent.wf va, hbytes va⟩
  case disjoint => exact fun va va' p hp hp' => hapart.apart p (Or.inr ⟨va', hp'⟩) (Or.inr ⟨va, hp⟩)
  case isolated =>
    intro ws m hrun w m' hstore
    have hm := run_invariant_all (I := fun m => Apart m m₀.pt child.pt) (fun _ _ _ h hstep => (h.storeBy hstep).1)
      ws child m hapart hrun
    exact (hm.storeBy hstore).2

/-- One page of text, mapped to a page full of junk. -/
theorem fork_copies_page :
    ∃ m₀ child₀ child secs, UserSpace m₀ ∧ initPgdir m₀ = .ok child₀ ∧
      copyPgdir m₀.pt [⟨5, 0x400000, 0x401000⟩] child₀ [] = .ok (child, secs) ∧ loadByte m₀ 0x400123 = some 0xbc ∧
      Forked m₀ [⟨5, 0x400000, 0x401000⟩] child secs := by
  have hview : ((initPgdir junkMemory).toOption.bind fun m₁ =>
      (allocPageForUser m₁).toOption.bind fun (ka, m₂) =>
        (vmmap m₂ 0x400000 ka 0x6c7).toOption.bind fun m₀ =>
          (initPgdir m₀).toOption.bind fun child₀ =>
            (copyPgdir m₀.pt [⟨5, 0x400000, 0x401000⟩] child₀ []).toOption.map fun _ => loadByte m₀ 0x400123) =
      some (some 0xbc) := by decide +kernel
  obtain ⟨m₁, hinit, hview⟩ := bind_eq_some_iff.mp hview
  obtain ⟨⟨ka, m₂⟩, halloc, hview⟩ := bind_eq_some_iff.mp hview
  obtain ⟨m₀, hmap, hview⟩ := bind_eq_some_iff.mp hview
  obtain ⟨child₀, hchild, hview⟩ := bind_eq_some_iff.mp hview
  obtain ⟨⟨child, secs⟩, hcopy, hbyte⟩ := map_eq_some_iff.mp hview
  rw [Prog.toOption_eq_some] at hinit halloc hmap hchild hcopy
  obtain ⟨p, free, hfree, rfl⟩ := initPgdir_ok hinit
  obtain ⟨free', hfree', rfl⟩ := allocPageForUser_ok halloc
  have hroot : UserSpace (emptyRoot junkMemory p free) := emptyRoot_userSpace (hfree ▸ junkMemory_freePages)
  have hnew := hroot.mapNew hfree' (fun _ _ => rfl) (by decide) (by decide) hmap
  refine ⟨m₀, child₀, child, secs, hnew.space, hchild, hcopy, hbyte, ?_⟩
  refine (fork_copies hnew.space ?_ ?_ hchild).2 child secs hcopy
  · rintro sec hsec
    obtain rfl := mem_singleton.mp hsec
    decide
  · intro sec hsec va hle hlt
    obtain rfl := mem_singleton.mp hsec
    have hle' := le_iff_toNat_le.mp hle
    have hlt' := lt_iff_toNat_lt.mp hlt
    have hvpn : vpn va = vpn 0x400000 := by
      unfold vpn
      change 0x400000 ≤ va.toNat at hle'
      change va.toNat < 0x401000 at hlt'
      rw [show (0x400000 : UInt64).toNat = 0x400000 from rfl]
      omega
    rw [hnew.pageAt, if_pos hvpn]
    rfl

end Armv8Os.Pt
