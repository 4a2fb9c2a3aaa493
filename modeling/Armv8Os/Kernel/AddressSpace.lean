/-
  Address spaces: the bytes behind a page table.

  Tables and data lie in ONE memory, so what a program reads depends on the words of its tables, on the words of its pages,
  and on who else writes there.

  1. **Access** — `loadByte` and `storeByte`: what the machine does with a virtual address.

  2. **Ownership** — `Uses m p`: `p` is a table or a mapped page.  `UserSpace`: the mapped pages are neither tables nor free.
     What happens in pages that a space does not use changes nothing in it (`UserSpace.frame`).

  3. **Growing** — `mapNew`: `vmmap` of a free page, with the effect on the map, on the bytes and on the pages in use.
-/
import Armv8Os.Lib.Words
import Armv8Os.Kernel.PageMap

namespace Armv8Os.Pt

open Mmu Words List

/-! ## Access -/

/-- The page that an address is mapped to, by its kernel address. -/
def pageAt (m : Paging) (va : UInt64) : Option UInt64 := follow (seen m va)

/-- A load through the page table. -/
def loadByte (m : Paging) (va : UInt64) : Option UInt8 := (pageAt m va).map fun p => readByte m.word (p + va % pageSize)

/-- A store through the page table. -/
def storeByte (m : Paging) (va : UInt64) (b : UInt8) : Option Paging :=
  (pageAt m va).map fun p => { m with word := blit m.word (p + va % pageSize) 1 fun _ => b }

theorem kernelPage_of_follow {w p : UInt64} (h : follow w = some p) : KernelPage p := by
  obtain ⟨-, hp⟩ := Option.ite_none_right_eq_some.mp h
  rw [← Option.some.inj hp]
  exact kernelPage_pteAddress w

theorem toNat_offset (va : UInt64) : (va % pageSize).toNat = va.toNat % 4096 := by
  rfl

variable {word : UInt64 → UInt64}

section InPage

variable {p o : UInt64}

section

variable (hp : KernelPage p)
include hp

theorem toNat_inPage (ho : o.toNat < 4096) : (p + o).toNat = p.toNat + o.toNat := by
  have halign := hp.1
  have hlt := p.toNat_lt
  rw [UInt64.toNat_add, Nat.mod_eq_of_lt (by omega)]

/-- The word of a byte lies in the page of the byte. -/
theorem pageBase_wordBase (ho : o.toNat < 4096) : pageBase (wordBase (p + o)) = p := by
  have halign := hp.1
  rw [← UInt64.toNat_inj, toNat_pageBase, toNat_wordBase, toNat_inPage hp ho]
  omega

/-- Bytes of a page depend on its words only. -/
theorem readByte_page {word' : UInt64 → UInt64} (h : ∀ a, pageBase a = p → word' a = word a)
    (ho : o.toNat < 4096) : readByte word' (p + o) = readByte word (p + o) :=
  readByte_congr (h _ (pageBase_wordBase hp ho))

/-- A blit inside a page changes no other page. -/
theorem blit_page {len : Nat} {src : Nat → UInt8} {a : UInt64}
    (hlen : o.toNat + len ≤ 4096) (ha : pageBase a ≠ p) : blit word (p + o) len src a = word a := by
  refine blit_word fun hpos hword => ?_
  have halign := hp.1
  have hbase := toNat_pageBase a
  have hne := mt UInt64.toNat_inj.mp ha
  rw [toNat_inPage hp (by omega)]
  omega

/-- The bytes of a page after a blit inside it. -/
theorem readByte_blit_page {len : Nat} {src : Nat → UInt8} {x : UInt64}
    (hlen : o.toNat + len ≤ 4096) (hx : x.toNat < 4096) : readByte (blit word (p + o) len src) (p + x) =
      if o.toNat ≤ x.toNat ∧ x.toNat < o.toNat + len then src (x.toNat - o.toNat) else readByte word (p + x) := by
  rw [readByte_blit, toNat_inPage hp hx]
  by_cases hzero : len = 0
  · rw [if_neg (by omega), if_neg (by omega)]
  · rw [toNat_inPage hp (by omega)]
    by_cases hin : o.toNat ≤ x.toNat ∧ x.toNat < o.toNat + len
    · rw [if_pos hin, if_pos ⟨by omega, by omega⟩, Nat.add_sub_add_left]
    · rw [if_neg hin, if_neg (by omega)]

/-- A blit over a whole page. -/
theorem blit_wholePage {src : Nat → UInt8} {a : UInt64} (ha : pageBase a ≠ p) : blit word p 4096 src a = word a := by
  have hblit : blit word (p + 0) 4096 src a = word a := blit_page hp (by decide) ha
  rwa [UInt64.add_zero] at hblit

end

end InPage

/-! ## Ownership -/

/-- `p` is a table or a mapped page. -/
def Uses (m : Paging) (p : UInt64) : Prop := (∃ va, ∃ k ≤ 3, walk m va k = some p) ∨ ∃ va, pageAt m va = some p

/-- The mapped pages are neither tables nor free. -/
structure UserSpace (m : Paging) : Prop where
  wf : Wf m
  notFree : ∀ va p, pageAt m va = some p → p ∉ m.free
  notTable : ∀ va p, pageAt m va = some p → ∀ va', ∀ k ≤ 3, walk m va' k ≠ some p

/-- Different page numbers have different pages. -/
def Distinct (m : Paging) : Prop := ∀ va va' p, pageAt m va = some p → pageAt m va' = some p → vpn va = vpn va'

variable {m : Paging}

theorem UserSpace.not_free (h : UserSpace m) {p : UInt64} (hp : Uses m p) : p ∉ m.free := by
  rcases hp with ⟨va, k, hk, hwalk⟩ | ⟨va, hpage⟩
  · exact (h.wf.table k hk va p hwalk).2
  · exact h.notFree va p hpage

/-- Two memories that agree on the tables have the same walks and entries. -/
structure SameTables (m m' : Paging) : Prop where
  pt : m'.pt = m.pt
  word : ∀ va, ∀ k ≤ 3, ∀ t, walk m va k = some t → ∀ a, pageBase a = t → m'.word a = m.word a

section SameTables

variable {m m' : Paging}

section

variable (h : SameTables m m') (hwf : Wf m)
include h hwf

theorem SameTables.walk (va : UInt64) {k : Nat} (hk : k ≤ 3) : walk m' va k = walk m va k := by
  refine walk_congr h.pt fun j hj t ht => h.word va j (by omega) t ht _ ?_
  exact pageBase_entry (hwf.table j (by omega) va t ht).1 (index_lt _ _)

theorem SameTables.seen (va : UInt64) : seen m' va = seen m va := by
  have hwalk := h.walk hwf va le_rfl
  cases ht : Pt.walk m va 3 with
  | none => rw [seen_none ht, seen_none (hwalk.trans ht)]
  | some t =>
    rw [seen_some ht, seen_some (hwalk.trans ht)]
    exact h.word va 3 le_rfl t ht _ (pageBase_entry (hwf.table 3 le_rfl va t ht).1 (index_lt _ _))

theorem SameTables.pageAt (va : UInt64) : pageAt m' va = pageAt m va :=
  congrArg follow (h.seen hwf va)

theorem SameTables.uses (p : UInt64) : Uses m' p ↔ Uses m p := by
  unfold Uses
  simp only [h.pageAt hwf]
  refine or_congr_left ⟨?_, ?_⟩
  · rintro ⟨va, k, hk, hp⟩
    exact ⟨va, k, hk, (h.walk hwf va hk).symm.trans hp⟩
  · rintro ⟨va, k, hk, hp⟩
    exact ⟨va, k, hk, (h.walk hwf va hk).trans hp⟩

end

/-- A space depends on the pages it uses, as long as none of them becomes free. -/
theorem UserSpace.refree (hspace : UserSpace m) (h : SameTables m m') (hfree : FreePages m'.free)
    (hout : ∀ p, Uses m p → p ∉ m'.free) : UserSpace m' where
  wf :=
    { root := h.pt ▸ hspace.wf.root
      free := hfree
      table := fun k hk va t ht => by
        rw [h.walk hspace.wf va hk] at ht
        exact ⟨(hspace.wf.table k hk va t ht).1, hout t (.inl ⟨va, k, hk, ht⟩)⟩
      separate := fun k hk k' hk' va va' t ht ht' => by
        rw [h.walk hspace.wf va hk] at ht
        rw [h.walk hspace.wf va' hk'] at ht'
        exact hspace.wf.separate k hk k' hk' va va' t ht ht' }
  notFree va p hp := by
    rw [h.pageAt hspace.wf] at hp
    exact hout p (.inr ⟨va, hp⟩)
  notTable va p hp va' k hk := by
    rw [h.pageAt hspace.wf] at hp
    rw [h.walk hspace.wf va' hk]
    exact hspace.notTable va p hp va' k hk

theorem UserSpace.transfer (hspace : UserSpace m) (h : SameTables m m') (hfree : FreePages m'.free)
    (hsub : m'.free ⊆ m.free) : UserSpace m' :=
  hspace.refree h hfree fun _ hp hin => hspace.not_free hp (hsub hin)

/-- Words change in pages that the space does not use: all its bytes stay. -/
theorem UserSpace.frame (hspace : UserSpace m) (hpt : m'.pt = m.pt)
    (hword : ∀ a, Uses m (pageBase a) → m'.word a = m.word a) :
    SameTables m m' ∧ ∀ va, loadByte m' va = loadByte m va := by
  have hsame : SameTables m m' := by
    refine ⟨hpt, fun va k hk t ht a ha => hword a (.inl ⟨va, k, hk, ?_⟩)⟩
    rw [ha]
    exact ht
  refine ⟨hsame, fun va => ?_⟩
  unfold loadByte
  rw [hsame.pageAt hspace.wf]
  cases hp : pageAt m va with
  | none => rfl
  | some p =>
    refine congrArg some (readByte_page (kernelPage_of_follow hp) (fun a ha => hword a (.inr ⟨va, ?_⟩)) ?_)
    · rw [ha]
      exact hp
    · rw [toNat_offset]
      omega

/-- Words change in mapped pages: the map stays. -/
theorem UserSpace.sameTables (hspace : UserSpace m) {va p : UInt64} (hp : pageAt m va = some p) (hword : ∀ a, pageBase a ≠ p → word a = m.word a) : SameTables m { m with word := word } := by
  refine ⟨rfl, fun va' k hk t ht a ha => hword a fun heq => ?_⟩
  exact hspace.notTable va p hp va' k hk (by rw [ht, ← ha, heq])

end SameTables

/-! ## Growing -/

theorem pageAt_emptyRoot {p : UInt64} {free : List UInt64} (hp : KernelPage p) (va q : UInt64) :
    pageAt (emptyRoot m p free) va ≠ some q := by
  unfold pageAt
  rw [seen_emptyRoot hp, follow_zero]
  exact nofun

/-- A new `pgdir` maps nothing. -/
theorem emptyRoot_userSpace {p : UInt64} {free : List UInt64} (hfree : FreePages (p :: free)) :
    UserSpace (emptyRoot m p free) :=
  ⟨emptyRoot_wf hfree, fun va q hq => absurd hq (pageAt_emptyRoot (hfree.page p mem_cons_self) va q),
    fun va q hq => absurd hq (pageAt_emptyRoot (hfree.page p mem_cons_self) va q)⟩

/-- `alloc_page_for_user`: the page, with whatever is in it. -/
def allocPageForUser (m : Paging) : Except Stop (UInt64 × Paging) :=
  match m.free with
  | [] => .error .fault
  | ka :: free => .ok (ka, { m with free := free })

theorem allocPageForUser_cons {ka : UInt64} {free : List UInt64} (h : m.free = ka :: free) :
    allocPageForUser m = .ok (ka, { m with free := free }) := by
  unfold allocPageForUser
  rw [h]

theorem allocPageForUser_ok {m' : Paging} {ka : UInt64} (h : allocPageForUser m = .ok (ka, m')) :
    ∃ free, m.free = ka :: free ∧ m' = { m with free := free } := by
  unfold allocPageForUser at h
  cases hm : m.free with
  | nil =>
    rw [hm] at h
    cases h
  | cons p free =>
    rw [hm] at h
    obtain ⟨rfl, rfl⟩ := Prod.mk.inj (Except.ok.inj h)
    exact ⟨free, rfl, rfl⟩

/-- What `vmmap` does to the pages: free ones become tables, and only tables are written. -/
structure Extends (m m' : Paging) : Prop where
  pt : m'.pt = m.pt
  used : ∃ used, m.free = used ++ m'.free
  keep : ∀ k ≤ 3, ∀ va t, walk m va k = some t → walk m' va k = some t
  spent : ∀ p ∈ m.free, p ∉ m'.free → ∃ va, ∃ k ≤ 3, walk m' va k = some p
  fresh : ∀ k ≤ 3, ∀ va t, walk m' va k = some t → walk m va k = some t ∨ t ∈ m.free
  word : ∀ a, pageBase a ∉ m.free → (∀ va, ∀ k ≤ 3, walk m va k ≠ some (pageBase a)) → m'.word a = m.word a

theorem Extends.free_subset {m' : Paging} (h : Extends m m') : m'.free ⊆ m.free := by
  obtain ⟨used, hused⟩ := h.used
  rw [hused]
  exact subset_append_right used m'.free

theorem vmmap_extends {m' : Paging} {va ka flags : UInt64} (h : Wf m) (hmap : vmmap m va ka flags = .ok m') :
    Extends m m' := by
  obtain ⟨m₁, t, hwf, hgrows, ht, rfl⟩ := vmmap_spec h hmap
  refine ⟨hgrows.pt, hgrows.used, fun k hk va' u hu => ?_, fun p hin hout => ?_, fun k hk va' u hu => ?_,
    fun a hfree htable => ?_⟩
  · rw [walk_setEntry hwf ht _ va' hk]
    exact hgrows.keep k hk va' u hu
  · obtain ⟨va', k, hk, hwalk⟩ := hgrows.spent p hin hout
    exact ⟨va', k, hk, (walk_setEntry hwf ht _ va' hk).trans hwalk⟩
  · rw [walk_setEntry hwf ht _ va' hk] at hu
    exact hgrows.fresh k hk va' u hu
  · show Function.update m₁.word (entry t (index 3 va)) _ a = m.word a
    rw [Function.update_of_ne, hgrows.word a hfree fun va' k hk => htable va' k (by omega)]
    -- the table of the entry is an old one or was free
    rintro rfl
    rw [pageBase_entry (hwf.table 3 le_rfl va t ht).1 (index_lt _ _)] at hfree htable
    rcases hgrows.fresh 3 le_rfl va t ht with hold | hnew
    · exact htable va 3 le_rfl hold
    · exact hfree hnew

section MapNew

variable {m m' : Paging} {va ka flags : UInt64} {free : List UInt64} {word : UInt64 → UInt64}

/-- A free page, filled by `word`, has become the page of `va`. -/
structure MapsNew (m m' : Paging) (va ka flags : UInt64) (word : UInt64 → UInt64) : Prop where
  space : UserSpace m'
  pt : m'.pt = m.pt
  used : ∃ used, m.free = used ++ m'.free
  seen : ∀ va', seen m' va' = if vpn va' = vpn va then k2p ka ||| flags else Pt.seen m va'
  pageAt : ∀ va', pageAt m' va' = if vpn va' = vpn va then some ka else Pt.pageAt m va'
  uses : ∀ p, Uses m' p → Uses m p ∨ p ∈ m.free
  keep : ∀ k ≤ 3, ∀ va t, walk m va k = some t → walk m' va k = some t
  spent : ∀ p ∈ m.free, p ∉ m'.free → Uses m' p
  filled : ∀ a, pageBase a = ka → m'.word a = word a
  word : ∀ a, pageBase a ∉ m.free → (∀ va', ∀ k ≤ 3, walk m va' k ≠ some (pageBase a)) → m'.word a = m.word a

/-- The entry of a mapped page leads to it. -/
theorem follow_page (hka : KernelPage ka) (hflags : flags &&& addressMask = 0) (hvalid : isValid flags) :
    follow (k2p ka ||| flags) = some ka := by
  have hbit : isValid (k2p ka ||| flags) := by
    unfold isValid at hvalid ⊢
    rw [Words.or_and, ← k2p_and_mask hka, UInt64.and_assoc, show addressMask &&& pteValid = 0 from by decide,
      UInt64.and_zero, UInt64.zero_or]
    exact hvalid
  unfold follow
  rw [if_pos hbit, pteAddress_k2p hka hflags, p2k_k2p]

section

variable (h : UserSpace m) (hfree : m.free = ka :: free) (hword : ∀ a, pageBase a ≠ ka → word a = m.word a)
include h hfree hword

/-- Taking a free page and filling it touches no table. -/
theorem UserSpace.fill :
    SameTables m { m with word := word, free := free } ∧ UserSpace { m with word := word, free := free } := by
  have hpages : FreePages (ka :: free) := hfree ▸ h.wf.free
  have hsame : SameTables m { m with word := word, free := free } := by
    refine ⟨rfl, fun va' k hk t ht a ha => hword a fun heq => ?_⟩
    exact (h.wf.table k hk va' t ht).2 (by rw [← ha, heq, hfree]; exact mem_cons_self)
  exact ⟨hsame, h.transfer hsame hpages.tail (hfree ▸ subset_cons_self ka free)⟩

/-- It can be mapped while there are three more for the tables. -/
theorem UserSpace.vmmap_returns (hroom : 4 ≤ m.free.length) (va flags : UInt64) :
    ∃ m', vmmap { m with word := word, free := free } va ka flags = .ok m' ∧ m.free.length ≤ m'.free.length + 4 := by
  obtain ⟨-, hspace⟩ := h.fill hfree hword
  rw [hfree, length_cons] at hroom ⊢
  obtain ⟨pte, m', hget, hle⟩ := getPte_returns hspace.wf va (Nat.le_of_succ_le_succ hroom)
  refine ⟨{ m' with word := Function.update m'.word pte (k2p ka ||| flags) }, ?_, Nat.succ_le_succ hle⟩
  show (getPte _ va true >>= _) = _
  rw [hget]
  rfl

theorem UserSpace.mapNew (hflags : flags &&& addressMask = 0) (hvalid : isValid flags)
    (hmap : vmmap { m with word := word, free := free } va ka flags = .ok m') : MapsNew m m' va ka flags word := by
  have hpages : FreePages (ka :: free) := hfree ▸ h.wf.free
  have hkafree : ka ∈ m.free := hfree ▸ mem_cons_self
  have hsub : free ⊆ m.free := hfree ▸ subset_cons_self ka free
  obtain ⟨hsame, hspace⟩ := h.fill hfree hword
  have hwalk : ∀ va', ∀ k ≤ 3, walk { m with word := word, free := free } va' k = walk m va' k :=
    fun va' k hk => hsame.walk h.wf va' hk
  have hextends := vmmap_extends hspace.wf hmap
  have hseen : ∀ va', Pt.seen m' va' = if vpn va' = vpn va then k2p ka ||| flags else Pt.seen m va' := by
    intro va'
    rw [seen_vmmap hspace.wf hmap, hsame.seen h.wf]
  have hpageAt : ∀ va', Pt.pageAt m' va' = if vpn va' = vpn va then some ka else Pt.pageAt m va' := by
    intro va'
    unfold Pt.pageAt
    rw [hseen]
    split
    · exact follow_page (hpages.page ka mem_cons_self) hflags hvalid
    · rfl
  have hkatable : ∀ va', ∀ k ≤ 3, walk m va' k ≠ some ka := fun va' k hk ht => (h.wf.table k hk va' ka ht).2 hkafree
  -- a table is an old one or was free
  have htable : ∀ k ≤ 3, ∀ va' t, walk m' va' k = some t → walk m va' k = some t ∨ t ∈ free := by
    intro k hk va' t ht
    rcases hextends.fresh k hk va' t ht with hold | hnew
    · exact .inl ((hwalk va' k hk).symm.trans hold)
    · exact .inr hnew
  constructor
  case pt => exact hextends.pt
  case seen => exact hseen
  case pageAt => exact hpageAt
  case used =>
    obtain ⟨used, hused⟩ := hextends.used
    exact ⟨ka :: used, by rw [hfree, cons_append]; exact congrArg _ hused⟩
  case space =>
    refine ⟨vmmap_wf hspace.wf hmap, fun va' p hp => ?_, fun va' p hp va'' k hk ht => ?_⟩
    · rw [hpageAt] at hp
      intro hin
      split at hp
      · cases hp
        exact hpages.head_notMem (hextends.free_subset hin)
      · exact h.notFree va' p hp (hsub (hextends.free_subset hin))
    · rw [hpageAt] at hp
      split at hp
      · cases hp
        rcases htable k hk va'' ka ht with hold | hnew
        · exact hkatable va'' k hk hold
        · exact hpages.head_notMem hnew
      · rcases htable k hk va'' p ht with hold | hnew
        · exact h.notTable va' p hp va'' k hk hold
        · exact h.notFree va' p hp (hsub hnew)
  case uses =>
    rintro p (⟨va', k, hk, ht⟩ | ⟨va', hp⟩)
    · rcases htable k hk va' p ht with hold | hnew
      · exact .inl (.inl ⟨va', k, hk, hold⟩)
      · exact .inr (hsub hnew)
    · rw [hpageAt] at hp
      split at hp
      · exact .inr (Option.some.inj hp ▸ hkafree)
      · exact .inl (.inr ⟨va', hp⟩)
  case keep => exact fun k hk va' t ht => hextends.keep k hk va' t ((hwalk va' k hk).trans ht)
  case spent =>
    intro p hin hout
    rw [hfree] at hin
    rcases mem_cons.mp hin with rfl | hin
    · exact .inr ⟨va, by rw [hpageAt, if_pos rfl]⟩
    · exact .inl (hextends.spent p hin hout)
  case filled =>
    intro a ha
    refine hextends.word a (ha ▸ hpages.head_notMem) fun va' k hk => ?_
    rw [hwalk va' k hk, ha]
    exact hkatable va' k hk
  case word =>
    intro a hafree hatable
    have hne : pageBase a ≠ ka := fun heq => hafree (heq ▸ hkafree)
    rw [hextends.word a (fun hin => hafree (hsub hin)) fun va' k hk => by rw [hwalk va' k hk]; exact hatable va' k hk]
    exact hword a hne

end

/-- The bytes after mapping a new page. -/
theorem MapsNew.loadByte (h : MapsNew m m' va ka flags word) (hspace : UserSpace m) (hka : KernelPage ka) (va' : UInt64) :
    loadByte m' va' = if vpn va' = vpn va then some (readByte word (ka + va' % pageSize)) else Pt.loadByte m va' := by
  have hoff : (va' % pageSize).toNat < 4096 := by
    rw [toNat_offset]
    omega
  unfold Pt.loadByte
  rw [h.pageAt]
  by_cases heq : vpn va' = vpn va
  · rw [if_pos heq, if_pos heq]
    exact congrArg some (readByte_page hka h.filled hoff)
  · rw [if_neg heq, if_neg heq]
    cases hp : Pt.pageAt m va' with
    | none => rfl
    | some p =>
      refine congrArg some (readByte_page (kernelPage_of_follow hp) (fun a ha => ?_) hoff)
      refine h.word a (ha ▸ hspace.notFree va' p hp) fun va'' k hk => ?_
      rw [ha]
      exact hspace.notTable va' p hp va'' k hk

theorem MapsNew.distinct (h : MapsNew m m' va ka flags word) (hspace : UserSpace m) (hka : ka ∈ m.free)
    (hdistinct : Distinct m) : Distinct m' := by
  intro a b p ha hb
  rw [h.pageAt] at ha hb
  split at ha
  next hva =>
    split at hb
    next hvb => exact hva.trans hvb.symm
    next =>
      cases ha
      exact absurd hka (hspace.notFree b ka hb)
  next =>
    split at hb
    next =>
      cases hb
      exact absurd hka (hspace.notFree a ka ha)
    next => exact hdistinct a b p ha hb

end MapNew

end Armv8Os.Pt
