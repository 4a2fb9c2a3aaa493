/-
  The address space that `execve` builds.

  1. **Images** — what is known of an address space: the mapped pages, and of each of them the bytes that have been written.
     A page comes from the free list with whatever is in it, so a byte may be UNKNOWN.

  2. **Crux** — `Building m₀ m img`: the memory `m` shows the image, uses pages only that were free in `m₀`, and has changed
     nothing else.  It is kept by mapping a new page (`Building.map`) and by writing into a mapped one (`Building.write`).

  3. **Loading** — the loops of `load_seg` and `fill_bss` as functions on images.
-/
import Armv8Os.Kernel.Execve

namespace Armv8Os.Execve

open Mmu Words Pt List Option UInt64
open Function (update update_apply update_idem update_of_ne update_self)

/-! ## Images -/

/-- The mapped pages by their numbers, and their bytes as far as they are known. -/
abbrev Image := Nat → Option (Nat → Option UInt8)

/-- `len` bytes are written at offset `o` of page `n`. -/
def Image.write (img : Image) (n o len : Nat) (src : Nat → UInt8) : Image :=
  update img n ((img n).map fun f i => if o ≤ i ∧ i < o + len then some (src (i - o)) else f i)

/-- The new space `m` in a memory that was `m₀`. -/
structure Building (m₀ m : Paging) (img : Image) : Prop where
  space : UserSpace m
  clean : Clean m
  distinct : Distinct m
  low : ∀ va, seen m va &&& kspaceMask = 0
  used : ∃ used, m₀.free = used ++ m.free
  uses : ∀ p, Uses m p → p ∈ m₀.free
  word : ∀ a, pageBase a ∉ m₀.free → m.word a = m₀.word a
  mapped : ∀ va, (pageAt m va).isSome = (img (vpn va)).isSome
  bytes : ∀ va f b, img (vpn va) = some f → f (va.toNat % 4096) = some b → loadByte m va = some b

/-- Every page that was taken is in use. -/
def NoLeak (m₀ m : Paging) : Prop := ∀ p ∈ m₀.free, p ∈ m.free ∨ Uses m p

section Building

variable {m₀ m m' : Paging} {img : Image} {va ka flags : UInt64} {free : List UInt64} {word : UInt64 → UInt64}

theorem Building.free_subset (h : Building m₀ m img) : m.free ⊆ m₀.free := by
  obtain ⟨used, hused⟩ := h.used
  rw [hused]
  exact subset_append_right used m.free

/-- `init_pgdir` starts with nothing. -/
theorem initPgdir_building (hfree : FreePages m₀.free) (hinit : initPgdir m₀ = .ok m) :
    Building m₀ m (fun _ => none) ∧ NoLeak m₀ m := by
  obtain ⟨p, free, hm, rfl⟩ := initPgdir_ok hinit
  rw [hm] at hfree
  have hpage := hfree.page p mem_cons_self
  have hnone : ∀ va, pageAt (emptyRoot m₀ p free) va = none := by
    intro va
    unfold pageAt
    rw [seen_emptyRoot hpage, follow_zero]
  have hroot : ∀ q, Uses (emptyRoot m₀ p free) q → q = p := by
    rintro q (⟨va, k, -, hwalk⟩ | ⟨va, hq⟩)
    · rw [walk_emptyRoot hpage, ite_none_right_eq_some] at hwalk
      exact (some.inj hwalk.2).symm
    · exact absurd hq (pageAt_emptyRoot hpage va q)
  refine ⟨⟨emptyRoot_userSpace hfree, emptyRoot_clean hpage, fun va _ q hq => absurd hq (pageAt_emptyRoot hpage va q),
    fun va => ?_, ⟨[p], hm⟩, fun q hq => ?_, fun a ha => if_neg fun heq => ha ?_, fun va => ?_,
    fun _ f _ hf => (nomatch hf)⟩, fun q hq => ?_⟩
  · rw [seen_emptyRoot hpage, UInt64.zero_and]
  · rw [hroot q hq, hm]
    exact mem_cons_self
  · rw [hm, heq]
    exact mem_cons_self
  · rw [hnone]
    rfl
  · rw [hm] at hq
    rcases mem_cons.mp hq with rfl | hin
    · exact .inr (.inl ⟨0, 0, by omega, by rw [walk_emptyRoot hpage, if_pos rfl]⟩)
    · exact .inl hin

/-- A new page is mapped, of which the bytes `f` are known. -/
theorem Building.map (h : Building m₀ m img) (hfree : m.free = ka :: free)
    (hword : ∀ a, pageBase a ≠ ka → word a = m.word a) (hflags : flags &&& addressMask = 0) (hvalid : isValid flags)
    (hlow : flags &&& kspaceMask = 0) (hmap : vmmap { m with word := word, free := free } va ka flags = .ok m')
    {f : Nat → Option UInt8} (hf : ∀ o < 4096, ∀ b, f o = some b → readByte word (ka + UInt64.ofNat o) = b) :
    Building m₀ m' (update img (vpn va) (some f)) ∧ pageAt m' va = some ka ∧
      (img (vpn va) = none → NoLeak m₀ m → NoLeak m₀ m') := by
  have hnew := h.space.mapNew hfree hword hflags hvalid hmap
  have hkafree : ka ∈ m.free := hfree ▸ mem_cons_self
  have hkapage : KernelPage ka := h.space.wf.free.page ka hkafree
  obtain ⟨-, hspace⟩ := h.space.fill hfree hword
  have hpageAt := hnew.pageAt
  refine ⟨?_, by rw [hpageAt, if_pos rfl], fun hnone hleak p hp => ?_⟩
  · constructor
    case space => exact hnew.space
    case clean =>
      obtain ⟨hsame, -⟩ := h.space.fill hfree hword
      exact vmmap_clean hspace.wf (hsame.clean h.space.wf h.clean) hmap
    case distinct => exact hnew.distinct h.space hkafree h.distinct
    case low =>
      intro va'
      rw [hnew.seen]
      split
      · rw [Words.or_and, hlow, ← k2p_and_mask hkapage, UInt64.and_assoc, show addressMask &&& kspaceMask = 0 from by decide,
          UInt64.and_zero, UInt64.or_zero]
      · exact h.low va'
    case used =>
      obtain ⟨used, hused⟩ := h.used
      obtain ⟨used', hused'⟩ := hnew.used
      exact ⟨used ++ used', by rw [hused, hused', append_assoc]⟩
    case uses =>
      intro p hp
      rcases hnew.uses p hp with hold | hin
      · exact h.uses p hold
      · exact h.free_subset hin
    case word =>
      intro a ha
      rw [hnew.word a (fun hin => ha (h.free_subset hin)), h.word a ha]
      exact fun va' k hk ht => ha (h.uses _ (.inl ⟨va', k, hk, ht⟩))
    case mapped =>
      intro va'
      rw [hpageAt, update_apply]
      split
      · rfl
      · exact h.mapped va'
    case bytes =>
      intro va' g b hg hb
      rw [hnew.loadByte h.space hkapage]
      rw [update_apply] at hg
      split at hg
      next heq =>
        cases hg
        have hoff : va' % pageSize = UInt64.ofNat (va'.toNat % 4096) := by
          rw [← toNat_offset, UInt64.ofNat_toNat]
        rw [if_pos heq, hoff, hf _ (by omega) b hb]
      next hne =>
        rw [if_neg hne]
        exact h.bytes va' g b hg hb
  · -- a page in use stays in use, and a page that was taken is in use now
    by_cases hin : p ∈ m.free
    · by_cases hin' : p ∈ m'.free
      · exact .inl hin'
      · exact .inr (hnew.spent p hin hin')
    · refine .inr ?_
      rcases (hleak p hp).resolve_left hin with ⟨va', k, hk, ht⟩ | ⟨va', hva'⟩
      · exact .inl ⟨va', k, hk, hnew.keep k hk va' p ht⟩
      · refine .inr ⟨va', ?_⟩
        rw [hpageAt, if_neg, hva']
        intro heq
        have hmapped := h.mapped va'
        rw [hva', heq, hnone] at hmapped
        cases hmapped

/-- An image may say less. -/
theorem Building.forget (h : Building m₀ m img) {img' : Image} (hmapped : ∀ n, (img' n).isSome = (img n).isSome)
    (hbytes : ∀ n f f', img n = some f → img' n = some f' → ∀ i < 4096, ∀ b, f' i = some b → f i = some b) :
    Building m₀ m img' := by
  refine { h with mapped := fun va => (h.mapped va).trans (hmapped _).symm, bytes := fun va f' b hf' hb => ?_ }
  obtain ⟨f, hf⟩ := isSome_iff_exists.mp ((hmapped (vpn va)).symm.trans (hf' ▸ rfl))
  exact h.bytes va f b hf (hbytes _ f f' hf hf' _ (Nat.mod_lt _ (by decide)) b hb)

/-- Bytes are written into a mapped page. -/
theorem Building.write (h : Building m₀ m img) {p : UInt64} (hp : pageAt m va = some p) (o : UInt64) (len : Nat)
    (hlen : o.toNat + len ≤ 4096) (src : Nat → UInt8) :
    Building m₀ { m with word := blit m.word (p + o) len src } (img.write (vpn va) o.toNat len src) ∧
      (NoLeak m₀ m → NoLeak m₀ { m with word := blit m.word (p + o) len src }) ∧
      ∀ va', pageAt { m with word := blit m.word (p + o) len src } va' = pageAt m va' := by
  have hpage := kernelPage_of_follow hp
  have hword : ∀ a, pageBase a ≠ p → blit m.word (p + o) len src a = m.word a := fun a ha => blit_page hpage hlen ha
  have hsame := h.space.sameTables hp hword
  have huses := hsame.uses h.space.wf
  have hpageAt := hsame.pageAt h.space.wf
  refine ⟨?_, fun hleak q hq => ?_, hpageAt⟩
  · constructor
    case space => exact h.space.transfer hsame h.space.wf.free fun _ hx => hx
    case clean => exact hsame.clean h.space.wf h.clean
    case distinct =>
      intro a b q ha hb
      rw [hpageAt] at ha hb
      exact h.distinct a b q ha hb
    case low =>
      intro va'
      rw [hsame.seen h.space.wf]
      exact h.low va'
    case used => exact h.used
    case uses => exact fun q hq => h.uses q ((huses q).mp hq)
    case word =>
      intro a ha
      show blit m.word (p + o) len src a = m₀.word a
      rw [hword a fun heq => ha (heq ▸ h.uses p (.inr ⟨va, hp⟩)), h.word a ha]
    case mapped =>
      intro va'
      rw [hpageAt, h.mapped va']
      unfold Image.write
      rw [update_apply]
      split
      next heq => rw [isSome_map, heq]
      next => rfl
    case bytes =>
      intro va' g b hg hb
      have hoff : (va' % pageSize).toNat < 4096 := by
        rw [toNat_offset]
        omega
      unfold loadByte
      rw [hpageAt]
      unfold Image.write at hg
      rw [update_apply] at hg
      split at hg
      next heq =>
        rw [pageAt_vpn m heq, hp]
        obtain ⟨f, hf, rfl⟩ := map_eq_some_iff.mp hg
        have hold : ∀ b, f (va'.toNat % 4096) = some b → readByte m.word (p + va' % pageSize) = b := by
          intro b hb
          have hload := h.bytes va' f b (heq ▸ hf) hb
          unfold loadByte at hload
          rw [pageAt_vpn m heq, hp] at hload
          exact some.inj hload
        refine congrArg some ?_
        show readByte (blit m.word (p + o) len src) (p + va' % pageSize) = b
        rw [readByte_blit_page hpage hlen hoff, toNat_offset]
        change (if o.toNat ≤ va'.toNat % 4096 ∧ va'.toNat % 4096 < o.toNat + len then _ else _) = some b at hb
        split at hb
        next hin =>
          rw [if_pos hin]
          exact some.inj hb
        next hout =>
          rw [if_neg hout]
          exact hold b hb
      next hne =>
        have hold := h.bytes va' g b hg hb
        unfold loadByte at hold
        obtain ⟨q, hq, hbyte⟩ := map_eq_some_iff.mp hold
        rw [hq, map_some]
        refine congrArg some (Eq.trans ?_ hbyte)
        refine readByte_page (kernelPage_of_follow hq) (fun a ha => hword a fun heq => hne ?_) hoff
        exact h.distinct va' va p (hq.trans (congrArg some (ha.symm.trans heq))) hp
  · rcases hleak q hq with hin | hused
    · exact .inl hin
    · exact .inr ((huses q).mpr hused)

end Building

/-! ## Numbers -/

theorem toNat_pageUp {a : UInt64} (h : a.toNat + 4095 < 2 ^ 64) : (pageUp a).toNat = (a.toNat + 4095) / 4096 * 4096 := by
  unfold pageUp
  rw [toNat_pageBase, UInt64.toNat_add, show (pageSize - 1).toNat = 4095 from rfl, Nat.mod_eq_of_lt h]
  omega

theorem mem_pagesFrom {b e p : UInt64} (hb : b.toNat % 4096 = 0) (he : e.toNat % 4096 = 0) :
    p ∈ pagesFrom b e ↔ p.toNat % 4096 = 0 ∧ b.toNat ≤ p.toNat ∧ p.toNat < e.toNat := by
  have helt := e.toNat_lt
  show p ∈ (List.range ((e.toNat - b.toNat + 4095) / 4096)).map _ ↔ _
  rw [List.mem_map]
  constructor
  · rintro ⟨i, hi, rfl⟩
    have hi' := List.mem_range.mp hi
    have hp := toNat_page (b := b) (i := i) (by omega)
    change (b + pageSize * UInt64.ofNat i).toNat % 4096 = 0 ∧ b.toNat ≤ (b + pageSize * UInt64.ofNat i).toNat ∧
      (b + pageSize * UInt64.ofNat i).toNat < e.toNat
    omega
  · rintro ⟨halign, hle, hlt⟩
    have hi : (p.toNat - b.toNat) / 4096 < (e.toNat - b.toNat + 4095) / 4096 := by omega
    refine ⟨(p.toNat - b.toNat) / 4096, List.mem_range.mpr hi, UInt64.toNat_inj.mp ?_⟩
    exact (toNat_page (b := b) (by omega)).trans (by omega)

theorem vpn_of_lt {a : UInt64} (h : a.toNat < 2 ^ 48) : vpn a = a.toNat / 4096 := by
  unfold vpn
  omega

/-- Below 2^48 the pages of a range have different numbers. -/
theorem nodup_pagesFrom {b e : UInt64} (hb : b.toNat % 4096 = 0) (he : e.toNat % 4096 = 0) (hle : e.toNat ≤ 2 ^ 48) :
    ((pagesFrom b e).map vpn).Nodup := by
  show (((List.range ((e.toNat - b.toNat + 4095) / 4096)).map _).map vpn).Nodup
  rw [List.map_map]
  refine List.nodup_range.map_on fun i hi j hj heq => ?_
  rw [List.mem_range] at hi hj
  have hi := toNat_page (b := b) (i := i) (by omega)
  have hj := toNat_page (b := b) (i := j) (by omega)
  change vpn (b + pageSize * UInt64.ofNat i) = vpn (b + pageSize * UInt64.ofNat j) at heq
  rw [vpn_of_lt (by omega), vpn_of_lt (by omega)] at heq
  omega

/-- The part of a page that a segment covers. -/
theorem filePart_eq {va sz p fileOff pageOff n : UInt64} (hwrap : va.toNat + sz.toNat + 4096 ≤ 2 ^ 64)
    (hp : p ∈ pagesFrom (pageBase va) (pageUp (va + sz))) (hpart : filePart va sz p = (fileOff, pageOff, n)) :
    fileOff.toNat = p.toNat - va.toNat ∧ pageOff.toNat = va.toNat - p.toNat ∧
      n.toNat = min (va.toNat + sz.toNat) (p.toNat + 4096) - max p.toNat va.toNat ∧ va.toNat < p.toNat + 4096 ∧
      p.toNat < va.toNat + sz.toNat ∧ p.toNat % 4096 = 0 := by
  have hend : (va + sz).toNat = va.toNat + sz.toNat := by
    rw [UInt64.toNat_add]
    omega
  have hbase := toNat_pageBase va
  have hup := toNat_pageUp (a := va + sz) (by omega)
  obtain ⟨halign, hle, hlt⟩ := (mem_pagesFrom (by omega) (by omega)).mp hp
  have hnext : (p + pageSize).toNat = p.toNat + 4096 := by
    rw [UInt64.toNat_add, toNat_pageSize]
    omega
  unfold filePart at hpart
  simp only [Prod.mk.injEq] at hpart
  obtain ⟨hfile, hpage, hn⟩ := hpart
  have hfileOff : fileOff.toNat = p.toNat - va.toNat := by
    rw [← hfile]
    split
    next hcase =>
      have := lt_iff_toNat_lt.mp hcase
      rw [show (0 : UInt64).toNat = 0 from rfl]
      omega
    next hcase =>
      have := mt lt_iff_toNat_lt.mpr hcase
      rw [toNat_diff (by omega)]
  have hpageOff : pageOff.toNat = va.toNat - p.toNat := by
    rw [← hpage]
    split
    next hcase =>
      have := lt_iff_toNat_lt.mp hcase
      rw [toNat_diff (by omega)]
    next hcase =>
      have := mt lt_iff_toNat_lt.mpr hcase
      rw [show (0 : UInt64).toNat = 0 from rfl]
      omega
  rw [hpage] at hn
  have hsize : n.toNat = min (va.toNat + sz.toNat) (p.toNat + 4096) - max p.toNat va.toNat := by
    rw [← hn]
    split
    next hcase =>
      have hlt' := lt_iff_toNat_lt.mp hcase
      have hone : (va + sz - p).toNat = va.toNat + sz.toNat - p.toNat := by
        rw [toNat_diff (by omega), hend]
      rw [toNat_diff (by omega), hone]
      omega
    next hcase =>
      have hge := mt lt_iff_toNat_lt.mpr hcase
      rw [toNat_diff (by rw [toNat_pageSize]; omega), toNat_pageSize]
      omega
  exact ⟨hfileOff, hpageOff, hsize, by omega, by omega, halign⟩

/-- What a read that returns has read. -/
theorem inodeRead_ok {file bytes : List UInt8} {off n r : UInt64} (hfile : file.length < 2 ^ 32)
    (h : inodeRead file off n = .ok (r, bytes)) :
    off.toNat ≤ file.length ∧ r.toNat = min n.toNat (file.length - off.toNat) ∧
      bytes = (file.drop off.toNat).take r.toNat ∧ bytes.length = r.toNat := by
  have hsize : (UInt64.ofNat file.length).toNat = file.length := by
    rw [UInt64.toNat_ofNat']
    omega
  obtain ⟨count, hcount⟩ : ∃ c, c = if UInt64.ofNat file.length < n + off then UInt64.ofNat file.length - off else n :=
    ⟨_, rfl⟩
  unfold inodeRead at h
  dsimp only at h
  rw [← hcount, ite_eq_iff] at h
  obtain ⟨⟨hoff, hlast, hwrap⟩, hr⟩ := h.resolve_right fun hbad => (nomatch hbad.2)
  obtain ⟨rfl, rfl⟩ := Prod.mk.inj (Except.ok.inj hr)
  have hoff' := UInt64.le_iff_toNat_le.mp hoff
  have hwrap' := UInt64.le_iff_toNat_le.mp hwrap
  have hlast' := UInt64.le_iff_toNat_le.mp hlast
  rw [hsize] at hoff' hlast'
  rw [UInt64.toNat_add] at hwrap' hlast'
  have hn := n.toNat_lt
  have hmin : count.toNat = min n.toNat (file.length - off.toNat) := by
    rw [hcount]
    split
    next hcase =>
      have hlt := UInt64.lt_iff_toNat_lt.mp hcase
      rw [hsize, UInt64.toNat_add] at hlt
      rw [UInt64.toNat_sub_of_le _ _ hoff, hsize]
      omega
    next hcase =>
      rw [if_neg hcase] at hcount
      subst hcount
      omega
  refine ⟨hoff', hmin, rfl, ?_⟩
  rw [List.length_take, List.length_drop, hmin]
  omega

/-- A read inside the file. -/
theorem inodeRead_inside {file : List UInt8} {off n : UInt64} (hfile : file.length < 2 ^ 32)
    (h : off.toNat + n.toNat ≤ file.length) : inodeRead file off n = .ok (n, (file.drop off.toNat).take n.toNat) := by
  have hsize : (UInt64.ofNat file.length).toNat = file.length := by
    rw [toNat_ofNat']
    omega
  have hsum : (off + n).toNat = off.toNat + n.toNat := by
    rw [UInt64.toNat_add]
    omega
  have hshort : ¬ UInt64.ofNat file.length < n + off := by
    rw [UInt64.lt_iff_toNat_lt, hsize, UInt64.add_comm, hsum]
    omega
  unfold inodeRead
  dsimp only
  rw [if_neg hshort]
  refine if_pos ⟨le_iff_toNat_le.mpr ?_, le_iff_toNat_le.mpr ?_, le_iff_toNat_le.mpr ?_⟩
  · omega
  · omega
  · omega

theorem paging_eq_ok {α : Type} {x : Except Pt.Stop α} {a : α} : paging x = .ok a ↔ x = .ok a := by
  cases x with
  | ok b => exact ⟨fun h => congrArg _ (Except.ok.inj h), fun h => congrArg _ (Except.ok.inj h)⟩
  | error _ => exact ⟨(nomatch ·), (nomatch ·)⟩

/-! ## `load_seg` -/

/-- The byte of a segment at an address. -/
def segByte (file : List UInt8) (va offset sz a : Nat) : Option UInt8 :=
  if va ≤ a ∧ a < va + sz then some (file.getD (offset + (a - va)) 0) else none

section LoadSeg

variable {m₀ m m' : Paging} {img : Image} {file : List UInt8} {va offset sz flags p : UInt64} {ok : Bool}

variable (h : Building m₀ m img) (hfile : file.length < 2 ^ 32) (hwrap : va.toNat + sz.toNat ≤ 2 ^ 48)
  (hflags : flags &&& addressMask = 0) (hvalid : isValid flags) (hlow : flags &&& kspaceMask = 0)
include h hfile hwrap hflags hvalid hlow

/-- One round of `load_seg`: a page is mapped, and if the read was complete, the bytes of the segment are in it. -/
theorem loadPage_building (hp : p ∈ pagesFrom (pageBase va) (pageUp (va + sz)))
    (hload : loadPage file va offset sz flags m p = .ok (ok, m')) :
    ∃ f, Building m₀ m' (update img (vpn p) (some f)) ∧ (img (vpn p) = none → NoLeak m₀ m → NoLeak m₀ m') ∧
      (ok = true → (va.toNat < p.toNat → offset.toNat ≤ file.length) →
        offset.toNat ≤ file.length ∧ offset.toNat + (min (va.toNat + sz.toNat) (p.toNat + 4096) - va.toNat) ≤ file.length ∧
          ∀ i < 4096, f i = segByte file va.toNat offset.toNat sz.toNat (p.toNat + i)) := by
  obtain ⟨⟨fileOff, pageOff, n⟩, hpart⟩ : ∃ part, filePart va sz p = part := ⟨_, rfl⟩
  obtain ⟨hfileOff, hpageOff, hn, hbefore, hafter, halign⟩ := filePart_eq (by omega) hp hpart
  unfold loadPage at hload
  rw [hpart] at hload
  obtain ⟨⟨ka, m₁⟩, halloc, hload⟩ := bind_eq_ok.mp hload
  obtain ⟨m₂, hmap, hload⟩ := bind_eq_ok.mp hload
  obtain ⟨⟨r, bytes⟩, hread, hload⟩ := bind_eq_ok.mp hload
  obtain ⟨hok, rfl⟩ := Prod.mk.inj (Except.ok.inj hload)
  obtain ⟨free, hfree, rfl⟩ := allocPageForUser_ok (paging_eq_ok.mp halloc)
  obtain ⟨hoffset, hr, hbytes, hlength⟩ := inodeRead_ok hfile hread
  obtain ⟨hnew, hat, hleak⟩ :=
    h.map hfree (fun _ _ => rfl) hflags hvalid hlow (paging_eq_ok.mp hmap) (f := fun _ => none) fun _ _ _ hb => (nomatch hb)
  obtain ⟨hwritten, hleak', -⟩ :=
    hnew.write hat pageOff bytes.length (by omega) fun i => bytes.getD i 0
  refine ⟨fun i => if pageOff.toNat ≤ i ∧ i < pageOff.toNat + bytes.length then some (bytes.getD (i - pageOff.toNat) 0) else none,
    ?_, fun hnone hm => hleak' (hleak hnone hm), fun htrue hfirst => ?_⟩
  · unfold Image.write at hwritten
    rw [update_self, map_some, update_idem] at hwritten
    exact hwritten
  · have hfull : r.toNat = n.toNat := congrArg UInt64.toNat (eq_of_beq (hok.trans htrue))
    -- the first page is read from `offset` itself, so that the sum does not wrap afterwards
    have hstart : (offset + fileOff).toNat = offset.toNat + fileOff.toNat ∧ offset.toNat ≤ file.length := by
      have hlt := offset.toNat_lt
      rw [UInt64.toNat_add] at hoffset ⊢
      by_cases hcase : va.toNat < p.toNat
      · omega
      · omega
    obtain ⟨hsum, hle⟩ := hstart
    refine ⟨hle, by omega, fun i hi => ?_⟩
    show (if _ then _ else _) = _
    unfold segByte
    by_cases hin : va.toNat ≤ p.toNat + i ∧ p.toNat + i < va.toNat + sz.toNat
    · rw [if_pos hin, if_pos (by omega), hbytes]
      refine congrArg some ?_
      rw [getD_eq_getElem?_getD, getD_eq_getElem?_getD, getElem?_take_of_lt (by omega), getElem?_drop]
      refine congrArg (Option.getD · 0) (congrArg (file[·]?) ?_)
      omega
    · rw [if_neg hin, if_neg (by omega)]

/-- The loop of `load_seg`. -/
theorem loadPages_building {ps : List UInt64} (hps : ∀ p ∈ ps, p ∈ pagesFrom (pageBase va) (pageUp (va + sz)))
    (hnodup : (ps.map vpn).Nodup) (hload : loadPages file va offset sz flags ps m = .ok (ok, m')) :
    ∃ img', Building m₀ m' img' ∧ (∀ n, (∀ p ∈ ps, vpn p ≠ n) → img' n = img n) ∧
      ((∀ p ∈ ps, img (vpn p) = none) → NoLeak m₀ m → NoLeak m₀ m') ∧
      (ok = true → (∀ p ∈ ps.head?, va.toNat < p.toNat → offset.toNat ≤ file.length) →
        ∀ p ∈ ps, offset.toNat + (min (va.toNat + sz.toNat) (p.toNat + 4096) - va.toNat) ≤ file.length ∧
          ∃ f, img' (vpn p) = some f ∧ ∀ i < 4096, f i = segByte file va.toNat offset.toNat sz.toNat (p.toNat + i)) := by
  induction ps generalizing m img with
  | nil =>
    obtain ⟨-, rfl⟩ := Prod.mk.inj (Except.ok.inj hload)
    exact ⟨img, h, fun _ _ => rfl, fun _ hm => hm, fun _ _ p hp => (nomatch hp)⟩
  | cons p ps ih =>
    obtain ⟨⟨ok₁, m₁⟩, hone, hrest⟩ := bind_eq_ok.mp hload
    obtain ⟨hp, hps⟩ := forall_mem_cons.mp hps
    rw [map_cons, nodup_cons] at hnodup
    obtain ⟨hnot, hnodup⟩ := hnodup
    obtain ⟨f, hbuild, hleak, hbytes⟩ := loadPage_building h hfile hwrap hflags hvalid hlow hp hone
    have hother : ∀ q ∈ ps, vpn q ≠ vpn p := fun q hq heq => hnot (heq ▸ mem_map_of_mem hq)
    cases ok₁ with
    | false =>
      obtain ⟨rfl, rfl⟩ := Prod.mk.inj (Except.ok.inj hrest)
      refine ⟨_, hbuild, fun n hn => update_of_ne (Ne.symm (hn p mem_cons_self)) _ _,
        fun hnone hm => hleak (hnone p mem_cons_self) hm, fun htrue => (nomatch htrue)⟩
    | true =>
      obtain ⟨img', hbuild', hsame, hleak', hbytes'⟩ := ih hbuild hps hnodup hrest
      refine ⟨img', hbuild', fun n hn => ?_, fun hnone hm => ?_, fun htrue hfirst => ?_⟩
      · rw [hsame n fun q hq => hn q (mem_cons_of_mem p hq)]
        exact update_of_ne (Ne.symm (hn p mem_cons_self)) _ _
      · refine hleak' (fun q hq => ?_) (hleak (hnone p mem_cons_self) hm)
        rw [update_of_ne (hother q hq)]
        exact hnone q (mem_cons_of_mem p hq)
      · obtain ⟨hle, hread, hf⟩ := hbytes rfl (hfirst p rfl)
        refine forall_mem_cons.mpr ⟨⟨hread, f, ?_, hf⟩, hbytes' htrue fun _ _ _ => hle⟩
        rw [hsame (vpn p) hother, update_self]

end LoadSeg

/-! ## `fill_bss` -/

/-- `P2K(PTE_ADDRESS(*get_pte(pd, va, false)))` is the page, if there is one. -/
theorem pageAt_of_getPte {m m' : Paging} {va pte : UInt64} (hget : getPte m va false = .ok (pte, m'))
    (hmapped : (pageAt m va).isSome) : pageAt m va = some (p2k (pteAddress (m.word pte))) := by
  obtain ⟨q, hq⟩ := isSome_iff_exists.mp hmapped
  rw [getPte_false] at hget
  cases hwalk : walk m va 3 with
  | none =>
    rw [hwalk] at hget
    cases hget
  | some t =>
    rw [hwalk] at hget
    obtain ⟨rfl, -⟩ := Prod.mk.inj (Except.ok.inj hget)
    rw [hq, ← seen_some hwalk]
    exact (ite_none_right_eq_some.mp hq).2.symm

section FillBss

variable {m₀ m m' : Paging} {img : Image} {va stop p : UInt64}

/-- One round of `fill_bss`: zeros from `va` on. -/
theorem bssPage_building (h : Building m₀ m img) (hnear : va.toNat < p.toNat + 4096)
    (hshared : p < va → (img (vpn p)).isSome) (hbss : bssPage va m p = .ok m') :
    ∃ f, Building m₀ m' (update img (vpn p) (some f)) ∧
      ((va ≤ p → img (vpn p) = none) → NoLeak m₀ m → NoLeak m₀ m') ∧
      ∀ i < 4096, f i = if va.toNat ≤ p.toNat + i then some 0 else (img (vpn p)).bind (· i) := by
  unfold bssPage at hbss
  split at hbss
  next hlt =>
    have hlt' := lt_iff_toNat_lt.mp hlt
    have hoff : (va - p).toNat = va.toNat - p.toNat := toNat_diff (by omega)
    have hlen : (pageSize - (va - p)).toNat = 4096 - (va.toNat - p.toNat) := by
      rw [toNat_diff (by rw [hoff, toNat_pageSize]; omega), hoff, toNat_pageSize]
    obtain ⟨⟨pte, m₁⟩, hget, hbss⟩ := bind_eq_ok.mp hbss
    obtain rfl := Except.ok.inj hbss
    obtain ⟨f, hf⟩ := isSome_iff_exists.mp (hshared hlt)
    have hat := pageAt_of_getPte (paging_eq_ok.mp hget) ((h.mapped p).trans (hshared hlt))
    obtain ⟨hwritten, hleak, -⟩ := h.write hat (va - p) (pageSize - (va - p)).toNat (by omega) fun _ => 0
    refine ⟨fun i => if (va - p).toNat ≤ i ∧ i < (va - p).toNat + (pageSize - (va - p)).toNat then some 0 else f i,
      ?_, fun _ hm => hleak hm, fun i hi => ?_⟩
    · unfold Image.write at hwritten
      rw [hf, map_some] at hwritten
      exact hwritten
    · show (if _ then _ else _) = _
      rw [hoff, hlen, hf, bind_some]
      exact if_congr (by omega) rfl rfl
  next hge =>
    have hge' := mt lt_iff_toNat_lt.mpr hge
    obtain ⟨⟨ka, m₁⟩, halloc, hbss⟩ := bind_eq_ok.mp hbss
    obtain ⟨m₂, hmap, hbss⟩ := bind_eq_ok.mp hbss
    obtain rfl := Except.ok.inj hbss
    obtain ⟨free, hfree, rfl⟩ := allocPageForUser_ok (paging_eq_ok.mp halloc)
    obtain ⟨hnew, hat, hleak⟩ := h.map hfree (fun _ _ => rfl) (by decide) (by decide) (by decide) (paging_eq_ok.mp hmap)
      (f := fun _ => none) fun _ _ _ hb => (nomatch hb)
    obtain ⟨hwritten, hleak', -⟩ := hnew.write hat 0 4096 (by decide) fun _ => 0
    rw [UInt64.add_zero] at hwritten hleak'
    refine ⟨fun i => if 0 ≤ i ∧ i < 0 + 4096 then some 0 else none, ?_,
      fun hnone hm => hleak' (hleak (hnone (UInt64.not_lt.mp hge)) hm), fun i hi => ?_⟩
    · unfold Image.write at hwritten
      rw [update_self, map_some, update_idem] at hwritten
      exact hwritten
    · show (if _ then _ else _) = _
      rw [if_pos (by omega), if_pos (by omega)]

/-- The loop of `fill_bss`. -/
theorem bssPages_building {ps : List UInt64} (h : Building m₀ m img) (hnear : ∀ p ∈ ps, va.toNat < p.toNat + 4096)
    (hnodup : (ps.map vpn).Nodup) (hshared : ∀ p ∈ ps, p < va → (img (vpn p)).isSome)
    (hbss : ps.foldlM (bssPage va) m = .ok m') :
    ∃ img', Building m₀ m' img' ∧ (∀ n, (∀ p ∈ ps, vpn p ≠ n) → img' n = img n) ∧
      ((∀ p ∈ ps, va ≤ p → img (vpn p) = none) → NoLeak m₀ m → NoLeak m₀ m') ∧
      ∀ p ∈ ps, ∃ f, img' (vpn p) = some f ∧
        ∀ i < 4096, f i = if va.toNat ≤ p.toNat + i then some 0 else (img (vpn p)).bind (· i) := by
  induction ps generalizing m img with
  | nil =>
    obtain rfl := Except.ok.inj hbss
    exact ⟨img, h, fun _ _ => rfl, fun _ hm => hm, fun p hp => (nomatch hp)⟩
  | cons p ps ih =>
    obtain ⟨m₁, hone, hrest⟩ := bind_eq_ok.mp hbss
    obtain ⟨hp, hps⟩ := forall_mem_cons.mp hnear
    obtain ⟨hpshared, hsharedRest⟩ := forall_mem_cons.mp hshared
    rw [map_cons, nodup_cons] at hnodup
    obtain ⟨hnot, hnodup⟩ := hnodup
    have hother : ∀ q ∈ ps, vpn q ≠ vpn p := fun q hq heq => hnot (heq ▸ mem_map_of_mem hq)
    obtain ⟨f, hbuild, hleak, hbytes⟩ := bssPage_building h hp hpshared hone
    have hold : ∀ q ∈ ps, update img (vpn p) (some f) (vpn q) = img (vpn q) :=
      fun q hq => update_of_ne (hother q hq) _ _
    obtain ⟨img', hbuild', hsame, hleak', hbytes'⟩ :=
      ih hbuild hps hnodup (fun q hq hlt => hold q hq ▸ hsharedRest q hq hlt) hrest
    refine ⟨img', hbuild', fun n hn => ?_, fun hnone hm => ?_, forall_mem_cons.mpr ⟨⟨f, ?_, hbytes⟩, fun q hq => ?_⟩⟩
    · rw [hsame n fun q hq => hn q (mem_cons_of_mem p hq)]
      exact update_of_ne (Ne.symm (hn p mem_cons_self)) _ _
    · refine hleak' (fun q hq hle => ?_) (hleak (hnone p mem_cons_self) hm)
      rw [hold q hq]
      exact hnone q (mem_cons_of_mem p hq) hle
    · rw [hsame (vpn p) hother, update_self]
    · obtain ⟨g, hg, hgbytes⟩ := hbytes' q hq
      rw [hold q hq] at hgbytes
      exact ⟨g, hg, hgbytes⟩

end FillBss

/-! ## Giving pages back -/

/-- `kfree_page` on one page after the other, on none of them more often than there are references to it. -/
theorem foldl_kfreePage (ps : List UInt64) (s : State) (hcount : ∀ p, ps.count p ≤ s.extra p + 1) :
    ∃ freed, ps.foldl kfreePage s = { s with free := freed ++ s.free, extra := fun p => s.extra p - ps.count p } ∧
      freed.Nodup ∧ ∀ p, p ∈ freed ↔ ps.count p = s.extra p + 1 := by
  induction ps generalizing s with
  | nil => exact ⟨[], rfl, nodup_nil, fun p => ⟨(nomatch ·), (nomatch ·)⟩⟩
  | cons q ps ih =>
    have hq := hcount q
    rw [count_cons_self] at hq
    have hother : ∀ p, p ≠ q → (q :: ps).count p = ps.count p := fun p hp => count_cons_of_ne (Ne.symm hp)
    have hrest : ∀ p, ps.count p ≤ (q :: ps).count p := fun p => List.Sublist.count_le p (sublist_cons_self q ps)
    rw [foldl_cons]
    by_cases hzero : s.extra q = 0
    · rw [show kfreePage s q = { s with free := q :: s.free } from if_pos hzero]
      obtain ⟨freed, hfold, hnodup, hmem⟩ := ih { s with free := q :: s.free } fun p => (hrest p).trans (hcount p)
      have hnot : q ∉ freed := by
        intro hin
        have := (hmem q).mp hin
        omega
      refine ⟨freed ++ [q], ?_, ?_, fun p => ?_⟩
      · rw [hfold, append_assoc]
        refine congrArg (fun extra => { s with free := freed ++ q :: s.free, extra := extra }) (funext fun p => ?_)
        by_cases hp : p = q
        · subst hp
          rw [hzero, Nat.zero_sub, Nat.zero_sub]
        · rw [hother p hp]
      · exact nodup_append.mpr ⟨hnodup, nodup_singleton q, fun a ha b hb hab => hnot (by simp_all)⟩
      · rw [mem_append, mem_singleton, hmem]
        by_cases hp : p = q
        · subst hp
          rw [count_cons_self]
          exact ⟨fun _ => by omega, fun _ => .inr rfl⟩
        · rw [hother p hp]
          exact ⟨fun h => h.resolve_right hp, .inl⟩
    · rw [show kfreePage s q = { s with extra := update s.extra q (s.extra q - 1) } from if_neg hzero]
      have hextra : ∀ p, update s.extra q (s.extra q - 1) p = if p = q then s.extra q - 1 else s.extra p :=
        fun p => update_apply ..
      obtain ⟨freed, hfold, hnodup, hmem⟩ := ih { s with extra := update s.extra q (s.extra q - 1) } fun p => by
        show ps.count p ≤ update s.extra q (s.extra q - 1) p + 1
        rw [hextra]
        split
        next heq =>
          subst heq
          omega
        next => exact (hrest p).trans (hcount p)
      refine ⟨freed, ?_, hnodup, fun p => ?_⟩
      · rw [hfold]
        refine congrArg (fun extra => { s with free := freed ++ s.free, extra := extra }) (funext fun p => ?_)
        show update s.extra q (s.extra q - 1) p - ps.count p = _
        rw [hextra]
        split
        next heq =>
          subst heq
          rw [count_cons_self]
          omega
        next hne => rw [hother p hne]
      · rw [hmem]
        show ps.count p = update s.extra q (s.extra q - 1) p + 1 ↔ _
        rw [hextra]
        split
        next heq =>
          subst heq
          rw [count_cons_self]
          omega
        next hne => rw [hother p hne]

/-- Nothing else changes. -/
theorem foldl_kfreePage_frame (ps : List UInt64) (s : State) :
    ∃ free extra, ps.foldl kfreePage s = { s with free := free, extra := extra } := by
  induction ps generalizing s with
  | nil => exact ⟨s.free, s.extra, rfl⟩
  | cons p ps ih =>
    obtain ⟨free, extra, hfold⟩ := ih (kfreePage s p)
    refine ⟨free, extra, hfold.trans ?_⟩
    unfold kfreePage
    split
    · rfl
    · rfl

/-- Nothing else becomes free. -/
theorem mem_foldl_kfreePage {ps : List UInt64} {s : State} {p : UInt64} (hp : p ∈ (ps.foldl kfreePage s).free) :
    p ∈ ps ∨ p ∈ s.free := by
  induction ps generalizing s with
  | nil => exact .inr hp
  | cons q ps ih =>
    rcases ih hp with hin | hin
    · exact .inl (mem_cons_of_mem q hin)
    · unfold kfreePage at hin
      split at hin
      · rcases mem_cons.mp hin with rfl | hin
        · exact .inl mem_cons_self
        · exact .inr hin
      · exact .inr hin

end Armv8Os.Execve
