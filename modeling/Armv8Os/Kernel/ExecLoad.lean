/-
  The program headers: what `execve` loads.

  1. **Specification** — `Layout`: the image and the ranges of the two sections.  A header puts its bytes over the pages it
     touches, and its range into the section of its class, whatever range was there before (`Phdr.apply`).

  2. **Refinement** — the loops over pages and headers follow it (`loadPhdrs_holds`), page by page.

  3. **Failure** — a header that cannot be loaded leaves a part of its pages behind, all of them in the section
     (`loadPhdr_spec` with `ok = false`).
-/
import Armv8Os.Kernel.ExecSpace

namespace Armv8Os.Execve

open Mmu Words Pt

/-! ## Ranges of pages -/

section Range

variable {b e p va sz : UInt64} {n : Nat}

section

variable (hb : b.toNat % 4096 = 0) (he : e.toNat % 4096 = 0) (hle : e.toNat ≤ 2 ^ 48)
include hb he hle

theorem vpn_pagesFrom (hp : p ∈ pagesFrom b e) :
    p.toNat = vpn p * 4096 ∧ b.toNat / 4096 ≤ vpn p ∧ vpn p < e.toNat / 4096 := by
  obtain ⟨halign, hge, hlt⟩ := (mem_pagesFrom hb he).mp hp
  rw [vpn_of_lt (by omega)]
  omega

theorem exists_pagesFrom (hn : b.toNat / 4096 ≤ n) (hn' : n < e.toNat / 4096) : ∃ p ∈ pagesFrom b e, vpn p = n := by
  have hnat : (UInt64.ofNat (n * 4096)).toNat = n * 4096 := by
    rw [UInt64.toNat_ofNat']
    omega
  refine ⟨UInt64.ofNat (n * 4096), (mem_pagesFrom hb he).mpr ?_, ?_⟩
  · omega
  · rw [vpn_of_lt (by omega), hnat]
    omega

end

theorem head_pagesFrom (hp : p ∈ (pagesFrom b e).head?) : p = b := by
  unfold pagesFrom Section.pages at hp
  cases hcount : (e.toNat - b.toNat + 4095) / 4096 with
  | zero =>
    rw [hcount] at hp
    cases hp
  | succ k =>
    rw [hcount, List.range_succ_eq_map] at hp
    exact (Option.some.inj hp).symm.trans (UInt64.add_zero b)

/-- The range of a segment in numbers. -/
theorem segment_range (hsmall : va.toNat + sz.toNat ≤ 2 ^ 48) :
    (pageBase va).toNat = va.toNat / 4096 * 4096 ∧ (pageUp (va + sz)).toNat = (va.toNat + sz.toNat + 4095) / 4096 * 4096 := by
  have hsum : (va + sz).toNat = va.toNat + sz.toNat := by
    rw [UInt64.toNat_add]
    omega
  rw [toNat_pageBase, toNat_pageUp (by omega), hsum]
  omega

/-- The pages of a segment by their numbers. -/
theorem segment_pages (hsmall : va.toNat + sz.toNat ≤ 2 ^ 48) : ((pagesFrom (pageBase va) (pageUp (va + sz))).map vpn).Nodup ∧
    (∀ p ∈ pagesFrom (pageBase va) (pageUp (va + sz)), p.toNat = vpn p * 4096 ∧ va.toNat / 4096 ≤ vpn p ∧
      vpn p < (va.toNat + sz.toNat + 4095) / 4096) ∧
    ∀ n, va.toNat / 4096 ≤ n → n < (va.toNat + sz.toNat + 4095) / 4096 →
      ∃ p ∈ pagesFrom (pageBase va) (pageUp (va + sz)), vpn p = n := by
  obtain ⟨hbase, hup⟩ := segment_range hsmall
  have hb : (pageBase va).toNat % 4096 = 0 := by omega
  have he : (pageUp (va + sz)).toNat % 4096 = 0 := by omega
  have hle : (pageUp (va + sz)).toNat ≤ 2 ^ 48 := by omega
  refine ⟨nodup_pagesFrom hb he hle, fun p hp => ?_, fun n hn hn' => exists_pagesFrom hb he hle (by omega) (by omega)⟩
  obtain ⟨hpn, hge, hlt⟩ := vpn_pagesFrom hb he hle hp
  omega

end Range

/-! ## Segments -/

section Segment

variable {m₀ : Paging} {pd pd' : Pgdir} {img : Image} {file : List UInt8} {va offset sz flags : UInt64} {ok : Bool}
  {secs : List Section}

/-- The flags of `load_seg`. -/
theorem loadSeg_flags (flags : UInt64) :
    (if flags &&& stRo ≠ 0 then pteUserData ||| pteRo else pteUserData) &&& addressMask = 0 ∧
      isValid (if flags &&& stRo ≠ 0 then pteUserData ||| pteRo else pteUserData) ∧
      (if flags &&& stRo ≠ 0 then pteUserData ||| pteRo else pteUserData) &&& kspaceMask = 0 := by
  split
  · decide
  · decide

theorem loadSeg_spec (h : Building m₀ pd.m img) (hfile : file.length < 2 ^ 32) (hsmall : va.toNat + sz.toNat ≤ 2 ^ 48)
    (hset : setSection flags (fun sec => { sec with begin := pageBase va, stop := pageUp (va + sz) }) pd.sections = some secs)
    (hload : loadSeg pd va file offset sz flags = .ok (ok, pd')) :
    pd'.sections = secs ∧ ∃ img', Building m₀ pd'.m img' ∧
      (∀ n, ¬ (va.toNat / 4096 ≤ n ∧ n < (va.toNat + sz.toNat + 4095) / 4096) → img' n = img n) ∧
      ((∀ n, va.toNat / 4096 ≤ n → n < (va.toNat + sz.toNat + 4095) / 4096 → img n = none) → NoLeak m₀ pd.m → NoLeak m₀ pd'.m) ∧
      (ok = true → (0 < sz.toNat → offset.toNat + sz.toNat ≤ file.length) ∧
        ∀ n, va.toNat / 4096 ≤ n → n < (va.toNat + sz.toNat + 4095) / 4096 →
          ∃ f, img' n = some f ∧ ∀ i < 4096, f i = segByte file va.toNat offset.toNat sz.toNat (n * 4096 + i)) := by
  obtain ⟨hnodup, hrange, hpage⟩ := segment_pages hsmall
  unfold loadSeg at hload
  dsimp only at hload
  rw [hset] at hload
  obtain ⟨⟨ok₁, m⟩, hpages, hok⟩ := bind_eq_ok.mp hload
  obtain ⟨rfl, rfl⟩ := Prod.mk.inj (Except.ok.inj hok)
  obtain ⟨haddress, hvalid, hlow⟩ := loadSeg_flags flags
  obtain ⟨img', hbuild, hsame, hleak, hbytes⟩ := loadPages_building h hfile hsmall haddress hvalid hlow
    (fun _ hp => hp) hnodup hpages
  have hhead : ∀ p ∈ (pagesFrom (pageBase va) (pageUp (va + sz))).head?, va.toNat < p.toNat → offset.toNat ≤ file.length := by
    intro p hp hlt
    obtain rfl := head_pagesFrom hp
    have := toNat_pageBase va
    omega
  refine ⟨rfl, img', hbuild, fun n hn => hsame n fun p hp hvpn => hn ?_, fun hnone hm => hleak (fun p hp => hnone _ ?_ ?_) hm,
    fun htrue => ⟨fun hpos => ?_, fun n hn hn' => ?_⟩⟩
  · rw [← hvpn]
    exact (hrange p hp).2
  · exact (hrange p hp).2.1
  · exact (hrange p hp).2.2
  · -- the last page is read up to the end of the segment
    obtain ⟨p, hp, hvpn⟩ := hpage ((va.toNat + sz.toNat + 4095) / 4096 - 1) (by omega) (by omega)
    have hpn := (hrange p hp).1
    obtain ⟨hread, -⟩ := hbytes htrue hhead p hp
    omega
  · obtain ⟨p, hp, rfl⟩ := hpage n hn hn'
    rw [← (hrange p hp).1]
    exact (hbytes htrue hhead p hp).2

/-- The pages of `fill_bss`: only the first can begin before the zeros do. -/
theorem bss_pages (hsmall : va.toNat + sz.toNat ≤ 2 ^ 48) (hshared : va.toNat % 4096 ≠ 0 → (img (va.toNat / 4096)).isSome) :
    ∀ p ∈ pagesFrom (pageBase va) (pageUp (va + sz)), va.toNat < p.toNat + 4096 ∧ (p < va → (img (vpn p)).isSome) := by
  intro p hp
  have := (segment_pages hsmall).2.1 p hp
  refine ⟨by omega, fun hlt => ?_⟩
  have := UInt64.lt_iff_toNat_lt.mp hlt
  rw [show vpn p = va.toNat / 4096 from by omega]
  exact hshared (by omega)

theorem fillBss_spec (h : Building m₀ pd.m img) (hsmall : va.toNat + sz.toNat ≤ 2 ^ 48)
    (hset : setSection stBss (fun sec => { sec with stop := pageUp (va + sz) }) pd.sections = some secs)
    (hshared : va.toNat % 4096 ≠ 0 → (img (va.toNat / 4096)).isSome) (hload : fillBss pd va sz = .ok (ok, pd')) :
    ok = true ∧ pd'.sections = secs ∧ ∃ img', Building m₀ pd'.m img' ∧
      (∀ n, ¬ (va.toNat / 4096 ≤ n ∧ n < (va.toNat + sz.toNat + 4095) / 4096) → img' n = img n) ∧
      ((∀ n, (va.toNat + 4095) / 4096 ≤ n → n < (va.toNat + sz.toNat + 4095) / 4096 → img n = none) →
        NoLeak m₀ pd.m → NoLeak m₀ pd'.m) ∧
      ∀ n, va.toNat / 4096 ≤ n → n < (va.toNat + sz.toNat + 4095) / 4096 →
        ∃ f, img' n = some f ∧ ∀ i < 4096, f i = if va.toNat ≤ n * 4096 + i then some 0 else (img n).bind (· i) := by
  obtain ⟨hnodup, hrange, hpage⟩ := segment_pages hsmall
  unfold fillBss at hload
  dsimp only at hload
  rw [hset] at hload
  obtain ⟨m, hpages, hok⟩ := bind_eq_ok.mp hload
  obtain ⟨rfl, rfl⟩ := Prod.mk.inj (Except.ok.inj hok)
  have hbss := bss_pages hsmall hshared
  obtain ⟨img', hbuild, hsame, hleak, hbytes⟩ :=
    bssPages_building h (fun p hp => (hbss p hp).1) hnodup (fun p hp => (hbss p hp).2) hpages
  refine ⟨rfl, rfl, img', hbuild, fun n hn => hsame n fun p hp hvpn => hn ?_,
    fun hnone hm => hleak (fun p hp hge => hnone _ ?_ ?_) hm, fun n hn hn' => ?_⟩
  · rw [← hvpn]
    exact (hrange p hp).2
  · have := hrange p hp
    have := UInt64.le_iff_toNat_le.mp hge
    omega
  · exact (hrange p hp).2.2
  · obtain ⟨p, hp, rfl⟩ := hpage n hn hn'
    rw [← (hrange p hp).1]
    exact hbytes p hp

end Segment

/-! ## Headers -/

/-- Bytes, given by their addresses, over the pages from `lo` to `hi`. -/
def Image.cover (img : Image) (lo hi : Nat) (byte : Nat → Option UInt8) : Image :=
  fun n => if lo ≤ n ∧ n < hi then some fun i => byte (n * 4096 + i) else img n

namespace Phdr

/-- A header that `execve` loads. -/
def loads (ph : Phdr) : Bool := ph.isText || ph.isData

/-- The bytes it has pages for: of a text segment no more than those in the file. -/
def size (ph : Phdr) : UInt64 := if ph.isText then ph.filesz else ph.memsz

def first (ph : Phdr) : Nat := ph.vaddr.toNat / 4096

def last (ph : Phdr) : Nat := (ph.vaddr.toNat + ph.size.toNat + 4095) / 4096

/-- What is known at an address of its pages. -/
def byte (file : List UInt8) (ph : Phdr) (a : Nat) : Option UInt8 :=
  if ph.isText ∨ a < ph.vaddr.toNat + ph.filesz.toNat then
    segByte file ph.vaddr.toNat ph.offset.toNat ph.filesz.toNat a
  else some 0

/-- The segment lies in the user's half, and not more is in the file than in memory. -/
structure Placed (ph : Phdr) : Prop where
  fits : ph.filesz.toNat ≤ ph.size.toNat
  small : ph.vaddr.toNat + ph.size.toNat ≤ 2 ^ 48

end Phdr

/-- An image, and the ranges of the sections. -/
structure Layout where
  img : Image
  data : UInt64 × UInt64
  text : UInt64 × UInt64

def Layout.sections (L : Layout) : List Section := [⟨stData, L.data.1, L.data.2⟩, ⟨stText, L.text.1, L.text.2⟩]

/-- The section for the header gets a new range. -/
def Layout.place (L : Layout) (ph : Phdr) (img : Image) (stop : UInt64) : Layout where
  img := img
  data := if ph.isText then L.data else (pageBase ph.vaddr, stop)
  text := if ph.isText then (pageBase ph.vaddr, stop) else L.text

/-- What a header does. -/
def Phdr.apply (file : List UInt8) (L : Layout) (ph : Phdr) : Layout :=
  if ph.loads then
    L.place ph (L.img.cover ph.first ph.last (ph.byte file)) (pageUp (ph.vaddr + ph.size))
  else L

/-- A `pgdir` with this layout. -/
structure Holds (m₀ : Paging) (pd : Pgdir) (L : Layout) : Prop where
  building : Building m₀ pd.m L.img
  sections : pd.sections = L.sections

section Header

variable {m₀ : Paging} {pd pd' : Pgdir} {L : Layout} {file : List UInt8} {ph : Phdr} {ok : Bool}

/-- A header leaves its pages in its section, also when it fails; `stop` is where the section then ends. -/
structure Loads (m₀ : Paging) (file : List UInt8) (L : Layout) (ph : Phdr) (pd pd' : Pgdir) (ok : Bool) (img : Image)
    (stop : UInt64) : Prop where
  holds : Holds m₀ pd' (L.place ph img stop)
  aligned : stop.toNat % 4096 = 0
  upto : stop.toNat / 4096 ≤ ph.last
  outside : ∀ n, ¬ (ph.first ≤ n ∧ n < stop.toNat / 4096) → img n = L.img n
  noLeak : (∀ n, ph.first ≤ n → n < ph.last → L.img n = none) → NoLeak m₀ pd.m → NoLeak m₀ pd'.m
  stop_eq : ok = true → stop = pageUp (ph.vaddr + ph.size)
  readable : ok = true → 0 < ph.filesz.toNat → ph.offset.toNat + ph.filesz.toNat ≤ file.length
  bytes : ok = true → ∀ n, ph.first ≤ n → n < ph.last → ∃ f, img n = some f ∧ ∀ i < 4096, f i = ph.byte file (n * 4096 + i)

theorem Holds.setText (h : Holds m₀ pd L) (b e : UInt64) : setSection stText (fun sec => { sec with begin := b, stop := e })
    pd.sections = some [⟨stData, L.data.1, L.data.2⟩, ⟨stText, b, e⟩] := by
  rw [h.sections]
  rfl

theorem Holds.setData (h : Holds m₀ pd L) (b e : UInt64) : setSection stData (fun sec => { sec with begin := b, stop := e })
    pd.sections = some [⟨stData, b, e⟩, ⟨stText, L.text.1, L.text.2⟩] := by
  rw [h.sections]
  rfl

/-- The zeros are part of the data section. -/
theorem setSection_bss {secs : List Section} {b e : UInt64} {text : Section} (h : secs = [⟨stData, b, e⟩, text]) (stop : UInt64) :
    setSection stBss (fun sec => { sec with stop := stop }) secs = some [⟨stData, b, stop⟩, text] := by
  rw [h]
  rfl

section

variable (h : Holds m₀ pd L) (hfile : file.length < 2 ^ 32) (hplaced : ph.Placed)
include h hfile hplaced

theorem loads_text (htext : ph.isText) (hload : loadSeg pd ph.vaddr file ph.offset ph.filesz stText = .ok (ok, pd')) :
    ∃ img stop, Loads m₀ file L ph pd pd' ok img stop := by
  have hsize : ph.size = ph.filesz := if_pos htext
  have hsmall := hplaced.small
  rw [hsize] at hsmall
  obtain ⟨hbase, hup⟩ := segment_range hsmall
  obtain ⟨hsections, img, hbuild, hsame, hleak, hbytes⟩ := loadSeg_spec h.building hfile hsmall (h.setText _ _) hload
  have hlast : ph.last = (ph.vaddr.toNat + ph.filesz.toNat + 4095) / 4096 := by rw [Phdr.last, hsize]
  refine ⟨img, pageUp (ph.vaddr + ph.filesz), ?_⟩
  constructor
  case holds =>
    refine ⟨hbuild, hsections.trans ?_⟩
    unfold Layout.sections Layout.place
    rw [if_pos htext, if_pos htext]
  case aligned => omega
  case upto => omega
  case outside =>
    intro n hn
    rw [Phdr.first] at hn
    exact hsame n (by omega)
  case noLeak =>
    intro hnone hm
    rw [hlast] at hnone
    exact hleak hnone hm
  case stop_eq => exact fun _ => by rw [hsize]
  case readable => exact fun htrue => (hbytes htrue).1
  case bytes =>
    intro htrue n hn hn'
    rw [hlast] at hn'
    obtain ⟨f, hf, hi⟩ := (hbytes htrue).2 n hn hn'
    exact ⟨f, hf, fun i hlt => (hi i hlt).trans (if_pos (Or.inl htext)).symm⟩

/-- The zeros begin in the last page of the file's part, if it ends inside a page. -/
theorem loads_data (htext : ¬ ph.isText) (hload : (do
      let (ok, pd) ← loadSeg pd ph.vaddr file ph.offset ph.filesz stData
      if ok then fillBss pd (ph.vaddr + ph.filesz) (ph.memsz - ph.filesz) else .ok (false, pd)) = .ok (ok, pd')) :
    ∃ img stop, Loads m₀ file L ph pd pd' ok img stop := by
  have hsize : ph.size = ph.memsz := if_neg htext
  obtain ⟨hfits, hsmall⟩ := hplaced
  rw [hsize] at hfits hsmall
  have hlast : ph.last = (ph.vaddr.toNat + ph.memsz.toNat + 4095) / 4096 := by rw [Phdr.last, hsize]
  have hend : (ph.vaddr + ph.filesz).toNat = ph.vaddr.toNat + ph.filesz.toNat := by
    rw [UInt64.toNat_add]
    omega
  have hrest : (ph.memsz - ph.filesz).toNat = ph.memsz.toNat - ph.filesz.toNat :=
    toNat_diff hfits
  obtain ⟨hbase, hup⟩ := segment_range (show ph.vaddr.toNat + ph.filesz.toNat ≤ 2 ^ 48 by omega)
  obtain ⟨-, hupAll⟩ := segment_range hsmall
  obtain ⟨⟨ok₁, pd₁⟩, hseg, hload⟩ := bind_eq_ok.mp hload
  obtain ⟨hsections, img₁, hbuild1, hsame1, hleak1, hbytes1⟩ := loadSeg_spec h.building hfile (by omega) (h.setData _ _) hseg
  cases ok₁ with
  | false =>
    obtain ⟨rfl, rfl⟩ := Prod.mk.inj (Except.ok.inj hload)
    refine ⟨img₁, pageUp (ph.vaddr + ph.filesz), ⟨hbuild1, hsections.trans ?_⟩, by omega, by omega, fun n hn => hsame1 n ?_,
      fun hnone hm => hleak1 (fun n hn hn' => hnone n hn (by omega)) hm, (nomatch ·), (nomatch ·), (nomatch ·)⟩
    · unfold Layout.sections Layout.place
      rw [if_neg htext, if_neg htext]
    · rw [Phdr.first] at hn
      omega
  | true =>
    obtain ⟨hread, hbytes1⟩ := hbytes1 rfl
    have hsum : ph.vaddr + ph.filesz + (ph.memsz - ph.filesz) = ph.vaddr + ph.memsz := by
      rw [UInt64.add_assoc, UInt64.add_comm ph.filesz, UInt64.sub_add_cancel]
    have hshared : (ph.vaddr + ph.filesz).toNat % 4096 ≠ 0 → (img₁ ((ph.vaddr + ph.filesz).toNat / 4096)).isSome := by
      intro hne
      rw [hend] at hne ⊢
      obtain ⟨f, hf, -⟩ := hbytes1 ((ph.vaddr.toNat + ph.filesz.toNat) / 4096) (by omega) (by omega)
      exact hf ▸ rfl
    obtain ⟨rfl, hsections', img, hbuild, hsame, hleak, hbytes⟩ := fillBss_spec hbuild1 (by omega) (setSection_bss hsections _) hshared hload
    have hstop : ph.vaddr.toNat + ph.filesz.toNat + (ph.memsz.toNat - ph.filesz.toNat) = ph.vaddr.toNat + ph.memsz.toNat := by
      omega
    rw [hend, hrest, hstop] at hsame hleak hbytes
    refine ⟨img, pageUp (ph.vaddr + ph.memsz), ?_⟩
    constructor
    case holds =>
      refine ⟨hbuild, hsections'.trans ?_⟩
      unfold Layout.sections Layout.place
      rw [if_neg htext, if_neg htext, hsum]
    case aligned => omega
    case upto => omega
    case outside =>
      intro n hn
      rw [Phdr.first] at hn
      rw [hsame n (by omega), hsame1 n (by omega)]
    case noLeak =>
      intro hnone hm
      refine hleak (fun n hn hn' => ?_) (hleak1 (fun n hn hn' => hnone n hn (by omega)) hm)
      rw [hsame1 n (by omega)]
      exact hnone n (by rw [Phdr.first]; omega) (by omega)
    case stop_eq => exact fun _ => by rw [hsize]
    case readable => exact fun _ => hread
    case bytes =>
      intro _ n hn hn'
      rw [hlast] at hn'
      unfold Phdr.byte
      by_cases hfilled : (ph.vaddr.toNat + ph.filesz.toNat) / 4096 ≤ n
      · obtain ⟨f, hf, hi⟩ := hbytes n hfilled hn'
        refine ⟨f, hf, fun i hlt => (hi i hlt).trans ?_⟩
        by_cases hzero : ph.vaddr.toNat + ph.filesz.toNat ≤ n * 4096 + i
        · rw [if_pos hzero, if_neg fun hcase => hcase.elim htext (by omega)]
        · obtain ⟨g, hg, hgi⟩ := hbytes1 n hn (by omega)
          rw [if_neg hzero, if_pos (Or.inr (by omega)), hg]
          exact hgi i hlt
      · obtain ⟨g, hg, hgi⟩ := hbytes1 n hn (by omega)
        refine ⟨g, (hsame n fun hin => hfilled hin.1).trans hg, fun i hlt => (hgi i hlt).trans ?_⟩
        rw [if_pos (Or.inr (by omega))]

end

theorem type_of_loads (hloads : ph.loads) : ph.type = Exec.ptLoad := by
  unfold Phdr.loads Phdr.isText Phdr.isData at hloads
  by_contra hne
  rw [beq_eq_false_iff_ne.mpr hne] at hloads
  cases hloads

/-- A header that is loaded, whole or in part. -/
theorem loadPhdr_loads (h : Holds m₀ pd L) (hfile : file.length < 2 ^ 32) (hplaced : ph.Placed) (hloads : ph.loads)
    (hload : loadPhdr file ph pd = .ok (ok, pd')) : ∃ img stop, Loads m₀ file L ph pd pd' ok img stop := by
  unfold loadPhdr at hload
  rw [if_neg (not_not.mpr (type_of_loads hloads))] at hload
  by_cases htext : ph.isText
  · rw [if_pos htext] at hload
    exact loads_text h hfile hplaced htext hload
  · have hdata : ph.isData := (Bool.or_eq_true _ _ ▸ hloads).resolve_left htext
    rw [if_neg htext, if_pos hdata] at hload
    exact loads_data h hfile hplaced htext hload

/-- A header that is not loaded changes nothing. -/
theorem loadPhdr_skips (hloads : ¬ ph.loads) (hload : loadPhdr file ph pd = .ok (ok, pd')) : pd' = pd := by
  unfold loadPhdr at hload
  obtain ⟨htext, hdata⟩ := not_or.mp (mt (Bool.or_eq_true _ _).mpr hloads)
  split at hload
  · exact (Prod.mk.inj (Except.ok.inj hload)).2.symm
  · exact (Prod.mk.inj (Except.ok.inj hload)).2.symm

/-- Another `PT_LOAD` header is refused. -/
theorem loadPhdr_refuses (htype : ph.type = Exec.ptLoad) (hload : loadPhdr file ph pd = .ok (true, pd')) : ph.loads := by
  by_contra hloads
  obtain ⟨htext, hdata⟩ := not_or.mp (mt (Bool.or_eq_true _ _).mpr hloads)
  unfold loadPhdr at hload
  rw [if_neg (not_not.mpr htype), if_neg htext, if_neg hdata] at hload
  cases hload

/-- A header that is loaded does what it should. -/
theorem loadPhdr_holds (h : Holds m₀ pd L) (hfile : file.length < 2 ^ 32) (hplaced : ph.loads → ph.Placed)
    (hload : loadPhdr file ph pd = .ok (true, pd')) : Holds m₀ pd' (ph.apply file L) := by
  unfold Phdr.apply
  split
  next hloads =>
    obtain ⟨img, stop, hspec⟩ := loadPhdr_loads h hfile (hplaced hloads) hloads hload
    obtain ⟨hbuild, hsections⟩ := hspec.holds
    have hstop := hspec.stop_eq rfl
    obtain ⟨-, hup⟩ := segment_range (hplaced hloads).small
    have hlast : stop.toNat / 4096 = ph.last := by
      rw [hstop, hup, Phdr.last]
      omega
    have hcases : ∀ n, (ph.first ≤ n ∧ n < ph.last → ∃ f, img n = some f ∧ ∀ i < 4096, f i = ph.byte file (n * 4096 + i)) ∧
        (¬ (ph.first ≤ n ∧ n < ph.last) → img n = L.img n) :=
      fun n => ⟨fun hin => hspec.bytes rfl n hin.1 hin.2, fun hout => hspec.outside n (hlast ▸ hout)⟩
    refine ⟨hbuild.forget (fun n => ?_) (fun n f f' hf hf' i hi b hb => ?_), by rw [hsections, hstop]; rfl⟩
    · show (if _ then _ else _ : Option _).isSome = (img n).isSome
      by_cases hin : ph.first ≤ n ∧ n < ph.last
      · obtain ⟨f, hf, -⟩ := (hcases n).1 hin
        rw [if_pos hin, hf]
        rfl
      · rw [if_neg hin, (hcases n).2 hin]
    · change img n = some f at hf
      change (if _ then _ else _) = some f' at hf'
      by_cases hin : ph.first ≤ n ∧ n < ph.last
      · obtain ⟨g, hg, hgi⟩ := (hcases n).1 hin
        rw [if_pos hin] at hf'
        cases hf'
        obtain rfl := Option.some.inj (hf.symm.trans hg)
        rw [hgi i hi]
        exact hb
      · rw [if_neg hin] at hf'
        rw [(hcases n).2 hin, hf'] at hf
        cases hf
        exact hb
  next hloads =>
    rw [loadPhdr_skips hloads hload]
    exact h

end Header

/-! ## The loop -/

/-- The program headers, as far as they can be read. -/
def headers (file : List UInt8) : Nat → Nat → List Phdr
  | 0, _ => []
  | n + 1, off =>
    match inodeRead file (Exec.intToUsize off) (UInt64.ofNat Exec.phdrSize) with
    | .ok (r, bytes) => if r = UInt64.ofNat Exec.phdrSize then Phdr.ofBytes bytes :: headers file n (off + Exec.phdrSize) else []
    | .error _ => []

section Loop

variable {m₀ : Paging} {pd pd' : Pgdir} {L : Layout} {file : List UInt8} {n off : Nat} {ok : Bool}

/-- One round of the loop: the header cannot be read, or it is loaded, and after that the others. -/
theorem loadPhdrs_cases (hload : loadPhdrs file (n + 1) off pd = .ok (ok, pd')) :
    (ok = false ∧ pd' = pd ∧ headers file (n + 1) off = []) ∨
      ∃ ph pd₁, headers file (n + 1) off = ph :: headers file n (off + Exec.phdrSize) ∧
        ((loadPhdr file ph pd = .ok (false, pd') ∧ ok = false) ∨
          (loadPhdr file ph pd = .ok (true, pd₁) ∧ loadPhdrs file n (off + Exec.phdrSize) pd₁ = .ok (ok, pd'))) := by
  obtain ⟨⟨r, bytes⟩, hread, hload⟩ := bind_eq_ok.mp hload
  have hheaders : headers file (n + 1) off =
      if r = UInt64.ofNat Exec.phdrSize then Phdr.ofBytes bytes :: headers file n (off + Exec.phdrSize) else [] := by
    rw [headers, hread]
  by_cases hr : r = UInt64.ofNat Exec.phdrSize
  · rw [if_pos hr] at hheaders
    change (if r ≠ _ then _ else _) = _ at hload
    rw [if_neg (not_not.mpr hr)] at hload
    obtain ⟨⟨ok₁, pd₁⟩, hone, hrest⟩ := bind_eq_ok.mp hload
    refine Or.inr ⟨Phdr.ofBytes bytes, pd₁, hheaders, ?_⟩
    cases ok₁ with
    | false =>
      obtain ⟨rfl, rfl⟩ := Prod.mk.inj (Except.ok.inj hrest)
      exact Or.inl ⟨hone, rfl⟩
    | true => exact Or.inr ⟨hone, hrest⟩
  · rw [if_neg hr] at hheaders
    change (if r ≠ _ then _ else _) = _ at hload
    rw [if_pos hr] at hload
    obtain ⟨rfl, rfl⟩ := Prod.mk.inj (Except.ok.inj hload)
    exact Or.inl ⟨rfl, rfl, hheaders⟩

/-- The loop over headers that have been read. -/
def loadAll (file : List UInt8) : List Phdr → Pgdir → Except Stop (Bool × Pgdir)
  | [], pd => .ok (true, pd)
  | ph :: phs, pd => do
    let (ok, pd) ← loadPhdr file ph pd
    if ok then loadAll file phs pd else .ok (false, pd)

/-- It does not matter that the headers are read one by one. -/
theorem loadPhdrs_eq_loadAll {phs : List Phdr} (hphs : headers file n off = phs) (hlength : phs.length = n) (pd : Pgdir) :
    loadPhdrs file n off pd = loadAll file phs pd := by
  induction n generalizing off phs pd with
  | zero =>
    obtain rfl := List.length_eq_zero_iff.mp hlength
    rfl
  | succ n ih =>
    unfold headers at hphs
    unfold loadPhdrs
    cases hread : inodeRead file (Exec.intToUsize off) (UInt64.ofNat Exec.phdrSize) with
    | error e =>
      rw [hread] at hphs
      subst hphs
      cases hlength
    | ok read =>
      obtain ⟨r, bytes⟩ := read
      rw [hread] at hphs
      change (if _ then _ else _) = _ at hphs
      split at hphs
      next hr =>
        subst hphs
        show (if r ≠ _ then _ else _) = _
        rw [if_neg (not_not.mpr hr)]
        refine congrArg _ (funext fun (ok, pd) => ?_)
        cases ok with
        | true => exact ih rfl (Nat.succ.inj hlength) pd
        | false => rfl
      next =>
        subst hphs
        cases hlength

section

variable (h : Holds m₀ pd L) (hfile : file.length < 2 ^ 32)
  (hplaced : ∀ ph ∈ headers file n off, ph.loads → ph.Placed)
include h hfile hplaced

/-- When the loop comes to its end, all headers have done what they should. -/
theorem loadPhdrs_holds (hload : loadPhdrs file n off pd = .ok (true, pd')) :
    Holds m₀ pd' ((headers file n off).foldl (Phdr.apply file) L) ∧ ∀ ph ∈ headers file n off, ph.type = Exec.ptLoad →
        ph.loads ∧ (0 < ph.filesz.toNat → ph.offset.toNat + ph.filesz.toNat ≤ file.length) := by
  induction n generalizing off pd L with
  | zero =>
    obtain ⟨-, rfl⟩ := Prod.mk.inj (Except.ok.inj hload)
    exact ⟨h, fun ph hph => (nomatch hph)⟩
  | succ n ih =>
    obtain ⟨hfalse, -⟩ | ⟨ph, pd₁, hheaders, ⟨-, hfalse⟩ | ⟨hone, hrest⟩⟩ := loadPhdrs_cases hload
    · cases hfalse
    · cases hfalse
    · rw [hheaders] at hplaced ⊢
      obtain ⟨hph, hphs⟩ := List.forall_mem_cons.mp hplaced
      obtain ⟨hholds, hall⟩ := ih (loadPhdr_holds h hfile hph hone) hphs hrest
      refine ⟨hholds, List.forall_mem_cons.mpr ⟨fun htype => ?_, hall⟩⟩
      have hloads := loadPhdr_refuses htype hone
      obtain ⟨img, stop, hspec⟩ := loadPhdr_loads h hfile (hph hloads) hloads hone
      exact ⟨hloads, hspec.readable rfl⟩

/-- And if it does not, there is some layout still. -/
theorem loadPhdrs_built (hload : loadPhdrs file n off pd = .ok (ok, pd')) : ∃ L', Holds m₀ pd' L' := by
  induction n generalizing off pd L with
  | zero =>
    obtain ⟨-, rfl⟩ := Prod.mk.inj (Except.ok.inj hload)
    exact ⟨L, h⟩
  | succ n ih =>
    obtain ⟨-, rfl, -⟩ | ⟨ph, pd₁, hheaders, hcase⟩ := loadPhdrs_cases hload
    · exact ⟨L, h⟩
    · rw [hheaders] at hplaced
      obtain ⟨hph, hphs⟩ := List.forall_mem_cons.mp hplaced
      rcases hcase with ⟨hone, -⟩ | ⟨hone, hrest⟩
      · by_cases hloads : ph.loads
        · obtain ⟨img, stop, hspec⟩ := loadPhdr_loads h hfile (hph hloads) hloads hone
          exact ⟨_, hspec.holds⟩
        · rw [loadPhdr_skips hloads hone]
          exact ⟨L, h⟩
      · exact ih (loadPhdr_holds h hfile hph hone) hphs hrest

end

end Loop

end Armv8Os.Execve
