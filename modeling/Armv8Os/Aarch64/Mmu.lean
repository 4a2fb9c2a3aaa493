/-
  `aarch64/mmu.h`: pages, page table entries and the parts of a virtual address.

  The macros are functions on 64-bit words, written with the masks of the source.  The lemmas say
  what the masks mean in numbers: `pageBase` rounds down to a multiple of the page size
  (`toNat_pageBase`), the four indices do not see the offset in the page (`vaPart_pageBase`), and
  none of them sees the sixteen TOP bits, so two addresses 2^48 apart use the same entries.
-/
import Armv8Os.Lib.Words

namespace Armv8Os.Mmu

open Nat

abbrev pageSize : UInt64 := 4096

theorem toNat_pageSize : pageSize.toNat = 4096 := rfl

/-- `PTE_VALID`, `PTE_TABLE`, `PTE_PAGE`, `PTE_USER`, `PTE_RO`. -/
abbrev pteValid : UInt64 := 0x1
abbrev pteTable : UInt64 := 0x3
abbrev ptePage : UInt64 := 0x3
abbrev pteUser : UInt64 := 0x40
abbrev pteRo : UInt64 := 0x80

/-- `PTE_NORMAL = (MT_NORMAL << 2) | AF_USED | SH_OUTER`. -/
abbrev pteNormal : UInt64 := 0x604

/-- `PTE_USER_DATA = PTE_USER | PTE_NORMAL | PTE_PAGE`: six bits. -/
abbrev pteUserData : UInt64 := pteUser ||| pteNormal ||| ptePage

abbrev kspaceMask : UInt64 := 0xffff000000000000

/-- `K2P`. -/
def k2p (addr : UInt64) : UInt64 := addr - kspaceMask

/-- `P2K`. -/
def p2k (addr : UInt64) : UInt64 := addr + kspaceMask

/-- `PTE_ADDRESS`. -/
def pteAddress (pte : UInt64) : UInt64 := pte &&& ~~~0xFFFF000000000FFF

/-- `PTE_FLAGS`. -/
def pteFlags (pte : UInt64) : UInt64 := pte &&& 0xFFFF000000000FFF

/-- `IS_VALID`. -/
def isValid (pte : UInt64) : Bool := pte &&& pteValid != 0

/-- `PAGE_BASE`. -/
def pageBase (addr : UInt64) : UInt64 := addr &&& ~~~(pageSize - 1)

/-- `VA_PART0` .. `VA_PART3`. -/
def vaPart0 (va : UInt64) : UInt64 := (va &&& 0xFF8000000000) >>> 39
def vaPart1 (va : UInt64) : UInt64 := (va &&& 0x7FC0000000) >>> 30
def vaPart2 (va : UInt64) : UInt64 := (va &&& 0x3FE00000) >>> 21
def vaPart3 (va : UInt64) : UInt64 := (va &&& 0x1FF000) >>> 12

/-! ## The masks in numbers -/

/-- The mask of `PAGE_BASE` keeps the bits from 12 on. -/
theorem and_pageMask {n : Nat} (hn : n < 2 ^ 64) : n &&& 0xFFFFFFFFFFFFF000 = n / 2 ^ 12 * 2 ^ 12 := by
  apply eq_of_testBit_eq
  intro i
  rw [testBit_and, show 0xFFFFFFFFFFFFF000 = (2 ^ 52 - 1) * 2 ^ 12 from by norm_num,
    testBit_mul_two_pow, testBit_mul_two_pow, testBit_two_pow_sub_one,
    testBit_div_two_pow]
  by_cases hi : 12 ≤ i
  · rw [show i - 12 + 12 = i from by omega]
    by_cases h64 : i < 64
    · have hi52 : i - 12 < 52 := by omega
      simp [hi, hi52]
    · have hpow : 2 ^ 64 ≤ 2 ^ i := Nat.pow_le_pow_right (by omega) (by omega)
      have htop : n.testBit i = false := testBit_lt_two_pow (lt_of_lt_of_le hn hpow)
      simp [htop]
  · simp [hi]

/-- `PAGE_BASE` rounds down to a multiple of the page size. -/
theorem toNat_pageBase (a : UInt64) : (pageBase a).toNat = a.toNat - a.toNat % 4096 := by
  have hmask : (~~~(pageSize - 1)).toNat = 0xFFFFFFFFFFFFF000 := by decide
  rw [pageBase, UInt64.toNat_and, hmask, and_pageMask a.toNat_lt]
  omega

theorem toNat_sub_pageBase (va : UInt64) : (va - pageBase va).toNat = va.toNat % 4096 := by
  have hbase := toNat_pageBase va
  rw [Words.toNat_diff (by omega)]
  omega

/-- The bytes of the page from `va` on. -/
theorem toNat_pageRest (va : UInt64) : (pageSize - (va - pageBase va)).toNat = 4096 - va.toNat % 4096 := by
  have hoff := toNat_sub_pageBase va
  rw [Words.toNat_diff (by rw [hoff, toNat_pageSize]; omega), hoff, toNat_pageSize]

theorem toNat_page {b : UInt64} {i : Nat} (h : b.toNat + 4096 * i < 2 ^ 64) :
    (b + pageSize * UInt64.ofNat i).toNat = b.toNat + 4096 * i := by
  rw [UInt64.toNat_add, UInt64.toNat_mul, UInt64.toNat_ofNat', toNat_pageSize]
  omega

/-- A mask that lies above the page offset does not see the rounding. -/
theorem and_pageBase (a : UInt64) {mask : UInt64} (h : ~~~(pageSize - 1) &&& mask = mask) :
    pageBase a &&& mask = a &&& mask := by
  rw [pageBase, UInt64.and_assoc, h]

theorem vaPart_pageBase (a : UInt64) :
    vaPart0 (pageBase a) = vaPart0 a ∧ vaPart1 (pageBase a) = vaPart1 a ∧
    vaPart2 (pageBase a) = vaPart2 a ∧ vaPart3 (pageBase a) = vaPart3 a := by
  refine ⟨?_, ?_, ?_, ?_⟩
  · rw [vaPart0, vaPart0, and_pageBase a (by decide)]
  · rw [vaPart1, vaPart1, and_pageBase a (by decide)]
  · rw [vaPart2, vaPart2, and_pageBase a (by decide)]
  · rw [vaPart3, vaPart3, and_pageBase a (by decide)]

/-! ## Page numbers -/

/-- Bits 47..12 of an address. -/
def vpn (va : UInt64) : Nat := va.toNat / 2 ^ 12 % 2 ^ 36

/-- Nine bits of an address, from bit `s` on. -/
theorem toNat_part (va : UInt64) {mask s : UInt64} (hs : s.toNat < 64) (hmask : mask.toNat >>> s.toNat = 2 ^ 9 - 1) :
    ((va &&& mask) >>> s).toNat = va.toNat / 2 ^ s.toNat % 2 ^ 9 := by
  rw [UInt64.toNat_shiftRight, mod_eq_of_lt hs, UInt64.toNat_and, shiftRight_and_distrib, hmask,
    and_two_pow_sub_one_eq_mod, shiftRight_eq_div_pow]

theorem toNat_vaPart0 (va : UInt64) : (vaPart0 va).toNat = va.toNat / 2 ^ 39 % 2 ^ 9 := toNat_part va (by decide) (by decide)

theorem toNat_vaPart1 (va : UInt64) : (vaPart1 va).toNat = va.toNat / 2 ^ 30 % 2 ^ 9 := toNat_part va (by decide) (by decide)

theorem toNat_vaPart2 (va : UInt64) : (vaPart2 va).toNat = va.toNat / 2 ^ 21 % 2 ^ 9 := toNat_part va (by decide) (by decide)

theorem toNat_vaPart3 (va : UInt64) : (vaPart3 va).toNat = va.toNat / 2 ^ 12 % 2 ^ 9 := toNat_part va (by decide) (by decide)

/-- The four indices are the page number. -/
theorem vpn_eq_iff (va va' : UInt64) :
    vpn va = vpn va' ↔ vaPart0 va = vaPart0 va' ∧ vaPart1 va = vaPart1 va' ∧ vaPart2 va = vaPart2 va' ∧
      vaPart3 va = vaPart3 va' := by
  simp only [← UInt64.toNat_inj, toNat_vaPart0, toNat_vaPart1, toNat_vaPart2, toNat_vaPart3, vpn]
  omega

/-! ## Addresses of pages -/

/-- The address of a page in kernel space. -/
def KernelPage (p : UInt64) : Prop := p.toNat % 4096 = 0 ∧ kspaceMask ≤ p

instance (p : UInt64) : Decidable (KernelPage p) := inferInstanceAs (Decidable (_ ∧ _))

theorem KernelPage.ne_zero {p : UInt64} (h : KernelPage p) : p ≠ 0 := by
  rintro rfl
  exact absurd h.2 (by decide)

/-- The mask of `PTE_ADDRESS`: bits 47..12. -/
abbrev addressMask : UInt64 := ~~~0xFFFF000000000FFF

theorem toNat_k2p {p : UInt64} (hp : kspaceMask ≤ p) : (k2p p).toNat = p.toNat - kspaceMask.toNat :=
  UInt64.toNat_sub_of_le _ _ hp

/-- A physical page address lies in the mask. -/
theorem k2p_and_mask {p : UInt64} (hp : KernelPage p) : k2p p &&& addressMask = k2p p := by
  obtain ⟨halign, hk⟩ := hp
  have hk2p := toNat_k2p hk
  have hmask : addressMask.toNat = 0xFFFFFFFFF000 := by decide
  have hkspace : kspaceMask.toNat = 0xffff000000000000 := by decide
  have hlt := p.toNat_lt
  have hsmall : (k2p p).toNat < 2 ^ 48 := by omega
  rw [← UInt64.toNat_inj, UInt64.toNat_and, hmask]
  -- below bit 48 the mask is the one of `PAGE_BASE`
  have hlow : (k2p p).toNat &&& 0xFFFFFFFFF000 = (k2p p).toNat &&& 0xFFFFFFFFFFFFF000 := by
    rw [show 0xFFFFFFFFF000 = (2 ^ 48 - 1) &&& 0xFFFFFFFFFFFFF000 from by decide, ← Nat.and_assoc,
      and_two_pow_sub_one_eq_mod, mod_eq_of_lt hsmall]
  rw [hlow, and_pageMask (by omega)]
  omega

/-- An entry gives its page back, whatever flags it has. -/
theorem pteAddress_k2p {p flags : UInt64} (hp : KernelPage p) (hflags : flags &&& addressMask = 0) :
    pteAddress (k2p p ||| flags) = k2p p := by
  show (k2p p ||| flags) &&& addressMask = k2p p
  rw [Words.or_and, hflags, k2p_and_mask hp, UInt64.or_zero]

theorem pteFlags_k2p {p flags : UInt64} (hp : KernelPage p) (hflags : flags &&& addressMask = 0) :
    pteFlags (k2p p ||| flags) = flags := by
  have hout : k2p p &&& 0xFFFF000000000FFF = 0 := by
    rw [← k2p_and_mask hp, UInt64.and_assoc, show addressMask &&& 0xFFFF000000000FFF = 0 from by decide, UInt64.and_zero]
  have hin : flags &&& 0xFFFF000000000FFF = flags := by
    calc flags &&& 0xFFFF000000000FFF = addressMask &&& flags ||| 0xFFFF000000000FFF &&& flags := by
          rw [UInt64.and_comm _ flags, hflags, UInt64.zero_or, UInt64.and_comm]
      _ = (addressMask ||| 0xFFFF000000000FFF) &&& flags := (Words.or_and ..).symm
      _ = flags := by
        rw [show addressMask ||| 0xFFFF000000000FFF = -1 from by decide, UInt64.and_comm, UInt64.and_neg_one]
  show (k2p p ||| flags) &&& 0xFFFF000000000FFF = flags
  rw [Words.or_and, hout, hin, UInt64.zero_or]

theorem p2k_k2p (p : UInt64) : p2k (k2p p) = p := UInt64.sub_add_cancel p kspaceMask

theorem toNat_pteAddress (w : UInt64) : (pteAddress w).toNat = w.toNat % 2 ^ 48 - w.toNat % 2 ^ 48 % 4096 := by
  have hlt : w.toNat % 2 ^ 48 < 2 ^ 64 := by omega
  show (w &&& addressMask).toNat = _
  rw [UInt64.toNat_and, show addressMask.toNat = (2 ^ 48 - 1) &&& 0xFFFFFFFFFFFFF000 from by decide, ← Nat.and_assoc,
    and_two_pow_sub_one_eq_mod, and_pageMask hlt]
  omega

/-- What an entry points to is a page in kernel space. -/
theorem kernelPage_pteAddress (w : UInt64) : KernelPage (p2k (pteAddress w)) := by
  have haddr := toNat_pteAddress w
  have hkspace : kspaceMask.toNat = 0xffff000000000000 := by decide
  have hsum : (p2k (pteAddress w)).toNat = (pteAddress w).toNat + kspaceMask.toNat := by
    unfold p2k
    rw [UInt64.toNat_add, mod_eq_of_lt (by omega)]
  exact ⟨by omega, UInt64.le_iff_toNat_le.mpr (by omega)⟩

end Armv8Os.Mmu
