/-
  `kernel/syscall.c`: the checks `user_readable` and `user_writeable` on pointers from user space.

  1. **Program** — both walk the range page by page and test one word per page; `rangeCheck` is their
     common loop, `userReadable` and `userWriteable` are it with the test of the source.

  2. **Crux** — `rangeCheck_eq_true`: the loop accepts exactly when the test holds of the entry of
     EVERY address of the range, the addresses taken modulo 2^64 as the loop takes them.

  3. **Specification** — `Readable` and `Writeable`: no wrap, every address in the lower half, its
     entry valid and marked `PTE_USER` (and not `PTE_RO`).

  4. **Verdict** — the checks never reject what they should accept, but they accept too much, for two
     reasons.  `*pte & PTE_USER_DATA` is true as soon as ONE of the six bits of the mask is set,
     `PTE_VALID` alone for instance; and neither the loop nor `get_pte` looks at the sixteen top bits
     of an address, so a kernel address is judged by the user page 2^48 below it
     (`kernel_address_accepted`).  `user_checks_exact` says exactly which inputs are misjudged.
-/
import Armv8Os.Kernel.Pt

namespace Armv8Os.Syscall

open Mmu Pt UInt64

/-! ## The program -/

/-- `pte != NULL` and the test on `*pte`. -/
def pteTest (m : Paging) (ok : UInt64 → Bool) (va : UInt64) : Bool :=
  match getPte m va false with
  | .error _ => false
  | .ok (pte, _) => ok (m.word pte)

/-- The bytes of the range that lie in the page of `va`. -/
def chunk (va size : UInt64) : UInt64 :=
  let n := pageSize - (va - pageBase va)
  if n > size then size else n

theorem toNat_chunk (va size : UInt64) :
    (chunk va size).toNat = min (4096 - va.toNat % 4096) size.toNat := by
  have hn := toNat_pageRest va
  unfold chunk
  simp only
  split
  · rename_i h
    have := lt_iff_toNat_lt.mp h
    omega
  · rename_i h
    have := mt lt_iff_toNat_lt.mpr h
    omega

/-- The loop: `va` and `size` are the variables of the source. -/
def rangeCheck (m : Paging) (ok : UInt64 → Bool) (va size : UInt64) : Bool :=
  if _ : 0 < size then
    if pteTest m ok (pageBase va) then
      rangeCheck m ok (pageBase va + pageSize) (size - chunk va size)
    else false
  else true
termination_by size.toNat
decreasing_by
  have hpos : 0 < size.toNat := UInt64.lt_iff_toNat_lt.mp ‹0 < size›
  have hchunk := toNat_chunk va size
  rw [Words.toNat_diff (by omega)]
  omega

/-- `user_readable(start, size)`. -/
def userReadable (m : Paging) (start size : UInt64) : Bool :=
  rangeCheck m (fun w => w &&& pteUserData != 0) start size

/-- `user_writeable(start, size)`. -/
def userWriteable (m : Paging) (start size : UInt64) : Bool :=
  rangeCheck m (fun w => !(w &&& pteUserData == 0 || w &&& pteRo != 0)) start size

/-! ## What the loop decides -/

/-- The walk finds an entry for `a`, and its word passes the test. -/
def PteIs (m : Paging) (ok : UInt64 → Bool) (a : UInt64) : Prop :=
  ∃ pte, getPte m a false = .ok (pte, m) ∧ ok (m.word pte) = true

variable {m : Paging} {ok : UInt64 → Bool} {a : UInt64}

theorem pteTest_eq_true :
    pteTest m ok a = true ↔ PteIs m ok a := by
  unfold pteTest PteIs
  cases hw : getPte m a false with
  | error e => simp
  | ok r =>
    obtain ⟨pte, m'⟩ := r
    obtain rfl := getPte_frame hw
    constructor
    · exact fun h => ⟨pte, rfl, h⟩
    · rintro ⟨pte', h, hok⟩
      rw [(Prod.mk.inj (Except.ok.inj h)).1]
      exact hok

/-- Addresses of one page share their entry. -/
theorem PteIs.page {b : UInt64} (h : PteIs m ok a) (hab : pageBase a = pageBase b) : PteIs m ok b := by
  obtain ⟨pte, hw, hok⟩ := h
  refine ⟨pte, ?_, hok⟩
  rw [← getPte_pageBase, ← hab, getPte_pageBase]
  exact hw

theorem PteIs.mono {ok' : UInt64 → Bool} (h : PteIs m ok a)
    (himp : ∀ w, ok w = true → ok' w = true) : PteIs m ok' a := by
  obtain ⟨pte, hw, hok⟩ := h
  exact ⟨pte, hw, himp _ hok⟩

variable {size : UInt64}

/-- The bytes of the first chunk lie in the first page. -/
theorem pageBase_of_lt_chunk {va : UInt64} {i : Nat} (hi : i < (chunk va size).toNat) :
    pageBase (va + UInt64.ofNat i) = pageBase va := by
  have hchunk := toNat_chunk va size
  have hlt := va.toNat_lt
  have hadd : (va + UInt64.ofNat i).toNat = va.toNat + i := by
    rw [UInt64.toNat_add, UInt64.toNat_ofNat']
    omega
  apply UInt64.toNat_inj.mp
  rw [toNat_pageBase, toNat_pageBase, hadd]
  omega

/-- The bytes after it are those the next round looks at. -/
theorem add_of_chunk_le {va : UInt64} {i : Nat} (hi : (chunk va size).toNat ≤ i) (hsize : i < size.toNat) :
    va + UInt64.ofNat i
      = pageBase va + pageSize + UInt64.ofNat (i - (chunk va size).toNat) := by
  have hchunk := toNat_chunk va size
  have hbase := toNat_pageBase va
  apply UInt64.toNat_inj.mp
  simp only [UInt64.toNat_add, UInt64.toNat_ofNat', toNat_pageSize]
  omega

/-- **What the loop decides.** -/
theorem rangeCheck_eq_true (m : Paging) (ok : UInt64 → Bool) (va size : UInt64) :
    rangeCheck m ok va size = true ↔ ∀ i < size.toNat, PteIs m ok (va + UInt64.ofNat i) := by
  -- by the recursion of the loop; the range is the first chunk and the range of the next round
  induction va, size using rangeCheck.induct m ok with
  | case1 va size hsize htest ih =>
    have hchunk := toNat_chunk va size
    have hrest : (size - chunk va size).toNat = size.toNat - (chunk va size).toNat :=
      Words.toNat_diff (by omega)
    rw [rangeCheck, dif_pos hsize, if_pos htest, ih, hrest]
    constructor
    · intro h i hi
      by_cases hfirst : i < (chunk va size).toNat
      · refine (pteTest_eq_true.mp htest).page ?_
        rw [pageBase_of_lt_chunk hfirst]
        exact UInt64.toNat_inj.mp (by rw [toNat_pageBase, toNat_pageBase]; omega)
      · rw [add_of_chunk_le (not_lt.mp hfirst) hi]
        exact h _ (by omega)
    · intro h j hj
      have := h (j + (chunk va size).toNat) (by omega)
      rw [add_of_chunk_le (Nat.le_add_left _ _) (by omega), Nat.add_sub_cancel] at this
      exact this
  | case2 va size hsize htest =>
    have hpos : 0 < size.toNat := lt_iff_toNat_lt.mp hsize
    rw [rangeCheck, dif_pos hsize, if_neg htest]
    refine ⟨fun h => absurd h (by decide), fun h => absurd (pteTest_eq_true.mpr ?_) htest⟩
    have hva := h 0 hpos
    rw [show va + UInt64.ofNat 0 = va from UInt64.add_zero va] at hva
    refine hva.page ?_
    exact UInt64.toNat_inj.mp (by rw [toNat_pageBase (pageBase va), toNat_pageBase]; omega)
  | case3 va size hsize =>
    have hzero : ¬ 0 < size.toNat := fun h => hsize (lt_iff_toNat_lt.mpr h)
    rw [rangeCheck, dif_neg hsize]
    exact ⟨fun _ i hi => absurd (Nat.zero_lt_of_lt hi) hzero, fun _ => rfl⟩

/-! ## The specification -/

/-- A valid entry of a user page. -/
def userPage (w : UInt64) : Bool := w &&& pteValid != 0 && w &&& pteUser != 0

/-- A valid entry of a user page that may be written. -/
def writeablePage (w : UInt64) : Bool := userPage w && w &&& pteRo == 0

/-- Every address of `[start, start+size)` is a lower-half address, without a wrap, whose entry
    passes the test. -/
def Accessible (m : Paging) (ok : UInt64 → Bool) (start size : UInt64) : Prop :=
  start.toNat + size.toNat ≤ 2 ^ 64 ∧
  ∀ a : UInt64, start.toNat ≤ a.toNat → a.toNat < start.toNat + size.toNat →
    a.toNat < 2 ^ 48 ∧ PteIs m ok a

/-- What `user_readable` should decide. -/
def Readable (m : Paging) (start size : UInt64) : Prop := Accessible m userPage start size

/-- What `user_writeable` should decide. -/
def Writeable (m : Paging) (start size : UInt64) : Prop := Accessible m writeablePage start size

variable {start : UInt64}

/-- The addresses of a range without a wrap, counted from its start. -/
theorem accessible_iff :
    Accessible m ok start size ↔ ∀ i < size.toNat,
      start.toNat + i < 2 ^ 48 ∧ PteIs m ok (start + UInt64.ofNat i) := by
  have hadd : ∀ i, start.toNat + i < 2 ^ 64 → (start + UInt64.ofNat i).toNat = start.toNat + i := by
    intro i hi
    rw [UInt64.toNat_add, UInt64.toNat_ofNat']
    omega
  constructor
  · rintro ⟨hwrap, hall⟩ i hi
    obtain ⟨hlow, hpte⟩ := hall (start + UInt64.ofNat i) (by rw [hadd i (by omega)]; omega)
      (by rw [hadd i (by omega)]; omega)
    rw [hadd i (by omega)] at hlow
    exact ⟨hlow, hpte⟩
  · intro h
    constructor
    · -- the last address of the range is a lower-half address
      have hstart := start.toNat_lt
      rcases Nat.eq_zero_or_pos size.toNat with h0 | hpos
      · omega
      · have := (h (size.toNat - 1) (by omega)).1
        omega
    · intro a ha hlt
      obtain ⟨hlow, hpte⟩ := h (a.toNat - start.toNat) (by omega)
      have ha' : start + UInt64.ofNat (a.toNat - start.toNat) = a := by
        apply UInt64.toNat_inj.mp
        rw [hadd _ (by omega)]
        omega
      rw [ha'] at hpte
      exact ⟨by omega, hpte⟩

/-! ## Which inputs are misjudged -/

/-- The word has one of the six bits of `PTE_USER_DATA`. -/
def anyUserDataBit (w : UInt64) : Bool := w &&& pteUserData != 0

/-- The inputs that are misjudged: every address of the range, taken modulo 2^64, has an entry with
    SOME bit of `PTE_USER_DATA`, but the range reaches beyond the lower half or one of the entries
    is not that of a valid user page. -/
def Misjudged (m : Paging) (start size : UInt64) : Prop :=
  (∀ i < size.toNat, PteIs m anyUserDataBit (start + UInt64.ofNat i)) ∧
  ∃ i < size.toNat, 2 ^ 48 ≤ start.toNat + i ∨ ¬ PteIs m userPage (start + UInt64.ofNat i)

/-- `PTE_USER` is one of the six bits. -/
theorem anyUserDataBit_of_userPage {w : UInt64} (h : userPage w = true) : anyUserDataBit w = true := by
  simp only [userPage, anyUserDataBit, Bool.and_eq_true, bne_iff_ne, ne_eq] at *
  intro h0
  apply h.2
  calc w &&& pteUser = w &&& (pteUserData &&& pteUser) := by rw [show pteUserData &&& pteUser = pteUser from rfl]
    _ = 0 := by rw [← UInt64.and_assoc, h0, UInt64.zero_and]

theorem userReadable_eq_true :
    userReadable m start size = true ↔
      ∀ i < size.toNat, PteIs m anyUserDataBit (start + UInt64.ofNat i) :=
  rangeCheck_eq_true m _ start size

theorem userWriteable_eq_true :
    userWriteable m start size = true ↔
      ∀ i < size.toNat, PteIs m (fun w => anyUserDataBit w && w &&& pteRo == 0)
        (start + UInt64.ofNat i) := by
  have htest : (fun w : UInt64 => !(w &&& pteUserData == 0 || w &&& pteRo != 0))
      = fun w => anyUserDataBit w && w &&& pteRo == 0 := by
    funext w
    simp [anyUserDataBit, bne]
  rw [userWriteable, htest]
  exact rangeCheck_eq_true m _ start size

/-- What should be accepted is accepted. -/
theorem userReadable_of_readable (h : Readable m start size) :
    userReadable m start size = true :=
  userReadable_eq_true.mpr fun i hi =>
    (accessible_iff.mp h i hi).2.mono fun _ => anyUserDataBit_of_userPage

theorem userWriteable_of_writeable (h : Writeable m start size) :
    userWriteable m start size = true := by
  refine userWriteable_eq_true.mpr fun i hi => (accessible_iff.mp h i hi).2.mono fun w hw => ?_
  simp only [writeablePage, Bool.and_eq_true] at hw ⊢
  exact ⟨anyUserDataBit_of_userPage hw.1, hw.2⟩

/-- **The user pointer checks** decide what they should exactly on the inputs that are not
    misjudged. -/
theorem user_checks_exact (m : Paging) (start size : UInt64) :
    ((userReadable m start size = true ↔ Readable m start size) ∧
      (userWriteable m start size = true ↔ Writeable m start size)) ↔
    ¬ Misjudged m start size := by
  constructor
  · rintro ⟨hread, _⟩ ⟨hall, i, hi, hbad⟩
    obtain ⟨hlow, hpage⟩ := accessible_iff.mp (hread.mp (userReadable_eq_true.mpr hall)) i hi
    rcases hbad with hhigh | hnot
    · omega
    · exact hnot hpage
  · intro hgood
    -- a range whose entries all have some bit is a range of valid lower-half user pages
    have hgood' : (∀ i < size.toNat, PteIs m anyUserDataBit (start + UInt64.ofNat i)) →
        ∀ i < size.toNat, start.toNat + i < 2 ^ 48 ∧ PteIs m userPage (start + UInt64.ofNat i) := by
      intro hall i hi
      by_contra hcon
      refine hgood ⟨hall, i, hi, ?_⟩
      rcases not_and_or.mp hcon with hhigh | hnot
      · exact Or.inl (not_lt.mp hhigh)
      · exact Or.inr hnot
    constructor
    · exact ⟨fun h => accessible_iff.mpr (hgood' (userReadable_eq_true.mp h)), userReadable_of_readable⟩
    · refine ⟨fun h => accessible_iff.mpr fun i hi => ?_, userWriteable_of_writeable⟩
      have hw := userWriteable_eq_true.mp h
      obtain ⟨hlow, pte, hpte, hpage⟩ := hgood'
        (fun j hj => (hw j hj).mono fun w hw => (Bool.and_eq_true _ _ ▸ hw).1) i hi
      obtain ⟨pte', hpte', hro⟩ := hw i hi
      obtain rfl : pte' = pte := by
        rw [hpte] at hpte'
        exact (Prod.mk.inj (Except.ok.inj hpte')).1.symm
      refine ⟨hlow, pte', hpte, ?_⟩
      simp only [writeablePage, Bool.and_eq_true] at hro ⊢
      exact ⟨hpage, hro.2⟩

/-- A page table with a single user page, at address `0`. -/
def oneUserPage : Paging :=
  { pt := 0xffff000000001000
    word := fun a =>
      if a = 0xffff000000001000 then 0x2003
      else if a = 0xffff000000002000 then 0x3003
      else if a = 0xffff000000003000 then 0x4003
      else if a = 0xffff000000004000 then 0x5000 ||| pteUserData
      else 0
    free := [] }

/-- **A kernel address is accepted**: the first byte of the kernel's address space, for reading and
    for writing. -/
theorem kernel_address_accepted :
    userReadable oneUserPage 0xffff000000000000 1 = true ∧
    userWriteable oneUserPage 0xffff000000000000 1 = true ∧
    ¬ Readable oneUserPage 0xffff000000000000 1 ∧ ¬ Writeable oneUserPage 0xffff000000000000 1 := by
  have hone : ∀ i < (1 : UInt64).toNat, i = 0 := by decide
  have hhigh : ∀ ok, ¬ Accessible oneUserPage ok 0xffff000000000000 1 := by
    intro ok h
    have := (h.2 0xffff000000000000 (by decide) (by decide)).1
    revert this
    decide
  refine ⟨userReadable_eq_true.mpr ?_, userWriteable_eq_true.mpr ?_, hhigh _, hhigh _⟩
  · intro i hi
    rw [hone i hi]
    exact ⟨0xffff000000004000, by rfl, by decide⟩
  · intro i hi
    rw [hone i hi]
    exact ⟨0xffff000000004000, by rfl, by decide⟩

end Armv8Os.Syscall
