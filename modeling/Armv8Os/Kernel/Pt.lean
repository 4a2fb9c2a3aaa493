/-
  `kernel/pt.c`: the four-level page table walk `get_pte`, and `init_pgdir` and `vmmap` over it.

  A `Paging` is what the walk reads and writes: the root pointer of the `pgdir`, the memory as a
  function from the address of a 64-bit word to the word, and the free pages.  A table is an array
  in that memory, so `pt[i]` is the word at `pt + 8 * i`.

  The walk stops for two reasons, and they are different values: it returns `NULL` (`Stop.null`, only
  without `alloc`), or `kalloc_page` has no page and the `memset` writes through a null pointer
  (`Stop.fault`, only with `alloc`).

  Without `alloc` the walk changes nothing and sees an address only through its page
  (`getPte_frame`, `getPte_pageBase`).
-/
import Armv8Os.Aarch64.Mmu

namespace Armv8Os.Pt

open Mmu

/-- The root of the `pgdir` (`0` is `NULL`), the memory and the free pages. -/
structure Paging where
  pt : UInt64
  word : UInt64 → UInt64
  free : List UInt64

/-- Why a walk ends without an entry. -/
inductive Stop where
  | null   -- `return NULL`
  | fault  -- no page left
  deriving Repr, DecidableEq

/-- `&pt[i]`. -/
def entry (pt i : UInt64) : UInt64 := pt + 8 * i

/-- `kalloc_page` followed by `memset(.., 0, PAGE_SIZE)`. -/
def newTable (m : Paging) : Except Stop (UInt64 × Paging) :=
  match m.free with
  | [] => .error .fault
  | page :: free =>
    .ok (page, { m with word := fun a => if pageBase a = page then 0 else m.word a, free := free })

/-- The root table, allocated when there is none. -/
def rootTable (m : Paging) (alloc : Bool) : Except Stop (UInt64 × Paging) :=
  if m.pt = 0 then
    if alloc then do
      let (pt0, m) ← newTable m
      .ok (pt0, { m with pt := pt0 })
    else .error .null
  else .ok (m.pt, m)

/-- One level down, through the entry at address `e`; the same code three times in the source. -/
def nextTable (m : Paging) (e : UInt64) (alloc : Bool) : Except Stop (UInt64 × Paging) :=
  if isValid (m.word e) then .ok (p2k (pteAddress (m.word e)), m)
  else if alloc then do
    let (pt, m) ← newTable m
    .ok (pt, { m with word := Function.update m.word e (k2p pt ||| pteTable) })
  else .error .null

/-- `get_pte(pgdir, va, alloc)`: the ADDRESS of the entry. -/
def getPte (m : Paging) (va : UInt64) (alloc : Bool) : Except Stop (UInt64 × Paging) := do
  let (pt0, m) ← rootTable m alloc
  let (pt1, m) ← nextTable m (entry pt0 (vaPart0 va)) alloc
  let (pt2, m) ← nextTable m (entry pt1 (vaPart1 va)) alloc
  let (pt3, m) ← nextTable m (entry pt2 (vaPart2 va)) alloc
  .ok (entry pt3 (vaPart3 va), m)

/-- `init_pgdir`. -/
def initPgdir (m : Paging) : Except Stop Paging := do
  let (pt, m) ← newTable m
  .ok { m with pt := pt }

/-- `vmmap(pd, va, ka, flags)`. -/
def vmmap (m : Paging) (va ka flags : UInt64) : Except Stop Paging := do
  let (pte, m) ← getPte m va true
  .ok { m with word := Function.update m.word pte (k2p ka ||| flags) }

/-! ## The walk without `alloc` -/

theorem rootTable_frame {m m' : Paging} {pt : UInt64} (h : rootTable m false = .ok (pt, m')) :
    m' = m := by
  unfold rootTable at h
  split at h
  · cases h
  · exact (Prod.mk.inj (Except.ok.inj h)).2.symm

theorem nextTable_frame {m m' : Paging} {e pt : UInt64} (h : nextTable m e false = .ok (pt, m')) :
    m' = m := by
  unfold nextTable at h
  split at h
  · exact (Prod.mk.inj (Except.ok.inj h)).2.symm
  · cases h

/-- What a successful bind is made of. -/
theorem bind_eq_ok {ε α β : Type} {x : Except ε α} {f : α → Except ε β} {b : β} :
    (x >>= f) = .ok b ↔ ∃ a, x = .ok a ∧ f a = .ok b := by
  cases x with
  | error e =>
    constructor
    · intro h
      cases h
    · rintro ⟨_, h, _⟩
      cases h
  | ok a =>
    constructor
    · exact fun h => ⟨a, rfl, h⟩
    · rintro ⟨_, h, hf⟩
      cases h
      exact hf

/-- A walk without `alloc` changes nothing. -/
theorem getPte_frame {m m' : Paging} {va pte : UInt64} (h : getPte m va false = .ok (pte, m')) :
    m' = m := by
  obtain ⟨⟨pt0, m0⟩, h0, h⟩ := bind_eq_ok.mp h
  obtain ⟨⟨pt1, m1⟩, h1, h⟩ := bind_eq_ok.mp h
  obtain ⟨⟨pt2, m2⟩, h2, h⟩ := bind_eq_ok.mp h
  obtain ⟨⟨pt3, m3⟩, h3, h⟩ := bind_eq_ok.mp h
  calc m' = m3 := (Prod.mk.inj (Except.ok.inj h)).2.symm
    _ = m2 := nextTable_frame h3
    _ = m1 := nextTable_frame h2
    _ = m0 := nextTable_frame h1
    _ = m := rootTable_frame h0

/-- The walk looks at the page of an address only. -/
theorem getPte_pageBase (m : Paging) (va : UInt64) (alloc : Bool) :
    getPte m (pageBase va) alloc = getPte m va alloc := by
  obtain ⟨h0, h1, h2, h3⟩ := vaPart_pageBase va
  rw [getPte, getPte, h0, h1, h2, h3]

end Armv8Os.Pt
