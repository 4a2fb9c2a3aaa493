/-
  `kernel/mem.c`: the page allocator, and `common/rc.c`.

  A page is known by its number, `K2P(page) / PAGE_SIZE`.  The free pages are a linked list through the pages
  THEMSELVES: the first word of a free page is the pointer to the next one, and that of a page in use is whatever its
  holder writes there.

  1. **Program** — `kallocPage`, `kfreePage`, `pageRefPlus` over the list, the counts and `left_page_num`.

  2. **Specification** — `held`: how many references to a page have been taken and not given back.

  3. **Crux** — `Refines`: a page is on the list iff nobody holds it, and its count is the number of its holders.  Counts
     are 64-bit words, but one that has wrapped around is negative, and neither `page_ref_plus` nor `kfree_page` may be
     called on such a page.
-/
import Armv8Os.Lib.Chain
import Armv8Os.Lib.Transition

namespace Armv8Os.Pages

open Transition List
open Function (update update_idem update_of_ne update_self)

/-! ## The program -/

/-- `PAGE_NUM`. -/
def pageNum : Nat := 0x3f000000 / 4096

/-- An `isize`. -/
def i64 (n : Int) : Int := n.bmod (2 ^ 64)

/-- `pages`, the first words of all pages, `pages_info` and `left_page_num`. -/
structure State where
  head : Option Nat
  next : Nat → Option Nat
  ref : Nat → Int
  left : UInt64

/-- `add_to_queue(&pages, p)`, with nobody else there. -/
def addToQueue (s : State) (p : Nat) : State := { s with next := update s.next p s.head, head := some p }

/-- `fetch_from_queue(&pages)`; `none` for NULL. -/
def fetchFromQueue (s : State) : Option (Nat × State) := s.head.map fun p => (p, { s with head := s.next p })

/-- `init_rc`. -/
def initRc (s : State) (p : Nat) : State := { s with ref := update s.ref p 0 }

/-- `_increment_rc`. -/
def incrementRc (s : State) (p : Nat) : State := { s with ref := update s.ref p (i64 (s.ref p + 1)) }

/-- `_decrement_rc`. -/
def decrementRc (s : State) (p : Nat) : Bool × State :=
  (i64 (s.ref p - 1) ≤ 0, { s with ref := update s.ref p (i64 (s.ref p - 1)) })

/-- `kalloc_page`.  Without a free page it follows NULL. -/
def kallocPage (s : State) : Option (Nat × State) :=
  (fetchFromQueue s).map fun (p, s) =>
    let s := incrementRc (initRc s p) p
    (p, { s with left := s.left - 1 })

/-- The branch of `kfree_page` for the last reference. -/
def putBack (s : State) (p : Nat) : State :=
  let s := addToQueue s p
  { s with left := s.left + 1 }

/-- `kfree_page`. -/
def kfreePage (s : State) (p : Nat) : State :=
  let (last, s) := decrementRc s p
  if last then putBack s p else s

/-- `page_ref_plus`. -/
def pageRefPlus (s : State) (p : Nat) : State := incrementRc s p

/-- The early init of `pages`: `zeroPage` is the number of the zero page, `junk` what is in memory, and the counts are
static.  The zero page is held, and the pages above it become free. -/
def initPages (zeroPage : Nat) (junk : Nat → Option Nat) : State :=
  let s : State := { head := none, next := junk, ref := fun _ => 0, left := 0 }
  let s := incrementRc (initRc s zeroPage) zeroPage
  (List.range' (zeroPage + 1) (pageNum - (zeroPage + 1))).foldl putBack s

/-! ## The system -/

inductive Act where
  | kallocPage (p : Nat)  -- it returns `p`
  | pageRefPlus (p : Nat)
  | kfreePage (p : Nat)
  | write (p : Nat) (v : Option Nat)  -- a holder writes to the first word
  deriving DecidableEq

/-- One call.  References are added and given back only on pages that are held. -/
def step (s : State) : Act → Option State
  | .kallocPage p =>
    match kallocPage s with
    | some (q, s') => if q = p then some s' else none
    | none => none
  | .pageRefPlus p => if 1 ≤ s.ref p then some (pageRefPlus s p) else none
  | .kfreePage p => if 1 ≤ s.ref p then some (kfreePage s p) else none
  | .write p v => if 1 ≤ s.ref p then some { s with next := update s.next p v } else none

/-! ## The specification -/

/-- References taken and given back. -/
def hold (h : Nat → Nat) : Act → Nat → Nat
  | .kallocPage p => update h p 1
  | .pageRefPlus p => update h p (h p + 1)
  | .kfreePage p => update h p (h p - 1)
  | .write _ _ => h

/-- At the start the zero page is held. -/
def heldAtBoot (zeroPage : Nat) : Nat → Nat := update (fun _ => 0) zeroPage 1

/-- How many references to each page are out after the calls `as`. -/
def held (zeroPage : Nat) (as : List Act) : Nat → Nat := as.foldl hold (heldAtBoot zeroPage)

/-- The pages the allocator knows: the zero page and those above it.  At the end `top` is `PAGE_NUM`. -/
def Managed (zeroPage top p : Nat) : Prop := zeroPage ≤ p ∧ p < top

/-- The free list is the list of the pages nobody holds, and the counts count the holders. -/
structure Refines (zeroPage top : Nat) (s : State) (h : Nat → Nat) (l : List Nat) : Prop where
  chain : Chain s.next s.head l
  free : ∀ p, p ∈ l ↔ Managed zeroPage top p ∧ h p = 0
  ref : ∀ p, s.ref p = i64 (h p)
  bound : ∀ p, h p ≤ 2 ^ 63
  managed : ∀ p, 0 < h p → Managed zeroPage top p
  left : s.left.toNat = l.length

theorem i64_of_lt {n : Int} (h0 : -(2 ^ 63) ≤ n) (h : n < 2 ^ 63) : i64 n = n := by
  unfold i64
  rw [Int.bmod_eq_of_le] <;> omega

/-- `init_rc` and `_increment_rc` set a count to 1. -/
theorem ref_fresh (s : State) (p : Nat) : (incrementRc (initRc s p) p).ref = update s.ref p 1 := by
  show update (update s.ref p 0) p (i64 (update s.ref p 0 p + 1)) = _
  rw [update_idem, update_self]
  rfl

section Steps

variable {zeroPage top : Nat} {s s' : State} {h : Nat → Nat} {l : List Nat} {p : Nat}

section

variable (hr : Refines zeroPage top s h l)
include hr

theorem Refines.nodup : l.Nodup := hr.chain.nodup

/-- There are fewer free pages than a 64-bit counter can count. -/
theorem Refines.length_le : l.length ≤ top := by
  have hsub : l ⊆ List.range top := fun q hq => mem_range.mpr ((hr.free q).mp hq).1.2
  have hle := (subperm_of_subset hr.nodup hsub).length_le
  rwa [length_range] at hle

/-- A page that may be used has a count that has not wrapped. -/
theorem Refines.held_of_ref (hp : 1 ≤ s.ref p) : 0 < h p ∧ h p < 2 ^ 63 ∧ s.ref p = h p := by
  have hbound := hr.bound p
  have href := hr.ref p
  have hlt : h p < 2 ^ 63 := by
    rcases Nat.lt_or_eq_of_le hbound with hlt | heq
    · exact hlt
    · rw [href, heq] at hp
      exact absurd hp (by decide)
  rw [i64_of_lt (by omega) (by omega)] at href
  exact ⟨by omega, hlt, href⟩

theorem Refines.ref_zero_iff (p : Nat) : s.ref p = 0 ↔ h p = 0 := by
  have hbound := hr.bound p
  rw [hr.ref p]
  rcases Nat.lt_or_eq_of_le hbound with hlt | heq
  · rw [i64_of_lt (by omega) (by omega)]
    omega
  · rw [heq]
    exact ⟨fun hz => absurd hz (by decide), fun hz => absurd hz (by decide)⟩

/-- The counts after one of them is set. -/
theorem ref_update {n : Nat} {r : Int} (hn : r = i64 n) (q : Nat) :
    update s.ref p r q = i64 (update h p n q : Nat) := by
  rcases eq_or_ne q p with rfl | hne
  · rw [update_self, update_self, hn]
  · rw [update_of_ne hne, update_of_ne hne, hr.ref q]

theorem bound_update {n : Nat} (hn : n ≤ 2 ^ 63) (q : Nat) : update h p n q ≤ 2 ^ 63 := by
  rcases eq_or_ne q p with rfl | hne
  · rwa [update_self]
  · rw [update_of_ne hne]
    exact hr.bound q

theorem managed_update {n : Nat} (hp : Managed zeroPage top p) (q : Nat)
    (hq : 0 < update h p n q) : Managed zeroPage top q := by
  rcases eq_or_ne q p with rfl | hne
  · exact hp
  · rw [update_of_ne hne] at hq
    exact hr.managed q hq

/-- The first free page is handed out. -/
theorem Refines.kalloc (hstep : step s (.kallocPage p) = some s') :
    ∃ l', l = p :: l' ∧ Refines zeroPage top s' (hold h (.kallocPage p)) l' := by
  cases hhead : s.head with
  | none =>
    simp only [step, kallocPage, fetchFromQueue, hhead, Option.map_none] at hstep
    cases hstep
  | some q =>
    simp only [step, kallocPage, fetchFromQueue, hhead, Option.map_some] at hstep
    obtain ⟨rfl, rfl⟩ := of_guard hstep
    have hchain := hr.chain
    rw [hhead] at hchain
    obtain ⟨l', rfl, hrest⟩ := hchain.pop
    obtain ⟨hnot, -⟩ := nodup_cons.mp hr.nodup
    obtain ⟨hmanaged, -⟩ := (hr.free q).mp mem_cons_self
    refine ⟨l', rfl, hrest, fun r => ?_, fun r => ?_, bound_update hr (by norm_num), managed_update hr hmanaged, ?_⟩
    · show r ∈ l' ↔ Managed zeroPage top r ∧ update h q 1 r = 0
      rcases eq_or_ne r q with rfl | hne
      · simp [hnot]
      · rw [update_of_ne hne, ← hr.free r, mem_cons]
        exact ⟨Or.inr, fun hor => hor.resolve_left hne⟩
    · show (incrementRc (initRc _ q) q).ref r = _
      rw [ref_fresh]
      exact ref_update hr (by decide) r
    · show (s.left - 1).toNat = _
      have hleft := hr.left
      rw [UInt64.toNat_sub_of_le _ _ (UInt64.le_iff_toNat_le.mpr (by simp [hleft]))]
      simp [hleft]

/-- A page comes to the front of the list. -/
theorem Refines.putBack {h' : Nat → Nat} {top' : Nat} {ref : Nat → Int} (hp : p ∉ l)
    (hle : top ≤ pageNum) (hfree : ∀ q, Managed zeroPage top' q ∧ h' q = 0 ↔ q = p ∨ Managed zeroPage top q ∧ h q = 0)
    (href : ∀ q, ref q = i64 (h' q)) (hbound : ∀ q, h' q ≤ 2 ^ 63) (hmanaged : ∀ q, 0 < h' q → Managed zeroPage top' q) :
    Refines zeroPage top' (Pages.putBack { s with ref := ref } p) h' (p :: l) := by
  have hlength := hr.length_le
  refine ⟨hr.chain.push hp, fun q => ?_, href, hbound, hmanaged, ?_⟩
  · rw [hfree q, mem_cons, hr.free q]
  · show (s.left + 1).toNat = l.length + 1
    have hsmall : pageNum < 2 ^ 32 := by decide
    rw [UInt64.toNat_add, hr.left]
    simp only [UInt64.toNat_one]
    omega

theorem Refines.refPlus (hp : 1 ≤ s.ref p) : Refines zeroPage top (pageRefPlus s p) (hold h (.pageRefPlus p)) l := by
  obtain ⟨hpos, hlt, href⟩ := hr.held_of_ref hp
  refine ⟨hr.chain, fun q => ?_, ref_update hr ?_, bound_update hr hlt, managed_update hr (hr.managed p hpos), hr.left⟩
  · show q ∈ l ↔ Managed zeroPage top q ∧ update h p (h p + 1) q = 0
    rw [hr.free q]
    rcases eq_or_ne q p with rfl | hne
    · rw [update_self]
      exact and_congr_right fun _ => by omega
    · rw [update_of_ne hne]
  · rw [href]
    rfl

/-- Only the last reference puts the page on the list. -/
theorem Refines.kfree (hle : top ≤ pageNum) (hp : 1 ≤ s.ref p) :
    Refines zeroPage top (kfreePage s p) (hold h (.kfreePage p)) (if h p = 1 then p :: l else l) := by
  obtain ⟨hpos, hlt, href⟩ := hr.held_of_ref hp
  have hmanaged := hr.managed p hpos
  have hcount : i64 (s.ref p - 1) = ((h p - 1 : Nat) : Int) := by
    rw [href, i64_of_lt (by omega) (by omega)]
    omega
  have hrefs : ∀ q, update s.ref p (i64 (s.ref p - 1)) q = i64 (update h p (h p - 1) q : Nat) :=
    ref_update hr (by rw [hcount, i64_of_lt (by omega) (by omega)])
  have hfree : p ∉ l := by
    rw [hr.free p]
    omega
  by_cases hone : h p = 1
  · have hlast : i64 (s.ref p - 1) ≤ 0 := by omega
    have hkfree : kfreePage s p = Pages.putBack { s with ref := update s.ref p (i64 (s.ref p - 1)) } p := by
      show (if decide (i64 (s.ref p - 1) ≤ 0) = true then _ else _) = _
      rw [if_pos (decide_eq_true hlast)]
    rw [if_pos hone, hkfree]
    refine hr.putBack hfree hle (fun q => ?_) hrefs (bound_update hr (by omega)) (managed_update hr hmanaged)
    show _ ∧ update h p (h p - 1) q = 0 ↔ _
    rcases eq_or_ne q p with rfl | hne
    · simp [hmanaged, hone]
    · simp [hne]
  · have hkept : kfreePage s p = { s with ref := update s.ref p (i64 (s.ref p - 1)) } := by
      show (if decide (i64 (s.ref p - 1) ≤ 0) = true then _ else _) = _
      rw [if_neg (by rw [decide_eq_true_iff]; omega)]
    rw [if_neg hone, hkept]
    refine ⟨hr.chain, fun q => ?_, hrefs, bound_update hr (by omega), managed_update hr hmanaged, hr.left⟩
    show q ∈ l ↔ _ ∧ update h p (h p - 1) q = 0
    rw [hr.free q]
    rcases eq_or_ne q p with rfl | hne
    · rw [update_self]
      exact and_congr_right fun _ => by omega
    · rw [update_of_ne hne]

/-- A holder may write to its page: the page is on no list. -/
theorem Refines.write (hp : 1 ≤ s.ref p) (v : Option Nat) :
    Refines zeroPage top { s with next := update s.next p v } h l := by
  obtain ⟨hpos, -, -⟩ := hr.held_of_ref hp
  have hfree : p ∉ l := by
    rw [hr.free p]
    omega
  exact ⟨hr.chain.update hfree v, hr.free, hr.ref, hr.bound, hr.managed, hr.left⟩

end

end Steps

/-- The free list after a call. -/
def freeAfter (h : Nat → Nat) (l : List Nat) : Act → List Nat
  | .kallocPage _ => l.tail
  | .pageRefPlus _ => l
  | .kfreePage p => if h p = 1 then p :: l else l
  | .write _ _ => l

theorem step_refines {zeroPage : Nat} {s s' : State} {h : Nat → Nat} {l : List Nat} {a : Act}
    (hr : Refines zeroPage pageNum s h l) (hstep : step s a = some s') :
    Refines zeroPage pageNum s' (hold h a) (freeAfter h l a) := by
  cases a with
  | kallocPage p =>
    obtain ⟨l', rfl, hr'⟩ := hr.kalloc hstep
    exact hr'
  | pageRefPlus p =>
    obtain ⟨hp, rfl⟩ := of_guard hstep
    exact hr.refPlus hp
  | kfreePage p =>
    obtain ⟨hp, rfl⟩ := of_guard hstep
    exact hr.kfree le_rfl hp
  | write p v =>
    obtain ⟨hp, rfl⟩ := of_guard hstep
    exact hr.write hp v

/-! ## The start -/

theorem initPages_refines {zeroPage : Nat} (hzero : zeroPage < pageNum) (junk : Nat → Option Nat) :
    ∃ l, Refines zeroPage pageNum (initPages zeroPage junk) (heldAtBoot zeroPage) l := by
  -- the loop, up to any page
  have hloop : ∀ n, zeroPage + 1 + n ≤ pageNum → ∀ s l, Refines zeroPage (zeroPage + 1) s (heldAtBoot zeroPage) l →
      ∃ l', Refines zeroPage (zeroPage + 1 + n) ((List.range' (zeroPage + 1) n).foldl putBack s)
        (heldAtBoot zeroPage) l' := by
    intro n
    induction n with
    | zero => exact fun _ s l hr => ⟨l, hr⟩
    | succ n ih =>
      intro hle s l hr
      obtain ⟨l', hr'⟩ := ih (by omega) s l hr
      rw [List.range'_concat, foldl_append, one_mul]
      have hnew : heldAtBoot zeroPage (zeroPage + 1 + n) = 0 := update_of_ne (by omega) ..
      have hout : zeroPage + 1 + n ∉ l' := by
        rw [hr'.free]
        exact fun hin => absurd hin.1.2 (by omega)
      refine ⟨(zeroPage + 1 + n) :: l', hr'.putBack hout (by omega) (fun q => ?_) hr'.ref hr'.bound fun q hq => ?_⟩
      · constructor
        · rintro ⟨⟨hlow, hhigh⟩, hfree⟩
          by_cases hq : q = zeroPage + 1 + n
          · exact Or.inl hq
          · exact Or.inr ⟨⟨hlow, by omega⟩, hfree⟩
        · rintro (rfl | ⟨⟨hlow, hhigh⟩, hfree⟩)
          · exact ⟨⟨by omega, by omega⟩, hnew⟩
          · exact ⟨⟨hlow, by omega⟩, hfree⟩
      · obtain ⟨hlow, hhigh⟩ := hr'.managed q hq
        exact ⟨hlow, by omega⟩
  have hstart : Refines zeroPage (zeroPage + 1)
      (incrementRc (initRc { head := none, next := junk, ref := fun _ => 0, left := 0 } zeroPage) zeroPage)
      (heldAtBoot zeroPage) [] := by
    refine ⟨Chain.nil, fun p => ?_, fun p => ?_, fun p => ?_, fun p hp => ?_, rfl⟩
    · constructor
      · exact fun hp => absurd hp not_mem_nil
      · rintro ⟨⟨hlow, hhigh⟩, hfree⟩
        obtain rfl : p = zeroPage := by omega
        rw [heldAtBoot, update_self] at hfree
        cases hfree
    · rw [ref_fresh]
      unfold heldAtBoot
      rcases eq_or_ne p zeroPage with rfl | hne
      · rw [update_self, update_self]
        rfl
      · rw [update_of_ne hne, update_of_ne hne]
        rfl
    · unfold heldAtBoot
      rcases eq_or_ne p zeroPage with rfl | hne
      · norm_num
      · rw [update_of_ne hne]
        norm_num
    · by_cases hne : p = zeroPage
      · exact ⟨by omega, by omega⟩
      · rw [heldAtBoot, update_of_ne hne] at hp
        cases hp
  obtain ⟨l, hr⟩ := hloop (pageNum - (zeroPage + 1)) (by omega) _ [] hstart
  rw [show zeroPage + 1 + (pageNum - (zeroPage + 1)) = pageNum from by omega] at hr
  exact ⟨l, hr⟩

/-! ## The allocator -/

/-- What a correct allocator says of the state `s` after the calls `as`, where `l` is its free list. -/
structure Allocates (zeroPage : Nat) (as : List Act) (s : State) (l : List Nat) : Prop where
  chain : Chain s.next s.head l
  once : l.Nodup
  managed : ∀ p ∈ l, Managed zeroPage pageNum p
  free_iff : ∀ p, Managed zeroPage pageNum p → (p ∈ l ↔ s.ref p = 0)
  counts : ∀ p, s.ref p = i64 (held zeroPage as p)
  left : s.left.toNat = l.length
  returns : l ≠ [] → (kallocPage s).isSome
  fresh : ∀ p s', kallocPage s = some (p, s') → held zeroPage as p = 0
  last : ∀ a s' l', step s a = some s' → Chain s'.next s'.head l' → ∀ p, p ∉ l →
    (p ∈ l' ↔ a = .kfreePage p ∧ held zeroPage as p = 1)

/-- Only a `kfree_page` lengthens the list, and only by its own page. -/
theorem mem_freeAfter {h : Nat → Nat} {l : List Nat} {a : Act} {p : Nat} (hp : p ∉ l) :
    p ∈ freeAfter h l a ↔ a = .kfreePage p ∧ h p = 1 := by
  cases a with
  | kallocPage q => exact ⟨fun hin => absurd (mem_of_mem_tail hin) hp, fun hfree => nomatch hfree.1⟩
  | pageRefPlus q => exact ⟨fun hin => absurd hin hp, fun hfree => nomatch hfree.1⟩
  | write q v => exact ⟨fun hin => absurd hin hp, fun hfree => nomatch hfree.1⟩
  | kfreePage q =>
    show p ∈ (if h q = 1 then q :: l else l) ↔ _
    by_cases hone : h q = 1
    · rw [if_pos hone, mem_cons, or_iff_left hp]
      constructor
      · rintro rfl
        exact ⟨rfl, hone⟩
      · rintro ⟨hq, -⟩
        exact (Act.kfreePage.inj hq).symm
    · rw [if_neg hone, iff_false_left hp]
      rintro ⟨hq, hone'⟩
      exact hone (Act.kfreePage.inj hq ▸ hone')

/-- **The page allocator.**  Whatever the calls, the free list, the counts and `left_page_num` agree: a page is free iff
its count is 0 iff nobody holds it. -/
theorem page_allocator {zeroPage : Nat} (hzero : zeroPage < pageNum) (junk : Nat → Option Nat) (as : List Act) (s : State)
    (hrun : run step (initPages zeroPage junk) as = some s) : ∃ l, Allocates zeroPage as s l := by
  obtain ⟨l₀, hinit⟩ := initPages_refines hzero junk
  obtain ⟨l, hr⟩ := run_simulates (R := fun s h => ∃ l, Refines zeroPage pageNum s h l)
    (fun s h a s' ⟨l, hr⟩ hstep => ⟨freeAfter h l a, step_refines hr hstep⟩) as _ s _ ⟨l₀, hinit⟩ hrun
  refine ⟨l, ?_⟩
  constructor
  case chain => exact hr.chain
  case once => exact hr.nodup
  case managed => exact fun p hp => ((hr.free p).mp hp).1
  case free_iff =>
    intro p hp
    rw [hr.free p, hr.ref_zero_iff p]
    exact and_iff_right hp
  case counts => exact hr.ref
  case left => exact hr.left
  case returns =>
    intro hne
    cases hhead : s.head with
    | none => exact absurd (Chain.head_eq_none (hhead ▸ hr.chain)) hne
    | some p =>
      unfold kallocPage fetchFromQueue
      rw [hhead]
      rfl
  case fresh =>
    intro p s' halloc
    have hstep : step s (.kallocPage p) = some s' := by
      show (match kallocPage s with | some (q, s') => if q = p then some s' else none | none => none) = _
      rw [halloc]
      exact if_pos rfl
    obtain ⟨l', rfl, -⟩ := hr.kalloc hstep
    exact ((hr.free p).mp mem_cons_self).2
  case last =>
    intro a s' l' hstep hchain p hp
    rw [hchain.unique (step_refines hr hstep).chain]
    exact mem_freeAfter hp

/-- A shared page is freed twice, and only the second time is it free. -/
theorem page_allocator_shared :
    ∃ s, run step (initPages (pageNum - 3) fun _ => none)
        [.kallocPage (pageNum - 1), .write (pageNum - 1) none, .pageRefPlus (pageNum - 1), .kfreePage (pageNum - 1),
          .kallocPage (pageNum - 2), .kfreePage (pageNum - 1), .kallocPage (pageNum - 1)] = some s ∧
      ∃ l, Allocates (pageNum - 3)
        [.kallocPage (pageNum - 1), .write (pageNum - 1) none, .pageRefPlus (pageNum - 1), .kfreePage (pageNum - 1),
          .kallocPage (pageNum - 2), .kfreePage (pageNum - 1), .kallocPage (pageNum - 1)] s l := by
  refine exists_run (P := fun _ => True) (by decide +kernel) fun s hrun _ => ?_
  exact page_allocator (by decide) _ _ s hrun

end Armv8Os.Pages
