/-
  `kernel/mem.c`: the slab allocator behind `kalloc` and `kfree`.

  A slab is one page: a `slab_t` header of 48 bytes and behind it objects of `2^order` bytes.  Its free
  objects are threaded through the objects themselves (`objs`), and the slab sits on `slabs_partial` or
  `slabs_full` of the cache of its order.  The circular lists are `List`s with the node after the head
  first, which is where `_insert_into_list` puts a new node; `_detach_from_list` unlinks a node from
  whatever list it is on.  Addresses are `Nat`s: the page pool ends below `P2K(PHYSTOP)`, so no sum in
  these functions wraps.

  `none` is a fault of the source: no page left, an index past `caches[SLAB_MAX]`, or the head of an
  empty list taken for an object.

  1. **Carving** (`mem_carve`, `nodup_carve`): the loop of `init_slab` lists exactly the slots of the page.
  2. **Lists** (`Placed`): what detaching and inserting a slab does to the lists of all orders.
  3. **The invariant** (`Inv`): objects live on slabs, free and live objects partition a slab's slots.
  4. **Runs** (`slab_allocator`).
-/
import Armv8Os.Lib.Transition

namespace Armv8Os.Slab

open Transition List Option Nat
open Function (update update_of_ne update_self)

/-! ## The source -/

def pageSize : Nat := 4096

/-- `SLAB_MAX`: the order of the largest objects. -/
def slabMax : Nat := 11

/-- `sizeof(slab_t)`: a pointer, a padded `u32` and two list nodes. -/
def slabHeader : Nat := 48

/-- `slab_t`: the order of its cache, the number of objects handed out and the free ones. -/
structure SlabT where
  parent : Nat
  used : Nat
  objs : List Nat
  deriving Repr, DecidableEq

/-- `kmem_cache_t`: the slabs of one order, by their pages. -/
structure KmemCache where
  slabsPartial : List Nat
  slabsFull : List Nat
  deriving Repr, DecidableEq

/-- The page pool, `pages_info`, `caches` and the slab headers at the start of their pages. -/
structure Heap where
  pages : List Nat
  leftPageNum : Nat
  ref : Nat → Int
  caches : Nat → KmemCache
  slabs : Nat → SlabT

/-- `kalloc_page`. -/
def kallocPage (h : Heap) : Option (Nat × Heap) :=
  match h.pages with
  | [] => none
  | p :: ps => some (p, { h with
      pages := ps, ref := update h.ref p 1, leftPageNum := h.leftPageNum - 1 })

/-- `kfree_page`. -/
def kfreePage (h : Heap) (p : Nat) : Heap :=
  if h.ref p - 1 ≤ 0 then
    { h with
      ref := update h.ref p (h.ref p - 1), pages := p :: h.pages,
      leftPageNum := h.leftPageNum + 1 }
  else { h with ref := update h.ref p (h.ref p - 1) }

/-- The loop of `log2_` with `n` rounds left up to 13. -/
def log2Loop : Nat → Nat → Nat → Nat
  | 0, r, _ => r
  | n + 1, r, size => if 2 ^ r < size then log2Loop n (r + 1) size else r

/-- `log2_`: the order of a size, at least 4. -/
def log2 (size : Nat) : Nat := log2Loop (13 - 4) 4 size

def Heap.setCache (h : Heap) (order : Nat) (c : KmemCache) : Heap :=
  { h with caches := update h.caches order c }

/-- `_insert_into_list(&caches[order].slabs_partial, &slab->ptNode)`. -/
def Heap.insertPartial (h : Heap) (order slab : Nat) : Heap :=
  h.setCache order
    { h.caches order with slabsPartial := slab :: (h.caches order).slabsPartial }

/-- `_insert_into_list(&caches[order].slabs_full, &slab->ptNode)`. -/
def Heap.insertFull (h : Heap) (order slab : Nat) : Heap :=
  h.setCache order { h.caches order with slabsFull := slab :: (h.caches order).slabsFull }

/-- `_detach_from_list(&slab->ptNode)`. -/
def Heap.detach (h : Heap) (slab : Nat) : Heap :=
  { h with caches := fun o =>
      { slabsPartial := (h.caches o).slabsPartial.erase slab
        slabsFull := (h.caches o).slabsFull.erase slab } }

def Heap.setSlab (h : Heap) (slab : Nat) (t : SlabT) : Heap :=
  { h with slabs := update h.slabs slab t }

/-- The carving loop of `init_slab`: every object is put in front of the ones below it. -/
def carve (order slab : Nat) : Nat → Nat → List Nat → List Nat
  | 0, _, objs => objs
  | n + 1, p, objs =>
    if p < slab + pageSize - 2 ^ order then carve order slab n (p + 2 ^ order) (p :: objs) else objs

/-- `init_slab`: carve a new page and hand out its first object. -/
def initSlab (order : Nat) (h : Heap) : Option (Nat × Heap) :=
  match kallocPage h with
  | none => none
  | some (slab, h) =>
    match carve order slab pageSize (slab + slabHeader) [] with
    | [] => none
    | obj :: objs =>
      let h := h.setSlab slab { parent := order, used := 1, objs := objs }
      some (obj, if objs = [] then h.insertFull order slab else h.insertPartial order slab)

/-- `find_in_slab`: the first object of the first partial slab, `none` inside when there is no such
    slab. -/
def findInSlab (order : Nat) (h : Heap) : Option (Option Nat × Heap) :=
  match (h.caches order).slabsPartial with
  | [] => some (none, h)
  | slab :: _ =>
    match (h.slabs slab).objs with
    | [] => none
    | obj :: objs =>
      let h := h.setSlab slab { h.slabs slab with used := (h.slabs slab).used + 1, objs := objs }
      some (some obj, if objs = [] then (h.detach slab).insertFull order slab else h)

/-- `kalloc`. -/
def kalloc (size : Nat) (h : Heap) : Option (Nat × Heap) :=
  if log2 size ≤ slabMax then
    match findInSlab (log2 size) h with
    | none => none
    | some (some obj, h) => some (obj, h)
    | some (none, h) => initSlab (log2 size) h
  else none

/-- `(u64)p >> 12 << 12`. -/
def pageOf (p : Nat) : Nat := p / pageSize * pageSize

/-- `kfree`. -/
def kfree (p : Nat) (h : Heap) : Heap :=
  let slab := pageOf p
  let t : SlabT := { h.slabs slab with used := (h.slabs slab).used - 1, objs := p :: (h.slabs slab).objs }
  let h := (h.setSlab slab t).detach slab
  if t.used = 0 then kfreePage h slab else h.insertPartial t.parent slab

/-! ## Callers -/

/-- The allocator and the objects its callers hold, each with the size that was asked for. -/
structure State where
  heap : Heap
  live : List (Nat × Nat)

inductive Act where
  | kalloc (size : Nat)
  | kfree (p : Nat)
  deriving Repr, DecidableEq

/-- `kalloc` with a size the caches serve, `kfree` of an object that is held. -/
def step (s : State) : Act → Option State
  | .kalloc size =>
    if 1 ≤ size ∧ size ≤ 2048 then
      (kalloc size s.heap).map fun r => { heap := r.2, live := (r.1, size) :: s.live }
    else none
  | .kfree p =>
    if p ∈ s.live.map Prod.fst then
      some { heap := kfree p s.heap, live := s.live.eraseP fun x => x.1 = p }
    else none

/-- After the early initialisation of `pages`: all caches empty, the free pages in the queue. -/
def boot (pages : List Nat) (ref : Nat → Int) (slabs : Nat → SlabT) : State :=
  { heap := { pages := pages, leftPageNum := pages.length, ref := ref,
              caches := fun _ => { slabsPartial := [], slabsFull := [] }, slabs := slabs }
    live := [] }

/-! ## Orders and slots -/

variable {size : Nat}

/-- The order of a size up to 2048: one of the caches, its objects large enough. -/
theorem log2_spec (hsize : size ≤ 2048) :
    4 ≤ log2 size ∧ log2 size ≤ slabMax ∧ size ≤ 2 ^ log2 size := by
  unfold log2 slabMax
  simp only [log2Loop]
  split_ifs <;> omega

/-- `q` is one of the object slots of a page carved at `order`. -/
def IsSlot (order slab q : Nat) : Prop :=
  ∃ k, q = slab + slabHeader + k * 2 ^ order ∧ q + 2 ^ order < slab + pageSize

variable {order slab q : Nat}

/-- A slot lies in its page behind the header. -/
theorem IsSlot.bounds (h : IsSlot order slab q) :
    slab + slabHeader ≤ q ∧ q + 2 ^ order < slab + pageSize := by
  obtain ⟨k, hk, hlt⟩ := h
  exact ⟨by rw [hk]; exact le_add_right _ _, hlt⟩

theorem pageOf_mod (p : Nat) : pageOf p % pageSize = 0 := mul_mod_left _ _

/-- A slot's page is found by clearing its low bits. -/
theorem IsSlot.pageOf_eq (h : IsSlot order slab q)
    (hslab : slab % pageSize = 0) : pageOf q = slab := by
  obtain ⟨hlow, hhigh⟩ := h.bounds
  have hpos : 0 < 2 ^ order := Nat.two_pow_pos order
  unfold pageOf pageSize at *
  omega

/-- Slots are aligned as the smallest objects are. -/
theorem IsSlot.aligned (h : IsSlot order slab q) (hslab : slab % pageSize = 0)
    (horder : 4 ≤ order) : q % 16 = 0 := by
  obtain ⟨k, rfl, -⟩ := h
  obtain ⟨n, rfl⟩ := Nat.exists_eq_add_of_le horder
  have hmul : k * 2 ^ (4 + n) = 16 * (k * 2 ^ n) := by rw [pow_add]; ring
  unfold pageSize slabHeader at *
  omega

variable {p : Nat}

/-- Two slots of a page are the same or at least an object apart. -/
theorem IsSlot.apart (hp : IsSlot order slab p) (hq : IsSlot order slab q)
    (hne : p ≠ q) : p + 2 ^ order ≤ q ∨ q + 2 ^ order ≤ p := by
  obtain ⟨k, rfl, -⟩ := hp
  obtain ⟨j, rfl, -⟩ := hq
  rcases lt_trichotomy k j with hlt | rfl | hgt
  · left
    have := mul_le_mul_right (2 ^ order) hlt
    rw [succ_mul] at this
    omega
  · exact absurd rfl hne
  · right
    have := mul_le_mul_right (2 ^ order) hgt
    rw [succ_mul] at this
    omega

/-- From the `k`-th slot on, the loop adds every slot that is left.  Each round moves `p` up, so a
    page's worth of rounds is enough. -/
theorem mem_carve : ∀ {n p k : Nat} {objs : List Nat},
    p = slab + slabHeader + k * 2 ^ order → slab + pageSize ≤ p + n →
    (q ∈ carve order slab n p objs ↔ q ∈ objs ∨
      ∃ j, k ≤ j ∧ q = slab + slabHeader + j * 2 ^ order ∧ q + 2 ^ order < slab + pageSize) := by
  have hpos : 0 < 2 ^ order := Nat.two_pow_pos order
  -- a later slot lies above `p`
  have habove : ∀ {k j : Nat}, k ≤ j → k * 2 ^ order ≤ j * 2 ^ order :=
    fun hkj => mul_le_mul_right _ hkj
  intro n
  induction n with
  | zero =>
    intro p k objs hp hn
    refine ⟨Or.inl, Or.rec id ?_⟩
    rintro ⟨j, hkj, hq, hlt⟩
    have := habove hkj
    omega
  | succ n ih =>
    intro p k objs hp hn
    simp only [carve]
    split
    · rename_i hlt
      have hp' : p + 2 ^ order = slab + slabHeader + (k + 1) * 2 ^ order := by
        rw [succ_mul]
        omega
      rw [ih hp' (by omega), mem_cons]
      constructor
      · rintro ((rfl | hmem) | ⟨j, hkj, hq⟩)
        · exact .inr ⟨k, le_rfl, hp, by omega⟩
        · exact .inl hmem
        · exact .inr ⟨j, by omega, hq⟩
      · rintro (hmem | ⟨j, hkj, hq, hq'⟩)
        · exact .inl (.inr hmem)
        · rcases eq_or_lt_of_le hkj with rfl | hlt'
          · exact .inl (.inl (hq.trans hp.symm))
          · exact .inr ⟨j, hlt', hq, hq'⟩
    · rename_i hge
      refine ⟨Or.inl, Or.rec id ?_⟩
      rintro ⟨j, hkj, hq, hlt⟩
      have := habove hkj
      omega

/-- The loop lists no object twice: each one lies above all before it. -/
theorem nodup_carve : ∀ {n p : Nat} {objs : List Nat}, objs.Nodup →
    (∀ q ∈ objs, q < p) → (carve order slab n p objs).Nodup := by
  intro n
  induction n with
  | zero => exact fun hnodup _ => hnodup
  | succ n ih =>
    intro p objs hnodup hbelow
    simp only [carve]
    split
    · refine ih (nodup_cons.mpr ⟨fun hp => lt_irrefl _ (hbelow p hp), hnodup⟩) ?_
      intro q hq
      have hpos : 0 < 2 ^ order := Nat.two_pow_pos order
      rcases mem_cons.mp hq with rfl | hq
      · omega
      · have := hbelow q hq
        omega
    · exact hnodup

/-- What `init_slab` carves: each slot of the page once. -/
theorem carve_page (order slab : Nat) :
    (∀ q, q ∈ carve order slab pageSize (slab + slabHeader) [] ↔ IsSlot order slab q) ∧
      (carve order slab pageSize (slab + slabHeader) []).Nodup := by
  refine ⟨fun q => ?_, nodup_carve nodup_nil (fun _ hq => absurd hq not_mem_nil)⟩
  rw [mem_carve (k := 0) (by omega) (by omega)]
  constructor
  · rintro (hnil | ⟨j, -, hj⟩)
    · exact absurd hnil not_mem_nil
    · exact ⟨j, hj⟩
  · rintro ⟨j, hj⟩
    exact .inr ⟨j, zero_le j, hj⟩

/-! ## The invariant -/

/-- The addresses of the objects held. -/
def State.addrs (s : State) : List Nat := s.live.map Prod.fst

/-- The live objects on a page. -/
def State.liveIn (s : State) (P : Nat) : List Nat := s.addrs.filter fun q => pageOf q = P

variable {s : State} {P : Nat}

theorem State.mem_liveIn :
    q ∈ s.liveIn P ↔ q ∈ s.addrs ∧ pageOf q = P := by
  simp [State.liveIn]

/-- The header of a page with live objects. -/
structure SlabOk (s : State) (P : Nat) : Prop where
  range : 4 ≤ (s.heap.slabs P).parent ∧ (s.heap.slabs P).parent ≤ slabMax
  used : (s.heap.slabs P).used = (s.liveIn P).length
  slots : ∀ q, IsSlot (s.heap.slabs P).parent P q ↔ q ∈ (s.heap.slabs P).objs ∨ q ∈ s.liveIn P
  objs : (s.heap.slabs P).objs.Nodup
  free : ∀ q ∈ (s.heap.slabs P).objs, q ∉ s.liveIn P
  ref : s.heap.ref P = 1
  out : P ∉ s.heap.pages

/-- The full or the partial slabs of a cache. -/
def KmemCache.list (c : KmemCache) : Bool → List Nat
  | true => c.slabsFull
  | false => c.slabsPartial

/-- The page pool keeps its books. -/
structure PoolOk (h : Heap) : Prop where
  nodup : h.pages.Nodup
  aligned : ∀ P ∈ h.pages, P % pageSize = 0
  left : h.leftPageNum = h.pages.length

/-- No slab is twice on a list. -/
def ListsOk (h : Heap) : Prop := ∀ o b, ((h.caches o).list b).Nodup

/-- What `kalloc` and `kfree` keep.  The slabs are the pages with live objects, and a slab is full when
    it has no free object. -/
structure Inv (s : State) : Prop where
  slab : ∀ P, s.liveIn P ≠ [] → SlabOk s P
  listed : ∀ P o b, P ∈ (s.heap.caches o).list b ↔
    s.liveIn P ≠ [] ∧ (s.heap.slabs P).parent = o ∧ (s.heap.slabs P).objs.isEmpty = b
  lists : ListsOk s.heap
  addrs : s.addrs.Nodup
  sizes : ∀ x ∈ s.live, x.2 ≤ 2 ^ (s.heap.slabs (pageOf x.1)).parent
  pool : PoolOk s.heap

/-- What a call that works on the page `P` leaves alone. -/
structure Frame (P : Nat) (s s' : State) : Prop where
  slabs : ∀ Q, Q ≠ P → s'.heap.slabs Q = s.heap.slabs Q
  ref : ∀ Q, Q ≠ P → s'.heap.ref Q = s.heap.ref Q
  listed : ∀ Q o b, Q ≠ P → (Q ∈ (s'.heap.caches o).list b ↔ Q ∈ (s.heap.caches o).list b)
  pages : ∀ Q, Q ≠ P → Q ∈ s'.heap.pages → Q ∈ s.heap.pages
  live : ∀ Q, Q ≠ P → s'.liveIn Q = s.liveIn Q

/-- The invariant after a call has to be checked at its page only. -/
theorem Inv.change {s' : State} (h : Inv s) (hf : Frame P s s') (hslab : s'.liveIn P ≠ [] → SlabOk s' P)
    (hlisted : ∀ o b, P ∈ (s'.heap.caches o).list b ↔
      s'.liveIn P ≠ [] ∧ (s'.heap.slabs P).parent = o ∧ (s'.heap.slabs P).objs.isEmpty = b)
    (hlists : ListsOk s'.heap) (haddrs : s'.addrs.Nodup)
    (hsizes : ∀ x ∈ s'.live, x.2 ≤ 2 ^ (s'.heap.slabs (pageOf x.1)).parent) (hpool : PoolOk s'.heap) : Inv s' where
  slab Q hQ := by
    rcases eq_or_ne Q P with rfl | hne
    · exact hslab hQ
    · rw [hf.live Q hne] at hQ
      have hok := h.slab Q hQ
      refine ⟨?_, ?_, ?_, ?_, ?_, ?_, fun hmem => hok.out (hf.pages Q hne hmem)⟩
      · rw [hf.slabs Q hne]; exact hok.range
      · rw [hf.slabs Q hne, hf.live Q hne]; exact hok.used
      · rw [hf.slabs Q hne, hf.live Q hne]; exact hok.slots
      · rw [hf.slabs Q hne]; exact hok.objs
      · rw [hf.slabs Q hne, hf.live Q hne]; exact hok.free
      · rw [hf.ref Q hne]; exact hok.ref
  listed Q o b := by
    rcases eq_or_ne Q P with rfl | hne
    · exact hlisted o b
    · rw [hf.listed Q o b hne, hf.live Q hne, hf.slabs Q hne]
      exact h.listed Q o b
  lists := hlists
  addrs := haddrs
  sizes := hsizes
  pool := hpool

/-! ## The lists -/

/-- Put a slab in front of the full or of the partial slabs of an order. -/
def Heap.insertAt (h : Heap) (b : Bool) (order slab : Nat) : Heap :=
  match b with
  | true => h.insertFull order slab
  | false => h.insertPartial order slab

theorem list_insertAt (h : Heap) (b b' : Bool) (o o' P : Nat) :
    ((h.insertAt b o P).caches o').list b' =
      if o' = o ∧ b' = b then P :: (h.caches o).list b else (h.caches o').list b' := by
  rcases eq_or_ne o' o with rfl | hne
  · cases b <;> cases b' <;>
      simp [Heap.insertAt, Heap.insertFull, Heap.insertPartial, Heap.setCache, KmemCache.list]
  · cases b <;>
      simp [Heap.insertAt, Heap.insertFull, Heap.insertPartial, Heap.setCache, hne]

theorem list_detach (h : Heap) (b : Bool) (o P : Nat) :
    ((h.detach P).caches o).list b = ((h.caches o).list b).erase P := by
  cases b <;> rfl

variable {h : Heap} {o : Nat}

/-- After a detach the slab is on no list, and all others are where they were. -/
theorem mem_detach (hl : ListsOk h) {b : Bool} {Q : Nat} :
    Q ∈ ((h.detach P).caches o).list b ↔ Q ≠ P ∧ Q ∈ (h.caches o).list b := by
  rw [list_detach]
  exact (hl o b).mem_erase_iff

theorem listsOk_detach (hl : ListsOk h) (P : Nat) : ListsOk (h.detach P) := by
  intro o b
  rw [list_detach]
  exact (hl o b).erase P

theorem mem_insertAt {b b' : Bool} {o' Q : Nat} :
    Q ∈ ((h.insertAt b o P).caches o').list b' ↔
      (Q = P ∧ o' = o ∧ b' = b) ∨ Q ∈ (h.caches o').list b' := by
  rw [list_insertAt]
  split
  · rename_i heq
    obtain ⟨rfl, rfl⟩ := heq
    simp
  · rename_i hne
    simp [hne]

/-- A slab that is on no list can be put on one. -/
theorem listsOk_insertAt (hl : ListsOk h) {b : Bool}
    (hP : P ∉ (h.caches o).list b) : ListsOk (h.insertAt b o P) := by
  intro o' b'
  rw [list_insertAt]
  split
  · exact nodup_cons.mpr ⟨hP, hl o b⟩
  · exact hl o' b'

/-! ## Live objects -/

/-- The state after an object of size `size` has been handed out. -/
def State.handed (s : State) (h : Heap) (obj size : Nat) : State :=
  { heap := h, live := (obj, size) :: s.live }

theorem liveIn_handed (s : State) (h : Heap) (obj size P : Nat) :
    (s.handed h obj size).liveIn P =
      if pageOf obj = P then obj :: s.liveIn P else s.liveIn P := by
  simp [State.liveIn, State.addrs, State.handed, filter_cons]

/-- What `find_in_slab` and `init_slab` have in common: `obj` comes off the free objects of the page `P`
    of order `o`, and the slab is filed by whether any are left. -/
structure Hands (s : State) (P o obj : Nat) (objs : List Nat) (h : Heap) : Prop where
  page : P % pageSize = 0
  range : 4 ≤ o ∧ o ≤ slabMax
  slots : ∀ q, IsSlot o P q ↔ q ∈ obj :: objs ∨ q ∈ s.liveIn P
  nodup : (obj :: objs).Nodup
  free : ∀ q ∈ obj :: objs, q ∉ s.liveIn P
  parent : s.liveIn P ≠ [] → (s.heap.slabs P).parent = o
  header : h.slabs P = { parent := o, used := (s.liveIn P).length + 1, objs := objs }
  slabs : ∀ Q, Q ≠ P → h.slabs Q = s.heap.slabs Q
  ref : h.ref P = 1 ∧ ∀ Q, Q ≠ P → h.ref Q = s.heap.ref Q
  out : P ∉ h.pages
  pages : ∀ Q ∈ h.pages, Q ∈ s.heap.pages
  listed : ∀ b o', P ∈ (h.caches o').list b ↔ o' = o ∧ objs.isEmpty = b
  others : ∀ Q b o', Q ≠ P → (Q ∈ (h.caches o').list b ↔ Q ∈ (s.heap.caches o').list b)
  lists : ListsOk h
  pool : PoolOk h

theorem Hands.inv {obj : Nat} {objs : List Nat}
    (hh : Hands s P o obj objs h) (hinv : Inv s) (hsize : size ≤ 2 ^ o) :
    Inv (s.handed h obj size) := by
  have hobj : pageOf obj = P :=
    ((hh.slots obj).mpr (.inl mem_cons_self)).pageOf_eq hh.page
  have hnotin : obj ∉ s.liveIn P := hh.free obj mem_cons_self
  have hlive : (s.handed h obj size).liveIn P = obj :: s.liveIn P := by
    rw [liveIn_handed, if_pos hobj]
  refine hinv.change (P := P) ⟨hh.slabs, hh.ref.2, fun Q o' b hQ => hh.others Q b o' hQ,
    fun Q _ hQ => hh.pages Q hQ, ?_⟩ ?_ ?_ hh.lists ?_ ?_ hh.pool
  · intro Q hne
    rw [liveIn_handed, if_neg (by rw [hobj]; exact hne.symm)]
  · -- the header of the slab itself
    intro _
    have hnodup := nodup_cons.mp hh.nodup
    have hheader : (s.handed h obj size).heap.slabs P = _ := hh.header
    refine ⟨?_, ?_, ?_, ?_, ?_, hh.ref.1, hh.out⟩
    · rw [hheader]; exact hh.range
    · rw [hheader, hlive]; rfl
    · intro q
      rw [hheader, hlive, hh.slots q, mem_cons, mem_cons]
      tauto
    · rw [hheader]; exact hnodup.2
    · intro q hq
      rw [hheader] at hq
      rw [hlive, mem_cons, not_or]
      refine ⟨?_, hh.free q (mem_cons_of_mem _ hq)⟩
      rintro rfl
      exact hnodup.1 hq
  · intro o' b
    have hheader : (s.handed h obj size).heap.slabs P = _ := hh.header
    rw [hheader, hlive]
    exact (hh.listed b o').trans ⟨fun ⟨ho, hb⟩ => ⟨cons_ne_nil _ _, ho.symm, hb⟩,
      fun ⟨_, ho, hb⟩ => ⟨ho.symm, hb⟩⟩
  · show (obj :: s.addrs).Nodup
    refine nodup_cons.mpr ⟨fun hmem => hnotin ?_, hinv.addrs⟩
    exact State.mem_liveIn.mpr ⟨hmem, hobj⟩
  · intro x hx
    show x.2 ≤ 2 ^ (h.slabs (pageOf x.1)).parent
    rcases mem_cons.mp hx with rfl | hx
    · rw [hobj, hh.header]
      exact hsize
    · have hold := hinv.sizes x hx
      rcases eq_or_ne (pageOf x.1) P with hxP | hne
      · have hin : x.1 ∈ s.liveIn P :=
          State.mem_liveIn.mpr ⟨mem_map_of_mem hx, hxP⟩
        rw [hxP, hh.parent (ne_nil_of_mem hin)] at hold
        rw [hxP, hh.header]
        exact hold
      · rw [hh.slabs _ hne]
        exact hold

/-- `find_in_slab` on a cache with a partial slab. -/
theorem findInSlab_hands (hinv : Inv s) {rest : List Nat}
    (hlist : (s.heap.caches o).slabsPartial = P :: rest) :
    ∃ obj objs h, findInSlab o s.heap = some (some obj, h) ∧ Hands s P o obj objs h := by
  have hmem : P ∈ (s.heap.caches o).list false := by
    show P ∈ (s.heap.caches o).slabsPartial
    rw [hlist]
    exact mem_cons_self
  obtain ⟨hne, hparent, hobjs⟩ := (hinv.listed P o false).mp hmem
  have hok := hinv.slab P hne
  have hrange := hok.range
  have hslots := hok.slots
  rw [hparent] at hrange hslots
  have hpage : P % pageSize = 0 := by
    obtain ⟨q, hq⟩ := exists_mem_of_ne_nil _ hne
    rw [← (State.mem_liveIn.mp hq).2]
    exact pageOf_mod q
  cases hslab : (s.heap.slabs P).objs with
  | nil => rw [hslab] at hobjs; cases hobjs
  | cons obj objs =>
    have hnodup := hok.objs
    have hfree := hok.free
    rw [hslab] at hslots hnodup hfree
    -- the slab stays in front of the partial ones, or it moves to the full ones
    let t : SlabT := { s.heap.slabs P with used := (s.heap.slabs P).used + 1, objs := objs }
    have ht : t = { parent := o, used := (s.liveIn P).length + 1, objs := objs } := by
      simp only [t, hparent, hok.used]
    have hlists : ListsOk (s.heap.setSlab P t) := hinv.lists
    have hon : ∀ b o', P ∈ ((s.heap.setSlab P t).caches o').list b ↔ o' = o ∧ b = false := by
      intro b o'
      refine (hinv.listed P o' b).trans ?_
      rw [hparent, hslab]
      simp [hne, eq_comm]
    have hpool := hinv.pool
    by_cases hnil : objs = []
    · refine ⟨obj, objs, ((s.heap.setSlab P t).detach P).insertAt true o P, ?_, ?_⟩
      · simp only [findInSlab, hlist, hslab]
        rw [if_pos hnil]
        rfl
      · refine ⟨hpage, hrange, hslots, hnodup, hfree, fun _ => hparent, ?_, ?_, ⟨hok.ref, fun _ _ => rfl⟩,
          hok.out, fun _ hQ => hQ, ?_, ?_, ?_, ⟨hpool.1, hpool.2, hpool.3⟩⟩
        · show update s.heap.slabs P t P = _
          rw [update_self, ht]
        · exact fun Q hQ => update_of_ne hQ _ _
        · intro b o'
          rw [mem_insertAt, mem_detach hlists, hnil]
          simp [eq_comm]
        · intro Q b o' hQ
          rw [mem_insertAt, mem_detach hlists]
          simp only [hQ, false_and, false_or, ne_eq, not_false_iff, true_and]
          rfl
        · refine listsOk_insertAt (listsOk_detach hlists P) ?_
          rw [mem_detach hlists]
          exact fun hP => hP.1 rfl
    · refine ⟨obj, objs, s.heap.setSlab P t, ?_, ?_⟩
      · simp only [findInSlab, hlist, hslab]
        rw [if_neg hnil]
      · refine ⟨hpage, hrange, hslots, hnodup, hfree, fun _ => hparent, ?_, ?_, ⟨hok.ref, fun _ _ => rfl⟩,
          hok.out, fun _ hQ => hQ, ?_, fun _ _ _ _ => Iff.rfl, hlists, ⟨hpool.1, hpool.2, hpool.3⟩⟩
        · show update s.heap.slabs P t P = _
          rw [update_self, ht]
        · exact fun Q hQ => update_of_ne hQ _ _
        · intro b o'
          have hisEmpty : objs.isEmpty = false := by simpa using hnil
          rw [hon, hisEmpty, eq_comm (a := b)]

/-- `init_slab` with a page in the pool. -/
theorem initSlab_hands (hinv : Inv s) {ps : List Nat}
    (hrange : 4 ≤ o ∧ o ≤ slabMax) (hpages : s.heap.pages = P :: ps) :
    ∃ obj objs h, initSlab o s.heap = some (obj, h) ∧ Hands s P o obj objs h := by
  obtain ⟨hslots, hnodup⟩ := carve_page o P
  have hpool := hinv.pool
  have hnodupPages := hpool.nodup
  rw [hpages, nodup_cons] at hnodupPages
  -- a page of the pool holds nothing and is on no list
  have hnone : s.liveIn P = [] := by
    by_contra hne
    exact (hinv.slab P hne).out (by rw [hpages]; exact mem_cons_self)
  have hoff : ∀ b o', P ∉ (s.heap.caches o').list b := fun b o' hP =>
    ((hinv.listed P o' b).mp hP).1 hnone
  cases hcarve : carve o P pageSize (P + slabHeader) [] with
  | nil =>
    -- the largest objects still fit once
    have hfits : IsSlot o P (P + slabHeader) := by
      refine ⟨0, by omega, ?_⟩
      have hpow : 2 ^ o ≤ 2 ^ slabMax := Nat.pow_le_pow_right (by omega) hrange.2
      unfold slabHeader pageSize slabMax at *
      omega
    rw [← hslots, hcarve] at hfits
    cases hfits
  | cons obj objs =>
    rw [hcarve] at hslots hnodup
    let t : SlabT := { parent := o, used := 1, objs := objs }
    let h1 : Heap := { s.heap with
      pages := ps, ref := update s.heap.ref P 1, leftPageNum := s.heap.leftPageNum - 1 }
    have hlists : ListsOk (h1.setSlab P t) := hinv.lists
    refine ⟨obj, objs, (h1.setSlab P t).insertAt objs.isEmpty o P, ?_, ?_⟩
    · simp only [initSlab, kallocPage, hpages, hcarve]
      by_cases hnil : objs = []
      · simp only [t, h1, hnil]
        rfl
      · rw [if_neg hnil]
        have hisEmpty : objs.isEmpty = false := by simpa using hnil
        rw [hisEmpty]
        rfl
    · have hsame : ((h1.setSlab P t).insertAt objs.isEmpty o P).slabs = (h1.setSlab P t).slabs ∧
          ((h1.setSlab P t).insertAt objs.isEmpty o P).ref = h1.ref ∧
          ((h1.setSlab P t).insertAt objs.isEmpty o P).pages = ps ∧
          ((h1.setSlab P t).insertAt objs.isEmpty o P).leftPageNum = s.heap.leftPageNum - 1 := by
        cases objs.isEmpty <;> exact ⟨rfl, rfl, rfl, rfl⟩
      obtain ⟨hslabs, href, hps, hleft⟩ := hsame
      refine ⟨?_, hrange, ?_, hnodup, ?_, ?_, ?_, ?_, ?_, ?_, ?_, ?_, ?_, ?_, ?_⟩
      · exact hpool.aligned P (by rw [hpages]; exact mem_cons_self)
      · intro q
        rw [← hslots q, hnone]
        simp
      · intro q _
        rw [hnone]
        exact not_mem_nil
      · exact fun hne => absurd hnone hne
      · rw [hslabs, hnone]
        exact update_self P t s.heap.slabs
      · intro Q hQ
        rw [hslabs]
        exact update_of_ne hQ t s.heap.slabs
      · rw [href]
        exact ⟨update_self P 1 s.heap.ref, fun Q hQ => update_of_ne hQ 1 s.heap.ref⟩
      · rw [hps]
        exact hnodupPages.1
      · intro Q hQ
        rw [hps] at hQ
        rw [hpages]
        exact mem_cons_of_mem P hQ
      · intro b o'
        rw [mem_insertAt]
        have hnot : P ∉ ((h1.setSlab P t).caches o').list b := hoff b o'
        simp [hnot, eq_comm]
      · intro Q b o' hQ
        rw [mem_insertAt]
        simp only [hQ, false_and, false_or]
        rfl
      · exact listsOk_insertAt hlists (hoff _ o)
      · refine ⟨by rw [hps]; exact hnodupPages.2, ?_, ?_⟩
        · intro Q hQ
          rw [hps] at hQ
          exact hpool.aligned Q (by rw [hpages]; exact mem_cons_of_mem P hQ)
        · rw [hleft, hps, hpool.left, hpages, length_cons, Nat.add_sub_cancel]

/-- `kalloc` hands out an object unless the pool is empty. -/
theorem kalloc_spec (hinv : Inv s) (hsize : size ≤ 2048) :
    (∃ P obj objs h, kalloc size s.heap = some (obj, h) ∧ Hands s P (log2 size) obj objs h) ∨
      (kalloc size s.heap = none ∧ s.heap.pages = []) := by
  obtain ⟨hlow, hhigh, -⟩ := log2_spec hsize
  unfold kalloc
  rw [if_pos hhigh]
  cases hlist : (s.heap.caches (log2 size)).slabsPartial with
  | nil =>
    have hfind : findInSlab (log2 size) s.heap = some (none, s.heap) := by
      simp only [findInSlab, hlist]
    rw [hfind]
    cases hpages : s.heap.pages with
    | nil => exact .inr ⟨by simp only [initSlab, kallocPage, hpages], rfl⟩
    | cons P ps =>
      obtain ⟨obj, objs, h, hinit, hh⟩ := initSlab_hands hinv ⟨hlow, hhigh⟩ hpages
      exact .inl ⟨P, obj, objs, h, hinit, hh⟩
  | cons P rest =>
    obtain ⟨obj, objs, h, hfind, hh⟩ := findInSlab_hands hinv hlist
    rw [hfind]
    exact .inl ⟨P, obj, objs, h, rfl, hh⟩

/-! ## Giving an object back -/

/-- The state after `kfree(p)`. -/
def State.freed (s : State) (p : Nat) : State :=
  { heap := kfree p s.heap, live := s.live.eraseP fun x => x.1 = p }

theorem addrs_freed (s : State) (p : Nat) : (s.freed p).addrs = s.addrs.erase p := by
  show (s.live.eraseP fun x => decide (x.1 = p)).map Prod.fst = (s.live.map Prod.fst).erase p
  rw [erase_eq_eraseP', eraseP_map]
  rfl

theorem State.nodup_liveIn (h : s.addrs.Nodup) (P : Nat) : (s.liveIn P).Nodup :=
  h.filter _

theorem liveIn_freed_self (h : s.addrs.Nodup) (p : Nat) :
    (s.freed p).liveIn (pageOf p) = (s.liveIn (pageOf p)).erase p := by
  rw [(State.nodup_liveIn h _).erase_eq_filter, State.liveIn, State.liveIn, addrs_freed,
    h.erase_eq_filter, filter_comm]

theorem liveIn_freed_of_ne (h : s.addrs.Nodup) (hne : P ≠ pageOf p) :
    (s.freed p).liveIn P = s.liveIn P := by
  rw [State.liveIn, State.liveIn, addrs_freed, h.erase_eq_filter, List.filter_filter]
  refine List.filter_congr fun q _ => ?_
  -- `p` itself is not on this page
  by_cases hq : pageOf q = P
  · have hqp : q ≠ p := by rintro rfl; exact hne hq.symm
    simp [hq, hqp]
  · simp [hq]

/-- The header `kfree` leaves behind. -/
def Heap.returned (h : Heap) (p : Nat) : SlabT :=
  { h.slabs (pageOf p) with
    used := (h.slabs (pageOf p)).used - 1, objs := p :: (h.slabs (pageOf p)).objs }

/-- The heap of `kfree` before the slab is filed again. -/
def Heap.unlisted (h : Heap) (p : Nat) : Heap := (h.setSlab (pageOf p) (h.returned p)).detach (pageOf p)

theorem kfree_last (hused : (h.slabs (pageOf p)).used - 1 = 0) (href : h.ref (pageOf p) = 1) :
    kfree p h = { h.unlisted p with
      ref := update h.ref (pageOf p) 0, pages := pageOf p :: h.pages,
      leftPageNum := h.leftPageNum + 1 } := by
  have hpage : kfree p h = kfreePage (h.unlisted p) (pageOf p) := if_pos hused
  have href' : (h.unlisted p).ref (pageOf p) = 1 := href
  rw [hpage, kfreePage, href', if_pos (by omega)]
  rfl

theorem kfree_kept (hused : (h.slabs (pageOf p)).used - 1 ≠ 0) :
    kfree p h = (h.unlisted p).insertAt false (h.slabs (pageOf p)).parent (pageOf p) := if_neg hused

/-- The page goes back to the pool exactly when this was its last object. -/
theorem pages_freed (hinv : Inv s) (hp : p ∈ s.addrs) :
    (s.freed p).heap.pages =
      if (s.heap.slabs (pageOf p)).used - 1 = 0 then pageOf p :: s.heap.pages else s.heap.pages := by
  have hin : p ∈ s.liveIn (pageOf p) := State.mem_liveIn.mpr ⟨hp, rfl⟩
  have href := (hinv.slab _ (ne_nil_of_mem hin)).ref
  show (kfree p s.heap).pages = _
  split
  next hused => rw [kfree_last hused href]
  next hused =>
    rw [kfree_kept hused]
    rfl

/-- Everything away from the slab of `p` is as it was. -/
theorem Heap.unlisted_others (hl : ListsOk h) (p : Nat) :
    (∀ Q, Q ≠ pageOf p → (h.unlisted p).slabs Q = h.slabs Q) ∧
    (∀ Q o b, Q ∈ ((h.unlisted p).caches o).list b ↔ Q ≠ pageOf p ∧ Q ∈ (h.caches o).list b) ∧
    ListsOk (h.unlisted p) := by
  have hl' : ListsOk (h.setSlab (pageOf p) (h.returned p)) := hl
  exact ⟨fun Q hQ => update_of_ne hQ _ _, fun Q o b => mem_detach hl', listsOk_detach hl' _⟩

theorem Heap.unlisted_self (h : Heap) (p : Nat) : (h.unlisted p).slabs (pageOf p) = h.returned p :=
  update_self _ _ _

/-- `kfree` of a live object keeps the invariant. -/
theorem Inv.freed (hinv : Inv s) (hp : p ∈ s.addrs) : Inv (s.freed p) := by
  have hin : p ∈ s.liveIn (pageOf p) := State.mem_liveIn.mpr ⟨hp, rfl⟩
  have hok := hinv.slab _ (ne_nil_of_mem hin)
  have hlive := liveIn_freed_self hinv.addrs p
  have hlen : ((s.freed p).liveIn (pageOf p)).length = (s.heap.slabs (pageOf p)).used - 1 := by
    rw [hlive, length_erase_of_mem hin, hok.used]
  obtain ⟨hslabs, hmem, hlists⟩ := Heap.unlisted_others hinv.lists p
  have haddrs : (s.freed p).addrs.Nodup := by
    rw [addrs_freed]
    exact hinv.addrs.erase p
  have hpool := hinv.pool
  -- neither way of filing the slab touches a header
  have hheaders : (s.freed p).heap.slabs = (s.heap.unlisted p).slabs := by
    show (kfree p s.heap).slabs = _
    by_cases hused : (s.heap.slabs (pageOf p)).used - 1 = 0
    · rw [kfree_last hused hok.ref]
    · rw [kfree_kept hused]
      rfl
  have hsizes : ∀ x ∈ (s.freed p).live, x.2 ≤ 2 ^ ((s.freed p).heap.slabs (pageOf x.1)).parent := by
    intro x hx
    have hold := hinv.sizes x (mem_of_mem_eraseP hx)
    rw [hheaders]
    rcases eq_or_ne (pageOf x.1) (pageOf p) with heq | hne
    · rw [heq, Heap.unlisted_self]
      rwa [heq] at hold
    · rwa [hslabs _ hne]
  by_cases hused : (s.heap.slabs (pageOf p)).used - 1 = 0
  · -- the last object: the page leaves the lists and joins the pool
    have hheap : (s.freed p).heap = _ := kfree_last hused hok.ref
    have hnone : (s.freed p).liveIn (pageOf p) = [] := eq_nil_of_length_eq_zero (hlen.trans hused)
    refine hinv.change (P := pageOf p) ⟨?_, ?_, ?_, ?_, fun Q hQ => liveIn_freed_of_ne hinv.addrs hQ⟩
      (fun hne => absurd hnone hne) ?_ ?_ haddrs hsizes ⟨?_, ?_, ?_⟩
    · intro Q hQ
      rw [hheaders, hslabs Q hQ]
    · intro Q hQ
      rw [hheap]
      exact update_of_ne hQ _ _
    · intro Q o b hQ
      rw [hheap]
      exact (hmem Q o b).trans (and_iff_right hQ)
    · intro Q hQ hQmem
      rw [hheap] at hQmem
      exact mem_of_ne_of_mem hQ hQmem
    · intro o b
      rw [hheap, hnone]
      exact (hmem _ o b).trans ⟨fun h => absurd rfl h.1, fun h => absurd rfl h.1⟩
    · rw [hheap]
      exact hlists
    · rw [hheap]
      exact nodup_cons.mpr ⟨hok.out, hpool.nodup⟩
    · intro Q hQ
      rw [hheap] at hQ
      rcases mem_cons.mp hQ with rfl | hQ
      · exact pageOf_mod p
      · exact hpool.aligned Q hQ
    · rw [hheap]
      exact congrArg (· + 1) hpool.left
  · -- some are left: the slab has a free object now
    have hheap : (s.freed p).heap = _ := kfree_kept hused
    have hself : (s.freed p).heap.slabs (pageOf p) = s.heap.returned p := by
      rw [hheaders, Heap.unlisted_self]
    have hpages : (s.freed p).heap.pages = s.heap.pages := by rw [hheap]; rfl
    have hsome : (s.freed p).liveIn (pageOf p) ≠ [] := by
      intro hnil
      rw [hnil] at hlen
      exact hused hlen.symm
    have hnodup := State.nodup_liveIn hinv.addrs (pageOf p)
    refine hinv.change (P := pageOf p) ⟨?_, ?_, ?_, ?_, fun Q hQ => liveIn_freed_of_ne hinv.addrs hQ⟩
      (fun _ => ⟨?_, ?_, ?_, ?_, ?_, ?_, ?_⟩) ?_ ?_ haddrs hsizes ⟨?_, ?_, ?_⟩
    · intro Q hQ
      rw [hheaders, hslabs Q hQ]
    · intro Q hQ
      rw [hheap]
      rfl
    · intro Q o b hQ
      rw [hheap, mem_insertAt, hmem]
      simp [hQ]
    · intro Q hQ hQmem
      rwa [hpages] at hQmem
    · rw [hself]; exact hok.range
    · rw [hself, hlen]; rfl
    · intro q
      rw [hself, hlive, hnodup.mem_erase_iff]
      show IsSlot (s.heap.slabs (pageOf p)).parent (pageOf p) q ↔
        q ∈ p :: (s.heap.slabs (pageOf p)).objs ∨ _
      rw [hok.slots q, mem_cons]
      rcases eq_or_ne q p with rfl | hqp
      · simp [hin]
      · simp [hqp]
    · rw [hself]
      exact nodup_cons.mpr ⟨fun hfree => hok.free p hfree hin, hok.objs⟩
    · intro q hq
      rw [hself] at hq
      rw [hlive, hnodup.mem_erase_iff]
      rintro ⟨hqp, hqlive⟩
      rcases mem_cons.mp hq with rfl | hq
      · exact hqp rfl
      · exact hok.free q hq hqlive
    · rw [hheap]; exact hok.ref
    · rw [hpages]; exact hok.out
    · intro o b
      rw [hself, hheap, mem_insertAt, hmem]
      show (pageOf p = pageOf p ∧ o = (s.heap.slabs (pageOf p)).parent ∧ b = false) ∨
          (pageOf p ≠ pageOf p ∧ _) ↔ _ ∧ (s.heap.slabs (pageOf p)).parent = o ∧ false = b
      constructor
      · rintro (⟨-, ho, hb⟩ | ⟨hne, -⟩)
        · exact ⟨hsome, ho.symm, hb.symm⟩
        · exact absurd rfl hne
      · rintro ⟨-, ho, hb⟩
        exact .inl ⟨rfl, ho.symm, hb.symm⟩
    · rw [hheap]
      refine listsOk_insertAt hlists ?_
      rw [hmem]
      exact fun h => h.1 rfl
    · rw [hpages]; exact hpool.nodup
    · rw [hpages]; exact hpool.aligned
    · rw [hpages, hheap]; exact hpool.left

/-! ## Every history of calls -/

theorem boot_inv {pages : List Nat} {ref : Nat → Int} {slabs : Nat → SlabT} (hnodup : pages.Nodup)
    (haligned : ∀ P ∈ pages, P % pageSize = 0) : Inv (boot pages ref slabs) where
  slab _ hP := absurd rfl hP
  listed _ _ b := by cases b <;> simp [boot, KmemCache.list, State.liveIn, State.addrs]
  lists _ b := by cases b <;> exact nodup_nil
  addrs := nodup_nil
  sizes _ hx := absurd hx not_mem_nil
  pool := ⟨hnodup, haligned, rfl⟩

/-- Every call keeps the invariant. -/
theorem step_inv {s' : State} {a : Act} (hinv : Inv s) (hstep : step s a = some s') : Inv s' := by
  cases a with
  | kalloc size =>
    obtain ⟨hsize, hstep⟩ := ite_none_right_eq_some.mp hstep
    obtain ⟨P, obj, objs, h, hk, hh⟩ | ⟨hnone, -⟩ := kalloc_spec hinv hsize.2
    · rw [hk, map_some, some.injEq] at hstep
      subst hstep
      exact hh.inv hinv (log2_spec hsize.2).2.2
    · rw [hnone] at hstep
      cases hstep
  | kfree p =>
    obtain ⟨hp, rfl⟩ := of_guard hstep
    exact hinv.freed hp

/-- Where a live object lies. -/
theorem Inv.object (hinv : Inv s) {x : Nat × Nat} (hx : x ∈ s.live) :
    SlabOk s (pageOf x.1) ∧ IsSlot (s.heap.slabs (pageOf x.1)).parent (pageOf x.1) x.1 := by
  have hin : x.1 ∈ s.liveIn (pageOf x.1) := State.mem_liveIn.mpr ⟨mem_map_of_mem hx, rfl⟩
  have hok := hinv.slab _ (ne_nil_of_mem hin)
  exact ⟨hok, (hok.slots x.1).mpr (.inr hin)⟩

/-- Two objects at different addresses do not overlap. -/
theorem Inv.disjoint (hinv : Inv s) {x y : Nat × Nat} (hx : x ∈ s.live) (hy : y ∈ s.live)
    (hne : x.1 ≠ y.1) : x.1 + x.2 ≤ y.1 ∨ y.1 + y.2 ≤ x.1 := by
  obtain ⟨-, hslotx⟩ := hinv.object hx
  obtain ⟨-, hsloty⟩ := hinv.object hy
  have hsx := hinv.sizes x hx
  have hsy := hinv.sizes y hy
  by_cases hpage : pageOf x.1 = pageOf y.1
  · -- on one page they are different slots
    rw [← hpage] at hsloty hsy
    rcases hslotx.apart hsloty hne with hlt | hlt
    · left; omega
    · right; omega
  · -- on different pages each ends before its page does
    obtain ⟨hlowx, hhighx⟩ := hslotx.bounds
    obtain ⟨hlowy, hhighy⟩ := hsloty.bounds
    have hmodx := pageOf_mod x.1
    have hmody := pageOf_mod y.1
    unfold pageSize at *
    omega

/-- **The slab allocator is correct.**  After any sequence of `kalloc`s of 1 to 2048 bytes and `kfree`s of
    live objects: every object held is aligned to 16 bytes and lies with its size in one page behind
    the slab header, and no two overlap; each slab counts its live objects, its free and live objects
    are its slots, and it is on the full or on the partial list of its order by whether it has a free
    object; `kalloc` succeeds while there are free pages; and a page goes back to the pool exactly when
    `used` drops to 0. -/
theorem slab_allocator {pages : List Nat} {ref : Nat → Int} {slabs : Nat → SlabT}
    (hnodup : pages.Nodup) (haligned : ∀ P ∈ pages, P % pageSize = 0) {as : List Act} {s : State}
    (hrun : run step (boot pages ref slabs) as = some s) :
    (∀ x ∈ s.live, x.1 % 16 = 0 ∧ pageOf x.1 + slabHeader ≤ x.1 ∧
      x.1 + x.2 ≤ pageOf x.1 + pageSize) ∧
    s.live.Pairwise (fun x y => x.1 + x.2 ≤ y.1 ∨ y.1 + y.2 ≤ x.1) ∧
    (∀ P, s.liveIn P ≠ [] →
      (s.heap.slabs P).used = (s.liveIn P).length ∧
      (∀ q, IsSlot (s.heap.slabs P).parent P q ↔ q ∈ (s.heap.slabs P).objs ∨ q ∈ s.liveIn P) ∧
      ((s.heap.slabs P).objs ++ s.liveIn P).Nodup) ∧
    (∀ P o, P ∈ (s.heap.caches o).slabsFull ↔
      s.liveIn P ≠ [] ∧ (s.heap.slabs P).parent = o ∧ (s.heap.slabs P).objs = []) ∧
    (∀ P o, P ∈ (s.heap.caches o).slabsPartial ↔
      s.liveIn P ≠ [] ∧ (s.heap.slabs P).parent = o ∧ (s.heap.slabs P).objs ≠ []) ∧
    (∀ size, 1 ≤ size → size ≤ 2048 → s.heap.pages ≠ [] →
      ∃ s' obj, step s (.kalloc size) = some s' ∧ s'.live = (obj, size) :: s.live) ∧
    (∀ size s', step s (.kalloc size) = some s' → ∀ P ∈ s'.heap.pages, P ∈ s.heap.pages) ∧
    (∀ p ∈ s.addrs, ∃ s', step s (.kfree p) = some s' ∧ s'.heap.pages =
      if (s.heap.slabs (pageOf p)).used - 1 = 0 then pageOf p :: s.heap.pages
      else s.heap.pages) := by
  have hinv : Inv s := run_invariant_all (fun _ _ _ h hstep => step_inv h hstep) as _ s
    (boot_inv hnodup haligned) hrun
  refine ⟨?_, ?_, ?_, ?_, ?_, ?_, ?_, ?_⟩
  · intro x hx
    obtain ⟨hok, hslot⟩ := hinv.object hx
    obtain ⟨hlow, hhigh⟩ := hslot.bounds
    have hsize := hinv.sizes x hx
    exact ⟨hslot.aligned (pageOf_mod _) hok.range.1, hlow, by omega⟩
  · have hpairs : s.live.Pairwise fun x y => x.1 ≠ y.1 := pairwise_map.mp hinv.addrs
    exact hpairs.imp_of_mem fun hx hy hne => hinv.disjoint hx hy hne
  · intro P hP
    have hok := hinv.slab P hP
    refine ⟨hok.used, hok.slots, nodup_append.mpr ⟨hok.objs, State.nodup_liveIn hinv.addrs P, ?_⟩⟩
    rintro q hq _ hlive rfl
    exact hok.free q hq hlive
  · intro P o
    refine (hinv.listed P o true).trans ?_
    simp
  · intro P o
    refine (hinv.listed P o false).trans ?_
    simp
  · intro size hlow hhigh hpages
    obtain ⟨P, obj, objs, h, hk, -⟩ | ⟨-, hempty⟩ := kalloc_spec hinv hhigh
    · refine ⟨s.handed h obj size, obj, ?_, rfl⟩
      simp only [step, hlow, hhigh, and_self, if_true, hk, map_some]
      rfl
    · exact absurd hempty hpages
  · intro size s' hstep
    obtain ⟨hsize, hstep⟩ := ite_none_right_eq_some.mp hstep
    obtain ⟨P, obj, objs, h, hk, hh⟩ | ⟨hnone, -⟩ := kalloc_spec hinv hsize.2
    · rw [hk, map_some, some.injEq] at hstep
      subst hstep
      exact hh.pages
    · rw [hnone] at hstep
      cases hstep
  · intro p hp
    exact ⟨s.freed p, if_pos hp, pages_freed hinv hp⟩

/-- One object of the largest order fills a slab; two smaller ones share the next page, and with the
    first object its page is given back. -/
theorem slab_allocator_threeObjects :
    ∃ s, run step (boot [4096, 8192] (fun _ => 0) fun _ => { parent := 0, used := 0, objs := [] })
        [.kalloc 2000, .kalloc 1000, .kalloc 1000] = some s ∧
      s.live = [(9264, 1000), (10288, 1000), (4144, 2000)] ∧
      (s.heap.caches 11).slabsFull = [4096] ∧ (s.heap.caches 10).slabsPartial = [8192] ∧
      ∃ s', step s (.kfree 4144) = some s' ∧ s'.heap.pages = [4096] := by
  have hrun : run step (boot [4096, 8192] (fun _ => 0) fun _ => { parent := 0, used := 0, objs := [] })
      [.kalloc 2000, .kalloc 1000, .kalloc 1000] = some _ := rfl
  obtain ⟨-, -, -, -, -, -, -, hfree⟩ := slab_allocator (by decide) (by decide) hrun
  obtain ⟨s', hs', hpages⟩ := hfree 4144 (by decide +kernel)
  exact ⟨_, hrun, rfl, rfl, rfl, s', hs', hpages⟩

end Armv8Os.Slab
