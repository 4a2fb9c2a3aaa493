/-
  Page tables refine a finite map.

  A page table is a tree of pages in memory: four levels, an index of nine bits on each, and a table that does not exist
  until somebody asks for it.  What the kernel wants from it is a MAP from page numbers (bits 47..12) to entries.

  1. **Tables** — `walk m va k`: the table that the walk for `va` uses on level `k`, if it exists.

  2. **Crux** — `Wf`: two walks meet in a table only when they have come the same way, and no table is a free page.  So a
     new table, which is a free page, changes what no other walk sees (`walk_grow`).

  3. **The map** — `seen m va`: the entry of `va`, where an absent table counts as zeroes.  `get_pte` does not change it
     (`Grows.seen_eq`), `vmmap` changes it at one page number (`seen_vmmap`).
-/
import Armv8Os.Kernel.Pt
import Armv8Os.Lib.Prog
import Armv8Os.Lib.Transition

namespace Armv8Os.Pt

open Mmu Transition List Option
open Function (update update_apply update_of_ne update_self)

/-! ## Addresses of entries -/

section Entry

variable {t t' i i' : UInt64}

theorem toNat_entry (ht : KernelPage t) (hi : i.toNat < 512) : (entry t i).toNat = t.toNat + 8 * i.toNat := by
  obtain ⟨halign, -⟩ := ht
  have hlt := t.toNat_lt
  unfold entry
  rw [UInt64.toNat_add, UInt64.toNat_mul, show (8 : UInt64).toNat = 8 from rfl]
  omega

/-- The entries of a table lie in its page. -/
theorem pageBase_entry (ht : KernelPage t) (hi : i.toNat < 512) : pageBase (entry t i) = t := by
  have halign := ht.1
  rw [← UInt64.toNat_inj, toNat_pageBase, toNat_entry ht hi]
  omega

theorem entry_inj (ht : KernelPage t) (ht' : KernelPage t') (hi : i.toNat < 512) (hi' : i'.toNat < 512)
    (h : entry t i = entry t' i') : t = t' ∧ i = i' := by
  have hpage : t = t' := by rw [← pageBase_entry ht hi, h, pageBase_entry ht' hi']
  subst hpage
  have hentry := congrArg UInt64.toNat h
  rw [toNat_entry ht hi, toNat_entry ht hi'] at hentry
  exact ⟨rfl, UInt64.toNat_inj.mp (by omega)⟩

end Entry

/-! ## Tables -/

/-- The index on each level. -/
def index (k : Nat) (va : UInt64) : UInt64 :=
  match k with
  | 0 => vaPart0 va
  | 1 => vaPart1 va
  | 2 => vaPart2 va
  | _ => vaPart3 va

theorem index_lt (k : Nat) (va : UInt64) : (index k va).toNat < 512 := by
  unfold index
  split
  · rw [toNat_vaPart0]
    omega
  · rw [toNat_vaPart1]
    omega
  · rw [toNat_vaPart2]
    omega
  · rw [toNat_vaPart3]
    omega

/-- The table that an entry points to. -/
def follow (w : UInt64) : Option UInt64 := if isValid w then some (p2k (pteAddress w)) else none

/-- The table on level `k` of the walk for `va`. -/
def walk (m : Paging) (va : UInt64) : Nat → Option UInt64
  | 0 => if m.pt = 0 then none else some m.pt
  | k + 1 => (walk m va k).bind fun t => follow (m.word (entry t (index k va)))

theorem walk_succ (m : Paging) (va : UInt64) (k : Nat) :
    walk m va (k + 1) = (walk m va k).bind fun t => follow (m.word (entry t (index k va))) := rfl

/-- The walks for `va` and `va'` take the same turns above level `k`. -/
def SameWay (k : Nat) (va va' : UInt64) : Prop := ∀ j < k, index j va = index j va'

theorem SameWay.refl (k : Nat) (va : UInt64) : SameWay k va va := fun _ _ => rfl

variable {va va' : UInt64} {k : Nat}

theorem SameWay.symm (h : SameWay k va va') : SameWay k va' va := fun j hj => (h j hj).symm

theorem SameWay.trans {a b c : UInt64} (h : SameWay k a b) (h' : SameWay k b c) : SameWay k a c :=
  fun j hj => (h j hj).trans (h' j hj)

theorem SameWay.mono {k' : Nat} (h : SameWay k' va va') (hk : k ≤ k') : SameWay k va va' :=
  fun j hj => h j (by omega)

theorem sameWay_succ :
    SameWay (k + 1) va va' ↔ SameWay k va va' ∧ index k va = index k va' := by
  constructor
  · exact fun h => ⟨h.mono (by omega), h k (by omega)⟩
  · rintro ⟨h, hk⟩ j hj
    rcases Nat.lt_or_eq_of_le (Nat.le_of_lt_succ hj) with hlt | rfl
    · exact h j hlt
    · exact hk

/-- The four turns are the page number. -/
theorem sameWay_four : SameWay 4 va va' ↔ vpn va = vpn va' := by
  rw [vpn_eq_iff]
  constructor
  · exact fun h => ⟨h 0 (by omega), h 1 (by omega), h 2 (by omega), h 3 (by omega)⟩
  · rintro ⟨h0, h1, h2, h3⟩ j hj
    match j, hj with
    | 0, _ => exact h0
    | 1, _ => exact h1
    | 2, _ => exact h2
    | 3, _ => exact h3

theorem walk_sameWay (m : Paging) (h : SameWay k va va') : walk m va k = walk m va' k := by
  induction k with
  | zero => rfl
  | succ k ih =>
    obtain ⟨hway, hindex⟩ := sameWay_succ.mp h
    rw [walk_succ, walk_succ, ih hway, hindex]

variable {m m' : Paging}

/-- Where a walk uses the same entries it finds the same tables. -/
theorem walk_congr (hpt : m'.pt = m.pt)
    (hword : ∀ j < k, ∀ t, walk m va j = some t → m'.word (entry t (index j va)) = m.word (entry t (index j va))) :
    walk m' va k = walk m va k := by
  induction k with
  | zero =>
    show (if m'.pt = 0 then none else some m'.pt) = if m.pt = 0 then none else some m.pt
    rw [hpt]
  | succ k ih =>
    have hrec := ih fun j hj => hword j (by omega)
    rw [walk_succ, walk_succ, hrec]
    cases hwalk : walk m va k with
    | none => rw [bind_none, bind_none]
    | some t => rw [bind_some, bind_some, hword k (by omega) t hwalk]

/-- A walk goes through all levels above. -/
theorem walk_above {t : UInt64} (h : walk m va (k + 1) = some t) :
    ∃ t', walk m va k = some t' ∧ follow (m.word (entry t' (index k va))) = some t :=
  bind_eq_some_iff.mp h

/-- `get_pte` without `alloc` is the walk. -/
theorem getPte_false (m : Paging) (va : UInt64) :
    getPte m va false = match walk m va 3 with
      | some t => .ok (entry t (index 3 va), m)
      | none => .error .null := by
  have hroot : rootTable m false = match walk m va 0 with
      | some t => .ok (t, m)
      | none => .error .null := by
    unfold rootTable walk
    by_cases hpt : m.pt = 0
    · rw [if_pos hpt, if_pos hpt]
      rfl
    · rw [if_neg hpt, if_neg hpt]
  have hnext : ∀ k t, walk m va k = some t → nextTable m (entry t (index k va)) false =
      match walk m va (k + 1) with
      | some t => .ok (t, m)
      | none => .error .null := by
    intro k t hwalk
    rw [walk_succ, hwalk, bind_some]
    unfold nextTable follow
    cases isValid (m.word (entry t (index k va))) with
    | true => rfl
    | false => rfl
  have hnone : ∀ k, walk m va k = none → walk m va (k + 1) = none := by
    intro k hwalk
    rw [walk_succ, hwalk, bind_none]
  unfold getPte
  rw [hroot]
  cases h0 : walk m va 0 with
  | none =>
    rw [hnone 2 (hnone 1 (hnone 0 h0))]
    rfl
  | some t0 =>
    show (nextTable m (entry t0 (index 0 va)) false >>= _) = _
    rw [hnext 0 t0 h0]
    cases h1 : walk m va 1 with
    | none =>
      rw [hnone 2 (hnone 1 h1)]
      rfl
    | some t1 =>
      show (nextTable m (entry t1 (index 1 va)) false >>= _) = _
      rw [hnext 1 t1 h1]
      cases h2 : walk m va 2 with
      | none =>
        rw [hnone 2 h2]
        rfl
      | some t2 =>
        show (nextTable m (entry t2 (index 2 va)) false >>= _) = _
        rw [hnext 2 t2 h2]
        cases walk m va 3 with
        | none => rfl
        | some t3 => rfl

/-! ## Separation -/

/-- The free pages are pages, each once. -/
structure FreePages (l : List UInt64) : Prop where
  once : l.Nodup
  page : ∀ p ∈ l, KernelPage p

/-- The tables are pages of their own. -/
structure Wf (m : Paging) : Prop where
  root : m.pt ≠ 0
  free : FreePages m.free
  table : ∀ k ≤ 3, ∀ va t, walk m va k = some t → KernelPage t ∧ t ∉ m.free
  separate : ∀ k ≤ 3, ∀ k' ≤ 3, ∀ va va' t, walk m va k = some t → walk m va' k' = some t → k = k' ∧ SameWay k va va'

theorem FreePages.tail {p : UInt64} {l : List UInt64} (h : FreePages (p :: l)) : FreePages l :=
  ⟨(nodup_cons.mp h.once).2, fun q hq => h.page q (mem_cons_of_mem p hq)⟩

theorem FreePages.head_notMem {p : UInt64} {l : List UInt64} (h : FreePages (p :: l)) : p ∉ l :=
  (nodup_cons.mp h.once).1

/-- The entry that `get_pte` writes leads to the new table. -/
theorem follow_table {p : UInt64} (hp : KernelPage p) : follow (k2p p ||| pteTable) = some p := by
  have hvalid : isValid (k2p p ||| pteTable) = true := by
    have hbit : (k2p p ||| pteTable) &&& pteValid = 1 := by
      rw [Words.or_and, ← k2p_and_mask hp, UInt64.and_assoc, show addressMask &&& pteValid = 0 from by decide,
        UInt64.and_zero, UInt64.zero_or]
      decide
    unfold isValid
    rw [hbit]
    decide
  unfold follow
  rw [if_pos hvalid, pteAddress_k2p hp (by decide), p2k_k2p]

theorem follow_zero : follow 0 = none := by decide

/-- The memory with a new table `p` behind the entry at `e`. -/
def grow (m : Paging) (e p : UInt64) (free : List UInt64) : Paging :=
  { m with
    word := update (fun a => if pageBase a = p then 0 else m.word a) e (k2p p ||| pteTable), free := free }

section Grow

variable {m : Paging} {va t p : UInt64} {free : List UInt64} {k : Nat}

/-- The words of a page that is neither new nor the one of the entry. -/
theorem grow_word {e a : UInt64} (hp : pageBase a ≠ p) (he : a ≠ e) : (grow m e p free).word a = m.word a := by
  show update (fun a => if pageBase a = p then 0 else m.word a) e (k2p p ||| pteTable) a = m.word a
  rw [update_of_ne he, if_neg hp]

theorem grow_word_new {e a : UInt64} (hp : pageBase a = p) (he : a ≠ e) : (grow m e p free).word a = 0 := by
  show update (fun a => if pageBase a = p then 0 else m.word a) e (k2p p ||| pteTable) a = 0
  rw [update_of_ne he, if_pos hp]

theorem grow_word_entry (e : UInt64) : (grow m e p free).word e = k2p p ||| pteTable := by
  show update (fun a => if pageBase a = p then 0 else m.word a) e (k2p p ||| pteTable) e = k2p p ||| pteTable
  exact update_self ..

/-- A new table below level `k` is found by the walks that come its way, and by no other. -/
theorem walk_grow (h : Wf m) (hfree : m.free = p :: free) (hk : k < 3) (hwalk : walk m va k = some t)
    (hempty : follow (m.word (entry t (index k va))) = none) (va' : UInt64) {j : Nat} (hj : j ≤ 3) :
    (j = k + 1 ∧ SameWay (k + 1) va va' → walk (grow m (entry t (index k va)) p free) va' j = some p) ∧
      (¬ (j = k + 1 ∧ SameWay (k + 1) va va') → walk (grow m (entry t (index k va)) p free) va' j = walk m va' j) := by
  have hpage : KernelPage p := h.free.page p (hfree ▸ mem_cons_self)
  obtain ⟨htable, htfree⟩ := h.table k (by omega) va t hwalk
  -- an old table is not the new page
  have hold : ∀ i ≤ 3, ∀ v u, walk m v i = some u → KernelPage u ∧ u ≠ p := by
    intro i hi v u hu
    obtain ⟨hupage, hufree⟩ := h.table i hi v u hu
    refine ⟨hupage, ?_⟩
    rintro rfl
    exact hufree (hfree ▸ mem_cons_self)
  induction j with
  | zero => exact ⟨fun hcase => absurd hcase.1 (by omega), fun _ => rfl⟩
  | succ j ih =>
    obtain ⟨ihnew, ihold⟩ := ih (by omega)
    by_cases hnew : j = k + 1 ∧ SameWay (k + 1) va va'
    · -- the walk is in the new table, which is empty
      refine ⟨fun hcase => absurd hcase.1 (by omega), fun _ => ?_⟩
      obtain ⟨rfl, hway⟩ := hnew
      have hne : entry p (index (k + 1) va') ≠ entry t (index k va) := by
        intro heq
        exact (hold k (by omega) va t hwalk).2 (entry_inj hpage htable (index_lt _ _) (index_lt _ _) heq).1.symm
      have hbefore : walk m va' (k + 1) = none := by
        rw [← walk_sameWay m hway, walk_succ, hwalk, bind_some, hempty]
      rw [walk_succ, ihnew ⟨rfl, hway⟩, bind_some,
        grow_word_new (pageBase_entry hpage (index_lt _ _)) hne, follow_zero, walk_succ, hbefore, bind_none]
    · rw [walk_succ, ihold hnew, walk_succ m va' j]
      cases hu : walk m va' j with
      | none =>
        rw [bind_none, bind_none]
        refine ⟨fun ⟨hjk, hway⟩ => ?_, fun _ => rfl⟩
        obtain rfl : j = k := by omega
        rw [← walk_sameWay m (hway.mono (Nat.le_succ j)), hwalk] at hu
        cases hu
      | some u =>
        obtain ⟨hupage, hup⟩ := hold j (by omega) va' u hu
        rw [bind_some, bind_some]
        by_cases hentry : entry u (index j va') = entry t (index k va)
        · obtain ⟨rfl, hindex⟩ := entry_inj hupage htable (index_lt _ _) (index_lt _ _) hentry
          obtain ⟨rfl, hway⟩ := h.separate j (by omega) k (by omega) va' va u hu hwalk
          have hway' : SameWay (j + 1) va va' := sameWay_succ.mpr ⟨hway.symm, hindex.symm⟩
          refine ⟨fun _ => ?_, fun hcase => absurd ⟨rfl, hway'⟩ hcase⟩
          rw [hentry, grow_word_entry, follow_table hpage]
        · refine ⟨fun ⟨hjk, hway⟩ => ?_, fun _ => ?_⟩
          · obtain rfl : j = k := by omega
            obtain ⟨hway', hindex⟩ := sameWay_succ.mp hway
            rw [← walk_sameWay m hway', hwalk] at hu
            cases hu
            exact absurd (by rw [hindex]) hentry
          · rw [grow_word (by rw [pageBase_entry hupage (index_lt _ _)]; exact hup) hentry]

end Grow

/-- What a walk with `alloc` may do: take free pages and hang them, empty, below tables. -/
structure Grows (m m' : Paging) : Prop where
  pt : m'.pt = m.pt
  used : ∃ used, m.free = used ++ m'.free
  keep : ∀ k ≤ 3, ∀ va t, walk m va k = some t → walk m' va k = some t
  fresh : ∀ k ≤ 3, ∀ va t, walk m' va k = some t → walk m va k = some t ∨ t ∈ m.free
  word : ∀ a, pageBase a ∉ m.free → (∀ va, ∀ k < 3, walk m va k ≠ some (pageBase a)) → m'.word a = m.word a
  zero : ∀ va t, walk m va 3 = none → walk m' va 3 = some t → ∀ i : UInt64, i.toNat < 512 → m'.word (entry t i) = 0
  spent : ∀ p ∈ m.free, p ∉ m'.free → ∃ va, ∃ k ≤ 3, walk m' va k = some p

theorem Grows.refl (m : Paging) : Grows m m where
  pt := rfl
  used := ⟨[], rfl⟩
  keep _ _ _ _ h := h
  fresh _ _ _ _ h := .inl h
  word _ _ _ := rfl
  zero va t hnone hsome := by
    rw [hnone] at hsome
    cases hsome
  spent p hin hout := absurd hin hout

theorem Grows.free_subset (h : Grows m m') : m'.free ⊆ m.free := by
  obtain ⟨used, hused⟩ := h.used
  rw [hused]
  exact subset_append_right used m'.free

/-- The entries on the last level are in no page that a walk writes. -/
theorem Grows.word_slot (h : Grows m m') (hwf : Wf m) {t i : UInt64} (ht : walk m va 3 = some t)
    (hi : i.toNat < 512) : m'.word (entry t i) = m.word (entry t i) := by
  obtain ⟨hpage, hfree⟩ := hwf.table 3 le_rfl va t ht
  have hbase := pageBase_entry hpage hi
  refine h.word _ (by rw [hbase]; exact hfree) fun va' k hk hwalk => ?_
  rw [hbase] at hwalk
  obtain ⟨rfl, -⟩ := hwf.separate k (by omega) 3 le_rfl va' va t hwalk ht
  omega

theorem Grows.trans {m'' : Paging} (h : Grows m m') (h' : Grows m' m'') (hwf : Wf m') : Grows m m'' where
  pt := h'.pt.trans h.pt
  used := by
    obtain ⟨used, hused⟩ := h.used
    obtain ⟨used', hused'⟩ := h'.used
    exact ⟨used ++ used', by rw [hused, hused', append_assoc]⟩
  keep k hk va t ht := h'.keep k hk va t (h.keep k hk va t ht)
  fresh k hk va t ht := by
    rcases h'.fresh k hk va t ht with hold | hnew
    · exact h.fresh k hk va t hold
    · exact .inr (h.free_subset hnew)
  word a hfree htable := by
    rw [h'.word a (fun hin => hfree (h.free_subset hin)), h.word a hfree htable]
    intro va k hk hwalk
    rcases h.fresh k (by omega) va _ hwalk with hold | hnew
    · exact htable va k hk hold
    · exact hfree hnew
  zero va t hnone hsome i hi := by
    cases hmid : walk m' va 3 with
    | none => exact h'.zero va t hmid hsome i hi
    | some t' =>
      obtain rfl : t' = t := some.inj ((h'.keep 3 le_rfl va t' hmid).symm.trans hsome)
      rw [h'.word_slot hwf hmid hi]
      exact h.zero va t' hnone hmid i hi
  spent p hin hout := by
    by_cases hmid : p ∈ m'.free
    · exact h'.spent p hmid hout
    · obtain ⟨va, k, hk, hwalk⟩ := h.spent p hin hmid
      exact ⟨va, k, hk, h'.keep k hk va p hwalk⟩

section NewTable

variable {m : Paging} {va t p : UInt64} {free : List UInt64} {k : Nat}

section

variable (h : Wf m) (hfree : m.free = p :: free) (hk : k < 3) (hwalk : walk m va k = some t)
  (hempty : follow (m.word (entry t (index k va))) = none)
include h hfree hk hwalk hempty

/-- The walks after a new table: through it, or as before. -/
theorem walk_grow_cases {u : UInt64} {j : Nat} (hj : j ≤ 3)
    (hu : walk (grow m (entry t (index k va)) p free) va' j = some u) :
    (j = k + 1 ∧ SameWay (k + 1) va va' ∧ u = p) ∨ walk m va' j = some u := by
  obtain ⟨hnew, hold⟩ := walk_grow h hfree hk hwalk hempty va' hj
  by_cases hcase : j = k + 1 ∧ SameWay (k + 1) va va'
  · rw [hnew hcase] at hu
    exact .inl ⟨hcase.1, hcase.2, (some.inj hu).symm⟩
  · rw [hold hcase] at hu
    exact .inr hu

theorem grow_wf : Wf (grow m (entry t (index k va)) p free) := by
  have hpages : FreePages (p :: free) := hfree ▸ h.free
  have hpin : p ∈ m.free := hfree ▸ mem_cons_self
  constructor
  case root => exact h.root
  case free => exact hpages.tail
  case table =>
    intro j hj va' u hu
    rcases walk_grow_cases h hfree hk hwalk hempty hj hu with ⟨-, -, rfl⟩ | hold
    · exact ⟨hpages.page u mem_cons_self, hpages.head_notMem⟩
    · obtain ⟨hpage, hout⟩ := h.table j hj va' u hold
      exact ⟨hpage, fun hin => hout (hfree ▸ mem_cons_of_mem p hin)⟩
  case separate =>
    intro j hj j' hj' a b u hu hu'
    rcases walk_grow_cases h hfree hk hwalk hempty hj hu with ⟨rfl, hway, rfl⟩ | hold
    · rcases walk_grow_cases h hfree hk hwalk hempty hj' hu' with ⟨rfl, hway', -⟩ | hold'
      · exact ⟨rfl, hway.symm.trans hway'⟩
      · exact absurd hpin (h.table j' hj' b u hold').2
    · rcases walk_grow_cases h hfree hk hwalk hempty hj' hu' with ⟨rfl, hway', rfl⟩ | hold'
      · exact absurd hpin (h.table j hj a u hold).2
      · exact h.separate j hj j' hj' a b u hold hold'

theorem grow_grows : Grows m (grow m (entry t (index k va)) p free) := by
  have hpages : FreePages (p :: free) := hfree ▸ h.free
  have hpin : p ∈ m.free := hfree ▸ mem_cons_self
  obtain ⟨htpage, htfree⟩ := h.table k (by omega) va t hwalk
  constructor
  case pt => rfl
  case used => exact ⟨[p], hfree⟩
  case keep =>
    intro j hj va' u hu
    rw [(walk_grow h hfree hk hwalk hempty va' hj).2]
    · exact hu
    · rintro ⟨rfl, hway⟩
      rw [← walk_sameWay m hway, walk_succ, hwalk, bind_some, hempty] at hu
      cases hu
  case fresh =>
    intro j hj va' u hu
    rcases walk_grow_cases h hfree hk hwalk hempty hj hu with ⟨-, -, rfl⟩ | hold
    · exact .inr hpin
    · exact .inl hold
  case word =>
    intro a hafree htable
    refine grow_word (fun heq => hafree (heq ▸ hpin)) ?_
    rintro rfl
    exact htable va k hk (by rw [pageBase_entry htpage (index_lt _ _), hwalk])
  case zero =>
    intro va' u hnone hsome i hi
    rcases walk_grow_cases h hfree hk hwalk hempty le_rfl hsome with ⟨-, -, rfl⟩ | hold
    · have hupage := hpages.page u mem_cons_self
      refine grow_word_new (pageBase_entry hupage hi) fun heq => htfree ?_
      rw [← (entry_inj hupage htpage hi (index_lt _ _) heq).1]
      exact hpin
    · rw [hnone] at hold
      cases hold
  case spent =>
    intro q hin hout
    rw [hfree] at hin
    obtain rfl := (mem_cons.mp hin).resolve_right hout
    exact ⟨va, k + 1, by omega, (walk_grow h hfree hk hwalk hempty va (by omega)).1 ⟨rfl, SameWay.refl _ va⟩⟩

end

/-- One level of `get_pte` with `alloc`: there is a table, or there is a new one. -/
theorem nextTable_cases {e t' : UInt64} (hnext : nextTable m e true = .ok (t', m')) :
    (follow (m.word e) = some t' ∧ m' = m) ∨
      follow (m.word e) = none ∧ ∃ free, m.free = t' :: free ∧ m' = grow m e t' free := by
  unfold nextTable at hnext
  by_cases hvalid : isValid (m.word e)
  · rw [if_pos hvalid] at hnext
    obtain ⟨rfl, rfl⟩ := Prod.mk.inj (Except.ok.inj hnext)
    exact .inl ⟨if_pos hvalid, rfl⟩
  · rw [if_neg hvalid, if_pos rfl] at hnext
    obtain ⟨⟨p, m₁⟩, hnew, hok⟩ := bind_eq_ok.mp hnext
    unfold newTable at hnew
    cases hfree : m.free with
    | nil =>
      rw [hfree] at hnew
      cases hnew
    | cons q free =>
      rw [hfree] at hnew
      obtain ⟨rfl, rfl⟩ := Prod.mk.inj (Except.ok.inj hnew)
      obtain ⟨rfl, rfl⟩ := Prod.mk.inj (Except.ok.inj hok)
      exact .inr ⟨if_neg hvalid, free, rfl, rfl⟩

theorem nextTable_true {t' : UInt64} (h : Wf m) (hk : k < 3) (hwalk : walk m va k = some t)
    (hnext : nextTable m (entry t (index k va)) true = .ok (t', m')) :
    Wf m' ∧ Grows m m' ∧ walk m' va (k + 1) = some t' := by
  obtain ⟨hfollow, rfl⟩ | ⟨hempty, free, hfree, rfl⟩ := nextTable_cases hnext
  · refine ⟨h, Grows.refl _, ?_⟩
    rw [walk_succ, hwalk, bind_some, hfollow]
  · refine ⟨grow_wf h hfree hk hwalk hempty, grow_grows h hfree hk hwalk hempty, ?_⟩
    exact (walk_grow h hfree hk hwalk hempty va (by omega)).1 ⟨rfl, SameWay.refl _ va⟩

end NewTable

/-- `get_pte` with `alloc`: the address of the entry, and more tables; what holds from level to level holds at the end. -/
theorem getPte_levels {pte : UInt64} {I : Paging → Prop} (h : Wf m) (hI : I m) (hget : getPte m va true = .ok (pte, m'))
    (hlevel : ∀ (k : Nat) (m m' : Paging) (t t' : UInt64), k < 3 → Wf m → I m → walk m va k = some t →
      nextTable m (entry t (index k va)) true = .ok (t', m') → I m') :
    I m' ∧ Wf m' ∧ Grows m m' ∧ ∃ t, walk m' va 3 = some t ∧ pte = entry t (index 3 va) := by
  obtain ⟨⟨t0, m0⟩, h0, hget⟩ := bind_eq_ok.mp hget
  unfold rootTable at h0
  rw [if_neg h.root] at h0
  obtain ⟨rfl, rfl⟩ := Prod.mk.inj (Except.ok.inj h0)
  have hroot : walk m va 0 = some m.pt := if_neg h.root
  obtain ⟨⟨t1, m1⟩, h1, hget⟩ := bind_eq_ok.mp hget
  obtain ⟨hwf1, hgrows1, hwalk1⟩ := nextTable_true (k := 0) h (by omega) hroot h1
  have hI1 := hlevel 0 _ _ _ _ (by omega) h hI hroot h1
  obtain ⟨⟨t2, m2⟩, h2, hget⟩ := bind_eq_ok.mp hget
  obtain ⟨hwf2, hgrows2, hwalk2⟩ := nextTable_true (k := 1) hwf1 (by omega) hwalk1 h2
  have hI2 := hlevel 1 _ _ _ _ (by omega) hwf1 hI1 hwalk1 h2
  obtain ⟨⟨t3, m3⟩, h3, hget⟩ := bind_eq_ok.mp hget
  obtain ⟨hwf3, hgrows3, hwalk3⟩ := nextTable_true (k := 2) hwf2 (by omega) hwalk2 h3
  have hI3 := hlevel 2 _ _ _ _ (by omega) hwf2 hI2 hwalk2 h3
  obtain ⟨rfl, rfl⟩ := Prod.mk.inj (Except.ok.inj hget)
  exact ⟨hI3, hwf3, (hgrows1.trans hgrows2 hwf1).trans hgrows3 hwf2, t3, hwalk3, rfl⟩

theorem getPte_true {pte : UInt64} (h : Wf m) (hget : getPte m va true = .ok (pte, m')) :
    Wf m' ∧ Grows m m' ∧ ∃ t, walk m' va 3 = some t ∧ pte = entry t (index 3 va) :=
  (getPte_levels (I := fun _ => True) h trivial hget fun _ _ _ _ _ _ _ _ _ _ => trivial).2

/-- Three free pages are enough for any walk. -/
theorem getPte_returns (h : Wf m) (va : UInt64) (hfree : 3 ≤ m.free.length) :
    ∃ pte m', getPte m va true = .ok (pte, m') ∧ m.free.length ≤ m'.free.length + 3 := by
  have hnext : ∀ (m : Paging) (e : UInt64), 1 ≤ m.free.length →
      ∃ t m', nextTable m e true = .ok (t, m') ∧ m.free.length ≤ m'.free.length + 1 := by
    intro m e hpos
    unfold nextTable
    split
    · exact ⟨_, m, rfl, by omega⟩
    · cases hm : m.free with
      | nil =>
        rw [hm] at hpos
        cases hpos
      | cons p free =>
        unfold newTable
        rw [hm]
        exact ⟨_, _, rfl, le_rfl⟩
  have hroot : rootTable m true = .ok (m.pt, m) := if_neg h.root
  obtain ⟨t1, m1, h1, hle1⟩ := hnext m (entry m.pt (vaPart0 va)) (by omega)
  obtain ⟨t2, m2, h2, hle2⟩ := hnext m1 (entry t1 (vaPart1 va)) (by omega)
  obtain ⟨t3, m3, h3, hle3⟩ := hnext m2 (entry t2 (vaPart2 va)) (by omega)
  refine ⟨entry t3 (vaPart3 va), m3, ?_, by omega⟩
  unfold getPte
  rw [hroot]
  show (nextTable m (entry m.pt (vaPart0 va)) true >>= _) = _
  rw [h1]
  show (nextTable m1 (entry t1 (vaPart1 va)) true >>= _) = _
  rw [h2]
  show (nextTable m2 (entry t2 (vaPart2 va)) true >>= _) = _
  rw [h3]
  rfl

/-! ## The map -/

/-- The entry of an address; an absent table counts as zeroes. -/
def seen (m : Paging) (va : UInt64) : UInt64 :=
  match getPte m va false with
  | .ok (pte, _) => m.word pte
  | .error _ => 0

theorem seen_some {t : UInt64} (h : walk m va 3 = some t) : seen m va = m.word (entry t (index 3 va)) := by
  unfold seen
  rw [getPte_false, h]

theorem seen_none (h : walk m va 3 = none) : seen m va = 0 := by
  unfold seen
  rw [getPte_false, h]

theorem seen_vpn (m : Paging) (h : vpn va = vpn va') : seen m va = seen m va' := by
  obtain ⟨hway, hindex⟩ := sameWay_succ.mp (sameWay_four.mpr h)
  have hwalk := walk_sameWay m hway
  cases ht : walk m va' 3 with
  | none => rw [seen_none ht, seen_none (hwalk.trans ht)]
  | some t => rw [seen_some ht, seen_some (hwalk.trans ht), hindex]

/-- More tables, the same entries. -/
theorem Grows.seen_eq (h : Grows m m') (hwf : Wf m) (va : UInt64) : seen m' va = seen m va := by
  cases hwalk : walk m va 3 with
  | some t => rw [seen_some hwalk, seen_some (h.keep 3 le_rfl va t hwalk), h.word_slot hwf hwalk (index_lt _ _)]
  | none =>
    rw [seen_none hwalk]
    cases hwalk' : walk m' va 3 with
    | some t => rw [seen_some hwalk', h.zero va t hwalk hwalk' _ (index_lt _ _)]
    | none => exact seen_none hwalk'

/-- Two walks end at the same entry iff they are for the same page number. -/
theorem slot_eq_iff (h : Wf m) {t t' : UInt64} (ht : walk m va 3 = some t)
    (ht' : walk m va' 3 = some t') : entry t (index 3 va) = entry t' (index 3 va') ↔ vpn va = vpn va' := by
  rw [← sameWay_four, sameWay_succ]
  constructor
  · intro heq
    obtain ⟨rfl, hindex⟩ := entry_inj (h.table 3 le_rfl va t ht).1 (h.table 3 le_rfl va' t' ht').1 (index_lt _ _)
      (index_lt _ _) heq
    exact ⟨(h.separate 3 le_rfl 3 le_rfl va va' t ht ht').2, hindex⟩
  · rintro ⟨hway, hindex⟩
    rw [walk_sameWay m hway, ht'] at ht
    rw [some.inj ht, hindex]

section SetEntry

variable {m : Paging} {va t : UInt64}

section

variable (h : Wf m) (ht : walk m va 3 = some t)
include h ht

/-- Writing an entry of the last level leaves all tables where they are. -/
theorem walk_setEntry (v va' : UInt64) (hk : k ≤ 3) :
    walk { m with word := update m.word (entry t (index 3 va)) v } va' k = walk m va' k := by
  apply walk_congr (m := m)
  · rfl
  intro j hj u hu
  show update m.word (entry t (index 3 va)) v (entry u (index j va')) = _
  refine update_of_ne (fun heq => ?_) ..
  have hpage := (h.table j (by omega) va' u hu).1
  obtain ⟨rfl, -⟩ := entry_inj hpage (h.table 3 le_rfl va t ht).1 (index_lt _ _) (index_lt _ _) heq
  obtain ⟨rfl, -⟩ := h.separate j (by omega) 3 le_rfl va' va u hu ht
  omega

theorem setEntry_wf (v : UInt64) : Wf { m with word := update m.word (entry t (index 3 va)) v } where
  root := h.root
  free := h.free
  table k hk va' u hu := h.table k hk va' u ((walk_setEntry h ht v va' hk).symm.trans hu)
  separate k hk k' hk' a b u hu hu' :=
    h.separate k hk k' hk' a b u ((walk_setEntry h ht v a hk).symm.trans hu) ((walk_setEntry h ht v b hk').symm.trans hu')

theorem seen_setEntry (v va' : UInt64) : seen { m with word := update m.word (entry t (index 3 va)) v } va' =
      if vpn va' = vpn va then v else seen m va' := by
  have hwalk := walk_setEntry h ht v va' le_rfl
  cases hu : walk m va' 3 with
  | some u =>
    rw [seen_some (hwalk.trans hu), seen_some hu]
    show update m.word (entry t (index 3 va)) v (entry u (index 3 va')) = _
    by_cases heq : vpn va' = vpn va
    · rw [if_pos heq, (slot_eq_iff h hu ht).mpr heq, update_self]
    · rw [if_neg heq, update_of_ne (mt (slot_eq_iff h hu ht).mp heq)]
  | none =>
    rw [seen_none (hwalk.trans hu), seen_none hu, if_neg]
    intro heq
    rw [walk_sameWay m ((sameWay_four.mpr heq).mono (by omega)), ht] at hu
    cases hu

end

end SetEntry

section

variable {ka flags : UInt64} (h : Wf m) (hmap : vmmap m va ka flags = .ok m')
include h hmap

/-- `vmmap` sets one entry of the map. -/
theorem vmmap_spec : ∃ m₁ t, Wf m₁ ∧ Grows m m₁ ∧ walk m₁ va 3 = some t ∧
      m' = { m₁ with word := update m₁.word (entry t (index 3 va)) (k2p ka ||| flags) } := by
  obtain ⟨⟨pte, m₁⟩, hget, hok⟩ := bind_eq_ok.mp hmap
  obtain ⟨hwf, hgrows, t, hwalk, rfl⟩ := getPte_true h hget
  exact ⟨m₁, t, hwf, hgrows, hwalk, (Except.ok.inj hok).symm⟩

theorem vmmap_wf : Wf m' := by
  obtain ⟨m₁, t, hwf, -, hwalk, rfl⟩ := vmmap_spec h hmap
  exact setEntry_wf hwf hwalk _

theorem seen_vmmap (va' : UInt64) : seen m' va' = if vpn va' = vpn va then k2p ka ||| flags else seen m va' := by
  obtain ⟨m₁, t, hwf, hgrows, hwalk, rfl⟩ := vmmap_spec h hmap
  rw [seen_setEntry hwf hwalk, hgrows.seen_eq h]

end

/-- The memory after `init_pgdir`. -/
def emptyRoot (m : Paging) (p : UInt64) (free : List UInt64) : Paging :=
  { pt := p, word := fun a => if pageBase a = p then 0 else m.word a, free := free }

theorem initPgdir_ok (hinit : initPgdir m = .ok m') :
    ∃ p free, m.free = p :: free ∧ m' = emptyRoot m p free := by
  obtain ⟨⟨pt, m₁⟩, hnew, hok⟩ := bind_eq_ok.mp hinit
  unfold newTable at hnew
  cases hm : m.free with
  | nil =>
    rw [hm] at hnew
    cases hnew
  | cons p free =>
    rw [hm] at hnew
    obtain ⟨rfl, rfl⟩ := Prod.mk.inj (Except.ok.inj hnew)
    exact ⟨p, free, rfl, (Except.ok.inj hok).symm⟩

section EmptyRoot

variable {m : Paging} {p : UInt64} {free : List UInt64}

/-- There is one table, and it is empty. -/
theorem walk_emptyRoot (hp : KernelPage p) (va : UInt64) (k : Nat) :
    walk (emptyRoot m p free) va k = if k = 0 then some p else none := by
  have hroot : walk (emptyRoot m p free) va 0 = some p := if_neg hp.ne_zero
  have hword : (emptyRoot m p free).word (entry p (index 0 va)) = 0 := if_pos (pageBase_entry hp (index_lt _ _))
  induction k with
  | zero => exact hroot
  | succ k ih =>
    rw [if_neg (by omega), walk_succ, ih]
    by_cases hk : k = 0
    · rw [if_pos hk, hk, bind_some, hword, follow_zero]
    · rw [if_neg hk, bind_none]

theorem emptyRoot_wf (hfree : FreePages (p :: free)) : Wf (emptyRoot m p free) := by
  have hpage := hfree.page p mem_cons_self
  have hall : ∀ va k t, walk (emptyRoot m p free) va k = some t → k = 0 ∧ t = p := by
    intro va k t ht
    rw [walk_emptyRoot hpage, ite_none_right_eq_some] at ht
    exact ⟨ht.1, (some.inj ht.2).symm⟩
  refine ⟨hpage.ne_zero, hfree.tail, fun k _ va t ht => ?_, fun k _ k' _ va va' t ht ht' => ?_⟩
  · obtain ⟨-, rfl⟩ := hall va k t ht
    exact ⟨hpage, hfree.head_notMem⟩
  · obtain ⟨rfl, -⟩ := hall va k t ht
    obtain ⟨rfl, -⟩ := hall va' k' t ht'
    exact ⟨rfl, fun j hj => absurd hj (Nat.not_lt_zero j)⟩

theorem seen_emptyRoot (hp : KernelPage p) (va : UInt64) : seen (emptyRoot m p free) va = 0 :=
  seen_none (walk_emptyRoot hp va 3)

end EmptyRoot

/-! ## Any sequence of calls -/

inductive Act where
  | getPte (va : UInt64) (alloc : Bool)
  | vmmap (va ka flags : UInt64)
  deriving DecidableEq

/-- One call.  `none`: there was no page for a table. -/
def step (m : Paging) : Act → Option Paging
  | .getPte va alloc =>
    match getPte m va alloc with
    | .ok (_, m') => some m'
    | .error .null => some m
    | .error .fault => none
  | .vmmap va ka flags =>
    match vmmap m va ka flags with
    | .ok m' => some m'
    | .error _ => none

/-- The finite map: only `vmmap` changes it. -/
def assign (f : Nat → UInt64) : Act → Nat → UInt64
  | .getPte _ _ => f
  | .vmmap va ka flags => update f (vpn va) (k2p ka ||| flags)

/-- The table is the map `f`. -/
structure IsMap (m : Paging) (f : Nat → UInt64) : Prop where
  wf : Wf m
  seen : ∀ va, seen m va = f (vpn va)

theorem step_isMap {f : Nat → UInt64} {a : Act} (h : IsMap m f) (hstep : step m a = some m') :
    IsMap m' (assign f a) := by
  cases a with
  | getPte va alloc =>
    simp only [step] at hstep
    split at hstep
    next pte m₁ hget =>
      cases hstep
      cases alloc with
      | false =>
        rw [getPte_frame hget]
        exact h
      | true =>
        obtain ⟨hwf, hgrows, -⟩ := getPte_true h.wf hget
        exact ⟨hwf, fun va' => (hgrows.seen_eq h.wf va').trans (h.seen va')⟩
    next =>
      cases hstep
      exact h
    next => cases hstep
  | vmmap va ka flags =>
    simp only [step] at hstep
    split at hstep
    next m₁ hmap =>
      cases hstep
      refine ⟨vmmap_wf h.wf hmap, fun va' => ?_⟩
      rw [seen_vmmap h.wf hmap, h.seen]
      show _ = update f (vpn va) (k2p ka ||| flags) (vpn va')
      rw [update_apply]
    next => cases hstep

/-- What the table of a `pgdir` after the calls `as` offers. -/
structure BehavesAsMap (as : List Act) (m : Paging) : Prop where
  /-- the entries are those of the map -/
  map : ∀ va, seen m va = as.foldl assign (fun _ => 0) (vpn va)
  /-- `get_pte(va, false)` returns NULL or an entry, and changes nothing -/
  look : ∀ va, getPte m va false = .error .null ∨ ∃ pte, getPte m va false = .ok (pte, m)
  /-- the same entry iff the same page number -/
  slot : ∀ va va' pte pte', getPte m va false = .ok (pte, m) → getPte m va' false = .ok (pte', m) →
    (pte = pte' ↔ vpn va = vpn va')
  /-- `get_pte(va, true)` changes no entry, and moves none -/
  alloc : ∀ va pte m', getPte m va true = .ok (pte, m') → getPte m' va false = .ok (pte, m') ∧ ∀ va',
    seen m' va' = seen m va' ∧ ∀ pte', getPte m va' false = .ok (pte', m) → getPte m' va' false = .ok (pte', m')
  /-- it returns while there are three free pages -/
  returns : ∀ va, 3 ≤ m.free.length → ∃ pte m', getPte m va true = .ok (pte, m')
  /-- `vmmap` sets one entry -/
  set : ∀ va ka flags m', vmmap m va ka flags = .ok m' → (∃ pte, getPte m' va false = .ok (pte, m')) ∧
    ∀ va', seen m' va' = if vpn va' = vpn va then k2p ka ||| flags else seen m va'

theorem getPte_eq_ok_iff {pte : UInt64} :
    getPte m va false = .ok (pte, m) ↔ ∃ t, walk m va 3 = some t ∧ pte = entry t (index 3 va) := by
  rw [getPte_false]
  cases walk m va 3 with
  | none => simp
  | some t =>
    simp only [Except.ok.injEq, Prod.mk.injEq, and_true, some.injEq, exists_eq_left']
    exact eq_comm

theorem IsMap.behaves {as : List Act} (h : IsMap m (as.foldl assign fun _ => 0)) : BehavesAsMap as m where
  map := h.seen
  look va := by
    cases hwalk : walk m va 3 with
    | none => exact .inl (by rw [getPte_false, hwalk])
    | some t => exact .inr ⟨_, getPte_eq_ok_iff.mpr ⟨t, hwalk, rfl⟩⟩
  slot va va' pte pte' hpte hpte' := by
    obtain ⟨t, ht, rfl⟩ := getPte_eq_ok_iff.mp hpte
    obtain ⟨t', ht', rfl⟩ := getPte_eq_ok_iff.mp hpte'
    exact slot_eq_iff h.wf ht ht'
  alloc va pte m' hget := by
    obtain ⟨-, hgrows, t, ht, rfl⟩ := getPte_true h.wf hget
    refine ⟨getPte_eq_ok_iff.mpr ⟨t, ht, rfl⟩, fun va' => ⟨hgrows.seen_eq h.wf va', fun pte' hpte' => ?_⟩⟩
    obtain ⟨t', ht', rfl⟩ := getPte_eq_ok_iff.mp hpte'
    exact getPte_eq_ok_iff.mpr ⟨t', hgrows.keep 3 le_rfl va' t' ht', rfl⟩
  returns va hfree := by
    obtain ⟨pte, m', hget, -⟩ := getPte_returns h.wf va hfree
    exact ⟨pte, m', hget⟩
  set va ka flags m' hmap := by
    refine ⟨?_, seen_vmmap h.wf hmap⟩
    obtain ⟨m₁, t, hwf, -, ht, rfl⟩ := vmmap_spec h.wf hmap
    exact ⟨_, getPte_eq_ok_iff.mpr ⟨t, (walk_setEntry hwf ht _ va le_rfl).trans ht, rfl⟩⟩

/-- **Page tables refine a finite map**, and `PTE_ADDRESS` and `PTE_FLAGS` take an entry apart again, as long as its page is
one in kernel space and its flags stay out of the bits of the address. -/
theorem page_table_is_map {m₀ m₁ m : Paging} {as : List Act} (hfree : FreePages m₀.free) (hinit : initPgdir m₀ = .ok m₁)
    (hrun : run step m₁ as = some m) :
    BehavesAsMap as m ∧ ∀ ka flags, KernelPage ka → flags &&& addressMask = 0 →
      pteAddress (k2p ka ||| flags) = k2p ka ∧ pteFlags (k2p ka ||| flags) = flags := by
  obtain ⟨p, free, hm, rfl⟩ := initPgdir_ok hinit
  rw [hm] at hfree
  have hstart : IsMap (emptyRoot m₀ p free) fun _ => 0 :=
    ⟨emptyRoot_wf hfree, seen_emptyRoot (hfree.page p mem_cons_self)⟩
  refine ⟨(run_simulates (fun _ _ _ _ => step_isMap) as _ m _ hstart hrun).behaves, fun ka flags hka hflags => ?_⟩
  exact ⟨pteAddress_k2p hka hflags, pteFlags_k2p hka hflags⟩

/-- A memory full of junk with sixteen free pages at its end. -/
def junkMemory : Paging :=
  { pt := 0, word := fun a => a * 3 + 1, free := (List.range 16).map fun i => 0xffff00003eff0000 + 4096 * UInt64.ofNat i }

theorem junkMemory_freePages : FreePages junkMemory.free := by
  have hpages : junkMemory.free.all (fun p => decide (KernelPage p)) = true := by decide +kernel
  exact ⟨by decide +kernel, fun p hp => of_decide_eq_true (all_eq_true.mp hpages p hp)⟩

/-- Two neighbouring pages and one a table away. -/
theorem page_table_is_map_three :
    ∃ m₁ m, initPgdir junkMemory = .ok m₁ ∧
      run step m₁ [.vmmap 0x400123 0xffff000000400000 0x647, .getPte 0x401000 true, .vmmap 0x60000000 0xffff000000401000 0x647,
        .vmmap 0x401fff 0xffff000000402000 0x6c7] = some m ∧
      BehavesAsMap [.vmmap 0x400123 0xffff000000400000 0x647, .getPte 0x401000 true,
        .vmmap 0x60000000 0xffff000000401000 0x647, .vmmap 0x401fff 0xffff000000402000 0x6c7] m ∧
      (∀ ka flags, KernelPage ka → flags &&& addressMask = 0 →
        pteAddress (k2p ka ||| flags) = k2p ka ∧ pteFlags (k2p ka ||| flags) = flags) := by
  have hsome : ((initPgdir junkMemory).toOption.bind fun m₁ =>
      run step m₁ [.vmmap 0x400123 0xffff000000400000 0x647, .getPte 0x401000 true,
        .vmmap 0x60000000 0xffff000000401000 0x647, .vmmap 0x401fff 0xffff000000402000 0x6c7]).isSome := by decide +kernel
  obtain ⟨m, hm⟩ := isSome_iff_exists.mp hsome
  obtain ⟨m₁, hinit, hrun⟩ := bind_eq_some_iff.mp hm
  have hinit' : initPgdir junkMemory = .ok m₁ := Prog.toOption_eq_some.mp hinit
  exact ⟨m₁, m, hinit', hrun, page_table_is_map junkMemory_freePages hinit' hrun⟩

/-- Flags with bits of the address: the entry is what `vmmap` was asked for, but it no longer tells the two apart. -/
theorem flags_in_address :
    ((initPgdir junkMemory).toOption.bind fun m =>
        (vmmap m 0x400000 0xffff000000400000 0x1647).toOption.map fun m' =>
          (seen m' 0x400000, pteAddress (seen m' 0x400000), pteFlags (seen m' 0x400000))) =
      some (k2p 0xffff000000400000 ||| 0x1647, 0x401000, 0x647) ∧
    KernelPage 0xffff000000400000 ∧ k2p 0xffff000000400000 ≠ 0x401000 ∧ (0x1647 : UInt64) ≠ 0x647 := by
  refine ⟨?_, ?_, ?_, ?_⟩
  all_goals decide +kernel

end Armv8Os.Pt
