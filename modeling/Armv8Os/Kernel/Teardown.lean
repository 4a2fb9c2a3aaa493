/-
  `free_pgdir`: taking an address space down.

  1. **Program** — `freePgdir`: the pages in the order in which `kfree_page` is called on them.  `free_sections` visits the
     pages of each section, `traverse_free` goes down the tables, where an entry that is NOT ZERO leads to a table.

  2. **Specification** — every page that the space uses, once.

  3. **Crux** — `mem_traverse`, by induction from the last level up: below a table lie the tables of the walks that come
     through it.  Two of them are the same page only if the walks are the same (`Wf.separate`).

  Nothing that is freed is read again: the links of the free list go into the pages, but not into any table that is still
  to be visited.
-/
import Armv8Os.Kernel.CopyPgdir

namespace Armv8Os.Pt

open Mmu List Option UInt64

/-! ## The program -/

/-- `ST_SWAP`. -/
def stSwap : UInt64 := 2

/-- What `free_sections` does with an entry: the page it frees. -/
def entryPage (w : UInt64) : Option UInt64 :=
  if w = 0 then none else if isValid w then some (p2k (w &&& ~~~0xFFF)) else none

/-- `free_sections` on one section.  Of a section that is swapped out only disk blocks are released. -/
def sectionPages (m : Paging) (sec : Section) : List UInt64 :=
  if sec.flags &&& stSwap ≠ 0 then []
  else
    sec.pages.filterMap fun va =>
      match getPte m va false with
      | .ok (pte, _) => entryPage (m.word pte)
      | .error _ => none

/-- `traverse_free(table, n)`. -/
def traverseFree (m : Paging) : Nat → UInt64 → List UInt64
  | 0, _ => []
  | 1, table => [table]
  | n + 2, table =>
    ((List.range 512).flatMap fun i =>
      if m.word (entry table (UInt64.ofNat i)) ≠ 0 then
        traverseFree m (n + 1) (p2k (pteAddress (m.word (entry table (UInt64.ofNat i)))))
      else []) ++ [table]

/-- `free_pgdir`. -/
def freePgdir (m : Paging) (sections : List Section) : List UInt64 :=
  sections.flatMap (sectionPages m) ++ if m.pt ≠ 0 then traverseFree m 4 m.pt else []

/-! ## Entries that are not zero -/

/-- In the upper tables an entry is zero or leads to a table. -/
def Clean (m : Paging) : Prop :=
  ∀ k < 3, ∀ va t, walk m va k = some t → m.word (entry t (index k va)) ≠ 0 → (follow (m.word (entry t (index k va)))).isSome

theorem emptyRoot_clean {m : Paging} {p : UInt64} {free : List UInt64} (hp : KernelPage p) : Clean (emptyRoot m p free) := by
  intro k _ va t ht hne
  rw [walk_emptyRoot hp, ite_none_right_eq_some] at ht
  rw [← some.inj ht.2] at hne
  exact absurd (if_pos (pageBase_entry hp (index_lt _ _))) hne

theorem SameTables.clean {m m' : Paging} (h : SameTables m m') (hwf : Wf m) (hclean : Clean m) : Clean m' := by
  intro k hk va t ht hne
  rw [h.walk hwf va (by omega)] at ht
  have hword := h.word va k (by omega) t ht (entry t (index k va))
    (pageBase_entry (hwf.table k (by omega) va t ht).1 (index_lt _ _))
  rw [hword] at hne ⊢
  exact hclean k hk va t ht hne

section Clean

variable {m m' : Paging} {va t p : UInt64} {free : List UInt64} {k : Nat}

section

variable (h : Wf m) (hclean : Clean m)
include h hclean

theorem grow_clean (hfree : m.free = p :: free) (hk : k < 3) (hwalk : walk m va k = some t)
    (hempty : follow (m.word (entry t (index k va))) = none) : Clean (grow m (entry t (index k va)) p free) := by
  have hpage : KernelPage p := h.free.page p (hfree ▸ mem_cons_self)
  obtain ⟨htpage, -⟩ := h.table k (by omega) va t hwalk
  intro j hj va' u hu hne
  by_cases hentry : entry u (index j va') = entry t (index k va)
  · rw [hentry, grow_word_entry, follow_table hpage]
    rfl
  · rcases walk_grow_cases h hfree hk hwalk hempty (by omega) hu with ⟨-, -, rfl⟩ | hold
    · exact absurd (grow_word_new (pageBase_entry hpage (index_lt _ _)) hentry) hne
    · obtain ⟨hupage, hufree⟩ := h.table j (by omega) va' u hold
      have hout : pageBase (entry u (index j va')) ≠ p := by
        rw [pageBase_entry hupage (index_lt _ _)]
        rintro rfl
        exact hufree (hfree ▸ mem_cons_self)
      rw [grow_word hout hentry] at hne ⊢
      exact hclean j hj va' u hold hne

theorem nextTable_clean {t' : UInt64} (hk : k < 3) (hwalk : walk m va k = some t)
    (hnext : nextTable m (entry t (index k va)) true = .ok (t', m')) : Clean m' := by
  obtain ⟨-, rfl⟩ | ⟨hempty, free, hfree, rfl⟩ := nextTable_cases hnext
  · exact hclean
  · exact grow_clean h hclean hfree hk hwalk hempty

theorem getPte_clean {pte : UInt64} (hget : getPte m va true = .ok (pte, m')) : Clean m' :=
  (getPte_levels h hclean hget fun _ _ _ _ _ hk hwf hI hwalk hnext => nextTable_clean hwf hI hk hwalk hnext).1

theorem vmmap_clean {ka flags : UInt64} (hmap : vmmap m va ka flags = .ok m') : Clean m' := by
  obtain ⟨⟨pte, m₁⟩, hget, hok⟩ := bind_eq_ok.mp hmap
  obtain ⟨hwf, -, t, hwalk, rfl⟩ := getPte_true h hget
  obtain rfl := Except.ok.inj hok
  have hclean₁ := getPte_clean h hclean hget
  intro k hk va' u hu hne
  rw [walk_setEntry hwf hwalk _ va' (by omega)] at hu
  -- the entry that was written is on the last level
  have hword : Function.update m₁.word (entry t (index 3 va)) (k2p ka ||| flags) (entry u (index k va')) =
      m₁.word (entry u (index k va')) := by
    refine Function.update_of_ne (fun heq => ?_) ..
    have hupage := (hwf.table k (by omega) va' u hu).1
    obtain ⟨rfl, -⟩ := entry_inj hupage (hwf.table 3 le_rfl va t hwalk).1 (index_lt _ _) (index_lt _ _) heq
    obtain ⟨rfl, -⟩ := hwf.separate k (by omega) 3 le_rfl va' va u hu hwalk
    omega
  change Function.update m₁.word _ _ (entry u (index k va')) ≠ 0 at hne
  show (follow (Function.update m₁.word _ _ (entry u (index k va')))).isSome
  rw [hword] at hne ⊢
  exact hclean₁ k hk va' u hu hne

end

end Clean

/-! ## The tables below a table -/

theorem toNat_index {k : Nat} (hk : k ≤ 3) (va : UInt64) : (index k va).toNat = va.toNat / 2 ^ (39 - 9 * k) % 512 := by
  interval_cases k
  · exact toNat_vaPart0 va
  · exact toNat_vaPart1 va
  · exact toNat_vaPart2 va
  · exact toNat_vaPart3 va

/-- Every turn is taken by some walk. -/
theorem exists_turn {k : Nat} (hk : k ≤ 3) (va : UInt64) {i : Nat} (hi : i < 512) :
    ∃ va', SameWay k va va' ∧ index k va' = UInt64.ofNat i := by
  have hva := va.toNat_lt
  -- keep the bits above, set the nine bits, clear the rest
  obtain ⟨n, hn⟩ : ∃ n, n = va.toNat / 2 ^ (48 - 9 * k) * 2 ^ (48 - 9 * k) + i * 2 ^ (39 - 9 * k) := ⟨_, rfl⟩
  have hnat : (UInt64.ofNat n).toNat = n := by
    rw [UInt64.toNat_ofNat', hn]
    interval_cases k
    all_goals omega
  refine ⟨UInt64.ofNat n, fun j hj => UInt64.toNat_inj.mp ?_, UInt64.toNat_inj.mp ?_⟩
  · rw [toNat_index (by omega), toNat_index (by omega), hnat, hn]
    interval_cases k
    all_goals
      interval_cases j
      all_goals omega
  · rw [toNat_index hk, hnat, hn, UInt64.toNat_ofNat']
    interval_cases k
    all_goals omega

/-- A walk that comes to level `k'` has passed level `k`. -/
theorem walk_passes {m : Paging} {va p : UInt64} {k k' : Nat} (hle : k ≤ k') (h : walk m va k' = some p) :
    ∃ t, walk m va k = some t := by
  induction hle generalizing p with
  | refl => exact ⟨p, h⟩
  | step _ ih =>
    obtain ⟨t, ht, -⟩ := walk_above h
    exact ih ht

section Traverse

variable {m : Paging}

/-- An entry of an upper table that is not zero, and the walk through it. -/
theorem walk_nonzero (hclean : Clean m) {va t w : UInt64} {k : Nat} (hk : k < 3) (hwalk : walk m va k = some t)
    (hw : m.word (entry t (index k va)) = w) (hne : w ≠ 0) : walk m va (k + 1) = some (p2k (pteAddress w)) := by
  subst hw
  obtain ⟨u, hu⟩ := isSome_iff_exists.mp (hclean k hk va t hwalk hne)
  obtain ⟨-, hp⟩ := ite_none_right_eq_some.mp hu
  rw [walk_succ, hwalk, bind_some, hu, some.inj hp]

/-- `traverse_free` visits the tables of all walks that come through the table. -/
theorem mem_traverseFree (hclean : Clean m) {n k : Nat} (hn : k + n = 3) {va t : UInt64} (hwalk : walk m va k = some t)
    (p : UInt64) :
    p ∈ traverseFree m (n + 1) t ↔ ∃ va' k', k ≤ k' ∧ k' ≤ 3 ∧ SameWay k va va' ∧ walk m va' k' = some p := by
  induction n generalizing k va t with
  | zero =>
    obtain rfl : k = 3 := by omega
    show p ∈ [t] ↔ _
    rw [mem_singleton]
    constructor
    · rintro rfl
      exact ⟨va, 3, le_rfl, le_rfl, SameWay.refl 3 va, hwalk⟩
    · rintro ⟨va', k', hle, hle', hway, hp⟩
      obtain rfl : k' = 3 := by omega
      rw [← walk_sameWay m hway, hwalk] at hp
      exact (some.inj hp).symm
  | succ n ih =>
    have hk : k < 3 := by omega
    show p ∈ (List.range 512).flatMap _ ++ [t] ↔ _
    rw [mem_append, mem_flatMap, mem_singleton]
    constructor
    · rintro (⟨i, hi, hp⟩ | rfl)
      · obtain ⟨hne, hp⟩ : m.word (entry t (UInt64.ofNat i)) ≠ 0 ∧
            p ∈ traverseFree m (n + 1) (p2k (pteAddress (m.word (entry t (UInt64.ofNat i))))) := by
          split at hp
          next hne => exact ⟨hne, hp⟩
          next => cases hp
        obtain ⟨va₁, hway, hturn⟩ := exists_turn (by omega : k ≤ 3) va (mem_range.mp hi)
        have hwalk₁ : walk m va₁ k = some t := (walk_sameWay m hway).symm.trans hwalk
        have hnext := walk_nonzero hclean hk hwalk₁ (by rw [hturn]) hne
        obtain ⟨va', k', hle, hle', hway', hp'⟩ := (ih (by omega) hnext).mp hp
        exact ⟨va', k', by omega, hle', hway.trans (hway'.mono (by omega)), hp'⟩
      · exact ⟨va, k, le_rfl, by omega, SameWay.refl k va, hwalk⟩
    · rintro ⟨va', k', hle, hle', hway, hp⟩
      have hwalk' : walk m va' k = some t := (walk_sameWay m hway).symm.trans hwalk
      rcases Nat.lt_or_eq_of_le hle with hlt | rfl
      · obtain ⟨u, hu⟩ := walk_passes (by omega : k + 1 ≤ k') hp
        have hfollow : follow (m.word (entry t (index k va'))) = some u := by
          rw [walk_succ, hwalk', bind_some] at hu
          exact hu
        have hindex : UInt64.ofNat (index k va').toNat = index k va' := UInt64.ofNat_toNat
        refine Or.inl ⟨(index k va').toNat, mem_range.mpr (index_lt k va'), ?_⟩
        have hne : m.word (entry t (index k va')) ≠ 0 := by
          intro hzero
          rw [hzero, follow_zero] at hfollow
          cases hfollow
        obtain ⟨-, hpage⟩ := ite_none_right_eq_some.mp hfollow
        rw [hindex, if_pos hne, some.inj hpage]
        exact (ih (by omega) hu).mpr ⟨va', k', by omega, hle', SameWay.refl _ va', hp⟩
      · rw [hwalk'] at hp
        exact Or.inr (some.inj hp).symm

theorem nodup_traverseFree (h : Wf m) (hclean : Clean m) {n k : Nat} (hn : k + n = 3) {va t : UInt64}
    (hwalk : walk m va k = some t) : (traverseFree m (n + 1) t).Nodup := by
  induction n generalizing k va t with
  | zero => exact nodup_singleton t
  | succ n ih =>
    have hk : k < 3 := by omega
    -- what lies below turn `i`
    have hbelow : ∀ i < 512, ∀ p, (p ∈ if m.word (entry t (UInt64.ofNat i)) ≠ 0 then
          traverseFree m (n + 1) (p2k (pteAddress (m.word (entry t (UInt64.ofNat i))))) else []) →
        ∃ va' k', k < k' ∧ k' ≤ 3 ∧ index k va' = UInt64.ofNat i ∧ walk m va' k' = some p := by
      intro i hi p hp
      split at hp
      next hne =>
        obtain ⟨va₁, hway, hturn⟩ := exists_turn (by omega : k ≤ 3) va hi
        have hwalk₁ : walk m va₁ k = some t := (walk_sameWay m hway).symm.trans hwalk
        have hnext := walk_nonzero hclean hk hwalk₁ (by rw [hturn]) hne
        obtain ⟨va', k', hle, hle', hway', hp'⟩ := (mem_traverseFree hclean (by omega) hnext p).mp hp
        exact ⟨va', k', by omega, hle', (hway' k (by omega)).symm.trans hturn, hp'⟩
      next => cases hp
    show ((List.range 512).flatMap _ ++ [t]).Nodup
    refine nodup_append.mpr ⟨nodup_flatMap.mpr ⟨fun i hi => ?_, ?_⟩, nodup_singleton t, ?_⟩
    · split
      next hne =>
        obtain ⟨va₁, hway, hturn⟩ := exists_turn (by omega : k ≤ 3) va (mem_range.mp hi)
        have hwalk₁ : walk m va₁ k = some t := (walk_sameWay m hway).symm.trans hwalk
        exact ih (by omega) (walk_nonzero hclean hk hwalk₁ (by rw [hturn]) hne)
      next => exact nodup_nil
    · refine nodup_range.imp_of_mem fun {i j} hi hj hne => ?_
      rw [mem_range] at hi hj
      intro p hp hp'
      obtain ⟨va₁, k₁, hlt1, hle1, hturn1, hwalk₁⟩ := hbelow i hi p hp
      obtain ⟨va₂, k₂, hlt2, hle2, hturn2, hwalk₂⟩ := hbelow j hj p hp'
      obtain ⟨rfl, hway⟩ := h.separate k₁ hle1 k₂ hle2 va₁ va₂ p hwalk₁ hwalk₂
      have heq : UInt64.ofNat i = UInt64.ofNat j := hturn1.symm.trans ((hway k hlt1).trans hturn2)
      have hnat := congrArg UInt64.toNat heq
      rw [toNat_ofNat', toNat_ofNat'] at hnat
      omega
    · intro p hp q hq heq
      obtain rfl := mem_singleton.mp hq
      subst heq
      obtain ⟨i, hi, hp⟩ := mem_flatMap.mp hp
      obtain ⟨va', k', hlt, hle, -, hwalk'⟩ := hbelow i (mem_range.mp hi) p hp
      obtain ⟨rfl, -⟩ := h.separate k (by omega) k' hle va va' p hwalk hwalk'
      omega

end Traverse

/-! ## All pages, once -/

/-- A space whose pages are all its own and all in its sections. -/
structure Exclusive (m : Paging) (sections : List Section) : Prop where
  space : UserSpace m
  clean : Clean m
  distinct : Distinct m
  low : ∀ va, seen m va &&& kspaceMask = 0
  noSwap : ∀ sec ∈ sections, sec.flags &&& stSwap = 0
  apart : ((sections.flatMap Section.pages).map vpn).Nodup
  covers : ∀ va, (pageAt m va).isSome → ∃ va' ∈ sections.flatMap Section.pages, vpn va' = vpn va

theorem pageAt_vpn (m : Paging) {va va' : UInt64} (h : vpn va = vpn va') : pageAt m va = pageAt m va' :=
  congrArg follow (seen_vpn m h)

/-- Without flags in the top bits an entry is freed as the page it maps. -/
theorem entryPage_eq_follow {w : UInt64} (hlow : w &&& kspaceMask = 0) : entryPage w = follow w := by
  unfold entryPage follow
  by_cases hzero : w = 0
  · subst hzero
    decide
  · rw [if_neg hzero]
    have hsplit : w &&& ~~~0xFFF = pteAddress w := by
      calc w &&& ~~~0xFFF = (addressMask ||| kspaceMask) &&& w := by
            rw [show addressMask ||| kspaceMask = ~~~0xFFF from by decide, UInt64.and_comm]
        _ = addressMask &&& w ||| kspaceMask &&& w := Words.or_and ..
        _ = pteAddress w := by
          rw [UInt64.and_comm kspaceMask, hlow, UInt64.or_zero, UInt64.and_comm]
          rfl
    rw [hsplit]

theorem sectionPages_eq {m : Paging} {sec : Section} (hlow : ∀ va, seen m va &&& kspaceMask = 0)
    (hswap : sec.flags &&& stSwap = 0) : sectionPages m sec = sec.pages.filterMap (pageAt m) := by
  unfold sectionPages
  rw [if_neg (not_not.mpr hswap)]
  refine filterMap_congr fun va _ => ?_
  unfold pageAt
  cases hwalk : walk m va 3 with
  | none => rw [getPte_false, hwalk, seen_none hwalk, follow_zero]
  | some t =>
    have hva := hlow va
    rw [seen_some hwalk] at hva ⊢
    rw [getPte_false, hwalk]
    exact entryPage_eq_follow hva

/-- Only pages of the space are freed. -/
theorem uses_of_mem_freePgdir {m : Paging} {sections : List Section} {p : UInt64} (h : UserSpace m) (hclean : Clean m)
    (hlow : ∀ va, seen m va &&& kspaceMask = 0) (hp : p ∈ freePgdir m sections) : Uses m p := by
  have hroot : walk m 0 0 = some m.pt := if_neg h.wf.root
  unfold freePgdir at hp
  rw [if_pos h.wf.root] at hp
  rcases mem_append.mp hp with hin | hin
  · obtain ⟨sec, -, hin⟩ := mem_flatMap.mp hin
    by_cases hswap : sec.flags &&& stSwap = 0
    · rw [sectionPages_eq hlow hswap] at hin
      obtain ⟨va, -, hva⟩ := mem_filterMap.mp hin
      exact Or.inr ⟨va, hva⟩
    · rw [show sectionPages m sec = [] from if_pos hswap] at hin
      cases hin
  · obtain ⟨va, k, -, hk, -, hwalk⟩ := (mem_traverseFree hclean (by omega) hroot p).mp hin
    exact Or.inl ⟨va, k, hk, hwalk⟩

section Same

variable {m m' : Paging} {va t : UInt64}

section

variable (h : SameTables m m') (hwf : Wf m)
include h hwf

theorem SameTables.sectionPages (sec : Section) : sectionPages m' sec = sectionPages m sec := by
  refine if_congr Iff.rfl rfl (filterMap_congr fun va _ => ?_)
  rw [getPte_false, getPte_false, h.walk hwf va le_rfl]
  cases ht : Pt.walk m va 3 with
  | none => rfl
  | some t =>
    exact congrArg entryPage
      (h.word va 3 le_rfl t ht _ (pageBase_entry (hwf.table 3 le_rfl va t ht).1 (index_lt _ _)))

theorem SameTables.traverseFree (hclean : Clean m) {n k : Nat} (hn : k + n = 3)
    (hwalk : Pt.walk m va k = some t) : traverseFree m' (n + 1) t = traverseFree m (n + 1) t := by
  induction n generalizing k va t with
  | zero => rfl
  | succ n ih =>
    have hword : ∀ i < 512, m'.word (entry t (UInt64.ofNat i)) = m.word (entry t (UInt64.ofNat i)) := by
      intro i hi
      refine h.word va k (by omega) t hwalk _ (pageBase_entry (hwf.table k (by omega) va t hwalk).1 ?_)
      rw [toNat_ofNat']
      omega
    show (List.range 512).flatMap _ ++ [t] = (List.range 512).flatMap _ ++ [t]
    refine congrArg (· ++ [t]) (flatMap_congr fun i hi => ?_)
    have hi' := mem_range.mp hi
    rw [hword i hi']
    by_cases hne : m.word (entry t (UInt64.ofNat i)) ≠ 0
    · rw [if_pos hne, if_pos hne]
      obtain ⟨va₁, hway, hturn⟩ := exists_turn (by omega : k ≤ 3) va hi'
      have hwalk₁ : Pt.walk m va₁ k = some t := (walk_sameWay m hway).symm.trans hwalk
      exact ih (by omega) (walk_nonzero hclean (by omega) hwalk₁ (by rw [hturn]) hne)
    · rw [if_neg hne, if_neg hne]

/-- What is freed depends on the tables only. -/
theorem SameTables.freePgdir (hclean : Clean m) (sections : List Section) :
    freePgdir m' sections = freePgdir m sections := by
  have hroot : Pt.walk m 0 0 = some m.pt := if_neg hwf.root
  unfold Pt.freePgdir
  rw [flatMap_congr fun sec _ => h.sectionPages hwf sec, h.pt, if_pos hwf.root, if_pos hwf.root,
    h.traverseFree hwf hclean (by omega) hroot]

end

end Same

section Exclusive

variable {m : Paging} {sections : List Section}

section

variable (h : Exclusive m sections)
include h

theorem Exclusive.dataPages :
    sections.flatMap (sectionPages m) = (sections.flatMap Section.pages).filterMap (pageAt m) := by
  rw [filterMap_flatMap]
  exact flatMap_congr fun sec hsec => sectionPages_eq h.low (h.noSwap sec hsec)

theorem Exclusive.tables :
    (if m.pt ≠ 0 then traverseFree m 4 m.pt else []) = traverseFree m 4 m.pt ∧ walk m 0 0 = some m.pt :=
  ⟨if_pos h.space.wf.root, if_neg h.space.wf.root⟩

/-- `free_pgdir` frees the pages that the space uses. -/
theorem Exclusive.mem_freePgdir (p : UInt64) : p ∈ freePgdir m sections ↔ Uses m p := by
  obtain ⟨htables, hroot⟩ := h.tables
  unfold freePgdir
  rw [htables, mem_append, h.dataPages, mem_filterMap, mem_traverseFree h.clean (by omega) hroot, or_comm]
  refine or_congr ⟨?_, ?_⟩ ⟨?_, ?_⟩
  · rintro ⟨va, k, -, hk, -, hp⟩
    exact ⟨va, k, hk, hp⟩
  · rintro ⟨va, k, hk, hp⟩
    exact ⟨va, k, Nat.zero_le k, hk, fun j hj => absurd hj (Nat.not_lt_zero j), hp⟩
  · rintro ⟨va, -, hp⟩
    exact ⟨va, hp⟩
  · rintro ⟨va, hp⟩
    obtain ⟨va', hva', hvpn⟩ := h.covers va (hp ▸ rfl)
    exact ⟨va', hva', (pageAt_vpn m hvpn).trans hp⟩

/-- And each of them once. -/
theorem Exclusive.nodup_freePgdir : (freePgdir m sections).Nodup := by
  obtain ⟨htables, hroot⟩ := h.tables
  unfold freePgdir
  rw [htables, h.dataPages]
  refine nodup_append.mpr ⟨?_, nodup_traverseFree h.space.wf h.clean (by omega) hroot, ?_⟩
  · refine (pairwise_map.mp h.apart).filterMap (pageAt m) fun va va' hne p hp p' hp' heq => ?_
    subst heq
    exact hne (h.distinct va va' p hp hp')
  · intro p hp q hq heq
    subst heq
    obtain ⟨va, -, hpage⟩ := mem_filterMap.mp hp
    obtain ⟨va', k, -, hk, -, hwalk⟩ := (mem_traverseFree h.clean (by omega) hroot p).mp hq
    exact h.space.notTable va p hpage va' k hk hwalk

end

end Exclusive

end Armv8Os.Pt
