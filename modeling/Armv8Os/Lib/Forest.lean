/-
  Parent pointers and lists of children.

  A forest is given the way a kernel stores it: `up` goes to the parent and `children` lists the other
  direction.  Nothing says that it IS a forest; what makes it one is a rank that grows from the parent to
  the child, and every result here takes such a rank.

  * `climb`       — following `up` ends at the root and meets nothing twice;
  * `below_root`  — whatever is linked in both directions is below the root;
  * `search`      — depth-first search with a bound on the depth.  The outer `none` says that the bound
    was too small, so `search_ends` is about termination: a search that goes round in a circle gives
    `none` for EVERY bound;
  * `search_finds` — the only hit below the start is found.
-/
import Mathlib.Logic.Relation
import Mathlib.Logic.Function.Iterate
import Mathlib.Tactic

namespace Armv8Os.Forest

open List

variable {P : Type}

/-! ## Upwards -/

section Up

variable {up : P → P} {live : P → Prop} {rank : P → Nat} {root : P}

theorem climb (hup : ∀ p, live p → p ≠ root → live (up p) ∧ rank (up p) < rank p) {p : P} (hp : live p) :
    ∃ n, up^[n] p = root ∧ ∀ i j, i < j → j ≤ n → up^[i] p ≠ up^[j] p := by
  -- the ranks fall along the way, so no two of them are equal
  suffices h : ∀ r p, rank p = r → live p →
      ∃ n, up^[n] p = root ∧ ∀ i j, i < j → j ≤ n → rank (up^[j] p) < rank (up^[i] p) by
    obtain ⟨n, hn, hfall⟩ := h _ p rfl hp
    exact ⟨n, hn, fun i j hij hj heq => (hfall i j hij hj).ne (by rw [heq])⟩
  intro r
  induction r using Nat.strong_induction_on with
  | _ r ih =>
    intro p hr hp
    by_cases hroot : p = root
    · exact ⟨0, hroot, fun i j hij hj => by omega⟩
    · obtain ⟨hlive, hlt⟩ := hup p hp hroot
      obtain ⟨n, hn, hfall⟩ := ih _ (hr ▸ hlt) (up p) rfl hlive
      refine ⟨n + 1, hn, fun i j hij hj => ?_⟩
      obtain ⟨j, rfl⟩ : ∃ j', j = j' + 1 := ⟨j - 1, by omega⟩
      have htail : rank (up^[j] (up p)) ≤ rank (up p) := by
        rcases Nat.eq_zero_or_pos j with rfl | hpos
        · exact le_refl _
        · exact (hfall 0 j hpos (by omega)).le
      cases i with
      | zero => exact htail.trans_lt hlt
      | succ i => exact hfall i j (by omega) (by omega)

theorem below_root {children : P → List P}
    (hup : ∀ p, live p → p ≠ root → live (up p) ∧ rank (up p) < rank p ∧ p ∈ children (up p)) {p : P}
    (hp : live p) (hroot : p ≠ root) : Relation.TransGen (fun a b => b ∈ children a) root p := by
  suffices h : ∀ r p, rank p = r → live p → p ≠ root →
      Relation.TransGen (fun a b => b ∈ children a) root p from h _ p rfl hp hroot
  intro r
  induction r using Nat.strong_induction_on with
  | _ r ih =>
    intro p hr hp hroot
    obtain ⟨hlive, hlt, hmem⟩ := hup p hp hroot
    by_cases hparent : up p = root
    · rw [hparent] at hmem
      exact .single hmem
    · exact (ih _ (hr ▸ hlt) (up p) rfl hlive hparent).tail hmem

end Up

/-! ## Downwards -/

/-- The loop over the children of one node. -/
def searchAll (hit : P → Bool) (visit : P → Option (Option P)) : List P → Option (Option P)
  | [] => some none
  | c :: rest =>
    if hit c then some (some c)
    else match visit c with
      | none => none
      | some (some obj) => some (some obj)
      | some none => searchAll hit visit rest

/-- Depth-first search below a node, `n` levels deep at most. -/
def search (children : P → List P) (hit : P → Bool) : Nat → P → Option (Option P)
  | 0, _ => none
  | n + 1, p => searchAll hit (search children hit n) (children p)

variable {hit : P → Bool} {visit : P → Option (Option P)} {children : P → List P} {cs : List P}

theorem searchAll_ends (h : ∀ c ∈ cs, ∃ r, visit c = some r) :
    ∃ r, searchAll hit visit cs = some r := by
  induction cs with
  | nil => exact ⟨none, rfl⟩
  | cons c cs ih =>
    obtain ⟨r, hr⟩ := h c mem_cons_self
    have htail := ih fun d hd => h d (mem_cons_of_mem c hd)
    unfold searchAll
    split
    · exact ⟨some c, rfl⟩
    · rw [hr]
      cases r with
      | none => exact htail
      | some obj => exact ⟨some obj, rfl⟩

/-- A loop that finds nothing has tried every child. -/
theorem searchAll_none (h : searchAll hit visit cs = some none) :
    ∀ c ∈ cs, hit c = false ∧ visit c = some none := by
  induction cs with
  | nil => exact fun c hc => absurd hc not_mem_nil
  | cons c cs ih =>
    unfold searchAll at h
    split at h
    · cases h
    · rename_i hhit
      split at h
      · cases h
      · cases h
      · rename_i hvisit
        rintro d hd
        rcases mem_cons.mp hd with rfl | hd
        · exact ⟨Bool.eq_false_iff.mpr hhit, hvisit⟩
        · exact ih h d hd

theorem searchAll_some {t : P} (h : searchAll hit visit cs = some (some t)) :
    (t ∈ cs ∧ hit t = true) ∨ ∃ c ∈ cs, visit c = some (some t) := by
  induction cs with
  | nil => cases h
  | cons c cs ih =>
    unfold searchAll at h
    split at h
    · rename_i hhit
      obtain rfl := Option.some.inj (Option.some.inj h)
      exact Or.inl ⟨mem_cons_self, hhit⟩
    · split at h
      · cases h
      · rename_i hvisit
        exact Or.inr ⟨c, mem_cons_self, hvisit.trans h⟩
      · rcases ih h with ⟨ht, hhit⟩ | ⟨d, hd, hvisit⟩
        · exact Or.inl ⟨mem_cons_of_mem c ht, hhit⟩
        · exact Or.inr ⟨d, mem_cons_of_mem c hd, hvisit⟩

variable {n : Nat}

/-- A bound above the number of ranks left is deep enough. -/
theorem search_ends {rank : P → Nat} {b : Nat}
    (hrank : ∀ p, ∀ c ∈ children p, rank p < rank c ∧ rank c < b) {p : P} (hn : b - rank p < n) :
    ∃ r, search children hit n p = some r := by
  induction n generalizing p with
  | zero => exact absurd hn (Nat.not_lt_zero _)
  | succ n ih =>
    refine searchAll_ends fun c hc => ih ?_
    have := hrank p c hc
    omega

theorem search_none {p t : P} (h : search children hit n p = some none)
    (ht : Relation.TransGen (fun a b => b ∈ children a) p t) : hit t = false := by
  induction n generalizing p with
  | zero => cases h
  | succ n ih =>
    obtain ⟨c, hc, hrest⟩ := Relation.TransGen.head'_iff.mp ht
    obtain ⟨hhit, hvisit⟩ := searchAll_none h c hc
    rcases Relation.reflTransGen_iff_eq_or_transGen.mp hrest with rfl | hbelow
    · exact hhit
    · exact ih hvisit hbelow

theorem search_some {p t : P} (h : search children hit n p = some (some t)) :
    hit t = true ∧ ∃ q, t ∈ children q := by
  induction n generalizing p with
  | zero => cases h
  | succ n ih =>
    rcases searchAll_some h with ⟨ht, hhit⟩ | ⟨c, -, hvisit⟩
    · exact ⟨hhit, p, ht⟩
    · exact ih hvisit

theorem search_finds {rank : P → Nat} {b : Nat}
    (hrank : ∀ p, ∀ c ∈ children p, rank p < rank c ∧ rank c < b) {p t : P}
    (hn : b - rank p < n) (ht : Relation.TransGen (fun a b => b ∈ children a) p t) (hhit : hit t = true)
    (honly : ∀ q, ∀ c ∈ children q, hit c = true → c = t) : search children hit n p = some (some t) := by
  have hends : ∃ r, search children hit n p = some r := search_ends hrank hn
  obtain ⟨r, hr⟩ := hends
  cases r with
  | none =>
    rw [search_none hr ht] at hhit
    cases hhit
  | some c =>
    obtain ⟨hc, q, hmem⟩ := search_some hr
    rw [hr, honly q c hmem hc]

end Armv8Os.Forest
