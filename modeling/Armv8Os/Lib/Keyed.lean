/-
  Lists of records with a key: the C pattern of a linked list that is searched by a number.

  `lookup key l k` is the first record with key `k`.  When no key occurs twice (`KeysNodup`) the list
  is a finite map, and the list operations of the C code are updates of that map:

  * `lookup_cons`, `lookup_remove`   — insert at the front, detach;
  * `lookup_assign`                  — write through a pointer to one record;
  * `lookup_dropLast`                — detach the last record.

  `KeysNodup` is kept by each of them, and `sum_assign`, `sum_remove` say how a sum over all records
  changes.
-/
import Mathlib.Tactic

namespace Armv8Os.Keyed

open List

variable {α : Type*} (key : α → Nat)

/-- The first record with key `k`. -/
def lookup (l : List α) (k : Nat) : Option α := l.find? fun a => key a == k

/-- Detach the first record with key `k`. -/
def remove (l : List α) (k : Nat) : List α := l.eraseP fun a => key a == k

/-- Change the record with key `k`. -/
def assign (l : List α) (k : Nat) (f : α → α) : List α := l.map fun a => if key a == k then f a else a

/-- No key occurs twice. -/
def KeysNodup (l : List α) : Prop := (l.map key).Nodup

variable {key} {l : List α} {k k' : Nat} {a : α}

theorem key_of_lookup (h : lookup key l k = some a) : key a = k := by
  simpa using find?_some h

theorem mem_of_lookup (h : lookup key l k = some a) : a ∈ l := mem_of_find?_eq_some h

theorem lookup_eq_none : lookup key l k = none ↔ ∀ a ∈ l, key a ≠ k := by
  simp [lookup]

@[simp] theorem lookup_nil : lookup key ([] : List α) k = none := rfl

theorem lookup_cons : lookup key (a :: l) k = if key a = k then some a else lookup key l k := by
  unfold lookup
  by_cases h : key a = k <;> simp [h]

theorem remove_cons : remove key (a :: l) k = if key a = k then l else a :: remove key l k := by
  unfold remove
  by_cases h : key a = k <;> simp [h]

/-- A record of the list is the one found under its key. -/
theorem lookup_of_mem (hnd : KeysNodup key l) (ha : a ∈ l) : lookup key l (key a) = some a := by
  induction l with
  | nil => cases ha
  | cons b l ih =>
    obtain ⟨hb, hrest⟩ := nodup_cons.mp hnd
    rw [lookup_cons]
    rcases mem_cons.mp ha with rfl | ha
    · rw [if_pos rfl]
    · rw [if_neg, ih hrest ha]
      intro e
      exact hb (e ▸ mem_map_of_mem ha)

theorem lookup_remove_of_ne (h : k' ≠ k) : lookup key (remove key l k) k' = lookup key l k' := by
  induction l with
  | nil => rfl
  | cons b l ih =>
    rw [remove_cons]
    by_cases hb : key b = k
    · have hne : key b ≠ k' := fun e => h (e.symm.trans hb)
      rw [if_pos hb, lookup_cons, if_neg hne]
    · rw [if_neg hb, lookup_cons, lookup_cons, ih]

theorem lookup_remove_self (hnd : KeysNodup key l) : lookup key (remove key l k) k = none := by
  induction l with
  | nil => rfl
  | cons b l ih =>
    obtain ⟨hb, hrest⟩ := nodup_cons.mp hnd
    rw [remove_cons]
    by_cases hk : key b = k
    · rw [if_pos hk, lookup_eq_none]
      intro a ha e
      exact hb (hk.trans e.symm ▸ mem_map_of_mem ha)
    · rw [if_neg hk, lookup_cons, if_neg hk, ih hrest]

theorem KeysNodup.remove (hnd : KeysNodup key l) : KeysNodup key (remove key l k) :=
  hnd.sublist (eraseP_sublist.map key)

theorem KeysNodup.cons (hnd : KeysNodup key l) (h : lookup key l (key a) = none) :
    KeysNodup key (a :: l) := by
  refine nodup_cons.mpr ⟨fun hmem => ?_, hnd⟩
  obtain ⟨b, hb, e⟩ := mem_map.mp hmem
  exact lookup_eq_none.mp h b hb e

variable {f : α → α}

/-- An assignment keeps the keys. -/
theorem map_key_assign (hf : ∀ a, key (f a) = key a) :
    (assign key l k f).map key = l.map key := by
  unfold assign
  rw [map_map]
  apply map_congr_left
  intro a _
  show key (if _ then _ else _) = _
  split
  · exact hf a
  · rfl

theorem KeysNodup.assign (hnd : KeysNodup key l) (hf : ∀ a, key (f a) = key a) :
    KeysNodup key (assign key l k f) := by
  unfold KeysNodup
  rw [map_key_assign hf]
  exact hnd

theorem lookup_assign (hf : ∀ a, key (f a) = key a) :
    lookup key (assign key l k f) k' = if k' = k then (lookup key l k').map f else lookup key l k' := by
  induction l with
  | nil => simp [assign]
  | cons b l ih =>
    have hcons : assign key (b :: l) k f = (if key b == k then f b else b) :: assign key l k f := rfl
    rw [hcons, lookup_cons, lookup_cons, ih]
    by_cases hb : key b = k
    · simp only [hb, beq_self_eq_true, if_true, hf]
      by_cases hk : k = k'
      · subst hk; simp
      · simp [hk, Ne.symm hk]
    · simp only [beq_iff_eq, hb, if_false]
      by_cases hk : k' = k
      · subst hk; simp [hb]
      · simp only [hk, if_false]

theorem mem_assign {b : α} (hb : b ∈ assign key l k f) :
    (b ∈ l ∧ key b ≠ k) ∨ ∃ a ∈ l, key a = k ∧ b = f a := by
  obtain ⟨a, ha, rfl⟩ := mem_map.mp hb
  by_cases hk : key a = k
  · exact Or.inr ⟨a, ha, hk, by simp [hk]⟩
  · exact Or.inl ⟨by simpa [hk] using ha, by simp [hk]⟩

theorem KeysNodup.dropLast (hnd : KeysNodup key l) : KeysNodup key l.dropLast :=
  hnd.sublist ((dropLast_sublist l).map key)

/-- Detaching the last record. -/
theorem lookup_dropLast (hnd : KeysNodup key l) (hlast : l.getLast? = some a) :
    lookup key l.dropLast k = if key a = k then none else lookup key l k := by
  have happ : l.dropLast ++ [a] = l := dropLast_append_getLast? a hlast
  have hlook : lookup key l k = (lookup key l.dropLast k).or (lookup key [a] k) := by
    conv_lhs => rw [← happ]
    exact find?_append
  by_cases hk : key a = k
  · rw [if_pos hk, lookup_eq_none]
    intro b hb e
    have hnd' := hnd
    rw [← happ, KeysNodup, map_append, nodup_append] at hnd'
    exact hnd'.2.2 (key b) (mem_map_of_mem hb) (key a) (by simp) (e.trans hk.symm)
  · rw [if_neg hk, hlook, lookup_cons, if_neg hk, lookup_nil, Option.or_none]

/-! ## Sums over the records -/

theorem sum_assign {v : α → Nat} (hnd : KeysNodup key l) (h : lookup key l k = some a) :
    ((assign key l k f).map v).sum + v a = (l.map v).sum + v (f a) := by
  induction l with
  | nil => cases h
  | cons b l ih =>
    obtain ⟨hb, hrest⟩ := nodup_cons.mp hnd
    have hcons : assign key (b :: l) k f = (if key b == k then f b else b) :: assign key l k f := rfl
    rw [lookup_cons] at h
    rw [hcons, map_cons, map_cons, sum_cons, sum_cons]
    by_cases hk : key b = k
    · rw [if_pos hk] at h
      cases h
      -- no other record has this key, so the rest is unchanged
      have hsame : assign key l k f = l := by
        refine (map_congr_left fun a ha => ?_).trans (map_id l)
        have hne : key a ≠ k := fun e => hb (hk.trans e.symm ▸ mem_map_of_mem ha)
        simp [hne]
      rw [hsame]
      simp only [hk, beq_self_eq_true, if_true]
      omega
    · rw [if_neg hk] at h
      have := ih hrest h
      simp only [beq_iff_eq, hk, if_false]
      omega

theorem sum_remove {v : α → Nat} (h : lookup key l k = some a) :
    ((remove key l k).map v).sum + v a = (l.map v).sum := by
  induction l with
  | nil => cases h
  | cons b l ih =>
    rw [lookup_cons] at h
    rw [remove_cons]
    by_cases hk : key b = k
    · rw [if_pos hk] at h ⊢
      cases h
      rw [map_cons, sum_cons, Nat.add_comm]
    · rw [if_neg hk] at h ⊢
      have := ih h
      rw [map_cons, map_cons, sum_cons, sum_cons]
      omega

theorem length_remove (h : lookup key l k = some a) : (remove key l k).length + 1 = l.length := by
  have hsum := sum_remove (v := fun _ => 1) h
  simpa using hsum

end Armv8Os.Keyed
