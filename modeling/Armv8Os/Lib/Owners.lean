/-
  Slots that own numbered things, and a bitmap of what is taken.

  A slot of the index type `ι` refers to a number, `0` for none; `bit b` says that `b` is marked as
  taken.  `Owned A ref bit` ties the two together inside an area `A`: no number is referred to twice,
  everything referred to lies in the area and is marked, and everything marked in the area is referred to.

  It is kept by taking a free number into an empty slot (`Owned.take`) and by giving one back
  (`Owned.drop`); these are the only two moves a client needs.
-/
import Mathlib.Tactic

namespace Armv8Os.Owners

open Function (update update_of_ne update_self)

variable {ι : Type*}

/-- The references and the marks agree. -/
structure Owned (A : Nat → Prop) (ref : ι → Nat) (bit : Nat → Bool) : Prop where
  pos : ∀ b, A b → b ≠ 0
  inj : ∀ i j, ref i ≠ 0 → ref i = ref j → i = j
  area : ∀ i, ref i ≠ 0 → A (ref i)
  marked : ∀ i, ref i ≠ 0 → bit (ref i) = true
  total : ∀ b, A b → bit b = true → ∃ i, ref i = b

variable {A : Nat → Prop} {ref : ι → Nat} {bit : Nat → Bool}

/-- Marks outside the area do not matter. -/
theorem Owned.congr {ref' : ι → Nat} {bit' : Nat → Bool} (h : Owned A ref bit) (href : ref' = ref)
    (hbit : ∀ b, A b → bit' b = bit b) : Owned A ref' bit' := by
  subst href
  refine ⟨h.pos, h.inj, h.area, fun i hi => ?_, fun b hb hm => ?_⟩
  · rw [hbit _ (h.area i hi)]
    exact h.marked i hi
  · exact h.total b hb (by rw [← hbit b hb]; exact hm)

/-- A number that is not marked belongs to no slot. -/
theorem Owned.ref_ne_of_clear (h : Owned A ref bit) {b : Nat} (hb : bit b = false) (i : ι) (hi : ref i ≠ 0) :
    ref i ≠ b := by
  rintro rfl
  have := h.marked i hi
  rw [hb] at this
  cases this

variable [DecidableEq ι]

/-- Take a free number into an empty slot. -/
theorem Owned.take (h : Owned A ref bit) {b : Nat} (hA : A b) (hfree : bit b = false) {i : ι}
    (hi : ref i = 0) : Owned A (update ref i b) (update bit b true) := by
  have hold : ∀ j, j ≠ i → update ref i b j = ref j := fun j hj => update_of_ne hj ..
  have hnew : update ref i b i = b := update_self ..
  have hbit : ∀ c, c ≠ b → update bit b true c = bit c := fun c hc => update_of_ne hc ..
  refine ⟨h.pos, fun j k hj hjk => ?_, fun j hj => ?_, fun j hj => ?_, fun c hc hm => ?_⟩
  · by_cases hji : j = i
    · by_cases hki : k = i
      · rw [hji, hki]
      · -- an old slot cannot refer to the number that was free
        subst hji
        rw [hnew, hold k hki] at hjk
        rw [hnew] at hj
        exact absurd hjk.symm (h.ref_ne_of_clear hfree k (hjk ▸ hj))
    · rw [hold j hji] at hj hjk
      by_cases hki : k = i
      · subst hki
        rw [hnew] at hjk
        exact absurd hjk (h.ref_ne_of_clear hfree j hj)
      · rw [hold k hki] at hjk
        exact h.inj j k hj hjk
  · by_cases hji : j = i
    · subst hji
      rw [hnew]
      exact hA
    · rw [hold j hji] at hj ⊢
      exact h.area j hj
  · by_cases hji : j = i
    · subst hji
      rw [hnew]
      exact update_self ..
    · rw [hold j hji] at hj ⊢
      rw [hbit _ (h.ref_ne_of_clear hfree j hj)]
      exact h.marked j hj
  · by_cases hcb : c = b
    · exact ⟨i, hnew.trans hcb.symm⟩
    · rw [hbit c hcb] at hm
      obtain ⟨j, hj⟩ := h.total c hc hm
      by_cases hji : j = i
      · subst hji
        exact absurd (hj.symm.trans hi) (h.pos c hc)
      · exact ⟨j, (hold j hji).trans hj⟩

/-- Give back what a slot refers to. -/
theorem Owned.drop (h : Owned A ref bit) {i : ι} (hi : ref i ≠ 0) :
    Owned A (update ref i 0) (update bit (ref i) false) := by
  have hold : ∀ j, j ≠ i → update ref i 0 j = ref j := fun j hj => update_of_ne hj ..
  have hgone : ∀ j, update ref i 0 j ≠ 0 → j ≠ i := by
    rintro j hj rfl
    exact hj (update_self ..)
  refine ⟨h.pos, fun j k hj hjk => ?_, fun j hj => ?_, fun j hj => ?_, fun c hc hm => ?_⟩
  · have hji := hgone j hj
    have hki : k ≠ i := hgone k (hjk ▸ hj)
    rw [hold j hji] at hj
    rw [hold j hji, hold k hki] at hjk
    exact h.inj j k hj hjk
  · have hji := hgone j hj
    rw [hold j hji] at hj ⊢
    exact h.area j hj
  · have hji := hgone j hj
    rw [hold j hji] at hj ⊢
    rw [update_of_ne (fun e => hji (h.inj j i hj e))]
    exact h.marked j hj
  · have hne : c ≠ ref i := by
      rintro rfl
      rw [update_self] at hm
      cases hm
    rw [update_of_ne hne] at hm
    obtain ⟨j, hj⟩ := h.total c hc hm
    refine ⟨j, (hold j ?_).trans hj⟩
    rintro rfl
    exact hne hj.symm

end Armv8Os.Owners
