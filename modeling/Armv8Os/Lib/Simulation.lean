/-
  Refinement of programs.

  `Sim R U m m'` — started in states related by `R`, the program `m` does what the abstract program `m'`
  does: it returns the same value in a related state, or fails in the same way.  A failure of `m'` that
  satisfies `U` means that the abstract program does not describe what happens; then `m` may do anything.

  The rules follow the constructs, so the refinement of a program is put together from that of its parts,
  and two instances of one generic program refine each other as soon as their primitives do.  For a pair of
  states `Half R` relates the first halves by `R` and wants the second halves equal.
-/
import Armv8Os.Lib.Prog

namespace Armv8Os.Simulation

open Prog

variable {ε σ τ μ α β : Type}

/-- `m` does what `m'` does. -/
def Sim (R : σ → τ → Prop) (U : ε → Prop) (m : Prog ε σ α) (m' : Prog ε τ α) : Prop :=
  ∀ s t, R s t →
    match m' t with
    | .ok (a, t') => ∃ s', m s = .ok (a, s') ∧ R s' t'
    | .error e => U e ∨ m s = .error e

variable {R : σ → τ → Prop} {U : ε → Prop} {m' : Prog ε τ α} {m : Prog ε σ α}

/-- What the abstract program returns, the concrete one returns. -/
theorem Sim.ok (h : Sim R U m m') {s : σ} {t t' : τ} {a : α}
    (hR : R s t) (hm : m' t = .ok (a, t')) : ∃ s', m s = .ok (a, s') ∧ R s' t' := by
  have := h s t hR
  rw [hm] at this
  exact this

/-- To show that a primitive refines another, look at its weakest precondition for each outcome. -/
theorem Sim.of_wp (h : ∀ s t, R s t →
      match m' t with
      | .ok (a, t') => wp m (fun b s' => b = a ∧ R s' t') (fun _ => False) s
      | .error e => U e ∨ wp m (fun _ _ => False) (fun e' => e' = e) s) : Sim R U m m' := by
  intro s t hR
  have hst := h s t hR
  cases hm' : m' t with
  | ok r =>
    rw [hm'] at hst
    obtain ⟨b, s', hm, rfl, hR'⟩ := exists_of_wp hst
    exact ⟨s', hm, hR'⟩
  | error e =>
    rw [hm'] at hst
    rcases hst with hU | hst
    · exact Or.inl hU
    · right
      cases hm : m s with
      | ok r => exact (Prog.of_wp hst hm).elim
      | error e' => rw [of_wp_error hst hm]

/-- What is proved about the abstract program holds of the concrete one, if it rules out the failures that
    say nothing. -/
theorem Sim.wp (h : Sim R U m m') {s : σ} {t : τ} (hR : R s t)
    {Q : α → τ → Prop} {E : ε → Prop} (hw : Prog.wp m' Q E t) (hU : ∀ e, U e → ¬ E e) :
    Prog.wp m (fun a s' => ∃ t', R s' t' ∧ Q a t') E s := by
  have hst := h s t hR
  unfold Prog.wp at hw ⊢
  cases hm' : m' t with
  | ok r =>
    rw [hm'] at hst hw
    obtain ⟨s', hm, hR'⟩ := hst
    rw [hm]
    exact ⟨r.2, hR', hw⟩
  | error e =>
    rw [hm'] at hst hw
    rw [hst.resolve_left fun hu => hU e hu hw]
    exact hw

theorem Sim.pure (a : α) : Sim R U (pure a : Prog ε σ α) (pure a) := fun s _ hR => ⟨s, rfl, hR⟩

theorem Sim.throw (e : ε) : Sim R U (throw e : Prog ε σ α) (throw e) := fun _ _ _ => Or.inr rfl

theorem Sim.bind {f : α → Prog ε σ β} {f' : α → Prog ε τ β}
    (h : Sim R U m m') (hf : ∀ a, Sim R U (f a) (f' a)) : Sim R U (m >>= f) (m' >>= f') := by
  intro s t hR
  have hstep := h s t hR
  show match (StateT.bind m' f') t with | .ok (a, t') => _ | .error e => _
  unfold StateT.bind
  cases hm' : m' t with
  | error e =>
    rw [hm'] at hstep
    rcases hstep with hU | hm
    · exact Or.inl hU
    · right
      show (StateT.bind m f) s = _
      unfold StateT.bind
      rw [hm]
      rfl
  | ok r =>
    rw [hm'] at hstep
    obtain ⟨s', hm, hR'⟩ := hstep
    have hrest := hf r.1 s' r.2 hR'
    have hbind : (m >>= f) s = f r.1 s' := by
      show (StateT.bind m f) s = _
      unfold StateT.bind
      rw [hm]
      rfl
    show match f' r.1 r.2 with | .ok (a, t') => _ | .error e => _
    rw [hbind]
    exact hrest

theorem Sim.ite {c : Prop} [Decidable c] {n : Prog ε σ α} {n' : Prog ε τ α} (hm : Sim R U m m')
    (hn : Sim R U n n') : Sim R U (if c then m else n) (if c then m' else n') := by
  split
  · exact hm
  · exact hn

theorem Sim.assert (e : ε) (c : Bool) : Sim R U (assert e c : Prog ε σ Unit) (assert e c) :=
  Sim.ite (Sim.pure ()) (Sim.throw e)

section

variable {f : Nat → Prog ε σ Unit} {f' : Nat → Prog ε τ Unit} (hf : ∀ i, Sim R U (f i) (f' i))
include hf

theorem Sim.forFrom (i k : Nat) : Sim R U (forFrom f i k) (forFrom f' i k) := by
  induction k generalizing i with
  | zero => exact Sim.pure ()
  | succ k ih => exact Sim.bind (hf i) fun _ => ih (i + 1)

theorem Sim.forRange (n : Nat) : Sim R U (forRange n f) (forRange n f') := Sim.forFrom hf 0 n

end

/-! ## Pairs of states -/

/-- The first halves are related, the second halves are equal. -/
def Half (R : σ → τ → Prop) (s : σ × μ) (t : τ × μ) : Prop := R s.1 t.1 ∧ s.2 = t.2

theorem Sim.onFst (h : Sim R U m m') :
    Sim (Half (μ := μ) R) U (onFst m) (onFst m') := by
  intro s t hR
  have hstep := h s.1 t.1 hR.1
  unfold Prog.onFst
  cases hm' : m' t.1 with
  | ok r =>
    rw [hm'] at hstep
    obtain ⟨s', hm, hR'⟩ := hstep
    exact ⟨(s', s.2), by rw [hm], hR', hR.2⟩
  | error e =>
    rw [hm'] at hstep
    rcases hstep with hU | hm
    · exact Or.inl hU
    · exact Or.inr (by rw [hm])

/-- A program on the common half. -/
theorem Sim.onSnd (m : Prog ε μ α) : Sim (Half R) U (onSnd m : Prog ε (σ × μ) α) (onSnd m) := by
  intro s t hR
  unfold Prog.onSnd
  rw [hR.2]
  cases m t.2 with
  | ok r => exact ⟨(s.1, r.2), rfl, hR.1, rfl⟩
  | error e => exact Or.inr rfl

end Armv8Os.Simulation
