/-
  Runs of a labelled PARTIAL step function.

  A system is a function `step : σ → α → Option σ`: the label `α` says which party moves and
  resolves every choice of the environment, `none` means that the move is not enabled.  Nothing
  here knows what the system is.

  * `run step s as`        — the state reached by taking the moves `as` one after another;
  * `RunMeets step C s as` — every move of that run is taken in a state where `C` allows it;
  * `run_invariant`        — the induction every safety theorem of this development goes through:
    an invariant kept by each ALLOWED move holds wherever an allowed run ends;
  * `run_invariant_all`    — the same without a restriction on the moves;
  * `run_simulates`        — a relation to an abstract TOTAL system that each move keeps holds along
    every run.

  A system of threads keeps one value per thread; `sum_off_one` says how a sum over all threads
  changes when one thread moves.
-/
import Mathlib.Tactic
import Mathlib.Algebra.BigOperators.Group.Finset.Basic
import Mathlib.Algebra.BigOperators.Fin

namespace Armv8Os.Transition

open Finset

variable {σ α : Type*}

/-- The state after the moves `as`, `none` as soon as one of them is not enabled. -/
def run (step : σ → α → Option σ) : σ → List α → Option σ
  | s, [] => some s
  | s, a :: as => (step s a).bind fun s' => run step s' as

/-- Every move of the run from `s` is taken in a state where `C` allows it. -/
def RunMeets (step : σ → α → Option σ) (C : σ → α → Prop) : σ → List α → Prop
  | _, [] => True
  | s, a :: as => C s a ∧ ∀ s', step s a = some s' → RunMeets step C s' as

/-- Whether a run meets a decidable condition is decided by running it. -/
instance decidableRunMeets {step : σ → α → Option σ} {C : σ → α → Prop}
    [∀ s a, Decidable (C s a)] : ∀ (s : σ) (as : List α), Decidable (RunMeets step C s as)
  | _, [] => isTrue trivial
  | s, a :: as =>
    match h : step s a with
    | none => decidable_of_iff (C s a) ⟨fun hc => ⟨hc, fun _ hs => by simp [h] at hs⟩, And.left⟩
    | some s' =>
      have : Decidable (RunMeets step C s' as) := decidableRunMeets s' as
      decidable_of_iff (C s a ∧ RunMeets step C s' as)
        ⟨fun hc => ⟨hc.1, fun _ hs => by simp only [h, Option.some.injEq] at hs; exact hs ▸ hc.2⟩,
          fun hc => ⟨hc.1, hc.2 s' h⟩⟩

@[simp] theorem run_nil (step : σ → α → Option σ) (s : σ) : run step s [] = some s := rfl

variable {step : σ → α → Option σ}

/-- A condition on the moves alone is met when every move meets it. -/
theorem runMeets_of_forall {C : α → Prop} (as : List α) (s : σ) (h : ∀ a ∈ as, C a) :
    RunMeets step (fun _ a => C a) s as := by
  induction as generalizing s with
  | nil => exact trivial
  | cons a as ih =>
    obtain ⟨ha, has⟩ := List.forall_mem_cons.mp h
    exact ⟨ha, fun s' _ => ih s' has⟩

/-- A run is a first move followed by a run. -/
theorem run_cons_eq_some {s t : σ} {a : α} {as : List α} :
    run step s (a :: as) = some t ↔ ∃ s', step s a = some s' ∧ run step s' as = some t := by
  show (step s a).bind (fun s' => run step s' as) = some t ↔ _
  exact Option.bind_eq_some_iff

/-- What a guarded move says: its guard held, and this is where it went. -/
theorem of_guard {p : Prop} [Decidable p] {s t : σ} (h : (if p then some t else none) = some s) : p ∧ t = s := by
  obtain ⟨hp, h⟩ := Option.ite_none_right_eq_some.mp h
  exact ⟨hp, Option.some.inj h⟩

/-- A run on fixed inputs: `P` is what evaluating it shows. -/
theorem exists_run {P Q : σ → Prop} [DecidablePred P] {o : Option σ} (h : (o.map fun s => decide (P s)) = some true)
    (hQ : ∀ s, o = some s → P s → Q s) : ∃ s, o = some s ∧ Q s := by
  obtain ⟨s, hs, hP⟩ := Option.map_eq_some_iff.mp h
  exact ⟨s, hs, hQ s hs (of_decide_eq_true hP)⟩

-- The literals of fixed inputs, with these proofs wherever they are written.
instance neZeroTwo : NeZero 2 := ⟨by decide⟩
instance neZeroThree : NeZero 3 := ⟨by decide⟩
instance neZeroFour : NeZero 4 := ⟨by decide⟩

/-- Runs compose. -/
theorem run_append (step : σ → α → Option σ) (s : σ) (as bs : List α) :
    run step s (as ++ bs) = (run step s as).bind fun s' => run step s' bs := by
  induction as generalizing s with
  | nil => rfl
  | cons a as ih =>
    show (step s a).bind (fun s' => run step s' (as ++ bs)) = _
    cases h : step s a with
    | none => simp [run, h]
    | some s' => simp [run, h, ih]

/-- **The run rule.** `I` holds at the start and every allowed move keeps it: then it holds
    wherever a run of allowed moves ends. -/
theorem run_invariant {C : σ → α → Prop} {I : σ → Prop}
    (hstep : ∀ s a s', I s → C s a → step s a = some s' → I s') :
    ∀ (as : List α) (s t : σ), I s → RunMeets step C s as → run step s as = some t → I t := by
  intro as
  induction as with
  | nil =>
    intro s t hs _ hrun
    obtain rfl : s = t := by simpa using hrun
    exact hs
  | cons a as ih =>
    intro s t hs hmeets hrun
    obtain ⟨hC, hrest⟩ := hmeets
    obtain ⟨s', hs', hrun'⟩ := run_cons_eq_some.mp hrun
    exact ih s' t (hstep s a s' hs hC hs') (hrest s' hs') hrun'

/-- The run rule when every move is allowed. -/
theorem run_invariant_all {I : σ → Prop} (hstep : ∀ s a s', I s → step s a = some s' → I s')
    (as : List α) (s t : σ) (hs : I s) (hrun : run step s as = some t) : I t := by
  induction as generalizing s with
  | nil =>
    obtain rfl : s = t := by simpa using hrun
    exact hs
  | cons a as ih =>
    obtain ⟨s', hs', hrun'⟩ := run_cons_eq_some.mp hrun
    exact ih s' (hstep s a s' hs hs') hrun'

/-- **The refinement rule.** `R` relates the state to that of an abstract system which makes the same
    moves: if each move keeps it, it holds wherever a run ends. -/
theorem run_simulates {τ : Type*} {A : τ → α → τ} {R : σ → τ → Prop}
    (hstep : ∀ s v a s', R s v → step s a = some s' → R s' (A v a))
    (as : List α) (s t : σ) (v : τ) (hR : R s v) (hrun : run step s as = some t) :
    R t (as.foldl A v) := by
  induction as generalizing s v with
  | nil =>
    obtain rfl : s = t := by simpa using hrun
    exact hR
  | cons a as ih =>
    obtain ⟨s', hs', hrun'⟩ := run_cons_eq_some.mp hrun
    exact ih s' (A v a) (hstep s v a s' hR hs') hrun'

/-! ## Sums over threads -/

/-- Two families that agree away from `t` have sums that differ by their values at `t`. -/
theorem sum_off_one {T M : Type*} [Fintype T] [DecidableEq T] [AddCommMonoid M] {f g : T → M} (t : T)
    (h : ∀ u, u ≠ t → f u = g u) : (∑ u, f u) + g t = (∑ u, g u) + f t := by
  rw [← add_sum_erase _ f (mem_univ t), ← add_sum_erase _ g (mem_univ t)]
  have hrest : ∑ u ∈ univ.erase t, f u = ∑ u ∈ univ.erase t, g u :=
    sum_congr rfl fun u hu => h u (ne_of_mem_erase hu)
  rw [hrest]
  abel

/-- The same for a table of which one row is written, with the weights of its rows. -/
theorem sum_update {ι β : Type*} [DecidableEq ι] {S : Finset ι} {i : ι} (hi : i ∈ S) (w : β → Int) (f : ι → β)
    (b : β) : ∑ j ∈ S, w (Function.update f i b j) = (∑ j ∈ S, w (f j)) - w (f i) + w b := by
  rw [← add_sum_erase S (fun j => w (f j)) hi,
    ← add_sum_erase S (fun j => w (Function.update f i b j)) hi, Function.update_self]
  have hrest : ∑ j ∈ S.erase i, w (Function.update f i b j) = ∑ j ∈ S.erase i, w (f j) :=
    sum_congr rfl fun j hj => by rw [Function.update_of_ne (ne_of_mem_erase hj)]
  omega

end Armv8Os.Transition
