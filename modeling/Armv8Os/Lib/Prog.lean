/-
  Programs with a state and failures, and the rules for reasoning about them.

  A program is a function of the state that either fails with an `ε` or returns a value and the new
  state; sequencing, branching and loops are those of the state monad, so a C function is written
  down line by line.  Nothing here knows what the state is.

  `wp m Q E s` — run from `s`, `m` returns with `Q` of the value and the new state, or fails with
  `E` of the failure.  The failure postcondition makes ONE lemma serve both readings:

  * `E := fun _ => False` — the program does not fail (`exists_of_wp`);
  * `E := fun _ => True`  — if it returns, then `Q` (`of_wp`);
  * anything in between  — it fails at most in these ways.

  The equations below push `wp` through the constructs; `wp_forRange` is the rule for the C loop
  `for (i = 0; i < n; i++)` with an invariant indexed by the counter.  `onFst` and `onSnd` run a program
  on one half of a pair of states.
-/
import Mathlib.Tactic

namespace Armv8Os

/-- A program over the state `σ` that may fail with an `ε`. -/
abbrev Prog (ε σ α : Type) := StateT σ (Except ε) α

namespace Prog

variable {ε σ α β : Type}

/-- The loop `for (; i < i + k; i++)`. -/
def forFrom (f : Nat → Prog ε σ Unit) : Nat → Nat → Prog ε σ Unit
  | _, 0 => pure ()
  | i, k + 1 => do
    f i
    forFrom f (i + 1) k

/-- The loop `for (i = 0; i < n; i++)`. -/
def forRange (n : Nat) (f : Nat → Prog ε σ Unit) : Prog ε σ Unit := forFrom f 0 n

/-- `ASSERT(c)`: fail with `e` when `c` does not hold. -/
def assert (e : ε) (c : Bool) : Prog ε σ Unit := if c then pure () else throw e

/-- Run a program on the first half of the state. -/
def onFst {τ : Type} (m : Prog ε σ α) : Prog ε (σ × τ) α := fun s =>
  match m s.1 with
  | .ok (a, s') => .ok (a, (s', s.2))
  | .error e => .error e

/-- Run a program on the second half of the state. -/
def onSnd {τ : Type} (m : Prog ε τ α) : Prog ε (σ × τ) α := fun s =>
  match m s.2 with
  | .ok (a, t') => .ok (a, (s.1, t'))
  | .error e => .error e

/-- The weakest precondition, with a postcondition for the failures. -/
def wp (m : Prog ε σ α) (Q : α → σ → Prop) (E : ε → Prop) (s : σ) : Prop :=
  match m s with
  | .ok (a, s') => Q a s'
  | .error e => E e

/-- The state a program leaves, if it returns. -/
def exec (m : Prog ε σ α) (s : σ) : Option σ :=
  match m s with
  | .ok (_, s') => some s'
  | .error _ => none

variable {Q : α → σ → Prop} {E : ε → Prop} {s : σ}

/-! ## Into and out of the logic -/

variable {m : Prog ε σ α} {s' : σ}

theorem of_wp (h : wp m Q E s) {a : α} (hm : m s = .ok (a, s')) : Q a s' := by
  unfold wp at h
  rw [hm] at h
  exact h

theorem of_wp_error (h : wp m Q E s) {e : ε} (hm : m s = .error e) : E e := by
  unfold wp at h
  rw [hm] at h
  exact h

theorem exec_eq_some : exec m s = some s' ↔ ∃ a, m s = .ok (a, s') := by
  unfold exec
  cases m s with
  | ok r => simp [Prod.ext_iff]
  | error e => simp

/-- What holds of any outcome holds of the state that is left. -/
theorem of_wp_exec {I : σ → Prop} (h : wp m (fun _ => I) E s) (hm : exec m s = some s') : I s' := by
  obtain ⟨a, ha⟩ := exec_eq_some.mp hm
  exact of_wp h ha

theorem toOption_eq_some {r : Except ε α} {a : α} : r.toOption = some a ↔ r = .ok a := by
  cases r with
  | ok b => exact ⟨fun h => congrArg _ (Option.some.inj h), fun h => congrArg _ (Except.ok.inj h)⟩
  | error e => constructor <;> (intro h; cases h)

/-- A program that may not fail returns. -/
theorem exists_of_wp (h : wp m Q (fun _ => False) s) :
    ∃ a s', m s = .ok (a, s') ∧ Q a s' := by
  unfold wp at h
  split at h
  · rename_i a s' hm
    exact ⟨a, s', hm, h⟩
  · exact h.elim

/-- Only the outcome counts. -/
theorem wp_of_eq {m' : Prog ε σ α} (hm : m s = m' s') (h : wp m' Q E s') : wp m Q E s := by
  unfold wp at *
  rw [hm]
  exact h

variable {Q' : α → σ → Prop} {E' : ε → Prop}

/-- Consequence. -/
theorem wp_mono (h : wp m Q E s)
    (hQ : ∀ a s', Q a s' → Q' a s') (hE : ∀ e, E e → E' e) : wp m Q' E' s := by
  unfold wp at *
  split at h
  · exact hQ _ _ h
  · exact hE _ h

/-- Consequence, with the failures as they are. -/
theorem wp_imp (h : wp m Q E s) (hQ : ∀ a s', Q a s' → Q' a s') : wp m Q' E s := wp_mono h hQ fun _ he => he

/-- Two facts about one run. -/
theorem wp_and (h : wp m Q E s)
    (h' : wp m Q' E' s) : wp m (fun a s' => Q a s' ∧ Q' a s') (fun e => E e ∧ E' e) s := by
  unfold wp at *
  split at h
  · rename_i hm
    rw [hm] at h'
    exact ⟨h, h'⟩
  · rename_i hm
    rw [hm] at h'
    exact ⟨h, h'⟩

/-- A postcondition on the value can be decided by running the program. -/
instance {m : Prog ε σ α} {Q : α → Prop} [DecidablePred Q] : Decidable (wp m (fun a _ => Q a) (fun _ => True) s) :=
  decidable_of_bool (match m s with | .ok (a, _) => decide (Q a) | .error _ => true) (by
    unfold wp
    cases m s with
    | ok r => exact decide_eq_true_iff
    | error e => exact ⟨fun _ => trivial, fun _ => rfl⟩)

/-! ## The constructs -/

@[simp] theorem wp_pure {a : α} : wp (pure a : Prog ε σ α) Q E s ↔ Q a s := Iff.rfl

@[simp] theorem wp_bind {m : Prog ε σ β} {f : β → Prog ε σ α} :
    wp (m >>= f) Q E s ↔ wp m (fun b s' => wp (f b) Q E s') E s := by
  show (match (StateT.bind m f) s with | .ok (a, s') => Q a s' | .error e => E e) ↔ _
  unfold StateT.bind wp
  cases m s with
  | ok r => exact Iff.rfl
  | error e => exact Iff.rfl

/-- Sequencing, by what holds in between. -/
theorem wp_seq {m : Prog ε σ β} {f : β → Prog ε σ α} {Q' : β → σ → Prop} (hm : wp m Q' E s)
    (hf : ∀ b s', Q' b s' → wp (f b) Q E s') : wp (m >>= f) Q E s :=
  wp_bind.mpr (wp_imp hm hf)

@[simp] theorem wp_get {Q : σ → σ → Prop} : wp (get : Prog ε σ σ) Q E s ↔ Q s s := Iff.rfl

@[simp] theorem wp_set {Q : PUnit → σ → Prop}  : wp (set s' : Prog ε σ PUnit) Q E s ↔ Q ⟨⟩ s' :=
  Iff.rfl

@[simp] theorem wp_modify {Q : PUnit → σ → Prop} {f : σ → σ} :
    wp (modify f : Prog ε σ PUnit) Q E s ↔ Q ⟨⟩ (f s) := Iff.rfl

theorem wp_ite {c : Prop} [Decidable c] {n : Prog ε σ α} :
    wp (if c then m else n) Q E s ↔ (c → wp m Q E s) ∧ (¬ c → wp n Q E s) := by
  split
  · rename_i h
    exact ⟨fun hm => ⟨fun _ => hm, fun hn => absurd h hn⟩, fun hm => hm.1 h⟩
  · rename_i h
    exact ⟨fun hn => ⟨fun hc => absurd hc h, fun _ => hn⟩, fun hn => hn.2 h⟩

@[simp] theorem wp_assert {Q : Unit → σ → Prop} {e : ε} {c : Bool} :
    wp (assert e c : Prog ε σ Unit) Q E s ↔ (c = true → Q () s) ∧ (c = false → E e) := by
  cases c
  · exact ⟨fun h => ⟨fun hc => by simp at hc, fun _ => h⟩, fun h => h.2 rfl⟩
  · exact ⟨fun h => ⟨fun _ => h, fun hc => by simp at hc⟩, fun h => h.1 rfl⟩

@[simp] theorem wp_onFst {τ : Type} {Q : α → σ × τ → Prop} {s : σ × τ} :
    wp (onFst m) Q E s ↔ wp m (fun a s' => Q a (s', s.2)) E s.1 := by
  unfold wp onFst
  cases m s.1 with
  | ok r => exact Iff.rfl
  | error e => exact Iff.rfl

@[simp] theorem wp_onSnd {τ : Type} {m : Prog ε τ α} {Q : α → σ × τ → Prop} {s : σ × τ} :
    wp (onSnd m) Q E s ↔ wp m (fun a t' => Q a (s.1, t')) E s.2 := by
  unfold wp onSnd
  cases m s.2 with
  | ok r => exact Iff.rfl
  | error e => exact Iff.rfl

variable {f : Nat → Prog ε σ Unit} {I : Nat → σ → Prop}

theorem wp_forFrom {i k : Nat} (h : I i s)
    (hstep : ∀ j, i ≤ j → j < i + k → ∀ s, I j s → wp (f j) (fun _ => I (j + 1)) E s) :
    wp (forFrom f i k) (fun _ => I (i + k)) E s := by
  induction k generalizing i s with
  | zero => exact h
  | succ k ih =>
    show wp (f i >>= fun _ => forFrom f (i + 1) k) _ E s
    rw [wp_bind]
    refine wp_imp (hstep i le_rfl (by omega) s h) (fun _ s' hs' => ?_)
    have hrest := ih hs' fun j hj hlt => hstep j (by omega) (by omega)
    rwa [show i + 1 + k = i + (k + 1) from by omega] at hrest

/-- **The rule for counting loops.** -/
theorem wp_forRange {n : Nat} (h : I 0 s)
    (hstep : ∀ i < n, ∀ s, I i s → wp (f i) (fun _ => I (i + 1)) E s) :
    wp (forRange n f) (fun _ => I n) E s := by
  have := wp_forFrom (k := n) h fun j _ hlt => hstep j (by omega)
  rwa [Nat.zero_add] at this

end Prog

end Armv8Os
