/-
  Ring buffers.

  The cells of a ring are numbered modulo its size `N`, and a counter that only grows says where to read or write next.  A
  `window` is what lies between two counters: `k` cells from position `p` on.

  * A cell BEHIND the window may be written, as long as the window does not fill the ring (`window_write`).
  * The window moves by one cell at either end (`window_succ`, `window_cons`).
  * Only the position modulo `N` counts (`window_congr`), so a counter may wrap around at any multiple of `N`.
-/
import Mathlib.Data.Fin.Basic
import Mathlib.Data.List.Range
import Mathlib.Data.Nat.ModEq
import Mathlib.Tactic

namespace Armv8Os.Ring

variable {α : Type*} {N : Nat} [NeZero N]

/-- Write the cell at position `p`. -/
def write (data : Fin N → α) (p : Nat) (a : α) : Fin N → α := Function.update data (Fin.ofNat N p) a

/-- The `k` cells from position `p` on. -/
def window (data : Fin N → α) (p : Nat) : Nat → List α
  | 0 => []
  | k + 1 => window data p k ++ [data (Fin.ofNat N (p + k))]

@[simp] theorem window_zero (data : Fin N → α) (p : Nat) : window data p 0 = [] := rfl

theorem window_succ (data : Fin N → α) (p k : Nat) : window data p (k + 1) = window data p k ++ [data (Fin.ofNat N (p + k))] := rfl

@[simp] theorem length_window (data : Fin N → α) (p k : Nat) : (window data p k).length = k := by
  induction k with
  | zero => rfl
  | succ k ih => rw [window_succ, List.length_append, ih, List.length_singleton]

theorem ofNat_eq_iff {p q : Nat} : Fin.ofNat N p = Fin.ofNat N q ↔ p ≡ q [MOD N] := Fin.ext_iff

theorem window_append (data : Fin N → α) (p j k : Nat) : window data p (j + k) = window data p j ++ window data (p + j) k := by
  induction k with
  | zero => rw [Nat.add_zero, window_zero, List.append_nil]
  | succ k ih => rw [← Nat.add_assoc, window_succ, ih, window_succ, List.append_assoc, Nat.add_assoc]

theorem window_cons (data : Fin N → α) (p k : Nat) :
    window data p (k + 1) = data (Fin.ofNat N p) :: window data (p + 1) k := by
  rw [Nat.add_comm, window_append]
  rfl

theorem window_congr (data : Fin N → α) {p q : Nat} (h : p ≡ q [MOD N]) (k : Nat) : window data p k = window data q k := by
  induction k with
  | zero => rfl
  | succ k ih => rw [window_succ, window_succ, ih, ofNat_eq_iff.mpr (h.add_right k)]

omit [NeZero N] in
/-- Two positions less than a whole turn apart are different cells. -/
theorem not_modEq_of_lt {p i k : Nat} (hi : i < k) (hk : k < N + i) : ¬ p + i ≡ p + k [MOD N] := by
  intro h
  have hdvd : N ∣ k - i := (Nat.modEq_iff_dvd' hi.le).mp (Nat.ModEq.add_left_cancel' p h)
  exact Nat.not_dvd_of_pos_of_lt (by omega) (by omega) hdvd

/-- A write behind the window leaves it alone. -/
theorem window_write (data : Fin N → α) (p : Nat) (a : α) {j k : Nat} (hjk : j ≤ k) (hk : k < N) :
    window (write data (p + k) a) p j = window data p j := by
  induction j with
  | zero => rfl
  | succ j ih =>
    have hne : Fin.ofNat N (p + j) ≠ Fin.ofNat N (p + k) := mt ofNat_eq_iff.mp (not_modEq_of_lt (by omega) (by omega))
    rw [window_succ, window_succ, ih (by omega), write, Function.update_of_ne hne]

/-- What is written right behind the window comes last in the larger one. -/
theorem window_push (data : Fin N → α) (p : Nat) (a : α) {k : Nat} (hk : k < N) :
    window (write data (p + k) a) p (k + 1) = window data p k ++ [a] := by
  rw [window_succ, window_write data p a le_rfl hk, write, Function.update_self]

theorem write_congr (data : Fin N → α) {p q : Nat} (h : p ≡ q [MOD N]) (a : α) : write data p a = write data q a := by
  rw [write, write, ofNat_eq_iff.mpr h]

end Armv8Os.Ring
