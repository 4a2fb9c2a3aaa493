/-
  Fixed-size byte arrays with little-endian integers in them.

  `Bytes n` is an array of `n` bytes.  Reads outside are `0`, writes outside are lost, so every
  operation is total and the lemmas carry the bounds where they matter.

  * `get b i`             — one byte;
  * `blit b off len src`  — `memcpy(b + off, src, len)`;
  * `readLE b off k`, `writeLE b off k v` — the `k`-byte integer at `off`;
  * `hasBit b j`, `setBit b j`, `clearBit b j` — the array as a bitmap, low bits first.

  The facts everything else uses: what was written is read back (`readLE_writeLE`), what lies elsewhere
  is not touched (`readLE_blit_of_disjoint`), and the bitmap operations change one bit (`hasBit_setBit`,
  `hasBit_clearBit`).
-/
import Mathlib.Tactic
import Mathlib.Data.Nat.Bitwise

namespace Armv8Os

open Nat

/-- An array of `n` bytes. -/
abbrev Bytes (n : Nat) := Fin n → UInt8

namespace Bytes

variable {n : Nat}

/-- The byte at `i`. -/
def get (b : Bytes n) (i : Nat) : UInt8 := if h : i < n then b ⟨i, h⟩ else 0

/-- `memset(b, 0, n)`. -/
def zero : Bytes n := fun _ => 0

/-- `memcpy(b + off, src, len)`. -/
def blit (b : Bytes n) (off len : Nat) (src : Nat → UInt8) : Bytes n := fun i =>
  if off ≤ i.val ∧ i.val < off + len then src (i.val - off) else b i

/-- The `k`-byte little-endian integer at `off`. -/
def readLE (b : Bytes n) (off : Nat) : Nat → Nat
  | 0 => 0
  | k + 1 => (b.get off).toNat + 256 * readLE b (off + 1) k

/-- Byte `i` of the number `v`. -/
def leByte (v i : Nat) : UInt8 := UInt8.ofNat (v / 256 ^ i)

/-- Store `v` as a `k`-byte little-endian integer at `off`. -/
def writeLE (b : Bytes n) (off k v : Nat) : Bytes n := b.blit off k (leByte v)

theorem get_of_lt (b : Bytes n) {i : Nat} (h : i < n) : b.get i = b ⟨i, h⟩ := dif_pos h

@[simp] theorem get_zero (i : Nat) : (zero : Bytes n).get i = 0 := by
  unfold get zero
  split <;> rfl

theorem get_blit (b : Bytes n) (off len : Nat) (src : Nat → UInt8) {i : Nat} (hi : i < n) :
    (b.blit off len src).get i = if off ≤ i ∧ i < off + len then src (i - off) else b.get i := by
  rw [get_of_lt _ hi, get_of_lt b hi]
  rfl

theorem get_blit_of_not_mem (b : Bytes n) {off len : Nat} (src : Nat → UInt8) {i : Nat}
    (h : i < off ∨ off + len ≤ i) : (b.blit off len src).get i = b.get i := by
  by_cases hi : i < n
  · rw [get_blit b off len src hi, if_neg (by omega)]
  · unfold get
    rw [dif_neg hi, dif_neg hi]

/-- An integer depends on its own bytes only. -/
theorem readLE_congr {m : Nat} {a : Bytes n} {b : Bytes m} {off off' k : Nat}
    (h : ∀ i < k, a.get (off + i) = b.get (off' + i)) : readLE a off k = readLE b off' k := by
  induction k generalizing off off' with
  | zero => rfl
  | succ k ih =>
    have h0 : a.get off = b.get off' := h 0 (succ_pos k)
    have hrest : readLE a (off + 1) k = readLE b (off' + 1) k := by
      refine ih fun i hi => ?_
      have := h (i + 1) (by omega)
      rwa [show off + (i + 1) = off + 1 + i from by omega,
        show off' + (i + 1) = off' + 1 + i from by omega] at this
    simp only [readLE, h0, hrest]

/-- Integers elsewhere are not touched. -/
theorem readLE_blit_of_disjoint (b : Bytes n) {off len off' k : Nat} (src : Nat → UInt8)
    (h : off' + k ≤ off ∨ off + len ≤ off') : readLE (b.blit off len src) off' k = readLE b off' k :=
  readLE_congr fun i hi => get_blit_of_not_mem b src (by omega)

/-- The integer whose bytes are those of `v`. -/
theorem readLE_leByte {b : Bytes n} {off k v j : Nat}
    (h : ∀ i < k, b.get (off + i) = leByte v (j + i)) : readLE b off k = v / 256 ^ j % 256 ^ k := by
  induction k generalizing off j with
  | zero => simp [readLE, mod_one]
  | succ k ih =>
    have h0 : b.get off = leByte v j := h 0 (succ_pos k)
    have hrest : readLE b (off + 1) k = v / 256 ^ (j + 1) % 256 ^ k := by
      refine ih fun i hi => ?_
      have := h (i + 1) (by omega)
      rwa [show off + (i + 1) = off + 1 + i from by omega,
        show j + (i + 1) = j + 1 + i from by omega] at this
    have hlow : (leByte v j).toNat = v / 256 ^ j % 256 := by
      simp [leByte]
    simp only [readLE, h0, hrest, hlow]
    rw [pow_succ 256 j, ← Nat.div_div_eq_div_mul, pow_succ' 256 k, Nat.mod_mul]

/-- What was written is read back. -/
theorem readLE_writeLE (b : Bytes n) {off k : Nat} (v : Nat) (h : off + k ≤ n) :
    readLE (b.writeLE off k v) off k = v % 256 ^ k := by
  have hbytes : ∀ i < k, (b.writeLE off k v).get (off + i) = leByte v (0 + i) := by
    intro i hi
    rw [writeLE, get_blit b off k _ (by omega), if_pos (by omega)]
    congr 1
    omega
  rw [readLE_leByte hbytes, pow_zero, Nat.div_one]

theorem readLE_writeLE_of_disjoint (b : Bytes n) {off k off' k' : Nat} (v : Nat)
    (h : off' + k' ≤ off ∨ off + k ≤ off') : readLE (b.writeLE off k v) off' k' = readLE b off' k' :=
  readLE_blit_of_disjoint b _ h

@[simp] theorem readLE_zero (off k : Nat) : readLE (zero : Bytes n) off k = 0 := by
  induction k generalizing off with
  | zero => rfl
  | succ k ih => simp [readLE, ih]

-- from here on an integer in a block is only read through these lemmas: unfolding an 8-byte read at
-- an unknown block doubles the term at every byte
attribute [irreducible] readLE

/-! ## Bitmaps -/

/-- `1 << (j % 8)` as a byte. -/
def bitMask (j : Nat) : UInt8 := UInt8.ofNat (2 ^ (j % 8))

/-- Bit `j`: `b[j / 8] & (1 << (j % 8))`. -/
def hasBit (b : Bytes n) (j : Nat) : Bool := (b.get (j / 8) &&& bitMask j) != 0

/-- `b[j / 8] |= 1 << (j % 8)`. -/
def setBit (b : Bytes n) (j : Nat) : Bytes n := b.blit (j / 8) 1 fun _ => b.get (j / 8) ||| bitMask j

/-- `b[j / 8] &= ~(1 << (j % 8))`. -/
def clearBit (b : Bytes n) (j : Nat) : Bytes n := b.blit (j / 8) 1 fun _ => b.get (j / 8) &&& ~~~bitMask j

theorem toNat_bitMask (j : Nat) : (bitMask j).toNat = 2 ^ (j % 8) := by
  have hlt : 2 ^ (j % 8) < 2 ^ 8 := Nat.pow_lt_pow_right (by omega) (Nat.mod_lt j (by omega))
  show (UInt8.ofNat _).toNat = _
  exact mod_eq_of_lt hlt

theorem hasBit_eq_testBit (b : Bytes n) (j : Nat) : b.hasBit j = (b.get (j / 8)).toNat.testBit (j % 8) := by
  have hand : (b.get (j / 8) &&& bitMask j).toNat
      = ((b.get (j / 8)).toNat.testBit (j % 8)).toNat * 2 ^ (j % 8) := by
    rw [UInt8.toNat_and, toNat_bitMask, and_two_pow]
  unfold hasBit
  cases hbit : (b.get (j / 8)).toNat.testBit (j % 8) with
  | false =>
    rw [hbit] at hand
    have hzero : b.get (j / 8) &&& bitMask j = 0 := UInt8.toNat_inj.mp (by rw [hand]; simp)
    rw [hzero]
    rfl
  | true =>
    rw [hbit] at hand
    refine bne_iff_ne.mpr fun hzero => ?_
    rw [hzero] at hand
    have hpos := Nat.two_pow_pos (j % 8)
    simp at hand
    omega

section

variable {j i : Nat} (b : Bytes n) (hi : i < 8 * n)
include b hi

/-- The byte that a bit operation replaces, seen from bit `i`. -/
theorem hasBit_blit (v : UInt8) : (b.blit (j / 8) 1 fun _ => v).hasBit i
      = if i / 8 = j / 8 then v.toNat.testBit (i % 8) else b.hasBit i := by
  rw [hasBit_eq_testBit, get_blit b _ _ _ (by omega)]
  by_cases h : i / 8 = j / 8
  · rw [if_pos (by omega), if_pos h]
  · rw [if_neg (by omega), if_neg h, hasBit_eq_testBit]

theorem hasBit_setBit : (b.setBit j).hasBit i = (decide (i = j) || b.hasBit i) := by
  unfold setBit
  rw [hasBit_blit b hi, hasBit_eq_testBit b i]
  by_cases h : i / 8 = j / 8
  · rw [if_pos h, UInt8.toNat_or, toNat_bitMask, testBit_or, testBit_two_pow, h, Bool.or_comm]
    congr 1
    exact decide_eq_decide.mpr (by omega)
  · have hne : i ≠ j := fun e => h (by rw [e])
    rw [if_neg h, decide_eq_false hne, Bool.false_or]

theorem hasBit_clearBit : (b.clearBit j).hasBit i = (!decide (i = j) && b.hasBit i) := by
  have hnot : ∀ k < 8, (~~~bitMask j).toNat.testBit k = !decide (j % 8 = k) := by
    intro k hk
    have hsub : (~~~bitMask j).toNat = 2 ^ 8 - ((bitMask j).toNat + 1) := by
      rw [UInt8.toNat_not, UInt8.size]
      omega
    rw [hsub, testBit_two_pow_sub_succ (bitMask j).toNat_lt, toNat_bitMask, testBit_two_pow]
    simp [hk]
  unfold clearBit
  rw [hasBit_blit b hi, hasBit_eq_testBit b i]
  by_cases h : i / 8 = j / 8
  · rw [if_pos h, UInt8.toNat_and, testBit_and, hnot _ (mod_lt i (by omega)), h, Bool.and_comm]
    congr 2
    exact decide_eq_decide.mpr (by omega)
  · have hne : i ≠ j := fun e => h (by rw [e])
    rw [if_neg h, decide_eq_false hne, Bool.not_false, Bool.true_and]

end

end Bytes

end Armv8Os
