/-
  A memory of 64-bit words, read and written by bytes.

  The memory is a function from the address of a word to the word, little-endian.

  * `readByte word a`          — the byte at address `a`;
  * `blit word dst len src`    — `memcpy(dst, src, len)`, where `src i` is the byte with number `i`.

  A blit changes the bytes of its range (`readByte_blit`), and no word without a byte in it (`blit_word`).
-/
import Mathlib.Tactic

namespace Armv8Os.Words

theorem or_and (a b mask : UInt64) : (a ||| b) &&& mask = a &&& mask ||| b &&& mask := by
  simp only [← UInt64.toNat_inj, UInt64.toNat_and, UInt64.toNat_or, Nat.and_or_distrib_right]

theorem toNat_diff {a b : UInt64} (h : b.toNat ≤ a.toNat) : (a - b).toNat = a.toNat - b.toNat :=
  UInt64.toNat_sub_of_le _ _ (UInt64.le_iff_toNat_le.mpr h)

/-! ## Bytes of a word -/

/-- Byte `i` of a word. -/
def byteOf (w : UInt64) (i : Nat) : UInt8 := UInt8.ofNat (w.toNat / 256 ^ i)

/-- The number with the eight bytes `f`. -/
def number (f : Nat → UInt8) : Nat :=
  (f 0).toNat + 256 * ((f 1).toNat + 256 * ((f 2).toNat + 256 * ((f 3).toNat + 256 * ((f 4).toNat +
    256 * ((f 5).toNat + 256 * ((f 6).toNat + 256 * (f 7).toNat))))))

/-- The word with the bytes `f`. -/
def ofBytes (f : Nat → UInt8) : UInt64 := UInt64.ofNat (number f)

theorem byteOf_ofBytes (f : Nat → UInt8) {i : Nat} (hi : i < 8) : byteOf (ofBytes f) i = f i := by
  have h0 := (f 0).toNat_lt
  have h1 := (f 1).toNat_lt
  have h2 := (f 2).toNat_lt
  have h3 := (f 3).toNat_lt
  have h4 := (f 4).toNat_lt
  have h5 := (f 5).toNat_lt
  have h6 := (f 6).toNat_lt
  have h7 := (f 7).toNat_lt
  have hlt : number f < 2 ^ 64 := by
    unfold number
    omega
  rw [← UInt8.toNat_inj, byteOf, ofBytes, UInt8.toNat_ofNat', UInt64.toNat_ofNat', Nat.mod_eq_of_lt hlt]
  unfold number
  interval_cases i
  all_goals norm_num
  all_goals omega

/-! ## The memory -/

/-- The address of the word that `a` lies in. -/
def wordBase (a : UInt64) : UInt64 := a - a % 8

theorem toNat_wordBase (a : UInt64) : (wordBase a).toNat = a.toNat - a.toNat % 8 := by
  have hmod : (a % 8).toNat = a.toNat % 8 := by rw [UInt64.toNat_mod]; rfl
  unfold wordBase
  rw [toNat_diff (by omega), hmod]

/-- The byte at `a`. -/
def readByte (word : UInt64 → UInt64) (a : UInt64) : UInt8 := byteOf (word (wordBase a)) (a.toNat % 8)

theorem readByte_congr {word word' : UInt64 → UInt64} {a : UInt64} (h : word' (wordBase a) = word (wordBase a)) :
    readByte word' a = readByte word a := by
  unfold readByte
  rw [h]

/-- `memcpy(dst, src, len)`.  Words begin at multiples of 8. -/
def blit (word : UInt64 → UInt64) (dst : UInt64) (len : Nat) (src : Nat → UInt8) (w : UInt64) : UInt64 :=
  if 0 < len ∧ w.toNat % 8 = 0 ∧ w.toNat < dst.toNat + len ∧ dst.toNat < w.toNat + 8 then
    ofBytes fun i =>
      if dst.toNat ≤ w.toNat + i ∧ w.toNat + i < dst.toNat + len then src (w.toNat + i - dst.toNat) else byteOf (word w) i
  else word w

section Blit

variable {word : UInt64 → UInt64} {dst : UInt64} {len : Nat} {src : Nat → UInt8}

theorem readByte_blit (a : UInt64) :
    readByte (blit word dst len src) a =
      if dst.toNat ≤ a.toNat ∧ a.toNat < dst.toNat + len then src (a.toNat - dst.toNat) else readByte word a := by
  have hbase := toNat_wordBase a
  have hsum : (wordBase a).toNat + a.toNat % 8 = a.toNat := by omega
  unfold readByte blit
  by_cases htouch : 0 < len ∧ (wordBase a).toNat % 8 = 0 ∧ (wordBase a).toNat < dst.toNat + len ∧
      dst.toNat < (wordBase a).toNat + 8
  · rw [if_pos htouch, byteOf_ofBytes _ (by omega), hsum]
  · rw [if_neg htouch, if_neg]
    rintro ⟨hlow, hhigh⟩
    omega

/-- A word without a byte in the range. -/
theorem blit_word {w : UInt64} (h : 0 < len → w.toNat % 8 = 0 → dst.toNat + len ≤ w.toNat ∨ w.toNat + 8 ≤ dst.toNat) :
    blit word dst len src w = word w := by
  refine if_neg ?_
  rintro ⟨hlen, hword, hlow, hhigh⟩
  omega

end Blit

end Armv8Os.Words
