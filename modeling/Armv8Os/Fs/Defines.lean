/-
  `fs/defines.h`, `fs/cache.h`: the constants of the file system, the superblock and the log header.

  Numbers on disk are fixed-width in the source; the superblock keeps the source's `u32` fields.
  A block number is a `usize` and is a `Nat` here (the devices behind the interface take a `usize`).
  The in-memory log header is a counter and an array; `blockNo i` is `header.block_no[i]`, an
  access with `i ≥ logMaxSize` leaves the C array and is ruled out where it could happen.
-/
import Mathlib.Tactic

namespace Armv8Os.Fs

/-- `BLOCK_SIZE` (`BSIZE` in `inode.c`). -/
abbrev blockSize : Nat := 512

/-- `LOG_MAX_SIZE = (BLOCK_SIZE - sizeof(usize)) / sizeof(usize)`. -/
abbrev logMaxSize : Nat := (blockSize - 8) / 8

/-- `OP_MAX_NUM_BLOCKS`. -/
abbrev opMaxNumBlocks : Nat := 10

/-- `EVICTION_THRESHOLD`. -/
abbrev evictionThreshold : Nat := 20

/-- `SWAP_BLOCK_NUM`: the blocks at the end of the disk that `cache_alloc` leaves to the pager. -/
abbrev swapBlockNum : Nat := 200

/-- `BIT_PER_BLOCK`. -/
abbrev bitPerBlock : Nat := blockSize * 8

/-- `SuperBlock`: the layout of the disk. -/
structure SuperBlock where
  numBlocks : UInt32
  numDataBlocks : UInt32
  numInodes : UInt32
  numLogBlocks : UInt32
  logStart : UInt32
  inodeStart : UInt32
  bitmapStart : UInt32
  deriving Repr, DecidableEq

/-- A small disk with `n` log blocks, for examples. -/
def logDisk (n : UInt32) : SuperBlock :=
  { numBlocks := 1000, numDataBlocks := 900, numInodes := 200, numLogBlocks := n, logStart := 2,
    inodeStart := 2 + n, bitmapStart := 28 + n }

/-- `LogHeader`. -/
structure LogHeader where
  numBlocks : Nat
  blockNo : Nat → Nat

/-- `a + b` for two `u32` values: one carry is dropped. -/
def addU32 (a b : Nat) : Nat := if a + b < 2 ^ 32 then a + b else a + b - 2 ^ 32

/-- `a - b` for two `u32` values: a borrow wraps around. -/
def subU32 (a b : Nat) : Nat := if b ≤ a then a - b else 2 ^ 32 - (b - a)

theorem addU32_of_lt {a b : Nat} (h : a + b < 2 ^ 32) : addU32 a b = a + b := if_pos h

theorem subU32_of_le {a b : Nat} (h : b ≤ a) : subU32 a b = a - b := if_pos h

/-- The block numbers recorded in the log header: `header.block_no[0 .. num_blocks)`. -/
def LogHeader.recorded (h : LogHeader) : List Nat := (List.range h.numBlocks).map h.blockNo

/-- `header.block_no[i] = b`. -/
def LogHeader.setBlockNo (h : LogHeader) (i b : Nat) : LogHeader :=
  { h with blockNo := Function.update h.blockNo i b }

/-- `header.num_blocks = 0`. -/
def LogHeader.cleared (h : LogHeader) : LogHeader := { h with numBlocks := 0 }

theorem LogHeader.recorded_of_numBlocks {h : LogHeader} (hn : h.numBlocks = 0) : h.recorded = [] := by
  unfold LogHeader.recorded
  rw [hn]
  rfl

theorem LogHeader.mem_recorded {h : LogHeader} {b : Nat} :
    b ∈ h.recorded ↔ ∃ i, i < h.numBlocks ∧ h.blockNo i = b := by
  simp [LogHeader.recorded]

theorem LogHeader.blockNo_mem {h : LogHeader} {i : Nat} (hi : i < h.numBlocks) : h.blockNo i ∈ h.recorded :=
  LogHeader.mem_recorded.mpr ⟨i, hi, rfl⟩

/-- Writing a slot behind the recorded ones and counting it appends to the recorded list. -/
theorem LogHeader.recorded_push (h : LogHeader) (b : Nat) :
    ({ h.setBlockNo h.numBlocks b with numBlocks := h.numBlocks + 1 } : LogHeader).recorded
      = h.recorded ++ [b] := by
  simp only [LogHeader.recorded, LogHeader.setBlockNo, List.range_succ, List.map_append,
    List.map_cons, List.map_nil, Function.update_self]
  congr 1
  apply List.map_congr_left
  intro i hi
  exact Function.update_of_ne (by have := List.mem_range.mp hi; omega) _ _

/-- Rewriting a slot with the number it already holds changes nothing. -/
theorem LogHeader.setBlockNo_self {h : LogHeader} {i b : Nat} (hb : h.blockNo i = b) :
    h.setBlockNo i b = h := by
  unfold LogHeader.setBlockNo
  rw [← hb, Function.update_eq_self]

end Armv8Os.Fs
