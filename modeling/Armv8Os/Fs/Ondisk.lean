/-
  `fs/defines.h`, the rest: what lies inside the blocks.

  An inode block holds eight `InodeEntry` structs of 64 bytes, an indirect block 128 block numbers, a
  bitmap block one bit per block of the disk.  Fields are little-endian and keep the source's widths.
  The lemmas say that a store is read back and that the neighbours are untouched.

  The second half is the view of a whole disk `blocks : Nat → Data`:
  * `entryAt sb blocks ino` — the entry of an inode;
  * `bitAt sb blocks b`     — the bitmap bit of a block;
  * `slotRef e blocks slot` — the block number an inode stores in a slot, `0` for none.

  `DiskLayout` is the order of the areas that `mkfs` produces.
-/
import Armv8Os.Fs.Cache

namespace Armv8Os.Fs

open Nat

/-! ## Constants -/

/-- `INODE_NUM_DIRECT`. -/
abbrev inodeNumDirect : Nat := 12

/-- `INODE_NUM_INDIRECT = BLOCK_SIZE / sizeof(u32)`. -/
abbrev inodeNumIndirect : Nat := 128

/-- `IPB`, `INODE_PER_BLOCK = BLOCK_SIZE / sizeof(InodeEntry)`. -/
abbrev inodePerBlock : Nat := 8

/-- `INODE_MAX_BLOCKS`. -/
abbrev inodeMaxBlocks : Nat := inodeNumDirect + inodeNumIndirect

/-- `INODE_MAX_BYTES`. -/
abbrev inodeMaxBytes : Nat := inodeMaxBlocks * blockSize

/-- `ROOT_INODE_NO`. -/
abbrev rootInodeNo : Nat := 1

/-- `InodeType`: the values the code knows, and whatever else is on the disk. -/
abbrev InodeType := UInt16

abbrev inodeInvalid : InodeType := 0
abbrev inodeDirectory : InodeType := 1
abbrev inodeRegular : InodeType := 2
abbrev inodeDevice : InodeType := 3

/-! ## Inode entries -/

/-- `InodeEntry`. -/
@[ext]
structure InodeEntry where
  type : InodeType
  major : UInt16
  minor : UInt16
  numLinks : UInt16
  numBytes : UInt32
  addrs : Fin inodeNumDirect → UInt32
  indirect : UInt32
  deriving DecidableEq

/-- `memset(.., 0, sizeof(InodeEntry))`. -/
def InodeEntry.zero : InodeEntry :=
  { type := 0, major := 0, minor := 0, numLinks := 0, numBytes := 0, addrs := fun _ => 0, indirect := 0 }

/-- The entry with a direct address replaced. -/
def InodeEntry.setAddr (e : InodeEntry) (i : Fin inodeNumDirect) (a : UInt32) : InodeEntry :=
  { e with addrs := Function.update e.addrs i a }

/-- Byte `j` of the struct. -/
def InodeEntry.byte (e : InodeEntry) (j : Nat) : UInt8 :=
  if j < 2 then Bytes.leByte e.type.toNat j
  else if j < 4 then Bytes.leByte e.major.toNat (j - 2)
  else if j < 6 then Bytes.leByte e.minor.toNat (j - 4)
  else if j < 8 then Bytes.leByte e.numLinks.toNat (j - 6)
  else if j < 12 then Bytes.leByte e.numBytes.toNat (j - 8)
  else if h : (j - 12) / 4 < inodeNumDirect then
    Bytes.leByte (e.addrs ⟨(j - 12) / 4, h⟩).toNat ((j - 12) % 4)
  else Bytes.leByte e.indirect.toNat (j - 60)

/-- `*d_inode`, the entry in slot `k` of an inode block. -/
def readEntry (d : Data) (k : Nat) : InodeEntry :=
  { type := UInt16.ofNat (d.readLE (64 * k) 2)
    major := UInt16.ofNat (d.readLE (64 * k + 2) 2)
    minor := UInt16.ofNat (d.readLE (64 * k + 4) 2)
    numLinks := UInt16.ofNat (d.readLE (64 * k + 6) 2)
    numBytes := UInt32.ofNat (d.readLE (64 * k + 8) 4)
    addrs := fun i => UInt32.ofNat (d.readLE (64 * k + 12 + 4 * i.val) 4)
    indirect := UInt32.ofNat (d.readLE (64 * k + 60) 4) }

/-- `memcpy(d_inode, entry, sizeof(InodeEntry))`. -/
def writeEntry (d : Data) (k : Nat) (e : InodeEntry) : Data := d.blit (64 * k) 64 e.byte

/-- A field of the struct, `len` bytes at `off`, is read back. -/
theorem readLE_writeEntry (d : Data) {k : Nat} (hk : k < inodePerBlock) (e : InodeEntry) (off len v : Nat)
    (hoff : off + len ≤ 64) (h : ∀ i < len, e.byte (off + i) = Bytes.leByte v i) :
    (writeEntry d k e).readLE (64 * k + off) len = v % 256 ^ len := by
  have hbytes : ∀ i < len, (writeEntry d k e).get (64 * k + off + i) = Bytes.leByte v (0 + i) := by
    intro i hi
    have hlt : 64 * k + off + i < blockSize := by
      simp only [inodePerBlock] at hk
      simp only [blockSize]
      omega
    rw [writeEntry, Bytes.get_blit d _ _ _ hlt, if_pos (by omega),
      show 64 * k + off + i - 64 * k = off + i from by omega, h i hi, zero_add]
  rw [Bytes.readLE_leByte hbytes, pow_zero, Nat.div_one]

theorem ofNat_toNat_mod_u16 (x : UInt16) : UInt16.ofNat (x.toNat % 256 ^ 2) = x := by
  rw [mod_eq_of_lt (by exact x.toNat_lt), UInt16.ofNat_toNat]

theorem ofNat_toNat_mod_u32 (x : UInt32) : UInt32.ofNat (x.toNat % 256 ^ 4) = x := by
  rw [mod_eq_of_lt (by exact x.toNat_lt), UInt32.ofNat_toNat]

theorem InodeEntry.byte_addrs (e : InodeEntry) (a : Fin inodeNumDirect) {i : Nat} (hi : i < 4) :
    e.byte (12 + 4 * a.val + i) = Bytes.leByte (e.addrs a).toNat i := by
  have hdiv : (12 + 4 * a.val + i - 12) / 4 = a.val := by omega
  have hmod : (12 + 4 * a.val + i - 12) % 4 = i := by omega
  have ha : a.val < 12 := a.isLt
  unfold InodeEntry.byte
  rw [if_neg (by omega), if_neg (by omega), if_neg (by omega), if_neg (by omega), if_neg (by omega),
    dif_pos (by rw [hdiv]; exact a.isLt), hmod]
  congr 3
  exact Fin.ext hdiv

theorem InodeEntry.byte_indirect (e : InodeEntry) {i : Nat} (hi : i < 4) :
    e.byte (60 + i) = Bytes.leByte e.indirect.toNat i := by
  unfold InodeEntry.byte
  rw [if_neg (by omega), if_neg (by omega), if_neg (by omega), if_neg (by omega), if_neg (by omega),
    dif_neg (by simp only [inodeNumDirect]; omega), Nat.add_sub_cancel_left]

/-- An entry is read back. -/
theorem readEntry_writeEntry (d : Data) {k : Nat} (hk : k < inodePerBlock) (e : InodeEntry) :
    readEntry (writeEntry d k e) k = e := by
  have htype := readLE_writeEntry d hk e 0 2 e.type.toNat (by omega) fun i hi => by
    unfold InodeEntry.byte
    rw [if_pos (by omega), zero_add]
  have hmajor := readLE_writeEntry d hk e 2 2 e.major.toNat (by omega) fun i hi => by
    unfold InodeEntry.byte
    rw [if_neg (by omega), if_pos (by omega), Nat.add_sub_cancel_left]
  have hminor := readLE_writeEntry d hk e 4 2 e.minor.toNat (by omega) fun i hi => by
    unfold InodeEntry.byte
    rw [if_neg (by omega), if_neg (by omega), if_pos (by omega), Nat.add_sub_cancel_left]
  have hlinks := readLE_writeEntry d hk e 6 2 e.numLinks.toNat (by omega) fun i hi => by
    unfold InodeEntry.byte
    rw [if_neg (by omega), if_neg (by omega), if_neg (by omega), if_pos (by omega),
      Nat.add_sub_cancel_left]
  have hbytes := readLE_writeEntry d hk e 8 4 e.numBytes.toNat (by omega) fun i hi => by
    unfold InodeEntry.byte
    rw [if_neg (by omega), if_neg (by omega), if_neg (by omega), if_neg (by omega), if_pos (by omega),
      Nat.add_sub_cancel_left]
  have haddrs : ∀ a : Fin inodeNumDirect, (writeEntry d k e).readLE (64 * k + 12 + 4 * a.val) 4
      = (e.addrs a).toNat % 256 ^ 4 := by
    intro a
    have ha : a.val < 12 := a.isLt
    rw [add_assoc]
    exact readLE_writeEntry d hk e (12 + 4 * a.val) 4 _ (by omega) fun i hi => e.byte_addrs a hi
  have hindirect := readLE_writeEntry d hk e 60 4 e.indirect.toNat (by omega) fun i hi => e.byte_indirect hi
  rw [add_zero] at htype
  unfold readEntry
  simp only [htype, hmajor, hminor, hlinks, hbytes, haddrs, hindirect, ofNat_toNat_mod_u16,
    ofNat_toNat_mod_u32]

theorem readEntry_zero (k : Nat) : readEntry Bytes.zero k = InodeEntry.zero := by
  unfold readEntry InodeEntry.zero
  simp only [Bytes.readLE_zero]
  rfl

/-- An entry depends on its own 64 bytes only. -/
theorem readEntry_congr {d d' : Data} {k : Nat} (h : ∀ i < 64, d.get (64 * k + i) = d'.get (64 * k + i)) :
    readEntry d k = readEntry d' k := by
  have hread : ∀ off len, off + len ≤ 64 → d.readLE (64 * k + off) len = d'.readLE (64 * k + off) len := by
    intro off len hle
    refine Bytes.readLE_congr fun i hi => ?_
    rw [add_assoc]
    exact h (off + i) (by omega)
  have haddrs : ∀ a : Fin inodeNumDirect,
      d.readLE (64 * k + 12 + 4 * a.val) 4 = d'.readLE (64 * k + 12 + 4 * a.val) 4 := by
    intro a
    have ha : a.val < 12 := a.isLt
    rw [add_assoc]
    exact hread _ 4 (by omega)
  unfold readEntry
  rw [show d.readLE (64 * k) 2 = d'.readLE (64 * k) 2 from hread 0 2 (by omega),
    hread 2 2 (by omega), hread 4 2 (by omega), hread 6 2 (by omega), hread 8 4 (by omega),
    hread 60 4 (by omega)]
  simp only [haddrs]

/-- The other entries of the block are untouched. -/
theorem readEntry_writeEntry_of_ne (d : Data) {k k' : Nat} (hne : k' ≠ k) (e : InodeEntry) :
    readEntry (writeEntry d k e) k' = readEntry d k' :=
  readEntry_congr fun i hi => Bytes.get_blit_of_not_mem d _ (by omega)

/-! ## Indirect blocks -/

/-- `indirect->addrs[j]`. -/
def addrAt (d : Data) (j : Nat) : UInt32 := UInt32.ofNat (d.readLE (4 * j) 4)

/-- `indirect->addrs[j] = a`. -/
def setAddrAt (d : Data) (j : Nat) (a : UInt32) : Data := d.writeLE (4 * j) 4 a.toNat

theorem addrAt_setAddrAt (d : Data) {j : Nat} (hj : j < inodeNumIndirect) (a : UInt32) :
    addrAt (setAddrAt d j a) j = a := by
  unfold addrAt setAddrAt
  rw [Bytes.readLE_writeLE d _ (by simp only [inodeNumIndirect] at hj; simp only [blockSize]; omega)]
  exact ofNat_toNat_mod_u32 a

theorem addrAt_setAddrAt_of_ne (d : Data) {j j' : Nat} (hne : j' ≠ j) (a : UInt32) :
    addrAt (setAddrAt d j a) j' = addrAt d j' := by
  unfold addrAt setAddrAt
  rw [Bytes.readLE_writeLE_of_disjoint d _ (by omega)]

theorem addrAt_zero (j : Nat) : addrAt Bytes.zero j = 0 := by
  unfold addrAt
  rw [Bytes.readLE_zero]
  rfl

/-! ## The areas of a disk -/

/-- The block of an inode: `inode_start + inode_no / IPB`. -/
def inodeBlock (sb : SuperBlock) (ino : Nat) : Nat := sb.inodeStart.toNat + ino / inodePerBlock

/-- The bitmap block for a block: `block_no / BIT_PER_BLOCK + bitmap_start`. -/
def bitmapBlock (sb : SuperBlock) (b : Nat) : Nat := b / bitPerBlock + sb.bitmapStart.toNat

/-- The first data block. -/
def dataStart (sb : SuperBlock) : Nat := sb.numBlocks.toNat - sb.numDataBlocks.toNat

/-- `num_blocks - SWAP_BLOCK_NUM`, on `u32`: where `cache_alloc` stops. -/
def allocLimit (sb : SuperBlock) : Nat := subU32 sb.numBlocks.toNat swapBlockNum

/-- A block that `cache_alloc` may give away: a data block in front of the swap area. -/
def DataBlock (sb : SuperBlock) (b : Nat) : Prop := dataStart sb ≤ b ∧ b < allocLimit sb

/-- The disk as `mkfs` lays it out: log, inodes, bitmap, data, and the swap area at the end. -/
structure DiskLayout (sb : SuperBlock) : Prop where
  log : 0 < sb.numLogBlocks.toNat
  logInodes : sb.logStart.toNat + sb.numLogBlocks.toNat ≤ sb.inodeStart.toNat
  inodesBitmap : inodeBlock sb sb.numInodes.toNat < sb.bitmapStart.toNat
  bitmapData : bitmapBlock sb sb.numBlocks.toNat < dataStart sb
  swap : swapBlockNum ≤ sb.numBlocks.toNat

/-- The entry of an inode on the disk. -/
def entryAt (sb : SuperBlock) (blocks : Nat → Data) (ino : Nat) : InodeEntry :=
  readEntry (blocks (inodeBlock sb ino)) (ino % inodePerBlock)

/-- The bitmap bit of a block. -/
def bitAt (sb : SuperBlock) (blocks : Nat → Data) (b : Nat) : Bool :=
  (blocks (bitmapBlock sb b)).hasBit (b % bitPerBlock)

theorem bitmapStart_le (sb : SuperBlock) (b : Nat) : sb.bitmapStart.toNat ≤ bitmapBlock sb b :=
  Nat.le_add_left ..

section Areas

variable {sb : SuperBlock} (hl : DiskLayout sb)

include hl

theorem allocLimit_eq : allocLimit sb = sb.numBlocks.toNat - swapBlockNum := subU32_of_le hl.swap

theorem allocLimit_lt : allocLimit sb < 2 ^ 32 := by
  rw [allocLimit_eq hl]
  have : sb.numBlocks.toNat < 2 ^ 32 := sb.numBlocks.toNat_lt
  omega

theorem inodeBlock_lt {ino : Nat} (h : ino < sb.numInodes.toNat) : inodeBlock sb ino < sb.bitmapStart.toNat := by
  refine lt_of_le_of_lt ?_ hl.inodesBitmap
  exact Nat.add_le_add_left (Nat.div_le_div_right h.le) _

theorem bitmapBlock_lt {b : Nat} (h : b < sb.numBlocks.toNat) : bitmapBlock sb b < dataStart sb := by
  refine lt_of_le_of_lt ?_ hl.bitmapData
  exact Nat.add_le_add_right (Nat.div_le_div_right h.le) _

theorem DataBlock.lt_numBlocks {b : Nat} (h : DataBlock sb b) : b < sb.numBlocks.toNat := by
  have := h.2
  rw [allocLimit_eq hl] at this
  omega

end Areas

end Armv8Os.Fs
