/-
  `user/mkfs/main.c`: the program that makes the disk image.

  It runs on the host and shares no code with the kernel: it has its own `iappend` for `inode_map` and
  `inode_write`, its own `ialloc`, and a bitmap that is written once, at the end, from the number of blocks
  given away.

  The state is the image and the two counters.  `xint` and `xshort` put numbers into little-endian order, which
  is how `readEntry`, `addrAt` and `readLE` read them.  The image has `FSSIZE` sectors, a read behind them comes
  up short and ends the program; every sector is read before it is written, so the counters stay small and
  numbers do not wrap.
-/
import Armv8Os.Fs.Directory

namespace Armv8Os.Mkfs

open Fs List

/-! ## Layout -/

/-- `FSSIZE`. -/
abbrev fssize : Nat := 1000

/-- `NINODES`. -/
abbrev ninodes : Nat := 200

/-- `nbitmap`. -/
abbrev nbitmap : Nat := fssize / (blockSize * 8) + 1

/-- `ninodeblocks`. -/
abbrev ninodeblocks : Nat := ninodes / inodePerBlock + 1

/-- `nmeta`. -/
abbrev nmeta : Nat := 2 + logMaxSize + ninodeblocks + nbitmap

/-- `sb`. -/
def sb : SuperBlock :=
  { numBlocks := UInt32.ofNat fssize
    numDataBlocks := UInt32.ofNat (fssize - nmeta)
    numInodes := UInt32.ofNat ninodes
    numLogBlocks := UInt32.ofNat logMaxSize
    logStart := 2
    inodeStart := UInt32.ofNat (2 + logMaxSize)
    bitmapStart := UInt32.ofNat (2 + logMaxSize + ninodeblocks) }

/-- Field `i` of a `SuperBlock`, in the order of the struct. -/
def field (s : SuperBlock) : Nat → UInt32
  | 0 => s.numBlocks
  | 1 => s.numDataBlocks
  | 2 => s.numInodes
  | 3 => s.numLogBlocks
  | 4 => s.logStart
  | 5 => s.inodeStart
  | 6 => s.bitmapStart
  | _ => 0

/-- `memmove(buf, &sb, sizeof(sb))` into a buffer of zeros. -/
def superSector (s : SuperBlock) : Data := Bytes.zero.blit 0 28 fun i => Bytes.leByte (field s (i / 4)).toNat (i % 4)

/-- `get_super_block` of the kernel, which has read sector 1. -/
def getSuperBlock (sectors : Nat → Data) : SuperBlock :=
  let u32 (i : Nat) : UInt32 := UInt32.ofNat ((sectors 1).readLE (4 * i) 4)
  { numBlocks := u32 0, numDataBlocks := u32 1, numInodes := u32 2, numLogBlocks := u32 3, logStart := u32 4,
    inodeStart := u32 5, bitmapStart := u32 6 }

/-! ## Sectors and inodes -/

/-- How the program ends early: `assert`, or `exit(1)`. -/
inductive Fail where
  | assertion
  | exit
  deriving DecidableEq, Repr

/-- The image, `freeinode` and `freeblock`. -/
structure Img where
  sectors : Nat → Data
  freeinode : Nat
  freeblock : Nat

/-- What `main` has after the loop that fills the image with zeros. -/
def blank : Img := { sectors := fun _ => Bytes.zero, freeinode := 1, freeblock := nmeta }

abbrev MkfsM (α : Type) := Prog Fail Img α

def rsect (sec : Nat) : MkfsM Data := fun im =>
  if sec < fssize then .ok (im.sectors sec, im) else .error .exit

def wsect (sec : Nat) (buf : Data) : MkfsM Unit := fun im =>
  .ok ((), { im with sectors := Function.update im.sectors sec buf })

def winode (inum : Nat) (ip : InodeEntry) : MkfsM Unit := do
  let buf ← rsect (inodeBlock sb inum)
  wsect (inodeBlock sb inum) (writeEntry buf (inum % inodePerBlock) ip)

def rinode (inum : Nat) : MkfsM InodeEntry := do
  let buf ← rsect (inodeBlock sb inum)
  pure (readEntry buf (inum % inodePerBlock))

/-- `freeinode++`. -/
def newInode : MkfsM Nat := fun im => .ok (im.freeinode, { im with freeinode := im.freeinode + 1 })

/-- `freeblock++`. -/
def newBlock : MkfsM Nat := fun im => .ok (im.freeblock, { im with freeblock := im.freeblock + 1 })

/-- The entry that `ialloc` writes. -/
def newEntry (type : InodeType) : InodeEntry := { InodeEntry.zero with type := type, numLinks := 1 }

def ialloc (type : InodeType) : MkfsM Nat := do
  let inum ← newInode
  winode inum (newEntry type)
  pure inum

/-! ## Blocks -/

/-- `balloc`: the bits of the first `used` blocks. -/
def balloc (used : Nat) : MkfsM Unit := do
  Prog.assert .assertion (decide (used < blockSize * 8))
  wsect sb.bitmapStart.toNat ((List.range used).foldl Bytes.setBit Bytes.zero)

/-- The sector behind address `k` of the indirect block. -/
def mapEntry (din : InodeEntry) (k : Nat) : MkfsM (Nat × InodeEntry) := do
  let indirect ← rsect din.indirect.toNat
  if addrAt indirect k = 0 then do
    let b ← newBlock
    wsect din.indirect.toNat (setAddrAt indirect k (UInt32.ofNat b))
    pure ((UInt32.ofNat b).toNat, din)
  else pure ((addrAt indirect k).toNat, din)

/-- The sector `x` for block `fbn` of a file, in a round of `iappend`. -/
def mapBlock (din : InodeEntry) (fbn : Nat) : MkfsM (Nat × InodeEntry) :=
  if h : fbn < inodeNumDirect then
    if din.addrs ⟨fbn, h⟩ = 0 then do
      let b ← newBlock
      pure ((UInt32.ofNat b).toNat, din.setAddr ⟨fbn, h⟩ (UInt32.ofNat b))
    else pure ((din.addrs ⟨fbn, h⟩).toNat, din)
  else if din.indirect = 0 then do
    let b ← newBlock
    mapEntry { din with indirect := UInt32.ofNat b } (fbn - inodeNumDirect)
  else mapEntry din (fbn - inodeNumDirect)

/-- The loop of `iappend`; each round takes a byte at least. -/
def appendLoop : Nat → InodeEntry → Nat → List UInt8 → MkfsM (InodeEntry × Nat)
  | 0, din, off, _ => pure (din, off)
  | fuel + 1, din, off, p =>
    if 0 < p.length then do
      let fbn := off / blockSize
      Prog.assert .assertion (decide (fbn < inodeMaxBlocks))
      let (x, din) ← mapBlock din fbn
      let n1 := min p.length ((fbn + 1) * blockSize - off)
      let buf ← rsect x
      wsect x (buf.blit (off - fbn * blockSize) n1 fun j => p.getD j 0)
      appendLoop fuel din (off + n1) (p.drop n1)
    else pure (din, off)

def iappend (inum : Nat) (p : List UInt8) : MkfsM Unit := do
  let din ← rinode inum
  let (din, off) ← appendLoop p.length din din.numBytes.toNat p
  winode inum { din with numBytes := UInt32.ofNat off }

/-! ## Files of the host -/

/-- A file of the host: its path, and what `read` returns until it returns 0. -/
structure HostFile where
  path : List UInt8
  reads : List (List UInt8)
  noNul : ∀ c ∈ path, c ≠ 0
  sizes : ∀ r ∈ reads, 0 < r.length ∧ r.length ≤ blockSize

/-- The bytes of the file. -/
def HostFile.content (f : HostFile) : List UInt8 := f.reads.flatten

/-- The loop that counts the characters behind the last slash. -/
def baseLen : Int → List UInt8 → Int
  | j, [] => j
  | j, c :: cs => baseLen ((if c = 47 then -1 else j) + 1) cs

/-- `argv[i]` after `argv[i] -= j`. -/
def baseName (path : List UInt8) : List UInt8 := path.drop (path.length - (baseLen 0 path).toNat)

/-- A leading `_` is skipped. -/
def strip (base : List UInt8) : List UInt8 := if base.headD 0 = 95 then base.tail else base

/-- The bytes of `de`. -/
def dirent (inum : Nat) (name : List UInt8) : List UInt8 :=
  DirEntry.bytes { inodeNo := UInt16.ofNat inum, name := strncpy fileNameMaxLength name }

/-- The loop of `read` and `iappend`. -/
def appendAll (inum : Nat) : List (List UInt8) → MkfsM Unit
  | [] => pure ()
  | r :: rs => do
    iappend inum r
    appendAll inum rs

/-- A round of the loop over the arguments. -/
def addFile (rootino : Nat) (f : HostFile) : MkfsM Unit := do
  Prog.assert .assertion (!(baseName f.path).contains 47)
  let inum ← ialloc inodeRegular
  iappend rootino (dirent inum (strip (baseName f.path)))
  appendAll inum f.reads

def addFiles (rootino : Nat) : List HostFile → MkfsM Unit
  | [] => pure ()
  | f :: fs => do
    addFile rootino f
    addFiles rootino fs

/-- The end of `main`: the size of the root directory, then the bitmap. -/
def finish (rootino : Nat) : MkfsM Unit := do
  let din ← rinode rootino
  winode rootino { din with numBytes := UInt32.ofNat ((din.numBytes.toNat / blockSize + 1) * blockSize) }
  let im ← get
  balloc im.freeblock

/-- `main` from where the image is blank. -/
def mkfs (files : List HostFile) : MkfsM Unit := do
  wsect 1 (superSector sb)
  let rootino ← ialloc inodeDirectory
  Prog.assert .assertion (rootino == rootInodeNo)
  iappend rootino (dirent rootino [46])
  iappend rootino (dirent rootino [46, 46])
  addFiles rootino files
  finish rootino

/-! ## What the small functions compute -/

/-- The bitmap that `balloc` writes. -/
def bitmap (used : Nat) : Data := (List.range used).foldl Bytes.setBit Bytes.zero

theorem hasBit_bitmap (used : Nat) {i : Nat} (hi : i < bitPerBlock) : (bitmap used).hasBit i = decide (i < used) := by
  have hi' : i < 8 * blockSize := by rw [Nat.mul_comm]; exact hi
  induction used with
  | zero =>
    unfold bitmap Bytes.hasBit
    simp
  | succ used ih =>
    unfold bitmap at ih ⊢
    rw [range_succ, foldl_append, foldl_cons, foldl_nil, Bytes.hasBit_setBit _ hi', ih]
    by_cases he : i = used
    · simp [he]
    · have : i < used + 1 ↔ i < used := by omega
      simp [he, this]

/-- The characters behind the last slash. -/
def afterSlash (path : List UInt8) : List UInt8 := (path.reverse.takeWhile (· ≠ 47)).reverse

theorem afterSlash_concat (path : List UInt8) (c : UInt8) :
    afterSlash (path ++ [c]) = if c = 47 then [] else afterSlash path ++ [c] := by
  unfold afterSlash
  by_cases hc : c = 47 <;> simp [hc]

theorem baseLen_append (j : Int) (cs ds : List UInt8) : baseLen j (cs ++ ds) = baseLen (baseLen j cs) ds := by
  induction cs generalizing j with
  | nil => rfl
  | cons c cs ih => exact ih _

/-- The loop counts the characters behind the last slash. -/
theorem baseLen_eq (path : List UInt8) : baseLen 0 path = (afterSlash path).length := by
  induction path using reverseRecOn with
  | nil => rfl
  | append_singleton path c ih =>
    rw [baseLen_append, ih, afterSlash_concat]
    by_cases hc : c = 47
    · simp [baseLen, hc]
    · simp [baseLen, hc]

theorem baseName_eq (path : List UInt8) : baseName path = afterSlash path := by
  have hsuffix : afterSlash path <:+ path := by
    have := takeWhile_prefix (l := path.reverse) (p := fun c => decide (c ≠ 47))
    rw [← reverse_suffix, reverse_reverse] at this
    exact this
  unfold baseName
  rw [baseLen_eq, Int.toNat_natCast]
  exact (suffix_iff_eq_drop.mp hsuffix).symm

theorem not_mem_afterSlash (path : List UInt8) : (47 : UInt8) ∉ afterSlash path := by
  unfold afterSlash
  rw [mem_reverse]
  intro h
  have := all_eq_true.mp all_takeWhile _ h
  simp at this

/-- The name a file of the host gets. -/
def HostFile.name (f : HostFile) : List UInt8 := strip (afterSlash f.path)

theorem HostFile.name_noNul (f : HostFile) : ∀ c ∈ f.name, c ≠ 0 := by
  intro c hc
  apply f.noNul
  have hbase : c ∈ afterSlash f.path := by
    unfold HostFile.name strip at hc
    split at hc
    · exact mem_of_mem_tail hc
    · exact hc
  unfold afterSlash at hbase
  rw [mem_reverse] at hbase
  exact mem_reverse.mp (( takeWhile_prefix _).subset hbase)

end Armv8Os.Mkfs
