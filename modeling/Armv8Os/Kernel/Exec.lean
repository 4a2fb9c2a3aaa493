/-
  `kernel/exec.c`, as far as the file system is concerned: which inode `execve` takes, locks, reads and
  gives back on which way out.

  The page tables are left out: `load_seg` is the sequence of its reads, and the stack is a pointer that
  moves down.  `copyout` and `fill_bss` do not fail, and the sections that `load_seg` looks for have just been
  made.

  Everything that goes wrong ends at the label `bad`, which unlocks and puts the inode.  Up to the end of
  the program headers this is right.  The arguments are copied after that, when the inode has been given back
  already, and a failure there goes to the same label.
-/
import Armv8Os.Fs.File

namespace Armv8Os.Exec

open Prog Fs

/-! ## What is in the file -/

/-- A little-endian field of `n` bytes. -/
def field (bytes : List UInt8) (off n : Nat) : Nat :=
  ((List.range n).map fun i => (bytes.getD (off + i) 0).toNat * 256 ^ i).sum

def ehdrSize : Nat := 64
def phdrSize : Nat := 56

/-- `ELFMAG`. -/
def elfMag : List UInt8 := [0x7f, 0x45, 0x4c, 0x46]

/-- An `Elf64_Phdr`. -/
structure Phdr where
  type : Nat
  readable : Bool
  writable : Bool
  executable : Bool
  offset : UInt64
  vaddr : UInt64
  filesz : UInt64
  deriving DecidableEq

def Phdr.ofBytes (bytes : List UInt8) : Phdr :=
  { type := field bytes 0 4
    executable := (field bytes 4 4).testBit 0
    writable := (field bytes 4 4).testBit 1
    readable := (field bytes 4 4).testBit 2
    offset := UInt64.ofNat (field bytes 8 8)
    vaddr := UInt64.ofNat (field bytes 16 8)
    filesz := UInt64.ofNat (field bytes 32 8) }

def ptLoad : Nat := 1

/-- An `int` that becomes an `usize`. -/
def intToUsize (n : Nat) : UInt64 :=
  if n % 2 ^ 32 < 2 ^ 31 then UInt64.ofNat (n % 2 ^ 32) else UInt64.ofNat (n % 2 ^ 32 + (2 ^ 64 - 2 ^ 32))

/-! ## The arguments -/

def maxArg : Nat := 32
def stackBase : UInt64 := 0x60000000
def pageSize : UInt64 := 4096

/-- `sp -= n; sp -= sp % 16`. -/
def pushDown (sp n : UInt64) : UInt64 := (sp - n) - (sp - n) % 16

/-- The loop over `argv`, given by the lengths of the strings; `none` is `goto bad`. -/
def pushArgs : List UInt64 → Nat → UInt64 → Option (Nat × UInt64)
  | [], argc, sp => some (argc, sp)
  | len :: rest, argc, sp =>
    if maxArg ≤ argc then none
    else if pushDown sp (len + 1) < stackBase then none
    else pushArgs rest (argc + 1) (pushDown sp (len + 1))

/-- `argc`, if the arguments fit on the stack. -/
def fitArgs (argv : List UInt64) : Option Nat :=
  match pushArgs argv 0 (stackBase + pageSize - 32) with
  | none => none
  | some (argc, sp) => if pushDown sp (UInt64.ofNat ((argc + 2) * 8)) < stackBase then none else some argc

/-! ## `execve` -/

section Execve

variable {σ : Type} (cache : BlockCache σ) (sb : SuperBlock) (con : UInt64 → Option (List UInt8))

/-- `inodes.read`; on a device `con` is what the user types, by the offset. -/
def readAt (p : Nat) (offset n : UInt64) : FsM σ (UInt64 × List UInt8) :=
  inodeRead cache sb p offset n (con offset)

/-- The loop of `load_seg`, over its pages; `false` for -1. -/
def loadPages (p : Nat) (va offset sz : UInt64) : Nat → UInt64 → FsM σ Bool
  | 0, _ => pure true
  | pages + 1, page => do
    let fileOff := if page < va then 0 else page - va
    let pageOff := if page < va then va - page else 0
    let n := if va + sz < page + pageSize then va + sz - page - pageOff else pageSize - pageOff
    let (r, _) ← readAt cache sb con p (offset + fileOff) n
    if r ≠ n then pure false else loadPages p va offset sz pages (page + pageSize)

/-- `load_seg`. -/
def loadSeg (p : Nat) (va offset sz : UInt64) : FsM σ Bool :=
  let start := va - va % pageSize
  let stop := (va + sz + (pageSize - 1)) - (va + sz + (pageSize - 1)) % pageSize
  loadPages cache sb con p va offset sz ((stop.toNat - start.toNat) / 4096) start

/-- The loop over the program headers; `false` is `goto bad`. -/
def loadPhdrs (p : Nat) : Nat → Nat → FsM σ Bool
  | 0, _ => pure true
  | n + 1, off => do
    let (r, bytes) ← readAt cache sb con p (intToUsize off) (UInt64.ofNat phdrSize)
    if r ≠ UInt64.ofNat phdrSize then pure false
    else
      let ph := Phdr.ofBytes bytes
      if ph.type ≠ ptLoad then loadPhdrs p n (off + phdrSize)
      else if ph.readable && (ph.executable || ph.writable) then do
        let ok ← loadSeg cache sb con p ph.vaddr ph.offset ph.filesz
        if ok then loadPhdrs p n (off + phdrSize) else pure false
      else pure false

/-- `inodes.unlock(ip); inodes.put(ctx, ip); bcache.end_op(ctx)`: at the label `bad` and twice before it. -/
def giveBack (c p : Nat) : FsM σ Unit := do
  inodeUnlock p
  inodePut cache sb (some c) p
  let _ ← onFst (cache.endOp c)
  pure ()

/-- `execve`; -1 or `argc`. -/
def execve (c : Nat) (cwd : Option Nat) (path : List UInt8) (argv : List UInt64) : FsM σ Int := do
  onFst (cache.beginOp c)
  match ← namei cache sb cwd path (some c) with
  | none => do
    let _ ← onFst (cache.endOp c)
    pure (-1)
  | some p => do
    inodeLock p
    let (r, elf) ← readAt cache sb con p 0 (UInt64.ofNat ehdrSize)
    if r ≠ UInt64.ofNat ehdrSize then do
      giveBack cache sb c p
      pure (-1)
    else if strncmp 4 elf elfMag ≠ 0 then do
      giveBack cache sb c p
      pure (-1)
    else do
      let ok ← loadPhdrs cache sb con p (field elf 56 2) (field elf 32 8)
      if !ok then do
        giveBack cache sb c p
        pure (-1)
      else do
        giveBack cache sb c p
        match fitArgs argv with
        | some argc => pure argc
        | none => do
          -- `goto bad`, a second time
          giveBack cache sb c p
          pure (-1)

end Execve

end Armv8Os.Exec
