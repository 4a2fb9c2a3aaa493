/-
  Directories and paths: the rest of `fs/inode.c`.

  A directory is a file of 16-byte entries.  `inode_lookup` and `inode_insert` go through it with
  `inode_read`, entry by entry; `namex` goes down a path hand over hand: the next inode is taken before the
  one it was found in is given up, and no two of them are locked at a time.

  A C string is the list of its characters before the NUL, so reading past the end of a list gives 0.
  The buffer `name` need not be terminated: an element of a path is cut off after 14 characters, and every
  comparison ends there too.  `skipelem` is called until it returns NULL and nothing else changes the path,
  so the loop of `namex` runs over the list of its results.
-/
import Armv8Os.Fs.Inode

namespace Armv8Os.Fs

open Prog

/-! ## Strings -/

def fileNameMaxLength : Nat := 14

/-- `strncmp`. -/
def strncmp : Nat → List UInt8 → List UInt8 → Int
  | 0, _, _ => 0
  | n + 1, s, t =>
    if s.headD 0 ≠ t.headD 0 then (s.headD 0).toNat - (t.headD 0).toNat
    else if s.headD 0 = 0 then 0
    else strncmp n s.tail t.tail

/-- `strncpy`: the `n` characters of the destination. -/
def strncpy : Nat → List UInt8 → List UInt8
  | 0, _ => []
  | n + 1, s => if s.headD 0 = 0 then List.replicate (n + 1) 0 else s.headD 0 :: strncpy n s.tail

/-- `skipelem`: the element and what follows it. -/
def skipelem (path : List UInt8) : Option (List UInt8 × List UInt8) :=
  match path.dropWhile (· = 47) with
  | [] => none
  | c :: cs =>
    some (((c :: cs).takeWhile (· ≠ 47)).take fileNameMaxLength,
      ((c :: cs).dropWhile (· ≠ 47)).dropWhile (· = 47))

/-- The elements of a path; each takes at least one character. -/
def pathElems : Nat → List UInt8 → List (List UInt8)
  | 0, _ => []
  | n + 1, path =>
    match skipelem path with
    | none => []
    | some (name, rest) => name :: pathElems n rest

/-! ## Entries -/

/-- `DirEntry`. -/
structure DirEntry where
  inodeNo : UInt16
  name : List UInt8
  deriving Repr, DecidableEq

def dirEntrySize : Nat := 16

/-- The entry that 16 bytes make. -/
def DirEntry.ofBytes (bytes : List UInt8) : DirEntry :=
  { inodeNo := UInt16.ofNat ((bytes.getD 0 0).toNat + 256 * (bytes.getD 1 0).toNat)
    name := (bytes.drop 2).take fileNameMaxLength }

/-- The bytes of an entry. -/
def DirEntry.bytes (d : DirEntry) : List UInt8 :=
  UInt8.ofNat (d.inodeNo.toNat % 256) :: UInt8.ofNat (d.inodeNo.toNat / 256) :: d.name

section Directories

variable {σ : Type} (cache : BlockCache σ) (sb : SuperBlock)

/-- `inode_read(inode, &d_entry, offset, sizeof(DirEntry))` and the assertion behind it. -/
def readDirEntry (p : Nat) (offset : UInt64) : FsM σ DirEntry := do
  let (cnt, bytes) ← inodeRead cache sb p offset (UInt64.ofNat dirEntrySize) none
  Prog.assert .panic (cnt == UInt64.ofNat dirEntrySize)
  pure (DirEntry.ofBytes bytes)

/-- The loop of `inode_lookup`. -/
def lookupLoop (p : Nat) (name : List UInt8) : Nat → UInt64 → FsM σ (Option (Nat × UInt64))
  | 0, _ => pure none
  | fuel + 1, offset => do
    let ip ← onSnd (Mem.deref p)
    if offset < ip.entry.numBytes.toUInt64 then do
      let d ← readDirEntry cache sb p offset
      if d.inodeNo ≠ 0 ∧ strncmp fileNameMaxLength name d.name = 0 then pure (some (d.inodeNo.toNat, offset))
      else lookupLoop p name fuel (offset + UInt64.ofNat dirEntrySize)
    else pure none

/-- The number of entries, a started one included: the rounds of a loop over a directory. -/
def numEntries (e : InodeEntry) : Nat := (e.numBytes.toNat + dirEntrySize - 1) / dirEntrySize

/-- `inode_lookup`: the number of the inode and the index, `none` for the result 0. -/
def inodeLookup (p : Nat) (name : List UInt8) : FsM σ (Option (Nat × UInt64)) := do
  let ip ← onSnd (Mem.deref p)
  Prog.assert .panic (ip.entry.type == inodeDirectory)
  lookupLoop cache sb p name (numEntries ip.entry) 0

/-- The loop of `inode_insert`: the first entry that is free, or the end. -/
def freeEntryLoop (p : Nat) : Nat → UInt64 → FsM σ UInt64
  | 0, offset => pure offset
  | fuel + 1, offset => do
    let ip ← onSnd (Mem.deref p)
    if offset < ip.entry.numBytes.toUInt64 then do
      let d ← readDirEntry cache sb p offset
      if d.inodeNo = 0 then pure offset
      else freeEntryLoop p fuel (offset + UInt64.ofNat dirEntrySize)
    else pure offset

/-- `inode_write(ctx, inode, &d_entry, offset, sizeof(DirEntry))` and the assertion behind it. -/
def writeDirEntry (ctx : Option Nat) (p : Nat) (d : DirEntry) (offset : UInt64) : FsM σ Unit := do
  let cnt ← inodeWrite cache sb ctx p (fun j => d.bytes.getD j 0) offset (UInt64.ofNat dirEntrySize)
  Prog.assert .panic (cnt == UInt64.ofNat dirEntrySize)

/-- `inode_insert`: the index, `none` for -1.  `inode_no` is cut to 16 bits. -/
def inodeInsert (ctx : Option Nat) (p : Nat) (name : List UInt8) (ino : Nat) : FsM σ (Option UInt64) := do
  let ip ← onSnd (Mem.deref p)
  Prog.assert .panic (ip.entry.type == inodeDirectory)
  match ← inodeLookup cache sb p name with
  | some _ => pure none
  | none => do
    let offset ← freeEntryLoop cache sb p (numEntries ip.entry) 0
    writeDirEntry cache sb ctx p
      { inodeNo := UInt16.ofNat ino, name := strncpy fileNameMaxLength name } offset
    pure (some offset)

/-! ## Paths -/

/-- The end of a round of `namex` that has not found its way. -/
def giveUp {α : Type} (ctx : Option Nat) (p : Nat) : FsM σ (Option α) := do
  inodeUnlock p
  inodePut cache sb ctx p
  pure none

/-- The loop of `namex` from the inode at `p` on. -/
def namexLoop (ctx : Option Nat) (nameiparent : Bool) :
    List (List UInt8) → Nat → FsM σ (Option (Nat × List UInt8))
  | [], p =>
    if nameiparent then do
      inodePut cache sb ctx p
      pure none
    else pure (some (p, []))
  | name :: rest, p => do
    inodeLock p
    let ip ← onSnd (Mem.deref p)
    if ip.entry.type ≠ inodeDirectory then giveUp cache sb ctx p
    else if nameiparent && rest.isEmpty then do
      inodeUnlock p
      pure (some (p, name))
    else do
      match ← inodeLookup cache sb p name with
      | none => giveUp cache sb ctx p
      | some (ino, _) => do
        let q ← inodeGet cache sb ino
        inodeUnlock p
        inodePut cache sb ctx p
        namexLoop ctx nameiparent rest q

/-- Where `namex` starts: at the root, or at `thisproc()->cwd`. -/
def namexStart (cwd : Option Nat) (path : List UInt8) : FsM σ Nat :=
  if path.headD 0 = 47 then inodeGet cache sb rootInodeNo
  else match cwd with
    | none => throw .dangling
    | some p => inodeShare p

/-- `namex`: the inode, and the last element for `nameiparent`. -/
def namex (cwd : Option Nat) (path : List UInt8) (nameiparent : Bool) (ctx : Option Nat) :
    FsM σ (Option (Nat × List UInt8)) := do
  let p ← namexStart cache sb cwd path
  namexLoop cache sb ctx nameiparent (pathElems path.length path) p

/-- `namei`. -/
def namei (cwd : Option Nat) (path : List UInt8) (ctx : Option Nat) : FsM σ (Option Nat) := do
  let r ← namex cache sb cwd path false ctx
  pure (r.map Prod.fst)

/-- `nameiparent`. -/
def nameiparent (cwd : Option Nat) (path : List UInt8) (ctx : Option Nat) :
    FsM σ (Option (Nat × List UInt8)) := namex cache sb cwd path true ctx

/-- `stati`, which only reads; the type has to be known. -/
def stati (p : Nat) : FsM σ InodeEntry := do
  let ip ← onSnd (Mem.deref p)
  Prog.assert .panic
    (ip.entry.type == inodeRegular || ip.entry.type == inodeDirectory || ip.entry.type == inodeDevice)
  pure ip.entry

end Directories

end Armv8Os.Fs
