/-
  `fs/inode.c`: inodes, for an arbitrary `cache : BlockCache σ`.

  The state is the disk behind the cache and the memory of the inode layer.  An `Inode *` is the number
  under which `kalloc` has handed the struct out; `heap` says what is there, and using a pointer after
  `kfree` is the failure `dangling`.  `head` is the list of inodes in memory, the one inserted last first.  `lockLog` is
  history: the value of the lock after every semaphore operation on an inode.

  Integers have the widths of the source where it computes with them: the offsets and counts of
  `inode_read` and `inode_write` are `UInt64`, the fields of an entry are what is on the disk.  Inside the
  loops the offset cannot wrap any more and is a `Nat`; the fuel of a loop is the number of bytes still to go,
  and each round moves at least one.
-/
import Armv8Os.Fs.BlockCache

namespace Armv8Os.Fs

open Prog Sem

/-! ## The memory -/

/-- `Inode`. -/
structure Inode where
  lock : Semaphore Unit
  rc : Int
  inodeNo : Nat
  valid : Bool
  entry : InodeEntry
  deriving DecidableEq

/-- The memory of the inode layer. -/
structure Mem where
  heap : Nat → Option Inode
  head : List Nat
  next : Nat
  lockLog : List Int

namespace Mem

/-- Follow an `Inode *`. -/
def deref (p : Nat) : Prog Stop Mem Inode := fun m =>
  match m.heap p with
  | some ip => .ok (ip, m)
  | none => .error .dangling

/-- Write the struct behind an `Inode *`. -/
def write (m : Mem) (p : Nat) (ip : Inode) : Mem := { m with heap := Function.update m.heap p (some ip) }

/-- Assign through an `Inode *`. -/
def assign (p : Nat) (f : Inode → Inode) : Prog Stop Mem Unit := fun m =>
  match m.heap p with
  | some ip => .ok ((), m.write p (f ip))
  | none => .error .dangling

/-- `unalertable_wait_sem(&inode->lock)`. -/
def waitLock (p : Nat) : Prog Stop Mem Unit := fun m =>
  match m.heap p with
  | none => .error .dangling
  | some ip =>
    match waitSem ip.lock () with
    | (true, sem) => .ok ((), { m.write p { ip with lock := sem } with lockLog := m.lockLog ++ [sem.val] })
    | (false, _) => .error .sleeps

/-- `_post_sem(&inode->lock)`. -/
def postLock (p : Nat) : Prog Stop Mem Unit := fun m =>
  match m.heap p with
  | none => .error .dangling
  | some ip =>
    match postSem ip.lock with
    | some (_, sem) => .ok ((), { m.write p { ip with lock := sem } with lockLog := m.lockLog ++ [sem.val] })
    | none => .error .panic

/-- The loop over the list in `inode_get`. -/
def search (m : Mem) (ino : Nat) : Option Nat :=
  m.head.find? fun p => ((m.heap p).map Inode.inodeNo) == some ino

/-- The outcome of that loop. -/
def find (ino : Nat) : Prog Stop Mem (Option Nat) := fun m => .ok (m.search ino, m)

/-- `kalloc`, `init_inode` and the assignments behind it, `_insert_into_list`. -/
def insert (ip : Inode) : Prog Stop Mem Nat := fun m =>
  .ok (m.next, { m.write m.next ip with head := m.next :: m.head, next := m.next + 1 })

/-- `_detach_from_list(&inode->node); kfree(inode)`. -/
def free (p : Nat) : Prog Stop Mem Unit := fun m =>
  .ok ((), { m with heap := Function.update m.heap p none, head := m.head.erase p })

end Mem

section Inodes

variable {σ : Type} (cache : BlockCache σ) (sb : SuperBlock)

/-- Programs over the disk and the memory. -/
abbrev FsM (σ α : Type) := Prog Stop (σ × Mem) α

/-! ## Locks -/

/-- `inode_lock`. -/
def inodeLock (p : Nat) : FsM σ Unit := do
  let ip ← onSnd (Mem.deref p)
  Prog.assert .panic (0 < ip.rc)
  onSnd (Mem.waitLock p)

/-- `inode_unlock`. -/
def inodeUnlock (p : Nat) : FsM σ Unit := do
  let ip ← onSnd (Mem.deref p)
  Prog.assert .panic (0 < ip.rc)
  onSnd (Mem.postLock p)

/-! ## Entries -/

/-- The loop of `inode_alloc`. -/
def inodeAllocFrom (ctx : Option Nat) (type : InodeType) : List Nat → Prog Stop σ Nat
  | [] => throw .panic
  | ino :: inos => do
    let d ← cache.acquire (inodeBlock sb ino)
    if (readEntry d (ino % inodePerBlock)).type = inodeInvalid then do
      cache.sync ctx (inodeBlock sb ino)
        (writeEntry d (ino % inodePerBlock) { InodeEntry.zero with type := type })
      cache.release (inodeBlock sb ino)
      pure ino
    else do
      cache.release (inodeBlock sb ino)
      inodeAllocFrom ctx type inos

/-- `inode_alloc`. -/
def inodeAlloc (ctx : Option Nat) (type : InodeType) : FsM σ Nat := do
  Prog.assert .panic (type != inodeInvalid)
  onFst (inodeAllocFrom cache sb ctx type (List.range' 1 (sb.numInodes.toNat - 1)))

/-- `inode_sync`.  When the entry is valid and nothing is to be written the source returns without
    releasing the block. -/
def inodeSync (ctx : Option Nat) (p : Nat) (doWrite : Bool) : FsM σ Unit := do
  let ip ← onSnd (Mem.deref p)
  let b := inodeBlock sb ip.inodeNo
  let d ← onFst (cache.acquire b)
  if ip.valid && doWrite then do
    onFst (cache.sync ctx b (writeEntry d (ip.inodeNo % inodePerBlock) ip.entry))
    onFst (cache.release b)
  else if !ip.valid then do
    onSnd (Mem.assign p fun ip => { ip with entry := readEntry d (ip.inodeNo % inodePerBlock) })
    onFst (cache.release b)
    onSnd (Mem.assign p fun ip => { ip with valid := true })
  else pure ()

/-- `inode_get`. -/
def inodeGet (ino : Nat) : FsM σ Nat := do
  Prog.assert .panic (0 < ino)
  Prog.assert .panic (ino < sb.numInodes.toNat)
  match ← onSnd (Mem.find ino) with
  | some p => do
    onSnd (Mem.assign p fun ip => { ip with rc := ip.rc + 1 })
    pure p
  | none => do
    let b := inodeBlock sb ino
    let d ← onFst (cache.acquire b)
    let entry := readEntry d (ino % inodePerBlock)
    Prog.assert .panic (entry.type != inodeInvalid)
    let p ← onSnd (Mem.insert { lock := initSem 1, rc := 1, inodeNo := ino, valid := true, entry := entry })
    onFst (cache.release b)
    pure p

/-- `inode_share`. -/
def inodeShare (p : Nat) : FsM σ Nat := do
  onSnd (Mem.assign p fun ip => { ip with rc := ip.rc + 1 })
  pure p

/-! ## Truncation and deletion -/

/-- `inode->entry = ..`. -/
def assignEntry (p : Nat) (f : InodeEntry → InodeEntry) : FsM σ Unit :=
  onSnd (Mem.assign p fun ip => { ip with entry := f ip.entry })

/-- One round of the first loop of `inode_clear`. -/
def clearDirect (ctx : Option Nat) (p i : Nat) : FsM σ Unit := do
  let ip ← onSnd (Mem.deref p)
  if h : i < inodeNumDirect then
    if ip.entry.addrs ⟨i, h⟩ ≠ 0 then do
      onFst (cacheFree cache sb ctx (ip.entry.addrs ⟨i, h⟩).toNat)
      assignEntry p fun e => e.setAddr ⟨i, h⟩ 0
    else pure ()
  else pure ()

/-- One round of its second loop, over the addresses in the indirect block. -/
def clearEntry (ctx : Option Nat) (d : Data) (i : Nat) : Prog Stop σ Unit :=
  if addrAt d i ≠ 0 then cacheFree cache sb ctx (addrAt d i).toNat else pure ()

/-- The indirect half of `inode_clear`. -/
def clearIndirect (ctx : Option Nat) (p : Nat) : FsM σ Unit := do
  let ip ← onSnd (Mem.deref p)
  if ip.entry.indirect ≠ 0 then do
    let b := ip.entry.indirect.toNat
    let d ← onFst (cache.acquire b)
    onFst (Prog.forRange inodeNumIndirect (clearEntry cache sb ctx d))
    onFst (cache.release b)
    onFst (cacheFree cache sb ctx b)
    assignEntry p fun e => { e with indirect := 0 }
  else pure ()

/-- `inode_clear`. -/
def inodeClear (ctx : Option Nat) (p : Nat) : FsM σ Unit := do
  Prog.forRange inodeNumDirect (clearDirect cache sb ctx p)
  clearIndirect cache sb ctx p
  assignEntry p fun e => { e with numBytes := 0 }
  inodeSync cache sb ctx p true

/-- The branch of `inode_put` for an inode without links: its blocks are freed and its entry is zeroed. -/
def deleteInode (ctx : Option Nat) (p ino : Nat) : FsM σ Unit := do
  onSnd (Mem.waitLock p)
  inodeClear cache sb ctx p
  let b := inodeBlock sb ino
  let d ← onFst (cache.acquire b)
  onFst (cache.sync ctx b (writeEntry d (ino % inodePerBlock) InodeEntry.zero))
  onFst (cache.release b)
  onSnd (Mem.postLock p)

/-- `inode_put`. -/
def inodePut (ctx : Option Nat) (p : Nat) : FsM σ Unit := do
  onSnd (Mem.assign p fun ip => { ip with rc := ip.rc - 1 })
  let ip ← onSnd (Mem.deref p)
  if 0 < ip.rc then pure ()
  else if ip.entry.numLinks = 0 then do
    deleteInode cache sb ctx p ip.inodeNo
    onSnd (Mem.free p)
  else onSnd (Mem.free p)

/-! ## Reading and writing -/

/-- The last statements of `inode_map`: the `k`-th address is now in the indirect block `b`, which is
    written back in any case. -/
def returnEntry (ctx : Option Nat) (b k : Nat) (d : Data) (modified : Bool) : Prog Stop σ (Nat × Bool) := do
  cache.sync ctx b d
  cache.release b
  pure ((addrAt d k).toNat, modified)

/-- `inode_map` from the indirect block `b` on. -/
def mapEntry (ctx : Option Nat) (b k : Nat) : Prog Stop σ (Nat × Bool) := do
  let d ← cache.acquire b
  if addrAt d k = 0 then do
    let a ← cacheAlloc cache sb ctx
    returnEntry cache ctx b k (setAddrAt d k (UInt32.ofNat a)) true
  else returnEntry cache ctx b k d false

/-- The indirect half of `inode_map`. -/
def inodeMapIndirect (ctx : Option Nat) (p k : Nat) : FsM σ (Nat × Bool) := do
  let ip ← onSnd (Mem.deref p)
  if ip.entry.indirect = 0 then do
    let b ← onFst (cacheAlloc cache sb ctx)
    assignEntry p fun e => { e with indirect := UInt32.ofNat b }
    onFst (mapEntry cache sb ctx b k)
  else onFst (mapEntry cache sb ctx ip.entry.indirect.toNat k)

/-- `inode_map`: the block and `*modified`. -/
def inodeMap (ctx : Option Nat) (p offset : Nat) : FsM σ (Nat × Bool) := do
  let ip ← onSnd (Mem.deref p)
  if h : offset / blockSize < inodeNumDirect then
    if ip.entry.addrs ⟨offset / blockSize, h⟩ = 0 then do
      let b ← onFst (cacheAlloc cache sb ctx)
      assignEntry p fun e => e.setAddr ⟨offset / blockSize, h⟩ (UInt32.ofNat b)
      pure ((UInt32.ofNat b).toNat, true)
    else pure ((ip.entry.addrs ⟨offset / blockSize, h⟩).toNat, false)
  else do
    Prog.assert .panic (offset / blockSize - inodeNumDirect < inodeNumIndirect)
    inodeMapIndirect cache sb ctx p (offset / blockSize - inodeNumDirect)

/-- `console_read`, as far as inodes are concerned; `con` is what the user types, `none` if the caller
    has been killed. -/
def consoleRead (p : Nat) (count : UInt64) (con : Option (List UInt8)) : FsM σ (UInt64 × List UInt8) := do
  inodeUnlock p
  -- `n` is signed here
  let n := if count.toNat < 2 ^ 63 then count.toNat else 0
  inodeLock p
  match con with
  | some bytes => pure (UInt64.ofNat (bytes.take n).length, bytes.take n)
  | none => if n = 0 then pure (0, []) else pure (-1, [])

/-- `console_write`. -/
def consoleWrite (p : Nat) (count : UInt64) : FsM σ UInt64 := do
  let ip ← onSnd (Mem.deref p)
  if ip.entry.type ≠ inodeDevice then pure (-1)
  else do
    inodeUnlock p
    inodeLock p
    pure count

/-- How far one round of the loops gets: to the end of the block or of the request. -/
def chunk (offset rest : Nat) : Nat := min (blockSize - offset % blockSize) rest

/-- The loop of `inode_read`; `count` bytes are still to be read. -/
def readLoop (p : Nat) : Nat → Nat → Nat → List UInt8 → FsM σ (List UInt8)
  | 0, _, _, acc => pure acc
  | fuel + 1, offset, count, acc =>
    if 0 < count then do
      let (bno, modified) ← inodeMap cache sb none p offset
      Prog.assert .panic (!modified)
      let d ← onFst (cache.acquire bno)
      let inc := chunk offset count
      onFst (cache.release bno)
      readLoop p fuel (offset + inc) (count - inc)
        (acc ++ (List.range inc).map fun j => d.get (offset % blockSize + j))
    else pure acc

/-- `inode_read`: the number of bytes and the bytes. -/
def inodeRead (p : Nat) (offset count : UInt64) (con : Option (List UInt8)) :
    FsM σ (UInt64 × List UInt8) := do
  let ip ← onSnd (Mem.deref p)
  if ip.entry.type = inodeDevice then do
    Prog.assert .panic (ip.entry.major == 1)
    consoleRead p count con
  else do
    let size := ip.entry.numBytes.toUInt64
    let count := if size < count + offset then size - offset else count
    let last := offset + count
    Prog.assert .panic (offset ≤ size)
    Prog.assert .panic (last ≤ size)
    Prog.assert .panic (offset ≤ last)
    let bytes ← readLoop cache sb p count.toNat offset.toNat count.toNat []
    pure (count, bytes)

/-- The loop of `inode_write`; `count` bytes are still to be written, from `src` on. -/
def writeLoop (ctx : Option Nat) (p : Nat) : Nat → Nat → Nat → (Nat → UInt8) → FsM σ Unit
  | 0, _, _, _ => pure ()
  | fuel + 1, offset, count, src =>
    if 0 < count then do
      let (bno, _) ← inodeMap cache sb ctx p offset
      let d ← onFst (cache.acquire bno)
      let inc := chunk offset count
      onFst (cache.sync ctx bno (d.blit (offset % blockSize) inc src))
      onFst (cache.release bno)
      writeLoop ctx p fuel (offset + inc) (count - inc) fun j => src (inc + j)
    else pure ()

/-- `inode_write`. -/
def inodeWrite (ctx : Option Nat) (p : Nat) (src : Nat → UInt8) (offset count : UInt64) : FsM σ UInt64 := do
  let ip ← onSnd (Mem.deref p)
  let last := offset + count
  if ip.entry.type = inodeDevice then do
    Prog.assert .panic (ip.entry.major == 1)
    consoleWrite p count
  else do
    Prog.assert .panic (offset ≤ ip.entry.numBytes.toUInt64)
    Prog.assert .panic (last ≤ UInt64.ofNat inodeMaxBytes)
    Prog.assert .panic (offset ≤ last)
    writeLoop cache sb ctx p count.toNat offset.toNat count.toNat src
    assignEntry p fun e => if e.numBytes.toUInt64 < last then { e with numBytes := last.toUInt32 } else e
    inodeSync cache sb ctx p true
    pure count

end Inodes

end Armv8Os.Fs
