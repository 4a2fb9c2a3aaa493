/-
  `fs/cache.c`: the block cache as ONE thread sees it.

  The state is the LRU list, the log with its header, the device, and the running operations.  Every
  function of the source is a program over it, statement by statement; what the thread cannot
  survive is a failure, see `Stop`.

  A `Block *` is represented by its block number: the list never holds a number twice (`Shape`), a
  block keeps its number for life, and it is not freed while somebody has it acquired.

  `writes` is the history of the device writes, in order; no function reads it.  It is what a crash
  cuts short.

  The two loops of the commit and the loop of the recovery copy one block to another with the same
  statements; `copyBlock` is these statements, with the unpinning of the middle loop as a flag.
-/
import Armv8Os.Lib.Bytes
import Armv8Os.Lib.Keyed
import Armv8Os.Lib.Prog
import Armv8Os.Common.Sem
import Armv8Os.Fs.Log

namespace Armv8Os.Fs

open Sem

/-- The contents of a block. -/
abbrev Data := Bytes blockSize

/-! ## The log header on disk -/

/-- The `LogHeader` as it lies in a block: 64 little-endian words, the counter first. -/
def encodeHeader (h : LogHeader) : Data := fun i =>
  Bytes.leByte (if i.val < 8 then h.numBlocks else h.blockNo (i.val / 8 - 1)) (i.val % 8)

/-- Read back. -/
def decodeHeader (d : Data) : LogHeader :=
  { numBlocks := d.readLE 0 8, blockNo := fun i => d.readLE (8 + 8 * i) 8 }

theorem encodeHeader_get (h : LogHeader) {j i : Nat} (hj : j < 64) (hi : i < 8) :
    (encodeHeader h).get (8 * j + i)
      = Bytes.leByte (if j = 0 then h.numBlocks else h.blockNo (j - 1)) (0 + i) := by
  have hlt : 8 * j + i < blockSize := by unfold blockSize; omega
  rw [Bytes.get_of_lt _ hlt]
  simp only [encodeHeader]
  rw [show (8 * j + i) % 8 = 0 + i from by omega, show (8 * j + i) / 8 = j from by omega]
  by_cases h0 : j = 0
  · rw [if_pos (by omega), if_pos h0]
  · rw [if_neg (by omega), if_neg h0]

theorem decodeHeader_numBlocks {h : LogHeader} (hn : h.numBlocks < 2 ^ 64) :
    (decodeHeader (encodeHeader h)).numBlocks = h.numBlocks := by
  have hread : (encodeHeader h).readLE 0 8 = h.numBlocks / 256 ^ 0 % 256 ^ 8 :=
    Bytes.readLE_leByte fun i hi => by simpa using encodeHeader_get h (j := 0) (by omega) hi
  show (encodeHeader h).readLE 0 8 = _
  omega

theorem decodeHeader_cleared (h : LogHeader) : (decodeHeader (encodeHeader h.cleared)).numBlocks = 0 :=
  decodeHeader_numBlocks (h := h.cleared) (show 0 < 2 ^ 64 by decide)

theorem decodeHeader_blockNo {h : LogHeader} {i : Nat} (hi : i < logMaxSize)
    (hb : h.blockNo i < 2 ^ 64) : (decodeHeader (encodeHeader h)).blockNo i = h.blockNo i := by
  have hread : (encodeHeader h).readLE (8 + 8 * i) 8 = h.blockNo i / 256 ^ 0 % 256 ^ 8 := by
    refine Bytes.readLE_leByte fun k hk => ?_
    have := encodeHeader_get h (j := i + 1) (by unfold logMaxSize blockSize at hi; omega) hk
    rwa [show 8 * (i + 1) + k = 8 + 8 * i + k from by ring, if_neg (by omega), Nat.add_sub_cancel] at this
  show (encodeHeader h).readLE (8 + 8 * i) 8 = _
  omega

/-! ## The state -/

/-- `Block`. -/
structure Block where
  blockNo : Nat
  acquired : Bool
  pinned : Bool
  valid : Bool
  lock : Semaphore Unit
  data : Data

/-- A running atomic operation: which `OpContext` it has, and the `rm` there. -/
structure Op where
  id : Nat
  rm : Nat

/-- Why the thread stops.  The three `PANIC()`s a client of the cache can run into by using up what
    it shares with others, or by a wrong call, have names of their own. -/
inductive Stop where
  /-- a single thread waits for ever -/
  | sleeps
  /-- a failed assertion, or any other `PANIC()` -/
  | panic
  /-- a pointer to something that is not there -/
  | fault
  /-- an `OpContext` that no operation is running with -/
  | noOp
  /-- the `PANIC()` of `cache_sync`: more new blocks than the operation may log -/
  | noBudget
  /-- the `PANIC()` of `cache_alloc`: no free block -/
  | noSpace
  /-- the `PANIC()` of `cache_free`: the block is free already -/
  | badFree
  /-- an `Inode *` whose inode has been freed -/
  | dangling
  deriving Repr, DecidableEq

namespace Cache

/-- The block cache.  The list starts at `LRUcache.head.next`, so the most recently used block is
    first; `LRUcache.size` is its length. -/
structure State where
  lru : List Block
  log : Log
  header : LogHeader
  ops : List Op
  dev : Nat → Data
  writes : List (Nat × Data)

/-- The cached block with a number. -/
def State.block (s : State) (b : Nat) : Option Block := Keyed.lookup Block.blockNo s.lru b

/-- What a client sees of block `b`: the cached copy, or else the device. -/
def State.cur (s : State) (b : Nat) : Data := ((s.block b).map Block.data).getD (s.dev b)

/-! ## The functions -/

/-- Follow a `Block *`. -/
def deref (b : Nat) : Prog Stop State Block := do
  match (← get).block b with
  | some blk => pure blk
  | none => throw .fault

/-- Assign through a `Block *`. -/
def State.assign (s : State) (b : Nat) (f : Block → Block) : State :=
  { s with lru := Keyed.assign Block.blockNo s.lru b f }

def assign (b : Nat) (f : Block → Block) : Prog Stop State Unit := modify fun s => s.assign b f

/-- `device_write`. -/
def State.deviceWrite (s : State) (b : Nat) (d : Data) : State :=
  { s with dev := Function.update s.dev b d, writes := s.writes ++ [(b, d)] }

def deviceWrite (b : Nat) (d : Data) : Prog Stop State Unit := modify fun s => s.deviceWrite b d

/-- `write_header`. -/
def writeHeader (sb : SuperBlock) : Prog Stop State Unit := do
  deviceWrite sb.logStart.toNat (encodeHeader (← get).header)

/-- The block that a miss inserts: `init_block`, locked, then `device_read`. -/
def loaded (b : Nat) (d : Data) : Block :=
  { blockNo := b, acquired := true, pinned := false, valid := true, lock := initSem 0, data := d }

/-- The eviction at the end of a miss: only the last block is looked at. -/
def evict (lru : List Block) : List Block :=
  if evictionThreshold < lru.length then
    match lru.getLast? with
    | some last => if !last.pinned && !last.acquired then lru.dropLast else lru
    | none => lru
  else lru

/-- `cache_acquire`. -/
def cacheAcquire (b : Nat) : Prog Stop State Block := do
  let s ← get
  match s.block b with
  | some blk =>
    match waitSem blk.lock () with
    | (true, sem) => do
      let blk' := { blk with acquired := true, lock := sem }
      set { s with lru := blk' :: Keyed.remove Block.blockNo s.lru b }
      pure blk'
    | (false, _) => throw .sleeps
  | none => do
    set { s with lru := evict (loaded b (s.dev b) :: s.lru) }
    pure (loaded b (s.dev b))

/-- `cache_release`. -/
def cacheRelease (b : Nat) : Prog Stop State Unit := do
  let blk ← deref b
  match postSem blk.lock with
  | none => throw .panic
  | some (_, sem) =>
    assign b fun blk =>
      { blk with acquired := if 0 ≤ querySem blk.lock then false else blk.acquired, lock := sem }

/-- `cache_begin_op`. -/
def cacheBeginOp (sb : SuperBlock) (c : Nat) : Prog Stop State Unit := do
  let s ← get
  if beginBlocked sb s.log then throw .sleeps
  else set { s with
    log := beginSection s.log
    ops := { id := c, rm := opMaxNumBlocks } :: s.ops }

/-- The operation of a context. -/
def State.op (s : State) (c : Nat) : Option Op := Keyed.lookup Op.id s.ops c

/-- Set `ctx->rm`. -/
def setRm (c rm : Nat) (ops : List Op) : List Op :=
  Keyed.assign Op.id ops c fun op => { op with rm := rm }

/-- `cache_sync`; `none` is a `NULL` context. -/
def cacheSync (ctx : Option Nat) (b : Nat) : Prog Stop State Unit :=
  match ctx with
  | none => do
    let blk ← deref b
    deviceWrite b blk.data
  | some c => do
    assign b fun blk => { blk with pinned := true }
    let s ← get
    match s.op c with
    | none => throw .noOp
    | some op =>
      match syncSection s.header op.rm b with
      | none => throw .noBudget
      | some (header, rm) =>
        set { s with header := header, ops := setRm c rm s.ops }

/-- `from_b = cache_acquire(src); to_b = cache_acquire(dst); memmove(..); device_write(to_b);`, then
    `to_b->pinned = false` if `unpin`, and both are released. -/
def copyBlock (src dst : Nat) (unpin : Bool) : Prog Stop State Unit := do
  let fromB ← cacheAcquire src
  let toB ← cacheAcquire dst
  assign toB.blockNo fun blk => { blk with data := fromB.data }
  deviceWrite toB.blockNo fromB.data
  if unpin then assign toB.blockNo fun blk => { blk with pinned := false }
  cacheRelease fromB.blockNo
  cacheRelease toB.blockNo

/-- The `i`-th block of the log: `sblock->log_start + 1 + i`, the first sum on `u32`. -/
def logBlock (sb : SuperBlock) (i : Nat) : Nat := (sb.logStart + 1).toNat + i

/-- The commit of `cache_end_op`. -/
def commit (sb : SuperBlock) : Prog Stop State Unit := do
  let h := (← get).header
  Prog.forRange h.numBlocks fun i => copyBlock (h.blockNo i) (logBlock sb i) false
  writeHeader sb
  Prog.forRange h.numBlocks fun i => copyBlock (logBlock sb i) (h.blockNo i) true
  modify fun s => { s with header := s.header.cleared }
  writeHeader sb

/-- `cache_end_op`: `true` if it has committed, `false` if the caller goes to sleep on `end_sem`
    until another operation commits. -/
def cacheEndOp (sb : SuperBlock) (c : Nat) : Prog Stop State Bool := do
  let s ← get
  match s.op c with
  | none => throw .noOp
  | some op => do
    let log := endSection s.log op.rm
    set { s with log := log, ops := Keyed.remove Op.id s.ops c }
    if log.outstanding = 0 then do
      commit sb
      modify fun s => { s with log := clearSection s.log }
      pure true
    else pure false

/-- The loop of `init_bcache` over the header found on disk.  A counter beyond the array would make
    it read past the header. -/
def recover (sb : SuperBlock) : Prog Stop State Unit := do
  let h := (← get).header
  if logMaxSize < h.numBlocks then throw .fault
  else do
    Prog.forRange h.numBlocks fun i => copyBlock (logBlock sb i) (h.blockNo i) false
    modify fun s => { s with header := s.header.cleared }
    writeHeader sb

/-- The state `init_bcache` starts from: everything initialised, the header read. -/
def bootState (sb : SuperBlock) (dev : Nat → Data) : State :=
  { lru := [], log := initLog, header := decodeHeader (dev sb.logStart.toNat), ops := [], dev := dev,
    writes := [] }

/-- `init_bcache` on a device. -/
def initBcache (sb : SuperBlock) (dev : Nat → Data) : Except Stop State :=
  (recover sb (bootState sb dev)).map Prod.snd

end Cache

end Armv8Os.Fs
