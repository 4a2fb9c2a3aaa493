/-
  `kernel/sysfile.c`, and what `kernel/proc.c` does with files: the system calls, each run to its end.

  What a call finds out about user memory is given with it: whether a path or a buffer may be read, the
  characters of a path, the bytes to be written, what the user types.  The flags of `openat` are the three
  that the source looks at, and a `dirfd` is `AT_FDCWD` or it is not.

  `create` looks the last element of the path up in its directory.  NOTE: it returns the inode UNLOCKED, both
  the one it has found and the one it has made.

  A move of `step` is one call of one process.  A call that stops the kernel is no move.
-/
import Armv8Os.Kernel.Exec
import Armv8Os.Lib.Transition

namespace Armv8Os.Sysfile

open Prog Fs

section Inodes

variable {σ : Type} (cache : BlockCache σ) (sb : SuperBlock)

/-! ## `create` -/

/-- The half of `create` for a name that is there: `dp` is locked. -/
def createFound (ctx : Option Nat) (type : InodeType) (dp ino : Nat) : FsM σ (Option Nat) := do
  let p ← inodeGet cache sb ino
  inodeUnlock dp
  inodePut cache sb ctx dp
  inodeLock p
  let ip ← onSnd (Mem.deref p)
  if type = inodeRegular ∧ (ip.entry.type = inodeRegular ∨ ip.entry.type = inodeDevice) then do
    inodeUnlock p
    pure (some p)
  else do
    inodeUnlock p
    inodePut cache sb ctx p
    pure none

/-- `.` and `..` of a new directory, and the link of its parent. -/
def createDots (ctx : Option Nat) (dp p : Nat) : FsM σ Unit := do
  assignEntry dp fun e => { e with numLinks := e.numLinks + 1 }
  inodeSync cache sb ctx p true
  let ip ← onSnd (Mem.deref p)
  let d ← onSnd (Mem.deref dp)
  let _ ← inodeInsert cache sb ctx p [46] ip.inodeNo
  let _ ← inodeInsert cache sb ctx p [46, 46] d.inodeNo
  pure ()

/-- The last statements of `create`. -/
def createLink (ctx : Option Nat) (dp p : Nat) (name : List UInt8) : FsM σ (Option Nat) := do
  let ip ← onSnd (Mem.deref p)
  let _ ← inodeInsert cache sb ctx dp name ip.inodeNo
  inodeUnlock p
  inodeUnlock dp
  inodePut cache sb ctx dp
  pure (some p)

/-- The half of `create` for a name that is not there. -/
def createNew (ctx : Option Nat) (type : InodeType) (major minor : UInt16) (dp : Nat) (name : List UInt8) :
    FsM σ (Option Nat) := do
  let ino ← inodeAlloc cache sb ctx type
  let p ← inodeGet cache sb ino
  inodeLock p
  assignEntry p fun e => { e with major := major, minor := minor, numLinks := 1 }
  inodeSync cache sb ctx p true
  if type = inodeDirectory then do
    createDots cache sb ctx dp p
    createLink cache sb ctx dp p name
  else createLink cache sb ctx dp p name

/-- `create`.  When there is no parent, `dp` is NULL and is followed. -/
def create (cwd : Option Nat) (path : List UInt8) (type : InodeType) (major minor : UInt16) (ctx : Option Nat) :
    FsM σ (Option Nat) := do
  match ← nameiparent cache sb cwd path ctx with
  | none => throw .dangling
  | some (dp, name) => do
    let d ← onSnd (Mem.deref dp)
    Prog.assert .panic (d.entry.type == inodeDirectory)
    inodeLock dp
    match ← inodeLookup cache sb dp name with
    | some (ino, _) => createFound cache sb ctx type dp ino
    | none => createNew cache sb ctx type major minor dp name

/-! ## `unlinkat` -/

/-- The loop of `isdirempty`. -/
def isdiremptyLoop (p : Nat) : Nat → UInt64 → FsM σ Bool
  | 0, _ => pure true
  | fuel + 1, off => do
    let ip ← onSnd (Mem.deref p)
    if off < ip.entry.numBytes.toUInt64 then do
      let d ← readDirEntry cache sb p off
      if d.inodeNo ≠ 0 then pure false
      else isdiremptyLoop p fuel (off + UInt64.ofNat dirEntrySize)
    else pure true

/-- `isdirempty`. -/
def isdirempty (p : Nat) : FsM σ Bool := do
  let ip ← onSnd (Mem.deref p)
  isdiremptyLoop cache sb p (numEntries ip.entry) (UInt64.ofNat (2 * dirEntrySize))

/-- The label `bad`. -/
def unlinkBad (ctx : Option Nat) (dp : Nat) : FsM σ Int := do
  inodeUnlock dp
  inodePut cache sb ctx dp
  pure (-1)

/-- One link less, in memory and on the disk. -/
def dropLink (ctx : Option Nat) (p : Nat) : FsM σ Unit := do
  assignEntry p fun e => { e with numLinks := e.numLinks - 1 }
  inodeSync cache sb ctx p true

/-- The end of `unlinkat`: the directory is given back, then the inode. -/
def unlinkDone (ctx : Option Nat) (dp p : Nat) : FsM σ Int := do
  inodeUnlock dp
  inodePut cache sb ctx dp
  dropLink cache sb ctx p
  inodeUnlock p
  inodePut cache sb ctx p
  pure 0

/-- The entry at `off` of `dp`, which names the inode at `p`, is cleared. -/
def unlinkEntry (ctx : Option Nat) (dp p : Nat) (off : UInt64) : FsM σ Int := do
  writeDirEntry cache sb ctx dp { inodeNo := 0, name := List.replicate fileNameMaxLength 0 } off
  let ip ← onSnd (Mem.deref p)
  if ip.entry.type = inodeDirectory then do
    dropLink cache sb ctx dp
    unlinkDone cache sb ctx dp p
  else unlinkDone cache sb ctx dp p

/-- `unlinkat` from `inodes.get(inumber)` on. -/
def unlinkFound (ctx : Option Nat) (dp ino : Nat) (off : UInt64) : FsM σ Int := do
  let p ← inodeGet cache sb ino
  inodeLock p
  let ip ← onSnd (Mem.deref p)
  Prog.assert .panic (ip.entry.numLinks != 0)
  if ip.entry.type = inodeDirectory then do
    let empty ← isdirempty cache sb p
    if empty then unlinkEntry cache sb ctx dp p off
    else do
      inodeUnlock p
      inodePut cache sb ctx p
      unlinkBad cache sb ctx dp
  else unlinkEntry cache sb ctx dp p off

/-- `unlinkat` inside the operation. -/
def unlink (cwd : Option Nat) (path : List UInt8) (ctx : Option Nat) : FsM σ Int := do
  match ← nameiparent cache sb cwd path ctx with
  | none => pure (-1)
  | some (dp, name) => do
    inodeLock dp
    if strncmp fileNameMaxLength name [46] = 0 ∨ strncmp fileNameMaxLength name [46, 46] = 0 then
      unlinkBad cache sb ctx dp
    else do
      match ← inodeLookup cache sb dp name with
      | none => unlinkBad cache sb ctx dp
      | some (ino, off) => unlinkFound cache sb ctx dp ino off

end Inodes

/-! ## Descriptors -/

section Calls

variable {σ P : Type} [DecidableEq P] (cache : BlockCache σ) (sb : SuperBlock)

/-- What the process has of files. -/
def thisproc (p : P) : SysM σ P ProcFiles := do
  let t ← onSnd get
  match t.procs p with
  | none => throw .noProc
  | some pr => pure pr

def setProc (p : P) (pr : Option ProcFiles) : SysM σ P Unit :=
  onSnd (modify fun t => { t with procs := Function.update t.procs p pr })

/-- `ofile[fd] = f`. -/
def ProcFiles.setOfile (pr : ProcFiles) (fd : Nat) (f : Option Nat) : ProcFiles :=
  { pr with ofile := Function.update pr.ofile fd f }

/-- `fd2file`. -/
def fd2file (p : P) (fd : Int) : SysM σ P (Option Nat) := do
  let pr ← thisproc p
  pure (if 0 ≤ fd ∧ fd < nofile then pr.ofile fd.toNat else none)

/-- `fdalloc`; `none` for -1. -/
def fdalloc (p : P) (f : Nat) : SysM σ P (Option Nat) := do
  let pr ← thisproc p
  match (List.range' 0 nofile).find? fun fd => pr.ofile fd = none with
  | none => pure none
  | some fd => do
    setProc p (some (ProcFiles.setOfile pr fd (some f)))
    pure (some fd)

/-! ## The calls -/

/-- `sys_dup`. -/
def sysDup (p : P) (fd : Int) : SysM σ P Int := do
  match ← fd2file p fd with
  | none => pure (-1)
  | some f => do
    match ← fdalloc p f with
    | none => pure (-1)
    | some fd => do
      filedup f
      pure fd

/-- `sys_read`; `writeable` is what `user_writeable` says of the buffer. -/
def sysRead (p : P) (fd size : Int) (writeable : Bool) (con : Option (List UInt8)) (piped : Int) :
    SysM σ P Int := do
  match ← fd2file p fd with
  | none => pure (-1)
  | some f =>
    if size ≤ 0 ∨ writeable = false then pure (-1)
    else fileread cache sb f (UInt64.ofNat size.toNat) con piped

/-- `sys_write`; `readable` is what `user_readable` says of the buffer. -/
def sysWrite (p : P) (fd size : Int) (readable : Bool) (src : Nat → UInt8) (piped : Int) : SysM σ P Int := do
  match ← fd2file p fd with
  | none => pure (-1)
  | some f =>
    if size ≤ 0 ∨ readable = false then pure (-1)
    else filewrite cache sb f src (UInt64.ofNat size.toNat) piped

/-- A `struct iovec`: whether it may be read, its bytes, its length. -/
structure Iovec where
  readable : Bool
  src : Nat → UInt8
  len : UInt64
  piped : Int

/-- The loop of `sys_writev`. -/
def writevLoop (f : Nat) : List Iovec → Int → SysM σ P Int
  | [], tot => pure tot
  | v :: iov, tot =>
    if v.readable = false then pure (-1)
    else do
      let n ← filewrite cache sb f v.src v.len v.piped
      writevLoop f iov (tot + n)

/-- `sys_writev`; `readable` is about the vector itself. -/
def sysWritev (p : P) (fd : Int) (readable : Bool) (iov : List Iovec) : SysM σ P Int := do
  match ← fd2file p fd with
  | none => pure (-1)
  | some f =>
    if iov = [] ∨ readable = false then pure (-1)
    else writevLoop cache sb f iov 0

/-- `sys_close`.  The descriptor is not checked. -/
def sysClose (p : P) (fd : Int) : SysM σ P Int := do
  let pr ← thisproc p
  if 0 ≤ fd ∧ fd < nofile then do
    setProc p (some (ProcFiles.setOfile pr fd.toNat none))
    fileclose cache sb (pr.ofile fd.toNat)
    pure 0
  else throw .badIndex

/-- `sys_fstat`. -/
def sysFstat (p : P) (fd : Int) (writeable : Bool) : SysM σ P Int := do
  match ← fd2file p fd with
  | none => pure (-1)
  | some f => if writeable = false then pure (-1) else filestat f

/-- `end_op`, and the result of the call. -/
def finish {α : Type} (a : α) : SysM σ P α := do
  endOp cache sysCtx
  pure a

/-- `sys_newfstatat`; `ok` is what the checks of the arguments say. -/
def sysNewfstatat (p : P) (ok : Bool) (path : List UInt8) : SysM σ P Int := do
  let pr ← thisproc p
  if ok = false then pure (-1)
  else do
    beginOp cache sysCtx
    match ← inFs (namei cache sb pr.cwd path (some sysCtx)) with
    | none => finish cache (-1)
    | some ip => do
      inFs (inodeLock ip)
      let _ ← inFs (stati ip)
      inFs (inodeUnlock ip)
      inFs (inodePut cache sb (some sysCtx) ip)
      finish cache 0

/-- `sys_unlinkat`. -/
def sysUnlinkat (p : P) (atCwd : Bool) (flag : Int) (readable : Bool) (path : List UInt8) : SysM σ P Int := do
  Prog.assert (.fs .panic) (atCwd && flag == 0)
  let pr ← thisproc p
  if readable = false then pure (-1)
  else do
    beginOp cache sysCtx
    let r ← inFs (unlink cache sb pr.cwd path (some sysCtx))
    finish cache r

/-- The flags `O_CREAT`, `O_WRONLY` and `O_RDWR`. -/
structure OpenMode where
  creat : Bool
  wronly : Bool
  rdwr : Bool
  deriving Repr, DecidableEq

/-- The inode `sys_openat` is about. -/
def openInode (cwd : Option Nat) (path : List UInt8) (mode : OpenMode) : FsM σ (Option Nat) :=
  if mode.creat then create cache sb cwd path inodeRegular 0 0 (some sysCtx)
  else do
    match ← namei cache sb cwd path (some sysCtx) with
    | none => pure none
    | some ip => do
      inodeLock ip
      pure (some ip)

/-- `inodes.unlock(ip); inodes.put(&ctx, ip); end_op`: the ways out of `openat`, `mkdirat` and `mknodat`. -/
def giveInodeBack (ip : Nat) (r : Int) : SysM σ P Int := do
  inFs (inodeUnlock ip)
  inFs (inodePut cache sb (some sysCtx) ip)
  finish cache r

/-- The file that `sys_openat` sets up. -/
def OpenMode.file (mode : OpenMode) (file : File) (ip : Nat) : File :=
  { file with type := .inode, ip := ip, off := 0, readable := !mode.wronly, writable := mode.wronly || mode.rdwr }

/-- The end of `sys_openat`, with a file `f` and a descriptor `fd`. -/
def openFile (mode : OpenMode) (ip f fd : Nat) : SysM σ P Int := do
  inFs (inodeUnlock ip)
  endOp cache sysCtx
  let file ← getFile f
  setFile f (mode.file file ip)
  pure fd

/-- `sys_openat`. -/
def sysOpenat (p : P) (atCwd readable : Bool) (path : List UInt8) (mode : OpenMode) : SysM σ P Int := do
  let pr ← thisproc p
  if readable = false ∨ atCwd = false then pure (-1)
  else do
    beginOp cache sysCtx
    match ← inFs (openInode cache sb pr.cwd path mode) with
    | none => finish cache (-1)
    | some ip => do
      match ← filealloc with
      | none => giveInodeBack cache sb ip (-1)
      | some f => do
        match ← fdalloc p f with
        | none => do
          fileclose cache sb (some f)
          giveInodeBack cache sb ip (-1)
        | some fd => openFile cache mode ip f fd

/-- `sys_mkdirat`; `ok` is what the checks of the arguments say. -/
def sysMkdirat (p : P) (ok : Bool) (path : List UInt8) : SysM σ P Int := do
  let pr ← thisproc p
  if ok = false then pure (-1)
  else do
    beginOp cache sysCtx
    match ← inFs (create cache sb pr.cwd path inodeDirectory 0 0 (some sysCtx)) with
    | none => finish cache 0
    | some ip => giveInodeBack cache sb ip 0

/-- `sys_mknodat`. -/
def sysMknodat (p : P) (ok : Bool) (path : List UInt8) (major minor : UInt16) : SysM σ P Int := do
  let pr ← thisproc p
  if ok = false then pure (-1)
  else do
    beginOp cache sysCtx
    match ← inFs (create cache sb pr.cwd path inodeDevice major minor (some sysCtx)) with
    | none => finish cache (-1)
    | some ip => giveInodeBack cache sb ip 0

/-- `inodes.put` of what may be NULL. -/
def putCwd (ctx : Option Nat) : Option Nat → FsM σ Unit
  | none => throw .dangling
  | some p => inodePut cache sb ctx p

/-- `sys_chdir`.  For what is not a directory, the inode is not given back. -/
def sysChdir (p : P) (path : List UInt8) : SysM σ P Int := do
  let pr ← thisproc p
  beginOp cache sysCtx
  match ← inFs (namei cache sb pr.cwd path (some sysCtx)) with
  | none => finish cache (-1)
  | some q => do
    inFs (inodeLock q)
    let ip ← inFs (onSnd (Mem.deref q))
    inFs (inodeUnlock q)
    if ip.entry.type ≠ inodeDirectory then finish cache (-1)
    else do
      inFs (putCwd cache sb (some sysCtx) pr.cwd)
      endOp cache sysCtx
      setProc p (some { pr with cwd := some q })
      pure 0

/-- `pipeAlloc`, when one of its parts fails: the files are closed again. -/
def closeIf (f : Option Nat) : SysM σ P Unit :=
  match f with
  | none => pure ()
  | some f => fileclose cache sb (some f)

/-- One end of a pipe. -/
def setPipeEnd (f : Nat) (writable : Bool) : SysM σ P Unit := do
  let file ← getFile f
  setFile f { file with type := .pipe, readable := !writable, writable := writable }

/-- `pipeAlloc`; `kalloced` says whether there is room for a `struct pipe`. -/
def pipeAlloc (kalloced : Bool) : SysM σ P (Option (Nat × Nat)) := do
  let f₀ ← filealloc
  let f₁ ← filealloc
  match kalloced, f₀, f₁ with
  | true, some a, some b => do
    setPipeEnd a false
    setPipeEnd b true
    pure (some (a, b))
  | _, _, _ => do
    closeIf cache sb f₀
    closeIf cache sb f₁
    pure none

/-- `sys_pipe2`.  The results of `fdalloc` go to the user as they are. -/
def sysPipe2 (p : P) (kalloced : Bool) : SysM σ P Int := do
  match ← pipeAlloc cache sb kalloced with
  | none => pure (-1)
  | some (f₀, f₁) => do
    let _ ← fdalloc p f₀
    let _ ← fdalloc p f₁
    pure 0

/-! ## Processes -/

/-- `init_proc`: no files, and `inodes.root` as it is. -/
def createProc (q : P) : SysM σ P Unit := do
  let t ← onSnd get
  setProc q (some { ofile := fun _ => none, cwd := t.root })

/-- The loop of `fork`: the files of `p`, from `fd` on. -/
def forkFiles (pr : ProcFiles) (q : P) (fd : Nat) : SysM σ P Unit :=
  match pr.ofile fd with
  | none => pure ()
  | some f => do
    filedup f
    let qr ← thisproc q
    setProc q (some (ProcFiles.setOfile qr fd (some f)))

/-- `fork`.  Whether `cwd` is shared depends on what `create_proc` has set. -/
def fork (p q : P) : SysM σ P Int := do
  let pr ← thisproc p
  createProc q
  Prog.forRange nofile (forkFiles pr q)
  let qr ← thisproc q
  match qr.cwd, pr.cwd with
  | none, _ => pure 0
  | some _, none => throw (.fs .dangling)
  | some _, some d => do
    let d ← inFs (inodeShare d)
    setProc q (some { qr with cwd := some d })
    pure 0

/-- One round of the loop of `exit` over the descriptors. -/
def exitFile (p : P) (fd : Nat) : SysM σ P Unit := do
  let pr ← thisproc p
  match pr.ofile fd with
  | none => pure ()
  | some f => do
    fileclose cache sb (some f)
    setProc p (some (ProcFiles.setOfile pr fd none))

/-- `exit`. -/
def exit (p : P) : SysM σ P Int := do
  Prog.forRange nofile (exitFile cache sb p)
  let pr ← thisproc p
  match pr.cwd with
  | none => do
    setProc p none
    pure 0
  | some d => do
    beginOp cache sysCtx
    inFs (inodePut cache sb (some sysCtx) d)
    endOp cache sysCtx
    setProc p none
    pure 0

/-- `execve`. -/
def sysExecve (p : P) (path : List UInt8) (argv : List UInt64) (con : UInt64 → Option (List UInt8)) :
    SysM σ P Int := do
  let pr ← thisproc p
  inFs (Exec.execve cache sb con sysCtx pr.cwd path argv)

end Calls

/-! ## The system -/

inductive Call (P : Type) where
  | createProc (q : P)
  | fork (p q : P)
  | exit (p : P)
  | execve (p : P) (path : List UInt8) (argv : List UInt64) (con : UInt64 → Option (List UInt8))
  | openat (p : P) (atCwd readable : Bool) (path : List UInt8) (mode : OpenMode)
  | mkdirat (p : P) (ok : Bool) (path : List UInt8)
  | mknodat (p : P) (ok : Bool) (path : List UInt8) (major minor : UInt16)
  | unlinkat (p : P) (atCwd : Bool) (flag : Int) (readable : Bool) (path : List UInt8)
  | newfstatat (p : P) (ok : Bool) (path : List UInt8)
  | chdir (p : P) (path : List UInt8)
  | dup (p : P) (fd : Int)
  | close (p : P) (fd : Int)
  | read (p : P) (fd size : Int) (writeable : Bool) (con : Option (List UInt8)) (piped : Int)
  | write (p : P) (fd size : Int) (readable : Bool) (src : Nat → UInt8) (piped : Int)
  | writev (p : P) (fd : Int) (readable : Bool) (iov : List Iovec)
  | fstat (p : P) (fd : Int) (writeable : Bool)
  | pipe2 (p : P) (kalloced : Bool)

section System

variable {σ P : Type} [DecidableEq P] (cache : BlockCache σ) (sb : SuperBlock)

/-- What the call runs. -/
def Call.prog : Call P → SysM σ P Int
  | .createProc q => do
    Sysfile.createProc q
    pure 0
  | .fork p q => Sysfile.fork p q
  | .exit p => Sysfile.exit cache sb p
  | .execve p path argv con => sysExecve cache sb p path argv con
  | .openat p atCwd readable path mode => sysOpenat cache sb p atCwd readable path mode
  | .mkdirat p ok path => sysMkdirat cache sb p ok path
  | .mknodat p ok path major minor => sysMknodat cache sb p ok path major minor
  | .unlinkat p atCwd flag readable path => sysUnlinkat cache sb p atCwd flag readable path
  | .newfstatat p ok path => sysNewfstatat cache sb p ok path
  | .chdir p path => sysChdir cache sb p path
  | .dup p fd => sysDup p fd
  | .close p fd => sysClose cache sb p fd
  | .read p fd size writeable con piped => sysRead cache sb p fd size writeable con piped
  | .write p fd size readable src piped => sysWrite cache sb p fd size readable src piped
  | .writev p fd readable iov => sysWritev cache sb p fd readable iov
  | .fstat p fd writeable => sysFstat p fd writeable
  | .pipe2 p kalloced => sysPipe2 cache sb p kalloced

/-- A new process is a new one. -/
def Call.proper (t : Tables P) : Call P → Bool
  | .createProc q => (t.procs q).isNone
  | .fork _ q => (t.procs q).isNone
  | _ => true

/-- One call, `none` if it does not return. -/
def step (s : (σ × Mem) × Tables P) (call : Call P) : Option ((σ × Mem) × Tables P) :=
  if call.proper s.2 then exec (call.prog cache sb) s else none

/-- `init_inodes`. -/
def initInodes : SysM σ P Unit :=
  if rootInodeNo < sb.numInodes.toNat then do
    let p ← inFs (inodeGet cache sb rootInodeNo)
    onSnd (modify fun t => { t with root := some p })
  else pure ()

/-- The tables before `init_inodes`: nothing is open, and the first processes stand nowhere. -/
def tablesAtBoot (live : P → Bool) : Tables P :=
  { file := fun _ => File.empty
    procs := fun p => if live p then some { ofile := fun _ => none, cwd := none } else none
    root := none }

/-- The system once the file system is up. -/
def boot (s : σ) (live : P → Bool) : Option ((σ × Mem) × Tables P) :=
  exec (initInodes cache sb) ((s, { heap := fun _ => none, head := [], next := 0, lockLog := [] }), tablesAtBoot live)

end System

end Armv8Os.Sysfile
