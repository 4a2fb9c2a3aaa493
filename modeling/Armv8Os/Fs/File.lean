/-
  `fs/file.c`: the table of open files.

  The state above the inode layer is the table `ftable`, what `struct proc` has of files, and
  `inodes.root`.  A `struct file *` is an index of the table.  A file that is a pipe is only known to be
  one: what is in a pipe is no business of the table, and what reading and writing it returns is given.

  A call can stop for the reasons of the file system (`Halt.fs`), or because it follows a NULL
  `struct file *` or indexes `ofile` outside its bounds.
-/
import Armv8Os.Fs.Directory

namespace Armv8Os.Fs

open Prog

/-! ## The tables -/

def nfile : Nat := 65536
def nofile : Nat := 128

inductive FileType where
  | none
  | pipe
  | inode
  deriving Repr, DecidableEq

/-- `struct file`. -/
structure File where
  type : FileType
  ref : Int
  readable : Bool
  writable : Bool
  ip : Nat
  off : UInt64
  deriving DecidableEq

/-- What `memset` leaves of it. -/
def File.empty : File := { type := .none, ref := 0, readable := false, writable := false, ip := 0, off := 0 }

/-- The fields `oftable` and `cwd` of `struct proc`. -/
structure ProcFiles where
  ofile : Nat → Option Nat
  cwd : Option Nat

/-- `ftable`, the processes that are there, and `inodes.root`. -/
structure Tables (P : Type) where
  file : Nat → File
  procs : P → Option ProcFiles
  root : Option Nat

/-- Why a call does not return. -/
inductive Halt where
  /-- the file system stops, or an assertion fails -/
  | fs (e : Stop)
  /-- a NULL `struct file *` is followed -/
  | nullFile
  /-- `ofile` is indexed outside its bounds -/
  | badIndex
  /-- there is no such process -/
  | noProc
  deriving Repr, DecidableEq

/-- Programs over the file system and the tables. -/
abbrev SysM (σ P α : Type) := Prog Halt ((σ × Mem) × Tables P) α

section Files

variable {σ P : Type}

/-- A program of the file system. -/
def inFs {α : Type} (m : FsM σ α) : SysM σ P α := fun s =>
  match m s.1 with
  | .ok (a, fs) => .ok (a, (fs, s.2))
  | .error e => .error (.fs e)

/-- `*f`. -/
def getFile (f : Nat) : SysM σ P File := do
  let t ← onSnd get
  pure (t.file f)

/-- `*f = ..`. -/
def setFile (f : Nat) (file : File) : SysM σ P Unit :=
  onSnd (modify fun t => { t with file := Function.update t.file f file })

/-- `filealloc`. -/
def filealloc : SysM σ P (Option Nat) := do
  let t ← onSnd get
  match (List.range' 0 nfile).find? fun f => (t.file f).ref = 0 with
  | none => pure none
  | some f => do
    setFile f { t.file f with ref := 1 }
    pure (some f)

/-- `filedup`. -/
def filedup (f : Nat) : SysM σ P Unit := do
  let file ← getFile f
  Prog.assert (.fs .panic) (0 < file.ref)
  setFile f { file with ref := file.ref + 1 }

variable (cache : BlockCache σ) (sb : SuperBlock)

/-- The `OpContext` on the stack of a system call. -/
def sysCtx : Nat := 0

/-- The `OpContext` on the stack of `fileclose`. -/
def closeCtx : Nat := 1

def beginOp (c : Nat) : SysM σ P Unit := inFs (onFst (cache.beginOp c))

def endOp (c : Nat) : SysM σ P Unit := do
  let _ ← inFs (onFst (cache.endOp c))
  pure ()

/-- The end of `fileclose`, when the last reference is gone. -/
def closeLast (file : File) : SysM σ P Unit :=
  match file.type with
  | .inode => do
    beginOp cache closeCtx
    inFs (inodePut cache sb (some closeCtx) file.ip)
    endOp cache closeCtx
  | .pipe => pure ()
  | .none => pure ()

/-- `fileclose`. -/
def fileclose (f : Option Nat) : SysM σ P Unit :=
  match f with
  | none => throw .nullFile
  | some f => do
    let file ← getFile f
    Prog.assert (.fs .panic) (0 < file.ref)
    if 0 < file.ref - 1 then setFile f { file with ref := file.ref - 1 }
    else do
      setFile f { file with ref := 0, type := .none }
      closeLast cache sb file

/-- `filestat`. -/
def filestat (f : Nat) : SysM σ P Int := do
  let file ← getFile f
  match file.type with
  | .inode => do
    inFs (inodeLock file.ip)
    let _ ← inFs (stati file.ip)
    inFs (inodeUnlock file.ip)
    pure 0
  | _ => pure (-1)

/-- An `usize` as an `isize`. -/
def toIsize (r : UInt64) : Int := if r.toNat < 2 ^ 63 then r.toNat else (r.toNat : Int) - 2 ^ 64

/-- `if (r > 0) f->off += r`. -/
def File.advance (file : File) (r : UInt64) : File :=
  if 0 < toIsize r then { file with off := file.off + r } else file

/-- `fileread`; `con` is what the user types and `piped` what `pipeRead` returns. -/
def fileread (f : Nat) (n : UInt64) (con : Option (List UInt8)) (piped : Int) : SysM σ P Int := do
  let file ← getFile f
  if !file.readable then pure (-1)
  else match file.type with
    | .pipe => pure piped
    | .inode => do
      inFs (inodeLock file.ip)
      let (r, _) ← inFs (inodeRead cache sb file.ip file.off n con)
      setFile f (file.advance r)
      inFs (inodeUnlock file.ip)
      pure (toIsize r)
    | .none => throw (.fs .panic)

/-- `filewrite`; `piped` is what `pipeWrite` returns. -/
def filewrite (f : Nat) (src : Nat → UInt8) (n : UInt64) (piped : Int) : SysM σ P Int := do
  let file ← getFile f
  if !file.writable then pure (-1)
  else match file.type with
    | .pipe => pure piped
    | .inode => do
      beginOp cache closeCtx
      inFs (inodeLock file.ip)
      let r ← inFs (inodeWrite cache sb (some closeCtx) file.ip src file.off n)
      setFile f (file.advance r)
      inFs (inodeUnlock file.ip)
      endOp cache closeCtx
      pure (toIsize r)
    | .none => throw (.fs .panic)

end Files

end Armv8Os.Fs
