/-
  `kernel/exec.c` with the memory: what `execve` does to pages, page tables and the process.

  The file system enters as what `execve` can see of it: whether the path names a file, the bytes of that file, the lock and
  the reference count of its inode, and how often an operation has been begun and ended.  (What `inode_read` does on the
  blocks of the disk is in `Fs`, and which inodes `execve` takes and locks is in `Kernel.Exec`.)

  A run stops for three reasons: a NULL is followed or there is no page (`fault`), an `ASSERT` fails (`panic`), or
  `free_pgdir` is called on a `pgdir` that nobody has initialised (`wild`).
-/
import Armv8Os.Kernel.Exec
import Armv8Os.Kernel.Teardown

namespace Armv8Os.Execve

open Mmu Words Pt

inductive Stop where
  | fault
  | panic
  | wild
  deriving Repr, DecidableEq

/-- The memory, the process and what the file system counts. -/
structure State where
  word : UInt64 → UInt64
  free : List UInt64
  extra : UInt64 → Nat  -- the references to a page beyond the first
  pt : UInt64
  sections : List Section
  elr : UInt64
  spEl0 : UInt64
  locked : Int
  rc : Int
  begun : Nat
  ended : Nat

/-- A `struct pgdir` in its memory. -/
structure Pgdir where
  m : Paging
  sections : List Section

/-- A call into `pt.c`. -/
def paging {α : Type} : Except Pt.Stop α → Except Stop α
  | .ok a => .ok a
  | .error _ => .error .fault

/-- `kfree_page`. -/
def kfreePage (s : State) (p : UInt64) : State :=
  if s.extra p = 0 then { s with free := p :: s.free }
  else { s with extra := Function.update s.extra p (s.extra p - 1) }

/-! ## Files -/

/-- `inode_read` on a file with these bytes. -/
def inodeRead (file : List UInt8) (offset count : UInt64) : Except Stop (UInt64 × List UInt8) :=
  let size := UInt64.ofNat file.length
  let count := if size < count + offset then size - offset else count
  if offset ≤ size ∧ offset + count ≤ size ∧ offset ≤ offset + count then
    .ok (count, (file.drop offset.toNat).take count.toNat)
  else .error .panic

/-- An `Elf64_Phdr`, with the size in memory. -/
structure Phdr extends Exec.Phdr where
  memsz : UInt64
  deriving DecidableEq

def Phdr.ofBytes (bytes : List UInt8) : Phdr :=
  { Exec.Phdr.ofBytes bytes with memsz := UInt64.ofNat (Exec.field bytes 40 8) }

/-- The branches for `PT_LOAD`: `PF_R` and `PF_X`, or else `PF_R` and `PF_W`. -/
def Phdr.isText (ph : Phdr) : Bool := ph.type == Exec.ptLoad && ph.readable && ph.executable

def Phdr.isData (ph : Phdr) : Bool := ph.type == Exec.ptLoad && ph.readable && ph.writable && !ph.executable

/-! ## Segments -/

def stFile : UInt64 := 1
def stRo : UInt64 := 4
def stText : UInt64 := stFile ||| stRo
def stData : UInt64 := stFile
def stBss : UInt64 := stFile

/-- `PAGE_UP`. -/
def pageUp (addr : UInt64) : UInt64 := pageBase (addr + (pageSize - 1))

/-- The addresses of `while (p < end)` from `begin` on, page by page. -/
def pagesFrom (begin stop : UInt64) : List UInt64 := Section.pages { flags := 0, begin := begin, stop := stop }

/-- The search for the section, and what is done to the first one found. -/
def setSection (flags : UInt64) (f : Section → Section) : List Section → Option (List Section)
  | [] => none
  | sec :: sections => if sec.flags = flags then some (f sec :: sections) else (setSection flags f sections).map (sec :: ·)

/-- The part of the page `p` that comes from the file: its place in the segment, its place in the page, its size. -/
def filePart (va sz p : UInt64) : UInt64 × UInt64 × UInt64 :=
  let fileOff := if p < va then 0 else p - va
  let pageOff := if p < va then va - p else 0
  let n := if va + sz < p + pageSize then va + sz - p - pageOff else pageSize - pageOff
  (fileOff, pageOff, n)

/-- The body of the loop of `load_seg`; `false` for -1. -/
def loadPage (file : List UInt8) (va offset sz flags : UInt64) (m : Paging) (p : UInt64) : Except Stop (Bool × Paging) := do
  let (fileOff, pageOff, n) := filePart va sz p
  let (ka, m) ← paging (allocPageForUser m)
  let m ← paging (vmmap m p ka flags)
  let (r, bytes) ← inodeRead file (offset + fileOff) n
  .ok (r == n, { m with word := blit m.word (ka + pageOff) bytes.length fun i => bytes.getD i 0 })

def loadPages (file : List UInt8) (va offset sz flags : UInt64) : List UInt64 → Paging → Except Stop (Bool × Paging)
  | [], m => .ok (true, m)
  | p :: ps, m => do
    let (ok, m) ← loadPage file va offset sz flags m p
    if ok then loadPages file va offset sz flags ps m else .ok (false, m)

/-- `load_seg`. -/
def loadSeg (pd : Pgdir) (va : UInt64) (file : List UInt8) (offset sz flags : UInt64) : Except Stop (Bool × Pgdir) :=
  let begin := pageBase va
  let stop := pageUp (va + sz)
  match setSection flags (fun sec => { sec with begin := begin, stop := stop }) pd.sections with
  | none => .ok (false, pd)
  | some sections => do
    let pteFlags := if flags &&& stRo ≠ 0 then pteUserData ||| pteRo else pteUserData
    let (ok, m) ← loadPages file va offset sz pteFlags (pagesFrom begin stop) pd.m
    .ok (ok, { m := m, sections := sections })

/-- The body of the loop of `fill_bss`. -/
def bssPage (va : UInt64) (m : Paging) (p : UInt64) : Except Stop Paging :=
  if p < va then do
    let pageOff := va - p
    let (pte, _) ← paging (getPte m p false)
    let ka := p2k (pteAddress (m.word pte))
    .ok { m with word := blit m.word (ka + pageOff) (pageSize - pageOff).toNat fun _ => 0 }
  else do
    let (ka, m) ← paging (allocPageForUser m)
    let m ← paging (vmmap m p ka pteUserData)
    .ok { m with word := blit m.word ka 4096 fun _ => 0 }

/-- `fill_bss`. -/
def fillBss (pd : Pgdir) (va sz : UInt64) : Except Stop (Bool × Pgdir) :=
  let begin := pageBase va
  let stop := pageUp (va + sz)
  match setSection stBss (fun sec => { sec with stop := stop }) pd.sections with
  | none => .ok (false, pd)
  | some sections => do
    let m ← (pagesFrom begin stop).foldlM (bssPage va) pd.m
    .ok (true, { m := m, sections := sections })

/-- One program header; `false` is `goto bad`. -/
def loadPhdr (file : List UInt8) (ph : Phdr) (pd : Pgdir) : Except Stop (Bool × Pgdir) :=
  if ph.type ≠ Exec.ptLoad then .ok (true, pd)
  else if ph.isText then loadSeg pd ph.vaddr file ph.offset ph.filesz stText
  else if ph.isData then do
    let (ok, pd) ← loadSeg pd ph.vaddr file ph.offset ph.filesz stData
    if ok then fillBss pd (ph.vaddr + ph.filesz) (ph.memsz - ph.filesz) else .ok (false, pd)
  else .ok (false, pd)

/-- The loop over the program headers. -/
def loadPhdrs (file : List UInt8) : Nat → Nat → Pgdir → Except Stop (Bool × Pgdir)
  | 0, _, pd => .ok (true, pd)
  | n + 1, off, pd => do
    let (r, bytes) ← inodeRead file (Exec.intToUsize off) (UInt64.ofNat Exec.phdrSize)
    if r ≠ UInt64.ofNat Exec.phdrSize then .ok (false, pd)
    else do
      let (ok, pd) ← loadPhdr file (Phdr.ofBytes bytes) pd
      if ok then loadPhdrs file n (off + Exec.phdrSize) pd else .ok (false, pd)

/-! ## The stack -/

/-- `create_stack_section`. -/
def createStackSection (pd : Pgdir) (va : UInt64) : Except Stop Pgdir := do
  let (ka, m) ← paging (allocPageForUser pd.m)
  let m := { m with word := blit m.word ka 4096 fun _ => 0 }
  let m ← paging (vmmap m va ka pteUserData)
  .ok { m := m, sections := { flags := 0, begin := va, stop := va + pageSize } :: pd.sections }

/-- `copyout`, a round per page; each round copies a byte at least. -/
def copyout : Nat → Paging → UInt64 → List UInt8 → Except Stop Paging
  | _, m, _, [] => .ok m
  | 0, _, _, _ :: _ => .error .fault
  | rounds + 1, m, va, b :: bytes => do
    let vaBase := pageBase va
    let (pte, _) ← paging (getPte m vaBase false)
    let kaBase := p2k (pteAddress (m.word pte))
    let off := va - vaBase
    let n := min (pageSize - off).toNat (bytes.length + 1)
    let m := { m with word := blit m.word (kaBase + off) n fun i => (b :: bytes).getD i 0 }
    copyout rounds m (vaBase + pageSize) ((b :: bytes).drop n)

/-- The variables of the loop over `argv`. -/
structure Args where
  argc : Nat
  sp : UInt64
  ustack : List UInt64  -- from index 1 on
  m : Paging

/-- The loop over `argv`; `false` is `goto bad`. -/
def pushArgs : List (List UInt8) → Args → Except Stop (Bool × Args)
  | [], a => .ok (true, a)
  | str :: argv, a =>
    if Exec.maxArg ≤ a.argc then .ok (false, a)
    else
      let sp := Exec.pushDown a.sp (UInt64.ofNat (str.length + 1))
      if sp < Exec.stackBase then .ok (false, a)
      else do
        let m ← copyout (str.length + 1) a.m sp (str ++ [0])
        pushArgs argv { argc := a.argc + 1, sp := sp, ustack := a.ustack ++ [sp], m := m }

/-- The bytes of a word in memory. -/
def le64 (w : UInt64) : List UInt8 := (List.range 8).map (byteOf w)

/-- `argc` and `ustack`, below the strings. -/
def pushUstack (a : Args) : Except Stop (Bool × Args) :=
  let sp := Exec.pushDown a.sp (UInt64.ofNat ((a.argc + 2) * 8))
  if sp < Exec.stackBase then .ok (false, a)
  else do
    let bytes := (UInt64.ofNat a.argc :: a.ustack ++ [0]).flatMap le64
    let m ← copyout bytes.length a.m sp bytes
    .ok (true, { a with sp := sp, m := m })

/-- Everything between `create_stack_section` and the second `free_pgdir`. -/
def buildStack (argv : Option (List (List UInt8))) (pd : Pgdir) : Except Stop (Bool × Args × Pgdir) := do
  let pd ← createStackSection pd Exec.stackBase
  let a : Args := { argc := 0, sp := Exec.stackBase + pageSize - 32, ustack := [], m := pd.m }
  let (ok, a) ← pushArgs (argv.getD []) a
  if !ok then .ok (false, a, { pd with m := a.m })
  else do
    let (ok, a) ← pushUstack a
    .ok (ok, a, { pd with m := a.m })

/-! ## `execve` -/

/-- `inodes.unlock(ip); inodes.put(ctx, ip); bcache.end_op(ctx)`. -/
def giveBack (s : State) : State := { s with locked := s.locked - 1, rc := s.rc - 1, ended := s.ended + 1 }

/-- `free_pgdir` on the `pgdir` with this root. -/
def freeSpace (s : State) (pt : UInt64) (sections : List Section) : State :=
  (freePgdir { pt := pt, word := s.word, free := s.free } sections).foldl kfreePage s

/-- The label `bad`; without a `pgdir`, `pd` has not been initialised. -/
def bad (s : State) : Option Pgdir → Except Stop (Int × State)
  | none => .error .wild
  | some pd => .ok (-1, giveBack (freeSpace { s with word := pd.m.word, free := pd.m.free } pd.m.pt pd.sections))

/-- The end of `execve`: the new address space takes the place of the old one. -/
def install (s : State) (pd : Pgdir) : Except Stop State := do
  let s := { s with word := pd.m.word, free := pd.m.free }
  let s := freeSpace s s.pt s.sections
  let child ← paging (initPgdir { pt := 0, word := s.word, free := s.free })
  let (child, sections) ← paging (copyPgdir pd.m.pt pd.sections child [])
  let s := { s with word := child.word, free := child.free, pt := child.pt, sections := sections }
  .ok (freeSpace s pd.m.pt pd.sections)

/-- `create_file_sections`: each new section goes to the head of the list. -/
def fileSections : List Section := [{ flags := stData, begin := 0, stop := 0 }, { flags := stText, begin := 0, stop := 0 }]

/-- `execve`.  `exe` is the file that the path names, if any, and `argv` is given by its strings, NULL being `none`. -/
def execve (exe : Option (List UInt8)) (argv : Option (List (List UInt8))) (s : State) : Except Stop (Int × State) :=
  let s := { s with begun := s.begun + 1 }
  match exe with
  | none => .ok (-1, { s with ended := s.ended + 1 })
  | some file => do
    let s := { s with rc := s.rc + 1, locked := s.locked + 1 }
    let (r, elf) ← inodeRead file 0 (UInt64.ofNat Exec.ehdrSize)
    if r ≠ UInt64.ofNat Exec.ehdrSize then bad s none
    else if Fs.strncmp 4 elf Exec.elfMag ≠ 0 then .ok (-1, giveBack s)
    else do
      let m ← paging (initPgdir { pt := 0, word := s.word, free := s.free })
      let (ok, pd) ← loadPhdrs file (Exec.field elf 56 2) (Exec.field elf 32 8) { m := m, sections := fileSections }
      if !ok then bad s (some pd)
      else do
        let s := giveBack s
        let (ok, a, pd) ← buildStack argv pd
        if !ok then bad s (some pd)
        else do
          let s ← install s pd
          .ok (a.argc, { s with elr := UInt64.ofNat (Exec.field elf 24 8), spEl0 := a.sp })

end Armv8Os.Execve
