/-
  The inode layer over two caches.

  Every function of `Fs.Inode` is written for an arbitrary cache.  If one cache does what another does
  (`CacheSim`), then so does each function over it: the proofs follow the text of the functions, one rule of
  `Lib.Simulation` for each construct.  With `bcache_refines_store` this carries everything proved on the array
  over to the block cache.
-/
import Armv8Os.Fs.Inode

namespace Armv8Os.Fs

open Prog Simulation

variable {σ τ : Type} {R : σ → τ → Prop} {U : Stop → Prop} {cache : BlockCache σ} {cache' : BlockCache τ}

theorem inodeLock_sim (p : Nat) : Sim (Half R) U (inodeLock p : FsM σ Unit) (inodeLock p) :=
  .bind (.onSnd _) fun _ => .bind (.assert _ _) fun _ => .onSnd _

theorem inodeUnlock_sim (p : Nat) : Sim (Half R) U (inodeUnlock p : FsM σ Unit) (inodeUnlock p) :=
  .bind (.onSnd _) fun _ => .bind (.assert _ _) fun _ => .onSnd _

theorem inodeShare_sim (p : Nat) : Sim (Half R) U (inodeShare p : FsM σ Nat) (inodeShare p) :=
  .bind (.onSnd _) fun _ => .pure p

theorem assignEntry_sim (p : Nat) (f : InodeEntry → InodeEntry) :
    Sim (Half R) U (assignEntry p f : FsM σ Unit) (assignEntry p f) := .onSnd _

section

variable (h : CacheSim R U cache cache') (sb : SuperBlock) (ctx : Option Nat)

include h

theorem allocFrom_sim (ks : List Nat) : Sim R U (allocFrom cache sb ctx ks) (allocFrom cache' sb ctx ks) := by
  induction ks with
  | nil => exact .throw _
  | cons k ks ih =>
    refine .bind (h.acquire _) fun bp => ?_
    cases freeBit bp (min bitPerBlock (allocLimit sb - k * bitPerBlock)) with
    | none => exact .bind (h.release _) fun _ => ih
    | some j =>
      exact .bind (h.sync _ _ _) fun _ => .bind (h.release _) fun _ => .bind (h.acquire _) fun _ =>
        .bind (h.sync _ _ _) fun _ => .bind (h.release _) fun _ => .pure _

theorem cacheAlloc_sim : Sim R U (cacheAlloc cache sb ctx) (cacheAlloc cache' sb ctx) := allocFrom_sim h sb ctx _

theorem cacheFree_sim (b : Nat) : Sim R U (cacheFree cache sb ctx b) (cacheFree cache' sb ctx b) :=
  .bind (h.acquire _) fun _ => .bind (.assert _ _) fun _ => .bind (h.sync _ _ _) fun _ => h.release _

theorem inodeAllocFrom_sim (type : InodeType) (inos : List Nat) :
    Sim R U (inodeAllocFrom cache sb ctx type inos) (inodeAllocFrom cache' sb ctx type inos) := by
  induction inos with
  | nil => exact .throw _
  | cons ino inos ih =>
    refine .bind (h.acquire _) fun d => .ite ?_ ?_
    · exact .bind (h.sync _ _ _) fun _ => .bind (h.release _) fun _ => .pure _
    · exact .bind (h.release _) fun _ => ih

theorem inodeAlloc_sim (type : InodeType) :
    Sim (Half R) U (inodeAlloc cache sb ctx type) (inodeAlloc cache' sb ctx type) :=
  .bind (.assert _ _) fun _ => .onFst (inodeAllocFrom_sim h sb ctx type _)

theorem inodeSync_sim (p : Nat) (doWrite : Bool) :
    Sim (Half R) U (inodeSync cache sb ctx p doWrite) (inodeSync cache' sb ctx p doWrite) := by
  refine .bind (.onSnd _) fun ip => .bind (.onFst (h.acquire _)) fun d => .ite ?_ (.ite ?_ ?_)
  · exact .bind (.onFst (h.sync _ _ _)) fun _ => .onFst (h.release _)
  · exact .bind (.onSnd _) fun _ => .bind (.onFst (h.release _)) fun _ => .onSnd _
  · exact .pure _

theorem inodeGet_sim (ino : Nat) : Sim (Half R) U (inodeGet cache sb ino) (inodeGet cache' sb ino) := by
  refine .bind (.assert _ _) fun _ => .bind (.assert _ _) fun _ => .bind (.onSnd _) fun found => ?_
  cases found with
  | some p => exact .bind (.onSnd _) fun _ => .pure p
  | none =>
    exact .bind (.onFst (h.acquire _)) fun _ => .bind (.assert _ _) fun _ =>
      .bind (.onSnd _) fun _ => .bind (.onFst (h.release _)) fun _ => .pure _

theorem clearDirect_sim (p i : Nat) :
    Sim (Half R) U (clearDirect cache sb ctx p i) (clearDirect cache' sb ctx p i) := by
  refine .bind (.onSnd _) fun ip => ?_
  split
  · exact .ite (.bind (.onFst (cacheFree_sim h sb ctx _)) fun _ => assignEntry_sim _ _) (.pure _)
  · exact .pure _

theorem clearEntry_sim (d : Data) (i : Nat) :
    Sim R U (clearEntry cache sb ctx d i) (clearEntry cache' sb ctx d i) :=
  .ite (cacheFree_sim h sb ctx _) (.pure _)

theorem clearIndirect_sim (p : Nat) :
    Sim (Half R) U (clearIndirect cache sb ctx p) (clearIndirect cache' sb ctx p) := by
  refine .bind (.onSnd _) fun ip => .ite ?_ (.pure _)
  exact .bind (.onFst (h.acquire _)) fun d =>
    .bind (.onFst (.forRange (clearEntry_sim h sb ctx d) _)) fun _ =>
    .bind (.onFst (h.release _)) fun _ => .bind (.onFst (cacheFree_sim h sb ctx _)) fun _ =>
    assignEntry_sim _ _

theorem inodeClear_sim (p : Nat) : Sim (Half R) U (inodeClear cache sb ctx p) (inodeClear cache' sb ctx p) :=
  .bind (.forRange (clearDirect_sim h sb ctx p) _) fun _ => .bind (clearIndirect_sim h sb ctx p) fun _ =>
    .bind (assignEntry_sim _ _) fun _ => inodeSync_sim h sb ctx p true

theorem deleteInode_sim (p ino : Nat) :
    Sim (Half R) U (deleteInode cache sb ctx p ino) (deleteInode cache' sb ctx p ino) :=
  .bind (.onSnd _) fun _ => .bind (inodeClear_sim h sb ctx p) fun _ =>
    .bind (.onFst (h.acquire _)) fun _ => .bind (.onFst (h.sync _ _ _)) fun _ =>
    .bind (.onFst (h.release _)) fun _ => .onSnd _

theorem inodePut_sim (p : Nat) : Sim (Half R) U (inodePut cache sb ctx p) (inodePut cache' sb ctx p) := by
  refine .bind (.onSnd _) fun _ => .bind (.onSnd _) fun ip => .ite (.pure _) (.ite ?_ ?_)
  · exact .bind (deleteInode_sim h sb ctx p _) fun _ => .onSnd _
  · exact .onSnd _

theorem returnEntry_sim (b k : Nat) (d : Data) (modified : Bool) :
    Sim R U (returnEntry cache ctx b k d modified) (returnEntry cache' ctx b k d modified) :=
  .bind (h.sync _ _ _) fun _ => .bind (h.release _) fun _ => .pure _

theorem mapEntry_sim (b k : Nat) : Sim R U (mapEntry cache sb ctx b k) (mapEntry cache' sb ctx b k) :=
  .bind (h.acquire _) fun _ => .ite
    (.bind (cacheAlloc_sim h sb ctx) fun _ => returnEntry_sim h ctx b k _ true) (returnEntry_sim h ctx b k _ false)

theorem inodeMap_sim (p offset : Nat) :
    Sim (Half R) U (inodeMap cache sb ctx p offset) (inodeMap cache' sb ctx p offset) := by
  refine .bind (.onSnd _) fun ip => ?_
  split
  · exact .ite (.bind (.onFst (cacheAlloc_sim h sb ctx)) fun _ => .bind (assignEntry_sim _ _) fun _ =>
      .pure _) (.pure _)
  · refine .bind (.assert _ _) fun _ => .bind (.onSnd _) fun ip => .ite ?_ ?_
    · exact .bind (.onFst (cacheAlloc_sim h sb ctx)) fun _ => .bind (assignEntry_sim _ _) fun _ =>
        .onFst (mapEntry_sim h sb ctx _ _)
    · exact .onFst (mapEntry_sim h sb ctx _ _)

omit h in
theorem consoleRead_sim (p : Nat) (count : UInt64) (con : Option (List UInt8)) :
    Sim (Half R) U (consoleRead p count con : FsM σ _) (consoleRead p count con) := by
  refine .bind (inodeUnlock_sim p) fun _ => .bind (inodeLock_sim p) fun _ => ?_
  cases con with
  | some bytes => exact .pure _
  | none => exact .ite (.pure _) (.pure _)

omit h in
theorem consoleWrite_sim (p : Nat) (count : UInt64) :
    Sim (Half R) U (consoleWrite p count : FsM σ _) (consoleWrite p count) :=
  .bind (.onSnd _) fun _ => .ite (.pure _)
    (.bind (inodeUnlock_sim p) fun _ => .bind (inodeLock_sim p) fun _ => .pure _)

theorem readLoop_sim (p fuel offset count : Nat) (acc : List UInt8) :
    Sim (Half R) U (readLoop cache sb p fuel offset count acc) (readLoop cache' sb p fuel offset count acc) := by
  induction fuel generalizing offset count acc with
  | zero => exact .pure _
  | succ fuel ih =>
    exact .ite (.bind (inodeMap_sim h sb none p offset) fun _ => .bind (.assert _ _) fun _ =>
      .bind (.onFst (h.acquire _)) fun _ => .bind (.onFst (h.release _)) fun _ => ih _ _ _) (.pure _)

theorem inodeRead_sim (p : Nat) (offset count : UInt64) (con : Option (List UInt8)) :
    Sim (Half R) U (inodeRead cache sb p offset count con) (inodeRead cache' sb p offset count con) :=
  .bind (.onSnd _) fun _ => .ite (.bind (.assert _ _) fun _ => consoleRead_sim _ _ _)
    (.bind (.assert _ _) fun _ => .bind (.assert _ _) fun _ => .bind (.assert _ _) fun _ =>
      .bind (readLoop_sim h sb p _ _ _ _) fun _ => .pure _)

theorem writeLoop_sim (p fuel offset count : Nat) (src : Nat → UInt8) :
    Sim (Half R) U (writeLoop cache sb ctx p fuel offset count src)
      (writeLoop cache' sb ctx p fuel offset count src) := by
  induction fuel generalizing offset count src with
  | zero => exact .pure _
  | succ fuel ih =>
    exact .ite (.bind (inodeMap_sim h sb ctx p offset) fun _ => .bind (.onFst (h.acquire _)) fun _ =>
      .bind (.onFst (h.sync _ _ _)) fun _ => .bind (.onFst (h.release _)) fun _ => ih _ _ _) (.pure _)

theorem inodeWrite_sim (p : Nat) (src : Nat → UInt8) (offset count : UInt64) :
    Sim (Half R) U (inodeWrite cache sb ctx p src offset count) (inodeWrite cache' sb ctx p src offset count) :=
  .bind (.onSnd _) fun _ => .ite (.bind (.assert _ _) fun _ => consoleWrite_sim _ _)
    (.bind (.assert _ _) fun _ => .bind (.assert _ _) fun _ => .bind (.assert _ _) fun _ =>
      .bind (writeLoop_sim h sb ctx p _ _ _ _) fun _ => .bind (assignEntry_sim _ _) fun _ =>
      .bind (inodeSync_sim h sb ctx p true) fun _ => .pure _)

end

end Armv8Os.Fs
