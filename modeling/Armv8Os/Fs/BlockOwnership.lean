/-
  WHO OWNS WHICH BLOCK, in every run of the inode layer over the block cache.

  1. **The calls.** `Call` is what a client of `inode.c` may do: allocate, look up, share, lock, unlock, set the
     number of links, write, clear and put inodes, in operations it begins and ends, or with `NULL`.
  2. **The array.** Every call keeps `FsInv` and fails neither with the `PANIC()` of `cache_free` nor in a way
     that the array does not describe (`Call.keeps`).
  3. **The cache.** `Sound` says that the cache stands for an array with `FsInv`.  By the refinement every
     call keeps it (`Call.keepsSound`), and `run_invariant_all` carries it along a run.

  `BlocksOwned` is the result in terms of the disk contents: slots and bitmap agree, in both directions.
-/
import Armv8Os.Lib.Transition
import Armv8Os.Fs.InodeLife
import Armv8Os.Fs.InodeRefine

namespace Armv8Os.Fs.Blocks

open Prog Simulation Transition Option Mem

/-! ## The calls -/

/-- A call of the inode layer.  Inodes are named by pointers, `ctx = none` is `NULL`. -/
inductive Call where
  | alloc (ctx : Option Nat) (type : InodeType)
  | get (ino : Nat)
  | share (p : Nat)
  | lock (p : Nat)
  | unlock (p : Nat)
  | link (ctx : Option Nat) (p : Nat) (n : UInt16)
  | write (ctx : Option Nat) (p : Nat) (src : Nat → UInt8) (offset count : UInt64)
  | clear (ctx : Option Nat) (p : Nat)
  | put (ctx : Option Nat) (p : Nat)
  | beginOp (c : Nat)
  | endOp (c : Nat)

/-- What the call runs. -/
def Call.prog {σ : Type} (cache : BlockCache σ) (sb : SuperBlock) : Call → FsM σ Unit
  | .alloc ctx type => do
    let _ ← inodeAlloc cache sb ctx type
    pure ()
  | .get ino => do
    let _ ← inodeGet cache sb ino
    pure ()
  | .share p => do
    let _ ← inodeShare p
    pure ()
  | .lock p => inodeLock p
  | .unlock p => inodeUnlock p
  | .link ctx p n => do
    assignEntry p fun e => { e with numLinks := n }
    inodeSync cache sb ctx p true
  | .write ctx p src offset count => do
    let _ ← inodeWrite cache sb ctx p src offset count
    pure ()
  | .clear ctx p => inodeClear cache sb ctx p
  | .put ctx p => inodePut cache sb ctx p
  | .beginOp c => onFst (cache.beginOp c)
  | .endOp c => do
    let _ ← onFst (cache.endOp c)
    pure ()

theorem Call.prog_sim {σ τ : Type} {R : σ → τ → Prop} {U : Stop → Prop} {cache : BlockCache σ}
    {cache' : BlockCache τ} (h : CacheSim R U cache cache') (sb : SuperBlock) (call : Call) :
    Sim (Half R) U (call.prog cache sb) (call.prog cache' sb) := by
  cases call with
  | alloc ctx type => exact .bind (inodeAlloc_sim h sb ctx type) fun _ => .pure _
  | get ino => exact .bind (inodeGet_sim h sb ino) fun _ => .pure _
  | share p => exact .bind (inodeShare_sim p) fun _ => .pure _
  | lock p => exact inodeLock_sim p
  | unlock p => exact inodeUnlock_sim p
  | link ctx p n => exact .bind (assignEntry_sim _ _) fun _ => inodeSync_sim h sb ctx p true
  | write ctx p src offset count => exact .bind (inodeWrite_sim h sb ctx p src offset count) fun _ => .pure _
  | clear ctx p => exact inodeClear_sim h sb ctx p
  | put ctx p => exact inodePut_sim h sb ctx p
  | beginOp c => exact .onFst (h.beginOp c)
  | endOp c => exact .bind (.onFst (h.endOp c)) fun _ => .pure _

/-! ## On the array -/

/-- A failure that is neither the `PANIC()` of `cache_free` nor one the array does not describe. -/
def Harmless (e : Stop) : Prop := e ≠ .fault ∧ e ≠ .badFree

theorem tolerates (ctx : Option Nat) (s : Store) : Tolerates Harmless ctx s :=
  ⟨by unfold Harmless; decide, by unfold Harmless; decide, Or.inr (by unfold Harmless; decide)⟩

theorem harmless_panic : Harmless .panic := by unfold Harmless; decide
theorem harmless_sleeps : Harmless .sleeps := by unfold Harmless; decide
theorem harmless_dangling : Harmless .dangling := by unfold Harmless; decide

section Keeps

variable {sb : SuperBlock} (hl : DiskLayout sb) {s : Store} {m : Mem} (h : FsInv sb s m)

/-- The invariant as a postcondition. -/
abbrev Post (sb : SuperBlock) {α : Type} (_ : α) (st : Store × Mem) : Prop := FsInv sb st.1 st.2

variable {p : Nat}

theorem deref_none {α : Type} {Q : α → Store × Mem → Prop} {f : Inode → FsM Store α}
    (hp : m.heap p = none) : wp (onSnd (Mem.deref p) >>= f) Q Harmless (s, m) := by
  rw [wp_bind, wp_onSnd]
  unfold wp deref
  rw [hp]
  exact harmless_dangling

theorem assign_none {α : Type} {Q : α → Store × Mem → Prop} {g : Inode → Inode}
    {f : Unit → FsM Store α} (hp : m.heap p = none) :
    wp (onSnd (Mem.assign p g) >>= f) Q Harmless (s, m) := by
  rw [wp_bind, wp_onSnd]
  unfold wp assign
  rw [hp]
  exact harmless_dangling

include h

/-- Fields that are not on the disk may change. -/
theorem touch {m' : Mem} {ip ip' : Inode} (hp : m.heap p = some ip)
    (hheap : m'.heap = Function.update m.heap p (some ip')) (hhead : m'.head = m.head) (hnext : m'.next = m.next)
    (hino : ip'.inodeNo = ip.inodeNo) (hvalid : ip'.valid = ip.valid) (hentry : ip'.entry = ip.entry) :
    FsInv sb s m' :=
  h.update hp hnext (fun _ _ _ => rfl) h.free h.good hheap hhead hino (hvalid.trans (h.valid p ip hp))
    ((h.entry p ip hp).symm.trans hentry.symm) (by rw [hentry, h.entry p ip hp]; exact (h.allocated p ip hp).2.2)

theorem lock_keeps (p : Nat) : wp (inodeLock p) (Post sb) Harmless (s, m) := by
  unfold inodeLock
  cases hp : m.heap p with
  | none => exact deref_none hp
  | some ip =>
    rw [wp_bind, wp_onSnd]
    refine wp_deref hp ?_
    rw [wp_bind, wp_assert]
    refine ⟨fun _ => ?_, fun _ => harmless_panic⟩
    rw [wp_onSnd]
    exact wp_waitLock hp (fun _ => harmless_sleeps) fun _ => touch h hp rfl rfl rfl rfl rfl rfl

theorem unlock_keeps (p : Nat) : wp (inodeUnlock p) (Post sb) Harmless (s, m) := by
  unfold inodeUnlock
  cases hp : m.heap p with
  | none => exact deref_none hp
  | some ip =>
    rw [wp_bind, wp_onSnd]
    refine wp_deref hp ?_
    rw [wp_bind, wp_assert]
    refine ⟨fun _ => ?_, fun _ => harmless_panic⟩
    rw [wp_onSnd]
    unfold wp postLock
    rw [hp]
    dsimp only
    cases Sem.postSem ip.lock with
    | none => exact harmless_panic
    | some r => exact touch h hp rfl rfl rfl rfl rfl rfl

theorem share_keeps (p : Nat) : wp (inodeShare p) (Post sb) Harmless (s, m) := by
  unfold inodeShare
  cases hp : m.heap p with
  | none => exact assign_none hp
  | some ip =>
    rw [wp_bind, wp_onSnd]
    refine wp_assign hp ?_
    exact touch h hp rfl rfl rfl rfl rfl rfl

/-- On a device only the lock changes hands. -/
theorem consoleWrite_keeps (p : Nat) (count : UInt64) : wp (consoleWrite p count) (Post sb) Harmless (s, m) := by
  unfold consoleWrite
  cases hp : m.heap p with
  | none => exact deref_none hp
  | some ip =>
    rw [wp_bind, wp_onSnd]
    refine wp_deref hp ?_
    split
    · exact h
    · rw [wp_bind]
      refine wp_imp (unlock_keeps h p) (fun _ st h1 => ?_)
      rw [wp_bind]
      exact wp_imp (lock_keeps h1 p) (fun _ _ h2 => h2)

include hl

theorem link_keeps (ctx : Option Nat) (p : Nat) (n : UInt16) :
    wp (Call.prog (store sb) sb (.link ctx p n)) (Post sb) Harmless (s, m) := by
  show wp (assignEntry p _ >>= fun _ => inodeSync (store sb) sb ctx p true) _ _ _
  cases hp : m.heap p with
  | none => exact assign_none hp
  | some ip =>
    have ha := h.allocated p ip hp
    rw [wp_bind]
    refine wp_assignEntry hp ?_
    refine wp_inodeSync hl (heap_write_self ..) (h.valid p ip hp) h.free (tolerates ..)
      fun s' hs' hheld hops => ?_
    have hents : entryAt sb s'.blocks = entsWith sb s.blocks ip.inodeNo { ip.entry with numLinks := n } := by
      rw [hs']
      exact entryAt_synced ..
    refine h.update hp rfl (fun i _ hne => ?_) hheld ?_ rfl rfl rfl (h.valid p ip hp) ?_ ?_
    · rw [hents, entsWith_of_ne _ _ hne]
    · exact Good.synced hl (e := { ip.entry with numLinks := n }) ((h.goodWith hp).fields hl rfl rfl rfl) ha.2.1 hs'
    · rw [hents, entsWith_self]
    · show ip.entry.type ≠ _
      rw [h.entry p ip hp]
      exact ha.2.2

theorem write_keeps (ctx : Option Nat) (p : Nat) (src : Nat → UInt8) (offset count : UInt64) :
    wp (inodeWrite (store sb) sb ctx p src offset count) (Post sb) Harmless (s, m) := by
  cases hp : m.heap p with
  | none => exact deref_none hp
  | some ip =>
    by_cases hdev : ip.entry.type = inodeDevice
    · unfold inodeWrite
      rw [wp_bind, wp_onSnd]
      refine wp_deref hp ?_
      rw [if_pos hdev, wp_bind, wp_assert]
      exact ⟨fun _ => consoleWrite_keeps h p count, fun _ => harmless_panic⟩
    · refine wp_inodeWrite hl hp hdev (h.valid p ip hp) (h.goodWith hp) (h.self hp) h.free (tolerates ..)
        (fun _ => harmless_panic) fun s' e' hw hheld _ => ?_
      refine h.update hp rfl hw.entries hheld hw.good rfl rfl rfl (h.valid p ip hp) hw.entry ?_
      show e'.type ≠ _
      rw [hw.type, h.entry p ip hp]
      exact (h.allocated p ip hp).2.2

theorem clear_keeps (ctx : Option Nat) (p : Nat) :
    wp (inodeClear (store sb) sb ctx p) (Post sb) Harmless (s, m) := by
  cases hp : m.heap p with
  | none =>
    -- the first round of the first loop follows the pointer
    have hdir : wp (clearDirect (store sb) sb ctx p 0) (fun _ _ => False) Harmless (s, m) := deref_none hp
    unfold inodeClear
    rw [wp_bind]
    show wp (clearDirect (store sb) sb ctx p 0 >>= _) _ _ _
    rw [wp_bind]
    exact wp_imp hdir (fun _ _ hf => hf.elim)
  | some ip =>
    refine wp_inodeClear hl hp (h.valid p ip hp) (h.goodWith hp) (h.self hp) h.free (tolerates ..) fun s' hc => ?_
    refine h.update hp rfl hc.entries hc.held hc.good rfl rfl rfl (h.valid p ip hp) hc.entry ?_
    show ip.entry.type ≠ _
    rw [h.entry p ip hp]
    exact (h.allocated p ip hp).2.2

theorem put_keeps (ctx : Option Nat) (p : Nat) : wp (inodePut (store sb) sb ctx p) (Post sb) Harmless (s, m) := by
  cases hp : m.heap p with
  | none => exact assign_none hp
  | some ip =>
    refine wp_inodePut hl hp (h.valid p ip hp) (h.goodWith hp) (h.self hp) h.free (tolerates ..)
      (fun _ _ _ => harmless_sleeps) (fun _ => ?_) (fun _ _ => ?_) fun _ _ s' hd => ?_
    · exact touch h hp rfl rfl rfl rfl rfl rfl
    · exact h.forget hp rfl (fun _ _ _ => rfl) h.free h.good rfl rfl
    · exact h.forget hp rfl hd.entries hd.held hd.good rfl rfl

/-- **Every call keeps the invariant.** A context is begun only if it is not in use. -/
theorem Call.keeps (call : Call) (hproper : ∀ c, call = .beginOp c → s.op c = none) :
    wp (call.prog (store sb) sb) (Post sb) Harmless (s, m) := by
  -- the log is not a part of the invariant
  have hlog : ∀ log header ops, FsInv sb { s with log := log, header := header, ops := ops } m := fun _ _ _ =>
    ⟨h.free, h.good, h.listed, h.nodup, h.fresh, h.valid, h.allocated, h.entry, h.unique⟩
  cases call with
  | alloc ctx type =>
    show wp (inodeAlloc (store sb) sb ctx type >>= _) _ _ _
    rw [wp_bind]
    exact wp_inodeAlloc hl h.good h.free (tolerates ..) harmless_panic fun _ ino s' hb => h.born hb
  | get ino =>
    show wp (inodeGet (store sb) sb ino >>= _) _ _ _
    rw [wp_bind]
    refine wp_inodeGet hl h.free (fun _ => harmless_panic) (fun p ip _ hp _ => ?_) fun ha hnew => h.load ha hnew
    exact touch h hp rfl rfl rfl rfl rfl rfl
  | share p =>
    show wp (inodeShare p >>= _) _ _ _
    rw [wp_bind]
    exact share_keeps h p
  | lock p => exact lock_keeps h p
  | unlock p => exact unlock_keeps h p
  | link ctx p n => exact link_keeps hl h ctx p n
  | write ctx p src offset count =>
    show wp (inodeWrite (store sb) sb ctx p src offset count >>= _) _ _ _
    rw [wp_bind]
    exact write_keeps hl h ctx p src offset count
  | clear ctx p => exact clear_keeps hl h ctx p
  | put ctx p => exact put_keeps hl h ctx p
  | beginOp c =>
    show wp (onFst (Store.beginOp sb c)) _ _ _
    rw [wp_onFst]
    unfold wp Store.beginOp
    rw [hproper c rfl]
    by_cases hb : beginBlocked sb s.log
    · simp only [isSome_none, Bool.false_eq_true, if_false, if_pos hb]
      exact harmless_sleeps
    · simp only [isSome_none, Bool.false_eq_true, if_false, if_neg hb]
      exact hlog ..
  | endOp c =>
    show wp (onFst (Store.endOp c) >>= _) _ _ _
    rw [wp_bind, wp_onFst]
    unfold wp Store.endOp
    cases hop : s.op c with
    | none => simp only; unfold Harmless; decide
    | some op =>
      by_cases hlast : (endSection s.log op.rm).outstanding = 0
      · simp only [if_pos hlast, if_pos h.free]
        exact hlog ..
      · simp only [if_neg hlast]
        exact hlog ..

end Keeps

/-! ## On the disk -/

/-- The slots of the allocated inodes and the bitmap agree: what a slot refers to is referred to once, marked
    and below the swap area, and every data block that is marked is in exactly one slot. -/
structure BlocksOwned (sb : SuperBlock) (blocks : Nat → Data) : Prop where
  once : ∀ i j, refOf sb (entryAt sb blocks) blocks i ≠ 0 →
    refOf sb (entryAt sb blocks) blocks j = refOf sb (entryAt sb blocks) blocks i → j = i
  marked : ∀ i, refOf sb (entryAt sb blocks) blocks i ≠ 0 →
    bitAt sb blocks (refOf sb (entryAt sb blocks) blocks i) = true
  belowSwap : ∀ i, refOf sb (entryAt sb blocks) blocks i ≠ 0 →
    refOf sb (entryAt sb blocks) blocks i < sb.numBlocks.toNat - swapBlockNum
  noLeak : ∀ b, dataStart sb ≤ b → b < sb.numBlocks.toNat → bitAt sb blocks b = true →
    ∃! i, refOf sb (entryAt sb blocks) blocks i = b

/-- An image as `mkfs` makes it: in addition the blocks in front of the data area are marked, and no slot
    refers to one of them. -/
structure Image (sb : SuperBlock) (blocks : Nat → Data) : Prop where
  owned : BlocksOwned sb blocks
  reserved : ∀ b < dataStart sb, bitAt sb blocks b = true
  inData : ∀ i, refOf sb (entryAt sb blocks) blocks i ≠ 0 → dataStart sb ≤ refOf sb (entryAt sb blocks) blocks i

section Disk

variable {sb : SuperBlock} (hl : DiskLayout sb)

include hl

variable {blocks : Nat → Data}

theorem Image.good (h : Image sb blocks) : Good sb (entryAt sb blocks) blocks := by
  have hlimit := allocLimit_eq hl
  have hareas := areas_lt hl
  refine ⟨⟨fun b hb => ?_, fun i j hi he => (h.owned.once i j hi he.symm).symm, fun i hi => ?_, h.owned.marked,
    fun b hb hm => ?_⟩, h.reserved, fun b hdata hlo hhi => ?_⟩
  · have := hb.1
    omega
  · exact ⟨h.inData i hi, by rw [hlimit]; exact h.owned.belowSwap i hi⟩
  · exact (h.owned.noLeak b hb.1 (DataBlock.lt_numBlocks hl hb) hm).exists
  · -- a marked block of the swap area would be in a slot
    by_contra hm
    obtain ⟨i, hi⟩ := (h.owned.noLeak b hdata hhi (by simpa using hm)).exists
    have := h.owned.belowSwap i (by rw [hi]; omega)
    omega

theorem owned_of_good (h : Good sb (entryAt sb blocks) blocks) : BlocksOwned sb blocks := by
  refine ⟨fun i j hi he => (h.owned.inj i j hi he.symm).symm, h.owned.marked, fun i hi => ?_,
    fun b hlo hhi hm => ?_⟩
  · rw [← allocLimit_eq hl]
    exact (h.owned.area i hi).2
  · have hA : DataBlock sb b := by
      refine ⟨hlo, Nat.lt_of_not_le fun hle => ?_⟩
      rw [h.swapClear b hlo hle hhi] at hm
      cases hm
    obtain ⟨i, hi⟩ := h.owned.total b hA hm
    refine ⟨i, hi, fun j hj => (h.owned.inj i j ?_ (hi.trans hj.symm)).symm⟩
    rw [hi]
    exact h.owned.pos b hA

/-- What the inode layer sees is outside the log. -/
theorem Good.view {B B' : Nat → Data} (hsame : ∀ b, ¬ Cache.InLog sb b → B' b = B b)
    (hg : Good sb (entryAt sb B) B) : Good sb (entryAt sb B') B' := by
  have hent : entryAt sb B' = entryAt sb B := by
    funext i
    unfold entryAt
    rw [hsame _ (not_inLog_inode hl i)]
  rw [hent]
  refine Ledger.congr hl hg (refOf_congr (fun _ => Iff.rfl) fun i ha sl => ?_) fun b _ => ?_
  · exact slotRef_congr (fun hz => hsame _ (not_inLog_data hl (hg.indirect ha hz).1.1)) sl
  · unfold bitAt
    rw [hsame _ (not_inLog_bitmap hl b)]

theorem image_of_good (h : Good sb (entryAt sb blocks) blocks) : Image sb blocks :=
  ⟨owned_of_good hl h, h.reserved, fun i hi => (h.owned.area i hi).1⟩

/-- Booting on a disk with an empty log leaves an image what it is. -/
theorem Image.booted {dev : Nat → Data} {s₀ : Cache.State} (h : Image sb dev)
    (hboot : Cache.initBcache sb dev = .ok s₀) (hempty : (Cache.diskHeader sb dev).numBlocks = 0) :
    Image sb s₀.dev := by
  have hfits := logFits_of_layout hl
  refine image_of_good hl (Good.view hl (fun b hb => ?_) (h.good hl))
  exact Cache.initBcache_empty hfits hempty hboot fun he => hb (he ▸ Cache.inLog_logStart hfits)

end Disk

/-! ## On the block cache -/

/-- The cache stands for an array in which the invariant holds. -/
def Sound (sb : SuperBlock) (s : Cache.State × Mem) : Prop := ∃ t, Abs sb s.1 t ∧ FsInv sb t s.2

/-- A context is begun only if it is not in use. -/
def Proper (s : Cache.State × Mem) : Call → Bool
  | .beginOp c => (s.1.op c).isNone
  | _ => true

/-- One call, `none` if it does not return. -/
def step (sb : SuperBlock) (s : Cache.State × Mem) (call : Call) : Option (Cache.State × Mem) :=
  if Proper s call then exec (call.prog (bcache sb) sb) s else none

/-- The memory of the inode layer before the first call. -/
def noInodes : Mem := { heap := fun _ => none, head := [], next := 0, lockLog := [] }

section Runs

variable {sb : SuperBlock} (hl : DiskLayout sb) {s : Cache.State × Mem}

include hl

theorem Call.keepsSound (h : Sound sb s) {call : Call} (hp : Proper s call = true) :
    wp (call.prog (bcache sb) sb) (fun _ s' => Sound sb s') Harmless s := by
  obtain ⟨t, habs, hinv⟩ := h
  have hsim := Call.prog_sim (bcache_refines_store (logFits_of_layout hl)) sb call
  have hkeep := Call.keeps hl hinv call fun c hc => by
    subst hc
    rw [habs.op c]
    exact isNone_iff_eq_none.mp hp
  refine wp_imp (hsim.wp (s := s) (t := (t, s.2)) ⟨habs, rfl⟩ hkeep fun e he hok => hok.1 he) ?_
  rintro _ s' ⟨t', ⟨habs', hmem⟩, hinv'⟩
  exact ⟨t'.1, habs', hmem ▸ hinv'⟩

theorem step_sound (h : Sound sb s) {call : Call} {s' : Cache.State × Mem} (hs : step sb s call = some s') :
    Sound sb s' := by
  obtain ⟨hp, hs⟩ := ite_none_right_eq_some.mp hs
  exact of_wp_exec (Call.keepsSound hl h hp) hs

variable {dev : Nat → Data}

/-- Nothing is in memory after booting. -/
theorem boot_sound {s₀ : Cache.State} (hboot : Cache.initBcache sb dev = .ok s₀)
    (himage : Image sb s₀.dev) : Sound sb (s₀, noInodes) := by
  have hfits := logFits_of_layout hl
  have href := Cache.booted_refines hfits (Cache.booted_of_initBcache hboot)
  refine ⟨{ blocks := s₀.dev, held := [], log := s₀.log, header := s₀.header, ops := s₀.ops },
    Refines.abs href rfl rfl rfl rfl, rfl, himage.good hl, fun p => ?_, List.nodup_nil, ?_, ?_, ?_, ?_, ?_⟩
  · exact ⟨fun hp => (List.not_mem_nil hp).elim, fun hp => by cases hp⟩
  · intro p hp; cases hp
  · intro p ip hp; cases hp
  · intro p ip hp; cases hp
  · intro p ip hp; cases hp
  · intro p q ip iq hp; cases hp

/-- Booting on an image with an empty log, down to the array behind the cache. -/
theorem boot_image (himage : Image sb dev) (hempty : (Cache.diskHeader sb dev).numBlocks = 0) :
    ∃ s₀ t, Cache.initBcache sb dev = .ok s₀ ∧ Abs sb s₀ t ∧ FsInv sb t noInodes ∧
      ∀ b, ¬ Cache.InLog sb b → t.blocks b = dev b := by
  have hfits := logFits_of_layout hl
  obtain ⟨s₀, hboot, _, _⟩ := Cache.initBcache_replays hfits (d := dev)
    (by rw [hempty]; exact Nat.zero_le _) (by
      rw [LogHeader.recorded_of_numBlocks hempty]
      intro b hb
      cases hb)
  obtain ⟨t, habs, hinv⟩ := boot_sound hl hboot (himage.booted hl hboot hempty)
  refine ⟨s₀, t, hboot, habs, hinv, fun b hb => ?_⟩
  have hstart : b ≠ sb.logStart.toNat := fun he => hb (he ▸ Cache.inLog_logStart hfits)
  rw [← habs.value b hb, ← Cache.initBcache_empty hfits hempty hboot hstart]
  exact ((Cache.booted_of_initBcache hboot).coh b hstart).cur

/-- **Block ownership.** From an image in which slots and bitmap agree, whatever calls return, they agree after
    each of them; and no call, whether it returns or not, runs into the `PANIC()` of `cache_free`. -/
theorem block_ownership {dev : Nat → Data} {s₀ : Cache.State} (hboot : Cache.initBcache sb dev = .ok s₀)
    (himage : Image sb s₀.dev) {calls : List Call} {s : Cache.State × Mem}
    (hrun : run (step sb) (s₀, noInodes) calls = some s) :
    BlocksOwned sb s.1.cur ∧
      ∀ call, Proper s call = true → call.prog (bcache sb) sb s ≠ .error .badFree := by
  have h := run_invariant_all (fun _ _ _ hI hs => step_sound hl hI hs) calls _ s (boot_sound hl hboot himage) hrun
  refine ⟨?_, fun call hp he => ?_⟩
  · obtain ⟨t, habs, hinv⟩ := h
    exact owned_of_good hl (Good.view hl (fun b hb => habs.value b hb) hinv.good)
  · exact (of_wp_error (Call.keepsSound hl h hp) he).2 rfl

end Runs

/-! ## A small disk -/

/-- The root directory, with its entries in block `100`. -/
def rootEntry : InodeEntry :=
  { type := inodeDirectory, major := 0, minor := 0, numLinks := 1, numBytes := 32,
    addrs := fun i => if i = 0 then 100 else 0, indirect := 0 }

/-- Its entries `.` and `..`. -/
def rootBlock : Data := fun i =>
  if i.val = 0 ∨ i.val = 16 then 1 else if i.val = 2 ∨ i.val = 18 ∨ i.val = 19 then 46 else 0

/-- The bitmap of a disk whose first 101 blocks are in use. -/
def rootBitmap : Data := fun i => if i.val < 12 then 255 else if i.val = 12 then 31 else 0

/-- A disk with nothing on it but the root directory. -/
def rootDisk (b : Nat) : Data :=
  if b = 65 then writeEntry Bytes.zero 1 rootEntry
  else if b = 91 then rootBitmap
  else if b = 100 then rootBlock
  else Bytes.zero

theorem layout_rootDisk : DiskLayout (logDisk 63) := ⟨by decide, by decide, by decide, by decide, by decide⟩

theorem entryAt_rootDisk {ino : Nat} (h : ino < 200) :
    entryAt (logDisk 63) rootDisk ino = if ino = 1 then rootEntry else InodeEntry.zero := by
  have hblock : inodeBlock (logDisk 63) ino = 65 + ino / 8 := rfl
  unfold entryAt
  rw [hblock]
  by_cases hlow : ino / 8 = 0
  · rw [hlow]
    show readEntry (writeEntry Bytes.zero 1 rootEntry) (ino % 8) = _
    by_cases hone : ino = 1
    · rw [if_pos hone, hone]
      exact readEntry_writeEntry _ (by decide) _
    · rw [if_neg hone, readEntry_writeEntry_of_ne _ (by omega), readEntry_zero]
  · unfold rootDisk
    rw [if_neg (by omega), if_neg (by omega), if_neg (by omega), if_neg (by omega), readEntry_zero]

theorem refOf_rootDisk (i : Nat × Slot) :
    refOf (logDisk 63) (entryAt (logDisk 63) rootDisk) rootDisk i = if i = (1, .direct 0) then 100 else 0 := by
  obtain ⟨ino, sl⟩ := i
  unfold refOf
  by_cases ha : Allocated (logDisk 63) (entryAt (logDisk 63) rootDisk) ino
  · have hlt : ino < 200 := ha.2.1
    have htype := ha.2.2
    have hent := entryAt_rootDisk hlt
    -- only the root is in use
    have hone : ino = 1 := by
      by_contra hne
      rw [hent, if_neg hne] at htype
      exact htype rfl
    subst hone
    rw [if_pos ha, hent, if_pos rfl]
    cases sl with
    | indirect => rfl
    | entry j => exact slotRef_entry_of_zero rfl ..
    | direct j =>
      by_cases hj : j = 0
      · subst hj
        rfl
      · rw [if_neg (fun he => hj (Slot.direct.inj (Prod.ext_iff.mp he).2))]
        show ((if j = 0 then 100 else 0 : UInt32)).toNat = 0
        rw [if_neg hj]
        rfl
  · rw [if_neg ha, if_neg]
    intro he
    obtain rfl : ino = 1 := (Prod.ext_iff.mp he).1
    exact ha ⟨by decide, by decide, by rw [entryAt_rootDisk (by decide)]; decide⟩

theorem bitAt_rootDisk {b : Nat} (h : b < 1000) : bitAt (logDisk 63) rootDisk b = decide (b < 101) := by
  have hall : ∀ b : Fin 1000, bitAt (logDisk 63) rootDisk b = decide (b.val < 101) := by decide +kernel
  exact hall ⟨b, h⟩

theorem image_rootDisk : Image (logDisk 63) rootDisk := by
  have href : ∀ i, refOf (logDisk 63) (entryAt (logDisk 63) rootDisk) rootDisk i ≠ 0 → i = (1, .direct 0) := by
    intro i hi
    by_contra hne
    rw [refOf_rootDisk, if_neg hne] at hi
    exact hi rfl
  have hself : refOf (logDisk 63) (entryAt (logDisk 63) rootDisk) rootDisk (1, .direct 0) = 100 := by
    rw [refOf_rootDisk, if_pos rfl]
  refine ⟨⟨fun i j hi he => ?_, fun i hi => ?_, fun i hi => ?_, fun b hlo hhi hm => ?_⟩, fun b hb => ?_,
    fun i hi => ?_⟩
  · rw [href i hi, href j (by rw [he]; exact hi)]
  · rw [href i hi, hself, bitAt_rootDisk (by decide)]
    rfl
  · rw [href i hi, hself]
    decide
  · have hlo' : 100 ≤ b := hlo
    have hhi' : b < 1000 := hhi
    rw [bitAt_rootDisk hhi'] at hm
    obtain rfl : b = 100 := by
      have := of_decide_eq_true hm
      omega
    refine ⟨(1, .direct 0), hself, fun j hj => href j ?_⟩
    show refOf _ _ _ j ≠ 0
    rw [hj]
    decide
  · have hb' : b < 100 := hb
    rw [bitAt_rootDisk (by omega)]
    exact decide_eq_true (by omega)
  · rw [href i hi, hself]
    decide

/-- A file is created, written over two blocks, cleared and written again. -/
def aFileLives : List Call :=
  [.beginOp 7, .alloc (some 7) inodeRegular, .get 2, .write (some 7) 0 (fun _ => 5) 0 600, .endOp 7,
    .clear none 0, .write none 0 (fun _ => 6) 0 1]

theorem block_ownership_aFileLives : ∃ s₀ s, Cache.initBcache (logDisk 63) rootDisk = .ok s₀ ∧
    run (step (logDisk 63)) (s₀, noInodes) aFileLives = some s ∧
    (s.2.heap 0).map (fun ip => (ip.entry.addrs 0, ip.entry.addrs 1)) = some (101, 0) ∧
    BlocksOwned (logDisk 63) s.1.cur := by
  have hview : ((Cache.initBcache (logDisk 63) rootDisk).toOption.bind fun s₀ =>
      run (step (logDisk 63)) (s₀, noInodes) aFileLives).map
        (fun s => (s.2.heap 0).map fun ip => (ip.entry.addrs 0, ip.entry.addrs 1)) = some (some (101, 0)) := by
    decide +kernel
  obtain ⟨s, hs, hslots⟩ := map_eq_some_iff.mp hview
  obtain ⟨s₀, hs0, hrun⟩ := bind_eq_some_iff.mp hs
  have hboot := toOption_eq_some.mp hs0
  have himage := image_rootDisk.booted layout_rootDisk hboot (by decide +kernel)
  exact ⟨s₀, s, hboot, hrun, hslots, (block_ownership layout_rootDisk hboot himage hrun).1⟩

end Armv8Os.Fs.Blocks
