/-
  `BlockCache`: the table of functions through which `inode.c` reaches the block cache, and
  `cache_alloc` and `cache_free`, which `cache.c` builds from them.

  Everything above this interface is written for an arbitrary implementation `cache : BlockCache σ`.
  Two are defined here:
  * `bcache sb` — the block cache of `Fs.Cache`: a list of blocks, a log, a device;
  * `store sb`  — a flat array of blocks with the accounting of the log and nothing else.

  In the source a caller writes into `block->data` and then calls `sync`.  Here `acquire` hands out the
  data and `sync ctx b d` takes the changed data back; no caller of the source releases a block it has
  changed and not synced.

  `Abs` relates the two implementations, and `bcache_refines_store` says that every operation of the
  cache does what the array does.  The array gives up (`fault`) on a block of the log, which no caller asks
  for; about such a call nothing is said.
-/
import Armv8Os.Lib.Simulation
import Armv8Os.Fs.CacheRefine
import Armv8Os.Fs.Ondisk

namespace Armv8Os.Fs

open Prog
open Function (update update_of_ne update_self)

/-! ## The interface -/

/-- `BlockCache`. -/
structure BlockCache (σ : Type) where
  acquire : Nat → Prog Stop σ Data
  sync : Option Nat → Nat → Data → Prog Stop σ Unit
  release : Nat → Prog Stop σ Unit
  beginOp : Nat → Prog Stop σ Unit
  endOp : Nat → Prog Stop σ Bool

section Alloc

variable {σ : Type} (cache : BlockCache σ) (sb : SuperBlock) (ctx : Option Nat)

/-- The inner loop of `cache_alloc`: the first clear bit below `n`. -/
def freeBit (d : Data) (n : Nat) : Option Nat := (List.range n).find? fun j => !d.hasBit j

/-- The outer loop of `cache_alloc`, over the numbers of the bitmap blocks. -/
def allocFrom : List Nat → Prog Stop σ Nat
  | [] => throw .noSpace
  | k :: ks => do
    let i := k * bitPerBlock
    let bp ← cache.acquire (bitmapBlock sb i)
    match freeBit bp (min bitPerBlock (allocLimit sb - i)) with
    | some j => do
      cache.sync ctx (bitmapBlock sb i) (bp.setBit j)
      cache.release (bitmapBlock sb i)
      let _ ← cache.acquire (i + j)
      cache.sync ctx (i + j) Bytes.zero
      cache.release (i + j)
      pure (i + j)
    | none => do
      cache.release (bitmapBlock sb i)
      allocFrom ks

/-- `cache_alloc`. -/
def cacheAlloc : Prog Stop σ Nat :=
  allocFrom cache sb ctx (List.range ((sb.numBlocks.toNat + bitPerBlock - 1) / bitPerBlock))

/-- `cache_free`. -/
def cacheFree (b : Nat) : Prog Stop σ Unit := do
  let bp ← cache.acquire (bitmapBlock sb b)
  Prog.assert .badFree (bp.hasBit (b % bitPerBlock))
  cache.sync ctx (bitmapBlock sb b) (bp.clearBit (b % bitPerBlock))
  cache.release (bitmapBlock sb b)

end Alloc

/-! ## The block cache -/

/-- The block cache of `Fs.Cache` behind the interface. -/
def bcache (sb : SuperBlock) : BlockCache Cache.State where
  acquire b := do
    let blk ← Cache.cacheAcquire b
    pure blk.data
  sync ctx b d := do
    Cache.assign b fun blk => { blk with data := d }
    Cache.cacheSync ctx b
  release := Cache.cacheRelease
  beginOp := Cache.cacheBeginOp sb
  endOp := Cache.cacheEndOp sb

/-! ## The array -/

/-- A flat array of blocks, which of them are held, and the state of the log. -/
structure Store where
  blocks : Nat → Data
  held : List Nat
  log : Log
  header : LogHeader
  ops : List Op

/-- The operation of a context. -/
def Store.op (s : Store) (c : Nat) : Option Op := Keyed.lookup Op.id s.ops c

/-- Replace a block. -/
def Store.put (s : Store) (b : Nat) (d : Data) : Store := { s with blocks := update s.blocks b d }

/-- `acquire` on the array. -/
def Store.acquire (sb : SuperBlock) (b : Nat) : Prog Stop Store Data := fun s =>
  if Cache.InLog sb b then .error .fault
  else if b ∈ s.held then .error .sleeps
  else .ok (s.blocks b, { s with held := b :: s.held })

/-- `sync` on the array. -/
def Store.sync (ctx : Option Nat) (b : Nat) (d : Data) : Prog Stop Store Unit := fun s =>
  if b ∈ s.held then
    match ctx with
    | none => .ok ((), s.put b d)
    | some c =>
      match s.op c with
      | none => .error .noOp
      | some op =>
        match syncSection s.header op.rm b with
        | none => .error .noBudget
        | some (header, rm) => .ok ((), { s.put b d with header := header, ops := Cache.setRm c rm s.ops })
  else .error .fault

/-- `release` on the array. -/
def Store.release (b : Nat) : Prog Stop Store Unit := fun s =>
  if b ∈ s.held then .ok ((), { s with held := s.held.erase b }) else .error .fault

/-- `begin_op` on the array. -/
def Store.beginOp (sb : SuperBlock) (c : Nat) : Prog Stop Store Unit := fun s =>
  if (s.op c).isSome then .error .fault
  else if beginBlocked sb s.log then .error .sleeps
  else .ok ((), { s with
    log := beginSection s.log
    ops := { id := c, rm := opMaxNumBlocks } :: s.ops })

/-- `end_op` on the array: a commit changes nothing but the log. -/
def Store.endOp (c : Nat) : Prog Stop Store Bool := fun s =>
  match s.op c with
  | none => .error .noOp
  | some op =>
    if (endSection s.log op.rm).outstanding = 0 then
      if s.held = [] then .ok (true, { s with
        log := clearSection (endSection s.log op.rm)
        header := s.header.cleared
        ops := Keyed.remove Op.id s.ops c })
      else .error .fault
    else .ok (false, { s with
      log := endSection s.log op.rm
      ops := Keyed.remove Op.id s.ops c })

/-- The array behind the interface. -/
def store (sb : SuperBlock) : BlockCache Store where
  acquire := Store.acquire sb
  sync := Store.sync
  release := Store.release
  beginOp := Store.beginOp sb
  endOp := Store.endOp

/-! ## The cache refines the array -/

open Simulation Cache

/-- The array a state of the cache stands for, with some blocks held. -/
structure Abs (sb : SuperBlock) (s : Cache.State) (t : Store) : Prop where
  shape : Shape s
  accounts : Accounts sb s
  home : ∀ b ∈ s.header.recorded, ¬ InLog sb b
  pinned : ∀ b, s.isPinned b = decide (b ∈ s.header.recorded)
  clean : ∀ b, b ≠ sb.logStart.toNat → b ∉ s.header.recorded → Coh s b
  value : ∀ b, ¬ InLog sb b → s.cur b = t.blocks b
  held : ∀ b, Held s b ↔ b ∈ t.held
  nodup : t.held.Nodup
  outside : ∀ b ∈ t.held, ¬ InLog sb b
  log : t.log = s.log
  header : t.header = s.header
  ops : t.ops = s.ops

variable {s : Cache.State} {sb : SuperBlock} {t : Store}

theorem Abs.op (h : Abs sb s t) (c : Nat) : t.op c = s.op c := by
  unfold Store.op State.op
  rw [h.ops]

/-- With nothing held this is the relation of `Fs.CacheRefine`. -/
theorem Abs.refines (h : Abs sb s t) (hfree : t.held = []) :
    Refines sb s t.blocks := by
  refine ⟨h.shape, fun b hb => ?_, h.accounts, h.home, h.pinned, h.clean, h.value⟩
  have hmem := (h.held b).mp hb
  rw [hfree] at hmem
  cases hmem

theorem Refines.abs (h : Refines sb s t.blocks)
    (hfree : t.held = []) (hlog : t.log = s.log) (hheader : t.header = s.header) (hops : t.ops = s.ops) :
    Abs sb s t := by
  refine ⟨h.shape, h.accounts, h.home, h.pinned, h.clean, h.value, fun b => ?_, ?_, ?_, hlog, hheader, hops⟩
  · rw [hfree]
    exact ⟨fun hb => absurd hb (h.free b), fun hb => by cases hb⟩
  · rw [hfree]; exact List.nodup_nil
  · rw [hfree]; intro b hb; cases hb

variable {b : Nat}

/-- Outside the log a block cannot lose its data. -/
theorem Abs.safe (hl : LogFits sb) (h : Abs sb s t) (hb : ¬ InLog sb b) : s.isPinned b = true ∨ Coh s b := by
  by_cases hrec : b ∈ s.header.recorded
  · left
    rw [h.pinned b]
    exact decide_eq_true hrec
  · right
    refine h.clean b ?_ hrec
    rintro rfl
    exact hb (inLog_logStart hl)

/-- A held block is not evicted. -/
theorem held_of_kept {s' : Cache.State} (h : Kept s s' b) (hheld : Held s b) : Held s' b := by
  obtain ⟨blk, hblk, hacq⟩ := hheld
  rcases h with he | ⟨_, old, hold, _, hfree⟩
  · exact ⟨blk, he.trans hblk, hacq⟩
  · rw [hblk] at hold
    cases hold
    rw [hacq] at hfree
    cases hfree

variable {blk : Block}

theorem Abs.acquired (hl : LogFits sb) {s' : Cache.State} (h : Abs sb s t) (hb : ¬ InLog sb b) (hfree : b ∉ t.held) (ha : Acquired s b blk s') :
    Abs sb s' { t with held := b :: t.held } := by
  have hheader : s'.header = s.header := by rw [ha.rest]
  have hdev : s'.dev = s.dev := by rw [ha.rest]
  refine ⟨ha.shape, h.accounts.congr (by rw [ha.rest]) hheader (by rw [ha.rest]), ?_, ?_, ?_, ?_, ?_, ?_, ?_,
    ?_, ?_, ?_⟩
  · rw [hheader]; exact h.home
  · intro x
    rw [hheader, ha.isPinned x]
    exact h.pinned x
  · intro x hx hrec
    rw [hheader] at hrec
    by_cases he : x = b
    · subst he
      intro blk' hblk'
      rw [ha.self] at hblk'
      cases hblk'
      rw [ha.data, hdev]
      exact (h.clean x hx hrec).cur
    · exact (ha.other x he).coh (by rw [hdev]) (h.clean x hx hrec)
  · intro x hx
    show s'.cur x = t.blocks x
    by_cases he : x = b
    · subst he
      rw [cur_of_block ha.self, ha.data]
      exact h.value x hx
    · rw [(ha.other x he).cur (by rw [hdev]) (h.safe hl hx)]
      exact h.value x hx
  · intro x
    show Held s' x ↔ x ∈ b :: t.held
    rw [List.mem_cons]
    by_cases he : x = b
    · subst he
      exact ⟨fun _ => Or.inl rfl, fun _ => ⟨blk, ha.self, ha.acquired⟩⟩
    · refine ⟨fun hx => Or.inr ((h.held x).mp ((ha.other x he).held hx)), fun hx => ?_⟩
      exact held_of_kept (ha.other x he) ((h.held x).mpr (hx.resolve_left he))
  · exact List.nodup_cons.mpr ⟨hfree, h.nodup⟩
  · intro x hx
    rcases List.mem_cons.mp hx with rfl | hx
    · exact hb
    · exact h.outside x hx
  · show t.log = s'.log
    rw [ha.rest]; exact h.log
  · show t.header = s'.header
    rw [hheader]; exact h.header
  · show t.ops = s'.ops
    rw [ha.rest]; exact h.ops

theorem Abs.released {s' : Cache.State} (h : Abs sb s t) (hblk : s.block b = some blk) (hr : Released s b blk s') :
    Abs sb s' { t with held := t.held.erase b } := by
  have hheader : s'.header = s.header := by rw [hr.rest]
  have hdev : s'.dev = s.dev := by rw [hr.rest]
  refine ⟨hr.shape, h.accounts.congr (by rw [hr.rest]) hheader (by rw [hr.rest]), ?_, ?_, ?_, ?_, ?_,
    h.nodup.erase b, fun x hx => h.outside x (List.mem_of_mem_erase hx), ?_, ?_, ?_⟩
  · rw [hheader]; exact h.home
  · intro x
    rw [hheader, hr.isPinned hblk x]
    exact h.pinned x
  · intro x hx hrec blk' hblk'
    rw [hheader] at hrec
    rw [hdev]
    by_cases he : x = b
    · subst he
      rw [hr.self] at hblk'
      cases hblk'
      exact h.clean x hx hrec blk hblk
    · rw [hr.other x he] at hblk'
      exact h.clean x hx hrec blk' hblk'
  · intro x hx
    show s'.cur x = t.blocks x
    rw [← h.value x hx]
    by_cases he : x = b
    · subst he
      rw [cur_of_block hr.self, cur_of_block hblk]
    · unfold State.cur
      rw [hr.other x he, hdev]
  · intro x
    show Held s' x ↔ x ∈ t.held.erase b
    by_cases he : x = b
    · subst he
      refine ⟨fun ⟨blk', hblk', hacq⟩ => ?_, fun hx => absurd hx (h.nodup.not_mem_erase)⟩
      rw [hr.self] at hblk'
      cases hblk'
      cases hacq
    · rw [List.mem_erase_of_ne he, ← h.held x]
      unfold Held
      rw [hr.other x he]
  · show t.log = s'.log
    rw [hr.rest]; exact h.log
  · show t.header = s'.header
    rw [hheader]; exact h.header
  · show t.ops = s'.ops
    rw [hr.rest]; exact h.ops

/-- The held block that a caller changes and syncs, in front of `cache_sync`. -/
abbrev Cache.State.store (s : Cache.State) (b : Nat) (d : Data) : Cache.State := s.assign b fun blk => { blk with data := d }

theorem block_store (hblk : s.block b = some blk) (d : Data) (x : Nat) :
    (s.store b d).block x = if x = b then some { blk with data := d } else s.block x := by
  refine (block_assign (by intro _; rfl)).trans ?_
  split
  · rename_i he
    subst he
    rw [hblk]
    rfl
  · rfl

section

variable {s' : Cache.State} {blk' : Block} {x : Nat} (h : Abs sb s t) (hself : s'.block b = some blk')
  (hother : ∀ x, x ≠ b → s'.block x = s.block x)
include h hself hother

theorem Abs.held_stored (hblk : s.block b = some blk) (hacq : blk'.acquired = blk.acquired) (x : Nat) :
    Held s' x ↔ x ∈ t.held := by
  rw [← h.held x]
  unfold Held
  by_cases he : x = b
  · subst he
    rw [hself, hblk]
    simp [hacq]
  · rw [hother x he]

theorem Abs.cur_stored (hdev : ∀ x, x ≠ b → s'.dev x = s.dev x) (hx : ¬ InLog sb x) :
    s'.cur x = update t.blocks b blk'.data x := by
  by_cases he : x = b
  · subst he
    rw [cur_of_block hself, update_self]
  · rw [update_of_ne he, ← h.value x hx]
    unfold State.cur
    rw [hother x he, hdev x he]

end

/-- `sync` with `NULL`: the block is written through. -/
theorem Abs.syncedNull (h : Abs sb s t) (hblk : s.block b = some blk) (d : Data) :
    Abs sb ((s.store b d).deviceWrite b d) (t.put b d) := by
  have hblock := block_store hblk d
  have hshape : Shape (s.store b d) := h.shape.assign fun _ => ⟨rfl, rfl, rfl⟩
  have hdev : ∀ x, x ≠ b →
      ((s.store b d).deviceWrite b d).dev x = s.dev x := fun x hx =>
    update_of_ne hx ..
  have hother : ∀ x, x ≠ b →
      ((s.store b d).deviceWrite b d).block x = s.block x := fun x hx =>
    (hblock x).trans (if_neg hx)
  have hself : ((s.store b d).deviceWrite b d).block b
      = some { blk with data := d } := (hblock b).trans (if_pos rfl)
  refine ⟨hshape.deviceWrite b d, h.accounts.congr rfl rfl rfl, h.home, fun x => ?_, fun x hx hrec => ?_,
    fun x hx => ?_, fun x => ?_, h.nodup, h.outside, h.log, h.header, h.ops⟩
  · rw [show ((s.store b d).deviceWrite b d).header = s.header from rfl,
      ← h.pinned x]
    by_cases he : x = b
    · subst he
      rw [isPinned_of_block hself, isPinned_of_block hblk]
    · unfold State.isPinned
      rw [hother x he]
  · intro blk' hblk'
    by_cases he : x = b
    · subst he
      rw [hself] at hblk'
      cases hblk'
      exact (dev_deviceWrite_self ..).symm
    · rw [hdev x he]
      exact h.clean x hx hrec blk' ((hother x he).symm.trans hblk')
  · exact h.cur_stored hself hother hdev hx
  · exact h.held_stored hself hother hblk rfl x

/-- `sync` under an operation: the block is pinned and recorded. -/
theorem Abs.syncedOp (h : Abs sb s t)
    (hblk : s.block b = some blk) (d : Data) (hb : ¬ InLog sb b) {c rm : Nat} {op : Op} {hd : LogHeader}
    (hop : s.op c = some op) (hs : syncSection s.header op.rm b = some (hd, rm)) :
    Abs sb (synced (s.store b d) c b hd rm)
      { t.put b d with header := hd, ops := setRm c rm t.ops } := by
  have hmem : ∀ x, x ∈ hd.recorded ↔ x ∈ s.header.recorded ∨ x = b := fun x => mem_recorded_sync hs
  have hblock : ∀ x, (synced (s.store b d) c b hd rm).block x
      = if x = b then some { blk with data := d, pinned := true } else s.block x := by
    intro x
    refine (block_assign (by intro _; rfl)).trans ?_
    rw [block_store hblk d x]
    by_cases he : x = b
    · rw [if_pos he, if_pos he, if_pos he]; rfl
    · rw [if_neg he, if_neg he, if_neg he]
  have hother : ∀ x, x ≠ b →
      (synced (s.store b d) c b hd rm).block x = s.block x := fun x hx =>
    (hblock x).trans (if_neg hx)
  have hself := (hblock b).trans (if_pos rfl)
  have hshape : Shape (synced (s.store b d) c b hd rm) := by
    have hdata : Shape (s.store b d) := h.shape.assign fun _ => ⟨rfl, rfl, rfl⟩
    have := hdata.assign (b := b) (f := fun blk => { blk with pinned := true }) fun _ => ⟨rfl, rfl, rfl⟩
    exact ⟨this.nodup, this.locks⟩
  refine ⟨hshape, (h.accounts.sync hop hs).congr rfl rfl rfl, fun x hx => ?_, fun x => ?_,
    fun x hx hrec => ?_, fun x hx => ?_, fun x => ?_, h.nodup, h.outside, h.log, rfl, ?_⟩
  · rcases (hmem x).mp hx with hx | rfl
    · exact h.home x hx
    · exact hb
  · show _ = decide (x ∈ hd.recorded)
    simp only [hmem x]
    by_cases he : x = b
    · subst he
      rw [isPinned_of_block hself]
      simp
    · rw [show (synced (s.store b d) c b hd rm).isPinned x = s.isPinned x
        from by unfold State.isPinned; rw [hother x he], h.pinned x]
      simp [he]
  · have hnot : x ∉ s.header.recorded ∧ x ≠ b := not_or.mp fun hor => hrec ((hmem x).mpr hor)
    intro blk' hblk'
    exact h.clean x hx hnot.1 blk' ((hother x hnot.2).symm.trans hblk')
  · exact h.cur_stored hself hother (fun _ _ => rfl) hx
  · exact h.held_stored hself hother hblk rfl x
  · show setRm c rm t.ops = setRm c rm s.ops
    rw [h.ops]

/-- One implementation does what another does. -/
structure CacheSim {σ τ : Type} (R : σ → τ → Prop) (U : Stop → Prop) (cache : BlockCache σ)
    (cache' : BlockCache τ) : Prop where
  acquire : ∀ b, Sim R U (cache.acquire b) (cache'.acquire b)
  sync : ∀ ctx b d, Sim R U (cache.sync ctx b d) (cache'.sync ctx b d)
  release : ∀ b, Sim R U (cache.release b) (cache'.release b)
  beginOp : ∀ c, Sim R U (cache.beginOp c) (cache'.beginOp c)
  endOp : ∀ c, Sim R U (cache.endOp c) (cache'.endOp c)

/-- The failures of the array that say nothing about the cache. -/
abbrev Unspecified (e : Stop) : Prop := e = .fault

section

variable {sb : SuperBlock} (hl : LogFits sb)

include hl

theorem acquire_refines (b : Nat) : Sim (Abs sb) Unspecified ((bcache sb).acquire b) (Store.acquire sb b) := by
  refine Sim.of_wp fun s t h => ?_
  unfold Store.acquire
  by_cases hb : InLog sb b
  · rw [if_pos hb]
    exact Or.inl rfl
  rw [if_neg hb]
  by_cases hheld : b ∈ t.held
  · rw [if_pos hheld]
    right
    show wp (cacheAcquire b >>= _) _ _ s
    rw [wp_bind]
    exact wp_cacheAcquire h.shape (fun _ => rfl) fun blk s' hfree _ => absurd ((h.held b).mpr hheld) hfree
  · rw [if_neg hheld]
    show wp (cacheAcquire b >>= _) _ _ s
    rw [wp_bind]
    refine wp_cacheAcquire h.shape (fun hh => hheld ((h.held b).mp hh)) fun blk s' _ ha => ?_
    exact ⟨ha.data.trans (h.value b hb), h.acquired hl hb hheld ha⟩

theorem endOp_refines (c : Nat) : Sim (Abs sb) Unspecified ((bcache sb).endOp c) (Store.endOp c) := by
  refine Sim.of_wp fun s t h => ?_
  have hc : Committable sb s :=
    ⟨h.accounts.numBlocks_le, h.home, fun b hb => (h.pinned b).trans (decide_eq_true hb)⟩
  unfold Store.endOp
  rw [h.op c, h.log, h.ops]
  cases hs : s.op c with
  | none =>
    right
    exact wp_cacheEndOp hl h.shape hc (fun _ => rfl) (fun op ho => by rw [hs] at ho; cases ho)
      (fun op ho => by rw [hs] at ho; cases ho) fun op _ ho => by rw [hs] at ho; cases ho
  | some op =>
    have hsame : ∀ op', s.op c = some op' → op' = op := fun op' ho => Option.some.inj (ho.symm.trans hs)
    simp only
    by_cases hz : (endSection s.log op.rm).outstanding = 0
    · rw [if_pos hz]
      by_cases hfree : t.held = []
      · rw [if_pos hfree]
        have href := h.refines hfree
        refine wp_cacheEndOp hl h.shape hc (fun ho => by rw [hs] at ho; cases ho)
          (fun _ _ _ b hb => href.free b hb) (fun op' ho hmore => ?_) fun op' s' ho hlast hcom hlog hops => ?_
        · exact absurd (hsame op' ho ▸ hz) hmore
        · rw [hsame op' ho] at hlast hlog
          refine ⟨rfl, Refines.abs (committed_refines hl href hcom ?_) hfree hlog.symm ?_ hops.symm⟩
          · exact h.accounts.end_last hs hlast hlog hcom.header hops
          · show t.header.cleared = s'.header
            rw [hcom.header, h.header]
      · rw [if_neg hfree]
        exact Or.inl rfl
    · rw [if_neg hz]
      refine wp_cacheEndOp hl h.shape hc (fun ho => by rw [hs] at ho; cases ho)
        (fun op' ho hlast => absurd (hsame op' ho ▸ hlast) hz) (fun op' ho hmore => ?_)
        fun op' s' ho hlast => absurd (hsame op' ho ▸ hlast) hz
      rw [hsame op' ho] at hmore ⊢
      exact ⟨rfl, ⟨h.shape.nodup, h.shape.locks⟩, h.accounts.end_running hs hmore, h.home, h.pinned, h.clean,
        h.value, h.held, h.nodup, h.outside, rfl, h.header, rfl⟩

omit hl in
theorem beginOp_refines (c : Nat) : Sim (Abs sb) Unspecified ((bcache sb).beginOp c) (Store.beginOp sb c) := by
  refine Sim.of_wp fun s t h => ?_
  unfold Store.beginOp
  rw [h.op c, h.log, h.ops]
  by_cases hlive : (s.op c).isSome = true
  · rw [if_pos hlive]
    exact Or.inl rfl
  rw [if_neg hlive]
  have hfresh : s.op c = none := Option.not_isSome_iff_eq_none.mp hlive
  by_cases hblocked : beginBlocked sb s.log = true
  · rw [if_pos hblocked]
    exact Or.inr (wp_cacheBeginOp (fun _ => rfl) fun hfree => by rw [hblocked] at hfree; cases hfree)
  · rw [if_neg hblocked]
    refine wp_cacheBeginOp (fun hb => hblocked hb) fun hfree => ⟨rfl, ?_⟩
    exact ⟨⟨h.shape.nodup, h.shape.locks⟩, h.accounts.begin hfresh hfree, h.home, h.pinned, h.clean, h.value,
      h.held, h.nodup, h.outside, rfl, h.header, rfl⟩

omit hl in
theorem release_refines (b : Nat) : Sim (Abs sb) Unspecified ((bcache sb).release b) (Store.release b) := by
  refine Sim.of_wp fun s t h => ?_
  unfold Store.release
  by_cases hheld : b ∈ t.held
  · rw [if_pos hheld]
    obtain ⟨blk, hblk, hacq⟩ := (h.held b).mpr hheld
    exact wp_cacheRelease h.shape hblk hacq fun s' hr => ⟨rfl, h.released hblk hr⟩
  · rw [if_neg hheld]
    exact Or.inl rfl

omit hl in
theorem sync_refines (ctx : Option Nat) (b : Nat) (d : Data) :
    Sim (Abs sb) Unspecified ((bcache sb).sync ctx b d) (Store.sync ctx b d) := by
  refine Sim.of_wp fun s t h => ?_
  unfold Store.sync
  by_cases hheld : b ∈ t.held
  · rw [if_pos hheld]
    obtain ⟨blk, hblk, _⟩ := (h.held b).mpr hheld
    cases ctx with
    | none =>
      show wp (cacheSync none b) _ _ (s.store b d)
      exact wp_cacheSync_null ((block_store hblk d b).trans (if_pos rfl)) ⟨rfl, h.syncedNull hblk d⟩
    | some c =>
      -- the store into the block changes neither the operations nor the header
      have hop : (s.store b d).op c = s.op c := rfl
      have hheader : (s.store b d).header = s.header := rfl
      simp only [h.op c, h.header]
      cases hs : s.op c with
      | none =>
        right
        show wp (cacheSync (some c) b) _ _ (s.store b d)
        refine wp_cacheSync_op (fun _ => rfl) (fun op ho => ?_) fun op hd rm ho => ?_
        · rw [hop, hs] at ho; cases ho
        · rw [hop, hs] at ho; cases ho
      | some op =>
        have hsame : ∀ op', (s.store b d).op c = some op' → op' = op :=
          fun op' ho => Option.some.inj (ho.symm.trans (hop.trans hs))
        cases hsync : syncSection s.header op.rm b with
        | none =>
          simp only [hsync]
          right
          show wp (cacheSync (some c) b) _ _ (s.store b d)
          refine wp_cacheSync_op (fun ho => ?_) (fun op' ho _ _ => rfl) fun op' hd rm ho hok => ?_
          · rw [hop, hs] at ho; cases ho
          · rw [hsame op' ho, hheader, hsync] at hok
            cases hok
        | some r =>
          simp only [hsync]
          show wp (cacheSync (some c) b) _ _ (s.store b d)
          refine wp_cacheSync_op (fun ho => ?_) (fun op' ho hnew hrm => ?_) fun op' hd rm ho hok => ?_
          · rw [hop, hs] at ho; cases ho
          · rw [hsame op' ho] at hrm
            rw [hheader] at hnew
            rw [syncSection_eq_none.mpr ⟨hnew, hrm⟩] at hsync
            cases hsync
          · rw [hsame op' ho, hheader, hsync] at hok
            cases hok
            exact ⟨trivial, h.syncedOp hblk d (h.outside b hheld) hs hsync⟩
  · rw [if_neg hheld]
    exact Or.inl rfl

/-- **The block cache does what the array does.** -/
theorem bcache_refines_store : CacheSim (Abs sb) Unspecified (bcache sb) (store sb) :=
  ⟨acquire_refines hl, sync_refines, release_refines, beginOp_refines, endOp_refines hl⟩

end

end Armv8Os.Fs
