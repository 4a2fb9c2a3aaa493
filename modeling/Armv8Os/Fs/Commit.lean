/-
  The commit and the recovery of the log, on the device.

  `commitWrites` lists the device writes of a commit: the log copies, the header, the home blocks, the
  cleared header.  `wp_commit` says that `cache_end_op` makes exactly these writes, in this order, and
  what the cache holds afterwards.  `wp_recover` is the same for `init_bcache` on a disk whose log is
  usable; `wp_recover_any` needs nothing of the disk and says only what a completed recovery leaves.

  `Accounts` is the accounting of the log slots in the state of one cache: it bounds the header, so
  that a commit stays inside the log area.
-/
import Armv8Os.Fs.CacheSpec

namespace Armv8Os.Fs.Cache

open Sem Prog List Keyed Nat LogHeader

/-! ## The log area -/

/-- The log lies inside the disk and has room for its header. -/
structure LogFits (sb : SuperBlock) : Prop where
  pos : 0 < sb.numLogBlocks.toNat
  inside : sb.logStart.toNat + sb.numLogBlocks.toNat ≤ sb.numBlocks.toNat

/-- The blocks of the log, the header included. -/
def InLog (sb : SuperBlock) (b : Nat) : Prop :=
  sb.logStart.toNat ≤ b ∧ b < sb.logStart.toNat + sb.numLogBlocks.toNat

instance (sb : SuperBlock) (b : Nat) : Decidable (InLog sb b) := inferInstanceAs (Decidable (_ ∧ _))

variable {sb : SuperBlock}

section

variable (hl : LogFits sb)
include hl

theorem inLog_logStart : InLog sb sb.logStart.toNat :=
  ⟨le_rfl, Nat.lt_add_of_pos_right hl.pos⟩

/-- The sum on `u32` does not wrap. -/
theorem logBlock_eq (i : Nat) : logBlock sb i = sb.logStart.toNat + 1 + i := by
  have hlt : sb.logStart.toNat + 1 < 2 ^ 32 := by
    have h1 := hl.pos
    have h2 := hl.inside
    have h3 : sb.numBlocks.toNat < 2 ^ 32 := sb.numBlocks.toNat_lt
    omega
  show (sb.logStart + 1).toNat + i = _
  show (sb.logStart.toNat + 1) % 2 ^ 32 + i = _
  rw [mod_eq_of_lt hlt]

theorem inLog_logBlock {i : Nat} (hi : i < logCapacity sb) : InLog sb (logBlock sb i) := by
  rw [logCapacity_eq hl.pos] at hi
  unfold InLog
  rw [logBlock_eq hl]
  omega

theorem logBlock_ne_logStart (i : Nat) : logBlock sb i ≠ sb.logStart.toNat := by
  rw [logBlock_eq hl]
  omega

theorem logBlock_inj {i j : Nat} (h : logBlock sb i = logBlock sb j) : i = j := by
  rw [logBlock_eq hl, logBlock_eq hl] at h
  omega

end

/-! ## The header write -/

variable {s : State}

theorem Coh.deviceWrite {b b' : Nat} (h : Coh s b) (hne : b ≠ b') (d : Data) :
    Coh (s.deviceWrite b' d) b := by
  intro blk hblk
  exact (h blk hblk).trans (Function.update_of_ne hne ..).symm

theorem dev_deviceWrite_self (s : State) (b : Nat) (d : Data) : (s.deviceWrite b d).dev b = d :=
  Function.update_self (β := fun _ => Data) b d s.dev

theorem Shape.deviceWrite (h : Shape s) (b : Nat) (d : Data) : Shape (s.deviceWrite b d) :=
  ⟨h.nodup, h.locks⟩

variable {Q : Unit → State → Prop} {E : Stop → Prop}

theorem wp_writeHeader :
    wp (writeHeader sb) Q E s ↔ Q () (s.deviceWrite sb.logStart.toNat (encodeHeader s.header)) := Iff.rfl

/-! ## The commit -/

/-- The device writes of a commit that has found `d i` in the `i`-th recorded block. -/
def commitWrites (sb : SuperBlock) (h : LogHeader) (d : Nat → Data) : List (Nat × Data) :=
  copyWrites h.numBlocks (logBlock sb) d ++ [(sb.logStart.toNat, encodeHeader h)]
    ++ (copyWrites h.numBlocks h.blockNo d ++ [(sb.logStart.toNat, encodeHeader h.cleared)])

/-- What the recorded blocks hold. -/
def State.recordedData (s : State) (i : Nat) : Data := s.cur (s.header.blockNo i)

/-- What a commit does to the cache and the device. -/
structure Committed (sb : SuperBlock) (s t : State) : Prop where
  shape : Shape t
  header : t.header = s.header.cleared
  dev : t.dev = applyWrites s.dev (commitWrites sb s.header s.recordedData)
  writes : t.writes = s.writes ++ commitWrites sb s.header s.recordedData
  coh : ∀ b, b ≠ sb.logStart.toNat → b ∈ s.header.recorded ∨ Coh s b → Coh t b
  pinned : ∀ b, t.isPinned b = (s.isPinned b && decide (b ∉ s.header.recorded))
  held : ∀ b, Held t b → Held s b

/-- What a state must offer for a commit: the recorded blocks are cached and pinned, outside the log,
    and fit into it. -/
structure Committable (sb : SuperBlock) (s : State) : Prop where
  fits : s.header.numBlocks ≤ logCapacity sb
  home : ∀ b ∈ s.header.recorded, ¬ InLog sb b
  pinned : ∀ b ∈ s.header.recorded, s.isPinned b = true

/-- The device after a commit: the recorded blocks hold their data, the other blocks outside the log
    are untouched. -/
theorem applyWrites_commitWrites (hl : LogFits sb) (hc : Committable sb s) {b : Nat} (hb : ¬ InLog sb b) :
    applyWrites s.dev (commitWrites sb s.header s.recordedData) b
      = if b ∈ s.header.recorded then s.cur b else s.dev b := by
  have hstart : sb.logStart.toNat ≠ b := by
    rintro rfl
    exact hb (inLog_logStart hl)
  have hheader : ∀ dev d, applyWrites dev [(sb.logStart.toNat, d)] b = dev b := fun dev d =>
    applyWrites_of_forall_ne (by simpa using hstart)
  have hcopies : applyWrites s.dev (copyWrites s.header.numBlocks (logBlock sb) s.recordedData) b = s.dev b := by
    apply applyWrites_copyWrites_of_ne
    rintro i hi rfl
    exact hb (inLog_logBlock hl (lt_of_lt_of_le hi hc.fits))
  unfold commitWrites
  rw [applyWrites_append, applyWrites_append, applyWrites_append, hheader]
  by_cases hrec : b ∈ s.header.recorded
  · rw [if_pos hrec]
    obtain ⟨i, hi, rfl⟩ := mem_recorded.mp hrec
    refine applyWrites_copyWrites hi fun j _ e => ?_
    unfold State.recordedData
    rw [e]
  · rw [if_neg hrec, applyWrites_copyWrites_of_ne, hheader, hcopies]
    rintro i hi rfl
    exact hrec (blockNo_mem hi)

/-- **The commit** of `cache_end_op`.  It can only get stuck on a block that somebody holds. -/
theorem wp_commit (hl : LogFits sb) (h : Shape s) (hc : Committable sb s)
    (hheld : ∀ b, Held s b → E .sleeps)
    (hQ : ∀ t, Committed sb s t → t.log = s.log → t.ops = s.ops → Q () t) : wp (commit sb) Q E s := by
  have hin : ∀ i < s.header.numBlocks, InLog sb (logBlock sb i) := fun i hi =>
    inLog_logBlock hl (lt_of_lt_of_le hi hc.fits)
  have hne : ∀ i < s.header.numBlocks, ∀ j < s.header.numBlocks,
      s.header.blockNo i ≠ logBlock sb j := by
    intro i hi j hj e
    exact hc.home _ (blockNo_mem hi) (e ▸ hin j hj)
  have hsrc : ∀ i < s.header.numBlocks, Source s (s.header.blockNo i) (s.recordedData i) := by
    intro i hi
    obtain ⟨blk, hblk, hpin⟩ := block_of_isPinned (hc.pinned _ (blockNo_mem hi))
    exact Or.inl ⟨blk, hblk, hpin, (cur_of_block hblk).symm⟩
  unfold commit
  rw [wp_bind, wp_get, wp_bind]
  -- the log copies
  refine wp_copyLoop h hheld hsrc hne fun t₁ h₁ => ?_
  have hheader1 : t₁.header = s.header := by rw [h₁.rest]
  rw [wp_bind, wp_writeHeader, hheader1, wp_bind]
  have hdev1 : ∀ i < s.header.numBlocks, t₁.dev (logBlock sb i) = s.recordedData i := by
    intro i hi
    rw [h₁.rest]
    exact applyWrites_copyWrites hi fun j _ e => by rw [logBlock_inj hl e]
  -- every log copy is on the device and, if cached, in the cache
  have hsrc1 : ∀ i < s.header.numBlocks,
      Source (t₁.deviceWrite sb.logStart.toNat (encodeHeader s.header)) (logBlock sb i)
        (s.recordedData i) := by
    intro i hi
    refine Or.inr ⟨?_, ?_⟩
    · exact (Function.update_of_ne (logBlock_ne_logStart hl i) ..).trans (hdev1 i hi)
    · exact (h₁.coh _ (Or.inl ⟨i, hi, rfl⟩)).deviceWrite (logBlock_ne_logStart hl i) _
  -- the installs
  refine wp_copyLoop (h₁.shape.deviceWrite _ _) (fun b hb => hheld b (h₁.held b hb)) hsrc1
    (fun i hi j hj => (hne j hj i hi).symm) fun t₂ h₂ => ?_
  have hheader2 : t₂.header = s.header := by rw [h₂.rest]; exact hheader1
  refine hQ _ ⟨⟨h₂.shape.nodup, h₂.shape.locks⟩, ?_, ?_, ?_, fun b hb hor => ?_, fun b => ?_,
    fun b hb => h₁.held b (h₂.held b hb)⟩ (by rw [h₂.rest, h₁.rest]; rfl) (by rw [h₂.rest, h₁.rest]; rfl)
  · show t₂.header.cleared = _
    rw [hheader2]
  · rw [h₂.rest, h₁.rest]
    simp only [State.deviceWrite, commitWrites, applyWrites_append]
    rfl
  · rw [h₂.rest, h₁.rest]
    simp only [State.deviceWrite, commitWrites, append_assoc]
  · have hcoh1 : Coh (t₁.deviceWrite sb.logStart.toNat (encodeHeader s.header)) b ∨
        ∃ i < s.header.numBlocks, s.header.blockNo i = b := by
      rcases hor with hmem | hcoh
      · exact Or.inr (mem_recorded.mp hmem)
      · exact Or.inl ((h₁.coh b (Or.inr hcoh)).deviceWrite hb _)
    have hcoh2 : Coh t₂ b := h₂.coh b hcoh1.symm
    exact Coh.deviceWrite (s := { t₂ with header := _ }) hcoh2 hb _
  · show t₂.isPinned b = _
    rw [h₂.pinned b]
    show (t₁.isPinned b && _) = _
    rw [h₁.pinned b]
    have hmem : (∃ i < s.header.numBlocks, s.header.blockNo i = b) ↔ b ∈ s.header.recorded :=
      mem_recorded.symm
    simp only [hmem, Bool.false_and, Bool.not_false, Bool.and_true, Bool.true_and, decide_not]

variable {c : Nat}

/-- **`cache_end_op`**: it gives the budget back, and commits if no operation is left. -/
theorem wp_cacheEndOp (hl : LogFits sb) (h : Shape s)
    (hc : Committable sb s) {Q : Bool → State → Prop} (hdead : s.op c = none → E .noOp)
    (hheld : ∀ op, s.op c = some op → (endSection s.log op.rm).outstanding = 0 → ∀ b, Held s b → E .sleeps)
    (hmore : ∀ op, s.op c = some op → (endSection s.log op.rm).outstanding ≠ 0 →
      Q false { s with
        log := endSection s.log op.rm
        ops := Keyed.remove Op.id s.ops c })
    (hlast : ∀ op t, s.op c = some op → (endSection s.log op.rm).outstanding = 0 → Committed sb s t →
      t.log = clearSection (endSection s.log op.rm) → t.ops = Keyed.remove Op.id s.ops c → Q true t) :
    wp (cacheEndOp sb c) Q E s := by
  unfold cacheEndOp
  rw [wp_bind, wp_get]
  cases hop : s.op c with
  | none => exact hdead hop
  | some op =>
    rw [wp_bind, wp_set, wp_ite]
    constructor
    · intro hzero
      rw [wp_bind]
      refine wp_commit hl (s := { s with
          log := endSection s.log op.rm
          ops := remove Op.id s.ops c }) ⟨h.nodup, h.locks⟩ ⟨hc.fits, hc.home, hc.pinned⟩
        (hheld op hop hzero) ?_
      intro t ht hlog hops
      refine hlast op _ hop hzero ⟨⟨ht.shape.nodup, ht.shape.locks⟩, ht.header, ht.dev, ht.writes,
        ht.coh, ht.pinned, ht.held⟩ ?_ hops
      show clearSection t.log = _
      rw [hlog]
    · intro hmany
      exact hmore op hop hmany

/-! ## The recovery -/

/-- What a completed `init_bcache` leaves, whatever it has found on the disk. -/
structure Booted (sb : SuperBlock) (s : State) : Prop where
  shape : Shape s
  free : ∀ b, ¬ Held s b
  unpinned : ∀ b, s.isPinned b = false
  coh : ∀ b, b ≠ sb.logStart.toNat → Coh s b
  log : s.log = initLog
  ops : s.ops = []
  header : s.header.numBlocks = 0
  diskHeader : s.dev sb.logStart.toNat = encodeHeader s.header

/-- The state inside the recovery loop: all copies are clean. -/
structure Fresh (s t : State) : Prop where
  shape : Shape t
  free : ∀ b, ¬ Held t b
  unpinned : ∀ b, t.isPinned b = false
  coh : ∀ b, Coh t b
  log : t.log = s.log
  ops : t.ops = s.ops
  header : t.header = s.header

theorem Fresh.copied {t t' : State} {src dst : Nat} (h : Fresh s t) (hc : Copied t src dst false t') :
    Fresh s t' := by
  refine ⟨hc.shape, fun b hb => h.free b (hc.held hb), fun b => ?_, fun b => ?_, ?_, ?_, ?_⟩
  · rw [hc.isPinned b, h.unpinned b]
    simp
  · by_cases hb : b = dst
    · subst hb; exact hc.coh_dst
    · exact hc.coh hb (h.coh b)
  · rw [hc.rest]; exact h.log
  · rw [hc.rest]; exact h.ops
  · rw [hc.rest]; exact h.header

theorem fresh_bootState (sb : SuperBlock) (dev : Nat → Data) : Fresh (bootState sb dev) (bootState sb dev) := by
  have hnone : ∀ b, (bootState sb dev).block b = none := fun _ => rfl
  refine ⟨⟨nodup_nil, fun blk hblk => absurd hblk not_mem_nil⟩, ?_,
    fun b => isPinned_of_none (hnone b), ?_, rfl, rfl, rfl⟩
  · rintro b ⟨blk, hblk, _⟩
    cases hblk
  · intro b blk hblk
    cases hblk

/-- A recovery that returns, from any clean state. -/
theorem wp_recover_any (sb : SuperBlock) (h : Fresh s s) (hlog : s.log = initLog)
    (hops : s.ops = []) : wp (recover sb) (fun _ => Booted sb) (fun _ => True) s := by
  unfold recover
  rw [wp_bind, wp_get, wp_ite]
  constructor
  · intro _
    trivial
  · intro _
    rw [wp_bind]
    refine wp_imp (wp_forRange (I := fun _ t => Fresh s t) (E := fun _ => True) h fun i _ t ht => ?_)
      (fun _ t ht => ?_)
    · exact wp_copyBlock ht.shape (fun _ => trivial) (fun _ _ => trivial) fun t' hc => ht.copied hc
    · refine ⟨⟨ht.shape.nodup, ht.shape.locks⟩, ht.free, ht.unpinned, fun b hb => ?_,
        ht.log.trans hlog, ht.ops.trans hops, rfl, dev_deviceWrite_self ..⟩
      exact Coh.deviceWrite (s := { t with header := _ }) (ht.coh b) hb _

variable {dev : Nat → Data}

/-- **A completed `init_bcache`.** -/
theorem booted_of_initBcache (h : initBcache sb dev = .ok s) : Booted sb s := by
  unfold initBcache at h
  cases hr : recover sb (bootState sb dev) with
  | error e => rw [hr] at h; cases h
  | ok r =>
    rw [hr] at h
    cases h
    exact of_wp (wp_recover_any sb (fresh_bootState sb dev) rfl rfl) hr

/-- The device writes of a recovery that has found the header `h`. -/
def recoverWrites (sb : SuperBlock) (dev : Nat → Data) (h : LogHeader) : List (Nat × Data) :=
  copyWrites h.numBlocks h.blockNo (fun i => dev (logBlock sb i))
    ++ [(sb.logStart.toNat, encodeHeader h.cleared)]

/-- **The recovery loop** over a header that fits and names no block of the log. -/
theorem wp_recover (hl : LogFits sb) (h : Fresh s s)
    (hfits : s.header.numBlocks ≤ logCapacity sb) (hhome : ∀ b ∈ s.header.recorded, ¬ InLog sb b) :
    wp (recover sb) (fun _ t => t.writes = s.writes ++ recoverWrites sb s.dev s.header ∧
      t.dev = applyWrites s.dev (recoverWrites sb s.dev s.header)) (fun _ => False) s := by
  unfold recover
  rw [wp_bind, wp_get, wp_ite]
  constructor
  · intro hbig
    exact absurd (hfits.trans (logCapacity_le sb)) (Nat.not_le_of_lt hbig)
  · intro _
    rw [wp_bind]
    have hsrc : ∀ i < s.header.numBlocks, Source s (logBlock sb i) (s.dev (logBlock sb i)) :=
      fun i _ => Or.inr ⟨rfl, h.coh _⟩
    have hne : ∀ i < s.header.numBlocks, ∀ j < s.header.numBlocks,
        logBlock sb i ≠ s.header.blockNo j := by
      intro i hi j hj e
      exact hhome _ (blockNo_mem hj) (e ▸ inLog_logBlock hl (lt_of_lt_of_le hi hfits))
    refine wp_copyLoop h.shape (fun b hb => h.free b hb) hsrc hne fun t ht => ?_
    rw [wp_bind, wp_modify, wp_writeHeader, ht.rest]
    unfold recoverWrites
    rw [applyWrites_append, ← append_assoc]
    exact ⟨rfl, rfl⟩

/-- The header `init_bcache` reads. -/
def diskHeader (sb : SuperBlock) (dev : Nat → Data) : LogHeader := decodeHeader (dev sb.logStart.toNat)

/-- **`init_bcache` on a disk with a usable log** returns and has replayed it. -/
theorem initBcache_replays (hl : LogFits sb) {d : Nat → Data} (hfits : (diskHeader sb d).numBlocks ≤ logCapacity sb)
    (hhome : ∀ b ∈ (diskHeader sb d).recorded, ¬ InLog sb b) :
    ∃ s, initBcache sb d = .ok s ∧ s.writes = recoverWrites sb d (diskHeader sb d) ∧
      s.dev = applyWrites d (recoverWrites sb d (diskHeader sb d)) := by
  have hheader : (bootState sb d).header = diskHeader sb d := rfl
  have hwp := wp_recover hl (fresh_bootState sb d) (by rw [hheader]; exact hfits)
    (by rw [hheader]; exact hhome)
  obtain ⟨_, s, hr, hwrites, hdev⟩ := exists_of_wp hwp
  refine ⟨s, ?_, hwrites, hdev⟩
  unfold initBcache
  rw [hr]
  rfl

/-- With an empty log only the header is written. -/
theorem initBcache_empty (hl : LogFits sb)
    (hempty : (diskHeader sb dev).numBlocks = 0) (h : initBcache sb dev = .ok s) {b : Nat}
    (hb : b ≠ sb.logStart.toNat) : s.dev b = dev b := by
  obtain ⟨s', hboot, _, hdev⟩ := initBcache_replays hl (d := dev) (by rw [hempty]; exact zero_le _) (by
    rw [recorded_of_numBlocks hempty]
    intro b hb
    cases hb)
  rw [h] at hboot
  cases hboot
  rw [hdev]
  refine applyWrites_of_forall_ne fun w hw => ?_
  unfold recoverWrites at hw
  rw [hempty, mem_append] at hw
  rcases hw with hw | hw
  · cases hw
  · rw [mem_singleton.mp hw]
    exact hb.symm

/-! ## The accounting of the log slots -/

/-- The counters of the log against the operations that are running and the recorded blocks. -/
structure Accounts (sb : SuperBlock) (s : State) : Prop where
  nodup : Keyed.KeysNodup Op.id s.ops
  idle : s.log.committing = false
  outstanding : s.log.outstanding = s.ops.length
  realUse : s.log.realUse = s.header.numBlocks + (s.ops.map Op.rm).sum
  fits : s.log.realUse ≤ logCapacity sb
  budget : ∀ op ∈ s.ops, op.rm ≤ opMaxNumBlocks
  few : opMaxNumBlocks * s.ops.length ≤ s.log.realUse

/-- Only the log, the number of recorded blocks and the operations count. -/
theorem Accounts.congr {t : State} (h : Accounts sb s) (hlog : t.log = s.log)
    (hheader : t.header = s.header) (hops : t.ops = s.ops) : Accounts sb t := by
  refine ⟨?_, ?_, ?_, ?_, ?_, ?_, ?_⟩
  · rw [hops]; exact h.nodup
  · rw [hlog]; exact h.idle
  · rw [hlog, hops]; exact h.outstanding
  · rw [hlog, hheader, hops]; exact h.realUse
  · rw [hlog]; exact h.fits
  · rw [hops]; exact h.budget
  · rw [hlog, hops]; exact h.few

theorem Accounts.numBlocks_le (h : Accounts sb s) :
    s.header.numBlocks ≤ logCapacity sb := by
  have h1 := h.realUse
  have h2 := h.fits
  omega

/-- No sum of the counters wraps: the log has at most 63 slots. -/
theorem Accounts.small (h : Accounts sb s) :
    s.log.realUse ≤ 63 ∧ s.ops.length ≤ 6 := by
  have h1 := h.fits.trans (logCapacity_le sb)
  have h2 := h.few
  simp only [logMaxSize, blockSize, opMaxNumBlocks] at h1 h2
  omega

theorem Accounts.booted (h : Booted sb s) : Accounts sb s := by
  constructor
  · rw [h.ops]; exact nodup_nil
  · rw [h.log]; rfl
  · rw [h.log, h.ops]; rfl
  · rw [h.log, h.ops, h.header]; rfl
  · rw [h.log]; exact zero_le _
  · rw [h.ops]; intro op hop; cases hop
  · rw [h.ops]; exact zero_le _

/-- `cache_begin_op` reserves ten slots. -/
theorem Accounts.begin (h : Accounts sb s) (hfresh : s.op c = none) (hfree : beginBlocked sb s.log = false) :
    Accounts sb { s with
      log := beginSection s.log
      ops := { id := c, rm := opMaxNumBlocks } :: s.ops } := by
  obtain ⟨hidle, hroom⟩ := beginBlocked_eq_false.mp hfree
  obtain ⟨huse, hlen⟩ := h.small
  have hout : addU32 s.log.outstanding 1 = s.ops.length + 1 := by
    rw [h.outstanding, addU32_of_lt (by omega)]
  have hreal : addU32 s.log.realUse opMaxNumBlocks = s.log.realUse + opMaxNumBlocks :=
    addU32_of_lt (by unfold opMaxNumBlocks; omega)
  refine ⟨h.nodup.cons hfresh, hidle, hout, ?_, hroom, ?_, ?_⟩
  · show addU32 s.log.realUse opMaxNumBlocks = s.header.numBlocks + (opMaxNumBlocks + (s.ops.map Op.rm).sum)
    rw [hreal, h.realUse]
    omega
  · intro op hop
    rcases mem_cons.mp hop with rfl | hop
    · exact le_rfl
    · exact h.budget op hop
  · show opMaxNumBlocks * (s.ops.length + 1) ≤ addU32 s.log.realUse opMaxNumBlocks
    rw [hreal, mul_succ]
    exact Nat.add_le_add_right h.few _

section

variable {op : Op} (h : Accounts sb s) (hop : s.op c = some op)
include h hop

/-- `cache_sync` turns a reserved slot into a recorded block, or changes nothing. -/
theorem Accounts.sync {b rm : Nat} {hd : LogHeader} (hs : syncSection s.header op.rm b = some (hd, rm)) :
    Accounts sb (synced s c b hd rm) := by
  have hkeep : ∀ op : Op, ({ op with rm := rm } : Op).id = op.id := fun _ => rfl
  have hsum : ((setRm c rm s.ops).map Op.rm).sum + op.rm = (s.ops.map Op.rm).sum + rm :=
    sum_assign h.nodup hop
  have hlen : (setRm c rm s.ops).length = s.ops.length := length_map ..
  have hpaid : hd.numBlocks + rm = s.header.numBlocks + op.rm := by
    rcases syncSection_spec hs with ⟨_, rfl, rfl⟩ | ⟨_, hrm, hnum, _⟩
    · rfl
    · omega
  have hle : rm ≤ op.rm := by
    rcases syncSection_spec hs with ⟨_, _, rfl⟩ | ⟨_, hrm, _⟩ <;> omega
  refine ⟨h.nodup.assign hkeep, h.idle, h.outstanding.trans hlen.symm, ?_, h.fits, ?_, ?_⟩
  · show s.log.realUse = hd.numBlocks + ((setRm c rm s.ops).map Op.rm).sum
    have := h.realUse
    omega
  · intro op' hop'
    rcases mem_assign hop' with ⟨hmem, _⟩ | ⟨a, _, _, rfl⟩
    · exact h.budget op' hmem
    · exact hle.trans (h.budget op (mem_of_lookup hop))
  · show opMaxNumBlocks * (setRm c rm s.ops).length ≤ s.log.realUse
    rw [hlen]
    exact h.few

/-- The head of `cache_end_op` gives back what the operation has not used. -/
theorem Accounts.endCounters : (endSection s.log op.rm).outstanding = (Keyed.remove Op.id s.ops c).length ∧
    (endSection s.log op.rm).realUse = s.header.numBlocks + ((Keyed.remove Op.id s.ops c).map Op.rm).sum := by
  have hlen := length_remove hop
  have hsum : ((remove Op.id s.ops c).map Op.rm).sum + op.rm = (s.ops.map Op.rm).sum :=
    sum_remove hop
  have hout : subU32 s.log.outstanding 1 = (remove Op.id s.ops c).length := by
    rw [h.outstanding, subU32_of_le (by omega)]
    omega
  have huse : subU32 s.log.realUse op.rm
      = s.header.numBlocks + ((remove Op.id s.ops c).map Op.rm).sum := by
    rw [h.realUse, subU32_of_le (by omega)]
    omega
  unfold endSection
  simp only [hout, huse]
  split <;> exact ⟨rfl, rfl⟩

/-- An operation ends while others are running. -/
theorem Accounts.end_running (hmore : (endSection s.log op.rm).outstanding ≠ 0) : Accounts sb { s with
      log := endSection s.log op.rm
      ops := Keyed.remove Op.id s.ops c } := by
  obtain ⟨hout, huse⟩ := h.endCounters hop
  have hlen := length_remove hop
  have hsum : ((remove Op.id s.ops c).map Op.rm).sum + op.rm = (s.ops.map Op.rm).sum :=
    sum_remove hop
  have hreal := h.realUse
  have hbudget := h.budget op (mem_of_lookup hop)
  have hfits := h.fits
  have hfew := h.few
  refine ⟨h.nodup.remove, (endSection_committing hmore).trans h.idle, hout, huse, ?_, ?_, ?_⟩
  · show (endSection s.log op.rm).realUse ≤ logCapacity sb
    omega
  · intro op' hop'
    exact h.budget op' (mem_of_mem_eraseP hop')
  · show opMaxNumBlocks * (remove Op.id s.ops c).length ≤ (endSection s.log op.rm).realUse
    simp only [opMaxNumBlocks] at hfew hbudget ⊢
    omega

/-- The last operation has ended and the commit is done. -/
theorem Accounts.end_last {t : State} (hlast : (endSection s.log op.rm).outstanding = 0)
    (hlog : t.log = clearSection (endSection s.log op.rm)) (hheader : t.header = s.header.cleared)
    (hops : t.ops = Keyed.remove Op.id s.ops c) : Accounts sb t := by
  obtain ⟨hout, _⟩ := h.endCounters hop
  have hnil : t.ops = [] := by
    rw [hops]
    exact eq_nil_of_length_eq_zero (hout.symm.trans hlast)
  constructor
  · rw [hnil]; exact nodup_nil
  · rw [hlog]; rfl
  · rw [hlog, hnil]; exact hlast
  · rw [hlog, hheader, hnil]; rfl
  · rw [hlog]; exact zero_le _
  · rw [hnil]; intro op hop; cases hop
  · rw [hnil]; exact zero_le _

end

end Armv8Os.Fs.Cache
