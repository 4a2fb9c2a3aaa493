/-
  `fs/cache.c`: the sections of `cache_begin_op`, `cache_sync` and `cache_end_op` that run under
  `log.lock`, as functions on `struct LOG` and the log header.

  Both the sequential model of the block cache (`Fs.Cache`) and the model of concurrent threads
  (`Fs.LogThreads`) are built from these sections, so the arithmetic of the log is stated once:

  * `beginBlocked` — the two waiting branches of `cache_begin_op`;
  * `beginSection` — its last branch: reserve `OP_MAX_NUM_BLOCKS` log slots;
  * `syncSection`  — the header update of `cache_sync`, `none` for its `PANIC()`;
  * `endSection`   — the head of `cache_end_op`, which also decides who commits;
  * `clearSection` — the section that closes a commit.

  `syncSection_spec` is the case analysis every later proof about `cache_sync` uses.
-/
import Armv8Os.Fs.Defines

namespace Armv8Os.Fs

open LogHeader

/-- `struct LOG` without its lock. -/
structure Log where
  outstanding : Nat
  committing : Bool
  realUse : Nat
  deriving Repr, DecidableEq

/-- `init_log`. -/
def initLog : Log := { outstanding := 0, committing := false, realUse := 0 }

/-- The largest number of log slots that may be in use: the bound `cache_begin_op` compares with,
    `min (num_log_blocks - 1) LOG_MAX_SIZE`, the subtraction on `u32`. -/
def logCapacity (sb : SuperBlock) : Nat := min (subU32 sb.numLogBlocks.toNat 1) logMaxSize

/-- `cache_begin_op` waits: a commit is running, or ten more blocks might not fit. -/
def beginBlocked (sb : SuperBlock) (log : Log) : Bool :=
  log.committing || decide (subU32 sb.numLogBlocks.toNat 1 < addU32 log.realUse opMaxNumBlocks)
    || decide (logMaxSize < addU32 log.realUse opMaxNumBlocks)

/-- The last branch of `cache_begin_op`; the new `ctx->rm` is `opMaxNumBlocks`. -/
def beginSection (log : Log) : Log :=
  { log with outstanding := addU32 log.outstanding 1,
             realUse := addU32 log.realUse opMaxNumBlocks }

/-- The search loop of `cache_sync`: the first slot that holds `b`, `num_blocks` if none does. -/
def LogHeader.findSlot (h : LogHeader) (b : Nat) : Nat :=
  (List.range h.numBlocks).findIdx fun i => h.blockNo i == b

/-- The header update of `cache_sync`: the slot is written BEFORE the budget is looked at. -/
def syncSection (h : LogHeader) (rm b : Nat) : Option (LogHeader × Nat) :=
  let i := h.findSlot b
  let h₁ := h.setBlockNo i b
  if i = h.numBlocks then
    if rm = 0 then none
    else some ({ h₁ with numBlocks := h₁.numBlocks + 1 }, rm - 1)
  else some (h₁, rm)

/-- The head of `cache_end_op`: the last outstanding operation starts the commit. -/
def endSection (log : Log) (rm : Nat) : Log :=
  let log₁ := { log with outstanding := subU32 log.outstanding 1, realUse := subU32 log.realUse rm }
  if log₁.outstanding = 0 then { log₁ with committing := true } else log₁

/-- The section after the commit. -/
def clearSection (log : Log) : Log := { log with committing := false, realUse := 0 }

/-! ## The slot search -/

theorem LogHeader.findSlot_le (h : LogHeader) (b : Nat) : h.findSlot b ≤ h.numBlocks := by
  have hle : (List.range h.numBlocks).findIdx (fun i => h.blockNo i == b)
      ≤ (List.range h.numBlocks).length := List.findIdx_le_length
  simpa [findSlot] using hle

variable {h : LogHeader} {b : Nat}

/-- The search stops before the end exactly on a recorded block. -/
theorem LogHeader.findSlot_lt_iff :
    h.findSlot b < h.numBlocks ↔ b ∈ h.recorded := by
  have hlt : (List.range h.numBlocks).findIdx (fun i => h.blockNo i == b)
      < (List.range h.numBlocks).length ↔ ∃ i ∈ List.range h.numBlocks, (h.blockNo i == b) = true :=
    List.findIdx_lt_length
  simp only [List.length_range] at hlt
  rw [findSlot, hlt, mem_recorded]
  simp

theorem LogHeader.blockNo_findSlot (hb : b ∈ h.recorded) :
    h.blockNo (h.findSlot b) = b := by
  have hlt := findSlot_lt_iff.mpr hb
  have hidx : (List.range h.numBlocks).findIdx (fun i => h.blockNo i == b)
      < (List.range h.numBlocks).length := by simpa [findSlot] using hlt
  have hfound := List.findIdx_getElem (w := hidx)
  simpa [findSlot] using hfound

/-! ## What one `cache_sync` does -/

variable {rm : Nat}

/-- A recorded block is absorbed: nothing changes. -/
theorem syncSection_mem (hb : b ∈ h.recorded) :
    syncSection h rm b = some (h, rm) := by
  have hlt := findSlot_lt_iff.mpr hb
  simp only [syncSection]
  rw [if_neg (by omega), setBlockNo_self (blockNo_findSlot hb)]

/-- A new block with budget left is appended and paid for. -/
theorem syncSection_new (hb : b ∉ h.recorded) (hrm : rm ≠ 0) :
    syncSection h rm b =
      some ({ h.setBlockNo h.numBlocks b with numBlocks := h.numBlocks + 1 }, rm - 1) := by
  have hslot : h.findSlot b = h.numBlocks := by
    have h1 := h.findSlot_le b
    have h2 : ¬ h.findSlot b < h.numBlocks := fun hlt => hb (findSlot_lt_iff.mp hlt)
    omega
  simp only [syncSection, hslot, if_true, if_neg hrm]
  rfl

/-- **When `cache_sync` panics**: the block is not recorded yet and the operation has used up its
    budget. -/
theorem syncSection_eq_none :
    syncSection h rm b = none ↔ b ∉ h.recorded ∧ rm = 0 := by
  by_cases hb : b ∈ h.recorded
  · rw [syncSection_mem hb]
    simp [hb]
  · by_cases hrm : rm = 0
    · have h1 := h.findSlot_le b
      have h2 : ¬ h.findSlot b < h.numBlocks := fun hlt => hb (findSlot_lt_iff.mp hlt)
      have hslot : h.findSlot b = h.numBlocks := by omega
      simp [syncSection, hslot, hrm, hb]
    · rw [syncSection_new hb hrm]
      simp [hrm]

/-- **What a `cache_sync` that does not panic does**: it absorbs a recorded block, or it records a
    new one at the end and takes one unit of the operation's budget. -/
theorem syncSection_spec {h' : LogHeader} {rm' : Nat} (hs : syncSection h rm b = some (h', rm')) :
    (b ∈ h.recorded ∧ h' = h ∧ rm' = rm) ∨
    (b ∉ h.recorded ∧ rm = rm' + 1 ∧ h'.numBlocks = h.numBlocks + 1 ∧
      h'.recorded = h.recorded ++ [b]) := by
  by_cases hb : b ∈ h.recorded
  · rw [syncSection_mem hb] at hs
    cases hs
    exact Or.inl ⟨hb, rfl, rfl⟩
  · have hrm : rm ≠ 0 := by
      intro h0
      rw [syncSection_eq_none.mpr ⟨hb, h0⟩] at hs
      cases hs
    rw [syncSection_new hb hrm] at hs
    cases hs
    exact Or.inr ⟨hb, by omega, rfl, h.recorded_push b⟩

/-- The block is recorded now, and no other block has come or gone. -/
theorem mem_recorded_sync {h' : LogHeader} {rm' x : Nat}
    (hs : syncSection h rm b = some (h', rm')) : x ∈ h'.recorded ↔ x ∈ h.recorded ∨ x = b := by
  rcases syncSection_spec hs with ⟨hb, rfl, _⟩ | ⟨_, _, _, happ⟩
  · exact ⟨Or.inl, fun hx => hx.elim id fun e => e ▸ hb⟩
  · rw [happ, List.mem_append, List.mem_singleton]

/-! ## The log counters -/

variable {sb : SuperBlock}

theorem beginBlocked_eq_false {log : Log} :
    beginBlocked sb log = false ↔
      log.committing = false ∧ addU32 log.realUse opMaxNumBlocks ≤ logCapacity sb := by
  simp [beginBlocked, logCapacity, and_assoc]

/-- Only the last operation starts a commit. -/
theorem endSection_committing {log : Log} (h : (endSection log rm).outstanding ≠ 0) :
    (endSection log rm).committing = log.committing := by
  simp only [endSection] at h ⊢
  split at h
  · rename_i hzero
    exact absurd hzero h
  · rename_i hmore
    rw [if_neg hmore]

theorem logCapacity_eq (h : 0 < sb.numLogBlocks.toNat) :
    logCapacity sb = min (sb.numLogBlocks.toNat - 1) logMaxSize := by
  unfold logCapacity
  rw [subU32_of_le h]

theorem logCapacity_le (sb : SuperBlock) : logCapacity sb ≤ logMaxSize := Nat.min_le_right _ _

/-- With at least `OP_MAX_NUM_BLOCKS + 1` log blocks an empty log admits an operation. -/
theorem opMaxNumBlocks_le_logCapacity
    (h : opMaxNumBlocks + 1 ≤ sb.numLogBlocks.toNat) : opMaxNumBlocks ≤ logCapacity sb := by
  rw [logCapacity_eq (by omega)]
  simp only [logMaxSize, blockSize, opMaxNumBlocks] at *
  omega

end Armv8Os.Fs
