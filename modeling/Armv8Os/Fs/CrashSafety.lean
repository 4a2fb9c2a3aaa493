/-
  CRASHES: the commit is atomic on the device.

  Part 1 is the running system.  Any number of operations, in any order, acquire, change, sync and
  release blocks, begin and end; `pending` collects the blocks synced since the last commit.  `LogInv`
  holds throughout: the recorded blocks are cached, pinned and outside the log, and the header ON THE
  DEVICE is empty.

  Part 2 is the device alone.  `Replays sb v dev` says that replaying the log found on `dev` gives the
  contents `v`: a recorded block has its entry of `v` in the log, any other home block has it in place.
  With an empty header this reads "the home blocks are `v`".  The point of the definition is that it does
  not look at the recorded home blocks, so it survives every write to one of them (`Replays.writeHome`),
  torn or repeated; only the header writes need an argument.

  Part 3 puts them together.  Before the header write of a commit the device replays to the old
  contents, from the header write on to the new ones (`commit_replays`), and neither a finished nor an
  interrupted `init_bcache` changes what the device replays to (`initBcache_keeps`).

  Part 4 is a crash at any time of a run.
-/
import Armv8Os.Lib.Transition
import Armv8Os.Fs.Commit

namespace Armv8Os.Fs.Cache.Crash

open Prog Transition List Option LogHeader

/-! ## The running system -/

/-- What a thread does next.  Block numbers are `usize`. -/
inductive Act where
  | acquire (b : UInt64)
  | store (b : UInt64) (f : Data → Data)
  | sync (ctx : Option Nat) (b : UInt64)
  | release (b : UInt64)
  | beginOp (c : Nat)
  | endOp (c : Nat)

/-- The cache, and which blocks have been synced under an operation since the last commit. -/
structure Sys where
  cache : State
  pending : List Nat

/-- Somebody has the block, as a test. -/
def isHeld (s : State) (b : Nat) : Bool := ((s.block b).map Block.acquired).getD false

/-- One step, `none` if it does not return or the caller breaks the rules: it changes, syncs and
    releases only blocks that are held, syncs no block of the log, and begins an operation with a
    context that is not in use. -/
def step (sb : SuperBlock) (s : Sys) : Act → Option Sys
  | .acquire b => (exec (cacheAcquire b.toNat) s.cache).map fun t => { s with cache := t }
  | .store b f =>
    if isHeld s.cache b.toNat then
      some { s with cache := s.cache.assign b.toNat fun blk => { blk with data := f blk.data } }
    else none
  | .sync ctx b =>
    if isHeld s.cache b.toNat && !decide (InLog sb b.toNat) then
      (exec (cacheSync ctx b.toNat) s.cache).map fun t =>
        { cache := t, pending := if ctx.isSome then b.toNat :: s.pending else s.pending }
    else none
  | .release b =>
    if isHeld s.cache b.toNat then
      (exec (cacheRelease b.toNat) s.cache).map fun t => { s with cache := t }
    else none
  | .beginOp c =>
    if (s.cache.op c).isSome then none
    else (exec (cacheBeginOp sb c) s.cache).map fun t => { s with cache := t }
  | .endOp c =>
    match cacheEndOp sb c s.cache with
    | .ok (done, t) => some { cache := t, pending := if done then [] else s.pending }
    | .error _ => none

/-- What holds of the running system. -/
structure LogInv (sb : SuperBlock) (s : Sys) : Prop where
  shape : Shape s.cache
  accounts : Accounts sb s.cache
  home : ∀ b ∈ s.cache.header.recorded, ¬ InLog sb b
  word : ∀ b ∈ s.cache.header.recorded, b < 2 ^ 64
  pinned : ∀ b ∈ s.cache.header.recorded, s.cache.isPinned b = true
  empty : (diskHeader sb s.cache.dev).numBlocks = 0
  pending : ∀ b, b ∈ s.pending ↔ b ∈ s.cache.header.recorded

variable {sb : SuperBlock} {s : Sys}

theorem LogInv.committable (h : LogInv sb s) : Committable sb s.cache :=
  ⟨h.accounts.numBlocks_le, h.home, h.pinned⟩

theorem held_of_isHeld {s : State} {b : Nat} (h : isHeld s b = true) :
    ∃ blk, s.block b = some blk ∧ blk.acquired = true := by
  unfold isHeld at h
  cases hb : s.block b with
  | none => rw [hb] at h; cases h
  | some blk => rw [hb] at h; exact ⟨blk, rfl, h⟩

/-- Steps that change neither the log nor the device nor what is pinned. -/
theorem LogInv.ofRest (h : LogInv sb s) {t : State} (hshape : Shape t)
    (hrest : t = { s.cache with lru := t.lru }) (hpin : ∀ b, t.isPinned b = s.cache.isPinned b) :
    LogInv sb { s with cache := t } := by
  have hheader : t.header = s.cache.header := by rw [hrest]
  refine ⟨hshape, h.accounts.congr (by rw [hrest]) hheader (by rw [hrest]), ?_, ?_, ?_, ?_, ?_⟩
  · show ∀ b ∈ t.header.recorded, _
    rw [hheader]
    exact h.home
  · show ∀ b ∈ t.header.recorded, _
    rw [hheader]
    exact h.word
  · show ∀ b ∈ t.header.recorded, t.isPinned b = true
    intro b hb
    rw [hheader] at hb
    rw [hpin b]
    exact h.pinned b hb
  · show (diskHeader sb t.dev).numBlocks = 0
    rw [hrest]
    exact h.empty
  · show ∀ b, b ∈ s.pending ↔ b ∈ t.header.recorded
    rw [hheader]
    exact h.pending

/-- Changing the data of a block changes nothing the log looks at. -/
theorem isPinned_store {s : State} {b b' : Nat} {f : Data → Data} :
    (s.assign b fun blk => { blk with data := f blk.data }).isPinned b' = s.isPinned b' := by
  have hblock : (s.assign b fun blk => { blk with data := f blk.data }).block b'
      = if b' = b then (s.block b').map (fun blk => { blk with data := f blk.data }) else s.block b' :=
    block_assign (by intro _; rfl)
  unfold State.isPinned
  rw [hblock]
  split
  · rw [Option.map_map]
    rfl
  · rfl

/-- A block synced under an operation is pinned and recorded. -/
theorem LogInv.sync (h : LogInv sb s) {c b rm : Nat} {op : Op} {hd : LogHeader}
    (hin : ∃ blk, s.cache.block b = some blk) (hb : ¬ InLog sb b) (hword : b < 2 ^ 64)
    (hop : s.cache.op c = some op) (hs : syncSection s.cache.header op.rm b = some (hd, rm)) :
    LogInv sb { cache := synced s.cache c b hd rm, pending := b :: s.pending } := by
  have hmem : ∀ x, x ∈ hd.recorded ↔ x ∈ s.cache.header.recorded ∨ x = b := fun x => mem_recorded_sync hs
  have hblock : ∀ x, (synced s.cache c b hd rm).block x
      = if x = b then (s.cache.block x).map (fun blk => { blk with pinned := true }) else s.cache.block x :=
    fun x => block_assign (by intro _; rfl)
  have hshape : Shape (synced s.cache c b hd rm) := by
    have := h.shape.assign (b := b) (f := fun blk => { blk with pinned := true }) fun _ => ⟨rfl, rfl, rfl⟩
    exact ⟨this.nodup, this.locks⟩
  refine ⟨hshape, h.accounts.sync hop hs, ?_, ?_, ?_, h.empty, ?_⟩
  · intro x hx
    rcases (hmem x).mp hx with hx | rfl
    · exact h.home x hx
    · exact hb
  · intro x hx
    rcases (hmem x).mp hx with hx | rfl
    · exact h.word x hx
    · exact hword
  · show ∀ x ∈ hd.recorded, (synced s.cache c b hd rm).isPinned x = true
    intro x hx
    unfold State.isPinned
    rw [hblock x]
    by_cases he : x = b
    · subst he
      obtain ⟨blk, hblk⟩ := hin
      rw [if_pos rfl, hblk]
      rfl
    · rw [if_neg he]
      exact h.pinned x (((hmem x).mp hx).resolve_right he)
  · intro x
    rw [mem_cons, h.pending x]
    exact or_comm.trans (hmem x).symm

/-- Writing a block through touches no block of the log. -/
theorem LogInv.deviceWrite (hl : LogFits sb) (h : LogInv sb s) {b : Nat} {d : Data}
    (hb : ¬ InLog sb b) : LogInv sb { s with cache := s.cache.deviceWrite b d } := by
  refine ⟨h.shape.deviceWrite b d, h.accounts.congr rfl rfl rfl, h.home, h.word, h.pinned, ?_, h.pending⟩
  have hdev : (s.cache.deviceWrite b d).dev sb.logStart.toNat = s.cache.dev sb.logStart.toNat := by
    refine Function.update_of_ne ?_ ..
    rintro rfl
    exact hb (inLog_logStart hl)
  show (diskHeader sb (s.cache.deviceWrite b d).dev).numBlocks = 0
  unfold diskHeader
  rw [hdev]
  exact h.empty

/-- The header block after a commit. -/
theorem diskHeader_commitWrites {s : State} :
    (diskHeader sb (applyWrites s.dev (commitWrites sb s.header s.recordedData))).numBlocks = 0 := by
  unfold diskHeader commitWrites
  rw [applyWrites_append, applyWrites_concat_self]
  exact decodeHeader_cleared s.header

theorem LogInv.committed {t : State} (hc : Committed sb s.cache t)
    (ha : Accounts sb t) : LogInv sb { cache := t, pending := [] } := by
  have hnone : t.header.recorded = [] := by rw [hc.header]; rfl
  refine ⟨hc.shape, ha, ?_, ?_, ?_, ?_, ?_⟩
  · rw [hnone]; intro b hb; cases hb
  · rw [hnone]; intro b hb; cases hb
  · rw [hnone]; intro b hb; cases hb
  · show (diskHeader sb t.dev).numBlocks = 0
    rw [hc.dev]
    exact diskHeader_commitWrites
  · rw [hnone]; intro b; exact Iff.rfl

/-- **Every step keeps the invariant.** -/
theorem step_logInv (hl : LogFits sb) {s' : Sys} {a : Act} (h : LogInv sb s)
    (hs : step sb s a = some s') : LogInv sb s' := by
  cases a with
  | acquire b =>
    obtain ⟨t, ht, rfl⟩ := map_eq_some_iff.mp hs
    refine of_wp_exec (I := fun t => LogInv sb { s with cache := t }) (E := fun _ => True)
      (wp_cacheAcquire h.shape (fun _ => trivial) fun blk t _ ha => ?_) ht
    exact h.ofRest ha.shape ha.rest ha.isPinned
  | store b f =>
    obtain ⟨-, rfl⟩ := of_guard hs
    exact h.ofRest (h.shape.assign fun _ => ⟨rfl, rfl, rfl⟩) rfl fun _ => isPinned_store
  | sync ctx b =>
    obtain ⟨hguard, hs⟩ := ite_none_right_eq_some.mp hs
    rw [Bool.and_eq_true, Bool.not_eq_true', decide_eq_false_iff_not] at hguard
    obtain ⟨hheld, hb⟩ := hguard
    obtain ⟨blk, hblk, _⟩ := held_of_isHeld hheld
    obtain ⟨t, ht, rfl⟩ := map_eq_some_iff.mp hs
    cases ctx with
    | none =>
      exact of_wp_exec (I := fun t => LogInv sb { s with cache := t }) (E := fun _ => True)
        (wp_cacheSync_null hblk (h.deviceWrite hl hb)) ht
    | some c =>
      refine of_wp_exec (I := fun t => LogInv sb { cache := t, pending := b.toNat :: s.pending })
        (E := fun _ => True) (wp_cacheSync_op (fun _ => trivial) (fun _ _ _ _ => trivial)
          fun op hd rm hop hsync => ?_) ht
      exact h.sync ⟨blk, hblk⟩ hb b.toNat_lt hop hsync
  | release b =>
    obtain ⟨hheld, hs⟩ := ite_none_right_eq_some.mp hs
    obtain ⟨blk, hblk, hacq⟩ := held_of_isHeld hheld
    obtain ⟨t, ht, rfl⟩ := map_eq_some_iff.mp hs
    refine of_wp_exec (I := fun t => LogInv sb { s with cache := t }) (E := fun _ => True)
      (wp_cacheRelease h.shape hblk hacq fun t hr => ?_) ht
    exact h.ofRest hr.shape hr.rest (hr.isPinned hblk)
  | beginOp c =>
    simp only [step] at hs
    split at hs
    · cases hs
    · rename_i hfresh
      rw [not_isSome_iff_eq_none] at hfresh
      obtain ⟨t, ht, rfl⟩ := map_eq_some_iff.mp hs
      refine of_wp_exec (I := fun t => LogInv sb { s with cache := t }) (E := fun _ => True)
        (wp_cacheBeginOp (fun _ => trivial) fun hfree => ?_) ht
      exact ⟨⟨h.shape.nodup, h.shape.locks⟩, h.accounts.begin hfresh hfree, h.home, h.word, h.pinned,
        h.empty, h.pending⟩
  | endOp c =>
    simp only [step] at hs
    split at hs
    · rename_i done t hend
      cases hs
      refine of_wp (Q := fun done t => LogInv sb { cache := t, pending := if done then [] else s.pending })
        (wp_cacheEndOp hl h.shape h.committable (E := fun _ => True) (fun _ => trivial)
          (fun _ _ _ _ _ => trivial) ?_ ?_) hend
      · intro op hop hmore
        exact ⟨⟨h.shape.nodup, h.shape.locks⟩, h.accounts.end_running hop hmore, h.home, h.word, h.pinned,
          h.empty, h.pending⟩
      · intro op t hop hlast hc hlog hops
        exact LogInv.committed hc (h.accounts.end_last hop hlast hlog hc.header hops)
    · cases hs

theorem logInv_booted {s : State} (h : Booted sb s) :
    LogInv sb { cache := s, pending := [] } := by
  have hnone := recorded_of_numBlocks h.header
  refine ⟨h.shape, Accounts.booted h, ?_, ?_, ?_, ?_, ?_⟩
  · rw [hnone]; intro b hb; cases hb
  · rw [hnone]; intro b hb; cases hb
  · rw [hnone]; intro b hb; cases hb
  · show (decodeHeader (s.dev sb.logStart.toNat)).numBlocks = 0
    rw [h.diskHeader, decodeHeader_numBlocks (by rw [h.header]; decide), h.header]
  · rw [hnone]; intro b; exact Iff.rfl

/-- **Every run keeps it**, from any disk on which `init_bcache` returns. -/
theorem run_logInv (hl : LogFits sb) {disk : Nat → Data} {s₀ : State}
    (hboot : initBcache sb disk = .ok s₀) {acts : List Act}
    (hrun : run (step sb) { cache := s₀, pending := [] } acts = some s) : LogInv sb s :=
  run_invariant_all (fun _ _ _ hI hstep => step_logInv hl hI hstep) acts _ s
    (logInv_booted (booted_of_initBcache hboot)) hrun

/-! ## What a device replays to -/

/-- Replaying the log on `dev` gives the home blocks the contents `v`. -/
structure Replays (sb : SuperBlock) (v dev : Nat → Data) : Prop where
  fits : (diskHeader sb dev).numBlocks ≤ logCapacity sb
  home : ∀ b ∈ (diskHeader sb dev).recorded, ¬ InLog sb b
  logged : ∀ i < (diskHeader sb dev).numBlocks, dev (logBlock sb i) = v ((diskHeader sb dev).blockNo i)
  rest : ∀ b, ¬ InLog sb b → b ∉ (diskHeader sb dev).recorded → dev b = v b

/-- A device with an empty header replays to what its home blocks hold. -/
theorem replays_of_empty {v dev : Nat → Data} (hempty : (diskHeader sb dev).numBlocks = 0)
    (hv : ∀ b, ¬ InLog sb b → dev b = v b) : Replays sb v dev := by
  refine ⟨hempty ▸ Nat.zero_le _, ?_, ?_, fun b hb _ => hv b hb⟩
  · rw [recorded_of_numBlocks hempty]
    intro b hb
    cases hb
  · intro i hi
    rw [hempty] at hi
    exact absurd hi (Nat.not_lt_zero i)

theorem Replays.of_empty {v dev : Nat → Data} (h : Replays sb v dev)
    (hempty : (diskHeader sb dev).numBlocks = 0) {b : Nat} (hb : ¬ InLog sb b) : dev b = v b := by
  refine h.rest b hb ?_
  rw [recorded_of_numBlocks hempty]
  exact not_mem_nil

/-- Writes to recorded home blocks do not matter, whatever they write. -/
theorem Replays.writeHome (hl : LogFits sb) {v dev : Nat → Data} (h : Replays sb v dev)
    {ws : List (Nat × Data)} (hws : ∀ w ∈ ws, w.1 ∈ (diskHeader sb dev).recorded) :
    Replays sb v (applyWrites dev ws) := by
  have hlog : ∀ b, InLog sb b → applyWrites dev ws b = dev b := by
    intro b hb
    apply applyWrites_of_forall_ne
    rintro w hw rfl
    exact h.home w.1 (hws w hw) hb
  have hheader : diskHeader sb (applyWrites dev ws) = diskHeader sb dev := by
    unfold diskHeader
    rw [hlog _ (inLog_logStart hl)]
  constructor
  · rw [hheader]; exact h.fits
  · rw [hheader]; exact h.home
  · rw [hheader]
    intro i hi
    rw [hlog _ (inLog_logBlock hl (Nat.lt_of_lt_of_le hi h.fits))]
    exact h.logged i hi
  · rw [hheader]
    intro b hb hrec
    rw [applyWrites_of_forall_ne]
    · exact h.rest b hb hrec
    · rintro w hw rfl
      exact hrec (hws w hw)

/-- The install writes: the recorded blocks from the log, then an empty header. -/
def installWrites (sb : SuperBlock) (h : LogHeader) (d : Nat → Data) (last : LogHeader) : List (Nat × Data) :=
  copyWrites h.numBlocks h.blockNo d ++ [(sb.logStart.toNat, encodeHeader last.cleared)]

section

variable {v dev : Nat → Data} {d : Nat → Data} (hl : LogFits sb) (h : Replays sb v dev)
  (hd : ∀ i < (diskHeader sb dev).numBlocks, d i = v ((diskHeader sb dev).blockNo i)) (last : LogHeader)
include hl h hd last

/-- All install writes leave the contents in place. -/
theorem Replays.installed :
    (diskHeader sb (applyWrites dev (installWrites sb (diskHeader sb dev) d last))).numBlocks = 0 ∧
    Replays sb v (applyWrites dev (installWrites sb (diskHeader sb dev) d last)) := by
  have hempty : (diskHeader sb (applyWrites dev (installWrites sb (diskHeader sb dev) d last))).numBlocks = 0 := by
    unfold installWrites
    rw [diskHeader, applyWrites_concat_self]
    exact decodeHeader_cleared last
  refine ⟨hempty, replays_of_empty hempty fun b hb => ?_⟩
  have hstart : ∀ w ∈ [(sb.logStart.toNat, encodeHeader last.cleared)], w.1 ≠ b := by
    intro w hw e
    rw [mem_singleton.mp hw] at e
    exact hb (e ▸ inLog_logStart hl)
  unfold installWrites
  rw [applyWrites_append, applyWrites_of_forall_ne hstart]
  by_cases hrec : b ∈ (diskHeader sb dev).recorded
  · obtain ⟨i, hi, rfl⟩ := mem_recorded.mp hrec
    rw [applyWrites_copyWrites hi, hd i hi]
    intro j hj e
    rw [hd i hi, hd j hj, e]
  · rw [applyWrites_copyWrites_of_ne]
    · exact h.rest b hb hrec
    · rintro i hi rfl
      exact hrec (blockNo_mem hi)

/-- **Any prefix of the install writes** keeps what the device replays to. -/
theorem Replays.install (k : Nat) :
    Replays sb v (applyWrites dev ((installWrites sb (diskHeader sb dev) d last).take k)) := by
  by_cases hk : k ≤ (diskHeader sb dev).numBlocks
  · refine h.writeHome hl fun w hw => ?_
    unfold installWrites at hw
    rw [take_append_of_le_length (by simpa [copyWrites] using hk)] at hw
    obtain ⟨i, hi, rfl⟩ := mem_copyWrites.mp (mem_of_mem_take hw)
    exact blockNo_mem hi
  · rw [take_of_length_le]
    · exact (h.installed hl hd last).2
    · simp only [installWrites, copyWrites, length_append, length_map, length_range,
        length_singleton]
      omega

end

/-! ## Recovery, interrupted or not -/

/-- **`init_bcache` keeps what the device replays to**, also when it is cut short; when it returns, the
    header is empty. -/
theorem initBcache_keeps (hl : LogFits sb) {v dev : Nat → Data} (h : Replays sb v dev) :
    ∃ s, initBcache sb dev = .ok s ∧ (∀ k, Replays sb v (applyWrites dev (s.writes.take k))) ∧
      Replays sb v s.dev ∧ (diskHeader sb s.dev).numBlocks = 0 := by
  obtain ⟨s, hs, hwrites, hdev⟩ := initBcache_replays hl h.fits h.home
  have hinstall : recoverWrites sb dev (diskHeader sb dev)
      = installWrites sb (diskHeader sb dev) (fun i => dev (logBlock sb i)) (diskHeader sb dev) := rfl
  obtain ⟨hempty, hdone⟩ := h.installed hl h.logged (diskHeader sb dev)
  refine ⟨s, hs, fun k => ?_, hdev ▸ hdone, hdev ▸ hempty⟩
  rw [hwrites]
  exact h.install hl h.logged _ k

/-- The device after `init_bcache` has been started once for each `k` in the list, each time cut short
    after `k` of its writes. -/
def reboots (sb : SuperBlock) : (Nat → Data) → List Nat → Except Stop (Nat → Data)
  | dev, [] => .ok dev
  | dev, k :: ks =>
    match initBcache sb dev with
    | .ok s => reboots sb (applyWrites dev (s.writes.take k)) ks
    | .error e => .error e

theorem reboots_keeps (hl : LogFits sb) {v dev : Nat → Data} (h : Replays sb v dev)
    (ks : List Nat) : ∃ dev', reboots sb dev ks = .ok dev' ∧ Replays sb v dev' := by
  induction ks generalizing dev with
  | nil => exact ⟨dev, rfl, h⟩
  | cons k ks ih =>
    obtain ⟨s, hs, hcut, _⟩ := initBcache_keeps hl h
    obtain ⟨dev', hdev', hr⟩ := ih (hcut k)
    refine ⟨dev', ?_, hr⟩
    rw [reboots, hs]
    exact hdev'

/-! ## The commit, interrupted -/

/-- What the home blocks hold once the commit is through. -/
def committedData (s : State) (b : Nat) : Data :=
  if b ∈ s.header.recorded then s.cur b else s.dev b

/-- The header block as the commit writes it is read back. -/
theorem diskHeader_of_encode (h : LogInv sb s) {d : Nat → Data}
    (hdev : d sb.logStart.toNat = encodeHeader s.cache.header) :
    (diskHeader sb d).numBlocks = s.cache.header.numBlocks ∧
    ∀ i < s.cache.header.numBlocks, (diskHeader sb d).blockNo i = s.cache.header.blockNo i := by
  have hle : s.cache.header.numBlocks ≤ logMaxSize := h.accounts.numBlocks_le.trans (logCapacity_le sb)
  unfold diskHeader
  rw [hdev]
  constructor
  · refine decodeHeader_numBlocks ?_
    simp only [logMaxSize, blockSize] at hle
    omega
  · intro i hi
    exact decodeHeader_blockNo (Nat.lt_of_lt_of_le hi hle) (h.word _ (blockNo_mem hi))

/-- The writes up to and with the header. -/
def logWrites (sb : SuperBlock) (s : State) : List (Nat × Data) :=
  copyWrites s.header.numBlocks (logBlock sb) s.recordedData ++ [(sb.logStart.toNat, encodeHeader s.header)]

theorem commitWrites_eq (sb : SuperBlock) (s : State) :
    commitWrites sb s.header s.recordedData
      = logWrites sb s ++ installWrites sb s.header s.recordedData s.header := rfl

theorem length_logWrites (sb : SuperBlock) (s : State) :
    (logWrites sb s).length = s.header.numBlocks + 1 := by
  simp [logWrites, copyWrites]

section

variable (hl : LogFits sb) (h : LogInv sb s)
include hl h

/-- While the log is being copied the header is still empty. -/
theorem copying_replays {ws : List (Nat × Data)} (hws : ∀ w ∈ ws, ∃ i < s.cache.header.numBlocks, w.1 = logBlock sb i) :
    Replays sb s.cache.dev (applyWrites s.cache.dev ws) := by
  have hstart : applyWrites s.cache.dev ws sb.logStart.toNat = s.cache.dev sb.logStart.toNat := by
    apply applyWrites_of_forall_ne
    intro w hw e
    obtain ⟨i, _, hi⟩ := hws w hw
    exact logBlock_ne_logStart hl i (hi.symm.trans e)
  refine replays_of_empty ?_ fun b hb => ?_
  · unfold diskHeader
    rw [hstart]
    exact h.empty
  · apply applyWrites_of_forall_ne
    rintro w hw rfl
    obtain ⟨i, hi, e⟩ := hws w hw
    exact hb (e ▸ inLog_logBlock hl (Nat.lt_of_lt_of_le hi h.accounts.numBlocks_le))

/-- **The commit point**: with the header written, the device replays to the new contents. -/
theorem header_replays : Replays sb (committedData s.cache) (applyWrites s.cache.dev (logWrites sb s.cache)) := by
  have hdev : applyWrites s.cache.dev (logWrites sb s.cache) sb.logStart.toNat
      = encodeHeader s.cache.header := applyWrites_concat_self ..
  obtain ⟨hnum, hno⟩ := diskHeader_of_encode h hdev
  have hrec : (diskHeader sb (applyWrites s.cache.dev (logWrites sb s.cache))).recorded
      = s.cache.header.recorded := by
    unfold recorded
    rw [hnum]
    exact map_congr_left fun i hi => hno i (mem_range.mp hi)
  have hheader : ∀ b, b ≠ sb.logStart.toNat → applyWrites s.cache.dev (logWrites sb s.cache) b
      = applyWrites s.cache.dev
          (copyWrites s.cache.header.numBlocks (logBlock sb) s.cache.recordedData) b := by
    intro b hb
    unfold logWrites
    rw [applyWrites_append]
    refine applyWrites_of_forall_ne fun w hw e => ?_
    rw [mem_singleton.mp hw] at e
    exact hb e.symm
  constructor
  · rw [hnum]; exact h.accounts.numBlocks_le
  · rw [hrec]; exact h.home
  · rw [hnum]
    intro i hi
    rw [hno i hi, hheader _ (logBlock_ne_logStart hl i), applyWrites_copyWrites hi]
    · exact (if_pos (blockNo_mem hi)).symm
    · intro j _ e
      rw [logBlock_inj hl e]
  · rw [hrec]
    intro b hb hnot
    have hne : b ≠ sb.logStart.toNat := by
      rintro rfl
      exact hb (inLog_logStart hl)
    rw [hheader b hne, applyWrites_copyWrites_of_ne]
    · exact (if_neg hnot).symm
    · rintro i hi rfl
      exact hb (inLog_logBlock hl (Nat.lt_of_lt_of_le hi h.accounts.numBlocks_le))

/-- **A commit cut short anywhere** leaves a device that replays to the old or to the new contents. -/
theorem commit_replays (k : Nat) : Replays sb s.cache.dev (applyWrites s.cache.dev
      ((commitWrites sb s.cache.header s.cache.recordedData).take k)) ∨
    Replays sb (committedData s.cache) (applyWrites s.cache.dev
      ((commitWrites sb s.cache.header s.cache.recordedData).take k)) := by
  rw [commitWrites_eq]
  by_cases hk : k ≤ s.cache.header.numBlocks
  · left
    refine copying_replays hl h fun w hw => ?_
    rw [take_append_of_le_length (by rw [length_logWrites]; omega), logWrites,
      take_append_of_le_length (by simpa [copyWrites] using hk)] at hw
    obtain ⟨i, hi, rfl⟩ := mem_copyWrites.mp (mem_of_mem_take hw)
    exact ⟨i, hi, rfl⟩
  · right
    rw [take_append, take_of_length_le (by rw [length_logWrites]; omega), applyWrites_append]
    have hr := header_replays hl h
    obtain ⟨hnum, hno⟩ := diskHeader_of_encode h
      (d := applyWrites s.cache.dev (logWrites sb s.cache)) (applyWrites_concat_self ..)
    -- the header on the device names the same blocks, so these are its install writes
    have hsame : installWrites sb s.cache.header s.cache.recordedData s.cache.header
        = installWrites sb (diskHeader sb (applyWrites s.cache.dev (logWrites sb s.cache)))
            s.cache.recordedData s.cache.header := by
      unfold installWrites copyWrites
      rw [hnum]
      congr 1
      exact map_congr_left fun i hi => by rw [hno i (mem_range.mp hi)]
    rw [hsame]
    refine hr.install hl (fun i hi => ?_) _ _
    rw [hnum] at hi
    rw [hno i hi]
    exact (if_pos (blockNo_mem hi)).symm

end

/-- **Crash atomicity of the log**: crash the committing `cache_end_op` after any `k` of its device
    writes, crash the recovery any number of times, and let it run: all home blocks have their old
    contents, or all have what was committed; and the header is empty. -/
theorem commit_crash_atomic {sb : SuperBlock} (hl : LogFits sb) {disk : Nat → Data} {s₀ : State} {s : Sys}
    (hboot : initBcache sb disk = .ok s₀) {acts : List Act}
    (hrun : run (step sb) { cache := s₀, pending := [] } acts = some s) {c : Nat} {t : State}
    (hend : cacheEndOp sb c s.cache = .ok (true, t)) (k : Nat) (ks : List Nat) :
    ∃ dev final,
      reboots sb (applyWrites s.cache.dev ((t.writes.drop s.cache.writes.length).take k)) ks = .ok dev ∧
      initBcache sb dev = .ok final ∧ (diskHeader sb final.dev).numBlocks = 0 ∧
      ((∀ b, ¬ InLog sb b → final.dev b = s.cache.dev b) ∨
       (∀ b, ¬ InLog sb b → final.dev b = if b ∈ s.pending then s.cache.cur b else s.cache.dev b)) := by
  have h := run_logInv hl hboot hrun
  have hwrites : t.writes.drop s.cache.writes.length
      = commitWrites sb s.cache.header s.cache.recordedData := by
    refine of_wp (Q := fun done t => done = true → t.writes.drop s.cache.writes.length
        = commitWrites sb s.cache.header s.cache.recordedData)
      (wp_cacheEndOp hl h.shape h.committable (E := fun _ => True) (fun _ => trivial)
        (fun _ _ _ _ _ => trivial) (fun _ _ _ hf => by cases hf) ?_) hend rfl
    intro op t _ _ hc _ _ _
    rw [hc.writes, drop_left]
  rw [hwrites]
  -- whatever the device replays to is there in the end
  have hfinish : ∀ v d, Replays sb v d → ∃ dev final, reboots sb d ks = .ok dev ∧
      initBcache sb dev = .ok final ∧ (diskHeader sb final.dev).numBlocks = 0 ∧
      ∀ b, ¬ InLog sb b → final.dev b = v b := by
    intro v d hv
    obtain ⟨dev, hdev, hr⟩ := reboots_keeps hl hv ks
    obtain ⟨final, hfinal, _, hr', hempty⟩ := initBcache_keeps hl hr
    exact ⟨dev, final, hdev, hfinal, hempty, fun b hb => hr'.of_empty hempty hb⟩
  rcases commit_replays hl h k with hold | hnew
  · obtain ⟨dev, final, hdev, hfinal, hempty, hv⟩ := hfinish _ _ hold
    exact ⟨dev, final, hdev, hfinal, hempty, Or.inl hv⟩
  · obtain ⟨dev, final, hdev, hfinal, hempty, hv⟩ := hfinish _ _ hnew
    refine ⟨dev, final, hdev, hfinal, hempty, Or.inr fun b hb => ?_⟩
    rw [hv b hb]
    unfold committedData
    simp only [h.pending b]

/-- Two operations change one block each; the first has ended, the second will commit for both. -/
def twoOps : List Act :=
  [.beginOp 1, .beginOp 2, .acquire 100, .store 100 fun _ _ => 1, .sync (some 1) 100, .release 100,
    .acquire 101, .store 101 fun _ _ => 2, .sync (some 2) 101, .release 101, .endOp 1]

/-- The commit is cut after its fourth write, when one of the two blocks is installed, and the recovery
    once after its first. -/
theorem commit_crash_atomic_twoOps : ∃ s₀ s t dev final,
    initBcache (logDisk 63) (fun _ => Bytes.zero) = .ok s₀ ∧
    run (step (logDisk 63)) { cache := s₀, pending := [] } twoOps = some s ∧ s.pending = [101, 100] ∧
    cacheEndOp (logDisk 63) 2 s.cache = .ok (true, t) ∧
    reboots (logDisk 63) (applyWrites s.cache.dev ((t.writes.drop s.cache.writes.length).take 4)) [1] = .ok dev ∧
    initBcache (logDisk 63) dev = .ok final ∧
    ((∀ b, ¬ InLog (logDisk 63) b → final.dev b = s.cache.dev b) ∨
     (∀ b, ¬ InLog (logDisk 63) b → final.dev b = if b ∈ s.pending then s.cache.cur b else s.cache.dev b)) := by
  have hboot : (initBcache (logDisk 63) (fun _ => Bytes.zero)).toOption.isSome = true := by decide +kernel
  obtain ⟨s₀, hs0⟩ := isSome_iff_exists.mp hboot
  have hview : ((initBcache (logDisk 63) (fun _ => Bytes.zero)).toOption.bind fun s₀ =>
      run (step (logDisk 63)) { cache := s₀, pending := [] } twoOps).map (fun s =>
        (s.pending, (cacheEndOp (logDisk 63) 2 s.cache).toOption.map Prod.fst))
        = some ([101, 100], some true) := by decide +kernel
  rw [hs0] at hview
  obtain ⟨s, hrun, hv⟩ := map_eq_some_iff.mp hview
  obtain ⟨hpending, hdone⟩ := Prod.mk.inj hv
  obtain ⟨⟨done, t⟩, hend, rfl⟩ := map_eq_some_iff.mp hdone
  have hfits : LogFits (logDisk 63) := ⟨by decide, by decide⟩
  have hboot' := toOption_eq_some.mp hs0
  have hend' := toOption_eq_some.mp hend
  obtain ⟨dev, final, hdev, hfinal, _, hor⟩ := commit_crash_atomic hfits hboot' hrun hend' 4 [1]
  exact ⟨s₀, s, t, dev, final, hboot', hrun, hpending, hend', hdev, hfinal, hor⟩

/-! ## A crash at any time -/

/-- The writes `ws` of a call, cut short anywhere, leave a device that replays to the old or to the new contents. -/
structure Tears (sb : SuperBlock) (s t : State) (ws : List (Nat × Data)) : Prop where
  writes : t.writes = s.writes ++ ws
  dev : t.dev = applyWrites s.dev ws
  cut : ∀ k, Replays sb s.dev (applyWrites s.dev (ws.take k)) ∨ Replays sb t.dev (applyWrites s.dev (ws.take k))

theorem LogInv.replays (h : LogInv sb s) : Replays sb s.cache.dev s.cache.dev :=
  replays_of_empty h.empty fun _ _ => rfl

/-- Nothing is written. -/
def Quiet (s t : State) : Prop := t.writes = s.writes ∧ t.dev = s.dev

theorem LogInv.quiet (h : LogInv sb s) {t : State} (hq : Quiet s.cache t) : ∃ ws, Tears sb s.cache t ws := by
  refine ⟨[], by rw [hq.1, append_nil], hq.2, fun k => .inl ?_⟩
  rw [take_nil]
  exact h.replays

/-- Of the contents only the home blocks count. -/
theorem Replays.congr {v v' dev : Nat → Data} (h : Replays sb v dev) (hv : ∀ b, ¬ InLog sb b → v b = v' b) :
    Replays sb v' dev where
  fits := h.fits
  home := h.home
  logged i hi := (h.logged i hi).trans (hv _ (h.home _ (blockNo_mem hi)))
  rest b hb hrec := (h.rest b hb hrec).trans (hv b hb)

theorem step_tears (hl : LogFits sb) {s' : Sys} {a : Act} (h : LogInv sb s) (hs : step sb s a = some s') :
    ∃ ws, Tears sb s.cache s'.cache ws := by
  have h' := step_logInv hl h hs
  have hexec : ∀ {α} {m : Prog Stop State α} {t}, wp m (fun _ => Quiet s.cache) (fun _ => True) s.cache →
      exec m s.cache = some t → ∃ ws, Tears sb s.cache t ws := fun hwp ht => h.quiet (of_wp_exec hwp ht)
  cases a with
  | acquire b =>
    obtain ⟨t, ht, rfl⟩ := map_eq_some_iff.mp hs
    apply hexec _ ht
    apply wp_cacheAcquire h.shape (fun _ => trivial)
    intro blk t _ ha
    exact ⟨by rw [ha.rest], by rw [ha.rest]⟩
  | store b f =>
    obtain ⟨-, rfl⟩ := of_guard hs
    exact h.quiet ⟨rfl, rfl⟩
  | sync ctx b =>
    obtain ⟨hguard, hs⟩ := ite_none_right_eq_some.mp hs
    rw [Bool.and_eq_true] at hguard
    obtain ⟨blk, hblk, _⟩ := held_of_isHeld hguard.1
    obtain ⟨t, ht, rfl⟩ := map_eq_some_iff.mp hs
    cases ctx with
    | none =>
      -- one block, written or not
      have hdev : t = s.cache.deviceWrite b.toNat blk.data :=
        of_wp_exec (I := fun t => t = _) (E := fun _ => True) (wp_cacheSync_null hblk rfl) ht
      subst hdev
      refine ⟨[(b.toNat, blk.data)], rfl, rfl, fun k => ?_⟩
      cases k with
      | zero => exact .inl h.replays
      | succ k =>
        right
        rw [take_of_length_le (by simp)]
        exact h'.replays
    | some c =>
      apply hexec _ ht
      exact wp_cacheSync_op (fun _ => trivial) (fun _ _ _ _ => trivial) fun _ _ _ _ _ => ⟨rfl, rfl⟩
  | release b =>
    obtain ⟨hheld, hs⟩ := ite_none_right_eq_some.mp hs
    obtain ⟨blk, hblk, hacq⟩ := held_of_isHeld hheld
    obtain ⟨t, ht, rfl⟩ := map_eq_some_iff.mp hs
    apply hexec _ ht
    apply wp_cacheRelease h.shape hblk hacq
    intro t hr
    exact ⟨by rw [hr.rest], by rw [hr.rest]⟩
  | beginOp c =>
    obtain ⟨-, hs⟩ := ite_none_left_eq_some.mp hs
    obtain ⟨t, ht, rfl⟩ := map_eq_some_iff.mp hs
    apply hexec _ ht
    exact wp_cacheBeginOp (fun _ => trivial) fun _ => ⟨rfl, rfl⟩
  | endOp c =>
    simp only [step] at hs
    split at hs
    · rename_i done t hend
      cases hs
      refine of_wp (Q := fun _ t => ∃ ws, Tears sb s.cache t ws) (wp_cacheEndOp hl h.shape h.committable
        (E := fun _ => True) (fun _ => trivial) (fun _ _ _ _ _ => trivial) (fun _ _ _ => h.quiet ⟨rfl, rfl⟩) ?_) hend
      intro op t _ _ hc _ _
      refine ⟨_, hc.writes, hc.dev, fun k => (commit_replays hl h k).imp id fun hr => hr.congr fun b hb => ?_⟩
      rw [hc.dev, applyWrites_commitWrites hl h.committable hb]
      rfl
    · cases hs

/-- With `k` writes made, `n` calls are through and lead to `s₁`; the next is not, and counts or does not. -/
structure CutAt (sb : SuperBlock) (s : Sys) (acts : List Act) (k n : Nat) (s₁ s₂ : Sys) : Prop where
  reached : run (step sb) s (acts.take n) = some s₁
  done : s₁.cache.writes.length ≤ s.cache.writes.length + k
  next : ∀ a ∈ acts[n]?, ∀ t ∈ step sb s₁ a, s.cache.writes.length + k < t.cache.writes.length
  torn : s₂ = s₁ ∨ ∃ a ∈ acts[n]?, step sb s₁ a = some s₂

/-- A run cut short anywhere is taken back to the state between two of its calls. -/
theorem run_tears (hl : LogFits sb) {s' : Sys} {acts : List Act} (h : LogInv sb s)
    (hrun : run (step sb) s acts = some s') :
    ∃ ws, s'.cache.writes = s.cache.writes ++ ws ∧ ∀ k, ∃ n s₁ s₂, CutAt sb s acts k n s₁ s₂ ∧
      Replays sb s₂.cache.dev (applyWrites s.cache.dev (ws.take k)) := by
  induction acts generalizing s with
  | nil =>
    obtain rfl : s = s' := by simpa using hrun
    refine ⟨[], (append_nil _).symm, fun k => ⟨0, s, s, ⟨rfl, Nat.le_add_right .., by simp, .inl rfl⟩, ?_⟩⟩
    rw [take_nil]
    exact h.replays
  | cons a acts ih =>
    obtain ⟨s₁, hs, hrun⟩ := run_cons_eq_some.mp hrun
    obtain ⟨ws, htears⟩ := step_tears hl h hs
    have hlen := congrArg length htears.writes
    rw [length_append] at hlen
    obtain ⟨vs, hvs, hlater⟩ := ih (step_logInv hl h hs) hrun
    refine ⟨ws ++ vs, by rw [hvs, htears.writes, append_assoc], fun k => ?_⟩
    by_cases hk : k < ws.length
    · -- the crash is inside the first call
      have hnext : ∀ a' ∈ some a, ∀ t ∈ step sb s a', s.cache.writes.length + k < t.cache.writes.length := by
        rintro _ ⟨⟩ t ht
        obtain rfl : s₁ = t := some.inj (hs.symm.trans ht)
        omega
      rw [take_append_of_le_length hk.le]
      rcases htears.cut k with hr | hr
      · exact ⟨0, s, s, ⟨rfl, Nat.le_add_right .., hnext, .inl rfl⟩, hr⟩
      · exact ⟨0, s, s₁, ⟨rfl, Nat.le_add_right .., hnext, .inr ⟨a, rfl, hs⟩⟩, hr⟩
    · obtain ⟨n, s₂, s₃, hcut, hr⟩ := hlater (k - ws.length)
      have hdone := hcut.done
      refine ⟨n + 1, s₂, s₃, ⟨run_cons_eq_some.mpr ⟨s₁, hs, hcut.reached⟩, by omega, fun a' ha t ht => ?_,
        hcut.torn⟩, ?_⟩
      · have := hcut.next a' ha t ht
        omega
      · rwa [take_append, take_of_length_le (by omega), applyWrites_append, ← htears.dev]

/-- **A crash at any time.**  Stop any run after any `k` of its device writes, crash the recovery any number of
    times, and let it run: the home blocks are those of a state between two calls, and only the call that was
    interrupted may be lost. -/
theorem crash_between_calls (hl : LogFits sb) {disk : Nat → Data} {s₀ : State} (hboot : initBcache sb disk = .ok s₀)
    {acts : List Act} (hrun : run (step sb) ⟨s₀, []⟩ acts = some s) (k : Nat) (ks : List Nat) :
    ∃ n s₁ s₂ dev final, CutAt sb ⟨s₀, []⟩ acts k n s₁ s₂ ∧
      reboots sb (applyWrites s₀.dev ((s.cache.writes.drop s₀.writes.length).take k)) ks = .ok dev ∧
      initBcache sb dev = .ok final ∧ ∀ b, ¬ InLog sb b → final.dev b = s₂.cache.dev b := by
  obtain ⟨ws, hws, hall⟩ := run_tears hl (logInv_booted (booted_of_initBcache hboot)) hrun
  obtain ⟨n, s₁, s₂, hcut, hr⟩ := hall k
  obtain ⟨dev, hdev, hr⟩ := reboots_keeps hl hr ks
  obtain ⟨final, hfinal, _, hr, hempty⟩ := initBcache_keeps hl hr
  rw [hws, drop_left]
  exact ⟨n, s₁, s₂, dev, final, hcut, hdev, hfinal, fun b hb => hr.of_empty hempty hb⟩

/-- The crash comes in the commit for two operations, when one of their blocks is installed. -/
theorem crash_between_calls_twoOps : ∃ s₀ n s₁ s₂ dev final,
    initBcache (logDisk 63) (fun _ => Bytes.zero) = .ok s₀ ∧
    CutAt (logDisk 63) ⟨s₀, []⟩ (twoOps ++ [.endOp 2]) 4 n s₁ s₂ ∧ initBcache (logDisk 63) dev = .ok final ∧
    ∀ b, ¬ InLog (logDisk 63) b → final.dev b = s₂.cache.dev b := by
  have hview : ((initBcache (logDisk 63) fun _ => Bytes.zero).toOption.bind fun s₀ : State =>
      run (step (logDisk 63)) ⟨s₀, []⟩ (twoOps ++ [.endOp 2])).isSome = true := by decide +kernel
  obtain ⟨s, hs⟩ := isSome_iff_exists.mp hview
  obtain ⟨s₀, hboot, hrun⟩ := bind_eq_some_iff.mp hs
  have hboot' := toOption_eq_some.mp hboot
  obtain ⟨n, s₁, s₂, dev, final, hcut, -, hrest⟩ := crash_between_calls ⟨by decide, by decide⟩ hboot' hrun 4 [1]
  exact ⟨s₀, n, s₁, s₂, dev, final, hboot', hcut, hrest⟩

end Armv8Os.Fs.Cache.Crash
