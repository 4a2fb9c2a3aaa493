/-
  The cache and the log REFINE a flat array of blocks.

  A single thread begins and ends operations and updates blocks; an update acquires a block, changes
  its data, syncs it (under an operation, or with `NULL`) and releases it.  The abstract system is an
  array `Nat → Data` in which an update replaces one entry and nothing else happens.

  The relation `Refines sb flat s`:
  * what a client would see of a block outside the log is the entry of the array (`value`);
  * exactly the recorded blocks are pinned (`pinned`), so nothing dirty can be evicted;
  * all other blocks are clean (`clean`), the header block apart: `write_header` goes to the device
    behind the cache's back.

  `updated_refines` and `committed_refines` are the two steps with an argument in them.
-/
import Armv8Os.Lib.Transition
import Armv8Os.Fs.Commit

namespace Armv8Os.Fs.Cache

open Prog Transition
open Function (update update_of_ne update_self)

/-! ## The client and the array -/

/-- What the thread does. -/
inductive Call where
  | beginOp (c : Nat)
  | endOp (c : Nat)
  | update (ctx : Option Nat) (b : Nat) (f : Data → Data)

/-- `acquire(b)`; change the data; `sync(ctx, b)`; `release`. -/
def clientUpdate (ctx : Option Nat) (b : Nat) (f : Data → Data) : Prog Stop State Unit := do
  let blk ← cacheAcquire b
  assign blk.blockNo fun blk => { blk with data := f blk.data }
  cacheSync ctx blk.blockNo
  cacheRelease blk.blockNo

/-- One call that returns.  An operation is begun with a context that is not in use, and updates stay
    outside the log; an `end_op` that has to wait for another operation never returns to a single
    thread. -/
def call (sb : SuperBlock) (s : State) : Call → Option State
  | .beginOp c => if (s.op c).isSome then none else exec (cacheBeginOp sb c) s
  | .endOp c =>
    match cacheEndOp sb c s with
    | .ok (true, s') => some s'
    | _ => none
  | .update ctx b f => if InLog sb b then none else exec (clientUpdate ctx b f) s

/-- The same call on the array. -/
def flatCall (flat : Nat → Data) : Call → Nat → Data
  | .update _ b f => update flat b (f (flat b))
  | _ => flat

/-! ## One update -/

/-- What an update does outside the list of blocks. -/
def SyncedRest (s s' : State) (b : Nat) (d : Data) : Option Nat → Prop
  | none => s' =
    { s with
      lru := s'.lru
      dev := update s.dev b d
      writes := s.writes ++ [(b, d)] }
  | some c => ∃ op h rm, s.op c = some op ∧ syncSection s.header op.rm b = some (h, rm) ∧ s' =
    { s with
      lru := s'.lru
      header := h
      ops := setRm c rm s.ops }

/-- What an update does. -/
structure Updated (s : State) (ctx : Option Nat) (b : Nat) (d : Data) (s' : State) : Prop where
  shape : Shape s'
  rest : SyncedRest s s' b d ctx
  self : ∃ blk, s'.block b = some blk ∧ blk.data = d ∧ blk.acquired = false ∧
    blk.pinned = (ctx.isSome || s.isPinned b)
  other : ∀ b', b' ≠ b → Kept s s' b'

variable {s : State} {b : Nat}

/-- **An update** of a block nobody holds.  It can only fail in `cache_sync`. -/
theorem wp_clientUpdate (h : Shape s) {ctx : Option Nat} {f : Data → Data}
    {Q : Unit → State → Prop} {E : Stop → Prop} (hfree : ¬ Held s b)
    (hdead : ∀ c, ctx = some c → s.op c = none → E .noOp)
    (hbudget : ∀ c op, ctx = some c → s.op c = some op → b ∉ s.header.recorded → op.rm = 0 → E .noBudget)
    (hQ : ∀ s', Updated s ctx b (f (s.cur b)) s' → Q () s') : wp (clientUpdate ctx b f) Q E s := by
  unfold clientUpdate
  rw [wp_bind]
  refine wp_cacheAcquire h (fun hb => absurd hb hfree) fun blk s₁ _ ha => ?_
  rw [wp_bind, ha.blockNo]
  let s₂ := s₁.assign b fun blk => { blk with data := f blk.data }
  show wp (cacheSync ctx b >>= _) Q E s₂
  have hrest : s₂ = { s with lru := s₂.lru } := by
    show s₁.assign b _ = _
    rw [ha.rest]
    rfl
  have hshape : Shape s₂ := ha.shape.assign fun _ => ⟨rfl, rfl, rfl⟩
  have hself : s₂.block b = some { blk with data := f (s.cur b) } := by
    refine (block_assign (by intro _; rfl)).trans ?_
    rw [if_pos rfl, ha.self, ← ha.data]
    rfl
  have hother : ∀ b', b' ≠ b → s₂.block b' = s₁.block b' := fun b' hne =>
    (block_assign (by intro _; rfl)).trans (if_neg hne)
  rw [wp_bind]
  cases ctx with
  | none =>
    refine wp_cacheSync_null hself ?_
    refine wp_cacheRelease (hshape.deviceWrite b _) hself ha.acquired fun s₄ hr => hQ s₄ ?_
    refine ⟨hr.shape, ?_, ⟨_, hr.self, rfl, rfl, ha.pinned⟩, fun b' hne => ?_⟩
    · show s₄ = _
      rw [hr.rest, hrest]
      rfl
    · refine (ha.other b' hne).trans (Or.inl ?_)
      rw [hr.other b' hne]
      exact hother b' hne
  | some c =>
    have hops : s₂.op c = s.op c := by rw [hrest]; rfl
    have hheader : s₂.header = s.header := by rw [hrest]
    refine wp_cacheSync_op (fun hc => hdead c rfl (hops ▸ hc)) (fun op hc => ?_) fun op hd rm hc hs => ?_
    · rw [hheader]
      exact hbudget c op rfl (hops ▸ hc)
    rw [hheader] at hs
    have hpin : ∀ b', (synced s₂ c b hd rm).block b'
        = if b' = b then some { blk with data := f (s.cur b), pinned := true } else s₁.block b' := by
      intro b'
      refine (block_assign (by intro _; rfl)).trans ?_
      by_cases hb : b' = b
      · subst hb
        rw [if_pos rfl, if_pos rfl, hself]
        rfl
      · rw [if_neg hb, if_neg hb]
        exact hother b' hb
    have hshape' : Shape (synced s₂ c b hd rm) := by
      have := hshape.assign (b := b) (f := fun blk => { blk with pinned := true }) fun _ => ⟨rfl, rfl, rfl⟩
      exact ⟨this.nodup, this.locks⟩
    refine wp_cacheRelease hshape' ((hpin b).trans (if_pos rfl)) ha.acquired fun s₄ hr => hQ s₄ ?_
    refine ⟨hr.shape, ⟨op, hd, rm, hops ▸ hc, hs, ?_⟩, ⟨_, hr.self, rfl, rfl, rfl⟩, fun b' hne => ?_⟩
    · rw [hr.rest, hrest]
      rfl
    · refine (ha.other b' hne).trans (Or.inl ?_)
      rw [hr.other b' hne, hpin b', if_neg hne]

/-! ## The relation -/

/-- The state of the cache between two calls, and the array it stands for. -/
structure Refines (sb : SuperBlock) (s : State) (flat : Nat → Data) : Prop where
  shape : Shape s
  free : ∀ b, ¬ Held s b
  accounts : Accounts sb s
  home : ∀ b ∈ s.header.recorded, ¬ InLog sb b
  pinned : ∀ b, s.isPinned b = decide (b ∈ s.header.recorded)
  clean : ∀ b, b ≠ sb.logStart.toNat → b ∉ s.header.recorded → Coh s b
  value : ∀ b, ¬ InLog sb b → s.cur b = flat b

variable {flat : Nat → Data} {sb : SuperBlock}

/-- Outside the log a block cannot lose its data. -/
theorem Refines.safe (hl : LogFits sb) (h : Refines sb s flat) (hb : ¬ InLog sb b) : s.isPinned b = true ∨ Coh s b := by
  by_cases hrec : b ∈ s.header.recorded
  · left
    rw [h.pinned b]
    exact decide_eq_true hrec
  · right
    refine h.clean b ?_ hrec
    rintro rfl
    exact hb (inLog_logStart hl)

theorem Refines.committable (h : Refines sb s flat) :
    Committable sb s :=
  ⟨h.accounts.numBlocks_le, h.home, fun b hb => (h.pinned b).trans (decide_eq_true hb)⟩

theorem booted_refines (hl : LogFits sb) (h : Booted sb s) :
    Refines sb s s.dev := by
  have hnone := LogHeader.recorded_of_numBlocks h.header
  refine ⟨h.shape, h.free, Accounts.booted h, ?_, ?_, fun b hb _ => h.coh b hb, ?_⟩
  · rw [hnone]
    intro b hb
    cases hb
  · intro b
    rw [hnone, h.unpinned b]
    rfl
  · intro b hb
    refine (h.coh b ?_).cur
    rintro rfl
    exact hb (inLog_logStart hl)

/-- An update replaces one entry of the array. -/
theorem updated_refines (hl : LogFits sb) {s' : State}
    (h : Refines sb s flat) {ctx : Option Nat} (hb : ¬ InLog sb b) {d : Data}
    (hu : Updated s ctx b d s') : Refines sb s' (update flat b d) := by
  obtain ⟨blk, hblk, hdata, hacq, hpin⟩ := hu.self
  have hfree : ∀ b', ¬ Held s' b' := by
    intro b' hheld
    by_cases he : b' = b
    · subst he
      obtain ⟨blk', hblk', hacq'⟩ := hheld
      rw [hblk] at hblk'
      cases hblk'
      rw [hacq] at hacq'
      cases hacq'
    · exact h.free b' ((hu.other b' he).held hheld)
  have hdev : ∀ b', b' ≠ b → s'.dev b' = s.dev b' := by
    intro b' he
    have hrest := hu.rest
    cases ctx with
    | none =>
      rw [show s' = _ from hrest]
      exact update_of_ne he ..
    | some c =>
      obtain ⟨_, _, _, _, _, hrest⟩ := hrest
      rw [hrest]
  have hvalue : ∀ b', ¬ InLog sb b' → s'.cur b' = update flat b d b' := by
    intro b' hb'
    by_cases he : b' = b
    · subst he
      rw [cur_of_block hblk, update_self, hdata]
    · rw [update_of_ne he, (hu.other b' he).cur (hdev b' he) (h.safe hl hb')]
      exact h.value b' hb'
  cases ctx with
  | none =>
    have hrest : s' = _ := hu.rest
    have hheader : s'.header = s.header := by rw [hrest]
    refine ⟨hu.shape, hfree, h.accounts.congr (by rw [hrest]) hheader (by rw [hrest]), ?_, ?_, ?_, hvalue⟩
    · rw [hheader]
      exact h.home
    · intro b'
      rw [hheader, ← h.pinned b']
      by_cases he : b' = b
      · subst he
        rw [isPinned_of_block hblk, hpin]
        rfl
      · exact (hu.other b' he).isPinned
    · intro b' hne hrec
      rw [hheader] at hrec
      by_cases he : b' = b
      · -- written through
        subst he
        intro blk' hblk'
        rw [hblk] at hblk'
        cases hblk'
        rw [hdata, hrest]
        exact (update_self (β := fun _ => Data) b' d s.dev).symm
      · exact (hu.other b' he).coh (hdev b' he) (h.clean b' hne hrec)
  | some c =>
    obtain ⟨op, hd, rm, hop, hs, hrest⟩ := hu.rest
    have hheader : s'.header = hd := by rw [hrest]
    have hmem : ∀ b', b' ∈ s'.header.recorded ↔ b' ∈ s.header.recorded ∨ b' = b := by
      intro b'
      rw [hheader]
      exact mem_recorded_sync hs
    refine ⟨hu.shape, hfree, ?_, ?_, ?_, ?_, hvalue⟩
    · exact (h.accounts.sync hop hs).congr (by rw [hrest]; rfl) (by rw [hrest]; rfl) (by rw [hrest]; rfl)
    · intro b' hb'
      rcases (hmem b').mp hb' with hrec | rfl
      · exact h.home b' hrec
      · exact hb
    · intro b'
      simp only [hmem b']
      by_cases he : b' = b
      · subst he
        rw [isPinned_of_block hblk, hpin]
        simp
      · rw [(hu.other b' he).isPinned, h.pinned b']
        simp [he]
    · intro b' hne hrec
      have hnot : b' ∉ s.header.recorded ∧ b' ≠ b := not_or.mp fun hor => hrec ((hmem b').mpr hor)
      exact (hu.other b' hnot.2).coh (hdev b' hnot.2) (h.clean b' hne hnot.1)

/-- After a commit the device has the array. -/
theorem committed_dev (hl : LogFits sb) {t : State}
    (h : Refines sb s flat) (hc : Committed sb s t) (hb : ¬ InLog sb b) : t.dev b = flat b := by
  rw [hc.dev, applyWrites_commitWrites hl h.committable hb, ← h.value b hb]
  split
  · rfl
  · rename_i hrec
    -- not recorded, so not pinned, so clean
    rcases h.safe hl hb with hpin | hcoh
    · rw [h.pinned b] at hpin
      exact absurd (of_decide_eq_true hpin) hrec
    · exact hcoh.cur.symm

/-- A commit does not change the array. -/
theorem committed_refines (hl : LogFits sb) {t : State}
    (h : Refines sb s flat) (hc : Committed sb s t) (ha : Accounts sb t) : Refines sb t flat := by
  have hnone : t.header.recorded = [] := by rw [hc.header]; rfl
  have hcoh : ∀ b, b ≠ sb.logStart.toNat → Coh t b := by
    intro b hne
    refine hc.coh b hne ?_
    by_cases hrec : b ∈ s.header.recorded
    · exact Or.inl hrec
    · exact Or.inr (h.clean b hne hrec)
  refine ⟨hc.shape, fun b hb => h.free b (hc.held b hb), ha, ?_, ?_, fun b hne _ => hcoh b hne, ?_⟩
  · rw [hnone]
    intro b hb
    cases hb
  · intro b
    rw [hc.pinned b, h.pinned b, hnone, decide_not, Bool.and_not_self]
    rfl
  · intro b hb
    rw [(hcoh b ?_).cur, committed_dev hl h hc hb]
    rintro rfl
    exact hb (inLog_logStart hl)

/-! ## The calls -/

/-- **Every call keeps the relation.** -/
theorem call_refines (hl : LogFits sb) {s' : State} {a : Call}
    (h : Refines sb s flat) (hcall : call sb s a = some s') : Refines sb s' (flatCall flat a) := by
  cases a with
  | beginOp c =>
    simp only [call] at hcall
    split at hcall
    · cases hcall
    rename_i hfresh
    rw [Option.not_isSome_iff_eq_none] at hfresh
    refine of_wp_exec (I := fun t => Refines sb t flat) (E := fun _ => True)
      (wp_cacheBeginOp (fun _ => trivial) fun hfree => ?_) hcall
    exact ⟨⟨h.shape.nodup, h.shape.locks⟩, h.free, h.accounts.begin hfresh hfree, h.home, h.pinned,
      h.clean, h.value⟩
  | endOp c =>
    simp only [call] at hcall
    split at hcall
    · rename_i t hend
      cases hcall
      refine of_wp (wp_cacheEndOp hl h.shape h.committable (Q := fun done t => done = true → Refines sb t flat)
        (E := fun _ => True) (fun _ => trivial) (fun _ _ _ _ _ => trivial)
        (fun _ _ _ hf => by cases hf) ?_) hend rfl
      intro op t hop hlast hc hlog hops _
      exact committed_refines hl h hc (h.accounts.end_last hop hlast hlog hc.header hops)
    · cases hcall
  | update ctx b f =>
    simp only [call] at hcall
    split at hcall
    · cases hcall
    rename_i hb
    refine of_wp_exec (I := fun t => Refines sb t (flatCall flat (.update ctx b f)))
      (E := fun _ => True) (wp_clientUpdate h.shape (h.free b) (fun _ _ _ => trivial)
        (fun _ _ _ _ _ _ => trivial) fun t hu => ?_) hcall
    rw [h.value b hb] at hu
    exact updated_refines hl h hb hu

/-- **Every run keeps it.** -/
theorem run_refines (hl : LogFits sb) {t : State}
    (h : Refines sb s flat) {calls : List Call} (hrun : run (call sb) s calls = some t) :
    Refines sb t (calls.foldl flatCall flat) :=
  run_simulates (A := flatCall) (fun _ _ _ _ hR hcall => call_refines hl hR hcall) calls s t flat h hrun

/-- The only running operation can end: nobody holds a block the commit would wait for. -/
theorem Refines.endOp_returns (hl : LogFits sb) (h : Refines sb s flat) {op : Op} (hops : s.ops = [op]) :
    ∃ s', cacheEndOp sb op.id s = .ok (true, s') := by
  have hop : s.op op.id = some op := by
    unfold State.op
    rw [hops, Keyed.lookup_cons, if_pos rfl]
  have hlast : ∀ op', s.op op.id = some op' → (endSection s.log op'.rm).outstanding = 0 := by
    intro op' hop'
    rw [(h.accounts.endCounters hop').1, hops, Keyed.remove_cons, if_pos rfl]
    rfl
  obtain ⟨done, s', hend, hdone⟩ := exists_of_wp (wp_cacheEndOp hl h.shape h.committable (c := op.id)
    (Q := fun done _ => done = true) (fun hnone => by rw [hop] at hnone; cases hnone)
    (fun _ _ _ b hb => h.free b hb) (fun op' hop' hmore => absurd (hlast op' hop') hmore)
    fun _ _ _ _ _ _ _ => rfl)
  subst hdone
  exact ⟨s', hend⟩

/-- **Cache transparency**: after any calls that returned, `cache_acquire` returns, with the block
    asked for and the data of the array; the only running operation can end, and then the device has
    the array. -/
theorem cache_transparent {sb : SuperBlock} (hl : LogFits sb) {disk : Nat → Data} {s₀ s : State}
    (hboot : initBcache sb disk = .ok s₀) {calls : List Call} (hrun : run (call sb) s₀ calls = some s) :
    (∀ b, ∃ blk s', cacheAcquire b s = .ok (blk, s') ∧ blk.blockNo = b ∧
      (¬ InLog sb b → blk.data = calls.foldl flatCall s₀.dev b)) ∧
    (∀ c s', cacheEndOp sb c s = .ok (true, s') →
      ∀ b, ¬ InLog sb b → s'.dev b = calls.foldl flatCall s₀.dev b) ∧
    (∀ op, s.ops = [op] → ∃ s', cacheEndOp sb op.id s = .ok (true, s')) := by
  have h := run_refines hl (booted_refines hl (booted_of_initBcache hboot)) hrun
  refine ⟨fun b => ?_, fun c s' hend b hb => ?_, fun op hops => ?_⟩
  · obtain ⟨blk, s', hacq, hres⟩ := exists_of_wp (wp_cacheAcquire h.shape
      (Q := fun blk s' => Acquired s b blk s') (fun hb => h.free b hb) fun _ _ _ ha => ha)
    exact ⟨blk, s', hacq, hres.blockNo, fun hb => hres.data.trans (h.value b hb)⟩
  · refine of_wp (wp_cacheEndOp hl h.shape h.committable
      (Q := fun done t => done = true → t.dev b = calls.foldl flatCall s₀.dev b)
      (E := fun _ => True) (fun _ => trivial) (fun _ _ _ _ _ => trivial)
        (fun _ _ _ hf => by cases hf) ?_) hend rfl
    intro op t _ _ hc _ _ _
    exact committed_dev hl h hc hb
  · exact h.endOp_returns hl hops

/-- An operation updates block `100` twice, `NULL` writes block `101` through, and it ends. -/
def twoUpdates : List Call :=
  [.beginOp 7, .update (some 7) 100 fun _ _ => 1, .update none 101 fun _ _ => 2,
    .update (some 7) 100 fun d i => d i + 1]

theorem cache_transparent_twoUpdates : ∃ s₀ s blk s',
    initBcache (logDisk 63) (fun _ => Bytes.zero) = .ok s₀ ∧ run (call (logDisk 63)) s₀ twoUpdates = some s ∧
    cacheAcquire 100 s = .ok (blk, s') ∧ blk.data = fun _ => 2 := by
  have hview : ((initBcache (logDisk 63) (fun _ => Bytes.zero)).toOption.bind fun s₀ =>
      run (call (logDisk 63)) s₀ twoUpdates).map (fun s => s.ops.map Op.rm) = some [9] := by decide +kernel
  obtain ⟨s, hs, _⟩ := Option.map_eq_some_iff.mp hview
  obtain ⟨s₀, hs0, hrun⟩ := Option.bind_eq_some_iff.mp hs
  have hboot := toOption_eq_some.mp hs0
  have hfits : LogFits (logDisk 63) := ⟨by decide, by decide⟩
  obtain ⟨blk, s', hacq, _, hdata⟩ := (cache_transparent hfits hboot hrun).1 100
  refine ⟨s₀, s, blk, s', hboot, hrun, hacq, (hdata (by decide)).trans ?_⟩
  rfl

end Armv8Os.Fs.Cache
