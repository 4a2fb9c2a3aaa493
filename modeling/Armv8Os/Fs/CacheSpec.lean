/-
  One spec lemma per function of the block cache.

  `Shape` is what the list always looks like: no number twice, and the semaphore of a block says
  whether it is acquired.  Everything else is said through three views of a state, so that no later
  proof looks at the list:

  * `s.block b`    — the cached copy of `b`, if there is one;
  * `s.cur b`      — what a client sees of `b`;
  * `s.isPinned b` — whether the copy is pinned.

  `Acquired` and `Copied` say what `cache_acquire` and one round of the copy loops do to these views:
  the blocks named change as they should, any OTHER block is untouched or has been evicted, and then
  it was neither pinned nor acquired.  `wp_copyLoop` is a whole copy loop.
-/
import Armv8Os.Fs.Cache

namespace Armv8Os.Fs.Cache

open Sem Prog List Keyed
open Function (update update_of_ne update_self)

/-! ## The shape of the list -/

/-- No block number twice, and the lock of a block is taken exactly while it is acquired. -/
structure Shape (s : State) : Prop where
  nodup : Keyed.KeysNodup Block.blockNo s.lru
  locks : ∀ blk ∈ s.lru, blk.lock = if blk.acquired then initSem 0 else initSem 1

/-- Somebody has the block. -/
def Held (s : State) (b : Nat) : Prop := ∃ blk, s.block b = some blk ∧ blk.acquired = true

/-- The cached copy is pinned. -/
def State.isPinned (s : State) (b : Nat) : Bool := ((s.block b).map Block.pinned).getD false

variable {s : State} {b : Nat} {blk : Block}

theorem blockNo_of_block (h : s.block b = some blk) :
    blk.blockNo = b := key_of_lookup h

theorem cur_of_block (h : s.block b = some blk) :
    s.cur b = blk.data := by
  unfold State.cur
  rw [h]
  rfl

theorem cur_of_none (h : s.block b = none) : s.cur b = s.dev b := by
  unfold State.cur
  rw [h]
  rfl

theorem isPinned_of_block (h : s.block b = some blk) :
    s.isPinned b = blk.pinned := by
  unfold State.isPinned
  rw [h]
  rfl

theorem isPinned_of_none (h : s.block b = none) : s.isPinned b = false := by
  unfold State.isPinned
  rw [h]
  rfl

theorem block_of_isPinned (h : s.isPinned b = true) :
    ∃ blk, s.block b = some blk ∧ blk.pinned = true := by
  unfold State.isPinned at h
  cases hb : s.block b with
  | none => rw [hb] at h; cases h
  | some blk => rw [hb] at h; exact ⟨blk, rfl, h⟩

theorem block_assign {b' : Nat} {f : Block → Block} (hf : ∀ blk, (f blk).blockNo = blk.blockNo) :
    (s.assign b f).block b' = if b' = b then (s.block b').map f else s.block b' :=
  lookup_assign hf

/-- An assignment that does not touch the lock keeps the shape. -/
theorem Shape.assign {f : Block → Block} (h : Shape s)
    (hf : ∀ blk, (f blk).blockNo = blk.blockNo ∧ (f blk).lock = blk.lock ∧
      (f blk).acquired = blk.acquired) : Shape (s.assign b f) := by
  constructor
  · exact h.nodup.assign fun blk => (hf blk).1
  · intro blk hblk
    rcases mem_assign hblk with ⟨hmem, _⟩ | ⟨a, hmem, _, rfl⟩
    · exact h.locks blk hmem
    · rw [(hf a).2.1, (hf a).2.2]
      exact h.locks a hmem

/-! ## Eviction -/

/-- `b` has been evicted: it was cached, and neither pinned nor acquired. -/
def Evicted (s s' : State) (b : Nat) : Prop :=
  s'.block b = none ∧ ∃ old, s.block b = some old ∧ old.pinned = false ∧ old.acquired = false

/-- `b` is as it was, or has been evicted. -/
def Kept (s s' : State) (b : Nat) : Prop := s'.block b = s.block b ∨ Evicted s s' b

variable {s' : State}

theorem Kept.trans {s'' : State} (h : Kept s s' b) (h' : Kept s' s'' b) : Kept s s'' b := by
  rcases h with he | ⟨hnone, hold⟩
  · rcases h' with he' | ⟨hnone', old, hold, hfree⟩
    · exact .inl (he'.trans he)
    · exact .inr ⟨hnone', old, by rw [← he]; exact hold, hfree⟩
  · rcases h' with he' | ⟨_, old, hold', _⟩
    · exact .inr ⟨he'.trans hnone, hold⟩
    · rw [hnone] at hold'
      cases hold'

/-- Nothing pinned is evicted. -/
theorem Kept.isPinned (h : Kept s s' b) : s'.isPinned b = s.isPinned b := by
  rcases h with he | ⟨hnone, old, hold, hpin, _⟩
  · unfold State.isPinned
    rw [he]
  · rw [isPinned_of_none hnone, isPinned_of_block hold, hpin]

theorem Kept.held (h : Kept s s' b) (hheld : Held s' b) : Held s b := by
  obtain ⟨blk, hblk, hacq⟩ := hheld
  rcases h with he | ⟨hnone, _⟩
  · exact ⟨blk, by rw [← he]; exact hblk, hacq⟩
  · rw [hnone] at hblk
    cases hblk

/-- The eviction takes the last block away, or nothing. -/
theorem evict_cases (lru : List Block) :
    evict lru = lru ∨
    ∃ last, lru.getLast? = some last ∧ last.pinned = false ∧ last.acquired = false ∧
      evict lru = lru.dropLast := by
  unfold evict
  split
  · split
    · rename_i last hlast
      split
      · rename_i hfree
        simp only [Bool.and_eq_true, Bool.not_eq_true'] at hfree
        exact .inr ⟨last, hlast, hfree.1, hfree.2, rfl⟩
      · exact .inl rfl
    · exact .inl rfl
  · exact .inl rfl

/-! ## `cache_acquire` -/

/-- What `cache_acquire(b)` does. -/
structure Acquired (s : State) (b : Nat) (blk : Block) (s' : State) : Prop where
  shape : Shape s'
  rest : s' = { s with lru := s'.lru }
  blockNo : blk.blockNo = b
  data : blk.data = s.cur b
  acquired : blk.acquired = true
  pinned : blk.pinned = s.isPinned b
  self : s'.block b = some blk
  other : ∀ b', b' ≠ b → Kept s s' b'

/-- A hit. -/
theorem acquired_hit (h : Shape s) (hb : s.block b = some blk) :
    Acquired s b { blk with acquired := true, lock := initSem 0 }
      { s with lru := { blk with acquired := true, lock := initSem 0 } ::
        Keyed.remove Block.blockNo s.lru b } := by
  have hno := blockNo_of_block hb
  refine ⟨⟨?_, ?_⟩, rfl, hno, (cur_of_block hb).symm, rfl, (isPinned_of_block hb).symm, ?_, ?_⟩
  · refine h.nodup.remove.cons ?_
    show lookup _ _ blk.blockNo = none
    rw [hno]
    exact lookup_remove_self h.nodup
  · intro a ha
    rcases mem_cons.mp ha with rfl | ha
    · rfl
    · exact h.locks a (mem_of_mem_eraseP ha)
  · show lookup _ _ b = _
    rw [lookup_cons, if_pos hno]
  · intro b' hne
    refine .inl ?_
    show lookup _ _ b' = _
    rw [lookup_cons, if_neg (by rw [hno]; exact hne.symm)]
    exact lookup_remove_of_ne hne

/-- A miss: the new block is first, so the eviction does not hit it. -/
theorem acquired_miss (h : Shape s) (hb : s.block b = none) :
    Acquired s b (loaded b (s.dev b)) { s with lru := evict (loaded b (s.dev b) :: s.lru) } := by
  have hnd : Keyed.KeysNodup Block.blockNo (loaded b (s.dev b) :: s.lru) := h.nodup.cons hb
  have hlocks : ∀ blk ∈ loaded b (s.dev b) :: s.lru,
      blk.lock = if blk.acquired then initSem 0 else initSem 1 := by
    intro blk hblk
    rcases mem_cons.mp hblk with rfl | hblk
    · rfl
    · exact h.locks blk hblk
  have hlook : ∀ b', lookup Block.blockNo (loaded b (s.dev b) :: s.lru) b'
      = if b = b' then some (loaded b (s.dev b)) else s.block b' := fun b' => lookup_cons
  have hdata : (loaded b (s.dev b)).data = s.cur b := (cur_of_none hb).symm
  have hpin : (loaded b (s.dev b)).pinned = s.isPinned b := (isPinned_of_none hb).symm
  rcases evict_cases (loaded b (s.dev b) :: s.lru) with he | ⟨last, hlast, hpinned, hacq, he⟩
  · rw [he]
    refine ⟨⟨hnd, hlocks⟩, rfl, rfl, hdata, rfl, hpin, ?_, fun b' hne => .inl ?_⟩
    · exact (hlook b).trans (if_pos rfl)
    · exact (hlook b').trans (if_neg hne.symm)
  · have hne : last.blockNo ≠ b := by
      intro e
      have hmem := mem_of_getLast? hlast
      have := lookup_of_mem hnd hmem
      rw [e, hlook b, if_pos rfl] at this
      cases this
      cases hacq
    have hdrop : ∀ b', lookup Block.blockNo (loaded b (s.dev b) :: s.lru).dropLast b'
        = if last.blockNo = b' then none else if b = b' then some (loaded b (s.dev b)) else s.block b' := by
      intro b'
      rw [lookup_dropLast hnd hlast, hlook]
    rw [he]
    refine ⟨⟨hnd.dropLast, fun blk hblk => hlocks blk (mem_of_mem_dropLast hblk)⟩, rfl, rfl, hdata,
      rfl, hpin, ?_, fun b' hb' => ?_⟩
    · exact (hdrop b).trans (by rw [if_neg hne, if_pos rfl])
    · by_cases hl : last.blockNo = b'
      · refine .inr ⟨(hdrop b').trans (if_pos hl), last, ?_, hpinned, hacq⟩
        have := lookup_of_mem hnd (mem_of_getLast? hlast)
        rw [hl, hlook b', if_neg hb'.symm] at this
        exact this
      · exact .inl ((hdrop b').trans (by rw [if_neg hl, if_neg hb'.symm]))

variable {E : Stop → Prop}

/-- **`cache_acquire`** sleeps on a block that is held and returns otherwise. -/
theorem wp_cacheAcquire (h : Shape s) {Q : Block → State → Prop}
    (hheld : Held s b → E .sleeps) (hQ : ∀ blk s', ¬ Held s b → Acquired s b blk s' → Q blk s') :
    wp (cacheAcquire b) Q E s := by
  unfold cacheAcquire
  rw [wp_bind, wp_get]
  cases hb : s.block b with
  | none =>
    have hnot : ¬ Held s b := by
      rintro ⟨blk, hblk, _⟩
      rw [hb] at hblk
      cases hblk
    exact hQ _ _ hnot (acquired_miss h hb)
  | some blk =>
    have hlock := h.locks blk (mem_of_lookup hb)
    cases hacq : blk.acquired with
    | true =>
      rw [hacq, if_pos rfl] at hlock
      simp only [hlock]
      exact hheld ⟨blk, hb, hacq⟩
    | false =>
      rw [hacq, if_neg (by simp)] at hlock
      have hnot : ¬ Held s b := by
        rintro ⟨blk', hblk', hacq'⟩
        rw [hb] at hblk'
        cases hblk'
        rw [hacq] at hacq'
        cases hacq'
      simp only [hlock]
      exact hQ _ _ hnot (acquired_hit h hb)

theorem Acquired.isPinned (h : Acquired s b blk s') (b' : Nat) :
    s'.isPinned b' = s.isPinned b' := by
  by_cases hb : b' = b
  · subst hb
    rw [isPinned_of_block h.self, h.pinned]
  · exact (h.other b' hb).isPinned

/-! ## `cache_release` -/

/-- What `cache_release` does to the block it is given. -/
structure Released (s : State) (b : Nat) (blk : Block) (s' : State) : Prop where
  shape : Shape s'
  rest : s' = { s with lru := s'.lru }
  self : s'.block b = some { blk with acquired := false, lock := initSem 1 }
  other : ∀ b', b' ≠ b → s'.block b' = s.block b'

theorem Released.isPinned (h : Released s b blk s')
    (hb : s.block b = some blk) (b' : Nat) : s'.isPinned b' = s.isPinned b' := by
  by_cases he : b' = b
  · subst he
    rw [isPinned_of_block h.self, isPinned_of_block hb]
  · unfold State.isPinned
    rw [h.other b' he]

variable {Q : Unit → State → Prop}

/-- **`cache_release`** of a block that is held. -/
theorem wp_cacheRelease (h : Shape s) (hb : s.block b = some blk) (hacq : blk.acquired = true)
    (hQ : ∀ s', Released s b blk s' → Q () s') : wp (cacheRelease b) Q E s := by
  have hlock := h.locks blk (mem_of_lookup hb)
  rw [hacq, if_pos rfl] at hlock
  have hpost : postSem (initSem 0 : Semaphore Unit) = some (none, initSem 1) := rfl
  unfold cacheRelease deref
  simp only [wp_bind, wp_get, hb, wp_pure, hlock, hpost]
  refine hQ _ ⟨⟨h.nodup.assign fun _ => rfl, fun a ha => ?_⟩, rfl, ?_, fun b' hne => ?_⟩
  · rcases mem_assign ha with ⟨hmem, _⟩ | ⟨a, hmem, hkey, rfl⟩
    · exact h.locks a hmem
    · -- the record with this number is `blk`
      have hsame : a = blk := by
        have := lookup_of_mem h.nodup hmem
        rw [hkey, show lookup Block.blockNo s.lru b = some blk from hb] at this
        exact (Option.some.inj this).symm
      subst hsame
      simp only [hlock]
      rfl
  · refine (block_assign (by intro _; rfl)).trans ?_
    rw [if_pos rfl, hb]
    simp only [Option.map_some, hlock]
    rfl
  · exact (block_assign (by intro _; rfl)).trans (if_neg hne)

/-! ## Copying a block -/

/-- What one round of a copy loop does: `dst` gets what `src` holds, in the cache and on the device. -/
structure Copied (s : State) (src dst : Nat) (unpin : Bool) (s' : State) : Prop where
  ne : src ≠ dst
  shape : Shape s'
  rest : s' =
    { s with
      lru := s'.lru
      dev := update s.dev dst (s.cur src)
      writes := s.writes ++ [(dst, s.cur src)] }
  srcBlock : ∃ blk, s'.block src = some blk ∧ blk.data = s.cur src ∧ blk.acquired = false ∧
    blk.pinned = s.isPinned src
  dstBlock : ∃ blk, s'.block dst = some blk ∧ blk.data = s.cur src ∧ blk.acquired = false ∧
    blk.pinned = (s.isPinned dst && !unpin)
  other : ∀ b, b ≠ src → b ≠ dst → Kept s s' b

/-- The assignments through `to_b` and the device write, between the acquires and the releases. -/
def transfer (s : State) (dst : Nat) (d : Data) (unpin : Bool) : State :=
  let s₁ := (s.assign dst fun blk => { blk with data := d }).deviceWrite dst d
  if unpin then s₁.assign dst fun blk => { blk with pinned := false } else s₁

theorem transfer_rest (s : State) (dst : Nat) (d : Data) (unpin : Bool) :
    transfer s dst d unpin =
      { s with
        lru := (transfer s dst d unpin).lru
        dev := update s.dev dst d
        writes := s.writes ++ [(dst, d)] } := by
  cases unpin <;> rfl

variable {unpin : Bool} {dst : Nat}

theorem block_transfer {d : Data}   :
    (transfer s dst d unpin).block b = if b = dst then
        (s.block b).map fun blk => { blk with data := d, pinned := blk.pinned && !unpin }
      else s.block b := by
  have hdata : ((s.assign dst fun blk => { blk with data := d }).deviceWrite dst d).block b
      = if b = dst then (s.block b).map fun blk => { blk with data := d } else s.block b :=
    block_assign (by intro _; rfl)
  cases unpin
  · show State.block (State.deviceWrite _ _ _) b = _
    rw [hdata]
    simp only [Bool.not_false, Bool.and_true]
  · show State.block (State.assign _ _ _) b = _
    refine (block_assign (by intro _; rfl)).trans ?_
    rw [hdata]
    split
    · rw [Option.map_map]
      simp only [Bool.not_true, Bool.and_false]
      rfl
    · rfl

theorem Shape.transfer (h : Shape s) (dst : Nat) (d : Data) (unpin : Bool) :
    Shape (transfer s dst d unpin) := by
  have h1 : Shape ((s.assign dst fun blk => { blk with data := d }).deviceWrite dst d) := by
    have := h.assign (b := dst) (f := fun blk => { blk with data := d }) fun _ => ⟨rfl, rfl, rfl⟩
    exact ⟨this.nodup, this.locks⟩
  cases unpin
  · exact h1
  · exact h1.assign fun _ => ⟨rfl, rfl, rfl⟩

variable {src : Nat}

/-- **One round of a copy loop.**  It sleeps for ever on a block that is held, and when it is told to
    copy a block to itself. -/
theorem wp_copyBlock (h : Shape s) (hself : src = dst → E .sleeps) (hheld : ∀ b, Held s b → E .sleeps)
    (hQ : ∀ s', Copied s src dst unpin s' → Q () s') : wp (copyBlock src dst unpin) Q E s := by
  unfold copyBlock
  rw [wp_bind]
  refine wp_cacheAcquire h (hheld src) fun fromB s₁ _ ha1 => ?_
  rw [wp_bind]
  refine wp_cacheAcquire ha1.shape (fun hd => ?_) fun toB s₂ hfree ha2 => ?_
  · by_cases he : src = dst
    · exact hself he
    · exact hheld dst ((ha1.other dst (Ne.symm he)).held hd)
  have hne : src ≠ dst := by
    rintro rfl
    exact hfree ⟨fromB, ha1.self, ha1.acquired⟩
  -- `src` is held, so the second acquire has not evicted it
  have hsrc2 : s₂.block src = some fromB := by
    rcases ha2.other src hne with hsame | ⟨_, old, hold, _, hfree⟩
    · rw [hsame]; exact ha1.self
    · rw [ha1.self] at hold
      cases hold
      rw [ha1.acquired] at hfree
      cases hfree
  have hmid : (do
      assign toB.blockNo fun blk => { blk with data := fromB.data }
      deviceWrite toB.blockNo fromB.data
      if unpin then assign toB.blockNo fun blk => { blk with pinned := false }
      cacheRelease fromB.blockNo
      cacheRelease toB.blockNo : Prog Stop State Unit) s₂
      = (do
          cacheRelease src
          cacheRelease dst : Prog Stop State Unit) (transfer s₂ dst fromB.data unpin) := by
    rw [ha1.blockNo, ha2.blockNo]
    cases unpin <;> rfl
  refine wp_of_eq hmid ?_
  rw [wp_bind]
  have hsrc3 : (transfer s₂ dst fromB.data unpin).block src = some fromB := by
    rw [block_transfer, if_neg hne]; exact hsrc2
  have hdst3 : (transfer s₂ dst fromB.data unpin).block dst
      = some { toB with data := fromB.data, pinned := toB.pinned && !unpin } := by
    rw [block_transfer, if_pos rfl, ha2.self]; rfl
  refine wp_cacheRelease (ha2.shape.transfer _ _ _) hsrc3 ha1.acquired fun s₄ hr1 => ?_
  have hdst4 := (hr1.other dst hne.symm).trans hdst3
  refine wp_cacheRelease hr1.shape hdst4 ha2.acquired fun s₅ hr2 => hQ s₅ ?_
  refine ⟨hne, hr2.shape, ?_, ⟨_, (hr2.other src hne).trans hr1.self, ha1.data, rfl, ha1.pinned⟩,
    ⟨_, hr2.self, ha1.data, rfl, ?_⟩, fun b hbs hbd => ?_⟩
  · rw [hr2.rest, hr1.rest, transfer_rest, ha2.rest, ha1.rest, ← ha1.data]
  · show (toB.pinned && !unpin) = _
    rw [ha2.pinned, (ha1.other dst hne.symm).isPinned]
  · have h5 : s₅.block b = s₂.block b := by
      rw [hr2.other b hbd, hr1.other b hbs, block_transfer, if_neg hbd]
    exact (ha1.other b hbs).trans ((ha2.other b hbd).trans (.inl h5))

/-! ## `cache_begin_op` and `cache_sync` -/

/-- **`cache_begin_op`** reserves the slots of an operation, or waits. -/
theorem wp_cacheBeginOp {sb : SuperBlock} {c : Nat} (hwait : beginBlocked sb s.log = true → E .sleeps)
    (hQ : beginBlocked sb s.log = false → Q () { s with
      log := beginSection s.log
      ops := { id := c, rm := opMaxNumBlocks } :: s.ops }) : wp (cacheBeginOp sb c) Q E s := by
  unfold cacheBeginOp
  rw [wp_bind, wp_get, wp_ite]
  constructor
  · intro h
    exact hwait h
  · intro h
    exact hQ (Bool.eq_false_of_not_eq_true h)

/-- `cache_sync(NULL, block)` writes through. -/
theorem wp_cacheSync_null (hb : s.block b = some blk) (hQ : Q () (s.deviceWrite b blk.data)) :
    wp (cacheSync none b) Q E s := by
  show wp (deref b >>= fun blk => deviceWrite b blk.data) Q E s
  unfold deref
  rw [wp_bind, wp_bind, wp_get, hb]
  exact hQ

/-- The state after `cache_sync(ctx, block)`, given what the header update has returned. -/
def synced (s : State) (c b : Nat) (h : LogHeader) (rm : Nat) : State :=
  { s.assign b fun blk => { blk with pinned := true } with header := h, ops := setRm c rm s.ops }

/-- **`cache_sync`** under an operation pins the block and records it; it panics only on a block that
    is not recorded yet, when the budget is used up. -/
theorem wp_cacheSync_op {c : Nat} (hdead : s.op c = none → E .noOp)
    (hbudget : ∀ op, s.op c = some op → b ∉ s.header.recorded → op.rm = 0 → E .noBudget)
    (hQ : ∀ op h rm, s.op c = some op → syncSection s.header op.rm b = some (h, rm) →
      Q () (synced s c b h rm)) : wp (cacheSync (some c) b) Q E s := by
  show wp (assign b _ >>= _) Q E s
  rw [wp_bind]
  show wp (get >>= _) Q E (s.assign b _)
  rw [wp_bind, wp_get]
  have hop : (s.assign b fun blk => { blk with pinned := true }).op c = s.op c := rfl
  have hheader : (s.assign b fun blk => { blk with pinned := true }).header = s.header := rfl
  cases hc : s.op c with
  | none =>
    simp only [hop, hc]
    exact hdead hc
  | some op =>
    simp only [hop, hheader, hc]
    cases hs : syncSection s.header op.rm b with
    | none =>
      obtain ⟨hnew, hrm⟩ := syncSection_eq_none.mp hs
      exact hbudget op hc hnew hrm
    | some r => exact hQ op r.1 r.2 hc hs

/-! ## Sequences of device writes -/

/-- The device after some writes, in order. -/
def applyWrites (dev : Nat → Data) (ws : List (Nat × Data)) : Nat → Data :=
  ws.foldl (fun dev w => update dev w.1 w.2) dev

theorem applyWrites_append (dev : Nat → Data) (ws vs : List (Nat × Data)) :
    applyWrites dev (ws ++ vs) = applyWrites (applyWrites dev ws) vs := foldl_append ..

/-- The last write counts. -/
theorem applyWrites_concat_self (dev : Nat → Data) (ws : List (Nat × Data)) (b : Nat) (d : Data) :
    applyWrites dev (ws ++ [(b, d)]) b = d := by
  rw [applyWrites_append]
  exact update_self (β := fun _ => Data) b d (applyWrites dev ws)

variable {dev : Nat → Data}

theorem applyWrites_of_forall_ne {ws : List (Nat × Data)} (h : ∀ w ∈ ws, w.1 ≠ b) : applyWrites dev ws b = dev b := by
  induction ws generalizing dev with
  | nil => rfl
  | cons w ws ih =>
    show applyWrites (update dev w.1 w.2) ws b = dev b
    rw [ih fun v hv => h v (mem_cons_of_mem w hv)]
    exact update_of_ne (h w mem_cons_self).symm ..

/-- If all writes to `b` write the same, that is there in the end. -/
theorem applyWrites_of_mem {ws : List (Nat × Data)} {d : Data}
    (hmem : ∃ w ∈ ws, w.1 = b) (h : ∀ w ∈ ws, w.1 = b → w.2 = d) : applyWrites dev ws b = d := by
  induction ws generalizing dev with
  | nil => obtain ⟨w, hw, _⟩ := hmem; cases hw
  | cons w ws ih =>
    show applyWrites (update dev w.1 w.2) ws b = d
    by_cases hlater : ∃ v ∈ ws, v.1 = b
    · exact ih hlater fun v hv => h v (mem_cons_of_mem w hv)
    · have hnot : ∀ v ∈ ws, v.1 ≠ b := fun v hv e => hlater ⟨v, hv, e⟩
      have hw : w.1 = b := by
        obtain ⟨v, hv, e⟩ := hmem
        rcases mem_cons.mp hv with rfl | hv
        · exact e
        · exact absurd e (hnot v hv)
      rw [applyWrites_of_forall_ne hnot, ← hw, update_self]
      exact h w mem_cons_self hw

/-- The writes of a copy loop. -/
def copyWrites (n : Nat) (dst : Nat → Nat) (d : Nat → Data) : List (Nat × Data) :=
  (List.range n).map fun i => (dst i, d i)

theorem copyWrites_succ (n : Nat) (dst : Nat → Nat) (d : Nat → Data) :
    copyWrites (n + 1) dst d = copyWrites n dst d ++ [(dst n, d n)] := by
  simp [copyWrites, range_succ]

variable {d : Nat → Data} {n : Nat}

theorem mem_copyWrites {dst : Nat → Nat} {w : Nat × Data} :
    w ∈ copyWrites n dst d ↔ ∃ i < n, (dst i, d i) = w := by
  simp [copyWrites]

theorem applyWrites_copyWrites_of_ne {dst : Nat → Nat} (h : ∀ i < n, dst i ≠ b) : applyWrites dev (copyWrites n dst d) b = dev b := by
  apply applyWrites_of_forall_ne
  intro w hw
  obtain ⟨i, hi, rfl⟩ := mem_copyWrites.mp hw
  exact h i hi

/-- A copy loop whose data depends only on the destination leaves that data there. -/
theorem applyWrites_copyWrites {dst : Nat → Nat} {i : Nat} (hi : i < n) (hd : ∀ j < n, dst j = dst i → d j = d i) :
    applyWrites dev (copyWrites n dst d) (dst i) = d i := by
  refine applyWrites_of_mem ⟨_, mem_copyWrites.mpr ⟨i, hi, rfl⟩, rfl⟩ ?_
  intro w hw e
  obtain ⟨j, hj, rfl⟩ := mem_copyWrites.mp hw
  exact hd j hj e

/-! ## The copy loops -/

/-- A cached copy of `b`, if there is one, is what the device has. -/
def Coh (s : State) (b : Nat) : Prop := ∀ blk, s.block b = some blk → blk.data = s.dev b

/-- Block `b` holds `d` and cannot lose it: a pinned copy has it, or the device and every copy. -/
def Source (s : State) (b : Nat) (d : Data) : Prop :=
  (∃ blk, s.block b = some blk ∧ blk.pinned = true ∧ blk.data = d) ∨ (s.dev b = d ∧ Coh s b)

theorem Coh.cur (h : Coh s b) : s.cur b = s.dev b := by
  cases hb : s.block b with
  | none => exact cur_of_none hb
  | some blk => rw [cur_of_block hb]; exact h blk hb

/-- A block that is untouched or evicted stays clean. -/
theorem Kept.coh (h : Kept s s' b) (hdev : s'.dev b = s.dev b) (hcoh : Coh s b) :
    Coh s' b := by
  intro blk hblk
  rcases h with he | ⟨hnone, _⟩
  · rw [hdev]
    exact hcoh blk (he ▸ hblk)
  · rw [hnone] at hblk
    cases hblk

/-- What a client sees of a block survives its eviction, since only clean blocks are evicted. -/
theorem Kept.cur (h : Kept s s' b) (hdev : s'.dev b = s.dev b)
    (hsafe : s.isPinned b = true ∨ Coh s b) : s'.cur b = s.cur b := by
  rcases h with he | ⟨hnone, old, hold, hpin, _⟩
  · unfold State.cur
    rw [he, hdev]
  · rcases hsafe with hpinned | hcoh
    · rw [isPinned_of_block hold, hpin] at hpinned
      cases hpinned
    · rw [cur_of_none hnone, hdev, hcoh.cur]

theorem Source.cur {d : Data} (h : Source s b d) : s.cur b = d := by
  rcases h with ⟨blk, hb, _, hd⟩ | ⟨hd, hcoh⟩
  · rw [cur_of_block hb]; exact hd
  · rw [hcoh.cur]; exact hd

section

variable (h : Copied s src dst unpin s')
include h

theorem Copied.dev_of_ne (hb : b ≠ dst) : s'.dev b = s.dev b := by
  rw [h.rest]
  exact update_of_ne hb ..

theorem Copied.coh_dst : Coh s' dst := by
  intro blk hblk
  obtain ⟨blk', hblk', hdata, _⟩ := h.dstBlock
  rw [hblk] at hblk'
  cases hblk'
  rw [hdata, h.rest]
  exact (update_self (β := fun _ => Data) dst _ s.dev).symm

/-- Blocks that are not written keep being coherent. -/
theorem Copied.coh (hb : b ≠ dst) (hcoh : Coh s b) : Coh s' b := by
  intro blk hblk
  rw [h.dev_of_ne hb]
  by_cases hbs : b = src
  · subst hbs
    obtain ⟨blk', hblk', hdata, _⟩ := h.srcBlock
    rw [hblk] at hblk'
    cases hblk'
    rw [hdata]
    exact hcoh.cur
  · rcases h.other b hbs hb with he | ⟨hnone, _⟩
    · exact hcoh blk (by rw [← he]; exact hblk)
    · rw [hnone] at hblk
      cases hblk

/-- Blocks that are not written keep what they hold. -/
theorem Copied.source {d : Data} (hb : b ≠ dst) (hsrc : Source s b d) : Source s' b d := by
  rcases hsrc with ⟨blk, hblk, hpin, hd⟩ | ⟨hd, hcoh⟩
  · left
    by_cases hbs : b = src
    · subst hbs
      obtain ⟨blk', hblk', hdata, _, hpin'⟩ := h.srcBlock
      refine ⟨blk', hblk', ?_, ?_⟩
      · rw [hpin', isPinned_of_block hblk]; exact hpin
      · rw [hdata, cur_of_block hblk]; exact hd
    · rcases h.other b hbs hb with he | ⟨_, old, hold, hfree, _⟩
      · exact ⟨blk, by rw [he]; exact hblk, hpin, hd⟩
      · rw [hblk] at hold
        cases hold
        rw [hpin] at hfree
        cases hfree
  · exact .inr ⟨by rw [h.dev_of_ne hb]; exact hd, h.coh hb hcoh⟩

theorem Copied.isPinned (b : Nat) : s'.isPinned b = if b = dst then s.isPinned b && !unpin else s.isPinned b := by
  by_cases hbd : b = dst
  · subst hbd
    obtain ⟨blk, hblk, _, _, hpin⟩ := h.dstBlock
    rw [if_pos rfl, isPinned_of_block hblk, hpin]
  · rw [if_neg hbd]
    by_cases hbs : b = src
    · subst hbs
      obtain ⟨blk, hblk, _, _, hpin⟩ := h.srcBlock
      rw [isPinned_of_block hblk, hpin]
    · exact (h.other b hbs hbd).isPinned

/-- Both blocks are released again. -/
theorem Copied.held (hheld : Held s' b) : Held s b := by
  obtain ⟨blk, hblk, hacq⟩ := hheld
  by_cases hbs : b = src
  · subst hbs
    obtain ⟨blk', hblk', _, hfree, _⟩ := h.srcBlock
    rw [hblk] at hblk'
    cases hblk'
    rw [hacq] at hfree
    cases hfree
  · by_cases hbd : b = dst
    · subst hbd
      obtain ⟨blk', hblk', _, hfree, _⟩ := h.dstBlock
      rw [hblk] at hblk'
      cases hblk'
      rw [hacq] at hfree
      cases hfree
    · exact (h.other b hbs hbd).held ⟨blk, hblk, hacq⟩

end

/-- What `n` rounds of a copy loop do, when round `i` finds `d i` in its source. -/
structure CopyLoop (s : State) (dst : Nat → Nat) (d : Nat → Data) (unpin : Bool) (n : Nat) (t : State) :
    Prop where
  shape : Shape t
  rest : t =
    { s with
      lru := t.lru
      dev := applyWrites s.dev (copyWrites n dst d)
      writes := s.writes ++ copyWrites n dst d }
  source : ∀ b v, (∀ i < n, dst i ≠ b) → Source s b v → Source t b v
  coh : ∀ b, (∃ i < n, dst i = b) ∨ Coh s b → Coh t b
  pinned : ∀ b, t.isPinned b = (s.isPinned b && !(unpin && decide (∃ i < n, dst i = b)))
  held : ∀ b, Held t b → Held s b

theorem CopyLoop.zero (h : Shape s) (dst : Nat → Nat) (d : Nat → Data) (unpin : Bool) :
    CopyLoop s dst d unpin 0 s := by
  refine ⟨h, ?_, fun _ _ _ hs => hs, fun b hb => ?_, fun b => ?_, fun _ hb => hb⟩
  · simp [copyWrites, applyWrites]
  · rcases hb with ⟨i, hi, _⟩ | hb
    · exact absurd hi (Nat.not_lt_zero i)
    · exact hb
  · simp

/-- One more round. -/
theorem CopyLoop.succ {t t' : State} {src dst : Nat → Nat} (h : CopyLoop s dst d unpin n t) (hcur : t.cur (src n) = d n)
    (hc : Copied t (src n) (dst n) unpin t') : CopyLoop s dst d unpin (n + 1) t' := by
  refine ⟨hc.shape, ?_, fun b v hb hs => ?_, fun b hb => ?_, fun b => ?_, fun b hb => h.held b (hc.held hb)⟩
  · have hrest := hc.rest
    rw [hcur] at hrest
    rw [hrest, h.rest, copyWrites_succ, applyWrites_append, append_assoc]
    rfl
  · exact hc.source (fun e => hb n (Nat.lt_succ_self n) e.symm)
      (h.source b v (fun i hi => hb i (Nat.lt_succ_of_lt hi)) hs)
  · by_cases hbd : b = dst n
    · subst hbd; exact hc.coh_dst
    · refine hc.coh hbd (h.coh b ?_)
      rcases hb with ⟨i, hi, he⟩ | hb
      · refine .inl ⟨i, ?_, he⟩
        rcases Nat.lt_succ_iff_lt_or_eq.mp hi with hlt | rfl
        · exact hlt
        · exact absurd he.symm hbd
      · exact .inr hb
  · have hex : (∃ i < n + 1, dst i = b) ↔ (∃ i < n, dst i = b) ∨ b = dst n := by
      constructor
      · rintro ⟨i, hi, he⟩
        rcases Nat.lt_succ_iff_lt_or_eq.mp hi with hlt | rfl
        · exact .inl ⟨i, hlt, he⟩
        · exact .inr he.symm
      · rintro (⟨i, hi, he⟩ | rfl)
        · exact ⟨i, Nat.lt_succ_of_lt hi, he⟩
        · exact ⟨n, Nat.lt_succ_self n, rfl⟩
    rw [hc.isPinned b, h.pinned b]
    simp only [hex, Bool.decide_or]
    by_cases hbd : b = dst n
    · cases unpin <;> simp [hbd]
    · simp [hbd]

/-- **A copy loop.** -/
theorem wp_copyLoop (h : Shape s) {src dst : Nat → Nat} (hheld : ∀ b, Held s b → E .sleeps)
    (hsrc : ∀ i < n, Source s (src i) (d i)) (hne : ∀ i < n, ∀ j < n, src i ≠ dst j)
    (hQ : ∀ t, CopyLoop s dst d unpin n t → Q () t) :
    wp (forRange n fun i => copyBlock (src i) (dst i) unpin) Q E s := by
  refine wp_imp (wp_forRange (I := fun i t => CopyLoop s dst d unpin i t)
    (CopyLoop.zero h dst d unpin) fun i hi t ht => ?_) (fun _ t ht => hQ t ht)
  have hcur : t.cur (src i) = d i :=
    (ht.source (src i) (d i) (fun j hj e => hne i hi j (by omega) e.symm) (hsrc i hi)).cur
  exact wp_copyBlock ht.shape (fun e => absurd e (hne i hi i hi)) (fun b hb => hheld b (ht.held b hb))
    fun t' hc => ht.succ hcur hc

end Armv8Os.Fs.Cache
