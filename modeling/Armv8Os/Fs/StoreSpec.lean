/-
  What the operations of the array do, as rules for `wp`.

  * `wp_acquire`, `wp_sync`, `wp_release` — the primitives, outside the log;
  * `wp_cacheAlloc` — a block that was free, below the swap area, is marked and full of zeros (`Taken`);
  * `wp_cacheFree` — a block that was marked is not any more (`Freed`).

  `Tolerates E ctx s` collects the failures nobody can rule out: no free block, no budget left, and no running
  operation if the caller passes the context of one that is not running.
-/
import Armv8Os.Fs.BlockCache
import Armv8Os.Fs.Ownership

namespace Armv8Os.Fs

open Prog Cache List
open Function (update update_of_ne update_self)

/-! ## Operations -/

/-- The same operations are running. -/
def SameOps (s s' : Store) : Prop := ∀ c, (s'.op c).isSome = (s.op c).isSome

theorem SameOps.refl (s : Store) : SameOps s s := fun _ => rfl

theorem SameOps.trans {s s' s'' : Store} (h : SameOps s s') (h' : SameOps s' s'') : SameOps s s'' :=
  fun c => (h' c).trans (h c)

/-- `NULL`, or an operation that is running. -/
def Runs (s : Store) (ctx : Option Nat) : Prop := ∀ c, ctx = some c → (s.op c).isSome = true

/-- The failures of a caller that runs out of something, or has no operation. -/
structure Tolerates (E : Stop → Prop) (ctx : Option Nat) (s : Store) : Prop where
  space : E .noSpace
  budget : E .noBudget
  running : Runs s ctx ∨ E .noOp

theorem Tolerates.of_sameOps {E : Stop → Prop} {ctx : Option Nat} {s s' : Store} (h : Tolerates E ctx s)
    (hops : SameOps s s') : Tolerates E ctx s' := by
  refine ⟨h.space, h.budget, h.running.imp (fun hr c hc => ?_) id⟩
  rw [hops c]
  exact hr c hc

/-! ## The areas are apart -/

variable {b : Nat}

section Apart

variable {sb : SuperBlock} (hl : DiskLayout sb)

include hl

theorem areas_lt : sb.inodeStart.toNat < sb.bitmapStart.toNat ∧ sb.bitmapStart.toNat < dataStart sb := by
  have hin : sb.inodeStart.toNat ≤ inodeBlock sb sb.numInodes.toNat := Nat.le_add_right ..
  have hbit := bitmapStart_le sb sb.numBlocks.toNat
  exact ⟨Nat.lt_of_le_of_lt hin hl.inodesBitmap, Nat.lt_of_le_of_lt hbit hl.bitmapData⟩

theorem logFits_of_layout : LogFits sb := by
  have hlog := hl.logInodes
  have hareas := areas_lt hl
  have hdata := dataStart_le sb
  exact ⟨hl.log, by omega⟩

theorem not_inLog_of_le (h : sb.inodeStart.toNat ≤ b) : ¬ InLog sb b := by
  have := hl.logInodes
  rintro ⟨_, hlt⟩
  omega

theorem not_inLog_inode (ino : Nat) : ¬ InLog sb (inodeBlock sb ino) :=
  not_inLog_of_le hl (Nat.le_add_right ..)

theorem not_inLog_bitmap (b : Nat) : ¬ InLog sb (bitmapBlock sb b) := by
  have := areas_lt hl
  have := bitmapStart_le sb b
  exact not_inLog_of_le hl (by omega)

theorem not_inLog_data (h : dataStart sb ≤ b) : ¬ InLog sb b := by
  have := areas_lt hl
  exact not_inLog_of_le hl (by omega)

/-- A write behind the bitmap leaves the bits alone. -/
theorem bitAt_update_data (blocks : Nat → Data) (hb : dataStart sb ≤ b) (d : Data) {x : Nat}
    (hx : x < sb.numBlocks.toNat) : bitAt sb (update blocks b d) x = bitAt sb blocks x := by
  have := bitmapBlock_lt hl hx
  unfold bitAt
  rw [update_of_ne (by omega)]

/-- A write in front of the bitmap leaves the bits alone. -/
theorem bitAt_update_inode (blocks : Nat → Data) {ino : Nat} (hi : ino < sb.numInodes.toNat) (d : Data) (x : Nat) :
    bitAt sb (update blocks (inodeBlock sb ino) d) x = bitAt sb blocks x := by
  have := inodeBlock_lt hl hi
  have := bitmapStart_le sb x
  unfold bitAt
  rw [update_of_ne (by omega)]

/-- A write behind the inodes leaves the entries alone. -/
theorem entryAt_update (blocks : Nat → Data) (hb : sb.bitmapStart.toNat ≤ b) (d : Data) {ino : Nat}
    (hi : ino < sb.numInodes.toNat) : entryAt sb (update blocks b d) ino = entryAt sb blocks ino := by
  have := inodeBlock_lt hl hi
  unfold entryAt
  rw [update_of_ne (by omega)]

end Apart

/-- One entry is written. -/
theorem entryAt_writeEntry (sb : SuperBlock) (blocks : Nat → Data) (ino : Nat) (e : InodeEntry) (i : Nat) :
    entryAt sb (update blocks (inodeBlock sb ino)
        (writeEntry (blocks (inodeBlock sb ino)) (ino % inodePerBlock) e)) i
      = if i = ino then e else entryAt sb blocks i := by
  unfold entryAt
  by_cases hblock : inodeBlock sb i = inodeBlock sb ino
  · rw [hblock, update_self]
    by_cases hi : i = ino
    · subst hi
      rw [if_pos rfl, readEntry_writeEntry _ (Nat.mod_lt _ (by decide))]
    · -- another entry of the same block
      rw [if_neg hi, readEntry_writeEntry_of_ne]
      unfold inodeBlock inodePerBlock at hblock
      unfold inodePerBlock
      omega
  · rw [update_of_ne hblock, if_neg (fun hi => hblock (by rw [hi]))]

/-! ## The primitives -/

variable {Q : Unit → Store → Prop} {d : Data}

section Primitives

variable {sb : SuperBlock} {E : Stop → Prop} {s : Store} {b : Nat} {ctx : Option Nat}

theorem wp_acquire {Q : Data → Store → Prop} (hlog : ¬ InLog sb b) (hfree : b ∉ s.held)
    (hQ : Q (s.blocks b) { s with held := b :: s.held }) : wp ((store sb).acquire b) Q E s := by
  show wp (Store.acquire sb b) Q E s
  unfold wp Store.acquire
  rw [if_neg hlog, if_neg hfree]
  exact hQ

/-- What `sync` leaves. -/
structure Wrote (s : Store) (b : Nat) (d : Data) (s' : Store) : Prop where
  blocks : s'.blocks = update s.blocks b d
  held : s'.held = s.held
  ops : SameOps s s'

theorem wp_sync (hheld : b ∈ s.held) (hE : Tolerates E ctx s)
    (hQ : ∀ s', Wrote s b d s' → Q () s') : wp ((store sb).sync ctx b d) Q E s := by
  show wp (Store.sync ctx b d) Q E s
  unfold wp Store.sync
  rw [if_pos hheld]
  cases ctx with
  | none => exact hQ _ ⟨rfl, rfl, SameOps.refl s⟩
  | some c =>
    cases hop : s.op c with
    | none =>
      simp only [hop]
      refine hE.running.resolve_left fun hr => ?_
      have := hr c rfl
      rw [hop] at this
      cases this
    | some op =>
      cases hs : syncSection s.header op.rm b with
      | none => simp only [hop, hs]; exact hE.budget
      | some r =>
        simp only [hop, hs]
        refine hQ _ ⟨rfl, rfl, fun c' => ?_⟩
        show (Keyed.lookup Op.id (setRm c r.2 s.ops) c').isSome = (Keyed.lookup Op.id s.ops c').isSome
        unfold setRm
        rw [Keyed.lookup_assign (by intro _; rfl)]
        by_cases hc : c' = c
        · rw [if_pos hc, Option.isSome_map]
        · rw [if_neg hc]

/-- With `NULL` nothing can go wrong. -/
theorem wp_sync_null (hheld : b ∈ s.held) (hQ : Q () (s.put b d)) :
    wp ((store sb).sync none b d) Q E s := by
  show wp (Store.sync none b d) Q E s
  unfold wp Store.sync
  rw [if_pos hheld]
  exact hQ

theorem wp_release {held : List Nat} (hheld : s.held = b :: held)
    (hQ : Q () { s with held := held }) : wp ((store sb).release b) Q E s := by
  show wp (Store.release b) Q E s
  unfold wp Store.release
  rw [hheld, if_pos (mem_cons_self ..), erase_cons_head]
  exact hQ

end Primitives

/-! ## Allocating and freeing -/

/-- What `cache_alloc` leaves. -/
structure Taken (sb : SuperBlock) (s : Store) (b : Nat) (s' : Store) : Prop where
  data : DataBlock sb b
  fresh : bitAt sb s.blocks b = false
  bits : ∀ x < sb.numBlocks.toNat, bitAt sb s'.blocks x = update (bitAt sb s.blocks) b true x
  zero : s'.blocks b = Bytes.zero
  other : ∀ x, dataStart sb ≤ x → x ≠ b → s'.blocks x = s.blocks x
  entries : ∀ i < sb.numInodes.toNat, entryAt sb s'.blocks i = entryAt sb s.blocks i
  held : s'.held = s.held
  ops : SameOps s s'

/-- What was marked is not what `cache_alloc` gave away. -/
theorem Taken.ne_of_marked {sb : SuperBlock} {s s' : Store} (h : Taken sb s b s') {x : Nat}
    (hx : bitAt sb s.blocks x = true) : x ≠ b := by
  rintro rfl
  rw [h.fresh] at hx
  cases hx

/-- What `cache_free` leaves. -/
structure Freed (sb : SuperBlock) (s : Store) (b : Nat) (s' : Store) : Prop where
  bits : ∀ x < sb.numBlocks.toNat, bitAt sb s'.blocks x = update (bitAt sb s.blocks) b false x
  other : ∀ x, dataStart sb ≤ x → s'.blocks x = s.blocks x
  entries : ∀ i < sb.numInodes.toNat, entryAt sb s'.blocks i = entryAt sb s.blocks i
  held : s'.held = s.held
  ops : SameOps s s'

theorem freeBit_eq_some {n j : Nat} (h : freeBit d n = some j) : j < n ∧ d.hasBit j = false := by
  have hmem := mem_of_find?_eq_some h
  have hclear := find?_some h
  exact ⟨mem_range.mp hmem, by simpa using hclear⟩

/-- The bit of a block, by the number of its bitmap block and the place there. -/
theorem bitmapBlock_add (sb : SuperBlock) (k : Nat) {j : Nat} (hj : j < bitPerBlock) :
    bitmapBlock sb (k * bitPerBlock + j) = bitmapBlock sb (k * bitPerBlock)
      ∧ (k * bitPerBlock + j) % bitPerBlock = j := by
  unfold bitmapBlock
  simp only [bitPerBlock, blockSize] at hj ⊢
  omega

/-- Two blocks with one bitmap block and one place there are the same. -/
theorem eq_of_bitmapBlock {sb : SuperBlock} {x : Nat} (hblock : bitmapBlock sb x = bitmapBlock sb b)
    (hmod : x % bitPerBlock = b % bitPerBlock) : x = b := by
  unfold bitmapBlock at hblock
  simp only [bitPerBlock, blockSize] at hblock hmod
  omega

/-- All bits, after one bitmap block has been written at one place. -/
theorem bitAt_update_bitmap {sb : SuperBlock} {blocks : Nat → Data} {v : Bool} (hd : ∀ i < bitPerBlock,
      d.hasBit i = if i = b % bitPerBlock then v else (blocks (bitmapBlock sb b)).hasBit i) (x : Nat) :
    bitAt sb (update blocks (bitmapBlock sb b) d) x = update (bitAt sb blocks) b v x := by
  have hlt : x % bitPerBlock < bitPerBlock := Nat.mod_lt _ (by decide)
  unfold bitAt
  by_cases hblock : bitmapBlock sb x = bitmapBlock sb b
  · rw [hblock, update_self, hd _ hlt]
    by_cases hmod : x % bitPerBlock = b % bitPerBlock
    · rw [if_pos hmod, eq_of_bitmapBlock hblock hmod, update_self]
    · rw [if_neg hmod, update_of_ne (fun he => hmod (by rw [he])), hblock]
  · rw [update_of_ne hblock, update_of_ne (fun he => hblock (by rw [he]))]

section AllocFree

variable {sb : SuperBlock} (hl : DiskLayout sb) {E : Stop → Prop} {s : Store} {ctx : Option Nat}

include hl

/-- Marking a free block and clearing it. -/
theorem taken_of_wrote {t s₂ : Store} (hlt : b < allocLimit sb)
    (hreserved : ∀ x < dataStart sb, bitAt sb s.blocks x = true) (hfresh : bitAt sb s.blocks b = false)
    (hheld : s₂.held = s.held) (hops : SameOps s s₂) (hmark : t.blocks = update s.blocks (bitmapBlock sb b)
      ((s.blocks (bitmapBlock sb b)).setBit (b % bitPerBlock)))
    (hzero : s₂.blocks = update t.blocks b Bytes.zero) : Taken sb s b s₂ := by
  have hdata : dataStart sb ≤ b := Nat.le_of_not_lt fun hb => by
    rw [hreserved b hb] at hfresh
    cases hfresh
  have hnum := DataBlock.lt_numBlocks hl ⟨hdata, hlt⟩
  have hbitmap := bitmapBlock_lt hl hnum
  have hstart := bitmapStart_le sb b
  refine ⟨⟨hdata, hlt⟩, hfresh, fun x hx => ?_, ?_, fun x hx hne => ?_, fun i hi => ?_, hheld, hops⟩
  · rw [hzero, bitAt_update_data hl _ hdata _ hx, hmark]
    refine bitAt_update_bitmap (fun i hi => ?_) x
    rw [Bytes.hasBit_setBit _ (by rw [Nat.mul_comm]; exact hi)]
    by_cases hi' : i = b % bitPerBlock <;> simp [hi']
  · rw [hzero, update_self]
  · rw [hzero, update_of_ne hne, hmark, update_of_ne (by omega)]
  · rw [hzero, entryAt_update hl _ (by omega) _ hi, hmark, entryAt_update hl _ hstart _ hi]

section

variable {Q : Nat → Store → Prop} (hreserved : ∀ x < dataStart sb, bitAt sb s.blocks x = true)
  (hheld : ∀ x ∈ s.held, dataStart sb ≤ x ∧ bitAt sb s.blocks x = true) (hE : Tolerates E ctx s)
  (hQ : ∀ b s', Taken sb s b s' → Q b s')
include hreserved hheld hE hQ

theorem wp_allocFrom {ks : List Nat} (hks : ∀ k ∈ ks, k * bitPerBlock < sb.numBlocks.toNat) :
    wp (allocFrom (store sb) sb ctx ks) Q E s := by
  induction ks with
  | nil => exact hE.space
  | cons k ks ih =>
    have hbm : bitmapBlock sb (k * bitPerBlock) < dataStart sb :=
      bitmapBlock_lt hl (hks k (mem_cons_self ..))
    have hnot : bitmapBlock sb (k * bitPerBlock) ∉ s.held := fun hmem => by
      have := (hheld _ hmem).1
      omega
    unfold allocFrom
    rw [wp_bind]
    refine wp_acquire (not_inLog_bitmap hl _) hnot ?_
    cases hfree : freeBit (s.blocks (bitmapBlock sb (k * bitPerBlock)))
        (min bitPerBlock (allocLimit sb - k * bitPerBlock)) with
    | none =>
      simp only [wp_bind]
      refine wp_release rfl ?_
      exact ih fun k' hk' => hks k' (mem_cons_of_mem _ hk')
    | some j =>
      obtain ⟨hj, hclear⟩ := freeBit_eq_some hfree
      have hjb : j < bitPerBlock := by omega
      obtain ⟨hblock, hmod⟩ := bitmapBlock_add sb k hjb
      have hfresh : bitAt sb s.blocks (k * bitPerBlock + j) = false := by
        unfold bitAt
        rw [hblock, hmod]
        exact hclear
      simp only [wp_bind]
      refine wp_sync (mem_cons_self ..) (hE.of_sameOps (SameOps.refl s)) fun s₁ h1 => ?_
      refine wp_release h1.held ?_
      -- the new block is not one of those held: they are marked
      have hdata : dataStart sb ≤ k * bitPerBlock + j := Nat.le_of_not_lt fun hb => by
        rw [hreserved _ hb] at hfresh
        cases hfresh
      refine wp_acquire (not_inLog_data hl hdata) (fun hmem => ?_) ?_
      · rw [(hheld _ hmem).2] at hfresh
        cases hfresh
      refine wp_sync (mem_cons_self ..) (hE.of_sameOps fun c => h1.ops c) fun s₂ h2 => ?_
      refine wp_release h2.held ?_
      refine hQ _ _ (taken_of_wrote hl (t := s₁) (by omega) hreserved hfresh rfl
        (fun c => (h2.ops c).trans (h1.ops c)) ?_ h2.blocks)
      rw [hblock, hmod]
      exact h1.blocks

theorem wp_cacheAlloc : wp (cacheAlloc (store sb) sb ctx) Q E s := by
  refine wp_allocFrom hl hreserved hheld hE hQ fun k hk => ?_
  have := mem_range.mp hk
  simp only [bitPerBlock, blockSize] at this ⊢
  omega

end

theorem wp_cacheFree (hb : b < sb.numBlocks.toNat)
    (hmarked : bitAt sb s.blocks b = true) (hheld : ∀ x ∈ s.held, dataStart sb ≤ x) (hE : Tolerates E ctx s)
    (hQ : ∀ s', Freed sb s b s' → Q () s') : wp (cacheFree (store sb) sb ctx b) Q E s := by
  have hbitmap := bitmapBlock_lt hl hb
  have hstart := bitmapStart_le sb b
  unfold cacheFree
  rw [wp_bind]
  refine wp_acquire (not_inLog_bitmap hl b) (fun hmem => ?_) ?_
  · have := hheld _ hmem
    omega
  simp only [wp_bind]
  rw [wp_assert]
  refine ⟨fun _ => ?_, fun hf => ?_⟩
  · refine wp_sync (mem_cons_self ..) (hE.of_sameOps (SameOps.refl s)) fun s₁ h1 => ?_
    refine wp_release h1.held (hQ _ ⟨fun x _ => ?_, fun x hx => ?_, fun i hi => ?_, rfl, fun c => h1.ops c⟩)
    · show bitAt sb s₁.blocks x = _
      rw [h1.blocks]
      refine bitAt_update_bitmap (fun i hi => ?_) x
      rw [Bytes.hasBit_clearBit _ (by rw [Nat.mul_comm]; exact hi)]
      by_cases hi' : i = b % bitPerBlock <;> simp [hi']
    · show s₁.blocks x = _
      rw [h1.blocks, update_of_ne (by omega)]
    · show entryAt sb s₁.blocks i = _
      rw [h1.blocks]
      exact entryAt_update hl _ hstart _ hi
  · exact absurd hmarked (by unfold bitAt; rw [hf]; decide)

end AllocFree

end Armv8Os.Fs
