/-
  What `iappend` and `ialloc` do to the image.

  While `mkfs` runs the bitmap is still empty.  `view im` is the image with the bitmap that `balloc` would write
  now; on it `freeblock++` does what `cache_alloc` does in the kernel (`taken`): a block that was free is
  marked, and it is full of zeros because nobody has written it.  So the two relations of `Fs.FileMap` that
  describe `inode_map` and `inode_write` describe `iappend` as well (`wp_mapBlock`, `wp_appendLoop`).

  `Laid im types files` — the image holds these files.  `ialloc` adds an empty one, `iappend` makes one longer
  (`wp_ialloc`, `wp_iappend`), and neither touches another.

  No step takes more blocks than the new size needs (`blocksFor`): a block is taken only where the file had no
  byte yet.
-/
import Armv8Os.Fs.FileContent
import Armv8Os.Fs.DirSpec
import Armv8Os.User.Mkfs

namespace Armv8Os.Mkfs

open Fs Fs.Files Prog List Nat
open Function (update update_comm update_of_ne update_self)

/-! ## The layout -/

theorem layout : DiskLayout sb := ⟨by decide, by decide, by decide, by decide, by decide⟩

theorem dataStart_sb : dataStart sb = nmeta := by decide

theorem allocLimit_sb : allocLimit sb = 800 := by decide

theorem numInodes_sb : sb.numInodes.toNat = ninodes := by decide

theorem inodeBlock_lt_fssize {ino : Nat} (h : ino < ninodes) : inodeBlock sb ino < sb.bitmapStart.toNat :=
  inodeBlock_lt layout (numInodes_sb ▸ h)

/-- The superblock is read back. -/
theorem getSuperBlock_superSector {sectors : Nat → Data} (h : sectors 1 = superSector sb) :
    getSuperBlock sectors = sb := by
  unfold getSuperBlock
  rw [h]
  decide +kernel

/-! ## The image with its bitmap -/

/-- The image as `balloc` would leave it now. -/
def view (im : Img) : Nat → Data := update im.sectors sb.bitmapStart.toNat (bitmap im.freeblock)

theorem view_of_ne (im : Img) {b : Nat} (h : b ≠ sb.bitmapStart.toNat) : view im b = im.sectors b :=
  update_of_ne h ..

theorem view_write (im : Img) {b : Nat} (h : b ≠ sb.bitmapStart.toNat) (d : Data) :
    view { im with sectors := update im.sectors b d } = update (view im) b d :=
  update_comm h ..

theorem bitAt_view (im : Img) {x : Nat} (hx : x < bitPerBlock) : bitAt sb (view im) x = decide (x < im.freeblock) := by
  have hblock : bitmapBlock sb x = sb.bitmapStart.toNat := by
    unfold bitmapBlock
    rw [div_eq_of_lt hx, zero_add]
  unfold bitAt view
  rw [hblock, update_self, mod_eq_of_lt hx, hasBit_bitmap _ hx]

theorem entryAt_sectors (im : Img) {ino : Nat} (h : ino < ninodes) :
    entryAt sb im.sectors ino = entryAt sb (view im) ino := by
  unfold entryAt
  rw [view_of_ne im (inodeBlock_lt_fssize h).ne]

/-- The array that stands for the image. -/
def storeOf (im : Img) : Store :=
  { blocks := view im, held := [], log := initLog, header := { numBlocks := 0, blockNo := fun _ => 0 }, ops := [] }

/-- `freeblock++` is `cache_alloc`. -/
theorem taken {im : Img} (hlo : nmeta ≤ im.freeblock) (hhi : im.freeblock < allocLimit sb)
    (hzero : im.sectors im.freeblock = Bytes.zero) :
    Taken sb (storeOf im) im.freeblock (storeOf { im with freeblock := im.freeblock + 1 }) := by
  have hlimit := allocLimit_sb
  have hne : ∀ x, nmeta ≤ x → x ≠ sb.bitmapStart.toNat := fun x hx he => by
    have : sb.bitmapStart.toNat < nmeta := by decide
    omega
  have hbits : ∀ x < sb.numBlocks.toNat, x < bitPerBlock := fun x hx => by
    have : sb.numBlocks.toNat < bitPerBlock := by decide
    omega
  refine ⟨⟨by rw [dataStart_sb]; exact hlo, hhi⟩, ?_, fun x hx => ?_, ?_, fun x hx _ => ?_, fun i hi => ?_, rfl,
    SameOps.refl _⟩
  · rw [show (storeOf im).blocks = view im from rfl, bitAt_view im (by simp only [bitPerBlock, blockSize]; omega)]
    simp
  · show bitAt sb (view _) x = update (bitAt sb (view im)) _ _ x
    rw [bitAt_view _ (hbits x hx)]
    by_cases he : x = im.freeblock
    · simp [he]
    · rw [update_of_ne he, bitAt_view im (hbits x hx)]
      have : x < im.freeblock + 1 ↔ x < im.freeblock := by omega
      simp [this]
  · exact (view_of_ne _ (hne _ hlo)).trans hzero
  · exact (view_of_ne _ (hne x hx)).trans (view_of_ne im (hne x hx)).symm
  · exact (entryAt_sectors _ hi).symm.trans (entryAt_sectors im hi)

/-! ## Primitives -/

section Primitives

variable {E : Fail → Prop} {im : Img}

theorem wp_rsect {Q : Data → Img → Prop} {sec : Nat} (h : sec < fssize) (hQ : Q (im.sectors sec) im) :
    wp (rsect sec) Q E im := by
  unfold wp rsect
  rw [if_pos h]
  exact hQ

theorem wp_wsect {Q : Unit → Img → Prop} {sec : Nat} {d : Data}
    (hQ : Q () { im with sectors := update im.sectors sec d }) : wp (wsect sec d) Q E im := hQ

theorem wp_newBlock {Q : Nat → Img → Prop} (hQ : Q im.freeblock { im with freeblock := im.freeblock + 1 }) :
    wp newBlock Q E im := hQ

theorem wp_newInode {Q : Nat → Img → Prop} (hQ : Q im.freeinode { im with freeinode := im.freeinode + 1 }) :
    wp newInode Q E im := hQ

theorem wp_rinode {Q : InodeEntry → Img → Prop} {inum : Nat} (h : inum < ninodes)
    (hQ : Q (entryAt sb (view im) inum) im) : wp (rinode inum) Q E im := by
  have hlt := inodeBlock_lt_fssize h
  have hmap : sb.bitmapStart.toNat < fssize := by decide
  unfold rinode
  rw [wp_bind]
  refine wp_rsect (by omega) ?_
  show Q (entryAt sb im.sectors inum) im
  rw [entryAt_sectors im h]
  exact hQ

/-- The entry is in the view as it is on the image. -/
theorem wp_winode {Q : Unit → Img → Prop} {inum : Nat} {e : InodeEntry} (h : inum < ninodes)
    (hQ : ∀ im', view im' = update (view im) (inodeBlock sb inum)
        (writeEntry (view im (inodeBlock sb inum)) (inum % inodePerBlock) e) →
      im'.freeblock = im.freeblock → im'.freeinode = im.freeinode →
      (∀ b, b < sb.inodeStart.toNat ∨ sb.bitmapStart.toNat ≤ b → im'.sectors b = im.sectors b) → Q () im') :
    wp (winode inum e) Q E im := by
  have hlt := inodeBlock_lt_fssize h
  have hmap : sb.bitmapStart.toNat < fssize := by decide
  have hstart : sb.inodeStart.toNat ≤ inodeBlock sb inum := Nat.le_add_right ..
  unfold winode
  rw [wp_bind]
  refine wp_rsect (by omega) (wp_wsect (hQ _ ?_ rfl rfl fun b hb => update_of_ne (by omega) ..))
  rw [view_write im hlt.ne, view_of_ne im hlt.ne]

end Primitives

/-! ## Blocks for a file -/

/-- The blocks of a file of this size, the indirect block included. -/
def blocksFor (size : Nat) : Nat :=
  let k := (size + blockSize - 1) / blockSize
  k + if inodeNumDirect < k then 1 else 0

theorem blocksFor_zero : blocksFor 0 = 0 := by decide

/-- The blocks that a round of `iappend` takes. -/
def cost (e : InodeEntry) (B : Nat → Data) (fbn : Nat) : Nat :=
  (if inodeNumDirect ≤ fbn ∧ e.indirect = 0 then 1 else 0) + if slotRef e B (dataSlot fbn) = 0 then 1 else 0

theorem blocksFor_mono {a b : Nat} (h : a ≤ b) : blocksFor a ≤ blocksFor b := by
  have hdiv : (a + blockSize - 1) / blockSize ≤ (b + blockSize - 1) / blockSize := Nat.div_le_div_right (by omega)
  unfold blocksFor
  simp only
  split <;> split <;> omega

/-- A round takes no more than the bytes it writes need. -/
theorem blocksFor_add_cost {e : InodeEntry} {B : Nat → Data} {off n : Nat}
    (hthere : ∀ i < off, blockOf e B i ≠ 0) (hn : 0 < n) (hchunk : off % blockSize + n ≤ blockSize)
    (hmax : off < inodeMaxBytes) : blocksFor off + cost e B (off / blockSize) ≤ blocksFor (off + n) := by
  have hdiv := div_add_mod off blockSize
  have hk : off / blockSize < inodeMaxBlocks := Nat.div_lt_of_lt_mul (by rw [Nat.mul_comm]; exact hmax)
  simp only [blockSize, inodeMaxBlocks, inodeNumDirect, inodeNumIndirect] at hdiv hchunk hk
  -- behind the first block of the indirect ones there is an indirect block
  have hind : inodeNumDirect < off / blockSize → e.indirect ≠ 0 := by
    intro hlt hz
    have hslot : dataSlot (inodeNumDirect * blockSize / blockSize) = .entry ⟨0, by decide⟩ := by decide
    refine hthere (inodeNumDirect * blockSize) ?_ ?_
    · simp only [inodeNumDirect, blockSize] at hlt ⊢
      omega
    · unfold blockOf
      exact slotRef_entry_of_zero hz ..
  by_cases hmod : off % blockSize = 0
  · have hc : (off + blockSize - 1) / blockSize = off / blockSize := by
      simp only [blockSize] at hmod ⊢
      omega
    have hc' : (off + n + blockSize - 1) / blockSize = off / blockSize + 1 := by
      simp only [blockSize] at hmod ⊢
      omega
    have hfirst : inodeNumDirect ≤ off / blockSize ∧ e.indirect = 0 → off / blockSize = inodeNumDirect :=
      fun h => Nat.le_antisymm (Nat.le_of_not_lt fun hlt => hind hlt h.2) h.1
    unfold blocksFor cost
    simp only [hc, hc']
    by_cases hnew : inodeNumDirect ≤ off / blockSize ∧ e.indirect = 0
    · have heq := hfirst hnew
      rw [if_pos hnew, heq]
      split_ifs <;> omega
    · split_ifs <;> omega
  · -- the block is there, with the byte before
    have hold : slotRef e B (dataSlot (off / blockSize)) ≠ 0 := by
      have := hthere (off - 1) (by simp only [blockSize] at hmod; omega)
      unfold blockOf at this
      rwa [show (off - 1) / blockSize = off / blockSize from by simp only [blockSize] at hmod ⊢; omega] at this
    have hcost : cost e B (off / blockSize) = 0 := by
      unfold cost
      rw [if_neg hold, if_neg]
      rintro ⟨hge, hz⟩
      refine hold ?_
      have hkk : off / blockSize - inodeNumDirect < inodeNumIndirect := by
        simp only [inodeNumDirect, inodeNumIndirect, blockSize] at hge ⊢
        omega
      rw [dataSlot_entry (by omega) hkk]
      exact slotRef_entry_of_zero hz ..
    rw [hcost]
    exact blocksFor_mono (by omega)

/-! ## A round of `iappend` -/

/-- An inode whose entry is in memory, on an image where the blocks behind `freeblock` are untouched. -/
structure Growing (im : Img) (ino : Nat) (din : InodeEntry) : Prop where
  good : Good sb (entsWith sb (view im) ino din) (view im)
  self : Allocated sb (entsWith sb (view im) ino din) ino
  lo : nmeta ≤ im.freeblock
  tail : ∀ b, im.freeblock ≤ b → im.sectors b = Bytes.zero

/-- At most `c` blocks have been taken, and nothing in front of the data has changed. -/
structure Extended (im im' : Img) (c : Nat) : Prop where
  count : im'.freeblock ≤ im.freeblock + c
  mono : im.freeblock ≤ im'.freeblock
  inodes : im'.freeinode = im.freeinode
  tail : ∀ b, im'.freeblock ≤ b → im'.sectors b = Bytes.zero
  front : ∀ b < nmeta, im'.sectors b = im.sectors b

section Round

variable {im im' im'' : Img} {ino c c' : Nat} {din din' : InodeEntry}

theorem Growing.refl (h : Growing im ino din) : Extended im im 0 :=
  ⟨le_rfl, le_rfl, rfl, h.tail, fun _ _ => rfl⟩

theorem Extended.trans (h : Extended im im' c) (h' : Extended im' im'' c') : Extended im im'' (c + c') := by
  have hc := h.count
  have hc' := h'.count
  exact ⟨by omega, h.mono.trans h'.mono, h'.inodes.trans h.inodes, h'.tail, fun b hb =>
    (h'.front b hb).trans (h.front b hb)⟩

theorem Extended.weaken (h : Extended im im' c) (hc : c ≤ c') : Extended im im' c' := by
  have := h.count
  exact ⟨by omega, h.mono, h.inodes, h.tail, h.front⟩

section

variable (h : Growing im ino din)
include h

theorem Growing.grown (hgrown : Grown sb ino (view im) din (view im') din')
    (hext : Extended im im' c) : Growing im' ino din' :=
  ⟨hgrown.good, (hgrown.allocated ino).mpr h.self, h.lo.trans hext.mono, hext.tail⟩

theorem Growing.pos : im.freeblock ≠ 0 :=
  ne_of_gt (lt_of_lt_of_le (by decide) h.lo)

/-- `freeblock++`. -/
theorem Growing.take : Extended im { im with freeblock := im.freeblock + 1 } 1 :=
  ⟨le_rfl, le_succ _, rfl, fun b hb => h.tail b (le_of_succ_le hb), fun _ _ => rfl⟩

/-- A block that has been taken is written. -/
theorem Growing.write {b : Nat} (hlo : nmeta ≤ b) (hhi : b < im.freeblock) (d : Data) :
    Extended im { im with sectors := update im.sectors b d } 0 := by
  refine ⟨le_rfl, le_rfl, rfl, fun x hx => ?_, fun x hx => update_of_ne (by omega) ..⟩
  have hx' : im.freeblock ≤ x := hx
  exact (update_of_ne (by omega) ..).trans (h.tail x hx')

/-- What a slot refers to has been taken. -/
theorem Growing.slot_lt {a : Slot} (hne : slotRef din (view im) a ≠ 0) :
    nmeta ≤ slotRef din (view im) a ∧ slotRef din (view im) a < im.freeblock ∧
      slotRef din (view im) a < allocLimit sb := by
  have hdata := h.good.dataBlock h.self (a := a) (by rw [entsWith_self]; exact hne)
  have hmark := h.good.marked h.self (a := a) (by rw [entsWith_self]; exact hne)
  rw [entsWith_self] at hdata hmark
  have hlimit := allocLimit_sb
  have hlt := hdata.2
  rw [bitAt_view im (by simp only [bitPerBlock, blockSize]; omega)] at hmark
  exact ⟨dataStart_sb ▸ hdata.1, of_decide_eq_true hmark, hlt⟩

end

theorem ne_bitmapStart {b : Nat} (h : nmeta ≤ b) : b ≠ sb.bitmapStart.toNat := by
  have : sb.bitmapStart.toNat < nmeta := by decide
  omega

variable {E : Fail → Prop} {Q : Nat × InodeEntry → Img → Prop}

/-- What a round has before it writes the bytes. -/
structure Linked (im : Img) (ino : Nat) (din : InodeEntry) (sl : Slot) (c : Nat) (r : Nat × InodeEntry)
    (im' : Img) : Prop where
  grown : Grown sb ino (view im) din (view im') r.2
  ext : Extended im im' c
  ref : slotRef r.2 (view im') sl = r.1
  ne : r.1 ≠ 0

theorem wp_mapEntry (h : Growing im ino din) (hz : din.indirect ≠ 0) (j : Fin inodeNumIndirect)
    (hcost : im.freeblock + (if slotRef din (view im) (.entry j) = 0 then 1 else 0) ≤ allocLimit sb)
    (hQ : ∀ r im', Linked im ino din (.entry j) (if slotRef din (view im) (.entry j) = 0 then 1 else 0) r im' →
      Q r im') : wp (mapEntry din j) Q E im := by
  have hlimit := allocLimit_sb
  obtain ⟨hlo, hhi, hlt⟩ := h.slot_lt (a := .indirect) (toNat_ne_zero.mpr hz)
  have hne := ne_bitmapStart hlo
  change nmeta ≤ din.indirect.toNat at hlo
  change din.indirect.toNat < im.freeblock at hhi
  change din.indirect.toNat < allocLimit sb at hlt
  change din.indirect.toNat ≠ sb.bitmapStart.toNat at hne
  have href := slotRef_entry_of_ne hz (view im) j
  rw [view_of_ne im hne] at href
  unfold mapEntry
  rw [wp_bind]
  refine wp_rsect (by simp only [fssize]; omega) ?_
  rw [wp_ite]
  constructor
  · intro hempty
    have hslot : slotRef din (view im) (.entry j) = 0 := by
      rw [href, hempty]
      rfl
    rw [if_pos hslot] at hcost hQ
    have ht := taken h.lo (by omega) (h.tail _ le_rfl)
    have hb := toNat_taken layout ht
    have hgrown := Grown.entry layout (s := storeOf im) h.good h.self ht hz (j := j) (by
      show addrAt (view im _) j = 0
      rw [view_of_ne im hne]
      exact hempty)
    rw [wp_bind]
    refine wp_newBlock ?_
    rw [wp_bind]
    refine wp_wsect ?_
    rw [wp_pure, hb]
    -- first the block is taken, then its number is written
    let im' : Img := { im with
      sectors := update im.sectors din.indirect.toNat
        (setAddrAt (im.sectors din.indirect.toNat) j (UInt32.ofNat im.freeblock))
      freeblock := im.freeblock + 1 }
    have hview : view im' = update (view { im with freeblock := im.freeblock + 1 }) din.indirect.toNat
        (setAddrAt (view im din.indirect.toNat) j (UInt32.ofNat im.freeblock)) := by
      rw [view_of_ne im hne]
      exact view_write { im with freeblock := im.freeblock + 1 } hne _
    have hgrown' : Grown sb ino (view im) din (view im') din := by
      rw [hview]
      exact hgrown
    refine hQ _ _ ⟨hgrown', ?_, ?_, ?_⟩
    · refine ⟨le_rfl, le_succ _, rfl, fun x hx => ?_, fun x hx => update_of_ne (by omega) ..⟩
      have hx' : im.freeblock + 1 ≤ x := hx
      exact (update_of_ne (by omega) ..).trans (h.tail x (by omega))
    · rw [slotRef_entry_of_ne hz, hview, update_self, addrAt_setAddrAt _ j.isLt, hb]
    · exact h.pos
  · intro hthere
    have hslot : slotRef din (view im) (.entry j) ≠ 0 := by
      rw [href]
      exact toNat_ne_zero.mpr hthere
    rw [if_neg hslot] at hQ
    exact hQ _ _ ⟨Grown.refl h.good, h.refl, href, toNat_ne_zero.mpr hthere⟩

theorem wp_mapBlock (h : Growing im ino din) {fbn : Nat} (hfbn : fbn < inodeMaxBlocks)
    (hcost : im.freeblock + cost din (view im) fbn ≤ allocLimit sb)
    (hQ : ∀ r im', Linked im ino din (dataSlot fbn) (cost din (view im) fbn) r im' → Q r im') :
    wp (mapBlock din fbn) Q E im := by
  unfold mapBlock
  by_cases hk : fbn < inodeNumDirect
  · have hslot := dataSlot_direct hk
    rw [dif_pos hk, wp_ite]
    unfold cost at hcost hQ
    rw [if_neg (by omega), hslot, zero_add] at hcost hQ
    constructor
    · intro hempty
      have hzero : slotRef din (view im) (.direct ⟨fbn, hk⟩) = 0 := by
        show (din.addrs _).toNat = 0
        rw [hempty]
        rfl
      rw [if_pos hzero] at hcost hQ
      have ht := taken h.lo (by omega) (h.tail _ le_rfl)
      have hb := toNat_taken layout ht
      rw [wp_bind]
      refine wp_newBlock ?_
      rw [wp_pure, hb]
      refine hQ _ _ ⟨Grown.direct layout (s := storeOf im) h.good h.self ht hempty, h.take, ?_, ?_⟩
      · rw [slotRef_setAddr, if_pos rfl, hb]
      · exact h.pos
    · intro hthere
      have hne : slotRef din (view im) (.direct ⟨fbn, hk⟩) ≠ 0 := toNat_ne_zero.mpr hthere
      rw [if_neg hne] at hQ
      exact hQ _ _ ⟨Grown.refl h.good, h.refl, rfl, hne⟩
  · have hkk : fbn - inodeNumDirect < inodeNumIndirect := by
      simp only [inodeMaxBlocks, inodeNumDirect, inodeNumIndirect] at *
      omega
    have hslot := dataSlot_entry hk hkk
    rw [dif_neg hk, wp_ite]
    unfold cost at hcost hQ
    rw [hslot] at hcost hQ
    constructor
    · intro hempty
      have hzero := slotRef_entry_of_zero hempty (view im) ⟨fbn - inodeNumDirect, hkk⟩
      rw [if_pos ⟨by omega, hempty⟩, if_pos hzero] at hcost hQ
      -- first the indirect block, which is then one without addresses
      have ht := taken h.lo (by omega) (h.tail _ le_rfl)
      have hb := toNat_taken layout ht
      have hgrown := Grown.indirect layout (s := storeOf im) h.good h.self ht hempty
      have h1 := h.grown hgrown h.take
      have hne : UInt32.ofNat im.freeblock ≠ 0 := by
        refine toNat_ne_zero.mp ?_
        rw [hb]
        exact h.pos
      rw [wp_bind]
      refine wp_newBlock (wp_mapEntry h1 hne ⟨fbn - inodeNumDirect, hkk⟩ ?_ fun r im' hlink => ?_)
      · show im.freeblock + 1 + _ ≤ _
        split <;> omega
      · refine hQ r im' ⟨hgrown.trans layout hlink.grown, (h.take.trans hlink.ext).weaken ?_, hlink.ref, hlink.ne⟩
        split <;> omega
    · intro hthere
      rw [if_neg (fun hh => hthere hh.2), zero_add] at hcost hQ
      exact wp_mapEntry h hthere ⟨fbn - inodeNumDirect, hkk⟩ hcost hQ

/-- What the loop of `iappend` leaves: the bytes are written, and no more blocks are taken than the new size
    needs. -/
structure Appended (im : Img) (ino : Nat) (din : InodeEntry) (off : Nat) (p : List UInt8) (im' : Img)
    (din' : InodeEntry) : Prop where
  written : Written sb ino (view im) din off p.length (fun j => p.getD j 0) (view im') din'
  ext : Extended im im' (blocksFor (off + p.length) - blocksFor off)

theorem wp_appendLoop {Q : InodeEntry × Nat → Img → Prop} {fuel off : Nat} {p : List UInt8} (h : Growing im ino din)
    (hthere : ∀ i < off, blockOf din (view im) i ≠ 0) (hmax : off + p.length ≤ inodeMaxBytes)
    (hcost : im.freeblock + (blocksFor (off + p.length) - blocksFor off) ≤ allocLimit sb) (hfuel : p.length ≤ fuel)
    (hQ : ∀ im' din', Appended im ino din off p im' din' → Q (din', off + p.length) im') :
    wp (appendLoop fuel din off p) Q E im := by
  -- a round is a chunk within one block; what is left is again such a loop
  induction fuel generalizing im din off p with
  | zero =>
    obtain rfl : p = [] := eq_nil_of_length_eq_zero (by omega)
    exact hQ im din ⟨Written.refl h.good off _, h.refl.weaken (zero_le _)⟩
  | succ fuel ih =>
    unfold appendLoop
    rw [wp_ite]
    constructor
    · intro hpos
      have hoff : off < inodeMaxBytes := by omega
      have hfbn : off / blockSize < inodeMaxBlocks := Nat.div_lt_of_lt_mul (by rw [Nat.mul_comm]; exact hoff)
      have hn : min p.length ((off / blockSize + 1) * blockSize - off) = chunk off p.length := by
        unfold chunk
        simp only [blockSize]
        omega
      have hat : off - off / blockSize * blockSize = off % blockSize := by
        simp only [blockSize]
        omega
      have hchunk := chunk_le off p.length
      have hone := chunk_pos off hpos
      have hround := blocksFor_add_cost hthere hone hchunk (by omega)
      have hrest : blocksFor (off + chunk off p.length) ≤ blocksFor (off + p.length) := blocksFor_mono (by omega)
      simp only [wp_bind, wp_assert]
      refine ⟨fun _ => ?_, fun hno => absurd hfbn (of_decide_eq_false hno)⟩
      refine wp_mapBlock h hfbn (by omega) fun r im₁ hlink => ?_
      have h1 := h.grown hlink.grown hlink.ext
      have hne : slotRef r.2 (view im₁) (dataSlot (off / blockSize)) ≠ 0 := hlink.ref ▸ hlink.ne
      obtain ⟨hlo, hhi, hlt⟩ := h1.slot_lt hne
      rw [hlink.ref] at hlo hhi hlt
      have hlimit := allocLimit_sb
      refine wp_rsect (by simp only [fssize]; omega) (wp_wsect ?_)
      rw [hn, hat]
      have hw := Written.chunk layout (f := fun j => p.getD j 0) h.good h.self hlink.grown hne hchunk (by omega)
      rw [show blockOf r.2 (view im₁) off = r.1 from hlink.ref, view_of_ne im₁ (ne_bitmapStart hlo),
        ← view_write im₁ (ne_bitmapStart hlo)] at hw
      have hext := hlink.ext.trans (h1.write hlo hhi ((im₁.sectors r.1).blit (off % blockSize) (chunk off p.length)
        fun j => p.getD j 0))
      have h2 : Growing _ ino r.2 := ⟨hw.good, (allocated_entsWith hw.entries (by rw [hw.fields]) _).mpr h.self,
        h.lo.trans hext.mono, hext.tail⟩
      have hcount := hext.count
      refine ih h2 (fun i hi => ?_) (by rw [length_drop]; omega) ?_ (by rw [length_drop]; omega)
        fun im' din' happ => ?_
      · by_cases hold : i < off
        · exact (hw.bytes i (by omega) (Or.inl (hthere i hold))).1
        · exact (hw.bytes i (by omega) (Or.inr ⟨by omega, hi⟩)).1
      · rw [length_drop, show off + chunk off p.length + (p.length - chunk off p.length) = off + p.length from
          by omega]
        omega
      · have hlen : off + chunk off p.length + (p.drop (chunk off p.length)).length = off + p.length := by
          rw [length_drop]
          omega
        rw [hlen]
        obtain ⟨hwritten, hext'⟩ := happ
        rw [hlen] at hext'
        refine hQ im' din' ⟨?_, (hext.trans hext').weaken (by omega)⟩
        have hsrc : (fun j => (p.drop (chunk off p.length)).getD j 0) = fun j => p.getD (chunk off p.length + j) 0 := by
          funext j
          rw [getD_eq_getElem?_getD, getElem?_drop, ← getD_eq_getElem?_getD]
        rw [hsrc, length_drop] at hwritten
        have := hw.trans hwritten
        rwa [show chunk off p.length + (p.length - chunk off p.length) = p.length from by omega] at this
    · intro hno
      obtain rfl : p = [] := eq_nil_of_length_eq_zero (by omega)
      exact hQ im din ⟨Written.refl h.good off _, h.refl.weaken (zero_le _)⟩

end Round

/-! ## The files on the image -/

/-- The image holds the files `files i`, of the types `types i`, for the inodes up to `freeinode`. -/
structure Laid (im : Img) (types : Nat → InodeType) (files : Nat → List UInt8) : Prop where
  good : Good sb (entryAt sb (view im)) (view im)
  full : Full sb (view im)
  lo : nmeta ≤ im.freeblock
  tail : ∀ b, im.freeblock ≤ b → im.sectors b = Bytes.zero
  header : im.sectors sb.logStart.toNat = Bytes.zero
  super : im.sectors 1 = superSector sb
  pos : 0 < im.freeinode
  inodes : im.freeinode ≤ ninodes
  unused : ∀ i, im.freeinode ≤ i → i < ninodes → entryAt sb (view im) i = InodeEntry.zero
  types : ∀ i, 0 < i → i < im.freeinode → (entryAt sb (view im) i).type = types i ∧ types i ≠ inodeInvalid
  files : ∀ i, 0 < i → i < im.freeinode → fileOf sb (view im) i = files i

/-- Bytes written behind the end. -/
theorem writeAt_end (old p : List UInt8) : writeAt old old.length p.length (fun j => p.getD j 0) = old ++ p := by
  unfold writeAt
  apply ext_getElem
  · simp
  · intro i h1 h2
    rw [length_append] at h2
    rw [getElem_map, getElem_range]
    by_cases hi : i < old.length
    · rw [if_neg (by omega), getElem_append_left hi, getD_eq_getElem?_getD, getElem?_eq_getElem hi]
      rfl
    · rw [if_pos (by omega), getElem_append_right (by omega)]
      show p.getD (i - old.length) 0 = _
      rw [getD_eq_getElem?_getD, getElem?_eq_getElem (by omega)]
      rfl

section Files

variable {im : Img} {types : Nat → InodeType} {files : Nat → List UInt8} {E : Fail → Prop}

section

variable (h : Laid im types files)
include h

theorem Laid.allocated (i : Nat) : Allocated sb (entryAt sb (view im)) i ↔ 0 < i ∧ i < im.freeinode := by
  constructor
  · rintro ⟨hpos, hlt, htype⟩
    refine ⟨hpos, Nat.lt_of_not_le fun hge => htype ?_⟩
    rw [h.unused i hge (numInodes_sb ▸ hlt)]
    rfl
  · rintro ⟨hpos, hlt⟩
    obtain ⟨htype, hknown⟩ := h.types i hpos hlt
    have := h.inodes
    exact ⟨hpos, by rw [numInodes_sb]; omega, by rw [htype]; exact hknown⟩

theorem Laid.congr {types' : Nat → InodeType} {files' : Nat → List UInt8}
    (htypes : ∀ i, 0 < i → i < im.freeinode → types' i = types i)
    (hfiles : ∀ i, 0 < i → i < im.freeinode → files' i = files i) : Laid im types' files' :=
  { h with
    types := fun i hpos hlt => by rw [htypes i hpos hlt]; exact h.types i hpos hlt
    files := fun i hpos hlt => by rw [hfiles i hpos hlt]; exact h.files i hpos hlt }

theorem Laid.length {i : Nat} (hpos : 0 < i) (hlt : i < im.freeinode) :
    (entryAt sb (view im) i).numBytes.toNat = (files i).length := by
  rw [← h.files i hpos hlt, length_fileOf]

/-- **`iappend`** makes one file longer. -/
theorem wp_iappend {Q : Unit → Img → Prop} {ino : Nat} {p : List UInt8} (hpos : 0 < ino)
    (hlt : ino < im.freeinode) (hmax : (files ino).length + p.length ≤ inodeMaxBytes)
    (hcost : im.freeblock + (blocksFor ((files ino).length + p.length) - blocksFor (files ino).length)
      ≤ allocLimit sb)
    (hQ : ∀ im', Laid im' types (update files ino (files ino ++ p)) → im'.freeinode = im.freeinode → im'.freeblock
        ≤ im.freeblock + (blocksFor ((files ino).length + p.length) - blocksFor (files ino).length) →
      Q () im') : wp (iappend ino p) Q E im := by
  have ha := (h.allocated ino).mpr ⟨hpos, hlt⟩
  have hnum : ino < ninodes := lt_of_lt_of_le hlt h.inodes
  have hlen := h.length hpos hlt
  have hgrow : Growing im ino (entryAt sb (view im) ino) := by
    refine ⟨?_, ?_, h.lo, h.tail⟩
    · rw [entsWith_entryAt]
      exact h.good
    · rw [entsWith_entryAt]
      exact ha
  unfold iappend
  rw [wp_bind]
  refine wp_rinode hnum ?_
  rw [wp_bind]
  rw [← hlen] at hmax hcost hQ
  refine wp_appendLoop hgrow (h.full ino ha).2 hmax hcost le_rfl fun im₁ din₁ happ => ?_
  refine wp_winode hnum fun im₂ hview hblock hinode hsame => ?_
  have hsize : (UInt32.ofNat ((entryAt sb (view im) ino).numBytes.toNat + p.length)).toNat
      = max (entryAt sb (view im) ino).numBytes.toNat ((entryAt sb (view im) ino).numBytes.toNat + p.length) := by
    rw [max_eq_right (le_add_right ..)]
    refine UInt32.toNat_ofNat_of_lt' (lt_of_le_of_lt hmax ?_)
    decide
  have hw := FileWritten.of_written layout hgrow.self happ.written hsize hview
  have hext := happ.ext
  have hcount := hext.count
  have hfile : fileOf sb (view im₂) ino = files ino ++ p := by
    rw [fileOf_written hw h.full ha le_rfl hmax, ← h.files ino hpos hlt, ← writeAt_end, length_fileOf]
  have hfront : ∀ b, b < sb.inodeStart.toNat → im₂.sectors b = im.sectors b := fun b hb => by
    have : sb.inodeStart.toNat < nmeta := by decide
    rw [hsame b (Or.inl hb), hext.front b (by omega)]
  have hfree : im₂.freeinode = im.freeinode := hinode.trans hext.inodes
  refine hQ im₂ ⟨hw.good, full_written hw h.full ha le_rfl hmax, ?_, fun b hb => ?_, ?_, ?_, ?_, ?_,
    fun i hge hi => ?_, fun i hi hilt => ?_, fun i hi hilt => ?_⟩ hfree (by omega)
  · exact hblock.symm ▸ h.lo.trans hext.mono
  · have hmap : sb.bitmapStart.toNat < nmeta := by decide
    have := h.lo.trans hext.mono
    rw [hsame b (Or.inr (by omega)), hext.tail b (by omega)]
  · rw [hfront _ (by decide), h.header]
  · rw [hfront _ (by decide), h.super]
  · rw [hfree]
    exact h.pos
  · rw [hfree]
    exact h.inodes
  · rw [hw.entries i (numInodes_sb ▸ hi) (by omega)]
    exact h.unused i (by omega) hi
  · rw [hfree] at hilt
    obtain ⟨htype, hknown⟩ := h.types i hi hilt
    refine ⟨?_, hknown⟩
    by_cases he : i = ino
    · subst he
      rw [hw.entry, hw.type, htype]
    · rw [hw.entries i ((h.allocated i).mpr ⟨hi, hilt⟩).2.1 he, htype]
  · rw [hfree] at hilt
    by_cases he : i = ino
    · subst he
      rw [update_self, hfile]
    · rw [update_of_ne he, ← h.files i hi hilt]
      exact fileOf_other hw h.full he ((h.allocated i).mpr ⟨hi, hilt⟩)

end

theorem slotRef_newEntry (type : InodeType) (B : Nat → Data) (sl : Slot) : slotRef (newEntry type) B sl = 0 := by
  cases sl with
  | direct i => rfl
  | indirect => rfl
  | entry j => exact slotRef_entry_of_zero rfl ..

/-- **`ialloc`** adds an empty file. -/
theorem wp_ialloc {Q : Nat → Img → Prop} {type : InodeType} (h : Laid im types files) (hlt : im.freeinode < ninodes)
    (htype : type ≠ inodeInvalid)
    (hQ : ∀ im', Laid im' (update types im.freeinode type) (update files im.freeinode []) →
      im'.freeinode = im.freeinode + 1 → im'.freeblock = im.freeblock → Q im.freeinode im') :
    wp (ialloc type) Q E im := by
  have hnum : im.freeinode < sb.numInodes.toNat := by rw [numInodes_sb]; exact hlt
  have hnot : ¬ Allocated sb (entryAt sb (view im)) im.freeinode := fun ha =>
    lt_irrefl _ ((h.allocated _).mp ha).2
  unfold ialloc
  rw [wp_bind]
  refine wp_newInode ?_
  rw [wp_bind]
  refine wp_winode hlt fun im₁ hview hblock hinode hsame => ?_
  change view im₁ = update (view im) (inodeBlock sb im.freeinode)
    (writeEntry (view im (inodeBlock sb im.freeinode)) (im.freeinode % inodePerBlock) (newEntry type)) at hview
  have hents : ∀ i, entryAt sb (view im₁) i = if i = im.freeinode then newEntry type else entryAt sb (view im) i :=
    fun i => by rw [hview]; exact entryAt_writeEntry ..
  have hdata : ∀ x, dataStart sb ≤ x → view im₁ x = view im x := fun x hx => by
    rw [hview]
    exact synced_data layout hnum _ hx
  have hgood : Good sb (entryAt sb (view im₁)) (view im₁) :=
    Good.replace layout h.good hnum (fun sl => if_neg hnot) (slotRef_newEntry type (view im)) hview
  -- the files that were there have not moved
  have hold : ∀ i, i ≠ im.freeinode → entryAt sb (view im₁) i = entryAt sb (view im) i := fun i hi => by
    rw [hents, if_neg hi]
  have hmoved : ∀ i, Allocated sb (entryAt sb (view im)) i → ∀ k,
      blockOf (entryAt sb (view im) i) (view im₁) k = blockOf (entryAt sb (view im) i) (view im) k :=
    fun i ha k => slotRef_congr (fun hz => hdata _ (h.good.indirect ha hz).1.1) _
  have hfree : im₁.freeinode = im.freeinode + 1 := hinode
  refine hQ im₁ ⟨hgood, fun i ha => ?_, ?_, fun b hb => ?_, ?_, ?_, ?_, ?_, fun i hge hi => ?_,
    fun i hi hilt => ?_, fun i hi hilt => ?_⟩ hfree hblock
  · by_cases he : i = im.freeinode
    · rw [hents, if_pos he]
      exact ⟨zero_le _, fun k hk => absurd hk (not_lt_zero k)⟩
    · have ha0 : Allocated sb (entryAt sb (view im)) i := ⟨ha.1, ha.2.1, hold i he ▸ ha.2.2⟩
      rw [hold i he]
      refine ⟨(h.full i ha0).1, fun k hk => ?_⟩
      rw [hmoved i ha0]
      exact (h.full i ha0).2 k hk
  · exact hblock.symm ▸ h.lo
  · have hmap : sb.bitmapStart.toNat < nmeta := by decide
    have hb' : im.freeblock ≤ b := hblock ▸ hb
    have := h.lo
    exact (hsame b (Or.inr (by omega))).trans (h.tail b hb')
  · exact (hsame _ (Or.inl (by decide))).trans h.header
  · exact (hsame _ (Or.inl (by decide))).trans h.super
  · omega
  · omega
  · rw [hold i (by omega)]
    exact h.unused i (by omega) hi
  · by_cases he : i = im.freeinode
    · rw [hents, if_pos he, he, update_self]
      exact ⟨rfl, htype⟩
    · rw [hold i he, update_of_ne he]
      exact h.types i hi (by omega)
  · by_cases he : i = im.freeinode
    · rw [he, update_self]
      unfold fileOf
      rw [hents, if_pos rfl]
      rfl
    · have hilt0 : i < im.freeinode := by omega
      have ha0 := (h.allocated i).mpr ⟨hi, hilt0⟩
      rw [update_of_ne he, ← h.files i hi hilt0]
      refine fileOf_congr (hold i he) (fun k _ => hmoved i ha0 k) fun k hk => hdata _ ?_
      exact (h.good.dataBlock ha0 ((h.full i ha0).2 k hk)).1

end Files

end Armv8Os.Mkfs
