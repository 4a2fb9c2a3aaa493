/-
  How a file grows.

  Bytes `512·k .. 512·k + 511` of a file are in the block of its slot `dataSlot k`.  `inode_map` may link fresh
  blocks into empty slots; `inode_write` then fills them.  The two relations here compare the disk and the
  entry of the inode before and after:

  * `Grown`   — free blocks have been linked, nothing that was in use has changed, except that the indirect
                block has more addresses in it;
  * `Written` — in addition `n` bytes of the file, from `off` on, are new.

  Both keep the file system `Good`, both compose, and both say that another file is the same, because by
  `Good` it shares no block with this one.
-/
import Armv8Os.Fs.StoreSpec

namespace Armv8Os.Fs

open Function (update update_of_ne update_self)

/-! ## Slots of the bytes -/

/-- The slot for block `k` of a file. -/
def dataSlot (k : Nat) : Slot :=
  if h : k < inodeNumDirect then .direct ⟨k, h⟩
  else .entry ⟨(k - inodeNumDirect) % inodeNumIndirect, Nat.mod_lt _ (by decide)⟩

theorem dataSlot_direct {k : Nat} (h : k < inodeNumDirect) : dataSlot k = .direct ⟨k, h⟩ := dif_pos h

theorem dataSlot_entry {k : Nat} (h : ¬ k < inodeNumDirect) (hk : k - inodeNumDirect < inodeNumIndirect) :
    dataSlot k = .entry ⟨k - inodeNumDirect, hk⟩ := by
  unfold dataSlot
  rw [dif_neg h]
  congr 2
  exact Nat.mod_eq_of_lt hk

theorem dataSlot_ne_indirect (k : Nat) : dataSlot k ≠ .indirect := by
  unfold dataSlot
  split <;> (intro h; cases h)

theorem dataSlot_inj {k k' : Nat} (hk : k < inodeMaxBlocks) (hk' : k' < inodeMaxBlocks)
    (h : dataSlot k = dataSlot k') : k = k' := by
  simp only [inodeMaxBlocks, inodeNumDirect, inodeNumIndirect] at hk hk'
  unfold dataSlot at h
  simp only [inodeNumDirect, inodeNumIndirect] at h
  split at h
  · split at h
    · exact congrArg Fin.val (Slot.direct.inj h)
    · cases h
  · split at h
    · cases h
    · have := congrArg Fin.val (Slot.entry.inj h)
      simp only at this
      omega

/-- The block that holds byte `i` of a file. -/
def blockOf (e : InodeEntry) (blocks : Nat → Data) (i : Nat) : Nat := slotRef e blocks (dataSlot (i / blockSize))

/-- Byte `i` of a file. -/
def byteAt (e : InodeEntry) (blocks : Nat → Data) (i : Nat) : UInt8 :=
  (blocks (blockOf e blocks i)).get (i % blockSize)

/-! ## Growing -/

variable {sb : SuperBlock}

/-- Only the block numbers of the entry differ. -/
def SameFields (e e' : InodeEntry) : Prop := e' = { e with addrs := e'.addrs, indirect := e'.indirect }

theorem SameFields.trans {e e' e'' : InodeEntry} (h : SameFields e e') (h' : SameFields e' e'') :
    SameFields e e'' := by
  unfold SameFields at *
  rw [h'] at *
  rw [h]

/-- Fresh blocks have been linked. -/
structure Grown (sb : SuperBlock) (ino : Nat) (B : Nat → Data) (e : InodeEntry) (B' : Nat → Data)
    (e' : InodeEntry) : Prop where
  good : Good sb (entsWith sb B' ino e') B'
  entries : ∀ i < sb.numInodes.toNat, entryAt sb B' i = entryAt sb B i
  fields : SameFields e e'
  refs : ∀ sl, slotRef e B sl ≠ 0 → slotRef e' B' sl = slotRef e B sl
  marks : ∀ x < sb.numBlocks.toNat, bitAt sb B x = true → bitAt sb B' x = true
  content : ∀ x, DataBlock sb x → bitAt sb B x = true → x ≠ e'.indirect.toNat → B' x = B x

theorem Grown.refl {ino : Nat} {B : Nat → Data} {e : InodeEntry} (h : Good sb (entsWith sb B ino e) B) :
    Grown sb ino B e B e :=
  ⟨h, fun _ _ => rfl, rfl, fun _ _ => rfl, fun _ _ hx => hx, fun _ _ _ _ => rfl⟩

theorem Grown.trans (hl : DiskLayout sb) {ino : Nat} {B B' B'' : Nat → Data} {e e' e'' : InodeEntry}
    (h : Grown sb ino B e B' e') (h' : Grown sb ino B' e' B'' e'') : Grown sb ino B e B'' e'' := by
  refine ⟨h'.good, fun i hi => (h'.entries i hi).trans (h.entries i hi), h.fields.trans h'.fields,
    fun sl hsl => ?_, fun x hx hm => h'.marks x hx (h.marks x hx hm), fun x hx hm hne => ?_⟩
  · have hmid := h.refs sl hsl
    rw [h'.refs sl (hmid ▸ hsl), hmid]
  · have hmid : x ≠ e'.indirect.toNat := by
      rintro rfl
      refine hne (h'.refs .indirect ?_).symm
      have := areas_lt hl
      have := hx.1
      show e'.indirect.toNat ≠ 0
      omega
    rw [h'.content x hx (h.marks x (DataBlock.lt_numBlocks hl hx) hm) hne, h.content x hx hm hmid]

/-- An allocated inode is allocated whatever entry of that type is in memory. -/
theorem allocated_entsWith {B B' : Nat → Data} {n : Nat} {e f : InodeEntry}
    (hentries : ∀ i < sb.numInodes.toNat, entryAt sb B' i = entryAt sb B i) (htype : f.type = e.type) (i : Nat) :
    Allocated sb (entsWith sb B' n f) i ↔ Allocated sb (entsWith sb B n e) i := by
  refine allocated_congr fun _ hlt => ?_
  by_cases hi : i = n
  · subst hi
    rw [entsWith_self, entsWith_self, htype]
  · rw [entsWith_of_ne _ _ hi, entsWith_of_ne _ _ hi, hentries i hlt]

section Use

variable {ino : Nat} {B B' : Nat → Data} {e e' : InodeEntry}

theorem Grown.type (h : Grown sb ino B e B' e') : e'.type = e.type := by rw [h.fields]

theorem Grown.allocated (h : Grown sb ino B e B' e') (i : Nat) :
    Allocated sb (entsWith sb B' ino e') i ↔ Allocated sb (entsWith sb B ino e) i :=
  allocated_entsWith h.entries h.type i

section

variable (hg : Good sb (entsWith sb B ino e) B) (h : Grown sb ino B e B' e')
  (hself : Allocated sb (entsWith sb B ino e) ino)
include hg h hself

/-- The slots of another inode are what they were. -/
theorem Grown.other_slots {i : Nat} (hi : i ≠ ino) (ha : Allocated sb (entsWith sb B ino e) i) (sl : Slot) :
    slotRef (entryAt sb B i) B' sl = slotRef (entryAt sb B i) B sl := by
  refine slotRef_congr (fun hz => ?_) sl
  obtain ⟨hdata, hmark⟩ := hg.indirect ha (by rw [entsWith_of_ne _ _ hi]; exact hz)
  rw [entsWith_of_ne _ _ hi] at hdata hmark
  refine h.content _ hdata hmark fun he => hi ?_
  -- were it the indirect block of `ino` too, two slots would share it now
  refine (h.good.inj ((h.allocated i).mpr ha) ((h.allocated ino).mpr hself) (a := .indirect) (b := .indirect)
    ?_ ?_).1
  · rw [entsWith_of_ne _ _ hi, h.entries i ha.2.1]
    exact toNat_ne_zero.mpr hz
  · rw [entsWith_of_ne _ _ hi, entsWith_self, h.entries i ha.2.1]
    exact he

/-- The blocks of the file's own bytes are what they were. -/
theorem Grown.own_content {sl : Slot} (hsl : sl ≠ .indirect)
    (hne : slotRef e B sl ≠ 0) : B' (slotRef e B sl) = B (slotRef e B sl) := by
  have hne' : slotRef (entsWith sb B ino e ino) B sl ≠ 0 := by rw [entsWith_self]; exact hne
  have hdata := hg.dataBlock hself hne'
  have hmark := hg.marked hself hne'
  rw [entsWith_self] at hdata hmark
  refine h.content _ hdata hmark fun he => hsl ?_
  have hself' := (h.allocated ino).mpr hself
  refine (h.good.inj hself' hself' (a := sl) (b := .indirect) ?_ ?_).2
  · rw [entsWith_self, h.refs sl hne]
    exact hne
  · rw [entsWith_self, h.refs sl hne]
    exact he

/-- The blocks of another file's bytes are what they were. -/
theorem Grown.other_content {i : Nat} (hi : i ≠ ino)
    (ha : Allocated sb (entsWith sb B ino e) i) {sl : Slot} (hne : slotRef (entryAt sb B i) B sl ≠ 0) :
    B' (slotRef (entryAt sb B i) B sl) = B (slotRef (entryAt sb B i) B sl) := by
  have hne' : slotRef (entsWith sb B ino e i) B sl ≠ 0 := by rw [entsWith_of_ne _ _ hi]; exact hne
  have hdata := hg.dataBlock ha hne'
  have hmark := hg.marked ha hne'
  rw [entsWith_of_ne _ _ hi] at hdata hmark
  refine h.content _ hdata hmark fun he => hi ?_
  have hslot := h.other_slots hg hself hi ha sl
  refine (h.good.inj ((h.allocated i).mpr ha) ((h.allocated ino).mpr hself) (a := sl) (b := .indirect) ?_ ?_).1
  · rw [entsWith_of_ne _ _ hi, h.entries i ha.2.1, hslot]
    exact hne
  · rw [entsWith_of_ne _ _ hi, entsWith_self, h.entries i ha.2.1, hslot]
    exact he

end

end Use

/-! ## Linking a fresh block -/

section Link

variable (hl : DiskLayout sb) {ino b : Nat} {s s₁ : Store} {e e' : InodeEntry}

include hl

/-- A block that `cache_alloc` has just returned is linked into the empty slot `sl`. -/
theorem Grown.link (hg : Good sb (entsWith sb s.blocks ino e) s.blocks)
    (hself : Allocated sb (entsWith sb s.blocks ino e) ino) (ht : Taken sb s b s₁) {a : Slot}
    (hempty : slotRef e s.blocks a = 0) {B' : Nat → Data} (hfields : SameFields e e')
    (hslot : ∀ sl', slotRef e' B' sl' = if sl' = a then b else slotRef e s.blocks sl')
    (hind : e'.indirect = e.indirect ∨ e'.indirect.toNat = b)
    (hbits : ∀ x < sb.numBlocks.toNat, bitAt sb B' x = bitAt sb s₁.blocks x)
    (hentries : ∀ i < sb.numInodes.toNat, entryAt sb B' i = entryAt sb s₁.blocks i)
    (hcontent : ∀ x, DataBlock sb x → x ≠ b → x ≠ e'.indirect.toNat → B' x = s₁.blocks x) :
    Grown sb ino s.blocks e B' e' := by
  have hentries' : ∀ i < sb.numInodes.toNat, entryAt sb B' i = entryAt sb s.blocks i := fun i hi =>
    (hentries i hi).trans (ht.entries i hi)
  have htype : e'.type = e.type := by rw [hfields]
  have halloc := allocated_entsWith (n := ino) hentries' htype
  have hkept : ∀ x, DataBlock sb x → bitAt sb s.blocks x = true → x ≠ e'.indirect.toNat → B' x = s.blocks x :=
    fun x hx hm hne => (hcontent x hx (ht.ne_of_marked hm) hne).trans (ht.other x hx.1 (ht.ne_of_marked hm))
  refine ⟨?_, hentries', hfields, fun sl' hsl' => ?_, fun x hx hm => ?_, hkept⟩
  · refine Ledger.take hl hg ht.data ht.fresh (i := (ino, a)) ?_ ?_ fun x hx => (hbits x hx).trans (ht.bits x hx)
    · rw [refOf_of_allocated hself, entsWith_self]
      exact hempty
    · refine refOf_change hself halloc (fun sl' => ?_) fun i hi ha sl' => ?_
      · rw [entsWith_self, entsWith_self]
        exact hslot sl'
      · rw [entsWith_of_ne _ _ hi, entsWith_of_ne _ _ hi, hentries' i ha.2.1]
        refine slotRef_congr (fun hz => ?_) sl'
        have hent := entsWith_of_ne sb s.blocks hi e
        obtain ⟨hdata, hmark⟩ := hg.indirect ha (hent ▸ hz)
        rw [hent] at hdata hmark
        -- the indirect block of `i` is neither that of `ino` nor the fresh block
        refine hkept _ hdata hmark fun he => ?_
        rcases hind with hsame | hnew
        · refine hi (hg.inj ha hself (a := .indirect) (b := .indirect) ?_ ?_).1
          · rw [hent]
            exact toNat_ne_zero.mpr hz
          · rw [hent, entsWith_self]
            exact he.trans (congrArg UInt32.toNat hsame)
        · exact ht.ne_of_marked hmark (he.trans hnew)
  · rw [hslot sl', if_neg]
    rintro rfl
    exact hsl' hempty
  · rw [hbits x hx, ht.bits x hx, update_of_ne (ht.ne_of_marked hm)]
    exact hm

theorem toNat_taken (ht : Taken sb s b s₁) : (UInt32.ofNat b).toNat = b :=
  UInt32.toNat_ofNat_of_lt' (Nat.lt_trans ht.data.2 (allocLimit_lt hl))

section

variable (hg : Good sb (entsWith sb s.blocks ino e) s.blocks) (hself : Allocated sb (entsWith sb s.blocks ino e) ino)
  (ht : Taken sb s b s₁)
include hg hself ht

theorem Grown.direct {i : Fin inodeNumDirect}
    (hempty : e.addrs i = 0) : Grown sb ino s.blocks e s₁.blocks (e.setAddr i (UInt32.ofNat b)) := by
  refine Grown.link hl hg hself ht (a := .direct i) ?_ rfl (fun sl' => ?_) (Or.inl rfl) (fun _ _ => rfl)
    (fun _ _ => rfl) fun _ _ _ _ => rfl
  · show (e.addrs i).toNat = 0
    rw [hempty]
    rfl
  · rw [slotRef_setAddr, toNat_taken hl ht]
    congr 1
    refine slotRef_congr (fun hz => ?_) sl'
    have hind := hg.indirect hself (by rw [entsWith_self]; exact hz)
    rw [entsWith_self] at hind
    exact ht.other _ hind.1.1 (ht.ne_of_marked hind.2)

theorem Grown.indirect
    (hempty : e.indirect = 0) : Grown sb ino s.blocks e s₁.blocks { e with indirect := UInt32.ofNat b } := by
  have hb := toNat_taken hl ht
  refine Grown.link hl hg hself ht (a := .indirect) ?_ rfl (fun sl' => ?_) (Or.inr hb) (fun _ _ => rfl)
    (fun _ _ => rfl) fun _ _ _ _ => rfl
  · show e.indirect.toNat = 0
    rw [hempty]
    rfl
  · rw [slotRef_setIndirect hempty s₁.blocks (by rw [hb]; exact ht.zero), hb]
    congr 1
    exact slotRef_congr (fun hz => absurd hempty hz) sl'

theorem Grown.entry (hz : e.indirect ≠ 0)
    {j : Fin inodeNumIndirect} (hempty : addrAt (s.blocks e.indirect.toNat) j = 0) :
    Grown sb ino s.blocks e (update s₁.blocks e.indirect.toNat
      (setAddrAt (s.blocks e.indirect.toNat) j (UInt32.ofNat b))) e := by
  obtain ⟨⟨hlo, _⟩, hmark⟩ := hg.indirect hself (by rw [entsWith_self]; exact hz)
  rw [entsWith_self] at hlo hmark
  have hind : s₁.blocks e.indirect.toNat = s.blocks e.indirect.toNat :=
    ht.other _ hlo (ht.ne_of_marked hmark)
  have hareas := areas_lt hl
  refine Grown.link hl hg hself ht (a := .entry j) ?_ rfl (fun sl' => ?_) (Or.inl rfl) (fun x hx => ?_)
    (fun i hi => ?_) fun x _ _ hx => update_of_ne hx ..
  · rw [slotRef_entry_of_ne hz, hempty]
    rfl
  · rw [← hind, slotRef_setAddrAt hz, toNat_taken hl ht]
    congr 1
    exact slotRef_congr (fun _ => hind) sl'
  · exact bitAt_update_data hl _ hlo _ hx
  · exact entryAt_update hl _ (by omega) _ hi

end

end Link

/-! ## Writing -/

/-- Bytes `off .. off + n - 1` of the file have been replaced. -/
structure Written (sb : SuperBlock) (ino : Nat) (B : Nat → Data) (e : InodeEntry) (off n : Nat)
    (src : Nat → UInt8) (B' : Nat → Data) (e' : InodeEntry) : Prop where
  good : Good sb (entsWith sb B' ino e') B'
  entries : ∀ i < sb.numInodes.toNat, entryAt sb B' i = entryAt sb B i
  fields : SameFields e e'
  bytes : ∀ i < inodeMaxBytes, blockOf e B i ≠ 0 ∨ (off ≤ i ∧ i < off + n) →
    blockOf e' B' i ≠ 0 ∧ byteAt e' B' i = if off ≤ i ∧ i < off + n then src (i - off) else byteAt e B i
  slots : ∀ i, i ≠ ino → Allocated sb (entsWith sb B ino e) i → ∀ sl,
    slotRef (entryAt sb B i) B' sl = slotRef (entryAt sb B i) B sl
  content : ∀ i, i ≠ ino → Allocated sb (entsWith sb B ino e) i → ∀ sl, sl ≠ .indirect →
    slotRef (entryAt sb B i) B sl ≠ 0 → B' (slotRef (entryAt sb B i) B sl) = B (slotRef (entryAt sb B i) B sl)

theorem Written.refl {ino : Nat} {B : Nat → Data} {e : InodeEntry} (h : Good sb (entsWith sb B ino e) B)
    (off : Nat) (src : Nat → UInt8) : Written sb ino B e off 0 src B e := by
  refine ⟨h, fun _ _ => rfl, rfl, fun i _ hi => ?_, fun _ _ _ _ => rfl, fun _ _ _ _ _ _ => rfl⟩
  have hno : ¬ (off ≤ i ∧ i < off + 0) := by omega
  rw [if_neg hno]
  exact ⟨hi.resolve_right hno, rfl⟩

theorem Written.trans {ino off n n' : Nat} {B B' B'' : Nat → Data} {e e' e'' : InodeEntry} {src : Nat → UInt8}
    (h : Written sb ino B e off n src B' e') (h' : Written sb ino B' e' (off + n) n' (fun j => src (n + j)) B'' e'') :
    Written sb ino B e off (n + n') src B'' e'' := by
  have halloc : ∀ i, Allocated sb (entsWith sb B' ino e') i ↔ Allocated sb (entsWith sb B ino e) i :=
    allocated_entsWith h.entries (by rw [h.fields])
  refine ⟨h'.good, fun i hi => (h'.entries i hi).trans (h.entries i hi), h.fields.trans h'.fields,
    fun i hi hor => ?_, fun i hi ha sl => ?_, fun i hi ha sl hsl hne => ?_⟩
  · by_cases hlate : off + n ≤ i ∧ i < off + n + n'
    · have := h'.bytes i hi (Or.inr hlate)
      rw [if_pos hlate, show n + (i - (off + n)) = i - off from by omega] at this
      rwa [if_pos (by omega)]
    · have hfirst := h.bytes i hi (hor.imp id fun hr => by omega)
      have hsecond := h'.bytes i hi (Or.inl hfirst.1)
      rw [if_neg hlate, hfirst.2] at hsecond
      refine ⟨hsecond.1, hsecond.2.trans ?_⟩
      by_cases hearly : off ≤ i ∧ i < off + n
      · rw [if_pos hearly, if_pos (by omega)]
      · rw [if_neg hearly, if_neg (by omega)]
  · have := h'.slots i hi ((halloc i).mpr ha) sl
    rw [h.entries i ha.2.1] at this
    exact this.trans (h.slots i hi ha sl)
  · have hslot := h.slots i hi ha sl
    have := h'.content i hi ((halloc i).mpr ha) sl hsl
    rw [h.entries i ha.2.1, hslot] at this
    exact (this hne).trans (h.content i hi ha sl hsl hne)

theorem div_eq_of_chunk {off n i : Nat} (hn : off % blockSize + n ≤ blockSize) (h : off ≤ i ∧ i < off + n) :
    i / blockSize = off / blockSize := by
  simp only [blockSize] at hn ⊢
  omega

/-- Within one block: map it, then fill a part of it. -/
theorem Written.chunk (hl : DiskLayout sb) {ino off n : Nat} {B B₁ : Nat → Data} {e e₁ : InodeEntry}
    {f : Nat → UInt8} (hg : Good sb (entsWith sb B ino e) B)
    (hself : Allocated sb (entsWith sb B ino e) ino) (h : Grown sb ino B e B₁ e₁)
    (hmap : blockOf e₁ B₁ off ≠ 0) (hn : off % blockSize + n ≤ blockSize) (hmax : off < inodeMaxBytes) :
    Written sb ino B e off n f (update B₁ (blockOf e₁ B₁ off)
      ((B₁ (blockOf e₁ B₁ off)).blit (off % blockSize) n f)) e₁ := by
  have hself1 := (h.allocated ino).mpr hself
  have hent1 := entsWith_self sb B₁ ino e₁
  have hdata : DataBlock sb (blockOf e₁ B₁ off) := by
    have := h.good.dataBlock hself1 (a := dataSlot (off / blockSize)) (by rw [hent1]; exact hmap)
    rwa [hent1] at this
  have hareas := areas_lt hl
  generalize hb : blockOf e₁ B₁ off = b at hmap hdata ⊢
  generalize hd : (B₁ b).blit (off % blockSize) n f = d
  have hentries : ∀ i < sb.numInodes.toNat, entryAt sb (update B₁ b d) i = entryAt sb B₁ i :=
    fun i hi => entryAt_update hl _ (by have := hdata.1; omega) _ hi
  -- a block with bytes in it is nobody's indirect block, and in no other slot
  have hslots : ∀ i, Allocated sb (entsWith sb B₁ ino e₁) i → ∀ sl,
      slotRef (entsWith sb B₁ ino e₁ i) (update B₁ b d) sl = slotRef (entsWith sb B₁ ino e₁ i) B₁ sl := by
    intro i ha sl
    refine slotRef_congr (fun hz => update_of_ne (fun he => ?_) ..) sl
    have := h.good.inj ha hself1 (a := .indirect) (b := dataSlot (off / blockSize)) (toNat_ne_zero.mpr hz)
      (by rw [hent1]; exact he.trans hb.symm)
    exact dataSlot_ne_indirect _ this.2.symm
  have hown : ∀ sl, slotRef e₁ (update B₁ b d) sl = slotRef e₁ B₁ sl := by
    intro sl
    have := hslots ino hself1 sl
    rwa [hent1] at this
  have hkept : ∀ i, blockOf e B i ≠ 0 → B₁ (blockOf e B i) = B (blockOf e B i) := fun i hold =>
    h.own_content hg hself (dataSlot_ne_indirect _) hold
  refine ⟨?_, fun i hi => (hentries i hi).trans (h.entries i hi), h.fields, fun i hi hor => ?_,
    fun i hi ha sl => ?_, fun i hi ha sl hsl hne => ?_⟩
  · refine Ledger.congr hl h.good (refOf_congr (allocated_entsWith hentries rfl) fun i ha sl => ?_)
      fun x hx => bitAt_update_data hl _ hdata.1 _ hx
    rw [← hslots i ha sl]
    congr 1
    by_cases hi : i = ino
    · subst hi
      rw [entsWith_self, entsWith_self]
    · rw [entsWith_of_ne _ _ hi, entsWith_of_ne _ _ hi, hentries i ha.2.1]
  · have hk : i / blockSize < inodeMaxBlocks := Nat.div_lt_of_lt_mul (by rw [Nat.mul_comm]; exact hi)
    have hk' : off / blockSize < inodeMaxBlocks := Nat.div_lt_of_lt_mul (by rw [Nat.mul_comm]; exact hmax)
    have hlt : i % blockSize < blockSize := Nat.mod_lt _ (by decide)
    show slotRef e₁ _ _ ≠ 0 ∧ ((update B₁ b d) (slotRef e₁ _ _)).get _ = _
    rw [hown]
    have hdiv := Nat.div_add_mod i blockSize
    have hdivo := Nat.div_add_mod off blockSize
    by_cases hsame : i / blockSize = off / blockSize
    · have hbi : slotRef e₁ B₁ (dataSlot (i / blockSize)) = b := by rw [hsame]; exact hb
      rw [hbi, update_self, ← hd, Bytes.get_blit _ _ _ _ hlt]
      rw [hsame] at hdiv
      refine ⟨hmap, ?_⟩
      by_cases hin : off ≤ i ∧ i < off + n
      · rw [if_pos (by omega), if_pos hin]
        congr 1
        omega
      · rw [if_neg (by omega), if_neg hin]
        -- the rest of the block is what was there if the block is not new
        have hold : blockOf e B i ≠ 0 := hor.resolve_right hin
        have href : b = blockOf e B i := hbi.symm.trans (h.refs _ hold)
        show _ = (B (blockOf e B i)).get _
        rw [href, hkept i hold]
    · have hin : ¬ (off ≤ i ∧ i < off + n) := fun hr => hsame (div_eq_of_chunk hn hr)
      have hold : blockOf e B i ≠ 0 := hor.resolve_right hin
      have href : slotRef e₁ B₁ (dataSlot (i / blockSize)) = blockOf e B i := h.refs _ hold
      have hne : blockOf e B i ≠ b := by
        intro he
        apply hsame
        refine dataSlot_inj hk hk' (h.good.inj hself1 hself1 (a := dataSlot (i / blockSize))
          (b := dataSlot (off / blockSize)) ?_ ?_).2
        · rw [hent1, href]; exact hold
        · rw [hent1, href, he]; exact hb.symm
      rw [href, update_of_ne hne, if_neg hin, hkept i hold]
      exact ⟨hold, rfl⟩
  · have := hslots i ((h.allocated i).mpr ha) sl
    rw [entsWith_of_ne _ _ hi, h.entries i ha.2.1] at this
    exact this.trans (h.other_slots hg hself hi ha sl)
  · have hslot := h.other_slots hg hself hi ha sl
    rw [update_of_ne, h.other_content hg hself hi ha hne]
    intro he
    refine hi (h.good.inj ((h.allocated i).mpr ha) hself1 (a := sl) (b := dataSlot (off / blockSize)) ?_ ?_).1
    · rw [entsWith_of_ne _ _ hi, h.entries i ha.2.1, hslot]; exact hne
    · rw [entsWith_of_ne _ _ hi, h.entries i ha.2.1, hslot, hent1, he]; exact hb.symm

end Armv8Os.Fs
