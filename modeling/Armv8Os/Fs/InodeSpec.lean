/-
  What the functions of the inode layer do on the array, one rule for each.

  The rules of the first half are about ONE inode, at `p`, whose entry in memory may be ahead of the one on
  the disk: `Good` is asked for, and promised, with the entry in memory (`entsWith`).  They leave every other
  inode in memory alone, so the memory afterwards is `m.write p ..`.

  A function fails only as `Tolerates` allows; the rules never mention any other failure, and in particular
  not the one of `cache_free`.
-/
import Armv8Os.Fs.Inode
import Armv8Os.Fs.FileMap

namespace Armv8Os.Fs

open Prog Sem Cache List UInt64 Mem
open Function (update update_eq_self update_idem update_of_ne update_self)

/-! ## Memory -/

namespace Mem

variable {m : Mem} {p : Nat} {ip : Inode} {E : Stop → Prop}

theorem heap_write_self (m : Mem) (p : Nat) (ip : Inode) : (m.write p ip).heap p = some ip :=
  update_self ..

theorem heap_write_of_ne (m : Mem) {p q : Nat} (h : q ≠ p) (ip : Inode) : (m.write p ip).heap q = m.heap q :=
  update_of_ne h ..

theorem write_write (m : Mem) (p : Nat) (ip ip' : Inode) : (m.write p ip).write p ip' = m.write p ip' := by
  unfold write
  rw [update_idem]

theorem write_eq_self (h : m.heap p = some ip) : m.write p ip = m := by
  unfold write
  rw [← h, update_eq_self]

theorem wp_deref {Q : Inode → Mem → Prop} (h : m.heap p = some ip) (hQ : Q ip m) : wp (deref p) Q E m := by
  unfold wp deref
  rw [h]
  exact hQ

theorem wp_assign {Q : Unit → Mem → Prop} {f : Inode → Inode} (h : m.heap p = some ip)
    (hQ : Q () (m.write p (f ip))) : wp (assign p f) Q E m := by
  unfold wp assign
  rw [h]
  exact hQ

end Mem

section Rules

variable {sb : SuperBlock} (hl : DiskLayout sb) {E : Stop → Prop} {s : Store} {m : Mem} {ctx : Option Nat}
  {p : Nat} {ip : Inode} {Q : Unit → Store × Mem → Prop}

theorem wp_assignEntry {f : InodeEntry → InodeEntry} (hp : m.heap p = some ip)
    (hQ : Q () (s, m.write p { ip with entry := f ip.entry })) : wp (assignEntry p f) Q E (s, m) := by
  unfold assignEntry
  rw [wp_onSnd]
  exact wp_assign hp hQ

/-! ## `inode_map` -/

/-- What `inode_map` leaves; with the block there already, nothing changes. -/
structure Mapped (sb : SuperBlock) (ino : Nat) (s : Store) (e : InodeEntry) (sl : Slot) (r : Nat × Bool)
    (s' : Store) (e' : InodeEntry) : Prop where
  grown : Grown sb ino s.blocks e s'.blocks e'
  held : s'.held = s.held
  ops : SameOps s s'
  ref : slotRef e' s'.blocks sl = r.1
  ne : r.1 ≠ 0
  same : slotRef e s.blocks sl ≠ 0 → r.2 = false ∧ e' = e ∧ s'.blocks = s.blocks

/-- The indirect block is the one held. -/
theorem wp_returnEntry {Q : Nat × Bool → Store → Prop} {b k : Nat} {d : Data} {modified : Bool}
    (hheld : s.held = [b]) (hE : Tolerates E ctx s)
    (hQ : ∀ s', s'.blocks = update s.blocks b d → s'.held = [] → SameOps s s' →
      Q ((addrAt d k).toNat, modified) s') :
    wp (returnEntry (store sb) ctx b k d modified) Q E s := by
  unfold returnEntry
  rw [wp_bind]
  refine wp_sync (by rw [hheld]; exact mem_singleton_self b) hE fun s₁ h1 => ?_
  rw [wp_bind]
  refine wp_release (h1.held.trans hheld) ?_
  exact hQ _ h1.blocks rfl h1.ops

include hl

variable {ino : Nat} {e : InodeEntry}

theorem wp_mapEntry {Q : Nat × Bool → Store → Prop}
    (hg : Good sb (entsWith sb s.blocks ino e) s.blocks) (hself : Allocated sb (entsWith sb s.blocks ino e) ino)
    (hheld : s.held = []) (hz : e.indirect ≠ 0) (j : Fin inodeNumIndirect) (hE : Tolerates E ctx s)
    (hQ : ∀ r s', Mapped sb ino s e (.entry j) r s' e → Q r s') :
    wp (mapEntry (store sb) sb ctx e.indirect.toNat j) Q E s := by
  obtain ⟨hdata, hmark⟩ := hg.indirect hself (by rw [entsWith_self]; exact hz)
  rw [entsWith_self] at hdata hmark
  have href := slotRef_entry_of_ne hz s.blocks j
  unfold mapEntry
  rw [wp_bind]
  refine wp_acquire (not_inLog_data hl hdata.1) (by rw [hheld]; exact not_mem_nil) ?_
  rw [hheld]
  split
  · rename_i hempty
    rw [wp_bind]
    refine wp_cacheAlloc hl hg.reserved (fun x hx => ?_) (hE.of_sameOps (SameOps.refl s)) fun a s₁ ht => ?_
    · -- only the indirect block is held
      rw [mem_singleton.mp hx]
      exact ⟨hdata.1, hmark⟩
    refine wp_returnEntry ht.held (hE.of_sameOps ht.ops) fun s₂ hblocks hfree hops => ?_
    have ha := toNat_taken hl ht
    have ht' : Taken sb s a { s₁ with held := [] } :=
      ⟨ht.data, ht.fresh, ht.bits, ht.zero, ht.other, ht.entries, hheld.symm, ht.ops⟩
    have hgrown := Grown.entry hl hg hself ht' hz hempty
    rw [addrAt_setAddrAt _ j.isLt, ha]
    refine hQ _ _ ⟨hblocks ▸ hgrown, hfree.trans hheld.symm, ht.ops.trans hops, ?_, ?_, fun hne => ?_⟩
    · rw [slotRef_entry_of_ne hz, hblocks, update_self, addrAt_setAddrAt _ j.isLt, ha]
    · have := areas_lt hl
      have := ht.data.1
      show a ≠ 0
      omega
    · rw [href, hempty] at hne
      exact absurd rfl hne
  · rename_i hthere
    refine wp_returnEntry rfl (hE.of_sameOps (SameOps.refl s)) fun s₂ hblocks hfree hops => ?_
    rw [update_eq_self] at hblocks
    refine hQ _ _ ⟨?_, hfree.trans hheld.symm, hops, ?_, toNat_ne_zero.mpr hthere, fun _ => ⟨rfl, rfl, hblocks⟩⟩
    · rw [hblocks]
      exact Grown.refl hg
    · rw [hblocks]
      exact href

theorem wp_inodeMap {Q : Nat × Bool → Store × Mem → Prop} (hp : m.heap p = some ip)
    (hg : Good sb (entsWith sb s.blocks ip.inodeNo ip.entry) s.blocks)
    (hself : Allocated sb (entsWith sb s.blocks ip.inodeNo ip.entry) ip.inodeNo) (hheld : s.held = [])
    {offset : Nat} (hoff : offset < inodeMaxBytes) (hE : Tolerates E ctx s)
    (hQ : ∀ r s' e', Mapped sb ip.inodeNo s ip.entry (dataSlot (offset / blockSize)) r s' e' →
      Q r (s', m.write p { ip with entry := e' })) :
    wp (inodeMap (store sb) sb ctx p offset) Q E (s, m) := by
  have hself_write : m.write p { ip with entry := ip.entry } = m := write_eq_self hp
  have hareas := areas_lt hl
  unfold inodeMap
  rw [wp_bind, wp_onSnd]
  refine wp_deref hp ?_
  by_cases hk : offset / blockSize < inodeNumDirect
  · have hslot := dataSlot_direct hk
    rw [dif_pos hk]
    rw [hslot] at hQ
    split
    · rename_i hempty
      rw [wp_bind, wp_onFst]
      refine wp_cacheAlloc hl hg.reserved (by rw [hheld]; intro x hx; cases hx) hE fun b s₁ ht => ?_
      rw [wp_bind]
      refine wp_assignEntry hp ?_
      rw [wp_pure, toNat_taken hl ht]
      refine hQ _ _ _ ⟨Grown.direct hl hg hself ht hempty, ht.held, ht.ops, ?_, ?_, fun hne => ?_⟩
      · rw [slotRef_setAddr, if_pos rfl, toNat_taken hl ht]
      · have := ht.data.1
        show b ≠ 0
        omega
      · exact absurd (toNat_ne_zero.mp hne) (by simpa using hempty)
    · rename_i hthere
      have := hQ ((ip.entry.addrs ⟨offset / blockSize, hk⟩).toNat, false) s ip.entry
        ⟨Grown.refl hg, rfl, SameOps.refl s, rfl, toNat_ne_zero.mpr hthere, fun _ => ⟨rfl, rfl, rfl⟩⟩
      rwa [hself_write] at this
  · have hkk : offset / blockSize - inodeNumDirect < inodeNumIndirect := by
      have : offset / blockSize < inodeMaxBlocks := Nat.div_lt_of_lt_mul (by rw [Nat.mul_comm]; exact hoff)
      simp only [inodeMaxBlocks, inodeNumDirect, inodeNumIndirect] at *
      omega
    rw [dif_neg hk, wp_bind, wp_assert]
    refine ⟨fun _ => ?_, fun hf => absurd hkk (by simpa using hf)⟩
    rw [dataSlot_entry hk hkk] at hQ
    unfold inodeMapIndirect
    rw [wp_bind, wp_onSnd]
    refine wp_deref hp ?_
    split
    · rename_i hempty
      -- first the indirect block, which then is one with an empty slot
      rw [wp_bind, wp_onFst]
      refine wp_cacheAlloc hl hg.reserved (by rw [hheld]; intro x hx; cases hx) hE fun b s₁ ht => ?_
      have hb := toNat_taken hl ht
      have hgrown := Grown.indirect hl hg hself ht hempty
      have hne : b ≠ 0 := by
        have := ht.data.1
        omega
      rw [wp_bind]
      refine wp_assignEntry hp ?_
      rw [wp_onFst]
      have hmap := wp_mapEntry hl (E := E) (Q := fun r s' => Q r (s', m.write p
          { ip with entry := { ip.entry with indirect := UInt32.ofNat b } })) hgrown.good
        ((hgrown.allocated _).mpr hself) (ht.held.trans hheld)
        (toNat_ne_zero.mp (by show (UInt32.ofNat b).toNat ≠ 0; rw [hb]; exact hne))
        ⟨offset / blockSize - inodeNumDirect, hkk⟩ (hE.of_sameOps ht.ops) fun r s₂ h2 => ?_
      · rw [show ({ ip.entry with indirect := UInt32.ofNat b } : InodeEntry).indirect.toNat = b from hb] at hmap
        exact hmap
      · refine hQ _ _ _ ⟨hgrown.trans hl h2.grown, h2.held.trans ht.held, ht.ops.trans h2.ops, h2.ref, h2.ne, ?_⟩
        intro hold
        exact absurd (slotRef_entry_of_zero hempty ..) hold
    · rename_i hthere
      rw [wp_onFst]
      refine wp_mapEntry hl hg hself hheld hthere ⟨offset / blockSize - inodeNumDirect, hkk⟩ hE fun r s₂ h2 => ?_
      have := hQ _ _ _ h2
      rwa [hself_write] at this

/-! ## `inode_sync` -/

omit hl in
/-- The entry on the disk is now the one in memory. -/
theorem entryAt_synced (B : Nat → Data) (ino : Nat) (e : InodeEntry) :
    entryAt sb (update B (inodeBlock sb ino) (writeEntry (B (inodeBlock sb ino)) (ino % inodePerBlock) e))
      = entsWith sb B ino e := by
  funext i
  rw [entryAt_writeEntry]
  by_cases hi : i = ino
  · subst hi
    rw [if_pos rfl, entsWith_self]
  · rw [if_neg hi, entsWith_of_ne _ _ hi]

variable {B : Nat → Data}

/-- Behind the inodes nothing has changed. -/
theorem synced_data (hi : ino < sb.numInodes.toNat) (d : Data) {x : Nat}
    (hx : dataStart sb ≤ x) : update B (inodeBlock sb ino) d x = B x := by
  have := inodeBlock_lt hl hi
  have := areas_lt hl
  exact update_of_ne (by omega) ..

/-- An allocated inode's entry may be written to the disk. -/
theorem Good.synced (hg : Good sb (entsWith sb B ino e) B)
    (hi : ino < sb.numInodes.toNat) {B' : Nat → Data} (hB : B' = update B (inodeBlock sb ino)
      (writeEntry (B (inodeBlock sb ino)) (ino % inodePerBlock) e)) : Good sb (entryAt sb B') B' := by
  subst hB
  rw [entryAt_synced]
  refine Ledger.congr hl hg (refOf_congr (fun _ => Iff.rfl) fun i ha sl => ?_)
    fun x _ => bitAt_update_inode hl _ hi _ x
  exact slotRef_congr (fun hz => synced_data hl hi _ (hg.indirect ha hz).1.1) sl

theorem wp_inodeSync (hp : m.heap p = some ip) (hvalid : ip.valid = true)
    (hheld : s.held = []) (hE : Tolerates E ctx s) (hQ : ∀ s', s'.blocks = update s.blocks (inodeBlock sb ip.inodeNo)
        (writeEntry (s.blocks (inodeBlock sb ip.inodeNo)) (ip.inodeNo % inodePerBlock) ip.entry) →
      s'.held = [] → SameOps s s' → Q () (s', m)) :
    wp (inodeSync (store sb) sb ctx p true) Q E (s, m) := by
  unfold inodeSync
  rw [wp_bind, wp_onSnd]
  refine wp_deref hp ?_
  rw [wp_bind, wp_onFst]
  refine wp_acquire (not_inLog_inode hl _) (by rw [hheld]; exact not_mem_nil) ?_
  rw [if_pos (by rw [hvalid]; rfl), wp_bind, wp_onFst]
  refine wp_sync (mem_cons_self ..) (hE.of_sameOps (SameOps.refl s)) fun s₁ h1 => ?_
  rw [wp_onFst]
  refine wp_release h1.held ?_
  exact hQ _ h1.blocks hheld h1.ops

/-! ## `inode_write` -/

omit hl in
theorem chunk_le (offset count : Nat) : offset % blockSize + chunk offset count ≤ blockSize := by
  have : offset % blockSize < blockSize := Nat.mod_lt _ (by decide)
  unfold chunk
  omega

omit hl in
theorem chunk_pos (offset : Nat) {count : Nat} (h : 0 < count) : 0 < chunk offset count := by
  have : offset % blockSize < blockSize := Nat.mod_lt _ (by decide)
  unfold chunk
  omega

omit hl in
theorem chunk_le_count (offset count : Nat) : chunk offset count ≤ count := Nat.min_le_right ..

variable {src : Nat → UInt8}

theorem wp_writeLoop {fuel offset count : Nat}
    (hp : m.heap p = some ip) (hg : Good sb (entsWith sb s.blocks ip.inodeNo ip.entry) s.blocks)
    (hself : Allocated sb (entsWith sb s.blocks ip.inodeNo ip.entry) ip.inodeNo) (hheld : s.held = [])
    (hmax : offset + count ≤ inodeMaxBytes) (hfuel : count ≤ fuel) (hE : Tolerates E ctx s)
    (hQ : ∀ s' e', Written sb ip.inodeNo s.blocks ip.entry offset count src s'.blocks e' → s'.held = [] →
      SameOps s s' → Q () (s', m.write p { ip with entry := e' })) :
    wp (writeLoop (store sb) sb ctx p fuel offset count src) Q E (s, m) := by
  -- one round is a chunk; what is left to write is again such a loop
  induction fuel generalizing s m ip offset count src with
  | zero =>
    obtain rfl : count = 0 := by omega
    have := hQ s ip.entry (Written.refl hg offset src) hheld (SameOps.refl s)
    rwa [write_eq_self hp] at this
  | succ fuel ih =>
    unfold writeLoop
    by_cases hpos : 0 < count
    · have hinc := chunk_pos offset hpos
      have hle := chunk_le_count offset count
      rw [if_pos hpos, wp_bind]
      refine wp_inodeMap hl hp hg hself hheld (by omega) hE fun r s₁ e₁ hmap => ?_
      have hself1 := (hmap.grown.allocated _).mpr hself
      have hne : blockOf e₁ s₁.blocks offset ≠ 0 := fun h0 => hmap.ne (hmap.ref.symm.trans h0)
      have hdata : DataBlock sb r.1 := by
        have := hmap.grown.good.dataBlock hself1 (a := dataSlot (offset / blockSize))
          (by rw [entsWith_self]; exact hne)
        rw [entsWith_self, hmap.ref] at this
        exact this
      have hchunk := Written.chunk hl (f := src) hg hself hmap.grown hne (chunk_le offset count) (by omega)
      rw [show blockOf e₁ s₁.blocks offset = r.1 from hmap.ref] at hchunk
      rw [wp_bind, wp_onFst]
      refine wp_acquire (not_inLog_data hl hdata.1) (by rw [hmap.held, hheld]; exact not_mem_nil) ?_
      rw [wp_bind, wp_onFst]
      refine wp_sync (mem_cons_self ..) (hE.of_sameOps hmap.ops) fun s₂ h2 => ?_
      rw [wp_bind, wp_onFst]
      refine wp_release h2.held ?_
      have hblocks : s₂.blocks = _ := h2.blocks
      rw [← hblocks] at hchunk
      have hops : SameOps s s₂ := hmap.ops.trans h2.ops
      refine ih (show _ = some { ip with entry := e₁ } from heap_write_self ..) hchunk.good ?_
        (hmap.held.trans hheld) (by omega) (by omega) (hE.of_sameOps hops) fun s' e' hw hfree hops' => ?_
      · exact (allocated_entsWith hchunk.entries (by rw [hchunk.fields]) _).mpr hself
      · rw [write_write]
        refine hQ s' e' ?_ hfree (hops.trans hops')
        have := hchunk.trans hw
        rwa [show chunk offset count + (count - chunk offset count) = count from by omega] at this
    · obtain rfl : count = 0 := by omega
      have := hQ s ip.entry (Written.refl hg offset src) hheld (SameOps.refl s)
      rwa [write_eq_self hp] at this

/-- What `inode_write` leaves: the entry on the disk is the one in memory, the bytes are written, and no other
    file is touched. -/
structure FileWritten (sb : SuperBlock) (ino : Nat) (B : Nat → Data) (e : InodeEntry) (off n : Nat)
    (src : Nat → UInt8) (B' : Nat → Data) (e' : InodeEntry) : Prop where
  good : Good sb (entryAt sb B') B'
  entry : entryAt sb B' ino = e'
  entries : ∀ i < sb.numInodes.toNat, i ≠ ino → entryAt sb B' i = entryAt sb B i
  type : e'.type = e.type
  numLinks : e'.numLinks = e.numLinks
  size : e'.numBytes.toNat = max e.numBytes.toNat (off + n)
  bytes : ∀ i < inodeMaxBytes, blockOf e B i ≠ 0 ∨ (off ≤ i ∧ i < off + n) →
    blockOf e' B' i ≠ 0 ∧ byteAt e' B' i = if off ≤ i ∧ i < off + n then src (i - off) else byteAt e B i
  slots : ∀ i, i ≠ ino → Allocated sb (entsWith sb B ino e) i → ∀ sl,
    slotRef (entryAt sb B i) B' sl = slotRef (entryAt sb B i) B sl
  content : ∀ i, i ≠ ino → Allocated sb (entsWith sb B ino e) i → ∀ sl, sl ≠ .indirect →
    slotRef (entryAt sb B i) B sl ≠ 0 → B' (slotRef (entryAt sb B i) B sl) = B (slotRef (entryAt sb B i) B sl)

omit hl in
/-- Other fields of the entry do not matter. -/
theorem slotRef_fields {e' : InodeEntry} (haddrs : e'.addrs = e.addrs) (hind : e'.indirect = e.indirect)
    (B : Nat → Data) (sl : Slot) : slotRef e' B sl = slotRef e B sl := by
  unfold slotRef
  rw [haddrs, hind]

theorem Good.fields {f : InodeEntry} (hg : Good sb (entsWith sb B ino e) B)
    (htype : f.type = e.type) (haddrs : f.addrs = e.addrs) (hind : f.indirect = e.indirect) :
    Good sb (entsWith sb B ino f) B := by
  refine Ledger.congr hl hg (refOf_congr (allocated_entsWith (fun _ _ => rfl) htype) fun i _ sl => ?_)
    fun _ _ => rfl
  by_cases hi : i = ino
  · subst hi
    rw [entsWith_self, entsWith_self, slotRef_fields haddrs hind]
  · rw [entsWith_of_ne _ _ hi, entsWith_of_ne _ _ hi]

/-- The loop, then the size, then the entry. -/
theorem FileWritten.of_written {off n : Nat} {B₁ B₂ : Nat → Data} {e₁ : InodeEntry}
    {nb : UInt32} (hself : Allocated sb (entsWith sb B ino e) ino) (h : Written sb ino B e off n src B₁ e₁)
    (hnb : nb.toNat = max e.numBytes.toNat (off + n)) (hB : B₂ = update B₁ (inodeBlock sb ino)
      (writeEntry (B₁ (inodeBlock sb ino)) (ino % inodePerBlock) { e₁ with numBytes := nb })) :
    FileWritten sb ino B e off n src B₂ { e₁ with numBytes := nb } := by
  have hino := hself.2.1
  have hents : entryAt sb B₂ = entsWith sb B₁ ino { e₁ with numBytes := nb } := by
    rw [hB]
    exact entryAt_synced ..
  have hdata : ∀ x, dataStart sb ≤ x → B₂ x = B₁ x := fun x hx => by
    rw [hB]
    exact synced_data hl hino _ hx
  have halloc : ∀ i, Allocated sb (entsWith sb B₁ ino e₁) i ↔ Allocated sb (entsWith sb B ino e) i :=
    allocated_entsWith h.entries (by rw [h.fields])
  have hself1 := (halloc ino).mpr hself
  have hown : ∀ sl, slotRef { e₁ with numBytes := nb } B₂ sl = slotRef e₁ B₁ sl := by
    intro sl
    refine slotRef_congr (fun hz => hdata _ ?_) sl
    have := (h.good.indirect hself1 (by rw [entsWith_self]; exact hz)).1.1
    rwa [entsWith_self] at this
  refine ⟨Good.synced hl (h.good.fields hl (f := { e₁ with numBytes := nb }) rfl rfl rfl) hino hB, ?_, fun i hi hne => ?_, ?_, ?_, hnb, fun i hi hor => ?_,
    fun i hi ha sl => ?_, fun i hi ha sl hsl hne => ?_⟩
  · rw [hents, entsWith_self]
  · rw [hents, entsWith_of_ne _ _ hne, h.entries i hi]
  · rw [h.fields]
  · rw [h.fields]
  · obtain ⟨hne, hbyte⟩ := h.bytes i hi hor
    have hblock : blockOf { e₁ with numBytes := nb } B₂ i = blockOf e₁ B₁ i := hown _
    rw [← hbyte]
    refine ⟨hblock ▸ hne, ?_⟩
    unfold byteAt
    rw [hblock, hdata]
    have := (h.good.dataBlock hself1 (a := dataSlot (i / blockSize)) (by rw [entsWith_self]; exact hne)).1
    rwa [entsWith_self] at this
  · rw [← h.slots i hi ha sl]
    refine slotRef_congr (fun hz => hdata _ ?_) sl
    have hent : entsWith sb B₁ ino e₁ i = entryAt sb B i := by
      rw [entsWith_of_ne _ _ hi, h.entries i ha.2.1]
    have := (h.good.indirect ((halloc i).mpr ha) (by rw [hent]; exact hz)).1.1
    rwa [hent] at this
  · rw [hdata, h.content i hi ha sl hsl hne]
    have hent : entsWith sb B₁ ino e₁ i = entryAt sb B i := by
      rw [entsWith_of_ne _ _ hi, h.entries i ha.2.1]
    have hslot := h.slots i hi ha sl
    have := (h.good.dataBlock ((halloc i).mpr ha) (a := sl) (by rw [hent, hslot]; exact hne)).1
    rwa [hent, hslot] at this

omit hl in
theorem toNat_add_of_le {a b c : UInt64} (hle : a + b ≤ c) (hle' : a ≤ a + b) :
    (a + b).toNat = a.toNat + b.toNat ∧ a.toNat + b.toNat ≤ c.toNat := by
  have h1 : (a + b).toNat ≤ c.toNat := le_iff_toNat_le.mp hle
  have h2 : a.toNat ≤ (a + b).toNat := le_iff_toNat_le.mp hle'
  have hb := b.toNat_lt
  rw [UInt64.toNat_add] at *
  omega

omit hl in
/-- Without a wrap the sum is the sum. -/
theorem toNat_add_of_lt {a b : UInt64} (h : a.toNat + b.toNat < 2 ^ 64) : (a + b).toNat = a.toNat + b.toNat := by
  rw [UInt64.toNat_add, Nat.mod_eq_of_lt h]

omit hl in
theorem toNat_inodeMaxBytes : (UInt64.ofNat inodeMaxBytes).toNat = inodeMaxBytes := by decide

omit hl in
/-- The size that `inode_write` stores. -/
theorem numBytes_written (nb : UInt32) {last : UInt64} (hlast : last.toNat ≤ inodeMaxBytes) :
    (if nb.toUInt64 < last then last.toUInt32 else nb).toNat = max nb.toNat last.toNat := by
  simp only [inodeMaxBytes, inodeMaxBlocks, inodeNumDirect, inodeNumIndirect, blockSize] at hlast
  split
  · rename_i hlt
    have := lt_iff_toNat_lt.mp hlt
    rw [UInt32.toNat_toUInt64] at this
    rw [toNat_toUInt32]
    omega
  · rename_i hge
    have : ¬ nb.toNat < last.toNat := fun h => hge (lt_iff_toNat_lt.mpr (by rwa [UInt32.toNat_toUInt64]))
    omega

/-- `inode_write` on anything but a device. -/
theorem wp_inodeWrite {Q : UInt64 → Store × Mem → Prop} {offset count : UInt64}
    (hp : m.heap p = some ip) (hdev : ip.entry.type ≠ inodeDevice) (hvalid : ip.valid = true)
    (hg : Good sb (entsWith sb s.blocks ip.inodeNo ip.entry) s.blocks)
    (hself : Allocated sb (entsWith sb s.blocks ip.inodeNo ip.entry) ip.inodeNo) (hheld : s.held = [])
    (hE : Tolerates E ctx s)
    (hpanic : ¬ (offset.toNat ≤ ip.entry.numBytes.toNat ∧ offset.toNat + count.toNat ≤ inodeMaxBytes) → E .panic)
    (hQ : ∀ s' e', FileWritten sb ip.inodeNo s.blocks ip.entry offset.toNat count.toNat src s'.blocks e' →
      s'.held = [] → SameOps s s' → Q count (s', m.write p { ip with entry := e' })) :
    wp (inodeWrite (store sb) sb ctx p src offset count) Q E (s, m) := by
  unfold inodeWrite
  rw [wp_bind, wp_onSnd]
  refine wp_deref hp ?_
  rw [if_neg hdev]
  simp only [wp_bind, wp_assert, decide_eq_true_eq, decide_eq_false_iff_not]
  have hsize : offset ≤ ip.entry.numBytes.toUInt64 ↔ offset.toNat ≤ ip.entry.numBytes.toNat := by
    rw [le_iff_toNat_le, UInt32.toNat_toUInt64]
  have hfits : offset.toNat + count.toNat ≤ inodeMaxBytes →
      offset + count ≤ UInt64.ofNat inodeMaxBytes ∧ offset ≤ offset + count := by
    intro hle
    have hadd := toNat_add_of_lt (a := offset) (b := count) (by
      simp only [inodeMaxBytes, inodeMaxBlocks, inodeNumDirect, inodeNumIndirect, blockSize] at hle
      omega)
    rw [le_iff_toNat_le, le_iff_toNat_le, toNat_inodeMaxBytes, hadd]
    omega
  refine ⟨fun hoff => ⟨fun hend => ⟨fun hwrap => ?_, fun hwrap => hpanic fun hc => hwrap (hfits hc.2).2⟩,
    fun hend => hpanic fun hc => hend (hfits hc.2).1⟩, fun hoff => hpanic fun hc => hoff (hsize.mpr hc.1)⟩
  obtain ⟨hadd, hle⟩ := toNat_add_of_le hend hwrap
  refine wp_writeLoop hl hp hg hself hheld hle le_rfl hE fun s₁ e₁ hw hheld1 hops1 => ?_
  refine wp_assignEntry (heap_write_self ..) ?_
  -- only the size of the entry changes
  have hnb := numBytes_written e₁.numBytes (show (offset + count).toNat ≤ _ by rw [hadd]; exact hle)
  rw [hadd, show e₁.numBytes = ip.entry.numBytes from by rw [hw.fields]] at hnb
  refine wp_inodeSync hl (heap_write_self ..) hvalid hheld1 (hE.of_sameOps hops1) fun s₂ h2 hheld2 hops2 => ?_
  rw [write_write, wp_pure]
  have hentry : (if e₁.numBytes.toUInt64 < offset + count then { e₁ with numBytes := (offset + count).toUInt32 }
      else e₁) = { e₁ with numBytes := if ip.entry.numBytes.toUInt64 < offset + count then
        (offset + count).toUInt32 else ip.entry.numBytes } := by
    have hsame : e₁.numBytes = ip.entry.numBytes := by rw [hw.fields]
    rw [hsame]
    split
    · rfl
    · rw [← hsame]
  simp only [hentry] at h2 ⊢
  exact hQ s₂ _ (FileWritten.of_written hl hself hw hnb h2) hheld2 (hops1.trans hops2)

/-! ## `inode_read` -/

section

variable (hp : m.heap p = some ip) (hg : Good sb (entsWith sb s.blocks ip.inodeNo ip.entry) s.blocks)
  (hself : Allocated sb (entsWith sb s.blocks ip.inodeNo ip.entry) ip.inodeNo) (hheld : s.held = [])
include hp hg hself hheld

/-- With the block there already, `inode_map` without a context does not fail. -/
theorem wp_inodeMap_there {Q : Nat × Bool → Store × Mem → Prop}
    {offset : Nat} (hoff : offset < inodeMaxBytes) (hthere : blockOf ip.entry s.blocks offset ≠ 0)
    (hQ : ∀ s', s'.blocks = s.blocks → s'.held = [] → SameOps s s' →
      Q (blockOf ip.entry s.blocks offset, false) (s', m)) :
    wp (inodeMap (store sb) sb none p offset) Q E (s, m) := by
  unfold blockOf at hthere hQ
  unfold inodeMap
  rw [wp_bind, wp_onSnd]
  refine wp_deref hp ?_
  by_cases hk : offset / blockSize < inodeNumDirect
  · rw [dataSlot_direct hk] at hthere hQ
    rw [dif_pos hk, if_neg (toNat_ne_zero.mp hthere), wp_pure]
    exact hQ s rfl hheld (SameOps.refl s)
  · have hkk : offset / blockSize - inodeNumDirect < inodeNumIndirect := by
      have : offset / blockSize < inodeMaxBlocks := Nat.div_lt_of_lt_mul (by rw [Nat.mul_comm]; exact hoff)
      simp only [inodeMaxBlocks, inodeNumDirect, inodeNumIndirect] at *
      omega
    rw [dataSlot_entry hk hkk] at hthere hQ
    have hz : ip.entry.indirect ≠ 0 := fun h0 => hthere (slotRef_entry_of_zero h0 ..)
    rw [slotRef_entry_of_ne hz] at hthere hQ
    rw [dif_neg hk, wp_bind, wp_assert]
    refine ⟨fun _ => ?_, fun hf => absurd hkk (by simpa using hf)⟩
    obtain ⟨hdata, _⟩ := hg.indirect hself (by rw [entsWith_self]; exact hz)
    rw [entsWith_self] at hdata
    unfold inodeMapIndirect
    rw [wp_bind, wp_onSnd]
    refine wp_deref hp ?_
    rw [if_neg hz, wp_onFst]
    unfold mapEntry
    rw [wp_bind]
    refine wp_acquire (not_inLog_data hl hdata.1) (by rw [hheld]; exact not_mem_nil) ?_
    rw [if_neg (toNat_ne_zero.mp hthere)]
    unfold returnEntry
    rw [wp_bind]
    refine wp_sync_null (mem_cons_self ..) ?_
    rw [wp_bind]
    refine wp_release rfl ?_
    exact hQ _ (update_eq_self ..) hheld (SameOps.refl s)

theorem wp_readLoop {Q : List UInt8 → Store × Mem → Prop} {fuel offset count : Nat} {acc : List UInt8}
    (hmax : offset + count ≤ inodeMaxBytes) (hfuel : count ≤ fuel)
    (hfull : ∀ i, offset ≤ i → i < offset + count → blockOf ip.entry s.blocks i ≠ 0)
    (hQ : ∀ s', s'.blocks = s.blocks → s'.held = [] → SameOps s s' →
      Q (acc ++ (List.range count).map fun j => byteAt ip.entry s.blocks (offset + j)) (s', m)) :
    wp (readLoop (store sb) sb p fuel offset count acc) Q E (s, m) := by
  induction fuel generalizing s offset count acc with
  | zero =>
    obtain rfl : count = 0 := by omega
    have := hQ s rfl hheld (SameOps.refl s)
    rwa [range_zero, map_nil, append_nil] at this
  | succ fuel ih =>
    unfold readLoop
    by_cases hpos : 0 < count
    · have hinc := chunk_pos offset hpos
      have hle := chunk_le_count offset count
      have hthere := hfull offset le_rfl (by omega)
      rw [if_pos hpos, wp_bind]
      refine wp_inodeMap_there hl hp hg hself hheld (by omega) hthere fun s₁ hblocks hheld1 hops1 => ?_
      have hdata : DataBlock sb (blockOf ip.entry s.blocks offset) := by
        have := hg.dataBlock hself (a := dataSlot (offset / blockSize)) (by rw [entsWith_self]; exact hthere)
        rwa [entsWith_self] at this
      rw [wp_bind, wp_assert]
      refine ⟨fun _ => ?_, fun hf => by cases hf⟩
      rw [wp_bind, wp_onFst]
      refine wp_acquire (not_inLog_data hl hdata.1) (by rw [hheld1]; exact not_mem_nil) ?_
      rw [wp_bind, wp_onFst]
      refine wp_release rfl ?_
      refine ih (s := { s₁ with held := s₁.held }) (by show Good sb (entsWith sb s₁.blocks _ _) s₁.blocks; rw [hblocks]; exact hg)
        (by show Allocated sb (entsWith sb s₁.blocks _ _) _; rw [hblocks]; exact hself) hheld1 (by omega) (by omega)
        (fun i hlo hhi => ?_) fun s' hs' hheld' hops' => ?_
      · show blockOf ip.entry s₁.blocks i ≠ 0
        rw [hblocks]
        exact hfull i (by omega) (by omega)
      · -- the bytes of the chunk are in one block
        have hchunk : (List.range (chunk offset count)).map
              (fun j => (s₁.blocks (blockOf ip.entry s.blocks offset)).get (offset % blockSize + j))
            = (List.range (chunk offset count)).map fun j => byteAt ip.entry s.blocks (offset + j) := by
          refine map_congr_left fun j hj => ?_
          have hj' := mem_range.mp hj
          have hcl := chunk_le offset count
          have hdiv : (offset + j) / blockSize = offset / blockSize :=
            div_eq_of_chunk hcl ⟨Nat.le_add_right .., by omega⟩
          have hmod : (offset + j) % blockSize = offset % blockSize + j := by
            simp only [blockSize] at hdiv hcl ⊢
            omega
          unfold byteAt blockOf
          rw [hdiv, hmod, hblocks]
        have hsplit : List.range count = List.range (chunk offset count)
            ++ (List.range (count - chunk offset count)).map (chunk offset count + ·) := by
          rw [← range_add]
          congr 1
          omega
        have := hQ s' (hs'.trans hblocks) hheld' (hops1.trans hops')
        rw [hsplit, map_append, ← hchunk, map_map, ← append_assoc] at this
        show Q (_ ++ (List.range _).map fun j => byteAt ip.entry s₁.blocks (offset + chunk offset count + j)) _
        rw [hblocks] at this ⊢
        simpa only [Function.comp_def, Nat.add_assoc] using this
    · obtain rfl : count = 0 := by omega
      have := hQ s rfl hheld (SameOps.refl s)
      rwa [range_zero, map_nil, append_nil] at this

end

section

variable (hp : m.heap p = some ip) (hdev : ip.entry.type ≠ inodeDevice)
  (hg : Good sb (entsWith sb s.blocks ip.inodeNo ip.entry) s.blocks)
  (hself : Allocated sb (entsWith sb s.blocks ip.inodeNo ip.entry) ip.inodeNo) (hheld : s.held = [])
  (hmax : ip.entry.numBytes.toNat ≤ inodeMaxBytes)
include hp hdev hg hself hheld hmax

/-- `inode_read` on anything but a device, where the file has no hole. -/
theorem wp_inodeRead {Q : UInt64 × List UInt8 → Store × Mem → Prop} {offset count : UInt64}
    {c : Option (List UInt8)}
    (hfull : ∀ i, offset.toNat ≤ i → i < offset.toNat + count.toNat → i < ip.entry.numBytes.toNat →
      blockOf ip.entry s.blocks i ≠ 0)
    (hoff : offset.toNat ≤ ip.entry.numBytes.toNat) (hwrap : offset.toNat + count.toNat < 2 ^ 64)
    (hQ : ∀ s' r, s'.blocks = s.blocks → s'.held = [] → SameOps s s' →
      r.toNat = min count.toNat (ip.entry.numBytes.toNat - offset.toNat) →
      Q (r, (List.range r.toNat).map fun j => byteAt ip.entry s.blocks (offset.toNat + j)) (s', m)) :
    wp (inodeRead (store sb) sb p offset count c) Q E (s, m) := by
  unfold inodeRead
  rw [wp_bind, wp_onSnd]
  refine wp_deref hp ?_
  rw [if_neg hdev]
  simp only [wp_bind, wp_assert, decide_eq_true_eq, decide_eq_false_iff_not]
  have hsize := ip.entry.numBytes.toNat_toUInt64
  have hsum : (count + offset).toNat = offset.toNat + count.toNat := by
    rw [UInt64.add_comm]
    exact toNat_add_of_lt hwrap
  generalize hr : (if ip.entry.numBytes.toUInt64 < count + offset then ip.entry.numBytes.toUInt64 - offset
    else count) = r
  have hrn : r.toNat = min count.toNat (ip.entry.numBytes.toNat - offset.toNat) := by
    rw [← hr]
    split
    · rename_i hlt
      have hlt' := UInt64.lt_iff_toNat_lt.mp hlt
      rw [UInt64.toNat_sub_of_le _ _ (UInt64.le_iff_toNat_le.mpr (by rw [hsize]; exact hoff)), hsize]
      omega
    · rename_i hge
      have hge' : ¬ ip.entry.numBytes.toNat < offset.toNat + count.toNat := fun h =>
        hge (UInt64.lt_iff_toNat_lt.mpr (by rw [hsize, hsum]; exact h))
      omega
  have hlast : (offset + r).toNat = offset.toNat + r.toNat := toNat_add_of_lt (by omega)
  have hle1 : offset ≤ ip.entry.numBytes.toUInt64 := UInt64.le_iff_toNat_le.mpr (by rw [hsize]; exact hoff)
  have hle2 : offset + r ≤ ip.entry.numBytes.toUInt64 := UInt64.le_iff_toNat_le.mpr (by rw [hsize, hlast]; omega)
  have hle3 : offset ≤ offset + r := UInt64.le_iff_toNat_le.mpr (by rw [hlast]; omega)
  refine ⟨fun _ => ⟨fun _ => ⟨fun _ => ?_, fun h => absurd hle3 h⟩, fun h => absurd hle2 h⟩,
    fun h => absurd hle1 h⟩
  refine wp_readLoop hl hp hg hself hheld (by omega) le_rfl (fun i hlo hi => hfull i hlo (by omega) (by omega)) fun s' hb hf hops => ?_
  exact hQ s' r hb hf hops hrn

end

end Rules

end Armv8Os.Fs
