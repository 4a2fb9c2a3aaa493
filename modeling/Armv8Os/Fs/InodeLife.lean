/-
  The life of an inode: `inode_clear`, `inode_put`, `inode_alloc` and `inode_get` on the array.

  Clearing gives back the blocks of an inode one at a time.  For the direct addresses the slot is cleared right
  after its block, so the file system is `Good` between two rounds.  The addresses in the indirect block are NOT
  cleared: the whole block goes at the end.  In between the ledger is kept for `masked`, the references with the
  addresses already given back left out.

  `FsInv` is what holds between two calls of the inode layer: no block is held, the entries in memory are those
  on the disk, no inode is in memory twice, and the file system is `Good`.
-/
import Armv8Os.Fs.InodeSpec

namespace Armv8Os.Fs

open Prog Sem Cache List Mem
open Function (update update_idem update_of_ne update_self)

/-! ## Giving back -/

/-- Nothing has changed but the bitmap. -/
structure OnlyBits (sb : SuperBlock) (s s' : Store) : Prop where
  data : ∀ x, dataStart sb ≤ x → s'.blocks x = s.blocks x
  entries : ∀ i < sb.numInodes.toNat, entryAt sb s'.blocks i = entryAt sb s.blocks i
  held : s'.held = s.held
  ops : SameOps s s'

theorem OnlyBits.refl (sb : SuperBlock) (s : Store) : OnlyBits sb s s :=
  ⟨fun _ _ => rfl, fun _ _ => rfl, rfl, SameOps.refl s⟩

variable {s' : Store}

theorem OnlyBits.trans {sb : SuperBlock} {s s'' : Store} (h : OnlyBits sb s s') (h' : OnlyBits sb s' s'') :
    OnlyBits sb s s'' :=
  ⟨fun x hx => (h'.data x hx).trans (h.data x hx), fun i hi => (h'.entries i hi).trans (h.entries i hi),
    h'.held.trans h.held, h.ops.trans h'.ops⟩

theorem Freed.onlyBits {sb : SuperBlock} {s : Store} {b : Nat} (h : Freed sb s b s') : OnlyBits sb s s' :=
  ⟨h.other, h.entries, h.held, h.ops⟩

/-- The entry of a cleared inode. -/
def InodeEntry.cleared (e : InodeEntry) : InodeEntry :=
  { e with addrs := fun _ => 0, indirect := 0, numBytes := 0 }

/-- The references without the first `j` addresses in the indirect block of `ino`. -/
def masked (ino j : Nat) (ref : Nat × Slot → Nat) (i : Nat × Slot) : Nat :=
  match i.2 with
  | .entry k => if i.1 = ino ∧ k.val < j then 0 else ref i
  | _ => ref i

section

variable (ino : Nat) (ref : Nat × Slot → Nat)
include ino ref

theorem masked_zero : masked ino 0 ref = ref := by
  funext i
  obtain ⟨n, sl⟩ := i
  cases sl with
  | direct i => rfl
  | indirect => rfl
  | entry k => exact if_neg (by omega)

theorem masked_succ (j : Fin inodeNumIndirect) :
    masked ino (j + 1) ref = Function.update (masked ino j ref) (ino, .entry j) 0 := by
  funext i
  obtain ⟨n, sl⟩ := i
  cases sl with
  | direct i => exact (update_of_ne (by intro h; cases h) ..).symm
  | indirect => exact (update_of_ne (by intro h; cases h) ..).symm
  | entry k =>
    by_cases hk : n = ino ∧ k = j
    · obtain ⟨rfl, rfl⟩ := hk
      rw [update_self]
      exact if_pos ⟨rfl, Nat.lt_succ_self _⟩
    · rw [update_of_ne (fun he => hk ⟨(Prod.ext_iff.mp he).1, Slot.entry.inj (Prod.ext_iff.mp he).2⟩)]
      show (if n = ino ∧ k.val < j + 1 then 0 else _) = if n = ino ∧ k.val < j then 0 else _
      by_cases hn : n = ino
      · by_cases hlt : k.val < j.val
        · rw [if_pos ⟨hn, by omega⟩, if_pos ⟨hn, hlt⟩]
        · rw [if_neg (fun h => hlt (by omega)), if_neg (fun h => hlt h.2)]
      · rw [if_neg (fun h => hn h.1), if_neg (fun h => hn h.1)]

theorem masked_entry (j : Fin inodeNumIndirect) :
    masked ino j ref (ino, .entry j) = ref (ino, .entry j) := if_neg (fun h => Nat.lt_irrefl _ h.2)

end

variable {Q : Unit → Store × Mem → Prop} {ino : Nat}

section Clear

variable {sb : SuperBlock} (hl : DiskLayout sb) {E : Stop → Prop} {s : Store} {m : Mem} {ctx : Option Nat}
  {p : Nat} {ip : Inode}

include hl

variable {e : InodeEntry}

omit hl in
/-- The slots of the other inodes are where they were. -/
theorem OnlyBits.other_slots {e' : InodeEntry} (h : OnlyBits sb s s')
    (hg : Good sb (entsWith sb s.blocks ino e) s.blocks) {i : Nat} (hi : i ≠ ino)
    (ha : Allocated sb (entsWith sb s.blocks ino e) i) (sl : Slot) :
    slotRef (entsWith sb s'.blocks ino e' i) s'.blocks sl = slotRef (entsWith sb s.blocks ino e i) s.blocks sl := by
  have hz := fun hz => (hg.indirect ha hz).1.1
  rw [entsWith_of_ne _ _ hi] at hz ⊢
  rw [entsWith_of_ne _ _ hi, h.entries i ha.2.1]
  exact slotRef_congr (fun hne => h.data _ (hz hne)) sl

theorem Good.dropDirect
    (hg : Good sb (entsWith sb s.blocks ino e) s.blocks) (hself : Allocated sb (entsWith sb s.blocks ino e) ino)
    {i : Fin inodeNumDirect} (hne : e.addrs i ≠ 0) (hf : Freed sb s (e.addrs i).toNat s') :
    Good sb (entsWith sb s'.blocks ino (e.setAddr i 0)) s'.blocks := by
  have href : refOf sb (entsWith sb s.blocks ino e) s.blocks (ino, .direct i) = (e.addrs i).toNat := by
    rw [refOf_of_allocated hself, entsWith_self]
    rfl
  refine Ledger.drop hl hg (i := (ino, .direct i)) (by rw [href]; exact toNat_ne_zero.mpr hne) ?_
    (by rw [href]; exact hf.bits)
  refine refOf_change hself (allocated_entsWith hf.entries rfl) (fun sl => ?_)
    fun n hn ha sl => hf.onlyBits.other_slots hg hn ha sl
  rw [entsWith_self, entsWith_self, slotRef_setAddr]
  congr 1
  refine slotRef_congr (fun hz => hf.other _ ?_) sl
  have := (hg.indirect hself (by rw [entsWith_self]; exact hz)).1.1
  rwa [entsWith_self] at this

/-- The first loop of `inode_clear`. -/
theorem wp_clearDirects (hp : m.heap p = some ip) (hg : Good sb (entsWith sb s.blocks ip.inodeNo ip.entry) s.blocks)
    (hself : Allocated sb (entsWith sb s.blocks ip.inodeNo ip.entry) ip.inodeNo) (hheld : s.held = [])
    (hE : Tolerates E ctx s) (hQ : ∀ s' e', Good sb (entsWith sb s'.blocks ip.inodeNo e') s'.blocks → OnlyBits sb s s' →
      e' = { ip.entry with addrs := fun _ => 0 } → Q () (s', m.write p { ip with entry := e' })) :
    wp (Prog.forRange inodeNumDirect (clearDirect (store sb) sb ctx p)) Q E (s, m) := by
  -- before round `k` the first `k` addresses are zero
  let I (k : Nat) (st : Store × Mem) : Prop := ∃ e', st.2 = m.write p { ip with entry := e' } ∧
    Good sb (entsWith sb st.1.blocks ip.inodeNo e') st.1.blocks ∧ OnlyBits sb s st.1 ∧
    e' = { ip.entry with addrs := e'.addrs } ∧ ∀ i : Fin inodeNumDirect, i.val < k → e'.addrs i = 0
  refine wp_imp (wp_forRange (I := I) (E := E) ?_ ?_) ?_
  · exact ⟨ip.entry, (write_eq_self hp).symm, hg, OnlyBits.refl sb s, rfl, fun _ hi => absurd hi (by omega)⟩
  · rintro k hk ⟨s₁, m₁⟩ ⟨e₁, rfl, hg1, hb1, hf1, hz1⟩
    have hself1 := (allocated_entsWith hb1.entries (f := e₁) (by rw [hf1]) _).mpr hself
    unfold clearDirect
    rw [wp_bind, wp_onSnd]
    refine wp_deref (heap_write_self ..) ?_
    rw [dif_pos hk]
    by_cases hne : e₁.addrs ⟨k, hk⟩ ≠ 0
    · have hslot : slotRef (entsWith sb s₁.blocks ip.inodeNo e₁ ip.inodeNo) s₁.blocks (.direct ⟨k, hk⟩) ≠ 0 := by
        rw [entsWith_self]
        exact toNat_ne_zero.mpr hne
      have hdata := hg1.dataBlock hself1 hslot
      have hmark := hg1.marked hself1 hslot
      rw [entsWith_self] at hdata hmark
      rw [if_pos hne, wp_bind, wp_onFst]
      refine wp_cacheFree hl (DataBlock.lt_numBlocks hl hdata) hmark (by rw [hb1.held, hheld]; intro x hx; cases hx)
        (hE.of_sameOps hb1.ops) fun s₂ h2 => ?_
      refine wp_assignEntry (heap_write_self ..) ?_
      refine ⟨e₁.setAddr ⟨k, hk⟩ 0, write_write .., hg1.dropDirect hl hself1 hne h2, hb1.trans h2.onlyBits, ?_,
        fun i hi => ?_⟩
      · rw [hf1]
        rfl
      · by_cases he : i = ⟨k, hk⟩
        · rw [he]
          exact update_self ..
        · exact (update_of_ne he ..).trans (hz1 i (by
            have : i.val ≠ k := fun h => he (Fin.ext h)
            omega))
    · rw [if_neg hne, wp_pure]
      refine ⟨e₁, rfl, hg1, hb1, hf1, fun i hi => ?_⟩
      rcases Nat.lt_succ_iff_lt_or_eq.mp hi with hlt | rfl
      · exact hz1 i hlt
      · exact not_not.mp hne
  · rintro _ ⟨s₁, m₁⟩ ⟨e₁, rfl, hg1, hb1, hf1, hz1⟩
    refine hQ s₁ e₁ hg1 hb1 ?_
    have : e₁.addrs = fun _ => 0 := funext fun i => hz1 i i.isLt
    rw [hf1, this]

omit hl in
/-- What is left once the indirect block is given back too. -/
theorem refOf_dropIndirect
    (hg : Good sb (entsWith sb s.blocks ino e) s.blocks) (hself : Allocated sb (entsWith sb s.blocks ino e) ino)
    (hb : OnlyBits sb s s') :
    refOf sb (entsWith sb s'.blocks ino { e with indirect := 0 }) s'.blocks
      = Function.update (masked ino inodeNumIndirect (refOf sb (entsWith sb s.blocks ino e) s.blocks))
          (ino, .indirect) 0 := by
  have halloc := allocated_entsWith (n := ino) (e := e) (f := { e with indirect := 0 }) hb.entries rfl
  funext i
  obtain ⟨n, sl⟩ := i
  by_cases hn : n = ino
  · subst hn
    rw [refOf_of_allocated ((halloc n).mpr hself), entsWith_self, slotRef_clearIndirect]
    cases sl with
    | indirect => rw [update_self]
    | direct i =>
      rw [update_of_ne (by intro h; cases h)]
      show _ = refOf sb (entsWith sb s.blocks n e) s.blocks (n, .direct i)
      rw [refOf_of_allocated hself, entsWith_self]
      rfl
    | entry k =>
      rw [update_of_ne (by intro h; cases h)]
      exact (if_pos ⟨rfl, k.isLt⟩).symm
  · have hmask : masked ino inodeNumIndirect (refOf sb (entsWith sb s.blocks ino e) s.blocks) (n, sl)
        = refOf sb (entsWith sb s.blocks ino e) s.blocks (n, sl) := by
      cases sl with
      | entry k => exact if_neg (fun h => hn h.1)
      | direct i => rfl
      | indirect => rfl
    rw [update_of_ne (fun he => hn (Prod.ext_iff.mp he).1), hmask]
    unfold refOf
    by_cases ha : Allocated sb (entsWith sb s.blocks ino e) n
    · rw [if_pos ha, if_pos ((halloc n).mpr ha)]
      exact hb.other_slots hg hn ha sl
    · rw [if_neg ha, if_neg (fun h => ha ((halloc n).mp h))]

/-- The second loop: every address in the indirect block is given back. -/
theorem wp_clearEntries {Q : Unit → Store → Prop}
    (hg : Good sb (entsWith sb s.blocks ino e) s.blocks) (hself : Allocated sb (entsWith sb s.blocks ino e) ino)
    (hz : e.indirect ≠ 0) (hheld : ∀ x ∈ s.held, dataStart sb ≤ x) (hE : Tolerates E ctx s)
    (hQ : ∀ s', Ledger sb (masked ino inodeNumIndirect (refOf sb (entsWith sb s.blocks ino e) s.blocks))
      (bitAt sb s'.blocks) → OnlyBits sb s s' → Q () s') :
    wp (Prog.forRange inodeNumIndirect (clearEntry (store sb) sb ctx (s.blocks e.indirect.toNat))) Q E s := by
  let ref := refOf sb (entsWith sb s.blocks ino e) s.blocks
  have hentry : ∀ j : Fin inodeNumIndirect,
      ref (ino, .entry j) = (addrAt (s.blocks e.indirect.toNat) j).toNat := by
    intro j
    show refOf sb (entsWith sb s.blocks ino e) s.blocks (ino, .entry j) = _
    rw [refOf_of_allocated hself, entsWith_self, slotRef_entry_of_ne hz]
  let I (j : Nat) (st : Store) : Prop := Ledger sb (masked ino j ref) (bitAt sb st.blocks) ∧ OnlyBits sb s st
  refine wp_imp (wp_forRange (I := I) (E := E) ?_ ?_) (fun _ s' h => hQ s' h.1 h.2)
  · refine ⟨?_, OnlyBits.refl sb s⟩
    rw [masked_zero]
    exact hg
  · rintro j hj s₁ ⟨hled, hb⟩
    have hsucc := masked_succ ino ref ⟨j, hj⟩
    have hat : masked ino j ref (ino, .entry ⟨j, hj⟩) = (addrAt (s.blocks e.indirect.toNat) j).toNat :=
      (masked_entry ino ref ⟨j, hj⟩).trans (hentry ⟨j, hj⟩)
    unfold clearEntry
    by_cases hne : addrAt (s.blocks e.indirect.toNat) j ≠ 0
    · have hne' : masked ino j ref (ino, .entry ⟨j, hj⟩) ≠ 0 := by
        rw [hat]
        exact toNat_ne_zero.mpr hne
      have hdata := hled.owned.area _ hne'
      have hmark := hled.owned.marked _ hne'
      rw [hat] at hdata hmark
      rw [if_pos hne]
      refine wp_cacheFree hl (DataBlock.lt_numBlocks hl hdata) hmark (by rw [hb.held]; exact hheld)
        (hE.of_sameOps hb.ops) fun s₂ h2 => ⟨?_, hb.trans h2.onlyBits⟩
      exact Ledger.drop hl hled hne' hsucc (by rw [hat]; exact h2.bits)
    · rw [if_neg hne, wp_pure]
      refine ⟨?_, hb⟩
      have hzero : masked ino j ref (ino, .entry ⟨j, hj⟩) = 0 := by
        rw [hat, not_not.mp hne]
        rfl
      rw [show masked ino (j + 1) ref = _ from hsucc, ← hzero, Function.update_eq_self]
      exact hled

theorem wp_clearIndirect (hp : m.heap p = some ip) (hg : Good sb (entsWith sb s.blocks ip.inodeNo ip.entry) s.blocks)
    (hself : Allocated sb (entsWith sb s.blocks ip.inodeNo ip.entry) ip.inodeNo) (hheld : s.held = [])
    (hE : Tolerates E ctx s)
    (hQ : ∀ s', Good sb (entsWith sb s'.blocks ip.inodeNo { ip.entry with indirect := 0 }) s'.blocks →
      OnlyBits sb s s' → Q () (s', m.write p { ip with entry := { ip.entry with indirect := 0 } })) :
    wp (clearIndirect (store sb) sb ctx p) Q E (s, m) := by
  unfold clearIndirect
  rw [wp_bind, wp_onSnd]
  refine wp_deref hp ?_
  by_cases hz : ip.entry.indirect ≠ 0
  · obtain ⟨hdata, hmark⟩ := hg.indirect hself (by rw [entsWith_self]; exact hz)
    rw [entsWith_self] at hdata hmark
    rw [if_pos hz, wp_bind, wp_onFst]
    refine wp_acquire (not_inLog_data hl hdata.1) (by rw [hheld]; exact not_mem_nil) ?_
    rw [wp_bind, wp_onFst]
    refine wp_clearEntries hl (s := { s with held := ip.entry.indirect.toNat :: s.held }) hg hself hz
      (fun x hx => ?_) (hE.of_sameOps (SameOps.refl s)) fun s₁ hled hb => ?_
    · rw [hheld] at hx
      rw [mem_singleton.mp hx]
      exact hdata.1
    rw [wp_bind, wp_onFst]
    refine wp_release hb.held ?_
    rw [wp_bind, wp_onFst]
    have hb' : OnlyBits sb s { s₁ with held := s.held } := ⟨hb.data, hb.entries, rfl, hb.ops⟩
    -- the block itself is still referred to by its slot
    have hat : masked ip.inodeNo inodeNumIndirect (refOf sb (entsWith sb s.blocks ip.inodeNo ip.entry) s.blocks)
        (ip.inodeNo, .indirect) = ip.entry.indirect.toNat := by
      show refOf sb (entsWith sb s.blocks ip.inodeNo ip.entry) s.blocks (ip.inodeNo, .indirect) = _
      rw [refOf_of_allocated hself, entsWith_self]
      rfl
    have hne := toNat_ne_zero.mpr hz
    rw [← hat] at hne
    have hmark1 := hled.owned.marked _ hne
    rw [hat] at hmark1
    refine wp_cacheFree hl (DataBlock.lt_numBlocks hl hdata) hmark1 (by rw [hheld]; intro x hx; cases hx)
      (hE.of_sameOps hb'.ops) fun s₂ h2 => ?_
    refine wp_assignEntry hp ?_
    have hb2 : OnlyBits sb s s₂ := hb'.trans h2.onlyBits
    refine hQ s₂ ?_ hb2
    exact Ledger.drop hl hled hne (refOf_dropIndirect (s := s) hg hself hb2) (by rw [hat]; exact h2.bits)
  · have hzero : ip.entry.indirect = 0 := not_not.mp hz
    have hsame : ({ ip.entry with indirect := 0 } : InodeEntry) = ip.entry := by rw [← hzero]
    rw [if_neg hz, wp_pure]
    have := hQ s (by rw [hsame]; exact hg) (OnlyBits.refl sb s)
    rwa [hsame, write_eq_self hp] at this

/-- What `inode_clear` leaves. -/
structure Cleared (sb : SuperBlock) (ino : Nat) (s : Store) (e : InodeEntry) (s' : Store) : Prop where
  good : Good sb (entryAt sb s'.blocks) s'.blocks
  entry : entryAt sb s'.blocks ino = e.cleared
  entries : ∀ i < sb.numInodes.toNat, i ≠ ino → entryAt sb s'.blocks i = entryAt sb s.blocks i
  data : ∀ x, dataStart sb ≤ x → s'.blocks x = s.blocks x
  held : s'.held = []
  ops : SameOps s s'

theorem wp_inodeClear (hp : m.heap p = some ip) (hvalid : ip.valid = true)
    (hg : Good sb (entsWith sb s.blocks ip.inodeNo ip.entry) s.blocks)
    (hself : Allocated sb (entsWith sb s.blocks ip.inodeNo ip.entry) ip.inodeNo) (hheld : s.held = [])
    (hE : Tolerates E ctx s) (hQ : ∀ s', Cleared sb ip.inodeNo s ip.entry s' →
      Q () (s', m.write p { ip with entry := ip.entry.cleared })) :
    wp (inodeClear (store sb) sb ctx p) Q E (s, m) := by
  unfold inodeClear
  rw [wp_bind]
  refine wp_clearDirects hl hp hg hself hheld hE fun s₁ e₁ hg1 hb1 he1 => ?_
  subst he1
  have hself1 := (allocated_entsWith (e := ip.entry) (f := { ip.entry with addrs := fun _ => 0 }) hb1.entries
    rfl _).mpr hself
  rw [wp_bind]
  refine wp_clearIndirect hl (heap_write_self ..) hg1 hself1 (hb1.held.trans hheld) (hE.of_sameOps hb1.ops)
    fun s₂ hg2 hb2 => ?_
  have hb := hb1.trans hb2
  rw [wp_bind, write_write]
  refine wp_assignEntry (heap_write_self ..) ?_
  rw [write_write]
  refine wp_inodeSync hl (heap_write_self ..) hvalid (hb.held.trans hheld) (hE.of_sameOps hb.ops)
    fun s₃ h3 hheld3 hops3 => ?_
  have hg3 : Good sb (entsWith sb s₂.blocks ip.inodeNo ip.entry.cleared) s₂.blocks :=
    hg2.fields hl rfl rfl rfl
  have hents : entryAt sb s₃.blocks = entsWith sb s₂.blocks ip.inodeNo ip.entry.cleared := by
    rw [h3]
    exact entryAt_synced ..
  refine hQ s₃ ⟨hg3.synced hl hself.2.1 h3, ?_, fun i hi hne => ?_, fun x hx => ?_, hheld3, hb.ops.trans hops3⟩
  · rw [hents, entsWith_self]
  · rw [hents, entsWith_of_ne _ _ hne, hb.entries i hi]
  · rw [h3, synced_data hl hself.2.1 _ hx, hb.data x hx]

end Clear

/-! ## Locks -/

namespace Mem

variable {m : Mem} {p : Nat} {ip : Inode} {E : Stop → Prop}

/-- The memory after the lock of an inode has got the value `v`. -/
def setLock (m : Mem) (p : Nat) (ip : Inode) (v : Int) : Mem :=
  { m.write p { ip with lock := { ip.lock with val := v } } with lockLog := m.lockLog ++ [v] }

theorem wp_waitLock {Q : Unit → Mem → Prop} (h : m.heap p = some ip) (hsleep : ip.lock.val ≤ 0 → E .sleeps)
    (hQ : 0 < ip.lock.val → Q () (m.setLock p ip (ip.lock.val - 1))) : wp (waitLock p) Q E m := by
  unfold wp waitLock waitSem
  rw [h]
  by_cases hv : 0 ≤ ip.lock.val - 1
  · simp only [if_pos hv]
    exact hQ (by omega)
  · simp only [if_neg hv]
    exact hsleep (by omega)

/-- Nobody sleeps on the lock: a post only counts. -/
theorem wp_postLock {Q : Unit → Mem → Prop} (h : m.heap p = some ip) (hv : 0 ≤ ip.lock.val)
    (hQ : Q () (m.setLock p ip (ip.lock.val + 1))) : wp (postLock p) Q E m := by
  unfold wp postLock
  rw [h]
  simp only [postSem_of_nonneg hv]
  exact hQ

/-- The memory after an inode has been freed. -/
def freed (m : Mem) (p : Nat) : Mem := { m with heap := Function.update m.heap p none, head := m.head.erase p }

theorem wp_free {Q : Unit → Mem → Prop} (hQ : Q () (m.freed p)) : wp (free p) Q E m := hQ

end Mem

/-! ## Deletion -/

section Delete

variable {sb : SuperBlock} (hl : DiskLayout sb) {E : Stop → Prop} {s : Store} {m : Mem} {ctx : Option Nat}
  {p : Nat} {ip : Inode}

include hl

/-- What is left of an inode that has been deleted. -/
structure Deleted (sb : SuperBlock) (ino : Nat) (s s' : Store) : Prop where
  good : Good sb (entryAt sb s'.blocks) s'.blocks
  entry : entryAt sb s'.blocks ino = InodeEntry.zero
  entries : ∀ i < sb.numInodes.toNat, i ≠ ino → entryAt sb s'.blocks i = entryAt sb s.blocks i
  data : ∀ x, dataStart sb ≤ x → s'.blocks x = s.blocks x
  held : s'.held = []
  ops : SameOps s s'

omit hl in
theorem slotRef_cleared (e : InodeEntry) (B : Nat → Data) (sl : Slot) : slotRef e.cleared B sl = 0 := by
  cases sl with
  | direct i => rfl
  | indirect => rfl
  | entry j => exact slotRef_entry_of_zero rfl ..

/-- An entry without blocks is replaced by another on the disk. -/
theorem Good.replace {B B' : Nat → Data} {e' : InodeEntry} (hg : Good sb (entryAt sb B) B)
    (hi : ino < sb.numInodes.toNat) (hnone : ∀ sl, refOf sb (entryAt sb B) B (ino, sl) = 0)
    (hnone' : ∀ sl, slotRef e' B sl = 0) (hB : B' = Function.update B (inodeBlock sb ino)
      (writeEntry (B (inodeBlock sb ino)) (ino % inodePerBlock) e')) : Good sb (entryAt sb B') B' := by
  refine Good.synced hl (B := B) (e := e') ?_ hi hB
  refine Ledger.congr hl hg ?_ fun _ _ => rfl
  funext i
  obtain ⟨n, sl⟩ := i
  by_cases hn : n = ino
  · subst hn
    rw [hnone sl]
    unfold refOf
    rw [entsWith_self, hnone', ite_self]
  · exact refOf_of_entry (entsWith_of_ne _ _ hn _) sl

section

variable (hp : m.heap p = some ip) (hvalid : ip.valid = true)
  (hg : Good sb (entsWith sb s.blocks ip.inodeNo ip.entry) s.blocks)
  (hself : Allocated sb (entsWith sb s.blocks ip.inodeNo ip.entry) ip.inodeNo) (hheld : s.held = [])
  (hE : Tolerates E ctx s)
include hp hvalid hg hself hheld hE

theorem wp_deleteInode (hsleep : ip.lock.val ≤ 0 → E .sleeps)
    (hQ : ∀ s' ip', Deleted sb ip.inodeNo s s' → ip'.inodeNo = ip.inodeNo →
      Q () (s', { m.write p ip' with lockLog := m.lockLog ++ [ip.lock.val - 1, ip.lock.val] })) :
    wp (deleteInode (store sb) sb ctx p ip.inodeNo) Q E (s, m) := by
  have hino := hself.2.1
  unfold deleteInode
  rw [wp_bind, wp_onSnd]
  refine wp_waitLock hp hsleep fun hv => ?_
  have hp1 : (m.setLock p ip (ip.lock.val - 1)).heap p = some { ip with lock := { ip.lock with val := ip.lock.val - 1 } } :=
    heap_write_self ..
  rw [wp_bind]
  refine wp_inodeClear hl hp1 hvalid hg hself hheld hE fun s₁ h1 => ?_
  rw [wp_bind, wp_onFst]
  refine wp_acquire (not_inLog_inode hl _) (by rw [h1.held]; exact not_mem_nil) ?_
  rw [wp_bind, wp_onFst]
  refine wp_sync (mem_cons_self ..) (hE.of_sameOps h1.ops) fun s₂ h2 => ?_
  rw [wp_bind, wp_onFst]
  refine wp_release h2.held ?_
  rw [wp_onSnd]
  refine wp_postLock (heap_write_self ..) (by show 0 ≤ ip.lock.val - 1; omega) ?_
  have hblocks : s₂.blocks = update s₁.blocks (inodeBlock sb ip.inodeNo)
      (writeEntry (s₁.blocks (inodeBlock sb ip.inodeNo)) (ip.inodeNo % inodePerBlock) InodeEntry.zero) := h2.blocks
  have hents : entryAt sb s₂.blocks = entsWith sb s₁.blocks ip.inodeNo InodeEntry.zero := by
    rw [hblocks]
    exact entryAt_synced ..
  have hdel : Deleted sb ip.inodeNo s { s₂ with held := s₁.held } := by
    refine ⟨?_, ?_, fun i hi hne => ?_, fun x hx => ?_, h1.held, h1.ops.trans h2.ops⟩
    · refine Good.replace hl h1.good hino (fun sl => ?_) (slotRef_cleared InodeEntry.zero s₁.blocks) hblocks
      unfold refOf
      rw [h1.entry, slotRef_cleared, ite_self]
    · show entryAt sb s₂.blocks ip.inodeNo = _
      rw [hents, entsWith_self]
    · show entryAt sb s₂.blocks i = _
      rw [hents, entsWith_of_ne _ _ hne, h1.entries i hi hne]
    · show s₂.blocks x = _
      rw [hblocks, synced_data hl hino _ hx, h1.data x hx]
  have hmem : (((m.setLock p ip (ip.lock.val - 1)).write p
        { ip with lock := { ip.lock with val := ip.lock.val - 1 }, entry := ip.entry.cleared }).setLock p
        { ip with lock := { ip.lock with val := ip.lock.val - 1 }, entry := ip.entry.cleared }
        (ip.lock.val - 1 + 1))
      = { m.write p { ip with lock := { ip.lock with val := ip.lock.val - 1 + 1 }, entry := ip.entry.cleared } with
          lockLog := m.lockLog ++ [ip.lock.val - 1, ip.lock.val] } := by
    unfold setLock write
    simp only [update_idem, append_assoc, cons_append, nil_append, Int.sub_add_cancel]
  have := hQ _ { ip with lock := { ip.lock with val := ip.lock.val - 1 + 1 }, entry := ip.entry.cleared } hdel rfl
  rw [← hmem] at this
  exact this

/-- `inode_put`: one reference less; the last one takes the inode out of memory, and off the disk if no
    directory names it. -/
theorem wp_inodePut (hsleep : ip.rc ≤ 1 → ip.entry.numLinks = 0 → ip.lock.val ≤ 0 → E .sleeps)
    (hmore : 1 < ip.rc → Q () (s, m.write p { ip with rc := ip.rc - 1 }))
    (hlast : ip.rc ≤ 1 → ip.entry.numLinks ≠ 0 → Q () (s, m.freed p))
    (hgone : ip.rc ≤ 1 → ip.entry.numLinks = 0 → ∀ s', Deleted sb ip.inodeNo s s' →
      Q () (s', { m.freed p with lockLog := m.lockLog ++ [ip.lock.val - 1, ip.lock.val] })) :
    wp (inodePut (store sb) sb ctx p) Q E (s, m) := by
  have hfreed : ∀ ip' log, ({ m.write p ip' with lockLog := log } : Mem).freed p = { m.freed p with lockLog := log } := by
    intro ip' log
    unfold freed write
    simp only [update_idem]
  unfold inodePut
  rw [wp_bind, wp_onSnd]
  refine wp_assign hp ?_
  rw [wp_bind, wp_onSnd]
  refine wp_deref (heap_write_self ..) ?_
  by_cases hrc : 0 < ip.rc - 1
  · rw [if_pos hrc, wp_pure]
    exact hmore (by omega)
  · rw [if_neg hrc]
    by_cases hlinks : ip.entry.numLinks = 0
    · rw [if_pos hlinks, wp_bind]
      refine wp_deleteInode hl (show _ = some { ip with rc := ip.rc - 1 } from heap_write_self ..) hvalid hg hself hheld hE
        (hsleep (by omega) hlinks) fun s' ip' hdel _ => ?_
      rw [wp_onSnd]
      refine wp_free ?_
      rw [write_write, hfreed]
      exact hgone (by omega) hlinks s' hdel
    · rw [if_neg hlinks, wp_onSnd]
      refine wp_free ?_
      have := hfreed { ip with rc := ip.rc - 1 } m.lockLog
      have hsame := hlast (by omega) hlinks
      rw [show m.freed p = _ from this.symm] at hsame
      exact hsame

end

end Delete

/-! ## Allocation and lookup -/

section Create

variable {sb : SuperBlock} (hl : DiskLayout sb) {E : Stop → Prop} {s : Store} {m : Mem} {ctx : Option Nat}

include hl

/-- What `inode_alloc` leaves: an inode that was not in use is, with an empty entry. -/
structure Born (sb : SuperBlock) (ino : Nat) (type : InodeType) (s s' : Store) : Prop where
  range : 0 < ino ∧ ino < sb.numInodes.toNat
  unused : (entryAt sb s.blocks ino).type = inodeInvalid
  good : Good sb (entryAt sb s'.blocks) s'.blocks
  entry : entryAt sb s'.blocks ino = { InodeEntry.zero with type := type }
  entries : ∀ i, i ≠ ino → entryAt sb s'.blocks i = entryAt sb s.blocks i
  data : ∀ x, dataStart sb ≤ x → s'.blocks x = s.blocks x
  held : s'.held = []
  ops : SameOps s s'

section

variable {type : InodeType} (hg : Good sb (entryAt sb s.blocks) s.blocks) (hheld : s.held = []) (hE : Tolerates E ctx s)
  (hpanic : E .panic)
include hg hheld hE hpanic

theorem wp_inodeAllocFrom {Q : Nat → Store → Prop} {inos : List Nat} (hinos : ∀ i ∈ inos, 0 < i ∧ i < sb.numInodes.toNat)
    (hQ : ∀ ino s', Born sb ino type s s' → Q ino s') :
    wp (inodeAllocFrom (store sb) sb ctx type inos) Q E s := by
  induction inos with
  | nil => exact hpanic
  | cons ino inos ih =>
    have hrange := hinos ino (mem_cons_self ..)
    unfold inodeAllocFrom
    rw [wp_bind]
    refine wp_acquire (not_inLog_inode hl _) (by rw [hheld]; exact not_mem_nil) ?_
    split
    · rename_i hfree
      rw [wp_bind]
      refine wp_sync (mem_cons_self ..) (hE.of_sameOps (SameOps.refl s)) fun s₁ h1 => ?_
      rw [wp_bind]
      refine wp_release h1.held ?_
      have hblocks : s₁.blocks = update s.blocks (inodeBlock sb ino)
          (writeEntry (s.blocks (inodeBlock sb ino)) (ino % inodePerBlock) { InodeEntry.zero with type := type }) :=
        h1.blocks
      have hents : entryAt sb s₁.blocks = entsWith sb s.blocks ino { InodeEntry.zero with type := type } := by
        rw [hblocks]
        exact entryAt_synced ..
      refine hQ ino _ ⟨hrange, hfree, ?_, ?_, fun i hi => ?_, fun x hx => ?_, hheld, h1.ops⟩
      · refine Good.replace hl hg hrange.2 (fun sl => ?_) (fun sl => ?_) hblocks
        · unfold refOf
          rw [if_neg (fun ha => ha.2.2 hfree)]
        · exact (slotRef_fields rfl rfl ..).trans (slotRef_cleared InodeEntry.zero s.blocks sl)
      · show entryAt sb s₁.blocks ino = _
        rw [hents, entsWith_self]
      · show entryAt sb s₁.blocks i = _
        rw [hents, entsWith_of_ne _ _ hi]
      · show s₁.blocks x = _
        rw [hblocks, synced_data hl hrange.2 _ hx]
    · rw [wp_bind]
      refine wp_release rfl ?_
      exact ih fun i hi => hinos i (mem_cons_of_mem _ hi)

theorem wp_inodeAlloc {Q : Nat → Store × Mem → Prop}
    (hQ : type ≠ inodeInvalid → ∀ ino s', Born sb ino type s s' → Q ino (s', m)) :
    wp (inodeAlloc (store sb) sb ctx type) Q E (s, m) := by
  unfold inodeAlloc
  rw [wp_bind, wp_assert]
  refine ⟨fun htype => ?_, fun _ => hpanic⟩
  rw [wp_onFst]
  refine wp_inodeAllocFrom hl hg hheld hE hpanic (fun i hi => ?_) fun ino s' hb => hQ (by simpa using htype) ino s' hb
  have := mem_range'_1.mp hi
  omega

end

omit hl in
theorem Mem.wp_find {Q : Option Nat → Mem → Prop} (hQ : Q (m.search ino) m) :
    wp (Mem.find ino) Q E m := hQ

omit hl in
theorem Mem.search_eq_some {p : Nat} (h : m.search ino = some p) :
    p ∈ m.head ∧ ∃ ip, m.heap p = some ip ∧ ip.inodeNo = ino := by
  refine ⟨mem_of_find?_eq_some h, ?_⟩
  have hfound := find?_some h
  simp only [beq_iff_eq, Option.map_eq_some_iff] at hfound
  exact hfound

omit hl in
theorem Mem.search_eq_none {p : Nat} {ip : Inode} (h : m.search ino = none) (hmem : p ∈ m.head)
    (hp : m.heap p = some ip) : ip.inodeNo ≠ ino := by
  have hno := find?_eq_none.mp h p hmem
  rw [hp] at hno
  simpa using hno

/-- The struct that `inode_get` puts into the list. -/
def Inode.loaded (ino : Nat) (e : InodeEntry) : Inode :=
  { lock := initSem 1, rc := 1, inodeNo := ino, valid := true, entry := e }

/-- The memory with a new inode in it. -/
def Mem.inserted (m : Mem) (ip : Inode) : Mem :=
  { m.write m.next ip with head := m.next :: m.head, next := m.next + 1 }

/-- `inode_get`: one reference more, or a struct of its own. -/
theorem wp_inodeGet {Q : Nat → Store × Mem → Prop} {n : Nat} (hheld : s.held = [])
    (hpanic : ¬ Allocated sb (entryAt sb s.blocks) n → E .panic)
    (hfound : ∀ p ip, p ∈ m.head → m.heap p = some ip → ip.inodeNo = n →
      Q p (s, m.write p { ip with rc := ip.rc + 1 }))
    (hnew : Allocated sb (entryAt sb s.blocks) n → (∀ p ∈ m.head, ∀ ip, m.heap p = some ip → ip.inodeNo ≠ n) →
      Q m.next (s, m.inserted (Inode.loaded n (entryAt sb s.blocks n)))) :
    wp (inodeGet (store sb) sb n) Q E (s, m) := by
  unfold inodeGet
  simp only [wp_bind, wp_assert, decide_eq_true_eq, decide_eq_false_iff_not, wp_onSnd]
  refine ⟨fun hpos => ⟨fun hlt => ?_, fun hlt => hpanic fun ha => hlt ha.2.1⟩, fun hpos => hpanic fun ha => hpos ha.1⟩
  refine wp_find ?_
  cases hs : m.search n with
  | some p =>
    obtain ⟨hmem, ip, hp, hino⟩ := search_eq_some hs
    simp only [wp_bind, wp_onSnd]
    exact wp_assign hp (hfound p ip hmem hp hino)
  | none =>
    simp only [wp_bind, wp_onFst]
    refine wp_acquire (not_inLog_inode hl _) (by rw [hheld]; exact not_mem_nil) ?_
    rw [wp_assert]
    refine ⟨fun htype => ?_, fun htype => hpanic fun ha => ha.2.2 (bne_eq_false_iff_eq.mp htype)⟩
    show wp ((store sb).release (inodeBlock sb n)) _ E _
    refine wp_release rfl ?_
    exact hnew ⟨hpos, hlt, bne_iff_ne.mp htype⟩ fun p hmem ip hp => search_eq_none hs hmem hp

end Create

/-! ## Between two calls -/

/-- What holds between two calls of the inode layer. -/
structure FsInv (sb : SuperBlock) (s : Store) (m : Mem) : Prop where
  free : s.held = []
  good : Good sb (entryAt sb s.blocks) s.blocks
  listed : ∀ p, p ∈ m.head ↔ (m.heap p).isSome
  nodup : m.head.Nodup
  fresh : ∀ p, (m.heap p).isSome → p < m.next
  valid : ∀ p ip, m.heap p = some ip → ip.valid = true
  allocated : ∀ p ip, m.heap p = some ip → Allocated sb (entryAt sb s.blocks) ip.inodeNo
  entry : ∀ p ip, m.heap p = some ip → ip.entry = entryAt sb s.blocks ip.inodeNo
  unique : ∀ p q ip iq, m.heap p = some ip → m.heap q = some iq → ip.inodeNo = iq.inodeNo → p = q

section Between

variable {sb : SuperBlock} {s s' : Store} {m m' : Mem} {p : Nat} {ip : Inode}

section

variable (h : FsInv sb s m)
include h

theorem FsInv.entsWith (hp : m.heap p = some ip) :
    entsWith sb s.blocks ip.inodeNo ip.entry = entryAt sb s.blocks := by
  rw [h.entry p ip hp, entsWith_entryAt]

theorem FsInv.goodWith (hp : m.heap p = some ip) :
    Good sb (Fs.entsWith sb s.blocks ip.inodeNo ip.entry) s.blocks := by
  rw [h.entsWith hp]
  exact h.good

theorem FsInv.self (hp : m.heap p = some ip) :
    Allocated sb (Fs.entsWith sb s.blocks ip.inodeNo ip.entry) ip.inodeNo := by
  rw [h.entsWith hp]
  exact h.allocated p ip hp

/-- Only the blocks count. -/
theorem FsInv.of_blocks (hblocks : s'.blocks = s.blocks) (hheld : s'.held = []) : FsInv sb s' m :=
  ⟨hheld, hblocks ▸ h.good, h.listed, h.nodup, h.fresh, h.valid, hblocks ▸ h.allocated, hblocks ▸ h.entry, h.unique⟩

section

variable (hp : m.heap p = some ip) (hnext : m'.next = m.next)
  (hentries : ∀ i < sb.numInodes.toNat, i ≠ ip.inodeNo → entryAt sb s'.blocks i = entryAt sb s.blocks i)
  (hfree : s'.held = []) (hgood : Good sb (entryAt sb s'.blocks) s'.blocks)
include hp hnext hentries hfree hgood

/-- One inode in memory, and its entry on the disk, have changed. -/
theorem FsInv.update {ip' : Inode} (hheap : m'.heap = Function.update m.heap p (some ip')) (hhead : m'.head = m.head)
    (hino : ip'.inodeNo = ip.inodeNo) (hvalid : ip'.valid = true)
    (hentry : entryAt sb s'.blocks ip.inodeNo = ip'.entry) (htype : ip'.entry.type ≠ inodeInvalid) : FsInv sb s' m' := by
  have hself : m'.heap p = some ip' := by rw [hheap, update_self]
  have hother : ∀ q, q ≠ p → m'.heap q = m.heap q := fun q hq => by rw [hheap, update_of_ne hq]
  have hsome : ∀ q, (m'.heap q).isSome = (m.heap q).isSome := by
    intro q
    by_cases hq : q = p
    · rw [hq, hself, hp]
      rfl
    · rw [hother q hq]
  -- the inode at another pointer has another number
  have hne : ∀ q iq, q ≠ p → m.heap q = some iq → iq.inodeNo ≠ ip.inodeNo := fun q iq hq hiq he =>
    hq (h.unique q p iq ip hiq hp he)
  have hrange := h.allocated p ip hp
  refine ⟨hfree, hgood, fun q => ?_, hhead ▸ h.nodup, fun q hq => ?_, fun q iq hiq => ?_, fun q iq hiq => ?_,
    fun q iq hiq => ?_, fun q r iq ir hiq hir he => ?_⟩
  · rw [hhead, hsome]
    exact h.listed q
  · rw [hnext]
    exact h.fresh q (by rw [← hsome]; exact hq)
  · by_cases hq : q = p
    · rw [hq, hself] at hiq
      cases hiq
      exact hvalid
    · exact h.valid q iq ((hother q hq).symm.trans hiq)
  · by_cases hq : q = p
    · rw [hq, hself] at hiq
      cases hiq
      rw [hino]
      exact ⟨hrange.1, hrange.2.1, by rw [hentry]; exact htype⟩
    · have hold := (hother q hq).symm.trans hiq
      have ha := h.allocated q iq hold
      exact ⟨ha.1, ha.2.1, by rw [hentries _ ha.2.1 (hne q iq hq hold)]; exact ha.2.2⟩
  · by_cases hq : q = p
    · rw [hq, hself] at hiq
      cases hiq
      rw [hino]
      exact hentry.symm
    · have hold := (hother q hq).symm.trans hiq
      rw [hentries _ (h.allocated q iq hold).2.1 (hne q iq hq hold)]
      exact h.entry q iq hold
  · -- numbers have not changed, so neither has who has which
    have hback : ∀ q iq, m'.heap q = some iq → ∃ iq₀, m.heap q = some iq₀ ∧ iq₀.inodeNo = iq.inodeNo := by
      intro q iq hiq
      by_cases hq : q = p
      · rw [hq, hself] at hiq
        cases hiq
        exact ⟨ip, hq ▸ hp, hino.symm⟩
      · exact ⟨iq, (hother q hq).symm.trans hiq, rfl⟩
    obtain ⟨iq₀, hiq0, hqi⟩ := hback q iq hiq
    obtain ⟨ir₀, hir0, hri⟩ := hback r ir hir
    exact h.unique q r iq₀ ir₀ hiq0 hir0 (hqi.trans (he.trans hri.symm))

/-- One inode has left the memory. -/
theorem FsInv.forget (hheap : m'.heap = Function.update m.heap p none) (hhead : m'.head = m.head.erase p) :
    FsInv sb s' m' := by
  have hself : m'.heap p = none := by rw [hheap, update_self]
  have hother : ∀ q, q ≠ p → m'.heap q = m.heap q := fun q hq => by rw [hheap, update_of_ne hq]
  have hold : ∀ q iq, m'.heap q = some iq → q ≠ p ∧ m.heap q = some iq := by
    intro q iq hiq
    have hq : q ≠ p := by
      rintro rfl
      rw [hself] at hiq
      cases hiq
    exact ⟨hq, (hother q hq).symm.trans hiq⟩
  have hent : ∀ q iq, m'.heap q = some iq → entryAt sb s'.blocks iq.inodeNo = entryAt sb s.blocks iq.inodeNo := by
    intro q iq hiq
    obtain ⟨hq, hiq0⟩ := hold q iq hiq
    exact hentries _ (h.allocated q iq hiq0).2.1 fun he => hq (h.unique q p iq ip hiq0 hp he)
  refine ⟨hfree, hgood, fun q => ?_, hhead ▸ h.nodup.erase p, fun q hq => ?_,
    fun q iq hiq => h.valid q iq (hold q iq hiq).2, fun q iq hiq => ?_, fun q iq hiq => ?_,
    fun q r iq ir hiq hir => h.unique q r iq ir (hold q iq hiq).2 (hold r ir hir).2⟩
  · rw [hhead]
    by_cases hq : q = p
    · rw [hq, hself]
      exact ⟨fun hmem => absurd hmem h.nodup.not_mem_erase, fun hs => by cases hs⟩
    · rw [mem_erase_of_ne hq, hother q hq]
      exact h.listed q
  · rw [hnext]
    obtain ⟨iq, hiq⟩ := Option.isSome_iff_exists.mp hq
    exact h.fresh q (by rw [(hold q iq hiq).2]; rfl)
  · have ha := h.allocated q iq (hold q iq hiq).2
    exact ⟨ha.1, ha.2.1, by rw [hent q iq hiq]; exact ha.2.2⟩
  · rw [hent q iq hiq]
    exact h.entry q iq (hold q iq hiq).2

end

/-- An inode has come into memory. -/
theorem FsInv.load (ha : Allocated sb (entryAt sb s.blocks) ino)
    (hnew : ∀ p ∈ m.head, ∀ ip, m.heap p = some ip → ip.inodeNo ≠ ino) :
    FsInv sb s (m.inserted (Inode.loaded ino (entryAt sb s.blocks ino))) := by
  have hnone : m.heap m.next = none := by
    by_contra hsome
    exact Nat.lt_irrefl _ (h.fresh m.next (Option.isSome_iff_ne_none.mpr hsome))
  let ip := Inode.loaded ino (entryAt sb s.blocks ino)
  have hself : (m.inserted ip).heap m.next = some ip := update_self ..
  have hother : ∀ q, q ≠ m.next → (m.inserted ip).heap q = m.heap q := fun q hq => update_of_ne hq ..
  have hcases : ∀ q iq, (m.inserted ip).heap q = some iq → (q = m.next ∧ iq = ip) ∨ m.heap q = some iq := by
    intro q iq hiq
    by_cases hq : q = m.next
    · rw [hq, hself] at hiq
      exact Or.inl ⟨hq, (Option.some.inj hiq).symm⟩
    · exact Or.inr ((hother q hq).symm.trans hiq)
  have hsomewhere : ∀ q iq, m.heap q = some iq → iq.inodeNo ≠ ino := fun q iq hiq =>
    hnew q ((h.listed q).mpr (by rw [hiq]; rfl)) iq hiq
  refine ⟨h.free, h.good, fun q => ?_, ?_, fun q hq => ?_, fun q iq hiq => ?_, fun q iq hiq => ?_,
    fun q iq hiq => ?_, fun q r iq ir hiq hir he => ?_⟩
  · show q ∈ m.next :: m.head ↔ _
    rw [mem_cons]
    by_cases hq : q = m.next
    · rw [hq, hself]
      exact ⟨fun _ => rfl, fun _ => Or.inl rfl⟩
    · rw [hother q hq, ← h.listed q]
      exact ⟨fun hor => hor.resolve_left hq, Or.inr⟩
  · refine nodup_cons.mpr ⟨fun hmem => ?_, h.nodup⟩
    have := (h.listed _).mp hmem
    rw [hnone] at this
    cases this
  · show q < m.next + 1
    by_cases hq' : q = m.next
    · omega
    · rw [hother q hq'] at hq
      have := h.fresh q hq
      omega
  · rcases hcases q iq hiq with ⟨_, rfl⟩ | hold
    · rfl
    · exact h.valid q iq hold
  · rcases hcases q iq hiq with ⟨_, rfl⟩ | hold
    · exact ha
    · exact h.allocated q iq hold
  · rcases hcases q iq hiq with ⟨_, rfl⟩ | hold
    · rfl
    · exact h.entry q iq hold
  · rcases hcases q iq hiq with ⟨rfl, rfl⟩ | hold
    · rcases hcases r ir hir with ⟨rfl, _⟩ | hold'
      · rfl
      · exact absurd he.symm (hsomewhere r ir hold')
    · rcases hcases r ir hir with ⟨_, rfl⟩ | hold'
      · exact absurd he (hsomewhere q iq hold)
      · exact h.unique q r iq ir hold hold' he

/-- An inode not in use has been taken. -/
theorem FsInv.born {type : InodeType} (hb : Born sb ino type s s') : FsInv sb s' m := by
  have hne : ∀ q iq, m.heap q = some iq → iq.inodeNo ≠ ino := by
    rintro q iq hiq rfl
    exact (h.allocated q iq hiq).2.2 hb.unused
  refine ⟨hb.held, hb.good, h.listed, h.nodup, h.fresh, h.valid, fun q iq hiq => ?_, fun q iq hiq => ?_, h.unique⟩
  · have ha := h.allocated q iq hiq
    exact ⟨ha.1, ha.2.1, by rw [hb.entries _ (hne q iq hiq)]; exact ha.2.2⟩
  · rw [hb.entries _ (hne q iq hiq)]
    exact h.entry q iq hiq

end

end Between

end Armv8Os.Fs
