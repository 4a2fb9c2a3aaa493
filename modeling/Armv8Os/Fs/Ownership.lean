/-
  WHO OWNS A BLOCK.

  An inode stores block numbers in `Slot`s: the direct addresses, the indirect address, and the addresses
  in its indirect block.  `refOf sb ent blocks (ino, slot)` is the number in a slot of an allocated inode,
  `0` if there is none; `ent` gives the entries, which for an inode in memory are not always those on the
  disk.

  `Good sb ent blocks` — the bitmap and the slots agree, in the sense of `Owners.Owned`, over the blocks
  that `cache_alloc` gives away.  The blocks in front of the data area are marked, so that they are not
  given away, and those of the swap area are not.

  Every change the inode layer makes to slots and bits is one of three:
  * a free block is marked and linked into an empty slot (`Ledger.take`);
  * a block is unmarked and its slot cleared (`Ledger.drop`);
  * blocks without slots in them are written (`Ledger.congr`).
-/
import Armv8Os.Lib.Owners
import Armv8Os.Fs.Ondisk

namespace Armv8Os.Fs

open Owners
open Function (update update_eq_self update_of_ne update_self)

/-! ## Slots -/

/-- Where an inode stores block numbers. -/
inductive Slot where
  | direct (i : Fin inodeNumDirect)
  | indirect
  | entry (j : Fin inodeNumIndirect)
  deriving DecidableEq

/-- The block number in a slot, `0` for none. -/
def slotRef (e : InodeEntry) (blocks : Nat → Data) : Slot → Nat
  | .direct i => (e.addrs i).toNat
  | .indirect => e.indirect.toNat
  | .entry j => if e.indirect = 0 then 0 else (addrAt (blocks e.indirect.toNat) j).toNat

theorem toNat_ne_zero {a : UInt32} : a.toNat ≠ 0 ↔ a ≠ 0 :=
  ⟨fun h e => h (by rw [e]; rfl), fun h e => h (UInt32.toNat_inj.mp e)⟩

variable {e : InodeEntry}

theorem slotRef_entry_of_zero (hz : e.indirect = 0) (blocks : Nat → Data)
    (j : Fin inodeNumIndirect) : slotRef e blocks (.entry j) = 0 := if_pos hz

theorem slotRef_entry_of_ne (hz : e.indirect ≠ 0) (blocks : Nat → Data)
    (j : Fin inodeNumIndirect) : slotRef e blocks (.entry j) = (addrAt (blocks e.indirect.toNat) j).toNat :=
  if_neg hz

variable {blocks : Nat → Data} {blocks' : Nat → Data}

/-- Slots depend on the indirect block only. -/
theorem slotRef_congr
    (h : e.indirect ≠ 0 → blocks' e.indirect.toNat = blocks e.indirect.toNat) (sl : Slot) :
    slotRef e blocks' sl = slotRef e blocks sl := by
  cases sl with
  | direct i => rfl
  | indirect => rfl
  | entry j =>
    by_cases hz : e.indirect = 0
    · rw [slotRef_entry_of_zero hz, slotRef_entry_of_zero hz]
    · rw [slotRef_entry_of_ne hz, slotRef_entry_of_ne hz, h hz]

theorem slotRef_setAddr (e : InodeEntry) (blocks : Nat → Data) (i : Fin inodeNumDirect) (a : UInt32)
    (sl : Slot) : slotRef (e.setAddr i a) blocks sl = if sl = .direct i then a.toNat else slotRef e blocks sl := by
  cases sl with
  | direct j =>
    by_cases hj : j = i
    · subst hj
      rw [if_pos rfl]
      exact congrArg UInt32.toNat (update_self ..)
    · rw [if_neg (fun he => hj (Slot.direct.inj he))]
      exact congrArg UInt32.toNat (update_of_ne hj ..)
  | indirect => rfl
  | entry j => rfl

/-- A block of zeros becomes the indirect block. -/
theorem slotRef_setIndirect (hz : e.indirect = 0) (blocks : Nat → Data) {a : UInt32}
    (hzero : blocks a.toNat = Bytes.zero) (sl : Slot) :
    slotRef { e with indirect := a } blocks sl = if sl = .indirect then a.toNat else slotRef e blocks sl := by
  cases sl with
  | direct i => rfl
  | indirect => rfl
  | entry j =>
    have hnew : (addrAt (blocks a.toNat) j).toNat = 0 := by
      rw [hzero, addrAt_zero]
      rfl
    rw [if_neg (by intro h; cases h), slotRef_entry_of_zero hz]
    show (if a = 0 then 0 else (addrAt (blocks a.toNat) j).toNat) = 0
    rw [hnew, ite_self]

/-- An address in the indirect block is replaced. -/
theorem slotRef_setAddrAt (hz : e.indirect ≠ 0) (blocks : Nat → Data)
    (j : Fin inodeNumIndirect) (a : UInt32) (sl : Slot) :
    slotRef e (update blocks e.indirect.toNat (setAddrAt (blocks e.indirect.toNat) j a)) sl
      = if sl = .entry j then a.toNat else slotRef e blocks sl := by
  cases sl with
  | direct i => rfl
  | indirect => rfl
  | entry k =>
    rw [slotRef_entry_of_ne hz, slotRef_entry_of_ne hz, update_self]
    by_cases hk : k = j
    · subst hk
      rw [if_pos rfl, addrAt_setAddrAt _ k.isLt]
    · rw [if_neg (fun he => hk (Slot.entry.inj he)),
        addrAt_setAddrAt_of_ne _ (fun he => hk (Fin.ext he))]

/-- The indirect address is cleared: its block no longer counts. -/
theorem slotRef_clearIndirect (e : InodeEntry) (blocks : Nat → Data) (sl : Slot) :
    slotRef { e with indirect := 0 } blocks sl
      = match sl with
        | .direct i => (e.addrs i).toNat
        | _ => 0 := by
  cases sl with
  | direct i => rfl
  | indirect => rfl
  | entry j => exact slotRef_entry_of_zero rfl ..

/-! ## References of the whole file system -/

/-- An inode in use. -/
def Allocated (sb : SuperBlock) (ent : Nat → InodeEntry) (ino : Nat) : Prop :=
  0 < ino ∧ ino < sb.numInodes.toNat ∧ (ent ino).type ≠ inodeInvalid

instance (sb : SuperBlock) (ent : Nat → InodeEntry) (ino : Nat) : Decidable (Allocated sb ent ino) :=
  inferInstanceAs (Decidable (_ ∧ _ ∧ _))

/-- The block number in a slot of an allocated inode. -/
def refOf (sb : SuperBlock) (ent : Nat → InodeEntry) (blocks : Nat → Data) (i : Nat × Slot) : Nat :=
  if Allocated sb ent i.1 then slotRef (ent i.1) blocks i.2 else 0

variable {ent : Nat → InodeEntry} {sb : SuperBlock} {ino : Nat}

theorem refOf_of_allocated (h : Allocated sb ent ino)
    (blocks : Nat → Data) (sl : Slot) : refOf sb ent blocks (ino, sl) = slotRef (ent ino) blocks sl := if_pos h

variable {ent' : Nat → InodeEntry}

theorem allocated_congr (h : 0 < ino → ino < sb.numInodes.toNat → (ent' ino).type = (ent ino).type) :
    Allocated sb ent' ino ↔ Allocated sb ent ino := by
  constructor
  · rintro ⟨hpos, hlt, htype⟩
    exact ⟨hpos, hlt, h hpos hlt ▸ htype⟩
  · rintro ⟨hpos, hlt, htype⟩
    exact ⟨hpos, hlt, (h hpos hlt).symm ▸ htype⟩

/-- The references of an inode depend on its own entry. -/
theorem refOf_of_entry
    (h : ent' ino = ent ino) (sl : Slot) : refOf sb ent' blocks (ino, sl) = refOf sb ent blocks (ino, sl) := by
  have halloc : Allocated sb ent' ino ↔ Allocated sb ent ino := allocated_congr fun _ _ => by rw [h]
  unfold refOf
  by_cases ha : Allocated sb ent ino
  · rw [if_pos ha, if_pos (halloc.mpr ha), h]
  · rw [if_neg ha, if_neg (fun ha' => ha (halloc.mp ha'))]

/-- The slots of the allocated inodes decide. -/
theorem refOf_congr (halloc : ∀ ino, Allocated sb ent' ino ↔ Allocated sb ent ino)
    (hslots : ∀ ino, Allocated sb ent ino → ∀ sl, slotRef (ent' ino) blocks' sl = slotRef (ent ino) blocks sl) :
    refOf sb ent' blocks' = refOf sb ent blocks := by
  funext i
  unfold refOf
  by_cases h : Allocated sb ent i.1
  · rw [if_pos h, if_pos ((halloc _).mpr h), hslots i.1 h]
  · rw [if_neg h, if_neg (fun h' => h ((halloc _).mp h'))]

/-- One slot of one inode changes. -/
theorem refOf_change {b : Nat}
    {sl : Slot} (hself : Allocated sb ent ino) (halloc : ∀ i, Allocated sb ent' i ↔ Allocated sb ent i)
    (hslot : ∀ sl', slotRef (ent' ino) blocks' sl' = if sl' = sl then b else slotRef (ent ino) blocks sl')
    (hother : ∀ i, i ≠ ino → Allocated sb ent i → ∀ sl', slotRef (ent' i) blocks' sl' = slotRef (ent i) blocks sl') :
    refOf sb ent' blocks' = update (refOf sb ent blocks) (ino, sl) b := by
  funext i
  obtain ⟨n, sl'⟩ := i
  by_cases hn : n = ino
  · subst hn
    rw [refOf_of_allocated ((halloc n).mpr hself), hslot sl']
    by_cases hsl : sl' = sl
    · subst hsl
      rw [if_pos rfl, update_self]
    · rw [if_neg hsl, update_of_ne (fun he => hsl (Prod.ext_iff.mp he).2),
        refOf_of_allocated hself]
  · rw [update_of_ne (fun he => hn (Prod.ext_iff.mp he).1)]
    unfold refOf
    by_cases h : Allocated sb ent n
    · rw [if_pos h, if_pos ((halloc n).mpr h)]
      exact hother n hn h sl'
    · rw [if_neg h, if_neg (fun h' => h ((halloc n).mp h'))]

/-! ## The ledger -/

/-- The references and the bitmap agree. -/
structure Ledger (sb : SuperBlock) (ref : Nat × Slot → Nat) (bit : Nat → Bool) : Prop where
  owned : Owned (DataBlock sb) ref bit
  reserved : ∀ b < dataStart sb, bit b = true
  swapClear : ∀ b, dataStart sb ≤ b → allocLimit sb ≤ b → b < sb.numBlocks.toNat → bit b = false

theorem dataStart_le (sb : SuperBlock) : dataStart sb ≤ sb.numBlocks.toNat := Nat.sub_le ..

section Ledger

variable {sb : SuperBlock} {ref ref' : Nat × Slot → Nat} {bit bit' : Nat → Bool}

theorem Ledger.congr (hl : DiskLayout sb) (h : Ledger sb ref bit) (href : ref' = ref)
    (hbit : ∀ b < sb.numBlocks.toNat, bit' b = bit b) : Ledger sb ref' bit' := by
  refine ⟨h.owned.congr href fun b hb => hbit b (DataBlock.lt_numBlocks hl hb), fun b hb => ?_,
    fun b hdata hlo hhi => ?_⟩
  · rw [hbit b (Nat.lt_of_lt_of_le hb (dataStart_le sb))]
    exact h.reserved b hb
  · rw [hbit b hhi]
    exact h.swapClear b hdata hlo hhi

/-- A free block below the swap area is a data block. -/
theorem Ledger.dataBlock (h : Ledger sb ref bit) {b : Nat} (hlt : b < allocLimit sb) (hfree : bit b = false) :
    DataBlock sb b := by
  refine ⟨Nat.le_of_not_lt fun hb => ?_, hlt⟩
  rw [h.reserved b hb] at hfree
  cases hfree

/-- A free block is marked and linked into an empty slot. -/
theorem Ledger.take (hl : DiskLayout sb) (h : Ledger sb ref bit) {b : Nat} (hA : DataBlock sb b)
    (hfree : bit b = false) {i : Nat × Slot} (hi : ref i = 0) (href : ref' = update ref i b)
    (hbit : ∀ x < sb.numBlocks.toNat, bit' x = update bit b true x) : Ledger sb ref' bit' := by
  refine Ledger.congr hl ⟨h.owned.take hA hfree hi, fun x hx => ?_, fun x hdata hlo hhi => ?_⟩ href hbit
  · by_cases he : x = b
    · rw [he]; exact update_self ..
    · rw [update_of_ne he]
      exact h.reserved x hx
  · rw [update_of_ne (by have := hA.2; omega)]
    exact h.swapClear x hdata hlo hhi

/-- A block is unmarked and its slot cleared. -/
theorem Ledger.drop (hl : DiskLayout sb) (h : Ledger sb ref bit) {i : Nat × Slot} (hi : ref i ≠ 0)
    (href : ref' = update ref i 0)
    (hbit : ∀ x < sb.numBlocks.toNat, bit' x = update bit (ref i) false x) : Ledger sb ref' bit' := by
  refine Ledger.congr hl ⟨h.owned.drop hi, fun x hx => ?_, fun x hdata hlo hhi => ?_⟩ href hbit
  · rw [update_of_ne (by have := (h.owned.area i hi).1; omega)]
    exact h.reserved x hx
  · by_cases he : x = ref i
    · rw [he]; exact update_self ..
    · rw [update_of_ne he]
      exact h.swapClear x hdata hlo hhi

end Ledger

/-! ## Good file systems -/

/-- The blocks that the slots refer to are those that are marked, and none is referred to twice. -/
def Good (sb : SuperBlock) (ent : Nat → InodeEntry) (blocks : Nat → Data) : Prop :=
  Ledger sb (refOf sb ent blocks) (bitAt sb blocks)

/-- The entries, with that of one inode replaced by the one in memory. -/
def entsWith (sb : SuperBlock) (blocks : Nat → Data) (ino : Nat) (e : InodeEntry) : Nat → InodeEntry :=
  update (entryAt sb blocks) ino e

theorem entsWith_self (sb : SuperBlock) (blocks : Nat → Data) (ino : Nat) (e : InodeEntry) :
    entsWith sb blocks ino e ino = e := update_self ..

theorem entsWith_of_ne (sb : SuperBlock) (blocks : Nat → Data) {i : Nat} (h : i ≠ ino) (e : InodeEntry) :
    entsWith sb blocks ino e i = entryAt sb blocks i := update_of_ne h ..

theorem entsWith_entryAt (sb : SuperBlock) (blocks : Nat → Data) (ino : Nat) :
    entsWith sb blocks ino (entryAt sb blocks ino) = entryAt sb blocks := update_eq_self ..

section

variable (h : Good sb ent blocks) (ha : Allocated sb ent ino) {a : Slot}
include h ha

/-- A slot of an allocated inode refers to a data block. -/
theorem Good.dataBlock (hne : slotRef (ent ino) blocks a ≠ 0) : DataBlock sb (slotRef (ent ino) blocks a) := by
  have := h.owned.area (ino, a)
  rw [refOf_of_allocated ha] at this
  exact this hne

theorem Good.marked (hne : slotRef (ent ino) blocks a ≠ 0) :
    bitAt sb blocks (slotRef (ent ino) blocks a) = true := by
  have := h.owned.marked (ino, a)
  rw [refOf_of_allocated ha] at this
  exact this hne

/-- The indirect block of an allocated inode is a marked data block. -/
theorem Good.indirect (hz : (ent ino).indirect ≠ 0) :
    DataBlock sb (ent ino).indirect.toNat ∧ bitAt sb blocks (ent ino).indirect.toNat = true :=
  ⟨h.dataBlock ha (a := .indirect) (toNat_ne_zero.mpr hz), h.marked ha (a := .indirect) (toNat_ne_zero.mpr hz)⟩

/-- Two slots do not share a block. -/
theorem Good.inj {ino' : Nat} (ha' : Allocated sb ent ino') {b : Slot} (hne : slotRef (ent ino) blocks a ≠ 0) (he : slotRef (ent ino) blocks a = slotRef (ent ino') blocks b) :
    ino = ino' ∧ a = b := by
  have := h.owned.inj (ino, a) (ino', b)
  rw [refOf_of_allocated ha, refOf_of_allocated ha'] at this
  exact Prod.ext_iff.mp (this hne he)

end

end Armv8Os.Fs
