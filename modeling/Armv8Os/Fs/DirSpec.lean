/-
  What `inode_lookup` finds.

  `dirEntryAt e B k` is entry `k` of a directory whose bytes are where the inode entry `e` says.  The search
  returns the first entry in use whose name `strncmp` cannot tell from the one looked for
  (`wp_inodeLookup`); it reads no block behind that entry, so nothing is asked of the rest of the directory.

  On names without a NUL, `strncmp` against what `strncpy` has stored is equality of the first 14 characters
  (`strncmp_strncpy`), and an entry is read back from its bytes (`ofBytes_bytes`).
-/
import Armv8Os.Fs.Directory
import Armv8Os.Fs.InodeRefine
import Armv8Os.Fs.InodeSpec

namespace Armv8Os.Fs

open Prog Simulation List

/-! ## Names -/

/-- The characters of a C string. -/
def NoNul (s : List UInt8) : Prop := ∀ c ∈ s, c ≠ 0

theorem NoNul.tail {c : UInt8} {s : List UInt8} (h : NoNul (c :: s)) : NoNul s :=
  fun d hd => h d (mem_cons_of_mem c hd)

theorem length_strncpy (n : Nat) (s : List UInt8) : (strncpy n s).length = n := by
  induction n generalizing s with
  | zero => rfl
  | succ n ih =>
    unfold strncpy
    split
    · exact length_replicate
    · rw [length_cons, ih]

theorem toNat_sub_ne_zero {c d : UInt8} (h : c ≠ d) : (c.toNat : Int) - d.toNat ≠ 0 := by
  intro he
  apply h
  apply UInt8.toNat_inj.mp
  omega

/-- `strncmp` of a name against a stored one. -/
theorem strncmp_strncpy (n : Nat) {s t : List UInt8} (hs : NoNul s) (ht : NoNul t) :
    strncmp n s (strncpy n t) = 0 ↔ s.take n = t.take n := by
  induction n generalizing s t with
  | zero => exact ⟨fun _ => rfl, fun _ => rfl⟩
  | succ n ih =>
    cases t with
    | nil =>
      -- what is stored begins with a NUL
      cases s with
      | nil => exact ⟨fun _ => rfl, fun _ => rfl⟩
      | cons c s =>
        have hc : c ≠ 0 := hs c (mem_cons_self ..)
        constructor
        · intro h
          exact absurd h (by simpa [strncmp, strncpy, replicate_succ, hc] using toNat_sub_ne_zero hc)
        · intro h
          cases h
    | cons d t =>
      have hd : d ≠ 0 := ht d (mem_cons_self ..)
      have hstored : strncpy (n + 1) (d :: t) = d :: strncpy n t := if_neg hd
      rw [hstored]
      cases s with
      | nil =>
        constructor
        · intro h
          exact absurd h (by simpa [strncmp, hd.symm] using toNat_sub_ne_zero hd.symm)
        · intro h
          cases h
      | cons c s =>
        by_cases hcd : c = d
        · subst hcd
          have hstep : strncmp (n + 1) (c :: s) (c :: strncpy n t) = strncmp n s (strncpy n t) := by
            simp [strncmp, hd]
          rw [hstep, ih hs.tail ht.tail, take_succ_cons, take_succ_cons, cons.injEq]
          exact ⟨fun h => ⟨rfl, h⟩, fun h => h.2⟩
        · constructor
          · intro h
            exact absurd h (by simpa [strncmp, hcd] using toNat_sub_ne_zero hcd)
          · intro h
            exact absurd (cons.inj h).1 hcd

/-- Names that fit into an entry are told apart. -/
theorem strncmp_stored {s t : List UInt8} (hs : NoNul s) (ht : NoNul t) (hsl : s.length ≤ fileNameMaxLength)
    (htl : t.length ≤ fileNameMaxLength) :
    strncmp fileNameMaxLength s (strncpy fileNameMaxLength t) = 0 ↔ s = t := by
  rw [strncmp_strncpy _ hs ht, take_of_length_le hsl, take_of_length_le htl]

/-! ## Entries -/

theorem length_bytes {d : DirEntry} (h : d.name.length = fileNameMaxLength) : d.bytes.length = dirEntrySize := by
  unfold DirEntry.bytes
  rw [length_cons, length_cons, h]
  rfl

/-- An entry is read back. -/
theorem ofBytes_bytes {d : DirEntry} (h : d.name.length = fileNameMaxLength) : DirEntry.ofBytes d.bytes = d := by
  have hlt : d.inodeNo.toNat < 65536 := d.inodeNo.toNat_lt
  have hno : (UInt8.ofNat (d.inodeNo.toNat % 256)).toNat + 256 * (UInt8.ofNat (d.inodeNo.toNat / 256)).toNat
      = d.inodeNo.toNat := by
    rw [UInt8.toNat_ofNat', UInt8.toNat_ofNat']
    omega
  have hname : d.name.take fileNameMaxLength = d.name := take_of_length_le h.le
  show ({ inodeNo := UInt16.ofNat _, name := d.name.take fileNameMaxLength } : DirEntry) = d
  rw [hname]
  show ({ inodeNo := UInt16.ofNat (_ + 256 * _), name := d.name } : DirEntry) = d
  simp only [DirEntry.bytes, getD_cons_zero, getD_cons_succ]
  rw [hno, UInt16.ofNat_toNat]

/-- Entry `k` of a directory. -/
def dirEntryAt (e : InodeEntry) (B : Nat → Data) (k : Nat) : DirEntry :=
  DirEntry.ofBytes ((List.range dirEntrySize).map fun j => byteAt e B (dirEntrySize * k + j))

/-- An entry is found where its bytes are. -/
theorem dirEntryAt_eq {e : InodeEntry} {B : Nat → Data} {k : Nat} {d : DirEntry}
    (hname : d.name.length = fileNameMaxLength)
    (hbytes : ∀ j < dirEntrySize, byteAt e B (dirEntrySize * k + j) = d.bytes.getD j 0) : dirEntryAt e B k = d := by
  have hlist : ((List.range dirEntrySize).map fun j => byteAt e B (dirEntrySize * k + j)) = d.bytes := by
    apply ext_getElem
    · rw [length_map, length_range, length_bytes hname]
    · intro j h1 h2
      rw [getElem_map, getElem_range, hbytes j (by simpa using h1), getD_eq_getElem?_getD,
        getElem?_eq_getElem h2]
      rfl
  unfold dirEntryAt
  rw [hlist, ofBytes_bytes hname]

/-- The bytes of entries one after another. -/
theorem getD_flatMap_bytes {ds : List DirEntry} (hds : ∀ d ∈ ds, d.name.length = fileNameMaxLength) {k : Nat}
    {d : DirEntry} (hk : ds[k]? = some d) {j : Nat} (hj : j < dirEntrySize) :
    (ds.flatMap DirEntry.bytes).getD (dirEntrySize * k + j) 0 = d.bytes.getD j 0 := by
  induction ds generalizing k with
  | nil => cases hk
  | cons c ds ih =>
    have hlen := length_bytes (hds c (mem_cons_self ..))
    rw [flatMap_cons]
    cases k with
    | zero =>
      obtain rfl : c = d := Option.some.inj hk
      rw [Nat.mul_zero, Nat.zero_add, getD_append _ _ _ _ (by omega)]
    | succ k =>
      rw [getD_append_right _ _ _ _ (by rw [hlen, Nat.mul_succ]; omega), hlen,
        show dirEntrySize * (k + 1) + j - dirEntrySize = dirEntrySize * k + j from by rw [Nat.mul_succ]; omega]
      exact ih (fun d hd => hds d (mem_cons_of_mem c hd)) hk

/-- The test of `inode_lookup`. -/
def Matches (name : List UInt8) (d : DirEntry) : Prop :=
  d.inodeNo ≠ 0 ∧ strncmp fileNameMaxLength name d.name = 0

instance (name : List UInt8) (d : DirEntry) : Decidable (Matches name d) := inferInstanceAs (Decidable (_ ∧ _))

/-! ## The search -/

section Search

variable {sb : SuperBlock} (hl : DiskLayout sb) {E : Stop → Prop} {s : Store} {m : Mem} {p : Nat} {ip : Inode}
  (hp : m.heap p = some ip) (htype : ip.entry.type = inodeDirectory)
  (hmax : ip.entry.numBytes.toNat ≤ inodeMaxBytes)

include hl hp htype hmax

section

variable (hg : Good sb (entsWith sb s.blocks ip.inodeNo ip.entry) s.blocks)
  (hself : Allocated sb (entsWith sb s.blocks ip.inodeNo ip.entry) ip.inodeNo) (hheld : s.held = [])
include hg hself hheld

theorem wp_readDirEntry {Q : DirEntry → Store × Mem → Prop} {offset : UInt64} {k : Nat}
    (hoff : offset.toNat = dirEntrySize * k) (hk : dirEntrySize * (k + 1) ≤ ip.entry.numBytes.toNat)
    (hthere : ∀ i < dirEntrySize * (k + 1), blockOf ip.entry s.blocks i ≠ 0)
    (hQ : ∀ s', s'.blocks = s.blocks → s'.held = [] → SameOps s s' → Q (dirEntryAt ip.entry s.blocks k) (s', m)) :
    wp (readDirEntry (store sb) sb p offset) Q E (s, m) := by
  have hsize : (UInt64.ofNat dirEntrySize).toNat = dirEntrySize := by decide
  have hcount : dirEntrySize * (k + 1) = offset.toNat + dirEntrySize := by rw [hoff, Nat.mul_succ]
  have hnum : ip.entry.numBytes.toNat < 2 ^ 32 := ip.entry.numBytes.toNat_lt
  unfold readDirEntry
  rw [wp_bind]
  refine wp_inodeRead hl hp (by rw [htype]; decide) hg hself hheld hmax (fun i _ hi _ => hthere i ?_)
    (by omega) (by rw [hsize]; omega) fun s' r hb hf hops hr => ?_
  · rw [hsize] at hi
    omega
  have hr' : r.toNat = dirEntrySize := by
    rw [hr, hsize]
    omega
  rw [wp_bind, wp_assert]
  constructor
  · intro _
    rw [wp_pure, hr', hoff]
    exact hQ s' hb hf hops
  · intro hne
    refine absurd ?_ (beq_eq_false_iff_ne.mp hne)
    exact UInt64.toNat_inj.mp (hr'.trans hsize.symm)

variable {Q : Option (Nat × UInt64) → Store × Mem → Prop} {name : List UInt8} {k : Nat}
  (hk : dirEntrySize * (k + 1) ≤ ip.entry.numBytes.toNat)
  (hthere : ∀ b < dirEntrySize * (k + 1), blockOf ip.entry s.blocks b ≠ 0)
  (hskip : ∀ j < k, ¬ Matches name (dirEntryAt ip.entry s.blocks j)) (hmatch : Matches name (dirEntryAt ip.entry s.blocks k))
  (hQ : ∀ s', s'.blocks = s.blocks → s'.held = [] → SameOps s s' →
    Q (some ((dirEntryAt ip.entry s.blocks k).inodeNo.toNat, UInt64.ofNat (dirEntrySize * k))) (s', m))
include hk hthere hskip hmatch hQ

/-- The loop passes the entries before the first that matches. -/
theorem wp_lookupLoop {i fuel : Nat} (hik : i ≤ k) (hfuel : k < i + fuel) :
    wp (lookupLoop (store sb) sb p name fuel (UInt64.ofNat (dirEntrySize * i))) Q E (s, m) := by
  have hnum : ip.entry.numBytes.toNat < 2 ^ 32 := ip.entry.numBytes.toNat_lt
  -- on the rounds that are left; the blocks stay what they are
  induction fuel generalizing s i with
  | zero => omega
  | succ fuel ih =>
    have hmul : dirEntrySize * (i + 1) ≤ dirEntrySize * (k + 1) := Nat.mul_le_mul_left _ (by omega)
    have hsucc : dirEntrySize * (i + 1) = dirEntrySize * i + dirEntrySize := Nat.mul_succ ..
    have hpos : 0 < dirEntrySize := by decide
    have hoff : (UInt64.ofNat (dirEntrySize * i)).toNat = dirEntrySize * i :=
      UInt64.toNat_ofNat_of_lt' (show dirEntrySize * i < 2 ^ 64 by omega)
    have hlt : UInt64.ofNat (dirEntrySize * i) < ip.entry.numBytes.toUInt64 := by
      rw [UInt64.lt_iff_toNat_lt, hoff, UInt32.toNat_toUInt64]
      omega
    unfold lookupLoop
    rw [wp_bind, wp_onSnd]
    refine Mem.wp_deref hp ?_
    rw [if_pos hlt, wp_bind]
    refine wp_readDirEntry hl hp htype hmax hg hself hheld hoff (by omega) (fun b hb => hthere b (by omega))
      fun s₁ hb1 hheld1 hops1 => ?_
    rw [wp_ite]
    constructor
    · intro hfound
      obtain rfl : i = k := by
        by_contra hne
        exact hskip i (by omega) hfound
      exact hQ s₁ hb1 hheld1 hops1
    · intro hno
      have hlast : i ≠ k := fun he => hno (he ▸ hmatch)
      have hnext : UInt64.ofNat (dirEntrySize * i) + UInt64.ofNat dirEntrySize
          = UInt64.ofNat (dirEntrySize * (i + 1)) := by
        rw [hsucc, UInt64.ofNat_add]
      rw [hnext]
      rw [← hb1] at hg hself hthere hskip hmatch hQ
      exact ih hg hself hheld1 hthere hskip hmatch (fun s' hb hheld' hops' => hQ s' hb hheld' (hops1.trans hops'))
        (by omega) (by omega)

/-- **`inode_lookup`** returns the first entry that matches. -/
theorem wp_inodeLookup :
    wp (inodeLookup (store sb) sb p name) Q E (s, m) := by
  unfold inodeLookup
  rw [wp_bind, wp_onSnd]
  refine Mem.wp_deref hp ?_
  rw [wp_bind, wp_assert]
  constructor
  · intro _
    refine wp_lookupLoop hl hp htype hmax (i := 0) hg hself hheld hk hthere hskip hmatch hQ (Nat.zero_le k) ?_
    unfold numEntries
    simp only [dirEntrySize] at hk ⊢
    omega
  · intro hne
    exact absurd htype (beq_eq_false_iff_ne.mp hne)

end

end Search

/-! ## Over two caches -/

section Refine

variable {σ τ : Type} {R : σ → τ → Prop} {U : Stop → Prop} {cache : BlockCache σ} {cache' : BlockCache τ}
  (h : CacheSim R U cache cache') (sb : SuperBlock)

include h

theorem readDirEntry_sim (p : Nat) (offset : UInt64) :
    Sim (Half R) U (readDirEntry cache sb p offset) (readDirEntry cache' sb p offset) :=
  .bind (inodeRead_sim h sb p offset _ none) fun _ => .bind (.assert _ _) fun _ => .pure _

theorem lookupLoop_sim (p : Nat) (name : List UInt8) (fuel : Nat) (offset : UInt64) :
    Sim (Half R) U (lookupLoop cache sb p name fuel offset) (lookupLoop cache' sb p name fuel offset) := by
  induction fuel generalizing offset with
  | zero => exact .pure _
  | succ fuel ih =>
    exact .bind (.onSnd _) fun _ => .ite
      (.bind (readDirEntry_sim h sb p offset) fun _ => .ite (.pure _) (ih _)) (.pure _)

theorem inodeLookup_sim (p : Nat) (name : List UInt8) :
    Sim (Half R) U (inodeLookup cache sb p name) (inodeLookup cache' sb p name) :=
  .bind (.onSnd _) fun _ => .bind (.assert _ _) fun _ => lookupLoop_sim h sb p name _ _

end Refine

end Armv8Os.Fs
