/-
  A FILE IS A BYTE ARRAY.

  The abstract file system is a list of bytes for each inode number.  `writeAt` replaces a part of a list, and
  may extend it; this is all a client of `inode_write` needs to know.

  1. **One write** (`write_file`).  The bytes below the size are where `dataSlot` says, in blocks that no other
     file has (`Good`), and there are no holes (`Full`): so `FileWritten` reads as `writeAt` on the file written
     and as nothing at all on the others.
  2. **A sequence** (`writes_files`), by induction: the files are those of the abstract file system, and what is
     needed for the next write holds again.
  3. **The block cache** (`file_refines_bytes`), by the refinement of `Fs.InodeRefine`; a read of the state that
     is left returns, with the bytes of the abstract file.
-/
import Armv8Os.Fs.BlockOwnership

namespace Armv8Os.Fs.Files

open Prog Simulation Transition Fs.Blocks List

/-! ## The abstract file system -/

/-- `count` bytes of `src` written at `offset`. -/
def writeAt (old : List UInt8) (offset count : Nat) (src : Nat → UInt8) : List UInt8 :=
  (List.range (max old.length (offset + count))).map fun i =>
    if offset ≤ i ∧ i < offset + count then src (i - offset) else old.getD i 0

/-- A call of `inode_write`. -/
structure Write where
  ctx : Option Nat
  p : Nat
  src : Nat → UInt8
  offset : UInt64
  count : UInt64

/-- The inode behind a pointer, if it is not a device. -/
def fileAt (m : Mem) (p : Nat) : Option Nat :=
  (m.heap p).bind fun ip => if ip.entry.type = inodeDevice then none else some ip.inodeNo

/-- A write on the abstract files; `none` if it does not start inside the file or ends beyond the largest
    size. -/
def absWrite (file : Nat → Option Nat) (files : Nat → List UInt8) (w : Write) : Option (Nat → List UInt8) :=
  match file w.p with
  | none => none
  | some ino =>
    if w.offset.toNat ≤ (files ino).length ∧ w.offset.toNat + w.count.toNat ≤ inodeMaxBytes then
      some (Function.update files ino (writeAt (files ino) w.offset.toNat w.count.toNat w.src))
    else none

/-- A piece of a list given by a function. -/
theorem take_drop_range {α : Type} (f : Nat → α) (size o n : Nat) :
    (((List.range size).map f).drop o).take n = (List.range (min n (size - o))).map fun j => f (o + j) := by
  apply ext_getElem
  · simp
  · intro i h1 h2
    simp

/-! ## Files on the disk -/

/-- The contents of a file. -/
def fileOf (sb : SuperBlock) (blocks : Nat → Data) (ino : Nat) : List UInt8 :=
  (List.range (entryAt sb blocks ino).numBytes.toNat).map (byteAt (entryAt sb blocks ino) blocks)

/-- No file is too long or has a hole. -/
def Full (sb : SuperBlock) (blocks : Nat → Data) : Prop :=
  ∀ ino, Allocated sb (entryAt sb blocks) ino → (entryAt sb blocks ino).numBytes.toNat ≤ inodeMaxBytes ∧
    ∀ i < (entryAt sb blocks ino).numBytes.toNat, blockOf (entryAt sb blocks ino) blocks i ≠ 0

theorem length_fileOf (sb : SuperBlock) (blocks : Nat → Data) (ino : Nat) :
    (fileOf sb blocks ino).length = (entryAt sb blocks ino).numBytes.toNat := by
  unfold fileOf
  rw [length_map, length_range]

theorem getD_fileOf {sb : SuperBlock} {blocks : Nat → Data} {ino i : Nat}
    (hi : i < (entryAt sb blocks ino).numBytes.toNat) :
    (fileOf sb blocks ino).getD i 0 = byteAt (entryAt sb blocks ino) blocks i := by
  unfold fileOf
  rw [getD_eq_getElem?_getD, getElem?_map, getElem?_range hi]
  rfl

/-- A file depends on its entry, on where its bytes are, and on the blocks there. -/
theorem fileOf_congr {sb : SuperBlock} {B B' : Nat → Data} {ino : Nat} (hent : entryAt sb B' ino = entryAt sb B ino)
    (hblock : ∀ i < (entryAt sb B ino).numBytes.toNat,
      blockOf (entryAt sb B ino) B' i = blockOf (entryAt sb B ino) B i)
    (hdata : ∀ i < (entryAt sb B ino).numBytes.toNat,
      B' (blockOf (entryAt sb B ino) B i) = B (blockOf (entryAt sb B ino) B i)) :
    fileOf sb B' ino = fileOf sb B ino := by
  unfold fileOf
  rw [hent]
  refine map_congr_left fun i hi => ?_
  have hi' := mem_range.mp hi
  unfold byteAt
  rw [hblock i hi', hdata i hi']

section Write

variable {sb : SuperBlock} {ino off n : Nat} {B B' : Nat → Data} {e' : InodeEntry} {src : Nat → UInt8}

variable (h : FileWritten sb ino B (entryAt sb B ino) off n src B' e')
include h

/-- Another file. -/
theorem fileOf_other (hfull : Full sb B) {i : Nat} (hi : i ≠ ino) (ha : Allocated sb (entryAt sb B) i) : fileOf sb B' i = fileOf sb B i := by
  have ha' : Allocated sb (entsWith sb B ino (entryAt sb B ino)) i := by rw [entsWith_entryAt]; exact ha
  refine fileOf_congr (h.entries i ha.2.1 hi) (fun k _ => h.slots i hi ha' _) fun k hk => ?_
  exact h.content i hi ha' _ (dataSlot_ne_indirect _) ((hfull i ha).2 k hk)

theorem allocated_written (i : Nat) : Allocated sb (entryAt sb B') i ↔ Allocated sb (entryAt sb B) i := by
  refine allocated_congr fun _ hlt => ?_
  by_cases hi : i = ino
  · subst hi
    rw [h.entry, h.type]
  · rw [h.entries i hlt hi]

variable (hfull : Full sb B) (ha : Allocated sb (entryAt sb B) ino) (hoff : off ≤ (entryAt sb B ino).numBytes.toNat)
  (hmax : off + n ≤ inodeMaxBytes)
include hfull ha hoff hmax

/-- The file that is written. -/
theorem fileOf_written : fileOf sb B' ino = writeAt (fileOf sb B ino) off n src := by
  have hsize := (hfull ino ha).1
  unfold writeAt
  rw [length_fileOf]
  unfold fileOf
  rw [h.entry, h.size]
  refine map_congr_left fun i hi => ?_
  have hi' := mem_range.mp hi
  have hor : blockOf (entryAt sb B ino) B i ≠ 0 ∨ (off ≤ i ∧ i < off + n) := by
    by_cases hlt : i < (entryAt sb B ino).numBytes.toNat
    · exact .inl ((hfull ino ha).2 i hlt)
    · exact .inr (by omega)
  rw [(h.bytes i (by omega) hor).2]
  by_cases hin : off ≤ i ∧ i < off + n
  · rw [if_pos hin, if_pos hin]
  · rw [if_neg hin, if_neg hin]
    exact (getD_fileOf (by omega)).symm

theorem full_written : Full sb B' := by
  intro i hi
  have hi0 := (allocated_written h i).mp hi
  by_cases he : i = ino
  · subst he
    have hsize := (hfull i ha).1
    rw [h.entry, h.size]
    refine ⟨by omega, fun k hk => (h.bytes k (by omega) ?_).1⟩
    by_cases hlt : k < (entryAt sb B i).numBytes.toNat
    · exact .inl ((hfull i ha).2 k hlt)
    · exact .inr (by omega)
  · have ha' : Allocated sb (entsWith sb B ino (entryAt sb B ino)) i := by rw [entsWith_entryAt]; exact hi0
    rw [h.entries i hi0.2.1 he]
    refine ⟨(hfull i hi0).1, fun k hk => ?_⟩
    show slotRef _ _ _ ≠ 0
    rw [h.slots i he ha']
    exact (hfull i hi0).2 k hk

end Write

/-! ## Writing on the array -/

/-- What holds of the array and the memory, with the files they stand for. -/
structure Stands (sb : SuperBlock) (file : Nat → Option Nat) (files : Nat → List UInt8) (st : Store × Mem) :
    Prop where
  inv : FsInv sb st.1 st.2
  full : Full sb st.1.blocks
  file : fileAt st.2 = file
  files : ∀ ino, Allocated sb (entryAt sb st.1.blocks) ino → fileOf sb st.1.blocks ino = files ino

section Array

variable {sb : SuperBlock} (hl : DiskLayout sb) {file : Nat → Option Nat} {files files' : Nat → List UInt8}
  {st : Store × Mem} {E : Stop → Prop}

include hl

/-- **One write.** -/
theorem write_file (h : Stands sb file files st) {w : Write} (habs : absWrite file files w = some files')
    (hE : Tolerates E w.ctx st.1) :
    wp (inodeWrite (store sb) sb w.ctx w.p w.src w.offset w.count)
      (fun r st' => r = w.count ∧ Stands sb file files' st' ∧ SameOps st.1 st'.1) E st := by
  obtain ⟨t, m⟩ := st
  have hinv := h.inv
  unfold absWrite at habs
  rw [← h.file] at habs
  unfold fileAt at habs
  cases hp : m.heap w.p with
  | none => rw [hp] at habs; cases habs
  | some ip =>
    rw [hp] at habs
    by_cases hdev : ip.entry.type = inodeDevice
    · simp [hdev] at habs
    · simp only [Option.bind_some, if_neg hdev] at habs
      obtain ⟨hperm, rfl⟩ := of_guard habs
      have ha := hinv.allocated _ ip hp
      have hent := hinv.entry _ ip hp
      obtain ⟨hoff, hmax⟩ := hperm
      rw [← h.files _ ha, length_fileOf] at hoff
      refine wp_inodeWrite hl hp hdev (hinv.valid _ ip hp) (hinv.goodWith hp) (hinv.self hp) hinv.free hE
        (fun hno => absurd ⟨by rw [hent]; exact hoff, hmax⟩ hno) fun s' e' hw hheld hops => ⟨rfl, ?_, hops⟩
      rw [hent] at hw
      refine ⟨?_, full_written hw h.full ha hoff hmax, ?_, fun i hi => ?_⟩
      · refine hinv.update hp rfl hw.entries hheld hw.good rfl rfl rfl (hinv.valid _ ip hp) hw.entry ?_
        show e'.type ≠ _
        rw [hw.type]
        exact ha.2.2
      · rw [← h.file]
        funext q
        unfold fileAt
        by_cases hq : q = w.p
        · rw [hq, Mem.heap_write_self, hp, Option.bind_some, Option.bind_some, hw.type, ← hent]
        · rw [Mem.heap_write_of_ne _ hq]
      · have hi0 := (allocated_written hw i).mp hi
        by_cases he : i = ip.inodeNo
        · subst he
          rw [Function.update_self, ← h.files _ ha]
          exact fileOf_written hw h.full ha hoff hmax
        · rw [Function.update_of_ne he, ← h.files i hi0]
          exact fileOf_other hw h.full he hi0

end Array

/-- Writes one after another; the values they return. -/
def writes {σ : Type} (cache : BlockCache σ) (sb : SuperBlock) : List Write → FsM σ (List UInt64)
  | [] => pure []
  | w :: ws => do
    let n ← inodeWrite cache sb w.ctx w.p w.src w.offset w.count
    let ns ← writes cache sb ws
    pure (n :: ns)

theorem writes_sim {σ τ : Type} {R : σ → τ → Prop} {U : Stop → Prop} {cache : BlockCache σ}
    {cache' : BlockCache τ} (h : CacheSim R U cache cache') (sb : SuperBlock) (ws : List Write) :
    Sim (Half R) U (writes cache sb ws) (writes cache' sb ws) := by
  induction ws with
  | nil => exact Sim.pure _
  | cons w ws ih =>
    exact Sim.bind (inodeWrite_sim h sb w.ctx w.p w.src w.offset w.count) fun _ => Sim.bind ih fun _ => Sim.pure _

/-- Out of free blocks, or out of log budget. -/
def Short (e : Stop) : Prop := e = .noSpace ∨ e = .noBudget

section Sequence

variable {sb : SuperBlock} (hl : DiskLayout sb) {file : Nat → Option Nat} {files files' : Nat → List UInt8}
  {st : Store × Mem}

include hl

/-- **A sequence of writes.** -/
theorem writes_files {ws : List Write} (h : Stands sb file files st)
    (habs : run (absWrite file) files ws = some files') (hctx : ∀ w ∈ ws, Runs st.1 w.ctx) :
    wp (writes (store sb) sb ws) (fun ns st' => ns = ws.map Write.count ∧ Stands sb file files' st') Short st := by
  induction ws generalizing st files with
  | nil =>
    obtain rfl : files = files' := by simpa using habs
    exact ⟨rfl, h⟩
  | cons w ws ih =>
    obtain ⟨files₁, habs1, hrest⟩ := run_cons_eq_some.mp habs
    have hE : Tolerates Short w.ctx st.1 := ⟨.inl rfl, .inr rfl, .inl (hctx w (mem_cons_self ..))⟩
    unfold writes
    rw [wp_bind]
    refine wp_imp (write_file hl h habs1 hE) ?_
    rintro n st₁ ⟨rfl, h1, hops⟩
    rw [wp_bind]
    have hctx1 : ∀ v ∈ ws, Runs st₁.1 v.ctx := fun v hv c hc => by
      rw [hops c]
      exact hctx v (mem_cons_of_mem _ hv) c hc
    refine wp_imp (ih h1 hrest hctx1) ?_
    rintro ns st₂ ⟨rfl, h2⟩
    exact ⟨rfl, h2⟩

/-- A read of the array returns the bytes of the file. -/
theorem read_file (h : Stands sb file files st) {p ino : Nat} (hp : file p = some ino) {o n : UInt64}
    (con : Option (List UInt8)) (ho : o.toNat ≤ (files ino).length) (hwrap : o.toNat + n.toNat < 2 ^ 64) :
    ∃ r st', inodeRead (store sb) sb p o n con st = .ok ((r, ((files ino).drop o.toNat).take n.toNat), st') ∧
      r.toNat = min n.toNat ((files ino).length - o.toNat) := by
  obtain ⟨t, m⟩ := st
  rw [← h.file] at hp
  obtain ⟨ip, hip, hif⟩ := Option.bind_eq_some_iff.mp hp
  split at hif
  · cases hif
  · rename_i hdev
    cases hif
    have ha := h.inv.allocated _ ip hip
    have hent := h.inv.entry _ ip hip
    have hfull := h.full _ ha
    have hfile := h.files _ ha
    rw [← hfile, length_fileOf] at ho
    obtain ⟨⟨r, bytes⟩, st', hread, hr, hbytes⟩ := exists_of_wp (wp_inodeRead hl (E := fun _ => False) (c := con)
      (Q := fun r st' => r.1.toNat = min n.toNat (ip.entry.numBytes.toNat - o.toNat) ∧
        r.2 = (List.range r.1.toNat).map fun j => byteAt ip.entry t.blocks (o.toNat + j)) hip hdev
      (h.inv.goodWith hip) (h.inv.self hip) h.inv.free (by rw [hent]; exact hfull.1)
      (fun i _ _ hi => by rw [hent] at hi ⊢; exact hfull.2 i hi) (by rw [hent]; exact ho) hwrap
      fun s' r _ _ _ hr => ⟨hr, rfl⟩)
    simp only at hr hbytes
    refine ⟨r, st', ?_, ?_⟩
    · rw [hread, hbytes, hr, ← hfile]
      unfold fileOf
      rw [← hent, take_drop_range]
    · rw [hr, ← hfile, length_fileOf, hent]

end Sequence

/-! ## Writing on the block cache -/

section View

variable {sb : SuperBlock} (hl : DiskLayout sb) {B B' : Nat → Data} (hsame : ∀ b, ¬ Cache.InLog sb b → B' b = B b)
  (hg : Good sb (entryAt sb B) B)

include hl hsame

theorem entryAt_view : entryAt sb B' = entryAt sb B := by
  funext i
  unfold entryAt
  rw [hsame _ (not_inLog_inode hl i)]

include hg

theorem blockOf_view {ino : Nat} (ha : Allocated sb (entryAt sb B) ino) (i : Nat) :
    blockOf (entryAt sb B ino) B' i = blockOf (entryAt sb B ino) B i :=
  slotRef_congr (fun hz => hsame _ (not_inLog_data hl (hg.indirect ha hz).1.1)) _

/-- Files and their sizes are the same for whoever sees the same blocks outside the log. -/
theorem full_view (hfull : Full sb B) : Full sb B' := by
  intro ino ha
  rw [entryAt_view hl hsame] at ha ⊢
  refine ⟨(hfull ino ha).1, fun i hi => ?_⟩
  rw [blockOf_view hl hsame hg ha]
  exact (hfull ino ha).2 i hi

theorem fileOf_view (hfull : Full sb B) {ino : Nat} (ha : Allocated sb (entryAt sb B) ino) :
    fileOf sb B' ino = fileOf sb B ino := by
  refine fileOf_congr (by rw [entryAt_view hl hsame]) (fun i _ => blockOf_view hl hsame hg ha i) fun i hi => ?_
  exact hsame _ (not_inLog_data hl (hg.dataBlock ha ((hfull ino ha).2 i hi)).1)

end View

/-- A state of the file system between two calls: the inode layer is sound and no file has a hole. -/
def WellFormed (sb : SuperBlock) (s : Cache.State × Mem) : Prop := Sound sb s ∧ Full sb s.1.cur

section Cached

variable {sb : SuperBlock} (hl : DiskLayout sb) {s : Cache.State × Mem}

include hl

/-- The array behind a well-formed state stands for its files. -/
theorem WellFormed.stands (h : WellFormed sb s) : ∃ t, Abs sb s.1 t ∧
    Stands sb (fileAt s.2) (fileOf sb s.1.cur) (t, s.2) := by
  obtain ⟨⟨t, habs, hinv⟩, hfull⟩ := h
  have hsame : ∀ b, ¬ Cache.InLog sb b → t.blocks b = s.1.cur b := fun b hb => (habs.value b hb).symm
  have hg : Good sb (entryAt sb s.1.cur) s.1.cur := Good.view hl habs.value hinv.good
  refine ⟨t, habs, hinv, full_view hl hsame hg hfull, rfl, fun ino ha => ?_⟩
  rw [entryAt_view hl hsame] at ha
  exact fileOf_view hl hsame hg hfull ha

theorem Stands.wellFormed {t : Store} {file : Nat → Option Nat} {files : Nat → List UInt8} (habs : Abs sb s.1 t)
    (h : Stands sb file files (t, s.2)) : WellFormed sb s ∧
      ∀ ino, Allocated sb (entryAt sb s.1.cur) ino → fileOf sb s.1.cur ino = files ino := by
  refine ⟨⟨⟨t, habs, h.inv⟩, full_view hl habs.value h.inv.good h.full⟩, fun ino ha => ?_⟩
  rw [entryAt_view hl habs.value] at ha
  rw [fileOf_view hl habs.value h.inv.good h.full ha]
  exact h.files ino ha

end Cached

/-- A read whose range wraps around stops at an assertion, over any cache. -/
theorem inodeRead_wraps {σ : Type} (cache : BlockCache σ) (sb : SuperBlock) {st : σ × Mem} {p : Nat} {ip : Inode}
    {o n : UInt64} (con : Option (List UInt8)) (hp : st.2.heap p = some ip) (hdev : ip.entry.type ≠ inodeDevice)
    (ho : o.toNat ≤ ip.entry.numBytes.toNat) (hwrap : 2 ^ 64 ≤ o.toNat + n.toNat) :
    inodeRead cache sb p o n con st = .error .panic := by
  have hn := n.toNat_lt
  have ho' := o.toNat_lt
  have hsize := ip.entry.numBytes.toNat_toUInt64
  have hsum : (n + o).toNat = o.toNat + n.toNat - 2 ^ 64 := by
    rw [UInt64.toNat_add]
    omega
  have hkeep : ¬ ip.entry.numBytes.toUInt64 < n + o := fun hlt => by
    have := UInt64.lt_iff_toNat_lt.mp hlt
    omega
  have hlast : ¬ o ≤ o + n := fun hle => by
    have := UInt64.le_iff_toNat_le.mp hle
    rw [UInt64.add_comm o n] at this
    omega
  have hwp : wp (inodeRead cache sb p o n con) (fun _ _ => False) (fun e => e = .panic) st := by
    unfold inodeRead
    rw [wp_bind, wp_onSnd]
    refine Mem.wp_deref hp ?_
    rw [if_neg hdev]
    simp only [wp_bind, wp_assert, decide_eq_true_eq, decide_eq_false_iff_not, if_neg hkeep]
    exact ⟨fun _ => ⟨fun _ => ⟨fun h => absurd h hlast, fun _ => trivial⟩, fun _ => trivial⟩, fun _ => trivial⟩
  cases hr : inodeRead cache sb p o n con st with
  | ok r => exact (of_wp hwp hr).elim
  | error e => rw [of_wp_error hwp hr]

/-! ## On the small disk -/

theorem full_rootDisk : Full (logDisk 63) rootDisk := by
  intro ino ha
  have hent := entryAt_rootDisk (show ino < 200 from ha.2.1)
  have hone : ino = 1 := by
    by_contra hne
    have htype := ha.2.2
    rw [hent, if_neg hne] at htype
    exact htype rfl
  rw [if_pos hone] at hent
  rw [hent]
  refine ⟨by decide, fun i hi => ?_⟩
  have hi' : i < 32 := hi
  have hzero : i / blockSize = 0 := Nat.div_eq_of_lt (by simp only [blockSize]; omega)
  unfold blockOf
  rw [hzero]
  decide

/-- The root directory is loaded. -/
theorem root_loaded : ∃ s₀ s, Cache.initBcache (logDisk 63) rootDisk = .ok s₀ ∧
    inodeGet (bcache (logDisk 63)) (logDisk 63) 1 (s₀, noInodes) = .ok (0, s) ∧ WellFormed (logDisk 63) s ∧
    s.2.heap 0 = some (Inode.loaded 1 rootEntry) ∧ (fileOf (logDisk 63) s.1.cur 1).length = 32 := by
  have hl := layout_rootDisk
  have hfits := logFits_of_layout hl
  have hempty : (Cache.diskHeader (logDisk 63) rootDisk).numBlocks = 0 := by decide +kernel
  obtain ⟨s₀, t, hboot, habs, hinv, hblocks⟩ := boot_image hl image_rootDisk hempty
  have hents := entryAt_view hl hblocks
  have hroot : entryAt (logDisk 63) t.blocks 1 = rootEntry := by
    rw [hents, entryAt_rootDisk (by decide), if_pos rfl]
  have hget := wp_inodeGet hl (E := fun _ => False) (s := t) (m := noInodes) (n := 1)
    (Q := fun p st => p = 0 ∧ st = (t, noInodes.inserted (Inode.loaded 1 rootEntry))) hinv.free
    (fun hno => hno ⟨by decide, by decide, by rw [hroot]; decide⟩) (fun p ip hmem => by cases hmem)
    fun _ _ => ⟨rfl, by rw [hroot]⟩
  have hwp := (inodeGet_sim (bcache_refines_store hfits) (logDisk 63) 1).wp (s := (s₀, noInodes))
    (t := (t, noInodes)) ⟨habs, rfl⟩ hget fun _ _ hf => hf
  obtain ⟨p, s, hs, _, ⟨habs', hmem⟩, rfl, rfl⟩ := exists_of_wp hwp
  have hinv' : FsInv (logDisk 63) t s.2 := by
    rw [show s.2 = noInodes.inserted (Inode.loaded 1 rootEntry) from hmem, ← hroot]
    exact hinv.load ⟨by decide, by decide, by rw [hroot]; decide⟩ fun p hmem => by cases hmem
  have hfull : Full (logDisk 63) t.blocks :=
    full_view hl hblocks (image_rootDisk.good hl) full_rootDisk
  refine ⟨s₀, s, hboot, hs, ⟨⟨t, habs', hinv'⟩, full_view hl habs'.value hinv'.good hfull⟩, ?_, ?_⟩
  · rw [show s.2 = noInodes.inserted (Inode.loaded 1 rootEntry) from hmem]
    rfl
  · rw [length_fileOf, entryAt_view hl habs'.value, hroot]
    rfl

/-- `600` bytes behind the end of the root directory. -/
def appendWrite : Write := { ctx := none, p := 0, src := fun _ => 5, offset := 32, count := 600 }

end Armv8Os.Fs.Files
