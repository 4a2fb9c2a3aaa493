/-
  A whole run of `mkfs`.

  1. **The arguments** (`wp_addFiles`).  After `n` of them the image holds the root directory, with an entry for
     each of them behind `.` and `..`, and their files in the inodes `2 .. n + 1`: `Laid` for `contents`.  By
     induction, one `addFile` at a time; the blocks taken so far are at most `used`.
  2. **The end of `main`** (`wp_finish`) rounds the size of the root directory up, which may name a block that
     is not there, and writes the bitmap; the bytes of the files stay where they are (`Finished`).
-/
import Armv8Os.User.MkfsImage

namespace Armv8Os.Mkfs

open Fs Fs.Files Prog List
open Function (update update_eq_self update_idem update_of_ne update_self)

/-! ## What the image is to hold -/

/-- An entry of the root directory. -/
def direntOf (inum : Nat) (name : List UInt8) : DirEntry :=
  { inodeNo := UInt16.ofNat inum, name := strncpy fileNameMaxLength name }

/-- The entries of the root directory. -/
def rootEntries (fs : List HostFile) : List DirEntry :=
  direntOf 1 [46] :: direntOf 1 [46, 46] :: fs.mapIdx fun i f => direntOf (i + 2) f.name

/-- The bytes of the root directory. -/
def rootDir (fs : List HostFile) : List UInt8 := (rootEntries fs).flatMap DirEntry.bytes

/-- The type of an inode. -/
def typeOf (i : Nat) : InodeType := if i = 1 then inodeDirectory else inodeRegular

/-- The bytes of an inode. -/
def contents (fs : List HostFile) (i : Nat) : List UInt8 :=
  if i = 1 then rootDir fs else (fs.map HostFile.content).getD (i - 2) []

/-- The blocks in use with these files, at most. -/
def used (fs : List HostFile) : Nat :=
  nmeta + blocksFor (dirEntrySize * (fs.length + 2)) + (fs.map fun f => blocksFor f.content.length).sum

theorem length_dirent (inum : Nat) (name : List UInt8) : (dirent inum name).length = dirEntrySize :=
  length_bytes (length_strncpy ..)

section

variable (fs : List HostFile)
include fs

theorem rootEntries_concat (f : HostFile) :
    rootEntries (fs ++ [f]) = rootEntries fs ++ [direntOf (fs.length + 2) f.name] := by
  unfold rootEntries
  rw [mapIdx_concat]
  rfl

theorem rootDir_concat (f : HostFile) : rootDir (fs ++ [f]) = rootDir fs ++ dirent (fs.length + 2) f.name := by
  unfold rootDir
  rw [rootEntries_concat, flatMap_append, flatMap_singleton]
  rfl

theorem length_rootDir : (rootDir fs).length = dirEntrySize * (fs.length + 2) := by
  induction fs using reverseRecOn with
  | nil => decide
  | append_singleton fs f ih =>
    rw [rootDir_concat, length_append, ih, length_dirent, length_append, length_singleton]
    simp only [dirEntrySize]
    omega

theorem contents_root : contents fs 1 = rootDir fs := if_pos rfl

theorem contents_file (i : Nat) : contents fs (i + 2) = (fs.map HostFile.content).getD i [] := if_neg (by omega)

theorem used_concat (f : HostFile) :
    used (fs ++ [f]) = used fs + (blocksFor (dirEntrySize * (fs.length + 2) + dirEntrySize)
      - blocksFor (dirEntrySize * (fs.length + 2))) + blocksFor f.content.length := by
  have hmono : blocksFor (dirEntrySize * (fs.length + 2)) ≤ blocksFor (dirEntrySize * (fs.length + 2) + dirEntrySize) :=
    blocksFor_mono (Nat.le_add_right ..)
  have hlen : dirEntrySize * ((fs ++ [f]).length + 2) = dirEntrySize * (fs.length + 2) + dirEntrySize := by
    rw [length_append, length_singleton]
    simp only [dirEntrySize]
    omega
  unfold used
  rw [hlen, map_append, sum_append]
  simp only [map_cons, map_nil, sum_cons, sum_nil]
  omega

end

theorem used_le_append (fs gs : List HostFile) : used fs ≤ used (fs ++ gs) := by
  induction gs using reverseRecOn with
  | nil => rw [append_nil]
  | append_singleton gs g ih =>
    rw [← append_assoc, used_concat]
    omega

/-! ## The run -/

variable {Q : Unit → Img → Prop} {fs : List HostFile}

section Run

variable {E : Fail → Prop} {im : Img} {types : Nat → InodeType} {files : Nat → List UInt8}

/-- The reads of a file are appended one after another. -/
theorem wp_appendAll {ino : Nat} {rs : List (List UInt8)} (h : Laid im types files)
    (hpos : 0 < ino) (hlt : ino < im.freeinode) (hmax : (files ino).length + rs.flatten.length ≤ inodeMaxBytes)
    (hcost : im.freeblock + (blocksFor ((files ino).length + rs.flatten.length) - blocksFor (files ino).length)
      ≤ allocLimit sb) (hQ : ∀ im', Laid im' types (update files ino (files ino ++ rs.flatten)) →
      im'.freeinode = im.freeinode →
      im'.freeblock ≤ im.freeblock
        + (blocksFor ((files ino).length + rs.flatten.length) - blocksFor (files ino).length) → Q () im') :
    wp (appendAll ino rs) Q E im := by
  induction rs generalizing im files with
  | nil =>
    refine hQ im ?_ rfl (Nat.le_add_right ..)
    rw [flatten_nil, append_nil, update_eq_self]
    exact h
  | cons r rs ih =>
    rw [flatten_cons, length_append] at hmax hcost hQ
    have hstep : blocksFor (files ino).length ≤ blocksFor ((files ino).length + r.length) :=
      blocksFor_mono (Nat.le_add_right ..)
    have hrest : blocksFor ((files ino).length + r.length)
        ≤ blocksFor ((files ino).length + (r.length + rs.flatten.length)) := blocksFor_mono (by omega)
    unfold appendAll
    rw [wp_bind]
    refine wp_iappend h hpos hlt (by omega) (by omega) fun im₁ h1 hinode hblock => ?_
    refine ih h1 (hinode ▸ hlt) ?_ ?_ fun im₂ h2 hinode2 hblock2 => ?_
    · rw [update_self, length_append]
      omega
    · rw [update_self, length_append, Nat.add_assoc]
      omega
    · rw [update_self, update_idem, append_assoc] at h2
      rw [update_self, length_append, Nat.add_assoc] at hblock2
      exact hQ im₂ h2 (hinode2.trans hinode) (by omega)

/-- The image after the files `fs`. -/
structure Holds (im : Img) (fs : List HostFile) : Prop where
  laid : Laid im typeOf (contents fs)
  count : im.freeinode = fs.length + 2
  blocks : im.freeblock ≤ used fs

/-- **One argument.** -/
theorem wp_addFile {f : HostFile} (h : Holds im fs)
    (hcount : fs.length + 2 < ninodes) (hmax : f.content.length ≤ inodeMaxBytes)
    (hfit : used (fs ++ [f]) ≤ allocLimit sb) (hQ : ∀ im', Holds im' (fs ++ [f]) → Q () im') :
    wp (addFile rootInodeNo f) Q E im := by
  have hfree := h.count
  have hblocks := h.blocks
  rw [used_concat] at hfit
  unfold addFile
  rw [wp_bind, wp_assert, baseName_eq]
  refine ⟨fun _ => ?_, fun hslash => ?_⟩
  swap
  · simp [not_mem_afterSlash] at hslash
  rw [wp_bind]
  refine wp_ialloc h.laid (by rw [hfree]; exact hcount) (by decide) fun im₁ h1 hinode1 hblock1 => ?_
  rw [hfree] at h1 ⊢
  have hroot : update (contents fs) (fs.length + 2) [] rootInodeNo = rootDir fs := by
    rw [update_of_ne (by simp only [rootInodeNo]; omega), contents_root]
  rw [wp_bind]
  refine wp_iappend h1 (by decide) (by simp only [rootInodeNo]; omega) ?_ ?_ fun im₂ h2 hinode2 hblock2 => ?_
  · rw [hroot, length_rootDir, length_dirent]
    simp only [dirEntrySize, inodeMaxBytes, inodeMaxBlocks, inodeNumDirect, inodeNumIndirect, blockSize, ninodes]
      at hcount ⊢
    omega
  · rw [hroot, length_rootDir, length_dirent]
    omega
  rw [hroot, length_rootDir, length_dirent] at hblock2
  rw [hroot] at h2
  have hnew : update (update (contents fs) (fs.length + 2) []) rootInodeNo
      (rootDir fs ++ dirent (fs.length + 2) f.name) (fs.length + 2) = [] := by
    rw [update_of_ne (by simp only [rootInodeNo]; omega), update_self]
  refine wp_appendAll h2 (by omega) (by omega) ?_ ?_ fun im₃ h3 hinode3 hblock3 => ?_
  · rw [show strip (afterSlash f.path) = f.name from rfl, hnew, length_nil, Nat.zero_add]
    exact hmax
  · rw [show strip (afterSlash f.path) = f.name from rfl, hnew, length_nil, Nat.zero_add, blocksFor_zero]
    show _ + (blocksFor f.content.length - 0) ≤ _
    omega
  rw [show strip (afterSlash f.path) = f.name from rfl, hnew, length_nil, Nat.zero_add, blocksFor_zero] at hblock3
  rw [show strip (afterSlash f.path) = f.name from rfl, hnew, nil_append] at h3
  change im₃.freeblock ≤ im₂.freeblock + (blocksFor f.content.length - 0) at hblock3
  have hcount3 : im₃.freeinode = fs.length + 3 := by omega
  refine hQ im₃ ⟨h3.congr (fun i _ _ => ?_) fun i hi hilt => ?_, ?_, ?_⟩
  · -- the new inode has the type of a file
    by_cases he : i = fs.length + 2
    · rw [he, update_self]
      exact if_neg (by omega)
    · rw [update_of_ne he]
  · by_cases he : i = fs.length + 2
    · rw [he, update_self, contents_file, map_append, getD_append_right _ _ _ _ (by simp)]
      simp [HostFile.content]
    · rw [update_of_ne he]
      by_cases hone : i = 1
      · rw [hone, update_self, contents_root, rootDir_concat]
      · rw [update_of_ne hone, update_of_ne he]
        obtain ⟨k, rfl⟩ : ∃ k, i = k + 2 := ⟨i - 2, by omega⟩
        rw [contents_file, contents_file, map_append, getD_append _ _ _ _ (by simp; omega)]
  · rw [hcount3, length_append, length_singleton]
  · rw [used_concat]
    omega

/-- **The loop over the arguments**, up to `hs`. -/
theorem wp_addFiles {gs hs : List HostFile} (h : Holds im fs)
    (hcount : (fs ++ gs).length < 199) (hmax : ∀ f ∈ gs, f.content.length ≤ inodeMaxBytes)
    (hfit : used (fs ++ gs) ≤ allocLimit sb) (hQ : ∀ im', Holds im' (fs ++ gs) → wp (addFiles rootInodeNo hs) Q E im') :
    wp (addFiles rootInodeNo (gs ++ hs)) Q E im := by
  induction gs generalizing im fs with
  | nil =>
    rw [append_nil] at hQ
    exact hQ im h
  | cons g gs ih =>
    have hsplit : fs ++ g :: gs = (fs ++ [g]) ++ gs := by rw [append_assoc, singleton_append]
    rw [hsplit] at hcount hfit hQ
    rw [cons_append, addFiles, wp_bind]
    refine wp_addFile h ?_ (hmax g (mem_cons_self ..)) ((used_le_append _ _).trans hfit) fun im₁ h1 => ?_
    · rw [length_append, length_append, length_singleton] at hcount
      simp only [ninodes]
      omega
    · exact ih h1 hcount (fun f hf => hmax f (mem_cons_of_mem g hf)) hfit hQ

end Run

/-! ## The blank image -/

/-- The image with the superblock on it. -/
def withSuper : Img := { blank with sectors := update blank.sectors 1 (superSector sb) }

theorem entryAt_withSuper {i : Nat} (hi : i < ninodes) : entryAt sb (view withSuper) i = InodeEntry.zero := by
  have hlo : sb.inodeStart.toNat ≤ inodeBlock sb i := Nat.le_add_right ..
  have hone : 1 < sb.inodeStart.toNat := by decide
  have hzero : withSuper.sectors (inodeBlock sb i) = Bytes.zero := update_of_ne (by omega) ..
  unfold entryAt
  rw [view_of_ne _ (inodeBlock_lt_fssize hi).ne, hzero, readEntry_zero]

theorem not_allocated_withSuper (i : Nat) : ¬ Allocated sb (entryAt sb (view withSuper)) i := by
  rintro ⟨_, hlt, htype⟩
  rw [entryAt_withSuper (numInodes_sb ▸ hlt)] at htype
  exact htype rfl

theorem good_withSuper : Good sb (entryAt sb (view withSuper)) (view withSuper) := by
  have href : ∀ i, refOf sb (entryAt sb (view withSuper)) (view withSuper) i = 0 := fun i =>
    if_neg (not_allocated_withSuper i.1)
  have hbit : ∀ b < sb.numBlocks.toNat, bitAt sb (view withSuper) b = decide (b < nmeta) := fun b hb =>
    bitAt_view withSuper (Nat.lt_trans hb (by decide))
  have hclear : ∀ b, nmeta ≤ b → b < sb.numBlocks.toNat → bitAt sb (view withSuper) b = false := fun b hlo hb => by
    rw [hbit b hb]
    exact decide_eq_false (by omega)
  have hmeta : 0 < nmeta := by decide
  have hnum : nmeta < sb.numBlocks.toNat := by decide
  refine ⟨⟨fun b hb => ?_, fun i j hi => absurd (href i) hi, fun i hi => absurd (href i) hi,
    fun i hi => absurd (href i) hi, fun b hb hm => ?_⟩, fun b hb => ?_, fun b hdata _ hhi => ?_⟩
  · have := dataStart_sb ▸ hb.1
    omega
  · rw [hclear b (dataStart_sb ▸ hb.1) (DataBlock.lt_numBlocks layout hb)] at hm
    cases hm
  · rw [dataStart_sb] at hb
    rw [hbit b (by omega)]
    exact decide_eq_true hb
  · exact hclear b (dataStart_sb ▸ hdata) hhi

/-- It holds no file. -/
theorem laid_withSuper (types : Nat → InodeType) (files : Nat → List UInt8) : Laid withSuper types files := by
  have hone : withSuper.freeinode = 1 := rfl
  refine ⟨good_withSuper, fun i ha => absurd ha (not_allocated_withSuper i), le_rfl, fun b hb => ?_, rfl, rfl,
    by decide, by decide, fun i _ hi => entryAt_withSuper hi, fun i _ _ => by omega, fun i _ _ => by omega⟩
  have hb' : nmeta ≤ b := hb
  have : 1 < nmeta := by decide
  exact update_of_ne (by omega) ..

/-! ## The finished image -/

/-- Inode `ino` begins with these bytes. -/
structure Holding (B : Nat → Data) (ino : Nat) (type : InodeType) (bytes : List UInt8) : Prop where
  allocated : Allocated sb (entryAt sb B) ino
  type : (entryAt sb B ino).type = type
  max : (entryAt sb B ino).numBytes.toNat ≤ inodeMaxBytes
  le : bytes.length ≤ (entryAt sb B ino).numBytes.toNat
  there : ∀ i < bytes.length, blockOf (entryAt sb B ino) B i ≠ 0
  byte : ∀ i < bytes.length, byteAt (entryAt sb B ino) B i = bytes.getD i 0

/-- Only the size of the inode, and blocks in front of the data, are different. -/
theorem Holding.resize {B B' : Nat → Data} {ino : Nat} {type : InodeType} {bytes : List UInt8} {nb : UInt32}
    (h : Holding B ino type bytes) (hg : Good sb (entryAt sb B) B) (hsame : ∀ x, dataStart sb ≤ x → B' x = B x)
    (hent : entryAt sb B' ino = { entryAt sb B ino with numBytes := nb }) (hle : bytes.length ≤ nb.toNat)
    (hmax : nb.toNat ≤ inodeMaxBytes) : Holding B' ino type bytes := by
  have hblock : ∀ i, blockOf (entryAt sb B' ino) B' i = blockOf (entryAt sb B ino) B i := fun i => by
    unfold blockOf
    rw [hent, slotRef_fields rfl rfl]
    exact slotRef_congr (fun hz => hsame _ (hg.indirect h.allocated hz).1.1) _
  refine ⟨⟨h.allocated.1, h.allocated.2.1, by rw [hent]; exact h.allocated.2.2⟩, by rw [hent]; exact h.type,
    by rw [hent]; exact hmax, by rw [hent]; exact hle, fun i hi => ?_, fun i hi => ?_⟩
  · rw [hblock]
    exact h.there i hi
  · unfold byteAt
    rw [hblock, hsame (blockOf (entryAt sb B ino) B i) (hg.dataBlock h.allocated (h.there i hi)).1]
    exact h.byte i hi

theorem Laid.holding {im : Img} {types : Nat → InodeType} {files : Nat → List UInt8} (h : Laid im types files)
    {i : Nat} (hpos : 0 < i) (hlt : i < im.freeinode) : Holding (view im) i (types i) (files i) := by
  have ha := (h.allocated i).mpr ⟨hpos, hlt⟩
  have hlen := h.length hpos hlt
  refine ⟨ha, (h.types i hpos hlt).1, (h.full i ha).1, hlen.ge, fun k hk => ?_, fun k hk => ?_⟩
  · exact (h.full i ha).2 k (hlen ▸ hk)
  · rw [← h.files i hpos hlt]
    exact (getD_fileOf (hlen ▸ hk)).symm

/-- What the kernel has to know of the blocks. -/
structure Readable (B : Nat → Data) (fs : List HostFile) : Prop where
  good : Good sb (entryAt sb B) B
  root : Holding B rootInodeNo inodeDirectory (rootDir fs)
  file : ∀ i f, fs[i]? = some f → Holding B (i + 2) inodeRegular f.content ∧
    (entryAt sb B (i + 2)).numBytes.toNat = f.content.length

/-- The image that `mkfs` leaves. -/
structure Finished (im : Img) (fs : List HostFile) : Prop where
  readable : Readable im.sectors fs
  bits : ∀ b < bitPerBlock, bitAt sb im.sectors b = decide (b < im.freeblock)
  lo : nmeta ≤ im.freeblock
  header : im.sectors sb.logStart.toNat = Bytes.zero
  super : im.sectors 1 = superSector sb

/-- Together with its counters, and the size of the root directory. -/
structure Complete (im : Img) (fs : List HostFile) : Prop extends Finished im fs where
  count : im.freeinode = fs.length + 2
  blocks : im.freeblock ≤ used fs
  only : ∀ i, Allocated sb (entryAt sb im.sectors) i → i < fs.length + 2
  size : (entryAt sb im.sectors rootInodeNo).numBytes.toNat = (dirEntrySize * (fs.length + 2) / blockSize + 1) * blockSize

theorem wp_finish {E : Fail → Prop} {im : Img} (h : Holds im fs)
    (hcount : fs.length < 199) (hfit : used fs ≤ allocLimit sb) (hQ : ∀ im', Complete im' fs → Q () im') :
    wp (finish rootInodeNo) Q E im := by
  have hlaid := h.laid
  have hfree := h.count
  have hlimit := allocLimit_sb
  have hblocks := h.blocks
  have hroot : Holding (view im) rootInodeNo inodeDirectory (rootDir fs) := by
    have := hlaid.holding (i := rootInodeNo) (by decide) (by simp only [rootInodeNo]; omega)
    rwa [contents_root] at this
  have hsize : (entryAt sb (view im) rootInodeNo).numBytes.toNat = dirEntrySize * (fs.length + 2) := by
    rw [hlaid.length (i := rootInodeNo) (by decide) (by simp only [rootInodeNo]; omega), contents_root, length_rootDir]
  unfold finish
  rw [wp_bind]
  refine wp_rinode (by decide) ?_
  rw [wp_bind]
  refine wp_winode (by decide) fun im₁ hview hblock hinode hsame => ?_
  simp only [wp_bind, wp_get]
  unfold balloc
  rw [wp_bind, wp_assert]
  refine ⟨fun _ => ?_, fun hno => absurd (of_decide_eq_false hno) ?_⟩
  swap
  · simp only [blockSize]
    omega
  refine wp_wsect (hQ _ ?_)
  generalize hnb : UInt32.ofNat (((entryAt sb (view im) rootInodeNo).numBytes.toNat / blockSize + 1) * blockSize) = nb
    at hview
  -- the size is rounded up to the next block
  have hround : nb.toNat = (dirEntrySize * (fs.length + 2) / blockSize + 1) * blockSize := by
    rw [← hnb, hsize]
    refine UInt32.toNat_ofNat_of_lt' ?_
    simp only [dirEntrySize, blockSize, UInt32.size]
    omega
  have hnum : rootInodeNo < sb.numInodes.toNat := by decide
  have hresized : Good sb (entsWith sb (view im) rootInodeNo
      { entryAt sb (view im) rootInodeNo with numBytes := nb }) (view im) := by
    refine Good.fields layout (e := entryAt sb (view im) rootInodeNo) ?_ rfl rfl rfl
    rw [entsWith_entryAt]
    exact hlaid.good
  have hgood : Good sb (entryAt sb (view im₁)) (view im₁) := Good.synced layout hresized hnum hview
  have hents : ∀ i, entryAt sb (view im₁) i
      = if i = rootInodeNo then { entryAt sb (view im) rootInodeNo with numBytes := nb } else entryAt sb (view im) i :=
    fun i => by rw [hview]; exact entryAt_writeEntry ..
  have hdata : ∀ x, dataStart sb ≤ x → view im₁ x = view im x := fun x hx => by
    rw [hview]
    exact synced_data layout hnum _ hx
  refine ⟨⟨⟨hgood, ?_, fun i f hf => ?_⟩, fun b hb => bitAt_view im₁ hb, ?_, ?_, ?_⟩, hinode.trans hfree, ?_, fun i ha => ?_, ?_⟩
  · refine hroot.resize hlaid.good hdata ((hents _).trans (if_pos rfl)) ?_ ?_
    · rw [length_rootDir, hround]
      simp only [dirEntrySize, blockSize]
      omega
    · rw [hround]
      simp only [dirEntrySize, inodeMaxBytes, inodeMaxBlocks, inodeNumDirect, inodeNumIndirect, blockSize]
      omega
  · have hi : i < fs.length := (List.getElem?_eq_some_iff.mp hf).1
    have hcontent : contents fs (i + 2) = f.content := by
      rw [contents_file, getD_eq_getElem?_getD, getElem?_map, hf]
      rfl
    have hold := hlaid.holding (i := i + 2) (by omega) (by omega)
    rw [hcontent, show typeOf (i + 2) = inodeRegular from if_neg (by omega)] at hold
    have hlen := hlaid.length (i := i + 2) (by omega) (by omega)
    rw [hcontent] at hlen
    have hsame : entryAt sb (view im₁) (i + 2) = entryAt sb (view im) (i + 2) := by
      rw [hents, if_neg (by simp only [rootInodeNo]; omega)]
    exact ⟨hold.resize hlaid.good hdata hsame hold.le hold.max, by rw [← hlen, ← hsame]; rfl⟩
  · show nmeta ≤ im₁.freeblock
    rw [hblock]
    exact hlaid.lo
  · show view im₁ sb.logStart.toNat = _
    rw [view_of_ne im₁ (by decide), hsame _ (Or.inl (by decide))]
    exact hlaid.header
  · show view im₁ 1 = _
    rw [view_of_ne im₁ (by decide), hsame _ (Or.inl (by decide))]
    exact hlaid.super
  · show im₁.freeblock ≤ _
    rw [hblock]
    exact hblocks
  · by_cases hi : i = rootInodeNo
    · simp only [hi, rootInodeNo]
      omega
    · have hold : Allocated sb (entryAt sb (view im)) i := ⟨ha.1, ha.2.1, ((hents i).trans (if_neg hi)) ▸ ha.2.2⟩
      exact hfree ▸ ((hlaid.allocated i).mp hold).2
  · exact (congrArg (fun e => e.numBytes.toNat) ((hents _).trans (if_pos rfl))).trans hround

/-- The beginning of `main`, up to the loop over the arguments. -/
theorem wp_start {E : Fail → Prop} (hQ : ∀ im, Holds im [] → wp (addFiles 1 fs >>= fun _ => finish 1) Q E im) :
    wp (mkfs fs) Q E blank := by
  have hlimit := allocLimit_sb
  unfold mkfs
  rw [wp_bind]
  refine wp_wsect ?_
  rw [wp_bind]
  refine wp_ialloc (laid_withSuper typeOf fun _ => []) (by decide) (by decide) fun im₁ h1 hinode1 hblock1 => ?_
  rw [wp_bind, wp_assert]
  refine ⟨fun _ => ?_, fun hno => by cases hno⟩
  have hinode : im₁.freeinode = 2 := hinode1
  have hblock : im₁.freeblock = nmeta := hblock1
  change Laid im₁ (update typeOf 1 inodeDirectory) (update (fun _ => []) 1 []) at h1
  change wp (do
    iappend 1 (dirent 1 [46])
    iappend 1 (dirent 1 [46, 46])
    addFiles 1 fs
    finish 1) Q E im₁
  have hcost1 : blocksFor 16 - blocksFor 0 = 1 := by decide
  have hcost2 : blocksFor 32 - blocksFor 16 = 0 := by decide
  have hmeta : nmeta = 92 := by decide
  rw [wp_bind]
  refine wp_iappend h1 (by decide) (by omega) ?_ ?_ fun im₂ h2 hinode2 hblock2 => ?_
  · decide
  · show im₁.freeblock + (blocksFor 16 - blocksFor 0) ≤ _
    omega
  change im₂.freeblock ≤ im₁.freeblock + (blocksFor 16 - blocksFor 0) at hblock2
  rw [wp_bind]
  refine wp_iappend h2 (by decide) (by omega) ?_ ?_ fun im₃ h3 hinode3 hblock3 => ?_
  · decide
  · show im₂.freeblock + (blocksFor 32 - blocksFor 16) ≤ _
    omega
  change im₃.freeblock ≤ im₂.freeblock + (blocksFor 32 - blocksFor 16) at hblock3
  have hholds : Holds im₃ [] := by
    refine ⟨h3.congr (fun i _ hi => ?_) fun i hpos hi => ?_, by rw [hinode3, hinode2, hinode]; rfl, ?_⟩
    · obtain rfl : i = 1 := by omega
      rfl
    · obtain rfl : i = 1 := by omega
      rfl
    · have : used [] = 93 := by decide
      omega
  exact hQ im₃ hholds

/-- **A run of `mkfs`.** -/
theorem wp_mkfs {E : Fail → Prop} (hcount : fs.length < 199)
    (hmax : ∀ f ∈ fs, f.content.length ≤ inodeMaxBytes) (hfit : used fs ≤ allocLimit sb)
    (hQ : ∀ im, Complete im fs → Q () im) : wp (mkfs fs) Q E blank := by
  refine wp_start fun im h => ?_
  rw [wp_bind, ← append_nil fs]
  exact wp_addFiles h hcount hmax hfit fun im' h' => wp_finish h' hcount hfit hQ

end Armv8Os.Mkfs
