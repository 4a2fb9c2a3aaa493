/-
  The kernel on an image that `mkfs` has made.

  Two programs that share no code have to agree on the layout: `iappend` and `ialloc` on one side, `inode_get`,
  `inode_lookup` and `inode_read` on the other.  `Readable` is what they agree on; the kernel sees it after it
  has booted, because it looks at no block of the log (`Readable.view`).

  * the search of the root directory stops at the first entry that matches (`Readable.search`), and that is the
    one of the file if names differ from each other and from `.` and `..`;
  * the inode it names is loaded, and a read of it returns the bytes of the host's file (`Readable.read`).

  A file named `_.` on the host becomes `.`, which the search finds as the first entry of the directory
  (`dot_is_the_root`).
-/
import Armv8Os.User.MkfsRun

namespace Armv8Os.Mkfs

open Fs Fs.Files Fs.Blocks Prog Simulation List

/-! ## The root directory -/

variable {fs : List HostFile} {d : DirEntry}

theorem length_name_rootEntries (hd : d ∈ rootEntries fs) :
    d.name.length = fileNameMaxLength := by
  rcases mem_cons.mp hd with rfl | hd
  · exact length_strncpy ..
  rcases mem_cons.mp hd with rfl | hd
  · exact length_strncpy ..
  obtain ⟨i, hi, rfl⟩ := mem_mapIdx.mp hd
  exact length_strncpy ..

theorem rootEntries_file {i : Nat} {f : HostFile} (hf : fs[i]? = some f) :
    (rootEntries fs)[i + 2]? = some (direntOf (i + 2) f.name) := by
  show (fs.mapIdx fun i f => direntOf (i + 2) f.name)[i]? = _
  rw [getElem?_mapIdx, hf]
  rfl

theorem length_rootEntries (fs : List HostFile) : (rootEntries fs).length = fs.length + 2 := by
  unfold rootEntries
  rw [length_cons, length_cons, length_mapIdx]

/-- Names are compared as a whole. -/
theorem matches_direntOf {inum : Nat} {name name' : List UInt8} (hname : NoNul name) (hname' : NoNul name')
    (hlen : name.length ≤ fileNameMaxLength) (hlen' : name'.length ≤ fileNameMaxLength) :
    Matches name (direntOf inum name') ↔ UInt16.ofNat inum ≠ 0 ∧ name = name' := by
  unfold Matches direntOf
  rw [strncmp_stored hname hname' hlen hlen']

/-! ## The blocks that the kernel reads -/

section Read

variable {B B' : Nat → Data} {fs : List HostFile}

/-- The kernel does not look into the log. -/
theorem Readable.view (h : Readable B fs) (hsame : ∀ b, ¬ Cache.InLog sb b → B' b = B b) : Readable B' fs := by
  have hent := entryAt_view layout hsame
  have hdata : ∀ x, dataStart sb ≤ x → B' x = B x := fun x hx => hsame x (not_inLog_data layout hx)
  refine ⟨Good.view layout hsame h.good, ?_, fun i f hf => ?_⟩
  · exact h.root.resize h.good hdata (congrFun hent _) h.root.le h.root.max
  · obtain ⟨hold, hsize⟩ := h.file i f hf
    exact ⟨hold.resize h.good hdata (congrFun hent _) hold.le hold.max, by rw [hent]; exact hsize⟩

/-- The entries are where the search looks for them. -/
theorem Readable.dirEntry (h : Readable B fs) {k : Nat} (hd : (rootEntries fs)[k]? = some d) :
    dirEntryAt (entryAt sb B rootInodeNo) B k = d := by
  obtain ⟨hk, he⟩ := List.getElem?_eq_some_iff.mp hd
  rw [length_rootEntries] at hk
  refine dirEntryAt_eq (length_name_rootEntries (he ▸ getElem_mem _)) fun j hj => ?_
  rw [h.root.byte _ (by
    rw [length_rootDir]
    simp only [dirEntrySize] at hj ⊢
    omega)]
  exact getD_flatMap_bytes (fun d hd => length_name_rootEntries hd) hd hj

end Read

section Kernel

variable {fs : List HostFile} {t : Store} {m : Mem} {p : Nat} {ip : Inode}

/-- **The search** stops at the first entry that matches. -/
theorem Readable.search (h : Readable t.blocks fs) (hinv : FsInv sb t m) (hp : m.heap p = some ip)
    (hino : ip.inodeNo = rootInodeNo) {name : List UInt8} {k : Nat}
    (hd : (rootEntries fs)[k]? = some d) (hmatch : Matches name d)
    (hskip : ∀ j < k, ∀ d', (rootEntries fs)[j]? = some d' → ¬ Matches name d') :
    ∃ t', inodeLookup (store sb) sb p name (t, m)
        = .ok (some (d.inodeNo.toNat, UInt64.ofNat (dirEntrySize * k)), (t', m)) ∧
      t'.blocks = t.blocks ∧ t'.held = [] := by
  have hent : ip.entry = entryAt sb t.blocks rootInodeNo := hino ▸ hinv.entry p ip hp
  have hk : k < (rootEntries fs).length := (List.getElem?_eq_some_iff.mp hd).1
  have hk' := hk
  rw [length_rootEntries] at hk'
  have hin : dirEntrySize * (k + 1) ≤ (rootDir fs).length := by
    rw [length_rootDir]
    exact Nat.mul_le_mul_left _ hk'
  have hwp : wp (inodeLookup (store sb) sb p name)
      (fun r st => r = some (d.inodeNo.toNat, UInt64.ofNat (dirEntrySize * k)) ∧ st.2 = m ∧
        st.1.blocks = t.blocks ∧ st.1.held = []) (fun _ => False) (t, m) := by
    refine wp_inodeLookup layout hp (by rw [hent]; exact h.root.type) (by rw [hent]; exact h.root.max) (k := k)
      (hinv.goodWith hp) (hinv.self hp) hinv.free (by rw [hent]; exact hin.trans h.root.le)
      (fun b hb => by rw [hent]; exact h.root.there b (by omega)) (fun j hj => ?_) ?_ fun s' hb hf _ => ?_
    · obtain ⟨d', hd'⟩ : ∃ d', (rootEntries fs)[j]? = some d' := ⟨_, getElem?_eq_getElem (by omega)⟩
      rw [hent, h.dirEntry hd']
      exact hskip j hj d' hd'
    · rw [hent, h.dirEntry hd]
      exact hmatch
    · rw [hent, h.dirEntry hd]
      exact ⟨rfl, rfl, hb, hf⟩
  obtain ⟨_, ⟨t', _⟩, hrun, rfl, rfl, hblocks, hheld⟩ := exists_of_wp hwp
  exact ⟨t', hrun, hblocks, hheld⟩

/-- An inode that is not in memory is loaded. -/
theorem inodeGet_loads (hinv : FsInv sb t m) {n : Nat} (ha : Allocated sb (entryAt sb t.blocks) n)
    (hnew : ∀ q ∈ m.head, ∀ iq, m.heap q = some iq → iq.inodeNo ≠ n) :
    inodeGet (store sb) sb n (t, m) = .ok (m.next, (t, m.inserted (Inode.loaded n (entryAt sb t.blocks n)))) := by
  have hwp := wp_inodeGet layout (E := fun _ => False) (s := t) (m := m) (n := n)
    (Q := fun q st => q = m.next ∧ st = (t, m.inserted (Inode.loaded n (entryAt sb t.blocks n)))) hinv.free
    (fun hno => hno ha) (fun q iq hmem hq hno => absurd hno (hnew q hmem iq hq)) fun _ _ => ⟨rfl, rfl⟩
  obtain ⟨_, _, hrun, rfl, rfl⟩ := exists_of_wp hwp
  exact hrun

/-- **A read** returns the bytes of the file of the host. -/
theorem Readable.read (h : Readable t.blocks fs) (hinv : FsInv sb t m) (hp : m.heap p = some ip) {i : Nat}
    {f : HostFile} (hf : fs[i]? = some f) (hino : ip.inodeNo = i + 2) {o n : UInt64} (con : Option (List UInt8))
    (ho : o.toNat ≤ f.content.length) (hwrap : o.toNat + n.toNat < 2 ^ 64) :
    ∃ r st', inodeRead (store sb) sb p o n con (t, m)
        = .ok ((r, (f.content.drop o.toNat).take n.toNat), st') ∧
      r.toNat = min n.toNat (f.content.length - o.toNat) := by
  obtain ⟨hold, hsize⟩ := h.file i f hf
  have hent : ip.entry = entryAt sb t.blocks (i + 2) := hino ▸ hinv.entry p ip hp
  have hnum : ip.entry.numBytes.toNat = f.content.length := by rw [hent, hsize]
  have hwp := wp_inodeRead layout (E := fun _ => False) (c := con)
    (Q := fun r _ => r.1.toNat = min n.toNat (f.content.length - o.toNat) ∧
      r.2 = (List.range r.1.toNat).map fun j => byteAt ip.entry t.blocks (o.toNat + j)) hp
    (by rw [hent, hold.type]; decide) (hinv.goodWith hp) (hinv.self hp) hinv.free (by rw [hent]; exact hold.max)
    (fun k _ _ hk => by rw [hnum] at hk; rw [hent]; exact hold.there k hk) (by rw [hnum]; exact ho) hwrap
    fun s' r _ _ _ hr => ⟨by rw [hr, hnum], rfl⟩
  obtain ⟨⟨r, bytes⟩, st', hrun, hr, hbytes⟩ := exists_of_wp hwp
  simp only at hr hbytes
  have hcontent : bytes = (f.content.drop o.toNat).take n.toNat := by
    rw [hbytes, hr]
    apply ext_getElem
    · rw [length_map, length_range, length_take, length_drop]
    · intro j h1 h2
      rw [length_map, length_range] at h1
      rw [getElem_map, getElem_range, hent, hold.byte _ (by omega), getElem_take, getElem_drop,
        getD_eq_getElem?_getD, getElem?_eq_getElem (by omega)]
      rfl
  rw [hcontent] at hrun
  exact ⟨r, st', hrun, hr⟩

end Kernel

/-! ## From booting to the bytes -/

/-- The kernel has booted and has loaded the root, at `0`. -/
structure Mounted (fs : List HostFile) (s : Cache.State × Mem) (t : Store) : Prop where
  abs : Abs sb s.1 t
  inv : FsInv sb t s.2
  readable : Readable t.blocks fs
  root : ∃ ip, s.2.heap 0 = some ip ∧ ip.inodeNo = rootInodeNo
  only : ∀ q ip, s.2.heap q = some ip → ip.inodeNo = rootInodeNo

theorem Finished.boots {im : Img} (h : Finished im fs) :
    ∃ s₀ s₁ t, Cache.initBcache sb im.sectors = .ok s₀ ∧
      inodeGet (bcache sb) sb rootInodeNo (s₀, noInodes) = .ok (0, s₁) ∧ Mounted fs s₁ t := by
  have hempty : (Cache.diskHeader sb im.sectors).numBlocks = 0 := by
    show (im.sectors sb.logStart.toNat).readLE 0 8 = 0
    rw [h.header, Bytes.readLE_zero]
  obtain ⟨s₀, t, hboot, habs, hinv, hblocks⟩ := boot_image layout (image_of_good layout h.readable.good) hempty
  have hread := h.readable.view hblocks
  have hnew : ∀ q ∈ noInodes.head, ∀ iq, noInodes.heap q = some iq → iq.inodeNo ≠ rootInodeNo :=
    fun q hq => absurd hq not_mem_nil
  have hget := inodeGet_loads hinv hread.root.allocated hnew
  obtain ⟨s₁, hget', habs', hmem⟩ := (inodeGet_sim (bcache_refines_store (logFits_of_layout layout)) sb rootInodeNo).ok
    (s := (s₀, noInodes)) (t := (t, noInodes)) ⟨habs, rfl⟩ hget
  refine ⟨s₀, s₁, t, hboot, hget', habs', ?_, hread, ?_, fun q ip hq => ?_⟩
  · rw [hmem]
    exact hinv.load hread.root.allocated hnew
  · rw [hmem]
    exact ⟨_, rfl, rfl⟩
  · rw [hmem] at hq
    by_cases hq0 : q = 0
    · subst hq0
      cases hq
      rfl
    · rw [show (Mem.inserted noInodes _).heap q = noInodes.heap q from Function.update_of_ne hq0 ..] at hq
      cases hq

/-- The search of the directory at `p` for the name of the file leads to an inode of its length, and a read of
    any part of it returns its bytes. -/
def Found (s : Cache.State × Mem) (p : Nat) (f : HostFile) : Prop :=
  ∃ ino idx s₂ q s₃ ip, inodeLookup (bcache sb) sb p f.name s = .ok (some (ino, idx), s₂) ∧
    inodeGet (bcache sb) sb ino s₂ = .ok (q, s₃) ∧ s₃.2.heap q = some ip ∧ ip.inodeNo = ino ∧
    ip.entry.type = inodeRegular ∧ ip.entry.numBytes.toNat = f.content.length ∧
    ∀ (o n : UInt64) (con : Option (List UInt8)), o.toNat ≤ f.content.length → o.toNat + n.toNat < 2 ^ 64 →
      ∃ r s₄, inodeRead (bcache sb) sb q o n con s₃ = .ok ((r, (f.content.drop o.toNat).take n.toNat), s₄) ∧
        r.toNat = min n.toNat (f.content.length - o.toNat)

section Files

variable {fs : List HostFile} {s : Cache.State × Mem} {t : Store}

/-- The search, on the block cache. -/
theorem Mounted.search (h : Mounted fs s t) {name : List UInt8} {k : Nat}
    (hd : (rootEntries fs)[k]? = some d) (hmatch : Matches name d)
    (hskip : ∀ j < k, ∀ d', (rootEntries fs)[j]? = some d' → ¬ Matches name d') :
    ∃ s' t', inodeLookup (bcache sb) sb 0 name s
        = .ok (some (d.inodeNo.toNat, UInt64.ofNat (dirEntrySize * k)), s') ∧ Mounted fs s' t' := by
  obtain ⟨ip, hp, hino⟩ := h.root
  obtain ⟨t', hrun, hblocks, hheld⟩ := h.readable.search h.inv hp hino hd hmatch hskip
  obtain ⟨s', hrun', habs', hmem⟩ := (inodeLookup_sim (bcache_refines_store (logFits_of_layout layout)) sb 0 name).ok
    (s := s) (t := (t, s.2)) ⟨h.abs, rfl⟩ hrun
  have hmem' : s'.2 = s.2 := hmem
  refine ⟨s', t', hrun', habs', ?_, hblocks ▸ h.readable, ⟨ip, by rw [hmem']; exact hp, hino⟩, ?_⟩
  · rw [hmem']
    exact h.inv.of_blocks hblocks hheld
  · rw [hmem']
    exact h.only

/-- **Every file is found**, if names differ and are neither `.` nor `..`. -/
theorem Mounted.found (h : Mounted fs s t) (hnames : (fs.map HostFile.name).Nodup)
    (hdots : ∀ f ∈ fs, f.name ≠ [46] ∧ f.name ≠ [46, 46])
    (hlen : ∀ f ∈ fs, f.name.length ≤ fileNameMaxLength) (hcount : fs.length < 198) {f : HostFile} (hf : f ∈ fs) :
    Found s 0 f := by
  obtain ⟨i, hi, hfi⟩ := getElem_of_mem hf
  have hf' : fs[i]? = some f := by rw [getElem?_eq_getElem hi, hfi]
  have hnoNul : NoNul f.name := f.name_noNul
  have hno : (UInt16.ofNat (i + 2)).toNat = i + 2 :=
    UInt16.toNat_ofNat_of_lt' (by simp only [UInt16.size]; omega)
  have hne : UInt16.ofNat (i + 2) ≠ 0 := fun he => by
    rw [he] at hno
    have : (0 : UInt16).toNat = 0 := rfl
    omega
  have hdot : NoNul [46] ∧ NoNul [46, 46] := by simp [NoNul]
  have hshort : [(46 : UInt8)].length ≤ fileNameMaxLength ∧ [(46 : UInt8), 46].length ≤ fileNameMaxLength := by decide
  obtain ⟨s₂, t₂, hsearch, h2⟩ := h.search (rootEntries_file hf')
    ((matches_direntOf hnoNul hnoNul (hlen f hf) (hlen f hf)).mpr ⟨hne, rfl⟩) (by
    intro j hj d hd hmatch
    -- the entries before it: `.`, `..` and the files before it
    match j, hj, hd with
    | 0, _, hd =>
      obtain rfl : direntOf 1 [46] = d := Option.some.inj hd
      exact (hdots f hf).1 ((matches_direntOf hnoNul hdot.1 (hlen f hf) hshort.1).mp hmatch).2
    | 1, _, hd =>
      obtain rfl : direntOf 1 [46, 46] = d := Option.some.inj hd
      exact (hdots f hf).2 ((matches_direntOf hnoNul hdot.2 (hlen f hf) hshort.2).mp hmatch).2
    | j + 2, hj, hd =>
      have hjlt : j < fs.length := by omega
      have hg : fs[j]? = some fs[j] := getElem?_eq_getElem hjlt
      rw [rootEntries_file hg] at hd
      cases hd
      have hmem : fs[j] ∈ fs := getElem_mem hjlt
      have hsame := ((matches_direntOf hnoNul fs[j].name_noNul (hlen f hf) (hlen _ hmem)).mp hmatch).2
      have : i = j := by
        refine (getElem?_inj (by rw [length_map]; exact hi) hnames).mp ?_
        rw [getElem?_map, getElem?_map, hf', hg]
        exact congrArg some hsame
      omega)
  obtain ⟨hold, hsize⟩ := h2.readable.file i f hf'
  have hnew : ∀ q ∈ s₂.2.head, ∀ iq, s₂.2.heap q = some iq → iq.inodeNo ≠ i + 2 := fun q _ iq hq he => by
    have := h2.only q iq hq
    simp only [rootInodeNo] at this
    omega
  have hsim := bcache_refines_store (logFits_of_layout layout)
  have hget := inodeGet_loads h2.inv hold.allocated hnew
  obtain ⟨s₃, hget', habs3, hmem3⟩ := (inodeGet_sim hsim sb (i + 2)).ok (s := s₂) (t := (t₂, s₂.2))
    ⟨h2.abs, rfl⟩ hget
  have hinv3 : FsInv sb t₂ s₃.2 := by
    rw [hmem3]
    exact h2.inv.load hold.allocated hnew
  have hp3 : s₃.2.heap s₂.2.next = some (Inode.loaded (i + 2) (entryAt sb t₂.blocks (i + 2))) := by
    rw [hmem3]
    exact Function.update_self ..
  refine ⟨i + 2, UInt64.ofNat (dirEntrySize * (i + 2)), s₂, _, s₃, _, ?_, hget', hp3, rfl, hold.type, hsize, fun o n con ho hwrap => ?_⟩
  · rw [hsearch]
    show Except.ok (some ((UInt16.ofNat (i + 2)).toNat, UInt64.ofNat (dirEntrySize * (i + 2))), s₂) = _
    rw [hno]
  · obtain ⟨r, st', hread, hr⟩ := h2.readable.read hinv3 hp3 hf' rfl con ho hwrap
    obtain ⟨s₄, hread', _⟩ := (inodeRead_sim hsim sb _ o n con).ok (s := s₃) (t := (t₂, s₃.2)) ⟨habs3, rfl⟩ hread
    exact ⟨r, s₄, hread', hr⟩

end Files

/-! ## The image and the kernel agree -/

/-- A block in a slot has been taken. -/
theorem Finished.refOf_lt {im : Img} (h : Finished im fs) (i : Nat × Slot) :
    refOf sb (entryAt sb im.sectors) im.sectors i < im.freeblock := by
  by_cases hz : refOf sb (entryAt sb im.sectors) im.sectors i = 0
  · rw [hz]
    exact Nat.lt_of_lt_of_le (by decide) h.lo
  · have hdata := h.readable.good.owned.area i hz
    have hmark := h.readable.good.owned.marked i hz
    rw [h.bits _ (Nat.lt_trans hdata.2 (by decide))] at hmark
    exact of_decide_eq_true hmark

/-- **`mkfs` and the kernel agree on the disk.**  For files whose names differ, fit into an entry and are neither
    `.` nor `..`, that are not too long or too many and fit in front of the swap area, `mkfs` runs to its end.
    The bitmap it writes marks the blocks below `freeblock`, and these are the blocks in front of the data and all
    that an inode refers to.  The kernel reads the superblock, boots, and finds every file under its name in the
    root directory, with its bytes. -/
theorem mkfs_readable {files : List HostFile} (hnames : (files.map HostFile.name).Nodup)
    (hdots : ∀ f ∈ files, f.name ≠ [46] ∧ f.name ≠ [46, 46]) (hlen : ∀ f ∈ files, f.name.length ≤ fileNameMaxLength)
    (hmax : ∀ f ∈ files, f.content.length ≤ inodeMaxBytes) (hcount : files.length < 198)
    (hfit : used files ≤ fssize - swapBlockNum) :
    ∃ im, mkfs files blank = .ok ((), im) ∧ getSuperBlock im.sectors = sb ∧
      (∀ b < bitPerBlock, bitAt sb im.sectors b = decide (b < im.freeblock)) ∧
      (∀ b < dataStart sb, b < im.freeblock) ∧
      (∀ i, refOf sb (entryAt sb im.sectors) im.sectors i < im.freeblock) ∧
      ∃ s₀ p s₁, Cache.initBcache sb im.sectors = .ok s₀ ∧
        inodeGet (bcache sb) sb rootInodeNo (s₀, noInodes) = .ok (p, s₁) ∧ ∀ f ∈ files, Found s₁ p f := by
  obtain ⟨_, im, hrun, hfin⟩ := exists_of_wp (wp_mkfs (E := fun _ => False) (Q := fun _ im => Complete im files)
    (by omega) hmax (by rw [allocLimit_sb]; exact hfit) fun _ h => h)
  obtain ⟨s₀, s₁, t, hboot, hget, hmount⟩ := hfin.boots
  refine ⟨im, hrun, getSuperBlock_superSector hfin.super, hfin.bits, fun b hb => ?_, hfin.refOf_lt, s₀, 0, s₁, hboot,
    hget, fun f hf => hmount.found hnames hdots hlen hcount hf⟩
  exact Nat.lt_of_lt_of_le hb hfin.lo

/-- `bin/_cat` of 700 bytes. -/
def catFile : HostFile :=
  { path := [98, 105, 110, 47, 95, 99, 97, 116], reads := [List.replicate 512 1, List.replicate 188 2]
    noNul := by simp, sizes := by decide +kernel }

/-- The name is `cat`, and bytes `510 .. 513` are two of each read. -/
theorem mkfs_readable_cat : catFile.name = [99, 97, 116] ∧ ∃ im s₀ p s₁ ino idx s₂ q s₃ r s₄,
    mkfs [catFile] blank = .ok ((), im) ∧ Cache.initBcache sb im.sectors = .ok s₀ ∧
    inodeGet (bcache sb) sb rootInodeNo (s₀, noInodes) = .ok (p, s₁) ∧
    inodeLookup (bcache sb) sb p [99, 97, 116] s₁ = .ok (some (ino, idx), s₂) ∧
    inodeGet (bcache sb) sb ino s₂ = .ok (q, s₃) ∧
    inodeRead (bcache sb) sb q 510 4 none s₃ = .ok ((r, [1, 1, 2, 2]), s₄) := by
  have hname : catFile.name = [99, 97, 116] := by decide
  have hlength : catFile.content.length = 700 := by decide +kernel
  have hused : used [catFile] = 95 := by
    simp only [used, map_cons, map_nil, sum_cons, sum_nil, hlength]
    decide
  obtain ⟨im, hrun, _, _, _, _, s₀, p, s₁, hboot, hget, hfound⟩ := @mkfs_readable [catFile]
    (nodup_singleton _) (by simp [hname]) (by simp [hname, fileNameMaxLength])
    (fun f hf => by rw [mem_singleton.mp hf, hlength]; decide) (by simp) (by rw [hused]; decide)
  obtain ⟨ino, idx, s₂, q, s₃, _, hlook, hget2, _, _, _, _, hread⟩ := hfound catFile (mem_singleton_self _)
  obtain ⟨r, s₄, hr, _⟩ := hread 510 4 none (by rw [hlength]; decide) (by decide)
  have hbytes : (catFile.content.drop (510 : UInt64).toNat).take (4 : UInt64).toNat = [1, 1, 2, 2] := by decide +kernel
  rw [hbytes] at hr
  exact ⟨hname, im, s₀, p, s₁, ino, idx, s₂, q, s₃, r, s₄, hrun, hboot, hget, hlook, hget2, hr⟩

/-- `_.`, of one byte. -/
def dotFile : HostFile := { path := [95, 46], reads := [[7]], noNul := by simp, sizes := by simp [blockSize] }

/-- The search for the name of this file, the only one on the image, ends at the root directory itself. -/
theorem dot_is_the_root : dotFile.name.length ≤ fileNameMaxLength ∧ dotFile.content.length ≤ inodeMaxBytes ∧
    used [dotFile] ≤ fssize - swapBlockNum ∧ ∃ im s₀ p s₁ s₂, mkfs [dotFile] blank = .ok ((), im) ∧
      Cache.initBcache sb im.sectors = .ok s₀ ∧
      inodeGet (bcache sb) sb rootInodeNo (s₀, noInodes) = .ok (p, s₁) ∧
      inodeLookup (bcache sb) sb p dotFile.name s₁ = .ok (some (1, 0), s₂) ∧
      (entryAt sb im.sectors 1).type = inodeDirectory := by
  have hused : used [dotFile] = 94 := by decide
  refine ⟨by decide, by decide, by rw [hused]; decide, ?_⟩
  obtain ⟨_, im, hrun, hfin⟩ := exists_of_wp (wp_mkfs (E := fun _ => False)
    (Q := fun _ im => Complete im [dotFile]) (by simp) (fun f hf => by rw [mem_singleton.mp hf]; decide)
    (by rw [hused]; decide) fun _ h => h)
  obtain ⟨s₀, s₁, t, hboot, hget, hmount⟩ := hfin.boots
  obtain ⟨s₂, _, hlook, _⟩ := hmount.search (k := 0) (d := direntOf 1 [46]) rfl
    (show Matches dotFile.name _ by decide) fun j hj => absurd hj (Nat.not_lt_zero j)
  exact ⟨im, s₀, 0, s₁, s₂, hrun, hboot, hget, hlook, hfin.readable.root.type⟩

end Armv8Os.Mkfs
