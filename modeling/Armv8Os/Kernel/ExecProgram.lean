/-
  The memory of a program.

  What a process sees after `execve`: the bytes of its file and the zeros after them, and nothing that other processes have left
  in the pages.  Both hold for a file with at most one segment of each class, and for segments that fill their pages.
-/
import Armv8Os.Kernel.ExecReturns

namespace Armv8Os.Execve

open Mmu Words Pt List Option

/-! ## Segments -/

section Segments

-- the sample files are read by evaluation
set_option maxRecDepth 20000

variable {file : List UInt8} {ph : Phdr} {phs : List Phdr}

/-- Headers of another class, with other pages, leave a header alone. -/
theorem foldl_apply_compatible (file : List UInt8) (L : Layout) (hloads : ph.loads) (hcompatible : ∀ b ∈ phs, Compatible ph b) :
    (∀ n, ph.first ≤ n → n < ph.last → (phs.foldl (Phdr.apply file) L).img n = L.img n) ∧
      (if ph.isText then (phs.foldl (Phdr.apply file) L).text else (phs.foldl (Phdr.apply file) L).data) =
        if ph.isText then L.text else L.data := by
  induction phs generalizing L with
  | nil => exact ⟨fun _ _ _ => rfl, rfl⟩
  | cons b phs ih =>
    obtain ⟨hb, hphs⟩ := forall_mem_cons.mp hcompatible
    obtain ⟨himg, hrange⟩ := ih (b.apply file L) hphs
    rw [foldl_cons]
    by_cases hbloads : b.loads
    · obtain ⟨hclass, hpages⟩ := hb hloads hbloads
      rw [show b.apply file L = L.place b (L.img.cover b.first b.last (b.byte file)) (pageUp (b.vaddr + b.size)) from
        if_pos hbloads] at himg hrange ⊢
      refine ⟨fun n hn hn' => (himg n hn hn').trans (if_neg fun hin => hpages n ⟨hn, hn', hin⟩), hrange.trans ?_⟩
      unfold Layout.place
      cases htext : ph.isText with
      | true =>
        have hb' : b.isText = false := Bool.eq_false_iff.mpr fun h => hclass (htext.trans h.symm)
        rw [hb']
        rfl
      | false =>
        have hb' : b.isText = true := Bool.eq_true_of_not_eq_false fun h => hclass (htext.trans h.symm)
        rw [hb']
        rfl
    · rw [show b.apply file L = L from if_neg hbloads] at himg hrange ⊢
      exact ⟨himg, hrange⟩

/-- If all are apart, each of them is in the image and has its section. -/
theorem foldl_apply_segment (file : List UInt8) (L : Layout) (hpair : phs.Pairwise Compatible) (hph : ph ∈ phs) (hloads : ph.loads) :
    (∀ n, ph.first ≤ n → n < ph.last →
      (phs.foldl (Phdr.apply file) L).img n = some fun i => ph.byte file (n * 4096 + i)) ∧
      (if ph.isText then (phs.foldl (Phdr.apply file) L).text else (phs.foldl (Phdr.apply file) L).data) = ph.range := by
  induction phs generalizing L with
  | nil => cases hph
  | cons a phs ih =>
    obtain ⟨hrel, hpair⟩ := pairwise_cons.mp hpair
    rw [foldl_cons]
    rcases mem_cons.mp hph with rfl | hph
    · obtain ⟨himg, hrange⟩ := foldl_apply_compatible file (ph.apply file L) hloads hrel
      rw [show ph.apply file L = L.place ph (L.img.cover ph.first ph.last (ph.byte file)) (pageUp (ph.vaddr + ph.size)) from
        if_pos hloads] at himg hrange ⊢
      refine ⟨fun n hn hn' => (himg n hn hn').trans (if_pos ⟨hn, hn'⟩), hrange.trans ?_⟩
      unfold Layout.place Phdr.range
      split
      · rfl
      · rfl
    · exact ih (a.apply file L) hpair hph

/-- The segment of a header, in the memory of the process. -/
structure SegmentLoaded (file : List UInt8) (ph : Phdr) (s : State) : Prop where
  bytes : ∀ k < ph.filesz.toNat, ∃ b, file[ph.offset.toNat + k]? = some b ∧ loadByte s.space (ph.vaddr + UInt64.ofNat k) = some b
  zeros : ph.readable → ph.writable → ∀ k, ph.filesz.toNat ≤ k → k < ph.memsz.toNat →
    loadByte s.space (ph.vaddr + UInt64.ofNat k) = some 0

/-- Text and data, of which the last part is not in the file. -/
def sampleElf : List UInt8 := elfHeader 2 ++ elfPhdr 5 0 0x400000 16 16 ++ elfPhdr 6 16 0x500008 8 32

theorem phdrs_sampleElf : phdrs sampleElf =
    [⟨⟨1, true, false, true, 0, 0x400000, 16⟩, 16⟩, ⟨⟨1, true, true, false, 16, 0x500008, 8⟩, 32⟩] := by decide

theorem sampleElf_executable : Executable sampleElf := by decide

/-- Two segments of text. -/
def twoTexts : List UInt8 := elfHeader 2 ++ elfPhdr 5 0 0x400000 16 16 ++ elfPhdr 5 0 0x500000 16 16

theorem phdrs_twoTexts : phdrs twoTexts =
    [⟨⟨1, true, false, true, 0, 0x400000, 16⟩, 16⟩, ⟨⟨1, true, false, true, 0, 0x500000, 16⟩, 16⟩] := by decide

theorem twoTexts_executable : Executable twoTexts := by decide

/-- A segment for everything, with zeros at its end. -/
def rwxElf : List UInt8 := elfHeader 1 ++ elfPhdr 7 0 0x400000 16 0x2000

theorem phdrs_rwxElf : phdrs rwxElf = [⟨⟨1, true, true, true, 0, 0x400000, 16⟩, 0x2000⟩] := by decide

theorem rwxElf_executable : Executable rwxElf := by decide

end Segments

/-! ## Residues -/

/-- Nothing is left over in the pages of the segment: it begins at a page, and if it is text, it ends at a page. -/
structure Phdr.Flush (ph : Phdr) : Prop where
  begins : ph.vaddr.toNat % 4096 = 0
  ends : ph.isText → ph.filesz.toNat % 4096 = 0

/-- Every byte of every page is known. -/
def Image.AllKnown (img : Image) : Prop := ∀ n f, img n = some f → ∀ i < 4096, (f i).isSome

section Residues

set_option maxRecDepth 20000

variable {file : List UInt8} {L : Layout} {ph : Phdr}

theorem Phdr.Flush.byte_isSome (h : ph.Flush) {a : Nat} (hfirst : ph.first * 4096 ≤ a) (hlast : a < ph.last * 4096) :
    (ph.byte file a).isSome := by
  have hbegins := h.begins
  unfold Phdr.first at hfirst
  unfold Phdr.last Phdr.size at hlast
  unfold Phdr.byte segByte
  by_cases htext : ph.isText
  · have hends := h.ends htext
    rw [if_pos htext] at hlast
    rw [if_pos (Or.inl htext), if_pos (by omega)]
    rfl
  · by_cases hin : a < ph.vaddr.toNat + ph.filesz.toNat
    · rw [if_pos (Or.inr hin), if_pos (by omega)]
      rfl
    · rw [if_neg fun hcase => hcase.elim htext hin]
      rfl

theorem Phdr.apply_allKnown (h : L.img.AllKnown) (hflush : ph.loads → ph.Flush) : (ph.apply file L).img.AllKnown := by
  unfold Phdr.apply
  split
  next hloads =>
    intro n f hf i hi
    change (if ph.first ≤ n ∧ n < ph.last then _ else _) = some f at hf
    split at hf
    next hin =>
      cases hf
      exact (hflush hloads).byte_isSome (by omega) (by omega)
    next => exact h n f hf i hi
  next => exact h

theorem foldl_apply_allKnown {phs : List Phdr} (h : L.img.AllKnown) (hflush : ∀ ph ∈ phs, ph.loads → ph.Flush) :
    (phs.foldl (Phdr.apply file) L).img.AllKnown := by
  induction phs generalizing L with
  | nil => exact h
  | cons ph phs ih =>
    obtain ⟨hph, hphs⟩ := forall_mem_cons.mp hflush
    exact ih (Phdr.apply_allKnown h hph) hphs

/-- A segment of data that begins at a page. -/
def dataElf : List UInt8 := elfHeader 1 ++ elfPhdr 6 0 0x400000 16 32

theorem phdrs_dataElf : phdrs dataElf = [⟨⟨1, true, true, false, 0, 0x400000, 16⟩, 32⟩] := by decide

theorem dataElf_executable : Executable dataElf := by decide

/-- A segment of text, smaller than its page. -/
def textElf : List UInt8 := elfHeader 1 ++ elfPhdr 5 0 0x400000 16 16

theorem phdrs_textElf : phdrs textElf = [⟨⟨1, true, false, true, 0, 0x400000, 16⟩, 16⟩] := by decide

theorem textElf_executable : Executable textElf := by decide

/-- The byte behind the text, in the space that is built. -/
def behindText (word : UInt64 → UInt64) : Option UInt8 :=
  (paging (initPgdir { pt := 0, word := word, free := (roomyState word).free })).toOption.bind fun m =>
    (loadAll textElf [⟨⟨1, true, false, true, 0, 0x400000, 16⟩, 16⟩] { m := m, sections := fileSections }).toOption.bind fun r =>
      (buildStack none r.2).toOption.bind fun q => loadByte q.2.2.m 0x400010

theorem execve_behindText (word : UInt64 → UInt64) : ∃ s', execve (some textElf) none (roomyState word) = .ok (0, s') ∧
    loadByte s'.space 0x400010 = behindText word := by
  have hshort : ShortArgs (getD none []) := fun _ hstr => (nomatch hstr)
  have hsound := roomyState_sound word
  obtain ⟨s', hexec⟩ := execve_roomyState textElf_executable hshort (by decide) (by rw [phdrs_textElf]; decide) word
  obtain ⟨m, pd, a, pd', hinit, hload, hstack, -, hkept, hinstalled⟩ :=
    execve_installs hsound textElf_executable.length textElf_executable.placed hexec (by decide) hshort
  have hall := (loadPhdrs_eq_loadAll phdrs_textElf (by decide) _).symm.trans hload
  refine ⟨s', hexec, (hinstalled.copied _ ((hkept _).mpr ?_)).trans ?_⟩
  · unfold layoutOf
    decide
  · have hinit' : paging (initPgdir { pt := 0, word := word, free := (roomyState word).free }) = .ok m := hinit
    unfold behindText
    rw [Prog.toOption_eq_some.mpr hinit', bind_some, Prog.toOption_eq_some.mpr hall, bind_some,
      Prog.toOption_eq_some.mpr hstack, bind_some]

end Residues

end Armv8Os.Execve
