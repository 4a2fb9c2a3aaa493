/-
  `kernel/console.c`: the line discipline.

  Typed characters go into a ring of 128 bytes.  `r`, `w` and `e` count what was read, committed and typed: `[r, w)` waits for
  `console_read`, `[w, e)` is the line that can still be edited.

  1. **Program** — `consoleIntr` and `consoleRead`.  A read that would have to sleep gives `none`.

  2. **Specification** — `Editor`: a line editor on two lists, without a ring and without counters.

  3. **Bridge** — `Represents`: the windows of the ring are the lists of the editor.  Every call keeps it as long as `e` does not
     wrap around at 2^64; after that, `input.e > input.w` no longer says what it should (`console_wraps`).
-/
import Armv8Os.Lib.Transition
import Armv8Os.Lib.Ring

namespace Armv8Os.Console

open Transition List UInt64

/-! ## The program -/

def backspace : UInt8 := 8
def delete : UInt8 := 0x7f
def lineFeed : UInt8 := 10
def carriageReturn : UInt8 := 13

/-- `C('C')`. -/
def ctrlC : UInt8 := 3

/-- `C('D')`. -/
def ctrlD : UInt8 := 4

/-- `C('U')`. -/
def ctrlU : UInt8 := 21

instance neZeroInputBuf : NeZero 128 := ⟨by decide⟩

/-- `input`, without its locks; `INPUT_BUF` is 128. -/
structure Input where
  buf : Fin 128 → UInt8
  r : UInt64
  w : UInt64
  e : UInt64

/-- `console_intr`: what it leaves in `input` and sends to the screen, and whether it posts `rlock` or kills. -/
structure IntrResult where
  input : Input
  echo : List UInt8
  post : Bool
  kill : Bool

/-- The echo of one erased character. -/
def rubout : List UInt8 := [backspace, 32, backspace]

/-- The loop for Ctrl-U; `n` is `e - w`, and the loop makes at most that many rounds. -/
def eraseLine : Nat → Input → Input × List UInt8
  | 0, inp => (inp, [])
  | n + 1, inp =>
    if inp.buf (Fin.ofNat 128 (inp.e - 1).toNat) ≠ lineFeed then
      let (inp', echo) := eraseLine n { inp with e := inp.e - 1 }
      (inp', rubout ++ echo)
    else (inp, [])

/-- The default case of `console_intr`. -/
def store (inp : Input) (c : UInt8) : IntrResult :=
  if inp.e - inp.r < 128 then
    let c := if c = carriageReturn then lineFeed else c
    let inp := { inp with buf := Ring.write inp.buf inp.e.toNat c, e := inp.e + 1 }
    if c = lineFeed ∨ c = ctrlD ∨ inp.e - inp.r = 128 then { input := { inp with w := inp.e }, echo := [c], post := true, kill := false }
    else { input := inp, echo := [c], post := false, kill := false }
  else { input := inp, echo := [], post := false, kill := false }

/-- `console_intr`. -/
def consoleIntr (inp : Input) (c : UInt8) : IntrResult :=
  if c = 0 then { input := inp, echo := [], post := false, kill := false }
  else if c = backspace ∨ c = delete then
    if inp.w < inp.e then { input := { inp with e := inp.e - 1 }, echo := rubout, post := false, kill := false }
    else { input := inp, echo := [], post := false, kill := false }
  else if c = ctrlU then
    let (inp, echo) := eraseLine (inp.e.toNat - inp.w.toNat) inp
    { input := inp, echo := echo, post := false, kill := false }
  else if c = ctrlC then { input := inp, echo := [], post := false, kill := true }
  else store inp c

/-- The loop of `console_read` with `n` bytes to go; `first` says that none has been copied. -/
def readLoop : Nat → Bool → Input → Option (List UInt8 × Input)
  | 0, _, inp => some ([], inp)
  | n + 1, first, inp =>
    if inp.r = inp.w then none
    else
      let c := inp.buf (Fin.ofNat 128 inp.r.toNat)
      let inp := { inp with r := inp.r + 1 }
      if c = ctrlD then some ([], if first then inp else { inp with r := inp.r - 1 })
      else if c = lineFeed then some ([c], inp)
      else (readLoop n false inp).map fun (bs, inp) => (c :: bs, inp)

/-- `console_read`; it returns the number of these bytes. -/
def consoleRead (inp : Input) (n : Int) : Option (List UInt8 × Input) := readLoop n.toNat true inp

/-! ## The reference -/

/-- The lines that were committed, and the one that is typed. -/
structure Editor where
  committed : List UInt8
  line : List UInt8

def Editor.intr (ed : Editor) (c : UInt8) : Editor :=
  if c = 0 ∨ c = ctrlC then ed
  else if c = backspace ∨ c = delete then { ed with line := ed.line.dropLast }
  else if c = ctrlU then { ed with line := [] }
  else if ed.committed.length + ed.line.length < 128 then
    let c := if c = carriageReturn then lineFeed else c
    if c = lineFeed ∨ c = ctrlD ∨ ed.committed.length + ed.line.length + 1 = 128 then
      { committed := ed.committed ++ (ed.line ++ [c]), line := [] }
    else { ed with line := ed.line ++ [c] }
  else ed

/-- The bytes of a read, and what is left: up to `n` bytes, through a line feed, up to a Ctrl-D. -/
def upTo : Nat → List UInt8 → Option (List UInt8 × List UInt8)
  | 0, l => some ([], l)
  | _ + 1, [] => none
  | n + 1, c :: l =>
    if c = ctrlD then some ([], c :: l)
    else if c = lineFeed then some ([c], l)
    else (upTo n l).map fun (bs, rest) => (c :: bs, rest)

/-- A Ctrl-D at the front is consumed and yields no bytes. -/
def Editor.read (ed : Editor) (n : Int) : Option (List UInt8 × Editor) :=
  if 0 < n ∧ ed.committed.head? = some ctrlD then some ([], { ed with committed := ed.committed.tail })
  else (upTo n.toNat ed.committed).map fun (bs, rest) => (bs, { ed with committed := rest })

/-! ## Calls in sequence -/

inductive Op where
  | intr (c : UInt8)
  | read (n : Int)

def Op.isIntr : Op → Bool
  | .intr _ => true
  | .read _ => false

/-- The buffer, and what the reads have returned. -/
structure State where
  input : Input
  outs : List (List UInt8)

def start (buf : Fin 128 → UInt8) : State := { input := { buf := buf, r := 0, w := 0, e := 0 }, outs := [] }

def step (s : State) : Op → Option State
  | .intr c => some { s with input := (consoleIntr s.input c).input }
  | .read n => (consoleRead s.input n).map fun (bs, inp) => { input := inp, outs := s.outs ++ [bs] }

/-- The same calls on the editor. -/
def editorStep (s : Editor × List (List UInt8)) : Op → Option (Editor × List (List UInt8))
  | .intr c => some (s.1.intr c, s.2)
  | .read n => (s.1.read n).map fun (bs, ed) => (ed, s.2 ++ [bs])

/-! ## The bridge -/

/-- `[r, w)`. -/
def Input.committed (inp : Input) : List UInt8 := Ring.window inp.buf inp.r.toNat (inp.w.toNat - inp.r.toNat)

/-- `[w, e)`. -/
def Input.line (inp : Input) : List UInt8 := Ring.window inp.buf inp.w.toNat (inp.e.toNat - inp.w.toNat)

/-- The ring holds what the editor holds. -/
structure Represents (inp : Input) (ed : Editor) : Prop where
  rw : inp.r.toNat ≤ inp.w.toNat
  we : inp.w.toNat ≤ inp.e.toNat
  er : inp.e.toNat ≤ inp.r.toNat + 128
  committed : inp.committed = ed.committed
  line : inp.line = ed.line
  oneLine : lineFeed ∉ ed.line

section Bridge

variable {inp inp' : Input} {ed : Editor} {c : UInt8}

theorem Represents.length_committed (h : Represents inp ed) : ed.committed.length = inp.w.toNat - inp.r.toNat := by
  rw [← h.committed, Input.committed, Ring.length_window]

theorem Represents.length_line (h : Represents inp ed) : ed.line.length = inp.e.toNat - inp.w.toNat := by
  rw [← h.line, Input.line, Ring.length_window]

theorem toNat_pred {x : UInt64} (hpos : 0 < x.toNat) : (x - 1).toNat = x.toNat - 1 :=
  UInt64.toNat_sub_of_le x 1 (UInt64.le_iff_toNat_le.mpr hpos)

/-- Moving `e` back by one. -/
theorem Represents.rubout (h : Represents inp ed) (hlt : inp.w.toNat < inp.e.toNat) :
    (inp.e - 1).toNat = inp.e.toNat - 1 ∧
      ed.line = Ring.window inp.buf inp.w.toNat (inp.e.toNat - 1 - inp.w.toNat) ++ [inp.buf (Fin.ofNat 128 (inp.e.toNat - 1))] ∧
      Represents { inp with e := inp.e - 1 } { ed with line := ed.line.dropLast } := by
  have he : (inp.e - 1).toNat = inp.e.toNat - 1 := toNat_pred (by omega)
  have hline : ed.line =
      Ring.window inp.buf inp.w.toNat (inp.e.toNat - 1 - inp.w.toNat) ++ [inp.buf (Fin.ofNat 128 (inp.e.toNat - 1))] := by
    rw [← h.line, Input.line, show inp.e.toNat - inp.w.toNat = inp.e.toNat - 1 - inp.w.toNat + 1 by omega, Ring.window_succ,
      show inp.w.toNat + (inp.e.toNat - 1 - inp.w.toNat) = inp.e.toNat - 1 by omega]
  have her := h.er
  refine ⟨he, hline, h.rw, ?_, ?_, h.committed, ?_, fun hin => h.oneLine (mem_of_mem_dropLast hin)⟩
  · show inp.w.toNat ≤ (inp.e - 1).toNat
    omega
  · show (inp.e - 1).toNat ≤ inp.r.toNat + 128
    omega
  · show Ring.window inp.buf inp.w.toNat ((inp.e - 1).toNat - inp.w.toNat) = ed.line.dropLast
    rw [he, hline, dropLast_concat]

/-- Ctrl-U: there is no line feed in the line, so all of it goes. -/
theorem Represents.eraseLine (h : Represents inp ed) {n : Nat} (hn : n = inp.e.toNat - inp.w.toNat) :
    Represents (eraseLine n inp).1 { ed with line := [] } := by
  induction n generalizing inp ed with
  | zero =>
    have hnil : ed.line = [] := length_eq_zero_iff.mp (h.length_line.trans hn.symm)
    show Represents inp _
    rw [← hnil]
    exact h
  | succ n ih =>
    obtain ⟨he, hline, hless⟩ := h.rubout (by omega)
    have hchar : inp.buf (Fin.ofNat 128 (inp.e - 1).toNat) ≠ lineFeed := by
      intro heq
      refine h.oneLine ?_
      rw [hline, ← heq, he]
      exact mem_append_right _ mem_cons_self
    rw [Console.eraseLine, if_pos hchar]
    have hrest : n = (inp.e - 1).toNat - inp.w.toNat := by omega
    have hrec := ih hless hrest
    exact hrec

theorem sub_r (h : Represents inp ed) : (inp.e - inp.r).toNat = inp.e.toNat - inp.r.toNat :=
  UInt64.toNat_sub_of_le _ _ (UInt64.le_iff_toNat_le.mpr (h.rw.trans h.we))

theorem toNat_succ {x : UInt64} (hwrap : x.toNat + 1 < 2 ^ 64) : (x + 1).toNat = x.toNat + 1 := by
  exact Nat.mod_eq_of_lt hwrap

section

variable (h : Represents inp ed) (hroom : inp.e.toNat - inp.r.toNat < 128)
include h hroom

/-- What is typed goes behind the line, and leaves what was committed alone. -/
theorem Represents.typed (c : UInt8) :
    Ring.window (Ring.write inp.buf inp.e.toNat c) inp.r.toNat (inp.w.toNat - inp.r.toNat) = ed.committed ∧
      Ring.window (Ring.write inp.buf inp.e.toNat c) inp.w.toNat (inp.e.toNat + 1 - inp.w.toNat) = ed.line ++ [c] := by
  have hrw := h.rw
  have hwe := h.we
  constructor
  · have hkeep := Ring.window_write inp.buf inp.r.toNat c (show inp.w.toNat - inp.r.toNat ≤ inp.e.toNat - inp.r.toNat by omega) hroom
    rw [show inp.r.toNat + (inp.e.toNat - inp.r.toNat) = inp.e.toNat by omega] at hkeep
    exact hkeep.trans h.committed
  · have hpush := Ring.window_push inp.buf inp.w.toNat c (show inp.e.toNat - inp.w.toNat < 128 by omega)
    rw [show inp.w.toNat + (inp.e.toNat - inp.w.toNat) = inp.e.toNat by omega] at hpush
    rw [show inp.e.toNat + 1 - inp.w.toNat = inp.e.toNat - inp.w.toNat + 1 by omega, hpush]
    exact congrArg (· ++ [c]) h.line

theorem Represents.push (hwrap : inp.e.toNat + 1 < 2 ^ 64)
    (hc : c ≠ lineFeed) : Represents { inp with buf := Ring.write inp.buf inp.e.toNat c, e := inp.e + 1 }
      { ed with line := ed.line ++ [c] } := by
  have hwe := h.we
  have he := toNat_succ hwrap
  obtain ⟨hcommitted, hline⟩ := h.typed hroom c
  refine ⟨h.rw, ?_, ?_, hcommitted, ?_, ?_⟩
  · show inp.w.toNat ≤ (inp.e + 1).toNat
    omega
  · show (inp.e + 1).toNat ≤ inp.r.toNat + 128
    omega
  · show Ring.window _ inp.w.toNat ((inp.e + 1).toNat - inp.w.toNat) = _
    rw [he, hline]
  · intro hin
    rcases mem_append.mp hin with hin | hin
    · exact h.oneLine hin
    · exact hc (mem_singleton.mp hin).symm

/-- With this byte the line is committed. -/
theorem Represents.commit (hwrap : inp.e.toNat + 1 < 2 ^ 64)
    (c : UInt8) : Represents { inp with buf := Ring.write inp.buf inp.e.toNat c, e := inp.e + 1, w := inp.e + 1 }
      { committed := ed.committed ++ (ed.line ++ [c]), line := [] } := by
  have hrw := h.rw
  have hwe := h.we
  have he := toNat_succ hwrap
  obtain ⟨hcommitted, hline⟩ := h.typed hroom c
  refine ⟨?_, le_rfl, ?_, ?_, ?_, not_mem_nil⟩
  · show inp.r.toNat ≤ (inp.e + 1).toNat
    omega
  · show (inp.e + 1).toNat ≤ inp.r.toNat + 128
    omega
  · show Ring.window _ inp.r.toNat ((inp.e + 1).toNat - inp.r.toNat) = _
    rw [he, show inp.e.toNat + 1 - inp.r.toNat = inp.w.toNat - inp.r.toNat + (inp.e.toNat + 1 - inp.w.toNat) by omega,
      Ring.window_append, hcommitted, show inp.r.toNat + (inp.w.toNat - inp.r.toNat) = inp.w.toNat by omega, hline]
  · show Ring.window _ (inp.e + 1).toNat ((inp.e + 1).toNat - (inp.e + 1).toNat) = []
    rw [Nat.sub_self]
    rfl

end

section

variable (h : Represents inp ed)
include h

/-- The default case. -/
theorem Represents.store (hwrap : inp.e.toNat + 1 < 2 ^ 64) (hzero : c ≠ 0) (hc : c ≠ ctrlC)
    (herase : ¬ (c = backspace ∨ c = delete)) (hu : c ≠ ctrlU) : Represents (store inp c).input (ed.intr c) := by
  have hrw := h.rw
  have hwe := h.we
  have hsub := sub_r h
  have hlength : ed.committed.length + ed.line.length = inp.e.toNat - inp.r.toNat := by
    rw [h.length_committed, h.length_line]
    omega
  unfold Console.store Editor.intr
  rw [if_neg (not_or.mpr ⟨hzero, hc⟩), if_neg herase, if_neg hu, hlength]
  by_cases hroom : inp.e.toNat - inp.r.toNat < 128
  · have hroom' : inp.e - inp.r < 128 := lt_iff_toNat_lt.mpr (by rw [hsub]; exact hroom)
    have hfull : inp.e + 1 - inp.r = 128 ↔ inp.e.toNat - inp.r.toNat + 1 = 128 := by
      rw [← UInt64.toNat_inj, UInt64.toNat_sub_of_le _ _ (UInt64.le_iff_toNat_le.mpr (by rw [toNat_succ hwrap]; omega)),
        toNat_succ hwrap]
      show _ = 128 ↔ _
      omega
    rw [if_pos hroom', if_pos hroom]
    generalize (if c = carriageReturn then lineFeed else c) = c'
    by_cases hcommit : c' = lineFeed ∨ c' = ctrlD ∨ inp.e.toNat - inp.r.toNat + 1 = 128
    · rw [if_pos hcommit, if_pos (by rwa [hfull])]
      exact h.commit hroom hwrap c'
    · rw [if_neg hcommit, if_neg (by rwa [hfull])]
      exact h.push hroom hwrap (not_or.mp hcommit).1
  · have hroom' : ¬ inp.e - inp.r < 128 := fun hlt => hroom (hsub ▸ lt_iff_toNat_lt.mp hlt)
    rw [if_neg hroom', if_neg hroom]
    exact h

/-- **One character.** -/
theorem Represents.intr (hwrap : inp.e.toNat + 1 < 2 ^ 64) (c : UInt8) :
    Represents (consoleIntr inp c).input (ed.intr c) := by
  unfold consoleIntr
  by_cases hzero : c = 0
  · rw [if_pos hzero, Editor.intr, if_pos (Or.inl hzero)]
    exact h
  rw [if_neg hzero]
  by_cases herase : c = backspace ∨ c = delete
  · have hc : ¬ (c = 0 ∨ c = ctrlC) := by
      rcases herase with rfl | rfl <;> decide
    rw [if_pos herase, Editor.intr, if_neg hc, if_pos herase]
    by_cases hlt : inp.w < inp.e
    · rw [if_pos hlt]
      exact (h.rubout (lt_iff_toNat_lt.mp hlt)).2.2
    · have hnil : ed.line = [] := by
        refine length_eq_zero_iff.mp ?_
        have hle := UInt64.le_iff_toNat_le.mp (UInt64.not_lt.mp hlt)
        rw [h.length_line]
        omega
      rw [if_neg hlt, hnil]
      show Represents inp { ed with line := [] }
      rw [← hnil]
      exact h
  rw [if_neg herase]
  by_cases hu : c = ctrlU
  · have hc : ¬ (c = 0 ∨ c = ctrlC) := by
      rw [hu]
      decide
    rw [if_pos hu, Editor.intr, if_neg hc, if_neg herase, if_pos hu]
    exact h.eraseLine rfl
  rw [if_neg hu]
  by_cases hc : c = ctrlC
  · rw [if_pos hc, Editor.intr, if_pos (Or.inr hc)]
    exact h
  · rw [if_neg hc]
    exact h.store hwrap hzero hc herase hu

/-- One byte is read. -/
theorem Represents.shift (hne : inp.r ≠ inp.w) :
    ed.committed = inp.buf (Fin.ofNat 128 inp.r.toNat) :: ed.committed.tail ∧
      Represents { inp with r := inp.r + 1 } { ed with committed := ed.committed.tail } := by
  have hrw := h.rw
  have hwe := h.we
  have her := h.er
  have hlt : inp.r.toNat < inp.w.toNat := lt_of_le_of_ne hrw (mt UInt64.toNat_inj.mp hne)
  have hr : (inp.r + 1).toNat = inp.r.toNat + 1 := toNat_succ (by have := inp.w.toNat_lt; omega)
  have hcons : ed.committed = inp.buf (Fin.ofNat 128 inp.r.toNat) ::
      Ring.window inp.buf (inp.r.toNat + 1) (inp.w.toNat - (inp.r.toNat + 1)) := by
    rw [← h.committed, Input.committed, show inp.w.toNat - inp.r.toNat = inp.w.toNat - (inp.r.toNat + 1) + 1 by omega, Ring.window_cons]
  refine ⟨by rw [hcons, tail_cons], ?_, hwe, ?_, ?_, h.line, h.oneLine⟩
  · show (inp.r + 1).toNat ≤ inp.w.toNat
    omega
  · show inp.e.toNat ≤ (inp.r + 1).toNat + 128
    omega
  · show Ring.window inp.buf (inp.r + 1).toNat (inp.w.toNat - (inp.r + 1).toNat) = ed.committed.tail
    rw [hr, hcons, tail_cons]

/-- The loop of `console_read` after the first byte is that of the editor. -/
theorem Represents.readLoop {n : Nat} {bs : List UInt8} (hread : readLoop n false inp = some (bs, inp')) :
    ∃ rest, upTo n ed.committed = some (bs, rest) ∧ Represents inp' { ed with committed := rest } ∧ inp'.e = inp.e := by
  induction n generalizing inp ed bs with
  | zero =>
    cases hread
    exact ⟨ed.committed, rfl, h, rfl⟩
  | succ n ih =>
    rw [Console.readLoop] at hread
    split at hread
    next => cases hread
    next hne =>
      obtain ⟨hcons, hshift⟩ := h.shift hne
      dsimp only at hread
      rw [hcons]
      rw [upTo]
      split at hread
      next hd =>
        cases hread
        refine ⟨_, if_pos hd, ?_, rfl⟩
        rw [← hcons, show inp.r + 1 - 1 = inp.r by simp]
        exact h
      next hd =>
        rw [if_neg hd]
        split at hread
        next hlf =>
          cases hread
          exact ⟨_, if_pos hlf, hshift, rfl⟩
        next hlf =>
          obtain ⟨⟨bs', inp''⟩, hrec, heq⟩ := Option.map_eq_some_iff.mp hread
          cases heq
          obtain ⟨rest, hup, hrep, he⟩ := ih hshift hrec
          refine ⟨rest, ?_, hrep, he⟩
          rw [if_neg hlf, show upTo n ed.committed.tail = some (bs', rest) from hup]
          rfl

/-- **One read.** -/
theorem Represents.read {n : Int} {bs : List UInt8} (hread : consoleRead inp n = some (bs, inp')) :
    ∃ ed', ed.read n = some (bs, ed') ∧ Represents inp' ed' ∧ inp'.e = inp.e := by
  unfold consoleRead at hread
  have hloop : ¬ (0 < n ∧ ed.committed.head? = some ctrlD) → Console.readLoop n.toNat false inp = some (bs, inp') →
      ∃ ed', ed.read n = some (bs, ed') ∧ Represents inp' ed' ∧ inp'.e = inp.e := by
    intro hfirst hread
    obtain ⟨rest, hup, hrep, he⟩ := h.readLoop hread
    refine ⟨_, ?_, hrep, he⟩
    rw [Editor.read, if_neg hfirst, hup]
    rfl
  cases hn : n.toNat with
  | zero =>
    exact hloop (fun hpos => by omega) (hn ▸ hread)
  | succ m =>
    rw [hn, Console.readLoop] at hread
    by_cases hempty : inp.r = inp.w
    · rw [if_pos hempty] at hread
      cases hread
    obtain ⟨hcons, hshift⟩ := h.shift hempty
    rw [if_neg hempty] at hread
    by_cases hd : inp.buf (Fin.ofNat 128 inp.r.toNat) = ctrlD
    · rw [if_pos hd] at hread
      cases hread
      refine ⟨_, ?_, hshift, rfl⟩
      rw [Editor.read, if_pos ⟨by omega, by rw [hcons, head?_cons, hd]⟩]
    · refine hloop (fun hhead => hd ?_) ?_
      · rw [hcons, head?_cons] at hhead
        exact Option.some.inj hhead.2
      · rw [hn, Console.readLoop, if_neg hempty]
        rw [if_neg hd] at hread ⊢
        exact hread

end

end Bridge

/-! ## Whole sequences -/

theorem toNat_e_eraseLine (n : Nat) (inp : Input) (hn : n ≤ inp.e.toNat) : (eraseLine n inp).1.e.toNat ≤ inp.e.toNat := by
  induction n generalizing inp with
  | zero => exact le_rfl
  | succ n ih =>
    have he := toNat_pred (x := inp.e) (by omega)
    rw [eraseLine]
    split
    · have hrec : (eraseLine n { inp with e := inp.e - 1 }).1.e.toNat ≤ (inp.e - 1).toNat := ih _ (by show n ≤ (inp.e - 1).toNat; omega)
      show (eraseLine n { inp with e := inp.e - 1 }).1.e.toNat ≤ _
      omega
    · exact le_rfl

/-- A character moves `e` forward by one at most. -/
theorem toNat_e_consoleIntr (inp : Input) (c : UInt8) : (consoleIntr inp c).input.e.toNat ≤ inp.e.toNat + 1 := by
  have hsame : inp.e.toNat ≤ inp.e.toNat + 1 := Nat.le_succ _
  have hsucc : (inp.e + 1).toNat ≤ inp.e.toNat + 1 := by
    exact Nat.mod_le _ _
  unfold consoleIntr
  split
  · exact hsame
  split
  · split
    next hlt =>
      have hpos : 0 < inp.e.toNat := (Nat.zero_le _).trans_lt (lt_iff_toNat_lt.mp hlt)
      show (inp.e - 1).toNat ≤ _
      rw [toNat_pred hpos]
      omega
    next => exact hsame
  split
  · exact (toNat_e_eraseLine _ inp (Nat.sub_le _ _)).trans hsame
  split
  · exact hsame
  unfold store
  split
  · generalize (if c = carriageReturn then lineFeed else c) = c'
    by_cases hcommit : c' = lineFeed ∨ c' = ctrlD ∨ inp.e + 1 - inp.r = 128
    · rw [if_pos hcommit]
      exact hsucc
    · rw [if_neg hcommit]
      exact hsucc
  · exact hsame

theorem start_represents (buf : Fin 128 → UInt8) : Represents (start buf).input { committed := [], line := [] } :=
  ⟨le_rfl, le_rfl, Nat.le_add_left _ _, rfl, rfl, not_mem_nil⟩

/-- The run of the code is a run of the editor, as long as `e` does not wrap around. -/
theorem run_represents {ops : List Op} {s s' : State} {ed : Editor} (h : Represents s.input ed)
    (hwrap : s.input.e.toNat + ops.countP Op.isIntr < 2 ^ 64) (hrun : run step s ops = some s') :
    ∃ ed', run editorStep (ed, s.outs) ops = some (ed', s'.outs) ∧ Represents s'.input ed' := by
  induction ops generalizing s ed with
  | nil =>
    cases hrun
    exact ⟨ed, rfl, h⟩
  | cons op ops ih =>
    obtain ⟨s₁, hstep, hrest⟩ := run_cons_eq_some.mp hrun
    cases op with
    | intr c =>
      rw [countP_cons_of_pos rfl] at hwrap
      cases hstep
      have hnext := toNat_e_consoleIntr s.input c
      obtain ⟨ed', hrun', hrep⟩ := ih (h.intr (by omega) c) (by dsimp only; omega) hrest
      exact ⟨ed', run_cons_eq_some.mpr ⟨(ed.intr c, s.outs), rfl, hrun'⟩, hrep⟩
    | read n =>
      obtain ⟨⟨bs, inp⟩, hread, rfl⟩ := Option.map_eq_some_iff.mp hstep
      obtain ⟨ed₁, hed, hrep1, he⟩ := h.read hread
      obtain ⟨ed', hrun', hrep⟩ := ih hrep1 (by show inp.e.toNat + _ < _; rw [he]; exact hwrap) hrest
      refine ⟨ed', run_cons_eq_some.mpr ⟨(ed₁, s.outs ++ [bs]), ?_, hrun'⟩, hrep⟩
      show (ed.read n).map _ = _
      rw [hed]
      rfl

/-- Erasing leaves what was committed alone. -/
theorem committed_erase (inp : Input) {c : UInt8} (hc : c = backspace ∨ c = delete ∨ c = ctrlU) :
    (consoleIntr inp c).input.committed = inp.committed := by
  have hline : ∀ n inp, (eraseLine n inp).1.committed = inp.committed := by
    intro n
    induction n with
    | zero => exact fun _ => rfl
    | succ n ih =>
      intro inp
      rw [eraseLine]
      split
      · exact ih _
      · rfl
  rcases hc with rfl | rfl | rfl
  · show (if inp.w < inp.e then (_ : IntrResult) else _).input.committed = _
    split <;> rfl
  · show (if inp.w < inp.e then (_ : IntrResult) else _).input.committed = _
    split <;> rfl
  · exact hline _ inp

/-- **The console is a line editor** for the first 2^64 characters: the counters stay in order, erasing never reaches what was
committed, and the reads return what the editor's reads return. -/
theorem console_refines_editor (buf : Fin 128 → UInt8) (ops : List Op) (s : State) (hwrap : ops.countP Op.isIntr < 2 ^ 64)
    (hrun : run step (start buf) ops = some s) :
    s.input.r ≤ s.input.w ∧ s.input.w ≤ s.input.e ∧ s.input.e.toNat ≤ s.input.r.toNat + 128 ∧
      (∀ c, c = backspace ∨ c = delete ∨ c = ctrlU → (consoleIntr s.input c).input.committed = s.input.committed) ∧
      ∃ ed, run editorStep ({ committed := [], line := [] }, []) ops = some (ed, s.outs) ∧ s.input.committed = ed.committed ∧
        s.input.line = ed.line := by
  obtain ⟨ed, hed, hrep⟩ := run_represents (start_represents buf) (by show 0 + _ < _; omega) hrun
  refine ⟨le_iff_toNat_le.mpr hrep.rw, le_iff_toNat_le.mpr hrep.we, hrep.er, fun c hc => committed_erase s.input hc, ?_⟩
  exact ⟨ed, hed, hrep.committed, hrep.line⟩

/-- A typing error is corrected, a line is read in two parts, and Ctrl-D ends a read. -/
theorem console_refines_editor_lines :
    ∃ s, run step (start fun _ => 0)
        [.intr 97, .intr 98, .intr backspace, .intr 99, .intr carriageReturn, .intr ctrlD, .read 1, .read 9, .read 9] = some s ∧
      s.outs = [[97], [99, lineFeed], []] ∧ s.input.r ≤ s.input.w ∧ s.input.w ≤ s.input.e := by
  refine exists_run (P := fun s => s.outs = [[97], [99, lineFeed], []]) (by decide +kernel) fun s hrun houts => ?_
  obtain ⟨hrw, hwe, -⟩ := console_refines_editor _ _ s (by decide) hrun
  exact ⟨houts, hrw, hwe⟩

/-- A line feed is typed and read. -/
theorem run_emptyLine {s : State} {x : UInt64} (hr : s.input.r = x) (hw : s.input.w = x) (he : s.input.e = x) :
    ∃ s', run step s [.intr lineFeed, .read 1] = some s' ∧ s'.input.r = x + 1 ∧ s'.input.w = x + 1 ∧ s'.input.e = x + 1 := by
  obtain ⟨⟨buf, r, w, e⟩, outs⟩ := s
  obtain rfl : r = x := hr
  obtain rfl : w = r := hw
  obtain rfl : e = w := he
  have hintr : (consoleIntr ⟨buf, e, e, e⟩ lineFeed).input = ⟨Ring.write buf e.toNat lineFeed, e, e + 1, e + 1⟩ := by
    show (store ⟨buf, e, e, e⟩ lineFeed).input = _
    unfold store
    rw [if_pos (show e - e < 128 by rw [UInt64.sub_self]; decide)]
    rfl
  have hread : consoleRead ⟨Ring.write buf e.toNat lineFeed, e, e + 1, e + 1⟩ 1 =
      some ([lineFeed], ⟨Ring.write buf e.toNat lineFeed, e + 1, e + 1, e + 1⟩) := by
    show readLoop 1 true _ = _
    rw [readLoop, if_neg (show e ≠ e + 1 by simp)]
    simp [Ring.write, lineFeed, ctrlD]
  refine ⟨⟨⟨Ring.write buf e.toNat lineFeed, e + 1, e + 1, e + 1⟩, outs ++ [[lineFeed]]⟩, ?_, rfl, rfl, rfl⟩
  refine run_cons_eq_some.mpr ⟨_, rfl, run_cons_eq_some.mpr ⟨_, ?_, rfl⟩⟩
  show (consoleRead (consoleIntr ⟨buf, e, e, e⟩ lineFeed).input 1).map _ = _
  rw [hintr, hread]
  rfl

/-- The same `n` times. -/
def emptyLines : Nat → List Op
  | 0 => []
  | n + 1 => emptyLines n ++ [.intr lineFeed, .read 1]

theorem run_emptyLines (n : Nat) : ∃ s, run step (start fun _ => 0) (emptyLines n) = some s ∧
    s.input.r = UInt64.ofNat n ∧ s.input.w = UInt64.ofNat n ∧ s.input.e = UInt64.ofNat n := by
  induction n with
  | zero => exact ⟨_, rfl, rfl, rfl, rfl⟩
  | succ n ih =>
    obtain ⟨s, hrun, hr, hw, he⟩ := ih
    obtain ⟨s', hrun', hr', hw', he'⟩ := run_emptyLine hr hw he
    refine ⟨s', ?_, ?_, ?_, ?_⟩
    · rw [emptyLines, run_append, hrun]
      exact hrun'
    · rw [hr', ofNat_add]
      rfl
    · rw [hw', ofNat_add]
      rfl
    · rw [he', ofNat_add]
      rfl

/-- A letter is typed at the start of a line. -/
theorem consoleIntr_letter (buf : Fin 128 → UInt8) (x : UInt64) :
    (consoleIntr ⟨buf, x, x, x⟩ 97).input = ⟨Ring.write buf x.toNat 97, x, x, x + 1⟩ := by
  have hone : ¬ ((97 : UInt8) = lineFeed ∨ (97 : UInt8) = ctrlD ∨ x + 1 - x = 128) := by
    rw [show x + 1 - x = 1 by rw [UInt64.add_comm, UInt64.add_sub_cancel]]
    decide
  show (store ⟨buf, x, x, x⟩ 97).input = _
  unfold store
  rw [if_pos (show x - x < 128 by rw [UInt64.sub_self]; decide)]
  rw [if_neg (show (97 : UInt8) ≠ carriageReturn by decide), if_neg hone]

/-- After 2^64 - 1 lines the next character makes `e` smaller than `w`, and can no longer be erased. -/
theorem console_wraps : ∃ ops s, run step (start fun _ => 0) ops = some s ∧ ¬ s.input.w ≤ s.input.e ∧
    (consoleIntr s.input backspace).input.e = s.input.e := by
  obtain ⟨n, x, hn, hx, hzero⟩ : ∃ n x, UInt64.ofNat n = x ∧ ¬ x ≤ x + 1 ∧ ¬ x < x + 1 :=
    ⟨0xffffffffffffffff, 0xffffffffffffffff, rfl, by decide, by decide⟩
  obtain ⟨⟨⟨buf, r, w, e⟩, outs⟩, hrun, hr, hw, he⟩ := run_emptyLines n
  obtain rfl : r = x := hr.trans hn
  obtain rfl : w = r := hw.trans hn
  obtain rfl : e = w := he.trans hn
  refine ⟨emptyLines n ++ [.intr 97], ⟨⟨Ring.write buf e.toNat 97, e, e, e + 1⟩, outs⟩, ?_, hx, ?_⟩
  · rw [run_append, hrun, ← consoleIntr_letter]
    rfl
  · show (if e < e + 1 then (_ : IntrResult) else _).input.e = _
    rw [if_neg hzero]

end Armv8Os.Console
