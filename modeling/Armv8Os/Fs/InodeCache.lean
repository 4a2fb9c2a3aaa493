/-
  The in-memory inodes of `fs/inode.c` when several threads use them: `inode_get`, `inode_share`, `inode_put`, `inode_alloc`.

  A move is a section under the spinlock or a section with an inode block locked.  Where the spinlock is kept over the end of a move
  (`inode_get` waits for the block, `inode_put` for the sleeplock), `lock` says who has it.  `refs` are the references that
  `inode_get` and `inode_share` have handed out and `inode_put` has not taken back.

  `inode_put` gives up the spinlock between `rc == 0` and `_detach_from_list`.  In between the number can be allocated again and
  `inode_get` finds the old `Inode`, which is then freed (`put_frees_shared`).  Two layers carry what holds otherwise:

  1. `Cache` — the list, the counts and the references, without threads;
  2. `Threads` — who is on the way to free what, and who has scanned the list for which number.
-/
import Armv8Os.Lib.Transition
import Armv8Os.Fs.Ondisk

set_option linter.unusedSectionVars false

namespace Armv8Os.InodeCache

open Fs Transition List Option
open Function (update update_eq_self update_of_ne update_self)

/-! ## The program -/

/-- `Inode`, without its sleeplock and `valid`, which is always set. -/
structure Inode where
  rc : Int
  inodeNo : Nat
  entry : InodeEntry

/-- The value of an `isize`. -/
def isize (x : Int) : Int := x.bmod (2 ^ 64)

/-- Where a thread is. -/
inductive Pc (A : Type*) where
  | out
  | load (i : Nat)  -- `inode_get`: number `i` is not on the list, with the spinlock
  | waitLock (a : A)  -- `inode_put`: before the sleeplock, with the spinlock
  | clear (a : A)
  | wipe (a : A)
  | detach (a : A)
  | alloc (type : InodeType) (i : Nat)

structure State (T A : Type*) where
  disk : Nat → InodeEntry
  memory : A → Option Inode
  head : List A
  lock : Option T
  pc : T → Pc A
  refs : List (T × A)

inductive Act (T A : Type*) where
  | get (t : T) (i : Nat)
  | load (t : T) (a : A)  -- `kalloc` returns `a`
  | share (t : T) (a : A)
  | put (t : T) (a : A)
  | alloc (t : T) (type : InodeType)
  | next (t : T)
  -- what else the holder of a reference does with the inode
  | edit (t : T) (a : A) (entry : InodeEntry)
  | sync (t : T) (a : A)

/-- `init_inodes`, before it gets the root inode. -/
def start {T A : Type*} (disk : Nat → InodeEntry) : State T A :=
  { disk := disk, memory := fun _ => none, head := [], lock := none, pc := fun _ => .out, refs := [] }

section Program

variable {T A : Type*} [DecidableEq T] [DecidableEq A]

def State.goto (s : State T A) (t : T) (g : Pc A) : State T A := { s with pc := update s.pc t g }

def State.assign (s : State T A) (a : A) (ip : Inode) : State T A := { s with memory := update s.memory a (some ip) }

/-- The loop of `inode_get` over the list. -/
def State.find (s : State T A) (i : Nat) : Option A := s.head.find? fun a => (s.memory a).any fun ip => ip.inodeNo = i

/-- `_increment_rc`, and a reference for `t`. -/
def State.ref (s : State T A) (t : T) (a : A) (ip : Inode) : State T A :=
  { s.assign a { ip with rc := isize (ip.rc + 1) } with refs := (t, a) :: s.refs }

/-- `_decrement_rc`, and the reference of `t` is gone. -/
def State.unref (s : State T A) (t : T) (a : A) (ip : Inode) : State T A :=
  { s.assign a { ip with rc := isize (ip.rc - 1) } with refs := s.refs.erase (t, a) }

/-- `_detach_from_list(&inode->node)` and `kfree(inode)`. -/
def State.free (s : State T A) (a : A) : State T A :=
  { s with memory := update s.memory a none, head := s.head.erase a }

/-- `inode_clear` on the entry; the freed blocks are not part of this model. -/
def cleared (entry : InodeEntry) : InodeEntry := { entry with addrs := fun _ => 0, indirect := 0, numBytes := 0 }

/-- The section of `inode_put` from `_decrement_rc` on. -/
def putMove (s : State T A) (t : T) (a : A) (ip : Inode) : State T A :=
  let s := s.unref t a ip
  if 0 < isize (ip.rc - 1) then s
  else if ip.entry.numLinks = 0 then { s with lock := some t }.goto t (.waitLock a)
  else s.free a

/-- The next section of `inode_put` on its way to free an inode, or of `inode_alloc`. -/
def nextMove (n : Nat) (s : State T A) (t : T) : Option (State T A) :=
  match s.pc t with
  | .out | .load _ => none
  | .waitLock a => some ({ s with lock := none }.goto t (.clear a))
  | .clear a =>
    (s.memory a).map fun ip =>
      { s.assign a { ip with entry := cleared ip.entry } with disk := update s.disk ip.inodeNo (cleared ip.entry) }.goto t (.wipe a)
  | .wipe a => (s.memory a).map fun ip => { s with disk := update s.disk ip.inodeNo .zero }.goto t (.detach a)
  | .detach a => if s.lock = none then (s.memory a).map fun _ => (s.free a).goto t .out else none
  | .alloc type i =>
    -- `PANIC()` after the last inode
    if i < n then
      if (s.disk i).type = inodeInvalid then
        some ({ s with disk := update s.disk i { InodeEntry.zero with type := type } }.goto t .out)
      else some (s.goto t (.alloc type (i + 1)))
    else none

/-- One move, for a disk with `n` inodes.  `none`: not possible here, a failed `ASSERT`, or an access to freed memory. -/
def step (n : Nat) (s : State T A) : Act T A → Option (State T A)
  | .get t i =>
    match s.pc t with
    | .out =>
      if s.lock = none ∧ 0 < i ∧ i < n then
        match s.find i with
        | some a => (s.memory a).map (s.ref t a)
        | none => some ({ s with lock := some t }.goto t (.load i))
      else none
    | _ => none
  | .load t a =>
    match s.pc t with
    | .load i =>
      if (s.disk i).type ≠ inodeInvalid ∧ s.memory a = none then
        some ({ s.assign a { rc := 1, inodeNo := i, entry := s.disk i } with
          head := a :: s.head, lock := none, refs := (t, a) :: s.refs }.goto t .out)
      else none
    | _ => none
  | .share t a => if s.lock = none ∧ (t, a) ∈ s.refs then (s.memory a).map (s.ref t a) else none
  | .put t a =>
    match s.pc t with
    | .out => if s.lock = none ∧ (t, a) ∈ s.refs then (s.memory a).map (putMove s t a) else none
    | _ => none
  | .alloc t type =>
    match s.pc t with
    | .out => if type ≠ inodeInvalid then some (s.goto t (.alloc type 1)) else none
    | _ => none
  | .next t => nextMove n s t
  | .edit t a entry => if (t, a) ∈ s.refs then (s.memory a).map fun ip => s.assign a { ip with entry := entry } else none
  | .sync t a =>
    if (t, a) ∈ s.refs then (s.memory a).map fun ip => { s with disk := update s.disk ip.inodeNo ip.entry } else none

end Program

/-! ## The list and the counts -/

section Cache

variable {T A : Type*} [DecidableEq A]

/-- How many references there are to `a`. -/
def holders (refs : List (T × A)) (a : A) : Nat := refs.countP fun r => r.2 = a

/-- The list holds what is in memory, no number twice, and the counts are right. -/
structure Cache (memory : A → Option Inode) (head : List A) (refs : List (T × A)) : Prop where
  nodup : head.Nodup
  listed : ∀ a, a ∈ head ↔ memory a ≠ none
  one : ∀ a b x y, memory a = some x → memory b = some y → x.inodeNo = y.inodeNo → a = b
  count : ∀ a x, memory a = some x → x.rc = holders refs a
  held : ∀ r ∈ refs, memory r.2 ≠ none
  small : ∀ a, (holders refs a : Int) < 2 ^ 63

variable {memory : A → Option Inode} {head : List A} {refs refs' : List (T × A)} {a : A} {x x' : Inode}

theorem holders_cons_self (t : T) (a : A) (refs : List (T × A)) : holders ((t, a) :: refs) a = holders refs a + 1 :=
  countP_cons_of_pos (decide_eq_true rfl)

theorem holders_cons_of_ne (t : T) {a b : A} (hne : b ≠ a) (refs : List (T × A)) : holders ((t, a) :: refs) b = holders refs b :=
  countP_cons_of_neg (by simpa using hne.symm)

theorem holders_pos {r : T × A} (hr : r ∈ refs) : 0 < holders refs r.2 := countP_pos_iff.mpr ⟨r, hr, decide_eq_true rfl⟩

theorem not_mem_of_holders (hzero : holders refs a = 0) {r : T × A} (hr : r ∈ refs) : r.2 ≠ a := by
  rintro rfl
  exact (holders_pos hr).ne' hzero

theorem holders_erase_self [DecidableEq T] {t : T} (hr : (t, a) ∈ refs) : holders (refs.erase (t, a)) a + 1 = holders refs a := by
  have hperm := (perm_cons_erase hr).countP_eq fun r : T × A => r.2 = a
  exact (holders_cons_self t a _).symm.trans hperm.symm

theorem holders_erase_of_ne [DecidableEq T] {t : T} {b : A} (hne : b ≠ a) : holders (refs.erase (t, a)) b = holders refs b := by
  by_cases hr : (t, a) ∈ refs
  · have hperm := (perm_cons_erase hr).countP_eq fun r : T × A => r.2 = b
    exact (holders_cons_of_ne t hne _).symm.trans hperm.symm
  · rw [erase_of_not_mem hr]

section

variable (h : Cache memory head refs) (ha : memory a = some x)
include h ha

/-- An inode keeps its number and has as many references as it counts. -/
theorem Cache.assign (hno : x'.inodeNo = x.inodeNo) (hrc : x'.rc = holders refs' a)
    (hsmall : x'.rc < 2 ^ 63) (hother : ∀ b, b ≠ a → holders refs' b = holders refs b) (hsub : ∀ r ∈ refs', r ∈ refs ∨ r.2 = a) :
    Cache (update memory a (some x')) head refs' := by
  have hself : update memory a (some x') a = some x' := update_self ..
  have hne {b : A} (hb : b ≠ a) : update memory a (some x') b = memory b := update_of_ne hb ..
  have hnone (b : A) : update memory a (some x') b ≠ none ↔ memory b ≠ none := by
    rcases eq_or_ne b a with rfl | hb
    · rw [hself, ha]
      exact iff_of_true (some_ne_none _) (some_ne_none _)
    · rw [hne hb]
  -- the old inode with the same number
  have hold {b : A} {y : Inode} (hy : update memory a (some x') b = some y) :
      ∃ y', memory b = some y' ∧ y'.inodeNo = y.inodeNo := by
    rcases eq_or_ne b a with rfl | hb
    · rw [hself] at hy
      exact ⟨x, ha, by rw [← some.inj hy, hno]⟩
    · exact ⟨y, (hne hb).symm.trans hy, rfl⟩
  constructor
  · exact h.nodup
  · exact fun b => (h.listed b).trans (hnone b).symm
  · intro b c y z hy hz hyz
    obtain ⟨y', hy', hyno⟩ := hold hy
    obtain ⟨z', hz', hzno⟩ := hold hz
    exact h.one b c y' z' hy' hz' (hyno.trans (hyz.trans hzno.symm))
  · intro b y hy
    rcases eq_or_ne b a with rfl | hb
    · rw [hself] at hy
      rw [← some.inj hy]
      exact hrc
    · rw [hne hb] at hy
      rw [hother b hb]
      exact h.count b y hy
  · intro r hr
    refine (hnone r.2).mpr ?_
    obtain hr | hr := hsub r hr
    · exact h.held r hr
    · rw [hr, ha]
      exact some_ne_none x
  · intro b
    rcases eq_or_ne b a with rfl | hb
    · rw [← hrc]
      exact hsmall
    · rw [hother b hb]
      exact h.small b

theorem Cache.rc_lt : x.rc < 2 ^ 63 := by
  rw [h.count a x ha]
  exact h.small a

theorem Cache.edit (entry : InodeEntry) : Cache (update memory a (some { x with entry := entry })) head refs :=
  h.assign ha rfl (h.count a x ha) (h.rc_lt (x := x) ha) (fun _ _ => rfl) fun _ hr => .inl hr

end

theorem isize_of_lt {z : Int} (hnonneg : 0 ≤ z) (hlt : z < 2 ^ 63) : isize z = z := by
  unfold isize Int.bmod
  rw [Int.emod_eq_of_lt hnonneg (by omega), if_pos (by omega)]

section

variable (h : Cache memory head refs)
include h

theorem Cache.ref (ha : memory a = some x) (hlt : x.rc + 1 < 2 ^ 63) (t : T) :
    Cache (update memory a (some { x with rc := isize (x.rc + 1) })) head ((t, a) :: refs) := by
  have hrc := h.count a x ha
  have hsucc := isize_of_lt (show 0 ≤ x.rc + 1 by omega) hlt
  refine h.assign ha rfl ?_ (hsucc.trans_lt hlt) (fun b hb => holders_cons_of_ne t hb refs) ?_
  · show isize (x.rc + 1) = _
    rw [hsucc, holders_cons_self, hrc]
    rfl
  · intro r hr
    obtain rfl | hr := mem_cons.mp hr
    · exact .inr rfl
    · exact .inl hr

theorem Cache.rc_pred [DecidableEq T] (ha : memory a = some x) {t : T} (hr : (t, a) ∈ refs) :
    isize (x.rc - 1) = holders (refs.erase (t, a)) a := by
  have hrc := h.count a x ha
  have hlt := h.rc_lt ha
  have herase := holders_erase_self hr
  rw [isize_of_lt (by omega) (by omega)]
  omega

theorem Cache.unref [DecidableEq T] (ha : memory a = some x) {t : T} (hr : (t, a) ∈ refs) :
    Cache (update memory a (some { x with rc := isize (x.rc - 1) })) head (refs.erase (t, a)) := by
  have hpred := h.rc_pred ha hr
  refine h.assign ha rfl hpred ?_ (fun _ hb => holders_erase_of_ne hb) fun _ hr' => .inl (mem_of_mem_erase hr')
  show isize (x.rc - 1) < 2 ^ 63
  have herase := holders_erase_self hr
  have hsmall := h.small a
  omega

/-- A new inode, with one reference. -/
theorem Cache.insert (ha : memory a = none) {i : Nat} (hi : ∀ b y, memory b = some y → y.inodeNo ≠ i)
    (t : T) (entry : InodeEntry) :
    Cache (update memory a (some { rc := 1, inodeNo := i, entry := entry })) (a :: head) ((t, a) :: refs) := by
  have hself : update memory a (some { rc := 1, inodeNo := i, entry := entry }) a = some { rc := 1, inodeNo := i, entry := entry } :=
    update_self ..
  have hne {b : A} (hb : b ≠ a) : update memory a (some { rc := 1, inodeNo := i, entry := entry }) b = memory b :=
    update_of_ne hb ..
  have hnew : a ∉ head := by
    rw [h.listed, ha]
    exact fun hno => hno rfl
  have hfree : holders refs a = 0 := by
    rw [holders, countP_eq_zero]
    intro r hr heq
    exact h.held r hr (of_decide_eq_true heq ▸ ha)
  constructor
  · exact nodup_cons.mpr ⟨hnew, h.nodup⟩
  · intro b
    rcases eq_or_ne b a with rfl | hb
    · rw [hself]
      exact iff_of_true mem_cons_self (some_ne_none _)
    · rw [hne hb, mem_cons, ← h.listed b]
      exact or_iff_right hb
  · intro b c y z hy hz hyz
    by_contra hbc
    rcases eq_or_ne b a with rfl | hb
    · rw [hself] at hy
      rw [hne (Ne.symm hbc)] at hz
      rw [← some.inj hy] at hyz
      exact hi c z hz hyz.symm
    · rw [hne hb] at hy
      rcases eq_or_ne c a with rfl | hc
      · rw [hself] at hz
        rw [← some.inj hz] at hyz
        exact hi b y hy hyz
      · rw [hne hc] at hz
        exact hbc (h.one b c y z hy hz hyz)
  · intro b y hy
    rcases eq_or_ne b a with rfl | hb
    · rw [hself] at hy
      rw [← some.inj hy, holders_cons_self, hfree]
      rfl
    · rw [hne hb] at hy
      rw [holders_cons_of_ne t hb]
      exact h.count b y hy
  · intro r hr
    obtain rfl | hr := mem_cons.mp hr
    · show update memory a _ a ≠ none
      rw [hself]
      exact some_ne_none _
    · rcases eq_or_ne r.2 a with heq | hb
      · rw [heq, hself]
        exact some_ne_none _
      · rw [hne hb]
        exact h.held r hr
  · intro b
    rcases eq_or_ne b a with rfl | hb
    · rw [holders_cons_self, hfree]
      decide
    · rw [holders_cons_of_ne t hb]
      exact h.small b

/-- An inode without references is freed. -/
theorem Cache.free (hzero : holders refs a = 0) : Cache (update memory a none) (head.erase a) refs := by
  have hself : update memory a none a = none := update_self ..
  have hne {b : A} (hb : b ≠ a) : update memory a none b = memory b := update_of_ne hb ..
  have hkept {b : A} {y : Inode} (hy : update memory a none b = some y) : b ≠ a ∧ memory b = some y := by
    rcases eq_or_ne b a with rfl | hb
    · rw [hself] at hy
      cases hy
    · exact ⟨hb, (hne hb).symm.trans hy⟩
  constructor
  · exact h.nodup.erase a
  · intro b
    rcases eq_or_ne b a with rfl | hb
    · rw [hself]
      exact iff_of_false h.nodup.not_mem_erase fun hno => hno rfl
    · rw [hne hb, mem_erase_of_ne hb]
      exact h.listed b
  · exact fun b c y z hy hz hyz => h.one b c y z (hkept hy).2 (hkept hz).2 hyz
  · exact fun b y hy => h.count b y (hkept hy).2
  · intro r hr
    rw [hne (not_mem_of_holders hzero hr)]
    exact h.held r hr
  · exact h.small

end

end Cache

/-! ## The threads -/

/-- The inode that a thread is about to free. -/
def Pc.dying {A : Type*} : Pc A → Option A
  | .waitLock a | .clear a | .wipe a | .detach a => some a
  | .out | .load _ | .alloc _ _ => none

/-- Keeps the spinlock. -/
def Pc.holds {A : Type*} : Pc A → Bool
  | .load _ | .waitLock _ => true
  | _ => false

section Threads

variable {T A : Type*}

/-- The number of the inode at `a`. -/
def number (memory : A → Option Inode) (a : A) : Option Nat := (memory a).map (·.inodeNo)

/-- An inode that is about to be freed has no reference and one thread that frees it; what a thread has not found under the spinlock
is not there as long as it has the spinlock. -/
structure Threads (pc : T → Pc A) (lock : Option T) (num : A → Option Nat) (refs : List (T × A)) : Prop where
  locked : ∀ t, (pc t).holds = true → lock = some t
  dying : ∀ t a, (pc t).dying = some a → num a ≠ none ∧ ∀ r ∈ refs, r.2 ≠ a
  alone : ∀ t u a, (pc t).dying = some a → (pc u).dying = some a → t = u
  scanned : ∀ t i, pc t = .load i → ∀ a, num a ≠ some i

variable {pc : T → Pc A} {lock : Option T} {num : A → Option Nat} {refs refs' : List (T × A)} {t : T} {a : A} {g : Pc A}

theorem Threads.unref (h : Threads pc lock num refs) (hsub : ∀ r ∈ refs', r ∈ refs) : Threads pc lock num refs' :=
  ⟨h.locked, fun u b hu => ⟨(h.dying u b hu).1, fun r hr => (h.dying u b hu).2 r (hsub r hr)⟩, h.alone, h.scanned⟩

/-- A reference is added to an inode that nobody frees. -/
theorem Threads.ref (h : Threads pc lock num refs) (ha : ∀ u, (pc u).dying ≠ some a) (t : T) :
    Threads pc lock num ((t, a) :: refs) := by
  refine ⟨h.locked, ?_, h.alone, h.scanned⟩
  intro u b hu
  refine ⟨(h.dying u b hu).1, ?_⟩
  intro r hr
  obtain rfl | hr := mem_cons.mp hr
  · rintro rfl
    exact ha u hu
  · exact (h.dying u b hu).2 r hr

/-- The spinlock is given up by whoever had it. -/
theorem Threads.unlock (h : Threads pc (some t) num refs) (ht : (pc t).holds = false) : Threads pc none num refs := by
  refine ⟨?_, h.dying, h.alone, h.scanned⟩
  intro u hu
  obtain rfl := some.inj (h.locked u hu)
  rw [ht] at hu
  cases hu

/-- Without the spinlock nobody has scanned the list. -/
theorem Threads.not_load (h : Threads pc none num refs) (u : T) (i : Nat) : pc u ≠ .load i := by
  intro hu
  have := h.locked u (by rw [hu]; rfl)
  cases this

/-- An inode that no thread is about to free is gone. -/
theorem Threads.remove [DecidableEq A] (h : Threads pc lock num refs) (ha : ∀ u, (pc u).dying ≠ some a) :
    Threads pc lock (update num a none) refs := by
  refine ⟨h.locked, ?_, h.alone, ?_⟩
  · intro u b hu
    have hb : b ≠ a := by
      rintro rfl
      exact ha u hu
    rw [update_of_ne hb]
    exact h.dying u b hu
  · intro u i hu b hb
    rcases eq_or_ne b a with rfl | hne
    · rw [update_self] at hb
      cases hb
    · rw [update_of_ne hne] at hb
      exact h.scanned u i hu b hb

/-- A new inode, when nobody has the spinlock any more. -/
theorem Threads.insert [DecidableEq A] (h : Threads pc none num refs) (ha : num a = none) (i : Nat) :
    Threads pc none (update num a (some i)) refs := by
  refine ⟨h.locked, ?_, h.alone, fun u j hu => absurd hu (h.not_load u j)⟩
  intro u b hu
  have hb : b ≠ a := by
    rintro rfl
    exact (h.dying u b hu).1 ha
  rw [update_of_ne hb]
  exact h.dying u b hu

variable [DecidableEq T]

/-- A thread goes on and does not keep the spinlock. -/
theorem Threads.goto (h : Threads pc lock num refs) (hd : g.dying = none ∨ g.dying = (pc t).dying) (hg : g.holds = false) :
    Threads (update pc t g) lock num refs := by
  have hne {u : T} (hu : u ≠ t) : update pc t g u = pc u := update_of_ne hu ..
  have hself : update pc t g t = g := update_self ..
  have hdying {u : T} {b : A} (hu : (update pc t g u).dying = some b) : (pc u).dying = some b := by
    rcases eq_or_ne u t with rfl | hut
    · rw [hself] at hu
      obtain hd | hd := hd
      · rw [hd] at hu
        cases hu
      · rwa [hd] at hu
    · rwa [hne hut] at hu
  constructor
  · intro u hu
    rcases eq_or_ne u t with rfl | hut
    · rw [hself, hg] at hu
      cases hu
    · rw [hne hut] at hu
      exact h.locked u hu
  · exact fun u b hu => h.dying u b (hdying hu)
  · exact fun u v b hu hv => h.alone u v b (hdying hu) (hdying hv)
  · intro u i hu
    rcases eq_or_ne u t with rfl | hut
    · rw [hself] at hu
      rw [hu] at hg
      cases hg
    · rw [hne hut] at hu
      exact h.scanned u i hu

/-- A thread takes the spinlock and keeps it. -/
theorem Threads.keep (h : Threads pc none num refs)
    (hd : ∀ b, g.dying = some b → num b ≠ none ∧ (∀ r ∈ refs, r.2 ≠ b) ∧ ∀ u, (pc u).dying ≠ some b)
    (hs : ∀ i, g = .load i → ∀ b, num b ≠ some i) : Threads (update pc t g) (some t) num refs := by
  have hne {u : T} (hu : u ≠ t) : update pc t g u = pc u := update_of_ne hu ..
  have hself : update pc t g t = g := update_self ..
  constructor
  · intro u hu
    rcases eq_or_ne u t with rfl | hut
    · rfl
    · rw [hne hut] at hu
      cases h.locked u hu
  · intro u b hu
    rcases eq_or_ne u t with rfl | hut
    · rw [hself] at hu
      exact ⟨(hd b hu).1, (hd b hu).2.1⟩
    · rw [hne hut] at hu
      exact h.dying u b hu
  · intro u v b hu hv
    by_contra huv
    rcases eq_or_ne u t with rfl | hut
    · rw [hself] at hu
      rw [hne (Ne.symm huv)] at hv
      exact (hd b hu).2.2 v hv
    · rw [hne hut] at hu
      rcases eq_or_ne v t with rfl | hvt
      · rw [hself] at hv
        exact (hd b hv).2.2 u hu
      · rw [hne hvt] at hv
        exact huv (h.alone u v b hu hv)
  · intro u i hu
    rcases eq_or_ne u t with rfl | hut
    · rw [hself] at hu
      exact hs i hu
    · rw [hne hut] at hu
      exact h.scanned u i hu

end Threads

/-! ## Every move -/

section Moves

variable {T A : Type*}

structure Inv [DecidableEq A] (s : State T A) : Prop where
  cache : Cache s.memory s.head s.refs
  threads : Threads s.pc s.lock (number s.memory) s.refs

variable [DecidableEq T] [DecidableEq A] {n : Nat} {s s' : State T A} {t : T} {a : A} {x : Inode}

theorem start_inv (disk : Nat → InodeEntry) : Inv (start disk : State T A) := by
  constructor
  · constructor
    · exact nodup_nil
    · exact fun _ => iff_of_false not_mem_nil fun hno => hno rfl
    · exact fun _ _ _ _ hno => (nomatch hno)
    · exact fun _ _ hno => (nomatch hno)
    · exact fun _ hno => absurd hno not_mem_nil
    · exact fun _ => (by decide : ((0 : Nat) : Int) < 2 ^ 63)
  · exact ⟨fun _ hno => (nomatch hno), fun _ _ hno => (nomatch hno), fun _ _ _ hno => (nomatch hno), fun _ _ hno => (nomatch hno)⟩

theorem number_update (memory : A → Option Inode) (a : A) (o : Option Inode) :
    number (update memory a o) = update (number memory) a (o.map (·.inodeNo)) := by
  funext b
  unfold number
  rcases eq_or_ne b a with rfl | hb
  · rw [update_self, update_self]
  · rw [update_of_ne hb, update_of_ne hb]

theorem number_assign {memory : A → Option Inode} (ha : memory a = some x) (rc : Int) (entry : InodeEntry) :
    number (update memory a (some { rc := rc, inodeNo := x.inodeNo, entry := entry })) = number memory := by
  rw [number_update, show Option.map _ (some _) = number memory a by rw [number, ha]; rfl, update_eq_self]

section

variable (h : Inv s)
include h

/-- Who holds a reference keeps everybody from freeing the inode. -/
theorem Inv.not_dying (hr : (t, a) ∈ s.refs) (u : T) : (s.pc u).dying ≠ some a :=
  fun hu => (h.threads.dying u a hu).2 (t, a) hr rfl

/-- An inode with a positive count has a reference. -/
theorem Inv.not_dying_of_pos (ha : s.memory a = some x) (hpos : 0 < x.rc) (u : T) : (s.pc u).dying ≠ some a := by
  intro hu
  have hrc := h.cache.count a x ha
  obtain ⟨r, hr, heq⟩ := countP_pos_iff.mp (show 0 < holders s.refs a by omega)
  exact (h.threads.dying u a hu).2 r hr (of_decide_eq_true heq)

theorem Inv.ref (ha : s.memory a = some x) (hlt : x.rc + 1 < 2 ^ 63) (hdying : ∀ u, (s.pc u).dying ≠ some a) (t : T) :
    Inv (s.ref t a x) := by
  refine ⟨h.cache.ref ha hlt t, ?_⟩
  show Threads s.pc s.lock (number (update s.memory a _)) _
  rw [number_assign ha _ _]
  exact h.threads.ref hdying t

/-- What the scan of the list has not found is not in memory. -/
theorem Inv.number_ne {i : Nat} (hfind : s.find i = none) (b : A) : number s.memory b ≠ some i := by
  intro hb
  obtain ⟨y, hy, hno⟩ := map_eq_some_iff.mp hb
  have hlisted : b ∈ s.head := (h.cache.listed b).mpr (by rw [hy]; exact some_ne_none y)
  have := find?_eq_none.mp hfind b hlisted
  rw [hy] at this
  exact this (decide_eq_true hno)

theorem Inv.load {i : Nat} (ht : s.pc t = .load i) (ha : s.memory a = none) :
    Inv ({ s.assign a { rc := 1, inodeNo := i, entry := s.disk i } with
      head := a :: s.head, lock := none, refs := (t, a) :: s.refs }.goto t .out) := by
  have hscanned := h.threads.scanned t i ht
  have hlock := h.threads.locked t (by rw [ht]; rfl)
  refine ⟨h.cache.insert ha ?_ t (s.disk i), ?_⟩
  · rintro b y hy rfl
    exact hscanned b (by rw [number, hy]; rfl)
  · show Threads (update s.pc t .out) none (number (update s.memory a (some _))) ((t, a) :: s.refs)
    have hthreads := h.threads
    rw [hlock] at hthreads
    have hout := (hthreads.goto (t := t) (g := .out) (.inl rfl) rfl).unlock (by rw [update_self]; rfl)
    rw [number_update]
    have hnone : number s.memory a = none := by rw [number, ha]; rfl
    refine (hout.ref ?_ t).insert hnone i
    exact fun u hu => (hout.dying u a hu).1 hnone

theorem Inv.put (hlock : s.lock = none) (hr : (t, a) ∈ s.refs) (ha : s.memory a = some x) : Inv (putMove s t a x) := by
  have hpred := h.cache.rc_pred ha hr
  have hnum : number (s.unref t a x).memory = number s.memory := number_assign ha _ _
  have hcache : Cache (s.unref t a x).memory s.head (s.refs.erase (t, a)) := h.cache.unref ha hr
  have hthreads : Threads s.pc s.lock (number (s.unref t a x).memory) (s.refs.erase (t, a)) := by
    rw [hnum]
    exact h.threads.unref fun r hr' => mem_of_mem_erase hr'
  have hdying := h.not_dying hr
  unfold putMove
  split
  · exact ⟨hcache, hthreads⟩
  next hlast =>
    have hzero : holders (s.refs.erase (t, a)) a = 0 := by omega
    split
    · refine ⟨hcache, ?_⟩
      show Threads (update s.pc t (.waitLock a)) (some t) (number (s.unref t a x).memory) _
      rw [hlock] at hthreads
      refine hthreads.keep ?_ fun i hi => nomatch hi
      intro b hb
      obtain rfl : a = b := some.inj hb
      refine ⟨?_, fun r hr' => not_mem_of_holders hzero hr', hdying⟩
      rw [hnum, number, ha]
      exact some_ne_none _
    · refine ⟨hcache.free hzero, ?_⟩
      show Threads s.pc s.lock (number (update (s.unref t a x).memory a none)) _
      rw [number_update]
      exact hthreads.remove hdying

/-- The inode is detached and freed by the one thread that was on the way to it. -/
theorem Inv.detach (ht : s.pc t = .detach a) : Inv ((s.free a).goto t .out) := by
  have hdying : (s.pc t).dying = some a := by rw [ht]; rfl
  have hzero : holders s.refs a = 0 := by
    rw [holders, countP_eq_zero]
    exact fun r hr heq => (h.threads.dying t a hdying).2 r hr (of_decide_eq_true heq)
  refine ⟨h.cache.free hzero, ?_⟩
  show Threads (update s.pc t .out) s.lock (number (update s.memory a none)) s.refs
  rw [number_update]
  refine (h.threads.goto (.inl rfl) rfl).remove ?_
  intro u hu
  rcases eq_or_ne u t with rfl | hut
  · rw [update_self] at hu
    cases hu
  · rw [update_of_ne hut] at hu
    exact hut (h.threads.alone u t a hu hdying)

theorem Inv.next (hstep : nextMove n s t = some s') : Inv s' := by
  unfold nextMove at hstep
  split at hstep
  case h_1 => cases hstep
  case h_2 => cases hstep
  case h_3 b ht =>
    cases hstep
    have hthreads := h.threads
    rw [hthreads.locked t (by rw [ht]; rfl)] at hthreads
    refine ⟨h.cache, (hthreads.goto (.inr ?_) rfl).unlock ?_⟩
    · rw [ht]
      rfl
    · rw [update_self]
      rfl
  case h_4 b ht =>
    obtain ⟨ip, hip, rfl⟩ := map_eq_some_iff.mp hstep
    refine ⟨h.cache.edit hip _, ?_⟩
    show Threads (update s.pc t (.wipe b)) s.lock (number (update s.memory b _)) s.refs
    rw [number_assign hip _ _]
    exact h.threads.goto (.inr (by rw [ht]; rfl)) rfl
  case h_5 b ht =>
    obtain ⟨ip, -, rfl⟩ := map_eq_some_iff.mp hstep
    exact ⟨h.cache, h.threads.goto (.inr (by rw [ht]; rfl)) rfl⟩
  case h_6 b ht =>
    obtain ⟨-, hstep⟩ := ite_none_right_eq_some.mp hstep
    obtain ⟨-, -, rfl⟩ := map_eq_some_iff.mp hstep
    exact h.detach ht
  case h_7 type i ht =>
    obtain ⟨-, hstep⟩ := ite_none_right_eq_some.mp hstep
    split at hstep
    · cases hstep
      exact ⟨h.cache, h.threads.goto (.inl rfl) rfl⟩
    · cases hstep
      exact ⟨h.cache, h.threads.goto (.inl rfl) rfl⟩

end

/-- `inode_get` finds no inode that is being put away, and no count reaches 2^63. -/
def Kept (s : State T A) : Act T A → Prop
  | .get _ i => ∀ a ∈ s.find i, ∀ ip ∈ s.memory a, 0 < ip.rc ∧ ip.rc + 1 < 2 ^ 63
  | .share _ a => ∀ ip ∈ s.memory a, ip.rc + 1 < 2 ^ 63
  | .load .. | .put .. | .alloc .. | .next .. | .edit .. | .sync .. => True

instance decidableKept (s : State T A) : ∀ act, Decidable (Kept s act)
  | .get _ i => inferInstanceAs (Decidable (∀ a ∈ s.find i, ∀ ip ∈ s.memory a, 0 < ip.rc ∧ ip.rc + 1 < 2 ^ 63))
  | .share _ a => inferInstanceAs (Decidable (∀ ip ∈ s.memory a, ip.rc + 1 < 2 ^ 63))
  | .load .. | .put .. | .alloc .. | .next .. | .edit .. | .sync .. => isTrue trivial

theorem step_inv {act : Act T A} (h : Inv s) (hkept : Kept s act) (hstep : step n s act = some s') : Inv s' := by
  cases act with
  | get t i =>
    unfold step at hstep
    dsimp only at hstep
    split at hstep
    · obtain ⟨⟨hlock, -⟩, hstep⟩ := ite_none_right_eq_some.mp hstep
      split at hstep
      next a hfind =>
        obtain ⟨ip, hip, rfl⟩ := map_eq_some_iff.mp hstep
        obtain ⟨hpos, hlt⟩ := hkept a hfind ip hip
        exact h.ref hip hlt (h.not_dying_of_pos hip hpos) t
      next hfind =>
        cases hstep
        have hthreads := h.threads
        rw [hlock] at hthreads
        refine ⟨h.cache, hthreads.keep (fun b hb => nomatch hb) ?_⟩
        intro j hj
        cases hj
        exact h.number_ne hfind
    · cases hstep
  | load t a =>
    unfold step at hstep
    dsimp only at hstep
    split at hstep
    next i ht =>
      obtain ⟨⟨-, ha⟩, rfl⟩ := of_guard hstep
      exact h.load ht ha
    next => cases hstep
  | share t a =>
    obtain ⟨⟨-, hr⟩, hstep⟩ := ite_none_right_eq_some.mp hstep
    obtain ⟨ip, hip, rfl⟩ := map_eq_some_iff.mp hstep
    exact h.ref hip (hkept ip hip) (h.not_dying hr) t
  | put t a =>
    unfold step at hstep
    dsimp only at hstep
    split at hstep
    · obtain ⟨⟨hlock, hr⟩, hstep⟩ := ite_none_right_eq_some.mp hstep
      obtain ⟨ip, hip, rfl⟩ := map_eq_some_iff.mp hstep
      exact h.put hlock hr hip
    · cases hstep
  | alloc t type =>
    unfold step at hstep
    dsimp only at hstep
    split at hstep
    · obtain ⟨-, rfl⟩ := of_guard hstep
      exact ⟨h.cache, h.threads.goto (.inl rfl) rfl⟩
    · cases hstep
  | next t => exact h.next hstep
  | edit t a entry =>
    obtain ⟨-, hstep⟩ := ite_none_right_eq_some.mp hstep
    obtain ⟨ip, hip, rfl⟩ := map_eq_some_iff.mp hstep
    refine ⟨h.cache.edit hip entry, ?_⟩
    show Threads s.pc s.lock (number (update s.memory a _)) s.refs
    rw [number_assign hip _ _]
    exact h.threads
  | sync t a =>
    obtain ⟨-, hstep⟩ := ite_none_right_eq_some.mp hstep
    obtain ⟨-, -, rfl⟩ := map_eq_some_iff.mp hstep
    exact ⟨h.cache, h.threads⟩

/-- **One inode per number, and nobody's inode is freed**, in every run in which `inode_get` finds no inode that is being put away. -/
theorem inode_cache_safe (disk : Nat → InodeEntry) (as : List (Act T A)) (s : State T A) (hkept : RunMeets (step n) Kept (start disk) as)
    (hrun : run (step n) (start disk) as = some s) :
    s.head.Nodup ∧ (∀ a ∈ s.head, ∀ b ∈ s.head, number s.memory a = number s.memory b → a = b) ∧
      (∀ a ∈ s.head, s.memory a ≠ none) ∧ ∀ t a, (t, a) ∈ s.refs → a ∈ s.head ∧ s.memory a ≠ none := by
  have h := run_invariant (fun _ _ _ h => step_inv h) as (start disk) s (start_inv disk) hkept hrun
  have hin {a : A} (ha : a ∈ s.head) : s.memory a ≠ none := (h.cache.listed a).mp ha
  refine ⟨h.cache.nodup, ?_, fun a ha => hin ha, ?_⟩
  · intro a ha b hb heq
    obtain ⟨x, hx⟩ := ne_none_iff_exists'.mp (hin ha)
    obtain ⟨y, hy⟩ := ne_none_iff_exists'.mp (hin hb)
    rw [number, number, hx, hy] at heq
    exact h.cache.one a b x y hx hy (some.inj heq)
  · exact fun t a hr => ⟨(h.cache.listed a).mpr (h.cache.held (t, a) hr), h.cache.held (t, a) hr⟩

end Moves

/-- Three inodes: the first is not used, the others are files with one link. -/
def twoFiles (i : Nat) : InodeEntry := if i = 0 then .zero else { InodeEntry.zero with type := inodeRegular, numLinks := 1 }

/-- Two threads use the same inode and one of them puts it back. -/
theorem inode_cache_safe_shared : ∃ s : State (Fin 2) (Fin 2),
    run (step 3) (start twoFiles) [.get 0 2, .load 0 0, .get 1 2, .share 1 0, .put 0 0] = some s ∧ s.refs = [(1, 0), (1, 0)] ∧
      (0 : Fin 2) ∈ s.head ∧ s.memory 0 ≠ none := by
  refine exists_run (P := fun s => s.refs = [(1, 0), (1, 0)]) rfl fun s hrun hrefs => ⟨hrefs, ?_⟩
  obtain ⟨-, -, -, hheld⟩ := inode_cache_safe twoFiles _ s (by decide) hrun
  exact hheld 1 0 (by rw [hrefs]; exact mem_cons_self)

/-- The last reference to an unlinked file is put.  Before the inode is detached, another thread allocates the number again and gets
the same `Inode`, which is then freed. -/
theorem put_frees_shared : ∃ s : State (Fin 2) (Fin 2),
    run (step 3) (start twoFiles)
      [.get 0 2, .load 0 0, .edit 0 0 { InodeEntry.zero with type := inodeRegular }, .put 0 0, .next 0, .next 0, .next 0,
        .alloc 1 inodeRegular, .next 1, .next 1, .get 1 2, .next 0] = some s ∧
      (1, 0) ∈ s.refs ∧ (0 : Fin 2) ∉ s.head ∧ s.memory 0 = none :=
  ⟨_, rfl, mem_cons_self, not_mem_nil, rfl⟩

end Armv8Os.InodeCache
