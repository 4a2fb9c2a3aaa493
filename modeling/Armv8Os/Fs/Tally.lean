/-
  References and locks of inodes in memory, over ANY block cache.

  `Tally H R m` says what the memory of the inode layer owes: `R p` references are out for the inode at `p`,
  and exactly the inodes in `H` are locked (`H = none` says nothing about locks).  References are taken and given
  back one at a time, so one rule for each of `inode_get`, `inode_share`, `inode_put`, `inode_lock` and
  `inode_unlock` is enough, and every function above them moves `H` and `R` by what it takes and gives back.

  What the functions read or write on the disk does not matter here; those that leave pointers, locks and
  counts alone are `Silent`, whatever the cache does.  All rules are about calls that return.
-/
import Armv8Os.Fs.InodeLife
import Armv8Os.Fs.Directory

namespace Armv8Os.Fs

open Prog Sem List Option Mem
open Function (update update_of_ne update_self)

/-- If it returns, then with `Q`. -/
abbrev Ret {ε σ α : Type} (m : Prog ε σ α) (s : σ) (Q : α → σ → Prop) : Prop := wp m Q (fun _ => True) s

/-! ## Silent programs -/

/-- What neither reading nor writing changes. -/
def Inode.key (ip : Inode) : Semaphore Unit × Int × Nat := (ip.lock, ip.rc, ip.inodeNo)

/-- The same inodes, locks and counts. -/
structure Quiet (m m' : Mem) : Prop where
  heap : ∀ p, (m'.heap p).map Inode.key = (m.heap p).map Inode.key
  next : m'.next = m.next
  lockLog : m'.lockLog = m.lockLog

theorem Quiet.refl (m : Mem) : Quiet m m := ⟨fun _ => rfl, rfl, rfl⟩

theorem Quiet.trans {m₁ m₂ m₃ : Mem} (h : Quiet m₁ m₂) (h' : Quiet m₂ m₃) : Quiet m₁ m₃ :=
  ⟨fun p => (h'.heap p).trans (h.heap p), h'.next.trans h.next, h'.lockLog.trans h.lockLog⟩

/-- A program that changes entries at most. -/
def Silent {σ α : Type} (f : FsM σ α) : Prop := ∀ s m, Ret f (s, m) fun _ st => Quiet m st.2

section Silent

variable {σ α β : Type}

theorem Silent.pure (a : α) : Silent (pure a : FsM σ α) := fun _ m => Quiet.refl m

theorem Silent.bind {f : FsM σ β} {g : β → FsM σ α} (hf : Silent f) (hg : ∀ b, Silent (g b)) :
    Silent (f >>= g) := by
  intro s m
  rw [Ret, wp_bind]
  refine wp_imp (hf s m) (fun b st h => ?_)
  exact wp_imp (hg b st.1 st.2) (fun _ _ h' => h.trans h')

theorem Silent.ite {c : Prop} [Decidable c] {f g : FsM σ α} (hf : Silent f) (hg : Silent g) :
    Silent (if c then f else g) := by
  split
  · exact hf
  · exact hg

theorem Silent.dite {c : Prop} [Decidable c] {f : c → FsM σ α} {g : ¬ c → FsM σ α} (hf : ∀ h, Silent (f h))
    (hg : ∀ h, Silent (g h)) : Silent (if h : c then f h else g h) := by
  split
  · exact hf _
  · exact hg _

theorem Silent.assert (e : Stop) (c : Bool) : Silent (Prog.assert e c : FsM σ Unit) := by
  intro s m
  rw [Ret, wp_assert]
  exact ⟨fun _ => Quiet.refl m, fun _ => trivial⟩

/-- The cache does not reach the memory of the inode layer. -/
theorem Silent.onFst (f : Prog Stop σ α) : Silent (Prog.onFst f : FsM σ α) := by
  intro s m
  rw [Ret, wp_onFst]
  unfold wp
  cases f s with
  | ok r => exact Quiet.refl m
  | error e => trivial

theorem Silent.deref (p : Nat) : Silent (onSnd (Mem.deref p) : FsM σ Inode) := by
  intro s m
  rw [Ret, wp_onSnd]
  unfold wp Mem.deref
  cases m.heap p with
  | some ip => exact Quiet.refl m
  | none => trivial

theorem Silent.assign (p : Nat) {f : Inode → Inode} (hf : ∀ ip, (f ip).key = ip.key) :
    Silent (onSnd (Mem.assign p f) : FsM σ Unit) := by
  intro s m
  rw [Ret, wp_onSnd]
  unfold wp Mem.assign
  cases hp : m.heap p with
  | none => trivial
  | some ip =>
    refine ⟨fun q => ?_, rfl, rfl⟩
    show (update m.heap p (some (f ip)) q).map Inode.key = _
    rcases eq_or_ne q p with rfl | hq
    · rw [update_self, hp, map_some, map_some, hf]
    · rw [update_of_ne hq]

theorem Silent.assignEntry (p : Nat) (f : InodeEntry → InodeEntry) : Silent (assignEntry p f : FsM σ Unit) :=
  .assign p fun _ => rfl

theorem Silent.forFrom {f : Nat → FsM σ Unit} (hf : ∀ i, Silent (f i)) (i k : Nat) :
    Silent (Prog.forFrom f i k) := by
  induction k generalizing i with
  | zero => exact .pure ()
  | succ k ih => exact (hf i).bind fun _ => ih (i + 1)

end Silent

section Functions

variable {σ : Type} (cache : BlockCache σ) (sb : SuperBlock) (ctx : Option Nat) (p : Nat)

theorem inodeAlloc_silent (type : InodeType) : Silent (inodeAlloc cache sb ctx type) :=
  (Silent.assert _ _).bind fun _ => Silent.onFst _

theorem inodeSync_silent (doWrite : Bool) : Silent (inodeSync cache sb ctx p doWrite) := by
  refine (Silent.deref p).bind fun ip => (Silent.onFst _).bind fun d => Silent.ite ?_ (Silent.ite ?_ (Silent.pure ()))
  · exact (Silent.onFst _).bind fun _ => Silent.onFst _
  · refine (Silent.assign p ?_).bind fun _ => (Silent.onFst _).bind fun _ => Silent.assign p ?_
    · exact fun _ => rfl
    · exact fun _ => rfl

theorem clearDirect_silent (i : Nat) : Silent (clearDirect cache sb ctx p i) := by
  refine (Silent.deref p).bind fun ip => Silent.dite (fun h => Silent.ite ?_ (Silent.pure ())) fun _ => Silent.pure ()
  exact (Silent.onFst _).bind fun _ => Silent.assignEntry p _

theorem clearIndirect_silent : Silent (clearIndirect cache sb ctx p) := by
  refine (Silent.deref p).bind fun ip => Silent.ite ?_ (Silent.pure ())
  exact (Silent.onFst _).bind fun _ => (Silent.onFst _).bind fun _ => (Silent.onFst _).bind fun _ =>
    (Silent.onFst _).bind fun _ => Silent.assignEntry p _

theorem inodeClear_silent : Silent (inodeClear cache sb ctx p) :=
  (Silent.forFrom (clearDirect_silent cache sb ctx p) _ _).bind fun _ =>
    (clearIndirect_silent cache sb ctx p).bind fun _ => (Silent.assignEntry p _).bind fun _ =>
      inodeSync_silent cache sb ctx p true

theorem inodeMapIndirect_silent (k : Nat) : Silent (inodeMapIndirect cache sb ctx p k) := by
  refine (Silent.deref p).bind fun ip => Silent.ite ?_ (Silent.onFst _)
  exact (Silent.onFst _).bind fun _ => (Silent.assignEntry p _).bind fun _ => Silent.onFst _

theorem inodeMap_silent (offset : Nat) : Silent (inodeMap cache sb ctx p offset) := by
  refine (Silent.deref p).bind fun ip => Silent.dite (fun h => Silent.ite ?_ (Silent.pure _)) fun _ => ?_
  · exact (Silent.onFst _).bind fun _ => (Silent.assignEntry p _).bind fun _ => Silent.pure _
  · exact (Silent.assert _ _).bind fun _ => inodeMapIndirect_silent cache sb ctx p _

theorem readLoop_silent (fuel offset count : Nat) (acc : List UInt8) :
    Silent (readLoop cache sb p fuel offset count acc) := by
  induction fuel generalizing offset count acc with
  | zero => exact .pure acc
  | succ fuel ih =>
    refine .ite ?_ (.pure acc)
    exact (inodeMap_silent cache sb none p offset).bind fun _ => (Silent.assert _ _).bind fun _ =>
      (Silent.onFst _).bind fun _ => (Silent.onFst _).bind fun _ => ih _ _ _

theorem writeLoop_silent (fuel offset count : Nat) (src : Nat → UInt8) :
    Silent (writeLoop cache sb ctx p fuel offset count src) := by
  induction fuel generalizing offset count src with
  | zero => exact .pure ()
  | succ fuel ih =>
    refine .ite ?_ (.pure ())
    exact (inodeMap_silent cache sb ctx p offset).bind fun _ => (Silent.onFst _).bind fun _ =>
      (Silent.onFst _).bind fun _ => (Silent.onFst _).bind fun _ => ih _ _ _

end Functions

/-! ## The tally -/

/-- `R p` references to the inode at `p` are out, and exactly the inodes in `H` are locked. -/
structure Tally (H : Option (Finset Nat)) (R : Nat → Int) (m : Mem) : Prop where
  counted : ∀ p ip, m.heap p = some ip → ip.rc = R p ∧ 0 < R p
  gone : ∀ p, m.heap p = none → R p = 0
  fresh : ∀ p, m.next ≤ p → m.heap p = none
  locks : ∀ h, H = some h → (∀ p ip, m.heap p = some ip → ip.lock = initSem (if p ∈ h then 0 else 1)) ∧
    (∀ p ∈ h, p < m.next) ∧ ∀ v ∈ m.lockLog, v ≤ 1

/-- `k` references more to the inode at `p`. -/
def bump (R : Nat → Int) (p : Nat) (k : Int) : Nat → Int := update R p (R p + k)

@[simp] theorem bump_self (R : Nat → Int) (p : Nat) (k : Int) : bump R p k p = R p + k := update_self ..

variable {p : Nat} {q : Nat}

theorem bump_of_ne (R : Nat → Int) (h : q ≠ p) (k : Int) : bump R p k q = R q :=
  update_of_ne h ..

/-- What is taken and given back. -/
theorem bump_back (R : Nat → Int) (p : Nat) : bump (bump R p 1) p (-1) = R := by
  funext q
  rcases eq_or_ne q p with rfl | hq
  · rw [bump_self, bump_self]
    omega
  · rw [bump_of_ne _ hq, bump_of_ne _ hq]

/-- References to different inodes, or in different order. -/
theorem bump_comm (R : Nat → Int) (p q : Nat) (j k : Int) : bump (bump R p j) q k = bump (bump R q k) p j := by
  funext x
  by_cases hp : x = p <;> by_cases hq : x = q
  · subst hp hq
    simp only [bump_self]
    omega
  · subst hp
    rw [bump_of_ne _ hq, bump_self, bump_self, bump_of_ne _ hq]
  · subst hq
    rw [bump_self, bump_of_ne _ hp, bump_of_ne _ hp, bump_self]
  · rw [bump_of_ne _ hq, bump_of_ne _ hp, bump_of_ne _ hp, bump_of_ne _ hq]

/-- The locked inodes, one more. -/
def lockMore (H : Option (Finset Nat)) (p : Nat) : Option (Finset Nat) := H.map (insert p)

/-- The locked inodes, one less. -/
def lockLess (H : Option (Finset Nat)) (p : Nat) : Option (Finset Nat) := H.map (·.erase p)

/-- The inode at `p` is locked, as far as `H` says anything. -/
def Locked (H : Option (Finset Nat)) (p : Nat) : Prop := ∀ h, H = some h → p ∈ h

/-- It is not. -/
def Unlocked (H : Option (Finset Nat)) (p : Nat) : Prop := ∀ h, H = some h → p ∉ h

theorem locked_lockMore (H : Option (Finset Nat)) (p : Nat) : Locked (lockMore H p) p := by
  intro h hh
  obtain ⟨h', -, rfl⟩ := map_eq_some_iff.mp hh
  exact Finset.mem_insert_self p h'

variable {H : Option (Finset Nat)}

theorem Locked.lockMore (h : Locked H p) (q : Nat) : Locked (lockMore H q) p := by
  intro x hx
  obtain ⟨h', hh, rfl⟩ := map_eq_some_iff.mp hx
  exact Finset.mem_insert_of_mem (h h' hh)

/-- What is locked and unlocked. -/
theorem lockLess_lockMore (h : Unlocked H p) :
    lockLess (lockMore H p) p = H := by
  cases H with
  | none => rfl
  | some x => exact congrArg some (Finset.erase_insert (h x rfl))

theorem lockMore_lockLess (h : Locked H p) :
    lockMore (lockLess H p) p = H := by
  cases H with
  | none => rfl
  | some x => exact congrArg some (Finset.insert_erase (h x rfl))

theorem Unlocked.of_lockMore (h : Unlocked (lockMore H p) q) :
    Unlocked H q := by
  intro x hx hmem
  subst hx
  exact h _ rfl (Finset.mem_insert_of_mem hmem)

/-- Two locks, the first one given back first. -/
theorem lockLess_under (hp : Unlocked H p)
    (hq : Unlocked (lockMore H p) q) : lockLess (lockMore (lockMore H p) q) p = lockMore H q := by
  cases H with
  | none => rfl
  | some x =>
    have hne : q ≠ p := by
      rintro rfl
      exact hq _ rfl (Finset.mem_insert_self q x)
    show some ((insert q (insert p x)).erase p) = some (insert q x)
    rw [Finset.erase_insert_of_ne hne, Finset.erase_insert (hp x rfl)]

variable {α : Type}

section Rules

variable {σ : Type} {H : Option (Finset Nat)} {R : Nat → Int} {s : σ} {m : Mem}

theorem Quiet.tally {m' : Mem} (hq : Quiet m m') (h : Tally H R m) : Tally H R m' := by
  have hback : ∀ p ip', m'.heap p = some ip' → ∃ ip, m.heap p = some ip ∧ ip.key = ip'.key := by
    intro p ip' hp
    have := hq.heap p
    rw [hp, map_some] at this
    exact map_eq_some_iff.mp this.symm
  refine ⟨fun p ip' hp => ?_, fun p hp => ?_, fun p hp => ?_, fun x hx => ⟨fun p ip' hp => ?_, ?_, ?_⟩⟩
  · obtain ⟨ip, hip, hkey⟩ := hback p ip' hp
    rw [← (show ip.rc = ip'.rc from congrArg (fun k => k.2.1) hkey)]
    exact h.counted p ip hip
  · have := hq.heap p
    rw [hp] at this
    exact h.gone p (map_eq_none_iff.mp this.symm)
  · have := hq.heap p
    rw [h.fresh p (hq.next ▸ hp)] at this
    exact map_eq_none_iff.mp this
  · obtain ⟨ip, hip, hkey⟩ := hback p ip' hp
    rw [← (show ip.lock = ip'.lock from congrArg (fun k => k.1) hkey)]
    exact (h.locks x hx).1 p ip hip
  · rw [hq.next]
    exact (h.locks x hx).2.1
  · rw [hq.lockLog]
    exact (h.locks x hx).2.2

theorem Silent.tally {f : FsM σ α} (hf : Silent f) (h : Tally H R m) :
    Ret f (s, m) fun _ st => Tally H R st.2 :=
  wp_imp (hf s m) (fun _ _ hq => hq.tally h)

variable {ip : Inode}

/-- The inode at `p` is replaced. -/
theorem Tally.write {H' : Option (Finset Nat)} {R' : Nat → Int} {ip' : Inode} {l : List Int}
    (h : Tally H R m) (hp : m.heap p = some ip) (hrc : ip'.rc = R' p ∧ 0 < R' p) (hother : ∀ q, q ≠ p → R' q = R q)
    (hlocks : ∀ x, H' = some x → ∃ y, H = some y ∧ (ip'.lock = initSem (if p ∈ x then 0 else 1)) ∧
      (∀ q, q ≠ p → (q ∈ x ↔ q ∈ y)) ∧ ∀ v ∈ l, v ∈ m.lockLog ∨ v ≤ 1) :
    Tally H' R' { m.write p ip' with lockLog := l } := by
  have hlt : p < m.next := by
    by_contra hge
    rw [h.fresh p (by omega)] at hp
    cases hp
  refine ⟨fun q iq hq => ?_, fun q hq => ?_, fun q hq => ?_, fun x hx => ?_⟩
  · replace hq : update m.heap p (some ip') q = some iq := hq
    rcases eq_or_ne q p with rfl | hne
    · rw [update_self] at hq
      cases hq
      exact hrc
    · rw [update_of_ne hne] at hq
      rw [hother q hne]
      exact h.counted q iq hq
  · replace hq : update m.heap p (some ip') q = none := hq
    rcases eq_or_ne q p with rfl | hne
    · rw [update_self] at hq
      cases hq
    · rw [update_of_ne hne] at hq
      rw [hother q hne]
      exact h.gone q hq
  · have hne : q ≠ p := by
      replace hq : m.next ≤ q := hq
      omega
    exact (update_of_ne hne ..).trans (h.fresh q hq)
  · obtain ⟨y, hy, hself, hiff, hlog⟩ := hlocks x hx
    obtain ⟨hl, hrange, hold⟩ := h.locks y hy
    refine ⟨fun q iq hq => ?_, fun q hq => ?_, fun v hv => (hlog v hv).elim (hold v) id⟩
    · replace hq : update m.heap p (some ip') q = some iq := hq
      rcases eq_or_ne q p with rfl | hne
      · rw [update_self] at hq
        cases hq
        exact hself
      · rw [update_of_ne hne] at hq
        rw [hl q iq hq]
        simp only [hiff q hne]
    · rcases eq_or_ne q p with rfl | hne
      · exact hlt
      · exact hrange q ((hiff q hne).mp hq)

variable {Q : α → σ × Mem → Prop}

/-- A program that starts by following a pointer. -/
theorem ret_deref {f : Inode → FsM σ α}
    (h : ∀ ip, m.heap p = some ip → Ret (f ip) (s, m) Q) : Ret (onSnd (Mem.deref p) >>= f) (s, m) Q := by
  cases hp : m.heap p with
  | some ip =>
    rw [Ret, wp_bind, wp_onSnd]
    exact wp_deref hp (h ip hp)
  | none =>
    rw [Ret, wp_bind, wp_onSnd]
    unfold wp deref
    rw [hp]
    trivial

theorem ret_assert {e : Stop} {c : Bool} {f : FsM σ α} {st : σ × Mem}
    (h : c = true → Ret f st Q) : Ret (Prog.assert e c >>= fun _ => f) st Q := by
  rw [Ret, wp_bind, wp_assert]
  exact ⟨h, fun _ => trivial⟩

/-- The semaphore operations under `inode_lock`. -/
theorem tally_waitLock (h : Tally H R m) (p : Nat) :
    Ret (onSnd (Mem.waitLock p) : FsM σ Unit) (s, m) fun _ st =>
      Tally (lockMore H p) R st.2 ∧ Unlocked H p := by
  rw [Ret, wp_onSnd]
  unfold wp waitLock
  cases hp : m.heap p with
  | none => trivial
  | some ip =>
    obtain ⟨hrc, hpos⟩ := h.counted p ip hp
    dsimp only
    cases hw : waitSem ip.lock () with
    | mk ok sem =>
      cases ok with
      | false => trivial
      | true =>
        -- with a lock that is known, this was the one token
        have hlock : ∀ y, H = some y → p ∉ y ∧ sem = initSem 0 := by
          intro y hy
          rw [(h.locks y hy).1 p ip hp] at hw
          by_cases hmem : p ∈ y
          · rw [if_pos hmem] at hw
            cases hw
          · rw [if_neg hmem] at hw
            exact ⟨hmem, (Prod.ext_iff.mp hw).2.symm⟩
        refine ⟨h.write hp ⟨hrc, hpos⟩ (fun _ _ => rfl) fun x hx => ?_, fun y hy => (hlock y hy).1⟩
        obtain ⟨y, hy, rfl⟩ := map_eq_some_iff.mp hx
        refine ⟨y, hy, ?_, fun q hq => by rw [Finset.mem_insert, or_iff_right hq], fun v hv => ?_⟩
        · rw [if_pos (Finset.mem_insert_self p y)]
          exact (hlock y hy).2
        · rw [(hlock y hy).2] at hv
          exact (mem_append.mp hv).imp id fun hv => by rw [mem_singleton.mp hv]; decide

/-- Those under `inode_unlock`. -/
theorem tally_postLock (h : Tally H R m) (hlocked : Locked H p) :
    Ret (onSnd (Mem.postLock p) : FsM σ Unit) (s, m) fun _ st => Tally (lockLess H p) R st.2 := by
  rw [Ret, wp_onSnd]
  unfold wp postLock
  cases hp : m.heap p with
  | none => trivial
  | some ip =>
    obtain ⟨hrc, hpos⟩ := h.counted p ip hp
    dsimp only
    cases hw : postSem ip.lock with
    | none => trivial
    | some r =>
      have hlock : ∀ y, H = some y → r.2 = initSem 1 := by
        intro y hy
        rw [(h.locks y hy).1 p ip hp, if_pos (hlocked y hy)] at hw
        exact (Prod.ext_iff.mp (some.inj hw)).2.symm
      refine h.write hp ⟨hrc, hpos⟩ (fun _ _ => rfl) fun x hx => ?_
      obtain ⟨y, hy, rfl⟩ := map_eq_some_iff.mp hx
      refine ⟨y, hy, ?_, fun q hq => by rw [Finset.mem_erase, and_iff_right hq], fun v hv => ?_⟩
      · rw [if_neg (Finset.notMem_erase p y)]
        exact hlock y hy
      · rw [hlock y hy] at hv
        exact (mem_append.mp hv).imp id fun hv => by rw [mem_singleton.mp hv]; decide

theorem tally_lock (h : Tally H R m) (p : Nat) :
    Ret (inodeLock p : FsM σ Unit) (s, m) fun _ st => Tally (lockMore H p) R st.2 ∧ Unlocked H p :=
  ret_deref fun _ _ => ret_assert fun _ => tally_waitLock h p

theorem tally_unlock (h : Tally H R m) (hlocked : Locked H p) :
    Ret (inodeUnlock p : FsM σ Unit) (s, m) fun _ st => Tally (lockLess H p) R st.2 :=
  ret_deref fun _ _ => ret_assert fun _ => tally_postLock h hlocked

/-- One reference more to an inode in memory. -/
theorem Tally.take (h : Tally H R m) (hp : m.heap p = some ip) :
    Tally H (bump R p 1) (m.write p { ip with rc := ip.rc + 1 }) := by
  obtain ⟨hrc, hpos⟩ := h.counted p ip hp
  refine h.write (l := m.lockLog) hp ⟨?_, ?_⟩ (fun q hq => bump_of_ne R hq 1) fun x hx => ?_
  · rw [bump_self, ← hrc]
  · rw [bump_self]
    omega
  · exact ⟨x, hx, (h.locks x hx).1 p ip hp, fun _ _ => Iff.rfl, fun _ hv => Or.inl hv⟩

theorem tally_share (h : Tally H R m) (p : Nat) :
    Ret (inodeShare p : FsM σ Nat) (s, m) fun q st => q = p ∧ Tally H (bump R p 1) st.2 := by
  unfold inodeShare
  rw [Ret, wp_bind, wp_onSnd]
  unfold wp assign
  cases hp : m.heap p with
  | none => trivial
  | some ip => exact ⟨rfl, h.take hp⟩

variable (cache : BlockCache σ) (sb : SuperBlock)

theorem tally_get (h : Tally H R m) (ino : Nat) :
    Ret (inodeGet cache sb ino) (s, m) fun p st => Tally H (bump R p 1) st.2 := by
  refine ret_assert fun _ => ret_assert fun _ => ?_
  rw [Ret, wp_bind, wp_onSnd]
  refine wp_find ?_
  cases hs : m.search ino with
  | some p =>
    obtain ⟨-, ip, hp, -⟩ := search_eq_some hs
    simp only [wp_bind, wp_onSnd]
    exact wp_assign hp (h.take hp)
  | none =>
    simp only [wp_bind]
    refine wp_imp (Silent.onFst (cache.acquire (inodeBlock sb ino)) s m) (fun d st hq => ?_)
    rw [wp_assert]
    refine ⟨fun _ => ?_, fun _ => trivial⟩
    -- the new struct is at a pointer that was not in use
    have h1 := hq.tally h
    have hnone := h1.fresh st.2.next le_rfl
    have hnew : Tally H (bump R st.2.next 1)
        (st.2.inserted (Inode.loaded ino (readEntry d (ino % inodePerBlock)))) := by
      refine ⟨fun q iq hiq => ?_, fun q hiq => ?_, fun q hle => ?_, fun x hx => ⟨fun q iq hiq => ?_, fun q hmem => ?_, ?_⟩⟩
      · replace hiq : update st.2.heap st.2.next (some _) q = some iq := hiq
        rcases eq_or_ne q st.2.next with rfl | hne
        · rw [update_self] at hiq
          cases hiq
          rw [bump_self, h1.gone _ hnone]
          exact ⟨rfl, by decide⟩
        · rw [update_of_ne hne] at hiq
          rw [bump_of_ne R hne]
          exact h1.counted q iq hiq
      · replace hiq : update st.2.heap st.2.next (some _) q = none := hiq
        rcases eq_or_ne q st.2.next with rfl | hne
        · rw [update_self] at hiq
          cases hiq
        · rw [update_of_ne hne] at hiq
          rw [bump_of_ne R hne]
          exact h1.gone q hiq
      · replace hle : st.2.next + 1 ≤ q := hle
        exact (update_of_ne (by omega) ..).trans (h1.fresh q (by omega))
      · replace hiq : update st.2.heap st.2.next (some _) q = some iq := hiq
        rcases eq_or_ne q st.2.next with rfl | hne
        · rw [update_self] at hiq
          cases hiq
          rw [if_neg fun hmem => (h1.locks x hx).2.1 _ hmem |>.ne rfl]
          rfl
        · rw [update_of_ne hne] at hiq
          exact (h1.locks x hx).1 q iq hiq
      · exact Nat.lt_succ_of_lt ((h1.locks x hx).2.1 q hmem)
      · exact (h1.locks x hx).2.2
    show wp (onFst (cache.release (inodeBlock sb ino))) _ _ (_, _)
    exact wp_imp (Silent.onFst (cache.release (inodeBlock sb ino)) _ _) (fun _ _ hq' => hq'.tally hnew)

/-! ## The last reference -/

/-- Only the inode at `p` has changed, and the lock log may be longer. -/
structure QuietBut (p : Nat) (m m' : Mem) : Prop where
  heap : ∀ q, q ≠ p → (m'.heap q).map Inode.key = (m.heap q).map Inode.key
  next : m'.next = m.next
  lockLog : ∀ v ∈ m'.lockLog, v ∈ m.lockLog ∨ ∃ ip, m.heap p = some ip ∧ v ≤ ip.lock.val

theorem deleteInode_quietBut (ctx : Option Nat) (p ino : Nat) :
    Ret (deleteInode cache sb ctx p ino) (s, m) fun _ st => QuietBut p m st.2 := by
  unfold deleteInode
  rw [Ret, wp_bind, wp_onSnd]
  cases hp : m.heap p with
  | none =>
    unfold wp waitLock
    rw [hp]
    trivial
  | some ip =>
    refine wp_waitLock hp (fun _ => trivial) fun hval => ?_
    generalize hm1 : m.setLock p ip (ip.lock.val - 1) = m₁
    have hlock1 : (m₁.heap p).map Inode.key =
        some ({ ip.lock with val := ip.lock.val - 1 }, ip.rc, ip.inodeNo) := by
      rw [← hm1]
      show ((m.write p _).heap p).map Inode.key = _
      rw [heap_write_self]
      rfl
    have hbut : QuietBut p m m₁ := by
      rw [← hm1]
      refine ⟨fun q hq => ?_, rfl, fun v hv => ?_⟩
      · show ((m.write p _).heap q).map Inode.key = _
        rw [heap_write_of_ne _ hq]
      · refine (mem_append.mp hv).imp id fun hv => ⟨ip, hp, ?_⟩
        rw [mem_singleton.mp hv]
        omega
    -- between the two semaphore operations only the entry changes
    have hsilent : Silent (do
        inodeClear cache sb ctx p
        let d ← onFst (cache.acquire (inodeBlock sb ino))
        onFst (cache.sync ctx (inodeBlock sb ino) (writeEntry d (ino % inodePerBlock) InodeEntry.zero))
        onFst (cache.release (inodeBlock sb ino))) :=
      (inodeClear_silent cache sb ctx p).bind fun _ => (Silent.onFst _).bind fun _ =>
        (Silent.onFst _).bind fun _ => Silent.onFst _
    have hwp := hsilent s m₁
    simp only [Ret, wp_bind] at hwp ⊢
    refine wp_imp hwp (fun _ st₁ hst1 => wp_imp hst1 (fun _ st₂ hst2 => wp_imp hst2 (fun _ st₃ hst3 =>
      wp_imp hst3 (fun _ st₄ hq => ?_))))
    have hkey := (hq.heap p).trans hlock1
    obtain ⟨ip', hp', hip'⟩ := map_eq_some_iff.mp hkey
    have hlock' : ip'.lock = { ip.lock with val := ip.lock.val - 1 } := congrArg Prod.fst hip'
    rw [wp_onSnd]
    refine wp_postLock hp' (by rw [hlock']; exact Int.le_sub_one_of_lt hval) ?_
    refine ⟨fun q hne => ?_, hq.next.trans hbut.next, fun v hv => ?_⟩
    · show ((st₄.2.write p _).heap q).map Inode.key = _
      rw [heap_write_of_ne _ hne]
      exact (hq.heap q).trans (hbut.heap q hne)
    · rcases mem_append.mp hv with hv | hv
      · exact hbut.lockLog v (hq.lockLog ▸ hv)
      · refine Or.inr ⟨ip, hp, ?_⟩
        rw [mem_singleton.mp hv, hlock']
        show ip.lock.val - 1 + 1 ≤ _
        omega

/-- `_detach_from_list(&inode->node); kfree(inode)` with the last reference. -/
theorem Tally.freed (h : Tally H R m) (hp : m.heap p = some ip) (hlast : R p ≤ 1)
    {m' : Mem} (hbut : QuietBut p m m') : Tally H (bump R p (-1)) (m'.freed p) := by
  obtain ⟨-, hpos⟩ := h.counted p ip hp
  have hsome : ∀ q iq, (m'.freed p).heap q = some iq → q ≠ p ∧ ∃ iq₀, m.heap q = some iq₀ ∧ iq₀.key = iq.key := by
    intro q iq hq
    replace hq : update m'.heap p none q = some iq := hq
    have hne : q ≠ p := by
      rintro rfl
      rw [update_self] at hq
      cases hq
    rw [update_of_ne hne] at hq
    have hkey := hbut.heap q hne
    rw [hq, map_some] at hkey
    exact ⟨hne, map_eq_some_iff.mp hkey.symm⟩
  refine ⟨fun q iq hq => ?_, fun q hq => ?_, fun q hq => ?_, fun x hx => ⟨fun q iq hq => ?_, ?_, fun v hv => ?_⟩⟩
  · obtain ⟨hne, iq₀, hiq0, hkey⟩ := hsome q iq hq
    rw [bump_of_ne R hne, ← (show iq₀.rc = iq.rc from congrArg (fun k => k.2.1) hkey)]
    exact h.counted q iq₀ hiq0
  · replace hq : update m'.heap p none q = none := hq
    rcases eq_or_ne q p with rfl | hne
    · rw [bump_self]
      omega
    · rw [update_of_ne hne] at hq
      have hkey := hbut.heap q hne
      rw [hq] at hkey
      rw [bump_of_ne R hne]
      exact h.gone q (map_eq_none_iff.mp hkey.symm)
  · show update m'.heap p none q = none
    rcases eq_or_ne q p with rfl | hne
    · exact update_self ..
    · rw [update_of_ne hne]
      have hkey := hbut.heap q hne
      rw [h.fresh q (hbut.next ▸ hq)] at hkey
      exact map_eq_none_iff.mp hkey
  · obtain ⟨-, iq₀, hiq0, hkey⟩ := hsome q iq hq
    rw [← (show iq₀.lock = iq.lock from congrArg (fun k => k.1) hkey)]
    exact (h.locks x hx).1 q iq₀ hiq0
  · show ∀ q ∈ x, q < m'.next
    rw [hbut.next]
    exact (h.locks x hx).2.1
  · rcases hbut.lockLog v hv with hv | ⟨ip₀, hip0, hle⟩
    · exact (h.locks x hx).2.2 v hv
    · rw [(h.locks x hx).1 p ip₀ hip0] at hle
      refine hle.trans ?_
      show (if p ∈ x then 0 else 1 : Int) ≤ 1
      split <;> decide

/-- A reference is given back. -/
theorem tally_put (h : Tally H R m) (ctx : Option Nat) (p : Nat) :
    Ret (inodePut cache sb ctx p) (s, m) fun _ st => Tally H (bump R p (-1)) st.2 := by
  unfold inodePut
  rw [Ret, wp_bind, wp_onSnd]
  cases hp : m.heap p with
  | none =>
    unfold wp assign
    rw [hp]
    trivial
  | some ip =>
    obtain ⟨hrc, hpos⟩ := h.counted p ip hp
    refine wp_assign hp ?_
    rw [wp_bind, wp_onSnd]
    refine wp_deref (heap_write_self ..) ?_
    have hbut1 : QuietBut p m (m.write p { ip with rc := ip.rc - 1 }) :=
      ⟨fun q hq => by rw [heap_write_of_ne _ hq], rfl, fun _ hv => Or.inl hv⟩
    split
    · rename_i hmore
      replace hmore : 0 < ip.rc - 1 := hmore
      refine h.write (l := m.lockLog) hp ⟨?_, ?_⟩ (fun q hq => bump_of_ne R hq _) fun x hx => ?_
      · rw [bump_self, ← hrc]
        rfl
      · rw [bump_self]
        omega
      · exact ⟨x, hx, (h.locks x hx).1 p ip hp, fun _ _ => Iff.rfl, fun _ hv => Or.inl hv⟩
    · rename_i hlast
      replace hlast : ¬ 0 < ip.rc - 1 := hlast
      split
      · rw [wp_bind]
        refine wp_imp (deleteInode_quietBut cache sb ctx p _) (fun _ st hbut => ?_)
        rw [wp_onSnd]
        refine wp_free (h.freed hp (by omega) ⟨fun q hq => (hbut.heap q hq).trans (hbut1.heap q hq), hbut.next,
          fun v hv => (hbut.lockLog v hv).imp id fun ⟨ip₁, hip1, hle⟩ => ⟨ip, hp, ?_⟩⟩)
        rw [heap_write_self] at hip1
        rw [← some.inj hip1] at hle
        exact hle
      · rw [wp_onSnd]
        exact wp_free (h.freed hp (by omega) hbut1)

end Rules

/-! ## Functions that give everything back -/

/-- Nothing is taken or given back. -/
def Steady {σ α : Type} (H : Option (Finset Nat)) (f : FsM σ α) : Prop :=
  ∀ R s m, Tally H R m → Ret f (s, m) fun _ st => Tally H R st.2

section Steady

variable {σ α β : Type} {H : Option (Finset Nat)}

theorem Silent.steady {f : FsM σ α} (hf : Silent f) : Steady H f := fun _ _ _ h => hf.tally h

theorem Steady.bind {f : FsM σ β} {g : β → FsM σ α} (hf : Steady H f) (hg : ∀ b, Steady H (g b)) :
    Steady H (f >>= g) := fun R s m h => wp_seq (hf R s m h) fun b st h' => hg b R st.1 st.2 h'

theorem Steady.ite {c : Prop} {_ : Decidable c} {f g : FsM σ α} (hf : Steady H f) (hg : Steady H g) :
    Steady H (if c then f else g) := by
  split
  · exact hf
  · exact hg

theorem Steady.pure (a : α) : Steady H (pure a : FsM σ α) := (Silent.pure a).steady

variable (cache : BlockCache σ) (sb : SuperBlock) {p : Nat} (hlocked : Locked H p)

include hlocked

theorem consoleRead_steady (count : UInt64) (con : Option (List UInt8)) :
    Steady H (consoleRead p count con : FsM σ (UInt64 × List UInt8)) := by
  intro R s m h
  refine wp_seq (tally_unlock h hlocked) fun _ st h1 => ?_
  refine wp_seq (tally_lock h1 p) fun _ st' h2 => ?_
  rw [lockMore_lockLess hlocked] at h2
  cases con with
  | some bytes => exact h2.1
  | none => exact Steady.ite (Steady.pure _) (Steady.pure _) R st'.1 st'.2 h2.1

theorem consoleWrite_steady (count : UInt64) : Steady H (consoleWrite p count : FsM σ UInt64) := by
  refine (Silent.deref p).steady.bind fun ip => Steady.ite (Steady.pure _) ?_
  intro R s m h
  refine wp_seq (tally_unlock h hlocked) fun _ st h1 => ?_
  refine wp_seq (tally_lock h1 p) fun _ st' h2 => ?_
  rw [lockMore_lockLess hlocked] at h2
  exact h2.1

theorem inodeRead_steady (offset count : UInt64) (con : Option (List UInt8)) :
    Steady H (inodeRead cache sb p offset count con) := by
  refine (Silent.deref p).steady.bind fun ip => Steady.ite ?_ ?_
  · exact (Silent.assert _ _).steady.bind fun _ => consoleRead_steady hlocked count con
  · refine (Silent.assert _ _).steady.bind fun _ => (Silent.assert _ _).steady.bind fun _ =>
      (Silent.assert _ _).steady.bind fun _ => ?_
    exact (readLoop_silent cache sb p _ _ _ _).steady.bind fun _ => Steady.pure _

theorem inodeWrite_steady (ctx : Option Nat) (src : Nat → UInt8) (offset count : UInt64) :
    Steady H (inodeWrite cache sb ctx p src offset count) := by
  refine (Silent.deref p).steady.bind fun ip => Steady.ite ?_ ?_
  · exact (Silent.assert _ _).steady.bind fun _ => consoleWrite_steady hlocked count
  · refine (Silent.assert _ _).steady.bind fun _ => (Silent.assert _ _).steady.bind fun _ =>
      (Silent.assert _ _).steady.bind fun _ => ?_
    exact (writeLoop_silent cache sb ctx p _ _ _ _).steady.bind fun _ =>
      (Silent.assignEntry p _).steady.bind fun _ => (inodeSync_silent cache sb ctx p true).steady.bind fun _ =>
        Steady.pure _

theorem readDirEntry_steady (offset : UInt64) : Steady H (readDirEntry cache sb p offset) :=
  (inodeRead_steady cache sb hlocked _ _ _).bind fun _ => (Silent.assert _ _).steady.bind fun _ => Steady.pure _

theorem lookupLoop_steady (name : List UInt8) (fuel : Nat) (offset : UInt64) :
    Steady H (lookupLoop cache sb p name fuel offset) := by
  induction fuel generalizing offset with
  | zero => exact .pure _
  | succ fuel ih =>
    refine (Silent.deref p).steady.bind fun ip => Steady.ite ?_ (Steady.pure _)
    exact (readDirEntry_steady cache sb hlocked offset).bind fun d => Steady.ite (Steady.pure _) (ih _)

theorem inodeLookup_steady (name : List UInt8) : Steady H (inodeLookup cache sb p name) :=
  (Silent.deref p).steady.bind fun _ => (Silent.assert _ _).steady.bind fun _ =>
    lookupLoop_steady cache sb hlocked name _ _

theorem freeEntryLoop_steady (fuel : Nat) (offset : UInt64) : Steady H (freeEntryLoop cache sb p fuel offset) := by
  induction fuel generalizing offset with
  | zero => exact .pure _
  | succ fuel ih =>
    refine (Silent.deref p).steady.bind fun ip => Steady.ite ?_ (Steady.pure _)
    exact (readDirEntry_steady cache sb hlocked offset).bind fun d => Steady.ite (Steady.pure _) (ih _)

theorem writeDirEntry_steady (ctx : Option Nat) (d : DirEntry) (offset : UInt64) :
    Steady H (writeDirEntry cache sb ctx p d offset) :=
  (inodeWrite_steady cache sb hlocked ctx _ _ _).bind fun _ => (Silent.assert _ _).steady

theorem inodeInsert_steady (ctx : Option Nat) (name : List UInt8) (ino : Nat) :
    Steady H (inodeInsert cache sb ctx p name ino) := by
  refine (Silent.deref p).steady.bind fun ip => (Silent.assert _ _).steady.bind fun _ =>
    (inodeLookup_steady cache sb hlocked name).bind fun r => ?_
  cases r with
  | some r => exact Steady.pure _
  | none =>
    exact (freeEntryLoop_steady cache sb hlocked _ _).bind fun offset =>
      (writeDirEntry_steady cache sb hlocked ctx _ offset).bind fun _ => Steady.pure _

end Steady

/-! ## Paths -/

/-- A function that returns an inode has taken one reference to it. -/
def Returned (H : Option (Finset Nat)) (R : Nat → Int) (r : Option Nat) (m : Mem) : Prop :=
  match r with
  | none => Tally H R m
  | some q => Tally H (bump R q 1) m

section Paths

variable {σ : Type} (cache : BlockCache σ) (sb : SuperBlock) {H : Option (Finset Nat)} {R : Nat → Int} {s : σ} {m : Mem}

/-- Unlock and put what has been taken and locked. -/
theorem tally_giveUp (h : Tally (lockMore H p) (bump R p 1) m) (hfree : Unlocked H p) (ctx : Option Nat) :
    Ret (giveUp cache sb ctx p : FsM σ (Option α)) (s, m) fun r st => r = none ∧ Tally H R st.2 := by
  refine wp_seq (tally_unlock h (locked_lockMore H p)) fun _ st h1 => ?_
  rw [lockLess_lockMore hfree] at h1
  refine wp_seq (tally_put cache sb h1 ctx p) fun _ st₂ h2 => ?_
  rw [bump_back] at h2
  exact ⟨rfl, h2⟩

/-- The loop gives the reference it starts with back, or it returns it. -/
theorem tally_namexLoop (ctx : Option Nat) (parent : Bool) (names : List (List UInt8)) (h : Tally H (bump R p 1) m) :
    Ret (namexLoop cache sb ctx parent names p) (s, m) fun r st => Returned H R (r.map Prod.fst) st.2 := by
  induction names generalizing p s m with
  | nil =>
    unfold namexLoop
    split
    · refine wp_seq (tally_put cache sb h ctx p) fun _ st h1 => ?_
      rw [bump_back] at h1
      exact h1
    · exact h
  | cons name rest ih =>
    refine wp_seq (tally_lock h p) fun _ st h1 => ?_
    refine ret_deref fun ip _ => ?_
    split
    · refine wp_imp (tally_giveUp cache sb h1.1 h1.2 ctx) (fun r st' h2 => ?_)
      rw [h2.1]
      exact h2.2
    · split
      · refine wp_seq (tally_unlock h1.1 (locked_lockMore H p)) fun _ st' h2 => ?_
        rw [lockLess_lockMore h1.2] at h2
        exact h2
      · refine wp_seq (inodeLookup_steady cache sb (locked_lockMore H p) name _ _ _ h1.1) fun r st₂ h2 => ?_
        cases r with
        | none =>
          refine wp_imp (tally_giveUp cache sb h2 h1.2 ctx) (fun r st' h3 => ?_)
          rw [h3.1]
          exact h3.2
        | some r =>
          refine wp_seq (tally_get cache sb h2 r.1) fun q st₃ h3 => ?_
          refine wp_seq (tally_unlock h3 (locked_lockMore H p)) fun _ st₄ h4 => ?_
          rw [lockLess_lockMore h1.2] at h4
          refine wp_seq (tally_put cache sb h4 ctx p) fun _ st₅ h5 => ?_
          -- hand over hand: the new reference stays, the old one goes
          rw [bump_comm R, bump_back] at h5
          exact ih h5

theorem tally_namex (h : Tally H R m) (cwd : Option Nat) (path : List UInt8) (parent : Bool) (ctx : Option Nat) :
    Ret (namex cache sb cwd path parent ctx) (s, m) fun r st => Returned H R (r.map Prod.fst) st.2 := by
  have hstart : Ret (namexStart cache sb cwd path) (s, m) fun p st => Tally H (bump R p 1) st.2 := by
    unfold namexStart
    split
    · exact tally_get cache sb h rootInodeNo
    · cases cwd with
      | none => trivial
      | some p =>
        refine wp_imp (tally_share h p) (fun q st h1 => ?_)
        rw [h1.1]
        exact h1.2
  exact wp_seq hstart fun p st h1 => tally_namexLoop cache sb ctx parent _ h1

theorem tally_namei (h : Tally H R m) (cwd : Option Nat) (path : List UInt8) (ctx : Option Nat) :
    Ret (namei cache sb cwd path ctx) (s, m) fun r st => Returned H R r st.2 :=
  wp_seq (tally_namex cache sb h cwd path false ctx) fun _ _ h1 => h1

end Paths

end Armv8Os.Fs
