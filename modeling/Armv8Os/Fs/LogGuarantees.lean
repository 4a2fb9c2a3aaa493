/-
  What the log promises to concurrent operations, and where `end_sem` breaks the promise.

  1. `log_space_accounting` — in every state of every interleaving without a commit in progress,
     `real_use` is the recorded blocks plus the budgets still open and stays within the log, so a
     `cache_sync` that does not panic never leaves the header array or the log area, and it panics
     exactly on the eleventh block its own operation would record.

  2. `no_thread_stranded` — the lost wake-up.  `cache_end_op` releases `log.lock` BEFORE it sleeps
     on `end_sem`, and `post_all_sem` leaves no token behind: a thread that reaches the semaphore
     after its batch has been announced sleeps on (`late_waiter_stranded` is the shortest run).
     In every run whose waits on `end_sem` still have an announcement ahead of them nobody is
     stranded, on `begin_sem` or on `end_sem`.

  3. `end_op_durable` — the early wake-up.  The committer clears `committing` first and posts
     `end_sem` later; in between a new batch can start and go to sleep there, and the late post
     returns it undone (`late_post_not_durable`).  In every run whose posts on `end_sem` find only
     threads of finished commits, a returning `cache_end_op` finds its blocks written home.

  4. `commit_isolated` — nobody interferes with a commit.
-/
import Armv8Os.Fs.LogThreads

set_option linter.unusedSectionVars false

namespace Armv8Os.LogThreads

open Fs Sem Transition Option

variable {T : Type} [DecidableEq T] [Fintype T]

/-! ## Space accounting -/

/-- The sum of the budgets over the running operations. -/
theorem sum_runRm (s : State T) :
    (∑ t, runRm s t) = ∑ t ∈ Finset.univ.filter (fun t => s.pc t = .running), (s.ctx t).rm := by
  simp only [runRm, Finset.sum_filter]

/-- The number of running operations. -/
theorem sum_runOne (s : State T) :
    (∑ t, runOne s t) = (Finset.univ.filter (fun t => s.pc t = .running)).card := by
  simp only [runOne, Finset.card_filter]

variable {s : State T} {sb : SuperBlock} {t : T}

/-- A slot that a sync fills lies within the log. -/
theorem findSlot_lt_of_sync (h : AcctInv sb s) {b : Nat} (ht : s.pc t = .running) {h' : LogHeader} {rm' : Nat}
    (hs : syncSection s.header (s.ctx t).rm b = some (h', rm')) :
    s.header.findSlot b < logCapacity sb := by
  have hdone : ∀ u, s.pc u ≠ .commitDone := fun u hu => not_inCommit_of_running h ht u (.inr hu)
  have huse := h.realUse hdone
  have hcap := h.capacity
  have hrm : (s.ctx t).rm ≤ ∑ u, runRm s u := by
    calc (s.ctx t).rm = runRm s t := by simp [runRm, ht]
      _ ≤ _ := Finset.single_le_sum (fun _ _ => Nat.zero_le _) (Finset.mem_univ t)
  rcases syncSection_spec hs with ⟨hb, _, _⟩ | ⟨hb, hrm1, _, _⟩
  · have := LogHeader.findSlot_lt_iff.mpr hb
    omega
  · have := s.header.findSlot_le b
    omega

/-- **Log space accounting.** -/
theorem log_space_accounting (sb : SuperBlock)
    (hsb : opMaxNumBlocks + 1 ≤ sb.numLogBlocks.toNat) (as : List (Act T)) (s : State T)
    (hrun : run (step sb) (initial T) as = some s) :
    (s.log.committing = false →
      s.log.realUse = s.header.numBlocks
        + ∑ t ∈ Finset.univ.filter (fun t => s.pc t = .running), (s.ctx t).rm ∧
      s.log.realUse ≤ min (sb.numLogBlocks.toNat - 1) logMaxSize ∧
      s.log.outstanding = (Finset.univ.filter (fun t => s.pc t = .running)).card ∧
      s.header.recorded.Nodup) ∧
    (∀ t b, s.pc t = .running →
      (syncOp s t b = none ↔
        b ∉ s.header.recorded ∧ opMaxNumBlocks < (s.ctx t).recorded.length + 1) ∧
      (∀ s', syncOp s t b = some s' →
        s.header.findSlot b < logMaxSize ∧
        sb.logStart.toNat + 1 + s.header.findSlot b
          < sb.logStart.toNat + sb.numLogBlocks.toNat)) := by
  have h := (reachable_inv hrun).acct
  have hcapeq : logCapacity sb = min (sb.numLogBlocks.toNat - 1) logMaxSize :=
    logCapacity_eq (by omega)
  refine ⟨fun hc => ⟨?_, ?_, ?_, h.nodup⟩, fun t b ht => ⟨?_, fun s' hs' => ?_⟩⟩
  · rw [← sum_runRm]
    refine h.realUse fun t ht => ?_
    rw [h.committing.mpr ⟨t, .inr ht⟩] at hc
    cases hc
  · rw [← hcapeq]; exact h.capacity
  · rw [← sum_runOne]; exact h.outstanding
  · have hbud := h.budget t ht
    rw [syncOp, map_eq_none_iff, syncSection_eq_none]
    exact and_congr_right fun _ => by omega
  · obtain ⟨r, hr, _⟩ := map_eq_some_iff.mp hs'
    have := findSlot_lt_of_sync h ht hr
    omega

/-- Two operations run, the first has recorded a block and absorbed it once. -/
theorem log_space_accounting_two_ops : ∃ s,
    run (step (logDisk 63)) (initial (Fin 2))
      [.call 0, .beginTest 0, .call 1, .beginTest 1, .sync 0 100, .sync 0 100] = some s ∧
    s.log.realUse = 20 ∧ s.log.realUse ≤ min ((logDisk 63).numLogBlocks.toNat - 1) logMaxSize := by
  refine exists_run (P := fun s => s.log.committing = false ∧ s.log.realUse = 20) (by decide) fun s hs ⟨hc, hu⟩ => ?_
  exact ⟨hu, ((log_space_accounting (logDisk 63) (by decide) _ s hs).1 hc).2.1⟩

/-! ## The lost wake-up on `end_sem` -/

/-- Nobody can move any more, yet somebody sleeps: no operation is outstanding, no commit runs,
    and every thread is outside or asleep. -/
def Stranded (s : State T) : Prop :=
  s.log.outstanding = 0 ∧ s.log.committing = false ∧ (∀ t, ¬ InCommit s t) ∧
  (∀ t, s.pc t = .idle ∨ s.pc t = .beginAsleep ∨ s.pc t = .endAsleep) ∧
  (∃ t, s.pc t = .beginAsleep ∨ s.pc t = .endAsleep)

/-- A committer has announced its commit on neither semaphore yet, or only on `begin_sem`. -/
def Announcing (s : State T) (t : T) : Prop := s.pc t = .postBegin ∨ s.pc t = .postEnd

/-- The condition: a thread goes to sleep on `end_sem` only while a post on it is still to come,
    because an operation is outstanding, a commit runs or a committer has not announced it yet. -/
def EndWaitInTime (s : State T) : Act T → Prop
  | .endWait _ => 0 < s.log.outstanding ∨ s.log.committing = true ∨ ∃ u, Announcing s u
  | _ => True

instance (s : State T) (t : T) : Decidable (InCommit s t) :=
  inferInstanceAs (Decidable (_ ∨ _))

instance (s : State T) : Decidable (Stranded s) :=
  inferInstanceAs (Decidable (_ ∧ _ ∧ _ ∧ _ ∧ _))

instance (s : State T) (t : T) : Decidable (Announcing s t) :=
  inferInstanceAs (Decidable (_ ∨ _))

instance (s : State T) (a : Act T) : Decidable (EndWaitInTime s a) :=
  match a with
  | .endWait _ => inferInstanceAs (Decidable (_ ∨ _ ∨ _))
  | .call _ | .beginTest _ | .beginWait _ | .beginWake _ | .sync _ _ | .endOp _ | .commit _
  | .clear _ | .postBegin _ | .postEnd _ | .ret _ => isTrue trivial

/-- Whoever sleeps has a post ahead. -/
structure WakeInv (s : State T) : Prop where
  endAsleep : ∀ t, s.pc t = .endAsleep →
    0 < s.log.outstanding ∨ s.log.committing = true ∨ ∃ u, Announcing s u
  beginAsleep : ∀ t, s.pc t = .beginAsleep ∨ s.pc t = .beginWait →
    0 < s.log.outstanding ∨ s.log.committing = true ∨ ∃ u, s.pc u = .postBegin

theorem WakeInv.not_stranded (h : WakeInv s) : ¬ Stranded s := by
  rintro ⟨hout, hcom, _, hall, t, ht⟩
  have hnobody : ∀ u, s.pc u ≠ .postBegin ∧ s.pc u ≠ .postEnd := by
    intro u
    rcases hall u with hu | hu | hu <;> simp [hu]
  rcases ht with ht | ht
  · rcases h.beginAsleep t (.inl ht) with h1 | h1 | ⟨u, hu⟩
    · omega
    · rw [hcom] at h1; cases h1
    · exact (hnobody u).1 hu
  · rcases h.endAsleep t ht with h1 | h1 | ⟨u, hu | hu⟩
    · omega
    · rw [hcom] at h1; cases h1
    · exact (hnobody u).1 hu
    · exact (hnobody u).2 hu

variable {s' : State T}

theorem ahead_imp {Q Q' : T → Prop} (h : 0 < s.log.outstanding ∨ s.log.committing = true ∨ ∃ u, Q u)
    (hQ : ∀ u, Q u → ∃ v, Q' v) : 0 < s.log.outstanding ∨ s.log.committing = true ∨ ∃ u, Q' u := by
  rcases h with h1 | h1 | ⟨u, hu⟩
  · exact .inl h1
  · exact .inr (.inl h1)
  · exact .inr (.inr (hQ u hu))

/-- A move that leaves the log alone, keeps every announcer and puts nobody new to sleep. -/
theorem WakeInv.frame (h : WakeInv s) (hlog : s'.log = s.log) (hpost : ∀ u, s.pc u = .postBegin → s'.pc u = .postBegin)
    (hann : ∀ u, Announcing s u → ∃ v, Announcing s' v) (hend : ∀ u, s'.pc u = .endAsleep → s.pc u = .endAsleep)
    (hbegin : ∀ u, s'.pc u = .beginAsleep ∨ s'.pc u = .beginWait →
      s.pc u = .beginAsleep ∨ s.pc u = .beginWait) : WakeInv s' := by
  refine ⟨fun t ht => ?_, fun t ht => ?_⟩
  · rw [hlog]
    exact ahead_imp (h.endAsleep t (hend t ht)) hann
  · rw [hlog]
    exact ahead_imp (h.beginAsleep t (hbegin t ht)) fun u hu => ⟨u, hpost u hu⟩

/-- One thread, not an announcer, moves to a position where it does not sleep. -/
theorem WakeInv.goto (h : WakeInv s) {p : Pc} (ht : ¬ Announcing s t) (hp : p.awake) : WakeInv (s.goto t p) := by
  have hne : ∀ u, Announcing s u → (s.goto t p).pc u = s.pc u := fun u hu =>
    goto_pc_of_ne s p fun e => ht (e ▸ hu)
  refine h.frame rfl (fun u hu => ?_) (fun u hu => ⟨u, ?_⟩) (fun u hu => ?_) (fun u hu => ?_)
  · rw [hne u (.inl hu)]; exact hu
  · unfold Announcing; rw [hne u hu]; exact hu
  · rw [goto_pc] at hu
    split at hu
    · exact absurd hu hp.2.1
    · exact hu
  · rw [goto_pc] at hu
    split at hu
    · rcases hu with hu | hu
      · exact absurd hu hp.1
      · exact absurd hu hp.2.2
    · exact hu

/-- `cache_begin_op` only waits while an operation is outstanding or a commit runs: with enough log
    blocks an idle log is empty and admits an operation. -/
theorem busy_of_beginBlocked (hsb : opMaxNumBlocks + 1 ≤ sb.numLogBlocks.toNat) (h : AcctInv sb s) (hb : beginBlocked sb s.log = true) :
    0 < s.log.outstanding ∨ s.log.committing = true := by
  by_contra hcon
  obtain ⟨hout, hcom⟩ := not_or.mp hcon
  have hcom' : s.log.committing = false := by simpa using hcom
  have hnum := h.drained hcom' (by omega)
  have hrun : ∀ t, s.pc t ≠ .running := fun t ht => by
    have := runOne_le_outstanding h ht; omega
  have huse := h.realUse fun t ht => hcom (h.committing.mpr ⟨t, .inr ht⟩)
  rw [hnum, (sums_zero hrun).2.1] at huse
  have hfree : beginBlocked sb s.log = false := by
    refine beginBlocked_eq_false.mpr ⟨hcom', ?_⟩
    rw [huse]
    exact opMaxNumBlocks_le_logCapacity hsb
  rw [hfree] at hb
  cases hb

/-- Every allowed move keeps a post ahead of each sleeper. -/
theorem moves_wakeInv (hsb : opMaxNumBlocks + 1 ≤ sb.numLogBlocks.toNat) {a : Act T} (hinv : Inv sb s) (hinv' : Inv sb s') (h : WakeInv s)
    (hC : EndWaitInTime s a) (hm : Moves sb s a s') : WakeInv s' := by
  cases hm with
  | call hpc => exact h.goto (by simp [Announcing, hpc]) (by simp [Pc.awake])
  | @beginBlock t hpc hb hl =>
    have hbusy := busy_of_beginBlocked hsb hinv.acct hb
    refine ⟨fun u hu => ?_, fun u hu => ?_⟩
    · rcases hbusy with h1 | h1
      · exact .inl h1
      · exact .inr (.inl h1)
    · rcases hbusy with h1 | h1
      · exact .inl h1
      · exact .inr (.inl h1)
  | @beginEnter t hpc hb =>
    have hout := runOne_le_outstanding hinv'.acct (t := t) (by simp)
    exact ⟨fun u _ => .inl hout, fun u _ => .inl hout⟩
  | @beginSleep t hpc =>
    refine h.frame rfl (fun u hu => ?_) (fun u hu => ⟨u, ?_⟩) (fun u hu => ?_) (fun u hu => ?_)
    · have hut : u ≠ t := fun e => by subst e; simp [hpc] at hu
      simpa [hut] using hu
    · have hut : u ≠ t := fun e => by subst e; simp [Announcing, hpc] at hu
      simpa [Announcing, hut] using hu
    · by_cases hut : u = t
      · subst hut; simp at hu
      · simpa [hut] using hu
    · by_cases hut : u = t
      · subst hut; exact .inr hpc
      · simpa [hut] using hu
  | beginWake hpc => exact h.goto (by simp [Announcing, hpc]) (by simp [Pc.awake])
  | sync hpc hsync =>
    exact h.frame rfl (fun _ hu => hu) (fun u hu => ⟨u, hu⟩) (fun _ hu => hu) fun _ hu => hu
  | @endLast t hpc hlast =>
    have hcom := hinv'.acct.committing.mpr ⟨t, .inl (by simp)⟩
    exact ⟨fun u _ => .inr (.inl hcom), fun u _ => .inr (.inl hcom)⟩
  | endOther hpc hlast hl =>
    have hout := Nat.pos_of_ne_zero hlast
    exact ⟨fun u _ => .inl hout, fun u _ => .inl hout⟩
  | @endSleep t hpc =>
    -- the only move that needs the condition
    refine ⟨fun u hu => ?_, fun u hu => ?_⟩
    · refine ahead_imp (s := s) hC fun v hv => ⟨v, ?_⟩
      have hvt : v ≠ t := fun e => by subst e; simp [Announcing, hpc] at hv
      simpa [Announcing, hvt] using hv
    · have hut : u ≠ t := fun e => by subst e; simp at hu
      refine ahead_imp (s := s) (h.beginAsleep u (by simpa [hut] using hu)) fun v hv => ⟨v, ?_⟩
      have hvt : v ≠ t := fun e => by subst e; simp [hpc] at hv
      simpa [hvt] using hv
  | @commit t hpc =>
    have hcom := hinv'.acct.committing.mpr ⟨t, .inr (by simp [commitOp])⟩
    exact ⟨fun u _ => .inr (.inl hcom), fun u _ => .inr (.inl hcom)⟩
  | @clear t hpc =>
    exact ⟨fun u _ => .inr (.inr ⟨t, .inl (by simp)⟩),
      fun u _ => .inr (.inr ⟨t, by simp⟩)⟩
  | @postBegin t hpc hl =>
    refine ⟨fun u _ => .inr (.inr ⟨t, .inr (by simp)⟩), fun u hu => ?_⟩
    -- everybody on `begin_sem` has been woken, and nobody holds its lock
    have hnone : s.pc u ≠ .beginWait := fun e => by
      rw [(hinv.sem.beginLock u).mpr e] at hl; cases hl
    by_cases hut : u = t
    · subst hut; simp at hu
    · by_cases hua : s.pc u = .beginAsleep
      · simp [hut, wokenPc, hua] at hu
      · simp [hut, wokenPc, hua, hnone] at hu
  | @postEnd t hpc =>
    refine ⟨fun u hu => ?_, fun u hu => ?_⟩
    · -- everybody on `end_sem` has been woken
      by_cases hut : u = t
      · subst hut; simp at hu
      · by_cases hua : s.pc u = .endAsleep
        · simp [hut, wokenPc, hua] at hu
        · simp [hut, wokenPc, hua] at hu
    · have hut : u ≠ t := fun e => by subst e; simp at hu
      have hua : s.pc u ≠ .endAsleep := fun e => by simp [hut, wokenPc, e] at hu
      refine ahead_imp (s := s) (h.beginAsleep u (by simpa [hut, wokenPc, hua] using hu)) fun v hv => ⟨v, ?_⟩
      have hvt : v ≠ t := fun e => by subst e; simp [hpc] at hv
      simp [hvt, wokenPc, hv]
  | ret hpc => exact h.goto (by simp [Announcing, hpc]) (by simp [Pc.awake])

/-- **Nobody is stranded** in a run whose waits on `end_sem` come in time. -/
theorem no_thread_stranded (sb : SuperBlock) (hsb : opMaxNumBlocks + 1 ≤ sb.numLogBlocks.toNat)
    (as : List (Act T)) (s : State T) (hmeets : RunMeets (step sb) EndWaitInTime (initial T) as)
    (hrun : run (step sb) (initial T) as = some s) : ¬ Stranded s := by
  have hinv : Inv sb s ∧ WakeInv s := by
    refine run_invariant (C := EndWaitInTime) (I := fun s => Inv sb s ∧ WakeInv s)
      (fun s a s' h hC hs => ?_) as (initial T) s ⟨initial_inv, ?_⟩ hmeets hrun
    · have hinv' := step_inv h.1 hs
      exact ⟨hinv', moves_wakeInv hsb h.1 hinv' h.2 hC (step_moves h.1.sem hs)⟩
    · exact ⟨fun t ht => by simp [initial] at ht, fun t ht => by simp [initial] at ht⟩
  exact hinv.2.not_stranded

/-- Two operations end one after the other, the first sleeps before the second commits: everybody
    gets out. -/
def timelyRun : List (Act (Fin 2)) :=
  [.call 0, .beginTest 0, .call 1, .beginTest 1, .endOp 0, .endWait 0, .endOp 1, .commit 1, .clear 1,
    .postBegin 1, .postEnd 1, .ret 1, .ret 0]

/-- The same with the first thread late on `end_sem`. -/
def lateWait : List (Act (Fin 2)) :=
  [.call 0, .beginTest 0, .call 1, .beginTest 1, .endOp 0, .endOp 1, .commit 1, .clear 1,
    .postBegin 1, .postEnd 1, .ret 1, .endWait 0]

theorem no_thread_stranded_timely : ∃ s,
    run (step (logDisk 63)) (initial (Fin 2)) timelyRun = some s ∧ ¬ Stranded s := by
  have hsome : (run (step (logDisk 63)) (initial (Fin 2)) timelyRun).isSome = true := by decide
  obtain ⟨s, hs⟩ := isSome_iff_exists.mp hsome
  exact ⟨s, hs, no_thread_stranded (logDisk 63) (by decide) timelyRun s (by decide) hs⟩

/-- **The lost wake-up**: the first thread sleeps on `end_sem` and nobody is left to wake it. -/
theorem late_waiter_stranded : ∃ s,
    run (step (logDisk 63)) (initial (Fin 2)) lateWait = some s ∧ Stranded s := by
  exact exists_run (P := Stranded) (by decide) fun _ _ hs => hs

/-! ## The early wake-up on `end_sem` -/

/-- **Durability at return**: every block synced under `t`'s context has been written home by a
    completed commit that started after the last sync of the context. -/
def Durable (s : State T) (t : T) : Prop :=
  ∀ b ∈ (s.ctx t).synced, ∃ k blks, (s.ctx t).syncedAt ≤ k ∧ s.completed[k]? = some blks ∧ b ∈ blks

/-- The condition: when a committer posts `end_sem`, every thread asleep there has entered
    `cache_end_op` before the start of a commit that is completed by now; no thread of the next
    batch has got there first. -/
def PostEndOwnBatch (s : State T) : Act T → Prop
  | .postEnd _ => ∀ u, s.pc u = .endAsleep → (s.ctx u).endedAt < s.completed.length
  | _ => True

instance (s : State T) (a : Act T) : Decidable (PostEndOwnBatch s a) :=
  match a with
  | .postEnd _ => inferInstanceAs (Decidable (∀ _, _))
  | .call _ | .beginTest _ | .beginWait _ | .beginWake _ | .sync _ _ | .endOp _ | .endWait _
  | .commit _ | .clear _ | .postBegin _ | .ret _ => isTrue trivial

/-- The first commit to start after `t` entered `cache_end_op` is completed and has written all
    blocks of `t` home. -/
def Covered (s : State T) (t : T) : Prop :=
  (s.ctx t).syncedAt ≤ (s.ctx t).endedAt ∧
  ∃ blks, s.completed[(s.ctx t).endedAt]? = some blks ∧ ∀ b ∈ (s.ctx t).synced, b ∈ blks

/-- That commit is the next one to complete, and the header still has the blocks of `t`. -/
def Pending (s : State T) (t : T) : Prop :=
  (s.ctx t).syncedAt ≤ (s.ctx t).endedAt ∧ (s.ctx t).endedAt = s.completed.length ∧
  ∀ b ∈ (s.ctx t).synced, b ∈ s.header.recorded

/-- What is owed to `t` when it stands at `p`: a running operation has its blocks in the header, one
    that ended has them in the header or at home, one that is about to return has them at home. -/
def Owes (s : State T) (t : T) : Pc → Prop
  | .running => (s.ctx t).syncedAt ≤ s.started ∧ ∀ b ∈ (s.ctx t).synced, b ∈ s.header.recorded
  | .endWait | .endAsleep | .commit => Covered s t ∨ Pending s t
  | .commitDone | .postBegin | .postEnd | .returning => Covered s t
  | .idle | .beginTest | .beginWait | .beginAsleep | .beginWoken => True

/-- Every thread has what it is owed, and only a running commit is started and not completed. -/
structure CovInv (s : State T) : Prop where
  started : (∀ t, s.pc t ≠ .commit) → s.started = s.completed.length
  committing : ∀ t, s.pc t = .commit → s.started = s.completed.length + 1
  owes : ∀ t, Owes s t (s.pc t)

theorem Covered.durable (h : Covered s t) : Durable s t := by
  obtain ⟨hle, blks, hk, hall⟩ := h
  exact fun b hb => ⟨_, blks, hle, hk, hall b hb⟩

/-- What is owed to a thread outlives a move that keeps its context, forgets no block of the header
    and appends to the history; only a pending commit must not have completed. -/
theorem Owes.mono {p : Pc} (h : Owes s t p) (hctx : s'.ctx t = s.ctx t)
    (hheader : ∀ b ∈ s.header.recorded, b ∈ s'.header.recorded) (hst : s.started ≤ s'.started)
    (hco : s'.completed = s.completed) : Owes s' t p := by
  have hcov : Covered s t → Covered s' t := by
    rintro ⟨hle, blks, hk, hall⟩
    exact ⟨by rwa [hctx], blks, by rwa [hctx, hco], by rwa [hctx]⟩
  have hpend : Pending s t → Pending s' t := by
    rintro ⟨hle, hk, hall⟩
    exact ⟨by rwa [hctx], by rwa [hctx, hco], fun b hb => hheader b (hall b (by rwa [hctx] at hb))⟩
  cases p with
  | running => exact ⟨by rw [hctx]; exact h.1.trans hst, fun b hb => hheader b (h.2 b (hctx ▸ hb))⟩
  | endWait | endAsleep | commit => exact h.imp hcov hpend
  | commitDone | postBegin | postEnd | returning => exact hcov h
  | idle | beginTest | beginWait | beginAsleep | beginWoken => trivial

section

variable (h : CovInv s)
include h

/-- One thread moves, and the others keep what they are owed. -/
theorem CovInv.moved (hq : s.pc t ≠ .commit) (hp : s'.pc t ≠ .commit) (hself : Owes s' t (s'.pc t))
    (hothers : ∀ u, u ≠ t → s'.ctx u = s.ctx u ∧ (s'.pc u = .commit ↔ s.pc u = .commit) ∧ Owes s u (s'.pc u))
    (hheader : ∀ b ∈ s.header.recorded, b ∈ s'.header.recorded) (hst : s'.started = s.started)
    (hco : s'.completed = s.completed) : CovInv s' := by
  have hcommit : ∀ u, s'.pc u = .commit ↔ s.pc u = .commit := by
    intro u
    rcases eq_or_ne u t with rfl | hut
    · exact iff_of_false hp hq
    · exact (hothers u hut).2.1
  refine ⟨fun hno => ?_, fun u hu => ?_, fun u => ?_⟩
  · rw [hst, hco]
    exact h.started fun u hu => hno u ((hcommit u).mpr hu)
  · rw [hst, hco]
    exact h.committing u ((hcommit u).mp hu)
  · rcases eq_or_ne u t with rfl | hut
    · exact hself
    · obtain ⟨hctx, -, howes⟩ := hothers u hut
      exact howes.mono hctx hheader hst.ge hco

/-- One thread moves on with what it is owed. -/
theorem CovInv.goto {p : Pc} (hheader : s'.header = s.header) (hctx : s'.ctx = s.ctx) (hst : s'.started = s.started)
    (hco : s'.completed = s.completed) (hpc : s'.pc = Function.update s.pc t p) (hq : s.pc t ≠ .commit)
    (hp : p ≠ .commit) (howes : Owes s t p) : CovInv s' := by
  have hkept : ∀ b ∈ s.header.recorded, b ∈ s'.header.recorded := fun b hb => hheader ▸ hb
  refine h.moved hq (by simpa [hpc] using hp) ?_ (fun u hut => ⟨by rw [hctx], ?_⟩) hkept hst hco
  · simpa [hpc] using howes.mono (by rw [hctx]) hkept hst.ge hco
  · simpa [hpc, hut] using h.owes u

/-- A thread that may be woken. -/
theorem CovInv.woken {asleep awake p : Pc} {u : T} (hut : u ≠ t) (hasleep : asleep ≠ .commit) (hawake : awake ≠ .commit)
    (howes : s.pc u = asleep → Owes s u awake) :
    (Function.update (wokenPc s asleep awake) t p u = .commit ↔ s.pc u = .commit) ∧
      Owes s u (Function.update (wokenPc s asleep awake) t p u) := by
  rw [Function.update_of_ne hut, wokenPc]
  split
  next hu => exact ⟨iff_of_false hawake (hu ▸ hasleep), howes hu⟩
  next => exact ⟨Iff.rfl, h.owes u⟩

end

/-- An operation that enters `cache_end_op` finds its blocks in the header, and the next commit to
    start is the next one to complete. -/
theorem pending_of_endOp (howes : Owes s t .running)
    (hst : s.started = s.completed.length) (hheader : s'.header = s.header) (hco : s'.completed = s.completed)
    (hctx : s'.ctx = Function.update s.ctx t { s.ctx t with endedAt := s.started }) :
    Pending s' t := by
  refine ⟨?_, ?_, ?_⟩
  · simpa [hctx] using howes.1
  · simpa [hctx, hco] using hst
  · simpa [hctx, hheader] using howes.2

/-- The commit brings everything home that was in the header. -/
theorem covered_commit {u : T} (hctx : s'.ctx = s.ctx)
    (hco : s'.completed = s.completed ++ [s.header.recorded]) (h : Covered s u ∨ Pending s u) :
    Covered s' u := by
  rcases h with ⟨hle, blks, hk, hall⟩ | ⟨hle, hk, hall⟩
  · refine ⟨by rwa [hctx], blks, ?_, by rwa [hctx]⟩
    rw [hctx, hco]
    exact List.getElem?_append_left (List.getElem?_eq_some_iff.mp hk).1 ▸ hk
  · refine ⟨by rwa [hctx], s.header.recorded, ?_, by rwa [hctx]⟩
    rw [hctx, hco, hk]
    exact List.getElem?_concat_length

/-- Every allowed move keeps what is owed. -/
theorem moves_covInv {a : Act T} (hinv : Inv sb s) (h : CovInv s)
    (hC : PostEndOwnBatch s a) (hm : Moves sb s a s') : CovInv s' := by
  have hidle : ∀ {t}, s.pc t = .running → s.started = s.completed.length := fun ht =>
    h.started fun u hu => not_inCommit_of_running hinv.acct ht u (.inl hu)
  have hat : ∀ {t p}, s.pc t = p → Owes s t p := fun hpc => hpc ▸ h.owes _
  cases hm with
  | call hpc => exact h.goto rfl rfl rfl rfl rfl (by simp [hpc]) (by simp) trivial
  | beginBlock hpc hb hl => exact h.goto rfl rfl rfl rfl rfl (by simp [hpc]) (by simp) trivial
  | @beginEnter t hpc hb =>
    refine h.moved (t := t) (by simp [hpc]) (by simp) (by simp [Owes]) (fun u hut => ?_) (fun _ hb => hb) rfl rfl
    simpa [hut] using h.owes u
  | beginSleep hpc => exact h.goto rfl rfl rfl rfl rfl (by simp [hpc]) (by simp) trivial
  | beginWake hpc => exact h.goto rfl rfl rfl rfl rfl (by simp [hpc]) (by simp) trivial
  | @sync t b h' rm' hpc hsync =>
    have hgrow : b ∈ h'.recorded ∧ ∀ c ∈ s.header.recorded, c ∈ h'.recorded := by
      rcases syncSection_spec hsync with ⟨hb, rfl, _⟩ | ⟨_, _, _, hrec⟩
      · exact ⟨hb, fun _ hc => hc⟩
      · rw [hrec]; exact ⟨by simp, fun c hc => List.mem_append_left _ hc⟩
    have hrunning : s.pc t ≠ .commit := by simp [hpc]
    refine h.moved hrunning hrunning ?_ (fun u hut => ⟨by simp [hut], Iff.rfl, h.owes u⟩) hgrow.2 rfl rfl
    simp only [hpc]
    refine ⟨by simp, fun c hc => ?_⟩
    simp only [Function.update_self, List.mem_cons] at hc
    rcases hc with rfl | hc
    · exact hgrow.1
    · exact hgrow.2 c ((hat hpc).2 c hc)
  | @endLast t hpc hlast =>
    have howes := hat hpc
    have hst := hidle hpc
    refine ⟨fun hno => absurd (by simp) (hno t), fun u hu => by simp [hst], fun u => ?_⟩
    by_cases hut : u = t
    · subst hut
      simp only [Function.update_self]
      exact .inr (pending_of_endOp howes hst rfl rfl rfl)
    · exact Owes.mono (s := s) (by simpa [hut] using h.owes u) (by simp [hut]) (fun _ hb => hb)
        (Nat.le_succ _) rfl
  | @endOther t hpc hlast hl =>
    refine h.moved (t := t) (by simp [hpc]) (by simp) ?_ (fun u hut => ⟨by simp [hut], ?_⟩) (fun _ hb => hb) rfl rfl
    · simp only [Function.update_self]
      exact .inr (pending_of_endOp (hat hpc) (hidle hpc) rfl rfl rfl)
    · exact h.woken hut (by simp) (by simp) fun _ => trivial
  | @endSleep t hpc =>
    have howes := hat hpc
    exact h.goto rfl rfl rfl rfl rfl (by simp [hpc]) (by simp) howes
  | @commit t hpc =>
    have hone : ∀ u, s.pc u = .commit → u = t := fun u hu =>
      hinv.acct.committer_unique u t (.inl hu) (.inl hpc)
    have hcom := hinv.acct.committing.mpr ⟨t, .inl hpc⟩
    have hcov : ∀ u, Covered s u ∨ Pending s u → Covered (commitOp s t) u := fun u hu =>
      covered_commit (s := s) rfl rfl hu
    refine ⟨fun _ => ?_, fun u hu => ?_, fun u => ?_⟩
    · simp [commitOp, State.goto, h.committing t hpc]
    · exfalso
      by_cases hut : u = t
      · subst hut; simp [commitOp] at hu
      · exact hut (hone u (by simpa [commitOp, State.goto, hut] using hu))
    · have howes := h.owes u
      by_cases hut : u = t
      · subst hut
        rw [hpc] at howes
        simpa [commitOp, Owes] using hcov u howes
      · have hpcu : (commitOp s t).pc u = s.pc u := by simp [commitOp, State.goto, hut]
        have hnotrun := not_running_of_committing hinv.acct hcom u
        rw [hpcu]
        cases hp : s.pc u with
        | running => exact absurd hp hnotrun
        | endWait | endAsleep | commit => rw [hp] at howes; exact .inl (hcov u howes)
        | commitDone | postBegin | postEnd | returning =>
          rw [hp] at howes; exact hcov u (.inl howes)
        | idle | beginTest | beginWait | beginAsleep | beginWoken => trivial
  | @clear t hpc =>
    have howes := hat hpc
    exact h.goto rfl rfl rfl rfl rfl (by simp [hpc]) (by simp) howes
  | @postBegin t hpc hl =>
    refine h.moved (t := t) (by simp [hpc]) (by simp) ?_ (fun u hut => ⟨rfl, ?_⟩) (fun _ hb => hb) rfl rfl
    · simpa [Owes, Covered] using hat hpc
    · exact h.woken hut (by simp) (by simp) fun _ => trivial
  | @postEnd t hpc =>
    refine h.moved (t := t) (by simp [hpc]) (by simp) ?_ (fun u hut => ⟨rfl, ?_⟩) (fun _ hb => hb) rfl rfl
    · simpa [Owes, Covered] using hat hpc
    · refine h.woken hut (by simp) (by simp) fun hua => ?_
      -- the condition: the commit of a thread that is woken is no longer pending
      have howesu := hat hua
      have hlt := hC u hua
      exact howesu.resolve_right fun hp => by have := hp.2.1; omega
  | ret hpc => exact h.goto rfl rfl rfl rfl rfl (by simp [hpc]) (by simp) trivial

/-- **Durability at return**, in a run whose posts on `end_sem` wake only threads of finished
    commits: whenever `cache_end_op` returns, its blocks have been written home. -/
theorem end_op_durable (sb : SuperBlock) (as : List (Act T)) (s s' : State T) (t : T)
    (hmeets : RunMeets (step sb) PostEndOwnBatch (initial T) as)
    (hrun : run (step sb) (initial T) as = some s) (hret : step sb s (.ret t) = some s') :
    Durable s t := by
  have hinv : Inv sb s ∧ CovInv s := by
    refine run_invariant (C := PostEndOwnBatch) (I := fun s => Inv sb s ∧ CovInv s)
      (fun s a s' h hC hs => ?_) as (initial T) s ⟨initial_inv, ?_⟩ hmeets hrun
    · exact ⟨step_inv h.1 hs, moves_covInv h.1 h.2 hC (step_moves h.1.sem hs)⟩
    · exact ⟨fun _ => rfl, fun t ht => by simp [initial] at ht, fun t => trivial⟩
  obtain ⟨hpc, _⟩ := ite_none_right_eq_some.mp hret
  have howes := hinv.2.owes t
  rw [hpc] at howes
  exact Covered.durable howes

/-- Two operations sync a block each and end in time. -/
def durableRun : List (Act (Fin 2)) :=
  [.call 0, .beginTest 0, .call 1, .beginTest 1, .sync 0 100, .sync 1 101, .endOp 0, .endWait 0,
    .endOp 1, .commit 1, .clear 1, .postBegin 1, .postEnd 1]

/-- Thread `0` commits and clears `committing`; before it posts, threads `1` and `2` begin and `1`
    syncs a block, ends and sleeps. -/
def latePost : List (Act (Fin 3)) :=
  [.call 0, .beginTest 0, .endOp 0, .commit 0, .clear 0, .call 1, .beginTest 1, .call 2, .beginTest 2,
    .sync 1 100, .endOp 1, .endWait 1, .postBegin 0, .postEnd 0]

theorem end_op_durable_both : ∃ s s',
    run (step (logDisk 63)) (initial (Fin 2)) durableRun = some s ∧
    step (logDisk 63) s (.ret 0) = some s' ∧ Durable s 0 := by
  have hview : (run (step (logDisk 63)) (initial (Fin 2)) durableRun).map
      (fun s => (step (logDisk 63) s (.ret 0)).isSome) = some true := by decide
  obtain ⟨s, hs, hv⟩ := map_eq_some_iff.mp hview
  obtain ⟨s', hs'⟩ := isSome_iff_exists.mp hv
  exact ⟨s, s', hs, hs', end_op_durable (logDisk 63) durableRun s s' 0 (by decide) hs hs'⟩

/-- **The early wake-up**: thread `1` returns from `cache_end_op`, and the only completed commit is
    the empty one of the batch before. -/
theorem late_post_not_durable : ∃ s s',
    run (step (logDisk 63)) (initial (Fin 3)) latePost = some s ∧
    step (logDisk 63) s (.ret 1) = some s' ∧ ¬ Durable s 1 := by
  have hview : (run (step (logDisk 63)) (initial (Fin 3)) latePost).map
      (fun s => ((step (logDisk 63) s (.ret 1)).isSome, (s.ctx 1).synced, s.completed))
        = some (true, [100], [[]]) := by decide
  obtain ⟨s, hs, hv⟩ := map_eq_some_iff.mp hview
  obtain ⟨hret, hv⟩ := Prod.mk.inj hv
  obtain ⟨hsynced, hcompleted⟩ := Prod.mk.inj hv
  obtain ⟨s', hs'⟩ := isSome_iff_exists.mp hret
  refine ⟨s, s', hs, hs', fun hd => ?_⟩
  obtain ⟨k, blks, _, hk, hb⟩ := hd 100 (by rw [hsynced]; simp)
  rw [hcompleted] at hk
  have hblks : blks = [] := by simpa using List.mem_of_getElem? hk
  rw [hblks] at hb
  cases hb

/-! ## The commit is alone -/

/-- While `t` commits, the others neither change the header nor move `t`. -/
theorem moves_during_commit {a : Act T} (hinv : Inv sb s) (ht : s.pc t = .commit) (ha : a ≠ .commit t)
    (hm : Moves sb s a s') : s'.header = s.header ∧ s'.pc t = .commit := by
  have hnot := not_running_of_committing hinv.acct (hinv.acct.committing.mpr ⟨t, .inl ht⟩)
  have hne : ∀ {u p}, s.pc u = p → p ≠ .commit → t ≠ u := by
    rintro u p hpc hp rfl
    exact hp (hpc.symm.trans ht)
  cases hm with
  | sync hpc | endLast hpc | endOther hpc => exact absurd hpc (hnot _)
  | @commit u hpc =>
    rw [hinv.acct.committer_unique u t (.inl hpc) (.inl ht)] at ha
    exact absurd rfl ha
  | call hpc | beginBlock hpc | beginEnter hpc | beginSleep hpc | beginWake hpc | endSleep hpc | clear hpc
  | ret hpc =>
    exact ⟨rfl, (Function.update_of_ne (hne hpc (by decide)) ..).trans ht⟩
  | postBegin hpc | postEnd hpc =>
    refine ⟨rfl, (Function.update_of_ne (hne hpc (by decide)) ..).trans ?_⟩
    simp [wokenPc, ht]

/-- **A commit is alone.**  From the moment `committing` is set until the commit is done, whatever the others do:
    no block is recorded, no operation runs and nobody else commits. -/
theorem commit_isolated {as bs : List (Act T)} (hrun : run (step sb) (initial T) as = some s)
    (ht : s.pc t = .commit) (hbs : ∀ a ∈ bs, a ≠ .commit t) (hrun' : run (step sb) s bs = some s') :
    s'.header = s.header ∧ ∀ u, s'.pc u ≠ .running ∧ (InCommit s' u → u = t) := by
  obtain ⟨hinv, hheader, hpc⟩ : Inv sb s' ∧ s'.header = s.header ∧ s'.pc t = .commit := by
    refine run_invariant (C := fun _ a => a ≠ .commit t)
      (I := fun s₁ => Inv sb s₁ ∧ s₁.header = s.header ∧ s₁.pc t = .commit) ?_ bs s s'
      ⟨reachable_inv hrun, rfl, ht⟩ (runMeets_of_forall bs s hbs) hrun'
    rintro s₁ a s₂ ⟨hinv, hheader, hpc⟩ ha hs
    obtain ⟨hsame, hpc'⟩ := moves_during_commit hinv hpc ha (step_moves hinv.sem hs)
    exact ⟨step_inv hinv hs, hsame.trans hheader, hpc'⟩
  refine ⟨hheader, fun u => ⟨?_, fun hu => hinv.acct.committer_unique u t hu (.inl hpc)⟩⟩
  exact not_running_of_committing hinv.acct (hinv.acct.committing.mpr ⟨t, .inl hpc⟩) u

theorem commit_isolated_latecomer : ∃ s : State (Fin 2),
    run (step (logDisk 63)) (initial (Fin 2)) [.call 0, .beginTest 0, .sync 0 100, .endOp 0] = some s ∧
    ∃ s', run (step (logDisk 63)) s [.call 1, .beginTest 1, .beginWait 1] = some s' ∧ s'.header = s.header := by
  refine exists_run (P := fun s => s.pc 0 = .commit ∧
    (run (step (logDisk 63)) s [.call 1, .beginTest 1, .beginWait 1]).isSome) (by decide) fun s hrun ⟨ht, hsome⟩ => ?_
  obtain ⟨s', hrun'⟩ := isSome_iff_exists.mp hsome
  exact ⟨s', hrun', (commit_isolated hrun ht (by decide) hrun').1⟩

end Armv8Os.LogThreads
