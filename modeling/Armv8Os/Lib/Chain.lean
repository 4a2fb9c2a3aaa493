/-
  Singly linked lists in a memory: `Chain next head l` says that following `next` from `head` visits exactly the nodes
  `l` and ends in NULL.

  The memory is a function, so a chain is determined by its head (`Chain.unique`), and a chain that ENDS cannot
  visit a node twice (`Chain.nodup`).
-/
import Mathlib.Tactic

namespace Armv8Os

open List

variable {ν : Type*}

/-- The nodes from `head` to NULL. -/
inductive Chain (next : ν → Option ν) : Option ν → List ν → Prop
  | nil : Chain next none []
  | cons {n : ν} {l : List ν} (h : Chain next (next n) l) : Chain next (some n) (n :: l)

namespace Chain

variable {next next' : ν → Option ν} {head : Option ν} {n : ν} {l l' : List ν}

section

variable (h : Chain next head l)
include h

theorem unique (h' : Chain next head l') : l = l' := by
  induction h generalizing l' with
  | nil =>
    cases h'
    rfl
  | cons _ ih =>
    cases h' with
    | cons h' => rw [ih h']

/-- The rest of a chain, from one of its nodes on. -/
theorem suffix (hn : n ∈ l) : ∃ l₁ l₂, l = l₁ ++ n :: l₂ ∧ Chain next (some n) (n :: l₂) := by
  induction h with
  | nil => cases hn
  | @cons m l hl ih =>
    rcases mem_cons.mp hn with rfl | hn
    · exact ⟨[], l, rfl, hl.cons⟩
    · obtain ⟨l₁, l₂, rfl, hsuffix⟩ := ih hn
      exact ⟨m :: l₁, l₂, rfl, hsuffix⟩

theorem nodup : l.Nodup := by
  induction h with
  | nil => exact nodup_nil
  | @cons n l hl ih =>
    refine nodup_cons.mpr ⟨fun hn => ?_, ih⟩
    -- a second visit would start the same chain again, inside itself
    obtain ⟨l₁, l₂, heq, hagain⟩ := hl.suffix hn
    have hlength := congrArg length (hl.cons.unique hagain)
    rw [heq] at hlength
    simp only [length_cons, length_append] at hlength
    omega

/-- Only the links of its own nodes count. -/
theorem congr (hsame : ∀ n ∈ l, next' n = next n) : Chain next' head l := by
  induction h with
  | nil => exact nil
  | @cons n l _ ih =>
    refine cons ?_
    rw [hsame n mem_cons_self]
    exact ih fun m hm => hsame m (mem_cons_of_mem n hm)

theorem update [DecidableEq ν] (hn : n ∉ l) (o : Option ν) : Chain (Function.update next n o) head l := by
  refine h.congr fun m hm => Function.update_of_ne ?_ ..
  rintro rfl
  exact hn hm

theorem push [DecidableEq ν] (hn : n ∉ l) : Chain (Function.update next n head) (some n) (n :: l) := by
  refine cons ?_
  rw [Function.update_self]
  exact h.update hn head

end

theorem pop (h : Chain next (some n) l) : ∃ l', l = n :: l' ∧ Chain next (next n) l' := by
  cases h with
  | cons h => exact ⟨_, rfl, h⟩

theorem head_eq_none (h : Chain next none l) : l = [] := by
  cases h
  rfl

end Chain

/-- The node is met on the way from `head`, which may be a way without an end. -/
inductive Reaches (next : ν → Option ν) : Option ν → ν → Prop
  | here (n : ν) : Reaches next (some n) n
  | there {m n : ν} (h : Reaches next (next m) n) : Reaches next (some m) n

theorem Chain.reaches_iff {next : ν → Option ν} {head : Option ν} {l : List ν} {n : ν} (h : Chain next head l) :
    Reaches next head n ↔ n ∈ l := by
  induction h with
  | nil => exact ⟨(fun hr => nomatch hr), fun hn => nomatch hn⟩
  | @cons m l _ ih =>
    rw [mem_cons, ← ih]
    constructor
    · intro hr
      cases hr with
      | here => exact Or.inl rfl
      | there hr => exact Or.inr hr
    · rintro (rfl | hr)
      · exact Reaches.here _
      · exact Reaches.there hr

end Armv8Os
