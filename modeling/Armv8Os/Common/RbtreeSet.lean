/-
  The red-black tree as an ordered set.

  `Calls cmp h s`: a sequence of `_rb_insert` and `_rb_erase` has led from an empty root to the heap `h`, and `s` are the nodes that
  were inserted and not erased.  The invariant of such a sequence is `Holds`: the heap holds a red-black tree whose nodes are `s`,
  and they are sorted if `cmp` is a strict weak order.  Balance does NOT depend on `cmp`.
-/
import Armv8Os.Common.RbtreeInsert
import Armv8Os.Common.RbtreeErase

namespace Armv8Os.Rbtree

open RedBlack RedBlack.RbTree Prog List

/-! ## Searching -/

section Search

variable {cmp : Ptr → Ptr → Bool} {h : Heap} {t : RbTree Ptr} {q a : Ptr} {m : Nat}

/-- The answer of `_rb_lookup` among the nodes `l`. -/
def Found (cmp : Ptr → Ptr → Bool) (a : Ptr) (l : List Ptr) (p : Ptr) : Prop :=
  (p ∈ l ∧ Equivalent cmp a p) ∨ (p = 0 ∧ ∀ b ∈ l, ¬ Equivalent cmp a b)

theorem wp_rbFind (hcmp : StrictWeakOrder cmp) (ht : At h q t) (hsorted : Ascending cmp t.inorder) (hm : t.height < m) :
    wp (rbFind cmp a m (ptrOf t)) (fun p h' => h' = h ∧ Found cmp a t.inorder p) (fun _ => False) h := by
  induction m generalizing q t with
  | zero => exact absurd hm (Nat.not_lt_zero _)
  | succ m ih =>
    cases t with
    | nil =>
      exact ⟨rfl, .inr ⟨rfl, fun b hb => nomatch hb⟩⟩
    | node c l b r =>
      obtain ⟨hb, -, hleft, hright, hl, hr⟩ := ht
      obtain ⟨hlSorted, hbr, hlbr⟩ := pairwise_append.mp hsorted
      obtain ⟨hbr, hrSorted⟩ := pairwise_cons.mp hbr
      change max l.height r.height + 1 < m + 1 at hm
      rw [show ptrOf (node c l b r) = b from rfl, rbFind, if_neg hb.ne_zero]
      by_cases hab : cmp a b
      · rw [if_pos hab, wp_bind, wp_getChild hb.ne_zero, hleft]
        refine wp_imp (ih hl hlSorted (by omega)) ?_
        rintro p h' ⟨rfl, ⟨hp, hequiv⟩ | ⟨rfl, hnone⟩⟩
        · exact ⟨rfl, .inl ⟨mem_append_left _ hp, hequiv⟩⟩
        · refine ⟨rfl, .inr ⟨rfl, fun x hx hequiv => ?_⟩⟩
          rcases mem_append.mp hx with hx | hx
          · exact hnone x hx hequiv
          · rcases mem_cons.mp hx with rfl | hx
            · exact hequiv.1 hab
            · exact hequiv.1 (hcmp.trans a b x hab (hbr x hx))
      rw [if_neg hab]
      by_cases hba : cmp b a
      · rw [if_pos hba, wp_bind, wp_getChild hb.ne_zero, hright]
        refine wp_imp (ih hr hrSorted (by omega)) ?_
        rintro p h' ⟨rfl, ⟨hp, hequiv⟩ | ⟨rfl, hnone⟩⟩
        · exact ⟨rfl, .inl ⟨mem_append_right _ (mem_cons_of_mem _ hp), hequiv⟩⟩
        · refine ⟨rfl, .inr ⟨rfl, fun x hx hequiv => ?_⟩⟩
          rcases mem_append.mp hx with hx | hx
          · exact hequiv.2 (hcmp.trans x b a (hlbr x hx b mem_cons_self) hba)
          · rcases mem_cons.mp hx with rfl | hx
            · exact hequiv.2 hba
            · exact hnone x hx hequiv
      · rw [if_neg hba]
        exact ⟨rfl, .inl ⟨mem_append_right _ mem_cons_self, hab, hba⟩⟩

/-- The leftmost node is the first in order. -/
theorem wp_rbLeftmost (ht : At h q t) (hne : t ≠ .nil) (hm : t.height < m + 1) :
    wp (rbLeftmost m (ptrOf t)) (fun p h' => h' = h ∧ t.inorder.head? = some p) (fun _ => False) h := by
  induction m generalizing q t with
  | zero =>
    cases t with
    | nil => exact absurd rfl hne
    | node c l b r => exact absurd hm (Nat.not_lt.mpr (Nat.le_add_left ..))
  | succ m ih =>
    cases t with
    | nil => exact absurd rfl hne
    | node c l b r =>
      obtain ⟨hb, -, hleft, -, hl, -⟩ := ht
      change max l.height r.height + 1 < m + 1 + 1 at hm
      rw [show ptrOf (node c l b r) = b from rfl, rbLeftmost, wp_bind, wp_getChild hb.ne_zero, hleft]
      by_cases hzero : ptrOf l = 0
      · obtain rfl := hl.eq_nil hzero
        exact ⟨rfl, rfl⟩
      · rw [if_pos hzero]
        refine wp_imp (ih hl (fun hnil => hzero (hnil ▸ rfl)) (by omega)) ?_
        rintro p h' ⟨rfl, hhead⟩
        refine ⟨rfl, ?_⟩
        rw [inorder, head?_append, hhead]
        rfl

end Search

section Whole

variable {cmp : Ptr → Ptr → Bool} {h : Heap} {l : List Ptr}

theorem wp_rbLookup (hcmp : StrictWeakOrder cmp) (hholds : HoldsTree h l) (hsorted : Ascending cmp l) (a : Ptr) :
    wp (rbLookup cmp a) (fun p h' => h' = h ∧ Found cmp a l p) (fun _ => False) h := by
  obtain ⟨t, n, hst, rfl, -⟩ := hholds
  have hroot : h.root = ptrOf t := hst.above
  unfold rbLookup
  rw [wp_bind, wp_getRoot, hroot]
  exact wp_rbFind hcmp hst.tree hsorted hst.height_lt

theorem wp_rbFirst (hholds : HoldsTree h l) :
    wp rbFirst (fun p h' => h' = h ∧ p = l.head?.getD 0) (fun _ => False) h := by
  obtain ⟨t, n, hst, rfl, -⟩ := hholds
  have hroot : h.root = ptrOf t := hst.above
  unfold rbFirst
  rw [wp_bind, wp_getRoot, hroot]
  by_cases hzero : ptrOf t = 0
  · obtain rfl := hst.tree.eq_nil hzero
    exact ⟨rfl, rfl⟩
  · rw [if_neg hzero]
    refine wp_imp (wp_rbLeftmost hst.tree (fun hnil => hzero (hnil ▸ rfl)) (hst.height_lt.trans (Nat.lt_succ_self _))) ?_
    rintro p h' ⟨rfl, hhead⟩
    exact ⟨rfl, by rw [hhead]; rfl⟩

end Whole

/-! ## Sequences of calls -/

/-- The nodes by their address. -/
def byAddress (a b : Ptr) : Bool := decide (a < b)

theorem strictWeakOrder_byAddress : StrictWeakOrder byAddress where
  irrefl a := by simp [byAddress]
  trans a b c hab hbc := by
    simp only [byAddress, decide_eq_true_eq] at *
    exact UInt64.lt_trans hab hbc
  equiv_trans a b c hab hba hbc hcb := by
    simp only [byAddress, decide_eq_true_eq, UInt64.not_lt] at *
    exact ⟨UInt64.le_trans hbc hab, UInt64.le_trans hba hcb⟩

/-- **A sequence of calls** from an empty root.  Nodes outside the tree belong to the callers, who may write to them. -/
inductive Calls (cmp : Ptr → Ptr → Bool) : Heap → Finset Ptr → Prop where
  | start {h : Heap} : h.root = 0 → Calls cmp h ∅
  | inserted {h h' : Heap} {s : Finset Ptr} {a : Ptr} :
      Calls cmp h s → NodePtr a → a ∉ s → rbInsert cmp a h = .ok (0, h') → Calls cmp h' (insert a s)
  | refused {h h' : Heap} {s : Finset Ptr} {a : Ptr} {r : Int} :
      Calls cmp h s → NodePtr a → a ∉ s → rbInsert cmp a h = .ok (r, h') → r ≠ 0 → Calls cmp h' s
  | erased {h h' : Heap} {s : Finset Ptr} {a : Ptr} :
      Calls cmp h s → a ∈ s → rbErase a h = .ok ((), h') → Calls cmp h' (s.erase a)
  | written {h h' : Heap} {s : Finset Ptr} :
      Calls cmp h s → h'.root = h.root → (∀ a ∈ s, h'.pc a = h.pc a ∧ ∀ d, h'.child d a = h.child d a) → Calls cmp h' s

/-- The invariant: the nodes `s` make a red-black tree, and it is sorted. -/
def Holds (cmp : Ptr → Ptr → Bool) (h : Heap) (s : Finset Ptr) : Prop :=
  ∃ l, HoldsTree h l ∧ (∀ a, a ∈ l ↔ a ∈ s) ∧ (StrictWeakOrder cmp → Ascending cmp l)

section Calls

variable {cmp : Ptr → Ptr → Bool} {h h' : Heap} {l l₁ l₂ : List Ptr} {s : Finset Ptr} {a : Ptr}

theorem HoldsTree.nodup (hholds : HoldsTree h l) : l.Nodup := by
  obtain ⟨t, n, hst, rfl, -⟩ := hholds
  exact (nodup_append'.mp hst.once).1

theorem HoldsTree.nodePtr (hholds : HoldsTree h l) (ha : a ∈ l) : NodePtr a := by
  obtain ⟨t, n, hst, rfl, -⟩ := hholds
  exact hst.tree.nodePtr ha

theorem HoldsTree.frame (hholds : HoldsTree h l) (hroot : h'.root = h.root) (hsame : Agree h h' l) : HoldsTree h' l := by
  obtain ⟨t, n, hst, rfl, ht⟩ := hholds
  refine ⟨t, n, hst.frame hroot ?_, rfl, ht⟩
  rw [Context.keys, append_nil]
  exact hsame

theorem Ascending.insert (hsorted : Ascending cmp (l₁ ++ l₂)) (hbefore : ∀ b ∈ l₁, cmp b a) (hafter : ∀ b ∈ l₂, cmp a b) :
    Ascending cmp (l₁ ++ a :: l₂) := by
  obtain ⟨hl1, hl2, hacross⟩ := pairwise_append.mp hsorted
  refine pairwise_append.mpr ⟨hl1, pairwise_cons.mpr ⟨hafter, hl2⟩, fun b hb x hx => ?_⟩
  rcases mem_cons.mp hx with rfl | hx
  · exact hbefore b hb
  · exact hacross b hb x hx

/-- What `_rb_insert` returns, in terms of the set. -/
theorem Holds.insert (hholds : Holds cmp h s) (ha : NodePtr a) (hnew : a ∉ s) :
    wp (rbInsert cmp a) (fun r h' => (r = -1 ∧ Holds cmp h' s ∧ ∃ b ∈ s, Equivalent cmp a b) ∨
      (r = 0 ∧ Holds cmp h' (insert a s) ∧ (StrictWeakOrder cmp → ∀ b ∈ s, ¬ Equivalent cmp a b))) (fun _ => False) h := by
  obtain ⟨l, htree, hmem, hsorted⟩ := hholds
  refine wp_imp (wp_rbInsert htree ha (mt (hmem a).mp hnew)) ?_
  rintro r h' (⟨rfl, htree', b, hb, hequiv⟩ | ⟨rfl, l₁, l₂, rfl, htree', hplace⟩)
  · exact .inl ⟨rfl, ⟨l, htree', hmem, hsorted⟩, b, (hmem b).mp hb, hequiv⟩
  · refine .inr ⟨rfl, ⟨_, htree', fun b => ?_, fun hcmp => ?_⟩, fun hcmp b hb hequiv => ?_⟩
    · rw [Finset.mem_insert, ← hmem b, mem_append, mem_append, mem_cons]
      tauto
    · exact (hsorted hcmp).insert (hplace hcmp (hsorted hcmp)).1 (hplace hcmp (hsorted hcmp)).2
    · rcases mem_append.mp ((hmem b).mpr hb) with hb | hb
      · exact hequiv.2 ((hplace hcmp (hsorted hcmp)).1 b hb)
      · exact hequiv.1 ((hplace hcmp (hsorted hcmp)).2 b hb)

theorem Holds.erase (hholds : Holds cmp h s) (ha : a ∈ s) :
    wp (rbErase a) (fun _ h' => Holds cmp h' (s.erase a)) (fun _ => False) h := by
  obtain ⟨l, htree, hmem, hsorted⟩ := hholds
  obtain ⟨l₁, l₂, rfl⟩ := append_of_mem ((hmem a).mpr ha)
  refine wp_imp (wp_rbErase htree) (fun _ h' htree' => ⟨_, htree', fun b => ?_, fun hcmp => ?_⟩)
  · have hnot := (nodup_cons.mp (nodup_middle.mp htree.nodup)).1
    rw [Finset.mem_erase, ← hmem b, mem_append, mem_append, mem_cons]
    rw [mem_append] at hnot
    constructor
    · exact fun hb => ⟨fun heq => hnot (heq ▸ hb), hb.imp_right .inr⟩
    · tauto
  · refine (hsorted hcmp).sublist (List.Sublist.append_left (sublist_cons_self a l₂) l₁)

/-- Every call keeps the invariant. -/
theorem Calls.holds (hcalls : Calls cmp h s) : Holds cmp h s := by
  induction hcalls with
  | start hroot =>
    refine ⟨[], ⟨.nil, 0, ⟨hroot, trivial, nodup_nil⟩, rfl, .nil⟩, fun a => ?_, fun _ => List.Pairwise.nil⟩
    exact iff_of_false not_mem_nil (Finset.notMem_empty a)
  | inserted _ ha hnew hrun ih =>
    rcases of_wp (ih.insert ha hnew) hrun with ⟨hr, -⟩ | ⟨-, hholds, -⟩
    · exact absurd hr (by decide)
    · exact hholds
  | refused _ ha hnew hrun hr ih =>
    rcases of_wp (ih.insert ha hnew) hrun with ⟨-, hholds, -⟩ | ⟨hzero, -⟩
    · exact hholds
    · exact absurd hzero hr
  | erased _ ha hrun ih => exact of_wp (ih.erase ha) hrun
  | written _ hroot hsame ih =>
    obtain ⟨l, htree, hmem, hsorted⟩ := ih
    exact ⟨l, htree.frame hroot fun b hb => hsame b ((hmem b).mp hb), hmem, hsorted⟩

/-- The pointers at the node `a` agree with those of its parent and its children. -/
structure Linked (h : Heap) (s : Finset Ptr) (a : Ptr) : Prop where
  ne_null : a ≠ 0
  parent : (parentOf (h.pc a) = 0 ∧ h.root = a) ∨ (parentOf (h.pc a) ∈ s ∧ ∃ d, h.child d (parentOf (h.pc a)) = a)
  child : ∀ d, h.child d a = 0 ∨ (h.child d a ∈ s ∧ parentOf (h.pc (h.child d a)) = a)

theorem Stands.linked {t : RbTree Ptr} (hst : Stands h [] t) (hmem : ∀ b, b ∈ t.inorder ↔ b ∈ s) (ha : a ∈ s) : Linked h s a := by
  obtain ⟨k, c, l, r, rfl⟩ := Context.exists_plug ((hmem a).mpr ha)
  obtain ⟨hk, hnode, -⟩ := hst.of_plug
  have hsub : ∀ b, b ∈ l.inorder ∨ b ∈ r.inorder ∨ b ∈ Context.keys k → b ∈ s := by
    intro b hb
    refine (hmem b).mp (mem_plug.mpr ?_)
    rw [inorder, mem_append, mem_cons]
    tauto
  obtain ⟨hnodePtr, hpc, hleft, hright, hl, hr⟩ := hnode
  have hparent : parentOf (h.pc a) = parentPtr k := by rw [hpc, parentOf_or (Way.aligned hk)]
  have hchild : ∀ x : RbTree Ptr, At h a x → (∀ b ∈ x.inorder, b ∈ s) →
      ptrOf x = 0 ∨ (ptrOf x ∈ s ∧ parentOf (h.pc (ptrOf x)) = a) := by
    intro x hx hin
    refine or_iff_not_imp_left.mpr fun hne => ⟨hin _ (ptrOf_mem hne), ?_⟩
    rw [hx.pc_root hne, parentOf_or hnodePtr.aligned]
  refine ⟨hnodePtr.ne_zero, ?_, fun d => ?_⟩
  · rw [hparent]
    cases k with
    | nil => exact .inl ⟨rfl, hk⟩
    | cons f k => exact .inr ⟨hsub _ (.inr (.inr mem_cons_self)), f.side, hk.2.2.1⟩
  · cases d with
    | left => exact hleft ▸ hchild l hl fun b hb => hsub b (.inl hb)
    | right => exact hright ▸ hchild r hr fun b hb => hsub b (.inr (.inl hb))

theorem Calls.exists_insert (hcmp : StrictWeakOrder cmp) (hcalls : Calls cmp h s) (ha : NodePtr a)
    (hnew : ∀ b ∈ s, ¬ Equivalent cmp a b) : ∃ h', Calls cmp h' (insert a s) := by
  have hnot : a ∉ s := fun hin => hnew a hin ⟨by simp [hcmp.irrefl], by simp [hcmp.irrefl]⟩
  obtain ⟨r, h', hrun, ⟨-, -, b, hb, hequiv⟩ | ⟨rfl, -⟩⟩ := exists_of_wp (hcalls.holds.insert ha hnot)
  · exact absurd hequiv (hnew b hb)
  · exact ⟨h', hcalls.inserted ha hnot hrun⟩

theorem Calls.exists_erase (hcalls : Calls cmp h s) (ha : a ∈ s) : ∃ h', rbErase a h = .ok ((), h') ∧ Calls cmp h' (s.erase a) := by
  obtain ⟨⟨⟩, h', hrun, -⟩ := exists_of_wp (hcalls.holds.erase ha)
  exact ⟨h', hrun, hcalls.erased ha hrun⟩

/-- The tree in the heap `h` is the ordered set `s`. -/
structure OrderedSet (cmp : Ptr → Ptr → Bool) (h : Heap) (s : Finset Ptr) : Prop where
  nodes : ∃ t, h.root = ptrOf t ∧ At h 0 t ∧ Ascending cmp t.inorder ∧ ∀ a, a ∈ t.inorder ↔ a ∈ s
  linked : ∀ a ∈ s, Linked h s a
  insert : ∀ a, NodePtr a → a ∉ s → ∃ r h', rbInsert cmp a h = .ok (r, h') ∧
    (((∃ b ∈ s, Equivalent cmp a b) ∧ r = -1 ∧ Calls cmp h' s) ∨
      ((∀ b ∈ s, ¬ Equivalent cmp a b) ∧ r = 0 ∧ Calls cmp h' (insert a s)))
  erase : ∀ a ∈ s, ∃ h', rbErase a h = .ok ((), h') ∧ Calls cmp h' (s.erase a)
  lookup : ∀ a, ∃ p, rbLookup cmp a h = .ok (p, h) ∧
    ((p ∈ s ∧ Equivalent cmp a p) ∨ (p = 0 ∧ ∀ b ∈ s, ¬ Equivalent cmp a b))
  first : ∃ p, rbFirst h = .ok (p, h) ∧ (p = 0 ↔ s = ∅) ∧ (s ≠ ∅ → p ∈ s ∧ ∀ b ∈ s, b ≠ p → cmp p b)

/-- The first of the sorted nodes is the least one. -/
theorem Ascending.head (hsorted : Ascending cmp l) (hmem : ∀ b, b ∈ l ↔ b ∈ s) (hs : s ≠ ∅) :
    l.head?.getD 0 ∈ s ∧ ∀ b ∈ s, b ≠ l.head?.getD 0 → cmp (l.head?.getD 0) b := by
  cases l with
  | nil => exact absurd (Finset.eq_empty_of_forall_notMem fun b hb => nomatch (hmem b).mpr hb) hs
  | cons p l =>
    refine ⟨(hmem p).mp mem_cons_self, fun b hb hne => ?_⟩
    rcases mem_cons.mp ((hmem b).mpr hb) with rfl | hb
    · exact absurd rfl hne
    · exact (pairwise_cons.mp hsorted).1 b hb

/-- **After every sequence of calls the tree is the ordered set of the nodes that were inserted and not erased.** -/
theorem calls_orderedSet (hcmp : StrictWeakOrder cmp) (hcalls : Calls cmp h s) : OrderedSet cmp h s := by
  have hholds := hcalls.holds
  obtain ⟨l, htree, hmem, hsorted⟩ := id hholds
  obtain ⟨t, n, hst, hinorder, -⟩ := id htree
  constructor
  · exact ⟨t, hst.above, hst.tree, hinorder ▸ hsorted hcmp, hinorder ▸ hmem⟩
  · exact fun a ha => hst.linked (hinorder ▸ hmem) ha
  · intro a ha hnew
    obtain ⟨r, h', hrun, hcase⟩ := exists_of_wp (hholds.insert ha hnew)
    refine ⟨r, h', hrun, ?_⟩
    rcases hcase with ⟨rfl, -, hequiv⟩ | ⟨rfl, -, hnone⟩
    · exact .inl ⟨hequiv, rfl, hcalls.refused ha hnew hrun (by decide)⟩
    · exact .inr ⟨hnone hcmp, rfl, hcalls.inserted ha hnew hrun⟩
  · exact fun a ha => hcalls.exists_erase ha
  · intro a
    obtain ⟨p, h', hrun, rfl, hfound⟩ := exists_of_wp (wp_rbLookup hcmp htree (hsorted hcmp) a)
    refine ⟨p, hrun, hfound.imp (And.imp_left (hmem p).mp) ?_⟩
    exact And.imp_right fun hnone b hb => hnone b ((hmem b).mpr hb)
  · obtain ⟨p, h', hrun, rfl, rfl⟩ := exists_of_wp (wp_rbFirst htree)
    refine ⟨_, hrun, ⟨fun hzero => ?_, ?_⟩, (hsorted hcmp).head hmem⟩
    · by_contra hne
      exact (htree.nodePtr ((hmem _).mpr ((hsorted hcmp).head hmem hne).1)).ne_zero hzero
    · rintro rfl
      cases l with
      | nil => rfl
      | cons p l => exact absurd ((hmem p).mp mem_cons_self) (Finset.notMem_empty p)

/-- Two nodes come and one goes. -/
theorem exists_calls_byAddress : ∃ h, Calls byAddress h {16} := by
  obtain ⟨h0, hroot⟩ : ∃ h : Heap, h.root = 0 := ⟨⟨0, fun _ => ⟨0, 0, 0⟩⟩, rfl⟩
  have hempty : ∀ b ∈ (∅ : Finset Ptr), ¬ Equivalent byAddress 8 b := fun b hb => absurd hb (Finset.notMem_empty b)
  obtain ⟨h1, hone⟩ := (Calls.start hroot).exists_insert strictWeakOrder_byAddress (a := 8) ⟨by decide, rfl⟩ hempty
  have hless : ∀ b ∈ insert 8 (∅ : Finset Ptr), ¬ Equivalent byAddress 16 b := by
    intro b hb
    obtain rfl : b = 8 := by simpa using hb
    exact fun hequiv => hequiv.2 (by decide)
  obtain ⟨h2, htwo⟩ := hone.exists_insert strictWeakOrder_byAddress (a := 16) ⟨by decide, rfl⟩ hless
  obtain ⟨h3, -, hthree⟩ := htwo.exists_erase (a := 8) (by simp)
  have hleft : (insert 16 (insert 8 ∅) : Finset Ptr).erase 8 = {16} := by decide
  exact ⟨h3, hleft ▸ hthree⟩

theorem calls_orderedSet_byAddress : ∃ h, Calls byAddress h {16} ∧ OrderedSet byAddress h {16} := by
  obtain ⟨h, hcalls⟩ := exists_calls_byAddress
  exact ⟨h, hcalls, calls_orderedSet strictWeakOrder_byAddress hcalls⟩

/-- The tree in the heap `h` is balanced, and no call on it dereferences NULL or loops. -/
structure BalancedSet (cmp : Ptr → Ptr → Bool) (h : Heap) (s : Finset Ptr) : Prop where
  tree : ∃ t, h.root = ptrOf t ∧ At h 0 t ∧ (∀ a, a ∈ t.inorder ↔ a ∈ s) ∧ t.color = .black ∧ t.NoRedRed ∧
    (∃ n, ∀ p ∈ t.paths, p.count .black = n) ∧ t.height ≤ 2 * Nat.log 2 (s.card + 1)
  insert : ∀ a, NodePtr a → a ∉ s → ∃ r h', rbInsert cmp a h = .ok (r, h')
  erase : ∀ a ∈ s, ∃ h', rbErase a h = .ok ((), h')

/-- **After every sequence of calls the tree is balanced**, whatever `cmp` is. -/
theorem calls_balancedSet (hcalls : Calls cmp h s) : BalancedSet cmp h s := by
  have hholds := hcalls.holds
  obtain ⟨l, htree, hmem, -⟩ := id hholds
  have hcard : l.length = s.card := by
    rw [← toFinset_card_of_nodup htree.nodup]
    exact congrArg Finset.card (Finset.ext fun b => mem_toFinset.trans (hmem b))
  constructor
  · obtain ⟨t, n, hst, rfl, hbalanced⟩ := htree
    exact ⟨t, hst.above, hst.tree, hmem, hbalanced.color_eq, hbalanced.noRedRed, ⟨n, hbalanced.count_paths⟩,
      hcard ▸ hbalanced.height_le⟩
  · intro a ha hnew
    obtain ⟨r, h', hrun, -⟩ := exists_of_wp (hholds.insert ha hnew)
    exact ⟨r, h', hrun⟩
  · intro a ha
    obtain ⟨h', hrun, -⟩ := hcalls.exists_erase ha
    exact ⟨h', hrun⟩

theorem calls_balancedSet_byAddress : ∃ h, Calls byAddress h {16} ∧ BalancedSet byAddress h {16} := by
  obtain ⟨h, hcalls⟩ := exists_calls_byAddress
  exact ⟨h, hcalls, calls_balancedSet hcalls⟩

end Calls

end Armv8Os.Rbtree
