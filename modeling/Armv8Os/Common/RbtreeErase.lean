/-
  `_rb_erase`.

  `__rb_erase` takes a node without a left child out of the tree: the node itself, or its successor, which then takes its place.
  If a red node goes, or one that has a red child to be painted black, nothing is missing.  Otherwise the hole is left with a
  tree `t` that has ONE BLACK NODE TOO FEW (`Context.Fits k .black (n + 1)`, `t.Balanced .black n`).

  The loop of `__rb_erase_fix` keeps exactly this.  The sibling of `t` then has a black node on every way down, which is why it
  is not NULL, and neither are the children of a red sibling.
-/
import Armv8Os.Common.RbtreeHeap

namespace Armv8Os.Rbtree

open RedBlack RedBlack.RbTree Prog List Above Context Heap

/-! ## The cases of the loop -/

section Cases

variable {h : Heap} {k : Context Ptr} {d : Side} {c : Color} {t x y : RbTree Ptr} {p q s : Ptr} {E : Fault → Prop}

theorem wp_rbSetParent {Q : Unit → Heap → Prop} {a : Ptr} (hpc : h.pc a = q ||| colorBit c) (hq : AlignedPtr q) (hne : a ≠ 0) :
    wp (rbSetParent a p) Q E h ↔ Q () (h.adopt a (p ||| colorBit c)) := by
  unfold rbSetParent
  rw [wp_bind, wp_getPc hne, wp_setPc hne, hpc, and_one_or hq, adopt_of_ne h hne, UInt64.or_comm]

theorem wp_reparent {Q : Unit → Heap → Prop} (hx : At h q x) (hq : AlignedPtr q) :
    wp (reparent (ptrOf x) p) Q E h ↔ Q () (h.adopt (ptrOf x) (p ||| colorBit x.color)) := by
  unfold reparent
  by_cases hne : ptrOf x = 0
  · rw [if_neg (not_not.mpr hne), wp_pure, Heap.adopt, if_pos hne]
  · rw [if_pos hne, wp_rbSetParent (hx.pc_root hne) hq hne]

/-- The rotation at the end.  The children of `s` may still have their old parents. -/
theorem wp_eraseRotate {q' : Ptr} (hk : Above h k p) (hp : NodePtr p) (hpPc : h.pc p = parentPtr k ||| colorBit c)
    (hpNear : h.child d p = ptrOf t) (htTree : At h p t) (hs : NodePtr s) (hsNear : h.child d s = ptrOf x)
    (hsFar : h.child d.other s = ptrOf y) (hxTree : At h q x) (hq : AlignedPtr q) (hyTree : At h q' y) (hy : ptrOf y ≠ 0)
    (honce : ((join d c (join d .black t p x) s y).inorder ++ Context.keys k).Nodup) :
    wp (eraseRotate d p s (ptrOf y)) (fun _ h' => Stands h' k (join d c (join d .black t p x) s (y.paint .black)))
      (fun _ => False) h := by
  have hsep := honce
  simp only [nodup_append', nodup_join, mem_join, disjoint_join_left, not_or] at hsep
  obtain ⟨⟨⟨⟨hsp, hst, hsx⟩, hsy⟩, ⟨⟨hpt, hpx⟩, -, hxOnce, htx⟩, hyOnce, hpy, hty, hxy⟩, hkOnce, hsk, ⟨hpk, htk, hxk⟩, hyk⟩ := hsep
  have hpx' := ne_ptrOf hpx hp.ne_zero
  have hpy' := ne_ptrOf hpy hp.ne_zero
  obtain ⟨h1, hh1⟩ : ∃ h1, h1 = (((h.setChild d.other p (ptrOf x)).adopt (ptrOf x) (p ||| colorBit x.color)).setChild d s p).adopt
      (ptrOf y) (s ||| colorBit .black) := ⟨_, rfl⟩
  have hk1 : Above h1 k p := hh1 ▸ Above.adopt (Above.setChild (Above.adopt (Above.setChild hk hpk) hxk) hsk) hyk
  have hpPc1 : h1.pc p = parentPtr k ||| colorBit c := by simp [hh1, pc_adopt, hpx', hpy', hpPc]
  have ht1 : At h1 p t := hh1 ▸ (((htTree.setChild hpt).adopt htx.symm).setChild hst).adopt hty.symm
  have hx1 : At h1 p x := by
    have hmoved := (((hxTree.setChild (d := d.other) (p := ptrOf x) hpx).adopted (p := p) (c := x.color) hxOnce).setChild
      (d := d) (a := s) (p := p) (by simpa using hsx)).adopt (x := y) (w := s ||| colorBit .black) (by simpa using hxy.symm)
    rwa [paint_color, ← hh1] at hmoved
  have hy1 : At h1 s (y.paint .black) := hh1 ▸ (((hyTree.setChild hpy).adopt hxy).setChild hsy).adopted hyOnce
  have hpNear1 : h1.child d p = ptrOf t := by simp [hh1, child_setChild, Ne.symm hsp, hpNear]
  have hpFar1 : h1.child d.other p = ptrOf x := by simp [hh1, child_setChild]
  have hsNear1 : h1.child d s = p := by simp [hh1, child_setChild]
  have hsFar1 : h1.child d.other s = ptrOf y := by simp [hh1, child_setChild, hsp, hsFar]
  unfold eraseRotate rbSetParentColor
  rw [wp_bind, wp_getChild hs.ne_zero, hsNear, wp_bind, wp_setChild hp.ne_zero, wp_bind, wp_reparent (hxTree.setChild hpx) hq,
    wp_bind, wp_setChild hs.ne_zero, wp_bind, wp_setPc hy, ← adopt_of_ne _ hy, ← hh1,
    wp_rbRotateSetParents hk1 hpk hsk hp.ne_zero hs.ne_zero hpPc1]
  refine ⟨?_, at_join.mpr ⟨hs, ?_, ?_, ?_, at_join.mpr ⟨hp, ?_, ?_, ?_, ?_, ?_⟩, ?_⟩, ?_⟩
  · rw [ptrOf_join]
    exact rotate hk1 hpk hsk hkOnce
  · rw [pc_rotate, if_neg hsp, if_pos rfl, hpPc1]
  · rw [child_rotate _ hsk, hsNear1, ptrOf_join]
  · rw [child_rotate _ hsk, hsFar1, ptrOf_paint]
  · rw [pc_rotate, if_pos rfl]
  · rw [child_rotate _ hpk, hpNear1]
  · rw [child_rotate _ hpk, hpFar1]
  · exact ht1.rotate hpt hst htk
  · exact hx1.rotate hpx hsx hxk
  · exact hy1.rotate (by simpa using hpy) (by simpa using hsy) (by simpa using hyk)
  · rw [inorder_join_congr d c c s rfl (inorder_paint .black y)]
    exact honce

/-- Case 1: the sibling is red.  Its near child becomes the new sibling. -/
theorem eraseCase_red {Q : Option (Ptr × Ptr) → Heap → Prop} (hst : Stands h k (join d .black t p (join d .red x s y)))
    (hx : ptrOf x ≠ 0) (hnext : ∀ h', Stands h' k (join d .black (join d .red t p (x.paint .black)) s y) →
      wp (eraseBlack d p (ptrOf x)) Q (fun _ => False) h') :
    wp (eraseCase d p s) Q (fun _ => False) h := by
  obtain ⟨hk, htree, honce⟩ := hst
  obtain ⟨hp, hpPc, hpNear, -, htTree, hsTree⟩ := at_join.mp htree
  obtain ⟨hs, hsPc, hsNear, hsFar, hxTree, hyTree⟩ := at_join.mp hsTree
  have hsep := honce
  simp only [nodup_append', nodup_join, mem_join, disjoint_join_left, disjoint_join_right, not_or] at hsep
  obtain ⟨⟨⟨hpt, hps, hpx, hpy⟩, -, ⟨⟨hsx, hsy⟩, hxOnce, -, hxy⟩, hst, htx, hty⟩, hkOnce, hpk, htk, hsk, hxk, hyk⟩ := hsep
  have hpx' := ne_ptrOf hpx hp.ne_zero
  rw [ptrOf_join] at hk
  obtain ⟨h1, hh1⟩ : ∃ h1, h1 = ((h.setChild d.other p (ptrOf x)).adopt (ptrOf x) (p ||| colorBit .black)).setChild d s p := ⟨_, rfl⟩
  have hk1 : Above h1 k p := hh1 ▸ Above.setChild (Above.adopt (Above.setChild hk hpk) hxk) hsk
  have hpPc1 : h1.pc p = parentPtr k ||| colorBit .black := by simp [hh1, pc_adopt, hpx', hpPc]
  have ht1 : At h1 p t := hh1 ▸ ((htTree.setChild hpt).adopt htx.symm).setChild hst
  have hx1 : At h1 p (x.paint .black) := hh1 ▸ ((hxTree.setChild hpx).adopted hxOnce).setChild (by simpa using hsx)
  have hy1 : At h1 s y := hh1 ▸ ((hyTree.setChild hpy).adopt hxy).setChild hsy
  have hpNear1 : h1.child d p = ptrOf t := by simp [hh1, child_setChild, hps, hpNear]
  have hpFar1 : h1.child d.other p = ptrOf x := by simp [hh1, child_setChild]
  have hsNear1 : h1.child d s = p := by simp [hh1, child_setChild]
  have hsFar1 : h1.child d.other s = ptrOf y := by simp [hh1, child_setChild, Ne.symm hps, hsFar]
  unfold eraseCase rbIsRed rbSetParentColor
  rw [wp_bind, wp_bind, wp_getPc hs.ne_zero, wp_pure, hsPc, blackPc_or hp.aligned, if_pos (by decide), wp_bind, wp_getChild hs.ne_zero,
    hsNear, wp_bind, wp_setChild hp.ne_zero, wp_bind, wp_setPc hx, ← adopt_of_ne _ hx, wp_bind, wp_setChild hs.ne_zero, ← hh1,
    wp_bind, wp_rbRotateSetParents hk1 hpk hsk hp.ne_zero hs.ne_zero hpPc1]
  refine hnext _ ⟨?_, at_join.mpr ⟨hs, ?_, ?_, ?_, at_join.mpr ⟨hp, ?_, ?_, ?_, ?_, ?_⟩, ?_⟩, ?_⟩
  · rw [ptrOf_join]
    exact rotate hk1 hpk hsk hkOnce
  · rw [pc_rotate, if_neg (Ne.symm hps), if_pos rfl, hpPc1]
  · rw [child_rotate _ hsk, hsNear1, ptrOf_join]
  · rw [child_rotate _ hsk, hsFar1]
  · rw [pc_rotate, if_pos rfl]
  · rw [child_rotate _ hpk, hpNear1]
  · rw [child_rotate _ hpk, hpFar1, ptrOf_paint]
  · exact ht1.rotate hpt hst htk
  · exact hx1.rotate (by simpa using hpx) (by simpa using hsx) (by simpa using hxk)
  · exact hy1.rotate hpy hsy hyk
  · rw [inorder_join_congr d .black .black s (inorder_join_congr d .red .red p rfl (inorder_paint .black x)) rfl,
      inorder_rotate d .black .red .black .red]
    exact honce

/-- Case 2: the sibling and its children are black. -/
theorem eraseBlack_recolor (hst : Stands h k (join d c t p (join d .black x s y))) (hx : x.color = .black) (hy : y.color = .black) :
    wp (eraseBlack d p s) (fun r h' =>
      r = (if c = .red ∨ parentPtr k = 0 then none else some (p, parentPtr k)) ∧
        Stands h' k (join d .black t p (join d .red x s y))) (fun _ => False) h := by
  obtain ⟨hk, htree, honce⟩ := hst
  obtain ⟨hp, hpPc, hpNear, hpFar, htTree, hsTree⟩ := at_join.mp htree
  obtain ⟨hs, hsPc, hsNear, hsFar, hxTree, hyTree⟩ := at_join.mp hsTree
  have hsep := honce
  simp only [nodup_append', nodup_join, mem_join, disjoint_join_left, disjoint_join_right, not_or] at hsep
  obtain ⟨⟨⟨hpt, hps, hpx, hpy⟩, -, ⟨⟨hsx, hsy⟩, -, -, -⟩, hst, -, -⟩, -, hpk, -, hsk, -, -⟩ := hsep
  rw [ptrOf_join] at hk hpFar
  have hpPc1 : (h.setPc s (p ||| colorBit .red)).pc p = parentPtr k ||| colorBit c := by
    rw [pc_setPc, if_neg hps, hpPc]
  -- the word of `p` decides how the loop goes on, and then it is that of a black node
  have hstands : ∀ h2 : Heap, h2.root = h.root → h2.pc p = parentPtr k ||| colorBit .black →
      (∀ b, b ≠ p → h2.pc b = (h.setPc s (p ||| colorBit .red)).pc b) → (∀ b e, h2.child e b = h.child e b) →
      Stands h2 k (join d .black t p (join d .red x s y)) := by
    intro h2 hroot hpBlack hpc hchild
    have hagree : ∀ l : List Ptr, p ∉ l → s ∉ l → Agree h h2 l := by
      intro l hpl hsl b hb
      refine ⟨?_, fun e => hchild b e⟩
      rw [hpc b (ne_of_mem_of_not_mem hb hpl), pc_setPc, if_neg (ne_of_mem_of_not_mem hb hsl)]
    refine ⟨?_, at_join.mpr ⟨hp, hpBlack, ?_, ?_, htTree.frame (hagree _ hpt hst), at_join.mpr ⟨hs, ?_, ?_, ?_, ?_, ?_⟩⟩, ?_⟩
    · rw [ptrOf_join]
      exact frame hk hroot (hagree _ hpk hsk)
    · rw [hchild, hpNear]
    · rw [hchild, hpFar, ptrOf_join]
    · rw [hpc s (Ne.symm hps), pc_setPc, if_pos rfl]
    · rw [hchild, hsNear]
    · rw [hchild, hsFar]
    · exact hxTree.frame (hagree _ hpx hsx)
    · exact hyTree.frame (hagree _ hpy hsy)
    · rw [inorder_join_congr d .black c p rfl (inorder_join_congr d .red .black s rfl rfl)]
      exact honce
  unfold eraseBlack rbSetParentColor rbIsRed
  rw [wp_bind, wp_getChild hs.ne_zero, hsFar, wp_bind, wp_nullOrBlack hyTree hs.aligned, hy, if_pos (by decide), wp_bind,
    wp_getChild hs.ne_zero, hsNear, wp_bind, wp_nullOrBlack hxTree hs.aligned, hx, if_pos (by decide), wp_bind, wp_setPc hs.ne_zero, wp_bind,
    wp_bind, wp_getPc hp.ne_zero, wp_pure, hpPc1, blackPc_or (Way.aligned hk)]
  cases c with
  | red =>
    unfold rbSetBlack
    rw [if_pos (by decide), wp_bind, wp_bind, wp_getPc hp.ne_zero, wp_setPc hp.ne_zero, hpPc1, or_black]
    refine ⟨(if_pos (.inl rfl)).symm, hstands _ rfl ?_ ?_ ?_⟩
    · rw [pc_setPc, if_pos rfl]
    · exact fun b hb => (pc_setPc ..).trans (if_neg hb)
    · exact fun b e => (child_setPc ..).trans (child_setPc ..)
  | black =>
    unfold rbParent
    rw [if_neg (by decide), wp_bind, wp_bind, wp_getPc hp.ne_zero, wp_pure, hpPc1, parentOf_or (Way.aligned hk)]
    refine ⟨?_, hstands _ rfl hpPc1 (fun _ _ => rfl) fun _ _ => child_setPc ..⟩
    by_cases hroot : parentPtr k = 0
    · rw [if_neg (not_not.mpr hroot), if_pos (.inr hroot)]
    · rw [if_pos hroot, if_neg (not_or.mpr ⟨by decide, hroot⟩)]

/-- Case 4: the far child of the sibling is red. -/
theorem eraseBlack_far (hst : Stands h k (join d c t p (join d .black x s y))) (hy : y.color = .red) :
    wp (eraseBlack d p s) (fun r h' => r = none ∧ Stands h' k (join d c (join d .black t p x) s (y.paint .black)))
      (fun _ => False) h := by
  obtain ⟨hk, htree, honce⟩ := hst
  obtain ⟨hp, hpPc, hpNear, -, htTree, hsTree⟩ := at_join.mp htree
  obtain ⟨hs, -, hsNear, hsFar, hxTree, hyTree⟩ := at_join.mp hsTree
  have hyZero : ptrOf y ≠ 0 := by
    intro hzero
    rw [hyTree.eq_nil hzero] at hy
    cases hy
  rw [ptrOf_join] at hk
  rw [← inorder_rotate d c .black c .black] at honce
  unfold eraseBlack
  rw [wp_bind, wp_getChild hs.ne_zero, hsFar, wp_bind, wp_nullOrBlack hyTree hs.aligned, hy, if_neg (by decide), wp_bind]
  refine wp_imp (wp_eraseRotate hk hp hpPc hpNear htTree hs hsNear hsFar hxTree hs.aligned hyTree hyZero honce)
    (fun _ h' hst' => ?_)
  exact ⟨rfl, hst'⟩

/-- Cases 3 and 4: the near child of the sibling is red, and the far one is not. -/
theorem eraseBlack_near {n : Ptr} {x₁ x₂ : RbTree Ptr} (hst : Stands h k (join d c t p (join d .black (join d .red x₁ n x₂) s y)))
    (hy : y.color = .black) :
    wp (eraseBlack d p s) (fun r h' =>
      r = none ∧ Stands h' k (join d c (join d .black t p x₁) n (join d .black (x₂.paint .black) s y))) (fun _ => False) h := by
  obtain ⟨hk, htree, honce⟩ := hst
  obtain ⟨hp, hpPc, hpNear, -, htTree, hsTree⟩ := at_join.mp htree
  obtain ⟨hs, hsPc, hsNear, hsFar, hnTree, hyTree⟩ := at_join.mp hsTree
  obtain ⟨hn, -, hnNear, hnFar, hxTree, hxTree'⟩ := at_join.mp hnTree
  have hsep := honce
  simp only [nodup_append', nodup_join, mem_join, disjoint_join_left, disjoint_join_right, not_or] at hsep
  obtain ⟨⟨⟨hpt, hps, ⟨hpn, hpx, hpx'⟩, hpy⟩, -, ⟨⟨⟨hsn, hsx, hsx'⟩, hsy⟩, ⟨⟨hnx, hnx'⟩, -, hxOnce', hxx'⟩, -, hny, hxy, hxy'⟩,
    hst, ⟨hnt, htx, htx'⟩, hty⟩, -, hpk, htk, hsk, ⟨hnk, hxk, hxk'⟩, hyk⟩ := hsep
  have hinorder : (join d c (join d .black t p x₁) n (join d .black (x₂.paint .black) s y)).inorder =
      (join d c t p (join d .black (join d .red x₁ n x₂) s y)).inorder := by
    rw [inorder_rotate d c .black c .black]
    refine inorder_join_congr d c c p rfl ?_
    rw [inorder_rotate d .black .red .black .black]
    exact inorder_join_congr d .black .black n rfl (inorder_join_congr d .black .black s (inorder_paint .black x₂) rfl)
  rw [ptrOf_join] at hk hsNear
  -- the heap after case 3, where `s` stands below `n`
  obtain ⟨h1, hh1⟩ : ∃ h1, h1 = (((h.setChild d s (ptrOf x₂)).adopt (ptrOf x₂) (s ||| colorBit .black)).setChild d.other n s).setChild
      d.other p n := ⟨_, rfl⟩
  have hk1 : Above h1 k p := hh1 ▸ Above.setChild (Above.setChild (Above.adopt (Above.setChild hk hsk) hxk') hnk) hpk
  have ht1 : At h1 p t := hh1 ▸ (((htTree.setChild hst).adopt htx'.symm).setChild hnt).setChild hpt
  have hx1 : At h1 n x₁ := hh1 ▸ (((hxTree.setChild hsx).adopt hxx'.symm).setChild hnx).setChild hpx
  have hx1' : At h1 s (x₂.paint .black) := hh1 ▸ (((hxTree'.setChild hsx').adopted hxOnce').setChild
    (by simpa using hnx')).setChild (by simpa using hpx')
  have hy1 : At h1 s y := hh1 ▸ (((hyTree.setChild hsy).adopt hxy').setChild hny).setChild hpy
  have hs1 : At h1 p (join d .black (x₂.paint .black) s y) := by
    refine at_join.mpr ⟨hs, ?_, ?_, ?_, hx1', hy1⟩
    · simp [hh1, pc_adopt, ne_ptrOf hsx' hs.ne_zero, hsPc]
    · simp [hh1, child_setChild, hsn, Ne.symm hps]
    · simp [hh1, child_setChild, hsn, Ne.symm hps, hsFar]
  have hpPc1 : h1.pc p = parentPtr k ||| colorBit c := by simp [hh1, pc_adopt, ne_ptrOf hpx' hp.ne_zero, hpPc]
  have hpNear1 : h1.child d p = ptrOf t := by simp [hh1, child_setChild, hpn, hps, hpNear]
  have hnNear1 : h1.child d n = ptrOf x₁ := by simp [hh1, child_setChild, Ne.symm hpn, Ne.symm hsn, hnNear]
  have hnFar1 : h1.child d.other n = ptrOf (join d .black (x₂.paint .black) s y) := by
    simp [hh1, child_setChild, Ne.symm hpn]
  have hsZero : ptrOf (join d .black (x₂.paint .black) s y) ≠ 0 := by
    rw [ptrOf_join]
    exact hs.ne_zero
  have hrotate := wp_eraseRotate hk1 hp hpPc1 hpNear1 ht1 hn hnNear1 hnFar1 hx1 hn.aligned hs1 hsZero (by rw [hinorder]; exact honce)
  rw [ptrOf_join, paint_of_color (color_join ..)] at hrotate
  unfold eraseBlack
  rw [wp_bind, wp_getChild hs.ne_zero, hsFar, wp_bind, wp_nullOrBlack hyTree hs.aligned, hy, if_pos (by decide), wp_bind,
    wp_getChild hs.ne_zero, hsNear, wp_bind, ← ptrOf_join d .red x₁ n x₂, wp_nullOrBlack hnTree hs.aligned, color_join,
    if_neg (by decide), ptrOf_join, wp_bind, wp_getChild hn.ne_zero, hnFar, wp_bind, wp_setChild hs.ne_zero, wp_bind, wp_adopt,
    wp_bind, wp_setChild hn.ne_zero, wp_bind, wp_setChild hp.ne_zero, ← hh1, wp_bind]
  exact wp_imp hrotate (fun _ h' hst' => ⟨rfl, hst'⟩)

end Cases

/-! ## The loop -/

section Fix

variable {h : Heap} {k : Context Ptr} {d : Side} {c : Color} {t s : RbTree Ptr} {p : Ptr} {m n : Nat}

theorem parentPtr_eq_zero (hk : Above h k p) (hzero : parentPtr k = 0) : k = [] := by
  cases k with
  | nil => rfl
  | cons f k => exact absurd hzero hk.1.ne_zero

/-- What a round leaves: the tree is in order, or the place where a black node is missing has moved up. -/
def Round (k : Context Ptr) (l : List Ptr) (n : Nat) (r : Option (Ptr × Ptr)) (h' : Heap) : Prop :=
  (r = none ∧ HoldsTree h' l) ∨
    ∃ t', r = some (ptrOf t', parentPtr k) ∧ k ≠ [] ∧ Stands h' k t' ∧ t'.Balanced .black n ∧ (Context.plug k t').inorder = l

/-- The rest of a round, with a black sibling. -/
theorem wp_eraseBlack (hst : Stands h k (join d c t p s)) (ht : t.Balanced .black n) (hs : s.Balanced .black (n + 1))
    (hk : Context.Fits k c (n + 1 + blacks c)) :
    wp (eraseBlack d p (ptrOf s)) (fun r h' => Round k (Context.plug k (join d c t p s)).inorder (n + 1) r h' ∧ (c = .red → r = none))
      (fun _ => False) h := by
  obtain ⟨x, b, y, cx, cy, rfl, hx, hy⟩ := hs.of_black d
  rw [ptrOf_join]
  cases cy with
  | red =>
    refine wp_imp (eraseBlack_far hst hy.color_eq) ?_
    rintro _ h' ⟨rfl, hst'⟩
    have hholds := hst'.holdsTree hk ((ht.join_black d hx).join_any d c hy.paint_black)
    rw [inorder_plug_congr k (inorder_join_congr d c c b rfl (inorder_paint .black y)),
      inorder_plug_congr k (inorder_rotate d c .black c .black ..)] at hholds
    exact ⟨.inl ⟨rfl, hholds⟩, fun _ => rfl⟩
  | black =>
    cases cx with
    | red =>
      obtain ⟨x₁, a, x₂, rfl, hx1, hx2⟩ := hx.of_red d
      refine wp_imp (eraseBlack_near hst hy.color_eq) ?_
      rintro _ h' ⟨rfl, hst'⟩
      rw [paint_of_color hx2.color_eq] at hst'
      have hholds := hst'.holdsTree hk ((ht.join_black d hx1).join_any d c (hx2.join_black d hy))
      rw [inorder_plug_congr k (inorder_rotate d c .black c .black ..), inorder_plug_congr k
        (inorder_join_congr d c c p rfl (inorder_rotate d .black .red .black .black ..).symm)] at hholds
      exact ⟨.inl ⟨rfl, hholds⟩, fun _ => rfl⟩
    | black =>
      refine wp_imp (eraseBlack_recolor hst hx.color_eq hy.color_eq) ?_
      rintro _ h' ⟨rfl, hst'⟩
      have ht' : (join d .black t p (join d .red x b y)).Balanced .black (n + 1) := ht.join_black d (hx.join_red d hy)
      have hinorder : (plug k (join d .black t p (join d .red x b y))).inorder =
          (plug k (join d c t p (join d .black x b y))).inorder :=
        inorder_plug_congr k (inorder_join_congr d .black c p rfl (inorder_join_congr d .red .black b rfl rfl))
      cases c with
      | red =>
        obtain ⟨e, a, u, k, c', rfl, hk', hu⟩ := hk.exists_black
        have hholds := hst'.holdsTree (hk.any_color rfl .black) ht'
        rw [hinorder] at hholds
        exact ⟨.inl ⟨if_pos (.inl rfl), hholds⟩, fun _ => if_pos (.inl rfl)⟩
      | black =>
        refine ⟨?_, (nomatch ·)⟩
        by_cases hroot : parentPtr k = 0
        · obtain rfl := parentPtr_eq_zero hst'.above hroot
          have hholds := hst'.holdsTree .root ht'
          rw [hinorder] at hholds
          exact .inl ⟨if_pos (.inr rfl), hholds⟩
        · refine .inr ⟨_, ?_, fun hnil => hroot (hnil ▸ rfl), hst', ht', hinorder⟩
          rw [if_neg (not_or.mpr ⟨by decide, hroot⟩), ptrOf_join]

/-- A round finds the sibling on the other side. -/
theorem wp_rbEraseFix_succ {Q : Unit → Heap → Prop} {E : Fault → Prop} (hst : Stands h k (join d c t p s)) (hs : ptrOf s ≠ 0) :
    wp (rbEraseFix (m + 1) (ptrOf t) p) Q E h ↔
      wp (eraseCase d p (ptrOf s)) (fun r h' => wp (match r with
        | some (a, q) => rbEraseFix m a q
        | none => return ()) Q E h') E h := by
  obtain ⟨-, htree, honce⟩ := hst
  obtain ⟨hp, -, hpNear, hpFar, -, -⟩ := at_join.mp htree
  simp only [nodup_append', nodup_join] at honce
  have hne : ptrOf t ≠ ptrOf s := (ne_ptrOf (honce.1.2.2.2.symm (ptrOf_mem hs)) hs).symm
  rw [rbEraseFix, wp_bind, wp_getChild hp.ne_zero]
  cases d with
  | left =>
    rw [show h.child .right p = ptrOf s from hpFar, if_pos hne]
    exact wp_bind
  | right =>
    rw [hpNear, if_neg (not_not.mpr rfl), wp_bind, wp_getChild hp.ne_zero, show h.child .left p = ptrOf s from hpFar]
    exact wp_bind

theorem wp_eraseCase_black {Q : Option (Ptr × Ptr) → Heap → Prop} {E : Fault → Prop} (hs : At h p s) (hp : AlignedPtr p)
    (hcolor : s.color = .black) (hne : ptrOf s ≠ 0) :
    wp (eraseCase d p (ptrOf s)) Q E h ↔ wp (eraseBlack d p (ptrOf s)) Q E h := by
  unfold eraseCase rbIsRed
  rw [wp_bind, wp_bind, wp_getPc hne, wp_pure, hs.pc_root hne, blackPc_or hp, hcolor, if_neg (by decide)]

/-- A black node on every way down makes a pointer that is not NULL. -/
theorem ptrOf_ne_zero {q : Ptr} (hs : At h q s) (hbalanced : s.Balanced c (n + 1)) : ptrOf s ≠ 0 := by
  intro hzero
  rw [hs.eq_nil hzero] at hbalanced
  cases hbalanced

section

variable {f : Frame Ptr} (hst : Stands h (f :: k) t) (ht : t.Balanced .black n)
  (hk : Context.Fits (f :: k) .black (n + 1))
include hst ht hk

/-- A whole round. -/
theorem wp_eraseCase :
    wp (eraseCase f.side f.key (ptrOf f.sibling)) (fun r h' => Round k (Context.plug (f :: k) t).inorder (n + 1) r h' ∧
      (r = none ∨ Context.Fits k .black (n + 2))) (fun _ => False) h := by
  have hplace := hst.up
  obtain ⟨d, c, p, s⟩ := f
  obtain ⟨hp, -, -, -, -, hsTree⟩ := at_join.mp hplace.tree
  cases hk with
  | red hk hs =>
    rw [wp_eraseCase_black hsTree hp.aligned hs.color_eq (ptrOf_ne_zero hsTree hs)]
    exact wp_imp (wp_eraseBlack hplace ht hs hk) (fun r h' hround => ⟨hround.1, .inl (hround.2 rfl)⟩)
  | @black _ _ _ _ c' _ _ hk hs =>
    cases c' with
    | black =>
      rw [wp_eraseCase_black hsTree hp.aligned hs.color_eq (ptrOf_ne_zero hsTree hs)]
      exact wp_imp (wp_eraseBlack hplace ht hs hk) (fun r h' hround => ⟨hround.1, .inr hk⟩)
    | red =>
      obtain ⟨x, b, y, rfl, hx, hy⟩ := hs.of_red d
      have hxTree := (at_join.mp hsTree).2.2.2.2.1
      rw [ptrOf_join]
      refine eraseCase_red hplace (ptrOf_ne_zero hxTree hx) fun h' hst' => ?_
      rw [paint_of_color hx.color_eq] at hst'
      have hdown : Stands h' (⟨d, .black, b, y⟩ :: k) (join d .red t p x) := Stands.down (f := ⟨d, .black, b, y⟩) hst'
      refine wp_imp (wp_eraseBlack hdown ht hx (.black hk hy)) ?_
      rintro r h'' ⟨hround, hnone⟩
      obtain rfl := hnone rfl
      rcases hround with ⟨-, hholds⟩ | ⟨_, hsome, -⟩
      · refine ⟨.inl ⟨rfl, ?_⟩, .inl rfl⟩
        rw [plug, inorder_plug_congr k (inorder_rotate d .black .red .black .red ..)] at hholds
        exact hholds
      · cases hsome

/-- **`__rb_erase_fix` repairs the tree.** -/
theorem wp_rbEraseFix (hm : k.length < m) :
    wp (rbEraseFix m (ptrOf t) f.key) (fun _ h' => HoldsTree h' (Context.plug (f :: k) t).inorder) (fun _ => False) h := by
  induction m generalizing h f k t n with
  | zero => exact absurd hm (Nat.not_lt_zero _)
  | succ m ih =>
    have hs : ptrOf f.sibling ≠ 0 := by
      cases hk with
      | red _ hs => exact ptrOf_ne_zero hst.above.2.2.2.2.1 hs
      | black _ hs => exact ptrOf_ne_zero hst.above.2.2.2.2.1 hs
    rw [wp_rbEraseFix_succ hst.up hs]
    refine wp_imp (wp_eraseCase hst ht hk) ?_
    rintro r h' ⟨⟨rfl, hholds⟩ | ⟨t', rfl, hne, hst', ht', hinorder⟩, hfits⟩
    · exact hholds
    · cases k with
      | nil => exact absurd rfl hne
      | cons g k =>
        have hnext := ih hst' ht' (hfits.resolve_left (nomatch ·)) (Nat.lt_of_succ_lt_succ hm)
        rw [hinorder] at hnext
        exact hnext

end

end Fix

/-! ## The node leaves the tree -/

section Unlink

variable {h : Heap} {k j : Context Ptr} {d : Side} {c cs : Color} {l r t y : RbTree Ptr} {a p q s : Ptr} {f : Frame Ptr} {m n : Nat}

theorem ptrOf_plug_mem (f : Frame Ptr) (j : Context Ptr) (t : RbTree Ptr) :
    ptrOf (Context.plug (f :: j) t) ∈ Context.keys (f :: j) := by
  induction j generalizing f t with
  | nil =>
    rw [show ptrOf (plug [f] t) = f.key from ptrOf_join ..]
    exact mem_cons_self
  | cons g j ih => exact mem_cons_of_mem _ (mem_append_right _ (ih g _))

/-- The uppermost node does not depend on what is filled in. -/
theorem ptrOf_plug_cons (f : Frame Ptr) (j : Context Ptr) (x y : RbTree Ptr) :
    ptrOf (Context.plug (f :: j) x) = ptrOf (Context.plug (f :: j) y) := by
  induction j generalizing f x y with
  | nil => exact (ptrOf_join ..).trans (ptrOf_join ..).symm
  | cons g j ih => exact ih g _ _

theorem ptrOf_plug_paint (c : Color) (j : Context Ptr) (t : RbTree Ptr) :
    ptrOf (Context.plug j (t.paint c)) = ptrOf (Context.plug j t) := by
  cases j with
  | nil => exact ptrOf_paint c t
  | cons f j => exact ptrOf_plug_cons f j _ _

/-- The uppermost node of a context gets another parent. -/
theorem Way.adopted {q' : Ptr} (hk : Way h q (f :: j) p (ptrOf (Context.plug (f :: j) t))) (honce : (Context.keys (f :: j)).Nodup) :
    Way (h.adopt (ptrOf (Context.plug (f :: j) t)) (q' ||| colorBit (Context.plug (f :: j) t).color)) q' (f :: j) p
      (ptrOf (Context.plug (f :: j) t)) := by
  induction j generalizing f t p with
  | nil =>
    obtain ⟨hf, hpc, hp, hother, hs, -⟩ := hk
    obtain ⟨hnot, -⟩ := nodup_cons.mp honce
    rw [Context.keys, append_nil] at hnot
    have htop : ptrOf (plug [f] t) = f.key := ptrOf_join ..
    have hcolor : (plug [f] t).color = f.color := color_join ..
    rw [htop, hcolor, adopt_of_ne h hf.ne_zero]
    refine ⟨hf, ?_, (child_setPc ..).trans hp, (child_setPc ..).trans hother, hs.setPc hnot, rfl⟩
    rw [pc_setPc, if_pos rfl]
    rfl
  | cons g j ih =>
    obtain ⟨hf, hpc, hp, hother, hs, hk⟩ := hk
    obtain ⟨hnot, honce⟩ := nodup_cons.mp honce
    obtain ⟨-, honce', hdisjoint⟩ := nodup_append'.mp honce
    have htop := ptrOf_plug_mem g j (join f.side f.color t f.key f.sibling)
    have hne : f.key ≠ ptrOf (plug (f :: g :: j) t) := fun heq => hnot (mem_append_right _ (heq ▸ htop))
    refine ⟨hf, ?_, (child_adopt ..).trans hp, (child_adopt ..).trans hother, ?_, ih hk honce'⟩
    · rw [pc_adopt, if_neg (not_and_of_not_left _ hne)]
      exact hpc
    · exact hs.frame (Agree.adopt_of fun _ hin => hdisjoint hin htop)

/-- The search for the successor goes to the left as long as it can. -/
theorem wp_rbSuccessor {E : Fault → Prop} (hr : At h q (Context.plug (f :: j) t)) (ht : t ≠ .nil) (hf : f.side = .left)
    (hbefore : Context.before (f :: j) = []) (hm : t.height < m) :
    wp (rbSuccessor m f.key (ptrOf t)) (fun res h' => h' = h ∧ ∃ g i cs s y, Context.plug (g :: i) (.node cs .nil s y) =
      Context.plug (f :: j) t ∧ g.side = .left ∧ Context.before (g :: i) = [] ∧ res = (g.key, s)) E h := by
  induction m generalizing f j t with
  | zero => exact absurd hm (Nat.not_lt_zero _)
  | succ m ih =>
    cases t with
    | nil => exact absurd rfl ht
    | node c l b r =>
      obtain ⟨-, hb, -, hleft, -, hl, -⟩ := at_plug.mp hr
      rw [rbSuccessor]
      rw [show ptrOf (node c l b r) = b from rfl, wp_bind, wp_getChild hb.ne_zero, hleft]
      by_cases hzero : ptrOf l = 0
      · obtain rfl := hl.eq_nil hzero
        exact ⟨rfl, f, j, c, b, r, rfl, hf, hbefore, rfl⟩
      · rw [if_pos hzero]
        have hheight : l.height < m := by
          change max l.height r.height + 1 < m + 1 at hm
          omega
        exact ih (f := ⟨.left, c, b, r⟩) (j := f :: j) hr (fun hnil => hzero (hnil ▸ rfl)) rfl hbefore hheight

/-- The end of `__rb_erase`.  At first the node `s` holds what stood to the right of `a`, without `s` itself: the tree `y` in the
hole of `j`.  The parent of `y` is still the old one. -/
theorem wp_rbReplace {q' : Ptr} (hk : Above h k a) (ha : NodePtr a) (haPc : h.pc a = parentPtr k ||| colorBit c)
    (haLeft : h.child .left a = ptrOf l) (hl : At h a l) (hlZero : ptrOf l ≠ 0) (hs : NodePtr s)
    (hsPc : h.pc s = q ||| colorBit cs) (hq : AlignedPtr q) (hsRight : h.child .right s = ptrOf (Context.plug j y))
    (hj : Way h s j (ptrOf y) (ptrOf (Context.plug j y))) (hy : At h q' y)
    (honce : (a :: s :: (l.inorder ++ (y.inorder ++ (Context.keys j ++ Context.keys k)))).Nodup) :
    wp (rbReplace a s (upPtr s j) (ptrOf y)) (fun res h' => res = (if ptrOf y = 0 ∧ cs = .black then upPtr s j else 0) ∧
      Above h' k s ∧ At h' (parentPtr k) (.node c l s (Context.plug j (y.paint .black)))) (fun _ => False) h := by
  simp only [nodup_cons, nodup_append', mem_cons, mem_append, disjoint_append_right, not_or] at honce
  obtain ⟨⟨has, hal, hay, haj, hak⟩, ⟨hsl, hsy, hsj, hsk⟩, hlOnce, ⟨hyOnce, ⟨-, hkOnce, hjk⟩, hyj, hyk⟩, hly, hlj, hlk⟩ := honce
  have hal' := ne_ptrOf hal ha.ne_zero
  have hsl' := ne_ptrOf hsl hs.ne_zero
  have hsy' := ne_ptrOf hsy hs.ne_zero
  -- the heap before the words of `s` and `y` are written
  obtain ⟨h1, hh1⟩ : ∃ h1, h1 = (h.setChild .left s (ptrOf l)).adopt (ptrOf l) (s ||| colorBit l.color) := ⟨_, rfl⟩
  have hk1 : Above h1 k a := hh1 ▸ Above.adopt (Above.setChild hk hsk) hlk
  have haPc1 : h1.pc a = parentPtr k ||| colorBit c := by simp [hh1, pc_adopt, hal', haPc]
  have hsPc1 : h1.pc s = q ||| colorBit cs := by simp [hh1, pc_adopt, hsl', hsPc]
  have hl1 : At h1 s l := by
    have hmoved := (hl.setChild (d := .left) (p := ptrOf l) hsl).adopted (p := s) (c := l.color) hlOnce
    rwa [paint_color, ← hh1] at hmoved
  have hy1 : At h1 q' y := hh1 ▸ (hy.setChild hsy).adopt hly
  have hj1 : Way h1 s j (ptrOf y) (ptrOf (plug j y)) :=
    hh1 ▸ Way.frame (Way.frame hj (Agree.setChild hsj)) (Agree.adopt hlj)
  have hsLeft1 : h1.child .left s = ptrOf l := by simp [hh1, child_setChild]
  have hsRight1 : h1.child .right s = ptrOf (plug j y) := by simp [hh1, child_setChild, hsRight]
  -- the heap at the end
  obtain ⟨h2, hh2⟩ : ∃ h2, h2 = ((h1.relink k s).setPc s (parentPtr k ||| colorBit c)).adopt (ptrOf y)
      (upPtr s j ||| colorBit .black) := ⟨_, rfl⟩
  have hend : Above h2 k s ∧ At h2 (parentPtr k) (.node c l s (plug j (y.paint .black))) := by
    refine ⟨hh2 ▸ Above.adopt (Above.setPc (Above.relink hk1 hkOnce) hsk) hyk, hs, ?_, ?_, ?_, ?_, at_plug.mpr ⟨?_, ?_⟩⟩
    · simp [hh2, pc_adopt, pc_setPc, hsy']
    · simp [hh2, child_relink _ hsk, hsLeft1]
    · rw [hh2, child_adopt, child_setPc, child_relink _ hsk, hsRight1, ptrOf_plug_paint]
    · exact hh2 ▸ ((hl1.relink hlk).setPc hsl).adopt hly.symm
    · rw [ptrOf_plug_paint, ptrOf_paint]
      exact hh2 ▸ Way.frame (Way.frame (Way.frame hj1 (Agree.relink hjk)) (Agree.setPc hsj)) (Agree.adopt hyj)
    · exact hh2 ▸ ((hy1.relink hyk).setPc hsy).adopted hyOnce
  unfold rbReplace
  rw [wp_bind, wp_getChild ha.ne_zero, haLeft, wp_bind, wp_setChild hs.ne_zero, wp_bind,
    wp_rbSetParent ((pc_setChild ..).trans (hl.pc_root hlZero)) ha.aligned hlZero, ← hh1, wp_bind, wp_getPc ha.ne_zero, haPc1,
    wp_bind, parentOf_or (Way.aligned hk), wp_rbChangeChild hk1 ha.ne_zero hak]
  by_cases hyZero : ptrOf y = 0
  · have hh2' : h2 = (h1.relink k s).setPc s (parentPtr k ||| colorBit c) := by rw [hh2, Heap.adopt, if_pos hyZero]
    rw [if_neg (not_not.mpr hyZero), wp_bind, wp_getPc hs.ne_zero, wp_bind, wp_setPc hs.ne_zero, wp_pure, ← hh2', pc_relink,
      hsPc1, blackPc_or hq]
    exact ⟨by simp [hyZero], hend⟩
  · rw [if_pos hyZero, wp_bind, wp_setPc hs.ne_zero, wp_bind]
    unfold rbSetParentColor
    rw [wp_setPc hyZero, wp_pure, ← adopt_of_ne _ hyZero, ← hh2]
    exact ⟨(if_neg fun hcase => hyZero hcase.1).symm, hend⟩

/-- The node has one child at most, on the right. -/
theorem wp_rbUnlink_right (hst : Stands h k (.node c .nil a r)) :
    wp (rbUnlink a) (fun res h' => res = (if ptrOf r = 0 ∧ c = .black then parentPtr k else 0) ∧ Stands h' k (r.paint c))
      (fun _ => False) h := by
  obtain ⟨hk, ⟨ha, hpc, hleft, hright, -, hr⟩, honce⟩ := hst
  change Above h k a at hk
  simp only [inorder, nil_append, cons_append, nodup_cons, nodup_append', mem_append, not_or] at honce
  obtain ⟨⟨har, hak⟩, hrOnce, hkOnce, hrk⟩ := honce
  have hq : AlignedPtr (parentPtr k) := Way.aligned hk
  obtain ⟨h', hh'⟩ : ∃ h', h' = (h.relink k (ptrOf r)).adopt (ptrOf r) (parentPtr k ||| colorBit c) := ⟨_, rfl⟩
  have hend : Stands h' k (r.paint c) := by
    refine ⟨?_, hh' ▸ (hr.relink hrk).adopted hrOnce, ?_⟩
    · rw [ptrOf_paint]
      exact hh' ▸ Above.adopt (Above.relink hk hkOnce) hrk
    · rw [inorder_paint]
      exact nodup_append'.mpr ⟨hrOnce, hkOnce, hrk⟩
  unfold rbUnlink
  rw [wp_bind, wp_getChild ha.ne_zero, hright, wp_bind, wp_getChild ha.ne_zero, hleft, if_pos ptrOf_nil, wp_bind, wp_getPc ha.ne_zero, hpc,
    wp_bind, parentOf_or hq, wp_rbChangeChild hk ha.ne_zero hak, blackPc_or hq]
  by_cases hzero : ptrOf r = 0
  · rw [if_neg (not_not.mpr hzero), wp_pure]
    refine ⟨by simp [hzero], ?_⟩
    rwa [hh', Heap.adopt, if_pos hzero] at hend
  · rw [if_pos hzero, wp_bind, wp_setPc hzero, wp_pure, ← adopt_of_ne _ hzero, ← hh']
    exact ⟨(if_neg fun hcase => hzero hcase.1).symm, hend⟩

/-- The node has one child, on the left. -/
theorem wp_rbUnlink_left (hst : Stands h k (.node c l a .nil)) (hl : l ≠ .nil) :
    wp (rbUnlink a) (fun res h' => res = 0 ∧ Stands h' k (l.paint c)) (fun _ => False) h := by
  obtain ⟨hk, ⟨ha, hpc, hleft, hright, hl', -⟩, honce⟩ := hst
  change Above h k a at hk
  simp only [inorder, append_assoc, cons_append, nil_append, nodup_cons, nodup_append',
    disjoint_cons_right] at honce
  obtain ⟨hlOnce, ⟨hak, hkOnce⟩, hal, hlk⟩ := honce
  have hzero : ptrOf l ≠ 0 := fun hzero => hl (hl'.eq_nil hzero)
  have hq : AlignedPtr (parentPtr k) := Way.aligned hk
  unfold rbUnlink
  rw [wp_bind, wp_getChild ha.ne_zero, hright, wp_bind, wp_getChild ha.ne_zero, hleft, if_neg hzero, if_pos ptrOf_nil, wp_bind,
    wp_getPc ha.ne_zero, hpc, wp_bind, wp_setPc hzero, wp_bind, parentOf_or hq, ← Heap.adopt_of_ne _ hzero,
    wp_rbChangeChild (Above.adopt hk hlk) ha.ne_zero hak, wp_pure]
  refine ⟨rfl, ?_, ?_, ?_⟩
  · rw [ptrOf_paint]
    exact Above.relink (Above.adopt hk hlk) hkOnce
  · exact (hl'.adopted hlOnce).relink (by rwa [inorder_paint])
  · rw [inorder_paint]
    exact nodup_append'.mpr ⟨hlOnce, hkOnce, hlk⟩

/-- The nodes, without `a` and its successor `s`. -/
theorem inorder_perm_successor (c cs : Color) (l y : RbTree Ptr) (a s : Ptr) (j k : Context Ptr) :
    ((RbTree.node c l a (Context.plug j (.node cs .nil s y))).inorder ++ Context.keys k).Perm
      (a :: s :: (l.inorder ++ (y.inorder ++ (Context.keys j ++ Context.keys k)))) := by
  refine perm_iff_count.mpr fun b => ?_
  have hplug := (inorder_plug_perm j (.node cs .nil s y)).count_eq b
  simp only [inorder, nil_append, cons_append, count_cons, count_append] at hplug ⊢
  omega

/-- What `rbReplace` leaves behind, seen from the place where the successor was. -/
theorem Stands.replaced (hk : Above h k s) (ht : At h (parentPtr k) (.node c l s (Context.plug j y)))
    (honce : (s :: (l.inorder ++ (y.inorder ++ (Context.keys j ++ Context.keys k)))).Nodup) :
    Stands h (j ++ ⟨.right, c, s, l⟩ :: k) y := by
  have hperm : ((RbTree.node c l s (Context.plug j y)).inorder ++ Context.keys k).Perm
      (s :: (l.inorder ++ (y.inorder ++ (keys j ++ keys k)))) := by
    refine perm_iff_count.mpr fun b => ?_
    have hplug := (inorder_plug_perm j y).count_eq b
    simp only [inorder, count_cons, count_append] at hplug ⊢
    omega
  have hst : Stands h k (join .right c (Context.plug j y) s l) := ⟨hk, ht, hperm.nodup_iff.mpr honce⟩
  refine Stands.of_plug ?_
  rw [plug_append]
  exact (Stands.down (f := ⟨.right, c, s, l⟩) hst).plug

/-- Before the successor `s` of `a` takes the place of `a`, it hands its right subtree to its parent and takes over the nodes
between the two. -/
theorem wp_rbDetach (hk : Above h k a) (ha : NodePtr a) (hpc : h.pc a = parentPtr k ||| colorBit c)
    (hleft : h.child .left a = ptrOf l) (hl : At h a l) (hlZero : ptrOf l ≠ 0) (hf : f.side = .left)
    (hr : At h a (Context.plug (f :: j) (.node cs .nil s y)))
    (honce : (a :: s :: (l.inorder ++ (y.inorder ++ (Context.keys (f :: j) ++ Context.keys k)))).Nodup) :
    wp (do
      setChild .left f.key (ptrOf y)
      setChild .right s (ptrOf (Context.plug (f :: j) (.node cs .nil s y)))
      rbSetParent (ptrOf (Context.plug (f :: j) (.node cs .nil s y))) s
      rbReplace a s f.key (ptrOf y))
      (fun res h' => res = (if ptrOf y = 0 ∧ cs = .black then f.key else 0) ∧
        Above h' k s ∧ At h' (parentPtr k) (.node c l s (Context.plug (f :: j) (y.paint .black)))) (fun _ => False) h := by
  obtain ⟨hj, hs, hsPc, -, hsRight, -, hy⟩ := at_plug.mp hr
  have hroot := ptrOf_plug_mem f j (.node cs .nil s y)
  have hapart := honce
  simp only [nodup_cons, nodup_append', mem_cons, mem_append, disjoint_append_right, not_or] at hapart
  obtain ⟨⟨has, -, -, haj, -⟩, ⟨hsl, hsy, hsj, hsk⟩, -, ⟨-, ⟨hjOnce, -, hjk⟩, hyj, -⟩, -, hlj, -⟩ := hapart
  generalize htop : ptrOf (plug (f :: j) (.node cs .nil s y)) = top at *
  have hsTop : s ≠ top := fun heq => hsj (heq ▸ hroot)
  have htopZero : top ≠ 0 := (Way.nodePtr hj hroot).ne_zero
  have htopPc : h.pc top = a ||| colorBit (plug (f :: j) (.node cs .nil s y)).color := htop ▸ hr.pc_root (htop ▸ htopZero)
  obtain ⟨h1, hh1⟩ : ∃ h1, h1 = ((h.setChild .left f.key (ptrOf y)).setChild .right s top).adopt top
      (s ||| colorBit (plug (f :: j) (.node cs .nil s y)).color) := ⟨_, rfl⟩
  have hother : ∀ b, b ∉ keys (f :: j) → b ≠ s → h1.pc b = h.pc b ∧ ∀ d, h1.child d b = h.child d b := by
    intro b hb hbs
    have hbf : b ≠ f.key := fun heq => hb (heq ▸ mem_cons_self)
    have hbTop : b ≠ top := fun heq => hb (heq ▸ hroot)
    simp [hh1, pc_adopt, child_setChild, hbf, hbs, hbTop]
  have hframe : ∀ l : List Ptr, l.Disjoint (keys (f :: j)) → s ∉ l → Agree h h1 l :=
    fun l hdisjoint hsl b hb => hother b (hdisjoint hb) fun heq => hsl (heq ▸ hb)
  have hj1 : Way h1 s (f :: j) (ptrOf y) (ptrOf (plug (f :: j) y)) := by
    have hput : Way (h.setChild f.side f.key (ptrOf y)) a (f :: j) (ptrOf y) top := Way.setChild hj hjOnce
    rw [hf] at hput
    rw [ptrOf_plug_cons f j y (.node cs .nil s y)]
    exact hh1 ▸ htop ▸ Way.adopted (Way.frame (htop ▸ hput) (Agree.setChild hsj)) hjOnce
  rw [wp_bind, wp_setChild (Way.nodePtr hj mem_cons_self).ne_zero, wp_bind, wp_setChild hs.ne_zero, wp_bind,
    wp_rbSetParent (((pc_setChild ..).trans (pc_setChild ..)).trans htopPc) ha.aligned htopZero, ← hh1]
  refine wp_rbReplace (q := f.key) (j := f :: j) ?_ ha ?_ ?_ ?_ hlZero hs ?_ ?_ ?_ hj1 (hy.frame (hframe _ hyj hsy)) honce
  · exact frame hk (by simp [hh1]) (hframe _ hjk.symm hsk)
  · exact (hother a haj has).1.trans hpc
  · exact ((hother a haj has).2 _).trans hleft
  · exact hl.frame (hframe _ hlj hsl)
  · simp [hh1, pc_adopt, hsTop, hsPc, upPtr]
  · exact (Way.nodePtr hj mem_cons_self).aligned
  · simp [hh1, child_setChild, ptrOf_plug_cons f j y (.node cs .nil s y), htop]

/-- The node has two children: its successor `s` takes its place. -/
theorem wp_rbUnlink_both (hst : Stands h k (.node c l a r)) (hl : l ≠ .nil) (hr : r ≠ .nil) :
    wp (rbUnlink a) (fun res h' => ∃ j cs s y, r = Context.plug j (.node cs .nil s y) ∧ Context.before j = [] ∧
      res = (if ptrOf y = 0 ∧ cs = .black then parentPtr (j ++ ⟨.right, c, s, l⟩ :: k) else 0) ∧
      Stands h' (j ++ ⟨.right, c, s, l⟩ :: k) (y.paint .black)) (fun _ => False) h := by
  have hlength := hst.length_lt
  obtain ⟨hk, ⟨ha, hpc, hleft, hright, hl', hr'⟩, honce⟩ := hst
  have hlZero : ptrOf l ≠ 0 := fun hzero => hl (hl'.eq_nil hzero)
  have hrZero : ptrOf r ≠ 0 := fun hzero => hr (hr'.eq_nil hzero)
  unfold rbUnlink
  rw [wp_bind, wp_getChild ha.ne_zero, hright, wp_bind, wp_getChild ha.ne_zero, hleft, if_neg hlZero, if_neg hrZero]
  cases r with
  | nil => exact absurd rfl hr
  | node cr lr b rr =>
    obtain ⟨hb, hbPc, hbLeft, hbRight, hlr, hrr⟩ := id hr'
    rw [show ptrOf (node cr lr b rr) = b from rfl, wp_bind, wp_getChild hb.ne_zero, hbLeft]
    by_cases hzero : ptrOf lr = 0
    · obtain rfl := hlr.eq_nil hzero
      have honce' := (inorder_perm_successor c cr l rr a b [] k).nodup_iff.mp honce
      rw [if_pos hzero, wp_bind, wp_getChild hb.ne_zero, hbRight]
      refine wp_imp (wp_rbReplace (j := []) hk ha hpc hleft hl' hlZero hb hbPc ha.aligned hbRight rfl hrr honce') ?_
      rintro res h' ⟨hres, hk', ht'⟩
      refine ⟨[], cr, b, rr, rfl, rfl, hres, Stands.replaced (j := []) hk' ht' ?_⟩
      rw [inorder_paint]
      exact (nodup_cons.mp honce').2
    · have hheight : lr.height < rounds := by
        have hle := height_le_length lr
        simp only [inorder, length_append, length_cons] at hlength
        omega
      rw [if_neg hzero, wp_bind]
      refine wp_imp (wp_rbSuccessor (f := ⟨.left, cr, b, rr⟩) (j := []) hr' (fun hnil => hzero (hnil ▸ rfl)) rfl rfl hheight) ?_
      rintro res h' ⟨rfl, g, i, cs, s, y, hplug, hg, hbefore, rfl⟩
      change plug (g :: i) (.node cs .nil s y) = node cr lr b rr at hplug
      rw [← hplug] at honce hr' ⊢
      have honce' := (inorder_perm_successor c cs l y a s (g :: i) k).nodup_iff.mp honce
      obtain ⟨-, hs, -, -, hsRight, -, -⟩ := at_plug.mp hr'
      have hb : b = ptrOf (plug (g :: i) (.node cs .nil s y)) := hplug ▸ rfl
      rw [wp_bind, wp_getChild hs.ne_zero, hsRight, hb]
      refine wp_imp (wp_rbDetach hk ha hpc hleft hl' hlZero hg hr' honce') ?_
      rintro res h'' ⟨hres, hk', ht'⟩
      refine ⟨g :: i, cs, s, y, rfl, hbefore, hres, Stands.replaced hk' ht' ?_⟩
      rw [inorder_paint]
      exact (nodup_cons.mp honce').2

/-- `__rb_erase` takes out a node of colour `cs` that has at most the child `y`.  It is the node itself or its successor. -/
theorem wp_rbUnlink (hst : Stands h k (.node c l a r)) (ht : (RbTree.node c l a r).Balanced c n) (hk : Context.Fits k c n) :
    wp (rbUnlink a) (fun res h' => ∃ i cs s y m, Stands h' i (y.paint .black) ∧ (RbTree.node cs .nil s y).Balanced cs m ∧
      Context.Fits i cs m ∧ res = (if ptrOf y = 0 ∧ cs = .black then parentPtr i else 0) ∧
      (Context.plug i y).inorder = Context.before k ++ (l.inorder ++ r.inorder) ++ Context.after k) (fun _ => False) h := by
  by_cases hl : l = .nil
  · subst hl
    refine wp_imp (wp_rbUnlink_right hst) ?_
    rintro res h' ⟨hres, hst'⟩
    have hpaint : r.paint c = r.paint .black := by
      cases ht with
      | red hleft hright =>
        cases hleft
        cases hright
        rfl
      | black => rfl
    exact ⟨k, c, a, r, n, hpaint ▸ hst', ht, hk, hres, inorder_plug ..⟩
  by_cases hr : r = .nil
  · subst hr
    refine wp_imp (wp_rbUnlink_left hst hl) ?_
    rintro res h' ⟨hres, hst'⟩
    have hzero : ptrOf l ≠ 0 := fun hzero => hl (hst.tree.2.2.2.2.1.eq_nil hzero)
    cases ht with
    | red hleft hright =>
      cases hright
      cases hleft
      exact absurd rfl hl
    | black hleft hright =>
      refine ⟨k, .black, a, l, _, hst', .black hright hleft, hk, ?_, ?_⟩
      · exact hres.trans (if_neg fun hcase => hzero hcase.1).symm
      · rw [inorder_plug, inorder, append_nil]
  refine wp_imp (wp_rbUnlink_both hst hl hr) ?_
  rintro res h' ⟨j, cs, s, y, rfl, hbefore, hres, hst'⟩
  obtain ⟨m, hwhole⟩ := balanced_plug hk ht
  have hsplit : plug k (.node c l a (plug j (.node cs .nil s y))) =
      plug (j ++ ⟨.right, c, a, l⟩ :: k) (.node cs .nil s y) := (plug_append j (⟨.right, c, a, l⟩ :: k) _).symm
  rw [hsplit] at hwhole
  obtain ⟨c', m', hnode, hfits⟩ := fits_of_plug hwhole
  obtain rfl : cs = c' := hnode.color_eq
  refine ⟨_, cs, s, y, m', hst', hnode, hfits.rekey s, hres, ?_⟩
  have hjoin : plug (j ++ ⟨.right, c, s, l⟩ :: k) y = plug k (.node c l s (plug j y)) :=
    plug_append j (⟨.right, c, s, l⟩ :: k) y
  rw [hjoin, inorder_plug k, inorder, inorder_plug j, inorder_plug j, hbefore]
  rfl

/-- **`_rb_erase` returns, and the tree has lost this node.** -/
theorem wp_rbErase {l₁ l₂ : List Ptr} (hold : HoldsTree h (l₁ ++ a :: l₂)) :
    wp (rbErase a) (fun _ h' => HoldsTree h' (l₁ ++ l₂)) (fun _ => False) h := by
  obtain ⟨t, n, hst, hinorder, ht⟩ := hold
  obtain ⟨k, c, l, r, rfl⟩ := exists_plug (t := t) (a := a) (by simp [hinorder])
  obtain ⟨c', m, hnode, hfits⟩ := fits_of_plug ht
  obtain rfl : c = c' := hnode.color_eq
  -- the two ways to cut the list at `a` are the same
  have hcut : before k ++ (l.inorder ++ r.inorder) ++ after k = l₁ ++ l₂ := by
    have honce := hst.once
    rw [Context.keys, append_nil] at honce
    have hcuts : before k ++ l.inorder ++ a :: (r.inorder ++ after k) = l₁ ++ a :: l₂ := by
      rw [← hinorder, inorder_plug, inorder]
      simp
    rw [hinorder, ← hcuts, nodup_middle, nodup_cons, mem_append, not_or] at honce
    obtain ⟨hl1, -, hl2⟩ := (append_cons_inj_of_notMem honce.1.1 honce.1.2).mp hcuts
    rw [← hl1, ← hl2]
    simp only [append_assoc]
  unfold rbErase
  rw [wp_bind]
  refine wp_imp (wp_rbUnlink hst.of_plug hnode hfits) ?_
  rintro res h' ⟨i, cs, s, y, m', hst', hbal, hfit, hres, hlist⟩
  rw [hcut] at hlist
  have hbefore : (plug i (y.paint .black)).inorder = l₁ ++ l₂ :=
    (inorder_plug_congr i (inorder_paint ..)).trans hlist
  rw [← hbefore]
  cases hbal with
  | red hleft hright =>
    -- no black node is missing
    cases hleft
    cases hright
    rw [if_neg fun hcase => absurd hcase.2 Color.noConfusion] at hres
    obtain ⟨d, b, x, k', cx, rfl, hk', hx⟩ := hfit.exists_black
    rw [hres, if_neg (not_not.mpr rfl)]
    exact hst'.holdsTree (hfit.any_color rfl .black) .nil
  | black hleft hright =>
    cases hleft
    cases hright with
    | nil =>
      rw [if_pos ⟨rfl, rfl⟩] at hres
      cases i with
      | nil =>
        rw [hres, if_neg (not_not.mpr (show parentPtr [] = 0 from rfl))]
        exact hst'.holdsTree .root .nil
      | cons f i =>
        have hne : f.key ≠ 0 := hst'.above.1.ne_zero
        rw [hres, if_pos (show parentPtr (f :: i) ≠ 0 from hne)]
        refine wp_rbEraseFix hst' .nil hfit ?_
        have hlength := hst'.length_lt
        have hkeys := length_le_keys (f :: i)
        rw [length_append, length_cons] at *
        omega
    | red hleft hright =>
      -- the red child becomes black
      rw [hres, if_neg (not_not.mpr (if_neg fun hcase => hst'.tree.1.ne_zero hcase.1))]
      exact hst'.holdsTree hfit (.black hleft hright)

end Unlink

end Armv8Os.Rbtree
