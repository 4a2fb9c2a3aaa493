/-
  `_rb_insert`.

  The loop of `__rb_insert_fix` has a RED tree `t` in a hole where a black one is due (`Context.Fits k .black n`); all else is in
  order.  Each of the three cases is one lemma about the heap, for both sides at once: the uncle is painted and the place of
  work moves up, or one or two rotations end the loop.  `wp_rbInsertFix` puts them together by induction on the rounds.
-/
import Armv8Os.Common.RbtreeHeap

namespace Armv8Os.Rbtree

open RedBlack RedBlack.RbTree Prog List Above Context Heap

/-! ## The cases -/

section Cases

variable {h : Heap} {k : Context Ptr} {d : Side} {t b u x y : RbTree Ptr} {p g n : Ptr}

/-- Case 1: the uncle is red. -/
theorem insertCase_recolor {e : Side} {node : Ptr} (hst : Stands h k (join d .black (join e .red t p b) g u)) (hu : u.color = .red) :
    wp (insertCase d node p g (ptrOf u))
      (fun r h' => r = some (g, parentPtr k) ∧ Stands h' k (join d .red (join e .black t p b) g (u.paint .black)))
      (fun _ => False) h := by
  obtain ⟨hk, htree, honce⟩ := hst
  obtain ⟨hg, hgPc, hgNear, hgFar, hpTree, huTree⟩ := at_join.mp htree
  obtain ⟨hp, hpPc, hpNear, hpFar, htTree, hbTree⟩ := at_join.mp hpTree
  have hsep := honce
  simp only [nodup_append', nodup_join, mem_join, disjoint_join_left, not_or] at hsep
  obtain ⟨⟨⟨⟨hgp, hgt, hgb⟩, hgu⟩, ⟨⟨hpt, hpb⟩, -, -, -⟩, huOnce, hpu, htu, hbu⟩, -, hgk, ⟨hpk, -, -⟩, huk⟩ := hsep
  have huZero : ptrOf u ≠ 0 := by
    intro hzero
    rw [huTree.eq_nil hzero] at hu
    cases hu
  have hgu' := ne_ptrOf hgu hg.ne_zero
  rw [ptrOf_join] at hk hgNear
  unfold insertCase
  rw [wp_bind, wp_nullOrBlack huTree hg.aligned, hu]
  simp only [rbSetParentColor, rbParent, wp_bind, wp_setPc huZero, wp_setPc hp.ne_zero, wp_getPc hg.ne_zero, wp_setPc hg.ne_zero,
    wp_pure, decide_false, Bool.not_false, if_true, reduceCtorEq]
  rw [← adopt_of_ne h huZero]
  have hgPc' : ((h.adopt (ptrOf u) (g ||| colorBit .black)).setPc p (g ||| colorBit .black)).pc g =
      parentPtr k ||| colorBit .black := by
    rw [pc_setPc, if_neg hgp, pc_adopt, if_neg (not_and_of_not_left _ hgu'), hgPc]
  rw [hgPc', parentOf_or (Way.aligned hk)]
  refine ⟨rfl, ?_, at_join.mpr ⟨hg, ?_, ?_, ?_, at_join.mpr ⟨hp, ?_, ?_, ?_, ?_, ?_⟩, ?_⟩, ?_⟩
  · rw [ptrOf_join]
    exact Above.setPc (Above.setPc (Above.adopt hk huk) hpk) hgk
  · rw [pc_setPc, if_pos rfl]
  · simpa using hgNear
  · simpa using hgFar
  · rw [pc_setPc, if_neg (Ne.symm hgp), pc_setPc, if_pos rfl]
  · simpa using hpNear
  · simpa using hpFar
  · exact ((htTree.adopt htu.symm).setPc hpt).setPc hgt
  · exact ((hbTree.adopt hbu.symm).setPc hpb).setPc hgb
  · exact ((huTree.adopted huOnce).setPc (by simpa using hpu)).setPc (by simpa using hgu)
  · rw [inorder_join_congr d .red .black g (inorder_join_congr e .black .red p rfl rfl) (inorder_paint .black u)]
    exact honce

/-- The rotation at the end.  What stood below `p` may have been built anew, and `b` may still have its old parent. -/
theorem wp_insertRotate {c : Color} {q : Ptr} (hk : Above h k g) (hg : NodePtr g) (hgPc : h.pc g = parentPtr k ||| colorBit c)
    (hgFar : h.child d.other g = ptrOf u) (huTree : At h g u) (hp : NodePtr p) (hpNear : h.child d p = ptrOf t) (htTree : At h p t)
    (hbTree : At h q b) (honce : ((join d c t p (join d .red b g u)).inorder ++ Context.keys k).Nodup) :
    wp (insertRotate d g p (ptrOf b)) (fun _ h' => Stands h' k (join d c t p (join d .red (b.paint .black) g u)))
      (fun _ => False) h := by
  have hsep := honce
  simp only [nodup_append', nodup_join, mem_join, disjoint_join_left, disjoint_join_right, not_or] at hsep
  obtain ⟨⟨⟨hpt, hpg, hpb, hpu⟩, -, ⟨⟨hgb, hgu⟩, hbOnce, -, hbu⟩, hgt, htb, htu⟩, hkOnce, hpk, htk, hgk, hbk, huk⟩ := hsep
  have hgb' := ne_ptrOf hgb hg.ne_zero
  have hk' : Above (((h.setChild d g (ptrOf b)).adopt (ptrOf b) (g ||| colorBit .black)).setChild d.other p g) k g :=
    Above.setChild (Above.adopt (Above.setChild hk hgk) hbk) hpk
  have hgPc' : (((h.setChild d g (ptrOf b)).adopt (ptrOf b) (g ||| colorBit .black)).setChild d.other p g).pc g =
      parentPtr k ||| colorBit c := by
    rw [pc_setChild, pc_adopt, if_neg (not_and_of_not_left _ hgb'), pc_setChild, hgPc]
  unfold insertRotate
  simp only [wp_bind, wp_setChild hg.ne_zero, wp_adopt, wp_setChild hp.ne_zero]
  rw [wp_rbRotateSetParents hk' hgk hpk hg.ne_zero hp.ne_zero hgPc']
  refine ⟨?_, at_join.mpr ⟨hp, ?_, ?_, ?_, ?_, at_join.mpr ⟨hg, ?_, ?_, ?_, ?_, ?_⟩⟩, ?_⟩
  · rw [ptrOf_join]
    exact rotate hk' hgk hpk hkOnce
  · rw [pc_rotate, if_neg hpg, if_pos rfl, hgPc']
  · simp [child_rotate _ hpk, child_setChild, hpg, hpNear]
  · simp [child_rotate _ hpk, child_setChild]
  · exact (((htTree.setChild hgt).adopt htb.symm).setChild hpt).rotate hgt hpt htk
  · rw [pc_rotate, if_pos rfl]
  · simp [child_rotate _ hgk, child_setChild, Ne.symm hpg]
  · simp [child_rotate _ hgk, child_setChild, Ne.symm hpg, hgFar]
  · exact (((hbTree.setChild hgb).adopted hbOnce).setChild (by simpa using hpb)).rotate (by simpa using hgb) (by simpa using hpb)
      (by simpa using hbk)
  · exact (((huTree.setChild hgu).adopt hbu).setChild hpu).rotate hgu hpu huk
  · rw [inorder_join_congr d c c p rfl (inorder_join_congr d .red .red g (inorder_paint .black b) rfl)]
    exact honce

/-- Case 3: the node is on the outer side. -/
theorem insertCase_outer (hst : Stands h k (join d .black (join d .red t p b) g u)) (hu : u.color = .black) (ht : ptrOf t ≠ 0) :
    wp (insertCase d (ptrOf t) p g (ptrOf u))
      (fun r h' => r = none ∧ Stands h' k (join d .black t p (join d .red (b.paint .black) g u))) (fun _ => False) h := by
  obtain ⟨hk, htree, honce⟩ := hst
  obtain ⟨hg, hgPc, -, hgFar, hpTree, huTree⟩ := at_join.mp htree
  obtain ⟨hp, -, hpNear, hpFar, htTree, hbTree⟩ := at_join.mp hpTree
  have hne : ptrOf t ≠ ptrOf b := by
    simp only [nodup_append', nodup_join, disjoint_join_left] at honce
    exact ne_ptrOf (honce.1.2.1.2.2.2 (ptrOf_mem ht)) ht
  rw [ptrOf_join] at hk
  rw [inorder_rotate d .black .red .black .red] at honce
  unfold insertCase
  rw [wp_bind, wp_nullOrBlack huTree hg.aligned, hu]
  simp only [wp_bind, wp_getChild hp.ne_zero, hpFar, if_neg hne, wp_pure, decide_true, Bool.not_true, Bool.false_eq_true, if_false]
  refine wp_imp (wp_insertRotate hk hg hgPc hgFar huTree hp hpNear htTree hbTree honce) (fun _ h' hst' => ?_)
  exact ⟨trivial, hst'⟩

/-- Cases 2 and 3: the node is on the inner side. -/
theorem insertCase_inner {c : Color} (hst : Stands h k (join d .black (join d .red b p (join d c x n y)) g u)) (hu : u.color = .black) :
    wp (insertCase d n p g (ptrOf u))
      (fun r h' => r = none ∧
        Stands h' k (join d .black (join d .red b p (x.paint .black)) n (join d .red (y.paint .black) g u))) (fun _ => False) h := by
  obtain ⟨hk, htree, honce⟩ := hst
  obtain ⟨hg, hgPc, -, hgFar, hpTree, huTree⟩ := at_join.mp htree
  obtain ⟨hp, -, hpNear, hpFar, hbTree, hnTree⟩ := at_join.mp hpTree
  obtain ⟨hn, -, hnNear, hnFar, hxTree, hyTree⟩ := at_join.mp hnTree
  have hsep := honce
  simp only [nodup_append', nodup_join, mem_join, disjoint_join_left, disjoint_join_right, not_or] at hsep
  obtain ⟨⟨⟨⟨hgp, hgb, hgn, hgx, hgy⟩, hgu⟩, ⟨⟨hpb, hpn, hpx, hpy⟩, -, ⟨⟨hnx, hny⟩, hxOnce, hyOnce, hxy⟩, hnb, hbx, hby⟩,
    -, hpu, hbu, hnu, hxu, hyu⟩, hkOnce, hgk, ⟨hpk, hbk, hnk, hxk, hyk⟩, huk⟩ := hsep
  rw [ptrOf_join] at hk hpFar
  unfold insertCase
  rw [wp_bind, wp_nullOrBlack huTree hg.aligned, hu]
  simp only [wp_bind, wp_getChild hp.ne_zero, hpFar, if_true, wp_pure, wp_getChild hn.ne_zero, hnNear, wp_adopt,
    wp_setChild hp.ne_zero, wp_setChild hn.ne_zero, rbSetParentColor, wp_setPc hp.ne_zero, decide_true, Bool.not_true,
    Bool.false_eq_true, if_false]
  -- the heap after case 2, where `p` stands below `n`
  obtain ⟨h1, hh1⟩ : ∃ h1, h1 = (((h.setChild d.other p (ptrOf x)).adopt (ptrOf x) (p ||| colorBit .black)).setChild d n p).setPc p
      (n ||| colorBit .red) := ⟨_, rfl⟩
  rw [← hh1]
  have hk1 : Above h1 k g := hh1 ▸ Above.setPc (Above.setChild (Above.adopt (Above.setChild hk hpk) hxk) hnk) hpk
  have hb1 : At h1 p b := hh1 ▸ (((hbTree.setChild hpb).adopt hbx.symm).setChild hnb).setPc hpb
  have hx1 : At h1 p (x.paint .black) := hh1 ▸ (((hxTree.setChild hpx).adopted hxOnce).setChild (by simpa using hnx)).setPc
    (by simpa using hpx)
  have hy1 : At h1 n y := hh1 ▸ (((hyTree.setChild hpy).adopt hxy).setChild hny).setPc hpy
  have hu1 : At h1 g u := hh1 ▸ (((huTree.setChild hpu).adopt hxu).setChild hnu).setPc hpu
  have hp1 : At h1 n (join d .red b p (x.paint .black)) := by
    refine at_join.mpr ⟨hp, ?_, ?_, ?_, hb1, hx1⟩
    · simp [hh1, pc_setPc]
    · simp [hh1, child_setChild, hpn, hpNear]
    · simp [hh1, child_setChild]
  have hgPc1 : h1.pc g = parentPtr k ||| colorBit .black := by
    simp [hh1, pc_setPc, pc_adopt, hgp, ne_ptrOf hgx hg.ne_zero, hgPc]
  have hgFar1 : h1.child d.other g = ptrOf u := by simp [hh1, child_setChild, hgp, hgFar]
  have hnNear1 : h1.child d n = ptrOf (join d .red b p (x.paint .black)) := by simp [hh1, child_setChild]
  have hnFar1 : h1.child d.other n = ptrOf y := by simp [hh1, child_setChild, Ne.symm hpn, hnFar]
  have honce1 : ((join d .black (join d .red b p (x.paint .black)) n (join d .red y g u)).inorder ++ keys k).Nodup := by
    rw [inorder_join_congr d .black .black n (inorder_join_congr d .red .red p rfl (inorder_paint .black x)) rfl,
      ← inorder_rotate_twice d .black .red c]
    exact honce
  rw [hnFar1]
  refine wp_imp (wp_insertRotate hk1 hg hgPc1 hgFar1 hu1 hn hnNear1 hp1 hy1 honce1) (fun _ h' hst' => ?_)
  exact ⟨trivial, hst'⟩

end Cases

/-! ## The loop -/

section Fix

variable {h : Heap} {k : Context Ptr} {d e : Side} {t b u : RbTree Ptr} {p g : Ptr} {m n : Nat}

/-- A round of the loop with a red parent finds the grandparent and the uncle. -/
theorem wp_rbInsertFix_succ {Q : Unit → Heap → Prop} {E : Fault → Prop}
    (hst : Stands h k (join d .black (join e .red t p b) g u)) :
    wp (rbInsertFix (m + 1) (ptrOf t) p) Q E h ↔
      wp (insertCase d (ptrOf t) p g (ptrOf u)) (fun r h' => wp (match r with
        | some (a, q) => rbInsertFix m a q
        | none => return ()) Q E h') E h := by
  obtain ⟨-, htree, honce⟩ := hst
  obtain ⟨hg, -, hgNear, hgFar, hpTree, -⟩ := at_join.mp htree
  obtain ⟨hp, hpPc, -, -, -, -⟩ := at_join.mp hpTree
  simp only [nodup_append', nodup_join, mem_join, disjoint_join_left, not_or] at honce
  obtain ⟨⟨-, -, -, hpu, -⟩, -⟩ := honce
  rw [ptrOf_join] at hgNear
  rw [or_red] at hpPc
  have hred : blackPc g = false := by
    rw [← or_red g, blackPc_or hg.aligned]
    rfl
  rw [rbInsertFix]
  unfold rbIsBlack rbRedParent
  simp only [if_neg hp.ne_zero, wp_bind, wp_getPc hp.ne_zero, wp_pure, hpPc, hred, wp_getChild hg.ne_zero, Bool.false_eq_true, if_false]
  cases d with
  | left =>
    rw [show h.child .right g = ptrOf u from hgFar, if_pos (ne_ptrOf hpu hp.ne_zero)]
    exact wp_bind
  | right =>
    rw [hgNear, if_neg (not_not.mpr rfl), wp_bind, wp_getChild hg.ne_zero, show h.child .left g = ptrOf u from hgFar]
    exact wp_bind

/-- Without a parent, the node becomes the root, wherever the root was before. -/
theorem wp_rbInsertFix_root (htree : At h 0 t) (honce : t.inorder.Nodup) (ht : t.Balanced .red n) :
    wp (rbInsertFix (m + 1) (ptrOf t) 0) (fun _ h' => HoldsTree h' t.inorder) (fun _ => False) h := by
  obtain ⟨x, a, y, rfl, -, -⟩ := ht.of_red .left
  have ha := (at_join.mp htree).1.ne_zero
  have hpaint := htree.adopted (p := 0) (c := .black) honce
  rw [ptrOf_join] at hpaint ⊢
  rw [adopt_of_ne h ha] at hpaint
  rw [rbInsertFix, if_pos rfl]
  unfold rbSetParentColor
  rw [wp_bind, wp_setPc ha, wp_setRoot]
  refine ⟨_, _, ⟨?_, ?_, ?_⟩, inorder_paint .black _, ht.paint_black⟩
  · show a = ptrOf _
    rw [ptrOf_paint, ptrOf_join]
  · exact hpaint.frame fun b _ => ⟨rfl, fun d => child_setRoot ..⟩
  · rw [Context.keys, append_nil, inorder_paint]
    exact honce

/-- **`__rb_insert_fix` repairs the tree.** -/
theorem wp_rbInsertFix (hst : Stands h k t) (ht : t.Balanced .red n) (hk : Context.Fits k .black n) (hm : k.length < m) :
    wp (rbInsertFix m (ptrOf t) (parentPtr k)) (fun _ h' => HoldsTree h' (Context.plug k t).inorder) (fun _ => False) h := by
  induction m generalizing h k t n with
  | zero => exact absurd hm (Nat.not_lt_zero _)
  | succ m ih =>
    cases hk with
    | root =>
      have honce := hst.once
      rw [Context.keys, append_nil] at honce
      exact wp_rbInsertFix_root hst.tree honce ht
    | @black e p s k c _ n hk hs =>
      have hp := hst.above.1
      have hpPc := hst.above.2.1
      have hblack : blackPc (h.pc p) = true := by
        rw [hpPc, blackPc_or (Way.aligned hst.above.2.2.2.2.2)]
        rfl
      unfold rbInsertFix rbIsBlack
      rw [show parentPtr (⟨e, .black, p, s⟩ :: k) = p from rfl, if_neg hp.ne_zero, wp_bind, wp_bind, wp_getPc hp.ne_zero, wp_pure, hblack]
      exact hst.holdsTree (.black hk hs) ht
    | @red e p b k n hred hb =>
      obtain ⟨d, g, u, k', c, rfl, hk', hu⟩ := hred.exists_black
      have hplace : Stands h k' (join d .black (join e .red t p b) g u) := hst.up.up
      show wp (rbInsertFix (m + 1) (ptrOf t) p)
        (fun _ h' => HoldsTree h' (plug k' (join d .black (join e .red t p b) g u)).inorder) _ h
      rw [wp_rbInsertFix_succ hplace]
      cases c with
      | red =>
        refine wp_imp (insertCase_recolor hplace hu.color_eq) ?_
        rintro _ h' ⟨rfl, hst'⟩
        have ht' : (join d .red (join e .black t p b) g (u.paint .black)).Balanced .red (n + 1) :=
          (ht.join_black e hb).join_red d hu.paint_black
        have hnext := ih hst' ht' hk' (by simp only [length_cons] at hm; omega)
        rw [ptrOf_join, inorder_plug_congr k' (inorder_join_congr d .red .black g
          (inorder_join_congr e .black .red p rfl rfl) (inorder_paint .black u))] at hnext
        exact hnext
      | black =>
        rcases Side.eq_or_eq_other d e with heq | heq
        · obtain ⟨x, a, y, rfl, hx, hy⟩ := ht.of_red d
          rw [heq] at hplace ⊢
          have hne : ptrOf (join d .red x a y) ≠ 0 := by
            rw [ptrOf_join]
            exact (at_join.mp hst.tree).1.ne_zero
          refine wp_imp (insertCase_outer hplace hu.color_eq hne) ?_
          rintro _ h' ⟨rfl, hst'⟩
          rw [paint_of_color hb.color_eq] at hst'
          have hholds := hst'.holdsTree hk' (ht.join_black d (hb.join_red d hu))
          rw [inorder_plug_congr k' (inorder_rotate d .black .red .black .red ..).symm] at hholds
          exact hholds
        · obtain ⟨x, a, y, rfl, hx, hy⟩ := ht.of_red d
          rw [heq, join_other] at hplace ⊢
          rw [ptrOf_join]
          refine wp_imp (insertCase_inner hplace hu.color_eq) ?_
          rintro _ h' ⟨rfl, hst'⟩
          rw [paint_of_color hx.color_eq, paint_of_color hy.color_eq] at hst'
          have hholds := hst'.holdsTree hk' ((hb.join_red d hx).join_black d (hy.join_red d hu))
          rw [inorder_plug_congr k' (inorder_rotate_twice d .black .red .red .black .red .red ..).symm] at hholds
          exact hholds

end Fix

/-! ## The search for the place -/

/-- What `cmp` has to be. -/
structure StrictWeakOrder (cmp : Ptr → Ptr → Bool) : Prop where
  irrefl : ∀ a, cmp a a = false
  trans : ∀ a b c, cmp a b → cmp b c → cmp a c
  equiv_trans : ∀ a b c, ¬ cmp a b → ¬ cmp b a → ¬ cmp b c → ¬ cmp c b → ¬ cmp a c ∧ ¬ cmp c a

/-- Neither is smaller. -/
def Equivalent (cmp : Ptr → Ptr → Bool) (a b : Ptr) : Prop := ¬ cmp a b ∧ ¬ cmp b a

abbrev Ascending (cmp : Ptr → Ptr → Bool) (l : List Ptr) : Prop := l.Pairwise fun a b => cmp a b

section Search

variable {cmp : Ptr → Ptr → Bool} {h : Heap} {k : Context Ptr} {t : RbTree Ptr} {a : Ptr} {m : Nat}

/-- The place of `a` is in the hole. -/
structure Between (cmp : Ptr → Ptr → Bool) (a : Ptr) (k : Context Ptr) : Prop where
  before : ∀ b ∈ Context.before k, cmp b a
  after : ∀ b ∈ Context.after k, cmp a b

section

variable {c : Color} {l r : RbTree Ptr} {b : Ptr} (hcmp : StrictWeakOrder cmp) (hk : Between cmp a k)
  (hsorted : Ascending cmp (Context.plug k (.node c l b r)).inorder)
include hcmp hk hsorted

/-- A smaller node goes to the left. -/
theorem Between.left (hab : cmp a b) : Between cmp a (⟨.left, c, b, r⟩ :: k) := by
  refine ⟨hk.before, fun x hx => ?_⟩
  rw [inorder_plug, inorder] at hsorted
  rcases mem_cons.mp hx with rfl | hx
  · exact hab
  · rcases mem_append.mp hx with hx | hx
    · have hbx : cmp b x := (pairwise_cons.mp (pairwise_append.mp (pairwise_append.mp
        (pairwise_append.mp hsorted).1).2.1).2.1).1 x hx
      exact hcmp.trans a b x hab hbx
    · exact hk.after x hx

/-- A larger node goes to the right. -/
theorem Between.right (hba : cmp b a) : Between cmp a (⟨.right, c, b, l⟩ :: k) := by
  refine ⟨fun x hx => ?_, hk.after⟩
  rw [inorder_plug, inorder] at hsorted
  rcases mem_append.mp hx with hx | hx
  · exact hk.before x hx
  · rcases mem_append.mp hx with hx | hx
    · have hxb : cmp x b := (pairwise_append.mp (pairwise_append.mp
        (pairwise_append.mp hsorted).1).2.1).2.2 x hx b mem_cons_self
      exact hcmp.trans x b a hxb hba
    · obtain rfl := mem_singleton.mp hx
      exact hba

end

/-- The new node is linked to the last node on the way. -/
theorem Stands.attach {f : Frame Ptr} (hst : Stands h (f :: k) .nil) (ha : NodePtr a) (hnew : a ∉ Context.keys (f :: k))
    (hchild : ∀ d, h.child d a = 0) : Stands ((h.setChild f.side f.key a).setPc a f.key) (f :: k) (.node .red .nil a .nil) := by
  have hne : a ≠ f.key := fun heq => hnew (heq ▸ mem_cons_self)
  refine ⟨?_, ⟨ha, ?_, ?_, ?_, trivial, trivial⟩, nodup_cons.mpr ⟨hnew, hst.once⟩⟩
  · exact Above.setPc (Above.relink hst.above hst.once) hnew
  · rw [pc_setPc, if_pos rfl]
    exact (or_red _).symm
  · rw [child_setPc, child_setChild, if_neg (not_and_of_not_left _ hne)]
    exact hchild .left
  · rw [child_setPc, child_setChild, if_neg (not_and_of_not_left _ hne)]
    exact hchild .right

/-- The hole of `k` in the tree `t` is the right one for `a`, if the nodes are sorted. -/
def Placed (cmp : Ptr → Ptr → Bool) (a : Ptr) (t : RbTree Ptr) (k : Context Ptr) : Prop :=
  StrictWeakOrder cmp → Ascending cmp t.inorder → Between cmp a k

/-- How the loop of `_rb_insert` ends in the tree `t`: it has met an equivalent node, or there is a hole for `a`. -/
def Attached (cmp : Ptr → Ptr → Bool) (a : Ptr) (t : RbTree Ptr) (h : Heap) (attached : Bool) (h' : Heap) : Prop :=
  (attached = false ∧ h' = h ∧ ∃ b ∈ t.inorder, Equivalent cmp a b) ∨
    (attached = true ∧ ∃ f k, Context.plug (f :: k) .nil = t ∧ Stands h' (f :: k) (.node .red .nil a .nil) ∧ Placed cmp a t (f :: k))

theorem wp_rbAttach (hst : Stands h k t) (hne : t ≠ .nil) (hk : Placed cmp a (Context.plug k t) k) (ha : NodePtr a)
    (hnew : a ∉ t.inorder ++ Context.keys k) (hchild : ∀ d, h.child d a = 0) (hm : t.height < m) :
    wp (rbAttach cmp a m (ptrOf t)) (Attached cmp a (Context.plug k t) h) (fun _ => False) h := by
  induction m generalizing k t with
  | zero => exact absurd hm (Nat.not_lt_zero _)
  | succ m ih =>
    cases t with
    | nil => exact absurd rfl hne
    | node c l b r =>
      have hb := hst.tree.1.ne_zero
      change max l.height r.height + 1 < m + 1 at hm
      obtain ⟨m, rfl⟩ : ∃ m', m = m' + 1 := ⟨m - 1, by omega⟩
      -- one step down, on either side
      have hgo : ∀ d near far, node c l b r = join d c near b far → near.height < m + 1 →
          Placed cmp a (plug k (node c l b r)) (⟨d, c, b, far⟩ :: k) →
          wp (do
            let nw ← getChild d b
            if nw = 0 then
              setChild d b a
              setPc a b
            rbAttach cmp a (m + 1) nw) (Attached cmp a (plug k (node c l b r)) h) (fun _ => False) h := by
        intro d near far heq hheight hplaced
        rw [heq] at hst hnew hplaced ⊢
        obtain ⟨-, -, hnear, -, hnearTree, -⟩ := at_join.mp hst.tree
        have hdown : Stands h (⟨d, c, b, far⟩ :: k) near := Stands.down (f := ⟨d, c, b, far⟩) hst
        have hnew' : a ∉ near.inorder ++ keys (⟨d, c, b, far⟩ :: k) := by
          simp only [mem_append, mem_join, Context.keys, mem_cons] at hnew ⊢
          tauto
        rw [wp_bind, wp_getChild hb, hnear]
        by_cases hzero : ptrOf near = 0
        · obtain rfl := hnearTree.eq_nil hzero
          rw [if_pos hzero, wp_bind, wp_setChild hb, wp_bind, wp_setPc ha.ne_zero, rbAttach, if_pos hzero]
          exact Or.inr ⟨rfl, ⟨d, c, b, far⟩, k, rfl, hdown.attach ha hnew' hchild, hplaced⟩
        · rw [if_neg hzero]
          exact ih hdown (fun hnil => hzero (hnil ▸ rfl)) hplaced hnew' hheight
      rw [show ptrOf (node c l b r) = b from rfl, rbAttach, if_neg hb]
      by_cases hab : cmp a b
      · rw [if_pos hab]
        exact hgo .left l r rfl (by omega) fun hcmp hsorted => (hk hcmp hsorted).left hcmp hsorted hab
      · rw [if_neg hab]
        by_cases hba : cmp b a
        · rw [if_pos hba]
          exact hgo .right r l rfl (by omega) fun hcmp hsorted => (hk hcmp hsorted).right hcmp hsorted hba
        · rw [if_neg hba]
          refine Or.inl ⟨rfl, rfl, b, ?_, hab, hba⟩
          rw [(inorder_plug_perm ..).mem_iff]
          exact mem_append_left _ (mem_append_right _ mem_cons_self)

end Search

/-! ## The whole call -/

/-- What `_rb_insert` does to a tree with the nodes `l`. -/
def Inserted (cmp : Ptr → Ptr → Bool) (a : Ptr) (l : List Ptr) (r : Int) (h' : Heap) : Prop :=
  (r = -1 ∧ HoldsTree h' l ∧ ∃ b ∈ l, Equivalent cmp a b) ∨
    (r = 0 ∧ ∃ l₁ l₂, l = l₁ ++ l₂ ∧ HoldsTree h' (l₁ ++ a :: l₂) ∧
      (StrictWeakOrder cmp → Ascending cmp l → (∀ b ∈ l₁, cmp b a) ∧ ∀ b ∈ l₂, cmp a b))

/-- **`_rb_insert`.** -/
theorem wp_rbInsert {cmp : Ptr → Ptr → Bool} {h : Heap} {l : List Ptr} {a : Ptr}
    (hholds : HoldsTree h l) (ha : NodePtr a) (hnew : a ∉ l) :
    wp (rbInsert cmp a) (Inserted cmp a l) (fun _ => False) h := by
  obtain ⟨t, n, hst, rfl, ht⟩ := hholds
  obtain ⟨h1, hh1⟩ : ∃ h1, h1 = ((h.setChild .right a 0).setChild .left a 0).setPc a 0 := ⟨_, rfl⟩
  have hst1 : Stands h1 [] t := by
    refine ⟨?_, hh1 ▸ ((hst.tree.setChild hnew).setChild hnew).setPc hnew, hst.once⟩
    exact hh1 ▸ Above.setPc (Above.setChild (Above.setChild hst.above not_mem_nil) not_mem_nil) not_mem_nil
  have hchild : ∀ d, h1.child d a = 0 := by
    intro d
    cases d <;> simp [hh1, child_setChild]
  have hpc : h1.pc a = 0 := by simp [hh1, pc_setPc]
  have hroot : h.root = ptrOf t := hst.above
  unfold rbInsert
  simp only [wp_bind, wp_getRoot, wp_setChild ha.ne_zero, wp_setPc ha.ne_zero]
  rw [← hh1, hroot]
  clear hh1
  cases t with
  | nil =>
    have htree : At h1 0 (.node .red .nil a .nil) := ⟨ha, hpc, hchild .left, hchild .right, trivial, trivial⟩
    obtain ⟨m, hm⟩ : ∃ m, rounds = m + 1 := ⟨2 ^ 64 - 1, rfl⟩
    rw [hm, rbAttach, if_pos ptrOf_nil, wp_pure, if_pos rfl]
    unfold rbRedParent
    rw [wp_bind, wp_getPc ha.ne_zero, hpc, wp_bind]
    have hfix := wp_rbInsertFix_root (m := m) htree (nodup_singleton a) (.red .nil .nil)
    refine wp_imp hfix (fun _ h' hholds => ?_)
    exact Or.inr ⟨rfl, [], [], rfl, hholds, fun _ _ => ⟨fun _ hb => absurd hb not_mem_nil, fun _ hb => absurd hb not_mem_nil⟩⟩
  | node c l b r =>
    have hnew' : a ∉ (node c l b r).inorder ++ Context.keys [] := by rwa [Context.keys, append_nil]
    have hplaced : Placed cmp a (plug [] (node c l b r)) [] :=
      fun _ _ => ⟨fun _ hb => absurd hb not_mem_nil, fun _ hb => absurd hb not_mem_nil⟩
    refine wp_imp (wp_rbAttach hst1 (by simp) hplaced ha hnew' hchild hst.height_lt) ?_
    rintro attached h2 (⟨rfl, rfl, hequiv⟩ | ⟨rfl, f, k, hplug, hst2, hplaced⟩)
    · exact Or.inl ⟨rfl, ⟨_, n, hst1, rfl, ht⟩, hequiv⟩
    · have hpc2 : h2.pc a = f.key := hst2.tree.2.1.trans (or_red _)
      obtain ⟨c', m, hnil, hfits⟩ := fits_of_plug (hplug ▸ ht : (plug (f :: k) .nil).Balanced .black n)
      cases hnil with
      | nil =>
        have hlength : (f :: k).length < rounds := by
          have hlength := hst2.length_lt
          rw [length_append] at hlength
          have := length_le_keys (f :: k)
          omega
        rw [if_pos rfl]
        unfold rbRedParent
        rw [wp_bind, wp_getPc ha.ne_zero, hpc2, wp_bind]
        refine wp_imp (wp_rbInsertFix hst2 (.red .nil .nil) hfits hlength) (fun _ h' hholds => ?_)
        rw [inorder_plug] at hholds
        refine Or.inr ⟨rfl, before (f :: k), after (f :: k), ?_, ?_,
          fun hcmp hsorted => ⟨(hplaced hcmp hsorted).before, (hplaced hcmp hsorted).after⟩⟩
        · refine (congrArg inorder hplug).symm.trans ?_
          rw [inorder_plug]
          simp [inorder]
        · simpa [inorder] using hholds

end Armv8Os.Rbtree
