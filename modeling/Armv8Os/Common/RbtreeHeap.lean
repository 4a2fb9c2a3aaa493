/-
  Trees in the heap.

  `At h q t`: the tree `t` stands in the heap `h`, below the node `q`; every node holds the pointers to its children, and to its
  parent together with its colour.  `Above h k p`: so do the nodes around a hole, where `p` is filled in.  `Stands h k t` puts
  both together and says that no node occurs twice, which is why a write to one node leaves the others alone.

  A fix-up works at one place of the tree and moves up.  `Stands.up` is that move, and it changes nothing in the heap.
-/
import Armv8Os.Lib.Words
import Armv8Os.Common.Rbtree

namespace Armv8Os.Rbtree

open RedBlack RedBlack.RbTree Prog List UInt64 Context Heap

/-! ## Words -/

/-- Nodes are aligned like `long`. -/
def AlignedPtr (p : Ptr) : Prop := p.toNat % 8 = 0

/-- The address of a node. -/
structure NodePtr (p : Ptr) : Prop where
  ne_zero : p ≠ 0
  aligned : AlignedPtr p

theorem aligned_zero : AlignedPtr 0 := rfl

section Words

variable {p : Ptr}

theorem AlignedPtr.and_three (h : AlignedPtr p) : p &&& 3 = 0 := by
  apply UInt64.toNat_inj.mp
  rw [UInt64.toNat_and]
  show p.toNat &&& (2 ^ 2 - 1) = 0
  rw [Nat.and_two_pow_sub_one_eq_mod]
  unfold AlignedPtr at h
  omega

theorem AlignedPtr.and_one (h : AlignedPtr p) : p &&& 1 = 0 := by
  rw [show (1 : UInt64) = 3 &&& 1 from rfl, ← UInt64.and_assoc, h.and_three, UInt64.zero_and]

theorem AlignedPtr.and_not_three (h : AlignedPtr p) : p &&& ~~~3 = p := by
  calc p &&& ~~~3 = (3 &&& p) ||| (~~~3 &&& p) := by rw [UInt64.and_comm 3, h.and_three, UInt64.zero_or, UInt64.and_comm]
    _ = (3 ||| ~~~3) &&& p := (Words.or_and ..).symm
    _ = p := by rw [show (3 ||| ~~~3 : UInt64) = -1 from rfl, neg_one_and]

/-- The parent in the word of a node. -/
@[simp] theorem parentOf_or (h : AlignedPtr p) (c : Color) : parentOf (p ||| colorBit c) = p := by
  unfold parentOf
  rw [Words.or_and, h.and_not_three]
  cases c with
  | red => exact UInt64.or_zero
  | black => exact UInt64.or_zero

/-- The colour in the word of a node. -/
theorem and_one_or (h : AlignedPtr p) (c : Color) : (p ||| colorBit c) &&& 1 = colorBit c := by
  rw [Words.or_and, h.and_one, UInt64.zero_or]
  cases c <;> rfl

@[simp] theorem blackPc_or (h : AlignedPtr p) (c : Color) : blackPc (p ||| colorBit c) = decide (c = .black) := by
  unfold blackPc
  rw [and_one_or h]
  cases c <;> rfl

@[simp] theorem or_red (p : Ptr) : p ||| colorBit .red = p := UInt64.or_zero

/-- `rb_set_black` paints any node black. -/
theorem or_black (p : Ptr) (c : Color) : (p ||| colorBit c) ||| colorBit .black = p ||| colorBit .black := by
  rw [UInt64.or_assoc]
  cases c <;> rfl

end Words

/-! ## Reading and writing -/

namespace Heap

variable (h : Heap) (d e : Side) (a b p : Ptr) (w : UInt64)

@[simp, grind =] theorem root_setChild : (h.setChild d a p).root = h.root := by cases d <;> rfl

@[grind =] theorem pc_setPc : (h.setPc a w).pc b = if b = a then w else h.pc b := by
  unfold pc setPc
  dsimp only
  rw [Function.update_apply]
  split <;> rfl

@[simp, grind =] theorem child_setPc : (h.setPc a w).child d b = h.child d b := by
  unfold setPc
  by_cases hb : b = a
  · subst hb
    cases d <;> simp [child]
  · cases d <;> simp [child, hb]

@[simp, grind =] theorem pc_setChild : (h.setChild d a p).pc b = h.pc b := by
  by_cases hb : b = a
  · subst hb
    cases d <;> simp [pc, setChild]
  · cases d <;> simp [pc, setChild, hb]

@[grind =] theorem child_setChild : (h.setChild d a p).child e b = if b = a ∧ e = d then p else h.child e b := by
  by_cases hb : b = a
  · subst hb
    cases d <;> cases e <;> simp [child, setChild]
  · cases d <;> cases e <;> simp [child, setChild, hb]

/-- The heap with another root. -/
@[simp, grind =] theorem pc_setRoot : { h with root := p }.pc b = h.pc b := rfl

@[simp, grind =] theorem child_setRoot : { h with root := p }.child d b = h.child d b := by cases d <;> rfl

end Heap

variable {Q : Unit → Heap → Prop}

section Access

variable {h : Heap} {d : Side} {a p : Ptr} {w : UInt64} {E : Fault → Prop}

@[simp] theorem wp_check (ha : a ≠ 0) : wp (check a) Q E h ↔ Q () h := by
  unfold check
  rw [wp_assert, bne_iff_ne, bne_eq_false_iff_eq]
  exact ⟨fun hq => hq.1 ha, fun hq => ⟨fun _ => hq, fun hzero => absurd hzero ha⟩⟩

@[simp] theorem wp_getPc {Q : UInt64 → Heap → Prop} (ha : a ≠ 0) : wp (getPc a) Q E h ↔ Q (h.pc a) h := by
  unfold getPc
  rw [wp_bind, wp_check ha]
  rfl

@[simp] theorem wp_setPc (ha : a ≠ 0) : wp (setPc a w) Q E h ↔ Q () (h.setPc a w) := by
  unfold setPc
  rw [wp_bind, wp_check ha]
  rfl

@[simp] theorem wp_getChild {Q : Ptr → Heap → Prop} (ha : a ≠ 0) : wp (getChild d a) Q E h ↔ Q (h.child d a) h := by
  unfold getChild
  rw [wp_bind, wp_check ha]
  rfl

@[simp] theorem wp_setChild (ha : a ≠ 0) :
    wp (setChild d a p) Q E h ↔ Q () (h.setChild d a p) := by
  unfold setChild
  rw [wp_bind, wp_check ha]
  rfl

@[simp] theorem wp_getRoot {Q : Ptr → Heap → Prop} : wp getRoot Q E h ↔ Q h.root h := Iff.rfl

@[simp] theorem wp_setRoot : wp (setRoot p) Q E h ↔ Q () { h with root := p } := Iff.rfl

end Access

/-! ## Trees -/

def ptrOf : RbTree Ptr → Ptr
  | .nil => 0
  | .node _ _ a _ => a

/-- The node above a hole, if `q` is the one above it all. -/
def upPtr (q : Ptr) : Context Ptr → Ptr
  | [] => q
  | f :: _ => f.key

abbrev parentPtr (k : Context Ptr) : Ptr := upPtr 0 k

/-- The tree stands below the node `q`. -/
def At (h : Heap) : Ptr → RbTree Ptr → Prop
  | _, .nil => True
  | q, .node c l a r =>
    NodePtr a ∧ h.pc a = q ||| colorBit c ∧ h.child .left a = ptrOf l ∧ h.child .right a = ptrOf r ∧ At h a l ∧ At h a r

/-- The nodes around a hole where `p` stands, below the node `q`; the uppermost of them is `top`. -/
def Way (h : Heap) (q : Ptr) : Context Ptr → Ptr → Ptr → Prop
  | [], p, top => top = p
  | f :: k, p, top =>
    NodePtr f.key ∧ h.pc f.key = upPtr q k ||| colorBit f.color ∧ h.child f.side f.key = p ∧
      h.child f.side.other f.key = ptrOf f.sibling ∧ At h f.key f.sibling ∧ Way h q k f.key top

/-- The whole way up to the root. -/
abbrev Above (h : Heap) (k : Context Ptr) (p : Ptr) : Prop := Way h 0 k p h.root

/-- The tree `t` in the hole of `k`. -/
structure Stands (h : Heap) (k : Context Ptr) (t : RbTree Ptr) : Prop where
  above : Above h k (ptrOf t)
  tree : At h (parentPtr k) t
  once : (t.inorder ++ Context.keys k).Nodup

variable {l : List Ptr}

section Trees

variable {h h' : Heap} {d : Side} {c : Color} {q a p top : Ptr} {x y t : RbTree Ptr} {k : Context Ptr}

@[simp, grind =] theorem ptrOf_nil : ptrOf .nil = 0 := rfl

@[simp, grind =] theorem ptrOf_join (d : Side) (c : Color) (x : RbTree Ptr) (a : Ptr) (y : RbTree Ptr) :
    ptrOf (join d c x a y) = a := by
  cases d <;> rfl

@[simp, grind =] theorem ptrOf_paint (c : Color) (t : RbTree Ptr) : ptrOf (t.paint c) = ptrOf t := by cases t <;> rfl

theorem at_join : At h q (join d c x a y) ↔
    NodePtr a ∧ h.pc a = q ||| colorBit c ∧ h.child d a = ptrOf x ∧ h.child d.other a = ptrOf y ∧ At h a x ∧ At h a y := by
  cases d with
  | left => exact Iff.rfl
  | right =>
    show _ ∧ _ ∧ _ ∧ _ ∧ _ ∧ _ ↔ _
    rw [and_left_comm (a := h.child .left a = ptrOf y), and_comm (a := At h a y)]
    rfl

theorem At.nodePtr (ht : At h q t) (ha : a ∈ t.inorder) : NodePtr a := by
  induction t generalizing q with
  | nil => cases ha
  | node c l b r ihl ihr =>
    obtain ⟨hb, -, -, -, hl, hr⟩ := ht
    rcases mem_append.mp ha with ha | ha
    · exact ihl hl ha
    · rcases mem_cons.mp ha with rfl | ha
      · exact hb
      · exact ihr hr ha

theorem ptrOf_mem (ht : ptrOf t ≠ 0) : ptrOf t ∈ t.inorder := by
  cases t with
  | nil => exact absurd rfl ht
  | node c l a r => exact mem_append_right _ mem_cons_self

theorem At.eq_nil (ht : At h q t) (hzero : ptrOf t = 0) : t = .nil := by
  cases t with
  | nil => rfl
  | node c l a r => exact absurd hzero ht.1.ne_zero

theorem At.pc_root (ht : At h q t) (hne : ptrOf t ≠ 0) : h.pc (ptrOf t) = q ||| colorBit t.color := by
  cases t with
  | nil => exact absurd rfl hne
  | node c l a r => exact ht.2.1

/-- Two heaps have the same nodes at the addresses `l`. -/
def Agree (h h' : Heap) (l : List Ptr) : Prop := ∀ b ∈ l, h'.pc b = h.pc b ∧ ∀ d, h'.child d b = h.child d b

theorem Agree.mono {l' : List Ptr} (hl : Agree h h' l) (hsub : ∀ b ∈ l', b ∈ l) : Agree h h' l' := fun b hb => hl b (hsub b hb)

/-- What is written elsewhere leaves a tree alone. -/
theorem At.frame (ht : At h q t) (hsame : Agree h h' t.inorder) : At h' q t := by
  induction t generalizing q with
  | nil => trivial
  | node c l a r ihl ihr =>
    obtain ⟨ha, hpc, hleft, hright, hl, hr⟩ := ht
    obtain ⟨hsamePc, hsameChild⟩ := hsame a (mem_append_right _ mem_cons_self)
    refine ⟨ha, hsamePc.trans hpc, (hsameChild .left).trans hleft, (hsameChild .right).trans hright, ?_, ?_⟩
    · exact ihl hl (hsame.mono fun b hb => mem_append_left _ hb)
    · exact ihr hr (hsame.mono fun b hb => mem_append_right _ (mem_cons_of_mem _ hb))

/-- A tree below another parent, with another colour at its root. -/
theorem At.move (ht : At h q t) (honce : t.inorder.Nodup) (hroot : ptrOf t ≠ 0 → h'.pc (ptrOf t) = p ||| colorBit c)
    (hpc : ∀ b ∈ t.inorder, b ≠ ptrOf t → h'.pc b = h.pc b) (hchild : ∀ b ∈ t.inorder, ∀ d, h'.child d b = h.child d b) :
    At h' p (t.paint c) := by
  cases t with
  | nil => trivial
  | node c' l a r =>
    obtain ⟨ha, -, hleft, hright, hl, hr⟩ := ht
    rw [inorder, nodup_append, nodup_cons] at honce
    obtain ⟨-, ⟨hnotR, -⟩, hapart⟩ := honce
    have hmem : a ∈ (node c' l a r).inorder := mem_append_right _ mem_cons_self
    refine ⟨ha, hroot ha.ne_zero, (hchild a hmem .left).trans hleft, (hchild a hmem .right).trans hright, hl.frame ?_, hr.frame ?_⟩
    · intro b hb
      have hb' : b ∈ (node c' l a r).inorder := mem_append_left _ hb
      exact ⟨hpc b hb' (hapart b hb a mem_cons_self), hchild b hb'⟩
    · intro b hb
      have hb' : b ∈ (node c' l a r).inorder := mem_append_right _ (mem_cons_of_mem _ hb)
      have hne : b ≠ a := fun heq => hnotR (heq ▸ hb)
      exact ⟨hpc b hb' hne, hchild b hb'⟩

theorem Way.nodePtr (hk : Way h q k p top) (ha : a ∈ Context.keys k) : NodePtr a := by
  induction k generalizing p with
  | nil => cases ha
  | cons f k ih =>
    obtain ⟨hf, -, -, -, hs, hk⟩ := hk
    rcases mem_cons.mp ha with rfl | ha
    · exact hf
    · exact (mem_append.mp ha).elim hs.nodePtr (ih hk)

theorem Way.frame (hk : Way h q k p top) (hsame : Agree h h' (Context.keys k)) : Way h' q k p top := by
  induction k generalizing p with
  | nil => exact hk
  | cons f k ih =>
    obtain ⟨hf, hpc, hp, hother, hs, hk⟩ := hk
    obtain ⟨hsamePc, hsameChild⟩ := hsame f.key mem_cons_self
    refine ⟨hf, hsamePc.trans hpc, (hsameChild _).trans hp, (hsameChild _).trans hother, ?_, ?_⟩
    · exact hs.frame (hsame.mono fun b hb => mem_cons_of_mem _ (mem_append_left _ hb))
    · exact ih hk (hsame.mono fun b hb => mem_cons_of_mem _ (mem_append_right _ hb))

theorem Above.frame (hk : Above h k p) (hroot : h'.root = h.root) (hsame : Agree h h' (Context.keys k)) : Above h' k p := by
  unfold Above
  rw [hroot]
  exact Way.frame hk hsame

theorem Way.aligned (hk : Way h 0 k p top) : AlignedPtr (parentPtr k) := by
  cases k with
  | nil => exact aligned_zero
  | cons f k => exact hk.1.aligned

/-- Another pointer is put into the hole. -/
theorem Way.setChild {f : Frame Ptr} {p' : Ptr} (hk : Way h q (f :: k) p top) (honce : (Context.keys (f :: k)).Nodup) :
    Way (h.setChild f.side f.key p') q (f :: k) p' top := by
  obtain ⟨hf, hpc, hp, hother, hs, hk⟩ := hk
  obtain ⟨hnot, honce⟩ := nodup_cons.mp honce
  have hsame : Agree h (h.setChild f.side f.key p') (f.sibling.inorder ++ Context.keys k) := by
    intro b hb
    have hne : b ≠ f.key := fun heq => hnot (heq ▸ hb)
    exact ⟨Heap.pc_setChild .., fun d => (Heap.child_setChild ..).trans (if_neg fun hcase => hne hcase.1)⟩
  refine ⟨hf, (Heap.pc_setChild ..).trans hpc, ?_, ?_, ?_, ?_⟩
  · exact (Heap.child_setChild ..).trans (if_pos ⟨rfl, rfl⟩)
  · exact ((Heap.child_setChild ..).trans (if_neg fun hcase => f.side.other_ne hcase.2)).trans hother
  · exact hs.frame (hsame.mono fun b hb => mem_append_left _ hb)
  · exact hk.frame (hsame.mono fun b hb => mem_append_right _ hb)

/-- A tree, cut at any place. -/
theorem at_plug : At h q (Context.plug k t) ↔ Way h q k (ptrOf t) (ptrOf (Context.plug k t)) ∧ At h (upPtr q k) t := by
  induction k generalizing t with
  | nil => exact (and_iff_right rfl).symm
  | cons f k ih =>
    rw [Context.plug, ih, at_join, ptrOf_join]
    constructor
    · rintro ⟨hk, hf, hpc, hp, hother, ht, hs⟩
      exact ⟨⟨hf, hpc, hp, hother, hs, hk⟩, ht⟩
    · rintro ⟨⟨hf, hpc, hp, hother, hs, hk⟩, ht⟩
      exact ⟨hk, hf, hpc, hp, hother, ht, hs⟩

end Trees

/-! ## The calls -/

section Calls

variable {h h' : Heap} {d : Side} {c : Color} {q a p : Ptr} {t : RbTree Ptr} {k : Context Ptr} {E : Fault → Prop}

theorem wp_nullOrBlack {Q : Bool → Heap → Prop} (ht : At h q t) (hq : AlignedPtr q) :
    wp (nullOrBlack (ptrOf t)) Q E h ↔ Q (decide (t.color = .black)) h := by
  unfold nullOrBlack
  by_cases hne : ptrOf t = 0
  · rw [if_pos hne, ht.eq_nil hne]
    exact Iff.rfl
  · rw [if_neg hne]
    unfold rbIsBlack
    rw [wp_bind, wp_getPc hne, wp_pure, ht.pc_root hne, blackPc_or hq]

/-- The heap after `adopt`. -/
def Heap.adopt (h : Heap) (p : Ptr) (w : UInt64) : Heap := if p = 0 then h else h.setPc p w

theorem Heap.adopt_of_ne (h : Heap) {p : Ptr} (hp : p ≠ 0) (w : UInt64) : h.adopt p w = h.setPc p w := if_neg hp

@[grind =] theorem Heap.pc_adopt (h : Heap) (p b : Ptr) (w : UInt64) :
    (h.adopt p w).pc b = if b = p ∧ p ≠ 0 then w else h.pc b := by
  unfold adopt
  by_cases hp : p = 0
  · rw [if_pos hp, if_neg fun hcase => hcase.2 hp]
  · rw [if_neg hp, pc_setPc]
    simp [hp]

@[simp, grind =] theorem Heap.child_adopt (h : Heap) (p b : Ptr) (w : UInt64) : (h.adopt p w).child d b = h.child d b := by
  unfold Heap.adopt
  split
  · rfl
  · exact Heap.child_setPc ..

@[simp, grind =] theorem Heap.root_adopt (h : Heap) (p : Ptr) (w : UInt64) : (h.adopt p w).root = h.root := by
  unfold adopt
  split <;> rfl

theorem wp_adopt : wp (adopt a p c) Q E h ↔ Q () (h.adopt a (p ||| colorBit c)) := by
  unfold Rbtree.adopt Heap.adopt rbSetParentColor
  by_cases ha : a = 0
  · rw [if_neg (not_not.mpr ha), if_pos ha, wp_pure]
  · rw [if_pos ha, if_neg ha, wp_setPc ha]

/-- The heap where `p` stands in the hole. -/
def Heap.relink (h : Heap) (k : Context Ptr) (p : Ptr) : Heap :=
  match k with
  | [] => { h with root := p }
  | f :: _ => h.setChild f.side f.key p

@[simp, grind =] theorem Heap.pc_relink (h : Heap) (k : Context Ptr) (p b : Ptr) : (h.relink k p).pc b = h.pc b := by
  cases k with
  | nil => rfl
  | cons f k => exact Heap.pc_setChild ..

@[grind =] theorem Heap.child_relink (h : Heap) {p b : Ptr} (hb : b ∉ Context.keys k) :
    (h.relink k p).child d b = h.child d b := by
  cases k with
  | nil => exact Heap.child_setRoot ..
  | cons f k =>
    have hne : b ≠ f.key := fun heq => hb (heq ▸ mem_cons_self)
    exact (Heap.child_setChild ..).trans (if_neg fun hcase => hne hcase.1)

theorem Above.relink {p' : Ptr} (hk : Above h k p) (honce : (Context.keys k).Nodup) : Above (h.relink k p') k p' := by
  cases k with
  | nil => rfl
  | cons f k =>
    unfold Above relink
    rw [root_setChild]
    exact Way.setChild hk honce

/-- `__rb_change_child` fills the hole. -/
theorem wp_rbChangeChild {old new : Ptr} (hk : Above h k old) (hold : old ≠ 0)
    (hnot : old ∉ Context.keys k) : wp (rbChangeChild old new (parentPtr k)) Q E h ↔ Q () (h.relink k new) := by
  unfold rbChangeChild
  cases k with
  | nil => exact Iff.rfl
  | cons f k =>
    obtain ⟨hf, -, hp, hother, hs, -⟩ := hk
    rw [show parentPtr (f :: k) = f.key from rfl, if_pos hf.ne_zero, wp_bind, wp_getChild hf.ne_zero]
    obtain ⟨d, c, a, s⟩ := f
    cases d with
    | left =>
      rw [if_pos hp, wp_setChild hf.ne_zero]
      rfl
    | right =>
      have hne : ¬ h.child .left a = old := by
        intro heq
        have hptr : ptrOf s = old := hother.symm.trans heq
        exact hnot (mem_cons_of_mem _ (mem_append_left _ (hptr ▸ ptrOf_mem (hptr ▸ hold))))
      rw [if_neg hne, wp_setChild hf.ne_zero]
      rfl

/-- The heap after `__rb_rotate_set_parents`. -/
def Heap.rotate (h : Heap) (k : Context Ptr) (old new : Ptr) (c : Color) : Heap :=
  ((h.setPc new (h.pc old)).setPc old (new ||| colorBit c)).relink k new

@[grind =] theorem Heap.pc_rotate (h : Heap) (k : Context Ptr) (old new b : Ptr) (c : Color) :
    (h.rotate k old new c).pc b = if b = old then new ||| colorBit c else if b = new then h.pc old else h.pc b := by
  unfold rotate
  rw [pc_relink, pc_setPc, pc_setPc]

@[grind =] theorem Heap.child_rotate (h : Heap) {old new b : Ptr} (hb : b ∉ Context.keys k) :
    (h.rotate k old new c).child d b = h.child d b := by
  unfold rotate
  rw [child_relink _ hb, child_setPc, child_setPc]

section Rotate

variable {old new : Ptr} (hk : Above h k old) (hnot : old ∉ Context.keys k) (hnot' : new ∉ Context.keys k)

include hk hnot hnot'

theorem Above.setParents (w w' : UInt64) : Above ((h.setPc new w).setPc old w') k old := by
  refine Above.frame hk rfl fun b hb => ?_
  have hne : b ≠ old := fun heq => hnot (heq ▸ hb)
  have hne' : b ≠ new := fun heq => hnot' (heq ▸ hb)
  refine ⟨?_, fun d => ?_⟩
  · rw [pc_setPc, if_neg hne, pc_setPc, if_neg hne']
  · rw [child_setPc, child_setPc]

theorem wp_rbRotateSetParents {c' : Color} (hold : old ≠ 0) (hnew : new ≠ 0)
    (hpc : h.pc old = parentPtr k ||| colorBit c') : wp (rbRotateSetParents old new c) Q E h ↔ Q () (h.rotate k old new c) := by
  unfold rbRotateSetParents rbParent rbSetParentColor
  simp only [wp_bind, wp_getPc hold, wp_setPc hold, wp_setPc hnew, wp_pure]
  rw [hpc, parentOf_or (Way.aligned hk), ← hpc, wp_rbChangeChild (Above.setParents hk hnot hnot' _ _) hold hnot]
  rfl

theorem Above.rotate (honce : (Context.keys k).Nodup) : Above (h.rotate k old new c) k new :=
  Above.relink (Above.setParents hk hnot hnot' _ _) honce

end Rotate

end Calls

/-! ## What a write leaves alone -/

section Writes

variable {h : Heap} {d : Side} {c : Color} {q a b p top old new : Ptr} {w : UInt64} {t x : RbTree Ptr} {k j : Context Ptr}

theorem Agree.setPc (ha : a ∉ l) : Agree h (h.setPc a w) l := fun _ hb =>
  ⟨(pc_setPc ..).trans (if_neg (ne_of_mem_of_not_mem hb ha)), fun _ => child_setPc ..⟩

theorem Agree.setChild (ha : a ∉ l) : Agree h (h.setChild d a p) l := fun _ hb =>
  ⟨pc_setChild .., fun _ => (child_setChild ..).trans (if_neg (not_and_of_not_left _ (ne_of_mem_of_not_mem hb ha)))⟩

theorem Agree.adopt_of (ha : a ≠ 0 → a ∉ l) : Agree h (h.adopt a w) l := by
  unfold Heap.adopt
  split
  · exact fun b hb => ⟨rfl, fun _ => rfl⟩
  next hne => exact Agree.setPc (ha hne)

theorem Agree.adopt (hx : x.inorder.Disjoint l) : Agree h (h.adopt (ptrOf x) w) l :=
  Agree.adopt_of fun hne => hx (ptrOf_mem hne)

theorem Agree.rotate (hold : old ∉ l) (hnew : new ∉ l) (hk : l.Disjoint (Context.keys k)) :
    Agree h (h.rotate k old new c) l := by
  intro b hb
  refine ⟨?_, fun d => child_rotate _ (hk hb)⟩
  rw [pc_rotate, if_neg (ne_of_mem_of_not_mem hb hold), if_neg (ne_of_mem_of_not_mem hb hnew)]

theorem Agree.relink (hk : l.Disjoint (Context.keys k)) : Agree h (h.relink k p) l := fun _ hb =>
  ⟨pc_relink .., fun _ => child_relink _ (hk hb)⟩

section

variable (ht : At h q t)
include ht

theorem At.setPc (ha : a ∉ t.inorder) : At (h.setPc a w) q t := ht.frame (Agree.setPc ha)

theorem At.setChild (ha : a ∉ t.inorder) : At (h.setChild d a p) q t := ht.frame (Agree.setChild ha)

theorem At.adopt (hx : x.inorder.Disjoint t.inorder) : At (h.adopt (ptrOf x) w) q t :=
  ht.frame (Agree.adopt hx)

theorem At.rotate (hold : old ∉ t.inorder) (hnew : new ∉ t.inorder)
    (hk : t.inorder.Disjoint (Context.keys k)) : At (h.rotate k old new c) q t := ht.frame (Agree.rotate hold hnew hk)

theorem At.relink (hk : t.inorder.Disjoint (Context.keys k)) : At (h.relink k p) q t := ht.frame (Agree.relink hk)

/-- The tree that is adopted. -/
theorem At.adopted (honce : t.inorder.Nodup) : At (h.adopt (ptrOf t) (p ||| colorBit c)) p (t.paint c) := by
  refine ht.move honce (fun hne => ?_) (fun b _ hb => ?_) fun b _ d => child_adopt ..
  · rw [pc_adopt, if_pos ⟨rfl, hne⟩]
  · rw [pc_adopt, if_neg fun hcase => hb hcase.1]

end

theorem Above.setPc (hk : Above h k p) (ha : a ∉ Context.keys k) : Above (h.setPc a w) k p :=
  Above.frame hk rfl (Agree.setPc ha)

theorem Above.setChild (hk : Above h k p) (ha : a ∉ Context.keys k) : Above (h.setChild d a b) k p :=
  Above.frame hk (root_setChild ..) (Agree.setChild ha)

theorem Above.adopt (hk : Above h k p) (hx : x.inorder.Disjoint (Context.keys k)) : Above (h.adopt (ptrOf x) w) k p :=
  Above.frame hk (root_adopt ..) (Agree.adopt hx)

end Writes

/-! ## Nodes occur once -/

section Once

variable {d : Side} {c : Color} {x y : RbTree Ptr} {a b : Ptr} {l : List Ptr}

theorem ne_ptrOf (ha : a ∉ x.inorder) (hzero : a ≠ 0) : a ≠ ptrOf x := by
  rintro rfl
  exact ha (ptrOf_mem hzero)

theorem mem_join : b ∈ (join d c x a y).inorder ↔ b = a ∨ b ∈ x.inorder ∨ b ∈ y.inorder := by
  rw [(inorder_join_perm ..).mem_iff, mem_cons, mem_append]

theorem nodup_join : (join d c x a y).inorder.Nodup ↔
    (a ∉ x.inorder ∧ a ∉ y.inorder) ∧ x.inorder.Nodup ∧ y.inorder.Nodup ∧ x.inorder.Disjoint y.inorder := by
  rw [(inorder_join_perm ..).nodup_iff, nodup_cons, mem_append, not_or, nodup_append']

theorem disjoint_join_left : (join d c x a y).inorder.Disjoint l ↔ a ∉ l ∧ x.inorder.Disjoint l ∧ y.inorder.Disjoint l := by
  rw [(inorder_join_perm ..).disjoint_left, disjoint_cons_left, disjoint_append_left]

theorem disjoint_join_right : l.Disjoint (join d c x a y).inorder ↔ a ∉ l ∧ l.Disjoint x.inorder ∧ l.Disjoint y.inorder := by
  rw [(inorder_join_perm ..).disjoint_right, disjoint_cons_right, disjoint_append_right]

variable {k : Context Ptr} {t : RbTree Ptr}

theorem mem_plug : b ∈ (Context.plug k t).inorder ↔ b ∈ t.inorder ∨ b ∈ Context.keys k := by
  rw [(inorder_plug_perm k t).mem_iff, mem_append]

end Once

/-! ## The place of work -/

section Place

variable {h h' : Heap} {t : RbTree Ptr} {k : Context Ptr}

theorem Stands.up {f : Frame Ptr} (hst : Stands h (f :: k) t) : Stands h k (join f.side f.color t f.key f.sibling) := by
  obtain ⟨⟨hf, hpc, hp, hother, hs, hk⟩, ht, honce⟩ := hst
  refine ⟨?_, at_join.mpr ⟨hf, hpc, hp, hother, ht, hs⟩, ?_⟩
  · rw [ptrOf_join]
    exact hk
  · refine (List.Perm.nodup_iff ?_).mp honce
    refine List.Perm.trans ?_ ((inorder_join_perm ..).symm.append_right _)
    rw [Context.keys, cons_append, append_assoc]
    exact perm_middle

theorem Stands.down {f : Frame Ptr} (hst : Stands h k (join f.side f.color t f.key f.sibling)) : Stands h (f :: k) t := by
  obtain ⟨hk, hjoin, honce⟩ := hst
  obtain ⟨hf, hpc, hp, hother, ht, hs⟩ := at_join.mp hjoin
  rw [ptrOf_join] at hk
  refine ⟨⟨hf, hpc, hp, hother, hs, hk⟩, ht, ?_⟩
  refine (List.Perm.nodup_iff ?_).mpr honce
  refine List.Perm.trans ?_ ((inorder_join_perm ..).symm.append_right _)
  rw [Context.keys, cons_append, append_assoc]
  exact perm_middle

theorem Stands.plug (hst : Stands h k t) : Stands h [] (Context.plug k t) := by
  induction k generalizing t with
  | nil => exact hst
  | cons f k ih => exact ih hst.up

theorem Stands.of_plug (hst : Stands h [] (Context.plug k t)) : Stands h k t := by
  obtain ⟨hroot, htree, honce⟩ := hst
  obtain ⟨hk, ht⟩ := at_plug.mp htree
  refine ⟨?_, ht, ?_⟩
  · unfold Above
    rw [hroot]
    exact hk
  · rw [Context.keys, append_nil] at honce
    exact (inorder_plug_perm k t).nodup_iff.mp honce

section

variable (hst : Stands h k t)
include hst

theorem Stands.nodePtr {a : Ptr} (ha : a ∈ t.inorder ++ Context.keys k) : NodePtr a :=
  (mem_append.mp ha).elim hst.tree.nodePtr (Way.nodePtr hst.above)

/-- There are fewer nodes than addresses. -/
theorem Stands.length_lt : (t.inorder ++ Context.keys k).length < rounds := by
  have hzero : 0 ∉ t.inorder ++ keys k := fun hin => (hst.nodePtr hin).ne_zero rfl
  have honce : ((0 :: (t.inorder ++ keys k)).map UInt64.toNat).Nodup :=
    (List.nodup_cons.mpr ⟨hzero, hst.once⟩).map fun _ _ => UInt64.toNat_inj.mp
  have hsub : ((0 :: (t.inorder ++ keys k)).map UInt64.toNat).toFinset ⊆ Finset.range rounds := by
    intro n hn
    obtain ⟨a, -, rfl⟩ := mem_map.mp (mem_toFinset.mp hn)
    exact Finset.mem_range.mpr a.toNat_lt
  have hcard := Finset.card_le_card hsub
  rw [toFinset_card_of_nodup honce, length_map, length_cons, Finset.card_range] at hcard
  exact hcard

theorem Stands.height_lt : t.height < rounds := by
  have hlength := hst.length_lt
  have hheight := height_le_length t
  rw [length_append] at hlength
  omega

/-- What is written to other nodes leaves the whole tree alone. -/
theorem Stands.frame (hroot : h'.root = h.root) (hsame : Agree h h' (t.inorder ++ Context.keys k)) : Stands h' k t :=
  ⟨Above.frame hst.above hroot (hsame.mono fun _ hb => mem_append_right _ hb),
    hst.tree.frame (hsame.mono fun _ hb => mem_append_left _ hb), hst.once⟩

end

/-- **The heap holds a red-black tree** with the nodes `l`, in this order. -/
def HoldsTree (h : Heap) (l : List Ptr) : Prop := ∃ t n, Stands h [] t ∧ t.inorder = l ∧ t.Balanced .black n

theorem Stands.holdsTree {c : Color} {n : Nat} (hst : Stands h k t) (hk : Context.Fits k c n) (ht : t.Balanced c n) :
    HoldsTree h (Context.plug k t).inorder := by
  obtain ⟨m, hm⟩ := balanced_plug hk ht
  exact ⟨_, m, hst.plug, rfl, hm⟩

end Place

end Armv8Os.Rbtree
