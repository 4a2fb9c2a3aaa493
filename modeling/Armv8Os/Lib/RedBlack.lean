/-
  Red-black trees, and trees with a hole.

  An `RbTree` is looked at from either side: `join d` is a node whose child on side `d` comes first, so that ONE statement covers a
  case and its mirror image.  A `Context` is the way from a hole up to the root, innermost frame first; `plug` fills the hole.

  * **Order** — `inorder_plug`: what is filled in stands between what lies before the hole and what lies behind it.
  * **Balance** — `RbTree.Balanced c n`: the root has the colour `c`, no red node has a red child, and there are `n` black nodes on
    every way down.  `Context.Fits c n` is defined so that a tree of that kind makes the whole balanced again; it is the part of
    the invariant that an algorithm has OUTSIDE the place where it works (`balanced_plug`, `fits_of_plug`).
  * **Height** — `RbTree.Balanced.height_le`.
-/
import Mathlib.Data.List.Perm.Basic
import Mathlib.Data.List.Nodup
import Mathlib.Data.Nat.Log
import Mathlib.Tactic

namespace Armv8Os.RedBlack

inductive Color where
  | red
  | black
  deriving DecidableEq

inductive Side where
  | left
  | right
  deriving DecidableEq

def Side.other : Side → Side
  | left => right
  | right => left

@[simp] theorem Side.other_ne (d : Side) : d.other ≠ d := by cases d <;> decide

@[simp] theorem Side.ne_other (d : Side) : d ≠ d.other := d.other_ne.symm

theorem Side.eq_or_eq_other (d e : Side) : e = d ∨ e = d.other := by
  cases d <;> cases e <;> decide

inductive RbTree (α : Type*) where
  | nil
  | node (c : Color) (l : RbTree α) (a : α) (r : RbTree α)

/-- One node above the hole: the side of the hole, the node and its other child. -/
structure Frame (α : Type*) where
  side : Side
  color : Color
  key : α
  sibling : RbTree α

/-- The way up from a hole. -/
abbrev Context (α : Type*) := List (Frame α)

variable {α : Type*}

namespace RbTree

/-- A node, seen from the side `d`. -/
def join (d : Side) (c : Color) (near : RbTree α) (a : α) (far : RbTree α) : RbTree α :=
  match d with
  | .left => node c near a far
  | .right => node c far a near

theorem join_other (d : Side) (c : Color) (x : RbTree α) (a : α) (y : RbTree α) : join d.other c x a y = join d c y a x := by
  cases d <;> rfl

def inorder : RbTree α → List α
  | nil => []
  | node _ l a r => l.inorder ++ a :: r.inorder

/-- NULL counts as black. -/
def color : RbTree α → Color
  | nil => .black
  | node c _ _ _ => c

/-- The tree with a root of the colour `c`. -/
def paint (c : Color) : RbTree α → RbTree α
  | nil => nil
  | node _ l a r => node c l a r

@[simp] theorem inorder_paint (c : Color) (t : RbTree α) : (t.paint c).inorder = t.inorder := by cases t <;> rfl

@[simp] theorem color_join (d : Side) (c : Color) (x : RbTree α) (a : α) (y : RbTree α) : (join d c x a y).color = c := by
  cases d <;> rfl

theorem paint_color (t : RbTree α) : t.paint t.color = t := by cases t <;> rfl

variable {t : RbTree α} {c : Color}

theorem paint_of_color (h : t.color = c) : t.paint c = t := by
  rw [← h, paint_color]

/-- Where the nodes of a tree are does not matter for what they are. -/
theorem inorder_join_perm (d : Side) (c : Color) (x : RbTree α) (a : α) (y : RbTree α) :
    (join d c x a y).inorder.Perm (a :: (x.inorder ++ y.inorder)) := by
  cases d with
  | left => exact List.perm_middle
  | right => exact List.perm_middle.trans (List.perm_append_comm.cons a)

/-- A rotation keeps the order. -/
theorem inorder_rotate (d : Side) (c₁ c₂ c₃ c₄ : Color) (x : RbTree α) (a : α) (y : RbTree α) (b : α) (z : RbTree α) :
    (join d c₁ (join d c₂ x a y) b z).inorder = (join d c₃ x a (join d c₄ y b z)).inorder := by
  cases d with
  | left => simp [join, inorder]
  | right => simp [join, inorder]

/-- So does a double rotation. -/
theorem inorder_rotate_twice (d : Side) (c₁ c₂ c₃ c₄ c₅ c₆ : Color) (w : RbTree α) (a : α) (x : RbTree α) (b : α) (y : RbTree α)
    (c : α) (z : RbTree α) :
    (join d c₁ (join d c₂ w a (join d c₃ x b y)) c z).inorder = (join d c₄ (join d c₅ w a x) b (join d c₆ y c z)).inorder := by
  cases d with
  | left => simp [join, inorder]
  | right => simp [join, inorder]

/-- Only the children's nodes count. -/
theorem inorder_join_congr (d : Side) (c c' : Color) {x x' y y' : RbTree α} (a : α) (hx : x.inorder = x'.inorder)
    (hy : y.inorder = y'.inorder) : (join d c x a y).inorder = (join d c' x' a y').inorder := by
  cases d with
  | left => simp [join, inorder, hx, hy]
  | right => simp [join, inorder, hx, hy]

/-- The number of nodes on the longest way down. -/
def height : RbTree α → Nat
  | nil => 0
  | node _ l _ r => max l.height r.height + 1

theorem height_le_length (t : RbTree α) : t.height ≤ t.inorder.length := by
  induction t with
  | nil => exact le_rfl
  | node c l a r ihl ihr =>
    rw [inorder, List.length_append, List.length_cons]
    show max _ _ + 1 ≤ _
    omega

/-- No red node has a red child. -/
def NoRedRed : RbTree α → Prop
  | nil => True
  | node c l _ r => (c = .red → l.color = .black ∧ r.color = .black) ∧ l.NoRedRed ∧ r.NoRedRed

/-- The colours on each way from the root to a NULL. -/
def paths : RbTree α → List (List Color)
  | nil => [[]]
  | node c l _ r => (l.paths ++ r.paths).map (c :: ·)

/-- A red-black tree, up to the colour `c` of its root, with `n` black nodes on every way down. -/
inductive Balanced : RbTree α → Color → Nat → Prop where
  | nil : Balanced nil .black 0
  | red {l r : RbTree α} {a : α} {n : Nat} : Balanced l .black n → Balanced r .black n → Balanced (node .red l a r) .red n
  | black {l r : RbTree α} {a : α} {c c' : Color} {n : Nat} :
      Balanced l c n → Balanced r c' n → Balanced (node .black l a r) .black (n + 1)

section Balanced

variable {t x y : RbTree α} {c c' : Color} {n : Nat} {a : α}

theorem Balanced.color_eq (h : t.Balanced c n) : t.color = c := by
  cases h <;> rfl

theorem Balanced.join_red (d : Side) (hx : x.Balanced .black n) (hy : y.Balanced .black n) :
    (join d .red x a y).Balanced .red n := by
  cases d with
  | left => exact .red hx hy
  | right => exact .red hy hx

theorem Balanced.join_black (d : Side) (hx : x.Balanced c n) (hy : y.Balanced c' n) :
    (join d .black x a y).Balanced .black (n + 1) := by
  cases d with
  | left => exact .black hx hy
  | right => exact .black hy hx

/-- The black nodes that a node of this colour adds. -/
def blacks : Color → Nat
  | .red => 0
  | .black => 1

/-- Black children go with either colour. -/
theorem Balanced.join_any (d : Side) (c : Color) (hx : x.Balanced .black n) (hy : y.Balanced .black n) :
    (join d c x a y).Balanced c (n + blacks c) := by
  cases c with
  | red => exact hx.join_red d hy
  | black => exact hx.join_black d hy

/-- The children of a red node. -/
theorem Balanced.of_red (h : t.Balanced .red n) (d : Side) :
    ∃ x a y, t = join d .red x a y ∧ x.Balanced .black n ∧ y.Balanced .black n := by
  cases h with
  | red hl hr =>
    cases d with
    | left => exact ⟨_, _, _, rfl, hl, hr⟩
    | right => exact ⟨_, _, _, rfl, hr, hl⟩

/-- The children of a black node; there is one if a black node is on the way. -/
theorem Balanced.of_black (h : t.Balanced .black (n + 1)) (d : Side) :
    ∃ x a y c c', t = join d .black x a y ∧ x.Balanced c n ∧ y.Balanced c' n := by
  cases h with
  | black hl hr =>
    cases d with
    | left => exact ⟨_, _, _, _, _, rfl, hl, hr⟩
    | right => exact ⟨_, _, _, _, _, rfl, hr, hl⟩

/-- A red root may be painted black. -/
theorem Balanced.paint_black (h : t.Balanced .red n) : (t.paint .black).Balanced .black (n + 1) := by
  cases h with
  | red hl hr => exact .black hl hr

theorem Balanced.noRedRed (h : t.Balanced c n) : t.NoRedRed := by
  induction h with
  | nil => trivial
  | red hl hr ihl ihr => exact ⟨fun _ => ⟨hl.color_eq, hr.color_eq⟩, ihl, ihr⟩
  | black hl hr ihl ihr => exact ⟨(nomatch ·), ihl, ihr⟩

theorem Balanced.count_paths (h : t.Balanced c n) : ∀ p ∈ t.paths, p.count .black = n := by
  have hcons : ∀ {c : Color} {l r : RbTree α} {m : Nat}, (∀ p ∈ l.paths, p.count .black = m) →
      (∀ p ∈ r.paths, p.count .black = m) → ∀ p ∈ (l.paths ++ r.paths).map (c :: ·), p.count .black = m + if c = .black then 1 else 0 := by
    intro c l r m hl hr p hp
    obtain ⟨q, hq, rfl⟩ := List.mem_map.mp hp
    have hm : q.count .black = m := (List.mem_append.mp hq).elim (hl q) (hr q)
    cases c with
    | red => rw [List.count_cons_of_ne (by decide), hm]; rfl
    | black => rw [List.count_cons_self, hm]; rfl
  induction h with
  | nil => exact List.forall_mem_singleton.mpr rfl
  | red hl hr ihl ihr => exact hcons ihl ihr
  | black hl hr ihl ihr => exact hcons ihl ihr

/-- A way down has at most one red node for each black one. -/
theorem Balanced.height_le_twice (h : t.Balanced c n) : t.height ≤ 2 * n + if c = .red then 1 else 0 := by
  induction h with
  | nil => exact le_rfl
  | red hl hr ihl ihr =>
    rw [if_neg (by decide)] at ihl ihr
    rw [if_pos rfl]
    show max _ _ + 1 ≤ _
    omega
  | @black l r a c c' n hl hr ihl ihr =>
    have hone : ∀ c : Color, (if c = .red then 1 else 0) ≤ 1 := fun c => by split <;> decide
    have hl := hone c
    have hr := hone c'
    show max _ _ + 1 ≤ _
    omega

theorem Balanced.pow_le_length (h : t.Balanced c n) : 2 ^ n ≤ t.inorder.length + 1 := by
  induction h with
  | nil => exact le_rfl
  | red hl hr ihl ihr =>
    rw [inorder, List.length_append, List.length_cons]
    omega
  | black hl hr ihl ihr =>
    rw [inorder, List.length_append, List.length_cons, pow_succ]
    omega

/-- **The height is logarithmic.** -/
theorem Balanced.height_le (h : t.Balanced .black n) : t.height ≤ 2 * Nat.log 2 (t.inorder.length + 1) := by
  have htwice := h.height_le_twice
  rw [if_neg (by decide)] at htwice
  have hlog : n ≤ Nat.log 2 (t.inorder.length + 1) := Nat.le_log_of_pow_le (by decide) h.pow_le_length
  omega

end Balanced

end RbTree

open RedBlack.RbTree List

namespace Context

/-- Fill the hole. -/
def plug : Context α → RbTree α → RbTree α
  | [], t => t
  | f :: k, t => plug k (join f.side f.color t f.key f.sibling)

/-- The nodes around the hole. -/
def keys : Context α → List α
  | [] => []
  | f :: k => f.key :: (f.sibling.inorder ++ keys k)

theorem length_le_keys (k : Context α) : k.length ≤ (keys k).length := by
  induction k with
  | nil => exact le_rfl
  | cons f k ih =>
    rw [keys, length_cons, length_cons, length_append]
    omega

def before : Context α → List α
  | [] => []
  | f :: k => match f.side with
    | .left => before k
    | .right => before k ++ (f.sibling.inorder ++ [f.key])

def after : Context α → List α
  | [] => []
  | f :: k => match f.side with
    | .left => f.key :: (f.sibling.inorder ++ after k)
    | .right => after k

theorem inorder_plug (k : Context α) (t : RbTree α) : (plug k t).inorder = before k ++ t.inorder ++ after k := by
  induction k generalizing t with
  | nil => exact (append_nil _).symm
  | cons f k ih =>
    rw [plug, ih]
    obtain ⟨side, color, key, sibling⟩ := f
    cases side with
    | left => simp [join, inorder, before, after]
    | right => simp [join, inorder, before, after]

theorem inorder_plug_congr (k : Context α) {t' : RbTree α} (h : t.inorder = t'.inorder) :
    (plug k t).inorder = (plug k t').inorder := by
  rw [inorder_plug, inorder_plug, h]

theorem inorder_plug_perm (k : Context α) (t : RbTree α) : (plug k t).inorder.Perm (t.inorder ++ keys k) := by
  induction k generalizing t with
  | nil => exact List.Perm.of_eq (append_nil _).symm
  | cons f k ih =>
    refine (ih _).trans ?_
    refine ((inorder_join_perm ..).append_right _).trans ?_
    rw [keys, cons_append, append_assoc]
    exact perm_middle.symm

theorem plug_append (j k : Context α) (t : RbTree α) : plug (j ++ k) t = plug k (plug j t) := by
  induction j generalizing t with
  | nil => rfl
  | cons f j ih => exact ih _

/-- Every node of a tree has its context. -/
theorem exists_plug {a : α} (h : a ∈ t.inorder) : ∃ k c l r, plug k (node c l a r) = t := by
  induction t with
  | nil => cases h
  | node c l b r ihl ihr =>
    rcases mem_append.mp h with h | h
    · obtain ⟨k, c', l', r', rfl⟩ := ihl h
      exact ⟨k ++ [⟨.left, c, b, r⟩], c', l', r', plug_append ..⟩
    · rcases mem_cons.mp h with rfl | h
      · exact ⟨[], c, l, r, rfl⟩
      · obtain ⟨k, c', l', r', rfl⟩ := ihr h
        exact ⟨k ++ [⟨.right, c, b, l⟩], c', l', r', plug_append ..⟩

/-- A tree with root `c` and `n` black nodes on the ways down makes the whole a red-black tree. -/
inductive Fits : Context α → Color → Nat → Prop where
  | root {n : Nat} : Fits [] .black n
  | red {d : Side} {a : α} {s : RbTree α} {k : Context α} {n : Nat} :
      Fits k .red n → s.Balanced .black n → Fits (⟨d, .red, a, s⟩ :: k) .black n
  | black {d : Side} {a : α} {s : RbTree α} {k : Context α} {c c' : Color} {n : Nat} :
      Fits k .black (n + 1) → s.Balanced c n → Fits (⟨d, .black, a, s⟩ :: k) c' n

variable {k : Context α} {n : Nat}

theorem balanced_plug (hk : Fits k c n) (ht : t.Balanced c n) :
    ∃ m, (plug k t).Balanced .black m := by
  induction hk generalizing t with
  | root => exact ⟨_, ht⟩
  | red _ hs ih => exact ih (ht.join_red _ hs)
  | black _ hs ih => exact ih (ht.join_black _ hs)

theorem fits_of_plug {m : Nat} (h : (plug k t).Balanced .black m) :
    ∃ c n, t.Balanced c n ∧ Fits k c n := by
  induction k generalizing t with
  | nil => exact ⟨.black, m, h, .root⟩
  | cons f k ih =>
    obtain ⟨d, c, a, s⟩ := f
    obtain ⟨c', n, hjoin, hk⟩ := ih h
    have hc : c = c' := (color_join d c t a s).symm.trans hjoin.color_eq
    subst hc
    cases d with
    | left =>
      cases hjoin with
      | red hl hr => exact ⟨_, _, hl, .red hk hr⟩
      | black hl hr => exact ⟨_, _, hl, .black hk hr⟩
    | right =>
      cases hjoin with
      | red hl hr => exact ⟨_, _, hr, .red hk hl⟩
      | black hl hr => exact ⟨_, _, hr, .black hk hl⟩

/-- A hole below a black node takes any colour. -/
theorem Fits.any_color {f : Frame α} (h : Fits (f :: k) c n) (hf : f.color = .black)
    (c' : Color) : Fits (f :: k) c' n := by
  cases h with
  | red => cases hf
  | black hk hs => exact .black hk hs

/-- The keys do not matter. -/
theorem Fits.rekey {j : Context α} {d : Side} {c₁ : Color} {a : α} {s : RbTree α}
    (h : Fits (j ++ ⟨d, c₁, a, s⟩ :: k) c n) (b : α) : Fits (j ++ ⟨d, c₁, b, s⟩ :: k) c n := by
  induction j generalizing c n with
  | nil =>
    cases h with
    | red hk hs => exact .red hk hs
    | black hk hs => exact .black hk hs
  | cons f j ih =>
    cases h with
    | red hk hs => exact .red (ih hk) hs
    | black hk hs => exact .black (ih hk) hs

/-- A red node has a black node above it. -/
theorem Fits.exists_black (h : Fits k .red n) :
    ∃ d a s k' c, k = ⟨d, .black, a, s⟩ :: k' ∧ Fits k' .black (n + 1) ∧ s.Balanced c n := by
  cases h with
  | black hk hs => exact ⟨_, _, _, _, _, rfl, hk, hs⟩

end Context

end Armv8Os.RedBlack
