/-
  `common/rbtree.c`: red-black trees of nodes that the callers own.

  A node is three words; the lowest bit of the first is its colour and the rest the pointer to its parent.  The heap gives each
  address its node, and every access first makes sure that the pointer is not NULL.

  The two halves of each fix-up loop are mirror images, so each loop has ONE body with the side as a parameter: `Side.left` is
  the half that stands first in the source.  A body says whether the loop goes on, with which `node` and `parent`.
-/
import Armv8Os.Lib.Prog
import Armv8Os.Lib.RedBlack

namespace Armv8Os.Rbtree

open RedBlack

abbrev Ptr := UInt64

/-- `struct rb_node_`. -/
structure RbNode where
  parentColor : UInt64
  right : Ptr
  left : Ptr
  deriving DecidableEq

/-- The memory: `struct rb_root_`, and a node at each address. -/
structure Heap where
  root : Ptr
  node : Ptr → RbNode

/-- What must not happen: the use of a NULL pointer, and a loop without an end. -/
inductive Fault where
  | null
  | stuck
  deriving DecidableEq

/-! ## The heap -/

namespace Heap

def pc (h : Heap) (a : Ptr) : UInt64 := (h.node a).parentColor

def child (h : Heap) (d : Side) (a : Ptr) : Ptr :=
  match d with
  | .left => (h.node a).left
  | .right => (h.node a).right

def setPc (h : Heap) (a : Ptr) (w : UInt64) : Heap := { h with node := Function.update h.node a { h.node a with parentColor := w } }

def setChild (h : Heap) (d : Side) (a p : Ptr) : Heap :=
  match d with
  | .left => { h with node := Function.update h.node a { h.node a with left := p } }
  | .right => { h with node := Function.update h.node a { h.node a with right := p } }

end Heap

abbrev Run := Prog Fault Heap

/-! ## Access -/

/-- A pointer is used. -/
def check (a : Ptr) : Run Unit := Prog.assert .null (a != 0)

def getPc (a : Ptr) : Run UInt64 := do
  check a
  return (← get).pc a

def setPc (a : Ptr) (w : UInt64) : Run Unit := do
  check a
  modify fun h => h.setPc a w

def getChild (d : Side) (a : Ptr) : Run Ptr := do
  check a
  return (← get).child d a

def setChild (d : Side) (a p : Ptr) : Run Unit := do
  check a
  modify fun h => h.setChild d a p

def getRoot : Run Ptr := return (← get).root

def setRoot (p : Ptr) : Run Unit := modify fun h => { h with root := p }

/-- `RB_RED` and `RB_BLACK`. -/
def colorBit : Color → UInt64
  | .red => 0
  | .black => 1

/-- `__rb_parent`. -/
def parentOf (pc : UInt64) : Ptr := pc &&& ~~~3

/-- `__rb_is_black`. -/
def blackPc (pc : UInt64) : Bool := pc &&& 1 != 0

def rbParent (rb : Ptr) : Run Ptr := return parentOf (← getPc rb)

def rbRedParent (red : Ptr) : Run Ptr := getPc red

def rbIsBlack (rb : Ptr) : Run Bool := return blackPc (← getPc rb)

def rbIsRed (rb : Ptr) : Run Bool := return !blackPc (← getPc rb)

def rbSetBlack (rb : Ptr) : Run Unit := do setPc rb ((← getPc rb) ||| colorBit .black)

def rbSetParent (rb p : Ptr) : Run Unit := do setPc rb (((← getPc rb) &&& 1) ||| p)

def rbSetParentColor (rb p : Ptr) (color : Color) : Run Unit := setPc rb (p ||| colorBit color)

/-- `if (tmp) rb_set_parent_color(tmp, p, color)`. -/
def adopt (tmp p : Ptr) (color : Color) : Run Unit := if tmp ≠ 0 then rbSetParentColor tmp p color else return ()

/-- `if (tmp) rb_set_parent(tmp, p)`. -/
def reparent (tmp p : Ptr) : Run Unit := if tmp ≠ 0 then rbSetParent tmp p else return ()

/-- `__rb_change_child`. -/
def rbChangeChild (old new parent : Ptr) : Run Unit := do
  if parent ≠ 0 then
    if (← getChild .left parent) = old then setChild .left parent new else setChild .right parent new
  else setRoot new

/-- `__rb_rotate_set_parents`. -/
def rbRotateSetParents (old new : Ptr) (color : Color) : Run Unit := do
  let parent ← rbParent old
  setPc new (← getPc old)
  rbSetParentColor old new color
  rbChangeChild old new parent

/-- `!tmp || rb_is_black(tmp)`. -/
def nullOrBlack (tmp : Ptr) : Run Bool := if tmp = 0 then return true else rbIsBlack tmp

/-- As many rounds as there are addresses. -/
def rounds : Nat := 2 ^ 64

/-! ## Insertion -/

/-- The end of the body of `__rb_insert_fix`: `parent` takes the place of `gparent`. -/
def insertRotate (d : Side) (gparent parent tmp : Ptr) : Run Unit := do
  setChild d gparent tmp
  adopt tmp gparent .black
  setChild d.other parent gparent
  rbRotateSetParents gparent parent .red

/-- The body of `__rb_insert_fix` if `parent` is the child of `gparent` on side `d`; `tmp` is the other one. -/
def insertCase (d : Side) (node parent gparent tmp : Ptr) : Run (Option (Ptr × Ptr)) := do
  if !(← nullOrBlack tmp) then
    -- case 1: the uncle is red
    rbSetParentColor tmp gparent .black
    rbSetParentColor parent gparent .black
    let node := gparent
    let parent ← rbParent node
    rbSetParentColor node parent .red
    return some (node, parent)
  else
    let tmp ← getChild d.other parent
    if node = tmp then
      -- case 2
      let tmp ← getChild d node
      setChild d.other parent tmp
      adopt tmp parent .black
      setChild d node parent
      rbSetParentColor parent node .red
      insertRotate d gparent node (← getChild d.other node)
      return none
    else
      -- case 3
      insertRotate d gparent parent tmp
      return none

/-- `__rb_insert_fix`. -/
def rbInsertFix : Nat → Ptr → Ptr → Run Unit
  | 0, _, _ => throw .stuck
  | n + 1, node, parent => do
    if parent = 0 then
      rbSetParentColor node 0 .black
      setRoot node
    else if ← rbIsBlack parent then return ()
    else
      let gparent ← rbRedParent parent
      let tmp ← getChild .right gparent
      let next ← if parent ≠ tmp then insertCase .left node parent gparent tmp
        else do insertCase .right node parent gparent (← getChild .left gparent)
      match next with
      | some (node, parent) => rbInsertFix n node parent
      | none => return ()

section Compare

variable (cmp : Ptr → Ptr → Bool)

/-- The loop of `_rb_insert`; `false` if a node is there that is neither smaller nor larger. -/
def rbAttach (node : Ptr) : Nat → Ptr → Run Bool
  | 0, _ => throw .stuck
  | n + 1, nw => do
    if nw = 0 then return true
    else
      let parent := nw
      let go (d : Side) : Run Bool := do
        let nw ← getChild d nw
        if nw = 0 then
          setChild d parent node
          setPc node parent
        rbAttach node n nw
      if cmp node nw then go .left else if cmp nw node then go .right else return false

/-- `_rb_insert`. -/
def rbInsert (node : Ptr) : Run Int := do
  let nw ← getRoot
  setChild .right node 0
  setChild .left node 0
  setPc node 0
  if ← rbAttach cmp node rounds nw then
    rbInsertFix rounds node (← rbRedParent node)
    return 0
  else return -1

/-- The loop of `_rb_lookup`. -/
def rbFind (node : Ptr) : Nat → Ptr → Run Ptr
  | 0, _ => throw .stuck
  | n + 1, nw => do
    if nw = 0 then return 0
    else if cmp node nw then rbFind node n (← getChild .left nw)
    else if cmp nw node then rbFind node n (← getChild .right nw)
    else return nw

/-- `_rb_lookup`. -/
def rbLookup (node : Ptr) : Run Ptr := do rbFind cmp node rounds (← getRoot)

end Compare

/-- The loop of `_rb_first`. -/
def rbLeftmost : Nat → Ptr → Run Ptr
  | 0, _ => throw .stuck
  | k + 1, n => do
    let next ← getChild .left n
    if next ≠ 0 then rbLeftmost k next else return n

/-- `_rb_first`. -/
def rbFirst : Run Ptr := do
  let n ← getRoot
  if n = 0 then return 0 else rbLeftmost rounds n

/-! ## Removal -/

/-- The search for the successor in `__rb_erase`: it returns `parent` and `successor`. -/
def rbSuccessor : Nat → Ptr → Ptr → Run (Ptr × Ptr)
  | 0, _, _ => throw .stuck
  | n + 1, successor, tmp => do
    let parent := successor
    let successor := tmp
    let tmp ← getChild .left tmp
    if tmp ≠ 0 then rbSuccessor n successor tmp else return (parent, successor)

/-- The end of `__rb_erase` for a node with two children: `successor` takes the place of `node`. -/
def rbReplace (node successor parent child2 : Ptr) : Run Ptr := do
  let tmp ← getChild .left node
  setChild .left successor tmp
  rbSetParent tmp successor
  let pc ← getPc node
  let tmp := parentOf pc
  rbChangeChild node successor tmp
  if child2 ≠ 0 then
    setPc successor pc
    rbSetParentColor child2 parent .black
    return 0
  else
    let pc2 ← getPc successor
    setPc successor pc
    return if blackPc pc2 then parent else 0

/-- `__rb_erase`: the node leaves the tree; what is returned is where a black node is missing. -/
def rbUnlink (node : Ptr) : Run Ptr := do
  let child ← getChild .right node
  let tmp ← getChild .left node
  if tmp = 0 then
    let pc ← getPc node
    let parent := parentOf pc
    rbChangeChild node child parent
    if child ≠ 0 then
      setPc child pc
      return 0
    else return if blackPc pc then parent else 0
  else if child = 0 then
    let pc ← getPc node
    setPc tmp pc
    let parent := parentOf pc
    rbChangeChild node tmp parent
    return 0
  else
    let successor := child
    let tmp ← getChild .left child
    if tmp = 0 then
      rbReplace node successor successor (← getChild .right successor)
    else
      let (parent, successor) ← rbSuccessor rounds successor tmp
      let child2 ← getChild .right successor
      setChild .left parent child2
      setChild .right successor child
      rbSetParent child successor
      rbReplace node successor parent child2

/-- The end of the body of `__rb_erase_fix`: `sibling` takes the place of `parent`. -/
def eraseRotate (d : Side) (parent sibling tmp1 : Ptr) : Run Unit := do
  let tmp2 ← getChild d sibling
  setChild d.other parent tmp2
  reparent tmp2 parent
  setChild d sibling parent
  rbSetParentColor tmp1 sibling .black
  rbRotateSetParents parent sibling .black

/-- The body of `__rb_erase_fix` after case 1: the sibling is black. -/
def eraseBlack (d : Side) (parent sibling : Ptr) : Run (Option (Ptr × Ptr)) := do
  let tmp1 ← getChild d.other sibling
  if ← nullOrBlack tmp1 then
    let tmp2 ← getChild d sibling
    if ← nullOrBlack tmp2 then
      -- case 2: its children are black
      rbSetParentColor sibling parent .red
      if ← rbIsRed parent then
        rbSetBlack parent
        return none
      else
        let node := parent
        let parent ← rbParent node
        return if parent ≠ 0 then some (node, parent) else none
    else
      -- case 3
      let tmp1 ← getChild d.other tmp2
      setChild d sibling tmp1
      adopt tmp1 sibling .black
      setChild d.other tmp2 sibling
      setChild d.other parent tmp2
      eraseRotate d parent tmp2 sibling
      return none
  else
    eraseRotate d parent sibling tmp1
    return none

/-- The body of `__rb_erase_fix` if `node` is the child of `parent` on side `d`. -/
def eraseCase (d : Side) (parent sibling : Ptr) : Run (Option (Ptr × Ptr)) := do
  if ← rbIsRed sibling then
    -- case 1: the sibling is red
    let tmp1 ← getChild d sibling
    setChild d.other parent tmp1
    rbSetParentColor tmp1 parent .black
    setChild d sibling parent
    rbRotateSetParents parent sibling .red
    eraseBlack d parent tmp1
  else eraseBlack d parent sibling

/-- `__rb_erase_fix`. -/
def rbEraseFix : Nat → Ptr → Ptr → Run Unit
  | 0, _, _ => throw .stuck
  | n + 1, node, parent => do
    let sibling ← getChild .right parent
    let next ← if node ≠ sibling then eraseCase .left parent sibling
      else do eraseCase .right parent (← getChild .left parent)
    match next with
    | some (node, parent) => rbEraseFix n node parent
    | none => return ()

/-- `_rb_erase`. -/
def rbErase (node : Ptr) : Run Unit := do
  let rebalance ← rbUnlink node
  if rebalance ≠ 0 then rbEraseFix rounds 0 rebalance

end Armv8Os.Rbtree
