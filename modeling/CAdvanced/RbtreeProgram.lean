import CAdvanced.CString
import CAdvanced.RedBlackShape

/-!
# The red-black tree engine

The functions of `kvstore_rbtree.c` over an explicit heap.  A node's fields
are partial functions of its address: a field no code has assigned is absent,
and reading it is a fault, as is writing through a pointer that is not live.

Left and right versions of a function are one definition over a direction.
Every loop gets as much fuel as there are live blocks; no loop over distinct
nodes can need more.
-/

namespace CAdvanced

open Fallible
open RedBlack

/-- The tree header together with the nodes of the heap.  `child .left` and
`child .right` are the node fields `left` and `right`.  `count` is an `int` of
the source, and this number as long as there are less than 2^31 nodes. -/
structure Rbtree where
  arena : Arena
  root : Addr
  nil : Addr
  count : ℤ
  color : Addr → Option Color
  child : Dir → Addr → Option Addr
  parent : Addr → Option Addr
  key : Addr → Option CharPtr
  value : Addr → Option CharPtr

instance : HasArena Rbtree where
  arena := Rbtree.arena
  withArena := fun r s => { s with arena := r }

namespace Rbtree

/-! ## Field updates -/

@[simps] def withRoot (p : Addr) (s : Rbtree) : Rbtree := { s with root := p }

@[simps] def withNil (p : Addr) (s : Rbtree) : Rbtree := { s with nil := p }

@[simps] def withCount (n : ℤ) (s : Rbtree) : Rbtree := { s with count := n }

@[simps] def withColor (p : Addr) (c : Color) (s : Rbtree) : Rbtree :=
  { s with color := Function.update s.color p (some c) }

@[simps arena root nil count color parent key value]
def withChild (d : Dir) (p q : Addr) (s : Rbtree) : Rbtree :=
  { s with child :=
      Function.update s.child d (Function.update (s.child d) p (some q)) }

@[simps] def withParent (p q : Addr) (s : Rbtree) : Rbtree :=
  { s with parent := Function.update s.parent p (some q) }

@[simps] def withKey (p : Addr) (k : CharPtr) (s : Rbtree) : Rbtree :=
  { s with key := Function.update s.key p (some k) }

@[simps] def withValue (p : Addr) (v : CharPtr) (s : Rbtree) : Rbtree :=
  { s with value := Function.update s.value p (some v) }

@[simp] theorem child_withChild_self (d : Dir) (p q a : Addr) (s : Rbtree) :
    (withChild d p q s).child d a = if a = p then some q else s.child d a := by
  simp [withChild, Function.update_apply]

@[simp] theorem child_withChild_flip (d : Dir) (p q a : Addr) (s : Rbtree) :
    (withChild d p q s).child d.flip a = s.child d.flip a := by
  simp [withChild]

@[simp] theorem child_flip_withChild (d : Dir) (p q a : Addr) (s : Rbtree) :
    (withChild d.flip p q s).child d a = s.child d a := by
  simp [withChild]

theorem child_withChild_of_ne (d e : Dir) {p a : Addr} (q : Addr)
    (s : Rbtree) (hne : a ≠ p) :
    (withChild d p q s).child e a = s.child e a := by
  by_cases hde : e = d
  · subst e
    simp [hne]
  · simp [withChild, hde]

/-- The contents of a block are unknown after it was handed out or taken
back. -/
def forget (p : Addr) (s : Rbtree) : Rbtree :=
  { s with
    color := Function.update s.color p none
    child := fun d => Function.update (s.child d) p none
    parent := Function.update s.parent p none
    key := Function.update s.key p none
    value := Function.update s.value p none }

/-! ## Access through a node pointer -/

def isLive (p : Addr) (s : Rbtree) : Bool := p ∈ s.arena.live

def colorOf (p : Addr) : Exec Rbtree Color := load (fun s => s.color p)

def childOf (d : Dir) (p : Addr) : Exec Rbtree Addr :=
  load (fun s => s.child d p)

def parentOf (p : Addr) : Exec Rbtree Addr := load (fun s => s.parent p)

def keyPtrOf (p : Addr) : Exec Rbtree CharPtr := load (fun s => s.key p)

def valuePtrOf (p : Addr) : Exec Rbtree CharPtr := load (fun s => s.value p)

/-- The text behind a node's key pointer, as `strcmp` reads it. -/
def keyOf (p : Addr) : Exec Rbtree CString := do
  match ← keyPtrOf p with
  | some block => pure block.str
  | none => throw .badAddress

def setColor (p : Addr) (c : Color) : Exec Rbtree Unit :=
  store (isLive p) (withColor p c)

def setChild (d : Dir) (p q : Addr) : Exec Rbtree Unit :=
  store (isLive p) (withChild d p q)

def setParent (p q : Addr) : Exec Rbtree Unit :=
  store (isLive p) (withParent p q)

def setKey (p : Addr) (k : CharPtr) : Exec Rbtree Unit :=
  store (isLive p) (withKey p k)

def setValue (p : Addr) (v : CharPtr) : Exec Rbtree Unit :=
  store (isLive p) (withValue p v)

def setRoot (p : Addr) : Exec Rbtree Unit := modify (withRoot p)

def rootOf : Exec Rbtree Addr := do return (← get).root

def nilOf : Exec Rbtree Addr := do return (← get).nil

def mallocNode (A : Allocator) : Exec Rbtree Addr := do
  let p ← malloc A
  if p = NULL then pure p
  else do
    modify (forget p)
    pure p

def freeNode (p : Addr) : Exec Rbtree Unit := do
  free p
  modify (forget p)

def loopFuel : Exec Rbtree ℕ := do return (← get).arena.live.length + 1

end Rbtree

open Rbtree

/-! ## Walking the tree -/

/-- One test of `rbtree_mini`'s loop (`d` is left) or of `rbtree_maxi`'s. -/
def extremeStep (d : Dir) (x : Addr) : Exec Rbtree (Addr ⊕ Addr) := do
  let next ← childOf d x
  if next ≠ (← nilOf) then return .inl next
  else return .inr x

def rbtreeMini (x : Addr) : Exec Rbtree Addr := do
  iterate (extremeStep .left) (← loopFuel) x

def rbtreeMaxi (x : Addr) : Exec Rbtree Addr := do
  iterate (extremeStep .right) (← loopFuel) x

def successorStep : Addr × Addr → Exec Rbtree ((Addr × Addr) ⊕ Addr)
  | (x, y) => do
      if y ≠ (← nilOf) then
        if x = (← childOf .right y) then
          return .inl (y, ← parentOf y)
        else return .inr y
      else return .inr y

def rbtreeSuccessor (x : Addr) : Exec Rbtree Addr := do
  let y ← parentOf x
  if (← childOf .right x) ≠ (← nilOf) then
    rbtreeMini (← childOf .right x)
  else
    iterate successorStep (← loopFuel) (x, y)

/-! ## Rotations -/

/-- The link that holds `x`, at its parent or at the root, now holds `y`.
The parent's child in direction `d` is compared first. -/
def replaceInParent (d : Dir) (x y : Addr) : Exec Rbtree Unit := do
  if (← parentOf x) = (← nilOf) then
    setRoot y
  else if x = (← childOf d (← parentOf x)) then
    setChild d (← parentOf x) y
  else
    setChild d.flip (← parentOf x) y

/-- The middle subtree of a rotation gets the parent `x`. -/
def adoptMiddle (d : Dir) (y x : Addr) : Exec Rbtree Unit := do
  if (← childOf d y) ≠ (← nilOf) then
    setParent (← childOf d y) x

/-- The rotation that moves `x` down in direction `d`. -/
def rotate (d : Dir) (x : Addr) : Exec Rbtree Unit := do
  let y ← childOf d.flip x
  setChild d.flip x (← childOf d y)
  adoptMiddle d y x
  setParent y (← parentOf x)
  replaceInParent d x y
  setChild d y x
  setParent x y

def rbtreeLeftRotate : Addr → Exec Rbtree Unit := rotate .left

def rbtreeRightRotate : Addr → Exec Rbtree Unit := rotate .right

/-! ## Insertion -/

/-- The end of the insertion repair: recolor, and rotate the grandparent. -/
def insertFixupOuter (d : Dir) (z : Addr) : Exec Rbtree Addr := do
  setColor (← parentOf z) .black
  setColor (← parentOf (← parentOf z)) .red
  rotate d.flip (← parentOf (← parentOf z))
  return z

/-- The body of the insertion repair when `z`'s parent is the child in
direction `d` of its own parent. -/
def insertFixupSide (d : Dir) (z : Addr) : Exec Rbtree Addr := do
  let y ← childOf d.flip (← parentOf (← parentOf z))
  if (← colorOf y) = .red then
    setColor (← parentOf z) .black
    setColor y .black
    setColor (← parentOf (← parentOf z)) .red
    parentOf (← parentOf z)
  else if z = (← childOf d.flip (← parentOf z)) then
    let z ← parentOf z
    rotate d z
    insertFixupOuter d z
  else
    insertFixupOuter d z

def insertFixupStep (z : Addr) : Exec Rbtree (Addr ⊕ Unit) := do
  if (← colorOf (← parentOf z)) = .red then
    if (← parentOf z) = (← childOf .left (← parentOf (← parentOf z))) then
      return .inl (← insertFixupSide .left z)
    else
      return .inl (← insertFixupSide .right z)
  else return .inr ()

def rbtreeInsertFixup (z : Addr) : Exec Rbtree Unit := do
  iterate insertFixupStep (← loopFuel) z
  setColor (← rootOf) .black

/-- One test of the descent: the loop carries the node `y` last passed and
the next node `x`.  It ends with `none` when the key is found. -/
def insertDescentStep (z : Addr) :
    Addr × Addr → Exec Rbtree ((Addr × Addr) ⊕ Option Addr)
  | (y, x) => do
      if x ≠ (← nilOf) then
        if strcmp (← keyOf z) (← keyOf x) < 0 then
          return .inl (x, ← childOf .left x)
        else if strcmp (← keyOf z) (← keyOf x) > 0 then
          return .inl (x, ← childOf .right x)
        else return .inr none
      else return .inr (some y)

/-- The link to `z` in the node `y` where the descent ended. -/
def attachBelow (z y : Addr) : Exec Rbtree Unit := do
  if y = (← nilOf) then
    setRoot z
  else if strcmp (← keyOf z) (← keyOf y) < 0 then
    setChild .left y z
  else
    setChild .right y z

def rbtreeInsert (z : Addr) : Exec Rbtree Unit := do
  let descent ←
    iterate (insertDescentStep z) (← loopFuel) (← nilOf, ← rootOf)
  match descent with
  | none => return ()
  | some y => do
      setParent z y
      attachBelow z y
      setChild .left z (← nilOf)
      setChild .right z (← nilOf)
      setColor z .red
      rbtreeInsertFixup z

/-! ## Deletion -/

/-- Are both children of `w` black?  The right child is read only when the
left one is. -/
def bothChildrenBlack (w : Addr) : Exec Rbtree Bool := do
  if (← colorOf (← childOf .left w)) = .black then
    return decide ((← colorOf (← childOf .right w)) = .black)
  else return false

/-- The end of the deletion repair: the sibling `w` has a red child on the
far side. -/
def deleteFixupFar (d : Dir) (x w : Addr) : Exec Rbtree Addr := do
  setColor w (← colorOf (← parentOf x))
  setColor (← parentOf x) .black
  setColor (← childOf d.flip w) .black
  rotate d (← parentOf x)
  rootOf

/-- The deletion repair beside a black sibling `w`. -/
def deleteFixupBlack (d : Dir) (x w : Addr) : Exec Rbtree Addr := do
  if ← bothChildrenBlack w then
    setColor w .red
    parentOf x
  else if (← colorOf (← childOf d.flip w)) = .black then
    setColor (← childOf d w) .black
    setColor w .red
    rotate d.flip w
    deleteFixupFar d x (← childOf d.flip (← parentOf x))
  else
    deleteFixupFar d x w

/-- The body of the deletion repair when `x` is the child in direction `d` of
its parent. -/
def deleteFixupSide (d : Dir) (x : Addr) : Exec Rbtree Addr := do
  let w ← childOf d.flip (← parentOf x)
  if (← colorOf w) = .red then
    setColor w .black
    setColor (← parentOf x) .red
    rotate d (← parentOf x)
    deleteFixupBlack d x (← childOf d.flip (← parentOf x))
  else
    deleteFixupBlack d x w

def deleteFixupStep (x : Addr) : Exec Rbtree (Addr ⊕ Addr) := do
  if x ≠ (← rootOf) then
    if (← colorOf x) = .black then
      if x = (← childOf .left (← parentOf x)) then
        return .inl (← deleteFixupSide .left x)
      else
        return .inl (← deleteFixupSide .right x)
    else return .inr x
  else return .inr x

def rbtreeDeleteFixup (x : Addr) : Exec Rbtree Unit := do
  let x ← iterate deleteFixupStep (← loopFuel) x
  setColor x .black

/-- Exchange of the key and value pointers of two nodes. -/
def swapPayload (z y : Addr) : Exec Rbtree Unit := do
  let tmp ← keyPtrOf z
  setKey z (← keyPtrOf y)
  setKey y tmp
  let tmp ← valuePtrOf z
  setValue z (← valuePtrOf y)
  setValue y tmp

/-- The node that leaves the tree: `z` itself, or its successor when both
children are there. -/
def deleteVictim (z : Addr) : Exec Rbtree Addr := do
  if (← childOf .left z) = (← nilOf) then return z
  else if (← childOf .right z) = (← nilOf) then return z
  else rbtreeSuccessor z

def onlyChild (y : Addr) : Exec Rbtree Addr := do
  if (← childOf .left y) ≠ (← nilOf) then childOf .left y
  else if (← childOf .right y) ≠ (← nilOf) then childOf .right y
  else nilOf

/-- `y`'s only child takes its place; the child may be the sentinel, whose
parent field is written as well. -/
def spliceOut (y : Addr) : Exec Rbtree Addr := do
  let x ← onlyChild y
  setParent x (← parentOf y)
  replaceInParent .left y x
  return x

def movePayload (z y : Addr) : Exec Rbtree Unit := do
  if y ≠ z then
    swapPayload z y

def repairBehind (y x : Addr) : Exec Rbtree Unit := do
  if (← colorOf y) = .black then
    rbtreeDeleteFixup x

def rbtreeDelete (z : Addr) : Exec Rbtree Addr := do
  let y ← deleteVictim z
  let x ← spliceOut y
  movePayload z y
  repairBehind y x
  return y

/-! ## Lookup and the engine interface -/

def searchStep (key : CString) (node : Addr) :
    Exec Rbtree (Addr ⊕ Addr) := do
  if node ≠ (← nilOf) then
    if strcmp key (← keyOf node) < 0 then
      return .inl (← childOf .left node)
    else if strcmp key (← keyOf node) > 0 then
      return .inl (← childOf .right node)
    else return .inr node
  else return .inr (← nilOf)

def rbtreeSearch (key : CString) : Exec Rbtree Addr := do
  iterate (searchStep key) (← loopFuel) (← rootOf)

/-- The source asks for one byte for the sentinel and writes its key and color
behind that byte.  Here, as for every other node, the block holds a whole node
whose fields are unassigned: the states are those of a heap in which the writes
have hit nothing else.  `NodeAccess.rbtreeCreate` watches the block's size. -/
def rbtreeCreate (A : Allocator) : Exec Rbtree ℤ := do
  modify (fun s => withCount 0 (withNil NULL (withRoot NULL s)))
  let nil ← mallocNode A
  modify (withNil nil)
  let key ← malloc A
  if key = NULL then throw .badAddress
  setKey nil (some ⟨key, default⟩)
  setColor nil .black
  setRoot nil
  modify (withCount 0)
  return 0

def rbtreeExist (key : CString) : Exec Rbtree ℤ := do
  let node ← rbtreeSearch key
  if node ≠ (← nilOf) then return 0
  return -1

def rbtreeMod (A : Allocator) (key newValue : CString) : Exec Rbtree ℤ := do
  if (← rbtreeExist key) = -1 then return -1
  let node ← rbtreeSearch key
  let block ← malloc A
  if block = NULL then
    setValue node none
    return -1
  setValue node (some ⟨block, newValue⟩)
  return 0

/-- `rbtree_set` on a key that is not stored. -/
def insertCopy (A : Allocator) (key value : CString) : Exec Rbtree ℤ := do
  let node ← mallocNode A
  if node = NULL then return -1
  let kcopy ← malloc A
  if kcopy = NULL then
    setKey node none
    return -1
  setKey node (some ⟨kcopy, key⟩)
  let vcopy ← malloc A
  if vcopy = NULL then
    setValue node none
    free kcopy
    freeNode node
    return -1
  setValue node (some ⟨vcopy, value⟩)
  rbtreeInsert node
  modify (fun s => withCount (s.count + 1) s)
  return 0

def rbtreeSet (A : Allocator) (key value : CString) : Exec Rbtree ℤ := do
  if (← rbtreeExist key) ≠ -1 then
    let ret ← rbtreeMod A key value
    if ret = 0 then return 0
    else return -1
  else
    insertCopy A key value

def rbtreeGet (key : CString) : Exec Rbtree CharPtr := do
  let node ← rbtreeSearch key
  if node = (← nilOf) then return none
  valuePtrOf node

/-- The releases of the source stand under `!cur`, where `cur->key` is read
through a null pointer. -/
def rbtreeDel (key : CString) : Exec Rbtree ℤ := do
  let node ← rbtreeSearch key
  if node = (← nilOf) then return -1
  let cur ← rbtreeDelete node
  if cur = NULL then throw .badAddress
  modify (fun s => withCount (s.count - 1) s)
  return 0

def rbtreeCount : Exec Rbtree ℤ := do return (← get).count

/-! ## Destruction -/

/-- One turn of `rbtree_destroy`.  The loop goes on with the node that
`rbtree_delete` took out; the releases of the source stand under `!cur`. -/
def destroyStep (cur : Addr) : Exec Rbtree (Addr ⊕ Unit) := do
  if cur ≠ (← nilOf) then
    let cur ← rbtreeMini (← rootOf)
    if cur = (← nilOf) then return .inr ()
    let cur ← rbtreeDelete cur
    if cur = NULL then throw .badAddress
    return .inl cur
  else return .inr ()

/-- The sentinel's key is released first. -/
def rbtreeDestroy : Exec Rbtree Unit := do
  freeText (← keyPtrOf (← nilOf))
  iterate destroyStep (← loopFuel) (← rootOf)

end CAdvanced
