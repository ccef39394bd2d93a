import CAdvanced.RbtreeEngine

/-!
# The tree engine over given accesses

The functions of `kvstore_rbtree.c` once more, with every access to a field of
a node taken from a record.  With the plain accesses they are the functions of
the engine; accesses that fault at the sentinel show which fields of it the
engine never touches.
-/

namespace CAdvanced

open Fallible
open KeyValue
open RedBlack
open Rbtree

/-- The accesses through a node pointer; colors are read directly. -/
structure NodeAccess where
  childOf : Dir → Addr → Exec Rbtree Addr
  parentOf : Addr → Exec Rbtree Addr
  keyPtrOf : Addr → Exec Rbtree CharPtr
  valuePtrOf : Addr → Exec Rbtree CharPtr
  setColor : Addr → Color → Exec Rbtree Unit
  setChild : Dir → Addr → Addr → Exec Rbtree Unit
  setParent : Addr → Addr → Exec Rbtree Unit
  setKey : Addr → CharPtr → Exec Rbtree Unit
  setValue : Addr → CharPtr → Exec Rbtree Unit

namespace NodeAccess

section Engine

variable (acc : NodeAccess)

def keyOf (p : Addr) : Exec Rbtree CString := do
  match ← acc.keyPtrOf p with
  | some block => pure block.str
  | none => throw .badAddress

def extremeStep (d : Dir) (x : Addr) : Exec Rbtree (Addr ⊕ Addr) := do
  let next ← acc.childOf d x
  if next ≠ (← nilOf) then return .inl next
  else return .inr x

def rbtreeMini (x : Addr) : Exec Rbtree Addr := do
  iterate (acc.extremeStep .left) (← loopFuel) x

def successorStep : Addr × Addr → Exec Rbtree ((Addr × Addr) ⊕ Addr)
  | (x, y) => do
      if y ≠ (← nilOf) then
        if x = (← acc.childOf .right y) then
          return .inl (y, ← acc.parentOf y)
        else return .inr y
      else return .inr y

def rbtreeSuccessor (x : Addr) : Exec Rbtree Addr := do
  let y ← acc.parentOf x
  if (← acc.childOf .right x) ≠ (← nilOf) then
    acc.rbtreeMini (← acc.childOf .right x)
  else
    iterate acc.successorStep (← loopFuel) (x, y)

def replaceInParent (d : Dir) (x y : Addr) : Exec Rbtree Unit := do
  if (← acc.parentOf x) = (← nilOf) then
    setRoot y
  else if x = (← acc.childOf d (← acc.parentOf x)) then
    acc.setChild d (← acc.parentOf x) y
  else
    acc.setChild d.flip (← acc.parentOf x) y

def adoptMiddle (d : Dir) (y x : Addr) : Exec Rbtree Unit := do
  if (← acc.childOf d y) ≠ (← nilOf) then
    acc.setParent (← acc.childOf d y) x

def rotate (d : Dir) (x : Addr) : Exec Rbtree Unit := do
  let y ← acc.childOf d.flip x
  acc.setChild d.flip x (← acc.childOf d y)
  acc.adoptMiddle d y x
  acc.setParent y (← acc.parentOf x)
  acc.replaceInParent d x y
  acc.setChild d y x
  acc.setParent x y

def insertFixupOuter (d : Dir) (z : Addr) : Exec Rbtree Addr := do
  acc.setColor (← acc.parentOf z) .black
  acc.setColor (← acc.parentOf (← acc.parentOf z)) .red
  acc.rotate d.flip (← acc.parentOf (← acc.parentOf z))
  return z

def insertFixupSide (d : Dir) (z : Addr) : Exec Rbtree Addr := do
  let y ← acc.childOf d.flip (← acc.parentOf (← acc.parentOf z))
  if (← colorOf y) = .red then
    acc.setColor (← acc.parentOf z) .black
    acc.setColor y .black
    acc.setColor (← acc.parentOf (← acc.parentOf z)) .red
    acc.parentOf (← acc.parentOf z)
  else if z = (← acc.childOf d.flip (← acc.parentOf z)) then
    let z ← acc.parentOf z
    acc.rotate d z
    acc.insertFixupOuter d z
  else
    acc.insertFixupOuter d z

def insertFixupStep (z : Addr) : Exec Rbtree (Addr ⊕ Unit) := do
  if (← colorOf (← acc.parentOf z)) = .red then
    if (← acc.parentOf z) =
        (← acc.childOf .left (← acc.parentOf (← acc.parentOf z))) then
      return .inl (← acc.insertFixupSide .left z)
    else
      return .inl (← acc.insertFixupSide .right z)
  else return .inr ()

def rbtreeInsertFixup (z : Addr) : Exec Rbtree Unit := do
  iterate acc.insertFixupStep (← loopFuel) z
  acc.setColor (← rootOf) .black

def insertDescentStep (z : Addr) :
    Addr × Addr → Exec Rbtree ((Addr × Addr) ⊕ Option Addr)
  | (y, x) => do
      if x ≠ (← nilOf) then
        if strcmp (← acc.keyOf z) (← acc.keyOf x) < 0 then
          return .inl (x, ← acc.childOf .left x)
        else if strcmp (← acc.keyOf z) (← acc.keyOf x) > 0 then
          return .inl (x, ← acc.childOf .right x)
        else return .inr none
      else return .inr (some y)

def attachBelow (z y : Addr) : Exec Rbtree Unit := do
  if y = (← nilOf) then
    setRoot z
  else if strcmp (← acc.keyOf z) (← acc.keyOf y) < 0 then
    acc.setChild .left y z
  else
    acc.setChild .right y z

def rbtreeInsert (z : Addr) : Exec Rbtree Unit := do
  let descent ←
    iterate (acc.insertDescentStep z) (← loopFuel) (← nilOf, ← rootOf)
  match descent with
  | none => return ()
  | some y => do
      acc.setParent z y
      acc.attachBelow z y
      acc.setChild .left z (← nilOf)
      acc.setChild .right z (← nilOf)
      acc.setColor z .red
      acc.rbtreeInsertFixup z

def bothChildrenBlack (w : Addr) : Exec Rbtree Bool := do
  if (← colorOf (← acc.childOf .left w)) = .black then
    return decide ((← colorOf (← acc.childOf .right w)) = .black)
  else return false

def deleteFixupFar (d : Dir) (x w : Addr) : Exec Rbtree Addr := do
  acc.setColor w (← colorOf (← acc.parentOf x))
  acc.setColor (← acc.parentOf x) .black
  acc.setColor (← acc.childOf d.flip w) .black
  acc.rotate d (← acc.parentOf x)
  rootOf

def deleteFixupBlack (d : Dir) (x w : Addr) : Exec Rbtree Addr := do
  if ← acc.bothChildrenBlack w then
    acc.setColor w .red
    acc.parentOf x
  else if (← colorOf (← acc.childOf d.flip w)) = .black then
    acc.setColor (← acc.childOf d w) .black
    acc.setColor w .red
    acc.rotate d.flip w
    acc.deleteFixupFar d x (← acc.childOf d.flip (← acc.parentOf x))
  else
    acc.deleteFixupFar d x w

def deleteFixupSide (d : Dir) (x : Addr) : Exec Rbtree Addr := do
  let w ← acc.childOf d.flip (← acc.parentOf x)
  if (← colorOf w) = .red then
    acc.setColor w .black
    acc.setColor (← acc.parentOf x) .red
    acc.rotate d (← acc.parentOf x)
    acc.deleteFixupBlack d x (← acc.childOf d.flip (← acc.parentOf x))
  else
    acc.deleteFixupBlack d x w

def deleteFixupStep (x : Addr) : Exec Rbtree (Addr ⊕ Addr) := do
  if x ≠ (← rootOf) then
    if (← colorOf x) = .black then
      if x = (← acc.childOf .left (← acc.parentOf x)) then
        return .inl (← acc.deleteFixupSide .left x)
      else
        return .inl (← acc.deleteFixupSide .right x)
    else return .inr x
  else return .inr x

def rbtreeDeleteFixup (x : Addr) : Exec Rbtree Unit := do
  let x ← iterate acc.deleteFixupStep (← loopFuel) x
  acc.setColor x .black

def swapPayload (z y : Addr) : Exec Rbtree Unit := do
  let tmp ← acc.keyPtrOf z
  acc.setKey z (← acc.keyPtrOf y)
  acc.setKey y tmp
  let tmp ← acc.valuePtrOf z
  acc.setValue z (← acc.valuePtrOf y)
  acc.setValue y tmp

def deleteVictim (z : Addr) : Exec Rbtree Addr := do
  if (← acc.childOf .left z) = (← nilOf) then return z
  else if (← acc.childOf .right z) = (← nilOf) then return z
  else acc.rbtreeSuccessor z

def onlyChild (y : Addr) : Exec Rbtree Addr := do
  if (← acc.childOf .left y) ≠ (← nilOf) then acc.childOf .left y
  else if (← acc.childOf .right y) ≠ (← nilOf) then acc.childOf .right y
  else nilOf

def spliceOut (y : Addr) : Exec Rbtree Addr := do
  let x ← acc.onlyChild y
  acc.setParent x (← acc.parentOf y)
  acc.replaceInParent .left y x
  return x

def movePayload (z y : Addr) : Exec Rbtree Unit := do
  if y ≠ z then
    acc.swapPayload z y

def repairBehind (y x : Addr) : Exec Rbtree Unit := do
  if (← colorOf y) = .black then
    acc.rbtreeDeleteFixup x

/-- The repair works with accesses of its own. -/
def rbtreeDelete (repair : NodeAccess) (z : Addr) : Exec Rbtree Addr := do
  let y ← acc.deleteVictim z
  let x ← acc.spliceOut y
  acc.movePayload z y
  repair.repairBehind y x
  return y

def searchStep (key : CString) (node : Addr) :
    Exec Rbtree (Addr ⊕ Addr) := do
  if node ≠ (← nilOf) then
    if strcmp key (← acc.keyOf node) < 0 then
      return .inl (← acc.childOf .left node)
    else if strcmp key (← acc.keyOf node) > 0 then
      return .inl (← acc.childOf .right node)
    else return .inr node
  else return .inr (← nilOf)

def rbtreeSearch (key : CString) : Exec Rbtree Addr := do
  iterate (acc.searchStep key) (← loopFuel) (← rootOf)

def rbtreeExist (key : CString) : Exec Rbtree ℤ := do
  let node ← acc.rbtreeSearch key
  if node ≠ (← nilOf) then return 0
  return -1

def rbtreeMod (A : Allocator) (key newValue : CString) :
    Exec Rbtree ℤ := do
  if (← acc.rbtreeExist key) = -1 then return -1
  let node ← acc.rbtreeSearch key
  let block ← malloc A
  if block = NULL then
    acc.setValue node none
    return -1
  acc.setValue node (some ⟨block, newValue⟩)
  return 0

def insertCopy (A : Allocator) (key value : CString) : Exec Rbtree ℤ := do
  let node ← mallocNode A
  if node = NULL then return -1
  let kcopy ← malloc A
  if kcopy = NULL then
    acc.setKey node none
    return -1
  acc.setKey node (some ⟨kcopy, key⟩)
  let vcopy ← malloc A
  if vcopy = NULL then
    acc.setValue node none
    free kcopy
    freeNode node
    return -1
  acc.setValue node (some ⟨vcopy, value⟩)
  acc.rbtreeInsert node
  modify (fun s => withCount (s.count + 1) s)
  return 0

def rbtreeSet (A : Allocator) (key value : CString) : Exec Rbtree ℤ := do
  if (← acc.rbtreeExist key) ≠ -1 then
    let ret ← acc.rbtreeMod A key value
    if ret = 0 then return 0
    else return -1
  else
    acc.insertCopy A key value

def rbtreeGet (key : CString) : Exec Rbtree CharPtr := do
  let node ← acc.rbtreeSearch key
  if node = (← nilOf) then return none
  acc.valuePtrOf node

def rbtreeDel (repair : NodeAccess) (key : CString) : Exec Rbtree ℤ := do
  let node ← acc.rbtreeSearch key
  if node = (← nilOf) then return -1
  let cur ← acc.rbtreeDelete repair node
  if cur = NULL then throw .badAddress
  modify (fun s => withCount (s.count - 1) s)
  return 0

/-- A call with one kind of accesses for the repair of a deletion, and one for
everything else. -/
def rbtreeCall (repair : NodeAccess) (A : Allocator) :
    Call → Exec Rbtree (Reply CString)
  | .set key value => do return .code (← acc.rbtreeSet A key value)
  | .get key => do return .text ((← acc.rbtreeGet key).map CharBlock.str)
  | .del key => do return .code (← acc.rbtreeDel repair key)
  | .exist key => do return .code (← acc.rbtreeExist key)
  | .count => do return .code (← rbtreeCount)

end Engine

def plain : NodeAccess where
  childOf := Rbtree.childOf
  parentOf := Rbtree.parentOf
  keyPtrOf := Rbtree.keyPtrOf
  valuePtrOf := Rbtree.valuePtrOf
  setColor := Rbtree.setColor
  setChild := Rbtree.setChild
  setParent := Rbtree.setParent
  setKey := Rbtree.setKey
  setValue := Rbtree.setValue

theorem rbtreeCall_plain (A : Allocator) :
    plain.rbtreeCall plain A = CAdvanced.rbtreeCall A := by
  funext call
  cases call <;> rfl

/-! ## Watching the sentinel -/

def apart (p : Addr) : Exec Rbtree Unit := do
  if p = (← nilOf) then throw .assertion

def staysBlack (p : Addr) (c : Color) : Exec Rbtree Unit := do
  if p = (← nilOf) ∧ c ≠ .black then throw .assertion

/-- At the sentinel only the color and the parent may be written, the color to
black; neither its parent nor any other pointer of it may be read. -/
def watched : NodeAccess where
  childOf := fun d p => do apart p; Rbtree.childOf d p
  parentOf := fun p => do apart p; Rbtree.parentOf p
  keyPtrOf := fun p => do apart p; Rbtree.keyPtrOf p
  valuePtrOf := fun p => do apart p; Rbtree.valuePtrOf p
  setColor := fun p c => do staysBlack p c; Rbtree.setColor p c
  setChild := fun d p q => do apart p; Rbtree.setChild d p q
  setParent := Rbtree.setParent
  setKey := fun p k => do apart p; Rbtree.setKey p k
  setValue := fun p v => do apart p; Rbtree.setValue p v

/-- During the repair of a deletion the sentinel's parent may be read, and not
be written. -/
def watchedRepair : NodeAccess :=
  { watched with
    parentOf := Rbtree.parentOf
    setParent := fun p q => do apart p; Rbtree.setParent p q }

end NodeAccess

def withParents (parent : Addr → Option Addr) (s : Rbtree) : Rbtree :=
  { s with parent := parent }

/-- The sentinel's parent from earlier calls is forgotten. -/
def dropNilParent (s : Rbtree) : Rbtree :=
  withParents (Function.update s.parent s.nil none) s

/-- A call under watch: what it reads of the sentinel's parent, the repair of
its own deletion has to read, and behind an assignment. -/
def watchedCall (A : Allocator) (call : Call) :
    Exec Rbtree (Reply CString) := do
  modify dropNilParent
  NodeAccess.watched.rbtreeCall NodeAccess.watchedRepair A call

end CAdvanced
