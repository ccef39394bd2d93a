import CAdvanced.LinkedTree

/-!
# The trees of the coroutine library

The functions that `RB_GENERATE` of `nty_tree.h` makes for a tree, with the
fields of its nodes in linked entries.  Left and right are told apart by a
direction where the source has one branch for each.  `fuel` bounds the turns of
every loop.
-/

namespace CAdvanced

open Fallible
open LinkedTree
open RedBlack

namespace NtyTree

variable {ν : Type} [DecidableEq ν]

/-! ## Fields -/

def rbRoot : Exec (Heap ν) (Option ν) := return (← get).root

def setRbRoot (p : Option ν) : Exec (Heap ν) Unit :=
  modify (fun s => { s with root := p })

/-- `RB_LEFT` and `RB_RIGHT`. -/
def rbChild (d : Dir) (elm : Option ν) : Exec (Heap ν) (Option ν) :=
  field (Entry.child d) elm

def rbParent (elm : Option ν) : Exec (Heap ν) (Option ν) :=
  field Entry.parent elm

def rbColor (elm : Option ν) : Exec (Heap ν) Color :=
  field Entry.color elm

def setRbChild (d : Dir) (elm p : Option ν) : Exec (Heap ν) Unit :=
  assign (Entry.withChild d p) elm

def setRbParent (elm p : Option ν) : Exec (Heap ν) Unit :=
  assign (Entry.withParent p) elm

def setRbColor (elm : Option ν) (c : Color) : Exec (Heap ν) Unit :=
  assign (Entry.withColor c) elm

/-- `RB_SET` on a node whose fields need not be assigned yet. -/
def rbSet (elm : ν) (parent : Option ν) : Exec (Heap ν) Unit :=
  modify (setEntry elm ⟨none, none, parent, .red⟩)

def rbSetBlackred (black red : Option ν) : Exec (Heap ν) Unit := do
  setRbColor black .black
  setRbColor red .red

/-- `tmp && RB_COLOR(tmp, field) == RB_RED`. -/
def isRed : Option ν → Exec (Heap ν) Bool
  | none => return false
  | some x => return (← rbColor (some x)) = .red

/-! ## Rotation -/

/-- `new` takes the place of `old` below `parent`, or in the head. -/
def replaceChild (parent old new : Option ν) : Exec (Heap ν) Unit := do
  if parent.isSome then do
    if (← rbChild .left parent) = old then setRbChild .left parent new
    else setRbChild .right parent new
  else setRbRoot new

/-- A child of `tmp` gets `elm` as its parent. -/
def adoptChild (d : Dir) (elm tmp : Option ν) : Exec (Heap ν) Unit := do
  if (← rbChild d tmp).isSome then setRbParent (← rbChild d tmp) elm

/-- `RB_ROTATE_LEFT` and `RB_ROTATE_RIGHT`. -/
def rbRotate (d : Dir) (elm : Option ν) : Exec (Heap ν) Unit := do
  let tmp ← rbChild d.flip elm
  setRbChild d.flip elm (← rbChild d tmp)
  adoptChild d elm tmp
  setRbParent tmp (← rbParent elm)
  replaceChild (← rbParent elm) elm tmp
  setRbChild d tmp elm
  setRbParent elm tmp

variable (fuel : ℕ)

/-! ## Insertion -/

/-- The end of a turn without `continue`: `elm` is the outer child now. -/
def insertColorOuter (d : Dir) (elm parent gparent : Option ν) :
    Exec (Heap ν) (Option ν) := do
  rbSetBlackred parent gparent
  rbRotate d.flip gparent
  return elm

/-- A turn with `parent` as the child of `gparent` in direction `d`. -/
def insertColorSide (d : Dir) (elm parent gparent : Option ν) :
    Exec (Heap ν) (Option ν) := do
  let tmp ← rbChild d.flip gparent
  if ← isRed tmp then do
    setRbColor tmp .black
    rbSetBlackred parent gparent
    return gparent
  else if (← rbChild d.flip parent) = elm then do
    rbRotate d parent
    insertColorOuter d parent elm gparent
  else insertColorOuter d elm parent gparent

def insertColorStep (elm : Option ν) : Exec (Heap ν) (Option ν ⊕ Unit) := do
  let parent ← rbParent elm
  if ← isRed parent then do
    let gparent ← rbParent parent
    if parent = (← rbChild .left gparent) then
      return .inl (← insertColorSide .left elm parent gparent)
    else return .inl (← insertColorSide .right elm parent gparent)
  else return .inr ()

/-- `RB_INSERT_COLOR`. -/
def rbInsertColor (elm : Option ν) : Exec (Heap ν) Unit := do
  iterate insertColorStep fuel elm
  setRbColor (← rbRoot) .black

/-- The loops of `RB_INSERT` and `RB_FIND`: `comp` compares what is looked for
with `parent`, of which `tmp` is a child. -/
def searchStep (cmp : ν → ℤ) : Option ν × ℤ × Option ν →
    Exec (Heap ν) ((Option ν × ℤ × Option ν) ⊕ (ν ⊕ (Option ν × ℤ)))
  | (parent, comp, none) => return .inr (.inr (parent, comp))
  | (_, _, some tmp) => do
      let comp := cmp tmp
      if comp < 0 then return .inl (some tmp, comp, ← rbChild .left (some tmp))
      else if 0 < comp then
        return .inl (some tmp, comp, ← rbChild .right (some tmp))
      else return .inr (.inl tmp)

def search (cmp : ν → ℤ) : Exec (Heap ν) (ν ⊕ (Option ν × ℤ)) := do
  iterate (searchStep cmp) fuel (none, 0, ← rbRoot)

/-- `elm` becomes a red leaf below `parent`. -/
def rbAttach (elm : ν) (parent : Option ν) (comp : ℤ) :
    Exec (Heap ν) Unit := do
  rbSet elm parent
  if parent.isSome then do
    if comp < 0 then setRbChild .left parent (some elm)
    else setRbChild .right parent (some elm)
  else setRbRoot (some elm)

/-- `RB_INSERT`; a node that has the key already is returned. -/
def rbInsert (cmp : ν → ν → ℤ) (elm : ν) : Exec (Heap ν) (Option ν) := do
  match ← search fuel (cmp elm) with
  | .inl tmp => return some tmp
  | .inr (parent, comp) => do
      rbAttach elm parent comp
      rbInsertColor fuel (some elm)
      return none

/-! ## Lookup -/

/-- `RB_FIND`. -/
def rbFind (cmp : ν → ℤ) : Exec (Heap ν) (Option ν) := do
  match ← search fuel cmp with
  | .inl tmp => return some tmp
  | .inr _ => return none

def nfindStep (cmp : ν → ℤ) : Option ν × Option ν →
    Exec (Heap ν) ((Option ν × Option ν) ⊕ Option ν)
  | (res, none) => return .inr res
  | (res, some tmp) => do
      let comp := cmp tmp
      if comp < 0 then return .inl (some tmp, ← rbChild .left (some tmp))
      else if 0 < comp then return .inl (res, ← rbChild .right (some tmp))
      else return .inr (some tmp)

/-- `RB_NFIND`. -/
def rbNfind (cmp : ν → ℤ) : Exec (Heap ν) (Option ν) := do
  iterate (nfindStep cmp) fuel (none, ← rbRoot)

def minmaxStep (d : Dir) : Option ν × Option ν →
    Exec (Heap ν) ((Option ν × Option ν) ⊕ Option ν)
  | (parent, none) => return .inr parent
  | (_, some tmp) => return .inl (some tmp, ← rbChild d (some tmp))

/-- `RB_MINMAX`, with the direction for the sign of `val`. -/
def rbMinmax (d : Dir) : Exec (Heap ν) (Option ν) := do
  iterate (minmaxStep d) fuel (none, ← rbRoot)

def rbMin : Exec (Heap ν) (Option ν) := rbMinmax fuel .left

def rbMax : Exec (Heap ν) (Option ν) := rbMinmax fuel .right

/-- The loops that go down on one side as long as there is a child. -/
def outermostStep (d : Dir) (elm : Option ν) :
    Exec (Heap ν) (Option ν ⊕ Option ν) := do
  let next ← rbChild d elm
  if next.isSome then return .inl next else return .inr elm

/-- `RB_PARENT(elm, field) && elm == RB_LEFT(RB_PARENT(elm, field), field)`, and
the same with `RB_RIGHT`. -/
def isChild (d : Dir) (elm : Option ν) : Exec (Heap ν) Bool := do
  let parent ← rbParent elm
  if parent.isSome then return elm = (← rbChild d parent) else return false

def ascendStep (d : Dir) (elm : Option ν) :
    Exec (Heap ν) (Option ν ⊕ Option ν) := do
  if ← isChild d elm then return .inl (← rbParent elm) else return .inr elm

/-- `RB_NEXT` and `RB_PREV`, which go on in direction `d`. -/
def rbAdvance (d : Dir) (elm : Option ν) : Exec (Heap ν) (Option ν) := do
  let below ← rbChild d elm
  if below.isSome then iterate (outermostStep d.flip) fuel below
  else if ← isChild d.flip elm then rbParent elm
  else rbParent (← iterate (ascendStep d) fuel elm)

def rbNext : Option ν → Exec (Heap ν) (Option ν) := rbAdvance fuel .right

def rbPrev : Option ν → Exec (Heap ν) (Option ν) := rbAdvance fuel .left

/-! ## Removal -/

/-- A red sibling is rotated away. -/
def settleSibling (d : Dir) (parent : Option ν) :
    Exec (Heap ν) (Option ν) := do
  let tmp ← rbChild d.flip parent
  if (← rbColor tmp) = .red then do
    rbSetBlackred tmp parent
    rbRotate d parent
    rbChild d.flip parent
  else return tmp

/-- The outer child of the sibling becomes red. -/
def turnSibling (d : Dir) (parent tmp : Option ν) :
    Exec (Heap ν) (Option ν) := do
  if ← isRed (← rbChild d.flip tmp) then return tmp
  else do
    let oleft ← rbChild d tmp
    if oleft.isSome then setRbColor oleft .black
    setRbColor tmp .red
    rbRotate d.flip tmp
    rbChild d.flip parent

/-- One of the children is red. -/
def eitherRed (tmp : Option ν) : Exec (Heap ν) Bool := do
  return (← isRed (← rbChild .left tmp)) || (← isRed (← rbChild .right tmp))

/-- The end of the last turn. -/
def removeColorLast (d : Dir) (parent tmp : Option ν) :
    Exec (Heap ν) (Option ν) := do
  setRbColor tmp (← rbColor parent)
  setRbColor parent .black
  if (← rbChild d.flip tmp).isSome then
    setRbColor (← rbChild d.flip tmp) .black
  rbRotate d parent
  rbRoot

/-- A turn from where the sibling is black. -/
def removeColorBlack (d : Dir) (parent tmp : Option ν) :
    Exec (Heap ν) ((Option ν × Option ν) ⊕ Option ν) := do
  if ← eitherRed tmp then do
    let tmp ← turnSibling d parent tmp
    return .inr (← removeColorLast d parent tmp)
  else do
    setRbColor tmp .red
    return .inl (← rbParent parent, parent)

/-- A turn with `elm` as the child of `parent` in direction `d`. -/
def removeColorSide (d : Dir) (parent : Option ν) :
    Exec (Heap ν) ((Option ν × Option ν) ⊕ Option ν) := do
  removeColorBlack d parent (← settleSibling d parent)

def removeColorStep : Option ν × Option ν →
    Exec (Heap ν) ((Option ν × Option ν) ⊕ Option ν)
  | (parent, elm) => do
      if (← isRed elm) || elm = (← rbRoot) then return .inr elm
      else if (← rbChild .left parent) = elm then removeColorSide .left parent
      else removeColorSide .right parent

/-- `RB_REMOVE_COLOR`. -/
def rbRemoveColor (parent elm : Option ν) : Exec (Heap ν) Unit := do
  let elm ← iterate removeColorStep fuel (parent, elm)
  if elm.isSome then setRbColor elm .black

/-- `child` takes the place of `elm` below `parent`. -/
def spliceOut (parent elm child : Option ν) : Exec (Heap ν) Unit := do
  if child.isSome then setRbParent child parent
  replaceChild parent elm child

/-- A node without a child on one side. -/
def removeOuter (elm child : Option ν) : Exec (Heap ν) (Option ν) := do
  let parent ← rbParent elm
  let color ← rbColor elm
  spliceOut parent elm child
  if color = .black then rbRemoveColor fuel parent child
  return elm

/-- `elm` takes over the fields of `old`, and its place. -/
def takeOver (old elm : Option ν) : Exec (Heap ν) Unit := do
  let fields ← field id old
  assign (fun _ => fields) elm
  replaceChild (← rbParent old) old elm
  setRbParent (← rbChild .left old) elm
  adoptChild .right elm old

/-- The loop for `RB_AUGMENT`, which does nothing. -/
def augmentStep (left : Option ν) : Exec (Heap ν) (Option ν ⊕ Unit) := do
  let left ← rbParent left
  if left.isSome then return .inl left else return .inr ()

/-- A node with two children leaves its place to its successor. -/
def removeInner (old : Option ν) : Exec (Heap ν) (Option ν) := do
  let elm ← iterate (outermostStep .left) fuel (← rbChild .right old)
  let child ← rbChild .right elm
  let parent ← rbParent elm
  let color ← rbColor elm
  spliceOut parent elm child
  let parent := if (← rbParent elm) = old then elm else parent
  takeOver old elm
  if parent.isSome then iterate augmentStep fuel parent
  if color = .black then rbRemoveColor fuel parent child
  return old

/-- `RB_REMOVE`. -/
def rbRemove (elm : Option ν) : Exec (Heap ν) (Option ν) := do
  if (← rbChild .left elm).isNone then
    removeOuter fuel elm (← rbChild .right elm)
  else if (← rbChild .right elm).isNone then
    removeOuter fuel elm (← rbChild .left elm)
  else removeInner fuel elm

end NtyTree

end CAdvanced
