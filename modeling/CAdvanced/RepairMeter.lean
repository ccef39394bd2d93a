import CAdvanced.RbtreeProgram

/-!
# The repairs with a meter

Insertion and deletion once more, over a state that also counts the turns of
the repair loops and the rotations made in them.  Apart from the two counts a
metered function does what the function of the engine does.
-/

namespace CAdvanced

open Fallible
open RedBlack
open Rbtree

/-- A tree beside the turns and rotations so far. -/
structure Metered where
  tree : Rbtree
  turns : ℕ
  rotations : ℕ

namespace Metered

def start (s : Rbtree) : Metered := ⟨s, 0, 0⟩

@[simps] def withTree (t : Rbtree) (c : Metered) : Metered :=
  { c with tree := t }

@[simps] def afterTurn (c : Metered) : Metered :=
  { c with turns := c.turns + 1 }

@[simps] def afterRotation (c : Metered) : Metered :=
  { c with rotations := c.rotations + 1 }

@[simp] theorem withTree_self (c : Metered) : c.withTree c.tree = c := rfl

@[simp] theorem withTree_withTree (t t' : Rbtree) (c : Metered) :
    (c.withTree t).withTree t' = c.withTree t' := rfl

@[simp] theorem withTree_afterTurn (c : Metered) :
    c.afterTurn.withTree c.tree = c.afterTurn := rfl

/-- A step that no meter watches. -/
def run {α : Type} (m : Exec Rbtree α) : Exec Metered α :=
  within Metered.tree withTree m

/-- The body of a repair loop, once. -/
def turn {α : Type} (m : Exec Metered α) : Exec Metered α := do
  modify afterTurn
  m

def rotate (d : Dir) (x : Addr) : Exec Metered Unit := do
  run (CAdvanced.rotate d x)
  modify afterRotation

/-! ## The metered functions -/

def insertFixupOuter (d : Dir) (z : Addr) : Exec Metered Addr := do
  run (setColor (← run (parentOf z)) .black)
  run (setColor (← run (parentOf (← run (parentOf z)))) .red)
  rotate d.flip (← run (parentOf (← run (parentOf z))))
  return z

def insertFixupSide (d : Dir) (z : Addr) : Exec Metered Addr := do
  let y ← run (childOf d.flip (← run (parentOf (← run (parentOf z)))))
  if (← run (colorOf y)) = .red then
    run (setColor (← run (parentOf z)) .black)
    run (setColor y .black)
    run (setColor (← run (parentOf (← run (parentOf z)))) .red)
    run (parentOf (← run (parentOf z)))
  else if z = (← run (childOf d.flip (← run (parentOf z)))) then
    let z ← run (parentOf z)
    rotate d z
    insertFixupOuter d z
  else
    insertFixupOuter d z

def insertFixupStep (z : Addr) : Exec Metered (Addr ⊕ Unit) := do
  if (← run (colorOf (← run (parentOf z)))) = .red then
    turn do
      if (← run (parentOf z)) =
          (← run (childOf .left (← run (parentOf (← run (parentOf z)))))) then
        return .inl (← insertFixupSide .left z)
      else
        return .inl (← insertFixupSide .right z)
  else return .inr ()

def rbtreeInsertFixup (z : Addr) : Exec Metered Unit := do
  iterate insertFixupStep (← run loopFuel) z
  run (setColor (← run rootOf) .black)

def rbtreeInsert (z : Addr) : Exec Metered Unit := do
  let descent ← run (iterate (insertDescentStep z) (← run loopFuel)
    (← run nilOf, ← run rootOf))
  match descent with
  | none => return ()
  | some y => do
      run (setParent z y)
      run (attachBelow z y)
      run (setChild .left z (← run nilOf))
      run (setChild .right z (← run nilOf))
      run (setColor z .red)
      rbtreeInsertFixup z

def insertCopy (A : Allocator) (key value : CString) : Exec Metered ℤ := do
  let node ← run (mallocNode A)
  if node = NULL then return -1
  let kcopy ← run (malloc A)
  if kcopy = NULL then
    run (setKey node none)
    return -1
  run (setKey node (some ⟨kcopy, key⟩))
  let vcopy ← run (malloc A)
  if vcopy = NULL then
    run (setValue node none)
    run (free kcopy)
    run (freeNode node)
    return -1
  run (setValue node (some ⟨vcopy, value⟩))
  rbtreeInsert node
  run (modify (fun s => withCount (s.count + 1) s))
  return 0

def rbtreeSet (A : Allocator) (key value : CString) : Exec Metered ℤ := do
  if (← run (rbtreeExist key)) ≠ -1 then
    let ret ← run (rbtreeMod A key value)
    if ret = 0 then return 0
    else return -1
  else
    insertCopy A key value

def deleteFixupFar (d : Dir) (x w : Addr) : Exec Metered Addr := do
  run (setColor w (← run (colorOf (← run (parentOf x)))))
  run (setColor (← run (parentOf x)) .black)
  run (setColor (← run (childOf d.flip w)) .black)
  rotate d (← run (parentOf x))
  run rootOf

def deleteFixupBlack (d : Dir) (x w : Addr) : Exec Metered Addr := do
  if ← run (bothChildrenBlack w) then
    run (setColor w .red)
    run (parentOf x)
  else if (← run (colorOf (← run (childOf d.flip w)))) = .black then
    run (setColor (← run (childOf d w)) .black)
    run (setColor w .red)
    rotate d.flip w
    deleteFixupFar d x (← run (childOf d.flip (← run (parentOf x))))
  else
    deleteFixupFar d x w

def deleteFixupSide (d : Dir) (x : Addr) : Exec Metered Addr := do
  let w ← run (childOf d.flip (← run (parentOf x)))
  if (← run (colorOf w)) = .red then
    run (setColor w .black)
    run (setColor (← run (parentOf x)) .red)
    rotate d (← run (parentOf x))
    deleteFixupBlack d x (← run (childOf d.flip (← run (parentOf x))))
  else
    deleteFixupBlack d x w

def deleteFixupStep (x : Addr) : Exec Metered (Addr ⊕ Addr) := do
  if x ≠ (← run rootOf) then
    if (← run (colorOf x)) = .black then
      turn do
        if x = (← run (childOf .left (← run (parentOf x)))) then
          return .inl (← deleteFixupSide .left x)
        else
          return .inl (← deleteFixupSide .right x)
    else return .inr x
  else return .inr x

def rbtreeDeleteFixup (x : Addr) : Exec Metered Unit := do
  let x ← iterate deleteFixupStep (← run loopFuel) x
  run (setColor x .black)

def repairBehind (y x : Addr) : Exec Metered Unit := do
  if (← run (colorOf y)) = .black then
    rbtreeDeleteFixup x

def rbtreeDelete (z : Addr) : Exec Metered Addr := do
  let y ← run (deleteVictim z)
  let x ← run (spliceOut y)
  run (movePayload z y)
  repairBehind y x
  return y

def rbtreeDel (key : CString) : Exec Metered ℤ := do
  let node ← run (rbtreeSearch key)
  if node = (← run nilOf) then return -1
  let cur ← rbtreeDelete node
  if cur = NULL then throw .badAddress
  run (modify (fun s => withCount (s.count - 1) s))
  return 0

end Metered

/-! ## Rules -/

section Rules

variable {α : Type} (c : Metered)

@[simp] theorem Metered.returns_run (m : Exec Rbtree α)
    (Q : α → Metered → Prop) :
    Returns (Metered.run m) c Q ↔
      Returns m c.tree (fun a t => Q a (c.withTree t)) :=
  returns_within _ _ _ _ _

@[simp] theorem Metered.returns_turn (m : Exec Metered α)
    (Q : α → Metered → Prop) :
    Returns (Metered.turn m) c Q ↔ Returns m c.afterTurn Q := by
  simp only [Metered.turn, returns_bind, returns_modify]

@[simp] theorem Metered.returns_rotate (d : Dir) (x : Addr)
    (Q : Unit → Metered → Prop) :
    Returns (Metered.rotate d x) c Q ↔
      Returns (CAdvanced.rotate d x) c.tree
        (fun a t => Q a (c.withTree t).afterRotation) := by
  simp only [Metered.rotate, returns_bind, Metered.returns_run, returns_modify]

theorem Metered.returns_insertFixupOuter (d : Dir) (z : Addr)
    (Q : Addr → Metered → Prop) :
    Returns (Metered.insertFixupOuter d z) c Q ↔
      Returns (CAdvanced.insertFixupOuter d z) c.tree
        (fun a t => Q a (c.withTree t).afterRotation) := by
  simp only [Metered.insertFixupOuter, CAdvanced.insertFixupOuter, returns_bind,
    Metered.returns_run, Metered.returns_rotate, Metered.withTree_tree,
    Metered.withTree_withTree, returns_pure]

theorem Metered.returns_deleteFixupFar (d : Dir) (x w : Addr)
    (Q : Addr → Metered → Prop) :
    Returns (Metered.deleteFixupFar d x w) c Q ↔
      Returns (CAdvanced.deleteFixupFar d x w) c.tree
        (fun a t => Q a (c.withTree t).afterRotation) := by
  simp only [Metered.deleteFixupFar, CAdvanced.deleteFixupFar, returns_bind,
    Metered.returns_run, Metered.returns_rotate, Metered.withTree_tree,
    Metered.withTree_withTree, Metered.afterRotation_tree, rootOf,
    returns_get, returns_pure]
  rfl

/-- At most so many turns and rotations have come to the counts of `c`. -/
structure Metered.Within (c : Metered) (turns rotations : ℕ) (c' : Metered) :
    Prop where
  turns : c'.turns ≤ c.turns + turns
  rotations : c'.rotations ≤ c.rotations + rotations

theorem Metered.within_withTree (t : Rbtree) (turns rotations : ℕ) :
    c.Within turns rotations (c.withTree t) where
  turns := Nat.le_add_right _ _
  rotations := Nat.le_add_right _ _

theorem Metered.Within.of_withTree {c c' : Metered} {t : Rbtree}
    {turns rotations : ℕ} (h : (c.withTree t).Within turns rotations c') :
    c.Within turns rotations c' :=
  ⟨h.turns, h.rotations⟩

/-- No turn was counted, and rotations only if `last` holds now. -/
structure Metered.RotatesLast (c : Metered) (last : Prop) (rotations : ℕ)
    (c' : Metered) : Prop where
  turns : c'.turns = c.turns
  rotations : c'.rotations = c.rotations ∨
    last ∧ c'.rotations ≤ c.rotations + rotations

end Rules

/-! ## Without the meter -/

theorem run_mirrors {α : Type} (m : Exec Rbtree α) :
    Mirrors Metered.tree (Metered.run m) m :=
  mirrors_within (fun _ _ => rfl) m

theorem turn_mirrors {α : Type} {m : Exec Metered α} {m' : Exec Rbtree α}
    (h : Mirrors Metered.tree m m') :
    Mirrors Metered.tree (Metered.turn m) m' := by
  intro c Q
  rw [Metered.returns_turn]
  exact h c.afterTurn Q

theorem rotate_mirrors (d : Dir) (x : Addr) :
    Mirrors Metered.tree (Metered.rotate d x) (rotate d x) := by
  intro c Q
  rw [Metered.returns_rotate]
  rfl

theorem insertFixupOuter_mirrors (d : Dir) (z : Addr) :
    Mirrors Metered.tree (Metered.insertFixupOuter d z)
      (insertFixupOuter d z) := by
  apply mirrors_bind (run_mirrors _)
  intro p
  apply mirrors_bind (run_mirrors _)
  intro _
  apply mirrors_bind (run_mirrors _)
  intro p
  apply mirrors_bind (run_mirrors _)
  intro g
  apply mirrors_bind (run_mirrors _)
  intro _
  apply mirrors_bind (run_mirrors _)
  intro p
  apply mirrors_bind (run_mirrors _)
  intro g
  apply mirrors_bind (rotate_mirrors _ _)
  intro _
  exact mirrors_pure z

theorem insertFixupSide_mirrors (d : Dir) (z : Addr) :
    Mirrors Metered.tree (Metered.insertFixupSide d z)
      (insertFixupSide d z) := by
  apply mirrors_bind (run_mirrors _)
  intro p
  apply mirrors_bind (run_mirrors _)
  intro g
  apply mirrors_bind (run_mirrors _)
  intro y
  apply mirrors_bind (run_mirrors _)
  intro c
  apply mirrors_ite
  · apply mirrors_bind (run_mirrors _)
    intro p
    apply mirrors_bind (run_mirrors _)
    intro _
    apply mirrors_bind (run_mirrors _)
    intro _
    apply mirrors_bind (run_mirrors _)
    intro p
    apply mirrors_bind (run_mirrors _)
    intro g
    apply mirrors_bind (run_mirrors _)
    intro _
    apply mirrors_bind (run_mirrors _)
    intro p
    exact run_mirrors _
  · apply mirrors_bind (run_mirrors _)
    intro p
    apply mirrors_bind (run_mirrors _)
    intro q
    apply mirrors_ite _ (insertFixupOuter_mirrors d z)
    apply mirrors_bind (run_mirrors _)
    intro p
    apply mirrors_bind (rotate_mirrors d p)
    intro _
    exact insertFixupOuter_mirrors d p

theorem insertFixupStep_mirrors (z : Addr) :
    Mirrors Metered.tree (Metered.insertFixupStep z) (insertFixupStep z) := by
  apply mirrors_bind (run_mirrors _)
  intro p
  apply mirrors_bind (run_mirrors _)
  intro c
  apply mirrors_ite _ (mirrors_pure _)
  apply turn_mirrors
  apply mirrors_bind (run_mirrors _)
  intro p
  apply mirrors_bind (run_mirrors _)
  intro p'
  apply mirrors_bind (run_mirrors _)
  intro g
  apply mirrors_bind (run_mirrors _)
  intro q
  apply mirrors_ite
  · exact mirrors_bind (insertFixupSide_mirrors .left z)
      (fun _ => mirrors_pure _)
  · exact mirrors_bind (insertFixupSide_mirrors .right z)
      (fun _ => mirrors_pure _)

theorem rbtreeInsertFixup_mirrors (z : Addr) :
    Mirrors Metered.tree (Metered.rbtreeInsertFixup z)
      (rbtreeInsertFixup z) := by
  apply mirrors_bind (run_mirrors _)
  intro fuel
  apply mirrors_bind (mirrors_iterate insertFixupStep_mirrors fuel z)
  intro _
  apply mirrors_bind (run_mirrors _)
  intro root
  exact run_mirrors _

theorem rbtreeInsert_mirrors (z : Addr) :
    Mirrors Metered.tree (Metered.rbtreeInsert z) (rbtreeInsert z) := by
  apply mirrors_bind (run_mirrors _)
  intro fuel
  apply mirrors_bind (run_mirrors _)
  intro nil
  apply mirrors_bind (run_mirrors _)
  intro root
  apply mirrors_bind (run_mirrors _)
  intro descent
  cases descent with
  | none => exact mirrors_pure _
  | some y =>
      apply mirrors_bind (run_mirrors _)
      intro _
      apply mirrors_bind (run_mirrors _)
      intro _
      apply mirrors_bind (run_mirrors _)
      intro nil
      apply mirrors_bind (run_mirrors _)
      intro _
      apply mirrors_bind (run_mirrors _)
      intro nil
      apply mirrors_bind (run_mirrors _)
      intro _
      apply mirrors_bind (run_mirrors _)
      intro _
      exact rbtreeInsertFixup_mirrors z

theorem insertCopy_mirrors (A : Allocator) (key value : CString) :
    Mirrors Metered.tree (Metered.insertCopy A key value)
      (insertCopy A key value) := by
  apply mirrors_bind (run_mirrors _)
  intro node
  apply mirrors_ite (mirrors_pure _)
  apply mirrors_bind (run_mirrors _)
  intro kcopy
  apply mirrors_ite
  · exact mirrors_bind (run_mirrors _) (fun _ => mirrors_pure _)
  apply mirrors_bind (run_mirrors _)
  intro _
  apply mirrors_bind (run_mirrors _)
  intro vcopy
  apply mirrors_ite
  · apply mirrors_bind (run_mirrors _)
    intro _
    apply mirrors_bind (run_mirrors _)
    intro _
    apply mirrors_bind (run_mirrors _)
    intro _
    exact mirrors_pure _
  apply mirrors_bind (run_mirrors _)
  intro _
  apply mirrors_bind (rbtreeInsert_mirrors node)
  intro _
  apply mirrors_bind (run_mirrors _)
  intro _
  exact mirrors_pure _

theorem rbtreeSet_mirrors (A : Allocator) (key value : CString) :
    Mirrors Metered.tree (Metered.rbtreeSet A key value)
      (rbtreeSet A key value) := by
  apply mirrors_bind (run_mirrors _)
  intro found
  apply mirrors_ite _ (insertCopy_mirrors A key value)
  apply mirrors_bind (run_mirrors _)
  intro ret
  exact mirrors_ite (mirrors_pure _) (mirrors_pure _)

theorem deleteFixupFar_mirrors (d : Dir) (x w : Addr) :
    Mirrors Metered.tree (Metered.deleteFixupFar d x w)
      (deleteFixupFar d x w) := by
  apply mirrors_bind (run_mirrors _)
  intro p
  apply mirrors_bind (run_mirrors _)
  intro c
  apply mirrors_bind (run_mirrors _)
  intro _
  apply mirrors_bind (run_mirrors _)
  intro p
  apply mirrors_bind (run_mirrors _)
  intro _
  apply mirrors_bind (run_mirrors _)
  intro v
  apply mirrors_bind (run_mirrors _)
  intro _
  apply mirrors_bind (run_mirrors _)
  intro p
  apply mirrors_bind (rotate_mirrors d p)
  intro _
  exact run_mirrors rootOf

theorem deleteFixupBlack_mirrors (d : Dir) (x w : Addr) :
    Mirrors Metered.tree (Metered.deleteFixupBlack d x w)
      (deleteFixupBlack d x w) := by
  apply mirrors_bind (run_mirrors _)
  intro black
  apply mirrors_ite
  · exact mirrors_bind (run_mirrors _) (fun _ => run_mirrors _)
  · apply mirrors_bind (run_mirrors _)
    intro v
    apply mirrors_bind (run_mirrors _)
    intro c
    apply mirrors_ite _ (deleteFixupFar_mirrors d x w)
    apply mirrors_bind (run_mirrors _)
    intro v
    apply mirrors_bind (run_mirrors _)
    intro _
    apply mirrors_bind (run_mirrors _)
    intro _
    apply mirrors_bind (rotate_mirrors d.flip w)
    intro _
    apply mirrors_bind (run_mirrors _)
    intro p
    apply mirrors_bind (run_mirrors _)
    intro w
    exact deleteFixupFar_mirrors d x w

theorem deleteFixupSide_mirrors (d : Dir) (x : Addr) :
    Mirrors Metered.tree (Metered.deleteFixupSide d x)
      (deleteFixupSide d x) := by
  apply mirrors_bind (run_mirrors _)
  intro p
  apply mirrors_bind (run_mirrors _)
  intro w
  apply mirrors_bind (run_mirrors _)
  intro c
  apply mirrors_ite _ (deleteFixupBlack_mirrors d x w)
  apply mirrors_bind (run_mirrors _)
  intro _
  apply mirrors_bind (run_mirrors _)
  intro p
  apply mirrors_bind (run_mirrors _)
  intro _
  apply mirrors_bind (run_mirrors _)
  intro p
  apply mirrors_bind (rotate_mirrors d p)
  intro _
  apply mirrors_bind (run_mirrors _)
  intro p
  apply mirrors_bind (run_mirrors _)
  intro w
  exact deleteFixupBlack_mirrors d x w

theorem deleteFixupStep_mirrors (x : Addr) :
    Mirrors Metered.tree (Metered.deleteFixupStep x) (deleteFixupStep x) := by
  apply mirrors_bind (run_mirrors _)
  intro root
  apply mirrors_ite _ (mirrors_pure _)
  apply mirrors_bind (run_mirrors _)
  intro c
  apply mirrors_ite _ (mirrors_pure _)
  apply turn_mirrors
  apply mirrors_bind (run_mirrors _)
  intro p
  apply mirrors_bind (run_mirrors _)
  intro q
  apply mirrors_ite
  · exact mirrors_bind (deleteFixupSide_mirrors .left x)
      (fun _ => mirrors_pure _)
  · exact mirrors_bind (deleteFixupSide_mirrors .right x)
      (fun _ => mirrors_pure _)

theorem repairBehind_mirrors (y x : Addr) :
    Mirrors Metered.tree (Metered.repairBehind y x) (repairBehind y x) := by
  apply mirrors_bind (run_mirrors _)
  intro c
  apply mirrors_ite _ (mirrors_pure _)
  apply mirrors_bind (run_mirrors _)
  intro fuel
  apply mirrors_bind (mirrors_iterate deleteFixupStep_mirrors fuel x)
  intro x
  exact run_mirrors _

theorem rbtreeDelete_mirrors (z : Addr) :
    Mirrors Metered.tree (Metered.rbtreeDelete z) (rbtreeDelete z) := by
  apply mirrors_bind (run_mirrors _)
  intro y
  apply mirrors_bind (run_mirrors _)
  intro x
  apply mirrors_bind (run_mirrors _)
  intro _
  apply mirrors_bind (repairBehind_mirrors y x)
  intro _
  exact mirrors_pure y

theorem rbtreeDel_mirrors (key : CString) :
    Mirrors Metered.tree (Metered.rbtreeDel key) (rbtreeDel key) := by
  apply mirrors_bind (run_mirrors _)
  intro node
  apply mirrors_bind (run_mirrors _)
  intro nil
  apply mirrors_ite (mirrors_pure _)
  apply mirrors_bind (rbtreeDelete_mirrors node)
  intro cur
  apply mirrors_ite (mirrors_throw _)
  apply mirrors_bind (run_mirrors _)
  intro _
  exact mirrors_pure _

end CAdvanced
