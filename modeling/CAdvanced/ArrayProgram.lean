import CAdvanced.CString

/-!
# The array engine

The functions of `kvstore_array.c`.  The table is the list of slots of one
block; an access outside of it is a fault.  The pointer to the engine itself is
never null.
-/

namespace CAdvanced

open Fallible

abbrev kvsArraySize : ℕ := 1024

structure KvsArrayItem where
  key : CharPtr
  value : CharPtr

structure KvsArray where
  arena : Arena
  arrayTable : Addr
  slots : List KvsArrayItem
  arrayIndex : ℤ

instance : HasArena KvsArray where
  arena := KvsArray.arena
  withArena := fun r s => { s with arena := r }

namespace KvsArray

@[simps] def withSlot (i : ℕ) (item : KvsArrayItem) (s : KvsArray) :
    KvsArray :=
  { s with slots := s.slots.set i item }

@[simps] def withIndex (i : ℤ) (s : KvsArray) : KvsArray :=
  { s with arrayIndex := i }

/-- `array_table[i]` as it is read. -/
def itemAt (i : ℤ) : Exec KvsArray KvsArrayItem := do
  let s ← get
  if s.arrayTable ∉ s.arena.live then throw .badAddress
  else if i < 0 then throw .outOfBounds
  else
    match s.slots[i.toNat]? with
    | some item => pure item
    | none => throw .outOfBounds

/-- `array_table[i]` as it is written. -/
def setItem (i : ℤ) (item : KvsArrayItem) : Exec KvsArray Unit := do
  let s ← get
  if s.arrayTable ∉ s.arena.live then throw .badAddress
  else if i < 0 ∨ s.slots.length ≤ i.toNat then throw .outOfBounds
  else modify (withSlot i.toNat item)

/-- Assignments to fields of `array_table[i]`. -/
def updateItem (i : ℤ) (f : KvsArrayItem → KvsArrayItem) :
    Exec KvsArray Unit := do
  setItem i (f (← itemAt i))

def indexOf : Exec KvsArray ℤ := do return (← get).arrayIndex

def setIndex (i : ℤ) : Exec KvsArray Unit := modify (withIndex i)

/-- Every loop runs over the indices below `array_index`. -/
def loopFuel : Exec KvsArray ℕ := do return (← get).arrayIndex.toNat + 1

end KvsArray

open KvsArray

def arrayCreate (A : Allocator) : Exec KvsArray ℤ := do
  let table ← malloc A
  modify (fun s => { s with arrayTable := table })
  if table = NULL then return -1
  modify (fun s =>
    { s with slots := List.replicate kvsArraySize ⟨none, none⟩ })
  setIndex 0
  return 0

/-- The release stands behind the test for a missing table; keys and values
are not looked at. -/
def arrayDestroy : Exec KvsArray Unit := do
  let s ← get
  if s.arrayTable = NULL then free s.arrayTable

def arrayExistStep (key : CString) (i : ℤ) : Exec KvsArray (ℤ ⊕ ℤ) := do
  if i < (← indexOf) then
    match (← itemAt i).key with
    | none => throw .badAddress
    | some block =>
        if strcmp block.str key = 0 then return .inr i
        else return .inl (i + 1)
  else return .inr (-1)

/-- The index of the key, or `-1`. -/
def arrayExist (key : CString) : Exec KvsArray ℤ := do
  iterate (arrayExistStep key) (← loopFuel) 0

def arrayMod (A : Allocator) (key : Option CString) (newValue : CString) :
    Exec KvsArray ℤ := do
  match key with
  | none => return -1
  | some key =>
      let i ← arrayExist key
      if i = -1 then return 1
      let tmp := (← itemAt i).value
      match ← copyText A newValue with
      | none => return -1
      | some vcopy =>
          updateItem i (fun item => { item with value := some vcopy })
          freeText tmp
          return 0

/-- `array_set` on a key that is not stored. -/
def arrayAppend (A : Allocator) (key value : CString) : Exec KvsArray ℤ := do
  match ← copyText A key with
  | none => return -1
  | some kcopy =>
      match ← copyText A value with
      | none =>
          free kcopy.addr
          return -1
      | some vcopy =>
          let i ← indexOf
          updateItem i (fun item => { item with key := some kcopy })
          updateItem i (fun item => { item with value := some vcopy })
          setIndex (i + 1)
          return 0

/-- The capacity test comes first; the outcome of the update is ignored. -/
def arraySet (A : Allocator) (key value : Option CString) :
    Exec KvsArray ℤ := do
  match key, value with
  | some key, some value =>
      if (← indexOf) = kvsArraySize then return -1
      if (← arrayExist key) ≠ -1 then
        let _ ← arrayMod A (some key) value
        return 0
      else arrayAppend A key value
  | _, _ => return -1

def arrayGet (key : Option CString) : Exec KvsArray CharPtr := do
  match key with
  | none => return none
  | some key =>
      let i ← arrayExist key
      if i = -1 then return none
      return (← itemAt i).value

def arrayShiftStep (j : ℤ) : Exec KvsArray (ℤ ⊕ Unit) := do
  if j < (← indexOf) - 1 then
    setItem j (← itemAt (j + 1))
    return .inl (j + 1)
  else return .inr ()

def arrayDel (key : Option CString) : Exec KvsArray ℤ := do
  match key with
  | none => return -1
  | some key =>
      let i ← arrayExist key
      if i = -1 then return -1
      freeText (← itemAt i).key
      freeText (← itemAt i).value
      updateItem i (fun item => { item with key := none })
      updateItem i (fun item => { item with value := none })
      iterate arrayShiftStep (← loopFuel) i
      setIndex ((← indexOf) - 1)
      return 0

def arrayCount : Exec KvsArray ℤ := indexOf

end CAdvanced
