import CAdvanced.StoreCalls

/-!
# The hash engine

The functions of `kvstore_hash.c`.  The slot array is one block with an
address for each slot, a node's fields are partial functions of its address.
Whether plain `char` is signed is left to the implementation, and an `int` sum
that leaves its range is a fault.  The pointer to the engine itself is never
null.
-/

namespace CAdvanced

open Fallible

abbrev maxTableSize : ℕ := 1024

abbrev HashSlot := Fin maxTableSize

/-! ## The hash function -/

inductive PlainChar
  | signed
  | unsigned
  deriving DecidableEq

def PlainChar.value : PlainChar → UInt8 → ℤ
  | .unsigned, b => b.toNat
  | .signed, b => if b.toNat < 128 then b.toNat else b.toNat - 256

def intMax : ℤ := 2147483647

def inInt (n : ℤ) : Prop := -intMax - 1 ≤ n ∧ n ≤ intMax

instance (n : ℤ) : Decidable (inInt n) :=
  inferInstanceAs (Decidable (_ ∧ _))

/-- The summing loop; `none` when `sum` or the index leaves `int`. -/
def sumChars (ch : PlainChar) : List UInt8 → ℤ → ℤ → Option ℤ
  | [], sum, _ => some sum
  | b :: rest, sum, i =>
      if inInt (sum + ch.value b) ∧ inInt (i + 1) then
        sumChars ch rest (sum + ch.value b) (i + 1)
      else none

/-- `_hash`; the remainder of C has the sign of the sum. -/
def hash (ch : PlainChar) {σ : Type} (key : CString) (size : ℤ) :
    Exec σ ℤ :=
  match sumChars ch key.bytes 0 0 with
  | some sum => pure (sum.tmod size)
  | none => throw .intOverflow

/-! ## The table -/

/-- `count` is an `int` of the source, and this number as long as there are less
than 2^31 nodes. -/
structure HashTable where
  arena : Arena
  nodes : Addr
  slots : HashSlot → Addr
  maxSlots : ℤ
  count : ℤ
  key : Addr → Option CharPtr
  value : Addr → Option CharPtr
  next : Addr → Option Addr

instance : HasArena HashTable where
  arena := HashTable.arena
  withArena := fun r s => { s with arena := r }

theorem toNat_lt_maxTableSize {idx : ℤ} (h : 0 ≤ idx ∧ idx < maxTableSize) :
    idx.toNat < maxTableSize := by
  omega

namespace HashTable

@[simps] def withNodes (p : Addr) (s : HashTable) : HashTable :=
  { s with nodes := p }

@[simps] def withSlots (slots : HashSlot → Addr) (s : HashTable) : HashTable :=
  { s with slots := slots }

@[simps] def withMaxSlots (n : ℤ) (s : HashTable) : HashTable :=
  { s with maxSlots := n }

@[simps] def withCount (n : ℤ) (s : HashTable) : HashTable :=
  { s with count := n }

@[simps] def withKey (p : Addr) (k : CharPtr) (s : HashTable) : HashTable :=
  { s with key := Function.update s.key p (some k) }

@[simps] def withValue (p : Addr) (v : CharPtr) (s : HashTable) : HashTable :=
  { s with value := Function.update s.value p (some v) }

@[simps] def withNext (p q : Addr) (s : HashTable) : HashTable :=
  { s with next := Function.update s.next p (some q) }

@[simps] def forget (p : Addr) (s : HashTable) : HashTable :=
  { s with
    key := Function.update s.key p none
    value := Function.update s.value p none
    next := Function.update s.next p none }

def isLive (p : Addr) (s : HashTable) : Bool := p ∈ s.arena.live

def keyPtrOf (p : Addr) : Exec HashTable CharPtr := load (fun s => s.key p)

def valuePtrOf (p : Addr) : Exec HashTable CharPtr :=
  load (fun s => s.value p)

def nextOf (p : Addr) : Exec HashTable Addr := load (fun s => s.next p)

/-- The text behind a node's key pointer, as `strcmp` reads it. -/
def keyOf (p : Addr) : Exec HashTable CString := do
  match ← keyPtrOf p with
  | some block => pure block.str
  | none => throw .badAddress

def setKey (p : Addr) (k : CharPtr) : Exec HashTable Unit :=
  store (isLive p) (withKey p k)

def setValue (p : Addr) (v : CharPtr) : Exec HashTable Unit :=
  store (isLive p) (withValue p v)

def setNext (p q : Addr) : Exec HashTable Unit :=
  store (isLive p) (withNext p q)

/-- The slot at an index of the array `nodes`. -/
def slotOf (idx : ℤ) : Exec HashTable HashSlot := do
  if (← get).nodes ∉ (← get).arena.live then throw .badAddress
  else if h : 0 ≤ idx ∧ idx < maxTableSize then
    pure ⟨idx.toNat, toNat_lt_maxTableSize h⟩
  else throw .outOfBounds

def headOf (idx : ℤ) : Exec HashTable Addr := do
  let i ← slotOf idx
  return (← get).slots i

def setHead (idx : ℤ) (p : Addr) : Exec HashTable Unit := do
  let i ← slotOf idx
  modify (fun s => withSlots (Function.update s.slots i p) s)

def freeNode (p : Addr) : Exec HashTable Unit := do
  free p
  modify (forget p)

/-- The loops run along one chain. -/
def loopFuel : Exec HashTable ℕ := do return (← get).arena.live.length + 1

end HashTable

open HashTable

/-! ## Creation -/

/-- `content` is what the block held before: `kvstore_malloc` promises
nothing about it, and nothing clears it. -/
def createHashtable (A : Allocator) (content : HashSlot → Addr) :
    Exec HashTable ℤ := do
  let nodes ← malloc A
  modify (withNodes nodes)
  if nodes = NULL then return -1
  else do
    modify (withSlots content)
    modify (withMaxSlots maxTableSize)
    modify (withCount 0)
    return 0

/-- A node with copies of key and value, or a null pointer. -/
def createNode (A : Allocator) (key value : CString) :
    Exec HashTable Addr := do
  let node ← malloc A
  if node = NULL then return NULL
  else do
    modify (forget node)
    let kcopy ← copyText A key
    setKey node kcopy
    if kcopy = none then
      freeNode node
      return NULL
    else do
      let vcopy ← copyText A value
      setValue node vcopy
      if vcopy = none then
        freeText kcopy
        freeNode node
        return NULL
      else do
        setNext node NULL
        return node

/-! ## Lookup -/

/-- One test of a loop that looks for a key along a chain: `hit` answers for
the node that has it, `missing` when the chain ends. -/
def chainStep (key : CString) {ρ : Type} (hit : Addr → Exec HashTable ρ)
    (missing : ρ) (node : Addr) : Exec HashTable (Addr ⊕ ρ) := do
  if node ≠ NULL then
    if strcmp (← keyOf node) key = 0 then
      return .inr (← hit node)
    else return .inl (← nextOf node)
  else return .inr missing

def searchChain (key : CString) {ρ : Type} (hit : Addr → Exec HashTable ρ)
    (missing : ρ) (idx : ℤ) : Exec HashTable ρ := do
  iterate (chainStep key hit missing) (← loopFuel) (← headOf idx)

def getKvHashtable (ch : PlainChar) (key : Option CString) :
    Exec HashTable CharPtr := do
  match key with
  | none => return none
  | some key =>
      let idx ← hash ch key maxTableSize
      searchChain key valuePtrOf none idx

def kvExist (ch : PlainChar) (key : Option CString) : Exec HashTable ℤ := do
  match ← getKvHashtable ch key with
  | some _ => return 0
  | none => return -1

def countHashtable : Exec HashTable ℤ := do return (← get).count

/-! ## Update -/

/-- The old value is released before the new one is requested; a refused
request ends in an assertion. -/
def replaceValue (A : Allocator) (value : CString) (node : Addr) :
    Exec HashTable ℤ := do
  freeText (← valuePtrOf node)
  let vcopy ← copyText A value
  setValue node vcopy
  if vcopy = none then throw .assertion
  else return 0

def modKvHashtable (ch : PlainChar) (A : Allocator)
    (key value : Option CString) : Exec HashTable ℤ := do
  match key, value with
  | some key, some value =>
      let idx ← hash ch key maxTableSize
      searchChain key (replaceValue A value) (-1) idx
  | _, _ => return -1

/-- `put_kv_hashtable` on a key that is not stored.  The new node is not
tested for null. -/
def pushNode (A : Allocator) (key value : CString) (idx : ℤ) :
    Exec HashTable ℤ := do
  let newNode ← createNode A key value
  setNext newNode (← headOf idx)
  setHead idx newNode
  modify (fun s => withCount (s.count + 1) s)
  return 0

def putKvHashtable (ch : PlainChar) (A : Allocator)
    (key value : Option CString) : Exec HashTable ℤ := do
  match key, value with
  | some key, some value =>
      let idx ← hash ch key maxTableSize
      if (← kvExist ch (some key)) ≠ -1 then
        let ret ← modKvHashtable ch A (some key) (some value)
        if ret = 0 then return 0
        else return -1
      else pushNode A key value idx
  | _, _ => return -1

/-! ## Deletion -/

def dropNode (node : Addr) : Exec HashTable Unit := do
  freeText (← keyPtrOf node)
  freeText (← valuePtrOf node)
  freeNode node
  modify (fun s => withCount (s.count - 1) s)

def unlinkHead (idx : ℤ) (head : Addr) : Exec HashTable Unit := do
  setHead idx (← nextOf head)
  dropNode head

def unlinkNext (cur tmp : Addr) : Exec HashTable Unit := do
  setNext cur (← nextOf tmp)
  dropNode tmp

/-- The search stops at the last node, or before the one with the key. -/
def deleteStep (key : CString) (cur : Addr) :
    Exec HashTable (Addr ⊕ Addr) := do
  if (← nextOf cur) ≠ NULL then
    if strcmp (← keyOf (← nextOf cur)) key = 0 then return .inr cur
    else return .inl (← nextOf cur)
  else return .inr cur

/-- `delete_kv_hashtable` behind the head of the chain. -/
def deleteBehind (key : CString) (head : Addr) : Exec HashTable ℤ := do
  let cur ← iterate (deleteStep key) (← loopFuel) head
  let tmp ← nextOf cur
  if tmp = NULL then return -1
  else do
    unlinkNext cur tmp
    return 0

def deleteKvHashtable (ch : PlainChar) (key : Option CString) :
    Exec HashTable ℤ := do
  match key with
  | none => return -2
  | some key =>
      let idx ← hash ch key maxTableSize
      let head ← headOf idx
      if head = NULL then return -1
      else if strcmp (← keyOf head) key = 0 then
        unlinkHead idx head
        return 0
      else deleteBehind key head

/-! ## Destruction -/

def destroyChainStep (idx : ℤ) (node : Addr) :
    Exec HashTable (Addr ⊕ Unit) := do
  if node ≠ NULL then
    let next ← nextOf node
    setHead idx next
    freeNode node
    return .inl next
  else return .inr ()

def destroyChain (idx : ℤ) : Exec HashTable Unit := do
  iterate (destroyChainStep idx) (← loopFuel) (← headOf idx)

def destroySlotStep (idx : ℤ) : Exec HashTable (ℤ ⊕ Unit) := do
  if idx < (← get).maxSlots then
    destroyChain idx
    return .inl (idx + 1)
  else return .inr ()

/-- Keys and values are not released. -/
def destroyHashtable : Exec HashTable Unit := do
  iterate destroySlotStep ((← get).maxSlots.toNat + 1) 0
  free (← get).nodes

end CAdvanced
