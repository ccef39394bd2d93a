import CAdvanced.ArrayProgram
import CAdvanced.HashProgram
import CAdvanced.RbtreeProgram
import CAdvanced.StringTokens

/-!
# The request protocol

The functions of `kvstore.c`.  A token is a position in the receive buffer, and
an entry of the token array that nothing was stored in cannot be read.  Log
output is left out, but the indices at which `commands` is read are recorded.
Each engine has its own ledger of blocks.
-/

namespace CAdvanced

open Fallible

abbrev bufferLength : ℕ := 1024

abbrev kvstoreMaxTokens : ℕ := 128

structure Connection where
  rbuffer : List UInt8
  rlength : ℤ
  wbuffer : List UInt8
  wlength : ℤ

/-- `connection_t item = {0}`. -/
def Connection.fresh : Connection where
  rbuffer := List.replicate bufferLength 0
  rlength := 0
  wbuffer := List.replicate bufferLength 0
  wlength := 0

/-- The bytes that `recv` puts at the front of the receive buffer. -/
def Connection.receive (bytes : List UInt8) (item : Connection) :
    Connection :=
  { item with rbuffer := bytes ++ item.rbuffer.drop bytes.length }

structure Server where
  item : Connection
  array : KvsArray
  tree : Rbtree
  hash : HashTable
  commandReads : List ℕ

namespace Server

@[simps] def withItem (item : Connection) (s : Server) : Server :=
  { s with item := item }

@[simps] def withRbuffer (buf : List UInt8) (s : Server) : Server :=
  { s with item := { s.item with rbuffer := buf } }

@[simps] def withWbuffer (buf : List UInt8) (s : Server) : Server :=
  { s with item := { s.item with wbuffer := buf } }

@[simps] def withRlength (n : ℤ) (s : Server) : Server :=
  { s with item := { s.item with rlength := n } }

@[simps] def withWlength (n : ℤ) (s : Server) : Server :=
  { s with item := { s.item with wlength := n } }

@[simps] def withCommandReads (reads : List ℕ) (s : Server) : Server :=
  { s with commandReads := reads }

/-- Everything but the engines. -/
@[simps] def withFront (item : Connection) (reads : List ℕ) (s : Server) :
    Server :=
  { s with item := item, commandReads := reads }

end Server

open Server

/-! ## The engines behind the protocol -/

/-- The wrappers around the operations of one engine. -/
structure EngineOps (σ : Type) where
  set : CString → CString → Exec σ ℤ
  get : CString → Exec σ CharPtr
  del : CString → Exec σ ℤ
  exist : CString → Exec σ ℤ
  count : Exec σ ℤ

/-- A part of the server apart from the connection. -/
structure Component (τ : Type) where
  read : Server → τ
  write : τ → Server → Server
  write_read : ∀ s, write (read s) s = s
  read_write : ∀ t s, read (write t s) = t
  write_write : ∀ t t' s, write t' (write t s) = write t' s
  item_write : ∀ t s, (write t s).item = s.item

def EngineOps.on {τ : Type} (ops : EngineOps τ) (part : Component τ) :
    EngineOps Server where
  set := fun key value => within part.read part.write (ops.set key value)
  get := fun key => within part.read part.write (ops.get key)
  del := fun key => within part.read part.write (ops.del key)
  exist := fun key => within part.read part.write (ops.exist key)
  count := within part.read part.write ops.count

/-- `char` and the allocators; each engine meets the choices of the heap in an
order of its own. -/
structure Platform where
  char : PlainChar
  arrayHeap : Allocator
  rbtreeHeap : Allocator
  hashHeap : Allocator

/-- `kvstore_array_set`, `kvstore_array_get` and so on. -/
def kvstoreArray (P : Platform) : EngineOps KvsArray where
  set := fun key value => arraySet P.arrayHeap (some key) (some value)
  get := fun key => arrayGet (some key)
  del := fun key => arrayDel (some key)
  exist := fun key => arrayExist key
  count := arrayCount

/-- `kvstore_rbtree_set`, `kvstore_rbtree_get` and so on. -/
def kvstoreRbtree (P : Platform) : EngineOps Rbtree where
  set := fun key value => rbtreeSet P.rbtreeHeap key value
  get := fun key => rbtreeGet key
  del := fun key => rbtreeDel key
  exist := fun key => rbtreeExist key
  count := rbtreeCount

/-- `kvstore_hash_set`, `kvstore_hash_get` and so on. -/
def kvstoreHash (P : Platform) : EngineOps HashTable where
  set := fun key value =>
    putKvHashtable P.char P.hashHeap (some key) (some value)
  get := fun key => getKvHashtable P.char (some key)
  del := fun key => deleteKvHashtable P.char (some key)
  exist := fun key => kvExist P.char (some key)
  count := countHashtable

/-- The global `Array`. -/
def arrayPart : Component KvsArray where
  read := Server.array
  write := fun a s => { s with array := a }
  write_read := fun _ => rfl
  read_write := fun _ _ => rfl
  write_write := fun _ _ _ => rfl
  item_write := fun _ _ => rfl

/-- The global `Tree`. -/
def treePart : Component Rbtree where
  read := Server.tree
  write := fun t s => { s with tree := t }
  write_read := fun _ => rfl
  read_write := fun _ _ => rfl
  write_write := fun _ _ _ => rfl
  item_write := fun _ _ => rfl

/-- The global `Hash`. -/
def hashPart : Component HashTable where
  read := Server.hash
  write := fun h s => { s with hash := h }
  write_read := fun _ => rfl
  read_write := fun _ _ => rfl
  write_write := fun _ _ _ => rfl
  item_write := fun _ _ => rfl

/-! ## Splitting a request -/

abbrev Tokens := List (Option ℕ)

def storeToken (tokens : Tokens) (index token : ℕ) :
    Exec Server Tokens := do
  if index < tokens.length then return tokens.set index (some token)
  else throw .outOfBounds

def strtokRbuffer (pos : ℕ) : Exec Server (Option ℕ × ℕ) :=
  within (fun s => s.item.rbuffer) withRbuffer (strtok pos)

/-- The variables of the splitting loop; `pos` is where `strtok` goes on. -/
structure SplitState where
  token : Option ℕ
  pos : ℕ
  index : ℕ
  tokens : Tokens

def splitStep (x : SplitState) :
    Exec Server (SplitState ⊕ (ℕ × Tokens)) := do
  match x.token with
  | none => return .inr (x.index, x.tokens)
  | some token =>
      let tokens ← storeToken x.tokens x.index token
      let (next, pos) ← strtokRbuffer x.pos
      return .inl ⟨next, pos, x.index + 1, tokens⟩

/-- The number of tokens, and the array they were stored in. -/
def kvstoreSplitToken (tokens : Tokens) : Exec Server (ℕ × Tokens) := do
  let fuel := (← get).item.rbuffer.length + 1
  let (token, pos) ← strtokRbuffer 0
  iterate splitStep fuel ⟨token, pos, 0, tokens⟩

/-- The string behind `tokens[i]`.  The source passes `tokens[i]` on unread, as
`NULL` or unassigned for a missing token; that is a fault here even where the
engine would not have looked at it. -/
def tokenText (tokens : Tokens) (i : ℕ) : Exec Server CString := do
  match tokens[i]? with
  | none => throw .outOfBounds
  | some none => throw .badAddress
  | some (some pos) => load (fun s => textAt s.item.rbuffer pos)

/-! ## Replies -/

def ascii (text : List Char) : List UInt8 :=
  text.map (fun c => UInt8.ofNat c.toNat)

def success : CString :=
  ⟨ascii ['S', 'U', 'C', 'C', 'E', 'S', 'S'], by decide⟩

def errorText : CString := ⟨ascii ['E', 'R', 'R', 'O', 'R'], by decide⟩

def noExist : CString :=
  ⟨ascii ['N', 'O', ' ', 'E', 'X', 'I', 'S', 'T'], by decide⟩

def existed : CString :=
  ⟨ascii ['E', 'X', 'I', 'S', 'T', 'E', 'D'], by decide⟩

def noMatch : CString :=
  ⟨ascii ['N', 'O', ' ', 'M', 'A', 'T', 'C', 'H'], by decide⟩

/-- `%d`; the argument is an `int`, so a number that needs more than 32 bits is
wrapped. -/
def decimal (n : ℤ) : CString :=
  let d := n.bmod (2 ^ 32)
  cstr (ascii ((if d < 0 then ['-'] else []) ++ Nat.toDigits 10 d.natAbs))

/-- What `snprintf` leaves in a buffer of `BUFFER_LENGTH` bytes. -/
def printed (text : CString) (buf : List UInt8) : List UInt8 :=
  text.bytes.take (bufferLength - 1) ++
    0 :: buf.drop (min text.bytes.length (bufferLength - 1) + 1)

def snprintf (text : CString) : Exec Server Unit :=
  modify (fun s => withWbuffer (printed text s.item.wbuffer) s)

def clearWbuffer : Exec Server Unit :=
  modify (withWbuffer (List.replicate bufferLength 0))

/-! ## The branches of the parser -/

section Branches

variable (ops : EngineOps Server) (tokens : Tokens)

def setBranch : Exec Server Unit := do
  let ret ← ops.set (← tokenText tokens 1) (← tokenText tokens 2)
  if ret = 0 then snprintf success
  else snprintf errorText

def getBranch : Exec Server Unit := do
  let ret ← ops.exist (← tokenText tokens 1)
  if 0 ≤ ret then
    match ← ops.get (← tokenText tokens 1) with
    | some value => snprintf value.str
    | none => snprintf errorText
  else snprintf noExist

def delBranch : Exec Server Unit := do
  let ret ← ops.exist (← tokenText tokens 1)
  if 0 ≤ ret then
    if (← ops.del (← tokenText tokens 1)) = 0 then snprintf success
    else snprintf errorText
  else snprintf noExist

def existBranch : Exec Server Unit := do
  let ret ← ops.exist (← tokenText tokens 1)
  if 0 ≤ ret then snprintf existed
  else snprintf noExist

def countBranch : Exec Server Unit := do
  let ret ← ops.count
  if ret < 0 then snprintf errorText
  else snprintf (decimal ret)

end Branches

/-! ## The parser -/

def commands : List CString :=
  [⟨ascii ['S', 'E', 'T'], by decide⟩,
    ⟨ascii ['G', 'E', 'T'], by decide⟩,
    ⟨ascii ['D', 'E', 'L'], by decide⟩,
    ⟨ascii ['C', 'O', 'U', 'N', 'T'], by decide⟩,
    ⟨ascii ['E', 'X', 'I', 'S', 'T'], by decide⟩,
    ⟨ascii ['R', 'S', 'E', 'T'], by decide⟩,
    ⟨ascii ['R', 'G', 'E', 'T'], by decide⟩,
    ⟨ascii ['R', 'D', 'E', 'L'], by decide⟩,
    ⟨ascii ['R', 'C', 'O', 'U', 'N', 'T'], by decide⟩,
    ⟨ascii ['R', 'E', 'X', 'I', 'S', 'T'], by decide⟩,
    ⟨ascii ['H', 'S', 'E', 'T'], by decide⟩,
    ⟨ascii ['H', 'G', 'E', 'T'], by decide⟩,
    ⟨ascii ['H', 'D', 'E', 'L'], by decide⟩,
    ⟨ascii ['H', 'C', 'O', 'U', 'N', 'T'], by decide⟩,
    ⟨ascii ['H', 'E', 'X', 'I', 'S', 'T'], by decide⟩]

abbrev kvsCmdEnd : ℕ := 15

def noteRead (i : ℕ) : Exec Server Unit :=
  modify (fun s => withCommandReads (s.commandReads ++ [i]) s)

def readCommand (cmd : ℕ) : Exec Server CString := do
  noteRead cmd
  match commands[cmd]? with
  | some name => return name
  | none => throw .outOfBounds

def matchStep (tokens : Tokens) (cmd : ℕ) : Exec Server (ℕ ⊕ ℕ) := do
  if cmd < kvsCmdEnd then
    if strcmp (← readCommand cmd) (← tokenText tokens 0) = 0 then
      return .inr cmd
    else return .inl (cmd + 1)
  else return .inr cmd

/-- The default branch logs `commands[cmd]`, which is behind the table for
`KVS_CMD_END`.  The read is recorded and not a fault, unlike elsewhere: what was
read goes to the log only, and the reply follows. -/
def noMatchBranch (cmd : ℕ) : Exec Server Unit := do
  noteRead cmd
  snprintf noMatch

/-- The `switch`; the cases are the constants `KVS_CMD_SET` to
`KVS_CMD_HEXIST`. -/
def runCommand (P : Platform) (tokens : Tokens) (cmd : ℕ) :
    Exec Server Unit :=
  let array := (kvstoreArray P).on arrayPart
  let tree := (kvstoreRbtree P).on treePart
  let hash := (kvstoreHash P).on hashPart
  match cmd with
  | 0 => setBranch array tokens
  | 1 => getBranch array tokens
  | 2 => delBranch array tokens
  | 3 => countBranch array
  | 4 => existBranch array tokens
  | 5 => setBranch tree tokens
  | 6 => getBranch tree tokens
  | 7 => delBranch tree tokens
  | 8 => countBranch tree
  | 9 => existBranch tree tokens
  | 10 => setBranch hash tokens
  | 11 => getBranch hash tokens
  | 12 => delBranch hash tokens
  | 13 => countBranch hash
  | 14 => existBranch hash tokens
  | cmd => noMatchBranch cmd

def kvstoreParserProtocol (P : Platform) (tokens : Tokens) (count : ℕ) :
    Exec Server ℤ := do
  if count = 0 then return -1
  else do
    let cmd ← iterate (matchStep tokens) (kvsCmdEnd + 1) 0
    clearWbuffer
    runCommand P tokens cmd
    return 0

def kvstoreRequest (P : Platform) : Exec Server ℤ := do
  let (count, tokens) ← kvstoreSplitToken (List.replicate kvstoreMaxTokens none)
  let _ ← kvstoreParserProtocol P tokens count
  return 0

/-- One message on a connection of its own; the reply is the string that is
left in `wbuffer`. -/
def requestFresh (P : Platform) (msg : CString) : Exec Server CString := do
  modify (withItem (Connection.fresh.receive msg.bytes))
  let _ ← kvstoreRequest P
  load (fun s => textAt s.item.wbuffer 0)

/-- `content` is what the hash engine's slot array holds before. -/
def initKvengine (P : Platform) (content : HashSlot → Addr) :
    Exec Server ℤ := do
  let ret ← within arrayPart.read arrayPart.write (arrayCreate P.arrayHeap)
  if ret ≠ 0 then return -1
  else do
    let ret ← within treePart.read treePart.write (rbtreeCreate P.rbtreeHeap)
    if ret ≠ 0 then return -1
    else do
      let ret ← within hashPart.read hashPart.write
        (createHashtable P.hashHeap content)
      if ret ≠ 0 then return -1
      else return 0

end CAdvanced
