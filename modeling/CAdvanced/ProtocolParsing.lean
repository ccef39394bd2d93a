import CAdvanced.ProtocolTokens
import CAdvanced.StoreCalls

/-!
# What a request means

The words of a request name an engine and a call.  A request is answered as the
call is answered by the engine alone; of the connection it changes the two
buffers, and of the engines only the one it names.
-/

namespace CAdvanced

open Fallible
open KeyValue
open Server

/-! ## Commands -/

inductive EngineName
  | array
  | rbtree
  | hash
  deriving DecidableEq

inductive Verb
  | set
  | get
  | del
  | count
  | exist
  deriving DecidableEq

abbrev Command := EngineName × Verb

def EngineName.letters : EngineName → List Char
  | .array => []
  | .rbtree => ['R']
  | .hash => ['H']

def Verb.letters : Verb → List Char
  | .set => ['S', 'E', 'T']
  | .get => ['G', 'E', 'T']
  | .del => ['D', 'E', 'L']
  | .count => ['C', 'O', 'U', 'N', 'T']
  | .exist => ['E', 'X', 'I', 'S', 'T']

def commandWord (c : Command) : CString :=
  cstr (ascii (c.1.letters ++ c.2.letters))

def verbs : List Verb := [.set, .get, .del, .count, .exist]

def allCommands : List Command :=
  [EngineName.array, .rbtree, .hash].flatMap (fun e => verbs.map (e, ·))

def commandOf (w : CString) : Option Command :=
  allCommands.find? (fun c => commandWord c = w)

/-- The constants `KVS_CMD_SET` to `KVS_CMD_END`. -/
def commandIndex : Option Command → ℕ
  | some c => allCommands.idxOf c
  | none => kvsCmdEnd

theorem commands_eq : commands = allCommands.map commandWord := by decide

theorem commandOf_commandWord (c : Command) :
    commandOf (commandWord c) = some c := by
  rcases c with ⟨e, v⟩
  cases e <;> cases v <;> decide

theorem commandIndex_of_getElem {i : ℕ} {w : CString}
    (h : commands[i]? = some w) : commandIndex (commandOf w) = i := by
  rw [commands_eq, List.getElem?_map, Option.map_eq_some_iff] at h
  obtain ⟨c, hc, rfl⟩ := h
  obtain ⟨hi, hc⟩ := List.getElem?_eq_some_iff.mp hc
  rw [commandOf_commandWord, commandIndex, ← hc]
  exact List.Nodup.idxOf_getElem (by decide) i hi

theorem commandOf_eq_none {w : CString} (h : w ∉ commands) :
    commandOf w = none := by
  rw [commandOf, List.find?_eq_none]
  intro c hc
  simp only [decide_eq_true_eq]
  intro heq
  apply h
  rw [commands_eq, ← heq]
  exact List.mem_map_of_mem hc

/-! ## Requests -/

def callOf : Verb → List CString → Option Call
  | .set, _ :: key :: value :: _ => some (.set key value)
  | .get, _ :: key :: _ => some (.get key)
  | .del, _ :: key :: _ => some (.del key)
  | .exist, _ :: key :: _ => some (.exist key)
  | .count, _ :: _ => some .count
  | _, _ => none

/-- The engine and the call that the words name, if the command is known and
has the words it needs. -/
def parseRequest (ws : List CString) : Option (EngineName × Call) :=
  match ws with
  | [] => none
  | w :: _ =>
      match commandOf w with
      | none => none
      | some (e, v) => (callOf v ws).map (fun call => (e, call))

/-! ## Engines by name -/

abbrev EngineState : EngineName → Type
  | .array => KvsArray
  | .rbtree => Rbtree
  | .hash => HashTable

def enginePart : (e : EngineName) → Component (EngineState e)
  | .array => arrayPart
  | .rbtree => treePart
  | .hash => hashPart

def engineOps (P : Platform) : (e : EngineName) → EngineOps (EngineState e)
  | .array => kvstoreArray P
  | .rbtree => kvstoreRbtree P
  | .hash => kvstoreHash P

/-- The reply of one engine to one call. -/
def answerCall {τ : Type} (ops : EngineOps τ) : Call → Exec τ CString
  | .set key value => do
      if (← ops.set key value) = 0 then return success
      else return errorText
  | .get key => do
      if 0 ≤ (← ops.exist key) then
        match ← ops.get key with
        | some value => return value.str
        | none => return errorText
      else return noExist
  | .del key => do
      if 0 ≤ (← ops.exist key) then
        if (← ops.del key) = 0 then return success
        else return errorText
      else return noExist
  | .exist key => do
      if 0 ≤ (← ops.exist key) then return existed
      else return noExist
  | .count => do
      let ret ← ops.count
      if ret < 0 then return errorText
      else return decimal ret

/-! ## The branches -/

def runVerb (ops : EngineOps Server) (tokens : Tokens) :
    Verb → Exec Server Unit
  | .set => setBranch ops tokens
  | .get => getBranch ops tokens
  | .del => delBranch ops tokens
  | .count => countBranch ops
  | .exist => existBranch ops tokens

theorem runCommand_index (P : Platform) (tokens : Tokens) (c : Command) :
    runCommand P tokens (commandIndex (some c))
      = runVerb ((engineOps P c.1).on (enginePart c.1)) tokens c.2 := by
  rcases c with ⟨e, v⟩
  cases e <;> cases v <;> rfl

def replied (reply : CString) (s : Server) : Server :=
  withWbuffer (printed reply s.item.wbuffer) s

section Branches

variable {τ : Type} {ops : EngineOps τ} {part : Component τ} {s : Server}
  {tokens : Tokens} {ws : List CString} {w : CString} {i : ℕ}

theorem returns_tokenText (h : TokenAt s.item.rbuffer tokens i w)
    (Q : CString → Server → Prop) :
    Returns (tokenText tokens i) s Q ↔ Q w s := by
  obtain ⟨pos, hpos, htext⟩ := h
  simp [tokenText, hpos, htext]

@[simp] theorem returns_snprintf (reply : CString)
    (Q : Unit → Server → Prop) :
    Returns (snprintf reply) s Q ↔ Q () (replied reply s) := by
  simp [snprintf, replied]

theorem returns_tokenText_write (h : TokenAt s.item.rbuffer tokens i w)
    (t : τ) (Q : CString → Server → Prop) :
    Returns (tokenText tokens i) (part.write t s) Q ↔
      Q w (part.write t s) := by
  apply returns_tokenText
  rw [part.item_write]
  exact h

theorem returns_setBranch {key value : CString}
    (hkey : TokenAt s.item.rbuffer tokens 1 key)
    (hvalue : TokenAt s.item.rbuffer tokens 2 value)
    (Q : Unit → Server → Prop) :
    Returns (setBranch (ops.on part) tokens) s Q ↔
      Returns (answerCall ops (.set key value)) (part.read s)
        (fun reply t => Q () (replied reply (part.write t s))) := by
  simp only [setBranch, answerCall, EngineOps.on, returns_bind,
    returns_tokenText hkey, returns_tokenText hvalue, returns_within,
    returns_ite, returns_snprintf, returns_pure]

theorem returns_getBranch {key : CString}
    (hkey : TokenAt s.item.rbuffer tokens 1 key)
    (Q : Unit → Server → Prop) :
    Returns (getBranch (ops.on part) tokens) s Q ↔
      Returns (answerCall ops (.get key)) (part.read s)
        (fun reply t => Q () (replied reply (part.write t s))) := by
  simp only [getBranch, answerCall, EngineOps.on, returns_bind,
    returns_tokenText hkey, returns_within, returns_ite, returns_snprintf,
    returns_pure, returns_tokenText_write hkey, part.read_write,
    part.write_write]
  apply returns_congr
  intro ret t
  split_ifs
  · apply returns_congr
    intro value t'
    cases value with
    | none => rw [returns_snprintf, returns_pure]
    | some block => rw [returns_snprintf, returns_pure]
  · rfl

theorem returns_delBranch {key : CString}
    (hkey : TokenAt s.item.rbuffer tokens 1 key)
    (Q : Unit → Server → Prop) :
    Returns (delBranch (ops.on part) tokens) s Q ↔
      Returns (answerCall ops (.del key)) (part.read s)
        (fun reply t => Q () (replied reply (part.write t s))) := by
  simp only [delBranch, answerCall, EngineOps.on, returns_bind,
    returns_tokenText hkey, returns_within, returns_ite, returns_snprintf,
    returns_pure, returns_tokenText_write hkey, part.read_write,
    part.write_write]

theorem returns_existBranch {key : CString}
    (hkey : TokenAt s.item.rbuffer tokens 1 key)
    (Q : Unit → Server → Prop) :
    Returns (existBranch (ops.on part) tokens) s Q ↔
      Returns (answerCall ops (.exist key)) (part.read s)
        (fun reply t => Q () (replied reply (part.write t s))) := by
  simp only [existBranch, answerCall, EngineOps.on, returns_bind,
    returns_tokenText hkey, returns_within, returns_ite, returns_snprintf,
    returns_pure]

theorem returns_countBranch (Q : Unit → Server → Prop) :
    Returns (countBranch (ops.on part)) s Q ↔
      Returns (answerCall ops .count) (part.read s)
        (fun reply t => Q () (replied reply (part.write t s))) := by
  simp only [countBranch, answerCall, EngineOps.on, returns_bind,
    returns_within, returns_ite, returns_snprintf, returns_pure]

/-- Every branch answers as its engine does. -/
theorem returns_runVerb {v : Verb} {call : Call}
    (hcall : callOf v ws = some call)
    (htokens : Tokenised s.item.rbuffer tokens ws)
    (Q : Unit → Server → Prop) :
    Returns (runVerb (ops.on part) tokens v) s Q ↔
      Returns (answerCall ops call) (part.read s)
        (fun reply t => Q () (replied reply (part.write t s))) := by
  unfold callOf at hcall
  split at hcall <;> cases hcall
  next key value _ =>
    exact returns_setBranch (htokens.stored 1 key rfl)
      (htokens.stored 2 value rfl) Q
  next key _ => exact returns_getBranch (htokens.stored 1 key rfl) Q
  next key _ => exact returns_delBranch (htokens.stored 1 key rfl) Q
  next key _ => exact returns_existBranch (htokens.stored 1 key rfl) Q
  next => exact returns_countBranch Q

end Branches

/-! ## The search through the table -/

section Search

variable {s : Server} {tokens : Tokens} {w : CString}

/-- The indices at which the search for `w` reads the table. -/
def searchReads (w : CString) : List ℕ :=
  List.range (min (commandIndex (commandOf w) + 1) kvsCmdEnd)

/-- The search ends at the command, or behind the table. -/
theorem returns_search (htoken : TokenAt s.item.rbuffer tokens 0 w) :
    Returns (iterate (matchStep tokens) (kvsCmdEnd + 1) 0) s (fun cmd s' =>
      cmd = commandIndex (commandOf w) ∧
        s' = withCommandReads (s.commandReads ++ searchReads w) s) := by
  refine iterate_returns
    (fun n cmd s₁ => cmd + n = kvsCmdEnd ∧ (∀ j < cmd, commands[j]? ≠ some w) ∧
      s₁ = withCommandReads (s.commandReads ++ List.range cmd) s)
    ?_ (k := kvsCmdEnd) ⟨by simp, by simp, by simp [withCommandReads]⟩
    (Nat.lt_succ_self _)
  intro n cmd s₁ hinv
  rcases hinv with ⟨hn, hbefore, rfl⟩
  by_cases hcmd : cmd < kvsCmdEnd
  · have hinside : cmd < commands.length := hcmd
    obtain ⟨name, hname⟩ : ∃ name, commands[cmd]? = some name :=
      ⟨_, List.getElem?_eq_getElem hinside⟩
    have hread : withCommandReads
        ((withCommandReads (s.commandReads ++ List.range cmd) s).commandReads
          ++ [cmd]) (withCommandReads (s.commandReads ++ List.range cmd) s)
        = withCommandReads (s.commandReads ++ List.range (cmd + 1)) s := by
      simp [withCommandReads, List.range_succ]
    have htoken' : TokenAt (withCommandReads
        (s.commandReads ++ List.range (cmd + 1)) s).item.rbuffer tokens 0 w :=
      htoken
    simp only [matchStep, hcmd, reduceIte, readCommand, noteRead, hname,
      returns_bind, returns_modify, hread, returns_pure,
      returns_tokenText htoken', returns_ite, strcmp_eq_zero_iff]
    split_ifs with heq
    · subst heq
      have hindex := commandIndex_of_getElem hname
      rw [hindex]
      exact ⟨rfl, by rw [searchReads, hindex, min_eq_left (by omega)]⟩
    · refine ⟨n - 1, by omega, by omega, ?_, trivial⟩
      intro j hj
      rcases Nat.lt_succ_iff_lt_or_eq.mp hj with hj | rfl
      · exact hbefore j hj
      · rw [hname]
        exact fun h => heq (Option.some.inj h)
  · have hend : cmd = kvsCmdEnd := by omega
    subst hend
    have hnone : commandOf w = none := by
      apply commandOf_eq_none
      intro hmem
      obtain ⟨j, hj, hget⟩ := List.getElem_of_mem hmem
      exact hbefore j hj (by rw [List.getElem?_eq_getElem hj, hget])
    simp only [matchStep, hcmd, reduceIte, returns_pure, searchReads, hnone,
      commandIndex]
    exact ⟨trivial, rfl⟩

end Search

/-! ## The whole request -/

/-- The connection after a reply to a request that was split. -/
def Connection.afterReply (item : Connection) (buf : List UInt8)
    (reply : CString) : Connection :=
  { item with
    rbuffer := buf
    wbuffer := printed reply (List.replicate bufferLength 0) }

theorem enginePart_read_front (e : EngineName) (item : Connection)
    (reads : List ℕ) (s : Server) :
    (enginePart e).read (withFront item reads s) = (enginePart e).read s := by
  cases e <;> rfl

theorem enginePart_write_front (e : EngineName) (item : Connection)
    (reads : List ℕ) (t : EngineState e) (s : Server) :
    (enginePart e).write t (withFront item reads s)
      = withFront item reads ((enginePart e).write t s) := by
  cases e <;> rfl

section Request

variable {P : Platform} {s : Server} {text : CString} {post : List UInt8}

/-- The request is split, its command is found, and the branch is taken. -/
theorem returns_kvstoreRequest_branch
    (hbuf : s.item.rbuffer = text.bytes ++ 0 :: post)
    (hcount : (words text).length ≤ kvstoreMaxTokens) {w : CString}
    {ws : List CString} (hwords : words text = w :: ws) :
    ∃ buf tokens, Remaining buf text.bytes.length default post ∧
      Tokenised buf tokens (words text) ∧
      ∀ Q : ℤ → Server → Prop, Returns (kvstoreRequest P) s Q ↔
        Returns (runCommand P tokens (commandIndex (commandOf w)))
          (withFront { s.item with
            rbuffer := buf
            wbuffer := List.replicate bufferLength 0 }
            (s.commandReads ++ searchReads w) s)
          (fun _ s' => Q 0 s') := by
  obtain ⟨r, s₁, hrun, buf, rfl, hcnt, htokens, hrest⟩ :=
    returns_kvstoreSplitToken hbuf hcount
  obtain ⟨count, tokens⟩ := r
  simp only at hcnt htokens
  subst hcnt
  have hfirst : TokenAt (withRbuffer buf s).item.rbuffer tokens 0 w :=
    htokens.stored 0 w (by rw [hwords]; rfl)
  have hpositive : (words text).length ≠ 0 := by simp [hwords]
  refine ⟨buf, tokens, hrest, htokens, ?_⟩
  intro Q
  rw [kvstoreRequest, Returns.bind_iff ⟨_, _, hrun, rfl, rfl⟩]
  simp only [kvstoreParserProtocol, hpositive, reduceIte, bind_assoc]
  rw [Returns.bind_iff (returns_search hfirst)]
  simp only [clearWbuffer, returns_bind, returns_modify, pure_bind,
    returns_pure]
  rfl

/-- A request for a call is answered as the engine answers the call. -/
theorem returns_kvstoreRequest
    (hbuf : s.item.rbuffer = text.bytes ++ 0 :: post)
    (hcount : (words text).length ≤ kvstoreMaxTokens) {e : EngineName}
    {call : Call} (hparse : parseRequest (words text) = some (e, call)) :
    ∃ buf reads, Remaining buf text.bytes.length default post ∧
      ∀ Q : ℤ → Server → Prop, Returns (kvstoreRequest P) s Q ↔
        Returns (answerCall (engineOps P e) call) ((enginePart e).read s)
          (fun reply t => Q 0 (withFront (s.item.afterReply buf reply) reads
            ((enginePart e).write t s))) := by
  unfold parseRequest at hparse
  split at hparse
  next => cases hparse
  next w ws hwords =>
    obtain ⟨buf, tokens, hrest, htokens, hiff⟩ :=
      returns_kvstoreRequest_branch (P := P) hbuf hcount hwords
    refine ⟨buf, s.commandReads ++ searchReads w, hrest, ?_⟩
    intro Q
    rw [hiff]
    cases hcommand : commandOf w with
    | none => simp [hcommand] at hparse
    | some c =>
        obtain ⟨e', v⟩ := c
        simp only [hcommand, Option.map_eq_some_iff, Prod.mk.injEq,
          exists_eq_right_right] at hparse
        obtain ⟨hcall, rfl⟩ := hparse
        rw [runCommand_index, returns_runVerb hcall htokens]
        simp only [enginePart_read_front, enginePart_write_front]
        rfl

/-- A request with an unknown command changes nothing but the connection. -/
theorem returns_kvstoreRequest_unknown
    (hbuf : s.item.rbuffer = text.bytes ++ 0 :: post)
    (hcount : (words text).length ≤ kvstoreMaxTokens) {w : CString}
    {ws : List CString} (hwords : words text = w :: ws)
    (hunknown : commandOf w = none) :
    ∃ buf reads, Remaining buf text.bytes.length default post ∧
      ∀ Q : ℤ → Server → Prop, Returns (kvstoreRequest P) s Q ↔
        Q 0 (withFront (s.item.afterReply buf noMatch) reads s) := by
  obtain ⟨buf, tokens, hrest, -, hiff⟩ :=
    returns_kvstoreRequest_branch (P := P) hbuf hcount hwords
  refine ⟨buf, s.commandReads ++ searchReads w ++ [kvsCmdEnd], hrest, ?_⟩
  intro Q
  rw [hiff, hunknown]
  change Returns (noMatchBranch kvsCmdEnd) _ _ ↔ _
  simp only [noMatchBranch, noteRead, returns_bind, returns_modify,
    returns_snprintf]
  rfl

end Request

/-- The reply is left in the buffer. -/
theorem textAt_printed {reply : CString}
    (hshort : reply.bytes.length < bufferLength) (buf : List UInt8) :
    textAt (printed reply buf) 0 = some reply := by
  rw [printed, List.take_of_length_le (by omega)]
  exact textAt_append [] reply _

end CAdvanced
