import CAdvanced.FrontEnds

/-!
# The search for a command

The index at which the search ends selects the branch.  The default branch
reads `commands` at this index once more, for its log line: behind the end of
the table.
-/

namespace CAdvanced

open Fallible
open Server

/-! ## What the branches leave alone -/

section Branches

variable {μ : Type} {f : Server → μ} {ops : EngineOps Server}

/-- The wrappers of an engine do not change this part of the server. -/
structure OpsKeep (f : Server → μ) (ops : EngineOps Server) : Prop where
  set : ∀ key value, Preserves f (ops.set key value)
  get : ∀ key, Preserves f (ops.get key)
  del : ∀ key, Preserves f (ops.del key)
  exist : ∀ key, Preserves f (ops.exist key)
  count : Preserves f ops.count

theorem opsKeep_on {τ : Type} {part : Component τ}
    (hwrite : ∀ t s, f (part.write t s) = f s) (ops : EngineOps τ) :
    OpsKeep f (ops.on part) := by
  constructor
  · intro key value
    exact preserves_within hwrite _
  · intro key
    exact preserves_within hwrite _
  · intro key
    exact preserves_within hwrite _
  · intro key
    exact preserves_within hwrite _
  · exact preserves_within hwrite _

theorem tokenText_keeps (tokens : Tokens) (i : ℕ) :
    Preserves f (tokenText tokens i) := by
  unfold tokenText
  split
  · exact preserves_throw _
  · exact preserves_throw _
  · exact preserves_load _

theorem runVerb_keeps (h : OpsKeep f ops)
    (hreply : ∀ text, Preserves f (snprintf text)) (tokens : Tokens)
    (verb : Verb) : Preserves f (runVerb ops tokens verb) := by
  cases verb with
  | set =>
      apply preserves_bind (tokenText_keeps tokens 1)
      intro key
      apply preserves_bind (tokenText_keeps tokens 2)
      intro value
      apply preserves_bind (h.set key value)
      intro ret
      exact preserves_ite (hreply _) (hreply _)
  | get =>
      apply preserves_bind (tokenText_keeps tokens 1)
      intro key
      apply preserves_bind (h.exist key)
      intro ret
      apply preserves_ite _ (hreply _)
      apply preserves_bind (tokenText_keeps tokens 1)
      intro key
      apply preserves_bind (h.get key)
      intro value
      cases value with
      | none => exact hreply _
      | some block => exact hreply _
  | del =>
      apply preserves_bind (tokenText_keeps tokens 1)
      intro key
      apply preserves_bind (h.exist key)
      intro ret
      apply preserves_ite _ (hreply _)
      apply preserves_bind (tokenText_keeps tokens 1)
      intro key
      apply preserves_bind (h.del key)
      intro ret
      exact preserves_ite (hreply _) (hreply _)
  | count =>
      apply preserves_bind h.count
      intro ret
      exact preserves_ite (hreply _) (hreply _)
  | exist =>
      apply preserves_bind (tokenText_keeps tokens 1)
      intro key
      apply preserves_bind (h.exist key)
      intro ret
      exact preserves_ite (hreply _) (hreply _)

/-- A branch of a command does not read the table. -/
theorem runVerb_commandReads (P : Platform) (tokens : Tokens) (c : Command) :
    Preserves Server.commandReads
      (runVerb ((engineOps P c.1).on (enginePart c.1)) tokens c.2) := by
  apply runVerb_keeps
  · apply opsKeep_on
    intro t s
    obtain ⟨e, v⟩ := c
    cases e <;> rfl
  · intro text
    exact preserves_modify (fun _ => rfl)

end Branches

/-! ## Reads of the table and the branch -/

/-- Every index is one of the table. -/
def InTable (reads : List ℕ) : Prop := ∀ i ∈ reads, i < commands.length

/-- The branch of the only command that the token equals, or the branch for
no command. -/
def BranchFor (P : Platform) (tokens : Tokens) (w : CString)
    (branch : Exec Server Unit) : Prop :=
  (∃ c : Command, (∀ c', commandWord c' = w ↔ c' = c) ∧
    branch = runVerb ((engineOps P c.1).on (enginePart c.1)) tokens c.2) ∨
  ((∀ c, commandWord c ≠ w) ∧ branch = noMatchBranch kvsCmdEnd)

/-- The server when the branch is entered: `wbuffer` is cleared, and the
search has read `commands` at `reads`. -/
def searched (reads : List ℕ) (s : Server) : Server :=
  withWbuffer (List.replicate bufferLength 0)
    (withCommandReads (s.commandReads ++ reads) s)

/-- The search and the branch read inside the table, and the branch is the one
that the first token asks for. -/
structure LookupInside (P : Platform) (tokens : Tokens) (count : ℕ)
    (w : CString) (s : Server) : Prop where
  branch : ∃ reads branch, InTable reads ∧ BranchFor P tokens w branch ∧
    (kvstoreParserProtocol P tokens count).run s
      = (do branch; return 0 : Exec Server ℤ).run (searched reads s)
  inside : Yields (kvstoreParserProtocol P tokens count) s (fun _ s' =>
    ∃ reads, s'.commandReads = s.commandReads ++ reads ∧ InTable reads)

theorem commands_length : commands.length = kvsCmdEnd := by decide

theorem commandOf_eq_some_iff {w : CString} {c : Command} :
    commandOf w = some c ↔ commandWord c = w := by
  constructor
  · intro h
    simpa using List.find?_some h
  · rintro rfl
    exact commandOf_commandWord c

theorem mem_commands_iff {w : CString} :
    w ∈ commands ↔ ∃ c, commandWord c = w := by
  rw [commands_eq, List.mem_map]
  constructor
  · rintro ⟨c, -, hc⟩
    exact ⟨c, hc⟩
  · rintro ⟨c, rfl⟩
    refine ⟨c, ?_, rfl⟩
    rcases c with ⟨e, v⟩
    cases e <;> cases v <;> decide

theorem inTable_searchReads (w : CString) : InTable (searchReads w) := by
  intro i hi
  rw [searchReads, List.mem_range] at hi
  rw [commands_length]
  omega

section Lookup

variable {P : Platform} {tokens : Tokens} {count : ℕ} {w : CString}
  {s : Server}

/-- The parser is the search, and then the branch at the index found. -/
theorem run_kvstoreParserProtocol (hcount : count ≠ 0)
    (htoken : TokenAt s.item.rbuffer tokens 0 w) :
    (kvstoreParserProtocol P tokens count).run s
      = (do runCommand P tokens (commandIndex (commandOf w))
            return 0 : Exec Server ℤ).run (searched (searchReads w) s) := by
  obtain ⟨cmd, s₁, hrun, rfl, rfl⟩ := returns_search htoken
  rw [kvstoreParserProtocol, if_neg hcount, run_bind_of_ok hrun]
  rfl

theorem branchFor_known {c : Command} (hc : commandWord c = w) :
    BranchFor P tokens w (runCommand P tokens (commandIndex (commandOf w))) := by
  refine .inl ⟨c, ?_, ?_⟩
  · intro c'
    rw [← commandOf_eq_some_iff, commandOf_eq_some_iff.mpr hc]
    exact ⟨fun h => (Option.some.inj h).symm, fun h => by rw [h]⟩
  · rw [commandOf_eq_some_iff.mpr hc, runCommand_index]

/-- The branch for no command reads the table behind its end. -/
theorem returns_parser_unknown (hcount : count ≠ 0)
    (htoken : TokenAt s.item.rbuffer tokens 0 w) (hw : w ∉ commands) :
    Returns (kvstoreParserProtocol P tokens count) s (fun _ s' =>
      s'.commandReads = s.commandReads ++ searchReads w ++ [kvsCmdEnd]) := by
  unfold Returns
  rw [run_kvstoreParserProtocol hcount htoken, commandOf_eq_none hw]
  exact ⟨0, _, rfl, rfl⟩

theorem not_lookupInside (hcount : count ≠ 0)
    (htoken : TokenAt s.item.rbuffer tokens 0 w) (hw : w ∉ commands) :
    ¬ LookupInside P tokens count w s := by
  intro h
  obtain ⟨ret, s', hrun, hreads⟩ :=
    returns_parser_unknown (P := P) hcount htoken hw
  obtain ⟨reads, hreads', hinside⟩ := h.inside ret s' hrun
  rw [hreads, List.append_assoc, List.append_cancel_left_eq] at hreads'
  have hlast : kvsCmdEnd < commands.length := by
    apply hinside
    rw [← hreads']
    simp
  rw [commands_length] at hlast
  exact lt_irrefl _ hlast

theorem lookupInside_known (hcount : count ≠ 0)
    (htoken : TokenAt s.item.rbuffer tokens 0 w) {c : Command}
    (hc : commandWord c = w) : LookupInside P tokens count w s := by
  have hrun := run_kvstoreParserProtocol (P := P) hcount htoken
  refine ⟨⟨_, _, inTable_searchReads w, branchFor_known hc, hrun⟩, ?_⟩
  intro ret s' hret
  refine ⟨searchReads w, ?_, inTable_searchReads w⟩
  rw [hrun, commandOf_eq_some_iff.mpr hc, runCommand_index] at hret
  have hkeeps : Preserves Server.commandReads
      (do runVerb ((engineOps P c.1).on (enginePart c.1)) tokens c.2
          return 0 : Exec Server ℤ) :=
    preserves_bind (runVerb_commandReads P tokens c) (fun _ => preserves_pure 0)
  exact hkeeps _ ret s' hret

/-- The table is read inside its bounds exactly when the first token is a
command. -/
theorem lookupInside_iff (P : Platform) (hcount : count ≠ 0)
    (htoken : TokenAt s.item.rbuffer tokens 0 w) :
    LookupInside P tokens count w s ↔ w ∈ commands := by
  constructor
  · intro h
    by_contra hw
    exact not_lookupInside hcount htoken hw h
  · intro hw
    obtain ⟨c, hc⟩ := mem_commands_iff.mp hw
    exact lookupInside_known hcount htoken hc

end Lookup

/-- The server when the message has been split into one token. -/
def oneToken (w : CString) : Server :=
  withItem (Connection.fresh.receive w.bytes) blankServer

theorem lookupInside_iff_sample :
    LookupInside samplePlatform [some 0] 1 (commandWord (.hash, .count))
        (oneToken (commandWord (.hash, .count))) ↔
      commandWord (.hash, .count) ∈ commands :=
  lookupInside_iff samplePlatform (by decide) ⟨0, rfl, by decide +kernel⟩

/-- `PING`. -/
def pingWord : CString := ⟨ascii ['P', 'I', 'N', 'G'], by decide⟩

/-- `PING` is no command: `commands[15]` is read. -/
theorem lookupInside_ping :
    ¬ LookupInside samplePlatform [some 0] 1 pingWord (oneToken pingWord) :=
  not_lookupInside (by decide) ⟨0, rfl, by decide +kernel⟩ (by decide)

end CAdvanced
