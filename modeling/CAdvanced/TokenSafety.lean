import CAdvanced.EngineInterchange

/-!
# Which tokens the parser reads

The token array has room for `KVSTORE_MAX_TOKENS` words, and only the words of
the message are stored in it.  The splitting loop stays inside the array as
long as the message has no more words, and the parser reads stored tokens only
as long as the message carries the words its command needs.
-/

namespace CAdvanced

open Fallible
open Server

/-! ## Storing tokens -/

section Storing

variable {s : Server}

theorem not_returns_split_unterminated (hbuf : textAt s.item.rbuffer 0 = none)
    (Q : ℕ × Tokens → Server → Prop) (tokens : Tokens) :
    ¬ Returns (kvstoreSplitToken tokens) s Q := by
  have hstart : 0 ∉ s.item.rbuffer.drop 0 := by
    intro hmem
    simp only [textAt, hmem, reduceIte, reduceCtorEq] at hbuf
  intro h
  simp only [kvstoreSplitToken, strtokRbuffer, returns_bind,
    Fallible.returns_get, returns_within] at h
  obtain ⟨token, next, buf, hrest, hloop⟩ := strtok_unterminated hstart h
  refine not_returns_iterate (fun x s' => x.token.isSome ∧
    0 ∉ s'.item.rbuffer.drop x.pos) ?_ ⟨rfl, hrest⟩ Q hloop
  intro x s' hinv Q hbody
  obtain ⟨token, pos, index, tokens⟩ := x
  obtain ⟨htoken, hrest⟩ := hinv
  obtain ⟨t, rfl⟩ := Option.isSome_iff_exists.mp htoken
  simp only [splitStep, storeToken, strtokRbuffer] at hbody
  split_ifs at hbody with hroom
  · simp only [returns_bind, returns_pure, returns_within] at hbody
    obtain ⟨token, next, buf, hrest, hQ⟩ := strtok_unterminated hrest hbody
    exact ⟨_, _, ⟨rfl, hrest⟩, hQ⟩
  · simp only [returns_bind, returns_throw] at hbody

/-- The string in the buffer has no more words than the array has entries. -/
def WordsFit (buf : List UInt8) : Prop :=
  ∃ text ∈ textAt buf 0, (words text).length ≤ kvstoreMaxTokens

/-- Every token is stored inside the array exactly when the buffer holds a
string of at most `KVSTORE_MAX_TOKENS` words. -/
theorem kvstoreSplitToken_inside_iff (s : Server) :
    Returns (kvstoreSplitToken (List.replicate kvstoreMaxTokens none)) s
        (fun r _ => r.1 ≤ kvstoreMaxTokens) ↔
      WordsFit s.item.rbuffer := by
  cases htext : textAt s.item.rbuffer 0 with
  | none =>
      simp only [WordsFit, htext, not_returns_split_unterminated htext]
      simp
  | some text =>
      obtain ⟨front, post, hbuf, hfront⟩ := textAt_eq_some htext
      rw [List.eq_nil_of_length_eq_zero hfront, List.nil_append] at hbuf
      simp only [WordsFit, htext, Option.mem_def, Option.some.injEq,
        exists_eq_left']
      constructor
      · intro h
        by_contra hmany
        exact not_returns_kvstoreSplitToken hbuf (not_le.mp hmany) _ h
      · intro hcount
        apply (returns_kvstoreSplitToken hbuf hcount).mono
        intro r s' hr
        obtain ⟨buf, -, hlength, -⟩ := hr
        rw [hlength]
        exact hcount

def manyWords : CString := spaced (List.replicate 129 ⟨[97], by decide⟩)

theorem words_manyWords :
    words manyWords = List.replicate 129 ⟨[97], by decide⟩ := by
  apply words_spaced
  intro w hw
  rw [(List.mem_replicate.mp hw).2]
  decide

theorem kvstoreSplitToken_manyWords :
    manyWords.bytes.length < bufferLength ∧
      ¬ Returns (kvstoreSplitToken (List.replicate kvstoreMaxTokens none))
        (withItem (Connection.fresh.receive manyWords.bytes) blankServer)
        (fun r _ => r.1 ≤ kvstoreMaxTokens) := by
  have hshort : manyWords.bytes.length < bufferLength := by decide +kernel
  refine ⟨hshort, ?_⟩
  apply not_returns_kvstoreSplitToken (receive_fresh hshort)
  rw [words_manyWords, List.length_replicate]
  decide

end Storing

/-! ## Reading tokens -/

/-- The message carries the words that its command needs. -/
def CarriesItsWords (text : CString) : Prop :=
  ∀ w ∈ (words text).head?, ∀ c ∈ commandOf w, (callOf c.2 (words text)).isSome

instance (text : CString) : Decidable (CarriesItsWords text) :=
  inferInstanceAs (Decidable (∀ w ∈ (words text).head?, _))

/-- Such a message names no command, or all of it can be read. -/
theorem CarriesItsWords.parses {text : CString} (h : CarriesItsWords text)
    {w : CString} {ws : List CString} (hwords : words text = w :: ws) :
    commandOf w = none ∨ (parseRequest (w :: ws)).isSome = true := by
  cases hcommand : commandOf w with
  | none => exact .inl rfl
  | some c =>
      have hcall := h w (by rw [hwords]; rfl) c hcommand
      rw [hwords] at hcall
      refine .inr ?_
      simp only [parseRequest, hcommand, Option.isSome_map]
      exact hcall

/-- Other pointers behind the first `count` entries change nothing. -/
def ReadsOwnTokens (P : Platform) (tokens : Tokens) (count : ℕ)
    (s : Server) : Prop :=
  ∀ others : Tokens, (∀ i < count, others[i]? = tokens[i]?) →
    (kvstoreParserProtocol P others count).run s
      = (kvstoreParserProtocol P tokens count).run s

structure EnginesKept (s s' : Server) : Prop where
  array : s'.array = s.array
  tree : s'.tree = s.tree
  hash : s'.hash = s.hash

/-- The parser reads the tokens of the message only, and a message that lacks
words changes no engine. -/
structure ParsesOwnTokens (P : Platform) (s : Server) : Prop where
  tokens : ∀ count tokens s',
    (kvstoreSplitToken (List.replicate kvstoreMaxTokens none)).run s
      = .ok ((count, tokens), s') → ReadsOwnTokens P tokens count s'
  engines : ∀ text, textAt s.item.rbuffer 0 = some text →
    ¬ CarriesItsWords text →
    Returns (kvstoreRequest P) s (fun _ s' => EnginesKept s s')

section Reading

variable {P : Platform} {s : Server} {tokens others : Tokens}
  {ws : List CString} {v : Verb} {text w : CString} {post : List UInt8}

theorem tokenText_congr {i : ℕ} (h : others[i]? = tokens[i]?) :
    tokenText others i = tokenText tokens i := by
  rw [tokenText, tokenText, h]

theorem matchStep_congr (h : others[0]? = tokens[0]?) :
    matchStep others = matchStep tokens := by
  funext cmd
  rw [matchStep, matchStep, tokenText_congr h]

/-- A branch reads no more than the words its call is made of. -/
theorem runVerb_congr {ops : EngineOps Server} {call : Call}
    (hcall : callOf v ws = some call)
    (h : ∀ i < ws.length, others[i]? = tokens[i]?) :
    runVerb ops others v = runVerb ops tokens v := by
  unfold callOf at hcall
  split at hcall <;> cases hcall
  next w key value rest =>
    simp only [runVerb, setBranch, tokenText_congr (h 1 (by simp)),
      tokenText_congr (h 2 (by simp))]
  next w key rest =>
    simp only [runVerb, getBranch, tokenText_congr (h 1 (by simp))]
  next w key rest =>
    simp only [runVerb, delBranch, tokenText_congr (h 1 (by simp))]
  next w key rest =>
    simp only [runVerb, existBranch, tokenText_congr (h 1 (by simp))]
  next => rfl

theorem not_returns_tokenText_unset {i : ℕ} (h : tokens[i]? = some none)
    (Q : CString → Server → Prop) : ¬ Returns (tokenText tokens i) s Q := by
  simp [tokenText, h]

/-- A branch for which words are missing reads an entry that was not set. -/
theorem not_returns_runVerb {ops : EngineOps Server}
    (hcall : callOf v (w :: ws) = none) {buf : List UInt8}
    (htokens : Tokenised buf tokens (w :: ws))
    (Q : Unit → Server → Prop) : ¬ Returns (runVerb ops tokens v) s Q := by
  have hunset : ∀ i, ws.length + 1 ≤ i → i < 3 → ∀ Q (s : Server),
      ¬ Returns (tokenText tokens i) s Q := by
    intro i hi hlt Q s
    apply not_returns_tokenText_unset
    apply htokens.unset i (by simpa using hi)
    exact hlt.trans (by decide)
  intro h
  cases v with
  | set =>
      simp only [runVerb, setBranch, returns_bind] at h
      cases ws with
      | nil => exact hunset 1 (by simp) (by decide) _ _ h
      | cons key ws =>
          cases ws with
          | cons value ws => cases hcall
          | nil =>
              obtain ⟨a, s', -, h⟩ := h
              exact hunset 2 (by simp) (by decide) _ _ h
  | get =>
      simp only [runVerb, getBranch, returns_bind] at h
      cases ws with
      | nil => exact hunset 1 (by simp) (by decide) _ _ h
      | cons key ws => cases hcall
  | del =>
      simp only [runVerb, delBranch, returns_bind] at h
      cases ws with
      | nil => exact hunset 1 (by simp) (by decide) _ _ h
      | cons key ws => cases hcall
  | exist =>
      simp only [runVerb, existBranch, returns_bind] at h
      cases ws with
      | nil => exact hunset 1 (by simp) (by decide) _ _ h
      | cons key ws => cases hcall
  | count => cases hcall

/-- A message that carries its words is parsed from them alone. -/
theorem readsOwnTokens (htokens : Tokenised s.item.rbuffer tokens (words text))
    (hcarries : CarriesItsWords text) :
    ReadsOwnTokens P tokens (words text).length s := by
  intro others hothers
  cases hwords : words text with
  | nil => rfl
  | cons w ws =>
      rw [hwords] at htokens hothers
      have hcount : (w :: ws).length ≠ 0 := by simp
      have hfirst : TokenAt s.item.rbuffer tokens 0 w :=
        htokens.stored 0 w rfl
      have hbranch : runCommand P others (commandIndex (commandOf w))
          = runCommand P tokens (commandIndex (commandOf w)) := by
        cases hcommand : commandOf w with
        | none => rfl
        | some c =>
            have hcall := hcarries w (by simp [hwords]) c hcommand
            rw [hwords] at hcall
            obtain ⟨call, hcall⟩ := Option.isSome_iff_exists.mp hcall
            rw [runCommand_index, runCommand_index,
              runVerb_congr hcall hothers]
      obtain ⟨cmd, s', hsearch, rfl, rfl⟩ := returns_search hfirst
      simp only [kvstoreParserProtocol, hcount, reduceIte,
        matchStep_congr (hothers 0 (by simp)), run_bind_of_ok hsearch,
        hbranch]

/-- A message that lacks words is not answered. -/
theorem not_returns_kvstoreRequest
    (hbuf : s.item.rbuffer = text.bytes ++ 0 :: post)
    (hlacks : ¬ CarriesItsWords text) (Q : ℤ → Server → Prop) :
    ¬ Returns (kvstoreRequest P) s Q := by
  simp only [CarriesItsWords, not_forall] at hlacks
  obtain ⟨w, hw, c, hcommand, hcall⟩ := hlacks
  rw [Option.mem_def, List.head?_eq_some_iff] at hw
  obtain ⟨ws, hwords⟩ := hw
  rw [hwords, Option.not_isSome_iff_eq_none] at hcall
  have hcount : (words text).length ≤ kvstoreMaxTokens := by
    by_contra hmany
    rw [hwords] at hmany
    rcases ws with _ | ⟨key, _ | ⟨value, ws⟩⟩
    · exact hmany (Nat.le_of_ble_eq_true rfl)
    · exact hmany (Nat.le_of_ble_eq_true rfl)
    · rcases c with ⟨e, v⟩
      cases v <;> cases hcall
  obtain ⟨buf, tokens, -, htokens, hiff⟩ :=
    returns_kvstoreRequest_branch (P := P) hbuf hcount hwords
  rw [hwords] at htokens
  rw [hiff, hcommand, runCommand_index]
  exact not_returns_runVerb hcall htokens _

theorem ParsesOwnTokens.carries (h : ParsesOwnTokens P s)
    (htext : textAt s.item.rbuffer 0 = some text) : CarriesItsWords text := by
  by_contra hlacks
  obtain ⟨front, post, hbuf, hfront⟩ := textAt_eq_some htext
  rw [List.eq_nil_of_length_eq_zero hfront, List.nil_append] at hbuf
  exact not_returns_kvstoreRequest hbuf hlacks _ (h.engines text htext hlacks)

/-- The parser reads the tokens of the message only, and a message that lacks
words changes nothing, exactly when the message lacks no words. -/
theorem parsesOwnTokens_iff (P : Platform) (s : Server) :
    ParsesOwnTokens P s ↔
      ∀ text, textAt s.item.rbuffer 0 = some text → CarriesItsWords text := by
  constructor
  · intro h text htext
    exact h.carries htext
  · intro hcarries
    refine ⟨?_, fun text htext hlacks => absurd (hcarries text htext) hlacks⟩
    intro count tokens s' hrun
    cases htext : textAt s.item.rbuffer 0 with
    | none =>
        have hnot := not_returns_split_unterminated htext (fun _ _ => True)
          (List.replicate kvstoreMaxTokens none)
        exact absurd ⟨_, _, hrun, trivial⟩ hnot
    | some text =>
        obtain ⟨front, post, hbuf, hfront⟩ := textAt_eq_some htext
        rw [List.eq_nil_of_length_eq_zero hfront, List.nil_append] at hbuf
        by_cases hcount : (words text).length ≤ kvstoreMaxTokens
        · obtain ⟨buf, rfl, rfl, htokens, -⟩ :=
            (returns_kvstoreSplitToken hbuf hcount).of_run hrun
          exact readsOwnTokens htokens (hcarries text htext)
        · have hnot := not_returns_kvstoreSplitToken hbuf (not_le.mp hcount)
            (fun _ _ => True)
          exact absurd ⟨_, _, hrun, trivial⟩ hnot

/-- `SET` without a key. -/
theorem parsesOwnTokens_bareSet :
    ¬ ParsesOwnTokens samplePlatform (withItem (Connection.fresh.receive
      (commandWord (.array, .set)).bytes) blankServer) := by
  intro h
  have hbuf := @receive_fresh (commandWord (.array, .set)) (by decide)
  have htext := textAt_append [] (commandWord (.array, .set))
    (List.replicate
      (bufferLength - (commandWord (.array, .set)).bytes.length - 1) 0)
  rw [List.nil_append, ← hbuf] at htext
  exact absurd (h.carries htext) (by decide)

end Reading

end CAdvanced
