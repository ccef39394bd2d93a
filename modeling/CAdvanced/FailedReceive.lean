import CAdvanced.CommandLookup

/-!
# A failed `recv` of the epoll front end

`recv_cb` tells the end of a connection from everything else, but not an error
from data: it adds the -1 of `recv` to `rlength` and lets `kvstore_request` work
on what the buffer still holds.
-/

namespace CAdvanced

open Fallible
open Server

/-- Engines, `rlength` and the reply are as before, and no command was looked
up. -/
structure RecvIgnored (s s' : Server) : Prop where
  array : s'.array = s.array
  tree : s'.tree = s.tree
  hash : s'.hash = s.hash
  rlength : s'.item.rlength = s.item.rlength
  wbuffer : s'.item.wbuffer = s.item.wbuffer
  wlength : s'.item.wlength = s.item.wlength
  commandReads : s'.commandReads = s.commandReads

/-! ## The request leaves `rlength` alone -/

def rlengthOf (s : Server) : ℤ := s.item.rlength

section Rlength

theorem rlengthOf_kept {τ : Type} (ops : EngineOps τ) (part : Component τ) :
    OpsKeep rlengthOf (ops.on part) :=
  opsKeep_on (fun t s => congrArg Connection.rlength (part.item_write t s)) ops

theorem preserves_strtokRbuffer (pos : ℕ) :
    Preserves rlengthOf (strtokRbuffer pos) := by
  unfold strtokRbuffer
  apply preserves_within
  intro buf s
  rfl

theorem preserves_kvstoreSplitToken (tokens : Tokens) :
    Preserves rlengthOf (kvstoreSplitToken tokens) := by
  apply preserves_bind preserves_get
  intro s
  apply preserves_bind (preserves_strtokRbuffer 0)
  intro r
  apply preserves_iterate
  intro x
  unfold splitStep
  cases x.token with
  | none => exact preserves_pure _
  | some token =>
      apply preserves_bind
      · unfold storeToken
        exact preserves_ite (preserves_pure _) (preserves_throw _)
      · intro tokens
        apply preserves_bind (preserves_strtokRbuffer x.pos)
        intro r
        exact preserves_pure _

theorem preserves_snprintf (text : CString) :
    Preserves rlengthOf (snprintf text) :=
  preserves_modify (fun _ => rfl)

theorem preserves_clearWbuffer : Preserves rlengthOf clearWbuffer :=
  preserves_modify (fun _ => rfl)

theorem preserves_noteRead (i : ℕ) : Preserves rlengthOf (noteRead i) :=
  preserves_modify (fun _ => rfl)

theorem preserves_runCommand (P : Platform) (tokens : Tokens) (cmd : ℕ) :
    Preserves rlengthOf (runCommand P tokens cmd) := by
  have hindex : ∀ i : Fin kvsCmdEnd,
      commandIndex (some (allCommands.get i)) = i := by decide
  rcases lt_or_ge cmd kvsCmdEnd with hlt | hge
  · have hcmd : commandIndex (some (allCommands.get ⟨cmd, hlt⟩)) = cmd :=
      hindex ⟨cmd, hlt⟩
    rw [← hcmd, runCommand_index]
    exact runVerb_keeps (rlengthOf_kept _ _) preserves_snprintf tokens _
  · obtain ⟨k, rfl⟩ := Nat.exists_eq_add_of_le hge
    rw [Nat.add_comm]
    apply preserves_bind (preserves_noteRead _)
    intro _
    exact preserves_snprintf noMatch

theorem preserves_matchStep (tokens : Tokens) (cmd : ℕ) :
    Preserves rlengthOf (matchStep tokens cmd) := by
  unfold matchStep
  apply preserves_ite _ (preserves_pure _)
  unfold readCommand
  apply preserves_bind
  · apply preserves_bind (preserves_noteRead cmd)
    intro _
    cases commands[cmd]? with
    | none => exact preserves_throw _
    | some name => exact preserves_pure name
  · intro name
    apply preserves_bind (tokenText_keeps tokens 0)
    intro token
    exact preserves_ite (preserves_pure _) (preserves_pure _)

theorem preserves_measureReply : Preserves rlengthOf measureReply := by
  apply preserves_bind (preserves_load _)
  intro reply
  exact preserves_modify (fun _ => rfl)

theorem preserves_kvstoreRequest (P : Platform) :
    Preserves rlengthOf (kvstoreRequest P) := by
  apply preserves_bind (preserves_kvstoreSplitToken _)
  intro r
  obtain ⟨count, tokens⟩ := r
  apply preserves_bind _ (fun _ => preserves_pure _)
  apply preserves_ite (preserves_pure _)
  apply preserves_bind
  · exact preserves_iterate (preserves_matchStep tokens) _ 0
  · intro cmd
    apply preserves_bind preserves_clearWbuffer
    intro _
    apply preserves_bind (preserves_runCommand P tokens cmd)
    intro _
    exact preserves_pure _

end Rlength

theorem yields_recvCb_failed (P : Platform) (s : Server) :
    Yields (recvCb P .failed) s (fun _ s' =>
      s'.item.rlength = s.item.rlength - 1) := by
  unfold recvCb
  refine yields_bind (yields_modify ?_)
  rw [if_neg (by decide)]
  apply yields_bind
  unfold addRlength
  refine yields_bind (yields_get ?_)
  dsimp only
  split_ifs
  · apply yields_modify
    refine yields_bind (Yields.mono (preserves_kvstoreRequest P _) ?_)
    intro _ s₁ hs₁
    refine yields_bind (Yields.mono (preserves_measureReply s₁) ?_)
    intro _ s₂ hs₂
    exact yields_pure (hs₂.trans hs₁)
  · exact yields_throw _ _ _

/-- Whatever the state, a failed `recv` is not ignored. -/
theorem failedRecv_notIgnored (P : Platform) (s : Server) :
    ¬ Returns (recvCb P .failed) s (fun _ s' => RecvIgnored s s') := by
  intro hignored
  obtain ⟨ret, s', hrun, hkept⟩ := hignored
  have hrlength := hkept.rlength
  rw [yields_recvCb_failed P s ret s' hrun] at hrlength
  omega

/-- `COUNT` is answered on a new connection. -/
def countSession : Exec Server Unit := do
  let _ ← initKvengine samplePlatform (fun _ => NULL)
  acceptCb
  let _ ← recvCb samplePlatform (.data (commandWord (.array, .count)).bytes)

/-- Then a `recv` fails: `COUNT` is looked up a second time. -/
theorem failedRecv_repeatsCount : ∃ s,
    countSession.run blankServer = .ok ((), s) ∧
      Returns (recvCb samplePlatform .failed) s (fun _ s' =>
        s'.commandReads = s.commandReads ++ s.commandReads) ∧
      ¬ Returns (recvCb samplePlatform .failed) s
        (fun _ s' => RecvIgnored s s') := by
  have hsession : Returns (do
      countSession
      let reads := (← get).commandReads
      let _ ← recvCb samplePlatform .failed
      return (reads, (← get).commandReads)) blankServer (fun answer _ =>
        answer = ([0, 1, 2, 3], [0, 1, 2, 3, 0, 1, 2, 3])) :=
    returns_of_answer (by decide +kernel)
  simp only [returns_bind, Fallible.returns_get, returns_pure,
    Prod.mk.injEq] at hsession
  obtain ⟨_, s, hrun, ret, s', hrecv, hreads, hreads'⟩ := hsession
  refine ⟨s, hrun, ⟨ret, s', hrecv, ?_⟩, ?_⟩
  · change s'.commandReads = _
    rw [hreads', hreads]
    rfl
  · intro hignored
    have hkept := (hignored.of_run hrecv).commandReads
    rw [hreads, hreads'] at hkept
    exact absurd hkept (by decide)

end CAdvanced
