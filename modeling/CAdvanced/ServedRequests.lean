import CAdvanced.FrontEnds

/-!
# Requests as the specification answers them

A request that stands in a receive buffer is answered as the three maps answer
it, whichever front end has received it.
-/

namespace CAdvanced

open Fallible
open KeyValue
open Server

section Requests

variable {P : Platform} {s : Server} {m : Stores} {msg : CString}

theorem serverHolds_front (item : Connection) (reads : List ℕ) :
    ServerHolds P (withFront item reads s) m ↔ ServerHolds P s m := by
  constructor
  · rintro ⟨hengines, hshort⟩
    refine ⟨fun e => ?_, hshort⟩
    have hengine := hengines e
    rw [enginePart_read_front] at hengine
    exact hengine
  · rintro ⟨hengines, hshort⟩
    refine ⟨fun e => ?_, hshort⟩
    rw [enginePart_read_front]
    exact hengines e

/-- An unknown command is answered as well. -/
theorem ServerHolds.returns_answerMessage (hP : P.Succeeds)
    (h : ServerHolds P s m) (hmsg : CompleteMessage msg)
    (hcount : (words msg).length ≤ kvstoreMaxTokens)
    (hkey : HashableRequest P.char msg) :
    Returns (answerMessage P msg) s (fun reply s' =>
      clip reply = (protocolSpec msg m).1 ∧
        ServerHolds P s' (protocolSpec msg m).2) := by
  cases hparse : parseRequest (words msg) with
  | none =>
      have hclip : clip noMatch = noMatch := by decide
      simp only [answerMessage, protocolSpec, hparse, returns_pure, hclip]
      exact ⟨trivial, h⟩
  | some c =>
      obtain ⟨e, call⟩ := c
      have hsome : (parseRequest (words msg)).isSome := by
        rw [hparse]
        rfl
      obtain ⟨buf, reads, hiff⟩ := CAdvanced.returns_requestFresh (P := P)
        (s := s) hmsg.short hcount hparse
      have hrequest := (hiff _).mp
        (h.returns_requestFresh hP ⟨hmsg.short, hcount, hsome⟩ hkey)
      rw [answerMessage, hparse]
      simp only [returns_within]
      apply hrequest.mono
      rintro reply t ⟨text, htext, rfl, hholds⟩
      rw [textAt_printed_clip, Option.some.injEq] at htext
      exact ⟨htext, (serverHolds_front _ _).mp hholds⟩

/-- The request is the text in front of the first terminator. -/
theorem ServerHolds.returns_serveMessage (hP : P.Succeeds)
    (h : ServerHolds P s m) (item : Connection) (reads : List ℕ)
    {post : List UInt8} (hbuf : item.rbuffer = msg.bytes ++ 0 :: post)
    (hmsg : CompleteMessage msg)
    (hcount : (words msg).length ≤ kvstoreMaxTokens)
    (hkey : HashableRequest P.char msg) :
    Returns (serveMessage P) (withFront item reads s) (fun reply s' =>
      reply = (protocolSpec msg m).1.bytes ∧
        ServerHolds P s' (protocolSpec msg m).2) := by
  obtain ⟨front, reads', hiff⟩ := CAdvanced.returns_serveMessage (P := P)
    (s := s) item reads hbuf rfl hmsg hcount
  rw [hiff]
  apply (h.returns_answerMessage hP hmsg hcount hkey).mono
  rintro reply s' ⟨hreply, hholds⟩
  exact ⟨congrArg CString.bytes hreply, (serverHolds_front _ _).mpr hholds⟩

theorem ServerHolds.returns_readerRound (hP : P.Succeeds)
    (h : ServerHolds P s m) (hmsg : CompleteMessage msg)
    (hcount : (words msg).length ≤ kvstoreMaxTokens)
    (hkey : HashableRequest P.char msg) :
    Returns (readerRound P msg.bytes) s (fun reply s' =>
      reply = (protocolSpec msg m).1.bytes ∧
        ServerHolds P s' (protocolSpec msg m).2) := by
  apply (CAdvanced.returns_readerRound (P := P) (s := s) s.item
    s.commandReads _).mpr
  exact h.returns_serveMessage hP _ _ (receive_fresh hmsg.short) hmsg hcount
    hkey

end Requests

/-- The engines behind `init_kvengine`. -/
def sampleStore : Server :=
  ((initKvengine samplePlatform (fun _ => NULL)).run
    blankServer).toOption.elim blankServer Prod.snd

theorem sampleStore_holds : ServerHolds samplePlatform sampleStore .empty := by
  obtain ⟨ret, store, hrun, -, hholds⟩ :=
    returns_initKvengine samplePlatform_succeeds blankServer
  have hsame : sampleStore = store := by
    rw [sampleStore, hrun]
    rfl
  rw [hsame]
  exact hholds

end CAdvanced
