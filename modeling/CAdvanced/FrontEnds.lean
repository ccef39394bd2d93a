import CAdvanced.ProtocolRefinement

/-!
# The two network front ends

`epoll_entry.c` keeps one entry of `connection_list` for a connection as long
as it lives, and `recv` writes over the front of its receive buffer only.
`ntyco_entry.c` zeroes a connection for every message.  The entry of one
connection is the `item` of the server; descriptors and the sets of events are
left out.
-/

namespace CAdvanced

open Fallible
open KeyValue
open Server

/-! ## The callbacks -/

inductive Received
  | data (bytes : List UInt8)
  | closed
  | failed

def Received.count : Received → ℤ
  | .data bytes => bytes.length
  | .closed => 0
  | .failed => -1

def Received.bytes : Received → List UInt8
  | .data bytes => bytes
  | _ => []

def recvInto (r : Received) : Exec Server Unit :=
  modify (fun s => withItem (s.item.receive r.bytes) s)

/-- `strlen(wbuffer)` becomes `wlength`. -/
def measureReply : Exec Server Unit := do
  let reply ← load (fun s => textAt s.item.wbuffer 0)
  modify (withWlength reply.bytes.length)

/-- The first `wlength` bytes of `wbuffer`, all of which are sent. -/
def sendReply : Exec Server (List UInt8) := do
  let item := (← get).item
  return item.wbuffer.take item.wlength.toNat

/-- The buffers and lengths of the accepted connection are cleared. -/
def acceptCb : Exec Server Unit := modify (withItem .fresh)

/-- `rlength += count` is an `int` addition. -/
def addRlength (count : ℤ) : Exec Server Unit := do
  let n := (← get).item.rlength + count
  if inInt n then modify (withRlength n)
  else throw .intOverflow

/-- Only the count 0 is taken for the end; a failed `recv` is not told
apart from data. -/
def recvCb (P : Platform) (r : Received) : Exec Server ℤ := do
  recvInto r
  if r.count = 0 then return -1
  else do
    addRlength r.count
    let _ ← kvstoreRequest P
    measureReply
    return r.count

def sendCb : Exec Server (List UInt8) := sendReply

/-- A message comes in and its reply goes out. -/
def epollRound (P : Platform) (msg : CString) :
    Exec Server (List UInt8) := do
  let _ ← recvCb P (.data msg.bytes)
  sendCb

/-- One round of the loop in `server_reader` with a positive count. -/
def readerRound (P : Platform) (bytes : List UInt8) :
    Exec Server (List UInt8) := do
  modify (withItem .fresh)
  recvInto (.data bytes)
  let _ ← kvstoreRequest P
  measureReply
  sendReply

/-- The replies that are sent until the connection is closed. -/
def serverReader (P : Platform) :
    List Received → Exec Server (List (List UInt8))
  | [] => pure []
  | .closed :: _ => pure []
  | .failed :: rest => serverReader P rest
  | .data bytes :: rest => do
      let reply ← readerRound P bytes
      let replies ← serverReader P rest
      return reply :: replies

/-- A connection of the epoll front end. -/
def epollRun (P : Platform) (msgs : List CString) :
    Exec Server (List (List UInt8)) := do
  acceptCb
  runAll (epollRound P) msgs

/-- A connection of the NtyCo front end. -/
def ntycoRun (P : Platform) (msgs : List CString) :
    Exec Server (List (List UInt8)) :=
  serverReader P (msgs.map (fun msg => .data msg.bytes))

/-! ## Messages on a connection -/

/-- A message that fits the buffer: its command is unknown, or it carries the
words the command needs. -/
structure CompleteMessage (msg : CString) : Prop where
  short : msg.bytes.length < bufferLength
  command : ∃ w ws, words msg = w :: ws ∧
    (commandOf w = none ∨ (parseRequest (words msg)).isSome)

instance (msg : CString) : Decidable (CompleteMessage msg) :=
  decidable_of_iff (msg.bytes.length < bufferLength ∧ words msg ≠ [] ∧
      ∀ w ∈ (words msg).head?,
        commandOf w = none ∨ (parseRequest (words msg)).isSome)
    (by
      constructor
      · rintro ⟨hshort, hne, hhead⟩
        obtain ⟨w, ws, hwords⟩ := List.exists_cons_of_ne_nil hne
        exact ⟨hshort, w, ws, hwords, hhead w (by rw [hwords]; rfl)⟩
      · rintro ⟨hshort, w, ws, hwords, hcommand⟩
        refine ⟨hshort, by rw [hwords]; exact List.cons_ne_nil w ws, ?_⟩
        intro w' hw'
        rw [hwords, List.head?_cons, Option.mem_some_iff] at hw'
        exact hw' ▸ hcommand)

/-- What the engines do with a message, and the reply. -/
def answerMessage (P : Platform) (msg : CString) : Exec Server CString :=
  match parseRequest (words msg) with
  | some (e, call) =>
      within (enginePart e).read (enginePart e).write
        (answerCall (engineOps P e) call)
  | none => pure noMatch

/-- The part of a reply that fits `wbuffer`. -/
def clip (reply : CString) : CString where
  bytes := reply.bytes.take (bufferLength - 1)
  noNul := fun h => reply.noNul (List.mem_of_mem_take h)

section Rounds

variable {P : Platform} {s : Server} {msg text : CString} {post : List UInt8}

theorem textAt_printed_clip (reply : CString) (buf : List UInt8) :
    textAt (printed reply buf) 0 = some (clip reply) :=
  textAt_append [] (clip reply) _

theorem take_printed (reply : CString) (buf : List UInt8) :
    (printed reply buf).take (clip reply).bytes.length
      = (clip reply).bytes := by
  rw [printed]
  exact List.take_left

/-- A request is answered by the words in front of the first terminator. -/
theorem returns_kvstoreRequest_message
    (hbuf : s.item.rbuffer = text.bytes ++ 0 :: post)
    (hsame : words text = words msg) (hmsg : CompleteMessage msg)
    (hcount : (words msg).length ≤ kvstoreMaxTokens) :
    ∃ buf reads, ∀ Q : ℤ → Server → Prop,
      Returns (kvstoreRequest P) s Q ↔
        Returns (answerMessage P msg) s (fun reply s' =>
          Q 0 (withFront (s.item.afterReply buf reply) reads s')) := by
  obtain ⟨w, ws, hwords, hcommand⟩ := hmsg.command
  rw [← hsame] at hwords hcommand hcount
  rcases hcommand with hunknown | hknown
  · obtain ⟨buf, reads, -, hiff⟩ := returns_kvstoreRequest_unknown (P := P)
      hbuf hcount hwords hunknown
    refine ⟨buf, reads, ?_⟩
    intro Q
    have hparse : parseRequest (words text) = none := by
      simp [hwords, parseRequest, hunknown]
    rw [hiff, answerMessage, ← hsame, hparse, returns_pure]
  · obtain ⟨⟨e, call⟩, hparse⟩ := Option.isSome_iff_exists.mp hknown
    obtain ⟨buf, reads, -, hiff⟩ := returns_kvstoreRequest (P := P)
      hbuf hcount hparse
    refine ⟨buf, reads, ?_⟩
    intro Q
    rw [hiff, answerMessage, ← hsame, hparse]
    simp only [returns_within]

theorem returns_answerMessage_front (item : Connection) (reads : List ℕ)
    (Q : CString → Server → Prop) :
    Returns (answerMessage P msg) (withFront item reads s) Q ↔
      Returns (answerMessage P msg) s
        (fun reply s' => Q reply (withFront item reads s')) := by
  unfold answerMessage
  cases parseRequest (words msg) with
  | none => simp only [returns_pure]
  | some c =>
      simp only [returns_within, enginePart_read_front,
        enginePart_write_front]

theorem returns_measureReply (reply : CString) {buf : List UInt8}
    (hbuf : s.item.wbuffer = printed reply buf)
    (Q : Unit → Server → Prop) :
    Returns measureReply s Q ↔
      Q () (withWlength (clip reply).bytes.length s) := by
  simp only [measureReply, returns_bind, returns_load, hbuf,
    textAt_printed_clip, Option.some.injEq, exists_eq_left', returns_modify]

theorem returns_sendReply (reply : CString) {buf : List UInt8}
    (hbuf : s.item.wbuffer = printed reply buf)
    (hlength : s.item.wlength = (clip reply).bytes.length)
    (Q : List UInt8 → Server → Prop) :
    Returns sendReply s Q ↔ Q (clip reply).bytes s := by
  simp only [sendReply, returns_bind, Fallible.returns_get, returns_pure,
    hbuf, hlength, Int.toNat_natCast, take_printed]

/-- What both front ends do with a message that was received. -/
def serveMessage (P : Platform) : Exec Server (List UInt8) := do
  let _ ← kvstoreRequest P
  measureReply
  sendReply

theorem returns_serveMessage (item : Connection) (reads : List ℕ)
    (hbuf : item.rbuffer = text.bytes ++ 0 :: post)
    (hsame : words text = words msg) (hmsg : CompleteMessage msg)
    (hcount : (words msg).length ≤ kvstoreMaxTokens) :
    ∃ (front : CString → Connection) (reads' : List ℕ),
      ∀ Q : List UInt8 → Server → Prop,
        Returns (serveMessage P) (withFront item reads s) Q ↔
          Returns (answerMessage P msg) s (fun reply s' =>
            Q (clip reply).bytes (withFront (front reply) reads' s')) := by
  have hbuf' : (withFront item reads s).item.rbuffer
      = text.bytes ++ 0 :: post := hbuf
  obtain ⟨buf, reads', hiff⟩ :=
    returns_kvstoreRequest_message (P := P) hbuf' hsame hmsg hcount
  refine ⟨fun reply => { item.afterReply buf reply with
    wlength := (clip reply).bytes.length }, reads', ?_⟩
  intro Q
  rw [serveMessage, returns_bind, hiff, returns_answerMessage_front]
  apply returns_congr
  intro reply s'
  rw [returns_bind, returns_measureReply reply rfl,
    returns_sendReply reply rfl rfl]
  rfl

theorem not_returns_serveMessage (item : Connection) {reads : List ℕ}
    (hbuf : item.rbuffer = text.bytes ++ 0 :: post)
    (hcount : kvstoreMaxTokens < (words text).length)
    (Q : List UInt8 → Server → Prop) :
    ¬ Returns (serveMessage P) (withFront item reads s) Q := by
  intro h
  rw [serveMessage, returns_bind, kvstoreRequest, returns_bind] at h
  exact not_returns_kvstoreSplitToken (s := withFront item reads s) hbuf
    hcount _ h

/-- The bytes in the receive buffer, up to the first terminator, have the
words of the message alone, and the total of the bytes is an `int`. -/
structure OwnWords (msg : CString) (s : Server) : Prop where
  words_eq : ∃ text, textAt (s.item.receive msg.bytes).rbuffer 0 = some text ∧
    words text = words msg
  total : inInt (s.item.rlength + msg.bytes.length)

/-- The entry of the epoll front end when a message was received. -/
def Connection.afterRecv (bytes : List UInt8) (item : Connection) :
    Connection :=
  { item.receive bytes with rlength := item.rlength + bytes.length }

instance (msg : CString) (s : Server) : Decidable (OwnWords msg s) :=
  decidable_of_iff
    ((∃ text ∈ textAt (s.item.receive msg.bytes).rbuffer 0,
      words text = words msg) ∧ inInt (s.item.rlength + msg.bytes.length))
    ⟨fun h => ⟨h.1, h.2⟩, fun h => ⟨h.words_eq, h.total⟩⟩

theorem returns_epollRound (hmsg : CompleteMessage msg)
    (htotal : inInt (s.item.rlength + msg.bytes.length))
    (Q : List UInt8 → Server → Prop) :
    Returns (epollRound P msg) s Q ↔ Returns (serveMessage P)
      (withFront (s.item.afterRecv msg.bytes) s.commandReads s) Q := by
  have hcount : (msg.bytes.length : ℤ) ≠ 0 := by
    obtain ⟨w, ws, hwords, -⟩ := hmsg.command
    intro hzero
    have hbytes : msg.bytes = [] := by
      rw [← List.length_eq_zero_iff]
      exact_mod_cast hzero
    rw [words, hbytes, byteWords_nil] at hwords
    cases hwords
  have htotal' : inInt ((s.item.receive msg.bytes).rlength
    + msg.bytes.length) := htotal
  simp only [epollRound, recvCb, recvInto, Received.bytes, Received.count,
    sendCb, serveMessage, addRlength, returns_bind, returns_modify,
    Fallible.returns_get, hcount, htotal', withItem_item, reduceIte,
    returns_pure]
  rfl

theorem returns_readerRound (item : Connection) (reads : List ℕ)
    (Q : List UInt8 → Server → Prop) :
    Returns (readerRound P msg.bytes) (withFront item reads s) Q ↔
      Returns (serveMessage P)
        (withFront (Connection.fresh.receive msg.bytes) reads s) Q := by
  simp only [readerRound, recvInto, Received.bytes, serveMessage,
    returns_bind, returns_modify]
  rfl

/-- Only the connections differ. -/
def SameEngines (s t : Server) : Prop :=
  ∃ item reads, t = withFront item reads s

theorem sameOutcome_round {t : Server} (hmsg : CompleteMessage msg)
    (hst : SameEngines s t) (hown : OwnWords msg s) :
    SameOutcome SameEngines ((epollRound P msg).run s)
      ((readerRound P msg.bytes).run t) := by
  obtain ⟨item, reads, rfl⟩ := hst
  obtain ⟨text, htext, hsame⟩ := hown.words_eq
  obtain ⟨front, post, hbuf, hfront⟩ := textAt_eq_some htext
  rw [List.eq_nil_of_length_eq_zero hfront, List.nil_append] at hbuf
  have hfresh := receive_fresh hmsg.short
  by_cases hcount : (words msg).length ≤ kvstoreMaxTokens
  · obtain ⟨f, r, hf⟩ := returns_serveMessage (P := P) (s := s)
      (s.item.afterRecv msg.bytes) s.commandReads hbuf hsame hmsg hcount
    obtain ⟨g, r', hg⟩ := returns_serveMessage (P := P) (s := s)
      (Connection.fresh.receive msg.bytes) reads hfresh rfl hmsg hcount
    have hepoll := fun Q =>
      (returns_epollRound (P := P) hmsg hown.total Q).trans (hf Q)
    have hntyco := fun Q =>
      (returns_readerRound (P := P) item reads Q).trans (hg Q)
    exact sameOutcome_of_iff hepoll hntyco
      (fun reply v => ⟨g reply, r', rfl⟩)
  · have hmany : kvstoreMaxTokens < (words msg).length := not_le.mp hcount
    apply sameOutcome_of_fails
    · intro Q h
      rw [returns_epollRound hmsg hown.total] at h
      exact not_returns_serveMessage (s.item.afterRecv msg.bytes) hbuf
        (by rw [hsame]; exact hmany) Q h
    · intro Q h
      rw [returns_readerRound] at h
      exact not_returns_serveMessage _ hfresh hmany Q h

end Rounds

/-! ## Connections -/

theorem ntycoRun_eq (P : Platform) (msgs : List CString) :
    ntycoRun P msgs = runAll (fun msg => readerRound P msg.bytes) msgs := by
  rw [ntycoRun]
  induction msgs with
  | nil => rfl
  | cons msg rest ih =>
      rw [List.map_cons, serverReader, ih]
      rfl

theorem sameOutcome_runs {P : Platform} {s : Server} {msgs : List CString}
    (hmsgs : ∀ msg ∈ msgs, CompleteMessage msg)
    (hown : RunMeets (epollRound P) OwnWords msgs (withItem .fresh s)) :
    SameOutcome SameEngines
      ((runAll (epollRound P) msgs).run (withItem .fresh s))
      ((runAll (fun msg => readerRound P msg.bytes) msgs).run s) := by
  apply runAll_sameOutcome CompleteMessage OwnWords
  · intro msg s t hmsg hst hown
    exact sameOutcome_round hmsg hst hown
  · exact hmsgs
  · exact ⟨s.item, s.commandReads, rfl⟩
  · exact hown

/-- The replies of the two front ends are the same as long as no byte of an
earlier message is taken for a part of a request. -/
theorem frontEnds_agree (P : Platform) (s : Server) (msgs : List CString)
    (hmsgs : ∀ msg ∈ msgs, CompleteMessage msg)
    (hown : RunMeets (epollRound P) OwnWords msgs (withItem .fresh s))
    (sent : List (List UInt8)) :
    Returns (epollRun P msgs) s (fun replies _ => replies = sent) ↔
      Returns (ntycoRun P msgs) s (fun replies _ => replies = sent) := by
  rw [epollRun, acceptCb, returns_bind, returns_modify, ntycoRun_eq]
  exact (sameOutcome_runs hmsgs hown).returns_iff (fun replies => replies = sent)

def countMessages : List CString :=
  [commandWord (.array, .count), commandWord (.array, .count)]

theorem completeMessage_command (c : Command) (hc : c.2 = .count) :
    CompleteMessage (commandWord c) := by
  rcases c with ⟨e, v⟩
  subst hc
  cases e <;> exact ⟨by decide, _, _, rfl, .inr (by decide)⟩

theorem frontEnds_agree_sample :
    Returns (epollRun samplePlatform countMessages) blankServer
        (fun replies _ => replies =
          [(decimal 0).bytes, (decimal 0).bytes]) ↔
      Returns (ntycoRun samplePlatform countMessages) blankServer
        (fun replies _ => replies =
          [(decimal 0).bytes, (decimal 0).bytes]) := by
  apply frontEnds_agree
  · intro msg hmsg
    simp only [countMessages, List.mem_cons, List.not_mem_nil, or_false,
      or_self] at hmsg
    subst hmsg
    exact completeMessage_command _ rfl
  · decide +kernel

/-- `SET Name Luke` and `COUNT`. -/
def staleMessages : List CString :=
  [⟨ascii ['S', 'E', 'T', ' ', 'N', 'a', 'm', 'e', ' ', 'L', 'u', 'k', 'e'],
      by decide⟩,
    commandWord (.array, .count)]

/-- Behind `COUNT` the bytes `ame` of the first message are still in the
buffer of the epoll front end. -/
theorem frontEnds_staleBytes :
    (∀ msg ∈ staleMessages, CompleteMessage msg) ∧
      Returns (do
          let _ ← initKvengine samplePlatform (fun _ => NULL)
          epollRun samplePlatform staleMessages) blankServer
        (fun replies _ => replies = [success.bytes, noMatch.bytes]) ∧
      Returns (do
          let _ ← initKvengine samplePlatform (fun _ => NULL)
          ntycoRun samplePlatform staleMessages) blankServer
        (fun replies _ => replies = [success.bytes, (decimal 1).bytes]) := by
  refine ⟨?_, returns_of_answer (by decide +kernel),
    returns_of_answer (by decide +kernel)⟩
  intro msg hmsg
  simp only [staleMessages, List.mem_cons, List.not_mem_nil, or_false] at hmsg
  rcases hmsg with rfl | rfl
  · exact ⟨by decide, _, _, rfl, .inr (by decide)⟩
  · exact completeMessage_command _ rfl

end CAdvanced
