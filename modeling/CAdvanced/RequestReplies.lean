import CAdvanced.AtomicUpdates
import CAdvanced.FrontEnds

/-!
# Every request gets a reply

The parser writes a reply in each of its branches, but not when it is called
without a token: a message of blanks leaves the cleared buffer as it is, and
nothing is sent.
-/

namespace CAdvanced

open Fallible
open KeyValue
open Server

/-! ## Replies of one engine -/

section Replies

variable {τ : Type} {ops : EngineOps τ} {t : τ}

theorem cstr_ne_nil {b : UInt8} (hb : b ≠ 0) (rest : List UInt8) :
    (cstr (b :: rest)).bytes ≠ [] := by
  simp [cstr, hb]

theorem ascii_digit_ne_zero {c : Char} (hc : c.isDigit = true) :
    UInt8.ofNat c.toNat ≠ 0 := by
  simp only [Char.isDigit, Bool.and_eq_true, decide_eq_true_eq] at hc
  have hlow : 48 ≤ c.toNat := UInt32.le_iff_toNat_le.mp hc.1
  have hhigh : c.toNat ≤ 57 := UInt32.le_iff_toNat_le.mp hc.2
  intro hzero
  have hnat := congrArg UInt8.toNat hzero
  rw [UInt8.toNat_ofNat'] at hnat
  change c.toNat % 2 ^ 8 = 0 at hnat
  omega

theorem decimal_ne_nil (n : ℤ) : (decimal n).bytes ≠ [] := by
  unfold decimal
  dsimp only
  split_ifs
  · exact cstr_ne_nil (by decide) _
  · obtain ⟨c, rest, hdigits⟩ := List.exists_cons_of_ne_nil
      (Nat.toDigits_ne_nil (b := 10) (n := (n.bmod (2 ^ 32)).natAbs))
    have hc : c ∈ Nat.toDigits 10 (n.bmod (2 ^ 32)).natAbs := by
      rw [hdigits]
      exact List.mem_cons_self
    have hdigit := Nat.isDigit_of_mem_toDigits (by decide) (by decide) hc
    rw [List.nil_append, hdigits]
    exact cstr_ne_nil (ascii_digit_ne_zero hdigit) _

/-- Apart from a stored value, no reply is empty. -/
theorem yields_answerCall_ne_nil {call : Call}
    (hcall : ∀ key, call ≠ .get key) :
    Yields (answerCall ops call) t (fun reply _ => reply.bytes ≠ []) := by
  have hfixed : ∀ {reply : CString} {s : τ}, reply.bytes ≠ [] →
      Yields (pure reply : Exec τ CString) s (fun reply _ => reply.bytes ≠ []) :=
    fun h => yields_pure h
  cases call with
  | set key value =>
      apply yields_bind
      intro ret s _
      split_ifs
      · exact hfixed (by decide)
      · exact hfixed (by decide)
  | get key => exact absurd rfl (hcall key)
  | del key =>
      apply yields_bind
      intro ret s _
      split_ifs
      · apply yields_bind
        intro ret' s' _
        split_ifs
        · exact hfixed (by decide)
        · exact hfixed (by decide)
      · exact hfixed (by decide)
  | exist key =>
      apply yields_bind
      intro ret s _
      split_ifs
      · exact hfixed (by decide)
      · exact hfixed (by decide)
  | count =>
      apply yields_bind
      intro ret s _
      split_ifs
      · exact hfixed (by decide)
      · exact hfixed (decimal_ne_nil ret)

end Replies

/-! ## What the lookups find -/

section Lookups

variable {P : Platform} {e : EngineName} {t : EngineState e}
  {L : List Entry} {key : CString}

theorem boundTo_isSome_iff :
    (boundTo L key).isSome ↔ ∃ x ∈ L, entryText x = key := by
  rw [boundTo, Option.isSome_map, List.find?_isSome]
  simp only [decide_eq_true_eq]

theorem not_bound_of_absent (habsent : ∀ x ∈ L, entryText x ≠ key) :
    (boundTo L key).isSome ↔ False := by
  rw [boundTo_eq_none habsent]
  simp

/-- `exist` answers whether the key is bound, and `get` what it is bound to. -/
structure LooksUp (P : Platform) (e : EngineName) (t : EngineState e)
    (L : List Entry) (key : CString) : Prop where
  exist : Returns ((engineOps P e).exist key) t (fun ret t' =>
    t' = t ∧ (0 ≤ ret ↔ (boundTo L key).isSome))
  get : Returns ((engineOps P e).get key) t (fun p t' =>
    t' = t ∧ p.map CharBlock.str = (boundTo L key).join)

theorem looksUp_array {t : KvsArray} (h : EngineEntries P .array t L)
    (key : CString) : LooksUp P .array t L key := by
  obtain ⟨M, rest, hrep, rfl⟩ := h.rep
  constructor
  · apply (hrep.returns_exist key).mono
    intro i t' hexist
    obtain ⟨rfl, hfound⟩ := hexist
    refine ⟨rfl, ?_⟩
    cases hfound with
    | @found A B b hM hkey =>
        refine iff_of_true (by omega) (boundTo_isSome_iff.mpr ?_)
        exact ⟨b.entry, by simp [hM], hkey⟩
    | absent hM =>
        rw [not_bound_of_absent]
        · simp
        · intro x hx
          obtain ⟨b, hb, rfl⟩ := List.mem_map.mp hx
          exact hM b hb
  · apply (hrep.returns_get key).mono
    intro p t' hget
    obtain ⟨rfl, hfound⟩ := hget
    refine ⟨rfl, ?_⟩
    rcases hfound with ⟨b, hb, hkey, rfl⟩ | ⟨habsent, rfl⟩
    · rw [boundTo_of_mem h.distinct (List.mem_map_of_mem hb) hkey]
      rfl
    · rw [boundTo_eq_none]
      · rfl
      · intro x hx
        obtain ⟨b, hb, rfl⟩ := List.mem_map.mp hx
        exact habsent b hb

theorem looksUp_rbtree {t : Rbtree} (h : EngineEntries P .rbtree t L)
    (key : CString) : LooksUp P .rbtree t L key := by
  obtain ⟨T, htree, rfl⟩ := h.rep
  have hiff : (boundTo (bindings T) key).isSome ↔
      ∃ x ∈ T.inorder, x.text = key := by
    rw [boundTo_isSome_iff]
    constructor
    · rintro ⟨y, hy, hkey⟩
      obtain ⟨x, hx, rfl⟩ := List.mem_map.mp hy
      exact ⟨x, hx, hkey⟩
    · rintro ⟨x, hx, hkey⟩
      exact ⟨x.payload, List.mem_map_of_mem hx, hkey⟩
  constructor
  · apply (htree.returns_exist key).mono
    intro ret t' hexist
    obtain ⟨rfl, rfl⟩ := hexist
    refine ⟨rfl, ?_⟩
    rw [hiff]
    split_ifs with hstored
    · simp [hstored]
    · simp [hstored]
  · apply (htree.returns_get key).mono
    intro p t' hget
    obtain ⟨rfl, hfound⟩ := hget
    refine ⟨rfl, ?_⟩
    cases hfound with
    | @found x hx hkey =>
        rw [boundTo_of_mem h.distinct (List.mem_map_of_mem hx) hkey]
        rfl
    | absent habsent =>
        rw [boundTo_eq_none]
        · rfl
        · intro y hy
          obtain ⟨x, hx, rfl⟩ := List.mem_map.mp hy
          exact habsent x hx

theorem looksUp_hash {t : HashTable} (h : EngineEntries P .hash t L)
    (hslot : HasSlot P.char key) : LooksUp P .hash t L key := by
  obtain ⟨chains, rest, hrep, hL⟩ := h.rep
  obtain ⟨i, hi⟩ := Option.isSome_iff_exists.mp hslot
  have hmem : ∀ x ∈ gather chains, x.entry ∈ L := by
    intro x hx
    rw [hL]
    exact List.mem_map_of_mem hx
  have habsentOf : (∀ x ∈ gather chains, x.text ≠ key) →
      ∀ y ∈ L, entryText y ≠ key := by
    intro habsent y hy
    rw [hL] at hy
    obtain ⟨x, hx, rfl⟩ := List.mem_map.mp hy
    exact habsent x hx
  constructor
  · apply (hrep.returns_exist hi).mono
    intro ret t' hexist
    obtain ⟨rfl, hfound⟩ := hexist
    refine ⟨rfl, ?_⟩
    rcases hfound with ⟨rfl, B, x, C, hsplit, hkey⟩ | ⟨rfl, habsent⟩
    · have hx : x ∈ gather chains := mem_gather.mpr ⟨i, by simp [hsplit]⟩
      refine iff_of_true le_rfl (boundTo_isSome_iff.mpr ?_)
      exact ⟨x.entry, hmem x hx, hkey⟩
    · rw [not_bound_of_absent (habsentOf habsent)]
      simp
  · apply (hrep.returns_get hi).mono
    intro p t' hget
    obtain ⟨rfl, hfound⟩ := hget
    refine ⟨rfl, ?_⟩
    cases hfound with
    | @found B C x hsplit hkey =>
        have hx : x ∈ gather chains := mem_gather.mpr ⟨i, by simp [hsplit]⟩
        rw [boundTo_of_mem h.distinct (hmem x hx) hkey]
        rfl
    | absent habsent =>
        rw [boundTo_eq_none (habsentOf habsent)]
        rfl

theorem EngineEntries.looksUp (h : EngineEntries P e t L)
    (hkey : EngineKey P e key) : LooksUp P e t L key := by
  cases e with
  | array => exact looksUp_array h key
  | rbtree => exact looksUp_rbtree h key
  | hash => exact looksUp_hash h hkey

/-- The reply to `GET`. -/
def getReply (L : List Entry) (key : CString) : CString :=
  match boundTo L key with
  | none => noExist
  | some none => errorText
  | some (some value) => value

theorem LooksUp.returns_get_answer (h : LooksUp P e t L key) :
    Returns (answerCall (engineOps P e) (.get key)) t (fun reply _ =>
      reply = getReply L key) := by
  simp only [answerCall, returns_bind]
  apply h.exist.mono
  intro ret t₁ hexist
  obtain ⟨rfl, hret⟩ := hexist
  unfold getReply
  cases hbound : boundTo L key with
  | none =>
      rw [hbound] at hret
      rw [if_neg (by simpa using hret), returns_pure]
  | some value =>
      rw [hbound] at hret
      rw [if_pos (by simpa using hret), returns_bind]
      apply h.get.mono
      intro p t₂ hget
      obtain ⟨-, hp⟩ := hget
      rw [hbound, Option.join_some] at hp
      subst hp
      cases p with
      | none => rw [returns_pure]; rfl
      | some block => rw [returns_pure]; rfl

/-- Only an empty value makes an empty reply. -/
theorem getReply_ne_nil :
    (getReply L key).bytes ≠ [] ↔ boundTo L key ≠ some (some default) := by
  unfold getReply
  cases hbound : boundTo L key with
  | none => exact iff_of_true (by decide) (by simp)
  | some value =>
      cases value with
      | none => exact iff_of_true (by decide) (by simp)
      | some value =>
          simp only [ne_eq, Option.some.injEq]
          exact not_congr (CString.ext_iff (t := default)).symm

end Lookups

/-! ## Calls that are answered -/

/-- What `kvstore_hash_set` asks for is granted; the other engines survive a
refusal. -/
def SetGranted (P : Platform) :
    (e : EngineName) → EngineState e → CString → Prop
  | .hash => fun t key => PutBlocksGranted P.char P.hashHeap t key
  | .array => fun _ _ => True
  | .rbtree => fun _ _ => True

/-- A key for the hash engine has no negative remainder, the blocks of a `HSET`
are granted, and the value of a `GET` is not the empty string. -/
structure CallAnswered (P : Platform) (e : EngineName) (t : EngineState e)
    (L : List Entry) (call : Call) : Prop where
  slot : HashableCall P.char (e, call)
  granted : ∀ key value, call = .set key value → SetGranted P e t key
  value : ∀ key, call = .get key → boundTo L key ≠ some (some default)

section Calls

variable {P : Platform} {e : EngineName} {t : EngineState e}
  {L : List Entry} {call : Call} {key value : CString}

theorem returns_set_iff (h : EngineEntries P e t L)
    (hkey : EngineKey P e key) :
    Returns ((engineOps P e).set key value) t (fun _ _ => True) ↔
      SetGranted P e t key := by
  have hset := (isolates P e).set t L key value h hkey
  cases e with
  | array =>
      exact iff_of_true ((hset.returns trivial).mono (fun _ _ _ => trivial))
        trivial
  | rbtree =>
      exact iff_of_true ((hset.returns trivial).mono (fun _ _ _ => trivial))
        trivial
  | hash =>
      obtain ⟨chains, rest, hrep, hL⟩ := h.rep
      obtain ⟨i, hi⟩ := Option.isSome_iff_exists.mp hkey
      have hdistinct : ((hashEntries chains).map entryText).Nodup := by
        rw [hashEntries, ← hL]
        exact h.distinct
      have hput := hrep.returnsIf_update hi P.hashHeap value
      constructor
      · intro hreturns
        obtain ⟨ret, t', hrun, -⟩ := hreturns
        exact (hput.yields ret t' hrun).2.blocksGranted hrep hdistinct hi
      · intro hgranted
        have hblocks := (hrep.putBlocksGranted_iff hdistinct hi).mp hgranted
        exact (hput.returns hblocks).mono (fun _ _ _ => trivial)

theorem granted_of_ne_set (hset : ∀ key value, call ≠ .set key value) :
    Granted P e call := by
  cases e with
  | array => trivial
  | rbtree => trivial
  | hash =>
      cases call with
      | set key value => exact absurd rfl (hset key value)
      | get => trivial
      | del => trivial
      | exist => trivial
      | count => trivial

/-- `DEL`, `EXIST` and `COUNT` are answered in any case. -/
theorem returns_answer_ne_nil (h : EngineEntries P e t L)
    (hkey : OnKey (EngineKey P e) call)
    (hset : ∀ key value, call ≠ .set key value)
    (hget : ∀ key, call ≠ .get key) :
    Returns (answerCall (engineOps P e) call) t
      (fun reply _ => reply.bytes ≠ []) :=
  returns_of_yields
    ((returnsIf_answerCall h call hkey).returns (granted_of_ne_set hset))
    (yields_answerCall_ne_nil hget)

/-- A call with a key that the engine can take. -/
theorem returns_answer_ne_nil_iff (h : EngineEntries P e t L)
    (hkey : OnKey (EngineKey P e) call) :
    Returns (answerCall (engineOps P e) call) t
        (fun reply _ => reply.bytes ≠ []) ↔
      (∀ key value, call = .set key value → SetGranted P e t key) ∧
        ∀ key, call = .get key → boundTo L key ≠ some (some default) := by
  cases call with
  | set key value =>
      have hreply : Yields (answerCall (engineOps P e) (.set key value)) t
          (fun reply _ => reply.bytes ≠ []) :=
        yields_answerCall_ne_nil (fun _ => by simp)
      have hgranted : SetGranted P e t key ↔
          (∀ k v, (Request.set key value : Call) = .set k v →
            SetGranted P e t k) ∧
          ∀ k, (Request.set key value : Call) = .get k →
            boundTo L k ≠ some (some default) := by
        simp only [Request.set.injEq, and_imp, reduceCtorEq, false_implies,
          implies_true, and_true]
        exact ⟨fun h _ _ hk _ => hk ▸ h, fun h => h key value rfl rfl⟩
      have hset : Returns ((engineOps P e).set key value) t
          (fun _ _ => True) ↔ SetGranted P e t key := returns_set_iff h hkey
      rw [← hgranted, ← hset]
      constructor
      · intro hreturns
        rw [answerCall, returns_bind] at hreturns
        exact hreturns.mono (fun _ _ _ => trivial)
      · intro hreturns
        apply returns_of_yields (P := fun _ _ => True) _ hreply
        rw [answerCall, returns_bind]
        apply hreturns.mono
        intro ret t' _
        split_ifs
        · rw [returns_pure]
          trivial
        · rw [returns_pure]
          trivial
  | get key =>
      have hanswer := (h.looksUp hkey).returns_get_answer
      simp only [reduceCtorEq, false_implies, implies_true, true_and,
        Request.get.injEq, forall_eq']
      rw [← getReply_ne_nil]
      constructor
      · intro hreturns
        obtain ⟨reply, t', -, hne, rfl⟩ := hreturns.and hanswer
        exact hne
      · intro hne
        exact hanswer.mono (fun reply _ hreply => hreply ▸ hne)
  | del key =>
      refine iff_of_true ?_ (by simp)
      exact returns_answer_ne_nil h hkey (by simp) (by simp)
  | exist key =>
      refine iff_of_true ?_ (by simp)
      exact returns_answer_ne_nil h hkey (by simp) (by simp)
  | count =>
      refine iff_of_true ?_ (by simp)
      exact returns_answer_ne_nil h hkey (by simp) (by simp)

theorem callAnswered_iff (h : EngineEntries P e t L) {text : CString}
    (hshort : text.bytes.length < bufferLength)
    (hparse : parseRequest (words text) = some (e, call)) :
    Returns (answerCall (engineOps P e) call) t
        (fun reply _ => reply.bytes ≠ []) ↔ CallAnswered P e t L call := by
  have hslot : HashableCall P.char (e, call) ↔ OnKey (EngineKey P e) call := by
    rw [← hashableCall_iff hshort hparse]
    simp only [HashableRequest, hparse, Option.mem_def, Option.some.injEq,
      forall_eq']
  by_cases hkey : OnKey (EngineKey P e) call
  · rw [returns_answer_ne_nil_iff h hkey]
    constructor
    · intro hcall
      exact ⟨hslot.mpr hkey, hcall.1, hcall.2⟩
    · intro hcall
      exact ⟨hcall.granted, hcall.value⟩
  · refine iff_of_false ?_ (fun hcall => hkey (hslot.mp hcall.slot))
    cases e with
    | array => exact absurd (by cases call <;> trivial) hkey
    | rbtree => exact absurd (by cases call <;> trivial) hkey
    | hash => exact not_returns_answerCall hkey _

end Calls

/-! ## Requests that are answered -/

/-- A message on a fresh connection, up to the length of its reply. -/
def requestReply (P : Platform) (msg : List UInt8) : Exec Server Unit := do
  modify (withItem .fresh)
  recvInto (.data msg)
  let _ ← kvstoreRequest P
  measureReply

/-- A non-empty string in `wbuffer`, whose length is to be sent. -/
def ReplyReady (s : Server) : Prop :=
  ∃ reply, textAt s.item.wbuffer 0 = some reply ∧ reply.bytes ≠ [] ∧
    reply.bytes.length < bufferLength ∧
    s.item.wlength = reply.bytes.length

def GetsReply (P : Platform) (msg : List UInt8) (s : Server) : Prop :=
  Returns (requestReply P msg) s (fun _ s' => ReplyReady s')

/-- The message has one word at least and `KVSTORE_MAX_TOKENS` at most, and the
call that it names, if any, is answered. -/
structure RequestAnswered (P : Platform) (s : Server)
    (entries : EngineName → List Entry) (text : CString) : Prop where
  word : words text ≠ []
  count : (words text).length ≤ kvstoreMaxTokens
  call : ∀ e call, parseRequest (words text) = some (e, call) →
    CallAnswered P e ((enginePart e).read s) (entries e) call

section Requests

variable {P : Platform} {s : Server} {msg : List UInt8} {text : CString}

theorem readerRound_eq (P : Platform) (msg : List UInt8) :
    readerRound P msg = (do requestReply P msg; sendReply) := by
  simp only [readerRound, requestReply, bind_assoc]

theorem cstr_zeros (msg : List UInt8) (n : ℕ) :
    cstr (msg ++ List.replicate n 0) = cstr msg := by
  apply CString.ext
  induction msg with
  | nil => cases n <;> simp [cstr, List.replicate_succ]
  | cons b msg ih =>
      simp only [cstr, List.cons_append, List.takeWhile_cons] at ih ⊢
      split_ifs
      · rw [ih]
      · rfl

/-- The message up to its first NUL stands at the front of the buffer. -/
theorem receive_fresh_bytes (hshort : msg.length < bufferLength) :
    ∃ post, (Connection.fresh.receive msg).rbuffer
      = (cstr msg).bytes ++ 0 :: post := by
  have hbuffer : (Connection.fresh.receive msg).rbuffer
      = msg ++ List.replicate (bufferLength - msg.length) 0 := by
    simp only [Connection.receive, Connection.fresh, List.drop_replicate]
  have hzero : 0 ∈ msg ++ List.replicate (bufferLength - msg.length)
      (0 : UInt8) :=
    List.mem_append_right _ (List.mem_replicate.mpr ⟨by omega, rfl⟩)
  have htext : textAt (msg ++ List.replicate (bufferLength - msg.length) 0) 0
      = some (cstr msg) := by
    rw [textAt, List.drop_zero, if_pos hzero, cstr_zeros]
  obtain ⟨front, post, hsplit, hfront⟩ := textAt_eq_some htext
  rw [List.eq_nil_of_length_eq_zero hfront, List.nil_append] at hsplit
  exact ⟨post, hbuffer.trans hsplit⟩

theorem clip_length_lt (reply : CString) :
    (clip reply).bytes.length < bufferLength := by
  change (reply.bytes.take (bufferLength - 1)).length < bufferLength
  rw [List.length_take]
  exact (min_le_left _ _).trans_lt (by decide)

theorem clip_ne_nil {reply : CString} :
    (clip reply).bytes ≠ [] ↔ reply.bytes ≠ [] := by
  change reply.bytes.take (bufferLength - 1) ≠ [] ↔ _
  simp [List.take_eq_nil_iff]

/-- The reply in the buffer is not empty when the answer is not. -/
theorem returns_measureReply_ready (reply : CString) {buf : List UInt8}
    (hbuf : s.item.wbuffer = printed reply buf) :
    Returns measureReply s (fun _ s' => ReplyReady s') ↔
      reply.bytes ≠ [] := by
  rw [returns_measureReply reply hbuf, ← clip_ne_nil]
  have htext : textAt (withWlength (clip reply).bytes.length s).item.wbuffer 0
      = some (clip reply) := by
    change textAt s.item.wbuffer 0 = _
    rw [hbuf]
    exact textAt_printed_clip reply buf
  constructor
  · intro hready
    obtain ⟨text, htext', hne, -⟩ := hready
    rw [htext, Option.some.injEq] at htext'
    rw [htext']
    exact hne
  · intro hne
    exact ⟨clip reply, htext, hne, clip_length_lt reply, rfl⟩

/-- Nothing is written for a message of blanks. -/
theorem not_getsReply_blank (hshort : msg.length < bufferLength)
    (hwords : words (cstr msg) = []) : ¬ GetsReply P msg s := by
  intro h
  obtain ⟨post, hbuf⟩ := receive_fresh_bytes hshort
  simp only [GetsReply, requestReply, recvInto, returns_bind,
    returns_modify] at h
  have hempty := returns_kvstoreRequest_empty (P := P)
    (s := withItem (Connection.fresh.receive msg) (withItem .fresh s))
    hbuf hwords
  obtain ⟨ret, s₁, -, ⟨buf, rfl⟩, hmeasured⟩ := hempty.and h
  have hzeros : textAt (List.replicate bufferLength 0) 0 = some default := by
    decide +kernel
  change Returns measureReply _ _ at hmeasured
  simp only [measureReply, returns_bind, returns_load] at hmeasured
  obtain ⟨reply, hreply, hmeasured⟩ := hmeasured
  rw [returns_modify] at hmeasured
  obtain ⟨text, htext, hne, -⟩ := hmeasured
  have hdefault : text = default :=
    Option.some.inj (htext.symm.trans hzeros)
  rw [hdefault] at hne
  exact hne rfl

theorem not_getsReply_many (hshort : msg.length < bufferLength)
    (hcount : kvstoreMaxTokens < (words (cstr msg)).length) :
    ¬ GetsReply P msg s := by
  intro h
  obtain ⟨post, hbuf⟩ := receive_fresh_bytes hshort
  simp only [GetsReply, requestReply, recvInto, kvstoreRequest, bind_assoc,
    returns_bind, returns_modify] at h
  exact not_returns_kvstoreSplitToken hbuf hcount _ h

theorem completeMessage_of_carries (hshort : text.bytes.length < bufferLength)
    (hwords : words text ≠ []) (hcarries : CarriesItsWords text) :
    CompleteMessage text := by
  obtain ⟨w, ws, heq⟩ := List.exists_cons_of_ne_nil hwords
  refine ⟨hshort, w, ws, heq, ?_⟩
  rw [heq]
  exact hcarries.parses heq

/-- A message with words that are not too many is answered as its call is. -/
theorem getsReply_answer (hshort : msg.length < bufferLength)
    (hmsg : CompleteMessage (cstr msg))
    (hcount : (words (cstr msg)).length ≤ kvstoreMaxTokens) :
    GetsReply P msg s ↔ Returns (answerMessage P (cstr msg)) s
      (fun reply _ => reply.bytes ≠ []) := by
  obtain ⟨post, hbuf⟩ := receive_fresh_bytes hshort
  obtain ⟨buf, reads, hiff⟩ := returns_kvstoreRequest_message (P := P)
    (s := withFront (Connection.fresh.receive msg) s.commandReads s)
    hbuf rfl hmsg hcount
  simp only [GetsReply, requestReply, recvInto, returns_bind, returns_modify]
  change Returns (kvstoreRequest P)
    (withFront (Connection.fresh.receive msg) s.commandReads s) _ ↔ _
  rw [hiff, returns_answerMessage_front]
  apply returns_congr
  intro reply s'
  exact returns_measureReply_ready reply rfl

/-- A message of fewer than `BUFFER_LENGTH` bytes that carries the words its
command needs gets a reply exactly when it has a word, its words fit the token
array and its call is answered. -/
theorem getsReply_iff (P : Platform) {entries : EngineName → List Entry}
    (hentries : ∀ e, EngineEntries P e ((enginePart e).read s) (entries e))
    (hshort : msg.length < bufferLength)
    (hcarries : CarriesItsWords (cstr msg)) :
    GetsReply P msg s ↔ RequestAnswered P s entries (cstr msg) := by
  by_cases hwords : words (cstr msg) = []
  · exact iff_of_false (not_getsReply_blank hshort hwords)
      (fun h => h.word hwords)
  by_cases hcount : (words (cstr msg)).length ≤ kvstoreMaxTokens
  · have htext : (cstr msg).bytes.length < bufferLength :=
      (cstr_length msg).trans_lt hshort
    rw [getsReply_answer hshort
      (completeMessage_of_carries htext hwords hcarries) hcount]
    unfold answerMessage
    cases hparse : parseRequest (words (cstr msg)) with
    | none =>
        rw [returns_pure]
        refine iff_of_true (by decide) ⟨hwords, hcount, ?_⟩
        intro e call h
        rw [hparse] at h
        cases h
    | some c =>
        obtain ⟨e, call⟩ := c
        rw [returns_within, callAnswered_iff (hentries e) htext hparse]
        constructor
        · intro hcall
          refine ⟨hwords, hcount, ?_⟩
          intro e' call' h
          rw [hparse] at h
          cases h
          exact hcall
        · intro h
          exact h.call e call hparse
  · exact iff_of_false (not_getsReply_many hshort (not_le.mp hcount))
      (fun h => hcount h.count)

end Requests

theorem exists_engines : ∃ (s : Server) (entries : EngineName → List Entry),
    ∀ e, EngineEntries samplePlatform e ((enginePart e).read s)
      (entries e) := by
  obtain ⟨ret, s, hrun, rfl, -⟩ :=
    returns_initKvengine samplePlatform_succeeds blankServer
  choose entries hentries using (EnginesReach.created hrun).entries
  exact ⟨s, entries, hentries⟩

def sampleSet : CString := requestText .array (.set firstKey sampleValue)

theorem getsReply_iff_sample : ∃ s, GetsReply samplePlatform
    sampleSet.bytes s := by
  obtain ⟨s, entries, hentries⟩ := exists_engines
  have hwire : WireCall (.set firstKey sampleValue) := wireCall_numberedKey _
  have hshort : sampleSet.bytes.length < bufferLength := hwire.short .array
  have htext : cstr sampleSet.bytes = sampleSet := cstr_bytes sampleSet
  have hcarries : CarriesItsWords (cstr sampleSet.bytes) := by
    rw [htext]
    decide
  refine ⟨s, (getsReply_iff samplePlatform hentries hshort hcarries).mpr ?_⟩
  rw [htext]
  refine ⟨by decide, (hwire.wellFormed .array).count, ?_⟩
  intro e call hparse
  rw [sampleSet, hwire.parse .array] at hparse
  cases hparse
  exact ⟨trivial, fun _ _ _ => trivial, by simp⟩

/-- A message of one blank is left without a reply. -/
theorem getsReply_blank :
    ∃ (s : Server) (entries : EngineName → List Entry),
      (∀ e, EngineEntries samplePlatform e ((enginePart e).read s)
        (entries e)) ∧
      CarriesItsWords (cstr [space]) ∧
        ¬ GetsReply samplePlatform [space] s := by
  obtain ⟨s, entries, hentries⟩ := exists_engines
  exact ⟨s, entries, hentries, by decide,
    not_getsReply_blank (by decide) (by decide)⟩

end CAdvanced
