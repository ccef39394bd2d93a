import CAdvanced.ArrayEngine
import CAdvanced.HashRefinement
import CAdvanced.ProtocolParsing
import CAdvanced.RbtreeEngine

/-!
# The protocol refines three finite maps

Each engine stands for a finite map of its own.  A well-formed message names an
engine and a call, and its reply is the reply of this engine's map, as long as
every key for the hash engine has a slot.
-/

namespace CAdvanced

open Fallible
open KeyValue
open Server

/-! ## The abstract server -/

abbrev Stores := EngineName → StringMap

/-- Only the array has a capacity. -/
def Full (e : EngineName) (m : StringMap) : Prop :=
  e = .array ∧ m.keys.card = kvsArraySize

instance (e : EngineName) (m : StringMap) : Decidable (Full e m) :=
  inferInstanceAs (Decidable (_ ∧ _))

/-- The reply of a map to a call, and the map afterwards. -/
def answer (e : EngineName) : Call → StringMap → CString × StringMap
  | .set key value, m =>
      if Full e m then (errorText, m) else (success, m.insert key value)
  | .get key, m => ((m.lookup key).getD noExist, m)
  | .del key, m =>
      if key ∈ m then (success, m.erase key) else (noExist, m)
  | .exist key, m => (if key ∈ m then existed else noExist, m)
  | .count, m => (decimal m.keys.card, m)

def protocolSpec (msg : CString) (m : Stores) : CString × Stores :=
  match parseRequest (words msg) with
  | some (e, call) =>
      ((answer e call (m e)).1,
        Function.update m e (answer e call (m e)).2)
  | none => (noMatch, m)

def Stores.empty : Stores := fun _ => ∅

/-- A message that fits the buffer and carries the words its command needs. -/
structure WellFormedRequest (msg : CString) : Prop where
  short : msg.bytes.length < bufferLength
  count : (words msg).length ≤ kvstoreMaxTokens
  command : (parseRequest (words msg)).isSome

/-! ## What an engine offers -/

/-- The operations of an engine whose states stand for finite maps. -/
structure Serves {τ : Type} (e : EngineName) (ops : EngineOps τ)
    (ok : CString → Prop) (R : τ → StringMap → Prop) : Prop where
  set : ∀ t m key value, R t m → ok key →
    Returns (ops.set key value) t (fun ret t' =>
      if Full e m then ret ≠ 0 ∧ R t' m
      else ret = 0 ∧ R t' (m.insert key value))
  get : ∀ t m key, R t m → ok key →
    Returns (ops.get key) t (fun p t' =>
      t' = t ∧ p.map CharBlock.str = m.lookup key)
  del : ∀ t m key, R t m → ok key → key ∈ m →
    Returns (ops.del key) t (fun ret t' => ret = 0 ∧ R t' (m.erase key))
  exist : ∀ t m key, R t m → ok key →
    Returns (ops.exist key) t (fun ret t' => t' = t ∧ (0 ≤ ret ↔ key ∈ m))
  count : ∀ t m, R t m →
    Returns ops.count t (fun ret t' => t' = t ∧ ret = m.keys.card)

section Serves

variable {τ : Type} {e : EngineName} {ops : EngineOps τ}
  {ok : CString → Prop} {R : τ → StringMap → Prop} {t : τ} {m : StringMap}

theorem Serves.returns_answerCall (hserves : Serves e ops ok R) (h : R t m)
    {call : Call} (hok : OnKey ok call) :
    Returns (answerCall ops call) t (fun reply t' =>
      reply = (answer e call m).1 ∧ R t' (answer e call m).2) := by
  cases call with
  | set key value =>
      simp only [answerCall, answer, returns_bind, returns_ite, returns_pure]
      apply (hserves.set t m key value h hok).mono
      intro ret t' hret
      by_cases hfull : Full e m
      · simp only [hfull, reduceIte] at hret ⊢
        simp only [hret.1, reduceIte]
        exact ⟨trivial, hret.2⟩
      · simp only [hfull, reduceIte] at hret ⊢
        simp only [hret.1, reduceIte]
        exact ⟨trivial, hret.2⟩
  | get key =>
      simp only [answerCall, answer, returns_bind, returns_ite, returns_pure]
      apply (hserves.exist t m key h hok).mono
      intro ret t₁ hret
      rcases hret with ⟨rfl, hret⟩
      by_cases hkey : key ∈ m
      · simp only [hret.mpr hkey, reduceIte]
        apply (hserves.get t₁ m key h hok).mono
        intro p t₂ hp
        rcases hp with ⟨rfl, hp⟩
        obtain ⟨value, hvalue⟩ := Finmap.mem_iff.mp hkey
        rw [hvalue] at hp ⊢
        cases p with
        | none => cases hp
        | some block =>
            rw [returns_pure]
            exact ⟨Option.some.inj hp, h⟩
      · simp only [hret, hkey, reduceIte]
        rw [Finmap.lookup_eq_none.mpr hkey]
        exact ⟨rfl, h⟩
  | del key =>
      simp only [answerCall, answer, returns_bind, returns_ite, returns_pure]
      apply (hserves.exist t m key h hok).mono
      intro ret t₁ hret
      rcases hret with ⟨rfl, hret⟩
      by_cases hkey : key ∈ m
      · simp only [hret, hkey, reduceIte]
        apply (hserves.del t₁ m key h hok hkey).mono
        intro ret' t₂ hret'
        simp only [hret'.1, reduceIte]
        exact ⟨trivial, hret'.2⟩
      · simp only [hret, hkey, reduceIte]
        exact ⟨trivial, h⟩
  | exist key =>
      simp only [answerCall, answer, returns_bind, returns_ite, returns_pure]
      apply (hserves.exist t m key h hok).mono
      intro ret t₁ hret
      rcases hret with ⟨rfl, hret⟩
      by_cases hkey : key ∈ m
      · simp only [hret, hkey, reduceIte]
        exact ⟨trivial, h⟩
      · simp only [hret, hkey, reduceIte]
        exact ⟨trivial, h⟩
  | count =>
      simp only [answerCall, answer, returns_bind, returns_ite, returns_pure]
      apply (hserves.count t m h).mono
      intro ret t₁ hret
      rcases hret with ⟨rfl, rfl⟩
      have hpos : ¬ (m.keys.card : ℤ) < 0 := by omega
      simp only [hpos, reduceIte]
      exact ⟨trivial, h⟩

end Serves

/-! ## The three engines -/

def Platform.Succeeds (P : Platform) : Prop :=
  P.arrayHeap.Succeeds ∧ P.rbtreeHeap.Succeeds ∧ P.hashHeap.Succeeds

/-- The state of an engine stands for the map `m`. -/
def EngineHolds (P : Platform) :
    (e : EngineName) → EngineState e → StringMap → Prop
  | .array => fun t m => ∃ rest order, ArrayHolds rest t ⟨order, m⟩
  | .rbtree => fun t m => RbtreeHolds t m
  | .hash => fun t m => ∃ rest, HashHolds P.char rest t m

/-- The keys that an engine can take. -/
def EngineKey (P : Platform) : EngineName → CString → Prop
  | .hash => HasSlot P.char
  | _ => fun _ => True

section Engines

variable {P : Platform}

theorem not_full_rbtree (m : StringMap) : ¬ Full .rbtree m :=
  fun h => nomatch h.1

theorem not_full_hash (m : StringMap) : ¬ Full .hash m :=
  fun h => nomatch h.1

theorem full_array (m : StringMap) :
    Full .array m ↔ m.keys.card = kvsArraySize :=
  ⟨fun h => h.2, fun h => ⟨rfl, h⟩⟩

theorem serves_array (hP : P.Succeeds) :
    Serves .array (kvstoreArray P) (EngineKey P .array)
      (EngineHolds P .array) where
  set := by
    intro t m key value h _
    obtain ⟨rest, order, h⟩ := h
    apply (h.returns_set hP.1 key value).mono
    intro ret t' hret
    simp only [arraySpec] at hret
    by_cases hfull : m.keys.card = kvsArraySize
    · simp only [hfull, reduceIte, Reply.code.injEq] at hret
      simp only [full_array, hfull, reduceIte]
      exact ⟨by omega, rest, order, hret.2⟩
    · simp only [hfull, reduceIte, Reply.code.injEq] at hret
      simp only [full_array, hfull, reduceIte]
      exact ⟨hret.1, rest, _, hret.2⟩
  get := by
    intro t m key h _
    obtain ⟨rest, order, h⟩ := h
    exact h.returns_get key
  del := by
    intro t m key h _ hkey
    obtain ⟨rest, order, h⟩ := h
    apply (h.returns_del key).mono
    intro ret t' hret
    simp only [arraySpec, hkey, reduceIte, Reply.code.injEq] at hret
    exact ⟨hret.1, rest, _, hret.2⟩
  exist := by
    intro t m key h _
    obtain ⟨rest, order, h⟩ := h
    apply (h.returns_exist key).mono
    intro ret t' hret
    rcases hret with ⟨rfl, rfl⟩
    refine ⟨rfl, ?_⟩
    split_ifs with hkey
    · simp only [hkey, iff_true]
      omega
    · simp [hkey]
  count := by
    intro t m h
    obtain ⟨rest, order, h⟩ := h
    change Returns arrayCount t _
    simp only [arrayCount, KvsArray.indexOf, returns_bind, Fallible.returns_get,
      returns_pure]
    exact ⟨trivial, h.index_eq⟩

theorem serves_rbtree (hP : P.Succeeds) :
    Serves .rbtree (kvstoreRbtree P) (EngineKey P .rbtree)
      (EngineHolds P .rbtree) where
  set := by
    intro t m key value h _
    simp only [not_full_rbtree, reduceIte]
    exact RbtreeHolds.returns_set hP.2.1 h key value
  get := fun t m key h _ => RbtreeHolds.returns_get h key
  del := by
    intro t m key h _ hkey
    apply (RbtreeHolds.returns_del h key).mono
    intro ret t' hret
    simp only [hkey, reduceIte] at hret
    exact hret
  exist := by
    intro t m key h _
    apply (RbtreeHolds.returns_exist h key).mono
    intro ret t' hret
    rcases hret with ⟨rfl, rfl⟩
    refine ⟨rfl, ?_⟩
    split_ifs with hkey
    · simp [hkey]
    · simp [hkey]
  count := by
    intro t m h
    change Returns rbtreeCount t _
    simp only [rbtreeCount, returns_bind, Fallible.returns_get, returns_pure]
    exact ⟨trivial, RbtreeHolds.count_eq h⟩

theorem serves_hash (hP : P.Succeeds) :
    Serves .hash (kvstoreHash P) (EngineKey P .hash)
      (EngineHolds P .hash) where
  set := by
    intro t m key value h hkey
    obtain ⟨rest, h⟩ := h
    obtain ⟨i, hi⟩ := Option.isSome_iff_exists.mp hkey
    simp only [not_full_hash, reduceIte]
    apply (h.returns_put hP.2.2 hi value).mono
    intro ret t' hret
    exact ⟨hret.1, rest, hret.2⟩
  get := by
    intro t m key h hkey
    obtain ⟨rest, h⟩ := h
    obtain ⟨i, hi⟩ := Option.isSome_iff_exists.mp hkey
    exact h.returns_get hi
  del := by
    intro t m key h hslot hkey
    obtain ⟨rest, h⟩ := h
    obtain ⟨i, hi⟩ := Option.isSome_iff_exists.mp hslot
    apply (h.returns_delete hi).mono
    intro ret t' hret
    simp only [hkey, reduceIte] at hret
    exact ⟨hret.1, rest, hret.2⟩
  exist := by
    intro t m key h hslot
    obtain ⟨rest, h⟩ := h
    obtain ⟨i, hi⟩ := Option.isSome_iff_exists.mp hslot
    apply (h.returns_exist hi).mono
    intro ret t' hret
    rcases hret with ⟨rfl, rfl⟩
    refine ⟨rfl, ?_⟩
    split_ifs with hkey
    · simp [hkey]
    · simp [hkey]
  count := by
    intro t m h
    obtain ⟨rest, h⟩ := h
    change Returns countHashtable t _
    simp only [countHashtable, returns_bind, Fallible.returns_get,
      returns_pure]
    exact ⟨trivial, h.count_eq⟩

theorem serves (hP : P.Succeeds) (e : EngineName) :
    Serves e (engineOps P e) (EngineKey P e) (EngineHolds P e) := by
  cases e with
  | array => exact serves_array hP
  | rbtree => exact serves_rbtree hP
  | hash => exact serves_hash hP

end Engines

/-! ## The server -/

/-- The engines hold their maps, and every stored value fits a reply. -/
structure ServerHolds (P : Platform) (s : Server) (m : Stores) : Prop where
  engines : ∀ e, EngineHolds P e ((enginePart e).read s) (m e)
  short : ∀ e key value, (m e).lookup key = some value →
    value.bytes.length < bufferLength

def InCall (w : CString) : Call → Prop
  | .set key value => w = key ∨ w = value
  | .get key => w = key
  | .del key => w = key
  | .exist key => w = key
  | .count => False

theorem mem_of_callOf {v : Verb} {ws : List CString} {call : Call}
    {w : CString} (h : callOf v ws = some call) (hw : InCall w call) :
    w ∈ ws := by
  unfold callOf at h
  split at h <;> cases h
  next => rcases hw with rfl | rfl <;> simp
  next => rw [show w = _ from hw]; simp
  next => rw [show w = _ from hw]; simp
  next => rw [show w = _ from hw]; simp
  next => cases hw

theorem mem_of_parseRequest {ws : List CString} {e : EngineName}
    {call : Call} {w : CString} (h : parseRequest ws = some (e, call))
    (hw : InCall w call) : w ∈ ws := by
  unfold parseRequest at h
  split at h
  next => cases h
  next =>
    split at h
    next => cases h
    next =>
      obtain ⟨call', hcall, heq⟩ := Option.map_eq_some_iff.mp h
      cases heq
      exact mem_of_callOf hcall hw

theorem decimal_length (n : ℤ) : (decimal n).bytes.length < bufferLength := by
  have hbound : (n.bmod (2 ^ 32)).natAbs < 10 ^ 10 := by
    have hlow := Int.le_bmod (x := n) (m := 2 ^ 32) (by decide)
    have hhigh := Int.bmod_lt (x := n) (m := 2 ^ 32) (by decide)
    norm_num at hlow hhigh ⊢
    omega
  have hdigits := (Nat.length_toDigits_le_iff (b := 10) (k := 10) (by decide)
    (by decide)).mpr hbound
  apply (cstr_length _).trans_lt
  simp only [ascii, List.length_map, List.length_append]
  split_ifs
  · simp only [List.length_cons, List.length_nil, bufferLength]
    omega
  · simp only [List.length_nil, bufferLength]
    omega

/-- A reply fits the buffer when the stored values do. -/
theorem answer_length {e : EngineName} {call : Call} {m : StringMap}
    (hshort : ∀ key value, m.lookup key = some value →
      value.bytes.length < bufferLength) :
    (answer e call m).1.bytes.length < bufferLength := by
  cases call with
  | set key value =>
      simp only [answer]
      split_ifs
      · exact (show errorText.bytes.length < bufferLength by decide)
      · exact (show success.bytes.length < bufferLength by decide)
  | get key =>
      simp only [answer]
      cases hvalue : m.lookup key with
      | none => decide
      | some value => exact hshort key value hvalue
  | del key =>
      simp only [answer]
      split_ifs
      · exact (show success.bytes.length < bufferLength by decide)
      · exact (show noExist.bytes.length < bufferLength by decide)
  | exist key =>
      simp only [answer]
      split_ifs <;> decide
  | count => exact decimal_length _

/-- Only a value of the call enters the map. -/
theorem answer_lookup {e : EngineName} {call : Call} {m : StringMap}
    {key value : CString}
    (h : ((answer e call m).2).lookup key = some value) :
    m.lookup key = some value ∨ InCall value call := by
  cases call with
  | set k v =>
      simp only [answer] at h
      split_ifs at h
      · exact Or.inl h
      · by_cases hkey : key = k
        · subst hkey
          rw [Finmap.lookup_insert] at h
          exact Or.inr (Or.inr (Option.some.inj h).symm)
        · rw [Finmap.lookup_insert_of_ne _ hkey] at h
          exact Or.inl h
  | get k => exact Or.inl h
  | del k =>
      simp only [answer] at h
      split_ifs at h
      · by_cases hkey : key = k
        · subst hkey
          rw [Finmap.lookup_erase] at h
          cases h
        · rw [Finmap.lookup_erase_ne hkey] at h
          exact Or.inl h
      · exact Or.inl h
  | exist k => exact Or.inl h
  | count => exact Or.inl h

section Server

variable {P : Platform} {s : Server} {m : Stores} {msg : CString}
  {e : EngineName} {call : Call}

theorem receive_fresh (hshort : msg.bytes.length < bufferLength) :
    ((Connection.fresh.receive msg.bytes).rbuffer)
      = msg.bytes ++ 0 ::
        List.replicate (bufferLength - msg.bytes.length - 1) 0 := by
  simp only [Connection.receive, Connection.fresh, List.drop_replicate]
  rw [show bufferLength - msg.bytes.length
    = bufferLength - msg.bytes.length - 1 + 1 by omega, List.replicate_succ]
  rfl

/-- A message for an engine is answered by this engine. -/
theorem returns_requestFresh (hshort : msg.bytes.length < bufferLength)
    (hcount : (words msg).length ≤ kvstoreMaxTokens)
    (hparse : parseRequest (words msg) = some (e, call)) :
    ∃ buf reads, ∀ Q : CString → Server → Prop,
      Returns (requestFresh P msg) s Q ↔
        Returns (answerCall (engineOps P e) call) ((enginePart e).read s)
          (fun reply t => ∃ text, textAt (printed reply
              (List.replicate bufferLength 0)) 0 = some text ∧
            Q text (withFront (Connection.fresh.afterReply buf reply) reads
              ((enginePart e).write t s))) := by
  have hbuf : (withItem (Connection.fresh.receive msg.bytes) s).item.rbuffer
      = _ := receive_fresh hshort
  obtain ⟨buf, reads, -, hiff⟩ :=
    returns_kvstoreRequest (P := P) hbuf hcount hparse
  refine ⟨buf, reads, ?_⟩
  intro Q
  simp only [requestFresh, returns_bind, returns_modify]
  rw [hiff]
  simp only [returns_load]
  cases e <;> rfl

end Server

/-! ## Keys of the hash engine -/

/-- A key that goes to the hash engine has no negative remainder. -/
def HashableCall (ch : PlainChar) : EngineName × Call → Prop
  | (.hash, call) => OnKey (NonnegRemainder ch) call
  | (.array, _) => True
  | (.rbtree, _) => True

instance (ch : PlainChar) : DecidablePred (HashableCall ch)
  | (.hash, call) => inferInstanceAs (Decidable (OnKey _ call))
  | (.array, _) => inferInstanceAs (Decidable True)
  | (.rbtree, _) => inferInstanceAs (Decidable True)

def HashableRequest (ch : PlainChar) (msg : CString) : Prop :=
  ∀ c ∈ parseRequest (words msg), HashableCall ch c

instance (ch : PlainChar) (msg : CString) :
    Decidable (HashableRequest ch msg) :=
  inferInstanceAs (Decidable (∀ c ∈ parseRequest (words msg), _))

theorem onKey_congr {p q : CString → Prop} {call : Call}
    (h : ∀ key, InCall key call → (p key ↔ q key)) :
    OnKey p call ↔ OnKey q call := by
  cases call with
  | set key value => exact h key (Or.inl rfl)
  | get key => exact h key rfl
  | del key => exact h key rfl
  | exist key => exact h key rfl
  | count => exact Iff.rfl

/-- The words of a message are short. -/
theorem hashableCall_iff {P : Platform} {msg : CString} {e : EngineName}
    {call : Call} (hshort : msg.bytes.length < bufferLength)
    (hparse : parseRequest (words msg) = some (e, call)) :
    HashableRequest P.char msg ↔ OnKey (EngineKey P e) call := by
  simp only [HashableRequest, hparse, Option.mem_def, Option.some.injEq,
    forall_eq']
  cases e with
  | array => exact iff_of_true trivial (by cases call <;> trivial)
  | rbtree => exact iff_of_true trivial (by cases call <;> trivial)
  | hash =>
      apply onKey_congr
      intro key hkey
      apply (hashSlot_isSome_iff_of_short P.char _).symm
      have hlength := words_length (mem_of_parseRequest hparse hkey)
      exact (hlength.trans_lt hshort).le

theorem not_returns_answerCall {P : Platform} {t : HashTable} {call : Call}
    (hkey : ¬ OnKey (HasSlot P.char) call)
    (Q : CString → HashTable → Prop) :
    ¬ Returns (answerCall (kvstoreHash P) call) t Q := by
  have hnone : ∀ key, ¬ HasSlot P.char key → hashSlot P.char key = none := by
    intro key hkey
    simpa [HasSlot] using hkey
  intro h
  cases call with
  | set key value =>
      rw [answerCall, returns_bind] at h
      exact not_returns_putKvHashtable (hnone key hkey) _ _ _ h
  | get key =>
      rw [answerCall, returns_bind] at h
      exact not_returns_kvExist (hnone key hkey) _ h
  | del key =>
      rw [answerCall, returns_bind] at h
      exact not_returns_kvExist (hnone key hkey) _ h
  | exist key =>
      rw [answerCall, returns_bind] at h
      exact not_returns_kvExist (hnone key hkey) _ h
  | count => exact hkey trivial

/-! ## Runs -/

section Runs

variable {P : Platform} {s : Server} {m : Stores} {msg : CString}

theorem ServerHolds.returns_requestFresh (hP : P.Succeeds)
    (h : ServerHolds P s m) (hmsg : WellFormedRequest msg)
    (hkey : HashableRequest P.char msg) :
    Returns (requestFresh P msg) s (fun reply s' =>
      reply = (protocolSpec msg m).1 ∧
        ServerHolds P s' (protocolSpec msg m).2) := by
  obtain ⟨⟨e, call⟩, hparse⟩ := Option.isSome_iff_exists.mp hmsg.command
  have hok := (hashableCall_iff (P := P) hmsg.short hparse).mp hkey
  obtain ⟨buf, reads, hiff⟩ :=
    CAdvanced.returns_requestFresh (P := P) (s := s) hmsg.short hmsg.count
      hparse
  rw [hiff]
  simp only [protocolSpec, hparse]
  apply ((serves hP e).returns_answerCall (h.engines e) hok).mono
  intro reply t ht
  rcases ht with ⟨rfl, ht⟩
  have hreply : (answer e call (m e)).1.bytes.length < bufferLength :=
    answer_length (h.short e)
  refine ⟨_, textAt_printed hreply _, rfl, ?_, ?_⟩
  · intro e'
    rw [enginePart_read_front]
    by_cases he : e' = e
    · subst he
      rw [(enginePart e').read_write, Function.update_self]
      exact ht
    · rw [Function.update_of_ne he]
      have hother : (enginePart e').read ((enginePart e).write t s)
          = (enginePart e').read s := by
        cases e <;> cases e' <;> first | exact absurd rfl he | rfl
      rw [hother]
      exact h.engines e'
  · intro e' key value hvalue
    by_cases he : e' = e
    · subst he
      rw [Function.update_self] at hvalue
      rcases answer_lookup hvalue with hvalue | hvalue
      · exact h.short e' key value hvalue
      · have hlength := words_length (mem_of_parseRequest hparse hvalue)
        exact hlength.trans_lt hmsg.short
    · rw [Function.update_of_ne he] at hvalue
      exact h.short e' key value hvalue

theorem not_returns_requestFresh (hmsg : WellFormedRequest msg)
    (hkey : ¬ HashableRequest P.char msg) (Q : CString → Server → Prop) :
    ¬ Returns (requestFresh P msg) s Q := by
  obtain ⟨⟨e, call⟩, hparse⟩ := Option.isSome_iff_exists.mp hmsg.command
  rw [hashableCall_iff (P := P) hmsg.short hparse] at hkey
  obtain ⟨buf, reads, hiff⟩ :=
    CAdvanced.returns_requestFresh (P := P) (s := s) hmsg.short hmsg.count
      hparse
  rw [hiff]
  cases e with
  | array => exact absurd (by cases call <;> trivial) hkey
  | rbtree => exact absurd (by cases call <;> trivial) hkey
  | hash => exact not_returns_answerCall hkey _

theorem returns_initKvengine (hP : P.Succeeds) (s : Server) :
    Returns (initKvengine P (fun _ => NULL)) s (fun ret s' =>
      ret = 0 ∧ ServerHolds P s' Stores.empty) := by
  simp only [initKvengine, returns_bind, returns_within]
  apply (returns_arrayCreate hP.1 _).mono
  intro ret a ha
  rcases ha with ⟨rfl, ha⟩
  simp only [ne_eq, not_true_eq_false, reduceIte, returns_bind,
    returns_within]
  apply (returns_rbtreeCreate hP.2.1 _).mono
  intro ret t ht
  rcases ht with ⟨rfl, ht⟩
  simp only [not_true_eq_false, reduceIte, returns_bind, returns_within]
  apply (returns_createHashtable P.hashHeap _ _).mono
  intro ret h hh
  rcases hh with ⟨-, hplace⟩ | ⟨rfl, -, hslots, hmax, hcount, howns⟩
  · have hsome := hP.2.2 (hashPart.read
      (treePart.write t (arrayPart.write a s))).arena.requests
      (hashPart.read (treePart.write t (arrayPart.write a s))).arena.live
    rw [hplace] at hsome
    cases hsome
  · simp only [not_true_eq_false, reduceIte, returns_pure, true_and]
    refine ⟨?_, ?_⟩
    · intro e
      cases e with
      | array => exact ⟨_, _, ha⟩
      | rbtree => exact ht.holds
      | hash =>
          exact ⟨_, hashHolds_empty (fun i => congrFun hslots i) hmax hcount
            howns⟩
    · intro e key value hvalue
      rw [Stores.empty, Finmap.lookup_empty] at hvalue
      cases hvalue

/-- The engines are created, then the messages come in one after the other. -/
def protocolRun (P : Platform) (msgs : List CString) :
    Exec Server (List CString) := do
  let _ ← initKvengine P (fun _ => NULL)
  runAll (requestFresh P) msgs

theorem returns_protocolRun_iff (hP : P.Succeeds) (s : Server)
    {msgs : List CString} (hmsgs : ∀ msg ∈ msgs, WellFormedRequest msg) :
    Returns (protocolRun P msgs) s (fun replies s' =>
      replies = (specRun protocolSpec msgs .empty).1 ∧
        ServerHolds P s' (specRun protocolSpec msgs .empty).2) ↔
    ∀ msg ∈ msgs, HashableRequest P.char msg := by
  obtain ⟨ret, s₁, hrun, -, hs₁⟩ := returns_initKvengine hP s
  have hall : SpecMeets protocolSpec
      (fun msg _ => HashableRequest P.char msg) msgs Stores.empty ↔
      ∀ msg ∈ msgs, HashableRequest P.char msg := specMeets_iff_forall
  rw [protocolRun, Returns.bind_iff ⟨ret, s₁, hrun, rfl, rfl⟩, ← hall]
  apply runAll_simulates_iff WellFormedRequest
    (fun msg _ => HashableRequest P.char msg)
  · intro msg s m hmsg hs hkey
    exact hs.returns_requestFresh hP hmsg hkey
  · intro msg s m hmsg _ hkey
    exact not_returns_requestFresh hmsg hkey _
  · exact hmsgs
  · exact hs₁

/-- Every reply is the reply of the three maps exactly when no key of the hash
engine has a negative remainder. -/
theorem protocolRun_refines_protocolSpec_iff (P : Platform) (hP : P.Succeeds)
    (s : Server) (msgs : List CString)
    (hmsgs : ∀ msg ∈ msgs, WellFormedRequest msg) :
    Returns (protocolRun P msgs) s (fun replies s' =>
      replies = (specRun protocolSpec msgs .empty).1 ∧
        ServerHolds P s' (specRun protocolSpec msgs .empty).2) ↔
    ∀ msg ∈ msgs, HashableRequest P.char msg :=
  returns_protocolRun_iff hP s hmsgs

def samplePlatform : Platform where
  char := .signed
  arrayHeap := .above
  rbtreeHeap := .above
  hashHeap := .above

theorem samplePlatform_succeeds : samplePlatform.Succeeds :=
  ⟨Allocator.above_succeeds, Allocator.above_succeeds,
    Allocator.above_succeeds⟩

def blankServer : Server where
  item := .fresh
  array := blankArray
  tree := blankRbtree
  hash := blankHash
  commandReads := []

instance (msg : CString) : Decidable (WellFormedRequest msg) :=
  decidable_of_iff (msg.bytes.length < bufferLength ∧
      (words msg).length ≤ kvstoreMaxTokens ∧
      (parseRequest (words msg)).isSome)
    ⟨fun h => ⟨h.1, h.2.1, h.2.2⟩, fun h => ⟨h.short, h.count, h.command⟩⟩

/-- `RSET k v`, ` HSET k  v` and `COUNT`. -/
def sampleMessages : List CString :=
  [⟨ascii ['R', 'S', 'E', 'T', ' ', 'k', ' ', 'v'], by decide⟩,
    ⟨ascii [' ', 'H', 'S', 'E', 'T', ' ', 'k', ' ', ' ', 'v'], by decide⟩,
    commandWord (.array, .count)]

theorem protocolRun_refines_protocolSpec_iff_sample :
    Returns (protocolRun samplePlatform sampleMessages) blankServer
      (fun replies s' =>
        replies = (specRun protocolSpec sampleMessages .empty).1 ∧
          ServerHolds samplePlatform s'
            (specRun protocolSpec sampleMessages .empty).2) :=
  (protocolRun_refines_protocolSpec_iff samplePlatform samplePlatform_succeeds
    blankServer sampleMessages (by decide)).mpr (by decide)

/-- `HSET` with the key of the one byte 128. -/
def negativeKeyMessage : CString :=
  ⟨ascii ['H', 'S', 'E', 'T', ' '] ++ [128] ++ ascii [' ', 'v'], by decide⟩

/-- The byte 128 is negative as a signed `char`, and so is the slot. -/
theorem protocolRun_negativeKey :
    WellFormedRequest negativeKeyMessage ∧
      ¬ Returns (protocolRun samplePlatform [negativeKeyMessage]) blankServer
        (fun replies s' =>
          replies = (specRun protocolSpec [negativeKeyMessage] .empty).1 ∧
            ServerHolds samplePlatform s'
              (specRun protocolSpec [negativeKeyMessage] .empty).2) := by
  have hmsg : WellFormedRequest negativeKeyMessage := by decide
  refine ⟨hmsg, ?_⟩
  rw [returns_protocolRun_iff samplePlatform_succeeds blankServer
    (by simpa using hmsg)]
  decide

end Runs

end CAdvanced
