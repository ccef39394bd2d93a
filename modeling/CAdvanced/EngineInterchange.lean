import CAdvanced.ProtocolRefinement

/-!
# The three engines side by side

The same calls are sent as messages to each engine.  The replies are the same
on all three unless a `SET` arrives while the array is full: the array refuses
it even for a key that it stores.
-/

namespace CAdvanced

open Fallible
open KeyValue

/-! ## The message of a call -/

structure IsWord (w : CString) : Prop where
  nonempty : w.bytes ≠ []
  noSpace : space ∉ w.bytes

instance (w : CString) : Decidable (IsWord w) :=
  decidable_of_iff (w.bytes ≠ [] ∧ space ∉ w.bytes)
    ⟨fun h => ⟨h.1, h.2⟩, fun h => ⟨h.nonempty, h.noSpace⟩⟩

/-- The words with a blank between any two. -/
def spaced : List CString → CString
  | [] => default
  | [w] => w
  | w :: v :: ws =>
      ⟨w.bytes ++ space :: (spaced (v :: ws)).bytes, by
        simp only [List.mem_append, List.mem_cons, not_or]
        exact ⟨w.noNul, by decide, (spaced (v :: ws)).noNul⟩⟩

def callWords (e : EngineName) : Call → List CString
  | .set key value => [commandWord (e, .set), key, value]
  | .get key => [commandWord (e, .get), key]
  | .del key => [commandWord (e, .del), key]
  | .exist key => [commandWord (e, .exist), key]
  | .count => [commandWord (e, .count)]

/-- The message that sends a call to an engine. -/
def requestText (e : EngineName) (call : Call) : CString :=
  spaced (callWords e call)

theorem words_single {w : CString} (hw : IsWord w) : words w = [w] := by
  rw [words, byteWords_single hw.nonempty hw.noSpace, List.map_singleton,
    cstr_bytes]

theorem words_spaced {ws : List CString} (hws : ∀ w ∈ ws, IsWord w) :
    words (spaced ws) = ws := by
  induction ws with
  | nil => rfl
  | cons w ws ih =>
      have hw := hws w (by simp)
      cases ws with
      | nil => exact words_single hw
      | cons v vs =>
          have hrest := ih (fun u hu => hws u (List.mem_cons_of_mem w hu))
          have hfirst := words_single hw
          simp only [words] at hrest hfirst ⊢
          rw [spaced, byteWords_append_space, List.map_append, hfirst, hrest]
          rfl

theorem isWord_commandWord (c : Command) : IsWord (commandWord c) := by
  rcases c with ⟨e, v⟩
  cases e <;> cases v <;> decide

theorem parseRequest_callWords (e : EngineName) (call : Call) :
    parseRequest (callWords e call) = some (e, call) := by
  cases call <;>
    simp [callWords, parseRequest, commandOf_commandWord, callOf]

/-- A call that can be sent: words without a blank, keys of bytes below 128,
and messages that fit the buffer. -/
structure WireCall (call : Call) : Prop where
  word : ∀ w, InCall w call → IsWord w
  plain : OnKey PlainKey call
  short : ∀ e, (requestText e call).bytes.length < bufferLength

section Messages

variable {e : EngineName} {call : Call}

theorem WireCall.words_requestText (h : WireCall call) (e : EngineName) :
    words (requestText e call) = callWords e call := by
  apply words_spaced
  intro w hw
  cases call with
  | set key value =>
      simp only [callWords, List.mem_cons, List.not_mem_nil, or_false] at hw
      rcases hw with rfl | rfl | rfl
      · exact isWord_commandWord _
      · exact h.word _ (Or.inl rfl)
      · exact h.word _ (Or.inr rfl)
  | get key =>
      simp only [callWords, List.mem_cons, List.not_mem_nil, or_false] at hw
      rcases hw with rfl | rfl
      · exact isWord_commandWord _
      · exact h.word _ rfl
  | del key =>
      simp only [callWords, List.mem_cons, List.not_mem_nil, or_false] at hw
      rcases hw with rfl | rfl
      · exact isWord_commandWord _
      · exact h.word _ rfl
  | exist key =>
      simp only [callWords, List.mem_cons, List.not_mem_nil, or_false] at hw
      rcases hw with rfl | rfl
      · exact isWord_commandWord _
      · exact h.word _ rfl
  | count =>
      rw [List.mem_singleton.mp hw]
      exact isWord_commandWord _

theorem WireCall.parse (h : WireCall call) (e : EngineName) :
    parseRequest (words (requestText e call)) = some (e, call) := by
  rw [h.words_requestText e, parseRequest_callWords]

theorem WireCall.wellFormed (h : WireCall call) (e : EngineName) :
    WellFormedRequest (requestText e call) where
  short := h.short e
  count := by
    rw [h.words_requestText e]
    cases call <;> exact Nat.le_of_ble_eq_true rfl
  command := by
    rw [h.parse e]
    rfl

theorem nonnegRemainder_of_plain {ch : PlainChar} {key : CString}
    (hkey : PlainKey key) : NonnegRemainder ch key := by
  have hsum : 0 ≤ charSum ch key.bytes := by
    apply List.sum_nonneg
    intro n hn
    obtain ⟨b, hb, rfl⟩ := List.mem_map.mp hn
    rw [ch.value_plain (hkey b hb)]
    positivity
  exact Int.tmod_nonneg _ hsum

theorem WireCall.hashable (h : WireCall call) (ch : PlainChar)
    (e : EngineName) : HashableRequest ch (requestText e call) := by
  intro c hc
  rw [h.parse e, Option.mem_some_iff] at hc
  subst hc
  cases e with
  | array => trivial
  | rbtree => trivial
  | hash => exact h.plain.mono (fun _ hkey => nonnegRemainder_of_plain hkey)

theorem WireCall.protocolSpec_eq (h : WireCall call) (e : EngineName)
    (m : Stores) :
    protocolSpec (requestText e call) m = ((answer e call (m e)).1,
      Function.update m e (answer e call (m e)).2) := by
  rw [protocolSpec, h.parse e]

/-- Messages for one engine only meet the map of this engine. -/
theorem specRun_requestText {calls : List Call}
    (hcalls : ∀ call ∈ calls, WireCall call) (e : EngineName) (m : Stores) :
    (specRun protocolSpec (calls.map (requestText e)) m).1
      = (specRun (answer e) calls (m e)).1 := by
  induction calls generalizing m with
  | nil => rfl
  | cons call rest ih =>
      have hcall := hcalls call (by simp)
      have hrest := ih (fun c hc => hcalls c (List.mem_cons_of_mem call hc))
        (Function.update m e (answer e call (m e)).2)
      rw [Function.update_self] at hrest
      simp only [List.map_cons, specRun, hcall.protocolSpec_eq e, hrest]

end Messages

/-! ## Replies of the maps -/

/-- A `SET` while `KVS_ARRAY_SIZE` keys are stored. -/
def SetWhenFull : Call → StringMap → Prop
  | .set _ _, m => m.keys.card = kvsArraySize
  | _, _ => False

instance (call : Call) (m : StringMap) : Decidable (SetWhenFull call m) :=
  match call with
  | .set _ _ => inferInstanceAs (Decidable (_ = _))
  | .get _ => inferInstanceAs (Decidable False)
  | .del _ => inferInstanceAs (Decidable False)
  | .exist _ => inferInstanceAs (Decidable False)
  | .count => inferInstanceAs (Decidable False)

theorem setWhenFull_set (key value : CString) (m : StringMap) :
    SetWhenFull (.set key value) m ↔ m.keys.card = kvsArraySize :=
  Iff.rfl

/-- No `SET` arrives while the array would be full. -/
structure NeverSetWhenFull (calls : List Call) : Prop where
  meets : SpecMeets kvSpec (fun call m => ¬ SetWhenFull call m) calls ∅

section Answers

variable {call : Call} {m : StringMap}

theorem answer_hash_eq (call : Call) (m : StringMap) :
    answer .hash call m = answer .rbtree call m := by
  cases call with
  | set key value => simp [answer, not_full_hash, not_full_rbtree]
  | get key => rfl
  | del key => rfl
  | exist key => rfl
  | count => rfl

theorem answer_rbtree_map (call : Call) (m : StringMap) :
    (answer .rbtree call m).2 = (kvSpec call m).2 := by
  cases call with
  | set key value => simp [answer, kvSpec, not_full_rbtree]
  | get key => rfl
  | del key =>
      simp only [answer, kvSpec]
      split_ifs <;> rfl
  | exist key => rfl
  | count => rfl

theorem answer_array_eq (h : ¬ SetWhenFull call m) :
    answer .array call m = answer .rbtree call m := by
  cases call with
  | set key value =>
      have hfull : ¬ m.keys.card = kvsArraySize := h
      simp [answer, full_array, hfull, not_full_rbtree]
  | get key => rfl
  | del key => rfl
  | exist key => rfl
  | count => rfl

/-- A full array refuses what the other engines accept. -/
theorem answer_array_ne (h : SetWhenFull call m) :
    (answer .array call m).1 ≠ (answer .rbtree call m).1 := by
  cases call with
  | set key value =>
      have hfull : m.keys.card = kvsArraySize := h
      simp only [answer, full_array, hfull, not_full_rbtree, reduceIte]
      decide
  | get key => cases h
  | del key => cases h
  | exist key => cases h
  | count => cases h

/-- The replies of array and tree agree up to the first refused `SET`. -/
theorem specRun_array_iff (calls : List Call) (m : StringMap) :
    (specRun (answer .array) calls m).1 = (specRun (answer .rbtree) calls m).1
      ↔ SpecMeets kvSpec (fun call m => ¬ SetWhenFull call m) calls m := by
  induction calls generalizing m with
  | nil => simp [specRun, SpecMeets]
  | cons call rest ih =>
      simp only [specRun, SpecMeets, List.cons.injEq]
      by_cases hfull : SetWhenFull call m
      · simp [hfull, answer_array_ne hfull]
      · rw [answer_array_eq hfull, answer_rbtree_map, ih]
        simp [hfull]

theorem specRun_hash_eq (calls : List Call) (m : StringMap) :
    specRun (answer .hash) calls m = specRun (answer .rbtree) calls m := by
  rw [show answer .hash = answer .rbtree from
    funext fun call => funext fun m => answer_hash_eq call m]

end Answers

/-! ## Interchange -/

/-- The replies of one engine to the messages of the calls. -/
def Replies (P : Platform) (s : Server) (e : EngineName) (calls : List Call)
    (replies : List CString) : Prop :=
  Returns (protocolRun P (calls.map (requestText e))) s
    (fun answers _ => answers = replies)

section Interchange

variable {P : Platform} {calls : List Call}

theorem replies_iff (hP : P.Succeeds) (s : Server)
    (hcalls : ∀ call ∈ calls, WireCall call) (e : EngineName)
    (replies : List CString) :
    Replies P s e calls replies ↔
      replies = (specRun (answer e) calls ∅).1 := by
  have hmsgs : ∀ msg ∈ calls.map (requestText e), WellFormedRequest msg := by
    intro msg hmsg
    obtain ⟨call, hcall, rfl⟩ := List.mem_map.mp hmsg
    exact (hcalls call hcall).wellFormed e
  have hkeys : ∀ msg ∈ calls.map (requestText e),
      HashableRequest P.char msg := by
    intro msg hmsg
    obtain ⟨call, hcall, rfl⟩ := List.mem_map.mp hmsg
    exact (hcalls call hcall).hashable P.char e
  obtain ⟨answers, s', hrun, hanswers, -⟩ :=
    (returns_protocolRun_iff hP s hmsgs).mpr hkeys
  rw [specRun_requestText hcalls] at hanswers
  constructor
  · intro h
    rw [← h.of_run hrun]
    exact hanswers
  · intro h
    exact ⟨answers, s', hrun, hanswers.trans h.symm⟩

theorem replies_agree_iff (hP : P.Succeeds) (s : Server)
    (hcalls : ∀ call ∈ calls, WireCall call) :
    (∃ replies, ∀ e, Replies P s e calls replies) ↔
      NeverSetWhenFull calls := by
  have hiff : NeverSetWhenFull calls ↔
      (specRun (answer .array) calls ∅).1
        = (specRun (answer .rbtree) calls ∅).1 :=
    ⟨fun h => (specRun_array_iff calls ∅).mpr h.meets,
      fun h => ⟨(specRun_array_iff calls ∅).mp h⟩⟩
  rw [hiff]
  constructor
  · intro h
    obtain ⟨replies, hreplies⟩ := h
    have harray := (replies_iff hP s hcalls .array replies).mp
      (hreplies .array)
    have htree := (replies_iff hP s hcalls .rbtree replies).mp
      (hreplies .rbtree)
    rw [← harray, ← htree]
  · intro h
    refine ⟨(specRun (answer .rbtree) calls ∅).1, ?_⟩
    intro e
    rw [replies_iff hP s hcalls e]
    cases e with
    | array => exact h.symm
    | rbtree => rfl
    | hash => rw [specRun_hash_eq]

end Interchange

/-- The three engines give the same replies exactly when no `SET` arrives
while `KVS_ARRAY_SIZE` keys are stored. -/
theorem engines_interchangeable_iff (P : Platform) (hP : P.Succeeds)
    (s : Server) (calls : List Call)
    (hcalls : ∀ call ∈ calls, WireCall call) :
    (∃ replies, ∀ e, Replies P s e calls replies) ↔
      NeverSetWhenFull calls :=
  replies_agree_iff hP s hcalls

/-! ## A full array -/

/-- At most `KVS_ARRAY_SIZE` keys are stored at any time. -/
structure StaysWithinArray (calls : List Call) : Prop where
  meets : SpecMeets kvSpec
    (fun call m => (kvSpec call m).2.keys.card ≤ kvsArraySize) calls ∅

theorem keys_insert (m : StringMap) (key value : CString) :
    (m.insert key value).keys = insert key m.keys := by
  ext k
  rw [Finmap.mem_keys, Finmap.mem_insert, Finset.mem_insert, Finmap.mem_keys]

theorem card_kvSpec_le (call : Call) (m : StringMap) :
    (kvSpec call m).2.keys.card ≤ m.keys.card + 1 := by
  cases call with
  | set key value =>
      change (m.insert key value).keys.card ≤ _
      rw [keys_insert]
      exact Finset.card_insert_le _ _
  | get key => exact Nat.le_succ _
  | del key =>
      simp only [kvSpec]
      split_ifs
      · rw [Finmap.keys_erase]
        exact (Finset.card_erase_le).trans (Nat.le_succ _)
      · exact Nat.le_succ _
  | exist key => exact Nat.le_succ _
  | count => exact Nat.le_succ _

theorem card_kvSpec_set {m : StringMap} {key : CString} (value : CString)
    (hkey : key ∈ m.keys) :
    (kvSpec (.set key value) m).2.keys.card = m.keys.card := by
  change (m.insert key value).keys.card = _
  rw [keys_insert, Finset.insert_eq_of_mem hkey]

/-- A short run cannot fill the array. -/
theorem specMeets_card {P : Call → StringMap → Prop} (bound : ℕ)
    (hP : ∀ call m, m.keys.card < bound → P call m) {calls : List Call}
    {m : StringMap} (hlength : m.keys.card + calls.length ≤ bound) :
    SpecMeets kvSpec P calls m := by
  induction calls generalizing m with
  | nil => trivial
  | cons call rest ih =>
      rw [List.length_cons] at hlength
      refine ⟨hP call m (by omega), ih ?_⟩
      have hcard := card_kvSpec_le call m
      omega

theorem neverSetWhenFull_of_short {calls : List Call}
    (hlength : calls.length ≤ kvsArraySize) : NeverSetWhenFull calls := by
  constructor
  apply specMeets_card kvsArraySize
  · intro call m hm hfull
    cases call with
    | set key value =>
        have hcard : m.keys.card = kvsArraySize := hfull
        omega
    | get key => exact hfull
    | del key => exact hfull
    | exist key => exact hfull
    | count => exact hfull
  · simpa using hlength

section Sets

variable {keys : List CString} {value : CString} {m : StringMap}

theorem keys_specRun_sets :
    (specRun kvSpec (keys.map (fun key => Request.set key value)) m).2.keys
      = keys.toFinset ∪ m.keys := by
  induction keys generalizing m with
  | nil => simp [specRun]
  | cons key rest ih =>
      simp only [List.map_cons, specRun, kvSpec, ih, keys_insert,
        List.toFinset_cons, Finset.insert_union, Finset.union_insert]

theorem card_specRun_sets (value : CString) (hnodup : keys.Nodup) :
    (specRun kvSpec (keys.map (fun key => Request.set key value))
      ∅).2.keys.card = keys.length := by
  rw [keys_specRun_sets, Finmap.keys_empty, Finset.union_empty,
    List.toFinset_card_of_nodup hnodup]

/-- Every key once, and then one key again. -/
def refillCalls (keys : List CString) (key value : CString) : List Call :=
  keys.map (fun key => .set key value) ++ [.set key value]

/-- A full array is set once more at a stored key. -/
theorem refill_sets (value : CString)
    (hlength : keys.length = kvsArraySize) (hnodup : keys.Nodup)
    {key : CString} (hkey : key ∈ keys) :
    StaysWithinArray (refillCalls keys key value) ∧
      ¬ NeverSetWhenFull (refillCalls keys key value) := by
  have hcard := card_specRun_sets value hnodup
  rw [hlength] at hcard
  have hstored : key ∈ (specRun kvSpec
      (keys.map (fun key => Request.set key value)) ∅).2.keys := by
    rw [keys_specRun_sets]
    apply Finset.mem_union_left
    rwa [List.mem_toFinset]
  constructor
  · constructor
    rw [refillCalls, specMeets_append]
    refine ⟨?_, ?_, trivial⟩
    · refine specMeets_card kvsArraySize ?_ ?_
      · intro call m hm
        have hcall := card_kvSpec_le call m
        omega
      · simp [hlength]
    · change (kvSpec (.set key value) _).2.keys.card ≤ _
      rw [card_kvSpec_set _ hstored, hcard]
  · intro h
    have hmeets := h.meets
    rw [refillCalls, specMeets_append] at hmeets
    apply hmeets.2.1
    rw [setWhenFull_set, hcard]

theorem wireCall_set {key : CString} (hkey : IsWord key)
    (hvalue : IsWord value) (hplain : PlainKey key)
    (hshort : key.bytes.length + value.bytes.length + 6 < bufferLength) :
    WireCall (.set key value) where
  word := by
    intro w hw
    rcases hw with rfl | rfl
    · exact hkey
    · exact hvalue
  plain := hplain
  short := by
    intro e
    have hcommand : (commandWord (e, .set)).bytes.length ≤ 4 := by
      cases e <;> decide
    simp only [requestText, callWords, spaced, List.length_append,
      List.length_cons]
    omega

end Sets

def sampleValue : CString := ⟨[118], by decide⟩

theorem engines_interchangeable_iff_sample :
    ∃ replies, ∀ e, Replies samplePlatform blankServer e
      [.set ⟨[107], by decide⟩ sampleValue,
        .set ⟨[107], by decide⟩ sampleValue] replies := by
  refine (engines_interchangeable_iff samplePlatform samplePlatform_succeeds
    blankServer _ ?_).mpr (neverSetWhenFull_of_short (by decide))
  intro call hcall
  have hset : call = .set ⟨[107], by decide⟩ sampleValue := by
    simpa using hcall
  rw [hset]
  exact wireCall_set (by decide) (by decide) (by decide) (by decide)

/-- Two bytes from 33 to 64. -/
def numberedKey (i : Fin 1024) : CString where
  bytes := [UInt8.ofNat (33 + i.val / 32), UInt8.ofNat (33 + i.val % 32)]
  noNul := by
    have hi := i.isLt
    simp only [List.mem_cons, List.not_mem_nil, or_false, not_or,
      ← UInt8.toNat_inj, UInt8.toNat_ofNat']
    constructor
    · simp
      omega
    · simp
      omega

def numberedKeys : List CString := (List.finRange 1024).map numberedKey

theorem numberedKey_injective : Function.Injective numberedKey := by
  intro i j h
  have hi := i.isLt
  have hj := j.isLt
  have hbytes := congrArg CString.bytes h
  simp only [numberedKey, List.cons.injEq, ← UInt8.toNat_inj,
    UInt8.toNat_ofNat', and_true] at hbytes
  apply Fin.ext
  omega

theorem wireCall_numberedKey (i : Fin 1024) :
    WireCall (.set (numberedKey i) sampleValue) := by
  have hi := i.isLt
  apply wireCall_set
  · refine ⟨by simp [numberedKey], ?_⟩
    have hspace : space.toNat = 32 := rfl
    simp only [numberedKey, List.mem_cons, List.not_mem_nil, or_false, not_or,
      ← UInt8.toNat_inj, UInt8.toNat_ofNat', hspace]
    constructor
    · omega
    · omega
  · decide
  · intro b hb
    simp only [numberedKey, List.mem_cons, List.not_mem_nil, or_false] at hb
    rcases hb with rfl | rfl
    · rw [UInt8.toNat_ofNat']
      omega
    · rw [UInt8.toNat_ofNat']
      omega
  · simp [numberedKey, sampleValue, bufferLength]

theorem mem_numberedKeys (i : Fin 1024) : numberedKey i ∈ numberedKeys :=
  List.mem_map_of_mem (List.mem_finRange i)

theorem nodup_numberedKeys : numberedKeys.Nodup :=
  (List.nodup_finRange 1024).map numberedKey_injective

theorem length_numberedKeys : numberedKeys.length = kvsArraySize := by
  rw [numberedKeys, List.length_map, List.length_finRange]

theorem wireCall_refill (i : Fin 1024) :
    ∀ call ∈ refillCalls numberedKeys (numberedKey i) sampleValue,
      WireCall call := by
  intro call hcall
  rcases List.mem_append.mp hcall with hcall | hcall
  · obtain ⟨key, hkey, rfl⟩ := List.mem_map.mp hcall
    obtain ⟨j, -, rfl⟩ := List.mem_map.mp hkey
    exact wireCall_numberedKey j
  · rw [List.mem_singleton.mp hcall]
    exact wireCall_numberedKey i

def firstKey : CString := numberedKey ⟨0, by decide⟩

/-- An array that is exactly full refuses a new value for a stored key. -/
theorem engines_fullArray :
    (∀ call ∈ refillCalls numberedKeys firstKey sampleValue,
      WireCall call) ∧
    StaysWithinArray (refillCalls numberedKeys firstKey sampleValue) ∧
    ¬ ∃ replies, ∀ e, Replies samplePlatform blankServer e
      (refillCalls numberedKeys firstKey sampleValue) replies := by
  have hwire : ∀ call ∈ refillCalls numberedKeys firstKey sampleValue,
      WireCall call := wireCall_refill _
  have hkey : firstKey ∈ numberedKeys := mem_numberedKeys _
  obtain ⟨hwithin, hfull⟩ := refill_sets sampleValue length_numberedKeys
    nodup_numberedKeys hkey
  refine ⟨hwire, hwithin, ?_⟩
  rw [replies_agree_iff samplePlatform_succeeds blankServer hwire]
  exact hfull

end CAdvanced
