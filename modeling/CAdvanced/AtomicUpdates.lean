import CAdvanced.EngineIsolation

/-!
# Updates under refused requests

An update is atomic if it either binds its key or changes nothing that a caller
can see.  Each of the three engines misses this in one way: the array engine
reports an update that it did not make, and the hash engine uses a block that
it did not get.
-/

namespace CAdvanced

open Fallible
open KeyValue

/-! ## Bindings -/

/-- The text behind the value pointer of a key, if the key is stored. -/
def boundTo (L : List Entry) (key : CString) : Option (Option CString) :=
  (L.find? (fun e => entryText e = key)).map entryValue

section Bindings

variable {L L' : List Entry} {key k : CString} {e : Entry}

theorem boundTo_of_mem (hdistinct : (L.map entryText).Nodup) (he : e ∈ L)
    (hkey : entryText e = key) : boundTo L key = some (entryValue e) := by
  have hsome : (L.find? (fun e => entryText e = key)).isSome = true := by
    rw [List.find?_isSome]
    exact ⟨e, he, by simpa using hkey⟩
  obtain ⟨x, hx⟩ := Option.isSome_iff_exists.mp hsome
  have htext : entryText x = key := by simpa using List.find?_some hx
  have hsame : x = e := List.inj_on_of_nodup_map hdistinct
    (List.mem_of_find?_eq_some hx) he (htext.trans hkey.symm)
  rw [boundTo, hx, hsame]
  rfl

theorem boundTo_eq_none (habsent : ∀ e ∈ L, entryText e ≠ key) :
    boundTo L key = none := by
  have hnone : L.find? (fun e => entryText e = key) = none := by
    rw [List.find?_eq_none]
    intro e he
    simpa using habsent e he
  rw [boundTo, hnone]
  rfl

theorem boundTo_eq (h : Rebinds key L L')
    (hdistinct : (L.map entryText).Nodup) (hk : k ≠ key) :
    boundTo L' k = boundTo L k := by
  have hmem : ∀ e, entryText e = k → (e ∈ L' ↔ e ∈ L) := by
    intro e he
    have hne : entryText e ≠ key := he ▸ hk
    have hperm := (h.elsewhere.mem_iff : e ∈ _ ↔ e ∈ _)
    simp only [List.mem_filter, hne, ne_eq, not_false_eq_true, decide_true,
      and_true] at hperm
    exact hperm.symm
  by_cases hstored : ∃ e ∈ L, entryText e = k
  · obtain ⟨e, he, htext⟩ := hstored
    rw [boundTo_of_mem hdistinct he htext,
      boundTo_of_mem (h.distinct hdistinct) ((hmem e htext).mpr he) htext]
  · have habsent : ∀ e ∈ L, entryText e ≠ k := by
      intro e he htext
      exact hstored ⟨e, he, htext⟩
    rw [boundTo_eq_none habsent, boundTo_eq_none]
    intro e he htext
    exact habsent e ((hmem e htext).mp he) htext

end Bindings

/-! ## Atomic updates -/

/-- A successful update binds the key and no other one; a failed one changes
no answer of the lookup and keeps the rest of the state. -/
structure AllOrNothing {σ ω : Type} (look : CString → Exec σ ω)
    (kept : σ → σ → Prop) (key : CString) (bound : ω) (s : σ) (ret : ℤ)
    (s' : σ) : Prop where
  done : ret = 0 → Answers (look key) s' bound ∧
    ∀ k, k ≠ key → SameAnswer (look k) s s'
  undone : ret ≠ 0 → (∀ k, SameAnswer (look k) s s') ∧ kept s s'

theorem allOrNothing_done {σ ω : Type} {look : CString → Exec σ ω}
    {kept : σ → σ → Prop} {key : CString} {bound : ω} {s s' : σ}
    {L L' : List Entry} (hrebinds : Rebinds key L L')
    (hdistinct : (L.map entryText).Nodup)
    (hbound : Answers (look key) s' bound)
    (hsame : ∀ k, boundTo L' k = boundTo L k → SameAnswer (look k) s s') :
    AllOrNothing look kept key bound s 0 s' where
  done := fun _ =>
    ⟨hbound, fun k hk => hsame k (boundTo_eq hrebinds hdistinct hk)⟩
  undone := fun hret => absurd rfl hret

/-! ## The array engine -/

/-- The text that `array_get` leads to. -/
def arrayLook (key : CString) : Exec KvsArray (Option CString) := do
  return (← arrayGet (some key)).map CharBlock.str

/-- The entries, their order and `array_index` are as before. -/
structure SameEntries (s s' : KvsArray) : Prop where
  arrayIndex : s'.arrayIndex = s.arrayIndex
  slots : s'.slots.take s.arrayIndex.toNat = s.slots.take s.arrayIndex.toNat

/-- The key is stored with another value, the table has room, and the first
request is refused. -/
structure UpdateDropped (A : Allocator) (s : KvsArray)
    (key value : CString) : Prop where
  room : s.arrayIndex ≠ kvsArraySize
  other : ∃ old, old ≠ value ∧ Answers (arrayLook key) s (some old)
  refused : ¬ A.Grants 1 s.arena

section ArrayUpdates

variable {s s' : KvsArray} {M : List Binding} {rest : List Addr}
  {A : Allocator} {key value : CString}

structure ArrayEntries (s : KvsArray) (M : List Binding) : Prop where
  rep : ∃ rest, ArrayRep s M rest
  distinct : ((M.map Binding.entry).map entryText).Nodup

theorem ArrayEntries.engineEntries (h : ArrayEntries s M) (P : Platform) :
    EngineEntries P .array s (M.map Binding.entry) := by
  obtain ⟨rest, hrep⟩ := h.rep
  exact ⟨⟨M, rest, hrep, rfl⟩, h.distinct⟩

theorem exists_arrayEntries {P : Platform} {L : List Entry}
    (h : EngineEntries P .array s L) : ∃ M, ArrayEntries s M := by
  obtain ⟨M, rest, hrep, rfl⟩ := h.rep
  exact ⟨M, ⟨rest, hrep⟩, h.distinct⟩

theorem CallsReach.arrayEntries (h : CallsReach arrayCreate arrayCall s) :
    ∃ M, ArrayEntries s M := by
  apply h.invariant
  · intro A s
    refine (returns_arrayCreate_or A s).yields.mono ?_
    intro ret s' hs' hret
    rcases hs' with ⟨hfail, -⟩ | ⟨-, hrep⟩
    · rw [hret] at hfail
      cases hfail
    · exact ⟨[], ⟨_, hrep⟩, List.nodup_nil⟩
  · intro A c s hs
    obtain ⟨M, hM⟩ := hs
    have hops := isolates_array (P := ⟨.signed, A, A, A⟩)
    have hentries := hM.engineEntries ⟨.signed, A, A, A⟩
    cases c with
    | set key value =>
        have hset := hops.set s _ key value hentries trivial
        refine yields_bind (hset.yields.mono ?_)
        intro ret s' hset
        obtain ⟨L', hL', -⟩ := hset
        exact yields_pure (exists_arrayEntries hL')
    | get key =>
        refine yields_bind ((hops.get s _ key hentries trivial).yields.mono ?_)
        intro p s' hget
        subst hget
        exact yields_pure ⟨M, hM⟩
    | del key =>
        refine yields_bind ((hops.del s _ key hentries trivial).yields.mono ?_)
        intro ret s' hdel
        obtain ⟨-, L', hL', -⟩ := hdel
        exact yields_pure (exists_arrayEntries hL')
    | exist key =>
        have hexist := hops.exist s _ key hentries trivial
        refine yields_bind (hexist.yields.mono ?_)
        intro ret s' hexist
        subst hexist
        exact yields_pure ⟨M, hM⟩
    | count =>
        refine yields_bind ((hops.count s).yields.mono ?_)
        intro ret s' hcount
        subst hcount
        exact yields_pure ⟨M, hM⟩

theorem ArrayEntries.answers_look (h : ArrayEntries s M) (key : CString) :
    Answers (arrayLook key) s (boundTo (M.map Binding.entry) key).join := by
  obtain ⟨rest, hrep⟩ := h.rep
  simp only [Answers, arrayLook, returns_bind, returns_pure]
  apply (hrep.returns_get key).mono
  intro p s₁ hs₁
  obtain ⟨-, ⟨b, hb, htext, rfl⟩ | ⟨habsent, rfl⟩⟩ := hs₁
  · rw [boundTo_of_mem h.distinct (List.mem_map_of_mem hb) htext]
    rfl
  · rw [boundTo_eq_none]
    · rfl
    · intro e he
      obtain ⟨b, hb, rfl⟩ := List.mem_map.mp he
      exact habsent b hb

theorem ArrayEntries.sameAnswer {M' : List Binding} (h : ArrayEntries s M)
    (h' : ArrayEntries s' M') {k : CString}
    (heq : boundTo (M'.map Binding.entry) k =
      boundTo (M.map Binding.entry) k) : SameAnswer (arrayLook k) s s' :=
  sameAnswer_of_answers (h.answers_look k) (h'.answers_look k)
    (congrArg Option.join heq.symm)

theorem ArrayEntries.answers_stored {b : Binding} (h : ArrayEntries s M)
    (hb : b ∈ M) : Answers (arrayLook b.text) s (some b.value.str) := by
  have hbound : boundTo (M.map Binding.entry) b.text =
      some (some b.value.str) :=
    boundTo_of_mem h.distinct (List.mem_map_of_mem hb) rfl
  have hanswer := h.answers_look b.text
  rw [hbound] at hanswer
  exact hanswer

theorem ArrayEntries.allOrNothing {M' : List Binding} {b : Binding}
    (h : ArrayEntries s M) (hrep : ArrayRep s' M' rest) (hb : b ∈ M')
    (hrebinds : Rebinds b.text (M.map Binding.entry)
      (M'.map Binding.entry)) :
    AllOrNothing arrayLook SameEntries b.text (some b.value.str) s 0 s' := by
  have h' : ArrayEntries s' M' := ⟨⟨rest, hrep⟩, hrebinds.distinct h.distinct⟩
  apply allOrNothing_done hrebinds h.distinct (h'.answers_stored hb)
  intro k heq
  exact h.sameAnswer h' heq

theorem ArrayRep.sameEntries (h : ArrayRep s M rest)
    (h' : ArrayRep s' M rest) : SameEntries s s' where
  arrayIndex := h'.index.trans h.index.symm
  slots := by
    have hoccupied := h.occupied
    have hoccupied' := h'.occupied
    rw [List.prefix_iff_eq_take, List.length_map] at hoccupied hoccupied'
    rw [h.index, Int.toNat_natCast, ← hoccupied, ← hoccupied']

theorem ArrayEntries.returns_set (h : ArrayEntries s M) (A : Allocator)
    (key value : CString) :
    Returns (arraySet A (some key) (some value)) s (fun ret s' =>
      AllOrNothing arrayLook SameEntries key (some value) s ret s' ↔
        ¬ UpdateDropped A s key value) := by
  obtain ⟨rest, hrep⟩ := h.rep
  have hsame : ∀ s', ArrayRep s' M rest → ∀ k, SameAnswer (arrayLook k) s s' :=
    fun s' hrep' k => h.sameAnswer ⟨⟨rest, hrep'⟩, h.distinct⟩ rfl
  apply (hrep.returns_update A key value).mono
  intro ret s' hupdated
  cases hupdated with
  | full hfull =>
      refine iff_of_true ⟨fun hret => absurd hret (by decide), fun _ =>
        ⟨hsame s hrep, hrep.sameEntries hrep⟩⟩ ?_
      intro hdropped
      exact hdropped.room (by rw [hrep.index, hfull])
  | @replaced _ B C b vp hgrants hroom hM hkey hrep' _ =>
      subst hM hkey
      refine iff_of_true ?_ (fun hdropped => hdropped.refused hgrants)
      exact h.allOrNothing (b := { b with value := ⟨vp, value⟩ }) hrep'
        (by simp) (@rebinds_newValue B C b ⟨vp, value⟩)
  | @appended _ kp vp hgrants hroom habsent hrep' _ =>
      refine iff_of_true ?_
        (fun hdropped => hdropped.refused hgrants.of_succ)
      exact h.allOrNothing (b := ⟨⟨kp, key⟩, ⟨vp, value⟩⟩) hrep' (by simp)
        (rebinds_newBinding habsent)
  | refused hrefused hroom habsent hrep' =>
      refine iff_of_true ⟨fun hret => absurd hret (by decide), fun _ =>
        ⟨hsame s' hrep', hrep.sameEntries hrep'⟩⟩ ?_
      intro hdropped
      obtain ⟨old, -, hold⟩ := hdropped.other
      have hnone := h.answers_look key
      rw [boundTo_eq_none, hold.eq_iff] at hnone
      · cases hnone
      · intro e he
        obtain ⟨b, hb, rfl⟩ := List.mem_map.mp he
        exact habsent b hb
  | kept hrefused hroom hkey hrep' =>
      obtain ⟨b, hb, rfl⟩ := hkey
      have hold := h.answers_stored hb
      have hold' : Answers (arrayLook b.text) s' (some b.value.str) :=
        (hsame s' hrep' b.text _).mpr hold
      constructor
      · intro hdone hdropped
        obtain ⟨old, hne, hother⟩ := hdropped.other
        have heq := hother.eq_iff.mp hold
        have hvalue := hold'.eq_iff.mp (hdone.done rfl).1
        rw [← heq, Option.some.injEq] at hvalue
        exact hne hvalue
      · intro hkept
        have heq : b.value.str = value := by
          by_contra hne
          apply hkept
          refine ⟨?_, ⟨b.value.str, hne, hold⟩, hrefused⟩
          rw [hrep.index]
          exact_mod_cast hroom
        subst heq
        exact ⟨fun _ => ⟨hold', fun k _ => hsame s' hrep' k⟩,
          fun hret => absurd rfl hret⟩

end ArrayUpdates

/-- `array_set` is atomic, and the reply `SUCCESS` goes out only when the key is
bound. -/
structure SetTruthful (P : Platform) (s : KvsArray) (key value : CString) :
    Prop where
  atomic : Returns (arraySet P.arrayHeap (some key) (some value)) s
    (AllOrNothing arrayLook SameEntries key (some value) s)
  reply : Returns (answerCall (engineOps P .array) (.set key value)) s
    (fun reply s' => reply = success →
      Answers (arrayLook key) s' (some value))

/-- `array_set` reports truly what it did, unless it drops an update of a
stored key. -/
theorem arraySet_truthful_iff (P : Platform) {s : KvsArray}
    (h : CallsReach arrayCreate arrayCall s) (key value : CString) :
    SetTruthful P s key value ↔ ¬ UpdateDropped P.arrayHeap s key value := by
  obtain ⟨M, hM⟩ := h.arrayEntries
  have hset := hM.returns_set P.arrayHeap key value
  constructor
  · intro htruthful
    obtain ⟨ret, s', -, hatomic, hiff⟩ := htruthful.atomic.and hset
    exact hiff.mp hatomic
  · intro hkept
    have hatomic := hset.mono (fun _ _ hiff => hiff.mpr hkept)
    refine ⟨hatomic, ?_⟩
    unfold answerCall
    rw [returns_bind]
    apply hatomic.mono
    intro ret s' houtcome
    by_cases hret : ret = 0
    · rw [if_pos hret, returns_pure]
      intro _
      exact (houtcome.done hret).1
    · rw [if_neg hret, returns_pure]
      intro hreply
      exact absurd hreply (by decide)

theorem exists_storedKey : ∃ s, CallsReach arrayCreate arrayCall s ∧
    s.arrayIndex = 1 ∧ Answers (arrayLook firstKey) s (some sampleValue) := by
  obtain ⟨_, s₀, hrun₀, rfl, hs₀⟩ :=
    returns_arrayCreate Allocator.above_succeeds blankArray
  obtain ⟨reply, s, hrun, -, hs⟩ := hs₀.returns_call
    Allocator.above_succeeds (.set firstKey sampleValue)
  refine ⟨s, .called (.created hrun₀) hrun, ?_, ?_⟩
  · rw [hs.index_eq]
    rfl
  · simp only [Answers, arrayLook, returns_bind, returns_pure]
    apply (hs.returns_get firstKey).mono
    intro p s' hget
    rw [hget.2]
    rfl

theorem arraySet_truthful_iff_sample : ∃ s,
    CallsReach arrayCreate arrayCall s ∧
      SetTruthful samplePlatform s firstKey sampleValue := by
  obtain ⟨s, hreach, -, -⟩ := exists_storedKey
  refine ⟨s, hreach, (arraySet_truthful_iff samplePlatform hreach firstKey
    sampleValue).mpr ?_⟩
  intro hdropped
  exact hdropped.refused (Allocator.above_succeeds.grants 1 s.arena)

def exhaustedPlatform : Platform :=
  { samplePlatform with arrayHeap := .exhausted }

/-- A second value for a stored key is dropped without a word. -/
theorem arraySet_dropsUpdate : ∃ s, CallsReach arrayCreate arrayCall s ∧
    Answers (arrayLook firstKey) s (some sampleValue) ∧
      ¬ SetTruthful exhaustedPlatform s firstKey firstKey := by
  obtain ⟨s, hreach, hindex, hlook⟩ := exists_storedKey
  obtain ⟨M, hM⟩ := hreach.arrayEntries
  refine ⟨s, hreach, hlook, ?_⟩
  intro htruthful
  obtain ⟨ret, s', -, hatomic, hiff⟩ :=
    htruthful.atomic.and (hM.returns_set .exhausted firstKey firstKey)
  apply hiff.mp hatomic
  refine ⟨?_, ⟨sampleValue, by decide, hlook⟩,
    Allocator.exhausted_refuses 0 _⟩
  rw [hindex]
  decide

/-! ## The hash engine -/

/-- The text that `get_kv_hashtable` leads to. -/
def hashLook (ch : PlainChar) (key : CString) :
    Exec HashTable (Option CString) := do
  return (← getKvHashtable ch (some key)).map CharBlock.str

def SameCount (s s' : HashTable) : Prop := s'.count = s.count

/-- What `put_kv_hashtable` asks for is granted: one block, after the old value
of the key was released, or three blocks for a new key. -/
def PutBlocksGranted (ch : PlainChar) (A : Allocator) (s : HashTable)
    (key : CString) : Prop :=
  (∃ block, Answers (getKvHashtable ch (some key)) s (some block) ∧
    A.Grants 1 (s.arena.release block.addr)) ∨
  (Answers (getKvHashtable ch (some key)) s none ∧ A.Grants 3 s.arena)

section HashUpdates

variable {ch : PlainChar} {A : Allocator} {s s' : HashTable}
  {chains chains' : HashSlot → List HashNode} {rest : List Addr}
  {i : HashSlot} {key value : CString}

def hashEntries (chains : HashSlot → List HashNode) : List Entry :=
  (gather chains).map HashNode.entry

theorem HashRep.answers_look (h : HashRep ch s chains rest)
    (hdistinct : ((hashEntries chains).map entryText).Nodup)
    (hslot : hashSlot ch key = some i) :
    Answers (hashLook ch key) s (boundTo (hashEntries chains) key).join := by
  simp only [Answers, hashLook, returns_bind, returns_pure]
  apply (h.returns_get hslot).mono
  intro p s₁ hs₁
  obtain ⟨-, hfound⟩ := hs₁
  cases hfound with
  | @found B C x hsplit hkey =>
      have hx : x ∈ gather chains := mem_gather.mpr ⟨i, by simp [hsplit]⟩
      have hbound : boundTo (hashEntries chains) key =
          some (some x.value.str) :=
        boundTo_of_mem hdistinct (List.mem_map_of_mem hx) hkey
      rw [hbound]
      rfl
  | absent habsent =>
      rw [boundTo_eq_none]
      · rfl
      · intro e he
        obtain ⟨x, hx, rfl⟩ := List.mem_map.mp he
        exact habsent x hx

/-- A key without a slot is not answered in any state. -/
theorem HashRep.sameAnswer (h : HashRep ch s chains rest)
    (h' : HashRep ch s' chains' rest)
    (hdistinct : ((hashEntries chains).map entryText).Nodup)
    (hdistinct' : ((hashEntries chains').map entryText).Nodup)
    (heq : boundTo (hashEntries chains') key =
      boundTo (hashEntries chains) key) :
    SameAnswer (hashLook ch key) s s' := by
  cases hslot : hashSlot ch key with
  | some i =>
      exact sameAnswer_of_answers (h.answers_look hdistinct hslot)
        (h'.answers_look hdistinct' hslot) (congrArg Option.join heq.symm)
  | none =>
      have hnone : ∀ t a, ¬ Answers (hashLook ch key) t a := by
        intro t a hanswer
        rw [Answers, hashLook, returns_bind] at hanswer
        exact not_returns_getKvHashtable hslot _ hanswer
      intro a
      exact iff_of_false (hnone s' a) (hnone s a)

theorem HashStored.allOrNothing {ret : ℤ} (h : HashRep ch s chains rest)
    (hdistinct : ((hashEntries chains).map entryText).Nodup)
    (hslot : hashSlot ch key = some i)
    (hstored : HashStored ch s chains rest key value ret s') :
    AllOrNothing (hashLook ch) SameCount key (some value) s ret s' := by
  have hret : ret = 0 := by cases hstored <;> rfl
  subst hret
  obtain ⟨chains', hrep', hrebinds, x, hx, hkey, hvalue⟩ :=
    hstored.rebinds
  have hdistinct' := hrebinds.distinct hdistinct
  have hbound : boundTo (hashEntries chains') key = some (some x.value.str) :=
    boundTo_of_mem hdistinct' (List.mem_map_of_mem hx) hkey
  have hanswer := hrep'.answers_look hdistinct' hslot
  rw [hbound, hvalue] at hanswer
  apply allOrNothing_done hrebinds hdistinct hanswer
  intro k heq
  exact h.sameAnswer hrep' hdistinct hdistinct' heq

theorem value_eq_of_text {x y : HashNode}
    (hdistinct : ((hashEntries chains).map entryText).Nodup)
    (hx : x ∈ gather chains) (hy : y ∈ gather chains)
    (htext : y.text = x.text) : y.value = x.value := by
  have hentry : y.entry = x.entry := List.inj_on_of_nodup_map hdistinct
    (List.mem_map_of_mem hy) (List.mem_map_of_mem hx) htext
  exact Option.some.inj (congrArg Prod.snd hentry)

theorem HashRep.putBlocksGranted_iff (h : HashRep ch s chains rest)
    (hdistinct : ((hashEntries chains).map entryText).Nodup)
    (hslot : hashSlot ch key = some i) :
    PutBlocksGranted ch A s key ↔
      (∀ x ∈ gather chains, x.text = key →
        A.Grants 1 (s.arena.release x.value.addr)) ∧
      ((∀ x ∈ gather chains, x.text ≠ key) → A.Grants 3 s.arena) := by
  obtain ⟨p, s₁, hrun, rfl, hfound⟩ := h.returns_get hslot
  have hanswer : Answers (getKvHashtable ch (some key)) s₁ p :=
    ⟨p, s₁, hrun, rfl⟩
  unfold PutBlocksGranted
  simp only [hanswer.eq_iff]
  cases hfound with
  | @found B C x hsplit hkey =>
      subst hkey
      have hx : x ∈ gather chains := mem_gather.mpr ⟨i, by simp [hsplit]⟩
      simp only [Option.some.injEq, exists_eq_left', reduceCtorEq, false_and,
        or_false]
      constructor
      · intro hgrants
        refine ⟨?_, fun habsent => absurd rfl (habsent x hx)⟩
        intro y hy htext
        rw [value_eq_of_text hdistinct hx hy htext]
        exact hgrants
      · intro hgrants
        exact hgrants.1 x hx rfl
  | absent habsent =>
      simp only [reduceCtorEq, false_and, exists_false, false_or, true_and]
      constructor
      · intro hgrants
        exact ⟨fun x hx htext => absurd htext (habsent x hx), fun _ => hgrants⟩
      · intro hgrants
        exact hgrants.2 habsent

theorem PutGranted.blocksGranted (hgranted : PutGranted A s chains key)
    (h : HashRep ch s chains rest)
    (hdistinct : ((hashEntries chains).map entryText).Nodup)
    (hslot : hashSlot ch key = some i) : PutBlocksGranted ch A s key := by
  rw [h.putBlocksGranted_iff hdistinct hslot]
  rcases hgranted with ⟨x, hx, hkey, hgrants⟩ | ⟨habsent, hgrants⟩
  · refine ⟨?_, fun habsent => absurd hkey (habsent x hx)⟩
    intro y hy htext
    rw [value_eq_of_text hdistinct hx hy (htext.trans hkey.symm)]
    exact hgrants
  · exact ⟨fun x hx htext => absurd htext (habsent x hx), fun _ => hgrants⟩

end HashUpdates

/-- `put_kv_hashtable` binds the key or changes nothing, and returns, exactly
when its requests are granted and the bytes of the key add up to an `int`. -/
theorem putKvHashtable_atomic_iff (ch : PlainChar) (A : Allocator)
    {s : HashTable} {rest : List Addr} {m : StringMap}
    (h : HashHolds ch rest s m) {key : CString} (hplain : PlainKey key)
    (value : CString) :
    Returns (putKvHashtable ch A (some key) (some value)) s
        (AllOrNothing (hashLook ch) SameCount key (some value) s) ↔
      (byteSum key.bytes : ℤ) ≤ intMax ∧ PutBlocksGranted ch A s key := by
  obtain ⟨chains, hrep, habs⟩ := h.table
  have hdistinct : ((hashEntries chains).map entryText).Nodup := by
    rw [hashEntries, List.map_map]
    exact habs.nodup
  rw [← hashSlot_isSome_iff ch hplain]
  cases hslot : hashSlot ch key with
  | none =>
      refine iff_of_false (not_returns_putKvHashtable hslot A value _) ?_
      intro hcond
      exact absurd hcond.1 (by simp)
  | some i =>
      have hput := hrep.returnsIf_update hslot A value
      simp only [Option.isSome_some, true_and]
      constructor
      · intro hatomic
        obtain ⟨ret, s', hrun, -⟩ := hatomic
        have hgranted := (hput.yields ret s' hrun).2
        exact hgranted.blocksGranted hrep hdistinct hslot
      · intro hgranted
        rw [hrep.putBlocksGranted_iff hdistinct hslot] at hgranted
        apply (hput.returns hgranted).mono
        intro ret s' hs'
        exact hs'.1.allOrNothing hrep hdistinct hslot

theorem exists_emptyTable : ∃ s rest, HashHolds .signed rest s ∅ := by
  obtain ⟨ret, s, -, -, hholds⟩ := returns_createHashtable_null .signed
    Allocator.above_succeeds blankHash
  exact ⟨s, _, hholds⟩

theorem hasSlot_firstKey : HasSlot .signed firstKey :=
  (hashSlot_isSome_iff .signed (by decide)).mpr (by decide)

theorem HashHolds.answers_absent {rest : List Addr} {s : HashTable}
    (h : HashHolds .signed rest s ∅) :
    Answers (getKvHashtable .signed (some firstKey)) s none := by
  obtain ⟨i, hi⟩ := Option.isSome_iff_exists.mp hasSlot_firstKey
  apply (h.returns_get hi).mono
  intro p s' hget
  rw [Finmap.lookup_empty, Option.map_eq_none_iff] at hget
  exact hget.2

/-- A table with this one binding; the lookup leads to its block. -/
theorem exists_storedEntry : ∃ s rest block,
    HashHolds .signed rest s ((∅ : StringMap).insert firstKey sampleValue) ∧
      Answers (getKvHashtable .signed (some firstKey)) s (some block) := by
  obtain ⟨s₀, rest, hholds₀⟩ := exists_emptyTable
  obtain ⟨i, hi⟩ := Option.isSome_iff_exists.mp hasSlot_firstKey
  obtain ⟨_, s, -, -, hholds⟩ :=
    hholds₀.returns_put Allocator.above_succeeds hi sampleValue
  obtain ⟨p, s', hrun, rfl, htext⟩ := hholds.returns_get hi
  rw [Finmap.lookup_insert, Option.map_eq_some_iff] at htext
  obtain ⟨block, rfl, -⟩ := htext
  exact ⟨s', rest, block, hholds, some block, s', hrun, rfl⟩

/-- A stored key gets another value; the copy of a new key's value is refused
after the node and the copy of the key were granted. -/
theorem putKvHashtable_atomic_iff_sample :
    (∃ s rest block,
      HashHolds .signed rest s
        ((∅ : StringMap).insert firstKey sampleValue) ∧
      Answers (getKvHashtable .signed (some firstKey)) s (some block) ∧
      Returns (putKvHashtable .signed .above (some firstKey) (some firstKey)) s
        (AllOrNothing (hashLook .signed) SameCount firstKey (some firstKey)
          s)) ∧
    ∃ s rest, HashHolds .signed rest s ∅ ∧
      (Allocator.upTo (s.arena.requests + 2)).Grants 2 s.arena ∧
      ¬ Returns (putKvHashtable .signed (.upTo (s.arena.requests + 2))
        (some firstKey) (some sampleValue)) s
        (AllOrNothing (hashLook .signed) SameCount firstKey (some sampleValue)
          s) := by
  constructor
  · obtain ⟨s, rest, block, hholds, hlook⟩ := exists_storedEntry
    exact ⟨s, rest, block, hholds, hlook,
      (putKvHashtable_atomic_iff .signed .above hholds (by decide)
        firstKey).mpr ⟨by decide, Or.inl ⟨block, hlook,
          Allocator.above_succeeds.grants 1 _⟩⟩⟩
  · obtain ⟨s, rest, hholds⟩ := exists_emptyTable
    refine ⟨s, rest, hholds, Allocator.upTo_grants le_rfl, ?_⟩
    rw [putKvHashtable_atomic_iff .signed _ hholds (by decide) sampleValue]
    intro hcond
    rcases hcond.2 with ⟨block, hlook, -⟩ | ⟨-, hgrants⟩
    · have heq := hholds.answers_absent.eq_iff.mp hlook
      cases heq
    · exact Allocator.upTo_refuses (by omega) (by omega) hgrants

/-- A new key whose node is refused: `put_kv_hashtable` does not return. -/
theorem putKvHashtable_refused : ∃ s rest, HashHolds .signed rest s ∅ ∧
    ∀ Q, ¬ Returns (putKvHashtable .signed .exhausted (some firstKey)
      (some sampleValue)) s Q := by
  obtain ⟨s, rest, hholds⟩ := exists_emptyTable
  refine ⟨s, rest, hholds, ?_⟩
  intro Q hreturns
  obtain ⟨i, hi⟩ := Option.isSome_iff_exists.mp hasSlot_firstKey
  obtain ⟨chains, hrep, -⟩ := hholds.table
  obtain ⟨ret, s', hrun, -⟩ := hreturns
  rcases ((hrep.returnsIf_update hi .exhausted sampleValue).yields ret s'
    hrun).2 with ⟨x, -, -, hgrants⟩ | ⟨-, hgrants⟩
  · exact Allocator.exhausted_refuses 0 _ hgrants
  · exact Allocator.exhausted_refuses 2 _ hgrants

end CAdvanced
