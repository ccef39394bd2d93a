import CAdvanced.HashDestruction

/-!
# Runs of the hash engine

A run answers as a finite map does as long as every key has a slot, and a key
of bytes 1..127 has one as long as the sum of its bytes is an `int`.
-/

namespace CAdvanced

open Fallible
open KeyValue
open HashTable

/-! ## Keys with a slot -/

/-- The bytes have the same value in either `char`. -/
def PlainKey (key : CString) : Prop := ∀ b ∈ key.bytes, b.toNat < 128

instance (key : CString) : Decidable (PlainKey key) :=
  List.decidableBAll _ key.bytes

def byteSum (bytes : List UInt8) : ℕ := (bytes.map UInt8.toNat).sum

theorem PlainChar.value_plain (ch : PlainChar) {b : UInt8}
    (hb : b.toNat < 128) : ch.value b = b.toNat := by
  cases ch with
  | signed => simp [PlainChar.value, hb]
  | unsigned => rfl

/-- On plain bytes the loop adds up, unless the sum leaves `int`. -/
theorem sumChars_plain (ch : PlainChar) {bytes : List UInt8} {sum i : ℤ}
    (hplain : ∀ b ∈ bytes, b.toNat < 128) (hpos : (0 : UInt8) ∉ bytes)
    (hi : -intMax ≤ i) (hsum : i ≤ sum) (hmax : sum ≤ intMax) :
    sumChars ch bytes sum i =
      if sum + byteSum bytes ≤ intMax then some (sum + byteSum bytes)
      else none := by
  induction bytes generalizing sum i with
  | nil => simp [sumChars, byteSum, hmax]
  | cons b rest ih =>
      have hb := hplain b (by simp)
      have hone : 1 ≤ b.toNat := by
        rw [Nat.one_le_iff_ne_zero]
        intro hzero
        apply hpos
        have hb : b = 0 := UInt8.toNat_inj.mp hzero
        simp [hb]
      have hsplit : sum + byteSum (b :: rest)
          = sum + b.toNat + byteSum rest := by
        simp only [byteSum, List.map_cons, List.sum_cons]
        push_cast
        ring
      rw [sumChars, ch.value_plain hb, hsplit]
      by_cases hnext : sum + b.toNat ≤ intMax
      · have hin : inInt (sum + b.toNat) ∧ inInt (i + 1) := by
          unfold inInt
          omega
        rw [if_pos hin]
        apply ih
        · intro c hc
          exact hplain c (List.mem_cons_of_mem b hc)
        · intro hmem
          exact hpos (List.mem_cons_of_mem b hmem)
        · omega
        · omega
        · exact hnext
      · have hout : ¬ (inInt (sum + b.toNat) ∧ inInt (i + 1)) := by
          unfold inInt
          omega
        rw [if_neg hout, if_neg (by omega)]

theorem sumChars_of_plain (ch : PlainChar) {key : CString}
    (hplain : PlainKey key) :
    sumChars ch key.bytes 0 0 =
      if (byteSum key.bytes : ℤ) ≤ intMax then some (byteSum key.bytes : ℤ)
      else none := by
  have hsum := sumChars_plain ch hplain key.noNul
    (show -intMax ≤ 0 by decide) (le_refl 0) (by decide)
  simpa only [zero_add] using hsum

/-- A plain key has a slot exactly when its byte sum is an `int`. -/
theorem hashSlot_isSome_iff (ch : PlainChar) {key : CString}
    (hplain : PlainKey key) :
    (hashSlot ch key).isSome ↔ (byteSum key.bytes : ℤ) ≤ intMax := by
  unfold hashSlot
  rw [sumChars_of_plain ch hplain]
  by_cases hfits : (byteSum key.bytes : ℤ) ≤ intMax
  · have hrange :
        0 ≤ (byteSum key.bytes : ℤ).tmod maxTableSize ∧
          (byteSum key.bytes : ℤ).tmod maxTableSize < maxTableSize := by
      constructor
      · exact Int.tmod_nonneg _ (by positivity)
      · exact Int.tmod_lt_of_pos _ (by decide)
    simp only [hfits, reduceIte, hrange, and_self, reduceDIte,
      Option.isSome_some]
  · simp only [hfits, reduceIte, Option.isSome_none, Bool.false_eq_true]

def charSum (ch : PlainChar) (bytes : List UInt8) : ℤ :=
  (bytes.map ch.value).sum

theorem PlainChar.value_bounds (ch : PlainChar) (b : UInt8) :
    -256 ≤ ch.value b ∧ ch.value b ≤ 256 := by
  have hb := b.toNat_lt
  cases ch with
  | signed =>
      simp only [PlainChar.value]
      split_ifs
      · omega
      · omega
  | unsigned =>
      simp only [PlainChar.value]
      omega

/-- A short key never overflows the sum; `i` bytes have been added so far. -/
theorem sumChars_short (ch : PlainChar) {bytes : List UInt8} {sum i : ℤ}
    (hi : 0 ≤ i) (hlength : i + bytes.length ≤ 1024)
    (hlow : -256 * i ≤ sum) (hhigh : sum ≤ 256 * i) :
    sumChars ch bytes sum i = some (sum + charSum ch bytes) := by
  induction bytes generalizing sum i with
  | nil => simp [sumChars, charSum]
  | cons b rest ih =>
      have hb := ch.value_bounds b
      rw [List.length_cons] at hlength
      push_cast at hlength
      have hin : inInt (sum + ch.value b) ∧ inInt (i + 1) := by
        unfold inInt intMax
        omega
      rw [sumChars, if_pos hin, ih (by omega) (by omega) (by omega) (by omega)]
      simp only [charSum, List.map_cons, List.sum_cons, Option.some.injEq]
      ring

def NonnegRemainder (ch : PlainChar) (key : CString) : Prop :=
  0 ≤ (charSum ch key.bytes).tmod maxTableSize

instance (ch : PlainChar) (key : CString) :
    Decidable (NonnegRemainder ch key) :=
  inferInstanceAs (Decidable (0 ≤ _))

/-- A short key has a slot exactly when its remainder is not negative. -/
theorem hashSlot_isSome_iff_of_short (ch : PlainChar) {key : CString}
    (hshort : key.bytes.length ≤ 1024) :
    (hashSlot ch key).isSome ↔ NonnegRemainder ch key := by
  have hsum : sumChars ch key.bytes 0 0 = some (charSum ch key.bytes) := by
    rw [sumChars_short ch (le_refl _) (by omega) (by omega) (by omega),
      zero_add]
  have hbound : (charSum ch key.bytes).tmod maxTableSize < maxTableSize :=
    Int.tmod_lt_of_pos _ (by decide)
  unfold hashSlot NonnegRemainder
  rw [hsum]
  by_cases hrem : 0 ≤ (charSum ch key.bytes).tmod maxTableSize
  · simp only [hrem, hbound, and_self, reduceDIte, Option.isSome_some]
  · simp only [hrem, false_and, reduceDIte, Option.isSome_none,
      Bool.false_eq_true]

/-! ## Calls and runs -/

/-- One call of the interface; a returned pointer is read as its text. -/
def hashCall (ch : PlainChar) (A : Allocator) :
    Call → Exec HashTable (Reply CString)
  | .set key value => do
      return .code (← putKvHashtable ch A (some key) (some value))
  | .get key => do
      return .text ((← getKvHashtable ch (some key)).map CharBlock.str)
  | .del key => do return .code (← deleteKvHashtable ch (some key))
  | .exist key => do return .code (← kvExist ch (some key))
  | .count => do return .code (← countHashtable)

def hashRun (ch : PlainChar) (A : Allocator) (content : HashSlot → Addr)
    (calls : List Call) : Exec HashTable (List (Reply CString)) := do
  let _ ← createHashtable A content
  runAll (hashCall ch A) calls

def OnKey (P : CString → Prop) : Call → Prop
  | .set key _ => P key
  | .get key => P key
  | .del key => P key
  | .exist key => P key
  | .count => True

theorem OnKey.mono {P Q : CString → Prop} {call : Call} (h : OnKey P call)
    (himp : ∀ key, P key → Q key) : OnKey Q call := by
  cases call with
  | set key value => exact himp key h
  | get key => exact himp key h
  | del key => exact himp key h
  | exist key => exact himp key h
  | count => trivial

theorem OnKey.and {P Q : CString → Prop} {call : Call} (hP : OnKey P call)
    (hQ : OnKey Q call) : OnKey (fun key => P key ∧ Q key) call := by
  cases call with
  | set key value => exact ⟨hP, hQ⟩
  | get key => exact ⟨hP, hQ⟩
  | del key => exact ⟨hP, hQ⟩
  | exist key => exact ⟨hP, hQ⟩
  | count => trivial

def HasSlot (ch : PlainChar) (key : CString) : Prop :=
  (hashSlot ch key).isSome

/-- The call looks the table up, or deletes a key that is not there. -/
def ReadsOnly (m : StringMap) : Call → Prop
  | .set _ _ => False
  | .del key => key ∉ m
  | _ => True

section Runs

variable {ch : PlainChar} {A : Allocator} {s : HashTable} {m : StringMap}
  {rest : List Addr}

theorem HashHolds.returns_call (hA : A.Succeeds) (h : HashHolds ch rest s m)
    (call : Call) (hslot : OnKey (HasSlot ch) call) :
    Returns (hashCall ch A call) s (fun reply s' =>
      reply = (kvSpec call m).1 ∧ HashHolds ch rest s' (kvSpec call m).2 ∧
        (ReadsOnly m call → s' = s)) := by
  cases call with
  | set key value =>
      obtain ⟨i, hi⟩ := Option.isSome_iff_exists.mp hslot
      simp only [hashCall, returns_bind, returns_pure]
      apply (h.returns_put hA hi value).mono
      intro ret s' hs'
      rcases hs' with ⟨rfl, hs'⟩
      exact ⟨rfl, hs', False.elim⟩
  | get key =>
      obtain ⟨i, hi⟩ := Option.isSome_iff_exists.mp hslot
      simp only [hashCall, returns_bind, returns_pure]
      apply (h.returns_get hi).mono
      intro p s' hs'
      rcases hs' with ⟨rfl, hp⟩
      exact ⟨congrArg Reply.text hp, h, fun _ => rfl⟩
  | del key =>
      obtain ⟨i, hi⟩ := Option.isSome_iff_exists.mp hslot
      simp only [hashCall, returns_bind, returns_pure]
      apply (h.returns_delete hi).mono
      intro ret s' hs'
      by_cases hk : key ∈ m
      · simp only [hk, reduceIte] at hs'
        simp only [kvSpec, hk, reduceIte, hs'.1, true_and]
        exact ⟨hs'.2, fun habsent => absurd hk habsent⟩
      · simp only [hk, reduceIte] at hs'
        simp only [kvSpec, hk, reduceIte, hs'.1, true_and]
        rw [hs'.2]
        exact ⟨h, fun _ => rfl⟩
  | exist key =>
      obtain ⟨i, hi⟩ := Option.isSome_iff_exists.mp hslot
      simp only [hashCall, returns_bind, returns_pure]
      apply (h.returns_exist hi).mono
      intro ret s' hs'
      rcases hs' with ⟨rfl, rfl⟩
      exact ⟨rfl, h, fun _ => rfl⟩
  | count =>
      simp only [hashCall, countHashtable, returns_bind,
        Fallible.returns_get, returns_pure]
      exact ⟨congrArg Reply.code h.count_eq, h, fun _ => trivial⟩

theorem HashHolds.returns_calls (hA : A.Succeeds)
    (h : HashHolds ch rest s m) {calls : List Call}
    (hslots : ∀ call ∈ calls, OnKey (HasSlot ch) call) :
    Returns (runAll (hashCall ch A) calls) s (fun replies s' =>
      replies = (specRun kvSpec calls m).1 ∧
        HashHolds ch rest s' (specRun kvSpec calls m).2) := by
  apply runAll_simulates (fun call _ => OnKey (HasSlot ch) call)
  · intro call s m hm hslot
    apply (hm.returns_call hA call hslot).mono
    intro reply s' hs'
    exact ⟨hs'.1, hs'.2.1⟩
  · exact h
  · exact specMeets_of_forall (fun call hcall _ => hslots call hcall) m

/-- The allocator's answer decides, and the block keeps its content. -/
theorem returns_createHashtable (A : Allocator) (content : HashSlot → Addr)
    (s : HashTable) :
    Returns (createHashtable A content) s (fun ret s' =>
      (ret = -1 ∧ A.place s.arena.requests s.arena.live = none) ∨
      (ret = 0 ∧ A.place s.arena.requests s.arena.live ≠ none ∧
        s'.slots = content ∧ s'.maxSlots = maxTableSize ∧ s'.count = 0 ∧
          s'.arena.Owns [s'.nodes] s.arena.live)) := by
  simp only [createHashtable, malloc, returns_bind, Fallible.returns_get]
  split
  next a hplace =>
    have ha := A.place_fresh hplace
    simp only [returns_bind, returns_modify, returns_pure, ha.1, reduceIte]
    refine Or.inr ⟨trivial, ?_, rfl, rfl, rfl, List.Perm.refl _⟩
    rw [show A.place s.arena.requests s.arena.live = some a from hplace]
    exact Option.some_ne_none a
  next hplace =>
    simp only [returns_bind, returns_modify, returns_pure, reduceIte]
    exact Or.inl ⟨trivial, hplace⟩

/-- A block of null pointers is an empty table. -/
theorem hashHolds_empty (hslots : ∀ i, s.slots i = NULL)
    (hmax : s.maxSlots = maxTableSize) (hcount : s.count = 0)
    (howns : s.arena.Owns [s.nodes] rest) : HashHolds ch rest s ∅ := by
  have hempty : gather (fun _ : HashSlot => ([] : List HashNode)) = [] := by
    rw [List.eq_nil_iff_forall_not_mem]
    intro x hx
    obtain ⟨i, hi⟩ := mem_gather.mp hx
    cases hi
  refine ⟨⟨fun _ => [], ⟨hslots, fun _ => trivial, placed_nil, hmax, ?_,
    ?_⟩, ?_⟩⟩
  · rw [hempty, hcount]
    rfl
  · rw [hempty]
    exact howns
  · rw [hempty]
    exact abstracts_nil

/-- A new table whose slots were null pointers holds nothing. -/
theorem returns_createHashtable_null (ch : PlainChar) (hA : A.Succeeds)
    (s : HashTable) :
    Returns (createHashtable A (fun _ => NULL)) s (fun ret s' =>
      ret = 0 ∧ HashHolds ch s.arena.live s' ∅) := by
  apply (returns_createHashtable A _ s).mono
  intro ret s₁ hs₁
  rcases hs₁ with ⟨-, hplace⟩ | ⟨hret, -, hslots₁, hmax, hcount, howns⟩
  · exact absurd hA (not_succeeds_of_place hplace)
  · exact ⟨hret, hashHolds_empty (fun i => congrFun hslots₁ i) hmax hcount
      howns⟩

theorem returns_hashRun (hA : A.Succeeds) (s : HashTable)
    {calls : List Call}
    (hslots : ∀ call ∈ calls, OnKey (HasSlot ch) call) :
    Returns (hashRun ch A (fun _ => NULL) calls) s (fun replies s' =>
      replies = (specRun kvSpec calls ∅).1 ∧
        HashHolds ch s.arena.live s' (specRun kvSpec calls ∅).2) := by
  simp only [hashRun, returns_bind]
  apply (returns_createHashtable_null ch hA s).mono
  intro ret s₁ hs₁
  exact hs₁.2.returns_calls hA hslots

end Runs

/-! ## Keys without a slot -/

section NoSlot

variable {ch : PlainChar} {s : HashTable} {key : CString} {α : Type}

theorem not_returns_headOf {idx : ℤ}
    (hidx : ¬ (0 ≤ idx ∧ idx < maxTableSize))
    (Q : Addr → HashTable → Prop) : ¬ Returns (headOf idx) s Q := by
  intro h
  simp only [headOf, slotOf, returns_bind, Fallible.returns_get, dif_neg hidx,
    returns_ite, returns_throw, ite_self] at h

theorem not_returns_hash (hslot : hashSlot ch key = none)
    {f : ℤ → Exec HashTable α} {Q : α → HashTable → Prop}
    (hf : ∀ idx : ℤ, ¬ (0 ≤ idx ∧ idx < maxTableSize) →
      ¬ Returns (f idx) s Q) :
    ¬ Returns (hash ch key maxTableSize >>= f) s Q := by
  intro h
  rw [returns_bind, hash] at h
  unfold hashSlot at hslot
  cases hsum : sumChars ch key.bytes 0 0 with
  | none => simp [hsum] at h
  | some sum =>
      simp only [hsum] at h hslot
      rw [returns_pure] at h
      split at hslot
      next => cases hslot
      next hrange => exact hf _ hrange h

theorem not_returns_searchChain {ρ : Type} {hit : Addr → Exec HashTable ρ}
    {missing : ρ} {idx : ℤ} (hidx : ¬ (0 ≤ idx ∧ idx < maxTableSize))
    (Q : ρ → HashTable → Prop) :
    ¬ Returns (searchChain key hit missing idx) s Q := by
  intro h
  simp only [searchChain, loopFuel, returns_bind, Fallible.returns_get,
    returns_pure] at h
  exact not_returns_headOf hidx _ h

theorem not_returns_getKvHashtable (hslot : hashSlot ch key = none)
    (Q : CharPtr → HashTable → Prop) :
    ¬ Returns (getKvHashtable ch (some key)) s Q :=
  not_returns_hash hslot (fun _ hidx => not_returns_searchChain hidx Q)

theorem not_returns_kvExist (hslot : hashSlot ch key = none)
    (Q : ℤ → HashTable → Prop) : ¬ Returns (kvExist ch (some key)) s Q := by
  intro h
  rw [kvExist, returns_bind] at h
  exact not_returns_getKvHashtable hslot _ h

theorem not_returns_putKvHashtable (hslot : hashSlot ch key = none)
    (A : Allocator) (value : CString) (Q : ℤ → HashTable → Prop) :
    ¬ Returns (putKvHashtable ch A (some key) (some value)) s Q := by
  apply not_returns_hash hslot
  intro idx _ h
  rw [returns_bind] at h
  exact not_returns_kvExist hslot _ h

theorem not_returns_deleteKvHashtable (hslot : hashSlot ch key = none)
    (Q : ℤ → HashTable → Prop) :
    ¬ Returns (deleteKvHashtable ch (some key)) s Q := by
  apply not_returns_hash hslot
  intro idx hidx h
  rw [returns_bind] at h
  exact not_returns_headOf hidx _ h

/-- A call that returns had a key with a slot. -/
theorem hasSlot_of_returns_call {A : Allocator} {call : Call}
    {Q : Reply CString → HashTable → Prop}
    (h : Returns (hashCall ch A call) s Q) : OnKey (HasSlot ch) call := by
  have hsome : ∀ key, (hashSlot ch key = none → False) → HasSlot ch key := by
    intro key hne
    exact Option.isSome_iff_ne_none.mpr hne
  cases call with
  | set key value =>
      rw [hashCall, returns_bind] at h
      exact hsome key (fun hnone =>
        not_returns_putKvHashtable hnone A value _ h)
  | get key =>
      rw [hashCall, returns_bind] at h
      exact hsome key (fun hnone => not_returns_getKvHashtable hnone _ h)
  | del key =>
      rw [hashCall, returns_bind] at h
      exact hsome key (fun hnone => not_returns_deleteKvHashtable hnone _ h)
  | exist key =>
      rw [hashCall, returns_bind] at h
      exact hsome key (fun hnone => not_returns_kvExist hnone _ h)
  | count => trivial

theorem hasSlot_of_returns_calls {A : Allocator} {calls : List Call}
    {Q : List (Reply CString) → HashTable → Prop}
    (h : Returns (runAll (hashCall ch A) calls) s Q) :
    ∀ call ∈ calls, OnKey (HasSlot ch) call := by
  induction calls generalizing s Q with
  | nil => simp
  | cons call rest ih =>
      rw [runAll, returns_bind] at h
      intro call' hmem
      rcases List.mem_cons.mp hmem with rfl | hmem
      · exact hasSlot_of_returns_call h
      · obtain ⟨reply, s₁, -, hrest⟩ := h
        rw [returns_bind] at hrest
        exact ih hrest call' hmem

end NoSlot

/-! ## Refinement -/

structure SummableKey (key : CString) : Prop where
  plain : PlainKey key
  fits : (byteSum key.bytes : ℤ) ≤ intMax

theorem SummableKey.hasSlot {key : CString} (ch : PlainChar)
    (h : SummableKey key) : HasSlot ch key :=
  (hashSlot_isSome_iff ch h.plain).mpr h.fits

/-- Every call keeps the table well formed and answers as the finite map does,
and so does every run from a table of null pointers. -/
theorem hashRun_refines_kvSpec (ch : PlainChar) (A : Allocator)
    (hA : A.Succeeds) :
    (∀ rest s m call, HashHolds ch rest s m → OnKey SummableKey call →
      Returns (hashCall ch A call) s (fun reply s' =>
        reply = (kvSpec call m).1 ∧ HashHolds ch rest s' (kvSpec call m).2 ∧
          (ReadsOnly m call → s' = s))) ∧
    (∀ s calls, (∀ call ∈ calls, OnKey SummableKey call) →
      Returns (hashRun ch A (fun _ => NULL) calls) s (fun replies s' =>
        replies = (specRun kvSpec calls ∅).1 ∧
          HashHolds ch s.arena.live s' (specRun kvSpec calls ∅).2)) := by
  constructor
  · intro rest s m call hholds hcall
    apply hholds.returns_call hA
    exact hcall.mono (fun _ hkey => hkey.hasSlot ch)
  · intro s calls hcalls
    apply returns_hashRun hA
    intro call hcall
    exact (hcalls call hcall).mono (fun _ hkey => hkey.hasSlot ch)

def blankHash : HashTable where
  arena := .empty
  nodes := NULL
  slots := fun _ => NULL
  maxSlots := 0
  count := 0
  key := fun _ => none
  value := fun _ => none
  next := fun _ => none

instance (key : CString) : Decidable (SummableKey key) :=
  decidable_of_iff (PlainKey key ∧ (byteSum key.bytes : ℤ) ≤ intMax)
    ⟨fun h => ⟨h.1, h.2⟩, fun h => ⟨h.plain, h.fits⟩⟩

instance (P : CString → Prop) [DecidablePred P] :
    DecidablePred (OnKey P)
  | .set key _ => inferInstanceAs (Decidable (P key))
  | .get key => inferInstanceAs (Decidable (P key))
  | .del key => inferInstanceAs (Decidable (P key))
  | .exist key => inferInstanceAs (Decidable (P key))
  | .count => inferInstanceAs (Decidable True)

theorem hashRun_refines_kvSpec_sample :
    Returns (hashRun .signed .above (fun _ => NULL) sampleCalls) blankHash
      (fun replies s' =>
        replies = (specRun kvSpec sampleCalls ∅).1 ∧
          HashHolds .signed [] s' (specRun kvSpec sampleCalls ∅).2) :=
  (hashRun_refines_kvSpec .signed .above Allocator.above_succeeds).2
    blankHash sampleCalls (by decide)

def longKey (n : ℕ) : CString where
  bytes := List.replicate n 127
  noNul := by
    intro hmem
    cases List.eq_of_mem_replicate hmem

theorem plainKey_longKey (n : ℕ) : PlainKey (longKey n) := by
  intro b hb
  rw [List.eq_of_mem_replicate hb]
  decide

theorem byteSum_longKey (n : ℕ) : byteSum (longKey n).bytes = n * 127 := by
  rw [byteSum, longKey, List.map_replicate, List.sum_replicate, smul_eq_mul]
  rfl

/-- A key that is too long overflows the sum. -/
theorem not_returns_put_longKey {n : ℕ} (hn : 16909321 ≤ n) (ch : PlainChar)
    (A : Allocator) (value : CString) (s : HashTable)
    (Q : ℤ → HashTable → Prop) :
    ¬ Returns (putKvHashtable ch A (some (longKey n)) (some value)) s Q := by
  have hlarge : ¬ ((byteSum (longKey n).bytes : ℕ) : ℤ) ≤ intMax := by
    rw [byteSum_longKey, intMax]
    push_cast
    omega
  simp [putKvHashtable, hash, sumChars_of_plain ch (plainKey_longKey n),
    hlarge]

theorem not_returns_hashRun_longKey
    (Q : List (Reply CString) → HashTable → Prop) :
    ¬ Returns (hashRun .signed .above (fun _ => NULL)
      [.set (longKey 16909321) ⟨[49], by decide⟩]) blankHash Q := by
  intro hrun
  simp only [hashRun, returns_bind] at hrun
  obtain ⟨ret, s₁, -, hset⟩ := hrun
  simp only [runAll, hashCall, returns_bind] at hset
  exact not_returns_put_longKey (le_refl _) _ _ _ _ _ hset

/-- Storing a plain key whose sum is just beyond `int` does not return. -/
theorem hashRun_overflow :
    PlainKey (longKey 16909321) ∧
      ¬ Returns (hashRun .signed .above (fun _ => NULL)
        [.set (longKey 16909321) ⟨[49], by decide⟩]) blankHash
        (fun _ _ => True) :=
  ⟨plainKey_longKey _, not_returns_hashRun_longKey _⟩

/-! ## The content of a new table -/

/-- Every chain is empty, and the calls that follow, up to the destruction of
the table, meet only the nodes that they put in themselves. -/
structure FreshTable (ch : PlainChar) (rest : List Addr) (s : HashTable) :
    Prop where
  empty : ∀ i, s.slots i = NULL
  count : s.count = 0
  absent : ∀ key, HasSlot ch key →
    Returns (getKvHashtable ch (some key)) s
      (fun value s' => value = none ∧ s' = s) ∧
    Returns (kvExist ch (some key)) s (fun ret s' => ret = -1 ∧ s' = s)
  later : ∀ A : Allocator, A.Succeeds →
    ∀ calls : List Call, (∀ call ∈ calls, OnKey (HasSlot ch) call) →
    Returns (runAll (hashCall ch A) calls) s (fun replies s' =>
      replies = (specRun kvSpec calls ∅).1 ∧
        HashHolds ch rest s' (specRun kvSpec calls ∅).2 ∧
        Returns destroyHashtable s' (fun _ s'' => ∃ texts : List Addr,
          texts.length = 2 * (specRun kvSpec calls ∅).2.keys.card ∧
            s''.arena.live.Perm (texts ++ rest)))

theorem texts_length (nodes : List HashNode) :
    (nodes.flatMap HashNode.texts).length = 2 * nodes.length := by
  induction nodes with
  | nil => rfl
  | cons x nodes ih =>
      rw [List.flatMap_cons, List.length_append, ih, List.length_cons]
      simp only [HashNode.texts, List.length_cons, List.length_nil]
      ring

theorem HashHolds.returns_destroy {ch : PlainChar} {rest : List Addr}
    {s : HashTable} {m : StringMap} (h : HashHolds ch rest s m) :
    Returns destroyHashtable s (fun _ s' => ∃ texts : List Addr,
      texts.length = 2 * m.keys.card ∧
        s'.arena.live.Perm (texts ++ rest)) := by
  obtain ⟨chains, hrep, habs⟩ := h.table
  apply hrep.draining.returns_destroy.mono
  intro _ s' hs'
  exact ⟨_, by rw [texts_length, habs.card], hs'⟩

theorem freshTable_of_empty {ch : PlainChar} {rest : List Addr}
    {s : HashTable} (hslots : ∀ i, s.slots i = NULL) (hcount : s.count = 0)
    (hholds : HashHolds ch rest s ∅) : FreshTable ch rest s where
  empty := hslots
  count := hcount
  absent := by
    intro key hkey
    obtain ⟨i, hi⟩ := Option.isSome_iff_exists.mp hkey
    constructor
    · apply (hholds.returns_get hi).mono
      intro value s' hs'
      rcases hs' with ⟨rfl, hvalue⟩
      rw [Finmap.lookup_empty] at hvalue
      exact ⟨Option.map_eq_none_iff.mp hvalue, rfl⟩
    · apply (hholds.returns_exist hi).mono
      intro ret s' hs'
      rcases hs' with ⟨rfl, rfl⟩
      simp [Finmap.notMem_empty]
  later := by
    intro A hA calls hcalls
    apply (hholds.returns_calls hA hcalls).mono
    intro replies s' hs'
    exact ⟨hs'.1, hs'.2, hs'.2.returns_destroy⟩

/-- A table that was created is empty exactly when the block it got held only
null pointers. -/
theorem createHashtable_fresh_iff (ch : PlainChar) (A : Allocator)
    (content : HashSlot → Addr) (s : HashTable) :
    Returns (createHashtable A content) s (fun ret s' =>
      ret = 0 → FreshTable ch s.arena.live s') ↔
    A.place s.arena.requests s.arena.live = none ∨
      ∀ i, content i = NULL := by
  constructor
  · intro hfresh
    obtain ⟨ret, s', -, hfresh, hcreated⟩ :=
      hfresh.and (returns_createHashtable A content s)
    rcases hcreated with ⟨-, hplace⟩ | ⟨hret, -, hslots, -⟩
    · exact Or.inl hplace
    · right
      intro i
      rw [← hslots]
      exact (hfresh hret).empty i
  · intro hcond
    apply (returns_createHashtable A content s).mono
    intro ret s' hcreated hret
    rcases hcreated with ⟨hret', -⟩ | ⟨-, hplace, hslots, hmax, hcount, howns⟩
    · omega
    · have hnull : ∀ i, s'.slots i = NULL := by
        intro i
        rw [hslots]
        exact (hcond.resolve_left hplace) i
      exact freshTable_of_empty hnull hcount
        (hashHolds_empty hnull hmax hcount howns)

/-- A block that held other addresses is not a table of empty chains. -/
theorem createHashtable_dirty :
    ¬ Returns (createHashtable .above (fun _ => 5)) blankHash
      (fun ret s' => ret = 0 → FreshTable .signed [] s') := by
  intro hfresh
  obtain ⟨ret, s', -, hfresh, hcreated⟩ :=
    hfresh.and (returns_createHashtable .above (fun _ => 5) blankHash)
  rcases hcreated with ⟨-, hplace⟩ | ⟨hret, -, hslots, -⟩
  · cases hplace
  · have hnull := (hfresh hret).empty 0
    rw [hslots] at hnull
    cases hnull

end CAdvanced
