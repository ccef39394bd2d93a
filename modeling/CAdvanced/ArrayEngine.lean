import CAdvanced.ArrayProgram
import CAdvanced.StoreCalls

/-!
# The array engine refines a bounded map

The slots below `array_index` hold the bindings in the order of their first
insertion; what lies behind them is stale.  The abstract machine is a finite map
with an order on its keys and room for `KVS_ARRAY_SIZE` of them.
-/

namespace CAdvanced

open Fallible
open KeyValue
open KvsArray

/-- An occupied slot. -/
structure Binding where
  key : CharBlock
  value : CharBlock

namespace Binding

def item (b : Binding) : KvsArrayItem := ⟨some b.key, some b.value⟩

def blocks (b : Binding) : List Addr := [b.key.addr, b.value.addr]

def text (b : Binding) : CString := b.key.str

def content (b : Binding) : Option CString := some b.value.str

end Binding

/-- The occupied part of the table, and the blocks that the engine owns. -/
structure ArrayRep (s : KvsArray) (L : List Binding) (rest : List Addr) :
    Prop where
  length : s.slots.length = kvsArraySize
  index : s.arrayIndex = L.length
  occupied : L.map Binding.item <+: s.slots
  owns : s.arena.Owns (s.arrayTable :: L.flatMap Binding.blocks) rest

/-! ## Table access -/

section Access

variable {s : KvsArray} {L A B : List Binding} {b : Binding}
  {rest : List Addr} {i : ℕ} {item : KvsArrayItem}

theorem returns_readSlot (hlive : s.arrayTable ∈ s.arena.live)
    (hitem : s.slots[i]? = some item) (Q : KvsArrayItem → KvsArray → Prop) :
    Returns (itemAt i) s Q ↔ Q item s := by
  have hi : ¬ (i : ℤ) < 0 := by omega
  simp [itemAt, hlive, hitem, hi]

theorem returns_writeSlot (hlive : s.arrayTable ∈ s.arena.live)
    (hi : i < s.slots.length) (Q : Unit → KvsArray → Prop) :
    Returns (setItem i item) s Q ↔ Q () (withSlot i item s) := by
  have hnonneg : ¬ (i : ℤ) < 0 := by omega
  have hinside : ¬ s.slots.length ≤ i := by omega
  simp [setItem, hlive, hinside, hnonneg]

theorem returns_updateItem (hlive : s.arrayTable ∈ s.arena.live)
    (hitem : s.slots[i]? = some item) (f : KvsArrayItem → KvsArrayItem)
    (Q : Unit → KvsArray → Prop) :
    Returns (updateItem i f) s Q ↔ Q () (withSlot i (f item) s) := by
  have hi : i < s.slots.length := (List.getElem?_eq_some_iff.mp hitem).1
  rw [updateItem, returns_bind, returns_readSlot hlive hitem,
    returns_writeSlot hlive hi]

theorem slot_withSlot (hi : i < s.slots.length) (item : KvsArrayItem) :
    (withSlot i item s).slots[i]? = some item := by
  simp [hi]

@[simp] theorem withSlot_withSlot (i : ℕ) (item item' : KvsArrayItem)
    (s : KvsArray) :
    withSlot i item (withSlot i item' s) = withSlot i item s := by
  simp [withSlot]

theorem ArrayRep.tableLive (h : ArrayRep s L rest) :
    s.arrayTable ∈ s.arena.live :=
  h.owns.live (by simp)

theorem ArrayRep.bound (h : ArrayRep s L rest) : L.length ≤ kvsArraySize := by
  rw [← h.length]
  simpa using h.occupied.length_le

theorem ArrayRep.slots_split (h : ArrayRep s (A ++ b :: B) rest) :
    ∃ tail, s.slots =
      A.map Binding.item ++ b.item :: (B.map Binding.item ++ tail) := by
  obtain ⟨tail, htail⟩ := h.occupied
  exact ⟨tail, by rw [← htail]; simp⟩

theorem ArrayRep.slot (h : ArrayRep s (A ++ b :: B) rest) :
    s.slots[A.length]? = some b.item := by
  obtain ⟨tail, htail⟩ := h.slots_split
  rw [htail]
  simp

theorem ArrayRep.returns_itemAt (h : ArrayRep s (A ++ b :: B) rest)
    (Q : KvsArrayItem → KvsArray → Prop) :
    Returns (itemAt (A.length : ℤ)) s Q ↔ Q b.item s :=
  returns_readSlot h.tableLive h.slot Q

end Access

/-! ## Lookup -/

inductive ArrayFound (L : List Binding) (key : CString) : ℤ → Prop
  | found {A B : List Binding} {b : Binding} (hL : L = A ++ b :: B)
      (hkey : b.text = key) : ArrayFound L key A.length
  | absent (hL : ∀ b ∈ L, b.text ≠ key) : ArrayFound L key (-1)

section Lookup

variable {s : KvsArray} {L A B : List Binding} {rest : List Addr}
  {key : CString}

theorem ArrayRep.returns_existStep (h : ArrayRep s L rest)
    (hL : L = A ++ B) (hA : ∀ b ∈ A, b.text ≠ key) :
    Returns (arrayExistStep key A.length) s (fun r s' => s' = s ∧
      match r with
      | .inl next => ∃ b C, B = b :: C ∧ b.text ≠ key ∧
          next = ((A ++ [b]).length : ℤ)
      | .inr i => ArrayFound L key i) := by
  subst hL
  cases B with
  | nil =>
      have hnot : ¬ (A.length : ℤ) < s.arrayIndex := by
        rw [h.index]
        simp
      simp only [arrayExistStep, indexOf, returns_bind, returns_get,
        returns_pure, hnot, reduceIte]
      refine ⟨trivial, .absent ?_⟩
      simpa using hA
  | cons b C =>
      have hlt : (A.length : ℤ) < s.arrayIndex := by
        rw [h.index]
        simp only [List.length_append, List.length_cons]
        omega
      have hiff := strcmp_eq_zero_iff b.key.str key
      simp only [arrayExistStep, indexOf, returns_bind, returns_get,
        returns_pure, hlt, reduceIte, h.returns_itemAt, Binding.item]
      by_cases hkey : strcmp b.key.str key = 0
      · simp only [hkey, reduceIte, returns_pure, true_and]
        exact .found rfl (hiff.mp hkey)
      · simp only [hkey, reduceIte, returns_pure, true_and]
        exact ⟨b, C, rfl, fun heq => hkey (hiff.mpr heq), by simp⟩

theorem ArrayRep.returns_exist (h : ArrayRep s L rest) (key : CString) :
    Returns (arrayExist key) s (fun i s' => s' = s ∧ ArrayFound L key i) := by
  simp only [arrayExist, loopFuel, returns_bind, returns_get, returns_pure]
  refine iterate_returns
    (fun k i s₁ => s₁ = s ∧ ∃ A B, L = A ++ B ∧
      (∀ b ∈ A, b.text ≠ key) ∧ i = (A.length : ℤ) ∧ B.length ≤ k)
    ?_ (k := L.length) ?_ ?_
  · rintro k i s₁ ⟨rfl, A, B, hL, hA, rfl, hk⟩
    apply (h.returns_existStep hL hA).mono
    rintro r s' ⟨rfl, hr⟩
    cases r with
    | inl next =>
        obtain ⟨b, C, rfl, hb, rfl⟩ := hr
        simp only [List.length_cons] at hk
        refine ⟨k - 1, by omega, rfl, A ++ [b], C, by simp [hL], ?_, rfl,
          by omega⟩
        intro b' hb'
        rcases List.mem_append.mp hb' with hb' | hb'
        · exact hA b' hb'
        · rw [List.mem_singleton.mp hb']
          exact hb
    | inr i => exact ⟨rfl, hr⟩
  · exact ⟨rfl, [], L, rfl, by simp, rfl, le_refl _⟩
  · rw [h.index]
    simp

theorem ArrayRep.returns_get (h : ArrayRep s L rest) (key : CString) :
    Returns (arrayGet (some key)) s (fun p s' => s' = s ∧
      ((∃ b ∈ L, b.text = key ∧ p = some b.value) ∨
        ((∀ b ∈ L, b.text ≠ key) ∧ p = none))) := by
  simp only [arrayGet, returns_bind]
  apply (h.returns_exist key).mono
  intro i s₁ hs₁
  obtain ⟨rfl, hfound⟩ := hs₁
  cases hfound with
  | absent hL =>
      simp only [reduceIte, returns_pure]
      exact ⟨trivial, Or.inr ⟨hL, trivial⟩⟩
  | @found B C b hL hb =>
      subst hL
      have hi : (B.length : ℤ) ≠ -1 := by omega
      simp only [hi, reduceIte, returns_bind]
      rw [h.returns_itemAt, returns_pure]
      exact ⟨rfl, Or.inl ⟨b, by simp, hb, rfl⟩⟩

end Lookup

/-! ## Blocks -/

/-- Only the arena may differ. -/
structure SameTable (s s' : KvsArray) : Prop where
  arrayTable : s'.arrayTable = s.arrayTable
  slots : s'.slots = s.slots
  arrayIndex : s'.arrayIndex = s.arrayIndex

section Blocks

variable {s : KvsArray} {blocks rest : List Addr}

theorem returns_copyText_array (A : Allocator)
    (howns : s.arena.Owns blocks rest) (str : CString) :
    Returns (copyText A str) s (fun p s' => SameTable s s' ∧
      ((p = none ∧ ¬ A.Grants 1 s.arena ∧ s'.arena.Owns blocks rest) ∨
        ∃ a, p = some ⟨a, str⟩ ∧
          (∀ n, A.Grants (n + 1) s.arena ↔ A.Grants n s'.arena) ∧
          s'.arena.Owns (a :: blocks) rest ∧
          s.arena.Turnover [a] [] s'.arena)) := by
  apply returns_copyText_or
  · intro hplace
    exact ⟨⟨rfl, rfl, rfl⟩, Or.inl ⟨rfl, not_grants_succ hplace, howns⟩⟩
  · intro a hplace
    have ha := A.place_fresh hplace
    exact ⟨⟨rfl, rfl, rfl⟩, Or.inr ⟨a, rfl, fun n => grants_succ hplace,
      howns.grant ha, Arena.turnover_grant ha⟩⟩

theorem returns_freeText_array {block : CharBlock}
    (howns : s.arena.Owns (block.addr :: blocks) rest) :
    Returns (freeText (some block)) s (fun _ s' =>
      SameTable s s' ∧ s'.arena.Owns blocks rest ∧
        s.arena.Turnover [] [block.addr] s'.arena) := by
  have hlive : block.addr ∈ s.arena.live := howns.live (by simp)
  apply returns_free
  · exact howns.ne_null (by simp)
  · exact hlive
  · exact ⟨⟨rfl, rfl, rfl⟩, howns.release, Arena.turnover_release hlive⟩

end Blocks

/-! ## Updates -/

section Update

variable {s : KvsArray} {L B C : List Binding} {b : Binding}
  {rest : List Addr} {key : CString} {A : Allocator}

theorem ArrayRep.set_occupied {b' : Binding} {s' : KvsArray}
    (h : ArrayRep s (B ++ b :: C) rest)
    (hsame : SameTable (withSlot B.length b'.item s) s')
    (howns : s'.arena.Owns (s.arrayTable ::
      (B ++ b' :: C).flatMap Binding.blocks) rest) :
    ArrayRep s' (B ++ b' :: C) rest := by
  obtain ⟨tail, htail⟩ := h.slots_split
  refine ⟨?_, ?_, ⟨tail, ?_⟩, ?_⟩
  · simpa [hsame.slots] using h.length
  · simpa [hsame.arrayIndex] using h.index
  · simp [hsame.slots, htail]
  · simpa [hsame.arrayTable] using howns

theorem ArrayFound.ne_neg_one {i : ℤ} (h : ArrayFound L key i)
    (hkey : ∃ b ∈ L, b.text = key) : i ≠ -1 := by
  cases h with
  | found hL hb => omega
  | absent hL =>
      obtain ⟨b, hb, htext⟩ := hkey
      exact absurd htext (hL b hb)

theorem ArrayRep.sameTable {s' : KvsArray} (h : ArrayRep s L rest)
    (hsame : SameTable s s')
    (howns : s'.arena.Owns (s.arrayTable :: L.flatMap Binding.blocks) rest) :
    ArrayRep s' L rest := by
  refine ⟨?_, ?_, ?_, ?_⟩
  · rw [hsame.slots, h.length]
  · rw [hsame.arrayIndex, h.index]
  · rw [hsame.slots]
    exact h.occupied
  · rwa [hsame.arrayTable]

inductive ArrayStored (A : Allocator) (s : KvsArray) (L : List Binding)
    (rest : List Addr) (key value : CString) : ℤ → KvsArray → Prop
  | full (hfull : L.length = kvsArraySize) :
      ArrayStored A s L rest key value (-1) s
  | replaced {s' : KvsArray} {B C : List Binding} {b : Binding} {vp : Addr}
      (hL : L = B ++ b :: C) (hkey : b.text = key)
      (hrep : ArrayRep s' (B ++ { b with value := ⟨vp, value⟩ } :: C) rest)
      (hturn : s.arena.Turnover [vp] [b.value.addr] s'.arena)
      (hroom : L.length ≠ kvsArraySize) :
      ArrayStored A s L rest key value 0 s'
  | appended {s' : KvsArray} {kp vp : Addr} (habsent : ∀ b ∈ L, b.text ≠ key)
      (hrep : ArrayRep s' (L ++ [⟨⟨kp, key⟩, ⟨vp, value⟩⟩]) rest)
      (hturn : s.arena.Turnover [vp, kp] [] s'.arena)
      (hroom : L.length ≠ kvsArraySize) :
      ArrayStored A s L rest key value 0 s'
  | refused {s' : KvsArray} {ret : ℤ} (hA : ¬ A.Succeeds)
      (hrep : ArrayRep s' L rest) :
      ArrayStored A s L rest key value ret s'

/-- What `array_set` does, and which of its requests were granted. -/
inductive ArrayUpdated (A : Allocator) (s : KvsArray) (L : List Binding)
    (rest : List Addr) (key value : CString) : ℤ → KvsArray → Prop
  | full (hfull : L.length = kvsArraySize) :
      ArrayUpdated A s L rest key value (-1) s
  | replaced {s' : KvsArray} {B C : List Binding} {b : Binding} {vp : Addr}
      (hgrants : A.Grants 1 s.arena) (hroom : L.length ≠ kvsArraySize)
      (hL : L = B ++ b :: C) (hkey : b.text = key)
      (hrep : ArrayRep s' (B ++ { b with value := ⟨vp, value⟩ } :: C) rest)
      (hturn : s.arena.Turnover [vp] [b.value.addr] s'.arena) :
      ArrayUpdated A s L rest key value 0 s'
  | kept {s' : KvsArray} (hrefused : ¬ A.Grants 1 s.arena)
      (hroom : L.length ≠ kvsArraySize) (hkey : ∃ b ∈ L, b.text = key)
      (hrep : ArrayRep s' L rest) : ArrayUpdated A s L rest key value 0 s'
  | appended {s' : KvsArray} {kp vp : Addr} (hgrants : A.Grants 2 s.arena)
      (hroom : L.length ≠ kvsArraySize) (habsent : ∀ b ∈ L, b.text ≠ key)
      (hrep : ArrayRep s' (L ++ [⟨⟨kp, key⟩, ⟨vp, value⟩⟩]) rest)
      (hturn : s.arena.Turnover [vp, kp] [] s'.arena) :
      ArrayUpdated A s L rest key value 0 s'
  | refused {s' : KvsArray} (hrefused : ¬ A.Grants 2 s.arena)
      (hroom : L.length ≠ kvsArraySize) (habsent : ∀ b ∈ L, b.text ≠ key)
      (hrep : ArrayRep s' L rest) : ArrayUpdated A s L rest key value (-1) s'

theorem ArrayUpdated.stored {A : Allocator} {value : CString} {ret : ℤ}
    {s' : KvsArray} (h : ArrayUpdated A s L rest key value ret s') :
    ArrayStored A s L rest key value ret s' := by
  cases h with
  | full hfull => exact .full hfull
  | replaced _ hroom hL hkey hrep hturn =>
      exact .replaced hL hkey hrep hturn hroom
  | kept hrefused _ _ hrep =>
      exact .refused (fun hA => hrefused (hA.grants 1 _)) hrep
  | appended _ hroom habsent hrep hturn =>
      exact .appended habsent hrep hturn hroom
  | refused hrefused _ _ hrep =>
      exact .refused (fun hA => hrefused (hA.grants 2 _)) hrep

theorem ArrayRep.returns_mod (h : ArrayRep s L rest)
    (hkey : ∃ b ∈ L, b.text = key) (hroom : L.length ≠ kvsArraySize)
    (A : Allocator) (value : CString) :
    Returns (arrayMod A (some key) value) s (fun _ s' =>
      ArrayUpdated A s L rest key value 0 s') := by
  simp only [arrayMod, returns_bind]
  apply (h.returns_exist key).mono
  rintro i s₁ ⟨rfl, hfound⟩
  have hi := hfound.ne_neg_one hkey
  simp only [hi, reduceIte, returns_bind]
  cases hfound with
  | absent hL => exact absurd rfl hi
  | @found B C b hL hb =>
      subst hL
      rw [h.returns_itemAt]
      apply (returns_copyText_array A h.owns value).mono
      intro p s₂ hs₂
      obtain ⟨hsame, ⟨rfl, hrefused, howns⟩ |
        ⟨vp, rfl, hgrants, howns, hturn⟩⟩ := hs₂
      · rw [returns_pure]
        exact .kept hrefused hroom hkey (h.sameTable hsame howns)
      have hlive : s₂.arrayTable ∈ s₂.arena.live := by
        rw [hsame.arrayTable]
        exact howns.live (by simp)
      have hslot : s₂.slots[B.length]? = some b.item := by
        rw [hsame.slots]
        exact h.slot
      simp only [returns_bind, returns_updateItem hlive hslot, Binding.item]
      have hfree : (withSlot B.length ⟨some b.key, some ⟨vp, value⟩⟩
          s₂).arena.Owns (b.value.addr :: s₁.arrayTable ::
            (B ++ { b with value := ⟨vp, value⟩ } :: C).flatMap
              Binding.blocks) rest := by
        apply howns.perm
        rw [List.perm_iff_count]
        intro x
        simp only [List.flatMap_append, List.flatMap_cons, Binding.blocks,
          List.count_cons, List.count_append, List.count_nil]
        ring
      apply (returns_freeText_array hfree).mono
      intro _ s₃ hs₃
      obtain ⟨hsame₃, howns₃, hturn₃⟩ := hs₃
      rw [returns_pure]
      refine .replaced ((hgrants 0).mpr trivial) hroom rfl hb
        (h.set_occupied ⟨?_, ?_, ?_⟩ howns₃) (hturn.trans hturn₃)
      · simp [hsame₃.arrayTable, hsame.arrayTable]
      · simp [hsame₃.slots, hsame.slots, Binding.item]
      · simp [hsame₃.arrayIndex, hsame.arrayIndex]

theorem ArrayRep.returns_append (h : ArrayRep s L rest)
    (habsent : ∀ b ∈ L, b.text ≠ key) (hroom : L.length ≠ kvsArraySize)
    (A : Allocator) (value : CString) :
    Returns (arrayAppend A key value) s (ArrayUpdated A s L rest key value) := by
  simp only [arrayAppend, returns_bind]
  apply (returns_copyText_array A h.owns key).mono
  intro p s₁ hs₁
  obtain ⟨hsame₁, ⟨rfl, hrefused, howns₁⟩ |
    ⟨kp, rfl, hgrants₁, howns₁, hturn₁⟩⟩ := hs₁
  · rw [returns_pure]
    exact .refused (fun hboth => hrefused hboth.of_succ) hroom habsent
      (h.sameTable hsame₁ howns₁)
  simp only [returns_bind]
  apply (returns_copyText_array A howns₁ value).mono
  intro p s₂ hs₂
  obtain ⟨hsame₂, ⟨rfl, hrefused, howns₂⟩ |
    ⟨vp, rfl, hgrants₂, howns₂, hturn₂⟩⟩ := hs₂
  · have hsame : SameTable s s₂ :=
      ⟨hsame₂.arrayTable.trans hsame₁.arrayTable,
        hsame₂.slots.trans hsame₁.slots,
        hsame₂.arrayIndex.trans hsame₁.arrayIndex⟩
    rw [returns_bind]
    apply returns_free
    · exact howns₂.ne_null (by simp)
    · exact howns₂.live (by simp)
    · rw [returns_pure]
      exact .refused (fun hboth => hrefused ((hgrants₁ 1).mp hboth)) hroom
        habsent (h.sameTable ⟨hsame.arrayTable, hsame.slots,
          hsame.arrayIndex⟩ howns₂.release)
  have hlength : s₂.slots.length = kvsArraySize := by
    rw [hsame₂.slots, hsame₁.slots, h.length]
  have hindex : s₂.arrayIndex = L.length := by
    rw [hsame₂.arrayIndex, hsame₁.arrayIndex, h.index]
  have htable : s₂.arrayTable = s.arrayTable :=
    hsame₂.arrayTable.trans hsame₁.arrayTable
  have hlive : s₂.arrayTable ∈ s₂.arena.live := by
    rw [htable]
    exact howns₂.live (by simp)
  have hbound := h.bound
  have hinside : L.length < s₂.slots.length := by omega
  have hslot := List.getElem?_eq_getElem hinside
  simp only [indexOf, setIndex, returns_bind, Fallible.returns_get,
    returns_pure, returns_modify, hindex, returns_updateItem hlive hslot]
  rw [returns_updateItem (by exact hlive) (slot_withSlot hinside _),
    withSlot_withSlot]
  have hboth : A.Grants 2 s.arena :=
    (hgrants₁ 1).mpr ((hgrants₂ 0).mpr trivial)
  refine @ArrayUpdated.appended A s L rest key value _ kp vp hboth hroom
    habsent ?_ (hturn₁.trans hturn₂)
  obtain ⟨tail, htail⟩ := h.occupied
  have hslots : s₂.slots = L.map Binding.item ++ tail := by
    rw [hsame₂.slots, hsame₁.slots, htail]
  cases tail with
  | nil => simp [hslots] at hinside
  | cons junk tail =>
      refine ⟨?_, ?_, ⟨tail, ?_⟩, ?_⟩
      · simpa using hlength
      · simp
      · simp [hslots, Binding.item]
      · rw [withIndex_arrayTable, withSlot_arrayTable, htable,
          withIndex_arena, withSlot_arena]
        apply howns₂.perm
        rw [List.perm_iff_count]
        intro x
        simp only [List.flatMap_append, List.flatMap_cons, List.flatMap_nil,
          Binding.blocks, List.count_cons, List.count_append, List.count_nil]
        ring

theorem ArrayRep.returns_update (h : ArrayRep s L rest) (A : Allocator)
    (key value : CString) :
    Returns (arraySet A (some key) (some value)) s
      (ArrayUpdated A s L rest key value) := by
  simp only [arraySet, indexOf, returns_bind, Fallible.returns_get,
    returns_pure]
  by_cases hfull : L.length = kvsArraySize
  · have hindex : s.arrayIndex = (kvsArraySize : ℤ) := by
      rw [h.index, hfull]
    simp only [hindex, reduceIte, returns_pure]
    exact .full hfull
  · have hindex : s.arrayIndex ≠ (kvsArraySize : ℤ) := by
      rw [h.index]
      exact_mod_cast hfull
    simp only [hindex, reduceIte, returns_bind]
    apply (h.returns_exist key).mono
    intro i s₁ hs₁
    obtain ⟨rfl, hfound⟩ := hs₁
    cases hfound with
    | absent hL =>
        simp only [ne_eq, not_true_eq_false, reduceIte]
        exact h.returns_append hL hfull A value
    | @found B C b hL hb =>
        have hi : (B.length : ℤ) ≠ -1 := by omega
        simp only [ne_eq, hi, not_false_eq_true, reduceIte, returns_bind,
          returns_pure]
        exact h.returns_mod ⟨b, by simp [hL], hb⟩ hfull A value

theorem ArrayRep.returns_set (h : ArrayRep s L rest) (A : Allocator)
    (key value : CString) :
    Returns (arraySet A (some key) (some value)) s
      (ArrayStored A s L rest key value) :=
  (h.returns_update A key value).mono (fun _ _ hset => hset.stored)

/-- The table while its tail moves up by one place: `B` and `C` are in place,
`D` is still to move. -/
structure Shifting (s₀ s : KvsArray) (B D : List Binding)
    (tail : List KvsArrayItem) : Prop where
  arrayTable : s.arrayTable = s₀.arrayTable
  arena : s.arena = s₀.arena
  index : s.arrayIndex = B.length + 1 + D.length
  slots : ∃ junk, s.slots =
    B.map Binding.item ++ junk :: (D.map Binding.item ++ tail)

theorem Shifting.returns_step {s₀ : KvsArray} {D : List Binding}
    {tail : List KvsArrayItem} (h : Shifting s₀ s B D tail)
    (hlive : s₀.arrayTable ∈ s₀.arena.live) :
    Returns (arrayShiftStep B.length) s (fun r s' =>
      match r with
      | .inl next => ∃ d D', D = d :: D' ∧ next = ((B ++ [d]).length : ℤ) ∧
          Shifting s₀ s' (B ++ [d]) D' tail
      | .inr _ => D = [] ∧ s' = s) := by
  obtain ⟨junk, hslots⟩ := h.slots
  have hlive' : s.arrayTable ∈ s.arena.live := by
    rw [h.arrayTable, h.arena]
    exact hlive
  cases D with
  | nil =>
      have hnot : ¬ ((B.length : ℤ) < s.arrayIndex - 1) := by
        rw [h.index]
        simp
      simp only [arrayShiftStep, indexOf, returns_bind, returns_get,
        returns_pure, hnot, reduceIte]
      exact ⟨trivial, trivial⟩
  | cons d D' =>
      have hlt : (B.length : ℤ) < s.arrayIndex - 1 := by
        rw [h.index]
        simp only [List.length_cons]
        omega
      have hread : s.slots[B.length + 1]? = some d.item := by
        rw [hslots]
        simp
      have hinside : B.length < s.slots.length := by
        rw [hslots]
        simp
      have hnext : (B.length : ℤ) + 1 = (B.length + 1 : ℕ) := by
        push_cast
        ring
      simp only [arrayShiftStep, indexOf, returns_bind, Fallible.returns_get,
        returns_pure, hlt, reduceIte]
      rw [hnext, returns_readSlot hlive' hread,
        returns_writeSlot hlive' hinside]
      refine ⟨d, D', rfl, by simp, h.arrayTable, h.arena, ?_, d.item, ?_⟩
      · rw [withSlot_arrayIndex, h.index]
        simp only [List.length_append, List.length_cons, List.length_nil]
        push_cast
        ring
      · rw [withSlot_slots, hslots]
        simp

theorem Shifting.returns_loop {s₀ : KvsArray} {D : List Binding}
    {tail : List KvsArrayItem} (h : Shifting s₀ s B D tail)
    (hlive : s₀.arrayTable ∈ s₀.arena.live) {fuel : ℕ}
    (hfuel : D.length < fuel) :
    Returns (iterate arrayShiftStep fuel B.length) s (fun _ s' =>
      Shifting s₀ s' (B ++ D) [] tail) := by
  refine iterate_returns
    (fun k j s₁ => ∃ B' D', B' ++ D' = B ++ D ∧ j = (B'.length : ℤ) ∧
      D'.length ≤ k ∧ Shifting s₀ s₁ B' D' tail)
    ?_ (k := D.length) ⟨B, D, rfl, rfl, le_refl _, h⟩ hfuel
  rintro k j s₁ ⟨B', D', heq, rfl, hk, hshift⟩
  apply (hshift.returns_step hlive).mono
  intro r s' hr
  cases r with
  | inl next =>
      obtain ⟨d, E, rfl, rfl, hshift'⟩ := hr
      simp only [List.length_cons] at hk
      exact ⟨k - 1, by omega, B' ++ [d], E, by simpa using heq, rfl,
        by omega, hshift'⟩
  | inr answer =>
      obtain ⟨rfl, rfl⟩ := hr
      rw [← heq]
      simpa using hshift

theorem ArrayRep.returns_del (h : ArrayRep s L rest) (key : CString) :
    Returns (arrayDel (some key)) s (fun ret s' =>
      (ret = -1 ∧ s' = s ∧ ∀ b ∈ L, b.text ≠ key) ∨
      (ret = 0 ∧ ∃ B b C, L = B ++ b :: C ∧ b.text = key ∧
        ArrayRep s' (B ++ C) rest ∧
        s.arena.Turnover [] b.blocks s'.arena)) := by
  simp only [arrayDel, returns_bind]
  apply (h.returns_exist key).mono
  rintro i s₁ ⟨rfl, hfound⟩
  cases hfound with
  | absent hL =>
      simp only [reduceIte, returns_pure]
      exact Or.inl ⟨trivial, trivial, hL⟩
  | @found B C b hL hb =>
      subst hL
      have hi : (B.length : ℤ) ≠ -1 := by omega
      simp only [hi, reduceIte, returns_bind]
      rw [h.returns_itemAt]
      have howns : s₁.arena.Owns (b.key.addr :: b.value.addr ::
          s₁.arrayTable :: (B ++ C).flatMap Binding.blocks) rest := by
        apply h.owns.perm
        rw [List.perm_iff_count]
        intro x
        simp only [List.flatMap_append, List.flatMap_cons, Binding.blocks,
          List.count_cons, List.count_append, List.count_nil]
        ring
      apply (returns_freeText_array howns).mono
      rintro _ s₂ ⟨hsame₂, howns₂, hturn₂⟩
      have hlive₂ : s₂.arrayTable ∈ s₂.arena.live := by
        rw [hsame₂.arrayTable]
        exact howns₂.live (by simp)
      have hslot₂ : s₂.slots[B.length]? = some b.item := by
        rw [hsame₂.slots]
        exact h.slot
      rw [returns_readSlot hlive₂ hslot₂]
      apply (returns_freeText_array howns₂).mono
      rintro _ s₃ ⟨hsame₃, howns₃, hturn₃⟩
      have hlive₃ : s₃.arrayTable ∈ s₃.arena.live := by
        rw [hsame₃.arrayTable, hsame₂.arrayTable]
        exact howns₃.live (by simp)
      have hslot₃ : s₃.slots[B.length]? = some b.item := by
        rw [hsame₃.slots]
        exact hslot₂
      have hinside : B.length < s₃.slots.length :=
        (List.getElem?_eq_some_iff.mp hslot₃).1
      rw [returns_updateItem hlive₃ hslot₃,
        returns_updateItem (by exact hlive₃) (slot_withSlot hinside _),
        withSlot_withSlot]
      obtain ⟨tail, htail⟩ := h.slots_split
      have hshift : Shifting s₃ (withSlot B.length ⟨none, none⟩ s₃) B C tail :=
        { arrayTable := rfl
          arena := rfl
          index := by
            rw [withSlot_arrayIndex, hsame₃.arrayIndex, hsame₂.arrayIndex,
              h.index]
            simp only [List.length_append, List.length_cons]
            push_cast
            ring
          slots := ⟨⟨none, none⟩, by
            simp [hsame₃.slots, hsame₂.slots, htail]⟩ }
      simp only [loopFuel, indexOf, setIndex, returns_bind,
        Fallible.returns_get, returns_pure, returns_modify]
      apply (hshift.returns_loop hlive₃ ?_).mono
      · intro _ s₄ hdone
        obtain ⟨junk, hslots⟩ := hdone.slots
        have hold := h.length
        refine Or.inr ⟨trivial, B, b, C, rfl, hb,
          ⟨?_, ?_, ⟨junk :: tail, ?_⟩, ?_⟩, ?_⟩
        · rw [htail] at hold
          rw [withIndex_slots, hslots]
          simp only [List.length_append, List.length_map, List.length_cons,
            List.map_append, List.map_nil, List.nil_append] at hold ⊢
          omega
        · rw [withIndex_arrayIndex, hdone.index]
          simp
        · rw [withIndex_slots, hslots]
          simp
        · rw [withIndex_arrayTable, withIndex_arena, hdone.arrayTable,
            hdone.arena, hsame₃.arrayTable, hsame₂.arrayTable]
          exact howns₃
        · rw [withIndex_arena, hdone.arena]
          exact hturn₂.trans hturn₃
      · rw [withSlot_arrayIndex, hsame₃.arrayIndex, hsame₂.arrayIndex,
          h.index]
        simp only [List.length_append, List.length_cons]
        omega

end Update

/-! ## The abstract machine -/

/-- A finite map together with the order in which its keys came in. -/
structure OrderedDict where
  order : List CString
  map : StringMap

def OrderedDict.empty : OrderedDict := ⟨[], ∅⟩

/-- A map with room for `KVS_ARRAY_SIZE` keys.  A full one refuses every
update. -/
def arraySpec : Call → OrderedDict →
    Reply CString × OrderedDict
  | .set k v, m =>
      if m.map.keys.card = kvsArraySize then (.code (-1), m)
      else (.code 0, ⟨if k ∈ m.map then m.order else m.order ++ [k],
        m.map.insert k v⟩)
  | .get k, m => (.text (m.map.lookup k), m)
  | .del k, m =>
      if k ∈ m.map then (.code 0, ⟨m.order.erase k, m.map.erase k⟩)
      else (.code (-1), m)
  | .exist k, m => (.code (if k ∈ m.map then m.order.idxOf k else -1), m)
  | .count, m => (.code m.map.keys.card, m)

structure ArrayHolds (rest : List Addr) (s : KvsArray) (m : OrderedDict) :
    Prop where
  table : ∃ L, ArrayRep s L rest ∧ m.order = L.map Binding.text ∧
    Abstracts Binding.text Binding.content L m.map

section Calls

variable {s : KvsArray} {m : OrderedDict} {rest : List Addr}
  {L B C : List Binding} {b : Binding} {A : Allocator}

theorem text_notMem_before
    (habs : Abstracts Binding.text Binding.content (B ++ b :: C) m.map) :
    b.text ∉ B.map Binding.text := by
  have hnodup := habs.nodup
  rw [List.map_append, List.map_cons, List.nodup_middle,
    List.nodup_cons] at hnodup
  intro hmem
  exact hnodup.1 (List.mem_append_left _ hmem)

theorem ArrayHolds.returns_set (h : ArrayHolds rest s m) (hA : A.Succeeds)
    (k v : CString) :
    Returns (arraySet A (some k) (some v)) s (fun ret s' =>
      .code ret = (arraySpec (.set k v) m).1 ∧
        ArrayHolds rest s' (arraySpec (.set k v) m).2) := by
  obtain ⟨L, hrep, horder, habs⟩ := h.table
  have hcard := habs.card
  apply (hrep.returns_set A k v).mono
  intro ret s' hstored
  cases hstored with
  | full hfull =>
      simp only [arraySpec, hcard, hfull, reduceIte]
      exact ⟨trivial, h⟩
  | @replaced _ B C b _ hL hkey hrep' _ hroom =>
      subst hL hkey
      have hk : b.text ∈ m.map := habs.mem_of_mem (by simp)
      simp only [arraySpec, hcard, hroom, reduceIte]
      refine ⟨trivial, _, hrep', ?_, habs.replace rfl rfl⟩
      rw [horder, if_pos hk]
      simp [Binding.text]
  | @appended _ kp vp habsent hrep' _ hroom =>
      have hk := habs.notMem habsent
      simp only [arraySpec, hcard, hroom, reduceIte, hk]
      refine ⟨trivial, _, hrep', ?_, ?_⟩
      · simp [horder, Binding.text]
      · have hinsert := habs.insert (x := Binding.mk ⟨kp, k⟩ ⟨vp, v⟩)
          habsent rfl
        exact hinsert.perm (List.perm_append_singleton _ L).symm
  | refused hnot _ => exact absurd hA hnot

theorem ArrayHolds.returns_get (h : ArrayHolds rest s m) (k : CString) :
    Returns (arrayGet (some k)) s (fun ret s' =>
      s' = s ∧ ret.map CharBlock.str = m.map.lookup k) := by
  obtain ⟨L, hrep, -, habs⟩ := h.table
  apply (hrep.returns_get k).mono
  intro p s₁ hs₁
  obtain ⟨rfl, ⟨b, hb, rfl, rfl⟩ | ⟨habsent, rfl⟩⟩ := hs₁
  · exact ⟨rfl, (habs.lookup b hb).symm⟩
  · exact ⟨rfl, (habs.lookup_eq_none habsent).symm⟩

theorem ArrayHolds.returns_exist (h : ArrayHolds rest s m) (k : CString) :
    Returns (arrayExist k) s (fun i s' => s' = s ∧
      i = if k ∈ m.map then (m.order.idxOf k : ℤ) else -1) := by
  obtain ⟨L, hrep, horder, habs⟩ := h.table
  apply (hrep.returns_exist k).mono
  rintro i s₁ ⟨rfl, hfound⟩
  cases hfound with
  | absent hL => simp [habs.notMem hL]
  | @found B C b hL hb =>
      subst hL hb
      have hmem : b.text ∈ m.map := habs.mem_of_mem (by simp)
      have hindex : m.order.idxOf b.text = B.length := by
        rw [horder, List.map_append, List.map_cons,
          List.idxOf_append_of_notMem (text_notMem_before habs),
          List.idxOf_cons_self]
        simp
      simp [hmem, hindex]

theorem ArrayHolds.returns_del (h : ArrayHolds rest s m) (k : CString) :
    Returns (arrayDel (some k)) s (fun ret s' =>
      .code ret = (arraySpec (.del k) m).1 ∧
        ArrayHolds rest s' (arraySpec (.del k) m).2) := by
  obtain ⟨L, hrep, horder, habs⟩ := h.table
  apply (hrep.returns_del k).mono
  rintro ret s' (⟨rfl, rfl, hL⟩ | ⟨rfl, B, b, C, rfl, rfl, hrep', -⟩)
  · simp only [arraySpec, habs.notMem hL, reduceIte]
    exact ⟨trivial, h⟩
  · have hmem : b.text ∈ m.map := habs.mem_of_mem (by simp)
    simp only [arraySpec, hmem, reduceIte]
    refine ⟨trivial, _, hrep', ?_, habs.erase⟩
    rw [horder, List.map_append, List.map_cons,
      List.erase_append_right _ (text_notMem_before habs),
      List.erase_cons_head, List.map_append]

theorem ArrayHolds.index_eq (h : ArrayHolds rest s m) :
    s.arrayIndex = m.map.keys.card := by
  obtain ⟨L, hrep, -, habs⟩ := h.table
  rw [hrep.index, habs.card]

theorem returns_arrayCreate_or (A : Allocator) (s : KvsArray) :
    Returns (arrayCreate A) s (fun ret s' =>
      (ret = -1 ∧ ¬ A.Succeeds) ∨
      (ret = 0 ∧ ArrayRep s' [] s.arena.live)) := by
  simp only [arrayCreate, returns_bind]
  apply returns_malloc_or
  · intro hplace
    simp only [returns_modify, reduceIte, returns_pure]
    exact Or.inl ⟨trivial, not_succeeds_of_place hplace⟩
  · intro table hplace
    have hnull : table ≠ NULL := (A.place_fresh hplace).1
    simp only [returns_modify, hnull, reduceIte, returns_bind, setIndex,
      returns_pure]
    refine Or.inr ⟨trivial, ?_, ?_, ?_, ?_⟩
    · simp
    · simp
    · simp
    · exact List.Perm.refl _

theorem returns_arrayCreate (hA : A.Succeeds) (s : KvsArray) :
    Returns (arrayCreate A) s (fun ret s' =>
      ret = 0 ∧ ArrayHolds s.arena.live s' OrderedDict.empty) := by
  apply (returns_arrayCreate_or A s).mono
  intro ret s' hs'
  rcases hs' with ⟨-, hnot⟩ | ⟨hret, hrep⟩
  · exact absurd hA hnot
  · exact ⟨hret, [], hrep, rfl, abstracts_nil⟩

end Calls

/-! ## Runs -/

/-- One call of the interface, with a key and a value that are there; a
returned pointer is read as its text. -/
def arrayCall (A : Allocator) :
    Call → Exec KvsArray (Reply CString)
  | .set key value => do return .code (← arraySet A (some key) (some value))
  | .get key => do return .text ((← arrayGet (some key)).map CharBlock.str)
  | .del key => do return .code (← arrayDel (some key))
  | .exist key => do return .code (← arrayExist key)
  | .count => do return .code (← arrayCount)

/-- A whole run: the table is created, then the calls are made. -/
def arrayRun (A : Allocator) (calls : List Call) :
    Exec KvsArray (List (Reply CString)) := do
  let _ ← arrayCreate A
  runAll (arrayCall A) calls

section Runs

variable {A : Allocator} {s : KvsArray} {m : OrderedDict} {rest : List Addr}

theorem ArrayHolds.returns_call (hA : A.Succeeds) (h : ArrayHolds rest s m)
    (call : Call) :
    Returns (arrayCall A call) s (fun reply s' =>
      reply = (arraySpec call m).1 ∧
        ArrayHolds rest s' (arraySpec call m).2) := by
  cases call with
  | set key value =>
      simp only [arrayCall, returns_bind, returns_pure]
      exact h.returns_set hA key value
  | get key =>
      simp only [arrayCall, returns_bind, returns_pure]
      apply (h.returns_get key).mono
      rintro ret s' ⟨rfl, hret⟩
      exact ⟨congrArg Reply.text hret, h⟩
  | del key =>
      simp only [arrayCall, returns_bind, returns_pure]
      exact h.returns_del key
  | exist key =>
      simp only [arrayCall, returns_bind, returns_pure]
      apply (h.returns_exist key).mono
      rintro ret s' ⟨rfl, rfl⟩
      exact ⟨rfl, h⟩
  | count =>
      simp only [arrayCall, arrayCount, indexOf, returns_bind,
        Fallible.returns_get, returns_pure]
      exact ⟨congrArg Reply.code h.index_eq, h⟩

structure ValidArray (s : KvsArray) (m : OrderedDict) : Prop where
  size : s.slots.length = kvsArraySize
  indexNonneg : 0 ≤ s.arrayIndex
  indexBound : s.arrayIndex ≤ kvsArraySize
  occupied : ∀ i : ℕ, (i : ℤ) < s.arrayIndex →
    ∃ key value, s.slots[i]? = some ⟨some key, some value⟩ ∧
      m.order[i]? = some key.str ∧ m.map.lookup key.str = some value.str
  distinct : m.order.Nodup
  keys : ∀ k, k ∈ m.map ↔ k ∈ m.order
  count : s.arrayIndex = m.order.length

theorem ArrayHolds.valid (h : ArrayHolds rest s m) : ValidArray s m := by
  obtain ⟨L, hrep, horder, habs⟩ := h.table
  have hindex := hrep.index
  have hbound := hrep.bound
  refine ⟨hrep.length, by omega, by omega, ?_, ?_, ?_, ?_⟩
  · intro i hi
    have hlt : i < L.length := by omega
    obtain ⟨tail, htail⟩ := hrep.occupied
    refine ⟨L[i].key, L[i].value, ?_, ?_, habs.lookup L[i] (by simp)⟩
    · rw [← htail, List.getElem?_append_left (by simpa using hlt)]
      simp [hlt, Binding.item]
    · simp [horder, hlt, Binding.text]
  · rw [horder]
    exact habs.nodup
  · rw [horder]
    exact habs.mem
  · simp [hindex, horder]

theorem returns_arrayRun (hA : A.Succeeds) (s : KvsArray)
    (calls : List Call) :
    Returns (arrayRun A calls) s (fun replies s' =>
      replies = (specRun arraySpec calls .empty).1 ∧
        ArrayHolds s.arena.live s' (specRun arraySpec calls .empty).2) := by
  simp only [arrayRun, returns_bind]
  apply (returns_arrayCreate hA s).mono
  rintro _ s₁ ⟨-, hs₁⟩
  exact runAll_refines (fun call s m hm => hm.returns_call hA call) hs₁

/-- Every run of the interface stays inside the table, answers as the bounded
map does, and ends in a table that holds exactly this map. -/
theorem arrayRun_refines_arraySpec (A : Allocator) (hA : A.Succeeds)
    (s : KvsArray) (calls : List Call) :
    Returns (arrayRun A calls) s (fun replies s' =>
      replies = (specRun arraySpec calls .empty).1 ∧
        ValidArray s' (specRun arraySpec calls .empty).2) :=
  (returns_arrayRun hA s calls).mono (fun _ _ hs' => ⟨hs'.1, hs'.2.valid⟩)

def blankArray : KvsArray := ⟨.empty, NULL, [], 0⟩

theorem arrayRun_refines_arraySpec_sample :
    Returns (arrayRun .above sampleCalls) blankArray (fun replies s' =>
      replies = (specRun arraySpec sampleCalls .empty).1 ∧
        ValidArray s' (specRun arraySpec sampleCalls .empty).2) :=
  arrayRun_refines_arraySpec .above Allocator.above_succeeds blankArray
    sampleCalls

end Runs

end CAdvanced
