import CAdvanced.ArrayEngine

/-!
# The slots behind the occupied ones

`array_del` moves the tail of the table up and leaves the last slot as it was.
Two tables that differ only at or behind `array_index` cannot be told apart by
any call, and a call leaves them alike.
-/

namespace CAdvanced

open Fallible
open KeyValue
open KvsArray

/-- The two tables differ at most at or behind `array_index`. -/
structure SameButStale (s t : KvsArray) : Prop where
  arena : t.arena = s.arena
  arrayTable : t.arrayTable = s.arrayTable
  arrayIndex : t.arrayIndex = s.arrayIndex
  length : t.slots.length = s.slots.length
  slots : ∀ i : ℕ, (i : ℤ) < s.arrayIndex → t.slots[i]? = s.slots[i]?

/-- The slot at `i` is an occupied one. -/
structure AlikeAt (i : ℤ) (s t : KvsArray) : Prop where
  alike : SameButStale s t
  occupied : i < s.arrayIndex

theorem sharesArena_sameButStale : SharesArena SameButStale where
  same := fun h => h.arena
  exchange := fun _ h =>
    ⟨rfl, h.arrayTable, h.arrayIndex, h.length, h.slots⟩

theorem sharesArena_alikeAt (i : ℤ) : SharesArena (AlikeAt i) where
  same := fun h => h.alike.arena
  exchange := fun r h =>
    ⟨sharesArena_sameButStale.exchange r h.alike, h.occupied⟩

section Access

variable {s t : KvsArray} {α : Type} {R : KvsArray → KvsArray → Prop}
  {i : ℤ}

theorem SameButStale.indexOf_bind (h : SameButStale s t)
    {f : ℤ → Exec KvsArray α}
    (hf : SameOutcome R ((f s.arrayIndex).run s)
      ((f s.arrayIndex).run t)) :
    SameOutcome R ((indexOf >>= f).run s) ((indexOf >>= f).run t) := by
  change SameOutcome R ((f s.arrayIndex).run s) ((f t.arrayIndex).run t)
  rwa [h.arrayIndex]

theorem SameButStale.loopFuel_bind (h : SameButStale s t)
    {f : ℕ → Exec KvsArray α}
    (hf : ∀ fuel, SameOutcome R ((f fuel).run s) ((f fuel).run t)) :
    SameOutcome R ((loopFuel >>= f).run s) ((loopFuel >>= f).run t) := by
  change SameOutcome R ((f (s.arrayIndex.toNat + 1)).run s)
    ((f (t.arrayIndex.toNat + 1)).run t)
  rw [h.arrayIndex]
  exact hf _

theorem AlikeAt.itemAt (h : AlikeAt i s t) :
    SameOutcome (AlikeAt i) ((itemAt i).run s) ((itemAt i).run t) := by
  have hi := h.occupied
  unfold KvsArray.itemAt
  apply sameOutcome_get_bind
  rw [h.alike.arrayTable, h.alike.arena]
  split
  · exact sameOutcome_throw _ _ _ s t
  · split
    · exact sameOutcome_throw _ _ _ s t
    · rw [h.alike.slots i.toNat (by omega)]
      split
      · exact sameOutcome_pure _ h
      · exact sameOutcome_throw _ _ _ s t

theorem AlikeAt.withSlot (h : AlikeAt i s t) (j : ℕ) (item : KvsArrayItem) :
    AlikeAt i (withSlot j item s) (withSlot j item t) where
  occupied := h.occupied
  alike :=
    { arena := h.alike.arena
      arrayTable := h.alike.arrayTable
      arrayIndex := h.alike.arrayIndex
      length := by simpa using h.alike.length
      slots := by
        intro k hk
        simp only [withSlot_slots, List.getElem?_set, h.alike.length]
        rw [h.alike.slots k hk] }

theorem AlikeAt.setItem (h : AlikeAt i s t) (j : ℤ) (item : KvsArrayItem) :
    SameOutcome (AlikeAt i) ((setItem j item).run s)
      ((setItem j item).run t) := by
  unfold KvsArray.setItem
  apply sameOutcome_get_bind
  rw [h.alike.arrayTable, h.alike.arena, h.alike.length]
  split
  · exact sameOutcome_throw _ _ _ s t
  · split
    · exact sameOutcome_throw _ _ _ s t
    · exact sameOutcome_modify (h.withSlot j.toNat item)

theorem AlikeAt.updateItem (h : AlikeAt i s t)
    (f : KvsArrayItem → KvsArrayItem) :
    SameOutcome (AlikeAt i) ((updateItem i f).run s)
      ((updateItem i f).run t) := by
  apply h.itemAt.bind
  intro item s' t' _ h'
  exact h'.setItem i (f item)

end Access

/-! ## Lookup -/

section Lookup

variable {s t : KvsArray}

theorem SameButStale.exist (h : SameButStale s t) (key : CString) :
    SameOutcome SameButStale ((arrayExist key).run s)
      ((arrayExist key).run t) := by
  apply h.loopFuel_bind
  intro fuel
  apply sameOutcome_iterate _ h
  intro i s t h
  apply h.indexOf_bind
  split_ifs with hi
  · apply (AlikeAt.mk h hi).itemAt.bind
    intro item s' t' _ h'
    cases item.key with
    | none => exact sameOutcome_throw _ _ _ s' t'
    | some block =>
        dsimp only
        split_ifs
        · exact sameOutcome_pure _ h'.alike
        · exact sameOutcome_pure _ h'.alike
  · exact sameOutcome_pure _ h

theorem yields_itemAt (i : ℤ) (s : KvsArray) :
    Yields (itemAt i) s (fun _ s' => s' = s) := by
  unfold itemAt
  apply yields_bind
  apply yields_get
  split
  · exact yields_throw _ s _
  · split
    · exact yields_throw _ s _
    · split
      · exact yields_pure rfl
      · exact yields_throw _ s _

/-- The search finds an occupied slot or none. -/
theorem yields_arrayExist (key : CString) (s : KvsArray) :
    Yields (arrayExist key) s (fun i s' =>
      s' = s ∧ (i ≠ -1 → i < s.arrayIndex)) := by
  unfold arrayExist loopFuel
  apply yields_bind
  intro fuel s₁ hrun
  cases hrun
  refine yields_iterate (fun _ s' => s' = s) ?_ rfl
  intro i s' hs'
  subst hs'
  unfold arrayExistStep indexOf
  apply yields_bind
  intro index s₁ hrun
  cases hrun
  split_ifs with hi
  · apply yields_bind
    refine (yields_itemAt i s').mono ?_
    intro item s₁ hs₁
    subst hs₁
    cases item.key with
    | none => exact yields_throw _ _ _
    | some block =>
        dsimp only
        split_ifs
        · exact yields_pure ⟨rfl, fun _ => hi⟩
        · exact yields_pure rfl
  · exact yields_pure ⟨rfl, fun hne => absurd rfl hne⟩

/-- What follows a search may rely on the slot that was found. -/
theorem SameButStale.exist_bind {α : Type} (h : SameButStale s t)
    (key : CString) {f : ℤ → Exec KvsArray α}
    (hmissing : ∀ t', SameButStale s t' →
      SameOutcome SameButStale ((f (-1)).run s) ((f (-1)).run t'))
    (hfound : ∀ i t', i ≠ -1 → AlikeAt i s t' →
      SameOutcome SameButStale ((f i).run s) ((f i).run t')) :
    SameOutcome SameButStale ((arrayExist key >>= f).run s)
      ((arrayExist key >>= f).run t) := by
  apply (h.exist key).bind
  intro i s' t' hrun h'
  obtain ⟨rfl, hi⟩ := yields_arrayExist key s i s' hrun
  by_cases hne : i = -1
  · subst hne
    exact hmissing t' h'
  · exact hfound i t' hne ⟨h', hi hne⟩

theorem SameButStale.get (h : SameButStale s t) (key : Option CString) :
    SameOutcome SameButStale ((arrayGet key).run s)
      ((arrayGet key).run t) := by
  cases key with
  | none => exact sameOutcome_pure _ h
  | some key =>
      apply h.exist_bind key
      · intro t' h'
        exact sameOutcome_pure _ h'
      · intro i t' hne h'
        rw [if_neg hne]
        apply h'.itemAt.bind
        intro item s₁ t₁ _ h₁
        exact sameOutcome_pure _ h₁.alike

end Lookup

/-! ## Updates -/

section Update

variable {s t : KvsArray}

theorem SameButStale.mod (h : SameButStale s t) (A : Allocator)
    (key : Option CString) (value : CString) :
    SameOutcome SameButStale ((arrayMod A key value).run s)
      ((arrayMod A key value).run t) := by
  cases key with
  | none => exact sameOutcome_pure _ h
  | some key =>
      apply h.exist_bind key
      · intro t' h'
        exact sameOutcome_pure _ h'
      · intro i t' hne h'
        rw [if_neg hne]
        apply h'.itemAt.bind
        intro item s₁ t₁ _ h₁
        apply ((sharesArena_alikeAt i).copyText A value h₁).bind
        intro p s₂ t₂ _ h₂
        cases p with
        | none => exact sameOutcome_pure _ h₂.alike
        | some vcopy =>
            apply (h₂.updateItem _).bind
            intro _ s₃ t₃ _ h₃
            apply ((sharesArena_alikeAt i).freeText item.value h₃).bind
            intro _ s₄ t₄ _ h₄
            exact sameOutcome_pure _ h₄.alike

/-- The end of `array_set`: both fields of the slot at `array_index` are
written. -/
def fillSlot (k v : CharBlock) (i : ℤ) : Exec KvsArray ℤ := do
  updateItem i (fun item => { item with key := some k })
  updateItem i (fun item => { item with value := some v })
  setIndex (i + 1)
  return 0

theorem returns_fillSlot {i : ℕ} (hlive : s.arrayTable ∈ s.arena.live)
    (hi : i < s.slots.length) (k v : CharBlock) :
    Returns (fillSlot k v i) s (fun ret s' => ret = 0 ∧
      s' = withIndex (i + 1) (withSlot i ⟨some k, some v⟩ s)) := by
  unfold fillSlot
  rw [returns_bind, returns_updateItem hlive (List.getElem?_eq_getElem hi),
    returns_bind, returns_updateItem (by exact hlive) (slot_withSlot hi _),
    withSlot_withSlot]
  simp only [setIndex, returns_bind, returns_modify, returns_pure]
  exact ⟨trivial, trivial⟩

theorem not_returns_updateItem {i : ℤ}
    (hnot : ¬ (s.arrayTable ∈ s.arena.live ∧ 0 ≤ i ∧
      i.toNat < s.slots.length)) (f : KvsArrayItem → KvsArrayItem)
    (Q : Unit → KvsArray → Prop) : ¬ Returns (updateItem i f) s Q := by
  intro hrun
  simp only [updateItem, itemAt, returns_bind, Fallible.returns_get] at hrun
  split at hrun
  next hdead => simp at hrun
  next hlive =>
    split at hrun
    next hneg => simp at hrun
    next hneg =>
      have hout : s.slots.length ≤ i.toNat := by
        by_contra hin
        exact hnot ⟨not_not.mp hlive, by omega, by omega⟩
      rw [List.getElem?_eq_none hout] at hrun
      simp at hrun

/-- A stale slot is overwritten without being read. -/
theorem SameButStale.fillSlot (h : SameButStale s t) (k v : CharBlock) :
    SameOutcome SameButStale ((fillSlot k v s.arrayIndex).run s)
      ((fillSlot k v s.arrayIndex).run t) := by
  by_cases hslot : s.arrayTable ∈ s.arena.live ∧ 0 ≤ s.arrayIndex ∧
      s.arrayIndex.toNat < s.slots.length
  · obtain ⟨hlive, hnonneg, hinside⟩ := hslot
    have hlive' : t.arrayTable ∈ t.arena.live := by
      rwa [h.arrayTable, h.arena]
    have hinside' : s.arrayIndex.toNat < t.slots.length := by
      rwa [h.length]
    have hindex : (s.arrayIndex.toNat : ℤ) = s.arrayIndex :=
      Int.toNat_of_nonneg hnonneg
    have hs := returns_fillSlot hlive hinside k v
    have ht := returns_fillSlot hlive' hinside' k v
    rw [hindex] at hs ht
    apply sameOutcome_of_returns hs ht
    refine ⟨h.arena, h.arrayTable, rfl, by simpa using h.length, ?_⟩
    intro j hj
    simp only [withIndex_slots, withSlot_slots, withIndex_arrayIndex,
      List.getElem?_set, h.length] at hj ⊢
    by_cases hlast : s.arrayIndex.toNat = j
    · rw [if_pos hlast, if_pos hlast]
    · rw [if_neg hlast, if_neg hlast, h.slots j (by omega)]
  · apply sameOutcome_of_fails
    · intro Q hrun
      exact not_returns_updateItem hslot _ _ ((returns_bind _ _ _ _).mp hrun)
    · intro Q hrun
      refine not_returns_updateItem ?_ _ _ ((returns_bind _ _ _ _).mp hrun)
      rwa [h.arrayTable, h.arena, h.length]

theorem SameButStale.append (h : SameButStale s t) (A : Allocator)
    (key value : CString) :
    SameOutcome SameButStale ((arrayAppend A key value).run s)
      ((arrayAppend A key value).run t) := by
  apply (sharesArena_sameButStale.copyText A key h).bind
  intro p s₁ t₁ _ h₁
  cases p with
  | none => exact sameOutcome_pure _ h₁
  | some kcopy =>
      apply (sharesArena_sameButStale.copyText A value h₁).bind
      intro p s₂ t₂ _ h₂
      cases p with
      | none =>
          apply (sharesArena_sameButStale.free kcopy.addr h₂).bind
          intro _ s₃ t₃ _ h₃
          exact sameOutcome_pure _ h₃
      | some vcopy => exact h₂.indexOf_bind (h₂.fillSlot kcopy vcopy)

theorem SameButStale.set (h : SameButStale s t) (A : Allocator)
    (key value : CString) :
    SameOutcome SameButStale
      ((arraySet A (some key) (some value)).run s)
      ((arraySet A (some key) (some value)).run t) := by
  apply h.indexOf_bind
  split_ifs
  · exact sameOutcome_pure _ h
  · apply h.exist_bind key
    · intro t' h'
      exact h'.append A key value
    · intro i t' hne h'
      rw [if_pos hne]
      apply (h'.alike.mod A (some key) value).bind
      intro _ s₁ t₁ _ h₁
      exact sameOutcome_pure _ h₁

theorem SameButStale.shift (h : SameButStale s t) (fuel : ℕ) (i : ℤ) :
    SameOutcome SameButStale ((iterate arrayShiftStep fuel i).run s)
      ((iterate arrayShiftStep fuel i).run t) := by
  apply sameOutcome_iterate _ h
  intro j s t h
  apply h.indexOf_bind
  split_ifs with hj
  · have hnext : AlikeAt (j + 1) s t := ⟨h, by omega⟩
    apply hnext.itemAt.bind
    intro item s₁ t₁ _ h₁
    apply (h₁.setItem j item).bind
    intro _ s₂ t₂ _ h₂
    exact sameOutcome_pure _ h₂.alike
  · exact sameOutcome_pure _ h

theorem SameButStale.del (h : SameButStale s t) (key : CString) :
    SameOutcome SameButStale ((arrayDel (some key)).run s)
      ((arrayDel (some key)).run t) := by
  apply h.exist_bind key
  · intro t' h'
    exact sameOutcome_pure _ h'
  · intro i t' hne h'
    rw [if_neg hne]
    apply h'.itemAt.bind
    intro item s₁ t₁ _ h₁
    apply ((sharesArena_alikeAt i).freeText item.key h₁).bind
    intro _ s₂ t₂ _ h₂
    apply h₂.itemAt.bind
    intro item' s₃ t₃ _ h₃
    apply ((sharesArena_alikeAt i).freeText item'.value h₃).bind
    intro _ s₄ t₄ _ h₄
    apply (h₄.updateItem _).bind
    intro _ s₅ t₅ _ h₅
    apply (h₅.updateItem _).bind
    intro _ s₆ t₆ _ h₆
    apply h₆.alike.loopFuel_bind
    intro fuel
    apply (h₆.alike.shift fuel i).bind
    intro _ s₇ t₇ _ h₇
    apply h₇.indexOf_bind
    -- the last slot becomes a stale one
    have hless : SameButStale (withIndex (s₇.arrayIndex - 1) s₇)
        (withIndex (s₇.arrayIndex - 1) t₇) :=
      ⟨h₇.arena, h₇.arrayTable, rfl, h₇.length, fun j hj =>
        h₇.slots j (by simp only [withIndex_arrayIndex] at hj; omega)⟩
    apply (sameOutcome_modify hless).bind
    intro _ s₈ t₈ _ h₈
    exact sameOutcome_pure _ h₈

end Update

/-! ## Calls -/

/-- No call tells the two tables apart. -/
theorem SameButStale.call {s t : KvsArray} (h : SameButStale s t)
    (A : Allocator) (call : Call) :
    SameOutcome SameButStale ((arrayCall A call).run s)
      ((arrayCall A call).run t) := by
  cases call with
  | set key value =>
      apply (h.set A key value).bind
      intro ret s' t' _ h'
      exact sameOutcome_pure _ h'
  | get key =>
      apply (h.get (some key)).bind
      intro ret s' t' _ h'
      exact sameOutcome_pure _ h'
  | del key =>
      apply (h.del key).bind
      intro ret s' t' _ h'
      exact sameOutcome_pure _ h'
  | exist key =>
      apply (h.exist key).bind
      intro ret s' t' _ h'
      exact sameOutcome_pure _ h'
  | count =>
      apply h.indexOf_bind
      exact sameOutcome_pure _ h

/-- No run of calls tells them apart either. -/
theorem SameButStale.calls {s t : KvsArray} (h : SameButStale s t)
    (A : Allocator) (calls : List Call) :
    SameOutcome SameButStale ((runAll (arrayCall A) calls).run s)
      ((runAll (arrayCall A) calls).run t) := by
  apply runAll_sameOutcome (fun _ => True) (fun _ _ => True)
  · intro call s t _ h _
    exact h.call A call
  · intro call _
    trivial
  · exact h
  · exact runMeets_of_forall (fun _ _ => trivial) calls s

end CAdvanced
