import CAdvanced.ProtocolRefinement

/-!
# The slot index

`_hash` adds the bytes of a key as `char`s and reduces the sum with the
remainder of C.  A key of a request never overflows the sum, but where `char` is
signed the remainder may be negative, and the index then lies in front of the
table.
-/

namespace CAdvanced

open Fallible
open KeyValue

def highBytes (bytes : List UInt8) : ℕ :=
  bytes.countP (fun b => 128 ≤ b.toNat)

/-- `char` is unsigned, or the bytes add up to no negative number as signed
`char`s, or to a multiple of the table size. -/
def SumInTable (ch : PlainChar) (key : CString) : Prop :=
  ch = .unsigned ∨ 256 * highBytes key.bytes ≤ byteSum key.bytes ∨
    (maxTableSize : ℤ) ∣ byteSum key.bytes - 256 * highBytes key.bytes

section Sums

variable {ch : PlainChar} {key : CString}

theorem charSum_unsigned (bytes : List UInt8) :
    charSum .unsigned bytes = byteSum bytes := by
  induction bytes with
  | nil => rfl
  | cons b rest ih =>
      simp only [charSum, byteSum, List.map_cons, List.sum_cons] at ih ⊢
      rw [ih]
      push_cast
      rfl

theorem charSum_signed (bytes : List UInt8) :
    charSum .signed bytes = byteSum bytes - 256 * highBytes bytes := by
  induction bytes with
  | nil => rfl
  | cons b rest ih =>
      simp only [charSum, byteSum, highBytes, List.map_cons, List.sum_cons,
        List.countP_cons, PlainChar.value, decide_eq_true_eq] at ih ⊢
      rw [ih]
      split_ifs
      · omega
      · push_cast
        ring
      · push_cast
        ring
      · omega

/-- The remainder of C is negative only for a negative number. -/
theorem tmod_nonneg_iff {a b : ℤ} : 0 ≤ a.tmod b ↔ 0 ≤ a ∨ b ∣ a := by
  constructor
  · intro h
    by_cases ha : 0 ≤ a
    · exact Or.inl ha
    · right
      have hneg : 0 ≤ (-a).tmod b := Int.tmod_nonneg b (by omega)
      rw [Int.neg_tmod] at hneg
      exact Int.dvd_of_tmod_eq_zero (by omega)
  · intro h
    rcases h with ha | hdvd
    · exact Int.tmod_nonneg b ha
    · rw [Int.tmod_eq_zero_of_dvd hdvd]

theorem nonnegRemainder_iff : NonnegRemainder ch key ↔ SumInTable ch key := by
  unfold NonnegRemainder SumInTable
  rw [tmod_nonneg_iff]
  cases ch with
  | unsigned =>
      rw [charSum_unsigned]
      simp
  | signed =>
      rw [charSum_signed]
      simp only [reduceCtorEq, false_or]
      apply or_congr_left
      omega

/-- The sum of a short key is an `int`. -/
theorem returns_hash_short {σ : Type} (hshort : key.bytes.length < bufferLength)
    (s : σ) (Q : ℤ → σ → Prop) :
    Returns (hash ch key maxTableSize) s Q ↔
      Q ((charSum ch key.bytes).tmod maxTableSize) s := by
  have hbuffer : bufferLength = 1024 := rfl
  have hsum : sumChars ch key.bytes 0 0 = some (charSum ch key.bytes) := by
    rw [sumChars_short ch (le_refl _) (by omega) (by omega) (by omega),
      zero_add]
  simp only [hash, hsum, returns_pure]

end Sums

/-- The index lies inside the table, and no operation leaves it. -/
structure IndexInside (ch : PlainChar) (A : Allocator) (key : CString)
    (s : HashTable) : Prop where
  index : Returns (hash ch key maxTableSize) s (fun idx s' =>
    s' = s ∧ 0 ≤ idx ∧ idx < s.maxSlots)
  get : Returns (getKvHashtable ch (some key)) s (fun _ _ => True)
  exist : Returns (kvExist ch (some key)) s (fun _ _ => True)
  delete : Returns (deleteKvHashtable ch (some key)) s (fun _ _ => True)
  put : ∀ value, ReturnsIf A.Succeeds
    (putKvHashtable ch A (some key) (some value)) s (fun _ _ => True)

/-- The index of a key that fits a request lies inside the table exactly when
the sum of its bytes has no negative remainder. -/
theorem indexInside_iff (A : Allocator) {ch : PlainChar} {s : HashTable}
    {chains : HashSlot → List HashNode} {rest : List Addr}
    (h : HashRep ch s chains rest) {key : CString}
    (hshort : key.bytes.length < bufferLength) :
    IndexInside ch A key s ↔ SumInTable ch key := by
  have hmax := h.maxSlots
  rw [← nonnegRemainder_iff]
  constructor
  · intro hinside
    have hindex := hinside.index
    rw [returns_hash_short hshort] at hindex
    exact hindex.2.1
  · intro hsum
    have hslot := (hashSlot_isSome_iff_of_short ch hshort.le).mpr hsum
    obtain ⟨i, hi⟩ := Option.isSome_iff_exists.mp hslot
    refine ⟨?_, ?_, ?_, ?_, ?_⟩
    · rw [returns_hash hi, hmax]
      have hlt := i.isLt
      exact ⟨rfl, by omega, by omega⟩
    · exact (h.returns_get hi).mono (fun _ _ _ => trivial)
    · exact (h.returns_exist hi).mono (fun _ _ _ => trivial)
    · exact (h.returns_delete hi).mono (fun _ _ _ => trivial)
    · intro value
      exact (h.returnsIf_put hi A value).mono (fun _ _ _ => trivial)

theorem hashRep_created : ∃ chains rest, ∃ s : HashTable,
    (createHashtable Allocator.above (fun _ => NULL)).run blankHash
      = .ok (0, s) ∧ HashRep .signed s chains rest := by
  obtain ⟨ret, s, hrun, rfl, hholds⟩ := returns_createHashtable_null .signed
    Allocator.above_succeeds blankHash
  obtain ⟨chains, hrep, -⟩ := hholds.table
  exact ⟨chains, _, s, hrun, hrep⟩

def mixedKey : CString := ⟨[127, 255], by decide⟩

theorem indexInside_iff_sample : ∃ s : HashTable,
    (createHashtable Allocator.above (fun _ => NULL)).run blankHash
      = .ok (0, s) ∧ IndexInside .signed .above mixedKey s := by
  obtain ⟨chains, rest, s, hrun, hrep⟩ := hashRep_created
  refine ⟨s, hrun, (indexInside_iff .above hrep (by decide)).mpr ?_⟩
  exact Or.inr (Or.inl (by decide))

/-- A single byte 255, the `char` -1. -/
def highKey : CString := ⟨[255], by decide⟩

/-- Its index is -1, and a lookup reads in front of the table. -/
theorem indexInside_highKey :
    (∀ s : HashTable, Returns (hash .signed highKey maxTableSize) s
      (fun idx _ => idx = -1)) ∧
    (∀ s Q, ¬ Returns (getKvHashtable .signed (some highKey)) s Q) ∧
    ∀ s : HashTable, ¬ IndexInside .signed .above highKey s := by
  have hindex : ∀ s : HashTable, Returns (hash .signed highKey maxTableSize) s
      (fun idx _ => idx = -1) := by
    intro s
    rw [returns_hash_short (by decide)]
    decide
  refine ⟨hindex, fun s Q => not_returns_getKvHashtable (by decide) Q, ?_⟩
  intro s hinside
  obtain ⟨idx, s', -, hs', hidx⟩ := hinside.index.and (hindex s)
  omega

end CAdvanced
