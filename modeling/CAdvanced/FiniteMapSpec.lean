import CAdvanced.FallibleExecution
import Mathlib.Data.Finmap

/-!
# Key-value stores as finite maps

A store keeps its entries in some list-like structure.  `Abstracts` relates the
entries, in any order, to the finite map they stand for; `kvSpec` is the
abstract machine that a store of unbounded capacity implements.
-/

namespace KeyValue

variable {κ β ν : Type} [DecidableEq κ]

abbrev Dict (κ β : Type) := Finmap (fun _ : κ => β)

theorem dict_eq_empty_iff {m : Dict κ β} : m = ∅ ↔ m.keys.card = 0 := by
  constructor
  · rintro rfl
    rfl
  · intro hcard
    have hkeys := Finset.card_eq_zero.mp hcard
    apply Finmap.ext_lookup
    intro k
    rw [Finmap.lookup_empty, Finmap.lookup_eq_none, ← Finmap.mem_keys, hkeys]
    exact Finset.notMem_empty k

/-- The entries have distinct keys and bind exactly what the map binds; in
particular every entry has a value. -/
structure Abstracts (key : ν → κ) (val : ν → Option β) (entries : List ν)
    (m : Dict κ β) : Prop where
  nodup : (entries.map key).Nodup
  lookup : ∀ x ∈ entries, m.lookup (key x) = val x
  mem : ∀ k, k ∈ m ↔ k ∈ entries.map key

section Abstracts

variable {key : ν → κ} {val : ν → Option β} {entries A B : List ν}
  {m : Dict κ β} {x : ν} {b : β} {k : κ}

theorem abstracts_nil : Abstracts key val [] ∅ where
  nodup := by simp
  lookup := by simp
  mem := by simp [Finmap.notMem_empty]

theorem Abstracts.perm {entries' : List ν} (h : Abstracts key val entries m)
    (hperm : entries.Perm entries') : Abstracts key val entries' m where
  nodup := ((hperm.map key).nodup_iff).mp h.nodup
  lookup := fun x hx => h.lookup x (hperm.mem_iff.mpr hx)
  mem := fun k => (h.mem k).trans (hperm.map key).mem_iff

theorem Abstracts.lookup_eq_none (h : Abstracts key val entries m)
    (habsent : ∀ x ∈ entries, key x ≠ k) : m.lookup k = none := by
  rw [Finmap.lookup_eq_none, h.mem, List.mem_map]
  rintro ⟨x, hx, rfl⟩
  exact habsent x hx rfl

theorem Abstracts.mem_of_mem (h : Abstracts key val entries m)
    (hx : x ∈ entries) : key x ∈ m :=
  (h.mem _).mpr (List.mem_map_of_mem hx)

theorem Abstracts.notMem (h : Abstracts key val entries m)
    (habsent : ∀ x ∈ entries, key x ≠ k) : k ∉ m := by
  rw [← Finmap.lookup_eq_none]
  exact h.lookup_eq_none habsent

theorem Abstracts.exists_val (h : Abstracts key val entries m)
    (hx : x ∈ entries) : ∃ b, val x = some b := by
  obtain ⟨b, hb⟩ := Finmap.mem_iff.mp (h.mem_of_mem hx)
  exact ⟨b, (h.lookup x hx).symm.trans hb⟩

theorem Abstracts.card (h : Abstracts key val entries m) :
    m.keys.card = entries.length := by
  have hkeys : m.keys = (entries.map key).toFinset := by
    ext k
    rw [Finmap.mem_keys, h.mem, List.mem_toFinset]
  rw [hkeys, List.toFinset_card_of_nodup h.nodup, List.length_map]

theorem Abstracts.insert (h : Abstracts key val entries m)
    (habsent : ∀ y ∈ entries, key y ≠ key x) (hval : val x = some b) :
    Abstracts key val (x :: entries) (m.insert (key x) b) where
  nodup := by
    rw [List.map_cons, List.nodup_cons]
    refine ⟨?_, h.nodup⟩
    rw [List.mem_map]
    rintro ⟨y, hy, heq⟩
    exact habsent y hy heq
  lookup := by
    intro y hy
    rcases List.mem_cons.mp hy with rfl | hy
    · rw [Finmap.lookup_insert, hval]
    · rw [Finmap.lookup_insert_of_ne _ (habsent y hy), h.lookup y hy]
  mem := by
    intro k
    rw [Finmap.mem_insert, h.mem, List.map_cons, List.mem_cons]

theorem Abstracts.replace {x' : ν} (h : Abstracts key val (A ++ x :: B) m)
    (hkey : key x' = key x) (hval : val x' = some b) :
    Abstracts key val (A ++ x' :: B) (m.insert (key x) b) where
  nodup := by simpa [hkey] using h.nodup
  lookup := by
    intro y hy
    have hnodup := h.nodup
    rw [List.map_append, List.map_cons, List.nodup_middle,
      List.nodup_cons] at hnodup
    have hother : y ∈ A ++ B → key y ≠ key x := by
      intro hmem heq
      apply hnodup.1
      rw [← heq, ← List.map_append]
      exact List.mem_map_of_mem hmem
    rcases List.mem_append.mp hy with hy | hy
    · rw [Finmap.lookup_insert_of_ne _ (hother (by simp [hy])),
        h.lookup y (by simp [hy])]
    · rcases List.mem_cons.mp hy with rfl | hy
      · rw [hkey, Finmap.lookup_insert, hval]
      · rw [Finmap.lookup_insert_of_ne _ (hother (by simp [hy])),
          h.lookup y (by simp [hy])]
  mem := by
    intro k
    have hx : key x ∈ m := h.mem_of_mem (by simp)
    rw [Finmap.mem_insert, List.map_append, List.map_cons, hkey]
    rw [← List.map_cons, ← List.map_append, ← h.mem]
    constructor
    · rintro (rfl | hk)
      · exact hx
      · exact hk
    · exact Or.inr

theorem Abstracts.erase (h : Abstracts key val (A ++ x :: B) m) :
    Abstracts key val (A ++ B) (m.erase (key x)) := by
  have hnodup := h.nodup
  rw [List.map_append, List.map_cons, List.nodup_middle, List.nodup_cons,
    ← List.map_append] at hnodup
  refine ⟨hnodup.2, ?_, ?_⟩
  · intro y hy
    have hne : key y ≠ key x := by
      intro heq
      exact hnodup.1 (heq ▸ List.mem_map_of_mem hy)
    have hmem : y ∈ A ++ x :: B := by
      simp only [List.mem_append, List.mem_cons] at hy ⊢
      tauto
    rw [Finmap.lookup_erase_ne hne, h.lookup y hmem]
  · intro k
    rw [Finmap.mem_erase, h.mem]
    constructor
    · rintro ⟨hne, hk⟩
      simp only [List.map_append, List.map_cons, List.mem_append,
        List.mem_cons] at hk ⊢
      tauto
    · intro hk
      refine ⟨?_, ?_⟩
      · rintro rfl
        exact hnodup.1 hk
      · simp only [List.map_append, List.map_cons, List.mem_append,
          List.mem_cons] at hk ⊢
        tauto

end Abstracts

/-! ## The abstract machine -/

inductive Request (κ β : Type)
  | set (key : κ) (value : β)
  | get (key : κ)
  | del (key : κ)
  | exist (key : κ)
  | count
  deriving DecidableEq

/-- A return code, or the text behind a returned pointer. -/
inductive Reply (β : Type)
  | code (ret : ℤ)
  | text (value : Option β)
  deriving DecidableEq

/-- A store without a capacity: `-1` reports an absent key. -/
def kvSpec : Request κ β → Dict κ β → Reply β × Dict κ β
  | .set k v, m => (.code 0, m.insert k v)
  | .get k, m => (.text (m.lookup k), m)
  | .del k, m =>
      if k ∈ m then (.code 0, m.erase k) else (.code (-1), m)
  | .exist k, m => (.code (if k ∈ m then 0 else -1), m)
  | .count, m => (.code m.keys.card, m)

end KeyValue
