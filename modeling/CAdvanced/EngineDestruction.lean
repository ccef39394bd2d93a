import CAdvanced.EngineOwnership

/-!
# What the destruction of an engine leaves

`array_destroy` releases nothing, since its test is the wrong way round, and
`destroy_hashtable` passes over keys and values.
-/

namespace CAdvanced

open Fallible
open KeyValue

/-! ## Whole lives of an engine -/

def arrayLife (A : Allocator) (calls : List Call) :
    Exec KvsArray (List (Reply CString)) := do
  let replies ← arrayRun A calls
  arrayDestroy
  return replies

def hashLife (ch : PlainChar) (A : Allocator) (content : HashSlot → Addr)
    (calls : List Call) : Exec HashTable (List (Reply CString)) := do
  let replies ← hashRun ch A content calls
  destroyHashtable
  return replies

/-- The live blocks are those from before the engine was created. -/
def AllReleased {σ : Type} [HasArena σ] (s s' : σ) : Prop :=
  (HasArena.arena s').live.Perm (HasArena.arena s).live

section Array

variable {A : Allocator} {s : KvsArray} {m : OrderedDict} {rest : List Addr}

theorem ArrayHolds.returns_destroy (h : ArrayHolds rest s m) :
    Returns arrayDestroy s (fun _ s' => s' = s) := by
  obtain ⟨L, hrep, -⟩ := h.table
  have hnull : s.arrayTable ≠ NULL := hrep.owns.ne_null (by simp)
  simp [arrayDestroy, hnull]

theorem ArrayHolds.not_perm (h : ArrayHolds rest s m) :
    ¬ s.arena.live.Perm rest := by
  obtain ⟨L, hrep, -⟩ := h.table
  intro hperm
  have hlive := hrep.owns.length_eq
  have hrest := hperm.length_eq
  simp only [List.cons_append, List.length_cons, List.length_append] at hlive
  omega

theorem not_returns_arrayLife (hA : A.Succeeds) (s : KvsArray)
    (calls : List Call) :
    ¬ Returns (arrayLife A calls) s (fun _ s' => AllReleased s s') := by
  intro hlife
  simp only [arrayLife, returns_bind, returns_pure] at hlife
  obtain ⟨replies, s₁, -, hrun, hdestroyed⟩ :=
    (returns_arrayRun hA s calls).and hlife
  obtain ⟨_, s₂, -, rfl, hreleased⟩ := hrun.2.returns_destroy.and hdestroyed
  exact hrun.2.not_perm hreleased

end Array

section Hash

variable {ch : PlainChar} {A : Allocator} {s s' : HashTable} {m : StringMap}
  {rest : List Addr}

/-- The texts of the stored bindings are what is left. -/
theorem HashHolds.returns_destroy_iff (h : HashHolds ch rest s m) :
    Returns destroyHashtable s (fun _ s' => s'.arena.live.Perm rest) ↔
      m = ∅ := by
  obtain ⟨_, s', hrun, texts, hlength, hlive⟩ := h.returns_destroy
  have hempty : m = ∅ ↔ texts = [] := by
    rw [← List.length_eq_zero_iff, hlength, dict_eq_empty_iff]
    omega
  rw [hempty]
  constructor
  · intro hreleased
    have hperm := (hreleased.of_run hrun).length_eq
    have htexts := hlive.length_eq
    rw [List.length_append] at htexts
    apply List.eq_nil_of_length_eq_zero
    omega
  · intro htexts
    rw [htexts] at hlive
    exact ⟨_, s', hrun, hlive⟩

theorem returns_hashLife_iff (hA : A.Succeeds) (s : HashTable)
    {calls : List Call} (hplain : ∀ call ∈ calls, OnKey PlainKey call) :
    Returns (hashLife ch A (fun _ => NULL) calls) s
        (fun _ s' => AllReleased s s') ↔
      (∀ call ∈ calls, OnKey SummableKey call) ∧
        (specRun kvSpec calls ∅).2 = ∅ := by
  constructor
  · intro hlife
    simp only [hashLife, returns_bind, returns_pure] at hlife
    have hslots : ∀ call ∈ calls, OnKey (HasSlot ch) call := by
      have hrun := hlife
      simp only [hashRun, returns_bind] at hrun
      obtain ⟨ret, s₁, -, hcalls⟩ := hrun
      exact hasSlot_of_returns_calls hcalls
    obtain ⟨replies, s₁, -, hrun, hdestroyed⟩ :=
      (returns_hashRun hA s hslots).and hlife
    refine ⟨?_, hrun.2.returns_destroy_iff.mp hdestroyed⟩
    intro call hcall
    apply ((hplain call hcall).and (hslots call hcall)).mono
    intro key hkey
    exact ⟨hkey.1, (hashSlot_isSome_iff ch hkey.1).mp hkey.2⟩
  · intro hcond
    obtain ⟨hsummable, hempty⟩ := hcond
    simp only [hashLife, returns_bind, returns_pure]
    apply (returns_hashRun hA s (fun call hcall =>
      (hsummable call hcall).mono (fun _ hkey => hkey.hasSlot ch))).mono
    intro replies s₁ hs₁
    exact hs₁.2.returns_destroy_iff.mpr hempty

end Hash

/-- The array engine never gives its blocks back.  The hash engine does exactly
when no key is stored any more, given that every key could be hashed. -/
theorem engines_allReleased_iff (ch : PlainChar) (A : Allocator)
    (hA : A.Succeeds) :
    (∀ s calls,
      ¬ Returns (arrayLife A calls) s (fun _ s' => AllReleased s s')) ∧
    (∀ s calls, (∀ call ∈ calls, OnKey PlainKey call) →
      (Returns (hashLife ch A (fun _ => NULL) calls) s
          (fun _ s' => AllReleased s s') ↔
        (∀ call ∈ calls, OnKey SummableKey call) ∧
          (specRun kvSpec calls ∅).2 = ∅)) := by
  constructor
  · intro s calls
    exact not_returns_arrayLife hA s calls
  · intro s calls hplain
    exact returns_hashLife_iff hA s hplain

theorem engines_allReleased_iff_sample :
    ¬ Returns (arrayLife .above emptiedCalls) blankArray
        (fun _ s' => AllReleased blankArray s') ∧
      Returns (hashLife .signed .above (fun _ => NULL) emptiedCalls) blankHash
        (fun _ s' => AllReleased blankHash s') := by
  have hreleased :=
    engines_allReleased_iff .signed .above Allocator.above_succeeds
  constructor
  · exact hreleased.1 blankArray emptiedCalls
  · apply (hreleased.2 blankHash emptiedCalls (by decide)).mpr
    refine ⟨by decide, ?_⟩
    rfl

/-- A stored binding leaves its key and its value behind, and an array leaves
everything. -/
theorem engines_leaveBlocks :
    ¬ Returns (arrayLife .above []) blankArray
        (fun _ s' => AllReleased blankArray s') ∧
      ¬ Returns (hashLife .signed .above (fun _ => NULL)
          [.set ⟨[109], by decide⟩ ⟨[49], by decide⟩]) blankHash
        (fun _ s' => AllReleased blankHash s') := by
  constructor
  · exact not_returns_arrayLife Allocator.above_succeeds blankArray []
  · intro hreleased
    have hempty := ((returns_hashLife_iff Allocator.above_succeeds blankHash
      (by decide)).mp hreleased).2
    rw [dict_eq_empty_iff] at hempty
    revert hempty
    decide

end CAdvanced
