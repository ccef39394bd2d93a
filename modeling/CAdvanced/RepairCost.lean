import CAdvanced.RbtreeEngine

/-!
# The cost of the repairs

An insertion turns its repair loop at most half as often as the tree is high
and makes at most two rotations in it, a deletion at most as often as the tree
is high with at most three rotations.
-/

namespace CAdvanced

open Fallible
open RedBlack
open Rbtree

section Cost

variable {s : Rbtree} {T : Shape Node}

/-- The metered program returns what the other one does, within the given
numbers of turns and rotations. -/
def CostsAtMost {α : Type} (m : Exec Metered α) (m' : Exec Rbtree α)
    (s : Rbtree) (turns rotations : ℕ) : Prop :=
  Returns m (.start s) (fun a c =>
    (c.turns ≤ turns ∧ c.rotations ≤ rotations) ∧
      Returns m' s (fun a' s' => a' = a ∧ s' = c.tree))

theorem Metered.Within.counts {c : Metered} {turns rotations : ℕ}
    (h : (Metered.start s).Within turns rotations c) :
    c.turns ≤ turns ∧ c.rotations ≤ rotations :=
  ⟨h.turns.trans (Nat.zero_add turns).le,
    h.rotations.trans (Nat.zero_add rotations).le⟩

theorem SearchTree.set_cost (h : SearchTree s T) (A : Allocator)
    (key value : CString) :
    CostsAtMost (Metered.rbtreeSet A key value) (rbtreeSet A key value) s
      ((T.height + 1) / 2) 2 := by
  have hstart : SearchTree (Metered.start s).tree T := h
  apply (rbtreeSet_mirrors A key value).returns_both
  apply (hstart.returns_meteredSet A key value).mono
  intro ret c hset
  exact hset.2.counts

theorem SearchTree.del_cost (h : SearchTree s T) (key : CString) :
    CostsAtMost (Metered.rbtreeDel key) (rbtreeDel key) s T.height 3 := by
  have hstart : SearchTree (Metered.start s).tree T := h
  apply (rbtreeDel_mirrors key).returns_both
  apply (hstart.returns_meteredDel key).mono
  intro ret c hdel
  exact hdel.2.counts

theorem CostsAtMost.mono {α : Type} {m : Exec Metered α} {m' : Exec Rbtree α}
    {turns turns' rotations : ℕ} (h : CostsAtMost m m' s turns rotations)
    (hturns : turns ≤ turns') : CostsAtMost m m' s turns' rotations := by
  apply Returns.mono h
  intro a c hc
  exact ⟨⟨hc.1.1.trans hturns, hc.1.2⟩, hc.2⟩

end Cost

/-- In every tree that is reached, of whatever height, every `rbtree_set` and
every `rbtree_del` comes to the end of its repair loop within these bounds. -/
theorem repairs_bounded {s : Rbtree}
    (h : CallsReach rbtreeCreate rbtreeCall s) :
    ∃ T, EngineTree s T ∧
      (∀ A key value, CostsAtMost (Metered.rbtreeSet A key value)
        (rbtreeSet A key value) s (T.height / 2 + 1) 2) ∧
      ∀ key, CostsAtMost (Metered.rbtreeDel key) (rbtreeDel key) s
        (T.height + 1) 3 := by
  obtain ⟨T, hT⟩ := h.engineTree
  refine ⟨T, hT, ?_, ?_⟩
  · intro A key value
    apply (hT.tree.set_cost A key value).mono
    omega
  · intro key
    exact (hT.tree.del_cost key).mono (Nat.le_succ _)

theorem repairs_bounded_sample : ∃ s z,
    CallsReach rbtreeCreate rbtreeCall s ∧ TwoChildRoot s z ∧
      ∃ T, EngineTree s T ∧
        (∀ A key value, CostsAtMost (Metered.rbtreeSet A key value)
          (rbtreeSet A key value) s (T.height / 2 + 1) 2) ∧
        ∀ key, CostsAtMost (Metered.rbtreeDel key) (rbtreeDel key) s
          (T.height + 1) 3 := by
  obtain ⟨s, z, hreach, hz⟩ := exists_twoChildRoot
  exact ⟨s, z, hreach, hz, repairs_bounded hreach⟩

end CAdvanced
