import CAdvanced.HashEngine

/-!
# Destroying a hash table

`destroy_hashtable` drains one chain after the other and then releases the slot
array.  It passes over the keys and values of the nodes.
-/

namespace CAdvanced

open Fallible
open KeyValue
open HashTable

/-- A table while it is drained; the text blocks count as foreign. -/
structure Draining (s : HashTable) (chains : HashSlot → List HashNode)
    (rest : List Addr) : Prop where
  heads : ∀ i, s.slots i = headAddr (chains i)
  linked : ∀ i, Linked s (chains i)
  maxSlots : s.maxSlots = maxTableSize
  owns : s.arena.Owns (s.nodes :: (gather chains).map HashNode.addr) rest

def HashNode.texts (x : HashNode) : List Addr := [x.key.addr, x.value.addr]

theorem HashRep.draining {ch : PlainChar} {s : HashTable}
    {chains : HashSlot → List HashNode} {rest : List Addr}
    (h : HashRep ch s chains rest) :
    Draining s chains ((gather chains).flatMap HashNode.texts ++ rest) := by
  refine ⟨h.heads, h.linked, h.maxSlots, h.owns.trans ?_⟩
  rw [← List.append_assoc]
  apply List.Perm.append_right
  generalize gather chains = nodes
  rw [List.perm_iff_count]
  intro a
  induction nodes with
  | nil => simp
  | cons x nodes ih =>
      simp only [List.flatMap_cons, List.map_cons, HashNode.blocks,
        HashNode.texts, List.cons_append, List.count_cons, List.count_append,
        List.nil_append] at ih ⊢
      omega

section Drain

variable {s : HashTable} {chains : HashSlot → List HashNode}
  {rest : List Addr} {i : HashSlot} {x : HashNode} {C : List HashNode}

theorem Draining.returns_chainStep (h : Draining s chains rest)
    (hchain : chains i = C) :
    Returns (destroyChainStep i.val (headAddr C)) s (fun r s' =>
      match r with
      | .inl next => ∃ x D, C = x :: D ∧ next = headAddr D ∧
          Draining s' (Function.update chains i D) rest
      | .inr _ => C = [] ∧ s' = s) := by
  cases C with
  | nil =>
      simp only [destroyChainStep, headAddr, ne_eq, not_true_eq_false,
        reduceIte, returns_pure]
      exact ⟨trivial, trivial⟩
  | cons x D =>
      have hlinked := h.linked i
      rw [hchain] at hlinked
      have hnext := hlinked.1.next
      have hperm := (gather_perm chains i).map HashNode.addr
      rw [hchain] at hperm
      have howns : s.arena.Owns (x.addr :: s.nodes ::
          (D ++ gatherOthers chains i).map HashNode.addr) rest :=
        h.owns.perm ((hperm.cons _).trans (List.Perm.swap _ _ _))
      have hnull := howns.ne_null (a := x.addr) (by simp)
      have hlive := howns.live (a := x.addr) (by simp)
      have hnodes := howns.live (a := s.nodes) (by simp)
      have hnodup := (List.nodup_cons.mp howns.nodup).1
      simp only [List.mem_cons, not_or, List.map_append,
        List.mem_append] at hnodup
      simp only [destroyChainStep, headAddr, ne_eq, hnull, not_false_eq_true,
        reduceIte, returns_bind, nextOf, returns_load, hnext,
        Option.some.injEq, exists_eq_left', returns_setHead hnodes, freeNode]
      apply returns_free hnull hlive
      simp only [returns_modify, returns_pure]
      have hfields : ∀ a, a ≠ x.addr → ∀ r, SameFields s
          (HashTable.forget x.addr (HasArena.withArena r
            (withSlots (Function.update s.slots i (headAddr D)) s))) a := by
        intro a ha r
        constructor <;> simp [HashTable.forget, HasArena.withArena, ha]
      refine ⟨x, D, rfl, rfl, heads_update h.heads rfl,
        linked_update h.linked ?_ ?_, h.maxSlots, ?_⟩
      · intro j hj y hy
        apply hfields
        intro heq
        apply hnodup.2.2
        rw [← heq]
        exact List.mem_map_of_mem (mem_gatherOthers.mpr ⟨j, hj, hy⟩)
      · apply hlinked.2.frame
        intro y hy
        apply hfields
        intro heq
        apply hnodup.2.1
        rw [← heq]
        exact List.mem_map_of_mem hy
      · apply howns.release.perm
        exact ((gather_update_perm chains i D).symm.map _).cons _

theorem Draining.returns_chain (h : Draining s chains rest)
    (i : HashSlot) :
    Returns (destroyChain i.val) s (fun _ s' =>
      Draining s' (Function.update chains i []) rest) := by
  have hnodes : s.nodes ∈ s.arena.live := h.owns.live (by simp)
  have hlength : (chains i).length ≤ s.arena.live.length := by
    have hperm := gather_perm chains i
    have hlive := h.owns.length_eq
    simp only [List.length_cons, List.length_append, List.length_map] at hlive
    rw [hperm.length_eq, List.length_append] at hlive
    omega
  simp only [destroyChain, loopFuel, headOf, returns_bind,
    Fallible.returns_get, returns_pure, returns_slotOf hnodes, h.heads i]
  refine iterate_returns
    (fun n node s₁ => ∃ C, node = headAddr C ∧ C.length ≤ n ∧
      Draining s₁ (Function.update chains i C) rest)
    ?_ (k := (chains i).length)
    ⟨chains i, rfl, le_refl _, by rwa [Function.update_eq_self]⟩
    (Nat.lt_succ_of_le hlength)
  intro n node s₁ hinv
  obtain ⟨C, rfl, hn, hdrain⟩ := hinv
  apply (hdrain.returns_chainStep (Function.update_self i C chains)).mono
  intro r s₂ hr
  cases r with
  | inl next =>
      obtain ⟨x, D, rfl, rfl, hdrain'⟩ := hr
      rw [Function.update_idem] at hdrain'
      simp only [List.length_cons] at hn
      exact ⟨n - 1, by omega, D, rfl, by omega, hdrain'⟩
  | inr answer =>
      obtain ⟨rfl, rfl⟩ := hr
      exact hdrain

theorem Draining.returns_destroy (h : Draining s chains rest) :
    Returns destroyHashtable s (fun _ s' => s'.arena.live.Perm rest) := by
  simp only [destroyHashtable, returns_bind, Fallible.returns_get]
  apply (iterate_returns
    (fun n (idx : ℤ) s₁ => ∃ j : ℕ, idx = j ∧ j + n = maxTableSize ∧
      ∃ chains', Draining s₁ chains' rest ∧
        ∀ i : HashSlot, i.val < j → chains' i = [])
    (Q := fun _ s₁ => ∃ chains', Draining s₁ chains' rest ∧
      ∀ i, chains' i = [])
    ?_ (k := maxTableSize)
    ⟨0, by simp, by simp, chains, h, fun i hi => absurd hi (by omega)⟩
    (by rw [h.maxSlots]; simp)).mono
  · intro _ s₁ hs₁
    obtain ⟨chains', hdrain, hempty⟩ := hs₁
    have hgather : gather chains' = [] := by
      rw [List.eq_nil_iff_forall_not_mem]
      intro x hx
      obtain ⟨i, hi⟩ := mem_gather.mp hx
      rw [hempty i] at hi
      cases hi
    have howns := hdrain.owns
    rw [hgather] at howns
    apply returns_free
    · exact howns.ne_null (by simp)
    · exact howns.live (by simp)
    · exact howns.release
  · intro n idx s₁ hinv
    obtain ⟨j, rfl, hj, chains', hdrain, hempty⟩ := hinv
    simp only [destroySlotStep, returns_bind, Fallible.returns_get,
      hdrain.maxSlots]
    by_cases hlt : j < maxTableSize
    · have hltInt : (j : ℤ) < (maxTableSize : ℤ) := by exact_mod_cast hlt
      simp only [hltInt, reduceIte, returns_bind]
      apply (hdrain.returns_chain ⟨j, hlt⟩).mono
      intro _ s₂ hdrain₂
      rw [returns_pure]
      refine ⟨n - 1, by omega, j + 1, by push_cast; ring, by omega, _,
        hdrain₂, ?_⟩
      intro i hi
      by_cases hij : i = ⟨j, hlt⟩
      · subst hij
        simp
      · rw [Function.update_of_ne hij]
        apply hempty i
        have hne : i.val ≠ j := fun heq => hij (Fin.ext heq)
        omega
    · have hnot : ¬ (j : ℤ) < (maxTableSize : ℤ) := by exact_mod_cast hlt
      simp only [hnot, reduceIte, returns_pure]
      refine ⟨chains', hdrain, ?_⟩
      intro i
      apply hempty i
      have := i.isLt
      omega

end Drain

end CAdvanced
