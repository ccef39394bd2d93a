import CAdvanced.RbtreeEngine

/-!
# The blocks of the tree engine

An update overwrites the value pointer of a node, and the releases of
`rbtree_del` stand behind a test that never holds.  The ledger counts the blocks
that are lost in this way.
-/

namespace CAdvanced

open Fallible
open KeyValue
open RedBlack
open Rbtree

/-- The blocks of the sentinel, of its key and of the nodes of a tree. -/
def treeBlocks (nil kp : Addr) (T : Shape Node) : List Addr :=
  nil :: kp :: nodeBlocks T

/-- The state between two calls, and the blocks that were lost so far. -/
structure RbtreeOwns (s : Rbtree) (m : StringMap) (lost rest : List Addr) :
    Prop where
  tree : ∃ T kp, SearchTree s T ∧ s.count = T.inorder.length ∧
    Abstracts entryText entryValue (bindings T) m ∧
    s.key s.nil = some (some ⟨kp, default⟩) ∧
    s.arena.Owns (treeBlocks s.nil kp T ++ lost) rest

/-- The live blocks are those of the tree, apart from a foreign rest. -/
def NothingLost (s : Rbtree) (rest : List Addr) : Prop :=
  ∃ T kp, SearchTree s T ∧ s.key s.nil = some (some ⟨kp, default⟩) ∧
    s.arena.Owns (treeBlocks s.nil kp T) rest ∧
    ((treeBlocks s.nil kp T).length : ℤ) = 2 + 3 * s.count

/-! ## Counting blocks -/

section Blocks

variable {s : Rbtree} {m : StringMap} {T : Shape Node}
  {lost rest : List Addr}

theorem payloadBlocks_length (entries : List Entry)
    (hvalues : ∀ e ∈ entries, ∃ v, entryValue e = some v) :
    (entries.flatMap payloadBlocks).length = 2 * entries.length := by
  induction entries with
  | nil => rfl
  | cons e entries ih =>
      have hrest := ih (fun e' he' => hvalues e' (List.mem_cons_of_mem e he'))
      obtain ⟨v, hv⟩ := hvalues e List.mem_cons_self
      obtain ⟨k, value⟩ := e
      cases value with
      | none => cases hv
      | some block =>
          rw [List.flatMap_cons, List.length_append, hrest]
          simp only [payloadBlocks, Option.map_some, Option.toList_some,
            List.length_cons, List.length_nil]
          omega

theorem treeBlocks_length (nil kp : Addr)
    (habs : Abstracts entryText entryValue (bindings T) m) :
    (treeBlocks nil kp T).length = 2 + 3 * T.inorder.length := by
  have hpayload := payloadBlocks_length (bindings T)
    (fun e he => habs.exists_val he)
  have hperm := (nodeBlocks_perm T).length_eq
  rw [List.length_append, addrs, List.length_map, hpayload,
    bindings_length] at hperm
  simp only [treeBlocks, List.length_cons, hperm]
  omega

theorem NothingLost.length (h : NothingLost s rest) :
    (s.arena.live.length : ℤ) = 2 + 3 * s.count + rest.length := by
  obtain ⟨T, kp, -, -, howns, hlength⟩ := h
  have hlive := howns.length_eq
  rw [List.length_append] at hlive
  omega

/-- Only a state that lost nothing has its live blocks in the tree. -/
theorem RbtreeOwns.nothingLost_iff (h : RbtreeOwns s m lost rest) :
    NothingLost s rest ↔ lost = [] := by
  obtain ⟨T, kp, htree, hcount, habs, hkey, howns⟩ := h.tree
  have hlength := treeBlocks_length s.nil kp habs
  constructor
  · intro hexact
    have hlive := howns.length_eq
    have hlive' := hexact.length
    simp only [List.length_append] at hlive
    apply List.eq_nil_of_length_eq_zero
    omega
  · rintro rfl
    refine ⟨T, kp, htree, hkey, by simpa using howns, ?_⟩
    rw [hlength, hcount]
    push_cast
    ring

end Blocks

/-! ## Calls -/

/-- The call neither updates nor deletes a binding. -/
def LeavesStored : Call → StringMap → Prop
  | .set key _, m => key ∉ m
  | .del key, m => key ∉ m
  | _, _ => True

instance : ∀ call m, Decidable (LeavesStored call m)
  | .set _ _, _ => inferInstanceAs (Decidable (¬ _))
  | .del _, _ => inferInstanceAs (Decidable (¬ _))
  | .get _, _ | .exist _, _ | .count, _ => isTrue trivial

section Calls

variable {s s' : Rbtree} {m : StringMap} {T : Shape Node}
  {lost rest : List Addr} {key value : CString} {kp : Addr}

theorem Created.owns (h : Created s s') : RbtreeOwns s' ∅ [] s.arena.live := by
  obtain ⟨kp, hkey, hlive⟩ := h.key
  refine ⟨.leaf, kp, h.tree, h.count, abstracts_nil, hkey, ?_⟩
  rw [Arena.Owns, hlive]
  exact List.Perm.swap _ _ _

theorem NilKept.nilKey (h : NilKept s s')
    (hkey : s.key s.nil = some (some ⟨kp, default⟩)) :
    s'.key s'.nil = some (some ⟨kp, default⟩) := by
  rw [h.nil, h.key]
  exact hkey

/-- The blocks of the tree trade places with lost ones. -/
theorem owns_of_perm {T' : Shape Node} {new old : List Addr}
    (howns : s.arena.Owns (treeBlocks s.nil kp T ++ lost) rest)
    (hnil : s'.nil = s.nil) (hlive : s'.arena.live = new ++ s.arena.live)
    (hperm : (nodeBlocks T' ++ old).Perm (new ++ nodeBlocks T)) :
    s'.arena.Owns (treeBlocks s'.nil kp T' ++ (old ++ lost)) rest := by
  rw [Arena.Owns, hlive, hnil, List.perm_iff_count]
  intro a
  have hcount := howns.count_eq a
  have hcount' := hperm.count_eq a
  simp only [treeBlocks, List.count_append, List.count_cons] at hcount hcount' ⊢
  omega

theorem RbtreeOwns.returns_set {A : Allocator} (hA : A.Succeeds)
    (h : RbtreeOwns s m lost rest) (key value : CString) :
    Returns (rbtreeSet A key value) s (fun _ s' => ∃ old,
      RbtreeOwns s' (m.insert key value) (old ++ lost) rest ∧
        (old = [] ↔ key ∉ m)) := by
  obtain ⟨T, kp, htree, hcount, habs, hkey, howns⟩ := h.tree
  apply (htree.returns_set A key value).mono
  intro ret s' hset
  obtain ⟨-, T', new, old, htree', hcount', habs', hlive, hperm, hold, hnil⟩ :=
    hset.stored hA hcount habs
  exact ⟨old, ⟨T', kp, htree', hcount', habs', hnil.nilKey hkey,
    owns_of_perm howns hnil.nil hlive hperm⟩, hold⟩

theorem RbtreeOwns.returns_del (h : RbtreeOwns s m lost rest)
    (key : CString) :
    Returns (rbtreeDel key) s (fun _ s' => ∃ old,
      RbtreeOwns s' (if key ∈ m then m.erase key else m) (old ++ lost) rest ∧
        (old = [] ↔ key ∉ m)) := by
  obtain ⟨T, kp, htree, hcount, habs, hkey, howns⟩ := h.tree
  apply (htree.returns_del key).mono
  intro ret s' hdel
  rcases hdel.erased hcount habs with ⟨hnot, -, rfl⟩ | ⟨hmem, -, hstored⟩
  · rw [if_neg hnot]
    exact ⟨[], h, by simp [hnot]⟩
  · obtain ⟨T', p, k, v, htree', hcount', habs', harena, hperm, hnil⟩ :=
      hstored
    have hlive : s'.arena.live = [] ++ s.arena.live := by
      rw [harena]
      rfl
    rw [if_pos hmem]
    exact ⟨[p, k, v], ⟨T', kp, htree', hcount', habs', hnil.nilKey hkey,
      owns_of_perm howns hnil.nil hlive hperm⟩, by simp [hmem]⟩

theorem RbtreeOwns.holds (h : RbtreeOwns s m lost rest) : RbtreeHolds s m := by
  obtain ⟨T, kp, htree, hcount, habs, -⟩ := h.tree
  exact ⟨T, htree, hcount, habs⟩

/-- A call adds to the lost blocks exactly when it replaces or deletes a
binding. -/
theorem RbtreeOwns.returns_call {A : Allocator} (hA : A.Succeeds)
    (h : RbtreeOwns s m lost rest) (call : Call) :
    Returns (rbtreeCall A call) s (fun _ s' => ∃ old,
      RbtreeOwns s' (kvSpec call m).2 (old ++ lost) rest ∧
        (old = [] ↔ LeavesStored call m)) := by
  have hread : ∃ old : List Addr, RbtreeOwns s m (old ++ lost) rest ∧
      (old = [] ↔ True) := ⟨[], h, by simp⟩
  cases call with
  | set key value =>
      simp only [rbtreeCall, returns_bind, returns_pure]
      exact h.returns_set hA key value
  | get key =>
      simp only [rbtreeCall, returns_bind, returns_pure]
      apply (h.holds.returns_get key).mono
      intro ret s' hget
      obtain ⟨rfl, -⟩ := hget
      exact hread
  | del key =>
      simp only [rbtreeCall, returns_bind, returns_pure]
      apply (h.returns_del key).mono
      intro ret s' hdel
      by_cases hkey : key ∈ m
      · simpa [kvSpec, hkey, LeavesStored] using hdel
      · simpa [kvSpec, hkey, LeavesStored] using hdel
  | exist key =>
      simp only [rbtreeCall, returns_bind, returns_pure]
      apply (h.holds.returns_exist key).mono
      intro ret s' hexist
      obtain ⟨rfl, -⟩ := hexist
      exact hread
  | count =>
      simp only [rbtreeCall, rbtreeCount, returns_bind, Fallible.returns_get,
        returns_pure]
      exact hread

end Calls

/-! ## Runs -/

/-- A run ends with exactly the tree's blocks live if and only if it neither
updates nor deletes a stored key. -/
theorem rbtreeRun_nothingLost_iff (A : Allocator) (hA : A.Succeeds)
    (s : Rbtree) (calls : List Call) :
    Returns (rbtreeRun A calls) s (fun _ s' => NothingLost s' s.arena.live) ↔
      SpecMeets kvSpec LeavesStored calls ∅ := by
  have hrun : Returns (rbtreeRun A calls) s (fun _ s' =>
      NothingLost s' s.arena.live ↔ SpecMeets kvSpec LeavesStored calls ∅) := by
    simp only [rbtreeRun, returns_bind]
    apply (returns_rbtreeCreate hA s).mono
    intro _ s₁ hcreated
    apply (runAll_unchanged_iff (k := 0)
      (R := fun s' m k => ∃ lost, RbtreeOwns s' m lost s.arena.live ∧
        lost.length = k) LeavesStored ?_ ⟨[], hcreated.2.owns, rfl⟩).mono
    · intro replies s' hend
      obtain ⟨k, ⟨lost, howns, hlength⟩, -, hiff⟩ := hend
      rw [howns.nothingLost_iff, ← hiff, ← hlength, List.length_eq_zero_iff]
    · intro call s m k hR
      obtain ⟨lost, howns, rfl⟩ := hR
      apply (howns.returns_call hA call).mono
      intro reply s' hs'
      obtain ⟨old, howns', hiff⟩ := hs'
      refine ⟨_, ⟨_, howns', rfl⟩, by simp, ?_⟩
      rw [← hiff, List.length_append, Nat.add_eq_right,
        List.length_eq_zero_iff]
  constructor
  · intro hlost
    obtain ⟨replies, s', hs', hiff⟩ := hrun
    exact hiff.mp (hlost.of_run hs')
  · intro hmeets
    exact hrun.mono (fun _ _ hiff => hiff.mpr hmeets)

theorem rbtreeRun_nothingLost_iff_sample :
    Returns (rbtreeRun .above freshCalls) blankRbtree
      (fun _ s' => NothingLost s' blankRbtree.arena.live) := by
  apply (rbtreeRun_nothingLost_iff .above Allocator.above_succeeds blankRbtree
    freshCalls).mpr
  refine ⟨?_, ?_, ?_, trivial⟩
  · decide
  · decide
  · decide

/-- The live blocks that an evaluated run leaves are too many. -/
theorem not_nothingLost {α : Type} {m : Exec Rbtree α} {s : Rbtree}
    {rest : List Addr} {n k : ℤ}
    (hrun : (m.run s).toOption.map
      (fun p => ((p.2.arena.live.length : ℤ), p.2.count)) = some (n, k))
    (hne : n ≠ 2 + 3 * k + rest.length) :
    ¬ Returns m s (fun _ s' => NothingLost s' rest) := by
  intro hexact
  obtain ⟨a, s', hend, hlost⟩ := hexact
  rw [hend] at hrun
  cases hrun
  exact hne hlost.length

/-- An update leaves one block behind, and a deletion three. -/
theorem rbtreeRun_losesBlocks :
    ¬ Returns (rbtreeRun .above
        [.set ⟨[109], by decide⟩ ⟨[49], by decide⟩,
          .set ⟨[109], by decide⟩ ⟨[50], by decide⟩]) blankRbtree
        (fun _ s' => NothingLost s' blankRbtree.arena.live) ∧
      ¬ Returns (rbtreeRun .above
        [.set ⟨[109], by decide⟩ ⟨[49], by decide⟩,
          .del ⟨[109], by decide⟩]) blankRbtree
        (fun _ s' => NothingLost s' blankRbtree.arena.live) := by
  constructor
  · apply not_nothingLost (n := 6) (k := 1)
    · decide +kernel
    · decide
  · apply not_nothingLost (n := 5) (k := 0)
    · decide +kernel
    · decide

end CAdvanced
