import CAdvanced.NtyInsertion
import CAdvanced.NtyRemoval

/-!
# The coroutine library's trees as an index

On a tree that `RB_INIT` has made empty, any sequence of calls of the functions
of `nty_tree.h` is answered as an index ordered by the keys answers it.  A loop
takes at most twice the logarithm of the number of nodes in turns.
-/

namespace CAdvanced

open Fallible
open LinkedTree
open RedBlack

inductive TreeCall (ν κ : Type)
  | insert (x : ν)
  | remove (x : ν)
  | find (k : κ)
  | nfind (k : κ)
  | min
  | max
  | next (x : ν)
  | prev (x : ν)

/-- The node that a call expects to find in the tree. -/
def TreeCall.node {ν κ : Type} : TreeCall ν κ → Option ν
  | .remove x | .next x | .prev x => some x
  | _ => none

namespace NtyTree

variable {ν κ : Type} [DecidableEq ν] [LinearOrder κ]

/-- What a call does to the elements in the order of their keys. -/
def indexSpec (key : ν → κ) : TreeCall ν κ → List ν → Option ν × List ν
  | .insert x, l => OrderedIndex.insert key x l
  | .remove x, l => (some x, l.erase x)
  | .find k, l => (OrderedIndex.find key k l, l)
  | .nfind k, l => (OrderedIndex.findFrom key k l, l)
  | .min, l => (l.head?, l)
  | .max, l => (l.getLast?, l)
  | .next x, l => (OrderedIndex.next key x l, l)
  | .prev x, l => (OrderedIndex.prev key x l, l)

/-- `cmp` compares a key with the one of a node. -/
def treeCall (fuel : ℕ) (key : ν → κ) (cmp : κ → ν → ℤ) :
    TreeCall ν κ → Exec (Heap ν) (Option ν)
  | .insert x => rbInsert fuel (fun y => cmp (key y)) x
  | .remove x => rbRemove fuel (some x)
  | .find k => rbFind fuel (cmp k)
  | .nfind k => rbNfind fuel (cmp k)
  | .min => rbMin fuel
  | .max => rbMax fuel
  | .next x => rbNext fuel (some x)
  | .prev x => rbPrev fuel (some x)

/-- `nty_coroutine_sleep_cmp` and `nty_coroutine_wait_cmp`. -/
def coroutineCmp (key : ν → κ) (k : κ) (y : ν) : ℤ :=
  if k < key y then -1 else if k = key y then 0 else 1

/-- The turns of a loop suffice for this many nodes. -/
def EnoughTurns (fuel n : ℕ) : Prop := (n + 1) ^ 2 < 2 ^ fuel

instance (fuel n : ℕ) : Decidable (EnoughTurns fuel n) :=
  inferInstanceAs (Decidable (_ < _))

/-- What a call relies on. -/
def Admits (fuel : ℕ) (call : TreeCall ν κ) (l : List ν) : Prop :=
  EnoughTurns fuel l.length ∧ ∀ x ∈ call.node, x ∈ l

instance (fuel : ℕ) (call : TreeCall ν κ) (l : List ν) :
    Decidable (Admits fuel call l) :=
  inferInstanceAs (Decidable (_ ∧ ∀ x ∈ call.node, _))

/-- The linked entries hold the elements, in the order of their keys. -/
structure Keeps (key : ν → κ) (s : Heap ν) (l : List ν) : Prop where
  holds : ∃ T, Holds s T l
  sorted : SortedBy key l

section Index

variable {key : ν → κ} {cmp : κ → ν → ℤ} {s : Heap ν} {T : Shape ν}
  {labels : List ν} {fuel : ℕ} {k : κ} {x : ν}

omit [DecidableEq ν] in
theorem compares_coroutineCmp : Compares key k (coroutineCmp key k) where
  neg := by
    intro y
    unfold coroutineCmp
    split_ifs with hlt heq
    · exact iff_of_true (by decide) hlt
    · exact iff_of_false (by decide) hlt
    · exact iff_of_false (by decide) hlt
  pos := by
    intro y
    unfold coroutineCmp
    split_ifs with hlt heq
    · exact iff_of_false (by decide) hlt.not_gt
    · exact iff_of_false (by decide) (heq ▸ lt_irrefl k)
    · exact iff_of_true (by decide)
        (lt_of_le_of_ne (not_lt.mp hlt) (Ne.symm heq))

omit [DecidableEq ν] in
theorem Holds.height_lt (h : Holds s T labels)
    (hturns : EnoughTurns fuel labels.length) : T.height < fuel := by
  obtain ⟨m, hbal⟩ := h.balanced
  have hheight := hbal.pow_height_le h.rootBlack
  rw [h.inorder] at hheight
  have hpow : 2 ^ T.height < 2 ^ fuel := lt_of_le_of_lt hheight hturns
  exact (Nat.pow_lt_pow_iff_right (by decide)).mp hpow

omit [DecidableEq ν] in
/-- `RB_EMPTY`. -/
theorem Holds.root_eq_none (h : Holds s T labels) :
    s.root = none ↔ labels = [] := by
  rw [h.repr.root, top_eq_none, ← h.inorder]
  cases T <;> simp [Shape.inorder]

omit [DecidableEq ν] in
/-- What `RB_INIT` makes. -/
theorem keeps_nil (key : ν → κ) (entry : ν → Option (Entry ν)) :
    Keeps key ⟨none, entry⟩ [] where
  holds := ⟨.leaf, ⟨rfl, trivial, List.nodup_nil⟩, rfl, ⟨0, rfl⟩, rfl⟩
  sorted := List.Pairwise.nil

theorem Keeps.returns_insert (h : Keeps key s labels)
    (hcmp : ∀ k, Compares key k (cmp k))
    (hturns : EnoughTurns fuel labels.length) :
    Returns (rbInsert fuel (fun y => cmp (key y)) x) s (fun answer s' =>
      answer = (OrderedIndex.insert key x labels).1 ∧
        Keeps key s' (OrderedIndex.insert key x labels).2) := by
  obtain ⟨T, hT⟩ := h.holds
  apply (hT.returns_rbInsert h.sorted (hcmp (key x)) (hT.height_lt hturns)).mono
  rintro answer s' ⟨hanswer, hs'⟩
  exact ⟨hanswer, hs', OrderedIndex.sortedBy_insert h.sorted⟩

/-- There is a tree for every list in the order of its keys. -/
theorem exists_keeps (hsorted : SortedBy key labels) :
    ∃ s : Heap ν, Keeps key s labels := by
  induction labels with
  | nil => exact ⟨_, keeps_nil key (fun _ => none)⟩
  | cons x l ih =>
      obtain ⟨hx, hl⟩ := List.pairwise_cons.mp hsorted
      obtain ⟨s, hs⟩ := ih hl
      have hturns : EnoughTurns ((l.length + 1) ^ 2) l.length :=
        Nat.lt_two_pow_self
      have hfree : ∀ y ∈ l, key y ≠ key x := fun y hy => (hx y hy).ne'
      have hplace : (OrderedIndex.insert key x l).2 = x :: l := by
        rw [OrderedIndex.insert_of_free hfree]
        exact OrderedIndex.orderedInsert_append (l := []) (by simp) hx
      obtain ⟨-, s', -, -, hs'⟩ := hs.returns_insert (x := x)
        (fun _ => compares_coroutineCmp) hturns
      rw [hplace] at hs'
      exact ⟨s', hs'⟩

theorem Keeps.returns_remove (h : Keeps key s labels) (hx : x ∈ labels)
    (hturns : EnoughTurns fuel labels.length) :
    Returns (rbRemove fuel (some x)) s (fun answer s' =>
      answer = some x ∧ Keeps key s' (labels.erase x)) := by
  obtain ⟨T, hT⟩ := h.holds
  apply (hT.returns_rbRemove hx (hT.height_lt hturns)).mono
  rintro answer s' ⟨hanswer, hs'⟩
  exact ⟨hanswer, hs', OrderedIndex.sortedBy_erase h.sorted⟩

omit [DecidableEq ν] in
/-- A call that only reads the tree. -/
theorem Keeps.returns_read (h : Keeps key s labels)
    (hturns : EnoughTurns fuel labels.length) {m : Exec (Heap ν) (Option ν)}
    {answer : List ν → Option ν}
    (hm : ∀ T, Represents s T → SortedBy key T.inorder → T.height < fuel →
      T.inorder = labels →
      Returns m s (fun a s' => s' = s ∧ a = answer T.inorder)) :
    Returns m s (fun a s' => a = answer labels ∧ Keeps key s' labels) := by
  obtain ⟨T, hT⟩ := h.holds
  have hsorted : SortedBy key T.inorder := by
    rw [hT.inorder]
    exact h.sorted
  apply (hm T hT.repr hsorted (hT.height_lt hturns) hT.inorder).mono
  rintro a s' ⟨rfl, rfl⟩
  rw [hT.inorder]
  exact ⟨rfl, h⟩

/-- One call. -/
theorem Keeps.returns_call (h : Keeps key s labels)
    (hcmp : ∀ k, Compares key k (cmp k)) (call : TreeCall ν κ)
    (hadmits : Admits fuel call labels) :
    Returns (treeCall fuel key cmp call) s (fun answer s' =>
      answer = (indexSpec key call labels).1 ∧
        Keeps key s' (indexSpec key call labels).2) := by
  obtain ⟨hturns, hnode⟩ := hadmits
  cases call with
  | insert x => exact h.returns_insert hcmp hturns
  | remove x => exact h.returns_remove (hnode x rfl) hturns
  | find k =>
      exact h.returns_read hturns (fun T hT hsorted hfuel _ =>
        returns_rbFind hT hsorted (hcmp k) hfuel)
  | nfind k =>
      exact h.returns_read hturns (fun T hT hsorted hfuel _ =>
        returns_rbNfind hT hsorted (hcmp k) hfuel)
  | min =>
      exact h.returns_read hturns (fun T hT _ hfuel _ =>
        returns_rbMinmax (d := .left) hT hfuel)
  | max =>
      exact h.returns_read hturns (fun T hT _ hfuel _ =>
        returns_rbMinmax (d := .right) hT hfuel)
  | next x =>
      exact h.returns_read hturns (fun T hT hsorted hfuel hlabels =>
        returns_rbNext hT hsorted (hlabels ▸ hnode x rfl) hfuel)
  | prev x =>
      exact h.returns_read hturns (fun T hT hsorted hfuel hlabels =>
        returns_rbPrev hT hsorted (hlabels ▸ hnode x rfl) hfuel)

/-- Every run of calls is answered as the index answers it, and the links hold
the elements of the index. -/
theorem treeCalls_refine_index (key : ν → κ) (cmp : κ → ν → ℤ)
    (hcmp : ∀ k, Compares key k (cmp k)) (fuel : ℕ)
    (entry : ν → Option (Entry ν)) (calls : List (TreeCall ν κ))
    (hcalls : SpecMeets (indexSpec key) (Admits fuel) calls []) :
    Returns (runAll (treeCall fuel key cmp) calls) ⟨none, entry⟩
      (fun answers s' => answers = (specRun (indexSpec key) calls []).1 ∧
        Keeps key s' (specRun (indexSpec key) calls []).2) := by
  apply runAll_simulates (R := Keeps key) (Admits fuel)
  · intro call s labels hs hadmits
    exact hs.returns_call hcmp call hadmits
  · exact keeps_nil key entry
  · exact hcalls

/-- Elements with the keys 1 to 4; the root leaves the tree, and its successor
takes its place. -/
theorem treeCalls_refine_index_sample : ∃ s', (runAll
    (treeCall 8 (fun x : ℕ => x / 10) (coroutineCmp (fun x => x / 10)))
    [.insert 20, .insert 10, .insert 30, .insert 25, .insert 40, .remove 20,
      .find 2, .nfind 2, .min, .max, .next 10, .prev 40]).run
    ⟨none, fun _ => none⟩ =
      .ok ([none, none, none, some 20, none, some 20, none, some 30, some 10,
        some 40, some 30, some 30], s') ∧
    Keeps (fun x => x / 10) s' [10, 30, 40] := by
  obtain ⟨answers, s', hrun, hanswers, hkeeps⟩ :=
    treeCalls_refine_index (fun x : ℕ => x / 10) (coroutineCmp (fun x => x / 10))
      (fun _ => compares_coroutineCmp) 8 (fun _ => none)
      [.insert 20, .insert 10, .insert 30, .insert 25, .insert 40, .remove 20,
        .find 2, .nfind 2, .min, .max, .next 10, .prev 40]
      (by decide)
  have hspec : specRun (indexSpec (fun x : ℕ => x / 10))
      [.insert 20, .insert 10, .insert 30, .insert 25, .insert 40, .remove 20,
        .find 2, .nfind 2, .min, .max, .next 10, .prev 40] [] =
      ([none, none, none, some 20, none, some 20, none, some 30, some 10,
        some 40, some 30, some 30], [10, 30, 40]) := by
    decide
  rw [hspec] at hanswers hkeeps
  rw [hanswers] at hrun
  exact ⟨s', hrun, hkeeps⟩

end Index

end NtyTree

end CAdvanced
