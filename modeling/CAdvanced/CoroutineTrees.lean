import CAdvanced.NtyIndex
import CAdvanced.ScheduleRuns

/-!
# The trees of the scheduler

The model of the scheduler keeps the nodes of a tree in a list.  Here the
functions of `nty_tree.h` work on linked nodes, and read the keys in the records
of the coroutines.  From every state of a run they answer whatever an action
does to a tree as the lists do.
-/

namespace CAdvanced

open Fallible
open LinkedTree
open RedBlack
open Transition

namespace Schedule

/-- What an action does to a tree: calls, and between them writes to records. -/
inductive TreeAct (κ : Type)
  | find (k : κ)
  | insert (co : Co)
  | remove (co : Co)
  | min
  | record (co : Co) (c : Option Coroutine)

/-- The linked nodes of a tree, beside the records. -/
structure LinkedNodes where
  coroutine : Co → Option Coroutine
  heap : Heap Co

namespace LinkedNodes

@[simps] def withHeap (heap : Heap Co) (t : LinkedNodes) : LinkedNodes :=
  { t with heap := heap }

@[simps] def withRecord (co : Co) (c : Option Coroutine) (t : LinkedNodes) :
    LinkedNodes :=
  { t with coroutine := Function.update t.coroutine co c }

end LinkedNodes

section Trees

variable {κ : Type} [LinearOrder κ] [Inhabited κ] (T : Tree κ)

/-- On the list of the nodes. -/
def treeAct : TreeAct κ → Exec Schedule (Option Co)
  | .find k => rbFind T k
  | .insert co => rbInsert T co
  | .remove co => do
      rbRemove T co
      return some co
  | .min => rbMin T
  | .record co c => do
      modify (withCo co c)
      return none

/-- What a node has in the field by which the tree is ordered. -/
def Tree.keyIn (coroutine : Co → Option Coroutine) (co : Co) : κ :=
  (coroutine co).elim default T.key

def Tree.call (fuel : ℕ) (call : TreeCall Co κ) :
    Exec LinkedNodes (Option Co) := do
  let key := T.keyIn (← get).coroutine
  within LinkedNodes.heap LinkedNodes.withHeap
    (NtyTree.treeCall fuel key (NtyTree.coroutineCmp key) call)

/-- On the linked nodes. -/
def linkedAct (fuel : ℕ) : TreeAct κ → Exec LinkedNodes (Option Co)
  | .find k => T.call fuel (.find k)
  | .insert co => T.call fuel (.insert co)
  | .remove co => T.call fuel (.remove co)
  | .min => T.call fuel .min
  | .record co c => do
      modify (LinkedNodes.withRecord co c)
      return none

/-- What a call relies on; a write leaves the keys of the nodes as they are. -/
def Tree.Allows (s : Schedule) : TreeAct κ → Prop
  | .find _ | .min => True
  | .insert co => (s.coroutine co).isSome
  | .remove co => co ∈ T.nodes s
  | .record co c => co ∈ T.nodes s → c.map T.key = some (T.keyOf s co)

instance (s : Schedule) : ∀ act, Decidable (T.Allows s act)
  | .find _ | .min => inferInstanceAs (Decidable True)
  | .insert co => inferInstanceAs (Decidable ((s.coroutine co).isSome = true))
  | .remove co => inferInstanceAs (Decidable (co ∈ T.nodes s))
  | .record co c => inferInstanceAs
      (Decidable (co ∈ T.nodes s → c.map T.key = some (T.keyOf s co)))

def Tree.Admits (fuel : ℕ) (act : TreeAct κ) (s : Schedule) : Prop :=
  NtyTree.EnoughTurns fuel (T.nodes s).length ∧ T.Allows s act

instance (fuel : ℕ) (act : TreeAct κ) (s : Schedule) :
    Decidable (T.Admits fuel act s) :=
  inferInstanceAs (Decidable (_ ∧ _))

/-- The list and the links have the same nodes, in the order of their keys. -/
structure Tree.HeldBy (s : Schedule) (t : LinkedNodes) : Prop where
  records : t.coroutine = s.coroutine
  linked : s.Linked (T.nodes s)
  keeps : NtyTree.Keeps (T.keyOf s) t.heap (T.nodes s)

/-- The nodes have a field of their own. -/
structure Tree.Lawful : Prop where
  nodes_withNodes : ∀ l s, T.nodes (T.withNodes l s) = l
  coroutine_withNodes : ∀ l s, (T.withNodes l s).coroutine = s.coroutine
  nodes_withCo : ∀ co c s, T.nodes (withCo co c s) = T.nodes s

end Trees

theorem sleepTree_lawful : sleepTree.Lawful :=
  ⟨fun _ _ => rfl, fun _ _ => rfl, fun _ _ _ => rfl⟩

theorem waitTree_lawful : waitTree.Lawful :=
  ⟨fun _ _ => rfl, fun _ _ => rfl, fun _ _ _ => rfl⟩

section Acts

variable {κ : Type} [LinearOrder κ] [Inhabited κ] {T : Tree κ} {s : Schedule}
  {t : LinkedNodes} {co : Co} {c : Option Coroutine} {fuel : ℕ}

theorem Tree.HeldBy.keyIn_eq (h : T.HeldBy s t) :
    T.keyIn t.coroutine = T.keyOf s := by
  rw [h.records]
  rfl

/-- A call on the linked nodes. -/
theorem Tree.HeldBy.returns_call (h : T.HeldBy s t) {call : TreeCall Co κ}
    (hadmits : NtyTree.Admits fuel call (T.nodes s)) :
    Returns (T.call fuel call) t (fun answer t' =>
      answer = (NtyTree.indexSpec (T.keyOf s) call (T.nodes s)).1 ∧
      t'.coroutine = s.coroutine ∧ NtyTree.Keeps (T.keyOf s) t'.heap
        (NtyTree.indexSpec (T.keyOf s) call (T.nodes s)).2) := by
  simp only [Tree.call, returns_bind, Fallible.returns_get, returns_within,
    h.keyIn_eq]
  apply (h.keeps.returns_call (fun _ => NtyTree.compares_coroutineCmp) call
    hadmits).mono
  rintro answer heap ⟨hanswer, hkeeps⟩
  exact ⟨hanswer, h.records, hkeeps⟩

/-- The tree after a call has other nodes, all of them live. -/
theorem Tree.HeldBy.withNodes (hT : T.Lawful) {l : List Co}
    (hrecords : t.coroutine = s.coroutine) (hlinked : s.Linked l)
    (hkeeps : NtyTree.Keeps (T.keyOf s) t.heap l) :
    T.HeldBy (T.withNodes l s) t := by
  have hcoroutine := hT.coroutine_withNodes l s
  have hkeys : T.keyOf (T.withNodes l s) = T.keyOf s := by
    funext x
    simp only [Tree.keyOf, hcoroutine]
  refine ⟨hrecords.trans hcoroutine.symm, ?_, ?_⟩
  · rw [hT.nodes_withNodes]
    intro x hx
    rw [hcoroutine]
    exact hlinked x hx
  · rw [hT.nodes_withNodes, hkeys]
    exact hkeeps

/-- A record is written. -/
theorem Tree.HeldBy.withRecord (hT : T.Lawful) (h : T.HeldBy s t)
    (hkey : co ∈ T.nodes s → c.map T.key = some (T.keyOf s co)) :
    T.HeldBy (withCo co c s) (t.withRecord co c) := by
  have hnodes := hT.nodes_withCo co c s
  have hkeys : ∀ x ∈ T.nodes s, T.keyOf (withCo co c s) x = T.keyOf s x := by
    intro x hx
    by_cases hne : x = co
    · subst hne
      obtain ⟨c', rfl, hc'⟩ := Option.map_eq_some_iff.mp (hkey hx)
      rw [keyOf_of_some T (Function.update_self _ _ _), hc']
    · exact keyOf_withCo_of_ne T hne c
  refine ⟨?_, ?_, ?_⟩
  · change Function.update t.coroutine co c = Function.update s.coroutine co c
    rw [h.records]
  · rw [hnodes]
    intro x hx
    by_cases hne : x = co
    · subst hne
      obtain ⟨c', rfl, -⟩ := Option.map_eq_some_iff.mp (hkey hx)
      rw [withCo_coroutine, Function.update_self]
      rfl
    · rw [withCo_coroutine, Function.update_of_ne hne]
      exact h.linked x hx
  · rw [hnodes]
    exact ⟨h.keeps.holds, OrderedIndex.sortedBy_of_keys hkeys h.keeps.sorted⟩

omit [Inhabited κ] in
theorem linked_insert {key : Co → κ} {l : List Co} (h : s.Linked l)
    (hco : (s.coroutine co).isSome) :
    s.Linked (OrderedIndex.insert key co l).2 := by
  intro x hx
  unfold OrderedIndex.insert at hx
  split at hx
  next => exact h x hx
  next =>
    rcases (List.mem_orderedInsert _).mp hx with rfl | hx
    · exact hco
    · exact h x hx

/-- One act: the lists and the links answer the same. -/
theorem Tree.HeldBy.follows (hT : T.Lawful) (h : T.HeldBy s t)
    (act : TreeAct κ) (hadmits : T.Admits fuel act s) :
    Returns (treeAct T act) s (fun answer s' =>
      Returns (linkedAct T fuel act) t (fun answer' t' =>
        answer' = answer ∧ T.HeldBy s' t')) := by
  obtain ⟨hturns, hallows⟩ := hadmits
  cases act with
  | find k =>
      simp only [treeAct, rbFind, returns_bind, returns_traverse, h.linked,
        Fallible.returns_get, returns_pure, true_and, linkedAct]
      apply (h.returns_call ⟨hturns, by rintro x ⟨⟩⟩).mono
      rintro answer t' ⟨hanswer, hrecords, hkeeps⟩
      exact ⟨hanswer, hrecords, h.linked, hkeeps⟩
  | insert co =>
      obtain ⟨c, hc⟩ := Option.isSome_iff_exists.mp hallows
      simp only [treeAct, rbInsert, returns_bind, returns_traverse, h.linked,
        returns_deref, hc, Option.some.injEq, exists_eq_left',
        Fallible.returns_get, Fallible.returns_modify, returns_pure, true_and,
        linkedAct]
      apply (h.returns_call ⟨hturns, by rintro x ⟨⟩⟩).mono
      rintro answer t' ⟨hanswer, hrecords, hkeeps⟩
      exact ⟨hanswer, .withNodes hT hrecords (linked_insert h.linked hallows)
        hkeeps⟩
  | remove co =>
      have hmem : co ∈ T.nodes s := hallows
      simp only [treeAct, rbRemove, returns_bind, returns_traverse, h.linked,
        hmem, reduceIte, Fallible.returns_modify, returns_pure, true_and,
        linkedAct]
      apply (h.returns_call ⟨hturns, by rintro x ⟨⟩; exact hmem⟩).mono
      rintro answer t' ⟨hanswer, hrecords, hkeeps⟩
      have hlinked : s.Linked ((T.nodes s).erase co) :=
        fun x hx => h.linked x (List.mem_of_mem_erase hx)
      exact ⟨hanswer, .withNodes hT hrecords hlinked hkeeps⟩
  | min =>
      simp only [treeAct, rbMin, returns_bind, returns_traverse, h.linked,
        returns_pure, true_and, linkedAct]
      apply (h.returns_call ⟨hturns, by rintro x ⟨⟩⟩).mono
      rintro answer t' ⟨hanswer, hrecords, hkeeps⟩
      exact ⟨hanswer, hrecords, h.linked, hkeeps⟩
  | record co c =>
      simp only [treeAct, linkedAct, returns_bind, Fallible.returns_modify,
        returns_pure, true_and]
      exact h.withRecord hT hallows

/-! ## In a run of the scheduler -/

/-- Whatever is done to the tree from a state on, the linked nodes answer as the
list, and they are the same nodes at the end. -/
structure Tree.IsLinked (T : Tree κ) (s : Schedule) : Prop where
  exists_heap : ∃ heap shape, NtyTree.Holds heap shape (T.nodes s)
  follows : ∀ (heap : Heap Co) (shape : Shape Co) (fuel : ℕ)
    (acts : List (TreeAct κ)), NtyTree.Holds heap shape (T.nodes s) →
    RunMeets (treeAct T) (T.Admits fuel) acts s →
    Returns (runAll (treeAct T) acts) s (fun answers s' =>
      Returns (runAll (linkedAct T fuel) acts) ⟨s.coroutine, heap⟩
        (fun answers' t => answers' = answers ∧ t.coroutine = s'.coroutine ∧
          (∃ shape', NtyTree.Holds t.heap shape' (T.nodes s')) ∧
          (t.heap.root = none ↔ T.nodes s' = [])))

theorem isLinked_of_sorted (hT : T.Lawful) (hlinked : s.Linked (T.nodes s))
    (hsorted : SortedBy (T.keyOf s) (T.nodes s)) : T.IsLinked s where
  exists_heap := by
    obtain ⟨heap, ⟨shape, hshape⟩, -⟩ := NtyTree.exists_keeps hsorted
    exact ⟨heap, shape, hshape⟩
  follows := by
    intro heap shape fuel acts hheap hacts
    have hheld : T.HeldBy s ⟨s.coroutine, heap⟩ :=
      ⟨rfl, hlinked, ⟨shape, hheap⟩, hsorted⟩
    apply (runAll_follows (R := T.HeldBy)
      (fun act _ _ h hadmits => h.follows hT act hadmits) hheld hacts).mono
    intro answers s' hs'
    apply hs'.mono
    rintro answers' t ⟨hanswers, ht⟩
    obtain ⟨shape', hshape⟩ := ht.keeps.holds
    exact ⟨hanswers, ht.records, ⟨shape', hshape⟩, hshape.root_eq_none⟩

/-- In every state of a run both trees can be linked nodes. -/
theorem scheduleTrees_linked (opened : Finset ℤ) : ∀ s, Runs opened s →
    sleepTree.IsLinked s ∧ waitTree.IsLinked s := by
  intro s hs
  have hinv := hs.inv
  exact ⟨isLinked_of_sorted sleepTree_lawful hinv.sleeping
      hinv.sleepers.sorted,
    isLinked_of_sorted waitTree_lawful hinv.waiting hinv.watches.sorted⟩

end Acts

/-- One coroutine sleeps until 5000; the other one enters the tree before it,
and the tree is emptied. -/
theorem scheduleTrees_linked_pair : ∃ s heap t, Runs ∅ s ∧
    s.sleeping = [0] ∧
    (runAll (linkedAct sleepTree 4) [.min, .insert 1, .min, .find 5000,
      .remove 0, .remove 1, .min]).run ⟨s.coroutine, heap⟩ =
        .ok ([some 0, none, some 1, some 0, some 0, some 1, none], t) ∧
    t.heap.root = none := by
  let actions : List Action := [.create true, .run, .turn, .expire, .ready,
    .openFd 3, .sleep 5, .create true, .poll 3 pollIn]
  let acts : List (TreeAct ℕ) := [.min, .insert 1, .min, .find 5000, .remove 0,
    .remove 1, .min]
  obtain ⟨s, hrun⟩ := Option.isSome_iff_exists.mp
    (by decide +kernel : (execute scheduleStep actions (create ∅)).isSome)
  have hs : Runs ∅ s := Reach.start.execute actions (by decide +kernel) hrun
  have hacts : ∀ u ∈ execute scheduleStep actions (create ∅),
      u.sleeping = [0] ∧
      RunMeets (treeAct sleepTree) (sleepTree.Admits 4) acts u ∧
      ((runAll (treeAct sleepTree) acts).run u).map
        (fun r => (r.1, r.2.sleeping)) =
          .ok ([some 0, none, some 1, some 0, some 0, some 1, none], []) := by
    decide +kernel
  obtain ⟨hsleeping, hmeets, hlist⟩ := hacts s hrun
  obtain ⟨⟨heap, shape, hheap⟩, hfollows⟩ := (scheduleTrees_linked ∅ s hs).1
  obtain ⟨answers, s', hrun', answers', t, ht, rfl, -, -, hroot⟩ :=
    hfollows heap shape 4 acts hheap hmeets
  rw [hrun'] at hlist
  obtain ⟨hanswers, hempty⟩ := Prod.mk.inj (Except.ok.inj hlist)
  have hsame : answers' = [some 0, none, some 1, some 0, some 0, some 1, none] :=
    hanswers
  rw [hsame] at ht
  exact ⟨s, heap, t, hs, hsleeping, ht, hroot.mpr hempty⟩

end Schedule

end CAdvanced
