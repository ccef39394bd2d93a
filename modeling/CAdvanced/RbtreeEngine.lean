import CAdvanced.StoreCalls
import CAdvanced.RbtreeCalls

/-!
# The tree engine refines a finite map

`rbtree_create` builds an empty tree, and each call of the interface keeps a
red-black search tree whose nodes are the bindings of a finite map.
-/

namespace CAdvanced

open Fallible
open KeyValue
open RedBlack
open Rbtree

def bindings (T : Shape Node) : List Entry := T.inorder.map Node.payload

structure RbtreeHolds (s : Rbtree) (m : StringMap) : Prop where
  tree : ∃ T, SearchTree s T ∧ s.count = T.inorder.length ∧
    Abstracts entryText entryValue (bindings T) m

/-! ## Creation -/

theorem Created.holds {s s' : Rbtree} (h : Created s s') : RbtreeHolds s' ∅ :=
  ⟨.leaf, h.tree, h.count, abstracts_nil⟩

/-- `rbtree_create` builds an empty tree, whatever the memory held. -/
theorem returns_rbtreeCreate {A : Allocator} (hA : A.Succeeds) (s : Rbtree) :
    Returns (rbtreeCreate A) s (fun ret s' => ret = 0 ∧ Created s s') := by
  refine returns_of_yields (P := fun _ _ => True) ?_ (yields_rbtreeCreate A s)
  simp only [rbtreeCreate, returns_bind, returns_modify]
  apply (returns_mallocNode A _).mono
  intro nil s₁ hnode
  cases hnode.1 with
  | refused hnot => exact absurd hA hnot
  | granted hnil =>
      apply (returns_mallocText A _).mono
      intro kp s₂ hkey
      cases hkey with
      | refused hnot => exact absurd hA hnot
      | granted hkp =>
          have hlive : nil ∈ s₂.arena.live :=
            (hkp.undisturbed.cells nil hnil.mem).live hnil.mem
          simp [hkp.ne_null, setKey, setColor, setRoot, isLive, hlive]

/-! ## Calls -/

section Calls

variable {s : Rbtree} {T : Shape Node} {m : StringMap} {key value : CString}

theorem bindings_length (T : Shape Node) :
    (bindings T).length = T.inorder.length := by
  simp [bindings]

theorem bindings_fill (path : Path Node) (c : Color) (l r : Shape Node)
    (x : Node) :
    bindings (fill path (.node c l x r)) =
      (Path.before path ++ l.inorder).map Node.payload ++
        x.payload :: (r.inorder ++ Path.after path).map Node.payload := by
  simp [bindings, inorder_fill, Shape.inorder]

def nodeBlocks (T : Shape Node) : List Addr := T.inorder.flatMap Node.blocks

/-- The blocks that hold a key and its value. -/
def payloadBlocks (e : Entry) : List Addr :=
  e.1.addr :: (e.2.map CharBlock.addr).toList

theorem nodeBlocks_perm (T : Shape Node) :
    (nodeBlocks T).Perm (addrs T ++ (bindings T).flatMap payloadBlocks) := by
  unfold nodeBlocks addrs bindings
  induction T.inorder with
  | nil => rfl
  | cons x nodes ih =>
      simp only [List.flatMap_cons, List.map_cons, List.cons_append]
      rw [Node.blocks, List.cons_append, List.perm_cons]
      exact (ih.append_left (payloadBlocks x.payload)).trans
        (List.perm_append_comm_assoc _ _ _)

theorem mem_iff_exists
    (habs : Abstracts entryText entryValue (bindings T) m) :
    key ∈ m ↔ ∃ x ∈ T.inorder, x.text = key := by
  rw [habs.mem, bindings, List.map_map, List.mem_map]
  rfl

theorem RbtreeHolds.returns_exist (h : RbtreeHolds s m) (key : CString) :
    Returns (rbtreeExist key) s (fun ret s' =>
      s' = s ∧ ret = if key ∈ m then 0 else -1) := by
  obtain ⟨T, htree, -, habs⟩ := h.tree
  apply (htree.returns_exist key).mono
  intro ret s' hexist
  simp only [mem_iff_exists habs]
  exact hexist

theorem RbtreeHolds.returns_get (h : RbtreeHolds s m) (key : CString) :
    Returns (rbtreeGet key) s (fun ret s' =>
      s' = s ∧ ret.map CharBlock.str = m.lookup key) := by
  obtain ⟨T, htree, -, habs⟩ := h.tree
  apply (htree.returns_get key).mono
  intro ret s' hget
  refine ⟨hget.1, ?_⟩
  cases hget.2 with
  | found hx hkey =>
      subst hkey
      exact (habs.lookup _ (List.mem_map_of_mem hx)).symm
  | absent habsent =>
      symm
      apply habs.lookup_eq_none
      intro e he
      obtain ⟨y, hy, rfl⟩ := List.mem_map.mp he
      exact habsent y hy

/-- Only a refused request keeps a pair out of the map; a new value takes the
place of the block that held the old one. -/
theorem SetOutcome.stored {A : Allocator} (hA : A.Succeeds) {s' : Rbtree}
    {ret : ℤ} (h : SetOutcome A key value s s' T ret)
    (hcount : s.count = T.inorder.length)
    (habs : Abstracts entryText entryValue (bindings T) m) :
    ret = 0 ∧ ∃ T' new old, SearchTree s' T' ∧ s'.count = T'.inorder.length ∧
      Abstracts entryText entryValue (bindings T') (m.insert key value) ∧
      s'.arena.live = new ++ s.arena.live ∧
      (nodeBlocks T' ++ old).Perm (new ++ nodeBlocks T) ∧
      (old = [] ↔ key ∉ m) ∧ NilKept s s' := by
  cases h with
  | emptied hnot => exact absurd hA hnot
  | refused hnot => exact absurd hA hnot
  | @inserted _ T' B C p kp vp habsent htree hold hnew hcount' hlive hnil =>
      have hkey : key ∉ m := by
        rw [mem_iff_exists habs]
        intro hx
        obtain ⟨x, hx, htext⟩ := hx
        exact habsent x hx htext
      refine ⟨rfl, T', [vp, kp, p], [], htree, ?_, ?_, hlive, ?_,
        by simp [hkey], hnil⟩
      · rw [hcount', hcount, hold, hnew]
        simp only [List.length_append, List.length_cons]
        omega
      · have hinsert := habs.insert (x := (⟨kp, key⟩, some ⟨vp, value⟩))
          (by
            intro e he
            obtain ⟨y, hy, rfl⟩ := List.mem_map.mp he
            exact habsent y hy) rfl
        refine hinsert.perm ?_
        rw [bindings, bindings, hold, hnew, List.map_append, List.map_append]
        exact List.perm_middle.symm
      · rw [nodeBlocks, nodeBlocks, hold, hnew, List.perm_iff_count]
        intro a
        simp only [List.flatMap_append, List.flatMap_cons, Node.blocks,
          Option.map_some, Option.toList_some, List.count_append,
          List.count_cons, List.count_nil]
        ring
  | @replaced path c l r x b hkey htree hcount' hlive hnil =>
      subst hkey
      have hmem : x.text ∈ m := by
        rw [mem_iff_exists habs]
        refine ⟨x, ?_, rfl⟩
        simp [inorder_fill, Shape.inorder]
      rw [bindings_fill] at habs
      obtain ⟨v, hv⟩ := habs.exists_val (x := x.payload) (by simp)
      obtain ⟨p, k, content⟩ := x
      cases content with
      | none => cases hv
      | some block =>
          refine ⟨rfl, _, [b], [block.addr], htree, ?_, ?_, hlive, ?_,
            by simp [hmem], hnil⟩
          · rw [hcount', hcount]
            simp [inorder_fill, Shape.inorder]
          · rw [bindings_fill]
            exact habs.replace rfl rfl
          · rw [nodeBlocks, nodeBlocks, List.perm_iff_count]
            intro a
            simp only [inorder_fill, Shape.inorder, List.flatMap_append,
              List.flatMap_cons, Node.blocks, Option.map_some,
              Option.toList_some, List.count_append, List.count_cons,
              List.count_nil]
            ring

theorem RbtreeHolds.returns_set {A : Allocator} (hA : A.Succeeds)
    (h : RbtreeHolds s m) (key value : CString) :
    Returns (rbtreeSet A key value) s (fun ret s' =>
      ret = 0 ∧ RbtreeHolds s' (m.insert key value)) := by
  obtain ⟨T, htree, hcount, habs⟩ := h.tree
  apply (htree.returns_set A key value).mono
  intro ret s' hset
  obtain ⟨hret, T', -, -, htree', hcount', habs', -⟩ :=
    hset.stored hA hcount habs
  exact ⟨hret, T', htree', hcount', habs'⟩

/-- A deletion drops the blocks of the node that leaves and of its pair. -/
theorem DelOutcome.erased {s' : Rbtree} {ret : ℤ}
    (h : DelOutcome key s s' T ret) (hcount : s.count = T.inorder.length)
    (habs : Abstracts entryText entryValue (bindings T) m) :
    (key ∉ m ∧ ret = -1 ∧ s' = s) ∨ (key ∈ m ∧ ret = 0 ∧ ∃ T' p k v,
      SearchTree s' T' ∧ s'.count = T'.inorder.length ∧
      Abstracts entryText entryValue (bindings T') (m.erase key) ∧
      s'.arena = s.arena ∧
      (nodeBlocks T' ++ [p, k, v]).Perm (nodeBlocks T) ∧ NilKept s s') := by
  cases h with
  | absent habsent heq =>
      left
      refine ⟨?_, rfl, heq⟩
      rw [mem_iff_exists habs]
      intro hx
      obtain ⟨x, hx, htext⟩ := hx
      exact habsent x hx htext
  | @removed T' z p B C hkey htree hold hnew haddrs hcount' harena hnil =>
      subst hkey
      right
      have hlength := congrArg List.length hold
      have hlength' := congrArg List.length hnew
      simp only [List.length_map, List.length_append,
        List.length_cons] at hlength hlength'
      rw [bindings, hold] at habs
      obtain ⟨content, hcontent⟩ := habs.exists_val (x := z.payload) (by simp)
      obtain ⟨a, k, value⟩ := z
      cases value with
      | none => cases hcontent
      | some block =>
          refine ⟨habs.mem_of_mem (x := (k, some block)) (by
            simp [Node.payload]), rfl, T', p, k.addr, block.addr, htree, ?_,
            ?_, harena, ?_, hnil⟩
          · rw [hcount', hcount, hlength, hlength']
            omega
          · rw [bindings, hnew]
            exact habs.erase
          · rw [List.perm_iff_count]
            intro q
            have hT := (nodeBlocks_perm T).count_eq q
            have hT' := (nodeBlocks_perm T').count_eq q
            have hp := haddrs.count_eq q
            rw [bindings, hold] at hT
            rw [bindings, hnew] at hT'
            simp only [List.flatMap_append, List.flatMap_cons, payloadBlocks,
              Node.payload, Option.map_some, Option.toList_some,
              List.count_append, List.count_cons, List.count_nil] at hT hT' hp ⊢
            omega

theorem RbtreeHolds.returns_del (h : RbtreeHolds s m) (key : CString) :
    Returns (rbtreeDel key) s (fun ret s' =>
      if key ∈ m then ret = 0 ∧ RbtreeHolds s' (m.erase key)
      else ret = -1 ∧ s' = s) := by
  obtain ⟨T, htree, hcount, habs⟩ := h.tree
  apply (htree.returns_del key).mono
  intro ret s' hdel
  rcases hdel.erased hcount habs with ⟨hkey, hret⟩ | ⟨hkey, hret, hstored⟩
  · rw [if_neg hkey]
    exact hret
  · obtain ⟨T', p, k, v, htree', hcount', habs', -⟩ := hstored
    rw [if_pos hkey]
    exact ⟨hret, T', htree', hcount', habs'⟩

theorem RbtreeHolds.count_eq (h : RbtreeHolds s m) :
    s.count = m.keys.card := by
  obtain ⟨T, -, hcount, habs⟩ := h.tree
  rw [hcount, habs.card, bindings_length]

end Calls

/-! ## Runs -/

/-- One call of the interface; a returned pointer is read as its text. -/
def rbtreeCall (A : Allocator) :
    Call → Exec Rbtree (Reply CString)
  | .set key value => do return .code (← rbtreeSet A key value)
  | .get key => do return .text ((← rbtreeGet key).map CharBlock.str)
  | .del key => do return .code (← rbtreeDel key)
  | .exist key => do return .code (← rbtreeExist key)
  | .count => do return .code (← rbtreeCount)

/-- A whole run: the tree is created, then the calls are made. -/
def rbtreeRun (A : Allocator) (calls : List Call) :
    Exec Rbtree (List (Reply CString)) := do
  let _ ← rbtreeCreate A
  runAll (rbtreeCall A) calls

/-- The heap holds a search tree, `count` is the number of its nodes, and the
sentinel has a key of its own but no children. -/
structure EngineTree (s : Rbtree) (T : Shape Node) : Prop where
  tree : SearchTree s T
  count : s.count = T.inorder.length
  child : ∀ d, s.child d s.nil = none
  key : ∃ block, s.key s.nil = some (some block) ∧
    block.addr ∈ s.arena.live ∧ block.addr ≠ s.nil ∧ block.addr ∉ addrs T

section EngineTree

variable {s s' : Rbtree} {T T' : Shape Node} {key value : CString} {ret : ℤ}

/-- The sentinel was left alone, and no block of its key was released or taken
for a node. -/
theorem EngineTree.next (h : EngineTree s T) (htree : SearchTree s' T')
    (hcount : s'.count = T'.inorder.length) (hnil : NilKept s s')
    (hlive : ∀ a ∈ s.arena.live, a ∈ s'.arena.live)
    (haddrs : ∀ a ∈ s.arena.live, a ∈ addrs T' → a ∈ addrs T) :
    EngineTree s' T' := by
  obtain ⟨block, hkey, hblock, hne, hfree⟩ := h.key
  refine ⟨htree, hcount, ?_, block, ?_, hlive _ hblock, ?_, ?_⟩
  · intro d
    rw [hnil.nil, hnil.child, h.child]
  · rw [hnil.nil, hnil.key, hkey]
  · rwa [hnil.nil]
  · exact fun hmem => hfree (haddrs _ hblock hmem)

theorem Created.engineTree (h : Created s s') : EngineTree s' .leaf := by
  obtain ⟨kp, hkey, hlive⟩ := h.key
  refine ⟨h.tree, h.count, h.child, ⟨kp, default⟩, hkey, ?_, ?_, ?_⟩
  · rw [hlive]
    exact List.mem_cons_self
  · intro heq
    have hnodup := s'.arena.nodup
    rw [hlive, List.nodup_cons] at hnodup
    exact hnodup.1 (heq ▸ List.mem_cons_self)
  · simp

theorem SetOutcome.engineTree {A : Allocator}
    (h : SetOutcome A key value s s' T ret) (hT : EngineTree s T) :
    ∃ T', EngineTree s' T' := by
  have hsize := hT.count
  cases h with
  | @inserted _ T' B C p kp vp _ htree hold hnew hcount hlive hnil =>
      refine ⟨T', hT.next htree ?_ hnil ?_ ?_⟩
      · rw [hcount, hsize, hold, hnew]
        simp only [List.length_append, List.length_cons]
        omega
      · intro a ha
        simp [hlive, ha]
      · intro a ha hmem
        have hnodup := s'.arena.nodup
        rw [hlive] at hnodup
        have hne : a ≠ p := by
          intro heq
          subst heq
          simp [ha] at hnodup
        rw [addrs, hnew] at hmem
        rw [addrs, hold]
        simpa [hne] using hmem
  | replaced _ htree hcount hlive hnil =>
      refine ⟨_, hT.next htree ?_ hnil ?_ ?_⟩
      · rw [hcount, hsize, inorder_fill, inorder_fill]
        simp [Shape.inorder]
      · intro a ha
        simp [hlive, ha]
      · intro a _ hmem
        simpa [addrs, inorder_fill, Shape.inorder] using hmem
  | emptied _ _ htree hcount hlive hnil =>
      refine ⟨_, hT.next htree ?_ hnil ?_ ?_⟩
      · rw [hcount, hsize, inorder_fill, inorder_fill]
        simp [Shape.inorder]
      · intro a ha
        rwa [hlive]
      · intro a _ hmem
        simpa [addrs, inorder_fill, Shape.inorder] using hmem
  | refused _ _ htree hcount hlive hnil =>
      refine ⟨T, hT.next htree (hcount.trans hsize) hnil ?_ (fun _ _ => id)⟩
      intro a ha
      simp [hlive, ha]

theorem DelOutcome.engineTree (h : DelOutcome key s s' T ret)
    (hT : EngineTree s T) : ∃ T', EngineTree s' T' := by
  have hsize := hT.count
  cases h with
  | absent _ heq =>
      subst heq
      exact ⟨T, hT⟩
  | @removed T' z p B C _ htree hold hnew haddrs hcount harena hnil =>
      refine ⟨T', hT.next htree ?_ hnil ?_ ?_⟩
      · have hlength := congrArg List.length hold
        have hlength' := congrArg List.length hnew
        simp only [List.length_map, List.length_append,
          List.length_cons] at hlength hlength'
        omega
      · intro a ha
        rwa [harena]
      · intro a _ hmem
        exact haddrs.mem_iff.mpr (List.mem_cons_of_mem p hmem)

/-- An invariant of the engine need only be followed through the calls that
change the tree. -/
theorem CallsReach.treeInvariant {Inv : Rbtree → Shape Node → Prop}
    (hcreated : ∀ {s s'}, Created s s' → Inv s' .leaf)
    (hset : ∀ {A key value s s' T ret}, SetOutcome A key value s s' T ret →
      Inv s T → ∃ T', SearchTree s' T' ∧ Inv s' T')
    (hdel : ∀ {key s s' T ret}, DelOutcome key s s' T ret →
      SearchTree s T → Inv s T → ∃ T', SearchTree s' T' ∧ Inv s' T')
    (h : CallsReach rbtreeCreate rbtreeCall s) :
    ∃ T, SearchTree s T ∧ Inv s T := by
  apply h.invariant
  · intro A s
    refine (yields_rbtreeCreate A s).mono ?_
    intro ret s' hs' _
    exact ⟨.leaf, hs'.2.tree, hcreated hs'.2⟩
  · intro A c s hs
    obtain ⟨T, htree, hT⟩ := hs
    cases c with
    | set key value =>
        refine yields_bind ((htree.returns_set A key value).yields.mono ?_)
        intro ret s' hs'
        exact yields_pure (hset hs' hT)
    | get key =>
        refine yields_bind ((htree.returns_get key).yields.mono ?_)
        intro p s' hget
        rw [hget.1]
        exact yields_pure ⟨T, htree, hT⟩
    | del key =>
        refine yields_bind ((htree.returns_del key).yields.mono ?_)
        intro ret s' hs'
        exact yields_pure (hdel hs' htree hT)
    | exist key =>
        refine yields_bind ((htree.returns_exist key).yields.mono ?_)
        intro ret s' hexist
        rw [hexist.1]
        exact yields_pure ⟨T, htree, hT⟩
    | count =>
        exact yields_bind (yields_bind (yields_get (yields_pure
          (yields_pure ⟨T, htree, hT⟩))))

/-- Every run of the engine, with whatever heap, keeps a search tree. -/
theorem CallsReach.engineTree (h : CallsReach rbtreeCreate rbtreeCall s) :
    ∃ T, EngineTree s T := by
  have hkept : ∃ T, SearchTree s T ∧ EngineTree s T := by
    apply h.treeInvariant
    · intro s s' hcreated
      exact hcreated.engineTree
    · intro A key value s s' T ret hset hT
      obtain ⟨T', hT'⟩ := hset.engineTree hT
      exact ⟨T', hT'.tree, hT'⟩
    · intro key s s' T ret hdel _ hT
      obtain ⟨T', hT'⟩ := hdel.engineTree hT
      exact ⟨T', hT'.tree, hT'⟩
  obtain ⟨T, -, hT⟩ := hkept
  exact ⟨T, hT⟩

end EngineTree

section Runs

variable {A : Allocator} {s : Rbtree} {m : StringMap}

theorem RbtreeHolds.returns_call (hA : A.Succeeds) (h : RbtreeHolds s m)
    (call : Call) :
    Returns (rbtreeCall A call) s (fun reply s' =>
      reply = (kvSpec call m).1 ∧ RbtreeHolds s' (kvSpec call m).2) := by
  cases call with
  | set key value =>
      simp only [rbtreeCall, returns_bind, returns_pure]
      apply (h.returns_set hA key value).mono
      rintro ret s' ⟨rfl, hs'⟩
      exact ⟨rfl, hs'⟩
  | get key =>
      simp only [rbtreeCall, returns_bind, returns_pure]
      apply (h.returns_get key).mono
      rintro ret s' ⟨rfl, hret⟩
      exact ⟨congrArg Reply.text hret, h⟩
  | del key =>
      simp only [rbtreeCall, returns_bind, returns_pure]
      apply (h.returns_del key).mono
      intro ret s' hs'
      by_cases hkey : key ∈ m
      · simp only [hkey, reduceIte] at hs'
        simpa [kvSpec, hkey] using hs'
      · simp only [hkey, reduceIte] at hs'
        obtain ⟨rfl, rfl⟩ := hs'
        simpa [kvSpec, hkey] using h
  | exist key =>
      simp only [rbtreeCall, returns_bind, returns_pure]
      apply (h.returns_exist key).mono
      rintro ret s' ⟨rfl, rfl⟩
      exact ⟨rfl, h⟩
  | count =>
      simp only [rbtreeCall, rbtreeCount, returns_bind, Fallible.returns_get,
        returns_pure]
      exact ⟨congrArg Reply.code h.count_eq, h⟩

theorem returns_rbtreeRun (hA : A.Succeeds) (s : Rbtree)
    (calls : List Call) :
    Returns (rbtreeRun A calls) s (fun replies s' =>
      replies = (specRun kvSpec calls ∅).1 ∧
        RbtreeHolds s' (specRun kvSpec calls ∅).2) := by
  simp only [rbtreeRun, returns_bind]
  apply (returns_rbtreeCreate hA s).mono
  intro _ s₁ hs₁
  exact runAll_refines (fun call s m hm => hm.returns_call hA call)
    hs₁.2.holds

/-- A valid red-black tree over the heap: `tree` carries the child and parent
links, with the sentinel below every leaf and above the root. -/
structure ValidRbtree (s : Rbtree) (T : Shape Node) : Prop where
  tree : Repr s T
  keysIncrease : T.inorder.Pairwise (fun x y => strcmp x.text y.text < 0)
  rootBlack : s.color s.root = some .black
  nilBlack : s.color s.nil = some .black
  noRedRed : T.NoRedRed
  blackHeight : ∃ n, T.BlackHeight n
  count : s.count = T.inorder.length

theorem RbtreeHolds.valid (h : RbtreeHolds s m) :
    ∃ T, ValidRbtree s T := by
  obtain ⟨T, htree, hcount, -⟩ := h.tree
  obtain ⟨n, hn⟩ := htree.balanced
  rw [Shape.balanced_iff] at hn
  have hfocus : Repr s (fill [] T) := htree.repr
  refine ⟨T, htree.repr, ?_, ?_, htree.repr.nilBlack, hn.1, ⟨n, hn.2⟩,
    hcount⟩
  · exact htree.sorted.imp (fun hlt => (strcmp_neg_iff _ _).mpr hlt)
  · rw [htree.repr.root, hfocus.color_ptr, htree.rootBlack]

/-- Every run of the interface ends in a valid red-black tree. -/
theorem rbtreeRun_valid (A : Allocator) (hA : A.Succeeds) (s : Rbtree)
    (calls : List Call) :
    Returns (rbtreeRun A calls) s (fun _ s' => ∃ T, ValidRbtree s' T) :=
  (returns_rbtreeRun hA s calls).mono (fun _ _ hs' => hs'.2.valid)

def blankRbtree : Rbtree where
  arena := .empty
  root := NULL
  nil := NULL
  count := 0
  color := fun _ => none
  child := fun _ _ => none
  parent := fun _ => none
  key := fun _ => none
  value := fun _ => none

theorem exists_createdTree : ∃ s, CallsReach rbtreeCreate rbtreeCall s ∧
    RbtreeHolds s ∅ := by
  obtain ⟨_, s, hrun, rfl, hcreated⟩ :=
    returns_rbtreeCreate Allocator.above_succeeds blankRbtree
  exact ⟨s, .created hrun, hcreated.holds⟩

theorem RbtreeHolds.exists_set {s : Rbtree} {m : StringMap}
    (h : RbtreeHolds s m) (hreach : CallsReach rbtreeCreate rbtreeCall s)
    (key value : CString) :
    ∃ s', CallsReach rbtreeCreate rbtreeCall s' ∧
      RbtreeHolds s' (m.insert key value) := by
  obtain ⟨_, s', hrun, -, hs'⟩ :=
    h.returns_call Allocator.above_succeeds (.set key value)
  exact ⟨s', .called hreach hrun, hs'⟩

/-- A tree with this one binding is reached. -/
theorem exists_storedPair (key value : CString) :
    ∃ s, CallsReach rbtreeCreate rbtreeCall s ∧
      RbtreeHolds s ((∅ : StringMap).insert key value) := by
  obtain ⟨s, hreach, hs⟩ := exists_createdTree
  exact hs.exists_set hreach key value

/-- The root `z` of the tree has two children. -/
def TwoChildRoot (s : Rbtree) (z : Node) : Prop :=
  ∃ l r, SearchTree s (.node .black l z r) ∧ l ≠ .leaf ∧ r ≠ .leaf

theorem RbtreeHolds.exists_twoChildRoot {s : Rbtree} {m : StringMap}
    (h : RbtreeHolds s m) (hcard : 3 ≤ m.keys.card) :
    ∃ z, TwoChildRoot s z := by
  have hkeys := h.count_eq
  obtain ⟨T, hT, hcount, -⟩ := h.tree
  obtain ⟨n, hn⟩ := hT.balanced
  have hlength : 3 ≤ T.inorder.length := by omega
  obtain ⟨l, z, r, rfl, hl, hr⟩ := hn.exists_children hT.rootBlack hlength
  exact ⟨z, l, r, hT, hl, hr⟩

/-- Three calls of `rbtree_set` lead to such a tree. -/
theorem exists_twoChildRoot : ∃ s z,
    CallsReach rbtreeCreate rbtreeCall s ∧ TwoChildRoot s z := by
  obtain ⟨s₀, hreach₀, hs₀⟩ := exists_createdTree
  obtain ⟨s₁, hreach₁, hs₁⟩ :=
    hs₀.exists_set hreach₀ ⟨[1], by decide⟩ default
  obtain ⟨s₂, hreach₂, hs₂⟩ :=
    hs₁.exists_set hreach₁ ⟨[2], by decide⟩ default
  obtain ⟨s₃, hreach₃, hs₃⟩ :=
    hs₂.exists_set hreach₂ ⟨[3], by decide⟩ default
  obtain ⟨z, hz⟩ := hs₃.exists_twoChildRoot (by decide)
  exact ⟨s₃, z, hreach₃, hz⟩

theorem rbtreeRun_valid_sample :
    Returns (rbtreeRun .above sampleCalls) blankRbtree
      (fun _ s' => ∃ T, ValidRbtree s' T) :=
  rbtreeRun_valid .above Allocator.above_succeeds blankRbtree sampleCalls

/-- Every run of the interface answers as the finite map does, and the tree
it ends in holds exactly the map's bindings. -/
theorem rbtreeRun_refines_kvSpec (A : Allocator) (hA : A.Succeeds)
    (s : Rbtree) (calls : List Call) :
    Returns (rbtreeRun A calls) s (fun replies s' =>
      replies = (specRun kvSpec calls ∅).1 ∧
        RbtreeHolds s' (specRun kvSpec calls ∅).2) :=
  returns_rbtreeRun hA s calls

theorem rbtreeRun_refines_kvSpec_sample :
    Returns (rbtreeRun .above sampleCalls) blankRbtree (fun replies s' =>
      replies = (specRun kvSpec sampleCalls ∅).1 ∧
        RbtreeHolds s' (specRun kvSpec sampleCalls ∅).2) :=
  rbtreeRun_refines_kvSpec .above Allocator.above_succeeds blankRbtree
    sampleCalls

end Runs

end CAdvanced
