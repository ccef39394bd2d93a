import CAdvanced.SentinelAccess

/-!
# `rbtree_destroy` never succeeds

`rbtree_create` asks for one byte for the sentinel, so its key lies behind the
block, and `rbtree_destroy` reads it first.  With a whole node for the sentinel
the loop would still have no end: it takes out one node after the other and
would stop if `rbtree_mini` answered with the sentinel, but on an empty tree
`rbtree_mini` reads the left child of the sentinel, which was never assigned.
-/

namespace CAdvanced

open Fallible
open KeyValue
open RedBlack
open Rbtree

/-! ## The block of the sentinel -/

/-- The fields of `struct _rbtree_node`. -/
inductive NodeField
  | color
  | right
  | left
  | parent
  | key
  | value

namespace NodeField

/-- The pointers lie behind the color, at multiples of their size. -/
def offset : NodeField → ℕ
  | .color => 0
  | .right => 8
  | .left => 16
  | .parent => 24
  | .key => 32
  | .value => 40

def width : NodeField → ℕ
  | .color => 1
  | _ => 8

def ofDir : Dir → NodeField
  | .left => .left
  | .right => .right

/-- The field lies in a block of this size. -/
def Fits (bytes : ℕ) (f : NodeField) : Prop := f.offset + f.width ≤ bytes

instance (bytes : ℕ) (f : NodeField) : Decidable (f.Fits bytes) :=
  inferInstanceAs (Decidable (_ ≤ _))

end NodeField

def nodeBytes : ℕ := 48

/-- The argument of `kvstore_malloc` for the sentinel. -/
def sentinelBytes : ℕ := 1

theorem NodeField.fits_node (f : NodeField) {bytes : ℕ}
    (h : nodeBytes ≤ bytes) : f.Fits bytes := by
  refine le_trans ?_ h
  cases f <;> decide

/-- The sentinel's block has this size; the other nodes have whole blocks. -/
def inBlock (bytes : ℕ) (f : NodeField) (p : Addr) : Exec Rbtree Unit := do
  if p = (← nilOf) ∧ ¬ f.Fits bytes then throw .outOfBounds

namespace NodeAccess

/-- Accesses to the sentinel stay in its block. -/
def sized (bytes : ℕ) : NodeAccess where
  childOf := fun d p => do inBlock bytes (.ofDir d) p; Rbtree.childOf d p
  parentOf := fun p => do inBlock bytes .parent p; Rbtree.parentOf p
  keyPtrOf := fun p => do inBlock bytes .key p; Rbtree.keyPtrOf p
  valuePtrOf := fun p => do inBlock bytes .value p; Rbtree.valuePtrOf p
  setColor := fun p c => do inBlock bytes .color p; Rbtree.setColor p c
  setChild := fun d p q => do
    inBlock bytes (.ofDir d) p
    Rbtree.setChild d p q
  setParent := fun p q => do inBlock bytes .parent p; Rbtree.setParent p q
  setKey := fun p k => do inBlock bytes .key p; Rbtree.setKey p k
  setValue := fun p v => do inBlock bytes .value p; Rbtree.setValue p v

section Engine

variable (acc : NodeAccess)

def rbtreeCreate (A : Allocator) : Exec Rbtree ℤ := do
  modify (fun s => withCount 0 (withNil NULL (withRoot NULL s)))
  let nil ← mallocNode A
  modify (withNil nil)
  let key ← malloc A
  if key = NULL then throw .badAddress
  acc.setKey nil (some ⟨key, default⟩)
  acc.setColor nil .black
  setRoot nil
  modify (withCount 0)
  return 0

def destroyStep (cur : Addr) : Exec Rbtree (Addr ⊕ Unit) := do
  if cur ≠ (← nilOf) then
    let cur ← acc.rbtreeMini (← rootOf)
    if cur = (← nilOf) then return .inr ()
    let cur ← acc.rbtreeDelete acc cur
    if cur = NULL then throw .badAddress
    return .inl cur
  else return .inr ()

def rbtreeDestroy : Exec Rbtree Unit := do
  freeText (← acc.keyPtrOf (← nilOf))
  iterate acc.destroyStep (← loopFuel) (← rootOf)

/-- The nodes that `rbtree_destroy` takes out, in this order. -/
def detachedNodes : Exec Rbtree (List Addr) := do
  freeText (← acc.keyPtrOf (← nilOf))
  return (← loopValues acc.destroyStep (← loopFuel) (← rootOf)).tail

end Engine

theorem rbtreeCreate_plain (A : Allocator) :
    plain.rbtreeCreate A = CAdvanced.rbtreeCreate A := rfl

theorem rbtreeDestroy_plain :
    plain.rbtreeDestroy = CAdvanced.rbtreeDestroy := rfl

end NodeAccess

theorem inBlock_bind_of_fits {α : Type} {bytes : ℕ} {f : NodeField}
    (hfits : f.Fits bytes) (p : Addr) (m : Exec Rbtree α) :
    (do inBlock bytes f p; m) = m := by
  simp only [inBlock, hfits, not_true_eq_false, and_false, reduceIte,
    bind_assoc, pure_bind]
  rfl

/-- With a whole node for the sentinel the accesses are the plain ones. -/
theorem NodeAccess.sized_whole {bytes : ℕ} (h : nodeBytes ≤ bytes) :
    sized bytes = plain := by
  simp only [sized, plain, inBlock_bind_of_fits (NodeField.fits_node _ h)]

theorem returns_inBlock {bytes : ℕ} {f : NodeField} {p : Addr} {s : Rbtree}
    (Q : Unit → Rbtree → Prop) :
    Returns (inBlock bytes f p) s Q ↔
      (p = s.nil → f.Fits bytes) ∧ Q () s := by
  simp only [inBlock, nilOf, returns_bind, returns_get, returns_pure]
  by_cases hfits : p = s.nil → f.Fits bytes
  · rw [if_neg (by tauto), returns_pure]
    exact (and_iff_right hfits).symm
  · rw [if_pos (by tauto), returns_throw]
    exact ⟨False.elim, fun h => hfits h.1⟩

/-- The key of the sentinel is behind its one byte. -/
theorem not_fits_key : ¬ NodeField.Fits sentinelBytes .key := by decide

/-- `rbtree_create` itself writes behind the block. -/
theorem not_returns_rbtreeCreate (A : Allocator) (s : Rbtree)
    (Q : ℤ → Rbtree → Prop) :
    ¬ Returns ((NodeAccess.sized sentinelBytes).rbtreeCreate A) s Q := by
  intro hcreated
  simp only [NodeAccess.rbtreeCreate, NodeAccess.sized, returns_bind,
    returns_modify] at hcreated
  obtain ⟨nil, s₁, -, key, s₂, hkey, hrest⟩ := hcreated
  have hrequested : Requested A (withNil nil s₁) s₂ key :=
    (returns_mallocText A (withNil nil s₁)).of_run hkey
  have hnil : s₂.nil = nil := by
    cases hrequested with
    | refused _ hun _ => exact hun.nil
    | granted hnew => exact hnew.undisturbed.nil
  by_cases hnull : key = NULL
  · rw [if_pos hnull, returns_bind, returns_throw] at hrest
    exact hrest
  · rw [if_neg hnull, returns_bind, returns_bind, returns_inBlock] at hrest
    exact not_fits_key (hrest.1 hnil.symm)

/-- `rbtree_destroy` takes out every node of the tree once, and returns with an
empty tree. -/
structure TearsDown (acc : NodeAccess) (s : Rbtree) : Prop where
  emptied : Returns acc.rbtreeDestroy s (fun _ s' => s'.root = s'.nil)
  detached : ∃ T, SearchTree s T ∧
    Returns acc.detachedNodes s (fun nodes _ => nodes.Perm (addrs T))

/-- Inside the loop the tree is sound, and the current node is none of the
sentinel. -/
structure TreeDraining (cur : Addr) (s : Rbtree) : Prop where
  tree : ∃ T, SearchTree s T
  child : ∀ d, s.child d s.nil = none
  current : cur ≠ s.nil

section Drain

variable {s : Rbtree} {T : Shape Node} {cur : Addr}

theorem not_returns_mini_nil (hchild : s.child .left s.nil = none)
    (Q : Addr → Rbtree → Prop) : ¬ Returns (rbtreeMini s.nil) s Q := by
  simp [rbtreeMini, loopFuel, iterate, extremeStep, childOf, hchild]

theorem TreeDraining.step (h : TreeDraining cur s)
    {Q : Addr ⊕ Unit → Rbtree → Prop}
    (hreturns : Returns (destroyStep cur) s Q) :
    ∃ next s', TreeDraining next s' ∧ Q (.inl next) s' := by
  obtain ⟨T, htree⟩ := h.tree
  simp only [destroyStep, nilOf, rootOf, returns_bind, returns_get,
    returns_pure, ne_eq, h.current, not_false_eq_true, reduceIte]
    at hreturns
  by_cases hT : T = .leaf
  · subst hT
    rw [htree.repr.root] at hreturns
    exact absurd hreturns (not_returns_mini_nil (h.child .left) _)
  · rw [htree.repr.root] at hreturns
    obtain ⟨p, s₁, hmini, hrest⟩ := hreturns
    have hpath : Repr s (fill [] T) := htree.repr
    obtain ⟨rfl, fs, c, x, r, rfl, -, rfl⟩ :=
      (hpath.returns_mini hT).of_run hmini
    have hne := htree.repr.focusRep.1.ne_nil
    rw [if_neg hne, returns_bind] at hrest
    obtain ⟨y, s₂, hdelete, hrest⟩ := hrest
    obtain ⟨hlive, hkeeps, T', B, C, htree', -, -, haddrs⟩ :=
      htree.returns_delete.of_run hdelete
    have hnull : y ≠ NULL := by
      intro hnull
      subst hnull
      exact s₁.arena.null_notMem hlive
    rw [if_neg hnull, returns_pure] at hrest
    refine ⟨y, s₂, ⟨⟨T', htree'⟩, ?_, ?_⟩, hrest⟩
    · intro d
      rw [hkeeps.nil, hkeeps.child]
      exact h.child d
    · rw [hkeeps.nil]
      exact htree.repr.ne_nil y (haddrs.mem_iff.mpr List.mem_cons_self)

theorem TreeDraining.not_returns (h : TreeDraining cur s) (fuel : ℕ)
    (Q : Unit → Rbtree → Prop) :
    ¬ Returns (iterate destroyStep fuel cur) s Q :=
  not_returns_iterate TreeDraining
    (fun _ _ hinv _ hreturns => hinv.step hreturns) h Q

theorem SearchTree.release (h : SearchTree s T) {a : Addr} (hne : a ≠ s.nil)
    (hfree : a ∉ addrs T) :
    SearchTree (HasArena.withArena (s.arena.release a) s) T := by
  have hcell : ∀ b, b ≠ a →
      SameCell s (HasArena.withArena (s.arena.release a) s) b := by
    intro b hb
    exact ⟨fun hmem => (List.mem_erase_of_ne hb).mpr hmem, rfl, fun _ => rfl,
      rfl, rfl, rfl⟩
  have hnil : (HasArena.withArena (s.arena.release a) s).nil = s.nil := rfl
  refine ⟨⟨h.repr.root, ?_, h.repr.nodup, h.repr.nilBlack, ?_⟩, h.rootBlack,
    h.balanced, h.sorted⟩
  · rw [hnil]
    apply h.repr.rep.frame hnil
    intro b hb
    exact hcell b (ne_of_mem_of_not_mem hb hfree)
  · exact (hcell s.nil hne.symm).live h.repr.nilLive

/-- The loop of `rbtree_destroy` starts behind the release of the sentinel's
key. -/
theorem EngineTree.destroy_start (h : EngineTree s T) :
    ∃ s', SearchTree s' T ∧ s'.root = s.root ∧ s'.nil = s.nil ∧
      s'.child = s.child ∧
      ∀ {α : Type} (rest : Exec Rbtree α) (Q : α → Rbtree → Prop),
        Returns (do
          freeText (← keyPtrOf (← nilOf))
          rest) s Q ↔ Returns rest s' Q := by
  obtain ⟨block, hkey, hlive, hne, hfree⟩ := h.key
  have hnull : block.addr ≠ NULL := by
    intro hnull
    rw [hnull] at hlive
    exact s.arena.null_notMem hlive
  refine ⟨HasArena.withArena (s.arena.release block.addr) s,
    h.tree.release hne hfree, rfl, rfl, rfl, ?_⟩
  intro α rest Q
  simp only [nilOf, keyPtrOf, freeText, free, returns_bind, returns_get,
    returns_pure, returns_load, hkey, Option.some.injEq, exists_eq_left',
    hnull, reduceIte]
  have hlive' : block.addr ∈ (HasArena.arena s).live := hlive
  rw [if_pos hlive', returns_modify]
  rfl

theorem EngineTree.not_returns_destroy (h : EngineTree s T)
    (hcount : s.count ≠ 0) (Q : Unit → Rbtree → Prop) :
    ¬ Returns rbtreeDestroy s Q := by
  obtain ⟨s₁, htree, hroot, hnil, hchild, hstart⟩ := h.destroy_start
  have hT : T ≠ .leaf := by
    intro hleaf
    rw [h.count, hleaf] at hcount
    exact hcount rfl
  rw [rbtreeDestroy, hstart]
  intro hdestroyed
  simp only [loopFuel, rootOf, returns_bind, returns_get, returns_pure]
    at hdestroyed
  have hdraining : TreeDraining s₁.root s₁ := by
    refine ⟨⟨T, htree⟩, ?_, ?_⟩
    · intro d
      rw [hchild, hnil, h.child]
    · rw [htree.repr.root]
      exact htree.repr.ne_nil _ (ptr_mem_addrs hT)
  exact hdraining.not_returns _ _ hdestroyed

theorem leaf_of_length_eq_zero (hlength : T.inorder.length = 0) :
    T = .leaf := by
  cases T with
  | leaf => rfl
  | node c l x r => simp [Shape.inorder] at hlength

end Drain

/-- With a whole node for the sentinel `rbtree_destroy` takes the tree down
exactly when there is nothing to take down. -/
theorem tearsDown_plain_iff {s : Rbtree}
    (h : CallsReach rbtreeCreate rbtreeCall s) :
    TearsDown .plain s ↔ s.count = 0 := by
  obtain ⟨T, hT⟩ := h.engineTree
  constructor
  · intro hdown
    by_contra hcount
    exact hT.not_returns_destroy hcount _ hdown.emptied
  · intro hcount
    have hlength : T.inorder.length = 0 := by
      have hsize := hT.count
      omega
    have hleaf := leaf_of_length_eq_zero hlength
    subst hleaf
    obtain ⟨s₁, htree, -, -, -, hstart⟩ := hT.destroy_start
    have hempty : s₁.root = s₁.nil := htree.repr.root
    refine ⟨?_, .leaf, hT.tree, ?_⟩
    · rw [NodeAccess.rbtreeDestroy_plain, rbtreeDestroy, hstart]
      simp [loopFuel, rootOf, nilOf, iterate, destroyStep, hempty]
    · have hnodes : NodeAccess.plain.detachedNodes = do
          freeText (← keyPtrOf (← nilOf))
          return (← loopValues destroyStep (← loopFuel) (← rootOf)).tail := rfl
      rw [hnodes, hstart]
      simp [loopFuel, rootOf, nilOf, loopValues, destroyStep, hempty]

/-- The first thing `rbtree_destroy` reads is behind the sentinel's block. -/
theorem not_returns_destroy_sized (s : Rbtree) (Q : Unit → Rbtree → Prop) :
    ¬ Returns (NodeAccess.sized sentinelBytes).rbtreeDestroy s Q := by
  simp [NodeAccess.rbtreeDestroy, NodeAccess.sized, nilOf, returns_inBlock,
    not_fits_key]

/-- `rbtree_destroy` takes no tree down: it reads behind the sentinel's block,
and with a whole node there it would take down the empty tree only. -/
theorem rbtreeDestroy_never {s : Rbtree}
    (h : CallsReach rbtreeCreate rbtreeCall s) :
    ¬ TearsDown (.sized sentinelBytes) s ∧
      (TearsDown (.sized nodeBytes) s ↔ s.count = 0) := by
  refine ⟨fun hdown => not_returns_destroy_sized s _ hdown.emptied, ?_⟩
  rw [NodeAccess.sized_whole le_rfl]
  exact tearsDown_plain_iff h

/-- The tree with one key. -/
theorem rbtreeDestroy_never_sample : ∃ s,
    CallsReach rbtreeCreate rbtreeCall s ∧ s.count = 1 ∧
      ¬ TearsDown (.sized sentinelBytes) s ∧
      ¬ TearsDown (.sized nodeBytes) s := by
  obtain ⟨s, hreach, hs⟩ := exists_storedPair default default
  have hcount : s.count = 1 := hs.count_eq
  obtain ⟨hnever, hwhole⟩ := rbtreeDestroy_never hreach
  refine ⟨s, hreach, hcount, hnever, ?_⟩
  rw [hwhole, hcount]
  decide

/-- `rbtree_destroy` right behind `rbtree_create` reads a byte that it has not
got, and with one key in the tree it would not return even so. -/
theorem rbtreeDestroy_failures :
    (∃ s, CallsReach rbtreeCreate rbtreeCall s ∧ s.count = 0 ∧
      ∀ Q, ¬ Returns (NodeAccess.sized sentinelBytes).rbtreeDestroy s Q) ∧
    ∃ s, CallsReach rbtreeCreate rbtreeCall s ∧ s.count = 1 ∧
      ∀ Q, ¬ Returns rbtreeDestroy s Q := by
  constructor
  · obtain ⟨_, s, hrun, rfl, hcreated⟩ :=
      returns_rbtreeCreate Allocator.above_succeeds blankRbtree
    exact ⟨s, .created hrun, hcreated.count, not_returns_destroy_sized s⟩
  · obtain ⟨s, hreach, hs⟩ := exists_storedPair default default
    have hcount : s.count = 1 := hs.count_eq
    obtain ⟨T, hT⟩ := hreach.engineTree
    refine ⟨s, hreach, hcount, hT.not_returns_destroy ?_⟩
    rw [hcount]
    decide

end CAdvanced
