import CAdvanced.RbtreeEngine

/-!
# The depth of the searches

The loops that walk down the tree visit each node of one way down at most once.
In a red-black tree no way down is longer than twice the logarithm of the size.
-/

namespace CAdvanced

open Fallible
open KeyValue
open RedBlack
open Rbtree

/-- The loop ends, and at most `d` of the values with which it enters its body
are nodes of the tree. -/
structure VisitsAtMost {ℓ ρ : Type} (body : ℓ → Exec Rbtree (ℓ ⊕ ρ))
    (node : ℓ → Addr) (x : ℓ) (s : Rbtree) (d : ℕ) : Prop where
  ends : Returns (do iterate body (← loopFuel) x) s (fun _ s' => s' = s)
  visited : Returns (do loopValues body (← loopFuel) x) s (fun values _ =>
    ((values.map node).filter (· ≠ s.nil)).length ≤ d)

/-- The walks from the root visit at most `d` nodes. -/
structure ShallowTree (s : Rbtree) (d : ℕ) : Prop where
  search : ∀ key, VisitsAtMost (searchStep key) id s.root s d
  mini : s.root ≠ s.nil → VisitsAtMost (extremeStep .left) id s.root s d
  maxi : s.root ≠ s.nil → VisitsAtMost (extremeStep .right) id s.root s d
  descent : ∀ z block, s.key z = some (some block) →
    VisitsAtMost (insertDescentStep z) Prod.snd (s.nil, s.root) s d

section Walks

variable {s : Rbtree} {T : Shape Node}

/-- What one turn of a walk does at the subtree `t`: it ends, or it goes on to
a subtree of `t`. -/
def WalksDown {ℓ ρ : Type} (T : Shape Node) (node : ℓ → Addr)
    (ok : Shape Node → Prop) (s : Rbtree) (t : Shape Node) :
    ℓ ⊕ ρ → Rbtree → Prop
  | .inl next, s' => s' = s ∧ t ≠ .leaf ∧ ∃ path t', T = fill path t' ∧
      ok t' ∧ node next = ptr s.nil t' ∧ t'.height < t.height
  | .inr _, s' => s' = s

theorem walksDown_left {ℓ ρ : Type} {node : ℓ → Addr}
    {ok : Shape Node → Prop} {path : Path Node} {c : Color}
    {l r : Shape Node} {x : Node} {next : ℓ}
    (hT : T = fill path (.node c l x r)) (hok : ok l)
    (hnext : node next = ptr s.nil l) :
    @WalksDown ℓ ρ T node ok s (.node c l x r) (.inl next) s := by
  refine ⟨rfl, by simp, ⟨.left, c, x, r⟩ :: path, l, hT, hok, hnext, ?_⟩
  simp only [Shape.height]
  omega

theorem walksDown_right {ℓ ρ : Type} {node : ℓ → Addr}
    {ok : Shape Node → Prop} {path : Path Node} {c : Color}
    {l r : Shape Node} {x : Node} {next : ℓ}
    (hT : T = fill path (.node c l x r)) (hok : ok r)
    (hnext : node next = ptr s.nil r) :
    @WalksDown ℓ ρ T node ok s (.node c l x r) (.inl next) s := by
  refine ⟨rfl, by simp, ⟨.right, c, x, l⟩ :: path, r, hT, hok, hnext, ?_⟩
  simp only [Shape.height]
  omega

/-- A walk visits at most as many nodes as the subtree is high. -/
theorem returns_loopValues_walk {ℓ ρ : Type} {body : ℓ → Exec Rbtree (ℓ ⊕ ρ)}
    {node : ℓ → Addr} {ok : Shape Node → Prop}
    (hstep : ∀ x path t, T = fill path t → ok t → node x = ptr s.nil t →
      Returns (body x) s (WalksDown T node ok s t))
    {fuel : ℕ} {x : ℓ} {path : Path Node} {t : Shape Node}
    (hT : T = fill path t) (hok : ok t) (hx : node x = ptr s.nil t)
    (hfuel : t.height < fuel) :
    Returns (loopValues body fuel x) s (fun values s' => s' = s ∧
      ((values.map node).filter (· ≠ s.nil)).length ≤ t.height) := by
  induction fuel generalizing x path t with
  | zero => omega
  | succ fuel ih =>
      rw [loopValues, returns_bind]
      apply (hstep x path t hT hok hx).mono
      intro r s₁ hr
      cases r with
      | inl next =>
          obtain ⟨rfl, ht, path', t', hT', hok', hnext, hheight⟩ := hr
          rw [returns_bind]
          apply (ih hT' hok' hnext (by omega)).mono
          intro values s₂ hvalues
          rw [returns_pure]
          refine ⟨hvalues.1, ?_⟩
          have hlength := hvalues.2
          rw [List.map_cons, List.filter_cons]
          split_ifs
          · rw [List.length_cons]
            omega
          · omega
      | inr answer =>
          have hs₁ : s₁ = s := hr
          rw [returns_pure]
          refine ⟨hs₁, ?_⟩
          cases t with
          | leaf => simp [hx]
          | node c l z r =>
              simp only [Shape.height]
              apply (List.length_filter_le _ _).trans
              simp

theorem visitsAtMost_of_step {ℓ ρ : Type} {body : ℓ → Exec Rbtree (ℓ ⊕ ρ)}
    {node : ℓ → Addr} {ok : Shape Node → Prop} (h : Repr s T)
    (hstep : ∀ x path t, T = fill path t → ok t → node x = ptr s.nil t →
      Returns (body x) s (WalksDown T node ok s t))
    {x : ℓ} (hok : ok T) (hx : node x = s.root) :
    VisitsAtMost body node x s T.height := by
  have hfuel : T.height < s.arena.live.length + 1 := by
    have hheight := T.height_le_length
    have hlength := h.length_le
    omega
  rw [h.root] at hx
  have hwalk := @returns_loopValues_walk s T _ _ _ _ _ hstep _ x [] T rfl hok
    hx hfuel
  constructor
  · simp only [loopFuel, returns_bind, returns_get, returns_pure]
    exact returns_iterate_of_loopValues (hwalk.mono (fun _ _ hs => hs.1))
  · simp only [loopFuel, returns_bind, returns_get, returns_pure]
    exact hwalk.mono (fun _ _ hs => hs.2)

theorem Repr.walks_search (h : Repr s T) (key : CString) (p : Addr)
    (path : Path Node) (t : Shape Node) (hT : T = fill path t)
    (hp : p = ptr s.nil t) :
    Returns (searchStep key p) s (WalksDown T id (fun _ => True) s t) := by
  subst hT hp
  cases t with
  | leaf =>
      simp only [searchStep, nilOf, returns_bind, returns_get, returns_pure,
        ptr_leaf, ne_eq, not_true_eq_false, reduceIte]
      rfl
  | node c l x r =>
      have hcell := h.focusRep.1
      have hleft := hcell.near
      have hright := hcell.far
      simp only [Dir.flip] at hright
      simp only [searchStep, nilOf, childOf, returns_bind, returns_get,
        returns_pure, returns_load, returns_ite, ptr_node, hcell.ne_nil, ne_eq,
        not_false_eq_true, reduceIte, h.keyOf, hleft, hright,
        Option.some.injEq, exists_eq_left']
      split_ifs
      · exact walksDown_left rfl trivial rfl
      · exact walksDown_right rfl trivial rfl
      · rfl

theorem Repr.walks_extreme (h : Repr s T) (d : Dir) (p : Addr)
    (path : Path Node) (t : Shape Node) (hT : T = fill path t)
    (ht : t ≠ .leaf) (hp : p = ptr s.nil t) :
    Returns (extremeStep d p) s (WalksDown T id (fun t => t ≠ .leaf) s t) := by
  subst hT hp
  obtain ⟨c, near, x, far, rfl⟩ := Shape.exists_branch d ht
  have hfocus := h.focusRep
  rw [rep_branch] at hfocus
  have hchild := hfocus.1.near
  simp only [extremeStep, childOf, nilOf, returns_bind, returns_load,
    returns_get, returns_pure, returns_ite, ptr_branch, hchild,
    Option.some.injEq, exists_eq_left']
  split_ifs with hnil
  · have hnear : near ≠ .leaf := by
      intro hleaf
      subst hleaf
      exact hnil rfl
    cases d with
    | left => exact walksDown_left rfl hnear rfl
    | right => exact walksDown_right rfl hnear rfl
  · rfl

theorem Repr.walks_descent (h : Repr s T) {z : Addr} {block : CharBlock}
    (hz : s.key z = some (some block)) (yx : Addr × Addr)
    (path : Path Node) (t : Shape Node) (hT : T = fill path t)
    (hp : yx.2 = ptr s.nil t) :
    Returns (insertDescentStep z yx) s
      (WalksDown T Prod.snd (fun _ => True) s t) := by
  obtain ⟨y, x⟩ := yx
  have hkeyOf : ∀ Q : CString → Rbtree → Prop,
      Returns (Rbtree.keyOf z) s Q ↔ Q block.str s := by
    intro Q
    simp [Rbtree.keyOf, keyPtrOf, hz]
  subst hT hp
  cases t with
  | leaf =>
      simp only [insertDescentStep, nilOf, returns_bind, returns_get,
        returns_pure, ptr_leaf, ne_eq, not_true_eq_false, reduceIte]
      rfl
  | node c l x r =>
      have hcell := h.focusRep.1
      have hleft := hcell.near
      have hright := hcell.far
      simp only [Dir.flip] at hright
      simp only [insertDescentStep, nilOf, childOf, returns_bind, returns_get,
        returns_pure, returns_load, returns_ite, ptr_node, hcell.ne_nil, ne_eq,
        not_false_eq_true, reduceIte, hkeyOf, h.keyOf, hleft, hright,
        Option.some.injEq, exists_eq_left']
      split_ifs
      · exact walksDown_left rfl trivial rfl
      · exact walksDown_right rfl trivial rfl
      · rfl

theorem Repr.shallow (h : Repr s T) : ShallowTree s T.height := by
  have hextreme : ∀ d, s.root ≠ s.nil →
      VisitsAtMost (extremeStep d) id s.root s T.height := by
    intro d hroot
    have hT : T ≠ .leaf := by
      intro hleaf
      rw [h.root, hleaf] at hroot
      exact hroot rfl
    exact visitsAtMost_of_step h (h.walks_extreme d) hT rfl
  refine ⟨?_, hextreme .left, hextreme .right, ?_⟩
  · intro key
    exact visitsAtMost_of_step h
      (fun p path t hT _ => h.walks_search key p path t hT) trivial rfl
  · intro z block hz
    exact visitsAtMost_of_step h
      (fun yx path t hT _ => h.walks_descent hz yx path t hT) trivial rfl

end Walks

/-- In a tree of `count` keys no walk down visits more than `d` nodes, where
`d` is at most twice the logarithm of `count + 1`.  The tree may have been left
alone while blocks came and went, as it is when a node is to be inserted. -/
theorem searchDepth_le {s : Rbtree}
    (h : CallsReach rbtreeCreate rbtreeCall s) :
    ∃ d : ℕ, (2 : ℤ) ^ d ≤ (s.count + 1) ^ 2 ∧
      ∀ t, Undisturbed s t → ShallowTree t d := by
  obtain ⟨T, hT⟩ := h.engineTree
  have htree := hT.tree
  obtain ⟨n, hn⟩ := htree.balanced
  refine ⟨T.height, ?_, ?_⟩
  · rw [hT.count]
    exact_mod_cast hn.pow_height_le htree.rootBlack
  · intro t hun
    exact (htree.frame hun).repr.shallow

theorem searchDepth_le_sample : ∃ s z,
    CallsReach rbtreeCreate rbtreeCall s ∧ TwoChildRoot s z ∧
      ∃ d : ℕ, (2 : ℤ) ^ d ≤ (s.count + 1) ^ 2 ∧
        ∀ t, Undisturbed s t → ShallowTree t d := by
  obtain ⟨s, z, hreach, hz⟩ := exists_twoChildRoot
  exact ⟨s, z, hreach, hz, searchDepth_le hreach⟩

end CAdvanced
