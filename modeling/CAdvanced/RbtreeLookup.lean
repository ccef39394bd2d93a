import CAdvanced.RbtreeRotation

/-!
# Walks down the tree

`rbtree_search` and `rbtree_mini` follow child links from the root or from a
subtree.  Both carry a focus whose height pays for the remaining iterations.
-/

namespace CAdvanced

open Fallible
open RedBlack
open Rbtree

abbrev Node.text (x : Node) : CString := x.key.str

theorem addrs_length (t : Shape Node) :
    (addrs t).length = t.inorder.length := by
  simp [addrs]

/-- A tree of the heap has no more nodes than there are live blocks. -/
theorem Repr.length_le {s : Rbtree} {T : Shape Node} (h : Repr s T) :
    T.inorder.length ≤ s.arena.live.length := by
  rw [← addrs_length]
  exact (List.subperm_of_subset h.nodup h.live).length_le

theorem Repr.pathLength_le {s : Rbtree} {path : Path Node}
    {t : Shape Node} (h : Repr s (fill path t)) :
    path.length ≤ s.arena.live.length := by
  have hlabels : path.length ≤ (Path.labels path).length := by
    clear h
    induction path with
    | nil => simp
    | cons f fs ih =>
        simp only [Path.labels, List.length_cons, List.length_append]
        omega
  have hperm := (inorder_fill_perm path t).length_eq
  rw [List.length_append] at hperm
  have := h.length_le
  omega

theorem Repr.keyOf {s : Rbtree} {path : Path Node} {c : Color}
    {l r : Shape Node} {x : Node} (h : Repr s (fill path (.node c l x r)))
    (Q : CString → Rbtree → Prop) :
    Returns (keyOf x.addr) s Q ↔ Q x.text s := by
  have hkey := h.focusRep.1.key
  simp [Rbtree.keyOf, keyPtrOf, hkey]

/-- The heap holds `T`, and `T` is a red-black search tree under `strcmp`. -/
structure SearchTree (s : Rbtree) (T : Shape Node) : Prop where
  repr : Repr s T
  rootBlack : T.rootColor = .black
  balanced : ∃ n, T.Balanced n
  sorted : SortedBy Node.text T.inorder

/-- What a search for `key` in the tree `T` may answer. -/
inductive Located (nil : Addr) (T : Shape Node) (key : CString) :
    Addr → Prop
  | found {path : Path Node} {c : Color} {l r : Shape Node} {x : Node}
      (hT : T = fill path (.node c l x r)) (hkey : x.text = key)
      (hbrackets : Brackets Node.text path key) : Located nil T key x.addr
  | absent (hT : ∀ x ∈ T.inorder, x.text ≠ key) : Located nil T key nil

section Search

variable {s : Rbtree} {T : Shape Node} {key : CString}

/-- One test of the search loop at a focus that brackets the key. -/
theorem Repr.returns_searchStep (h : Repr s T)
    (hsorted : SortedBy Node.text T.inorder) {path : Path Node}
    {t : Shape Node} (hT : T = fill path t)
    (hbrackets : Brackets Node.text path key) :
    Returns (searchStep key (ptr s.nil t)) s (fun r s' => s' = s ∧
      match r with
      | .inl next => ∃ path' t', T = fill path' t' ∧
          Brackets Node.text path' key ∧ next = ptr s.nil t' ∧
          t'.height < t.height
      | .inr p => Located s.nil T key p) := by
  subst hT
  cases t with
  | leaf =>
      simp only [searchStep, nilOf, returns_bind, returns_get, returns_pure,
        ptr_leaf, ne_eq, not_true_eq_false, reduceIte]
      exact ⟨trivial, .absent hbrackets.ne_of_mem⟩
  | node c l x r =>
      have hcell := h.focusRep.1
      have hleft := hcell.near
      have hright := hcell.far
      simp only [Dir.flip] at hright
      have hneg := strcmp_neg_iff key x.text
      have hpos := strcmp_pos_iff key x.text
      simp only [searchStep, nilOf, returns_bind, returns_get, returns_pure,
        ptr_node, hcell.ne_nil, ne_eq, not_false_eq_true, reduceIte, h.keyOf]
      by_cases hlt : strcmp key x.text < 0
      · simp only [hlt, reduceIte, returns_bind, childOf, returns_load, hleft,
          Option.some.injEq, exists_eq_left', returns_pure]
        refine ⟨trivial, ⟨.left, c, x, r⟩ :: path, l, rfl,
          brackets_left hsorted hbrackets (hneg.mp hlt), rfl, ?_⟩
        simp only [Shape.height]
        omega
      · simp only [hlt, reduceIte, returns_bind, h.keyOf]
        by_cases hgt : strcmp key x.text > 0
        · simp only [hgt, reduceIte, returns_bind, childOf, returns_load,
            hright, Option.some.injEq, exists_eq_left', returns_pure]
          refine ⟨trivial, ⟨.right, c, x, l⟩ :: path, r, rfl,
            brackets_right hsorted hbrackets (hpos.mp hgt), rfl, ?_⟩
          simp only [Shape.height]
          omega
        · simp only [hgt, reduceIte, returns_pure]
          have heq : key = x.text := by
            rw [← strcmp_eq_zero_iff]
            omega
          exact ⟨trivial, .found rfl heq.symm hbrackets⟩

theorem Repr.returns_search (h : Repr s T)
    (hsorted : SortedBy Node.text T.inorder) (key : CString) :
    Returns (rbtreeSearch key) s (fun p s' =>
      s' = s ∧ Located s.nil T key p) := by
  unfold rbtreeSearch
  simp only [loopFuel, rootOf, returns_bind, returns_get, returns_pure, h.root]
  refine iterate_returns
    (fun k node s₁ => s₁ = s ∧ ∃ path t, T = fill path t ∧
      Brackets Node.text path key ∧ node = ptr s.nil t ∧ t.height ≤ k)
    ?_ (k := T.height) ?_ ?_
  · rintro k node s₁ ⟨rfl, path, t, hT, hbrackets, rfl, hk⟩
    apply (h.returns_searchStep hsorted hT hbrackets).mono
    rintro r s' ⟨rfl, hr⟩
    cases r with
    | inl next =>
        obtain ⟨path', t', hT', hbrackets', hnext, hheight⟩ := hr
        exact ⟨k - 1, by omega, rfl, path', t', hT', hbrackets', hnext,
          by omega⟩
    | inr p => exact ⟨rfl, hr⟩
  · exact ⟨rfl, [], T, rfl, brackets_nil key, rfl, le_refl _⟩
  · have hheight := T.height_le_length
    have hlength := h.length_le
    omega

end Search

/-! ## The leftmost node of a subtree -/

def AllLeft (path : Path Node) : Prop := ∀ f ∈ path, f.dir = .left

theorem Repr.returns_mini {s : Rbtree} {path : Path Node} {t : Shape Node}
    (h : Repr s (fill path t)) (ht : t ≠ .leaf) :
    Returns (rbtreeMini (ptr s.nil t)) s (fun p s' => s' = s ∧
      ∃ fs c x r, t = fill fs (.node c .leaf x r) ∧ AllLeft fs ∧
        p = x.addr) := by
  unfold rbtreeMini
  simp only [loopFuel, returns_bind, returns_get, returns_pure]
  refine iterate_returns
    (fun k node s₁ => s₁ = s ∧ ∃ fs t', t = fill fs t' ∧
      AllLeft fs ∧ t' ≠ .leaf ∧ node = ptr s.nil t' ∧ t'.height ≤ k)
    ?_ (k := t.height) ?_ ?_
  · rintro k node s₁ ⟨rfl, fs, t', hfill, hleft, ht', rfl, hk⟩
    cases t' with
    | leaf => exact absurd rfl ht'
    | node c l x r =>
        have hfocus : Repr s₁ (fill (fs ++ path) (.node c l x r)) := by
          rwa [fill_append, ← hfill]
        have hcell := hfocus.focusRep.1
        have hchild := hcell.near
        simp only [extremeStep, childOf, nilOf, returns_bind, returns_load,
          returns_get, returns_pure, ptr_node, hchild, Option.some.injEq,
          exists_eq_left']
        by_cases hl : l = .leaf
        · subst hl
          simp only [ptr_leaf, ne_eq, not_true_eq_false, reduceIte,
            returns_pure]
          exact ⟨trivial, fs, c, x, r, hfill, hleft, rfl⟩
        · have hne : ptr s₁.nil l ≠ s₁.nil := by
            apply hfocus.focus_ne_nil
            simp [addrs, Shape.inorder]
            exact Or.inl (by simpa [addrs] using ptr_mem_addrs hl)
          simp only [hne, ne_eq, not_false_eq_true, reduceIte, returns_pure]
          refine ⟨k - 1, ?_, trivial, ⟨.left, c, x, r⟩ :: fs, l, hfill, ?_, hl,
            rfl, ?_⟩
          · simp only [Shape.height] at hk
            omega
          · intro f hf
            rcases List.mem_cons.mp hf with rfl | hf
            · rfl
            · exact hleft f hf
          · simp only [Shape.height] at hk
            omega
  · exact ⟨rfl, [], t, rfl, by simp [AllLeft], ht, rfl, le_refl _⟩
  · have hheight := t.height_le_length
    have hperm := (inorder_fill_perm path t).length_eq
    rw [List.length_append] at hperm
    have hlength := h.length_le
    omega

/-- The successor of a node with a right child is the leftmost node of its
right subtree. -/
theorem Repr.returns_successor {s : Rbtree} {path : Path Node} {c : Color}
    {l r : Shape Node} {x : Node} (h : Repr s (fill path (.node c l x r)))
    (hr : r ≠ .leaf) :
    Returns (rbtreeSuccessor x.addr) s (fun p s' => s' = s ∧
      ∃ fs c' y b, r = fill fs (.node c' .leaf y b) ∧ AllLeft fs ∧
        p = y.addr) := by
  have hcell := h.focusRep.1
  have hright := hcell.far
  simp only [Dir.flip] at hright
  have hfocus : Repr s (fill (⟨.right, c, x, l⟩ :: path) r) := h
  have hne : ptr s.nil r ≠ s.nil := by
    apply hfocus.focus_ne_nil
    exact ptr_mem_addrs hr
  simp only [rbtreeSuccessor, parentOf, childOf, nilOf, returns_bind,
    returns_load, returns_get, returns_pure, hcell.parent, hright,
    Option.some.injEq, exists_eq_left', ne_eq, hne, not_false_eq_true,
    reduceIte]
  exact hfocus.returns_mini hr

end CAdvanced
