import CAdvanced.NtyRotation
import CAdvanced.OrderedIndex

/-!
# Lookup in the coroutine library's trees

The loops of `RB_FIND`, `RB_NFIND` and `RB_MINMAX` go down from the root, and
what they find is what a search of the ordered list of the elements finds.  The
height of the tree bounds their turns.
-/

namespace CAdvanced

open Fallible
open LinkedTree
open RedBlack

namespace NtyTree

variable {ν : Type} {κ : Type} [LinearOrder κ]

/-- The comparison function tells how a key lies to the keys of the nodes. -/
structure Compares (key : ν → κ) (k : κ) (cmp : ν → ℤ) : Prop where
  neg : ∀ y, cmp y < 0 ↔ k < key y
  pos : ∀ y, 0 < cmp y ↔ key y < k

/-- The comparison tells on which side of its last node the path goes on. -/
def Aims (path : Path ν) (comp : ℤ) : Prop :=
  ∀ f ∈ path.head?, (comp < 0 ↔ f.dir = .left)

section Descent

variable {key : ν → κ} {k : κ} {cmp : ν → ℤ} {s : Heap ν} {T t : Shape ν}
  {path : Path ν} {c : Color} {l r : Shape ν} {x : ν}

theorem Compares.eq (h : Compares key k cmp) {y : ν} (hneg : ¬ cmp y < 0)
    (hpos : ¬ 0 < cmp y) : key y = k := by
  rw [h.neg] at hneg
  rw [h.pos] at hpos
  exact le_antisymm (not_lt.mp hneg) (not_lt.mp hpos)

theorem mem_fill_node : x ∈ (fill path (.node c l x r)).inorder := by
  rw [inorder_fill]
  simp [Shape.inorder]

/-- A node of the tree, and what stands before and behind it. -/
theorem inorder_focus (path : Path ν) (c : Color) (l r : Shape ν) (x : ν) :
    (fill path (.node c l x r)).inorder =
      (Path.before path ++ l.inorder) ++ x :: (r.inorder ++ Path.after path) := by
  simp [inorder_fill, Shape.inorder]

/-- A loop that looks for a key goes on with a smaller subtree `t'`. -/
structure GoesDown (key : ν → κ) (k : κ) (T t : Shape ν) (path' : Path ν)
    (t' : Shape ν) : Prop where
  tree : T = fill path' t'
  brackets : Brackets key path' k
  height : t'.height < t.height

theorem goesDown_left (hsorted : SortedBy key T.inorder)
    (hT : T = fill path (.node c l x r)) (hk : Brackets key path k)
    (hlt : k < key x) :
    GoesDown key k T (.node c l x r) (⟨.left, c, x, r⟩ :: path) l where
  tree := hT
  brackets := brackets_left (hT ▸ hsorted) hk hlt
  height := by
    simp only [Shape.height]
    omega

theorem goesDown_right (hsorted : SortedBy key T.inorder)
    (hT : T = fill path (.node c l x r)) (hk : Brackets key path k)
    (hlt : key x < k) :
    GoesDown key k T (.node c l x r) (⟨.right, c, x, l⟩ :: path) r where
  tree := hT
  brackets := brackets_right (hT ▸ hsorted) hk hlt
  height := by
    simp only [Shape.height]
    omega

/-- The children of a node that a loop stands at. -/
theorem returns_rbChild_node (h : Represents s T)
    (hT : T = fill path (.node c l x r)) (d : Dir)
    (Q : Option ν → Heap ν → Prop) :
    Returns (rbChild d (some x)) s Q ↔
      Q (match d with | .left => top l | .right => top r) s := by
  subst hT
  rw [returns_rbChild h.focusRep.1]
  cases d <;> rfl

theorem returns_searchStep (h : Represents s T)
    (hsorted : SortedBy key T.inorder) (hcmp : Compares key k cmp) {comp : ℤ}
    (hT : T = fill path t) (hk : Brackets key path k) (haims : Aims path comp) :
    Returns (searchStep cmp (holder path, comp, top t)) s (fun r s' => s' = s ∧
      match r with
      | .inl next => ∃ path' t' comp', T = fill path' t' ∧
          Brackets key path' k ∧ Aims path' comp' ∧
          next = (holder path', comp', top t') ∧ t'.height < t.height
      | .inr (.inl y) => y ∈ T.inorder ∧ key y = k
      | .inr (.inr (parent, comp)) => ∃ path', T = fill path' .leaf ∧
          Brackets key path' k ∧ Aims path' comp ∧ parent = holder path') := by
  cases t with
  | leaf =>
      rw [top_leaf, searchStep, returns_pure]
      exact ⟨rfl, path, hT, hk, haims, rfl⟩
  | node c l x r =>
      rw [top, searchStep]
      by_cases hneg : cmp x < 0
      · rw [if_pos hneg, returns_bind, returns_rbChild_node h hT, returns_pure]
        have hdown := goesDown_left hsorted hT hk ((hcmp.neg x).mp hneg)
        refine ⟨rfl, _, l, cmp x, hdown.tree, hdown.brackets, ?_, rfl,
          hdown.height⟩
        rintro f ⟨⟩
        exact iff_of_true hneg rfl
      · by_cases hpos : 0 < cmp x
        · rw [if_neg hneg, if_pos hpos, returns_bind,
            returns_rbChild_node h hT, returns_pure]
          have hdown := goesDown_right hsorted hT hk ((hcmp.pos x).mp hpos)
          refine ⟨rfl, _, r, cmp x, hdown.tree, hdown.brackets, ?_, rfl,
            hdown.height⟩
          rintro f ⟨⟩
          exact iff_of_false hneg (by simp)
        · rw [if_neg hneg, if_neg hpos, returns_pure]
          refine ⟨rfl, ?_, hcmp.eq hneg hpos⟩
          rw [hT]
          exact mem_fill_node

theorem returns_search {fuel : ℕ} (h : Represents s T)
    (hsorted : SortedBy key T.inorder) (hcmp : Compares key k cmp)
    (hfuel : T.height < fuel) :
    Returns (search fuel cmp) s (fun r s' => s' = s ∧
      match r with
      | .inl y => y ∈ T.inorder ∧ key y = k
      | .inr (parent, comp) => ∃ path, T = fill path .leaf ∧
          Brackets key path k ∧ Aims path comp ∧ parent = holder path) := by
  rw [search, returns_bind, returns_rbRoot, h.root]
  apply iterate_returns
    (fun m x s' => s' = s ∧ ∃ path t comp, T = fill path t ∧
      Brackets key path k ∧ Aims path comp ∧ x = (holder path, comp, top t) ∧
      t.height ≤ m)
    ?_ ⟨rfl, [], T, 0, rfl, brackets_nil k, by simp [Aims], rfl, le_refl _⟩
    hfuel
  rintro m x s' ⟨rfl, path, t, comp, hT, hk, haims, rfl, hm⟩
  apply (returns_searchStep h hsorted hcmp hT hk haims).mono
  rintro r s'' ⟨rfl, hr⟩
  cases r with
  | inl next =>
      obtain ⟨path', t', comp', hT', hk', haims', hnext, hheight⟩ := hr
      exact ⟨m - 1, by omega, rfl, path', t', comp', hT', hk', haims', hnext,
        by omega⟩
  | inr answer =>
      cases answer with
      | inl y => exact ⟨rfl, hr⟩
      | inr hole => exact ⟨rfl, hr⟩

theorem returns_rbFind {fuel : ℕ} (h : Represents s T)
    (hsorted : SortedBy key T.inorder) (hcmp : Compares key k cmp)
    (hfuel : T.height < fuel) :
    Returns (rbFind fuel cmp) s (fun answer s' => s' = s ∧
      answer = OrderedIndex.find key k T.inorder) := by
  rw [rbFind, returns_bind]
  apply (returns_search h hsorted hcmp hfuel).mono
  rintro r s' ⟨rfl, hr⟩
  cases r with
  | inl y =>
      rw [returns_pure]
      exact ⟨rfl, ((OrderedIndex.find_eq_some hsorted).mpr hr).symm⟩
  | inr hole =>
      obtain ⟨path, rfl, hk, -⟩ := hr
      rw [returns_pure]
      exact ⟨rfl, (OrderedIndex.find_eq_none.mpr hk.ne_of_mem).symm⟩

/-- The least element that is not below the key. -/
theorem returns_nfindStep (h : Represents s T)
    (hsorted : SortedBy key T.inorder) (hcmp : Compares key k cmp)
    (hT : T = fill path t) (hk : Brackets key path k) :
    Returns (nfindStep cmp ((Path.after path).head?, top t)) s (fun r s' =>
      s' = s ∧
      match r with
      | .inl next => ∃ path' t', T = fill path' t' ∧ Brackets key path' k ∧
          next = ((Path.after path').head?, top t') ∧ t'.height < t.height
      | .inr y => y = OrderedIndex.findFrom key k T.inorder) := by
  cases t with
  | leaf =>
      rw [top_leaf, nfindStep, returns_pure]
      refine ⟨rfl, ?_⟩
      rw [hT, inorder_fill, Shape.inorder_leaf, List.append_nil,
        OrderedIndex.findFrom_append hk.1]
      intro y hy
      exact (hk.2 y (List.mem_of_mem_head? hy)).le
  | node c l x r =>
      rw [top, nfindStep]
      by_cases hneg : cmp x < 0
      · rw [if_pos hneg, returns_bind, returns_rbChild_node h hT, returns_pure]
        have hdown := goesDown_left hsorted hT hk ((hcmp.neg x).mp hneg)
        exact ⟨rfl, _, l, hdown.tree, hdown.brackets, rfl, hdown.height⟩
      · by_cases hpos : 0 < cmp x
        · rw [if_neg hneg, if_pos hpos, returns_bind,
            returns_rbChild_node h hT, returns_pure]
          have hdown := goesDown_right hsorted hT hk ((hcmp.pos x).mp hpos)
          exact ⟨rfl, _, r, hdown.tree, hdown.brackets, rfl, hdown.height⟩
        · rw [if_neg hneg, if_neg hpos, returns_pure]
          have heq := hcmp.eq hneg hpos
          rw [hT, inorder_focus] at hsorted ⊢
          refine ⟨rfl, ?_⟩
          rw [OrderedIndex.findFrom_append, List.head?_cons]
          · intro y hy
            rw [← heq]
            exact (List.pairwise_append.mp hsorted).2.2 y hy x
              List.mem_cons_self
          · rintro y ⟨⟩
            exact heq.ge

theorem returns_rbNfind {fuel : ℕ} (h : Represents s T)
    (hsorted : SortedBy key T.inorder) (hcmp : Compares key k cmp)
    (hfuel : T.height < fuel) :
    Returns (rbNfind fuel cmp) s (fun answer s' => s' = s ∧
      answer = OrderedIndex.findFrom key k T.inorder) := by
  rw [rbNfind, returns_bind, returns_rbRoot, h.root]
  apply iterate_returns
    (fun m x s' => s' = s ∧ ∃ path t, T = fill path t ∧ Brackets key path k ∧
      x = ((Path.after path).head?, top t) ∧ t.height ≤ m)
    ?_ ⟨rfl, [], T, rfl, brackets_nil k, rfl, le_refl _⟩ hfuel
  rintro m x s' ⟨rfl, path, t, hT, hk, rfl, hm⟩
  apply (returns_nfindStep h hsorted hcmp hT hk).mono
  rintro r s'' ⟨rfl, hr⟩
  cases r with
  | inl next =>
      obtain ⟨path', t', hT', hk', hnext, hheight⟩ := hr
      exact ⟨m - 1, by omega, rfl, path', t', hT', hk', hnext, by omega⟩
  | inr answer => exact ⟨rfl, hr⟩

end Descent

/-! ## The ends of a tree -/

/-- All steps of the path go in the same direction. -/
def Along (d : Dir) (path : Path ν) : Prop := ∀ f ∈ path, f.dir = d

/-- The element at the end of a list that lies in direction `d`. -/
def endOf (d : Dir) (labels : List ν) : Option ν :=
  match d with
  | .left => labels.head?
  | .right => labels.getLast?

section Ends

variable {s : Heap ν} {T t : Shape ν} {path : Path ν} {d : Dir}

theorem before_of_along (h : Along .left path) : Path.before path = [] := by
  induction path with
  | nil => rfl
  | cons f fs ih =>
      rw [Path.before, h f (by simp)]
      exact ih (fun g hg => h g (List.mem_cons_of_mem f hg))

theorem after_of_along (h : Along .right path) : Path.after path = [] := by
  induction path with
  | nil => rfl
  | cons f fs ih =>
      rw [Path.after, h f (by simp)]
      exact ih (fun g hg => h g (List.mem_cons_of_mem f hg))

theorem endOf_fill_leaf (h : Along d path) :
    endOf d (fill path .leaf).inorder = holder path := by
  cases d with
  | left =>
      rw [endOf, inorder_fill, before_of_along h]
      cases path with
      | nil => rfl
      | cons f fs => simp [Path.after, h f (by simp)]
  | right =>
      rw [endOf, inorder_fill, after_of_along h]
      cases path with
      | nil => rfl
      | cons f fs => simp [Path.before, h f (by simp)]

theorem returns_minmaxStep (h : Represents s T) (hT : T = fill path t)
    (halong : Along d path) :
    Returns (minmaxStep d (holder path, top t)) s (fun r s' => s' = s ∧
      match r with
      | .inl next => ∃ path' t', T = fill path' t' ∧ Along d path' ∧
          next = (holder path', top t') ∧ t'.height < t.height
      | .inr y => y = endOf d T.inorder) := by
  by_cases hleaf : t = .leaf
  · subst hleaf
    rw [top_leaf, minmaxStep, returns_pure]
    refine ⟨rfl, ?_⟩
    rw [hT, endOf_fill_leaf halong]
  · obtain ⟨c, a, x, b, rfl⟩ := Shape.exists_branch d hleaf
    have hfocus := h
    rw [hT] at hfocus
    rw [top_branch, minmaxStep, returns_bind, returns_rbChild hfocus.entry,
      Entry.child_towards, returns_pure]
    refine ⟨rfl, ⟨d, c, x, b⟩ :: path, a, hT, ?_, rfl, ?_⟩
    · intro f hf
      rcases List.mem_cons.mp hf with rfl | hf
      · rfl
      · exact halong f hf
    · rw [Shape.height_branch]
      omega

theorem returns_rbMinmax {fuel : ℕ} (h : Represents s T)
    (hfuel : T.height < fuel) :
    Returns (rbMinmax fuel d) s (fun answer s' => s' = s ∧
      answer = endOf d T.inorder) := by
  rw [rbMinmax, returns_bind, returns_rbRoot, h.root]
  apply iterate_returns
    (fun m x s' => s' = s ∧ ∃ path t, T = fill path t ∧ Along d path ∧
      x = (holder path, top t) ∧ t.height ≤ m)
    ?_ ⟨rfl, [], T, rfl, by simp [Along], rfl, le_refl _⟩ hfuel
  rintro m x s' ⟨rfl, path, t, hT, halong, rfl, hm⟩
  apply (returns_minmaxStep h hT halong).mono
  rintro r s'' ⟨rfl, hr⟩
  cases r with
  | inl next =>
      obtain ⟨path', t', hT', halong', hnext, hheight⟩ := hr
      exact ⟨m - 1, by omega, rfl, path', t', hT', halong', hnext, by omega⟩
  | inr answer => exact ⟨rfl, hr⟩

end Ends

end NtyTree

end CAdvanced
