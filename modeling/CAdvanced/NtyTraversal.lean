import CAdvanced.NtyLookup

/-!
# Neighbours in the coroutine library's trees

`RB_NEXT` and `RB_PREV` follow the links from a node to the one behind or before
it: down into the subtree on that side, or up to the first node that is passed
on that side.
-/

namespace CAdvanced

open Fallible
open LinkedTree
open RedBlack

namespace NtyTree

variable {ν : Type} [DecidableEq ν]

section Outermost

variable {s : Heap ν} {path : Path ν} {d : Dir} {t : Shape ν} {fuel : ℕ}

omit [DecidableEq ν] in
/-- The loop goes down on one side to the outermost node of the subtree. -/
theorem returns_outermost (h : Represents s (fill path t)) (ht : t ≠ .leaf)
    (hfuel : t.height < fuel) :
    Returns (iterate (outermostStep d) fuel (top t)) s (fun elm s' => s' = s ∧
      ∃ fs c y b, t = fill fs (Shape.branch d c .leaf y b) ∧ Along d fs ∧
        elm = some y) := by
  apply iterate_returns
    (fun k elm s' => s' = s ∧ ∃ fs t', t = fill fs t' ∧ Along d fs ∧
      t' ≠ .leaf ∧ elm = top t' ∧ t'.height ≤ k)
    ?_ ⟨rfl, [], t, rfl, by simp [Along], ht, rfl, le_refl _⟩ hfuel
  rintro k elm s' ⟨rfl, fs, t', rfl, halong, hne, rfl, hk⟩
  obtain ⟨c, a, y, b, rfl⟩ := Shape.exists_branch d hne
  rw [← fill_append] at h
  rw [top_branch, outermostStep, returns_bind, returns_rbChild h.entry,
    Entry.child_towards]
  by_cases hleaf : a = .leaf
  · subst hleaf
    rw [top_leaf, if_neg (by simp), returns_pure]
    exact ⟨rfl, fs, c, y, b, rfl, halong, rfl⟩
  · rw [Shape.height_branch] at hk
    rw [if_pos (top_isSome hleaf), returns_pure]
    refine ⟨k - 1, by omega, rfl, ⟨d, c, y, b⟩ :: fs, a, rfl, ?_, hleaf, rfl,
      by omega⟩
    intro f hf
    rcases List.mem_cons.mp hf with rfl | hf
    · rfl
    · exact halong f hf

end Outermost

/-! ## Upwards -/

/-- The first node above the hole that lies in direction `d` of it. -/
def nextAbove (d : Dir) : Path ν → Option ν
  | [] => none
  | f :: fs => if f.dir = d then nextAbove d fs else some f.label

section Ascend

variable {s : Heap ν} {path : Path ν} {d : Dir} {t : Shape ν} {fuel : ℕ}

omit [DecidableEq ν] in
theorem nextAbove_right (path : Path ν) :
    nextAbove .right path = (Path.after path).head? := by
  induction path with
  | nil => rfl
  | cons f fs ih =>
      rw [nextAbove, Path.after]
      cases f.dir with
      | left => simp
      | right => simpa using ih

omit [DecidableEq ν] in
theorem nextAbove_left (path : Path ν) :
    nextAbove .left path = (Path.before path).getLast? := by
  induction path with
  | nil => rfl
  | cons f fs ih =>
      rw [nextAbove, Path.before]
      cases f.dir with
      | left => simpa using ih
      | right => simp

/-- The node above the focus, if the path has come down in direction `d`. -/
theorem returns_isChild (h : Represents s (fill path t)) (ht : t ≠ .leaf)
    (Q : Bool → Heap ν → Prop) :
    Returns (isChild d (top t)) s Q ↔
      Q (decide (path.head?.map Frame.dir = some d)) s := by
  rw [isChild, returns_bind, returns_rbParent_top h ht]
  cases path with
  | nil => simp
  | cons f fs =>
      have hiff := h.child_holder_eq_iff (.inl ht) d
      rw [holder_cons, Option.isSome_some, if_pos rfl, returns_bind,
        returns_rbChild h.entry_holder, returns_pure]
      have heq : (top t = (Entry.towards f.dir (top t) (top f.sibling)
          (holder fs) f.color).child d) ↔
          ((f :: fs).head?.map Frame.dir = some d) := by
        rw [eq_comm, hiff]
        simp
      rw [decide_eq_decide.mpr heq]

/-- The loop goes up as long as the path has come down in direction `d`. -/
theorem returns_ascend (h : Represents s (fill path t)) (ht : t ≠ .leaf)
    (hfuel : path.length < fuel) :
    Returns (do rbParent (← iterate (ascendStep d) fuel (top t))) s
      (fun answer s' => s' = s ∧ answer = nextAbove d path) := by
  rw [returns_bind]
  refine iterate_returns
    (fun k elm s' => s' = s ∧ ∃ path' t', Represents s (fill path' t') ∧
      t' ≠ .leaf ∧ elm = top t' ∧ nextAbove d path' = nextAbove d path ∧
      path'.length ≤ k)
    ?_ ⟨rfl, path, t, h, ht, rfl, rfl, le_refl _⟩ hfuel
  rintro k elm s' ⟨rfl, path', t', h', ht', rfl, habove, hk⟩
  rw [ascendStep, returns_bind, returns_isChild h' ht']
  have hparent := returns_rbParent_top h' ht'
  cases path' with
  | nil =>
      rw [if_neg (by simp), returns_pure]
      exact (hparent _).mpr ⟨rfl, habove⟩
  | cons f fs =>
      by_cases hdir : f.dir = d
      · rw [List.length_cons] at hk
        rw [nextAbove, if_pos hdir] at habove
        rw [if_pos (by simp [hdir]), returns_bind, hparent, returns_pure]
        exact ⟨k - 1, by omega, rfl, fs, f.plug t', h', branch_ne_leaf _ _ _ _ _,
          (top_branch _ _ _ _ _).symm, habove, by omega⟩
      · rw [nextAbove, if_neg hdir] at habove
        rw [if_neg (by simp [hdir]), returns_pure]
        exact (hparent _).mpr ⟨rfl, habove⟩

end Ascend

/-! ## Neighbours -/

section Neighbours

variable {s : Heap ν} {path : Path ν} {d : Dir} {c : Color}
  {near far l r : Shape ν} {x : ν} {fuel : ℕ}

omit [DecidableEq ν] in
theorem endOf_outermost {fs : Path ν} {y : ν} {b : Shape ν} (h : Along d fs) :
    endOf d (fill fs (Shape.branch d c .leaf y b)).inorder = some y := by
  have hplug : Shape.branch d c .leaf y b =
      fill [⟨d, c, y, b⟩] (.leaf : Shape ν) := rfl
  rw [hplug, ← fill_append]
  apply endOf_fill_leaf
  intro f hf
  rcases List.mem_cons.mp hf with rfl | hf
  · rfl
  · exact h f hf

/-- The next node in direction `d`: the nearest one of the subtree there, or the
first one above. -/
theorem returns_rbAdvance
    (h : Represents s (fill path (Shape.branch d c near x far)))
    (hfuel : (fill path (Shape.branch d c near x far)).height < fuel) :
    Returns (rbAdvance fuel d (some x)) s (fun answer s' => s' = s ∧
      answer = (endOf d.flip near.inorder).or (nextAbove d path)) := by
  have hheight := length_add_height_le path (Shape.branch d c near x far)
  rw [Shape.height_branch] at hheight
  have hx : Shape.branch d c near x far ≠ .leaf := branch_ne_leaf _ _ _ _ _
  have htop : top (Shape.branch d c near x far) = some x := top_branch _ _ _ _ _
  rw [rbAdvance, returns_bind, returns_rbChild h.entry, Entry.child_towards]
  by_cases hnear : near = .leaf
  · subst hnear
    have hlength : path.length < fuel := by omega
    have hascend := returns_ascend (d := d) h hx hlength
    have hchild := returns_isChild (d := d.flip) h hx
    have hparent := returns_rbParent_top h hx
    rw [htop] at hascend hchild hparent
    rw [top_leaf, if_neg (by simp), returns_bind, hchild]
    have hend : endOf d.flip (Shape.leaf : Shape ν).inorder = none := by
      cases d <;> rfl
    rw [hend, Option.none_or]
    by_cases hside : path.head?.map Frame.dir = some d.flip
    · rw [if_pos (decide_eq_true hside), hparent]
      refine ⟨rfl, ?_⟩
      cases path with
      | nil => rfl
      | cons f fs =>
          have hdir : f.dir = d.flip := Option.some.inj hside
          rw [nextAbove, if_neg (by rw [hdir]; exact Dir.flip_ne d)]
          rfl
    · rw [if_neg (by simpa using hside)]
      exact hascend
  · have hbelow : Represents s (fill (⟨d, c, x, far⟩ :: path) near) := h
    rw [if_pos (top_isSome hnear)]
    apply (returns_outermost hbelow hnear (by omega)).mono
    rintro elm s' ⟨rfl, fs, c', y, b, rfl, halong, rfl⟩
    rw [endOf_outermost halong]
    exact ⟨rfl, rfl⟩

section Ordered

variable {κ : Type} [LinearOrder κ] {key : ν → κ} {T : Shape ν}

theorem returns_rbNext (h : Represents s T) (hsorted : SortedBy key T.inorder)
    (hx : x ∈ T.inorder) (hfuel : T.height < fuel) :
    Returns (rbNext fuel (some x)) s (fun answer s' => s' = s ∧
      answer = OrderedIndex.next key x T.inorder) := by
  obtain ⟨path, c, l, r, rfl⟩ := exists_fill_of_mem hx
  rw [inorder_focus] at hsorted ⊢
  rw [OrderedIndex.next_append hsorted, List.head?_append, ← nextAbove_right]
  exact returns_rbAdvance (d := .right) h hfuel

theorem returns_rbPrev (h : Represents s T) (hsorted : SortedBy key T.inorder)
    (hx : x ∈ T.inorder) (hfuel : T.height < fuel) :
    Returns (rbPrev fuel (some x)) s (fun answer s' => s' = s ∧
      answer = OrderedIndex.prev key x T.inorder) := by
  obtain ⟨path, c, l, r, rfl⟩ := exists_fill_of_mem hx
  rw [inorder_focus] at hsorted ⊢
  rw [OrderedIndex.prev_append hsorted, List.getLast?_append,
    ← nextAbove_left]
  exact returns_rbAdvance (d := .left) h hfuel

end Ordered

end Neighbours

end NtyTree

end CAdvanced
