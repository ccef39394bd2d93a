import CAdvanced.RbtreeInsertion
import CAdvanced.RbtreeLookup

/-!
# Inserting a node

`rbtree_insert` descends to the hole that the new key belongs into, hangs a red
node there and hands it to the repair.
-/

namespace CAdvanced

open Fallible
open RedBlack
open Rbtree

/-- A node with key and value that no tree node names yet. -/
structure Unlinked (s : Rbtree) (T : Shape Node) (z : Node) : Prop where
  fresh : z.addr ∉ addrs T
  ne_nil : z.addr ≠ s.nil
  live : z.addr ∈ s.arena.live
  key : s.key z.addr = some (some z.key)
  value : s.value z.addr = some z.value

section Attach

variable {s : Rbtree} {T : Shape Node} {z : Node} {path : Path Node}

theorem Unlinked.returns_keyOf (hz : Unlinked s T z)
    (Q : CString → Rbtree → Prop) :
    Returns (keyOf z.addr) s Q ↔ Q z.text s := by
  simp [keyOf, keyPtrOf, hz.key]

theorem SearchTree.returns_insertDescentStep (h : SearchTree s T)
    (hz : Unlinked s T z) (habsent : ∀ x ∈ T.inorder, x.text ≠ z.text)
    {t : Shape Node} (hT : T = fill path t)
    (hbrackets : Brackets Node.text path z.text) :
    Returns (insertDescentStep z.addr (holder s.nil path, ptr s.nil t)) s
      (fun r s' => s' = s ∧
        match r with
        | .inl next => ∃ path' t', T = fill path' t' ∧
            Brackets Node.text path' z.text ∧
            next = (holder s.nil path', ptr s.nil t') ∧ t'.height < t.height
        | .inr y => ∃ path', T = fill path' .leaf ∧
            Brackets Node.text path' z.text ∧
            y = some (holder s.nil path')) := by
  cases t with
  | leaf =>
      simp only [insertDescentStep, nilOf, returns_bind, returns_get,
        returns_pure, ptr_leaf, ne_eq, not_true_eq_false, reduceIte]
      exact ⟨trivial, path, hT, hbrackets, rfl⟩
  | node c l x r =>
      have hrepr := h.repr
      have hsorted := h.sorted
      rw [hT] at hrepr hsorted
      have hcell := hrepr.focusRep.1
      have hleft := hcell.near
      have hright := hcell.far
      simp only [Dir.flip] at hright
      have hneg := strcmp_neg_iff z.text x.text
      have hpos := strcmp_pos_iff z.text x.text
      simp only [insertDescentStep, nilOf, returns_bind, returns_get,
        returns_pure, ptr_node, hcell.ne_nil, ne_eq, not_false_eq_true,
        reduceIte, hz.returns_keyOf, hrepr.keyOf]
      by_cases hlt : strcmp z.text x.text < 0
      · simp only [hlt, reduceIte, returns_bind, childOf, returns_load, hleft,
          Option.some.injEq, exists_eq_left', returns_pure]
        refine ⟨trivial, ⟨.left, c, x, r⟩ :: path, l, hT,
          brackets_left hsorted hbrackets (hneg.mp hlt), rfl, ?_⟩
        simp only [Shape.height]
        omega
      · simp only [hlt, reduceIte, returns_bind, hz.returns_keyOf,
          hrepr.keyOf]
        by_cases hgt : strcmp z.text x.text > 0
        · simp only [hgt, reduceIte, returns_bind, childOf, returns_load,
            hright, Option.some.injEq, exists_eq_left', returns_pure]
          refine ⟨trivial, ⟨.right, c, x, l⟩ :: path, r, hT,
            brackets_right hsorted hbrackets (hpos.mp hgt), rfl, ?_⟩
          simp only [Shape.height]
          omega
        · have heq : z.text = x.text := by
            rw [← strcmp_eq_zero_iff]
            omega
          have hmem : x ∈ T.inorder := by
            rw [hT, inorder_fill]
            simp [Shape.inorder]
          exact absurd heq.symm (habsent x hmem)

theorem SearchTree.returns_descent (h : SearchTree s T)
    (hz : Unlinked s T z) (habsent : ∀ x ∈ T.inorder, x.text ≠ z.text) :
    Returns (iterate (insertDescentStep z.addr) (s.arena.live.length + 1)
      (s.nil, s.root)) s (fun r s' => s' = s ∧ ∃ path,
        T = fill path .leaf ∧ Brackets Node.text path z.text ∧
          r = some (holder s.nil path)) := by
  refine iterate_returns
    (fun k p s₁ => s₁ = s ∧ ∃ path t, T = fill path t ∧
      Brackets Node.text path z.text ∧
      p = (holder s.nil path, ptr s.nil t) ∧ t.height ≤ k)
    ?_ (k := T.height) ?_ ?_
  · rintro k p s₁ ⟨rfl, path, t, hT, hbrackets, rfl, hk⟩
    apply (h.returns_insertDescentStep hz habsent hT hbrackets).mono
    rintro r s' ⟨rfl, hr⟩
    cases r with
    | inl next =>
        obtain ⟨path', t', hT', hbrackets', hnext, hheight⟩ := hr
        exact ⟨k - 1, by omega, rfl, path', t', hT', hbrackets', hnext,
          by omega⟩
    | inr y => exact ⟨rfl, hr⟩
  · exact ⟨rfl, [], T, rfl, brackets_nil z.text, by rw [h.repr.root]; rfl,
      le_refl _⟩
  · have hheight := T.height_le_length
    have hlength := h.repr.length_le
    omega

/-- The key comparison below the last node picks the side of the hole. -/
theorem returns_attachBelow {q : Addr} (hpath : RepPath s path q)
    (hkey : s.key z.addr = some (some z.key))
    (hbrackets : Brackets Node.text path z.text)
    (Q : Unit → Rbtree → Prop) :
    Returns (attachBelow z.addr (holder s.nil path)) s Q ↔
      Q () (hang path z.addr s) := by
  cases path with
  | nil => simp [attachBelow, nilOf, setRoot, holder, hang]
  | cons f fs =>
      have hcell := hpath.1
      have hneg := strcmp_neg_iff z.text f.label.text
      obtain ⟨d, c, x, sib⟩ := f
      cases d with
      | left =>
          have hlt : z.text < x.text := hbrackets.2 x (by simp [Path.after])
          simp [attachBelow, nilOf, holder, hcell.ne_nil, keyOf, keyPtrOf,
            hkey, hcell.key, hneg.mpr hlt, setChild, isLive, hcell.live, hang]
      | right =>
          have hgt : x.text < z.text := hbrackets.1 x (by simp [Path.before])
          have hnot : ¬ strcmp z.text x.text < 0 := by
            rw [hneg]
            exact hgt.asymm
          simp [attachBelow, nilOf, holder, hcell.ne_nil, keyOf, keyPtrOf,
            hkey, hcell.key, hnot, setChild, isLive, hcell.live, hang]

/-- The state in which the repair of an insertion starts. -/
def attached (path : Path Node) (z : Addr) (s : Rbtree) : Rbtree :=
  withColor z .red
    (withChild .right z s.nil
      (withChild .left z s.nil
        (hang path z (withParent z (holder s.nil path) s))))

theorem Repr.afterAttach (h : Repr s (fill path .leaf))
    (hz : Unlinked s (fill path .leaf) z) :
    Repr (attached path z.addr s)
      (fill path (.node .red .leaf z .leaf)) := by
  have hpathNodup : (pathAddrs path).Nodup := by simpa using h.nodup_focus
  have hzpath : z.addr ∉ pathAddrs path := by
    intro hmem
    apply hz.fresh
    rw [(addrs_fill_perm path .leaf).mem_iff]
    simpa using hmem
  have hother : ∀ a ∈ pathAddrs path, a ≠ z.addr := by
    rintro a ha rfl
    exact hzpath ha
  apply Repr.of_focus
  · have hlinked : RepPath (withParent z.addr (holder s.nil path) s) path
        s.nil :=
      h.focusPath.frame rfl rfl
        (fun a ha => sameCell_withParent _ s (hother a ha))
    refine (hlinked.afterHang hpathNodup z.addr).frame ?_ ?_ ?_
    · simp [attached]
    · simp [attached]
    · intro a ha
      exact ((sameCell_withChild _ _ _ (hother a ha)).trans
        (sameCell_withChild _ _ _ (hother a ha))).trans
          (sameCell_withColor _ _ (hother a ha))
  · refine ⟨?_, trivial, trivial⟩
    exact
      { ne_nil := by simpa [attached] using hz.ne_nil
        live := by simpa [attached] using hz.live
        color := by simp [attached]
        near := by
          simp only [attached, withColor_child, withColor_nil, withChild_nil,
            hang_nil, withParent_nil, ptr_leaf]
          exact (child_flip_withChild .left _ _ _ _).trans (by simp)
        far := by simp [attached, Dir.flip]
        parent := by simp [attached]
        key := by simpa [attached] using hz.key
        value := by simpa [attached] using hz.value }
  · have : addrs (.node .red .leaf z .leaf) = [z.addr] := rfl
    rw [this]
    simpa using ⟨hzpath, hpathNodup⟩
  · simpa [attached, hz.ne_nil.symm] using h.nilBlack
  · simpa [attached] using h.nilLive

theorem Repr.keepsSentinel_attached (h : Repr s (fill path .leaf))
    (hz : z.addr ≠ s.nil) :
    KeepsSentinel s (attached path z.addr s) where
  arena := by simp [attached]
  nil := by simp [attached]
  count := by simp [attached]
  child := by
    intro d
    have hnil : s.nil ∉ pathAddrs path :=
      fun hmem => h.path_ne_nil _ hmem rfl
    simp only [attached, withColor_child]
    rw [child_withChild_of_ne _ _ _ _ hz.symm,
      child_withChild_of_ne _ _ _ _ hz.symm,
      hang_child_of_notMem _ _ _ hnil]
    rfl
  key := by simp [attached]
  value := by simp [attached]
  parent := by simp [attached, hz.symm]

/-- The focus with which the repair starts: a lone red node. -/
theorem SearchTree.insertFocus (h : SearchTree s (fill path .leaf))
    (hz : Unlinked s (fill path .leaf) z) :
    InsertFocus (Path.before path ++ z :: Path.after path) s
      ((path.length + 1) / 2) z.addr (attached path z.addr s) path
      (.node .red .leaf z .leaf) 0 := by
  obtain ⟨m, hbal⟩ := h.balanced
  obtain ⟨n, hleaf, hfits, -⟩ := fits_of_balanced hbal h.rootBlack
  rw [Shape.balanced_leaf] at hleaf
  subst hleaf
  exact
    { repr := h.repr.afterAttach hz
      loop := rfl
      red := rfl
      balanced := by simp [Shape.Balanced, Shape.rootColor]
      fits := hfits
      inorder := by simp [inorder_fill, Shape.inorder]
      keeps := h.repr.keepsSentinel_attached hz.ne_nil
      bound := fun _ => by omega }

/-- What a tree operation leaves: a search tree with the given nodes in
order, beside an unchanged header. -/
structure Updated (labels : List Node) (s s' : Rbtree) : Prop where
  keeps : KeepsHeader s s'
  tree : ∃ T', SearchTree s' T' ∧ T'.inorder = labels

/-- The repair takes at most one turn for every two nodes above the new one. -/
theorem SearchTree.returns_insert {c : Metered} (h : SearchTree c.tree T)
    (hz : Unlinked c.tree T z) (habsent : ∀ x ∈ T.inorder, x.text ≠ z.text) :
    Returns (Metered.rbtreeInsert z.addr) c (fun _ c' =>
      (∃ A B, T.inorder = A ++ B ∧
        Updated (A ++ z :: B) c.tree c'.tree) ∧
      c.Within ((T.height + 1) / 2) 2 c') := by
  simp only [Metered.rbtreeInsert, loopFuel, nilOf, rootOf, returns_bind,
    Metered.returns_run, Metered.withTree_self, returns_get, returns_pure]
  apply (h.returns_descent hz habsent).mono
  rintro r s₁ ⟨rfl, path, rfl, hbrackets, rfl⟩
  have hpath : RepPath (withParent z.addr (holder c.tree.nil path) c.tree) path
      c.tree.nil := by
    refine h.repr.focusPath.frame rfl rfl ?_
    intro a ha
    apply sameCell_withParent
    rintro rfl
    apply hz.fresh
    rw [(addrs_fill_perm path .leaf).mem_iff]
    simpa using ha
  have hattach := returns_attachBelow (z := z) hpath hz.key hbrackets
  simp only [setParent, returns_bind, returns_store, isLive, hz.live,
    Metered.returns_run, Metered.withTree_self, decide_true, true_and]
  rw [withParent_nil] at hattach
  rw [Metered.withTree_tree, hattach]
  simp only [setChild, setColor, returns_store, returns_get,
    returns_pure, Metered.withTree_tree, Metered.withTree_withTree, isLive,
    hang_arena, hang_nil, withChild_arena, withChild_nil, withParent_arena,
    withParent_nil, hz.live, decide_true, true_and]
  have hlength :
      path.length ≤ (attached path z.addr c.tree).arena.live.length := by
    rw [(h.repr.keepsSentinel_attached hz.ne_nil).arena]
    exact h.repr.pathLength_le
  have hfocus : InsertFocus (Path.before path ++ z :: Path.after path) c.tree
      ((path.length + 1) / 2) z.addr
      (c.withTree (attached path z.addr c.tree)).tree path
      (.node .red .leaf z .leaf) 0 := h.insertFocus hz
  have hheight : path.length ≤ (fill path (.leaf : Shape Node)).height :=
    length_add_height_le path .leaf
  apply (hfocus.returns_insertFixup (by
    rw [Metered.withTree_tree]
    omega)).mono
  rintro _ c' ⟨⟨T', hT'⟩, hwithin⟩
  refine ⟨⟨Path.before path, Path.after path, ?_, hT'.keeps.toKeepsHeader, T',
    ⟨hT'.repr, hT'.rootBlack, hT'.balanced, ?_⟩, hT'.inorder⟩, ?_,
    hwithin.rotations⟩
  · simp [inorder_fill]
  · rw [hT'.inorder]
    exact hbrackets.sorted_insert h.sorted
  · refine hwithin.turns.trans ?_
    rw [Metered.withTree_turns]
    omega

end Attach

end CAdvanced
