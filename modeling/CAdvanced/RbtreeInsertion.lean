import CAdvanced.RbtreeRotation
import CAdvanced.RepairMeter

/-!
# The insertion repair

The loop of `rbtree_insert_fixup` works at a red, balanced focus; the one
violation it may meet is a red node above the focus.  Each recoloring moves
the focus two steps up, and a rotation leaves a black node above it.  The loop
is followed with its meter running, so the proof also counts.
-/

namespace CAdvanced

open Fallible
open RedBlack
open Rbtree

theorem Repr.color_holder {s : Rbtree} {path : Path Node} {t : Shape Node}
    (h : Repr s (fill path t)) :
    s.color (holder s.nil path) = some (Path.topColor path) := by
  cases path with
  | nil => exact h.nilBlack
  | cons f fs => exact h.focusPath.1.color

theorem Repr.toSibling {s : Rbtree} {f : Frame Node} {fs : Path Node}
    {t : Shape Node} (h : Repr s (fill (f :: fs) t)) :
    Repr s (fill (⟨f.dir.flip, f.color, f.label, t⟩ :: fs) f.sibling) := by
  rwa [← fill_sibling]

theorem Repr.fromSibling {s : Rbtree} {f : Frame Node} {fs : Path Node}
    {t u : Shape Node}
    (h : Repr s (fill (⟨f.dir.flip, f.color, f.label, t⟩ :: fs) u)) :
    Repr s (fill ({ f with sibling := u } :: fs) t) := by
  rw [fill_sibling] at h
  simpa using h

theorem Repr.paintSibling {s : Rbtree} {f : Frame Node} {fs : Path Node}
    {t : Shape Node} (h : Repr s (fill (f :: fs) t)) {c : Color}
    (hc : f.sibling ≠ .leaf ∨ c = .black) :
    Repr (withColor (ptr s.nil f.sibling) c s)
      (fill ({ f with sibling := f.sibling.paint c } :: fs) t) :=
  (h.toSibling.afterPaint hc).fromSibling

theorem Repr.paintHolder {s : Rbtree} {f : Frame Node} {fs : Path Node}
    {t : Shape Node} (h : Repr s (fill (f :: fs) t)) (c : Color) :
    Repr (withColor f.label.addr c s)
      (fill ({ f with color := c } :: fs) t) := by
  rw [fill_cons] at h
  have hpaint := h.afterPaint (c := c) (Or.inl ?_)
  · simpa [Frame.plug, fill_cons] using hpaint
  · intro hleaf
    have := congrArg (ptr s.nil) hleaf
    have hne := h.focus_ne_nil (ptr s.nil (f.plug t))
      (by simp [Frame.plug])
    exact hne this

/-- The hole is not the sibling: the direction test of the source decides the
direction of the frame. -/
theorem Repr.child_holder_eq_iff {s : Rbtree} {f : Frame Node}
    {fs : Path Node} {t : Shape Node} (h : Repr s (fill (f :: fs) t))
    (ht : t ≠ .leaf ∨ f.sibling ≠ .leaf) (d : Dir) :
    ∃ p, s.child d f.label.addr = some p ∧
      (ptr s.nil t = p ↔ f.dir = d) := by
  have hcell := h.focusPath.1
  have hne : ptr s.nil t ≠ ptr s.nil f.sibling := by
    rcases ht with ht | ht
    · intro heq
      apply ne_ptr_of_mem_path h.toSibling (a := ptr s.nil t) _ heq
      simp [ptr_mem_addrs ht]
    · intro heq
      apply ne_ptr_of_mem_path h (a := ptr s.nil f.sibling) _ heq.symm
      simp [ptr_mem_addrs ht]
  by_cases hd : f.dir = d
  · subst hd
    exact ⟨_, hcell.near, by simp⟩
  · have hflip : d = f.dir.flip := Dir.eq_flip_of_ne (Ne.symm hd)
    subst hflip
    exact ⟨_, hcell.far, by simp [hne]⟩

/-- The state of the loop: the focus `t` below `path`, black height `n`, and
`k` bounding the iterations that may follow. -/
structure InsertFocus (labels : List Node) (s₀ : Rbtree) (k : ℕ) (z : Addr)
    (s : Rbtree) (path : Path Node) (t : Shape Node) (n : ℕ) : Prop where
  repr : Repr s (fill path t)
  loop : z = ptr s.nil t
  red : t.rootColor = .red
  balanced : t.Balanced n
  fits : Path.Fits path n
  inorder : (fill path t).inorder = labels
  keeps : KeepsSentinel s₀ s
  bound : Path.topColor path = .red → path.length ≤ 2 * k

theorem InsertFocus.ne_leaf {labels : List Node} {s₀ s : Rbtree} {k n : ℕ}
    {z : Addr} {path : Path Node} {t : Shape Node}
    (h : InsertFocus labels s₀ k z s path t n) : t ≠ .leaf := by
  rintro rfl
  cases h.red

/-- The words the loop reads above the focus. -/
theorem InsertFocus.parents {labels : List Node} {s₀ s : Rbtree} {k n : ℕ}
    {z : Addr} {f g : Frame Node} {fs : Path Node} {t : Shape Node}
    (h : InsertFocus labels s₀ k z s (f :: g :: fs) t n) :
    s.parent (ptr s.nil t) = some f.label.addr ∧
      s.parent f.label.addr = some g.label.addr :=
  ⟨h.repr.parent_ptr h.ne_leaf, h.repr.focusPath.1.parent⟩

/-- Where the loop may stop. -/
def InsertDone (labels : List Node) (s₀ : Rbtree) (s : Rbtree) : Prop :=
  ∃ path t n z, InsertFocus labels s₀ 0 z s path t n ∧
    Path.topColor path = .black

section Step

variable {labels : List Node} {s₀ s : Rbtree} {k n : ℕ} {z : Addr}
  {f g : Frame Node} {fs : Path Node} {t : Shape Node}

/-- Recoloring under a red uncle. -/
theorem InsertFocus.recolor
    (h : InsertFocus labels s₀ k z s (f :: g :: fs) t n)
    (hf : f.color = .red) (huncle : g.sibling.rootColor = .red) :
    ∃ t', InsertFocus labels s₀ (k - 1) g.label.addr
      (withColor g.label.addr .red
        (withColor (ptr s.nil g.sibling) .black
          (withColor f.label.addr .black s))) fs t' (n + 1) := by
  have hrepr := (h.repr.paintHolder .black)
  rw [fill_cons] at hrepr
  have hrepr := (hrepr.paintSibling (Or.inr rfl)).paintHolder .red
  obtain ⟨hbal, hfits⟩ := insert_recolor h.fits h.balanced hf huncle
  refine ⟨_, ⟨hrepr, ?_, ?_, hbal, hfits, ?_, ?_, ?_⟩⟩
  · simp [Frame.plug]
  · simp [Frame.plug]
  · rw [← h.inorder, fill_cons, fill_cons]
    apply inorder_fill_congr
    apply Shape.inorder_recolor
    · exact Shape.inorder_recolor _ _ _ _ rfl rfl
    · simp
  · exact h.keeps.trans ((KeepsSentinel.withColor _ _ _).trans
      ((KeepsSentinel.withColor _ _ _).trans (KeepsSentinel.withColor _ _ _)))
  · intro _
    have := h.bound hf
    simp only [List.length_cons] at this
    omega

/-- The outer case: two colors and one rotation. -/
theorem InsertFocus.outer
    (h : InsertFocus labels s₀ k z s (f :: g :: fs) t n)
    (hf : f.color = .red) (huncle : g.sibling.rootColor = .black)
    (hdir : f.dir = g.dir) :
    Returns (insertFixupOuter g.dir z) s (fun z' s' =>
      ∃ path t', InsertFocus labels s₀ 0 z' s' path t' n) := by
  have hloop := h.loop
  subst hloop
  obtain ⟨hparent, hcfp⟩ := h.parents
  obtain ⟨hcf, _, hcg, _, _⟩ := h.repr.focusPath
  have hrepr := h.repr.paintHolder .black
  rw [fill_cons] at hrepr
  have hrepr := hrepr.paintHolder .red
  simp only [fill_cons, Frame.plug, hdir] at hrepr
  rw [← Shape.branch_flip g.dir .red, ← Shape.branch_flip g.dir .black] at hrepr
  simp only [insertFixupOuter, parentOf, setColor, isLive, returns_bind,
    returns_load, returns_store, returns_pure, hparent, hcfp,
    Option.some.injEq, exists_eq_left', decide_eq_true_eq, hcf.live, hcg.live,
    withColor_parent, withColor_arena, true_and]
  apply hrepr.returns_rotate.mono
  rintro _ s' ⟨hrepr', hkeeps⟩
  rw [Shape.branch_flip, Shape.branch_flip] at hrepr'
  refine ⟨⟨g.dir, .black, f.label,
    Shape.branch g.dir .red f.sibling g.label g.sibling⟩ :: fs, t,
    hrepr', ?_, h.red, h.balanced, insert_outer h.fits hf huncle, ?_, ?_, ?_⟩
  · rw [hkeeps.nil]
    rfl
  · rw [← h.inorder]
    simp only [fill_cons, Frame.plug, hdir]
    apply inorder_fill_congr
    cases g.dir <;> simp [Shape.branch, Shape.inorder]
  · exact h.keeps.trans ((KeepsSentinel.withColor _ _ _).trans
      ((KeepsSentinel.withColor _ _ _).trans hkeeps))
  · intro hred
    cases hred

/-- The first rotation of the inner case leaves an outer case, with the
former parent as the focus. -/
theorem InsertFocus.inner
    (h : InsertFocus labels s₀ k z s (f :: g :: fs) t n)
    (hf : f.color = .red) (hdir : f.dir = g.dir.flip) :
    Returns (rotate g.dir f.label.addr) s (fun _ s' =>
      ∃ x a b, InsertFocus labels s₀ k f.label.addr s'
        (⟨g.dir, .red, x, b⟩ :: g :: fs)
        (Shape.branch g.dir .red f.sibling f.label a) n) := by
  obtain ⟨c, a, x, b, rfl⟩ := Shape.exists_branch g.dir h.ne_leaf
  have hc : c = .red := by simpa using h.red
  subst hc
  obtain ⟨hbal, hfits⟩ := insert_inner h.fits h.balanced hf
  have hrepr := h.repr
  rw [fill_cons] at hrepr
  simp only [Frame.plug, hdir, hf, Shape.branch_flip] at hrepr
  apply hrepr.returns_rotate.mono
  rintro _ s' ⟨hrepr', hkeeps⟩
  refine ⟨x, a, b, hrepr', ?_, ?_, hbal, hfits, ?_, h.keeps.trans hkeeps, ?_⟩
  · simp
  · simp
  · rw [← h.inorder, fill_cons, fill_cons]
    apply inorder_fill_congr
    simp only [Frame.plug, hdir, Shape.branch_flip]
    exact Shape.inorder_recolor _ _ _ _
      (Shape.inorder_rotate g.dir f.color .red .red .red _ _ _ _ _).symm rfl
  · intro _
    have := h.bound hf
    simpa using this

theorem InsertFocus.weaken {k' : ℕ} {path : Path Node}
    (h : InsertFocus labels s₀ k z s path t n) (hk : k ≤ k') :
    InsertFocus labels s₀ k' z s path t n :=
  ⟨h.repr, h.loop, h.red, h.balanced, h.fits, h.inorder, h.keeps,
    fun hred => (h.bound hred).trans (by omega)⟩

/-- Without iterations to follow the violation is gone. -/
theorem InsertFocus.topBlack {path : Path Node}
    (h : InsertFocus labels s₀ 0 z s path t n) :
    Path.topColor path = .black := by
  cases hcolor : Path.topColor path with
  | black => rfl
  | red =>
      have hlength := h.bound hcolor
      have hnil : path = [] := List.eq_nil_of_length_eq_zero (by omega)
      subst hnil
      cases hcolor

end Step

section Metered

variable {labels : List Node} {s₀ : Rbtree} {c : Metered} {k n : ℕ}
  {z : Addr} {f g : Frame Node} {fs : Path Node} {t : Shape Node}

theorem InsertFocus.side
    (h : InsertFocus labels s₀ k z c.tree (f :: g :: fs) t n)
    (hf : f.color = .red) :
    Returns (Metered.insertFixupSide g.dir z) c (fun z' c' =>
      ∃ path t' n', InsertFocus labels s₀ (k - 1) z' c'.tree path t' n' ∧
        c.RotatesLast (Path.topColor path = .black) 2 c') := by
  have hloop := h.loop
  subst hloop
  obtain ⟨hparent, hcfp⟩ := h.parents
  obtain ⟨hcf, _, hcg, _, _⟩ := h.repr.focusPath
  have huncleColor : c.tree.color (ptr c.tree.nil g.sibling) =
      some g.sibling.rootColor := by
    have hg : Repr c.tree (fill (g :: fs) (f.plug t)) := h.repr
    exact hg.toSibling.color_ptr
  have huncleLive : ptr c.tree.nil g.sibling ∈ c.tree.arena.live := by
    have hg : Repr c.tree (fill (g :: fs) (f.plug t)) := h.repr
    exact hg.toSibling.live_ptr
  simp only [Metered.insertFixupSide, returns_bind, Metered.returns_run,
    Metered.withTree_self, parentOf, childOf, colorOf, returns_load, hparent,
    hcfp, hcg.far, huncleColor, Option.some.injEq, exists_eq_left']
  cases huncle : g.sibling.rootColor with
  | red =>
      obtain ⟨t', hfocus⟩ := h.recolor hf huncle
      simp only [reduceIte, setColor, isLive, returns_bind, returns_store,
        returns_load, Metered.returns_run, Metered.withTree_tree,
        Metered.withTree_withTree, withColor_parent, withColor_arena, hparent,
        hcfp, Option.some.injEq, exists_eq_left', decide_eq_true_eq, hcf.live,
        hcg.live, huncleLive, true_and]
      exact ⟨fs, t', n + 1, hfocus, rfl, .inl rfl⟩
  | black =>
      obtain ⟨p, hchild, hiff⟩ :=
        h.repr.child_holder_eq_iff (Or.inl h.ne_leaf) g.dir.flip
      simp only [reduceCtorEq, reduceIte, returns_bind, returns_load,
        Metered.returns_run, Metered.withTree_self, hparent, hchild,
        Option.some.injEq, exists_eq_left']
      by_cases hdir : f.dir = g.dir
      · have hne : ptr c.tree.nil t ≠ p := by
          rw [Ne, hiff, hdir]
          simp
        simp only [hne, reduceIte]
        rw [Metered.returns_insertFixupOuter]
        apply (h.outer hf huncle hdir).mono
        rintro z' s' ⟨path, t', hfocus⟩
        refine ⟨path, t', n, hfocus.weaken (by omega), rfl,
          .inr ⟨hfocus.topBlack, ?_⟩⟩
        simp only [Metered.afterRotation_rotations, Metered.withTree_rotations]
        omega
      · have heq : ptr c.tree.nil t = p := by
          rw [hiff]
          exact Dir.eq_flip_of_ne hdir
        subst heq
        simp only [reduceIte, returns_bind, returns_load, Metered.returns_run,
          Metered.returns_rotate, Metered.withTree_self, hparent,
          Option.some.injEq, exists_eq_left']
        apply (h.inner hf (Dir.eq_flip_of_ne hdir)).mono
        rintro _ s₁ ⟨x, a, b, hfocus⟩
        rw [Metered.returns_insertFixupOuter]
        apply (hfocus.outer rfl huncle rfl).mono
        rintro z' s' ⟨path, t', hfocus'⟩
        refine ⟨path, t', n, hfocus'.weaken (by omega), rfl,
          .inr ⟨hfocus'.topBlack, ?_⟩⟩
        simp only [Metered.afterRotation_rotations, Metered.withTree_rotations]
        omega

theorem InsertFocus.step {path : Path Node}
    (h : InsertFocus labels s₀ k z c.tree path t n) :
    Returns (Metered.insertFixupStep z) c (fun r c' =>
      match r with
      | .inl z' => Path.topColor path = .red ∧
          ∃ k' < k, ∃ path' t' n',
            InsertFocus labels s₀ k' z' c'.tree path' t' n' ∧
              c.afterTurn.RotatesLast (Path.topColor path' = .black) 2 c'
      | .inr _ => c' = c ∧ InsertDone labels s₀ c.tree) := by
  have hloop := h.loop
  subst hloop
  have hparent := h.repr.parent_ptr h.ne_leaf
  have htop := h.repr.color_holder
  cases hcolor : Path.topColor path with
  | black =>
      simp only [Metered.insertFixupStep, returns_bind, Metered.returns_run,
        Metered.withTree_self, parentOf, colorOf, returns_load, hparent, htop,
        hcolor, Option.some.injEq, exists_eq_left', reduceCtorEq, reduceIte,
        returns_pure]
      refine ⟨trivial, path, t, n, ptr c.tree.nil t, ?_, hcolor⟩
      exact ⟨h.repr, rfl, h.red, h.balanced, h.fits, h.inorder, h.keeps,
        fun hred => by rw [hcolor] at hred; cases hred⟩
  | red =>
      obtain ⟨f, g, fs, rfl, hf, hg⟩ := h.fits.exists_grandparent hcolor
      have hk : 0 < k := by
        have := h.bound hcolor
        simp only [List.length_cons] at this
        omega
      obtain ⟨hcf, _, hcg, _, _⟩ := h.repr.focusPath
      have hcfp := h.parents.2
      simp only [holder] at hparent htop
      have hplug : Repr c.tree (fill (g :: fs) (f.plug t)) := h.repr
      obtain ⟨p, hchild, hiff⟩ :=
        hplug.child_holder_eq_iff (Or.inl (by
          intro hleaf
          have hnil := congrArg (ptr c.tree.nil) hleaf
          simp only [Frame.plug, ptr_branch, ptr_leaf] at hnil
          exact hcf.ne_nil hnil)) .left
      simp only [Frame.plug, ptr_branch] at hiff
      have hturn : InsertFocus labels s₀ k (ptr c.tree.nil t)
          c.afterTurn.tree (f :: g :: fs) t n := h
      have hside := hturn.side hf
      simp only [Metered.insertFixupStep, returns_bind, Metered.returns_run,
        Metered.returns_turn, Metered.withTree_self, Metered.afterTurn_tree,
        Metered.withTree_afterTurn, parentOf, colorOf, childOf, returns_load, hparent,
        hcfp, hchild, htop, hcolor, Option.some.injEq, exists_eq_left', reduceIte]
      have hnext : ∀ z' c', (∃ path' t' n',
          InsertFocus labels s₀ (k - 1) z' c'.tree path' t' n' ∧
            c.afterTurn.RotatesLast (Path.topColor path' = .black) 2 c') →
          True ∧ ∃ k' < k, ∃ path' t' n',
            InsertFocus labels s₀ k' z' c'.tree path' t' n' ∧
              c.afterTurn.RotatesLast (Path.topColor path' = .black) 2 c' :=
        fun z' c' hfocus => ⟨trivial, k - 1, by omega, hfocus⟩
      by_cases hdir : g.dir = .left
      · simp only [hiff.mpr hdir, reduceIte, returns_bind, returns_pure]
        rw [hdir] at hside
        exact hside.mono hnext
      · have hne : f.label.addr ≠ p := fun heq => hdir (hiff.mp heq)
        have hright : g.dir = .right := Dir.eq_flip_of_ne hdir
        simp only [hne, reduceIte, returns_bind, returns_pure]
        rw [hright] at hside
        exact hside.mono hnext

end Metered

/-- What the insertion repair leaves: a balanced tree with a black root and
the same nodes in order. -/
structure Repaired (labels : List Node) (s₀ s : Rbtree) (T : Shape Node) :
    Prop where
  repr : Repr s T
  rootBlack : T.rootColor = .black
  balanced : ∃ m, T.Balanced m
  inorder : T.inorder = labels
  keeps : KeepsSentinel s₀ s

theorem InsertDone.repaired {labels : List Node} {s₀ s : Rbtree}
    (h : InsertDone labels s₀ s) :
    Returns (do setColor (← rootOf) .black) s (fun _ s' =>
      ∃ T, Repaired labels s₀ s' T) := by
  obtain ⟨path, t, n, z, hfocus, htop⟩ := h
  have hrepr : Repr s (fill [] (fill path t)) := hfocus.repr
  have hroot : s.root = ptr s.nil (fill path t) := hrepr.root
  simp only [rootOf, returns_bind, returns_get, returns_pure, hroot]
  rw [hrepr.returns_setColor]
  refine ⟨_, hrepr.afterPaint (Or.inr rfl), by simp, ?_, ?_, ?_⟩
  · have hbal : ∃ m, (fill path t).Balanced m := by
      apply fill_balanced hfocus.fits hfocus.balanced
      intro _ hne
      cases path with
      | nil => exact absurd rfl hne
      | cons f fs => exact htop
    obtain ⟨m, hm⟩ := hbal
    simpa using hm.exists_paint_black
  · simpa using hfocus.inorder
  · exact hfocus.keeps.trans (KeepsSentinel.withColor _ _ _)

/-- The whole repair, from a red focus whose path is the only place of a
violation. -/
theorem InsertFocus.returns_insertFixup {labels : List Node} {s₀ : Rbtree}
    {c : Metered} {k n : ℕ} {z : Addr} {path : Path Node} {t : Shape Node}
    (h : InsertFocus labels s₀ k z c.tree path t n)
    (hfuel : k ≤ c.tree.arena.live.length) :
    Returns (Metered.rbtreeInsertFixup z) c (fun _ c' =>
      (∃ T, Repaired labels s₀ c'.tree T) ∧ c.Within k 2 c') := by
  unfold Metered.rbtreeInsertFixup
  simp only [loopFuel, returns_bind, Metered.returns_run, returns_get,
    returns_pure, Metered.withTree_self]
  apply (iterate_returns
    (fun k' z' c' => (∃ path' t' n',
      InsertFocus labels s₀ k' z' c'.tree path' t' n' ∧
        (c'.rotations ≤ c.rotations ∨ Path.topColor path' = .black ∧
          c'.rotations ≤ c.rotations + 2)) ∧ c'.turns + k' ≤ c.turns + k)
    (Q := fun _ c' => InsertDone labels s₀ c'.tree ∧ c.Within k 2 c')
    ?_ ⟨⟨path, t, n, h, .inl le_rfl⟩, le_rfl⟩ (Nat.lt_succ_of_le hfuel)).mono
  · rintro _ c' ⟨hdone, hwithin⟩
    have hend := hdone.repaired
    simp only [returns_bind] at hend
    apply hend.mono
    intro root s' hroot
    apply hroot.mono
    intro _ s'' hT
    exact ⟨hT, hwithin.turns, hwithin.rotations⟩
  · rintro k' z' c' ⟨⟨path', t', n', hfocus, hrotations⟩, hturns⟩
    apply hfocus.step.mono
    intro r c'' hr
    cases r with
    | inl z'' =>
        obtain ⟨hred, k'', hk'', path'', t'', n'', hfocus', hturn, hlast⟩ := hr
        rw [Metered.afterTurn_turns] at hturn
        rw [Metered.afterTurn_rotations] at hlast
        -- the violation is still there, so no rotation has been made
        have hnone : c'.rotations ≤ c.rotations := by
          rcases hrotations with hnone | ⟨hblack, -⟩
          · exact hnone
          · rw [hred] at hblack
            cases hblack
        refine ⟨k'', hk'', ⟨path'', t'', n'', hfocus', ?_⟩, by omega⟩
        rcases hlast with hsame | ⟨hblack, hmost⟩
        · exact .inl (by omega)
        · exact .inr ⟨hblack, by omega⟩
    | inr _ =>
        obtain ⟨rfl, hdone⟩ := hr
        refine ⟨hdone, by omega, ?_⟩
        rcases hrotations with hnone | ⟨-, hmost⟩
        · omega
        · exact hmost

end CAdvanced
