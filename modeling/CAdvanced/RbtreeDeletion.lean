import CAdvanced.RbtreeInsertion

/-!
# The deletion repair

The loop of `rbtree_delete_fixup` works at a focus that is one black node
short.  The focus may be the sentinel, whose parent field then names the node
above it; no step of the repair touches that field.  The loop is followed with
its meter running.
-/

namespace CAdvanced

open Fallible
open RedBlack
open Rbtree

/-- The state of the loop at the focus `t` below `path`. -/
structure DeleteFocus (labels : List Node) (s₀ : Rbtree) (x : Addr)
    (s : Rbtree) (path : Path Node) (t : Shape Node) (n : ℕ) : Prop where
  repr : Repr s (fill path t)
  loop : x = ptr s.nil t
  short : t.Short n
  fits : Path.Fits path (n + 1)
  parent : path ≠ [] → s.parent x = some (holder s.nil path)
  inorder : (fill path t).inorder = labels
  keeps : KeepsSentinel s₀ s

theorem ptr_fill_mem (nil : Addr) {path : Path Node} (hne : path ≠ [])
    (t : Shape Node) : ptr nil (fill path t) ∈ pathAddrs path := by
  induction path generalizing t with
  | nil => exact absurd rfl hne
  | cons f fs ih =>
      by_cases hfs : fs = []
      · subst fs
        simp [fill_cons, Frame.plug]
      · rw [fill_cons, pathAddrs_cons]
        exact List.mem_cons_of_mem _
          (List.mem_append_right _ (ih hfs (f.plug t)))

theorem Repr.root_eq_iff {s : Rbtree} {path : Path Node} {t : Shape Node}
    (h : Repr s (fill path t)) : ptr s.nil t = s.root ↔ path = [] := by
  constructor
  · intro heq
    by_contra hne
    have hmem := ptr_fill_mem s.nil hne t
    rw [← h.root, ← heq] at hmem
    exact ne_ptr_of_mem_path h hmem rfl
  · rintro rfl
    exact h.root.symm

section Side

variable {labels : List Node} {s₀ s : Rbtree} {x : Addr} {n k : ℕ}
  {f : Frame Node} {fs : Path Node} {t : Shape Node}
  {w : Node} {wn wf : Shape Node} {cw : Color}

/-- The sibling's cell and the colors of its children. -/
structure SiblingAt (s : Rbtree) (f : Frame Node) (cw : Color) (w : Node)
    (wn wf : Shape Node) : Prop where
  cell : CellAt s w f.dir cw (ptr s.nil wn) (ptr s.nil wf) f.label.addr
  nearColor : s.color (ptr s.nil wn) = some wn.rootColor
  farColor : s.color (ptr s.nil wf) = some wf.rootColor
  nearLive : ptr s.nil wn ∈ s.arena.live
  farLive : ptr s.nil wf ∈ s.arena.live

theorem Repr.siblingAt (h : Repr s (fill (f :: fs) t))
    (hsib : f.sibling = Shape.branch f.dir cw wn w wf) :
    SiblingAt s f cw w wn wf := by
  have hsibling := h.toSibling
  rw [hsib] at hsibling
  have hnear : Repr s (fill (⟨f.dir, cw, w, wf⟩ ::
      ⟨f.dir.flip, f.color, f.label, t⟩ :: fs) wn) := hsibling
  have hfar := hnear.toSibling
  exact
    { cell := (rep_branch.mp hsibling.focusRep).1
      nearColor := hnear.color_ptr
      farColor := hfar.color_ptr
      nearLive := hnear.live_ptr
      farLive := hfar.live_ptr }

theorem SiblingAt.returns_bothChildrenBlack
    (hw : SiblingAt s f cw w wn wf) :
    Returns (bothChildrenBlack w.addr) s (fun b s' =>
      s' = s ∧ (b = true ↔ wn.rootColor = .black ∧ wf.rootColor = .black)) := by
  obtain ⟨d, c, l, sib⟩ := f
  have hnear := hw.cell.near
  have hfar := hw.cell.far
  have hnearColor := hw.nearColor
  have hfarColor := hw.farColor
  simp only at hnear hfar
  cases d with
  | left =>
      simp only [Dir.flip] at hfar
      simp only [bothChildrenBlack, returns_bind, childOf, colorOf,
        returns_load, hnear, hnearColor, Option.some.injEq, exists_eq_left']
      by_cases hblack : wn.rootColor = .black
      · simp [hblack, hfar, hfarColor]
      · simp [hblack]
  | right =>
      simp only [Dir.flip] at hfar
      simp only [bothChildrenBlack, returns_bind, childOf, colorOf,
        returns_load, hfar, hfarColor, Option.some.injEq, exists_eq_left']
      by_cases hblack : wf.rootColor = .black
      · simp [hblack, hnear, hnearColor]
      · simp [hblack]

/-- A rearrangement above the focus that keeps its holder keeps its parent
link, also when the focus is the sentinel. -/
theorem DeleteFocus.parent_after {s' : Rbtree} {path path' : Path Node}
    (h : DeleteFocus labels s₀ x s path t n)
    (hrepr : Repr s' (fill path' t)) (hkeeps : KeepsSentinel s s')
    (hholder : holder s.nil path' = holder s.nil path) (hne : path ≠ []) :
    s'.parent x = some (holder s'.nil path') := by
  rw [hkeeps.nil, hholder]
  have hloop := h.loop
  subst hloop
  by_cases ht : t = .leaf
  · subst ht
    rw [ptr_leaf, hkeeps.parent]
    exact h.parent hne
  · have := hrepr.parent_ptr ht
    rwa [hkeeps.nil, hholder] at this

/-- Both nephews black: the sibling turns red and the focus moves up. -/
theorem DeleteFocus.nephewsBlack
    (h : DeleteFocus labels s₀ x s (f :: fs) t n)
    (hsib : f.sibling = Shape.branch f.dir .black wn w wf)
    (ht : t.rootColor = .black)
    (hwn : wn.rootColor = .black) (hwf : wf.rootColor = .black) :
    ∃ t', DeleteFocus labels s₀ f.label.addr (withColor w.addr .red s) fs
        t' (f.color.over n) ∧ t'.rootColor = f.color := by
  have hne : f.sibling ≠ .leaf := by
    intro hleaf
    have := (h.fits).1
    rw [hleaf] at this
    simp at this
  have hpaint := h.repr.paintSibling (c := .red) (Or.inl hne)
  have hptr : ptr s.nil f.sibling = w.addr := by simp [hsib]
  rw [hptr] at hpaint
  obtain ⟨hshort, hfits⟩ :=
    delete_black_nephews hsib h.fits (h.short.balanced ht) hwn hwf
  refine ⟨Shape.branch f.dir f.color t f.label
    (Shape.branch f.dir .red wn w wf), ⟨?_, ?_, hshort, hfits, ?_, ?_, ?_⟩,
    Shape.rootColor_branch _ _ _ _ _⟩
  · simpa [hsib, fill_cons, Frame.plug] using hpaint
  · simp
  · intro _
    exact h.repr.focusPath.1.parent
  · rw [← h.inorder, fill_cons]
    apply inorder_fill_congr
    apply Shape.inorder_recolor _ _ _ _ rfl
    rw [hsib]
    exact Shape.inorder_recolor _ _ _ _ rfl rfl
  · exact h.keeps.trans (KeepsSentinel.withColor _ _ _)

/-- The far nephew red: three colors and one rotation end the repair. -/
theorem DeleteFocus.farRed
    (h : DeleteFocus labels s₀ x s (f :: fs) t n)
    (hsib : f.sibling = Shape.branch f.dir .black wn w wf)
    (ht : t.rootColor = .black) (hwf : wf.rootColor = .red) :
    Returns (deleteFixupFar f.dir x w.addr) s (fun x' s' =>
      ∃ t' n', DeleteFocus labels s₀ x' s' [] t' n') := by
  have hw := h.repr.siblingAt hsib
  have hcf := h.repr.focusPath.1
  have hparent := h.parent (by simp)
  simp only [holder] at hparent
  -- the tree after the three assignments of colors
  have hpaint₁ := h.repr.paintSibling (c := f.color) (Or.inl (by
    rw [hsib]
    intro hleaf
    have := congrArg (ptr s.nil) hleaf
    simp only [ptr_branch, ptr_leaf] at this
    exact hw.cell.ne_nil this))
  have hptr : ptr s.nil f.sibling = w.addr := by simp [hsib]
  rw [hptr] at hpaint₁
  have hpaint₂ := hpaint₁.paintHolder .black
  simp only [hsib, Shape.paint_branch] at hpaint₂
  have hfar : Repr (withColor f.label.addr .black (withColor w.addr f.color s))
      (fill (⟨f.dir, f.color, w, wf⟩ ::
        ⟨f.dir.flip, .black, f.label, t⟩ :: fs) wn) := hpaint₂.toSibling
  have hpaint₃ := hfar.paintSibling (c := .black) (Or.inr rfl)
  have hpaint₄ : Repr
      (withColor (ptr s.nil wf) .black
        (withColor f.label.addr .black (withColor w.addr f.color s)))
      (fill fs (Shape.branch f.dir .black t f.label
        (Shape.branch f.dir f.color wn w (wf.paint .black)))) := by
    have := Repr.fromSibling (f := ⟨f.dir, .black, f.label, .leaf⟩) hpaint₃
    simpa [fill_cons, Frame.plug] using this
  obtain ⟨hbal, hfits, htop⟩ :=
    delete_far_red hsib h.fits (h.short.balanced ht) hwf
  simp only [deleteFixupFar, returns_bind, parentOf, colorOf, childOf,
    setColor, isLive, returns_load, returns_store, rootOf, returns_get,
    returns_pure, hparent, hcf.color, hcf.live, hw.cell.live, hw.cell.far,
    hw.farLive, withColor_parent, withColor_child, withColor_arena,
    Option.some.injEq, exists_eq_left', decide_eq_true_eq, true_and]
  apply hpaint₄.returns_rotate.mono
  rintro _ s' ⟨hrepr, hkeeps⟩
  obtain ⟨m, hm⟩ : ∃ m, (fill fs (Shape.branch f.dir f.color
      (Shape.branch f.dir .black t f.label wn) w
        (wf.paint .black))).Balanced m := by
    apply fill_balanced hfits hbal
    intro hred _
    rw [Shape.rootColor_branch] at hred
    exact htop hred
  refine ⟨_, m, hrepr, hrepr.root, hm.short, trivial, ?_, ?_, ?_⟩
  · intro hne
    exact absurd rfl hne
  · rw [← h.inorder, fill_nil, fill_cons]
    apply inorder_fill_congr
    simp only [Frame.plug, hsib]
    cases f.dir <;> simp [Shape.branch, Shape.inorder]
  · exact h.keeps.trans ((KeepsSentinel.withColor _ _ _).trans
      ((KeepsSentinel.withColor _ _ _).trans
        ((KeepsSentinel.withColor _ _ _).trans hkeeps)))

/-- The near nephew red, the far one black: the sibling is rotated away, and
the former near nephew becomes a sibling with a red far child. -/
theorem DeleteFocus.nearRed {v : Node} {a b : Shape Node}
    (h : DeleteFocus labels s₀ x s (f :: fs) t n)
    (hsib : f.sibling =
      Shape.branch f.dir .black (Shape.branch f.dir .red a v b) w wf)
    (hwf : wf.rootColor = .black) :
    Returns (do
        setColor v.addr .black
        setColor w.addr .red
        rotate f.dir.flip w.addr) s (fun _ s' =>
      DeleteFocus labels s₀ x s'
        ({ f with sibling :=
            Shape.branch f.dir .black a v (Shape.branch f.dir .red b w wf) } ::
          fs) t n ∧
        s'.child f.dir.flip f.label.addr = some v.addr) := by
  have hw := h.repr.siblingAt hsib
  have hsibling := h.repr.toSibling
  rw [hsib] at hsibling
  have hnear : Repr s (fill (⟨f.dir, .black, w, wf⟩ ::
      ⟨f.dir.flip, f.color, f.label, t⟩ :: fs)
        (Shape.branch f.dir .red a v b)) := hsibling
  have hpaint₁ := hnear.afterPaint (c := .black) (Or.inr rfl)
  simp only [ptr_branch, Shape.paint_branch] at hpaint₁
  have hpaint₂ : Repr (withColor w.addr .red (withColor v.addr .black s))
      (fill (⟨f.dir.flip, f.color, f.label, t⟩ :: fs)
        (Shape.branch f.dir.flip .red wf w
          (Shape.branch f.dir.flip .black b v a))) := by
    have hpaint := hpaint₁.paintHolder .red
    simpa [fill_cons, Frame.plug, Shape.branch_flip] using hpaint
  have hlivev := hw.nearLive
  simp only [ptr_branch] at hlivev
  simp only [returns_bind, setColor, isLive, returns_store, hlivev,
    hw.cell.live, withColor_arena, decide_eq_true_eq, true_and]
  apply hpaint₂.returns_rotate.mono
  rintro _ s' ⟨hrepr, hkeeps⟩
  simp only [Shape.branch_flip] at hrepr
  have hkeeps' : KeepsSentinel s s' :=
    (KeepsSentinel.withColor _ _ _).trans
      ((KeepsSentinel.withColor _ _ _).trans hkeeps)
  have hrepr' := hrepr.fromSibling
  refine ⟨⟨hrepr', ?_, h.short, delete_near_red hsib h.fits hwf, ?_, ?_,
    h.keeps.trans hkeeps'⟩, ?_⟩
  · rw [hkeeps'.nil]
    exact h.loop
  · intro _
    exact h.parent_after hrepr' hkeeps' rfl (by simp)
  · rw [← h.inorder, fill_cons, fill_cons]
    apply inorder_fill_congr
    apply Shape.inorder_recolor _ _ _ _ rfl
    rw [hsib]
    exact Shape.inorder_rotate f.dir .black .red .black .red _ _ _ _ _
  · have hcell := hrepr'.focusPath.1
    simpa using hcell.far

/-- A red sibling: after the rotation the focus has a black sibling and hangs
below a red node. -/
theorem DeleteFocus.redSibling
    (h : DeleteFocus labels s₀ x s (f :: fs) t n)
    (hsib : f.sibling = Shape.branch f.dir .red wn w wf) :
    Returns (do
        setColor w.addr .black
        setColor f.label.addr .red
        rotate f.dir f.label.addr) s (fun _ s' =>
      DeleteFocus labels s₀ x s'
        (⟨f.dir, .red, f.label, wn⟩ :: ⟨f.dir, .black, w, wf⟩ :: fs) t n) := by
  have hw := h.repr.siblingAt hsib
  have hcf := h.repr.focusPath.1
  have hpaint₁ := h.repr.paintSibling (c := .black) (Or.inr rfl)
  have hptr : ptr s.nil f.sibling = w.addr := by simp [hsib]
  rw [hptr] at hpaint₁
  have hpaint₂ := hpaint₁.paintHolder .red
  simp only [hsib, Shape.paint_branch, fill_cons, Frame.plug] at hpaint₂
  simp only [returns_bind, setColor, isLive, returns_store, hcf.live,
    hw.cell.live, withColor_arena, decide_eq_true_eq, true_and]
  apply hpaint₂.returns_rotate.mono
  rintro _ s' ⟨hrepr, hkeeps⟩
  have hkeeps' : KeepsSentinel s s' :=
    (KeepsSentinel.withColor _ _ _).trans
      ((KeepsSentinel.withColor _ _ _).trans hkeeps)
  refine ⟨hrepr, ?_, h.short, delete_red_sibling hsib h.fits, ?_, ?_,
    h.keeps.trans hkeeps'⟩
  · rw [hkeeps'.nil]
    exact h.loop
  · intro _
    exact h.parent_after hrepr hkeeps' rfl (by simp)
  · rw [← h.inorder, fill_cons, fill_cons, fill_cons]
    apply inorder_fill_congr
    simp only [Frame.plug, hsib]
    exact (Shape.inorder_rotate f.dir f.color .red .black .red _ _ _ _ _).symm

end Side

section Metered

variable {labels : List Node} {s₀ : Rbtree} {c : Metered} {x : Addr} {n : ℕ}
  {f : Frame Node} {fs path : Path Node} {t : Shape Node}
  {w : Node} {wn wf : Shape Node}

/-- The repair beside a black sibling: one step up without a rotation, or the
end with one or two. -/
theorem DeleteFocus.black
    (h : DeleteFocus labels s₀ x c.tree (f :: fs) t n)
    (hsib : f.sibling = Shape.branch f.dir .black wn w wf)
    (ht : t.rootColor = .black) :
    Returns (Metered.deleteFixupBlack f.dir x w.addr) c (fun x' c' =>
      c'.turns = c.turns ∧ ∃ path t' n',
        DeleteFocus labels s₀ x' c'.tree path t' n' ∧
          (path = fs ∧ t'.rootColor = f.color ∧ c'.rotations = c.rotations ∨
            path = [] ∧ c'.rotations ≤ c.rotations + 2)) := by
  have hw := h.repr.siblingAt hsib
  have hparent := h.parent (by simp)
  simp only [holder] at hparent
  unfold Metered.deleteFixupBlack
  rw [returns_bind, Metered.returns_run]
  apply hw.returns_bothChildrenBlack.mono
  rintro both s₁ ⟨rfl, hboth⟩
  rw [Metered.withTree_self]
  cases both with
  | true =>
      obtain ⟨hwn, hwf⟩ := hboth.mp rfl
      obtain ⟨t', hfocus, hcolor⟩ := h.nephewsBlack hsib ht hwn hwf
      simp only [reduceIte, returns_bind, Metered.returns_run,
        Metered.withTree_tree, Metered.withTree_withTree, setColor, isLive,
        returns_store, parentOf, returns_load, withColor_parent, hparent,
        hw.cell.live, decide_eq_true_eq, true_and, Option.some.injEq,
        exists_eq_left']
      exact ⟨rfl, fs, t', _, hfocus, .inl ⟨rfl, hcolor, rfl⟩⟩
  | false =>
      simp only [Bool.false_eq_true, reduceIte, returns_bind,
        Metered.returns_run, Metered.withTree_self, childOf, colorOf,
        returns_load, hw.cell.far, hw.farColor, Option.some.injEq,
        exists_eq_left']
      cases hwf : wf.rootColor with
      | red =>
          simp only [reduceCtorEq, reduceIte]
          rw [Metered.returns_deleteFixupFar]
          apply (h.farRed hsib ht hwf).mono
          rintro x' s' ⟨t', n', hfocus⟩
          refine ⟨rfl, [], t', n', hfocus, .inr ⟨rfl, ?_⟩⟩
          simp only [Metered.afterRotation_rotations,
            Metered.withTree_rotations]
          omega
      | black =>
          have hwn : wn.rootColor = .red := by
            cases hwn : wn.rootColor with
            | red => rfl
            | black => exact absurd (hboth.mpr ⟨hwn, hwf⟩) (by simp)
          have hne : wn ≠ .leaf := by
            rintro rfl
            cases hwn
          obtain ⟨c', a, v, b, rfl⟩ := Shape.exists_branch f.dir hne
          have hc : c' = .red := by simpa using hwn
          subst hc
          have hnear := h.nearRed hsib hwf
          have hv := hw.cell.near
          simp only [ptr_branch] at hv
          simp only [reduceIte, returns_bind, Metered.returns_run,
            Metered.returns_rotate, Metered.withTree_self,
            Metered.withTree_tree, Metered.withTree_withTree, returns_load, hv,
            Option.some.injEq, exists_eq_left']
          simp only [returns_bind] at hnear
          apply hnear.mono
          intro _ s₂ hs₂
          apply hs₂.mono
          intro _ s₃ hs₃
          apply hs₃.mono
          rintro _ s₄ ⟨hfocus, hchild⟩
          have hparent' := hfocus.parent (by simp)
          simp only [holder] at hparent'
          simp only [Metered.afterRotation_tree, Metered.withTree_tree,
            parentOf, returns_load, hparent', hchild, Option.some.injEq,
            exists_eq_left']
          rw [Metered.returns_deleteFixupFar]
          apply (hfocus.farRed rfl ht (by simp)).mono
          rintro x' s' ⟨t', n', hend⟩
          exact ⟨rfl, [], t', n', hend, .inr ⟨rfl, le_rfl⟩⟩

/-- One turn goes one step up without a rotation, or is the last one. -/
theorem DeleteFocus.side
    (h : DeleteFocus labels s₀ x c.tree (f :: fs) t n)
    (ht : t.rootColor = .black) :
    Returns (Metered.deleteFixupSide f.dir x) c (fun x' c' =>
      c'.turns = c.turns ∧ ∃ path t' n',
        DeleteFocus labels s₀ x' c'.tree path t' n' ∧
          (path = fs ∧ c'.rotations = c.rotations ∨
            (path = [] ∨ t'.rootColor = .red) ∧
              c'.rotations ≤ c.rotations + 3)) := by
  obtain ⟨cw, wn, w, wf, hsib⟩ := h.fits.1.exists_branch f.dir
  have hw := h.repr.siblingAt hsib
  have hcf := h.repr.focusPath.1
  have hfar : c.tree.child f.dir.flip f.label.addr = some w.addr := by
    simpa [hsib] using hcf.far
  have hparent := h.parent (by simp)
  simp only [holder] at hparent
  simp only [Metered.deleteFixupSide, returns_bind, Metered.returns_run,
    Metered.withTree_self, parentOf, childOf, colorOf, returns_load, hparent,
    hfar, hw.cell.color, Option.some.injEq, exists_eq_left']
  cases cw with
  | black =>
      simp only [reduceCtorEq, reduceIte]
      apply (h.black hsib ht).mono
      rintro x' c' ⟨hturns, path, t', n', hfocus, hup | hend⟩
      · exact ⟨hturns, path, t', n', hfocus, .inl ⟨hup.1, hup.2.2⟩⟩
      · exact ⟨hturns, path, t', n', hfocus, .inr ⟨.inl hend.1, by omega⟩⟩
  | red =>
      have hred := h.redSibling hsib
      simp only [returns_bind, setColor, isLive, returns_store,
        decide_eq_true_eq] at hred
      simp only [reduceIte, returns_bind, Metered.returns_run,
        Metered.returns_rotate, Metered.withTree_tree,
        Metered.withTree_withTree, setColor, isLive, returns_store,
        returns_load, withColor_parent, hparent, decide_eq_true_eq,
        Option.some.injEq, exists_eq_left']
      refine ⟨hred.1, hred.2.1, hred.2.2.mono ?_⟩
      intro _ s₁ hfocus
      have hparent' := hfocus.parent (by simp)
      have hcell := hfocus.repr.focusPath.1
      have hfits := hfocus.fits
      simp only [holder] at hparent'
      obtain ⟨c', a, v, b, rfl⟩ :
          ∃ c a v b, wn = Shape.branch f.dir c a v b :=
        hfits.1.exists_branch f.dir
      have hc' : c' = .black := by
        simpa using (hfits.2.1 rfl).1
      subst hc'
      have hchild : s₁.child f.dir.flip f.label.addr = some v.addr := by
        simpa using hcell.far
      simp only [Metered.afterRotation_tree, Metered.withTree_tree, hparent',
        hchild, Option.some.injEq, exists_eq_left']
      have hrotated : DeleteFocus labels s₀ x
          ((c.withTree s₁).afterRotation).tree
          (⟨f.dir, .red, f.label, Shape.branch f.dir .black a v b⟩ ::
            ⟨f.dir, .black, w, wf⟩ :: fs) t n := hfocus
      -- the focus hangs below a red node, so the next step up is the last one
      apply (hrotated.black rfl ht).mono
      rintro x' c' ⟨hturns, path, t', n', hfocus', hend⟩
      simp only [Metered.afterRotation_turns, Metered.afterRotation_rotations,
        Metered.withTree_turns, Metered.withTree_rotations] at hturns hend
      refine ⟨hturns, path, t', n', hfocus', .inr ?_⟩
      rcases hend with ⟨-, hcolor, hsame⟩ | ⟨hpath, hmost⟩
      · exact ⟨.inr hcolor, by omega⟩
      · exact ⟨.inl hpath, by omega⟩

theorem DeleteFocus.step
    (h : DeleteFocus labels s₀ x c.tree path t n) :
    Returns (Metered.deleteFixupStep x) c (fun r c' =>
      match r with
      | .inl x' => path ≠ [] ∧ t.rootColor = .black ∧
          c'.turns = c.turns + 1 ∧ ∃ path' t' n',
            DeleteFocus labels s₀ x' c'.tree path' t' n' ∧
              (path' = path.tail ∧ c'.rotations = c.rotations ∨
                (path' = [] ∨ t'.rootColor = .red) ∧
                  c'.rotations ≤ c.rotations + 3)
      | .inr x' => c' = c ∧ x' = x ∧ (path = [] ∨ t.rootColor = .red)) := by
  have hloop := h.loop
  subst hloop
  have hroot := h.repr.root_eq_iff
  simp only [Metered.deleteFixupStep, rootOf, returns_bind,
    Metered.returns_run, Metered.withTree_self, returns_get, returns_pure]
  cases path with
  | nil =>
      simp only [hroot.mpr rfl, ne_eq, not_true_eq_false, reduceIte,
        returns_pure]
      exact ⟨trivial, trivial, Or.inl trivial⟩
  | cons f fs =>
      have hne : ptr c.tree.nil t ≠ c.tree.root := by
        rw [Ne, hroot]
        simp
      have hcolor := h.repr.color_ptr
      simp only [hne, ne_eq, not_false_eq_true, reduceIte, returns_bind,
        Metered.returns_run, Metered.withTree_self, colorOf, returns_load,
        hcolor, Option.some.injEq, exists_eq_left']
      cases ht : t.rootColor with
      | red =>
          simp only [reduceCtorEq, reduceIte, returns_pure]
          exact ⟨trivial, trivial, Or.inr trivial⟩
      | black =>
          have hparent := h.parent (by simp)
          simp only [holder] at hparent
          have hsib : f.sibling ≠ .leaf := by
            obtain ⟨c, a, v, b, hbranch⟩ := h.fits.1.exists_branch f.dir
            rw [hbranch]
            cases f.dir <;> simp [Shape.branch]
          obtain ⟨p, hchild, hiff⟩ :=
            h.repr.child_holder_eq_iff (Or.inr hsib) .left
          have hturn : DeleteFocus labels s₀ (ptr c.tree.nil t)
              c.afterTurn.tree (f :: fs) t n := h
          have hside := hturn.side ht
          simp only [Metered.afterTurn_turns, Metered.afterTurn_rotations]
            at hside
          simp only [reduceIte, Metered.returns_turn, returns_bind,
            Metered.returns_run, Metered.afterTurn_tree,
            Metered.withTree_afterTurn, parentOf, childOf, returns_load,
            hparent, hchild, Option.some.injEq, exists_eq_left']
          by_cases hdir : f.dir = .left
          · simp only [hiff.mpr hdir, reduceIte, returns_bind, returns_pure]
            rw [hdir, hiff.mpr hdir] at hside
            exact hside.mono (fun _ _ hs => ⟨by simp, trivial, hs⟩)
          · have hright : f.dir = .right := Dir.eq_flip_of_ne hdir
            have hneq : ptr c.tree.nil t ≠ p := fun heq => hdir (hiff.mp heq)
            simp only [hneq, reduceIte, returns_bind, returns_pure]
            rw [hright] at hside
            exact hside.mono (fun _ _ hs => ⟨by simp, trivial, hs⟩)

/-- The loop ends at the root or at a red node. -/
theorem DeleteFocus.repaired
    (h : DeleteFocus labels s₀ x c.tree path t n)
    (hexit : path = [] ∨ t.rootColor = .red) :
    Returns (setColor x .black) c.tree (fun _ s' =>
      ∃ T, Repaired labels s₀ s' T) := by
  have hloop := h.loop
  subst hloop
  rw [h.repr.returns_setColor]
  refine ⟨_, h.repr.afterPaint (Or.inr rfl), ?_, ?_, ?_, ?_⟩
  · by_cases hnil : path = []
    · subst hnil
      simp
    · exact fill_rootColor h.fits hnil _
  · rcases h.short with hblack | hred
    · have hnil : path = [] := by
        rcases hexit with hnil | hred
        · exact hnil
        · rw [hblack.1] at hred
          cases hred
      subst hnil
      simpa using hblack.2.exists_paint_black
    · apply fill_balanced h.fits hred.2
      intro hcontra
      simp at hcontra
  · rw [← h.inorder]
    exact inorder_fill_congr path (by simp)
  · exact h.keeps.trans (KeepsSentinel.withColor _ _ _)

theorem DeleteFocus.returns_deleteFixup
    (h : DeleteFocus labels s₀ x c.tree path t n)
    (hfuel : path.length ≤ c.tree.arena.live.length) :
    Returns (Metered.rbtreeDeleteFixup x) c (fun _ c' =>
      (∃ T, Repaired labels s₀ c'.tree T) ∧ c.Within path.length 3 c') := by
  unfold Metered.rbtreeDeleteFixup
  simp only [loopFuel, returns_bind, Metered.returns_run, returns_get,
    returns_pure, Metered.withTree_self]
  apply (iterate_returns
    (fun k x' c' => (∃ path' t' n',
      DeleteFocus labels s₀ x' c'.tree path' t' n' ∧
        (path'.length ≤ k ∧ c'.rotations ≤ c.rotations ∨
          (path' = [] ∨ t'.rootColor = .red) ∧
            c'.rotations ≤ c.rotations + 3)) ∧
      c'.turns + k ≤ c.turns + path.length)
    (Q := fun x' c' => (∃ path' t' n',
      DeleteFocus labels s₀ x' c'.tree path' t' n' ∧
        (path' = [] ∨ t'.rootColor = .red)) ∧ c.Within path.length 3 c')
    ?_ ⟨⟨path, t, n, h, .inl ⟨le_rfl, le_rfl⟩⟩, le_rfl⟩
    (Nat.lt_succ_of_le hfuel)).mono
  · rintro x' c' ⟨⟨path', t', n', hfocus, hexit⟩, hwithin⟩
    apply (hfocus.repaired hexit).mono
    intro _ s' hT
    exact ⟨hT, hwithin.turns, hwithin.rotations⟩
  · rintro k x' c' ⟨⟨path', t', n', hfocus, hcost⟩, hturns⟩
    apply hfocus.step.mono
    intro r c'' hr
    cases r with
    | inl x'' =>
        obtain ⟨hpath, hblack, hturn, path'', t'', n'', hfocus', hnext⟩ := hr
        -- the loop was not at its end, so no rotation has been made
        have hnone : path'.length ≤ k ∧ c'.rotations ≤ c.rotations := by
          rcases hcost with hnone | ⟨hnil | hred, -⟩
          · exact hnone
          · exact absurd hnil hpath
          · rw [hblack] at hred
            cases hred
        have hlength : 0 < path'.length := List.length_pos_iff.mpr hpath
        refine ⟨k - 1, by omega, ⟨path'', t'', n'', hfocus', ?_⟩, by omega⟩
        rcases hnext with ⟨hup, hsame⟩ | ⟨hend, hmost⟩
        · left
          rw [hup, List.length_tail]
          omega
        · exact .inr ⟨hend, by omega⟩
    | inr answer =>
        obtain ⟨rfl, rfl, hexit⟩ := hr
        refine ⟨⟨path', t', n', hfocus, hexit⟩, by omega, ?_⟩
        rcases hcost with hnone | hmost
        · exact hnone.2.trans (Nat.le_add_right _ _)
        · exact hmost.2

end Metered

end CAdvanced
