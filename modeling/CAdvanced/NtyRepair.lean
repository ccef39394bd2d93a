import CAdvanced.NtyInsertion

/-!
# The repair behind a removal

The loop of `RB_REMOVE_COLOR` works at a focus that is one black node short.
The focus may be a null pointer, so the loop carries the node above it along.
-/

namespace CAdvanced

open Fallible
open LinkedTree
open RedBlack

namespace NtyTree

variable {ν : Type} [DecidableEq ν]

/-- The state of the loop at the focus `t` below `path`. -/
structure RemoveFocus (labels : List ν) (s : Heap ν) (path : Path ν)
    (t : Shape ν) (n : ℕ) : Prop where
  repr : Represents s (fill path t)
  short : t.Short n
  fits : Path.Fits path (n + 1)
  inorder : (fill path t).inorder = labels

section Side

variable {labels : List ν} {s : Heap ν} {n : ℕ} {f : Frame ν} {fs : Path ν}
  {t : Shape ν} {w : ν} {wn wf : Shape ν} {cw : Color}

omit [DecidableEq ν] in
/-- The focus moves to the sibling. -/
theorem represents_sibling (h : Represents s (fill (f :: fs) t))
    (hsib : f.sibling = Shape.branch f.dir cw wn w wf) :
    Represents s (fill (⟨f.dir.flip, f.color, f.label, t⟩ :: fs)
      (Shape.branch f.dir cw wn w wf)) :=
  hsib ▸ h.toSibling

omit [DecidableEq ν] in
theorem returns_eitherRed {p : Option ν} {d : Dir}
    (h : Rep s p (Shape.branch d cw wn w wf)) (Q : Bool → Heap ν → Prop) :
    Returns (eitherRed (some w)) s Q ↔
      Q (wn.rootColor = .red || wf.rootColor = .red) s := by
  obtain ⟨hw, hwn, hwf⟩ := rep_branch.mp h
  rw [eitherRed, returns_bind, returns_rbChild hw]
  cases d with
  | left =>
      rw [Entry.child_towards, returns_bind, returns_isRed hwn, returns_bind,
        returns_rbChild hw]
      change Returns (isRed (top wf) >>= _) s Q ↔ _
      rw [returns_bind, returns_isRed hwf, returns_pure]
  | right =>
      change Returns (isRed (top wf) >>= _) s Q ↔ _
      rw [returns_bind, returns_isRed hwf, returns_bind, returns_rbChild hw,
        Entry.child_towards, returns_bind, returns_isRed hwn, returns_pure,
        Bool.or_comm]

/-- Both nephews black: the sibling turns red and the focus moves up. -/
theorem RemoveFocus.nephewsBlack (h : RemoveFocus labels s (f :: fs) t n)
    (hsib : f.sibling = Shape.branch f.dir .black wn w wf)
    (ht : t.rootColor = .black) (hwn : wn.rootColor = .black)
    (hwf : wf.rootColor = .black) :
    Returns (setRbColor (some w) .red) s (fun _ s' =>
      ∃ t', top t' = some f.label ∧ t'.rootColor = f.color ∧
        RemoveFocus labels s' fs t' (f.color.over n)) := by
  have hne : f.sibling ≠ .leaf := by
    intro hleaf
    have hbal := h.fits.1
    rw [hleaf, Shape.balanced_leaf] at hbal
    cases hbal
  have hpaint := returns_paintSibling (c := .red) h.repr hne
  rw [hsib, top_branch, Shape.paint_branch] at hpaint
  obtain ⟨hshort, hfits⟩ :=
    delete_black_nephews hsib h.fits (h.short.balanced ht) hwn hwf
  apply hpaint.mono
  intro _ s' hs'
  refine ⟨Shape.branch f.dir f.color t f.label
    (Shape.branch f.dir .red wn w wf), top_branch _ _ _ _ _,
    Shape.rootColor_branch _ _ _ _ _, hs', hshort, hfits, ?_⟩
  rw [← h.inorder, fill_cons]
  apply inorder_fill_congr
  apply Shape.inorder_recolor _ _ _ _ rfl
  rw [hsib]
  exact Shape.inorder_recolor _ _ _ _ rfl rfl

/-- A red sibling: after the rotation the focus has a black sibling and hangs
below a red node. -/
theorem RemoveFocus.redSibling (h : RemoveFocus labels s (f :: fs) t n)
    (hsib : f.sibling = Shape.branch f.dir .red wn w wf) :
    Returns (do
        rbSetBlackred (some w) (some f.label)
        rbRotate f.dir (some f.label)) s (fun _ s' =>
      RemoveFocus labels s'
        (⟨f.dir, .red, f.label, wn⟩ :: ⟨f.dir, .black, w, wf⟩ :: fs) t n) := by
  have hpaint := returns_paintSibling (c := .black) h.repr (by
    rw [hsib]
    exact branch_ne_leaf _ _ _ _ _)
  rw [hsib, top_branch, Shape.paint_branch] at hpaint
  rw [rbSetBlackred, bind_assoc, returns_bind]
  apply hpaint.mono
  intro _ s₁ hs₁
  rw [returns_bind]
  apply (returns_paintHolder hs₁).mono
  intro _ s₂ hs₂
  rw [fill_cons, Frame.plug] at hs₂
  apply (returns_rbRotate hs₂).mono
  intro _ s₃ hs₃
  refine ⟨hs₃, h.short, delete_red_sibling hsib h.fits, ?_⟩
  rw [← h.inorder, fill_cons, fill_cons, fill_cons]
  apply inorder_fill_congr
  simp only [Frame.plug, hsib]
  exact (Shape.inorder_rotate f.dir f.color .red .black .red _ _ _ _ _).symm

/-- The near nephew red, the far one black: the sibling is rotated away, and
the former near nephew becomes a sibling with a red far child. -/
theorem RemoveFocus.nearRed {v : ν} {a b : Shape ν}
    (h : RemoveFocus labels s (f :: fs) t n)
    (hsib : f.sibling =
      Shape.branch f.dir .black (Shape.branch f.dir .red a v b) w wf)
    (hwf : wf.rootColor = .black) :
    Returns (do
        setRbColor (some v) .black
        setRbColor (some w) .red
        rbRotate f.dir.flip (some w)) s (fun _ s' =>
      RemoveFocus labels s'
        ({ f with sibling :=
            Shape.branch f.dir .black a v (Shape.branch f.dir .red b w wf) } ::
          fs) t n) := by
  have hnear : Represents s (fill (⟨f.dir, .black, w, wf⟩ ::
      ⟨f.dir.flip, f.color, f.label, t⟩ :: fs)
        (Shape.branch f.dir .red a v b)) := represents_sibling h.repr hsib
  have hpaint := returns_paintTop (c := .black) hnear
    (branch_ne_leaf _ _ _ _ _)
  rw [top_branch, Shape.paint_branch] at hpaint
  rw [returns_bind]
  apply hpaint.mono
  intro _ s₁ hs₁
  rw [returns_bind]
  apply (returns_paintHolder hs₁).mono
  intro _ s₂ hs₂
  rw [fill_cons, Frame.plug, ← Shape.branch_flip f.dir,
    ← Shape.branch_flip f.dir] at hs₂
  apply (returns_rbRotate hs₂).mono
  intro _ s₃ hs₃
  rw [Shape.branch_flip, Shape.branch_flip] at hs₃
  refine ⟨hs₃.fromSibling, h.short, delete_near_red hsib h.fits hwf, ?_⟩
  rw [← h.inorder, fill_cons, fill_cons]
  apply inorder_fill_congr
  apply Shape.inorder_recolor _ _ _ _ rfl
  rw [hsib]
  exact Shape.inorder_rotate f.dir .black .red .black .red _ _ _ _ _

/-- The far nephew red: three colors and one rotation end the repair. -/
theorem RemoveFocus.farRed (h : RemoveFocus labels s (f :: fs) t n)
    (hsib : f.sibling = Shape.branch f.dir .black wn w wf)
    (ht : t.rootColor = .black) (hwf : wf.rootColor = .red) :
    Returns (removeColorLast f.dir (some f.label) (some w)) s (fun elm s' =>
      ∃ t' n', elm = top t' ∧ RemoveFocus labels s' [] t' n') := by
  have hne : wf ≠ .leaf := by
    rintro rfl
    cases hwf
  have hpaint := returns_paintSibling (c := f.color) h.repr (by
    rw [hsib]
    exact branch_ne_leaf _ _ _ _ _)
  rw [hsib, top_branch, Shape.paint_branch] at hpaint
  obtain ⟨hbal, hfits, htop⟩ :=
    delete_far_red hsib h.fits (h.short.balanced ht) hwf
  rw [removeColorLast, returns_bind, returns_rbColor h.repr.entry_holder,
    Entry.color_towards, returns_bind]
  apply hpaint.mono
  intro _ s₁ hs₁
  rw [returns_bind]
  apply (returns_paintHolder (c := .black) hs₁).mono
  intro _ s₂ hs₂
  have hnear : Represents s₂ (fill (⟨f.dir, f.color, w, wf⟩ ::
      ⟨f.dir.flip, .black, f.label, t⟩ :: fs) wn) :=
    represents_sibling hs₂ rfl
  have hfar : Represents s₂ (fill (⟨f.dir.flip, f.color, w, wn⟩ ::
      ⟨f.dir.flip, .black, f.label, t⟩ :: fs) wf) := hnear.toSibling
  have hw := hnear.entry_holder
  rw [returns_bind, returns_rbChild hw, Entry.child_flip_towards,
    if_pos (top_isSome hne), returns_bind, returns_rbChild hw, Entry.child_flip_towards,
    returns_bind]
  apply (returns_paintTop (c := .black) hfar hne).mono
  intro _ s₃ hs₃
  rw [fill_cons, fill_cons, Frame.plug, Frame.plug, Shape.branch_flip,
    Shape.branch_flip] at hs₃
  rw [returns_bind]
  apply (returns_rbRotate hs₃).mono
  intro _ s₄ hs₄
  obtain ⟨m, hm⟩ : ∃ m, (fill fs (Shape.branch f.dir f.color
      (Shape.branch f.dir .black t f.label wn) w
        (wf.paint .black))).Balanced m := by
    apply fill_balanced hfits hbal
    intro hred _
    rw [Shape.rootColor_branch] at hred
    exact htop hred
  rw [returns_rbRoot]
  refine ⟨_, m, hs₄.root, hs₄, hm.short, trivial, ?_⟩
  rw [← h.inorder, fill_nil, fill_cons]
  apply inorder_fill_congr
  simp only [Frame.plug, hsib]
  cases f.dir <;> simp [Shape.branch, Shape.inorder]

/-- After the first rotation, or without it, the sibling is black. -/
theorem RemoveFocus.settle (h : RemoveFocus labels s (f :: fs) t n) :
    Returns (settleSibling f.dir (some f.label)) s (fun tmp s' =>
      ∃ g gs w wn wf, g.dir = f.dir ∧ g.label = f.label ∧ tmp = some w ∧
        g.sibling = Shape.branch g.dir .black wn w wf ∧
        RemoveFocus labels s' (g :: gs) t n ∧ (gs = fs ∨ g.color = .red)) := by
  obtain ⟨cw, wn, w, wf, hsib⟩ := h.fits.1.exists_branch f.dir
  have hw := (represents_sibling h.repr hsib).entry
  rw [settleSibling, returns_bind, returns_rbChild h.repr.entry_holder,
    Entry.child_flip_towards, hsib, top_branch, returns_bind,
    returns_rbColor hw, Entry.color_towards]
  cases cw with
  | black =>
      rw [if_neg (by simp), returns_pure]
      exact ⟨f, fs, w, wn, wf, rfl, rfl, rfl, hsib, h, .inl rfl⟩
  | red =>
      have hred := h.redSibling hsib
      rw [returns_bind] at hred
      rw [if_pos rfl, returns_bind]
      apply hred.mono
      intro _ s₁ hs₁
      rw [returns_bind]
      apply hs₁.mono
      intro _ s₂ hfocus
      obtain ⟨c, a, v, b, rfl⟩ : ∃ c a v b, wn = Shape.branch f.dir c a v b :=
        hfocus.fits.1.exists_branch f.dir
      have hc : c = .black := by
        simpa using (hfocus.fits.2.1 rfl).1
      subst hc
      have hentry := hfocus.repr.entry_holder
      rw [returns_rbChild hentry, Entry.child_flip_towards]
      exact ⟨⟨f.dir, .red, f.label, Shape.branch f.dir .black a v b⟩,
        ⟨f.dir, .black, w, wf⟩ :: fs, v, a, b, rfl, rfl, top_branch _ _ _ _ _,
        rfl, hfocus, .inr rfl⟩

/-- After the second rotation, or without it, the far nephew is red. -/
theorem RemoveFocus.turn (h : RemoveFocus labels s (f :: fs) t n)
    (hsib : f.sibling = Shape.branch f.dir .black wn w wf)
    (hred : wn.rootColor = .red ∨ wf.rootColor = .red) :
    Returns (turnSibling f.dir (some f.label) (some w)) s (fun tmp s' =>
      ∃ sib w' wn' wf', tmp = some w' ∧
        sib = Shape.branch f.dir .black wn' w' wf' ∧ wf'.rootColor = .red ∧
        RemoveFocus labels s' ({ f with sibling := sib } :: fs) t n) := by
  have hsibling := represents_sibling h.repr hsib
  obtain ⟨hw, hwn, hwf⟩ := rep_branch.mp hsibling.focusRep
  rw [turnSibling, returns_bind, returns_rbChild hw, Entry.child_flip_towards,
    returns_bind, returns_isRed hwf]
  cases hfar : wf.rootColor with
  | red =>
      rw [if_pos (decide_eq_true rfl), returns_pure]
      refine ⟨_, w, wn, wf, rfl, hsib, hfar, ?_⟩
      exact h
  | black =>
      have hnear : wn.rootColor = .red := by
        rcases hred with hnear | hred
        · exact hnear
        · rw [hfar] at hred
          cases hred
      have hne : wn ≠ .leaf := by
        rintro rfl
        cases hnear
      obtain ⟨c, a, v, b, rfl⟩ := Shape.exists_branch f.dir hne
      have hc : c = .red := by simpa using hnear
      subst hc
      have hrotate := h.nearRed hsib hfar
      rw [returns_bind] at hrotate
      rw [if_neg (by simp), returns_bind, returns_rbChild hw,
        Entry.child_towards, top_branch, Option.isSome_some, if_pos rfl,
        returns_bind]
      apply hrotate.mono
      intro _ s₁ hs₁
      rw [returns_bind] at hs₁ ⊢
      apply hs₁.mono
      intro _ s₂ hs₂
      rw [returns_bind]
      apply hs₂.mono
      intro _ s₃ hfocus
      have hentry := hfocus.repr.entry_holder
      rw [returns_rbChild hentry, Entry.child_flip_towards]
      exact ⟨_, v, a, Shape.branch f.dir .red b w wf, top_branch _ _ _ _ _, rfl,
        Shape.rootColor_branch _ _ _ _ _, hfocus⟩

/-- Beside a black sibling the repair goes one step up, or ends. -/
theorem RemoveFocus.black (h : RemoveFocus labels s (f :: fs) t n)
    (hsib : f.sibling = Shape.branch f.dir .black wn w wf)
    (ht : t.rootColor = .black) :
    Returns (removeColorBlack f.dir (some f.label) (some w)) s (fun r s' =>
      match r with
      | .inl (parent, elm) => ∃ t', parent = holder fs ∧ elm = top t' ∧
          t'.rootColor = f.color ∧ RemoveFocus labels s' fs t' (f.color.over n)
      | .inr elm => ∃ t' n', elm = top t' ∧
          RemoveFocus labels s' [] t' n') := by
  have hsibling := represents_sibling h.repr hsib
  rw [removeColorBlack, returns_bind, returns_eitherRed hsibling.focusRep]
  by_cases hred : wn.rootColor = .red ∨ wf.rootColor = .red
  · rw [if_pos (by simpa using hred), returns_bind]
    apply (h.turn hsib hred).mono
    rintro _ s₁ ⟨sib, w', wn', wf', rfl, hsib', hwf', hfocus⟩
    rw [returns_bind]
    apply (hfocus.farRed hsib' ht hwf').mono
    intro elm s' hend
    rw [returns_pure]
    exact hend
  · have hblack : wn.rootColor = .black ∧ wf.rootColor = .black := by
      rw [not_or] at hred
      constructor
      · cases hwn : wn.rootColor with
        | red => exact absurd hwn hred.1
        | black => rfl
      · cases hwf : wf.rootColor with
        | red => exact absurd hwf hred.2
        | black => rfl
    rw [if_neg (by simpa using hred), returns_bind]
    apply (h.nephewsBlack hsib ht hblack.1 hblack.2).mono
    rintro _ s₁ ⟨t', htop, hcolor, hfocus⟩
    have hne : t' ≠ .leaf := by
      rintro rfl
      cases htop
    rw [returns_bind, ← htop, returns_rbParent_top hfocus.repr hne,
      returns_pure]
    exact ⟨t', rfl, rfl, hcolor, hfocus⟩

/-- One turn goes one step up, or is the last one but for the test. -/
theorem RemoveFocus.side (h : RemoveFocus labels s (f :: fs) t n)
    (ht : t.rootColor = .black) :
    Returns (removeColorSide f.dir (some f.label)) s (fun r s' =>
      match r with
      | .inl (parent, elm) => ∃ path' t' n', parent = holder path' ∧
          elm = top t' ∧ RemoveFocus labels s' path' t' n' ∧
          (path' = fs ∨ t'.rootColor = .red)
      | .inr elm => ∃ t' n', elm = top t' ∧
          RemoveFocus labels s' [] t' n') := by
  rw [removeColorSide, returns_bind]
  apply h.settle.mono
  rintro _ s₁ ⟨g, gs, w, wn, wf, hdir, hlabel, rfl, hsib, hfocus, hgs⟩
  rw [← hdir, ← hlabel]
  apply (hfocus.black hsib ht).mono
  intro r s' hr
  cases r with
  | inl next =>
      obtain ⟨t', hparent, helm, hcolor, hfocus'⟩ := hr
      refine ⟨gs, t', _, hparent, helm, hfocus', ?_⟩
      rcases hgs with hgs | hred
      · exact .inl hgs
      · exact .inr (hcolor.trans hred)
  | inr elm => exact hr

end Side

section Loop

variable {labels : List ν} {s : Heap ν} {n : ℕ} {path : Path ν} {t : Shape ν}

theorem RemoveFocus.step (h : RemoveFocus labels s path t n) :
    Returns (removeColorStep (holder path, top t)) s (fun r s' =>
      match r with
      | .inl x => path ≠ [] ∧ t.rootColor = .black ∧
          ∃ path' t' n', x = (holder path', top t') ∧
            RemoveFocus labels s' path' t' n' ∧
            (path' = path.tail ∨ t'.rootColor = .red)
      | .inr elm => ∃ path' t' n', elm = top t' ∧
          RemoveFocus labels s' path' t' n' ∧
          (path' = [] ∨ t'.rootColor = .red)) := by
  have hroot := h.repr.root_eq_iff
  rw [removeColorStep, returns_bind, returns_isRed h.repr.focusRep,
    returns_bind, returns_rbRoot]
  by_cases hexit : t.rootColor = .red ∨ path = []
  · rw [if_pos (by simpa [hroot] using hexit), returns_pure]
    exact ⟨path, t, n, rfl, h, hexit.symm⟩
  · rw [if_neg (by simpa [hroot] using hexit)]
    rw [not_or] at hexit
    obtain ⟨hred, hpath⟩ := hexit
    have ht : t.rootColor = .black := by
      cases hcolor : t.rootColor with
      | red => exact absurd hcolor hred
      | black => rfl
    cases path with
    | nil => exact absurd rfl hpath
    | cons f fs =>
        have hsib : f.sibling ≠ .leaf := by
          intro hleaf
          have hbal := h.fits.1
          rw [hleaf, Shape.balanced_leaf] at hbal
          cases hbal
        have hiff := h.repr.child_holder_eq_iff (.inr hsib) .left
        have hside := h.side ht
        have hnext : ∀ (r : (Option ν × Option ν) ⊕ Option ν) (s' : Heap ν),
            (match r with
              | .inl (parent, elm) => ∃ path' t' n', parent = holder path' ∧
                  elm = top t' ∧ RemoveFocus labels s' path' t' n' ∧
                  (path' = fs ∨ t'.rootColor = .red)
              | .inr elm => ∃ t' n', elm = top t' ∧
                  RemoveFocus labels s' [] t' n') →
            match r with
            | .inl x => f :: fs ≠ [] ∧ t.rootColor = .black ∧
                ∃ path' t' n', x = (holder path', top t') ∧
                  RemoveFocus labels s' path' t' n' ∧
                  (path' = fs ∨ t'.rootColor = .red)
            | .inr elm => ∃ path' t' n', elm = top t' ∧
                RemoveFocus labels s' path' t' n' ∧
                (path' = [] ∨ t'.rootColor = .red) := by
          intro r s' hr
          cases r with
          | inl next =>
              obtain ⟨path', t', n', hparent, helm, hfocus, hup⟩ := hr
              exact ⟨hpath, ht, path', t', n', Prod.ext hparent helm, hfocus,
                hup⟩
          | inr elm =>
              obtain ⟨t', n', helm, hfocus⟩ := hr
              exact ⟨[], t', n', helm, hfocus, .inl rfl⟩
        rw [holder_cons, returns_bind, returns_rbChild h.repr.entry_holder]
        by_cases hdir : f.dir = .left
        · rw [if_pos (hiff.mpr hdir)]
          rw [hdir] at hside
          exact hside.mono hnext
        · have hright : f.dir = .right := Dir.eq_flip_of_ne hdir
          rw [if_neg (fun heq => hdir (hiff.mp heq))]
          rw [hright] at hside
          exact hside.mono hnext

/-- The loop ends at the root or at a red node, which is painted black. -/
theorem RemoveFocus.returns_blacken (h : RemoveFocus labels s path t n)
    (hexit : path = [] ∨ t.rootColor = .red) :
    Returns (if (top t).isSome then setRbColor (top t) .black else pure ()) s
      (fun _ s' => ∃ T, Holds s' T labels) := by
  have hpaint : Returns
      (if (top t).isSome then setRbColor (top t) .black else pure ()) s
      (fun _ s' => Represents s' (fill path (t.paint .black))) := by
    by_cases hleaf : t = .leaf
    · subst hleaf
      rw [top_leaf, if_neg (by simp), returns_pure]
      exact h.repr
    · rw [if_pos (top_isSome hleaf)]
      exact returns_paintTop h.repr hleaf
  apply hpaint.mono
  intro _ s' hs'
  refine ⟨_, hs', ?_, ?_, ?_⟩
  · by_cases hnil : path = []
    · subst hnil
      rw [fill_nil, Shape.rootColor_paint_black]
    · exact fill_rootColor h.fits hnil _
  · rcases h.short with hblack | hred
    · have hnil : path = [] := by
        rcases hexit with hnil | hred
        · exact hnil
        · rw [hblack.1] at hred
          cases hred
      subst hnil
      exact hblack.2.exists_paint_black
    · apply fill_balanced h.fits hred.2
      intro hcontra
      rw [Shape.rootColor_paint_black] at hcontra
      cases hcontra
  · rw [← h.inorder]
    exact inorder_fill_congr path (Shape.inorder_paint _ _)

theorem RemoveFocus.returns_rbRemoveColor {fuel : ℕ}
    (h : RemoveFocus labels s path t n) (hfuel : path.length < fuel) :
    Returns (rbRemoveColor fuel (holder path) (top t)) s (fun _ s' =>
      ∃ T, Holds s' T labels) := by
  rw [rbRemoveColor, returns_bind]
  apply (iterate_returns
    (fun k x s' => ∃ path' t' n', x = (holder path', top t') ∧
      RemoveFocus labels s' path' t' n' ∧
      (path'.length ≤ k ∨ t'.rootColor = .red))
    (Q := fun elm s' => ∃ path' t' n', elm = top t' ∧
      RemoveFocus labels s' path' t' n' ∧ (path' = [] ∨ t'.rootColor = .red))
    ?_ ⟨path, t, n, rfl, h, .inl le_rfl⟩ hfuel).mono
  · rintro _ s' ⟨path', t', n', rfl, hfocus, hexit⟩
    exact hfocus.returns_blacken hexit
  · rintro k x s' ⟨path', t', n', rfl, hfocus, hk⟩
    apply hfocus.step.mono
    intro r s'' hr
    cases r with
    | inl next =>
        obtain ⟨hpath, hblack, path'', t'', n'', hnext, hfocus', hup⟩ := hr
        -- a focus below which a turn is made is not red
        have hlength : path'.length ≤ k := by
          rcases hk with hlength | hred
          · exact hlength
          · rw [hblack] at hred
            cases hred
        have hpos : 0 < path'.length := List.length_pos_iff.mpr hpath
        refine ⟨k - 1, by omega, path'', t'', n'', hnext, hfocus', ?_⟩
        rcases hup with rfl | hred
        · left
          rw [List.length_tail]
          omega
        · exact .inr hred
    | inr elm => exact hr

end Loop

end NtyTree

end CAdvanced
