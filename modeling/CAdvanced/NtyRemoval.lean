import CAdvanced.NtyRepair
import CAdvanced.NtyTraversal

/-!
# Removal from the coroutine library's trees

`RB_REMOVE` takes a node out of its place.  A node with two children leaves its
place, color and links to its successor; no key or value moves, so the other
nodes stay where their owners know them.
-/

namespace CAdvanced

open Fallible
open LinkedTree
open RedBlack

namespace NtyTree

variable {ν : Type} [DecidableEq ν]

/-! ## Taking a node out -/

section Splice

variable {labels : List ν} {s : Heap ν} {path : Path ν} {c : Color}
  {l r t : Shape ν} {x : ν}

/-- The only child `t` takes the place of its parent. -/
def spliced (path : Path ν) (t : Shape ν) (s : Heap ν) : Heap ν :=
  hang path (top t) (adopt t (holder path) s)

omit [DecidableEq ν] in
/-- The elements that a splice must keep apart. -/
theorem splice_apart (h : Represents s (fill path (.node c l x r)))
    (ht : l = .leaf ∧ t = r ∨ r = .leaf ∧ t = l) :
    (x :: (t.inorder ++ Path.labels path)).Nodup := by
  have hperm := (Shape.inorder_branch_perm .left c l r x).append_right
    (Path.labels path)
  have hnodup := hperm.nodup_iff.mp h.nodup_focus
  rcases ht with ⟨rfl, rfl⟩ | ⟨rfl, rfl⟩
  · simpa using hnodup
  · simpa using hnodup

omit [DecidableEq ν] in
theorem only_child_rep (h : Represents s (fill path (.node c l x r)))
    (ht : l = .leaf ∧ t = r ∨ r = .leaf ∧ t = l) : Rep s (some x) t := by
  rcases ht with ⟨-, rfl⟩ | ⟨-, rfl⟩
  · exact h.focusRep.2.2
  · exact h.focusRep.2.1

/-- The path is still there when the child knows its new parent. -/
theorem repPath_adopt (h : Represents s (fill path (.node c l x r)))
    (ht : l = .leaf ∧ t = r ∨ r = .leaf ∧ t = l) :
    RepPath (adopt t (holder path) s) path (some x) := by
  have hapart := splice_apart h ht
  rw [List.nodup_cons, List.nodup_append] at hapart
  apply h.focusPath.adopt_apart
  intro y hmem hy
  exact hapart.2.2.2 y hmem y hy rfl

theorem represents_spliced (h : Represents s (fill path (.node c l x r)))
    (ht : l = .leaf ∧ t = r ∨ r = .leaf ∧ t = l) :
    Represents (spliced path t s) (fill path t) := by
  have hapart := splice_apart h ht
  rw [List.nodup_cons] at hapart
  obtain ⟨ht', hpath', hout⟩ := List.nodup_append.mp hapart.2
  apply Represents.of_focus ((repPath_adopt h ht).hang hpath' _) _ hapart.2
  apply ((only_child_rep h ht).adopt ht' (holder path)).hang_apart
  intro y hy hmem
  exact hout y hy y hmem rfl

theorem returns_spliceOut (h : Represents s (fill path (.node c l x r)))
    (ht : l = .leaf ∧ t = r ∨ r = .leaf ∧ t = l)
    (Q : Unit → Heap ν → Prop) :
    Returns (spliceOut (holder path) (some x) (top t)) s Q ↔
      Q () (spliced path t s) := by
  have hapart := splice_apart h ht
  rw [List.nodup_cons, List.mem_append, not_or] at hapart
  rw [spliceOut, returns_when, returns_adopt (only_child_rep h ht),
    returns_replaceChild (repPath_adopt h ht) hapart.1.2]
  rfl

/-- What the removed node leaves: `t` hangs in its place, and the discipline
lacks a black node if it was black. -/
structure SpliceFocus (labels : List ν) (c : Color) (s : Heap ν)
    (path : Path ν) (t : Shape ν) : Prop where
  repr : Represents s (fill path t)
  inorder : (fill path t).inorder = labels
  colors : ∃ n, t.Balanced n ∧ Path.Fits path (c.over n) ∧
    (c = .red → t.rootColor = .black ∧ Path.TopBlack path)

theorem Holds.spliceFocus (h : Holds s (fill path (.node c l x r)) labels)
    (ht : l = .leaf ∧ t = r ∨ r = .leaf ∧ t = l) :
    SpliceFocus (fill path t).inorder c (spliced path t s) path t := by
  obtain ⟨m, hbal⟩ := h.balanced
  exact ⟨represents_spliced h.repr ht, rfl,
    delete_splice hbal h.rootBlack ht⟩

/-- The end of `RB_REMOVE`: a black node calls for a repair. -/
theorem SpliceFocus.returns_finish {fuel : ℕ}
    (h : SpliceFocus labels c s path t) (hfuel : path.length < fuel) :
    Returns (if c = .black then rbRemoveColor fuel (holder path) (top t)
      else pure ()) s (fun _ s' => ∃ T, Holds s' T labels) := by
  obtain ⟨n, hbal, hfits, hred⟩ := h.colors
  cases c with
  | red =>
      obtain ⟨htblack, htop⟩ := hred rfl
      rw [if_neg (by simp), returns_pure]
      refine ⟨fill path t, h.repr, ?_, ?_, h.inorder⟩
      · apply fill_rootColor hfits
        rintro rfl
        exact htop
      · apply fill_balanced hfits hbal
        intro hcontra
        rw [htblack] at hcontra
        cases hcontra
  | black =>
      rw [if_pos rfl]
      have hfocus : RemoveFocus labels s path t n :=
        ⟨h.repr, hbal.short, hfits, h.inorder⟩
      exact hfocus.returns_rbRemoveColor hfuel

theorem Holds.returns_removeOuter {fuel : ℕ}
    (h : Holds s (fill path (.node c l x r)) labels)
    (ht : l = .leaf ∧ t = r ∨ r = .leaf ∧ t = l)
    (hfuel : path.length < fuel) :
    Returns (removeOuter fuel (some x) (top t)) s (fun answer s' =>
      answer = some x ∧ ∃ T, Holds s' T (fill path t).inorder) := by
  have hentry := h.repr.focusRep.1
  rw [removeOuter, returns_bind, returns_rbParent hentry,
    Entry.parent_towards, returns_bind, returns_rbColor hentry,
    Entry.color_towards, returns_bind, returns_spliceOut h.repr ht,
    returns_when]
  apply ((h.spliceFocus ht).returns_finish hfuel).mono
  intro _ s' hT
  rw [returns_pure]
  exact ⟨rfl, hT⟩

end Splice

/-! ## The way to the root -/

section Ascent

variable {s : Heap ν} {path fs : Path ν} {t : Shape ν} {fuel : ℕ}

omit [DecidableEq ν] in
/-- The loop for `RB_AUGMENT` goes up to the root. -/
theorem returns_augment {f : Frame ν} (h : Represents s (fill (f :: fs) t))
    (hfuel : fs.length < fuel) :
    Returns (iterate augmentStep fuel (some f.label)) s
      (fun _ s' => s' = s) := by
  apply iterate_returns
    (fun k elm s' => s' = s ∧ ∃ f fs t, Represents s (fill (f :: fs) t) ∧
      elm = some f.label ∧ fs.length ≤ k)
    ?_ ⟨rfl, f, fs, t, h, rfl, le_refl _⟩ hfuel
  rintro k elm s' ⟨rfl, f, fs, t, h, rfl, hk⟩
  rw [augmentStep, returns_bind, returns_rbParent h.entry_holder,
    Entry.parent_towards]
  cases fs with
  | nil =>
      rw [holder_nil, if_neg (by simp), returns_pure]
  | cons g gs =>
      rw [List.length_cons] at hk
      rw [holder_cons, Option.isSome_some, if_pos rfl, returns_pure]
      exact ⟨k - 1, by omega, rfl, g, gs, f.plug t, h, rfl, by omega⟩

end Ascent

/-! ## Taking over a place -/

section TakeOver

variable {s : Heap ν} {path : Path ν} {c : Color} {l r : Shape ν} {x y : ν}

/-- `y` takes over what the entry of `x` says, and its neighbours' links. -/
def taken (path : Path ν) (c : Color) (l r : Shape ν) (y : ν) (s : Heap ν) :
    Heap ν :=
  adopt r (some y) (adopt l (some y)
    (hang path (some y)
      (setEntry y (.towards .left (top l) (top r) (holder path) c) s)))

/-- What a node outside the tree meets when it takes over a place. -/
structure TakeApart (path : Path ν) (x y : ν) (l r : Shape ν) : Prop where
  yx : y ≠ x
  yl : y ∉ l.inorder
  yr : y ∉ r.inorder
  ypath : y ∉ Path.labels path
  xl : x ∉ l.inorder
  xpath : x ∉ Path.labels path
  lr : ∀ z ∈ l.inorder, z ∉ r.inorder
  rl : ∀ z ∈ r.inorder, z ∉ l.inorder
  lpath : ∀ z ∈ l.inorder, z ∉ Path.labels path
  rpath : ∀ z ∈ r.inorder, z ∉ Path.labels path
  lnodup : l.inorder.Nodup
  rnodup : r.inorder.Nodup
  pathNodup : (Path.labels path).Nodup

omit [DecidableEq ν] in
theorem takeApart (h : Represents s (fill path (.node c l x r)))
    (hy : y ∉ (fill path (.node c l x r)).inorder) :
    TakeApart path x y l r := by
  have hnodup := h.nodup_focus
  rw [(inorder_fill_perm path _).mem_iff] at hy
  simp only [Shape.inorder, List.mem_append, List.mem_cons, not_or,
    List.nodup_append, List.nodup_cons] at hnodup hy
  obtain ⟨⟨hl, hxr, hlr⟩, hpath, hout⟩ := hnodup
  constructor <;> grind

theorem represents_taken (h : Represents s (fill path (.node c l x r)))
    (hy : y ∉ (fill path (.node c l x r)).inorder) :
    Represents (taken path c l r y s) (fill path (.node c l y r)) := by
  have hapart := takeApart h hy
  obtain ⟨-, hl, hr⟩ := h.focusRep
  apply Represents.of_focus
  · exact (((h.focusPath.setEntry hapart.ypath _).hang hapart.pathNodup
      (some y)).adopt_apart hapart.lpath _).adopt_apart hapart.rpath _
  · refine ⟨?_, ?_, ?_⟩
    · exact (adopt_entry_of_notMem hapart.yr).trans
        ((adopt_entry_of_notMem hapart.yl).trans
          ((hang_entry hapart.ypath).trans (setEntry_self _ _ _)))
    · exact (((hl.setEntry hapart.yl _).hang_apart hapart.lpath _).adopt
        hapart.lnodup (some y)).adopt_apart hapart.lr _
    · exact (((hr.setEntry hapart.yr _).hang_apart hapart.rpath
        _).adopt_apart hapart.rl _).adopt hapart.rnodup (some y)
  · have hnodup := h.nodup_focus
    rw [(inorder_fill_perm path _).mem_iff] at hy
    simp only [Shape.inorder, List.mem_append, List.mem_cons, not_or,
      List.nodup_append, List.nodup_cons] at hnodup hy ⊢
    grind

theorem returns_takeOver (h : Represents s (fill path (.node c l x r)))
    (hy : y ∉ (fill path (.node c l x r)).inorder) (hl : l ≠ .leaf)
    {e : Entry ν} (he : s.entry y = some e) (Q : Unit → Heap ν → Prop) :
    Returns (takeOver (some x) (some y)) s Q ↔
      Q () (taken path c l r y s) := by
  have hapart := takeApart h hy
  obtain ⟨hx, hrepl, hrepr⟩ := h.focusRep
  let s₁ := setEntry y (.towards .left (top l) (top r) (holder path) c) s
  let s₂ := hang path (some y) s₁
  have hx₁ : s₁.entry x =
      some (.towards .left (top l) (top r) (holder path) c) :=
    (setEntry_of_ne _ _ hapart.yx.symm).trans hx
  have hpath₁ : RepPath s₁ path (some x) :=
    h.focusPath.setEntry hapart.ypath _
  have hx₂ : s₂.entry x =
      some (.towards .left (top l) (top r) (holder path) c) :=
    (hang_entry hapart.xpath).trans hx₁
  have hl₂ : Rep s₂ (some x) l :=
    (hrepl.setEntry hapart.yl _).hang_apart hapart.lpath _
  have hr₃ : Rep (adopt l (some y) s₂) (some x) r :=
    ((hrepr.setEntry hapart.yr _).hang_apart hapart.rpath _).adopt_apart
      hapart.rl _
  have hx₃ : (adopt l (some y) s₂).entry x =
      some (.towards .right (top r) (top l) (holder path) c) :=
    (adopt_entry_of_notMem hapart.xl).trans hx₂
  rw [takeOver, returns_bind, returns_field hx, returns_bind,
    returns_assign he, returns_bind]
  change Returns (rbParent (some x)) s₁ _ ↔ _
  rw [returns_rbParent hx₁, Entry.parent_towards, returns_bind,
    returns_replaceChild hpath₁ hapart.xpath, returns_bind,
    returns_rbChild hx₂, Entry.child_towards, returns_bind,
    returns_setRbParent_top hl₂ hl, returns_adoptChild hr₃ hx₃]
  rfl

end TakeOver

/-! ## Removal -/

section Remove

variable {labels : List ν} {s : Heap ν} {path fs : Path ν} {c cy : Color}
  {l r b T : Shape ν} {x y : ν} {fuel : ℕ}

/-- What is left of the elements without the one at the focus. -/
theorem erase_focus (h : Represents s (fill path (.node c l x r))) :
    (fill path (.node c l x r)).inorder.erase x =
      Path.before path ++ (l.inorder ++ r.inorder) ++ Path.after path := by
  have hnodup := h.nodup
  rw [inorder_focus] at hnodup ⊢
  have hx : x ∉ Path.before path ++ l.inorder := by
    intro hmem
    exact (List.nodup_append.mp hnodup).2.2 x hmem x List.mem_cons_self rfl
  rw [List.erase_append_right _ hx, List.erase_cons_head]
  simp

theorem Holds.returns_removeLeaf {t : Shape ν}
    (h : Holds s (fill path (.node c l x r)) labels)
    (ht : l = .leaf ∧ t = r ∨ r = .leaf ∧ t = l)
    (hfuel : (fill path (.node c l x r)).height < fuel) :
    Returns (removeOuter fuel (some x) (top t)) s (fun answer s' =>
      answer = some x ∧ ∃ T, Holds s' T (labels.erase x)) := by
  have hlabels : labels.erase x = (fill path t).inorder := by
    rw [← h.inorder, erase_focus h.repr, inorder_fill]
    rcases ht with ⟨rfl, rfl⟩ | ⟨rfl, rfl⟩ <;> simp [Shape.inorder]
  have hlength := length_add_height_le path (.node c l x r)
  rw [hlabels]
  exact h.returns_removeOuter ht (by omega)

omit [DecidableEq ν] in
theorem fill_inner (t : Shape ν) :
    fill (fs ++ ⟨.right, c, x, l⟩ :: path) t =
      fill path (.node c l x (fill fs t)) := by
  rw [fill_append]
  rfl

/-- The successor `y` of `x` is out of its place, which is filled by `b`, and
still knows the node above it. -/
structure Succeeds (s : Heap ν) (path fs : Path ν) (c : Color) (l b : Shape ν)
    (x y : ν) : Prop where
  repr : Represents s (fill (fs ++ ⟨.right, c, x, l⟩ :: path) b)
  outside : y ∉ (fill (fs ++ ⟨.right, c, x, l⟩ :: path) b).inorder
  entry : ∃ e, s.entry y = some e ∧
    e.parent = holder (fs ++ ⟨.right, c, x, l⟩ :: path)

theorem succeeds_spliced
    (h : Represents s
      (fill (fs ++ ⟨.right, c, x, l⟩ :: path) (.node cy .leaf y b))) :
    Succeeds (spliced (fs ++ ⟨.right, c, x, l⟩ :: path) b s)
      path fs c l b x y := by
  have ht : (.leaf : Shape ν) = .leaf ∧ b = b ∨ b = .leaf ∧ b = .leaf :=
    .inl ⟨rfl, rfl⟩
  have hapart := splice_apart h ht
  rw [List.nodup_cons, List.mem_append, not_or] at hapart
  have hentry : (spliced (fs ++ ⟨.right, c, x, l⟩ :: path) b s).entry y =
      some (.towards .left (top .leaf) (top b)
        (holder (fs ++ ⟨.right, c, x, l⟩ :: path)) cy) :=
    (hang_entry hapart.1.2).trans
      ((adopt_entry_of_notMem hapart.1.1).trans h.focusRep.1)
  refine ⟨represents_spliced h ht, ?_, _, hentry, rfl⟩
  rw [(inorder_fill_perm _ b).mem_iff, List.mem_append, not_or]
  exact hapart.1

/-- The node above the hole is the one that stands there after the successor
has moved. -/
theorem Succeeds.holder_eq (h : Succeeds s path fs c l b x y) :
    (if holder (fs ++ ⟨.right, c, x, l⟩ :: path) = some x then some y
      else holder (fs ++ ⟨.right, c, x, l⟩ :: path)) =
      holder (fs ++ ⟨.right, c, y, l⟩ :: path) := by
  cases fs with
  | nil => exact if_pos rfl
  | cons g gs =>
      apply if_neg
      intro heq
      have hlabel : g.label = x := Option.some.inj heq
      have hnodup := (List.nodup_append.mp h.repr.nodup_focus).2.1
      rw [List.cons_append, Path.labels, List.nodup_cons] at hnodup
      apply hnodup.1
      rw [hlabel]
      simp [Path.labels_append, Path.labels]

theorem Succeeds.returns_takeOver (h : Succeeds s path fs c l b x y)
    (hl : l ≠ .leaf) :
    Returns (takeOver (some x) (some y)) s (fun _ s' =>
      Represents s' (fill (fs ++ ⟨.right, c, y, l⟩ :: path) b)) := by
  obtain ⟨e, he, -⟩ := h.entry
  have hrepr := h.repr
  have hout := h.outside
  rw [fill_inner] at hrepr hout ⊢
  rw [NtyTree.returns_takeOver hrepr hout hl he]
  exact represents_taken hrepr hout

omit [DecidableEq ν] in
/-- What `x` leaves behind when `y` has taken its place. -/
theorem Holds.succeededFocus
    (h : Holds s (fill (fs ++ ⟨.right, c, x, l⟩ :: path)
      (.node cy .leaf y b)) labels) {s' : Heap ν}
    (hs' : Represents s' (fill (fs ++ ⟨.right, c, y, l⟩ :: path) b)) :
    SpliceFocus (fill (fs ++ ⟨.right, c, y, l⟩ :: path) b).inorder cy s'
      (fs ++ ⟨.right, c, y, l⟩ :: path) b := by
  obtain ⟨m, hbal⟩ := h.balanced
  obtain ⟨n, hb, hfits, hred⟩ :=
    delete_splice hbal h.rootBlack (.inl ⟨rfl, rfl⟩)
  refine ⟨hs', rfl, n, hb, fits_relabel y hfits, ?_⟩
  intro hcy
  exact ⟨(hred hcy).1, topBlack_relabel y (hred hcy).2⟩

omit [DecidableEq ν] in
/-- The outermost node to the left comes first. -/
theorem inorder_outermost (h : Along .left fs) :
    (fill fs (Shape.branch .left cy .leaf y b)).inorder =
      y :: (fill fs b).inorder := by
  rw [inorder_fill, inorder_fill, before_of_along h]
  rfl

omit [DecidableEq ν] in
theorem returns_augments {t : Shape ν} (h : Represents s (fill path t))
    (hfuel : path.length < fuel) :
    Returns (if (holder path).isSome then iterate augmentStep fuel (holder path)
      else pure ()) s (fun _ s' => s' = s) := by
  cases path with
  | nil => simp
  | cons f fs =>
      rw [List.length_cons] at hfuel
      rw [holder_cons, Option.isSome_some, if_pos rfl]
      exact returns_augment h (by omega)

omit [DecidableEq ν] in
theorem Holds.inner (h : Holds s (fill path (.node c l x (fill fs b))) labels) :
    Holds s (fill (fs ++ ⟨.right, c, x, l⟩ :: path) b) labels := by
  rw [fill_inner]
  exact h

/-- A node with two children: its successor takes its place. -/
theorem Holds.returns_removeInner
    (h : Holds s (fill path (.node c l x r)) labels) (hl : l ≠ .leaf)
    (hr : r ≠ .leaf) (hfuel : (fill path (.node c l x r)).height < fuel) :
    Returns (removeInner fuel (some x)) s (fun answer s' =>
      answer = some x ∧ ∃ T, Holds s' T (labels.erase x)) := by
  have hright : Represents s (fill (⟨.right, c, x, l⟩ :: path) r) := h.repr
  have hheight : r.height < fuel := by
    have hlength := length_add_height_le (⟨.right, c, x, l⟩ :: path) r
    have heq : fill (⟨.right, c, x, l⟩ :: path) r =
      fill path (.node c l x r) := rfl
    rw [heq] at hlength
    omega
  rw [removeInner, returns_bind, returns_rbChild h.repr.focusRep.1, returns_bind]
  apply (returns_outermost (d := .left) hright hr hheight).mono
  rintro _ s ⟨rfl, fs, cy, y, b, rfl, halong, rfl⟩
  rw [← fill_append] at hright
  have hy := hright.focusRep.1
  have hsuccessor := succeeds_spliced hright
  obtain ⟨e, he, hparent⟩ := hsuccessor.entry
  rw [returns_bind, returns_rbChild hy, returns_bind, returns_rbParent hy,
    Entry.parent_towards, returns_bind, returns_rbColor hy,
    Entry.color_towards, returns_bind]
  change Returns (spliceOut _ (some y) (top b)) s _
  rw [returns_spliceOut hright (.inl ⟨rfl, rfl⟩), returns_bind,
    returns_rbParent he, hparent, hsuccessor.holder_eq, returns_bind]
  apply (hsuccessor.returns_takeOver hl).mono
  intro _ s₁ hs₁
  have hlength : (fs ++ ⟨.right, c, y, l⟩ :: path).length < fuel := by
    have hpath := length_add_height_le (fs ++ ⟨.right, c, x, l⟩ :: path)
      (Shape.branch .left cy .leaf y b)
    rw [fill_inner] at hpath
    simp only [List.length_append, List.length_cons] at hpath ⊢
    exact lt_of_le_of_lt (by omega) hfuel
  have hfinish := (h.inner.succeededFocus hs₁).returns_finish hlength
  rw [returns_when]
  apply (returns_augments hs₁ hlength).mono
  rintro _ _ rfl
  rw [returns_when]
  apply hfinish.mono
  intro _ s₂ hs₂
  rw [returns_pure]
  refine ⟨rfl, ?_⟩
  rw [← h.inorder, erase_focus h.repr, inorder_outermost halong]
  simpa [fill_inner, inorder_fill, Shape.inorder] using hs₂

theorem Holds.returns_rbRemove (h : Holds s T labels) (hx : x ∈ labels)
    (hfuel : T.height < fuel) :
    Returns (rbRemove fuel (some x)) s (fun answer s' =>
      answer = some x ∧ ∃ T', Holds s' T' (labels.erase x)) := by
  rw [← h.inorder] at hx
  obtain ⟨path, c, l, r, rfl⟩ := exists_fill_of_mem hx
  have hleft : ∀ Q, Returns (rbChild .left (some x)) s Q ↔ Q (top l) s :=
    fun Q => returns_rbChild_node h.repr rfl .left Q
  have hright : ∀ Q, Returns (rbChild .right (some x)) s Q ↔ Q (top r) s :=
    fun Q => returns_rbChild_node h.repr rfl .right Q
  rw [rbRemove, returns_bind, hleft]
  by_cases hl : l = .leaf
  · subst hl
    rw [if_pos (by simp), returns_bind, hright]
    exact h.returns_removeLeaf (.inl ⟨rfl, rfl⟩) hfuel
  · rw [if_neg (by simp [top_eq_none, hl]), returns_bind, hright]
    by_cases hr : r = .leaf
    · subst hr
      rw [if_pos (by simp), returns_bind, hleft]
      exact h.returns_removeLeaf (.inr ⟨rfl, rfl⟩) hfuel
    · rw [if_neg (by simp [top_eq_none, hr])]
      exact h.returns_removeInner hl hr hfuel

end Remove

end NtyTree

end CAdvanced
