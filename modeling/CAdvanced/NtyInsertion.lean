import CAdvanced.NtyLookup

/-!
# Insertion into the coroutine library's trees

`RB_INSERT` descends to the hole that the key belongs into and hangs a red node
there.  The loop of `RB_INSERT_COLOR` then works at a red, balanced focus, and
the only violation it may meet is a red node above the focus.
-/

namespace CAdvanced

open Fallible
open LinkedTree
open RedBlack

namespace NtyTree

variable {ν : Type} [DecidableEq ν]

/-- A tree of the library: the entries from the root on are a red-black tree
with these elements in order. -/
structure Holds (s : Heap ν) (T : Shape ν) (labels : List ν) : Prop where
  repr : Represents s T
  rootBlack : T.rootColor = .black
  balanced : ∃ m, T.Balanced m
  inorder : T.inorder = labels

/-! ## Paint -/

section Paint

variable {s : Heap ν} {path fs : Path ν} {f g : Frame ν} {t : Shape ν}
  {c : Color}

theorem returns_paintTop (h : Represents s (fill path t)) (hne : t ≠ .leaf) :
    Returns (setRbColor (top t) c) s (fun _ s' =>
      Represents s' (fill path (t.paint c))) := by
  obtain ⟨c', a, x, b, rfl⟩ := Shape.exists_branch .left hne
  rw [top_branch, returns_paint h, Shape.paint_branch]
  exact h.paint c

theorem returns_paintHolder (h : Represents s (fill (f :: fs) t)) :
    Returns (setRbColor (some f.label) c) s (fun _ s' =>
      Represents s' (fill ({ f with color := c } :: fs) t)) := by
  rw [fill_cons, Frame.plug] at h
  rw [returns_paint h]
  exact h.paint c

theorem returns_paintSibling (h : Represents s (fill (f :: fs) t))
    (hne : f.sibling ≠ .leaf) :
    Returns (setRbColor (top f.sibling) c) s (fun _ s' =>
      Represents s'
        (fill ({ f with sibling := f.sibling.paint c } :: fs) t)) :=
  (returns_paintTop h.toSibling hne).mono (fun _ _ h' => h'.fromSibling)

omit [DecidableEq ν] in
theorem returns_isRed_holder (h : Represents s (fill path t))
    (Q : Bool → Heap ν → Prop) :
    Returns (isRed (holder path)) s Q ↔
      Q (decide (Path.topColor path = .red)) s := by
  cases path with
  | nil => simp [isRed, Path.topColor]
  | cons f fs =>
      rw [holder_cons, isRed, returns_bind, returns_rbColor h.entry_holder,
        returns_pure, Entry.color_towards]
      rfl

end Paint

/-! ## The repair -/

/-- The state of the loop: the focus `t` below `path`, black height `n`, and
`k` bounding the turns that may follow. -/
structure InsertFocus (labels : List ν) (k : ℕ) (s : Heap ν) (path : Path ν)
    (t : Shape ν) (n : ℕ) : Prop where
  repr : Represents s (fill path t)
  red : t.rootColor = .red
  balanced : t.Balanced n
  fits : Path.Fits path n
  inorder : (fill path t).inorder = labels
  bound : Path.topColor path = .red → path.length ≤ 2 * k

section Repair

variable {labels : List ν} {k n : ℕ} {s : Heap ν} {path fs : Path ν}
  {f g : Frame ν} {t : Shape ν}

omit [DecidableEq ν] in
theorem InsertFocus.ne_leaf (h : InsertFocus labels k s path t n) :
    t ≠ .leaf := by
  rintro rfl
  cases h.red

/-- Recoloring under a red uncle. -/
theorem InsertFocus.recolor (h : InsertFocus labels k s (f :: g :: fs) t n)
    (hf : f.color = .red) (huncle : g.sibling.rootColor = .red) :
    Returns (do
        setRbColor (top g.sibling) .black
        rbSetBlackred (some f.label) (some g.label)) s (fun _ s' =>
      ∃ t', top t' = some g.label ∧
        InsertFocus labels (k - 1) s' fs t' (n + 1)) := by
  have hne : g.sibling ≠ .leaf := by
    intro hleaf
    rw [hleaf] at huncle
    cases huncle
  have huncle' : Represents s (fill (g :: fs) (f.plug t)) := h.repr
  rw [returns_bind]
  apply (returns_paintSibling huncle' hne).mono
  intro _ s₁ hs₁
  rw [← fill_cons] at hs₁
  rw [rbSetBlackred, returns_bind]
  apply (returns_paintHolder hs₁).mono
  intro _ s₂ hs₂
  rw [fill_cons] at hs₂
  apply (returns_paintHolder hs₂).mono
  intro _ s₃ hs₃
  rw [fill_cons] at hs₃
  obtain ⟨hbal, hfits⟩ := insert_recolor h.fits h.balanced hf huncle
  refine ⟨_, ?_, hs₃, ?_, hbal, hfits, ?_, ?_⟩
  · simp [Frame.plug]
  · simp [Frame.plug]
  · rw [← h.inorder, fill_cons, fill_cons]
    apply inorder_fill_congr
    apply Shape.inorder_recolor
    · exact Shape.inorder_recolor _ _ _ _ rfl rfl
    · simp
  · intro _
    have hbound := h.bound hf
    simp only [List.length_cons] at hbound
    omega

/-- The outer case: two colors and one rotation. -/
theorem InsertFocus.outer (h : InsertFocus labels k s (f :: g :: fs) t n)
    (hf : f.color = .red) (huncle : g.sibling.rootColor = .black)
    (hdir : f.dir = g.dir) :
    Returns (insertColorOuter g.dir (top t) (some f.label) (some g.label)) s
      (fun elm s' => elm = top t ∧
        ∃ path, InsertFocus labels 0 s' path t n) := by
  rw [insertColorOuter, rbSetBlackred, bind_assoc, returns_bind]
  apply (returns_paintHolder h.repr).mono
  intro _ s₁ hs₁
  rw [fill_cons] at hs₁
  rw [returns_bind]
  apply (returns_paintHolder hs₁).mono
  intro _ s₂ hs₂
  simp only [fill_cons, Frame.plug, hdir] at hs₂
  rw [← Shape.branch_flip g.dir .red, ← Shape.branch_flip g.dir .black] at hs₂
  rw [returns_bind]
  apply (returns_rbRotate hs₂).mono
  intro _ s₃ hs₃
  rw [Shape.branch_flip, Shape.branch_flip] at hs₃
  rw [returns_pure]
  refine ⟨rfl, ⟨g.dir, .black, f.label,
    Shape.branch g.dir .red f.sibling g.label g.sibling⟩ :: fs, hs₃, h.red,
    h.balanced, insert_outer h.fits hf huncle, ?_, ?_⟩
  · rw [← h.inorder]
    simp only [fill_cons, Frame.plug, hdir]
    apply inorder_fill_congr
    cases g.dir <;> simp [Shape.branch, Shape.inorder]
  · intro hred
    cases hred

/-- The first rotation of the inner case leaves an outer case, with the former
parent as the focus. -/
theorem InsertFocus.inner (h : InsertFocus labels k s (f :: g :: fs) t n)
    (hf : f.color = .red) (hdir : f.dir = g.dir.flip) :
    Returns (rbRotate g.dir (some f.label)) s (fun _ s' =>
      ∃ x a b, top t = some x ∧
        InsertFocus labels k s' (⟨g.dir, .red, x, b⟩ :: g :: fs)
          (Shape.branch g.dir .red f.sibling f.label a) n) := by
  obtain ⟨c, a, x, b, rfl⟩ := Shape.exists_branch g.dir h.ne_leaf
  have hc : c = .red := by simpa using h.red
  subst hc
  obtain ⟨hbal, hfits⟩ := insert_inner h.fits h.balanced hf
  have hrepr := h.repr
  rw [fill_cons] at hrepr
  simp only [Frame.plug, hdir, hf, Shape.branch_flip] at hrepr
  apply (returns_rbRotate hrepr).mono
  intro _ s' hs'
  refine ⟨x, a, b, top_branch _ _ _ _ _, hs', ?_, hbal, hfits, ?_, ?_⟩
  · simp
  · rw [← h.inorder, fill_cons, fill_cons]
    apply inorder_fill_congr
    simp only [Frame.plug, hdir, Shape.branch_flip]
    exact Shape.inorder_recolor _ _ _ _
      (Shape.inorder_rotate g.dir f.color .red .red .red _ _ _ _ _).symm rfl
  · intro _
    have hbound := h.bound hf
    simpa using hbound

omit [DecidableEq ν] in
theorem InsertFocus.weaken {k' : ℕ} (h : InsertFocus labels k s path t n)
    (hk : k ≤ k') : InsertFocus labels k' s path t n :=
  ⟨h.repr, h.red, h.balanced, h.fits, h.inorder,
    fun hred => (h.bound hred).trans (by omega)⟩

theorem InsertFocus.side (h : InsertFocus labels k s (f :: g :: fs) t n)
    (hf : f.color = .red) :
    Returns (insertColorSide g.dir (top t) (some f.label) (some g.label)) s
      (fun elm s' => ∃ path t' n', elm = top t' ∧
        InsertFocus labels (k - 1) s' path t' n') := by
  have hg : Represents s (fill (g :: fs) (f.plug t)) := h.repr
  rw [insertColorSide, returns_bind, returns_rbChild hg.entry_holder,
    Entry.child_flip_towards, returns_bind, returns_isRed hg.toSibling.focusRep]
  cases huncle : g.sibling.rootColor with
  | red =>
      have hrecolor := h.recolor hf huncle
      rw [returns_bind] at hrecolor
      rw [if_pos (decide_eq_true rfl), returns_bind]
      apply hrecolor.mono
      intro _ s₁ hs₁
      rw [returns_bind]
      apply hs₁.mono
      rintro _ s₂ ⟨t', htop, hfocus⟩
      rw [returns_pure]
      exact ⟨fs, t', n + 1, htop.symm, hfocus⟩
  | black =>
      have hiff := h.repr.child_holder_eq_iff (.inl h.ne_leaf) g.dir.flip
      rw [if_neg (by simp), returns_bind, returns_rbChild h.repr.entry_holder]
      by_cases hdir : f.dir = g.dir
      · rw [if_neg (by rw [hiff, hdir]; simp)]
        apply (h.outer hf huncle hdir).mono
        rintro _ s' ⟨rfl, path, hfocus⟩
        exact ⟨path, t, n, rfl, hfocus.weaken (Nat.zero_le _)⟩
      · have hflip := Dir.eq_flip_of_ne hdir
        rw [if_pos (hiff.mpr hflip), returns_bind]
        apply (h.inner hf hflip).mono
        rintro _ s₁ ⟨x, a, b, htop, hfocus⟩
        have houter := hfocus.outer rfl huncle rfl
        rw [top_branch] at houter
        rw [htop]
        apply houter.mono
        rintro _ s' ⟨rfl, path, hfocus'⟩
        exact ⟨path, _, n, (top_branch _ _ _ _ _).symm,
          hfocus'.weaken (Nat.zero_le _)⟩

theorem InsertFocus.step (h : InsertFocus labels k s path t n) :
    Returns (insertColorStep (top t)) s (fun r s' =>
      match r with
      | .inl elm => ∃ k' < k, ∃ path' t' n', elm = top t' ∧
          InsertFocus labels k' s' path' t' n'
      | .inr _ => s' = s ∧ Path.topColor path = .black) := by
  rw [insertColorStep, returns_bind, returns_rbParent_top h.repr h.ne_leaf,
    returns_bind, returns_isRed_holder h.repr]
  cases hcolor : Path.topColor path with
  | black =>
      rw [if_neg (by simp), returns_pure]
      exact ⟨rfl, rfl⟩
  | red =>
      obtain ⟨f, g, fs, rfl, hf, -⟩ := h.fits.exists_grandparent hcolor
      have hk : 0 < k := by
        have hbound := h.bound hcolor
        simp only [List.length_cons] at hbound
        omega
      have hg : Represents s (fill (g :: fs) (f.plug t)) := h.repr
      have hplug : f.plug t ≠ .leaf := branch_ne_leaf _ _ _ _ _
      have htop : top (f.plug t) = some f.label := top_branch _ _ _ _ _
      have hiff := hg.child_holder_eq_iff (.inl hplug) .left
      rw [htop, eq_comm] at hiff
      have hside := h.side hf
      rw [if_pos (decide_eq_true rfl), holder_cons, returns_bind,
        returns_rbParent h.repr.entry_holder, Entry.parent_towards,
        holder_cons, returns_bind, returns_rbChild hg.entry_holder, htop]
      have hnext : ∀ elm s', (∃ path t' n', elm = top t' ∧
          InsertFocus labels (k - 1) s' path t' n') →
          ∃ k' < k, ∃ path' t' n', elm = top t' ∧
            InsertFocus labels k' s' path' t' n' :=
        fun elm s' hfocus => ⟨k - 1, by omega, hfocus⟩
      by_cases hdir : g.dir = .left
      · rw [if_pos (hiff.mpr hdir), returns_bind]
        rw [hdir] at hside
        apply hside.mono
        intro elm s' hfocus
        rw [returns_pure]
        exact hnext elm s' hfocus
      · have hright : g.dir = .right := Dir.eq_flip_of_ne hdir
        rw [if_neg (fun heq => hdir (hiff.mp heq)), returns_bind]
        rw [hright] at hside
        apply hside.mono
        intro elm s' hfocus
        rw [returns_pure]
        exact hnext elm s' hfocus

/-- The root is painted black in the end. -/
theorem InsertFocus.returns_blackenRoot (h : InsertFocus labels k s path t n)
    (hblack : Path.topColor path = .black) :
    Returns (do setRbColor (← rbRoot) .black) s (fun _ s' =>
      ∃ T, Holds s' T labels) := by
  have hne : fill path t ≠ .leaf := by
    intro hleaf
    have hlabels := congrArg Shape.inorder hleaf
    rw [inorder_fill] at hlabels
    obtain ⟨c, a, x, b, rfl⟩ := Shape.exists_branch .left h.ne_leaf
    simp [Shape.branch, Shape.inorder] at hlabels
  have hrepr : Represents s (fill [] (fill path t)) := h.repr
  rw [returns_bind, returns_rbRoot, h.repr.root]
  apply (returns_paintTop hrepr hne).mono
  intro _ s' hs'
  refine ⟨_, hs', ?_, ?_, ?_⟩
  · rw [fill_nil, Shape.rootColor_paint_black]
  · have hbal : ∃ m, (fill path t).Balanced m := by
      apply fill_balanced h.fits h.balanced
      intro _ hcons
      cases path with
      | nil => exact absurd rfl hcons
      | cons f fs => exact hblack
    obtain ⟨m, hm⟩ := hbal
    exact hm.exists_paint_black
  · rw [fill_nil, Shape.inorder_paint]
    exact h.inorder

/-- The whole repair, from a red focus whose path is the only place of a
violation. -/
theorem InsertFocus.returns_rbInsertColor {fuel : ℕ}
    (h : InsertFocus labels k s path t n) (hfuel : k < fuel) :
    Returns (rbInsertColor fuel (top t)) s (fun _ s' =>
      ∃ T, Holds s' T labels) := by
  rw [rbInsertColor, returns_bind]
  apply (iterate_returns
    (fun k' elm s' => ∃ path' t' n', elm = top t' ∧
      InsertFocus labels k' s' path' t' n')
    (Q := fun _ s' => ∃ k' path' t' n',
      InsertFocus labels k' s' path' t' n' ∧ Path.topColor path' = .black)
    ?_ ⟨path, t, n, rfl, h⟩ hfuel).mono
  · rintro _ s' ⟨k', path', t', n', hfocus, hblack⟩
    exact hfocus.returns_blackenRoot hblack
  · rintro k' elm s' ⟨path', t', n', rfl, hfocus⟩
    apply hfocus.step.mono
    intro r s'' hr
    cases r with
    | inl elm' => exact hr
    | inr _ =>
        obtain ⟨rfl, hblack⟩ := hr
        exact ⟨k', path', t', n', hfocus, hblack⟩

end Repair

/-! ## Attaching a node -/

section Attach

variable {κ : Type} [LinearOrder κ] {key : ν → κ} {s : Heap ν} {T : Shape ν}
  {labels : List ν} {path : Path ν} {x : ν} {comp : ℤ}

/-- A red leaf hangs in the hole of the path. -/
def attached (path : Path ν) (x : ν) (s : Heap ν) : Heap ν :=
  hang path (some x) (setEntry x ⟨none, none, holder path, .red⟩ s)

theorem represents_attached (h : Represents s (fill path .leaf))
    (hx : x ∉ (fill path .leaf).inorder) :
    Represents (attached path x s) (fill path (.node .red .leaf x .leaf)) := by
  have hxpath : x ∉ Path.labels path := by
    rw [(inorder_fill_perm path .leaf).mem_iff] at hx
    simpa using hx
  have hnodup : (Path.labels path).Nodup := by simpa using h.nodup_focus
  apply Represents.of_focus
  · exact (h.focusPath.setEntry hxpath _).hang hnodup (some x)
  · refine ⟨?_, trivial, trivial⟩
    rw [attached, hang_entry hxpath, setEntry_self]
    rfl
  · exact List.nodup_cons.mpr ⟨hxpath, hnodup⟩

theorem returns_rbAttach (h : Represents s (fill path .leaf))
    (hx : x ∉ (fill path .leaf).inorder) (haims : Aims path comp)
    (Q : Unit → Heap ν → Prop) :
    Returns (rbAttach x (holder path) comp) s Q ↔
      Q () (attached path x s) := by
  rw [rbAttach, rbSet, returns_bind, returns_modify]
  cases path with
  | nil => simp [setRbRoot, attached, hang]
  | cons f fs =>
      have hside := haims f rfl
      have hne : f.label ≠ x := by
        rintro rfl
        apply hx
        rw [(inorder_fill_perm _ _).mem_iff]
        simp [Path.labels]
      have hentry := h.entry_holder
      rw [← setEntry_of_ne (e := ⟨none, none, some f.label, .red⟩) s hne]
        at hentry
      obtain ⟨d, c, y, sib⟩ := f
      rw [holder_cons, Option.isSome_some, if_pos rfl]
      cases d with
      | left =>
          rw [if_pos (hside.mpr rfl), returns_setRbChild hentry]
          rfl
      | right =>
          rw [if_neg (fun hneg => by cases hside.mp hneg),
            returns_setRbChild hentry]
          rfl

/-- The focus with which the repair starts: a lone red node. -/
theorem Holds.insertFocus (h : Holds s (fill path .leaf) labels)
    (hx : x ∉ (fill path .leaf).inorder) :
    InsertFocus (Path.before path ++ x :: Path.after path) path.length
      (attached path x s) path (.node .red .leaf x .leaf) 0 := by
  obtain ⟨m, hbal⟩ := h.balanced
  obtain ⟨n, hleaf, hfits, -⟩ := fits_of_balanced hbal h.rootBlack
  rw [Shape.balanced_leaf] at hleaf
  subst hleaf
  exact
    { repr := represents_attached h.repr hx
      red := rfl
      balanced := by simp [Shape.Balanced, Shape.rootColor]
      fits := hfits
      inorder := by simp [inorder_fill, Shape.inorder]
      bound := fun _ => by omega }

theorem Holds.returns_rbInsert {cmp : ν → ν → ℤ} {fuel : ℕ}
    (h : Holds s T labels) (hsorted : SortedBy key labels)
    (hcmp : Compares key (key x) (cmp x)) (hfuel : T.height < fuel) :
    Returns (rbInsert fuel cmp x) s (fun answer s' =>
      answer = (OrderedIndex.insert key x labels).1 ∧
        ∃ T', Holds s' T' (OrderedIndex.insert key x labels).2) := by
  have hlabels := h.inorder
  subst hlabels
  rw [rbInsert, returns_bind]
  apply (returns_search h.repr hsorted hcmp hfuel).mono
  rintro r s₁ ⟨rfl, hr⟩
  cases r with
  | inl y =>
      obtain ⟨hy, hkey⟩ := hr
      rw [returns_pure, OrderedIndex.insert_of_taken hsorted hy hkey]
      exact ⟨rfl, T, h⟩
  | inr hole =>
      obtain ⟨path, rfl, hk, haims, hparent⟩ := hr
      have hfree := hk.ne_of_mem
      have hx : x ∉ (fill path .leaf).inorder := fun hmem => hfree x hmem rfl
      have hlength : path.length ≤ (fill path (.leaf : Shape ν)).height :=
        length_add_height_le path .leaf
      have hrepair :=
        (h.insertFocus hx).returns_rbInsertColor (lt_of_le_of_lt hlength hfuel)
      rw [returns_bind, hparent, returns_rbAttach h.repr hx haims, returns_bind]
      apply hrepair.mono
      rintro _ s' ⟨T', hT'⟩
      rw [returns_pure, OrderedIndex.insert_of_free hfree, inorder_fill,
        Shape.inorder_leaf, List.append_nil,
        OrderedIndex.orderedInsert_append hk.1 hk.2]
      exact ⟨rfl, T', hT'⟩

end Attach

end NtyTree

end CAdvanced
