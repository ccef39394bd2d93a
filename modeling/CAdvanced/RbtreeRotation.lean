import CAdvanced.RbtreeRep

/-!
# Recoloring and rotating at a focus

The two ways in which the repairs change a tree.  Each is stated at a focus
and leaves the sentinel's cell and the header untouched.
-/

namespace CAdvanced

open Fallible
open RedBlack
open Rbtree

/-- The header and the sentinel's cell are as before; only its parent, its
color and the root pointer may differ. -/
structure KeepsHeader (s s' : Rbtree) : Prop where
  arena : s'.arena = s.arena
  nil : s'.nil = s.nil
  count : s'.count = s.count
  child : ∀ d, s'.child d s.nil = s.child d s.nil
  key : s'.key s.nil = s.key s.nil
  value : s'.value s.nil = s.value s.nil

/-- The sentinel's parent is as before, too. -/
structure KeepsSentinel (s s' : Rbtree) : Prop extends KeepsHeader s s' where
  parent : s'.parent s.nil = s.parent s.nil

theorem KeepsHeader.refl (s : Rbtree) : KeepsHeader s s :=
  ⟨rfl, rfl, rfl, fun _ => rfl, rfl, rfl⟩

theorem KeepsHeader.trans {s s' s'' : Rbtree} (h : KeepsHeader s s')
    (h' : KeepsHeader s' s'') : KeepsHeader s s'' where
  arena := h'.arena.trans h.arena
  nil := h'.nil.trans h.nil
  count := h'.count.trans h.count
  child := fun d => by rw [← h.child d, ← h.nil]; exact h'.child d
  key := by rw [← h.key, ← h.nil]; exact h'.key
  value := by rw [← h.value, ← h.nil]; exact h'.value

theorem KeepsSentinel.refl (s : Rbtree) : KeepsSentinel s s :=
  ⟨KeepsHeader.refl s, rfl⟩

theorem KeepsSentinel.trans {s s' s'' : Rbtree} (h : KeepsSentinel s s')
    (h' : KeepsSentinel s' s'') : KeepsSentinel s s'' where
  toKeepsHeader := h.toKeepsHeader.trans h'.toKeepsHeader
  parent := by rw [← h.parent, ← h.nil]; exact h'.parent

theorem KeepsSentinel.withColor (p : Addr) (c : Color) (s : Rbtree) :
    KeepsSentinel s (withColor p c s) :=
  ⟨⟨rfl, rfl, rfl, fun _ => rfl, rfl, rfl⟩, rfl⟩

/-! ## Cells away from an update -/

theorem sameCell_withColor {p a : Addr} (c : Color) (s : Rbtree)
    (hne : a ≠ p) : SameCell s (withColor p c s) a := by
  constructor <;> simp [withColor, hne]

theorem sameCell_withChild (d : Dir) {p a : Addr} (q : Addr) (s : Rbtree)
    (hne : a ≠ p) : SameCell s (withChild d p q s) a where
  live := id
  color := rfl
  child := fun e => child_withChild_of_ne d e q s hne
  parent := rfl
  key := rfl
  value := rfl

theorem sameCell_withParent {p a : Addr} (q : Addr) (s : Rbtree)
    (hne : a ≠ p) : SameCell s (withParent p q s) a := by
  constructor <;> simp [withParent, hne]

/-! ## Recoloring -/

theorem ne_ptr_of_mem_path {s : Rbtree} {path : Path Node}
    {t : Shape Node} (h : Repr s (fill path t)) {a : Addr}
    (ha : a ∈ pathAddrs path) : a ≠ ptr s.nil t := by
  by_cases ht : t = .leaf
  · subst t
    exact h.path_ne_nil a ha
  · rintro rfl
    exact (List.nodup_append.mp h.nodup_focus).2.2 _ (ptr_mem_addrs ht) _
      ha rfl

/-- Painting the focused subtree; the sentinel may only be painted black. -/
theorem Repr.afterPaint {s : Rbtree} {path : Path Node} {t : Shape Node}
    (h : Repr s (fill path t)) {c : Color} (hc : t ≠ .leaf ∨ c = .black) :
    Repr (withColor (ptr s.nil t) c s) (fill path (t.paint c)) := by
  have hfocus := h.focusRep
  have hnodup := h.nodup_focus
  apply Repr.of_focus
  · simp only [withColor_nil, ptr_paint]
    refine h.focusPath.frame rfl rfl ?_
    intro a ha
    exact sameCell_withColor c s (ne_ptr_of_mem_path h ha)
  · cases t with
    | leaf => trivial
    | node c' l x r =>
        obtain ⟨hcell, hl, hr⟩ := hfocus
        have hnot : x.addr ∉ addrs l ∧ x.addr ∉ addrs r := by
          have hperm := addrs_branch_perm .left c' l r x
          have := (hperm.nodup_iff).mp (List.nodup_append.mp hnodup).1
          simpa using (List.nodup_cons.mp this).1
        refine ⟨?_, hl.frame rfl ?_, hr.frame rfl ?_⟩
        · exact
            { ne_nil := hcell.ne_nil
              live := hcell.live
              color := by simp [ptr]
              near := hcell.near
              far := hcell.far
              parent := hcell.parent
              key := hcell.key
              value := hcell.value }
        · intro a ha
          exact sameCell_withColor c s
            (fun heq => hnot.1 (by rw [heq] at ha; exact ha))
        · intro a ha
          exact sameCell_withColor c s
            (fun heq => hnot.2 (by rw [heq] at ha; exact ha))
  · simpa using hnodup
  · by_cases ht : t = .leaf
    · subst t
      rcases hc with hc | rfl
      · exact absurd rfl hc
      · simp
    · have hne : s.nil ≠ ptr s.nil t :=
        (h.focus_ne_nil _ (ptr_mem_addrs ht)).symm
      simp [hne, h.nilBlack]
  · exact h.nilLive

/-- `Repr.afterPaint` for the program: one color assignment. -/
theorem Repr.returns_setColor {s : Rbtree} {path : Path Node}
    {t : Shape Node} (h : Repr s (fill path t)) (c : Color)
    (Q : Unit → Rbtree → Prop) :
    Returns (setColor (ptr s.nil t) c) s Q ↔
      Q () (withColor (ptr s.nil t) c s) := by
  simp [setColor, isLive, h.live_ptr]

/-! ## Rotation -/

/-- Store `p` in the hole of the path. -/
def hang (path : Path Node) (p : Addr) (s : Rbtree) : Rbtree :=
  match path with
  | [] => withRoot p s
  | f :: _ => withChild f.dir f.label.addr p s

/-- `x` becomes the parent of `b`, unless `b` is the sentinel. -/
def adopt (b x : Addr) (s : Rbtree) : Rbtree :=
  if b = s.nil then s else withParent b x s

/-- The state after `rotate d x` with `y` the other child of `x` and `b` the
middle subtree. -/
def rotated (d : Dir) (path : Path Node) (x y b : Addr) (s : Rbtree) :
    Rbtree :=
  withParent x y
    (withChild d y x
      (hang path y
        (withParent y (holder s.nil path)
          (adopt b x (withChild d.flip x b s)))))

section HangFields

variable (path : Path Node) (p : Addr) (s : Rbtree)

@[simp] theorem hang_arena : (hang path p s).arena = s.arena := by
  cases path <;> rfl

@[simp] theorem hang_nil : (hang path p s).nil = s.nil := by
  cases path <;> rfl

@[simp] theorem hang_count : (hang path p s).count = s.count := by
  cases path <;> rfl

@[simp] theorem hang_color : (hang path p s).color = s.color := by
  cases path <;> rfl

@[simp] theorem hang_parent : (hang path p s).parent = s.parent := by
  cases path <;> rfl

@[simp] theorem hang_key : (hang path p s).key = s.key := by
  cases path <;> rfl

@[simp] theorem hang_value : (hang path p s).value = s.value := by
  cases path <;> rfl

theorem hang_child_of_notMem {a : Addr} (ha : a ∉ pathAddrs path) (d : Dir) :
    (hang path p s).child d a = s.child d a := by
  cases path with
  | nil => rfl
  | cons f fs =>
      apply child_withChild_of_ne
      rintro rfl
      simp at ha

theorem sameCell_hang {a : Addr} (ha : a ∉ pathAddrs path) :
    SameCell s (hang path p s) a where
  live := by simp
  color := by simp
  child := hang_child_of_notMem path p s ha
  parent := by simp
  key := by simp
  value := by simp

end HangFields

section AdoptFields

variable (b x : Addr) (s : Rbtree)

@[simp] theorem adopt_arena : (adopt b x s).arena = s.arena := by
  unfold adopt; split <;> rfl

@[simp] theorem adopt_root : (adopt b x s).root = s.root := by
  unfold adopt; split <;> rfl

@[simp] theorem adopt_nil : (adopt b x s).nil = s.nil := by
  unfold adopt; split <;> rfl

@[simp] theorem adopt_count : (adopt b x s).count = s.count := by
  unfold adopt; split <;> rfl

@[simp] theorem adopt_color : (adopt b x s).color = s.color := by
  unfold adopt; split <;> rfl

@[simp] theorem adopt_child : (adopt b x s).child = s.child := by
  unfold adopt; split <;> rfl

@[simp] theorem adopt_key : (adopt b x s).key = s.key := by
  unfold adopt; split <;> rfl

@[simp] theorem adopt_value : (adopt b x s).value = s.value := by
  unfold adopt; split <;> rfl

theorem adopt_parent (a : Addr) :
    (adopt b x s).parent a =
      if a = b ∧ b ≠ s.nil then some x else s.parent a := by
  unfold adopt
  split
  next hnil => simp [hnil]
  next hnil => simp [Function.update_apply, hnil]

theorem sameCell_adopt {a : Addr} (hne : a ≠ b) :
    SameCell s (adopt b x s) a := by
  unfold adopt
  split
  next => exact SameCell.refl s a
  next => exact sameCell_withParent x s hne

end AdoptFields

theorem RepPath.afterHang {s : Rbtree} {path : Path Node} {q : Addr}
    (h : RepPath s path q) (hnodup : (pathAddrs path).Nodup) (p : Addr) :
    RepPath (hang path p s) path p := by
  cases path with
  | nil => rfl
  | cons f fs =>
      obtain ⟨hcell, hsib, hfs⟩ := h
      simp only [pathAddrs_cons, List.nodup_cons, List.mem_append,
        not_or] at hnodup
      have hother : ∀ a, a ≠ f.label.addr →
          SameCell s (withChild f.dir f.label.addr p s) a :=
        fun a hne => sameCell_withChild f.dir p s hne
      refine ⟨?_, hsib.frame rfl ?_, hfs.frame rfl rfl ?_⟩
      · exact
          { ne_nil := hcell.ne_nil
            live := hcell.live
            color := hcell.color
            near := by simp [hang]
            far := by simpa [hang] using hcell.far
            parent := hcell.parent
            key := hcell.key
            value := hcell.value }
      · intro a ha
        apply hother
        rintro rfl
        exact hnodup.1.1 ha
      · intro a ha
        apply hother
        rintro rfl
        exact hnodup.1.2 ha

theorem returns_adoptMiddle {s : Rbtree} {d : Dir} {x y b : Addr}
    (hb : s.child d y = some b) (hlive : b ≠ s.nil → b ∈ s.arena.live)
    (Q : Unit → Rbtree → Prop) :
    Returns (adoptMiddle d y x) s Q ↔ Q () (adopt b x s) := by
  by_cases hnil : b = s.nil
  · simp [adoptMiddle, childOf, nilOf, hb, adopt, hnil]
  · simp [adoptMiddle, childOf, nilOf, setParent, isLive, hb, adopt, hnil,
      hlive hnil]

theorem returns_replaceInParent {s : Rbtree} {path : Path Node}
    {x : Addr} (hpath : RepPath s path x)
    (hparent : s.parent x = some (holder s.nil path))
    (hx : x ≠ s.nil) (hxpath : x ∉ pathAddrs path)
    (d : Dir) (y : Addr) (Q : Unit → Rbtree → Prop) :
    Returns (replaceInParent d x y) s Q ↔ Q () (hang path y s) := by
  cases path with
  | nil =>
      simp only [holder] at hparent
      simp [replaceInParent, parentOf, nilOf, setRoot, hparent, hang]
  | cons f fs =>
      obtain ⟨hcell, hsib, hfs⟩ := hpath
      simp only [holder] at hparent
      simp only [pathAddrs_cons, List.mem_cons, List.mem_append,
        not_or] at hxpath
      have hsibling : x ≠ ptr s.nil f.sibling := by
        by_cases hleaf : f.sibling = .leaf
        · rw [hleaf]
          exact hx
        · rintro rfl
          exact hxpath.2.1 (ptr_mem_addrs hleaf)
      have hnil := hcell.ne_nil
      have hlive := hcell.live
      have hnear := hcell.near
      have hfar := hcell.far
      by_cases hd : f.dir = d
      · subst hd
        simp [replaceInParent, parentOf, nilOf, childOf, setChild, isLive,
          hparent, hnil, hlive, hnear, hang]
      · have hflip : d = f.dir.flip := Dir.eq_flip_of_ne (Ne.symm hd)
        subst hflip
        simp [replaceInParent, parentOf, nilOf, childOf, setChild, isLive,
          hparent, hnil, hlive, hfar, hsibling, hang]

section Rotate

variable {s : Rbtree} {path : Path Node} {d : Dir} {c c' : Color}
  {α β γ : Shape Node} {x y : Node}

/-- The addresses that meet in a rotation are distinct. -/
structure RotateApart (nil : Addr) (path : Path Node) (x y : Node)
    (α β γ : Shape Node) : Prop where
  xy : x.addr ≠ y.addr
  xα : x.addr ∉ addrs α
  xβ : x.addr ∉ addrs β
  xγ : x.addr ∉ addrs γ
  yα : y.addr ∉ addrs α
  yβ : y.addr ∉ addrs β
  yγ : y.addr ∉ addrs γ
  xpath : x.addr ∉ pathAddrs path
  ypath : y.addr ∉ pathAddrs path
  αβ : ∀ a ∈ addrs α, a ≠ ptr nil β
  γβ : ∀ a ∈ addrs γ, a ≠ ptr nil β
  pathβ : ∀ a ∈ pathAddrs path, a ≠ ptr nil β
  αpath : ∀ a ∈ addrs α, a ∉ pathAddrs path
  βpath : ∀ a ∈ addrs β, a ∉ pathAddrs path
  γpath : ∀ a ∈ addrs γ, a ∉ pathAddrs path
  xptr : x.addr ≠ ptr nil β
  yptr : y.addr ≠ ptr nil β
  βnodup : (addrs β).Nodup
  pathNodup : (pathAddrs path).Nodup

theorem Repr.rotateApart
    (h : Repr s (fill path
      (Shape.branch d c α x (Shape.branch d c' β y γ)))) :
    RotateApart s.nil path x y α β γ := by
  have hne := h.focus_ne_nil
  have hpathne := h.path_ne_nil
  have hnodup := h.nodup_focus
  rw [((addrs_branch_perm d c α _ x).append_right _).nodup_iff,
    (((((addrs_branch_perm d c' β γ y).append_left _).cons
      _)).append_right _).nodup_iff] at hnodup
  simp only [List.cons_append, List.nodup_cons, List.nodup_append,
    List.mem_append, List.mem_cons, not_or] at hnodup
  simp only [mem_addrs_branch] at hne
  have hptr : ∀ a, a ∉ addrs β → a ≠ s.nil → a ≠ ptr s.nil β := by
    intro a ha hanil
    by_cases hβ : β = .leaf
    · subst β
      exact hanil
    · rintro rfl
      exact ha (ptr_mem_addrs hβ)
  obtain ⟨⟨hx, hxpath⟩, ⟨hα, hinner⟩, hpath, hout⟩ := hnodup
  constructor <;> grind

/-- Rotating at a focus, as a change of the heap. -/
theorem Repr.afterRotate
    (h : Repr s (fill path
      (Shape.branch d c α x (Shape.branch d c' β y γ)))) :
    Repr (rotated d path x.addr y.addr (ptr s.nil β) s)
      (fill path (Shape.branch d c' (Shape.branch d c α x β) y γ)) := by
  have hapart := h.rotateApart
  have hnilx := h.focus_ne_nil x.addr (by simp)
  have hnily := h.focus_ne_nil y.addr (by simp)
  obtain ⟨hcx, hα, hrest⟩ := rep_branch.mp h.focusRep
  obtain ⟨hcy, hβ, hγ⟩ := rep_branch.mp hrest
  let s₁ := withParent y.addr (holder s.nil path)
    (adopt (ptr s.nil β) x.addr (withChild d.flip x.addr (ptr s.nil β) s))
  have hs₁ : ∀ a, a ≠ x.addr → a ≠ y.addr → a ≠ ptr s.nil β →
      SameCell s s₁ a := by
    intro a hx hy hb
    exact (sameCell_withChild _ _ _ hx).trans
      ((sameCell_adopt _ _ _ hb).trans (sameCell_withParent _ _ hy))
  let s₂ := withParent x.addr y.addr
    (withChild d y.addr x.addr (hang path y.addr s₁))
  have hs₂ : ∀ a, a ≠ x.addr → a ≠ y.addr →
      SameCell (hang path y.addr s₁) s₂ a := by
    intro a hx hy
    exact (sameCell_withChild _ _ _ hy).trans (sameCell_withParent _ _ hx)
  have hsame : ∀ a, a ≠ x.addr → a ≠ y.addr → a ≠ ptr s.nil β →
      a ∉ pathAddrs path → SameCell s s₂ a := by
    intro a hx hy hb hp
    exact (hs₁ a hx hy hb).trans
      ((sameCell_hang path _ _ hp).trans (hs₂ a hx hy))
  have hcolor : s₂.color = s.color := by
    funext a
    simp [s₂, s₁]
  have hkey : s₂.key = s.key := by
    funext a
    simp [s₂, s₁]
  have hvalue : s₂.value = s.value := by
    funext a
    simp [s₂, s₁]
  have harena : s₂.arena = s.arena := by simp [s₂, s₁]
  have hnil : s₂.nil = s.nil := by simp [s₂, s₁]
  change Repr s₂ _
  apply Repr.of_focus
  · rw [hnil, ptr_branch]
    have hpath₁ : RepPath s₁ path x.addr := by
      refine RepPath.frame (by simpa using h.focusPath) ?_ ?_ ?_
      · simp [s₁]
      · simp [s₁]
      · intro a ha
        apply hs₁ a _ _ (hapart.pathβ a ha)
        · rintro rfl
          exact hapart.xpath ha
        · rintro rfl
          exact hapart.ypath ha
    refine (hpath₁.afterHang hapart.pathNodup y.addr).frame rfl rfl ?_
    intro a ha
    apply hs₂ a
    · rintro rfl
      exact hapart.xpath ha
    · rintro rfl
      exact hapart.ypath ha
  · rw [hnil, rep_branch, rep_branch]
    refine ⟨?_, ⟨?_, ?_, ?_⟩, ?_⟩
    · exact
        { ne_nil := by rw [hnil]; exact hnily
          live := by rw [harena]; exact hcy.live
          color := by rw [hcolor]; exact hcy.color
          near := by simp [s₂]
          far := by
            have := hang_child_of_notMem path y.addr s₁ hapart.ypath d.flip
            simpa [s₂, this, s₁, hapart.xy.symm, hnil] using hcy.far
          parent := by simp [s₂, hapart.xy.symm, s₁]
          key := by rw [hkey]; exact hcy.key
          value := by rw [hvalue]; exact hcy.value }
    · exact
        { ne_nil := by rw [hnil]; exact hnilx
          live := by rw [harena]; exact hcx.live
          color := by rw [hcolor]; exact hcx.color
          near := by
            have := hang_child_of_notMem path y.addr s₁ hapart.xpath d
            simpa [s₂, this, s₁, hapart.xy, hnil] using hcx.near
          far := by
            have := hang_child_of_notMem path y.addr s₁ hapart.xpath d.flip
            simp [s₂, this, s₁]
          parent := by simp [s₂]
          key := by rw [hkey]; exact hcx.key
          value := by rw [hvalue]; exact hcx.value }
    · refine hα.frame hnil ?_
      intro a ha
      apply hsame a _ _ (hapart.αβ a ha) (hapart.αpath a ha)
      · rintro rfl
        exact hapart.xα ha
      · rintro rfl
        exact hapart.yα ha
    · refine hβ.reparent hnil hapart.βnodup ?_ ?_
      · intro hleaf
        have hb := h.focus_ne_nil (ptr s.nil β)
          (by simp [ptr_mem_addrs hleaf])
        simp [s₂, s₁, hapart.xptr.symm, hapart.yptr.symm, adopt_parent, hb]
      · intro a ha
        have hax : a ≠ x.addr := by
          rintro rfl
          exact hapart.xβ ha
        have hay : a ≠ y.addr := by
          rintro rfl
          exact hapart.yβ ha
        have hchild : ∀ e, s₂.child e a = s.child e a := by
          intro e
          have hhang :=
            hang_child_of_notMem path y.addr s₁ (hapart.βpath a ha) e
          calc
            s₂.child e a = (hang path y.addr s₁).child e a :=
              (hs₂ a hax hay).child e
            _ = s₁.child e a := hhang
            _ = s.child e a := by
              simp [s₁, child_withChild_of_ne _ _ _ _ hax]
        refine ⟨⟨?_, ?_, hchild, rfl, ?_, ?_⟩, ?_⟩
        · simp [harena]
        · simp [hcolor]
        · simp [hkey]
        · simp [hvalue]
        · intro hroot
          simp [s₂, s₁, hax, hay, adopt_parent, hroot]
    · refine hγ.frame hnil ?_
      intro a ha
      apply hsame a _ _ (hapart.γβ a ha) (hapart.γpath a ha)
      · rintro rfl
        exact hapart.xγ ha
      · rintro rfl
        exact hapart.yγ ha
  · have hperm : (addrs (Shape.branch d c α x (Shape.branch d c' β y γ))) =
        addrs (Shape.branch d c' (Shape.branch d c α x β) y γ) :=
      congrArg (List.map Node.addr) (Shape.inorder_rotate d c c' c' c _ _ _ _ _)
    rw [← hperm]
    exact h.nodup_focus
  · rw [hcolor, hnil]
    exact h.nilBlack
  · rw [harena, hnil]
    exact h.nilLive

theorem Repr.keepsSentinel_rotated
    (h : Repr s (fill path
      (Shape.branch d c α x (Shape.branch d c' β y γ)))) :
    KeepsSentinel s (rotated d path x.addr y.addr (ptr s.nil β) s) := by
  have hnilx := h.focus_ne_nil x.addr (by simp)
  have hnily := h.focus_ne_nil y.addr (by simp)
  have hnilpath : s.nil ∉ pathAddrs path :=
    fun hmem => h.path_ne_nil _ hmem rfl
  have hadopt : ¬(s.nil = ptr s.nil β ∧ ptr s.nil β ≠ s.nil) :=
    fun hb => hb.2 hb.1.symm
  have hchild : ∀ e, (rotated d path x.addr y.addr (ptr s.nil β) s).child
      e s.nil = s.child e s.nil := by
    intro e
    unfold rotated
    rw [withParent_child, child_withChild_of_ne _ _ _ _ hnily.symm,
      hang_child_of_notMem _ _ _ hnilpath]
    simp [child_withChild_of_ne _ _ _ _ hnilx.symm]
  exact
    { arena := by simp [rotated]
      nil := by simp [rotated]
      count := by simp [rotated]
      child := hchild
      key := by simp [rotated]
      value := by simp [rotated]
      parent := by
        simp [rotated, hnilx.symm, hnily.symm, adopt_parent, hadopt] }

theorem Repr.returns_rotate_state
    (h : Repr s (fill path
      (Shape.branch d c α x (Shape.branch d c' β y γ)))) :
    Returns (rotate d x.addr) s (fun _ s' =>
      s' = rotated d path x.addr y.addr (ptr s.nil β) s) := by
  have hapart := h.rotateApart
  obtain ⟨hcx, hα, hrest⟩ := rep_branch.mp h.focusRep
  obtain ⟨hcy, hβ, hγ⟩ := rep_branch.mp hrest
  have hfar : s.child d.flip x.addr = some y.addr := by
    simpa using hcx.far
  have hliveb : ptr s.nil β ≠ s.nil → ptr s.nil β ∈ s.arena.live := by
    intro hb
    cases β with
    | leaf => exact absurd rfl hb
    | node cβ l z r => exact hβ.1.live
  -- the state when the parent's link is replaced
  let s₁ := withParent y.addr (holder s.nil path)
    (adopt (ptr s.nil β) x.addr (withChild d.flip x.addr (ptr s.nil β) s))
  have hmid : (withChild d.flip x.addr (ptr s.nil β) s).child d y.addr =
      some (ptr s.nil β) := by
    simpa using hcy.near
  have hparent : s₁.parent x.addr = some (holder s₁.nil path) := by
    simpa [s₁, hapart.xy, adopt_parent, hapart.xptr] using hcx.parent
  have hpath : RepPath s₁ path x.addr := by
    refine RepPath.frame (by simpa using h.focusPath) ?_ ?_ ?_
    · simp [s₁]
    · simp [s₁]
    · intro a ha
      have hx : a ≠ x.addr := by
        rintro rfl
        exact hapart.xpath ha
      have hy : a ≠ y.addr := by
        rintro rfl
        exact hapart.ypath ha
      exact (sameCell_withChild _ _ _ hx).trans
        ((sameCell_adopt _ _ _ (hapart.pathβ a ha)).trans
          (sameCell_withParent _ _ hy))
  simp only [rotate, childOf, parentOf, setChild, setParent, isLive,
    returns_bind, returns_load, returns_store, hfar, hcy.near,
    Option.some.injEq, exists_eq_left', decide_eq_true_eq, hcx.live, true_and]
  rw [returns_adoptMiddle hmid hliveb]
  refine ⟨holder s.nil path, ?_, ?_, ?_⟩
  · simpa [adopt_parent, hapart.xptr] using hcx.parent
  · simpa using hcy.live
  · rw [returns_replaceInParent hpath hparent (by simpa [s₁] using hcx.ne_nil)
      hapart.xpath]
    simp [s₁, rotated, hcx.live, hcy.live]

/-- `rotate` at a focus, as the repairs use it. -/
theorem Repr.returns_rotate
    (h : Repr s (fill path
      (Shape.branch d c α x (Shape.branch d c' β y γ)))) :
    Returns (rotate d x.addr) s (fun _ s' =>
      Repr s' (fill path
          (Shape.branch d c' (Shape.branch d c α x β) y γ)) ∧
        KeepsSentinel s s') := by
  apply h.returns_rotate_state.mono
  rintro _ s' rfl
  exact ⟨h.afterRotate, h.keepsSentinel_rotated⟩

end Rotate

end CAdvanced
