import CAdvanced.FallibleExecution
import CAdvanced.RedBlackShape

/-!
# Trees of linked entries

Every element of the tree has an entry with the links to its two children and
to its parent, and with its color; a missing link is null.  `Represents` says
that the entries from the root on make up a tree.  A focus splits it into a
path and a subtree, so a change at the focus is checked against the few entries
that it touches.
-/

namespace LinkedTree

open Fallible
open RedBlack

variable {ν : Type}

structure Entry (ν : Type) where
  left : Option ν
  right : Option ν
  parent : Option ν
  color : Color

namespace Entry

/-- The entry with these children in direction `d` and on the other side. -/
def towards (d : Dir) (near far parent : Option ν) (color : Color) : Entry ν :=
  match d with
  | .left => ⟨near, far, parent, color⟩
  | .right => ⟨far, near, parent, color⟩

def child (d : Dir) (e : Entry ν) : Option ν :=
  match d with
  | .left => e.left
  | .right => e.right

def withChild (d : Dir) (q : Option ν) (e : Entry ν) : Entry ν :=
  match d with
  | .left => { e with left := q }
  | .right => { e with right := q }

def withParent (q : Option ν) (e : Entry ν) : Entry ν := { e with parent := q }

def withColor (c : Color) (e : Entry ν) : Entry ν := { e with color := c }

section Towards

variable (d : Dir) (near far parent q : Option ν) (c c' : Color)

@[simp] theorem child_towards :
    (towards d near far parent c).child d = near := by
  cases d <;> rfl

@[simp] theorem child_flip_towards :
    (towards d near far parent c).child d.flip = far := by
  cases d <;> rfl

@[simp] theorem parent_towards :
    (towards d near far parent c).parent = parent := by
  cases d <;> rfl

@[simp] theorem color_towards : (towards d near far parent c).color = c := by
  cases d <;> rfl

@[simp] theorem withChild_towards :
    (towards d near far parent c).withChild d q = towards d q far parent c := by
  cases d <;> rfl

@[simp] theorem withChild_flip_towards :
    (towards d near far parent c).withChild d.flip q =
      towards d near q parent c := by
  cases d <;> rfl

@[simp] theorem withParent_towards :
    (towards d near far parent c).withParent q = towards d near far q c := by
  cases d <;> rfl

@[simp] theorem withColor_towards :
    (towards d near far parent c).withColor c' =
      towards d near far parent c' := by
  cases d <;> rfl

end Towards

end Entry

/-- The root, and the entries of the elements. -/
structure Heap (ν : Type) where
  root : Option ν
  entry : ν → Option (Entry ν)

section Updates

variable [DecidableEq ν] (x y : ν) (e e' : Entry ν) (s : Heap ν)

def setEntry : Heap ν := { s with entry := Function.update s.entry x (some e) }

@[simp] theorem setEntry_root : (setEntry x e s).root = s.root := rfl

@[simp] theorem setEntry_self : (setEntry x e s).entry x = some e :=
  Function.update_self _ _ _

variable {x y}

theorem setEntry_of_ne (hne : y ≠ x) :
    (setEntry x e s).entry y = s.entry y :=
  Function.update_of_ne hne _ _

@[simp] theorem setEntry_setEntry :
    setEntry x e' (setEntry x e s) = setEntry x e' s := by
  simp [setEntry]

theorem setEntry_comm (hne : y ≠ x) :
    setEntry x e (setEntry y e' s) = setEntry y e' (setEntry x e s) := by
  simp only [setEntry, Function.update_comm hne]

end Updates

/-! ## Accesses -/

section Accesses

variable {α : Type}

/-- A field of an entry is read; there is none behind a null pointer. -/
def field (f : Entry ν → α) (p : Option ν) : Exec (Heap ν) α :=
  load (fun s => (p.bind s.entry).map f)

def assign [DecidableEq ν] (f : Entry ν → Entry ν) :
    Option ν → Exec (Heap ν) Unit
  | none => throw .badAddress
  | some x => do
      let e ← load (fun s => s.entry x)
      modify (setEntry x (f e))

theorem returns_field {s : Heap ν} {x : ν} {e : Entry ν} {f : Entry ν → α}
    (h : s.entry x = some e) (Q : α → Heap ν → Prop) :
    Returns (field f (some x)) s Q ↔ Q (f e) s := by
  simp [field, h]

theorem returns_assign [DecidableEq ν] {s : Heap ν} {x : ν} {e : Entry ν}
    {f : Entry ν → Entry ν} (h : s.entry x = some e)
    (Q : Unit → Heap ν → Prop) :
    Returns (assign f (some x)) s Q ↔ Q () (setEntry x (f e) s) := by
  simp [assign, h]

end Accesses

/-! ## Representation -/

def top : Shape ν → Option ν
  | .leaf => none
  | .node _ _ x _ => some x

@[simp] theorem top_leaf : top (.leaf : Shape ν) = none := rfl

@[simp] theorem top_branch (d : Dir) (c : Color) (a b : Shape ν) (x : ν) :
    top (Shape.branch d c a x b) = some x := by
  cases d <;> rfl

@[simp] theorem top_paint (c : Color) (t : Shape ν) :
    top (t.paint c) = top t := by
  cases t <;> rfl

theorem top_eq_none {t : Shape ν} : top t = none ↔ t = .leaf := by
  cases t <;> simp [top]

theorem top_isSome {t : Shape ν} (h : t ≠ .leaf) : (top t).isSome := by
  cases t with
  | leaf => exact absurd rfl h
  | node c l x r => rfl

theorem branch_ne_leaf (d : Dir) (c : Color) (a b : Shape ν) (x : ν) :
    Shape.branch d c a x b ≠ .leaf := by
  cases d <;> simp [Shape.branch]

theorem mem_of_top {t : Shape ν} {x : ν} (h : top t = some x) :
    x ∈ t.inorder := by
  cases t with
  | leaf => cases h
  | node c l y r =>
      cases h
      simp [Shape.inorder]

/-- The element that a path hangs its hole on. -/
def holder : Path ν → Option ν
  | [] => none
  | f :: _ => some f.label

@[simp] theorem holder_nil : holder ([] : Path ν) = none := rfl

@[simp] theorem holder_cons (f : Frame ν) (fs : Path ν) :
    holder (f :: fs) = some f.label := rfl

/-- The entries of a subtree below `p`. -/
def Rep (s : Heap ν) : Option ν → Shape ν → Prop
  | _, .leaf => True
  | p, .node c l x r =>
      s.entry x = some (.towards .left (top l) (top r) p c) ∧
        Rep s (some x) l ∧ Rep s (some x) r

/-- The entries of a path, with `p` in its hole. -/
def RepPath (s : Heap ν) : Path ν → Option ν → Prop
  | [], p => s.root = p
  | f :: fs, p =>
      s.entry f.label =
          some (.towards f.dir p (top f.sibling) (holder fs) f.color) ∧
        Rep s (some f.label) f.sibling ∧ RepPath s fs (some f.label)

section Representation

variable {s s' : Heap ν} {p q : Option ν} {path : Path ν} {t : Shape ν}
  {d : Dir} {c : Color} {a b : Shape ν} {x : ν}

theorem rep_branch :
    Rep s p (Shape.branch d c a x b) ↔
      s.entry x = some (.towards d (top a) (top b) p c) ∧
        Rep s (some x) a ∧ Rep s (some x) b := by
  cases d with
  | left => rfl
  | right =>
      simp only [Shape.branch, Rep]
      rw [and_comm (a := Rep s (some x) b)]
      rfl

theorem rep_fill :
    (s.root = top (fill path t) ∧ Rep s none (fill path t)) ↔
      RepPath s path (top t) ∧ Rep s (holder path) t := by
  induction path generalizing t with
  | nil => rfl
  | cons f fs ih =>
      rw [fill_cons, ih, Frame.plug, rep_branch, top_branch]
      simp only [RepPath, holder]
      tauto

theorem Rep.frame (h : Rep s p t)
    (hsame : ∀ y ∈ t.inorder, s'.entry y = s.entry y) : Rep s' p t := by
  induction t generalizing p with
  | leaf => trivial
  | node c l x r ihl ihr =>
      obtain ⟨hx, hl, hr⟩ := h
      simp only [Shape.inorder, List.mem_append, List.mem_cons] at hsame
      exact ⟨(hsame x (.inr (.inl rfl))).trans hx,
        ihl hl (fun y hy => hsame y (.inl hy)),
        ihr hr (fun y hy => hsame y (.inr (.inr hy)))⟩

theorem RepPath.frame (h : RepPath s path p) (hroot : s'.root = s.root)
    (hsame : ∀ y ∈ Path.labels path, s'.entry y = s.entry y) :
    RepPath s' path p := by
  induction path generalizing p with
  | nil => exact hroot.trans h
  | cons f fs ih =>
      obtain ⟨hf, hsib, hfs⟩ := h
      simp only [Path.labels, List.mem_cons, List.mem_append] at hsame
      exact ⟨(hsame _ (.inl rfl)).trans hf,
        hsib.frame (fun y hy => hsame y (.inr (.inl hy))),
        ih hfs (fun y hy => hsame y (.inr (.inr hy)))⟩

end Representation

/-! ## Links to other places -/

section Hang

variable [DecidableEq ν]

/-- `q` is stored in the hole of the path. -/
def hang (path : Path ν) (q : Option ν) (s : Heap ν) : Heap ν :=
  match path with
  | [] => { s with root := q }
  | f :: fs => setEntry f.label
      (.towards f.dir q (top f.sibling) (holder fs) f.color) s

/-- The subtree gets another parent. -/
def adopt (t : Shape ν) (q : Option ν) (s : Heap ν) : Heap ν :=
  match t with
  | .leaf => s
  | .node c l x r => setEntry x (.towards .left (top l) (top r) q c) s

variable {s : Heap ν} {p q : Option ν} {path : Path ν} {t : Shape ν} {x y : ν}
  {e : Entry ν}

theorem hang_entry (hy : y ∉ Path.labels path) :
    (hang path q s).entry y = s.entry y := by
  cases path with
  | nil => rfl
  | cons f fs =>
      apply setEntry_of_ne
      rintro rfl
      exact hy List.mem_cons_self

theorem adopt_entry (hy : top t ≠ some y) :
    (adopt t q s).entry y = s.entry y := by
  cases t with
  | leaf => rfl
  | node c l x r =>
      apply setEntry_of_ne
      rintro rfl
      exact hy rfl

theorem adopt_entry_of_notMem (hy : y ∉ t.inorder) :
    (adopt t q s).entry y = s.entry y :=
  adopt_entry (fun htop => hy (mem_of_top htop))

@[simp] theorem adopt_root : (adopt t q s).root = s.root := by
  cases t <;> rfl

theorem hang_setEntry (hx : x ∉ Path.labels path) :
    hang path q (setEntry x e s) = setEntry x e (hang path q s) := by
  cases path with
  | nil => rfl
  | cons f fs =>
      apply setEntry_comm
      rintro rfl
      exact hx List.mem_cons_self

theorem adopt_setEntry (hx : x ∉ t.inorder) :
    adopt t q (setEntry x e s) = setEntry x e (adopt t q s) := by
  cases t with
  | leaf => rfl
  | node c l y r =>
      apply setEntry_comm
      rintro rfl
      exact hx (mem_of_top rfl)

theorem RepPath.hang (h : RepPath s path p) (hnodup : (Path.labels path).Nodup)
    (q : Option ν) : RepPath (hang path q s) path q := by
  cases path with
  | nil => rfl
  | cons f fs =>
      obtain ⟨hf, hsib, hfs⟩ := h
      rw [Path.labels, List.nodup_cons, List.mem_append, not_or] at hnodup
      refine ⟨setEntry_self _ _ _, hsib.frame ?_, hfs.frame rfl ?_⟩
      · intro y hy
        apply setEntry_of_ne
        rintro rfl
        exact hnodup.1.1 hy
      · intro y hy
        apply setEntry_of_ne
        rintro rfl
        exact hnodup.1.2 hy

theorem Rep.adopt (h : Rep s p t) (hnodup : t.inorder.Nodup) (q : Option ν) :
    Rep (adopt t q s) q t := by
  cases t with
  | leaf => trivial
  | node c l x r =>
      obtain ⟨hx, hl, hr⟩ := h
      rw [Shape.inorder, List.nodup_middle, List.nodup_cons, List.mem_append,
        not_or] at hnodup
      refine ⟨setEntry_self _ _ _, hl.frame ?_, hr.frame ?_⟩
      · intro y hy
        apply setEntry_of_ne
        rintro rfl
        exact hnodup.1.1 hy
      · intro y hy
        apply setEntry_of_ne
        rintro rfl
        exact hnodup.1.2 hy

/-! What the changes leave as it is -/

theorem Rep.setEntry (h : Rep s p t) (hx : x ∉ t.inorder) (e : Entry ν) :
    Rep (setEntry x e s) p t := by
  apply h.frame
  intro y hy
  apply setEntry_of_ne
  rintro rfl
  exact hx hy

theorem RepPath.setEntry (h : RepPath s path p) (hx : x ∉ Path.labels path)
    (e : Entry ν) : RepPath (setEntry x e s) path p := by
  apply h.frame (setEntry_root _ _ _)
  intro y hy
  apply setEntry_of_ne
  rintro rfl
  exact hx hy

theorem Rep.hang_apart (h : Rep s p t)
    (hapart : ∀ z ∈ t.inorder, z ∉ Path.labels path) (q : Option ν) :
    Rep (LinkedTree.hang path q s) p t :=
  h.frame (fun z hz => hang_entry (hapart z hz))

theorem Rep.adopt_apart {u : Shape ν} (h : Rep s p t)
    (hapart : ∀ z ∈ t.inorder, z ∉ u.inorder) (q : Option ν) :
    Rep (LinkedTree.adopt u q s) p t :=
  h.frame (fun z hz => adopt_entry_of_notMem (hapart z hz))

theorem RepPath.adopt_apart (h : RepPath s path p)
    (hapart : ∀ z ∈ t.inorder, z ∉ Path.labels path) (q : Option ν) :
    RepPath (LinkedTree.adopt t q s) path p :=
  h.frame adopt_root
    (fun z hz => adopt_entry_of_notMem (fun hzt => hapart z hzt hz))

end Hang

/-! ## Whole trees -/

structure Represents (s : Heap ν) (T : Shape ν) : Prop where
  root : s.root = top T
  rep : Rep s none T
  nodup : T.inorder.Nodup

namespace Represents

variable {s s' : Heap ν} {path : Path ν} {t T : Shape ν} {d : Dir}
  {c : Color} {a b : Shape ν} {x : ν}

theorem focusPath (h : Represents s (fill path t)) : RepPath s path (top t) :=
  (rep_fill.mp ⟨h.root, h.rep⟩).1

theorem focusRep (h : Represents s (fill path t)) : Rep s (holder path) t :=
  (rep_fill.mp ⟨h.root, h.rep⟩).2

theorem nodup_focus (h : Represents s (fill path t)) :
    (t.inorder ++ Path.labels path).Nodup :=
  (inorder_fill_perm path t).nodup_iff.mp h.nodup

/-- A whole tree is put together at a focus. -/
theorem of_focus (hpath : RepPath s path (top t))
    (hrep : Rep s (holder path) t)
    (hnodup : (t.inorder ++ Path.labels path).Nodup) :
    Represents s (fill path t) where
  root := (rep_fill.mpr ⟨hpath, hrep⟩).1
  rep := (rep_fill.mpr ⟨hpath, hrep⟩).2
  nodup := (inorder_fill_perm path t).nodup_iff.mpr hnodup

/-- The entry at the focus. -/
theorem entry (h : Represents s (fill path (Shape.branch d c a x b))) :
    s.entry x = some (.towards d (top a) (top b) (holder path) c) :=
  (rep_branch.mp h.focusRep).1

/-- The entry above the focus. -/
theorem entry_holder {f : Frame ν} {fs : Path ν}
    (h : Represents s (fill (f :: fs) t)) :
    s.entry f.label =
      some (.towards f.dir (top t) (top f.sibling) (holder fs) f.color) :=
  h.focusPath.1

theorem frame (h : Represents s T) (hroot : s'.root = s.root)
    (hsame : ∀ y ∈ T.inorder, s'.entry y = s.entry y) : Represents s' T where
  root := hroot.trans h.root
  rep := h.rep.frame hsame
  nodup := h.nodup

theorem toSibling {f : Frame ν} {fs : Path ν}
    (h : Represents s (fill (f :: fs) t)) :
    Represents s (fill (⟨f.dir.flip, f.color, f.label, t⟩ :: fs) f.sibling) := by
  rwa [← fill_sibling]

theorem fromSibling {f : Frame ν} {fs : Path ν} {u : Shape ν}
    (h : Represents s (fill (⟨f.dir.flip, f.color, f.label, t⟩ :: fs) u)) :
    Represents s (fill ({ f with sibling := u } :: fs) t) := by
  rw [fill_sibling] at h
  simpa using h

/-- The subtree at the focus does not begin where its sibling does. -/
theorem top_sibling_ne {f : Frame ν} {fs : Path ν}
    (h : Represents s (fill (f :: fs) t)) (hne : t ≠ .leaf ∨ f.sibling ≠ .leaf) :
    top f.sibling ≠ top t := by
  have hnodup := h.nodup_focus
  intro heq
  cases htop : top t with
  | none =>
      rw [htop] at heq
      rcases hne with hne | hne
      · exact hne (top_eq_none.mp htop)
      · exact hne (top_eq_none.mp heq)
  | some y =>
      rw [htop] at heq
      rw [Path.labels, List.nodup_append] at hnodup
      exact hnodup.2.2 y (mem_of_top htop) y (List.mem_cons_of_mem _
        (List.mem_append_left _ (mem_of_top heq))) rfl

theorem top_fill_mem {path : Path ν} (hne : path ≠ []) (t : Shape ν) :
    ∃ x ∈ Path.labels path, top (fill path t) = some x := by
  induction path generalizing t with
  | nil => exact absurd rfl hne
  | cons f fs ih =>
      by_cases hfs : fs = []
      · subst hfs
        exact ⟨f.label, List.mem_cons_self, top_branch _ _ _ _ _⟩
      · obtain ⟨x, hx, htop⟩ := ih hfs (f.plug t)
        exact ⟨x, List.mem_cons_of_mem _ (List.mem_append_right _ hx), htop⟩

/-- Only at the end of the empty path is the focus the root. -/
theorem root_eq_iff (h : Represents s (fill path t)) :
    top t = s.root ↔ path = [] := by
  constructor
  · intro heq
    by_contra hne
    obtain ⟨x, hx, htop⟩ := top_fill_mem hne t
    rw [h.root, htop] at heq
    exact (List.nodup_append.mp h.nodup_focus).2.2 x (mem_of_top heq) x hx rfl
  · rintro rfl
    exact h.root.symm

/-- Looking for the focus among the children of the element above it finds the
direction of the path. -/
theorem child_holder_eq_iff {f : Frame ν} {fs : Path ν}
    (h : Represents s (fill (f :: fs) t)) (hne : t ≠ .leaf ∨ f.sibling ≠ .leaf)
    (d : Dir) :
    (Entry.towards f.dir (top t) (top f.sibling) (holder fs) f.color).child d =
      top t ↔ f.dir = d := by
  by_cases hd : f.dir = d
  · subst hd
    simp
  · have hflip : d = f.dir.flip := Dir.eq_flip_of_ne (Ne.symm hd)
    subst hflip
    simp [h.top_sibling_ne hne]

section Changes

variable [DecidableEq ν]

/-- The root of the focus gets another color. -/
theorem paint (h : Represents s (fill path (Shape.branch d c a x b)))
    (c' : Color) :
    Represents (setEntry x (.towards d (top a) (top b) (holder path) c') s)
      (fill path (Shape.branch d c' a x b)) := by
  have hperm := (Shape.inorder_branch_perm d c a b x).append_right
    (Path.labels path)
  have hsplit := hperm.nodup_iff.mp h.nodup_focus
  rw [List.cons_append, List.nodup_cons, List.mem_append, List.mem_append,
    not_or, not_or] at hsplit
  obtain ⟨⟨⟨hxa, hxb⟩, hxpath⟩, -⟩ := hsplit
  obtain ⟨-, ha, hb⟩ := rep_branch.mp h.focusRep
  apply of_focus
  · have hpath := h.focusPath
    rw [top_branch] at hpath ⊢
    exact hpath.setEntry hxpath _
  · rw [rep_branch]
    exact ⟨setEntry_self _ _ _, ha.setEntry hxa _, hb.setEntry hxb _⟩
  · have hperm' := (Shape.inorder_branch_perm d c' a b x).append_right
      (Path.labels path)
    exact hperm'.nodup_iff.mpr (hperm.nodup_iff.mp h.nodup_focus)

end Changes

end Represents

/-! ## Rotation -/

section Rotation

variable {s : Heap ν} {path : Path ν} {d : Dir} {c c' : Color}
  {α β γ : Shape ν} {x y : ν}

/-- The elements that meet in a rotation are distinct. -/
structure RotateApart (path : Path ν) (x y : ν) (α β γ : Shape ν) : Prop where
  xy : x ≠ y
  xα : x ∉ α.inorder
  xβ : x ∉ β.inorder
  xγ : x ∉ γ.inorder
  yα : y ∉ α.inorder
  yβ : y ∉ β.inorder
  yγ : y ∉ γ.inorder
  xpath : x ∉ Path.labels path
  ypath : y ∉ Path.labels path
  αβ : ∀ z ∈ α.inorder, z ∉ β.inorder
  γβ : ∀ z ∈ γ.inorder, z ∉ β.inorder
  pathα : ∀ z ∈ α.inorder, z ∉ Path.labels path
  pathβ : ∀ z ∈ β.inorder, z ∉ Path.labels path
  pathγ : ∀ z ∈ γ.inorder, z ∉ Path.labels path
  βnodup : β.inorder.Nodup
  pathNodup : (Path.labels path).Nodup

theorem Represents.rotateApart
    (h : Represents s (fill path (Shape.branch d c α x (Shape.branch d c' β y γ)))) :
    RotateApart path x y α β γ := by
  have hnodup := h.nodup_focus
  rw [((Shape.inorder_branch_perm d c α _ x).append_right _).nodup_iff,
    (((((Shape.inorder_branch_perm d c' β γ y).append_left _).cons
      _)).append_right _).nodup_iff] at hnodup
  simp only [List.cons_append, List.nodup_cons, List.nodup_append,
    List.mem_append, List.mem_cons, not_or] at hnodup
  obtain ⟨⟨hx, hxpath⟩, ⟨hα, hinner⟩, hpath, hout⟩ := hnodup
  constructor <;> grind

variable [DecidableEq ν]

/-- The links behind a rotation. -/
def rotated (d : Dir) (path : Path ν) (c c' : Color) (α β γ : Shape ν)
    (x y : ν) (s : Heap ν) : Heap ν :=
  setEntry x (.towards d (top α) (top β) (some y) c)
    (setEntry y (.towards d (some x) (top γ) (holder path) c')
      (hang path (some y) (adopt β (some x) s)))

theorem Represents.rotate
    (h : Represents s (fill path (Shape.branch d c α x (Shape.branch d c' β y γ)))) :
    Represents (rotated d path c c' α β γ x y s)
      (fill path (Shape.branch d c' (Shape.branch d c α x β) y γ)) := by
  have hapart := h.rotateApart
  obtain ⟨-, hα, hrest⟩ := rep_branch.mp h.focusRep
  obtain ⟨-, hβ, hγ⟩ := rep_branch.mp hrest
  have hpath := h.focusPath
  rw [top_branch] at hpath
  apply Represents.of_focus
  · rw [top_branch]
    exact (((hpath.adopt_apart hapart.pathβ _).hang hapart.pathNodup
      (some y)).setEntry hapart.ypath _).setEntry hapart.xpath _
  · rw [rep_branch, rep_branch, top_branch]
    refine ⟨?_, ⟨?_, ?_, ?_⟩, ?_⟩
    · rw [rotated, setEntry_of_ne _ _ hapart.xy.symm, setEntry_self]
    · rw [rotated, setEntry_self]
    · exact (((hα.adopt_apart hapart.αβ _).hang_apart hapart.pathα
        _).setEntry hapart.yα _).setEntry hapart.xα _
    · exact (((hβ.adopt hapart.βnodup _).hang_apart hapart.pathβ
        _).setEntry hapart.yβ _).setEntry hapart.xβ _
    · exact (((hγ.adopt_apart hapart.γβ _).hang_apart hapart.pathγ
        _).setEntry hapart.yγ _).setEntry hapart.xγ _
  · rw [← Shape.inorder_rotate d c c' c' c]
    exact h.nodup_focus

end Rotation

end LinkedTree
