import Mathlib.Tactic

/-!
# Red-black trees with a focus

A tree together with a path to one of its subtrees is the shape on which both
red-black repairs work.  `Balanced` is the color and height discipline of a
tree, `Path.Fits` the same discipline of a path whose hole expects a given
black height.  Every repair step is proved here once for both directions.
-/

namespace RedBlack

inductive Color
  | red
  | black
  deriving DecidableEq, Repr

inductive Dir
  | left
  | right
  deriving DecidableEq, Repr

def Dir.flip : Dir → Dir
  | .left => .right
  | .right => .left

@[simp] theorem Dir.flip_flip (d : Dir) : d.flip.flip = d := by
  cases d <;> rfl

@[simp] theorem Dir.flip_ne (d : Dir) : d.flip ≠ d := by
  cases d <;> simp [Dir.flip]

@[simp] theorem Dir.ne_flip (d : Dir) : d ≠ d.flip := by
  cases d <;> simp [Dir.flip]

theorem Dir.eq_flip_of_ne {d e : Dir} (hne : d ≠ e) : d = e.flip := by
  cases d <;> cases e <;> simp_all [Dir.flip]

/-- Black height above a node of the given color. -/
def Color.over : Color → ℕ → ℕ
  | .red, n => n
  | .black, n => n + 1

inductive Shape (ν : Type)
  | leaf
  | node (color : Color) (left : Shape ν) (label : ν) (right : Shape ν)

/-- One step of a path: the direction of the hole, the node passed, and the
subtree on the other side. -/
structure Frame (ν : Type) where
  dir : Dir
  color : Color
  label : ν
  sibling : Shape ν

/-- A path from a hole up to the root, innermost step first. -/
abbrev Path (ν : Type) := List (Frame ν)

variable {ν : Type}

/-- A node given by its child in direction `d` and its child on the other
side. -/
def Shape.branch (d : Dir) (c : Color) (near : Shape ν) (x : ν)
    (far : Shape ν) : Shape ν :=
  match d with
  | .left => .node c near x far
  | .right => .node c far x near

theorem Shape.branch_flip (d : Dir) (c : Color) (near far : Shape ν) (x : ν) :
    Shape.branch d.flip c near x far = Shape.branch d c far x near := by
  cases d <;> rfl

theorem Shape.exists_branch (d : Dir) {t : Shape ν} (ht : t ≠ .leaf) :
    ∃ c near x far, t = Shape.branch d c near x far := by
  cases t with
  | leaf => exact absurd rfl ht
  | node c l x r =>
      cases d with
      | left => exact ⟨c, l, x, r, rfl⟩
      | right => exact ⟨c, r, x, l, rfl⟩

def Shape.rootColor : Shape ν → Color
  | .leaf => .black
  | .node c _ _ _ => c

@[simp] theorem Shape.rootColor_leaf : (Shape.leaf : Shape ν).rootColor = .black :=
  rfl

@[simp] theorem Shape.rootColor_branch (d : Dir) (c : Color)
    (near far : Shape ν) (x : ν) :
    (Shape.branch d c near x far).rootColor = c := by
  cases d <;> rfl

def Shape.paint (c : Color) : Shape ν → Shape ν
  | .leaf => .leaf
  | .node _ l x r => .node c l x r

@[simp] theorem Shape.paint_leaf (c : Color) :
    (Shape.leaf : Shape ν).paint c = .leaf := rfl

@[simp] theorem Shape.paint_branch (d : Dir) (c c' : Color)
    (near far : Shape ν) (x : ν) :
    (Shape.branch d c' near x far).paint c = Shape.branch d c near x far := by
  cases d <;> rfl

@[simp] theorem Shape.rootColor_paint_black (t : Shape ν) :
    (t.paint .black).rootColor = .black := by
  cases t <;> rfl

def Shape.inorder : Shape ν → List ν
  | .leaf => []
  | .node _ l x r => l.inorder ++ x :: r.inorder

@[simp] theorem Shape.inorder_leaf : (Shape.leaf : Shape ν).inorder = [] := rfl

@[simp] theorem Shape.inorder_paint (c : Color) (t : Shape ν) :
    (t.paint c).inorder = t.inorder := by
  cases t <;> rfl

theorem Shape.inorder_branch_perm (d : Dir) (c : Color) (near far : Shape ν)
    (x : ν) :
    (Shape.branch d c near x far).inorder.Perm
      (x :: (near.inorder ++ far.inorder)) := by
  cases d with
  | left => exact List.perm_middle
  | right =>
      exact List.perm_middle.trans
        (List.Perm.cons x List.perm_append_comm)

theorem Shape.inorder_rotate (d : Dir) (c c' e e' : Color)
    (a b r : Shape ν) (x y : ν) :
    (Shape.branch d c a x (Shape.branch d c' b y r)).inorder =
      (Shape.branch d e (Shape.branch d e' a x b) y r).inorder := by
  cases d <;> simp [Shape.branch, Shape.inorder]

theorem Shape.inorder_recolor (d : Dir) (c e : Color) {a a' b b' : Shape ν}
    (x : ν) (ha : a.inorder = a'.inorder) (hb : b.inorder = b'.inorder) :
    (Shape.branch d c a x b).inorder = (Shape.branch d e a' x b').inorder := by
  cases d <;> simp [Shape.branch, Shape.inorder, ha, hb]

def Frame.plug (f : Frame ν) (t : Shape ν) : Shape ν :=
  Shape.branch f.dir f.color t f.label f.sibling

def fill : Path ν → Shape ν → Shape ν
  | [], t => t
  | f :: fs, t => fill fs (f.plug t)

@[simp] theorem fill_nil (t : Shape ν) : fill [] t = t := rfl

theorem fill_cons (f : Frame ν) (fs : Path ν) (t : Shape ν) :
    fill (f :: fs) t = fill fs (f.plug t) := rfl

/-- The same tree with the focus moved to the subtree beside the hole. -/
theorem fill_sibling (f : Frame ν) (fs : Path ν) (t : Shape ν) :
    fill (f :: fs) t =
      fill (⟨f.dir.flip, f.color, f.label, t⟩ :: fs) f.sibling := by
  simp only [fill_cons, Frame.plug, Shape.branch_flip]

theorem fill_append (fs gs : Path ν) (t : Shape ν) :
    fill (fs ++ gs) t = fill gs (fill fs t) := by
  induction fs generalizing t with
  | nil => rfl
  | cons f fs ih => exact ih (f.plug t)

def Path.before : Path ν → List ν
  | [] => []
  | f :: fs =>
      match f.dir with
      | .left => Path.before fs
      | .right => Path.before fs ++ (f.sibling.inorder ++ [f.label])

def Path.after : Path ν → List ν
  | [] => []
  | f :: fs =>
      match f.dir with
      | .left => f.label :: f.sibling.inorder ++ Path.after fs
      | .right => Path.after fs

theorem inorder_fill (path : Path ν) (t : Shape ν) :
    (fill path t).inorder =
      Path.before path ++ t.inorder ++ Path.after path := by
  induction path generalizing t with
  | nil => simp [Path.before, Path.after]
  | cons f fs ih =>
      obtain ⟨d, c, x, sib⟩ := f
      rw [fill_cons, ih]
      cases d <;>
        simp [Frame.plug, Shape.branch, Shape.inorder, Path.before, Path.after]

/-- Every node of a tree is at the end of a path. -/
theorem exists_fill_of_mem {t : Shape ν} {x : ν} (hx : x ∈ t.inorder) :
    ∃ path c l r, t = fill path (.node c l x r) := by
  induction t with
  | leaf => exact absurd hx List.not_mem_nil
  | node c l y r ihl ihr =>
      simp only [Shape.inorder, List.mem_append, List.mem_cons] at hx
      rcases hx with hx | rfl | hx
      · obtain ⟨path, c', l', r', rfl⟩ := ihl hx
        exact ⟨path ++ [⟨.left, c, y, r⟩], c', l', r', by
          rw [fill_append]; rfl⟩
      · exact ⟨[], c, l, r, rfl⟩
      · obtain ⟨path, c', l', r', rfl⟩ := ihr hx
        exact ⟨path ++ [⟨.right, c, y, l⟩], c', l', r', by
          rw [fill_append]; rfl⟩

/-- All labels that the path passes or leaves aside. -/
def Path.labels : Path ν → List ν
  | [] => []
  | f :: fs => f.label :: (f.sibling.inorder ++ Path.labels fs)

theorem Path.labels_append (fs gs : Path ν) :
    Path.labels (fs ++ gs) = Path.labels fs ++ Path.labels gs := by
  induction fs with
  | nil => rfl
  | cons f fs ih => simp [Path.labels, ih]

theorem inorder_fill_perm (path : Path ν) (t : Shape ν) :
    (fill path t).inorder.Perm (t.inorder ++ Path.labels path) := by
  induction path generalizing t with
  | nil => simp [Path.labels]
  | cons f fs ih =>
      rw [fill_cons]
      calc
        (fill fs (f.plug t)).inorder.Perm
            ((f.plug t).inorder ++ Path.labels fs) := ih (f.plug t)
        List.Perm _ ((f.label :: (t.inorder ++ f.sibling.inorder)) ++
            Path.labels fs) :=
          (Shape.inorder_branch_perm _ _ _ _ _).append_right _
        List.Perm _ (t.inorder ++ Path.labels (f :: fs)) := by
          simp only [Path.labels, List.cons_append, List.append_assoc]
          exact List.perm_middle.symm

theorem inorder_fill_congr (path : Path ν) {t t' : Shape ν}
    (h : t.inorder = t'.inorder) :
    (fill path t).inorder = (fill path t').inorder := by
  rw [inorder_fill, inorder_fill, h]

/-! ## The color and height discipline -/

/-- No red node has a red child, and every way down crosses `n` black
nodes. -/
def Shape.Balanced : Shape ν → ℕ → Prop
  | .leaf, n => n = 0
  | .node .red l _ r, n =>
      (l.rootColor = .black ∧ r.rootColor = .black) ∧
        l.Balanced n ∧ r.Balanced n
  | .node .black l _ r, n =>
      ∃ m, n = m + 1 ∧ l.Balanced m ∧ r.Balanced m

@[simp] theorem Shape.balanced_leaf (n : ℕ) :
    (Shape.leaf : Shape ν).Balanced n ↔ n = 0 := Iff.rfl

@[simp] theorem Shape.balanced_red (d : Dir) (near far : Shape ν) (x : ν)
    (n : ℕ) :
    (Shape.branch d .red near x far).Balanced n ↔
      (near.rootColor = .black ∧ far.rootColor = .black) ∧
        near.Balanced n ∧ far.Balanced n := by
  cases d with
  | left => rfl
  | right =>
      simp only [Shape.branch, Shape.Balanced]
      tauto

@[simp] theorem Shape.balanced_black (d : Dir) (near far : Shape ν) (x : ν)
    (n : ℕ) :
    (Shape.branch d .black near x far).Balanced (n + 1) ↔
      near.Balanced n ∧ far.Balanced n := by
  cases d with
  | left =>
      simp only [Shape.branch, Shape.Balanced, Nat.add_right_cancel_iff,
        exists_eq_left']
  | right =>
      simp only [Shape.branch, Shape.Balanced, Nat.add_right_cancel_iff,
        exists_eq_left']
      tauto

theorem Shape.balanced_black_zero (d : Dir) (near far : Shape ν) (x : ν) :
    ¬ (Shape.branch d .black near x far).Balanced 0 := by
  cases d <;> simp [Shape.branch, Shape.Balanced]

/-- Painting a balanced root black keeps it balanced, one level higher when
the root was red. -/
theorem Shape.Balanced.paint_black {t : Shape ν} {n : ℕ}
    (ht : t.Balanced n) (hred : t.rootColor = .red) :
    (t.paint .black).Balanced (n + 1) := by
  cases t with
  | leaf => cases hred
  | node c l x r =>
      cases hred
      exact ⟨n, rfl, ht.2⟩

theorem Shape.Balanced.exists_paint_black {t : Shape ν} {n : ℕ}
    (ht : t.Balanced n) : ∃ m, (t.paint .black).Balanced m := by
  cases t with
  | leaf => exact ⟨n, ht⟩
  | node c l x r =>
      cases c with
      | red => exact ⟨n + 1, ht.paint_black rfl⟩
      | black => exact ⟨n, ht⟩

/-- A positive black height leaves room for a node. -/
theorem Shape.Balanced.exists_branch {t : Shape ν} {n : ℕ}
    (ht : t.Balanced (n + 1)) (d : Dir) :
    ∃ c near x far, t = Shape.branch d c near x far := by
  apply Shape.exists_branch
  rintro rfl
  simp at ht

/-- The nearest step of the path passes a black node. -/
def Path.TopBlack : Path ν → Prop
  | [] => False
  | f :: _ => f.color = .black

/-- The color of the node above the hole; above the root it counts as
black. -/
def Path.topColor : Path ν → Color
  | [] => .black
  | f :: _ => f.color

/-- The path keeps the discipline around a hole of black height `n`; its root
is black. -/
def Path.Fits : Path ν → ℕ → Prop
  | [], _ => True
  | f :: fs, n =>
      f.sibling.Balanced n ∧
        (f.color = .red →
          f.sibling.rootColor = .black ∧ Path.TopBlack fs) ∧
        Path.Fits fs (f.color.over n)

/-- A red step of a fitting path lies below a black one. -/
theorem Path.Fits.exists_grandparent {path : Path ν} {n : ℕ}
    (hpath : Path.Fits path n) (htop : Path.topColor path = .red) :
    ∃ f g fs, path = f :: g :: fs ∧ f.color = .red ∧ g.color = .black := by
  cases path with
  | nil => cases htop
  | cons f fs =>
      have hblack := (hpath.2.1 htop).2
      cases fs with
      | nil => exact absurd hblack (by simp [Path.TopBlack])
      | cons g gs => exact ⟨f, g, gs, rfl, htop, hblack⟩

theorem fill_rootColor {path : Path ν} {n : ℕ} (hpath : Path.Fits path n)
    (hne : path ≠ []) (t : Shape ν) :
    (fill path t).rootColor = .black := by
  induction path generalizing t n with
  | nil => exact absurd rfl hne
  | cons f fs ih =>
      obtain ⟨_, hred, hfs⟩ := hpath
      cases fs with
      | nil =>
          cases hcolor : f.color with
          | red => exact absurd (hred hcolor).2 (by simp [Path.TopBlack])
          | black => simp [fill, Frame.plug, hcolor]
      | cons g gs => exact ih hfs (by simp) (f.plug t)

theorem fill_balanced {path : Path ν} {n : ℕ} (hpath : Path.Fits path n)
    {t : Shape ν} (ht : t.Balanced n)
    (htop : t.rootColor = .red → path ≠ [] → Path.TopBlack path) :
    ∃ m, (fill path t).Balanced m := by
  induction path generalizing t n with
  | nil => exact ⟨n, ht⟩
  | cons f fs ih =>
      obtain ⟨hsib, hred, hfs⟩ := hpath
      apply ih hfs
      · cases hcolor : f.color with
        | red =>
            have htblack : t.rootColor = .black := by
              cases htc : t.rootColor with
              | red =>
                  have := htop htc (by simp)
                  simp [Path.TopBlack, hcolor] at this
              | black => rfl
            simp only [Frame.plug, hcolor, Color.over, Shape.balanced_red]
            exact ⟨⟨htblack, (hred hcolor).1⟩, ht, hsib⟩
        | black =>
            simp only [Frame.plug, hcolor, Color.over, Shape.balanced_black]
            exact ⟨ht, hsib⟩
      · intro hplug _
        simp only [Frame.plug, Shape.rootColor_branch] at hplug
        exact (hred hplug).2

/-- Reading the discipline of a whole tree off at a focus. -/
theorem fits_of_balanced {path : Path ν} {t : Shape ν} {m : ℕ}
    (hbal : (fill path t).Balanced m)
    (hroot : (fill path t).rootColor = .black) :
    ∃ n, t.Balanced n ∧ Path.Fits path n ∧
      (t.rootColor = .red → Path.TopBlack path) := by
  induction path generalizing t with
  | nil =>
      refine ⟨m, hbal, trivial, ?_⟩
      intro hred
      rw [fill_nil, hred] at hroot
      cases hroot
  | cons f fs ih =>
      obtain ⟨n, hplug, hfs, htop⟩ := ih hbal hroot
      simp only [Frame.plug, Shape.rootColor_branch] at htop
      cases hcolor : f.color with
      | red =>
          simp only [Frame.plug, hcolor, Shape.balanced_red] at hplug
          refine ⟨n, hplug.2.1, ⟨hplug.2.2, ?_, ?_⟩, ?_⟩
          · intro _
            exact ⟨hplug.1.2, htop hcolor⟩
          · simpa [hcolor, Color.over] using hfs
          · intro hred
            rw [hplug.1.1] at hred
            cases hred
      | black =>
          simp only [Frame.plug, hcolor] at hplug
          cases n with
          | zero => exact absurd hplug (Shape.balanced_black_zero _ _ _ _)
          | succ n =>
              rw [Shape.balanced_black] at hplug
              refine ⟨n, hplug.1, ⟨hplug.2, ?_, ?_⟩, ?_⟩
              · intro hred
                rw [hcolor] at hred
                cases hred
              · simpa [hcolor, Color.over] using hfs
              · intro _
                exact hcolor

/-- Two subtrees of the same colors and heights are interchangeable. -/
theorem balanced_fill_congr (path : Path ν) {t t' : Shape ν}
    (hcolor : t'.rootColor = t.rootColor)
    (hbal : ∀ n, t'.Balanced n ↔ t.Balanced n) :
    (fill path t').rootColor = (fill path t).rootColor ∧
      ∀ n, (fill path t').Balanced n ↔ (fill path t).Balanced n := by
  induction path generalizing t t' with
  | nil => exact ⟨hcolor, hbal⟩
  | cons f fs ih =>
      apply ih
      · simp [Frame.plug]
      · intro n
        cases hf : f.color with
        | red => simp [Frame.plug, hf, hcolor, hbal]
        | black =>
            cases n with
            | zero => simp [Frame.plug, hf, Shape.balanced_black_zero]
            | succ n => simp [Frame.plug, hf, hbal]

/-- The discipline of a path does not look at the labels. -/
theorem topBlack_relabel {fs gs : Path ν} {f : Frame ν} (x : ν)
    (h : Path.TopBlack (fs ++ f :: gs)) :
    Path.TopBlack (fs ++ { f with label := x } :: gs) := by
  cases fs with
  | nil => exact h
  | cons g fs => exact h

theorem fits_relabel {fs gs : Path ν} {f : Frame ν} {n : ℕ} (x : ν)
    (h : Path.Fits (fs ++ f :: gs) n) :
    Path.Fits (fs ++ { f with label := x } :: gs) n := by
  induction fs generalizing n with
  | nil => exact h
  | cons g fs ih =>
      obtain ⟨hsib, hred, hfits⟩ := h
      refine ⟨hsib, ?_, ih hfits⟩
      intro hcolor
      exact ⟨(hred hcolor).1, topBlack_relabel x (hred hcolor).2⟩

/-! ## Insertion repair

The focused subtree is red and balanced; only its root and the step above it
may both be red. -/

/-- Red parent and red uncle: recolor, and move two steps up. -/
theorem insert_recolor {f g : Frame ν} {fs : Path ν} {t : Shape ν} {n : ℕ}
    (hpath : Path.Fits (f :: g :: fs) n) (ht : t.Balanced n)
    (hf : f.color = .red) (huncle : g.sibling.rootColor = .red) :
    (({ g with color := .red, sibling := g.sibling.paint .black } : Frame ν).plug
        (({ f with color := .black } : Frame ν).plug t)).Balanced (n + 1) ∧
      Path.Fits fs (n + 1) := by
  obtain ⟨hsib, hred, hsib', _, hfs⟩ := hpath
  have hg : g.color = .black := (hred hf).2
  simp only [hf, Color.over] at hsib' hfs
  simp only [hg] at hfs
  refine ⟨?_, hfs⟩
  simp only [Frame.plug, Shape.balanced_red, Shape.rootColor_branch,
    Shape.balanced_black]
  exact ⟨⟨trivial, Shape.rootColor_paint_black _⟩, ⟨ht, hsib⟩,
    hsib'.paint_black huncle⟩

/-- Red parent, inner child: the first rotation turns it into the outer
case. -/
theorem insert_inner {f g : Frame ν} {fs : Path ν} {d : Dir}
    {a b : Shape ν} {z : ν} {n : ℕ}
    (hpath : Path.Fits (f :: g :: fs) n)
    (ht : (Shape.branch d .red a z b).Balanced n) (hf : f.color = .red) :
    (Shape.branch d .red f.sibling f.label a).Balanced n ∧
      Path.Fits (⟨d, .red, z, b⟩ :: g :: fs) n := by
  obtain ⟨hsib, hred, hgs⟩ := hpath
  rw [Shape.balanced_red] at ht
  have hfred := hred hf
  constructor
  · rw [Shape.balanced_red]
    exact ⟨⟨hfred.1, ht.1.1⟩, hsib, ht.2.1⟩
  · refine ⟨ht.2.2, fun _ => ⟨ht.1.2, hfred.2⟩, ?_⟩
    simpa only [hf] using hgs

/-- Red parent, outer child, black uncle: the second rotation ends the
repair, the focus now hanging below a black node. -/
theorem insert_outer {f g : Frame ν} {fs : Path ν} {n : ℕ}
    (hpath : Path.Fits (f :: g :: fs) n)
    (hf : f.color = .red) (huncle : g.sibling.rootColor = .black) :
    Path.Fits
      (⟨g.dir, .black, f.label,
        Shape.branch g.dir .red f.sibling g.label g.sibling⟩ :: fs) n := by
  obtain ⟨hsib, hred, hsib', _, hfs⟩ := hpath
  have hfred := hred hf
  have hg : g.color = .black := hfred.2
  simp only [hf, Color.over] at hsib' hfs
  simp only [hg] at hfs
  refine ⟨?_, ?_, hfs⟩
  · rw [Shape.balanced_red]
    exact ⟨⟨hfred.1, huncle⟩, hsib, hsib'⟩
  · intro h
    cases h

/-! ## Deletion repair

The path expects one black node more than the focused subtree has, unless the
subtree is red and can be painted black. -/

/-- The subtree is one black node short of height `n + 1`, or its red root
makes up for it. -/
def Shape.Short (t : Shape ν) (n : ℕ) : Prop :=
  (t.rootColor = .black ∧ t.Balanced n) ∨
    (t.rootColor = .red ∧ (t.paint .black).Balanced (n + 1))

theorem Shape.Balanced.short {t : Shape ν} {n : ℕ} (ht : t.Balanced n) :
    t.Short n := by
  cases hcolor : t.rootColor with
  | red => exact Or.inr ⟨hcolor, ht.paint_black hcolor⟩
  | black => exact Or.inl ⟨hcolor, ht⟩

theorem Shape.Short.balanced {t : Shape ν} {n : ℕ} (ht : t.Short n)
    (hblack : t.rootColor = .black) : t.Balanced n := by
  rcases ht with ht | ht
  · exact ht.2
  · rw [hblack] at ht
    cases ht.1

theorem delete_red_sibling {f : Frame ν} {fs : Path ν} {w : ν}
    {wn wf : Shape ν} {n : ℕ}
    (hsibling : f.sibling = Shape.branch f.dir .red wn w wf)
    (hpath : Path.Fits (f :: fs) (n + 1)) :
    Path.Fits
        (⟨f.dir, .red, f.label, wn⟩ :: ⟨f.dir, .black, w, wf⟩ :: fs)
        (n + 1) := by
  obtain ⟨hsib, hred, hfs⟩ := hpath
  rw [hsibling, Shape.balanced_red] at hsib
  have hf : f.color = .black := by
    cases hcolor : f.color with
    | red =>
        have := (hred hcolor).1
        rw [hsibling] at this
        simp at this
    | black => rfl
  rw [hf] at hfs
  refine ⟨hsib.2.1, fun _ => ⟨hsib.1.1, rfl⟩, hsib.2.2, ?_, hfs⟩
  intro h
  cases h

theorem delete_black_nephews {f : Frame ν} {fs : Path ν} {t : Shape ν}
    {w : ν} {wn wf : Shape ν} {n : ℕ}
    (hsibling : f.sibling = Shape.branch f.dir .black wn w wf)
    (hpath : Path.Fits (f :: fs) (n + 1))
    (ht : t.Balanced n)
    (hwn : wn.rootColor = .black) (hwf : wf.rootColor = .black) :
    (Shape.branch f.dir f.color t f.label
        (Shape.branch f.dir .red wn w wf)).Short (f.color.over n) ∧
      Path.Fits fs (f.color.over n + 1) := by
  obtain ⟨hsib, hred, hfs⟩ := hpath
  rw [hsibling, Shape.balanced_black] at hsib
  have hw : (Shape.branch f.dir .red wn w wf).Balanced n := by
    rw [Shape.balanced_red]
    exact ⟨⟨hwn, hwf⟩, hsib⟩
  cases hcolor : f.color with
  | red =>
      rw [hcolor] at hfs
      refine ⟨Or.inr ⟨Shape.rootColor_branch _ _ _ _ _, ?_⟩, hfs⟩
      simp only [Shape.paint_branch, Color.over, Shape.balanced_black]
      exact ⟨ht, hw⟩
  | black =>
      rw [hcolor] at hfs
      refine ⟨Or.inl ⟨Shape.rootColor_branch _ _ _ _ _, ?_⟩, hfs⟩
      simp only [Color.over, Shape.balanced_black]
      exact ⟨ht, hw⟩

theorem delete_near_red {f : Frame ν} {fs : Path ν} {v w : ν}
    {a b wf : Shape ν} {n : ℕ}
    (hsibling : f.sibling =
      Shape.branch f.dir .black (Shape.branch f.dir .red a v b) w wf)
    (hpath : Path.Fits (f :: fs) (n + 1))
    (hwf : wf.rootColor = .black) :
    Path.Fits
      ({ f with sibling :=
          Shape.branch f.dir .black a v (Shape.branch f.dir .red b w wf) } :: fs)
      (n + 1) := by
  obtain ⟨hsib, hred, hfs⟩ := hpath
  rw [hsibling, Shape.balanced_black, Shape.balanced_red] at hsib
  refine ⟨?_, ?_, hfs⟩
  · simp only [Shape.balanced_black, Shape.balanced_red]
    exact ⟨hsib.1.2.1, ⟨hsib.1.1.2, hwf⟩, hsib.1.2.2, hsib.2⟩
  · intro h
    exact ⟨Shape.rootColor_branch _ _ _ _ _, (hred h).2⟩

theorem delete_far_red {f : Frame ν} {fs : Path ν} {t : Shape ν}
    {w : ν} {wn wf : Shape ν} {n : ℕ}
    (hsibling : f.sibling = Shape.branch f.dir .black wn w wf)
    (hpath : Path.Fits (f :: fs) (n + 1)) (ht : t.Balanced n)
    (hwf : wf.rootColor = .red) :
    (Shape.branch f.dir f.color (Shape.branch f.dir .black t f.label wn) w
        (wf.paint .black)).Balanced (f.color.over (n + 1)) ∧
      Path.Fits fs (f.color.over (n + 1)) ∧
      (f.color = .red → Path.TopBlack fs) := by
  obtain ⟨hsib, hred, hfs⟩ := hpath
  rw [hsibling, Shape.balanced_black] at hsib
  refine ⟨?_, hfs, fun h => (hred h).2⟩
  have hpaint := hsib.2.paint_black hwf
  cases f.color with
  | red =>
      simp only [Color.over, Shape.balanced_red, Shape.rootColor_branch,
        Shape.rootColor_paint_black, Shape.balanced_black]
      exact ⟨⟨trivial, trivial⟩, ⟨ht, hsib.1⟩, hpaint⟩
  | black =>
      simp only [Color.over, Shape.balanced_black]
      exact ⟨⟨ht, hsib.1⟩, hpaint⟩

/-- Taking out a node with at most one child: the rest of the tree keeps the
discipline around the child, short by one when the node was black. -/
theorem delete_splice {path : Path ν} {c : Color} {l r t : Shape ν} {x : ν}
    {m : ℕ} (hbal : (fill path (.node c l x r)).Balanced m)
    (hroot : (fill path (.node c l x r)).rootColor = .black)
    (ht : l = .leaf ∧ t = r ∨ r = .leaf ∧ t = l) :
    ∃ n, t.Balanced n ∧ Path.Fits path (c.over n) ∧
      (c = .red → t.rootColor = .black ∧ Path.TopBlack path) := by
  obtain ⟨n, hnode, hfits, htop⟩ := fits_of_balanced hbal hroot
  cases c with
  | red =>
      obtain ⟨hcolors, hl, hr⟩ := hnode
      refine ⟨n, ?_, hfits, fun _ => ⟨?_, htop rfl⟩⟩
      · rcases ht with ⟨_, rfl⟩ | ⟨_, rfl⟩
        · exact hr
        · exact hl
      · rcases ht with ⟨_, rfl⟩ | ⟨_, rfl⟩
        · exact hcolors.2
        · exact hcolors.1
  | black =>
      obtain ⟨k, rfl, hl, hr⟩ := hnode
      refine ⟨k, ?_, hfits, fun hred => by cases hred⟩
      rcases ht with ⟨_, rfl⟩ | ⟨_, rfl⟩
      · exact hr
      · exact hl

/-! ## The discipline in two separate statements -/

def Shape.NoRedRed : Shape ν → Prop
  | .leaf => True
  | .node c l _ r =>
      (c = .red → l.rootColor = .black ∧ r.rootColor = .black) ∧
        l.NoRedRed ∧ r.NoRedRed

/-- Every way down to a leaf crosses exactly `n` black nodes. -/
def Shape.BlackHeight : Shape ν → ℕ → Prop
  | .leaf, n => n = 0
  | .node c l _ r, n =>
      ∃ m, n = c.over m ∧ l.BlackHeight m ∧ r.BlackHeight m

theorem Shape.balanced_iff (t : Shape ν) (n : ℕ) :
    t.Balanced n ↔ t.NoRedRed ∧ t.BlackHeight n := by
  induction t generalizing n with
  | leaf => simp [Shape.Balanced, Shape.NoRedRed, Shape.BlackHeight]
  | node c l x r ihl ihr =>
      cases c with
      | red =>
          simp only [Shape.Balanced, Shape.NoRedRed, Shape.BlackHeight, ihl,
            ihr, Color.over, exists_eq_left', forall_const]
          tauto
      | black =>
          simp only [Shape.Balanced, Shape.NoRedRed, Shape.BlackHeight, ihl,
            ihr, Color.over, reduceCtorEq, false_implies, true_and]
          constructor
          · rintro ⟨m, rfl, hl, hr⟩
            exact ⟨⟨hl.1, hr.1⟩, m, rfl, hl.2, hr.2⟩
          · rintro ⟨hno, m, rfl, hl, hr⟩
            exact ⟨m, rfl, ⟨hno.1, hl⟩, hno.2, hr⟩

def Shape.height : Shape ν → ℕ
  | .leaf => 0
  | .node _ l _ r => max l.height r.height + 1

theorem Shape.height_le_length (t : Shape ν) :
    t.height ≤ t.inorder.length := by
  induction t with
  | leaf => simp [Shape.height]
  | node c l x r ihl ihr =>
      simp only [Shape.height, Shape.inorder, List.length_append,
        List.length_cons]
      omega

theorem Shape.height_branch (d : Dir) (c : Color) (a b : Shape ν) (x : ν) :
    (Shape.branch d c a x b).height = max a.height b.height + 1 := by
  cases d with
  | left => rfl
  | right =>
      rw [max_comm]
      rfl

/-- A tree is as high as a path in it is long. -/
theorem length_add_height_le (path : Path ν) (t : Shape ν) :
    path.length + t.height ≤ (fill path t).height := by
  induction path generalizing t with
  | nil => simp
  | cons f fs ih =>
      have hfill := ih (f.plug t)
      rw [Frame.plug, Shape.height_branch] at hfill
      rw [fill_cons, List.length_cons, Frame.plug]
      omega

/-- Every black level doubles the room for nodes. -/
theorem Shape.Balanced.pow_le {t : Shape ν} {n : ℕ} (ht : t.Balanced n) :
    2 ^ n ≤ t.inorder.length + 1 := by
  induction t generalizing n with
  | leaf =>
      cases ht
      simp
  | node c l x r ihl ihr =>
      simp only [Shape.inorder, List.length_append, List.length_cons]
      cases c with
      | red =>
          have hl := ihl ht.2.1
          omega
      | black =>
          obtain ⟨m, rfl, hl, hr⟩ := ht
          have hpowl := ihl hl
          have hpowr := ihr hr
          rw [pow_succ]
          omega

/-- At most every second node of a way down is red. -/
theorem Shape.Balanced.height_le {t : Shape ν} {n : ℕ} (ht : t.Balanced n) :
    t.height ≤ 2 * n + 1 ∧ (t.rootColor = .black → t.height ≤ 2 * n) := by
  induction t generalizing n with
  | leaf => simp [Shape.height]
  | node c l x r ihl ihr =>
      simp only [Shape.height]
      cases c with
      | red =>
          obtain ⟨⟨hcl, hcr⟩, hl, hr⟩ := ht
          have hheightl := (ihl hl).2 hcl
          have hheightr := (ihr hr).2 hcr
          refine ⟨by omega, ?_⟩
          intro hblack
          cases hblack
      | black =>
          obtain ⟨m, rfl, hl, hr⟩ := ht
          have hheightl := (ihl hl).1
          have hheightr := (ihr hr).1
          exact ⟨by omega, fun _ => by omega⟩

/-- The height is at most twice the logarithm of the size. -/
theorem Shape.Balanced.pow_height_le {t : Shape ν} {n : ℕ}
    (ht : t.Balanced n) (hblack : t.rootColor = .black) :
    2 ^ t.height ≤ (t.inorder.length + 1) ^ 2 :=
  calc 2 ^ t.height ≤ 2 ^ (2 * n) :=
        Nat.pow_le_pow_right (by decide) (ht.height_le.2 hblack)
    _ = (2 ^ n) ^ 2 := by rw [mul_comm, pow_mul]
    _ ≤ (t.inorder.length + 1) ^ 2 := Nat.pow_le_pow_left ht.pow_le 2

/-- Without black nodes on the way down there is at most one red node. -/
theorem Shape.Balanced.length_le_one {t : Shape ν} (ht : t.Balanced 0) :
    t.inorder.length ≤ 1 := by
  cases t with
  | leaf => simp [Shape.inorder]
  | node c l x r =>
      cases c with
      | red =>
          obtain ⟨⟨hcl, hcr⟩, hl, hr⟩ := ht
          have hheightl := hl.height_le.2 hcl
          have hheightr := hr.height_le.2 hcr
          cases l <;> cases r <;> simp_all [Shape.height, Shape.inorder]
      | black =>
          obtain ⟨m, hm, -⟩ := ht
          omega

/-- The root of three or more nodes has two children. -/
theorem Shape.Balanced.exists_children {t : Shape ν} {n : ℕ}
    (ht : t.Balanced n) (hblack : t.rootColor = .black)
    (hlength : 3 ≤ t.inorder.length) :
    ∃ l x r, t = .node .black l x r ∧ l ≠ .leaf ∧ r ≠ .leaf := by
  cases t with
  | leaf => simp [Shape.inorder] at hlength
  | node c l x r =>
      cases hblack
      obtain ⟨m, rfl, hl, hr⟩ := ht
      simp only [Shape.inorder, List.length_append, List.length_cons] at hlength
      refine ⟨l, x, r, rfl, ?_, ?_⟩
      · rintro rfl
        cases hl
        have hright := hr.length_le_one
        simp only [Shape.inorder, List.length_nil] at hlength
        omega
      · rintro rfl
        cases hr
        have hleft := hl.length_le_one
        simp only [Shape.inorder, List.length_nil] at hlength
        omega

/-! ## Sorted trees -/

section Sorted

variable {κ : Type} [LinearOrder κ] (key : ν → κ)

def SortedBy (labels : List ν) : Prop :=
  labels.Pairwise (fun x y => key x < key y)

/-- The key belongs into the hole of the path. -/
def Brackets (path : Path ν) (k : κ) : Prop :=
  (∀ x ∈ Path.before path, key x < k) ∧ (∀ x ∈ Path.after path, k < key x)

variable {key}

theorem sortedBy_congr {labels labels' : List ν}
    (h : labels'.map key = labels.map key) (hsorted : SortedBy key labels) :
    SortedBy key labels' := by
  unfold SortedBy at *
  rw [← List.pairwise_map (f := key) (R := (· < ·))] at *
  rw [h]
  exact hsorted

theorem brackets_nil (k : κ) : Brackets key [] k := by
  simp [Brackets, Path.before, Path.after]

theorem brackets_left {path : Path ν} {c : Color} {l r : Shape ν} {x : ν}
    {k : κ} (hsorted : SortedBy key (fill path (.node c l x r)).inorder)
    (hk : Brackets key path k) (hlt : k < key x) :
    Brackets key (⟨.left, c, x, r⟩ :: path) k := by
  rw [inorder_fill] at hsorted
  simp only [SortedBy, Shape.inorder, List.pairwise_append,
    List.pairwise_cons] at hsorted
  refine ⟨hk.1, ?_⟩
  intro y hy
  simp only [Path.after, List.cons_append, List.mem_cons,
    List.mem_append] at hy
  rcases hy with rfl | hy | hy
  · exact hlt
  · exact hlt.trans (hsorted.1.2.1.2.1.1 y hy)
  · exact hk.2 y hy

theorem brackets_right {path : Path ν} {c : Color} {l r : Shape ν} {x : ν}
    {k : κ} (hsorted : SortedBy key (fill path (.node c l x r)).inorder)
    (hk : Brackets key path k) (hlt : key x < k) :
    Brackets key (⟨.right, c, x, l⟩ :: path) k := by
  rw [inorder_fill] at hsorted
  simp only [SortedBy, Shape.inorder, List.pairwise_append,
    List.pairwise_cons] at hsorted
  refine ⟨?_, hk.2⟩
  intro y hy
  simp only [Path.before, List.mem_append, List.mem_cons,
    List.not_mem_nil, or_false] at hy
  rcases hy with hy | hy | rfl
  · exact hk.1 y hy
  · exact (hsorted.1.2.1.2.2 y hy x (by simp)).trans hlt
  · exact hlt

theorem Brackets.ne_of_mem {path : Path ν} {k : κ}
    (hk : Brackets key path k) :
    ∀ x ∈ (fill path .leaf).inorder, key x ≠ k := by
  intro x hx
  rw [inorder_fill] at hx
  simp only [Shape.inorder_leaf, List.append_nil, List.mem_append] at hx
  rcases hx with hx | hx
  · exact (hk.1 x hx).ne
  · exact (hk.2 x hx).ne'

theorem Brackets.sorted_insert {path : Path ν} {z : ν}
    (hk : Brackets key path (key z))
    (hsorted : SortedBy key (fill path .leaf).inorder) :
    SortedBy key (Path.before path ++ z :: Path.after path) := by
  rw [inorder_fill] at hsorted
  simp only [SortedBy, Shape.inorder_leaf, List.append_nil,
    List.pairwise_append] at hsorted
  simp only [SortedBy, List.pairwise_append, List.pairwise_cons]
  refine ⟨hsorted.1, ⟨hk.2, hsorted.2.1⟩, ?_⟩
  intro x hx y hy
  rcases List.mem_cons.mp hy with rfl | hy
  · exact hk.1 x hx
  · exact hsorted.2.2 x hx y hy

end Sorted

end RedBlack
