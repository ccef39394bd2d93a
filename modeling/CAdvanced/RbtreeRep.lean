import CAdvanced.RbtreeProgram

/-!
# Trees in the heap

`Repr s T` says that the pointer structure reachable from `s.root` is the
tree `T`, parent pointers included.  A focus splits it into the cells of a path
and the cells of a subtree, so an update at the focus is checked against the
few cells it changes.
-/

namespace CAdvanced

open Fallible
open RedBlack

/-- What one tree node stores besides its links. -/
structure Node where
  addr : Addr
  key : CharBlock
  value : CharPtr

def ptr (nil : Addr) : Shape Node → Addr
  | .leaf => nil
  | .node _ _ x _ => x.addr

@[simp] theorem ptr_leaf (nil : Addr) : ptr nil .leaf = nil := rfl

@[simp] theorem ptr_node (nil : Addr) (c : Color) (l r : Shape Node)
    (x : Node) : ptr nil (.node c l x r) = x.addr := rfl

@[simp] theorem ptr_branch (nil : Addr) (d : Dir) (c : Color)
    (a b : Shape Node) (x : Node) :
    ptr nil (Shape.branch d c a x b) = x.addr := by
  cases d <;> rfl

@[simp] theorem ptr_paint (nil : Addr) (c : Color) (t : Shape Node) :
    ptr nil (t.paint c) = ptr nil t := by
  cases t <;> rfl

/-- The node that a path hangs its hole on. -/
def holder (nil : Addr) : Path Node → Addr
  | [] => nil
  | f :: _ => f.label.addr

def addrs (t : Shape Node) : List Addr := t.inorder.map Node.addr

def pathAddrs (path : Path Node) : List Addr :=
  (Path.labels path).map Node.addr

@[simp] theorem addrs_leaf : addrs .leaf = [] := rfl

@[simp] theorem addrs_paint (c : Color) (t : Shape Node) :
    addrs (t.paint c) = addrs t := by
  simp [addrs]

@[simp] theorem pathAddrs_nil : pathAddrs [] = [] := rfl

@[simp] theorem pathAddrs_cons (f : Frame Node) (fs : Path Node) :
    pathAddrs (f :: fs) =
      f.label.addr :: (addrs f.sibling ++ pathAddrs fs) := by
  simp [pathAddrs, addrs, Path.labels]

theorem addrs_branch_perm (d : Dir) (c : Color) (a b : Shape Node)
    (x : Node) :
    (addrs (Shape.branch d c a x b)).Perm
      (x.addr :: (addrs a ++ addrs b)) := by
  simpa [addrs] using
    (Shape.inorder_branch_perm d c a b x).map Node.addr

@[simp] theorem mem_addrs_branch (d : Dir) (c : Color) (a b : Shape Node)
    (x : Node) (p : Addr) :
    p ∈ addrs (Shape.branch d c a x b) ↔
      p = x.addr ∨ p ∈ addrs a ∨ p ∈ addrs b := by
  simpa using (addrs_branch_perm d c a b x).mem_iff (a := p)

theorem addrs_fill_perm (path : Path Node) (t : Shape Node) :
    (addrs (fill path t)).Perm (addrs t ++ pathAddrs path) := by
  simpa [addrs, pathAddrs] using
    (inorder_fill_perm path t).map Node.addr

theorem ptr_mem_addrs {nil : Addr} {t : Shape Node} (ht : t ≠ .leaf) :
    ptr nil t ∈ addrs t := by
  cases t with
  | leaf => exact absurd rfl ht
  | node c l x r => simp [ptr, addrs, Shape.inorder]

/-! ## Cells -/

/-- The heap cell of one node: its child in direction `d`, the other child,
and its parent. -/
structure CellAt (s : Rbtree) (x : Node) (d : Dir) (c : Color)
    (near far par : Addr) : Prop where
  ne_nil : x.addr ≠ s.nil
  live : x.addr ∈ s.arena.live
  color : s.color x.addr = some c
  near : s.child d x.addr = some near
  far : s.child d.flip x.addr = some far
  parent : s.parent x.addr = some par
  key : s.key x.addr = some (some x.key)
  value : s.value x.addr = some x.value

theorem CellAt.flip {s : Rbtree} {x : Node} {d : Dir} {c : Color}
    {near far par : Addr} (h : CellAt s x d c near far par) :
    CellAt s x d.flip c far near par where
  ne_nil := h.ne_nil
  live := h.live
  color := h.color
  near := h.far
  far := by simpa using h.near
  parent := h.parent
  key := h.key
  value := h.value

/-- Two states agree on every field of the cell at `a`. -/
structure SameCell (s s' : Rbtree) (a : Addr) : Prop where
  live : a ∈ s.arena.live → a ∈ s'.arena.live
  color : s'.color a = s.color a
  child : ∀ d, s'.child d a = s.child d a
  parent : s'.parent a = s.parent a
  key : s'.key a = s.key a
  value : s'.value a = s.value a

theorem SameCell.refl (s : Rbtree) (a : Addr) : SameCell s s a :=
  ⟨id, rfl, fun _ => rfl, rfl, rfl, rfl⟩

theorem SameCell.trans {s s' s'' : Rbtree} {a : Addr}
    (h : SameCell s s' a) (h' : SameCell s' s'' a) : SameCell s s'' a where
  live := h'.live ∘ h.live
  color := h'.color.trans h.color
  child := fun d => (h'.child d).trans (h.child d)
  parent := h'.parent.trans h.parent
  key := h'.key.trans h.key
  value := h'.value.trans h.value

theorem CellAt.frame {s s' : Rbtree} {x : Node} {d : Dir} {c : Color}
    {near far par : Addr} (h : CellAt s x d c near far par)
    (hnil : s'.nil = s.nil) (hsame : SameCell s s' x.addr) :
    CellAt s' x d c near far par where
  ne_nil := by rw [hnil]; exact h.ne_nil
  live := hsame.live h.live
  color := hsame.color.trans h.color
  near := (hsame.child d).trans h.near
  far := (hsame.child d.flip).trans h.far
  parent := hsame.parent.trans h.parent
  key := hsame.key.trans h.key
  value := hsame.value.trans h.value

/-! ## Subtrees and paths -/

/-- The subtree `t` lies in the heap below the parent `par`. -/
def Rep (s : Rbtree) : Addr → Shape Node → Prop
  | _, .leaf => True
  | par, .node c l x r =>
      CellAt s x .left c (ptr s.nil l) (ptr s.nil r) par ∧
        Rep s x.addr l ∧ Rep s x.addr r

@[simp] theorem rep_leaf (s : Rbtree) (par : Addr) : Rep s par .leaf :=
  trivial

theorem rep_branch {s : Rbtree} {par : Addr} {d : Dir} {c : Color}
    {a b : Shape Node} {x : Node} :
    Rep s par (Shape.branch d c a x b) ↔
      CellAt s x d c (ptr s.nil a) (ptr s.nil b) par ∧
        Rep s x.addr a ∧ Rep s x.addr b := by
  cases d with
  | left => rfl
  | right =>
      constructor
      · rintro ⟨hcell, hb, ha⟩
        exact ⟨hcell.flip, ha, hb⟩
      · rintro ⟨hcell, ha, hb⟩
        exact ⟨hcell.flip, hb, ha⟩

/-- The path lies in the heap, with `p` stored in its hole. -/
def RepPath (s : Rbtree) : Path Node → Addr → Prop
  | [], p => s.root = p
  | f :: fs, p =>
      CellAt s f.label f.dir f.color p (ptr s.nil f.sibling)
          (holder s.nil fs) ∧
        Rep s f.label.addr f.sibling ∧ RepPath s fs f.label.addr

theorem rep_fill {s : Rbtree} {path : Path Node} {t : Shape Node} :
    (s.root = ptr s.nil (fill path t) ∧ Rep s s.nil (fill path t)) ↔
      RepPath s path (ptr s.nil t) ∧ Rep s (holder s.nil path) t := by
  induction path generalizing t with
  | nil => rfl
  | cons f fs ih =>
      rw [fill_cons, ih, Frame.plug, rep_branch, ptr_branch]
      simp only [RepPath, holder]
      tauto

theorem Rep.frame {s s' : Rbtree} {par : Addr} {t : Shape Node}
    (h : Rep s par t) (hnil : s'.nil = s.nil)
    (hsame : ∀ a ∈ addrs t, SameCell s s' a) : Rep s' par t := by
  induction t generalizing par with
  | leaf => trivial
  | node c l x r ihl ihr =>
      obtain ⟨hcell, hl, hr⟩ := h
      simp only [addrs, Shape.inorder, List.map_append, List.map_cons,
        List.mem_append, List.mem_cons] at hsame
      refine ⟨?_, ihl hl (fun a ha => hsame a (Or.inl ha)),
        ihr hr (fun a ha => hsame a (Or.inr (Or.inr ha)))⟩
      rw [hnil]
      exact hcell.frame hnil (hsame _ (Or.inr (Or.inl rfl)))

theorem RepPath.frame {s s' : Rbtree} {path : Path Node} {p : Addr}
    (h : RepPath s path p) (hnil : s'.nil = s.nil)
    (hroot : s'.root = s.root)
    (hsame : ∀ a ∈ pathAddrs path, SameCell s s' a) :
    RepPath s' path p := by
  induction path generalizing p with
  | nil => exact hroot.trans h
  | cons f fs ih =>
      obtain ⟨hcell, hsib, hfs⟩ := h
      simp only [pathAddrs_cons, List.mem_cons, List.mem_append] at hsame
      refine ⟨?_, hsib.frame hnil (fun a ha => hsame a (by simp [ha])),
        ih hfs (fun a ha => hsame a (by simp [ha]))⟩
      rw [hnil]
      exact hcell.frame hnil (hsame _ (Or.inl rfl))

/-- Another parent for the same subtree: only the root's parent field
differs. -/
theorem Rep.reparent {s s' : Rbtree} {par par' : Addr} {t : Shape Node}
    (h : Rep s par t) (hnil : s'.nil = s.nil)
    (hnodup : (addrs t).Nodup)
    (hroot : t ≠ .leaf → s'.parent (ptr s.nil t) = some par')
    (hsame : ∀ a ∈ addrs t,
      SameCell s { s' with parent := s.parent } a ∧
        (a ≠ ptr s.nil t → s'.parent a = s.parent a)) :
    Rep s' par' t := by
  cases t with
  | leaf => trivial
  | node c l x r =>
      obtain ⟨hcell, hl, hr⟩ := h
      simp only [addrs, Shape.inorder, List.map_append, List.map_cons,
        List.mem_append, List.mem_cons] at hsame
      simp only [addrs, Shape.inorder, List.map_append, List.map_cons,
        List.nodup_middle, List.nodup_cons, List.mem_append] at hnodup
      have hother : ∀ a, a ≠ x.addr →
          SameCell s { s' with parent := s.parent } a ∧
            (a ≠ ptr s.nil (.node c l x r) → s'.parent a = s.parent a) →
          SameCell s s' a := by
        intro a ha hcellSame
        exact ⟨hcellSame.1.live, hcellSame.1.color, hcellSame.1.child,
          hcellSame.2 ha, hcellSame.1.key, hcellSame.1.value⟩
      refine ⟨?_, hl.frame hnil ?_, hr.frame hnil ?_⟩
      · have hx := (hsame x.addr (Or.inr (Or.inl rfl))).1
        rw [hnil]
        exact
          { ne_nil := by rw [hnil]; exact hcell.ne_nil
            live := hx.live hcell.live
            color := hx.color.trans hcell.color
            near := (hx.child _).trans hcell.near
            far := (hx.child _).trans hcell.far
            parent := hroot (by simp)
            key := hx.key.trans hcell.key
            value := hx.value.trans hcell.value }
      · intro a ha
        apply hother a _ (hsame a (Or.inl ha))
        rintro rfl
        exact hnodup.1 (Or.inl ha)
      · intro a ha
        apply hother a _ (hsame a (Or.inr (Or.inr ha)))
        rintro rfl
        exact hnodup.1 (Or.inr ha)

/-! ## Whole trees -/

structure Repr (s : Rbtree) (T : Shape Node) : Prop where
  root : s.root = ptr s.nil T
  rep : Rep s s.nil T
  nodup : (addrs T).Nodup
  nilBlack : s.color s.nil = some .black
  nilLive : s.nil ∈ s.arena.live

/-- Every node of the subtree has its cell. -/
theorem Rep.exists_cell {s : Rbtree} {par : Addr} {t : Shape Node}
    (h : Rep s par t) : ∀ a ∈ addrs t, ∃ x c near far up,
      x.addr = a ∧ CellAt s x .left c near far up := by
  induction t generalizing par with
  | leaf => simp
  | node c l x r ihl ihr =>
      obtain ⟨hcell, hl, hr⟩ := h
      intro a ha
      simp only [addrs, Shape.inorder, List.map_append, List.map_cons,
        List.mem_append, List.mem_cons] at ha
      rcases ha with ha | rfl | ha
      · exact ihl hl a ha
      · exact ⟨x, c, _, _, par, rfl, hcell⟩
      · exact ihr hr a ha

theorem Rep.ne_nil {s : Rbtree} {par : Addr} {t : Shape Node}
    (h : Rep s par t) : ∀ a ∈ addrs t, a ≠ s.nil := by
  intro a ha
  obtain ⟨x, c, near, far, up, rfl, hcell⟩ := h.exists_cell a ha
  exact hcell.ne_nil

theorem Rep.live {s : Rbtree} {par : Addr} {t : Shape Node}
    (h : Rep s par t) : ∀ a ∈ addrs t, a ∈ s.arena.live := by
  intro a ha
  obtain ⟨x, c, near, far, up, rfl, hcell⟩ := h.exists_cell a ha
  exact hcell.live

theorem CellAt.label_eq {s : Rbtree} {x y : Node} {d : Dir} {c c' : Color}
    {near near' far far' par par' : Addr} (h : CellAt s x d c near far par)
    (h' : CellAt s y d c' near' far' par') (haddr : x.addr = y.addr) :
    x = y ∧ c = c' ∧ near = near' ∧ far = far' := by
  have hcolor := h.color
  have hnear := h.near
  have hfar := h.far
  have hkey := h.key
  have hvalue := h.value
  rw [haddr] at hcolor hnear hfar hkey hvalue
  rw [h'.color, Option.some.injEq] at hcolor
  rw [h'.near, Option.some.injEq] at hnear
  rw [h'.far, Option.some.injEq] at hfar
  rw [h'.key, Option.some.injEq, Option.some.injEq] at hkey
  rw [h'.value, Option.some.injEq] at hvalue
  obtain ⟨xaddr, xkey, xvalue⟩ := x
  subst haddr hkey hvalue
  exact ⟨rfl, hcolor.symm, hnear.symm, hfar.symm⟩

/-- The heap determines the subtree. -/
theorem Rep.shape_eq {s : Rbtree} {par par' : Addr} {t t' : Shape Node}
    (h : Rep s par t) (h' : Rep s par' t')
    (hptr : ptr s.nil t = ptr s.nil t') : t = t' := by
  induction t generalizing par par' t' with
  | leaf =>
      cases t' with
      | leaf => rfl
      | node c l x r => exact absurd hptr.symm h'.1.ne_nil
  | node c l x r ihl ihr =>
      cases t' with
      | leaf => exact absurd hptr h.1.ne_nil
      | node c' l' y r' =>
          obtain ⟨rfl, rfl, hleft, hright⟩ := h.1.label_eq h'.1 hptr
          rw [ihl h.2.1 h'.2.1 hleft, ihr h.2.2 h'.2.2 hright]

namespace Repr

variable {s s' : Rbtree} {path : Path Node} {t T : Shape Node}

theorem shape_eq {T' : Shape Node} (h : Repr s T) (h' : Repr s T') : T = T' :=
  h.rep.shape_eq h'.rep (h.root.symm.trans h'.root)

theorem focusPath (h : Repr s (fill path t)) : RepPath s path (ptr s.nil t) :=
  (rep_fill.mp ⟨h.root, h.rep⟩).1

theorem focusRep (h : Repr s (fill path t)) : Rep s (holder s.nil path) t :=
  (rep_fill.mp ⟨h.root, h.rep⟩).2

theorem nodup_focus (h : Repr s (fill path t)) :
    (addrs t ++ pathAddrs path).Nodup :=
  (addrs_fill_perm path t).nodup_iff.mp h.nodup

theorem ne_nil (h : Repr s T) : ∀ a ∈ addrs T, a ≠ s.nil := h.rep.ne_nil

theorem live (h : Repr s T) : ∀ a ∈ addrs T, a ∈ s.arena.live := h.rep.live

theorem path_ne_nil (h : Repr s (fill path t)) :
    ∀ a ∈ pathAddrs path, a ≠ s.nil := by
  intro a ha
  apply h.ne_nil
  rw [(addrs_fill_perm path t).mem_iff]
  exact List.mem_append_right _ ha

theorem focus_ne_nil (h : Repr s (fill path t)) :
    ∀ a ∈ addrs t, a ≠ s.nil := h.focusRep.ne_nil

/-- Rebuild a whole tree from a focus. -/
theorem of_focus (hpath : RepPath s path (ptr s.nil t))
    (hfocus : Rep s (holder s.nil path) t)
    (hnodup : (addrs t ++ pathAddrs path).Nodup)
    (hblack : s.color s.nil = some .black)
    (hlive : s.nil ∈ s.arena.live) : Repr s (fill path t) where
  root := (rep_fill.mpr ⟨hpath, hfocus⟩).1
  rep := (rep_fill.mpr ⟨hpath, hfocus⟩).2
  nodup := (addrs_fill_perm path t).nodup_iff.mpr hnodup
  nilBlack := hblack
  nilLive := hlive

theorem color_ptr (h : Repr s (fill path t)) :
    s.color (ptr s.nil t) = some t.rootColor := by
  cases t with
  | leaf => exact h.nilBlack
  | node c l x r => exact h.focusRep.1.color

theorem live_ptr (h : Repr s (fill path t)) :
    ptr s.nil t ∈ s.arena.live := by
  cases t with
  | leaf => exact h.nilLive
  | node c l x r => exact h.focusRep.1.live

theorem parent_ptr (h : Repr s (fill path t)) (ht : t ≠ .leaf) :
    s.parent (ptr s.nil t) = some (holder s.nil path) := by
  cases t with
  | leaf => exact absurd rfl ht
  | node c l x r => exact h.focusRep.1.parent

/-- Updates outside the live blocks do not touch the tree. -/
theorem frame (h : Repr s T) (hnil : s'.nil = s.nil)
    (hroot : s'.root = s.root)
    (hsame : ∀ a ∈ s.arena.live, SameCell s s' a) : Repr s' T where
  root := by rw [hroot, hnil]; exact h.root
  rep := by
    rw [hnil]
    exact h.rep.frame hnil (fun a ha => hsame a (h.live a ha))
  nodup := h.nodup
  nilBlack := by
    rw [hnil, (hsame _ h.nilLive).color]
    exact h.nilBlack
  nilLive := by
    rw [hnil]
    exact (hsame _ h.nilLive).live h.nilLive

theorem relabel {c : Color} {l r : Shape Node} {z z' : Node}
    (h : Repr s (fill path (.node c l z r))) (haddr : z'.addr = z.addr)
    (hnil : s'.nil = s.nil) (hroot : s'.root = s.root)
    (hlinks : SameCell s { s' with key := s.key, value := s.value } z.addr)
    (hkey : s'.key z.addr = some (some z'.key))
    (hvalue : s'.value z.addr = some z'.value)
    (hsame : ∀ a, a ≠ z.addr →
      a = s.nil ∨ a ∈ addrs (fill path (.node c l z r)) →
      SameCell s s' a) :
    Repr s' (fill path (.node c l z' r)) := by
  have hperm := addrs_fill_perm path (.node c l z r)
  have hbranch := addrs_branch_perm .left c l r z
  have hnodup := ((hbranch.append_right (pathAddrs path)).nodup_iff).mp
    h.nodup_focus
  have hmem : ∀ a, a ∈ addrs (fill path (.node c l z r)) ↔
      a = z.addr ∨ (a ∈ addrs l ∨ a ∈ addrs r) ∨ a ∈ pathAddrs path := by
    intro a
    have hnode := mem_addrs_branch .left c l r z a
    simp only [Shape.branch] at hnode
    rw [hperm.mem_iff, List.mem_append, hnode]
    tauto
  simp only [List.cons_append, List.nodup_cons, List.mem_append,
    not_or] at hnodup
  obtain ⟨hcell, hl, hr⟩ := h.focusRep
  have hznil : s.nil ≠ z.addr := hcell.ne_nil.symm
  have hsameNil := hsame s.nil hznil (Or.inl rfl)
  apply Repr.of_focus
  · rw [hnil, ptr_node, haddr]
    refine h.focusPath.frame hnil hroot ?_
    intro a ha
    apply hsame a _ (Or.inr ((hmem a).mpr (Or.inr (Or.inr ha))))
    rintro rfl
    exact hnodup.1.2 ha
  · rw [hnil]
    refine ⟨?_, ?_, ?_⟩
    · rw [hnil]
      exact
        { ne_nil := by rw [haddr, hnil]; exact hcell.ne_nil
          live := by rw [haddr]; exact hlinks.live hcell.live
          color := by rw [haddr]; exact hlinks.color.trans hcell.color
          near := by rw [haddr]; exact (hlinks.child _).trans hcell.near
          far := by rw [haddr]; exact (hlinks.child _).trans hcell.far
          parent := by rw [haddr]; exact hlinks.parent.trans hcell.parent
          key := by rw [haddr]; exact hkey
          value := by rw [haddr]; exact hvalue }
    · rw [haddr]
      refine hl.frame hnil ?_
      intro a ha
      apply hsame a _ (Or.inr ((hmem a).mpr (Or.inr (Or.inl (Or.inl ha)))))
      rintro rfl
      exact hnodup.1.1.1 ha
    · rw [haddr]
      refine hr.frame hnil ?_
      intro a ha
      apply hsame a _ (Or.inr ((hmem a).mpr (Or.inr (Or.inl (Or.inr ha)))))
      rintro rfl
      exact hnodup.1.1.2 ha
  · have hfocus := h.nodup_focus
    simpa [addrs, Shape.inorder, haddr] using hfocus
  · rw [hnil, hsameNil.color]
    exact h.nilBlack
  · rw [hnil]
    exact hsameNil.live h.nilLive

end Repr

end CAdvanced
