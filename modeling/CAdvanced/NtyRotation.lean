import CAdvanced.NtyTree

/-!
# Rotations in the coroutine library's trees

What the accesses of `nty_tree.h` find at a focus of a tree, and what a
rotation there makes of the tree.
-/

namespace CAdvanced

open Fallible
open LinkedTree
open RedBlack

namespace NtyTree

variable {ν : Type} [DecidableEq ν]

/-! ## Fields -/

section Fields

variable {s : Heap ν} {x : ν} {e : Entry ν} {d : Dir}

omit [DecidableEq ν] in
theorem returns_rbChild (h : s.entry x = some e) (Q : Option ν → Heap ν → Prop) :
    Returns (rbChild d (some x)) s Q ↔ Q (e.child d) s :=
  returns_field h Q

omit [DecidableEq ν] in
theorem returns_rbParent (h : s.entry x = some e)
    (Q : Option ν → Heap ν → Prop) :
    Returns (rbParent (some x)) s Q ↔ Q e.parent s :=
  returns_field h Q

omit [DecidableEq ν] in
theorem returns_rbColor (h : s.entry x = some e) (Q : Color → Heap ν → Prop) :
    Returns (rbColor (some x)) s Q ↔ Q e.color s :=
  returns_field h Q

theorem returns_setRbChild {p : Option ν} (h : s.entry x = some e)
    (Q : Unit → Heap ν → Prop) :
    Returns (setRbChild d (some x) p) s Q ↔
      Q () (setEntry x (e.withChild d p) s) :=
  returns_assign h Q

theorem returns_setRbParent {p : Option ν} (h : s.entry x = some e)
    (Q : Unit → Heap ν → Prop) :
    Returns (setRbParent (some x) p) s Q ↔
      Q () (setEntry x (e.withParent p) s) :=
  returns_assign h Q

theorem returns_setRbColor {c : Color} (h : s.entry x = some e)
    (Q : Unit → Heap ν → Prop) :
    Returns (setRbColor (some x) c) s Q ↔
      Q () (setEntry x (e.withColor c) s) :=
  returns_assign h Q

omit [DecidableEq ν] in
theorem returns_rbRoot (Q : Option ν → Heap ν → Prop) :
    Returns rbRoot s Q ↔ Q s.root s := by
  simp [rbRoot]

end Fields

/-! ## Accesses at a focus -/

section Focus

variable {s : Heap ν} {path : Path ν} {t : Shape ν} {d : Dir} {c c' : Color}
  {a b : Shape ν} {x : ν} {p q : Option ν}

omit [DecidableEq ν] in
theorem returns_isRed (h : Rep s p t) (Q : Bool → Heap ν → Prop) :
    Returns (isRed (top t)) s Q ↔ Q (decide (t.rootColor = .red)) s := by
  cases t with
  | leaf => simp [isRed]
  | node c l x r =>
      rw [top, isRed, returns_bind, returns_rbColor h.1, returns_pure]
      rfl

omit [DecidableEq ν] in
theorem returns_rbParent_top (h : Represents s (fill path t)) (hne : t ≠ .leaf)
    (Q : Option ν → Heap ν → Prop) :
    Returns (rbParent (top t)) s Q ↔ Q (holder path) s := by
  obtain ⟨c, a, x, b, rfl⟩ := Shape.exists_branch .left hne
  rw [top_branch, returns_rbParent h.entry, Entry.parent_towards]

/-- The root of a subtree gets another parent, if there is one. -/
theorem returns_adopt (h : Rep s p t) (Q : Unit → Heap ν → Prop) :
    Returns (if (top t).isSome then setRbParent (top t) q else pure ()) s Q ↔
      Q () (adopt t q s) := by
  cases t with
  | leaf => simp [adopt]
  | node c l x r =>
      rw [top, Option.isSome_some, if_pos rfl, returns_setRbParent h.1]
      rfl

theorem returns_adoptChild {d : Dir} {far p q r : Option ν}
    (ha : Rep s r a) (hx : s.entry x = some (.towards d (top a) far p c))
    (Q : Unit → Heap ν → Prop) :
    Returns (adoptChild d q (some x)) s Q ↔ Q () (adopt a q s) := by
  have hadopt := returns_adopt (q := q) ha Q
  rw [adoptChild, returns_bind, returns_rbChild hx, Entry.child_towards]
  cases htop : top a with
  | none => simpa [htop] using hadopt
  | some z =>
      rw [Option.isSome_some, if_pos rfl, returns_bind, returns_rbChild hx,
        Entry.child_towards]
      simpa [htop] using hadopt

/-- Below a node there is a subtree to take over. -/
theorem returns_setRbParent_top (h : Rep s p t) (hne : t ≠ .leaf)
    (Q : Unit → Heap ν → Prop) :
    Returns (setRbParent (top t) q) s Q ↔ Q () (adopt t q s) := by
  rw [← returns_adopt h Q, if_pos (top_isSome hne)]

theorem returns_replaceChild (h : RepPath s path (some x))
    (hx : x ∉ Path.labels path) (Q : Unit → Heap ν → Prop) :
    Returns (replaceChild (holder path) (some x) q) s Q ↔
      Q () (hang path q s) := by
  cases path with
  | nil => simp [replaceChild, setRbRoot, hang]
  | cons f fs =>
      obtain ⟨hentry, -, -⟩ := h
      have hne : top f.sibling ≠ some x := by
        intro htop
        apply hx
        rw [Path.labels]
        exact List.mem_cons_of_mem _ (List.mem_append_left _ (mem_of_top htop))
      rw [replaceChild, holder_cons, Option.isSome_some, if_pos rfl,
        returns_bind, returns_rbChild hentry]
      obtain ⟨d, c, y, sib⟩ := f
      dsimp only at hentry hne ⊢
      cases d with
      | left =>
          rw [if_pos (Entry.child_towards _ _ _ _ _),
            returns_setRbChild hentry]
          rfl
      | right =>
          have hchild : (Entry.towards .right (some x) (top sib) (holder fs)
              c).child .left ≠ some x := hne
          rw [if_neg hchild, returns_setRbChild hentry]
          rfl

theorem returns_paint (h : Represents s (fill path (Shape.branch d c a x b)))
    (Q : Unit → Heap ν → Prop) :
    Returns (setRbColor (some x) c') s Q ↔
      Q () (setEntry x (.towards d (top a) (top b) (holder path) c') s) := by
  rw [returns_setRbColor h.entry, Entry.withColor_towards]

end Focus

section Rotate

variable {s : Heap ν} {path : Path ν} {d : Dir} {c c' : Color}
  {α β γ : Shape ν} {x y : ν}

theorem returns_rbRotate
    (h : Represents s
      (fill path (Shape.branch d c α x (Shape.branch d c' β y γ)))) :
    Returns (rbRotate d (some x)) s (fun _ s' => Represents s'
      (fill path (Shape.branch d c' (Shape.branch d c α x β) y γ))) := by
  have hapart := h.rotateApart
  obtain ⟨hx, hα, hrest⟩ := rep_branch.mp h.focusRep
  obtain ⟨hy, hβ, hγ⟩ := rep_branch.mp hrest
  rw [top_branch] at hx
  -- the links that are there when the parent's link is replaced
  let s₁ := setEntry x (.towards d (top α) (top β) (holder path) c) s
  let s₂ := adopt β (some x) s₁
  let s₃ := setEntry y (.towards d (top β) (top γ) (holder path) c') s₂
  have hy₁ : s₁.entry y = some (.towards d (top β) (top γ) (some x) c') :=
    (setEntry_of_ne _ _ hapart.xy.symm).trans hy
  have hβ₁ : Rep s₁ (some y) β := hβ.setEntry hapart.xβ _
  have hx₂ : s₂.entry x =
      some (.towards d (top α) (top β) (holder path) c) :=
    (adopt_entry_of_notMem hapart.xβ).trans (setEntry_self _ _ _)
  have hy₂ : s₂.entry y = some (.towards d (top β) (top γ) (some x) c') :=
    (adopt_entry_of_notMem hapart.yβ).trans hy₁
  have hx₃ : s₃.entry x =
      some (.towards d (top α) (top β) (holder path) c) :=
    (setEntry_of_ne _ _ hapart.xy).trans hx₂
  have hpath₃ : RepPath s₃ path (some x) := by
    have hfocus := h.focusPath
    rw [top_branch] at hfocus
    exact ((hfocus.setEntry hapart.xpath _).adopt_apart hapart.pathβ
      _).setEntry hapart.ypath _
  have hy₄ : (hang path (some y) s₃).entry y =
      some (.towards d (top β) (top γ) (holder path) c') :=
    (hang_entry hapart.ypath).trans (setEntry_self _ _ _)
  have hx₅ : (setEntry y (.towards d (some x) (top γ) (holder path) c')
      (hang path (some y) s₃)).entry x =
        some (.towards d (top α) (top β) (holder path) c) :=
    (setEntry_of_ne _ _ hapart.xy).trans
      ((hang_entry hapart.xpath).trans hx₃)
  have hend : setEntry x (.towards d (top α) (top β) (some y) c)
      (setEntry y (.towards d (some x) (top γ) (holder path) c')
        (hang path (some y) s₃)) = rotated d path c c' α β γ x y s := by
    simp only [s₃, s₂, s₁, rotated]
    rw [adopt_setEntry hapart.xβ, hang_setEntry hapart.ypath,
      setEntry_setEntry, hang_setEntry hapart.xpath,
      setEntry_comm _ _ _ hapart.xy, setEntry_setEntry]
  simp only [rbRotate, returns_bind, returns_rbChild hx, returns_rbChild hy,
    returns_setRbChild hx, Entry.child_flip_towards, Entry.child_towards,
    Entry.withChild_flip_towards]
  rw [returns_adoptChild hβ₁ hy₁]
  rw [returns_rbParent hx₂, Entry.parent_towards, returns_setRbParent hy₂,
    Entry.withParent_towards, returns_rbParent hx₃, Entry.parent_towards,
    returns_replaceChild hpath₃ hapart.xpath, returns_setRbChild hy₄,
    Entry.withChild_towards, returns_setRbParent hx₅,
    Entry.withParent_towards, hend]
  exact h.rotate

end Rotate

end NtyTree

end CAdvanced
