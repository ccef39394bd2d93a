import CAdvanced.RbtreeRotation

/-!
# Rotations on the pointer graph

A rotation looks at links only.  Here a tree is a tree of addresses, and the
colors, keys and values of its nodes may be anything, assigned or not.
-/

namespace CAdvanced

open Fallible
open RedBlack
open Rbtree

/-! ## Trees of addresses -/

def top (nil : Addr) : Shape Addr → Addr
  | .leaf => nil
  | .node _ _ x _ => x

structure LinkedAt (s : Rbtree) (x left right par : Addr) : Prop where
  ne_nil : x ≠ s.nil
  live : x ∈ s.arena.live
  left : s.child .left x = some left
  right : s.child .right x = some right
  parent : s.parent x = some par

/-- The links of a subtree below `par`; the colors in `t` say nothing. -/
def LinkedBelow (s : Rbtree) : Addr → Shape Addr → Prop
  | _, .leaf => True
  | par, .node _ l x r =>
      LinkedAt s x (top s.nil l) (top s.nil r) par ∧
        LinkedBelow s x l ∧ LinkedBelow s x r

/-- The links from `s.root` on make up the tree `T`, whose root has the parent
`nil`. -/
structure WellLinked (s : Rbtree) (T : Shape Addr) : Prop where
  root : s.root = top s.nil T
  linked : LinkedBelow s s.nil T
  nodup : T.inorder.Nodup
  nilLive : s.nil ∈ s.arena.live

/-! ## Other colors, keys and values -/

@[simps] def withPayload (color : Addr → Option Color)
    (key value : Addr → Option CharPtr) (s : Rbtree) : Rbtree :=
  { s with color := color, key := key, value := value }

section Payload

variable (color : Addr → Option Color) (key value : Addr → Option CharPtr)

theorem childOf_ignores (d : Dir) (p : Addr) :
    Ignores (withPayload color key value) (childOf d p) :=
  mirrors_load (fun _ => rfl)

theorem parentOf_ignores (p : Addr) :
    Ignores (withPayload color key value) (parentOf p) :=
  mirrors_load (fun _ => rfl)

theorem nilOf_ignores : Ignores (withPayload color key value) nilOf :=
  mirrors_read (fun _ => rfl)

theorem setChild_ignores (d : Dir) (p q : Addr) :
    Ignores (withPayload color key value) (setChild d p q) :=
  mirrors_store (fun _ => rfl) (fun _ => rfl)

theorem setParent_ignores (p q : Addr) :
    Ignores (withPayload color key value) (setParent p q) :=
  mirrors_store (fun _ => rfl) (fun _ => rfl)

theorem setRoot_ignores (p : Addr) :
    Ignores (withPayload color key value) (setRoot p) :=
  mirrors_modify (fun _ => rfl)

theorem replaceInParent_ignores (d : Dir) (x y : Addr) :
    Ignores (withPayload color key value) (replaceInParent d x y) := by
  apply mirrors_bind (parentOf_ignores color key value x)
  intro p
  apply mirrors_bind (nilOf_ignores color key value)
  intro nil
  apply mirrors_ite (setRoot_ignores color key value y)
  apply mirrors_bind (parentOf_ignores color key value x)
  intro p
  apply mirrors_bind (childOf_ignores color key value d p)
  intro q
  apply mirrors_ite
  · apply mirrors_bind (parentOf_ignores color key value x)
    intro p
    exact setChild_ignores color key value d p y
  · apply mirrors_bind (parentOf_ignores color key value x)
    intro p
    exact setChild_ignores color key value d.flip p y

theorem adoptMiddle_ignores (d : Dir) (y x : Addr) :
    Ignores (withPayload color key value) (adoptMiddle d y x) := by
  apply mirrors_bind (childOf_ignores color key value d y)
  intro b
  apply mirrors_bind (nilOf_ignores color key value)
  intro nil
  apply mirrors_ite _ (mirrors_pure _)
  apply mirrors_bind (childOf_ignores color key value d y)
  intro b
  exact setParent_ignores color key value b x

theorem rotate_ignores (d : Dir) (x : Addr) :
    Ignores (withPayload color key value) (rotate d x) := by
  apply mirrors_bind (childOf_ignores color key value d.flip x)
  intro y
  apply mirrors_bind (childOf_ignores color key value d y)
  intro b
  apply mirrors_bind (setChild_ignores color key value d.flip x b)
  intro _
  apply mirrors_bind (adoptMiddle_ignores color key value d y x)
  intro _
  apply mirrors_bind (parentOf_ignores color key value x)
  intro p
  apply mirrors_bind (setParent_ignores color key value y p)
  intro _
  apply mirrors_bind (replaceInParent_ignores color key value d x y)
  intro _
  apply mirrors_bind (setChild_ignores color key value d y x)
  intro _
  exact setParent_ignores color key value x y

theorem rotated_withPayload (d : Dir) (path : Path Node) (x y b : Addr)
    (s : Rbtree) :
    rotated d path x y b (withPayload color key value s)
      = withPayload color key value (rotated d path x y b s) := by
  unfold rotated adopt
  rw [withChild_nil, withPayload_nil, withChild_nil]
  split_ifs
  · cases path <;> rfl
  · cases path <;> rfl

end Payload

/-- Every node black, and with an empty key. -/
def dressed (s : Rbtree) : Rbtree :=
  withPayload (fun _ => some .black) (fun _ => some (some ⟨NULL, default⟩))
    (fun _ => some none) s

def dressedTree : Shape Addr → Shape Node
  | .leaf => .leaf
  | .node _ l x r =>
      .node .black (dressedTree l) ⟨x, ⟨NULL, default⟩, none⟩ (dressedTree r)

/-- The addresses of a tree of nodes. -/
def bare : Shape Node → Shape Addr
  | .leaf => .leaf
  | .node c l x r => .node c (bare l) x.addr (bare r)

section Dressing

variable {s : Rbtree} {par : Addr}

theorem ptr_dressedTree (nil : Addr) (T : Shape Addr) :
    ptr nil (dressedTree T) = top nil T := by
  cases T <;> rfl

theorem addrs_dressedTree (T : Shape Addr) :
    addrs (dressedTree T) = T.inorder := by
  induction T with
  | leaf => rfl
  | node c l x r ihl ihr =>
      simp only [addrs, dressedTree, Shape.inorder, List.map_append,
        List.map_cons] at ihl ihr ⊢
      rw [ihl, ihr]

theorem top_bare (nil : Addr) (T : Shape Node) :
    top nil (bare T) = ptr nil T := by
  cases T <;> rfl

theorem inorder_bare (T : Shape Node) : (bare T).inorder = addrs T := by
  induction T with
  | leaf => rfl
  | node c l x r ihl ihr =>
      simp only [addrs, bare, Shape.inorder, List.map_append,
        List.map_cons] at ihl ihr ⊢
      rw [ihl, ihr]

theorem LinkedBelow.rep {T : Shape Addr} (h : LinkedBelow s par T) :
    Rep (dressed s) par (dressedTree T) := by
  induction T generalizing par with
  | leaf => trivial
  | node c l x r ihl ihr =>
      obtain ⟨hlinked, hl, hr⟩ := h
      refine ⟨?_, ihl hl, ihr hr⟩
      exact
        { ne_nil := hlinked.ne_nil
          live := hlinked.live
          color := rfl
          near := by rw [ptr_dressedTree]; exact hlinked.left
          far := by rw [ptr_dressedTree]; exact hlinked.right
          parent := hlinked.parent
          key := rfl
          value := rfl }

theorem WellLinked.repr {T : Shape Addr} (h : WellLinked s T) :
    Repr (dressed s) (dressedTree T) where
  root := by rw [ptr_dressedTree]; exact h.root
  rep := h.linked.rep
  nodup := by rw [addrs_dressedTree]; exact h.nodup
  nilBlack := rfl
  nilLive := h.nilLive

theorem Rep.linked {t : Shape Node} (h : Rep s par t) :
    LinkedBelow s par (bare t) := by
  induction t generalizing par with
  | leaf => trivial
  | node c l x r ihl ihr =>
      obtain ⟨hcell, hl, hr⟩ := h
      refine ⟨?_, ihl hl, ihr hr⟩
      rw [top_bare, top_bare]
      exact ⟨hcell.ne_nil, hcell.live, hcell.near, hcell.far, hcell.parent⟩

theorem Repr.wellLinked {T : Shape Node} (h : Repr s T) :
    WellLinked s (bare T) where
  root := by rw [top_bare]; exact h.root
  linked := h.rep.linked
  nodup := by rw [inorder_bare]; exact h.nodup
  nilLive := h.nilLive

theorem linked_dressed {T : Shape Addr} :
    LinkedBelow (dressed s) par T ↔ LinkedBelow s par T := by
  induction T generalizing par with
  | leaf => rfl
  | node c l x r ihl ihr =>
      simp only [LinkedBelow, ihl, ihr]
      refine and_congr_left (fun _ => ?_)
      exact ⟨fun h => ⟨h.ne_nil, h.live, h.left, h.right, h.parent⟩,
        fun h => ⟨h.ne_nil, h.live, h.left, h.right, h.parent⟩⟩

theorem wellLinked_dressed {T : Shape Addr} (h : WellLinked (dressed s) T) :
    WellLinked s T :=
  ⟨h.root, linked_dressed.mp h.linked, h.nodup, h.nilLive⟩

end Dressing

/-! ## What a rotation changes -/

/-- After `rotate d x` the former child `y` of `x` stands where `x` stood, `x`
is its child, and the middle subtree hangs below `x`. -/
structure ChangesPlaces (d : Dir) (x y : Addr) (s s' : Rbtree) : Prop where
  child : s'.child d y = some x
  parent : s'.parent x = some y
  middle : s'.child d.flip x = s.child d y
  middleParent : ∀ b, s.child d y = some b → b ≠ s.nil →
    s'.parent b = some x
  upper : s'.parent y = s.parent x
  root : s.parent x = some s.nil → s'.root = y
  holder : ∀ e a, s.parent x = some a → a ≠ s.nil → s.child e a = some x →
    s'.child e a = some y

/-- After `rotate d x` other links may only be found at `x`, at its former child
`y`, at the middle subtree and at the former parent of `x`, or at the root. -/
structure RotatesLocally (d : Dir) (x y : Addr) (s s' : Rbtree) : Prop where
  links : ChangesPlaces d x y s s'
  arena : s'.arena = s.arena
  nil : s'.nil = s.nil
  count : s'.count = s.count
  color : s'.color = s.color
  key : s'.key = s.key
  value : s'.value = s.value
  nilChild : ∀ e, s'.child e s.nil = s.child e s.nil
  nilParent : s'.parent s.nil = s.parent s.nil
  root : s'.root ≠ s.root → s.root = x ∧ s.parent x = some s.nil
  child : ∀ e a, s'.child e a ≠ s.child e a →
    (a = x ∧ e = d.flip) ∨ (a = y ∧ e = d) ∨
      (s.parent x = some a ∧ s.child e a = some x)
  parent : ∀ a, s'.parent a ≠ s.parent a →
    a = x ∨ a = y ∨ s.child d y = some a

theorem child_withChild (d e : Dir) (p q a : Addr) (s : Rbtree) :
    (withChild d p q s).child e a
      = if e = d ∧ a = p then some q else s.child e a := by
  by_cases hde : e = d
  · subst hde
    simp
  · have hne : ¬ (e = d ∧ a = p) := fun h => hde h.1
    rw [if_neg hne]
    simp [withChild, hde]

theorem rotated_parent (d : Dir) (path : Path Node) (x y b a : Addr)
    (s : Rbtree) : (rotated d path x y b s).parent a
      = if a = x then some y
        else if a = y then some (holder s.nil path)
        else if a = b ∧ b ≠ s.nil then some x else s.parent a := by
  simp [rotated, Function.update_apply, adopt_parent]

theorem rotated_child_root (d e : Dir) (x y b a : Addr) (s : Rbtree) :
    (rotated d [] x y b s).child e a
      = if e = d ∧ a = y then some x
        else if e = d.flip ∧ a = x then some b else s.child e a := by
  simp [rotated, child_withChild, hang]

theorem rotated_child_below (d e : Dir) (f : Frame Node) (fs : Path Node)
    (x y b a : Addr) (s : Rbtree) :
    (rotated d (f :: fs) x y b s).child e a
      = if e = d ∧ a = y then some x
        else if e = f.dir ∧ a = f.label.addr then some y
        else if e = d.flip ∧ a = x then some b else s.child e a := by
  simp [rotated, child_withChild, hang]

theorem rotated_color (d : Dir) (path : Path Node) (x y b : Addr)
    (s : Rbtree) : (rotated d path x y b s).color = s.color := by
  funext a
  simp [rotated]

theorem rotated_key (d : Dir) (path : Path Node) (x y b : Addr)
    (s : Rbtree) : (rotated d path x y b s).key = s.key := by
  funext a
  simp [rotated]

theorem rotated_value (d : Dir) (path : Path Node) (x y b : Addr)
    (s : Rbtree) : (rotated d path x y b s).value = s.value := by
  funext a
  simp [rotated]

attribute [ext] Rbtree

section Rotations

variable {s : Rbtree} {path : Path Node} {d : Dir} {c c' : Color}
  {α β γ : Shape Node} {x y : Node}

theorem Repr.changesPlaces (h : Repr s (fill path
      (Shape.branch d c α x (Shape.branch d c' β y γ)))) :
    ChangesPlaces d x.addr y.addr s
      (rotated d path x.addr y.addr (ptr s.nil β) s) := by
  have hapart := h.rotateApart
  have hxy := hapart.xy
  obtain ⟨hcx, hα, hrest⟩ := rep_branch.mp h.focusRep
  obtain ⟨hcy, hβ, hγ⟩ := rep_branch.mp hrest
  have hpath := h.focusPath
  rw [ptr_branch] at hpath
  refine ⟨by simp [rotated], by simp [rotated], ?_, ?_, ?_, ?_, ?_⟩
  · rw [hcy.near]
    cases path with
    | nil =>
        rw [rotated_child_root, if_neg (fun heq => Dir.flip_ne d heq.1),
          if_pos ⟨rfl, rfl⟩]
    | cons f fs =>
        have hxpath := hapart.xpath
        rw [pathAddrs_cons, List.mem_cons, not_or] at hxpath
        rw [rotated_child_below, if_neg (fun heq => Dir.flip_ne d heq.1),
          if_neg (fun heq => hxpath.1 heq.2), if_pos ⟨rfl, rfl⟩]
  · intro b hb hne
    rw [hcy.near, Option.some.injEq] at hb
    subst hb
    rw [rotated_parent, if_neg (hapart.xptr ·.symm), if_neg (hapart.yptr ·.symm),
      if_pos ⟨rfl, hne⟩]
  · rw [rotated_parent, if_neg hxy.symm, if_pos rfl, hcx.parent]
  · intro hroot
    rw [hcx.parent, Option.some.injEq] at hroot
    cases path with
    | nil => simp [rotated, hang]
    | cons f fs => exact absurd hroot hpath.1.ne_nil
  · intro e a ha hne hchild
    rw [hcx.parent, Option.some.injEq] at ha
    cases path with
    | nil => exact absurd ha.symm hne
    | cons f fs =>
        subst ha
        change s.child e f.label.addr = some x.addr at hchild
        have hxpath := hapart.xpath
        rw [pathAddrs_cons, List.mem_cons, List.mem_append] at hxpath
        have hdir : e = f.dir := by
          by_contra hside
          have hfar := hpath.1.far
          rw [← Dir.eq_flip_of_ne hside, hchild, Option.some.injEq] at hfar
          have hsibling : f.sibling ≠ .leaf := by
            intro hleaf
            rw [hleaf] at hfar
            exact hcx.ne_nil hfar
          exact hxpath (.inr (.inl (hfar ▸ ptr_mem_addrs hsibling)))
        subst hdir
        rw [rotated_child_below, if_neg, if_pos ⟨rfl, rfl⟩]
        rintro ⟨-, haddr⟩
        apply hapart.ypath
        rw [← haddr, pathAddrs_cons]
        exact List.mem_cons_self

theorem Repr.rotatesLocally (h : Repr s (fill path
      (Shape.branch d c α x (Shape.branch d c' β y γ)))) :
    RotatesLocally d x.addr y.addr s
      (rotated d path x.addr y.addr (ptr s.nil β) s) := by
  have hkeeps := h.keepsSentinel_rotated
  obtain ⟨hcx, hα, hrest⟩ := rep_branch.mp h.focusRep
  obtain ⟨hcy, hβ, hγ⟩ := rep_branch.mp hrest
  have hpath := h.focusPath
  rw [ptr_branch] at hpath
  refine
    { links := h.changesPlaces
      arena := hkeeps.arena
      nil := hkeeps.nil
      count := hkeeps.count
      color := rotated_color d path _ _ _ s
      key := rotated_key d path _ _ _ s
      value := rotated_value d path _ _ _ s
      nilChild := hkeeps.child
      nilParent := hkeeps.parent
      root := ?_
      child := ?_
      parent := ?_ }
  · intro hroot
    cases path with
    | nil => exact ⟨hpath, hcx.parent⟩
    | cons f fs => exact absurd (by simp [rotated, hang]) hroot
  · intro e a hchild
    cases path with
    | nil =>
        rw [rotated_child_root] at hchild
        split_ifs at hchild with hy hx
        · exact .inr (.inl ⟨hy.2, hy.1⟩)
        · exact .inl ⟨hx.2, hx.1⟩
        · exact absurd rfl hchild
    | cons f fs =>
        rw [rotated_child_below] at hchild
        split_ifs at hchild with hy hf hx
        · exact .inr (.inl ⟨hy.2, hy.1⟩)
        · obtain ⟨rfl, rfl⟩ := hf
          exact .inr (.inr ⟨hcx.parent, hpath.1.near⟩)
        · exact .inl ⟨hx.2, hx.1⟩
        · exact absurd rfl hchild
  · intro a hparent
    rw [rotated_parent] at hparent
    split_ifs at hparent with hx hy hb
    · exact .inl hx
    · exact .inr (.inl hy)
    · exact .inr (.inr (by rw [hb.1]; exact hcy.near))
    · exact absurd rfl hparent

/-- The opposite rotation takes everything back. -/
theorem Repr.rotated_rotated (h : Repr s (fill path
      (Shape.branch d c α x (Shape.branch d c' β y γ)))) :
    rotated d.flip path y.addr x.addr (ptr s.nil β)
      (rotated d path x.addr y.addr (ptr s.nil β) s) = s := by
  have hapart := h.rotateApart
  obtain ⟨hcx, hα, hrest⟩ := rep_branch.mp h.focusRep
  obtain ⟨hcy, hβ, hγ⟩ := rep_branch.mp hrest
  have hpath := h.focusPath
  rw [ptr_branch] at hpath
  have hmiddle : ptr s.nil β ≠ s.nil →
      s.parent (ptr s.nil β) = some y.addr := by
    intro hb
    cases β with
    | leaf => exact absurd rfl hb
    | node cβ l z r => exact hβ.1.parent
  have hnil : (rotated d path x.addr y.addr (ptr s.nil β) s).nil = s.nil := by
    simp [rotated]
  ext1
  · simp [rotated]
  · cases path with
    | nil => exact hpath.symm
    | cons f fs => simp [rotated, hang]
  · simp [rotated]
  · simp [rotated]
  · rw [rotated_color, rotated_color]
  · funext e a
    have hfar := hcx.far
    rw [ptr_branch] at hfar
    have hnear := hcy.near
    have hxy := hapart.xy
    cases path with
    | nil =>
        rw [rotated_child_root, rotated_child_root, Dir.flip_flip]
        split_ifs <;> grind
    | cons f fs =>
        have hheld := hpath.1.near
        have hxpath := hapart.xpath
        have hypath := hapart.ypath
        rw [pathAddrs_cons, List.mem_cons, not_or] at hxpath hypath
        rw [rotated_child_below, rotated_child_below, Dir.flip_flip]
        split_ifs <;> grind
  · funext a
    rw [rotated_parent, rotated_parent, hnil]
    have hpx := hcx.parent
    have hpy := hcy.parent
    have hbx := hapart.xptr
    have hby := hapart.yptr
    split_ifs <;> grind
  · rw [rotated_key, rotated_key]
  · rw [rotated_value, rotated_value]

end Rotations

/-! ## Rotations of well-linked trees -/

section WellLinked

variable {s t : Rbtree} {T : Shape Addr} {path : Path Node} {d : Dir}
  {c c' : Color} {α β γ : Shape Node} {x y : Node} {p q : Addr}

theorem eq_of_dressed (h : dressed s = dressed t) (hcolor : s.color = t.color)
    (hkey : s.key = t.key) (hvalue : s.value = t.value) : s = t := by
  have harena : (dressed s).arena = (dressed t).arena := by rw [h]
  have hroot : (dressed s).root = (dressed t).root := by rw [h]
  have hnil : (dressed s).nil = (dressed t).nil := by rw [h]
  have hcount : (dressed s).count = (dressed t).count := by rw [h]
  have hchild : (dressed s).child = (dressed t).child := by rw [h]
  have hparent : (dressed s).parent = (dressed t).parent := by rw [h]
  exact Rbtree.ext harena hroot hnil hcount hcolor hchild hparent hkey hvalue

theorem dressed_rotated (d : Dir) (path : Path Node) (x y b : Addr)
    (s : Rbtree) :
    dressed (rotated d path x y b s) = rotated d path x y b (dressed s) :=
  (rotated_withPayload _ _ _ d path x y b s).symm

theorem RotatesLocally.undressed
    (h : RotatesLocally d p q (dressed s) (dressed t))
    (hcolor : t.color = s.color) (hkey : t.key = s.key)
    (hvalue : t.value = s.value) : RotatesLocally d p q s t where
  links := ⟨h.links.child, h.links.parent, h.links.middle,
    h.links.middleParent, h.links.upper, h.links.root, h.links.holder⟩
  arena := h.arena
  nil := h.nil
  count := h.count
  color := hcolor
  key := hkey
  value := hvalue
  nilChild := h.nilChild
  nilParent := h.nilParent
  root := h.root
  child := h.child
  parent := h.parent

/-- A rotation does on the links what it does on the dressed tree. -/
theorem returns_rotate_links (h : Repr (dressed s) (fill path
      (Shape.branch d c α x (Shape.branch d c' β y γ)))) :
    Returns (rotate d x.addr) s (fun _ s' =>
      s' = rotated d path x.addr y.addr (ptr s.nil β) s) := by
  have hundress : withPayload s.color s.key s.value (dressed s) = s := rfl
  rw [← hundress]
  refine (rotate_ignores _ _ _ d x.addr (dressed s) _).mp ?_
  apply h.returns_rotate_state.mono
  intro _ t ht
  subst ht
  change withPayload s.color s.key s.value
    (rotated d path x.addr y.addr (ptr s.nil β) (dressed s)) = _
  rw [← rotated_withPayload]
  rfl

theorem repr_dressed_rotated (h : Repr (dressed s) (fill path
      (Shape.branch d c α x (Shape.branch d c' β y γ)))) :
    Repr (dressed (rotated d path x.addr y.addr (ptr s.nil β) s))
      (fill path (Shape.branch d.flip c' γ y
        (Shape.branch d.flip c β x α))) := by
  rw [dressed_rotated, Shape.branch_flip, Shape.branch_flip]
  exact h.afterRotate

theorem rotated_rotated_links (h : Repr (dressed s) (fill path
      (Shape.branch d c α x (Shape.branch d c' β y γ)))) :
    rotated d.flip path y.addr x.addr (ptr s.nil β)
      (rotated d path x.addr y.addr (ptr s.nil β) s) = s := by
  apply eq_of_dressed
  · rw [dressed_rotated, dressed_rotated]
    exact h.rotated_rotated
  · rw [rotated_color, rotated_color]
  · rw [rotated_key, rotated_key]
  · rw [rotated_value, rotated_value]

theorem rotatesLocally_links (h : Repr (dressed s) (fill path
      (Shape.branch d c α x (Shape.branch d c' β y γ)))) :
    RotatesLocally d x.addr y.addr s
      (rotated d path x.addr y.addr (ptr s.nil β) s) := by
  apply RotatesLocally.undressed
  · rw [dressed_rotated]
    exact h.rotatesLocally
  · exact rotated_color d path _ _ _ s
  · exact rotated_key d path _ _ _ s
  · exact rotated_value d path _ _ _ s

/-- A node and its child on the other side, as a focus. -/
theorem WellLinked.exists_focus (h : WellLinked s T) (hp : p ∈ T.inorder)
    (hq : s.child d.flip p = some q) (hne : q ≠ s.nil) :
    ∃ path c c' α β γ, ∃ x y : Node, x.addr = p ∧ y.addr = q ∧
      dressedTree T = fill path
        (Shape.branch d c α x (Shape.branch d c' β y γ)) := by
  rw [← addrs_dressedTree, addrs, List.mem_map] at hp
  obtain ⟨x, hx, rfl⟩ := hp
  obtain ⟨path, c, l, r, hfill⟩ := exists_fill_of_mem hx
  obtain ⟨α, far, hbranch⟩ : ∃ α far,
      Shape.node c l x r = Shape.branch d c α x far := by
    cases d with
    | left => exact ⟨l, r, rfl⟩
    | right => exact ⟨r, l, rfl⟩
  have hrepr := h.repr
  rw [hfill, hbranch] at hrepr
  obtain ⟨hcell, -, -⟩ := rep_branch.mp hrepr.focusRep
  have hfar : some q = some (ptr s.nil far) := hq.symm.trans hcell.far
  have hleaf : far ≠ .leaf := by
    rintro rfl
    exact hne (Option.some.inj hfar)
  obtain ⟨c', β, y, γ, rfl⟩ := Shape.exists_branch d hleaf
  rw [ptr_branch] at hfar
  exact ⟨path, c, c', α, β, γ, x, y, rfl, (Option.some.inj hfar).symm,
    hfill.trans (by rw [hbranch])⟩

theorem WellLinked.returns_rotate (d : Dir) (h : WellLinked s T)
    (hp : p ∈ T.inorder) (hq : s.child d.flip p = some q) (hne : q ≠ s.nil) :
    Returns (rotate d p) s (fun _ s' =>
      RotatesLocally d p q s s' ∧
        (∃ T', WellLinked s' T' ∧ T'.inorder = T.inorder) ∧
        Returns (rotate d.flip q) s' (fun _ s'' => s'' = s)) := by
  obtain ⟨path, c, c', α, β, γ, x, y, rfl, rfl, hfill⟩ :=
    h.exists_focus hp hq hne
  have hrepr := h.repr
  rw [hfill] at hrepr
  have hafter := repr_dressed_rotated hrepr
  apply (returns_rotate_links hrepr).mono
  intro _ s' hs'
  subst hs'
  refine ⟨rotatesLocally_links hrepr,
    ⟨_, wellLinked_dressed hafter.wellLinked, ?_⟩, ?_⟩
  · rw [inorder_bare, ← addrs_dressedTree, hfill, Shape.branch_flip,
      Shape.branch_flip]
    exact congrArg (List.map Node.addr)
      (inorder_fill_congr path (Shape.inorder_rotate d c c' c' c _ _ _ _ _).symm)
  · apply (returns_rotate_links hafter).mono
    intro _ s'' hs''
    have hnil : (rotated d path x.addr y.addr (ptr s.nil β) s).nil = s.nil :=
      (rotatesLocally_links hrepr).nil
    rw [hs'', hnil]
    exact rotated_rotated_links hrepr

end WellLinked

/-- A rotation of a well-linked tree keeps it well linked and its nodes in
their order, changes only the links around the two nodes, and is taken back by
the rotation the other way. -/
theorem rotations_local_inverse {s : Rbtree} {T : Shape Addr} {x y : Addr}
    (h : WellLinked s T) (hx : x ∈ T.inorder) (hne : y ≠ s.nil) :
    (s.child .right x = some y →
      Returns (rbtreeLeftRotate x) s (fun _ s' =>
        RotatesLocally .left x y s s' ∧
          (∃ T', WellLinked s' T' ∧ T'.inorder = T.inorder) ∧
          Returns (rbtreeRightRotate y) s' (fun _ s'' => s'' = s))) ∧
    (s.child .left x = some y →
      Returns (rbtreeRightRotate x) s (fun _ s' =>
        RotatesLocally .right x y s s' ∧
          (∃ T', WellLinked s' T' ∧ T'.inorder = T.inorder) ∧
          Returns (rbtreeLeftRotate y) s' (fun _ s'' => s'' = s))) :=
  ⟨fun hy => h.returns_rotate .left hx hy hne,
    fun hy => h.returns_rotate .right hx hy hne⟩

/-- Three nodes without colors, keys or values: `4` is the left child of `3`,
and `3` the right child of the root `2`. -/
def linkedTriple : Rbtree where
  arena := ⟨[1, 2, 3, 4], 4, by decide, by decide⟩
  root := 2
  nil := 1
  count := 3
  color := fun _ => none
  child := fun d p =>
    if p = 2 ∧ d = .right then some 3
    else if p = 3 ∧ d = .left then some 4
    else if p = 1 then none else some 1
  parent := fun p =>
    if p = 2 then some 1 else if p = 3 then some 2
    else if p = 4 then some 3 else none
  key := fun _ => none
  value := fun _ => none

theorem wellLinked_linkedTriple :
    WellLinked linkedTriple (.node .black .leaf 2
      (.node .red (.node .black .leaf 4 .leaf) 3 .leaf)) where
  root := rfl
  linked := by
    refine ⟨?_, trivial, ?_, ⟨?_, trivial, trivial⟩, trivial⟩ <;>
      constructor <;> decide
  nodup := by decide
  nilLive := by decide

theorem rotations_local_inverse_sample :
    Returns (rbtreeLeftRotate 2) linkedTriple (fun _ s' =>
      RotatesLocally .left 2 3 linkedTriple s' ∧
        (∃ T', WellLinked s' T' ∧ T'.inorder = [2, 4, 3]) ∧
        Returns (rbtreeRightRotate 3) s' (fun _ s'' => s'' = linkedTriple)) :=
  (rotations_local_inverse wellLinked_linkedTriple (x := 2) (y := 3)
    (by decide) (by decide)).1 (by decide)

end CAdvanced
