import CAdvanced.SentinelRules

/-!
# The integrity of the sentinel

The watched engine tracks the plain one through every call, so none of its
checks ever fails.
-/

namespace CAdvanced

open Fallible
open KeyValue
open RedBlack
open Rbtree

section Rotation

variable {n x y z p q : Addr} {d : Dir} {synced : Prop} {s t : Rbtree}
  {acc : NodeAccess}

theorem Guarding.parentOf_again (g : Guarding n synced acc)
    (h : Watched n synced s t) (hne : p ≠ n) (hq : s.parent p = some q)
    {Q : Addr → Rbtree → Rbtree → Prop} (hQ : Q q s t) :
    Tracks (Rbtree.parentOf p) (acc.parentOf p) s t Q := by
  apply g.parentOf h hne
  intro q' hq'
  cases hq.symm.trans hq'
  exact hQ

theorem Guarding.childOf_again (g : Guarding n synced acc)
    (h : Watched n synced s t) (hq : s.child d p = some q)
    {Q : Addr → Rbtree → Rbtree → Prop} (hQ : Q q s t) :
    Tracks (Rbtree.childOf d p) (acc.childOf d p) s t Q := by
  apply g.childOf h
  intro q' hq' _
  cases hq.symm.trans hq'
  exact hQ

theorem Guarding.tracks_replaceInParent (g : Guarding n synced acc)
    (h : Watched n synced s t) (hx : x ≠ n) :
    Tracks (CAdvanced.replaceInParent d x y) (acc.replaceInParent d x y) s t
      (fun _ s' t' => Watched n synced s' t' ∧ s'.parent = s.parent) := by
  refine tracks_bind (g.parentOf h hx ?_)
  intro q hq
  refine tracks_bind (h.tracks_nilOf (tracks_ite ?_ ?_))
  · intro _
    exact tracks_modify ⟨h.withRoot, rfl⟩
  · intro hqn
    refine tracks_bind (g.parentOf_again h hx hq ?_)
    refine tracks_bind (g.childOf h ?_)
    intro e _ _
    refine tracks_ite ?_ ?_
    · intro _
      refine tracks_bind (g.parentOf_again h hx hq ?_)
      exact g.setChild h hqn (fun h' => ⟨h', rfl⟩)
    · intro _
      refine tracks_bind (g.parentOf_again h hx hq ?_)
      exact g.setChild h hqn (fun h' => ⟨h', rfl⟩)

theorem Guarding.tracks_adoptMiddle (g : Guarding n synced acc)
    (h : Watched n synced s t) :
    Tracks (CAdvanced.adoptMiddle d y x) (acc.adoptMiddle d y x) s t
      (fun _ s' t' => Watched n synced s' t') := by
  refine tracks_bind (g.childOf h ?_)
  intro m hm _
  refine tracks_bind (h.tracks_nilOf (tracks_ite ?_ ?_))
  · intro hmn
    refine tracks_bind (g.childOf_again h hm ?_)
    exact g.setParent h hmn id
  · intro _
    exact tracks_pure h

/-- A rotation works on nodes only; the node that went down has a node for its
parent. -/
theorem Guarding.tracks_rotate (g : Guarding n synced acc)
    (h : Watched n synced s t) :
    Tracks (CAdvanced.rotate d x) (acc.rotate d x) s t (fun _ s' t' =>
      Watched n synced s' t' ∧ ∃ y, y ≠ n ∧ s'.parent x = some y) := by
  refine tracks_bind (g.childOf h ?_)
  intro y _ hx
  refine tracks_bind (g.childOf h ?_)
  intro m _ hy
  refine tracks_bind (g.setChild h hx ?_)
  intro h₁
  refine tracks_bind ((g.tracks_adoptMiddle h₁).mono ?_)
  intro _ s₂ t₂ h₂
  refine tracks_bind (g.parentOf h₂ hx ?_)
  intro q _
  refine tracks_bind (g.setParent h₂ hy ?_)
  intro h₃
  refine tracks_bind ((g.tracks_replaceInParent h₃ hx).mono ?_)
  intro _ s₄ t₄ h₄
  refine tracks_bind (g.setChild h₄.1 hy ?_)
  intro h₅
  refine g.setParent h₅ hx ?_
  intro h₆
  refine ⟨h₆, y, hy, ?_⟩
  simp

theorem not_returns_rotate (hchild : ∀ d, s.child d x = none)
    (P : Unit → Rbtree → Prop) : ¬ Returns (CAdvanced.rotate d x) s P := by
  simp [CAdvanced.rotate, childOf, hchild]

end Rotation

/-! ## Walks and keys -/

section Walks

variable {n x y z p : Addr} {d : Dir} {synced : Prop} {s t : Rbtree}
  {acc : NodeAccess}

theorem Guarding.tracks_keyOf (g : Guarding n synced acc)
    (h : Watched n synced s t) (hne : p ≠ n)
    {Q : CString → Rbtree → Rbtree → Prop} (hQ : ∀ k, Q k s t) :
    Tracks (Rbtree.keyOf p) (acc.keyOf p) s t Q := by
  refine tracks_bind (g.keyPtrOf h hne ?_)
  intro k
  cases k with
  | none => exact tracks_throw _ _ _
  | some block => exact tracks_pure (hQ block.str)

theorem Guarding.tracks_mini (g : Guarding n synced acc)
    (h : Watched n synced s t) :
    Tracks (CAdvanced.rbtreeMini x) (acc.rbtreeMini x) s t
      (fun _ s' t' => Watched n synced s' t') := by
  refine tracks_bind (h.tracks_loopFuel ?_)
  intro fuel
  refine tracks_iterate (fun _ s' t' => Watched n synced s' t') ?_ fuel h
  intro x s₁ t₁ h₁
  refine tracks_bind (g.childOf h₁ ?_)
  intro next _ _
  refine tracks_bind (h₁.tracks_nilOf (tracks_ite ?_ ?_))
  · intro _
    exact tracks_pure h₁
  · intro _
    exact tracks_pure h₁

theorem Guarding.tracks_successor (g : Guarding n synced acc)
    (h : Watched n synced s t) (hx : x ≠ n) :
    Tracks (CAdvanced.rbtreeSuccessor x) (acc.rbtreeSuccessor x) s t
      (fun _ s' t' => Watched n synced s' t') := by
  refine tracks_bind (g.parentOf h hx ?_)
  intro y _
  refine tracks_bind (g.childOf h ?_)
  intro r _ _
  refine tracks_bind (h.tracks_nilOf (tracks_ite ?_ ?_))
  · intro _
    refine tracks_bind (g.childOf h ?_)
    intro r' _ _
    exact g.tracks_mini h
  · intro _
    refine tracks_bind (h.tracks_loopFuel ?_)
    intro fuel
    refine tracks_iterate (fun _ s' t' => Watched n synced s' t') ?_ fuel h
    intro xy s₁ t₁ h₁
    obtain ⟨x, y⟩ := xy
    refine tracks_bind (h₁.tracks_nilOf (tracks_ite ?_ ?_))
    · intro hy
      refine tracks_bind (g.childOf h₁ ?_)
      intro r₁ _ _
      refine tracks_ite ?_ ?_
      · intro _
        refine tracks_bind (g.parentOf h₁ hy ?_)
        intro q _
        exact tracks_pure h₁
      · intro _
        exact tracks_pure h₁
    · intro _
      exact tracks_pure h₁

theorem Guarding.tracks_search (g : Guarding n synced acc)
    (h : Watched n synced s t) (key : CString) :
    Tracks (CAdvanced.rbtreeSearch key) (acc.rbtreeSearch key) s t
      (fun _ s' t' => Watched n synced s' t') := by
  refine tracks_bind (h.tracks_loopFuel ?_)
  intro fuel
  refine tracks_bind (h.tracks_rootOf ?_)
  refine tracks_iterate (fun _ s' t' => Watched n synced s' t') ?_ fuel h
  intro x s₁ t₁ h₁
  refine tracks_bind (h₁.tracks_nilOf (tracks_ite ?_ ?_))
  · intro hx
    refine tracks_bind (g.tracks_keyOf h₁ hx ?_)
    intro k
    refine tracks_ite ?_ ?_
    · intro _
      refine tracks_bind (g.childOf h₁ ?_)
      intro next _ _
      exact tracks_pure h₁
    · intro _
      refine tracks_bind (g.tracks_keyOf h₁ hx ?_)
      intro k'
      refine tracks_ite ?_ ?_
      · intro _
        refine tracks_bind (g.childOf h₁ ?_)
        intro next _ _
        exact tracks_pure h₁
      · intro _
        exact tracks_pure h₁
  · intro _
    refine tracks_bind (h₁.tracks_nilOf ?_)
    exact tracks_pure h₁

end Walks

/-! ## Insertion -/

section Insertion

variable {n x y z p q : Addr} {d : Dir} {synced : Prop} {s t : Rbtree}
  {acc : NodeAccess}

theorem Guarding.tracks_insertFixupOuter (g : Guarding n synced acc)
    (h : Watched n synced s t) (hz : z ≠ n) (hq : s.parent z = some q)
    (hqn : q ≠ n) :
    Tracks (CAdvanced.insertFixupOuter d z) (acc.insertFixupOuter d z) s t
      (fun a s' t' => Watched n synced s' t' ∧ a ≠ n) := by
  refine tracks_bind (g.parentOf_again h hz hq ?_)
  refine tracks_bind (g.setColor h (fun heq => absurd heq hqn) ?_)
  intro h₁
  refine tracks_bind (g.parentOf_again h₁ hz hq ?_)
  refine tracks_bind (g.parentOf h₁ hqn ?_)
  intro pp hpp
  by_cases hppn : pp = n
  · -- the rotation below reads a child of the grandparent
    apply tracks_of_not_returns
    intro P hreturns
    simp only [Rbtree.setColor, Rbtree.parentOf, returns_bind, returns_store,
      returns_load, returns_pure, withColor_parent, hq, Option.some.injEq,
      exists_eq_left'] at hreturns
    rw [withColor_parent] at hpp
    simp only [hpp, Option.some.injEq, exists_eq_left'] at hreturns
    subst hppn
    refine not_returns_rotate ?_ _ hreturns.2
    exact h₁.child
  · refine tracks_bind (g.setColor h₁ (fun heq => absurd heq hppn) ?_)
    intro h₂
    refine tracks_bind (g.parentOf_again h₂ hz hq ?_)
    refine tracks_bind (g.parentOf_again h₂ hqn hpp ?_)
    refine tracks_bind ((g.tracks_rotate h₂).mono ?_)
    intro _ s₃ t₃ h₃
    exact tracks_pure ⟨h₃.1, hz⟩

theorem Guarding.tracks_insertFixupSide (g : Guarding n synced acc)
    (h : Watched n synced s t) (hz : z ≠ n) (hq : s.parent z = some q)
    (hqn : q ≠ n) :
    Tracks (CAdvanced.insertFixupSide d z) (acc.insertFixupSide d z) s t
      (fun a s' t' => Watched n synced s' t' ∧ a ≠ n) := by
  refine tracks_bind (g.parentOf_again h hz hq ?_)
  refine tracks_bind (g.parentOf h hqn ?_)
  intro pp hpp
  refine tracks_bind (g.childOf h ?_)
  intro y _ hppn
  refine tracks_bind (h.tracks_colorOf ?_)
  intro c _
  refine tracks_ite ?_ ?_
  · intro _
    refine tracks_bind (g.parentOf_again h hz hq ?_)
    refine tracks_bind (g.setColor h (fun _ => rfl) ?_)
    intro h₁
    refine tracks_bind (g.setColor h₁ (fun _ => rfl) ?_)
    intro h₂
    refine tracks_bind (g.parentOf_again h₂ hz hq ?_)
    refine tracks_bind (g.parentOf_again h₂ hqn hpp ?_)
    refine tracks_bind (g.setColor h₂ (fun heq => absurd heq hppn) ?_)
    intro h₃
    refine tracks_bind (g.parentOf_again h₃ hz hq ?_)
    exact g.parentOf_again h₃ hqn hpp ⟨h₃, hppn⟩
  · intro _
    refine tracks_bind (g.parentOf_again h hz hq ?_)
    refine tracks_bind (g.childOf h ?_)
    intro e _ _
    refine tracks_ite ?_ ?_
    · intro _
      refine tracks_bind (g.parentOf_again h hz hq ?_)
      refine tracks_bind ((g.tracks_rotate h).mono ?_)
      intro _ s₁ t₁ h₁
      obtain ⟨h₁, y₁, hy₁, hparent⟩ := h₁
      exact g.tracks_insertFixupOuter h₁ hqn hparent hy₁
    · intro _
      exact g.tracks_insertFixupOuter h hz hq hqn

theorem Guarding.tracks_insertFixup (g : Guarding n synced acc)
    (h : Watched n synced s t) (hz : z ≠ n) :
    Tracks (CAdvanced.rbtreeInsertFixup z) (acc.rbtreeInsertFixup z) s t
      (fun _ s' t' => Watched n synced s' t') := by
  refine tracks_bind (h.tracks_loopFuel ?_)
  intro fuel
  refine tracks_bind ((tracks_iterate (Q := fun _ s' t' =>
    Watched n synced s' t') (fun z s' t' => Watched n synced s' t' ∧ z ≠ n)
    ?_ fuel ⟨h, hz⟩).mono ?_)
  · intro z s₁ t₁ hinv
    obtain ⟨h₁, hz₁⟩ := hinv
    refine tracks_bind (g.parentOf h₁ hz₁ ?_)
    intro q hq
    refine tracks_bind (h₁.tracks_colorOf ?_)
    intro c hc
    refine tracks_ite ?_ ?_
    · intro hred
      have hqn := hc hred
      refine tracks_bind (g.parentOf_again h₁ hz₁ hq ?_)
      refine tracks_bind (g.parentOf_again h₁ hz₁ hq ?_)
      refine tracks_bind (g.parentOf h₁ hqn ?_)
      intro pp _
      refine tracks_bind (g.childOf h₁ ?_)
      intro l _ _
      refine tracks_ite ?_ ?_
      · intro _
        refine tracks_bind
          ((g.tracks_insertFixupSide h₁ hz₁ hq hqn).mono ?_)
        intro a s₂ t₂ h₂
        exact tracks_pure h₂
      · intro _
        refine tracks_bind
          ((g.tracks_insertFixupSide h₁ hz₁ hq hqn).mono ?_)
        intro a s₂ t₂ h₂
        exact tracks_pure h₂
    · intro _
      exact tracks_pure h₁
  · intro _ s₁ t₁ h₁
    refine tracks_bind (h₁.tracks_rootOf ?_)
    exact g.setColor h₁ (fun _ => rfl) id

theorem Guarding.tracks_attachBelow (g : Guarding n synced acc)
    (h : Watched n synced s t) (hz : z ≠ n) :
    Tracks (CAdvanced.attachBelow z y) (acc.attachBelow z y) s t
      (fun _ s' t' => Watched n synced s' t') := by
  refine tracks_bind (h.tracks_nilOf (tracks_ite ?_ ?_))
  · intro _
    exact tracks_modify h.withRoot
  · intro hy
    refine tracks_bind (g.tracks_keyOf h hz ?_)
    intro k
    refine tracks_bind (g.tracks_keyOf h hy ?_)
    intro k'
    refine tracks_ite ?_ ?_
    · intro _
      exact g.setChild h hy id
    · intro _
      exact g.setChild h hy id

theorem Guarding.tracks_descent (g : Guarding n synced acc)
    (h : Watched n synced s t) (hz : z ≠ n) (fuel : ℕ) :
    Tracks (iterate (CAdvanced.insertDescentStep z) fuel (y, x))
      (iterate (acc.insertDescentStep z) fuel (y, x)) s t
      (fun _ s' t' => Watched n synced s' t') := by
  refine tracks_iterate (fun _ s' t' => Watched n synced s' t') ?_ fuel h
  intro yx s₁ t₁ h₁
  obtain ⟨y, x⟩ := yx
  refine tracks_bind (h₁.tracks_nilOf (tracks_ite ?_ ?_))
  · intro hx
    refine tracks_bind (g.tracks_keyOf h₁ hz ?_)
    intro k
    refine tracks_bind (g.tracks_keyOf h₁ hx ?_)
    intro k'
    refine tracks_ite ?_ ?_
    · intro _
      refine tracks_bind (g.childOf h₁ ?_)
      intro next _ _
      exact tracks_pure h₁
    · intro _
      refine tracks_bind (g.tracks_keyOf h₁ hz ?_)
      intro k₁
      refine tracks_bind (g.tracks_keyOf h₁ hx ?_)
      intro k₁'
      refine tracks_ite ?_ ?_
      · intro _
        refine tracks_bind (g.childOf h₁ ?_)
        intro next _ _
        exact tracks_pure h₁
      · intro _
        exact tracks_pure h₁
  · intro _
    exact tracks_pure h₁

theorem Guarding.tracks_insert (g : Guarding n synced acc)
    (h : Watched n synced s t) (hz : z ≠ n) :
    Tracks (CAdvanced.rbtreeInsert z) (acc.rbtreeInsert z) s t
      (fun _ s' t' => Watched n synced s' t') := by
  refine tracks_bind (h.tracks_loopFuel ?_)
  intro fuel
  refine tracks_bind (h.tracks_nilOf ?_)
  refine tracks_bind (h.tracks_rootOf ?_)
  refine tracks_bind ((g.tracks_descent h hz fuel).mono ?_)
  intro descent s₁ t₁ h₁
  cases descent with
  | none => exact tracks_pure h₁
  | some y =>
      refine tracks_bind (g.setParent h₁ hz ?_)
      intro h₂
      refine tracks_bind ((g.tracks_attachBelow h₂ hz).mono ?_)
      intro _ s₃ t₃ h₃
      refine tracks_bind (h₃.tracks_nilOf ?_)
      refine tracks_bind (g.setChild h₃ hz ?_)
      intro h₄
      refine tracks_bind (h₄.tracks_nilOf ?_)
      refine tracks_bind (g.setChild h₄ hz ?_)
      intro h₅
      refine tracks_bind (g.setColor h₅ (fun heq => absurd heq hz) ?_)
      intro h₆
      exact g.tracks_insertFixup h₆ hz

end Insertion

/-! ## Deletion -/

section Repair

variable {n x y z w p q : Addr} {d : Dir} {synced : Prop} {s t : Rbtree}

/-- The sentinel may be the node under repair, if its parent is known. -/
theorem Watched.tracks_deleteFixupFar (h : Watched n synced s t)
    (hx : x = n → synced) :
    Tracks (CAdvanced.deleteFixupFar d x w)
      (NodeAccess.watchedRepair.deleteFixupFar d x w) s t
      (fun a s' t' => Watched n synced s' t' ∧ a = s'.root) := by
  have g := guarding_watchedRepair n synced
  refine tracks_bind (h.tracks_parentOf hx ?_)
  intro q hq
  refine tracks_bind (h.tracks_colorOf ?_)
  intro c _
  by_cases hw : w = n
  · -- a child of the sibling is read below
    apply tracks_of_not_returns
    intro P hreturns
    subst hw
    simp [Rbtree.setColor, Rbtree.parentOf, Rbtree.childOf, h.child]
      at hreturns
  · refine tracks_bind (g.setColor h (fun heq => absurd heq hw) ?_)
    intro h₁
    refine tracks_bind (h₁.tracks_parentOf hx ?_)
    intro q₁ _
    refine tracks_bind (g.setColor h₁ (fun _ => rfl) ?_)
    intro h₂
    refine tracks_bind (g.childOf h₂ ?_)
    intro far _ _
    refine tracks_bind (g.setColor h₂ (fun _ => rfl) ?_)
    intro h₃
    refine tracks_bind (h₃.tracks_parentOf hx ?_)
    intro q₃ _
    refine tracks_bind ((g.tracks_rotate h₃).mono ?_)
    intro _ s₄ t₄ h₄
    exact h₄.1.tracks_rootOf ⟨h₄.1, rfl⟩

theorem Guarding.tracks_bothChildrenBlack {acc : NodeAccess}
    (g : Guarding n synced acc) (h : Watched n synced s t) :
    Tracks (CAdvanced.bothChildrenBlack w) (acc.bothChildrenBlack w) s t
      (fun _ s' t' => s' = s ∧ t' = t ∧ w ≠ n) := by
  refine tracks_bind (g.childOf h ?_)
  intro l _ hw
  refine tracks_bind (h.tracks_colorOf ?_)
  intro c _
  refine tracks_ite ?_ ?_
  · intro _
    refine tracks_bind (g.childOf h ?_)
    intro r _ _
    refine tracks_bind (h.tracks_colorOf ?_)
    intro c' _
    exact tracks_pure ⟨rfl, rfl, hw⟩
  · intro _
    exact tracks_pure ⟨rfl, rfl, hw⟩

/-- The next node under repair is no sentinel, or the root. -/
theorem Watched.tracks_deleteFixupBlack (h : Watched n synced s t)
    (hx : x = n → synced) (hq : s.parent x = some q) (hqn : q ≠ n) :
    Tracks (CAdvanced.deleteFixupBlack d x w)
      (NodeAccess.watchedRepair.deleteFixupBlack d x w) s t
      (fun a s' t' => Watched n synced s' t' ∧ (a = n → a = s'.root)) := by
  have g := guarding_watchedRepair n synced
  refine tracks_bind ((g.tracks_bothChildrenBlack h).mono ?_)
  intro both s' t' hboth
  obtain ⟨rfl, rfl, hw⟩ := hboth
  refine tracks_ite ?_ ?_
  · intro _
    refine tracks_bind (g.setColor h (fun heq => absurd heq hw) ?_)
    intro h₁
    refine h₁.tracks_parentOf hx ?_
    intro q₁ hq₁
    cases hq.symm.trans hq₁
    exact ⟨h₁, fun heq => absurd heq hqn⟩
  · intro _
    refine tracks_bind (g.childOf h ?_)
    intro far _ _
    refine tracks_bind (h.tracks_colorOf ?_)
    intro c _
    refine tracks_ite ?_ ?_
    · intro _
      refine tracks_bind (g.childOf h ?_)
      intro near _ _
      refine tracks_bind (g.setColor h (fun _ => rfl) ?_)
      intro h₁
      refine tracks_bind (g.setColor h₁ (fun heq => absurd heq hw) ?_)
      intro h₂
      refine tracks_bind ((g.tracks_rotate h₂).mono ?_)
      intro _ s₃ t₃ h₃
      refine tracks_bind (h₃.1.tracks_parentOf hx ?_)
      intro q₃ _
      refine tracks_bind (g.childOf h₃.1 ?_)
      intro w₃ _ _
      refine (h₃.1.tracks_deleteFixupFar hx).mono ?_
      intro a s₄ t₄ h₄
      exact ⟨h₄.1, fun _ => h₄.2⟩
    · intro _
      refine (h.tracks_deleteFixupFar hx).mono ?_
      intro a s₄ t₄ h₄
      exact ⟨h₄.1, fun _ => h₄.2⟩

theorem Watched.tracks_deleteFixupSide (h : Watched n synced s t)
    (hx : x = n → synced) :
    Tracks (CAdvanced.deleteFixupSide d x)
      (NodeAccess.watchedRepair.deleteFixupSide d x) s t
      (fun a s' t' => Watched n synced s' t' ∧ (a = n → a = s'.root)) := by
  have g := guarding_watchedRepair n synced
  refine tracks_bind (h.tracks_parentOf hx ?_)
  intro q hq
  refine tracks_bind (g.childOf h ?_)
  intro w _ hqn
  refine tracks_bind (h.tracks_colorOf ?_)
  intro c _
  refine tracks_ite ?_ ?_
  · intro _
    refine tracks_bind (g.setColor h (fun _ => rfl) ?_)
    intro h₁
    refine tracks_bind (h₁.tracks_parentOf hx ?_)
    intro q₁ hq₁
    cases hq.symm.trans hq₁
    refine tracks_bind (g.setColor h₁ (fun heq => absurd heq hqn) ?_)
    intro h₂
    refine tracks_bind (h₂.tracks_parentOf hx ?_)
    intro q₂ _
    refine tracks_bind ((g.tracks_rotate h₂).mono ?_)
    intro _ s₃ t₃ h₃
    refine tracks_bind (h₃.1.tracks_parentOf hx ?_)
    intro q₃ hq₃
    refine tracks_bind (g.childOf h₃.1 ?_)
    intro w₃ _ hqn₃
    exact h₃.1.tracks_deleteFixupBlack hx hq₃ hqn₃
  · intro _
    exact h.tracks_deleteFixupBlack hx hq hqn

theorem Watched.tracks_deleteFixup (h : Watched n synced s t)
    (hx : x = n → synced) :
    Tracks (CAdvanced.rbtreeDeleteFixup x)
      (NodeAccess.watchedRepair.rbtreeDeleteFixup x) s t
      (fun _ s' t' => Watched n synced s' t') := by
  have g := guarding_watchedRepair n synced
  refine tracks_bind (h.tracks_loopFuel ?_)
  intro fuel
  refine tracks_bind ((tracks_iterate (Q := fun _ s' t' =>
    Watched n synced s' t') (fun x s' t' => Watched n synced s' t' ∧
      (x = n → synced ∨ x = s'.root)) ?_ fuel
    ⟨h, fun heq => Or.inl (hx heq)⟩).mono ?_)
  · intro x s₁ t₁ hinv
    obtain ⟨h₁, hx₁⟩ := hinv
    refine tracks_bind (h₁.tracks_rootOf (tracks_ite ?_ ?_))
    · intro hroot
      have hsynced : x = n → synced :=
        fun heq => (hx₁ heq).resolve_right hroot
      refine tracks_bind (h₁.tracks_colorOf ?_)
      intro c _
      refine tracks_ite ?_ ?_
      · intro _
        refine tracks_bind (h₁.tracks_parentOf hsynced ?_)
        intro q _
        refine tracks_bind (g.childOf h₁ ?_)
        intro l _ _
        refine tracks_ite ?_ ?_
        · intro _
          refine tracks_bind ((h₁.tracks_deleteFixupSide hsynced).mono ?_)
          intro a s₂ t₂ h₂
          exact tracks_pure ⟨h₂.1, fun heq => Or.inr (h₂.2 heq)⟩
        · intro _
          refine tracks_bind ((h₁.tracks_deleteFixupSide hsynced).mono ?_)
          intro a s₂ t₂ h₂
          exact tracks_pure ⟨h₂.1, fun heq => Or.inr (h₂.2 heq)⟩
      · intro _
        exact tracks_pure h₁
    · intro _
      exact tracks_pure h₁
  · intro x s₁ t₁ h₁
    exact g.setColor h₁ (fun _ => rfl) id

end Repair

section Detach

variable {n x y z : Addr} {d : Dir} {synced : Prop} {s t : Rbtree}
  {acc : NodeAccess}

theorem Guarding.tracks_deleteVictim (g : Guarding n synced acc)
    (h : Watched n synced s t) :
    Tracks (CAdvanced.deleteVictim z) (acc.deleteVictim z) s t
      (fun _ s' t' => Watched n synced s' t') := by
  refine tracks_bind (g.childOf h ?_)
  intro l _ hz
  refine tracks_bind (h.tracks_nilOf (tracks_ite ?_ ?_))
  · intro _
    exact tracks_pure h
  · intro _
    refine tracks_bind (g.childOf h ?_)
    intro r _ _
    refine tracks_bind (h.tracks_nilOf (tracks_ite ?_ ?_))
    · intro _
      exact tracks_pure h
    · intro _
      exact g.tracks_successor h hz

theorem Guarding.tracks_onlyChild (g : Guarding n synced acc)
    (h : Watched n synced s t) :
    Tracks (CAdvanced.onlyChild y) (acc.onlyChild y) s t
      (fun _ s' t' => Watched n synced s' t' ∧ y ≠ n) := by
  refine tracks_bind (g.childOf h ?_)
  intro l _ hy
  refine tracks_bind (h.tracks_nilOf (tracks_ite ?_ ?_))
  · intro _
    refine g.childOf h ?_
    intro l' _ _
    exact ⟨h, hy⟩
  · intro _
    refine tracks_bind (g.childOf h ?_)
    intro r _ _
    refine tracks_bind (h.tracks_nilOf (tracks_ite ?_ ?_))
    · intro _
      refine g.childOf h ?_
      intro r' _ _
      exact ⟨h, hy⟩
    · intro _
      exact h.tracks_nilOf ⟨h, hy⟩

/-- The child takes `y`'s parent: if it is the sentinel, both runs know its
parent from here on. -/
theorem Watched.tracks_spliceOut (h : Watched n False s t) :
    Tracks (CAdvanced.spliceOut y) (NodeAccess.watched.spliceOut y) s t
      (fun x s' t' => Watched n (x = n) s' t' ∧ y ≠ n) := by
  have g := guarding_watched n False
  refine tracks_bind ((g.tracks_onlyChild h).mono ?_)
  intro x s₁ t₁ h₁
  obtain ⟨h₁, hy⟩ := h₁
  refine tracks_bind (g.parentOf h₁ hy ?_)
  intro q _
  refine tracks_bind (h₁.tracks_store ?_)
  have h₂ : Watched n (x = n) (Rbtree.withParent x q s₁)
      (Rbtree.withParent x q t₁) := h₁.withParent Or.inr
  have g₂ := guarding_watched n (x = n)
  refine tracks_bind ((g₂.tracks_replaceInParent h₂ hy).mono ?_)
  intro _ s₃ t₃ h₃
  exact tracks_pure ⟨h₃.1, hy⟩

theorem Guarding.tracks_swapPayload (g : Guarding n synced acc)
    (h : Watched n synced s t) (hz : z ≠ n) (hy : y ≠ n) :
    Tracks (CAdvanced.swapPayload z y) (acc.swapPayload z y) s t
      (fun _ s' t' => Watched n synced s' t') := by
  refine tracks_bind (g.keyPtrOf h hz ?_)
  intro k
  refine tracks_bind (g.keyPtrOf h hy ?_)
  intro k'
  refine tracks_bind (g.setKey h hz ?_)
  intro h₁
  refine tracks_bind (g.setKey h₁ hy ?_)
  intro h₂
  refine tracks_bind (g.valuePtrOf h₂ hz ?_)
  intro v
  refine tracks_bind (g.valuePtrOf h₂ hy ?_)
  intro v'
  refine tracks_bind (g.setValue h₂ hz ?_)
  intro h₃
  exact g.setValue h₃ hy id

theorem Watched.weaken (h : Watched n synced s t) : Watched n False s t :=
  ⟨h.same, h.parent, False.elim, h.nil, h.color, h.child, h.value, h.live⟩

theorem Watched.tracks_delete (h : Watched n False s t) (hz : z ≠ n) :
    Tracks (CAdvanced.rbtreeDelete z)
      (NodeAccess.watched.rbtreeDelete NodeAccess.watchedRepair z) s t
      (fun _ s' t' => Watched n False s' t') := by
  have g := guarding_watched n False
  refine tracks_bind ((g.tracks_deleteVictim h).mono ?_)
  intro y s₁ t₁ h₁
  refine tracks_bind (h₁.tracks_spliceOut.mono ?_)
  intro x s₂ t₂ h₂
  obtain ⟨h₂, hy⟩ := h₂
  have g₂ := guarding_watched n (x = n)
  have hmoved : Tracks (CAdvanced.movePayload z y)
      (NodeAccess.watched.movePayload z y) s₂ t₂
      (fun _ s' t' => Watched n (x = n) s' t') := by
    refine tracks_ite ?_ ?_
    · intro _
      exact g₂.tracks_swapPayload h₂ hz hy
    · intro _
      exact tracks_pure h₂
  refine tracks_bind (hmoved.mono ?_)
  intro _ s₃ t₃ h₃
  have hrepaired : Tracks (CAdvanced.repairBehind y x)
      (NodeAccess.watchedRepair.repairBehind y x) s₃ t₃
      (fun _ s' t' => Watched n (x = n) s' t') := by
    refine tracks_bind (h₃.tracks_colorOf ?_)
    intro c _
    refine tracks_ite ?_ ?_
    · intro _
      exact h₃.tracks_deleteFixup id
    · intro _
      exact tracks_pure h₃
  refine tracks_bind (hrepaired.mono ?_)
  intro _ s₄ t₄ h₄
  exact tracks_pure h₄.weaken

end Detach

/-! ## The interface -/

section Interface

variable {n : Addr} {s t : Rbtree} {key value : CString} {A : Allocator}

theorem preserves_search (key : CString) :
    Preserves (fun s : Rbtree => s) (CAdvanced.rbtreeSearch key) := by
  have hnil : Preserves (fun s : Rbtree => s) nilOf :=
    preserves_bind preserves_get (fun s => preserves_pure s.nil)
  have hkey : ∀ p, Preserves (fun s : Rbtree => s) (Rbtree.keyOf p) := by
    intro p
    refine preserves_bind (preserves_load _) ?_
    intro k
    cases k with
    | none => exact preserves_throw _
    | some block => exact preserves_pure block.str
  have hchild : ∀ d p, Preserves (fun s : Rbtree => s)
      (Rbtree.childOf d p) := fun d p => preserves_load _
  refine preserves_bind (preserves_bind preserves_get
    fun s => preserves_pure _) ?_
  intro fuel
  refine preserves_bind (preserves_bind preserves_get
    fun s => preserves_pure s.root) ?_
  intro root
  refine preserves_iterate ?_ fuel root
  intro x
  refine preserves_bind hnil ?_
  intro nil
  refine preserves_ite (preserves_bind (hkey x) ?_)
    (preserves_bind hnil fun a => preserves_pure _)
  intro k
  refine preserves_ite
    (preserves_bind (hchild _ x) fun a => preserves_pure _)
    (preserves_bind (hkey x) ?_)
  intro k'
  exact preserves_ite
    (preserves_bind (hchild _ x) fun a => preserves_pure _)
    (preserves_pure _)

/-- When the key exists, a second search ends at a node again. -/
theorem Guarding.tracks_exist {acc : NodeAccess} {synced : Prop}
    (g : Guarding n synced acc) (h : Watched n synced s t) (key : CString) :
    Tracks (CAdvanced.rbtreeExist key) (acc.rbtreeExist key) s t
      (fun ret s' t' => Watched n synced s' t' ∧ (ret ≠ -1 →
        Yields (CAdvanced.rbtreeSearch key) s' (fun node _ => node ≠ n))) := by
  refine tracks_bind ((g.tracks_search h key).withRun.mono ?_)
  intro node s₁ t₁ h₁
  obtain ⟨hrun, h₁⟩ := h₁
  have hsame : s₁ = s := preserves_search key s node s₁ hrun
  subst hsame
  refine tracks_bind (h₁.tracks_nilOf (tracks_ite ?_ ?_))
  · intro hnode
    refine tracks_pure ⟨h₁, fun _ => ?_⟩
    intro node' s₂ hrun'
    rw [hrun] at hrun'
    cases hrun'
    exact hnode
  · intro _
    exact tracks_pure ⟨h₁, fun hne => absurd rfl hne⟩

theorem Guarding.tracks_get {acc : NodeAccess} {synced : Prop}
    (g : Guarding n synced acc) (h : Watched n synced s t) (key : CString) :
    Tracks (CAdvanced.rbtreeGet key) (acc.rbtreeGet key) s t
      (fun _ s' t' => Watched n synced s' t') := by
  refine tracks_bind ((g.tracks_search h key).mono ?_)
  intro node s₁ t₁ h₁
  refine tracks_bind (h₁.tracks_nilOf (tracks_ite ?_ ?_))
  · intro _
    exact tracks_pure h₁
  · intro hnode
    exact g.valuePtrOf h₁ hnode (fun _ => h₁)

theorem Guarding.tracks_mod {acc : NodeAccess} {synced : Prop}
    (g : Guarding n synced acc) (h : Watched n synced s t)
    (key value : CString) :
    Tracks (CAdvanced.rbtreeMod A key value) (acc.rbtreeMod A key value) s t
      (fun _ s' t' => Watched n synced s' t') := by
  refine tracks_bind ((g.tracks_exist h key).mono ?_)
  intro ret s₁ t₁ h₁
  obtain ⟨h₁, hfound⟩ := h₁
  refine tracks_ite (fun _ => tracks_pure h₁) ?_
  intro hret
  refine tracks_bind ((g.tracks_search h₁ key).withRun.mono ?_)
  intro node s₂ t₂ h₂
  obtain ⟨hrun, h₂⟩ := h₂
  have hnode := hfound hret node s₂ hrun
  refine tracks_bind (h₂.tracks_malloc A ?_)
  intro block s₃ t₃ _ h₃
  refine tracks_ite ?_ ?_
  · intro _
    refine tracks_bind (g.setValue h₃ hnode ?_)
    intro h₄
    exact tracks_pure h₄
  · intro _
    refine tracks_bind (g.setValue h₃ hnode ?_)
    intro h₄
    exact tracks_pure h₄

theorem Guarding.tracks_insertCopy {acc : NodeAccess} {synced : Prop}
    (g : Guarding n synced acc) (h : Watched n synced s t)
    (key value : CString) :
    Tracks (CAdvanced.insertCopy A key value) (acc.insertCopy A key value) s
      t (fun _ s' t' => Watched n synced s' t') := by
  refine tracks_bind (h.tracks_mallocNode A ?_)
  intro node s₁ t₁ hnode h₁
  refine tracks_ite (fun _ => tracks_pure h₁) ?_
  intro _
  refine tracks_bind (h₁.tracks_malloc A ?_)
  intro kcopy s₂ t₂ hkcopy h₂
  refine tracks_ite ?_ ?_
  · intro _
    refine tracks_bind (g.setKey h₂ hnode ?_)
    intro h₃
    exact tracks_pure h₃
  · intro _
    refine tracks_bind (g.setKey h₂ hnode ?_)
    intro h₃
    refine tracks_bind (h₃.tracks_malloc A ?_)
    intro vcopy s₄ t₄ _ h₄
    refine tracks_ite ?_ ?_
    · intro _
      refine tracks_bind (g.setValue h₄ hnode ?_)
      intro h₅
      refine tracks_bind (h₅.tracks_free hkcopy ?_)
      intro s₆ t₆ h₆
      refine tracks_bind (h₆.tracks_freeNode hnode ?_)
      intro s₇ t₇ h₇
      exact tracks_pure h₇
    · intro _
      refine tracks_bind (g.setValue h₄ hnode ?_)
      intro h₅
      refine tracks_bind ((g.tracks_insert h₅ hnode).mono ?_)
      intro _ s₆ t₆ h₆
      refine tracks_bind (h₆.tracks_addCount 1 ?_)
      intro h₇
      exact tracks_pure h₇

theorem Guarding.tracks_set {acc : NodeAccess} {synced : Prop}
    (g : Guarding n synced acc) (h : Watched n synced s t)
    (key value : CString) :
    Tracks (CAdvanced.rbtreeSet A key value) (acc.rbtreeSet A key value) s t
      (fun _ s' t' => Watched n synced s' t') := by
  refine tracks_bind ((g.tracks_exist h key).mono ?_)
  intro ret s₁ t₁ h₁
  refine tracks_ite ?_ ?_
  · intro _
    refine tracks_bind ((g.tracks_mod h₁.1 key value).mono ?_)
    intro ret' s₂ t₂ h₂
    exact tracks_ite (fun _ => tracks_pure h₂) (fun _ => tracks_pure h₂)
  · intro _
    exact g.tracks_insertCopy h₁.1 key value

theorem Watched.tracks_del (h : Watched n False s t) (key : CString) :
    Tracks (CAdvanced.rbtreeDel key)
      (NodeAccess.watched.rbtreeDel NodeAccess.watchedRepair key) s t
      (fun _ s' t' => Watched n False s' t') := by
  have g := guarding_watched n False
  refine tracks_bind ((g.tracks_search h key).mono ?_)
  intro node s₁ t₁ h₁
  refine tracks_bind (h₁.tracks_nilOf (tracks_ite ?_ ?_))
  · intro _
    exact tracks_pure h₁
  · intro hnode
    refine tracks_bind ((h₁.tracks_delete hnode).mono ?_)
    intro cur s₂ t₂ h₂
    refine tracks_ite ?_ ?_
    · intro _
      exact tracks_throw _ _ _
    · intro _
      refine tracks_bind (h₂.tracks_addCount (-1) ?_)
      intro h₃
      exact tracks_pure h₃

theorem Watched.tracks_call (h : Watched n False s t) (A : Allocator)
    (call : Call) :
    Tracks (CAdvanced.rbtreeCall A call)
      (NodeAccess.watched.rbtreeCall NodeAccess.watchedRepair A call) s t
      (fun _ s' t' => Watched n False s' t') := by
  have g := guarding_watched n False
  cases call with
  | set key value =>
      refine tracks_bind ((g.tracks_set h key value).mono ?_)
      intro ret s' t' h'
      exact tracks_pure h'
  | get key =>
      refine tracks_bind ((g.tracks_get h key).mono ?_)
      intro p s' t' h'
      exact tracks_pure h'
  | del key =>
      refine tracks_bind ((h.tracks_del key).mono ?_)
      intro ret s' t' h'
      exact tracks_pure h'
  | exist key =>
      refine tracks_bind ((g.tracks_exist h key).mono ?_)
      intro ret s' t' h'
      exact tracks_pure h'.1
  | count =>
      have hsame := h
      obtain ⟨parent, rfl⟩ := h.same
      exact tracks_pure hsame

end Interface

/-! ## Runs -/

/-- The sentinel between two calls. -/
structure BareSentinel (s : Rbtree) : Prop where
  color : s.color s.nil = some .black
  child : ∀ d, s.child d s.nil = none
  value : s.value s.nil = none

/-- The sentinel of a new tree: two of its fields were assigned. -/
structure KeyAndColorOnly (s : Rbtree) : Prop extends BareSentinel s where
  key : (s.key s.nil).isSome
  parent : s.parent s.nil = none

/-- Equal but for the sentinel's parent. -/
structure ApartFromNilParent (s t : Rbtree) : Prop where
  same : t = withParents t.parent s
  parent : ∀ p ≠ s.nil, t.parent p = s.parent p

section Runs

variable {s t : Rbtree} {T : Shape Node}

theorem Created.keyAndColorOnly {s₀ : Rbtree} (h : Created s₀ s) :
    KeyAndColorOnly s := by
  obtain ⟨kp, hkey, -⟩ := h.key
  refine ⟨⟨?_, h.child, h.value⟩, ?_, h.parent⟩
  · exact h.tree.repr.nilBlack
  · rw [hkey]
    rfl

theorem BareSentinel.watched (h : BareSentinel s)
    (hlive : s.nil ∈ s.arena.live) :
    Watched s.nil False s (dropNilParent s) := by
  refine ⟨⟨_, rfl⟩, ?_, False.elim, rfl, h.color, h.child, h.value, hlive⟩
  intro p hp
  exact Function.update_of_ne hp none s.parent

theorem Watched.bareSentinel {n : Addr} (h : Watched n False s t) :
    BareSentinel s := by
  have hnil := h.nil
  subst hnil
  exact ⟨h.color, h.child, h.value⟩

theorem Watched.apart {n : Addr} (h : Watched n False s t) :
    ApartFromNilParent s t := by
  have hnil := h.nil
  subst hnil
  have hparent := h.parent
  obtain ⟨parent, rfl⟩ := h.same
  exact ⟨rfl, hparent⟩

theorem CallsReach.bareSentinel
    (h : CallsReach rbtreeCreate rbtreeCall s) :
    BareSentinel s ∧ s.nil ∈ s.arena.live := by
  apply h.invariant
  · intro A s
    refine (yields_rbtreeCreate A s).mono ?_
    intro ret s' hcreated _
    exact ⟨hcreated.2.keyAndColorOnly.toBareSentinel,
      hcreated.2.tree.repr.nilLive⟩
  · intro A c s hs
    obtain ⟨hbare, hlive⟩ := hs
    refine Yields.mono ((hbare.watched hlive).tracks_call A c) ?_
    intro reply s' hreturns
    obtain ⟨_, t', -, -, h'⟩ := hreturns
    refine ⟨h'.bareSentinel, ?_⟩
    rw [h'.nil]
    exact h'.live

theorem SearchTree.returns_call (h : SearchTree s T) (A : Allocator)
    (call : Call) :
    Returns (rbtreeCall A call) s (fun _ _ => True) := by
  cases call with
  | set key value =>
      simp only [rbtreeCall, returns_bind, returns_pure]
      exact (h.returns_set A key value).mono fun _ _ _ => trivial
  | get key =>
      simp only [rbtreeCall, returns_bind, returns_pure]
      exact (h.returns_get key).mono fun _ _ _ => trivial
  | del key =>
      simp only [rbtreeCall, returns_bind, returns_pure]
      exact (h.returns_del key).mono fun _ _ _ => trivial
  | exist key =>
      simp only [rbtreeCall, returns_bind, returns_pure]
      exact (h.returns_exist key).mono fun _ _ _ => trivial
  | count =>
      simp only [rbtreeCall, rbtreeCount, returns_bind, Fallible.returns_get,
        returns_pure]

end Runs

/-- The sentinel gets a key and a color and nothing else, stays black, and no
check on its fields fails in any call of any run. -/
theorem sentinel_intact {s : Rbtree}
    (h : CallsReach rbtreeCreate rbtreeCall s) :
    (∀ A s₀, Yields (rbtreeCreate A) s₀ (fun _ s₁ => KeyAndColorOnly s₁)) ∧
      BareSentinel s ∧
      ∀ A call, Returns (rbtreeCall A call) s (fun reply s' =>
        Returns (watchedCall A call) s (fun reply' t' =>
          reply' = reply ∧ ApartFromNilParent s' t')) := by
  obtain ⟨T, hT⟩ := h.engineTree
  obtain ⟨hbare, hlive⟩ := h.bareSentinel
  refine ⟨?_, hbare, ?_⟩
  · intro A s₀
    refine (yields_rbtreeCreate A s₀).mono ?_
    intro ret s₁ hcreated
    exact hcreated.2.keyAndColorOnly
  · intro A call
    refine returns_of_yields (hT.tree.returns_call A call) ?_
    refine Yields.mono ((hbare.watched hlive).tracks_call A call) ?_
    intro reply s' hreturns
    unfold watchedCall
    rw [returns_bind, returns_modify]
    apply hreturns.mono
    intro reply' t' ht'
    exact ⟨ht'.1, ht'.2.apart⟩

/-- Taking out a node with two children, with every check on. -/
theorem sentinel_intact_sample : ∃ s z,
    CallsReach rbtreeCreate rbtreeCall s ∧ TwoChildRoot s z ∧
      BareSentinel s ∧
      Returns (rbtreeCall .above (.del z.text)) s (fun reply s' =>
        Returns (watchedCall .above (.del z.text)) s (fun reply' t' =>
          reply' = reply ∧ ApartFromNilParent s' t')) := by
  obtain ⟨s, z, hreach, hz⟩ := exists_twoChildRoot
  obtain ⟨-, hbare, hcalls⟩ := sentinel_intact hreach
  exact ⟨s, z, hreach, hz, hbare, hcalls .above (.del z.text)⟩

end CAdvanced
