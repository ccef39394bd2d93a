import CAdvanced.RbtreeEngine

/-!
# The node a deletion hands back

`rbtree_delete` returns the node that left the tree, and its caller releases
that node with its key and value.  The node holds what the deleted node held,
and nothing in the tree leads to it or to what it holds.
-/

namespace CAdvanced

open Fallible
open RedBlack
open Rbtree

/-! ## Key and value pointers -/

def payloads (s : Rbtree) : (Addr → Option CharPtr) × (Addr → Option CharPtr) :=
  (s.key, s.value)

theorem colorOf_preserves (p : Addr) : Preserves payloads (colorOf p) :=
  preserves_load _

theorem childOf_preserves (d : Dir) (p : Addr) :
    Preserves payloads (childOf d p) :=
  preserves_load _

theorem parentOf_preserves (p : Addr) : Preserves payloads (parentOf p) :=
  preserves_load _

theorem setColor_preserves (p : Addr) (c : Color) :
    Preserves payloads (setColor p c) :=
  preserves_store (fun _ => rfl)

theorem setChild_preserves (d : Dir) (p q : Addr) :
    Preserves payloads (setChild d p q) :=
  preserves_store (fun _ => rfl)

theorem setParent_preserves (p q : Addr) :
    Preserves payloads (setParent p q) :=
  preserves_store (fun _ => rfl)

theorem setRoot_preserves (p : Addr) : Preserves payloads (setRoot p) :=
  preserves_modify (fun _ => rfl)

theorem nilOf_preserves : Preserves payloads nilOf := preserves_read _

theorem rootOf_preserves : Preserves payloads rootOf := preserves_read _

theorem loopFuel_preserves : Preserves payloads loopFuel := preserves_read _

theorem replaceInParent_preserves (d : Dir) (x y : Addr) :
    Preserves payloads (replaceInParent d x y) := by
  apply preserves_bind (parentOf_preserves x)
  intro p
  apply preserves_bind nilOf_preserves
  intro nil
  apply preserves_ite (setRoot_preserves y)
  apply preserves_bind (parentOf_preserves x)
  intro p
  apply preserves_bind (childOf_preserves d p)
  intro q
  apply preserves_ite
  · apply preserves_bind (parentOf_preserves x)
    intro p
    exact setChild_preserves d p y
  · apply preserves_bind (parentOf_preserves x)
    intro p
    exact setChild_preserves d.flip p y

theorem rotate_preserves (d : Dir) (x : Addr) :
    Preserves payloads (rotate d x) := by
  apply preserves_bind (childOf_preserves d.flip x)
  intro y
  apply preserves_bind (childOf_preserves d y)
  intro b
  apply preserves_bind (setChild_preserves d.flip x b)
  intro _
  apply preserves_bind
  · apply preserves_bind (childOf_preserves d y)
    intro b
    apply preserves_bind nilOf_preserves
    intro nil
    apply preserves_ite _ (preserves_pure _)
    apply preserves_bind (childOf_preserves d y)
    intro b
    exact setParent_preserves b x
  · intro _
    apply preserves_bind (parentOf_preserves x)
    intro p
    apply preserves_bind (setParent_preserves y p)
    intro _
    apply preserves_bind (replaceInParent_preserves d x y)
    intro _
    apply preserves_bind (setChild_preserves d y x)
    intro _
    exact setParent_preserves x y

/-! ### The repair -/

theorem bothChildrenBlack_preserves (w : Addr) :
    Preserves payloads (bothChildrenBlack w) := by
  apply preserves_bind (childOf_preserves .left w)
  intro l
  apply preserves_bind (colorOf_preserves l)
  intro c
  apply preserves_ite _ (preserves_pure _)
  apply preserves_bind (childOf_preserves .right w)
  intro r
  exact preserves_bind (colorOf_preserves r) (fun _ => preserves_pure _)

theorem deleteFixupFar_preserves (d : Dir) (x w : Addr) :
    Preserves payloads (deleteFixupFar d x w) := by
  apply preserves_bind (parentOf_preserves x)
  intro p
  apply preserves_bind (colorOf_preserves p)
  intro c
  apply preserves_bind (setColor_preserves w c)
  intro _
  apply preserves_bind (parentOf_preserves x)
  intro p
  apply preserves_bind (setColor_preserves p .black)
  intro _
  apply preserves_bind (childOf_preserves d.flip w)
  intro v
  apply preserves_bind (setColor_preserves v .black)
  intro _
  apply preserves_bind (parentOf_preserves x)
  intro p
  apply preserves_bind (rotate_preserves d p)
  intro _
  exact rootOf_preserves

theorem deleteFixupBlack_preserves (d : Dir) (x w : Addr) :
    Preserves payloads (deleteFixupBlack d x w) := by
  apply preserves_bind (bothChildrenBlack_preserves w)
  intro black
  apply preserves_ite
  · apply preserves_bind (setColor_preserves w .red)
    intro _
    exact parentOf_preserves x
  · apply preserves_bind (childOf_preserves d.flip w)
    intro v
    apply preserves_bind (colorOf_preserves v)
    intro c
    apply preserves_ite _ (deleteFixupFar_preserves d x w)
    apply preserves_bind (childOf_preserves d w)
    intro v
    apply preserves_bind (setColor_preserves v .black)
    intro _
    apply preserves_bind (setColor_preserves w .red)
    intro _
    apply preserves_bind (rotate_preserves d.flip w)
    intro _
    apply preserves_bind (parentOf_preserves x)
    intro p
    apply preserves_bind (childOf_preserves d.flip p)
    intro w
    exact deleteFixupFar_preserves d x w

theorem deleteFixupSide_preserves (d : Dir) (x : Addr) :
    Preserves payloads (deleteFixupSide d x) := by
  apply preserves_bind (parentOf_preserves x)
  intro p
  apply preserves_bind (childOf_preserves d.flip p)
  intro w
  apply preserves_bind (colorOf_preserves w)
  intro c
  apply preserves_ite _ (deleteFixupBlack_preserves d x w)
  apply preserves_bind (setColor_preserves w .black)
  intro _
  apply preserves_bind (parentOf_preserves x)
  intro p
  apply preserves_bind (setColor_preserves p .red)
  intro _
  apply preserves_bind (parentOf_preserves x)
  intro p
  apply preserves_bind (rotate_preserves d p)
  intro _
  apply preserves_bind (parentOf_preserves x)
  intro p
  apply preserves_bind (childOf_preserves d.flip p)
  intro w
  exact deleteFixupBlack_preserves d x w

theorem deleteFixupStep_preserves (x : Addr) :
    Preserves payloads (deleteFixupStep x) := by
  apply preserves_bind rootOf_preserves
  intro root
  apply preserves_ite _ (preserves_pure _)
  apply preserves_bind (colorOf_preserves x)
  intro c
  apply preserves_ite _ (preserves_pure _)
  apply preserves_bind (parentOf_preserves x)
  intro p
  apply preserves_bind (childOf_preserves .left p)
  intro q
  apply preserves_ite
  · exact preserves_bind (deleteFixupSide_preserves .left x)
      (fun _ => preserves_pure _)
  · exact preserves_bind (deleteFixupSide_preserves .right x)
      (fun _ => preserves_pure _)

theorem repairBehind_preserves (y x : Addr) :
    Preserves payloads (repairBehind y x) := by
  apply preserves_bind (colorOf_preserves y)
  intro c
  apply preserves_ite _ (preserves_pure _)
  apply preserves_bind loopFuel_preserves
  intro fuel
  apply preserves_bind (preserves_iterate deleteFixupStep_preserves fuel x)
  intro x
  exact setColor_preserves x .black

/-! ### The splice -/

theorem rbtreeSuccessor_preserves (x : Addr) :
    Preserves payloads (rbtreeSuccessor x) := by
  apply preserves_bind (parentOf_preserves x)
  intro y
  apply preserves_bind (childOf_preserves .right x)
  intro r
  apply preserves_bind nilOf_preserves
  intro nil
  apply preserves_ite
  · apply preserves_bind (childOf_preserves .right x)
    intro r
    apply preserves_bind loopFuel_preserves
    intro fuel
    apply preserves_iterate
    intro x
    apply preserves_bind (childOf_preserves .left x)
    intro next
    apply preserves_bind nilOf_preserves
    intro nil
    exact preserves_ite (preserves_pure _) (preserves_pure _)
  · apply preserves_bind loopFuel_preserves
    intro fuel
    apply preserves_iterate
    rintro ⟨x, y⟩
    apply preserves_bind nilOf_preserves
    intro nil
    apply preserves_ite _ (preserves_pure _)
    apply preserves_bind (childOf_preserves .right y)
    intro r
    apply preserves_ite _ (preserves_pure _)
    exact preserves_bind (parentOf_preserves y) (fun _ => preserves_pure _)

theorem deleteVictim_preserves (z : Addr) :
    Preserves payloads (deleteVictim z) := by
  apply preserves_bind (childOf_preserves .left z)
  intro l
  apply preserves_bind nilOf_preserves
  intro nil
  apply preserves_ite (preserves_pure _)
  apply preserves_bind (childOf_preserves .right z)
  intro r
  apply preserves_bind nilOf_preserves
  intro nil
  exact preserves_ite (preserves_pure _) (rbtreeSuccessor_preserves z)

theorem spliceOut_preserves (y : Addr) : Preserves payloads (spliceOut y) := by
  apply preserves_bind
  · apply preserves_bind (childOf_preserves .left y)
    intro l
    apply preserves_bind nilOf_preserves
    intro nil
    apply preserves_ite (childOf_preserves .left y)
    apply preserves_bind (childOf_preserves .right y)
    intro r
    apply preserves_bind nilOf_preserves
    intro nil
    exact preserves_ite (childOf_preserves .right y) nilOf_preserves
  · intro x
    apply preserves_bind (parentOf_preserves y)
    intro p
    apply preserves_bind (setParent_preserves x p)
    intro _
    apply preserves_bind (replaceInParent_preserves .left y x)
    intro _
    exact preserves_pure _

/-! ### The exchange -/

/-- Key and value of `z` and `y` have changed places. -/
def exchanged (z y : Addr) (s : Rbtree) :
    (Addr → Option CharPtr) × (Addr → Option CharPtr) :=
  (s.key ∘ Equiv.swap z y, s.value ∘ Equiv.swap z y)

theorem exchanged_self (z : Addr) (s : Rbtree) :
    exchanged z z s = payloads s := by
  simp [exchanged, payloads]

theorem exchanged_congr {s s' : Rbtree} (h : payloads s' = payloads s)
    (z y : Addr) : exchanged z y s' = exchanged z y s := by
  obtain ⟨hkey, hvalue⟩ := Prod.ext_iff.mp h
  exact Prod.ext (congrArg (· ∘ Equiv.swap z y) hkey)
    (congrArg (· ∘ Equiv.swap z y) hvalue)

theorem exchanged_victim {s s' : Rbtree} {z y : Addr}
    (h : payloads s' = exchanged z y s) :
    s'.key y = s.key z ∧ s'.value y = s.value z := by
  obtain ⟨hkey, hvalue⟩ := Prod.ext_iff.mp h
  have hy : Equiv.swap z y y = z := Equiv.swap_apply_right z y
  exact ⟨(congrFun hkey y).trans (congrArg s.key hy),
    (congrFun hvalue y).trans (congrArg s.value hy)⟩

theorem update_update_eq_swap {α β : Type} [DecidableEq α] {f : α → Option β}
    {z y : α} {a b : β} (hz : f z = some a) (hy : f y = some b) :
    Function.update (Function.update f z (some b)) y (some a)
      = f ∘ Equiv.swap z y := by
  funext p
  by_cases hpy : p = y
  · subst hpy
    rw [Function.update_self, Function.comp_apply, Equiv.swap_apply_right, hz]
  · rw [Function.update_of_ne hpy, Function.comp_apply]
    by_cases hpz : p = z
    · subst hpz
      rw [Function.update_self, Equiv.swap_apply_left, hy]
    · rw [Function.update_of_ne hpz, Equiv.swap_apply_of_ne_of_ne hpz hpy]

theorem swapPayload_exchanges (z y : Addr) (s : Rbtree) :
    Yields (swapPayload z y) s (fun _ s' => payloads s' = exchanged z y s) := by
  intro a s' hrun
  have hreturns : Returns (swapPayload z y) s (fun _ t => t = s') :=
    ⟨a, s', hrun, rfl⟩
  simp only [swapPayload, keyPtrOf, valuePtrOf, setKey, setValue, isLive,
    returns_bind, returns_load, returns_store, withKey_arena, withKey_value,
    withValue_arena] at hreturns
  obtain ⟨k, hk, k', hk', -, -, v, hv, v', hv', -, -, rfl⟩ := hreturns
  exact Prod.ext (update_update_eq_swap hk hk') (update_update_eq_swap hv hv')

theorem movePayload_exchanges (z y : Addr) (s : Rbtree) :
    Yields (movePayload z y) s (fun _ s' => payloads s' = exchanged z y s) := by
  by_cases hyz : y = z
  · rw [movePayload, if_neg (fun hne => hne hyz), hyz, exchanged_self]
    exact yields_pure rfl
  · rw [movePayload, if_pos hyz]
    exact swapPayload_exchanges z y s

/-- The node handed back and the node asked for exchange key and value. -/
theorem rbtreeDelete_exchanges (z : Addr) (s : Rbtree) :
    Yields (rbtreeDelete z) s (fun y s' => payloads s' = exchanged z y s) := by
  apply yields_bind
  refine Yields.mono (deleteVictim_preserves z s) ?_
  intro y s₁ h₁
  apply yields_bind
  refine Yields.mono (spliceOut_preserves y s₁) ?_
  intro x s₂ h₂
  apply yields_bind
  refine Yields.mono (movePayload_exchanges z y s₂) ?_
  intro _ s₃ h₃
  apply yields_bind
  refine Yields.mono (repairBehind_preserves y x s₃) ?_
  intro _ s₄ h₄
  apply yields_pure
  rw [h₄, h₃]
  exact exchanged_congr (h₂.trans h₁) z y

/-! ## What the tree links to and holds -/

/-- The key or the value of the node at `a` is the block `p`. -/
def HoldsBlock (s : Rbtree) (a p : Addr) : Prop :=
  ∃ block : CharBlock, block.addr = p ∧
    (s.key a = some (some block) ∨ s.value a = some (some block))

/-- The blocks that hold the keys and the values of a tree. -/
def heldBlocks (T : Shape Node) : List Addr := (bindings T).flatMap payloadBlocks

/-- No block is the key or the value of two nodes, or both of one. -/
structure OwningTree (s : Rbtree) (T : Shape Node) : Prop where
  tree : SearchTree s T
  unshared : (heldBlocks T).Nodup

section Links

variable {s : Rbtree} {T t : Shape Node} {par a p : Addr} {x : Node}

theorem ptr_nil_or_mem (nil : Addr) (t : Shape Node) :
    ptr nil t = nil ∨ ptr nil t ∈ addrs t := by
  cases t with
  | leaf => exact .inl rfl
  | node c l x r => exact .inr (ptr_mem_addrs (by simp))

theorem Rep.child_mem (h : Rep s par t) (ha : a ∈ addrs t) (d : Dir) :
    ∃ q, s.child d a = some q ∧ (q = s.nil ∨ q ∈ addrs t) := by
  induction t generalizing par with
  | leaf => exact absurd ha (by simp)
  | node c l x r ihl ihr =>
      obtain ⟨hcell, hl, hr⟩ := h
      have hsub : ∀ q, q ∈ addrs l ∨ q ∈ addrs r →
          q ∈ addrs (.node c l x r) := by
        intro q hq
        simp only [addrs, Shape.inorder, List.map_append, List.map_cons,
          List.mem_append, List.mem_cons]
        exact hq.imp_right .inr
      simp only [addrs, Shape.inorder, List.map_append, List.map_cons,
        List.mem_append, List.mem_cons] at ha
      rcases ha with ha | rfl | ha
      · obtain ⟨q, hq, hmem⟩ := ihl hl ha
        exact ⟨q, hq, hmem.imp_right (fun hq => hsub q (.inl hq))⟩
      · cases d with
        | left =>
            exact ⟨_, hcell.near,
              (ptr_nil_or_mem s.nil l).imp_right (fun hq => hsub _ (.inl hq))⟩
        | right =>
            exact ⟨_, hcell.far,
              (ptr_nil_or_mem s.nil r).imp_right (fun hq => hsub _ (.inr hq))⟩
      · obtain ⟨q, hq, hmem⟩ := ihr hr ha
        exact ⟨q, hq, hmem.imp_right (fun hq => hsub q (.inr hq))⟩

theorem Rep.parent_mem (h : Rep s par t) (ha : a ∈ addrs t) :
    ∃ q, s.parent a = some q ∧ (q = par ∨ q ∈ addrs t) := by
  induction t generalizing par with
  | leaf => exact absurd ha (by simp)
  | node c l x r ihl ihr =>
      obtain ⟨hcell, hl, hr⟩ := h
      simp only [addrs, Shape.inorder, List.map_append, List.map_cons,
        List.mem_append, List.mem_cons] at ha ⊢
      rcases ha with ha | rfl | ha
      · obtain ⟨q, hq, rfl | hmem⟩ := ihl hl ha
        · exact ⟨_, hq, .inr (.inr (.inl rfl))⟩
        · exact ⟨q, hq, .inr (.inl hmem)⟩
      · exact ⟨par, hcell.parent, .inl rfl⟩
      · obtain ⟨q, hq, rfl | hmem⟩ := ihr hr ha
        · exact ⟨_, hq, .inr (.inr (.inl rfl))⟩
        · exact ⟨q, hq, .inr (.inr (.inr hmem))⟩

theorem Repr.payload_cells (h : Repr s T) (hx : x ∈ T.inorder) :
    s.key x.addr = some (some x.key) ∧ s.value x.addr = some x.value := by
  obtain ⟨path, c, l, r, rfl⟩ := exists_fill_of_mem hx
  exact ⟨h.focusRep.1.key, h.focusRep.1.value⟩

theorem holdsBlock_iff (hkey : s.key a = some (some x.key))
    (hvalue : s.value a = some x.value) :
    HoldsBlock s a p ↔ p ∈ payloadBlocks x.payload := by
  simp only [HoldsBlock, hkey, hvalue, payloadBlocks, Node.payload,
    Option.some.injEq, List.mem_cons, Option.mem_toList,
    Option.map_eq_some_iff]
  constructor
  · rintro ⟨block, rfl, rfl | hblock⟩
    · exact .inl rfl
    · exact .inr ⟨block, hblock, rfl⟩
  · rintro (rfl | ⟨block, hblock, rfl⟩)
    · exact ⟨x.key, rfl, .inl rfl⟩
    · exact ⟨block, rfl, .inr hblock⟩

end Links

/-! ## The node handed back -/

/-- `rbtree_delete` took `z` out of the tree `T`, left the tree `T'` and
returned `y`. -/
structure HandedBack (T T' : Shape Node) (z : Node) (y : Addr)
    (s s' : Rbtree) : Prop where
  tree : SearchTree s' T'
  nodes : (addrs T).Perm (y :: addrs T')
  key : s'.key y = s.key z.addr
  value : s'.value y = s.value z.addr
  root : s'.root ≠ y
  child : ∀ a ∈ addrs T', ∀ d, s'.child d a ≠ some y
  parent : ∀ a ∈ addrs T', s'.parent a ≠ some y
  pairs : ∃ A B, bindings T = A ++ z.payload :: B ∧ bindings T' = A ++ B
  blocks : ∀ a ∈ addrs T', ∀ p, HoldsBlock s' y p → ¬ HoldsBlock s' a p

section HandedBack

variable {s s' : Rbtree} {T T' : Shape Node} {y z : Node}

/-- For every valid tree and every node of it, what `rbtree_delete` returns can
be released together with its key and value. -/
theorem rbtreeDelete_handsBack (h : OwningTree s T) (hz : z ∈ T.inorder) :
    Returns (rbtreeDelete z.addr) s (fun y s' =>
      ∃ T', HandedBack T T' z y s s') := by
  obtain ⟨hzkey, hzvalue⟩ := h.tree.repr.payload_cells hz
  obtain ⟨path, c, l, r, rfl⟩ := exists_fill_of_mem hz
  have hremoved := h.tree.returns_delete
  have hexchanged := returns_of_yields hremoved
    (rbtreeDelete_exchanges z.addr s)
  apply (hremoved.and hexchanged).mono
  rintro y s' ⟨⟨-, hkeeps, T', A, B, htree, hold, hnew, haddrs⟩, hcells⟩
  obtain ⟨hykey, hyvalue⟩ := exchanged_victim hcells
  have hnodup : (y :: addrs T').Nodup :=
    haddrs.nodup_iff.mp h.tree.repr.nodup
  have hy : y ∉ addrs T' := (List.nodup_cons.mp hnodup).1
  have hynil : y ≠ s'.nil := by
    rw [hkeeps.nil]
    exact h.tree.repr.ne_nil y (haddrs.mem_iff.mpr List.mem_cons_self)
  have hout : ∀ q, (q = s'.nil ∨ q ∈ addrs T') → q ≠ y := by
    rintro q (rfl | hq) rfl
    · exact hynil rfl
    · exact hy hq
  refine ⟨T', htree, haddrs, hykey, hyvalue, ?_, ?_, ?_, ⟨A, B, hold, hnew⟩,
    ?_⟩
  · apply hout
    rw [htree.repr.root]
    exact ptr_nil_or_mem s'.nil T'
  · intro a ha d heq
    obtain ⟨q, hq, hmem⟩ := htree.repr.rep.child_mem ha d
    exact hout q hmem (Option.some.inj (hq.symm.trans heq))
  · intro a ha heq
    obtain ⟨q, hq, hmem⟩ := htree.repr.rep.parent_mem ha
    exact hout q hmem (Option.some.inj (hq.symm.trans heq))
  · intro a ha p hyp hap
    obtain ⟨x, hx, rfl⟩ := List.mem_map.mp ha
    obtain ⟨hxkey, hxvalue⟩ := htree.repr.payload_cells hx
    have hz : p ∈ payloadBlocks z.payload :=
      (holdsBlock_iff (hykey.trans hzkey) (hyvalue.trans hzvalue)).mp hyp
    have hp : p ∈ payloadBlocks x.payload := (holdsBlock_iff hxkey hxvalue).mp hap
    have hxmem : x.payload ∈ A ++ B := hnew ▸ List.mem_map_of_mem hx
    have hunshared := h.unshared
    rw [heldBlocks, bindings, hold, ((List.perm_middle).flatMap_right _).nodup_iff,
      List.flatMap_cons] at hunshared
    exact (List.disjoint_of_nodup_append hunshared) hz
      (List.mem_flatMap.mpr ⟨x.payload, hxmem, hp⟩)

end HandedBack

/-! ## The trees of the engine -/

section Reached

variable {A : Allocator} {s s' : Rbtree} {T T' : Shape Node}
  {key value : CString} {ret : ℤ}

/-- Every key and every value is a live block of its own. -/
def OwnsBlocks (s : Rbtree) (T : Shape Node) : Prop :=
  (heldBlocks T).Subperm s.arena.live

theorem OwnsBlocks.owningTree (h : OwnsBlocks s T) (htree : SearchTree s T) :
    OwningTree s T where
  tree := htree
  unshared := by
    obtain ⟨blocks, hperm, hsub⟩ := h
    exact hperm.nodup_iff.mp (hsub.nodup s.arena.nodup)

theorem OwnsBlocks.next (h : OwnsBlocks s T) (new granted : List Addr)
    (hheld : (heldBlocks T').Subperm (new ++ heldBlocks T))
    (hnew : new.Subperm granted)
    (hlive : s'.arena.live = granted ++ s.arena.live) : OwnsBlocks s' T' := by
  rw [OwnsBlocks, hlive]
  exact hheld.trans (hnew.append h)

theorem SetOutcome.ownsBlocks (h : SetOutcome A key value s s' T ret)
    (hT : OwnsBlocks s T) : ∃ T', SearchTree s' T' ∧ OwnsBlocks s' T' := by
  cases h with
  | @inserted _ T' B C p kp vp _ htree hold hnew _ hlive _ =>
      have hheld : (heldBlocks T').Subperm ([vp, kp] ++ heldBlocks T) := by
        apply List.Perm.subperm
        rw [heldBlocks, heldBlocks, bindings, bindings, hold, hnew,
          List.perm_iff_count]
        intro a
        simp only [List.map_append, List.map_cons, List.flatMap_append,
          List.flatMap_cons, payloadBlocks, Node.payload, Option.map_some,
          Option.toList_some, List.count_append, List.count_cons,
          List.count_nil]
        ring
      refine ⟨T', htree, hT.next _ [vp, kp, p] hheld ?_ hlive⟩
      exact List.Sublist.subperm (by simp)
  | @replaced path c l r x b _ htree _ hlive _ =>
      refine ⟨_, htree, hT.next [b] [b] ?_ (List.Subperm.refl _) hlive⟩
      rw [List.subperm_ext_iff]
      intro a _
      rw [heldBlocks, heldBlocks, bindings_fill, bindings_fill]
      simp only [List.flatMap_append, List.flatMap_cons, payloadBlocks,
        Node.payload, Option.map_some, Option.toList_some, List.count_append,
        List.count_cons, List.count_nil]
      omega
  | @emptied path c l r x _ _ htree _ hlive _ =>
      refine ⟨_, htree, hT.next [] [] ?_ (List.Subperm.refl _) hlive⟩
      rw [List.subperm_ext_iff]
      intro a _
      rw [heldBlocks, heldBlocks, bindings_fill, bindings_fill]
      simp only [List.flatMap_append, List.flatMap_cons, payloadBlocks,
        Node.payload, Option.map_none, Option.toList_none, List.count_append,
        List.count_cons, List.count_nil]
      omega
  | refused _ _ htree _ hlive _ =>
      exact ⟨T, htree, hT.next [] _ (List.Subperm.refl _)
        List.nil_subperm hlive⟩

theorem DelOutcome.ownsBlocks (h : DelOutcome key s s' T ret)
    (htree : SearchTree s T) (hT : OwnsBlocks s T) :
    ∃ T', SearchTree s' T' ∧ OwnsBlocks s' T' := by
  cases h with
  | absent _ heq =>
      subst heq
      exact ⟨T, htree, hT⟩
  | @removed T' z p B C _ htree hold hnew _ _ harena _ =>
      refine ⟨T', htree, hT.next [] [] ?_ List.nil_subperm
        (congrArg Arena.live harena)⟩
      rw [heldBlocks, heldBlocks, bindings, bindings, hold, hnew]
      rw [List.subperm_ext_iff]
      intro a _
      simp only [List.nil_append, List.flatMap_append, List.flatMap_cons,
        List.count_append]
      omega

theorem CallsReach.owningTree (h : CallsReach rbtreeCreate rbtreeCall s) :
    ∃ T, OwningTree s T := by
  have howns : ∃ T, SearchTree s T ∧ OwnsBlocks s T := by
    apply h.treeInvariant
    · intro s s' _
      exact List.nil_subperm
    · intro A key value s s' T ret hset hT
      exact hset.ownsBlocks hT
    · intro key s s' T ret hdel htree hT
      exact hdel.ownsBlocks htree hT
  obtain ⟨T, htree, hT⟩ := howns
  exact ⟨T, hT.owningTree htree⟩

end Reached

/-- The node that is handed back is not the one whose key was asked for: the
root has two children. -/
theorem rbtreeDelete_handsBack_sample : ∃ s T z,
    CallsReach rbtreeCreate rbtreeCall s ∧ TwoChildRoot s z ∧
      Returns (rbtreeDelete (Node.addr z)) s (fun y s' =>
        ∃ T', HandedBack T T' z y s s') := by
  obtain ⟨s, z, hreach, hz⟩ := exists_twoChildRoot
  obtain ⟨T, hT⟩ := hreach.owningTree
  have hmem : z ∈ T.inorder := by
    obtain ⟨l, r, htree, -⟩ := hz
    rw [hT.tree.repr.shape_eq htree.repr]
    simp [Shape.inorder]
  exact ⟨s, T, z, hreach, hz, rbtreeDelete_handsBack hT hmem⟩

end CAdvanced
