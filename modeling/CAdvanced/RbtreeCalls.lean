import CAdvanced.RbtreeDetach

/-!
# The calls of the tree engine

What the calls do to a search tree and to the live blocks, for every
allocator.  An outcome in which a request was refused says that the allocator
is not one that always succeeds.
-/

namespace CAdvanced

open Fallible
open RedBlack
open Rbtree

/-! ## Work beside the tree -/

/-- Header and live cells are as before. -/
structure Undisturbed (s s' : Rbtree) : Prop where
  root : s'.root = s.root
  nil : s'.nil = s.nil
  count : s'.count = s.count
  cells : ∀ a ∈ s.arena.live, SameCell s s' a

/-- The block at `p` was handed out between `s` and `s'`. -/
structure NewBlock (s s' : Rbtree) (p : Addr) : Prop where
  ne_null : p ≠ NULL
  fresh : p ∉ s.arena.live
  live : s'.arena.live = p :: s.arena.live
  root : s'.root = s.root
  nil : s'.nil = s.nil
  count : s'.count = s.count
  others : ∀ a, a ≠ p → SameCell s s' a

inductive Requested (A : Allocator) (s s' : Rbtree) : Addr → Prop
  | refused (hA : ¬ A.Succeeds) (h : Undisturbed s s')
      (hlive : s'.arena.live = s.arena.live) : Requested A s s' NULL
  | granted {p : Addr} (h : NewBlock s s' p) : Requested A s s' p

section Framing

variable {s s' s'' : Rbtree} {T : Shape Node} {p : Addr}

theorem Undisturbed.refl (s : Rbtree) : Undisturbed s s :=
  ⟨rfl, rfl, rfl, fun a _ => SameCell.refl s a⟩

theorem Undisturbed.trans (h : Undisturbed s s') (h' : Undisturbed s' s'') :
    Undisturbed s s'' where
  root := h'.root.trans h.root
  nil := h'.nil.trans h.nil
  count := h'.count.trans h.count
  cells := fun a ha =>
    (h.cells a ha).trans (h'.cells a ((h.cells a ha).live ha))

/-- Work on a block that is not live in the first state. -/
theorem Undisturbed.beside (h : Undisturbed s s') (hp : p ∉ s.arena.live)
    (hroot : s''.root = s'.root) (hnil : s''.nil = s'.nil)
    (hcount : s''.count = s'.count)
    (hcells : ∀ a, a ≠ p → SameCell s' s'' a) : Undisturbed s s'' where
  root := hroot.trans h.root
  nil := hnil.trans h.nil
  count := hcount.trans h.count
  cells := by
    intro a ha
    apply (h.cells a ha).trans
    apply hcells
    rintro rfl
    exact hp ha

theorem NewBlock.mem (h : NewBlock s s' p) : p ∈ s'.arena.live := by
  rw [h.live]
  exact List.mem_cons_self

theorem NewBlock.undisturbed (h : NewBlock s s' p) : Undisturbed s s' :=
  (Undisturbed.refl s).beside h.fresh h.root h.nil h.count h.others

theorem Undisturbed.withKey (h : Undisturbed s s')
    (hp : p ∉ s.arena.live) (k : CharPtr) :
    Undisturbed s (withKey p k s') := by
  refine h.beside hp rfl rfl rfl ?_
  intro a ha
  constructor <;> simp [Rbtree.withKey, ha]

theorem Undisturbed.withValue (h : Undisturbed s s')
    (hp : p ∉ s.arena.live) (v : CharPtr) :
    Undisturbed s (withValue p v s') := by
  refine h.beside hp rfl rfl rfl ?_
  intro a ha
  constructor <;> simp [Rbtree.withValue, ha]

theorem Undisturbed.forget (h : Undisturbed s s')
    (hp : p ∉ s.arena.live) : Undisturbed s (forget p s') := by
  refine h.beside hp rfl rfl rfl ?_
  intro a ha
  constructor <;> simp [Rbtree.forget, ha]

theorem Undisturbed.release (h : Undisturbed s s')
    (hp : p ∉ s.arena.live) :
    Undisturbed s (HasArena.withArena (s'.arena.release p) s') := by
  refine h.beside hp rfl rfl rfl ?_
  intro a ha
  exact ⟨fun hmem => (List.mem_erase_of_ne ha).mpr hmem, rfl, fun _ => rfl, rfl,
    rfl, rfl⟩

theorem SearchTree.frame (h : SearchTree s T) (hun : Undisturbed s s') :
    SearchTree s' T :=
  ⟨h.repr.frame hun.nil hun.root hun.cells, h.rootBlack, h.balanced, h.sorted⟩

/-- The sentinel is the same block, and its cell was not assigned to, its
parent and its color apart. -/
structure NilKept (s s' : Rbtree) : Prop where
  nil : s'.nil = s.nil
  child : ∀ d, s'.child d s.nil = s.child d s.nil
  key : s'.key s.nil = s.key s.nil
  value : s'.value s.nil = s.value s.nil

theorem NilKept.trans (h : NilKept s s') (h' : NilKept s' s'') :
    NilKept s s'' where
  nil := h'.nil.trans h.nil
  child := fun d => by rw [← h.child d, ← h.nil]; exact h'.child d
  key := by rw [← h.key, ← h.nil]; exact h'.key
  value := by rw [← h.value, ← h.nil]; exact h'.value

theorem NilKept.withCount (h : NilKept s s') (n : ℤ) :
    NilKept s (withCount n s') :=
  ⟨h.nil, h.child, h.key, h.value⟩

theorem KeepsHeader.nilKept (h : KeepsHeader s s') : NilKept s s' :=
  ⟨h.nil, h.child, h.key, h.value⟩

theorem Undisturbed.nilKept (h : Undisturbed s s')
    (hnil : s.nil ∈ s.arena.live) : NilKept s s' :=
  ⟨h.nil, (h.cells _ hnil).child, (h.cells _ hnil).key,
    (h.cells _ hnil).value⟩

end Framing

section Alloc

variable (A : Allocator) (s : Rbtree)

theorem returns_mallocText :
    Returns (malloc A) s (fun p s' => Requested A s s' p) := by
  apply returns_malloc_or
  · intro hplace
    exact .refused (not_succeeds_of_place hplace) ⟨rfl, rfl, rfl, fun a _ =>
      ⟨id, rfl, fun _ => rfl, rfl, rfl, rfl⟩⟩ rfl
  · intro p hplace
    have hp := A.place_fresh hplace
    exact .granted
      { ne_null := hp.1
        fresh := hp.2
        live := rfl
        root := rfl
        nil := rfl
        count := rfl
        others := fun a _ =>
          ⟨List.mem_cons_of_mem p, rfl, fun _ => rfl, rfl, rfl, rfl⟩ }

/-- No field of the node was assigned. -/
structure Blank (s : Rbtree) (p : Addr) : Prop where
  child : ∀ d, s.child d p = none
  parent : s.parent p = none
  value : s.value p = none

theorem returns_mallocNode :
    Returns (mallocNode A) s (fun p s' =>
      Requested A s s' p ∧ (p ≠ NULL → Blank s' p)) := by
  simp only [mallocNode, returns_bind]
  apply (returns_mallocText A s).mono
  intro p s' hrequest
  cases hrequest with
  | refused hA h hlive =>
      simp only [reduceIte, returns_pure]
      exact ⟨.refused hA h hlive, fun hne => absurd rfl hne⟩
  | granted h =>
      simp only [h.ne_null, reduceIte, returns_bind, returns_modify,
        returns_pure]
      refine ⟨.granted ⟨h.ne_null, h.fresh, h.live, h.root, h.nil, h.count, ?_⟩,
        ?_⟩
      · intro a ha
        apply (h.others a ha).trans
        constructor <;> simp [forget, ha]
      · intro _
        constructor <;> simp [forget]

end Alloc

/-- What `rbtree_create` leaves: an empty tree, and a sentinel with a key and a
color and no other field. -/
structure Created (s s' : Rbtree) : Prop where
  tree : SearchTree s' .leaf
  count : s'.count = 0
  key : ∃ kp, s'.key s'.nil = some (some ⟨kp, default⟩) ∧
    s'.arena.live = kp :: s'.nil :: s.arena.live
  child : ∀ d, s'.child d s'.nil = none
  parent : s'.parent s'.nil = none
  value : s'.value s'.nil = none

section Create

variable {s s₁ s₂ : Rbtree} {nil kp : Addr}

/-- The state behind the assignments to the sentinel. -/
def sealed (nil kp : Addr) (s : Rbtree) : Rbtree :=
  withCount 0 (withRoot nil (withColor nil .black
    (withKey nil (some ⟨kp, default⟩) s)))

theorem created_sealed {s₀ : Rbtree} (harena : s₀.arena = s.arena)
    (hnew : NewBlock s₀ s₁ nil) (hnil : Blank s₁ nil)
    (hkp : NewBlock (withNil nil s₁) s₂ kp) : Created s (sealed nil kp s₂) := by
  have hne : nil ≠ kp := by
    rintro rfl
    exact hkp.fresh hnew.mem
  have hcell := hkp.others nil hne
  have hnilField : (sealed nil kp s₂).nil = nil := hkp.nil
  have hlive : (sealed nil kp s₂).arena.live = kp :: nil :: s.arena.live := by
    change s₂.arena.live = _
    rw [hkp.live, withNil_arena, hnew.live, harena]
  constructor
  · refine ⟨⟨?_, trivial, by simp, ?_, ?_⟩, rfl, ⟨0, rfl⟩, List.Pairwise.nil⟩
    · rw [hnilField]
      rfl
    · rw [hnilField]
      simp [sealed]
    · rw [hnilField, hlive]
      simp
  · rfl
  · rw [hnilField]
    exact ⟨kp, by simp [sealed], hlive⟩
  · intro d
    rw [hnilField]
    exact (hcell.child d).trans (hnil.child d)
  · rw [hnilField]
    exact hcell.parent.trans hnil.parent
  · rw [hnilField]
    exact hcell.value.trans hnil.value

variable (A : Allocator)

/-- `rbtree_create` writes through a null pointer when a request is refused. -/
theorem yields_rbtreeCreate (s : Rbtree) :
    Yields (rbtreeCreate A) s (fun ret s' => ret = 0 ∧ Created s s') := by
  unfold rbtreeCreate
  refine yields_bind (yields_modify (yields_bind ?_))
  refine (returns_mallocNode A _).yields.mono ?_
  intro nil s₁ hnode
  obtain ⟨hrequest, hblank⟩ := hnode
  refine yields_bind (yields_modify (yields_bind ?_))
  refine (returns_mallocText A _).yields.mono ?_
  intro kp s₂ hkey
  cases hkey with
  | refused hA hun hlive =>
      simp only [reduceIte]
      exact yields_throw _ _ _
  | granted hkp =>
      simp only [hkp.ne_null, reduceIte]
      cases hrequest with
      | refused hA hun hlive =>
          refine yields_bind (yields_store ?_)
          intro hguard
          have hnull := s₂.arena.null_notMem
          simp [isLive, hnull] at hguard
      | granted hnew =>
          have hlive : nil ∈ s₂.arena.live :=
            (hkp.undisturbed.cells nil hnew.mem).live hnew.mem
          apply Returns.yields
          simp only [returns_bind, returns_modify, returns_pure, setKey,
            setColor, setRoot, returns_store, isLive, hlive, withKey_arena,
            decide_true, true_and]
          exact created_sealed (by rfl) hnew (hblank hnew.ne_null) hkp

end Create

/-! ## Lookups -/

/-- The blocks that hold a node, its key and its value. -/
def Node.blocks (x : Node) : List Addr :=
  x.addr :: x.key.addr :: (x.value.map CharBlock.addr).toList

section Calls

variable {s : Rbtree} {T : Shape Node} {key : CString} {path : Path Node}
  {c : Color} {l r : Shape Node} {x : Node}

theorem Located.mem_iff {p : Addr} (h : Located s.nil T key p)
    (hrepr : Repr s T) :
    p ≠ s.nil ↔ ∃ x ∈ T.inorder, x.text = key := by
  cases h with
  | @found path c l r x hT hkey _ =>
      subst hT
      refine iff_of_true hrepr.focusRep.1.ne_nil ⟨x, ?_, hkey⟩
      rw [inorder_fill]
      simp [Shape.inorder]
  | absent hT =>
      refine iff_of_false (fun hne => hne rfl) ?_
      intro hx
      obtain ⟨x, hx, hkey⟩ := hx
      exact hT x hx hkey

theorem SearchTree.returns_exist (h : SearchTree s T) (key : CString) :
    Returns (rbtreeExist key) s (fun ret s' => s' = s ∧
      ret = if ∃ x ∈ T.inorder, x.text = key then 0 else -1) := by
  simp only [rbtreeExist, nilOf, returns_bind]
  apply (h.repr.returns_search h.sorted key).mono
  intro p s' hsearch
  obtain ⟨rfl, hloc⟩ := hsearch
  have hiff := hloc.mem_iff h.repr
  simp only [returns_get, returns_pure]
  by_cases hp : p ≠ s'.nil
  · rw [if_pos hp, if_pos (hiff.mp hp), returns_pure]
    exact ⟨rfl, rfl⟩
  · rw [if_neg hp, if_neg (fun hx => hp (hiff.mpr hx)), returns_pure]
    exact ⟨rfl, rfl⟩

inductive GetOutcome (T : Shape Node) (key : CString) : CharPtr → Prop
  | found {x : Node} (hx : x ∈ T.inorder) (hkey : x.text = key) :
      GetOutcome T key x.value
  | absent (habsent : ∀ x ∈ T.inorder, x.text ≠ key) : GetOutcome T key none

theorem SearchTree.returns_get (h : SearchTree s T) (key : CString) :
    Returns (rbtreeGet key) s (fun ret s' =>
      s' = s ∧ GetOutcome T key ret) := by
  simp only [rbtreeGet, nilOf, returns_bind]
  apply (h.repr.returns_search h.sorted key).mono
  intro p s' hsearch
  obtain ⟨rfl, hloc⟩ := hsearch
  simp only [Fallible.returns_get, returns_pure]
  cases hloc with
  | @found path c l r x hT hkey _ =>
      subst hT
      have hcell := h.repr.focusRep.1
      simp only [hcell.ne_nil, reduceIte, valuePtrOf, returns_load,
        hcell.value, Option.some.injEq, exists_eq_left', true_and]
      refine .found ?_ hkey
      rw [inorder_fill]
      simp [Shape.inorder]
  | absent hT =>
      simp only [reduceIte, returns_pure, true_and]
      exact .absent hT

/-! ## Updates -/

theorem SearchTree.afterSetValue
    (h : SearchTree s (fill path (.node c l x r))) (v : CharPtr) :
    SearchTree (withValue x.addr v s)
      (fill path (.node c l { x with value := v } r)) := by
  have hroot : (Shape.node c l { x with value := v } r).rootColor =
      (Shape.node c l x r).rootColor := rfl
  obtain ⟨hcolor, hbal⟩ := balanced_fill_congr path hroot
    (fun n => by cases c <;> rfl)
  refine ⟨?_, hcolor.trans h.rootBlack, ?_, ?_⟩
  · apply h.repr.relabel
    · rfl
    · rfl
    · rfl
    · exact ⟨id, rfl, fun _ => rfl, rfl, rfl, rfl⟩
    · simpa using h.repr.focusRep.1.key
    · simp
    · intro a ha _
      constructor <;> simp [withValue, ha]
  · obtain ⟨n, hn⟩ := h.balanced
    exact ⟨n, (hbal n).mpr hn⟩
  · refine sortedBy_congr ?_ h.sorted
    simp [inorder_fill, Shape.inorder]

theorem SearchTree.nilKept_withValue
    (h : SearchTree s (fill path (.node c l x r))) (v : CharPtr) :
    NilKept s (withValue x.addr v s) := by
  have hne := h.repr.focusRep.1.ne_nil.symm
  constructor <;> simp [hne]

inductive SetOutcome (A : Allocator) (key value : CString) (s s' : Rbtree) :
    Shape Node → ℤ → Prop
  | inserted {T T' : Shape Node} {B C : List Node} {p kp vp : Addr}
      (habsent : ∀ x ∈ T.inorder, x.text ≠ key)
      (htree : SearchTree s' T') (hold : T.inorder = B ++ C)
      (hnew : T'.inorder = B ++ ⟨p, ⟨kp, key⟩, some ⟨vp, value⟩⟩ :: C)
      (hcount : s'.count = s.count + 1)
      (hlive : s'.arena.live = vp :: kp :: p :: s.arena.live)
      (hnil : NilKept s s') : SetOutcome A key value s s' T 0
  | replaced {path : Path Node} {c : Color} {l r : Shape Node} {x : Node}
      {b : Addr} (hkey : x.text = key)
      (htree : SearchTree s'
        (fill path (.node c l { x with value := some ⟨b, value⟩ } r)))
      (hcount : s'.count = s.count)
      (hlive : s'.arena.live = b :: s.arena.live) (hnil : NilKept s s') :
      SetOutcome A key value s s' (fill path (.node c l x r)) 0
  | emptied {path : Path Node} {c : Color} {l r : Shape Node} {x : Node}
      (hA : ¬ A.Succeeds) (hkey : x.text = key)
      (htree : SearchTree s' (fill path (.node c l { x with value := none } r)))
      (hcount : s'.count = s.count)
      (hlive : s'.arena.live = s.arena.live) (hnil : NilKept s s') :
      SetOutcome A key value s s' (fill path (.node c l x r)) (-1)
  | refused {T : Shape Node} {lost : List Addr} (hA : ¬ A.Succeeds)
      (habsent : ∀ x ∈ T.inorder, x.text ≠ key) (htree : SearchTree s' T)
      (hcount : s'.count = s.count)
      (hlive : s'.arena.live = lost ++ s.arena.live) (hnil : NilKept s s') :
      SetOutcome A key value s s' T (-1)

theorem SetOutcome.code {A : Allocator} {s' : Rbtree} {value : CString}
    {ret : ℤ} (h : SetOutcome A key value s s' T ret) :
    ret = 0 ∨ ret = -1 := by
  cases h with
  | inserted | replaced => exact Or.inl rfl
  | emptied | refused => exact Or.inr rfl

variable (A : Allocator)

theorem SearchTree.returns_mod (h : SearchTree s T)
    (hkey : ∃ x ∈ T.inorder, x.text = key) (value : CString) :
    Returns (rbtreeMod A key value) s (fun ret s' =>
      SetOutcome A key value s s' T ret) := by
  simp only [rbtreeMod, returns_bind]
  apply (h.returns_exist key).mono
  intro ret s₁ hexist
  obtain ⟨rfl, rfl⟩ := hexist
  rw [if_pos hkey]
  simp only [show (0 : ℤ) ≠ -1 by decide, reduceIte, returns_bind]
  apply (h.repr.returns_search h.sorted key).mono
  intro p s₂ hsearch
  obtain ⟨rfl, hloc⟩ := hsearch
  cases hloc with
  | absent hT => exact absurd rfl (((Located.absent hT).mem_iff h.repr).mpr hkey)
  | @found path c l r x hT hx _ =>
      subst hT
      have hnilLive := h.repr.nilLive
      have hcell := h.repr.focusRep.1
      apply (returns_mallocText A s₂).mono
      intro b s₃ hrequest
      cases hrequest with
      | refused hA hun hlive =>
          have htree := h.frame hun
          have hxlive : x.addr ∈ s₃.arena.live :=
            (hun.cells _ hcell.live).live hcell.live
          simp only [reduceIte, setValue, returns_bind, returns_store, isLive,
            hxlive, decide_true, true_and, returns_pure]
          exact .emptied hA hx (htree.afterSetValue none) hun.count hlive
            ((hun.nilKept hnilLive).trans (htree.nilKept_withValue none))
      | granted hnew =>
          have hun := hnew.undisturbed
          have htree := h.frame hun
          have hxlive : x.addr ∈ s₃.arena.live :=
            (hun.cells _ hcell.live).live hcell.live
          simp only [hnew.ne_null, reduceIte, setValue, returns_bind,
            returns_store, isLive, hxlive, decide_true, true_and, returns_pure]
          exact .replaced hx (htree.afterSetValue _) hun.count hnew.live
            ((hun.nilKept hnilLive).trans (htree.nilKept_withValue _))

/-- The node of `rbtree_set` goes into the tree. -/
theorem SearchTree.returns_insertNode {s₀ : Rbtree} {c : Metered}
    {p kp vp : Addr} {value : CString} (h : SearchTree s₀ T)
    (habsent : ∀ x ∈ T.inorder, x.text ≠ key) (hun : Undisturbed s₀ c.tree)
    (hfresh : p ∉ s₀.arena.live) (hplive : p ∈ c.tree.arena.live)
    (hlive : c.tree.arena.live = vp :: kp :: p :: s₀.arena.live)
    (hpkey : c.tree.key p = some (some ⟨kp, key⟩))
    (hpvalue : c.tree.value p = some (some ⟨vp, value⟩)) :
    Returns (do
        Metered.rbtreeInsert p
        Metered.run (modify (fun s => withCount (s.count + 1) s))
        return 0) c (fun ret c' =>
          SetOutcome A key value s₀ c'.tree T ret ∧
            c.Within ((T.height + 1) / 2) 2 c') := by
  have hz : Unlinked c.tree T ⟨p, ⟨kp, key⟩, some ⟨vp, value⟩⟩ :=
    { fresh := fun hmem => hfresh (h.repr.live p hmem)
      ne_nil := by
        rw [hun.nil]
        rintro rfl
        exact hfresh h.repr.nilLive
      live := hplive
      key := hpkey
      value := hpvalue }
  rw [returns_bind]
  apply ((h.frame hun).returns_insert hz habsent).mono
  rintro _ c' ⟨⟨B, C, hold, hkeeps, T', htree, hnew⟩, hwithin⟩
  simp only [returns_bind, Metered.returns_run, returns_modify, returns_pure]
  refine ⟨?_, hwithin.turns, hwithin.rotations⟩
  refine .inserted habsent ⟨htree.repr.frame rfl rfl ?_, htree.rootBlack,
    htree.balanced, htree.sorted⟩ hold hnew ?_ ?_ ?_
  · intro a _
    exact ⟨id, rfl, fun _ => rfl, rfl, rfl, rfl⟩
  · rw [Metered.withTree_tree, withCount_count, hkeeps.count, hun.count]
  · rw [Metered.withTree_tree, withCount_arena, hkeeps.arena, hlive]
  · exact ((hun.nilKept h.repr.nilLive).trans hkeeps.nilKept).withCount _

theorem SearchTree.returns_insertCopy {c : Metered} (h : SearchTree c.tree T)
    (habsent : ∀ x ∈ T.inorder, x.text ≠ key) (value : CString) :
    Returns (Metered.insertCopy A key value) c (fun ret c' =>
      SetOutcome A key value c.tree c'.tree T ret ∧
        c.Within ((T.height + 1) / 2) 2 c') := by
  have hrefused : ∀ (s' : Rbtree) (lost : List Addr), ¬ A.Succeeds →
      Undisturbed c.tree s' → s'.arena.live = lost ++ c.tree.arena.live →
      SetOutcome A key value c.tree s' T (-1) ∧
        c.Within ((T.height + 1) / 2) 2 (c.withTree s') := by
    intro s' lost hA hun hlive
    exact ⟨.refused hA habsent (h.frame hun) hun.count hlive
      (hun.nilKept h.repr.nilLive), c.within_withTree s' _ _⟩
  simp only [Metered.insertCopy, returns_bind, Metered.returns_run]
  apply (returns_mallocNode A c.tree).mono
  intro p s₁ hnode
  cases hnode.1 with
  | refused hA hun hlive =>
      simp only [reduceIte, returns_pure]
      exact hrefused s₁ [] hA hun hlive
  | granted hp =>
      have hun₁ := hp.undisturbed
      simp only [hp.ne_null, reduceIte, returns_bind, Metered.returns_run]
      apply (returns_mallocText A s₁).mono
      intro kp s₂ hrequest
      cases hrequest with
      | refused hA hun hlive =>
          have hplive : p ∈ s₂.arena.live := (hun.cells p hp.mem).live hp.mem
          simp only [reduceIte, setKey, returns_bind, Metered.returns_run,
            Metered.withTree_tree, returns_store, isLive, hplive, decide_true,
            true_and, returns_pure]
          apply hrefused _ [p] hA ((hun₁.trans hun).withKey hp.fresh none)
          rw [withKey_arena, hlive, hp.live]
          rfl
      | granted hkp =>
          have hplive₂ : p ∈ s₂.arena.live :=
            (hkp.undisturbed.cells p hp.mem).live hp.mem
          have hun₂ := (hun₁.trans hkp.undisturbed).withKey hp.fresh
            (some ⟨kp, key⟩)
          have hkpfresh : kp ∉ c.tree.arena.live := by
            intro hmem
            exact hkp.fresh ((hun₁.cells kp hmem).live hmem)
          simp only [hkp.ne_null, reduceIte, setKey, returns_bind,
            Metered.returns_run, Metered.withTree_tree, returns_store, isLive,
            hplive₂, decide_true, true_and]
          apply (returns_mallocText A _).mono
          intro vp s₄ hrequest
          cases hrequest with
          | refused hA hun hlive =>
              have hlive₄ : s₄.arena.live = kp :: p :: c.tree.arena.live := by
                rw [hlive, withKey_arena, hkp.live, hp.live]
              have hplive₄ : p ∈ s₄.arena.live := by simp [hlive₄]
              simp only [reduceIte, setValue, freeNode, returns_bind,
                Metered.returns_run, Metered.withTree_tree, returns_store,
                isLive, hplive₄, decide_true, true_and]
              have hun₄ := (hun₂.trans hun).withValue hp.fresh none
              apply returns_free hkp.ne_null
              · change kp ∈ s₄.arena.live
                simp [hlive₄]
              have hreleased : s₄.arena.live.erase kp = p :: c.tree.arena.live := by
                rw [hlive₄, List.erase_cons_head]
              apply returns_free hp.ne_null
              · change p ∈ s₄.arena.live.erase kp
                simp [hreleased]
              simp only [returns_modify, returns_pure]
              apply hrefused _ [] hA
                (((hun₄.release hkpfresh).release hp.fresh).forget hp.fresh)
              change (s₄.arena.live.erase kp).erase p = c.tree.arena.live
              rw [hreleased, List.erase_cons_head]
          | granted hvp =>
              have hpvp : p ≠ vp := by
                rintro rfl
                exact hvp.fresh hplive₂
              have hcell := hvp.others p hpvp
              simp only [hvp.ne_null, reduceIte, setValue, returns_bind,
                Metered.returns_run, Metered.withTree_tree,
                Metered.withTree_withTree, returns_store, isLive,
                hcell.live hplive₂, decide_true, true_and]
              have hun₄ := (hun₂.trans hvp.undisturbed).withValue hp.fresh
                (some ⟨vp, value⟩)
              have hlive₄ : (withValue p (some ⟨vp, value⟩) s₄).arena.live =
                  vp :: kp :: p :: c.tree.arena.live := by
                rw [withValue_arena, hvp.live, withKey_arena, hkp.live,
                  hp.live]
              have hkey₄ : (withValue p (some ⟨vp, value⟩) s₄).key p =
                  some (some ⟨kp, key⟩) := by
                simpa using hcell.key
              have hvalue₄ : (withValue p (some ⟨vp, value⟩) s₄).value p =
                  some (some ⟨vp, value⟩) := by
                simp
              have hinsert := h.returns_insertNode A
                (c := c.withTree (withValue p (some ⟨vp, value⟩) s₄))
                habsent hun₄ hp.fresh (hcell.live hplive₂) hlive₄ hkey₄ hvalue₄
              have hset := hinsert.mono (Q := fun ret c' =>
                SetOutcome A key value c.tree c'.tree T ret ∧
                  c.Within ((T.height + 1) / 2) 2 c')
                (fun _ _ h => ⟨h.1, h.2.of_withTree⟩)
              simpa only [returns_bind, Metered.returns_run] using hset

theorem SearchTree.returns_meteredSet {c : Metered} (h : SearchTree c.tree T)
    (key value : CString) :
    Returns (Metered.rbtreeSet A key value) c (fun ret c' =>
      SetOutcome A key value c.tree c'.tree T ret ∧
        c.Within ((T.height + 1) / 2) 2 c') := by
  simp only [Metered.rbtreeSet, returns_bind, Metered.returns_run]
  apply (h.returns_exist key).mono
  intro ret s₁ hexist
  obtain ⟨rfl, rfl⟩ := hexist
  rw [Metered.withTree_self]
  by_cases hkey : ∃ x ∈ T.inorder, x.text = key
  · rw [if_pos hkey]
    simp only [ne_eq, show (0 : ℤ) ≠ -1 by decide, not_false_eq_true,
      reduceIte, returns_bind, Metered.returns_run]
    apply (h.returns_mod A hkey value).mono
    intro ret s₂ hset
    have hwithin := c.within_withTree s₂ ((T.height + 1) / 2) 2
    rcases hset.code with rfl | rfl
    · simpa using ⟨hset, hwithin⟩
    · simpa using ⟨hset, hwithin⟩
  · rw [if_neg hkey]
    simp only [ne_eq, not_true_eq_false, reduceIte]
    apply h.returns_insertCopy A _ value
    intro x hx htext
    exact hkey ⟨x, hx, htext⟩

theorem SearchTree.returns_set (h : SearchTree s T) (key value : CString) :
    Returns (rbtreeSet A key value) s (fun ret s' =>
      SetOutcome A key value s s' T ret) := by
  have hstart : SearchTree (Metered.start s).tree T := h
  exact (rbtreeSet_mirrors A key value).returns
    (hstart.returns_meteredSet A key value) (fun _ _ hset => hset.1)

inductive DelOutcome (key : CString) (s s' : Rbtree) (T : Shape Node) :
    ℤ → Prop
  | absent (habsent : ∀ x ∈ T.inorder, x.text ≠ key) (h : s' = s) :
      DelOutcome key s s' T (-1)
  | removed {T' : Shape Node} {z : Node} {p : Addr}
      {B C : List (CharBlock × CharPtr)} (hkey : z.text = key)
      (htree : SearchTree s' T')
      (hold : T.inorder.map Node.payload = B ++ z.payload :: C)
      (hnew : T'.inorder.map Node.payload = B ++ C)
      (haddrs : (addrs T).Perm (p :: addrs T'))
      (hcount : s'.count = s.count - 1) (harena : s'.arena = s.arena)
      (hnil : NilKept s s') : DelOutcome key s s' T 0

theorem SearchTree.returns_meteredDel {c : Metered} (h : SearchTree c.tree T)
    (key : CString) :
    Returns (Metered.rbtreeDel key) c (fun ret c' =>
      DelOutcome key c.tree c'.tree T ret ∧ c.Within T.height 3 c') := by
  simp only [Metered.rbtreeDel, nilOf, returns_bind, Metered.returns_run]
  apply (h.repr.returns_search h.sorted key).mono
  intro p s₁ hsearch
  obtain ⟨rfl, hloc⟩ := hsearch
  simp only [Metered.withTree_self, Fallible.returns_get, returns_pure]
  cases hloc with
  | absent hT =>
      simp only [reduceIte, returns_pure]
      exact ⟨.absent hT rfl, c.within_withTree c.tree _ _⟩
  | @found path cx l r x hT hx _ =>
      subst hT
      simp only [h.repr.focusRep.1.ne_nil, reduceIte, returns_bind]
      apply h.returns_meteredDelete.mono
      rintro y c₂ ⟨hlive, ⟨hkeeps, T', B, C, htree, hold, hnew, haddrs⟩,
        hwithin⟩
      have hnull : y ≠ NULL := by
        rintro rfl
        exact c.tree.arena.null_notMem hlive
      simp only [hnull, reduceIte, returns_bind, Metered.returns_run,
        returns_modify, returns_pure]
      refine ⟨?_, hwithin.turns, hwithin.rotations⟩
      refine .removed hx ⟨htree.repr.frame rfl rfl ?_, htree.rootBlack,
        htree.balanced, htree.sorted⟩ hold hnew haddrs ?_ ?_ ?_
      · intro a _
        exact ⟨id, rfl, fun _ => rfl, rfl, rfl, rfl⟩
      · rw [Metered.withTree_tree, withCount_count, hkeeps.count]
      · rw [Metered.withTree_tree, withCount_arena, hkeeps.arena]
      · exact hkeeps.nilKept.withCount _

theorem SearchTree.returns_del (h : SearchTree s T) (key : CString) :
    Returns (rbtreeDel key) s (fun ret s' => DelOutcome key s s' T ret) := by
  have hstart : SearchTree (Metered.start s).tree T := h
  exact (rbtreeDel_mirrors key).returns (hstart.returns_meteredDel key)
    (fun _ _ hdel => hdel.1)

end Calls

end CAdvanced
