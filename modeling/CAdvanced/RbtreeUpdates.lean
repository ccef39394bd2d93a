import CAdvanced.AtomicUpdates

/-!
# Refused requests in `rbtree_set`

A new value is stored before it is tested for null, so a refused request loses
the old one.  A new key takes three blocks: when the second one is refused the
first one stays behind.
-/

namespace CAdvanced

open Fallible
open KeyValue
open RedBlack
open Rbtree

/-- What `rbtree_exist` and `rbtree_get` answer. -/
def rbtreeLook (key : CString) : Exec Rbtree (ℤ × Option CString) := do
  let found ← rbtreeExist key
  let value ← rbtreeGet key
  return (found, value.map CharBlock.str)

/-- The count is as before, and no block came in. -/
structure NothingAdded (s s' : Rbtree) : Prop where
  count : s'.count = s.count
  live : ∀ a ∈ s'.arena.live, a ∈ s.arena.live

/-- The first request of an update of a bound key is granted, and for a new key
the second one if the first one is. -/
structure SetBlocksGranted (A : Allocator) (s : Rbtree) (key : CString) :
    Prop where
  stored : ∀ old, Answers (rbtreeLook key) s (0, some old) →
    A.Grants 1 s.arena
  absent : Answers (rbtreeLook key) s (-1, none) → A.Grants 1 s.arena →
    A.Grants 2 s.arena

/-- What became of the requests for a new key. -/
inductive CopyOutcome (A : Allocator) (s s' : Rbtree) : ℤ → Prop
  | linked (hgrants : A.Grants 3 s.arena) : CopyOutcome A s s' 0
  | unwound (hgrants : A.Grants 1 s.arena → A.Grants 2 s.arena)
      (hlive : ∀ a ∈ s'.arena.live, a ∈ s.arena.live) :
      CopyOutcome A s s' (-1)
  | leaked (hgrants : A.Grants 1 s.arena) (hrefused : ¬ A.Grants 2 s.arena)
      (hlive : ∃ a ∈ s'.arena.live, a ∉ s.arena.live) :
      CopyOutcome A s s' (-1)

/-- The answer to one request, and the arena behind it. -/
inductive Answered (A : Allocator) (r : Arena) : Addr → Arena → Prop
  | refused (hplace : A.place r.requests r.live = none) :
      Answered A r NULL r.refuse
  | granted {a : Addr} (hplace : A.place r.requests r.live = some a) :
      Answered A r a (r.grant a (A.place_fresh hplace))

section Requests

variable {A : Allocator} {s : Rbtree} {T : Shape Node} {key value : CString}

theorem returns_malloc_answered (A : Allocator) (s : Rbtree) :
    Returns (malloc A) s (fun p s' => Answered A s.arena p s'.arena) := by
  apply returns_malloc_or
  · intro hplace
    exact .refused hplace
  · intro a hplace
    exact .granted hplace

theorem returns_mallocNode_answered (A : Allocator) (s : Rbtree) :
    Returns (mallocNode A) s (fun p s' => Answered A s.arena p s'.arena) := by
  rw [mallocNode, returns_bind]
  apply (returns_malloc_answered A s).mono
  intro p s' hp
  rw [returns_ite, returns_bind, returns_modify, returns_pure, returns_pure]
  split_ifs
  · exact hp
  · exact hp

theorem yields_insertCopy (s : Rbtree) :
    Yields (insertCopy A key value) s (fun ret s' =>
      CopyOutcome A s s' ret) := by
  unfold insertCopy
  apply yields_bind
  refine (returns_mallocNode_answered A s).yields.mono ?_
  intro p s₁ hp
  generalize hr₁ : s₁.arena = r₁ at hp
  cases hp with
  | refused hplace =>
      refine yields_pure (.unwound ?_ ?_)
      · intro hgrants
        exact absurd hgrants (not_grants_succ hplace)
      · intro a ha
        rw [hr₁] at ha
        exact ha
  | granted hplace =>
      have hp := A.place_fresh hplace
      rw [if_neg hp.1]
      apply yields_bind
      refine (returns_malloc_answered A s₁).yields.mono ?_
      intro kp s₂ hkp
      rw [hr₁] at hkp
      generalize hr₂ : s₂.arena = r₂ at hkp
      cases hkp with
      | refused hplace' =>
          refine yields_bind (yields_store ?_)
          intro _
          refine yields_pure (.leaked ((grants_succ hplace).mpr trivial) ?_ ?_)
          · intro hgrants
            exact not_grants_succ hplace' ((grants_succ hplace).mp hgrants)
          · refine ⟨p, ?_, hp.2⟩
            rw [withKey_arena, hr₂]
            exact List.mem_cons_self
      | granted hplace' =>
          have hkp := A.place_fresh hplace'
          have htwo : A.Grants 2 s.arena :=
            (grants_succ hplace).mpr ((grants_succ hplace').mpr trivial)
          rw [if_neg hkp.1]
          refine yields_bind (yields_store ?_)
          intro _
          apply yields_bind
          refine (returns_malloc_answered A _).yields.mono ?_
          intro vp s₄ hvp
          rw [withKey_arena, hr₂] at hvp
          generalize hr₄ : s₄.arena = r₄ at hvp
          cases hvp with
          | refused hplace'' =>
              refine yields_bind (yields_store ?_)
              intro _
              refine yields_bind (yields_free hkp.1 ?_)
              refine yields_bind (yields_bind (yields_free hp.1 ?_))
              refine yields_modify (yields_pure (.unwound (fun _ => htwo) ?_))
              intro a ha
              change a ∈ (s₄.arena.live.erase kp).erase p at ha
              rw [hr₄] at ha
              change a ∈ ((kp :: p :: s.arena.live).erase kp).erase p at ha
              rwa [List.erase_cons_head, List.erase_cons_head] at ha
          | granted hplace'' =>
              rw [if_neg (A.place_fresh hplace'').1]
              refine yields_bind (yields_store ?_)
              intro _
              apply yields_bind
              intro _ s₅ _
              refine yields_bind (yields_modify (yields_pure (.linked ?_)))
              exact (grants_succ hplace).mpr ((grants_succ hplace').mpr
                ((grants_succ hplace'').mpr trivial))

/-- The only request for a stored key decides the answer. -/
theorem SearchTree.yields_mod (h : SearchTree s T)
    (hkey : ∃ x ∈ T.inorder, x.text = key) :
    Yields (rbtreeMod A key value) s (fun ret _ =>
      ret = 0 ↔ A.Grants 1 s.arena) := by
  unfold rbtreeMod
  apply yields_bind
  refine (h.returns_exist key).yields.mono ?_
  intro ret s₁ hexist
  obtain ⟨rfl, rfl⟩ := hexist
  rw [if_pos hkey, if_neg (by decide)]
  apply yields_bind
  refine (h.repr.returns_search h.sorted key).yields.mono ?_
  intro node s₂ hsearch
  obtain ⟨rfl, -⟩ := hsearch
  apply yields_bind
  refine (returns_malloc_answered A s₂).yields.mono ?_
  intro b s₃ hb
  generalize s₃.arena = r₃ at hb
  cases hb with
  | refused hplace =>
      refine yields_bind (yields_store ?_)
      intro _
      exact yields_pure (iff_of_false (by decide) (not_grants_succ hplace))
  | granted hplace =>
      rw [if_neg (A.place_fresh hplace).1]
      refine yields_bind (yields_store ?_)
      intro _
      exact yields_pure (iff_of_true rfl ((grants_succ hplace).mpr trivial))

/-- What the answer of `rbtree_set` says about its requests. -/
theorem SearchTree.yields_set (h : SearchTree s T) :
    Yields (rbtreeSet A key value) s (fun ret s' =>
      ((∃ x ∈ T.inorder, x.text = key) → (ret = 0 ↔ A.Grants 1 s.arena)) ∧
        ((∀ x ∈ T.inorder, x.text ≠ key) → CopyOutcome A s s' ret)) := by
  unfold rbtreeSet
  apply yields_bind
  refine (h.returns_exist key).yields.mono ?_
  intro ret s₁ hexist
  obtain ⟨rfl, rfl⟩ := hexist
  by_cases hkey : ∃ x ∈ T.inorder, x.text = key
  · rw [if_pos hkey, if_pos (by decide)]
    apply yields_bind
    refine (h.yields_mod hkey).mono ?_
    intro ret s₂ hret
    obtain ⟨x, hx, htext⟩ := hkey
    have hnew : (∀ x ∈ T.inorder, x.text ≠ key) → ∀ s' ret,
        CopyOutcome A s₁ s' ret :=
      fun habsent => absurd htext (habsent x hx)
    split_ifs with hzero
    · exact yields_pure ⟨fun _ => iff_of_true rfl (hret.mp hzero),
        fun habsent => hnew habsent _ _⟩
    · exact yields_pure ⟨fun _ => iff_of_false (by decide)
        (fun hgrants => hzero (hret.mpr hgrants)),
        fun habsent => hnew habsent _ _⟩
  · rw [if_neg hkey, if_neg (by decide)]
    refine (yields_insertCopy s₁).mono ?_
    intro ret s' hcopy
    exact ⟨fun hstored => absurd hstored hkey, fun _ => hcopy⟩

end Requests

section Updates

variable {A : Allocator} {s s' : Rbtree} {T T' : Shape Node}
  {key value : CString}

/-- The answers for a key that is not stored, or stored with a value pointer. -/
def treeAnswer : Option (Option CString) → ℤ × Option CString
  | none => (-1, none)
  | some value => (0, value)

theorem SearchTree.answers_look (h : SearchTree s T) (key : CString) :
    Answers (rbtreeLook key) s (treeAnswer (boundTo (bindings T) key)) := by
  simp only [Answers, rbtreeLook, returns_bind, returns_pure]
  apply (h.returns_exist key).mono
  intro ret s₁ hexist
  obtain ⟨rfl, rfl⟩ := hexist
  apply (h.returns_get key).mono
  intro p s₂ hget
  cases hget.2 with
  | found hx hkey =>
      rw [if_pos ⟨_, hx, hkey⟩, boundTo_of_mem (bindings_distinct h)
        (List.mem_map_of_mem hx) hkey]
      rfl
  | absent habsent =>
      rw [if_neg, boundTo_eq_none]
      · rfl
      · intro e he
        obtain ⟨x, hx, rfl⟩ := List.mem_map.mp he
        exact habsent x hx
      · intro hstored
        obtain ⟨x, hx, hkey⟩ := hstored
        exact habsent x hx hkey

theorem SearchTree.sameAnswer (h : SearchTree s T) (h' : SearchTree s' T')
    {k : CString} (heq : boundTo (bindings T') k = boundTo (bindings T) k) :
    SameAnswer (rbtreeLook k) s s' :=
  sameAnswer_of_answers (h.answers_look k) (h'.answers_look k)
    (congrArg treeAnswer heq.symm)

theorem SearchTree.answers_stored {x : Node} (h : SearchTree s T)
    (hx : x ∈ T.inorder) (hkey : x.text = key) :
    Answers (rbtreeLook key) s (0, x.value.map CharBlock.str) := by
  have hanswer := h.answers_look key
  rw [boundTo_of_mem (bindings_distinct h) (List.mem_map_of_mem hx) hkey]
    at hanswer
  exact hanswer

theorem SearchTree.answers_absent (h : SearchTree s T)
    (habsent : ∀ x ∈ T.inorder, x.text ≠ key) :
    Answers (rbtreeLook key) s (-1, none) := by
  have hanswer := h.answers_look key
  rw [boundTo_eq_none] at hanswer
  · exact hanswer
  · intro e he
    obtain ⟨x, hx, rfl⟩ := List.mem_map.mp he
    exact habsent x hx

theorem CopyOutcome.grants {ret : ℤ} (h : CopyOutcome A s s' ret)
    (hret : ret = 0) : A.Grants 3 s.arena := by
  cases h with
  | linked hgrants => exact hgrants
  | unwound | leaked => exact absurd hret (by decide)

theorem CopyOutcome.nothingAdded_iff {ret : ℤ} (h : CopyOutcome A s s' ret)
    (hret : ret ≠ 0) :
    (∀ a ∈ s'.arena.live, a ∈ s.arena.live) ↔
      (A.Grants 1 s.arena → A.Grants 2 s.arena) := by
  cases h with
  | linked => exact absurd rfl hret
  | unwound hgrants hlive => exact iff_of_true hlive hgrants
  | leaked hgrants hrefused hlive =>
      refine iff_of_false ?_ (fun himp => hrefused (himp hgrants))
      intro hkept
      obtain ⟨a, ha, hnew⟩ := hlive
      exact hnew (hkept a ha)

/-- A key that was put in is bound. -/
theorem SetOutcome.allOrNothing {ret : ℤ} (h : SearchTree s T)
    (hset : SetOutcome A key value s s' T ret) (hret : ret = 0) :
    AllOrNothing rbtreeLook NothingAdded key (0, some value) s ret s' := by
  obtain ⟨T', htree', hrebinds, hbound⟩ := hset.rebinds h
  obtain ⟨x, hx, hkey, hvalue⟩ := hbound hret
  have hanswer := htree'.answers_stored hx hkey
  rw [hvalue] at hanswer
  subst hret
  apply allOrNothing_done hrebinds (bindings_distinct h) hanswer
  intro k heq
  exact h.sameAnswer htree' heq

theorem setBlocksGranted_stored {x : Node} (h : SearchTree s T)
    (hx : x ∈ T.inorder) (hkey : x.text = key) :
    SetBlocksGranted A s key ↔ (x.value = none ∨ A.Grants 1 s.arena) := by
  have hanswer := h.answers_stored hx hkey
  constructor
  · intro hgranted
    cases hvalue : x.value with
    | none => exact Or.inl rfl
    | some b =>
        right
        apply hgranted.stored b.str
        rw [hvalue] at hanswer
        exact hanswer
  · intro hcond
    refine ⟨?_, ?_⟩
    · intro old hold
      rcases hcond with hnone | hgrants
      · have heq := hanswer.eq_iff.mp hold
        rw [hnone] at heq
        cases heq
      · exact hgrants
    · intro habsent
      have hcode : (0 : ℤ) = -1 :=
        congrArg Prod.fst (hanswer.eq_iff.mp habsent)
      exact absurd hcode (by decide)

theorem setBlocksGranted_absent (h : SearchTree s T)
    (habsent : ∀ x ∈ T.inorder, x.text ≠ key) :
    SetBlocksGranted A s key ↔
      (A.Grants 1 s.arena → A.Grants 2 s.arena) := by
  have hanswer := h.answers_absent habsent
  constructor
  · intro hgranted
    exact hgranted.absent hanswer
  · intro himp
    refine ⟨?_, fun _ => himp⟩
    intro old hold
    have hcode : (-1 : ℤ) = 0 := congrArg Prod.fst (hanswer.eq_iff.mp hold)
    exact absurd hcode (by decide)

/-- The outcome of `rbtree_set`, by what became of its requests. -/
theorem SearchTree.returns_setGranted (h : SearchTree s T) (A : Allocator)
    (key value : CString) :
    Returns (rbtreeSet A key value) s (fun ret s' =>
      AllOrNothing rbtreeLook NothingAdded key (0, some value) s ret s' ↔
        SetBlocksGranted A s key) := by
  have hset := h.returns_set A key value
  apply (hset.and (returns_of_yields hset h.yields_set)).mono
  intro ret s' hs'
  obtain ⟨houtcome, hstored, hcopy⟩ := hs'
  by_cases hret : ret = 0
  · refine iff_of_true (houtcome.allOrNothing h hret) ?_
    by_cases hkey : ∃ x ∈ T.inorder, x.text = key
    · obtain ⟨x, hx, htext⟩ := hkey
      exact (setBlocksGranted_stored h hx htext).mpr
        (Or.inr ((hstored ⟨x, hx, htext⟩).mp hret))
    · have habsent : ∀ x ∈ T.inorder, x.text ≠ key :=
        fun x hx htext => hkey ⟨x, hx, htext⟩
      exact (setBlocksGranted_absent h habsent).mpr
        (fun _ => ((hcopy habsent).grants hret).of_succ)
  · cases houtcome with
    | inserted | replaced => exact absurd rfl hret
    | @refused T lost _ habsent htree' hcount _ _ =>
        rw [setBlocksGranted_absent h habsent,
          ← (hcopy habsent).nothingAdded_iff hret]
        constructor
        · intro hatomic
          exact (hatomic.undone hret).2.live
        · intro hlive
          exact ⟨fun hzero => absurd hzero hret, fun _ =>
            ⟨fun k => h.sameAnswer htree' rfl, ⟨hcount, hlive⟩⟩⟩
    | @emptied path c l r x _ hkey htree' hcount hlive _ =>
        have hx : x ∈ (fill path (.node c l x r)).inorder := by
          simp [inorder_fill, Shape.inorder]
        have hnot : ¬ A.Grants 1 s.arena :=
          fun hgrants => hret ((hstored ⟨x, hx, hkey⟩).mpr hgrants)
        rw [setBlocksGranted_stored h hx hkey, or_iff_left hnot]
        constructor
        · intro hatomic
          have hx' : { x with value := none } ∈
              (fill path (.node c l { x with value := none } r)).inorder := by
            simp [inorder_fill, Shape.inorder]
          have hold := ((hatomic.undone hret).1 key _).mpr
            (h.answers_stored hx hkey)
          have heq := (htree'.answers_stored hx' hkey).eq_iff.mp hold
          have hvalue := congrArg Prod.snd heq
          exact Option.map_eq_none_iff.mp hvalue.symm
        · intro hnone
          have heq : { x with value := none } = x := by
            cases x
            cases hnone
            rfl
          rw [heq] at htree'
          refine ⟨fun hzero => absurd hzero hret, fun _ =>
            ⟨fun k => h.sameAnswer htree' rfl, hcount, ?_⟩⟩
          intro a ha
          rwa [hlive] at ha

end Updates

/-- What `rbtree_set` is to do under failing requests; its failing code is
`-1`. -/
def AtomicSet (key value : CString) (s : Rbtree) (ret : ℤ) (s' : Rbtree) :
    Prop :=
  (ret = 0 ∨ ret = -1) ∧
    AllOrNothing rbtreeLook NothingAdded key (0, some value) s ret s'

theorem SearchTree.returns_atomicSet {s : Rbtree} {T : Shape Node}
    (h : SearchTree s T) (A : Allocator) (key value : CString) :
    Returns (rbtreeSet A key value) s (fun ret s' =>
      AtomicSet key value s ret s' ↔ SetBlocksGranted A s key) := by
  apply ((h.returns_setGranted A key value).and
    (h.returns_set A key value)).mono
  intro ret s' hs'
  obtain ⟨hiff, hset⟩ := hs'
  rw [AtomicSet, and_iff_right hset.code, hiff]

/-- `rbtree_set` binds the key or changes nothing and keeps no block, exactly
when no refused request costs a value or a block. -/
theorem rbtreeSet_atomic_iff {s : Rbtree}
    (h : CallsReach rbtreeCreate rbtreeCall s) (A : Allocator)
    (key value : CString) :
    Returns (rbtreeSet A key value) s (AtomicSet key value s) ↔
      SetBlocksGranted A s key := by
  obtain ⟨T, hT⟩ := h.engineTree
  have hset := hT.tree.returns_atomicSet A key value
  constructor
  · intro hatomic
    obtain ⟨ret, s', -, hatomic, hiff⟩ := hatomic.and hset
    exact hiff.mp hatomic
  · intro hgranted
    exact hset.mono (fun _ _ hiff => hiff.mpr hgranted)

theorem exists_emptyTree : ∃ s, CallsReach rbtreeCreate rbtreeCall s ∧
    Answers (rbtreeLook firstKey) s (-1, none) := by
  obtain ⟨ret, s, hrun, rfl, hcreated⟩ :=
    returns_rbtreeCreate Allocator.above_succeeds blankRbtree
  refine ⟨s, .created hrun, hcreated.tree.answers_absent ?_⟩
  intro x hx
  cases hx

theorem exists_storedNode : ∃ s, CallsReach rbtreeCreate rbtreeCall s ∧
    Answers (rbtreeLook firstKey) s (0, some sampleValue) := by
  obtain ⟨s, hreach, hs⟩ := exists_storedPair firstKey sampleValue
  refine ⟨s, hreach, ?_⟩
  simp only [Answers, rbtreeLook, returns_bind, returns_pure]
  apply (hs.returns_exist firstKey).mono
  intro found s₁ hexist
  obtain ⟨rfl, rfl⟩ := hexist
  apply (hs.returns_get firstKey).mono
  intro value s₂ hget
  rw [hget.2]
  simp

/-- The copy of a new key's value is refused after the node and the copy of
the key were granted; a stored key gets another value. -/
theorem rbtreeSet_atomic_iff_sample :
    (∃ s, CallsReach rbtreeCreate rbtreeCall s ∧
      Answers (rbtreeLook firstKey) s (-1, none) ∧
      ¬ (Allocator.upTo (s.arena.requests + 2)).Grants 3 s.arena ∧
      Returns (rbtreeSet (.upTo (s.arena.requests + 2)) firstKey sampleValue) s
        (AtomicSet firstKey sampleValue s)) ∧
    ∃ s, CallsReach rbtreeCreate rbtreeCall s ∧
      Answers (rbtreeLook firstKey) s (0, some sampleValue) ∧
      Returns (rbtreeSet .above firstKey firstKey) s
        (AtomicSet firstKey firstKey s) := by
  constructor
  · obtain ⟨s, hreach, hlook⟩ := exists_emptyTree
    refine ⟨s, hreach, hlook, Allocator.upTo_refuses (by omega) (by omega),
      (rbtreeSet_atomic_iff hreach _ firstKey sampleValue).mpr ⟨?_, ?_⟩⟩
    · intro _ _
      exact (Allocator.upTo_grants le_rfl).of_succ
    · intro _ _
      exact Allocator.upTo_grants le_rfl
  · obtain ⟨s, hreach, hlook⟩ := exists_storedNode
    refine ⟨s, hreach, hlook,
      (rbtreeSet_atomic_iff hreach .above firstKey firstKey).mpr ⟨?_, ?_⟩⟩
    · intro _ _
      exact Allocator.above_succeeds.grants 1 s.arena
    · intro _ _
      exact Allocator.above_succeeds.grants 2 s.arena

/-- A stored value is lost when no block is left, and the node of a new key
when there is one block left. -/
theorem rbtreeSet_loses :
    (∃ s, CallsReach rbtreeCreate rbtreeCall s ∧
      Answers (rbtreeLook firstKey) s (0, some sampleValue) ∧
      ¬ Returns (rbtreeSet .exhausted firstKey firstKey) s
        (AtomicSet firstKey firstKey s)) ∧
    ∃ s, CallsReach rbtreeCreate rbtreeCall s ∧
      Answers (rbtreeLook firstKey) s (-1, none) ∧
      ¬ Returns (rbtreeSet (.only s.arena.requests) firstKey sampleValue) s
        (AtomicSet firstKey sampleValue s) := by
  constructor
  · obtain ⟨s, hreach, hlook⟩ := exists_storedNode
    obtain ⟨T, hT⟩ := hreach.engineTree
    refine ⟨s, hreach, hlook, ?_⟩
    intro hatomic
    obtain ⟨ret, s', -, hdone, hiff⟩ :=
      hatomic.and (hT.tree.returns_atomicSet .exhausted firstKey firstKey)
    exact Allocator.exhausted_refuses 0 _ ((hiff.mp hdone).stored _ hlook)
  · obtain ⟨s, hreach, hlook⟩ := exists_emptyTree
    obtain ⟨T, hT⟩ := hreach.engineTree
    refine ⟨s, hreach, hlook, ?_⟩
    intro hatomic
    obtain ⟨ret, s', -, hdone, hiff⟩ := hatomic.and
      (hT.tree.returns_atomicSet (.only s.arena.requests) firstKey sampleValue)
    exact Allocator.only_refuses _
      ((hiff.mp hdone).absent hlook (Allocator.only_grants _))

end CAdvanced
