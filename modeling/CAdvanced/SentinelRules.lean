import CAdvanced.SentinelAccess
import CAdvanced.TrackedExecution

/-!
# A watched run beside the plain one

What every access of the watched engine does where the plain one succeeds.
The sentinel has no children, so a node whose child was read is none of it, and
it is black, so a red node is none either.
-/

namespace CAdvanced

open Fallible
open KeyValue
open RedBlack
open Rbtree
open NodeAccess

/-- The states of a plain and a watched run.  They may differ in the sentinel's
parent unless it is `synced`. -/
structure Watched (n : Addr) (synced : Prop) (s t : Rbtree) : Prop where
  same : ∃ parent, t = withParents parent s
  parent : ∀ p ≠ n, t.parent p = s.parent p
  synced : synced → t.parent n = s.parent n
  nil : s.nil = n
  color : s.color n = some .black
  child : ∀ d, s.child d n = none
  value : s.value n = none
  live : n ∈ s.arena.live

section Updates

variable {n p q : Addr} {synced : Prop} {s t : Rbtree}

theorem Watched.withColor (h : Watched n synced s t) {c : Color}
    (hblack : p = n → c = .black) :
    Watched n synced (withColor p c s) (withColor p c t) := by
  obtain ⟨parent, rfl⟩ := h.same
  refine ⟨⟨parent, rfl⟩, h.parent, h.synced, h.nil, ?_, h.child, h.value,
    h.live⟩
  by_cases hp : n = p
  · subst hp
    simp [hblack rfl]
  · simp [hp, h.color]

theorem Watched.withChild (h : Watched n synced s t) (hne : p ≠ n) {d : Dir} :
    Watched n synced (withChild d p q s) (withChild d p q t) := by
  obtain ⟨parent, rfl⟩ := h.same
  refine ⟨⟨parent, rfl⟩, h.parent, h.synced, h.nil, h.color, ?_, h.value,
    h.live⟩
  intro e
  rw [child_withChild_of_ne d e q s hne.symm]
  exact h.child e

/-- A write to the parent of any node, the sentinel among them. -/
theorem Watched.withParent (h : Watched n synced s t) {synced' : Prop}
    (hsynced : synced' → synced ∨ p = n) :
    Watched n synced' (withParent p q s) (withParent p q t) := by
  obtain ⟨parent, rfl⟩ := h.same
  refine ⟨⟨_, rfl⟩, ?_, ?_, h.nil, h.color, h.child, h.value, h.live⟩
  · intro a ha
    by_cases hp : a = p
    · simp [hp]
    · simpa [hp] using h.parent a ha
  · intro hs
    by_cases hp : n = p
    · simp [hp]
    · rcases hsynced hs with hold | heq
      · simpa [hp] using h.synced hold
      · exact absurd heq.symm hp

theorem Watched.withKey (h : Watched n synced s t) {k : CharPtr} :
    Watched n synced (withKey p k s) (withKey p k t) := by
  obtain ⟨parent, rfl⟩ := h.same
  exact ⟨⟨parent, rfl⟩, h.parent, h.synced, h.nil, h.color, h.child, h.value,
    h.live⟩

theorem Watched.withValue (h : Watched n synced s t) (hne : p ≠ n)
    {v : CharPtr} : Watched n synced (withValue p v s) (withValue p v t) := by
  obtain ⟨parent, rfl⟩ := h.same
  refine ⟨⟨parent, rfl⟩, h.parent, h.synced, h.nil, h.color, h.child, ?_,
    h.live⟩
  simp [hne.symm, h.value]

theorem Watched.withRoot (h : Watched n synced s t) :
    Watched n synced (withRoot p s) (withRoot p t) := by
  obtain ⟨parent, rfl⟩ := h.same
  exact ⟨⟨parent, rfl⟩, h.parent, h.synced, h.nil, h.color, h.child, h.value,
    h.live⟩

theorem Watched.withCount (h : Watched n synced s t) (count : ℤ) :
    Watched n synced (withCount count s) (withCount count t) := by
  obtain ⟨parent, rfl⟩ := h.same
  exact ⟨⟨parent, rfl⟩, h.parent, h.synced, h.nil, h.color, h.child, h.value,
    h.live⟩

theorem Watched.withArena (h : Watched n synced s t) {r : Arena}
    (hlive : n ∈ r.live) :
    Watched n synced (HasArena.withArena r s) (HasArena.withArena r t) := by
  obtain ⟨parent, rfl⟩ := h.same
  exact ⟨⟨parent, rfl⟩, h.parent, h.synced, h.nil, h.color, h.child, h.value,
    hlive⟩

theorem Watched.forget (h : Watched n synced s t) (hne : p ≠ n) :
    Watched n synced (forget p s) (forget p t) := by
  obtain ⟨parent, rfl⟩ := h.same
  refine ⟨⟨_, rfl⟩, ?_, ?_, h.nil, ?_, ?_, ?_, h.live⟩
  · intro a ha
    by_cases hp : a = p
    · simp [Rbtree.forget, hp]
    · simpa [Rbtree.forget, hp] using h.parent a ha
  · intro hs
    simpa [Rbtree.forget, hne.symm] using h.synced hs
  · simp [Rbtree.forget, hne.symm, h.color]
  · intro d
    simp [Rbtree.forget, hne.symm, h.child]
  · simp [Rbtree.forget, hne.symm, h.value]

end Updates

section Rules

variable {n p q : Addr} {synced : Prop} {s t : Rbtree}

theorem Watched.tracks_nilOf (h : Watched n synced s t)
    {Q : Addr → Rbtree → Rbtree → Prop} (hQ : Q n s t) :
    Tracks nilOf nilOf s t Q := by
  obtain ⟨parent, rfl⟩ := h.same
  have hnil := h.nil
  subst hnil
  exact tracks_pure hQ

theorem Watched.tracks_rootOf (h : Watched n synced s t)
    {Q : Addr → Rbtree → Rbtree → Prop} (hQ : Q s.root s t) :
    Tracks rootOf rootOf s t Q := by
  obtain ⟨parent, rfl⟩ := h.same
  exact tracks_pure hQ

theorem Watched.tracks_loopFuel (h : Watched n synced s t)
    {Q : ℕ → Rbtree → Rbtree → Prop} (hQ : ∀ fuel, Q fuel s t) :
    Tracks loopFuel loopFuel s t Q := by
  obtain ⟨parent, rfl⟩ := h.same
  exact tracks_pure (hQ _)

theorem tracks_load {α : Type} {cell : Rbtree → Option α}
    (hcell : cell t = cell s) {Q : α → Rbtree → Rbtree → Prop}
    (hQ : ∀ a, cell s = some a → Q a s t) :
    Tracks (load cell) (load cell) s t Q := by
  intro a s' hrun
  obtain ⟨b, hb, rfl, rfl⟩ := (returns_load cell s
    (fun b s'' => b = a ∧ s'' = s')).mp ⟨a, s', hrun, rfl, rfl⟩
  rw [returns_load, hcell]
  exact ⟨b, hb, rfl, hQ b hb⟩

theorem Watched.tracks_store (h : Watched n synced s t)
    {update : Rbtree → Rbtree} {Q : Unit → Rbtree → Rbtree → Prop}
    (hQ : Q () (update s) (update t)) :
    Tracks (store (isLive p) update) (store (isLive p) update) s t Q := by
  obtain ⟨parent, rfl⟩ := h.same
  intro a s' hrun
  obtain ⟨hlive, -, rfl⟩ := (returns_store (isLive p) update s
    (fun b s'' => b = a ∧ s'' = s')).mp ⟨a, s', hrun, rfl, rfl⟩
  rw [returns_store]
  exact ⟨hlive, rfl, hQ⟩

theorem Watched.tracks_colorOf (h : Watched n synced s t)
    {Q : Color → Rbtree → Rbtree → Prop}
    (hQ : ∀ c, (c = .red → p ≠ n) → Q c s t) :
    Tracks (colorOf p) (colorOf p) s t Q := by
  have hsame : t.color = s.color := by
    obtain ⟨parent, rfl⟩ := h.same
    rfl
  refine tracks_load (by rw [hsame]) ?_
  intro c hc
  apply hQ
  intro hred heq
  rw [heq, h.color] at hc
  rw [← Option.some.inj hc] at hred
  cases hred

theorem tracks_apart {α : Type} {m m' : Exec Rbtree α}
    {Q : α → Rbtree → Rbtree → Prop} (h : Watched n synced s t)
    (hne : p ≠ n) (hm : Tracks m m' s t Q) :
    Tracks m (do apart p; m') s t Q := by
  apply hm.check
  have hnil : ¬ p = t.nil := by
    obtain ⟨parent, rfl⟩ := h.same
    rw [withParents, h.nil]
    exact hne
  simp [apart, Rbtree.nilOf, hnil]

theorem Watched.tracks_addCount (h : Watched n synced s t) (k : ℤ)
    {Q : Unit → Rbtree → Rbtree → Prop}
    (hQ : Watched n synced (Rbtree.withCount (s.count + k) s)
        (Rbtree.withCount (t.count + k) t) →
      Q () (Rbtree.withCount (s.count + k) s)
        (Rbtree.withCount (t.count + k) t)) :
    Tracks (modify (fun s => Rbtree.withCount (s.count + k) s))
      (modify (fun s => Rbtree.withCount (s.count + k) s)) s t Q := by
  have hcount : t.count = s.count := by
    obtain ⟨parent, rfl⟩ := h.same
    rfl
  refine tracks_modify (hQ ?_)
  rw [hcount]
  exact h.withCount (s.count + k)

theorem Watched.null_ne (h : Watched n synced s t) : NULL ≠ n := by
  intro heq
  have hlive := h.live
  rw [← heq] at hlive
  exact s.arena.null_notMem hlive

/-- Both runs get the same block, and it is not the sentinel's. -/
theorem Watched.tracks_malloc (h : Watched n synced s t) (A : Allocator)
    {Q : Addr → Rbtree → Rbtree → Prop}
    (hQ : ∀ a s' t', a ≠ n → Watched n synced s' t' → Q a s' t') :
    Tracks (malloc A) (malloc A) s t Q := by
  have hwatched := h
  obtain ⟨parent, rfl⟩ := h.same
  refine (returns_malloc_or ?_ ?_).yields
  · intro hplace
    apply returns_malloc_or
    · intro _
      exact ⟨rfl, hQ _ _ _ h.null_ne (hwatched.withArena h.live)⟩
    · intro a hgranted
      cases hplace.symm.trans hgranted
  · intro a hplace
    have hne : a ≠ n := by
      intro heq
      subst heq
      exact (A.place_fresh hplace).2 h.live
    apply returns_malloc_or
    · intro hrefused
      cases hplace.symm.trans hrefused
    · intro b hgranted
      cases hplace.symm.trans hgranted
      refine ⟨rfl, hQ _ _ _ hne (hwatched.withArena ?_)⟩
      exact List.mem_cons_of_mem a h.live

theorem Watched.tracks_mallocNode (h : Watched n synced s t) (A : Allocator)
    {Q : Addr → Rbtree → Rbtree → Prop}
    (hQ : ∀ a s' t', a ≠ n → Watched n synced s' t' → Q a s' t') :
    Tracks (mallocNode A) (mallocNode A) s t Q := by
  unfold mallocNode
  refine tracks_bind (h.tracks_malloc A ?_)
  intro a s' t' hne h'
  refine tracks_ite (fun _ => tracks_pure (hQ a s' t' hne h')) ?_
  intro _
  refine tracks_bind (tracks_modify ?_)
  exact tracks_pure (hQ a _ _ hne (h'.forget hne))

theorem Watched.tracks_free (h : Watched n synced s t) (hne : p ≠ n)
    {Q : Unit → Rbtree → Rbtree → Prop}
    (hQ : ∀ s' t', Watched n synced s' t' → Q () s' t') :
    Tracks (free p) (free p) s t Q := by
  have hwatched := h
  obtain ⟨parent, rfl⟩ := h.same
  unfold Tracks free
  apply yields_bind
  apply yields_get
  dsimp only
  split_ifs with hnull hlive
  · refine yields_pure ?_
    simp only [returns_bind, Fallible.returns_get, returns_pure]
    exact ⟨trivial, hQ _ _ hwatched⟩
  · have hheld : p ∈ (HasArena.arena (withParents parent s)).live := hlive
    refine yields_modify ?_
    rw [returns_bind, Fallible.returns_get, if_pos hheld, returns_modify]
    refine ⟨rfl, hQ _ _ (hwatched.withArena ?_)⟩
    exact (List.mem_erase_of_ne hne.symm).mpr h.live
  · exact yields_throw _ _ _

theorem Watched.tracks_freeNode (h : Watched n synced s t) (hne : p ≠ n)
    {Q : Unit → Rbtree → Rbtree → Prop}
    (hQ : ∀ s' t', Watched n synced s' t' → Q () s' t') :
    Tracks (freeNode p) (freeNode p) s t Q := by
  unfold freeNode
  refine tracks_bind (h.tracks_free hne ?_)
  intro s' t' h'
  exact tracks_modify (hQ _ _ (h'.forget hne))

end Rules

/-! ## Accesses -/

/-- The accesses track the plain ones, given that the node is none of the
sentinel where that cannot be seen from the plain run. -/
structure Guarding (n : Addr) (synced : Prop) (acc : NodeAccess) : Prop where
  childOf : ∀ {d p s t} {Q : Addr → Rbtree → Rbtree → Prop},
    Watched n synced s t →
    (∀ q, s.child d p = some q → p ≠ n → Q q s t) →
    Tracks (childOf d p) (acc.childOf d p) s t Q
  parentOf : ∀ {p s t} {Q : Addr → Rbtree → Rbtree → Prop},
    Watched n synced s t → p ≠ n →
    (∀ q, s.parent p = some q → Q q s t) →
    Tracks (parentOf p) (acc.parentOf p) s t Q
  keyPtrOf : ∀ {p s t} {Q : CharPtr → Rbtree → Rbtree → Prop},
    Watched n synced s t → p ≠ n → (∀ k, Q k s t) →
    Tracks (keyPtrOf p) (acc.keyPtrOf p) s t Q
  valuePtrOf : ∀ {p s t} {Q : CharPtr → Rbtree → Rbtree → Prop},
    Watched n synced s t → p ≠ n → (∀ v, Q v s t) →
    Tracks (valuePtrOf p) (acc.valuePtrOf p) s t Q
  setColor : ∀ {p c s t} {Q : Unit → Rbtree → Rbtree → Prop},
    Watched n synced s t → (p = n → c = .black) →
    (Watched n synced (withColor p c s) (withColor p c t) →
      Q () (withColor p c s) (withColor p c t)) →
    Tracks (setColor p c) (acc.setColor p c) s t Q
  setChild : ∀ {d p q s t} {Q : Unit → Rbtree → Rbtree → Prop},
    Watched n synced s t → p ≠ n →
    (Watched n synced (withChild d p q s) (withChild d p q t) →
      Q () (withChild d p q s) (withChild d p q t)) →
    Tracks (setChild d p q) (acc.setChild d p q) s t Q
  setParent : ∀ {p q s t} {Q : Unit → Rbtree → Rbtree → Prop},
    Watched n synced s t → p ≠ n →
    (Watched n synced (withParent p q s) (withParent p q t) →
      Q () (withParent p q s) (withParent p q t)) →
    Tracks (setParent p q) (acc.setParent p q) s t Q
  setKey : ∀ {p k s t} {Q : Unit → Rbtree → Rbtree → Prop},
    Watched n synced s t → p ≠ n →
    (Watched n synced (withKey p k s) (withKey p k t) →
      Q () (withKey p k s) (withKey p k t)) →
    Tracks (setKey p k) (acc.setKey p k) s t Q
  setValue : ∀ {p v s t} {Q : Unit → Rbtree → Rbtree → Prop},
    Watched n synced s t → p ≠ n →
    (Watched n synced (withValue p v s) (withValue p v t) →
      Q () (withValue p v s) (withValue p v t)) →
    Tracks (setValue p v) (acc.setValue p v) s t Q

section Guards

variable {n p q : Addr} {synced : Prop} {s t : Rbtree}

theorem Watched.guarding_childOf (h : Watched n synced s t) {d : Dir}
    {Q : Addr → Rbtree → Rbtree → Prop}
    (hQ : ∀ q, s.child d p = some q → p ≠ n → Q q s t) :
    Tracks (Rbtree.childOf d p) (do apart p; Rbtree.childOf d p) s t Q := by
  by_cases hne : p = n
  · apply tracks_of_not_returns
    intro P
    simp [Rbtree.childOf, hne, h.child]
  · refine tracks_apart h hne (tracks_load ?_ fun q hq => hQ q hq hne)
    obtain ⟨parent, rfl⟩ := h.same
    rfl

theorem Watched.guarding_keyPtrOf (h : Watched n synced s t) (hne : p ≠ n)
    {Q : CharPtr → Rbtree → Rbtree → Prop} (hQ : ∀ k, Q k s t) :
    Tracks (Rbtree.keyPtrOf p) (do apart p; Rbtree.keyPtrOf p) s t Q := by
  refine tracks_apart h hne (tracks_load ?_ fun k _ => hQ k)
  obtain ⟨parent, rfl⟩ := h.same
  rfl

theorem Watched.guarding_valuePtrOf (h : Watched n synced s t) (hne : p ≠ n)
    {Q : CharPtr → Rbtree → Rbtree → Prop} (hQ : ∀ v, Q v s t) :
    Tracks (Rbtree.valuePtrOf p) (do apart p; Rbtree.valuePtrOf p) s t
      Q := by
  refine tracks_apart h hne (tracks_load ?_ fun v _ => hQ v)
  obtain ⟨parent, rfl⟩ := h.same
  rfl

theorem Watched.guarding_setColor (h : Watched n synced s t) {c : Color}
    (hblack : p = n → c = .black) {Q : Unit → Rbtree → Rbtree → Prop}
    (hQ : Q () (Rbtree.withColor p c s) (Rbtree.withColor p c t)) :
    Tracks (Rbtree.setColor p c) (do staysBlack p c; Rbtree.setColor p c) s t
      Q := by
  have hpass : ¬ (p = t.nil ∧ c ≠ .black) := by
    obtain ⟨parent, rfl⟩ := h.same
    intro hcond
    exact hcond.2 (hblack (hcond.1.trans h.nil))
  refine Tracks.check (h.tracks_store hQ) ?_
  simp only [staysBlack, Rbtree.nilOf, returns_bind, Fallible.returns_get,
    returns_pure, hpass, reduceIte]

/-- During the repair the sentinel's parent is read when it is synced. -/
theorem Watched.tracks_parentOf (h : Watched n synced s t)
    (hsynced : p = n → synced) {Q : Addr → Rbtree → Rbtree → Prop}
    (hQ : ∀ q, s.parent p = some q → Q q s t) :
    Tracks (Rbtree.parentOf p) (Rbtree.parentOf p) s t Q := by
  refine tracks_load ?_ hQ
  by_cases hp : p = n
  · subst hp
    exact h.synced (hsynced rfl)
  · exact h.parent p hp

theorem guarding_watched (n : Addr) (synced : Prop) :
    Guarding n synced watched where
  childOf := fun h hQ =>
    h.guarding_childOf fun q hq hne => hQ q hq hne
  parentOf := fun h hne hQ =>
    tracks_apart h hne (h.tracks_parentOf (fun heq => absurd heq hne) hQ)
  keyPtrOf := fun h hne hQ => h.guarding_keyPtrOf hne hQ
  valuePtrOf := fun h hne hQ => h.guarding_valuePtrOf hne hQ
  setColor := fun h hblack hQ =>
    h.guarding_setColor hblack (hQ (h.withColor hblack))
  setChild := fun h hne hQ =>
    tracks_apart h hne (h.tracks_store (hQ (h.withChild hne)))
  setParent := fun h _ hQ => h.tracks_store (hQ (h.withParent Or.inl))
  setKey := fun h hne hQ =>
    tracks_apart h hne (h.tracks_store (hQ h.withKey))
  setValue := fun h hne hQ =>
    tracks_apart h hne (h.tracks_store (hQ (h.withValue hne)))

theorem guarding_watchedRepair (n : Addr) (synced : Prop) :
    Guarding n synced watchedRepair :=
  { guarding_watched n synced with
    parentOf := fun h hne hQ =>
      h.tracks_parentOf (fun heq => absurd heq hne) hQ
    setParent := fun h hne hQ =>
      tracks_apart h hne (h.tracks_store (hQ (h.withParent Or.inl))) }

end Guards

end CAdvanced
