import CAdvanced.FallibleExecution

/-!
# A ledger of allocator blocks

The arena records which blocks are live.  Where a block is placed, and whether
a request is granted at all, is the allocator's choice; a development is read
for every allocator.  Released addresses may be handed out again.
-/

namespace Fallible

abbrev Addr := ℕ

abbrev NULL : Addr := 0

/-- The answer to each numbered request, given the live blocks. -/
structure Allocator where
  place : ℕ → List Addr → Option Addr
  place_fresh : ∀ {request live a},
    place request live = some a → a ≠ NULL ∧ a ∉ live

def Allocator.Succeeds (A : Allocator) : Prop :=
  ∀ request live, (A.place request live).isSome

/-- The live blocks; none of them is at the null pointer or counted twice. -/
structure Arena where
  live : List Addr
  requests : ℕ
  null_notMem : NULL ∉ live
  nodup : live.Nodup

def Arena.empty : Arena where
  live := []
  requests := 0
  null_notMem := by simp
  nodup := by simp

class HasArena (σ : Type) where
  arena : σ → Arena
  withArena : Arena → σ → σ

variable {σ α : Type} [HasArena σ]

def Arena.grant (r : Arena) (a : Addr) (ha : a ≠ NULL ∧ a ∉ r.live) :
    Arena where
  live := a :: r.live
  requests := r.requests + 1
  null_notMem := by
    simp only [List.mem_cons, not_or]
    exact ⟨ha.1.symm, r.null_notMem⟩
  nodup := List.nodup_cons.mpr ⟨ha.2, r.nodup⟩

def Arena.refuse (r : Arena) : Arena := { r with requests := r.requests + 1 }

def Arena.release (r : Arena) (a : Addr) : Arena where
  live := r.live.erase a
  requests := r.requests
  null_notMem := fun hmem => r.null_notMem (List.mem_of_mem_erase hmem)
  nodup := r.nodup.erase a

def malloc (A : Allocator) : Exec σ Addr := do
  let r := HasArena.arena (← get)
  match hplace : A.place r.requests r.live with
  | some a => do
      modify (HasArena.withArena (r.grant a (A.place_fresh hplace)))
      pure a
  | none => do
      modify (HasArena.withArena r.refuse)
      pure NULL

/-- Releasing a null pointer does nothing; releasing a block that is not live
is a fault. -/
def free (a : Addr) : Exec σ Unit := do
  let r := HasArena.arena (← get)
  if a = NULL then pure ()
  else if a ∈ r.live then modify (HasArena.withArena (r.release a))
  else throw .badAddress

/-- The next `n` requests in a row are granted. -/
def Allocator.Grants (A : Allocator) : ℕ → Arena → Prop
  | 0, _ => True
  | n + 1, r => ∃ a, ∃ hplace : A.place r.requests r.live = some a,
      A.Grants n (r.grant a (A.place_fresh hplace))

section Grants

variable {A : Allocator} {r : Arena} {a : Addr} {n : ℕ}

theorem grants_succ (hplace : A.place r.requests r.live = some a) :
    A.Grants (n + 1) r ↔ A.Grants n (r.grant a (A.place_fresh hplace)) := by
  constructor
  · intro h
    obtain ⟨b, hb, hrest⟩ := h
    have heq : a = b := Option.some.inj (hplace.symm.trans hb)
    subst heq
    exact hrest
  · intro h
    exact ⟨a, hplace, h⟩

theorem not_grants_succ (hplace : A.place r.requests r.live = none) :
    ¬ A.Grants (n + 1) r := by
  intro h
  obtain ⟨b, hb, -⟩ := h
  rw [hplace] at hb
  cases hb

theorem Allocator.Succeeds.grants (hA : A.Succeeds) (n : ℕ) (r : Arena) :
    A.Grants n r := by
  induction n generalizing r with
  | zero => trivial
  | succ n ih =>
      obtain ⟨a, hplace⟩ :=
        Option.isSome_iff_exists.mp (hA r.requests r.live)
      exact (grants_succ hplace).mpr (ih _)

theorem Allocator.Grants.of_succ (h : A.Grants (n + 1) r) : A.Grants n r := by
  induction n generalizing r with
  | zero => trivial
  | succ n ih =>
      obtain ⟨a, hplace, hrest⟩ := h
      exact (grants_succ hplace).mpr (ih hrest)

theorem not_succeeds_of_place (hplace : A.place r.requests r.live = none) :
    ¬ A.Succeeds :=
  fun hA => not_grants_succ hplace (hA.grants 1 r)

end Grants

theorem returns_malloc_or {A : Allocator} {s : σ} {Q : Addr → σ → Prop}
    (hrefused : A.place (HasArena.arena s).requests (HasArena.arena s).live
      = none → Q NULL (HasArena.withArena (HasArena.arena s).refuse s))
    (hgranted : ∀ a (hplace : A.place (HasArena.arena s).requests
      (HasArena.arena s).live = some a), Q a (HasArena.withArena
        ((HasArena.arena s).grant a (A.place_fresh hplace)) s)) :
    Returns (malloc A) s Q := by
  simp only [malloc, returns_bind, returns_get]
  split
  next a hplace =>
    simpa using hgranted a hplace
  next hplace =>
    simpa using hrefused hplace

theorem returns_free {a : Addr} {s : σ} {Q : Unit → σ → Prop}
    (hnull : a ≠ NULL) (hlive : a ∈ (HasArena.arena s).live)
    (hQ : Q () (HasArena.withArena ((HasArena.arena s).release a) s)) :
    Returns (free a) s Q := by
  simp only [free, returns_bind, returns_get]
  simpa [hnull, hlive] using hQ

theorem yields_free {a : Addr} {s : σ} {Q : Unit → σ → Prop}
    (hnull : a ≠ NULL)
    (hQ : Q () (HasArena.withArena ((HasArena.arena s).release a) s)) :
    Yields (free a) s Q := by
  unfold free
  apply yields_bind
  apply yields_get
  dsimp only
  rw [if_neg hnull]
  split_ifs
  · exact yields_modify hQ
  · exact yields_throw _ s Q

/-- Related states have the same arena, and any other one in its place leaves
them related. -/
structure SharesArena {τ : Type} [HasArena τ] (R : σ → τ → Prop) : Prop where
  same : ∀ {s t}, R s t → HasArena.arena t = HasArena.arena s
  exchange : ∀ {s t} (r : Arena), R s t →
    R (HasArena.withArena r s) (HasArena.withArena r t)

section SharesArena

variable {τ : Type} [HasArena τ] {R : σ → τ → Prop} {s : σ} {t : τ}

theorem Arena.grant_congr {r r' : Arena} {a : Addr} (hr : r' = r)
    (ha : a ≠ NULL ∧ a ∉ r.live) (ha' : a ≠ NULL ∧ a ∉ r'.live) :
    r'.grant a ha' = r.grant a ha := by
  subst hr
  rfl

theorem SharesArena.malloc (h : SharesArena R) (A : Allocator) (hR : R s t) :
    SameOutcome R ((malloc A).run s) ((malloc A).run t) := by
  have hsame := h.same hR
  unfold Fallible.malloc
  apply sameOutcome_get_bind
  dsimp only
  split
  next a hplace =>
    have hplace' : A.place (HasArena.arena t).requests
        (HasArena.arena t).live = some a := by rw [hsame, hplace]
    split
    next a' hsome =>
      cases hsome.symm.trans hplace'
      rw [Arena.grant_congr hsame (A.place_fresh hplace)]
      apply (sameOutcome_modify (h.exchange _ hR)).bind
      intro _ s' t' _ hR'
      exact sameOutcome_pure a hR'
    next hnone => cases hnone.symm.trans hplace'
  next hplace =>
    have hplace' : A.place (HasArena.arena t).requests
        (HasArena.arena t).live = none := by rw [hsame, hplace]
    split
    next a' hsome => cases hsome.symm.trans hplace'
    next hnone =>
      rw [hsame]
      apply (sameOutcome_modify (h.exchange _ hR)).bind
      intro _ s' t' _ hR'
      exact sameOutcome_pure NULL hR'

theorem SharesArena.free (h : SharesArena R) (a : Addr) (hR : R s t) :
    SameOutcome R ((free a).run s) ((free a).run t) := by
  unfold Fallible.free
  apply sameOutcome_get_bind
  dsimp only
  rw [h.same hR]
  split_ifs
  · exact sameOutcome_pure () hR
  · exact sameOutcome_modify (h.exchange _ hR)
  · exact sameOutcome_throw R _ _ s t

end SharesArena

/-! ## Ownership -/

/-- The live blocks are the owned ones, each once, and a foreign rest. -/
def Arena.Owns (r : Arena) (blocks rest : List Addr) : Prop :=
  r.live.Perm (blocks ++ rest)

section Owns

variable {r : Arena} {blocks rest : List Addr} {a : Addr}

theorem Arena.Owns.live (h : r.Owns blocks rest) (ha : a ∈ blocks) :
    a ∈ r.live :=
  h.mem_iff.mpr (List.mem_append_left rest ha)

theorem Arena.Owns.ne_null (h : r.Owns blocks rest) (ha : a ∈ blocks) :
    a ≠ NULL := by
  rintro rfl
  exact r.null_notMem (h.live ha)

theorem Arena.Owns.nodup (h : r.Owns blocks rest) : blocks.Nodup :=
  (List.nodup_append.mp ((h.nodup_iff).mp r.nodup)).1

theorem Arena.Owns.perm {blocks' : List Addr} (h : r.Owns blocks rest)
    (hperm : blocks.Perm blocks') : r.Owns blocks' rest :=
  h.trans (hperm.append_right rest)

theorem Arena.Owns.grant (h : r.Owns blocks rest)
    (ha : a ≠ NULL ∧ a ∉ r.live) : (r.grant a ha).Owns (a :: blocks) rest :=
  h.cons a

theorem Arena.Owns.release (h : r.Owns (a :: blocks) rest) :
    (r.release a).Owns blocks rest := by
  have herase := h.erase a
  simpa [Owns, Arena.release] using herase

end Owns

/-! ## What a program did to the ledger -/

/-- The granted blocks came in and the released ones went out, in some order,
and no request was refused. -/
structure Arena.Turnover (r : Arena) (granted released : List Addr)
    (r' : Arena) : Prop where
  requests : r'.requests = r.requests + granted.length
  live : (released ++ r'.live).Perm (granted ++ r.live)

section Turnover

variable {r r' r'' : Arena} {a : Addr}
  {granted granted' released released' : List Addr}

theorem Arena.turnover_refl (r : Arena) : r.Turnover [] [] r where
  requests := rfl
  live := List.Perm.refl _

theorem Arena.turnover_grant (ha : a ≠ NULL ∧ a ∉ r.live) :
    r.Turnover [a] [] (r.grant a ha) where
  requests := rfl
  live := List.Perm.refl _

theorem Arena.turnover_release (ha : a ∈ r.live) :
    r.Turnover [] [a] (r.release a) where
  requests := rfl
  live := (List.perm_cons_erase ha).symm

theorem Arena.Turnover.trans (h : r.Turnover granted released r')
    (h' : r'.Turnover granted' released' r'') :
    r.Turnover (granted' ++ granted) (released ++ released') r'' where
  requests := by
    rw [h'.requests, h.requests, List.length_append]
    omega
  live := by
    have hlive := h.live
    have hlive' := h'.live
    rw [List.perm_iff_count] at hlive hlive' ⊢
    intro b
    have hb := hlive b
    have hb' := hlive' b
    simp only [List.count_append] at hb hb' ⊢
    omega

end Turnover

/-! ## The allocator that places every block above the live ones -/

theorem notMem_of_foldr_max_lt {live : List Addr} {a : Addr}
    (ha : live.foldr max 0 < a) : a ∉ live := by
  induction live with
  | nil => simp
  | cons b rest ih =>
      simp only [List.foldr_cons, max_lt_iff] at ha
      simp only [List.mem_cons, not_or]
      exact ⟨ha.1.ne', ih ha.2⟩

def Allocator.above : Allocator where
  place := fun _ live => some (live.foldr max 0 + 1)
  place_fresh := by
    intro request live a hplace
    cases hplace
    exact ⟨Nat.succ_ne_zero _, notMem_of_foldr_max_lt (Nat.lt_succ_self _)⟩

theorem Allocator.above_succeeds : Allocator.above.Succeeds := by
  intro request live
  rfl

def Allocator.only (n : ℕ) : Allocator where
  place := fun request live =>
    if request = n then Allocator.above.place request live else none
  place_fresh := by
    intro request live a hplace
    split_ifs at hplace
    exact Allocator.above.place_fresh hplace

theorem Allocator.only_grants (r : Arena) :
    (Allocator.only r.requests).Grants 1 r :=
  ⟨_, if_pos rfl, trivial⟩

theorem Allocator.only_refuses (r : Arena) :
    ¬ (Allocator.only r.requests).Grants 2 r := by
  intro hgrants
  obtain ⟨a, hplace, hnext⟩ := hgrants
  refine not_grants_succ ?_ hnext
  exact if_neg (Nat.succ_ne_self r.requests)

/-- The requests with numbers below `n` are granted. -/
def Allocator.upTo (n : ℕ) : Allocator where
  place := fun request live =>
    if request < n then Allocator.above.place request live else none
  place_fresh := by
    intro request live a hplace
    split_ifs at hplace
    exact Allocator.above.place_fresh hplace

theorem Allocator.upTo_grants {m n : ℕ} {r : Arena} (h : r.requests + n ≤ m) :
    (Allocator.upTo m).Grants n r := by
  induction n generalizing r with
  | zero => trivial
  | succ n ih =>
      refine ⟨r.live.foldr max 0 + 1, if_pos (by omega), ih ?_⟩
      simp only [Arena.grant]
      omega

theorem Allocator.upTo_refuses {m n : ℕ} {r : Arena} (hstart : r.requests ≤ m)
    (h : m < r.requests + n) : ¬ (Allocator.upTo m).Grants n r := by
  induction n generalizing r with
  | zero => omega
  | succ n ih =>
      intro hgrants
      obtain ⟨a, hplace, hnext⟩ := hgrants
      have hbelow : r.requests < m := by
        by_contra hnot
        simp [Allocator.upTo, hnot] at hplace
      refine ih ?_ ?_ hnext <;> simp only [Arena.grant] <;> omega

def Allocator.exhausted : Allocator where
  place := fun _ _ => none
  place_fresh := fun hplace => nomatch hplace

theorem Allocator.exhausted_refuses (n : ℕ) (r : Arena) :
    ¬ Allocator.exhausted.Grants (n + 1) r :=
  not_grants_succ rfl

end Fallible
