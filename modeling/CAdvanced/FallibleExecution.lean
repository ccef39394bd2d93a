import Mathlib.Tactic

/-!
# Fallible stateful execution

Imperative code is read as a state transformer which may leave the defined
behaviour of its language.  `Returns` is the total-correctness reading of such
a program: it ends without a fault, and the answer and the final state satisfy
the postcondition.  Loops carry explicit fuel, so a `Returns` statement about a
loop also says that the loop ends.
-/

namespace Fallible

inductive Fault
  | badAddress
  | outOfBounds
  | intOverflow
  | assertion
  | outOfFuel
  deriving DecidableEq, Repr

abbrev Exec (σ : Type) := StateT σ (Except Fault)

variable {σ τ ℓ ρ α β ι ω μ : Type}

def Returns (m : Exec σ α) (s : σ) (Q : α → σ → Prop) : Prop :=
  ∃ a s', m.run s = .ok (a, s') ∧ Q a s'

/-- Read one cell of the state; an absent cell is a bad address. -/
def load (cell : σ → Option α) : Exec σ α := do
  match cell (← get) with
  | some a => pure a
  | none => throw .badAddress

/-- Guarded update: the state is changed only when the guard holds. -/
def store (guard : σ → Bool) (update : σ → σ) : Exec σ Unit := do
  if guard (← get) then modify update else throw .badAddress

/-- Run a program on one component of a larger state. -/
def within (part : σ → τ) (put : τ → σ → σ) (m : Exec τ α) : Exec σ α :=
  fun s =>
    match m.run (part s) with
    | .ok (a, t) => .ok (a, put t s)
    | .error fault => .error fault

/-- A loop whose body either continues with a new loop value or leaves with
an answer.  One unit of fuel pays for one evaluation of the body. -/
def iterate (body : ℓ → Exec σ (ℓ ⊕ ρ)) : ℕ → ℓ → Exec σ ρ
  | 0, _ => throw .outOfFuel
  | fuel + 1, x => do
      match ← body x with
      | .inl next => iterate body fuel next
      | .inr answer => pure answer

/-- Run one program for each input and collect the answers. -/
def runAll (step : ι → Exec σ ω) : List ι → Exec σ (List ω)
  | [] => pure []
  | i :: rest => do
      let answer ← step i
      let answers ← runAll step rest
      pure (answer :: answers)

/-! ## Rules for `Returns` -/

@[simp] theorem returns_pure (a : α) (s : σ) (Q : α → σ → Prop) :
    Returns (pure a : Exec σ α) s Q ↔ Q a s := by
  constructor
  · rintro ⟨a', s', hrun, hQ⟩
    cases hrun
    exact hQ
  · intro hQ
    exact ⟨a, s, rfl, hQ⟩

@[simp] theorem returns_throw (fault : Fault) (s : σ) (Q : α → σ → Prop) :
    Returns (throw fault : Exec σ α) s Q ↔ False := by
  constructor
  · rintro ⟨a, s', hrun, _⟩
    cases hrun
  · exact False.elim

@[simp] theorem returns_bind (m : Exec σ α) (f : α → Exec σ β) (s : σ)
    (Q : β → σ → Prop) :
    Returns (m >>= f) s Q ↔
      Returns m s (fun a s' => Returns (f a) s' Q) := by
  unfold Returns
  rw [StateT.run_bind]
  constructor
  · rintro ⟨b, s', hrun, hQ⟩
    cases hm : m.run s with
    | error fault =>
        rw [hm] at hrun
        cases hrun
    | ok p =>
        rw [hm] at hrun
        exact ⟨p.1, p.2, rfl, b, s', hrun, hQ⟩
  · rintro ⟨a, s₁, hm, b, s', hf, hQ⟩
    rw [hm]
    exact ⟨b, s', hf, hQ⟩

@[simp] theorem returns_map (m : Exec σ α) (f : α → β) (s : σ)
    (Q : β → σ → Prop) :
    Returns (f <$> m) s Q ↔ Returns m s (fun a s' => Q (f a) s') := by
  rw [← bind_pure_comp, returns_bind]
  simp only [returns_pure]

theorem returns_ite (c : Prop) [Decidable c] (m m' : Exec σ α) (s : σ)
    (Q : α → σ → Prop) :
    Returns (if c then m else m') s Q ↔
      if c then Returns m s Q else Returns m' s Q := by
  split_ifs <;> rfl

/-- A statement that is run under a condition, and what follows it. -/
theorem returns_when (c : Prop) [Decidable c] (m : Exec σ Unit)
    (f : Unit → Exec σ α) (s : σ) (Q : α → σ → Prop) :
    Returns (if c then m >>= f else f ()) s Q ↔
      Returns (if c then m else pure ()) s (fun a s' => Returns (f a) s' Q) := by
  split_ifs
  · rw [returns_bind]
  · rw [returns_pure]

@[simp] theorem returns_get (s : σ) (Q : σ → σ → Prop) :
    Returns (get : Exec σ σ) s Q ↔ Q s s := by
  constructor
  · rintro ⟨a, s', hrun, hQ⟩
    cases hrun
    exact hQ
  · intro hQ
    exact ⟨s, s, rfl, hQ⟩

@[simp] theorem returns_set (s new : σ) (Q : PUnit → σ → Prop) :
    Returns (set new : Exec σ PUnit) s Q ↔ Q ⟨⟩ new := by
  constructor
  · rintro ⟨a, s', hrun, hQ⟩
    cases hrun
    exact hQ
  · intro hQ
    exact ⟨⟨⟩, new, rfl, hQ⟩

@[simp] theorem returns_modify (s : σ) (f : σ → σ) (Q : PUnit → σ → Prop) :
    Returns (modify f : Exec σ PUnit) s Q ↔ Q ⟨⟩ (f s) := by
  constructor
  · rintro ⟨a, s', hrun, hQ⟩
    cases hrun
    exact hQ
  · intro hQ
    exact ⟨⟨⟩, f s, rfl, hQ⟩

@[simp] theorem returns_load (cell : σ → Option α) (s : σ)
    (Q : α → σ → Prop) :
    Returns (load cell) s Q ↔ ∃ a, cell s = some a ∧ Q a s := by
  unfold load
  rw [returns_bind, returns_get]
  cases hcell : cell s with
  | none => simp
  | some a => simp

@[simp] theorem returns_store (guard : σ → Bool) (update : σ → σ) (s : σ)
    (Q : Unit → σ → Prop) :
    Returns (store guard update) s Q ↔
      guard s = true ∧ Q () (update s) := by
  unfold store
  rw [returns_bind, returns_get]
  by_cases hguard : guard s = true
  · simp [hguard]
  · simp [hguard]

@[simp] theorem returns_within (part : σ → τ) (put : τ → σ → σ)
    (m : Exec τ α) (s : σ) (Q : α → σ → Prop) :
    Returns (within part put m) s Q ↔
      Returns m (part s) (fun a t => Q a (put t s)) := by
  unfold Returns
  constructor
  · rintro ⟨a, s', hrun, hQ⟩
    change within part put m s = _ at hrun
    unfold within at hrun
    cases hm : m.run (part s) with
    | error fault =>
        rw [hm] at hrun
        cases hrun
    | ok p =>
        rw [hm] at hrun
        cases hrun
        exact ⟨p.1, p.2, rfl, hQ⟩
  · rintro ⟨a, t, hm, hQ⟩
    refine ⟨a, put t s, ?_, hQ⟩
    change within part put m s = _
    unfold within
    rw [hm]

theorem Returns.mono {m : Exec σ α} {s : σ} {P Q : α → σ → Prop}
    (hm : Returns m s P) (himp : ∀ a s', P a s' → Q a s') :
    Returns m s Q := by
  obtain ⟨a, s', hrun, hP⟩ := hm
  exact ⟨a, s', hrun, himp a s' hP⟩

theorem returns_congr {m : Exec σ α} {s : σ} {P Q : α → σ → Prop}
    (h : ∀ a s', P a s' ↔ Q a s') : Returns m s P ↔ Returns m s Q :=
  ⟨fun hm => hm.mono (fun a s' => (h a s').mp),
    fun hm => hm.mono (fun a s' => (h a s').mpr)⟩

theorem Returns.and {m : Exec σ α} {s : σ} {P Q : α → σ → Prop}
    (hP : Returns m s P) (hQ : Returns m s Q) :
    Returns m s (fun a s' => P a s' ∧ Q a s') := by
  obtain ⟨a, s', hrun, hPa⟩ := hP
  obtain ⟨b, t, hrun', hQb⟩ := hQ
  rw [hrun] at hrun'
  cases hrun'
  exact ⟨a, s', hrun, hPa, hQb⟩

/-- A program has at most one outcome. -/
theorem Returns.of_run {m : Exec σ α} {s s' : σ} {a : α}
    {Q : α → σ → Prop} (hm : Returns m s Q)
    (hrun : m.run s = .ok (a, s')) : Q a s' := by
  obtain ⟨b, t, hrun', hQ⟩ := hm
  rw [hrun] at hrun'
  cases hrun'
  exact hQ

theorem run_bind_of_ok {m : Exec σ α} {f : α → Exec σ β} {s s' : σ} {a : α}
    (hrun : m.run s = .ok (a, s')) : (m >>= f).run s = (f a).run s' := by
  rw [StateT.run_bind, hrun]
  rfl

/-- What an evaluation of the program shows. -/
theorem returns_of_answer {m : Exec σ α} {s : σ} {a : α}
    (h : (m.run s).toOption.map Prod.fst = some a) :
    Returns m s (fun b _ => b = a) := by
  cases hrun : m.run s with
  | ok p =>
      rw [hrun] at h
      exact ⟨p.1, p.2, hrun, Option.some.inj h⟩
  | error fault =>
      rw [hrun] at h
      cases h

theorem Returns.bind_iff {m : Exec σ α} {f : α → Exec σ β} {s s' : σ} {a : α}
    {Q : β → σ → Prop} (hm : Returns m s (fun b t => b = a ∧ t = s')) :
    Returns (m >>= f) s Q ↔ Returns (f a) s' Q := by
  obtain ⟨b, t, hrun, rfl, rfl⟩ := hm
  rw [returns_bind]
  constructor
  · intro h
    exact h.of_run hrun
  · intro h
    exact ⟨b, t, hrun, h⟩

/-! ## Observations -/

def Answers (m : Exec σ α) (s : σ) (a : α) : Prop :=
  Returns m s (fun b _ => b = a)

/-- What a reading program returns does not depend on which of the two states
it starts in. -/
def SameAnswer (m : Exec σ α) (s s' : σ) : Prop :=
  ∀ a, Answers m s' a ↔ Answers m s a

theorem Answers.eq_iff {m : Exec σ α} {s : σ} {a b : α}
    (h : Answers m s a) : Answers m s b ↔ a = b := by
  constructor
  · intro hb
    obtain ⟨c, s', hrun, rfl⟩ := h
    exact hb.of_run hrun
  · intro heq
    exact heq ▸ h

theorem sameAnswer_of_answers {m : Exec σ α} {s s' : σ} {a a' : α}
    (h : Answers m s a) (h' : Answers m s' a') (heq : a = a') :
    SameAnswer m s s' := by
  intro b
  rw [h.eq_iff, h'.eq_iff, heq]

/-! ## Partial correctness -/

/-- The partial-correctness reading: an answer, if there is one, satisfies the
postcondition. -/
def Yields (m : Exec σ α) (s : σ) (Q : α → σ → Prop) : Prop :=
  ∀ a s', m.run s = .ok (a, s') → Q a s'

theorem Returns.yields {m : Exec σ α} {s : σ} {Q : α → σ → Prop}
    (h : Returns m s Q) : Yields m s Q :=
  fun _ _ hrun => h.of_run hrun

theorem Yields.mono {m : Exec σ α} {s : σ} {P Q : α → σ → Prop}
    (hm : Yields m s P) (himp : ∀ a s', P a s' → Q a s') : Yields m s Q :=
  fun a s' hrun => himp a s' (hm a s' hrun)

theorem yields_pure {a : α} {s : σ} {Q : α → σ → Prop} (hQ : Q a s) :
    Yields (pure a : Exec σ α) s Q := by
  intro b s' hrun
  cases hrun
  exact hQ

theorem yields_throw (fault : Fault) (s : σ) (Q : α → σ → Prop) :
    Yields (throw fault : Exec σ α) s Q := by
  intro b s' hrun
  cases hrun

theorem yields_bind {m : Exec σ α} {f : α → Exec σ β} {s : σ}
    {Q : β → σ → Prop}
    (h : Yields m s (fun a s' => Yields (f a) s' Q)) :
    Yields (m >>= f) s Q := by
  intro b s' hrun
  obtain ⟨a, s₁, hm, hf⟩ := (returns_bind m f s (fun b' t => b' = b ∧ t = s')).mp
    ⟨b, s', hrun, rfl, rfl⟩
  obtain ⟨b', t, hrun', rfl, rfl⟩ := hf
  exact h a s₁ hm b' t hrun'

theorem yields_get {s : σ} {Q : σ → σ → Prop} (hQ : Q s s) :
    Yields (get : Exec σ σ) s Q :=
  ((returns_get s Q).mpr hQ).yields

theorem yields_modify {s : σ} {f : σ → σ} {Q : PUnit → σ → Prop}
    (hQ : Q ⟨⟩ (f s)) : Yields (modify f : Exec σ PUnit) s Q :=
  ((returns_modify s f Q).mpr hQ).yields

theorem yields_store {guard : σ → Bool} {update : σ → σ} {s : σ}
    {Q : Unit → σ → Prop} (hQ : guard s = true → Q () (update s)) :
    Yields (store guard update) s Q := by
  unfold store
  apply yields_bind
  apply yields_get
  by_cases hguard : guard s = true
  · rw [if_pos hguard]
    exact yields_modify (hQ hguard)
  · rw [if_neg hguard]
    exact yields_throw _ s Q

theorem yields_within {part : σ → τ} {put : τ → σ → σ} {m : Exec τ α} {s : σ}
    {Q : α → σ → Prop}
    (h : Yields m (part s) (fun a t => Q a (put t s))) :
    Yields (within part put m) s Q := by
  intro a s' hrun
  obtain ⟨a', t, hm, rfl, rfl⟩ :=
    (returns_within part put m s (fun b u => b = a ∧ u = s')).mp
      ⟨a, s', hrun, rfl, rfl⟩
  exact h a' t hm

/-- A part of the state which the program leaves as it is. -/
def Preserves (f : σ → μ) (m : Exec σ α) : Prop :=
  ∀ s, Yields m s (fun _ s' => f s' = f s)

section Preserves

variable {f : σ → μ}

theorem preserves_pure (a : α) : Preserves f (pure a : Exec σ α) :=
  fun _ => yields_pure rfl

theorem preserves_throw (fault : Fault) :
    Preserves f (throw fault : Exec σ α) :=
  fun s => yields_throw fault s _

theorem preserves_bind {m : Exec σ α} {g : α → Exec σ β}
    (hm : Preserves f m) (hg : ∀ a, Preserves f (g a)) :
    Preserves f (m >>= g) := by
  intro s
  refine yields_bind (Yields.mono (hm s) ?_)
  intro a s' hs'
  refine Yields.mono (hg a s') ?_
  intro b s'' hs''
  exact hs''.trans hs'

theorem preserves_ite {c : Prop} [Decidable c] {m m' : Exec σ α}
    (hm : Preserves f m) (hm' : Preserves f m') :
    Preserves f (if c then m else m') := by
  split_ifs
  · exact hm
  · exact hm'

theorem preserves_get : Preserves f (get : Exec σ σ) :=
  fun _ => yields_get rfl

theorem preserves_modify {g : σ → σ} (hg : ∀ s, f (g s) = f s) :
    Preserves f (modify g : Exec σ PUnit) :=
  fun s => yields_modify (hg s)

theorem preserves_load (cell : σ → Option α) : Preserves f (load cell) := by
  apply preserves_bind preserves_get
  intro s
  cases cell s with
  | none => exact preserves_throw _
  | some a => exact preserves_pure a

theorem preserves_read (g : σ → α) :
    Preserves f (do return g (← get) : Exec σ α) :=
  preserves_bind preserves_get (fun s => preserves_pure (g s))

theorem preserves_store {guard : σ → Bool} {update : σ → σ}
    (hupdate : ∀ s, f (update s) = f s) : Preserves f (store guard update) := by
  intro s
  apply yields_store
  intro _
  exact hupdate s

theorem preserves_within {part : σ → τ} {put : τ → σ → σ}
    (hput : ∀ t s, f (put t s) = f s) (m : Exec τ α) :
    Preserves f (within part put m) := by
  intro s
  apply yields_within
  intro a t _
  exact hput t s

theorem preserves_iterate {body : ℓ → Exec σ (ℓ ⊕ ρ)}
    (hbody : ∀ x, Preserves f (body x)) (fuel : ℕ) (x : ℓ) :
    Preserves f (iterate body fuel x) := by
  induction fuel generalizing x with
  | zero => exact preserves_throw _
  | succ fuel ih =>
      apply preserves_bind (hbody x)
      intro r
      cases r with
      | inl next => exact ih next
      | inr answer => exact preserves_pure answer

end Preserves

/-- On every state the first program does what the second one does on the view
of that state. -/
def Mirrors (view : σ → τ) (m : Exec σ α) (m' : Exec τ α) : Prop :=
  ∀ s (Q : α → τ → Prop),
    Returns m s (fun a s' => Q a (view s')) ↔ Returns m' (view s) Q

/-- The program does not look at what `f` changes, and leaves it alone. -/
abbrev Ignores (f : σ → σ) (m : Exec σ α) : Prop := Mirrors f m m

section Mirrors

variable {view : σ → τ}

theorem mirrors_pure (a : α) :
    Mirrors view (pure a : Exec σ α) (pure a : Exec τ α) := by
  intro s Q
  rw [returns_pure, returns_pure]

theorem mirrors_throw (fault : Fault) :
    Mirrors view (throw fault : Exec σ α) (throw fault : Exec τ α) := by
  intro s Q
  rw [returns_throw, returns_throw]

theorem mirrors_bind {m : Exec σ α} {m' : Exec τ α} {g : α → Exec σ β}
    {g' : α → Exec τ β} (hm : Mirrors view m m')
    (hg : ∀ a, Mirrors view (g a) (g' a)) :
    Mirrors view (m >>= g) (m' >>= g') := by
  intro s Q
  rw [returns_bind, returns_bind, ← hm]
  apply returns_congr
  intro a s'
  exact hg a s' Q

theorem mirrors_ite {c : Prop} [Decidable c] {m₁ m₂ : Exec σ α}
    {m₁' m₂' : Exec τ α} (h₁ : Mirrors view m₁ m₁')
    (h₂ : Mirrors view m₂ m₂') :
    Mirrors view (if c then m₁ else m₂) (if c then m₁' else m₂') := by
  split_ifs
  · exact h₁
  · exact h₂

theorem mirrors_read {g : σ → α} {g' : τ → α} (hg : ∀ s, g' (view s) = g s) :
    Mirrors view (do return g (← get) : Exec σ α)
      (do return g' (← get) : Exec τ α) := by
  intro s Q
  simp only [returns_bind, returns_get, returns_pure, hg]

theorem mirrors_modify {g : σ → σ} {g' : τ → τ}
    (hg : ∀ s, g' (view s) = view (g s)) :
    Mirrors view (modify g : Exec σ PUnit) (modify g' : Exec τ PUnit) := by
  intro s Q
  rw [returns_modify, returns_modify, hg]

theorem mirrors_load {cell : σ → Option α} {cell' : τ → Option α}
    (hcell : ∀ s, cell' (view s) = cell s) :
    Mirrors view (load cell) (load cell') := by
  intro s Q
  rw [returns_load, returns_load, hcell]

theorem mirrors_store {guard : σ → Bool} {update : σ → σ}
    {guard' : τ → Bool} {update' : τ → τ}
    (hguard : ∀ s, guard' (view s) = guard s)
    (hupdate : ∀ s, update' (view s) = view (update s)) :
    Mirrors view (store guard update) (store guard' update') := by
  intro s Q
  rw [returns_store, returns_store, hguard, hupdate]

theorem mirrors_within {put : τ → σ → σ} (hput : ∀ t s, view (put t s) = t)
    (m : Exec τ α) : Mirrors view (within view put m) m := by
  intro s Q
  simp only [returns_within, hput]

theorem mirrors_iterate {body : ℓ → Exec σ (ℓ ⊕ ρ)}
    {body' : ℓ → Exec τ (ℓ ⊕ ρ)}
    (hbody : ∀ x, Mirrors view (body x) (body' x)) (fuel : ℕ) (x : ℓ) :
    Mirrors view (iterate body fuel x) (iterate body' fuel x) := by
  induction fuel generalizing x with
  | zero => exact mirrors_throw _
  | succ fuel ih =>
      apply mirrors_bind (hbody x)
      intro r
      cases r with
      | inl next => exact ih next
      | inr answer => exact mirrors_pure answer

/-- What was proved of the first program holds of the second. -/
theorem Mirrors.returns {m : Exec σ α} {m' : Exec τ α}
    (h : Mirrors view m m') {s : σ} {Q : α → σ → Prop} {Q' : α → τ → Prop}
    (hm : Returns m s Q) (hQ : ∀ a s', Q a s' → Q' a (view s')) :
    Returns m' (view s) Q' :=
  (h s Q').mp (hm.mono hQ)

theorem Mirrors.returns_both {m : Exec σ α} {m' : Exec τ α}
    (h : Mirrors view m m') {s : σ} {Q : α → σ → Prop} (hm : Returns m s Q) :
    Returns m s (fun a s' => Q a s' ∧
      Returns m' (view s) (fun b t => b = a ∧ t = view s')) := by
  obtain ⟨a, s', hrun, hQ⟩ := hm
  have hm' : Returns m s (fun b s'' => b = a ∧ s'' = s') :=
    ⟨a, s', hrun, rfl, rfl⟩
  refine ⟨a, s', hrun, hQ, h.returns hm' ?_⟩
  rintro b s'' ⟨rfl, rfl⟩
  exact ⟨rfl, rfl⟩

end Mirrors

theorem returns_of_yields {m : Exec σ α} {s : σ} {P Q : α → σ → Prop}
    (hm : Returns m s P) (hQ : Yields m s Q) : Returns m s Q := by
  obtain ⟨a, s', hrun, -⟩ := hm
  exact ⟨a, s', hrun, hQ a s' hrun⟩

/-- Total correctness on a condition; without it the program may also fault. -/
def ReturnsIf (c : Prop) (m : Exec σ α) (s : σ) (Q : α → σ → Prop) : Prop :=
  Returns m s Q ∨ (¬ c ∧ ∀ P, ¬ Returns m s P)

section ReturnsIf

variable {c : Prop} {m : Exec σ α} {s : σ} {Q : α → σ → Prop}

theorem ReturnsIf.returns (h : ReturnsIf c m s Q) (hc : c) : Returns m s Q :=
  h.resolve_right (fun hfails => hfails.1 hc)

theorem ReturnsIf.yields (h : ReturnsIf c m s Q) : Yields m s Q := by
  rcases h with hQ | ⟨-, hfails⟩
  · exact hQ.yields
  · intro a s' hrun
    exact absurd ⟨a, s', hrun, trivial⟩ (hfails (fun _ _ => True))

theorem ReturnsIf.mono {P : α → σ → Prop} (h : ReturnsIf c m s P)
    (himp : ∀ a s', P a s' → Q a s') : ReturnsIf c m s Q :=
  h.imp_left (fun hP => hP.mono himp)

theorem ReturnsIf.of_imp {c' : Prop} (h : ReturnsIf c m s Q)
    (himp : c' → c) : ReturnsIf c' m s Q :=
  h.imp_right (fun hfails => ⟨fun hc => hfails.1 (himp hc), hfails.2⟩)

theorem returnsIf_pure {a : α} (hQ : Q a s) :
    ReturnsIf c (pure a : Exec σ α) s Q :=
  Or.inl ((returns_pure a s Q).mpr hQ)

theorem returnsIf_bind {f : α → Exec σ β} {Q : β → σ → Prop}
    (h : ReturnsIf c m s (fun a s' => ReturnsIf c (f a) s' Q)) :
    ReturnsIf c (m >>= f) s Q := by
  rcases h with ⟨a, s', hrun, hQ | ⟨hc, hfails⟩⟩ | ⟨hc, hfails⟩
  · exact Or.inl ((returns_bind m f s Q).mpr ⟨a, s', hrun, hQ⟩)
  · right
    refine ⟨hc, fun P hP => hfails P ?_⟩
    exact ((returns_bind m f s P).mp hP).of_run hrun
  · right
    exact ⟨hc, fun P hP => hfails _ ((returns_bind m f s P).mp hP)⟩

/-- A program that does what another one does on a part of its state. -/
theorem returnsIf_of_iff {m' : Exec τ β} {t : τ} {f : β → α} {g : β → τ → σ}
    (hiff : ∀ P : α → σ → Prop,
      Returns m s P ↔ Returns m' t (fun b t' => P (f b) (g b t')))
    (h : ReturnsIf c m' t (fun b t' => Q (f b) (g b t'))) :
    ReturnsIf c m s Q := by
  rcases h with hQ | ⟨hc, hfails⟩
  · exact Or.inl ((hiff Q).mpr hQ)
  · exact Or.inr ⟨hc, fun P hP => hfails _ ((hiff P).mp hP)⟩

end ReturnsIf

/-- An invariant of the loop value that holds up to the answer. -/
theorem yields_iterate {body : ℓ → Exec σ (ℓ ⊕ ρ)} (Inv : ℓ → σ → Prop)
    {Q : ρ → σ → Prop}
    (hstep : ∀ x s, Inv x s → Yields (body x) s (fun r s' =>
      match r with
      | .inl next => Inv next s'
      | .inr answer => Q answer s'))
    {fuel : ℕ} {x : ℓ} {s : σ} (hinv : Inv x s) :
    Yields (iterate body fuel x) s Q := by
  induction fuel generalizing x s with
  | zero => exact yields_throw _ s Q
  | succ fuel ih =>
      unfold iterate
      apply yields_bind
      refine (hstep x s hinv).mono ?_
      intro r s' hr
      cases r with
      | inl next => exact ih hr
      | inr answer => exact yields_pure hr

/-- Total correctness of a loop from an invariant indexed by the number of
iterations that may still follow. -/
theorem iterate_returns {body : ℓ → Exec σ (ℓ ⊕ ρ)}
    (Inv : ℕ → ℓ → σ → Prop) {Q : ρ → σ → Prop}
    (hstep : ∀ k x s, Inv k x s →
      Returns (body x) s (fun r s' =>
        match r with
        | .inl next => ∃ k' < k, Inv k' next s'
        | .inr answer => Q answer s'))
    {fuel k : ℕ} {x : ℓ} {s : σ} (hinv : Inv k x s) (hfuel : k < fuel) :
    Returns (iterate body fuel x) s Q := by
  induction fuel generalizing k x s with
  | zero => omega
  | succ fuel ih =>
      unfold iterate
      rw [returns_bind]
      apply (hstep k x s hinv).mono
      intro r s' hr
      cases r with
      | inl next =>
          obtain ⟨k', hk', hnext⟩ := hr
          exact ih hnext (by omega)
      | inr answer =>
          rw [returns_pure]
          exact hr

/-- A loop whose body either faults or goes on never returns. -/
theorem not_returns_iterate {body : ℓ → Exec σ (ℓ ⊕ ρ)} (Inv : ℓ → σ → Prop)
    (hstep : ∀ x s, Inv x s → ∀ Q, Returns (body x) s Q →
      ∃ next s', Inv next s' ∧ Q (.inl next) s')
    {fuel : ℕ} {x : ℓ} {s : σ} (hinv : Inv x s) (Q : ρ → σ → Prop) :
    ¬ Returns (iterate body fuel x) s Q := by
  induction fuel generalizing x s with
  | zero => simp [iterate]
  | succ fuel ih =>
      intro h
      rw [iterate, returns_bind] at h
      obtain ⟨next, s', hnext, h⟩ := hstep x s hinv _ h
      exact ih hnext h

/-- The values with which a loop enters its body. -/
def loopValues (body : ℓ → Exec σ (ℓ ⊕ ρ)) : ℕ → ℓ → Exec σ (List ℓ)
  | 0, _ => throw .outOfFuel
  | fuel + 1, x => do
      match ← body x with
      | .inl next => do
          let rest ← loopValues body fuel next
          pure (x :: rest)
      | .inr _ => pure [x]

theorem returns_iterate_of_loopValues {body : ℓ → Exec σ (ℓ ⊕ ρ)} {fuel : ℕ}
    {x : ℓ} {s : σ} {Q : σ → Prop}
    (h : Returns (loopValues body fuel x) s (fun _ s' => Q s')) :
    Returns (iterate body fuel x) s (fun _ s' => Q s') := by
  induction fuel generalizing x s with
  | zero => simp [loopValues] at h
  | succ fuel ih =>
      rw [loopValues, returns_bind] at h
      rw [iterate, returns_bind]
      apply h.mono
      intro r s' hr
      cases r with
      | inl next =>
          rw [returns_bind] at hr
          apply ih
          apply hr.mono
          intro values t ht
          exact (returns_pure _ t _).mp ht
      | inr answer =>
          rw [returns_pure] at hr ⊢
          exact hr

/-! ## Runs -/

/-- The answers and the final state of an abstract machine on a list of
inputs. -/
def specRun (spec : ι → μ → ω × μ) : List ι → μ → List ω × μ
  | [], m => ([], m)
  | i :: rest, m =>
      let (answer, next) := spec i m
      let (answers, last) := specRun spec rest next
      (answer :: answers, last)

/-- The states in which the abstract machine meets each of its inputs all
satisfy a condition. -/
def SpecMeets (spec : ι → μ → ω × μ) (cond : ι → μ → Prop) :
    List ι → μ → Prop
  | [], _ => True
  | i :: rest, m => cond i m ∧ SpecMeets spec cond rest (spec i m).2

instance SpecMeets.decidable (spec : ι → μ → ω × μ) (cond : ι → μ → Prop)
    [∀ i m, Decidable (cond i m)] :
    ∀ inputs m, Decidable (SpecMeets spec cond inputs m)
  | [], _ => isTrue trivial
  | i :: rest, m =>
      have := SpecMeets.decidable spec cond rest (spec i m).2
      inferInstanceAs (Decidable (cond i m ∧ _))

theorem specMeets_append {spec : ι → μ → ω × μ} {P : ι → μ → Prop}
    {front rest : List ι} {m : μ} :
    SpecMeets spec P (front ++ rest) m ↔
      SpecMeets spec P front m ∧
        SpecMeets spec P rest (specRun spec front m).2 := by
  induction front generalizing m with
  | nil => simp [SpecMeets, specRun]
  | cons i front ih =>
      simp only [List.cons_append, SpecMeets, specRun, ih, and_assoc]

theorem specMeets_of_forall {spec : ι → μ → ω × μ} {P : ι → μ → Prop}
    {inputs : List ι} (hall : ∀ i ∈ inputs, ∀ m, P i m) (m : μ) :
    SpecMeets spec P inputs m := by
  induction inputs generalizing m with
  | nil => trivial
  | cons i rest ih =>
      refine ⟨hall i (by simp) m, ih ?_ _⟩
      intro j hj
      exact hall j (List.mem_cons_of_mem i hj)

/-- Forward simulation over a whole run: if every input is answered as the
abstract machine answers it and keeps the relation, so is every list. -/
theorem runAll_simulates {step : ι → Exec σ ω} {spec : ι → μ → ω × μ}
    {R : σ → μ → Prop} (cond : ι → μ → Prop)
    (hstep : ∀ i s m, R s m → cond i m →
      Returns (step i) s
        (fun answer s' => answer = (spec i m).1 ∧ R s' (spec i m).2))
    {inputs : List ι} {s : σ} {m : μ} (hR : R s m)
    (hcond : SpecMeets spec cond inputs m) :
    Returns (runAll step inputs) s (fun answers s' =>
      answers = (specRun spec inputs m).1 ∧
        R s' (specRun spec inputs m).2) := by
  induction inputs generalizing s m with
  | nil => simp [runAll, specRun, hR]
  | cons i rest ih =>
      simp only [runAll, returns_bind]
      apply (hstep i s m hR hcond.1).mono
      rintro answer s₁ ⟨rfl, hR₁⟩
      apply (ih hR₁ hcond.2).mono
      rintro answers s₂ ⟨rfl, hR₂⟩
      simp [specRun, hR₂]

theorem specMeets_iff_forall {spec : ι → μ → ω × μ} {P : ι → Prop}
    {inputs : List ι} {m : μ} :
    SpecMeets spec (fun i _ => P i) inputs m ↔ ∀ i ∈ inputs, P i := by
  induction inputs generalizing m with
  | nil => simp [SpecMeets]
  | cons i rest ih => simp [SpecMeets, ih]

/-- A run answers as the abstract machine does exactly when the condition is
met at every input, if an input at which it is not met is answered
otherwise. -/
theorem runAll_simulates_iff {step : ι → Exec σ ω} {spec : ι → μ → ω × μ}
    {R : σ → μ → Prop} (ok : ι → Prop) (cond : ι → μ → Prop)
    (hstep : ∀ i s m, ok i → R s m → cond i m →
      Returns (step i) s
        (fun answer s' => answer = (spec i m).1 ∧ R s' (spec i m).2))
    (hfail : ∀ i s m, ok i → R s m → ¬ cond i m →
      ¬ Returns (step i) s (fun answer _ => answer = (spec i m).1))
    {inputs : List ι} {s : σ} {m : μ} (hok : ∀ i ∈ inputs, ok i)
    (hR : R s m) :
    Returns (runAll step inputs) s (fun answers s' =>
      answers = (specRun spec inputs m).1 ∧
        R s' (specRun spec inputs m).2) ↔
    SpecMeets spec cond inputs m := by
  induction inputs generalizing s m with
  | nil => simp [runAll, specRun, SpecMeets, hR]
  | cons i rest ih =>
      have hrest : ∀ j ∈ rest, ok j :=
        fun j hj => hok j (List.mem_cons_of_mem i hj)
      simp only [runAll, returns_bind, returns_pure, specRun,
        List.cons.injEq, SpecMeets]
      by_cases hcond : cond i m
      · obtain ⟨answer, s₁, hrun, rfl, hR₁⟩ :=
          hstep i s m (hok i (by simp)) hR hcond
        simp only [hcond, true_and]
        rw [← ih hrest hR₁]
        constructor
        · intro h
          apply (h.of_run hrun).mono
          intro answers s₂ hs₂
          exact ⟨hs₂.1.2, hs₂.2⟩
        · intro h
          refine ⟨_, s₁, hrun, h.mono ?_⟩
          intro answers s₂ hs₂
          exact ⟨⟨rfl, hs₂.1⟩, hs₂.2⟩
      · simp only [hcond, false_and, iff_false]
        intro h
        apply hfail i s m (hok i (by simp)) hR hcond
        apply h.mono
        intro answer s₁ hs₁
        obtain ⟨answers, s₂, -, hs₂, -⟩ := hs₁
        exact hs₂.1

theorem runAll_refines {step : ι → Exec σ ω} {spec : ι → μ → ω × μ}
    {R : σ → μ → Prop}
    (hstep : ∀ i s m, R s m → Returns (step i) s
      (fun answer s' => answer = (spec i m).1 ∧ R s' (spec i m).2))
    {inputs : List ι} {s : σ} {m : μ} (hR : R s m) :
    Returns (runAll step inputs) s (fun answers s' =>
      answers = (specRun spec inputs m).1 ∧
        R s' (specRun spec inputs m).2) :=
  runAll_simulates (fun _ _ => True) (fun i s m hm _ => hstep i s m hm) hR
    (specMeets_of_forall (fun _ _ _ => trivial) m)

/-- A quantity that no call diminishes stays the same over a whole run exactly
when every input meets the condition under which a call leaves it. -/
theorem runAll_unchanged_iff {step : ι → Exec σ ω} {spec : ι → μ → ω × μ}
    {R : σ → μ → ℕ → Prop} (cond : ι → μ → Prop)
    (hstep : ∀ i s m k, R s m k → Returns (step i) s (fun _ s' =>
      ∃ k', R s' (spec i m).2 k' ∧ k ≤ k' ∧ (k' = k ↔ cond i m)))
    {inputs : List ι} {s : σ} {m : μ} {k : ℕ} (hR : R s m k) :
    Returns (runAll step inputs) s (fun _ s' =>
      ∃ k', R s' (specRun spec inputs m).2 k' ∧ k ≤ k' ∧
        (k' = k ↔ SpecMeets spec cond inputs m)) := by
  induction inputs generalizing s m k with
  | nil =>
      simp only [runAll, returns_pure, specRun, SpecMeets]
      exact ⟨k, hR, le_refl k, by simp⟩
  | cons i rest ih =>
      simp only [runAll, returns_bind, returns_pure]
      apply (hstep i s m k hR).mono
      intro answer s₁ hs₁
      obtain ⟨k₁, hR₁, hk₁, hiff₁⟩ := hs₁
      apply (ih hR₁).mono
      intro answers s₂ hs₂
      obtain ⟨k₂, hR₂, hk₂, hiff₂⟩ := hs₂
      refine ⟨k₂, hR₂, hk₁.trans hk₂, ?_⟩
      simp only [SpecMeets, ← hiff₁, ← hiff₂]
      omega

/-! ## Two programs side by side -/

/-- Both programs fault, or both return the same answer in related states. -/
inductive SameOutcome (R : σ → τ → Prop) :
    Except Fault (ω × σ) → Except Fault (ω × τ) → Prop
  | returned (answer : ω) (s : σ) (t : τ) (h : R s t) :
      SameOutcome R (.ok (answer, s)) (.ok (answer, t))
  | failed (fault fault' : Fault) :
      SameOutcome R (.error fault) (.error fault')

theorem sameOutcome_pure {R : σ → τ → Prop} (a : ω) {s : σ} {t : τ}
    (h : R s t) :
    SameOutcome R ((pure a : Exec σ ω).run s) ((pure a : Exec τ ω).run t) :=
  .returned a s t h

theorem sameOutcome_throw (R : σ → τ → Prop) (fault fault' : Fault) (s : σ)
    (t : τ) :
    SameOutcome R ((throw fault : Exec σ ω).run s)
      ((throw fault' : Exec τ ω).run t) :=
  .failed fault fault'

theorem sameOutcome_modify {R : σ → τ → Prop} {f : σ → σ} {g : τ → τ} {s : σ}
    {t : τ} (h : R (f s) (g t)) :
    SameOutcome R ((modify f : Exec σ PUnit).run s)
      ((modify g : Exec τ PUnit).run t) :=
  SameOutcome.returned PUnit.unit (f s) (g t) h

theorem sameOutcome_get_bind {R : σ → τ → Prop} {f : σ → Exec σ ω}
    {g : τ → Exec τ ω} {s : σ} {t : τ}
    (h : SameOutcome R ((f s).run s) ((g t).run t)) :
    SameOutcome R ((get >>= f).run s) ((get >>= g).run t) := h

theorem sameOutcome_of_returns {R : σ → τ → Prop} {m : Exec σ ω}
    {m' : Exec τ ω} {s s' : σ} {t t' : τ} {a : ω}
    (hm : Returns m s (fun b u => b = a ∧ u = s'))
    (hm' : Returns m' t (fun b u => b = a ∧ u = t')) (hR : R s' t') :
    SameOutcome R (m.run s) (m'.run t) := by
  obtain ⟨b, u, hrun, rfl, rfl⟩ := hm
  obtain ⟨b', u', hrun', rfl, rfl⟩ := hm'
  rw [hrun, hrun']
  exact .returned _ _ _ hR

theorem SameOutcome.bind {R R' : σ → τ → Prop} {m : Exec σ α}
    {m' : Exec τ α} {f : α → Exec σ ω} {f' : α → Exec τ ω} {s : σ} {t : τ}
    (h : SameOutcome R (m.run s) (m'.run t))
    (hf : ∀ a s' t', m.run s = .ok (a, s') → R s' t' →
      SameOutcome R' ((f a).run s') ((f' a).run t')) :
    SameOutcome R' ((m >>= f).run s) ((m' >>= f').run t) := by
  rw [StateT.run_bind, StateT.run_bind]
  generalize hm : m.run s = outcome at h ⊢
  generalize m'.run t = outcome' at h ⊢
  cases h with
  | returned a s' t' hR => exact hf a s' t' hm hR
  | failed fault fault' => exact .failed fault fault'

theorem sameOutcome_iterate {R : σ → τ → Prop} {body : ℓ → Exec σ (ℓ ⊕ ρ)}
    {body' : ℓ → Exec τ (ℓ ⊕ ρ)}
    (hstep : ∀ x s t, R s t →
      SameOutcome R ((body x).run s) ((body' x).run t))
    {fuel : ℕ} {x : ℓ} {s : σ} {t : τ} (hR : R s t) :
    SameOutcome R ((iterate body fuel x).run s)
      ((iterate body' fuel x).run t) := by
  induction fuel generalizing x s t with
  | zero => exact .failed _ _
  | succ fuel ih =>
      apply (hstep x s t hR).bind
      intro r s' t' _ hR'
      cases r with
      | inl next => exact ih hR'
      | inr answer => exact sameOutcome_pure answer hR'

theorem sameOutcome_of_fails {R : σ → τ → Prop} {m : Exec σ ω}
    {m' : Exec τ ω} {s : σ} {t : τ} (hm : ∀ Q, ¬ Returns m s Q)
    (hm' : ∀ Q, ¬ Returns m' t Q) : SameOutcome R (m.run s) (m'.run t) := by
  cases hrun : m.run s with
  | ok p => exact absurd ⟨p.1, p.2, hrun, trivial⟩ (hm (fun _ _ => True))
  | error fault =>
      cases hrun' : m'.run t with
      | ok p => exact absurd ⟨p.1, p.2, hrun', trivial⟩ (hm' (fun _ _ => True))
      | error fault' => exact .failed _ _

theorem sameOutcome_of_iff {R : σ → τ → Prop} {m : Exec σ ω} {m' : Exec τ ω}
    {common : Exec μ α} {s : σ} {t : τ} {u : μ} {f : α → ω}
    {g : α → μ → σ} {g' : α → μ → τ}
    (hm : ∀ Q : ω → σ → Prop, Returns m s Q ↔
      Returns common u (fun a v => Q (f a) (g a v)))
    (hm' : ∀ Q : ω → τ → Prop, Returns m' t Q ↔
      Returns common u (fun a v => Q (f a) (g' a v)))
    (hR : ∀ a v, R (g a v) (g' a v)) :
    SameOutcome R (m.run s) (m'.run t) := by
  cases hcommon : common.run u with
  | ok p =>
      obtain ⟨a, v⟩ := p
      have hrun : m.run s = .ok (f a, g a v) := by
        obtain ⟨b, s', hrun, rfl, rfl⟩ :=
          (hm (fun b s' => b = f a ∧ s' = g a v)).mpr
            ⟨a, v, hcommon, rfl, rfl⟩
        exact hrun
      have hrun' : m'.run t = .ok (f a, g' a v) := by
        obtain ⟨b, t', hrun, rfl, rfl⟩ :=
          (hm' (fun b t' => b = f a ∧ t' = g' a v)).mpr
            ⟨a, v, hcommon, rfl, rfl⟩
        exact hrun
      rw [hrun, hrun']
      exact .returned _ _ _ (hR a v)
  | error fault =>
      have hfails : ∀ Q : α → μ → Prop, ¬ Returns common u Q := by
        intro Q h
        obtain ⟨a, v, hrun, -⟩ := h
        rw [hcommon] at hrun
        cases hrun
      apply sameOutcome_of_fails
      · intro Q h
        exact hfails _ ((hm Q).mp h)
      · intro Q h
        exact hfails _ ((hm' Q).mp h)

theorem SameOutcome.returns_iff {R : σ → τ → Prop} {m : Exec σ ω}
    {m' : Exec τ ω} {s : σ} {t : τ}
    (h : SameOutcome R (m.run s) (m'.run t)) (p : ω → Prop) :
    Returns m s (fun a _ => p a) ↔ Returns m' t (fun a _ => p a) := by
  unfold Returns
  generalize m.run s = outcome at h ⊢
  generalize m'.run t = outcome' at h ⊢
  cases h with
  | returned answer s' t' hR => simp
  | failed fault fault' => simp

/-- Every state in which the run meets an input satisfies the condition. -/
def RunMeets (step : ι → Exec σ ω) (cond : ι → σ → Prop) :
    List ι → σ → Prop
  | [], _ => True
  | i :: rest, s => cond i s ∧ ∀ answer s',
      (step i).run s = .ok (answer, s') → RunMeets step cond rest s'

theorem runMeets_cons_of_ok {step : ι → Exec σ ω} {cond : ι → σ → Prop}
    {i : ι} {rest : List ι} {s s' : σ} {answer : ω}
    (hrun : (step i).run s = .ok (answer, s')) :
    RunMeets step cond (i :: rest) s ↔
      cond i s ∧ RunMeets step cond rest s' := by
  simp [RunMeets, hrun]

theorem runMeets_cons_of_error {step : ι → Exec σ ω} {cond : ι → σ → Prop}
    {i : ι} {rest : List ι} {s : σ} {fault : Fault}
    (hrun : (step i).run s = .error fault) :
    RunMeets step cond (i :: rest) s ↔ cond i s := by
  simp [RunMeets, hrun]

theorem runMeets_of_forall {step : ι → Exec σ ω} {cond : ι → σ → Prop}
    (h : ∀ i s, cond i s) (inputs : List ι) (s : σ) :
    RunMeets step cond inputs s := by
  induction inputs generalizing s with
  | nil => trivial
  | cons i rest ih => exact ⟨h i s, fun _ s' _ => ih s'⟩

instance RunMeets.decidable (step : ι → Exec σ ω) (cond : ι → σ → Prop)
    [∀ i s, Decidable (cond i s)] :
    ∀ inputs s, Decidable (RunMeets step cond inputs s)
  | [], _ => isTrue trivial
  | i :: rest, s =>
      match hrun : (step i).run s with
      | .ok (_, s') =>
          have := RunMeets.decidable step cond rest s'
          decidable_of_iff _ (runMeets_cons_of_ok hrun).symm
      | .error _ => decidable_of_iff _ (runMeets_cons_of_error hrun).symm

/-- Two machines of which the second follows the first at every input that
meets the condition give the same answers in a run. -/
theorem runAll_follows {step : ι → Exec σ ω} {step' : ι → Exec τ ω}
    {R : σ → τ → Prop} {cond : ι → σ → Prop}
    (hstep : ∀ i s t, R s t → cond i s → Returns (step i) s (fun answer s' =>
      Returns (step' i) t (fun answer' t' => answer' = answer ∧ R s' t')))
    {inputs : List ι} {s : σ} {t : τ} (hR : R s t)
    (hmeets : RunMeets step cond inputs s) :
    Returns (runAll step inputs) s (fun answers s' =>
      Returns (runAll step' inputs) t (fun answers' t' =>
        answers' = answers ∧ R s' t')) := by
  induction inputs generalizing s t with
  | nil => exact ⟨[], s, rfl, [], t, rfl, rfl, hR⟩
  | cons i rest ih =>
      obtain ⟨answer, s₁, hrun, hfollows⟩ := hstep i s t hR hmeets.1
      have hrest : ∀ answer' t₁, answer' = answer ∧ R s₁ t₁ →
          Returns (runAll step rest) s₁ (fun answers s₂ =>
            Returns (runAll step' rest) t₁ (fun answers' t₂ =>
              answers' = answers ∧ R s₂ t₂)) :=
        fun _ _ h => ih h.2 (hmeets.2 answer s₁ hrun)
      obtain ⟨answer', t₁, hrun', hanswer, hR₁⟩ := hfollows
      obtain ⟨answers, s₂, hruns, hothers⟩ := hrest answer' t₁ ⟨hanswer, hR₁⟩
      simp only [runAll, returns_bind, returns_pure]
      refine ⟨answer, s₁, hrun, answers, s₂, hruns, answer', t₁, hrun', ?_⟩
      apply hothers.mono
      rintro answers' t₂ ⟨rfl, hR₂⟩
      exact ⟨by rw [hanswer], hR₂⟩

/-- Two runs with the same outcome at every input have the same answers. -/
theorem runAll_sameOutcome {step : ι → Exec σ ω} {step' : ι → Exec τ ω}
    {R : σ → τ → Prop} (ok : ι → Prop) (cond : ι → σ → Prop)
    (hstep : ∀ i s t, ok i → R s t → cond i s →
      SameOutcome R ((step i).run s) ((step' i).run t))
    {inputs : List ι} {s : σ} {t : τ} (hok : ∀ i ∈ inputs, ok i)
    (hR : R s t) (hmeets : RunMeets step cond inputs s) :
    SameOutcome R ((runAll step inputs).run s)
      ((runAll step' inputs).run t) := by
  induction inputs generalizing s t with
  | nil => exact .returned [] s t hR
  | cons i rest ih =>
      apply (hstep i s t (hok i (by simp)) hR hmeets.1).bind
      intro answer s₁ t₁ hrun hR₁
      apply (ih (fun j hj => hok j (List.mem_cons_of_mem i hj)) hR₁
        (hmeets.2 answer s₁ hrun)).bind
      intro answers s₂ t₂ _ hR₂
      exact sameOutcome_pure (answer :: answers) hR₂

end Fallible
