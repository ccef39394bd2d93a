import Mathlib.Tactic

/-!
# Transition systems

A system is a partial function from states and actions to states; an action
without a next state is not enabled.  An invariant that every enabled step keeps
holds in all reachable states, and a guard restricts which steps a run may take.
-/

namespace Transition

variable {σ α : Type}

/-- The states of the runs that start in `s₀` and whose steps all meet the
guard. -/
inductive Reach (step : σ → α → Option σ) (guard : σ → α → Prop) (s₀ : σ) :
    σ → Prop
  | start : Reach step guard s₀ s₀
  | next {s s' : σ} (a : α) (h : Reach step guard s₀ s) (hguard : guard s a)
      (hstep : step s a = some s') : Reach step guard s₀ s'

abbrev Reachable (step : σ → α → Option σ) (s₀ : σ) : σ → Prop :=
  Reach step (fun _ _ => True) s₀

section Runs

variable {step : σ → α → Option σ} {guard : σ → α → Prop} {s₀ s : σ}

theorem Reach.invariant {Inv : σ → Prop} (h : Reach step guard s₀ s)
    (hstart : Inv s₀)
    (hstep : ∀ s a s', Inv s → guard s a → step s a = some s' → Inv s') :
    Inv s := by
  induction h with
  | start => exact hstart
  | next a h hguard hnext ih => exact hstep _ a _ ih hguard hnext

end Runs

/-! ## Schedules -/

/-- The state behind a schedule, if every action of it is enabled. -/
def execute (step : σ → α → Option σ) : List α → σ → Option σ
  | [], s => some s
  | a :: rest, s => (step s a).bind (execute step rest)

/-- The actions of a schedule all meet the guard. -/
def Heeds (step : σ → α → Option σ) (guard : σ → α → Prop) :
    List α → σ → Prop
  | [], _ => True
  | a :: rest, s => guard s a ∧ ∀ s' ∈ step s a, Heeds step guard rest s'

instance Heeds.decidable (step : σ → α → Option σ) (guard : σ → α → Prop)
    [∀ s a, Decidable (guard s a)] :
    ∀ actions s, Decidable (Heeds step guard actions s)
  | [], _ => isTrue trivial
  | a :: rest, s =>
      have := fun s' => Heeds.decidable step guard rest s'
      inferInstanceAs (Decidable (_ ∧ ∀ s' ∈ step s a, _))

section Schedules

variable {step : σ → α → Option σ} {guard : σ → α → Prop} {s₀ s t : σ}

theorem Reach.execute (actions : List α) (h : Reach step guard s₀ s)
    (hheeds : Heeds step guard actions s)
    (hrun : execute step actions s = some t) : Reach step guard s₀ t := by
  induction actions generalizing s with
  | nil =>
      cases hrun
      exact h
  | cons a rest ih =>
      obtain ⟨s', hstep, hrest⟩ := Option.bind_eq_some_iff.mp hrun
      exact ih (.next a h hheeds.1 hstep) (hheeds.2 s' hstep) hrest

theorem heeds_true (actions : List α) (s : σ) :
    Heeds step (fun _ _ => True) actions s := by
  induction actions generalizing s with
  | nil => trivial
  | cons a rest ih => exact ⟨trivial, fun s' _ => ih s'⟩

theorem heeds_append {front rest : List α} :
    Heeds step guard (front ++ rest) s ↔
      Heeds step guard front s ∧
        ∀ s' ∈ execute step front s, Heeds step guard rest s' := by
  induction front generalizing s with
  | nil => simp [Heeds, execute]
  | cons a front ih =>
      cases hstep : step s a with
      | none => simp [Heeds, execute, hstep]
      | some s' => simp [Heeds, execute, hstep, ih, and_assoc]

theorem reachable_of_execute {actions : List α}
    (hrun : execute step actions s₀ = some s) : Reachable step s₀ s :=
  Reach.start.execute actions (heeds_true actions s₀) hrun

theorem heeds_and {P Q : σ → α → Prop} {actions : List α} :
    Heeds step (fun s a => P s a ∧ Q s a) actions s ↔
      Heeds step P actions s ∧ Heeds step Q actions s := by
  induction actions generalizing s with
  | nil => simp [Heeds]
  | cons a rest ih =>
      cases hstep : step s a with
      | none => simp [Heeds, hstep]
      | some s' =>
          simp only [Heeds, hstep, Option.mem_some_iff, forall_eq', ih]
          tauto

/-- What holds at every guarded step between states of an invariant holds at
every step of a guarded run. -/
theorem heeds_of_invariant {P : σ → α → Prop} {Inv : σ → Prop}
    (hinv : ∀ s a s', Inv s → guard s a → step s a = some s' → Inv s')
    (hP : ∀ s a s', Inv s → guard s a → step s a = some s' → P s a)
    {actions : List α} (hs : Inv s) (hheeds : Heeds step guard actions s)
    (hrun : execute step actions s = some t) : Heeds step P actions s := by
  induction actions generalizing s with
  | nil => trivial
  | cons a rest ih =>
      obtain ⟨s', hstep, hrest⟩ := Option.bind_eq_some_iff.mp hrun
      refine ⟨hP s a s' hs hheeds.1 hstep, ?_⟩
      intro t' ht'
      rw [Option.mem_def, hstep, Option.some.injEq] at ht'
      subst ht'
      exact ih (hinv s a s' hs hheeds.1 hstep) (hheeds.2 s' hstep) hrest

/-- Two conditions hold of the same runs if they agree at every step between
states of an invariant. -/
theorem heeds_iff_of_invariant {P Q : σ → α → Prop} {Inv : σ → Prop}
    (hinv : ∀ s a s', Inv s → guard s a → step s a = some s' → Inv s')
    (hiff : ∀ s a s', Inv s → guard s a → step s a = some s' →
      (P s a ↔ Q s a))
    {actions : List α} (hs : Inv s) (hheeds : Heeds step guard actions s)
    (hrun : execute step actions s = some t) :
    Heeds step P actions s ↔ Heeds step Q actions s := by
  constructor
  · intro hP
    apply heeds_of_invariant (fun s a s' hs hg => hinv s a s' hs hg.1) ?_ hs
      (heeds_and.mpr ⟨hheeds, hP⟩) hrun
    intro s a s' hs hg hstep
    exact (hiff s a s' hs hg.1 hstep).mp hg.2
  · intro hQ
    apply heeds_of_invariant (fun s a s' hs hg => hinv s a s' hs hg.1) ?_ hs
      (heeds_and.mpr ⟨hheeds, hQ⟩) hrun
    intro s a s' hs hg hstep
    exact (hiff s a s' hs hg.1 hstep).mpr hg.2

/-- Actions that use up a potential, which no step raises, are few. -/
theorem countP_le_potential (Inv : σ → Prop) (p : α → Bool)
    (potential : σ → ℕ)
    (hinv : ∀ s a s', Inv s → step s a = some s' → Inv s')
    (hstep : ∀ s a s', Inv s → step s a = some s' →
      potential s' + (if p a then 1 else 0) ≤ potential s)
    {actions : List α} (hs : Inv s) (hrun : execute step actions s = some t) :
    potential t + actions.countP p ≤ potential s := by
  induction actions generalizing s with
  | nil =>
      cases hrun
      exact le_rfl
  | cons a rest ih =>
      obtain ⟨s', hnext, hrest⟩ := Option.bind_eq_some_iff.mp hrun
      have hfirst := hstep s a s' hs hnext
      have hothers := ih (hinv s a s' hs hnext) hrest
      rw [List.countP_cons]
      omega

/-- What an invariant shows of every step holds at every step of a run. -/
theorem heeds_of_inv {P : σ → α → Prop} (Inv : σ → Prop)
    (hinv : ∀ s a s', Inv s → step s a = some s' → Inv s')
    (hP : ∀ s a s', Inv s → step s a = some s' → P s a)
    {actions : List α} (hs : Inv s) (hrun : execute step actions s = some t) :
    Heeds step P actions s :=
  heeds_of_invariant (fun s a s' h _ => hinv s a s' h)
    (fun s a s' h _ => hP s a s' h) hs (heeds_true actions s) hrun

theorem execute_append {front rest : List α} :
    execute step (front ++ rest) s
      = (execute step front s).bind (execute step rest) := by
  induction front generalizing s with
  | nil => rfl
  | cons a front ih =>
      cases hstep : step s a with
      | none => simp [execute, hstep]
      | some s' => simp [execute, hstep, ih]

end Schedules

/-! ## Processes -/

/-- The sum of a weight over all processes when one of them moves. -/
theorem sum_update {ι β : Type} [Fintype ι] [DecidableEq ι] (weight : β → ℕ)
    (place : ι → β) (i : ι) (b : β) :
    (∑ j, weight (Function.update place i b j)) + weight (place i) =
      (∑ j, weight (place j)) + weight b := by
  have hothers : ∑ j ∈ Finset.univ.erase i, weight (Function.update place i b j)
      = ∑ j ∈ Finset.univ.erase i, weight (place j) := by
    apply Finset.sum_congr rfl
    intro j hj
    rw [Function.update_of_ne (Finset.ne_of_mem_erase hj)]
  rw [← Finset.sum_erase_add _ _ (Finset.mem_univ i), hothers,
    Function.update_self, add_right_comm,
    Finset.sum_erase_add _ _ (Finset.mem_univ i)]

end Transition
