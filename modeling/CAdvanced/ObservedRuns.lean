import CAdvanced.FallibleExecution
import CAdvanced.TransitionSystem

/-!
# Observations of runs

What the steps of a schedule show, collected over a run.  A balance at every
step is a balance of the run, and a system that answers every request as a
specification does answers a run of them as the specification does.
-/

namespace Transition

open Fallible

variable {σ α β : Type}

section Observations

variable {step : σ → α → Option σ} {guard : σ → α → Prop} {s t : σ}

/-- What the steps of a schedule show. -/
def observed (step : σ → α → Option σ) (obs : σ → α → List β) :
    List α → σ → List β
  | [], _ => []
  | a :: rest, s => obs s a ++ (step s a).elim [] (observed step obs rest)

theorem invariant_of_heeds {Inv : σ → Prop}
    (hinv : ∀ s a s', Inv s → guard s a → step s a = some s' → Inv s')
    {actions : List α} (hs : Inv s) (hheeds : Heeds step guard actions s)
    (hrun : execute step actions s = some t) : Inv t :=
  Reach.invariant (Reach.start.execute actions hheeds hrun) hs hinv

/-- If what every step puts at the end of a list and takes off its front is
observed, nothing of it is lost or exchanged in a run. -/
theorem observed_balance (Inv : σ → Prop) {made taken : σ → α → List β}
    (pending : σ → List β)
    (hinv : ∀ s a s', Inv s → guard s a → step s a = some s' → Inv s')
    (hstep : ∀ s a s', Inv s → guard s a → step s a = some s' →
      pending s ++ made s a = taken s a ++ pending s')
    {actions : List α} (hs : Inv s) (hheeds : Heeds step guard actions s)
    (hrun : execute step actions s = some t) :
    pending s ++ observed step made actions s =
      observed step taken actions s ++ pending t := by
  induction actions generalizing s with
  | nil =>
      cases hrun
      exact List.append_nil _
  | cons a rest ih =>
      obtain ⟨s', hnext, hrest⟩ := Option.bind_eq_some_iff.mp hrun
      have hothers := ih (hinv s a s' hs hheeds.1 hnext)
        (hheeds.2 s' hnext) hrest
      simp only [observed, hnext, Option.elim_some]
      calc pending s ++ (made s a ++ observed step made rest s')
          = taken s a ++ (pending s' ++ observed step made rest s') := by
            rw [← List.append_assoc, hstep s a s' hs hheeds.1 hnext,
              List.append_assoc]
        _ = taken s a ++ observed step taken rest s' ++ pending t := by
            rw [hothers, List.append_assoc]

theorem observed_nothing (actions : List α) (s : σ) :
    observed step (fun _ _ => ([] : List β)) actions s = [] := by
  induction actions generalizing s with
  | nil => rfl
  | cons a rest ih =>
      rw [observed, List.nil_append]
      cases step s a with
      | none => rfl
      | some s' => exact ih s'

/-- If every step shows the front of a list, a schedule shows the list up to
what is left of it. -/
theorem observed_append (Inv : σ → Prop) (obs : σ → α → List β)
    (pending : σ → List β)
    (hinv : ∀ s a s', Inv s → guard s a → step s a = some s' → Inv s')
    (hstep : ∀ s a s', Inv s → guard s a → step s a = some s' →
      obs s a ++ pending s' = pending s)
    {actions : List α} (hs : Inv s) (hheeds : Heeds step guard actions s)
    (hrun : execute step actions s = some t) :
    observed step obs actions s ++ pending t = pending s := by
  have hbalance : pending s ++ observed step (fun _ _ => []) actions s =
      observed step obs actions s ++ pending t := by
    apply observed_balance Inv pending hinv ?_ hs hheeds hrun
    intro s a s' hs hguard hnext
    rw [List.append_nil, hstep s a s' hs hguard hnext]
  rw [observed_nothing, List.append_nil] at hbalance
  exact hbalance.symm

/-- Requests that are answered one at a time are answered as in a sequential
run of the specification. -/
theorem observed_specRun {ι ω μ : Type} (spec : ι → μ → ω × μ) (out : ω → β)
    (ask : σ → α → Option ι) (reply : σ → α → Option β) (R : σ → μ → Prop)
    (hstep : ∀ s a s' m, R s m → guard s a → step s a = some s' →
      reply s a = (ask s a).map (fun i => out (spec i m).1) ∧
        R s' ((ask s a).elim m (fun i => (spec i m).2)))
    {actions : List α} {m : μ} (hs : R s m)
    (hheeds : Heeds step guard actions s)
    (hrun : execute step actions s = some t) :
    observed step (fun s a => (reply s a).toList) actions s =
        (specRun spec (observed step (fun s a => (ask s a).toList) actions s)
          m).1.map out ∧
      R t (specRun spec
        (observed step (fun s a => (ask s a).toList) actions s) m).2 := by
  induction actions generalizing s m with
  | nil =>
      cases hrun
      exact ⟨rfl, hs⟩
  | cons a rest ih =>
      obtain ⟨s', hnext, hrest⟩ := Option.bind_eq_some_iff.mp hrun
      obtain ⟨hreply, hR⟩ := hstep s a s' m hs hheeds.1 hnext
      obtain ⟨hanswers, hlast⟩ := ih hR (hheeds.2 s' hnext) hrest
      simp only [observed, hnext, Option.elim_some]
      cases hask : ask s a with
      | none =>
          rw [hask] at hreply hanswers hlast
          rw [hreply]
          exact ⟨hanswers, hlast⟩
      | some i =>
          rw [hask] at hreply hanswers hlast
          rw [hreply]
          refine ⟨?_, hlast⟩
          exact congrArg (out (spec i m).1 :: ·) hanswers

theorem observed_length_le {short whole : σ → α → List β}
    (hshort : ∀ s a, short s a <+: whole s a) (actions : List α) (s : σ) :
    (observed step short actions s).length ≤
      (observed step whole actions s).length := by
  induction actions generalizing s with
  | nil => exact le_rfl
  | cons a rest ih =>
      have hfirst := (hshort s a).length_le
      simp only [observed, List.length_append]
      cases step s a with
      | none => exact Nat.add_le_add hfirst le_rfl
      | some s' => exact Nat.add_le_add hfirst (ih s')

/-- If no step shows more in one way than in the other, a run shows the same in
both exactly when each of its steps does. -/
theorem observed_eq_iff_heeds {short whole : σ → α → List β}
    (hshort : ∀ s a, short s a <+: whole s a) {actions : List α}
    (hrun : execute step actions s = some t) :
    observed step short actions s = observed step whole actions s ↔
      Heeds step (fun s a => short s a = whole s a) actions s := by
  induction actions generalizing s with
  | nil => exact ⟨fun _ => trivial, fun _ => rfl⟩
  | cons a rest ih =>
      obtain ⟨s', hnext, hrest⟩ := Option.bind_eq_some_iff.mp hrun
      have hrests := ih hrest
      simp only [observed, Heeds, hnext, Option.elim_some,
        Option.mem_some_iff, forall_eq']
      constructor
      · intro heq
        have hlength := congrArg List.length heq
        rw [List.length_append, List.length_append] at hlength
        have hfirst := (hshort s a).length_le
        have hothers : (observed step short rest s').length ≤
            (observed step whole rest s').length :=
          observed_length_le hshort rest s'
        have hsame : short s a = whole s a :=
          (hshort s a).eq_of_length (by omega)
        rw [hsame] at heq
        exact ⟨hsame, hrests.mp (List.append_cancel_left heq)⟩
      · rintro ⟨hsame, hheeds⟩
        rw [hsame, hrests.mpr hheeds]

end Observations

end Transition
