import CAdvanced.FallibleExecution

/-!
# One execution beside another

A second program tracks a first one when it returns whenever the first one
does, with the same answer.  It may check more than the first one; the first
one's own success is what shows that the checks hold.
-/

namespace Fallible

variable {σ τ ℓ ρ α β : Type} {s : σ} {t : τ}

/-- Whatever the first program returns, the second one returns from its state,
and the two states they end in are related to the answer. -/
def Tracks (m : Exec σ α) (m' : Exec τ α) (s : σ) (t : τ)
    (Q : α → σ → τ → Prop) : Prop :=
  Yields m s (fun a s' => Returns m' t (fun b t' => b = a ∧ Q a s' t'))

theorem Tracks.mono {m : Exec σ α} {m' : Exec τ α} {P Q : α → σ → τ → Prop}
    (h : Tracks m m' s t P) (himp : ∀ a s' t', P a s' t' → Q a s' t') :
    Tracks m m' s t Q := by
  refine Yields.mono h ?_
  intro a s' hreturns
  apply hreturns.mono
  intro b t' hb
  exact ⟨hb.1, himp a s' t' hb.2⟩

/-- The first program's own run is known as well. -/
theorem Tracks.withRun {m : Exec σ α} {m' : Exec τ α}
    {Q : α → σ → τ → Prop} (h : Tracks m m' s t Q) :
    Tracks m m' s t
      (fun a s' t' => m.run s = .ok (a, s') ∧ Q a s' t') := by
  intro a s' hrun
  apply (h a s' hrun).mono
  intro b t' hb
  exact ⟨hb.1, hrun, hb.2⟩

theorem tracks_pure {a : α} {Q : α → σ → τ → Prop} (hQ : Q a s t) :
    Tracks (pure a : Exec σ α) (pure a : Exec τ α) s t Q :=
  yields_pure ((returns_pure a t _).mpr ⟨rfl, hQ⟩)

theorem tracks_throw (fault : Fault) (m' : Exec τ α)
    (Q : α → σ → τ → Prop) : Tracks (throw fault : Exec σ α) m' s t Q :=
  yields_throw fault s _

theorem tracks_modify {f : σ → σ} {g : τ → τ} {Q : PUnit → σ → τ → Prop}
    (hQ : Q ⟨⟩ (f s) (g t)) :
    Tracks (modify f : Exec σ PUnit) (modify g : Exec τ PUnit) s t Q :=
  yields_modify ((returns_modify t g _).mpr ⟨rfl, hQ⟩)

/-- Where the first program does not return there is nothing to track. -/
theorem tracks_of_not_returns {m : Exec σ α} (m' : Exec τ α)
    {Q : α → σ → τ → Prop} (hm : ∀ P, ¬ Returns m s P) :
    Tracks m m' s t Q := by
  intro a s' hrun
  exact absurd ⟨a, s', hrun, trivial⟩ (hm (fun _ _ => True))

theorem tracks_bind {m : Exec σ α} {m' : Exec τ α} {g : α → Exec σ β}
    {g' : α → Exec τ β} {Q : β → σ → τ → Prop}
    (h : Tracks m m' s t (fun a s' t' => Tracks (g a) (g' a) s' t' Q)) :
    Tracks (m >>= g) (m' >>= g') s t Q := by
  refine yields_bind (Yields.mono h ?_)
  intro a s' hreturns
  obtain ⟨b, t', hrun, rfl, htracks⟩ := hreturns
  refine Yields.mono htracks ?_
  intro c s'' hrest
  rw [returns_bind]
  exact ⟨b, t', hrun, hrest⟩

theorem Tracks.check {m : Exec σ α} {m' : Exec τ α} {check : Exec τ Unit}
    {Q : α → σ → τ → Prop} (h : Tracks m m' s t Q)
    (hcheck : Returns check t (fun _ t' => t' = t)) :
    Tracks m (do check; m') s t Q := by
  refine Yields.mono h ?_
  intro a s' hreturns
  rw [returns_bind]
  apply hcheck.mono
  intro _ t' ht'
  rw [ht']
  exact hreturns

theorem tracks_ite {c : Prop} [Decidable c] {m₁ m₂ : Exec σ α}
    {m₁' m₂' : Exec τ α} {Q : α → σ → τ → Prop}
    (htrue : c → Tracks m₁ m₁' s t Q) (hfalse : ¬ c → Tracks m₂ m₂' s t Q) :
    Tracks (if c then m₁ else m₂) (if c then m₁' else m₂') s t Q := by
  by_cases hc : c
  · rw [if_pos hc, if_pos hc]
    exact htrue hc
  · rw [if_neg hc, if_neg hc]
    exact hfalse hc

/-- The loops go hand in hand as long as the loop values are related. -/
theorem tracks_iterate {body : ℓ → Exec σ (ℓ ⊕ ρ)}
    {body' : ℓ → Exec τ (ℓ ⊕ ρ)} (Inv : ℓ → σ → τ → Prop)
    {Q : ρ → σ → τ → Prop}
    (hstep : ∀ x s t, Inv x s t → Tracks (body x) (body' x) s t
      (fun r s' t' =>
        match r with
        | .inl next => Inv next s' t'
        | .inr answer => Q answer s' t'))
    (fuel : ℕ) {x : ℓ} (h : Inv x s t) :
    Tracks (iterate body fuel x) (iterate body' fuel x) s t Q := by
  induction fuel generalizing x s t with
  | zero => exact tracks_throw _ _ _
  | succ fuel ih =>
      refine tracks_bind ((hstep x s t h).mono ?_)
      intro r s' t' hr
      cases r with
      | inl next => exact ih hr
      | inr answer => exact tracks_pure hr

end Fallible
