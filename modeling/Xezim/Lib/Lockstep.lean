import Mathlib.Tactic.Common

/-! Deterministic machines, and simulations whose turns take several steps on either side. -/

namespace Lockstep

variable {σ τ η θ : Type}

/-- A number of steps of a machine that goes on to a state or ends with a result. -/
inductive Steps (step : σ → σ ⊕ η) : Nat → σ → σ → Prop
  | refl (s : σ) : Steps step 0 s s
  | cons {n : Nat} {s t u : σ} : step s = .inl t → Steps step n t u → Steps step (n + 1) s u

section Runs

variable {step : σ → σ ⊕ η} {m n : Nat} {s t u : σ} {h : η}

/-- One step is a run of length one. -/
theorem Steps.one (stepped : step s = .inl t) : Steps step 1 s t := .cons stepped (.refl t)

/-- Runs compose. -/
theorem Steps.trans (first : Steps step m s t) (rest : Steps step n t u) : Steps step (m + n) s u := by
  induction first with
  | refl _ => simpa using rest
  | cons stepped _ ih =>
    rw [Nat.succ_add]
    exact .cons stepped (ih rest)

/-- A run of a given length leads to one state. -/
theorem Steps.unique {t' : σ} (first : Steps step n s t) (second : Steps step n s t') : t = t' := by
  induction first with
  | refl _ =>
    cases second with
    | refl _ => rfl
  | cons stepped _ ih =>
    cases second with
    | cons stepped' rest =>
      rw [stepped] at stepped'
      cases stepped'
      exact ih rest

/-- Every run that has not ended is a beginning of the one that ends. -/
theorem Steps.within (whole : Steps step n s u) (ended : step u = .inr h) (part : Steps step m s t) :
    m ≤ n ∧ Steps step (n - m) t u := by
  induction part generalizing n with
  | refl _ => exact ⟨Nat.zero_le n, whole⟩
  | cons stepped _ ih =>
    cases whole with
    | refl _ =>
      -- The ending state makes no step.
      rw [stepped] at ended
      cases ended
    | cons stepped' rest =>
      rw [stepped] at stepped'
      cases stepped'
      obtain ⟨le, left⟩ := ih rest
      exact ⟨Nat.succ_le_succ le, by rwa [Nat.succ_sub_succ]⟩

/-- A run ends in one state only. -/
theorem Steps.ending_unique {h' : η} (first : Steps step n s t) (ended : step t = .inr h)
    (second : Steps step m s u) (ended' : step u = .inr h') : t = u := by
  obtain ⟨-, rest⟩ := first.within ended second
  generalize n - m = k at rest
  cases rest with
  | refl _ => rfl
  | cons stepped _ =>
    rw [stepped] at ended'
    cases ended'

end Runs

/-- What two machines do from related states: both go on for a while and are related again, both end,
or the first ends where the second goes its own way. -/
inductive Turn (step : σ → σ ⊕ η) (step' : τ → τ ⊕ θ) (related : σ → τ → Prop)
    (agree : σ → η → τ → θ → Prop) (depart : σ → η → τ → Prop) (s : σ) (t : τ) : Prop
  | on {m n : Nat} {s' : σ} {t' : τ} : Steps step (m + 1) s s' → Steps step' (n + 1) t t' →
      related s' t' → Turn step step' related agree depart s t
  | ends {m n : Nat} {s' : σ} {h : η} {t' : τ} {g : θ} : Steps step m s s' → step s' = .inr h →
      Steps step' n t t' → step' t' = .inr g → agree s' h t' g →
      Turn step step' related agree depart s t
  | parts {m n : Nat} {s' : σ} {h : η} {t' : τ} : Steps step m s s' → step s' = .inr h →
      Steps step' n t t' → depart s' h t' → Turn step step' related agree depart s t

section Simulation

variable {step : σ → σ ⊕ η} {step' : τ → τ ⊕ θ} {related : σ → τ → Prop}
  {agree : σ → η → τ → θ → Prop} {depart : σ → η → τ → Prop} {n : Nat} {s s' : σ} {t t' : τ}

/-- The turns follow the first machine to its end. -/
theorem forward (turn : ∀ s t, related s t → Turn step step' related agree depart s t)
    (start : related s t) {h : η} (run : Steps step n s s') (ended : step s' = .inr h) :
    (∃ k t' g, Steps step' k t t' ∧ step' t' = .inr g ∧ agree s' h t' g) ∨
      ∃ k t', Steps step' k t t' ∧ depart s' h t' := by
  induction n using Nat.strongRecOn generalizing s t with
  | ind n ih =>
    cases turn s t start with
    | on left right again =>
      -- A turn takes at least one step off the run that is left.
      obtain ⟨le, rest⟩ := run.within ended left
      rcases ih _ (by omega) again rest with ⟨k, t', g, more, halted, fine⟩ | ⟨k, t', more, gone⟩
      · exact .inl ⟨_, t', g, right.trans more, halted, fine⟩
      · exact .inr ⟨_, t', right.trans more, gone⟩
    | ends left ended' right halted fine =>
      obtain rfl := run.ending_unique ended left ended'
      rw [ended] at ended'
      cases ended'
      exact .inl ⟨_, _, _, right, halted, fine⟩
    | parts left ended' right gone =>
      obtain rfl := run.ending_unique ended left ended'
      rw [ended] at ended'
      cases ended'
      exact .inr ⟨_, _, right, gone⟩

/-- The turns follow the second machine to its end. -/
theorem backward (turn : ∀ s t, related s t → Turn step step' related agree depart s t)
    (start : related s t) {g : θ} (run : Steps step' n t t') (ended : step' t' = .inr g) :
    (∃ k s' h, Steps step k s s' ∧ step s' = .inr h ∧ agree s' h t' g) ∨
      ∃ k s' h j t'', Steps step k s s' ∧ step s' = .inr h ∧ Steps step' j t t'' ∧ depart s' h t'' := by
  induction n using Nat.strongRecOn generalizing s t with
  | ind n ih =>
    cases turn s t start with
    | on left right again =>
      obtain ⟨le, rest⟩ := run.within ended right
      rcases ih _ (by omega) again rest with
        ⟨k, s', h, more, halted, fine⟩ | ⟨k, s', h, j, t'', more, halted, apart, gone⟩
      · exact .inl ⟨_, s', h, left.trans more, halted, fine⟩
      · exact .inr ⟨_, s', h, _, t'', left.trans more, halted, right.trans apart, gone⟩
    | ends left halted right ended' fine =>
      obtain rfl := run.ending_unique ended right ended'
      rw [ended] at ended'
      cases ended'
      exact .inl ⟨_, _, _, left, halted, fine⟩
    | parts left halted right gone => exact .inr ⟨_, _, _, _, _, left, halted, right, gone⟩

end Simulation

end Lockstep
