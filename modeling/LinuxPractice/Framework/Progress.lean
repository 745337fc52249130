import LinuxPractice.Framework.Machine

namespace LinuxPractice.Machine

variable {σ ℓ : Type*}

/-- No productive label can be taken any more. -/
def Resting (M : Machine σ ℓ) (productive : ℓ → Bool) (s : σ) : Prop :=
  ∀ l s', M.step s l = some s' → productive l = false

/-- Productive steps use up a measure, the other ones do not refill it. -/
structure Consumes (M : Machine σ ℓ) (productive : ℓ → Bool) (μ : σ → Nat) : Prop where
  spend : ∀ s l s', M.Reachable s → M.step s l = some s' → productive l = true → μ s' < μ s
  keep : ∀ s l s', M.Reachable s → M.step s l = some s' → productive l = false → μ s' ≤ μ s

variable {M : Machine σ ℓ} {productive : ℓ → Bool} {μ : σ → Nat}

theorem Resting.step_eq_none {s : σ} (h : M.Resting productive s) {l : ℓ} (hl : productive l = true) :
    M.step s l = none := by
  cases hs : M.step s l with
  | none => rfl
  | some s' =>
    rw [h l s' hs] at hl
    cases hl

/-- Every run has boundedly many productive steps. -/
theorem Consumes.countP_le (h : M.Consumes productive μ) {tr : List ℓ} {s : σ}
    (hr : M.run M.init tr = some s) : tr.countP productive + μ s ≤ μ M.init := by
  refine M.run_induction (P := fun tr s => tr.countP productive + μ s ≤ μ M.init) (by simp) ?_ hr
  intro tr s l s' hu ih hs
  rw [List.countP_append, List.countP_singleton]
  cases hl : productive l with
  | true =>
    have hlt := h.spend s l s' ⟨tr, hu⟩ hs hl
    simp only [if_true]
    omega
  | false =>
    have hle := h.keep s l s' ⟨tr, hu⟩ hs hl
    simp only [Bool.false_eq_true, if_false]
    omega

/-- Productive steps, taken as long as there are any, lead to a state at rest. -/
theorem Consumes.exists_resting (h : M.Consumes productive μ) {s : σ} (hr : M.Reachable s) :
    ∃ tr s', M.run s tr = some s' ∧ M.Resting productive s' := by
  induction hn : μ s using Nat.strongRecOn generalizing s with
  | ind n ih =>
    by_cases hrest : M.Resting productive s
    · exact ⟨[], s, rfl, hrest⟩
    · simp only [Resting, not_forall, Bool.not_eq_false] at hrest
      obtain ⟨l, u, hs, hl⟩ := hrest
      have hlt : μ u < n := hn ▸ h.spend s l u hr hs hl
      obtain ⟨tr, v, hv, hrest⟩ := ih (μ u) hlt (hr.next hs) rfl
      refine ⟨l :: tr, v, ?_, hrest⟩
      simp only [run, hs]
      exact hv

/-- The progress rule: steps that lower a measure, taken as long as the goal is not reached. -/
theorem exists_run_of_decreasing {I G : σ → Prop} (μ : σ → Nat)
    (next : ∀ s, I s → ¬G s → ∃ l s', M.step s l = some s' ∧ I s' ∧ μ s' < μ s) {s : σ} (hs : I s) :
    ∃ tr s', M.run s tr = some s' ∧ I s' ∧ G s' := by
  induction hn : μ s using Nat.strongRecOn generalizing s with
  | ind n ih =>
    by_cases hg : G s
    · exact ⟨[], s, rfl, hs, hg⟩
    · obtain ⟨l, u, hu, hi, hlt⟩ := next s hs hg
      obtain ⟨tr, v, hv, hiv, hgv⟩ := ih (μ u) (hn ▸ hlt) hi rfl
      refine ⟨l :: tr, v, ?_, hiv, hgv⟩
      simp only [run, hu]
      exact hv

end LinuxPractice.Machine
