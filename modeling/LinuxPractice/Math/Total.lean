import Mathlib.Algebra.BigOperators.Group.Finset.Basic
import Mathlib.Algebra.Order.BigOperators.Group.Finset
import Mathlib.Data.Fintype.BigOperators

namespace LinuxPractice

section

variable {τ π N : Type*} [Fintype τ] [AddCommMonoid N]

/-- The weight of all parties together, each weighed by where it stands. -/
def total (w : π → N) (f : τ → π) : N := ∑ t, w (f t)

theorem total_eq_zero {w : π → Nat} {f : τ → π} : total w f = 0 ↔ ∀ t, w (f t) = 0 := by
  simp [total]

theorem total_pos {w : π → Nat} {f : τ → π} : 0 < total w f ↔ ∃ t, 0 < w (f t) := by
  simp [Nat.pos_iff_ne_zero, total_eq_zero]

/-- One party changes its weight: the old one is exchanged for the new one. -/
theorem total_exchange [DecidableEq τ] (w : π → N) {f g : τ → π} (t : τ)
    (h : ∀ u, u ≠ t → w (g u) = w (f u)) : total w g + w (f t) = total w f + w (g t) := by
  have split (k : τ → π) : total w k = w (k t) + ∑ u ∈ Finset.univ.erase t, w (k u) :=
    (Finset.add_sum_erase _ (fun u => w (k u)) (Finset.mem_univ t)).symm
  have rest : ∑ u ∈ Finset.univ.erase t, w (g u) = ∑ u ∈ Finset.univ.erase t, w (f u) := by
    apply Finset.sum_congr rfl
    intro u hu
    exact h u (Finset.ne_of_mem_erase hu)
  rw [split g, split f, rest]
  ac_rfl

theorem total_update [DecidableEq τ] (w : π → N) (f : τ → π) (t : τ) (x : π) :
    total w (Function.update f t x) + w (f t) = total w f + w x := by
  have h := total_exchange w (f := f) (g := Function.update f t x) t
    (fun u hu => by rw [Function.update_of_ne hu])
  rwa [Function.update_self] at h

theorem exists_of_total_ne_zero {w : π → N} {f : τ → π} (h : total w f ≠ 0) : ∃ t, w (f t) ≠ 0 := by
  obtain ⟨t, -, ht⟩ := Finset.exists_ne_zero_of_sum_ne_zero h
  exact ⟨t, ht⟩

end

section

variable {τ π : Type*} [Fintype τ] {w : π → Int} (hw : ∀ x, 0 ≤ w x) (f : τ → π)
include hw

theorem total_nonneg : 0 ≤ total w f := Finset.sum_nonneg fun t _ => hw (f t)

theorem single_le_total (t : τ) : w (f t) ≤ total w f :=
  Finset.single_le_sum (f := fun t => w (f t)) (fun t _ => hw (f t)) (Finset.mem_univ t)

theorem total_eq_zero_iff : total w f = 0 ↔ ∀ t, w (f t) = 0 := by
  rw [total, Finset.sum_eq_zero_iff_of_nonneg fun t _ => hw (f t)]
  simp

end

/-- How much a total changes with one party. -/
theorem total_of_update {τ π : Type*} [Fintype τ] [DecidableEq τ] {w : π → Int} {f g : τ → π} {t : τ}
    {x : π} (h : g = Function.update f t x) : total w g = total w f + (w x - w (f t)) := by
  have ht := total_update w f t x
  rw [← h] at ht
  omega

end LinuxPractice
