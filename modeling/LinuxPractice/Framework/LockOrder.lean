import Mathlib.Logic.Relation
import Mathlib.Order.WellFounded

namespace LinuxPractice.LockOrder

section

variable {τ μ κ : Type*} (owner : μ → Option τ) (wants : τ → Option μ)

/-- Thread t sleeps on a resource that thread u owns. -/
def WaitsFor (t u : τ) : Prop := ∃ m, wants t = some m ∧ owner m = some u

/-- A blocked thread only waits for resources ranked below everything it owns. -/
def Descending [LT κ] (rank : μ → κ) : Prop :=
  ∀ t m k, wants t = some m → owner k = some t → rank m < rank k

variable {owner wants}

/-- Along a chain of waiting threads the rank of the resource waited for falls. -/
theorem waitsFor_chain [Preorder κ] {rank : μ → κ} (hd : Descending owner wants rank) {t u : τ}
    (h : Relation.TransGen (WaitsFor owner wants) t u) :
    ∃ m k, wants t = some m ∧ owner k = some u ∧ rank k ≤ rank m := by
  induction h with
  | single h =>
    obtain ⟨m, hw, ho⟩ := h
    exact ⟨m, m, hw, ho, le_refl _⟩
  | tail _ h ih =>
    obtain ⟨m, k, hw, ho, hle⟩ := ih
    obtain ⟨j, hj, hjo⟩ := h
    exact ⟨m, j, hw, hjo, (hd _ j k hj ho).le.trans hle⟩

theorem waitsFor_acyclic [Preorder κ] {rank : μ → κ} (hd : Descending owner wants rank) (t : τ) :
    ¬Relation.TransGen (WaitsFor owner wants) t t := by
  intro h
  obtain ⟨m, k, hw, ho, hle⟩ := waitsFor_chain hd h
  exact absurd (hd t m k hw ho) (not_lt_of_ge hle)

/-- Following the owners from any blocked thread ends at an owner that can run. -/
theorem exists_running_owner [Preorder κ] [WellFoundedLT κ] {rank : μ → κ}
    (hd : Descending owner wants rank) {m : μ} {u : τ} (ho : owner m = some u) :
    ∃ k v, owner k = some v ∧ ∀ w, ¬WaitsFor owner wants v w := by
  induction hr : rank m using WellFoundedLT.induction generalizing m u with
  | ind r ih =>
    by_cases hu : ∃ w, WaitsFor owner wants u w
    · obtain ⟨w, j, hj, hw⟩ := hu
      exact ih (rank j) (hr ▸ hd u j m hj ho) hw rfl
    · exact ⟨m, u, ho, not_exists.mp hu⟩

end

end LinuxPractice.LockOrder
