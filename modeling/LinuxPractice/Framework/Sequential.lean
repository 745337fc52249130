import LinuxPractice.Framework.Machine

namespace LinuxPractice.Sequential

variable {σ ℓ ν ε : Type*}

def replay (apply : ν → ε → ν) (v : ν) (H : List ε) : ν := H.foldl apply v

/-- Every event of a history is one the sequential object allows at that point. -/
def Legal (apply : ν → ε → ν) (Allowed : ν → ε → Prop) (v : ν) : List ε → Prop
  | [] => True
  | e :: H => Allowed v e ∧ Legal apply Allowed (apply v e) H

theorem replay_snoc (apply : ν → ε → ν) (v : ν) (H : List ε) (e : ε) :
    replay apply v (H ++ [e]) = apply (replay apply v H) e := by
  simp [replay]

theorem legal_snoc {apply : ν → ε → ν} {Allowed : ν → ε → Prop} {v : ν} {H : List ε} {e : ε} :
    Legal apply Allowed v (H ++ [e]) ↔
      Legal apply Allowed v H ∧ Allowed (replay apply v H) e := by
  induction H generalizing v with
  | nil => simp [Legal, replay]
  | cons d H ih =>
    simp only [List.cons_append, Legal, ih, and_assoc]
    rfl

theorem legal_of_append {apply : ν → ε → ν} {Allowed : ν → ε → Prop} {v : ν} {H K : List ε}
    (h : Legal apply Allowed v (H ++ K)) : Legal apply Allowed v H := by
  induction H generalizing v with
  | nil => trivial
  | cons e H ih => exact ⟨h.1, ih h.2⟩

/-- One step of a machine looks like at most one event of the sequential object. -/
def Simulated (apply : ν → ε → ν) (Allowed : ν → ε → Prop) (view : σ → ν) (e : Option ε)
    (s s' : σ) : Prop :=
  match e with
  | none => view s' = view s
  | some e => Allowed (view s) e ∧ view s' = apply (view s) e

/-- Step by step simulation makes the log of every run a legal history that ends in
what is seen of the machine. -/
theorem legal_of_simulated (M : Machine σ ℓ) {apply : ν → ε → ν} {Allowed : ν → ε → Prop}
    {view : σ → ν} {ev : σ → ℓ → Option ε}
    (h : ∀ s l s', M.Reachable s → M.step s l = some s' →
      Simulated apply Allowed view (ev s l) s s')
    {tr : List ℓ} {s : σ} (hr : M.run M.init tr = some s) :
    Legal apply Allowed (view M.init) (M.log ev M.init tr) ∧
      view s = replay apply (view M.init) (M.log ev M.init tr) := by
  refine M.run_induction (P := fun tr s =>
    Legal apply Allowed (view M.init) (M.log ev M.init tr) ∧
      view s = replay apply (view M.init) (M.log ev M.init tr)) ⟨trivial, rfl⟩ ?_ hr
  intro tr s l s' hu ⟨hl, hv⟩ hs
  have hsim := h s l s' ⟨tr, hu⟩ hs
  rw [M.log_snoc ev hu hs]
  cases he : ev s l with
  | none =>
    rw [he] at hsim
    simpa using ⟨hl, hsim.trans hv⟩
  | some e =>
    rw [he] at hsim
    obtain ⟨ha, hap⟩ := hsim
    rw [hv] at ha hap
    exact ⟨legal_snoc.mpr ⟨hl, ha⟩, by rw [Option.toList_some, replay_snoc]; exact hap⟩

end LinuxPractice.Sequential
