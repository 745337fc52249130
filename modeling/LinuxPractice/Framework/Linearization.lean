import LinuxPractice.Framework.Monitor
import LinuxPractice.Framework.Sequential

set_option linter.unusedSectionVars false

namespace LinuxPractice.Monitor

variable {ι σ ω φ ρ ε η ν τ : Type} [DecidableEq ι] [DecidableEq τ] [Fintype τ]

/-- The access that the end of a critical section stands for: none if it throws or waits. -/
def accessed (access : τ → ω → ρ → Option η) (t : τ) (op : ω) : Exit ρ ε → Option η
  | .ret r => access t op r
  | .thrown _ | .wait => none

/-- Calls take effect in their critical section. -/
def event (M : Monitor ι σ ω φ ρ ε) (access : τ → ω → ρ → Option η) (s : State ι σ ω τ) :
    Label ω φ τ → Option η
  | .exec t f _ =>
    match s.phase t with
    | .inside op _ => accessed access t op (M.body op f s.shared).exit
    | _ => none
  | _ => none

theorem event_exec (M : Monitor ι σ ω φ ρ ε) (access : τ → ω → ρ → Option η)
    {s : State ι σ ω τ} {t : τ} {op : ω} {back : Bool} (hp : s.phase t = .inside op back)
    (f : φ) (target : Option τ) :
    M.event access s (.exec t f target) = accessed access t op (M.body op f s.shared).exit := by
  simp only [event, hp]

/-- If every critical section does to the object what its access does to a sequential
one, then so does every step. -/
theorem step_simulated {M : Monitor ι σ ω φ ρ ε} {access : τ → ω → ρ → Option η}
    {apply : σ → η → σ} {Allowed : σ → η → Prop} {s s' : State ι σ ω τ} {l : Label ω φ τ}
    (hbody : ∀ t op back f, s.phase t = .inside op back →
      Sequential.Simulated apply Allowed id (accessed access t op (M.body op f s.shared).exit)
        s.shared (M.body op f s.shared).shared)
    (hs : M.step s l = some s') :
    Sequential.Simulated apply Allowed State.shared (M.event access s l) s s' := by
  cases move_of_step hs with
  | exec t f target op back phase hp hn =>
    rw [event_exec M access hp]
    exact hbody t op back f hp
  | enter t op _ hp _ hg =>
    obtain ⟨-, rfl⟩ := grab_eq_some.mp hg
    rfl
  | resume t op _ hp _ hg =>
    obtain ⟨-, rfl⟩ := grab_eq_some.mp hg
    rfl
  | _ => rfl

end LinuxPractice.Monitor
