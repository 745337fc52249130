import LinuxPractice.Concurrency.Queue.Wakeup
import Mathlib.Tactic.FinCases

set_option linter.unusedSectionVars false

namespace LinuxPractice.Queue

open Monitor Fifo

section

variable {α τ : Type} [DecidableEq τ] [Fintype τ]

/-- A call in progress on the i-th queue that will take an element or notify. -/
def helps (i : Nat) : Phase (Op α) → Bool
  | .entering op | .inside op _ | .woken op =>
    match op with
    | .push j _ | .waitAndPopRef j | .waitAndPopPtr j | .tryPopRef j | .tryPopPtr j => j = i
    | .empty _ | .copy _ => false
  | _ => false

/-- Elements are queued, a consumer sleeps, and nothing is under way to serve it. -/
def Stranded (s : QueueState α τ) (i : Nat) : Prop :=
  queueAt s.shared i ≠ [] ∧ (∃ t, sleepsOn i (s.phase t) = true) ∧
    ∀ t, helps i (s.phase t) = false

/-- The call that this step ends exits by an exception. -/
def exitsByException (c : Class) (s : QueueState α τ) : QueueLabel α τ → Bool
  | .unwind _ => true
  | .exec t fault _ =>
    match s.phase t with
    | .inside op _ =>
      match (body c op fault s.shared).exit with
      | .thrown _ => true
      | _ => false
    | _ => false
  | _ => false

theorem exception_keeps_queues {c : Class} {qs : List (List α)} {s s' : QueueState α τ}
    {l : QueueLabel α τ} (hx : exitsByException c s l = true)
    (hs : (machine c τ qs).step s l = some s') : s'.shared = s.shared := by
  cases move_of_step hs with
  | exec t fault target op back phase hp hn =>
    change (body c op fault s.shared).shared = s.shared
    simp only [exitsByException, hp] at hx
    have he := body_effect c op fault s.shared
    generalize body c op fault s.shared = r at he hx ⊢
    cases he with
    | thrown _ _ => rfl
    | _ => simp at hx
  | unwind t op _ _ => rfl
  | _ => simp [exitsByException] at hx

theorem helps_of_wokenOn {c : Class} {s : QueueState α τ} (hc : Calls (monitor α c) s) {i : Nat}
    {t : τ} (h : wokenOn i (s.phase t) = true) : helps i (s.phase t) = true := by
  have hwait : ∀ op, (s.phase t).waited = some op → ∃ j, op.Waits j :=
    fun op hop => waits_of_canWait (hc.waiter t op hop)
  cases hp : s.phase t with
  | woken op =>
    rw [hp] at h
    obtain ⟨j, rfl | rfl⟩ := hwait op (by rw [hp]; rfl) <;> exact h
  | inside op back =>
    rw [hp] at h
    cases back with
    | false => simp [wokenOn] at h
    | true =>
      obtain ⟨j, rfl | rfl⟩ := hwait op (by rw [hp]; rfl) <;> exact h
  | _ => simp [hp, wokenOn] at h

/-- Exceptions never touch a queue; and along a run in which no woken consumer fails
while others sleep and the woken ones are only just enough, nobody is stranded. -/
theorem nobody_stranded (c : Class) (qs : List (List α)) {tr : List (QueueLabel α τ)}
    {s : QueueState α τ} (hr : (machine c τ qs).run (start qs) tr = some s)
    (ho : (machine c τ qs).Obeys ((monitor α c).harmless size) (start qs) tr) :
    (∀ u l u', exitsByException c u l = true → (machine c τ qs).step u l = some u' →
      u'.shared = u.shared) ∧ ∀ i, ¬Stranded s i := by
  refine ⟨fun _ _ _ hx hs => exception_keeps_queues hx hs, ?_⟩
  rintro i ⟨hne, hw, hnone⟩
  obtain ⟨hc, hm⟩ := matched_of_obeys (monitor_lasting c) (monitor_supply c) hr ho
  obtain ⟨t, ht⟩ := (Matched.sleeper hm hw).2 hne
  have hh := helps_of_wokenOn hc ht
  rw [hnone t] at hh
  cases hh

end

/-- The woken consumer fails to copy the element out and leaves: the other one sleeps
on although the element is still queued. -/
def wokenFails : List (QueueLabel Int (Fin 3)) :=
  sleepThenPush ++ [.acquire 0, .exec 0 true none]

theorem stranded_after_wokenFails :
    ¬∀ c (s : QueueState Int (Fin 3)), (machine c (Fin 3) [[]]).Reachable s →
      ∀ i, ¬Stranded s i := by
  intro hall
  have hs : ((machine .ThreadSafeQueue (Fin 3) [[]]).run (start [[]]) wokenFails).isSome =
      true := by decide
  refine hall .ThreadSafeQueue _ (Machine.Reachable.of_isSome (machine _ (Fin 3) [[]]) _ hs) 0 ?_
  exact ⟨List.cons_ne_nil 7 [], ⟨1, rfl⟩, fun t => by fin_cases t <;> rfl⟩

/-- A failing consumer that leaves nobody asleep behind. -/
def loneFailure : List (QueueLabel Int (Fin 3)) :=
  [.call 0 (.waitAndPopPtr 0), .acquire 0, .exec 0 false none,
    .call 2 (.push 0 7), .acquire 2, .exec 2 false (some 0), .acquire 0, .exec 0 true none]

theorem nobody_stranded_loneFailure :
    ∃ s, (machine .ThreadSafeQueue (Fin 3) [[]]).run (start [[]]) loneFailure = some s ∧
      ∀ i, ¬Stranded s i := by
  have hs : ((machine .ThreadSafeQueue (Fin 3) [[]]).run (start [[]]) loneFailure).isSome =
      true := by decide
  have hr := (Option.some_get hs).symm
  exact ⟨_, hr, (nobody_stranded .ThreadSafeQueue [[]] hr (by decide)).2⟩

end LinuxPractice.Queue
