import LinuxPractice.Concurrency.HierarchicalMutex.Deadlock
import LinuxPractice.Concurrency.HierarchicalMutex.ReleaseOrder

set_option linter.unusedSectionVars false

namespace LinuxPractice.HierarchicalMutex

section

variable {μ τ : Type*}

/-- The member function a caller enters. -/
def Call.act (m : μ) : Call → Act μ
  | .lock => .lock m
  | .tryLock => .tryLock m

/-- How a call of lock() or try_lock() ends. -/
inductive Outcome
  | threw (e : Violation)
  | returnedFalse
  | locked
  deriving DecidableEq, Repr

/-- What the next step of a thread ends its call with, if that step is the last. -/
def outcome (h : μ → ULong) (s : State μ τ) (t : τ) : Option Outcome :=
  match s.pc t with
  | .check _ m =>
    match checkForHierarchyViolation (s.thisThreadHierarchyValue t) (h m) with
    | .error e => some (.threw e)
    | .ok _ => none
  | .acquire .tryLock m => if (s.internalMutex m).isSome then some .returnedFalse else none
  | .setThreadValue _ => some .locked
  | _ => none

/-- No thread's hierarchy value, no owner and no saved value differs. -/
structure Unchanged (s s' : State μ τ) : Prop where
  thread : s'.thisThreadHierarchyValue = s.thisThreadHierarchyValue
  owner : s'.internalMutex = s.internalMutex
  previous : s'.previousHierarchyValue = s.previousHierarchyValue

/-- Some mutex of a held stack is not above m, or nothing is above m. -/
def NotBelow (h : μ → ULong) (ms : List μ) (m : μ) : Prop :=
  (∃ k ∈ ms, h k ≤ h m) ∨ h m = ulongMax

/-- The one number compared stands for the whole stack. -/
theorem top_le_iff {h prev : μ → ULong} {ms : List μ} (hs : Stacked h prev ms) (m : μ) :
    top h ms ≤ h m ↔ NotBelow h ms m := by
  constructor
  · intro hle
    cases ms with
    | nil => exact .inr (le_antisymm (le_ulongMax _) hle)
    | cons k ms => exact .inl ⟨k, List.mem_cons_self, hle⟩
  · intro hn
    cases hn with
    | inl hk =>
      obtain ⟨k, hk, hle⟩ := hk
      exact (top_le_of_mem hs k hk).trans hle
    | inr hm => exact hm ▸ le_ulongMax _

/-- Where a thread that has called on m with the stack ms can stand before it returns. -/
def InCall (h : μ → ULong) (c : Call) (m : μ) (ms : List μ) (pc : Pc μ) (held : List μ) : Prop :=
  match pc with
  | .check c' k => c' = c ∧ k = m ∧ held = ms
  | .acquire c' k => c' = c ∧ k = m ∧ held = ms ∧ ¬NotBelow h ms m
  | .savePrevious k | .setThreadValue k => k = m ∧ held = m :: ms ∧ ¬NotBelow h ms m
  | _ => False

variable [DecidableEq μ] [DecidableEq τ]

theorem goto_unchanged (s : State μ τ) (t : τ) (pc : Pc μ) : Unchanged s (s.goto t pc) :=
  ⟨rfl, rfl, rfl⟩

theorem Inv.check_error {h : μ → ULong} {s : State μ τ} (hi : Inv h s) {t : τ} {c : Call} {m : μ}
    (hp : s.pc t = .check c m) :
    checkForHierarchyViolation (s.thisThreadHierarchyValue t) (h m) =
      .error .mutexHierarchyViolation ↔ NotBelow h (s.held t) m := by
  have ho := hi.thread t
  rw [hp] at ho
  rw [check_error_iff, ho.2]
  exact top_le_iff ho.1 m

theorem Inv.check_ok {h : μ → ULong} {s : State μ τ} (hi : Inv h s) {t : τ} {c : Call} {m : μ}
    (hp : s.pc t = .check c m) :
    checkForHierarchyViolation (s.thisThreadHierarchyValue t) (h m) = .ok () ↔
      ¬NotBelow h (s.held t) m := by
  have ho := hi.thread t
  rw [hp] at ho
  rw [check_ok_iff, ho.2, ← top_le_iff ho.1 m, not_le]

/-- The part of a call that precedes the acquisition. -/
def Early (pc : Pc μ) : Prop :=
  match pc with
  | .check _ _ | .acquire _ _ => True
  | _ => False

/-- A step of the calling thread that does not return. -/
theorem InCall.advance {h : μ → ULong} {s s' : State μ τ} {t : τ} {c : Call} {m : μ} {ms : List μ}
    (hi : Inv h s) (hc : InCall h c m ms (s.pc t) (s.held t)) (hs : advance h s t = some s')
    (hp : s'.pc t ≠ .idle) :
    InCall h c m ms (s'.pc t) (s'.held t) ∧
      (Early (s'.pc t) → Early (s.pc t) ∧ Unchanged s s') := by
  unfold HierarchicalMutex.advance at hs
  cases hpc : s.pc t with
  | check c' k =>
    rw [hpc] at hc
    obtain ⟨rfl, rfl, hh⟩ := hc
    simp only [hpc] at hs
    cases hv : checkForHierarchyViolation (s.thisThreadHierarchyValue t) (h k) with
    | error e =>
      simp only [hv, Option.some.injEq] at hs
      exact absurd (by simp [← hs, State.goto]) hp
    | ok _ =>
      simp only [hv, Option.some.injEq] at hs
      have hn := (hi.check_ok hpc).mp hv
      rw [hh] at hn
      subst hs
      refine ⟨?_, fun _ => ⟨trivial, goto_unchanged _ _ _⟩⟩
      simp only [State.goto, Function.update_self]
      exact ⟨rfl, rfl, hh, hn⟩
  | acquire c' k =>
    rw [hpc] at hc
    obtain ⟨rfl, rfl, hh, hn⟩ := hc
    simp only [hpc] at hs
    cases hf : s.internalMutex k with
    | none =>
      simp only [hf, Option.some.injEq] at hs
      subst hs
      refine ⟨?_, ?_⟩
      · simp only [State.goto, State.take, Function.update_self, hh]
        exact ⟨rfl, rfl, hn⟩
      · simp [State.goto, Early]
    | some u =>
      cases c' with
      | lock => simp [hf] at hs
      | tryLock =>
        simp only [hf, Option.some.injEq] at hs
        exact absurd (by simp [← hs, State.goto]) hp
  | savePrevious k =>
    rw [hpc] at hc
    obtain ⟨rfl, hh, hn⟩ := hc
    simp only [hpc, Option.some.injEq] at hs
    subst hs
    refine ⟨?_, ?_⟩
    · simp only [State.goto, State.setPrevious, Function.update_self]
      exact ⟨rfl, hh, hn⟩
    · simp [State.goto, Early]
  | setThreadValue k =>
    simp only [hpc, Option.some.injEq] at hs
    exact absurd (by simp [← hs, State.goto]) hp
  | idle => simp [hpc, InCall] at hc
  | restore k => simp [hpc, InCall] at hc
  | release k => simp [hpc, InCall] at hc

theorem step_others {h : μ → ULong} {s s' : State μ τ} {l : τ × Act μ} {t : τ}
    (hs : step h s l = some s') (ht : l.1 ≠ t) : s'.pc t = s.pc t ∧ s'.held t = s.held t := by
  obtain ⟨u, a⟩ := l
  have hu : t ≠ u := Ne.symm ht
  cases a with
  | lock m =>
    simp only [step, Option.ite_none_right_eq_some, Option.some.injEq] at hs
    simp [← hs.2, State.goto, hu]
  | tryLock m =>
    simp only [step, Option.ite_none_right_eq_some, Option.some.injEq] at hs
    simp [← hs.2, State.goto, hu]
  | unlock m =>
    simp only [step, Option.ite_none_right_eq_some, Option.some.injEq] at hs
    simp [← hs.2, State.goto, hu]
  | advance => exact advance_others hs hu

theorem InCall.step {h : μ → ULong} {s s' : State μ τ} {l : τ × Act μ} {t : τ} {c : Call} {m : μ}
    {ms : List μ} (hi : Inv h s) (hc : InCall h c m ms (s.pc t) (s.held t))
    (hs : step h s l = some s') (hp : s'.pc t ≠ .idle) :
    InCall h c m ms (s'.pc t) (s'.held t) ∧
      (Early (s'.pc t) → Early (s.pc t) ∧ (l.1 = t → Unchanged s s')) := by
  by_cases hl : l.1 = t
  · obtain ⟨u, a⟩ := l
    subst hl
    have hbusy : s.pc u ≠ .idle := by
      intro he
      rw [he] at hc
      exact hc
    cases a with
    | advance =>
      obtain ⟨hin, he⟩ := hc.advance hi hs hp
      exact ⟨hin, fun hearly => ⟨(he hearly).1, fun _ => (he hearly).2⟩⟩
    | lock k => simp [HierarchicalMutex.step, hbusy] at hs
    | tryLock k => simp [HierarchicalMutex.step, hbusy] at hs
    | unlock k => simp [HierarchicalMutex.step, hbusy] at hs
  · obtain ⟨hpc, hh⟩ := step_others hs hl
    rw [hpc, hh]
    exact ⟨hc, fun he => ⟨he, fun ht => absurd ht hl⟩⟩

/-- The caller's own steps leave everything unchanged. -/
def Quiet (t : τ) (s : State μ τ) (l : τ × Act μ) (s' : State μ τ) : Prop :=
  l.1 = t → Unchanged s s'

theorem call_start {h : μ → ULong} {s s' : State μ τ} {t : τ} {c : Call} {m : μ}
    (hs : step h s (t, c.act m) = some s') : s.pc t = .idle ∧ s' = s.goto t (.check c m) := by
  cases c with
  | lock =>
    simp only [Call.act, step, Option.ite_none_right_eq_some, Option.some.injEq] at hs
    exact ⟨hs.1, hs.2.symm⟩
  | tryLock =>
    simp only [Call.act, step, Option.ite_none_right_eq_some, Option.some.injEq] at hs
    exact ⟨hs.1, hs.2.symm⟩

/-- Along a call that has not returned: where the caller stands, and that it has changed
nothing before the acquisition. -/
theorem inCall_of_run {h : μ → ULong} {s₀ s₁ s : State μ τ} {t : τ} {c : Call} {m : μ}
    {tr : List (τ × Act μ)} (hr : (scopedMachine h).Reachable s₀)
    (hc : (scopedMachine h).step s₀ (t, c.act m) = some s₁)
    (hrun : (scopedMachine h).run s₁ tr = some s)
    (hin : (scopedMachine h).Always (fun u => u.pc t ≠ .idle) s₁ tr) :
    InCall h c m (s₀.held t) (s.pc t) (s.held t) ∧
      (Early (s.pc t) → (scopedMachine h).Each (Quiet t) s₀ ((t, c.act m) :: tr)) := by
  have hrun₀ : ∀ {tr s}, (scopedMachine h).run s₁ tr = some s →
      (scopedMachine h).run s₀ ((t, c.act m) :: tr) = some s := by
    intro tr s hrun
    simp only [Machine.run, hc, Option.bind_some]
    exact hrun
  obtain ⟨-, he⟩ := call_start (Machine.restrict_step.mp hc).2
  refine (scopedMachine h).run_induction (P := fun tr s =>
    (scopedMachine h).Always (fun u => u.pc t ≠ .idle) s₁ tr →
      InCall h c m (s₀.held t) (s.pc t) (s.held t) ∧
        (Early (s.pc t) → (scopedMachine h).Each (Quiet t) s₀ ((t, c.act m) :: tr))) ?_ ?_
    hrun hin
  · intro _
    refine ⟨?_, fun _ => ?_⟩
    · simp only [he, State.goto, Function.update_self]
      exact ⟨rfl, rfl, rfl⟩
    · refine Machine.each_snoc rfl hc (Machine.each_nil _ _ _) (fun _ => ?_)
      exact he ▸ goto_unchanged _ _ _
  · intro tr u l v hu ih hs hin
    obtain ⟨hpos, hq⟩ := ih (hin.initial (List.prefix_append _ _))
    have hv := hin _ v (List.prefix_refl _) ((scopedMachine h).run_snoc_of hu hs)
    have hi := (scoped_inv h ((hr.next hc).run hu)).1
    obtain ⟨hpos', he'⟩ := hpos.step hi (Machine.restrict_step.mp hs).2 hv
    refine ⟨hpos', fun hearly => ?_⟩
    obtain ⟨hu', hch⟩ := he' hearly
    exact Machine.each_snoc (hrun₀ hu) hs (hq hu') hch

theorem InCall.threw_iff {h : μ → ULong} {s : State μ τ} {t : τ} {c : Call} {m : μ} {ms : List μ}
    (hi : Inv h s) (hc : InCall h c m ms (s.pc t) (s.held t)) :
    outcome h s t = some (.threw .mutexHierarchyViolation) ↔ NotBelow h ms m := by
  cases hp : s.pc t with
  | check c' k =>
    have hv := hi.check_error hp
    rw [hp] at hc
    obtain ⟨rfl, rfl, hh⟩ := hc
    rw [← hh, ← hv]
    simp only [outcome, hp]
    cases checkForHierarchyViolation (s.thisThreadHierarchyValue t) (h k) with
    | error e => simp
    | ok _ => simp
  | acquire c' k =>
    rw [hp] at hc
    obtain ⟨rfl, rfl, -, hn⟩ := hc
    cases c' with
    | lock => simp [outcome, hp, hn]
    | tryLock => simp [outcome, hp, hn]
  | savePrevious k =>
    rw [hp] at hc
    simp [outcome, hp, hc.2.2]
  | setThreadValue k =>
    rw [hp] at hc
    simp [outcome, hp, hc.2.2]
  | idle => simp [hp, InCall] at hc
  | restore k => simp [hp, InCall] at hc
  | release k => simp [hp, InCall] at hc

/-- The last step of a call that throws or that returns false. -/
theorem failing_step {h : μ → ULong} {s : State μ τ} {t : τ}
    (ho : (∃ e, outcome h s t = some (.threw e)) ∨ outcome h s t = some .returnedFalse) :
    Early (s.pc t) ∧ advance h s t = some (s.goto t .idle) := by
  unfold outcome at ho
  unfold advance
  cases hp : s.pc t with
  | check c k =>
    simp only [hp] at ho ⊢
    cases hv : checkForHierarchyViolation (s.thisThreadHierarchyValue t) (h k) with
    | error e => exact ⟨trivial, rfl⟩
    | ok _ => simp [hv] at ho
  | acquire c k =>
    cases c with
    | lock => simp [hp] at ho
    | tryLock =>
      simp only [hp] at ho ⊢
      cases hf : s.internalMutex k with
      | none => simp [hf] at ho
      | some u => exact ⟨trivial, rfl⟩
  | _ => simp [hp] at ho

/-- In every call of lock() or try_lock(), at every moment before it returns: its next step
throws exactly when a mutex held at the call is not above m or m carries ULONG_MAX; and if
the call ends by throwing or by returning false, none of its steps changed anything. -/
theorem throws_iff_not_below (h : μ → ULong) {s₀ s₁ s : State μ τ} {t : τ} {c : Call} {m : μ}
    {tr : List (τ × Act μ)} (hr : (scopedMachine h).Reachable s₀)
    (hc : (scopedMachine h).step s₀ (t, c.act m) = some s₁)
    (hrun : (scopedMachine h).run s₁ tr = some s)
    (hin : (scopedMachine h).Always (fun u => u.pc t ≠ .idle) s₁ tr) :
    (outcome h s t = some (.threw .mutexHierarchyViolation) ↔
      (∃ k, Holds s₀ t k ∧ h k ≤ h m) ∨ h m = ulongMax) ∧
    ((∃ e, outcome h s t = some (.threw e)) ∨ outcome h s t = some .returnedFalse →
      ∃ s', (scopedMachine h).step s (t, .advance) = some s' ∧ s'.pc t = .idle ∧
        (scopedMachine h).Each (Quiet t) s₀ ((t, c.act m) :: tr ++ [(t, .advance)])) := by
  obtain ⟨hpos, hq⟩ := inCall_of_run hr hc hrun hin
  have hi₀ := (scoped_inv h hr).1
  have hi := (scoped_inv h ((hr.next hc).run hrun)).1
  constructor
  · rw [hpos.threw_iff hi]
    simp only [NotBelow, Holds, hi₀.owner]
  · intro ho
    obtain ⟨hearly, hs⟩ := failing_step ho
    have hs' : (scopedMachine h).step s (t, .advance) = some (s.goto t .idle) :=
      Machine.restrict_step.mpr ⟨rfl, hs⟩
    refine ⟨_, hs', by simp [State.goto], ?_⟩
    refine Machine.each_snoc ?_ hs' (hq hearly) (fun _ => goto_unchanged _ _ _)
    simp only [Machine.run, hc, Option.bind_some]
    exact hrun

end

/-- The test's mutexes and two threads after a schedule. -/
def testState (tr : List (Fin 2 × Act (Fin 4))) : State (Fin 4) (Fin 2) :=
  ((scopedMachine testValues).run start tr).getD start

/-- Thread 0 holds mutex2 and tries the higher mutex1 while thread 1 starts a call. -/
theorem throws_iff_not_below_mutex1 :
    outcome testValues (testState (lockCall 0 1 ++ [(0, .tryLock 0), (1, .lock 2)])) 0 =
      some (.threw .mutexHierarchyViolation) ↔
      (∃ k, Holds (testState (lockCall 0 1)) 0 k ∧ testValues k ≤ testValues 0) ∨
        testValues 0 = ulongMax := by
  have hr : (scopedMachine testValues).Reachable (testState (lockCall 0 1)) :=
    ⟨lockCall 0 1, rfl⟩
  have hc : (scopedMachine testValues).step (testState (lockCall 0 1)) (0, Call.tryLock.act 0) =
      some (testState (lockCall 0 1 ++ [(0, .tryLock 0)])) := rfl
  have hrun : (scopedMachine testValues).run (testState (lockCall 0 1 ++ [(0, .tryLock 0)]))
      [(1, .lock 2)] = some (testState (lockCall 0 1 ++ [(0, .tryLock 0), (1, .lock 2)])) := rfl
  exact (throws_iff_not_below testValues hr hc hrun (by decide)).1

end LinuxPractice.HierarchicalMutex
