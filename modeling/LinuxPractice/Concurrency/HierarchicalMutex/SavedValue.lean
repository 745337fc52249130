import LinuxPractice.Concurrency.HierarchicalMutex.Rejection

set_option linter.unusedSectionVars false

namespace LinuxPractice.HierarchicalMutex

section

variable {μ τ : Type*} [DecidableEq μ] [DecidableEq τ]

/-- A step neither reads nor changes previous_hierarchy_value of m: whatever stands
there, the step does the same and leaves it there. -/
def Ignores (h : μ → ULong) (m : μ) (s : State μ τ) (l : τ × Act μ) : Prop :=
  ∀ v, (scopedMachine h).step (s.setPrevious m v) l =
    ((scopedMachine h).step s l).map fun s' => s'.setPrevious m v

theorem Ignores.unchanged {h : μ → ULong} {m : μ} {s s' : State μ τ} {l : τ × Act μ}
    (hg : Ignores h m s l) (hs : (scopedMachine h).step s l = some s') :
    s'.previousHierarchyValue m = s.previousHierarchyValue m := by
  have he := hg (s.previousHierarchyValue m)
  have hself : s.setPrevious m (s.previousHierarchyValue m) = s := by
    simp [State.setPrevious]
  rw [hself, hs, Option.map_some] at he
  have hp := congrArg (fun u => u.previousHierarchyValue m) (Option.some.inj he)
  simpa [State.setPrevious] using hp

/-- Only the thread that owns a mutex stands at the write or at the read of its
saved value. -/
theorem advance_setPrevious {h : μ → ULong} {s : State μ τ} (hi : Inv h s) {t u : τ} {m : μ}
    (ho : s.internalMutex m = some t) (hu : u ≠ t) (v : ULong) :
    advance h (s.setPrevious m v) u = (advance h s u).map fun s' => s'.setPrevious m v := by
  have hmine : ∀ k, k ∈ s.held u → k ≠ m := by
    intro k hk hkm
    rw [← hi.owner, hkm, ho] at hk
    exact hu (Option.some.inj hk).symm
  have hth := hi.thread u
  have hpc : (s.setPrevious m v).pc = s.pc := rfl
  have hval : (s.setPrevious m v).thisThreadHierarchyValue = s.thisThreadHierarchyValue := rfl
  have hint : (s.setPrevious m v).internalMutex = s.internalMutex := rfl
  unfold advance
  rw [hpc, hval, hint]
  cases hp : s.pc u with
  | idle => rfl
  | check c k =>
    cases hc : checkForHierarchyViolation (s.thisThreadHierarchyValue u) (h k) with
    | error e =>
      simp only [hc]
      rfl
    | ok _ =>
      simp only [hc]
      rfl
  | acquire c k =>
    cases hf : s.internalMutex k with
    | none =>
      simp only [hf]
      rfl
    | some w =>
      cases c with
      | lock => simp [hf]
      | tryLock =>
        simp only [hf]
        rfl
  | savePrevious k =>
    rw [hp] at hth
    obtain ⟨rest, hh, -⟩ := hth
    have hkm := hmine k (by simp [hh])
    simp only [State.setPrevious, State.goto, Option.map_some]
    rw [Function.update_comm hkm]
  | setThreadValue k => rfl
  | restore k =>
    rw [hp] at hth
    have hkm := hmine k hth.2.2
    simp [State.setPrevious, State.setThread, State.goto, hkm]
  | release k => rfl

theorem step_setPrevious {h : μ → ULong} {s : State μ τ} (hi : Inv h s) {t : τ} {m : μ}
    {l : τ × Act μ} (ho : s.internalMutex m = some t) (hl : l.1 ≠ t) (v : ULong) :
    step h (s.setPrevious m v) l = (step h s l).map fun s' => s'.setPrevious m v := by
  obtain ⟨u, a⟩ := l
  cases a with
  | lock k =>
    by_cases hp : s.pc u = .idle
    · simp [step, State.setPrevious, State.goto, hp]
    · simp [step, State.setPrevious, hp]
  | tryLock k =>
    by_cases hp : s.pc u = .idle
    · simp [step, State.setPrevious, State.goto, hp]
    · simp [step, State.setPrevious, hp]
  | unlock k =>
    by_cases hp : s.pc u = .idle ∧ s.internalMutex k = some u
    · simp [step, State.setPrevious, State.goto, hp]
    · simp only [step, State.setPrevious, hp, if_false, Option.map_none]
  | advance => exact advance_setPrevious hi ho hl v

theorem ignores_of_owner {h : μ → ULong} {s : State μ τ} (hi : Inv h s) {t : τ} {m : μ}
    {l : τ × Act μ} (ho : s.internalMutex m = some t) (hl : l.1 ≠ t) : Ignores h m s l := by
  intro v
  have hlifo : lifo (s.setPrevious m v) l = lifo s l := by
    obtain ⟨u, a⟩ := l
    cases a <;> rfl
  by_cases hg : lifo s l = true
  · simpa [scopedMachine, Machine.restrict, machine, hlifo, hg] using step_setPrevious hi ho hl v
  · simp [scopedMachine, Machine.restrict, machine, hlifo, hg]

/-- What one step does to a thread's held stack. -/
theorem step_held {h : μ → ULong} {s s' : State μ τ} {l : τ × Act μ}
    (hs : step h s l = some s') (t : τ) :
    s'.held t = s.held t ∨ (∃ k, s'.held t = k :: s.held t) ∨
      ∃ k, s.pc t = .release k ∧ s'.internalMutex k = none ∧ s'.held t = (s.held t).erase k := by
  by_cases hl : l.1 = t
  · obtain ⟨u, a⟩ := l
    subst hl
    cases a with
    | lock m =>
      simp only [step, Option.ite_none_right_eq_some, Option.some.injEq] at hs
      exact .inl (hs.2 ▸ rfl)
    | tryLock m =>
      simp only [step, Option.ite_none_right_eq_some, Option.some.injEq] at hs
      exact .inl (hs.2 ▸ rfl)
    | unlock m =>
      simp only [step, Option.ite_none_right_eq_some, Option.some.injEq] at hs
      exact .inl (hs.2 ▸ rfl)
    | advance =>
      simp only [step, advance] at hs
      split at hs
      · cases hs
      · split at hs <;> cases hs <;> exact .inl rfl
      · rename_i c k hk
        split at hs <;> cases hs
        · exact .inr (.inl ⟨k, by simp [State.goto, State.take]⟩)
        · exact .inl rfl
      · cases hs; exact .inl rfl
      · cases hs; exact .inl rfl
      · cases hs; exact .inl rfl
      · rename_i k hk
        cases hs
        exact .inr (.inr ⟨k, hk, by simp [State.goto, State.drop], by simp [State.goto, State.drop]⟩)
  · exact .inl (step_others hs hl).2

/-- While a thread keeps m, the stack below m stays as it was. -/
theorem suffix_step {h : μ → ULong} {s s' : State μ τ} {l : τ × Act μ} {t : τ} {m : μ}
    {ms : List μ} (hn : Nested s) (hs : step h s l = some s') (hm : m :: ms <:+ s.held t)
    (ho : s'.internalMutex m = some t) : m :: ms <:+ s'.held t := by
  obtain he | ⟨k, he⟩ | ⟨k, hp, hk, he⟩ := step_held hs t
  · exact he ▸ hm
  · rw [he]
    exact hm.trans (List.suffix_cons k _)
  · obtain ⟨rest, hh⟩ := List.head?_eq_some_iff.mp (hn t k (.inr hp))
    rw [hh] at hm
    rw [he, hh, List.erase_cons_head]
    cases List.suffix_cons_iff.mp hm with
    | inl heq =>
      obtain ⟨rfl, -⟩ := List.cons.inj heq
      rw [hk] at ho
      cases ho
    | inr hm => exact hm

theorem suffix_of_run {h : μ → ULong} {s₁ s : State μ τ} {tr : List (τ × Act μ)} {t : τ} {m : μ}
    {ms : List μ} (hr : (scopedMachine h).Reachable s₁) (hm : m :: ms <:+ s₁.held t)
    (hrun : (scopedMachine h).run s₁ tr = some s)
    (hown : (scopedMachine h).Always (fun u => u.internalMutex m = some t) s₁ tr) :
    m :: ms <:+ s.held t := by
  refine (scopedMachine h).run_induction (P := fun tr s =>
    (scopedMachine h).Always (fun u => u.internalMutex m = some t) s₁ tr →
      m :: ms <:+ s.held t) (fun _ => hm) ?_ hrun hown
  intro tr u l v hu ih hs hown
  have hv := hown _ v (List.prefix_refl _) ((scopedMachine h).run_snoc_of hu hs)
  exact suffix_step (scoped_inv h (hr.run hu)).2 (Machine.restrict_step.mp hs).2
    (ih (hown.initial (List.prefix_append _ _))) hv

/-- The release of the newest mutex leaves the value below it. -/
theorem Inv.released_value {h : μ → ULong} {s s' : State μ τ} (hi : Inv h s) (hn : Nested s)
    {t : τ} {m : μ} {ms : List μ} (hp : s.pc t = .release m) (hm : m :: ms <:+ s.held t)
    (hs : HierarchicalMutex.advance h s t = some s') :
    s'.thisThreadHierarchyValue t = top h ms := by
  have hth := hi.thread t
  rw [hp] at hth
  obtain ⟨hst, hv, -⟩ := hth
  obtain ⟨rest, hh⟩ := List.head?_eq_some_iff.mp (hn t m (.inr hp))
  have hnot : m ∉ rest := by
    have hnd := hi.nodup t
    rw [hh] at hnd
    exact (List.nodup_cons.mp hnd).1
  rw [hh] at hm hst
  have heq : m :: ms = m :: rest := by
    cases List.suffix_cons_iff.mp hm with
    | inl heq => exact heq
    | inr hsuf => exact absurd (hsuf.subset List.mem_cons_self) hnot
  simp only [HierarchicalMutex.advance, hp, Option.some.injEq] at hs
  have hval : s'.thisThreadHierarchyValue t = s.thisThreadHierarchyValue t := hs ▸ rfl
  rw [hval, hv, hst.1, (List.cons.inj heq).2]

/-- From the acquisition made by a call of thread t on m up to the matching release:
no step of another thread reads or changes the value saved in m, and the release leaves
the thread with exactly the value it had before the call. -/
theorem saved_value_kept (h : μ → ULong) {s₀ s₁ s₂ s₃ s : State μ τ} {t : τ} {c : Call} {m : μ}
    {tr tr' : List (τ × Act μ)} (hr : (scopedMachine h).Reachable s₀)
    (hc : (scopedMachine h).step s₀ (t, c.act m) = some s₁)
    (hin : (scopedMachine h).Always (fun u => u.pc t ≠ .idle) s₁ tr)
    (hrun : (scopedMachine h).run s₁ tr = some s₂) (hp : s₂.pc t = .acquire c m)
    (hfree : s₂.internalMutex m = none)
    (hacq : (scopedMachine h).step s₂ (t, .advance) = some s₃)
    (hown : (scopedMachine h).Always (fun u => u.internalMutex m = some t) s₃ tr')
    (hrun' : (scopedMachine h).run s₃ tr' = some s) :
    (∀ l, l.1 ≠ t → Ignores h m s l) ∧
    (∀ l s', l.1 ≠ t → (scopedMachine h).step s l = some s' →
      s'.previousHierarchyValue m = s.previousHierarchyValue m) ∧
    (s.pc t = .release m → ∃ s', (scopedMachine h).step s (t, .advance) = some s' ∧
      s'.internalMutex m = none ∧
      s'.thisThreadHierarchyValue t = s₀.thisThreadHierarchyValue t) := by
  have hr₂ := (hr.next hc).run hrun
  have hr₃ := hr₂.next hacq
  obtain ⟨hi, hn⟩ := scoped_inv h (hr₃.run hrun')
  have hignores : ∀ l, l.1 ≠ t → Ignores h m s l :=
    fun l hl => ignores_of_owner hi (hown _ s (List.prefix_refl _) hrun') hl
  refine ⟨hignores, fun l s' hl hs => (hignores l hl).unchanged hs, fun hrel => ?_⟩
  -- the stack below m is the one the thread called with
  have hpos := (inCall_of_run hr hc hrun hin).1
  rw [hp] at hpos
  obtain ⟨-, -, hheld, -⟩ := hpos
  have hheld₃ : s₃.held t = m :: s₀.held t := by
    have hs := (Machine.restrict_step.mp hacq).2
    simp only [machine, step, advance, hp, hfree, Option.some.injEq] at hs
    rw [← hs]
    simp [State.goto, State.take, hheld]
  have hsuf₃ : m :: s₀.held t <:+ s₃.held t := by rw [hheld₃]
  have hsuf := suffix_of_run hr₃ hsuf₃ hrun' hown
  have hs' : advance h s t = some ((s.drop t m).goto t .idle) := by simp [advance, hrel]
  refine ⟨_, Machine.restrict_step.mpr ⟨rfl, hs'⟩, by simp [State.goto, State.drop], ?_⟩
  -- and the thread's value at the call was the top of that stack
  have hth := (scoped_inv h hr).1.thread t
  rw [(call_start (Machine.restrict_step.mp hc).2).1] at hth
  rw [hi.released_value hn hrel hsuf hs', hth.2]

end

/-- Thread 0 takes mutex2 and mutex3, thread 1 waits for mutex3, thread 0 releases it. -/
theorem saved_value_kept_contended :
    ∃ s' : State (Fin 4) (Fin 2),
      (scopedMachine testValues).step (testState (lockCall 0 1 ++ [(0, .tryLock 2), (0, .advance),
        (0, .advance), (1, .lock 2), (1, .advance), (0, .advance), (0, .advance), (0, .unlock 2),
        (0, .advance)])) (0, .advance) = some s' ∧ s'.internalMutex 2 = none ∧
      s'.thisThreadHierarchyValue 0 = (testState (lockCall 0 1)).thisThreadHierarchyValue 0 := by
  have hr : (scopedMachine testValues).Reachable (testState (lockCall 0 1)) :=
    ⟨lockCall 0 1, rfl⟩
  have hc : (scopedMachine testValues).step (testState (lockCall 0 1)) (0, Call.tryLock.act 2) =
      some (testState (lockCall 0 1 ++ [(0, .tryLock 2)])) := rfl
  have hin : (scopedMachine testValues).Always (fun u => u.pc 0 ≠ .idle)
      (testState (lockCall 0 1 ++ [(0, .tryLock 2)])) [(0, .advance)] := by decide
  have hacq : (scopedMachine testValues).step
      (testState (lockCall 0 1 ++ [(0, .tryLock 2), (0, .advance)])) (0, .advance) =
      some (testState (lockCall 0 1 ++ [(0, .tryLock 2), (0, .advance), (0, .advance)])) := rfl
  have hown : (scopedMachine testValues).Always (fun u => u.internalMutex 2 = some 0)
      (testState (lockCall 0 1 ++ [(0, .tryLock 2), (0, .advance), (0, .advance)]))
      [(1, .lock 2), (1, .advance), (0, .advance), (0, .advance), (0, .unlock 2),
        (0, .advance)] := by decide
  exact (saved_value_kept testValues hr hc hin rfl rfl rfl hacq hown rfl).2.2 rfl

end LinuxPractice.HierarchicalMutex
