import LinuxPractice.Concurrency.HierarchicalMutex.Invariant
import LinuxPractice.Framework.LockOrder

set_option linter.unusedSectionVars false

namespace LinuxPractice.HierarchicalMutex

section

variable {μ τ : Type*} [DecidableEq μ] [DecidableEq τ]

/-- Every unlock() in progress is of the newest mutex its thread holds. -/
def Nested (s : State μ τ) : Prop :=
  ∀ t m, s.pc t = .restore m ∨ s.pc t = .release m → (s.held t).head? = some m

theorem advance_others {h : μ → ULong} {s s' : State μ τ} {t u : τ}
    (hs : advance h s t = some s') (hu : u ≠ t) : s'.pc u = s.pc u ∧ s'.held u = s.held u := by
  unfold advance at hs
  split at hs
  · cases hs
  · split at hs <;> cases hs <;> simp [State.goto, hu]
  · split at hs <;> cases hs <;> simp [State.goto, State.take, hu]
  · cases hs; simp [State.goto, State.setPrevious, hu]
  · cases hs; simp [State.goto, State.setThread, hu]
  · cases hs; simp [State.goto, State.setThread, hu]
  · cases hs; simp [State.goto, State.drop, hu]

/-- advance enters the release step only from restore, and never enters restore. -/
theorem advance_unlocking {h : μ → ULong} {s s' : State μ τ} {t : τ} {m : μ}
    (hs : advance h s t = some s') (hp : s'.pc t = .restore m ∨ s'.pc t = .release m) :
    s.pc t = .restore m ∧ s'.held t = s.held t := by
  unfold advance at hs
  split at hs
  · cases hs
  · split at hs <;> cases hs <;> simp [State.goto] at hp
  · split at hs <;> cases hs <;> simp [State.goto] at hp
  · cases hs; simp [State.goto] at hp
  · cases hs; simp [State.goto] at hp
  · rename_i k hk
    cases hs
    have he : k = m := by simpa [State.goto] using hp
    exact ⟨he ▸ hk, rfl⟩
  · cases hs; simp [State.goto] at hp

theorem goto_unlocking {s : State μ τ} {t : τ} {pc : Pc μ} (hn : Nested s)
    (hp : ∀ m, pc = .restore m ∨ pc = .release m → (s.held t).head? = some m) :
    Nested (s.goto t pc) := by
  intro u m hu
  by_cases he : u = t
  · subst he
    exact hp m (by simpa [State.goto] using hu)
  · exact hn u m (by simpa [State.goto, he] using hu)

theorem Nested.step {h : μ → ULong} {s s' : State μ τ} {l : τ × Act μ} (hn : Nested s)
    (hg : lifo s l = true) (hs : step h s l = some s') : Nested s' := by
  obtain ⟨t, a⟩ := l
  cases a with
  | lock m =>
    simp only [HierarchicalMutex.step, Option.ite_none_right_eq_some, Option.some.injEq] at hs
    exact hs.2 ▸ goto_unlocking hn (by simp)
  | tryLock m =>
    simp only [HierarchicalMutex.step, Option.ite_none_right_eq_some, Option.some.injEq] at hs
    exact hs.2 ▸ goto_unlocking hn (by simp)
  | unlock m =>
    simp only [HierarchicalMutex.step, Option.ite_none_right_eq_some, Option.some.injEq] at hs
    refine hs.2 ▸ goto_unlocking hn (fun k hk => ?_)
    have he : m = k := by simpa using hk
    simpa [lifo, he] using hg
  | advance =>
    intro u m hu
    by_cases he : u = t
    · subst he
      obtain ⟨hp, hh⟩ := advance_unlocking hs hu
      exact hh ▸ hn u m (.inl hp)
    · obtain ⟨hp, hh⟩ := advance_others hs he
      rw [hp] at hu
      exact hh ▸ hn u m hu

theorem Nested.releasesNewest {s : State μ τ} (hn : Nested s) (l : τ × Act μ) :
    releasesNewest s l = true := by
  obtain ⟨t, a⟩ := l
  cases a with
  | lock m => rfl
  | tryLock m => rfl
  | unlock m => rfl
  | advance =>
    simp only [HierarchicalMutex.releasesNewest]
    split
    · rename_i m hm
      simpa using hn t m (.inr hm)
    · rfl

/-- In every reachable state of properly nested callers the invariant holds. -/
theorem scoped_inv (h : μ → ULong) {s : State μ τ} (hr : (scopedMachine h).Reachable s) :
    Inv h s ∧ Nested s := by
  refine hr.invariant (P := fun s => Inv h s ∧ Nested s) ⟨inv_start h, ?_⟩ ?_
  · intro t m hp
    simp [scopedMachine, Machine.restrict, machine, start] at hp
  · intro s l s' hp hs
    obtain ⟨hi, hn⟩ := hp
    obtain ⟨hg, hs⟩ := Machine.restrict_step.mp hs
    exact ⟨hi.step (hn.releasesNewest l) hs, hn.step hg hs⟩

/-- The mutex whose internal_mutex.lock() a thread is in. -/
def wants (s : State μ τ) (t : τ) : Option μ :=
  match s.pc t with
  | .acquire .lock m => some m
  | _ => none

/-- Thread t is blocked in internal_mutex.lock() on a mutex owned by thread u. -/
def BlockedOn (s : State μ τ) : τ → τ → Prop := LockOrder.WaitsFor s.internalMutex (wants s)

def Blocked (s : State μ τ) (t : τ) : Prop := ∃ u, BlockedOn s t u

theorem wants_eq_some {s : State μ τ} {t : τ} {m : μ} :
    wants s t = some m ↔ s.pc t = .acquire .lock m := by
  unfold wants
  split
  · rename_i k hk
    simp [hk]
  · rename_i hne
    simp only [reduceCtorEq, false_iff]
    exact fun hp => hne m hp

/-- A thread at an acquire stands below every mutex it owns. -/
theorem Inv.acquire_below {h : μ → ULong} {s : State μ τ} (hi : Inv h s) {t : τ} {c : Call}
    {m k : μ} (hp : s.pc t = .acquire c m) (hk : s.internalMutex k = some t) : h m < h k := by
  have ho := hi.thread t
  rw [hp] at ho
  obtain ⟨hst, hv, hlt⟩ := ho
  exact (hv ▸ hlt).trans_le (top_le_of_mem hst k ((hi.owner k t).mp hk))

theorem Inv.descending {h : μ → ULong} {s : State μ τ} (hi : Inv h s) :
    LockOrder.Descending s.internalMutex (wants s) h :=
  fun _ _ _ hw hk => hi.acquire_below (wants_eq_some.mp hw) hk

/-- No circular wait, some owner always runs, and no thread locks what it owns. -/
theorem scoped_deadlock_free (h : μ → ULong) {s : State μ τ}
    (hr : (scopedMachine h).Reachable s) :
    (∀ t, ¬Relation.TransGen (BlockedOn s) t t) ∧
    (∀ t, Blocked s t → ∃ k u, s.internalMutex k = some u ∧ ¬Blocked s u) ∧
    (∀ t c m, s.pc t = .acquire c m → s.internalMutex m ≠ some t) := by
  have hi := (scoped_inv h hr).1
  refine ⟨LockOrder.waitsFor_acyclic hi.descending, ?_, ?_⟩
  · rintro t ⟨u, m, -, hu⟩
    obtain ⟨k, v, hv, hn⟩ := LockOrder.exists_running_owner hi.descending hu
    exact ⟨k, v, hv, fun ⟨w, hw⟩ => hn w hw⟩
  · intro t c m hp hk
    exact lt_irrefl _ (hi.acquire_below hp hk)

/-- Two threads over the four mutexes of the test: thread 0 holds the two highest,
thread 1 has been checked for the second and waits for it. -/
def contended : List (Fin 2 × Act (Fin 4)) :=
  [(0, .lock 0), (0, .advance), (0, .advance), (0, .advance), (0, .advance),
    (0, .lock 1), (1, .lock 1), (1, .advance), (0, .advance), (0, .advance)]

theorem scoped_deadlock_free_contended :
    ∃ s : State (Fin 4) (Fin 2), (scopedMachine testValues).Reachable s ∧ BlockedOn s 1 0 ∧
      (∀ t, ¬Relation.TransGen (BlockedOn s) t t) ∧
      (∀ t, Blocked s t → ∃ k u, s.internalMutex k = some u ∧ ¬Blocked s u) ∧
      (∀ t c m, s.pc t = .acquire c m → s.internalMutex m ≠ some t) := by
  have hs : ((scopedMachine testValues).run start contended).isSome = true := by decide
  have hr := Machine.Reachable.of_isSome (scopedMachine testValues) contended hs
  exact ⟨_, hr, ⟨1, rfl, rfl⟩, scoped_deadlock_free testValues hr⟩

end

end LinuxPractice.HierarchicalMutex
