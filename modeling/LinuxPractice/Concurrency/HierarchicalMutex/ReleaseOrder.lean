import LinuxPractice.Concurrency.HierarchicalMutex.Invariant
import Mathlib.Order.Bounds.Basic

set_option linter.unusedSectionVars false

namespace LinuxPractice.HierarchicalMutex

section

variable {μ τ : Type*} [DecidableEq μ] [DecidableEq τ]

def Holds (s : State μ τ) (t : τ) (m : μ) : Prop := s.internalMutex m = some t

/-- The tracked value is right for every thread between calls: it is the least
hierarchy_value held, so a mutex not below every held one is rejected, and a
thread that holds nothing is not restricted at all. -/
structure Tracked (h : μ → ULong) (s : State μ τ) : Prop where
  least : ∀ t, s.pc t = .idle → (∃ m, Holds s t m) →
    IsLeast {v | ∃ m, Holds s t m ∧ h m = v} (s.thisThreadHierarchyValue t)
  nothing : ∀ t, s.pc t = .idle → (∀ m, ¬Holds s t m) → s.thisThreadHierarchyValue t = ulongMax
  rejects : ∀ t m k, s.pc t = .idle → Holds s t k → h k ≤ h m →
    checkForHierarchyViolation (s.thisThreadHierarchyValue t) (h m) =
      .error .mutexHierarchyViolation
  unrestricted : ∀ t m, s.pc t = .idle → (∀ k, ¬Holds s t k) →
    checkForHierarchyViolation (s.thisThreadHierarchyValue t) (h m) = .ok ()

theorem check_error_iff {v w : ULong} :
    checkForHierarchyViolation v w = .error .mutexHierarchyViolation ↔ v ≤ w := by
  unfold checkForHierarchyViolation
  split_ifs with hc
  · simpa using hc
  · simpa using hc

theorem Inv.holds_nothing {h : μ → ULong} {s : State μ τ} (hi : Inv h s) {t : τ}
    (hn : ∀ m, ¬Holds s t m) : s.held t = [] := by
  apply List.eq_nil_iff_forall_not_mem.mpr
  intro m hm
  exact hn m ((hi.owner m t).mpr hm)

/-- Under the invariant only a mutex of value ULONG_MAX can spoil the tracking. -/
theorem Inv.tracked {h : μ → ULong} {s : State μ τ} (hi : Inv h s)
    (hmax : ∀ m, h m ≠ ulongMax) : Tracked h s := by
  have value : ∀ t, s.pc t = .idle → Stacked h s.previousHierarchyValue (s.held t) ∧
      s.thisThreadHierarchyValue t = top h (s.held t) := by
    intro t hp
    have ho := hi.thread t
    rw [hp] at ho
    exact ho
  refine ⟨?_, ?_, ?_, ?_⟩
  · rintro t hp ⟨m, hm⟩
    obtain ⟨hst, hv⟩ := value t hp
    have hmem := (hi.owner m t).mp hm
    refine ⟨?_, ?_⟩
    · obtain ⟨k, rest, hh⟩ := List.exists_cons_of_ne_nil (List.ne_nil_of_mem hmem)
      exact ⟨k, (hi.owner k t).mpr (by simp [hh]), by rw [hv, hh]; rfl⟩
    · rintro _ ⟨k, hk, rfl⟩
      exact hv ▸ top_le_of_mem hst k ((hi.owner k t).mp hk)
  · intro t hp hn
    rw [(value t hp).2, hi.holds_nothing hn]
    rfl
  · intro t m k hp hk hle
    obtain ⟨hst, hv⟩ := value t hp
    have hlow := top_le_of_mem hst k ((hi.owner k t).mp hk)
    exact check_error_iff.mpr (hv ▸ hlow.trans hle)
  · intro t m hp hn
    rw [(value t hp).2, hi.holds_nothing hn]
    exact check_ok_iff.mpr (lt_of_le_of_ne (le_ulongMax _) (hmax m))

/-- What a held mutex has saved lies strictly above its own value. -/
theorem lt_previous_of_mem {h prev : μ → ULong} {ms : List μ} (hs : Stacked h prev ms) :
    ∀ m ∈ ms, h m < prev m := by
  induction ms with
  | nil => simp
  | cons k ms ih =>
    intro m hm
    rcases List.mem_cons.mp hm with rfl | hm
    · rw [hs.1]
      exact hs.2.1
    · exact ih hs.2.2 m hm

/-- A release below the top leaves a value above a mutex that is still held. -/
theorem not_tracked_of_release {h : μ → ULong} {s : State μ τ} (hi : Inv h s) {t : τ} {m : μ}
    (hp : s.pc t = .release m) (hne : (s.held t).head? ≠ some m) :
    ¬Tracked h ((s.drop t m).goto t .idle) := by
  intro ht
  have ho := hi.thread t
  rw [hp] at ho
  obtain ⟨hst, hv, hm⟩ := ho
  obtain ⟨k, rest, hh⟩ := List.exists_cons_of_ne_nil (List.ne_nil_of_mem hm)
  have hkm : k ≠ m := by
    rintro rfl
    exact hne (by simp [hh])
  have hk : Holds ((s.drop t m).goto t .idle) t k := by
    have hmine := (hi.owner k t).mpr (by simp [hh])
    simpa [Holds, State.goto, State.drop, hkm] using hmine
  have hleast := (ht.least t (by simp [State.goto]) ⟨k, hk⟩).2 ⟨k, hk, rfl⟩
  have hlow : h k < s.previousHierarchyValue m := by
    have hle := top_le_of_mem hst m hm
    rw [hh] at hle
    exact lt_of_le_of_lt hle (lt_previous_of_mem hst m hm)
  have hval : ((s.drop t m).goto t .idle).thisThreadHierarchyValue t =
      s.previousHierarchyValue m := hv
  rw [hval] at hleast
  exact absurd hlow (not_lt_of_ge hleast)

theorem inv_of_newest_first (h : μ → ULong) {tr : List (τ × Act μ)} {s : State μ τ}
    (hr : (machine h).run start tr = some s)
    (ho : (machine h).Obeys releasesNewest start tr) : Inv h s :=
  ho.invariant (inv_start h) (fun _ _ _ hi hg hs => hi.step hg hs) hr

theorem releasesNewest_of_tracked {h : μ → ULong} {s s' : State μ τ} {l : τ × Act μ}
    (hi : Inv h s) (hs : step h s l = some s') (ht : Tracked h s') :
    releasesNewest s l = true := by
  by_contra hc
  obtain ⟨t, a⟩ := l
  cases a with
  | lock m => exact hc rfl
  | tryLock m => exact hc rfl
  | unlock m => exact hc rfl
  | advance =>
    cases hp : s.pc t with
    | release m =>
      simp only [releasesNewest, hp, decide_eq_true_eq] at hc
      simp only [step, advance, hp, Option.some.injEq] at hs
      exact not_tracked_of_release hi hp hc (hs ▸ ht)
    | _ => simp [releasesNewest, hp] at hc

/-- Along a run the tracking is right throughout exactly when every completed
unlock() is of the newest mutex held and no mutex carries the sentinel value. -/
theorem tracked_iff_newest_first [Inhabited τ] (h : μ → ULong) {tr : List (τ × Act μ)}
    {s : State μ τ} (hr : (machine h).run start tr = some s) :
    (machine h).Always (Tracked h) start tr ↔
      (machine h).Obeys releasesNewest start tr ∧ ∀ m, h m ≠ ulongMax := by
  constructor
  · intro ha
    constructor
    · refine (machine h).run_induction (P := fun tr _ =>
        (machine h).Always (Tracked h) start tr → (machine h).Obeys releasesNewest start tr)
        ?_ ?_ hr ha
      · intro _ pre l u hp
        simp at hp
      · intro tr u l v hu ih hs ha
        have ho := ih (ha.initial (List.prefix_append _ _))
        have hv := ha _ v (List.prefix_refl _) ((machine h).run_snoc_of hu hs)
        exact (Machine.obeys_snoc hu).mpr
          ⟨ho, releasesNewest_of_tracked (inv_of_newest_first h hu ho) hs hv⟩
    · intro m hm
      have ht := ha [] start (List.nil_prefix) rfl
      have hc := ht.unrestricted default m rfl (by simp [Holds, start])
      exact absurd (check_ok_iff.mp hc) (by simp [start, hm])
  · rintro ⟨ho, hmax⟩ pre u hp hu
    exact (inv_of_newest_first h hu (ho.initial hp)).tracked hmax

end

/-- A whole call of lock(), and of unlock(), by thread t without interruption. -/
def lockCall {μ τ : Type*} (t : τ) (m : μ) : List (τ × Act μ) :=
  [(t, .lock m), (t, .advance), (t, .advance), (t, .advance), (t, .advance)]

def unlockCall {μ τ : Type*} (t : τ) (m : μ) : List (τ × Act μ) :=
  [(t, .unlock m), (t, .advance), (t, .advance)]

/-- The main of the test: four nested locks, released in reverse. -/
def testMain : List (Fin 1 × Act (Fin 4)) :=
  lockCall 0 0 ++ lockCall 0 1 ++ lockCall 0 2 ++ lockCall 0 3 ++
    unlockCall 0 3 ++ unlockCall 0 2 ++ unlockCall 0 1 ++ unlockCall 0 0

theorem tracked_iff_newest_first_testMain :
    ∃ s, (machine testValues).run start testMain = some s ∧
      ((machine testValues).Always (Tracked testValues) start testMain ↔
        (machine testValues).Obeys releasesNewest start testMain ∧
          ∀ m, testValues m ≠ ulongMax) := by
  have hs : ((machine testValues).run start testMain).isSome = true := by decide
  have hr := (Option.some_get hs).symm
  exact ⟨_, hr, tracked_iff_newest_first testValues hr⟩

/-- mutex1 and mutex2 are locked and mutex1 is released first: the thread's value is
back at ULONG_MAX although it still holds mutex2. -/
theorem not_tracked_out_of_order :
    ¬∀ s : State (Fin 4) (Fin 1), (machine testValues).Reachable s → Tracked testValues s := by
  intro hall
  have hs : ((machine testValues).run (start : State (Fin 4) (Fin 1))
      (lockCall 0 0 ++ lockCall 0 1 ++ unlockCall 0 0)).isSome = true := by decide
  have ht := hall _ (Machine.Reachable.of_isSome (machine testValues) _ hs)
  have hl : ulongMax ≤ testValues 1 := (ht.least 0 rfl ⟨1, rfl⟩).2 ⟨1, rfl, rfl⟩
  exact absurd hl (by decide)

end LinuxPractice.HierarchicalMutex
