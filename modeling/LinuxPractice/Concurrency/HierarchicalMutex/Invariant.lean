import LinuxPractice.Concurrency.HierarchicalMutex.Model

set_option linter.unusedSectionVars false

namespace LinuxPractice.HierarchicalMutex

section

variable {μ τ : Type*}

/-- The lowest value of a held stack, ULONG_MAX when it is empty. -/
def top (h : μ → ULong) : List μ → ULong
  | [] => ulongMax
  | m :: _ => h m

/-- Each held mutex lies below the one acquired before it and has saved its value. -/
def Stacked (h prev : μ → ULong) : List μ → Prop
  | [] => True
  | m :: ms => prev m = top h ms ∧ h m < top h ms ∧ Stacked h prev ms

/-- What ties a thread's value and its held stack together at each point of a call. -/
def ThreadOk (h prev : μ → ULong) (pc : Pc μ) (v : ULong) (ms : List μ) : Prop :=
  match pc with
  | .idle | .check _ _ => Stacked h prev ms ∧ v = top h ms
  | .acquire _ m => Stacked h prev ms ∧ v = top h ms ∧ h m < v
  | .savePrevious m => ∃ rest, ms = m :: rest ∧ Stacked h prev rest ∧ v = top h rest ∧ h m < v
  | .setThreadValue m => ∃ rest, ms = m :: rest ∧ Stacked h prev ms ∧ v = top h rest
  | .restore m => Stacked h prev ms ∧ v = top h ms ∧ m ∈ ms
  | .release m => Stacked h prev ms ∧ v = prev m ∧ m ∈ ms

structure Inv (h : μ → ULong) (s : State μ τ) : Prop where
  thread : ∀ t, ThreadOk h s.previousHierarchyValue (s.pc t) (s.thisThreadHierarchyValue t)
    (s.held t)
  owner : ∀ m t, s.internalMutex m = some t ↔ m ∈ s.held t
  nodup : ∀ t, (s.held t).Nodup

theorem stacked_congr {h p q : μ → ULong} {ms : List μ} (he : ∀ m ∈ ms, p m = q m) :
    Stacked h p ms ↔ Stacked h q ms := by
  induction ms with
  | nil => rfl
  | cons m ms ih =>
    have ht := ih (fun k hk => he k (List.mem_cons_of_mem m hk))
    simp only [Stacked, he m List.mem_cons_self, ht]

theorem top_le_of_mem {h prev : μ → ULong} {ms : List μ} (hs : Stacked h prev ms) :
    ∀ k ∈ ms, top h ms ≤ h k := by
  induction ms with
  | nil => simp
  | cons m ms ih =>
    intro k hk
    rcases List.mem_cons.mp hk with rfl | hk
    · exact le_refl _
    · exact hs.2.1.le.trans (ih hs.2.2 k hk)

theorem threadOk_congr {h p q : μ → ULong} {pc : Pc μ} {v : ULong} {ms : List μ}
    (he : ∀ m ∈ ms, p m = q m) (ho : ThreadOk h p pc v ms) : ThreadOk h q pc v ms := by
  have hs := stacked_congr (h := h) he
  cases pc with
  | idle => exact ⟨hs.mp ho.1, ho.2⟩
  | check c m => exact ⟨hs.mp ho.1, ho.2⟩
  | acquire c m => exact ⟨hs.mp ho.1, ho.2⟩
  | savePrevious m =>
    obtain ⟨rest, rfl, hr, hv⟩ := ho
    have ht := stacked_congr (h := h) (fun k hk => he k (List.mem_cons_of_mem m hk))
    exact ⟨rest, rfl, ht.mp hr, hv⟩
  | setThreadValue m =>
    obtain ⟨rest, he, hr, hv⟩ := ho
    exact ⟨rest, he, hs.mp hr, hv⟩
  | restore m => exact ⟨hs.mp ho.1, ho.2⟩
  | release m => exact ⟨hs.mp ho.1, ho.2.1.trans (he m ho.2.2), ho.2.2⟩

variable [DecidableEq μ] [DecidableEq τ]

theorem inv_start (h : μ → ULong) : Inv h (start : State μ τ) where
  thread _ := ⟨trivial, rfl⟩
  owner m t := by simp [start]
  nodup _ := List.nodup_nil

/-- The frame rule: a step of thread t, given what it does to its own mutexes only. -/
theorem Inv.frame {h : μ → ULong} {s s' : State μ τ} (hi : Inv h s) (t : τ)
    (hpc : ∀ u, u ≠ t → s'.pc u = s.pc u)
    (hval : ∀ u, u ≠ t → s'.thisThreadHierarchyValue u = s.thisThreadHierarchyValue u)
    (hheld : ∀ u, u ≠ t → s'.held u = s.held u)
    (hprev : ∀ m u, u ≠ t → s.internalMutex m = some u →
      s.previousHierarchyValue m = s'.previousHierarchyValue m)
    (ho : ThreadOk h s'.previousHierarchyValue (s'.pc t) (s'.thisThreadHierarchyValue t)
      (s'.held t))
    (hown : ∀ m u, s'.internalMutex m = some u ↔ m ∈ s'.held u)
    (hnd : (s'.held t).Nodup) : Inv h s' where
  thread u := by
    by_cases hu : u = t
    · exact hu ▸ ho
    · rw [hpc u hu, hval u hu, hheld u hu]
      exact threadOk_congr (fun m hm => hprev m u hu ((hi.owner m u).mpr hm)) (hi.thread u)
  owner := hown
  nodup u := by
    by_cases hu : u = t
    · exact hu ▸ hnd
    · rw [hheld u hu]
      exact hi.nodup u

theorem Inv.goto {h : μ → ULong} {s : State μ τ} (hi : Inv h s) (t : τ) {pc : Pc μ}
    (ho : ThreadOk h s.previousHierarchyValue pc (s.thisThreadHierarchyValue t) (s.held t)) :
    Inv h (s.goto t pc) :=
  hi.frame t (fun u hu => by simp [State.goto, hu]) (fun _ _ => rfl) (fun _ _ => rfl)
    (fun _ _ _ _ => rfl) (by simpa [State.goto] using ho) hi.owner (hi.nodup t)

/-- The check made before the acquire still holds when the mutex is granted:
only the thread itself changes its value and its stack. -/
theorem Inv.take {h : μ → ULong} {s : State μ τ} (hi : Inv h s) {t : τ} {c : Call} {m : μ}
    (hp : s.pc t = .acquire c m) (hf : s.internalMutex m = none) :
    Inv h ((s.take t m).goto t (.savePrevious m)) := by
  have ho := hi.thread t
  rw [hp] at ho
  obtain ⟨hst, hv, hlt⟩ := ho
  have hfree : ∀ u, m ∉ s.held u := by
    intro u hm
    rw [← hi.owner, hf] at hm
    cases hm
  refine hi.frame t (fun u hu => ?_) (fun _ _ => rfl) (fun u hu => ?_) (fun _ _ _ _ => rfl)
    ?_ (fun k u => ?_) ?_
  · simp [State.goto, State.take, hu]
  · simp [State.goto, State.take, hu]
  · simp only [State.goto, State.take, Function.update_self, ThreadOk]
    exact ⟨s.held t, rfl, hst, hv, hlt⟩
  · have hk := hi.owner k u
    by_cases hkm : k = m <;> by_cases hut : u = t
    · simp [State.goto, State.take, hkm, hut]
    · simp [State.goto, State.take, hkm, hut, hfree u, Ne.symm hut]
    · simpa [State.goto, State.take, hkm, hut] using hut ▸ hk
    · simpa [State.goto, State.take, hkm, hut] using hk
  · simpa [State.goto, State.take] using And.intro (hfree t) (hi.nodup t)

/-- previous_hierarchy_value is written while the mutex is owned, so nobody else
has it in a stack. -/
theorem Inv.save {h : μ → ULong} {s : State μ τ} (hi : Inv h s) {t : τ} {m : μ}
    (hp : s.pc t = .savePrevious m) :
    Inv h ((s.setPrevious m (s.thisThreadHierarchyValue t)).goto t (.setThreadValue m)) := by
  have ho := hi.thread t
  rw [hp] at ho
  obtain ⟨rest, hh, hst, hv, hlt⟩ := ho
  have hmine : s.internalMutex m = some t := (hi.owner m t).mpr (by simp [hh])
  have hnot : m ∉ rest := by
    have hn := hi.nodup t
    rw [hh] at hn
    exact (List.nodup_cons.mp hn).1
  refine hi.frame t (fun u hu => ?_) (fun _ _ => rfl) (fun _ _ => rfl) (fun k u hu hk => ?_)
    ?_ hi.owner (hi.nodup t)
  · simp [State.goto, State.setPrevious, hu]
  · have hkm : k ≠ m := by
      rintro rfl
      exact hu (Option.some.inj (hk.symm.trans hmine))
    simp [State.goto, State.setPrevious, hkm]
  · simp only [State.goto, State.setPrevious, Function.update_self, ThreadOk]
    refine ⟨rest, hh, ?_, hv⟩
    rw [hh]
    refine ⟨by simp [hv], hv ▸ hlt, (stacked_congr ?_).mp hst⟩
    intro k hk
    have hkm : k ≠ m := by
      rintro rfl
      exact hnot hk
    simp [hkm]

theorem Inv.setThread {h : μ → ULong} {s : State μ τ} (hi : Inv h s) (t : τ) (v : ULong)
    {pc : Pc μ} (ho : ThreadOk h s.previousHierarchyValue pc v (s.held t)) :
    Inv h ((s.setThread t v).goto t pc) :=
  hi.frame t (fun u hu => by simp [State.goto, State.setThread, hu])
    (fun u hu => by simp [State.goto, State.setThread, hu]) (fun _ _ => rfl)
    (fun _ _ _ _ => rfl) (by simpa [State.goto, State.setThread] using ho) hi.owner (hi.nodup t)

/-- Releasing the newest mutex leaves exactly the value its predecessor had saved. -/
theorem Inv.release {h : μ → ULong} {s : State μ τ} (hi : Inv h s) {t : τ} {m : μ}
    (hp : s.pc t = .release m) (hl : (s.held t).head? = some m) :
    Inv h ((s.drop t m).goto t .idle) := by
  have ho := hi.thread t
  rw [hp] at ho
  obtain ⟨hst, hv, -⟩ := ho
  obtain ⟨rest, hh⟩ := List.head?_eq_some_iff.mp hl
  have hnd := hi.nodup t
  rw [hh] at hst hnd
  obtain ⟨hnot, hnd⟩ := List.nodup_cons.mp hnd
  have hmine : s.internalMutex m = some t := (hi.owner m t).mpr (by simp [hh])
  refine hi.frame t (fun u hu => ?_) (fun _ _ => rfl) (fun u hu => ?_) (fun _ _ _ _ => rfl)
    ?_ (fun k u => ?_) ?_
  · simp [State.goto, State.drop, hu]
  · simp [State.goto, State.drop, hu]
  · simp only [State.goto, State.drop, Function.update_self, hh, List.erase_cons_head, ThreadOk]
    exact ⟨hst.2.2, hv.trans hst.1⟩
  · have hk := hi.owner k u
    by_cases hkm : k = m <;> by_cases hut : u = t
    · subst hut
      simp [State.goto, State.drop, hkm, hh, hnot]
    · have hne : m ∉ s.held u := by
        rw [← hi.owner, hmine]
        exact fun he => hut (Option.some.inj he).symm
      simp [State.goto, State.drop, hkm, hut, hne]
    · subst hut
      simpa [State.goto, State.drop, hkm, hh] using hk
    · simpa [State.goto, State.drop, hkm, hut] using hk
  · simpa [State.goto, State.drop, hh] using hnd

/-- A completed unlock() gives back the newest mutex the thread holds. -/
def releasesNewest (s : State μ τ) : τ × Act μ → Bool
  | (t, .advance) =>
    match s.pc t with
    | .release m => (s.held t).head? = some m
    | _ => true
  | _ => true

theorem check_ok_iff {v w : ULong} : checkForHierarchyViolation v w = .ok () ↔ w < v := by
  unfold checkForHierarchyViolation
  split_ifs with hc
  · simpa using hc
  · simpa using hc

theorem Inv.advance {h : μ → ULong} {s s' : State μ τ} (hi : Inv h s) {t : τ}
    (hg : releasesNewest s (t, .advance) = true) (hs : advance h s t = some s') : Inv h s' := by
  have ho := hi.thread t
  unfold HierarchicalMutex.advance at hs
  cases hp : s.pc t with
  | idle => simp [hp] at hs
  | check c m =>
    rw [hp] at ho
    simp only [hp] at hs
    cases hc : checkForHierarchyViolation (s.thisThreadHierarchyValue t) (h m) with
    | error e =>
      simp only [hc, Option.some.injEq] at hs
      exact hs ▸ hi.goto t ho
    | ok _ =>
      simp only [hc, Option.some.injEq] at hs
      exact hs ▸ hi.goto t ⟨ho.1, ho.2, check_ok_iff.mp hc⟩
  | acquire c m =>
    rw [hp] at ho
    simp only [hp] at hs
    cases hf : s.internalMutex m with
    | none =>
      simp only [hf, Option.some.injEq] at hs
      exact hs ▸ hi.take hp hf
    | some u =>
      cases c with
      | lock => simp [hf] at hs
      | tryLock =>
        simp only [hf, Option.some.injEq] at hs
        exact hs ▸ hi.goto t ⟨ho.1, ho.2.1⟩
  | savePrevious m =>
    simp only [hp, Option.some.injEq] at hs
    exact hs ▸ hi.save hp
  | setThreadValue m =>
    rw [hp] at ho
    simp only [hp, Option.some.injEq] at hs
    obtain ⟨rest, hh, hst, -⟩ := ho
    exact hs ▸ hi.setThread t (h m) ⟨hst, by rw [hh]; rfl⟩
  | restore m =>
    rw [hp] at ho
    simp only [hp, Option.some.injEq] at hs
    exact hs ▸ hi.setThread t _ ⟨ho.1, rfl, ho.2.2⟩
  | release m =>
    simp only [hp, Option.some.injEq] at hs
    refine hs ▸ hi.release hp ?_
    simpa [releasesNewest, hp] using hg

/-- One step of any thread keeps the invariant, as long as it does not complete an
unlock() of a mutex below the top of its stack. -/
theorem Inv.step {h : μ → ULong} {s s' : State μ τ} {l : τ × Act μ} (hi : Inv h s)
    (hg : releasesNewest s l = true) (hs : step h s l = some s') : Inv h s' := by
  obtain ⟨t, a⟩ := l
  have ho := hi.thread t
  cases a with
  | lock m =>
    simp only [HierarchicalMutex.step, Option.ite_none_right_eq_some, Option.some.injEq] at hs
    obtain ⟨hp, rfl⟩ := hs
    rw [hp] at ho
    exact hi.goto t ho
  | tryLock m =>
    simp only [HierarchicalMutex.step, Option.ite_none_right_eq_some, Option.some.injEq] at hs
    obtain ⟨hp, rfl⟩ := hs
    rw [hp] at ho
    exact hi.goto t ho
  | unlock m =>
    simp only [HierarchicalMutex.step, Option.ite_none_right_eq_some, Option.some.injEq] at hs
    obtain ⟨⟨hp, hm⟩, rfl⟩ := hs
    rw [hp] at ho
    exact hi.goto t ⟨ho.1, ho.2, (hi.owner m t).mp hm⟩
  | advance => exact hi.advance hg hs

end

end LinuxPractice.HierarchicalMutex
