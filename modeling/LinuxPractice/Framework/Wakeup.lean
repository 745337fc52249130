import LinuxPractice.Framework.Monitor

set_option linter.unusedSectionVars false

namespace LinuxPractice.Monitor

variable {ι σ ω φ ρ ε τ : Type} [DecidableEq ι] [DecidableEq τ] [Fintype τ]

/-- The operations that can go to sleep on the condition variable. -/
def CanWait (M : Monitor ι σ ω φ ρ ε) (op : ω) : Prop :=
  ∃ f o, (M.body op f o).exit = .wait

/-- How critical sections treat the number of available items of an object: a
sleeper leaves none, a waiter takes one, and only a notifying section adds one. -/
structure Supply (M : Monitor ι σ ω φ ρ ε) (avail : ι → σ → Nat) : Prop where
  wait : ∀ op f o, (M.body op f o).exit = .wait → avail (M.lockOf op) (M.body op f o).shared = 0
  take : ∀ op f o r, M.CanWait op → (M.body op f o).exit = .ret r →
    avail (M.lockOf op) (M.body op f o).shared + 1 ≤ avail (M.lockOf op) o
  thrown : ∀ op f o e, (M.body op f o).exit = .thrown e →
    avail (M.lockOf op) (M.body op f o).shared ≤ avail (M.lockOf op) o
  quiet : ∀ op f o, (M.body op f o).notified = false →
    avail (M.lockOf op) (M.body op f o).shared ≤ avail (M.lockOf op) o
  loud : ∀ op f o, avail (M.lockOf op) (M.body op f o).shared ≤ avail (M.lockOf op) o + 1
  other : ∀ op f o op', M.lockOf op' ≠ M.lockOf op → M.ready o op' = true →
    avail (M.lockOf op') (M.body op f o).shared ≤ avail (M.lockOf op') o

/-- Objects that exist go on existing. -/
def Lasting (M : Monitor ι σ ω φ ρ ε) : Prop :=
  ∀ op f o op', M.ready o op' = true → M.ready (M.body op f o).shared op' = true

/-- The operation of a thread that has been through a wait. -/
def Phase.waited : Phase ω → Option ω
  | .sleeping op | .woken op | .inside op true => some op
  | _ => none

/-- Calls are in progress on existing objects only, and only waiting operations wait. -/
structure Calls (M : Monitor ι σ ω φ ρ ε) (s : State ι σ ω τ) : Prop where
  ready : ∀ t op, (s.phase t).op? = some op → M.ready s.shared op = true
  waiter : ∀ t op, (s.phase t).waited = some op → M.CanWait op

/-- No lost wake-up: while somebody sleeps on an object, every available item of it
is matched by a woken thread that has yet to re-test. -/
def Matched (M : Monitor ι σ ω φ ρ ε) (avail : ι → σ → Nat) (s : State ι σ ω τ) : Prop :=
  ∀ i, 0 < total (M.asleep i) s.phase → avail i s.shared ≤ total (M.awake i) s.phase

/-- A woken thread does not leave by exception while others sleep and the woken ones
are only just enough for the items. -/
def harmless (M : Monitor ι σ ω φ ρ ε) (avail : ι → σ → Nat) (s : State ι σ ω τ) :
    Label ω φ τ → Bool
  | .exec t f _ =>
    match s.phase t with
    | .inside op true =>
      match (M.body op f s.shared).exit with
      | .thrown _ => total (M.asleep (M.lockOf op)) s.phase = 0 ∨
          avail (M.lockOf op) s.shared < total (M.awake (M.lockOf op)) s.phase
      | _ => true
    | _ => true
  | _ => true

/-- How many sleepers of object j a critical section of object i wakes. -/
def wakes (M : Monitor ι σ ω φ ρ ε) (s : State ι σ ω τ) (i j : ι) (notified : Bool) : Nat :=
  if j = i ∧ notified = true ∧ 0 < total (M.asleep i) s.phase then 1 else 0

/-- The sleeping and the woken threads of every object after a critical section. -/
theorem finish_totals {M : Monitor ι σ ω φ ρ ε} {s : State ι σ ω τ} {t : τ} {op : ω}
    {back : Bool} {o : Outcome σ ρ ε} {target : Option τ} {phase : τ → Phase ω}
    (hp : s.phase t = .inside op back)
    (hn : M.notify (M.lockOf op) s.phase o.notified target = some phase) (j : ι) :
    total (M.asleep j) (s.finish M t op o phase).phase + M.wakes s (M.lockOf op) j o.notified =
      total (M.asleep j) s.phase + M.asleep j (o.exit.phase op) ∧
    total (M.awake j) (s.finish M t op o phase).phase + M.awake j (.inside op back) =
      total (M.awake j) s.phase + M.wakes s (M.lockOf op) j o.notified := by
  have hsleep := total_update (M.asleep j) phase t (o.exit.phase op)
  have hwake := total_update (M.awake j) phase t (o.exit.phase op)
  rw [notify_other hn hp] at hsleep hwake
  have hin : M.asleep j (.inside op back) = 0 := rfl
  have hout : M.awake j (o.exit.phase op) = 0 := by cases o.exit <;> rfl
  simp only [State.finish]
  rcases notify_cases hn with ⟨rfl, hnone⟩ | ⟨hnot, u, op', hu, hl, rfl⟩
  · have hk : M.wakes s (M.lockOf op) j o.notified = 0 := by
      apply if_neg
      rintro ⟨-, hnot, hpos⟩
      have hz := hnone hnot
      omega
    omega
  · have hpos : 0 < total (M.asleep (M.lockOf op)) s.phase :=
      total_pos.mpr ⟨u, by simp [hu, asleep, hl]⟩
    have hs := total_update (M.asleep j) s.phase u (.woken op')
    have hw := total_update (M.awake j) s.phase u (.woken op')
    by_cases hj : j = M.lockOf op
    · subst hj
      simp only [hu, asleep, awake, hl, if_true] at hs hw
      simp only [wakes, hnot, hpos, and_self, if_true]
      omega
    · have hj' : ¬M.lockOf op' = j := fun h => hj (h.symm.trans hl)
      simp only [hu, asleep, awake, hj', if_false] at hs hw
      simp only [wakes, hj, false_and, if_false]
      omega

/-- Every phase that goes on after a critical section belongs to an operation that
was in progress before it. -/
theorem finish_phase {M : Monitor ι σ ω φ ρ ε} {s : State ι σ ω τ} {t : τ} {op : ω}
    {back : Bool} {o : Outcome σ ρ ε} {target : Option τ} {phase : τ → Phase ω}
    (hp : s.phase t = .inside op back)
    (hn : M.notify (M.lockOf op) s.phase o.notified target = some phase) (u : τ) :
    (∀ op', ((s.finish M t op o phase).phase u).op? = some op' → (s.phase u).op? = some op') ∧
    (∀ op', ((s.finish M t op o phase).phase u).waited = some op' →
      (s.phase u).waited = some op' ∨ (op' = op ∧ o.exit = .wait)) := by
  by_cases hut : u = t
  · subst hut
    cases hx : o.exit <;> simp [State.finish, hx, Exit.phase, hp, Phase.op?, Phase.waited]
  · simp only [State.finish, Function.update_of_ne hut]
    rcases notify_cases hn with ⟨rfl, -⟩ | ⟨-, v, op', hv, -, rfl⟩
    · exact ⟨fun _ h => h, fun _ h => .inl h⟩
    · by_cases huv : u = v
      · subst huv
        simp [hv, Phase.op?, Phase.waited]
      · rw [Function.update_of_ne huv]
        exact ⟨fun _ h => h, fun _ h => .inl h⟩

theorem Calls.start {M : Monitor ι σ ω φ ρ ε} (o : σ) :
    Calls M (Monitor.start o : State ι σ ω τ) where
  ready t op h := by simp [Monitor.start, Phase.op?] at h
  waiter t op h := by simp [Monitor.start, Phase.waited] at h

/-- A step outside of the critical sections. -/
theorem Calls.goto {M : Monitor ι σ ω φ ρ ε} {s s' : State ι σ ω τ} (hc : Calls M s) {t : τ}
    {p : Phase ω} (hsh : s'.shared = s.shared) (hph : s'.phase = Function.update s.phase t p)
    (hready : ∀ op, p.op? = some op → (s.phase t).op? = some op ∨ M.ready s.shared op = true)
    (hwait : ∀ op, p.waited = some op → (s.phase t).waited = some op) : Calls M s' where
  ready u op h := by
    rw [hsh]
    by_cases hu : u = t
    · subst hu
      rw [hph, Function.update_self] at h
      exact (hready op h).elim (hc.ready u op) id
    · rw [hph, Function.update_of_ne hu] at h
      exact hc.ready u op h
  waiter u op h := by
    by_cases hu : u = t
    · subst hu
      rw [hph, Function.update_self] at h
      exact hc.waiter u op (hwait op h)
    · rw [hph, Function.update_of_ne hu] at h
      exact hc.waiter u op h

theorem Calls.step {M : Monitor ι σ ω φ ρ ε} {s s' : State ι σ ω τ} {l : Label ω φ τ}
    (hc : Calls M s) (hk : M.Lasting) (hs : M.step s l = some s') : Calls M s' := by
  cases move_of_step hs with
  | call t op hp hr =>
    refine hc.goto (t := t) rfl rfl ?_ (by simp [Phase.waited])
    intro op' h
    have he : op = op' := by simpa [Phase.op?] using h
    exact .inr (he ▸ hr)
  | unwind t op hp _ => exact hc.goto (t := t) rfl rfl (by simp [Phase.op?]) (by simp [Phase.waited])
  | enter t op _ hp _ hg =>
    obtain ⟨-, rfl⟩ := grab_eq_some.mp hg
    exact hc.goto (t := t) rfl rfl (by simp [hp, Phase.op?]) (by simp [Phase.waited])
  | resume t op _ hp _ hg =>
    obtain ⟨-, rfl⟩ := grab_eq_some.mp hg
    exact hc.goto (t := t) rfl rfl (by simp [hp, Phase.op?]) (by simp [hp, Phase.waited])
  | spurious t op hp =>
    exact hc.goto (t := t) rfl rfl (by simp [hp, Phase.op?]) (by simp [hp, Phase.waited])
  | exec t f target op back phase hp hn =>
    refine ⟨fun u op' h => ?_, fun u op' h => ?_⟩
    · exact hk op f s.shared op' (hc.ready u op' ((finish_phase hp hn u).1 op' h))
    · rcases (finish_phase hp hn u).2 op' h with h | ⟨rfl, hx⟩
      · exact hc.waiter u op' h
      · exact ⟨f, s.shared, hx⟩

theorem calls_of_reachable {M : Monitor ι σ ω φ ρ ε} (hk : M.Lasting) {o : σ}
    {s : State ι σ ω τ} (hr : (M.machine o).Reachable s) : Calls M s :=
  hr.invariant (Calls.start o) (fun _ _ _ hc hs => hc.step hk hs)

theorem Matched.start {M : Monitor ι σ ω φ ρ ε} {avail : ι → σ → Nat} (o : σ) :
    Matched M avail (Monitor.start o : State ι σ ω τ) := by
  intro i h
  have hz : total (M.asleep i) (Monitor.start o : State ι σ ω τ).phase = 0 :=
    total_eq_zero.mpr (fun _ => rfl)
  omega

/-- A step outside of the critical sections that puts nobody to sleep. -/
theorem Matched.goto {M : Monitor ι σ ω φ ρ ε} {avail : ι → σ → Nat} {s s' : State ι σ ω τ}
    (hm : Matched M avail s) {t : τ} {p : Phase ω} (hsh : s'.shared = s.shared)
    (hph : s'.phase = Function.update s.phase t p)
    (hsleep : ∀ i, M.asleep i p ≤ M.asleep i (s.phase t))
    (hwake : ∀ i, M.awake i (s.phase t) ≤ M.awake i p) : Matched M avail s' := by
  intro i h
  have hs := total_update (M.asleep i) s.phase t p
  have hw := total_update (M.awake i) s.phase t p
  have hsi := hsleep i
  have hwi := hwake i
  rw [hph] at h ⊢
  have hold := hm i (by omega)
  rw [hsh]
  omega

/-- The items of the object whose critical section is left. -/
theorem Matched.exec_self {M : Monitor ι σ ω φ ρ ε} {avail : ι → σ → Nat} {s : State ι σ ω τ}
    (hm : Matched M avail s) (hc : Calls M s) (hsup : M.Supply avail) {t : τ} {f : φ}
    {target : Option τ} {op : ω} {back : Bool} {phase : τ → Phase ω}
    (hp : s.phase t = .inside op back)
    (hn : M.notify (M.lockOf op) s.phase (M.body op f s.shared).notified target = some phase)
    (hh : M.harmless avail s (.exec t f target) = true)
    (h : 0 < total (M.asleep (M.lockOf op))
      (s.finish M t op (M.body op f s.shared) phase).phase) :
    avail (M.lockOf op) (M.body op f s.shared).shared ≤
      total (M.awake (M.lockOf op)) (s.finish M t op (M.body op f s.shared) phase).phase := by
  obtain ⟨hs, hw⟩ := finish_totals hp hn (M.lockOf op)
  have hold := hm (M.lockOf op)
  have hwakes : M.wakes s (M.lockOf op) (M.lockOf op) (M.body op f s.shared).notified ≤ 1 := by
    unfold wakes
    split_ifs <;> omega
  have hyes : M.awake (M.lockOf op) (.inside op true) = 1 := by simp [awake]
  have hnot : M.awake (M.lockOf op) (.inside op false) = 0 := rfl
  cases hx : (M.body op f s.shared).exit with
  | wait =>
    have hz := hsup.wait op f s.shared hx
    omega
  | ret r =>
    have hno : M.asleep (M.lockOf op) ((M.body op f s.shared).exit.phase op) = 0 := by
      rw [hx]
      rfl
    cases back with
    | true =>
      have htake := hsup.take op f s.shared r (hc.waiter t op (by simp [hp, Phase.waited])) hx
      omega
    | false =>
      have hquiet := hsup.quiet op f s.shared
      have hloud := hsup.loud op f s.shared
      cases hn : (M.body op f s.shared).notified with
      | false =>
        have hq := hquiet hn
        omega
      | true =>
        have hpos : 0 < total (M.asleep (M.lockOf op)) s.phase := by omega
        have hone : M.wakes s (M.lockOf op) (M.lockOf op)
            (M.body op f s.shared).notified = 1 := by simp [wakes, hn, hpos]
        omega
  | thrown e =>
    have hno : M.asleep (M.lockOf op) ((M.body op f s.shared).exit.phase op) = 0 := by
      rw [hx]
      rfl
    have hthrown := hsup.thrown op f s.shared e hx
    cases back with
    | true =>
      simp only [harmless, hp, hx, decide_eq_true_eq] at hh
      omega
    | false => omega

/-- The items of all other objects: their sleepers and woken threads are as before. -/
theorem Matched.exec_other {M : Monitor ι σ ω φ ρ ε} {avail : ι → σ → Nat} {s : State ι σ ω τ}
    (hm : Matched M avail s) (hc : Calls M s) (hsup : M.Supply avail) {t : τ} {f : φ}
    {target : Option τ} {op : ω} {back : Bool} {phase : τ → Phase ω}
    (hp : s.phase t = .inside op back)
    (hn : M.notify (M.lockOf op) s.phase (M.body op f s.shared).notified target = some phase)
    {j : ι} (hj : j ≠ M.lockOf op)
    (h : 0 < total (M.asleep j) (s.finish M t op (M.body op f s.shared) phase).phase) :
    avail j (M.body op f s.shared).shared ≤
      total (M.awake j) (s.finish M t op (M.body op f s.shared) phase).phase := by
  obtain ⟨hs, hw⟩ := finish_totals hp hn j
  have hk : M.wakes s (M.lockOf op) j (M.body op f s.shared).notified = 0 := by
    simp [wakes, hj]
  have hback : M.awake j (.inside op back) = 0 := by
    cases back with
    | true => simp [awake, Ne.symm hj]
    | false => rfl
  have hno : M.asleep j ((M.body op f s.shared).exit.phase op) = 0 := by
    cases (M.body op f s.shared).exit <;> simp [Exit.phase, asleep, Ne.symm hj]
  have hpos : 0 < total (M.asleep j) s.phase := by omega
  obtain ⟨u, op', hu, rfl⟩ := exists_sleeper hpos
  have hr := hc.ready u op' (by simp [hu, Phase.op?])
  have hother := hsup.other op f s.shared op' hj hr
  have hold := hm (M.lockOf op') hpos
  omega

/-- One step keeps every item matched, unless a woken thread fails where it may not. -/
theorem Matched.step {M : Monitor ι σ ω φ ρ ε} {avail : ι → σ → Nat} {s s' : State ι σ ω τ}
    {l : Label ω φ τ} (hm : Matched M avail s) (hc : Calls M s) (hsup : M.Supply avail)
    (hh : M.harmless avail s l = true) (hs : M.step s l = some s') : Matched M avail s' := by
  cases move_of_step hs with
  | call t op hp hr => exact hm.goto (t := t) rfl rfl (by simp [asleep]) (by simp [awake, hp])
  | unwind t op hp _ => exact hm.goto (t := t) rfl rfl (by simp [asleep]) (by simp [awake, hp])
  | enter t op _ hp _ hg =>
    obtain ⟨-, rfl⟩ := grab_eq_some.mp hg
    exact hm.goto (t := t) rfl rfl (by simp [asleep]) (by simp [awake, hp])
  | resume t op _ hp _ hg =>
    obtain ⟨-, rfl⟩ := grab_eq_some.mp hg
    exact hm.goto (t := t) rfl rfl (by simp [asleep]) (by simp [awake, hp])
  | spurious t op hp => exact hm.goto (t := t) rfl rfl (by simp [asleep]) (by simp [awake, hp])
  | exec t f target op back phase hp hn =>
    intro j h
    by_cases hj : j = M.lockOf op
    · exact hj ▸ hm.exec_self hc hsup hp hn hh (hj ▸ h)
    · exact hm.exec_other hc hsup hp hn hj h

/-- No lost wake-up along every run whose failures are harmless. -/
theorem matched_of_obeys {M : Monitor ι σ ω φ ρ ε} {avail : ι → σ → Nat} (hk : M.Lasting)
    (hsup : M.Supply avail) {o : σ} {tr : List (Label ω φ τ)} {s : State ι σ ω τ}
    (hr : (M.machine o).run (Monitor.start o) tr = some s)
    (ho : (M.machine o).Obeys (M.harmless avail) (Monitor.start o) tr) :
    Calls M s ∧ Matched M avail s :=
  ho.invariant (P := fun s => Calls M s ∧ Matched M avail s) ⟨Calls.start o, Matched.start o⟩
    (fun _ _ _ h hh hs => ⟨h.1.step hk hs, h.2.step h.1 hsup hh hs⟩) hr

end LinuxPractice.Monitor
