import LinuxPractice.Framework.Progress
import LinuxPractice.Web.ThreadsBooks

namespace LinuxPractice.Web.Threads

variable {n : Nat} {maxnconn : Int} {reply : Fin n → Nat} {s s' : State n}

section Work

/-- What a thread has still to do before it is joined, for a reply of r bytes. -/
def weight (r : Nat × File) : Nat :=
  match r.2.pc with
  | .absent => r.1 + 6
  | .connect => r.1 + 5
  | .read left => left + 4
  | .lock => 3
  | .locked => 2
  | .returned => if r.2.flags = .joined then 0 else 1

/-- The for loop of main still comes to a file that is done. -/
def Pending (s : State n) (i : Nat) : Prop := ∃ j : Fin n, i ≤ j ∧ (s.file j).flags = .done

instance (s : State n) (i : Nat) : Decidable (Pending s i) := inferInstanceAs (Decidable (∃ _, _))

/-- How far main is from where it waits. A for loop that joins nobody would count as much
as the way back to it. -/
def State.position (s : State n) : Nat :=
  match s.main with
  | .loop => n + 4
  | .create => n + 3
  | .lock | .woken => n + 2
  | .test => n + 1
  | .scan i => (n - i) + if Pending s i then 0 else n + 5
  | .join i => n - (i + 1)
  | .waiting | .exited | .errQuit => 0

def State.work (reply : Fin n → Nat) (s : State n) : Nat :=
  (n + 6) * total weight (fun i => (reply i, s.file i)) + s.position

theorem total_weight (reply : Fin n → Nat) {i : Fin n} {f : File} (h : s'.file = Function.update s.file i f) :
    total weight (fun i => (reply i, s'.file i)) + weight (reply i, s.file i) =
      total weight (fun i => (reply i, s.file i)) + weight (reply i, f) := by
  have ht := total_exchange weight (f := fun i => (reply i, s.file i))
    (g := fun i => (reply i, s'.file i)) i
    (fun u hu => by simp [h, Function.update_of_ne hu])
  simpa [h] using ht

/-- A thread that goes on is worth more than all that main may have to do for it. -/
theorem work_lt_of_weight {i : Fin n} {f : File} (h : s'.file = Function.update s.file i f)
    (hw : weight (reply i, f) < weight (reply i, s.file i)) (hp : s'.position ≤ s.position + (n + 5)) :
    s'.work reply < s.work reply := by
  have ht := total_weight reply h
  have hle : total weight (fun i => (reply i, s'.file i)) + 1 ≤
      total weight (fun i => (reply i, s.file i)) := by omega
  have hmul := Nat.mul_le_mul_left (n + 6) hle
  rw [Nat.mul_add, Nat.mul_one] at hmul
  unfold State.work
  omega

theorem work_lt_of_position (h : s'.file = s.file) (hp : s'.position < s.position) :
    s'.work reply < s.work reply := by
  unfold State.work
  rw [h]
  omega

/-- Somebody has incremented ndone. -/
theorem Books.exists_reported (hb : Books maxnconn s) (h : s.ndone ≠ 0) :
    ∃ j, (s.file j).flags = .done ∧ (s.file j).pc = .returned := by
  obtain ⟨j, hj⟩ := exists_of_total_ne_zero (hb.ndone ▸ h)
  refine ⟨j, ?_⟩
  by_contra hno
  exact hj (if_neg hno)

theorem MainMove.work (hb : Books maxnconn s) (hm : MainMove maxnconn s s') :
    s'.work reply < s.work reply := by
  cases hm with
  | go hpc h =>
    refine work_lt_of_position rfl ?_
    simp [State.position, hpc]
  | exit hpc h =>
    refine work_lt_of_position rfl ?_
    simp [State.position, hpc]
  | create i hpc hconn hleft hi =>
    have habs := (hb.agrees i).absent_of_unused (flags_of_firstUnused hi)
    refine work_lt_of_weight (i := i) rfl (by simp [weight, habs]) ?_
    simp [State.position, State.setFile, hpc]
  | quit hpc hleft hi =>
    refine work_lt_of_position rfl ?_
    simp [State.position, hpc]
  | created hpc h =>
    refine work_lt_of_position rfl ?_
    simp [State.position, hpc]
  | lock hpc hfree =>
    refine work_lt_of_position rfl ?_
    rcases hpc with hpc | hpc <;> simp [State.position, hpc]
  | wait hpc h =>
    refine work_lt_of_position rfl ?_
    simp [State.position, hpc]
  | tested hpc h =>
    -- ndone says that there is somebody to join
    obtain ⟨j, hj, -⟩ := hb.exists_reported h
    have hpend : Pending { s with main := .scan 0 } 0 := ⟨j, Nat.zero_le _, hj⟩
    refine work_lt_of_position rfl ?_
    simp [State.position, hpc, hpend]
  | found i h hpc hf =>
    have hpend : Pending s i := ⟨⟨i, h⟩, Nat.le_refl i, hf⟩
    refine work_lt_of_position rfl ?_
    simp only [State.position, hpc, hpend, if_true]
    omega
  | skip i h hpc hf =>
    have hpend : Pending { s with main := .scan (i + 1) } (i + 1) ↔ Pending s i := by
      constructor
      · rintro ⟨j, hj, hd⟩
        exact ⟨j, by omega, hd⟩
      · rintro ⟨j, hj, hd⟩
        refine ⟨j, ?_, hd⟩
        by_contra hlt
        have hji : j = ⟨i, h⟩ := Fin.ext (by simp only; omega)
        exact hf (hji ▸ hd)
    refine work_lt_of_position rfl ?_
    simp only [State.position, hpc, hpend]
    omega
  | unlock i h hpc =>
    have hpend : ¬Pending s i := by
      rintro ⟨j, hj, -⟩
      omega
    refine work_lt_of_position rfl ?_
    simp only [State.position, hpc, hpend, if_false]
    omega
  | join i hpc hf =>
    have hfl : (s.file i).flags = .done := by
      have hmain := hb.main
      rw [MainHolds, hpc] at hmain
      exact hmain
    refine work_lt_of_weight (i := i) rfl (by simp [weight, hf, hfl]) ?_
    simp only [State.position, hpc]
    split <;> omega

/-- Threads do not take away what main looks for. -/
theorem pending_setFile {i : Fin n} {f : File} (hf : (s.file i).flags = .done → f.flags = .done)
    {k : Nat} (h : Pending s k) : Pending (s.setFile i f) k := by
  obtain ⟨j, hj, hd⟩ := h
  refine ⟨j, hj, ?_⟩
  by_cases hji : j = i
  · subst hji
    simpa [State.setFile] using hf hd
  · simpa [State.setFile, hji] using hd

theorem position_setFile {i : Fin n} {f : File} (hf : (s.file i).flags = .done → f.flags = .done) :
    (s.setFile i f).position ≤ s.position := by
  unfold State.position
  have hmain : (s.setFile i f).main = s.main := rfl
  rw [hmain]
  cases hpc : s.main with
  | scan k =>
    simp only
    by_cases hp : Pending s k
    · simp [hp, pending_setFile hf hp]
    · simp only [hp, if_false]
      split <;> omega
  | _ => exact Nat.le_refl _

theorem position_signalled (s : State n) :
    ({ s with ndone := s.ndone + 1, main := s.main.signalled, locked := false } : State n).position ≤
      s.position + (n + 2) := by
  unfold State.position
  cases hpc : s.main with
  | scan k => exact Nat.le_add_right _ _
  | waiting => simp [MainPc.signalled]
  | _ => exact Nat.le_add_right _ _

theorem ThreadMove.work (hb : Books maxnconn s) {i : Fin n} (hm : ThreadMove reply s i s') :
    s'.work reply < s.work reply := by
  have hag := hb.agrees i
  unfold File.Agrees at hag
  cases hm with
  | connect hpc =>
    rw [hpc] at hag
    refine work_lt_of_weight rfl (by simp [weight, hpc]) (Nat.le_add_right_of_le ?_)
    apply position_setFile
    simp [hag]
  | read left k hpc hk hle =>
    refine work_lt_of_weight rfl ?_ (Nat.le_add_right_of_le (position_setFile id))
    simp only [weight, hpc]
    omega
  | eof hpc =>
    refine work_lt_of_weight rfl (by simp [weight, hpc]) (Nat.le_add_right_of_le ?_)
    exact position_setFile fun _ => rfl
  | lock hpc hfree =>
    refine work_lt_of_weight rfl (by simp [weight, hpc]) (Nat.le_add_right_of_le ?_)
    have h := position_setFile (s := s) (i := i) (f := ⟨(s.file i).flags, .locked⟩) id
    exact h
  | report hpc =>
    rw [hpc] at hag
    refine work_lt_of_weight rfl (by simp [weight, hpc, hag]) ?_
    have h := position_setFile (s := s) (i := i) (f := ⟨(s.file i).flags, .returned⟩) id
    have hsig := position_signalled (s.setFile i ⟨(s.file i).flags, .returned⟩)
    exact hsig.trans (Nat.add_le_add h (by omega))

/-- Every step but a spurious wake-up is a step ahead. -/
theorem step_work (hb : Books maxnconn s) {l : Label n} (hs : step maxnconn reply s l = some s')
    (hl : l ≠ .spurious) : s'.work reply < s.work reply := by
  obtain ⟨-, ⟨-, hm⟩ | ⟨i, -, hm⟩ | ⟨he, -⟩⟩ := step_cases hs
  · exact hm.work hb
  · exact hm.work hb
  · exact absurd he hl

end Work

section Single

/-- main is in its for loop, with ndone_mutex locked. -/
def MainPc.scanning : MainPc n → Bool
  | .scan _ | .join _ => true
  | _ => false

theorem active_nonneg (f : File) : 0 ≤ f.active := by
  unfold File.active
  split <;> decide

/-- Two threads are two. -/
theorem eq_of_active (hone : total File.active s.file ≤ 1) {i j : Fin n} (hi : (s.file i).active = 1)
    (hj : (s.file j).active = 1) : i = j := by
  by_contra hne
  have hsum : ∑ k ∈ {i, j}, (s.file k).active ≤ total File.active s.file :=
    Finset.sum_le_univ_sum_of_nonneg fun k => active_nonneg (s.file k)
  rw [Finset.sum_pair hne, hi, hj] at hsum
  omega

/-- A thread that goes on is created, not joined and has not returned. -/
theorem ThreadMove.active (hb : Books maxnconn s) {i : Fin n} (hm : ThreadMove reply s i s') :
    (s.file i).active = 1 ∧ (s.file i).pc ≠ .returned := by
  have hag := hb.agrees i
  unfold File.Agrees at hag
  cases hm with
  | connect hpc | read left k hpc hk hle | eof hpc | lock hpc hfree | report hpc =>
    rw [hpc] at hag
    simp [File.active, hag, hpc]

theorem ThreadMove.scanning {i : Fin n} (hm : ThreadMove reply s i s') :
    s'.main.scanning = s.main.scanning := by
  cases hm with
  | report hpc =>
    cases s.main with
    | _ => simp [MainPc.signalled, MainPc.scanning]
  | _ => rfl

/-- In its for loop main finds a thread that has returned, and there is no other one. -/
def Single (s : State n) : Prop :=
  s.main.scanning = true → ∀ i, (s.file i).active = 1 → (s.file i).pc = .returned

theorem Single.step (hb : Books maxnconn s) (hone : total File.active s.file ≤ 1) (h : Single s)
    {l : Label n} (hs : Threads.step maxnconn reply s l = some s') : Single s' := by
  obtain ⟨-, ⟨-, hm⟩ | ⟨i, -, hm⟩ | ⟨-, hpc, rfl⟩⟩ := step_cases hs
  · cases hm with
    | tested hpc hd =>
      obtain ⟨j, hfl, hret⟩ := hb.exists_reported hd
      have hj : (s.file j).active = 1 := by simp [File.active, hfl]
      intro _ i hi
      exact eq_of_active hone hj hi ▸ hret
    | found i hi hpc hf => exact fun _ => h (by rw [hpc]; rfl)
    | skip i hi hpc hf => exact fun _ => h (by rw [hpc]; rfl)
    | join i hpc hf =>
      intro _ k hk
      by_cases hki : k = i
      · subst hki
        simp [State.setFile, File.active] at hk
      · simp only [State.setFile, Function.update_of_ne hki] at hk ⊢
        exact h (by rw [hpc]; rfl) k hk
    | create i hpc hconn hleft hi =>
      intro hscan
      have hc : s.main.scanning = true := hscan
      rw [hpc] at hc
      cases hc
    | _ => exact fun hscan => absurd hscan (by simp [MainPc.scanning])
  · obtain ⟨hact, hret⟩ := hm.active hb
    have hno : s.main.scanning = false := by
      cases hsc : s.main.scanning with
      | false => rfl
      | true => exact absurd (h hsc i hact) hret
    intro hscan
    rw [hm.scanning, hno] at hscan
    cases hscan
  · exact fun hscan => absurd hscan (by simp [MainPc.scanning])

theorem single_of_reachable (hone : ∀ s, (web maxnconn reply).Reachable s → total File.active s.file ≤ 1)
    (hr : (web maxnconn reply).Reachable s) : Single s := by
  obtain ⟨tr, hrun⟩ := hr
  refine (web maxnconn reply).run_induction (P := fun _ s => Single s) (fun hscan => ?_) ?_ hrun
  · cases hscan
  · intro tr s l s' hu h hs
    exact h.step (books_of_reachable ⟨tr, hu⟩) (hone s ⟨tr, hu⟩) hs

end Single

section Progress

/-- If ndone_mutex is locked and not by main, a thread can go on to unlock it. -/
theorem Books.exists_holder (hb : Books maxnconn s) (hl : s.locked = true) (hm : s.main.holding = 0) :
    ∃ i, (s.file i).pc = .locked := by
  by_contra hno
  have hmutex := hb.mutex
  have hzero : total File.holding s.file = 0 := by
    apply Finset.sum_eq_zero
    intro i _
    exact if_neg fun hi => hno ⟨i, hi⟩
  rw [hzero, hm, hl] at hmutex
  cases hmutex

theorem step_connect {i : Fin n} (h : (s.file i).pc = .connect) (hover : s.main.over = false) :
    step maxnconn reply s (.thread i) = some (s.setFile i ⟨.reading, .read (reply i)⟩) := by
  simp [step, hover, threadStep, h]

theorem step_read {i : Fin n} {left : Nat} (h : (s.file i).pc = .read (left + 1))
    (hover : s.main.over = false) :
    step maxnconn reply s (.read i 1) = some (s.setFile i ⟨(s.file i).flags, .read left⟩) := by
  have hmax : 1 ≤ Echo.MAXLINE := by decide
  simp [step, hover, readStep, h, hmax]

theorem step_eof {i : Fin n} (h : (s.file i).pc = .read 0) (hover : s.main.over = false) :
    step maxnconn reply s (.thread i) = some (s.setFile i ⟨.done, .lock⟩) := by
  simp [step, hover, threadStep, h]

theorem step_lock {i : Fin n} (h : (s.file i).pc = .lock) (hover : s.main.over = false)
    (hl : s.locked = false) :
    step maxnconn reply s (.thread i) =
      some { s.setFile i ⟨(s.file i).flags, .locked⟩ with locked := true } := by
  simp [step, hover, threadStep, h, hl]

theorem step_report {i : Fin n} (h : (s.file i).pc = .locked) (hover : s.main.over = false) :
    step maxnconn reply s (.thread i) =
      some { s.setFile i ⟨(s.file i).flags, .returned⟩ with
        ndone := s.ndone + 1, main := s.main.signalled, locked := false } := by
  simp [step, hover, threadStep, h]

theorem step_main {u : State n} (h : mainStep maxnconn s = some u) (hover : s.main.over = false) :
    step maxnconn reply s .main = some u := by
  simp [step, hover, h]

/-- A thread that is created and has not returned can go on, or another one that has locked
ndone_mutex can. -/
theorem exists_thread_step (hb : Books maxnconn s) (hover : s.main.over = false)
    (hm : s.main.holding = 0) {i : Fin n} (hact : (s.file i).active = 1)
    (hret : (s.file i).pc ≠ .returned) :
    ∃ l u, step maxnconn reply s l = some u ∧ l ≠ .spurious := by
  have hag := hb.agrees i
  unfold File.Agrees at hag
  cases hpc : (s.file i).pc with
  | absent =>
    rw [hpc] at hag
    simp [File.active, hag] at hact
  | connect => exact ⟨.thread i, _, step_connect hpc hover, by simp⟩
  | read left =>
    cases left with
    | zero => exact ⟨.thread i, _, step_eof hpc hover, by simp⟩
    | succ left => exact ⟨.read i 1, _, step_read hpc hover, by simp⟩
  | lock =>
    cases hl : s.locked with
    | false => exact ⟨.thread i, _, step_lock hpc hover hl, by simp⟩
    | true =>
      obtain ⟨j, hj⟩ := hb.exists_holder hl hm
      exact ⟨.thread j, _, step_report hj hover, by simp⟩
  | locked => exact ⟨.thread i, _, step_report hpc hover, by simp⟩
  | returned => exact absurd hpc hret

/-- main is kept from locking ndone_mutex only by a thread that can unlock it. -/
theorem exists_lock_step (hb : Books maxnconn s) (hpc : s.main = .lock ∨ s.main = .woken) :
    ∃ l u, step maxnconn reply s l = some u ∧ l ≠ .spurious := by
  have hover : s.main.over = false := by rcases hpc with hpc | hpc <;> rw [hpc] <;> rfl
  have hm : s.main.holding = 0 := by rcases hpc with hpc | hpc <;> rw [hpc] <;> rfl
  cases hl : s.locked with
  | true =>
    obtain ⟨j, hj⟩ := hb.exists_holder hl hm
    exact ⟨.thread j, _, step_report hj hover, by simp⟩
  | false =>
    refine ⟨.main, { s with locked := true, main := .test }, step_main ?_ hover, by simp⟩
    rcases hpc with hpc | hpc <;> simp [mainStep, hpc, hl]

/-- Where main waits it has a thread to wait for. -/
theorem Saturated.exists_active (hb : Books maxnconn s) (h : Saturated maxnconn s)
    (hmax : n = 0 ∨ 1 ≤ maxnconn) : ∃ i, (s.file i).active = 1 := by
  by_contra hno
  have hnone : n = 0 → total File.unused s.file = 0 := by
    rintro rfl
    rfl
  have hzero : total File.active s.file = 0 := by
    apply Finset.sum_eq_zero
    intro i _
    have hi : (s.file i).active ≠ 1 := fun he => hno ⟨i, he⟩
    cases hfl : (s.file i).flags with
    | _ => simp_all [File.active]
  have hread := hb.nlefttoread
  rw [total_unread, hzero] at hread
  have htoconn := hb.nlefttoconn
  obtain ⟨hpos, hsat⟩ := h
  have hconn := hb.nconn
  omega

/-- A thread that has returned and is not joined is counted in ndone. -/
theorem Books.ndone_ne_zero (hb : Books maxnconn s) {i : Fin n} (hact : (s.file i).active = 1)
    (hret : (s.file i).pc = .returned) : s.ndone ≠ 0 := by
  have hnn (f : File) : 0 ≤ f.reported := by
    unfold File.reported
    split <;> decide
  have hfl : (s.file i).flags = .done := by
    have hag := hb.agrees i
    rw [File.Agrees, hret] at hag
    refine hag.resolve_right fun hj => ?_
    simp [File.active, hj] at hact
  have hle := single_le_total hnn s.file i
  rw [File.reported, if_pos ⟨hfl, hret⟩, ← hb.ndone] at hle
  omega

theorem exists_main_step (hover : s.main.over = false) (h : (mainStep maxnconn s).isSome = true) :
    ∃ l u, step maxnconn reply s l = some u ∧ l ≠ .spurious := by
  obtain ⟨u, hu⟩ := Option.isSome_iff_exists.mp h
  exact ⟨.main, u, step_main hu hover, by simp⟩

theorem exists_step (hb : Books maxnconn s) (hsingle : Single s) (hmax : n = 0 ∨ 1 ≤ maxnconn)
    (hne : s.main ≠ .exited) : ∃ l u, step maxnconn reply s l = some u ∧ l ≠ .spurious := by
  have hmain := hb.main
  unfold MainHolds at hmain
  cases hpc : s.main with
  | loop => exact exists_main_step (by rw [hpc]; rfl) (by simp [mainStep, hpc])
  | create =>
    refine exists_main_step (by rw [hpc]; rfl) ?_
    simp only [mainStep, hpc]
    split
    · split <;> rfl
    · rfl
  | lock => exact exists_lock_step hb (.inl hpc)
  | woken => exact exists_lock_step hb (.inr hpc)
  | test =>
    refine exists_main_step (by rw [hpc]; rfl) ?_
    simp only [mainStep, hpc]
    split <;> rfl
  | waiting =>
    rw [hpc] at hmain
    obtain ⟨i, hi⟩ := hmain.1.exists_active hb hmax
    refine exists_thread_step hb (by rw [hpc]; rfl) (by rw [hpc]; rfl) hi fun hret => ?_
    exact hb.ndone_ne_zero hi hret hmain.2
  | scan i =>
    refine exists_main_step (by rw [hpc]; rfl) ?_
    simp only [mainStep, hpc]
    split
    · split <;> rfl
    · rfl
  | join i =>
    rw [hpc] at hmain
    have hret := hsingle (by rw [hpc]; rfl) i (by simp [File.active, hmain])
    exact exists_main_step (by rw [hpc]; rfl) (by simp [mainStep, hpc, hret])
  | exited => exact absurd hpc hne
  | errQuit =>
    rw [hpc] at hmain
    exact hmain.elim

theorem exists_exit (hone : ∀ s, (web maxnconn reply).Reachable s → total File.active s.file ≤ 1)
    (hmax : n = 0 ∨ 1 ≤ maxnconn) (hr : (web maxnconn reply).Reachable s) :
    ∃ tr s', (web maxnconn reply).run s tr = some s' ∧ s'.main = .exited := by
  have hnext (u : State n) (hu : (web maxnconn reply).Reachable u) (hne : u.main ≠ .exited) :
      ∃ l v, (web maxnconn reply).step u l = some v ∧ (web maxnconn reply).Reachable v ∧
        v.work reply < u.work reply := by
    have hb := books_of_reachable hu
    obtain ⟨l, v, hs, hl⟩ : ∃ l v, step maxnconn reply u l = some v ∧ l ≠ .spurious :=
      exists_step hb (single_of_reachable hone hu) hmax hne
    exact ⟨l, v, hs, hu.next hs, step_work hb hs hl⟩
  obtain ⟨tr, s', hrun, -, hex⟩ := Machine.exists_run_of_decreasing
    (G := fun s : State n => s.main = .exited) (State.work reply) hnext hr
  exact ⟨tr, s', hrun, hex⟩

end Progress

end LinuxPractice.Web.Threads
