import LinuxPractice.Web.ThreadsProgress

namespace LinuxPractice.Web.Threads

variable {n : Nat} {maxnconn : Int} {reply : Fin n → Nat} {s s' : State n}

theorem Books.not_holding (hb : Books maxnconn s) (h : s.main.holding = 1) (i : Fin n) :
    (s.file i).pc ≠ .locked := by
  intro hi
  have hzero := (hb.locked h).2
  have hle := single_le_total holding_nonneg s.file i
  rw [File.holding, if_pos hi] at hle
  omega

/-- main has locked ndone_mutex and waits for a thread that is about to lock it. -/
structure Deadlocked (s : State n) : Prop where
  locked : s.locked = true
  join : ∃ i, s.main = .join i ∧ (s.file i).pc = .lock

/-- Nobody else unlocks it. -/
theorem Deadlocked.step (h : Deadlocked s) (hb : Books maxnconn s) {l : Label n}
    (hs : Threads.step maxnconn reply s l = some s') : Deadlocked s' := by
  obtain ⟨i, hpc, hi⟩ := h.join
  have hother {j : Fin n} {f : File} (hj : (s.file j).pc ≠ .lock) :
      Deadlocked (s.setFile j f) := by
    have hij : i ≠ j := fun he => hj (he ▸ hi)
    exact ⟨h.locked, i, hpc, by simpa [State.setFile, hij] using hi⟩
  obtain ⟨-, ⟨rfl, -⟩ | ⟨j, -, hm⟩ | ⟨-, hw, -⟩⟩ := step_cases hs
  · simp [Threads.step, mainStep, hpc, hi, MainPc.over] at hs
  · cases hm with
    | connect hj => exact hother (by simp [hj])
    | read left k hj hk hle => exact hother (by simp [hj])
    | eof hj => exact hother (by simp [hj])
    | lock hj hfree =>
      rw [h.locked] at hfree
      cases hfree
    | report hj => exact absurd hj (hb.not_holding (by rw [hpc]; rfl) j)
  · rw [hpc] at hw
    cases hw

theorem Deadlocked.run (h : Deadlocked s) (hr : (web maxnconn reply).Reachable s) {tr : List (Label n)}
    (hs : (web maxnconn reply).run s tr = some s') : Deadlocked s' :=
  (web maxnconn reply).run_induction (P := fun _ s => Deadlocked s) h
    (fun _ _ _ _ hu hd hstep => hd.step (books_of_reachable (hr.run hu)) hstep) hs

theorem web_step (s : State n) (l : Label n) :
    (web maxnconn reply).step s l = step maxnconn reply s l := rfl

@[simp] theorem setFile_setFile (s : State n) (i : Fin n) (f g : File) :
    (s.setFile i f).setFile i g = s.setFile i g := by
  simp [State.setFile]

@[simp] theorem setFile_main (s : State n) (i : Fin n) (f : File) : (s.setFile i f).main = s.main := rfl

@[simp] theorem setFile_self (s : State n) (i : Fin n) (f : File) : (s.setFile i f).file i = f := by
  simp [State.setFile]

/-- The server's reply is read to its end. -/
theorem run_reads (maxnconn : Int) (reply : Fin n → Nat) (hover : s.main.over = false) (i : Fin n) (left : Nat) :
    ∃ tr, (web maxnconn reply).run (s.setFile i ⟨.reading, .read left⟩) tr =
      some (s.setFile i ⟨.reading, .read 0⟩) := by
  induction left with
  | zero => exact ⟨[], rfl⟩
  | succ left ih =>
    obtain ⟨tr, htr⟩ := ih
    have hstep : (web maxnconn reply).step (s.setFile i ⟨.reading, .read (left + 1)⟩) (.read i 1) =
        some (s.setFile i ⟨.reading, .read left⟩) := by
      have hpc : ((s.setFile i ⟨.reading, .read (left + 1)⟩).file i).pc = .read (left + 1) := by simp
      rw [web_step, step_read hpc hover, setFile_setFile, setFile_self]
    refine ⟨.read i 1 :: tr, ?_⟩
    simp only [Machine.run, hstep]
    exact htr

/-- A thread gets as far as Pthread_mutex_lock whatever main does. -/
theorem run_to_lock (maxnconn : Int) (reply : Fin n → Nat) (hover : s.main.over = false) {i : Fin n} (hi : (s.file i).pc = .connect) :
    ∃ tr, (web maxnconn reply).run s tr = some (s.setFile i ⟨.done, .lock⟩) := by
  obtain ⟨tr, htr⟩ := run_reads maxnconn reply hover i (reply i)
  have hend : (web maxnconn reply).step (s.setFile i ⟨.reading, .read 0⟩) (.thread i) =
      some (s.setFile i ⟨.done, .lock⟩) := by
    have hpc : ((s.setFile i ⟨.reading, .read 0⟩).file i).pc = .read 0 := by simp
    rw [web_step, step_eof hpc hover, setFile_setFile]
  refine ⟨.thread i :: (tr ++ [.thread i]), ?_⟩
  have hconn : (web maxnconn reply).step s (.thread i) =
      some (s.setFile i ⟨.reading, .read (reply i)⟩) := by rw [web_step, step_connect hi hover]
  simp only [Machine.run, hconn]
  exact (web maxnconn reply).run_snoc_of htr hend

/-- main creates threads and none of them has run yet. -/
structure Creating (s : State n) : Prop where
  main : s.main = .create ∨ s.main = .lock
  locked : s.locked = false
  ndone : s.ndone = 0
  file : ∀ i, s.file i = ⟨.unused, .absent⟩ ∨ s.file i = ⟨.connecting, .connect⟩

theorem Creating.step (reply : Fin n → Nat) (h : Creating s) (hb : Books maxnconn s) (hne : s.main ≠ .lock) :
    ∃ u, Threads.step maxnconn reply s .main = some u ∧ Creating u := by
  have hpc := h.main.resolve_right hne
  have hover : s.main.over = false := by rw [hpc]; rfl
  by_cases hc : s.nconn < maxnconn ∧ 0 < s.nlefttoconn
  · cases hi : s.firstUnused with
    | none => exact absurd hi (firstUnused_isSome (hb.nlefttoconn ▸ hc.2))
    | some i =>
      have hstep : mainStep maxnconn s = some { s.setFile i ⟨.connecting, .connect⟩ with
          nconn := s.nconn + 1, nlefttoconn := s.nlefttoconn - 1 } := by
        simp only [mainStep, hpc, hc, and_self, if_true, hi]
      refine ⟨_, step_main hstep hover, .inl hpc, h.locked, h.ndone, fun j => ?_⟩
      by_cases hj : j = i
      · subst hj
        exact .inr (setFile_self _ _ _)
      · simpa [State.setFile, hj] using h.file j
  · have hstep : mainStep maxnconn s = some { s with main := .lock } := by
      simp only [mainStep, hpc, hc, if_false]
    exact ⟨_, step_main hstep hover, .inr rfl, h.locked, h.ndone, h.file⟩

/-- main has created its threads and none of them has run yet. -/
theorem exists_created (maxnconn : Int) (reply : Fin n → Nat) (hn : 0 < n) :
    ∃ u, (web maxnconn reply).Reachable u ∧ Creating u ∧ u.main = .lock := by
  have hstart : (web maxnconn reply).step (.start n) .main = some { State.start n with main := .create } := by
    have hne : n ≠ 0 := by omega
    simp [web, step, mainStep, State.start, MainPc.over, hne]
  have hnext (u : State n) (hu : (web maxnconn reply).Reachable u ∧ Creating u) (hne : u.main ≠ .lock) :
      ∃ l v, (web maxnconn reply).step u l = some v ∧ ((web maxnconn reply).Reachable v ∧ Creating v) ∧
        v.work reply < u.work reply := by
    have hb := books_of_reachable hu.1
    obtain ⟨v, hv, hc⟩ : ∃ v, (web maxnconn reply).step u .main = some v ∧ Creating v :=
      hu.2.step reply hb hne
    exact ⟨.main, v, hv, ⟨hu.1.next hv, hc⟩, step_work hb (l := .main) hv (by simp)⟩
  have hinit : Creating ({ State.start n with main := .create } : State n) :=
    ⟨.inl rfl, rfl, rfl, fun _ => .inl rfl⟩
  obtain ⟨tr, u, hrun, ⟨hr, hc⟩, hlock⟩ := Machine.exists_run_of_decreasing
    (G := fun s : State n => s.main = .lock) (State.work reply) hnext
    ⟨(Machine.Reachable.start _).next hstart, hinit⟩
  exact ⟨u, hr, hc, hlock⟩

/-- With two files and two connections there are threads for the first two files then. -/
theorem Creating.connecting (h : Creating s) (hr : (web maxnconn reply).Reachable s)
    (hlock : s.main = .lock) (hmax : 2 ≤ maxnconn) (hn : 2 ≤ n) {i : Fin n} (hi : (i : Nat) < 2) :
    s.file i = ⟨.connecting, .connect⟩ := by
  have hb := books_of_reachable hr
  refine (h.file i).resolve_left fun hun => ?_
  obtain ⟨tr, hrun⟩ := hr
  obtain ⟨m, -, hm⟩ := created_in_order hrun
  have hle : m ≤ 1 := by
    have hmi := (hm i).mp (by rw [hun])
    omega
  have hone : total File.active s.file ≤ 1 := by
    have hsum : total File.active s.file = (s.file ⟨0, by omega⟩).active := by
      refine Finset.sum_eq_single_of_mem _ (Finset.mem_univ _) fun j _ hj => ?_
      have hval : (j : Nat) ≠ 0 := fun he => hj (Fin.ext he)
      have hunused := (hm j).mpr (by omega)
      simp [File.active, hunused]
    rw [hsum]
    unfold File.active
    split <;> decide
  have hleft : 1 ≤ total File.unused s.file := by
    have hnn (f : File) : 0 ≤ f.unused := by
      unfold File.unused
      split <;> decide
    have hge := single_le_total hnn s.file i
    simpa [File.unused, hun] using hge
  have hmain := hb.main
  rw [MainHolds, hlock] at hmain
  obtain ⟨-, hsat⟩ := hmain
  rw [hb.nconn, hb.nlefttoconn] at hsat
  omega

/-- A thread that finds ndone_mutex unlocked can run to its end. -/
theorem exists_reported_run (maxnconn : Int) (reply : Fin n → Nat) (hpc : s.main = .lock)
    (hl : s.locked = false) {i : Fin n} (hi : (s.file i).pc = .connect) :
    ∃ tr, (web maxnconn reply).run s tr =
      some { s.setFile i ⟨.done, .returned⟩ with ndone := s.ndone + 1 } := by
  have hover : s.main.over = false := by rw [hpc]; rfl
  obtain ⟨tr, htr⟩ := run_to_lock maxnconn reply hover hi
  have hlock : (web maxnconn reply).step (s.setFile i ⟨.done, .lock⟩) (.thread i) =
      some { s.setFile i ⟨.done, .locked⟩ with locked := true } := by
    have hi' : ((s.setFile i ⟨.done, .lock⟩).file i).pc = .lock := by rw [setFile_self]
    rw [web_step, step_lock hi' hover hl, setFile_setFile, setFile_self]
  have hreport : (web maxnconn reply).step { s.setFile i ⟨.done, .locked⟩ with locked := true } (.thread i) =
      some { s.setFile i ⟨.done, .returned⟩ with ndone := s.ndone + 1 } := by
    simp [web, step, threadStep, State.setFile, hpc, hl, MainPc.over, MainPc.signalled]
  exact ⟨_, (web maxnconn reply).run_snoc_of ((web maxnconn reply).run_snoc_of htr hlock) hreport⟩

/-- The for loop joins the thread of the first file and waits for that of the second. -/
theorem exists_deadlocked_run (maxnconn : Int) (reply : Fin n → Nat) (hn : 2 ≤ n)
    (hpc : s.main = .scan 0) (hl : s.locked = true) (h₀ : s.file ⟨0, by omega⟩ = ⟨.done, .returned⟩)
    (h₁ : s.file ⟨1, by omega⟩ = ⟨.done, .lock⟩) :
    ∃ tr u, (web maxnconn reply).run s tr = some u ∧ Deadlocked u := by
  have hpos : 0 < n := by omega
  have hone : 1 < n := by omega
  have hfound : (web maxnconn reply).step s .main = some { s with main := .join ⟨0, hpos⟩ } := by
    simp [web, step, mainStep, hpc, MainPc.over, hpos, h₀]
  have hjoin : (web maxnconn reply).step { s with main := .join ⟨0, hpos⟩ } .main =
      some { s.setFile ⟨0, hpos⟩ ⟨.joined, .returned⟩ with
        ndone := s.ndone - 1, nconn := s.nconn - 1, nlefttoread := s.nlefttoread - 1, main := .scan 1 } := by
    simp [web, step, mainStep, MainPc.over, h₀, State.setFile]
  obtain ⟨u, hu⟩ : ∃ u, u = ({ s.setFile ⟨0, hpos⟩ ⟨.joined, .returned⟩ with
    ndone := s.ndone - 1, nconn := s.nconn - 1, nlefttoread := s.nlefttoread - 1, main := .scan 1 } :
    State n) := ⟨_, rfl⟩
  have hu₁ : u.file ⟨1, hone⟩ = ⟨.done, .lock⟩ := by simp [hu, State.setFile, h₁]
  have hfound' : (web maxnconn reply).step u .main = some { u with main := .join ⟨1, hone⟩ } := by
    have hscan : u.main = .scan 1 := by rw [hu]
    simp [web, step, mainStep, hscan, MainPc.over, hone, hu₁]
  refine ⟨[.main, .main, .main], { u with main := .join ⟨1, hone⟩ }, ?_, ?_⟩
  · rw [← hu] at hjoin
    simp only [Machine.run, hfound, hjoin, hfound', Option.bind_some]
  · exact ⟨by rw [hu]; exact hl, ⟨1, hone⟩, rfl, by rw [hu₁]⟩

theorem exists_deadlock (reply : Fin n → Nat) (hmax : 2 ≤ maxnconn) (hn : 2 ≤ n) :
    ∃ u, (web maxnconn reply).Reachable u ∧ Deadlocked u := by
  obtain ⟨u, hr, hc, hlock⟩ := exists_created maxnconn reply (by omega)
  have h₀ := hc.connecting hr hlock hmax hn (i := ⟨0, by omega⟩) (by simp)
  have h₁ := hc.connecting hr hlock hmax hn (i := ⟨1, by omega⟩) (by simp)
  -- the first thread increments ndone before main tests it
  obtain ⟨tr, htr⟩ := exists_reported_run maxnconn reply hlock hc.locked (i := ⟨0, by omega⟩) (by rw [h₀])
  obtain ⟨v, hv⟩ : ∃ v, v = ({ u.setFile ⟨0, by omega⟩ ⟨.done, .returned⟩ with
    ndone := u.ndone + 1, locked := true, main := .scan 0 } : State n) := ⟨_, rfl⟩
  have hmain : (web maxnconn reply).run { u.setFile ⟨0, by omega⟩ ⟨.done, .returned⟩ with
      ndone := u.ndone + 1 } [.main, .main] = some v := by
    simp [Machine.run, web, step, mainStep, State.setFile, hlock, hc.locked, hc.ndone, MainPc.over, hv]
  -- the second one has stored F_DONE when main gets to it
  have hv₁ : v.file ⟨1, by omega⟩ = ⟨.connecting, .connect⟩ := by simp [hv, State.setFile, h₁]
  obtain ⟨tr', htr'⟩ := run_to_lock maxnconn reply (s := v) (by rw [hv]; rfl)
    (i := ⟨1, by omega⟩) (by rw [hv₁])
  obtain ⟨tr'', w, hw, hd⟩ := exists_deadlocked_run maxnconn reply hn
    (s := v.setFile ⟨1, by omega⟩ ⟨.done, .lock⟩) (by rw [hv]; rfl) (by rw [hv]; rfl)
    (by simp [hv, State.setFile]) (setFile_self _ _ _)
  exact ⟨w, (((hr.run htr).run hmain).run htr').run hw, hd⟩

/-- A main that may not have a connection asks for no file. -/
theorem unused_of_no_connection (hmax : maxnconn ≤ 0) (hr : (web maxnconn reply).Reachable s) (i : Fin n) :
    (s.file i).flags = .unused := by
  obtain ⟨tr, hrun⟩ := hr
  refine (web maxnconn reply).run_induction (P := fun _ s => ∀ i, (s.file i).flags = .unused)
    (fun _ => rfl) ?_ hrun i
  intro tr s l s' hu ih hs j
  have hb := books_of_reachable ⟨tr, hu⟩
  rcases unused_of_step hb hs with ⟨-, hj⟩ | ⟨k, hk, -⟩
  · exact (hj j).mpr (ih j)
  · have hconn : ¬s.nconn < maxnconn := by
      have hnn := total_nonneg active_nonneg s.file
      rw [hb.nconn]
      omega
    cases l with
    | main => simp [created, hconn] at hk
    | _ => cases hk

/-- At most one connection at a time, because main may not have more or has no more files. -/
theorem active_le_one (h : maxnconn ≤ 1 ∨ n ≤ 1) (hr : (web maxnconn reply).Reachable s) :
    total File.active s.file ≤ 1 := by
  rcases h with h | h
  · have hb := books_of_reachable hr
    have hw := hb.within
    rw [hb.nconn] at hw
    omega
  · have hle : total File.active s.file ≤ ∑ _i : Fin n, (1 : Int) := by
      apply Finset.sum_le_sum
      intro i _
      unfold File.active
      split <;> decide
    simp only [Finset.sum_const, Finset.card_univ, Fintype.card_fin, nsmul_eq_mul, mul_one] at hle
    omega

/-- However the threads run, main can still join them all and exit, exactly when they are at
most one at a time: do_get_read stores F_DONE before it has incremented ndone, so that of two
threads main can join the second one while it holds the mutex that this one waits for. -/
theorem web_threads_complete_iff (maxnconn : Int) (reply : Fin n → Nat) :
    (∀ s, (web maxnconn reply).Reachable s →
      ∃ tr s', (web maxnconn reply).run s tr = some s' ∧ s'.main = .exited) ↔
    n = 0 ∨ maxnconn = 1 ∨ (n = 1 ∧ 1 ≤ maxnconn) := by
  constructor
  · intro h
    by_contra hno
    by_cases hmax : 1 ≤ maxnconn
    · obtain ⟨s, hr, hd⟩ := exists_deadlock reply (show 2 ≤ maxnconn by omega) (by omega)
      obtain ⟨tr, s', hrun, hex⟩ := h s hr
      obtain ⟨i, hpc, -⟩ := (hd.run hr hrun).join
      rw [hex] at hpc
      cases hpc
    · obtain ⟨tr, s', hrun, hex⟩ := h _ (Machine.Reachable.start _)
      have hr : (web maxnconn reply).Reachable s' := ⟨tr, hrun⟩
      have hn : 0 < n := by omega
      have hunused := unused_of_no_connection (by omega) hr ⟨0, hn⟩
      rw [(books_of_reachable hr).all_joined hex] at hunused
      cases hunused
  · intro h s hr
    exact exists_exit (fun u hu => active_le_one (by omega) hu) (by omega) hr

end LinuxPractice.Web.Threads
