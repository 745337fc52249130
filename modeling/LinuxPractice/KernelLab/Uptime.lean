import LinuxPractice.KernelLab.Messages

set_option linter.unusedSectionVars false

namespace LinuxPractice.KernelLab

open Echo

def MSEC_PER_SEC : UInt64 := 1000

def HZ : UInt64 := 1000

/-- unsigned int jiffies_to_msecs(const unsigned long j), for an HZ that divides
MSEC_PER_SEC. -/
def jiffiesToMsecs (j : UInt64) : UInt32 := (MSEC_PER_SEC / HZ * j).toUInt32

section

variable {τ : Type*} [DecidableEq τ]

/-- The tasks of a kernel with this conversion. -/
def kernelHz (task : τ → Task) : Kernel τ := ⟨task, jiffiesToMsecs⟩

def Label.isTick : Label τ → Bool
  | .tick => true
  | _ => false

/-- How many ticks pass in a schedule. -/
def ticks (tr : List (Label τ)) : Nat := tr.countP Label.isTick

theorem ticks_append (tr tr' : List (Label τ)) : ticks (tr ++ tr') = ticks tr + ticks tr' :=
  List.countP_append

/-- A read of task t is at the line that computes uptime_ms, and computes ms. -/
def Samples (k : Kernel τ) (s : State τ) (t : τ) (ms : UInt64) : Prop :=
  ∃ n s', s.pc t = .sampleUptime n ∧ step k s (.advance t) = some s' ∧
    s'.pc t = .sampleTime n ms

theorem Samples.eq {k : Kernel τ} {s : State τ} {t : τ} {ms : UInt64} (h : Samples k s t ms) :
    ms = uptimeMs k s := by
  obtain ⟨n, s', hp, hs, hms⟩ := h
  simp only [step, advance, hp, Option.some.injEq] at hs
  have hpc : s'.pc t = .sampleTime n (uptimeMs k s) := by
    rw [← hs]
    exact Function.update_self _ _ _
  exact (Pc.sampleTime.inj (hms.symm.trans hpc)).2

/-- jiffies goes on from its value at load, modulo the width of unsigned long. -/
structure Clocked (p : Load) (n : Nat) (s : State τ) : Prop where
  load : s.loadJiffies = p.jiffies
  now : s.jiffies = UInt64.ofNat n + p.jiffies

theorem Clocked.step {k : Kernel τ} {p : Load} {n : Nat} {s s' : State τ} {l : Label τ}
    (h : Clocked p n s) (hm : Move k s l s') : Clocked p (n + ticks [l]) s' := by
  cases hm with
  | ticked =>
    refine ⟨h.load, ?_⟩
    calc s.jiffies + 1 = UInt64.ofNat n + p.jiffies + 1 := by rw [h.now]
      _ = UInt64.ofNat (n + 1) + p.jiffies := by
        rw [UInt64.ofNat_add, UInt64.add_assoc, UInt64.add_comm p.jiffies, ← UInt64.add_assoc]
        rfl
  | _ => exact ⟨h.load, h.now⟩

theorem clocked_of_run {k : Kernel τ} {p : Load} {tr : List (Label τ)} {s : State τ}
    (hr : (machine k p).run (kernelLabInit p) tr = some s) : Clocked p (ticks tr) s := by
  refine (machine k p).run_induction (P := fun tr s => Clocked p (ticks tr) s) ⟨rfl, ?_⟩ ?_ hr
  · exact (UInt64.zero_add p.jiffies).symm
  · intro tr s l s' _ ih hs
    rw [ticks_append]
    exact ih.step (move_of_step hs)

/-- The elapsed ticks come out right whatever jiffies was at load, but jiffies_to_msecs
keeps only 32 bits of them. -/
theorem toNat_uptimeMs {task : τ → Task} {p : Load} {n : Nat} {s : State τ} (h : Clocked p n s)
    (hn : n < 2 ^ 64) : (uptimeMs (kernelHz task) s).toNat = n % 2 ^ 32 := by
  have hdiff : s.jiffies - s.loadJiffies = UInt64.ofNat n := by
    rw [h.now, h.load, UInt64.add_sub_cancel]
  have hhz : MSEC_PER_SEC / HZ = 1 := by decide
  simp only [uptimeMs, kernelHz, jiffiesToMsecs, hdiff, hhz, UInt64.one_mul]
  rw [UInt32.toNat_toUInt64, UInt64.toNat_toUInt32, UInt64.toNat_ofNat', Nat.mod_eq_of_lt hn]

theorem same_difference_iff (m n : Nat) :
    (m % 2 ^ 32 ≤ (m + n) % 2 ^ 32 ∧ (m + n) % 2 ^ 32 - m % 2 ^ 32 = n) ↔
      m / 2 ^ 32 = (m + n) / 2 ^ 32 := by
  omega

/-- Of two reads in one run the later one reports the uptime of the earlier one and the ticks
in between exactly when the ticks since load have not passed a multiple of 2^32 in between. -/
theorem uptime_advances_iff (task : τ → Task) (p : Load) {tr tr' : List (Label τ)}
    {s s' : State τ} {t t' : τ} {ms ms' : UInt64}
    (hr : (machine (kernelHz task) p).run (kernelLabInit p) tr = some s)
    (hms : Samples (kernelHz task) s t ms)
    (hr' : (machine (kernelHz task) p).run s tr' = some s')
    (hms' : Samples (kernelHz task) s' t' ms') (hlater : 0 < ticks tr')
    (helapsed : ticks (tr ++ tr') < 2 ^ 63) :
    (ms.toNat ≤ ms'.toNat ∧ ms'.toNat - ms.toNat = ticks tr') ↔
      ticks tr / 2 ^ 32 = ticks (tr ++ tr') / 2 ^ 32 := by
  have hrun : (machine (kernelHz task) p).run (kernelLabInit p) (tr ++ tr') = some s' :=
    Machine.run_append_of _ hr hr'
  have hfirst := clocked_of_run hr
  have hsecond := clocked_of_run hrun
  rw [ticks_append] at helapsed hsecond ⊢
  rw [hms.eq, hms'.eq, toNat_uptimeMs hfirst (by omega), toNat_uptimeMs hsecond (by omega)]
  exact same_difference_iff _ _

/-- n ticks later. -/
def State.later (s : State τ) (n : Nat) : State τ :=
  { s with jiffies := s.jiffies + UInt64.ofNat n }

theorem run_ticks (k : Kernel τ) (p : Load) (s : State τ) (n : Nat) :
    (machine k p).run s (List.replicate n .tick) = some (s.later n) := by
  induction n generalizing s with
  | zero =>
    have hzero : s.jiffies + UInt64.ofNat 0 = s.jiffies := UInt64.add_zero _
    rw [State.later, hzero]
    rfl
  | succ n ih =>
    have hsum : s.jiffies + 1 + UInt64.ofNat n = s.jiffies + UInt64.ofNat (n + 1) := by
      rw [UInt64.ofNat_add, UInt64.add_assoc, UInt64.add_comm 1]
      rfl
    rw [List.replicate_succ]
    simp only [Machine.run, machine, step, Option.bind_some]
    refine (ih _).trans ?_
    rw [State.later, State.later, hsum]

end

/-- The counter is about to wrap when the module is loaded. -/
def lateLoad : Load := ⟨helloFrom, 1, 0xffffffffffffff00, 1700000000⟩

def catKernel : Kernel (Fin 1) := kernelHz fun _ => cat

/-- One task reads after n ticks and is at its sample. -/
def readAfter (n : Nat) : List (Label (Fin 1)) := List.replicate n .tick ++ [.read 0 1, .advance 0]

/-- It gets on with its call and reads again after m more ticks. -/
def readAgain (m : Nat) : List (Label (Fin 1)) := List.replicate 5 (.advance 0) ++ readAfter m

theorem ticks_readAfter (n : Nat) : ticks (readAfter n) = n := by
  have htick : ticks (List.replicate n (Label.tick : Label (Fin 1))) = n := by
    rw [ticks, List.countP_replicate]
    rfl
  rw [readAfter, ticks_append, htick]
  rfl

theorem ticks_readAgain (m : Nat) : ticks (readAgain m) = m := by
  have hnone : ticks (List.replicate 5 (Label.advance 0 : Label (Fin 1))) = 0 := rfl
  rw [readAgain, ticks_append, hnone, Nat.zero_add, ticks_readAfter]

/-- The task has called kernel_lab_read and taken the lock. -/
def atSample (s : State (Fin 1)) : State (Fin 1) :=
  { (s.goto 0 (.readLock 1)).goto 0 (.sampleUptime 1) with kernelLabLock := some 0 }

theorem samples_atSample (s : State (Fin 1)) :
    Samples catKernel (atSample s) 0 (uptimeMs catKernel (atSample s)) :=
  ⟨1, _, rfl, rfl, rfl⟩

theorem run_readAfter {s : State (Fin 1)} (hp : s.pc 0 = .idle) (hl : s.kernelLabLock = none)
    (n : Nat) : (machine catKernel lateLoad).run s (readAfter n) =
      some (atSample (s.later n)) := by
  rw [readAfter, Machine.run_append, run_ticks]
  simp [Machine.run, machine, step, advance, hp, hl, State.later, State.mutexLock, atSample,
    State.goto]

theorem run_readAgain (s : State (Fin 1)) (m : Nat) :
    ∃ u, (machine catKernel lateLoad).run (atSample s) (readAgain m) = some (atSample u) := by
  obtain ⟨v, hv, hp, hl⟩ : ∃ v, (machine catKernel lateLoad).run (atSample s)
      (List.replicate 5 (.advance 0)) = some v ∧ v.pc 0 = .idle ∧ v.kernelLabLock = none :=
    ⟨_, rfl, rfl, rfl⟩
  exact ⟨_, Machine.run_append_of _ hv (run_readAfter hp hl m)⟩

/-- Three ticks between two reads, with jiffies wrapping around on the way. -/
theorem uptime_advances_wrapping :
    ∃ s s' ms ms', (machine catKernel lateLoad).run (kernelLabInit lateLoad) (readAfter 255) =
        some s ∧ Samples catKernel s 0 ms ∧
      (machine catKernel lateLoad).run s (readAgain 3) = some s' ∧ Samples catKernel s' 0 ms' ∧
      ms.toNat ≤ ms'.toNat ∧ ms'.toNat - ms.toNat = 3 := by
  have hr := run_readAfter (s := kernelLabInit lateLoad) rfl rfl 255
  obtain ⟨u, hu⟩ := run_readAgain ((kernelLabInit lateLoad).later 255) 3
  have hms := samples_atSample ((kernelLabInit lateLoad).later 255)
  have hlast : ticks (readAgain 3) = 3 := ticks_readAgain 3
  have hall : ticks (readAfter 255 ++ readAgain 3) = 258 := by
    rw [ticks_append, ticks_readAfter, ticks_readAgain]
  have hiff := uptime_advances_iff _ lateLoad hr hms hu (samples_atSample u) (by omega) (by omega)
  rw [ticks_readAfter, hall, hlast] at hiff
  exact ⟨_, _, _, _, hr, hms, hu, samples_atSample u, hiff.mpr (by decide)⟩

/-- The last tick before the 2^32-th since load and the one after it: the uptime falls from
4294967295 to 0. -/
theorem uptime_falls :
    ¬∀ tr tr' s s' ms ms', (machine catKernel lateLoad).run (kernelLabInit lateLoad) tr = some s →
      Samples catKernel s 0 ms → (machine catKernel lateLoad).run s tr' = some s' →
      Samples catKernel s' 0 ms' → 0 < ticks tr' → ticks (tr ++ tr') < 2 ^ 63 →
      ms.toNat ≤ ms'.toNat ∧ ms'.toNat - ms.toNat = ticks tr' := by
  intro hall
  have hr := run_readAfter (s := kernelLabInit lateLoad) rfl rfl (2 ^ 32 - 1)
  obtain ⟨u, hu⟩ := run_readAgain ((kernelLabInit lateLoad).later (2 ^ 32 - 1)) 1
  have hrun : (machine catKernel lateLoad).run (kernelLabInit lateLoad)
      (readAfter (2 ^ 32 - 1) ++ readAgain 1) = some (atSample u) :=
    Machine.run_append_of _ hr hu
  have hfirst := clocked_of_run hr
  have hsecond := clocked_of_run hrun
  rw [ticks_append, ticks_readAgain] at hsecond
  rw [ticks_readAfter] at hfirst hsecond
  have hle := (hall _ _ _ _ _ _ hr (samples_atSample _) hu (samples_atSample u)
    (by rw [ticks_readAgain]; decide)
    (by rw [ticks_append, ticks_readAfter, ticks_readAgain]; decide)).1
  rw [catKernel, toNat_uptimeMs hfirst (by decide), toNat_uptimeMs hsecond (by decide)] at hle
  exact absurd hle (by decide)

end LinuxPractice.KernelLab
