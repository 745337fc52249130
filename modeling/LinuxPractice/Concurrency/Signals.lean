import LinuxPractice.Framework.Machine
import Mathlib.Data.Int.Notation

set_option linter.unusedSectionVars false

namespace LinuxPractice.Signals

/-- Where waits() stands: before its unique_lock, at the predicate of cv.wait, about to release
cv_m and block, blocked un-notified on cv, woken and on its way back to cv_m, past cv.wait with
cv_m still locked, or returned. -/
inductive WaitsPc
  | lock
  | test
  | block
  | blocked
  | woken
  | passed
  | returned
  deriving DecidableEq, Repr

/-- Where signals() stands: before the first lock, inside it, at the first notify_all, before
the second lock, at i = 1, behind it with cv_m still locked, at the second notify_all, or
returned. -/
inductive SignalsPc
  | lock
  | locked
  | notifyAll
  | lockAgain
  | store
  | stored
  | notifyAllAgain
  | returned
  deriving DecidableEq, Repr

/-- cvM is the owner of cv_m: none is the signals() thread, some t a waits() thread. -/
structure State (τ : Type*) where
  i : Int32
  cvM : Option (Option τ)
  waits : τ → WaitsPc
  signals : SignalsPc

/-- A step of a waits() thread, a spurious wake-up of it, or a step of signals(). -/
inductive Label (τ : Type*)
  | waits (t : τ)
  | spurious (t : τ)
  | signals
  deriving DecidableEq

def WaitsPc.notified : WaitsPc → WaitsPc
  | .blocked => .woken
  | pc => pc

section

variable {τ : Type*} [DecidableEq τ]

def State.goto (s : State τ) (t : τ) (pc : WaitsPc) : State τ :=
  { s with waits := Function.update s.waits t pc }

def waitsStep (s : State τ) (t : τ) : Option (State τ) :=
  match s.waits t with
  | .lock | .woken =>
    if s.cvM = none then some { s.goto t .test with cvM := some (some t) } else none
  | .test => some (s.goto t (if s.i = 1 then .passed else .block))
  | .block => some { s.goto t .blocked with cvM := none }
  | .passed => some { s.goto t .returned with cvM := none }
  | .blocked | .returned => none

def signalsStep (s : State τ) : Option (State τ) :=
  match s.signals with
  | .lock => if s.cvM = none then some { s with cvM := some none, signals := .locked } else none
  | .locked => some { s with cvM := none, signals := .notifyAll }
  | .notifyAll => some { s with waits := fun t => (s.waits t).notified, signals := .lockAgain }
  | .lockAgain => if s.cvM = none then some { s with cvM := some none, signals := .store } else none
  | .store => some { s with i := 1, signals := .stored }
  | .stored => some { s with cvM := none, signals := .notifyAllAgain }
  | .notifyAllAgain =>
    some { s with waits := fun t => (s.waits t).notified, signals := .returned }
  | .returned => none

def step (s : State τ) : Label τ → Option (State τ)
  | .waits t => waitsStep s t
  | .spurious t => if s.waits t = .blocked then some (s.goto t .woken) else none
  | .signals => signalsStep s

/-- No thread has started yet. -/
def start : State τ where
  i := 0
  cvM := none
  waits _ := .lock
  signals := .lock

def machine (τ : Type*) [DecidableEq τ] : Machine (State τ) (Label τ) := ⟨start, step⟩

/-- Everything a waits() thread can do. -/
inductive WaitsMove (s : State τ) (t : τ) : State τ → Prop
  | take (hpc : s.waits t = .lock ∨ s.waits t = .woken) (hfree : s.cvM = none) :
      WaitsMove s t { s.goto t .test with cvM := some (some t) }
  | pass (hpc : s.waits t = .test) (hone : s.i = 1) : WaitsMove s t (s.goto t .passed)
  | fail (hpc : s.waits t = .test) (hne : s.i ≠ 1) : WaitsMove s t (s.goto t .block)
  | block (hpc : s.waits t = .block) : WaitsMove s t { s.goto t .blocked with cvM := none }
  | leave (hpc : s.waits t = .passed) : WaitsMove s t { s.goto t .returned with cvM := none }

theorem waitsMove_of_step {s s' : State τ} {t : τ} (hs : waitsStep s t = some s') :
    WaitsMove s t s' := by
  unfold waitsStep at hs
  cases hp : s.waits t with
  | lock =>
    simp only [hp, Option.ite_none_right_eq_some, Option.some.injEq] at hs
    exact hs.2 ▸ .take (.inl hp) hs.1
  | woken =>
    simp only [hp, Option.ite_none_right_eq_some, Option.some.injEq] at hs
    exact hs.2 ▸ .take (.inr hp) hs.1
  | test =>
    simp only [hp, Option.some.injEq] at hs
    subst hs
    split
    · rename_i hone
      exact .pass hp hone
    · rename_i hne
      exact .fail hp hne
  | block =>
    simp only [hp, Option.some.injEq] at hs
    exact hs ▸ .block hp
  | passed =>
    simp only [hp, Option.some.injEq] at hs
    exact hs ▸ .leave hp
  | blocked => simp [hp] at hs
  | returned => simp [hp] at hs

/-- Everything signals() can do: its two locks, unlocks and calls of notify_all, and the store. -/
inductive SignalsMove (s : State τ) : State τ → Prop
  | take (pc : SignalsPc) (hfree : s.cvM = none)
      (hpc : s.signals = .lock ∧ pc = .locked ∨ s.signals = .lockAgain ∧ pc = .store) :
      SignalsMove s { s with cvM := some none, signals := pc }
  | unlock (pc : SignalsPc)
      (hpc : s.signals = .locked ∧ pc = .notifyAll ∨ s.signals = .stored ∧ pc = .notifyAllAgain) :
      SignalsMove s { s with cvM := none, signals := pc }
  | notifyAll (pc : SignalsPc)
      (hpc : s.signals = .notifyAll ∧ pc = .lockAgain ∨
        s.signals = .notifyAllAgain ∧ pc = .returned) :
      SignalsMove s { s with waits := fun t => (s.waits t).notified, signals := pc }
  | store (hpc : s.signals = .store) : SignalsMove s { s with i := 1, signals := .stored }

theorem signalsMove_of_step {s s' : State τ} (hs : signalsStep s = some s') : SignalsMove s s' := by
  unfold signalsStep at hs
  cases hp : s.signals with
  | lock =>
    simp only [hp, Option.ite_none_right_eq_some, Option.some.injEq] at hs
    exact hs.2 ▸ .take .locked hs.1 (.inl ⟨hp, rfl⟩)
  | lockAgain =>
    simp only [hp, Option.ite_none_right_eq_some, Option.some.injEq] at hs
    exact hs.2 ▸ .take .store hs.1 (.inr ⟨hp, rfl⟩)
  | locked =>
    simp only [hp, Option.some.injEq] at hs
    exact hs ▸ .unlock .notifyAll (.inl ⟨hp, rfl⟩)
  | stored =>
    simp only [hp, Option.some.injEq] at hs
    exact hs ▸ .unlock .notifyAllAgain (.inr ⟨hp, rfl⟩)
  | notifyAll =>
    simp only [hp, Option.some.injEq] at hs
    exact hs ▸ .notifyAll .lockAgain (.inl ⟨hp, rfl⟩)
  | notifyAllAgain =>
    simp only [hp, Option.some.injEq] at hs
    exact hs ▸ .notifyAll .returned (.inr ⟨hp, rfl⟩)
  | store =>
    simp only [hp, Option.some.injEq] at hs
    exact hs ▸ .store hp
  | returned => simp [hp] at hs

/-- The points of waits() with cv_m locked. -/
def WaitsPc.owns : WaitsPc → Bool
  | .test | .block | .passed => true
  | _ => false

def SignalsPc.owns : SignalsPc → Bool
  | .locked | .store | .stored => true
  | _ => false

/-- Past cv.wait. -/
def WaitsPc.past : WaitsPc → Bool
  | .passed | .returned => true
  | _ => false

/-- Behind i = 1. -/
def SignalsPc.signalled : SignalsPc → Bool
  | .stored | .notifyAllAgain | .returned => true
  | _ => false

structure Inv (s : State τ) : Prop where
  waiter : ∀ t, (s.waits t).owns = true ↔ s.cvM = some (some t)
  signaller : s.signals.owns = true ↔ s.cvM = some none
  value : s.i = 1 ↔ s.signals.signalled = true
  tested : ∀ t, s.waits t = .block → s.i ≠ 1
  past : ∀ t, (s.waits t).past = true → s.i = 1
  awake : s.signals = .returned → ∀ t, s.waits t ≠ .blocked

theorem Inv.start : Inv (start : State τ) where
  waiter t := by simp [Signals.start, WaitsPc.owns]
  signaller := by simp [Signals.start, SignalsPc.owns]
  value := by simp [Signals.start, SignalsPc.signalled]
  tested t h := by cases h
  past t h := by cases h
  awake h := by cases h

/-- A waits() thread goes on, possibly taking or releasing cv_m. -/
theorem Inv.goto {s : State τ} (hi : Inv s) {t : τ} {pc : WaitsPc} {cvM : Option (Option τ)}
    (hself : pc.owns = true ↔ cvM = some (some t))
    (hother : ∀ u, u ≠ t → (cvM = some (some u) ↔ s.cvM = some (some u)))
    (hsignals : cvM = some none ↔ s.cvM = some none) (htested : pc = .block → s.i ≠ 1)
    (hpast : pc.past = true → s.i = 1) (hawake : s.signals = .returned → pc ≠ .blocked) :
    Inv { s.goto t pc with cvM := cvM } where
  waiter u := by
    by_cases hu : u = t
    · subst hu
      simpa [State.goto] using hself
    · simp only [State.goto, Function.update_of_ne hu]
      rw [hother u hu]
      exact hi.waiter u
  signaller := by
    simp only [State.goto]
    rw [hsignals]
    exact hi.signaller
  value := hi.value
  tested u := by
    by_cases hu : u = t
    · subst hu
      simpa [State.goto] using htested
    · simpa [State.goto, hu] using hi.tested u
  past u := by
    by_cases hu : u = t
    · subst hu
      simpa [State.goto] using hpast
    · simpa [State.goto, hu] using hi.past u
  awake hr u := by
    by_cases hu : u = t
    · subst hu
      simpa [State.goto] using hawake hr
    · simpa [State.goto, hu] using hi.awake hr u

/-- It goes on with cv_m as it was. -/
theorem Inv.keep {s : State τ} (hi : Inv s) {t : τ} {pc : WaitsPc}
    (howns : pc.owns = (s.waits t).owns) (htested : pc = .block → s.i ≠ 1)
    (hpast : pc.past = true → s.i = 1) (hawake : s.signals = .returned → pc ≠ .blocked) :
    Inv (s.goto t pc) :=
  hi.goto (howns ▸ hi.waiter t) (fun _ _ => Iff.rfl) Iff.rfl htested hpast hawake

/-- It gives cv_m up. -/
theorem Inv.unlock {s : State τ} (hi : Inv s) {t : τ} {pc : WaitsPc}
    (hwas : (s.waits t).owns = true) (howns : pc.owns = false) (htested : pc = .block → s.i ≠ 1)
    (hpast : pc.past = true → s.i = 1) (hawake : s.signals = .returned → pc ≠ .blocked) :
    Inv { s.goto t pc with cvM := none } := by
  have hmine := (hi.waiter t).mp hwas
  refine hi.goto ?_ (fun u hu => ?_) ?_ htested hpast hawake
  · simp [howns]
  · simp [hmine, Ne.symm hu]
  · simp [hmine]

theorem Inv.waits {s s' : State τ} (hi : Inv s) {t : τ} (hm : WaitsMove s t s') : Inv s' := by
  cases hm with
  | take hpc hfree =>
    refine hi.goto ?_ (fun u hu => ?_) ?_ (fun h => ?_) (fun h => ?_) (fun _ h => ?_)
    · simp [WaitsPc.owns]
    · simp [hfree, Ne.symm hu]
    · simp [hfree]
    · cases h
    · cases h
    · cases h
  | pass hpc hone =>
    exact hi.keep (by rw [hpc]; rfl) (fun h => nomatch h) (fun _ => hone) (fun _ h => nomatch h)
  | fail hpc hne =>
    exact hi.keep (by rw [hpc]; rfl) (fun _ => hne) (fun h => nomatch h) (fun _ h => nomatch h)
  | block hpc =>
    -- the predicate was false under the lock, so signals() has not stored yet
    have hzero := hi.tested t hpc
    refine hi.unlock (by rw [hpc]; rfl) rfl (fun h => nomatch h) (fun h => nomatch h) ?_
    intro hr
    exact absurd (hi.value.mpr (by rw [hr]; rfl)) hzero
  | leave hpc =>
    refine hi.unlock (by rw [hpc]; rfl) rfl (fun h => nomatch h) (fun _ => ?_) (fun _ h => nomatch h)
    exact hi.past t (by rw [hpc]; rfl)

theorem WaitsPc.notified_owns (pc : WaitsPc) : pc.notified.owns = pc.owns := by
  cases pc <;> rfl

theorem WaitsPc.notified_past (pc : WaitsPc) : pc.notified.past = pc.past := by
  cases pc <;> rfl

theorem WaitsPc.notified_ne (pc : WaitsPc) : pc.notified ≠ .blocked := by
  cases pc <;> exact fun h => nomatch h

theorem WaitsPc.notified_block {pc : WaitsPc} (h : pc.notified = .block) : pc = .block := by
  cases pc <;> first | rfl | cases h

/-- A notify_all: everybody blocked is woken. -/
theorem Inv.notifyAll {s : State τ} (hi : Inv s) {pc : SignalsPc} (howns : pc.owns = s.signals.owns)
    (hsame : pc.signalled = s.signals.signalled) :
    Inv { s with waits := fun t => (s.waits t).notified, signals := pc } where
  waiter t := by
    simp only [WaitsPc.notified_owns]
    exact hi.waiter t
  signaller := by
    simp only [howns]
    exact hi.signaller
  value := by
    simp only [hsame]
    exact hi.value
  tested t h := hi.tested t (WaitsPc.notified_block h)
  past t := by
    simp only [WaitsPc.notified_past]
    exact hi.past t
  awake _ t := WaitsPc.notified_ne _

/-- signals() goes on before its second notify_all, possibly taking or releasing cv_m. -/
theorem Inv.proceed {s : State τ} (hi : Inv s) {pc : SignalsPc} {cvM : Option (Option τ)}
    (hself : pc.owns = true ↔ cvM = some none)
    (hwaits : ∀ t, cvM = some (some t) ↔ s.cvM = some (some t))
    (hsame : pc.signalled = s.signals.signalled) (hne : pc ≠ .returned) :
    Inv { s with cvM := cvM, signals := pc } where
  waiter t := (hi.waiter t).trans (hwaits t).symm
  signaller := hself
  value := by
    simp only [hsame]
    exact hi.value
  tested := hi.tested
  past := hi.past
  awake hr := absurd hr hne

/-- Nobody is between test and block while signals() stores. -/
theorem Inv.store {s : State τ} (hi : Inv s) (hp : s.signals = .store) :
    Inv { s with i := 1, signals := .stored } := by
  have hmine : s.cvM = some none := hi.signaller.mp (by rw [hp]; rfl)
  refine ⟨hi.waiter, ?_, ?_, fun t hb => ?_, fun _ _ => rfl, fun h => nomatch h⟩
  · simp [hmine, SignalsPc.owns]
  · simp [SignalsPc.signalled]
  · have howner := (hi.waiter t).mp (by rw [hb]; rfl)
    rw [hmine] at howner
    cases howner

theorem Inv.signals {s s' : State τ} (hi : Inv s) (hm : SignalsMove s s') : Inv s' := by
  cases hm with
  | take pc hfree hpc =>
    have howns : pc.owns = true ∧ pc.signalled = s.signals.signalled ∧ pc ≠ .returned := by
      obtain ⟨hp, rfl⟩ | ⟨hp, rfl⟩ := hpc <;> rw [hp] <;> decide
    exact hi.proceed (by simp [howns.1]) (by simp [hfree]) howns.2.1 howns.2.2
  | unlock pc hpc =>
    have howns : s.signals.owns = true ∧ pc.owns = false ∧
        pc.signalled = s.signals.signalled ∧ pc ≠ .returned := by
      obtain ⟨hp, rfl⟩ | ⟨hp, rfl⟩ := hpc <;> rw [hp] <;> decide
    have hmine := hi.signaller.mp howns.1
    exact hi.proceed (by simp [howns.2.1]) (by simp [hmine]) howns.2.2.1 howns.2.2.2
  | notifyAll pc hpc =>
    have hsame : pc.owns = s.signals.owns ∧ pc.signalled = s.signals.signalled := by
      obtain ⟨hp, rfl⟩ | ⟨hp, rfl⟩ := hpc <;> rw [hp] <;> decide
    exact hi.notifyAll hsame.1 hsame.2
  | store hpc => exact hi.store hpc

theorem Inv.step {s s' : State τ} {l : Label τ} (hi : Inv s) (hs : step s l = some s') :
    Inv s' := by
  cases l with
  | waits t => exact hi.waits (waitsMove_of_step hs)
  | spurious t =>
    simp only [Signals.step, Option.ite_none_right_eq_some, Option.some.injEq] at hs
    obtain ⟨hp, rfl⟩ := hs
    exact hi.keep (by rw [hp]; rfl) (fun h => nomatch h) (fun h => nomatch h) (fun _ h => nomatch h)
  | signals => exact hi.signals (signalsMove_of_step hs)

theorem inv_of_reachable {s : State τ} (hr : (machine τ).Reachable s) : Inv s :=
  hr.invariant Inv.start (fun _ _ _ hi hs => hi.step hs)

/-- A step of waits() changes neither i nor signals(). -/
theorem WaitsMove.frame {s s' : State τ} {t : τ} (hm : WaitsMove s t s') :
    s'.i = s.i ∧ s'.signals = s.signals := by
  cases hm <;> exact ⟨rfl, rfl⟩

/-- A step of signals() takes nobody past cv.wait. -/
theorem SignalsMove.past {s s' : State τ} (hm : SignalsMove s s') (t : τ) :
    (s'.waits t).past = (s.waits t).past := by
  cases hm with
  | notifyAll pc hpc => exact WaitsPc.notified_past _
  | _ => rfl

theorem Inv.passing {s s' : State τ} {l : Label τ} (hi : Inv s) (hs : Signals.step s l = some s')
    {t : τ} (hbefore : (s.waits t).past = false) (hafter : (s'.waits t).past = true) :
    s.i = 1 := by
  have hone := (hi.step hs).past t hafter
  cases l with
  | waits u => exact (waitsMove_of_step hs).frame.1 ▸ hone
  | spurious u =>
    simp only [Signals.step, Option.ite_none_right_eq_some, Option.some.injEq] at hs
    obtain ⟨-, rfl⟩ := hs
    exact hone
  | signals =>
    rw [(signalsMove_of_step hs).past, hbefore] at hafter
    cases hafter

theorem signals_returned {s s' : State τ} {l : Label τ} (h : s.signals = .returned)
    (hs : step s l = some s') : s'.signals = .returned := by
  cases l with
  | waits t => exact (waitsMove_of_step hs).frame.2.trans h
  | spurious t =>
    simp only [step, Option.ite_none_right_eq_some, Option.some.injEq] at hs
    exact hs.2 ▸ h
  | signals => simp [step, signalsStep, h] at hs

/-- In every reachable state nobody is past cv.wait unless i is 1, so nobody before signals()
has stored it; nobody gets past it while i is not 1; and once signals() has executed its second
notify_all, neither now nor at any later time is anybody blocked un-notified. -/
theorem signal_protocol {s : State τ} (hr : (machine τ).Reachable s) :
    (∀ t, (s.waits t).past = true → s.i = 1) ∧
    (s.signals.signalled = false → ∀ t, (s.waits t).past = false) ∧
    (∀ l s' t, step s l = some s' → (s.waits t).past = false → (s'.waits t).past = true →
      s.i = 1) ∧
    (s.signals = .returned → ∀ tr s', (machine τ).run s tr = some s' →
      ∀ t, s'.waits t ≠ .blocked) := by
  have hi := inv_of_reachable hr
  refine ⟨hi.past, fun hn t => ?_, fun l s' t hs => hi.passing hs, fun hret tr s' hrun => ?_⟩
  · rw [Bool.eq_false_iff]
    intro hpast
    have hsig := hi.value.mp (hi.past t hpast)
    rw [hn] at hsig
    cases hsig
  · have hend : s'.signals = .returned := by
      refine (machine τ).run_induction (P := fun _ u => u.signals = .returned) hret ?_ hrun
      intro _ u l v _ hu hs
      exact signals_returned hu hs
    exact (inv_of_reachable (hr.run hrun)).awake hend

end

/-- One waiter blocks before the first notify_all, is woken by it, blocks again, and two more
come at other times; signals() returns. -/
def threeWaiters : List (Label (Fin 3)) :=
  [.waits 0, .waits 0, .waits 0, .signals, .signals, .signals, .waits 0, .waits 0, .waits 0,
    .waits 1, .waits 1, .waits 1, .spurious 1, .signals, .signals, .signals, .waits 2, .signals]

def afterSignals : State (Fin 3) := ((machine (Fin 3)).run start threeWaiters).getD start

theorem signal_protocol_threeWaiters :
    afterSignals.signals = .returned ∧
      ∀ tr s', (machine (Fin 3)).run afterSignals tr = some s' → ∀ t, s'.waits t ≠ .blocked := by
  have hr : (machine (Fin 3)).Reachable afterSignals := ⟨threeWaiters, rfl⟩
  exact ⟨rfl, (signal_protocol hr).2.2.2 rfl⟩

end LinuxPractice.Signals
