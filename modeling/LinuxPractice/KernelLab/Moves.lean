import LinuxPractice.KernelLab.Model

set_option linter.unusedSectionVars false

namespace LinuxPractice.KernelLab

open Echo

section

variable {τ : Type*} [DecidableEq τ]

/-- Everything one step can do. -/
inductive Move (k : Kernel τ) (s : State τ) : Label τ → State τ → Prop
  | opened (t : τ) (hp : s.pc t = .idle) :
      Move k s (.open t) { s with position := Function.update s.position t 0 }
  | refused (t : τ) (user : List Byte) (count : Nat) (fault : Bool) (hp : s.pc t = .idle)
      (hc : copyFromUser user (copyLength count) fault = none) :
      Move k s (.write t user count fault) s
  | copied (t : τ) (user : List Byte) (count : Nat) (fault : Bool) (hp : s.pc t = .idle)
      (hc : copyFromUser user (copyLength count) fault = some (user.take (copyLength count))) :
      Move k s (.write t user count fault)
        (s.goto t (.writeLock ⟨user, count, prepared (user.take (copyLength count))⟩))
  | called (t : τ) (count : Nat) (hp : s.pc t = .idle) :
      Move k s (.read t count) (s.goto t (.readLock count))
  | locked (t : τ) (pc pc' : Pc) (hp : s.pc t = pc)
      (hn : (∃ w, pc = .writeLock w ∧ pc' = .update w) ∨
        ∃ n, pc = .readLock n ∧ pc' = .sampleUptime n) (hl : s.kernelLabLock = none) :
      Move k s (.advance t) { s.goto t pc' with kernelLabLock := some t }
  | stored (t : τ) (w : Writing) (hp : s.pc t = .update w) :
      Move k s (.advance t) ((s.store w.buffer).goto t (.writeUnlock w))
  | unlocked (t : τ) (pc pc' : Pc) (hp : s.pc t = pc)
      (hn : (∃ w, pc = .writeUnlock w ∧ pc' = .log w) ∨
        ∃ n b, pc = .readUnlock n b ∧ pc' = .deliver n b) :
      Move k s (.advance t) { s.goto t pc' with kernelLabLock := none }
  | logged (t : τ) (w : Writing) (hp : s.pc t = .log w) :
      Move k s (.advance t) (s.goto t .idle)
  | sampled (t : τ) (pc pc' : Pc) (hp : s.pc t = pc)
      (hn : (∃ n, pc = .sampleUptime n ∧ pc' = .sampleTime n (uptimeMs k s)) ∨
        ∃ n ms, pc = .sampleTime n ms ∧ pc' = .format n ⟨ms, s.tvSec⟩) :
      Move k s (.advance t) (s.goto t pc')
  | formatted (t : τ) (n : Nat) (x : Times) (hp : s.pc t = .format n x) :
      Move k s (.advance t) (s.goto t (.readUnlock n (report k s t x)))
  | delivered (t : τ) (n : Nat) (b : List Byte) (hp : s.pc t = .deliver n b) :
      Move k s (.advance t)
        { s.goto t .idle with
          position := Function.update s.position t
            (s.position t + (simpleReadFromBuffer n (s.position t) b).length) }
  | ticked : Move k s .tick { s with jiffies := s.jiffies + 1 }
  | clocked (tvSec : Int64) : Move k s (.clock tvSec) { s with tvSec := tvSec }
  | greeted (g : Greeting) : Move k s (.setGreeting g) { s with greeting := g }
  | repeated (n : Int32) : Move k s (.setRepeat n) { s with repeatParam := n }

theorem mutexLock_eq_some {s s' : State τ} {t : τ} {pc : Pc} (h : s.mutexLock t pc = some s') :
    s.kernelLabLock = none ∧ s' = { s.goto t pc with kernelLabLock := some t } := by
  unfold State.mutexLock at h
  split at h
  · rename_i hl
    exact ⟨hl, (Option.some.inj h).symm⟩
  · cases h

theorem move_of_advance {k : Kernel τ} {s s' : State τ} {t : τ} (hs : advance k s t = some s') :
    Move k s (.advance t) s' := by
  unfold advance at hs
  cases hp : s.pc t with
  | idle => simp [hp] at hs
  | writeLock w =>
    simp only [hp] at hs
    obtain ⟨hl, rfl⟩ := mutexLock_eq_some hs
    exact .locked t _ _ hp (.inl ⟨w, rfl, rfl⟩) hl
  | update w =>
    simp only [hp, Option.some.injEq] at hs
    exact hs ▸ .stored t w hp
  | writeUnlock w =>
    simp only [hp, Option.some.injEq] at hs
    exact hs ▸ .unlocked t _ _ hp (.inl ⟨w, rfl, rfl⟩)
  | log w =>
    simp only [hp, Option.some.injEq] at hs
    exact hs ▸ .logged t w hp
  | readLock n =>
    simp only [hp] at hs
    obtain ⟨hl, rfl⟩ := mutexLock_eq_some hs
    exact .locked t _ _ hp (.inr ⟨n, rfl, rfl⟩) hl
  | sampleUptime n =>
    simp only [hp, Option.some.injEq] at hs
    exact hs ▸ .sampled t _ _ hp (.inl ⟨n, rfl, rfl⟩)
  | sampleTime n ms =>
    simp only [hp, Option.some.injEq] at hs
    exact hs ▸ .sampled t _ _ hp (.inr ⟨n, ms, rfl, rfl⟩)
  | format n x =>
    simp only [hp, Option.some.injEq] at hs
    exact hs ▸ .formatted t n x hp
  | readUnlock n b =>
    simp only [hp, Option.some.injEq] at hs
    exact hs ▸ .unlocked t _ _ hp (.inr ⟨n, b, rfl, rfl⟩)
  | deliver n b =>
    simp only [hp, Option.some.injEq] at hs
    exact hs ▸ .delivered t n b hp

theorem copyFromUser_eq_some {user c : List Byte} {n : Nat} {fault : Bool}
    (h : copyFromUser user n fault = some c) : c = user.take n := by
  unfold copyFromUser at h
  split at h
  · cases h
  · exact (Option.some.inj h).symm

theorem move_of_step {k : Kernel τ} {s s' : State τ} {l : Label τ} (hs : step k s l = some s') :
    Move k s l s' := by
  cases l with
  | «open» t =>
    simp only [step, Option.ite_none_right_eq_some, Option.some.injEq] at hs
    exact hs.2 ▸ .opened t hs.1
  | write t user count fault =>
    simp only [step, Option.ite_none_right_eq_some, Option.some.injEq, kernelLabWrite] at hs
    obtain ⟨hp, hs⟩ := hs
    split at hs
    · rename_i hc
      exact hs ▸ .refused t user count fault hp hc
    · rename_i c hc
      obtain rfl := copyFromUser_eq_some hc
      exact hs ▸ .copied t user count fault hp hc
  | read t count =>
    simp only [step, Option.ite_none_right_eq_some, Option.some.injEq] at hs
    exact hs.2 ▸ .called t count hs.1
  | advance t => exact move_of_advance hs
  | tick =>
    simp only [step, Option.some.injEq] at hs
    exact hs ▸ .ticked
  | clock tvSec =>
    simp only [step, Option.some.injEq] at hs
    exact hs ▸ .clocked tvSec
  | setGreeting g =>
    simp only [step, Option.some.injEq] at hs
    exact hs ▸ .greeted g
  | setRepeat n =>
    simp only [step, Option.some.injEq] at hs
    exact hs ▸ .repeated n

end

end LinuxPractice.KernelLab
