import LinuxPractice.Framework.Progress
import LinuxPractice.Echo.Lines
import Mathlib.Logic.Function.Basic

namespace LinuxPractice.Readline

open Echo (Byte MAXLINE newline)

/-- A byte with the descriptor it comes from; the code only sees the byte. -/
abbrev Traced := Nat × Byte

structure Call where
  fd : Nat
  maxlen : Nat

/-- What a call of readline on fd has returned and stored. -/
structure Line where
  fd : Nat
  n : Nat
  text : List Traced
  deriving DecidableEq

/-- What is left to be read of every descriptor. -/
abbrev Files := Nat → List Traced

/-- The loop of test/readline1.c, which reads byte by byte, with m rounds to go. -/
def loop1 (fd : Nat) : Nat → Nat → List Traced → List Traced → Line × List Traced
  | 0, n, got, input => (⟨fd, n, got⟩, input)
  | _ + 1, n, got, [] => (⟨fd, n - 1, got⟩, [])
  | m + 1, n, got, c :: input =>
    if c.2 = newline then (⟨fd, n, got ++ [c]⟩, input) else loop1 fd m (n + 1) (got ++ [c]) input

def readline1 (c : Call) (files : Files) : Line × List Traced :=
  loop1 c.fd (c.maxlen - 1) 1 [] (files c.fd)

/-- A sequence of calls of that version. -/
def returns1 : List Call → Files → List Line
  | [], _ => []
  | c :: calls, files =>
    (readline1 c files).1 :: returns1 calls (Function.update files c.fd (readline1 c files).2)

/-- The loop of lib/readline.c. -/
structure Loop where
  fd : Nat
  maxlen : Nat
  n : Nat
  got : List Traced

/-- readBuf is the part of read_buf that my_read has not handed out yet. -/
structure State where
  calls : List Call
  pc : Option Loop
  readBuf : List Traced
  files : Files
  returned : List Line

/-- The next call begins, a byte is taken from the buffer, read returns k, or it returns
-1 with errno set to EINTR. -/
inductive Label
  | call
  | go
  | io (k : Nat)
  | eintr
  deriving DecidableEq

def State.leave (s : State) (line : Line) : State :=
  { s with pc := none, returned := s.returned ++ [line] }

/-- n < maxlen -/
def State.test (s : State) (l : Loop) : State :=
  if l.n < l.maxlen then { s with pc := some l } else s.leave ⟨l.fd, l.n, l.got⟩

def State.store (s : State) (l : Loop) (c : Traced) : State :=
  if c.2 = newline then s.leave ⟨l.fd, l.n, l.got ++ [c]⟩
  else s.test { l with n := l.n + 1, got := l.got ++ [c] }

/-- A program that makes the calls one after the other. -/
def step (s : State) : Label → Option State
  | .call =>
    match s.pc, s.calls with
    | none, c :: calls => some (State.test { s with calls := calls } ⟨c.fd, c.maxlen, 1, []⟩)
    | _, _ => none
  | .go =>
    match s.pc, s.readBuf with
    | some l, c :: readBuf => some (State.store { s with readBuf := readBuf } l c)
    | _, _ => none
  | .io k =>
    match s.pc, s.readBuf with
    | some l, [] =>
      if s.files l.fd = [] then if k = 0 then some (s.leave ⟨l.fd, l.n - 1, l.got⟩) else none
      else if 0 < k ∧ k ≤ MAXLINE ∧ k ≤ (s.files l.fd).length then
        some { s with
          readBuf := (s.files l.fd).take k
          files := Function.update s.files l.fd ((s.files l.fd).drop k) }
      else none
    | _, _ => none
  | .eintr =>
    match s.pc, s.readBuf with
    | some _, [] => some s
    | _, _ => none

def start (calls : List Call) (files : Files) : State := ⟨calls, none, [], files, []⟩

def program (calls : List Call) (files : Files) : Machine State Label := ⟨start calls files, step⟩

/-- Everything a step can do. -/
inductive Move (s : State) : Label → State → Prop
  | call (c : Call) (calls : List Call) (hpc : s.pc = none) (hc : s.calls = c :: calls) :
      Move s .call (State.test { s with calls := calls } ⟨c.fd, c.maxlen, 1, []⟩)
  | take (l : Loop) (c : Traced) (readBuf : List Traced) (hpc : s.pc = some l)
      (hbuf : s.readBuf = c :: readBuf) :
      Move s .go (State.store { s with readBuf := readBuf } l c)
  | eof (l : Loop) (hpc : s.pc = some l) (hbuf : s.readBuf = []) (hf : s.files l.fd = []) :
      Move s (.io 0) (s.leave ⟨l.fd, l.n - 1, l.got⟩)
  | fill (l : Loop) (k : Nat) (hpc : s.pc = some l) (hbuf : s.readBuf = []) (hk : 0 < k)
      (hle : k ≤ (s.files l.fd).length) :
      Move s (.io k)
        { s with
          readBuf := (s.files l.fd).take k
          files := Function.update s.files l.fd ((s.files l.fd).drop k) }
  | interrupted : Move s .eintr s

theorem move_of_step {s s' : State} {a : Label} (h : step s a = some s') : Move s a s' := by
  cases a with
  | call =>
    simp only [step] at h
    split at h
    · rename_i c calls hpc hc
      cases h
      exact .call c calls hpc hc
    · cases h
  | go =>
    simp only [step] at h
    split at h
    · rename_i l c readBuf hpc hbuf
      cases h
      exact .take l c readBuf hpc hbuf
    · cases h
  | io k =>
    simp only [step] at h
    split at h
    · rename_i l hpc hbuf
      split at h
      · rename_i hf
        split at h
        · rename_i hk
          subst hk
          cases h
          exact .eof l hpc hbuf hf
        · cases h
      · split at h
        · rename_i hk
          cases h
          exact .fill l k hpc hbuf hk.1 hk.2.2
        · cases h
    · cases h
  | eintr =>
    simp only [step] at h
    split at h
    · cases h
      exact .interrupted
    · cases h

section Work

def productive : Label → Bool
  | .eintr => false
  | _ => true

/-- At most two steps for each round of a loop. -/
def State.work (s : State) : Nat :=
  (s.calls.map fun c => 2 * c.maxlen + 3).sum +
    match s.pc with
    | none => 0
    | some l => 2 * (l.maxlen - l.n) + 1 + if s.readBuf = [] then 1 else 0

theorem test_work_le (s : State) (l : Loop) :
    (s.test l).work ≤ (s.calls.map fun c => 2 * c.maxlen + 3).sum + 2 * (l.maxlen - l.n) + 2 := by
  unfold State.test
  split
  · simp only [State.work]
    split <;> omega
  · simp only [State.work, State.leave]
    omega

theorem store_work_le (s : State) (l : Loop) (c : Traced) :
    (s.store l c).work ≤ (s.calls.map fun c => 2 * c.maxlen + 3).sum + 2 * (l.maxlen - (l.n + 1)) + 2 := by
  unfold State.store
  split
  · simp only [State.work, State.leave]
    omega
  · exact test_work_le s _

/-- A loop that is running has passed its test. -/
def Running (s : State) : Prop := ∀ l, s.pc = some l → l.n < l.maxlen

theorem running_test (s : State) (l : Loop) : Running (s.test l) := by
  intro l' hl'
  unfold State.test at hl'
  split at hl'
  · rename_i hlt
    cases hl'
    exact hlt
  · cases hl'

theorem running_store (s : State) (l : Loop) (c : Traced) : Running (s.store l c) := by
  unfold State.store
  split
  · intro l' hl'
    cases hl'
  · exact running_test s _

theorem Running.step {s s' : State} {a : Label} (h : Running s) (hs : Readline.step s a = some s') :
    Running s' := by
  cases move_of_step hs with
  | call c calls hpc hc => exact running_test _ _
  | take l c readBuf hpc hbuf => exact running_store _ l c
  | eof l hpc hbuf hf =>
    intro l' hl'
    cases hl'
  | fill l k hpc hbuf hk hle => exact h
  | interrupted => exact h

variable {calls : List Call} {files : Files}

theorem step_work {s s' : State} {a : Label} (hr : Running s) (hs : step s a = some s')
    (ha : productive a = true) : s'.work < s.work := by
  cases move_of_step hs with
  | call c calls hpc hc =>
    have hle := test_work_le { s with calls := calls } ⟨c.fd, c.maxlen, 1, []⟩
    simp only [State.work, hpc, hc, List.map_cons, List.sum_cons] at hle ⊢
    omega
  | take l c readBuf hpc hbuf =>
    have hle := store_work_le { s with readBuf := readBuf } l c
    have hlt := hr l hpc
    simp only [State.work, hpc, hbuf] at hle ⊢
    omega
  | eof l hpc hbuf hf =>
    simp only [State.work, State.leave, hpc]
    omega
  | fill l k hpc hbuf hk hle =>
    have hne : (s.files l.fd).take k ≠ [] := by
      apply List.ne_nil_of_length_pos
      rw [List.length_take]
      omega
    simp only [State.work, hpc, hbuf, if_neg hne, if_true]
    omega
  | interrupted => cases ha

/-- A program at rest has made all its calls. -/
theorem resting_cases {s : State} (h : (program calls files).Resting productive s) :
    s.pc = none ∧ s.calls = [] := by
  have hno : ∀ a, productive a = true → step s a = none := fun a ha => h.step_eq_none ha
  cases hpc : s.pc with
  | none =>
    refine ⟨rfl, ?_⟩
    cases hc : s.calls with
    | nil => rfl
    | cons c calls =>
      have hcall := hno .call rfl
      simp [step, hpc, hc] at hcall
  | some l =>
    exfalso
    cases hbuf : s.readBuf with
    | cons c readBuf =>
      have hgo := hno .go rfl
      simp [step, hpc, hbuf] at hgo
    | nil =>
      by_cases hf : s.files l.fd = []
      · have hio := hno (.io 0) rfl
        simp [step, hpc, hbuf, hf] at hio
      · have hpos := List.length_pos_of_ne_nil hf
        have hk : 0 < 1 ∧ 1 ≤ MAXLINE ∧ 1 ≤ (s.files l.fd).length := ⟨Nat.one_pos, by decide, hpos⟩
        have hio := hno (.io 1) rfl
        simp only [step, hpc, hbuf, if_neg hf, if_pos hk] at hio
        cases hio

end Work

end LinuxPractice.Readline
