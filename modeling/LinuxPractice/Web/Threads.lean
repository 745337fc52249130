import LinuxPractice.Framework.Machine
import LinuxPractice.Math.Total
import LinuxPractice.Echo.Lines
import Mathlib.Data.Fin.Tuple.Basic

namespace LinuxPractice.Web.Threads

open Echo (MAXLINE)

/-- f_flags: 0, F_CONNECTING, F_READING, F_DONE and F_JOINED. -/
inductive Flags
  | unused
  | connecting
  | reading
  | done
  | joined
  deriving DecidableEq

/-- Where do_get_read stands: it is not created yet, is in Tcp_connect, in Read with what the
server has left to send, at Pthread_mutex_lock, behind it, or it has returned. -/
inductive ThreadPc
  | absent
  | connect
  | read (left : Nat)
  | lock
  | locked
  | returned
  deriving DecidableEq

/-- An entry of file[] and the thread that is created for it. -/
structure File where
  flags : Flags
  pc : ThreadPc
  deriving DecidableEq

/-- Where main stands: at the tests of its two while loops, at Pthread_mutex_lock, at the
test of ndone, in Pthread_cond_wait before and after a wake-up, in its for loop, in
Pthread_join, or at one of its ends. -/
inductive MainPc (n : Nat)
  | loop
  | create
  | lock
  | test
  | waiting
  | woken
  | scan (i : Nat)
  | join (i : Fin n)
  | exited
  | errQuit
  deriving DecidableEq

/-- locked is ndone_mutex. -/
structure State (n : Nat) where
  main : MainPc n
  nconn : Int
  nlefttoconn : Int
  nlefttoread : Int
  ndone : Int
  locked : Bool
  file : Fin n → File

/-- A step of main, of the thread of file[i], a Read in it that returns k bytes, or a
wake-up without a signal. -/
inductive Label (n : Nat)
  | main
  | thread (i : Fin n)
  | read (i : Fin n) (k : Nat)
  | spurious
  deriving DecidableEq

variable {n : Nat}

/-- The first file that nobody has asked for. -/
def State.firstUnused (s : State n) : Option (Fin n) :=
  Fin.find? fun i => decide ((s.file i).flags = .unused)

def State.setFile (s : State n) (i : Fin n) (f : File) : State n :=
  { s with file := Function.update s.file i f }

/-- main() after home_page. -/
def mainStep (maxnconn : Int) (s : State n) : Option (State n) :=
  match s.main with
  | .loop => some { s with main := if 0 < s.nlefttoread then .create else .exited }
  | .create =>
    if s.nconn < maxnconn ∧ 0 < s.nlefttoconn then
      match s.firstUnused with
      | none => some { s with main := .errQuit }
      | some i =>
        some { s.setFile i ⟨.connecting, .connect⟩ with
          nconn := s.nconn + 1, nlefttoconn := s.nlefttoconn - 1 }
    else some { s with main := .lock }
  | .lock => if s.locked then none else some { s with locked := true, main := .test }
  | .test =>
    if s.ndone = 0 then some { s with locked := false, main := .waiting }
    else some { s with main := .scan 0 }
  | .waiting => none
  | .woken => if s.locked then none else some { s with locked := true, main := .test }
  | .scan i =>
    if h : i < n then
      if (s.file ⟨i, h⟩).flags = .done then some { s with main := .join ⟨i, h⟩ }
      else some { s with main := .scan (i + 1) }
    else some { s with locked := false, main := .loop }
  | .join i =>
    if (s.file i).pc = .returned then
      some { s.setFile i ⟨.joined, .returned⟩ with
        ndone := s.ndone - 1, nconn := s.nconn - 1, nlefttoread := s.nlefttoread - 1,
        main := .scan (i + 1) }
    else none
  | .exited | .errQuit => none

/-- Pthread_cond_signal(&ndone_cond); only main ever waits for it. -/
def MainPc.signalled : MainPc n → MainPc n
  | .waiting => .woken
  | pc => pc

/-- do_get_read for file[i], where the server's reply has reply i bytes. -/
def threadStep (reply : Fin n → Nat) (s : State n) (i : Fin n) : Option (State n) :=
  match (s.file i).pc with
  | .connect => some (s.setFile i ⟨.reading, .read (reply i)⟩)
  -- end-of-file: F_DONE is stored before ndone_mutex is locked
  | .read 0 => some (s.setFile i ⟨.done, .lock⟩)
  | .lock =>
    if s.locked then none
    else some { s.setFile i ⟨(s.file i).flags, .locked⟩ with locked := true }
  | .locked =>
    some { s.setFile i ⟨(s.file i).flags, .returned⟩ with
      ndone := s.ndone + 1, main := s.main.signalled, locked := false }
  | _ => none

def readStep (s : State n) (i : Fin n) (k : Nat) : Option (State n) :=
  match (s.file i).pc with
  | .read left =>
    if 0 < k ∧ k ≤ MAXLINE ∧ k ≤ left then some (s.setFile i ⟨(s.file i).flags, .read (left - k)⟩)
    else none
  | _ => none

/-- The end of main is the end of all threads. -/
def MainPc.over : MainPc n → Bool
  | .exited | .errQuit => true
  | _ => false

def step (maxnconn : Int) (reply : Fin n → Nat) (s : State n) (l : Label n) : Option (State n) :=
  if s.main.over then none
  else
    match l with
    | .main => mainStep maxnconn s
    | .thread i => threadStep reply s i
    | .read i k => readStep s i k
    | .spurious => if s.main = .waiting then some { s with main := .woken } else none

def State.start (n : Nat) : State n := ⟨.loop, 0, n, n, 0, false, fun _ => ⟨.unused, .absent⟩⟩

/-- The program with maxnconn connections at a time for n files. -/
def web (maxnconn : Int) (reply : Fin n → Nat) : Machine (State n) (Label n) :=
  ⟨.start n, step maxnconn reply⟩

/-- Everything a step of main can do. -/
inductive MainMove (maxnconn : Int) (s : State n) : State n → Prop
  | go (hpc : s.main = .loop) (h : 0 < s.nlefttoread) : MainMove maxnconn s { s with main := .create }
  | exit (hpc : s.main = .loop) (h : s.nlefttoread ≤ 0) : MainMove maxnconn s { s with main := .exited }
  | create (i : Fin n) (hpc : s.main = .create) (hconn : s.nconn < maxnconn) (hleft : 0 < s.nlefttoconn)
      (hi : s.firstUnused = some i) :
      MainMove maxnconn s { s.setFile i ⟨.connecting, .connect⟩ with
        nconn := s.nconn + 1, nlefttoconn := s.nlefttoconn - 1 }
  | quit (hpc : s.main = .create) (hleft : 0 < s.nlefttoconn) (hi : s.firstUnused = none) :
      MainMove maxnconn s { s with main := .errQuit }
  | created (hpc : s.main = .create) (h : maxnconn ≤ s.nconn ∨ s.nlefttoconn ≤ 0) :
      MainMove maxnconn s { s with main := .lock }
  | lock (hpc : s.main = .lock ∨ s.main = .woken) (hfree : s.locked = false) :
      MainMove maxnconn s { s with locked := true, main := .test }
  | wait (hpc : s.main = .test) (h : s.ndone = 0) :
      MainMove maxnconn s { s with locked := false, main := .waiting }
  | tested (hpc : s.main = .test) (h : s.ndone ≠ 0) : MainMove maxnconn s { s with main := .scan 0 }
  | found (i : Nat) (h : i < n) (hpc : s.main = .scan i) (hf : (s.file ⟨i, h⟩).flags = .done) :
      MainMove maxnconn s { s with main := .join ⟨i, h⟩ }
  | skip (i : Nat) (h : i < n) (hpc : s.main = .scan i) (hf : (s.file ⟨i, h⟩).flags ≠ .done) :
      MainMove maxnconn s { s with main := .scan (i + 1) }
  | unlock (i : Nat) (h : n ≤ i) (hpc : s.main = .scan i) :
      MainMove maxnconn s { s with locked := false, main := .loop }
  | join (i : Fin n) (hpc : s.main = .join i) (hf : (s.file i).pc = .returned) :
      MainMove maxnconn s { s.setFile i ⟨.joined, .returned⟩ with
        ndone := s.ndone - 1, nconn := s.nconn - 1, nlefttoread := s.nlefttoread - 1,
        main := .scan (i + 1) }

theorem mainMove_of_step {maxnconn : Int} {s s' : State n} (h : mainStep maxnconn s = some s') :
    MainMove maxnconn s s' := by
  unfold mainStep at h
  split at h
  · rename_i hpc
    by_cases hleft : 0 < s.nlefttoread
    · rw [if_pos hleft] at h
      cases h
      exact .go hpc hleft
    · rw [if_neg hleft] at h
      cases h
      exact .exit hpc (Int.not_lt.mp hleft)
  · rename_i hpc
    split at h
    · rename_i hc
      split at h
      · rename_i hi
        cases h
        exact .quit hpc hc.2 hi
      · rename_i i hi
        cases h
        exact .create i hpc hc.1 hc.2 hi
    · rename_i hc
      cases h
      refine .created hpc ?_
      omega
  · rename_i hpc
    split at h
    · cases h
    · rename_i hl
      cases h
      exact .lock (.inl hpc) (Bool.eq_false_iff.mpr hl)
  · rename_i hpc
    split at h
    · rename_i hd
      cases h
      exact .wait hpc hd
    · rename_i hd
      cases h
      exact .tested hpc hd
  · cases h
  · rename_i hpc
    split at h
    · cases h
    · rename_i hl
      cases h
      exact .lock (.inr hpc) (Bool.eq_false_iff.mpr hl)
  · rename_i i hpc
    split at h
    · rename_i hi
      split at h
      · rename_i hf
        cases h
        exact .found i hi hpc hf
      · rename_i hf
        cases h
        exact .skip i hi hpc hf
    · rename_i hi
      cases h
      exact .unlock i (Nat.le_of_not_lt hi) hpc
  · rename_i i hpc
    split at h
    · rename_i hf
      cases h
      exact .join i hpc hf
    · cases h
  · cases h
  · cases h

/-- Everything a step of the thread of file[i] can do. -/
inductive ThreadMove (reply : Fin n → Nat) (s : State n) (i : Fin n) : State n → Prop
  | connect (hpc : (s.file i).pc = .connect) :
      ThreadMove reply s i (s.setFile i ⟨.reading, .read (reply i)⟩)
  | read (left k : Nat) (hpc : (s.file i).pc = .read left) (hk : 0 < k) (hle : k ≤ left) :
      ThreadMove reply s i (s.setFile i ⟨(s.file i).flags, .read (left - k)⟩)
  | eof (hpc : (s.file i).pc = .read 0) : ThreadMove reply s i (s.setFile i ⟨.done, .lock⟩)
  | lock (hpc : (s.file i).pc = .lock) (hfree : s.locked = false) :
      ThreadMove reply s i { s.setFile i ⟨(s.file i).flags, .locked⟩ with locked := true }
  | report (hpc : (s.file i).pc = .locked) :
      ThreadMove reply s i { s.setFile i ⟨(s.file i).flags, .returned⟩ with
        ndone := s.ndone + 1, main := s.main.signalled, locked := false }

theorem threadMove_of_step {reply : Fin n → Nat} {s s' : State n} {i : Fin n}
    (h : threadStep reply s i = some s') : ThreadMove reply s i s' := by
  unfold threadStep at h
  split at h
  · rename_i hpc
    cases h
    exact .connect hpc
  · rename_i hpc
    cases h
    exact .eof hpc
  · rename_i hpc
    split at h
    · cases h
    · rename_i hl
      cases h
      exact .lock hpc (Bool.eq_false_iff.mpr hl)
  · rename_i hpc
    cases h
    exact .report hpc
  · cases h

theorem threadMove_of_read (reply : Fin n → Nat) {s s' : State n} {i : Fin n} {k : Nat}
    (h : readStep s i k = some s') : ThreadMove reply s i s' := by
  unfold readStep at h
  split at h
  · rename_i left hpc
    split at h
    · rename_i hk
      cases h
      exact .read left k hpc hk.1 hk.2.2
    · cases h
  · cases h

/-- Everything a step can do. -/
theorem step_cases {maxnconn : Int} {reply : Fin n → Nat} {s s' : State n} {l : Label n}
    (h : step maxnconn reply s l = some s') :
    s.main.over = false ∧
      ((l = .main ∧ MainMove maxnconn s s') ∨
        (∃ i, (l = .thread i ∨ ∃ k, l = .read i k) ∧ ThreadMove reply s i s') ∨
        (l = .spurious ∧ s.main = .waiting ∧ s' = { s with main := .woken })) := by
  unfold step at h
  split at h
  · cases h
  · rename_i hover
    refine ⟨Bool.eq_false_iff.mpr hover, ?_⟩
    cases l with
    | main => exact .inl ⟨rfl, mainMove_of_step h⟩
    | thread i => exact .inr (.inl ⟨i, .inl rfl, threadMove_of_step h⟩)
    | read i k => exact .inr (.inl ⟨i, .inr ⟨k, rfl⟩, threadMove_of_read reply h⟩)
    | spurious =>
      simp only at h
      split at h
      · rename_i hpc
        cases h
        exact .inr (.inr ⟨rfl, hpc, rfl⟩)
      · cases h

end LinuxPractice.Web.Threads
