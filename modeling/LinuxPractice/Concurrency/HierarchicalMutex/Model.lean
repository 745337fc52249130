import LinuxPractice.Framework.Machine
import Mathlib.Data.Fintype.Basic
import Mathlib.Order.Fin.Basic

namespace LinuxPractice.HierarchicalMutex

/-- unsigned long of the 64-bit targets. -/
abbrev ULong := Fin 18446744073709551616

def ulongMax : ULong := 18446744073709551615

theorem le_ulongMax (v : ULong) : v ≤ ulongMax :=
  Fin.le_def.mpr (Nat.le_of_lt_succ v.isLt)

inductive Violation
  | mutexHierarchyViolation
  deriving DecidableEq, Repr

/-- The text of the std::logic_error. -/
def Violation.what : Violation → String
  | .mutexHierarchyViolation => "mutex hierarchy violation"

def checkForHierarchyViolation (thisThreadHierarchyValue hierarchyValue : ULong) :
    Except Violation Unit :=
  if thisThreadHierarchyValue ≤ hierarchyValue then .error .mutexHierarchyViolation else .ok ()

inductive Call
  | lock
  | tryLock
  deriving DecidableEq, Repr

/-- Where a thread stands inside lock(), try_lock() or unlock(); idle is between calls. -/
inductive Pc (μ : Type*)
  | idle
  | check (c : Call) (m : μ)
  | acquire (c : Call) (m : μ)
  | savePrevious (m : μ)
  | setThreadValue (m : μ)
  | restore (m : μ)
  | release (m : μ)
  deriving DecidableEq, Repr

/-- The members of every mutex object and the thread_local value of every thread.
held is not in the program: it lists what a thread has acquired, newest first. -/
structure State (μ τ : Type*) where
  internalMutex : μ → Option τ
  previousHierarchyValue : μ → ULong
  thisThreadHierarchyValue : τ → ULong
  pc : τ → Pc μ
  held : τ → List μ

inductive Act (μ : Type*)
  | lock (m : μ)
  | tryLock (m : μ)
  | unlock (m : μ)
  | advance
  deriving DecidableEq, Repr

section

variable {μ τ : Type*} [DecidableEq μ] [DecidableEq τ]

/-- Every mutex as its constructor leaves it, every thread before its first call. -/
def start : State μ τ where
  internalMutex _ := none
  previousHierarchyValue _ := 0
  thisThreadHierarchyValue _ := ulongMax
  pc _ := .idle
  held _ := []

def State.goto (s : State μ τ) (t : τ) (pc : Pc μ) : State μ τ :=
  { s with pc := Function.update s.pc t pc }

/-- internal_mutex becomes the thread's own. -/
def State.take (s : State μ τ) (t : τ) (m : μ) : State μ τ :=
  { s with
    internalMutex := Function.update s.internalMutex m (some t)
    held := Function.update s.held t (m :: s.held t) }

/-- internal_mutex.unlock(). -/
def State.drop (s : State μ τ) (t : τ) (m : μ) : State μ τ :=
  { s with
    internalMutex := Function.update s.internalMutex m none
    held := Function.update s.held t ((s.held t).erase m) }

def State.setPrevious (s : State μ τ) (m : μ) (v : ULong) : State μ τ :=
  { s with previousHierarchyValue := Function.update s.previousHierarchyValue m v }

def State.setThread (s : State μ τ) (t : τ) (v : ULong) : State μ τ :=
  { s with thisThreadHierarchyValue := Function.update s.thisThreadHierarchyValue t v }

/-- The next step of a thread inside a call. lock() refuses to move while the
mutex is owned; try_lock() then returns false. A violation leaves by exception. -/
def advance (h : μ → ULong) (s : State μ τ) (t : τ) : Option (State μ τ) :=
  match s.pc t with
  | .idle => none
  | .check c m =>
    match checkForHierarchyViolation (s.thisThreadHierarchyValue t) (h m) with
    | .error _ => some (s.goto t .idle)
    | .ok _ => some (s.goto t (.acquire c m))
  | .acquire c m =>
    match s.internalMutex m, c with
    | none, _ => some ((s.take t m).goto t (.savePrevious m))
    | some _, .lock => none
    | some _, .tryLock => some (s.goto t .idle)
  | .savePrevious m =>
    some ((s.setPrevious m (s.thisThreadHierarchyValue t)).goto t (.setThreadValue m))
  | .setThreadValue m => some ((s.setThread t (h m)).goto t .idle)
  | .restore m => some ((s.setThread t (s.previousHierarchyValue m)).goto t (.release m))
  | .release m => some ((s.drop t m).goto t .idle)

/-- Threads call on any mutex; unlock() is only called on an owned one. -/
def step (h : μ → ULong) (s : State μ τ) : τ × Act μ → Option (State μ τ)
  | (t, .lock m) => if s.pc t = .idle then some (s.goto t (.check .lock m)) else none
  | (t, .tryLock m) => if s.pc t = .idle then some (s.goto t (.check .tryLock m)) else none
  | (t, .unlock m) =>
    if s.pc t = .idle ∧ s.internalMutex m = some t then some (s.goto t (.restore m)) else none
  | (t, .advance) => advance h s t

def machine (h : μ → ULong) : Machine (State μ τ) (τ × Act μ) := ⟨start, step h⟩

/-- unlock() is called in the reverse order of acquisition. -/
def lifo (s : State μ τ) : τ × Act μ → Bool
  | (t, .unlock m) => (s.held t).head? = some m
  | _ => true

/-- The machine of callers that release like scoped locks do. -/
def scopedMachine (h : μ → ULong) : Machine (State μ τ) (τ × Act μ) := (machine h).restrict lifo

end

/-- mutex1 to mutex4 of the repository's test. -/
def testValues : Fin 4 → ULong
  | 0 => 10000
  | 1 => 2000
  | 2 => 1000
  | 3 => 100

end LinuxPractice.HierarchicalMutex
