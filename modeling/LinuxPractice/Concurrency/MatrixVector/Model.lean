import LinuxPractice.Framework.Machine

set_option linter.unusedSectionVars false

namespace LinuxPractice.MatrixVector

/-- What main() works on: m rows of n columns, a vector of n entries, and whatever new int[m]
leaves in result1 and result2. The entries are of any type with the two operations of the
loops; in the program it is int. -/
structure Data (ν : Type*) where
  m : Nat
  n : Nat
  matrix : Nat → Nat → ν
  vector : Nat → ν
  uninit1 : Nat → ν
  uninit2 : Nat → ν

/-- The thread of one row: not created yet, at the test of its loop, or returned. -/
inductive RowThread (ν : Type*)
  | idle
  | loop (j : Nat) (sum : ν)
  | returned
  deriving DecidableEq, Repr

/-- Where main() stands: at the test of the loop that creates the threads, of the one that joins
them, of the outer and of the inner loop of the sequential product, of the comparison, or
returned. -/
inductive MainPc (ν : Type*)
  | create (i : Nat)
  | join (i : Nat)
  | row (i : Nat)
  | column (i j : Nat) (sum : ν)
  | compare (i : Nat)
  | returned
  deriving DecidableEq, Repr

/-- written counts the stores to each entry of result1; cout holds the lines of the comparison. -/
structure State (ν : Type*) where
  main : MainPc ν
  thread : Nat → RowThread ν
  result1 : Nat → ν
  result2 : Nat → ν
  written : Nat → Nat
  cout : List String

inductive Label
  | main
  | thread (i : Nat)
  deriving DecidableEq, Repr

section

variable {ν : Type*} [OfNat ν 0] [Add ν] [Mul ν]

/-- The value of sum in row i before column j. -/
def Data.partialSum (D : Data ν) (i : Nat) : Nat → ν
  | 0 => 0
  | j + 1 => D.partialSum i j + D.matrix i j * D.vector j

/-- The lambda of row i: one iteration of its loop, or the store after the last one. -/
def threadStep (D : Data ν) (s : State ν) (i : Nat) : Option (State ν) :=
  match s.thread i with
  | .loop j sum =>
    if j < D.n then
      some { s with
        thread := Function.update s.thread i (.loop (j + 1) (sum + D.matrix i j * D.vector j)) }
    else
      some { s with
        thread := Function.update s.thread i .returned
        result1 := Function.update s.result1 i sum
        written := Function.update s.written i (s.written i + 1) }
  | .idle | .returned => none

variable [DecidableEq ν] [ToString ν]

def errorLine (i : Nat) (x y : ν) : String :=
  "Error: result1[" ++ toString i ++ "] = " ++ toString x ++ ", result2[" ++ toString i ++ "] = " ++
    toString y

def mainStep (D : Data ν) (s : State ν) : Option (State ν) :=
  match s.main with
  | .create i =>
    if i < D.m then
      some { s with main := .create (i + 1), thread := Function.update s.thread i (.loop 0 0) }
    else some { s with main := .join 0 }
  | .join i =>
    if i < D.m then
      -- join() blocks until the lambda has returned
      if s.thread i = .returned then some { s with main := .join (i + 1) } else none
    else some { s with main := .row 0 }
  | .row i => some { s with main := if i < D.m then .column i 0 0 else .compare 0 }
  | .column i j sum =>
    if j < D.n then some { s with main := .column i (j + 1) (sum + D.matrix i j * D.vector j) }
    else some { s with main := .row (i + 1), result2 := Function.update s.result2 i sum }
  | .compare i =>
    if i < D.m then
      some { s with
        main := .compare (i + 1)
        cout := if s.result1 i ≠ s.result2 i then
          s.cout ++ [errorLine i (s.result1 i) (s.result2 i)] else s.cout }
    else some { s with main := .returned }
  | .returned => none

def step (D : Data ν) (s : State ν) : Label → Option (State ν)
  | .main => mainStep D s
  | .thread i => threadStep D s i

/-- The matrix and the vector are filled, no thread is created yet. -/
def start (D : Data ν) : State ν where
  main := .create 0
  thread _ := .idle
  result1 := D.uninit1
  result2 := D.uninit2
  written _ := 0
  cout := []

def machine (D : Data ν) : Machine (State ν) Label := ⟨start D, step D⟩

/-- Everything the thread of row i can do. -/
inductive ThreadMove (D : Data ν) (s : State ν) (i : Nat) : State ν → Prop
  | add (j : Nat) (sum : ν) (hpc : s.thread i = .loop j sum) (hj : j < D.n) :
      ThreadMove D s i { s with
        thread := Function.update s.thread i (.loop (j + 1) (sum + D.matrix i j * D.vector j)) }
  | store (j : Nat) (sum : ν) (hpc : s.thread i = .loop j sum) (hj : D.n ≤ j) :
      ThreadMove D s i { s with
        thread := Function.update s.thread i .returned
        result1 := Function.update s.result1 i sum
        written := Function.update s.written i (s.written i + 1) }

theorem threadMove_of_step {D : Data ν} {s s' : State ν} {i : Nat}
    (hs : threadStep D s i = some s') : ThreadMove D s i s' := by
  unfold threadStep at hs
  cases hp : s.thread i with
  | idle => simp [hp] at hs
  | returned => simp [hp] at hs
  | loop j sum =>
    simp only [hp] at hs
    split at hs
    · rename_i hj
      cases hs
      exact .add j sum hp hj
    · rename_i hj
      cases hs
      exact .store j sum hp (Nat.le_of_not_lt hj)

/-- Everything main() can do. -/
inductive MainMove (D : Data ν) (s : State ν) : State ν → Prop
  | create (i : Nat) (hpc : s.main = .create i) (hi : i < D.m) :
      MainMove D s { s with
        main := .create (i + 1), thread := Function.update s.thread i (.loop 0 0) }
  | created (i : Nat) (hpc : s.main = .create i) (hi : D.m ≤ i) :
      MainMove D s { s with main := .join 0 }
  | join (i : Nat) (hpc : s.main = .join i) (hi : i < D.m) (hret : s.thread i = .returned) :
      MainMove D s { s with main := .join (i + 1) }
  | joined (i : Nat) (hpc : s.main = .join i) (hi : D.m ≤ i) :
      MainMove D s { s with main := .row 0 }
  | enter (i : Nat) (hpc : s.main = .row i) (hi : i < D.m) :
      MainMove D s { s with main := .column i 0 0 }
  | multiplied (i : Nat) (hpc : s.main = .row i) (hi : D.m ≤ i) :
      MainMove D s { s with main := .compare 0 }
  | add (i j : Nat) (sum : ν) (hpc : s.main = .column i j sum) (hj : j < D.n) :
      MainMove D s { s with main := .column i (j + 1) (sum + D.matrix i j * D.vector j) }
  | store (i j : Nat) (sum : ν) (hpc : s.main = .column i j sum) (hj : D.n ≤ j) :
      MainMove D s { s with
        main := .row (i + 1), result2 := Function.update s.result2 i sum }
  | compare (i : Nat) (hpc : s.main = .compare i) (hi : i < D.m) :
      MainMove D s { s with
        main := .compare (i + 1)
        cout := if s.result1 i ≠ s.result2 i then
          s.cout ++ [errorLine i (s.result1 i) (s.result2 i)] else s.cout }
  | compared (i : Nat) (hpc : s.main = .compare i) (hi : D.m ≤ i) :
      MainMove D s { s with main := .returned }

theorem mainMove_of_step {D : Data ν} {s s' : State ν} (hs : mainStep D s = some s') :
    MainMove D s s' := by
  unfold mainStep at hs
  cases hp : s.main with
  | create i =>
    simp only [hp] at hs
    split at hs
    · rename_i hi
      cases hs
      exact .create i hp hi
    · rename_i hi
      cases hs
      exact .created i hp (Nat.le_of_not_lt hi)
  | join i =>
    simp only [hp] at hs
    split at hs
    · rename_i hi
      simp only [Option.ite_none_right_eq_some, Option.some.injEq] at hs
      obtain ⟨hret, rfl⟩ := hs
      exact .join i hp hi hret
    · rename_i hi
      cases hs
      exact .joined i hp (Nat.le_of_not_lt hi)
  | row i =>
    simp only [hp, Option.some.injEq] at hs
    subst hs
    split
    · rename_i hi
      exact .enter i hp hi
    · rename_i hi
      exact .multiplied i hp (Nat.le_of_not_lt hi)
  | column i j sum =>
    simp only [hp] at hs
    split at hs
    · rename_i hj
      cases hs
      exact .add i j sum hp hj
    · rename_i hj
      cases hs
      exact .store i j sum hp (Nat.le_of_not_lt hj)
  | compare i =>
    simp only [hp] at hs
    split at hs
    · rename_i hi
      cases hs
      exact .compare i hp hi
    · rename_i hi
      cases hs
      exact .compared i hp (Nat.le_of_not_lt hi)
  | returned => simp [hp] at hs

end

end LinuxPractice.MatrixVector
