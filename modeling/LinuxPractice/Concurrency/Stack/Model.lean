import LinuxPractice.Framework.Monitor
import LinuxPractice.Framework.Lifo

namespace LinuxPractice.Stack

open Monitor

/-- What can end a member function early: empty_stack, a failed allocation, or back()
or pop_back() of an empty vector, which is undefined. -/
inductive Failure
  | emptyStack
  | badAlloc
  | emptyVector
  deriving DecidableEq, Repr

/-- What a member function hands to its caller; pop returns a pointer to the value. -/
inductive Result (α : Type)
  | pushed
  | popped (v : α)
  deriving DecidableEq, Repr

section

variable {α : Type}

/-- stack_.back() -/
def back : Crit (List α) Failure α := do
  match (← Crit.object).getLast? with
  | none => Crit.raise .emptyVector
  | some v => return v

/-- stack_.pop_back() -/
def popBack : Crit (List α) Failure Unit := do
  match (← Crit.object).getLast? with
  | none => Crit.raise .emptyVector
  | some _ => Crit.assign (← Crit.object).dropLast

/-- stack_.push_back(..): no effect if the vector cannot grow. -/
def pushBack (fault : Bool) (v : α) : Crit (List α) Failure Unit := do
  if fault then Crit.raise .badAlloc
  Crit.assign ((← Crit.object) ++ [v])

/-- make_shared<T>(..): the storage is allocated before the element is moved into it. -/
def makeShared (fault : Bool) (v : α) : Crit (List α) Failure α := do
  if fault then Crit.raise .badAlloc
  return v

def push (fault : Bool) (value : α) : Crit (List α) Failure (Result α) := do
  pushBack fault value
  return .pushed

def pop (fault : Bool) : Crit (List α) Failure (Result α) := do
  if (← Crit.object).isEmpty then
    Crit.raise .emptyStack
  let value ← makeShared fault (← back)
  popBack
  return .popped value

inductive Op (α : Type)
  | push (value : α)
  | pop
  deriving DecidableEq, Repr

def body : Op α → Bool → List α → Outcome (List α) (Result α) Failure
  | .push value, fault, st => (push fault value).outcome st
  | .pop, fault, st => (pop fault).outcome st

/-- One stack with one mutex, no condition variable and nothing passed by value. -/
def monitor (α : Type) : Monitor Unit (List α) (Op α) Bool (Result α) Failure where
  lockOf _ := ()
  ready _ _ := true
  byValue _ := false
  body := body

abbrev StackState (α τ : Type) := State Unit (List α) (Op α) τ

abbrev StackLabel (α τ : Type) := Label (Op α) Bool τ

/-- A stack that starts empty, used by any number of threads. -/
abbrev machine (α τ : Type) [DecidableEq τ] [Fintype τ] :
    Machine (StackState α τ) (StackLabel α τ) := (monitor α).machine []

/-- Everything the critical section of a call can do. -/
inductive Effect (op : Op α) (fault : Bool) (st : List α) :
    Outcome (List α) (Result α) Failure → Prop
  | pushed (v : α) (hop : op = .push v) (hf : fault = false) :
      Effect op fault st ⟨st ++ [v], .ret .pushed, false⟩
  | full (v : α) (hop : op = .push v) (hf : fault = true) :
      Effect op fault st ⟨st, .thrown .badAlloc, false⟩
  | empty (hop : op = .pop) (he : st = []) : Effect op fault st ⟨st, .thrown .emptyStack, false⟩
  | failed (hop : op = .pop) (he : st ≠ []) (hf : fault = true) :
      Effect op fault st ⟨st, .thrown .badAlloc, false⟩
  | popped (v : α) (hop : op = .pop) (he : st.getLast? = some v) (hf : fault = false) :
      Effect op fault st ⟨st.dropLast, .ret (.popped v), false⟩

theorem push_outcome (fault : Bool) (v : α) (st : List α) :
    (push fault v).outcome st =
      if fault then ⟨st, .thrown .badAlloc, false⟩ else ⟨st ++ [v], .ret .pushed, false⟩ := by
  cases fault <;> rfl

theorem pop_outcome_concat (fault : Bool) (st : List α) (v : α) :
    (pop fault).outcome (st ++ [v]) =
      if fault then ⟨st ++ [v], .thrown .badAlloc, false⟩
      else ⟨st, .ret (.popped v), false⟩ := by
  cases fault <;> simp [pop, back, popBack, makeShared, Crit.outcome, -bind_pure_comp]

theorem body_effect (op : Op α) (fault : Bool) (st : List α) :
    Effect op fault st (body op fault st) := by
  cases op with
  | push v =>
    rw [body, push_outcome]
    cases fault with
    | true => exact .full v rfl rfl
    | false => exact .pushed v rfl rfl
  | pop =>
    induction st using List.reverseRecOn with
    | nil => exact .empty rfl rfl
    | append_singleton st v _ =>
      rw [body, pop_outcome_concat]
      cases fault with
      | true => exact .failed rfl (by simp) rfl
      | false =>
        have h : Effect .pop false (st ++ [v]) ⟨(st ++ [v]).dropLast, .ret (.popped v), false⟩ :=
          .popped v rfl (by simp) rfl
        simpa using h

end

end LinuxPractice.Stack
