import LinuxPractice.Framework.Wakeup
import LinuxPractice.Framework.Fifo

namespace LinuxPractice.Queue

open Monitor Fifo

/-- What can end a member function early: a throwing copy, assignment or allocation
of an element, or front() or pop() of an empty std::queue, which is undefined. -/
inductive Failure
  | element
  | emptyQueue
  deriving DecidableEq, Repr

/-- What a member function hands to its caller. failed stands for the false and the
null pointer of try_pop. -/
inductive Result (α : Type)
  | pushed
  | popped (v : α)
  | failed
  | emptiness (b : Bool)
  | copied
  deriving DecidableEq, Repr

section

variable {α : Type}

/-- data_queue.front() -/
def front : Crit (List α) Failure α := do
  match ← Crit.object with
  | [] => Crit.raise .emptyQueue
  | v :: _ => return v

/-- data_queue.pop() -/
def pop : Crit (List α) Failure Unit := do
  match ← Crit.object with
  | [] => Crit.raise .emptyQueue
  | _ :: q => Crit.assign q

/-- data_queue.push(..): no effect if the element or its storage throws. -/
def pushBack (fault : Bool) (v : α) : Crit (List α) Failure Unit := do
  if fault then Crit.raise .element
  Crit.assign ((← Crit.object) ++ [v])

/-- value = data_queue.front() and make_shared<T>(data_queue.front()) alike. -/
def copyElement (fault : Bool) (v : α) : Crit (List α) Failure α := do
  if fault then Crit.raise .element
  return v

/-- The copy of the front element out of the queue and its removal. -/
def takeFront (fault : Bool) : Crit (List α) Failure (Result α) := do
  let value ← copyElement fault (← front)
  pop
  return .popped value

def pushNotify (fault : Bool) (v : α) : Crit (List α) Failure (Result α) := do
  pushBack fault v
  Crit.notifyOne
  return .pushed

def waitTake (fault : Bool) : Crit (List α) Failure (Result α) := do
  Crit.waitUntil (fun q => !q.isEmpty)
  takeFront fault

def tryTake (fault : Bool) : Crit (List α) Failure (Result α) := do
  if (← Crit.object).isEmpty then
    return .failed
  takeFront fault

def isEmpty : Crit (List α) Failure (Result α) := do
  return .emptiness (← Crit.object).isEmpty

/-- data_queue = other.data_queue, under the mutex of other. -/
def copyContents (fault : Bool) : Crit (List α) Failure (List α) := do
  if fault then Crit.raise .element
  Crit.object

end

/-- The two queue classes of the repository. -/
inductive Class
  | ThreadSafeQueue
  | threadsafe_queue
  deriving DecidableEq, Repr

namespace ThreadSafeQueue

variable {α : Type}

/-- push(T new_value) copies its parameter into the queue. -/
def push (fault : Bool) (newValue : α) : Crit (List α) Failure (Result α) :=
  pushNotify fault newValue

def waitAndPopRef (fault : Bool) : Crit (List α) Failure (Result α) := waitTake fault

def waitAndPopPtr (fault : Bool) : Crit (List α) Failure (Result α) := waitTake fault

def tryPopRef (fault : Bool) : Crit (List α) Failure (Result α) := tryTake fault

def tryPopPtr (fault : Bool) : Crit (List α) Failure (Result α) := tryTake fault

def empty : Crit (List α) Failure (Result α) := isEmpty

end ThreadSafeQueue

namespace ThreadsafeQueue

variable {α : Type}

/-- push(T &&new_value) moves its argument into the queue. -/
def push (fault : Bool) (newValue : α) : Crit (List α) Failure (Result α) :=
  pushNotify fault newValue

def waitAndPopRef (fault : Bool) : Crit (List α) Failure (Result α) := waitTake fault

def waitAndPopPtr (fault : Bool) : Crit (List α) Failure (Result α) := waitTake fault

def tryPopRef (fault : Bool) : Crit (List α) Failure (Result α) := tryTake fault

def tryPopPtr (fault : Bool) : Crit (List α) Failure (Result α) := tryTake fault

def empty : Crit (List α) Failure (Result α) := isEmpty

end ThreadsafeQueue

/-- A call on the i-th queue; copy constructs a new queue from it. -/
inductive Op (α : Type)
  | push (i : Nat) (v : α)
  | waitAndPopRef (i : Nat)
  | waitAndPopPtr (i : Nat)
  | tryPopRef (i : Nat)
  | tryPopPtr (i : Nat)
  | empty (i : Nat)
  | copy (i : Nat)
  deriving DecidableEq, Repr

section

variable {α : Type}

def Op.queue : Op α → Nat
  | .push i _ | .waitAndPopRef i | .waitAndPopPtr i | .tryPopRef i | .tryPopPtr i
  | .empty i | .copy i => i

/-- Run a member function on the i-th of the existing queues. -/
def onQueue (qs : List (List α)) (i : Nat) (c : Crit (List α) Failure (Result α)) :
    Outcome (List (List α)) (Result α) Failure :=
  let o := c.outcome (queueAt qs i)
  ⟨qs.set i o.shared, o.exit, o.notified⟩

/-- The copy constructor: the new queue comes into being with the copied contents. -/
def copyConstruct (qs : List (List α)) (i : Nat) (c : Crit (List α) Failure (List α)) :
    Outcome (List (List α)) (Result α) Failure :=
  let o := c.outcome (queueAt qs i)
  match o.exit with
  | .ret contents => ⟨qs.set i o.shared ++ [contents], .ret .copied, o.notified⟩
  | .thrown e => ⟨qs.set i o.shared, .thrown e, o.notified⟩
  | .wait => ⟨qs.set i o.shared, .wait, o.notified⟩

def body : Class → Op α → Bool → List (List α) → Outcome (List (List α)) (Result α) Failure
  | .ThreadSafeQueue, .push i v, fault, qs => onQueue qs i (ThreadSafeQueue.push fault v)
  | .ThreadSafeQueue, .waitAndPopRef i, fault, qs => onQueue qs i (ThreadSafeQueue.waitAndPopRef fault)
  | .ThreadSafeQueue, .waitAndPopPtr i, fault, qs => onQueue qs i (ThreadSafeQueue.waitAndPopPtr fault)
  | .ThreadSafeQueue, .tryPopRef i, fault, qs => onQueue qs i (ThreadSafeQueue.tryPopRef fault)
  | .ThreadSafeQueue, .tryPopPtr i, fault, qs => onQueue qs i (ThreadSafeQueue.tryPopPtr fault)
  | .ThreadSafeQueue, .empty i, _, qs => onQueue qs i ThreadSafeQueue.empty
  | .threadsafe_queue, .push i v, fault, qs => onQueue qs i (ThreadsafeQueue.push fault v)
  | .threadsafe_queue, .waitAndPopRef i, fault, qs => onQueue qs i (ThreadsafeQueue.waitAndPopRef fault)
  | .threadsafe_queue, .waitAndPopPtr i, fault, qs => onQueue qs i (ThreadsafeQueue.waitAndPopPtr fault)
  | .threadsafe_queue, .tryPopRef i, fault, qs => onQueue qs i (ThreadsafeQueue.tryPopRef fault)
  | .threadsafe_queue, .tryPopPtr i, fault, qs => onQueue qs i (ThreadsafeQueue.tryPopPtr fault)
  | .threadsafe_queue, .empty i, _, qs => onQueue qs i ThreadsafeQueue.empty
  | _, .copy i, fault, qs => copyConstruct qs i (copyContents fault)

/-- Only ThreadSafeQueue::push takes its argument by value. -/
def byValue : Class → Op α → Bool
  | .ThreadSafeQueue, .push _ _ => true
  | _, _ => false

def monitor (α : Type) (c : Class) :
    Monitor Nat (List (List α)) (Op α) Bool (Result α) Failure where
  lockOf := Op.queue
  ready qs op := op.queue < qs.length
  byValue := byValue c
  body := body c

abbrev QueueState (α τ : Type) := State Nat (List (List α)) (Op α) τ

abbrev QueueLabel (α τ : Type) := Label (Op α) Bool τ

/-- Any number of queues used by any number of threads. -/
abbrev machine (c : Class) (τ : Type) [DecidableEq τ] [Fintype τ] (qs : List (List α)) :
    Machine (QueueState α τ) (QueueLabel α τ) := (monitor α c).machine qs

end

end LinuxPractice.Queue
