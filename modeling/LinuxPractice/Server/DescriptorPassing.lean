import LinuxPractice.Framework.Machine
import LinuxPractice.Math.Total
import Mathlib.Data.Fin.Tuple.Basic
import Mathlib.Data.Multiset.Range
import Mathlib.Algebra.Order.Group.Multiset

namespace LinuxPractice.DescriptorPassing

/-- Where child_main stands: in Read_fd, in web_child with a connection, or at the Write that
tells the parent it is ready again. -/
inductive ChildPc
  | readFd
  | serving (connfd : Nat)
  | write
  deriving DecidableEq

/-- A child with its entry of cptr[] and what is in its stream pipe: descriptors on their way
to it and bytes on their way back. -/
structure Child where
  status : Bool
  count : Nat
  passed : List Nat
  ready : Nat
  pc : ChildPc

/-- Where the parent stands: in Select, at Accept with the children that Select has reported
and what is left of nsel, in its for loop, or behind err_quit("no available children"). -/
inductive Pc (n : Nat)
  | select
  | accept (rset : Finset (Fin n)) (nsel : Nat)
  | scan (i : Nat) (rset : Finset (Fin n)) (nsel : Nat)
  | errQuit
  deriving DecidableEq

/-- Connections are named by the order in which they are accepted; backlog counts those that
wait for it. served are the ones a child has closed. -/
structure State (n : Nat) where
  pc : Pc n
  navail : Int
  backlog : Nat
  accepted : Nat
  served : List Nat
  child : Fin n → Child

/-- A client connects, the parent goes on, or a child reads a descriptor, is done with its
connection or writes to the parent. -/
inductive Label (n : Nat)
  | arrive
  | parent
  | readFd (i : Fin n)
  | finish (i : Fin n)
  | write (i : Fin n)
  deriving DecidableEq

variable {n : Nat}

def State.setChild (s : State n) (i : Fin n) (c : Child) : State n :=
  { s with child := Function.update s.child i c }

/-- The children whose stream pipe is readable. -/
def State.readable (s : State n) : Finset (Fin n) := Finset.univ.filter fun i => 0 < (s.child i).ready

/-- The first available child. -/
def State.available (s : State n) : Option (Fin n) := Fin.find? fun i => !(s.child i).status

/-- Select watches the listening socket only while a child is available. -/
def selectStep (s : State n) : Option (State n) :=
  if 0 < s.navail ∧ 0 < s.backlog then
    some { s with pc := .accept s.readable (s.readable.card + 1) }
  else if s.readable = ∅ then none
  else some { s with pc := .scan 0 s.readable s.readable.card }

/-- A new connection is passed to the first available child. -/
def acceptStep (s : State n) (rset : Finset (Fin n)) (nsel : Nat) : Option (State n) :=
  if s.backlog = 0 then none
  else
    let connfd := s.accepted
    let s := { s with backlog := s.backlog - 1, accepted := s.accepted + 1 }
    match s.available with
    | none => some { s with pc := .errQuit }
    | some i =>
      let c := s.child i
      some { s.setChild i { c with status := true, count := c.count + 1, passed := c.passed ++ [connfd] } with
        navail := s.navail - 1
        pc := if nsel - 1 = 0 then .select else .scan 0 rset (nsel - 1) }

/-- Newly available children are found among those that Select has reported. -/
def scanStep (s : State n) (i : Nat) (rset : Finset (Fin n)) (nsel : Nat) : Option (State n) :=
  if h : i < n then
    if ⟨i, h⟩ ∈ rset then
      let c := s.child ⟨i, h⟩
      if c.ready = 0 then none
      else
        some { s.setChild ⟨i, h⟩ { c with status := false, ready := c.ready - 1 } with
          navail := s.navail + 1
          pc := if nsel - 1 = 0 then .select else .scan (i + 1) rset (nsel - 1) }
    else some { s with pc := .scan (i + 1) rset nsel }
  else some { s with pc := .select }

def parentStep (s : State n) : Option (State n) :=
  match s.pc with
  | .select => selectStep s
  | .accept rset nsel => acceptStep s rset nsel
  | .scan i rset nsel => scanStep s i rset nsel
  | .errQuit => none

def step (s : State n) : Label n → Option (State n)
  | .arrive => some { s with backlog := s.backlog + 1 }
  | .parent => parentStep s
  | .readFd i =>
    match (s.child i).pc, (s.child i).passed with
    | .readFd, c :: passed => some (s.setChild i { s.child i with passed := passed, pc := .serving c })
    | _, _ => none
  | .finish i =>
    match (s.child i).pc with
    | .serving c => some { s.setChild i { s.child i with pc := .write } with served := s.served ++ [c] }
    | _ => none
  | .write i =>
    match (s.child i).pc with
    | .write => some (s.setChild i { s.child i with ready := (s.child i).ready + 1, pc := .readFd })
    | _ => none

def State.start (n : Nat) : State n := ⟨.select, n, 0, 0, [], fun _ => ⟨false, 0, [], 0, .readFd⟩⟩

/-- The preforked server with nchildren = n. -/
def server (n : Nat) : Machine (State n) (Label n) := ⟨.start n, step⟩

/-- Everything a step of the parent can do. -/
inductive ParentMove (s : State n) : State n → Prop
  | listening (hpc : s.pc = .select) (hav : 0 < s.navail) (hback : 0 < s.backlog) :
      ParentMove s { s with pc := .accept s.readable (s.readable.card + 1) }
  | children (hpc : s.pc = .select) (hne : s.readable ≠ ∅) :
      ParentMove s { s with pc := .scan 0 s.readable s.readable.card }
  | quit (rset : Finset (Fin n)) (nsel : Nat) (hpc : s.pc = .accept rset nsel) (hi : s.available = none) :
      ParentMove s { s with backlog := s.backlog - 1, accepted := s.accepted + 1, pc := .errQuit }
  | pass (rset : Finset (Fin n)) (nsel : Nat) (i : Fin n) (hpc : s.pc = .accept rset nsel)
      (hi : s.available = some i) :
      ParentMove s { s.setChild i { s.child i with
          status := true, count := (s.child i).count + 1, passed := (s.child i).passed ++ [s.accepted] } with
        backlog := s.backlog - 1, accepted := s.accepted + 1, navail := s.navail - 1
        pc := if nsel - 1 = 0 then .select else .scan 0 rset (nsel - 1) }
  | found (i : Fin n) (rset : Finset (Fin n)) (nsel : Nat) (hpc : s.pc = .scan i rset nsel) (hi : i ∈ rset)
      (hready : 0 < (s.child i).ready) :
      ParentMove s { s.setChild i { s.child i with status := false, ready := (s.child i).ready - 1 } with
        navail := s.navail + 1
        pc := if nsel - 1 = 0 then .select else .scan (i + 1) rset (nsel - 1) }
  | skip (i : Fin n) (rset : Finset (Fin n)) (nsel : Nat) (hpc : s.pc = .scan i rset nsel) (hi : i ∉ rset) :
      ParentMove s { s with pc := .scan (i + 1) rset nsel }
  | scanned (i : Nat) (rset : Finset (Fin n)) (nsel : Nat) (hpc : s.pc = .scan i rset nsel) (h : n ≤ i) :
      ParentMove s { s with pc := .select }

theorem parentMove_of_step {s s' : State n} (h : parentStep s = some s') : ParentMove s s' := by
  unfold parentStep at h
  split at h
  · rename_i hpc
    unfold selectStep at h
    split at h
    · rename_i hc
      cases h
      exact .listening hpc hc.1 hc.2
    · split at h
      · cases h
      · rename_i hne
        cases h
        exact .children hpc hne
  · rename_i rset nsel hpc
    unfold acceptStep at h
    split at h
    · cases h
    · simp only at h
      split at h
      · rename_i hi
        cases h
        exact .quit rset nsel hpc hi
      · rename_i i hi
        cases h
        exact .pass rset nsel i hpc hi
  · rename_i i rset nsel hpc
    unfold scanStep at h
    split at h
    · rename_i hi
      split at h
      · rename_i hin
        simp only at h
        split at h
        · cases h
        · rename_i hready
          cases h
          exact .found ⟨i, hi⟩ rset nsel hpc hin (Nat.pos_of_ne_zero hready)
      · rename_i hin
        cases h
        exact .skip ⟨i, hi⟩ rset nsel hpc hin
    · rename_i hi
      cases h
      exact .scanned i rset nsel hpc (Nat.le_of_not_lt hi)
  · cases h

/-- Everything a step of a child can do. -/
inductive ChildMove (s : State n) (i : Fin n) : Label n → State n → Prop
  | readFd (c : Nat) (passed : List Nat) (hpc : (s.child i).pc = .readFd)
      (hpass : (s.child i).passed = c :: passed) :
      ChildMove s i (.readFd i) (s.setChild i { s.child i with passed := passed, pc := .serving c })
  | finish (c : Nat) (hpc : (s.child i).pc = .serving c) :
      ChildMove s i (.finish i)
        { s.setChild i { s.child i with pc := .write } with served := s.served ++ [c] }
  | write (hpc : (s.child i).pc = .write) :
      ChildMove s i (.write i)
        (s.setChild i { s.child i with ready := (s.child i).ready + 1, pc := .readFd })

/-- Everything a step can do. -/
theorem step_cases {s s' : State n} {l : Label n} (h : step s l = some s') :
    (l = .arrive ∧ s' = { s with backlog := s.backlog + 1 }) ∨ (l = .parent ∧ ParentMove s s') ∨
      ∃ i, ChildMove s i l s' := by
  cases l with
  | arrive =>
    cases h
    exact .inl ⟨rfl, rfl⟩
  | parent => exact .inr (.inl ⟨rfl, parentMove_of_step h⟩)
  | readFd i =>
    simp only [step] at h
    split at h
    · rename_i c passed hpc hpass
      cases h
      exact .inr (.inr ⟨i, .readFd c passed hpc hpass⟩)
    · cases h
  | finish i =>
    simp only [step] at h
    split at h
    · rename_i c hpc
      cases h
      exact .inr (.inr ⟨i, .finish c hpc⟩)
    · cases h
  | write i =>
    simp only [step] at h
    split at h
    · rename_i hpc
      cases h
      exact .inr (.inr ⟨i, .write hpc⟩)
    · cases h

end LinuxPractice.DescriptorPassing
