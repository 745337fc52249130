import LinuxPractice.Framework.Machine
import LinuxPractice.Framework.Descriptors
import LinuxPractice.Math.Total
import LinuxPractice.Echo.Lines
import Mathlib.Data.Fin.Tuple.Basic
import Mathlib.Data.Finset.Lattice.Basic

namespace LinuxPractice.Web.Nonblocking

open Echo (MAXLINE)

/-- f_flags: 0, F_CONNECTING, F_READING and F_DONE. -/
inductive Flags
  | unused
  | connecting
  | reading
  | done
  deriving DecidableEq

/-- An entry of file[], with what the server has left to send of it. -/
structure File where
  flags : Flags
  fd : Nat
  left : Nat

/-- Where main stands: at the tests of its two while loops, in Select, in its for loop with
what Select has stored in rs and ws, or at one of its ends. -/
inductive Pc
  | loop
  | create
  | select
  | scan (i : Nat) (rs ws : Finset Nat)
  | exited
  | errQuit
  deriving DecidableEq

/-- What an open descriptor of the process is. -/
inductive Object (n : Nat)
  | inherited
  | socket (i : Fin n)
  deriving DecidableEq

structure State (n : Nat) where
  pc : Pc
  nconn : Int
  nlefttoconn : Int
  nlefttoread : Int
  maxfd : Int
  rset : Finset Nat
  wset : Finset Nat
  table : Descriptors.Table (Object n)
  file : Fin n → File

/-- A step of main without a choice, a connect that is done at once or in progress, a Select
that reports the given descriptors, or a Read that returns k. -/
inductive Label
  | step
  | connect (done : Bool)
  | select (rs ws : Finset Nat)
  | read (k : Nat)
  deriving DecidableEq

variable {n : Nat}

def State.setFile (s : State n) (i : Fin n) (f : File) : State n :=
  { s with file := Function.update s.file i f }

/-- The first file that nobody has asked for. -/
def State.firstUnused (s : State n) : Option (Fin n) :=
  Fin.find? fun i => decide ((s.file i).flags = .unused)

/-- write_get_cmd(&file[i]) -/
def State.writeGetCmd (s : State n) (i : Fin n) : State n :=
  let fd := (s.file i).fd
  { s.setFile i { s.file i with flags := .reading } with
    rset := insert fd s.rset
    maxfd := max s.maxfd fd }

/-- start_connect(&file[i]), with a connect that is done at once or is in progress. -/
def State.startConnect (s : State n) (i : Fin n) (done : Bool) : State n :=
  let fd := Descriptors.lowestUnused s.table
  let s := { s.setFile i { s.file i with fd := fd } with table := Descriptors.install (.socket i) s.table }
  if done then s.writeGetCmd i
  else
    { s.setFile i { s.file i with flags := .connecting } with
      rset := insert fd s.rset
      wset := insert fd s.wset
      maxfd := max s.maxfd fd }

/-- The socket of file[i] is reported, so that its connect is done. -/
def Connected (s : State n) (i : Fin n) (rs ws : Finset Nat) : Prop :=
  (s.file i).flags = .connecting ∧ ((s.file i).fd ∈ rs ∨ (s.file i).fd ∈ ws)

/-- The socket of file[i] is reported and read. -/
def Reads (s : State n) (i : Fin n) (rs : Finset Nat) : Prop :=
  (s.file i).flags = .reading ∧ (s.file i).fd ∈ rs

instance (s : State n) (i : Fin n) (rs ws : Finset Nat) : Decidable (Connected s i rs ws) :=
  inferInstanceAs (Decidable (_ ∧ _))

instance (s : State n) (i : Fin n) (rs : Finset Nat) : Decidable (Reads s i rs) :=
  inferInstanceAs (Decidable (_ ∧ _))

/-- What Select may report: watched descriptors up to maxfd, and at least one. -/
def Reports (s : State n) (rs ws : Finset Nat) : Prop :=
  rs ⊆ s.rset ∧ ws ⊆ s.wset ∧ (∀ fd ∈ rs ∪ ws, (fd : Int) ≤ s.maxfd) ∧ rs ∪ ws ≠ ∅

instance (s : State n) (rs ws : Finset Nat) : Decidable (Reports s rs ws) :=
  inferInstanceAs (Decidable (_ ∧ _))

/-- The end of the reply: Close, F_DONE and FD_CLR. -/
def State.finish (s : State n) (i : Fin n) : State n :=
  let fd := (s.file i).fd
  { s.setFile i { s.file i with flags := .done } with
    table := Descriptors.close s.table fd
    rset := s.rset.erase fd
    nconn := s.nconn - 1
    nlefttoread := s.nlefttoread - 1 }

/-- main() after home_page. -/
def step (maxnconn : Int) (s : State n) : Label → Option (State n)
  | .step =>
    match s.pc with
    | .loop => some { s with pc := if 0 < s.nlefttoread then .create else .exited }
    | .create =>
      if s.nconn < maxnconn ∧ 0 < s.nlefttoconn then
        match s.firstUnused with
        | none => some { s with pc := .errQuit }
        | some _ => none
      else some { s with pc := .select }
    | .scan i rs ws =>
      if h : i < n then
        if Connected s ⟨i, h⟩ rs ws then
          some { ({ s with wset := s.wset.erase (s.file ⟨i, h⟩).fd } : State n).writeGetCmd ⟨i, h⟩ with
            pc := .scan (i + 1) rs ws }
        else if Reads s ⟨i, h⟩ rs then none
        else some { s with pc := .scan (i + 1) rs ws }
      else some { s with pc := .loop }
    | _ => none
  | .connect done =>
    match s.pc with
    | .create =>
      if s.nconn < maxnconn ∧ 0 < s.nlefttoconn then
        s.firstUnused.map fun i =>
          { s.startConnect i done with nconn := s.nconn + 1, nlefttoconn := s.nlefttoconn - 1 }
      else none
    | _ => none
  | .select rs ws =>
    match s.pc with
    | .select => if Reports s rs ws then some { s with pc := .scan 0 rs ws } else none
    | _ => none
  | .read k =>
    match s.pc with
    | .scan i rs ws =>
      if h : i < n then
        if Connected s ⟨i, h⟩ rs ws then none
        else if Reads s ⟨i, h⟩ rs then
          let f := s.file ⟨i, h⟩
          if k = 0 then
            if f.left = 0 then some { s.finish ⟨i, h⟩ with pc := .scan (i + 1) rs ws } else none
          else if k ≤ MAXLINE ∧ k ≤ f.left then
            some { s.setFile ⟨i, h⟩ { f with left := f.left - k } with pc := .scan (i + 1) rs ws }
          else none
        else none
      else none
    | _ => none

/-- Before the first connection, with the descriptors that are open then. -/
def State.start (isOpen : List Bool) (reply : Fin n → Nat) : State n where
  pc := .loop
  nconn := 0
  nlefttoconn := n
  nlefttoread := n
  maxfd := -1
  rset := ∅
  wset := ∅
  table := isOpen.map fun b => if b then some .inherited else none
  file i := ⟨.unused, 0, reply i⟩

/-- The program with maxnconn connections at a time for n files. -/
def web (maxnconn : Int) (isOpen : List Bool) (reply : Fin n → Nat) : Machine (State n) Label :=
  ⟨.start isOpen reply, step maxnconn⟩

/-- Everything a step can do. -/
inductive Move (maxnconn : Int) (s : State n) : Label → State n → Prop
  | go (hpc : s.pc = .loop) (h : 0 < s.nlefttoread) : Move maxnconn s .step { s with pc := .create }
  | exit (hpc : s.pc = .loop) (h : s.nlefttoread ≤ 0) : Move maxnconn s .step { s with pc := .exited }
  | quit (hpc : s.pc = .create) (hleft : 0 < s.nlefttoconn) (hi : s.firstUnused = none) :
      Move maxnconn s .step { s with pc := .errQuit }
  | created (hpc : s.pc = .create) (h : maxnconn ≤ s.nconn ∨ s.nlefttoconn ≤ 0) :
      Move maxnconn s .step { s with pc := .select }
  | connect (i : Fin n) (done : Bool) (hpc : s.pc = .create) (hconn : s.nconn < maxnconn)
      (hleft : 0 < s.nlefttoconn) (hi : s.firstUnused = some i) :
      Move maxnconn s (.connect done)
        { s.startConnect i done with nconn := s.nconn + 1, nlefttoconn := s.nlefttoconn - 1 }
  | select (rs ws : Finset Nat) (hpc : s.pc = .select) (hr : Reports s rs ws) :
      Move maxnconn s (.select rs ws) { s with pc := .scan 0 rs ws }
  | connected (i : Fin n) (rs ws : Finset Nat) (hpc : s.pc = .scan i rs ws) (hc : Connected s i rs ws) :
      Move maxnconn s .step
        { ({ s with wset := s.wset.erase (s.file i).fd } : State n).writeGetCmd i with
          pc := .scan (i + 1) rs ws }
  | eof (i : Fin n) (rs ws : Finset Nat) (hpc : s.pc = .scan i rs ws) (hr : Reads s i rs)
      (hleft : (s.file i).left = 0) :
      Move maxnconn s (.read 0) { s.finish i with pc := .scan (i + 1) rs ws }
  | data (i : Fin n) (rs ws : Finset Nat) (k : Nat) (hpc : s.pc = .scan i rs ws) (hr : Reads s i rs)
      (hk : 0 < k) (hle : k ≤ (s.file i).left) :
      Move maxnconn s (.read k)
        { s.setFile i { s.file i with left := (s.file i).left - k } with pc := .scan (i + 1) rs ws }
  | skip (i : Fin n) (rs ws : Finset Nat) (hpc : s.pc = .scan i rs ws) (hc : ¬Connected s i rs ws)
      (hr : ¬Reads s i rs) : Move maxnconn s .step { s with pc := .scan (i + 1) rs ws }
  | scanned (i : Nat) (rs ws : Finset Nat) (hpc : s.pc = .scan i rs ws) (h : n ≤ i) :
      Move maxnconn s .step { s with pc := .loop }

theorem move_of_step {maxnconn : Int} {s s' : State n} {l : Label} (h : step maxnconn s l = some s') :
    Move maxnconn s l s' := by
  cases l with
  | step =>
    simp only [step] at h
    split at h
    · rename_i hpc
      by_cases hleft : 0 < s.nlefttoread
      · rw [if_pos hleft] at h
        cases h
        exact .go hpc hleft
      · rw [if_neg hleft] at h
        cases h
        exact .exit hpc (Int.not_lt.mp hleft)
    · rename_i hpc
      split at h
      · rename_i hc
        split at h
        · rename_i hi
          cases h
          exact .quit hpc hc.2 hi
        · cases h
      · rename_i hc
        cases h
        refine .created hpc ?_
        omega
    · rename_i i rs ws hpc
      split at h
      · rename_i hi
        split at h
        · rename_i hc
          cases h
          exact .connected ⟨i, hi⟩ rs ws hpc hc
        · rename_i hc
          split at h
          · cases h
          · rename_i hr
            cases h
            exact .skip ⟨i, hi⟩ rs ws hpc hc hr
      · rename_i hi
        cases h
        exact .scanned i rs ws hpc (Nat.le_of_not_lt hi)
    · cases h
  | connect done =>
    simp only [step] at h
    split at h
    · rename_i hpc
      split at h
      · rename_i hc
        obtain ⟨i, hi, rfl⟩ := Option.map_eq_some_iff.mp h
        exact .connect i done hpc hc.1 hc.2 hi
      · cases h
    · cases h
  | select rs ws =>
    simp only [step] at h
    split at h
    · rename_i hpc
      split at h
      · rename_i hr
        cases h
        exact .select rs ws hpc hr
      · cases h
    · cases h
  | read k =>
    simp only [step] at h
    split at h
    · rename_i i rs ws hpc
      split at h
      · rename_i hi
        split at h
        · cases h
        · split at h
          · rename_i hr
            split at h
            · rename_i hk
              split at h
              · rename_i hleft
                cases h
                subst hk
                exact .eof ⟨i, hi⟩ rs ws hpc hr hleft
              · cases h
            · rename_i hk
              split at h
              · rename_i hle
                cases h
                exact .data ⟨i, hi⟩ rs ws k hpc hr (Nat.pos_of_ne_zero hk) hle.2
              · cases h
          · cases h
      · cases h
    · cases h

end LinuxPractice.Web.Nonblocking
