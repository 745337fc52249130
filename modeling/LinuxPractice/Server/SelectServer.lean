import Mathlib.Data.Finset.Card
import LinuxPractice.Framework.Machine
import LinuxPractice.Framework.Capacity
import LinuxPractice.Echo.Lines

namespace LinuxPractice.SelectServer

open Echo (Byte MAXLINE)

def FD_SETSIZE : Nat := 1024

/-- An open connection: what its client has sent so far, the part of that still to be read,
and what the server has written to it. -/
structure Conn where
  sent : List Byte
  up : Channel Byte
  echoed : List Byte

/-- A read on the connection would not block. -/
def Waiting : Option Conn → Prop
  | none => False
  | some c => c.up.Readable

instance (o : Option Conn) : Decidable (Waiting o) :=
  match o with
  | none => instDecidableFalse
  | some c => inferInstanceAs (Decidable c.up.Readable)

/-- The variables that one turn of the loop sets. -/
structure Turn where
  rset : Finset Nat
  nready : Int

/-- Where main stands: in Select; before the test of listenfd; at the head of the loop over
the clients; in Read or Writen for the client at i; or after err_quit("too many clients"). -/
inductive Pc
  | select
  | listening (t : Turn)
  | scan (i : Nat) (t : Turn)
  | read (i fd : Nat) (t : Turn)
  | writen (i fd : Nat) (rest : List Byte) (t : Turn)
  | errQuit

/-- The variables of main, with none for -1 in client, and the kernel's side: connections that
wait to be accepted, the open ones by descriptor, and those the server has closed. -/
structure State where
  client : List (Option Nat)
  maxi : Int
  maxfd : Nat
  allset : Finset Nat
  pc : Pc
  queue : Nat
  conns : Nat → Option Conn
  gone : List Conn

def State.start (listenfd : Nat) : State where
  client := List.replicate FD_SETSIZE none
  maxi := -1
  maxfd := listenfd
  allset := {listenfd}
  pc := .select
  queue := 0
  conns _ := none
  gone := []

/-- What Select finds ready. -/
def State.ready (listenfd : Nat) (s : State) (fd : Nat) : Prop :=
  if fd = listenfd then 0 < s.queue else Waiting (s.conns fd)

instance (listenfd : Nat) (s : State) (fd : Nat) : Decidable (s.ready listenfd fd) :=
  inferInstanceAs (Decidable (ite _ _ _))

/-- Steps of the server, where accept names the descriptor it is given and io what a call
returns, and of the clients. -/
inductive Label
  | select
  | accept (fd : Nat)
  | go
  | io (k : Nat)
  | connect
  | send (fd : Nat) (bytes : List Byte)
  | deliver (fd k : Nat)
  | shutdown (fd : Nat)

/-- if (--nready <= 0) break -/
def Turn.next (t : Turn) (i : Nat) : Pc :=
  if t.nready - 1 ≤ 0 then .select else .scan (i + 1) { t with nready := t.nready - 1 }

/-- The new connection goes into the first free entry of client. -/
def State.accept (s : State) (t : Turn) (fd : Nat) : State :=
  let i := s.client.findIdx Option.isNone
  let s := { s with queue := s.queue - 1, conns := Function.update s.conns fd (some ⟨[], .empty, []⟩) }
  if i = FD_SETSIZE then { s with pc := .errQuit }
  else
    { s with
      client := s.client.set i (some fd)
      allset := insert fd s.allset
      maxfd := if fd > s.maxfd then fd else s.maxfd
      maxi := if (i : Int) > s.maxi then i else s.maxi
      pc := if t.nready - 1 ≤ 0 then .select else .scan 0 { t with nready := t.nready - 1 } }

/-- The connection at fd has changed to c, and main has come to pc. -/
def State.setConn (s : State) (fd : Nat) (c : Conn) (pc : Pc) : State :=
  { s with conns := Function.update s.conns fd (some c), pc := pc }

/-- The connection at fd, of the client at i, is closed. -/
def State.hangup (s : State) (i fd : Nat) (c : Conn) (pc : Pc) : State :=
  { s with
    client := s.client.set i none
    allset := s.allset.erase fd
    conns := Function.update s.conns fd none
    gone := s.gone ++ [c]
    pc := pc }

def step (listenfd : Nat) (s : State) : Label → Option State
  | .select =>
    match s.pc with
    | .select =>
      let rset := s.allset.filter fun fd => fd < s.maxfd + 1 ∧ s.ready listenfd fd
      if rset = ∅ then none else some { s with pc := .listening ⟨rset, rset.card⟩ }
    | _ => none
  | .accept fd =>
    match s.pc with
    | .listening t =>
      if listenfd ∈ t.rset ∧ 0 < s.queue ∧ fd < FD_SETSIZE ∧ fd ≠ listenfd ∧
          (s.conns fd).isNone = true then some (s.accept t fd)
      else none
    | _ => none
  | .go =>
    match s.pc with
    | .listening t => if listenfd ∈ t.rset then none else some { s with pc := .scan 0 t }
    | .scan i t =>
      if (i : Int) ≤ s.maxi then
        match s.client[i]?.join with
        | none => some { s with pc := .scan (i + 1) t }
        | some fd =>
          if fd ∈ t.rset then some { s with pc := .read i fd t }
          else some { s with pc := .scan (i + 1) t }
      else some { s with pc := .select }
    | _ => none
  | .io k =>
    match s.pc with
    | .read i fd t =>
      (s.conns fd).bind fun c => (c.up.read MAXLINE k).map fun o =>
        match o.1 with
        | [] => s.hangup i fd c (t.next i)
        | b :: bs => s.setConn fd { c with up := o.2 } (.writen i fd (b :: bs) t)
    | .writen i fd rest t =>
      (s.conns fd).bind fun c =>
        if 0 < k ∧ k ≤ rest.length then
          some (s.setConn fd { c with echoed := c.echoed ++ rest.take k }
            (if rest.drop k = [] then t.next i else .writen i fd (rest.drop k) t))
        else none
    | _ => none
  | .connect => some { s with queue := s.queue + 1 }
  | .send fd bytes =>
    (s.conns fd).bind fun c =>
      if c.up.closed then none
      else some (s.setConn fd { c with
        sent := c.sent ++ bytes, up := { c.up with flight := c.up.flight ++ bytes } } s.pc)
  | .deliver fd k =>
    (s.conns fd).bind fun c => (c.up.deliver k).map fun up => s.setConn fd { c with up := up } s.pc
  | .shutdown fd => (s.conns fd).map fun c => s.setConn fd { c with up := c.up.close } s.pc

/-- main with the listening socket at listenfd. -/
def server (listenfd : Fin FD_SETSIZE) : Machine State Label := ⟨.start listenfd, step listenfd⟩

/-- What a client or the network does to a connection. -/
inductive PeerMove (c : Conn) : Conn → Prop
  | send (bytes : List Byte) (hc : c.up.closed = false) :
      PeerMove c { c with
        sent := c.sent ++ bytes, up := { c.up with flight := c.up.flight ++ bytes } }
  | deliver (k : Nat) (up : Channel Byte) (hd : c.up.deliver k = some up) :
      PeerMove c { c with up := up }
  | shutdown : PeerMove c { c with up := c.up.close }

/-- Everything a step can do. -/
inductive Move (listenfd : Nat) (s : State) : Label → State → Prop
  | select (t : Turn) (hpc : s.pc = .select)
      (hrset : t.rset = s.allset.filter fun fd => fd < s.maxfd + 1 ∧ s.ready listenfd fd)
      (hne : t.rset ≠ ∅) (hn : t.nready = t.rset.card) :
      Move listenfd s .select { s with pc := .listening t }
  | accept (t : Turn) (fd : Nat) (hpc : s.pc = .listening t) (hl : listenfd ∈ t.rset)
      (hlt : fd < FD_SETSIZE) (hne : fd ≠ listenfd) (hnone : s.conns fd = none) :
      Move listenfd s (.accept fd) (s.accept t fd)
  | noAccept (t : Turn) (hpc : s.pc = .listening t) (hl : listenfd ∉ t.rset) :
      Move listenfd s .go { s with pc := .scan 0 t }
  | visit (i fd : Nat) (t : Turn) (hpc : s.pc = .scan i t) (hfd : s.client[i]? = some (some fd))
      (hin : fd ∈ t.rset) : Move listenfd s .go { s with pc := .read i fd t }
  | skip (i : Nat) (t : Turn) (hpc : s.pc = .scan i t)
      (hno : ∀ fd, s.client[i]? = some (some fd) → fd ∉ t.rset) :
      Move listenfd s .go { s with pc := .scan (i + 1) t }
  | finish (i : Nat) (t : Turn) (hpc : s.pc = .scan i t) (hi : s.maxi < i) :
      Move listenfd s .go { s with pc := .select }
  | hangup (k i fd : Nat) (t : Turn) (c : Conn) (up : Channel Byte) (hpc : s.pc = .read i fd t)
      (hc : s.conns fd = some c) (hr : c.up.read MAXLINE k = some ([], up)) :
      Move listenfd s (.io k) (s.hangup i fd c (t.next i))
  | receive (k i fd : Nat) (t : Turn) (c : Conn) (bytes : List Byte) (up : Channel Byte)
      (hpc : s.pc = .read i fd t) (hc : s.conns fd = some c) (hne : bytes ≠ [])
      (hr : c.up.read MAXLINE k = some (bytes, up)) :
      Move listenfd s (.io k)
        (s.setConn fd { c with up := up } (.writen i fd bytes t))
  | write (k i fd : Nat) (rest : List Byte) (t : Turn) (c : Conn)
      (hpc : s.pc = .writen i fd rest t) (hc : s.conns fd = some c) :
      Move listenfd s (.io k)
        (s.setConn fd { c with echoed := c.echoed ++ rest.take k }
          (if rest.drop k = [] then t.next i else .writen i fd (rest.drop k) t))
  | connect : Move listenfd s .connect { s with queue := s.queue + 1 }
  | peer (l : Label) (fd : Nat) (c c' : Conn) (hl : ∀ k, l ≠ .io k) (hs : l ≠ .select)
      (hc : s.conns fd = some c) (hp : PeerMove c c') : Move listenfd s l (s.setConn fd c' s.pc)

theorem move_of_step {listenfd : Nat} {s s' : State} {l : Label}
    (h : step listenfd s l = some s') : Move listenfd s l s' := by
  cases l with
  | select =>
    simp only [step] at h
    split at h
    · rename_i hpc
      split at h
      · cases h
      · rename_i hne
        cases h
        exact .select _ hpc rfl hne rfl
    · cases h
  | accept fd =>
    simp only [step] at h
    split at h
    · rename_i t hpc
      split at h
      · rename_i hok
        cases h
        obtain ⟨hl, -, hlt, hne, hnone⟩ := hok
        exact .accept t fd hpc hl hlt hne (Option.isNone_iff_eq_none.mp hnone)
      · cases h
    · cases h
  | go =>
    simp only [step] at h
    split at h
    · rename_i t hpc
      split at h
      · cases h
      · rename_i hl
        cases h
        exact .noAccept t hpc hl
    · rename_i i t hpc
      split at h
      · split at h
        · rename_i hj
          cases h
          refine .skip i t hpc fun fd hfd => ?_
          rw [hfd] at hj
          cases hj
        · rename_i fd hj
          have hfd : s.client[i]? = some (some fd) := Option.join_eq_some_iff.mp hj
          split at h
          · rename_i hin
            cases h
            exact .visit i fd t hpc hfd hin
          · rename_i hin
            cases h
            refine .skip i t hpc fun fd' hfd' => ?_
            cases hfd.symm.trans hfd'
            exact hin
      · rename_i hi
        cases h
        exact .finish i t hpc (lt_of_not_ge hi)
    · cases h
  | io k =>
    simp only [step] at h
    split at h
    · rename_i i fd t hpc
      obtain ⟨c, hc, h⟩ := Option.bind_eq_some_iff.mp h
      obtain ⟨⟨bytes, up⟩, hr, ho⟩ := Option.map_eq_some_iff.mp h
      cases bytes with
      | nil =>
        cases ho
        exact .hangup k i fd t c up hpc hc hr
      | cons b bs =>
        cases ho
        exact .receive k i fd t c _ up hpc hc (List.cons_ne_nil b bs) hr
    · rename_i i fd rest t hpc
      obtain ⟨c, hc, h⟩ := Option.bind_eq_some_iff.mp h
      split at h
      · cases h
        exact .write k i fd rest t c hpc hc
      · cases h
    · cases h
  | connect =>
    cases h
    exact .connect
  | send fd bytes =>
    obtain ⟨c, hc, h⟩ := Option.bind_eq_some_iff.mp h
    split at h
    · cases h
    · rename_i hopen
      cases h
      exact .peer _ fd c _ nofun nofun hc (.send bytes (Bool.not_eq_true _ ▸ hopen))
  | deliver fd k =>
    obtain ⟨c, hc, h⟩ := Option.bind_eq_some_iff.mp h
    obtain ⟨up, hd, rfl⟩ := Option.map_eq_some_iff.mp h
    exact .peer _ fd c _ nofun nofun hc (.deliver k up hd)
  | shutdown fd =>
    obtain ⟨c, hc, rfl⟩ := Option.map_eq_some_iff.mp h
    exact .peer _ fd c _ nofun nofun hc .shutdown

end LinuxPractice.SelectServer
