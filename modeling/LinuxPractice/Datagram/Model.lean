import LinuxPractice.Framework.Progress
import LinuxPractice.Framework.Network
import LinuxPractice.Framework.Words
import LinuxPractice.Echo.Lines

namespace LinuxPractice.Datagram

open Echo (Byte nul MAXLINE cstr fgets)

def RTT_MAXNREXMT : Nat := 3

/-- sizeof(struct hdr): two uint32_t. -/
def hdrSize : Nat := 8

/-- sendhdr as Sendmsg gathers it: the sequence number and the timestamp. -/
def hdr (seq ts : Nat) : List Byte := Words.bytes 4 seq ++ Words.bytes 4 ts

/-- hdr.seq of a header in memory. -/
def hdrSeq (h : List Byte) : Nat := Words.value (h.take 4)

/-- Where dg_cli stands: at Fgets, before Sendmsg, in Recvmsg with the alarm running, out
of the do loop with the datagram of n bytes it was waiting for but before alarm(0), behind
Dg_send_recv with the value it returned, or out of the loop, at the end of the input or by
way of err_quit("dg_send_recv error"). -/
inductive ClientPc
  | fgets
  | sendagain
  | recvmsg
  | matched (n : Nat)
  | returned (n : Nat)
  | exited
  | errQuit
  deriving DecidableEq

/-- seq is sendhdr.seq and nrexmt is rttinfo.rtt_nrexmt; both are static, as is recvhdr. -/
structure Client where
  fp : List Byte
  sendline : List Byte
  seq : Nat
  nrexmt : Nat
  recvhdr : List Byte
  recvline : List Byte
  stdout : List Byte
  pc : ClientPc

/-- A local step, Sendmsg at the time ts, a Recvmsg that gets datagram i, or SIGALRM. -/
inductive Act
  | go
  | send (ts : Nat)
  | recv (i : Nat)
  | alarm
  deriving DecidableEq

/-- bytes written to the start of a buffer. -/
def overwrite (buf bytes : List Byte) : List Byte := bytes ++ buf.drop bytes.length

/-- recvline[n] = 0. -/
def terminate (buf : List Byte) (n : Nat) : List Byte := buf.take n ++ nul :: buf.drop (n + 1)

/-- One Recvmsg of dg_send_recv and the test of its loop: the header goes to recvhdr and
what follows it to recvline. -/
def Client.receive (c : Client) (d : List Byte) : Client :=
  let n := min d.length (hdrSize + MAXLINE)
  let recvhdr := overwrite c.recvhdr (d.take hdrSize)
  { c with
    recvhdr := recvhdr
    recvline := overwrite c.recvline ((d.take n).drop hdrSize)
    pc := if n < hdrSize ∨ hdrSeq recvhdr ≠ c.seq then .recvmsg else .matched n }

/-- sig_alrm jumps back into dg_send_recv, which retransmits or gives up. -/
def Client.timeout (c : Client) : Client :=
  { c with
    nrexmt := c.nrexmt + 1
    pc := if RTT_MAXNREXMT < c.nrexmt + 1 then .errQuit else .sendagain }

/-- dg_cli and dg_send_recv on a socket that sends on up and receives on down. -/
def Client.step (c : Client) (up down : List (List Byte)) :
    Act → Option (Client × List (List Byte) × List (List Byte))
  | .go =>
    match c.pc with
    | .fgets =>
      match fgets MAXLINE c.fp with
      | none => some ({ c with pc := .exited }, up, down)
      | some (line, fp) =>
        some ({ c with
          fp := fp, sendline := line, seq := (c.seq + 1) % 2 ^ 32, nrexmt := 0,
          pc := .sendagain }, up, down)
    | .matched n => some ({ c with pc := .returned (n - hdrSize) }, up, down)
    | .returned n =>
      let recvline := terminate c.recvline n
      some ({ c with recvline := recvline, stdout := c.stdout ++ cstr recvline, pc := .fgets },
        up, down)
    | _ => none
  | .send ts =>
    match c.pc with
    | .sendagain => some ({ c with pc := .recvmsg }, up ++ [hdr c.seq ts ++ cstr c.sendline], down)
    | _ => none
  | .recv i =>
    match c.pc with
    | .recvmsg => (Network.receive down i).map fun o => (c.receive o.1, up, o.2)
    | _ => none
  | .alarm =>
    match c.pc with
    | .recvmsg | .matched _ => some (c.timeout, up, down)
    | _ => none

inductive ServerPc
  | recvfrom
  | sendto (mesg : List Byte)
  deriving DecidableEq

/-- The client, the server and the datagrams in flight in both directions. -/
structure Session where
  client : Client
  server : ServerPc
  up : List (List Byte)
  down : List (List Byte)

inductive Label
  | client (a : Act)
  | serve (i : Nat)
  | reply
  | loseUp (i : Nat)
  | loseDown (i : Nat)
  | copyUp (i : Nat)
  | copyDown (i : Nat)
  deriving DecidableEq

/-- dg_echo takes a datagram, of which mesg holds MAXLINE bytes, and sends it back; the
network loses, duplicates and reorders. -/
def Session.step (s : Session) : Label → Option Session
  | .client a =>
    (s.client.step s.up s.down a).map fun o =>
      { s with client := o.1, up := o.2.1, down := o.2.2 }
  | .serve i =>
    match s.server with
    | .recvfrom =>
      (Network.receive s.up i).map fun o =>
        { s with server := .sendto (o.1.take MAXLINE), up := o.2 }
    | .sendto _ => none
  | .reply =>
    match s.server with
    | .recvfrom => none
    | .sendto mesg => some { s with server := .recvfrom, down := s.down ++ [mesg] }
  | .loseUp i => (Network.lose s.up i).map fun up => { s with up := up }
  | .loseDown i => (Network.lose s.down i).map fun down => { s with down := down }
  | .copyUp i => (Network.duplicate s.up i).map fun up => { s with up := up }
  | .copyDown i => (Network.duplicate s.down i).map fun down => { s with down := down }

/-- recvhdr is static and zero at first; recvline is an uninitialised local. -/
def Session.start (fp buf : List Byte) : Session where
  client := ⟨fp, [], 0, 0, List.replicate hdrSize nul, buf, [], .fgets⟩
  server := .recvfrom
  up := []
  down := []

def session (fp buf : List Byte) : Machine Session Label := ⟨Session.start fp buf, Session.step⟩

/-- Everything a step of the client can do. -/
inductive ClientMove (c : Client) (up down : List (List Byte)) :
    Act → Client → List (List Byte) → List (List Byte) → Prop
  | eof (hpc : c.pc = .fgets) (hin : fgets MAXLINE c.fp = none) :
      ClientMove c up down .go { c with pc := .exited } up down
  | line (line fp : List Byte) (hpc : c.pc = .fgets)
      (hin : fgets MAXLINE c.fp = some (line, fp)) :
      ClientMove c up down .go
        { c with
          fp := fp, sendline := line, seq := (c.seq + 1) % 2 ^ 32, nrexmt := 0,
          pc := .sendagain } up down
  | stop (n : Nat) (hpc : c.pc = .matched n) :
      ClientMove c up down .go { c with pc := .returned (n - hdrSize) } up down
  | fputs (n : Nat) (hpc : c.pc = .returned n) :
      ClientMove c up down .go
        { c with
          recvline := terminate c.recvline n
          stdout := c.stdout ++ cstr (terminate c.recvline n), pc := .fgets } up down
  | send (ts : Nat) (hpc : c.pc = .sendagain) :
      ClientMove c up down (.send ts) { c with pc := .recvmsg }
        (up ++ [hdr c.seq ts ++ cstr c.sendline]) down
  | recv (i : Nat) (d : List Byte) (down' : List (List Byte)) (hpc : c.pc = .recvmsg)
      (hd : Network.receive down i = some (d, down')) :
      ClientMove c up down (.recv i) (c.receive d) up down'
  | alarm (hpc : c.pc = .recvmsg ∨ ∃ n, c.pc = .matched n) :
      ClientMove c up down .alarm c.timeout up down

theorem clientMove_of_step {c c' : Client} {up down up' down' : List (List Byte)} {a : Act}
    (h : c.step up down a = some (c', up', down')) : ClientMove c up down a c' up' down' := by
  cases a with
  | go =>
    simp only [Client.step] at h
    split at h
    · rename_i hpc
      split at h
      · rename_i hin
        cases h
        exact .eof hpc hin
      · rename_i line fp hin
        cases h
        exact .line line fp hpc hin
    · rename_i n hpc
      cases h
      exact .stop n hpc
    · rename_i n hpc
      cases h
      exact .fputs n hpc
    · cases h
  | send ts =>
    simp only [Client.step] at h
    split at h
    · rename_i hpc
      cases h
      exact .send ts hpc
    · cases h
  | recv i =>
    simp only [Client.step] at h
    split at h
    · rename_i hpc
      obtain ⟨⟨d, down₁⟩, hd, ho⟩ := Option.map_eq_some_iff.mp h
      cases ho
      exact .recv i d _ hpc hd
    · cases h
  | alarm =>
    simp only [Client.step] at h
    split at h
    · rename_i hpc
      cases h
      exact .alarm (.inl hpc)
    · rename_i n hpc
      cases h
      exact .alarm (.inr ⟨n, hpc⟩)
    · cases h

/-- Everything a step of the session can do. -/
inductive Move (s : Session) : Label → Session → Prop
  | client (a : Act) (c' : Client) (up' down' : List (List Byte))
      (hm : ClientMove s.client s.up s.down a c' up' down') :
      Move s (.client a) { s with client := c', up := up', down := down' }
  | serve (i : Nat) (d : List Byte) (up' : List (List Byte)) (hpc : s.server = .recvfrom)
      (hd : Network.receive s.up i = some (d, up')) :
      Move s (.serve i) { s with server := .sendto (d.take MAXLINE), up := up' }
  | reply (mesg : List Byte) (hpc : s.server = .sendto mesg) :
      Move s .reply { s with server := .recvfrom, down := s.down ++ [mesg] }
  | up (l : Label) (up' : List (List Byte)) (hsub : up' ⊆ s.up)
      (hl : ∀ a, l ≠ .client a) : Move s l { s with up := up' }
  | down (l : Label) (down' : List (List Byte)) (hsub : down' ⊆ s.down)
      (hl : ∀ a, l ≠ .client a) : Move s l { s with down := down' }

theorem move_of_step {s s' : Session} {l : Label} (h : s.step l = some s') : Move s l s' := by
  cases l with
  | client a =>
    obtain ⟨⟨c', up', down'⟩, hc, rfl⟩ := Option.map_eq_some_iff.mp h
    exact .client a c' up' down' (clientMove_of_step hc)
  | serve i =>
    simp only [Session.step] at h
    split at h
    · rename_i hpc
      obtain ⟨⟨d, up'⟩, hd, rfl⟩ := Option.map_eq_some_iff.mp h
      exact .serve i d up' hpc hd
    · cases h
  | reply =>
    simp only [Session.step] at h
    split at h
    · cases h
    · rename_i mesg hpc
      cases h
      exact .reply mesg hpc
  | loseUp i =>
    obtain ⟨up', hu, rfl⟩ := Option.map_eq_some_iff.mp h
    exact .up _ up' (Network.lose_eq_some hu) (fun _ => nofun)
  | loseDown i =>
    obtain ⟨down', hd, rfl⟩ := Option.map_eq_some_iff.mp h
    exact .down _ down' (Network.lose_eq_some hd) (fun _ => nofun)
  | copyUp i =>
    obtain ⟨up', hu, rfl⟩ := Option.map_eq_some_iff.mp h
    exact .up _ up' (Network.duplicate_eq_some hu) (fun _ => nofun)
  | copyDown i =>
    obtain ⟨down', hd, rfl⟩ := Option.map_eq_some_iff.mp h
    exact .down _ down' (Network.duplicate_eq_some hd) (fun _ => nofun)

end LinuxPractice.Datagram
