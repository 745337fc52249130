import LinuxPractice.Framework.Progress
import LinuxPractice.Framework.Channel
import LinuxPractice.Echo.Lines

namespace LinuxPractice.Echo

/-- A local step of a process, a system call that returns k, or one that returns -1
with errno set to EINTR. -/
inductive Act
  | go
  | io (k : Nat)
  | eintr
  deriving DecidableEq

/-- Where my_str_cli stands: at Fgets, in Writen with the bytes it has left, in Readline
with its loop counter and the bytes it has stored, behind Readline with the value it
returned, or out of the loop, at the end of the input or by way of
err_quit("str_cli: server terminated prematurely"). -/
inductive ClientPc
  | fgets
  | writen (rest : List Byte)
  | readline (n : Nat) (got : List Byte)
  | returned (n : Nat) (recvline : List Byte)
  | exited
  | errQuit
  deriving DecidableEq

/-- readBuf is the part of read_buf that my_read has not handed out yet; it is static
and survives from one call of readline to the next. -/
structure Client where
  input : List Byte
  sendline : List Byte
  readBuf : List Byte
  stdout : List Byte
  pc : ClientPc

/-- One more byte in readline: a newline ends the loop, else n is incremented and tested. -/
def readlineNext (n : Nat) (got : List Byte) (c : Byte) : ClientPc :=
  if c = newline then .returned n (got ++ [c])
  else if n + 1 < MAXLINE then .readline (n + 1) (got ++ [c])
  else .returned (n + 1) (got ++ [c])

/-- my_str_cli on a socket that sends on up and receives on down. Both ways out of it
end the process, which closes the socket. -/
def Client.step (c : Client) (up down : Channel Byte) :
    Act → Option (Client × Channel Byte × Channel Byte)
  | .go =>
    match c.pc with
    | .fgets =>
      match fgets MAXLINE c.input with
      | none => some ({ c with pc := .exited }, up.close, down)
      | some (line, input) =>
        some ({ c with input := input, sendline := line, pc := .writen (cstr line) }, up, down)
    | .writen [] => some ({ c with pc := .readline 1 [] }, up, down)
    | .readline n got =>
      match c.readBuf with
      | [] => none
      | b :: readBuf => some ({ c with readBuf := readBuf, pc := readlineNext n got b }, up, down)
    | .returned n recvline =>
      if n = 0 then some ({ c with pc := .errQuit }, up.close, down)
      else some ({ c with stdout := c.stdout ++ cstr recvline, pc := .fgets }, up, down)
    | _ => none
  | .io k =>
    match c.pc with
    | .writen rest =>
      (up.write rest k).map fun o => ({ c with pc := .writen o.2 }, o.1, down)
    | .readline n got =>
      match c.readBuf with
      | [] =>
        (down.read MAXLINE k).map fun o =>
          match o.1 with
          | [] => ({ c with pc := .returned (n - 1) got }, up, o.2)
          | b :: bs => ({ c with readBuf := b :: bs }, up, o.2)
      | _ :: _ => none
    | _ => none
  | .eintr =>
    match c.pc with
    | .writen (_ :: _) => some (c, up, down)
    | .readline _ _ =>
      match c.readBuf with
      | [] => some (c, up, down)
      | _ :: _ => none
    | _ => none

inductive ServerPc
  | read
  | writen (rest : List Byte)
  | printf
  | exited
  deriving DecidableEq

/-- The server's buffer, uninitialised at first, and what each printf found in it: none
where the buffer holds no NUL and printf runs off its end. -/
structure Server where
  buf : List Byte
  log : List (Option (List Byte))
  pc : ServerPc

/-- my_str_echo on a socket that receives on up and sends on down. -/
def Server.step (s : Server) (up down : Channel Byte) :
    Act → Option (Server × Channel Byte × Channel Byte)
  | .go =>
    match s.pc with
    | .writen [] => some ({ s with pc := .printf }, up, down)
    | .printf =>
      let line := if nul ∈ s.buf then some (cstr s.buf) else none
      some (⟨List.replicate MAXLINE nul, s.log ++ [line], .read⟩, up, down)
    | _ => none
  | .io k =>
    match s.pc with
    | .read =>
      (up.read MAXLINE k).map fun o =>
        match o.1 with
        | [] => ({ s with pc := .exited }, o.2, down.close)
        | b :: bs =>
          ({ s with buf := b :: bs ++ s.buf.drop (bs.length + 1), pc := .writen (b :: bs) },
            o.2, down)
    | .writen rest =>
      (down.write rest k).map fun o => ({ s with pc := .writen o.2 }, up, o.1)
    | _ => none
  | .eintr =>
    match s.pc with
    | .read | .writen (_ :: _) => some (s, up, down)
    | _ => none

/-- The two processes and the two directions of their connection. -/
structure Session where
  client : Client
  server : Server
  up : Channel Byte
  down : Channel Byte

inductive Label
  | client (a : Act)
  | server (a : Act)
  | deliverUp (k : Nat)
  | deliverDown (k : Nat)
  deriving DecidableEq

def Session.step (s : Session) : Label → Option Session
  | .client a =>
    (s.client.step s.up s.down a).map fun o => ⟨o.1, s.server, o.2.1, o.2.2⟩
  | .server a =>
    (s.server.step s.up s.down a).map fun o => ⟨s.client, o.1, o.2.1, o.2.2⟩
  | .deliverUp k => (s.up.deliver k).map fun up => { s with up := up }
  | .deliverDown k => (s.down.deliver k).map fun down => { s with down := down }

def Session.start (fp buf : List Byte) : Session where
  client := ⟨fp, [], [], [], .fgets⟩
  server := ⟨buf, [], .read⟩
  up := .empty
  down := .empty

/-- A client with the input fp against a server whose buffer starts out as buf. -/
def session (fp buf : List Byte) : Machine Session Label := ⟨Session.start fp buf, Session.step⟩

/-- Everything a step of the client can do. -/
inductive ClientMove (c : Client) (up down : Channel Byte) :
    Act → Client → Channel Byte → Channel Byte → Prop
  | eof (hpc : c.pc = .fgets) (hin : c.input = []) :
      ClientMove c up down .go { c with pc := .exited } up.close down
  | line (line input : List Byte) (hpc : c.pc = .fgets) (hin : line ++ input = c.input)
      (hline : Chunk line input) :
      ClientMove c up down .go
        { c with input := input, sendline := line, pc := .writen (cstr line) } up down
  | sent (hpc : c.pc = .writen []) :
      ClientMove c up down .go { c with pc := .readline 1 [] } up down
  | take (n : Nat) (got readBuf : List Byte) (b : Byte) (hpc : c.pc = .readline n got)
      (hbuf : c.readBuf = b :: readBuf) :
      ClientMove c up down .go { c with readBuf := readBuf, pc := readlineNext n got b } up down
  | quit (recvline : List Byte) (hpc : c.pc = .returned 0 recvline) :
      ClientMove c up down .go { c with pc := .errQuit } up.close down
  | fputs (n : Nat) (recvline : List Byte) (hpc : c.pc = .returned n recvline) (hn : n ≠ 0) :
      ClientMove c up down .go
        { c with stdout := c.stdout ++ cstr recvline, pc := .fgets } up down
  | write (k : Nat) (rest left : List Byte) (up' : Channel Byte) (hpc : c.pc = .writen rest)
      (hw : up.write rest k = some (up', left)) :
      ClientMove c up down (.io k) { c with pc := .writen left } up' down
  | fill (k n : Nat) (got readBuf : List Byte) (down' : Channel Byte)
      (hpc : c.pc = .readline n got) (hbuf : c.readBuf = []) (hne : readBuf ≠ [])
      (hr : down.read MAXLINE k = some (readBuf, down')) :
      ClientMove c up down (.io k) { c with readBuf := readBuf } up down'
  | hangup (k n : Nat) (got : List Byte) (down' : Channel Byte) (hpc : c.pc = .readline n got)
      (hbuf : c.readBuf = []) (hr : down.read MAXLINE k = some ([], down')) :
      ClientMove c up down (.io k) { c with pc := .returned (n - 1) got } up down'
  | interrupted : ClientMove c up down .eintr c up down

theorem client_move {c c' : Client} {up down up' down' : Channel Byte} {a : Act}
    (h : c.step up down a = some (c', up', down')) : ClientMove c up down a c' up' down' := by
  cases a with
  | go =>
    simp only [Client.step] at h
    split at h
    · rename_i hpc
      split at h
      · rename_i hin
        cases h
        exact .eof hpc (fgets_eq_none hin)
      · rename_i line input hin
        cases h
        obtain ⟨hsplit, hchunk⟩ := fgets_eq_some hin
        exact .line line input hpc hsplit hchunk
    · rename_i hpc
      cases h
      exact .sent hpc
    · rename_i n got hpc
      split at h
      · cases h
      · rename_i b readBuf hbuf
        cases h
        exact .take n got readBuf b hpc hbuf
    · rename_i n recvline hpc
      split at h
      · rename_i hn
        cases h
        exact .quit recvline (hn ▸ hpc)
      · rename_i hn
        cases h
        exact .fputs n recvline hpc hn
    · cases h
  | io k =>
    simp only [Client.step] at h
    split at h
    · rename_i rest hpc
      obtain ⟨⟨up₁, left⟩, hw, ho⟩ := Option.map_eq_some_iff.mp h
      cases ho
      exact .write k rest left _ hpc hw
    · rename_i n got hpc
      split at h
      · rename_i hbuf
        obtain ⟨⟨bytes, down₁⟩, hr, ho⟩ := Option.map_eq_some_iff.mp h
        cases bytes with
        | nil =>
          cases ho
          exact .hangup k n got _ hpc hbuf hr
        | cons b bs =>
          cases ho
          exact .fill k n got _ _ hpc hbuf (by simp) hr
      · cases h
    · cases h
  | eintr =>
    simp only [Client.step] at h
    split at h
    · cases h
      exact .interrupted
    · split at h
      · cases h
        exact .interrupted
      · cases h
    · cases h

/-- Everything a step of the server can do. -/
inductive ServerMove (s : Server) (up down : Channel Byte) :
    Act → Server → Channel Byte → Channel Byte → Prop
  | sent (hpc : s.pc = .writen []) : ServerMove s up down .go { s with pc := .printf } up down
  | print (line : Option (List Byte)) (hpc : s.pc = .printf) :
      ServerMove s up down .go ⟨List.replicate MAXLINE nul, s.log ++ [line], .read⟩ up down
  | fill (k : Nat) (bytes buf : List Byte) (up' : Channel Byte) (hpc : s.pc = .read)
      (hne : bytes ≠ []) (hr : up.read MAXLINE k = some (bytes, up')) :
      ServerMove s up down (.io k) { s with buf := buf, pc := .writen bytes } up' down
  | hangup (k : Nat) (up' : Channel Byte) (hpc : s.pc = .read)
      (hr : up.read MAXLINE k = some ([], up')) :
      ServerMove s up down (.io k) { s with pc := .exited } up' down.close
  | write (k : Nat) (rest left : List Byte) (down' : Channel Byte) (hpc : s.pc = .writen rest)
      (hw : down.write rest k = some (down', left)) :
      ServerMove s up down (.io k) { s with pc := .writen left } up down'
  | interrupted : ServerMove s up down .eintr s up down

theorem server_move {s s' : Server} {up down up' down' : Channel Byte} {a : Act}
    (h : s.step up down a = some (s', up', down')) : ServerMove s up down a s' up' down' := by
  cases a with
  | go =>
    simp only [Server.step] at h
    split at h
    · rename_i hpc
      cases h
      exact .sent hpc
    · rename_i hpc
      cases h
      exact .print _ hpc
    · cases h
  | io k =>
    simp only [Server.step] at h
    split at h
    · rename_i hpc
      obtain ⟨⟨bytes, up₁⟩, hr, ho⟩ := Option.map_eq_some_iff.mp h
      cases bytes with
      | nil =>
        cases ho
        exact .hangup k _ hpc hr
      | cons b bs =>
        cases ho
        exact .fill k _ _ _ hpc (by simp) hr
    · rename_i rest hpc
      obtain ⟨⟨down₁, left⟩, hw, ho⟩ := Option.map_eq_some_iff.mp h
      cases ho
      exact .write k rest left _ hpc hw
    · cases h
  | eintr =>
    simp only [Server.step] at h
    split at h
    · cases h
      exact .interrupted
    · cases h
      exact .interrupted
    · cases h

end LinuxPractice.Echo
