import LinuxPractice.Duplex.Server
import LinuxPractice.Framework.LinearBuffer

namespace LinuxPractice.Duplex.NonblockingClient

open Echo (Byte MAXLINE)

/-- The bits of rset and wset that str_cli tests. -/
structure Ready where
  stdin : Bool
  sockIn : Bool
  stdout : Bool
  sockOut : Bool
  deriving DecidableEq

/-- Where str_cli stands: in Select; before one of the four blocks that follow it, with the
sets as they are then; or out of its loop, by its return or by
err_quit("str_cli: server terminated prematurely"). -/
inductive Pc
  | select
  | readStdin (r : Ready)
  | readSocket (r : Ready)
  | writeStdout (r : Ready)
  | writeSocket (r : Ready)
  | returned
  | errQuit
  deriving DecidableEq

/-- The bytes of toBuf go from stdin to the socket, those of frBuf from the socket to stdout. -/
structure Client where
  input : List Byte
  stdineof : Bool
  stdout : List Byte
  toBuf : LinearBuffer Byte MAXLINE
  frBuf : LinearBuffer Byte MAXLINE
  pc : Pc

/-- Select returns, a call returns k, or a block is passed: its descriptor is not in the
set, or its call fails with EWOULDBLOCK. -/
inductive Act
  | select (r : Ready)
  | io (k : Nat)
  | pass
  deriving DecidableEq

/-- What Select may report of the descriptors str_cli puts into the sets. A socket is
reported exactly when it is ready. Select does not return for nothing. -/
def Reports (cap : Nat) (c : Client) (up down : Channel Byte) (r : Ready) : Prop :=
  (r.stdin = true → c.stdineof = false ∧ c.toBuf.iptr < MAXLINE) ∧
  (r.sockIn = true ↔ c.frBuf.iptr < MAXLINE ∧ down.Readable) ∧
  (r.sockOut = true ↔ c.toBuf.optr ≠ c.toBuf.iptr ∧ up.pending.length < cap) ∧
  (r.stdout = true → c.frBuf.optr ≠ c.frBuf.iptr) ∧
  (r.stdin || r.sockIn || r.stdout || r.sockOut) = true

instance (cap : Nat) (c : Client) (up down : Channel Byte) (r : Ready) :
    Decidable (Reports cap c up down r) := inferInstanceAs (Decidable (_ ∧ _))

/-- A read of no bytes at all returns 0 at once. -/
def readSocket (down : Channel Byte) (size k : Nat) : Option (List Byte × Channel Byte) :=
  if size = 0 then if k = 0 then some ([], down) else none else down.read size k

/-- str_cli with nonblocking descriptors. Both ways out of it end the process. -/
def Client.step (cap : Nat) (c : Client) (up down : Channel Byte) :
    Act → Option (Client × Channel Byte × Channel Byte)
  | .select r =>
    match c.pc with
    | .select =>
      if Reports cap c up down r then some ({ c with pc := .readStdin r }, up, down) else none
    | _ => none
  | .pass =>
    match c.pc with
    | .readStdin r => some ({ c with pc := .readSocket r }, up, down)
    | .readSocket r => some ({ c with pc := .writeStdout r }, up, down)
    | .writeStdout r => some ({ c with pc := .writeSocket r }, up, down)
    | .writeSocket _ => some ({ c with pc := .select }, up, down)
    | _ => none
  | .io k =>
    match c.pc with
    | .readStdin r =>
      if r.stdin = false then none
      else if k = 0 then
        if c.input = [] ∨ c.toBuf.room = 0 then
          some ({ c with stdineof := true, pc := .readSocket r },
            if c.toBuf.optr = c.toBuf.iptr then up.close else up, down)
        else none
      else if k ≤ c.input.length then
        (c.toBuf.fill (c.input.take k)).map fun buf =>
          ({ c with input := c.input.drop k, toBuf := buf, pc := .readSocket { r with sockOut := true } },
            up, down)
      else none
    | .readSocket r =>
      if r.sockIn = false then none
      else
        (readSocket down c.frBuf.room k).bind fun o =>
          match o.1 with
          | [] => some ({ c with pc := if c.stdineof then .returned else .errQuit }, up.close, o.2)
          | b :: bs =>
            (c.frBuf.fill (b :: bs)).map fun buf =>
              ({ c with frBuf := buf, pc := .writeStdout { r with stdout := true } }, up, o.2)
    | .writeStdout r =>
      if r.stdout = true ∧ 0 < k ∧ k ≤ c.frBuf.content.length then
        some ({ c with stdout := c.stdout ++ c.frBuf.content.take k, frBuf := c.frBuf.advance k,
                       pc := .writeSocket r }, up, down)
      else none
    | .writeSocket r =>
      if r.sockOut = false then none
      else
        (up.writeWithin cap c.toBuf.content k).map fun o =>
          ({ c with toBuf := c.toBuf.advance k, pc := .select },
            if c.toBuf.optr + k = c.toBuf.iptr ∧ c.stdineof = true then o.1.close else o.1, down)
    | _ => none

structure Session where
  client : Client
  server : ServerPc
  up : Channel Byte
  down : Channel Byte

inductive Label
  | client (a : Act)
  | server (a : Io)
  | deliverUp (k : Nat)
  | deliverDown (k : Nat)
  deriving DecidableEq

def Session.step (cap : Capacity) (s : Session) : Label → Option Session
  | .client a =>
    (s.client.step cap.up s.up s.down a).map fun o => ⟨o.1, s.server, o.2.1, o.2.2⟩
  | .server a =>
    (s.server.step cap.down s.up s.down a).map fun o => ⟨s.client, o.1, o.2.1, o.2.2⟩
  | .deliverUp k => (s.up.deliver k).map fun up => { s with up := up }
  | .deliverDown k => (s.down.deliver k).map fun down => { s with down := down }

def Session.start (fp : List Byte) : Session :=
  ⟨⟨fp, false, [], .empty, .empty, .select⟩, .read, .empty, .empty⟩

/-- str_cli with the input fp against str_echo over a connection of the given capacity. -/
def session (cap : Capacity) (fp : List Byte) : Machine Session Label :=
  ⟨Session.start fp, Session.step cap⟩

/-- The block that follows. -/
def Pc.next : Pc → Pc
  | .readStdin r => .readSocket r
  | .readSocket r => .writeStdout r
  | .writeStdout r => .writeSocket r
  | _ => .select

/-- The process has ended. -/
def Pc.over : Pc → Bool
  | .returned | .errQuit => true
  | _ => false

/-- Everything a step of the client can do. -/
inductive ClientMove (cap : Nat) (c : Client) (up down : Channel Byte) :
    Act → Client → Channel Byte → Channel Byte → Prop
  | select (r : Ready) (hpc : c.pc = .select) (hr : Reports cap c up down r) :
      ClientMove cap c up down (.select r) { c with pc := .readStdin r } up down
  | pass (hpc : c.pc ≠ .select) (hover : c.pc.over = false) :
      ClientMove cap c up down .pass { c with pc := c.pc.next } up down
  | eof (r : Ready) (hpc : c.pc = .readStdin r) (hr : r.stdin = true)
      (hend : c.input = [] ∨ c.toBuf.room = 0) :
      ClientMove cap c up down (.io 0) { c with stdineof := true, pc := .readSocket r }
        (if c.toBuf.optr = c.toBuf.iptr then up.close else up) down
  | fill (k : Nat) (r : Ready) (buf : LinearBuffer Byte MAXLINE) (hpc : c.pc = .readStdin r)
      (hr : r.stdin = true) (hk : 0 < k) (hle : k ≤ c.input.length)
      (hf : c.toBuf.fill (c.input.take k) = some buf) :
      ClientMove cap c up down (.io k)
        { c with input := c.input.drop k, toBuf := buf, pc := .readSocket { r with sockOut := true } }
        up down
  | hangup (k : Nat) (r : Ready) (down' : Channel Byte) (hpc : c.pc = .readSocket r)
      (hr : r.sockIn = true) (hread : readSocket down c.frBuf.room k = some ([], down')) :
      ClientMove cap c up down (.io k)
        { c with pc := if c.stdineof then .returned else .errQuit } up.close down'
  | receive (k : Nat) (r : Ready) (bytes : List Byte) (buf : LinearBuffer Byte MAXLINE)
      (down' : Channel Byte) (hpc : c.pc = .readSocket r) (hr : r.sockIn = true)
      (hne : bytes ≠ []) (hread : readSocket down c.frBuf.room k = some (bytes, down'))
      (hf : c.frBuf.fill bytes = some buf) :
      ClientMove cap c up down (.io k)
        { c with frBuf := buf, pc := .writeStdout { r with stdout := true } } up down'
  | print (k : Nat) (r : Ready) (hpc : c.pc = .writeStdout r) (hk : 0 < k)
      (hle : k ≤ c.frBuf.content.length) :
      ClientMove cap c up down (.io k)
        { c with stdout := c.stdout ++ c.frBuf.content.take k, frBuf := c.frBuf.advance k,
                 pc := .writeSocket r } up down
  | send (k : Nat) (r : Ready) (left : List Byte) (up' : Channel Byte) (hpc : c.pc = .writeSocket r)
      (hw : up.writeWithin cap c.toBuf.content k = some (up', left)) :
      ClientMove cap c up down (.io k) { c with toBuf := c.toBuf.advance k, pc := .select }
        (if c.toBuf.optr + k = c.toBuf.iptr ∧ c.stdineof = true then up'.close else up') down

theorem clientMove_of_step {cap : Nat} {c c' : Client} {up down up' down' : Channel Byte} {a : Act}
    (h : c.step cap up down a = some (c', up', down')) : ClientMove cap c up down a c' up' down' := by
  cases a with
  | select r =>
    simp only [Client.step] at h
    split at h
    · rename_i hpc
      split at h
      · rename_i hr
        cases h
        exact .select r hpc hr
      · cases h
    · cases h
  | pass =>
    have hmove : ∀ next, c.pc ≠ .select → c.pc.over = false → c.pc.next = next →
        ClientMove cap c up down .pass { c with pc := next } up down := by
      rintro next hne hover rfl
      exact .pass hne hover
    simp only [Client.step] at h
    split at h
    · rename_i r hpc
      cases h
      exact hmove _ (by rw [hpc]; nofun) (by rw [hpc]; rfl) (by rw [hpc]; rfl)
    · rename_i r hpc
      cases h
      exact hmove _ (by rw [hpc]; nofun) (by rw [hpc]; rfl) (by rw [hpc]; rfl)
    · rename_i r hpc
      cases h
      exact hmove _ (by rw [hpc]; nofun) (by rw [hpc]; rfl) (by rw [hpc]; rfl)
    · rename_i r hpc
      cases h
      exact hmove _ (by rw [hpc]; nofun) (by rw [hpc]; rfl) (by rw [hpc]; rfl)
    · cases h
  | io k =>
    simp only [Client.step] at h
    split at h
    · rename_i r hpc
      split at h
      · cases h
      rename_i hr
      rw [Bool.not_eq_false] at hr
      split at h
      · rename_i hk
        subst hk
        split at h
        · rename_i hend
          cases h
          exact .eof r hpc hr hend
        · cases h
      · rename_i hk
        split at h
        · rename_i hle
          obtain ⟨buf, hf, ho⟩ := Option.map_eq_some_iff.mp h
          cases ho
          exact .fill k r buf hpc hr (Nat.pos_of_ne_zero hk) hle hf
        · cases h
    · rename_i r hpc
      split at h
      · cases h
      rename_i hr
      rw [Bool.not_eq_false] at hr
      obtain ⟨⟨bytes, down₁⟩, hread, ho⟩ := Option.bind_eq_some_iff.mp h
      cases bytes with
      | nil =>
        cases ho
        exact .hangup k r _ hpc hr hread
      | cons b bs =>
        obtain ⟨buf, hf, ho⟩ := Option.map_eq_some_iff.mp ho
        cases ho
        exact .receive k r _ buf _ hpc hr (List.cons_ne_nil b bs) hread hf
    · rename_i r hpc
      split at h
      · rename_i hk
        cases h
        exact .print k r hpc hk.2.1 hk.2.2
      · cases h
    · rename_i r hpc
      split at h
      · cases h
      · obtain ⟨⟨up₁, left⟩, hw, ho⟩ := Option.map_eq_some_iff.mp h
        cases ho
        exact .send k r left _ hpc hw
    · cases h

structure SessionInv (fp : List Byte) (s : Session) : Prop where
  flow : s.client.stdout ++ s.client.frBuf.content ++ transit s.server s.up s.down ++
    s.client.toBuf.content ++ s.client.input = fp
  server : ServerInv s.server s.up s.down
  closed : s.up.closed = true ↔ s.client.stdineof = true ∧ s.client.toBuf.content = []
  ended : s.client.stdineof = true → s.client.input = []
  stdin : ∀ r, s.client.pc = .readStdin r → r.stdin = true →
    s.client.stdineof = false ∧ 0 < s.client.toBuf.room
  socket : ∀ r, s.client.pc = .readStdin r ∨ s.client.pc = .readSocket r → r.sockIn = true →
    0 < s.client.frBuf.room
  quit : s.client.pc ≠ .errQuit
  returned : s.client.pc = .returned → s.up.closed = true ∧ s.server = .exited ∧
    s.down.pending = [] ∧ 0 < s.client.frBuf.room

/-- The server closes only after the client has. -/
theorem SessionInv.up_closed {fp : List Byte} {s : Session} (hi : SessionInv fp s)
    (hc : s.down.closed = true) : s.up.closed = true :=
  (hi.server.drained (hi.server.closed.mp hc)).1

/-- While bytes are left to send, or the input has not ended, the client has not closed. -/
theorem SessionInv.up_open {fp : List Byte} {s : Session} (hi : SessionInv fp s)
    (h : s.client.stdineof = false ∨ s.client.toBuf.content ≠ []) : s.up.closed ≠ true := by
  intro hc
  obtain ⟨heof, hnil⟩ := hi.closed.mp hc
  rcases h with h | h
  · rw [heof] at h
    cases h
  · exact h hnil

/-- With room for it, a read returns what a read does. -/
theorem readSocket_of_room {down : Channel Byte} {size k : Nat} (h : 0 < size) :
    readSocket down size k = down.read size k := if_neg (Nat.ne_of_gt h)

theorem pending_close_if (p : Prop) [Decidable p] (ch : Channel Byte) :
    (if p then ch.close else ch).pending = ch.pending := by
  split
  · rfl
  · rfl

theorem closed_close_if (p : Prop) [Decidable p] (ch : Channel Byte) :
    (if p then ch.close else ch).closed = true ↔ p ∨ ch.closed = true := by
  split
  · rename_i hp
    exact ⟨fun _ => .inl hp, fun _ => rfl⟩
  · rename_i hp
    exact ⟨.inr, fun h => h.resolve_left hp⟩

theorem next_socket {pc : Pc} {r : Ready} (h : pc.next = .readStdin r ∨ pc.next = .readSocket r) :
    pc = .readStdin r := by
  cases pc with
  | readStdin r' =>
    rcases h with h | h
    · cases h
    · cases h
      rfl
  | _ =>
    rcases h with h | h
    · cases h
    · cases h

theorem next_ne_errQuit (pc : Pc) : pc.next ≠ .errQuit := by
  cases pc with
  | _ => nofun

theorem next_ne_returned (pc : Pc) : pc.next ≠ .returned := by
  cases pc with
  | _ => nofun

theorem SessionInv.client {cap : Nat} {fp : List Byte} {s : Session} {c' : Client}
    {up' down' : Channel Byte} {a : Act} (hi : SessionInv fp s)
    (hm : ClientMove cap s.client s.up s.down a c' up' down') :
    SessionInv fp ⟨c', s.server, up', down'⟩ := by
  have hflow := hi.flow
  cases hm with
  | select r hpc hr =>
    refine ⟨hflow, hi.server, hi.closed, hi.ended, fun r' he ht => ?_, fun r' he ht => ?_, (by simp), (by simp)⟩
    · cases he
      obtain ⟨heof, hlt⟩ := hr.1 ht
      exact ⟨heof, Nat.sub_pos_of_lt hlt⟩
    · obtain he | he := he
      · cases he
        exact Nat.sub_pos_of_lt (hr.2.1.mp ht).1
      · cases he
  | pass hpc hover =>
    refine ⟨hflow, hi.server, hi.closed, hi.ended, fun r he ht => ?_,
      fun r he ht => hi.socket r (.inl (next_socket he)) ht, next_ne_errQuit _,
      fun he => absurd he (next_ne_returned _)⟩
    exact hi.stdin r (next_socket (.inl he)) ht
  | eof r hpc hr hend =>
    obtain ⟨heof, hroom⟩ := hi.stdin r hpc hr
    have hin : s.client.input = [] := hend.resolve_right (Nat.ne_of_gt hroom)
    have hopen := hi.up_open (.inl heof)
    refine ⟨?_, hi.server.of_channels rfl (fun h _ => absurd h hopen), ?_, fun _ => hin, (by simp),
      fun r' he ht => ?_, (by simp), (by simp)⟩
    · simp only [transit, pending_close_if]
      exact hflow
    · simp only [closed_close_if, LinearBuffer.content_eq_nil, true_and]
      exact ⟨fun h => h.resolve_right hopen, .inl⟩
    · obtain he | he := he
      · cases he
      · cases he
        exact hi.socket r (.inl hpc) ht
  | fill k r buf hpc hr hk hle hf =>
    obtain ⟨heof, -⟩ := hi.stdin r hpc hr
    refine ⟨?_, hi.server, ?_, fun he => ?_, (by simp), fun r' he ht => ?_, (by simp), (by simp)⟩
    · rw [← hflow]
      simp only [LinearBuffer.content_fill hf, List.append_assoc, List.take_append_drop]
    · exact ⟨fun h => absurd h (hi.up_open (.inl heof)), fun h => by rw [heof] at h; cases h.1⟩
    · rw [heof] at he
      cases he
    · obtain he | he := he
      · cases he
      · cases he
        exact hi.socket r (.inl hpc) ht
  | hangup k r _ hpc hr hread =>
    have hroom := hi.socket r (.inr hpc) hr
    rw [readSocket_of_room hroom] at hread
    rcases Channel.read_eq_some hread with ⟨-, rfl, hc, hp⟩ | ⟨hne, -⟩
    · have hup := hi.up_closed hc
      have heof := (hi.closed.mp hup).1
      have hpc' : (if s.client.stdineof then Pc.returned else .errQuit) = .returned := by
        rw [heof]
        rfl
      simp only [hpc']
      refine ⟨hflow, hi.server.of_channels rfl (fun _ h₂ => ⟨rfl, h₂⟩), ?_, hi.ended, (by simp), ?_, (by simp), ?_⟩
      · exact ⟨fun _ => hi.closed.mp hup, fun _ => rfl⟩
      · rintro r' (he | he)
        · cases he
        · cases he
      · exact fun _ => ⟨rfl, hi.server.closed.mp hc, hp, hroom⟩
    · exact absurd rfl hne
  | receive k r bytes buf _ hpc hr hne hread hf =>
    rw [readSocket_of_room (hi.socket r (.inr hpc) hr)] at hread
    rcases Channel.read_eq_some hread with ⟨hnil, -⟩ | ⟨-, -, hp, hc, -⟩
    · exact absurd hnil hne
    refine ⟨?_, hi.server.of_channels hc (fun h₁ h₂ => ⟨h₁, h₂⟩), hi.closed, hi.ended, (by simp), ?_,
      (by simp), (by simp)⟩
    · rw [← hflow]
      simp only [LinearBuffer.content_fill hf, transit, ← hp, List.append_assoc]
    · rintro r' (he | he)
      · cases he
      · cases he
  | print k r hpc hk hle =>
    refine ⟨?_, hi.server, hi.closed, hi.ended, (by simp), ?_, (by simp), (by simp)⟩
    · rw [← hflow]
      simp only [LinearBuffer.content_advance, List.append_assoc]
      rw [← List.append_assoc (List.take k _), List.take_append_drop]
    · rintro r' (he | he)
      · cases he
      · cases he
  | send k r left up₁ hpc hw =>
    obtain ⟨hk, hle, rfl⟩ := Channel.writeWithin_left hw
    obtain ⟨hp, hc, -⟩ := Channel.write_eq_some (Channel.writeWithin_eq_some hw).2
    have hne : s.client.toBuf.content ≠ [] := List.ne_nil_of_length_pos (Nat.lt_of_lt_of_le hk hle)
    have hopen := hi.up_open (.inr hne)
    have hopen' : up₁.closed ≠ true := hc ▸ hopen
    refine ⟨?_, hi.server.of_channels rfl (fun h _ => absurd h hopen), ?_, hi.ended, (by simp), ?_,
      (by simp), (by simp)⟩
    · rw [← hflow]
      simp only [transit, pending_close_if, LinearBuffer.content_advance, List.append_assoc]
      rw [← List.append_assoc up₁.pending, hp, List.append_assoc]
    · simp only [closed_close_if, LinearBuffer.content_advance]
      rw [LinearBuffer.drop_content_eq_nil hle]
      exact ⟨fun h => (h.resolve_right hopen').symm, fun h => .inl h.symm⟩
    · rintro r' (he | he)
      · cases he
      · cases he

theorem SessionInv.start (fp : List Byte) : SessionInv fp (Session.start fp) where
  flow := rfl
  server := ⟨⟨nofun, nofun⟩, nofun, nofun⟩
  closed := ⟨nofun, fun h => nomatch h.1⟩
  ended := nofun
  stdin := nofun
  socket := by
    rintro r (he | he)
    · cases he
    · cases he
  quit := nofun
  returned := nofun

theorem SessionInv.step {cap : Capacity} {fp : List Byte} {s s' : Session} {l : Label}
    (hi : SessionInv fp s) (hs : s.step cap l = some s') : SessionInv fp s' := by
  cases l with
  | client a =>
    obtain ⟨⟨c', up', down'⟩, hc, rfl⟩ := Option.map_eq_some_iff.mp hs
    exact hi.client (clientMove_of_step hc)
  | server a =>
    obtain ⟨⟨pc', up', down'⟩, hv, rfl⟩ := Option.map_eq_some_iff.mp hs
    have hm := serverMove_of_step hv
    obtain ⟨hsrv, hc⟩ := hi.server.step hm
    refine ⟨?_, hsrv, ?_, hi.ended, hi.stdin, hi.socket, hi.quit, fun hret => ?_⟩
    · simp only [server_transit hm]
      exact hi.flow
    · simp only [hc]
      exact hi.closed
    · obtain ⟨hup, hexit, hp, hroom⟩ := hi.returned hret
      simp only [hexit] at hv
      cases a with
      | io k => cases hv
      | eintr => cases hv
  | deliverUp k =>
    obtain ⟨up', hd, rfl⟩ := Option.map_eq_some_iff.mp hs
    obtain ⟨hp, hc, -⟩ := Channel.deliver_eq_some hd
    refine ⟨?_, hi.server.of_channels rfl (fun h₁ h₂ => ⟨hc.trans h₁, hp.trans h₂⟩), ?_, hi.ended,
      hi.stdin, hi.socket, hi.quit, ?_⟩
    · simp only [transit, hp]
      exact hi.flow
    · simp only [hc]
      exact hi.closed
    · simp only [hc]
      exact hi.returned
  | deliverDown k =>
    obtain ⟨down', hd, rfl⟩ := Option.map_eq_some_iff.mp hs
    obtain ⟨hp, hc, -⟩ := Channel.deliver_eq_some hd
    refine ⟨?_, hi.server.of_channels hc (fun h₁ h₂ => ⟨h₁, h₂⟩), hi.closed, hi.ended, hi.stdin,
      hi.socket, hi.quit, ?_⟩
    · simp only [transit, hp]
      exact hi.flow
    · simp only [hp]
      exact hi.returned

theorem session_inv {cap : Capacity} {fp : List Byte} {s : Session}
    (h : (session cap fp).Reachable s) : SessionInv fp s :=
  Machine.Reachable.invariant (SessionInv.start fp) (fun _ _ _ hi hs => hi.step hs) h

end LinuxPractice.Duplex.NonblockingClient
