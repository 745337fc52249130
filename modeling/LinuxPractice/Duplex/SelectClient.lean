import LinuxPractice.Duplex.Server

namespace LinuxPractice.Duplex.SelectClient

open Echo (Byte MAXLINE)

/-- Where str_cli stands: in Select; behind it with the socket readable, and whether the
input is too; with the input readable; in Writen; or out of its loop, by its return or by
err_quit("str_cli: server terminated prematurely"). -/
inductive Pc
  | select
  | socket (fp : Bool)
  | stdin
  | writen (rest : List Byte)
  | returned
  | errQuit
  deriving DecidableEq

structure Client where
  input : List Byte
  stdineof : Bool
  stdout : List Byte
  pc : Pc

/-- Select reports the descriptors that are ready, or a call returns k bytes. -/
inductive Act
  | select (sock fp : Bool)
  | io (k : Nat)
  | eintr
  deriving DecidableEq

def writing : List Byte → Pc
  | [] => .select
  | b :: bs => .writen (b :: bs)

/-- What Select may report: the socket exactly when it is readable, the input only while
it is watched; and it does not return for nothing. -/
def Reports (c : Client) (down : Channel Byte) (sock fp : Bool) : Prop :=
  (sock = true ↔ down.Readable) ∧ (fp = true → c.stdineof = false) ∧ (sock || fp) = true

instance (c : Client) (down : Channel Byte) (sock fp : Bool) : Decidable (Reports c down sock fp) :=
  inferInstanceAs (Decidable (_ ∧ _))

/-- str_cli with the input read by Read and the socket written by Writen, which blocks
while cap bytes wait in up. Both ways out of it end the process. -/
def Client.step (cap : Nat) (c : Client) (up down : Channel Byte) :
    Act → Option (Client × Channel Byte × Channel Byte)
  | .select sock fp =>
    match c.pc with
    | .select =>
      if Reports c down sock fp then
        some ({ c with pc := if sock then .socket fp else .stdin }, up, down)
      else none
    | _ => none
  | .io k =>
    match c.pc with
    | .socket fp =>
      (down.read MAXLINE k).map fun o =>
        match o.1 with
        | [] => ({ c with pc := if c.stdineof then .returned else .errQuit }, up.close, o.2)
        | b :: bs =>
          ({ c with stdout := c.stdout ++ b :: bs, pc := if fp then .stdin else .select }, up, o.2)
    | .stdin =>
      if k = 0 then
        if c.input = [] then some ({ c with stdineof := true, pc := .select }, up.close, down)
        else none
      else if k ≤ MAXLINE ∧ k ≤ c.input.length then
        some ({ c with input := c.input.drop k, pc := .writen (c.input.take k) }, up, down)
      else none
    | .writen rest => (up.writeWithin cap rest k).map fun o => ({ c with pc := writing o.2 }, o.1, down)
    | _ => none
  | .eintr =>
    match c.pc with
    | .writen _ => some (c, up, down)
    | _ => none

structure Session where
  client : Client
  server : ServerPc
  up : Channel Byte
  down : Channel Byte

inductive Label
  | client (a : Act)
  | server (a : Io)
  | deliverUp (k : Nat)
  | deliverDown (k : Nat)
  deriving DecidableEq

def Session.step (cap : Capacity) (s : Session) : Label → Option Session
  | .client a =>
    (s.client.step cap.up s.up s.down a).map fun o => ⟨o.1, s.server, o.2.1, o.2.2⟩
  | .server a =>
    (s.server.step cap.down s.up s.down a).map fun o => ⟨s.client, o.1, o.2.1, o.2.2⟩
  | .deliverUp k => (s.up.deliver k).map fun up => { s with up := up }
  | .deliverDown k => (s.down.deliver k).map fun down => { s with down := down }

def Session.start (fp : List Byte) : Session := ⟨⟨fp, false, [], .select⟩, .read, .empty, .empty⟩

/-- str_cli with the input fp against str_echo over a connection of the given capacity. -/
def session (cap : Capacity) (fp : List Byte) : Machine Session Label :=
  ⟨Session.start fp, Session.step cap⟩

/-- Everything a step of the client can do. -/
inductive ClientMove (cap : Nat) (c : Client) (up down : Channel Byte) :
    Act → Client → Channel Byte → Channel Byte → Prop
  | select (sock fp : Bool) (hpc : c.pc = .select) (hr : Reports c down sock fp) :
      ClientMove cap c up down (.select sock fp)
        { c with pc := if sock then .socket fp else .stdin } up down
  | print (k : Nat) (fp : Bool) (bytes : List Byte) (down' : Channel Byte)
      (hpc : c.pc = .socket fp) (hne : bytes ≠ [])
      (hr : down.read MAXLINE k = some (bytes, down')) :
      ClientMove cap c up down (.io k)
        { c with stdout := c.stdout ++ bytes, pc := if fp then .stdin else .select } up down'
  | hangup (k : Nat) (fp : Bool) (down' : Channel Byte) (hpc : c.pc = .socket fp)
      (hr : down.read MAXLINE k = some ([], down')) :
      ClientMove cap c up down (.io k)
        { c with pc := if c.stdineof then .returned else .errQuit } up.close down'
  | eof (hpc : c.pc = .stdin) (hin : c.input = []) :
      ClientMove cap c up down (.io 0) { c with stdineof := true, pc := .select } up.close down
  | fill (k : Nat) (hpc : c.pc = .stdin) (hk : 0 < k) (hle : k ≤ c.input.length) :
      ClientMove cap c up down (.io k)
        { c with input := c.input.drop k, pc := .writen (c.input.take k) } up down
  | write (k : Nat) (rest left : List Byte) (up' : Channel Byte) (hpc : c.pc = .writen rest)
      (hw : up.writeWithin cap rest k = some (up', left)) :
      ClientMove cap c up down (.io k) { c with pc := writing left } up' down
  | interrupted (rest : List Byte) (hpc : c.pc = .writen rest) :
      ClientMove cap c up down .eintr c up down

theorem clientMove_of_step {cap : Nat} {c c' : Client} {up down up' down' : Channel Byte} {a : Act}
    (h : c.step cap up down a = some (c', up', down')) : ClientMove cap c up down a c' up' down' := by
  cases a with
  | select sock fp =>
    simp only [Client.step] at h
    split at h
    · rename_i hpc
      split at h
      · rename_i hr
        cases h
        exact .select sock fp hpc hr
      · cases h
    · cases h
  | io k =>
    simp only [Client.step] at h
    split at h
    · rename_i fp hpc
      obtain ⟨⟨bytes, down₁⟩, hr, ho⟩ := Option.map_eq_some_iff.mp h
      cases bytes with
      | nil =>
        cases ho
        exact .hangup k fp _ hpc hr
      | cons b bs =>
        cases ho
        exact .print k fp _ _ hpc (List.cons_ne_nil b bs) hr
    · rename_i hpc
      split at h
      · rename_i hk
        subst hk
        split at h
        · rename_i hin
          cases h
          exact .eof hpc hin
        · cases h
      · rename_i hk
        split at h
        · rename_i hle
          cases h
          exact .fill k hpc (Nat.pos_of_ne_zero hk) hle.2
        · cases h
    · rename_i rest hpc
      obtain ⟨⟨up₁, left⟩, hw, ho⟩ := Option.map_eq_some_iff.mp h
      cases ho
      exact .write k rest left _ hpc hw
    · cases h
  | eintr =>
    simp only [Client.step] at h
    split at h
    · rename_i rest hpc
      cases h
      exact .interrupted rest hpc
    · cases h

/-- What the client has read from its input and not written to the socket. -/
def Pc.unsent : Pc → List Byte
  | .writen rest => rest
  | _ => []

@[simp] theorem pc_unsent_writing (rest : List Byte) : (writing rest).unsent = rest := by
  cases rest with
  | nil => rfl
  | cons b bs => rfl

structure SessionInv (fp : List Byte) (s : Session) : Prop where
  flow : s.client.stdout ++ transit s.server s.up s.down ++ s.client.pc.unsent ++ s.client.input = fp
  server : ServerInv s.server s.up s.down
  closed : s.up.closed = s.client.stdineof
  ended : s.client.stdineof = true → s.client.input = [] ∧ s.client.pc ≠ .stdin ∧
    s.client.pc ≠ .socket true ∧ s.client.pc.unsent = []
  readable : ∀ fp, s.client.pc = .socket fp → s.down.Readable
  quit : s.client.pc ≠ .errQuit
  returned : s.client.pc = .returned → s.client.stdineof = true ∧ s.server = .exited ∧ s.down.pending = []
  busy : ∀ rest, s.client.pc = .writen rest → rest ≠ []

theorem writing_cases (rest : List Byte) :
    (rest = [] ∧ writing rest = .select) ∨ (rest ≠ [] ∧ writing rest = .writen rest) := by
  cases rest with
  | nil => exact .inl ⟨rfl, rfl⟩
  | cons b bs => exact .inr ⟨List.cons_ne_nil b bs, rfl⟩

theorem unsent_of_ready (sock fp : Bool) : (if sock then Pc.socket fp else .stdin).unsent = [] := by
  cases sock with
  | true => rfl
  | false => rfl

theorem unsent_of_next (fp : Bool) : (if fp then Pc.stdin else .select).unsent = [] := by
  cases fp with
  | true => rfl
  | false => rfl

/-- The server closes only after the client has. -/
theorem SessionInv.stdineof_of_closed {fp : List Byte} {s : Session} (hi : SessionInv fp s)
    (hc : s.down.closed = true) : s.client.stdineof = true := by
  rw [← hi.closed]
  exact (hi.server.drained (hi.server.closed.mp hc)).1

theorem SessionInv.client {cap : Nat} {fp : List Byte} {s : Session} {c' : Client}
    {up' down' : Channel Byte} {a : Act} (hi : SessionInv fp s)
    (hm : ClientMove cap s.client s.up s.down a c' up' down') :
    SessionInv fp ⟨c', s.server, up', down'⟩ := by
  have hflow := hi.flow
  cases hm with
  | select sock fp' hpc hr =>
    simp only [hpc, Pc.unsent, List.append_nil] at hflow
    refine ⟨?_, hi.server, hi.closed, fun he => ?_, fun b hb => ?_, ?_, ?_, ?_⟩
    · simp only [unsent_of_ready, List.append_nil]
      exact hflow
    · have hfp : fp' = false := by
        cases hfp : fp' with
        | false => rfl
        | true =>
          rw [hr.2.1 hfp] at he
          cases he
      have hsock : sock = true := by simpa [hfp] using hr.2.2
      subst hfp hsock
      exact ⟨(hi.ended he).1, (by simp), (by simp), rfl⟩
    · cases sock with
      | true => exact hr.1.mp rfl
      | false => cases hb
    · cases sock with
      | true => simp
      | false => simp
    · cases sock with
      | true => simp
      | false => simp
    · cases sock with
      | true => simp
      | false => simp
  | print k fp' bytes _ hpc hne hr =>
    rcases Channel.read_eq_some hr with ⟨hnil, -⟩ | ⟨-, -, hp, hc, -⟩
    · exact absurd hnil hne
    simp only [hpc, Pc.unsent, List.append_nil, transit, ← hp] at hflow
    refine ⟨?_, hi.server.of_channels hc (fun h₁ h₂ => ⟨h₁, h₂⟩), hi.closed, fun he => ?_,
      fun b hb => ?_, ?_, ?_, ?_⟩
    · simp only [unsent_of_next, List.append_nil, transit]
      simpa using hflow
    · have hfp : fp' = false := by
        cases hfp : fp' with
        | false => rfl
        | true => exact absurd (hfp ▸ hpc) (hi.ended he).2.2.1
      subst hfp
      exact ⟨(hi.ended he).1, (by simp), (by simp), rfl⟩
    · cases fp' with
      | true => cases hb
      | false => cases hb
    · cases fp' with
      | true => simp
      | false => simp
    · cases fp' with
      | true => simp
      | false => simp
    · cases fp' with
      | true => simp
      | false => simp
  | hangup k fp' _ hpc hr =>
    rcases Channel.read_eq_some hr with ⟨-, rfl, hc, hp⟩ | ⟨hne, -⟩
    · have heof := hi.stdineof_of_closed hc
      have hpc' : (if s.client.stdineof then Pc.returned else .errQuit) = .returned := by rw [heof]; rfl
      simp only [hpc, Pc.unsent, List.append_nil] at hflow
      simp only [hpc']
      refine ⟨?_, hi.server.of_channels rfl (fun _ h₂ => ⟨rfl, h₂⟩), ?_, ?_, (by simp), (by simp), ?_, (by simp)⟩
      · simp only [Pc.unsent, List.append_nil]
        exact hflow
      · exact heof.symm
      · exact fun _ => ⟨(hi.ended heof).1, (by simp), (by simp), rfl⟩
      · exact fun _ => ⟨heof, hi.server.closed.mp hc, hp⟩
    · exact absurd rfl hne
  | eof hpc hin =>
    simp only [hpc, Pc.unsent, List.append_nil] at hflow
    refine ⟨?_, hi.server.of_channels rfl (fun _ h₂ => ⟨rfl, h₂⟩), rfl, fun _ => ⟨hin, (by simp), (by simp), rfl⟩,
      (by simp), (by simp), (by simp), (by simp)⟩
    simp only [Pc.unsent, List.append_nil]
    exact hflow
  | fill k hpc hk hle =>
    simp only [hpc, Pc.unsent, List.append_nil] at hflow
    refine ⟨?_, hi.server, hi.closed, fun he => absurd hpc (hi.ended he).2.1, (by simp), (by simp), (by simp), ?_⟩
    · simp only [Pc.unsent, List.append_assoc, List.take_append_drop]
      rw [← List.append_assoc]
      exact hflow
    · intro rest he
      rw [← Pc.writen.inj he]
      exact List.ne_nil_of_length_pos (by rw [List.length_take]; omega)
  | write k rest left _ hpc hw =>
    obtain ⟨hp, hc, -⟩ := Channel.write_eq_some (Channel.writeWithin_eq_some hw).2
    have hopen : s.client.stdineof = false := by
      cases he : s.client.stdineof with
      | false => rfl
      | true =>
        have hnil := (hi.ended he).2.2.2
        rw [hpc] at hnil
        exact absurd hnil (hi.busy rest hpc)
    simp only [hpc, Pc.unsent, transit] at hflow
    refine ⟨?_, hi.server.of_channels rfl (fun h₁ => ?_), hc.trans hi.closed, ?_, ?_, ?_, ?_, ?_⟩
    · rw [← hflow]
      simp only [pc_unsent_writing, transit, List.append_assoc]
      rw [← List.append_assoc (Channel.pending _) left, hp, List.append_assoc]
    · rw [hi.closed, hopen] at h₁
      cases h₁
    · intro he
      rw [hopen] at he
      cases he
    · rcases writing_cases left with ⟨-, hw⟩ | ⟨-, hw⟩ <;> simp only [hw] <;> simp
    · rcases writing_cases left with ⟨-, hw⟩ | ⟨-, hw⟩ <;> simp only [hw] <;> simp
    · rcases writing_cases left with ⟨-, hw⟩ | ⟨-, hw⟩ <;> simp only [hw] <;> simp
    · intro r he
      rcases writing_cases left with ⟨-, hw⟩ | ⟨hne, hw⟩
      · simp only [hw] at he
        cases he
      · simp only [hw] at he
        exact Pc.writen.inj he ▸ hne
  | interrupted rest hpc => exact hi

theorem SessionInv.start (fp : List Byte) : SessionInv fp (Session.start fp) where
  flow := rfl
  server := ⟨⟨nofun, nofun⟩, nofun, nofun⟩
  closed := rfl
  ended := nofun
  readable := nofun
  quit := nofun
  returned := nofun
  busy := nofun

theorem SessionInv.step {cap : Capacity} {fp : List Byte} {s s' : Session} {l : Label}
    (hi : SessionInv fp s) (hs : s.step cap l = some s') : SessionInv fp s' := by
  cases l with
  | client a =>
    obtain ⟨⟨c', up', down'⟩, hc, rfl⟩ := Option.map_eq_some_iff.mp hs
    exact hi.client (clientMove_of_step hc)
  | server a =>
    obtain ⟨⟨pc', up', down'⟩, hv, rfl⟩ := Option.map_eq_some_iff.mp hs
    have hm := serverMove_of_step hv
    obtain ⟨hsrv, hc⟩ := hi.server.step hm
    refine ⟨?_, hsrv, hc.trans hi.closed, hi.ended,
      fun b hb => readable_server hi.server hm (hi.readable b hb), hi.quit, ?_, hi.busy⟩
    · simp only [server_transit hm]
      exact hi.flow
    · intro hret
      obtain ⟨heof, hexit, hp⟩ := hi.returned hret
      cases hm with
      | fill k bytes _ hpc hne hr =>
        rw [hexit] at hpc
        cases hpc
      | hangup k _ hpc hr =>
        rw [hexit] at hpc
        cases hpc
      | write k rest left _ hpc hw =>
        rw [hexit] at hpc
        cases hpc
      | interrupted hpc => exact ⟨heof, hexit, hp⟩
  | deliverUp k =>
    obtain ⟨up', hd, rfl⟩ := Option.map_eq_some_iff.mp hs
    obtain ⟨hp, hc, -⟩ := Channel.deliver_eq_some hd
    refine ⟨?_, hi.server.of_channels rfl (fun h₁ h₂ => ⟨hc.trans h₁, hp.trans h₂⟩), hc.trans hi.closed,
      hi.ended, hi.readable, hi.quit, hi.returned, hi.busy⟩
    simp only [transit, hp]
    exact hi.flow
  | deliverDown k =>
    obtain ⟨down', hd, rfl⟩ := Option.map_eq_some_iff.mp hs
    obtain ⟨hp, hc, -⟩ := Channel.deliver_eq_some hd
    refine ⟨?_, hi.server.of_channels hc (fun h₁ h₂ => ⟨h₁, h₂⟩), hi.closed, hi.ended,
      fun b hb => (hi.readable b hb).deliver hd, hi.quit, fun hret => ?_, hi.busy⟩
    · simp only [transit, hp]
      exact hi.flow
    · obtain ⟨heof, hexit, hpend⟩ := hi.returned hret
      exact ⟨heof, hexit, hp.trans hpend⟩

theorem session_inv {cap : Capacity} {fp : List Byte} {s : Session}
    (h : (session cap fp).Reachable s) : SessionInv fp s :=
  Machine.Reachable.invariant (SessionInv.start fp) (fun _ _ _ hi hs => hi.step hs) h

end LinuxPractice.Duplex.SelectClient
