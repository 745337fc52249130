import LinuxPractice.Duplex.NonblockingClient

namespace LinuxPractice.Duplex.NonblockingClient

open Echo (Byte MAXLINE)

/-- Bytes move, or the end of a stream is seen. -/
def transfer : Label → Bool
  | .client (.io _) | .server (.io _) | .deliverUp _ | .deliverDown _ => true
  | _ => false

def Pc.weight : Pc → Nat
  | .returned | .errQuit => 0
  | _ => 1

def Client.work (c : Client) : Nat :=
  24 * c.input.length + (if c.stdineof then 0 else 2) + 20 * c.toBuf.content.length +
    2 * c.frBuf.content.length + c.pc.weight

def Session.work (s : Session) : Nat := s.client.work + serverWork s.server s.up s.down

theorem serverWork_close_if (p : Prop) [Decidable p] (pc : ServerPc) (up down : Channel Byte) :
    serverWork pc (if p then up.close else up) down = serverWork pc up down := by
  split
  · rfl
  · rfl

theorem weight_of_over {pc : Pc} (h : pc.over = false) : pc.weight = 1 := by
  cases pc with
  | returned => cases h
  | errQuit => cases h
  | _ => rfl

theorem weight_next (pc : Pc) : pc.next.weight = 1 := by
  cases pc with
  | _ => rfl

theorem ended_weight (eof : Bool) : (if eof then Pc.returned else .errQuit).weight = 0 := by
  cases eof with
  | true => rfl
  | false => rfl

theorem client_work {cap k : Nat} {s : Session} {c' : Client} {up' down' : Channel Byte}
    (hopen : ∀ r, s.client.pc = .readStdin r → r.stdin = true → s.client.stdineof = false)
    (hm : ClientMove cap s.client s.up s.down (.io k) c' up' down') :
    (Session.work ⟨c', s.server, up', down'⟩) < s.work := by
  simp only [Session.work, Client.work]
  cases hm with
  | eof r hpc hr hend =>
    simp only [hpc, hopen r hpc hr, serverWork_close_if, Pc.weight]
    simp
  | fill _ r buf hpc hr hk hle hf =>
    have hlen := congrArg List.length (LinearBuffer.content_fill hf)
    rw [List.length_append, List.length_take, Nat.min_eq_left hle] at hlen
    simp only [hpc, hlen, List.length_drop, Pc.weight]
    omega
  | hangup _ r _ hpc hr hread =>
    have hclose : serverWork s.server s.up.close down' = serverWork s.server s.up down' := rfl
    have hdown : serverWork s.server s.up down' ≤ serverWork s.server s.up s.down := by
      unfold readSocket at hread
      split at hread
      · split at hread
        · cases hread
          exact Nat.le_refl _
        · cases hread
      · have hw := readDown_work s.server s.up hread
        omega
    simp only [hpc, hclose, ended_weight]
    simp only [Pc.weight]
    omega
  | receive _ r bytes buf _ hpc hr hne hread hf =>
    have hpos := List.length_pos_of_ne_nil hne
    have hlen := congrArg List.length (LinearBuffer.content_fill hf)
    rw [List.length_append] at hlen
    have hdown : serverWork s.server s.up down' + 4 * bytes.length =
        serverWork s.server s.up s.down := by
      unfold readSocket at hread
      split at hread
      · split at hread
        · cases hread
          exact absurd rfl hne
        · cases hread
      · exact readDown_work s.server s.up hread
    simp only [hpc, hlen, Pc.weight]
    omega
  | print _ r hpc hk hle =>
    simp only [hpc, LinearBuffer.content_advance, List.length_drop, Pc.weight]
    omega
  | send _ r left up₁ hpc hw =>
    obtain ⟨hk, hle, rfl⟩ := Channel.writeWithin_left hw
    have hwork := writeUp_work s.server s.down hw
    simp only [List.length_drop] at hwork
    simp only [hpc, LinearBuffer.content_advance, List.length_drop, serverWork_close_if, Pc.weight]
    omega

theorem step_work {cap : Capacity} {fp : List Byte} {s s' : Session} {l : Label}
    (hi : SessionInv fp s) (hs : s.step cap l = some s') (hl : transfer l = true) :
    s'.work < s.work := by
  cases l with
  | client a =>
    obtain ⟨⟨c', up', down'⟩, hc, rfl⟩ := Option.map_eq_some_iff.mp hs
    cases a with
    | io k => exact client_work (fun r hpc hr => (hi.stdin r hpc hr).1) (clientMove_of_step hc)
    | select r => cases hl
    | pass => cases hl
  | server a =>
    obtain ⟨⟨pc', up', down'⟩, hv, rfl⟩ := Option.map_eq_some_iff.mp hs
    cases a with
    | io k => exact Nat.add_lt_add_left (server_work (serverMove_of_step hv)) _
    | eintr => cases hl
  | deliverUp k =>
    obtain ⟨up', hd, rfl⟩ := Option.map_eq_some_iff.mp hs
    exact Nat.add_lt_add_left (deliverUp_work hd) _
  | deliverDown k =>
    obtain ⟨down', hd, rfl⟩ := Option.map_eq_some_iff.mp hs
    exact Nat.add_lt_add_left (deliverDown_work hd) _

theorem step_idle {cap : Capacity} {s s' : Session} {l : Label} (hs : s.step cap l = some s')
    (hl : transfer l = false) : s'.work ≤ s.work := by
  cases l with
  | client a =>
    obtain ⟨⟨c', up', down'⟩, hc, rfl⟩ := Option.map_eq_some_iff.mp hs
    cases clientMove_of_step hc with
    | select r hpc hr =>
      simp only [Session.work, Client.work, hpc, Pc.weight]
      exact Nat.le_refl _
    | pass hpc hover =>
      simp only [Session.work, Client.work, weight_next, weight_of_over hover]
      exact Nat.le_refl _
    | _ => cases hl
  | server a =>
    obtain ⟨⟨pc', up', down'⟩, hv, rfl⟩ := Option.map_eq_some_iff.mp hs
    cases serverMove_of_step hv with
    | interrupted hpc => exact Nat.le_refl _
    | _ => cases hl
  | deliverUp k => cases hl
  | deliverDown k => cases hl

theorem session_consumes (cap : Capacity) (fp : List Byte) :
    (session cap fp).Consumes transfer Session.work where
  spend _ _ _ hr hs hl := step_work (session_inv hr) hs hl
  keep _ _ _ _ hs hl := step_idle hs hl

section Blocks

variable {cap : Capacity} {fp : List Byte} {s : Session} {r : Ready}

/-- The session with the client at pc and all else as it is. -/
def Session.goto (s : Session) (pc : Pc) : Session := { s with client := { s.client with pc := pc } }

theorem goto_self {pc : Pc} (h : s.client.pc = pc) : s.goto pc = s := by
  subst h
  rfl

theorem goto_work {pc : Pc} (h : s.client.pc.over = false) (hpc : pc.over = false) :
    (s.goto pc).work = s.work := by
  simp only [Session.work, Session.goto, Client.work, weight_of_over h, weight_of_over hpc]
  rfl

/-- A client inside its loop can get back to Select without doing anything. -/
theorem run_select (cap : Capacity) (fp : List Byte) (h : s.client.pc.over = false) :
    ∃ tr, (session cap fp).run s tr = some (s.goto .select) := by
  cases hpc : s.client.pc with
  | select => exact ⟨[], by rw [goto_self hpc]; rfl⟩
  | readStdin r =>
    refine ⟨[.client .pass, .client .pass, .client .pass, .client .pass], ?_⟩
    rw [← goto_self hpc]
    rfl
  | readSocket r =>
    refine ⟨[.client .pass, .client .pass, .client .pass], ?_⟩
    rw [← goto_self hpc]
    rfl
  | writeStdout r =>
    refine ⟨[.client .pass, .client .pass], ?_⟩
    rw [← goto_self hpc]
    rfl
  | writeSocket r =>
    refine ⟨[.client .pass], ?_⟩
    rw [← goto_self hpc]
    rfl
  | returned =>
    rw [hpc] at h
    cases h
  | errQuit =>
    rw [hpc] at h
    cases h

/-- The blocks behind Select. -/
def Pc.isBlock (r : Ready) (pc : Pc) : Prop :=
  pc = .readStdin r ∨ pc = .readSocket r ∨ pc = .writeStdout r ∨ pc = .writeSocket r

theorem run_block (fp : List Byte) {pc : Pc} (hr : Reports cap.up s.client s.up s.down r) (hpc : pc.isBlock r) :
    ∃ tr, (session cap fp).run (s.goto .select) tr = some (s.goto pc) := by
  have hstdin : (session cap fp).run (s.goto .select) [.client (.select r)] =
      some (s.goto (.readStdin r)) := by
    have hr' : Reports cap.up { s.client with pc := .select } s.up s.down r := hr
    simp [Machine.run, session, Session.step, Client.step, Session.goto, hr']
  have hpass (pc : Pc) (tr : List Label)
      (h : (session cap fp).run (s.goto (.readStdin r)) tr = some (s.goto pc)) :
      ∃ tr, (session cap fp).run (s.goto .select) tr = some (s.goto pc) :=
    ⟨_, (session cap fp).run_append_of hstdin h⟩
  obtain rfl | rfl | rfl | rfl := hpc
  · exact ⟨_, hstdin⟩
  · exact hpass _ [.client .pass] rfl
  · exact hpass _ [.client .pass, .client .pass] rfl
  · exact hpass _ [.client .pass, .client .pass, .client .pass] rfl

/-- All that Select can report. -/
def ready (cap : Nat) (c : Client) (up down : Channel Byte) : Ready where
  stdin := decide (c.stdineof = false ∧ c.toBuf.iptr < MAXLINE)
  sockIn := decide (c.frBuf.iptr < MAXLINE ∧ down.Readable)
  stdout := decide (c.frBuf.optr ≠ c.frBuf.iptr)
  sockOut := decide (c.toBuf.optr ≠ c.toBuf.iptr ∧ up.pending.length < cap)

theorem reports_ready {n : Nat} {c : Client} {up down : Channel Byte} (r : Ready)
    (hr : r = ready n c up down) (h : (r.stdin || r.sockIn || r.stdout || r.sockOut) = true) :
    Reports n c up down r := by
  subst hr
  exact ⟨of_decide_eq_true, decide_eq_true_iff, decide_eq_true_iff, of_decide_eq_true, h⟩

/-- The client returns in the block that reads the socket, and from fr as it is. -/
theorem returned_move {n : Nat} {c c' : Client} {up down up' down' : Channel Byte} {a : Act}
    (hm : ClientMove n c up down a c' up' down') (h : c'.pc = .returned) :
    c'.frBuf = c.frBuf ∧ ∃ r, c.pc = .readSocket r := by
  cases hm with
  | hangup k r _ hpc hr hread => exact ⟨rfl, r, hpc⟩
  | pass hpc hover => exact absurd h (next_ne_returned _)
  | _ => cases h

/-- From s the session can go on to a state with less work to do, and without leaving
bytes behind in fr. -/
def Advances (cap : Capacity) (fp : List Byte) (s : Session) : Prop :=
  ∃ tr s', (session cap fp).run s tr = some s' ∧ s'.work < s.work ∧
    (s'.client.pc = .returned → s'.client.frBuf.content = [])

theorem Advances.of_step {s' : Session} {l : Label} (hreach : (session cap fp).Reachable s)
    (hs : s.step cap l = some s') (hl : transfer l = true)
    (hret : s'.client.pc = .returned → s'.client.frBuf.content = []) : Advances cap fp s := by
  refine ⟨[l], s', ?_, step_work (session_inv hreach) hs hl, hret⟩
  have hs' : (session cap fp).step s l = some s' := hs
  simp [Machine.run, hs']

theorem Advances.of_run {s' : Session} {tr : List Label}
    (hr : (session cap fp).run s tr = some s') (hw : s'.work = s.work) (h : Advances cap fp s') :
    Advances cap fp s := by
  obtain ⟨tr', u, hrun, hlt, hret⟩ := h
  exact ⟨tr ++ tr', u, (session cap fp).run_append_of hr hrun, hw ▸ hlt, hret⟩

/-- A call made in a block behind Select. -/
theorem Advances.of_block {pc : Pc} (k : Nat) (hreach : (session cap fp).Reachable s)
    (hsel : s.client.pc = .select) (hr : Reports cap.up s.client s.up s.down r)
    (hpc : pc.isBlock r)
    (hs : (({ s.client with pc := pc } : Client).step cap.up s.up s.down (.io k)).isSome = true)
    (hret : pc = .readSocket r → s.client.frBuf.content = []) : Advances cap fp s := by
  obtain ⟨tr, hrun⟩ := run_block fp hr hpc
  rw [goto_self hsel] at hrun
  have hover : pc.over = false := by
    obtain rfl | rfl | rfl | rfl := hpc
    · rfl
    · rfl
    · rfl
    · rfl
  obtain ⟨⟨c', up', down'⟩, ho⟩ := Option.isSome_iff_exists.mp hs
  have hstep : (s.goto pc).step cap (.client (.io k)) = some ⟨c', s.server, up', down'⟩ := by
    simp only [Session.step, Session.goto, ho, Option.map_some]
  refine .of_run hrun (goto_work (by rw [hsel]; rfl) hover) (.of_step (hreach.run hrun) hstep rfl ?_)
  intro hend
  obtain ⟨hfr, r', hpc'⟩ := returned_move (clientMove_of_step ho) hend
  have hpc'' : pc = .readSocket r := by
    obtain rfl | rfl | rfl | rfl := hpc
    · cases hpc'
    · rfl
    · cases hpc'
    · cases hpc'
  exact (congrArg LinearBuffer.content hfr).trans (hret hpc'')

section

variable (hreach : (session cap fp).Reachable s) (hsel : s.client.pc = .select)
include hreach hsel

theorem advances_print (hne : s.client.frBuf.content ≠ []) : Advances cap fp s := by
  obtain ⟨r, hr⟩ : ∃ r, r = ready cap.up s.client s.up s.down := ⟨_, rfl⟩
  have hbit : r.stdout = true := by
    rw [hr]
    exact decide_eq_true fun h => hne ((LinearBuffer.content_eq_nil _).mpr h)
  have hpos := List.length_pos_of_ne_nil hne
  have hk : 1 ≤ s.client.frBuf.content.length := hpos
  refine .of_block 1 hreach hsel (reports_ready r hr (by simp [hbit])) (.inr (.inr (.inl rfl))) ?_ nofun
  simp [Client.step, hbit, hk]

theorem advances_stdin (heof : s.client.stdineof = false) (hlt : s.client.toBuf.iptr < MAXLINE) :
    Advances cap fp s := by
  obtain ⟨r, hr⟩ : ∃ r, r = ready cap.up s.client s.up s.down := ⟨_, rfl⟩
  have hbit : r.stdin = true := by
    rw [hr]
    exact decide_eq_true ⟨heof, hlt⟩
  have hrep := reports_ready r hr (by simp [hbit])
  by_cases hin : s.client.input = []
  · refine .of_block 0 hreach hsel hrep (.inl rfl) ?_ nofun
    simp [Client.step, hbit, hin]
  · have hk : 1 ≤ s.client.input.length := List.length_pos_of_ne_nil hin
    have hroom : (s.client.input.take 1).length ≤ s.client.toBuf.room := by
      rw [List.length_take, LinearBuffer.room]
      omega
    obtain ⟨buf, hf⟩ := LinearBuffer.fill_enabled hroom
    refine .of_block 1 hreach hsel hrep (.inl rfl) ?_ nofun
    simp [Client.step, hbit, hk, hf]

theorem advances_receive (hnil : s.client.frBuf.content = []) (hread : s.down.Readable) :
    Advances cap fp s := by
  obtain ⟨r, hr⟩ : ∃ r, r = ready cap.up s.client s.up s.down := ⟨_, rfl⟩
  have hpos : 0 < s.client.frBuf.room := by
    rw [s.client.frBuf.room_of_content hnil]
    decide
  have hbit : r.sockIn = true := by
    rw [hr]
    exact decide_eq_true ⟨Nat.lt_of_sub_pos hpos, hread⟩
  obtain ⟨k, ⟨bytes, down'⟩, ho⟩ := Channel.readable_enabled hpos hread
  refine .of_block k hreach hsel (reports_ready r hr (by simp [hbit])) (.inr (.inl rfl)) ?_ (fun _ => hnil)
  cases bytes with
  | nil => simp [Client.step, hbit, readSocket_of_room hpos, ho]
  | cons b bs =>
    have hfit : (b :: bs).length ≤ s.client.frBuf.room := by
      rcases Channel.read_eq_some ho with ⟨hnil, -⟩ | ⟨-, hle, -⟩
      · cases hnil
      · exact hle
    obtain ⟨buf, hf⟩ := LinearBuffer.fill_enabled hfit
    simp [Client.step, hbit, readSocket_of_room hpos, ho, hf]

theorem advances_send (hne : s.client.toBuf.content ≠ []) (hroom : s.up.pending.length < cap.up) :
    Advances cap fp s := by
  obtain ⟨r, hr⟩ : ∃ r, r = ready cap.up s.client s.up s.down := ⟨_, rfl⟩
  have hbit : r.sockOut = true := by
    rw [hr]
    exact decide_eq_true ⟨fun h => hne ((LinearBuffer.content_eq_nil _).mpr h), hroom⟩
  have hw := Channel.writeWithin_enabled hne hroom
  refine .of_block 1 hreach hsel (reports_ready r hr (by simp [hbit])) (.inr (.inr (.inr rfl))) ?_ nofun
  simp [Client.step, hbit, hw]

/-- Whatever the capacity, a client in Select is never stuck. -/
theorem advances_select : Advances cap fp s := by
  have hi := session_inv hreach
  by_cases hfr : s.client.frBuf.content = []
  case neg => exact advances_print hreach hsel hfr
  by_cases hfd : s.down.flight = []
  case neg =>
    obtain ⟨ch, hd⟩ := Channel.deliver_enabled hfd
    have hs : s.step cap (.deliverDown s.down.flight.length) = some { s with down := ch } := by
      simp only [Session.step, hd, Option.map_some]
    exact .of_step hreach hs rfl (fun _ => hfr)
  by_cases hfu : s.up.flight = []
  case neg =>
    obtain ⟨ch, hd⟩ := Channel.deliver_enabled hfu
    have hs : s.step cap (.deliverUp s.up.flight.length) = some { s with up := ch } := by
      simp only [Session.step, hd, Option.map_some]
    exact .of_step hreach hs rfl (fun _ => hfr)
  by_cases hread : s.down.Readable
  · exact advances_receive hreach hsel hfr hread
  by_cases hsrv : ∃ k o, s.server.step cap.down s.up s.down (.io k) = some o
  · obtain ⟨k, o, ho⟩ := hsrv
    have hs : s.step cap (.server (.io k)) = some ⟨s.client, o.1, o.2.1, o.2.2⟩ := by
      simp only [Session.step, ho, Option.map_some]
    exact .of_step hreach hs rfl (fun _ => hfr)
  -- the server waits for bytes, so that up is empty and open
  obtain ⟨hdown, hopen⟩ := Channel.not_readable hfd hread
  have hno : ∀ k, s.server.step cap.down s.up s.down (.io k) = none := by
    intro k
    by_contra hne
    obtain ⟨o, ho⟩ := Option.ne_none_iff_exists'.mp hne
    exact hsrv ⟨k, o, ho⟩
  have hup : s.up.pending = [] ∧ s.up.closed = false := by
    rcases server_blocked hno hi.server.busy with hexit | ⟨-, hup⟩ | ⟨rest, -, -, hfull⟩
    · rw [hi.server.closed.mpr hexit] at hopen
      cases hopen
    · exact Channel.not_readable hfu hup
    · have hpos := cap.down_pos
      rw [hdown, List.length_nil] at hfull
      omega
  by_cases hto : s.client.toBuf.content = []
  · have hlt : s.client.toBuf.iptr < MAXLINE := by
      refine Nat.lt_of_sub_pos ?_
      rw [← LinearBuffer.room, s.client.toBuf.room_of_content hto]
      decide
    cases heof : s.client.stdineof with
    | false => exact advances_stdin hreach hsel heof hlt
    | true =>
      have hc := hi.closed.mpr ⟨heof, hto⟩
      rw [hup.2] at hc
      cases hc
  · refine advances_send hreach hsel hto ?_
    rw [hup.1]
    exact cap.up_pos

end

theorem advances (hreach : (session cap fp).Reachable s) (hover : s.client.pc.over = false) :
    Advances cap fp s := by
  obtain ⟨tr, hrun⟩ := run_select cap fp hover
  exact .of_run hrun (goto_work hover rfl) (advances_select (hreach.run hrun) rfl)

/-- What the client has printed when it returns: all but the bytes left in fr. -/
theorem SessionInv.printed (hi : SessionInv fp s) (hret : s.client.pc = .returned) :
    s.client.stdout ++ s.client.frBuf.content = fp := by
  obtain ⟨hup, hexit, hdown, -⟩ := hi.returned hret
  obtain ⟨heof, hto⟩ := hi.closed.mp hup
  have hflow := hi.flow
  rw [transit, hexit, hdown, (hi.server.drained hexit).2, hto, hi.ended heof] at hflow
  simpa [ServerPc.unsent] using hflow

/-- From every state before its end the session can be completed with all of the input
printed. -/
theorem completes (hreach : (session cap fp).Reachable s) (hover : s.client.pc.over = false) :
    ∃ tr s', (session cap fp).run s tr = some s' ∧ s'.client.pc = .returned ∧
      s'.client.stdout = fp := by
  induction hn : s.work using Nat.strongRecOn generalizing s with
  | ind n ih =>
    obtain ⟨tr, u, hrun, hlt, hret⟩ := advances hreach hover
    have hu := hreach.run hrun
    have hi := session_inv hu
    cases hpc : u.client.pc.over with
    | false =>
      obtain ⟨tr', v, hrun', hend⟩ := ih u.work (hn ▸ hlt) hu hpc rfl
      exact ⟨tr ++ tr', v, (session cap fp).run_append_of hrun hrun', hend⟩
    | true =>
      have hpc' : u.client.pc = .returned := by
        cases h : u.client.pc with
        | returned => rfl
        | errQuit => exact absurd h hi.quit
        | _ =>
          rw [h] at hpc
          cases hpc
      have hprint := hi.printed hpc'
      rw [hret hpc', List.append_nil] at hprint
      exact ⟨tr, u, hrun, hpc', hprint⟩

end Blocks

/-- A session over a connection of any capacity transfers boundedly often and is never
stuck: from every state it reaches before its end it can still be completed. -/
theorem nonblocking_never_deadlocks (cap : Capacity) (fp : List Byte) :
    (∀ tr s, (session cap fp).run (session cap fp).init tr = some s →
      tr.countP transfer ≤ 24 * fp.length + 4) ∧
    ∀ s, (session cap fp).Reachable s → s.client.pc = .returned ∨
      ∃ tr s', (session cap fp).run s tr = some s' ∧ s'.client.pc = .returned ∧
        s'.client.stdout = fp := by
  refine ⟨fun tr s hr => ?_, fun s hreach => ?_⟩
  · have hle := (session_consumes cap fp).countP_le hr
    have hinit : (session cap fp).init.work = 24 * fp.length + 4 := rfl
    omega
  · cases hpc : s.client.pc with
    | returned => exact .inl rfl
    | errQuit => exact absurd hpc (session_inv hreach).quit
    | _ => exact .inr (completes hreach (by rw [hpc]; rfl))

end LinuxPractice.Duplex.NonblockingClient
