import LinuxPractice.Echo.Model

namespace LinuxPractice.Echo

/-- What the server has read and not sent back yet. -/
def Server.unsent (s : Server) : List Byte :=
  match s.pc with
  | .writen rest => rest
  | _ => []

/-- All bytes between the client's Writen and its Readline, the oldest first. -/
def Session.transit (s : Session) : List Byte :=
  s.client.readBuf ++ s.down.pending ++ s.server.unsent ++ s.up.pending

/-- The line between Fgets and Fputs, against what has been printed and what is left. -/
structure InHand (fp : List Byte) (c : Client) : Prop where
  chunk : Chunk c.sendline c.input
  parts : c.stdout ++ c.sendline ++ c.input = fp

/-- What my_str_cli relies on at each of its points. -/
def ClientInv (fp transit : List Byte) (c : Client) : Prop :=
  match c.pc with
  | .fgets => transit = [] ∧ c.stdout ++ c.input = fp
  | .writen rest => InHand fp c ∧ transit ++ rest = cstr c.sendline
  | .readline n got =>
    InHand fp c ∧ got ++ transit = cstr c.sendline ∧ ¬Complete got ∧ n = got.length + 1
  | .returned n recvline =>
    InHand fp c ∧ transit = [] ∧ n ≠ 0 ∧ recvline = c.sendline ∧ Complete c.sendline ∧
      nul ∉ c.sendline
  | .exited => transit = [] ∧ c.stdout = fp
  | .errQuit => False

structure SessionInv (fp : List Byte) (s : Session) : Prop where
  client : ClientInv fp s.transit s.client
  printed : Sendable s.client.stdout
  upClosed : s.up.closed = true ↔ s.client.pc = .exited
  downClosed : s.down.closed = true ↔ s.server.pc = .exited
  serverExit : s.server.pc = .exited → s.client.pc = .exited

theorem not_complete_nil : ¬Complete [] := by
  simp [Complete, MAXLINE]

/-- A byte that does not end the loop of readline leaves the line incomplete; one that
does completes it. -/
theorem readlineNext_cases {n : Nat} {got : List Byte} (b : Byte) (hn : n = got.length + 1)
    (hgot : ¬Complete got) :
    (readlineNext n got b = .readline (n + 1) (got ++ [b]) ∧ ¬Complete (got ++ [b])) ∨
    (∃ m, m ≠ 0 ∧ readlineNext n got b = .returned m (got ++ [b]) ∧ Complete (got ++ [b])) := by
  simp only [Complete, not_or, Nat.not_le] at hgot
  unfold readlineNext
  split
  · rename_i hb
    refine .inr ⟨n, by omega, rfl, .inl ?_⟩
    simp [hb]
  · rename_i hb
    split
    · rename_i hlt
      refine .inl ⟨rfl, ?_⟩
      simp only [Complete, List.mem_append, List.mem_singleton, List.length_append,
        List.length_singleton, not_or, Nat.not_le]
      exact ⟨⟨hgot.1, Ne.symm hb⟩, by omega⟩
    · rename_i hge
      refine .inr ⟨n + 1, by omega, rfl, .inr ?_⟩
      simp only [List.length_append, List.length_singleton]
      omega

theorem pending_close (ch : Channel Byte) : ch.close.pending = ch.pending := rfl

/-- The bytes of the session are only moved on by the server and the channels. -/
theorem server_transit {s s' : Server} {up down up' down' : Channel Byte} {a : Act}
    (h : ServerMove s up down a s' up' down') :
    down'.pending ++ s'.unsent ++ up'.pending = down.pending ++ s.unsent ++ up.pending := by
  cases h with
  | sent hpc => simp [Server.unsent, hpc]
  | print line hpc => simp [Server.unsent, hpc]
  | fill k bytes buf _ hpc hne hr =>
    rcases Channel.read_eq_some hr with ⟨hnil, -⟩ | ⟨-, -, hpend, -⟩
    · exact absurd hnil hne
    · simp [Server.unsent, hpc, hpend]
  | hangup k _ hpc hr =>
    rcases Channel.read_eq_some hr with ⟨-, rfl, -⟩ | ⟨hne, -⟩
    · simp [Server.unsent, hpc, pending_close]
    · exact absurd rfl hne
  | write k rest left _ hpc hw =>
    obtain ⟨hpend, -⟩ := Channel.write_eq_some hw
    simp [Server.unsent, hpc, hpend]
  | interrupted => rfl

/-- A step of the client, with mid for what the server is holding. The server still has
its end open, so that read does not return 0. -/
theorem ClientInv.step {fp mid : List Byte} {c c' : Client} {up down up' down' : Channel Byte}
    {a : Act} (hi : ClientInv fp (c.readBuf ++ down.pending ++ mid ++ up.pending) c)
    (hopen : c.pc ≠ .exited → down.closed = false) (h : ClientMove c up down a c' up' down') :
    ClientInv fp (c'.readBuf ++ down'.pending ++ mid ++ up'.pending) c' := by
  cases h with
  | eof hpc hin =>
    simp only [ClientInv, hpc] at hi
    obtain ⟨htr, hparts⟩ := hi
    refine ⟨htr, ?_⟩
    rw [hin, List.append_nil] at hparts
    exact hparts
  | line line input hpc hin hline =>
    simp only [ClientInv, hpc] at hi
    obtain ⟨htr, hparts⟩ := hi
    refine ⟨⟨hline, ?_⟩, ?_⟩
    · rw [List.append_assoc]
      exact (congrArg _ hin).trans hparts
    · rw [htr, List.nil_append]
  | sent hpc =>
    simp only [ClientInv, hpc] at hi
    obtain ⟨hhand, hsent⟩ := hi
    refine ⟨⟨hhand.chunk, hhand.parts⟩, ?_, not_complete_nil, rfl⟩
    rw [List.append_nil] at hsent
    exact hsent
  | take n got readBuf b hpc hbuf =>
    simp only [ClientInv, hpc, hbuf] at hi
    obtain ⟨hhand, hsent, hgot, hn⟩ := hi
    have hmoved : (got ++ [b]) ++ (readBuf ++ down.pending ++ mid ++ up.pending) =
        cstr c.sendline := by
      rw [← hsent]
      simp
    rcases readlineNext_cases b hn hgot with ⟨hnext, hmore⟩ | ⟨m, hm, hnext, hdone⟩
    · simp only [ClientInv, hnext]
      exact ⟨⟨hhand.chunk, hhand.parts⟩, hmoved, hmore, by simp [hn]⟩
    · obtain ⟨hall, htr, hnul⟩ := hhand.chunk.all_back hmoved hdone
      simp only [ClientInv, hnext]
      exact ⟨⟨hhand.chunk, hhand.parts⟩, htr, hm, hall, hall ▸ hdone, hnul⟩
  | quit recvline hpc =>
    simp only [ClientInv, hpc] at hi
    exact hi.2.2.1 rfl
  | fputs n recvline hpc hn =>
    simp only [ClientInv, hpc] at hi
    obtain ⟨hhand, htr, -, rfl, -, hnul⟩ := hi
    refine ⟨htr, ?_⟩
    rw [cstr_eq_self hnul]
    exact hhand.parts
  | write k rest left _ hpc hw =>
    simp only [ClientInv, hpc] at hi
    obtain ⟨hhand, hsent⟩ := hi
    obtain ⟨hpend, -⟩ := Channel.write_eq_some hw
    refine ⟨⟨hhand.chunk, hhand.parts⟩, ?_⟩
    rw [← hsent, List.append_assoc, hpend, ← List.append_assoc]
  | fill k n got readBuf _ hpc hbuf hne hr =>
    simp only [ClientInv, hpc, hbuf] at hi
    obtain ⟨hhand, hsent, hrest⟩ := hi
    rcases Channel.read_eq_some hr with ⟨hnil, -⟩ | ⟨-, -, hpend, -⟩
    · exact absurd hnil hne
    · simp only [ClientInv, hpc]
      refine ⟨⟨hhand.chunk, hhand.parts⟩, ?_, hrest⟩
      rw [hpend, ← hsent, List.nil_append]
  | hangup k n got _ hpc hbuf hr =>
    have hclosed := hopen (by simp [hpc])
    rcases Channel.read_eq_some hr with ⟨-, -, htrue, -⟩ | ⟨hne, -⟩
    · rw [hclosed] at htrue
      cases htrue
    · exact absurd rfl hne
  | interrupted => exact hi

theorem client_printed {fp transit : List Byte} {c c' : Client} {up down up' down' : Channel Byte}
    {a : Act} (hi : ClientInv fp transit c) (hp : Sendable c.stdout)
    (h : ClientMove c up down a c' up' down') : Sendable c'.stdout := by
  cases h with
  | fputs n recvline hpc hn =>
    simp only [ClientInv, hpc] at hi
    obtain ⟨hhand, -, -, rfl, hdone, hnul⟩ := hi
    simp only [cstr_eq_self hnul]
    exact hp.append hhand.chunk hnul hdone
  | _ => exact hp

theorem readlineNext_ne_exited (n : Nat) (got : List Byte) (b : Byte) :
    readlineNext n got b ≠ .exited := by
  unfold readlineNext
  split
  · simp
  · split <;> simp

theorem client_closed {fp transit : List Byte} {c c' : Client} {up down up' down' : Channel Byte}
    {a : Act} (hi : ClientInv fp transit c) (hup : up.closed = true ↔ c.pc = .exited)
    (h : ClientMove c up down a c' up' down') :
    (up'.closed = true ↔ c'.pc = .exited) ∧ down'.closed = down.closed := by
  cases h with
  | eof hpc hin => exact ⟨by simp [Channel.close], rfl⟩
  | take n got readBuf b hpc hbuf => exact ⟨by simp [hup, hpc, readlineNext_ne_exited], rfl⟩
  | quit recvline hpc =>
    simp only [ClientInv, hpc] at hi
    exact absurd rfl hi.2.2.1
  | write k rest left _ hpc hw =>
    obtain ⟨-, hclosed, -⟩ := Channel.write_eq_some hw
    exact ⟨by simp [hclosed, hup, hpc], rfl⟩
  | fill k n got readBuf _ hpc hbuf hne hr =>
    rcases Channel.read_eq_some hr with ⟨hnil, -⟩ | ⟨-, -, -, hclosed, -⟩
    · exact absurd hnil hne
    · exact ⟨hup, hclosed⟩
  | hangup k n got _ hpc hbuf hr =>
    rcases Channel.read_eq_some hr with ⟨-, rfl, -⟩ | ⟨hne, -⟩
    · exact ⟨by simp [hup, hpc], rfl⟩
    · exact absurd rfl hne
  | interrupted => exact ⟨hup, rfl⟩
  | line line input hpc hin hline => exact ⟨by simp [hup, hpc], rfl⟩
  | sent hpc => exact ⟨by simp [hup, hpc], rfl⟩
  | fputs n recvline hpc hn => exact ⟨by simp [hup, hpc], rfl⟩

/-- The server ends when, and only when, the client has closed the connection. -/
theorem server_closed {s s' : Server} {up down up' down' : Channel Byte} {a : Act}
    (hdown : down.closed = true ↔ s.pc = .exited) (h : ServerMove s up down a s' up' down') :
    (down'.closed = true ↔ s'.pc = .exited) ∧ up'.closed = up.closed ∧
      (s'.pc = .exited → s.pc = .exited ∨ up.closed = true) := by
  cases h with
  | sent hpc => exact ⟨by simp [hdown, hpc], rfl, by simp⟩
  | print line hpc => exact ⟨by simp [hdown, hpc], rfl, by simp⟩
  | fill k bytes buf _ hpc hne hr =>
    rcases Channel.read_eq_some hr with ⟨hnil, -⟩ | ⟨-, -, -, hclosed, -⟩
    · exact absurd hnil hne
    · exact ⟨by simp [hdown, hpc], hclosed, by simp⟩
  | hangup k _ hpc hr =>
    rcases Channel.read_eq_some hr with ⟨-, rfl, htrue, -⟩ | ⟨hne, -⟩
    · exact ⟨by simp [Channel.close], rfl, fun _ => .inr htrue⟩
    · exact absurd rfl hne
  | write k rest left _ hpc hw =>
    obtain ⟨-, hclosed, -⟩ := Channel.write_eq_some hw
    exact ⟨by simp [hclosed, hdown, hpc], rfl, by simp⟩
  | interrupted => exact ⟨hdown, rfl, .inl⟩

theorem SessionInv.start (fp buf : List Byte) : SessionInv fp (Session.start fp buf) where
  client := ⟨rfl, rfl⟩
  printed := sendable_nil
  upClosed := by simp [Session.start, Channel.empty]
  downClosed := by simp [Session.start, Channel.empty]
  serverExit := by simp [Session.start]

theorem SessionInv.step {fp : List Byte} {s s' : Session} {l : Label} (hi : SessionInv fp s)
    (hs : s.step l = some s') : SessionInv fp s' := by
  cases l with
  | client a =>
    obtain ⟨⟨c', up', down'⟩, hc, rfl⟩ := Option.map_eq_some_iff.mp hs
    have hmove := client_move hc
    have hopen : s.client.pc ≠ .exited → s.down.closed = false := by
      intro hne
      by_contra hclosed
      exact hne (hi.serverExit (hi.downClosed.mp (by simpa using hclosed)))
    obtain ⟨hup, hdown⟩ := client_closed hi.client hi.upClosed hmove
    refine ⟨ClientInv.step hi.client hopen hmove, client_printed hi.client hi.printed hmove, hup,
      ?_, ?_⟩
    · simpa [hdown] using hi.downClosed
    · intro hexit
      have hpc := hi.serverExit hexit
      cases hmove <;> simp_all
  | server a =>
    obtain ⟨⟨v', up', down'⟩, hv, rfl⟩ := Option.map_eq_some_iff.mp hs
    have hmove := server_move hv
    obtain ⟨hdown, hup, hexit⟩ := server_closed hi.downClosed hmove
    have htr : Session.transit ⟨s.client, v', up', down'⟩ = s.transit := by
      simpa [Session.transit, List.append_assoc] using server_transit hmove
    refine ⟨htr ▸ hi.client, hi.printed, ?_, hdown, ?_⟩
    · simpa [hup] using hi.upClosed
    · intro h
      exact (hexit h).elim hi.serverExit hi.upClosed.mp
  | deliverUp k =>
    obtain ⟨up', hd, rfl⟩ := Option.map_eq_some_iff.mp hs
    obtain ⟨hpend, hclosed, -⟩ := Channel.deliver_eq_some hd
    refine ⟨?_, hi.printed, ?_, hi.downClosed, hi.serverExit⟩
    · simpa [Session.transit, hpend] using hi.client
    · simpa [hclosed] using hi.upClosed
  | deliverDown k =>
    obtain ⟨down', hd, rfl⟩ := Option.map_eq_some_iff.mp hs
    obtain ⟨hpend, hclosed, -⟩ := Channel.deliver_eq_some hd
    refine ⟨?_, hi.printed, hi.upClosed, ?_, hi.serverExit⟩
    · simpa [Session.transit, hpend] using hi.client
    · simpa [hclosed] using hi.downClosed

theorem session_inv {fp buf : List Byte} {s : Session} (h : (session fp buf).Reachable s) :
    SessionInv fp s :=
  h.invariant (SessionInv.start fp buf) (fun _ _ _ hi hs => hi.step hs)

end LinuxPractice.Echo
