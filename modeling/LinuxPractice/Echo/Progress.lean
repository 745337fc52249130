import LinuxPractice.Echo.Invariant

namespace LinuxPractice.Echo

/-- Interrupted system calls are the only steps that get nothing done. -/
def productive : Label → Bool
  | .client .eintr | .server .eintr => false
  | _ => true

def ClientPc.weight : ClientPc → Nat
  | .fgets => 1
  | .writen rest => 9 * rest.length + 4
  | .readline _ _ => 3
  | .returned _ _ => 2
  | .exited | .errQuit => 0

def ServerPc.weight : ServerPc → Nat
  | .read => 1
  | .writen rest => 4 * rest.length + 3
  | .printf => 2
  | .exited => 0

/-- What is left to do: every byte weighs more the farther it is from the client's
stdout, enough for the steps that move no byte. -/
def Session.work (s : Session) : Nat :=
  14 * s.client.input.length + s.client.pc.weight +
    8 * s.up.flight.length + 7 * s.up.arrived.length + s.server.pc.weight +
    3 * s.down.flight.length + 2 * s.down.arrived.length + s.client.readBuf.length

theorem readlineNext_weight (n : Nat) (got : List Byte) (b : Byte) :
    (readlineNext n got b).weight ≤ 3 := by
  unfold readlineNext
  split
  · simp [ClientPc.weight]
  · split <;> simp [ClientPc.weight]

theorem cstr_length_le (xs : List Byte) : (cstr xs).length ≤ xs.length := by
  obtain ⟨r, hr⟩ := cstr_append_drop xs
  have hlen := congrArg List.length hr
  rw [List.length_append] at hlen
  omega

theorem client_work {s : Session} {c' : Client} {up' down' : Channel Byte} {a : Act}
    (h : ClientMove s.client s.up s.down a c' up' down') (ha : a ≠ .eintr) :
    Session.work ⟨c', s.server, up', down'⟩ < s.work := by
  unfold Session.work
  cases h with
  | eof hpc hin =>
    simp only [hpc, ClientPc.weight, Channel.close]
    omega
  | line line input hpc hin hline =>
    have hlen := congrArg List.length hin
    have hpos := List.length_pos_of_ne_nil hline.nonempty
    have hcut := cstr_length_le line
    rw [List.length_append] at hlen
    simp only [hpc, ClientPc.weight]
    omega
  | sent hpc =>
    simp only [hpc, ClientPc.weight, List.length_nil]
    omega
  | take n got readBuf b hpc hbuf =>
    have hle := readlineNext_weight n got b
    have hold : s.client.pc.weight = 3 := by rw [hpc]; rfl
    simp only [hbuf, List.length_cons]
    omega
  | quit recvline hpc =>
    simp only [hpc, ClientPc.weight, Channel.close]
    omega
  | fputs n recvline hpc hn =>
    simp only [hpc, ClientPc.weight]
    omega
  | write k rest left _ hpc hw =>
    obtain ⟨-, -, hlt, harr, hsum⟩ := Channel.write_eq_some hw
    simp only [hpc, ClientPc.weight, harr]
    omega
  | fill k n got readBuf _ hpc hbuf hne hr =>
    rcases Channel.read_eq_some hr with ⟨hnil, -⟩ | ⟨-, -, -, -, hfl, hsum⟩
    · exact absurd hnil hne
    · have hpos := List.length_pos_of_ne_nil hne
      simp only [hbuf, hfl, List.length_nil]
      omega
  | hangup k n got _ hpc hbuf hr =>
    rcases Channel.read_eq_some hr with ⟨-, rfl, -⟩ | ⟨hne, -⟩
    · simp only [hpc, ClientPc.weight]
      omega
    · exact absurd rfl hne
  | interrupted => exact absurd rfl ha

theorem server_work {s : Session} {v' : Server} {up' down' : Channel Byte} {a : Act}
    (h : ServerMove s.server s.up s.down a v' up' down') (ha : a ≠ .eintr) :
    Session.work ⟨s.client, v', up', down'⟩ < s.work := by
  unfold Session.work
  cases h with
  | sent hpc =>
    simp only [hpc, ServerPc.weight, List.length_nil]
    omega
  | print line hpc =>
    simp only [hpc, ServerPc.weight]
    omega
  | fill k bytes buf _ hpc hne hr =>
    rcases Channel.read_eq_some hr with ⟨hnil, -⟩ | ⟨-, -, -, -, hfl, hsum⟩
    · exact absurd hnil hne
    · have hpos := List.length_pos_of_ne_nil hne
      simp only [hpc, hfl, ServerPc.weight]
      omega
  | hangup k _ hpc hr =>
    rcases Channel.read_eq_some hr with ⟨-, rfl, -⟩ | ⟨hne, -⟩
    · simp only [hpc, ServerPc.weight, Channel.close]
      omega
    · exact absurd rfl hne
  | write k rest left _ hpc hw =>
    obtain ⟨-, -, hlt, harr, hsum⟩ := Channel.write_eq_some hw
    simp only [hpc, ServerPc.weight, harr]
    omega
  | interrupted => exact absurd rfl ha

/-- Every step but an interrupted system call brings the session closer to its end. -/
theorem step_work {s s' : Session} {l : Label} (hs : s.step l = some s')
    (hl : productive l = true) : s'.work < s.work := by
  cases l with
  | client a =>
    obtain ⟨⟨c', up', down'⟩, hc, rfl⟩ := Option.map_eq_some_iff.mp hs
    refine client_work (client_move hc) ?_
    intro ha
    subst ha
    cases hl
  | server a =>
    obtain ⟨⟨v', up', down'⟩, hv, rfl⟩ := Option.map_eq_some_iff.mp hs
    refine server_work (server_move hv) ?_
    intro ha
    subst ha
    cases hl
  | deliverUp k =>
    obtain ⟨up', hd, rfl⟩ := Option.map_eq_some_iff.mp hs
    obtain ⟨-, -, hlt, hsum⟩ := Channel.deliver_eq_some hd
    simp only [Session.work]
    omega
  | deliverDown k =>
    obtain ⟨down', hd, rfl⟩ := Option.map_eq_some_iff.mp hs
    obtain ⟨-, -, hlt, hsum⟩ := Channel.deliver_eq_some hd
    simp only [Session.work]
    omega

/-- An interrupted system call changes nothing. -/
theorem step_interrupted {s s' : Session} {l : Label} (hs : s.step l = some s')
    (hl : productive l = false) : s' = s := by
  cases l with
  | client a =>
    obtain ⟨⟨c', up', down'⟩, hc, rfl⟩ := Option.map_eq_some_iff.mp hs
    cases client_move hc with
    | interrupted => rfl
    | _ => cases hl
  | server a =>
    obtain ⟨⟨v', up', down'⟩, hv, rfl⟩ := Option.map_eq_some_iff.mp hs
    cases server_move hv with
    | interrupted => rfl
    | _ => cases hl
  | deliverUp k => cases hl
  | deliverDown k => cases hl

theorem session_consumes (fp buf : List Byte) :
    (session fp buf).Consumes productive Session.work where
  spend _ _ _ _ hs hl := step_work hs hl
  keep _ _ _ _ hs hl := Nat.le_of_eq (congrArg Session.work (step_interrupted hs hl))

/-- The client waits in Readline, the server waits in read, and there is no byte left
anywhere between the two. -/
def Stuck (s : Session) : Prop :=
  (∃ n got, s.client.pc = .readline n got) ∧ s.client.readBuf = [] ∧ s.server.pc = .read ∧
    s.up.pending = [] ∧ s.down.pending = []

section

variable {fp buf : List Byte} {s : Session}

/-- Whatever a label leads to at rest, it is not taken. -/
theorem not_step_of_resting (hr : (session fp buf).Resting productive s) {l : Label}
    (hl : productive l = true) : s.step l = none := by
  cases hs : s.step l with
  | none => rfl
  | some s' =>
    have hf := hr l s' hs
    rw [hl] at hf
    cases hf

theorem resting_up (hr : (session fp buf).Resting productive s) : s.up.flight = [] := by
  by_contra hne
  obtain ⟨ch, hd⟩ := Channel.deliver_enabled hne
  have hn := not_step_of_resting hr (l := .deliverUp s.up.flight.length) rfl
  simp [Session.step, hd] at hn

theorem resting_down (hr : (session fp buf).Resting productive s) : s.down.flight = [] := by
  by_contra hne
  obtain ⟨ch, hd⟩ := Channel.deliver_enabled hne
  have hn := not_step_of_resting hr (l := .deliverDown s.down.flight.length) rfl
  simp [Session.step, hd] at hn

theorem resting_client (hr : (session fp buf).Resting productive s) (a : Act) (ha : a ≠ .eintr) :
    s.client.step s.up s.down a = none := by
  have hn := not_step_of_resting hr (l := .client a) (by cases a <;> simp_all [productive])
  simpa [Session.step] using hn

theorem resting_server (hr : (session fp buf).Resting productive s) (a : Act) (ha : a ≠ .eintr) :
    s.server.step s.up s.down a = none := by
  have hn := not_step_of_resting hr (l := .server a) (by cases a <;> simp_all [productive])
  simpa [Session.step] using hn

/-- A server at rest has ended or waits in read with nothing to read. -/
theorem resting_server_cases (hr : (session fp buf).Resting productive s) :
    s.server.pc = .exited ∨
    (s.server.pc = .read ∧ s.up.pending = [] ∧ s.up.closed = false) := by
  have hgo := resting_server hr .go (by simp)
  cases hpc : s.server.pc with
  | exited => exact .inl rfl
  | printf => simp [Server.step, hpc] at hgo
  | writen rest =>
    by_cases hrest : rest = []
    · simp [Server.step, hpc, hrest] at hgo
    · obtain ⟨o, ho⟩ := s.down.write_enabled hrest
      have hio := resting_server hr (.io rest.length) (by simp)
      simp [Server.step, hpc, ho] at hio
  | read =>
    have harr : s.up.arrived = [] := by
      by_contra hne
      obtain ⟨o, ho⟩ := Channel.read_enabled (show 0 < MAXLINE by decide) hne
      have hio := resting_server hr (.io 1) (by simp)
      simp [Server.step, hpc, ho] at hio
    have hpend : s.up.pending = [] := by simp [Channel.pending, harr, resting_up hr]
    refine .inr ⟨rfl, hpend, ?_⟩
    by_contra hclosed
    have ho := Channel.read_end MAXLINE (by simpa using hclosed) hpend
    have hio := resting_server hr (.io 0) (by simp)
    simp [Server.step, hpc, ho] at hio

/-- A client at rest has ended or waits in Readline with nothing to read. -/
theorem resting_client_cases (hr : (session fp buf).Resting productive s) :
    s.client.pc = .exited ∨ s.client.pc = .errQuit ∨
    ((∃ n got, s.client.pc = .readline n got) ∧ s.client.readBuf = [] ∧ s.down.pending = []) := by
  have hgo := resting_client hr .go (by simp)
  cases hpc : s.client.pc with
  | exited => exact .inl rfl
  | errQuit => exact .inr (.inl rfl)
  | fgets =>
    simp only [Client.step, hpc] at hgo
    split at hgo <;> cases hgo
  | returned n recvline =>
    simp only [Client.step, hpc] at hgo
    split at hgo <;> cases hgo
  | writen rest =>
    by_cases hrest : rest = []
    · simp [Client.step, hpc, hrest] at hgo
    · obtain ⟨o, ho⟩ := s.up.write_enabled hrest
      have hio := resting_client hr (.io rest.length) (by simp)
      simp [Client.step, hpc, ho] at hio
  | readline n got =>
    have hbuf : s.client.readBuf = [] := by
      cases hb : s.client.readBuf with
      | nil => rfl
      | cons b bs => simp [Client.step, hpc, hb] at hgo
    have harr : s.down.arrived = [] := by
      by_contra hne
      obtain ⟨o, ho⟩ := Channel.read_enabled (show 0 < MAXLINE by decide) hne
      have hio := resting_client hr (.io 1) (by simp)
      simp [Client.step, hpc, hbuf, ho] at hio
    exact .inr (.inr ⟨⟨n, got, rfl⟩, hbuf, by simp [Channel.pending, harr, resting_down hr]⟩)

/-- A session at rest is stuck or over. -/
theorem resting_cases (hi : SessionInv fp s) (hr : (session fp buf).Resting productive s) :
    Stuck s ∨ (s.client.pc = .exited ∧ s.server.pc = .exited) := by
  rcases resting_client_cases hr with hexit | hquit | ⟨hread, hbuf, hdown⟩
  · rcases resting_server_cases hr with hs | ⟨-, -, hopen⟩
    · exact .inr ⟨hexit, hs⟩
    · rw [hi.upClosed.mpr hexit] at hopen
      cases hopen
  · have hc := hi.client
    simp only [ClientInv, hquit] at hc
  · rcases resting_server_cases hr with hs | ⟨hs, hup, -⟩
    · obtain ⟨n, got, hpc⟩ := hread
      rw [hi.serverExit hs] at hpc
      cases hpc
    · exact .inl ⟨hread, hbuf, hs, hup, hdown⟩

end

end LinuxPractice.Echo
