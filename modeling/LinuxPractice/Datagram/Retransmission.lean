import LinuxPractice.Datagram.Invariant

namespace LinuxPractice.Datagram

open Echo (Byte MAXLINE fgets)

/-- The client's own steps, a Recvmsg apart: that one can give a datagram it drops. -/
def productive : Label → Bool
  | .client (.recv _) => false
  | .client _ => true
  | _ => false

/-- What a call can still do: two steps for every retransmission left, then the last
wait and the way back to Fgets. -/
def Client.weight (c : Client) : Nat :=
  match c.pc with
  | .fgets => 1
  | .sendagain => 4 + 2 * (RTT_MAXNREXMT - c.nrexmt)
  | .recvmsg | .matched _ => 3 + 2 * (RTT_MAXNREXMT - c.nrexmt)
  | .returned _ => 2
  | .exited | .errQuit => 0

def Session.work (s : Session) : Nat := 10 * (chunks s.client.fp).length + s.client.weight

theorem receive_pc (c : Client) (d : List Byte) :
    (c.receive d).pc = .recvmsg ∨ ∃ n, (c.receive d).pc = .matched n := by
  simp only [Client.receive]
  split
  · exact .inl rfl
  · exact .inr ⟨_, rfl⟩

theorem receive_weight_le {c : Client} (d : List Byte) (hpc : c.pc = .recvmsg) :
    (c.receive d).weight ≤ c.weight := by
  have hn : (c.receive d).nrexmt = c.nrexmt := rfl
  rcases receive_pc c d with h | ⟨n, h⟩
  · simp only [Client.weight, h, hpc, hn, le_refl]
  · simp only [Client.weight, h, hpc, hn, le_refl]

theorem timeout_weight_lt {c : Client} (hpc : c.pc = .recvmsg ∨ ∃ n, c.pc = .matched n) :
    c.timeout.weight < c.weight := by
  have hw : c.weight = 3 + 2 * (RTT_MAXNREXMT - c.nrexmt) := by
    rcases hpc with h | ⟨n, h⟩
    · simp only [Client.weight, h]
    · simp only [Client.weight, h]
  rw [hw]
  by_cases hn : RTT_MAXNREXMT < c.nrexmt + 1
  · have hq : c.timeout.pc = .errQuit := if_pos hn
    simp only [Client.weight, hq]
    omega
  · have hq : c.timeout.pc = .sendagain := if_neg hn
    have hnr : c.timeout.nrexmt = c.nrexmt + 1 := rfl
    simp only [Client.weight, hq, hnr]
    omega

/-- What a step of the client costs. -/
theorem client_work {s : Session} {c' : Client} {up' down' : List (List Byte)} {a : Act}
    (hm : ClientMove s.client s.up s.down a c' up' down') :
    let s' : Session := { s with client := c', up := up', down := down' }
    s'.work ≤ s.work ∧ (productive (.client a) = true → s'.work < s.work) := by
  simp only [Session.work]
  cases hm with
  | eof hpc hin =>
    simp only [Client.weight, hpc]
    omega
  | line line rest hpc hin =>
    rw [chunks_of_some hin, List.length_cons]
    simp only [Client.weight, hpc, RTT_MAXNREXMT]
    omega
  | stop n hpc =>
    simp only [Client.weight, hpc]
    omega
  | fputs n hpc =>
    simp only [Client.weight, hpc]
    omega
  | send ts hpc =>
    simp only [Client.weight, hpc]
    omega
  | recv i d _ hpc hd =>
    have hw := receive_weight_le d hpc
    have hfp : (s.client.receive d).fp = s.client.fp := rfl
    rw [hfp]
    refine ⟨by omega, fun hprod => (by cases hprod)⟩
  | alarm hpc =>
    have hw := timeout_weight_lt hpc
    have hfp : s.client.timeout.fp = s.client.fp := rfl
    rw [hfp]
    omega

theorem step_work {s s' : Session} {l : Label} (hs : s.step l = some s') :
    s'.work ≤ s.work ∧ (productive l = true → s'.work < s.work) := by
  cases move_of_step hs with
  | client a c' up' down' hm => exact client_work hm
  | serve i d up' hpc hd => exact ⟨le_rfl, fun hprod => (by cases hprod)⟩
  | reply mesg hpc => exact ⟨le_rfl, fun hprod => (by cases hprod)⟩
  | up _ up' hsub hl =>
    refine ⟨le_rfl, fun hprod => ?_⟩
    cases l with
    | client a => exact absurd rfl (hl a)
    | _ => cases hprod
  | down _ down' hsub hl =>
    refine ⟨le_rfl, fun hprod => ?_⟩
    cases l with
    | client a => exact absurd rfl (hl a)
    | _ => cases hprod

theorem session_consumes (fp buf : List Byte) :
    (session fp buf).Consumes productive Session.work where
  spend _ _ _ _ hs := (step_work hs).2
  keep _ _ _ _ hs _ := (step_work hs).1

/-- A client that can go no further has ended: the alarm gets it out of every wait. -/
theorem ended_of_resting {fp buf : List Byte} {s : Session}
    (hr : (session fp buf).Resting productive s) :
    s.client.pc = .exited ∨ s.client.pc = .errQuit := by
  have hno : ∀ a o, productive (.client a) = true → s.client.step s.up s.down a ≠ some o := by
    intro a o ha hs
    have hstep : s.step (.client a) = some { s with client := o.1, up := o.2.1, down := o.2.2 } := by
      simp only [Session.step, hs, Option.map_some]
    rw [hr (.client a) _ hstep] at ha
    cases ha
  cases hpc : s.client.pc with
  | fgets =>
    cases hin : fgets MAXLINE s.client.fp with
    | none => exact absurd (by simp [Client.step, hpc, hin]; rfl) (hno .go _ rfl)
    | some o => exact absurd (by simp [Client.step, hpc, hin]; rfl) (hno .go _ rfl)
  | sendagain => exact absurd (by simp [Client.step, hpc]; rfl) (hno (.send 0) _ rfl)
  | recvmsg => exact absurd (by simp [Client.step, hpc]; rfl) (hno .alarm _ rfl)
  | matched n => exact absurd (by simp [Client.step, hpc]; rfl) (hno .alarm _ rfl)
  | returned n => exact absurd (by simp [Client.step, hpc]; rfl) (hno .go _ rfl)
  | exited => exact .inl rfl
  | errQuit => exact .inr rfl

/-- However the network behaves, the client takes boundedly many steps in every run, and
it can only come to rest by ending. -/
theorem client_always_ends (fp buf : List Byte) :
    (∀ tr s, (session fp buf).run (session fp buf).init tr = some s →
      tr.countP productive ≤ 10 * (chunks fp).length + 1) ∧
    ∀ s, (session fp buf).Reachable s → (session fp buf).Resting productive s →
      s.client.pc = .exited ∨ s.client.pc = .errQuit := by
  refine ⟨fun tr s hr => ?_, fun s _ hrest => ended_of_resting hrest⟩
  have hle := (session_consumes fp buf).countP_le hr
  have hinit : (session fp buf).init.work = 10 * (chunks fp).length + 1 := rfl
  omega

section Attempts

def isSend : Label → Bool
  | .client (.send _) => true
  | _ => false

def isAlarm : Label → Bool
  | .client .alarm => true
  | _ => false

/-- Sendmsg calls made for the present line. -/
def Client.sent (c : Client) : Nat :=
  match c.pc with
  | .sendagain | .errQuit => c.nrexmt
  | _ => c.nrexmt + 1

/-- The client is in Dg_send_recv, on its way to print what it got, or gave up there. -/
def Client.InCall (c : Client) : Prop := c.pc ≠ .fgets ∧ c.pc ≠ .exited

/-- What the schedule since Fgets took the present line has to do with the counter. -/
structure Since (post : List Label) (c : Client) : Prop where
  alarms : post.countP isAlarm = c.nrexmt
  sends : post.countP isSend = c.sent
  limit : c.pc ≠ .errQuit → c.nrexmt ≤ RTT_MAXNREXMT
  quit : c.pc = .errQuit → c.nrexmt = RTT_MAXNREXMT + 1

/-- The schedule up to the moment the present line was taken, and from then on. -/
def Attempt (fp buf : List Byte) (tr : List Label) (c : Client) : Prop :=
  ∃ pre post u, tr = pre ++ .client .go :: post ∧
    (session fp buf).run (session fp buf).init pre = some u ∧ u.client.pc = .fgets ∧
    chunks u.client.fp = c.sendline :: chunks c.fp ∧ Since post c

variable {fp buf : List Byte} {tr : List Label}

/-- A step within the call that neither sends nor times out. -/
theorem Attempt.idle {l : Label} {c c' : Client} (h : Attempt fp buf tr c)
    (hsend : isSend l = false) (halarm : isAlarm l = false) (hfp : c'.fp = c.fp)
    (hline : c'.sendline = c.sendline) (hn : c'.nrexmt = c.nrexmt) (hsent : c'.sent = c.sent)
    (hpc : c.pc ≠ .errQuit ∧ c'.pc ≠ .errQuit ∨ c'.pc = c.pc) : Attempt fp buf (tr ++ [l]) c' := by
  obtain ⟨pre, post, u, htr, hu, hupc, hchunks, hs⟩ := h
  refine ⟨pre, post ++ [l], u, by rw [htr]; simp, hu, hupc, by rw [hchunks, hfp, hline], ?_, ?_, ?_, ?_⟩
  · rw [List.countP_append, List.countP_singleton, halarm, hn, hs.alarms]
    rfl
  · rw [List.countP_append, List.countP_singleton, hsend, hsent, hs.sends]
    rfl
  · intro hq
    rw [hn]
    rcases hpc with hpc | hpc
    · exact hs.limit hpc.1
    · exact hs.limit (hpc ▸ hq)
  · intro hq
    rcases hpc with hpc | hpc
    · exact absurd hq hpc.2
    · rw [hn]
      exact hs.quit (hpc ▸ hq)

theorem Attempt.send {c : Client} (ts : Nat) (h : Attempt fp buf tr c) (hpc : c.pc = .sendagain) :
    Attempt fp buf (tr ++ [.client (.send ts)]) { c with pc := .recvmsg } := by
  obtain ⟨pre, post, u, htr, hu, hupc, hchunks, hs⟩ := h
  have hsends := hs.sends
  simp only [Client.sent, hpc] at hsends
  refine ⟨pre, post ++ [.client (.send ts)], u, by rw [htr]; simp, hu, hupc, hchunks, ?_, ?_, ?_, ?_⟩
  · rw [List.countP_append, List.countP_singleton, hs.alarms]
    rfl
  · rw [List.countP_append, List.countP_singleton, hsends]
    rfl
  · intro _
    exact hs.limit (by rw [hpc]; decide)
  · intro hq
    cases hq

theorem Attempt.alarm {c : Client} (h : Attempt fp buf tr c)
    (hpc : c.pc = .recvmsg ∨ ∃ n, c.pc = .matched n) :
    Attempt fp buf (tr ++ [.client .alarm]) c.timeout := by
  obtain ⟨pre, post, u, htr, hu, hupc, hchunks, hs⟩ := h
  have hsent : c.sent = c.nrexmt + 1 := by
    rcases hpc with h | ⟨n, h⟩
    · simp only [Client.sent, h]
    · simp only [Client.sent, h]
  have hlimit : c.nrexmt ≤ RTT_MAXNREXMT := by
    apply hs.limit
    rcases hpc with h | ⟨n, h⟩
    · rw [h]
      nofun
    · rw [h]
      nofun
  have hsent' : c.timeout.sent = c.nrexmt + 1 := by
    by_cases hn : RTT_MAXNREXMT < c.nrexmt + 1
    · have hq : c.timeout.pc = .errQuit := if_pos hn
      simp only [Client.sent, hq]
      rfl
    · have hq : c.timeout.pc = .sendagain := if_neg hn
      simp only [Client.sent, hq]
      rfl
  refine ⟨pre, post ++ [.client .alarm], u, by rw [htr]; simp, hu, hupc, hchunks, ?_, ?_, ?_, ?_⟩
  · rw [List.countP_append, List.countP_singleton, hs.alarms]
    rfl
  · rw [List.countP_append, List.countP_singleton, hs.sends, hsent, hsent']
    rfl
  · intro hq
    show c.nrexmt + 1 ≤ RTT_MAXNREXMT
    by_contra hn
    exact hq (if_pos (by omega))
  · intro hq
    show c.nrexmt + 1 = RTT_MAXNREXMT + 1
    by_contra hn
    have hs : c.timeout.pc = .sendagain := if_neg (by omega)
    rw [hs] at hq
    cases hq

/-- One step of the client: a new line starts a new attempt, the others go on with it. -/
theorem attempt_client {s : Session} {c' : Client} {up' down' : List (List Byte)} {a : Act}
    (hr : (session fp buf).run (session fp buf).init tr = some s)
    (h : s.client.InCall → Attempt fp buf tr s.client)
    (hm : ClientMove s.client s.up s.down a c' up' down') (hc : c'.InCall) :
    Attempt fp buf (tr ++ [.client a]) c' := by
  cases hm with
  | eof hpc hin => exact absurd rfl hc.2
  | line line rest hpc hin =>
    exact ⟨tr, [], s, rfl, hr, hpc, chunks_of_some hin, rfl, rfl, fun _ => Nat.zero_le _,
      fun hq => (by cases hq)⟩
  | stop n hpc =>
    have hcall := h ⟨by rw [hpc]; nofun, by rw [hpc]; nofun⟩
    exact hcall.idle rfl rfl rfl rfl rfl (by simp [Client.sent, hpc]) (.inl ⟨by rw [hpc]; nofun, nofun⟩)
  | fputs n hpc => exact absurd rfl hc.1
  | send ts hpc => exact (h ⟨by rw [hpc]; nofun, by rw [hpc]; nofun⟩).send ts hpc
  | recv i d _ hpc hd =>
    have hcall := h ⟨by rw [hpc]; nofun, by rw [hpc]; nofun⟩
    rcases receive_pc s.client d with hq | ⟨n, hq⟩
    · exact hcall.idle rfl rfl rfl rfl rfl (by simp only [Client.sent, hpc, hq]; rfl) (.inr (by rw [hq, hpc]))
    · exact hcall.idle rfl rfl rfl rfl rfl (by simp only [Client.sent, hpc, hq]; rfl)
        (.inl ⟨by rw [hpc]; nofun, by rw [hq]; nofun⟩)
  | alarm hpc =>
    refine (h ?_).alarm hpc
    rcases hpc with hpc | ⟨n, hpc⟩
    · exact ⟨by rw [hpc]; nofun, by rw [hpc]; nofun⟩
    · exact ⟨by rw [hpc]; nofun, by rw [hpc]; nofun⟩

theorem attempt_of_run {s : Session}
    (hr : (session fp buf).run (session fp buf).init tr = some s) :
    s.client.InCall → Attempt fp buf tr s.client := by
  refine (session fp buf).run_induction
    (P := fun tr s => s.client.InCall → Attempt fp buf tr s.client) ?_ ?_ hr
  · intro hc
    exact absurd rfl hc.1
  · intro tr s l s' hu ih hs hc
    have hidle : s'.client = s.client → isSend l = false → isAlarm l = false →
        Attempt fp buf (tr ++ [l]) s'.client := by
      intro he hsend halarm
      rw [he] at hc ⊢
      exact (ih hc).idle hsend halarm rfl rfl rfl rfl (.inr rfl)
    cases move_of_step hs with
    | client a c' up' down' hm => exact attempt_client hu ih hm hc
    | serve i d up' hpc hd => exact hidle rfl rfl rfl
    | reply mesg hpc => exact hidle rfl rfl rfl
    | up _ up' hsub hl =>
      cases l with
      | client a => exact absurd rfl (hl a)
      | _ => exact hidle rfl rfl rfl
    | down _ down' hsub hl =>
      cases l with
      | client a => exact absurd rfl (hl a)
      | _ => exact hidle rfl rfl rfl

theorem Client.sent_le {post : List Label} {c : Client} (h : Since post c) :
    c.sent ≤ RTT_MAXNREXMT + 1 := by
  cases hpc : c.pc with
  | errQuit =>
    have hq := h.quit hpc
    simp only [Client.sent, hpc]
    omega
  | _ =>
    have hl := h.limit (by rw [hpc]; nofun)
    simp only [Client.sent, hpc]
    omega

/-- No line is sent more than four times, and the client gives up on a line only after
four transmissions that each ran into the alarm. -/
theorem attempts_bounded (fp buf : List Byte) (tr : List Label) (s : Session)
    (hr : (session fp buf).run (session fp buf).init tr = some s) (hc : s.client.InCall) :
    ∃ pre post u, tr = pre ++ .client .go :: post ∧
      (session fp buf).run (session fp buf).init pre = some u ∧ u.client.pc = .fgets ∧
      chunks u.client.fp = s.client.sendline :: chunks s.client.fp ∧
      post.countP isSend ≤ RTT_MAXNREXMT + 1 ∧
      (s.client.pc = .errQuit →
        post.countP isSend = RTT_MAXNREXMT + 1 ∧ post.countP isAlarm = RTT_MAXNREXMT + 1) := by
  obtain ⟨pre, post, u, htr, hu, hpc, hchunks, hs⟩ := attempt_of_run hr hc
  refine ⟨pre, post, u, htr, hu, hpc, hchunks, hs.sends ▸ Client.sent_le hs, fun hq => ?_⟩
  have hn := hs.quit hq
  have hsends := hs.sends
  simp only [Client.sent, hq] at hsends
  exact ⟨hsends.trans hn, hs.alarms.trans hn⟩

def unansweredRun : List Label :=
  [.client .go, .client (.send 0), .client .alarm, .client (.send 2), .client .alarm,
    .client (.send 6), .loseUp 0, .client .alarm, .client (.send 14), .client .alarm]

theorem attempts_unansweredRun :
    ∃ s, (session [10] []).run (session [10] []).init unansweredRun = some s ∧
      s.client.pc = .errQuit ∧
      ∃ pre post u, unansweredRun = pre ++ .client .go :: post ∧
        (session [10] []).run (session [10] []).init pre = some u ∧ u.client.pc = .fgets ∧
        chunks u.client.fp = s.client.sendline :: chunks s.client.fp ∧
        post.countP isSend ≤ RTT_MAXNREXMT + 1 ∧
        (s.client.pc = .errQuit →
          post.countP isSend = RTT_MAXNREXMT + 1 ∧ post.countP isAlarm = RTT_MAXNREXMT + 1) := by
  refine ⟨_, rfl, rfl, attempts_bounded [10] [] unansweredRun _ rfl ?_⟩
  exact ⟨nofun, nofun⟩

end Attempts

end LinuxPractice.Datagram
