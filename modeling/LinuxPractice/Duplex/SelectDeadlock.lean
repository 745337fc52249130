import LinuxPractice.Duplex.SelectClient

namespace LinuxPractice.Duplex.SelectClient

open Echo (Byte MAXLINE)

def productive : Label → Bool
  | .client .eintr | .server .eintr => false
  | _ => true

def Pc.weight : Pc → Nat
  | .select => 2
  | .socket _ | .stdin => 1
  | .writen rest => 20 * rest.length + 2
  | .returned | .errQuit => 0

def Client.work (c : Client) : Nat :=
  24 * c.input.length + (if c.stdineof then 0 else 2) + c.pc.weight

def Session.work (s : Session) : Nat := s.client.work + serverWork s.server s.up s.down

theorem writing_weight (rest : List Byte) : (writing rest).weight = 20 * rest.length + 2 := by
  cases rest with
  | nil => rfl
  | cons b bs => rfl

theorem ready_weight (sock fp : Bool) : (if sock then Pc.socket fp else .stdin).weight = 1 := by
  cases sock with
  | true => rfl
  | false => rfl

theorem next_weight_le (fp : Bool) : (if fp then Pc.stdin else .select).weight ≤ 2 := by
  cases fp with
  | true => decide
  | false => decide

theorem ended_weight (eof : Bool) : (if eof then Pc.returned else .errQuit).weight = 0 := by
  cases eof with
  | true => rfl
  | false => rfl

theorem client_work {cap : Nat} {s : Session} {c' : Client} {up' down' : Channel Byte} {a : Act}
    (hopen : s.client.pc = .stdin → s.client.stdineof = false)
    (hm : ClientMove cap s.client s.up s.down a c' up' down') (ha : a ≠ .eintr) :
    (Session.work ⟨c', s.server, up', down'⟩) < s.work := by
  simp only [Session.work, Client.work]
  cases hm with
  | select sock fp hpc hr =>
    simp only [hpc, ready_weight]
    simp only [Pc.weight]
    omega
  | print k fp bytes _ hpc hne hr =>
    have hpos := List.length_pos_of_ne_nil hne
    have hw := readDown_work s.server s.up hr
    have hnext := next_weight_le fp
    simp only [hpc, Pc.weight] at hnext ⊢
    omega
  | hangup k fp _ hpc hr =>
    have hw := readDown_work s.server s.up hr
    have hclose : serverWork s.server s.up.close down' = serverWork s.server s.up down' := rfl
    simp only [hpc, ended_weight, hclose]
    simp only [Pc.weight]
    omega
  | eof hpc hin =>
    have hclose : serverWork s.server s.up.close s.down = serverWork s.server s.up s.down := rfl
    simp only [hpc, hopen hpc, hclose, Pc.weight]
    simp
  | fill k hpc hk hle =>
    simp only [hpc, Pc.weight, List.length_drop, List.length_take]
    omega
  | write k rest left _ hpc hw =>
    have hwork := writeUp_work s.server s.down hw
    simp only [hpc, writing_weight]
    simp only [Pc.weight]
    omega
  | interrupted rest hpc => exact absurd rfl ha

theorem step_work {cap : Capacity} {fp : List Byte} {s s' : Session} {l : Label} (hi : SessionInv fp s)
    (hs : s.step cap l = some s') (hl : productive l = true) : s'.work < s.work := by
  cases l with
  | client a =>
    obtain ⟨⟨c', up', down'⟩, hc, rfl⟩ := Option.map_eq_some_iff.mp hs
    refine client_work (fun hpc => ?_) (clientMove_of_step hc) ?_
    · cases he : s.client.stdineof with
      | false => rfl
      | true => exact absurd hpc (hi.ended he).2.1
    · rintro rfl
      cases hl
  | server a =>
    obtain ⟨⟨pc', up', down'⟩, hv, rfl⟩ := Option.map_eq_some_iff.mp hs
    cases a with
    | io k =>
      have hw := server_work (serverMove_of_step hv)
      simp only [Session.work]
      omega
    | eintr => cases hl
  | deliverUp k =>
    obtain ⟨up', hd, rfl⟩ := Option.map_eq_some_iff.mp hs
    exact Nat.add_lt_add_left (deliverUp_work hd) _
  | deliverDown k =>
    obtain ⟨down', hd, rfl⟩ := Option.map_eq_some_iff.mp hs
    exact Nat.add_lt_add_left (deliverDown_work hd) _

/-- An interrupted call has no effect. -/
theorem step_interrupted {cap : Capacity} {s s' : Session} {l : Label} (hs : s.step cap l = some s')
    (hl : productive l = false) : s' = s := by
  cases l with
  | client a =>
    obtain ⟨⟨c', up', down'⟩, hc, rfl⟩ := Option.map_eq_some_iff.mp hs
    cases clientMove_of_step hc with
    | interrupted rest hpc => rfl
    | _ => cases hl
  | server a =>
    obtain ⟨⟨pc', up', down'⟩, hv, rfl⟩ := Option.map_eq_some_iff.mp hs
    cases serverMove_of_step hv with
    | interrupted hpc => rfl
    | _ => cases hl
  | deliverUp k => cases hl
  | deliverDown k => cases hl

theorem session_consumes (cap : Capacity) (fp : List Byte) :
    (session cap fp).Consumes productive Session.work where
  spend _ _ _ hr hs hl := step_work (session_inv hr) hs hl
  keep _ _ _ _ hs hl := Nat.le_of_eq (congrArg Session.work (step_interrupted hs hl))

/-- Both processes are in Writen and neither direction has room. -/
structure Deadlocked (cap : Capacity) (s : Session) : Prop where
  client : ∃ rest, s.client.pc = .writen rest ∧ rest ≠ []
  server : ∃ rest, s.server = .writen rest ∧ rest ≠ []
  up : cap.up ≤ s.up.pending.length
  down : cap.down ≤ s.down.pending.length

/-- Nothing ever changes that. -/
theorem Deadlocked.step {cap : Capacity} {s s' : Session} {l : Label} (h : Deadlocked cap s)
    (hs : s.step cap l = some s') : Deadlocked cap s' := by
  obtain ⟨rest, hpc, hrest⟩ := h.client
  obtain ⟨rest', hsrv, hrest'⟩ := h.server
  cases l with
  | client a =>
    obtain ⟨⟨c', up', down'⟩, hc, rfl⟩ := Option.map_eq_some_iff.mp hs
    cases a with
    | select sock fp => simp [Client.step, hpc] at hc
    | io k => simp [Client.step, hpc, Channel.writeWithin_full rest k h.up] at hc
    | eintr =>
      simp only [Client.step, hpc, Option.some.injEq, Prod.mk.injEq] at hc
      obtain ⟨rfl, rfl, rfl⟩ := hc
      exact h
  | server a =>
    obtain ⟨⟨pc', up', down'⟩, hv, rfl⟩ := Option.map_eq_some_iff.mp hs
    cases a with
    | io k =>
      simp [ServerPc.step, hsrv, Channel.writeWithin_full rest' k h.down] at hv
    | eintr =>
      simp only [ServerPc.step, hsrv, Option.some.injEq, Prod.mk.injEq] at hv
      obtain ⟨rfl, rfl, rfl⟩ := hv
      exact ⟨h.client, ⟨rest', rfl, hrest'⟩, h.up, h.down⟩
  | deliverUp k =>
    obtain ⟨up', hd, rfl⟩ := Option.map_eq_some_iff.mp hs
    obtain ⟨hp, -⟩ := Channel.deliver_eq_some hd
    exact ⟨h.client, h.server, hp ▸ h.up, h.down⟩
  | deliverDown k =>
    obtain ⟨down', hd, rfl⟩ := Option.map_eq_some_iff.mp hs
    obtain ⟨hp, -⟩ := Channel.deliver_eq_some hd
    exact ⟨h.client, h.server, h.up, hp ▸ h.down⟩

theorem Deadlocked.run {cap : Capacity} {fp : List Byte} {s s' : Session} {tr : List Label}
    (h : Deadlocked cap s) (hr : (session cap fp).run s tr = some s') : Deadlocked cap s' :=
  (session cap fp).run_induction (P := fun _ s => Deadlocked cap s) h
    (fun _ _ _ _ _ hd hs => hd.step hs) hr

/-- The bytes that block it all come from the input. -/
theorem Deadlocked.length_le {cap : Capacity} {fp : List Byte} {s : Session} (h : Deadlocked cap s)
    (hi : SessionInv fp s) : cap.up + cap.down + 2 ≤ fp.length := by
  obtain ⟨rest, hpc, hrest⟩ := h.client
  obtain ⟨rest', hsrv, hrest'⟩ := h.server
  have hlen := congrArg List.length hi.flow
  have hpos := List.length_pos_of_ne_nil hrest
  have hpos' := List.length_pos_of_ne_nil hrest'
  have hup := h.up
  have hdown := h.down
  simp only [transit, hsrv, hpc, ServerPc.unsent, Pc.unsent, List.length_append] at hlen
  omega

section Resting

variable {cap : Capacity} {fp : List Byte} {s : Session}

theorem resting_up (hr : (session cap fp).Resting productive s) : s.up.flight = [] :=
  Channel.flight_eq_nil fun k => Option.map_eq_none_iff.mp (hr.step_eq_none (l := .deliverUp k) rfl)

theorem resting_down (hr : (session cap fp).Resting productive s) : s.down.flight = [] :=
  Channel.flight_eq_nil fun k => Option.map_eq_none_iff.mp (hr.step_eq_none (l := .deliverDown k) rfl)

theorem resting_server (hr : (session cap fp).Resting productive s) (k : Nat) :
    s.server.step cap.down s.up s.down (.io k) = none :=
  Option.map_eq_none_iff.mp (hr.step_eq_none (l := .server (.io k)) rfl)

theorem resting_client (hr : (session cap fp).Resting productive s) {a : Act} (ha : a ≠ .eintr) :
    s.client.step cap.up s.up s.down a = none := by
  have hl : productive (.client a) = true := by
    cases a with
    | eintr => exact absurd rfl ha
    | _ => rfl
  exact Option.map_eq_none_iff.mp (hr.step_eq_none hl)

/-- The client has nothing to wait for in Select. -/
theorem resting_select (hr : (session cap fp).Resting productive s) (hpc : s.client.pc = .select) :
    s.client.stdineof = true ∧ ¬s.down.Readable := by
  have hno : ∀ sock fp', ¬Reports s.client s.down sock fp' := by
    intro sock fp' hrep
    have hs := resting_client hr (a := .select sock fp') (by simp)
    simp [Client.step, hpc, hrep] at hs
  constructor
  · cases heof : s.client.stdineof with
    | true => rfl
    | false =>
      by_cases hread : s.down.Readable
      · exact absurd ⟨⟨fun _ => hread, fun _ => rfl⟩, (by simp), rfl⟩ (hno true false)
      · exact absurd ⟨⟨(by simp), fun h => absurd h hread⟩, fun _ => heof, rfl⟩ (hno false true)
  · intro hread
    exact hno true false ⟨⟨fun _ => hread, fun _ => rfl⟩, (by simp), rfl⟩

/-- A session comes to rest in two ways only. -/
theorem resting_cases (hi : SessionInv fp s) (hr : (session cap fp).Resting productive s) :
    s.client.pc = .returned ∨ Deadlocked cap s := by
  have hfu := resting_up hr
  have hfd := resting_down hr
  have hsrv := server_blocked (resting_server hr) hi.server.busy
  have huppos := cap.up_pos
  have hdownpos := cap.down_pos
  cases hpc : s.client.pc with
  | returned => exact .inl rfl
  | errQuit => exact absurd hpc hi.quit
  | socket fp' =>
    obtain ⟨k, o, ho⟩ := Channel.readable_enabled (show 0 < MAXLINE by decide) (hi.readable fp' hpc)
    have hno := resting_client hr (a := .io k) (by simp)
    simp [Client.step, hpc, ho] at hno
  | stdin =>
    by_cases hin : s.client.input = []
    · have hno := resting_client hr (a := .io 0) (by simp)
      simp [Client.step, hpc, hin] at hno
    · have hpos := List.length_pos_of_ne_nil hin
      have hle : 1 ≤ MAXLINE ∧ 1 ≤ s.client.input.length := ⟨by decide, hpos⟩
      have hno := resting_client hr (a := .io 1) (by simp)
      simp only [Client.step, hpc, if_neg Nat.one_ne_zero, if_pos hle] at hno
      cases hno
  | select =>
    obtain ⟨heof, hread⟩ := resting_select hr hpc
    obtain ⟨hpend, hopen⟩ := Channel.not_readable hfd hread
    have hupc : s.up.closed = true := hi.closed.trans heof
    rcases hsrv with hexit | ⟨-, hup⟩ | ⟨rest, -, -, hfull⟩
    · rw [hi.server.closed.mpr hexit] at hopen
      cases hopen
    · rw [(Channel.not_readable hfu hup).2] at hupc
      cases hupc
    · rw [hpend, List.length_nil] at hfull
      omega
  | writen rest =>
    have hrest := hi.busy rest hpc
    have hopen : s.client.stdineof ≠ true := by
      intro he
      have hnil := (hi.ended he).2.2.2
      rw [hpc] at hnil
      exact hrest hnil
    have hfull : cap.up ≤ s.up.pending.length := by
      by_contra hroom
      have hw := Channel.writeWithin_enabled hrest (Nat.lt_of_not_le hroom)
      have hno := resting_client hr (a := .io 1) (by simp)
      simp [Client.step, hpc, hw] at hno
    rcases hsrv with hexit | ⟨-, hup⟩ | ⟨rest', hsrv, hne, hfull'⟩
    · exact absurd (hi.closed ▸ (hi.server.drained hexit).1) hopen
    · rw [(Channel.not_readable hfu hup).1, List.length_nil] at hfull
      omega
    · exact .inr ⟨⟨rest, hpc, hrest⟩, ⟨rest', hsrv, hne⟩, hfull, hfull'⟩

end Resting

section Filling

variable {cap : Capacity} {fp xs us bs : List Byte} {b : Byte} {srv : ServerPc}

/-- The client in Select with nothing printed, us on its way to the server and xs on its
way back. -/
def Session.loaded (xs : List Byte) (srv : ServerPc) (us input : List Byte) : Session :=
  ⟨⟨input, false, [], .select⟩, srv, ⟨us, [], false⟩, ⟨xs, [], false⟩⟩

theorem reports_stdin (input : List Byte) (xs : List Byte) :
    Reports ⟨input, false, [], .select⟩ ⟨xs, [], false⟩ false true := by
  refine ⟨⟨nofun, fun h => ?_⟩, fun _ => rfl, rfl⟩
  rcases h with h | ⟨h, -⟩
  · exact absurd rfl h
  · cases h

/-- While nothing has arrived the client reads its input. -/
theorem reach_writen (h : (session cap fp).Reachable (.loaded xs srv us (b :: bs))) :
    (session cap fp).Reachable
      ⟨⟨bs, false, [], .writen [b]⟩, srv, ⟨us, [], false⟩, ⟨xs, [], false⟩⟩ := by
  have hsel := reports_stdin (b :: bs) xs
  have hrun : (session cap fp).run (.loaded xs srv us (b :: bs))
      [.client (.select false true), .client (.io 1)] =
      some ⟨⟨bs, false, [], .writen [b]⟩, srv, ⟨us, [], false⟩, ⟨xs, [], false⟩⟩ := by
    simp [Machine.run, session, Session.loaded, Session.step, Client.step, hsel, MAXLINE]
  exact h.run hrun

/-- A byte that fits goes from the input into the connection. -/
theorem reach_sent (h : (session cap fp).Reachable (.loaded xs srv us (b :: bs)))
    (hroom : us.length < cap.up) :
    (session cap fp).Reachable (.loaded xs srv (us ++ [b]) bs) := by
  refine (reach_writen h).next (l := .client (.io 1)) ?_
  have hfull : (Channel.mk us [] false).pending.length < cap.up := hroom
  have hw := Channel.writeWithin_enabled (List.cons_ne_nil b []) hfull
  simp [session, Session.step, Client.step, hw, writing, Session.loaded]

/-- The server takes the byte that is on its way to it. -/
theorem reach_served (h : (session cap fp).Reachable (.loaded xs .read [b] bs)) :
    (session cap fp).Reachable (.loaded xs (.writen [b]) [] bs) := by
  have hrun : (session cap fp).run (.loaded xs .read [b] bs) [.deliverUp 1, .server (.io 1)] =
      some (.loaded xs (.writen [b]) [] bs) := by
    simp [Machine.run, session, Session.loaded, Session.step, Channel.deliver, ServerPc.step,
      Channel.read, MAXLINE]
  exact h.run hrun

/-- And sends it back if it fits. -/
theorem reach_echoed (hroom : xs.length < cap.down)
    (h : (session cap fp).Reachable (.loaded xs (.writen [b]) [] bs)) :
    (session cap fp).Reachable (.loaded (xs ++ [b]) .read [] bs) := by
  refine h.next (l := .server (.io 1)) ?_
  have hfull : (Channel.mk xs [] false).pending.length < cap.down := hroom
  have hw := Channel.writeWithin_enabled (List.cons_ne_nil b []) hfull
  simp [session, Session.step, ServerPc.step, hw, ServerPc.writing, Session.loaded]

theorem reach_down_filled (ys : List Byte) (hroom : xs.length + ys.length ≤ cap.down)
    (h : (session cap fp).Reachable (.loaded xs .read [] (ys ++ bs))) :
    (session cap fp).Reachable (.loaded (xs ++ ys) .read [] bs) := by
  induction ys generalizing xs with
  | nil => simpa using h
  | cons y ys ih =>
    rw [List.length_cons] at hroom
    have hsent := reach_sent h cap.up_pos
    have hecho := reach_echoed (by omega) (reach_served hsent)
    have hrest := ih (by rw [List.length_append, List.length_singleton]; omega) hecho
    simpa using hrest

theorem reach_up_filled (ys : List Byte) (hroom : us.length + ys.length ≤ cap.up)
    (h : (session cap fp).Reachable (.loaded xs srv us (ys ++ bs))) :
    (session cap fp).Reachable (.loaded xs srv (us ++ ys) bs) := by
  induction ys generalizing us with
  | nil => simpa using h
  | cons y ys ih =>
    rw [List.length_cons] at hroom
    have hsent := reach_sent h (by omega)
    have hrest := ih (by rw [List.length_append, List.length_singleton]; omega) hsent
    simpa using hrest

/-- An input that long can be caught in the buffers of the connection and of the two
processes while the client prints nothing. -/
theorem deadlock_reachable (hlen : cap.up + cap.down + 2 ≤ fp.length) :
    ∃ s, (session cap fp).Reachable s ∧ Deadlocked cap s := by
  have hsplit : fp = fp.take cap.down ++ fp.drop cap.down := (List.take_append_drop _ _).symm
  have hdown : (fp.take cap.down).length = cap.down := by
    rw [List.length_take]
    omega
  obtain ⟨b, rest, hrest⟩ : ∃ b rest, fp.drop cap.down = b :: rest := by
    refine List.exists_cons_of_length_pos ?_
    rw [List.length_drop]
    omega
  have hlen' : rest.length + cap.down + 1 = fp.length := by
    have hl := congrArg List.length hrest
    rw [List.length_drop, List.length_cons] at hl
    omega
  have hup : (rest.take cap.up).length = cap.up := by
    rw [List.length_take]
    omega
  obtain ⟨c, left, hleft⟩ : ∃ c left, rest.drop cap.up = c :: left := by
    refine List.exists_cons_of_length_pos ?_
    rw [List.length_drop]
    omega
  have hstart : (session cap fp).Reachable
      (.loaded [] .read [] (fp.take cap.down ++ b :: (rest.take cap.up ++ c :: left))) := by
    rw [← hleft, List.take_append_drop, ← hrest, ← hsplit]
    exact Machine.Reachable.start _
  have hfilled := reach_down_filled (fp.take cap.down) (by rw [hdown]; exact Nat.le_of_eq (Nat.zero_add _)) hstart
  have hserved := reach_served (reach_sent hfilled cap.up_pos)
  have hstuck := reach_writen
    (reach_up_filled (rest.take cap.up) (by rw [hup]; exact Nat.le_of_eq (Nat.zero_add _)) hserved)
  refine ⟨_, hstuck, ⟨[c], rfl, List.cons_ne_nil c []⟩, ⟨[b], rfl, List.cons_ne_nil b []⟩, ?_, ?_⟩
  · exact Nat.le_of_eq hup.symm
  · exact Nat.le_of_eq hdown.symm

end Filling

/-- What the client has printed when it returns. -/
theorem SessionInv.stdout_of_returned {fp : List Byte} {s : Session} (hi : SessionInv fp s)
    (hret : s.client.pc = .returned) : s.client.stdout = fp := by
  obtain ⟨heof, hexit, hdown⟩ := hi.returned hret
  have hflow := hi.flow
  rw [transit, hexit, hdown, (hi.server.drained hexit).2, hret, (hi.ended heof).1] at hflow
  simpa [ServerPc.unsent, Pc.unsent] using hflow

/-- Every session takes boundedly many steps. It always ends with the whole input printed
exactly when the input is shorter than what the two directions of the connection and the
buffers of the two processes can hold together. -/
theorem select_client_completes_iff (cap : Capacity) (fp : List Byte) :
    (∀ tr s, (session cap fp).run (session cap fp).init tr = some s →
      tr.countP productive ≤ 24 * fp.length + 5) ∧
    ((∀ s, (session cap fp).Reachable s → (session cap fp).Resting productive s →
      s.client.pc = .returned ∧ s.client.stdout = fp) ↔ fp.length < cap.up + cap.down + 2) := by
  refine ⟨fun tr s hr => ?_, ?_, ?_⟩
  · have hle := (session_consumes cap fp).countP_le hr
    have hinit : (session cap fp).init.work = 24 * fp.length + 5 := rfl
    omega
  · intro hall
    by_contra hlong
    obtain ⟨s, hreach, hdead⟩ := deadlock_reachable (Nat.le_of_not_lt hlong)
    obtain ⟨tr, s', hrun, hrest⟩ := (session_consumes cap fp).exists_resting hreach
    obtain ⟨rest, hpc, -⟩ := (hdead.run hrun).client
    have hret := (hall s' (hreach.run hrun) hrest).1
    rw [hpc] at hret
    cases hret
  · intro hshort s hreach hrest
    have hi := session_inv hreach
    rcases resting_cases hi hrest with hret | hdead
    · exact ⟨hret, hi.stdout_of_returned hret⟩
    · exact absurd (hdead.length_le hi) (Nat.not_le_of_lt hshort)

end LinuxPractice.Duplex.SelectClient
