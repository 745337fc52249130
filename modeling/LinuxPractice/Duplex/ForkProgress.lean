import LinuxPractice.Duplex.ForkClient

namespace LinuxPractice.Duplex.ForkClient

open Echo (Byte MAXLINE nul cstr fgets_eq_some cstr_append_drop)

def productive : Label → Bool
  | .parent .eintr | .child .eintr | .server .eintr => false
  | _ => true

def ParentPc.weight : ParentPc → Nat
  | .fgets => 2
  | .writen rest => 20 * rest.length + 3
  | .pause => 1
  | .terminated => 0

def Parent.work (p : Parent) : Nat := 24 * p.input.length + p.pc.weight

/-- A line that is begun has still to be printed. -/
def ChildPc.weight : ChildPc → Nat
  | .readline n _ => if n ≤ 1 then 2 else 4
  | .returned n _ => if n = 0 then 1 else 3
  | .exited => 0

def Child.work (c : Child) : Nat := 3 * c.readBuf.length + c.pc.weight

def Session.work (s : Session) : Nat := s.parent.work + s.child.work + serverWork s.server s.up s.down

theorem cstr_length_le (xs : List Byte) : (cstr xs).length ≤ xs.length := by
  obtain ⟨r, hr⟩ := cstr_append_drop xs
  have hlen := congrArg List.length hr
  rw [List.length_append] at hlen
  omega

theorem parent_work {cap : Nat} {p p' : Parent} {up up' : Channel Byte} {a : Act} (pc : ServerPc)
    (down : Channel Byte) (hm : ParentMove cap p up a p' up') (ha : a ≠ .eintr) :
    p'.work + serverWork pc up' down < p.work + serverWork pc up down := by
  cases hm with
  | eof hpc hin =>
    have hclose : serverWork pc up.close down = serverWork pc up down := rfl
    simp only [Parent.work, hpc, hclose, ParentPc.weight]
    omega
  | line line input hpc hin =>
    obtain ⟨happ, hc⟩ := fgets_eq_some hin
    have hpos := List.length_pos_of_ne_nil hc.nonempty
    have hle := cstr_length_le line
    have hlen := congrArg List.length happ
    rw [List.length_append] at hlen
    simp only [Parent.work, hpc, ParentPc.weight]
    omega
  | sent hpc =>
    simp only [Parent.work, hpc, ParentPc.weight, List.length_nil]
    omega
  | write k rest left _ hpc hw =>
    have hwork := writeUp_work pc down hw
    simp only [Parent.work, hpc, ParentPc.weight]
    omega
  | interrupted => exact absurd rfl ha

theorem readlineNext_weight_le (n : Nat) (got : List Byte) (c : Byte) : (readlineNext n got c).weight ≤ 4 := by
  unfold readlineNext
  split
  · simp only [ChildPc.weight]
    split <;> omega
  · split
    · simp only [ChildPc.weight]
      split <;> omega
    · simp [ChildPc.weight]

theorem child_work {c c' : Child} {down down' : Channel Byte} {a : Act} {signal : Bool} (pc : ServerPc)
    (up : Channel Byte) (hm : ChildMove c down a c' down' signal) (ha : a ≠ .eintr) :
    c'.work + serverWork pc up down' < c.work + serverWork pc up down := by
  cases hm with
  | take n got readBuf b hpc hbuf =>
    have hnext := readlineNext_weight_le n got b
    have hge : 2 ≤ (ChildPc.readline n got).weight := by
      simp only [ChildPc.weight]
      split <;> omega
    simp only [Child.work, hpc, hbuf, List.length_cons]
    omega
  | quit recvline hpc => simp [Child.work, hpc, ChildPc.weight]
  | fputs n recvline hpc hn =>
    simp only [Child.work, hpc, ChildPc.weight, if_neg hn]
    simp
  | fill k n got readBuf _ hpc hbuf hne hr =>
    have hpos := List.length_pos_of_ne_nil hne
    have hw := readDown_work pc up hr
    simp only [Child.work, hbuf, List.length_nil]
    omega
  | hangup k n got _ hpc hbuf hr =>
    have hw := readDown_work pc up hr
    have hlt : (ChildPc.returned (n - 1) got).weight < (ChildPc.readline n got).weight := by
      simp only [ChildPc.weight]
      split <;> split <;> omega
    simp only [Child.work, hpc]
    omega
  | interrupted => exact absurd rfl ha

theorem terminate_work_le (s : Session) : s.terminate.work ≤ s.work := by
  have hclose : serverWork s.server s.up.close s.down = serverWork s.server s.up s.down := rfl
  simp only [Session.work, Session.terminate, Parent.work, ParentPc.weight, hclose]
  omega

theorem step_work {cap : Capacity} {s s' : Session} {l : Label} (hs : s.step cap l = some s')
    (hl : productive l = true) : s'.work < s.work := by
  cases l with
  | parent a =>
    obtain ⟨⟨p', up'⟩, hp, rfl⟩ := Option.map_eq_some_iff.mp hs
    have hw := parent_work s.server s.down (parentMove_of_step hp) (by rintro rfl; cases hl)
    simp only [Session.work]
    omega
  | child a =>
    obtain ⟨⟨c', down', signal⟩, hc, rfl⟩ := Option.map_eq_some_iff.mp hs
    have hw := child_work s.server s.up (childMove_of_step hc) (by rintro rfl; cases hl)
    have hlt : Session.work { s with child := c', down := down' } < s.work := by
      simp only [Session.work]
      omega
    cases signal with
    | true => exact Nat.lt_of_le_of_lt (terminate_work_le _) hlt
    | false => exact hlt
  | server a =>
    obtain ⟨⟨pc', up', down'⟩, hv, rfl⟩ := Option.map_eq_some_iff.mp hs
    cases a with
    | io k =>
      have hw := server_work (serverMove_of_step hv)
      simp only [Session.work]
      omega
    | eintr => cases hl
  | deliverUp k =>
    obtain ⟨up', hd, rfl⟩ := Option.map_eq_some_iff.mp hs
    exact Nat.add_lt_add_left (deliverUp_work hd) _
  | deliverDown k =>
    obtain ⟨down', hd, rfl⟩ := Option.map_eq_some_iff.mp hs
    exact Nat.add_lt_add_left (deliverDown_work hd) _

/-- An interrupted call has no effect. -/
theorem step_interrupted {cap : Capacity} {s s' : Session} {l : Label} (hs : s.step cap l = some s')
    (hl : productive l = false) : s' = s := by
  cases l with
  | parent a =>
    obtain ⟨⟨p', up'⟩, hp, rfl⟩ := Option.map_eq_some_iff.mp hs
    cases parentMove_of_step hp with
    | interrupted => rfl
    | _ => cases hl
  | child a =>
    obtain ⟨⟨c', down', signal⟩, hc, rfl⟩ := Option.map_eq_some_iff.mp hs
    cases childMove_of_step hc with
    | interrupted => rfl
    | _ => cases hl
  | server a =>
    obtain ⟨⟨pc', up', down'⟩, hv, rfl⟩ := Option.map_eq_some_iff.mp hs
    cases serverMove_of_step hv with
    | interrupted hpc => rfl
    | _ => cases hl
  | deliverUp k => cases hl
  | deliverDown k => cases hl

theorem session_consumes (cap : Capacity) (fp : List Byte) :
    (session cap fp).Consumes productive Session.work where
  spend _ _ _ _ hs hl := step_work hs hl
  keep _ _ _ _ hs hl := Nat.le_of_eq (congrArg Session.work (step_interrupted hs hl))

section Resting

variable {cap : Capacity} {fp : List Byte} {s : Session}

theorem resting_up (hr : (session cap fp).Resting productive s) : s.up.flight = [] :=
  Channel.flight_eq_nil fun k => Option.map_eq_none_iff.mp (hr.step_eq_none (l := .deliverUp k) rfl)

theorem resting_down (hr : (session cap fp).Resting productive s) : s.down.flight = [] :=
  Channel.flight_eq_nil fun k => Option.map_eq_none_iff.mp (hr.step_eq_none (l := .deliverDown k) rfl)

theorem resting_server (hr : (session cap fp).Resting productive s) (k : Nat) :
    s.server.step cap.down s.up s.down (.io k) = none :=
  Option.map_eq_none_iff.mp (hr.step_eq_none (l := .server (.io k)) rfl)

theorem resting_parent (hr : (session cap fp).Resting productive s) {a : Act} (ha : a ≠ .eintr) :
    s.parent.step cap.up s.up a = none := by
  have hl : productive (.parent a) = true := by
    cases a with
    | eintr => exact absurd rfl ha
    | _ => rfl
  exact Option.map_eq_none_iff.mp (hr.step_eq_none hl)

theorem resting_child (hr : (session cap fp).Resting productive s) {a : Act} (ha : a ≠ .eintr) :
    s.child.step s.down a = none := by
  have hl : productive (.child a) = true := by
    cases a with
    | eintr => exact absurd rfl ha
    | _ => rfl
  exact Option.map_eq_none_iff.mp (hr.step_eq_none hl)

/-- A child at rest waits for bytes in read or is gone. -/
theorem resting_child_cases (hr : (session cap fp).Resting productive s) :
    s.child.pc = .exited ∨ ¬s.down.Readable := by
  have hgo := resting_child hr (a := .go) (by simp)
  cases hpc : s.child.pc with
  | exited => exact .inl rfl
  | returned n recvline =>
    simp only [Child.step, hpc] at hgo
    split at hgo
    · cases hgo
    · cases hgo
  | readline n got =>
    refine .inr fun hread => ?_
    obtain ⟨k, o, ho⟩ := Channel.readable_enabled (show 0 < MAXLINE by decide) hread
    have hio := resting_child hr (a := .io k) (by simp)
    cases hbuf : s.child.readBuf with
    | nil => simp [Child.step, hpc, hbuf, ho] at hio
    | cons b readBuf => simp [Child.step, hpc, hbuf] at hgo

/-- A parent at rest has sent its FIN or has no room for its line. -/
theorem resting_parent_cases (hr : (session cap fp).Resting productive s) :
    s.parent.pc = .pause ∨ s.parent.pc = .terminated ∨ cap.up ≤ s.up.pending.length := by
  have hgo := resting_parent hr (a := .go) (by simp)
  cases hpc : s.parent.pc with
  | pause => exact .inl rfl
  | terminated => exact .inr (.inl rfl)
  | fgets =>
    simp only [Parent.step, hpc] at hgo
    split at hgo
    · cases hgo
    · cases hgo
  | writen rest =>
    refine .inr (.inr ?_)
    by_contra hroom
    cases rest with
    | nil => simp [Parent.step, hpc] at hgo
    | cons b bs =>
      have hw := Channel.writeWithin_enabled (List.cons_ne_nil b bs) (Nat.lt_of_not_le hroom)
      have hio := resting_parent hr (a := .io 1) (by simp)
      simp [Parent.step, hpc, hw] at hio

/-- The processes never wait for each other in a circle: the child always takes what the
server has to send. -/
theorem exited_of_resting (hi : SessionInv fp s) (hr : (session cap fp).Resting productive s) :
    s.child.pc = .exited := by
  rcases resting_child_cases hr with hx | hread
  · exact hx
  exfalso
  have hdownpos := cap.down_pos
  have huppos := cap.up_pos
  obtain ⟨hpend, hopen⟩ := Channel.not_readable (resting_down hr) hread
  rcases server_blocked (resting_server hr) hi.server.busy with hexit | ⟨-, hup⟩ | ⟨rest, -, -, hfull⟩
  · rw [hi.server.closed.mpr hexit] at hopen
    cases hopen
  · obtain ⟨hup, hupopen⟩ := Channel.not_readable (resting_up hr) hup
    rcases resting_parent_cases hr with hp | hp | hfull
    · rw [hi.closed.mpr (.inl hp)] at hupopen
      cases hupopen
    · rw [hi.closed.mpr (.inr hp)] at hupopen
      cases hupopen
    · rw [hup, List.length_nil] at hfull
      omega
  · rw [hpend, List.length_nil] at hfull
    omega

end Resting

/-- What has been printed when the child is gone. -/
theorem SessionInv.stdout_of_exited {fp : List Byte} {s : Session} (hi : SessionInv fp s)
    (hx : s.child.pc = .exited) : s.child.stdout = sent fp := by
  have hd := hi.exited hx
  have hp := hi.terminated.mpr hx
  have hexit := hi.server.closed.mp hd.closed
  have hflow := hi.flow
  rw [transit, hexit, hd.pending, (hi.server.drained hexit).2, hx, hp, hd.readBuf,
    hi.ended (hi.closed.mpr (.inr hp)), sent_nil] at hflow
  simpa [ChildPc.stored, ServerPc.unsent, ParentPc.unsent] using hflow

/-- With a process for each direction every session ends, whatever the connection holds:
the child sends SIGTERM when the parent is in pause, and has then printed all that the
parent has sent, which is the input exactly when there is no NUL in it. -/
theorem fork_client_completes (cap : Capacity) (fp : List Byte) :
    (∀ tr s, (session cap fp).run (session cap fp).init tr = some s →
      tr.countP productive ≤ 24 * fp.length + 5) ∧
    (∀ s recvline, (session cap fp).Reachable s → s.child.pc = .returned 0 recvline →
      s.parent.pc = .pause) ∧
    (∀ s, (session cap fp).Reachable s → (session cap fp).Resting productive s →
      s.child.pc = .exited ∧ s.parent.pc = .terminated ∧ s.child.stdout = sent fp) ∧
    ((∀ s, (session cap fp).Reachable s → (session cap fp).Resting productive s → s.child.stdout = fp) ↔
      nul ∉ fp) := by
  have hend : ∀ s, (session cap fp).Reachable s → (session cap fp).Resting productive s →
      s.child.pc = .exited ∧ s.parent.pc = .terminated ∧ s.child.stdout = sent fp := by
    intro s hreach hrest
    have hi := session_inv hreach
    have hx := exited_of_resting hi hrest
    exact ⟨hx, hi.terminated.mpr hx, hi.stdout_of_exited hx⟩
  refine ⟨fun tr s hr => ?_, fun s recvline hreach hpc => ?_, hend, ?_⟩
  · have hle := (session_consumes cap fp).countP_le hr
    have hinit : (session cap fp).init.work = 24 * fp.length + 5 := rfl
    omega
  · have hi := session_inv hreach
    exact hi.pause_of_drained (hi.eof recvline hpc).2 (by simp [hpc])
  · rw [← sent_eq_self_iff]
    constructor
    · intro hall
      obtain ⟨tr, s, hrun, hrest⟩ := (session_consumes cap fp).exists_resting (Machine.Reachable.start _)
      have hreach := (Machine.Reachable.start (session cap fp)).run hrun
      rw [← (hend s hreach hrest).2.2, hall s hreach hrest]
    · intro hself s hreach hrest
      rw [(hend s hreach hrest).2.2, hself]

end LinuxPractice.Duplex.ForkClient
