import LinuxPractice.Server.SelectRounds

namespace LinuxPractice.SelectServer

open Echo (Byte MAXLINE)

/-- What is read from fd and not yet written to it. -/
def Pc.unsent (fd : Nat) : Pc → List Byte
  | .writen _ fd' rest _ => if fd' = fd then rest else []
  | _ => []

/-- What a client gets back is what it has sent, in order; a closed connection has got all. -/
structure EchoInv (s : State) : Prop where
  flow : ∀ fd c, s.conns fd = some c → c.echoed ++ s.pc.unsent fd ++ c.up.pending = c.sent
  gone : ∀ c ∈ s.gone, c.echoed = c.sent

theorem unsent_next (t : Turn) (i fd : Nat) : (t.next i).unsent fd = [] := by
  unfold Turn.next
  split
  · rfl
  · rfl

/-- A step that only moves main to a place where nothing is held back. -/
theorem EchoInv.goto {s s' : State} (h : EchoInv s) (hconns : s'.conns = s.conns)
    (hgone : s'.gone = s.gone) (hpc : ∀ fd, s'.pc.unsent fd = s.pc.unsent fd) : EchoInv s' := by
  refine ⟨fun fd c hc => ?_, fun c hc => h.gone c (hgone ▸ hc)⟩
  rw [hpc]
  exact h.flow fd c (hconns ▸ hc)

/-- A step that changes one connection. -/
theorem EchoInv.setConn {s : State} (h : EchoInv s) {fd : Nat} {c' : Conn} {pc : Pc}
    (hc' : c'.echoed ++ pc.unsent fd ++ c'.up.pending = c'.sent)
    (hpc : ∀ x, x ≠ fd → pc.unsent x = s.pc.unsent x) : EchoInv (s.setConn fd c' pc) := by
  refine ⟨fun x c hc => ?_, h.gone⟩
  simp only [State.setConn] at hc ⊢
  by_cases hx : x = fd
  · subst hx
    rw [Function.update_self] at hc
    cases hc
    exact hc'
  · rw [Function.update_of_ne hx] at hc
    rw [hpc x hx]
    exact h.flow x c hc

theorem PeerMove.flow {c c' : Conn} (h : PeerMove c c') {xs : List Byte}
    (hf : xs ++ c.up.pending = c.sent) : xs ++ c'.up.pending = c'.sent ∧ c'.echoed = c.echoed := by
  cases h with
  | send bytes hc =>
    refine ⟨?_, rfl⟩
    simp only [← hf, Channel.pending, List.append_assoc]
  | deliver k up hd =>
    obtain ⟨hp, -⟩ := Channel.deliver_eq_some hd
    exact ⟨(congrArg (xs ++ ·) hp).trans hf, rfl⟩
  | shutdown => exact ⟨hf, rfl⟩

theorem EchoInv.step {listenfd : Nat} {s s' : State} {l : Label} (hl : listenfd < FD_SETSIZE)
    (hi : Inv listenfd s) (h : EchoInv s) (hm : Move listenfd s l s') : EchoInv s' := by
  cases hm with
  | select t hpc hrset hne hn => exact h.goto rfl rfl fun fd => by rw [hpc]; rfl
  | accept t fd hpc hin hlt hne hnone =>
    obtain ⟨hpc', -, hconns, hgone⟩ := accept_eq hi.books hl t fd
    have hun : ∀ x, (s.accept t fd).pc.unsent x = [] := by
      intro x
      rw [hpc']
      split
      · rfl
      · rfl
    refine ⟨fun x c hc => ?_, fun c hc => h.gone c (hgone ▸ hc)⟩
    rw [hconns] at hc
    rw [hun]
    by_cases hx : x = fd
    · subst hx
      rw [Function.update_self] at hc
      cases hc
      rfl
    · rw [Function.update_of_ne hx] at hc
      have hflow := h.flow x c hc
      rw [hpc] at hflow
      exact hflow
  | noAccept t hpc hin => exact h.goto rfl rfl fun fd => by rw [hpc]; rfl
  | visit i fd t hpc hfd hin => exact h.goto rfl rfl fun fd => by rw [hpc]; rfl
  | skip i t hpc hno => exact h.goto rfl rfl fun fd => by rw [hpc]; rfl
  | finish i t hpc hmax => exact h.goto rfl rfl fun fd => by rw [hpc]; rfl
  | hangup k i fd t c up hpc hc hr =>
    have hflow := h.flow fd c hc
    rcases Channel.read_eq_some hr with ⟨-, -, -, hp⟩ | ⟨hne, -⟩
    · rw [hpc, hp] at hflow
      refine ⟨fun x c' hc' => ?_, fun c' hc' => ?_⟩
      · simp only [State.hangup] at hc' ⊢
        have hx : x ≠ fd := by
          rintro rfl
          rw [Function.update_self] at hc'
          cases hc'
        rw [Function.update_of_ne hx] at hc'
        have hother := h.flow x c' hc'
        rw [hpc] at hother
        rw [unsent_next]
        exact hother
      · rcases List.mem_append.mp hc' with hc' | hc'
        · exact h.gone c' hc'
        · rw [List.mem_singleton] at hc'
          subst hc'
          simpa [Pc.unsent] using hflow
    · exact absurd rfl hne
  | receive k i fd t c bytes up hpc hc hne hr =>
    have hflow := h.flow fd c hc
    rcases Channel.read_eq_some hr with ⟨hnil, -⟩ | ⟨-, -, hp, -⟩
    · exact absurd hnil hne
    · refine h.setConn ?_ fun x hx => ?_
      · rw [hpc, ← hp] at hflow
        simpa [Pc.unsent] using hflow
      · rw [hpc]
        exact if_neg (Ne.symm hx)
  | write k i fd rest t c hpc hc =>
    have hflow := h.flow fd c hc
    rw [hpc] at hflow
    simp only [Pc.unsent, if_true] at hflow
    by_cases hend : rest.drop k = []
    · rw [if_pos hend]
      refine h.setConn ?_ fun x hx => ?_
      · have htake : rest.take k = rest := List.take_of_length_le (List.drop_eq_nil_iff.mp hend)
        rw [unsent_next, List.append_nil, htake]
        exact hflow
      · rw [unsent_next, hpc]
        exact (if_neg (Ne.symm hx)).symm
    · rw [if_neg hend]
      refine h.setConn ?_ fun x hx => ?_
      · simp only [Pc.unsent, if_true]
        rw [List.append_assoc c.echoed, List.take_append_drop]
        exact hflow
      · rw [hpc]
        exact (if_neg (Ne.symm hx)).trans (if_neg (Ne.symm hx)).symm
  | connect => exact h.goto rfl rfl fun fd => rfl
  | peer _ fd c c' hio hs hc hp =>
    obtain ⟨hflow, he⟩ := hp.flow (h.flow fd c hc)
    refine h.setConn ?_ fun x hx => rfl
    rw [he]
    exact hflow

theorem EchoInv.start (listenfd : Nat) : EchoInv (.start listenfd) where
  flow fd c hc := by cases hc
  gone c hc := by cases hc

theorem echo_inv {listenfd : Fin FD_SETSIZE} {s : State} (h : (server listenfd).Reachable s) :
    EchoInv s := by
  have hboth : Inv listenfd s ∧ EchoInv s := by
    refine Machine.Reachable.invariant (P := fun s => Inv listenfd s ∧ EchoInv s)
      ⟨Inv.start listenfd, EchoInv.start listenfd⟩ (fun u l v hu hs => ?_) h
    have hm := move_of_step hs
    exact ⟨hu.1.step listenfd.isLt hm, hu.2.step listenfd.isLt hu.1 hm⟩
  exact hboth.2

/-- Whatever the clients do and however their bytes arrive, each gets back what it has sent
and nothing of another; all of it, once main waits in Select with nothing of it unread, and
when main closes the connection. -/
theorem select_server_echoes (listenfd : Fin FD_SETSIZE) (s : State)
    (hreach : (server listenfd).Reachable s) :
    (∀ fd c, s.conns fd = some c → c.echoed <+: c.sent ∧
      (s.pc = .select → c.up.pending = [] → c.echoed = c.sent)) ∧
    ∀ c ∈ s.gone, c.echoed = c.sent := by
  have h := echo_inv hreach
  refine ⟨fun fd c hc => ?_, h.gone⟩
  have hflow := h.flow fd c hc
  refine ⟨⟨_, (List.append_assoc _ _ _).symm.trans hflow⟩, fun hpc hp => ?_⟩
  rw [hpc, hp] at hflow
  simpa [Pc.unsent] using hflow

theorem select_server_echoes_one : ∃ s, (server ⟨3, by decide⟩).Reachable s ∧
    ∃ c, c ∈ s.gone ∧ c.sent = [104] ∧ c.echoed = c.sent := by
  have hreach : ∃ s, (server ⟨3, by decide⟩).Reachable s ∧ s.gone = [⟨[104], ⟨[], [], true⟩, [104]⟩] :=
    ⟨_, ⟨oneClient ++ [.go, .go, .io 1, .io 1, .shutdown 4, .select, .go, .go, .io 0], rfl⟩, rfl⟩
  obtain ⟨s, hs, hgone⟩ := hreach
  have hmem : ⟨[104], ⟨[], [], true⟩, [104]⟩ ∈ s.gone := hgone ▸ List.mem_cons_self
  exact ⟨s, hs, _, hmem, rfl, (select_server_echoes _ s hs).2 _ hmem⟩

end LinuxPractice.SelectServer
