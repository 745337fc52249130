import LinuxPractice.Echo.Progress

namespace LinuxPractice.Echo

variable {fp buf : List Byte} {s : Session}

/-- What has come back to a waiting client does not complete its line, so all of a
complete line cannot have come back. -/
theorem not_stuck_of_sendable (hfp : Sendable fp) (hi : SessionInv fp s) : ¬Stuck s := by
  intro hstuck
  obtain ⟨⟨n, got, hpc⟩, hbuf, hserver, hup, hdown⟩ := hstuck
  have htr : s.transit = [] := by simp [Session.transit, Server.unsent, hbuf, hserver, hup, hdown]
  have hc := hi.client
  simp only [ClientInv, hpc, htr, List.append_nil] at hc
  obtain ⟨hhand, hsent, hgot, -⟩ := hc
  obtain ⟨hnul, hline⟩ := hi.printed.chunk hhand.chunk (hhand.parts.symm ▸ hfp)
  rw [hsent, cstr_eq_self hnul] at hgot
  exact hgot hline

theorem sendable_of_exited (hi : SessionInv fp s) (hpc : s.client.pc = .exited) : Sendable fp := by
  have hc := hi.client
  simp only [ClientInv, hpc] at hc
  exact hc.2 ▸ hi.printed

/-- The session can get stuck exactly when some line is not sent whole or is not one
that Readline takes for whole. -/
theorem never_stuck_iff_sendable (fp buf : List Byte) :
    (∀ s, (session fp buf).Reachable s → ¬Stuck s) ↔ Sendable fp := by
  constructor
  · intro hfree
    have hstart : (session fp buf).Reachable (session fp buf).init := Machine.Reachable.start _
    obtain ⟨tr, s, hrun, hrest⟩ := (session_consumes fp buf).exists_resting hstart
    have hreach : (session fp buf).Reachable s := ⟨tr, hrun⟩
    have hi := session_inv hreach
    rcases resting_cases hi hrest with hstuck | ⟨hexit, -⟩
    · exact absurd hstuck (hfree s hreach)
    · exact sendable_of_exited hi hexit
  · intro hfp s hreach
    exact not_stuck_of_sendable hfp (session_inv hreach)

/-- The letter a and no newline: the server echoes it, and both sides wait. -/
def unterminatedRun : List Label :=
  [.client .go, .client (.io 1), .deliverUp 1, .client .go, .server .eintr, .server (.io 1),
    .server (.io 1), .server .go, .deliverDown 1, .server .go, .client (.io 1), .client .go]

theorem stuck_without_newline :
    ∃ s, (session [97] (List.replicate MAXLINE nul)).Reachable s ∧ Stuck s := by
  have hs : ((session [97] (List.replicate MAXLINE nul)).run
      (session [97] (List.replicate MAXLINE nul)).init unterminatedRun).isSome = true := by decide
  exact ⟨_, Machine.Reachable.of_isSome _ _ hs, ⟨2, [97], rfl⟩, rfl, rfl, rfl, rfl⟩

/-- Text files, whose last line ends in a newline, can be sent. -/
theorem sendable_of_newline_end (hnul : nul ∉ fp) (hend : fp = [] ∨ fp.getLast? = some newline) :
    Sendable fp := by
  refine ⟨hnul, ?_⟩
  rcases hend with rfl | hlast
  · rfl
  · rw [← List.dropLast_append_getLast? newline hlast, unterminated_append_newline, Nat.zero_mod]

/-- The client never quits, Readline gives back what Fgets gave, the client's stdout is
its input when it ends, and it does end: only interrupted system calls can be taken
without bound, and a session in which nothing else is possible is over. -/
theorem echo_fidelity (fp buf : List Byte) (hnul : nul ∉ fp)
    (hend : fp = [] ∨ fp.getLast? = some newline) :
    (∀ s, (session fp buf).Reachable s →
      s.client.pc ≠ .errQuit ∧
      (∀ n recvline, s.client.pc = .returned n recvline → recvline = s.client.sendline) ∧
      (s.client.pc = .exited → s.client.stdout = fp) ∧
      ((session fp buf).Resting productive s → s.client.pc = .exited)) ∧
    ∃ bound, ∀ tr s, (session fp buf).run (session fp buf).init tr = some s →
      tr.countP productive ≤ bound := by
  refine ⟨fun s hreach => ?_, (session fp buf).init.work, fun tr s hrun => ?_⟩
  · have hi := session_inv hreach
    have hc := hi.client
    refine ⟨?_, ?_, ?_, ?_⟩
    · intro hpc
      simp only [ClientInv, hpc] at hc
    · intro n recvline hpc
      simp only [ClientInv, hpc] at hc
      exact hc.2.2.2.1
    · intro hpc
      simp only [ClientInv, hpc] at hc
      exact hc.2
    · intro hrest
      have hfree := not_stuck_of_sendable (sendable_of_newline_end hnul hend) hi
      exact ((resting_cases hi hrest).resolve_left hfree).1
  · have hcount := (session_consumes fp buf).countP_le hrun
    omega

/-- Two lines, the second of them split by short writes and reads. -/
def twoLines : List Byte := [104, 10, 105, 106, 10]

def splitRun : List Label :=
  [.client .go, .client (.io 2), .client .go, .deliverUp 1, .server (.io 1), .deliverUp 1,
    .server (.io 1), .server .go, .server .go, .server (.io 1), .deliverDown 1, .client (.io 1),
    .client .go, .server (.io 1), .deliverDown 1, .client .eintr, .client (.io 1), .client .go,
    .server .go, .server .go, .client .go, .client .go, .client (.io 1), .client .eintr,
    .client (.io 2), .client .go, .deliverUp 3, .server (.io 3), .server (.io 1), .server (.io 2),
    .deliverDown 3, .client (.io 2), .client .go, .client .go, .client (.io 1), .client .go,
    .client .go, .client .go]

theorem echo_fidelity_splitRun :
    ∃ s, (session twoLines (List.replicate MAXLINE 65)).Reachable s ∧ s.client.pc = .exited ∧
      s.client.stdout = twoLines := by
  have hs : ((session twoLines (List.replicate MAXLINE 65)).run
      (session twoLines (List.replicate MAXLINE 65)).init splitRun).isSome = true := by decide
  have hreach := Machine.Reachable.of_isSome _ _ hs
  have hpc : (Option.get _ hs).client.pc = .exited := rfl
  exact ⟨_, hreach, hpc,
    ((echo_fidelity twoLines _ (by decide) (.inr rfl)).1 _ hreach).2.2.1 hpc⟩

end LinuxPractice.Echo
