import LinuxPractice.Duplex.NonblockingProgress

namespace LinuxPractice.Duplex.NonblockingClient

open Echo (Byte MAXLINE)

section Loss

variable {cap : Capacity} {fp : List Byte} {xs bs : List Byte} {b : Byte}

/-- Nothing is under way, xs is printed and input is left to read. -/
def Session.idle (xs input : List Byte) : Session :=
  ⟨⟨input, false, xs, .empty, .empty, .select⟩, .read, .empty, .empty⟩

/-- A buffer with a single byte in it. -/
def one (b : Byte) : LinearBuffer Byte MAXLINE := ⟨[b], 0, Nat.le_add_left 1 4095, .inl Nat.one_pos⟩

/-- The byte has come back and is in fr, where the client is about to print it. -/
def Session.echoed (xs : List Byte) (b : Byte) (input : List Byte) : Session :=
  ⟨⟨input, false, xs, .empty, one b, .writeStdout ⟨false, true, true, false⟩⟩, .read, .empty, .empty⟩

theorem reach_sent (h : (session cap fp).Reachable (.idle xs (b :: bs))) :
    (session cap fp).Reachable
      ⟨⟨bs, false, xs, .empty, .empty, .select⟩, .read, ⟨[b], [], false⟩, .empty⟩ := by
  have hread : (session cap fp).run (.idle xs (b :: bs))
      [.client (.select ⟨true, false, false, false⟩), .client (.io 1), .client .pass, .client .pass] =
      some ⟨⟨bs, false, xs, one b, .empty, .writeSocket ⟨true, false, false, true⟩⟩, .read, .empty,
        .empty⟩ := rfl
  have hroom : (Channel.empty : Channel Byte).pending.length < cap.up := cap.up_pos
  have hw := Channel.writeWithin_enabled (List.cons_ne_nil b []) hroom
  have hcontent : (one b).content = [b] := rfl
  refine (h.run hread).next (l := .client (.io 1)) ?_
  simp only [session, Session.step, Client.step, hcontent, hw]
  rfl

theorem reach_echoed (h : (session cap fp).Reachable (.idle xs (b :: bs))) :
    (session cap fp).Reachable (.echoed xs b bs) := by
  have hserve : (session cap fp).run
      ⟨⟨bs, false, xs, .empty, .empty, .select⟩, .read, ⟨[b], [], false⟩, .empty⟩
      [.deliverUp 1, .server (.io 1)] =
      some ⟨⟨bs, false, xs, .empty, .empty, .select⟩, .writen [b], .empty, .empty⟩ := rfl
  have hroom : (Channel.empty : Channel Byte).pending.length < cap.down := cap.down_pos
  have hw := Channel.writeWithin_enabled (List.cons_ne_nil b []) hroom
  have hecho : (session cap fp).step
      ⟨⟨bs, false, xs, .empty, .empty, .select⟩, .writen [b], .empty, .empty⟩ (.server (.io 1)) =
      some ⟨⟨bs, false, xs, .empty, .empty, .select⟩, .read, .empty, ⟨[b], [], false⟩⟩ := by
    simp only [session, Session.step, ServerPc.step, hw]
    rfl
  have hback : (session cap fp).run
      ⟨⟨bs, false, xs, .empty, .empty, .select⟩, .read, .empty, ⟨[b], [], false⟩⟩
      [.deliverDown 1, .client (.select ⟨false, true, false, false⟩), .client .pass, .client (.io 1)] =
      some (.echoed xs b bs) := rfl
  exact (((reach_sent h).run hserve).next hecho).run hback

/-- Byte by byte, any part of the input can be printed. -/
theorem reach_idle (ys : List Byte) (h : (session cap fp).Reachable (.idle xs (ys ++ bs))) :
    (session cap fp).Reachable (.idle (xs ++ ys) bs) := by
  induction ys generalizing xs with
  | nil => simpa using h
  | cons y ys ih =>
    have hprint : (session cap fp).run (.echoed xs y (ys ++ bs)) [.client (.io 1), .client .pass] =
        some (.idle (xs ++ [y]) (ys ++ bs)) := rfl
    have hrest := ih ((reach_echoed h).run hprint)
    simpa using hrest

/-- The last byte is left in fr when the client returns. -/
theorem reach_lost (h : (session cap fp).Reachable (.idle xs [b])) :
    ∃ s, (session cap fp).Reachable s ∧ s.client.pc = .returned ∧ s.client.stdout = xs := by
  have hend : (session cap fp).run (.echoed xs b [])
      [.client .pass, .client .pass, .client (.select ⟨true, false, false, false⟩), .client (.io 0),
        .client .pass, .client .pass, .client .pass, .server (.io 0),
        .client (.select ⟨false, true, false, false⟩), .client .pass, .client (.io 0)] =
      some ⟨⟨[], true, xs, .empty, one b, .returned⟩, .exited, ⟨[], [], true⟩, ⟨[], [], true⟩⟩ := rfl
  exact ⟨_, (reach_echoed h).run hend, rfl, rfl⟩

end Loss

/-- The client never gives up on the server, closes its side only when all of its input is
handed over, and returns with all printed but less than a buffer. -/
theorem nonblocking_output (cap : Capacity) (fp : List Byte) (s : Session)
    (hreach : (session cap fp).Reachable s) :
    s.client.pc ≠ .errQuit ∧
    (s.up.closed = true → s.client.input = [] ∧ s.client.toBuf.content = []) ∧
    (s.client.pc = .returned → s.client.stdout <+: fp ∧
      fp.length < s.client.stdout.length + MAXLINE) := by
  have hi := session_inv hreach
  refine ⟨hi.quit, fun hc => ?_, fun hret => ?_⟩
  · obtain ⟨heof, hto⟩ := hi.closed.mp hc
    exact ⟨hi.ended heof, hto⟩
  · have hprint := hi.printed hret
    have hroom := (hi.returned hret).2.2.2
    have hlt : s.client.frBuf.iptr < MAXLINE := Nat.lt_of_sub_pos hroom
    have hle := s.client.frBuf.content_length_le
    have hlen := congrArg List.length hprint
    rw [List.length_append] at hlen
    exact ⟨⟨_, hprint⟩, by omega⟩

theorem nonblocking_output_lost : ∃ s,
    (session ⟨1, 1, Nat.one_pos, Nat.one_pos⟩ [104]).Reachable s ∧ s.client.pc = .returned ∧
      s.client.stdout = [] ∧ s.client.stdout <+: [104] := by
  obtain ⟨s, hreach, hret, hout⟩ := reach_lost
    (Machine.Reachable.start (session ⟨1, 1, Nat.one_pos, Nat.one_pos⟩ [104]))
  exact ⟨s, hreach, hret, hout, ((nonblocking_output _ _ s hreach).2.2 hret).1⟩

/-- It is sure to print its input only when there is none: it returns on the server's end of
file without looking at what is left in fr. -/
theorem nonblocking_prints_input_iff (cap : Capacity) (fp : List Byte) :
    (∀ s, (session cap fp).Reachable s → s.client.pc = .returned → s.client.stdout = fp) ↔
      fp = [] := by
  constructor
  · intro hall
    by_contra hne
    have hsplit := List.dropLast_append_getLast hne
    have hstart : (session cap fp).Reachable (.idle [] (fp.dropLast ++ [fp.getLast hne])) := by
      rw [hsplit]
      exact Machine.Reachable.start _
    obtain ⟨s, hreach, hret, hout⟩ := reach_lost (reach_idle fp.dropLast hstart)
    have hlen := congrArg List.length (hout.symm.trans (hall s hreach hret))
    have hpos := List.length_pos_of_ne_nil hne
    rw [List.nil_append, List.length_dropLast] at hlen
    omega
  · rintro rfl s hreach hret
    have hprint := (session_inv hreach).printed hret
    exact (List.append_eq_nil_iff.mp hprint).1

end LinuxPractice.Duplex.NonblockingClient
