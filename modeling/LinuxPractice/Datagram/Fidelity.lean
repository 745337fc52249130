import LinuxPractice.Datagram.Invariant

namespace LinuxPractice.Datagram

open Echo (Byte nul MAXLINE cstr fgets)

/-- Whenever the client is out of Dg_send_recv, what it has printed and the answers to the
lines it has not taken yet are the answers to all lines of its input, in order. -/
def Faithful (fp : List Byte) (s : Session) : Prop :=
  s.client.pc = .fgets ∨ s.client.pc = .exited →
    s.client.stdout ++ (chunks s.client.fp).flatMap answer = (chunks fp).flatMap answer

theorem SessionInv.faithful {fp : List Byte} {k : Nat} {s : Session} (hi : SessionInv fp k s) :
    Faithful fp s := by
  intro hpc
  have hout : s.client.stdout = ((chunks fp).take k).flatMap answer := by
    have hc := hi.client
    rcases hpc with hpc | hpc
    · simpa only [ClientInv, hpc] using hc
    · simp only [ClientInv, hpc] at hc
      exact hc.1
  rw [hout, ← hi.rest, ← List.flatMap_append, List.take_append_drop]

section Exchange

variable {fp : List Byte} (buf : List Byte)

theorem fgets_of_chunks {fp line : List Byte} {more : List (List Byte)}
    (h : chunks fp = line :: more) :
    ∃ rest, fgets MAXLINE fp = some (line, rest) ∧ chunks rest = more := by
  cases hf : fgets MAXLINE fp with
  | none =>
    rw [chunks_of_none hf] at h
    cases h
  | some o =>
    obtain ⟨l, rest⟩ := o
    rw [chunks_of_some hf] at h
    obtain ⟨rfl, hmore⟩ := List.cons.inj h
    exact ⟨rest, rfl, hmore⟩

/-- The client takes a line and sends its request once. -/
theorem run_request (fp : List Byte) {s : Session} {line rest : List Byte} (hpc : s.client.pc = .fgets)
    (hin : fgets MAXLINE s.client.fp = some (line, rest)) :
    (session fp buf).run s [.client .go, .client (.send 0)] =
      some { s with
        client := { s.client with
          fp := rest, sendline := line, seq := (s.client.seq + 1) % 2 ^ 32, nrexmt := 0,
          pc := .recvmsg }
        up := s.up ++ [hdr ((s.client.seq + 1) % 2 ^ 32) 0 ++ cstr line] } := by
  simp [Machine.run, session, Session.step, Client.step, hpc, hin]

/-- The server echoes the only request in flight. -/
theorem run_serve (fp : List Byte) {s : Session} {seq ts : Nat} {line : List Byte} (hsrv : s.server = .recvfrom)
    (hup : s.up = [hdr seq ts ++ cstr line]) :
    (session fp buf).run s [.serve 0, .reply] =
      some { s with up := [], down := s.down ++ [hdr seq ts ++ answer line] } := by
  have hcut := request_take seq ts line
  obtain ⟨c, srv, up, down⟩ := s
  simp only at hsrv hup
  subst hsrv hup
  simp [Machine.run, session, Session.step, Network.receive, hcut]

/-- A reply with the number the client waits for is printed, whatever it was made for. -/
theorem run_accept (fp : List Byte) {s : Session} {i seq ts : Nat} {a : List Byte} {down' : List (List Byte)}
    (hpc : s.client.pc = .recvmsg) (hseq : seq % 2 ^ 32 = s.client.seq) (ha : a.length ≤ MAXLINE)
    (hnul : nul ∉ a) (hd : Network.receive s.down i = some (hdr seq ts ++ a, down')) :
    (session fp buf).run s [.client (.recv i), .client .go, .client .go] =
      some { s with
        client := { s.client with
          recvhdr := overwrite s.client.recvhdr (hdr seq ts)
          recvline := terminate (overwrite s.client.recvline a) a.length
          stdout := s.client.stdout ++ a
          pc := .fgets }
        down := down' } := by
  have hprint : cstr (terminate (overwrite s.client.recvline a) a.length) = a :=
    cstr_terminate hnul (take_overwrite _ _)
  have hrecv : s.client.receive (hdr seq ts ++ a) =
      { s.client with
        recvhdr := overwrite s.client.recvhdr (hdr seq ts)
        recvline := overwrite s.client.recvline a
        pc := .matched (hdrSize + a.length) } := by
    rw [receive_reply _ _ _ ha, if_neg (not_not.mpr hseq)]
  simp [Machine.run, session, Session.step, Client.step, hpc, hd, hrecv, hprint]

/-- The client is about to take line n, all earlier ones were answered, and down is what
is left in flight. -/
structure Top (fp : List Byte) (n : Nat) (down : List (List Byte)) (s : Session) : Prop where
  pc : s.client.pc = .fgets
  rest : chunks s.client.fp = (chunks fp).drop n
  seq : s.client.seq = n % 2 ^ 32
  stdout : s.client.stdout = ((chunks fp).take n).flatMap answer
  server : s.server = .recvfrom
  up : s.up = []
  down : s.down = down

theorem Top.fgets {n : Nat} {down : List (List Byte)} {s : Session} {line : List Byte}
    (h : Top fp n down s) (hline : (chunks fp)[n]? = some line) :
    ∃ rest, Echo.fgets MAXLINE s.client.fp = some (line, rest) ∧
      chunks rest = (chunks fp).drop (n + 1) := by
  have hcons : chunks s.client.fp = line :: (chunks fp).drop (n + 1) := by
    obtain ⟨hn, rfl⟩ := List.getElem?_eq_some_iff.mp hline
    rw [h.rest, List.drop_eq_getElem_cons hn]
  exact fgets_of_chunks hcons

theorem seq_succ {n seq : Nat} (h : seq = n % 2 ^ 32) : (seq + 1) % 2 ^ 32 = (n + 1) % 2 ^ 32 := by
  omega

/-- The reply that answers line n. -/
def replyFor (n : Nat) (line : List Byte) : List Byte := hdr ((n + 1) % 2 ^ 32) 0 ++ answer line

/-- Request and reply: the server's reply is in flight behind whatever was there. -/
theorem Top.exchange {n : Nat} {down : List (List Byte)} {s : Session} {line : List Byte}
    (h : Top fp n down s) (hline : (chunks fp)[n]? = some line) :
    ∃ tr u, (session fp buf).run s tr = some u ∧ u.client.pc = .recvmsg ∧
      chunks u.client.fp = (chunks fp).drop (n + 1) ∧ u.client.seq = (n + 1) % 2 ^ 32 ∧
      u.client.stdout = ((chunks fp).take n).flatMap answer ∧ u.server = .recvfrom ∧
      u.up = [] ∧ u.down = down ++ [replyFor n line] := by
  obtain ⟨rest, hin, hrest⟩ := h.fgets hline
  have hreq := run_request buf fp h.pc hin
  rw [h.up, seq_succ h.seq] at hreq
  refine ⟨_, _, Machine.run_append_of _ hreq (run_serve buf fp h.server rfl), rfl, hrest, rfl, h.stdout,
    h.server, rfl, ?_⟩
  rw [h.down, replyFor]

theorem take_succ_answers {n : Nat} {line : List Byte} (hline : (chunks fp)[n]? = some line) :
    ((chunks fp).take n).flatMap answer ++ answer line =
      ((chunks fp).take (n + 1)).flatMap answer := by
  rw [List.take_add_one, hline]
  simp

/-- One more line is answered, with everything else in flight left alone. -/
theorem Top.next {n : Nat} {down : List (List Byte)} {s : Session} {line : List Byte}
    (h : Top fp n down s) (hline : (chunks fp)[n]? = some line) :
    ∃ tr u, (session fp buf).run s tr = some u ∧ Top fp (n + 1) down u := by
  obtain ⟨tr, u, hr, hpc, hrest, hseq, hout, hsrv, hup, hdown⟩ := h.exchange buf hline
  have hget : Network.receive u.down down.length = some (replyFor n line, down) := by
    rw [hdown]
    exact Network.receive_last _ _
  have hacc := run_accept buf fp hpc (by rw [hseq]; omega)
    (answer_length_le line) (nul_not_mem_answer line) hget
  refine ⟨_, _, Machine.run_append_of _ hr hacc, rfl, hrest, hseq, ?_, hsrv, hup, rfl⟩
  show u.client.stdout ++ answer line = _
  rw [hout, take_succ_answers hline]

/-- The same, but the network keeps a copy of the reply. -/
theorem Top.keep {n : Nat} {s : Session} {line : List Byte} (h : Top fp n [] s)
    (hline : (chunks fp)[n]? = some line) :
    ∃ tr u, (session fp buf).run s tr = some u ∧ Top fp (n + 1) [replyFor n line] u := by
  obtain ⟨tr, u, hr, hpc, hrest, hseq, hout, hsrv, hup, hdown⟩ := h.exchange buf hline
  have hcopy : (session fp buf).run u [.copyDown 0] =
      some { u with down := [replyFor n line, replyFor n line] } := by
    simp [Machine.run, session, Session.step, Network.duplicate, hdown]
  have hacc := run_accept buf fp
    (s := { u with down := [replyFor n line, replyFor n line] }) (i := 0) hpc
    (by rw [hseq]; omega) (answer_length_le line) (nul_not_mem_answer line) rfl
  refine ⟨_, _, Machine.run_append_of _ hr (Machine.run_append_of _ hcopy hacc), rfl, hrest, hseq, ?_,
    hsrv, hup, rfl⟩
  show u.client.stdout ++ answer line = _
  rw [hout, take_succ_answers hline]

/-- From line n on, every line up to m can be answered in this way. -/
theorem Top.run {n m : Nat} {down : List (List Byte)} {s : Session} (h : Top fp n down s)
    (hnm : n ≤ m) (hm : m ≤ (chunks fp).length) :
    ∃ tr u, (session fp buf).run s tr = some u ∧ Top fp m down u := by
  induction hnm with
  | refl => exact ⟨[], s, rfl, h⟩
  | step hnm ih =>
    rename_i m
    obtain ⟨tr, u, hr, htop⟩ := ih (by omega)
    have hline : (chunks fp)[m]? = some (chunks fp)[m] := List.getElem?_eq_getElem hm
    obtain ⟨tr', v, hr', htop'⟩ := htop.next buf hline
    exact ⟨_, v, Machine.run_append_of _ hr hr', htop'⟩

theorem Top.start (fp buf : List Byte) : Top fp 0 [] (Session.start fp buf) :=
  ⟨rfl, rfl, rfl, rfl, rfl, rfl, rfl⟩

/-- A copy of the reply to line i, still in flight when line j is sent under the same
number, is taken for the reply to line j. -/
theorem exists_stale {i j : Nat} {line line' : List Byte} (hij : i < j)
    (hi : (chunks fp)[i]? = some line) (hj : (chunks fp)[j]? = some line')
    (hseq : i % 2 ^ 32 = j % 2 ^ 32) :
    ∃ s, (session fp buf).Reachable s ∧ s.client.pc = .fgets ∧
      chunks s.client.fp = (chunks fp).drop (j + 1) ∧
      s.client.stdout = ((chunks fp).take j).flatMap answer ++ answer line := by
  obtain ⟨hilen, -⟩ := List.getElem?_eq_some_iff.mp hi
  obtain ⟨hjlen, -⟩ := List.getElem?_eq_some_iff.mp hj
  obtain ⟨tr₁, s₁, hr₁, h₁⟩ := (Top.start fp buf).run buf (Nat.zero_le i) (by omega)
  obtain ⟨tr₂, s₂, hr₂, h₂⟩ := h₁.keep buf hi
  obtain ⟨tr₃, s₃, hr₃, h₃⟩ := h₂.run buf (m := j) (by omega) (by omega)
  obtain ⟨rest, hin, hrest⟩ := h₃.fgets hj
  have hreq := run_request buf fp h₃.pc hin
  rw [seq_succ h₃.seq] at hreq
  have hget : Network.receive s₃.down 0 = some (replyFor i line, []) := by
    rw [h₃.down]
    rfl
  have hacc := run_accept buf fp
    (s := { s₃ with
      client := { s₃.client with
        fp := rest, sendline := line', seq := (j + 1) % 2 ^ 32, nrexmt := 0, pc := .recvmsg }
      up := s₃.up ++ [hdr ((j + 1) % 2 ^ 32) 0 ++ cstr line'] })
    rfl (by show (i + 1) % 2 ^ 32 % 2 ^ 32 = (j + 1) % 2 ^ 32; omega)
    (answer_length_le line) (nul_not_mem_answer line) hget
  have hrun := Machine.run_append_of _ (Machine.run_append_of _ (Machine.run_append_of _ hr₁ hr₂) hr₃)
    (Machine.run_append_of _ hreq hacc)
  refine ⟨_, ⟨_, hrun⟩, rfl, hrest, ?_⟩
  show s₃.client.stdout ++ answer line = _
  rw [h₃.stdout]

end Exchange

/-- The echo over datagrams that the network may lose, duplicate and reorder is right in
every run exactly when no two lines with different answers share a sequence number. -/
theorem faithful_iff_unambiguous (fp buf : List Byte) :
    (∀ s, (session fp buf).Reachable s → Faithful fp s) ↔ Unambiguous fp := by
  constructor
  · intro hall
    have hlt : ∀ i j line line', i < j → (chunks fp)[i]? = some line →
        (chunks fp)[j]? = some line' → i % 2 ^ 32 = j % 2 ^ 32 → answer line = answer line' := by
      intro i j line line' hij hi hj hseq
      obtain ⟨s, hr, hpc, hrest, hout⟩ := exists_stale buf hij hi hj hseq
      have hf := hall s hr (.inl hpc)
      have hall' : (chunks fp).flatMap answer = ((chunks fp).take (j + 1)).flatMap answer ++
          ((chunks fp).drop (j + 1)).flatMap answer := by
        rw [← List.flatMap_append, List.take_append_drop]
      rw [hrest, hout, hall', ← take_succ_answers hj] at hf
      exact List.append_cancel_left (List.append_cancel_right hf)
    intro i j line line' hi hj hseq
    rcases Nat.lt_trichotomy i j with hij | rfl | hij
    · exact hlt i j line line' hij hi hj hseq
    · rw [hi] at hj
      rw [Option.some.inj hj]
    · exact (hlt j i line' line hij hj hi hseq.symm).symm
  · intro hun s hr
    obtain ⟨k, hi⟩ := session_inv hun hr
    exact hi.faithful

theorem unambiguous_of_length_le {fp : List Byte} (h : (chunks fp).length ≤ 2 ^ 32) :
    Unambiguous fp := by
  intro i j line line' hi hj hseq
  obtain ⟨hilt, -⟩ := List.getElem?_eq_some_iff.mp hi
  obtain ⟨hjlt, -⟩ := List.getElem?_eq_some_iff.mp hj
  have hij : i = j := by omega
  rw [hij, hj] at hi
  rw [Option.some.inj hi]

theorem chunks_flatten (fp : List Byte) : (chunks fp).flatten = fp := by
  induction fp using chunks.induct with
  | case1 fp h => rw [chunks_of_none h, Echo.fgets_eq_none h, List.flatten_nil]
  | case2 fp line rest h ih =>
    rw [chunks_of_some h, List.flatten_cons, ih]
    exact (Echo.fgets_eq_some h).1

theorem chunks_length_le (fp : List Byte) : (chunks fp).length ≤ fp.length := by
  induction fp using chunks.induct with
  | case1 fp h => simp [chunks_of_none h]
  | case2 fp line rest h ih =>
    obtain ⟨hsplit, hchunk⟩ := Echo.fgets_eq_some h
    have hpos := List.length_pos_of_ne_nil hchunk.nonempty
    have hlen := congrArg List.length hsplit
    rw [chunks_of_some h, List.length_cons]
    rw [List.length_append] at hlen
    omega

theorem answer_length_le_line (line : List Byte) : (answer line).length ≤ line.length := by
  obtain ⟨r, hr⟩ := Echo.cstr_append_drop line
  have hlen := congrArg List.length hr
  rw [List.length_append] at hlen
  rw [answer, List.length_take]
  omega

/-- A line comes back whole exactly when it has no NUL and fits behind the header. -/
theorem answer_eq_self_iff (line : List Byte) :
    answer line = line ↔ nul ∉ line ∧ line.length ≤ MAXLINE - hdrSize := by
  constructor
  · intro h
    refine ⟨h ▸ nul_not_mem_answer line, ?_⟩
    rw [← h, answer, List.length_take]
    omega
  · rintro ⟨hnul, hlen⟩
    rw [answer, Echo.cstr_eq_self hnul, List.take_of_length_le hlen]

/-- As no answer is longer than its line, all of them together are the input only if each
of them is its line. -/
theorem answers_eq_flatten_iff (lines : List (List Byte)) :
    lines.flatMap answer = lines.flatten ↔ ∀ line ∈ lines, answer line = line := by
  induction lines with
  | nil => simp
  | cons line lines ih =>
    rw [List.flatMap_cons, List.flatten_cons, List.forall_mem_cons, ← ih]
    constructor
    · intro h
      have hle : ∀ ls : List (List Byte), (ls.flatMap answer).length ≤ ls.flatten.length := by
        intro ls
        induction ls with
        | nil => simp
        | cons l ls ihl =>
          have hl := answer_length_le_line l
          simp only [List.flatMap_cons, List.flatten_cons, List.length_append]
          omega
      have hlen := congrArg List.length h
      have hline := answer_length_le_line line
      have hlines := hle lines
      rw [List.length_append, List.length_append] at hlen
      exact List.append_inj h (by omega)
    · rintro ⟨h₁, h₂⟩
      rw [h₁, h₂]

/-- There is a run in which every line is answered at once and the client ends. -/
theorem exists_exited (fp buf : List Byte) :
    ∃ s, (session fp buf).Reachable s ∧ s.client.pc = .exited := by
  obtain ⟨tr, u, hr, htop⟩ :=
    (Top.start fp buf).run buf (Nat.zero_le _) (Nat.le_refl (chunks fp).length)
  have hnone : fgets MAXLINE u.client.fp = none := by
    have hrest := htop.rest
    rw [List.drop_length] at hrest
    cases hf : fgets MAXLINE u.client.fp with
    | none => rfl
    | some o =>
      rw [chunks_of_some hf] at hrest
      cases hrest
  refine ⟨{ u with client := { u.client with pc := .exited } }, ⟨tr ++ [.client .go], ?_⟩, rfl⟩
  refine Machine.run_snoc_of _ hr ?_
  simp [session, Session.step, Client.step, htop.pc, hnone]

/-- The client prints its input whenever it ends exactly when no line has a NUL or more
bytes than the server's buffer holds behind the header. -/
theorem prints_input_iff (fp buf : List Byte) (h : (chunks fp).length ≤ 2 ^ 32) :
    (∀ s, (session fp buf).Reachable s → s.client.pc = .exited → s.client.stdout = fp) ↔
      ∀ line ∈ chunks fp, nul ∉ line ∧ line.length ≤ MAXLINE - hdrSize := by
  have hout : ∀ s, (session fp buf).Reachable s → s.client.pc = .exited →
      s.client.stdout = (chunks fp).flatMap answer := by
    intro s hr hpc
    obtain ⟨k, hi⟩ := session_inv (unambiguous_of_length_le h) hr
    have hf := hi.faithful (.inr hpc)
    have hc := hi.client
    simp only [ClientInv, hpc] at hc
    rwa [hc.2, List.flatMap_nil, List.append_nil] at hf
  simp only [← answer_eq_self_iff]
  rw [← answers_eq_flatten_iff, chunks_flatten]
  constructor
  · intro hall
    obtain ⟨s, hr, hpc⟩ := exists_exited fp buf
    rw [← hout s hr hpc]
    exact hall s hr hpc
  · intro heq s hr hpc
    rw [hout s hr hpc, heq]

theorem prints_input_hi :
    (∀ s, (session [104, 105, 10] []).Reachable s → s.client.pc = .exited →
      s.client.stdout = [104, 105, 10]) ↔
      ∀ line ∈ chunks [104, 105, 10], nul ∉ line ∧ line.length ≤ MAXLINE - hdrSize :=
  prints_input_iff [104, 105, 10] []
    ((chunks_length_le [104, 105, 10]).trans (by decide))

end LinuxPractice.Datagram
