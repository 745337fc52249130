import LinuxPractice.Datagram.Model

namespace LinuxPractice.Datagram

open Echo (Byte nul MAXLINE cstr fgets nul_not_mem_cstr)

/-- The lines Fgets makes of an input. -/
def chunks (fp : List Byte) : List (List Byte) :=
  match _h : fgets MAXLINE fp with
  | none => []
  | some (line, rest) => line :: chunks rest
termination_by fp.length
decreasing_by
  obtain ⟨hsplit, hchunk⟩ := Echo.fgets_eq_some _h
  have hpos := List.length_pos_of_ne_nil hchunk.nonempty
  rw [← hsplit, List.length_append]
  omega

theorem chunks_of_none {fp : List Byte} (h : fgets MAXLINE fp = none) : chunks fp = [] := by
  rw [chunks]
  split
  · rfl
  · rename_i hs
    rw [h] at hs
    cases hs

theorem chunks_of_some {fp line rest : List Byte} (h : fgets MAXLINE fp = some (line, rest)) :
    chunks fp = line :: chunks rest := by
  rw [chunks]
  split
  · rename_i hs
    rw [h] at hs
    cases hs
  · rename_i l r hs
    rw [h] at hs
    cases hs
    rfl

/-- What comes back for a line: the datagram of its request cut to MAXLINE bytes, less
the header. -/
def answer (line : List Byte) : List Byte := (cstr line).take (MAXLINE - hdrSize)

theorem nul_not_mem_answer (line : List Byte) : nul ∉ answer line :=
  fun h => nul_not_mem_cstr line (List.mem_of_mem_take h)

theorem answer_length_le (line : List Byte) : (answer line).length ≤ MAXLINE := by
  rw [answer, List.length_take]
  have hle : MAXLINE - hdrSize ≤ MAXLINE := Nat.sub_le _ _
  omega

@[simp] theorem hdr_length (seq ts : Nat) : (hdr seq ts).length = hdrSize := by
  simp [hdr, hdrSize]

theorem hdrSeq_hdr (seq ts : Nat) (more : List Byte) :
    hdrSeq (hdr seq ts ++ more) = seq % 2 ^ 32 := by
  have htake : (hdr seq ts ++ more).take 4 = Words.bytes 4 seq := by
    rw [hdr, List.append_assoc]
    exact List.take_left' (Words.bytes_length 4 seq)
  have hwidth : 256 ^ 4 = 2 ^ 32 := by decide
  rw [hdrSeq, htake, Words.value_bytes, hwidth]

/-- The server sends back the request cut to the size of its buffer. -/
theorem request_take (seq ts : Nat) (line : List Byte) :
    (hdr seq ts ++ cstr line).take MAXLINE = hdr seq ts ++ answer line := by
  rw [List.take_append, hdr_length, answer, List.take_of_length_le]
  rw [hdr_length]
  decide

/-- A datagram with a whole header, as Recvmsg and the test of the loop take it. -/
theorem receive_reply (c : Client) (seq ts : Nat) {a : List Byte} (ha : a.length ≤ MAXLINE) :
    c.receive (hdr seq ts ++ a) =
      { c with
        recvhdr := overwrite c.recvhdr (hdr seq ts)
        recvline := overwrite c.recvline a
        pc := if seq % 2 ^ 32 ≠ c.seq then .recvmsg else .matched (hdrSize + a.length) } := by
  have hlen : (hdr seq ts ++ a).length = hdrSize + a.length := by simp
  have hn : min (hdr seq ts ++ a).length (hdrSize + MAXLINE) = hdrSize + a.length := by omega
  have htake : (hdr seq ts ++ a).take (hdrSize + a.length) = hdr seq ts ++ a :=
    List.take_of_length_le (Nat.le_of_eq hlen)
  have hhead : (hdr seq ts ++ a).take hdrSize = hdr seq ts := List.take_left' (hdr_length seq ts)
  have htail : (hdr seq ts ++ a).drop hdrSize = a := List.drop_left' (hdr_length seq ts)
  have hseq : hdrSeq (overwrite c.recvhdr (hdr seq ts)) = seq % 2 ^ 32 := hdrSeq_hdr seq ts _
  have hlt : ¬hdrSize + a.length < hdrSize := by omega
  simp only [Client.receive, hn, htake, hhead, htail, hseq, hlt, false_or]

theorem take_overwrite (buf a : List Byte) : (overwrite buf a).take a.length = a :=
  List.take_left

/-- Fputs after recvline[n] = 0 prints the n bytes in front of the NUL. -/
theorem cstr_terminate {buf a : List Byte} (ha : nul ∉ a) (h : buf.take a.length = a) :
    cstr (terminate buf a.length) = a := by
  rw [terminate, h, cstr, List.takeWhile_append_of_pos]
  · simp
  · intro x hx
    have hne : x ≠ nul := fun he => ha (he ▸ hx)
    simpa using hne

/-- A request in flight: the line it was made for is one of the first k. -/
def Request (fp : List Byte) (k : Nat) (d : List Byte) : Prop :=
  ∃ i line ts, i < k ∧ (chunks fp)[i]? = some line ∧
    d = hdr ((i + 1) % 2 ^ 32) ts ++ cstr line

/-- A reply in flight. -/
def Reply (fp : List Byte) (k : Nat) (d : List Byte) : Prop :=
  ∃ i line ts, i < k ∧ (chunks fp)[i]? = some line ∧
    d = hdr ((i + 1) % 2 ^ 32) ts ++ answer line

/-- Dg_send_recv is at work on the last of the k lines taken. -/
structure Calling (fp : List Byte) (k : Nat) (c : Client) : Prop where
  taken : ∃ j, k = j + 1 ∧ (chunks fp)[j]? = some c.sendline ∧
    c.stdout = ((chunks fp).take j).flatMap answer

/-- It has in recvline n bytes that answer the line. -/
structure Answered (fp : List Byte) (k n : Nat) (c : Client) : Prop extends Calling fp k c where
  size : n = (answer c.sendline).length
  recvline : c.recvline.take n = answer c.sendline

def ClientInv (fp : List Byte) (k : Nat) (c : Client) : Prop :=
  match c.pc with
  | .fgets => c.stdout = ((chunks fp).take k).flatMap answer
  | .exited => c.stdout = ((chunks fp).take k).flatMap answer ∧ chunks c.fp = []
  | .sendagain | .recvmsg | .errQuit => Calling fp k c
  | .matched n => ∃ m, n = hdrSize + m ∧ Answered fp k m c
  | .returned n => Answered fp k n c

/-- The state after k lines were taken from the input. -/
structure SessionInv (fp : List Byte) (k : Nat) (s : Session) : Prop where
  rest : (chunks fp).drop k = chunks s.client.fp
  seq : s.client.seq = k % 2 ^ 32
  client : ClientInv fp k s.client
  up : ∀ d ∈ s.up, Request fp k d
  server : ∀ mesg, s.server = .sendto mesg → Reply fp k mesg
  down : ∀ d ∈ s.down, Reply fp k d

/-- Lines whose requests bear the same sequence number have the same answer. -/
def Unambiguous (fp : List Byte) : Prop :=
  ∀ i j line line', (chunks fp)[i]? = some line → (chunks fp)[j]? = some line' →
    i % 2 ^ 32 = j % 2 ^ 32 → answer line = answer line'

theorem Request.mono {fp d : List Byte} {k k' : Nat} (hk : k ≤ k') (h : Request fp k d) :
    Request fp k' d := by
  obtain ⟨i, line, ts, hi, hline, hd⟩ := h
  exact ⟨i, line, ts, by omega, hline, hd⟩

theorem Reply.mono {fp d : List Byte} {k k' : Nat} (hk : k ≤ k') (h : Reply fp k d) :
    Reply fp k' d := by
  obtain ⟨i, line, ts, hi, hline, hd⟩ := h
  exact ⟨i, line, ts, by omega, hline, hd⟩

theorem Request.reply {fp d : List Byte} {k : Nat} (h : Request fp k d) :
    Reply fp k (d.take MAXLINE) := by
  obtain ⟨i, line, ts, hi, hline, rfl⟩ := h
  exact ⟨i, line, ts, hi, hline, request_take _ _ _⟩

/-- A reply that passes the test of the loop answers the line that is being sent. -/
theorem Calling.receive {fp d : List Byte} {k : Nat} {c : Client} (hun : Unambiguous fp)
    (hseq : c.seq = k % 2 ^ 32) (hc : Calling fp k c) (hd : Reply fp k d) :
    ClientInv fp k (c.receive d) := by
  obtain ⟨i, line, ts, -, hline, rfl⟩ := hd
  obtain ⟨j, hj, hlast, hout⟩ := hc.taken
  rw [receive_reply c _ ts (answer_length_le line)]
  by_cases hq : (i + 1) % 2 ^ 32 % 2 ^ 32 ≠ c.seq
  · simp only [ClientInv, if_pos hq]
    exact ⟨j, hj, hlast, hout⟩
  · have hsame : i % 2 ^ 32 = j % 2 ^ 32 := by
      rw [not_not, hseq, hj] at hq
      omega
    have hans : answer line = answer c.sendline := hun i j _ _ hline hlast hsame
    simp only [ClientInv, if_neg hq]
    refine ⟨(answer line).length, rfl, ⟨j, hj, hlast, hout⟩, congrArg _ hans, ?_⟩
    rw [take_overwrite]
    exact hans

theorem Calling.timeout {fp : List Byte} {k : Nat} {c : Client} (hc : Calling fp k c) :
    ClientInv fp k c.timeout := by
  have ht : Calling fp k c.timeout := ⟨hc.taken⟩
  by_cases hn : RTT_MAXNREXMT < c.nrexmt + 1
  · have hpc : c.timeout.pc = .errQuit := if_pos hn
    simpa only [ClientInv, hpc] using ht
  · have hpc : c.timeout.pc = .sendagain := if_neg hn
    simpa only [ClientInv, hpc] using ht

theorem Answered.fputs {fp : List Byte} {k n : Nat} {c : Client} (h : Answered fp k n c) :
    c.stdout ++ cstr (terminate c.recvline n) = ((chunks fp).take k).flatMap answer := by
  obtain ⟨j, rfl, hlast, hout⟩ := h.taken
  have hrecv := h.recvline
  rw [h.size] at hrecv ⊢
  rw [cstr_terminate (nul_not_mem_answer _) hrecv, hout, List.take_add_one, hlast]
  simp

/-- How the client moves, with the number of lines it has taken afterwards. -/
theorem client_inv {fp : List Byte} {k : Nat} {c c' : Client}
    {up down up' down' : List (List Byte)} {a : Act} (hun : Unambiguous fp)
    (hrest : (chunks fp).drop k = chunks c.fp) (hseq : c.seq = k % 2 ^ 32)
    (hc : ClientInv fp k c) (hup : ∀ d ∈ up, Request fp k d) (hdown : ∀ d ∈ down, Reply fp k d)
    (hm : ClientMove c up down a c' up' down') :
    ∃ k', k ≤ k' ∧ (chunks fp).drop k' = chunks c'.fp ∧ c'.seq = k' % 2 ^ 32 ∧
      ClientInv fp k' c' ∧ (∀ d ∈ up', Request fp k' d) ∧ ∀ d ∈ down', Reply fp k' d := by
  cases hm with
  | eof hpc hin =>
    refine ⟨k, le_rfl, hrest, hseq, ?_, hup, hdown⟩
    simp only [ClientInv, hpc] at hc
    exact ⟨hc, chunks_of_none hin⟩
  | line line rest hpc hin =>
    rw [chunks_of_some hin] at hrest
    have hlast : (chunks fp)[k]? = some line := by
      rw [← List.head?_drop, hrest, List.head?_cons]
    simp only [ClientInv, hpc] at hc
    refine ⟨k + 1, Nat.le_succ k, ?_, ?_, ⟨k, rfl, hlast, hc⟩,
      fun d hd => (hup d hd).mono (Nat.le_succ k), fun d hd => (hdown d hd).mono (Nat.le_succ k)⟩
    · rw [← List.tail_drop, hrest, List.tail_cons]
    · show (c.seq + 1) % 2 ^ 32 = (k + 1) % 2 ^ 32
      rw [hseq]
      omega
  | stop n hpc =>
    refine ⟨k, le_rfl, hrest, hseq, ?_, hup, hdown⟩
    simp only [ClientInv, hpc] at hc
    obtain ⟨m, rfl, ha⟩ := hc
    simp only [ClientInv, Nat.add_sub_cancel_left]
    exact ⟨⟨ha.taken⟩, ha.size, ha.recvline⟩
  | fputs n hpc =>
    refine ⟨k, le_rfl, hrest, hseq, ?_, hup, hdown⟩
    simp only [ClientInv, hpc] at hc
    exact hc.fputs
  | send ts hpc =>
    simp only [ClientInv, hpc] at hc
    obtain ⟨j, hj, hlast, hout⟩ := hc.taken
    refine ⟨k, le_rfl, hrest, hseq, ⟨j, hj, hlast, hout⟩, ?_, hdown⟩
    intro d hd
    rcases List.mem_append.mp hd with hd | hd
    · exact hup d hd
    · refine ⟨j, c.sendline, ts, by omega, hlast, ?_⟩
      rw [List.mem_singleton.mp hd, hseq, hj]
  | recv i d _ hpc hd =>
    simp only [ClientInv, hpc] at hc
    obtain ⟨hmem, hsub⟩ := Network.receive_eq_some hd
    exact ⟨k, le_rfl, hrest, hseq, hc.receive hun hseq (hdown d hmem), hup,
      fun e he => hdown e (hsub he)⟩
  | alarm hpc =>
    have hcall : Calling fp k c := by
      rcases hpc with hpc | ⟨n, hpc⟩
      · simpa only [ClientInv, hpc] using hc
      · simp only [ClientInv, hpc] at hc
        obtain ⟨m, -, ha⟩ := hc
        exact ha.toCalling
    exact ⟨k, le_rfl, hrest, hseq, hcall.timeout, hup, hdown⟩

theorem SessionInv.start (fp buf : List Byte) : SessionInv fp 0 (Session.start fp buf) where
  rest := rfl
  seq := rfl
  client := rfl
  up := by simp [Session.start]
  server := by simp [Session.start]
  down := by simp [Session.start]

theorem SessionInv.step {fp : List Byte} {k : Nat} {s s' : Session} {l : Label}
    (hun : Unambiguous fp) (hi : SessionInv fp k s) (hs : s.step l = some s') :
    ∃ k', SessionInv fp k' s' := by
  cases move_of_step hs with
  | client a c' up' down' hm =>
    obtain ⟨k', hk, hrest, hseq, hc, hup, hdown⟩ :=
      client_inv hun hi.rest hi.seq hi.client hi.up hi.down hm
    exact ⟨k', hrest, hseq, hc, hup, fun m hm => (hi.server m hm).mono hk, hdown⟩
  | serve i d up' hpc hd =>
    obtain ⟨hmem, hsub⟩ := Network.receive_eq_some hd
    refine ⟨k, hi.rest, hi.seq, hi.client, fun e he => hi.up e (hsub he), ?_, hi.down⟩
    intro m hm
    rw [← ServerPc.sendto.inj hm]
    exact (hi.up d hmem).reply
  | reply mesg hpc =>
    refine ⟨k, hi.rest, hi.seq, hi.client, hi.up, fun m hm => (by cases hm), ?_⟩
    intro d hd
    rcases List.mem_append.mp hd with hd | hd
    · exact hi.down d hd
    · rw [List.mem_singleton.mp hd]
      exact hi.server mesg hpc
  | up _ up' hsub hl =>
    exact ⟨k, hi.rest, hi.seq, hi.client, fun d hd => hi.up d (hsub hd), hi.server, hi.down⟩
  | down _ down' hsub hl =>
    exact ⟨k, hi.rest, hi.seq, hi.client, hi.up, hi.server, fun d hd => hi.down d (hsub hd)⟩

theorem session_inv {fp buf : List Byte} {s : Session} (hun : Unambiguous fp)
    (h : (session fp buf).Reachable s) : ∃ k, SessionInv fp k s := by
  refine Machine.Reachable.invariant (P := fun s => ∃ k, SessionInv fp k s)
    ⟨0, SessionInv.start fp buf⟩ ?_ h
  rintro s l s' ⟨k, hi⟩ hs
  exact hi.step hun hs

end LinuxPractice.Datagram
