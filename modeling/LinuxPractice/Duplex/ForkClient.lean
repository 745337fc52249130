import LinuxPractice.Duplex.Server

namespace LinuxPractice.Duplex.ForkClient

open Echo (Byte MAXLINE newline nul cstr fgets fgets_eq_some fgets_eq_none nul_not_mem_cstr cstr_eq_self)

/-- Where the parent stands: at Fgets, in Writen, behind Shutdown in pause, or terminated by
SIGTERM. -/
inductive ParentPc
  | fgets
  | writen (rest : List Byte)
  | pause
  | terminated
  deriving DecidableEq

/-- Where the child stands: in Readline with its loop counter and the bytes it has stored,
behind it with the value it returned, or at its end. -/
inductive ChildPc
  | readline (n : Nat) (got : List Byte)
  | returned (n : Nat) (recvline : List Byte)
  | exited
  deriving DecidableEq

structure Parent where
  input : List Byte
  pc : ParentPc

/-- readBuf is the part of read_buf that my_read has not handed out yet. -/
structure Child where
  readBuf : List Byte
  stdout : List Byte
  pc : ChildPc

/-- A local step of a process, a system call that returns k, or one that returns -1 with
errno set to EINTR. -/
inductive Act
  | go
  | io (k : Nat)
  | eintr
  deriving DecidableEq

/-- stdin -> server -/
def Parent.step (cap : Nat) (p : Parent) (up : Channel Byte) : Act → Option (Parent × Channel Byte)
  | .go =>
    match p.pc with
    | .fgets =>
      match fgets MAXLINE p.input with
      | none => some ({ p with pc := .pause }, up.close)
      | some (line, input) => some (⟨input, .writen (cstr line)⟩, up)
    | .writen [] => some ({ p with pc := .fgets }, up)
    | _ => none
  | .io k =>
    match p.pc with
    | .writen rest => (up.writeWithin cap rest k).map fun o => ({ p with pc := .writen o.2 }, o.1)
    | _ => none
  | .eintr =>
    match p.pc with
    | .writen (_ :: _) => some (p, up)
    | _ => none

/-- One more byte in readline: a newline ends the loop, else n is incremented and tested. -/
def readlineNext (n : Nat) (got : List Byte) (c : Byte) : ChildPc :=
  if c = newline then .returned n (got ++ [c])
  else if n + 1 < MAXLINE then .readline (n + 1) (got ++ [c])
  else .returned (n + 1) (got ++ [c])

/-- server -> stdout; the last component says that the child sends SIGTERM and exits. -/
def Child.step (c : Child) (down : Channel Byte) : Act → Option (Child × Channel Byte × Bool)
  | .go =>
    match c.pc with
    | .readline n got =>
      match c.readBuf with
      | [] => none
      | b :: readBuf => some ({ c with readBuf := readBuf, pc := readlineNext n got b }, down, false)
    | .returned n recvline =>
      if n = 0 then some ({ c with pc := .exited }, down, true)
      else some ({ c with stdout := c.stdout ++ cstr recvline, pc := .readline 1 [] }, down, false)
    | .exited => none
  | .io k =>
    match c.pc with
    | .readline n got =>
      match c.readBuf with
      | [] =>
        (down.read MAXLINE k).map fun o =>
          match o.1 with
          | [] => ({ c with pc := .returned (n - 1) got }, o.2, false)
          | b :: bs => ({ c with readBuf := b :: bs }, o.2, false)
      | _ :: _ => none
    | _ => none
  | .eintr =>
    match c.pc with
    | .readline _ _ =>
      match c.readBuf with
      | [] => some (c, down, false)
      | _ :: _ => none
    | _ => none

structure Session where
  parent : Parent
  child : Child
  server : ServerPc
  up : Channel Byte
  down : Channel Byte

inductive Label
  | parent (a : Act)
  | child (a : Act)
  | server (a : Io)
  | deliverUp (k : Nat)
  | deliverDown (k : Nat)
  deriving DecidableEq

/-- SIGTERM ends the parent where it is, and with the child's exit the socket is closed. -/
def Session.terminate (s : Session) : Session :=
  { s with parent := { s.parent with pc := .terminated }, up := s.up.close }

def Session.step (cap : Capacity) (s : Session) : Label → Option Session
  | .parent a => (s.parent.step cap.up s.up a).map fun o => { s with parent := o.1, up := o.2 }
  | .child a =>
    (s.child.step s.down a).map fun o =>
      let t := { s with child := o.1, down := o.2.1 }
      if o.2.2 then t.terminate else t
  | .server a =>
    (s.server.step cap.down s.up s.down a).map fun o => { s with server := o.1, up := o.2.1, down := o.2.2 }
  | .deliverUp k => (s.up.deliver k).map fun up => { s with up := up }
  | .deliverDown k => (s.down.deliver k).map fun down => { s with down := down }

def Session.start (fp : List Byte) : Session :=
  ⟨⟨fp, .fgets⟩, ⟨[], [], .readline 1 []⟩, .read, .empty, .empty⟩

/-- str_cli with the input fp, in two processes, against str_echo. -/
def session (cap : Capacity) (fp : List Byte) : Machine Session Label := ⟨Session.start fp, Session.step cap⟩

/-- Everything a step of the parent can do. -/
inductive ParentMove (cap : Nat) (p : Parent) (up : Channel Byte) : Act → Parent → Channel Byte → Prop
  | eof (hpc : p.pc = .fgets) (hin : p.input = []) : ParentMove cap p up .go { p with pc := .pause } up.close
  | line (line input : List Byte) (hpc : p.pc = .fgets) (hin : fgets MAXLINE p.input = some (line, input)) :
      ParentMove cap p up .go ⟨input, .writen (cstr line)⟩ up
  | sent (hpc : p.pc = .writen []) : ParentMove cap p up .go { p with pc := .fgets } up
  | write (k : Nat) (rest left : List Byte) (up' : Channel Byte) (hpc : p.pc = .writen rest)
      (hw : up.writeWithin cap rest k = some (up', left)) :
      ParentMove cap p up (.io k) { p with pc := .writen left } up'
  | interrupted : ParentMove cap p up .eintr p up

theorem parentMove_of_step {cap : Nat} {p p' : Parent} {up up' : Channel Byte} {a : Act}
    (h : p.step cap up a = some (p', up')) : ParentMove cap p up a p' up' := by
  cases a with
  | go =>
    simp only [Parent.step] at h
    split at h
    · rename_i hpc
      split at h
      · rename_i hin
        cases h
        exact .eof hpc (fgets_eq_none hin)
      · rename_i line input hin
        cases h
        exact .line line input hpc hin
    · rename_i hpc
      cases h
      exact .sent hpc
    · cases h
  | io k =>
    simp only [Parent.step] at h
    split at h
    · rename_i rest hpc
      obtain ⟨⟨up₁, left⟩, hw, ho⟩ := Option.map_eq_some_iff.mp h
      cases ho
      exact .write k rest left _ hpc hw
    · cases h
  | eintr =>
    simp only [Parent.step] at h
    split at h
    · cases h
      exact .interrupted
    · cases h

/-- Everything a step of the child can do. -/
inductive ChildMove (c : Child) (down : Channel Byte) : Act → Child → Channel Byte → Bool → Prop
  | take (n : Nat) (got readBuf : List Byte) (b : Byte) (hpc : c.pc = .readline n got)
      (hbuf : c.readBuf = b :: readBuf) :
      ChildMove c down .go { c with readBuf := readBuf, pc := readlineNext n got b } down false
  | quit (recvline : List Byte) (hpc : c.pc = .returned 0 recvline) :
      ChildMove c down .go { c with pc := .exited } down true
  | fputs (n : Nat) (recvline : List Byte) (hpc : c.pc = .returned n recvline) (hn : n ≠ 0) :
      ChildMove c down .go { c with stdout := c.stdout ++ cstr recvline, pc := .readline 1 [] } down false
  | fill (k n : Nat) (got readBuf : List Byte) (down' : Channel Byte) (hpc : c.pc = .readline n got)
      (hbuf : c.readBuf = []) (hne : readBuf ≠ []) (hr : down.read MAXLINE k = some (readBuf, down')) :
      ChildMove c down (.io k) { c with readBuf := readBuf } down' false
  | hangup (k n : Nat) (got : List Byte) (down' : Channel Byte) (hpc : c.pc = .readline n got)
      (hbuf : c.readBuf = []) (hr : down.read MAXLINE k = some ([], down')) :
      ChildMove c down (.io k) { c with pc := .returned (n - 1) got } down' false
  | interrupted : ChildMove c down .eintr c down false

theorem childMove_of_step {c c' : Child} {down down' : Channel Byte} {a : Act} {signal : Bool}
    (h : c.step down a = some (c', down', signal)) : ChildMove c down a c' down' signal := by
  cases a with
  | go =>
    simp only [Child.step] at h
    split at h
    · rename_i n got hpc
      split at h
      · cases h
      · rename_i b readBuf hbuf
        cases h
        exact .take n got readBuf b hpc hbuf
    · rename_i n recvline hpc
      split at h
      · rename_i hn
        cases h
        exact .quit recvline (hn ▸ hpc)
      · rename_i hn
        cases h
        exact .fputs n recvline hpc hn
    · cases h
  | io k =>
    simp only [Child.step] at h
    split at h
    · rename_i n got hpc
      split at h
      · rename_i hbuf
        obtain ⟨⟨bytes, down₁⟩, hr, ho⟩ := Option.map_eq_some_iff.mp h
        cases bytes with
        | nil =>
          cases ho
          exact .hangup k n got _ hpc hbuf hr
        | cons b bs =>
          cases ho
          exact .fill k n got _ _ hpc hbuf (List.cons_ne_nil b bs) hr
      · cases h
    · cases h
  | eintr =>
    simp only [Child.step] at h
    split at h
    · split at h
      · cases h
        exact .interrupted
      · cases h
    · cases h

section Sent

/-- What the parent writes for its input: of every line that fgets cuts, the part before
a NUL. -/
def sent (input : List Byte) : List Byte :=
  match _h : fgets MAXLINE input with
  | none => []
  | some (line, rest) => cstr line ++ sent rest
termination_by input.length
decreasing_by
  obtain ⟨hin, hc⟩ := fgets_eq_some _h
  have hpos := List.length_pos_of_ne_nil hc.nonempty
  rw [← hin, List.length_append]
  omega

theorem sent_nil : sent [] = [] := by
  unfold sent
  rfl

theorem sent_line {input line rest : List Byte} (h : fgets MAXLINE input = some (line, rest)) :
    sent input = cstr line ++ sent rest := by
  rw [sent]
  split
  · rename_i hn
    rw [h] at hn
    cases hn
  · rename_i line' rest' hs
    rw [h] at hs
    cases hs
    rfl

theorem nul_not_mem_sent (input : List Byte) : nul ∉ sent input := by
  induction hn : input.length using Nat.strongRecOn generalizing input with
  | ind n ih =>
    cases hf : fgets MAXLINE input with
    | none => simp [fgets_eq_none hf, sent_nil]
    | some o =>
      obtain ⟨line, rest⟩ := o
      obtain ⟨hin, hc⟩ := fgets_eq_some hf
      have hpos := List.length_pos_of_ne_nil hc.nonempty
      have hlt : rest.length < n := by
        rw [← hn, ← hin, List.length_append]
        omega
      rw [sent_line hf, List.mem_append, not_or]
      exact ⟨nul_not_mem_cstr line, ih _ hlt rest rfl⟩

/-- strlen cuts something off exactly when there is a NUL. -/
theorem sent_eq_self_iff (input : List Byte) : sent input = input ↔ nul ∉ input := by
  constructor
  · intro he
    exact he ▸ nul_not_mem_sent input
  · intro hnul
    induction hn : input.length using Nat.strongRecOn generalizing input with
    | ind n ih =>
      cases hf : fgets MAXLINE input with
      | none => simp [fgets_eq_none hf, sent_nil]
      | some o =>
        obtain ⟨line, rest⟩ := o
        obtain ⟨hin, hc⟩ := fgets_eq_some hf
        have hpos := List.length_pos_of_ne_nil hc.nonempty
        have hlt : rest.length < n := by
          rw [← hn, ← hin, List.length_append]
          omega
        rw [← hin, List.mem_append, not_or] at hnul
        rw [sent_line hf, cstr_eq_self hnul.1, ih _ hlt rest hnul.2 rfl, hin]

end Sent

/-- What the parent has read and not written. -/
def ParentPc.unsent : ParentPc → List Byte
  | .writen rest => rest
  | _ => []

/-- What the child has stored in recvline and not printed. -/
def ChildPc.stored : ChildPc → List Byte
  | .readline _ got => got
  | .returned _ recvline => recvline
  | .exited => []

/-- Nothing is left for the child to read. -/
structure Drained (s : Session) : Prop where
  readBuf : s.child.readBuf = []
  closed : s.down.closed = true
  pending : s.down.pending = []

structure SessionInv (fp : List Byte) (s : Session) : Prop where
  flow : s.child.stdout ++ s.child.pc.stored ++ s.child.readBuf ++ transit s.server s.up s.down ++
    s.parent.pc.unsent ++ sent s.parent.input = sent fp
  server : ServerInv s.server s.up s.down
  closed : s.up.closed = true ↔ s.parent.pc = .pause ∨ s.parent.pc = .terminated
  ended : s.up.closed = true → s.parent.input = []
  counted : ∀ n got, s.child.pc = .readline n got → n = got.length + 1
  eof : ∀ recvline, s.child.pc = .returned 0 recvline → recvline = [] ∧ Drained s
  exited : s.child.pc = .exited → Drained s
  terminated : s.parent.pc = .terminated ↔ s.child.pc = .exited

theorem SessionInv.start (fp : List Byte) : SessionInv fp (Session.start fp) where
  flow := rfl
  server := ⟨⟨nofun, nofun⟩, nofun, nofun⟩
  closed := ⟨nofun, nofun⟩
  ended := nofun
  counted n got h := by
    cases h
    rfl
  eof := nofun
  exited := nofun
  terminated := ⟨nofun, nofun⟩

/-- Before its Shutdown the parent has the connection open and the child is running. -/
theorem SessionInv.working {fp : List Byte} {s : Session} (hi : SessionInv fp s)
    (hp : s.parent.pc ≠ .pause) (ht : s.parent.pc ≠ .terminated) :
    s.up.closed ≠ true ∧ s.child.pc ≠ .exited := by
  refine ⟨fun hc => ?_, fun he => ht (hi.terminated.mpr he)⟩
  rcases hi.closed.mp hc with h | h
  · exact hp h
  · exact ht h

/-- A step of the parent to a place before its Shutdown. -/
theorem SessionInv.of_working {fp : List Byte} {s : Session} {p' : Parent} {up' : Channel Byte}
    (hi : SessionInv fp s) (hopen : s.up.closed ≠ true ∧ s.child.pc ≠ .exited)
    (hp : p'.pc ≠ .pause) (ht : p'.pc ≠ .terminated) (hc : up'.closed = s.up.closed)
    (hflow : transit s.server up' s.down ++ p'.pc.unsent ++ sent p'.input =
      transit s.server s.up s.down ++ s.parent.pc.unsent ++ sent s.parent.input) :
    SessionInv fp { s with parent := p', up := up' } where
  flow := by
    rw [← hi.flow]
    simp only [List.append_assoc] at hflow ⊢
    rw [hflow]
  server := hi.server.of_channels rfl fun h => absurd h hopen.1
  closed := by
    refine ⟨fun h => absurd (hc ▸ h) hopen.1, ?_⟩
    rintro (h | h)
    · exact absurd h hp
    · exact absurd h ht
  ended h := absurd (hc ▸ h) hopen.1
  counted := hi.counted
  eof r hr := ⟨(hi.eof r hr).1, (hi.eof r hr).2.readBuf, (hi.eof r hr).2.closed, (hi.eof r hr).2.pending⟩
  exited he := absurd he hopen.2
  terminated := ⟨fun h => absurd h ht, fun h => absurd h hopen.2⟩

theorem SessionInv.parent {cap : Nat} {fp : List Byte} {s : Session} {p' : Parent} {up' : Channel Byte}
    {a : Act} (hi : SessionInv fp s) (hm : ParentMove cap s.parent s.up a p' up') :
    SessionInv fp { s with parent := p', up := up' } := by
  cases hm with
  | eof hpc hin =>
    obtain ⟨-, halive⟩ := hi.working (by simp [hpc]) (by simp [hpc])
    have hflow := hi.flow
    simp only [hpc, ParentPc.unsent] at hflow
    refine ⟨hflow, hi.server.of_channels rfl (fun _ h₂ => ⟨rfl, h₂⟩), ?_, fun _ => hin, hi.counted, ?_,
      fun he => absurd he halive, ?_⟩
    · exact ⟨fun _ => .inl rfl, fun _ => rfl⟩
    · intro r hr
      obtain ⟨hnil, hd⟩ := hi.eof r hr
      exact ⟨hnil, hd.readBuf, hd.closed, hd.pending⟩
    · exact ⟨fun h => ParentPc.noConfusion h, fun h => absurd h halive⟩
  | line line input hpc hin =>
    apply hi.of_working (hi.working (by simp [hpc]) (by simp [hpc])) (by simp) (by simp) rfl
    simp only [hpc, ParentPc.unsent, List.append_nil, sent_line hin, List.append_assoc]
  | sent hpc =>
    apply hi.of_working (hi.working (by simp [hpc]) (by simp [hpc])) (by simp) (by simp) rfl
    simp only [hpc, ParentPc.unsent]
  | write k rest left _ hpc hw =>
    obtain ⟨hp, hc, -⟩ := Channel.write_eq_some (Channel.writeWithin_eq_some hw).2
    apply hi.of_working (hi.working (by simp [hpc]) (by simp [hpc])) (by simp) (by simp) hc
    simp only [hpc, ParentPc.unsent, transit, List.append_assoc]
    rw [← List.append_assoc (Channel.pending _) left, hp, List.append_assoc]
  | interrupted => exact hi

/-- What readline does with a byte keeps its counter one ahead of the bytes stored. -/
theorem readlineNext_cases (n : Nat) (got : List Byte) (c : Byte) :
    (∃ m, m ≠ 0 ∧ readlineNext (n + 1) got c = .returned m (got ++ [c])) ∨
      readlineNext (n + 1) got c = .readline (n + 2) (got ++ [c]) := by
  unfold readlineNext
  split
  · exact .inl ⟨n + 1, Nat.succ_ne_zero n, rfl⟩
  · split
    · exact .inr rfl
    · exact .inl ⟨n + 2, Nat.succ_ne_zero (n + 1), rfl⟩

/-- The child prints what is in recvline: there is no NUL in what comes back. -/
theorem SessionInv.cstr_stored {fp : List Byte} {s : Session} (hi : SessionInv fp s) :
    cstr s.child.pc.stored = s.child.pc.stored := by
  refine cstr_eq_self fun hmem => nul_not_mem_sent fp ?_
  rw [← hi.flow]
  simp [hmem]

/-- At the end of the child's input the parent is in pause. -/
theorem SessionInv.pause_of_drained {fp : List Byte} {s : Session} (hi : SessionInv fp s)
    (hd : Drained s) (hx : s.child.pc ≠ .exited) : s.parent.pc = .pause := by
  have hup := (hi.server.drained (hi.server.closed.mp hd.closed)).1
  rcases hi.closed.mp hup with h | h
  · exact h
  · exact absurd (hi.terminated.mp h) hx

/-- A step of the child after which it is still running. -/
theorem SessionInv.of_running {fp : List Byte} {s : Session} {c' : Child} {down' : Channel Byte}
    (hi : SessionInv fp s) (hx : s.child.pc ≠ .exited) (hx' : c'.pc ≠ .exited)
    (hc : down'.closed = s.down.closed) (hcount : ∀ n got, c'.pc = .readline n got → n = got.length + 1)
    (heof : ∀ r, c'.pc = .returned 0 r → r = [] ∧ Drained { s with child := c', down := down' })
    (hflow : c'.stdout ++ c'.pc.stored ++ c'.readBuf ++ down'.pending =
      s.child.stdout ++ s.child.pc.stored ++ s.child.readBuf ++ s.down.pending) :
    SessionInv fp { s with child := c', down := down' } where
  flow := by
    rw [← hi.flow]
    simp only [transit, ← List.append_assoc]
    rw [hflow]
  server := hi.server.of_channels hc fun h₁ h₂ => ⟨h₁, h₂⟩
  closed := hi.closed
  ended := hi.ended
  counted := hcount
  eof := heof
  exited he := absurd he hx'
  terminated := ⟨fun h => absurd (hi.terminated.mp h) hx, fun h => absurd h hx'⟩

theorem SessionInv.child {fp : List Byte} {s : Session} {c' : Child} {down' : Channel Byte} {a : Act}
    {signal : Bool} (hi : SessionInv fp s) (hm : ChildMove s.child s.down a c' down' signal) :
    SessionInv fp
      (if signal then Session.terminate { s with child := c', down := down' }
      else { s with child := c', down := down' }) := by
  cases hm with
  | take n got readBuf b hpc hbuf =>
    obtain rfl := hi.counted n got hpc
    have hnext := readlineNext_cases got.length got b
    have hstored : (readlineNext (got.length + 1) got b).stored = got ++ [b] := by
      rcases hnext with ⟨m, -, h⟩ | h
      · rw [h, ChildPc.stored]
      · rw [h, ChildPc.stored]
    apply hi.of_running (by simp [hpc]) ?_ rfl ?_ ?_
    · rw [hstored, hpc, hbuf, ChildPc.stored]
      simp
    · rcases hnext with ⟨m, -, h⟩ | h
      · simp [h]
      · simp [h]
    · intro n' got' he
      rcases hnext with ⟨m, -, h⟩ | h
      · simp [h] at he
      · simp only [h, ChildPc.readline.injEq] at he
        simp [← he.1, ← he.2]
    · intro r he
      rcases hnext with ⟨m, hm, h⟩ | h
      · simp only [h, ChildPc.returned.injEq] at he
        exact absurd he.1 hm
      · simp [h] at he
  | quit recvline hpc =>
    obtain ⟨rfl, hd⟩ := hi.eof recvline hpc
    have hpause := hi.pause_of_drained hd (by simp [hpc])
    have hflow := hi.flow
    have hcl := hi.closed.mpr (.inl hpause)
    simp only [hpc, hpause, ChildPc.stored, ParentPc.unsent] at hflow
    refine ⟨hflow, hi.server.of_channels rfl (fun h₁ h₂ => ⟨rfl, h₂⟩), ?_, fun _ => hi.ended hcl, (by simp [Session.terminate]), (by simp [Session.terminate]), ?_, ?_⟩
    · exact ⟨fun _ => .inr rfl, fun _ => rfl⟩
    · exact fun _ => ⟨hd.readBuf, hd.closed, hd.pending⟩
    · exact ⟨fun _ => rfl, fun _ => rfl⟩
  | fputs n recvline hpc hn =>
    have hcstr := hi.cstr_stored
    simp only [hpc, ChildPc.stored] at hcstr
    apply hi.of_running (by simp [hpc]) (by simp) rfl ?_ (by simp)
    · simp [hpc, hcstr, ChildPc.stored]
    · intro n' got' he
      cases he
      rfl
  | fill k n got readBuf _ hpc hbuf hne hr =>
    rcases Channel.read_eq_some hr with ⟨hnil, -⟩ | ⟨-, -, hp, hc, -⟩
    · exact absurd hnil hne
    · show SessionInv fp { s with child := { s.child with readBuf := readBuf }, down := down' }
      refine hi.of_running (by simp [hpc]) (by simp [hpc]) hc hi.counted (by simp [hpc]) ?_
      rw [hbuf, ← hp]
      simp
  | hangup k n got _ hpc hbuf hr =>
    rcases Channel.read_eq_some hr with ⟨-, rfl, hc, hp⟩ | ⟨hne, -⟩
    · apply hi.of_running (by simp [hpc]) (by simp) rfl (by simp) ?_
      · simp only [hpc, ChildPc.stored]
      · intro r he
        simp only [ChildPc.returned.injEq] at he
        have hcount := hi.counted n got hpc
        have hnil : got = [] := List.eq_nil_of_length_eq_zero (by omega)
        exact ⟨he.2 ▸ hnil, hbuf, hc, hp⟩
    · exact absurd rfl hne
  | interrupted => exact hi

theorem SessionInv.step {cap : Capacity} {fp : List Byte} {s s' : Session} {l : Label}
    (hi : SessionInv fp s) (hs : s.step cap l = some s') : SessionInv fp s' := by
  cases l with
  | parent a =>
    obtain ⟨⟨p', up'⟩, hp, rfl⟩ := Option.map_eq_some_iff.mp hs
    exact hi.parent (parentMove_of_step hp)
  | child a =>
    obtain ⟨⟨c', down', signal⟩, hc, rfl⟩ := Option.map_eq_some_iff.mp hs
    exact hi.child (childMove_of_step hc)
  | server a =>
    obtain ⟨⟨pc', up', down'⟩, hv, rfl⟩ := Option.map_eq_some_iff.mp hs
    have hm := serverMove_of_step hv
    obtain ⟨hsrv, hc⟩ := hi.server.step hm
    have hdrained : Drained s → Drained { s with server := pc', up := up', down := down' } := by
      intro hd
      have hexit := hi.server.closed.mp hd.closed
      cases hm with
      | interrupted hpc => exact ⟨hd.readBuf, hd.closed, hd.pending⟩
      | fill k bytes _ hpc hne hr => simp [hexit] at hpc
      | hangup k _ hpc hr => simp [hexit] at hpc
      | write k rest left _ hpc hw => simp [hexit] at hpc
    refine ⟨?_, hsrv, ?_, ?_, hi.counted, fun r hr => ⟨(hi.eof r hr).1, hdrained (hi.eof r hr).2⟩,
      fun he => hdrained (hi.exited he), hi.terminated⟩
    · simp only [server_transit hm]
      exact hi.flow
    · rw [hc, hi.closed]
    · exact fun h => hi.ended (hc ▸ h)
  | deliverUp k =>
    obtain ⟨up', hd, rfl⟩ := Option.map_eq_some_iff.mp hs
    obtain ⟨hp, hc, -⟩ := Channel.deliver_eq_some hd
    have hdrained : Drained s → Drained { s with up := up' } := fun h => ⟨h.readBuf, h.closed, h.pending⟩
    refine ⟨?_, hi.server.of_channels rfl (fun h₁ h₂ => ⟨hc.trans h₁, hp.trans h₂⟩), ?_, fun h => hi.ended (hc ▸ h),
      hi.counted, fun r hr => ⟨(hi.eof r hr).1, hdrained (hi.eof r hr).2⟩, fun he => hdrained (hi.exited he),
      hi.terminated⟩
    · simp only [transit, hp]
      exact hi.flow
    · rw [hc, hi.closed]
  | deliverDown k =>
    obtain ⟨down', hd, rfl⟩ := Option.map_eq_some_iff.mp hs
    obtain ⟨hp, hc, -⟩ := Channel.deliver_eq_some hd
    have hdrained : Drained s → Drained { s with down := down' } :=
      fun h => ⟨h.readBuf, hc.trans h.closed, hp.trans h.pending⟩
    refine ⟨?_, hi.server.of_channels hc (fun h₁ h₂ => ⟨h₁, h₂⟩), hi.closed, hi.ended,
      hi.counted, fun r hr => ⟨(hi.eof r hr).1, hdrained (hi.eof r hr).2⟩, fun he => hdrained (hi.exited he),
      hi.terminated⟩
    simp only [transit, hp]
    exact hi.flow

theorem session_inv {cap : Capacity} {fp : List Byte} {s : Session}
    (h : (session cap fp).Reachable s) : SessionInv fp s :=
  Machine.Reachable.invariant (SessionInv.start fp) (fun _ _ _ hi hs => hi.step hs) h

end LinuxPractice.Duplex.ForkClient
