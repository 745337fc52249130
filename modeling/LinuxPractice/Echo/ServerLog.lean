import LinuxPractice.Echo.Model

namespace LinuxPractice.Echo

/-- What printf("%s", buf) finds after a read of these bytes into a buffer. -/
def found (buf bytes : List Byte) : Option (List Byte) :=
  let filled := bytes ++ buf.drop bytes.length
  if nul ∈ filled then some (cstr filled) else none

/-- The buffer as memset leaves it. -/
def cleared : List Byte := List.replicate MAXLINE nul

/-- The buffer before the next read. -/
def bufferAfter (buf : List Byte) (reads : List (List Byte)) : List Byte :=
  if reads = [] then buf else cleared

/-- What all the printf calls find: only the first one sees the initial contents. -/
def logOf (buf : List Byte) : List (List Byte) → List (Option (List Byte))
  | [] => []
  | bytes :: reads => found buf bytes :: reads.map (found cleared)

theorem logOf_snoc (buf : List Byte) (reads : List (List Byte)) (bytes : List Byte) :
    logOf buf (reads ++ [bytes]) = logOf buf reads ++ [found (bufferAfter buf reads) bytes] := by
  cases reads with
  | nil => rfl
  | cons r reads => simp [logOf, bufferAfter]

theorem cstr_append {xs : List Byte} (h : nul ∉ xs) (ys : List Byte) :
    cstr (xs ++ ys) = xs ++ cstr ys := by
  apply List.takeWhile_append_of_pos
  intro x hx
  have hne : x ≠ nul := fun he => h (he ▸ hx)
  simpa using hne

/-- A NUL right behind the bytes is what it takes. -/
theorem found_eq_some_iff {buf bytes : List Byte} (h : nul ∉ bytes) :
    found buf bytes = some bytes ↔ buf[bytes.length]? = some nul := by
  rw [← List.head?_drop]
  simp only [found, cstr_append h]
  cases hrest : buf.drop bytes.length with
  | nil => simp [h]
  | cons b rest =>
    by_cases hb : b = nul
    · simp [hb, cstr]
    · simp [hb, cstr]

theorem found_cleared_iff {bytes : List Byte} (h : nul ∉ bytes) :
    found cleared bytes = some bytes ↔ bytes.length < MAXLINE := by
  rw [found_eq_some_iff h, cleared, List.getElem?_replicate]
  simp

/-- Every read leaves room for a NUL, and there is one behind the first. -/
structure Terminated (buf : List Byte) (reads : List (List Byte)) : Prop where
  room : ∀ bytes ∈ reads, bytes.length < MAXLINE
  first : ∀ bytes ∈ reads.head?, buf[bytes.length]? = some nul

theorem logOf_eq_iff {buf : List Byte} (hbuf : buf.length = MAXLINE) {reads : List (List Byte)}
    (h : ∀ bytes ∈ reads, nul ∉ bytes) :
    logOf buf reads = reads.map some ↔ Terminated buf reads := by
  cases reads with
  | nil =>
    refine iff_of_true rfl ⟨?_, ?_⟩
    · intro bytes hb
      cases hb
    · intro bytes hb
      cases hb
  | cons bytes reads =>
    have hfirst : found buf bytes = some bytes ↔ buf[bytes.length]? = some nul :=
      found_eq_some_iff (h bytes List.mem_cons_self)
    have hrest : reads.map (found cleared) = reads.map some ↔
        ∀ r ∈ reads, r.length < MAXLINE := by
      rw [List.map_inj_left]
      constructor
      · intro hall r hr
        exact (found_cleared_iff (h r (List.mem_cons_of_mem _ hr))).mp (hall r hr)
      · intro hall r hr
        exact (found_cleared_iff (h r (List.mem_cons_of_mem _ hr))).mpr (hall r hr)
    simp only [logOf, List.map_cons, List.cons.injEq, hfirst, hrest]
    constructor
    · intro hlog
      refine ⟨?_, ?_⟩
      · intro r hr
        cases List.mem_cons.mp hr with
        | inl he =>
          obtain ⟨hlt, -⟩ := List.getElem?_eq_some_iff.mp hlog.1
          rw [he]
          omega
        | inr hr => exact hlog.2 r hr
      · intro r hr
        rw [← Option.some.inj hr]
        exact hlog.1
    · intro ht
      exact ⟨ht.first bytes rfl, fun r hr => ht.room r (List.mem_cons_of_mem _ hr)⟩

/-- The server with its socket. Between two steps of the server the rest of the world may
leave anything in the two directions. -/
abbrev EchoState := Server × Channel Byte × Channel Byte

inductive EchoLabel
  | server (a : Act)
  | world (up down : Channel Byte)

def echoStep (s : EchoState) : EchoLabel → Option EchoState
  | .server a => s.1.step s.2.1 s.2.2 a
  | .world up down => some (s.1, up, down)

/-- my_str_echo on a buffer with these contents. -/
def echo (buf : List Byte) : Machine EchoState EchoLabel :=
  ⟨(⟨buf, [], .read⟩, .empty, .empty), echoStep⟩

/-- The bytes of a read and the bytes a write has accepted. -/
inductive EchoEvent
  | received (bytes : List Byte)
  | sent (bytes : List Byte)
  deriving DecidableEq

def echoEvent (s : EchoState) : EchoLabel → Option EchoEvent
  | .server (.io k) =>
    match s.1.pc with
    | .read => (s.2.1.read MAXLINE k).bind fun o => if o.1 = [] then none else some (.received o.1)
    | .writen rest => if (s.2.2.write rest k).isSome then some (.sent (rest.take k)) else none
    | _ => none
  | _ => none

def echoHistory (buf : List Byte) (tr : List EchoLabel) : List EchoEvent :=
  (echo buf).log echoEvent (echo buf).init tr

def reads (H : List EchoEvent) : List (List Byte) :=
  H.filterMap fun
    | .received bytes => some bytes
    | .sent _ => none

def echoed (H : List EchoEvent) : List Byte :=
  H.flatMap fun
    | .received _ => []
    | .sent bytes => bytes

/-- Everything one step can do to the server, with what it shows. -/
inductive EchoMove (s : Server) : List EchoEvent → Server → Prop
  | idle : EchoMove s [] s
  | sent (hpc : s.pc = .writen []) : EchoMove s [] { s with pc := .printf }
  | print (hpc : s.pc = .printf) :
      EchoMove s [] ⟨cleared, s.log ++ [if nul ∈ s.buf then some (cstr s.buf) else none], .read⟩
  | fill (bytes : List Byte) (hpc : s.pc = .read) :
      EchoMove s [.received bytes]
        { s with buf := bytes ++ s.buf.drop bytes.length, pc := .writen bytes }
  | hangup (hpc : s.pc = .read) : EchoMove s [] { s with pc := .exited }
  | write (k : Nat) (rest : List Byte) (hpc : s.pc = .writen rest) :
      EchoMove s [.sent (rest.take k)] { s with pc := .writen (rest.drop k) }

theorem echoMove_of_step {s s' : EchoState} {l : EchoLabel} (hs : echoStep s l = some s') :
    EchoMove s.1 (echoEvent s l).toList s'.1 := by
  cases l with
  | world up down =>
    cases hs
    exact .idle
  | server a =>
    cases a with
    | go =>
      simp only [echoStep, Server.step] at hs
      split at hs
      · rename_i hpc
        cases hs
        exact .sent hpc
      · rename_i hpc
        cases hs
        exact .print hpc
      · cases hs
    | eintr =>
      simp only [echoStep, Server.step] at hs
      split at hs
      · cases hs
        exact .idle
      · cases hs
        exact .idle
      · cases hs
    | io k =>
      simp only [echoStep, Server.step] at hs
      split at hs
      · rename_i hpc
        obtain ⟨⟨bytes, up⟩, hr, ho⟩ := Option.map_eq_some_iff.mp hs
        cases bytes with
        | nil =>
          cases ho
          simp only [echoEvent, hpc, hr]
          exact .hangup hpc
        | cons b bs =>
          cases ho
          simp only [echoEvent, hpc, hr]
          exact .fill (b :: bs) hpc
      · rename_i rest hpc
        obtain ⟨⟨down, left⟩, hw, ho⟩ := Option.map_eq_some_iff.mp hs
        cases ho
        have hleft : left = rest.drop k := by
          unfold Channel.write at hw
          split at hw
          · exact (Prod.mk.inj (Option.some.inj hw)).2.symm
          · cases hw
        simp only [echoEvent, hpc, hw, hleft]
        exact .write k rest hpc
      · cases hs

/-- At the top of the loop: what was printed, the buffer, and what was sent back. -/
structure AtTop (buf : List Byte) (H : List EchoEvent) (s : Server) : Prop where
  log : s.log = logOf buf (reads H)
  buffer : s.buf = bufferAfter buf (reads H)
  echoed : echoed H = (reads H).flatten

/-- Inside the loop, with the last read in the buffer and rest of it not sent yet. -/
structure Midloop (buf : List Byte) (H : List EchoEvent) (rest : List Byte) (s : Server) :
    Prop where
  last : ∃ rs bytes, reads H = rs ++ [bytes] ∧ s.log = logOf buf rs ∧
    s.buf = bytes ++ (bufferAfter buf rs).drop bytes.length
  echoed : echoed H ++ rest = (reads H).flatten

def EchoInv (buf : List Byte) (H : List EchoEvent) (s : Server) : Prop :=
  match s.pc with
  | .read | .exited => AtTop buf H s
  | .writen rest => Midloop buf H rest s
  | .printf => Midloop buf H [] s

theorem reads_append (H E : List EchoEvent) : reads (H ++ E) = reads H ++ reads E :=
  List.filterMap_append

theorem echoed_append (H E : List EchoEvent) : echoed (H ++ E) = echoed H ++ echoed E :=
  List.flatMap_append

theorem EchoInv.step {buf : List Byte} {H E : List EchoEvent} {s s' : Server}
    (hi : EchoInv buf H s) (hm : EchoMove s E s') : EchoInv buf (H ++ E) s' := by
  cases hm with
  | idle => rwa [List.append_nil]
  | sent hpc =>
    simp only [EchoInv, hpc] at hi
    rw [List.append_nil]
    exact ⟨hi.last, hi.echoed⟩
  | print hpc =>
    simp only [EchoInv, hpc] at hi
    obtain ⟨rs, bytes, hreads, hlog, hbuf⟩ := hi.last
    have hecho := hi.echoed
    rw [List.append_nil] at hecho
    rw [List.append_nil]
    refine ⟨?_, ?_, hecho⟩
    · rw [hreads, logOf_snoc, ← hlog, hbuf]
      rfl
    · simp [hreads, bufferAfter]
  | fill bytes hpc =>
    simp only [EchoInv, hpc] at hi
    refine ⟨⟨reads H, bytes, reads_append H _, hi.log, ?_⟩, ?_⟩
    · rw [← hi.buffer]
    · rw [echoed_append, reads_append, List.flatten_append, ← hi.echoed]
      simp [Echo.echoed, reads]
  | hangup hpc =>
    simp only [EchoInv, hpc] at hi
    rw [List.append_nil]
    exact ⟨hi.log, hi.buffer, hi.echoed⟩
  | write k rest hpc =>
    simp only [EchoInv, hpc] at hi
    have hreads : reads (H ++ [.sent (rest.take k)]) = reads H := by
      rw [reads_append]
      exact List.append_nil _
    refine ⟨?_, ?_⟩
    · rw [hreads]
      exact hi.last
    · rw [hreads, echoed_append, ← hi.echoed]
      simp [Echo.echoed]

theorem echoInv_of_run {buf : List Byte} {tr : List EchoLabel} {s : EchoState}
    (hr : (echo buf).run (echo buf).init tr = some s) : EchoInv buf (echoHistory buf tr) s.1 := by
  refine (echo buf).run_induction (P := fun tr s => EchoInv buf (echoHistory buf tr) s.1)
    ?_ ?_ hr
  · exact AtTop.mk rfl rfl rfl
  · intro tr s l s' hu ih hs
    have hlog : echoHistory buf (tr ++ [l]) = echoHistory buf tr ++ (echoEvent s l).toList :=
      (echo buf).log_snoc _ hu hs
    rw [hlog]
    exact ih.step (echoMove_of_step hs)

/-- Each printf printed the bytes of its iteration, all of them together what was received
and sent back. -/
structure Exact (H : List EchoEvent) (s : Server) : Prop where
  each : s.log = (reads H).map some
  whole : (s.log.filterMap id).flatten = (reads H).flatten
  echoed : echoed H = (reads H).flatten

/-- After any number of iterations the log is exact if and only if every read left room for a
NUL and the uninitialised buffer had one behind the first. -/
theorem log_exact_iff {buf : List Byte} (hbuf : buf.length = MAXLINE) {tr : List EchoLabel}
    {s : EchoState} (hr : (echo buf).run (echo buf).init tr = some s)
    (htop : s.1.pc = .read ∨ s.1.pc = .exited)
    (hnul : ∀ bytes ∈ reads (echoHistory buf tr), nul ∉ bytes) :
    Exact (echoHistory buf tr) s.1 ↔ Terminated buf (reads (echoHistory buf tr)) := by
  have hi : AtTop buf (echoHistory buf tr) s.1 := by
    have h := echoInv_of_run hr
    cases htop with
    | inl hpc => simpa only [EchoInv, hpc] using h
    | inr hpc => simpa only [EchoInv, hpc] using h
  rw [← logOf_eq_iff hbuf hnul, ← hi.log]
  constructor
  · intro he
    exact he.each
  · intro he
    refine ⟨he, ?_, hi.echoed⟩
    rw [he, List.filterMap_map]
    simp

/-- A client sends "hi" and closes the connection. -/
def hiThenEof : List EchoLabel :=
  [.world ⟨[], [104, 105], true⟩ .empty, .server (.io 2), .server (.io 2), .server .go,
    .server .go, .server .eintr, .server (.io 0)]

def afterHi (buf : List Byte) : EchoState :=
  ((echo buf).run (echo buf).init hiThenEof).getD (echo buf).init

theorem run_hiThenEof (buf : List Byte) :
    (echo buf).run (echo buf).init hiThenEof = some (afterHi buf) ∧
      reads (echoHistory buf hiThenEof) = [[104, 105]] := ⟨rfl, rfl⟩

/-- On a buffer of NULs the log is "hi". -/
theorem log_exact_cleared : Exact (echoHistory cleared hiThenEof) (afterHi cleared).1 := by
  obtain ⟨hr, hreads⟩ := run_hiThenEof cleared
  have hlen : cleared.length = MAXLINE := List.length_replicate
  refine (log_exact_iff hlen hr (.inr rfl) ?_).mpr ⟨?_, ?_⟩
  · rw [hreads]
    decide
  · rw [hreads]
    decide
  · rw [hreads]
    intro bytes hb
    rw [← Option.some.inj hb, cleared, List.getElem?_replicate]
    rfl

/-- On a buffer full of 'x' the first printf does not stop behind "hi". -/
theorem log_not_exact_uninitialised :
    ¬∀ buf tr s, buf.length = MAXLINE → (echo buf).run (echo buf).init tr = some s →
      s.1.pc = .read ∨ s.1.pc = .exited →
      (∀ bytes ∈ reads (echoHistory buf tr), nul ∉ bytes) → Exact (echoHistory buf tr) s.1 := by
  intro hall
  obtain ⟨hr, hreads⟩ := run_hiThenEof (List.replicate MAXLINE 120)
  have hnul : ∀ bytes ∈ reads (echoHistory (List.replicate MAXLINE 120) hiThenEof),
      nul ∉ bytes := by
    rw [hreads]
    decide
  have hexact := hall _ _ _ List.length_replicate hr (.inr rfl) hnul
  have hlog : (afterHi (List.replicate MAXLINE 120)).1.log =
      [found (List.replicate MAXLINE 120) [104, 105]] := rfl
  have hfound := hexact.each
  rw [hlog, hreads, List.map_singleton, List.singleton_inj, found_eq_some_iff (by decide),
    List.getElem?_replicate] at hfound
  exact absurd hfound (by decide)

end LinuxPractice.Echo
