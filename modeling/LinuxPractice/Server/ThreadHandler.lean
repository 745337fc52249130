import LinuxPractice.Server.ThreadedServer

namespace LinuxPractice.ThreadedServer

open Descriptors
open Echo (Byte)

/-- What a system call can return on an open descriptor. -/
def answers : Syscall → Reply → Bool
  | _, .error => true
  | .read, .bytes data => data.length ≤ BUFSIZ
  | .write buf, .count n => n ≤ buf.length
  | .close, .done => true
  | _, _ => false

/-- thread_handler by itself on an open descriptor; the labels are what its calls return. -/
def handler : Machine HandlerPc Reply where
  init := .reading
  step pc reply := pc.call?.bind fun c => if answers c reply then some (pc.resume reply) else none

theorem possible_eq_answers {T : Table Object} {fd : Int} (h : (objectAt T fd).isSome = true)
    (c : Syscall) (reply : Reply) : possible T fd c reply = answers c reply := by
  cases c <;> cases reply <;> simp [possible, answers, h]

/-- In the server, a step of a handler whose descriptor is open is such a step. -/
theorem handler_step_of_handlerStep {s s' : State} {i : Nat} {reply : Reply} {h : Handler}
    (hh : s.handlers[i]? = some h) (ho : (objectAt s.table (descriptorOf h.args)).isSome = true)
    (hs : handlerStep s i reply = some s') :
    ∃ h', s'.handlers[i]? = some h' ∧ handler.step h.pc reply = some h'.pc := by
  simp only [handlerStep, hh, Option.bind_some, Option.bind_eq_some_iff] at hs
  obtain ⟨c, hc, hs⟩ := hs
  rw [possible_eq_answers ho] at hs
  split at hs
  · rename_i ha
    cases hs
    refine ⟨_, List.getElem?_set_self (List.getElem?_eq_some_iff.mp hh).1, ?_⟩
    simp [handler, hc, ha]
  · cases hs

/-- The bytes of a successful read, the bytes a write has accepted, and the close. -/
inductive Transfer
  | received (data : List Byte)
  | accepted (data : List Byte)
  | closed
  deriving DecidableEq

def transfer : HandlerPc → Reply → Option Transfer
  | .reading, .bytes data => some (.received data)
  | .writing buf, .count n => some (.accepted (buf.take n))
  | .closing, _ => some .closed
  | _, _ => none

def transfers (tr : List Reply) : List Transfer := handler.log transfer handler.init tr

def received (H : List Transfer) : List Byte :=
  H.flatMap fun
    | .received data => data
    | _ => []

def accepted (H : List Transfer) : List Byte :=
  H.flatMap fun
    | .accepted data => data
    | _ => []

/-- A write accepts all that it is given. -/
def wholeWrite : HandlerPc → Reply → Bool
  | .writing buf, .count n => n == buf.length
  | .writing _, _ => false
  | _, _ => true

/-- Everything a call of thread_handler can come to. -/
inductive HandlerMove : HandlerPc → Reply → HandlerPc → Prop
  | eof : HandlerMove .reading (.bytes []) .closing
  | fill (data : List Byte) (hne : data ≠ []) :
      HandlerMove .reading (.bytes data) (.writing (data.map toupper))
  | readFails : HandlerMove .reading .error .reading
  | wrote (buf : List Byte) (n : Nat) (hn : n ≤ buf.length) :
      HandlerMove (.writing buf) (.count n) .reading
  | writeFails (buf : List Byte) : HandlerMove (.writing buf) .error .reading
  | closes (reply : Reply) : HandlerMove .closing reply .exited

theorem handlerMove_of_step {pc pc' : HandlerPc} {reply : Reply}
    (hs : handler.step pc reply = some pc') : HandlerMove pc reply pc' := by
  simp only [handler, Option.bind_eq_some_iff, Option.ite_none_right_eq_some,
    Option.some.injEq] at hs
  obtain ⟨c, hc, ha, rfl⟩ := hs
  cases pc with
  | reading =>
    cases hc
    cases reply with
    | bytes data =>
      cases data with
      | nil => exact .eof
      | cons b data => exact .fill (b :: data) (List.cons_ne_nil b data)
    | error => exact .readFails
    | _ => cases ha
  | writing buf =>
    cases hc
    cases reply with
    | count n => exact .wrote buf n (of_decide_eq_true ha)
    | error => exact .writeFails buf
    | _ => cases ha
  | closing => exact .closes reply
  | exited => cases hc

theorem received_append (H E : List Transfer) : received (H ++ E) = received H ++ received E :=
  List.flatMap_append

theorem accepted_append (H E : List Transfer) : accepted (H ++ E) = accepted H ++ accepted E :=
  List.flatMap_append

/-- What the handler has read and not offered to write yet. -/
def HandlerPc.unsent : HandlerPc → List Byte
  | .writing buf => buf
  | _ => []

/-- What one call adds to both sides: they stay equal if it is no write that comes short, and
such a write loses at least one byte. -/
theorem HandlerMove.balance {pc pc' : HandlerPc} {reply : Reply} (hm : HandlerMove pc reply pc')
    (hpc : pc ≠ .writing []) :
    let E := (transfer pc reply).toList
    (wholeWrite pc reply = true →
      accepted E ++ pc'.unsent = pc.unsent ++ (received E).map toupper) ∧
    (accepted E).length + pc'.unsent.length ≤ pc.unsent.length + (received E).length ∧
    (wholeWrite pc reply = false →
      (accepted E).length + pc'.unsent.length < pc.unsent.length + (received E).length) := by
  cases hm with
  | eof => exact ⟨fun _ => rfl, Nat.le_refl _, fun hw => by cases hw⟩
  | fill data hne => simp [transfer, received, accepted, HandlerPc.unsent, wholeWrite]
  | readFails => exact ⟨fun _ => rfl, Nat.le_refl _, fun hw => by cases hw⟩
  | wrote buf n hn =>
    simp only [transfer, received, accepted, HandlerPc.unsent, wholeWrite, Option.toList_some,
      List.flatMap_cons, List.flatMap_nil, List.append_nil, List.map_nil, List.length_take,
      List.length_nil, Nat.add_zero, beq_iff_eq, beq_eq_false_iff_ne]
    refine ⟨fun hw => ?_, by omega, by omega⟩
    rw [hw, List.take_length]
  | writeFails buf =>
    have hpos : 0 < buf.length := by
      apply List.length_pos_of_ne_nil
      intro he
      exact hpc (he ▸ rfl)
    refine ⟨fun hw => (by cases hw), Nat.zero_le _, fun _ => ?_⟩
    simpa [transfer, received, accepted, HandlerPc.unsent] using hpos
  | closes reply => exact ⟨fun _ => rfl, Nat.le_refl _, fun hw => by cases hw⟩

/-- What was accepted against what was received, after writes that were all whole or not. -/
structure Account (whole : Prop) (H : List Transfer) (pc : HandlerPc) : Prop where
  nonempty : pc ≠ .writing []
  intact : whole → accepted H ++ pc.unsent = (received H).map toupper
  lossy : ¬whole → (accepted H).length + pc.unsent.length < (received H).length

theorem HandlerMove.nonempty {pc pc' : HandlerPc} {reply : Reply}
    (hm : HandlerMove pc reply pc') : pc' ≠ .writing [] := by
  cases hm with
  | fill data hne => simpa using hne
  | _ => exact fun he => nomatch he

theorem Account.step {whole : Prop} {H : List Transfer} {pc pc' : HandlerPc} {reply : Reply}
    (ha : Account whole H pc) (hm : HandlerMove pc reply pc') :
    Account (whole ∧ wholeWrite pc reply = true) (H ++ (transfer pc reply).toList) pc' := by
  obtain ⟨hkeep, hle, hlt⟩ := hm.balance ha.nonempty
  refine ⟨hm.nonempty, fun hw => ?_, fun hw => ?_⟩
  · rw [accepted_append, received_append, List.append_assoc, hkeep hw.2, ← List.append_assoc,
      ha.intact hw.1, List.map_append]
  · rw [accepted_append, received_append, List.length_append, List.length_append]
    by_cases hwhole : whole
    · have hsum := congrArg List.length (ha.intact hwhole)
      have hshort : wholeWrite pc reply = false := by
        rw [Bool.eq_false_iff]
        exact fun hfull => hw ⟨hwhole, hfull⟩
      have hlost := hlt hshort
      rw [List.length_append, List.length_map] at hsum
      omega
    · have hbefore := ha.lossy hwhole
      omega

theorem account_of_run {tr : List Reply} {pc : HandlerPc}
    (hr : handler.run handler.init tr = some pc) :
    Account (handler.Obeys wholeWrite handler.init tr) (transfers tr) pc := by
  refine handler.run_induction (P := fun tr pc =>
    Account (handler.Obeys wholeWrite handler.init tr) (transfers tr) pc) ?_ ?_ hr
  · refine ⟨fun he => (by cases he), fun _ => rfl, fun hn => ?_⟩
    exact absurd (Machine.obeys_iff_check.mpr rfl) hn
  · intro tr pc reply pc' hu ih hs
    have hlog : transfers (tr ++ [reply]) = transfers tr ++ (transfer pc reply).toList :=
      handler.log_snoc _ hu hs
    rw [hlog, propext (Machine.obeys_snoc hu)]
    exact ih.step (handlerMove_of_step hs)

/-- When the handler has ended, what its writes have accepted is the client's stream in upper
case exactly when no write came short. -/
theorem no_byte_lost_iff {tr : List Reply} (hr : handler.run handler.init tr = some .exited) :
    accepted (transfers tr) = (received (transfers tr)).map toupper ↔
      handler.Obeys wholeWrite handler.init tr := by
  have ha := account_of_run hr
  constructor
  · intro he
    by_contra hn
    have hlt := ha.lossy hn
    rw [he, List.length_map] at hlt
    exact absurd hlt (by simp [HandlerPc.unsent])
  · intro hw
    have he := ha.intact hw
    rwa [HandlerPc.unsent, List.append_nil] at he
    · intro buf hb
      cases hb

/-- "ab" arrives in one read and is written whole. -/
theorem no_byte_lost_whole :
    accepted (transfers [.bytes [97, 98], .count 2, .bytes [], .done]) =
      (received (transfers [.bytes [97, 98], .count 2, .bytes [], .done])).map toupper := by
  have hr : handler.run handler.init [.bytes [97, 98], .count 2, .bytes [], .done] =
      some .exited := rfl
  exact (no_byte_lost_iff hr).mpr (by decide)

/-- The write of "AB" accepts one byte, and 'B' is never sent. -/
theorem byte_lost_short :
    ¬∀ tr, handler.run handler.init tr = some .exited →
      accepted (transfers tr) = (received (transfers tr)).map toupper := by
  intro hall
  have h := hall [.bytes [97, 98], .count 1, .bytes [], .done] rfl
  exact absurd h (by decide)

/-- How a connection ends: by an end of file, or by an error that every later read gets too. -/
inductive Ending
  | eof
  | error
  deriving DecidableEq

def Ending.reply : Ending → Reply
  | .eof => .bytes []
  | .error => .error

/-- All that the system calls of a handler return: the successful reads and the ending, what
its i-th write returns for a buffer, and what close returns. -/
structure Script where
  reads : List (List Byte)
  sized : ∀ data ∈ reads, data ≠ [] ∧ data.length ≤ BUFSIZ
  ending : Ending
  write : Nat → List Byte → Reply
  written : ∀ i buf, answers (.write buf) (write i buf) = true
  close : Reply
  closed : answers .close close = true

/-- What the i-th read returns. -/
def Script.read (e : Script) (i : Nat) : Reply :=
  match e.reads[i]? with
  | some data => .bytes data
  | none => e.ending.reply

/-- How often each call has been made. -/
structure Calls where
  reads : Nat
  writes : Nat
  closes : Nat
  deriving DecidableEq

def Script.offer (e : Script) (pc : HandlerPc) (c : Calls) (_ : Unit) :
    Option (Option Reply × Calls) :=
  pc.call?.map fun
    | .read => (some (e.read c.reads), { c with reads := c.reads + 1 })
    | .write buf => (some (e.write c.writes buf), { c with writes := c.writes + 1 })
    | .close => (some e.close, { c with closes := c.closes + 1 })

/-- The handler on a connection that follows a script. -/
def Script.machine (e : Script) : Machine (HandlerPc × Calls) Unit :=
  handler.drive ⟨0, 0, 0⟩ e.offer

/-- After finitely many calls the handler has left its loop, with one close. -/
def Script.Ends (e : Script) : Prop :=
  ∃ n c, e.machine.run e.machine.init (List.replicate n ()) = some (.exited, c) ∧ c.closes = 1

theorem Script.answers_read (e : Script) (i : Nat) : answers .read (e.read i) = true := by
  unfold Script.read
  split
  · rename_i data hd
    exact decide_eq_true (e.sized data (List.mem_of_getElem? hd)).2
  · cases e.ending with
    | eof => rfl
    | error => rfl

theorem Script.step_reading (e : Script) (c : Calls) :
    e.machine.step (.reading, c) () =
      some (HandlerPc.resume .reading (e.read c.reads), { c with reads := c.reads + 1 }) := by
  have ha := e.answers_read c.reads
  simp [Script.machine, Machine.drive, Script.offer, handler, HandlerPc.call?, ha]

theorem Script.step_writing (e : Script) (buf : List Byte) (c : Calls) :
    e.machine.step (.writing buf, c) () =
      some (.reading, { c with writes := c.writes + 1 }) := by
  have ha := e.written c.writes buf
  simp [Script.machine, Machine.drive, Script.offer, handler, HandlerPc.call?, ha,
    HandlerPc.resume]

theorem Script.step_closing (e : Script) (c : Calls) :
    e.machine.step (.closing, c) () = some (.exited, { c with closes := c.closes + 1 }) := by
  have ha := e.closed
  simp [Script.machine, Machine.drive, Script.offer, handler, HandlerPc.call?, ha,
    HandlerPc.resume]

theorem Script.read_of_lt (e : Script) {i : Nat} (h : i < e.reads.length) :
    ∃ b data, e.read i = .bytes (b :: data) := by
  have hget := List.getElem?_eq_getElem h
  have hne := (e.sized _ (List.getElem_mem h)).1
  obtain ⟨b, data, hd⟩ := List.exists_cons_of_ne_nil hne
  refine ⟨b, data, ?_⟩
  rw [Script.read, hget, ← hd]

theorem Script.read_of_le (e : Script) {i : Nat} (h : e.reads.length ≤ i) :
    e.read i = e.ending.reply := by
  rw [Script.read, List.getElem?_eq_none h]

/-- With an end of file to come the handler closes once and ends, by induction on the reads
that are left. -/
theorem Script.ends_of_reading (e : Script) (he : e.ending = .eof) (k : Nat) {c : Calls}
    (hk : e.reads.length - c.reads = k) :
    ∃ n d, e.machine.run (.reading, c) (List.replicate n ()) = some (.exited, d) ∧
      d.closes = c.closes + 1 := by
  induction k generalizing c with
  | zero =>
    have hread : e.read c.reads = .bytes [] := by
      rw [e.read_of_le (by omega), he]
      rfl
    refine ⟨2, { c with reads := c.reads + 1, closes := c.closes + 1 }, ?_, rfl⟩
    simp only [List.replicate_succ, List.replicate_zero, Machine.run, e.step_reading, hread,
      Option.bind_some, HandlerPc.resume, e.step_closing]
  | succ k ih =>
    obtain ⟨b, data, hread⟩ := e.read_of_lt (i := c.reads) (by omega)
    obtain ⟨n, d, hrun, hd⟩ :=
      ih (c := ⟨c.reads + 1, c.writes + 1, c.closes⟩) (by simp only; omega)
    refine ⟨n + 2, d, ?_, hd⟩
    simp only [List.replicate_succ, Machine.run, e.step_reading, hread, Option.bind_some,
      HandlerPc.resume, e.step_writing]
    exact hrun

/-- With an error to come the handler never gets past its loop. -/
theorem Script.looping (e : Script) (he : e.ending = .error) {s : HandlerPc × Calls}
    (hr : e.machine.Reachable s) : s.1 = .reading ∨ ∃ buf, s.1 = .writing buf := by
  refine hr.invariant (P := fun s => s.1 = .reading ∨ ∃ buf, s.1 = .writing buf) (.inl rfl) ?_
  intro s l s' hp hs
  obtain ⟨pc, c⟩ := s
  cases hp with
  | inl hread =>
    obtain rfl : pc = .reading := hread
    rw [e.step_reading] at hs
    cases hs
    by_cases hlt : c.reads < e.reads.length
    · obtain ⟨b, data, hb⟩ := e.read_of_lt hlt
      rw [hb]
      exact .inr ⟨_, rfl⟩
    · rw [e.read_of_le (by omega), he]
      exact .inl rfl
  | inr hwrite =>
    obtain ⟨buf, hbuf⟩ := hwrite
    obtain rfl : pc = .writing buf := hbuf
    rw [e.step_writing] at hs
    cases hs
    exact .inl rfl

/-- The handler ends with its connection exactly when that ends by an end of file. -/
theorem handler_ends_iff (e : Script) : e.Ends ↔ e.ending = .eof := by
  constructor
  · intro hends
    obtain ⟨n, c, hr, -⟩ := hends
    cases he : e.ending with
    | eof => rfl
    | error =>
      have hloop := e.looping he ⟨_, hr⟩
      cases hloop with
      | inl h => cases h
      | inr h =>
        obtain ⟨buf, hbuf⟩ := h
        cases hbuf
  · intro he
    exact e.ends_of_reading he _ rfl

/-- The connection is reset at once. -/
def resetAtOnce : Script where
  reads := []
  sized data hd := by cases hd
  ending := .error
  write _ buf := .count buf.length
  written _ _ := by simp [answers]
  close := .done
  closed := rfl

/-- The handler reads and fails for ever and never closes. -/
theorem handler_spins_reset : ¬∀ e : Script, e.Ends := by
  intro hall
  obtain ⟨n, c, hr, -⟩ := hall resetAtOnce
  obtain h | ⟨buf, h⟩ := resetAtOnce.looping rfl ⟨_, hr⟩
  · cases h
  · cases h

end LinuxPractice.ThreadedServer
