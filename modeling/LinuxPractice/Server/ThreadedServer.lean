import LinuxPractice.Framework.Descriptors
import LinuxPractice.Framework.Machine
import LinuxPractice.Echo.Lines
import Mathlib.Data.Int.Notation

namespace LinuxPractice.ThreadedServer

open Descriptors
open Echo (Byte)

def BUFSIZ : Nat := 8192

/-- toupper of the C locale. -/
def toupper (b : Byte) : Byte := if 97 ≤ b ∧ b ≤ 122 then b - 32 else b

/-- The system calls thread_handler makes, on the descriptor it was given. -/
inductive Syscall
  | read
  | write (buf : List Byte)
  | close
  deriving DecidableEq, Repr

/-- What a system call returns: the bytes of a read, none at end of file, the count of a
write, 0 of a close, or -1. -/
inductive Reply
  | bytes (data : List Byte)
  | count (n : Nat)
  | done
  | error
  deriving DecidableEq, Repr

/-- Where thread_handler stands: at its read, at its write, at its close, or ended. -/
inductive HandlerPc
  | reading
  | writing (buf : List Byte)
  | closing
  | exited
  deriving DecidableEq, Repr

/-- The call thread_handler makes next. -/
def HandlerPc.call? : HandlerPc → Option Syscall
  | .reading => some .read
  | .writing buf => some (.write buf)
  | .closing => some .close
  | .exited => none

/-- thread_handler goes on: an error of read leaves it in its loop, and what write and
close return is not looked at. -/
def HandlerPc.resume : HandlerPc → Reply → HandlerPc
  | .reading, .bytes [] => .closing
  | .reading, .bytes data => .writing (data.map toupper)
  | .reading, _ => .reading
  | .writing _, _ => .reading
  | .closing, _ => .exited
  | .exited, _ => .exited

/-- Where the accept loop of main stands. -/
inductive MainPc
  | accept
  | create
  | detach
  | close
  | terminated
  deriving DecidableEq, Repr

/-- A thread running thread_handler: its args and where it stands. -/
structure Handler where
  args : UInt64
  pc : HandlerPc
  deriving DecidableEq, Repr

/-- accepted is not in the program: it lists what Accept has returned. The i-th handler is
the one created for the i-th connection. -/
structure State where
  table : Table Object
  pc : MainPc
  connfd : Nat
  handlers : List Handler
  accepted : List Nat

inductive Label
  | main
  | handler (i : Nat) (reply : Reply)
  deriving DecidableEq

/-- intptr_t fd = (intptr_t)args, passed as the int that read, write and close take. -/
def descriptorOf (args : UInt64) : Int := args.toUInt32.toInt32.toInt

/-- What a number given as a descriptor refers to. -/
def objectAt (T : Table Object) : Int → Option Object
  | .ofNat fd => object T fd
  | .negSucc _ => none

/-- What a system call can return: only -1 on a number that is no open descriptor. -/
def possible (T : Table Object) (fd : Int) : Syscall → Reply → Bool
  | _, .error => true
  | .read, .bytes data => (objectAt T fd).isSome && data.length ≤ BUFSIZ
  | .write buf, .count n => (objectAt T fd).isSome && n ≤ buf.length
  | .close, .done => (objectAt T fd).isSome
  | _, _ => false

/-- The table after a system call. -/
def effect (T : Table Object) (fd : Int) : Syscall → Table Object
  | .read | .write _ => T
  | .close => match fd with
    | .ofNat fd => close T fd
    | .negSucc _ => T

/-- The next step of main: connfd is a variable at address addr, and the address is what
pthread_create hands to the new thread. -/
def mainStep (addr : UInt64) (s : State) : Option State :=
  match s.pc with
  | .accept => some
    { s with
      table := install (.connection s.accepted.length) s.table
      connfd := lowestUnused s.table
      accepted := s.accepted ++ [lowestUnused s.table]
      pc := .create }
  | .create => some { s with handlers := s.handlers ++ [⟨addr, .reading⟩], pc := .detach }
  | .detach => some { s with pc := .close }
  | .close =>
    if (object s.table s.connfd).isSome then
      some { s with table := close s.table s.connfd, pc := .accept }
    else some { s with pc := .terminated }
  | .terminated => none

def handlerStep (s : State) (i : Nat) (reply : Reply) : Option State :=
  (s.handlers[i]?).bind fun h => h.pc.call?.bind fun c =>
    let fd := descriptorOf h.args
    if possible s.table fd c reply then some
      { s with
        table := effect s.table fd c
        handlers := s.handlers.set i ⟨h.args, h.pc.resume reply⟩ }
    else none

/-- main has left the process by err_sys once it is terminated. -/
def step (addr : UInt64) (s : State) : Label → Option State
  | .main => mainStep addr s
  | .handler i reply => if s.pc = .terminated then none else handlerStep s i reply

/-- main before its loop: the descriptors the process has inherited and the listening
socket. -/
def start (isOpen : List Bool) : State where
  table := listening isOpen
  pc := .accept
  connfd := 0
  handlers := []
  accepted := []

def machine (addr : UInt64) (isOpen : List Bool) : Machine State Label :=
  ⟨start isOpen, step addr⟩

/-- One system call: by which handler, or by main, which call, on which number, and what
that referred to when the call was made. -/
structure Call where
  caller : Option Nat
  call : Syscall
  fd : Int
  object : Option Object
  deriving DecidableEq

/-- The calls that use a connection. -/
def event (s : State) : Label → Option Call
  | .main =>
    match s.pc with
    | .close => some ⟨none, .close, s.connfd, object s.table s.connfd⟩
    | _ => none
  | .handler i _ => (s.handlers[i]?).bind fun h => h.pc.call?.map fun c =>
    ⟨some i, c, descriptorOf h.args, objectAt s.table (descriptorOf h.args)⟩

def calls (addr : UInt64) (isOpen : List Bool) (tr : List Label) : List Call :=
  (machine addr isOpen).log event (start isOpen) tr

/-- How often the i-th connection's descriptor has been closed. -/
def closes (i : Nat) (H : List Call) : Nat :=
  H.countP fun e => e.call = .close ∧ e.object = some (.connection i)

/-- The i-th handler keeps to the descriptor its connection was accepted as, which is open
at each of its calls; nobody else uses it; it is closed exactly once. -/
structure HandedOver (H : List Call) (s : State) : Prop where
  own : ∀ e ∈ H, ∀ i, e.caller = some i → ∃ c, s.accepted[i]? = some c ∧ e.fd = c ∧
    e.object = some (.connection i)
  unshared : ∀ e ∈ H, ∀ i j, e.caller = some j → e.object = some (.connection i) → j = i
  once : ∀ i, closes i H ≤ 1 ∧ (∀ h, s.handlers[i]? = some h → h.pc = .exited → closes i H = 1)

/-- The stack variable's address is not the number of an open descriptor. -/
def AddressUnused (addr : UInt64) (s : State) : Prop :=
  objectAt s.table (descriptorOf addr) = none

instance (addr : UInt64) : DecidablePred (AddressUnused addr) := fun s =>
  inferInstanceAs (Decidable (objectAt s.table (descriptorOf addr) = none))

/-- Every handler has the address for a descriptor and never gets past its read. -/
structure Lost (addr : UInt64) (s : State) : Prop where
  args : ∀ h ∈ s.handlers, h.args = addr
  reading : ∀ h ∈ s.handlers, h.pc = .reading

/-- A connection main has accepted and not closed yet. -/
def MainPc.busy : MainPc → Nat
  | .create | .detach | .close => 1
  | .accept | .terminated => 0

/-- A connection whose thread is not created yet. -/
def MainPc.creating : MainPc → Nat
  | .create => 1
  | _ => 0

/-- The accept loop by itself: it holds the connection it is busy with and no other, and
has closed each earlier one exactly once. -/
structure Tidy (H : List Call) (s : State) : Prop where
  running : s.pc ≠ .terminated
  created : s.handlers.length + s.pc.creating = s.accepted.length
  some_busy : s.pc.busy ≤ s.accepted.length
  holds : ∀ fd i, object s.table fd = some (.connection i) ↔
    s.pc.busy = 1 ∧ fd = s.connfd ∧ i + 1 = s.accepted.length
  closed : ∀ i, closes i H = if i + s.pc.busy < s.accepted.length then 1 else 0

theorem Tidy.start (isOpen : List Bool) : Tidy [] (start isOpen) where
  running := by simp [ThreadedServer.start]
  created := rfl
  some_busy := Nat.zero_le _
  holds fd i := by
    refine iff_of_false (object_listening_ne isOpen fd i) ?_
    simp [ThreadedServer.start, MainPc.busy]
  closed i := rfl

theorem closes_append (i : Nat) (H E : List Call) : closes i (H ++ E) = closes i H + closes i E := by
  simp [closes]

/-- Accept gives the connection the lowest unused descriptor, which held none before. -/
theorem Tidy.accept {H : List Call} {s : State} (ht : Tidy H s) (hp : s.pc = .accept) :
    Tidy H { s with
      table := install (.connection s.accepted.length) s.table
      connfd := lowestUnused s.table
      accepted := s.accepted ++ [lowestUnused s.table]
      pc := .create } := by
  have hholds := ht.holds
  have hclosed := ht.closed
  have hcreated := ht.created
  simp only [hp] at hholds hclosed hcreated
  refine ⟨by simp, ?_, ?_, ?_, ?_⟩
  · simp only [MainPc.creating, List.length_append, List.length_singleton] at hcreated ⊢
    omega
  · simp [MainPc.busy]
  · intro fd i
    simp only [MainPc.busy, List.length_append, List.length_singleton, true_and]
    by_cases hfd : fd = lowestUnused s.table
    · rw [hfd, object_install_self]
      simp [eq_comm]
    · rw [object_install_ne _ _ hfd, hholds]
      simp [MainPc.busy, hfd]
  · intro i
    rw [hclosed i]
    simp [MainPc.busy]

/-- At Close(connfd) the descriptor is that of the newest connection. -/
theorem Tidy.connfd {H : List Call} {s : State} (ht : Tidy H s) (hp : s.pc = .close) :
    object s.table s.connfd = some (.connection (s.accepted.length - 1)) := by
  have hbusy := ht.some_busy
  rw [hp] at hbusy
  have hpos : 1 ≤ s.accepted.length := hbusy
  exact (ht.holds _ _).mpr ⟨by rw [hp]; rfl, rfl, by omega⟩

/-- Its close is the one that connection gets. -/
theorem Tidy.close {H : List Call} {s : State} (ht : Tidy H s) (hp : s.pc = .close) :
    Tidy (H ++ [⟨none, .close, s.connfd, object s.table s.connfd⟩])
      { s with table := Descriptors.close s.table s.connfd, pc := .accept } := by
  have hobj := ht.connfd hp
  have hholds := ht.holds
  have hclosed := ht.closed
  have hcreated := ht.created
  have hbusy := ht.some_busy
  simp only [hp] at hholds hclosed hcreated hbusy
  have hpos : 1 ≤ s.accepted.length := hbusy
  refine ⟨by simp, hcreated, Nat.zero_le _, ?_, ?_⟩
  · intro fd i
    refine iff_of_false ?_ (by simp [MainPc.busy])
    by_cases hfd : fd = s.connfd
    · rw [hfd, object_close_self]
      simp
    · rw [object_close_ne _ hfd, hholds]
      simp [hfd]
  · intro i
    rw [closes_append, hclosed i, hobj]
    by_cases hi : i + 1 = s.accepted.length
    · have hlast : s.accepted.length - 1 = i := by omega
      have hold : ¬i + 1 < s.accepted.length := by omega
      have hnew : i < s.accepted.length := by omega
      simp [closes, MainPc.busy, hlast, hold, hnew]
    · have hlast : s.accepted.length - 1 ≠ i := by omega
      have hsame : i + 1 < s.accepted.length ↔ i < s.accepted.length := by omega
      simp [closes, MainPc.busy, hlast, hsame]

/-- One step of main. -/
theorem Tidy.main {addr : UInt64} {H : List Call} {s s' : State} (ht : Tidy H s)
    (hs : mainStep addr s = some s') : Tidy (H ++ (event s .main).toList) s' := by
  unfold mainStep at hs
  cases hp : s.pc with
  | accept =>
    simp only [hp, Option.some.injEq] at hs
    subst hs
    simp only [event, hp, Option.toList_none, List.append_nil]
    exact ht.accept hp
  | create =>
    have hholds := ht.holds
    have hclosed := ht.closed
    have hcreated := ht.created
    have hbusy := ht.some_busy
    simp only [hp] at hholds hclosed hcreated hbusy
    simp only [hp, Option.some.injEq] at hs
    subst hs
    simp only [event, hp, Option.toList_none, List.append_nil]
    refine ⟨by simp, ?_, hbusy, hholds, hclosed⟩
    simp only [MainPc.creating, List.length_append, List.length_singleton] at hcreated ⊢
    omega
  | detach =>
    have hholds := ht.holds
    have hclosed := ht.closed
    have hcreated := ht.created
    have hbusy := ht.some_busy
    simp only [hp] at hholds hclosed hcreated hbusy
    simp only [hp, Option.some.injEq] at hs
    subst hs
    simp only [event, hp, Option.toList_none, List.append_nil]
    exact ⟨by simp, hcreated, hbusy, hholds, hclosed⟩
  | close =>
    have hopen : (object s.table s.connfd).isSome = true := by
      rw [ht.connfd hp]
      rfl
    simp only [hp, hopen, if_true, Option.some.injEq] at hs
    subst hs
    simp only [event, hp, Option.toList_some]
    exact ht.close hp
  | terminated => exact absurd hp ht.running

theorem Lost.main {addr : UInt64} {s s' : State} (hl : Lost addr s)
    (hs : mainStep addr s = some s') : Lost addr s' := by
  unfold mainStep at hs
  split at hs
  · cases hs
    exact ⟨hl.args, hl.reading⟩
  · cases hs
    refine ⟨fun h hh => ?_, fun h hh => ?_⟩
    · rcases List.mem_append.mp hh with hh | hh
      · exact hl.args h hh
      · rw [List.mem_singleton.mp hh]
    · rcases List.mem_append.mp hh with hh | hh
      · exact hl.reading h hh
      · rw [List.mem_singleton.mp hh]
  · cases hs
    exact ⟨hl.args, hl.reading⟩
  · split at hs <;> cases hs <;> exact ⟨hl.args, hl.reading⟩
  · cases hs

/-- The call of a handler finds no open descriptor: it is a read that fails, and all that
comes of it is its place in the history. -/
theorem handler_read {addr : UInt64} {s s' : State} {i : Nat} {reply : Reply} (hl : Lost addr s)
    (ha : AddressUnused addr s) (hs : handlerStep s i reply = some s') :
    s' = s ∧ i < s.handlers.length ∧
      event s (.handler i reply) = some ⟨some i, .read, descriptorOf addr, none⟩ := by
  simp only [handlerStep, Option.bind_eq_some_iff] at hs
  obtain ⟨⟨args, pc⟩, hh, c, hc, hs⟩ := hs
  obtain ⟨hlt, hget⟩ := List.getElem?_eq_some_iff.mp hh
  have hmem := List.mem_of_getElem? hh
  obtain rfl : args = addr := hl.args _ hmem
  obtain rfl : pc = .reading := hl.reading _ hmem
  obtain rfl : c = .read := (Option.some.inj hc).symm
  have hreply : reply = .error := by
    have hnone := ha
    unfold AddressUnused at hnone
    cases reply <;> simp [possible, hnone] at hs ⊢
  subst hreply
  have hset : s.handlers.set i ⟨args, .reading⟩ = s.handlers := by
    rw [← hget]
    exact List.set_getElem_self hlt
  refine ⟨?_, hlt, ?_⟩
  · simp only [possible, if_true, effect, HandlerPc.resume, hset, Option.some.injEq] at hs
    exact hs.symm
  · have hnone := ha
    unfold AddressUnused at hnone
    simp only [event, hh, Option.bind_some, HandlerPc.call?, Option.map_some, hnone]

/-- One step of anybody, while the address is no open descriptor. -/
theorem tidy_step {addr : UInt64} {H : List Call} {s s' : State} {l : Label} (ht : Tidy H s)
    (hl : Lost addr s) (ha : AddressUnused addr s) (hs : step addr s l = some s') :
    Tidy (H ++ (event s l).toList) s' ∧ Lost addr s' := by
  cases l with
  | main => exact ⟨ht.main hs, hl.main hs⟩
  | handler i reply =>
    simp only [step, ht.running, if_false] at hs
    obtain ⟨rfl, -, he⟩ := handler_read hl ha hs
    refine ⟨⟨ht.running, ht.created, ht.some_busy, ht.holds, fun k => ?_⟩, hl⟩
    rw [he, closes_append, ht.closed k]
    simp [closes]

theorem calls_snoc {addr : UInt64} {isOpen : List Bool} {tr : List Label} {s s' : State}
    {l : Label} (hu : (machine addr isOpen).run (start isOpen) tr = some s)
    (hs : (machine addr isOpen).step s l = some s') :
    calls addr isOpen (tr ++ [l]) = calls addr isOpen tr ++ (event s l).toList :=
  (machine addr isOpen).log_snoc _ hu hs

/-- What a run leaves behind: the loop of main is in order, and of the handlers there are
only failed reads. -/
structure Outcome (addr : UInt64) (tr : List Label) (H : List Call) (s : State) : Prop where
  tidy : Tidy H s
  lost : Lost addr s
  failed : ∀ i reply, .handler i reply ∈ tr → ⟨some i, .read, descriptorOf addr, none⟩ ∈ H
  others : ∀ e ∈ H, ∀ i, e.caller = some i → ∃ reply, .handler i reply ∈ tr

theorem outcome_of_run {addr : UInt64} {isOpen : List Bool} {tr : List Label} {s : State}
    (hr : (machine addr isOpen).run (start isOpen) tr = some s)
    (ha : (machine addr isOpen).Always (AddressUnused addr) (start isOpen) tr) :
    Outcome addr tr (calls addr isOpen tr) s := by
  refine (machine addr isOpen).run_induction (P := fun tr s =>
    (machine addr isOpen).Always (AddressUnused addr) (start isOpen) tr →
      Outcome addr tr (calls addr isOpen tr) s) ?_ ?_ hr ha
  · intro _
    refine ⟨Tidy.start isOpen, ⟨?_, ?_⟩, ?_, ?_⟩
    · intro h hh
      cases hh
    · intro h hh
      cases hh
    · intro i reply hm
      cases hm
    · intro e he
      cases he
  · intro tr s l s' hu ih hs ha
    have ho := ih (ha.initial (List.prefix_append _ _))
    have hnow := ha tr s (List.prefix_append _ _) hu
    obtain ⟨ht, hl⟩ := tidy_step ho.tidy ho.lost hnow hs
    rw [calls_snoc hu hs]
    refine ⟨ht, hl, ?_, ?_⟩
    · intro i reply hm
      rcases List.mem_append.mp hm with hm | hm
      · exact List.mem_append_left _ (ho.failed i reply hm)
      · rw [← List.mem_singleton.mp hm] at hs ⊢
        simp only [machine, step, ho.tidy.running, if_false] at hs
        rw [(handler_read ho.lost hnow hs).2.2]
        simp
    · intro e he i hi
      rcases List.mem_append.mp he with he | he
      · obtain ⟨reply, hm⟩ := ho.others e he i hi
        exact ⟨reply, List.mem_append_left _ hm⟩
      · cases l with
        | main =>
          simp only [event] at he
          split at he
          · simp only [Option.toList_some, List.mem_singleton] at he
            rw [he] at hi
            cases hi
          · cases he
        | handler j reply =>
          simp only [machine, step, ho.tidy.running, if_false] at hs
          rw [(handler_read ho.lost hnow hs).2.2, Option.toList_some, List.mem_singleton] at he
          rw [he] at hi
          cases hi
          exact ⟨reply, by simp⟩

/-- In every run the hand-over is right exactly as long as no handler has made a call. -/
theorem handed_over_iff_no_handler_ran (addr : UInt64) (isOpen : List Bool) {tr : List Label}
    {s : State} (hr : (machine addr isOpen).run (start isOpen) tr = some s)
    (ha : (machine addr isOpen).Always (AddressUnused addr) (start isOpen) tr) :
    HandedOver (calls addr isOpen tr) s ↔ ∀ i reply, .handler i reply ∉ tr := by
  have ho := outcome_of_run hr ha
  constructor
  · intro hh i reply hm
    obtain ⟨c, -, -, hobj⟩ := hh.own _ (ho.failed i reply hm) i rfl
    cases hobj
  · intro hn
    have hnone : ∀ e ∈ calls addr isOpen tr, ∀ i, e.caller ≠ some i := by
      intro e he i hi
      obtain ⟨reply, hm⟩ := ho.others e he i hi
      exact hn i reply hm
    refine ⟨fun e he i hi => absurd hi (hnone e he i),
      fun e he i j hj _ => absurd hj (hnone e he j), fun i => ⟨?_, fun h hh hx => ?_⟩⟩
    · rw [ho.tidy.closed i]
      split <;> omega
    · rw [ho.lost.reading h (List.mem_of_getElem? hh)] at hx
      cases hx

/-- Descriptors 0, 1 and 2 are open at start, and connfd lies on the stack. -/
def stdOpen : List Bool := [true, true, true]

def stackAddress : UInt64 := 0x7ffd1a2b3c4c

theorem handed_over_before_start :
    ∃ s, (machine stackAddress stdOpen).run (start stdOpen) [.main, .main] = some s ∧
      HandedOver (calls stackAddress stdOpen [.main, .main]) s := by
  have hs : ((machine stackAddress stdOpen).run (start stdOpen) [.main, .main]).isSome = true := by
    decide
  have hr := (Option.some_get hs).symm
  exact ⟨_, hr, (handed_over_iff_no_handler_ran stackAddress stdOpen hr (by decide)).mpr (by simp)⟩

/-- One client connects as descriptor 4, and the handler made for it reads from the
address of connfd. -/
def firstRead : List Label := [.main, .main, .handler 0 .error]

theorem not_handed_over_firstRead :
    ¬∀ tr s, (machine stackAddress stdOpen).run (start stdOpen) tr = some s →
      (machine stackAddress stdOpen).Always (AddressUnused stackAddress) (start stdOpen) tr →
      HandedOver (calls stackAddress stdOpen tr) s := by
  intro hall
  have hs : ((machine stackAddress stdOpen).run (start stdOpen) firstRead).isSome = true := by
    decide
  have hh := hall firstRead _ (Option.some_get hs).symm (by decide)
  have hcall : ⟨some 0, .read, descriptorOf stackAddress, none⟩ ∈
      calls stackAddress stdOpen firstRead := by decide
  obtain ⟨c, -, -, hobj⟩ := hh.own _ hcall 0 rfl
  cases hobj

end LinuxPractice.ThreadedServer
