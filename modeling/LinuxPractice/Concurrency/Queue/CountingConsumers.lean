import LinuxPractice.Concurrency.Queue.Linearizable
import Mathlib.Data.Fintype.Sum
import Mathlib.Tactic.FinCases

set_option linter.unusedSectionVars false

namespace LinuxPractice.Queue.Counting

open Monitor Fifo

section

variable {α τ : Type} [DecidableEq τ] [Fintype τ]

/-- The loop around a try_pop: for (j < stress_iterations) with the retries inside, or
while (pop_count < bound). -/
inductive Loop
  | times (required : Nat)
  | below (bound : Int32)
  deriving DecidableEq

/-- The body of a thread. Only the producer of test_concurrent_mixed_operations counts
its pushes. -/
inductive Task (α : Type)
  | producer (counts : Bool) (values : List α)
  | consumer (loop : Loop)

/-- What a thread has left: a producer before its next push or before push_count++; a
consumer at the head of its loop, in the try block, before the increment with what
try_pop returned, or out of its loop. -/
inductive Work (α : Type)
  | producer (counts : Bool) (values : List α)
  | pushed (values : List α)
  | head (loop : Loop)
  | poll (loop : Loop)
  | counting (value : Option α) (loop : Loop)
  | exited
  deriving DecidableEq

def Task.begin : Task α → Work α
  | .producer counts values => .producer counts values
  | .consumer loop => .head loop

/-- The next call of a thread. -/
def Work.call? : Work α → Option (Op α)
  | .producer _ (v :: _) => some (.push 0 v)
  | .poll _ => some (.tryPopPtr 0)
  | _ => none

/-- A thread goes on after a call has returned: no consumer looks at its pointer. -/
def Work.returned : Work α → Result α → Work α
  | .producer counts (_ :: values), .pushed =>
    if counts then .pushed values else .producer counts values
  | .poll loop, .popped v => .counting (some v) loop
  | .poll loop, .failed => .counting none loop
  | w, _ => w

/-- catch (const std::exception &e) around try_pop; a push has no handler. -/
def Work.caught : Work α → Option (Work α)
  | .poll (.times n) => some (.poll (.times n))
  | .poll (.below bound) => some (.head (.below bound))
  | _ => none

/-- The loop after one counted iteration. -/
def Loop.next : Loop → Loop
  | .times n => .times (n - 1)
  | .below bound => .below bound

/-- consumed / pop_count and push_count are std::atomic<int>. -/
structure Client (α τ : Type) where
  work : τ → Work α
  popCount : Int32
  pushCount : Int32
  terminated : Bool

def Client.goto (c : Client α τ) (t : τ) (w : Work α) : Client α τ :=
  { c with work := Function.update c.work t w }

/-- A step of a thread outside of the queue. -/
def Client.move (c : Client α τ) (t : τ) : Option (Client α τ) :=
  match c.work t with
  | .pushed values => some { c.goto t (.producer true values) with pushCount := c.pushCount + 1 }
  | .head (.times 0) => some (c.goto t .exited)
  | .head (.times (n + 1)) => some (c.goto t (.poll (.times (n + 1))))
  | .head (.below bound) =>
    if c.popCount < bound then some (c.goto t (.poll (.below bound))) else some (c.goto t .exited)
  | .counting _ loop => some { c.goto t (.head loop.next) with popCount := c.popCount + 1 }
  | .producer _ _ | .poll _ | .exited => none

inductive Turn (τ : Type)
  | call (t : τ)
  | acquire (t : τ)
  | exec (t : τ) (fault : Bool) (target : Option τ)
  | move (t : τ)
  deriving DecidableEq

/-- What the threads do while the program runs. An exception of push ends it. -/
def offerRunning (s : QueueState α τ) (c : Client α τ) :
    Turn τ → Option (Option (QueueLabel α τ) × Client α τ)
  | .call t => (c.work t).call?.map fun op => (some (.call t op), c)
  | .acquire t => some (some (.acquire t), c)
  | .exec t fault target =>
    match s.phase t with
    | .inside op _ =>
      match (body .threadsafe_queue op fault s.shared).exit with
      | .ret r => some (some (.exec t fault target), c.goto t ((c.work t).returned r))
      | .thrown _ =>
        match (c.work t).caught with
        | some w => some (some (.exec t fault target), c.goto t w)
        | none => some (none, { c with terminated := true })
      | .wait => none
    | _ => none
  | .move t => (c.move t).map fun c' => (none, c')

def offer (s : QueueState α τ) (c : Client α τ) (k : Turn τ) :
    Option (Option (QueueLabel α τ) × Client α τ) :=
  if c.terminated then none else offerRunning s c k

abbrev ClientState (α τ : Type) := QueueState α τ × Client α τ

/-- All threads at work on one queue. -/
def clients (tasks : τ → Task α) : Machine (ClientState α τ) (Turn τ) :=
  (machine .threadsafe_queue τ [[]]).drive ⟨fun t => (tasks t).begin, 0, 0, false⟩ offer

/-- The accesses to the queue in lock order. -/
def accesses (tasks : τ → Task α) (ks : List (Turn τ)) : List (Event τ α) :=
  (clients tasks).log (Machine.driven (event .threadsafe_queue) offer) (clients tasks).init ks

/-- The thread function has returned. -/
def Finished (s : ClientState α τ) (t : τ) : Prop :=
  s.1.phase t = .idle ∧ (s.2.work t = .exited ∨ ∃ counts, s.2.work t = .producer counts [])

/-- An element that is removed and not counted yet. -/
def Work.uncounted : Work α → Nat
  | .counting (some _) _ => 1
  | _ => 0

/-- A null pointer that is going to be counted. -/
def Work.nulls : Work α → Nat
  | .counting none _ => 1
  | _ => 0

def misses (H : List (Event τ α)) : Nat :=
  H.countP fun
    | .miss _ 0 => true
    | _ => false

/-- What has been counted: n removed elements and m null pointers. -/
structure Accounted (H : List (Event τ α)) (n m : Nat) (s : ClientState α τ) : Prop where
  current : Current (fun t => (s.2.work t).call?) s.1
  counter : s.2.popCount = Int32.ofNat (n + m)
  removed : n + total Work.uncounted s.2.work = (pops 0 H).length
  missed : m + total Work.nulls s.2.work = misses H

theorem Task.begin_left (k : Task α) : k.begin.uncounted = 0 ∧ k.begin.nulls = 0 := by
  cases k <;> exact ⟨rfl, rfl⟩

theorem Accounted.start (tasks : τ → Task α) : Accounted [] 0 0 (clients tasks).init where
  current t op h := by cases h
  counter := rfl
  removed := by
    have h : total Work.uncounted (clients tasks).init.2.work = 0 :=
      total_eq_zero.mpr (fun t => (tasks t).begin_left.1)
    simpa [pops] using h
  missed := by
    have h : total Work.nulls (clients tasks).init.2.work = 0 :=
      total_eq_zero.mpr (fun t => (tasks t).begin_left.2)
    simpa [misses] using h

theorem misses_append (H E : List (Event τ α)) : misses (H ++ E) = misses H + misses E := by
  simp [misses]

/-- What one thread may do between two points of its program: count a elements and b
null pointers, given the accesses it makes. -/
structure Advance (c c' : Client α τ) (t : τ) (w : Work α) (a b : Nat) (E : List (Event τ α)) :
    Prop where
  moved : c'.work = Function.update c.work t w
  counter : c'.popCount = c.popCount + Int32.ofNat (a + b)
  removed : a + w.uncounted = (pops 0 E).length + (c.work t).uncounted
  missed : b + w.nulls = misses E + (c.work t).nulls

theorem Accounted.advance {H E : List (Event τ α)} {n m a b : Nat} {q q' : QueueState α τ}
    {c c' : Client α τ} {t : τ} {w : Work α} (ha : Accounted H n m (q, c))
    (hv : Advance c c' t w a b E) (hcur : Current (fun u => (c'.work u).call?) q') :
    Accounted (H ++ E) (n + a) (m + b) (q', c') where
  current := hcur
  counter := by
    have hold := ha.counter
    simp only at hold ⊢
    rw [hv.counter, hold, ← Int32.ofNat_add]
    congr 1
    omega
  removed := by
    have hx := total_update Work.uncounted c.work t w
    have hpops : (pops 0 (H ++ E)).length = (pops 0 H).length + (pops 0 E).length := by
      simp [pops]
    have hold := ha.removed
    have hnew := hv.removed
    rw [← hv.moved] at hx
    simp only at hold ⊢
    omega
  missed := by
    have hx := total_update Work.nulls c.work t w
    have hold := ha.missed
    have hnew := hv.missed
    rw [← hv.moved] at hx
    rw [misses_append]
    simp only at hold ⊢
    omega

theorem call?_cases {w : Work α} {op : Op α} (h : w.call? = some op) :
    (∃ counts v vs, w = .producer counts (v :: vs) ∧ op = .push 0 v) ∨
    (∃ loop, w = .poll loop ∧ op = .tryPopPtr 0) := by
  unfold Work.call? at h
  split at h
  · rename_i counts v vs
    exact .inl ⟨counts, v, vs, rfl, (Option.some.inj h).symm⟩
  · rename_i loop
    exact .inr ⟨loop, rfl, (Option.some.inj h).symm⟩
  · cases h

/-- A try_pop is only executed on a queue that holds an element. -/
def offersElement (s : ClientState α τ) : Turn τ → Bool
  | .exec t _ _ =>
    match s.1.phase t with
    | .inside (.tryPopPtr i) _ => !(queueAt s.1.shared i).isEmpty
    | _ => true
  | _ => true

/-- The end of a critical section, as its thread sees it. -/
theorem Advance.exec {q : QueueState α τ} {c c' : Client α τ} {t : τ} {fault back : Bool}
    {target : Option τ} {op : Op α} {l : QueueLabel α τ} (hp : q.phase t = .inside op back)
    (hcall : (c.work t).call? = some op)
    (ho : offerRunning q c (.exec t fault target) = some (some l, c')) :
    l = .exec t fault target ∧ (body .threadsafe_queue op fault q.shared).exit ≠ .wait ∧
    (∃ w, Advance c c' t w 0 0 (event .threadsafe_queue q l).toList) ∧
    (misses (event .threadsafe_queue q l).toList = 0 ↔
      offersElement (q, c) (.exec t fault target) = true) := by
  have hexec : ∀ target, event .threadsafe_queue q (.exec t fault target) =
      accessed accessOf t op (body .threadsafe_queue op fault q.shared).exit :=
    fun target => event_exec _ _ hp _ target
  simp only [offerRunning, hp] at ho
  simp only [offersElement, hp]
  have he := body_effect .threadsafe_queue op fault q.shared
  generalize body .threadsafe_queue op fault q.shared = o at he ho hexec ⊢
  rcases call?_cases hcall with ⟨counts, v, vs, hw, rfl⟩ | ⟨loop, hw, rfl⟩
  · rcases he.push_cases with rfl | rfl
    · simp only [hw, Work.caught] at ho
      cases ho
    · cases ho
      rw [hexec]
      refine ⟨rfl, by simp, ⟨_, rfl, by simp [Client.goto], ?_, ?_⟩, ?_⟩
      · cases counts <;> simp [hw, Work.returned, Work.uncounted, accessed, accessOf, pops]
      · cases counts <;> simp [hw, Work.returned, Work.nulls, accessed, accessOf, misses]
      · simp [accessed, accessOf, misses]
  · rcases he.try_cases (.inr rfl) with ⟨hne, rfl⟩ | ⟨v, q, hq, rfl⟩ | ⟨hq, rfl⟩
    · -- both loops catch the exception and go on
      obtain ⟨w, hcaught, hold, hnulls⟩ : ∃ w, (c.work t).caught = some w ∧
          w.uncounted = (c.work t).uncounted ∧ w.nulls = (c.work t).nulls := by
        rw [hw]
        cases loop <;> exact ⟨_, rfl, rfl, rfl⟩
      simp only [hcaught] at ho
      cases ho
      rw [hexec]
      refine ⟨rfl, by simp, ⟨_, rfl, by simp [Client.goto], ?_, ?_⟩, ?_⟩
      · simp [hold, accessed, pops]
      · simp [hnulls, accessed, misses]
      · simpa [accessed, misses] using hne
    · cases ho
      rw [hexec]
      refine ⟨rfl, by simp, ⟨_, rfl, by simp [Client.goto], ?_, ?_⟩, ?_⟩
      · simp [hw, Work.returned, Work.uncounted, accessed, accessOf, Op.queue, pops]
      · simp [hw, Work.returned, Work.nulls, accessed, accessOf, Op.queue, misses]
      · simp [accessed, accessOf, Op.queue, misses, hq]
    · cases ho
      rw [hexec]
      refine ⟨rfl, by simp, ⟨_, rfl, by simp [Client.goto], ?_, ?_⟩, ?_⟩
      · simp [hw, Work.returned, Work.uncounted, accessed, accessOf, Op.queue, pops]
      · simp [hw, Work.returned, Work.nulls, accessed, accessOf, Op.queue, misses]
      · simp [accessed, accessOf, Op.queue, misses, hq]

/-- A step outside of the queue: only an increment counts anything. -/
theorem Advance.move {c c' : Client α τ} {t : τ} (hm : c.move t = some c') :
    (c.work t).call? = none ∧ ∃ w a b, Advance c c' t w a b [] ∧ b ≤ 1 := by
  cases hw : c.work t with
  | producer counts values => simp [Client.move, hw] at hm
  | poll loop => simp [Client.move, hw] at hm
  | exited => simp [Client.move, hw] at hm
  | pushed values =>
    simp only [Client.move, hw, Option.some.injEq] at hm
    subst hm
    refine ⟨rfl, _, 0, 0, ⟨rfl, by simp [Client.goto], ?_, ?_⟩, Nat.zero_le 1⟩
    · simp [hw, Work.uncounted, pops]
    · simp [hw, Work.nulls, misses]
  | head loop =>
    have hgoto : ∃ w, c' = c.goto t w ∧ w.uncounted = 0 ∧ w.nulls = 0 := by
      cases loop with
      | times n =>
        cases n with
        | zero =>
          simp only [Client.move, hw] at hm
          exact ⟨_, (Option.some.inj hm).symm, rfl, rfl⟩
        | succ n =>
          simp only [Client.move, hw] at hm
          exact ⟨_, (Option.some.inj hm).symm, rfl, rfl⟩
      | below bound =>
        simp only [Client.move, hw] at hm
        split at hm
        · exact ⟨_, (Option.some.inj hm).symm, rfl, rfl⟩
        · exact ⟨_, (Option.some.inj hm).symm, rfl, rfl⟩
    obtain ⟨w, rfl, hu, hn⟩ := hgoto
    refine ⟨rfl, w, 0, 0, ⟨rfl, by simp [Client.goto], ?_, ?_⟩, Nat.zero_le 1⟩
    · rw [hu, hw]
      rfl
    · rw [hn, hw]
      rfl
  | counting value loop =>
    simp only [Client.move, hw, Option.some.injEq] at hm
    subst hm
    cases value with
    | none =>
      refine ⟨rfl, _, 0, 1, ⟨rfl, rfl, ?_, ?_⟩, le_refl 1⟩
      · simp [hw, Work.uncounted, pops]
      · simp [hw, Work.nulls, misses]
    | some v =>
      refine ⟨rfl, _, 1, 0, ⟨rfl, rfl, ?_, ?_⟩, Nat.zero_le 1⟩
      · simp [hw, Work.uncounted, pops]
      · simp [hw, Work.nulls, misses]

theorem offer_eq_some {q : QueueState α τ} {c : Client α τ} {k : Turn τ}
    {o : Option (QueueLabel α τ) × Client α τ} (h : offer q c k = some o) :
    offerRunning q c k = some o := by
  unfold offer at h
  split at h
  · cases h
  · exact h

/-- The accesses of one step. -/
def made (s : ClientState α τ) (k : Turn τ) : List (Event τ α) :=
  (Machine.driven (event .threadsafe_queue) offer s k).toList

/-- A step of the threads outside of the queue. -/
theorem Accounted.aside {H : List (Event τ α)} {n m : Nat} {q : QueueState α τ}
    {c c' : Client α τ} {k : Turn τ} (ha : Accounted H n m (q, c))
    (ho : offerRunning q c k = some (none, c')) :
    (∃ a b, Accounted H (n + a) (m + b) (q, c') ∧ b ≤ 1) ∧ offersElement (q, c) k = true := by
  cases k with
  | call t =>
    obtain ⟨op, -, h⟩ := Option.map_eq_some_iff.mp ho
    cases h
  | acquire t => cases ho
  | exec t fault target =>
    simp only [offerRunning] at ho
    split at ho
    · rename_i op back hp
      split at ho
      · cases ho
      · split at ho
        · cases ho
        · rename_i hcaught
          cases ho
          refine ⟨⟨0, 0, ⟨ha.current, ha.counter, ha.removed, ha.missed⟩, Nat.zero_le 1⟩, ?_⟩
          have hcall : (c.work t).call? = some op := ha.current t op (by rw [hp]; rfl)
          rcases call?_cases hcall with ⟨counts, v, vs, hw, rfl⟩ | ⟨loop, hw, rfl⟩
          · simp [offersElement, hp]
          · cases loop <;> simp [hw, Work.caught] at hcaught
      · cases ho
    · cases ho
  | move t =>
    obtain ⟨d, hd, h⟩ := Option.map_eq_some_iff.mp ho
    obtain rfl : d = c' := (Prod.mk.inj h).2
    obtain ⟨hno, w, a, b, hv, hb⟩ := Advance.move hd
    have hcur : Current (fun u => (d.work u).call?) q := by
      refine ha.current.aside hno (fun u hut => ?_)
      rw [hv.moved, Function.update_of_ne hut]
    exact ⟨⟨a, b, by simpa using ha.advance hv hcur, hb⟩, rfl⟩

/-- The end of a critical section counts nothing yet. -/
theorem Accounted.exec {H : List (Event τ α)} {n m : Nat} {q q' : QueueState α τ}
    {c c' : Client α τ} {t : τ} {fault : Bool} {target : Option τ} {l : QueueLabel α τ}
    (ha : Accounted H n m (q, c))
    (ho : offerRunning q c (.exec t fault target) = some (some l, c'))
    (hs : (monitor α .threadsafe_queue).step q l = some q') :
    Accounted (H ++ (event .threadsafe_queue q l).toList) n m (q', c') ∧
      (misses (event .threadsafe_queue q l).toList = 0 ↔
        offersElement (q, c) (.exec t fault target) = true) := by
  cases hp : q.phase t with
  | inside op back =>
    have hcall : (c.work t).call? = some op := ha.current t op (by rw [hp]; rfl)
    obtain ⟨rfl, hw, ⟨w, hv⟩, hmiss⟩ := Advance.exec hp hcall ho
    refine ⟨ha.advance hv (ha.current.exec hs hp hw (fun u hut => ?_)), hmiss⟩
    rw [hv.moved, Function.update_of_ne hut]
  | _ => simp [offerRunning, hp] at ho

/-- One step counts at most one null pointer, and adds one to those to be counted
exactly when it is a try_pop of an empty queue. -/
theorem Accounted.step {tasks : τ → Task α} {H : List (Event τ α)} {n m : Nat}
    {s s' : ClientState α τ} {k : Turn τ} (ha : Accounted H n m s)
    (hs : (clients tasks).step s k = some s') :
    (∃ a b, Accounted (H ++ made s k) (n + a) (m + b) s' ∧ b ≤ 1) ∧
      (misses (made s k) = 0 ↔ offersElement s k = true) := by
  obtain ⟨q, c⟩ := s
  obtain ⟨q', c'⟩ := s'
  rcases Machine.drive_step.mp hs with ⟨ho, he⟩ | ⟨l, ho, hl⟩
  · have hev : made (q, c) k = [] := by simp [made, Machine.driven, ho]
    simp only at he
    subst he
    obtain ⟨hacc, hok⟩ := ha.aside (offer_eq_some ho)
    exact ⟨by simpa [hev] using hacc, by simp [hev, misses, hok]⟩
  · change (monitor α .threadsafe_queue).step q l = some q' at hl
    have hev : made (q, c) k = (event .threadsafe_queue q l).toList := by
      simp [made, Machine.driven, ho]
    rw [hev]
    have hrun := offer_eq_some ho
    have hsame : Current (fun u => (c.work u).call?) q' → Accounted H n m (q', c) :=
      fun h => ⟨h, ha.counter, ha.removed, ha.missed⟩
    cases k with
    | call t =>
      obtain ⟨op, hop, h⟩ := Option.map_eq_some_iff.mp hrun
      cases h
      refine ⟨⟨0, 0, ?_, Nat.zero_le 1⟩, ?_⟩
      · simpa [event, Monitor.event] using hsame (ha.current.call hl hop)
      · simp [event, Monitor.event, misses, offersElement]
    | acquire t =>
      cases hrun
      refine ⟨⟨0, 0, ?_, Nat.zero_le 1⟩, ?_⟩
      · simpa [event, Monitor.event] using hsame (ha.current.acquire hl)
      · simp [event, Monitor.event, misses, offersElement]
    | exec t fault target =>
      obtain ⟨hacc, hmiss⟩ := ha.exec hrun hl
      exact ⟨⟨0, 0, hacc, Nat.zero_le 1⟩, hmiss⟩
    | move t =>
      obtain ⟨d, -, h⟩ := Option.map_eq_some_iff.mp hrun
      cases h

theorem accesses_snoc {tasks : τ → Task α} {ks : List (Turn τ)} {s s' : ClientState α τ}
    {k : Turn τ} (hu : (clients tasks).run (clients tasks).init ks = some s)
    (hs : (clients tasks).step s k = some s') :
    accesses tasks (ks ++ [k]) = accesses tasks ks ++ made s k :=
  (clients tasks).log_snoc _ hu hs

theorem accounted_of_run (tasks : τ → Task α) {ks : List (Turn τ)} {s : ClientState α τ}
    (hr : (clients tasks).run (clients tasks).init ks = some s) :
    ∃ n m, Accounted (accesses tasks ks) n m s := by
  refine (clients tasks).run_induction (P := fun ks s => ∃ n m, Accounted (accesses tasks ks) n m s)
    ⟨0, 0, Accounted.start tasks⟩ ?_ hr
  intro ks s k s' hu ⟨n, m, ha⟩ hs
  obtain ⟨⟨a, b, ha', -⟩, -⟩ := ha.step hs
  exact ⟨n + a, m + b, accesses_snoc hu hs ▸ ha'⟩

/-- No null pointer was returned in a run exactly when no try_pop met an empty queue. -/
theorem misses_eq_zero_iff (tasks : τ → Task α) {ks : List (Turn τ)} {s : ClientState α τ}
    (hr : (clients tasks).run (clients tasks).init ks = some s) :
    misses (accesses tasks ks) = 0 ↔
      (clients tasks).Obeys offersElement (clients tasks).init ks := by
  refine (clients tasks).run_induction (P := fun ks _ => misses (accesses tasks ks) = 0 ↔
    (clients tasks).Obeys offersElement (clients tasks).init ks) ?_ ?_ hr
  · refine ⟨fun _ pre l u hp => ?_, fun _ => rfl⟩
    simp at hp
  · intro ks s k s' hu ih hs
    obtain ⟨n, m, ha⟩ := accounted_of_run tasks hu
    rw [accesses_snoc hu hs, misses_append, Machine.obeys_snoc hu, ← ih, ← (ha.step hs).2]
    omega

/-- First in, first out, for the queue under the consumers. -/
theorem clients_fifo {tasks : τ → Task α} {ks : List (Turn τ)} {s : ClientState α τ}
    (hr : (clients tasks).run (clients tasks).init ks = some s) :
    (pushes 0 (accesses tasks ks)).map Prod.snd =
      (pops 0 (accesses tasks ks)).map Prod.snd ++ queueAt s.1.shared 0 := by
  obtain ⟨tr, htr, hlog⟩ := Machine.drive_run_log (event .threadsafe_queue) hr
  obtain ⟨hlegal, hshared⟩ := run_simulates .threadsafe_queue [[]] htr
  have hhist : history .threadsafe_queue [[]] tr = accesses tasks ks := hlog
  rw [hhist] at hlegal hshared
  have hfifo := fifo_of_lt hlegal (i := 0) (by simp)
  rwa [← hshared] at hfifo

/-- Only removed elements are counted, and once all threads are done with as many counted
as pushed, every element was delivered in order and nothing is left. -/
structure Honest (H : List (Event τ α)) (s : ClientState α τ) : Prop where
  counted : ∃ n, s.2.popCount = Int32.ofNat n ∧
    n + total Work.uncounted s.2.work = (pops 0 H).length
  delivered : (∀ t, Finished s t) → s.2.popCount.toInt = (pushes 0 H).length →
    (pops 0 H).map Prod.snd = (pushes 0 H).map Prod.snd ∧ queueAt s.1.shared 0 = []

theorem Finished.uncounted {s : ClientState α τ} {t : τ} (h : Finished s t) :
    (s.2.work t).uncounted = 0 := by
  rcases h.2 with hw | ⟨counts, hw⟩ <;> rw [hw] <;> rfl

/-- Without counted null pointers the counter tells the truth. -/
theorem Accounted.honest {H : List (Event τ α)} {n : Nat} {s : ClientState α τ}
    (ha : Accounted H n 0 s)
    (hf : (pushes 0 H).map Prod.snd = (pops 0 H).map Prod.snd ++ queueAt s.1.shared 0) :
    Honest H s := by
  refine ⟨⟨n, ha.counter, ha.removed⟩, fun hall hcount => ?_⟩
  have huncounted : total Work.uncounted s.2.work = 0 :=
    total_eq_zero.mpr (fun t => (hall t).uncounted)
  have hn : n = (pops 0 H).length := by
    have h := ha.removed
    omega
  have hlen := congrArg List.length hf
  simp only [List.length_map, List.length_append] at hlen
  have hlt : (pushes 0 H).length < 2 ^ 31 := by
    have h := Int32.toInt_lt s.2.popCount
    omega
  have hnat : n = (pushes 0 H).length := by
    rw [ha.counter, Nat.add_zero, Int32.toInt_ofNat_of_lt (by omega)] at hcount
    exact_mod_cast hcount
  have hempty : queueAt s.1.shared 0 = [] := List.eq_nil_of_length_eq_zero (by omega)
  rw [hempty, List.append_nil] at hf
  exact ⟨hf.symm, hempty⟩

theorem ofNat_succ_ne (n : Nat) : Int32.ofNat (n + 1) ≠ Int32.ofNat n := by
  intro h
  rw [Int32.ofNat_add] at h
  exact absurd (Int32.add_eq_left.mp h) (by decide)

/-- An honest counter has counted no null pointer: the first one would already show. -/
theorem no_nulls_counted (tasks : τ → Task α) {ks : List (Turn τ)} {s : ClientState α τ}
    (hr : (clients tasks).run (clients tasks).init ks = some s)
    (hh : ∀ pre u, pre <+: ks → (clients tasks).run (clients tasks).init pre = some u →
      Honest (accesses tasks pre) u) : ∃ n, Accounted (accesses tasks ks) n 0 s := by
  refine (clients tasks).run_induction (P := fun ks s =>
    (∀ pre u, pre <+: ks → (clients tasks).run (clients tasks).init pre = some u →
      Honest (accesses tasks pre) u) → ∃ n, Accounted (accesses tasks ks) n 0 s)
    (fun _ => ⟨0, Accounted.start tasks⟩) ?_ hr hh
  intro ks s k s' hu ih hs hh
  obtain ⟨n, ha⟩ := ih (fun pre u hp hr => hh pre u (hp.trans (List.prefix_append _ _)) hr)
  obtain ⟨⟨a, b, ha', hb⟩, -⟩ := ha.step hs
  rw [← accesses_snoc hu hs] at ha'
  obtain ⟨c, hc, hsum⟩ :=
    (hh _ s' (List.prefix_refl _) ((clients tasks).run_snoc_of hu hs)).counted
  have hremoved := ha'.removed
  have hcn : c = n + a := by omega
  have hb0 : b = 0 := by
    by_contra hne
    have hb1 : b = 1 := by omega
    have hcounter := ha'.counter
    rw [hc, hcn, hb1, Nat.zero_add] at hcounter
    exact ofNat_succ_ne (n + a) hcounter.symm
  exact ⟨n + a, by simpa [hb0] using ha'⟩

/-- In every run of the loops the counter is honest throughout if every try_pop is
executed on a queue that holds an element; and if no increment is outstanding at the end
of the run, only if. -/
theorem honest_iff_offers (tasks : τ → Task α) {ks : List (Turn τ)} {s : ClientState α τ}
    (hr : (clients tasks).run (clients tasks).init ks = some s) :
    ((clients tasks).Obeys offersElement (clients tasks).init ks →
      ∀ pre u, pre <+: ks → (clients tasks).run (clients tasks).init pre = some u →
        Honest (accesses tasks pre) u) ∧
    ((∀ t value loop, s.2.work t ≠ .counting value loop) →
      (∀ pre u, pre <+: ks → (clients tasks).run (clients tasks).init pre = some u →
        Honest (accesses tasks pre) u) →
      (clients tasks).Obeys offersElement (clients tasks).init ks) := by
  constructor
  · intro ho pre u hp hu
    obtain ⟨n, m, ha⟩ := accounted_of_run tasks hu
    have hmiss := (misses_eq_zero_iff tasks hu).mpr (ho.initial hp)
    have hm : m = 0 := by
      have h := ha.missed
      omega
    subst hm
    exact ha.honest (clients_fifo hu)
  · intro hidle hh
    obtain ⟨n, ha⟩ := no_nulls_counted tasks hr hh
    have hnulls : total Work.nulls s.2.work = 0 := by
      refine total_eq_zero.mpr (fun t => ?_)
      cases hw : s.2.work t with
      | counting value loop => exact absurd hw (hidle t value loop)
      | _ => rfl
    have hmiss := ha.missed
    exact (misses_eq_zero_iff tasks hr).mp (by omega)

end

/-- test_stress_test with P producers and C consumers: queue.push(i*stress_iterations+j). -/
def testStressTest (P C stressIterations : Nat) : Fin P ⊕ Fin C → Task Int32
  | .inl i => .producer false ((List.range stressIterations).map fun j =>
      Int32.ofNat i * Int32.ofNat stressIterations + Int32.ofNat j)
  | .inr _ => .consumer (.times stressIterations)

/-- test_concurrent_mixed_operations: the drawn values are pushed and counted, and the other
thread polls while pop_count is below their number. -/
def testConcurrentMixedOperations (values : List Int32) : Fin 1 ⊕ Fin 1 → Task Int32
  | .inl _ => .producer true values
  | .inr _ => .consumer (.below (Int32.ofNat values.length))

/-- The producer pushes before the consumer polls. -/
def pushFirst : List (Turn (Fin 1 ⊕ Fin 1)) :=
  [.move (.inr 0), .call (.inl 0), .acquire (.inl 0), .exec (.inl 0) false none, .move (.inl 0),
    .call (.inr 0), .acquire (.inr 0), .exec (.inr 0) false none, .move (.inr 0), .move (.inr 0)]

theorem honest_iff_offers_pushFirst :
    ∃ s, (clients (testConcurrentMixedOperations [7])).run
        (clients (testConcurrentMixedOperations [7])).init pushFirst = some s ∧
      Honest (accesses (testConcurrentMixedOperations [7]) pushFirst) s := by
  have hs : ((clients (testConcurrentMixedOperations [7])).run
      (clients (testConcurrentMixedOperations [7])).init pushFirst).isSome = true := by decide
  have hr := (Option.some_get hs).symm
  exact ⟨_, hr, (honest_iff_offers (testConcurrentMixedOperations [7]) hr).1 (by decide) _ _
    (List.prefix_refl _) hr⟩

/-- The consumer polls before the producer pushes and counts the null pointer. -/
def pollFirst : List (Turn (Fin 1 ⊕ Fin 1)) :=
  [.move (.inr 0), .call (.inr 0), .acquire (.inr 0), .exec (.inr 0) false none, .move (.inr 0),
    .move (.inr 0), .call (.inl 0), .acquire (.inl 0), .exec (.inl 0) false none]

/-- All threads of the stress test with one iteration are done, consumed is 1 as
asserted, and the one element pushed is still in the queue. -/
theorem not_honest_pollFirst :
    ¬∀ ks s, (clients (testStressTest 1 1 1)).run (clients (testStressTest 1 1 1)).init ks =
      some s → Honest (accesses (testStressTest 1 1 1) ks) s := by
  intro hall
  have hs : ((clients (testStressTest 1 1 1)).run (clients (testStressTest 1 1 1)).init
      pollFirst).isSome = true := by decide
  have hh := hall pollFirst _ (Option.some_get hs).symm
  have hfin : ∀ t, Finished (Option.get _ hs) t := by
    intro t
    rcases t with t | t <;> fin_cases t
    · exact ⟨rfl, .inr ⟨false, rfl⟩⟩
    · exact ⟨rfl, .inl rfl⟩
  have hempty := (hh.delivered hfin rfl).2
  have hleft : queueAt (Option.get _ hs).1.shared 0 = [0] := rfl
  rw [hleft] at hempty
  cases hempty

end LinuxPractice.Queue.Counting
