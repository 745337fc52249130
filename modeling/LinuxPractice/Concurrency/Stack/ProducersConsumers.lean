import LinuxPractice.Concurrency.Stack.Linearizable
import Mathlib.Tactic.FinCases

set_option linter.unusedSectionVars false

namespace LinuxPractice.Stack

open Monitor Lifo

section

variable {α τ : Type} [DecidableEq τ] [Fintype τ]

/-- The body of a thread: a producer pushes its values, a consumer makes a number of
successful pops and counts each of them. -/
inductive Task (α : Type)
  | producer (values : List α)
  | consumer (required : Nat)

/-- What a thread has left; counting stands between a successful pop and the
increment of the shared counter. -/
inductive Work (α : Type)
  | producer (values : List α)
  | consumer (required : Nat)
  | counting (required : Nat)
  deriving DecidableEq

def Task.begin : Task α → Work α
  | .producer values => .producer values
  | .consumer required => .consumer required

def Task.values : Task α → Multiset α
  | .producer values => values
  | .consumer _ => 0

def Task.pushCount : Task α → Nat
  | .producer values => values.length
  | .consumer _ => 0

def Task.popCount : Task α → Nat
  | .producer _ => 0
  | .consumer required => required

def pushTotal (tasks : τ → Task α) : Nat := total Task.pushCount tasks

def popTotal (tasks : τ → Task α) : Nat := total Task.popCount tasks

/-- The values of all producers. -/
def allValues (tasks : τ → Task α) : Multiset α := total Task.values tasks

/-- The next call of a thread. -/
def Work.call? : Work α → Option (Op α)
  | .producer (v :: _) => some (.push v)
  | .consumer (_ + 1) => some .pop
  | _ => none

/-- A thread goes on after a call has returned. -/
def Work.returned : Work α → Result α → Work α
  | .producer (_ :: values), .pushed => .producer values
  | .consumer (required + 1), .popped _ => .counting required
  | w, _ => w

/-- total_popped and consumed of the tests are std::atomic<int>. -/
structure Client (α τ : Type) where
  work : τ → Work α
  counter : Int32
  terminated : Bool

inductive Turn (τ : Type)
  | next (t : τ)
  | acquire (t : τ)
  | exec (t : τ) (fault : Bool)
  | count (t : τ)
  deriving DecidableEq

/-- What the threads do while the program runs. A consumer catches empty_stack and
tries again; any other exception leaves a thread function and ends the program. -/
def offerRunning (s : StackState α τ) (c : Client α τ) :
    Turn τ → Option (Option (StackLabel α τ) × Client α τ)
  | .next t => (c.work t).call?.map fun op => (some (.call t op), c)
  | .acquire t => some (some (.acquire t), c)
  | .exec t fault =>
    match s.phase t with
    | .inside op _ =>
      match (body op fault s.shared).exit with
      | .ret r => some (some (.exec t fault none),
          { c with work := Function.update c.work t ((c.work t).returned r) })
      | .thrown .emptyStack => some (some (.exec t fault none), c)
      | .thrown _ => some (none, { c with terminated := true })
      | .wait => none
    | _ => none
  | .count t =>
    match c.work t with
    | .counting required => some (none,
        { c with
          work := Function.update c.work t (.consumer required)
          counter := c.counter + 1 })
    | _ => none

def offer (s : StackState α τ) (c : Client α τ) (k : Turn τ) :
    Option (Option (StackLabel α τ) × Client α τ) :=
  if c.terminated then none else offerRunning s c k

abbrev ClientState (α τ : Type) := StackState α τ × Client α τ

/-- All threads at work on one stack. -/
def clients (tasks : τ → Task α) : Machine (ClientState α τ) (Turn τ) :=
  (machine α τ).drive ⟨fun t => (tasks t).begin, 0, false⟩ offer

/-- The accesses to the stack in lock order. -/
def accesses (tasks : τ → Task α) (ks : List (Turn τ)) : List (Event τ α) :=
  (clients tasks).log (Machine.driven event offer) (clients tasks).init ks

def Finished (s : ClientState α τ) (t : τ) : Prop :=
  s.1.phase t = .idle ∧ (s.2.work t = .producer [] ∨ s.2.work t = .consumer 0)

def Work.values : Work α → Multiset α
  | .producer values => values
  | _ => 0

def Work.required : Work α → Nat
  | .consumer n | .counting n => n
  | .producer _ => 0

def Work.uncounted : Work α → Nat
  | .counting _ => 1
  | _ => 0

/-- What was pushed, popped and counted and what is left add up to the tasks. -/
structure Accounted (tasks : τ → Task α) (H : List (Event τ α)) (s : ClientState α τ) : Prop where
  current : Current (fun t => (s.2.work t).call?) s.1
  made : (pushed H : Multiset α) + total Work.values s.2.work = allValues tasks
  taken : (popped H).length + total Work.required s.2.work = popTotal tasks
  counted : ∃ n, s.2.counter = Int32.ofNat n ∧
    n + total Work.uncounted s.2.work = (popped H).length

theorem call?_push {w : Work α} {v : α} (h : w.call? = some (.push v)) :
    ∃ vs, w = .producer (v :: vs) := by
  cases w with
  | producer values =>
    cases values with
    | nil => cases h
    | cons u vs =>
      cases h
      exact ⟨vs, rfl⟩
  | consumer n => cases n <;> cases h
  | counting n => cases h

theorem call?_pop {w : Work α} (h : w.call? = some .pop) : ∃ n, w = .consumer (n + 1) := by
  cases w with
  | producer values => cases values <;> cases h
  | consumer n =>
    cases n with
    | zero => cases h
    | succ n => exact ⟨n, rfl⟩
  | counting n => cases h

theorem Task.begin_left (k : Task α) :
    k.begin.values = k.values ∧ k.begin.required = k.popCount ∧ k.begin.uncounted = 0 := by
  cases k <;> exact ⟨rfl, rfl, rfl⟩

theorem Accounted.start (tasks : τ → Task α) : Accounted tasks [] (clients tasks).init where
  current t op h := by cases h
  made := by
    have h : total Work.values (clients tasks).init.2.work = allValues tasks :=
      Finset.sum_congr rfl (fun t _ => (tasks t).begin_left.1)
    simpa [pushed] using h
  taken := by
    have h : total Work.required (clients tasks).init.2.work = popTotal tasks :=
      Finset.sum_congr rfl (fun t _ => (tasks t).begin_left.2.1)
    simpa [popped] using h
  counted := by
    have h : total Work.uncounted (clients tasks).init.2.work = 0 :=
      total_eq_zero.mpr (fun t => (tasks t).begin_left.2.2)
    exact ⟨0, rfl, by simpa [popped] using h⟩

/-- A step that moves a thread within its call. -/
theorem Accounted.same {tasks : τ → Task α} {H : List (Event τ α)} {m m' : StackState α τ}
    {c : Client α τ} (ha : Accounted tasks H (m, c))
    (h : Current (fun t => (c.work t).call?) m') : Accounted tasks H (m', c) :=
  ⟨h, ha.made, ha.taken, ha.counted⟩

/-- A step after which thread t has less left, by exactly the accesses it made. -/
theorem Accounted.advance {tasks : τ → Task α} {H E : List (Event τ α)} {m m' : StackState α τ}
    {c c' : Client α τ} (ha : Accounted tasks H (m, c)) {t : τ} {w : Work α}
    (hw : c'.work = Function.update c.work t w)
    (hcur : Current (fun u => (c'.work u).call?) m')
    (hpush : (pushed E : Multiset α) + w.values = (c.work t).values)
    (hpop : (popped E).length + w.required = (c.work t).required)
    (hcount : ∀ n, c.counter = Int32.ofNat n → ∃ k, c'.counter = Int32.ofNat (n + k) ∧
      k + w.uncounted = (popped E).length + (c.work t).uncounted) :
    Accounted tasks (H ++ E) (m', c') := by
  have hpushes : pushed (H ++ E) = pushed H ++ pushed E := by
    simp [pushed]
  have hpops : (popped (H ++ E)).length = (popped H).length + (popped E).length := by
    simp [popped]
  refine ⟨hcur, ?_, ?_, ?_⟩
  · have hx := total_update Work.values c.work t w
    rw [← hpush, ← hw] at hx
    have hold := ha.made
    rw [hpushes, ← Multiset.coe_add, ← hold]
    have hleft : (total Work.values c'.work + pushed E) + w.values =
        total Work.values c.work + w.values := by
      rw [← hx]
      ac_rfl
    rw [add_assoc, add_comm (pushed E : Multiset α), add_right_cancel hleft]
  · have hx := total_update Work.required c.work t w
    rw [← hw] at hx
    have hold := ha.taken
    simp only at hold ⊢
    omega
  · have hx := total_update Work.uncounted c.work t w
    rw [← hw] at hx
    obtain ⟨n, hn, hsum⟩ := ha.counted
    obtain ⟨k, hk, hkw⟩ := hcount n hn
    refine ⟨n + k, hk, ?_⟩
    simp only at hsum ⊢
    omega

theorem offer_eq_some {m : StackState α τ} {c : Client α τ} {k : Turn τ}
    {o : Option (StackLabel α τ) × Client α τ} (h : offer m c k = some o) :
    offerRunning m c k = some o := by
  unfold offer at h
  split at h
  · cases h
  · exact h

/-- The end of a critical section. -/
theorem Accounted.exec {tasks : τ → Task α} {H : List (Event τ α)} {m m' : StackState α τ}
    {c c' : Client α τ} {t : τ} {fault : Bool} (ha : Accounted tasks H (m, c))
    (ho : offerRunning m c (.exec t fault) = some (some (.exec t fault none), c'))
    (hs : (monitor α).step m (.exec t fault none) = some m') :
    Accounted tasks (H ++ (event m (.exec t fault none)).toList) (m', c') := by
  obtain ⟨op, back, hp, -⟩ := exec_cases hs
  have hcall : (c.work t).call? = some op := ha.current t op (by rw [hp]; rfl)
  have hcur : ∀ w, Current (fun u => (Function.update c.work t w u).call?) m' := by
    intro w
    refine ha.current.exec hs hp (body_defined op fault m.shared).2 (fun u hut => ?_)
    rw [Function.update_of_ne hut]
  have hexec : event m (.exec t fault none) =
      accessed accessOf t op (body op fault m.shared).exit := event_exec _ _ hp _ _
  rw [hexec]
  simp only [offerRunning, hp] at ho
  have he := body_effect op fault m.shared
  generalize body op fault m.shared = o at he ho ⊢
  cases he with
  | pushed v hop _ =>
    subst hop
    obtain ⟨vs, hw⟩ := call?_push hcall
    cases ho
    refine ha.advance (t := t) (w := .producer vs) (by simp [hw, Work.returned]) (hcur _) ?_ ?_ ?_
    · simp [hw, accessed, accessOf, pushed, Work.values]
    · simp [hw, accessed, accessOf, popped, Work.required]
    · intro n hn
      exact ⟨0, hn, by simp [hw, accessed, accessOf, popped, Work.uncounted]⟩
  | popped v hop _ _ =>
    subst hop
    obtain ⟨n, hw⟩ := call?_pop hcall
    cases ho
    refine ha.advance (t := t) (w := .counting n) (by simp [hw, Work.returned]) (hcur _) ?_ ?_ ?_
    · simp [hw, accessed, accessOf, pushed, Work.values]
    · simp [hw, accessed, accessOf, popped, Work.required, Nat.add_comm]
    · intro n hn
      exact ⟨0, hn, by simp [hw, accessed, accessOf, popped, Work.uncounted]⟩
  | empty _ _ =>
    cases ho
    have h := hcur (c.work t)
    rw [Function.update_eq_self] at h
    simpa [accessed] using ha.same h
  | full v _ _ => cases ho
  | failed _ _ _ => cases ho

/-- A step of the threads outside of the stack: the counter goes up, or the program ends. -/
theorem Accounted.aside {tasks : τ → Task α} {H : List (Event τ α)} {m : StackState α τ}
    {c c' : Client α τ} {k : Turn τ} (ha : Accounted tasks H (m, c))
    (ho : offerRunning m c k = some (none, c')) : Accounted tasks H (m, c') := by
  cases k with
  | next t =>
    obtain ⟨op, -, h⟩ := Option.map_eq_some_iff.mp ho
    cases h
  | acquire t => cases ho
  | exec t fault =>
    simp only [offerRunning] at ho
    split at ho
    · split at ho
      · cases ho
      · cases ho
      · cases ho
        exact ⟨ha.current, ha.made, ha.taken, ha.counted⟩
      · cases ho
    · cases ho
  | count t =>
    simp only [offerRunning] at ho
    split at ho
    · rename_i n hw
      cases ho
      have hcur : Current (fun u => (Function.update c.work t (.consumer n) u).call?) m :=
        ha.current.aside (t := t) (by simp only [hw]; rfl)
          (fun u hut => by rw [Function.update_of_ne hut])
      rw [← List.append_nil H]
      refine ha.advance (t := t) (w := .consumer n) rfl hcur ?_ ?_ ?_
      · simp [hw, pushed, Work.values]
      · simp [hw, popped, Work.required]
      · intro k hk
        exact ⟨1, by simp [hk, Int32.ofNat_add], by simp [hw, popped, Work.uncounted]⟩
    · cases ho

theorem Accounted.step {tasks : τ → Task α} {H : List (Event τ α)} {s s' : ClientState α τ}
    {k : Turn τ} (ha : Accounted tasks H s) (hs : (clients tasks).step s k = some s') :
    Accounted tasks (H ++ (Machine.driven event offer s k).toList) s' := by
  obtain ⟨m, c⟩ := s
  obtain ⟨m', c'⟩ := s'
  rcases Machine.drive_step.mp hs with ⟨ho, he⟩ | ⟨l, ho, hl⟩
  · have hev : Machine.driven event offer (m, c) k = none := by simp [Machine.driven, ho]
    simp only at he
    subst he
    simpa [hev] using ha.aside (offer_eq_some ho)
  · change (monitor α).step m l = some m' at hl
    have hev : Machine.driven event offer (m, c) k = event m l := by simp [Machine.driven, ho]
    rw [hev]
    have hrun := offer_eq_some ho
    cases k with
    | next t =>
      obtain ⟨op, hop, h⟩ := Option.map_eq_some_iff.mp hrun
      cases h
      simpa [event, Monitor.event] using ha.same (ha.current.call hl hop)
    | acquire t =>
      cases hrun
      simpa [event, Monitor.event] using ha.same (ha.current.acquire hl)
    | exec t fault =>
      have hexec : l = .exec t fault none := by
        simp only [offerRunning] at hrun
        split at hrun
        · split at hrun <;> cases hrun <;> rfl
        · cases hrun
      subst hexec
      exact ha.exec hrun hl
    | count t =>
      simp only [offerRunning] at hrun
      split at hrun <;> cases hrun

theorem accounted_of_run (tasks : τ → Task α) {ks : List (Turn τ)} {s : ClientState α τ}
    (hr : (clients tasks).run (clients tasks).init ks = some s) :
    Accounted tasks (accesses tasks ks) s := by
  refine (clients tasks).run_induction (P := fun ks s => Accounted tasks (accesses tasks ks) s)
    (Accounted.start tasks) ?_ hr
  intro ks s k s' hu ha hs
  have hlog : accesses tasks (ks ++ [k]) = accesses tasks ks ++
      (Machine.driven event offer s k).toList := (clients tasks).log_snoc _ hu hs
  exact hlog ▸ ha.step hs

/-- The clients' accesses are those of a run of the stack. -/
theorem clients_linearizable (tasks : τ → Task α) {ks : List (Turn τ)} {s : ClientState α τ}
    (hr : (clients tasks).run (clients tasks).init ks = some s) :
    ∃ tr, history tr = accesses tasks ks ∧ Linearizable tr s.1 := by
  obtain ⟨tr, htr, hlog⟩ := Machine.drive_run_log event hr
  exact ⟨tr, hlog, linearizable_of_run htr⟩

theorem card_allValues (tasks : τ → Task α) : Multiset.card (allValues tasks) = pushTotal tasks := by
  rw [allValues, total, Multiset.card_sum]
  apply Finset.sum_congr rfl
  intro t _
  cases tasks t <;> rfl

theorem Finished.nothing_left {s : ClientState α τ} {t : τ} (h : Finished s t) :
    (s.2.work t).values = 0 ∧ (s.2.work t).required = 0 ∧ (s.2.work t).uncounted = 0 := by
  rcases h.2 with hw | hw <;> rw [hw] <;> exact ⟨rfl, rfl, rfl⟩

/-- What the tests expect once every thread has been joined. -/
structure Delivered (tasks : τ → Task α) (ks : List (Turn τ)) (s : ClientState α τ) : Prop where
  pops : (popped (accesses tasks ks)).length = pushTotal tasks
  counter : s.2.counter = Int32.ofNat (pushTotal tasks)
  counter_int : pushTotal tasks < 2 ^ 31 → s.2.counter.toInt = pushTotal tasks
  pushes : (pushed (accesses tasks ks) : Multiset α) = allValues tasks
  delivered : (popped (accesses tasks ks) : Multiset α) = allValues tasks
  empty : s.1.shared = []

theorem delivered_of_finished (tasks : τ → Task α) (hT : pushTotal tasks = popTotal tasks)
    {ks : List (Turn τ)} {s : ClientState α τ}
    (hr : (clients tasks).run (clients tasks).init ks = some s) (hall : ∀ t, Finished s t) :
    Delivered tasks ks s := by
  have ha := accounted_of_run tasks hr
  obtain ⟨tr, hh, hlin⟩ := clients_linearizable tasks hr
  have hcons := hlin.conserved
  rw [hh] at hcons
  have hvalues : total Work.values s.2.work = 0 :=
    Finset.sum_eq_zero (fun t _ => (hall t).nothing_left.1)
  have hrequired : total Work.required s.2.work = 0 :=
    total_eq_zero.mpr (fun t => (hall t).nothing_left.2.1)
  have huncounted : total Work.uncounted s.2.work = 0 :=
    total_eq_zero.mpr (fun t => (hall t).nothing_left.2.2)
  have hpushed : (pushed (accesses tasks ks) : Multiset α) = allValues tasks := by
    simpa [hvalues] using ha.made
  have hpops : (popped (accesses tasks ks)).length = pushTotal tasks := by
    have h := ha.taken
    omega
  have hcounter : s.2.counter = Int32.ofNat (pushTotal tasks) := by
    obtain ⟨n, hn, hsum⟩ := ha.counted
    rw [hn, ← hpops, ← hsum, huncounted]
    rfl
  -- as many pops as pushes leave no room for a value on the stack
  have hempty : s.1.shared = [] := by
    have hcard := congrArg Multiset.card hcons
    rw [hpushed, card_allValues, Multiset.card_add, Multiset.coe_card, Multiset.coe_card] at hcard
    apply List.eq_nil_of_length_eq_zero
    omega
  refine ⟨hpops, hcounter, ?_, hpushed, ?_, hempty⟩
  · intro hlt
    rw [hcounter]
    exact Int32.toInt_ofNat_of_lt hlt
  · rw [← hpushed, hcons, hempty]
    simp

/-- The stack is a linearizable one, and producers and retrying consumers with as many
required pops as pushes exchange every value exactly once. -/
theorem stack_exactly_once :
    (∀ (tr : List (StackLabel α τ)) s, (machine α τ).run (start []) tr = some s →
      Linearizable tr s) ∧
    (∀ tasks : τ → Task α, pushTotal tasks = popTotal tasks →
      ∀ ks s, (clients tasks).run (clients tasks).init ks = some s → (∀ t, Finished s t) →
        Delivered tasks ks s) := by
  refine ⟨?_, ?_⟩
  · intro tr s hr
    exact linearizable_of_run hr
  · intro tasks hT ks s hr hall
    exact delivered_of_finished tasks hT hr hall

end

/-- Two producers and a consumer that comes too early once. -/
def twoProducers : Fin 3 → Task Int
  | 0 => .producer [1]
  | 1 => .producer [2]
  | 2 => .consumer 2

def earlyConsumer : List (Turn (Fin 3)) :=
  [.next 2, .acquire 2, .exec 2 false, .next 0, .next 1, .acquire 1, .exec 1 false, .next 2,
    .acquire 0, .exec 0 false, .acquire 2, .exec 2 false, .count 2, .next 2, .acquire 2,
    .exec 2 false, .count 2]

theorem stack_exactly_once_earlyConsumer :
    pushTotal twoProducers = popTotal twoProducers ∧
    ∃ s, (clients twoProducers).run (clients twoProducers).init earlyConsumer = some s ∧
      (∀ t, Finished s t) ∧ popped (accesses twoProducers earlyConsumer) = [1, 2] ∧
      Delivered twoProducers earlyConsumer s := by
  have hT : pushTotal twoProducers = popTotal twoProducers := by decide
  have hs : ((clients twoProducers).run (clients twoProducers).init earlyConsumer).isSome =
      true := by decide
  have hr := (Option.some_get hs).symm
  have hall : ∀ t, Finished (Option.get _ hs) t := by
    intro t
    fin_cases t
    · exact ⟨rfl, .inl rfl⟩
    · exact ⟨rfl, .inl rfl⟩
    · exact ⟨rfl, .inr rfl⟩
  exact ⟨hT, _, hr, hall, by decide, stack_exactly_once.2 twoProducers hT _ _ hr hall⟩

end LinuxPractice.Stack
