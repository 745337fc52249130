import LinuxPractice.Concurrency.Queue.Linearizable
import Mathlib.Data.Fintype.Sum
import Mathlib.Tactic.FinCases

set_option linter.unusedSectionVars false

namespace LinuxPractice.Queue.Polling

open Monitor Fifo

section

variable {P C : Nat}

/-- The producers and the consumers of test_multithreaded_operations. -/
abbrev Thread (P C : Nat) := Fin P ⊕ Fin C

/-- Where a thread stands: a producer before its j-th push or before the increment that
follows it; a consumer at its loop guard, at the report, at try_pop, at consumed_mutex
with a value, holding it, before the increment, asleep after a failed try_pop, or out
of its loop. -/
inductive Pc
  | produce (j : Nat)
  | produced (j : Nat)
  | loop
  | report
  | poll
  | store (value : Int32)
  | storing (value : Int32)
  | consumed
  | rest
  | exited
  deriving DecidableEq

/-- The locals and shared variables of the test besides the queue. -/
structure Client (P C : Nat) where
  pc : Thread P C → Pc
  totalProduced : Int32
  totalConsumed : Int32
  consumedValues : List Int32
  consumedMutex : Option (Thread P C)
  terminated : Bool

/-- int value = i * items_per_producer + j -/
def item (K i j : Nat) : Int32 := Int32.ofNat i * Int32.ofNat K + Int32.ofNat j

/-- The member function a thread calls next. -/
def nextCall (K : Nat) : Thread P C → Pc → Option (Op Int32)
  | .inl i, .produce j => if j < K then some (.push 0 (item K i j)) else none
  | .inr _, .poll => some (.tryPopRef 0)
  | _, _ => none

/-- A thread goes on after a call has returned. -/
def Pc.returned : Pc → Result Int32 → Pc
  | .produce j, .pushed => .produced j
  | .poll, .popped value => .store value
  | .poll, .failed => .rest
  | pc, _ => pc

def Client.goto (c : Client P C) (t : Thread P C) (pc : Pc) : Client P C :=
  { c with pc := Function.update c.pc t pc }

/-- A step of a thread outside of the queue. -/
def Client.move (K : Nat) (c : Client P C) (t : Thread P C) (fault : Bool) :
    Option (Client P C) :=
  match c.pc t with
  | .produced j => some { c.goto t (.produce (j + 1)) with totalProduced := c.totalProduced + 1 }
  | .loop =>
    if c.totalConsumed < Int32.ofNat P * Int32.ofNat K then some (c.goto t .report)
    else some (c.goto t .exited)
  | .report => some (c.goto t .poll)
  | .store value =>
    if c.consumedMutex = none then some { c.goto t (.storing value) with consumedMutex := some t }
    else none
  | .storing value =>
    if fault then some { c with terminated := true }
    else some
      { c.goto t .consumed with
        consumedValues := c.consumedValues ++ [value]
        consumedMutex := none }
  | .consumed => some { c.goto t .loop with totalConsumed := c.totalConsumed + 1 }
  | .rest => some (c.goto t .loop)
  | .produce _ | .poll | .exited => none

inductive Turn (P C : Nat)
  | call (t : Thread P C)
  | acquire (t : Thread P C)
  | exec (t : Thread P C) (fault : Bool) (target : Option (Thread P C))
  | move (t : Thread P C) (fault : Bool)

/-- What the threads do while the program runs; no exception is caught. -/
def offerRunning (K : Nat) (s : QueueState Int32 (Thread P C)) (c : Client P C) :
    Turn P C → Option (Option (QueueLabel Int32 (Thread P C)) × Client P C)
  | .call t => (nextCall K t (c.pc t)).map fun op => (some (.call t op), c)
  | .acquire t => some (some (.acquire t), c)
  | .exec t fault target =>
    match s.phase t with
    | .inside op _ =>
      match (body .ThreadSafeQueue op fault s.shared).exit with
      | .ret r => some (some (.exec t fault target), c.goto t ((c.pc t).returned r))
      | .thrown _ => some (none, { c with terminated := true })
      | .wait => none
    | _ => none
  | .move t fault => (c.move K t fault).map fun c' => (none, c')

def offer (K : Nat) (s : QueueState Int32 (Thread P C)) (c : Client P C) (k : Turn P C) :
    Option (Option (QueueLabel Int32 (Thread P C)) × Client P C) :=
  if c.terminated then none else offerRunning K s c k

abbrev ClientState (P C : Nat) := QueueState Int32 (Thread P C) × Client P C

def Client.start (P C : Nat) : Client P C where
  pc
    | .inl _ => .produce 0
    | .inr _ => .loop
  totalProduced := 0
  totalConsumed := 0
  consumedValues := []
  consumedMutex := none
  terminated := false

/-- test_multithreaded_operations with P producers of K items and C consumers. -/
def clients (P C K : Nat) : Machine (ClientState P C) (Turn P C) :=
  (machine .ThreadSafeQueue (Thread P C) [[]]).drive (Client.start P C) (offer K)

/-- The accesses to the queue in lock order. -/
def accesses (P C K : Nat) (ks : List (Turn P C)) : List (Event (Thread P C) Int32) :=
  (clients P C K).log (Machine.driven (event .ThreadSafeQueue) (offer K)) (clients P C K).init ks

/-- The thread function has returned. -/
def Exited (K : Nat) (s : ClientState P C) (t : Thread P C) : Prop :=
  s.1.phase t = .idle ∧
    match t with
    | .inl _ => s.2.pc t = .produce K
    | .inr _ => s.2.pc t = .exited

/-- The values a producer has pushed so far. -/
def made (K : Nat) : Thread P C × Pc → Multiset Int32
  | (.inl i, .produce j) => (List.range j).map (item K i)
  | (.inl i, .produced j) => (List.range (j + 1)).map (item K i)
  | _ => 0

/-- A push that is not counted in total_produced yet. -/
def Pc.uncounted : Pc → Nat
  | .produced _ => 1
  | _ => 0

/-- A popped value that is not in consumed_values yet. -/
def Pc.holding : Pc → Multiset Int32
  | .store value | .storing value => {value}
  | _ => 0

/-- A stored value that is not counted in total_consumed yet. -/
def Pc.unconsumed : Pc → Nat
  | .consumed => 1
  | _ => 0

def Proper (K : Nat) : Thread P C → Pc → Prop
  | .inl _, .produce j => j ≤ K
  | .inl _, .produced j => j < K
  | .inl _, _ => False
  | .inr _, .produce _ | .inr _, .produced _ => False
  | .inr _, _ => True

/-- The queue, the vector and the two counters against where the threads stand. Each
of them lags the one before by what the threads are still holding. -/
structure Accounted (K : Nat) (H : List (Event (Thread P C) Int32)) (s : ClientState P C) :
    Prop where
  current : Current (fun t => nextCall K t (s.2.pc t)) s.1
  proper : ∀ t, Proper K t (s.2.pc t)
  pushed : ((pushes 0 H).map Prod.snd : Multiset Int32) = total (made K) (fun t => (t, s.2.pc t))
  produced : ∃ n, s.2.totalProduced = Int32.ofNat n ∧
    n + total Pc.uncounted s.2.pc = (pushes 0 H).length
  popped : ((pops 0 H).map Prod.snd : Multiset Int32) =
    s.2.consumedValues + total Pc.holding s.2.pc
  consumed : ∃ n, s.2.totalConsumed = Int32.ofNat n ∧
    n + total Pc.unconsumed s.2.pc = s.2.consumedValues.length ∧
    ((∃ t, s.2.pc t = .exited) → P * K ≤ n)

theorem Accounted.start (P C K : Nat) : Accounted K [] (clients P C K).init where
  current t op h := by cases h
  proper t := by
    cases t with
    | inl i => exact Nat.zero_le K
    | inr i => trivial
  pushed := by
    have h : total (made K) (fun t => (t, (clients P C K).init.2.pc t)) = 0 := by
      apply Finset.sum_eq_zero
      intro t _
      cases t <;> rfl
    rw [h]
    rfl
  produced := by
    refine ⟨0, rfl, ?_⟩
    have h : total Pc.uncounted (clients P C K).init.2.pc = 0 := by
      apply total_eq_zero.mpr
      intro t
      cases t <;> rfl
    rw [h]
    rfl
  popped := by
    have h : total Pc.holding (clients P C K).init.2.pc = 0 := by
      apply Finset.sum_eq_zero
      intro t _
      cases t <;> rfl
    rw [h]
    rfl
  consumed := by
    have h : total Pc.unconsumed (clients P C K).init.2.pc = 0 := by
      apply total_eq_zero.mpr
      intro t
      cases t <;> rfl
    refine ⟨0, rfl, ?_, ?_⟩
    · rw [h]
      rfl
    · rintro ⟨t, ht⟩
      cases t <;> cases ht

/-- What one thread may do between two program points, given the accesses it makes. -/
structure Advance (K : Nat) (c c' : Client P C) (t : Thread P C) (pc : Pc)
    (E : List (Event (Thread P C) Int32)) : Prop where
  moved : c'.pc = Function.update c.pc t pc
  proper : Proper K t pc
  pushed : ((pushes 0 E).map Prod.snd : Multiset Int32) + made K (t, c.pc t) = made K (t, pc)
  produced : ∃ k, c'.totalProduced = c.totalProduced + Int32.ofNat k ∧
    k + pc.uncounted = (pushes 0 E).length + (c.pc t).uncounted
  popped : ((pops 0 E).map Prod.snd : Multiset Int32) + c.consumedValues + (c.pc t).holding =
    c'.consumedValues + pc.holding
  consumed : ∃ k, c'.totalConsumed = c.totalConsumed + Int32.ofNat k ∧
    c.consumedValues.length + k + pc.unconsumed = c'.consumedValues.length + (c.pc t).unconsumed
  exits : pc = .exited → ∀ n, c.totalConsumed = Int32.ofNat n → n ≤ c.consumedValues.length →
    P * K ≤ n

theorem Accounted.advance {K : Nat} {H E : List (Event (Thread P C) Int32)}
    {m m' : QueueState Int32 (Thread P C)} {c c' : Client P C} {t : Thread P C} {pc : Pc}
    (ha : Accounted K H (m, c)) (hv : Advance K c c' t pc E)
    (hcur : Current (fun u => nextCall K u (c'.pc u)) m') :
    Accounted K (H ++ E) (m', c') := by
  have hpushes : pushes 0 (H ++ E) = pushes 0 H ++ pushes 0 E := by simp [pushes]
  have hpops : pops 0 (H ++ E) = pops 0 H ++ pops 0 E := by simp [pops]
  have hsame : ∀ u, u ≠ t → c'.pc u = c.pc u := by
    intro u hu
    rw [hv.moved, Function.update_of_ne hu]
  have hself : c'.pc t = pc := by rw [hv.moved, Function.update_self]
  refine ⟨hcur, ?_, ?_, ?_, ?_, ?_⟩
  · intro u
    by_cases hut : u = t
    · subst hut
      simpa [hself] using hv.proper
    · simpa [hsame u hut] using ha.proper u
  · have hx := total_exchange (made K) (f := fun u => (u, c.pc u)) (g := fun u => (u, c'.pc u)) t
      (fun u hu => by rw [hsame u hu])
    simp only [hself, ← hv.pushed] at hx
    have hold := ha.pushed
    simp only at hold
    rw [hpushes, List.map_append, ← Multiset.coe_add, hold]
    refine (add_right_cancel (b := made K (t, c.pc t)) ?_).symm
    rw [hx]
    ac_rfl
  · have hx := total_update Pc.uncounted c.pc t pc
    rw [← hv.moved] at hx
    obtain ⟨n, hn, hsum⟩ := ha.produced
    obtain ⟨k, hk, hkw⟩ := hv.produced
    simp only at hn hsum
    refine ⟨n + k, by simp [hk, hn], ?_⟩
    simp only [hpushes, List.length_append]
    omega
  · have hx := total_update Pc.holding c.pc t pc
    rw [← hv.moved] at hx
    have hold := ha.popped
    simp only at hold
    rw [hpops, List.map_append, ← Multiset.coe_add, hold]
    refine add_right_cancel (b := (c.pc t).holding) ?_
    have hnew := hv.popped
    calc (c.consumedValues : Multiset Int32) + total Pc.holding c.pc + ((pops 0 E).map Prod.snd) +
          (c.pc t).holding
        = ((pops 0 E).map Prod.snd + c.consumedValues + (c.pc t).holding) +
          total Pc.holding c.pc := by ac_rfl
      _ = c'.consumedValues + (total Pc.holding c.pc + pc.holding) := by rw [hnew]; ac_rfl
      _ = c'.consumedValues + total Pc.holding c'.pc + (c.pc t).holding := by rw [← hx]; ac_rfl
  · have hx := total_update Pc.unconsumed c.pc t pc
    rw [← hv.moved] at hx
    obtain ⟨n, hn, hsum, hexit⟩ := ha.consumed
    obtain ⟨k, hk, hkw⟩ := hv.consumed
    simp only at hn hsum
    refine ⟨n + k, by simp [hk, hn], ?_, ?_⟩
    · simp only
      omega
    · intro hex
      obtain ⟨u, hu⟩ := hex
      by_cases hut : u = t
      · subst hut
        have hle := hv.exits (hself ▸ hu) n hn (by omega)
        omega
      · have hle := hexit ⟨u, by rw [← hsame u hut]; exact hu⟩
        omega

theorem nextCall_cases {K : Nat} {t : Thread P C} {pc : Pc} {op : Op Int32}
    (h : nextCall K t pc = some op) :
    (∃ i j, t = .inl i ∧ pc = .produce j ∧ j < K ∧ op = .push 0 (item K i j)) ∨
    (∃ i, t = .inr i ∧ pc = .poll ∧ op = .tryPopRef 0) := by
  unfold nextCall at h
  split at h
  · rename_i i j
    obtain ⟨hj, hop⟩ := Option.ite_none_right_eq_some.mp h
    exact .inl ⟨i, j, rfl, rfl, hj, (Option.some.inj hop).symm⟩
  · rename_i i
    exact .inr ⟨i, rfl, rfl, (Option.some.inj h).symm⟩
  · cases h

/-- A producer's next value joins those it has made. -/
theorem Advance.push {K : Nat} {c : Client P C} {i : Fin P} {j : Nat}
    (hpc : c.pc (.inl i) = .produce j) (hj : j < K) :
    Advance K c (c.goto (.inl i) (.produced j)) (.inl i) (.produced j)
      [.push (.inl i) 0 (item K i j)] where
  moved := rfl
  proper := hj
  pushed := by
    simp only [hpc, made, List.range_succ, List.map_append, ← Multiset.coe_add]
    exact add_comm _ _
  produced := ⟨0, by simp [Client.goto], by simp [hpc, Pc.uncounted, pushes]⟩
  popped := by simp [hpc, Client.goto, Pc.holding, pops]
  consumed := ⟨0, by simp [Client.goto], by simp [hpc, Client.goto, Pc.unconsumed]⟩
  exits h := by cases h

theorem Advance.pop {K : Nat} {c : Client P C} {i : Fin C} (hpc : c.pc (.inr i) = .poll)
    (v : Int32) :
    Advance K c (c.goto (.inr i) (.store v)) (.inr i) (.store v) [.pop (.inr i) 0 v] where
  moved := rfl
  proper := trivial
  pushed := by simp [made, pushes]
  produced := ⟨0, by simp [Client.goto], by simp [hpc, Pc.uncounted, pushes]⟩
  popped := by simp [hpc, Client.goto, Pc.holding, pops, add_comm]
  consumed := ⟨0, by simp [Client.goto], by simp [hpc, Client.goto, Pc.unconsumed]⟩
  exits h := by cases h

theorem Advance.miss {K : Nat} {c : Client P C} {i : Fin C} (hpc : c.pc (.inr i) = .poll) :
    Advance K c (c.goto (.inr i) .rest) (.inr i) .rest [.miss (.inr i) 0] where
  moved := rfl
  proper := trivial
  pushed := by simp [made, pushes]
  produced := ⟨0, by simp [Client.goto], by simp [hpc, Pc.uncounted, pushes]⟩
  popped := by simp [hpc, Client.goto, Pc.holding, pops]
  consumed := ⟨0, by simp [Client.goto], by simp [hpc, Client.goto, Pc.unconsumed]⟩
  exits h := by cases h

/-- A step outside of the queue: what the thread holds is what changes the variables. -/
theorem Advance.aside {K : Nat} {c c' : Client P C} {t : Thread P C} {pc : Pc} (kp kc : Nat)
    (hpc : c'.pc = Function.update c.pc t pc) (hproper : Proper K t pc)
    (hmade : made K (t, c.pc t) = made K (t, pc))
    (hprod : c'.totalProduced = c.totalProduced + Int32.ofNat kp)
    (hunc : kp + pc.uncounted = (c.pc t).uncounted)
    (hhold : (c.consumedValues : Multiset Int32) + (c.pc t).holding =
      c'.consumedValues + pc.holding)
    (hcons : c'.totalConsumed = c.totalConsumed + Int32.ofNat kc)
    (hstored : c.consumedValues.length + kc + pc.unconsumed =
      c'.consumedValues.length + (c.pc t).unconsumed)
    (hexit : pc = .exited → ∀ n, c.totalConsumed = Int32.ofNat n → n ≤ c.consumedValues.length →
      P * K ≤ n) : Advance K c c' t pc [] where
  moved := hpc
  proper := hproper
  pushed := by simpa [pushes] using hmade
  produced := ⟨kp, hprod, by simpa [pushes] using hunc⟩
  popped := by simpa [pops] using hhold
  consumed := ⟨kc, hcons, hstored⟩
  exits := hexit

/-- A consumer that leaves its loop has seen all items counted. -/
theorem guard_exact {K n : Nat} {totalConsumed : Int32} (hPK : P * K < 2 ^ 31) (hn : n ≤ P * K)
    (hc : totalConsumed = Int32.ofNat n)
    (h : ¬totalConsumed < Int32.ofNat P * Int32.ofNat K) : P * K ≤ n := by
  rw [hc, ← Int32.ofNat_mul, Int32.lt_iff_toInt_lt, Int32.toInt_ofNat_of_lt hPK,
    Int32.toInt_ofNat_of_lt (lt_of_le_of_lt hn hPK)] at h
  omega

/-- A producer outside of the queue counts the push it has made. -/
theorem Advance.moveProducer {K : Nat} {c c' : Client P C} {i : Fin P} {fault : Bool}
    (hm : c.move K (.inl i) fault = some c') (hproper : Proper K (.inl i : Thread P C) (c.pc (.inl i))) :
    ∃ pc, Advance K c c' (.inl i) pc [] ∧ nextCall K (.inl i : Thread P C) (c.pc (.inl i)) = none := by
  cases hpc : c.pc (.inl i) with
  | produce j => simp [Client.move, hpc] at hm
  | produced j =>
    have hj : j < K := by simpa [hpc, Proper] using hproper
    simp only [Client.move, hpc, Option.some.injEq] at hm
    subst hm
    refine ⟨.produce (j + 1), Advance.aside 1 0 rfl hj ?_ ?_ ?_ ?_ ?_ ?_ (by simp), rfl⟩ <;>
      simp [hpc, made, Client.goto, Pc.uncounted, Pc.holding, Pc.unconsumed]
  | _ => simp [hpc, Proper] at hproper

/-- A consumer outside of the queue. Its guard is exact as long as the counter cannot
have overtaken the number of items. -/
theorem Advance.moveConsumer {K : Nat} {c c' : Client P C} {i : Fin C} {fault : Bool}
    (hm : c.move K (.inr i) fault = some c') (hproper : Proper K (.inr i : Thread P C) (c.pc (.inr i)))
    (hPK : P * K < 2 ^ 31) (hbound : c.consumedValues.length ≤ P * K) :
    c' = { c with terminated := true } ∨
    ∃ pc, Advance K c c' (.inr i) pc [] ∧ nextCall K (.inr i : Thread P C) (c.pc (.inr i)) = none := by
  cases hpc : c.pc (.inr i) with
  | produce j => simp [hpc, Proper] at hproper
  | produced j => simp [hpc, Proper] at hproper
  | poll => simp [Client.move, hpc] at hm
  | exited => simp [Client.move, hpc] at hm
  | loop =>
    simp only [Client.move, hpc] at hm
    split at hm
    · cases hm
      refine .inr ⟨.report, Advance.aside 0 0 rfl trivial ?_ ?_ ?_ ?_ ?_ ?_ (by simp), rfl⟩ <;>
        simp [hpc, made, Client.goto, Pc.uncounted, Pc.holding, Pc.unconsumed]
    · rename_i hge
      cases hm
      have hexit : ∀ n, c.totalConsumed = Int32.ofNat n → n ≤ c.consumedValues.length →
          P * K ≤ n := fun n hn hle => guard_exact hPK (hle.trans hbound) hn hge
      refine .inr ⟨.exited, Advance.aside 0 0 rfl trivial ?_ ?_ ?_ ?_ ?_ ?_ (fun _ => hexit),
        rfl⟩ <;> simp [hpc, made, Client.goto, Pc.uncounted, Pc.holding, Pc.unconsumed]
  | report =>
    simp only [Client.move, hpc, Option.some.injEq] at hm
    subst hm
    refine .inr ⟨.poll, Advance.aside 0 0 rfl trivial ?_ ?_ ?_ ?_ ?_ ?_ (by simp), rfl⟩ <;>
      simp [hpc, made, Client.goto, Pc.uncounted, Pc.holding, Pc.unconsumed]
  | store v =>
    simp only [Client.move, hpc, Option.ite_none_right_eq_some, Option.some.injEq] at hm
    obtain ⟨-, rfl⟩ := hm
    refine .inr ⟨.storing v, Advance.aside 0 0 rfl trivial ?_ ?_ ?_ ?_ ?_ ?_ (by simp), rfl⟩ <;>
      simp [hpc, made, Client.goto, Pc.uncounted, Pc.holding, Pc.unconsumed]
  | storing v =>
    simp only [Client.move, hpc] at hm
    split at hm
    · cases hm
      exact .inl rfl
    · cases hm
      refine .inr ⟨.consumed, Advance.aside 0 0 rfl trivial ?_ ?_ ?_ ?_ ?_ ?_ (by simp), rfl⟩ <;>
        simp [hpc, made, Client.goto, Pc.uncounted, Pc.holding, Pc.unconsumed, ← Multiset.coe_add]
  | consumed =>
    simp only [Client.move, hpc, Option.some.injEq] at hm
    subst hm
    refine .inr ⟨.loop, Advance.aside 0 1 rfl trivial ?_ ?_ ?_ ?_ ?_ ?_ (by simp), rfl⟩ <;>
      simp [hpc, made, Client.goto, Pc.uncounted, Pc.holding, Pc.unconsumed]
  | rest =>
    simp only [Client.move, hpc, Option.some.injEq] at hm
    subst hm
    refine .inr ⟨.loop, Advance.aside 0 0 rfl trivial ?_ ?_ ?_ ?_ ?_ ?_ (by simp), rfl⟩ <;>
      simp [hpc, made, Client.goto, Pc.uncounted, Pc.holding, Pc.unconsumed]

theorem Advance.move {K : Nat} {c c' : Client P C} {t : Thread P C} {fault : Bool}
    (hm : c.move K t fault = some c') (hproper : Proper K t (c.pc t))
    (hPK : P * K < 2 ^ 31) (hbound : c.consumedValues.length ≤ P * K) :
    c' = { c with terminated := true } ∨
    ∃ pc, Advance K c c' t pc [] ∧ nextCall K t (c.pc t) = none := by
  cases t with
  | inl i => exact .inr (Advance.moveProducer hm hproper)
  | inr i => exact Advance.moveConsumer hm hproper hPK hbound

/-- What a critical section of push or try_pop returns. -/
theorem Advance.exec {K : Nat} {c : Client P C} {t : Thread P C} {op : Op Int32} {fault : Bool}
    {qs : List (List Int32)} {o : Outcome (List (List Int32)) (Result Int32) Failure}
    (hcall : nextCall K t (c.pc t) = some op) (he : Effect op fault qs o) :
    (∃ e, o.exit = .thrown e) ∨ ∃ r pc, o.exit = .ret r ∧ (c.pc t).returned r = pc ∧
      Advance K c (c.goto t pc) t pc (accessOf t op r).toList := by
  rcases nextCall_cases hcall with ⟨i, j, rfl, hpc, hj, rfl⟩ | ⟨i, rfl, hpc, rfl⟩
  · rcases he.push_cases with rfl | rfl
    · exact .inl ⟨_, rfl⟩
    · exact .inr ⟨_, _, rfl, by rw [hpc]; rfl, Advance.push hpc hj⟩
  · rcases he.try_cases (.inl rfl) with ⟨-, rfl⟩ | ⟨v, q, -, rfl⟩ | ⟨-, rfl⟩
    · exact .inl ⟨_, rfl⟩
    · exact .inr ⟨_, _, rfl, by rw [hpc]; rfl, Advance.pop hpc v⟩
    · exact .inr ⟨_, _, rfl, by rw [hpc]; rfl, Advance.miss hpc⟩

theorem offer_eq_some {K : Nat} {m : QueueState Int32 (Thread P C)} {c : Client P C}
    {k : Turn P C} {o : Option (QueueLabel Int32 (Thread P C)) × Client P C}
    (h : offer K m c k = some o) : offerRunning K m c k = some o := by
  unfold offer at h
  split at h
  · cases h
  · exact h

/-- The end of a critical section. -/
theorem Accounted.exec {K : Nat} {H : List (Event (Thread P C) Int32)}
    {m m' : QueueState Int32 (Thread P C)} {c c' : Client P C} {t : Thread P C} {fault : Bool}
    {target : Option (Thread P C)} {l : QueueLabel Int32 (Thread P C)}
    (ha : Accounted K H (m, c))
    (ho : offerRunning K m c (.exec t fault target) = some (some l, c'))
    (hs : (monitor Int32 .ThreadSafeQueue).step m l = some m') :
    Accounted K (H ++ (event .ThreadSafeQueue m l).toList) (m', c') := by
  simp only [offerRunning] at ho
  split at ho
  · rename_i op back hp
    have hcall : nextCall K t (c.pc t) = some op := ha.current t op (by rw [hp]; rfl)
    rcases Advance.exec hcall (body_effect .ThreadSafeQueue op fault m.shared) with
      ⟨e, hx⟩ | ⟨r, pc, hx, hpc, hv⟩
    · simp [hx] at ho
    · simp only [hx, hpc, Option.some.injEq, Prod.mk.injEq] at ho
      obtain ⟨rfl, rfl⟩ := ho
      have hexec : event .ThreadSafeQueue m (.exec t fault target) =
          accessed accessOf t op (body .ThreadSafeQueue op fault m.shared).exit :=
        event_exec _ _ hp _ _
      have hreturns : ((monitor Int32 .ThreadSafeQueue).body op fault m.shared).exit ≠ .wait := by
        intro hw
        have hx' : ((monitor Int32 .ThreadSafeQueue).body op fault m.shared).exit = .ret r := hx
        rw [hx'] at hw
        cases hw
      rw [hexec, hx]
      refine ha.advance hv (ha.current.exec hs hp hreturns (fun u hut => ?_))
      simp only [Client.goto, Function.update_of_ne hut]
  · cases ho

/-- A step outside of the queue. -/
theorem Accounted.aside {K : Nat} {H : List (Event (Thread P C) Int32)}
    {m : QueueState Int32 (Thread P C)} {c c' : Client P C} {k : Turn P C}
    (ha : Accounted K H (m, c)) (hPK : P * K < 2 ^ 31) (hbound : c.consumedValues.length ≤ P * K)
    (ho : offerRunning K m c k = some (none, c')) : Accounted K H (m, c') := by
  have hterm : Accounted K H (m, { c with terminated := true }) :=
    ⟨ha.current, ha.proper, ha.pushed, ha.produced, ha.popped, ha.consumed⟩
  cases k with
  | call t =>
    obtain ⟨op, -, h⟩ := Option.map_eq_some_iff.mp ho
    cases h
  | acquire t => cases ho
  | exec t fault target =>
    simp only [offerRunning] at ho
    split at ho
    · split at ho
      · cases ho
      · cases ho
        exact hterm
      · cases ho
    · cases ho
  | move t fault =>
    obtain ⟨d, hd, h⟩ := Option.map_eq_some_iff.mp ho
    obtain rfl : d = c' := (Prod.mk.inj h).2
    rcases Advance.move hd (ha.proper t) hPK hbound with rfl | ⟨pc, hv, hno⟩
    · exact hterm
    · rw [← List.append_nil H]
      refine ha.advance hv (ha.current.aside hno (fun u hut => ?_))
      rw [hv.moved, Function.update_of_ne hut]

theorem Accounted.step {K : Nat} {H : List (Event (Thread P C) Int32)} {s s' : ClientState P C}
    {k : Turn P C} (ha : Accounted K H s) (hPK : P * K < 2 ^ 31)
    (hbound : s.2.consumedValues.length ≤ P * K) (hs : (clients P C K).step s k = some s') :
    Accounted K (H ++ (Machine.driven (event .ThreadSafeQueue) (offer K) s k).toList) s' := by
  obtain ⟨m, c⟩ := s
  obtain ⟨m', c'⟩ := s'
  rcases Machine.drive_step.mp hs with ⟨ho, he⟩ | ⟨l, ho, hl⟩
  · have hev : Machine.driven (event .ThreadSafeQueue) (offer K) (m, c) k = none := by
      simp [Machine.driven, ho]
    simp only at he
    subst he
    simpa [hev] using ha.aside hPK hbound (offer_eq_some ho)
  · change (monitor Int32 .ThreadSafeQueue).step m l = some m' at hl
    have hev : Machine.driven (event .ThreadSafeQueue) (offer K) (m, c) k =
        event .ThreadSafeQueue m l := by simp [Machine.driven, ho]
    rw [hev]
    have hrun := offer_eq_some ho
    have hsame : Current (fun u => nextCall K u (c.pc u)) m' → Accounted K H (m', c) :=
      fun h => ⟨h, ha.proper, ha.pushed, ha.produced, ha.popped, ha.consumed⟩
    cases k with
    | call t =>
      obtain ⟨op, hop, h⟩ := Option.map_eq_some_iff.mp hrun
      cases h
      simpa [event, Monitor.event] using hsame (ha.current.call hl hop)
    | acquire t =>
      cases hrun
      simpa [event, Monitor.event] using hsame (ha.current.acquire hl)
    | exec t fault target => exact ha.exec hrun hl
    | move t fault =>
      obtain ⟨d, -, h⟩ := Option.map_eq_some_iff.mp hrun
      cases h

/-- First in, first out, for the queue under the test. -/
theorem clients_fifo {K : Nat} {ks : List (Turn P C)} {s : ClientState P C}
    (hr : (clients P C K).run (clients P C K).init ks = some s) :
    (pushes 0 (accesses P C K ks)).map Prod.snd =
      (pops 0 (accesses P C K ks)).map Prod.snd ++ queueAt s.1.shared 0 := by
  obtain ⟨tr, htr, hlog⟩ := Machine.drive_run_log (event .ThreadSafeQueue) hr
  obtain ⟨hlegal, hshared⟩ := run_simulates .ThreadSafeQueue [[]] htr
  have hhist : history .ThreadSafeQueue [[]] tr = accesses P C K ks := hlog
  rw [hhist] at hlegal hshared
  have hfifo := fifo_of_lt hlegal (i := 0) (by simp)
  rwa [← hshared] at hfifo

theorem card_made_le {K : Nat} (f : Thread P C → Pc) (h : ∀ t, Proper K t (f t)) :
    Multiset.card (total (made K) (fun t => (t, f t))) ≤ P * K := by
  have hinl : ∀ i : Fin P, Multiset.card (made K ((.inl i : Thread P C), f (.inl i))) ≤ K := by
    intro i
    have hi := h (.inl i)
    cases hp : f (.inl i) with
    | produce j => simpa [hp, Proper, made] using hi
    | produced j => simpa [hp, Proper, made, Nat.succ_le_iff] using hi
    | _ => simp [hp, Proper] at hi
  have hinr : ∀ i : Fin C, Multiset.card (made K ((.inr i : Thread P C), f (.inr i))) = 0 := by
    intro i
    rfl
  rw [total, Multiset.card_sum, Fintype.sum_sum_type, Finset.sum_eq_zero (fun i _ => hinr i)]
  have hsum := Finset.sum_le_card_nsmul Finset.univ _ K (fun i _ => hinl i)
  simpa using hsum

/-- Counted, stored, popped, pushed, and never more than all items. -/
theorem Accounted.stored_le {K : Nat} {H : List (Event (Thread P C) Int32)}
    {s : ClientState P C} (ha : Accounted K H s)
    (hf : (pushes 0 H).map Prod.snd = (pops 0 H).map Prod.snd ++ queueAt s.1.shared 0) :
    s.2.consumedValues.length ≤ P * K := by
  have hpush := congrArg Multiset.card ha.pushed
  have hpop := congrArg Multiset.card ha.popped
  have hlen := congrArg List.length hf
  have hmade := card_made_le s.2.pc ha.proper
  simp only [Multiset.coe_card, Multiset.card_add, List.length_map, List.length_append]
    at hpush hpop hlen
  omega

theorem accounted_of_run {K : Nat} (hPK : P * K < 2 ^ 31) {ks : List (Turn P C)}
    {s : ClientState P C} (hr : (clients P C K).run (clients P C K).init ks = some s) :
    Accounted K (accesses P C K ks) s := by
  refine (clients P C K).run_induction (P := fun ks s => Accounted K (accesses P C K ks) s)
    (Accounted.start P C K) ?_ hr
  intro ks s k s' hu ha hs
  have hlog : accesses P C K (ks ++ [k]) = accesses P C K ks ++
      (Machine.driven (event .ThreadSafeQueue) (offer K) s k).toList :=
    (clients P C K).log_snoc _ hu hs
  exact hlog ▸ ha.step hPK (ha.stored_le (clients_fifo hu)) hs

theorem item_eq (K i j : Nat) : item K i j = Int32.ofNat (i * K + j) := by
  simp [item]

/-- The items of all producers are the numbers below P * K. -/
theorem sum_items (P K : Nat) :
    ∑ i : Fin P, (((List.range K).map (item K i) : List Int32) : Multiset Int32) =
      ((List.range (P * K)).map Int32.ofNat : List Int32) := by
  rw [Fin.sum_univ_eq_sum_range (fun i => (((List.range K).map (item K i) : List Int32) :
    Multiset Int32))]
  induction P with
  | zero => simp
  | succ P ih =>
    rw [Finset.sum_range_succ, ih, Nat.succ_mul, List.range_add, List.map_append,
      ← Multiset.coe_add, List.map_map]
    congr 2
    apply List.map_congr_left
    intro j _
    exact item_eq K P j

/-- Once all producers have returned, all items have been made. -/
theorem made_of_exited {K : Nat} {s : ClientState P C} (hall : ∀ t, Exited K s t) :
    total (made K) (fun t => (t, s.2.pc t)) =
      ((List.range (P * K)).map Int32.ofNat : List Int32) := by
  have hinl : ∀ i : Fin P, made K ((.inl i : Thread P C), s.2.pc (.inl i)) =
      ((List.range K).map (item K i) : List Int32) := by
    intro i
    have hi : s.2.pc (.inl i) = .produce K := (hall (.inl i)).2
    rw [hi]
    rfl
  have hinr : ∀ i : Fin C, made K ((.inr i : Thread P C), s.2.pc (.inr i)) = 0 := fun _ => rfl
  rw [total, Fintype.sum_sum_type, Finset.sum_congr rfl (fun i _ => hinl i), sum_items,
    Finset.sum_eq_zero (fun i _ => hinr i), add_zero]

theorem Exited.holds_nothing {K : Nat} {s : ClientState P C} {t : Thread P C}
    (h : Exited K s t) :
    (s.2.pc t).uncounted = 0 ∧ (s.2.pc t).holding = 0 ∧ (s.2.pc t).unconsumed = 0 := by
  cases t with
  | inl i =>
    have hi : s.2.pc (.inl i) = .produce K := h.2
    rw [hi]
    exact ⟨rfl, rfl, rfl⟩
  | inr i =>
    have hi : s.2.pc (.inr i) = .exited := h.2
    rw [hi]
    exact ⟨rfl, rfl, rfl⟩

/-- Polling consumers take every item exactly once, whatever the interleaving. -/
theorem polling_exactly_once (P C K : Nat) (hC : 1 ≤ C) (hPK : P * K < 2 ^ 31)
    {ks : List (Turn P C)} {s : ClientState P C}
    (hr : (clients P C K).run (clients P C K).init ks = some s) :
    s.2.totalConsumed.toInt ≤ P * K ∧
    ((∀ t, Exited K s t) →
      s.2.consumedValues.Perm ((List.range (P * K)).map Int32.ofNat) ∧
      s.2.totalProduced.toInt = P * K ∧ s.2.totalConsumed.toInt = P * K ∧
      queueAt s.1.shared 0 = []) := by
  have ha := accounted_of_run hPK hr
  have hf := clients_fifo hr
  have hstored := ha.stored_le hf
  obtain ⟨n, hn, hsum, hexit⟩ := ha.consumed
  have htoInt : ∀ k, k ≤ P * K → (Int32.ofNat k).toInt = (k : Int) :=
    fun k hk => Int32.toInt_ofNat_of_lt (lt_of_le_of_lt hk hPK)
  refine ⟨?_, fun hall => ?_⟩
  · rw [hn, htoInt n (by omega)]
    exact_mod_cast (by omega : n ≤ P * K)
  · have hcounted : P * K ≤ n := hexit ⟨.inr ⟨0, hC⟩, (hall (.inr ⟨0, hC⟩)).2⟩
    have hmade := ha.pushed
    rw [made_of_exited hall] at hmade
    have hholding : total Pc.holding s.2.pc = 0 :=
      Finset.sum_eq_zero (fun t _ => (hall t).holds_nothing.2.1)
    have hpopped := ha.popped
    rw [hholding, add_zero] at hpopped
    have hpushes : (pushes 0 (accesses P C K ks)).length = P * K := by
      simpa using congrArg Multiset.card hmade
    have hpops : (pops 0 (accesses P C K ks)).length = s.2.consumedValues.length := by
      simpa using congrArg Multiset.card hpopped
    -- as many values were popped as were pushed
    have hempty : queueAt s.1.shared 0 = [] := by
      have hlen := congrArg List.length hf
      simp only [List.length_map, List.length_append] at hlen
      apply List.eq_nil_of_length_eq_zero
      omega
    refine ⟨?_, ?_, ?_, hempty⟩
    · rw [hempty, List.append_nil] at hf
      exact Multiset.coe_eq_coe.mp (hpopped.symm.trans ((congrArg _ hf.symm).trans hmade))
    · obtain ⟨k, hk, hksum⟩ := ha.produced
      rw [total_eq_zero.mpr (fun t => (hall t).holds_nothing.1)] at hksum
      rw [hk, htoInt k (by omega)]
      exact_mod_cast (by omega : k = P * K)
    · rw [hn, htoInt n (by omega)]
      exact_mod_cast (by omega : n = P * K)

end

/-- One producer of one item, two consumers; the second polls an empty queue first. -/
def twoPollers : List (Turn 1 2) :=
  [.move (.inr 1) false, .move (.inr 1) false, .call (.inr 1), .acquire (.inr 1),
    .exec (.inr 1) false none, .call (.inl 0), .acquire (.inl 0), .move (.inr 0) false,
    .exec (.inl 0) false none, .move (.inr 0) false, .call (.inr 0), .acquire (.inr 0),
    .exec (.inr 0) false none, .move (.inr 0) false, .move (.inr 0) false, .move (.inl 0) false,
    .move (.inr 1) false, .move (.inr 0) false, .move (.inr 1) false, .move (.inr 0) false]

theorem polling_exactly_once_twoPollers :
    ∃ s, (clients 1 2 1).run (clients 1 2 1).init twoPollers = some s ∧
      (∀ t, Exited 1 s t) ∧ s.2.consumedValues.Perm ((List.range (1 * 1)).map Int32.ofNat) := by
  have hs : ((clients 1 2 1).run (clients 1 2 1).init twoPollers).isSome = true := by decide
  have hr := (Option.some_get hs).symm
  have hall : ∀ t, Exited 1 (Option.get _ hs) t := by
    intro t
    rcases t with t | t <;> fin_cases t <;> exact ⟨rfl, rfl⟩
  exact ⟨_, hr, hall, ((polling_exactly_once 1 2 1 (by decide) (by decide) hr).2 hall).1⟩

end LinuxPractice.Queue.Polling
