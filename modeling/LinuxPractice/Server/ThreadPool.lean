import LinuxPractice.Framework.Progress
import LinuxPractice.Framework.Wakeup
import LinuxPractice.Framework.Ring

namespace LinuxPractice.ThreadPool

open Monitor

def MAXNCLI : Nat := 32

/-- err_quit("iput = iget = %d", iput) -/
inductive Failure
  | errQuit
  deriving DecidableEq

inductive Result
  | queued
  | connection (connfd : Nat)
  deriving DecidableEq

/-- The two critical sections of clifd_mutex: that of main, for a connection it has
accepted, and that of thread_main. -/
inductive Op
  | put (connfd : Nat)
  | take
  deriving DecidableEq

/-- What main does with a connection. -/
def put (connfd : Nat) : Crit (Ring Nat MAXNCLI) Failure Result := do
  let clifd ← Crit.object
  let clifd := clifd.put connfd
  Crit.assign clifd
  if clifd.iput = clifd.iget then Crit.raise .errQuit
  Crit.notifyOne
  return .queued

/-- How a thread gets one. -/
def take : Crit (Ring Nat MAXNCLI) Failure Result := do
  Crit.waitUntil fun clifd => clifd.iget != clifd.iput
  let clifd ← Crit.object
  Crit.assign clifd.advance
  return .connection clifd.front

def body : Op → Unit → Ring Nat MAXNCLI → Outcome (Ring Nat MAXNCLI) Result Failure
  | .put connfd, _, clifd => (put connfd).outcome clifd
  | .take, _, clifd => take.outcome clifd

def monitor : Monitor Unit (Ring Nat MAXNCLI) Op Unit Result Failure where
  lockOf _ := ()
  ready _ _ := true
  byValue _ := false
  body := body

/-- main is none, the threads of the pool are numbered. -/
abbrev Thread (n : Nat) := Option (Fin n)

abbrev Shared (n : Nat) := State Unit (Ring Nat MAXNCLI) Op (Thread n)

/-- Connections are named by the order in which they are accepted. busy is the one a
thread is in web_child with. -/
structure Pool (n : Nat) where
  accepted : Nat
  handed : List Nat
  busy : Fin n → Option Nat
  quit : Bool

/-- Scheduling choices. -/
inductive Turn (n : Nat)
  | accept
  | take (i : Fin n)
  | acquire (t : Thread n)
  | exec (t : Thread n) (target : Option (Thread n))
  | spurious (t : Thread n)
  | finish (i : Fin n)
  deriving DecidableEq

/-- What the end of a critical section means to the threads. -/
def Pool.leave {n : Nat} (p : Pool n) (t : Thread n) : Exit Result Failure → Pool n
  | .ret (.connection c) =>
    match t with
    | some i => { p with handed := p.handed ++ [c], busy := Function.update p.busy i (some c) }
    | none => p
  | .thrown _ => { p with quit := true }
  | _ => p

/-- main accepts and puts, a thread takes, then serves and closes what it has taken. -/
def offer {n : Nat} (s : Shared n) (p : Pool n) :
    Turn n → Option (Option (Label Op Unit (Thread n)) × Pool n)
  | .accept =>
    if p.quit then none
    else some (some (.call none (.put p.accepted)), { p with accepted := p.accepted + 1 })
  | .take i =>
    if p.quit || (p.busy i).isSome then none else some (some (.call (some i) .take), p)
  | .acquire t => if p.quit then none else some (some (.acquire t), p)
  | .exec t target =>
    if p.quit then none
    else
      match s.phase t with
      | .inside op _ => some (some (.exec t () target), p.leave t (body op () s.shared).exit)
      | _ => none
  | .spurious t => if p.quit then none else some (some (.spurious t), p)
  | .finish i =>
    if p.quit || (p.busy i).isNone then none
    else some (none, { p with busy := Function.update p.busy i none })

/-- clifd with iget = iput = 0. -/
def clifd : Ring Nat MAXNCLI := ⟨fun _ => 0, 0, 0, by decide, by decide⟩

/-- main and n threads. -/
def server (n : Nat) : Machine (Shared n × Pool n) (Turn n) :=
  (monitor.machine clifd).drive ⟨0, [], fun _ => none, false⟩ offer

theorem body_put (c : Nat) (u : Unit) (r : Ring Nat MAXNCLI) :
    body (.put c) u r =
      if r.count + 1 = MAXNCLI then ⟨r.put c, .thrown .errQuit, false⟩
      else ⟨r.put c, .ret .queued, true⟩ := by
  have hfull := r.put_full c
  by_cases h : r.count + 1 = MAXNCLI
  · rw [if_pos h]
    have hp := hfull.mpr h
    simp [body, put, Crit.outcome, hp]
  · rw [if_neg h]
    have hp : ¬(r.put c).iput = (r.put c).iget := mt hfull.mp h
    simp only [body, put, Crit.outcome, Crit.bind_run, Crit.object_run, Crit.assign_run, hp, if_false]
    rfl

theorem body_take (u : Unit) (r : Ring Nat MAXNCLI) :
    body .take u r =
      if r.iget = r.iput then ⟨r, .wait, false⟩
      else ⟨r.advance, .ret (.connection r.front), false⟩ := by
  by_cases h : r.iget = r.iput
  · rw [if_pos h]
    simp [body, take, Crit.outcome, Crit.waitUntil, h]
  · rw [if_neg h]
    simp only [body, take, Crit.outcome, Crit.bind_run, Crit.waitUntil, bne_iff_ne, ne_eq, h,
      not_false_eq_true, if_true]
    rfl

/-- Everything a critical section can do. -/
inductive Effect (r : Ring Nat MAXNCLI) : Op → Outcome (Ring Nat MAXNCLI) Result Failure → Prop
  | overflow (c : Nat) (h : r.count + 1 = MAXNCLI) (hnil : (r.put c).content = []) :
      Effect r (.put c) ⟨r.put c, .thrown .errQuit, false⟩
  | queued (c : Nat) (h : (r.put c).content = r.content ++ [c]) :
      Effect r (.put c) ⟨r.put c, .ret .queued, true⟩
  | waits (h : r.content = []) : Effect r .take ⟨r, .wait, false⟩
  | taken (h : r.content = r.front :: r.advance.content) :
      Effect r .take ⟨r.advance, .ret (.connection r.front), false⟩

theorem body_effect (op : Op) (u : Unit) (r : Ring Nat MAXNCLI) : Effect r op (body op u r) := by
  cases op with
  | put c =>
    rw [body_put]
    split
    · rename_i h
      exact .overflow c h (((r.put c).content_eq_nil).mpr ((r.put_full c).mpr h).symm)
    · rename_i h
      exact .queued c (Ring.content_put c (Nat.lt_of_le_of_ne r.count_lt h))
  | take =>
    rw [body_take]
    split
    · rename_i h
      exact .waits ((r.content_eq_nil).mpr h)
    · rename_i h
      exact .taken (Ring.content_advance h)

theorem op_of_wait {op : Op} {u : Unit} {r : Ring Nat MAXNCLI}
    (hx : (monitor.body op u r).exit = .wait) : op = .take := by
  have he := body_effect op u r
  change (body op u r).exit = .wait at hx
  generalize body op u r = o at he hx
  cases he with
  | waits h => rfl
  | _ => cases hx

/-- A thread that waits leaves nothing behind, main adds one connection and signals. -/
theorem monitor_supply : monitor.Supply fun _ r => r.content.length where
  wait op u r hx := by
    have he := body_effect op u r
    change (body op u r).exit = .wait at hx
    change (body op u r).shared.content.length = 0
    generalize body op u r = o at he hx ⊢
    cases he with
    | waits h => exact congrArg List.length h
    | _ => cases hx
  take op u r v hw hx := by
    obtain ⟨u', r', hw⟩ := hw
    obtain rfl := op_of_wait hw
    have he := body_effect .take u r
    change (body .take u r).exit = .ret v at hx
    change (body .take u r).shared.content.length + 1 ≤ r.content.length
    generalize body .take u r = o at he hx ⊢
    cases he with
    | waits h => cases hx
    | taken h => exact Nat.le_of_eq (congrArg List.length h).symm
  thrown op u r e hx := by
    have he := body_effect op u r
    change (body op u r).exit = .thrown e at hx
    change (body op u r).shared.content.length ≤ r.content.length
    generalize body op u r = o at he hx ⊢
    cases he with
    | overflow c h hnil => simp [hnil]
    | _ => cases hx
  quiet op u r hn := by
    have he := body_effect op u r
    change (body op u r).notified = false at hn
    change (body op u r).shared.content.length ≤ r.content.length
    generalize body op u r = o at he hn ⊢
    cases he with
    | overflow c h hnil => simp [hnil]
    | queued c h => cases hn
    | waits h => exact Nat.le_refl _
    | taken h =>
      rw [h]
      exact Nat.le_succ _
  loud op u r := by
    have he := body_effect op u r
    change (body op u r).shared.content.length ≤ r.content.length + 1
    generalize body op u r = o at he ⊢
    cases he with
    | overflow c h hnil => simp [hnil]
    | queued c h => simp [h]
    | waits h => exact Nat.le_succ _
    | taken h =>
      rw [h]
      exact Nat.le_succ_of_le (Nat.le_succ _)
  other op u r op' hne _ := absurd rfl hne

section Signals

variable {n : Nat} {s : Shared n}

/-- A woken thread is one of the pool, and it does not fail. -/
theorem harmless_of_calls (hc : Calls monitor s) (l : Label Op Unit (Thread n)) :
    monitor.harmless (fun _ r => r.content.length) s l = true := by
  cases l with
  | exec t u target =>
    simp only [harmless]
    split
    · rename_i op hp
      obtain ⟨u', r', hw⟩ := hc.waiter t op (by rw [hp]; rfl)
      obtain rfl := op_of_wait hw
      have he := body_effect .take u s.shared
      change Effect s.shared .take (monitor.body .take u s.shared) at he
      generalize monitor.body .take u s.shared = o at he ⊢
      cases he with
      | waits h => rfl
      | taken h => rfl
    · rfl
  | _ => rfl

/-- No signal is lost. -/
theorem matched_of_reachable (hr : (monitor.machine clifd).Reachable s) :
    Calls monitor s ∧ Matched monitor (fun _ r => r.content.length) s := by
  have hlast : monitor.Lasting := fun _ _ _ _ h => h
  exact hr.invariant (P := fun s => Calls monitor s ∧ Matched monitor _ s)
    ⟨Calls.start clifd, Matched.start clifd⟩
    (fun s l s' h hs =>
      ⟨h.1.step hlast hs, h.2.step h.1 monitor_supply (harmless_of_calls h.1 l) hs⟩)

end Signals

section Flow

variable {n : Nat} {s s' : Shared n × Pool n}

/-- The connection main is in its critical section with, or on the way to it. -/
def putting : Option Op → List Nat
  | some (.put c) => [c]
  | _ => []

structure PoolInv (s : Shared n × Pool n) : Prop where
  main : ∀ op, (s.1.phase none).op? = some op → ∃ c, op = .put c
  pool : ∀ i op, (s.1.phase (some i)).op? = some op → op = .take
  flow : s.2.quit = false →
    s.2.handed ++ s.1.shared.content ++ putting (s.1.phase none).op? = List.range s.2.accepted
  busy : ∀ i c, s.2.busy i = some c → (s.1.phase (some i)).op? = none
  order : s.2.handed <+: List.range s.2.accepted
  quit : s.2.quit = true → s.2.accepted = s.2.handed.length + MAXNCLI

theorem prefix_of_flow {xs ys zs : List Nat} {m : Nat} (h : xs ++ ys ++ zs = List.range m) :
    xs <+: List.range m := ⟨ys ++ zs, (List.append_assoc xs ys zs).symm.trans h⟩

/-- A step that leaves everybody in the call it is in and the connections where they are. -/
theorem PoolInv.same {u : Shared n} (h : PoolInv s) (hsh : u.shared = s.1.shared)
    (hop : ∀ t, (u.phase t).op? = (s.1.phase t).op?) : PoolInv (u, s.2) where
  main op := by
    rw [hop]
    exact h.main op
  pool i op := by
    rw [hop]
    exact h.pool i op
  flow hq := by
    rw [hop, hsh]
    exact h.flow hq
  busy i c hb := by
    rw [hop]
    exact h.busy i c hb
  order := h.order
  quit := h.quit

theorem PoolInv.accept {u : Shared n} (h : PoolInv s) (hq : s.2.quit = false)
    (hs : monitor.step s.1 (.call none (.put s.2.accepted)) = some u) :
    PoolInv (u, { s.2 with accepted := s.2.accepted + 1 }) := by
  cases move_of_step hs with
  | call _ _ hp hr =>
    have hphase : ∀ i, (s.1.goto none (.entering (.put s.2.accepted))).phase (some i) =
        s.1.phase (some i) := fun i => by simp [State.goto]
    have hmain : (s.1.goto none (.entering (.put s.2.accepted))).phase none =
        .entering (.put s.2.accepted) := by simp [State.goto]
    have hflow := h.flow hq
    rw [hp] at hflow
    refine ⟨fun op hop => ?_, fun i op hop => ?_, fun _ => ?_, fun i c hb => ?_, ?_, fun hq' => ?_⟩
    · rw [hmain] at hop
      cases hop
      exact ⟨_, rfl⟩
    · rw [hphase] at hop
      exact h.pool i op hop
    · rw [hmain, List.range_succ, ← hflow]
      simp [putting, Phase.op?, State.goto]
    · rw [hphase]
      exact h.busy i c hb
    · rw [List.range_succ]
      exact h.order.trans (List.prefix_append _ _)
    · rw [hq] at hq'
      cases hq'

theorem PoolInv.take {i : Fin n} {u : Shared n} (h : PoolInv s) (hb : s.2.busy i = none)
    (hs : monitor.step s.1 (.call (some i) .take) = some u) : PoolInv (u, s.2) := by
  cases move_of_step hs with
  | call _ _ hp hr =>
    have hmain : (s.1.goto (some i) (.entering .take)).phase none = s.1.phase none := by
      simp [State.goto]
    refine ⟨fun op hop => ?_, fun j op hop => ?_, fun hq => ?_, fun j c hc => ?_, h.order, h.quit⟩
    · rw [hmain] at hop
      exact h.main op hop
    · by_cases hj : j = i
      · subst hj
        simp only [State.goto, Function.update_self, Phase.op?, Option.some.injEq] at hop
        exact hop.symm
      · have hne : some j ≠ some i := fun he => hj (Option.some.inj he)
        simp only [State.goto, Function.update_of_ne hne] at hop
        exact h.pool j op hop
    · rw [hmain]
      exact h.flow hq
    · have hj : j ≠ i := by
        rintro rfl
        rw [hb] at hc
        cases hc
      have hne : some j ≠ some i := fun he => hj (Option.some.inj he)
      simp only [State.goto, Function.update_of_ne hne]
      exact h.busy j c hc

theorem PoolInv.exec {t : Thread n} {target : Option (Thread n)} {op : Op} {back : Bool}
    {u : Shared n} (h : PoolInv s) (hq : s.2.quit = false) (hp : s.1.phase t = .inside op back)
    (hs : monitor.step s.1 (.exec t () target) = some u) :
    PoolInv (u, s.2.leave t (body op () s.1.shared).exit) := by
  obtain ⟨op', back', hp', hsh, hph, hother⟩ := exec_cases hs
  obtain ⟨rfl, -⟩ := Phase.inside.inj (hp.symm.trans hp')
  have hflow := h.flow hq
  have he := body_effect op () s.1.shared
  change u.shared = (body op () s.1.shared).shared at hsh
  change u.phase t = (body op () s.1.shared).exit.phase op at hph
  generalize body op () s.1.shared = o at he hsh hph ⊢
  cases t with
  | none =>
    obtain ⟨c, rfl⟩ := h.main op (by rw [hp]; rfl)
    rw [hp] at hflow
    have hpool : ∀ i, (u.phase (some i)).op? = (s.1.phase (some i)).op? :=
      fun i => hother (some i) (by simp)
    have hidle : (u.phase none).op? = none := by
      rw [hph]
      cases he with
      | overflow _ _ _ => rfl
      | queued _ _ => rfl
    cases he with
    | overflow _ hfull hnil =>
      refine ⟨fun op hop => ?_, fun i op hop => ?_, (by simp [Pool.leave]), fun i c hb => ?_, h.order, fun _ => ?_⟩
      · rw [hidle] at hop
        cases hop
      · rw [hpool] at hop
        exact h.pool i op hop
      · rw [hpool]
        exact h.busy i c hb
      · have hlen := congrArg List.length hflow
        simp only [List.length_append, Ring.length_content, putting, Phase.op?, List.length_singleton,
          List.length_range] at hlen
        change s.2.accepted = s.2.handed.length + MAXNCLI
        omega
    | queued _ hput =>
      refine ⟨fun op hop => ?_, fun i op hop => ?_, fun _ => ?_, fun i c hb => ?_, h.order, fun hq' => ?_⟩
      · rw [hidle] at hop
        cases hop
      · rw [hpool] at hop
        exact h.pool i op hop
      · rw [hidle, hsh, hput, ← List.append_assoc]
        simpa [putting, Phase.op?, Pool.leave] using hflow
      · rw [hpool]
        exact h.busy i c hb
      · exact absurd (hq.symm.trans hq') (by simp)
  | some i =>
    obtain rfl := h.pool i op (by rw [hp]; rfl)
    have hmain : (u.phase none).op? = (s.1.phase none).op? := hother none (by simp)
    have hpool : ∀ j, j ≠ i → (u.phase (some j)).op? = (s.1.phase (some j)).op? :=
      fun j hj => hother (some j) fun he => hj (Option.some.inj he)
    cases he with
    | waits hnil =>
      refine ⟨fun op hop => ?_, fun j op hop => ?_, fun _ => ?_, fun j c hb => ?_, h.order, h.quit⟩
      · rw [hmain] at hop
        exact h.main op hop
      · by_cases hj : j = i
        · subst hj
          rw [hph] at hop
          cases hop
          rfl
        · rw [hpool j hj] at hop
          exact h.pool j op hop
      · rw [hmain, hsh]
        exact hflow
      · have hj : j ≠ i := by
          rintro rfl
          have hnone := h.busy j c hb
          rw [hp] at hnone
          cases hnone
        rw [hpool j hj]
        exact h.busy j c hb
    | taken hcons =>
      rw [hcons] at hflow
      have hflow' : (s.2.handed ++ [s.1.shared.front]) ++ s.1.shared.advance.content ++
          putting (s.1.phase none).op? = List.range s.2.accepted := by simpa using hflow
      refine ⟨fun op hop => ?_, fun j op hop => ?_, fun _ => ?_, fun j c hb => ?_,
        prefix_of_flow hflow', fun hq' => ?_⟩
      · rw [hmain] at hop
        exact h.main op hop
      · by_cases hj : j = i
        · subst hj
          rw [hph] at hop
          cases hop
        · rw [hpool j hj] at hop
          exact h.pool j op hop
      · rw [hmain, hsh]
        exact hflow'
      · by_cases hj : j = i
        · subst hj
          rw [hph]
          rfl
        · rw [hpool j hj]
          simp only [Pool.leave, Function.update_of_ne hj] at hb
          exact h.busy j c hb
      · exact absurd (hq.symm.trans hq') (by simp)

theorem PoolInv.start : PoolInv (server n).init where
  main op hop := by cases hop
  pool i op hop := by cases hop
  flow _ := rfl
  busy i c hb := by cases hb
  order := List.nil_prefix
  quit hq := by cases hq

theorem PoolInv.step {k : Turn n} (h : PoolInv s) (hs : (server n).step s k = some s') :
    PoolInv s' := by
  obtain ⟨u, p⟩ := s'
  have hoffer : ∀ l, offer s.1 s.2 k = some (l, p) → s.2.quit = false := by
    intro l ho
    cases hq : s.2.quit with
    | false => rfl
    | true => cases k <;> simp [offer, hq] at ho
  rcases Machine.drive_step.mp hs with ⟨ho, rfl⟩ | ⟨l, ho, hl⟩
  · have hq := hoffer _ ho
    cases k with
    | finish i =>
      simp only [offer] at ho
      split at ho
      · cases ho
      · cases ho
        refine ⟨h.main, h.pool, h.flow, fun j c hb => ?_, h.order, h.quit⟩
        by_cases hj : j = i
        · subst hj
          simp only [Function.update_self] at hb
          cases hb
        · simp only [Function.update_of_ne hj] at hb
          exact h.busy j c hb
    | exec t target =>
      simp only [offer, hq, Bool.false_eq_true, if_false] at ho
      split at ho
      · cases ho
      · cases ho
    | take i =>
      simp only [offer] at ho
      split at ho
      · cases ho
      · cases ho
    | _ => simp [offer, hq] at ho
  · have hq := hoffer _ ho
    have hno : ¬s.2.quit = true := by simp [hq]
    change monitor.step s.1 l = some u at hl
    cases k with
    | accept =>
      rw [offer, if_neg hno] at ho
      cases ho
      exact h.accept hq hl
    | take i =>
      simp only [offer] at ho
      split at ho
      · cases ho
      · rename_i hno
        cases ho
        refine h.take ?_ hl
        simpa [hq] using hno
    | acquire t =>
      simp only [offer, hq, Bool.false_eq_true, if_false] at ho
      cases ho
      refine h.same ?_ (acquire_op? hl)
      cases move_of_step hl with
      | enter _ op _ hp _ hg =>
        obtain ⟨-, rfl⟩ := grab_eq_some.mp hg
        rfl
      | resume _ op _ hp _ hg =>
        obtain ⟨-, rfl⟩ := grab_eq_some.mp hg
        rfl
    | exec t target =>
      simp only [offer, hq, Bool.false_eq_true, if_false] at ho
      split at ho
      · rename_i op back hp
        cases ho
        exact h.exec hq hp hl
      · cases ho
    | spurious t =>
      simp only [offer, hq, Bool.false_eq_true, if_false] at ho
      cases ho
      cases move_of_step hl with
      | spurious _ op hp =>
        refine h.same rfl fun v => ?_
        by_cases hv : v = t
        · subst hv
          simp [State.goto, hp, Phase.op?]
        · simp [State.goto, hv]
    | finish i =>
      simp only [offer] at ho
      split at ho
      · cases ho
      · cases ho

theorem server_inv (h : (server n).Reachable s) : PoolInv s :=
  h.invariant PoolInv.start (fun _ _ _ hi hs => hi.step hs)

theorem shared_reachable (h : (server n).Reachable s) : (monitor.machine clifd).Reachable s.1 := by
  obtain ⟨ks, hr⟩ := h
  obtain ⟨tr, htr, -⟩ := Machine.drive_run_log (fun _ _ => (none : Option Unit)) hr
  exact ⟨tr, htr⟩

end Flow

/-- Every connection goes to one thread only, and they are taken in the order in which they
are accepted. Until main gives up none is lost on the way, and it gives up exactly when
MAXNCLI connections are accepted that no thread has taken. -/
theorem thread_pool_hands_over (n : Nat) (s : Shared n × Pool n) (hr : (server n).Reachable s) :
    s.2.handed <+: List.range s.2.accepted ∧
    (s.2.quit = false →
      s.2.handed ++ s.1.shared.content ++ putting (s.1.phase none).op? = List.range s.2.accepted) ∧
    (s.2.quit = true → s.2.accepted = s.2.handed.length + MAXNCLI) := by
  have h := server_inv hr
  exact ⟨h.order, h.flow, h.quit⟩

/-- main accepts a connection and a thread takes it. -/
def oneConnection : List (Turn 1) :=
  [.accept, .acquire none, .exec none none, .take 0, .acquire (some 0), .exec (some 0) none]

theorem thread_pool_hands_over_one : ∃ s, (server 1).Reachable s ∧ s.2.accepted = 1 ∧
    s.2.handed = [0] ∧ s.2.handed <+: List.range s.2.accepted := by
  have hreach : ∃ s, (server 1).Reachable s ∧ s.2.accepted = 1 ∧ s.2.handed = [0] :=
    ⟨_, ⟨oneConnection, rfl⟩, rfl, rfl⟩
  obtain ⟨s, hs, ha, hh⟩ := hreach
  exact ⟨s, hs, ha, hh, (thread_pool_hands_over 1 s hs).1⟩

section Idle

/-- What the threads do by themselves, without a new connection or the end of web_child. -/
def working {n : Nat} : Turn n → Bool
  | .take _ | .acquire _ | .exec _ _ => true
  | _ => false

variable {n : Nat} {s : Shared n × Pool n}

/-- At rest nobody holds the mutex or waits for it. -/
theorem resting_phase (hr : (server n).Reachable s) (hq : s.2.quit = false)
    (hrest : (server n).Resting working s) (t : Thread n) :
    s.1.phase t = .idle ∨ ∃ op, s.1.phase t = .sleeping op := by
  have hinside : ∀ u op back, s.1.phase u ≠ .inside op back := by
    intro u op back hp
    obtain ⟨target, v, hv⟩ := exec_enabled monitor hp ()
    have hno := hrest.step_eq_none (l := .exec u target) rfl
    have hv' : (monitor.machine clifd).step s.1 (.exec u () target) = some v := hv
    simp [server, Machine.drive, offer, hq, hp, hv'] at hno
  have hfree : s.1.owner () = none := by
    cases ho : s.1.owner () with
    | none => rfl
    | some u =>
      obtain ⟨op, back, hp, -⟩ := (exclusive_of_reachable (shared_reachable hr) () u).mp ho
      exact absurd hp (hinside u op back)
  have hacquire : ∀ op, ¬(s.1.phase t = .entering op ∨ s.1.phase t = .woken op) := by
    intro op hp
    obtain ⟨v, hv⟩ := acquire_enabled monitor hp hfree
    have hno := hrest.step_eq_none (l := .acquire t) rfl
    have hv' : (monitor.machine clifd).step s.1 (.acquire t) = some v := hv
    simp [server, Machine.drive, offer, hq, hv'] at hno
  cases hp : s.1.phase t with
  | idle => exact .inl rfl
  | sleeping op => exact .inr ⟨op, rfl⟩
  | inside op back => exact absurd hp (hinside t op back)
  | entering op => exact absurd (.inl hp) (hacquire op)
  | woken op => exact absurd (.inr hp) (hacquire op)

/-- A thread that is not serving waits for clifd_cond then. -/
theorem resting_free (hr : (server n).Reachable s) (hq : s.2.quit = false)
    (hrest : (server n).Resting working s) {i : Fin n} (hb : s.2.busy i = none) :
    ∃ op, s.1.phase (some i) = .sleeping op := by
  refine (resting_phase hr hq hrest (some i)).resolve_left fun hp => ?_
  have hno := hrest.step_eq_none (l := .take i) rfl
  have hcall : (monitor.machine clifd).step s.1 (.call (some i) .take) =
      some (s.1.goto (some i) (.entering .take)) := by
    simp only [machine, Monitor.step, hp]
    rfl
  simp [server, Machine.drive, offer, hq, hb, hcall] at hno

end Idle

/-- However the threads are scheduled, no connection waits in clifd while a thread of the
pool has none: once they come to rest, clifd is empty or every thread is serving. -/
theorem thread_pool_never_idles (n : Nat) (s : Shared n × Pool n) (hr : (server n).Reachable s)
    (hq : s.2.quit = false) (hrest : (server n).Resting working s) :
    s.1.phase none = .idle ∧ (s.1.shared.content = [] ∨ ∀ i, s.2.busy i ≠ none) := by
  obtain ⟨hcalls, hmatched⟩ := matched_of_reachable (shared_reachable hr)
  constructor
  · refine (resting_phase hr hq hrest none).resolve_right ?_
    rintro ⟨op, hp⟩
    obtain ⟨u, r, hw⟩ := hcalls.waiter none op (by rw [hp]; rfl)
    obtain ⟨c, hc⟩ := (server_inv hr).main op (by rw [hp]; rfl)
    rw [op_of_wait hw] at hc
    cases hc
  · by_contra hcon
    obtain ⟨hne, hfree⟩ := not_or.mp hcon
    simp only [not_forall, not_not] at hfree
    obtain ⟨i, hb⟩ := hfree
    obtain ⟨op, hp⟩ := resting_free hr hq hrest hb
    have hasleep : 0 < total (monitor.asleep ()) s.1.phase := total_pos.mpr ⟨some i, by simp [hp, asleep]⟩
    have hawake : total (monitor.awake ()) s.1.phase = 0 := by
      refine total_eq_zero.mpr fun t => ?_
      rcases resting_phase hr hq hrest t with hp | ⟨op, hp⟩
      · rw [hp]
        rfl
      · rw [hp]
        rfl
    have hle := hmatched () hasleep
    rw [hawake] at hle
    exact hne (List.length_eq_zero_iff.mp (Nat.le_zero.mp hle))

/-- A second connection is accepted while the only thread serves the first. -/
def twoConnections : List (Turn 1) := oneConnection ++ [.accept, .acquire none, .exec none none]

theorem thread_pool_never_idles_two : ∃ s, (server 1).Reachable s ∧
    (server 1).Resting working s ∧ s.1.shared.content = [1] ∧ s.2.busy 0 ≠ none := by
  have hreach : ∃ s, (server 1).run (server 1).init twoConnections = some s ∧
      s.2.quit = false ∧ s.1.shared.content = [1] ∧ s.1.phase none = .idle ∧
      s.1.phase (some 0) = .idle ∧ s.2.busy 0 = some 0 := ⟨_, rfl, rfl, rfl, rfl, rfl, rfl⟩
  obtain ⟨s, hs, hq, hcontent, hmain, hthread, hbusy⟩ := hreach
  have hidle : ∀ t, s.1.phase t = .idle := by
    intro t
    cases t with
    | none => exact hmain
    | some i =>
      rw [Subsingleton.elim i 0]
      exact hthread
  have hrest : (server 1).Resting working s := by
    intro k s' hk
    cases k with
    | take i =>
      rw [Subsingleton.elim i 0] at hk
      simp [server, Machine.drive, offer, hq, hbusy] at hk
    | acquire t => simp [server, Machine.drive, offer, hq, machine, Monitor.step, hidle] at hk
    | exec t target => simp [server, Machine.drive, offer, hq, hidle] at hk
    | _ => rfl
  refine ⟨s, ⟨_, hs⟩, hrest, hcontent, ?_⟩
  rcases (thread_pool_never_idles 1 s ⟨_, hs⟩ hq hrest).2 with hnil | hall
  · rw [hcontent] at hnil
    cases hnil
  · exact hall 0

end LinuxPractice.ThreadPool
