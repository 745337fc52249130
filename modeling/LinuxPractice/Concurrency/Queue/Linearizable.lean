import LinuxPractice.Concurrency.Queue.Wakeup
import LinuxPractice.Framework.Linearization

set_option linter.unusedSectionVars false

namespace LinuxPractice.Queue

open Monitor Fifo

section

variable {α τ : Type} [DecidableEq τ] [Fintype τ]

/-- The access to a queue that a returned member function stands for. -/
def accessOf (t : τ) : Op α → Result α → Option (Event τ α)
  | .push i v, .pushed => some (.push t i v)
  | op, .popped v => some (.pop t op.queue v)
  | op, .failed => some (.miss t op.queue)
  | op, .emptiness b => some (.look t op.queue b)
  | op, .copied => some (.copy t op.queue)
  | _, _ => none

/-- Member functions take effect in their critical section, if they return at all. -/
def event (c : Class) (s : QueueState α τ) (l : QueueLabel α τ) : Option (Event τ α) :=
  (monitor α c).event accessOf s l

/-- The accesses of a run in lock order. -/
def history (c : Class) (qs : List (List α)) (tr : List (QueueLabel α τ)) : List (Event τ α) :=
  (machine c τ qs).log (event c) (start qs) tr

/-- What a critical section does to the queues is what its access does to
sequential queues, with the answer sequential queues give. -/
theorem effect_simulates {op : Op α} {fault : Bool} {qs : List (List α)}
    {o : Outcome (List (List α)) (Result α) Failure} (he : Effect op fault qs o)
    (hr : op.queue < qs.length) (t : τ) :
    Sequential.Simulated apply Allowed id (accessed accessOf t op o.exit) qs o.shared := by
  cases he with
  | thrown _ _ => rfl
  | waits i _ _ => rfl
  | pushed i v hop _ =>
    subst hop
    exact ⟨hr, rfl⟩
  | popped i v q hop h _ =>
    have hi : op.queue = i := queue_of_takes hop
    have hacc : accessOf t op (.popped v) = some (.pop t op.queue v) := by cases op <;> rfl
    simp only [accessed, hacc, hi]
    exact ⟨⟨q, h⟩, by simp [apply, h]⟩
  | failed i hop h =>
    have hacc : accessOf t op (.failed : Result α) = some (.miss t op.queue) := by
      cases op <;> rfl
    simp only [accessed, hacc]
    exact ⟨⟨hr, hop.queue ▸ h⟩, rfl⟩
  | looked i hop =>
    subst hop
    exact ⟨⟨hr, rfl⟩, rfl⟩
  | copied i hop _ =>
    subst hop
    exact ⟨hr, rfl⟩

theorem step_simulates {c : Class} {qs : List (List α)} {s s' : QueueState α τ}
    {l : QueueLabel α τ} (hc : Calls (monitor α c) s)
    (hs : (machine c τ qs).step s l = some s') :
    Sequential.Simulated apply Allowed State.shared (event c s l) s s' := by
  refine step_simulated (fun t op back fault hp => ?_) hs
  have hr : op.queue < s.shared.length := by
    simpa [monitor] using hc.ready t op (by rw [hp]; rfl)
  exact effect_simulates (body_effect c op fault s.shared) hr t

/-- Every run is matched by the sequential queues replaying its history. -/
theorem run_simulates (c : Class) (qs : List (List α)) {tr : List (QueueLabel α τ)}
    {s : QueueState α τ} (hr : (machine c τ qs).run (start qs) tr = some s) :
    Legal qs (history c qs tr) ∧ s.shared = replay qs (history c qs tr) := by
  have hsim : ∀ s l s', (machine c τ qs).Reachable s → (machine c τ qs).step s l = some s' →
      Sequential.Simulated apply Allowed State.shared (event c s l) s s' :=
    fun _ _ _ hr hs => step_simulates (calls_of_reachable (monitor_lasting c) hr) hs
  exact Sequential.legal_of_simulated (machine c τ qs) hsim hr

/-- What it means for a run to be one of sequential first-in first-out queues. -/
structure Linearizable (c : Class) (qs : List (List α)) (tr : List (QueueLabel α τ))
    (s : QueueState α τ) : Prop where
  sequential : Legal qs (history c qs tr) ∧ s.shared = replay qs (history c qs tr)
  fifo : ∀ i, i < s.shared.length →
    birth qs i (history c qs tr) ++ (pushes i (history c qs tr)).map Prod.snd =
      (pops i (history c qs tr)).map Prod.snd ++ queueAt s.shared i
  original : ∀ i, i < qs.length → birth qs i (history c qs tr) = queueAt qs i
  copied : ∀ H₁ H₂ t i, history c qs tr = H₁ ++ .copy t i :: H₂ →
    birth qs (replay qs H₁).length (history c qs tr) = queueAt (replay qs H₁) i
  locked : ∀ t op back, s.phase t = .inside op back → s.owner op.queue = some t
  tryPop : ∀ t op back i fault, s.phase t = .inside op back → op.Tries i →
    ((body c op fault s.shared).exit = .ret .failed ↔ queueAt s.shared i = []) ∧
    ((body c op fault s.shared).exit = .ret .failed → (body c op fault s.shared).shared = s.shared)
  defined : ∀ t op back fault, s.phase t = .inside op back →
    (body c op fault s.shared).exit ≠ .thrown .emptyQueue
  order : ∀ i p r, i < s.shared.length →
    (received qs r p i (history c qs tr)).Sublist (pushedBy p i (history c qs tr))

theorem tryPop_failed_iff (c : Class) {op : Op α} {i : Nat} (hop : op.Tries i) (fault : Bool)
    (qs : List (List α)) :
    ((body c op fault qs).exit = .ret .failed ↔ queueAt qs i = []) ∧
    ((body c op fault qs).exit = .ret .failed → (body c op fault qs).shared = qs) := by
  have he := body_effect c op fault qs
  generalize body c op fault qs = o at he ⊢
  rcases he.try_cases hop with ⟨hne, rfl⟩ | ⟨v, q, h, rfl⟩ | ⟨h, rfl⟩
  · simpa using hne
  · simp [h]
  · simpa using h

/-- front() and pop() are only reached with an element in the queue. -/
theorem body_defined (c : Class) (op : Op α) (fault : Bool) (qs : List (List α)) :
    (body c op fault qs).exit ≠ .thrown .emptyQueue := by
  have he := body_effect c op fault qs
  generalize body c op fault qs = o at he ⊢
  cases he <;> simp

/-- Every run of every number of threads and queues is a run of sequential queues. -/
theorem queues_linearizable (c : Class) (qs : List (List α)) {tr : List (QueueLabel α τ)}
    {s : QueueState α τ} (hr : (machine c τ qs).run (start qs) tr = some s) :
    Linearizable c qs tr s := by
  obtain ⟨hl, hsh⟩ := run_simulates c qs hr
  refine ⟨⟨hl, hsh⟩, ?_, ?_, ?_, ?_, ?_, ?_, ?_⟩
  · intro i hi
    rw [hsh] at hi ⊢
    exact Fifo.fifo hl hi
  · intro i hi
    exact birth_of_lt hi _
  · intro H₁ H₂ t i hh
    rw [hh]
    exact birth_copy qs H₁ H₂ t i
  · intro t op back hp
    have hex : Exclusive (monitor α c) s := exclusive_of_reachable ⟨tr, hr⟩
    exact (hex op.queue t).mpr ⟨op, back, hp, rfl⟩
  · intro t op back i fault _ hop
    exact tryPop_failed_iff c hop fault s.shared
  · intro t op back fault _
    exact body_defined c op fault s.shared
  · intro i p r hi
    rw [hsh] at hi
    exact received_sublist hl hi r p

end

/-- A producer and two consumers; the queue is copied between the two pops. -/
def copyMidRun : List (QueueLabel Int (Fin 3)) :=
  [.call 1 (.waitAndPopPtr 0), .acquire 1, .exec 1 false none,
    .call 0 (.push 0 1), .acquire 0, .exec 0 false (some 1),
    .call 0 (.push 0 2), .acquire 1, .exec 1 false none,
    .call 2 (.copy 0), .acquire 0, .exec 0 false none, .acquire 2, .exec 2 false none,
    .call 2 (.tryPopRef 1), .acquire 2, .exec 2 false none,
    .call 2 (.tryPopRef 1), .acquire 2, .exec 2 false none]

theorem queues_linearizable_copyMidRun :
    ∃ s, (machine .ThreadSafeQueue (Fin 3) [[]]).run (start [[]]) copyMidRun = some s ∧
      s.shared = [[2], []] ∧ Linearizable .ThreadSafeQueue [[]] copyMidRun s := by
  have hs : ((machine .ThreadSafeQueue (Fin 3) [[]]).run (start [[]]) copyMidRun).isSome =
      true := by decide
  have hr := (Option.some_get hs).symm
  exact ⟨_, hr, rfl, queues_linearizable .ThreadSafeQueue [[]] hr⟩

end LinuxPractice.Queue
