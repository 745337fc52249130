import LinuxPractice.Concurrency.Stack.Model
import LinuxPractice.Framework.Linearization

set_option linter.unusedSectionVars false

namespace LinuxPractice.Stack

open Monitor Lifo

section

variable {α τ : Type} [DecidableEq τ] [Fintype τ]

/-- The access to the stack that a returned member function stands for. -/
def accessOf (t : τ) : Op α → Result α → Option (Event τ α)
  | .push v, .pushed => some (.push t v)
  | .pop, .popped v => some (.pop t v)
  | _, _ => none

/-- Member functions take effect in their critical section, if they return at all. -/
def event (s : StackState α τ) (l : StackLabel α τ) : Option (Event τ α) :=
  (monitor α).event accessOf s l

/-- The accesses of a run in lock order. -/
def history (tr : List (StackLabel α τ)) : List (Event τ α) :=
  (machine α τ).log event (start []) tr

theorem effect_simulates {op : Op α} {fault : Bool} {st : List α}
    {o : Outcome (List α) (Result α) Failure} (he : Effect op fault st o) (t : τ) :
    Sequential.Simulated apply Allowed id (accessed accessOf t op o.exit) st o.shared := by
  cases he with
  | pushed v hop _ =>
    subst hop
    exact ⟨trivial, rfl⟩
  | popped v hop h _ =>
    subst hop
    exact ⟨h, rfl⟩
  | _ => rfl

/-- Every run is matched by the sequential stack replaying its history. -/
theorem run_simulates {tr : List (StackLabel α τ)} {s : StackState α τ}
    (hr : (machine α τ).run (start []) tr = some s) :
    Legal [] (history tr) ∧ s.shared = replay [] (history tr) := by
  have hsim : ∀ s l s', (machine α τ).Reachable s → (machine α τ).step s l = some s' →
      Sequential.Simulated apply Allowed State.shared (event s l) s s' := by
    intro s l s' _ hs
    exact step_simulated (fun t op _ fault _ => effect_simulates (body_effect op fault s.shared) t) hs
  exact Sequential.legal_of_simulated (machine α τ) hsim hr

theorem pop_empty_iff (fault : Bool) (st : List α) :
    (body .pop fault st).exit = .thrown .emptyStack ↔ st = [] := by
  have he := body_effect .pop fault st
  generalize body .pop fault st = o at he ⊢
  cases he with
  | pushed v hop _ => cases hop
  | full v hop _ => cases hop
  | empty _ h => simpa using h
  | failed _ h _ => simpa using h
  | popped v _ h _ =>
    have hne : st ≠ [] := by
      intro hnil
      simp [hnil] at h
    simpa using hne

/-- The strong guarantee: whatever is thrown, the stack is as it was. -/
theorem thrown_unchanged (op : Op α) (fault : Bool) (st : List α) {e : Failure}
    (h : (body op fault st).exit = .thrown e) : (body op fault st).shared = st := by
  have he := body_effect op fault st
  generalize body op fault st = o at he h ⊢
  cases he with
  | pushed v _ _ => cases h
  | popped v _ _ _ => cases h
  | _ => rfl

/-- back() and pop_back() are only reached with an element in the vector, and no
member function waits. -/
theorem body_defined (op : Op α) (fault : Bool) (st : List α) :
    (body op fault st).exit ≠ .thrown .emptyVector ∧ (body op fault st).exit ≠ .wait := by
  have he := body_effect op fault st
  generalize body op fault st = o at he ⊢
  cases he <;> simp

/-- What it means for a run to be one of a sequential last-in first-out stack. -/
structure Linearizable (tr : List (StackLabel α τ)) (s : StackState α τ) : Prop where
  sequential : Legal [] (history tr) ∧ s.shared = replay [] (history tr)
  latest : ∀ G u v R, history tr = G ++ .pop u v :: R →
    ∃ G' t B, G = G' ++ .push t v :: B ∧ Balanced B
  brackets : Nested (history tr) s.shared
  conserved : (pushed (history tr) : Multiset α) = popped (history tr) + s.shared
  locked : ∀ t op back, s.phase t = .inside op back → s.owner () = some t
  empty : ∀ t back fault, s.phase t = .inside .pop back →
    ((body .pop fault s.shared).exit = .thrown .emptyStack ↔
      (pushed (history tr) : Multiset α) = popped (history tr))
  unchanged : ∀ t back fault e, s.phase t = .inside .pop back →
    (body .pop fault s.shared).exit = .thrown e → (body .pop fault s.shared).shared = s.shared
  defined : ∀ t op back fault, s.phase t = .inside op back →
    (body op fault s.shared).exit ≠ .thrown .emptyVector

theorem linearizable_of_run {tr : List (StackLabel α τ)} {s : StackState α τ}
    (hr : (machine α τ).run (start []) tr = some s) : Linearizable tr s := by
  obtain ⟨hl, hsh⟩ := run_simulates hr
  have hcons : (pushed (history tr) : Multiset α) = popped (history tr) + s.shared := by
    rw [hsh]
    exact Lifo.conserved hl
  refine ⟨⟨hl, hsh⟩, ?_, hsh ▸ nested_of_legal hl, hcons, ?_, ?_, ?_, ?_⟩
  · intro G u v R hh
    rw [hh] at hl
    exact push_of_pop hl
  · intro t op back hp
    have hex : Exclusive (monitor α) s := exclusive_of_reachable ⟨tr, hr⟩
    exact (hex () t).mpr ⟨op, back, hp, rfl⟩
  · intro t back fault _
    rw [pop_empty_iff, hcons, add_eq_left, Multiset.coe_eq_zero]
  · intro t back fault e _ h
    exact thrown_unchanged .pop fault s.shared h
  · intro t op back fault _
    exact (body_defined op fault s.shared).1

end

end LinuxPractice.Stack
