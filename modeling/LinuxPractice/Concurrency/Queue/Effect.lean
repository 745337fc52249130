import LinuxPractice.Concurrency.Queue.Model

namespace LinuxPractice.Queue

open Monitor Fifo

section

variable {α : Type}

def Op.Waits (op : Op α) (i : Nat) : Prop := op = .waitAndPopRef i ∨ op = .waitAndPopPtr i

def Op.Tries (op : Op α) (i : Nat) : Prop := op = .tryPopRef i ∨ op = .tryPopPtr i

theorem Op.Waits.queue {op : Op α} {i : Nat} (h : op.Waits i) : op.queue = i := by
  rcases h with rfl | rfl <;> rfl

theorem Op.Tries.queue {op : Op α} {i : Nat} (h : op.Tries i) : op.queue = i := by
  rcases h with rfl | rfl <;> rfl

theorem Op.Waits.not_tries {op : Op α} {i j : Nat} (h : op.Waits i) : ¬op.Tries j := by
  rcases h with rfl | rfl <;> simp [Op.Tries]

theorem queue_of_takes {op : Op α} {i : Nat} (h : op.Waits i ∨ op.Tries i) : op.queue = i :=
  h.elim Op.Waits.queue Op.Tries.queue

/-- Everything the critical section of a call can do. -/
inductive Effect (op : Op α) (fault : Bool) (qs : List (List α)) :
    Outcome (List (List α)) (Result α) Failure → Prop
  | thrown (hf : fault = true) (hne : ∀ i, op.Waits i ∨ op.Tries i → queueAt qs i ≠ []) :
      Effect op fault qs ⟨qs, .thrown .element, false⟩
  | pushed (i : Nat) (v : α) (hop : op = .push i v) (hf : fault = false) :
      Effect op fault qs ⟨qs.set i (queueAt qs i ++ [v]), .ret .pushed, true⟩
  | waits (i : Nat) (hop : op.Waits i) (he : queueAt qs i = []) :
      Effect op fault qs ⟨qs, .wait, false⟩
  | popped (i : Nat) (v : α) (q : List α) (hop : op.Waits i ∨ op.Tries i)
      (he : queueAt qs i = v :: q) (hf : fault = false) :
      Effect op fault qs ⟨qs.set i q, .ret (.popped v), false⟩
  | failed (i : Nat) (hop : op.Tries i) (he : queueAt qs i = []) :
      Effect op fault qs ⟨qs, .ret .failed, false⟩
  | looked (i : Nat) (hop : op = .empty i) :
      Effect op fault qs ⟨qs, .ret (.emptiness (queueAt qs i).isEmpty), false⟩
  | copied (i : Nat) (hop : op = .copy i) (hf : fault = false) :
      Effect op fault qs ⟨qs ++ [queueAt qs i], .ret .copied, false⟩

/-- push throws or adds its element and notifies. -/
theorem Effect.push_cases {i : Nat} {v : α} {fault : Bool} {qs : List (List α)}
    {o : Outcome (List (List α)) (Result α) Failure} (he : Effect (.push i v) fault qs o) :
    o = ⟨qs, .thrown .element, false⟩ ∨
      o = ⟨qs.set i (queueAt qs i ++ [v]), .ret .pushed, true⟩ := by
  cases he with
  | thrown _ _ => exact .inl rfl
  | pushed k u hop _ =>
    cases hop
    exact .inr rfl
  | waits k hop _ => rcases hop with h | h <;> cases h
  | popped k u q hop _ _ => rcases hop with (h | h) | (h | h) <;> cases h
  | failed k hop _ => rcases hop with h | h <;> cases h
  | looked k hop => cases hop
  | copied k hop _ => cases hop

/-- A try_pop throws or takes an element of a queue that has one, and fails on an empty one. -/
theorem Effect.try_cases {op : Op α} {i : Nat} {fault : Bool} {qs : List (List α)}
    {o : Outcome (List (List α)) (Result α) Failure} (he : Effect op fault qs o)
    (hop : op.Tries i) :
    (queueAt qs i ≠ [] ∧ o = ⟨qs, .thrown .element, false⟩) ∨
    (∃ v q, queueAt qs i = v :: q ∧ o = ⟨qs.set i q, .ret (.popped v), false⟩) ∨
    (queueAt qs i = [] ∧ o = ⟨qs, .ret .failed, false⟩) := by
  cases he with
  | thrown _ hne => exact .inl ⟨hne i (.inr hop), rfl⟩
  | popped j v q hj h _ =>
    obtain rfl : j = i := (queue_of_takes hj).symm.trans hop.queue
    exact .inr (.inl ⟨v, q, h, rfl⟩)
  | failed j hj h =>
    obtain rfl : j = i := hj.queue.symm.trans hop.queue
    exact .inr (.inr ⟨h, rfl⟩)
  | waits j hw _ => exact absurd hop hw.not_tries
  | pushed j v hj _ => rcases hop with rfl | rfl <;> cases hj
  | looked j hj => rcases hop with rfl | rfl <;> cases hj
  | copied j hj _ => rcases hop with rfl | rfl <;> cases hj

theorem pushNotify_outcome (fault : Bool) (v : α) (q : List α) :
    (pushNotify fault v).outcome q =
      if fault then ⟨q, .thrown .element, false⟩ else ⟨q ++ [v], .ret .pushed, true⟩ := by
  cases fault <;> rfl

theorem waitTake_outcome (fault : Bool) (q : List α) :
    (waitTake fault).outcome q =
      match q with
      | [] => ⟨[], .wait, false⟩
      | v :: q => if fault then ⟨v :: q, .thrown .element, false⟩
        else ⟨q, .ret (.popped v), false⟩ := by
  cases q <;> cases fault <;> rfl

theorem tryTake_outcome (fault : Bool) (q : List α) :
    (tryTake fault).outcome q =
      match q with
      | [] => ⟨[], .ret .failed, false⟩
      | v :: q => if fault then ⟨v :: q, .thrown .element, false⟩
        else ⟨q, .ret (.popped v), false⟩ := by
  cases q <;> cases fault <;> rfl

theorem push_effect {op : Op α} {i : Nat} {v : α} (hop : op = .push i v) (fault : Bool)
    (qs : List (List α)) : Effect op fault qs (onQueue qs i (pushNotify fault v)) := by
  simp only [onQueue, pushNotify_outcome]
  cases fault with
  | true =>
    simp only [if_true, set_queueAt_self]
    exact .thrown rfl (by simp [hop, Op.Waits, Op.Tries])
  | false => exact .pushed i v hop rfl

/-- An operation that takes from the i-th queue takes from no other one. -/
theorem nonempty_of_takes {op : Op α} {i : Nat} {v : α} {q : List α} {qs : List (List α)}
    (hop : op.Waits i ∨ op.Tries i) (he : queueAt qs i = v :: q) :
    ∀ j, op.Waits j ∨ op.Tries j → queueAt qs j ≠ [] := by
  intro j hj
  have hi : op.queue = i := queue_of_takes hop
  have hij : op.queue = j := queue_of_takes hj
  simp [← hij, hi, he]

theorem wait_effect {op : Op α} {i : Nat} (hop : op.Waits i) (fault : Bool)
    (qs : List (List α)) : Effect op fault qs (onQueue qs i (waitTake fault)) := by
  have hself := set_queueAt_self qs i
  simp only [onQueue, waitTake_outcome]
  cases he : queueAt qs i with
  | nil =>
    rw [he] at hself
    simp only [hself]
    exact .waits i hop he
  | cons v q =>
    rw [he] at hself
    cases fault with
    | true =>
      simp only [if_true, hself]
      exact .thrown rfl (nonempty_of_takes (.inl hop) he)
    | false => exact .popped i v q (.inl hop) he rfl

theorem try_effect {op : Op α} {i : Nat} (hop : op.Tries i) (fault : Bool)
    (qs : List (List α)) : Effect op fault qs (onQueue qs i (tryTake fault)) := by
  have hself := set_queueAt_self qs i
  simp only [onQueue, tryTake_outcome]
  cases he : queueAt qs i with
  | nil =>
    rw [he] at hself
    simp only [hself]
    exact .failed i hop he
  | cons v q =>
    rw [he] at hself
    cases fault with
    | true =>
      simp only [if_true, hself]
      exact .thrown rfl (nonempty_of_takes (.inr hop) he)
    | false => exact .popped i v q (.inr hop) he rfl

theorem empty_effect {op : Op α} {i : Nat} (hop : op = .empty i) (fault : Bool)
    (qs : List (List α)) : Effect op fault qs (onQueue qs i isEmpty) := by
  have hout : (isEmpty : Crit (List α) Failure (Result α)).outcome (queueAt qs i) =
      ⟨queueAt qs i, .ret (.emptiness (queueAt qs i).isEmpty), false⟩ := rfl
  simp only [onQueue, hout, set_queueAt_self]
  exact .looked i hop

theorem copy_effect {op : Op α} {i : Nat} (hop : op = .copy i) (fault : Bool)
    (qs : List (List α)) : Effect op fault qs (copyConstruct qs i (copyContents fault)) := by
  cases fault with
  | true =>
    have hout : (copyContents true : Crit (List α) Failure _).outcome (queueAt qs i) =
      ⟨queueAt qs i, .thrown .element, false⟩ := rfl
    simp only [copyConstruct, hout, set_queueAt_self]
    exact .thrown rfl (by simp [hop, Op.Waits, Op.Tries])
  | false =>
    have hout : (copyContents false : Crit (List α) Failure _).outcome (queueAt qs i) =
      ⟨queueAt qs i, .ret (queueAt qs i), false⟩ := rfl
    simp only [copyConstruct, hout, set_queueAt_self]
    exact .copied i hop rfl

theorem body_effect (c : Class) (op : Op α) (fault : Bool) (qs : List (List α)) :
    Effect op fault qs (body c op fault qs) := by
  cases op with
  | push i v => cases c <;> exact push_effect rfl fault qs
  | waitAndPopRef i => cases c <;> exact wait_effect (.inl rfl) fault qs
  | waitAndPopPtr i => cases c <;> exact wait_effect (.inr rfl) fault qs
  | tryPopRef i => cases c <;> exact try_effect (.inl rfl) fault qs
  | tryPopPtr i => cases c <;> exact try_effect (.inr rfl) fault qs
  | empty i => cases c <;> exact empty_effect rfl fault qs
  | copy i => cases c <;> exact copy_effect rfl fault qs

end

end LinuxPractice.Queue
