import LinuxPractice.Concurrency.Queue.Effect

set_option linter.unusedSectionVars false

namespace LinuxPractice.Queue

open Monitor Fifo

section

variable {α : Type}

/-- data_queue.size() of the i-th queue. -/
def size (i : Nat) (qs : List (List α)) : Nat := (queueAt qs i).length

theorem size_push_le (qs : List (List α)) (i : Nat) (v : α) :
    size i (qs.set i (queueAt qs i ++ [v])) ≤ size i qs + 1 := by
  by_cases hi : i < qs.length
  · simp [size, queueAt_set_self hi]
  · rw [List.set_eq_of_length_le (Nat.le_of_not_lt hi)]
    exact Nat.le_succ _

theorem size_pop {qs : List (List α)} {i : Nat} {v : α} {q : List α}
    (h : queueAt qs i = v :: q) : size i (qs.set i q) + 1 = size i qs := by
  rw [size, size, queueAt_set_self (lt_of_queueAt_cons h), h]
  rfl

theorem size_set_ne (qs : List (List α)) (q : List α) {i j : Nat} (h : j ≠ i) :
    size j (qs.set i q) = size j qs := by
  rw [size, queueAt_set_ne qs q h, size]

theorem size_copy (qs : List (List α)) {i : Nat} (j : Nat) (h : i < qs.length ∨ i = j) :
    size i (qs ++ [queueAt qs j]) = size i qs := by
  by_cases hi : i < qs.length
  · rw [size, queueAt_append_left hi, size]
  · have hj : i = j := h.resolve_left hi
    subst hj
    have hlen := Nat.le_of_not_lt hi
    rw [queueAt_of_length_le hlen, size, size, queueAt_of_length_le hlen]
    rcases Nat.lt_or_eq_of_le hlen with hlt | heq
    · rw [queueAt_of_length_le (by simp; omega)]
    · rw [← heq, queueAt_append_new]

theorem waits_of_canWait {c : Class} {op : Op α} (h : (monitor α c).CanWait op) :
    ∃ i, op.Waits i := by
  obtain ⟨f, qs, hx⟩ := h
  have he := body_effect c op f qs
  change (body c op f qs).exit = .wait at hx
  generalize body c op f qs = r at he hx
  cases he with
  | waits i hop _ => exact ⟨i, hop⟩
  | _ => simp at hx

theorem monitor_lasting (c : Class) : (monitor α c).Lasting := by
  intro op f qs op' h
  have he := body_effect c op f qs
  simp only [monitor, decide_eq_true_eq] at h ⊢
  generalize body c op f qs = r at he ⊢
  cases he <;> simp <;> omega

section

variable {op : Op α} {f : Bool} {qs : List (List α)}
  {r : Outcome (List (List α)) (Result α) Failure}

theorem Effect.size_wait (he : Effect op f qs r) (hx : r.exit = .wait) :
    size op.queue r.shared = 0 := by
  cases he with
  | waits i hop h => simp [size, hop.queue, h]
  | _ => simp at hx

/-- A waiting member function that returns has taken an element. -/
theorem Effect.size_take (he : Effect op f qs r) {j : Nat} (hj : op.Waits j) {v : Result α}
    (hx : r.exit = .ret v) : size op.queue r.shared + 1 ≤ size op.queue qs := by
  cases he with
  | popped i v q hop h _ =>
    have hi : op.queue = i := queue_of_takes hop
    rw [hi, size_pop h]
  | pushed i v hop _ => rcases hj with rfl | rfl <;> cases hop
  | failed i hop _ => exact absurd hop hj.not_tries
  | looked i hop => rcases hj with rfl | rfl <;> cases hop
  | copied i hop _ => rcases hj with rfl | rfl <;> cases hop
  | _ => simp at hx

/-- Only push adds an element, and it notifies. -/
theorem Effect.size_quiet (he : Effect op f qs r) (hn : r.notified = false) :
    size op.queue r.shared ≤ size op.queue qs := by
  cases he with
  | pushed i v _ _ => simp at hn
  | popped i v q hop h _ =>
    have hi : op.queue = i := queue_of_takes hop
    have hs := size_pop h
    simp only [hi]
    omega
  | copied i hop _ =>
    subst hop
    exact (size_copy qs i (.inr rfl)).le
  | _ => exact le_refl _

theorem Effect.quiet_of_thrown (he : Effect op f qs r) {e : Failure} (hx : r.exit = .thrown e) :
    r.notified = false := by
  cases he with
  | pushed i v hop _ => simp at hx
  | _ => rfl

theorem Effect.size_loud (he : Effect op f qs r) :
    size op.queue r.shared ≤ size op.queue qs + 1 := by
  cases hn : r.notified with
  | false => exact (he.size_quiet hn).trans (Nat.le_succ _)
  | true =>
    cases he with
    | pushed i v hop _ =>
      subst hop
      exact size_push_le qs i v
    | _ => simp at hn

theorem Effect.size_other (he : Effect op f qs r) {j : Nat} (hne : j ≠ op.queue)
    (hlt : j < qs.length) : size j r.shared ≤ size j qs := by
  cases he with
  | pushed i v hop _ =>
    subst hop
    exact (size_set_ne qs _ hne).le
  | popped i v q hop h _ =>
    have hi : op.queue = i := queue_of_takes hop
    exact (size_set_ne qs q (hi ▸ hne)).le
  | copied i _ _ => exact (size_copy qs i (.inl hlt)).le
  | _ => exact le_refl _

end

/-- Waiting member functions take elements and push adds one and notifies. -/
theorem monitor_supply (c : Class) : (monitor α c).Supply size where
  wait op f qs hx := (body_effect c op f qs).size_wait hx
  take op f qs r hw hx := by
    obtain ⟨j, hj⟩ := waits_of_canWait hw
    exact (body_effect c op f qs).size_take hj hx
  thrown op f qs e hx := by
    have he := body_effect c op f qs
    exact he.size_quiet (he.quiet_of_thrown hx)
  quiet op f qs hn := (body_effect c op f qs).size_quiet hn
  loud op f qs := (body_effect c op f qs).size_loud
  other op f qs op' hne hr :=
    (body_effect c op f qs).size_other hne (by simpa [monitor] using hr)

variable {τ : Type} [DecidableEq τ] [Fintype τ]

/-- Blocked un-notified in a wait_and_pop of the i-th queue. -/
def sleepsOn (i : Nat) : Phase (Op α) → Bool
  | .sleeping op => op.queue = i
  | _ => false

/-- Woken in a wait_and_pop of the i-th queue, the predicate not yet re-tested. -/
def wokenOn (i : Nat) : Phase (Op α) → Bool
  | .woken op | .inside op true => op.queue = i
  | _ => false

def wokenCount (s : QueueState α τ) (i : Nat) : Nat :=
  (Finset.univ.filter fun t => wokenOn i (s.phase t) = true).card

/-- No element copy, assignment or allocation fails. -/
def faultless (_ : QueueState α τ) : QueueLabel α τ → Bool
  | .exec _ fault _ => !fault
  | .unwind _ => false
  | _ => true

theorem total_awake (c : Class) (s : QueueState α τ) (i : Nat) :
    total ((monitor α c).awake i) s.phase = wokenCount s i := by
  rw [wokenCount, Finset.card_filter]
  apply Finset.sum_congr rfl
  intro t _
  cases s.phase t with
  | woken op => by_cases h : op.queue = i <;> simp [awake, wokenOn, monitor, h]
  | inside op back =>
    by_cases h : op.queue = i <;> cases back <;> simp [awake, wokenOn, monitor, h]
  | _ => simp [awake, wokenOn]

theorem total_asleep_pos {c : Class} {s : QueueState α τ} {i : Nat}
    (h : ∃ t, sleepsOn i (s.phase t) = true) : 0 < total ((monitor α c).asleep i) s.phase := by
  obtain ⟨t, ht⟩ := h
  apply total_pos.mpr
  refine ⟨t, ?_⟩
  cases hp : s.phase t with
  | sleeping op =>
    have hq : op.queue = i := by simpa [hp, sleepsOn] using ht
    simp [asleep, monitor, hq]
  | _ => simp [hp, sleepsOn] at ht

theorem harmless_of_faultless (c : Class) {s : QueueState α τ} {l : QueueLabel α τ}
    (h : faultless s l = true) : (monitor α c).harmless size s l = true := by
  cases l with
  | exec t fault target =>
    have hf : fault = false := by simpa [faultless] using h
    subst hf
    simp only [harmless]
    split
    · rename_i op hp
      have he := body_effect c op false s.shared
      change Effect op false s.shared ((monitor α c).body op false s.shared) at he
      generalize (monitor α c).body op false s.shared = r at he ⊢
      cases he with
      | thrown hf _ => cases hf
      | _ => rfl
    · rfl
  | _ => rfl

theorem matched_of_faultless {c : Class} {qs : List (List α)} {tr : List (QueueLabel α τ)}
    {s : QueueState α τ} (hr : (machine c τ qs).run (start qs) tr = some s)
    (ho : (machine c τ qs).Obeys faultless (start qs) tr) :
    Calls (monitor α c) s ∧ Matched (monitor α c) size s :=
  matched_of_obeys (monitor_lasting c) (monitor_supply c) hr
    (fun pre l u hp hu => harmless_of_faultless c (ho pre l u hp hu))

theorem Matched.sleeper {c : Class} {s : QueueState α τ} (hm : Matched (monitor α c) size s)
    {i : Nat} (hw : ∃ t, sleepsOn i (s.phase t) = true) :
    (queueAt s.shared i).length ≤ wokenCount s i ∧
      (queueAt s.shared i ≠ [] → ∃ t, wokenOn i (s.phase t) = true) := by
  have hle := hm i (total_asleep_pos hw)
  rw [total_awake] at hle
  refine ⟨hle, fun hne => ?_⟩
  have hpos : 0 < wokenCount s i := (List.length_pos_of_ne_nil hne).trans_le hle
  obtain ⟨t, ht⟩ := Finset.card_pos.mp hpos
  exact ⟨t, (Finset.mem_filter.mp ht).2⟩

/-- While a consumer sleeps, every queued element has a woken consumer on its way. -/
theorem no_lost_wakeup (c : Class) (qs : List (List α)) {s : QueueState α τ}
    (hr : ((machine c τ qs).restrict faultless).Reachable s) (i : Nat)
    (hw : ∃ t, sleepsOn i (s.phase t) = true) :
    (queueAt s.shared i).length ≤ wokenCount s i ∧
      (queueAt s.shared i ≠ [] → ∃ t, wokenOn i (s.phase t) = true) := by
  obtain ⟨tr, hr⟩ := hr
  obtain ⟨hr, ho⟩ := Machine.restrict_run.mp hr
  exact Matched.sleeper (matched_of_faultless hr ho).2 hw

end

/-- Two consumers go to sleep on one queue; a push then wakes the first of them. -/
def sleepThenPush : List (QueueLabel Int (Fin 3)) :=
  [.call 0 (.waitAndPopPtr 0), .acquire 0, .exec 0 false none,
    .call 1 (.waitAndPopRef 0), .acquire 1, .exec 1 false none,
    .call 2 (.push 0 7), .acquire 2, .exec 2 false (some 0)]

theorem no_lost_wakeup_sleepThenPush :
    ∃ s, ((machine .threadsafe_queue (Fin 3) [[]]).restrict faultless).Reachable s ∧
      queueAt s.shared 0 = [(7 : Int)] ∧ (queueAt s.shared 0).length ≤ wokenCount s 0 ∧
      (queueAt s.shared 0 ≠ [] → ∃ t, wokenOn 0 (s.phase t) = true) := by
  have hs : (((machine .threadsafe_queue (Fin 3) [[]]).restrict faultless).run (start [[]])
      sleepThenPush).isSome = true := by decide
  have hr := Machine.Reachable.of_isSome
    ((machine .threadsafe_queue (Fin 3) [[]]).restrict faultless) _ hs
  exact ⟨_, hr, rfl, no_lost_wakeup .threadsafe_queue [[]] hr 0 ⟨1, rfl⟩⟩

end LinuxPractice.Queue
