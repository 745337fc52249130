import LinuxPractice.Concurrency.Queue.Linearizable
import Mathlib.Tactic.FinCases

set_option linter.unusedSectionVars false

namespace LinuxPractice.Queue

open Monitor Fifo

section

variable {α τ : Type} [DecidableEq τ] [Fintype τ]

inductive Overload
  | ref
  | ptr
  deriving DecidableEq, Repr

/-- The body of a thread: a producer pushes its values in order, a consumer makes its
calls of wait_and_pop. -/
inductive Work (α : Type)
  | producer (values : List α)
  | consumer (calls : List Overload)

def waitAndPop : Overload → Op α
  | .ref => .waitAndPopRef 0
  | .ptr => .waitAndPopPtr 0

def Work.calls : Work α → List (Op α)
  | .producer values => values.map (.push 0)
  | .consumer calls => calls.map waitAndPop

def isPush : Op α → Bool
  | .push _ _ => true
  | _ => false

def isWait : Op α → Bool
  | .waitAndPopRef _ | .waitAndPopPtr _ => true
  | _ => false

def Work.pushCount : Work α → Nat
  | .producer values => values.length
  | .consumer _ => 0

def Work.popCount : Work α → Nat
  | .producer _ => 0
  | .consumer calls => calls.length

/-- N, the pushes of all producers. -/
def pushTotal (work : τ → Work α) : Nat := total Work.pushCount work

/-- D, the calls of all consumers. -/
def popTotal (work : τ → Work α) : Nat := total Work.popCount work

/-- A scheduling choice; no element operation fails. -/
inductive Turn (τ : Type)
  | next (t : τ)
  | acquire (t : τ)
  | exec (t : τ) (target : Option τ)
  | spurious (t : τ)
  deriving DecidableEq

/-- The client state is what every thread has left to call. -/
def offer (_ : QueueState α τ) (left : τ → List (Op α)) :
    Turn τ → Option (Option (QueueLabel α τ) × (τ → List (Op α)))
  | .next t =>
    match left t with
    | [] => none
    | op :: ops => some (some (.call t op), Function.update left t ops)
  | .acquire t => some (some (.acquire t), left)
  | .exec t target => some (some (.exec t false target), left)
  | .spurious t => some (some (.spurious t), left)

abbrev ClientState (α τ : Type) := QueueState α τ × (τ → List (Op α))

/-- All threads at work on one queue that starts empty. -/
def clients (c : Class) (work : τ → Work α) : Machine (ClientState α τ) (Turn τ) :=
  (machine c τ [[]]).drive (fun t => (work t).calls) offer

/-- The accesses to the queue in lock order. -/
def accesses (c : Class) (work : τ → Work α) (ks : List (Turn τ)) : List (Event τ α) :=
  (clients c work).log (Machine.driven (event c) offer) (clients c work).init ks

def Finished (s : ClientState α τ) (t : τ) : Prop := s.1.phase t = .idle ∧ s.2 t = []

/-- The call a thread is in, if any, and those it has left. -/
def todo (s : ClientState α τ) (t : τ) : List (Op α) := (s.1.phase t).op?.toList ++ s.2 t

/-- Nothing but pushes, or nothing but waits, and all on the one queue. -/
def Uniform (ops : List (Op α)) : Prop :=
  (∀ op ∈ ops, ∃ v, op = .push 0 v) ∨ (∀ op ∈ ops, op.Waits 0)

def pushesIn (ops : List (Op α)) : Nat := ops.countP isPush

def waitsIn (ops : List (Op α)) : Nat := ops.countP isWait

/-- Pushes made and left add up to all pushes, pops made and left to all pops. -/
structure Accounted (work : τ → Work α) (H : List (Event τ α)) (s : ClientState α τ) : Prop where
  uniform : ∀ t, Uniform (todo s t)
  pushed : (pushes 0 H).length + total pushesIn (todo s) = pushTotal work
  popped : (pops 0 H).length + total waitsIn (todo s) = popTotal work

theorem uniform_calls (w : Work α) : Uniform w.calls := by
  cases w with
  | producer values =>
    left
    intro op hop
    obtain ⟨v, -, rfl⟩ := List.mem_map.mp hop
    exact ⟨v, rfl⟩
  | consumer calls =>
    right
    intro op hop
    obtain ⟨o, -, rfl⟩ := List.mem_map.mp hop
    cases o
    · exact .inl rfl
    · exact .inr rfl

theorem calls_countP (w : Work α) :
    w.calls.countP isPush = w.pushCount ∧ w.calls.countP isWait = w.popCount := by
  cases w with
  | producer values =>
    have hp : (isPush ∘ (.push 0 : α → Op α)) = fun _ => true := rfl
    have hw : (isWait ∘ (.push 0 : α → Op α)) = fun _ => false := rfl
    simp [Work.calls, Work.pushCount, Work.popCount, List.countP_map, hp, hw]
  | consumer calls =>
    have hp : (isPush ∘ (waitAndPop : Overload → Op α)) = fun _ => false := by
      funext o
      cases o <;> rfl
    have hw : (isWait ∘ (waitAndPop : Overload → Op α)) = fun _ => true := by
      funext o
      cases o <;> rfl
    simp [Work.calls, Work.pushCount, Work.popCount, List.countP_map, hp, hw]

theorem Accounted.start (c : Class) (work : τ → Work α) :
    Accounted work [] (clients c work).init where
  uniform t := uniform_calls (work t)
  pushed := by
    have h : total pushesIn (todo (clients c work).init) =
        pushTotal work := Finset.sum_congr rfl (fun t _ => (calls_countP (work t)).1)
    simpa [pushes] using h
  popped := by
    have h : total waitsIn (todo (clients c work).init) =
        popTotal work := Finset.sum_congr rfl (fun t _ => (calls_countP (work t)).2)
    simpa [pops] using h

/-- A step that ends no call. -/
theorem Accounted.same {work : τ → Work α} {H : List (Event τ α)} {s s' : ClientState α τ}
    (ha : Accounted work H s) (h : ∀ t, todo s' t = todo s t) : Accounted work H s' := by
  have he : todo s' = todo s := funext h
  exact ⟨fun t => he ▸ ha.uniform t, he ▸ ha.pushed, he ▸ ha.popped⟩

/-- A step that ends the call of op by thread t with the access e. -/
theorem Accounted.ends {work : τ → Work α} {H : List (Event τ α)} {s s' : ClientState α τ}
    (ha : Accounted work H s) {t : τ} {op : Op α} {e : Event τ α}
    (ht : todo s t = op :: todo s' t) (hu : ∀ u, u ≠ t → todo s' u = todo s u)
    (hpush : (pushes 0 [e]).length = if isPush op then 1 else 0)
    (hpop : (pops 0 [e]).length = if isWait op then 1 else 0) :
    Accounted work (H ++ [e]) s' := by
  have hold := ha.uniform
  refine ⟨fun u => ?_, ?_, ?_⟩
  · by_cases hut : u = t
    · subst hut
      have h := hold u
      rw [ht] at h
      exact h.imp (fun h op' hop => h op' (List.mem_cons_of_mem _ hop))
        (fun h op' hop => h op' (List.mem_cons_of_mem _ hop))
    · rw [hu u hut]
      exact hold u
  · have hx := total_exchange pushesIn t (fun u hut => congrArg pushesIn (hu u hut))
    have hp := ha.pushed
    have hsplit : (pushes 0 (H ++ [e])).length = (pushes 0 H).length + (pushes 0 [e]).length := by
      simp [pushes, List.filterMap_append]
    simp only [ht, pushesIn, List.countP_cons] at hx
    rw [hsplit, hpush]
    omega
  · have hx := total_exchange waitsIn t (fun u hut => congrArg waitsIn (hu u hut))
    have hp := ha.popped
    have hsplit : (pops 0 (H ++ [e])).length = (pops 0 H).length + (pops 0 [e]).length := by
      simp [pops, List.filterMap_append]
    simp only [ht, waitsIn, List.countP_cons] at hx
    rw [hsplit, hpop]
    omega

/-- What a critical section of a producer or a consumer can do, and its access. -/
theorem client_effect (c : Class) (qs : List (List α)) (t : τ) {op : Op α}
    (hu : (∃ v, op = .push 0 v) ∨ op.Waits 0) :
    ((body c op false qs).exit = .wait ∧ op.Waits 0) ∨
    (∃ r e, (body c op false qs).exit = .ret r ∧ accessOf t op r = some e ∧
      (pushes 0 [e]).length = (if isPush op then 1 else 0) ∧
      (pops 0 [e]).length = (if isWait op then 1 else 0)) := by
  have he := body_effect c op false qs
  generalize body c op false qs = o at he ⊢
  cases he with
  | thrown hf _ => cases hf
  | waits i hop _ =>
    refine .inl ⟨rfl, ?_⟩
    rcases hu with ⟨v, rfl⟩ | hw
    · rcases hop with h | h <;> cases h
    · exact hw
  | pushed i v hop _ =>
    rcases hu with ⟨w, rfl⟩ | hw
    · obtain ⟨rfl, rfl⟩ := Op.push.inj hop
      exact .inr ⟨_, _, rfl, rfl, rfl, rfl⟩
    · rcases hw with rfl | rfl <;> cases hop
  | popped i v q hop _ _ =>
    rcases hu with ⟨w, rfl⟩ | hw
    · rcases hop with (h | h) | (h | h) <;> cases h
    · rcases hw with rfl | rfl
      · exact .inr ⟨_, _, rfl, rfl, rfl, rfl⟩
      · exact .inr ⟨_, _, rfl, rfl, rfl, rfl⟩
  | failed i hop _ =>
    rcases hu with ⟨w, rfl⟩ | hw
    · rcases hop with h | h <;> cases h
    · exact absurd hop hw.not_tries
  | looked i hop =>
    rcases hu with ⟨w, rfl⟩ | hw
    · cases hop
    · rcases hw with rfl | rfl <;> cases hop
  | copied i hop _ =>
    rcases hu with ⟨w, rfl⟩ | hw
    · cases hop
    · rcases hw with rfl | rfl <;> cases hop

theorem todo_goto {s : QueueState α τ} {left left' : τ → List (Op α)} {s' : QueueState α τ}
    {t : τ} {p : Phase (Op α)} (hs : s'.phase = Function.update s.phase t p)
    (ht : p.op?.toList ++ left' t = (s.phase t).op?.toList ++ left t)
    (hu : ∀ u, u ≠ t → left' u = left u) (u : τ) : todo (s', left') u = todo (s, left) u := by
  by_cases hut : u = t
  · subst hut
    simpa [todo, hs] using ht
  · simp [todo, hs, hut, hu u hut]

/-- The end of a critical section: the thread sleeps in its call, or the call is done. -/
theorem Accounted.exec {c : Class} {work : τ → Work α} {H : List (Event τ α)}
    {m m' : QueueState α τ} {left : τ → List (Op α)} {t : τ} {target : Option τ}
    (ha : Accounted work H (m, left))
    (hs : (monitor α c).step m (.exec t false target) = some m') :
    Accounted work (H ++ (event c m (.exec t false target)).toList) (m', left) := by
  obtain ⟨op, back, hp, -, ht, hsame⟩ := exec_cases hs
  have hop : (∃ v, op = .push 0 v) ∨ op.Waits 0 := by
    have hmem : op ∈ todo (m, left) t := by simp [todo, hp, Phase.op?]
    exact (ha.uniform t).imp (fun h => h op hmem) (fun h => h op hmem)
  have hother : ∀ u, u ≠ t → todo (m', left) u = todo (m, left) u := by
    intro u hu
    simp only [todo, hsame u hu]
  have hexec : event c m (.exec t false target) =
      accessed accessOf t op (body c op false m.shared).exit := event_exec _ _ hp _ _
  change m'.phase t = (body c op false m.shared).exit.phase op at ht
  rw [hexec]
  rcases client_effect c m.shared t hop with ⟨hx, -⟩ | ⟨r, e, hx, hr, hpu, hpo⟩
  · rw [hx] at ht ⊢
    simp only [accessed, Option.toList_none, List.append_nil]
    refine ha.same (fun u => ?_)
    by_cases hu : u = t
    · subst hu
      simp [todo, ht, hp, Exit.phase, Phase.op?]
    · exact hother u hu
  · rw [hx] at ht ⊢
    simp only [accessed, hr, Option.toList_some]
    refine ha.ends (t := t) ?_ hother hpu hpo
    simp [todo, ht, hp, Exit.phase, Phase.op?]

theorem Accounted.step {c : Class} {work : τ → Work α} {H : List (Event τ α)}
    {s s' : ClientState α τ} {k : Turn τ} (ha : Accounted work H s)
    (hs : (clients c work).step s k = some s') :
    Accounted work (H ++ (Machine.driven (event c) offer s k).toList) s' := by
  obtain ⟨m, left⟩ := s
  obtain ⟨m', left'⟩ := s'
  rcases Machine.drive_step.mp hs with ⟨ho, -⟩ | ⟨l, ho, hl⟩
  · cases k with
    | next t => simp only [offer] at ho; split at ho <;> simp at ho
    | _ => simp [offer] at ho
  · change (monitor α c).step m l = some m' at hl
    have hev : Machine.driven (event c) offer (m, left) k = event c m l := by
      simp [Machine.driven, ho]
    rw [hev]
    cases k with
    | next t =>
      simp only [offer] at ho
      split at ho
      · cases ho
      · rename_i op ops hleft
        obtain ⟨rfl, rfl⟩ : .call t op = l ∧ Function.update left t ops = left' := by
          simpa using ho
        cases move_of_step hl with
        | call _ _ hp _ =>
          simp only [event, Monitor.event, Option.toList_none, List.append_nil]
          refine ha.same (todo_goto rfl ?_ ?_)
          · simp [hp, hleft, Phase.op?]
          · intro u hu
            simp [hu]
    | acquire t =>
      obtain ⟨rfl, rfl⟩ : .acquire t = l ∧ left = left' := by simpa [offer] using ho
      simp only [event, Monitor.event, Option.toList_none, List.append_nil]
      refine ha.same (fun u => ?_)
      simp only [todo, acquire_op? hl u]
    | spurious t =>
      obtain ⟨rfl, rfl⟩ : .spurious t = l ∧ left = left' := by simpa [offer] using ho
      simp only [event, Monitor.event, Option.toList_none, List.append_nil]
      cases move_of_step hl with
      | spurious _ op hp =>
        exact ha.same (todo_goto rfl (by simp [hp, Phase.op?]) (fun _ _ => rfl))
    | exec t target =>
      obtain ⟨rfl, rfl⟩ : .exec t false target = l ∧ left = left' := by simpa [offer] using ho
      exact ha.exec hl

theorem offer_faultless (m : QueueState α τ) (left : τ → List (Op α)) (k : Turn τ)
    (l : QueueLabel α τ) (left' : τ → List (Op α))
    (h : offer m left k = some (some l, left')) : faultless m l = true := by
  cases k with
  | next t =>
    simp only [offer] at h
    split at h
    · cases h
    · cases h
      rfl
  | acquire t => cases h; rfl
  | exec t target => cases h; rfl
  | spurious t => cases h; rfl

/-- Everything known about the queue in a state the clients reach. -/
structure ClientInv (c : Class) (work : τ → Work α) (H : List (Event τ α))
    (s : ClientState α τ) : Prop where
  accounted : Accounted work H s
  exclusive : Exclusive (monitor α c) s.1
  calls : Calls (monitor α c) s.1
  matched : Matched (monitor α c) size s.1
  exists_queue : 0 < s.1.shared.length
  fifo : (pushes 0 H).map Prod.snd = (pops 0 H).map Prod.snd ++ queueAt s.1.shared 0

theorem client_inv (c : Class) (work : τ → Work α) {ks : List (Turn τ)} {s : ClientState α τ}
    (hr : (clients c work).run (clients c work).init ks = some s) :
    ClientInv c work (accesses c work ks) s := by
  have hacc : Accounted work (accesses c work ks) s := by
    refine (clients c work).run_induction (P := fun ks s => Accounted work (accesses c work ks) s)
      (Accounted.start c work) ?_ hr
    intro ks s k s' hu ha hs
    have hlog : accesses c work (ks ++ [k]) = accesses c work ks ++
        (Machine.driven (event c) offer s k).toList := (clients c work).log_snoc _ hu hs
    exact hlog ▸ ha.step hs
  obtain ⟨tr, htr, ho, hlog⟩ := Machine.drive_run (event c) offer_faultless hr
  obtain ⟨hlegal, hshared⟩ := run_simulates c [[]] htr
  have hhist : history c [[]] tr = accesses c work ks := hlog
  rw [hhist] at hlegal hshared
  have hlen : 0 < s.1.shared.length := by
    rw [hshared]
    exact length_replay_le [[]] _
  have hfifo := fifo_of_lt hlegal (i := 0) (by simp)
  rw [← hshared] at hfifo
  obtain ⟨hcalls, hmatched⟩ := matched_of_faultless htr ho
  exact ⟨hacc, exclusive_of_reachable ⟨tr, htr⟩, hcalls, hmatched, hlen, hfifo⟩

def Turn.isSpurious : Turn τ → Bool
  | .spurious _ => true
  | _ => false

/-- A thread that is neither finished nor asleep can move, or waits for one that can. -/
theorem turn_of_active {c : Class} {work : τ → Work α} {H : List (Event τ α)}
    {s : ClientState α τ} (hi : ClientInv c work H s) {t : τ} (hf : ¬Finished s t)
    (hs : ∀ op, s.1.phase t ≠ .sleeping op) :
    ∃ k s', k.isSpurious = false ∧ (clients c work).step s k = some s' := by
  by_cases hin : ∃ u op back, s.1.phase u = .inside op back
  · obtain ⟨u, op, back, hp⟩ := hin
    obtain ⟨target, m', hm⟩ := exec_enabled (monitor α c) hp false
    exact ⟨.exec u target, (m', s.2), rfl, Machine.drive_step.mpr (.inr ⟨_, rfl, hm⟩)⟩
  · have hfree : ∀ i, s.1.owner i = none := by
      intro i
      cases ho : s.1.owner i with
      | none => rfl
      | some u =>
        obtain ⟨op, back, hp, -⟩ := (hi.exclusive i u).mp ho
        exact absurd ⟨u, op, back, hp⟩ hin
    cases hp : s.1.phase t with
    | idle =>
      obtain ⟨op, ops, hleft⟩ := List.exists_cons_of_ne_nil (fun h => hf ⟨hp, h⟩)
      have hq : op.queue = 0 := by
        rcases hi.accounted.uniform t with h | h
        · obtain ⟨v, rfl⟩ := h op (by simp [todo, hleft])
          rfl
        · exact (h op (by simp [todo, hleft])).queue
      have hready : (monitor α c).ready s.1.shared op = true := by
        simpa [monitor, hq] using hi.exists_queue
      refine ⟨.next t, (s.1.goto t (.entering op), Function.update s.2 t ops), rfl,
        Machine.drive_step.mpr (.inr ⟨.call t op, by simp [offer, hleft], ?_⟩)⟩
      change (monitor α c).step s.1 (.call t op) = _
      simp [Monitor.step, hp, hready]
    | entering op =>
      obtain ⟨m', hm⟩ := (monitor α c).acquire_enabled (.inl hp) (hfree _)
      exact ⟨.acquire t, (m', s.2), rfl, Machine.drive_step.mpr (.inr ⟨_, rfl, hm⟩)⟩
    | woken op =>
      obtain ⟨m', hm⟩ := (monitor α c).acquire_enabled (.inr hp) (hfree _)
      exact ⟨.acquire t, (m', s.2), rfl, Machine.drive_step.mpr (.inr ⟨_, rfl, hm⟩)⟩
    | inside op back => exact absurd ⟨t, op, back, hp⟩ hin
    | sleeping op => exact absurd hp (hs op)

/-- A sleeping thread is a consumer: it has a pop left and no push. -/
theorem sleeping_todo {c : Class} {work : τ → Work α} {H : List (Event τ α)}
    {s : ClientState α τ} (hi : ClientInv c work H s) {t : τ} {op : Op α}
    (hp : s.1.phase t = .sleeping op) :
    op.queue = 0 ∧ pushesIn (todo s t) = 0 ∧ 0 < waitsIn (todo s t) := by
  have hmem : op ∈ todo s t := by simp [todo, hp, Phase.op?]
  obtain ⟨i, hw⟩ := waits_of_canWait (hi.calls.waiter t op (by rw [hp]; rfl))
  rcases hi.accounted.uniform t with h | h
  · obtain ⟨v, rfl⟩ := h op hmem
    rcases hw with hw | hw <;> cases hw
  · refine ⟨(h op hmem).queue, ?_, ?_⟩
    · apply List.countP_eq_zero.mpr
      intro op' hop'
      rcases h op' hop' with rfl | rfl <;> simp [isPush]
    · apply List.countP_pos_iff.mpr
      refine ⟨op, hmem, ?_⟩
      rcases hw with rfl | rfl <;> rfl

/-- With enough pushes for all pops the clients cannot all be finished or asleep
unless they are all finished. -/
theorem sleeper_impossible {c : Class} {work : τ → Work α} {H : List (Event τ α)}
    {s : ClientState α τ} (hi : ClientInv c work H s) (hD : popTotal work ≤ pushTotal work)
    (hall : ∀ t, Finished s t ∨ ∃ op, s.1.phase t = .sleeping op) {t : τ} {op : Op α}
    (hp : s.1.phase t = .sleeping op) : False := by
  obtain ⟨hq, -, hwait⟩ := sleeping_todo hi hp
  have hsleep : 0 < total ((monitor α c).asleep 0) s.1.phase :=
    total_pos.mpr ⟨t, by simp [hp, asleep, monitor, hq]⟩
  have hawake : total ((monitor α c).awake 0) s.1.phase = 0 := by
    apply total_eq_zero.mpr
    intro u
    rcases hall u with ⟨hu, -⟩ | ⟨op', hu⟩ <;> simp [hu, awake]
  have hempty : size 0 s.1.shared = 0 := by
    have hm := hi.matched 0 hsleep
    omega
  have hpushes : total pushesIn (todo s) = 0 := by
    apply total_eq_zero.mpr
    intro u
    rcases hall u with ⟨hu, hl⟩ | ⟨op', hu⟩
    · simp [todo, hu, hl, Phase.op?, pushesIn]
    · exact (sleeping_todo hi hu).2.1
  have hpops : 0 < total waitsIn (todo s) := total_pos.mpr ⟨t, hwait⟩
  have hlen := congrArg List.length hi.fifo
  simp only [List.length_append, List.length_map] at hlen
  have hsize : (queueAt s.1.shared 0).length = 0 := hempty
  have hpushed := hi.accounted.pushed
  have hpopped := hi.accounted.popped
  omega

/-- Enough pushes for all pops: somebody can always move until all are finished, and
then the first popTotal pushed elements were removed and the rest are queued. -/
theorem producers_consumers (c : Class) (work : τ → Work α)
    (hD : popTotal work ≤ pushTotal work) {ks : List (Turn τ)} {s : ClientState α τ}
    (hr : (clients c work).run (clients c work).init ks = some s) :
    ((∃ t, ¬Finished s t) →
      ∃ k s', k.isSpurious = false ∧ (clients c work).step s k = some s') ∧
    ((∀ t, Finished s t) →
      (pushes 0 (accesses c work ks)).length = pushTotal work ∧
      (pops 0 (accesses c work ks)).length = popTotal work ∧
      (pops 0 (accesses c work ks)).map Prod.snd =
        ((pushes 0 (accesses c work ks)).map Prod.snd).take (popTotal work) ∧
      queueAt s.1.shared 0 =
        ((pushes 0 (accesses c work ks)).map Prod.snd).drop (popTotal work) ∧
      (queueAt s.1.shared 0).length = pushTotal work - popTotal work) := by
  have hi := client_inv c work hr
  refine ⟨fun ⟨t, ht⟩ => ?_, fun hall => ?_⟩
  · by_cases hactive : ∃ u, ¬Finished s u ∧ ∀ op, s.1.phase u ≠ .sleeping op
    · obtain ⟨u, hu, hs⟩ := hactive
      exact turn_of_active hi hu hs
    · have hrest : ∀ u, Finished s u ∨ ∃ op, s.1.phase u = .sleeping op := by
        intro u
        by_contra hu
        simp only [not_or, not_exists] at hu
        exact hactive ⟨u, hu.1, hu.2⟩
      obtain ⟨op, hp⟩ := (hrest t).resolve_left ht
      exact (sleeper_impossible hi hD hrest hp).elim
  · have hnone : ∀ t, todo s t = [] := by
      intro t
      simp [todo, (hall t).1, (hall t).2, Phase.op?]
    have hpushed : (pushes 0 (accesses c work ks)).length = pushTotal work := by
      have h := hi.accounted.pushed
      rwa [total_eq_zero.mpr (fun t => by rw [hnone t]; rfl)] at h
    have hpopped : (pops 0 (accesses c work ks)).length = popTotal work := by
      have h := hi.accounted.popped
      rwa [total_eq_zero.mpr (fun t => by rw [hnone t]; rfl)] at h
    have hlen := congrArg List.length hi.fifo
    simp only [List.length_append, List.length_map] at hlen
    have hlength : ((pops 0 (accesses c work ks)).map Prod.snd).length = popTotal work := by
      rw [List.length_map, hpopped]
    refine ⟨hpushed, hpopped, ?_, ?_, by omega⟩
    · rw [hi.fifo, List.take_left' hlength]
    · rw [hi.fifo, List.drop_left' hlength]

end

/-- One producer with two values against one consumer with one call, which sleeps first. -/
def twoPushesOnePop : Fin 2 → Work Int
  | 0 => .producer [5, 6]
  | 1 => .consumer [.ptr]

def consumerFirst : List (Turn (Fin 2)) :=
  [.next 1, .acquire 1, .exec 1 none, .next 0, .acquire 0, .exec 0 (some 1), .next 0,
    .acquire 1, .exec 1 none, .acquire 0, .exec 0 none]

theorem producers_consumers_consumerFirst :
    popTotal twoPushesOnePop ≤ pushTotal twoPushesOnePop ∧
    ∃ s, (clients .threadsafe_queue twoPushesOnePop).run
        (clients .threadsafe_queue twoPushesOnePop).init consumerFirst = some s ∧
      (∀ t, Finished s t) ∧ queueAt s.1.shared 0 =
        ((pushes 0 (accesses .threadsafe_queue twoPushesOnePop consumerFirst)).map
          Prod.snd).drop (popTotal twoPushesOnePop) := by
  have hD : popTotal twoPushesOnePop ≤ pushTotal twoPushesOnePop := by decide
  have hs : ((clients .threadsafe_queue twoPushesOnePop).run
      (clients .threadsafe_queue twoPushesOnePop).init consumerFirst).isSome = true := by decide
  have hr := (Option.some_get hs).symm
  have hall : ∀ t, Finished (Option.get _ hs) t := fun t => by fin_cases t <;> exact ⟨rfl, rfl⟩
  exact ⟨hD, _, hr, hall, ((producers_consumers _ twoPushesOnePop hD hr).2 hall).2.2.2.1⟩

end LinuxPractice.Queue
