import LinuxPractice.Framework.Machine
import LinuxPractice.Math.Total

set_option linter.unusedSectionVars false

namespace LinuxPractice

namespace Monitor

/-- Why a critical section stops before its last statement. -/
inductive Stop (ε : Type)
  | wait
  | thrown (e : ε)

/-- Straight-line code under a held mutex: the guarded object, whether notify_one()
has been called, and an early stop. -/
abbrev Crit (σ ε α : Type) := ExceptT (Stop ε) (StateM (σ × Bool)) α

inductive Exit (ρ ε : Type)
  | ret (r : ρ)
  | thrown (e : ε)
  | wait
  deriving DecidableEq

/-- What a critical section leaves behind when it gives the mutex up. -/
structure Outcome (σ ρ ε : Type) where
  shared : σ
  exit : Exit ρ ε
  notified : Bool

namespace Crit

variable {σ ε α β : Type}

def object : Crit σ ε σ := fun s => (.ok s.1, s)

def assign (o : σ) : Crit σ ε Unit := fun s => (.ok (), (o, s.2))

def notifyOne : Crit σ ε Unit := fun s => (.ok (), (s.1, true))

def raise (e : ε) : Crit σ ε α := fun s => (.error (.thrown e), s)

/-- One test of the loop in condition_variable::wait(lk, pred). The caller leaves the
section when it fails and runs it again from here after waking up. -/
def waitUntil (pred : σ → Bool) : Crit σ ε Unit :=
  fun s => if pred s.1 then (.ok (), s) else (.error .wait, s)

def outcome (c : Crit σ ε α) (o : σ) : Outcome σ α ε :=
  match c (o, false) with
  | (.ok r, s) => ⟨s.1, .ret r, s.2⟩
  | (.error (.thrown e), s) => ⟨s.1, .thrown e, s.2⟩
  | (.error .wait, s) => ⟨s.1, .wait, s.2⟩

@[simp] theorem bind_run (c : Crit σ ε α) (k : α → Crit σ ε β) (s : σ × Bool) :
    (c >>= k) s = match c s with
      | (.ok a, s') => k a s'
      | (.error e, s') => (.error e, s') := by
  change (ExceptT.bindCont k (c s).1) (c s).2 = _
  cases c s with
  | mk r s' => cases r <;> rfl

@[simp] theorem pure_run (a : α) (s : σ × Bool) : (pure a : Crit σ ε α) s = (.ok a, s) := rfl

@[simp] theorem object_run (s : σ × Bool) : (object : Crit σ ε σ) s = (.ok s.1, s) := rfl

@[simp] theorem assign_run (o : σ) (s : σ × Bool) :
    (assign o : Crit σ ε Unit) s = (.ok (), (o, s.2)) := rfl

@[simp] theorem raise_run (e : ε) (s : σ × Bool) :
    (raise e : Crit σ ε α) s = (.error (.thrown e), s) := rfl

end Crit

/-- What a thread is doing: between calls, at the mutex of a call, in the critical
section (told apart by having come back from a wait or not), blocked un-notified
on the condition variable, or woken and on its way back to the mutex. -/
inductive Phase (ω : Type)
  | idle
  | entering (op : ω)
  | inside (op : ω) (back : Bool)
  | sleeping (op : ω)
  | woken (op : ω)
  deriving DecidableEq

structure State (ι σ ω τ : Type) where
  shared : σ
  owner : ι → Option τ
  phase : τ → Phase ω

/-- The scheduler's choices. exec runs a whole critical section, all of it guarded
by the mutex, with the environment's choice f and the thread notify_one() wakes. -/
inductive Label (ω φ τ : Type)
  | call (t : τ) (op : ω)
  | unwind (t : τ)
  | acquire (t : τ)
  | exec (t : τ) (f : φ) (target : Option τ)
  | spurious (t : τ)
  deriving DecidableEq

end Monitor

/-- Operations over a family of objects, each with a mutex and a condition variable.
lockOf names the object whose mutex an operation takes, ready says that it exists,
byValue that its argument is copied by the caller before the call is entered. -/
structure Monitor (ι σ ω φ ρ ε : Type) where
  lockOf : ω → ι
  ready : σ → ω → Bool
  byValue : ω → Bool
  body : ω → φ → σ → Monitor.Outcome σ ρ ε

namespace Monitor

variable {ι σ ω φ ρ ε τ : Type} [DecidableEq ι] [DecidableEq τ]

def Exit.phase (op : ω) : Exit ρ ε → Phase ω
  | .ret _ => .idle
  | .thrown _ => .idle
  | .wait => .sleeping op

def Phase.op? : Phase ω → Option ω
  | .idle => none
  | .entering op | .inside op _ | .sleeping op | .woken op => some op

/-- Blocked un-notified on object i. -/
def asleep (M : Monitor ι σ ω φ ρ ε) (i : ι) : Phase ω → Nat
  | .sleeping op => if M.lockOf op = i then 1 else 0
  | _ => 0

/-- Woken on object i, notified or spuriously, with the predicate not yet re-tested. -/
def awake (M : Monitor ι σ ω φ ρ ε) (i : ι) : Phase ω → Nat
  | .woken op | .inside op true => if M.lockOf op = i then 1 else 0
  | _ => 0

def State.goto (s : State ι σ ω τ) (t : τ) (p : Phase ω) : State ι σ ω τ :=
  { s with phase := Function.update s.phase t p }

def State.grab (M : Monitor ι σ ω φ ρ ε) (s : State ι σ ω τ) (t : τ) (op : ω) (back : Bool) :
    Option (State ι σ ω τ) :=
  match s.owner (M.lockOf op) with
  | some _ => none
  | none => some
    { s with
      owner := Function.update s.owner (M.lockOf op) (some t)
      phase := Function.update s.phase t (.inside op back) }

/-- notify_one() wakes one sleeper of the object; with no sleeper it is lost. -/
def notify [Fintype τ] (M : Monitor ι σ ω φ ρ ε) (i : ι) (phase : τ → Phase ω) :
    Bool → Option τ → Option (τ → Phase ω)
  | false, none => some phase
  | false, some _ => none
  | true, none => if total (M.asleep i) phase = 0 then some phase else none
  | true, some u =>
    match phase u with
    | .sleeping op => if M.lockOf op = i then some (Function.update phase u (.woken op)) else none
    | _ => none

def State.finish (M : Monitor ι σ ω φ ρ ε) (s : State ι σ ω τ) (t : τ) (op : ω)
    (o : Outcome σ ρ ε) (phase : τ → Phase ω) : State ι σ ω τ where
  shared := o.shared
  owner := Function.update s.owner (M.lockOf op) none
  phase := Function.update phase t (o.exit.phase op)

def step [Fintype τ] (M : Monitor ι σ ω φ ρ ε) (s : State ι σ ω τ) :
    Label ω φ τ → Option (State ι σ ω τ)
  | .call t op =>
    match s.phase t with
    | .idle => if M.ready s.shared op then some (s.goto t (.entering op)) else none
    | _ => none
  | .unwind t =>
    match s.phase t with
    | .entering op => if M.byValue op then some (s.goto t .idle) else none
    | _ => none
  | .acquire t =>
    match s.phase t with
    | .entering op => s.grab M t op false
    | .woken op => s.grab M t op true
    | _ => none
  | .exec t f target =>
    match s.phase t with
    | .inside op _ =>
      let o := M.body op f s.shared
      (M.notify (M.lockOf op) s.phase o.notified target).map (s.finish M t op o)
    | _ => none
  | .spurious t =>
    match s.phase t with
    | .sleeping op => some (s.goto t (.woken op))
    | _ => none

def start (o : σ) : State ι σ ω τ where
  shared := o
  owner _ := none
  phase _ := .idle

def machine [Fintype τ] (M : Monitor ι σ ω φ ρ ε) (o : σ) :
    Machine (State ι σ ω τ) (Label ω φ τ) := ⟨start o, M.step⟩

variable [Fintype τ]

/-- Everything a step can do, read as a relation. -/
inductive Move (M : Monitor ι σ ω φ ρ ε) (s : State ι σ ω τ) : Label ω φ τ → State ι σ ω τ → Prop
  | call (t : τ) (op : ω) (hp : s.phase t = .idle) (hr : M.ready s.shared op = true) :
      Move M s (.call t op) (s.goto t (.entering op))
  | unwind (t : τ) (op : ω) (hp : s.phase t = .entering op) (hb : M.byValue op = true) :
      Move M s (.unwind t) (s.goto t .idle)
  | enter (t : τ) (op : ω) (s' : State ι σ ω τ) (hp : s.phase t = .entering op)
      (hf : s.owner (M.lockOf op) = none) (hs : s.grab M t op false = some s') :
      Move M s (.acquire t) s'
  | resume (t : τ) (op : ω) (s' : State ι σ ω τ) (hp : s.phase t = .woken op)
      (hf : s.owner (M.lockOf op) = none) (hs : s.grab M t op true = some s') :
      Move M s (.acquire t) s'
  | exec (t : τ) (f : φ) (target : Option τ) (op : ω) (back : Bool) (phase : τ → Phase ω)
      (hp : s.phase t = .inside op back)
      (hn : M.notify (M.lockOf op) s.phase (M.body op f s.shared).notified target = some phase) :
      Move M s (.exec t f target) (s.finish M t op (M.body op f s.shared) phase)
  | spurious (t : τ) (op : ω) (hp : s.phase t = .sleeping op) :
      Move M s (.spurious t) (s.goto t (.woken op))

theorem grab_eq_some {M : Monitor ι σ ω φ ρ ε} {s s' : State ι σ ω τ} {t : τ} {op : ω}
    {back : Bool} : s.grab M t op back = some s' ↔ s.owner (M.lockOf op) = none ∧ s' =
      { s with
        owner := Function.update s.owner (M.lockOf op) (some t)
        phase := Function.update s.phase t (.inside op back) } := by
  unfold State.grab
  cases ho : s.owner (M.lockOf op) with
  | none => simp [eq_comm]
  | some u => simp

theorem move_of_step {M : Monitor ι σ ω φ ρ ε} {s s' : State ι σ ω τ} {l : Label ω φ τ}
    (h : M.step s l = some s') : Move M s l s' := by
  cases l with
  | call t op =>
    simp only [step] at h
    split at h
    · rename_i hp
      simp only [Option.ite_none_right_eq_some, Option.some.injEq] at h
      exact h.2 ▸ .call t op hp h.1
    · cases h
  | unwind t =>
    simp only [step] at h
    split at h
    · rename_i op hp
      simp only [Option.ite_none_right_eq_some, Option.some.injEq] at h
      exact h.2 ▸ .unwind t op hp h.1
    · cases h
  | acquire t =>
    simp only [step] at h
    split at h
    · rename_i op hp
      exact .enter t op s' hp (grab_eq_some.mp h).1 h
    · rename_i op hp
      exact .resume t op s' hp (grab_eq_some.mp h).1 h
    · cases h
  | exec t f target =>
    simp only [step] at h
    split at h
    · rename_i op back hp
      obtain ⟨phase, hn, rfl⟩ := Option.map_eq_some_iff.mp h
      exact .exec t f target op back phase hp hn
    · cases h
  | spurious t =>
    simp only [step] at h
    split at h
    · rename_i op hp
      cases h
      exact .spurious t op hp
    · cases h

/-- Either nobody is woken, because nothing was notified or nobody sleeps on the
object, or exactly one sleeper of the object is. -/
theorem notify_cases {M : Monitor ι σ ω φ ρ ε} {i : ι} {ph ph' : τ → Phase ω} {n : Bool}
    {target : Option τ} (h : M.notify i ph n target = some ph') :
    (ph' = ph ∧ (n = true → total (M.asleep i) ph = 0)) ∨
    (n = true ∧ ∃ u op, ph u = .sleeping op ∧ M.lockOf op = i ∧
      ph' = Function.update ph u (.woken op)) := by
  cases n with
  | false =>
    cases target with
    | none => exact .inl ⟨by simpa [notify, eq_comm] using h, by simp⟩
    | some u => simp [notify] at h
  | true =>
    cases target with
    | none =>
      simp only [notify, Option.ite_none_right_eq_some, Option.some.injEq] at h
      exact .inl ⟨h.2.symm, fun _ => h.1⟩
    | some u =>
      simp only [notify] at h
      split at h
      · rename_i op hp
        simp only [Option.ite_none_right_eq_some, Option.some.injEq] at h
        exact .inr ⟨rfl, u, op, hp, h.1, h.2.symm⟩
      · cases h

theorem notify_other {M : Monitor ι σ ω φ ρ ε} {i : ι} {ph ph' : τ → Phase ω} {n : Bool}
    {target : Option τ} (h : M.notify i ph n target = some ph') {t : τ} {op : ω} {back : Bool}
    (hp : ph t = .inside op back) : ph' t = .inside op back := by
  rcases notify_cases h with ⟨rfl, -⟩ | ⟨-, u, op', hu, -, rfl⟩
  · exact hp
  · have hne : t ≠ u := by
      rintro rfl
      simp [hp] at hu
    rw [Function.update_of_ne hne, hp]

theorem notify_op? {M : Monitor ι σ ω φ ρ ε} {i : ι} {ph ph' : τ → Phase ω} {n : Bool}
    {target : Option τ} (h : M.notify i ph n target = some ph') (u : τ) :
    (ph' u).op? = (ph u).op? := by
  rcases notify_cases h with ⟨rfl, -⟩ | ⟨-, v, op', hv, -, rfl⟩
  · rfl
  · by_cases huv : u = v
    · subst huv
      simp [hv, Phase.op?]
    · rw [Function.update_of_ne huv]

theorem acquire_op? {M : Monitor ι σ ω φ ρ ε} {s s' : State ι σ ω τ} {t : τ}
    (h : M.step s (.acquire t) = some s') (u : τ) : (s'.phase u).op? = (s.phase u).op? := by
  have hgrab : ∀ op back, s.grab M t op back = some s' → (s.phase t).op? = some op →
      (s'.phase u).op? = (s.phase u).op? := by
    intro op back hg hop
    obtain ⟨-, rfl⟩ := grab_eq_some.mp hg
    by_cases hut : u = t
    · subst hut
      rw [hop]
      simp [Phase.op?]
    · simp [hut]
  cases move_of_step h with
  | enter _ op _ hp _ hg => exact hgrab op false hg (by rw [hp]; rfl)
  | resume _ op _ hp _ hg => exact hgrab op true hg (by rw [hp]; rfl)

/-- A critical section moves its own thread; the others stay in their calls. -/
theorem exec_cases {M : Monitor ι σ ω φ ρ ε} {s s' : State ι σ ω τ} {t : τ} {f : φ}
    {target : Option τ} (h : M.step s (.exec t f target) = some s') :
    ∃ op back, s.phase t = .inside op back ∧ s'.shared = (M.body op f s.shared).shared ∧
      s'.phase t = (M.body op f s.shared).exit.phase op ∧
      ∀ u, u ≠ t → (s'.phase u).op? = (s.phase u).op? := by
  cases move_of_step h with
  | exec _ _ _ op back phase hp hn =>
    refine ⟨op, back, hp, rfl, by simp [State.finish], ?_⟩
    intro u hu
    simp [State.finish, hu, notify_op? hn]

/-- Every thread in a call is in the call its program is at. -/
def Current (next : τ → Option ω) (s : State ι σ ω τ) : Prop :=
  ∀ t op, (s.phase t).op? = some op → next t = some op

theorem Current.call {M : Monitor ι σ ω φ ρ ε} {next : τ → Option ω} {s s' : State ι σ ω τ}
    {t : τ} {op : ω} (hc : Current next s) (h : M.step s (.call t op) = some s')
    (hop : next t = some op) : Current next s' := by
  cases move_of_step h with
  | call _ _ _ _ =>
    intro u o hu
    by_cases hut : u = t
    · subst hut
      have ho : op = o := by simpa [State.goto, Phase.op?] using hu
      exact ho ▸ hop
    · exact hc u o (by simpa [State.goto, hut] using hu)

theorem Current.acquire {M : Monitor ι σ ω φ ρ ε} {next : τ → Option ω} {s s' : State ι σ ω τ}
    {t : τ} (hc : Current next s) (h : M.step s (.acquire t) = some s') : Current next s' := by
  intro u o hu
  exact hc u o (acquire_op? h u ▸ hu)

/-- A call that ends lets the program of its thread go on. -/
theorem Current.exec {M : Monitor ι σ ω φ ρ ε} {next next' : τ → Option ω}
    {s s' : State ι σ ω τ} {t : τ} {f : φ} {target : Option τ} {op : ω} {back : Bool}
    (hc : Current next s) (h : M.step s (.exec t f target) = some s')
    (hp : s.phase t = .inside op back) (hw : (M.body op f s.shared).exit ≠ .wait)
    (hother : ∀ u, u ≠ t → next' u = next u) : Current next' s' := by
  obtain ⟨op', back', hp', -, ht, hsame⟩ := exec_cases h
  obtain ⟨rfl, -⟩ := Phase.inside.inj (hp.symm.trans hp')
  intro u o hu
  by_cases hut : u = t
  · subst hut
    rw [ht] at hu
    cases hx : (M.body op f s.shared).exit with
    | wait => exact absurd hx hw
    | ret r =>
      rw [hx] at hu
      cases hu
    | thrown e =>
      rw [hx] at hu
      cases hu
  · rw [hother u hut]
    exact hc u o (hsame u hut ▸ hu)

/-- A thread outside of its calls may go on by itself. -/
theorem Current.aside {next next' : τ → Option ω} {s : State ι σ ω τ} {t : τ}
    (hc : Current next s) (hnone : next t = none) (hother : ∀ u, u ≠ t → next' u = next u) :
    Current next' s := by
  intro u o hu
  have hold := hc u o hu
  by_cases hut : u = t
  · subst hut
    rw [hnone] at hold
    cases hold
  · rwa [hother u hut]

theorem exists_sleeper {M : Monitor ι σ ω φ ρ ε} {i : ι} {phase : τ → Phase ω}
    (h : 0 < total (M.asleep i) phase) : ∃ t op, phase t = .sleeping op ∧ M.lockOf op = i := by
  obtain ⟨t, ht⟩ := total_pos.mp h
  cases hp : phase t with
  | sleeping op =>
    refine ⟨t, op, hp, ?_⟩
    by_contra hne
    simp [hp, asleep, hne] at ht
  | _ => simp [hp, asleep] at ht

/-- A critical section can always be left: some choice of a woken sleeper fits. -/
theorem exec_enabled (M : Monitor ι σ ω φ ρ ε) {s : State ι σ ω τ} {t : τ} {op : ω}
    {back : Bool} (hp : s.phase t = .inside op back) (f : φ) :
    ∃ target s', M.step s (.exec t f target) = some s' := by
  simp only [step, hp]
  cases hn : (M.body op f s.shared).notified with
  | false => exact ⟨none, _, rfl⟩
  | true =>
    by_cases hz : total (M.asleep (M.lockOf op)) s.phase = 0
    · exact ⟨none, _, by simp only [notify, hz, if_true]; rfl⟩
    · obtain ⟨u, op', hu, hl⟩ := exists_sleeper (Nat.pos_of_ne_zero hz)
      exact ⟨some u, _, by simp only [notify, hu, hl, if_true]; rfl⟩

theorem acquire_enabled (M : Monitor ι σ ω φ ρ ε) {s : State ι σ ω τ} {t : τ} {op : ω}
    (hp : s.phase t = .entering op ∨ s.phase t = .woken op) (hf : s.owner (M.lockOf op) = none) :
    ∃ s', M.step s (.acquire t) = some s' := by
  rcases hp with hp | hp
  · exact ⟨_, by simp only [step, hp]; exact grab_eq_some.mpr ⟨hf, rfl⟩⟩
  · exact ⟨_, by simp only [step, hp]; exact grab_eq_some.mpr ⟨hf, rfl⟩⟩

/-- The mutex of an object is owned by the thread in a critical section of it. -/
def Exclusive (M : Monitor ι σ ω φ ρ ε) (s : State ι σ ω τ) : Prop :=
  ∀ i t, s.owner i = some t ↔ ∃ op back, s.phase t = .inside op back ∧ M.lockOf op = i

/-- A step that keeps a thread outside of every critical section. -/
theorem Exclusive.goto {M : Monitor ι σ ω φ ρ ε} {s : State ι σ ω τ} (he : Exclusive M s)
    {t : τ} {p : Phase ω} (hout : ∀ op back, s.phase t ≠ .inside op back)
    (hin : ∀ op back, p ≠ .inside op back) : Exclusive M (s.goto t p) := by
  intro i u
  rw [show (s.goto t p).owner = s.owner from rfl, he i u]
  by_cases hu : u = t
  · subst hu
    simp [State.goto, hout, hin]
  · simp [State.goto, hu]

theorem Exclusive.grab {M : Monitor ι σ ω φ ρ ε} {s s' : State ι σ ω τ} (he : Exclusive M s)
    {t : τ} {op : ω} {back : Bool} (hout : ∀ op back, s.phase t ≠ .inside op back)
    (hs : s.grab M t op back = some s') : Exclusive M s' := by
  obtain ⟨hf, rfl⟩ := grab_eq_some.mp hs
  intro i u
  have hu := he i u
  by_cases hi : i = M.lockOf op <;> by_cases hut : u = t
  · subst hut
    simp [hi]
  · subst hi
    rw [hf] at hu
    simpa [hut, Ne.symm hut] using hu
  · subst hut
    simpa [hi, Ne.symm hi, hout] using hu
  · simpa [hi, hut] using hu

theorem Exclusive.step {M : Monitor ι σ ω φ ρ ε} {s s' : State ι σ ω τ} {l : Label ω φ τ}
    (he : Exclusive M s) (hs : M.step s l = some s') : Exclusive M s' := by
  cases move_of_step hs with
  | call t op hp _ => exact he.goto (by simp [hp]) (by simp)
  | unwind t op hp _ => exact he.goto (by simp [hp]) (by simp)
  | enter t op _ hp _ hg => exact he.grab (by simp [hp]) hg
  | resume t op _ hp _ hg => exact he.grab (by simp [hp]) hg
  | spurious t op hp => exact he.goto (by simp [hp]) (by simp)
  | exec t f target op back phase hp hn =>
    intro i u
    have hmine : s.owner (M.lockOf op) = some t := (he _ t).mpr ⟨op, back, hp, rfl⟩
    have hleft : ∀ op' b, (M.body op f s.shared).exit.phase op ≠ .inside op' b := by
      intro op' b
      cases (M.body op f s.shared).exit <;> simp [Exit.phase]
    -- a notified sleeper is outside before and after, so the others' sections are unchanged
    have same : ∀ op' b, phase u = .inside op' b ↔ s.phase u = .inside op' b := by
      intro op' b
      rcases notify_cases hn with ⟨rfl, -⟩ | ⟨-, v, opv, hv, -, rfl⟩
      · rfl
      · by_cases huv : u = v
        · subst huv
          simp [hv]
        · rw [Function.update_of_ne huv]
    by_cases hut : u = t
    · subst hut
      by_cases hi : i = M.lockOf op
      · simp [State.finish, hi, hleft]
      · have hno : ¬s.owner i = some u := by
          rw [he i u]
          rintro ⟨op', b, hp', hl⟩
          rw [hp, Phase.inside.injEq] at hp'
          exact hi (hp'.1 ▸ hl.symm)
        simp [State.finish, hi, hleft, hno]
    · by_cases hi : i = M.lockOf op
      · have hno : ¬s.owner (M.lockOf op) = some u := by
          rw [hmine]
          exact fun h => hut (Option.some.inj h).symm
        rw [he] at hno
        simpa [State.finish, hi, hut, same] using hno
      · simpa [State.finish, hi, hut, same] using he i u

theorem exclusive_of_reachable {M : Monitor ι σ ω φ ρ ε} {o : σ} {s : State ι σ ω τ}
    (hr : (M.machine o).Reachable s) : Exclusive M s :=
  hr.invariant (by simp [Exclusive, machine, start]) (fun _ _ _ he hs => he.step hs)

end Monitor

end LinuxPractice
