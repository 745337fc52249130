import LinuxPractice.Framework.Descriptors
import LinuxPractice.Framework.Machine

namespace LinuxPractice.ForkingServer

open Descriptors

/-- Where the accept loop of the parent stands; terminated is after err_sys. -/
inductive ParentPc
  | accept
  | fork
  | close
  | terminated
  deriving DecidableEq, Repr

/-- A child before Close(listenfd), inside my_str_echo, or after exit(0). -/
inductive ChildPc
  | closing
  | serving
  | exited
  deriving DecidableEq, Repr

/-- What fork has copied and where the child stands. -/
structure Child where
  table : Table Object
  connfd : Nat
  pc : ChildPc

/-- The parent's descriptors and variables, and the children in the order of their
connections. -/
structure State where
  table : Table Object
  pc : ParentPc
  listenfd : Nat
  connfd : Nat
  accepted : Nat
  children : List Child

inductive Label
  | parent
  | forkFails
  | child (i : Nat)
  deriving DecidableEq

/-- The parent accepts, forks, and closes descriptor 0. -/
def parentStep (s : State) : Option State :=
  match s.pc with
  | .accept => some
    { s with
      table := install (.connection s.accepted) s.table
      connfd := lowestUnused s.table
      accepted := s.accepted + 1
      pc := .fork }
  | .fork => some { s with children := s.children ++ [⟨s.table, s.connfd, .closing⟩], pc := .close }
  | .close =>
    if (object s.table 0).isSome then some { s with table := close s.table 0, pc := .accept }
    else some { s with pc := .terminated }
  | .terminated => none

/-- A child closes listenfd, serves its connection until my_str_echo returns or err_sys
ends it, and its exit closes everything. -/
def childStep (listenfd : Nat) (c : Child) : Option Child :=
  match c.pc with
  | .closing =>
    if (object c.table listenfd).isSome then
      some { c with table := close c.table listenfd, pc := .serving }
    else some { c with table := [], pc := .exited }
  | .serving => some { c with table := [], pc := .exited }
  | .exited => none

def step (s : State) : Label → Option State
  | .parent => parentStep s
  | .forkFails => if s.pc = .fork then some { s with pc := .terminated } else none
  | .child i => (s.children[i]?).bind fun c => (childStep s.listenfd c).map fun c' =>
    { s with children := s.children.set i c' }

/-- The parent before its loop. -/
def start (isOpen : List Bool) : State where
  table := listening isOpen
  pc := .accept
  listenfd := lowestUnused (isOpen.map fun b => if b then some Object.inherited else none)
  connfd := 0
  accepted := 0
  children := []

def machine (isOpen : List Bool) : Machine State Label := ⟨start isOpen, step⟩

/-- Some process has the i-th connection open, so its client sees no end of file. -/
def Open (s : State) (i : Nat) : Prop :=
  (∃ fd, object s.table fd = some (.connection i)) ∨
    ∃ c ∈ s.children, ∃ fd, object c.table fd = some (.connection i)

/-- At the top of the loop the parent has the descriptors it began with, and a connection
whose child has exited is gone. -/
def Clean (isOpen : List Bool) (s : State) : Prop :=
  s.pc = .accept → (∀ fd, object s.table fd = object (listening isOpen) fd) ∧
    ∀ i c, s.children[i]? = some c → c.pc = .exited → ¬Open s i

/-- The parent does not get to the end of an iteration. -/
def unfinished (s : State) : Label → Bool
  | .parent => s.pc ≠ .close
  | _ => true

/-- Descriptors 0, 1 and 2 are open at start. -/
def StandardOpen (isOpen : List Bool) : Prop := [true, true, true] <+: isOpen

theorem object_listening_zero {isOpen : List Bool} (h : StandardOpen isOpen) :
    object (listening isOpen) 0 = some .inherited := by
  obtain ⟨rest, rfl⟩ := h
  rfl

/-- Descriptor 0 is always open when the parent closes it. -/
theorem zero_open {isOpen : List Bool} {s : State} (hr : (machine isOpen).Reachable s)
    (hp : s.pc = .fork ∨ s.pc = .close) : ∃ y, object s.table 0 = some y := by
  refine hr.invariant (P := fun s => s.pc = .fork ∨ s.pc = .close → ∃ y, object s.table 0 = some y)
    ?_ ?_ hp
  · intro hp
    rcases hp with hp | hp <;> cases hp
  · intro s l s' ih hs hp
    cases l with
    | parent =>
      simp only [machine, step, parentStep] at hs
      split at hs
      · cases hs
        exact object_zero_install _ _
      · rename_i hpc
        cases hs
        exact ih (.inl hpc)
      · split at hs <;> cases hs <;> rcases hp with hp | hp <;> cases hp
      · cases hs
    | forkFails =>
      simp only [machine, step, Option.ite_none_right_eq_some, Option.some.injEq] at hs
      obtain ⟨-, rfl⟩ := hs
      rcases hp with hp | hp <;> cases hp
    | child i =>
      simp only [machine, step, Option.bind_eq_some_iff, Option.map_eq_some_iff] at hs
      obtain ⟨c, -, c', -, rfl⟩ := hs
      exact ih hp

/-- Before the end of the first iteration the top of the loop is where it began. -/
theorem start_of_unfinished {isOpen : List Bool} {tr : List Label} {s : State}
    (hr : (machine isOpen).run (start isOpen) tr = some s)
    (ho : (machine isOpen).Obeys unfinished (start isOpen) tr) (hp : s.pc = .accept) :
    s = start isOpen := by
  refine ho.invariant (P := fun s => s.pc = .accept → s = start isOpen) (fun _ => rfl) ?_ hr hp
  intro s l s' ih hok hs hp
  cases l with
  | parent =>
    simp only [machine, step, parentStep] at hs
    split at hs
    · cases hs
      cases hp
    · cases hs
      cases hp
    · rename_i hpc
      simp [unfinished, hpc] at hok
    · cases hs
  | forkFails =>
    simp only [machine, step, Option.ite_none_right_eq_some, Option.some.injEq] at hs
    obtain ⟨-, rfl⟩ := hs
    cases hp
  | child i =>
    simp only [machine, step, Option.bind_eq_some_iff, Option.map_eq_some_iff] at hs
    obtain ⟨c, hc, c', -, rfl⟩ := hs
    rw [ih hp] at hc
    cases hc

/-- The end of an iteration leaves descriptor 0 closed. -/
theorem not_clean_of_close {isOpen : List Bool} (hstd : StandardOpen isOpen) {s s' : State}
    (hr : (machine isOpen).Reachable s) (hp : s.pc = .close) (hs : step s .parent = some s') :
    ¬Clean isOpen s' := by
  obtain ⟨y, hy⟩ := zero_open hr (.inr hp)
  simp only [step, parentStep, hp, hy, Option.isSome_some, if_true, Option.some.injEq] at hs
  subst hs
  intro hc
  have h := (hc rfl).1 0
  rw [object_listening_zero hstd] at h
  simp only [object_close_self] at h
  cases h

/-- In every run the parent is clean at the top of its loop exactly as long as it has not
finished an iteration. -/
theorem clean_iff_unfinished {isOpen : List Bool} (hstd : StandardOpen isOpen) {tr : List Label}
    {s : State} (hr : (machine isOpen).run (start isOpen) tr = some s) :
    (machine isOpen).Always (Clean isOpen) (start isOpen) tr ↔
      (machine isOpen).Obeys unfinished (start isOpen) tr := by
  constructor
  · intro ha
    refine (machine isOpen).run_induction (P := fun tr _ =>
      (machine isOpen).Always (Clean isOpen) (start isOpen) tr →
        (machine isOpen).Obeys unfinished (start isOpen) tr) ?_ ?_ hr ha
    · intro _ pre l u hp
      simp at hp
    · intro tr u l v hu ih hs ha
      have ho := ih (ha.initial (List.prefix_append _ _))
      refine (Machine.obeys_snoc hu).mpr ⟨ho, ?_⟩
      have hclean := ha _ v (List.prefix_refl _) ((machine isOpen).run_snoc_of hu hs)
      by_contra hbad
      cases l with
      | parent =>
        have hp : u.pc = .close := by simpa [unfinished] using hbad
        exact not_clean_of_close hstd ⟨tr, hu⟩ hp hs hclean
      | forkFails => exact hbad rfl
      | child i => exact hbad rfl
  · intro ho pre u hpre hu hp
    have he := start_of_unfinished hu (ho.initial hpre) hp
    subst he
    refine ⟨fun _ => rfl, fun i c hc => ?_⟩
    cases hc

/-- The parent's descriptors after its first accept. -/
def kept (isOpen : List Bool) : Table Object := install (.connection 0) (listening isOpen)

/-- Descriptor 0 is the only one that ever changes after the first accept. -/
structure Leaking (isOpen : List Bool) (s : State) : Prop where
  first : s.accepted = 0 → s.pc = .accept ∧ s.table = listening isOpen
  others : 0 < s.accepted → ∀ fd, fd ≠ 0 → object s.table fd = object (kept isOpen) fd
  top : 0 < s.accepted → s.pc = .accept → object s.table 0 = none

theorem Leaking.step {isOpen : List Bool} {s s' : State} {l : Label} (hk : Leaking isOpen s)
    (hs : step s l = some s') : Leaking isOpen s' := by
  cases l with
  | parent =>
    simp only [ForkingServer.step, parentStep] at hs
    split at hs
    · rename_i hp
      cases hs
      refine ⟨fun h => absurd h (Nat.succ_ne_zero _), fun _ fd hfd => ?_, fun _ h => by cases h⟩
      cases Nat.eq_zero_or_pos s.accepted with
      | inl hz => simp only [hz, (hk.first hz).2, kept]
      | inr hpos =>
        have hlow := lowestUnused_eq_zero (hk.top hpos hp)
        simp only
        rw [object_install_ne _ _ (hlow ▸ hfd)]
        exact hk.others hpos fd hfd
    · rename_i hp
      cases hs
      refine ⟨fun h => ?_, hk.others, fun _ h => by cases h⟩
      rw [(hk.first h).1] at hp
      cases hp
    · rename_i hp
      have hpos : 0 < s.accepted := by
        by_contra hz
        rw [(hk.first (by omega)).1] at hp
        cases hp
      split at hs
      · cases hs
        refine ⟨fun h => absurd h (by simp only; omega), fun _ fd hfd => ?_, fun _ _ => ?_⟩
        · simp only
          rw [object_close_ne _ hfd]
          exact hk.others hpos fd hfd
        · exact object_close_self _ _
      · cases hs
        exact ⟨fun h => absurd h (by simp only; omega), hk.others, fun _ h => by cases h⟩
    · cases hs
  | forkFails =>
    simp only [ForkingServer.step, Option.ite_none_right_eq_some, Option.some.injEq] at hs
    obtain ⟨hp, rfl⟩ := hs
    refine ⟨fun h => ?_, hk.others, fun _ h => by cases h⟩
    rw [(hk.first h).1] at hp
    cases hp
  | child i =>
    simp only [ForkingServer.step, Option.bind_eq_some_iff, Option.map_eq_some_iff] at hs
    obtain ⟨c, -, c', -, rfl⟩ := hs
    exact ⟨hk.first, hk.others, hk.top⟩

/-- The first connection stays open in the parent for good, whatever its child does, while
every later one is gone from the parent at the top of the loop. -/
theorem first_connection_kept {isOpen : List Bool} (hstd : StandardOpen isOpen) {s : State}
    (hr : (machine isOpen).Reachable s) (hpos : 0 < s.accepted) :
    Open s 0 ∧ (s.pc = .accept → ∀ fd i, object s.table fd = some (.connection i) → i = 0) := by
  have hk : Leaking isOpen s := by
    refine hr.invariant (P := Leaking isOpen) ⟨fun _ => ⟨rfl, rfl⟩, ?_, ?_⟩
      (fun s l s' hk hs => hk.step hs)
    · intro h
      cases h
    · intro h
      cases h
  have hne : lowestUnused (listening isOpen) ≠ 0 := by
    intro he
    have h := object_lowestUnused (listening isOpen)
    rw [he, object_listening_zero hstd] at h
    cases h
  refine ⟨.inl ⟨_, (hk.others hpos _ hne).trans (object_install_self _ _)⟩, ?_⟩
  intro hp fd i hfd
  by_cases h0 : fd = 0
  · rw [h0, hk.top hpos hp] at hfd
    cases hfd
  · rw [hk.others hpos fd h0, kept] at hfd
    by_cases hlow : fd = lowestUnused (listening isOpen)
    · rw [hlow, object_install_self] at hfd
      cases hfd
      rfl
    · rw [object_install_ne _ _ hlow] at hfd
      exact absurd hfd (object_listening_ne isOpen fd i)

def stdOpen : List Bool := [true, true, true]

/-- A client connects and its child serves it before the parent goes on. -/
theorem clean_iff_unfinished_firstFork :
    ∃ s, (machine stdOpen).run (start stdOpen) [.parent, .parent, .child 0] = some s ∧
      ((machine stdOpen).Always (Clean stdOpen) (start stdOpen) [.parent, .parent, .child 0] ↔
        (machine stdOpen).Obeys unfinished (start stdOpen) [.parent, .parent, .child 0]) := by
  have hs : ((machine stdOpen).run (start stdOpen)
      [.parent, .parent, .child 0]).isSome = true := by decide
  have hr := (Option.some_get hs).symm
  exact ⟨_, hr, clean_iff_unfinished (List.prefix_refl _) hr⟩

/-- One client comes and goes. -/
def oneClient : List Label := [.parent, .parent, .child 0, .parent, .child 0]

/-- The child has exited, the parent is back at Accept with descriptor 0 closed and the
connection open as descriptor 4. -/
theorem not_clean_oneClient :
    ¬∀ s, (machine stdOpen).Reachable s → Clean stdOpen s := by
  intro hall
  have hs : ((machine stdOpen).run (start stdOpen) oneClient).isSome = true := by decide
  have hc := hall _ (Machine.Reachable.of_isSome (machine stdOpen) oneClient hs) rfl
  have hzero : none = some Object.inherited := hc.1 0
  cases hzero

end LinuxPractice.ForkingServer
