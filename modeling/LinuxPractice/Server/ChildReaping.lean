import Mathlib.Data.List.Perm.Basic
import LinuxPractice.Framework.Machine

namespace LinuxPractice.ChildReaping

/-- The two handlers: sigchldwait.c calls wait once, sigchldwaitpid.c calls waitpid with
WNOHANG until it returns no child. -/
inductive Version
  | wait
  | waitpid
  deriving DecidableEq

/-- The parent is in its accept loop, in the handler at its call, or behind the printf that
follows the only call of the first version. SIGCHLD is blocked inside the handler. -/
inductive Handler
  | outside
  | calling
  | returning
  deriving DecidableEq

/-- Children are named by the order in which they are forked. What is printed has none for
the -1 of a failing wait. At most one SIGCHLD is pending. -/
structure State where
  forked : Nat
  running : List Nat
  zombies : List Nat
  pending : Bool
  handler : Handler
  printed : List (Option Nat)

inductive Label
  | fork
  | exit (c : Nat)
  | deliver
  | reap (c : Nat)
  | empty
  | leave
  deriving DecidableEq

/-- Where a handler goes after it has reaped a child. -/
def Version.reaped : Version → Handler
  | .wait => .returning
  | .waitpid => .calling

def step (version : Version) (s : State) : Label → Option State
  | .fork =>
    if s.handler = .outside then
      some { s with forked := s.forked + 1, running := s.running ++ [s.forked] }
    else none
  | .exit c =>
    if c ∈ s.running then
      some { s with running := s.running.erase c, zombies := s.zombies ++ [c], pending := true }
    else none
  | .deliver =>
    if s.pending = true ∧ s.handler = .outside then
      some { s with pending := false, handler := .calling }
    else none
  | .reap c =>
    if s.handler = .calling ∧ c ∈ s.zombies then
      some { s with
        zombies := s.zombies.erase c, printed := s.printed ++ [some c], handler := version.reaped }
    else none
  | .empty =>
    if s.handler = .calling ∧ s.zombies = [] then
      match version with
      | .waitpid => some { s with handler := .outside }
      -- wait blocks while there are children, and fails without
      | .wait =>
        if s.running = [] then some { s with printed := s.printed ++ [none], handler := .returning }
        else none
    else none
  | .leave => if s.handler = .returning then some { s with handler := .outside } else none

def State.start : State := ⟨0, [], [], false, .outside, []⟩

/-- A server that forks a child for every connection, with one of the handlers. -/
def server (version : Version) : Machine State Label := ⟨.start, step version⟩

/-- No signal is on its way and the parent is in its loop. -/
def State.Quiet (s : State) : Prop := s.pending = false ∧ s.handler = .outside

/-- Where the children are: every child that has ended is printed or a zombie. -/
def State.children (s : State) : List (Option Nat) :=
  s.printed ++ s.zombies.map some ++ s.running.map some

/-- Every child is in one place only, and nothing else is printed. -/
def Accounted (s : State) : Prop := s.children.Perm ((List.range s.forked).map some)

theorem accounted_fork {s : State} (h : Accounted s) :
    Accounted { s with forked := s.forked + 1, running := s.running ++ [s.forked] } := by
  unfold Accounted State.children at h ⊢
  rw [List.map_append, ← List.append_assoc, List.range_succ, List.map_append]
  exact h.append_right _

theorem accounted_exit {s : State} {c : Nat} (h : Accounted s) (hc : c ∈ s.running) :
    Accounted { s with running := s.running.erase c, zombies := s.zombies ++ [c], pending := true } := by
  unfold Accounted State.children at h ⊢
  refine List.Perm.trans ?_ h
  have hrun : ([c] ++ s.running.erase c).Perm s.running := (List.perm_cons_erase hc).symm
  have hmap := hrun.map some
  simp only [List.map_append, List.append_assoc] at hmap ⊢
  apply List.Perm.append_left
  apply List.Perm.append_left
  exact hmap

theorem accounted_reap {s : State} {c : Nat} (hd : Handler) (h : Accounted s) (hc : c ∈ s.zombies) :
    Accounted { s with
      zombies := s.zombies.erase c, printed := s.printed ++ [some c], handler := hd } := by
  unfold Accounted State.children at h ⊢
  refine List.Perm.trans ?_ h
  have hz : ([c] ++ s.zombies.erase c).Perm s.zombies := (List.perm_cons_erase hc).symm
  have hmap := hz.map some
  simp only [List.map_append, List.append_assoc] at hmap ⊢
  apply List.Perm.append_left
  rw [← List.append_assoc]
  apply List.Perm.append_right
  exact hmap

/-- The promise of the handler that loops: as long as a zombie is left the parent is in the
handler, or a signal will bring it there. -/
structure LoopInv (s : State) : Prop where
  accounted : Accounted s
  called : s.handler ≠ .returning
  covered : s.zombies ≠ [] → s.pending = true ∨ s.handler = .calling

theorem LoopInv.step {s s' : State} {l : Label} (h : LoopInv s)
    (hs : step .waitpid s l = some s') : LoopInv s' := by
  cases l with
  | fork =>
    simp only [ChildReaping.step, Option.ite_none_right_eq_some, Option.some.injEq] at hs
    obtain ⟨hout, rfl⟩ := hs
    exact ⟨accounted_fork h.accounted, h.called, h.covered⟩
  | exit c =>
    simp only [ChildReaping.step, Option.ite_none_right_eq_some, Option.some.injEq] at hs
    obtain ⟨hc, rfl⟩ := hs
    exact ⟨accounted_exit h.accounted hc, h.called, fun _ => .inl rfl⟩
  | deliver =>
    simp only [ChildReaping.step, Option.ite_none_right_eq_some, Option.some.injEq] at hs
    obtain ⟨-, rfl⟩ := hs
    exact ⟨h.accounted, by simp, fun _ => .inr rfl⟩
  | reap c =>
    simp only [ChildReaping.step, Option.ite_none_right_eq_some, Option.some.injEq] at hs
    obtain ⟨⟨-, hc⟩, rfl⟩ := hs
    exact ⟨accounted_reap _ h.accounted hc, by simp [Version.reaped], fun _ => .inr rfl⟩
  | empty =>
    simp only [ChildReaping.step, Option.ite_none_right_eq_some, Option.some.injEq] at hs
    obtain ⟨⟨-, hz⟩, rfl⟩ := hs
    exact ⟨h.accounted, by simp, fun hne => absurd hz hne⟩
  | leave =>
    simp only [ChildReaping.step, Option.ite_none_right_eq_some, Option.some.injEq] at hs
    exact absurd hs.1 h.called

theorem loop_inv {s : State} (hr : (server .waitpid).Reachable s) : LoopInv s := by
  apply hr.invariant
  · exact ⟨List.Perm.nil, by simp [server, State.start], fun h => absurd rfl h⟩
  · intro s l s' h hs
    exact h.step hs

/-- With the handler that loops on waitpid, however signals coincide: whenever no signal is
pending and the parent is back in its loop there is no zombie, and every child that has ended
was printed once. -/
theorem waitpid_leaves_no_zombie (s : State) (hr : (server .waitpid).Reachable s)
    (hq : s.Quiet) :
    s.zombies = [] ∧ (s.printed ++ s.running.map some).Perm ((List.range s.forked).map some) := by
  have h := loop_inv hr
  have hz : s.zombies = [] := by
    by_contra hne
    rcases h.covered hne with hp | hc
    · rw [hq.1] at hp
      cases hp
    · rw [hq.2] at hc
      cases hc
  refine ⟨hz, ?_⟩
  have hall := h.accounted
  unfold Accounted State.children at hall
  rw [hz] at hall
  simpa using hall

/-- Two children end before the signal of the first is delivered. -/
def twoAtOnce : List Label :=
  [.fork, .fork, .exit 1, .exit 0, .deliver, .reap 1, .reap 0, .empty]

theorem waitpid_leaves_no_zombie_two : ∃ s, (server .waitpid).Reachable s ∧ s.forked = 2 ∧
    s.running = [] ∧ s.zombies = [] := by
  have hreach : ∃ s, (server .waitpid).Reachable s ∧ s.forked = 2 ∧ s.running = [] ∧ s.Quiet :=
    ⟨_, ⟨twoAtOnce, rfl⟩, rfl, rfl, rfl, rfl⟩
  obtain ⟨s, hr, hf, hrun, hq⟩ := hreach
  exact ⟨s, hr, hf, hrun, (waitpid_leaves_no_zombie s hr hq).1⟩

/-- What holds with the handler that calls wait once: a pending signal and a handler before
its call each have a zombie of their own to reap. -/
structure OnceInv (s : State) : Prop where
  accounted : Accounted s
  owed : (if s.pending then 1 else 0) + (if s.handler = .calling then 1 else 0) ≤ s.zombies.length
  first : s.zombies ≠ [] → s.printed = [] → s.pending = true ∨ s.handler = .calling

theorem OnceInv.step {s s' : State} {l : Label} (h : OnceInv s) (hs : step .wait s l = some s') :
    OnceInv s' := by
  have howed := h.owed
  cases l with
  | fork =>
    simp only [ChildReaping.step, Option.ite_none_right_eq_some, Option.some.injEq] at hs
    obtain ⟨hout, rfl⟩ := hs
    exact ⟨accounted_fork h.accounted, howed, h.first⟩
  | exit c =>
    simp only [ChildReaping.step, Option.ite_none_right_eq_some, Option.some.injEq] at hs
    obtain ⟨hc, rfl⟩ := hs
    refine ⟨accounted_exit h.accounted hc, ?_, fun _ _ => .inl rfl⟩
    simp only [if_true, List.length_append, List.length_singleton]
    split at howed <;> omega
  | deliver =>
    simp only [ChildReaping.step, Option.ite_none_right_eq_some, Option.some.injEq] at hs
    obtain ⟨⟨hp, hout⟩, rfl⟩ := hs
    refine ⟨h.accounted, ?_, fun _ _ => .inr rfl⟩
    simp only [hp, hout, if_true] at howed
    simpa using howed
  | reap c =>
    simp only [ChildReaping.step, Option.ite_none_right_eq_some, Option.some.injEq] at hs
    obtain ⟨⟨hcall, hc⟩, rfl⟩ := hs
    refine ⟨accounted_reap _ h.accounted hc, ?_, by simp⟩
    simp only [hcall, if_true] at howed
    simp only [Version.reaped, List.length_erase_of_mem hc]
    simp
    omega
  | empty =>
    -- the handler has a zombie to reap, so that this does not happen
    simp only [ChildReaping.step, Option.ite_none_right_eq_some] at hs
    obtain ⟨⟨hcall, hz⟩, -⟩ := hs
    simp only [hcall, hz, if_true, List.length_nil] at howed
    omega
  | leave =>
    simp only [ChildReaping.step, Option.ite_none_right_eq_some, Option.some.injEq] at hs
    obtain ⟨hret, rfl⟩ := hs
    refine ⟨h.accounted, ?_, fun hz hp => ?_⟩
    · simp only [hret] at howed
      simpa using howed
    · have hold := h.first hz hp
      rw [hret] at hold
      exact hold.imp_right (by simp)

theorem once_inv {s : State} (hr : (server .wait).Reachable s) : OnceInv s := by
  apply hr.invariant
  · exact ⟨List.Perm.nil, Nat.le_refl _, fun h => absurd rfl h⟩
  · intro s l s' h hs
    exact h.step hs

section Zombies

variable {n : Nat} {xs ys zs : List Nat} {p : List (Option Nat)} {b : Bool}

theorem reach_forked (n : Nat) :
    (server .wait).Reachable ⟨n, List.range n, [], false, .outside, []⟩ := by
  induction n with
  | zero => exact Machine.Reachable.start _
  | succ n ih =>
    apply ih.next (l := .fork)
    simp [server, step, List.range_succ]

/-- Children end without the parent taking note. -/
theorem reach_ended (h : (server .wait).Reachable ⟨n, xs ++ ys, zs, b, .outside, p⟩) :
    (server .wait).Reachable ⟨n, ys, zs ++ xs, b || !xs.isEmpty, .outside, p⟩ := by
  induction xs generalizing zs b with
  | nil => simpa using h
  | cons x xs ih =>
    have hstep : (server .wait).step ⟨n, x :: xs ++ ys, zs, b, .outside, p⟩ (.exit x) =
        some ⟨n, xs ++ ys, zs ++ [x], true, .outside, p⟩ := by simp [server, step]
    have hrest := ih (h.next hstep)
    simpa using hrest

/-- The parent takes note of all of them at once, and reaps a single one. -/
theorem reach_reaped (hne : xs ≠ [])
    (h : (server .wait).Reachable ⟨n, xs ++ ys, zs, false, .outside, p⟩) :
    ∃ zs' p', (server .wait).Reachable ⟨n, ys, zs', false, .outside, p'⟩ ∧
      zs'.length + 1 = zs.length + xs.length := by
  have hended := reach_ended h
  obtain ⟨z, zs', hz⟩ : ∃ z zs', zs ++ xs = z :: zs' := by
    apply List.exists_cons_of_ne_nil
    simp [hne]
  have hpend : (false || !xs.isEmpty) = true := by simp [hne]
  rw [hz, hpend] at hended
  have hrun : (server .wait).run ⟨n, ys, z :: zs', true, .outside, p⟩
      [.deliver, .reap z, .leave] = some ⟨n, ys, zs', false, .outside, p ++ [some z]⟩ := by
    simp [Machine.run, server, step, Version.reaped]
  refine ⟨zs', _, hended.run hrun, ?_⟩
  have hlen := congrArg List.length hz
  rw [List.length_append, List.length_cons] at hlen
  omega

/-- Children that end one at a time are all reaped. -/
theorem reach_singly (h : (server .wait).Reachable ⟨n, xs, zs, false, .outside, p⟩) :
    ∃ zs' p', (server .wait).Reachable ⟨n, [], zs', false, .outside, p'⟩ ∧
      zs'.length = zs.length := by
  induction xs generalizing zs p with
  | nil => exact ⟨zs, p, h, rfl⟩
  | cons x xs ih =>
    have h' : (server .wait).Reachable ⟨n, [x] ++ xs, zs, false, .outside, p⟩ := h
    obtain ⟨zs₁, p₁, hr₁, hlen₁⟩ := reach_reaped (by simp) h'
    obtain ⟨zs₂, p₂, hr₂, hlen₂⟩ := ih hr₁
    refine ⟨zs₂, p₂, hr₂, ?_⟩
    rw [List.length_singleton] at hlen₁
    omega

end Zombies

/-- With the handler that calls wait once, wait always finds a zombie, so that the parent
never blocks in it. But of n children that have all ended any number below n, and no other,
can be left as zombies for good. -/
theorem wait_leaves_zombies_iff (n m : Nat) :
    (∀ s, (server .wait).Reachable s → s.handler = .calling → s.zombies ≠ []) ∧
    ((∃ s, (server .wait).Reachable s ∧ s.Quiet ∧ s.forked = n + 1 ∧ s.running = [] ∧
      s.zombies.length = m) ↔ m < n + 1) := by
  refine ⟨?_, ?_, ?_⟩
  · intro s hr hcall hz
    have howed := (once_inv hr).owed
    simp only [hcall, hz, if_true, List.length_nil] at howed
    omega
  · rintro ⟨s, hr, hq, hf, hrun, rfl⟩
    have h := once_inv hr
    have hlen := h.accounted.length_eq
    simp only [State.children, hrun, hf, List.length_append, List.length_map, List.length_nil,
      List.length_range] at hlen
    by_cases hz : s.zombies = []
    · rw [hz]
      exact Nat.succ_pos n
    · have hp : s.printed ≠ [] := by
        intro hp
        rcases h.first hz hp with h₁ | h₂
        · rw [hq.1] at h₁
          cases h₁
        · rw [hq.2] at h₂
          cases h₂
      have hpos := List.length_pos_of_ne_nil hp
      omega
  · intro hm
    have hsplit : List.range (n + 1) =
        (List.range (n + 1)).take (m + 1) ++ (List.range (n + 1)).drop (m + 1) :=
      (List.take_append_drop _ _).symm
    have hlen : ((List.range (n + 1)).take (m + 1)).length = m + 1 := by
      rw [List.length_take, List.length_range]
      omega
    have hne : (List.range (n + 1)).take (m + 1) ≠ [] := by
      apply List.ne_nil_of_length_pos
      omega
    have hstart := reach_forked (n + 1)
    rw [hsplit] at hstart
    obtain ⟨zs, p, hr, hz⟩ := reach_reaped hne hstart
    obtain ⟨zs', p', hr', hz'⟩ := reach_singly hr
    refine ⟨_, hr', ⟨rfl, rfl⟩, rfl, rfl, ?_⟩
    rw [hlen, List.length_nil] at hz
    change zs'.length = m
    omega

end LinuxPractice.ChildReaping
