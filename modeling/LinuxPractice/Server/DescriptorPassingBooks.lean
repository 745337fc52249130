import LinuxPractice.Framework.Progress
import LinuxPractice.Server.DescriptorPassing

namespace LinuxPractice.DescriptorPassing

/-- How many connections the parent has not heard back about: in the pipe, in the child, or
answered. -/
def Child.load (c : Child) : Nat :=
  c.passed.length + c.ready + (if c.pc = .readFd then 0 else 1)

/-- The connections a child has not served yet. -/
def Child.held (c : Child) : Multiset Nat :=
  c.passed + match c.pc with
    | .serving connfd => {connfd}
    | _ => 0

def Child.idle (c : Child) : Int := if c.status then 0 else 1

variable {n : Nat} {s s' : State n}

/-- The children that the for loop has still to come to. -/
def remaining (i : Nat) (rset : Finset (Fin n)) : Finset (Fin n) := rset.filter fun j => i ≤ j

/-- What the parent knows where it stands: the reported children have written to it, and nsel
counts those it has not come to. -/
def PcHolds (s : State n) : Prop :=
  match s.pc with
  | .select => True
  | .accept rset nsel =>
    0 < s.navail ∧ 0 < s.backlog ∧ (∀ j ∈ rset, 0 < (s.child j).ready) ∧ nsel = rset.card + 1
  | .scan i rset nsel =>
    (∀ j ∈ remaining i rset, 0 < (s.child j).ready) ∧ nsel = (remaining i rset).card ∧ 0 < nsel
  | .errQuit => False

structure Books (s : State n) : Prop where
  load : ∀ i, (s.child i).load = (s.child i).status.toNat
  navail : s.navail = total Child.idle s.child
  count : total Child.count s.child = s.accepted
  exact : (s.served : Multiset Nat) + total Child.held s.child = Multiset.range s.accepted
  pc : PcHolds s

theorem Books.start (n : Nat) : Books (State.start n) where
  load _ := rfl
  navail := by simp [State.start, total, Child.idle]
  count := by simp [State.start, total]
  exact := by simp [State.start, total, Child.held]
  pc := trivial

theorem remaining_zero (rset : Finset (Fin n)) : remaining 0 rset = rset := by
  simp [remaining]

theorem remaining_of_mem {i : Fin n} {rset : Finset (Fin n)} (h : i ∈ rset) :
    remaining i rset = insert i (remaining (i + 1) rset) := by
  ext j
  simp only [remaining, Finset.mem_filter, Finset.mem_insert]
  constructor
  · rintro ⟨hj, hle⟩
    by_cases he : j = i
    · exact .inl he
    · have hval : (j : Nat) ≠ i := fun hv => he (Fin.ext hv)
      exact .inr ⟨hj, by omega⟩
  · rintro (rfl | ⟨hj, hle⟩)
    · exact ⟨h, Nat.le_refl _⟩
    · exact ⟨hj, by omega⟩

theorem not_mem_remaining (i : Fin n) (rset : Finset (Fin n)) : i ∉ remaining (i + 1) rset := by
  simp [remaining]

theorem remaining_of_not_mem {i : Fin n} {rset : Finset (Fin n)} (h : i ∉ rset) :
    remaining (i + 1) rset = remaining i rset := by
  ext j
  simp only [remaining, Finset.mem_filter]
  apply and_congr_right
  intro hj
  have hval : (j : Nat) ≠ i := fun hv => h (Fin.ext hv ▸ hj)
  omega

theorem mem_readable {i : Fin n} : i ∈ s.readable ↔ 0 < (s.child i).ready := by
  simp [State.readable]

/-- A child that is not busy waits in Read_fd with nothing in its pipe. -/
theorem Books.idle (hb : Books s) {i : Fin n} (h : (s.child i).status = false) :
    (s.child i).passed = [] ∧ (s.child i).ready = 0 ∧ (s.child i).pc = .readFd := by
  have hl := hb.load i
  rw [h, Child.load] at hl
  simp only [Bool.toNat_false, Nat.add_eq_zero_iff, List.length_eq_zero_iff] at hl
  obtain ⟨⟨hp, hr⟩, hpc⟩ := hl
  refine ⟨hp, hr, ?_⟩
  by_contra hne
  rw [if_neg hne] at hpc
  cases hpc

theorem idle_nonneg (c : Child) : 0 ≤ c.idle := by
  unfold Child.idle
  split <;> decide

/-- While navail is positive there is a child for the connection. -/
theorem Books.exists_available (hb : Books s) (h : 0 < s.navail) : s.available ≠ none := by
  rw [hb.navail] at h
  obtain ⟨i, hi⟩ := exists_of_total_ne_zero (Int.ne_of_gt h)
  intro hnone
  have hst := Fin.find?_eq_none_iff.mp hnone i
  simp only [Bool.not_eq_false'] at hst
  exact hi (if_pos hst)

theorem status_of_available {i : Fin n} (h : s.available = some i) : (s.child i).status = false := by
  have hi := (Fin.find?_eq_some_iff.mp h).1
  simpa using hi

/-- A child goes on; its parent may note it. -/
theorem Books.change (hb : Books s) {i : Fin n} {c : Child}
    (hchild : s'.child = Function.update s.child i c) (hload : c.load = c.status.toNat)
    (hnavail : s'.navail = s.navail + (c.idle - (s.child i).idle))
    (hcount : s'.accepted + (s.child i).count = s.accepted + c.count)
    (hexact : (s'.served : Multiset Nat) + c.held + Multiset.range s.accepted =
      s.served + (s.child i).held + Multiset.range s'.accepted)
    (hpc : PcHolds s') : Books s' where
  load j := by
    rw [hchild]
    by_cases hj : j = i
    · subst hj
      simpa using hload
    · simpa [hj] using hb.load j
  navail := by rw [hnavail, hb.navail, total_of_update hchild]
  count := by
    have h := total_update Child.count s.child i c
    rw [← hchild, hb.count] at h
    omega
  exact := by
    have h := total_update Child.held s.child i c
    rw [← hchild] at h
    apply add_right_cancel (b := (s.child i).held + Multiset.range s.accepted)
    calc (s'.served : Multiset Nat) + total Child.held s'.child +
          ((s.child i).held + Multiset.range s.accepted)
        = s'.served + (total Child.held s'.child + (s.child i).held) + Multiset.range s.accepted := by ac_rfl
      _ = s'.served + c.held + Multiset.range s.accepted + total Child.held s.child := by rw [h]; ac_rfl
      _ = s.served + total Child.held s.child + (s.child i).held + Multiset.range s'.accepted := by
        rw [hexact]; ac_rfl
      _ = Multiset.range s'.accepted + ((s.child i).held + Multiset.range s.accepted) := by
        rw [hb.exact]; ac_rfl
  pc := hpc

/-- The parent goes on without touching a child. -/
theorem Books.goto (hb : Books s) {pc : Pc n} {backlog : Nat}
    (h : PcHolds { s with backlog := backlog, pc := pc }) : Books { s with backlog := backlog, pc := pc } where
  load := hb.load
  navail := hb.navail
  count := hb.count
  exact := hb.exact
  pc := h

theorem Books.pass (hb : Books s) {rset : Finset (Fin n)} {nsel : Nat} {i : Fin n}
    (hpc : s.pc = .accept rset nsel) (hi : s.available = some i) :
    Books { s.setChild i { s.child i with
        status := true, count := (s.child i).count + 1, passed := (s.child i).passed ++ [s.accepted] } with
      backlog := s.backlog - 1, accepted := s.accepted + 1, navail := s.navail - 1
      pc := if nsel - 1 = 0 then .select else .scan 0 rset (nsel - 1) } := by
  have hst := status_of_available hi
  obtain ⟨hpass, hready, hread⟩ := hb.idle hst
  have hholds := hb.pc
  rw [PcHolds, hpc] at hholds
  obtain ⟨-, -, hrset, hnsel⟩ := hholds
  refine hb.change (i := i) rfl ?_ ?_ ?_ ?_ ?_
  · simp [Child.load, hpass, hready, hread]
  · simp [Child.idle, hst]
    omega
  · simp only
    omega
  · simp only [Child.held, State.setChild, hpass, hread, Multiset.range_succ, List.nil_append,
      Multiset.coe_singleton, Multiset.coe_nil, add_zero, add_assoc, Multiset.singleton_add]
  · unfold PcHolds
    by_cases hz : nsel - 1 = 0
    · simp [hz]
    · simp only [hz, if_false, remaining_zero]
      refine ⟨fun j hj => ?_, by omega, by omega⟩
      have hji : j ≠ i := by
        rintro rfl
        have hpos := hrset j hj
        omega
      simpa [State.setChild, hji] using hrset j hj

theorem Books.found (hb : Books s) {i : Fin n} {rset : Finset (Fin n)} {nsel : Nat}
    (hpc : s.pc = .scan i rset nsel) (hi : i ∈ rset) (hready : 0 < (s.child i).ready) :
    Books { s.setChild i { s.child i with status := false, ready := (s.child i).ready - 1 } with
      navail := s.navail + 1
      pc := if nsel - 1 = 0 then .select else .scan (i + 1) rset (nsel - 1) } := by
  have hl := hb.load i
  have hst : (s.child i).status = true := by
    by_contra hf
    have hidle := (hb.idle (Bool.eq_false_iff.mpr hf)).2.1
    omega
  rw [hst, Child.load, Bool.toNat_true] at hl
  have hholds := hb.pc
  rw [PcHolds, hpc] at hholds
  obtain ⟨hrem, hnsel, -⟩ := hholds
  rw [remaining_of_mem hi, Finset.card_insert_of_notMem (not_mem_remaining i rset)] at hnsel
  refine hb.change (i := i) rfl ?_ ?_ ?_ ?_ ?_
  · simp only [Child.load, Bool.toNat_false]
    omega
  · simp [Child.idle, hst]
  · rfl
  · rfl
  · unfold PcHolds
    by_cases hz : nsel - 1 = 0
    · simp [hz]
    · simp only [hz, if_false]
      refine ⟨fun j hj => ?_, by omega, by omega⟩
      have hji : j ≠ i := fun he => not_mem_remaining i rset (he ▸ hj)
      have hmem : j ∈ remaining i rset := by
        rw [remaining_of_mem hi]
        exact Finset.mem_insert_of_mem hj
      simpa [State.setChild, hji] using hrem j hmem

theorem Books.parent (hb : Books s) (hm : ParentMove s s') : Books s' := by
  have hholds := hb.pc
  cases hm with
  | listening hpc hav hback => exact hb.goto ⟨hav, hback, fun j hj => mem_readable.mp hj, rfl⟩
  | children hpc hne =>
    refine hb.goto ⟨fun j hj => ?_, ?_, ?_⟩
    · rw [remaining_zero] at hj
      exact mem_readable.mp hj
    · rw [remaining_zero]
    · exact Finset.card_pos.mpr (Finset.nonempty_iff_ne_empty.mpr hne)
  | quit rset nsel hpc hi =>
    rw [PcHolds, hpc] at hholds
    exact absurd hi (hb.exists_available hholds.1)
  | pass rset nsel i hpc hi => exact hb.pass hpc hi
  | found i rset nsel hpc hi hready => exact hb.found hpc hi hready
  | skip i rset nsel hpc hi =>
    rw [PcHolds, hpc] at hholds
    refine hb.goto ?_
    simp only [PcHolds, remaining_of_not_mem hi]
    exact hholds
  | scanned i rset nsel hpc h => exact hb.goto trivial

/-- A child that writes to its parent or serves is still among those the parent knows of. -/
theorem pcHolds_setChild {i : Fin n} {c : Child} (h : PcHolds s) (hc : (s.child i).ready ≤ c.ready) :
    PcHolds (s.setChild i c) := by
  have hready (j : Fin n) (hj : 0 < (s.child j).ready) : 0 < ((s.setChild i c).child j).ready := by
    by_cases hji : j = i
    · subst hji
      simp only [State.setChild, Function.update_self]
      omega
    · simpa [State.setChild, hji] using hj
  unfold PcHolds at h ⊢
  have hpc : (s.setChild i c).pc = s.pc := rfl
  rw [hpc]
  split at h
  · trivial
  · exact ⟨h.1, h.2.1, fun j hj => hready j (h.2.2.1 j hj), h.2.2.2⟩
  · exact ⟨fun j hj => hready j (h.1 j hj), h.2⟩
  · exact h

theorem Books.child (hb : Books s) {i : Fin n} {l : Label n} (hm : ChildMove s i l s') : Books s' := by
  have hl := hb.load i
  cases hm with
  | readFd c passed hpc hpass =>
    refine hb.change (i := i) rfl ?_ ?_ rfl ?_ (pcHolds_setChild hb.pc (Nat.le_refl _))
    · simp [Child.load, hpc, hpass] at hl ⊢
      omega
    · simp [State.setChild, Child.idle]
    · simp only [Child.held, State.setChild, hpc, hpass, add_zero]
      rw [← Multiset.cons_coe, ← Multiset.singleton_add]
      ac_rfl
  | finish c hpc =>
    refine hb.change (i := i) rfl ?_ ?_ rfl ?_ (pcHolds_setChild hb.pc (Nat.le_refl _))
    · simp [Child.load, hpc] at hl ⊢
      omega
    · simp [State.setChild, Child.idle]
    · simp only [Child.held, State.setChild, hpc, add_zero]
      rw [← Multiset.coe_add, Multiset.coe_singleton]
      ac_rfl
  | write hpc =>
    refine hb.change (i := i) rfl ?_ ?_ rfl ?_ (pcHolds_setChild hb.pc (Nat.le_succ _))
    · simp [Child.load, hpc] at hl ⊢
      omega
    · simp [State.setChild, Child.idle]
    · simp only [Child.held, State.setChild, hpc, add_zero]

theorem Books.step (hb : Books s) {l : Label n} (hs : DescriptorPassing.step s l = some s') : Books s' := by
  obtain ⟨-, rfl⟩ | ⟨-, hm⟩ | ⟨i, hm⟩ := step_cases hs
  · refine hb.goto ?_
    have hholds := hb.pc
    unfold PcHolds at hholds ⊢
    simp only
    split at hholds
    · trivial
    · exact ⟨hholds.1, by omega, hholds.2.2⟩
    · exact hholds
    · exact hholds
  · exact hb.parent hm
  · exact hb.child hm

theorem books_of_reachable (h : (server n).Reachable s) : Books s :=
  Machine.Reachable.invariant (Books.start n) (fun _ _ _ hb hs => hb.step hs) h

/-- Steps that do not depend on the clients. -/
def working : Label n → Bool
  | .arrive | .finish _ => false
  | _ => true

/-- Outside Select the parent goes on. -/
theorem Books.select_of_blocked (hb : Books s) (h : parentStep s = none) : s.pc = .select := by
  have hholds := hb.pc
  unfold parentStep at h
  cases hpc : s.pc with
  | select => rfl
  | accept rset nsel =>
    rw [PcHolds, hpc] at hholds
    have hne : s.backlog ≠ 0 := Nat.ne_of_gt hholds.2.1
    simp only [hpc, acceptStep, hne, if_false] at h
    split at h <;> cases h
  | scan i rset nsel =>
    rw [PcHolds, hpc] at hholds
    simp only [hpc, scanStep] at h
    split at h
    · rename_i hi
      split at h
      · rename_i hin
        have hready := hholds.1 ⟨i, hi⟩ (Finset.mem_filter.mpr ⟨hin, Nat.le_refl i⟩)
        rw [if_neg (Nat.ne_of_gt hready)] at h
        cases h
      · cases h
    · cases h
  | errQuit =>
    rw [PcHolds, hpc] at hholds
    exact hholds.elim

/-- A busy child that cannot go on, and that the parent has heard of, is serving. -/
theorem Books.serving (hb : Books s) (hrest : (server n).Resting working s) {i : Fin n}
    (hst : (s.child i).status = true) (hready : (s.child i).ready = 0) :
    ∃ c, (s.child i).pc = .serving c := by
  have hl := hb.load i
  rw [hst, Bool.toNat_true, Child.load, hready] at hl
  cases hpc : (s.child i).pc with
  | serving c => exact ⟨c, rfl⟩
  | readFd =>
    cases hpass : (s.child i).passed with
    | nil => simp [hpc, hpass] at hl
    | cons c passed =>
      have hs : (server n).step s (.readFd i) =
          some (s.setChild i { s.child i with passed := passed, pc := .serving c }) := by
        simp [server, DescriptorPassing.step, hpc, hpass]
      cases hrest _ _ hs
  | write =>
    have hs : (server n).step s (.write i) =
        some (s.setChild i { s.child i with ready := (s.child i).ready + 1, pc := .readFd }) := by
      simp [server, DescriptorPassing.step, hpc]
    cases hrest _ _ hs

/-- The parent is in the way of no connection: when it and its children wait, either no
connection does or every child is serving one. -/
theorem descriptor_passing_never_idles (n : Nat) (s : State n) (h : (server n).Reachable s)
    (hrest : (server n).Resting working s) :
    s.pc = .select ∧ (s.backlog = 0 ∨ ∀ i, ∃ c, (s.child i).pc = .serving c) := by
  have hb := books_of_reachable h
  have hparent : parentStep s = none := hrest.step_eq_none (l := .parent) rfl
  have hpc := hb.select_of_blocked hparent
  refine ⟨hpc, ?_⟩
  simp only [parentStep, hpc, selectStep] at hparent
  split at hparent
  · cases hparent
  · rename_i hsel
    split at hparent
    · rename_i hnone
      by_cases hback : s.backlog = 0
      · exact .inl hback
      · refine .inr fun i => hb.serving hrest ?_ ?_
        · -- no child is available
          have hle := single_le_total idle_nonneg s.child i
          rw [← hb.navail] at hle
          have hidle : (s.child i).idle ≤ 0 := by omega
          by_contra hst
          simp [Child.idle, hst] at hidle
        · have hmem : i ∉ s.readable := by simp [hnone]
          rw [mem_readable] at hmem
          omega
    · cases hparent

/-- Two clients and one child, which has read the descriptor of the first one. -/
def twoClients : List (Label 1) := [.arrive, .arrive, .parent, .parent, .readFd 0]

theorem descriptor_passing_never_idles_two :
    ∃ s, (server 1).Reachable s ∧ (server 1).Resting working s ∧ s.backlog = 1 ∧
      ∃ c, (s.child 0).pc = .serving c := by
  have hreach : ∃ s, (server 1).run (.start 1) twoClients = some s ∧ (s.child 0).pc = .serving 0 ∧
      parentStep s = none ∧ s.backlog = 1 := ⟨_, rfl, rfl, rfl, rfl⟩
  obtain ⟨s, hs, hpc, hparent, hback⟩ := hreach
  have hrest : (server 1).Resting working s := by
    intro l s' hl
    cases l with
    | parent =>
      have hp : parentStep s = some s' := hl
      rw [hparent] at hp
      cases hp
    | readFd i =>
      rw [Subsingleton.elim i 0] at hl
      simp [server, step, hpc] at hl
    | write i =>
      rw [Subsingleton.elim i 0] at hl
      simp [server, step, hpc] at hl
    | _ => rfl
  refine ⟨s, ⟨_, hs⟩, hrest, hback, ?_⟩
  rcases (descriptor_passing_never_idles 1 s ⟨_, hs⟩ hrest).2 with hz | hall
  · rw [hback] at hz
    cases hz
  · exact hall 0

end LinuxPractice.DescriptorPassing
