import LinuxPractice.Framework.Progress
import LinuxPractice.Web.NonblockingBooks

namespace LinuxPractice.Web.Nonblocking

variable {n : Nat} {maxnconn : Int} {isOpen : List Bool} {reply : Fin n → Nat} {s s' : State n}

/-- What is still to be done for a file. -/
def File.weight (f : File) : Nat :=
  match f.flags with
  | .unused => f.left + 3
  | .connecting => f.left + 2
  | .reading => f.left + 1
  | .done => 0

/-- The for loop still comes to a socket that Select has reported. -/
def Pending (s : State n) (i : Nat) (rs ws : Finset Nat) : Prop :=
  ∃ j : Fin n, i ≤ j ∧ (Connected s j rs ws ∨ Reads s j rs)

instance (s : State n) (i : Nat) (rs ws : Finset Nat) : Decidable (Pending s i rs ws) :=
  inferInstanceAs (Decidable (∃ _, _))

/-- How far main is from Select. A for loop that finds nothing would count as much as the
way back to it. -/
def State.position (s : State n) : Nat :=
  match s.pc with
  | .loop => n + 3
  | .create => n + 2
  | .select => n + 1
  | .scan i rs ws => (n - i) + if Pending s i rs ws then 0 else n + 4
  | .exited | .errQuit => 0

def State.work (s : State n) : Nat := (n + 5) * total File.weight s.file + s.position

/-- A file that goes on is worth more than all that main may have to do for it. -/
theorem work_lt_of_weight {i : Fin n} {f : File} (h : s'.file = Function.update s.file i f)
    (hw : f.weight < (s.file i).weight) (hp : s'.position ≤ s.position + (n + 4)) : s'.work < s.work := by
  have ht := total_update File.weight s.file i f
  rw [← h] at ht
  have hle : total File.weight s'.file + 1 ≤ total File.weight s.file := by omega
  have hmul := Nat.mul_le_mul_left (n + 5) hle
  rw [Nat.mul_add, Nat.mul_one] at hmul
  unfold State.work
  omega

theorem work_lt_of_position (h : s'.file = s.file) (hp : s'.position < s.position) : s'.work < s.work := by
  unfold State.work
  rw [h]
  omega

theorem position_scan_le {i : Nat} {rs ws : Finset Nat} (h : s.pc = .scan i rs ws) :
    s.position ≤ (n - i) + (n + 4) := by
  rw [State.position, h]
  simp only
  split <;> omega

theorem le_position_scan {i : Nat} {rs ws : Finset Nat} (h : s.pc = .scan i rs ws) : n - i ≤ s.position := by
  rw [State.position, h]
  exact Nat.le_add_right _ _

/-- Whatever Select reports, the for loop comes to it. -/
theorem Watched.pending (hw : Watched s) {rs ws : Finset Nat} (hr : Reports s rs ws) : Pending s 0 rs ws := by
  obtain ⟨hrs, hws, -, hne⟩ := hr
  obtain ⟨d, hd⟩ := Finset.nonempty_iff_ne_empty.mpr hne
  rcases Finset.mem_union.mp hd with hd | hd
  · obtain ⟨i, hi⟩ := (hw.rset d).mp (hrs hd)
    obtain ⟨hact, hfd⟩ := (hw.sockets d i).mp hi
    refine ⟨i, Nat.zero_le _, ?_⟩
    rcases hact with hfl | hfl
    · exact .inl ⟨hfl, .inl (hfd ▸ hd)⟩
    · exact .inr ⟨hfl, hfd ▸ hd⟩
  · obtain ⟨i, hi, hfl⟩ := (hw.wset d).mp (hws hd)
    have hfd := ((hw.sockets d i).mp hi).2
    exact ⟨i, Nat.zero_le _, .inl ⟨hfl, .inr (hfd ▸ hd)⟩⟩

/-- Every step is a step ahead. -/
theorem Move.work (hw : Watched s) {l : Label} (hm : Move maxnconn s l s') :
    s'.work < s.work := by
  cases hm with
  | go hpc h =>
    refine work_lt_of_position rfl ?_
    simp [State.position, hpc]
  | exit hpc h =>
    refine work_lt_of_position rfl ?_
    simp [State.position, hpc]
  | quit hpc hleft hi =>
    refine work_lt_of_position rfl ?_
    simp [State.position, hpc]
  | created hpc h =>
    refine work_lt_of_position rfl ?_
    simp [State.position, hpc]
  | connect i done hpc hconn hleft hi =>
    have hfl := flags_of_firstUnused hi
    refine work_lt_of_weight (startConnect_file s i done) ?_ ?_
    · cases done <;> simp [File.weight, hfl]
    · simp [State.position, hpc]
  | select rs ws hpc hr =>
    have hp : Pending { s with pc := .scan 0 rs ws } 0 rs ws := hw.pending hr
    refine work_lt_of_position rfl ?_
    simp [State.position, hpc, hp]
  | connected i rs ws hpc hc =>
    refine work_lt_of_weight (i := i) rfl (by simp [File.weight, hc.1]) ?_
    have hle := le_position_scan hpc
    refine (position_scan_le rfl).trans ?_
    omega
  | eof i rs ws hpc hr hleft =>
    refine work_lt_of_weight (i := i) rfl (by simp [File.weight, hr.1]) ?_
    have hle := le_position_scan hpc
    refine (position_scan_le rfl).trans ?_
    omega
  | data i rs ws k hpc hr hk hle =>
    refine work_lt_of_weight (i := i) rfl ?_ ?_
    · simp only [File.weight, hr.1]
      omega
    · have hle := le_position_scan hpc
      refine (position_scan_le rfl).trans ?_
      omega
  | skip i rs ws hpc hc hr =>
    have hp : Pending { s with pc := .scan (i + 1) rs ws } (i + 1) rs ws ↔ Pending s i rs ws := by
      constructor
      · rintro ⟨j, hj, hd⟩
        exact ⟨j, by omega, hd⟩
      · rintro ⟨j, hj, hd⟩
        refine ⟨j, ?_, hd⟩
        by_contra hlt
        have hji : j = i := Fin.ext (by omega)
        subst hji
        exact hd.elim hc hr
    refine work_lt_of_position rfl ?_
    simp only [State.position, hpc, hp]
    omega
  | scanned i rs ws hpc h =>
    have hp : ¬Pending s i rs ws := by
      rintro ⟨j, hj, -⟩
      omega
    refine work_lt_of_position rfl ?_
    simp only [State.position, hpc, hp, if_false]
    omega

/-- main does not call Select for nothing. -/
theorem exists_active (hb : Books maxnconn s) (hpc : s.pc = .select) (hmax : n = 0 ∨ 1 ≤ maxnconn) :
    ∃ i, (s.file i).Active := by
  by_contra hno
  have hnone : n = 0 → total File.unused s.file = 0 := by
    rintro rfl
    rfl
  have hzero : total File.active s.file = 0 := by
    apply Finset.sum_eq_zero
    intro i _
    exact if_neg fun hi => hno ⟨i, hi⟩
  have hread := hb.nlefttoread
  rw [total_unread, hzero] at hread
  have hholds := hb.pc
  rw [PcHolds, hpc] at hholds
  obtain ⟨hpos, hsat⟩ := hholds
  have hconn := hb.nconn
  have htoconn := hb.nlefttoconn
  omega

theorem exists_step (hb : Books maxnconn s) (hw : Watched s) (hmax : n = 0 ∨ 1 ≤ maxnconn)
    (hne : s.pc ≠ .exited) : ∃ l, step maxnconn s l ≠ none := by
  have hholds := hb.pc
  cases hpc : s.pc with
  | loop => exact ⟨.step, by simp [step, hpc]⟩
  | create =>
    by_cases hc : s.nconn < maxnconn ∧ 0 < s.nlefttoconn
    · cases hi : s.firstUnused with
      | none => exact absurd hi (firstUnused_isSome (hb.nlefttoconn ▸ hc.2))
      | some i => exact ⟨.connect true, by simp [step, hpc, hc, hi]⟩
    · exact ⟨.step, by simp [step, hpc, hc]⟩
  | select =>
    obtain ⟨i, hi⟩ := exists_active hb hpc hmax
    have hmem : (s.file i).fd ∈ s.rset := (hw.rset _).mpr ⟨i, (hw.sockets _ i).mpr ⟨hi, rfl⟩⟩
    have hr : Reports s {(s.file i).fd} ∅ := by
      refine ⟨by simpa using hmem, Finset.empty_subset _, ?_, by simp⟩
      simpa using hw.maxfd _ hmem
    exact ⟨.select {(s.file i).fd} ∅, by simp [step, hpc, hr]⟩
  | scan i rs ws =>
    by_cases hi : i < n
    · by_cases hc : Connected s ⟨i, hi⟩ rs ws
      · exact ⟨.step, by simp [step, hpc, hi, hc]⟩
      · by_cases hr : Reads s ⟨i, hi⟩ rs
        · by_cases hleft : (s.file ⟨i, hi⟩).left = 0
          · exact ⟨.read 0, by simp [step, hpc, hi, hc, hr, hleft]⟩
          · have hk : 1 ≤ Echo.MAXLINE ∧ 1 ≤ (s.file ⟨i, hi⟩).left := ⟨by decide, by omega⟩
            exact ⟨.read 1, by simp [step, hpc, hi, hc, hr, hk]⟩
        · exact ⟨.step, by simp [step, hpc, hi, hc, hr]⟩
    · exact ⟨.step, by simp [step, hpc, hi]⟩
  | exited => exact absurd hpc hne
  | errQuit =>
    rw [PcHolds, hpc] at hholds
    exact hholds.elim

end LinuxPractice.Web.Nonblocking
