import LinuxPractice.Concurrency.MatrixVector.Model
import LinuxPractice.Framework.Progress
import LinuxPractice.Math.Total

set_option linter.unusedSectionVars false

namespace LinuxPractice.MatrixVector

variable {ν : Type*} [OfNat ν 0] [Add ν] [Mul ν]

/-- The whole product of row i. -/
def Data.product (D : Data ν) (i : Nat) : ν := D.partialSum i D.n

/-- What the thread of row i has in its locals, in its entry x of result1 and in the number k
of stores to it. -/
def RowThread.Holds (D : Data ν) (i : Nat) (x : ν) (k : Nat) : RowThread ν → Prop
  | .idle => k = 0
  | .loop j sum => j ≤ D.n ∧ sum = D.partialSum i j ∧ k = 0
  | .returned => x = D.product i ∧ k = 1

/-- The counters of main() are in range and its sum is that of the columns before j. -/
def MainPc.Holds (D : Data ν) : MainPc ν → Prop
  | .create i | .join i | .row i | .compare i => i ≤ D.m
  | .column i j sum => i < D.m ∧ j ≤ D.n ∧ sum = D.partialSum i j
  | .returned => True

/-- The rows whose thread exists. -/
def MainPc.created (D : Data ν) : MainPc ν → Nat
  | .create i => i
  | _ => D.m

/-- The rows whose thread is joined. -/
def MainPc.joined (D : Data ν) : MainPc ν → Nat
  | .create _ => 0
  | .join i => i
  | _ => D.m

/-- The rows of result2 that are stored. -/
def MainPc.multiplied (D : Data ν) : MainPc ν → Nat
  | .create _ | .join _ => 0
  | .row i | .column i _ _ => i
  | .compare _ | .returned => D.m

structure Inv (D : Data ν) (s : State ν) : Prop where
  rows : ∀ i, (s.thread i).Holds D i (s.result1 i) (s.written i)
  main : s.main.Holds D
  created : ∀ i, s.thread i = .idle ↔ s.main.created D ≤ i
  joined : ∀ i, i < s.main.joined D → s.thread i = .returned
  product : ∀ i, i < s.main.multiplied D → s.result2 i = D.product i
  silent : s.cout = []

section

variable [DecidableEq ν] [ToString ν]

theorem Inv.start (D : Data ν) : Inv D (start D) where
  rows _ := rfl
  main := Nat.zero_le _
  created i := by simp [MatrixVector.start, MainPc.created]
  joined i h := absurd h (Nat.not_lt_zero i)
  product i h := absurd h (Nat.not_lt_zero i)
  silent := rfl

theorem MainPc.Holds.created_le {D : Data ν} {pc : MainPc ν} (h : pc.Holds D) :
    pc.created D ≤ D.m := by
  cases pc with
  | create i => exact h
  | _ => exact Nat.le_refl _

theorem MainPc.Holds.multiplied_le {D : Data ν} {pc : MainPc ν} (h : pc.Holds D) :
    pc.multiplied D ≤ D.m := by
  cases pc with
  | create i => exact Nat.zero_le _
  | join i => exact Nat.zero_le _
  | row i => exact h
  | column i j sum => exact Nat.le_of_lt h.1
  | compare i => exact Nat.le_refl _
  | returned => exact Nat.le_refl _

/-- A row thread goes on from the middle of its loop. -/
theorem Inv.advance {D : Data ν} {s : State ν} (hi : Inv D s) {i j : Nat} {sum x : ν} {k : Nat}
    {t : RowThread ν} (hp : s.thread i = .loop j sum) (ht : t ≠ .idle)
    (hholds : t.Holds D i x k) :
    Inv D { s with
      thread := Function.update s.thread i t
      result1 := Function.update s.result1 i x
      written := Function.update s.written i k } where
  rows u := by
    by_cases hu : u = i
    · subst hu
      simpa using hholds
    · simpa [hu] using hi.rows u
  main := hi.main
  created u := by
    by_cases hu : u = i
    · subst hu
      have hc := hi.created u
      simp only [hp, reduceCtorEq, false_iff] at hc
      simpa [ht] using hc
    · simpa [hu] using hi.created u
  joined u h := by
    -- a thread in its loop is not joined yet
    have hu : u ≠ i := by
      intro he
      rw [he] at h
      have hr := hi.joined i h
      rw [hp] at hr
      cases hr
    simpa [hu] using hi.joined u h
  product := hi.product
  silent := hi.silent

theorem Inv.thread {D : Data ν} {s s' : State ν} (hi : Inv D s) {i : Nat}
    (hm : ThreadMove D s i s') : Inv D s' := by
  have hrow := hi.rows i
  cases hm with
  | add j sum hpc hj =>
    rw [hpc] at hrow
    obtain ⟨-, hsum, hk⟩ := hrow
    have h := hi.advance (x := s.result1 i) (k := s.written i)
      (t := .loop (j + 1) (sum + D.matrix i j * D.vector j)) hpc (fun h => nomatch h)
      ⟨hj, by rw [hsum, Data.partialSum], hk⟩
    simpa using h
  | store j sum hpc hj =>
    rw [hpc] at hrow
    obtain ⟨hjn, hsum, hk⟩ := hrow
    have hend : j = D.n := Nat.le_antisymm hjn hj
    refine hi.advance hpc (fun h => nomatch h) ⟨?_, by rw [hk]⟩
    rw [hsum, hend, Data.product]

theorem Inv.idle {D : Data ν} {s : State ν} (hi : Inv D s) {i : Nat} (hp : s.main = .create i) :
    s.thread i = .idle := by
  rw [hi.created, hp]
  exact Nat.le_refl i

/-- The thread of row i starts with an empty sum. -/
theorem Inv.create {D : Data ν} {s : State ν} (hi : Inv D s) {i : Nat} (hp : s.main = .create i)
    (him : i < D.m) :
    Inv D { s with main := .create (i + 1), thread := Function.update s.thread i (.loop 0 0) } := by
  have hk := hi.rows i
  rw [hi.idle hp] at hk
  refine ⟨fun u => ?_, him, fun u => ?_, fun u h => absurd h (Nat.not_lt_zero u),
    fun u h => absurd h (Nat.not_lt_zero u), hi.silent⟩
  · by_cases hu : u = i
    · subst hu
      simpa using ⟨Nat.zero_le _, rfl, hk⟩
    · simpa [hu] using hi.rows u
  · have hc := hi.created u
    rw [hp] at hc
    simp only [MainPc.created] at hc ⊢
    by_cases hu : u = i
    · subst hu
      simp
    · rw [Function.update_of_ne hu, hc]
      omega

/-- main() goes on without touching anything but its own counters. -/
theorem Inv.goto {D : Data ν} {s : State ν} (hi : Inv D s) {pc : MainPc ν} (hpc : pc.Holds D)
    (hcreated : pc.created D = s.main.created D)
    (hjoined : ∀ i, i < pc.joined D → s.thread i = .returned)
    (hproduct : ∀ i, i < pc.multiplied D → s.result2 i = D.product i) :
    Inv D { s with main := pc } where
  rows := hi.rows
  main := hpc
  created := by
    rw [hcreated]
    exact hi.created
  joined := hjoined
  product := hproduct
  silent := hi.silent

theorem Inv.store {D : Data ν} {s : State ν} (hi : Inv D s) {i j : Nat} {sum : ν}
    (hp : s.main = .column i j sum) (hj : D.n ≤ j) :
    Inv D { s with main := .row (i + 1), result2 := Function.update s.result2 i sum } := by
  have hmain := hi.main
  have hproduct := hi.product
  have hjoined := hi.joined
  have hcreated := hi.created
  rw [hp] at hmain hproduct hjoined hcreated
  obtain ⟨him, hjn, hsum⟩ := hmain
  refine ⟨hi.rows, him, hcreated, hjoined, fun u hu => ?_, hi.silent⟩
  by_cases he : u = i
  · have hend : j = D.n := Nat.le_antisymm hjn hj
    simp [he, hsum, hend, Data.product]
  · have hlt : u < i := by
      simp only [MainPc.multiplied] at hu
      omega
    simpa [he] using hproduct u hlt

/-- Two finished rows never differ. -/
theorem Inv.same {D : Data ν} {s : State ν} (hi : Inv D s) {i : Nat}
    (hjoined : i < s.main.joined D) (hproduct : i < s.main.multiplied D) :
    s.result1 i = s.result2 i := by
  have hrow := hi.rows i
  rw [hi.joined i hjoined] at hrow
  exact hrow.1.trans (hi.product i hproduct).symm

theorem Inv.mainMove {D : Data ν} {s s' : State ν} (hi : Inv D s) (hm : MainMove D s s') :
    Inv D s' := by
  have hmain := hi.main
  have hjoined := hi.joined
  have hproduct := hi.product
  -- a loop is left with its counter at the bound
  have hend : ∀ i, i ≤ D.m → D.m ≤ i → i = D.m := fun _ hle hge => Nat.le_antisymm hle hge
  cases hm with
  | create i hpc him => exact hi.create hpc him
  | created i hpc him =>
    rw [hpc] at hmain hjoined
    refine hi.goto (Nat.zero_le _) ?_ hjoined (fun u h => absurd h (Nat.not_lt_zero u))
    rw [hpc]
    exact (hend i hmain him).symm
  | join i hpc him hret =>
    rw [hpc] at hjoined
    refine hi.goto him (by rw [hpc]; rfl) (fun u hu => ?_)
      (fun u h => absurd h (Nat.not_lt_zero u))
    rcases Nat.lt_succ_iff_lt_or_eq.mp hu with hlt | rfl
    · exact hjoined u hlt
    · exact hret
  | joined i hpc him =>
    rw [hpc] at hmain hjoined
    refine hi.goto (Nat.zero_le _) (by rw [hpc]; rfl) (fun u hu => ?_)
      (fun u h => absurd h (Nat.not_lt_zero u))
    exact hjoined u (hend i hmain him ▸ hu)
  | enter i hpc him =>
    rw [hpc] at hjoined hproduct
    exact hi.goto ⟨him, Nat.zero_le _, rfl⟩ (by rw [hpc]; rfl) hjoined hproduct
  | multiplied i hpc him =>
    rw [hpc] at hmain hjoined hproduct
    refine hi.goto (Nat.zero_le _) (by rw [hpc]; rfl) hjoined (fun u hu => ?_)
    exact hproduct u (hend i hmain him ▸ hu)
  | add i j sum hpc hj =>
    rw [hpc] at hmain hjoined hproduct
    obtain ⟨him, -, hsum⟩ := hmain
    exact hi.goto ⟨him, hj, by rw [hsum, Data.partialSum]⟩ (by rw [hpc]; rfl) hjoined hproduct
  | store i j sum hpc hj => exact hi.store hpc hj
  | compare i hpc him =>
    have hsame : s.result1 i = s.result2 i :=
      hi.same (by rw [hpc]; exact him) (by rw [hpc]; exact him)
    rw [hpc] at hjoined hproduct
    simp only [hsame, ne_eq, not_true_eq_false, if_false]
    exact hi.goto him (by rw [hpc]; rfl) hjoined hproduct
  | compared i hpc him =>
    rw [hpc] at hjoined hproduct
    exact hi.goto trivial (by rw [hpc]; rfl) hjoined hproduct

theorem Inv.step {D : Data ν} {s s' : State ν} {l : Label} (hi : Inv D s)
    (hs : step D s l = some s') : Inv D s' := by
  cases l with
  | main => exact hi.mainMove (mainMove_of_step hs)
  | thread i => exact hi.thread (threadMove_of_step hs)

theorem inv_of_reachable {D : Data ν} {s : State ν} (hr : (machine D).Reachable s) : Inv D s :=
  hr.invariant (Inv.start D) (fun _ _ _ hi hs => hi.step hs)

/-- The steps a row thread still has before it. -/
def RowThread.left (n : Nat) : RowThread ν → Nat
  | .idle => n + 1
  | .loop j _ => n - j + 1
  | .returned => 0

/-- The steps main() still has before it: a loop of k rounds takes one more for its last test,
and a row of the sequential product its columns, their last test and that of the row. -/
def MainPc.left (D : Data ν) : MainPc ν → Nat
  | .create i => (D.m - i + 1) + (D.m + 1) + (D.m * (D.n + 2) + 1) + (D.m + 1)
  | .join i => (D.m - i + 1) + (D.m * (D.n + 2) + 1) + (D.m + 1)
  | .row i => ((D.m - i) * (D.n + 2) + 1) + (D.m + 1)
  | .column i j _ => (D.n - j + 1) + ((D.m - (i + 1)) * (D.n + 2) + 1) + (D.m + 1)
  | .compare i => D.m - i + 1
  | .returned => 0

def State.left (D : Data ν) (s : State ν) : Nat :=
  s.main.left D + total (RowThread.left D.n) (fun i : Fin D.m => s.thread i)

/-- There is no thread but those of the rows. -/
theorem Inv.lt_of_ne_idle {D : Data ν} {s : State ν} (hi : Inv D s) {i : Nat}
    (hp : s.thread i ≠ .idle) : i < D.m := by
  have hc : i < s.main.created D := Nat.lt_of_not_le (fun h => hp ((hi.created i).mpr h))
  exact Nat.lt_of_lt_of_le hc hi.main.created_le

/-- Only row i changes. -/
theorem total_thread {n m i : Nat} (f : Nat → RowThread ν) (x : RowThread ν) (him : i < m) :
    total (RowThread.left n) (fun u : Fin m => Function.update f i x u) + (f i).left n =
      total (RowThread.left n) (fun u : Fin m => f u) + x.left n := by
  have h := total_exchange (RowThread.left n) (f := fun u : Fin m => f u)
    (g := fun u : Fin m => Function.update f i x u) ⟨i, him⟩ (fun u hu => by
      have hne : u.val ≠ i := fun he => hu (Fin.ext he)
      simp only [Function.update_of_ne hne])
  simpa using h

theorem ThreadMove.left_lt {D : Data ν} {s s' : State ν} (hi : Inv D s) {i : Nat}
    (hm : ThreadMove D s i s') : s'.left D < s.left D := by
  cases hm with
  | add j sum hpc hj =>
    have him : i < D.m := hi.lt_of_ne_idle (by rw [hpc]; exact fun h => nomatch h)
    have ht := total_thread (n := D.n) s.thread
      (.loop (j + 1) (sum + D.matrix i j * D.vector j)) him
    simp only [hpc, RowThread.left] at ht
    simp only [State.left]
    omega
  | store j sum hpc hj =>
    have him : i < D.m := hi.lt_of_ne_idle (by rw [hpc]; exact fun h => nomatch h)
    have ht := total_thread (n := D.n) s.thread .returned him
    simp only [hpc, RowThread.left] at ht
    simp only [State.left]
    omega

/-- main() goes on and no thread changes the steps it has left. -/
theorem left_lt_of_main {D : Data ν} {s s' : State ν} (hmain : s'.main.left D < s.main.left D)
    (hthread : s'.thread = s.thread) : s'.left D < s.left D := by
  rw [State.left, State.left, hthread]
  exact Nat.add_lt_add_right hmain _

theorem MainMove.left_lt {D : Data ν} {s s' : State ν} (hi : Inv D s) (hm : MainMove D s s') :
    s'.left D < s.left D := by
  cases hm with
  | create i hpc him =>
    -- creating the thread does not take one of its own steps
    have ht := total_thread (n := D.n) s.thread (.loop 0 0) him
    simp only [hi.idle hpc, RowThread.left] at ht
    simp only [State.left, hpc, MainPc.left]
    omega
  | created i hpc him =>
    refine left_lt_of_main ?_ rfl
    simp only [hpc, MainPc.left]
    omega
  | join i hpc him hret =>
    refine left_lt_of_main ?_ rfl
    simp only [hpc, MainPc.left]
    omega
  | joined i hpc him =>
    refine left_lt_of_main ?_ rfl
    simp only [hpc, MainPc.left, Nat.sub_zero]
    omega
  | enter i hpc him =>
    refine left_lt_of_main ?_ rfl
    have hsucc : D.m - i = D.m - (i + 1) + 1 := by omega
    simp only [hpc, MainPc.left, hsucc, Nat.succ_mul]
    omega
  | multiplied i hpc him =>
    refine left_lt_of_main ?_ rfl
    simp only [hpc, MainPc.left]
    omega
  | add i j sum hpc hj =>
    refine left_lt_of_main ?_ rfl
    simp only [hpc, MainPc.left]
    omega
  | store i j sum hpc hj =>
    refine left_lt_of_main ?_ rfl
    simp only [hpc, MainPc.left]
    omega
  | compare i hpc him =>
    refine left_lt_of_main ?_ rfl
    simp only [hpc, MainPc.left]
    omega
  | compared i hpc him =>
    refine left_lt_of_main ?_ rfl
    simp only [hpc, MainPc.left]
    omega

theorem consumes_left (D : Data ν) :
    (machine D).Consumes (fun _ => true) (State.left D) where
  spend s l s' hr hs _ := by
    cases l with
    | main => exact (mainMove_of_step hs).left_lt (inv_of_reachable hr)
    | thread i => exact (threadMove_of_step hs).left_lt (inv_of_reachable hr)
  keep _ _ _ _ _ h := by cases h

/-- main() waits for nothing but a thread that can itself go on. -/
theorem exists_step {D : Data ν} {s : State ν} (hi : Inv D s) (hne : s.main ≠ .returned) :
    ∃ l s', step D s l = some s' := by
  cases hp : s.main with
  | join i =>
    by_cases him : i < D.m
    · have hrow := hi.created i
      rw [hp] at hrow
      cases ht : s.thread i with
      | idle => exact absurd (hrow.mp ht) (Nat.not_le_of_lt him)
      | loop j sum =>
        refine ⟨.thread i, ?_⟩
        by_cases hj : j < D.n <;> simp [step, threadStep, ht, hj]
      | returned => exact ⟨.main, by simp [step, mainStep, hp, him, ht]⟩
    · exact ⟨.main, by simp [step, mainStep, hp, him]⟩
  | create i =>
    refine ⟨.main, ?_⟩
    by_cases him : i < D.m <;> simp [step, mainStep, hp, him]
  | row i => exact ⟨.main, by simp [step, mainStep, hp]⟩
  | column i j sum =>
    refine ⟨.main, ?_⟩
    by_cases hj : j < D.n <;> simp [step, mainStep, hp, hj]
  | compare i =>
    refine ⟨.main, ?_⟩
    by_cases him : i < D.m <;> simp [step, mainStep, hp, him]
  | returned => exact absurd hp hne

/-- Every schedule can be completed. -/
theorem exists_returned {D : Data ν} {s : State ν} (hr : (machine D).Reachable s) :
    ∃ s', (machine D).Reachable s' ∧ s'.main = .returned := by
  obtain ⟨tr, s', hrun, hrest⟩ := (consumes_left D).exists_resting hr
  have hr' := hr.run hrun
  refine ⟨s', hr', ?_⟩
  by_contra hne
  obtain ⟨l, u, hs⟩ := exists_step (inv_of_reachable hr') hne
  cases hrest l u hs

/-- All threads are joined. -/
def MainPc.afterJoins : MainPc ν → Bool
  | .create _ | .join _ => false
  | _ => true

/-- Both products are complete. -/
def MainPc.afterProducts : MainPc ν → Bool
  | .compare _ | .returned => true
  | _ => false

/-- Whatever the schedule: after the joins every entry of result1 has been written exactly once,
it equals that of result2 as soon as that is there, and the comparison prints nothing. No
schedule is longer than the one measure, and one that cannot go on has returned from main(). -/
theorem products_agree (D : Data ν) (tr : List Label) (s : State ν)
    (hr : (machine D).run (start D) tr = some s) :
    (s.main.afterJoins = true → ∀ i, i < D.m → s.written i = 1) ∧
    (s.main.afterProducts = true → ∀ i, i < D.m → s.result1 i = s.result2 i) ∧
    s.cout = [] ∧
    tr.length ≤ (start D).left D ∧
    ((∀ l, step D s l = none) → s.main = .returned) := by
  have hi := inv_of_reachable ⟨tr, hr⟩
  refine ⟨fun hj i him => ?_, fun hc i him => ?_, hi.silent, ?_, fun hstuck => ?_⟩
  · have hjoined : s.main.joined D = D.m := by
      cases hp : s.main with
      | create => simp [hp, MainPc.afterJoins] at hj
      | join => simp [hp, MainPc.afterJoins] at hj
      | _ => rfl
    have hrow := hi.rows i
    rw [hi.joined i (hjoined ▸ him)] at hrow
    exact hrow.2
  · have hboth : s.main.joined D = D.m ∧ s.main.multiplied D = D.m := by
      cases hp : s.main with
      | compare => exact ⟨rfl, rfl⟩
      | returned => exact ⟨rfl, rfl⟩
      | _ => simp [hp, MainPc.afterProducts] at hc
    exact hi.same (hboth.1 ▸ him) (hboth.2 ▸ him)
  · have hle := (consumes_left D).countP_le hr
    simp only [List.countP_true] at hle
    exact Nat.le_of_add_right_le hle
  · by_contra hne
    obtain ⟨l, u, hs⟩ := exists_step hi hne
    rw [hstuck l] at hs
    cases hs

end

/-- Two rows whose sums leave the range of int. -/
def twoRows : Data Int32 where
  m := 2
  n := 2
  matrix i j := if i = j then 1073741824 else 99
  vector _ := 3
  uninit1 _ := 7
  uninit2 _ := 8

/-- Row 1 starts first, is overtaken by row 0 and stores last. -/
def overtaken : List Label :=
  [.main, .main, .main, .thread 1, .thread 1, .thread 0, .thread 0, .thread 0, .main, .thread 1,
    .main, .main, .main, .main, .main, .main, .main, .main, .main, .main, .main, .main, .main,
    .main]

def afterOvertaken : State Int32 :=
  ((machine twoRows).run (start twoRows) overtaken).getD (start twoRows)

theorem products_agree_overtaken :
    afterOvertaken.main = .returned ∧ (∀ i, i < 2 → afterOvertaken.written i = 1) ∧
      (∀ i, i < 2 → afterOvertaken.result1 i = afterOvertaken.result2 i) ∧
      afterOvertaken.cout = [] := by
  have hrun : (machine twoRows).run (start twoRows) overtaken = some afterOvertaken := rfl
  have hagree := products_agree twoRows overtaken afterOvertaken hrun
  exact ⟨rfl, hagree.1 rfl, hagree.2.1 rfl, hagree.2.2.1⟩

end LinuxPractice.MatrixVector
