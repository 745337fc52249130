import LinuxPractice.Concurrency.MatrixVector.Agreement

namespace LinuxPractice.MatrixVector

/-- The matrix and the vector as main() fills them, one rand() after the other. -/
def fill (m n : Nat) (rand : Nat → Nat) (uninit1 uninit2 : Nat → Int32) : Data Int32 where
  m := m
  n := n
  matrix i j := Int32.ofNat (rand (i * n + j) % 100)
  vector j := Int32.ofNat (rand (m * n + j) % 100)
  uninit1 := uninit1
  uninit2 := uninit2

structure Filled (D : Data Int32) : Prop where
  matrix : ∀ i j, i < D.m → j < D.n → 0 ≤ (D.matrix i j).toInt ∧ (D.matrix i j).toInt ≤ 99
  vector : ∀ j, j < D.n → 0 ≤ (D.vector j).toInt ∧ (D.vector j).toInt ≤ 99

theorem toInt_rand (r : Nat) : (Int32.ofNat (r % 100)).toInt = (r % 100 : Nat) :=
  Int32.toInt_ofNat_of_lt (by omega)

theorem filled_fill (m n : Nat) (rand : Nat → Nat) (uninit1 uninit2 : Nat → Int32) :
    Filled (fill m n rand uninit1 uninit2) where
  matrix i j _ _ := by
    simp only [fill, toInt_rand]
    omega
  vector j _ := by
    simp only [fill, toInt_rand]
    omega

/-- The same data in the integers. -/
def exact (D : Data Int32) : Data Int where
  m := D.m
  n := D.n
  matrix i j := (D.matrix i j).toInt
  vector j := (D.vector j).toInt
  uninit1 i := (D.uninit1 i).toInt
  uninit2 i := (D.uninit2 i).toInt

/-- The int sum is the exact one reduced to 32 bits. -/
theorem toInt_partialSum (D : Data Int32) (i j : Nat) :
    (D.partialSum i j).toInt = ((exact D).partialSum i j).bmod (2 ^ 32) := by
  induction j with
  | zero => rfl
  | succ j ih =>
    rw [Data.partialSum, Data.partialSum, Int32.toInt_add, Int32.toInt_mul, ih]
    simp only [exact, Int.bmod_add_bmod, Int.add_bmod_bmod]

/-- One product is between 0 and 99 * 99. -/
theorem Filled.product {D : Data Int32} (hf : Filled D) {i j : Nat} (hi : i < D.m) (hj : j < D.n) :
    0 ≤ (exact D).matrix i j * (exact D).vector j ∧
      (exact D).matrix i j * (exact D).vector j ≤ 9801 := by
  obtain ⟨hm, hm'⟩ := hf.matrix i j hi hj
  obtain ⟨hv, hv'⟩ := hf.vector j hj
  refine ⟨Int.mul_nonneg hm hv, ?_⟩
  calc (D.matrix i j).toInt * (D.vector j).toInt
      ≤ 99 * 99 := Int.mul_le_mul hm' hv' hv (by decide)
    _ = 9801 := by decide

theorem Filled.partialSum_mono {D : Data Int32} (hf : Filled D) {i : Nat} (hi : i < D.m)
    {j k : Nat} (hjk : j ≤ k) (hk : k ≤ D.n) :
    (exact D).partialSum i j ≤ (exact D).partialSum i k := by
  induction k with
  | zero =>
    rw [Nat.le_zero.mp hjk]
  | succ k ih =>
    rcases Nat.lt_or_eq_of_le hjk with hlt | rfl
    · have hle := ih (Nat.le_of_lt_succ hlt) (Nat.le_of_succ_le hk)
      have hstep := (hf.product hi hk).1
      rw [Data.partialSum]
      omega
    · exact Int.le_refl _

theorem Filled.partialSum_le {D : Data Int32} (hf : Filled D) {i : Nat} (hi : i < D.m) {j : Nat}
    (hj : j ≤ D.n) : (exact D).partialSum i j ≤ 9801 * (j : Int) := by
  induction j with
  | zero => exact Int.le_refl _
  | succ j ih =>
    have hle := ih (Nat.le_of_succ_le hj)
    have hstep := (hf.product hi hj).2
    rw [Data.partialSum]
    omega

theorem Filled.partialSum_nonneg {D : Data Int32} (hf : Filled D) {i : Nat} (hi : i < D.m)
    {j : Nat} (hj : j ≤ D.n) : 0 ≤ (exact D).partialSum i j :=
  hf.partialSum_mono hi (Nat.zero_le j) hj

/-- A sum is exact as long as the whole row fits int. -/
theorem Filled.toInt_partialSum_eq {D : Data Int32} (hf : Filled D) {i : Nat} (hi : i < D.m)
    (hfits : (exact D).product i ≤ 2 ^ 31 - 1) {j : Nat} (hj : j ≤ D.n) :
    (D.partialSum i j).toInt = (exact D).partialSum i j := by
  have hnonneg := hf.partialSum_nonneg hi hj
  have hle : (exact D).partialSum i j ≤ 2 ^ 31 - 1 :=
    Int.le_trans (hf.partialSum_mono hi hj (Nat.le_refl D.n)) hfits
  rw [toInt_partialSum]
  apply Int.bmod_eq_of_le
  · omega
  · omega

/-- No sum has left the range of int: every value of it in a row thread and in the sequential
product is the exact one, and so are the results. -/
structure SumsExact (D : Data Int32) (s : State Int32) : Prop where
  threaded : ∀ i j sum, s.thread i = .loop j sum → sum.toInt = (exact D).partialSum i j
  sequential : ∀ i j sum, s.main = .column i j sum → sum.toInt = (exact D).partialSum i j
  result1 : ∀ i, s.thread i = .returned → (s.result1 i).toInt = (exact D).product i
  result2 : ∀ i, i < s.main.multiplied D → (s.result2 i).toInt = (exact D).product i

/-- Rows that fit int are summed exactly by every schedule. -/
theorem Filled.sumsExact {D : Data Int32} (hf : Filled D)
    (hfits : ∀ i, i < D.m → (exact D).product i ≤ 2 ^ 31 - 1) {s : State Int32} (hi : Inv D s) :
    SumsExact D s where
  threaded i j sum hp := by
    have him : i < D.m := hi.lt_of_ne_idle (by rw [hp]; exact fun h => nomatch h)
    have hrow := hi.rows i
    rw [hp] at hrow
    obtain ⟨hj, hsum, -⟩ := hrow
    rw [hsum]
    exact hf.toInt_partialSum_eq him (hfits i him) hj
  sequential i j sum hp := by
    have hmain := hi.main
    rw [hp] at hmain
    obtain ⟨him, hj, hsum⟩ := hmain
    rw [hsum]
    exact hf.toInt_partialSum_eq him (hfits i him) hj
  result1 i hp := by
    have him : i < D.m := hi.lt_of_ne_idle (by rw [hp]; exact fun h => nomatch h)
    have hrow := hi.rows i
    rw [hp] at hrow
    rw [hrow.1]
    exact hf.toInt_partialSum_eq him (hfits i him) (Nat.le_refl D.n)
  result2 i hlt := by
    have him : i < D.m := Nat.lt_of_lt_of_le hlt hi.main.multiplied_le
    rw [hi.product i hlt]
    exact hf.toInt_partialSum_eq him (hfits i him) (Nat.le_refl D.n)

/-- A row that was summed exactly fits int, since every schedule can be completed. -/
theorem fits_of_sumsExact {D : Data Int32}
    (h : ∀ s, (machine D).Reachable s → SumsExact D s) {i : Nat} (him : i < D.m) :
    (exact D).product i ≤ 2 ^ 31 - 1 := by
  obtain ⟨s, hr, hret⟩ := exists_returned (Machine.Reachable.start (machine D))
  have hjoined : i < s.main.joined D := by
    rw [hret]
    exact him
  have hexact := (h s hr).result1 i ((inv_of_reachable hr).joined i hjoined)
  have hlt := (s.result1 i).toInt_lt
  omega

/-- Every rand() % 100 gives 99. -/
def nines (m n : Nat) : Data Int32 := fill m n (fun _ => 99) (fun _ => 0) (fun _ => 0)

theorem filled_nines (m n : Nat) : Filled (nines m n) := filled_fill m n _ _ _

/-- Each column adds 99 * 99. -/
theorem partialSum_nines (m n i j : Nat) :
    (exact (nines m n)).partialSum i j = 9801 * (j : Int) := by
  induction j with
  | zero => rfl
  | succ j ih =>
    have hm : (exact (nines m n)).matrix i j = 99 := toInt_rand 99
    have hv : (exact (nines m n)).vector j = 99 := toInt_rand 99
    rw [Data.partialSum, ih, hm, hv]
    omega

theorem product_nines (m n i : Nat) : (exact (nines m n)).product i = 9801 * (n : Int) :=
  partialSum_nines m n i n

/-- With m rows of n columns every sum stays exact, in both products, under every schedule and for
all contents between 0 and 99, if and only if there is no row or n * 99 * 99 fits int; for given
contents it does so if and only if the product of each row fits int. -/
theorem sums_exact_iff (m n : Nat) :
    ((∀ D : Data Int32, D.m = m → D.n = n → Filled D →
        ∀ s, (machine D).Reachable s → SumsExact D s) ↔ m = 0 ∨ n ≤ 219108) ∧
    ∀ D : Data Int32, D.m = m → D.n = n → Filled D →
      ((∀ s, (machine D).Reachable s → SumsExact D s) ↔
        ∀ i, i < m → (exact D).product i ≤ 2 ^ 31 - 1) := by
  refine ⟨⟨fun h => ?_, fun hsmall D hm hn hf s hr => ?_⟩, fun D hm _ hf => ⟨fun h i him => ?_,
    fun hfits s hr => ?_⟩⟩
  · by_contra hlarge
    rw [not_or, Nat.not_le] at hlarge
    have hall := h (nines m n) rfl rfl (filled_nines m n)
    have hfits := fits_of_sumsExact hall (Nat.pos_of_ne_zero hlarge.1)
    rw [product_nines] at hfits
    omega
  · refine hf.sumsExact (fun i him => ?_) (inv_of_reachable hr)
    have hle : (exact D).product i ≤ 9801 * (D.n : Int) := hf.partialSum_le him (Nat.le_refl D.n)
    omega
  · exact fits_of_sumsExact h (hm ▸ him)
  · exact hf.sumsExact (fun i him => hfits i (hm ▸ him)) (inv_of_reachable hr)

/-- The longest row that is safe whatever it holds. -/
theorem sums_exact_longest :
    ∀ s, (machine (nines 3 219108)).Reachable s → SumsExact (nines 3 219108) s :=
  (sums_exact_iff 3 219108).1.mpr (.inr (Nat.le_refl _)) _ rfl rfl (filled_nines 3 219108)

/-- One row with one column more. -/
theorem sums_overflow :
    Filled (nines 1 219109) ∧
      ¬ ∀ s, (machine (nines 1 219109)).Reachable s → SumsExact (nines 1 219109) s := by
  refine ⟨filled_nines 1 219109, fun h => ?_⟩
  have hfits := fits_of_sumsExact h (Nat.zero_lt_one)
  rw [product_nines] at hfits
  exact absurd hfits (by decide)

end LinuxPractice.MatrixVector
