import Mathlib.Data.UInt

namespace LinuxPractice.OnesComplement

/-- The upper half of a 32-bit sum added to the lower one. -/
def halves (s : Nat) : Nat := s / 65536 + s % 65536

/-- The sum of 16-bit words in 32 bits with its carries added back. -/
def fold (s : Nat) : Nat := (halves s + halves s / 65536) % 65536

theorem fold_le (s : Nat) : fold s ≤ 65535 := by
  unfold fold
  omega

theorem halves_spec (s : Nat) : s = halves s + 65535 * (s / 65536) := by
  unfold halves
  omega

/-- There is at most one carry to add back. -/
theorem fold_cases {s : Nat} (hs : s < 2 ^ 32) :
    (halves s < 65536 ∧ fold s = halves s) ∨ (65536 ≤ halves s ∧ fold s + 65535 = halves s) := by
  have ht : halves s ≤ 131070 := by
    unfold halves
    omega
  by_cases h : halves s < 65536
  · have hc : halves s / 65536 = 0 := Nat.div_eq_of_lt h
    refine .inl ⟨h, ?_⟩
    rw [fold, hc, Nat.add_zero, Nat.mod_eq_of_lt h]
  · have hc : halves s / 65536 = 1 := by omega
    refine .inr ⟨Nat.le_of_not_lt h, ?_⟩
    rw [fold, hc]
    omega

/-- Folding takes away a multiple of 65535. -/
theorem exists_fold {s : Nat} (hs : s < 2 ^ 32) : ∃ q, s = fold s + 65535 * q := by
  have hspec := halves_spec s
  rcases fold_cases hs with ⟨-, hf⟩ | ⟨-, hf⟩
  · exact ⟨s / 65536, by omega⟩
  · exact ⟨s / 65536 + 1, by omega⟩

/-- Of the two zeros of the representation the positive one only comes from zero. -/
theorem fold_eq_zero {s : Nat} (hs : s < 2 ^ 32) : fold s = 0 ↔ s = 0 := by
  constructor
  · intro h
    rcases fold_cases hs with ⟨-, hf⟩ | ⟨hge, hf⟩
    · unfold halves at hf
      omega
    · omega
  · rintro rfl
    rfl

/-- A folded sum is known by its residue and by whether it is zero. -/
theorem eq_fold {s r k m : Nat} (hs : s < 2 ^ 32) (hr : r ≤ 65535)
    (hmod : r + 65535 * k = s + 65535 * m) (hzero : r = 0 ↔ s = 0) : fold s = r := by
  obtain ⟨q, hq⟩ := exists_fold hs
  have hle := fold_le s
  have hz := fold_eq_zero hs
  omega

end LinuxPractice.OnesComplement
