import Mathlib.Data.UInt

namespace LinuxPractice.Decimal

/-- The bytes of a text in ASCII. -/
def ascii (s : String) : List UInt8 := s.toList.map Char.toUInt8

/-- The rendering of an unsigned number, of %u and %lu. -/
def ofNat (n : Nat) : List UInt8 := (Nat.toDigits 10 n).map Char.toUInt8

/-- The rendering of a signed number, of %d and %lld. -/
def ofInt : Int → List UInt8
  | .ofNat n => ofNat n
  | .negSucc n => 45 :: ofNat (n + 1)

def parseNat (xs : List UInt8) : Nat := xs.foldl (fun n b => 10 * n + (b.toNat - 48)) 0

def parseInt : List UInt8 → Int
  | [] => 0
  | b :: xs => if b = 45 then -(parseNat xs : Int) else parseNat (b :: xs)

def IsDigit (b : UInt8) : Prop := 48 ≤ b.toNat ∧ b.toNat ≤ 57

theorem digit_char {n : Nat} {c : Char} (h : c ∈ Nat.toDigits 10 n) :
    48 ≤ c.toNat ∧ c.toNat ≤ 57 := by
  have hd := Nat.isDigit_of_mem_toDigits (by decide) (by decide) h
  simp only [Char.isDigit, Bool.and_eq_true, decide_eq_true_eq] at hd
  exact ⟨hd.1, hd.2⟩

theorem toNat_toUInt8 {c : Char} (h : c.toNat ≤ 57) : c.toUInt8.toNat = c.toNat := by
  have hlt : c.toNat < 2 ^ 8 := by omega
  simp only [Char.toUInt8, Char.toNat] at hlt ⊢
  rw [UInt32.toNat_toUInt8, Nat.mod_eq_of_lt hlt]

theorem isDigit_of_mem {n : Nat} {b : UInt8} (h : b ∈ ofNat n) : IsDigit b := by
  obtain ⟨c, hc, rfl⟩ := List.mem_map.mp h
  have hd := digit_char hc
  rw [IsDigit, toNat_toUInt8 hd.2]
  exact hd

theorem parseNat_ofNat (n : Nat) : parseNat (ofNat n) = n := by
  have hfold : ∀ (cs : List Char) (k : Nat), (∀ c ∈ cs, c.toNat ≤ 57) →
      (cs.map Char.toUInt8).foldl (fun n b => 10 * n + (b.toNat - 48)) k =
        Nat.ofDigitChars 10 cs k := by
    intro cs
    induction cs with
    | nil => simp [Nat.ofDigitChars_nil]
    | cons c cs ih =>
      intro k h
      rw [Nat.ofDigitChars_cons, List.map_cons, List.foldl_cons, toNat_toUInt8 (h c (by simp))]
      exact ih _ (fun d hd => h d (List.mem_cons_of_mem c hd))
  rw [parseNat, ofNat, hfold _ 0 (fun c hc => (digit_char hc).2)]
  exact Nat.ofDigitChars_ten_toDigits

theorem parseInt_ofInt (i : Int) : parseInt (ofInt i) = i := by
  cases i with
  | ofNat n =>
    have hn := parseNat_ofNat n
    simp only [ofInt]
    cases h : ofNat n with
    | nil =>
      rw [h] at hn
      have hz : n = 0 := by simpa [parseNat] using hn.symm
      simp [parseInt, hz]
    | cons b xs =>
      have hb : b ≠ 45 := by
        have hd := isDigit_of_mem (n := n) (b := b) (by simp [h])
        intro he
        subst he
        exact absurd hd.1 (by decide)
      rw [h] at hn
      simp [parseInt, hb, hn]
  | negSucc n =>
    simp only [ofInt, parseInt, if_true, parseNat_ofNat]
    rfl

/-- No rendering contains a byte below the signs and digits. -/
theorem not_mem_ofNat {n : Nat} {b : UInt8} (h : b.toNat < 45) : b ∉ ofNat n := by
  intro hm
  have hd := (isDigit_of_mem hm).1
  omega

theorem not_mem_ofInt {i : Int} {b : UInt8} (h : b.toNat < 45) : b ∉ ofInt i := by
  cases i with
  | ofNat n => exact not_mem_ofNat h
  | negSucc n =>
    simp only [ofInt, List.mem_cons, not_or]
    refine ⟨?_, not_mem_ofNat h⟩
    intro hb
    subst hb
    exact absurd h (by decide)

end LinuxPractice.Decimal
