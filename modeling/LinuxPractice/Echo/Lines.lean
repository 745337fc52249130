import Mathlib.Data.List.TakeWhile
import Mathlib.Data.UInt

namespace LinuxPractice.Echo

abbrev Byte := UInt8

def nul : Byte := 0

def newline : Byte := 10

def MAXLINE : Nat := 4096

/-- The bytes strlen counts and fputs prints. -/
def cstr (xs : List Byte) : List Byte := xs.takeWhile (· != nul)

/-- At most n bytes, up to and with the first newline, and what comes after them. -/
def takeLine : Nat → List Byte → List Byte × List Byte
  | 0, xs => ([], xs)
  | _ + 1, [] => ([], [])
  | n + 1, x :: xs =>
    if x = newline then ([x], xs)
    else
      let r := takeLine n xs
      (x :: r.1, r.2)

/-- fgets on what a stream has left: the bytes it stores before the NUL it adds. -/
def fgets (size : Nat) (input : List Byte) : Option (List Byte × List Byte) :=
  if input = [] then none else some (takeLine (size - 1) input)

theorem takeLine_append (n : Nat) (xs : List Byte) : (takeLine n xs).1 ++ (takeLine n xs).2 = xs := by
  induction n generalizing xs with
  | zero => rfl
  | succ n ih =>
    cases xs with
    | nil => rfl
    | cons x xs =>
      simp only [takeLine]
      split
      · rfl
      · simp [ih xs]

theorem takeLine_length_le (n : Nat) (xs : List Byte) : (takeLine n xs).1.length ≤ n := by
  induction n generalizing xs with
  | zero => simp [takeLine]
  | succ n ih =>
    cases xs with
    | nil => simp [takeLine]
    | cons x xs =>
      simp only [takeLine]
      split
      · simp
      · simpa using ih xs

/-- Nothing follows the newline in a line. -/
theorem takeLine_newline_last {n : Nat} {xs a b : List Byte}
    (h : (takeLine n xs).1 = a ++ newline :: b) : b = [] := by
  induction n generalizing xs a with
  | zero => simp [takeLine] at h
  | succ n ih =>
    cases xs with
    | nil => simp [takeLine] at h
    | cons x xs =>
      simp only [takeLine] at h
      split at h
      · cases a with
        | nil =>
          simp only [List.nil_append, List.cons.injEq] at h
          exact h.2.symm
        | cons y a => simp at h
      · rename_i hx
        cases a with
        | nil =>
          simp only [List.nil_append, List.cons.injEq] at h
          exact absurd h.1 hx
        | cons y a =>
          simp only [List.cons_append, List.cons.injEq] at h
          exact ih h.2

/-- A line without a newline that leaves room was cut off by the end of the input. -/
theorem takeLine_rest {n : Nat} {xs : List Byte} (hn : newline ∉ (takeLine n xs).1)
    (hl : (takeLine n xs).1.length < n) : (takeLine n xs).2 = [] := by
  induction n generalizing xs with
  | zero => simp at hl
  | succ n ih =>
    cases xs with
    | nil => rfl
    | cons x xs =>
      simp only [takeLine] at hn hl ⊢
      split at hn
      · rename_i hx
        simp [hx] at hn
      · rename_i hx
        simp only [hx, if_false, List.length_cons] at hl ⊢
        exact ih (fun h => hn (List.mem_cons_of_mem _ h)) (by omega)

/-- What Readline waits for: a newline or as many bytes as fit. -/
def Complete (xs : List Byte) : Prop := newline ∈ xs ∨ MAXLINE - 1 ≤ xs.length

/-- What fgets has put in sendline, with what it left of the input. -/
structure Chunk (line rest : List Byte) : Prop where
  nonempty : line ≠ []
  fits : line.length ≤ MAXLINE - 1
  newline_last : ∀ a b, line = a ++ newline :: b → b = []
  cut : ¬Complete line → rest = []

theorem fgets_eq_some {input line rest : List Byte} (h : fgets MAXLINE input = some (line, rest)) :
    line ++ rest = input ∧ Chunk line rest := by
  unfold fgets at h
  split at h
  · cases h
  · rename_i hne
    obtain ⟨h₁, h₂⟩ := Prod.mk.inj (Option.some.inj h)
    subst h₁
    subst h₂
    refine ⟨takeLine_append _ _, ?_, takeLine_length_le _ _, fun a b h => takeLine_newline_last h, ?_⟩
    · cases input with
      | nil => exact absurd rfl hne
      | cons x xs =>
        have hstep : (takeLine (MAXLINE - 1) (x :: xs)).1 ≠ [] := by
          simp only [MAXLINE, Nat.reduceSub, takeLine]
          split <;> simp
        exact hstep
    · intro hc
      simp only [Complete, not_or, Nat.not_le] at hc
      exact takeLine_rest hc.1 hc.2

theorem fgets_eq_none {input : List Byte} (h : fgets MAXLINE input = none) : input = [] := by
  unfold fgets at h
  split at h
  · rename_i hn
    exact hn
  · cases h

theorem cstr_append_drop (xs : List Byte) : ∃ r, xs = cstr xs ++ r :=
  ⟨xs.dropWhile (· != nul), (List.takeWhile_append_dropWhile).symm⟩

theorem nul_not_mem_cstr (xs : List Byte) : nul ∉ cstr xs := by
  intro h
  have hx := List.mem_takeWhile_imp h
  simp at hx

theorem cstr_eq_self {xs : List Byte} (h : nul ∉ xs) : cstr xs = xs := by
  apply List.takeWhile_eq_self_iff.mpr
  intro x hx
  have hne : x ≠ nul := fun he => h (he ▸ hx)
  simpa using hne

/-- Once as much of a line has come back as Readline waits for, all of it has, and
the line was sent whole. -/
theorem Chunk.all_back {line rest got later : List Byte} (hc : Chunk line rest)
    (hsent : got ++ later = cstr line) (hgot : Complete got) :
    got = line ∧ later = [] ∧ nul ∉ line := by
  obtain ⟨r, hr⟩ := cstr_append_drop line
  have hline : line = got ++ (later ++ r) := by rw [← List.append_assoc, hsent, ← hr]
  have hnil : later ++ r = [] := by
    rcases hgot with hn | hlen
    · obtain ⟨a, b, hab⟩ := List.append_of_mem hn
      have hsplit : line = a ++ newline :: (b ++ (later ++ r)) := by
        rw [hline, hab]
        simp
      exact (List.append_eq_nil_iff.mp (hc.newline_last _ _ hsplit)).2
    · have hle := hc.fits
      have hsum := congrArg List.length hline
      rw [List.length_append] at hsum
      apply List.eq_nil_of_length_eq_zero
      omega
  obtain ⟨hlater, hr0⟩ := List.append_eq_nil_iff.mp hnil
  have hcut : cstr line = line := by
    rw [hr0, List.append_nil] at hr
    exact hr.symm
  refine ⟨?_, hlater, hcut ▸ nul_not_mem_cstr line⟩
  rw [hline, hnil, List.append_nil]

/-- The number of bytes after the last newline. -/
def unterminated (xs : List Byte) : Nat := (xs.reverse.takeWhile (· != newline)).length

/-- Inputs that fgets cuts into complete lines only and strlen does not shorten. -/
def Sendable (xs : List Byte) : Prop := nul ∉ xs ∧ unterminated xs % (MAXLINE - 1) = 0

instance (xs : List Byte) : Decidable (Sendable xs) := inferInstanceAs (Decidable (_ ∧ _))

theorem unterminated_append_of_not_mem (xs : List Byte) {ys : List Byte} (h : newline ∉ ys) :
    unterminated (xs ++ ys) = unterminated xs + ys.length := by
  have hall : ∀ y ∈ ys.reverse, (y != newline) = true := by
    intro y hy
    have hne : y ≠ newline := fun he => h (he ▸ List.mem_reverse.mp hy)
    simpa using hne
  rw [unterminated, List.reverse_append, List.takeWhile_append_of_pos hall, List.length_append,
    List.length_reverse, Nat.add_comm]
  rfl

theorem unterminated_append_newline (xs : List Byte) : unterminated (xs ++ [newline]) = 0 := by
  simp [unterminated]

theorem sendable_nil : Sendable [] := by decide

/-- Complete lines without a NUL can be sent one after the other. -/
theorem Sendable.append {xs line rest : List Byte} (hx : Sendable xs) (hc : Chunk line rest)
    (hn : nul ∉ line) (hl : Complete line) : Sendable (xs ++ line) := by
  refine ⟨by simp [hx.1, hn], ?_⟩
  by_cases hnew : newline ∈ line
  · obtain ⟨a, b, hab⟩ := List.append_of_mem hnew
    have hb := hc.newline_last a b hab
    rw [hab, hb, ← List.append_assoc, unterminated_append_newline, Nat.zero_mod]
  · rw [unterminated_append_of_not_mem xs hnew, Nat.add_mod, hx.2]
    have hlen : line.length = MAXLINE - 1 := by
      have hle := hc.fits
      have hge := hl.resolve_left hnew
      omega
    rw [hlen]
    rfl

/-- In an input that can be sent, every line is complete and comes without a NUL. -/
theorem Sendable.chunk {xs line rest : List Byte} (hx : Sendable xs) (hc : Chunk line rest)
    (hs : Sendable (xs ++ line ++ rest)) : nul ∉ line ∧ Complete line := by
  refine ⟨fun h => hs.1 (by simp [h]), ?_⟩
  by_contra hcut
  have hrest := hc.cut hcut
  simp only [Complete, not_or, Nat.not_le] at hcut
  have hpos := List.length_pos_of_ne_nil hc.nonempty
  have hmod := hs.2
  rw [hrest, List.append_nil, unterminated_append_of_not_mem xs hcut.1, Nat.add_mod, hx.2,
    Nat.zero_add, Nat.mod_mod, Nat.mod_eq_of_lt hcut.2] at hmod
  omega

end LinuxPractice.Echo
