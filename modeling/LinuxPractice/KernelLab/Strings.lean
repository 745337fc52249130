import LinuxPractice.Echo.Lines
import Mathlib.Data.List.DropRight

namespace LinuxPractice.KernelLab

open Echo

def MESSAGE_BUFFER_SIZE : Nat := 256

/-- isspace of the kernel: also the no-break space of Latin-1. -/
def isspace (b : Byte) : Bool := (9 ≤ b && b ≤ 13) || b == 32 || b == 160

/-- A char array of n bytes. -/
structure CharArray (n : Nat) where
  bytes : List Byte
  size : bytes.length = n
  deriving DecidableEq

/-- The string a char array holds. -/
def CharArray.text {n : Nat} (a : CharArray n) : List Byte := cstr a.bytes

/-- strscpy(dest, src, sizeof(dest)): as much of src as leaves room for the NUL. -/
def strscpy {n : Nat} (dest : CharArray n) (src : List Byte) : CharArray n where
  bytes :=
    let copied := (cstr src).take (n - 1)
    (copied ++ nul :: dest.bytes.drop (copied.length + 1)).take n
  size := by
    have hd := dest.size
    simp only [List.length_take, List.length_append, List.length_cons, List.length_drop]
    omega

/-- strim(s): the buffer with a NUL behind the last character that is no whitespace, and
where in it the returned pointer points. -/
def strim (s : List Byte) : List Byte × Nat :=
  if cstr s = [] then (s, 0)
  else
    let kept := (cstr s).rdropWhile isspace
    (s.set kept.length nul, (kept.takeWhile isspace).length)

/-- copy_from_user of n bytes; none when it leaves bytes uncopied. -/
def copyFromUser (user : List Byte) (n : Nat) (fault : Bool) : Option (List Byte) :=
  if fault || user.length < n then none else some (user.take n)

def copyLength (count : Nat) : Nat := min count (MESSAGE_BUFFER_SIZE - 1)

/-- The local buffer of kernel_lab_write after strim(buffer), whose result is dropped. -/
def prepared (copied : List Byte) : List Byte := (strim (copied ++ [nul])).1

/-- What a write of count bytes of user memory is meant to store. -/
def normal (user : List Byte) (count : Nat) : List Byte :=
  (cstr (user.take (copyLength count))).rdropWhile isspace

theorem cstr_append_nul {xs : List Byte} (h : nul ∉ xs) (ys : List Byte) :
    cstr (xs ++ nul :: ys) = xs := by
  have hx : ∀ x ∈ xs, (x != nul) = true := by
    intro x hx
    have hne : x ≠ nul := fun he => h (he ▸ hx)
    simpa using hne
  rw [cstr, List.takeWhile_append_of_pos hx]
  simp

theorem cstr_append_singleton (xs : List Byte) : cstr (xs ++ [nul]) = cstr xs := by
  induction xs with
  | nil => rfl
  | cons x xs ih =>
    by_cases hx : x = nul
    · simp [cstr, hx]
    · simpa [cstr, hx] using ih

theorem nul_not_mem_rdropWhile {p : Byte → Bool} {xs : List Byte} (h : nul ∉ xs) :
    nul ∉ xs.rdropWhile p := fun hm => h (List.rdropWhile_prefix p xs |>.subset hm)

/-- The bytes in front of a written NUL are the string, if there is no NUL among them. -/
theorem cstr_set_nul {s pre : List Byte} (hp : pre <+: s) (hlt : pre.length < s.length)
    (hn : nul ∉ pre) : cstr (s.set pre.length nul) = pre := by
  obtain ⟨rest, rfl⟩ := hp
  cases rest with
  | nil => simp at hlt
  | cons x rest =>
    rw [List.set_append_right _ _ (le_refl _), Nat.sub_self, List.set_cons_zero]
    exact cstr_append_nul hn rest

/-- strim cuts the string of its buffer behind the last character that is no whitespace. -/
theorem cstr_prepared (copied : List Byte) :
    cstr (prepared copied) = (cstr copied).rdropWhile isspace := by
  have hstr := cstr_append_singleton copied
  simp only [prepared, strim, hstr]
  split
  · rename_i he
    rw [hstr, he]
    rfl
  · obtain ⟨r, hr⟩ := cstr_append_drop copied
    have hpre : (cstr copied).rdropWhile isspace <+: copied ++ [nul] := by
      refine (List.rdropWhile_prefix isspace (cstr copied)).trans ?_
      refine List.IsPrefix.trans ?_ (List.prefix_append copied [nul])
      exact ⟨r, hr.symm⟩
    have hlen : ((cstr copied).rdropWhile isspace).length < (copied ++ [nul]).length := by
      have h := (List.rdropWhile_prefix isspace (cstr copied)).length_le
      have hc := congrArg List.length hr
      simp only [List.length_append, List.length_singleton] at hc ⊢
      omega
    exact cstr_set_nul hpre hlen (nul_not_mem_rdropWhile (nul_not_mem_cstr copied))

theorem text_strscpy {n : Nat} (hn : 0 < n) (dest : CharArray n) (src : List Byte) :
    (strscpy dest src).text = (cstr src).take (n - 1) := by
  have hnul : nul ∉ (cstr src).take (n - 1) :=
    fun hm => nul_not_mem_cstr src (List.mem_of_mem_take hm)
  have hlen : ((cstr src).take (n - 1)).length < n := by
    simp only [List.length_take]
    omega
  simp only [CharArray.text, strscpy]
  generalize (cstr src).take (n - 1) = copied at hnul hlen ⊢
  obtain ⟨k, rfl⟩ : ∃ k, n = copied.length + (k + 1) := ⟨n - copied.length - 1, by omega⟩
  rw [List.take_length_add_append, List.take_succ_cons]
  exact cstr_append_nul hnul _

/-- strscpy always leaves a NUL inside its destination. -/
theorem nul_mem_strscpy {n : Nat} (hn : 0 < n) (dest : CharArray n) (src : List Byte) :
    nul ∈ (strscpy dest src).bytes := by
  have hlen : ((cstr src).take (n - 1)).length < n := by
    simp only [List.length_take]
    omega
  simp only [strscpy]
  generalize (cstr src).take (n - 1) = copied at hlen ⊢
  obtain ⟨k, rfl⟩ : ∃ k, n = copied.length + (k + 1) := ⟨n - copied.length - 1, by omega⟩
  rw [List.take_length_add_append, List.take_succ_cons]
  simp

theorem length_cstr_le (xs : List Byte) : (cstr xs).length ≤ xs.length :=
  (List.takeWhile_prefix _).length_le

theorem length_normal_le (user : List Byte) (count : Nat) :
    (normal user count).length ≤ MESSAGE_BUFFER_SIZE - 1 := by
  have h1 := (List.rdropWhile_prefix isspace (cstr (user.take (copyLength count)))).length_le
  have h2 := length_cstr_le (user.take (copyLength count))
  have h3 : (user.take (copyLength count)).length ≤ copyLength count := by
    simp
  have h4 : copyLength count ≤ MESSAGE_BUFFER_SIZE - 1 := Nat.min_le_right _ _
  unfold normal
  omega

end LinuxPractice.KernelLab
