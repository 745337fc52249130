import Mathlib.Data.List.Basic
import Mathlib.Logic.Function.Basic

namespace LinuxPractice

/-- An array used in a circle: elements are put in at iput and taken out at iget. It cannot
be told full from empty, so it is never to be filled. -/
structure Ring (α : Type) (size : Nat) where
  slots : Nat → α
  iget : Nat
  iput : Nat
  get_lt : iget < size
  put_lt : iput < size

namespace Ring

variable {α : Type} {size : Nat}

/-- if (++i == size) i = 0 -/
def wrap (size i : Nat) : Nat := if i + 1 = size then 0 else i + 1

theorem wrap_lt {i : Nat} (h : i < size) : wrap size i < size := by
  unfold wrap
  split
  · omega
  · omega

def put (r : Ring α size) (x : α) : Ring α size where
  slots := Function.update r.slots r.iput x
  iget := r.iget
  iput := wrap size r.iput
  get_lt := r.get_lt
  put_lt := wrap_lt r.put_lt

def front (r : Ring α size) : α := r.slots r.iget

def advance (r : Ring α size) : Ring α size :=
  { r with iget := wrap size r.iget, get_lt := wrap_lt r.get_lt }

/-- How many elements lie between the two indices. -/
def count (r : Ring α size) : Nat :=
  if r.iget ≤ r.iput then r.iput - r.iget else r.iput + size - r.iget

/-- Where the j-th of them is. -/
def index (r : Ring α size) (j : Nat) : Nat :=
  if r.iget + j < size then r.iget + j else r.iget + j - size

def content (r : Ring α size) : List α := (List.range r.count).map fun j => r.slots (r.index j)

@[simp] theorem length_content (r : Ring α size) : r.content.length = r.count := by
  simp [content]

theorem count_eq_zero (r : Ring α size) : r.count = 0 ↔ r.iget = r.iput := by
  have hget := r.get_lt
  unfold count
  split
  · omega
  · omega

theorem content_eq_nil (r : Ring α size) : r.content = [] ↔ r.iget = r.iput := by
  rw [← List.length_eq_zero_iff, length_content, count_eq_zero]

theorem count_lt (r : Ring α size) : r.count < size := by
  have hget := r.get_lt
  have hput := r.put_lt
  unfold count
  split
  · omega
  · omega

/-- One more element, or none at all if it was the last that fits. -/
theorem count_put (r : Ring α size) (x : α) :
    (r.count + 1 < size ∧ (r.put x).count = r.count + 1) ∨
      (r.count + 1 = size ∧ (r.put x).iput = (r.put x).iget) := by
  have hget := r.get_lt
  have hput := r.put_lt
  simp only [count, put, wrap]
  split_ifs <;> omega

theorem put_full (r : Ring α size) (x : α) :
    (r.put x).iput = (r.put x).iget ↔ r.count + 1 = size := by
  rcases r.count_put x with ⟨hlt, hc⟩ | ⟨heq, hp⟩
  · refine ⟨fun h => ?_, fun h => absurd h (Nat.ne_of_lt hlt)⟩
    have hz := ((r.put x).count_eq_zero).mpr h.symm
    omega
  · exact ⟨fun _ => heq, fun _ => hp⟩

theorem index_count (r : Ring α size) : r.index r.count = r.iput := by
  have hget := r.get_lt
  have hput := r.put_lt
  simp only [index, count]
  split_ifs <;> omega

theorem index_ne_iput {r : Ring α size} {j : Nat} (h : j < r.count) : r.index j ≠ r.iput := by
  have hget := r.get_lt
  have hput := r.put_lt
  simp only [index, count] at h ⊢
  split_ifs at h ⊢ <;> omega

/-- What is put in comes last. -/
theorem content_put {r : Ring α size} (x : α) (h : r.count + 1 < size) :
    (r.put x).content = r.content ++ [x] := by
  have hcount : (r.put x).count = r.count + 1 := by
    rcases r.count_put x with ⟨-, hc⟩ | ⟨heq, -⟩
    · exact hc
    · omega
  have hindex : ∀ j, (r.put x).index j = r.index j := fun _ => rfl
  rw [content, hcount, List.range_succ, List.map_append, List.map_singleton]
  congr 1
  · refine List.map_congr_left fun j hj => ?_
    rw [hindex]
    exact Function.update_of_ne (index_ne_iput (List.mem_range.mp hj)) _ _
  · rw [hindex, index_count]
    exact congrArg (fun y => [y]) (Function.update_self _ _ _)

/-- What is taken out is what was first. -/
theorem content_advance {r : Ring α size} (h : r.iget ≠ r.iput) :
    r.content = r.front :: r.advance.content := by
  have hget := r.get_lt
  have hput := r.put_lt
  have hcount : r.count = r.advance.count + 1 := by
    simp only [count, advance, wrap]
    split_ifs <;> omega
  have hzero : r.index 0 = r.iget := if_pos (by omega)
  rw [content, hcount, List.range_succ_eq_map, List.map_cons, List.map_map, hzero]
  refine congrArg₂ List.cons rfl (List.map_congr_left fun j hj => ?_)
  have hj' : j < r.advance.count := List.mem_range.mp hj
  have hindex : r.index (j + 1) = r.advance.index j := by
    simp only [index, count, advance, wrap] at hj' ⊢
    split_ifs at hj' ⊢ <;> omega
  exact congrArg r.slots hindex

end Ring

end LinuxPractice
