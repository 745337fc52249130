import Mathlib.Data.List.Basic

namespace LinuxPractice

/-- A buffer that is filled behind its input pointer and emptied from its output pointer
on. Both pointers go back to its start when it is empty. -/
structure LinearBuffer (β : Type) (size : Nat) where
  data : List β
  optr : Nat
  within : data.length ≤ size
  started : optr < data.length ∨ (data = [] ∧ optr = 0)

namespace LinearBuffer

variable {β : Type} {size : Nat}

def empty : LinearBuffer β size := ⟨[], 0, Nat.zero_le _, .inr ⟨rfl, rfl⟩⟩

/-- The input pointer. -/
def iptr (b : LinearBuffer β size) : Nat := b.data.length

/-- What fits behind the input pointer. -/
def room (b : LinearBuffer β size) : Nat := size - b.iptr

/-- What lies between the pointers. -/
def content (b : LinearBuffer β size) : List β := b.data.drop b.optr

/-- Elements are stored behind the input pointer. -/
def fill (b : LinearBuffer β size) (xs : List β) : Option (LinearBuffer β size) :=
  if h : xs.length ≤ b.room then
    some ⟨b.data ++ xs, b.optr,
      by
        have hw := b.within
        rw [room, iptr] at h
        rw [List.length_append]
        omega,
      by
        rcases b.started with hlt | ⟨hd, ho⟩
        · rw [List.length_append]
          omega
        · cases xs with
          | nil => exact .inr ⟨by rw [hd, List.append_nil], ho⟩
          | cons x xs =>
            rw [hd, ho, List.nil_append, List.length_cons]
            exact .inl (Nat.succ_pos _)⟩
  else none

/-- k elements have been taken out. -/
def advance (b : LinearBuffer β size) (k : Nat) : LinearBuffer β size :=
  if h : b.optr + k < b.iptr then ⟨b.data, b.optr + k, b.within, .inl h⟩ else empty

theorem content_eq_nil (b : LinearBuffer β size) : b.content = [] ↔ b.optr = b.iptr := by
  rw [content, List.drop_eq_nil_iff, iptr]
  rcases b.started with hlt | ⟨hd, ho⟩
  · omega
  · rw [hd, ho]
    exact ⟨fun _ => rfl, fun _ => Nat.le_refl _⟩

/-- An empty buffer has all of its room. -/
theorem room_of_content (b : LinearBuffer β size) (h : b.content = []) : b.room = size := by
  have heq := b.content_eq_nil.mp h
  rcases b.started with hlt | ⟨hd, -⟩
  · rw [iptr] at heq
    omega
  · rw [room, iptr, hd]
    rfl

theorem content_fill {b b' : LinearBuffer β size} {xs : List β} (h : b.fill xs = some b') :
    b'.content = b.content ++ xs := by
  unfold fill at h
  split at h
  · cases h
    have hle : b.optr ≤ b.data.length := by
      rcases b.started with hlt | ⟨-, ho⟩
      · omega
      · omega
    exact List.drop_append_of_le_length hle
  · cases h

theorem fill_enabled {b : LinearBuffer β size} {xs : List β} (h : xs.length ≤ b.room) :
    ∃ b', b.fill xs = some b' := ⟨_, dif_pos h⟩

theorem content_advance (b : LinearBuffer β size) (k : Nat) :
    (b.advance k).content = b.content.drop k := by
  unfold advance
  split
  · rw [content, content, List.drop_drop]
  · rename_i h
    rw [content, content, List.drop_drop, List.drop_eq_nil_of_le (Nat.le_of_not_lt h)]
    rfl

/-- The pointers meet when all is taken out. -/
theorem drop_content_eq_nil {b : LinearBuffer β size} {k : Nat} (hk : k ≤ b.content.length) :
    b.content.drop k = [] ↔ b.optr + k = b.iptr := by
  rw [content, List.length_drop] at hk
  rw [content, List.drop_drop, List.drop_eq_nil_iff, iptr]
  rcases b.started with hlt | ⟨hd, ho⟩
  · omega
  · rw [hd, List.length_nil] at hk ⊢
    omega

theorem content_length_le (b : LinearBuffer β size) : b.content.length ≤ b.iptr := by
  rw [content, List.length_drop]
  exact Nat.sub_le _ _

end LinearBuffer

end LinuxPractice
