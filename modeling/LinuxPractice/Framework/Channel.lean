import Mathlib.Data.List.Basic

namespace LinuxPractice

/-- A reliable in-order channel: elements sent and still in flight, elements that have
arrived and wait to be read, and whether its sender has closed it. -/
structure Channel (β : Type) where
  flight : List β
  arrived : List β
  closed : Bool

namespace Channel

variable {β : Type}

def empty : Channel β := ⟨[], [], false⟩

/-- Everything sent and not yet read, in order. -/
def pending (ch : Channel β) : List β := ch.arrived ++ ch.flight

def close (ch : Channel β) : Channel β := { ch with closed := true }

/-- k elements arrive. -/
def deliver (ch : Channel β) (k : Nat) : Option (Channel β) :=
  if 0 < k ∧ k ≤ ch.flight.length then
    some { ch with flight := ch.flight.drop k, arrived := ch.arrived ++ ch.flight.take k }
  else none

/-- A write of k of the given elements, at least one; the rest is given back. -/
def write (ch : Channel β) (xs : List β) (k : Nat) : Option (Channel β × List β) :=
  if 0 < k ∧ k ≤ xs.length then some ({ ch with flight := ch.flight ++ xs.take k }, xs.drop k)
  else none

/-- A read of at most size elements that returns k of those that have arrived. It
returns 0 once the channel is closed and drained, and blocks before. -/
def read (ch : Channel β) (size k : Nat) : Option (List β × Channel β) :=
  if k = 0 then
    if ch.closed ∧ ch.pending = [] then some ([], ch) else none
  else if k ≤ size ∧ k ≤ ch.arrived.length then
    some (ch.arrived.take k, { ch with arrived := ch.arrived.drop k })
  else none

theorem deliver_eq_some {ch ch' : Channel β} {k : Nat} (h : ch.deliver k = some ch') :
    ch'.pending = ch.pending ∧ ch'.closed = ch.closed ∧
      ch'.flight.length < ch.flight.length ∧
      ch'.arrived.length + ch'.flight.length = ch.arrived.length + ch.flight.length := by
  unfold deliver at h
  split at h
  · rename_i hk
    cases h
    refine ⟨by simp [pending], rfl, ?_, ?_⟩
    · simp only [List.length_drop]
      omega
    · simp only [List.length_drop, List.length_append, List.length_take]
      omega
  · cases h

theorem write_eq_some {ch ch' : Channel β} {xs rest : List β} {k : Nat}
    (h : ch.write xs k = some (ch', rest)) :
    ch'.pending ++ rest = ch.pending ++ xs ∧ ch'.closed = ch.closed ∧
      rest.length < xs.length ∧ ch'.arrived = ch.arrived ∧
      ch'.flight.length + rest.length = ch.flight.length + xs.length := by
  unfold write at h
  split at h
  · rename_i hk
    cases h
    refine ⟨by simp [pending], rfl, ?_, rfl, ?_⟩
    · simp only [List.length_drop]
      omega
    · simp only [List.length_drop, List.length_append, List.length_take]
      omega
  · cases h

theorem read_eq_some {ch ch' : Channel β} {size k : Nat} {xs : List β}
    (h : ch.read size k = some (xs, ch')) :
    (xs = [] ∧ ch' = ch ∧ ch.closed = true ∧ ch.pending = []) ∨
    (xs ≠ [] ∧ xs.length ≤ size ∧ xs ++ ch'.pending = ch.pending ∧ ch'.closed = ch.closed ∧
      ch'.flight = ch.flight ∧ ch'.arrived.length + xs.length = ch.arrived.length) := by
  unfold read at h
  split at h
  · split at h
    · rename_i hc
      cases h
      exact .inl ⟨rfl, rfl, hc⟩
    · cases h
  · rename_i hk
    split at h
    · rename_i hle
      cases h
      have hlen : (ch.arrived.take k).length = k := by
        rw [List.length_take]
        omega
      refine .inr ⟨?_, by omega, by simp [pending, ← List.append_assoc], rfl, rfl, ?_⟩
      · intro hnil
        rw [hnil] at hlen
        exact hk hlen.symm
      · simp only [List.length_drop]
        omega
    · cases h

/-- Something can be done about a channel that is not empty. -/
theorem deliver_enabled {ch : Channel β} (h : ch.flight ≠ []) :
    ∃ ch', ch.deliver ch.flight.length = some ch' := by
  have hpos := List.length_pos_of_ne_nil h
  exact ⟨_, if_pos ⟨hpos, Nat.le_refl _⟩⟩

theorem write_enabled (ch : Channel β) {xs : List β} (h : xs ≠ []) :
    ∃ o, ch.write xs xs.length = some o := by
  have hpos := List.length_pos_of_ne_nil h
  exact ⟨_, if_pos ⟨hpos, Nat.le_refl _⟩⟩

theorem read_enabled {ch : Channel β} {size : Nat} (hs : 0 < size) (h : ch.arrived ≠ []) :
    ∃ o, ch.read size 1 = some o := by
  have hpos := List.length_pos_of_ne_nil h
  refine ⟨(ch.arrived.take 1, { ch with arrived := ch.arrived.drop 1 }), ?_⟩
  rw [read, if_neg (by decide), if_pos ⟨hs, hpos⟩]

theorem read_end {ch : Channel β} (size : Nat) (hc : ch.closed = true) (h : ch.pending = []) :
    ch.read size 0 = some ([], ch) := by
  rw [read, if_pos rfl, if_pos ⟨hc, h⟩]

end Channel

end LinuxPractice
