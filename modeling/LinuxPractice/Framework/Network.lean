import Mathlib.Data.List.Basic

namespace LinuxPractice.Network

variable {β : Type}

/-- An unreliable datagram service: whatever is in flight can be taken out at any
position, lost or duplicated. A receive takes the datagram at position i. -/
def receive (net : List β) (i : Nat) : Option (β × List β) :=
  net[i]?.map fun d => (d, net.eraseIdx i)

def lose (net : List β) (i : Nat) : Option (List β) :=
  if i < net.length then some (net.eraseIdx i) else none

def duplicate (net : List β) (i : Nat) : Option (List β) :=
  net[i]?.map fun d => net ++ [d]

/-- A receive hands out what was in flight and adds nothing. -/
theorem receive_eq_some {net net' : List β} {i : Nat} {d : β} (h : receive net i = some (d, net')) :
    d ∈ net ∧ net' ⊆ net := by
  obtain ⟨e, he, ho⟩ := Option.map_eq_some_iff.mp h
  obtain ⟨rfl, rfl⟩ := Prod.mk.inj ho
  exact ⟨List.mem_of_getElem? he, (List.eraseIdx_sublist _ _).subset⟩

theorem lose_eq_some {net net' : List β} {i : Nat} (h : lose net i = some net') : net' ⊆ net := by
  unfold lose at h
  split at h
  · cases h
    exact (List.eraseIdx_sublist _ _).subset
  · cases h

theorem duplicate_eq_some {net net' : List β} {i : Nat} (h : duplicate net i = some net') :
    net' ⊆ net := by
  obtain ⟨d, hd, rfl⟩ := Option.map_eq_some_iff.mp h
  intro e he
  rcases List.mem_append.mp he with he | he
  · exact he
  · rw [List.mem_singleton.mp he]
    exact List.mem_of_getElem? hd

/-- The datagram sent last can be received next, whatever else is in flight. -/
theorem receive_last (net : List β) (d : β) : receive (net ++ [d]) net.length = some (d, net) := by
  simp [receive, List.eraseIdx_append_of_length_le]

end LinuxPractice.Network
