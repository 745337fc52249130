import LinuxPractice.Framework.Channel

namespace LinuxPractice

/-- How many elements the two directions of a connection hold. -/
structure Capacity where
  up : Nat
  down : Nat
  up_pos : 0 < up
  down_pos : 0 < down

namespace Channel

variable {β : Type}

/-- A write to a channel that holds at most cap elements: it blocks while they do not fit. -/
def writeWithin (cap : Nat) (ch : Channel β) (xs : List β) (k : Nat) :
    Option (Channel β × List β) :=
  if ch.pending.length + k ≤ cap then ch.write xs k else none

/-- A read would not block. -/
def Readable (ch : Channel β) : Prop := ch.arrived ≠ [] ∨ (ch.closed = true ∧ ch.pending = [])

instance [DecidableEq β] (ch : Channel β) : Decidable ch.Readable :=
  inferInstanceAs (Decidable (_ ∨ _))

theorem writeWithin_eq_some {cap : Nat} {ch ch' : Channel β} {xs rest : List β} {k : Nat}
    (h : ch.writeWithin cap xs k = some (ch', rest)) :
    ch.pending.length + k ≤ cap ∧ ch.write xs k = some (ch', rest) := by
  unfold writeWithin at h
  split at h
  · rename_i hk
    exact ⟨hk, h⟩
  · cases h

/-- What is left to write. -/
theorem writeWithin_left {cap : Nat} {ch ch' : Channel β} {xs rest : List β} {k : Nat}
    (h : ch.writeWithin cap xs k = some (ch', rest)) :
    0 < k ∧ k ≤ xs.length ∧ rest = xs.drop k := by
  have hw := (writeWithin_eq_some h).2
  unfold write at hw
  split at hw
  · rename_i hk
    cases hw
    exact ⟨hk.1, hk.2, rfl⟩
  · cases hw

/-- A channel with room takes an element. -/
theorem writeWithin_enabled {cap : Nat} {ch : Channel β} {xs : List β} (hx : xs ≠ [])
    (hroom : ch.pending.length < cap) :
    ch.writeWithin cap xs 1 = some ({ ch with flight := ch.flight ++ xs.take 1 }, xs.drop 1) := by
  have hpos := List.length_pos_of_ne_nil hx
  rw [writeWithin, if_pos (by omega), write, if_pos ⟨Nat.one_pos, by omega⟩]

/-- A full one takes none. -/
theorem writeWithin_full {cap : Nat} {ch : Channel β} (xs : List β) (k : Nat)
    (hfull : cap ≤ ch.pending.length) : ch.writeWithin cap xs k = none := by
  cases h : ch.writeWithin cap xs k with
  | none => rfl
  | some o =>
    have hk := (writeWithin_eq_some h).1
    have hpos := (writeWithin_left h).1
    omega

theorem readable_enabled {ch : Channel β} {size : Nat} (hs : 0 < size) (h : ch.Readable) :
    ∃ k o, ch.read size k = some o := by
  rcases h with h | ⟨hc, hp⟩
  · obtain ⟨o, ho⟩ := read_enabled hs h
    exact ⟨1, o, ho⟩
  · exact ⟨0, _, read_end size hc hp⟩

/-- Where nothing can be delivered nothing is in flight. -/
theorem flight_eq_nil {ch : Channel β} (h : ∀ k, ch.deliver k = none) : ch.flight = [] := by
  by_contra hne
  obtain ⟨ch', hd⟩ := deliver_enabled hne
  rw [h] at hd
  cases hd

/-- With nothing in flight, a channel that cannot be read is open and empty. -/
theorem not_readable {ch : Channel β} (hf : ch.flight = []) (h : ¬ch.Readable) :
    ch.pending = [] ∧ ch.closed = false := by
  have harr : ch.arrived = [] := by
    by_contra hne
    exact h (.inl hne)
  have hpend : ch.pending = [] := by rw [pending, harr, hf, List.append_nil]
  refine ⟨hpend, ?_⟩
  cases hc : ch.closed with
  | false => rfl
  | true => exact absurd (.inr ⟨hc, hpend⟩) h

/-- What has arrived stays until it is read. -/
theorem Readable.deliver {ch ch' : Channel β} {k : Nat} (h : ch.Readable)
    (hd : ch.deliver k = some ch') : ch'.Readable := by
  obtain ⟨hp, hc, -, -⟩ := deliver_eq_some hd
  rcases h with h | ⟨hcl, hpe⟩
  · refine .inl fun hnil => ?_
    unfold Channel.deliver at hd
    split at hd
    · cases hd
      exact h (List.append_eq_nil_iff.mp hnil).1
    · cases hd
  · exact .inr ⟨hc.trans hcl, hp.trans hpe⟩

end Channel

end LinuxPractice
