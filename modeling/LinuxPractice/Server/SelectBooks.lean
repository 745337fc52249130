import Mathlib.Data.Finset.Card
import LinuxPractice.Server.SelectServer

namespace LinuxPractice.SelectServer

open Echo (Byte MAXLINE)

/-- The reported descriptors that the loop over the clients has not come to at i. -/
def expecting (client : List (Option Nat)) (i : Nat) (rset : Finset Nat) : Finset Nat :=
  rset.filter fun fd => some fd ∈ client.drop i

/-- No descriptor is in two entries. -/
def Distinct (client : List (Option Nat)) : Prop :=
  ∀ (i j fd : Nat), client[i]? = some (some fd) → client[j]? = some (some fd) → i = j

section Expecting

variable {client : List (Option Nat)} {i fd : Nat} {rset : Finset Nat}

theorem mem_drop_iff : some fd ∈ client.drop i ↔ ∃ j, i ≤ j ∧ client[j]? = some (some fd) := by
  rw [List.mem_iff_getElem?]
  constructor
  · rintro ⟨j, hj⟩
    rw [List.getElem?_drop] at hj
    exact ⟨i + j, Nat.le_add_right i j, hj⟩
  · rintro ⟨j, hle, hj⟩
    refine ⟨j - i, ?_⟩
    rw [List.getElem?_drop, Nat.add_sub_cancel' hle]
    exact hj

theorem mem_expecting : fd ∈ expecting client i rset ↔
    fd ∈ rset ∧ ∃ j, i ≤ j ∧ client[j]? = some (some fd) := by
  rw [expecting, Finset.mem_filter, mem_drop_iff]

/-- The entry at i is not met again. -/
theorem not_expecting (hd : Distinct client) (hi : client[i]? = some (some fd)) :
    fd ∉ expecting client (i + 1) rset := by
  intro hmem
  obtain ⟨-, j, hle, hj⟩ := mem_expecting.mp hmem
  have heq := hd i j fd hi hj
  omega

theorem expecting_visit (hi : client[i]? = some (some fd)) (hin : fd ∈ rset) :
    expecting client i rset = insert fd (expecting client (i + 1) rset) := by
  ext x
  rw [Finset.mem_insert, mem_expecting, mem_expecting]
  constructor
  · rintro ⟨hx, j, hle, hj⟩
    rcases Nat.eq_or_lt_of_le hle with rfl | hlt
    · cases hi.symm.trans hj
      exact .inl rfl
    · exact .inr ⟨hx, j, hlt, hj⟩
  · rintro (rfl | ⟨hx, j, hle, hj⟩)
    · exact ⟨hin, i, Nat.le_refl i, hi⟩
    · exact ⟨hx, j, by omega, hj⟩

theorem expecting_skip (hno : ∀ fd, client[i]? = some (some fd) → fd ∉ rset) :
    expecting client i rset = expecting client (i + 1) rset := by
  ext x
  rw [mem_expecting, mem_expecting]
  constructor
  · rintro ⟨hx, j, hle, hj⟩
    rcases Nat.eq_or_lt_of_le hle with rfl | hlt
    · exact absurd hx (hno x hj)
    · exact ⟨hx, j, hlt, hj⟩
  · rintro ⟨hx, j, hle, hj⟩
    exact ⟨hx, j, by omega, hj⟩

theorem expecting_set (o : Option Nat) :
    expecting (client.set i o) (i + 1) rset = expecting client (i + 1) rset := by
  rw [expecting, List.drop_set_of_lt (Nat.lt_succ_self i)]
  rfl

theorem expecting_beyond {maxi : Int}
    (hmax : ∀ (j fd : Nat), client[j]? = some (some fd) → (j : Int) ≤ maxi) (hi : maxi < i) : expecting client i rset = ∅ := by
  refine Finset.eq_empty_of_forall_notMem fun x hx => ?_
  obtain ⟨-, j, hle, hj⟩ := mem_expecting.mp hx
  have hmaxi := hmax j x hj
  omega

end Expecting

/-- How the variables of main and the open connections belong together. -/
structure Books (listenfd : Nat) (s : State) : Prop where
  size : s.client.length = FD_SETSIZE
  listen : listenfd ≤ s.maxfd
  allset : ∀ fd, fd ∈ s.allset ↔ fd = listenfd ∨ some fd ∈ s.client
  distinct : Distinct s.client
  opened : ∀ fd, some fd ∈ s.client ↔ (s.conns fd).isSome = true
  fds : ∀ fd, some fd ∈ s.client → fd ≠ listenfd ∧ fd < FD_SETSIZE ∧ fd ≤ s.maxfd
  index : ∀ (i fd : Nat), s.client[i]? = some (some fd) → (i : Int) ≤ s.maxi

section Books

variable {listenfd : Nat} {s : State}

theorem Books.goto (h : Books listenfd s) (pc : Pc) (q : Nat) :
    Books listenfd { s with pc := pc, queue := q } :=
  ⟨h.size, h.listen, h.allset, h.distinct, h.opened, h.fds, h.index⟩

/-- A step that leaves the variables and the set of open descriptors as they are. -/
theorem Books.setConn (h : Books listenfd s) {fd : Nat} {c c' : Conn} (hc : s.conns fd = some c) (pc : Pc) :
    Books listenfd (s.setConn fd c' pc) := by
  refine ⟨h.size, h.listen, h.allset, h.distinct, fun x => ?_, h.fds, h.index⟩
  refine (h.opened x).trans ?_
  by_cases hx : x = fd
  · subst hx
    simp [State.setConn, hc]
  · simp [State.setConn, Function.update_of_ne hx]

/-- A client closes: its entry, its bit in allset and its descriptor become free. -/
theorem Books.hangup (h : Books listenfd s) {i fd : Nat} (hi : s.client[i]? = some (some fd))
    (c : Conn) (pc : Pc) : Books listenfd (s.hangup i fd c pc) := by
  have hget : ∀ (j x : Nat), (s.client.set i none)[j]? = some (some x) ↔
      s.client[j]? = some (some x) ∧ x ≠ fd := by
    intro j x
    by_cases hj : i = j
    · subst hj
      rw [List.getElem?_set]
      simp only [hi, if_true]
      constructor
      · intro hx
        split at hx
        · cases hx
        · cases hx
      · rintro ⟨hx, hne⟩
        cases hx
        exact absurd rfl hne
    · rw [List.getElem?_set_ne hj]
      refine ⟨fun hx => ⟨hx, ?_⟩, And.left⟩
      rintro rfl
      exact hj (h.distinct i j x hi hx)
  have hmem : ∀ x, some x ∈ s.client.set i none ↔ some x ∈ s.client ∧ x ≠ fd := by
    intro x
    rw [List.mem_iff_getElem?, List.mem_iff_getElem?]
    constructor
    · rintro ⟨j, hj⟩
      obtain ⟨hx, hne⟩ := (hget j x).mp hj
      exact ⟨⟨j, hx⟩, hne⟩
    · rintro ⟨⟨j, hj⟩, hne⟩
      exact ⟨j, (hget j x).mpr ⟨hj, hne⟩⟩
  have hfd : some fd ∈ s.client := List.mem_of_getElem? hi
  unfold State.hangup
  refine ⟨?_, h.listen, fun x => ?_, ?_, fun x => ?_, ?_, ?_⟩
  · exact (List.length_set).trans h.size
  · rw [Finset.mem_erase, h.allset, hmem]
    constructor
    · rintro ⟨hne, hx⟩
      exact hx.imp id fun hx => ⟨hx, hne⟩
    · rintro (rfl | ⟨hx, hne⟩)
      · exact ⟨(h.fds fd hfd).1.symm, .inl rfl⟩
      · exact ⟨hne, .inr hx⟩
  · intro j k x hj hk
    exact h.distinct j k x ((hget j x).mp hj).1 ((hget k x).mp hk).1
  · rw [hmem, h.opened]
    by_cases hx : x = fd
    · subst hx
      simp
    · simp [hx]
  · intro x hx
    exact h.fds x ((hmem x).mp hx).1
  · intro j x hj
    exact h.index j x ((hget j x).mp hj).1

/-- With all descriptors below FD_SETSIZE and one of them taken by the listening socket there
is always a free entry. -/
theorem Books.findIdx_lt (h : Books listenfd s) (hl : listenfd < FD_SETSIZE) :
    s.client.findIdx Option.isNone < FD_SETSIZE := by
  by_contra hge
  have hfull : ∀ i < FD_SETSIZE, ∃ fd, s.client[i]? = some (some fd) := by
    intro i hi
    have hlen : i < s.client.length := h.size ▸ hi
    have hsome : Option.isNone s.client[i] = false := by
      have hlt : i < s.client.findIdx Option.isNone := by omega
      simpa using List.not_of_lt_findIdx hlt
    obtain ⟨fd, hfd⟩ := Option.isSome_iff_exists.mp (Option.isNone_eq_false_iff.mp hsome)
    exact ⟨fd, by rw [List.getElem?_eq_getElem hlen, hfd]⟩
  choose! f hf using hfull
  have hmaps : Set.MapsTo f (Finset.range FD_SETSIZE) ((Finset.range FD_SETSIZE).erase listenfd) := by
    intro i hi
    have hi' : i < FD_SETSIZE := Finset.mem_range.mp hi
    obtain ⟨hne, hlt, -⟩ := h.fds (f i) (List.mem_of_getElem? (hf i hi'))
    exact Finset.mem_erase.mpr ⟨hne, Finset.mem_range.mpr hlt⟩
  have hinj : Set.InjOn f (Finset.range FD_SETSIZE) := by
    intro i hi j hj heq
    have hi' : i < FD_SETSIZE := Finset.mem_range.mp hi
    have hj' : j < FD_SETSIZE := Finset.mem_range.mp hj
    exact h.distinct i j (f i) (hf i hi') (heq ▸ hf j hj')
  have hcard := Finset.card_le_card_of_injOn f hmaps hinj
  rw [Finset.card_erase_of_mem (Finset.mem_range.mpr hl), Finset.card_range] at hcard
  omega

/-- The entry that is found is free. -/
theorem Books.findIdx_free (h : Books listenfd s) (hl : listenfd < FD_SETSIZE) :
    s.client[s.client.findIdx Option.isNone]? = some none := by
  have hlt : s.client.findIdx Option.isNone < s.client.length := h.size ▸ h.findIdx_lt hl
  rw [List.getElem?_eq_getElem hlt]
  have hnone := List.findIdx_getElem (w := hlt)
  rw [Option.isNone_iff_eq_none] at hnone
  rw [hnone]

/-- A free entry is taken. -/
theorem getElem?_set_free {client : List (Option Nat)} {i fd : Nat} (hi : client[i]? = some none)
    (j x : Nat) : (client.set i (some fd))[j]? = some (some x) ↔
      client[j]? = some (some x) ∨ (j = i ∧ x = fd) := by
  have hlt : i < client.length := (List.getElem?_eq_some_iff.mp hi).1
  by_cases hj : i = j
  · subst hj
    rw [List.getElem?_set_self hlt, hi]
    constructor
    · intro hx
      cases hx
      exact .inr ⟨rfl, rfl⟩
    · rintro (hx | ⟨-, rfl⟩)
      · cases hx
      · rfl
  · rw [List.getElem?_set_ne hj]
    exact ⟨.inl, fun hx => hx.resolve_right fun ⟨he, _⟩ => hj he.symm⟩

theorem mem_set_free {client : List (Option Nat)} {i fd : Nat} (hi : client[i]? = some none) (x : Nat) :
    some x ∈ client.set i (some fd) ↔ some x ∈ client ∨ x = fd := by
  rw [List.mem_iff_getElem?, List.mem_iff_getElem?]
  constructor
  · rintro ⟨j, hj⟩
    rcases (getElem?_set_free hi j x).mp hj with hx | ⟨-, rfl⟩
    · exact .inl ⟨j, hx⟩
    · exact .inr rfl
  · rintro (⟨j, hj⟩ | rfl)
    · exact ⟨j, (getElem?_set_free hi j x).mpr (.inl hj)⟩
    · exact ⟨i, (getElem?_set_free hi i x).mpr (.inr ⟨rfl, rfl⟩)⟩

/-- A connection is accepted. -/
theorem Books.accept (h : Books listenfd s) (hl : listenfd < FD_SETSIZE) {fd : Nat} (t : Turn)
    (hlt : fd < FD_SETSIZE) (hne : fd ≠ listenfd) (hnone : s.conns fd = none) :
    Books listenfd (s.accept t fd) := by
  have hfree := h.findIdx_free hl
  have hidx := Nat.ne_of_lt (h.findIdx_lt hl)
  have hnew : some fd ∉ s.client := by
    rw [h.opened, hnone]
    nofun
  simp only [State.accept, if_neg hidx]
  refine ⟨?_, ?_, fun x => ?_, ?_, fun x => ?_, fun x hx => ?_, fun j x hj => ?_⟩
  · exact (List.length_set).trans h.size
  · have hle := h.listen
    dsimp only
    split
    · omega
    · exact hle
  · rw [Finset.mem_insert, h.allset, mem_set_free hfree]
    exact ⟨fun hx => hx.elim (fun hx => .inr (.inr hx)) (Or.imp_right .inl),
      fun hx => hx.elim (fun hx => .inr (.inl hx)) fun hx => hx.elim (fun hx => .inr (.inr hx)) .inl⟩
  · intro j k x hj hk
    rcases (getElem?_set_free hfree j x).mp hj with hj' | ⟨hj', rfl⟩
    · rcases (getElem?_set_free hfree k x).mp hk with hk' | ⟨-, rfl⟩
      · exact h.distinct j k x hj' hk'
      · exact absurd (List.mem_of_getElem? hj') hnew
    · rcases (getElem?_set_free hfree k x).mp hk with hk' | ⟨hk', -⟩
      · exact absurd (List.mem_of_getElem? hk') hnew
      · exact hj'.trans hk'.symm
  · rw [mem_set_free hfree, h.opened]
    by_cases hx : x = fd
    · subst hx
      simp
    · simp [hx]
  · dsimp only
    rcases (mem_set_free hfree x).mp hx with hx | rfl
    · obtain ⟨h₁, h₂, h₃⟩ := h.fds x hx
      refine ⟨h₁, h₂, ?_⟩
      split
      · omega
      · exact h₃
    · refine ⟨hne, hlt, ?_⟩
      split
      · exact Nat.le_refl _
      · omega
  · dsimp only
    rcases (getElem?_set_free hfree j x).mp hj with hj | ⟨rfl, -⟩
    · have hle := h.index j x hj
      split
      · omega
      · exact hle
    · split
      · exact le_refl _
      · omega

end Books

end LinuxPractice.SelectServer
