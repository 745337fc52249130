import LinuxPractice.Address.Model

namespace LinuxPractice.Address

/-- r is a run of zero words. -/
structure ZeroRun (ws : List Nat) (r : Run) : Prop where
  pos : 0 < r.len
  zero : ∀ k, r.base ≤ k → k < r.base + r.len → ws[k]? = some 0

/-- best is longer than r, or as long and not further to the right. -/
def Dominates (best r : Run) : Prop := r.len ≤ best.len ∧ (r.len = best.len → best.base ≤ r.base)

section

variable {pre ws : List Nat} {w : Nat} {r : Run} {best cur : Option Run}

theorem ZeroRun.le_length (h : ZeroRun ws r) : r.base + r.len ≤ ws.length := by
  have hpos := h.pos
  have hlast := h.zero (r.base + r.len - 1) (by omega) (by omega)
  obtain ⟨hlt, -⟩ := List.getElem?_eq_some_iff.mp hlast
  omega

theorem ZeroRun.append (h : ZeroRun pre r) (ws : List Nat) : ZeroRun (pre ++ ws) r := by
  refine ⟨h.pos, fun k hk hlt => ?_⟩
  have hlen := h.le_length
  rw [List.getElem?_append_left (by omega)]
  exact h.zero k hk hlt

/-- A run that ends before the last word is one of the words before it. -/
theorem ZeroRun.of_append (h : ZeroRun (pre ++ [w]) r) (hle : r.base + r.len ≤ pre.length) :
    ZeroRun pre r := by
  refine ⟨h.pos, fun k hk hlt => ?_⟩
  have hz := h.zero k hk hlt
  rwa [List.getElem?_append_left (by omega)] at hz

/-- What the loop knows once it has seen the words pre. -/
structure Scanned (pre : List Nat) (best cur : Option Run) : Prop where
  found : ∀ b ∈ best, ZeroRun pre b
  current : ∀ c ∈ cur, ZeroRun pre c ∧ c.base + c.len = pre.length
  apart : ∀ b ∈ best, ∀ c ∈ cur, b.base ≤ c.base
  edge : ∀ r, ZeroRun pre r → r.base + r.len = pre.length → ∃ c ∈ cur, c.base ≤ r.base
  cover : ∀ r, ZeroRun pre r → (∃ b ∈ best, Dominates b r) ∨ ∃ c ∈ cur, c.base ≤ r.base

theorem mem_better {b : Run} (h : b ∈ better best cur) : b ∈ best ∨ b ∈ cur := by
  cases cur with
  | none => exact .inl h
  | some c =>
    cases best with
    | none => exact .inr h
    | some b' =>
      simp only [better] at h
      split at h
      · exact .inr h
      · exact .inl h

/-- The better of the two runs dominates every run so far. -/
theorem Scanned.dominated (h : Scanned pre best cur) (hr : ZeroRun pre r) :
    ∃ b ∈ better best cur, Dominates b r := by
  have hlen := hr.le_length
  cases cur with
  | none =>
    rcases h.cover r hr with hb | ⟨c, hc, -⟩
    · exact hb
    · cases hc
  | some c =>
    have hc := (h.current c rfl).2
    cases best with
    | none =>
      rcases h.cover r hr with ⟨b, hb, -⟩ | ⟨c', hc', hle⟩
      · cases hb
      · obtain rfl := Option.mem_some_iff.mp hc'
        exact ⟨c, rfl, by omega, by omega⟩
    | some b =>
      have hbc := h.apart b rfl c rfl
      simp only [better]
      split
      · rename_i hlt
        refine ⟨c, rfl, ?_⟩
        rcases h.cover r hr with ⟨b', hb', hd⟩ | ⟨c', hc', hle⟩
        · obtain rfl := Option.mem_some_iff.mp hb'
          have hd := hd.1
          exact ⟨by omega, by omega⟩
        · obtain rfl := Option.mem_some_iff.mp hc'
          exact ⟨by omega, by omega⟩
      · rename_i hge
        refine ⟨b, rfl, ?_⟩
        rcases h.cover r hr with ⟨b', hb', hd⟩ | ⟨c', hc', hle⟩
        · obtain rfl := Option.mem_some_iff.mp hb'
          exact hd
        · obtain rfl := Option.mem_some_iff.mp hc'
          exact ⟨by omega, by omega⟩

/-- A zero word makes the current run longer, or starts one. -/
theorem Scanned.zero (h : Scanned pre best cur) {c' : Run} (hc' : c'.base + c'.len = pre.length + 1)
    (hbase : ∀ c ∈ cur, c'.base = c.base) (hnew : cur = none → c'.base = pre.length)
    (hpos : 0 < c'.len) : Scanned (pre ++ [0]) best (some c') := by
  have hend : (pre ++ [0])[pre.length]? = some 0 := by simp
  have hedge : ∀ r, ZeroRun (pre ++ [0]) r → r.base + r.len = pre.length + 1 → c'.base ≤ r.base := by
    intro r hr hlast
    have hrpos := hr.pos
    by_cases hone : r.len = 1
    · omega
    · have hshort : ZeroRun pre ⟨r.base, r.len - 1⟩ := by
        refine ZeroRun.of_append (w := 0) ⟨by show 0 < r.len - 1; omega, ?_⟩
          (by show r.base + (r.len - 1) ≤ pre.length; omega)
        intro k hk hlt
        exact hr.zero k hk (by simp only at hlt; omega)
      obtain ⟨c, hc, hle⟩ := h.edge _ hshort (by show r.base + (r.len - 1) = pre.length; omega)
      rw [hbase c hc]
      exact hle
  refine ⟨fun b hb => (h.found b hb).append [0], ?_, ?_, ?_, ?_⟩
  · intro c hc
    obtain rfl := Option.mem_some_iff.mp hc
    refine ⟨⟨hpos, fun k hk hlt => ?_⟩, by simp [hc']⟩
    by_cases hkend : k = pre.length
    · rw [hkend]
      exact hend
    · cases cur with
      | none =>
        have hstart := hnew rfl
        omega
      | some c =>
        have hbc := hbase c rfl
        have hzero := ((h.current c rfl).1.append [0]).zero k (by omega)
        have hclen := (h.current c rfl).2
        exact hzero (by omega)
  · intro b hb c hc
    obtain rfl := Option.mem_some_iff.mp hc
    have hblen := (h.found b hb).le_length
    have hbpos := (h.found b hb).pos
    cases cur with
    | none =>
      have hstart := hnew rfl
      omega
    | some c =>
      rw [hbase c rfl]
      exact h.apart b hb c rfl
  · intro r hr hlast
    refine ⟨c', rfl, hedge r hr ?_⟩
    simpa using hlast
  · intro r hr
    have hlen := hr.le_length
    rw [List.length_append, List.length_singleton] at hlen
    by_cases hlast : r.base + r.len = pre.length + 1
    · exact .inr ⟨c', rfl, hedge r hr hlast⟩
    · rcases h.cover r (hr.of_append (by omega)) with hb | ⟨c, hc, hle⟩
      · exact .inl hb
      · refine .inr ⟨c', rfl, ?_⟩
        rw [hbase c hc]
        exact hle

/-- Another word ends the current run. -/
theorem Scanned.other (h : Scanned pre best cur) (hw : w ≠ 0) :
    Scanned (pre ++ [w]) (better best cur) none := by
  have hinner : ∀ r, ZeroRun (pre ++ [w]) r → r.base + r.len ≤ pre.length := by
    intro r hr
    have hlen := hr.le_length
    have hpos := hr.pos
    rw [List.length_append, List.length_singleton] at hlen
    by_contra hgt
    have hz := hr.zero pre.length (by omega) (by omega)
    rw [List.getElem?_append_right (Nat.le_refl _), Nat.sub_self] at hz
    exact hw (Option.some.inj hz)
  refine ⟨fun b hb => ?_, nofun, nofun, ?_, ?_⟩
  · rcases mem_better hb with hb | hb
    · exact (h.found b hb).append [w]
    · exact (h.current b hb).1.append [w]
  · intro r hr hlast
    have hle := hinner r hr
    rw [List.length_append, List.length_singleton] at hlast
    omega
  · intro r hr
    exact .inl (h.dominated (hr.of_append (hinner r hr)))

theorem findRun_start (i : Nat) : findRun i best none (0 :: ws) = findRun (i + 1) best (some ⟨i, 1⟩) ws :=
  rfl

theorem findRun_longer (i : Nat) (c : Run) :
    findRun i best (some c) (0 :: ws) = findRun (i + 1) best (some ⟨c.base, c.len + 1⟩) ws :=
  rfl

theorem findRun_other (i : Nat) (hw : w ≠ 0) :
    findRun i best cur (w :: ws) = findRun (i + 1) (better best cur) none ws :=
  if_neg hw

/-- The loop as a whole. -/
theorem findRun_spec (ws : List Nat) (h : Scanned pre best cur) :
    (∀ b ∈ findRun pre.length best cur ws, ZeroRun (pre ++ ws) b) ∧
      ∀ r, ZeroRun (pre ++ ws) r → ∃ b ∈ findRun pre.length best cur ws, Dominates b r := by
  induction ws generalizing pre best cur with
  | nil =>
    rw [List.append_nil]
    refine ⟨fun b hb => ?_, fun r hr => h.dominated hr⟩
    rcases mem_better hb with hb | hb
    · exact h.found b hb
    · exact (h.current b hb).1
  | cons w ws ih =>
    have hsnoc : pre ++ w :: ws = pre ++ [w] ++ ws := by simp
    have hlen : (pre ++ [w]).length = pre.length + 1 := by simp
    rw [hsnoc]
    by_cases hw : w = 0
    · subst hw
      cases cur with
      | none =>
        rw [findRun_start, ← hlen]
        refine ih (h.zero (by show pre.length + 1 = pre.length + 1; rfl) nofun (fun _ => rfl) ?_)
        exact Nat.one_pos
      | some c =>
        have hc := (h.current c rfl).2
        rw [findRun_longer, ← hlen]
        refine ih (h.zero (by show c.base + (c.len + 1) = pre.length + 1; omega) ?_ nofun ?_)
        · intro c' hc'
          rw [← Option.mem_some_iff.mp hc']
        · exact Nat.succ_pos _
    · rw [findRun_other _ hw, ← hlen]
      exact ih (h.other hw)

theorem scanned_nil : Scanned [] none none := by
  have hnone : ∀ r, ¬ZeroRun [] r := by
    intro r hr
    have hlen := hr.le_length
    have hpos := hr.pos
    rw [List.length_nil] at hlen
    omega
  exact ⟨nofun, nofun, nofun, fun r hr _ => absurd hr (hnone r), fun r hr => absurd hr (hnone r)⟩

theorem mem_bestRun {b : Run} (h : b ∈ bestRun ws) : b ∈ findRun 0 none none ws ∧ 2 ≤ b.len := by
  obtain ⟨hfound, hlen⟩ := Option.mem_filter_iff.mp h
  have htwo : ¬b.len < 2 := by simpa using hlen
  exact ⟨hfound, by omega⟩

/-- What stands for "::" is a run of at least two zero words. -/
theorem zeroRun_of_mem_bestRun {b : Run} (h : b ∈ bestRun ws) : 2 ≤ b.len ∧ ZeroRun ws b :=
  ⟨(mem_bestRun h).2, (findRun_spec ws scanned_nil).1 b (mem_bestRun h).1⟩

end

/-- inet_ntop6 abbreviates the longest run of zero words, of several the one furthest to
the left, if it has at least two words; and if there is such a run it abbreviates one. -/
theorem bestRun_longest (ws : List Nat) :
    (∀ best ∈ bestRun ws, 2 ≤ best.len ∧ ZeroRun ws best ∧ ∀ r, ZeroRun ws r → Dominates best r) ∧
      (bestRun ws = none ↔ ∀ r, ZeroRun ws r → r.len < 2) := by
  have hdom : ∀ r, ZeroRun ws r → ∃ b ∈ findRun 0 none none ws, Dominates b r :=
    (findRun_spec ws scanned_nil).2
  constructor
  · intro best hbest
    obtain ⟨htwo, hzero⟩ := zeroRun_of_mem_bestRun hbest
    refine ⟨htwo, hzero, fun r hr => ?_⟩
    obtain ⟨b, hb, hd⟩ := hdom r hr
    have heq : b = best := Option.mem_unique hb (mem_bestRun hbest).1
    exact heq ▸ hd
  · constructor
    · intro hnone r hr
      obtain ⟨b, hb, hd⟩ := hdom r hr
      by_contra hge
      have htwo : ¬b.len < 2 := by
        have hle := hd.1
        omega
      have hmem : b ∈ bestRun ws := Option.mem_filter_iff.mpr ⟨hb, by simpa using htwo⟩
      rw [hnone] at hmem
      cases hmem
    · intro hall
      cases hb : bestRun ws with
      | none => rfl
      | some b =>
        obtain ⟨htwo, hzero⟩ := zeroRun_of_mem_bestRun (show b ∈ bestRun ws from hb)
        have hlt := hall b hzero
        omega

end LinuxPractice.Address
