import LinuxPractice.Echo.Readline

namespace LinuxPractice.Readline

open Echo (Byte MAXLINE newline)

/-- A call that reads finds nothing left of the descriptor that was read before it, unless
that is its own. -/
def Separate : Option Nat → List Call → Files → Prop
  | _, [], _ => True
  | last, c :: calls, files =>
    (1 < c.maxlen → ∀ fd, last = some fd → fd ≠ c.fd → files fd = []) ∧
      Separate (if 1 < c.maxlen then some c.fd else last) calls
        (Function.update files c.fd (readline1 c files).2)

section Agreement

/-- What the unbuffered version would still find: the buffer holds bytes of last. -/
def State.view (last : Option Nat) (s : State) : Files :=
  fun fd => if last = some fd then s.readBuf ++ s.files fd else s.files fd

/-- What it would do with the rest of the loop. -/
def Loop.finish (l : Loop) (input : List Traced) : Line × List Traced :=
  loop1 l.fd (l.maxlen - l.n) l.n l.got input

def State.pending (last : Option Nat) (s : State) : List Line :=
  match s.pc with
  | none => []
  | some l => [(l.finish (s.view last l.fd)).1]

def State.after (last : Option Nat) (s : State) : Files :=
  match s.pc with
  | none => s.view last
  | some l => Function.update (s.view last) l.fd (l.finish (s.view last l.fd)).2

structure Agrees (lines : List Line) (last : Option Nat) (s : State) : Prop where
  flow : s.returned ++ s.pending last ++ returns1 s.calls (s.after last) = lines
  separate : Separate last s.calls (s.after last)
  owner : last = none → s.readBuf = []
  reading : ∀ l, s.pc = some l → last = some l.fd

variable {lines : List Line} {last : Option Nat} {s s' : State}

/-- Passing or failing the test of the loop is a part of the unbuffered loop too. -/
theorem test_finish (last : Option Nat) (s : State) (l : Loop) :
    (s.test l).returned ++ (s.test l).pending last = s.returned ++ [(l.finish (s.view last l.fd)).1] ∧
      (s.test l).after last = Function.update (s.view last) l.fd (l.finish (s.view last l.fd)).2 := by
  unfold State.test
  split
  · exact ⟨rfl, rfl⟩
  · rename_i hge
    have hzero : l.maxlen - l.n = 0 := by omega
    have hfin : ∀ input, l.finish input = (⟨l.fd, l.n, l.got⟩, input) := by
      intro input
      rw [Loop.finish, hzero, loop1]
    constructor
    · rw [hfin]
      simp [State.leave, State.pending]
    · rw [hfin, Function.update_eq_self]
      rfl

/-- A byte ends the loop or leads to the next round, in both versions. -/
theorem store_cases {l : Loop} (c : Traced) (hlt : l.n < l.maxlen) :
    (∃ line, (∀ t : State, t.store l c = t.leave line) ∧
      ∀ input, l.finish (c :: input) = (line, input)) ∨
    ∃ l' : Loop, (l'.fd = l.fd ∧ l'.n < l'.maxlen ∧ l'.maxlen - l'.n < l.maxlen - l.n) ∧
      (∀ t : State, t.store l c = { t with pc := some l' }) ∧
      ∀ input, l.finish (c :: input) = l'.finish input := by
  obtain ⟨m, hm⟩ : ∃ m, l.maxlen - l.n = m + 1 := ⟨l.maxlen - l.n - 1, by omega⟩
  have hm' : l.maxlen - (l.n + 1) = m := by omega
  by_cases hnl : c.2 = newline
  · refine .inl ⟨⟨l.fd, l.n, l.got ++ [c]⟩, fun t => ?_, fun input => ?_⟩
    · rw [State.store, if_pos hnl]
    · rw [Loop.finish, hm, loop1, if_pos hnl]
  have hfin : ∀ input, l.finish (c :: input) = loop1 l.fd m (l.n + 1) (l.got ++ [c]) input := by
    intro input
    rw [Loop.finish, hm, loop1, if_neg hnl]
  by_cases hnext : l.n + 1 < l.maxlen
  · refine .inr ⟨⟨l.fd, l.maxlen, l.n + 1, l.got ++ [c]⟩, ⟨rfl, hnext, ?_⟩, fun t => ?_, fun input => ?_⟩
    · show l.maxlen - (l.n + 1) < l.maxlen - l.n
      omega
    · rw [State.store, if_neg hnl, State.test, if_pos hnext]
    · rw [hfin, Loop.finish, hm']
  · refine .inl ⟨⟨l.fd, l.n + 1, l.got ++ [c]⟩, fun t => ?_, fun input => ?_⟩
    · rw [State.store, if_neg hnl, State.test, if_neg hnext]
    · have hzero : m = 0 := by omega
      rw [hfin, hzero, loop1]

theorem store_finish (last : Option Nat) (s : State) {l : Loop} (c : Traced) (hlt : l.n < l.maxlen) :
    (s.store l c).returned ++ (s.store l c).pending last =
        s.returned ++ [(l.finish (c :: s.view last l.fd)).1] ∧
      (s.store l c).after last = Function.update (s.view last) l.fd (l.finish (c :: s.view last l.fd)).2 := by
  rcases store_cases c hlt with ⟨line, hstore, hfin⟩ | ⟨l', ⟨hfd, -⟩, hstore, hfin⟩
  · rw [hstore, hfin, Function.update_eq_self]
    exact ⟨List.append_nil _, rfl⟩
  · rw [hstore, hfin, ← hfd]
    exact ⟨rfl, rfl⟩

@[simp] theorem test_calls (s : State) (l : Loop) : (s.test l).calls = s.calls := by
  unfold State.test
  split <;> rfl

@[simp] theorem test_readBuf (s : State) (l : Loop) : (s.test l).readBuf = s.readBuf := by
  unfold State.test
  split <;> rfl

@[simp] theorem store_calls (s : State) (l : Loop) (c : Traced) : (s.store l c).calls = s.calls := by
  unfold State.store
  split
  · rfl
  · exact test_calls s _

theorem test_reading {l l' : Loop} (h : (s.test l).pc = some l') : l' = l := by
  unfold State.test at h
  split at h
  · cases h
    rfl
  · cases h

theorem store_reading {l l' : Loop} {c : Traced} (h : (s.store l c).pc = some l') : l'.fd = l.fd := by
  unfold State.store at h
  split at h
  · cases h
  · rw [test_reading h]

/-- Where nothing is left of the last descriptor the buffer is empty, whoever reads next. -/
theorem view_switch (hown : last = none → s.readBuf = []) {fd : Nat}
    (h : ∀ a, last = some a → a ≠ fd → s.view last a = []) : s.view (some fd) = s.view last := by
  by_cases hsame : last = some fd
  · rw [hsame]
  · have hbuf : s.readBuf = [] := by
      cases hl : last with
      | none => exact hown hl
      | some a =>
        have hne : a ≠ fd := fun he => hsame (he ▸ hl)
        have hnil := h a hl hne
        rw [State.view, if_pos hl] at hnil
        exact (List.append_eq_nil_iff.mp hnil).1
    funext b
    simp [State.view, hbuf]

theorem Agrees.call {c : Call} {calls : List Call} (h : Agrees lines last s) (hpc : s.pc = none)
    (hc : s.calls = c :: calls) :
    Agrees lines (if 1 < c.maxlen then some c.fd else last)
      (State.test { s with calls := calls } ⟨c.fd, c.maxlen, 1, []⟩) := by
  obtain ⟨last', hlast⟩ : ∃ last', last' = if 1 < c.maxlen then some c.fd else last := ⟨_, rfl⟩
  have hafter : s.after last = s.view last := by simp only [State.after, hpc]
  have hpend : s.pending last = [] := by simp only [State.pending, hpc]
  have hflow := h.flow
  have hsep := h.separate
  rw [hpend, hc, hafter, List.append_nil, returns1] at hflow
  rw [hc, hafter, Separate, ← hlast] at hsep
  have hview : State.view last' { s with calls := calls } = s.view last := by
    rw [hlast]
    split
    · rename_i hlt
      exact view_switch h.owner (hsep.1 hlt)
    · rfl
  have hfinish := test_finish last' { s with calls := calls } ⟨c.fd, c.maxlen, 1, []⟩
  rw [hview] at hfinish
  obtain ⟨hret, haft⟩ := hfinish
  rw [← hlast]
  refine ⟨?_, ?_, ?_, ?_⟩
  · rw [hret, haft, test_calls, List.append_assoc]
    exact hflow
  · rw [haft, test_calls]
    exact hsep.2
  · intro hnone
    rw [test_readBuf]
    apply h.owner
    rw [hlast] at hnone
    split at hnone
    · cases hnone
    · exact hnone
  · intro l hl
    have hlt := running_test _ _ l hl
    rw [test_reading hl] at hlt ⊢
    rw [hlast, if_pos hlt]

theorem Agrees.take {l : Loop} {c : Traced} {readBuf : List Traced} (h : Agrees lines last s)
    (hrun : Running s) (hpc : s.pc = some l) (hbuf : s.readBuf = c :: readBuf) :
    Agrees lines last (State.store { s with readBuf := readBuf } l c) := by
  have hlast := h.reading l hpc
  have hview : s.view last l.fd = c :: State.view last { s with readBuf := readBuf } l.fd := by
    simp [State.view, hlast, hbuf]
  have hupd : ∀ rest, Function.update (State.view last { s with readBuf := readBuf }) l.fd rest =
      Function.update (s.view last) l.fd rest := by
    intro rest
    funext fd
    by_cases hfd : fd = l.fd
    · rw [hfd, Function.update_self, Function.update_self]
    · have hne : ¬l.fd = fd := fun he => hfd he.symm
      simp [Function.update_of_ne hfd, State.view, hlast, hne]
  obtain ⟨hret, haft⟩ := store_finish last { s with readBuf := readBuf } c (hrun l hpc)
  rw [← hview] at hret haft
  rw [hupd] at haft
  have hpend : s.pending last = [(l.finish (s.view last l.fd)).1] := by simp only [State.pending, hpc]
  have hafter : s.after last = Function.update (s.view last) l.fd (l.finish (s.view last l.fd)).2 := by
    simp only [State.after, hpc]
  refine ⟨?_, ?_, ?_, ?_⟩
  · rw [hret, haft, store_calls, ← hpend, ← hafter]
    exact h.flow
  · rw [haft, store_calls, ← hafter]
    exact h.separate
  · intro hnone
    rw [hlast] at hnone
    cases hnone
  · intro l' hl'
    rw [hlast, store_reading hl']

theorem Agrees.eof {l : Loop} (h : Agrees lines last s) (hrun : Running s) (hpc : s.pc = some l)
    (hbuf : s.readBuf = []) (hf : s.files l.fd = []) :
    Agrees lines last (s.leave ⟨l.fd, l.n - 1, l.got⟩) := by
  have hlt := hrun l hpc
  obtain ⟨m, hm⟩ : ∃ m, l.maxlen - l.n = m + 1 := ⟨l.maxlen - l.n - 1, by omega⟩
  have hview : s.view last l.fd = [] := by simp [State.view, hbuf, hf]
  have hfin : l.finish (s.view last l.fd) = (⟨l.fd, l.n - 1, l.got⟩, s.view last l.fd) := by
    rw [hview, Loop.finish, hm, loop1]
  have hflow := h.flow
  have hsep := h.separate
  simp only [State.pending, State.after, hpc] at hflow hsep
  rw [hfin, Function.update_eq_self] at hflow hsep
  refine ⟨?_, hsep, h.owner, ?_⟩
  · simp only [State.leave, State.pending, List.append_nil]
    exact hflow
  · intro l' hl'
    cases hl'

theorem Agrees.fill {l : Loop} {k : Nat} (h : Agrees lines last s) (hpc : s.pc = some l)
    (hbuf : s.readBuf = []) :
    Agrees lines last
      { s with
        readBuf := (s.files l.fd).take k
        files := Function.update s.files l.fd ((s.files l.fd).drop k) } := by
  have hlast := h.reading l hpc
  have hview : State.view last
      { s with
        readBuf := (s.files l.fd).take k
        files := Function.update s.files l.fd ((s.files l.fd).drop k) } = s.view last := by
    funext fd
    by_cases hfd : fd = l.fd
    · simp [State.view, hlast, hfd, hbuf]
    · have hne : ¬l.fd = fd := fun he => hfd he.symm
      simp [State.view, hlast, hne, Function.update_of_ne hfd]
  have hflow := h.flow
  have hsep := h.separate
  simp only [State.pending, State.after] at hflow hsep
  refine ⟨?_, ?_, ?_, h.reading⟩
  · simp only [State.pending, State.after, hview]
    exact hflow
  · simp only [State.after, hview]
    exact hsep
  · intro hnone
    rw [hlast] at hnone
    cases hnone

theorem Agrees.step {a : Label} (h : Agrees lines last s) (hrun : Running s)
    (hs : Readline.step s a = some s') : ∃ last', Agrees lines last' s' := by
  cases move_of_step hs with
  | call c calls hpc hc => exact ⟨_, h.call hpc hc⟩
  | take l c readBuf hpc hbuf => exact ⟨last, h.take hrun hpc hbuf⟩
  | eof l hpc hbuf hf => exact ⟨last, h.eof hrun hpc hbuf hf⟩
  | fill l k hpc hbuf hk hle => exact ⟨last, h.fill hpc hbuf⟩
  | interrupted => exact ⟨last, h⟩

end Agreement

section Mixing

/-- A byte of another descriptor has been stored. -/
def Tainted (s : State) : Prop :=
  (∃ l c, s.pc = some l ∧ c ∈ l.got ∧ c.1 ≠ l.fd) ∨
    ∃ line ∈ s.returned, ∃ c ∈ line.text, c.1 ≠ line.fd

theorem tainted_test (s : State) {l : Loop}
    (h : (∃ c ∈ l.got, c.1 ≠ l.fd) ∨ ∃ line ∈ s.returned, ∃ c ∈ line.text, c.1 ≠ line.fd) :
    Tainted (s.test l) := by
  unfold State.test
  split
  · rcases h with ⟨c, hc, hne⟩ | hret
    · exact .inl ⟨l, c, rfl, hc, hne⟩
    · exact .inr hret
  · right
    rcases h with ⟨c, hc, hne⟩ | ⟨line, hl, hline⟩
    · exact ⟨⟨l.fd, l.n, l.got⟩, by simp [State.leave], c, hc, hne⟩
    · exact ⟨line, by simp [State.leave, hl], hline⟩

theorem tainted_store (s : State) {l : Loop} {c : Traced}
    (h : (∃ x ∈ l.got ++ [c], x.1 ≠ l.fd) ∨ ∃ line ∈ s.returned, ∃ x ∈ line.text, x.1 ≠ line.fd) :
    Tainted (s.store l c) := by
  unfold State.store
  split
  · right
    rcases h with ⟨x, hx, hne⟩ | ⟨line, hl, hline⟩
    · exact ⟨⟨l.fd, l.n, l.got ++ [c]⟩, by simp [State.leave], x, hx, hne⟩
    · exact ⟨line, by simp [State.leave, hl], hline⟩
  · exact tainted_test s h

/-- What is stored stays stored. -/
theorem Tainted.step {s s' : State} {a : Label} (h : Tainted s) (hs : Readline.step s a = some s') :
    Tainted s' := by
  cases move_of_step hs with
  | call c calls hpc hc =>
    rcases h with ⟨l, x, hl, -⟩ | hret
    · rw [hpc] at hl
      cases hl
    · exact tainted_test _ (.inr hret)
  | take l c readBuf hpc hbuf =>
    apply tainted_store
    rcases h with ⟨l', x, hl, hx, hne⟩ | hret
    · rw [hpc] at hl
      cases hl
      exact .inl ⟨x, List.mem_append_left _ hx, hne⟩
    · exact .inr hret
  | eof l hpc hbuf hf =>
    right
    rcases h with ⟨l', x, hl, hx, hne⟩ | ⟨line, hl, hline⟩
    · rw [hpc] at hl
      cases hl
      exact ⟨⟨l.fd, l.n - 1, l.got⟩, by simp [State.leave], x, hx, hne⟩
    · exact ⟨line, by simp [State.leave, hl], hline⟩
  | fill l k hpc hbuf hk hle => exact h
  | interrupted => exact h

variable {calls₀ : List Call} {files₀ files : Files} {calls : List Call} {R : List Line}

end Mixing

end LinuxPractice.Readline
