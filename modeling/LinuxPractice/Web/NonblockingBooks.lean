import LinuxPractice.Web.Nonblocking

namespace LinuxPractice.Web.Nonblocking

/-- The file has a socket. -/
def File.Active (f : File) : Prop := f.flags = .connecting ∨ f.flags = .reading

instance (f : File) : Decidable f.Active := inferInstanceAs (Decidable (_ ∨ _))

def File.active (f : File) : Int := if f.Active then 1 else 0

def File.unused (f : File) : Int := if f.flags = .unused then 1 else 0

def File.unread (f : File) : Int := if f.flags = .done then 0 else 1

variable {n : Nat} {maxnconn : Int} {s s' : State n}

/-- What main knows where it stands. -/
def PcHolds (maxnconn : Int) (s : State n) : Prop :=
  match s.pc with
  | .loop | .scan _ _ _ => True
  | .create => 0 < s.nlefttoread
  | .select => 0 < s.nlefttoread ∧ (maxnconn ≤ s.nconn ∨ s.nlefttoconn ≤ 0)
  | .exited => s.nlefttoread ≤ 0
  | .errQuit => False

/-- The counters count what their names say. -/
structure Books (maxnconn : Int) (s : State n) : Prop where
  nconn : s.nconn = total File.active s.file
  nlefttoconn : s.nlefttoconn = total File.unused s.file
  nlefttoread : s.nlefttoread = total File.unread s.file
  within : s.nconn ≤ max 0 maxnconn
  pc : PcHolds maxnconn s
  finished : ∀ i, (s.file i).flags = .done → (s.file i).left = 0

/-- The sockets are those of the active files, all of them are watched for reading, and for
writing until they are connected. -/
structure Watched (s : State n) : Prop where
  sockets : ∀ d i, Descriptors.object s.table d = some (.socket i) ↔ (s.file i).Active ∧ (s.file i).fd = d
  rset : ∀ d, d ∈ s.rset ↔ ∃ i, Descriptors.object s.table d = some (.socket i)
  wset : ∀ d, d ∈ s.wset ↔ ∃ i, Descriptors.object s.table d = some (.socket i) ∧ (s.file i).flags = .connecting
  maxfd : ∀ d ∈ s.rset, (d : Int) ≤ s.maxfd

theorem flags_of_firstUnused {i : Fin n} (h : s.firstUnused = some i) : (s.file i).flags = .unused :=
  of_decide_eq_true (Fin.find?_eq_some_iff.mp h).1

theorem firstUnused_isSome (h : 0 < total File.unused s.file) : s.firstUnused ≠ none := by
  obtain ⟨i, hi⟩ := exists_of_total_ne_zero (Int.ne_of_gt h)
  intro hnone
  exact hi (if_neg (of_decide_eq_false (Fin.find?_eq_none_iff.mp hnone i)))

theorem total_unread (s : State n) :
    total File.unread s.file = total File.unused s.file + total File.active s.file := by
  rw [total, total, total, ← Finset.sum_add_distrib]
  apply Finset.sum_congr rfl
  intro i _
  cases h : (s.file i).flags with
  | _ => simp [File.unread, File.unused, File.active, File.Active, h]

theorem Books.start (maxnconn : Int) (isOpen : List Bool) (reply : Fin n → Nat) :
    Books maxnconn (State.start isOpen reply) where
  nconn := by simp [State.start, total, File.active, File.Active]
  nlefttoconn := by simp [State.start, total, File.unused]
  nlefttoread := by simp [State.start, total, File.unread]
  within := by simp [State.start]
  pc := trivial
  finished i h := by cases h

/-- main goes on without touching a file. -/
theorem Books.goto (hb : Books maxnconn s) {pc : Pc} (hpc : PcHolds maxnconn { s with pc := pc }) :
    Books maxnconn { s with pc := pc } where
  nconn := hb.nconn
  nlefttoconn := hb.nlefttoconn
  nlefttoread := hb.nlefttoread
  within := hb.within
  pc := hpc
  finished := hb.finished

/-- A connection is started, goes on or ends. -/
theorem Books.change (hb : Books maxnconn s) {i : Fin n} {f : File}
    (hfile : s'.file = Function.update s.file i f) (hdone : f.flags = .done → f.left = 0)
    (hconn : s'.nconn = s.nconn + (f.active - (s.file i).active))
    (htoconn : s'.nlefttoconn = s.nlefttoconn + (f.unused - (s.file i).unused))
    (htoread : s'.nlefttoread = s.nlefttoread + (f.unread - (s.file i).unread))
    (hwithin : s'.nconn ≤ max 0 maxnconn) (hpc : PcHolds maxnconn s') : Books maxnconn s' where
  nconn := by rw [hconn, hb.nconn, total_of_update hfile]
  nlefttoconn := by rw [htoconn, hb.nlefttoconn, total_of_update hfile]
  nlefttoread := by rw [htoread, hb.nlefttoread, total_of_update hfile]
  within := hwithin
  pc := hpc
  finished j := by
    rw [hfile]
    by_cases hj : j = i
    · subst hj
      simpa using hdone
    · simpa [hj] using hb.finished j

/-- The file after start_connect. -/
theorem startConnect_file (s : State n) (i : Fin n) (done : Bool) :
    (s.startConnect i done).file = Function.update s.file i
      ⟨if done then .reading else .connecting, Descriptors.lowestUnused s.table, (s.file i).left⟩ := by
  cases done with
  | true => simp [State.startConnect, State.writeGetCmd, State.setFile]
  | false => simp [State.startConnect, State.setFile]

@[simp] theorem startConnect_pc (s : State n) (i : Fin n) (done : Bool) :
    (s.startConnect i done).pc = s.pc := by
  cases done with
  | _ => rfl

@[simp] theorem startConnect_nlefttoread (s : State n) (i : Fin n) (done : Bool) :
    (s.startConnect i done).nlefttoread = s.nlefttoread := by
  cases done with
  | _ => rfl

theorem Books.move (hb : Books maxnconn s) {l : Label} (hm : Move maxnconn s l s') : Books maxnconn s' := by
  have hholds := hb.pc
  cases hm with
  | go hpc h => exact hb.goto h
  | exit hpc h => exact hb.goto h
  | quit hpc hleft hi => exact absurd hi (firstUnused_isSome (hb.nlefttoconn ▸ hleft))
  | created hpc h =>
    rw [PcHolds, hpc] at hholds
    exact hb.goto ⟨hholds, h⟩
  | connect i done hpc hconn hleft hi =>
    have hfl := flags_of_firstUnused hi
    have hunused : ¬(s.file i).Active := by simp [File.Active, hfl]
    rw [PcHolds, hpc] at hholds
    refine hb.change (startConnect_file s i done) ?_ ?_ ?_ ?_ ?_ ?_
    · cases done <;> nofun
    · cases done <;> simp [File.active, hunused] <;> simp [File.Active]
    · cases done <;> simp [File.unused, hfl] <;> omega
    · cases done <;> simp [File.unread, hfl]
    · simp only
      omega
    · simpa [PcHolds, hpc] using hholds
  | select rs ws hpc hr => exact hb.goto trivial
  | connected i rs ws hpc hc =>
    refine hb.change (i := i) rfl nofun ?_ ?_ ?_ hb.within trivial
    · simp [State.writeGetCmd, State.setFile, File.active, File.Active, hc.1]
    · simp [State.writeGetCmd, State.setFile, File.unused, hc.1]
    · simp [State.writeGetCmd, State.setFile, File.unread, hc.1]
  | eof i rs ws hpc hr hleft =>
    refine hb.change (i := i) rfl (fun _ => hleft) ?_ ?_ ?_ ?_ trivial
    · simp [State.finish, File.active, File.Active, hr.1]
      omega
    · simp [State.finish, State.setFile, File.unused, hr.1]
    · simp [State.finish, File.unread, hr.1]
      omega
    · have hw := hb.within
      simp only [State.finish]
      omega
  | data i rs ws k hpc hr hk hle =>
    refine hb.change (i := i) rfl ?_ ?_ ?_ ?_ hb.within trivial
    · simp [hr.1]
    · simp [State.setFile, File.active, File.Active, hr.1]
    · simp [State.setFile, File.unused]
    · simp [State.setFile, File.unread]
  | skip i rs ws hpc hc hr => exact hb.goto trivial
  | scanned i rs ws hpc h => exact hb.goto trivial

theorem Watched.start (isOpen : List Bool) (reply : Fin n → Nat) : Watched (State.start isOpen reply) := by
  have hnone (d : Nat) (i : Fin n) :
      Descriptors.object (State.start isOpen reply).table d ≠ some (.socket i) := by
    intro h
    cases hb : isOpen[d]? with
    | none => simp [State.start, Descriptors.object, hb] at h
    | some b => cases b <;> simp [State.start, Descriptors.object, hb] at h
  refine ⟨fun d i => ?_, fun d => ?_, fun d => ?_, fun d h => ?_⟩
  · simp only [hnone, false_iff, not_and]
    intro ha
    simp [State.start, File.Active] at ha
  · simp only [hnone, exists_false, iff_false]
    exact Finset.notMem_empty d
  · simp only [hnone, false_and, exists_false, iff_false]
    exact Finset.notMem_empty d
  · exact absurd h (Finset.notMem_empty d)

/-- A descriptor is watched on behalf of one file. -/
theorem Watched.fd_ne (hw : Watched s) {i j : Fin n} (hi : (s.file i).Active) (hj : (s.file j).Active)
    (hne : i ≠ j) : (s.file i).fd ≠ (s.file j).fd := by
  intro he
  have h₁ := (hw.sockets _ i).mpr ⟨hi, he⟩
  have h₂ := (hw.sockets _ j).mpr ⟨hj, rfl⟩
  rw [h₁] at h₂
  exact hne (Object.socket.inj (Option.some.inj h₂))

theorem Watched.startConnect (hw : Watched s) {i : Fin n} (hi : (s.file i).flags = .unused) (done : Bool) :
    Watched (s.startConnect i done) := by
  have hold (d : Nat) : Descriptors.object s.table d ≠ some (.socket i) := by
    intro h
    have ha := ((hw.sockets d i).mp h).1
    simp [File.Active, hi] at ha
  have hactive : (⟨if done then .reading else .connecting, Descriptors.lowestUnused s.table,
      (s.file i).left⟩ : File).Active := by
    cases done <;> simp [File.Active]
  obtain ⟨fd, hfd⟩ : ∃ fd, fd = Descriptors.lowestUnused s.table := ⟨_, rfl⟩
  have hfree := Descriptors.object_lowestUnused s.table
  have htable (d : Nat) : Descriptors.object (s.startConnect i done).table d =
      if d = fd then some (.socket i) else Descriptors.object s.table d := by
    have ht : (s.startConnect i done).table = Descriptors.install (.socket i) s.table := by
      cases done <;> rfl
    rw [ht]
    split
    · rename_i hd
      rw [hd, hfd, Descriptors.object_install_self]
    · rename_i hd
      exact Descriptors.object_install_ne _ _ (hfd ▸ hd)
  rw [← hfd] at hfree hactive
  refine ⟨fun d j => ?_, fun d => ?_, fun d => ?_, fun d hd => ?_⟩
  · rw [htable, startConnect_file, ← hfd]
    by_cases hj : j = i
    · subst hj
      simp only [Function.update_self, hactive, true_and]
      by_cases hd : d = fd
      · simp [hd]
      · simp [hd, hold, Ne.symm hd]
    · rw [Function.update_of_ne hj, ← hw.sockets]
      by_cases hd : d = fd
      · simp [hd, hfree, Ne.symm hj]
      · simp [hd]
  · have hr : (s.startConnect i done).rset = insert fd s.rset := by
      cases done <;> simp [State.startConnect, State.writeGetCmd, State.setFile, hfd]
    rw [hr, Finset.mem_insert, hw.rset]
    by_cases hd : d = fd
    · simp [hd, htable]
    · simp [hd, htable]
  · have hwset : d ∈ (s.startConnect i done).wset ↔ (d = fd ∧ done = false) ∨ d ∈ s.wset := by
      cases done <;> simp [State.startConnect, State.writeGetCmd, State.setFile, hfd]
    rw [hwset, hw.wset, htable, startConnect_file]
    by_cases hd : d = fd
    · cases done <;> simp [hd, hfree]
    · simp only [hd, false_and, false_or, if_false]
      apply exists_congr
      intro j
      apply and_congr_right
      intro hj
      have hne : j ≠ i := fun he => hold d (he ▸ hj)
      rw [Function.update_of_ne hne]
  · have hr : d = fd ∨ d ∈ s.rset := by
      cases done <;> simpa [State.startConnect, State.writeGetCmd, State.setFile, hfd] using hd
    have hmax : (s.startConnect i done).maxfd = max s.maxfd fd := by
      cases done <;> simp [State.startConnect, State.writeGetCmd, State.setFile, hfd]
    rw [hmax]
    rcases hr with rfl | hr
    · exact le_max_right _ _
    · exact (hw.maxfd d hr).trans (le_max_left _ _)

theorem Watched.connected (hw : Watched s) {i : Fin n} (hi : (s.file i).flags = .connecting) :
    Watched (({ s with wset := s.wset.erase (s.file i).fd } : State n).writeGetCmd i) := by
  have hact : (s.file i).Active := .inl hi
  have hin : (s.file i).fd ∈ s.rset := (hw.rset _).mpr ⟨i, (hw.sockets _ i).mpr ⟨hact, rfl⟩⟩
  refine ⟨fun d j => ?_, fun d => ?_, fun d => ?_, fun d hd => ?_⟩
  · rw [State.writeGetCmd]
    simp only [State.setFile]
    by_cases hj : j = i
    · subst hj
      simp [hw.sockets, File.Active, hi]
    · simp [Function.update_of_ne hj, hw.sockets]
  · rw [State.writeGetCmd]
    simp only [State.setFile, Finset.insert_eq_of_mem hin]
    exact hw.rset d
  · rw [State.writeGetCmd]
    simp only [State.setFile, Finset.mem_erase, hw.wset]
    constructor
    · rintro ⟨hne, j, hj, hfl⟩
      have hji : j ≠ i := by
        rintro rfl
        exact hne ((hw.sockets d j).mp hj).2.symm
      exact ⟨j, hj, by rw [Function.update_of_ne hji]; exact hfl⟩
    · rintro ⟨j, hj, hfl⟩
      have hji : j ≠ i := by
        rintro rfl
        simp at hfl
      rw [Function.update_of_ne hji] at hfl
      refine ⟨fun he => ?_, j, hj, hfl⟩
      obtain ⟨hact', hfd⟩ := (hw.sockets d j).mp hj
      exact hw.fd_ne hact' hact hji (hfd.trans he)
  · have hmem : d ∈ s.rset := by
      simpa [State.writeGetCmd, State.setFile, Finset.insert_eq_of_mem hin] using hd
    exact (hw.maxfd d hmem).trans (le_max_left _ _)

theorem Watched.finish (hw : Watched s) {i : Fin n} (hi : (s.file i).flags = .reading) :
    Watched (s.finish i) := by
  have hact : (s.file i).Active := .inr hi
  have htable (d : Nat) : Descriptors.object (s.finish i).table d =
      if d = (s.file i).fd then none else Descriptors.object s.table d := by
    split
    · rename_i hd
      rw [hd]
      exact Descriptors.object_close_self _ _
    · rename_i hd
      exact Descriptors.object_close_ne _ hd
  have hother {d : Nat} {j : Fin n} (hd : d ≠ (s.file i).fd)
      (hj : Descriptors.object s.table d = some (.socket j)) : j ≠ i := by
    rintro rfl
    exact hd ((hw.sockets d j).mp hj).2.symm
  refine ⟨fun d j => ?_, fun d => ?_, fun d => ?_, fun d hd => ?_⟩
  · rw [htable]
    simp only [State.finish, State.setFile]
    by_cases hj : j = i
    · subst hj
      have hno : ¬(if d = (s.file j).fd then none else Descriptors.object s.table d) =
          some (Object.socket j) := by
        split
        · simp
        · rename_i hd
          exact fun h => hother hd h rfl
      simp [hno, File.Active]
    · rw [Function.update_of_ne hj]
      by_cases hd : d = (s.file i).fd
      · have hno : ¬((s.file j).Active ∧ (s.file j).fd = d) :=
          fun h => hw.fd_ne h.1 hact hj (h.2.trans hd)
        simp [hd, hd ▸ hno]
      · rw [if_neg hd, hw.sockets]
  · rw [htable]
    simp only [State.finish, Finset.mem_erase, hw.rset]
    by_cases hd : d = (s.file i).fd
    · simp [hd]
    · simp [hd]
  · rw [htable]
    simp only [State.finish, State.setFile, hw.wset]
    by_cases hd : d = (s.file i).fd
    · have hno : ¬∃ j, Descriptors.object s.table d = some (.socket j) ∧ (s.file j).flags = .connecting := by
        rintro ⟨j, hj, hfl⟩
        have hi' := (hw.sockets d i).mpr ⟨hact, hd.symm⟩
        rw [hj] at hi'
        obtain rfl := Object.socket.inj (Option.some.inj hi')
        rw [hi] at hfl
        cases hfl
      simp [hno, if_pos hd]
    · rw [if_neg hd]
      apply exists_congr
      intro j
      apply and_congr_right
      intro hj
      rw [Function.update_of_ne (hother hd hj)]
  · exact hw.maxfd d (Finset.mem_of_mem_erase hd)

theorem Watched.data (hw : Watched s) (i : Fin n) (left : Nat) :
    Watched (s.setFile i { s.file i with left := left }) := by
  have hsame (j : Fin n) : ((s.setFile i { s.file i with left := left }).file j).flags = (s.file j).flags ∧
      ((s.setFile i { s.file i with left := left }).file j).fd = (s.file j).fd := by
    by_cases hj : j = i
    · subst hj
      simp [State.setFile]
    · simp [State.setFile, hj]
  refine ⟨fun d j => ?_, hw.rset, fun d => ?_, hw.maxfd⟩
  · rw [File.Active, (hsame j).1, (hsame j).2]
    exact hw.sockets d j
  · simp only [(hsame _).1]
    exact hw.wset d

/-- main goes on with what is watched as it is. -/
theorem Watched.goto (hw : Watched s) (nconn nlefttoconn nlefttoread : Int) (pc : Pc) :
    Watched { s with nconn := nconn, nlefttoconn := nlefttoconn, nlefttoread := nlefttoread, pc := pc } :=
  ⟨hw.sockets, hw.rset, hw.wset, hw.maxfd⟩

theorem Watched.move (hw : Watched s) {l : Label} (hm : Move maxnconn s l s') : Watched s' := by
  cases hm with
  | connect i done hpc hconn hleft hi =>
    exact (hw.startConnect (flags_of_firstUnused hi) done).goto _ _ _ _
  | connected i rs ws hpc hc => exact (hw.connected hc.1).goto _ _ _ _
  | eof i rs ws hpc hr hleft => exact (hw.finish hr.1).goto _ _ _ _
  | data i rs ws k hpc hr hk hle => exact (hw.data i _).goto _ _ _ _
  | _ => exact hw.goto _ _ _ _

variable {isOpen : List Bool} {reply : Fin n → Nat}

theorem books_of_reachable (h : (web maxnconn isOpen reply).Reachable s) : Books maxnconn s :=
  Machine.Reachable.invariant (Books.start maxnconn isOpen reply)
    (fun _ _ _ hb hs => hb.move (move_of_step hs)) h

theorem watched_of_reachable (h : (web maxnconn isOpen reply).Reachable s) : Watched s :=
  Machine.Reachable.invariant (Watched.start isOpen reply)
    (fun _ _ _ hw hs => hw.move (move_of_step hs)) h

/-- In every reachable state the sockets are those of the files in hand, each has a descriptor
of its own that Select watches, and there are at most maxnconn; err_quit is not reached, and
when main exits every file has been read to its end and every socket is closed. -/
theorem web_select_books (maxnconn : Int) (isOpen : List Bool) (reply : Fin n → Nat) (s : State n)
    (h : (web maxnconn isOpen reply).Reachable s) :
    s.pc ≠ .errQuit ∧ total File.active s.file ≤ max 0 maxnconn ∧ Watched s ∧
      (s.pc = .exited → ∀ i, (s.file i).flags = .done ∧ (s.file i).left = 0 ∧
        ∀ d, Descriptors.object s.table d ≠ some (.socket i)) := by
  have hb := books_of_reachable h
  have hw := watched_of_reachable h
  have hholds := hb.pc
  refine ⟨fun hpc => ?_, hb.nconn ▸ hb.within, hw, fun hpc i => ?_⟩
  · rw [PcHolds, hpc] at hholds
    exact hholds
  · rw [PcHolds, hpc] at hholds
    have hnn (f : File) : 0 ≤ f.unread := by
      unfold File.unread
      split <;> decide
    have hzero : total File.unread s.file = 0 := by
      have hge := total_nonneg hnn s.file
      have hle : s.nlefttoread ≤ 0 := hholds
      rw [hb.nlefttoread] at hle
      omega
    have hdone : (s.file i).flags = .done := by
      have hi := (total_eq_zero_iff hnn s.file).mp hzero i
      unfold File.unread at hi
      split at hi
      · assumption
      · cases hi
    refine ⟨hdone, hb.finished i hdone, fun d hd => ?_⟩
    have hact := ((hw.sockets d i).mp hd).1
    simp [File.Active, hdone] at hact

/-- Two files over two connections; the second one's connect is done at once. -/
def twoAtATime : List Label :=
  [.step, .connect false, .connect true, .step, .select {3, 4} {3}, .step, .read 5, .step, .step, .step,
    .select {3} ∅, .read 5, .step, .step, .step, .step, .select {3, 4} ∅, .read 0, .read 0, .step, .step]

theorem web_select_books_two :
    ∃ s, (web 2 [true, true, true] fun _ : Fin 2 => 5).Reachable s ∧ s.pc = .exited ∧
      Descriptors.object s.table 3 ≠ some (.socket 0) := by
  have hexit : ((web 2 [true, true, true] fun _ : Fin 2 => 5).run
      (.start [true, true, true] fun _ => 5) twoAtATime).map State.pc = some .exited := by
    decide
  obtain ⟨s, hs, hpc⟩ := Option.map_eq_some_iff.mp hexit
  exact ⟨s, ⟨_, hs⟩, hpc, ((web_select_books 2 _ _ s ⟨_, hs⟩).2.2.2 hpc 0).2.2 3⟩

end LinuxPractice.Web.Nonblocking
