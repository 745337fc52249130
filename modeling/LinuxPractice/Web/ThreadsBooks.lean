import LinuxPractice.Web.Threads

namespace LinuxPractice.Web.Threads

/-- What f_flags says about the thread. -/
def File.Agrees (f : File) : Prop :=
  match f.pc with
  | .absent => f.flags = .unused
  | .connect => f.flags = .connecting
  | .read _ => f.flags = .reading
  | .lock | .locked => f.flags = .done
  | .returned => f.flags = .done ∨ f.flags = .joined

/-- A thread that is created and not joined. -/
def File.active (f : File) : Int :=
  match f.flags with
  | .connecting | .reading | .done => 1
  | _ => 0

def File.unused (f : File) : Int := if f.flags = .unused then 1 else 0

def File.unread (f : File) : Int := if f.flags = .joined then 0 else 1

/-- A thread that has incremented ndone and is not joined. -/
def File.reported (f : File) : Int := if f.flags = .done ∧ f.pc = .returned then 1 else 0

/-- A thread that has locked ndone_mutex. -/
def File.holding (f : File) : Int := if f.pc = .locked then 1 else 0

def MainPc.holding {n : Nat} : MainPc n → Int
  | .test | .scan _ | .join _ => 1
  | _ => 0

variable {n : Nat} {maxnconn : Int} {reply : Fin n → Nat} {s s' : State n}

/-- All connections that main may have, or as many as there are files. -/
def Saturated (maxnconn : Int) (s : State n) : Prop :=
  0 < s.nlefttoread ∧ (maxnconn ≤ s.nconn ∨ s.nlefttoconn ≤ 0)

/-- What main knows where it stands. -/
def MainHolds (maxnconn : Int) (s : State n) : Prop :=
  match s.main with
  | .loop | .scan _ => True
  | .create => 0 < s.nlefttoread
  | .lock | .test | .woken => Saturated maxnconn s
  | .waiting => Saturated maxnconn s ∧ s.ndone = 0
  | .join i => (s.file i).flags = .done
  | .exited => s.nlefttoread ≤ 0
  | .errQuit => False

/-- The counters count what their names say, and ndone_mutex has one owner. -/
structure Books (maxnconn : Int) (s : State n) : Prop where
  agrees : ∀ i, (s.file i).Agrees
  nconn : s.nconn = total File.active s.file
  nlefttoconn : s.nlefttoconn = total File.unused s.file
  nlefttoread : s.nlefttoread = total File.unread s.file
  ndone : s.ndone = total File.reported s.file
  mutex : total File.holding s.file + s.main.holding = s.locked.toInt
  within : s.nconn ≤ max 0 maxnconn
  main : MainHolds maxnconn s

theorem File.Agrees.absent_of_unused {f : File} (h : f.Agrees) (hf : f.flags = .unused) :
    f.pc = .absent := by
  unfold File.Agrees at h
  cases hpc : f.pc with
  | absent => rfl
  | _ => simp [hpc, hf] at h

theorem flags_of_firstUnused {i : Fin n} (h : s.firstUnused = some i) : (s.file i).flags = .unused :=
  of_decide_eq_true (Fin.find?_eq_some_iff.mp h).1

theorem firstUnused_isSome (h : 0 < total File.unused s.file) : s.firstUnused ≠ none := by
  obtain ⟨i, hi⟩ := exists_of_total_ne_zero (Int.ne_of_gt h)
  intro hnone
  exact hi (if_neg (of_decide_eq_false (Fin.find?_eq_none_iff.mp hnone i)))

theorem total_unread (s : State n) :
    total File.unread s.file = total File.unused s.file + total File.active s.file := by
  rw [total, total, total, ← Finset.sum_add_distrib]
  apply Finset.sum_congr rfl
  intro i _
  cases h : (s.file i).flags with
  | _ => simp [File.unread, File.unused, File.active, h]

theorem Books.start (maxnconn : Int) : Books maxnconn (State.start n) where
  agrees _ := rfl
  nconn := by simp [State.start, total, File.active]
  nlefttoconn := by simp [State.start, total, File.unused]
  nlefttoread := by simp [State.start, total, File.unread]
  ndone := by simp [State.start, total, File.reported]
  mutex := by simp [State.start, total, File.holding, MainPc.holding]
  within := by simp [State.start]
  main := trivial

theorem holding_nonneg (f : File) : 0 ≤ f.holding := by
  unfold File.holding
  split <;> decide

/-- Where main has locked ndone_mutex, no thread has. -/
theorem Books.locked (hb : Books maxnconn s) (h : s.main.holding = 1) :
    s.locked = true ∧ total File.holding s.file = 0 := by
  have hm := hb.mutex
  have hn := total_nonneg holding_nonneg s.file
  cases hl : s.locked with
  | true =>
    rw [hl, Bool.toInt_true] at hm
    exact ⟨rfl, by omega⟩
  | false =>
    rw [hl, Bool.toInt_false] at hm
    omega

theorem Books.locked_of_thread (hb : Books maxnconn s) {i : Fin n} (h : (s.file i).pc = .locked) :
    s.locked = true := by
  have hm := hb.mutex
  have hone := single_le_total holding_nonneg s.file i
  have hmain : 0 ≤ s.main.holding := by
    unfold MainPc.holding
    split <;> decide
  rw [File.holding, if_pos h] at hone
  cases hl : s.locked with
  | true => rfl
  | false =>
    rw [hl, Bool.toInt_false] at hm
    omega

/-- main goes on without touching a file. -/
theorem Books.goto (hb : Books maxnconn s) {pc : MainPc n} {locked : Bool}
    (hl : pc.holding + s.locked.toInt = s.main.holding + locked.toInt)
    (hm : MainHolds maxnconn { s with locked := locked, main := pc }) :
    Books maxnconn { s with locked := locked, main := pc } where
  agrees := hb.agrees
  nconn := hb.nconn
  nlefttoconn := hb.nlefttoconn
  nlefttoread := hb.nlefttoread
  ndone := hb.ndone
  mutex := by
    have h := hb.mutex
    simp only
    omega
  within := hb.within
  main := hm

/-- A thread is created, goes on or is joined. -/
theorem Books.change (hb : Books maxnconn s) {i : Fin n} {f : File}
    (hfile : s'.file = Function.update s.file i f) (hf : f.Agrees)
    (hconn : s'.nconn = s.nconn + (f.active - (s.file i).active))
    (htoconn : s'.nlefttoconn = s.nlefttoconn + (f.unused - (s.file i).unused))
    (htoread : s'.nlefttoread = s.nlefttoread + (f.unread - (s.file i).unread))
    (hdone : s'.ndone = s.ndone + (f.reported - (s.file i).reported))
    (hmutex : f.holding + s'.main.holding + s.locked.toInt =
      (s.file i).holding + s.main.holding + s'.locked.toInt)
    (hwithin : s'.nconn ≤ max 0 maxnconn) (hm : MainHolds maxnconn s') : Books maxnconn s' where
  agrees j := by
    rw [hfile]
    by_cases hj : j = i
    · subst hj
      simpa using hf
    · simpa [hj] using hb.agrees j
  nconn := by rw [hconn, hb.nconn, total_of_update hfile]
  nlefttoconn := by rw [htoconn, hb.nlefttoconn, total_of_update hfile]
  nlefttoread := by rw [htoread, hb.nlefttoread, total_of_update hfile]
  ndone := by rw [hdone, hb.ndone, total_of_update hfile]
  mutex := by
    have h := hb.mutex
    rw [total_of_update hfile]
    omega
  within := hwithin
  main := hm

theorem Books.create (hb : Books maxnconn s) {i : Fin n} (hpc : s.main = .create)
    (hconn : s.nconn < maxnconn) (hi : s.firstUnused = some i) :
    Books maxnconn { s.setFile i ⟨.connecting, .connect⟩ with
      nconn := s.nconn + 1, nlefttoconn := s.nlefttoconn - 1 } := by
  have hfl := flags_of_firstUnused hi
  have hpcs := (hb.agrees i).absent_of_unused hfl
  have hmain := hb.main
  rw [MainHolds, hpc] at hmain
  refine hb.change rfl rfl ?_ ?_ ?_ ?_ ?_ ?_ ?_
  · simp [File.active, hfl]
  · simp [File.unused, hfl]
    omega
  · simp [File.unread, hfl, State.setFile]
  · simp [File.reported, hfl, State.setFile]
  · simp only [File.holding, hpcs, State.setFile, hpc]
    simp
  · simp only
    omega
  · simpa [MainHolds, State.setFile, hpc] using hmain

theorem Books.join (hb : Books maxnconn s) {i : Fin n} (hpc : s.main = .join i)
    (hf : (s.file i).pc = .returned) :
    Books maxnconn { s.setFile i ⟨.joined, .returned⟩ with
      ndone := s.ndone - 1, nconn := s.nconn - 1, nlefttoread := s.nlefttoread - 1,
      main := .scan (i + 1) } := by
  have hfl : (s.file i).flags = .done := by
    have hmain := hb.main
    rw [MainHolds, hpc] at hmain
    exact hmain
  refine hb.change rfl (.inr rfl) ?_ ?_ ?_ ?_ ?_ ?_ trivial
  · simp [File.active, hfl]
    omega
  · simp [File.unused, hfl, State.setFile]
  · simp [File.unread, hfl]
    omega
  · simp [File.reported, hfl, hf]
    omega
  · simp [File.holding, hf, hpc, State.setFile, MainPc.holding]
  · have hw := hb.within
    simp only
    omega

theorem Books.mainMove (hb : Books maxnconn s) (hm : MainMove maxnconn s s') : Books maxnconn s' := by
  have hmain := hb.main
  cases hm with
  | go hpc h => exact hb.goto (by simp [hpc, MainPc.holding]) h
  | exit hpc h => exact hb.goto (by simp [hpc, MainPc.holding]) h
  | create i hpc hconn hleft hi => exact hb.create hpc hconn hi
  | quit hpc hleft hi =>
    rw [hb.nlefttoconn] at hleft
    exact absurd hi (firstUnused_isSome hleft)
  | created hpc h =>
    rw [MainHolds, hpc] at hmain
    exact hb.goto (by simp [hpc, MainPc.holding]) ⟨hmain, h⟩
  | lock hpc hfree =>
    have hs : Saturated maxnconn s := by
      rw [MainHolds] at hmain
      rcases hpc with hpc | hpc <;> rw [hpc] at hmain <;> exact hmain
    refine hb.goto ?_ hs
    rcases hpc with hpc | hpc <;> simp [hpc, hfree, MainPc.holding]
  | wait hpc h =>
    rw [MainHolds, hpc] at hmain
    have hl := (hb.locked (by rw [hpc]; rfl)).1
    exact hb.goto (by simp [hpc, hl, MainPc.holding]) ⟨hmain, h⟩
  | tested hpc h => exact hb.goto (by simp [hpc, MainPc.holding]) trivial
  | found i h hpc hf => exact hb.goto (by simp [hpc, MainPc.holding]) hf
  | skip i h hpc hf => exact hb.goto (by simp [hpc, MainPc.holding]) trivial
  | unlock i h hpc =>
    have hl := (hb.locked (by rw [hpc]; rfl)).1
    exact hb.goto (by simp [hpc, hl, MainPc.holding]) trivial
  | join i hpc hf => exact hb.join hpc hf

/-- What main knows does not change when a thread goes on. -/
theorem mainHolds_setFile {i : Fin n} {f : File} (h : MainHolds maxnconn s)
    (hf : (s.file i).flags = .done → f.flags = .done) : MainHolds maxnconn (s.setFile i f) := by
  unfold MainHolds at h ⊢
  have hmain : (s.setFile i f).main = s.main := rfl
  rw [hmain]
  cases hpc : s.main with
  | join j =>
    simp only [hpc] at h ⊢
    by_cases hj : j = i
    · subst hj
      simpa [State.setFile] using hf h
    · simpa [State.setFile, hj] using h
  | _ =>
    rw [hpc] at h
    exact h

theorem signalled_holding (pc : MainPc n) : pc.signalled.holding = pc.holding := by
  cases pc with
  | _ => rfl

/-- A signal gets main out of Pthread_cond_wait. -/
theorem mainHolds_signalled (h : MainHolds maxnconn s) :
    MainHolds maxnconn { s with ndone := s.ndone + 1, main := s.main.signalled, locked := false } := by
  unfold MainHolds at h ⊢
  cases hpc : s.main with
  | waiting =>
    rw [hpc] at h
    exact h.1
  | _ =>
    rw [hpc] at h
    exact h

theorem Books.threadMove (hb : Books maxnconn s) {i : Fin n} (hm : ThreadMove reply s i s') :
    Books maxnconn s' := by
  have hag := hb.agrees i
  have hmain := hb.main
  unfold File.Agrees at hag
  cases hm with
  | connect hpc =>
    rw [hpc] at hag
    refine hb.change rfl rfl ?_ ?_ ?_ ?_ ?_ hb.within (mainHolds_setFile hmain ?_)
    · simp [File.active, hag, State.setFile]
    · simp [File.unused, hag, State.setFile]
    · simp [File.unread, hag, State.setFile]
    · simp [File.reported, hag, State.setFile]
    · simp [File.holding, hpc, State.setFile]
    · simp [hag]
  | read left k hpc hk hle =>
    rw [hpc] at hag
    refine hb.change rfl hag ?_ ?_ ?_ ?_ ?_ hb.within (mainHolds_setFile hmain id)
    · simp [File.active, State.setFile]
    · simp [File.unused, State.setFile]
    · simp [File.unread, State.setFile]
    · simp [File.reported, hpc, State.setFile]
    · simp [File.holding, hpc, State.setFile]
  | eof hpc =>
    rw [hpc] at hag
    refine hb.change rfl rfl ?_ ?_ ?_ ?_ ?_ hb.within (mainHolds_setFile hmain fun _ => rfl)
    · simp [File.active, hag, State.setFile]
    · simp [File.unused, hag, State.setFile]
    · simp [File.unread, hag, State.setFile]
    · simp [File.reported, hag, State.setFile]
    · simp [File.holding, hpc, State.setFile]
  | lock hpc hfree =>
    rw [hpc] at hag
    refine hb.change rfl hag ?_ ?_ ?_ ?_ ?_ hb.within (mainHolds_setFile hmain id)
    · simp [File.active, State.setFile]
    · simp [File.unused, State.setFile]
    · simp [File.unread, State.setFile]
    · simp [File.reported, hpc, State.setFile]
    · simp [File.holding, hpc, hfree, State.setFile, Int.add_comm]
  | report hpc =>
    rw [hpc] at hag
    have hl := hb.locked_of_thread hpc
    have hset : MainHolds maxnconn (s.setFile i ⟨(s.file i).flags, .returned⟩) :=
      mainHolds_setFile hmain id
    refine hb.change rfl (.inl hag) ?_ ?_ ?_ ?_ ?_ hb.within (mainHolds_signalled hset)
    · simp [File.active, State.setFile]
    · simp [File.unused, State.setFile]
    · simp [File.unread, State.setFile]
    · simp [File.reported, hag, hpc]
    · simp [File.holding, hpc, hl, signalled_holding, Int.add_comm]

theorem Books.step (hb : Books maxnconn s) {l : Label n} (hs : step maxnconn reply s l = some s') :
    Books maxnconn s' := by
  obtain ⟨-, ⟨-, hm⟩ | ⟨i, -, hm⟩ | ⟨-, hpc, rfl⟩⟩ := step_cases hs
  · exact hb.mainMove hm
  · exact hb.threadMove hm
  · have hmain := hb.main
    rw [MainHolds, hpc] at hmain
    exact hb.goto (by simp [hpc, MainPc.holding]) hmain.1

theorem books_of_reachable (h : (web maxnconn reply).Reachable s) : Books maxnconn s :=
  Machine.Reachable.invariant (Books.start maxnconn) (fun _ _ _ hb hs => hb.step hs) h

/-- The file that a step creates a thread for. -/
def created (maxnconn : Int) (s : State n) : Label n → Option (Fin n)
  | .main =>
    if s.main = .create ∧ s.nconn < maxnconn ∧ 0 < s.nlefttoconn then s.firstUnused else none
  | _ => none

/-- A step leaves the files that have a thread alone and gives one to at most one other. -/
theorem unused_of_step (hb : Books maxnconn s) {l : Label n} (hs : step maxnconn reply s l = some s') :
    (created maxnconn s l = none ∧
      ∀ j, (s'.file j).flags = .unused ↔ (s.file j).flags = .unused) ∨
    ∃ i, created maxnconn s l = some i ∧ s.firstUnused = some i ∧
      ∀ j, (s'.file j).flags = .unused ↔ (s.file j).flags = .unused ∧ j ≠ i := by
  have hset {i : Fin n} {f : File} (hi : (s.file i).flags ≠ .unused) (hf : f.flags ≠ .unused) (j : Fin n) :
      ((s.setFile i f).file j).flags = .unused ↔ (s.file j).flags = .unused := by
    by_cases hj : j = i
    · subst hj
      simp [State.setFile, hi, hf]
    · simp [State.setFile, hj]
  obtain ⟨-, ⟨rfl, hm⟩ | ⟨i, hl, hm⟩ | ⟨rfl, hpc, rfl⟩⟩ := step_cases hs
  · cases hm with
    | create i hpc hconn hleft hi =>
      refine .inr ⟨i, ?_, hi, fun j => ?_⟩
      · simp [created, hpc, hconn, hleft, hi]
      · by_cases hj : j = i
        · subst hj
          simp [State.setFile]
        · simp [State.setFile, hj]
    | quit hpc hleft hi => exact .inl ⟨by simp [created, hi], fun j => Iff.rfl⟩
    | created hpc h =>
      have hn : ¬(s.nconn < maxnconn ∧ 0 < s.nlefttoconn) := by omega
      exact .inl ⟨by simp [created, hn], fun j => Iff.rfl⟩
    | join i hpc hf =>
      refine .inl ⟨by simp [created, hpc], hset ?_ (by simp)⟩
      have hag := hb.agrees i
      rw [File.Agrees, hf] at hag
      rcases hag with h | h <;> simp [h]
    | lock hpc hfree =>
      refine .inl ⟨?_, fun j => Iff.rfl⟩
      rcases hpc with hpc | hpc <;> simp [created, hpc]
    | go hpc _ | exit hpc _ | wait hpc _ | tested hpc _ =>
      exact .inl ⟨by simp [created, hpc], fun j => Iff.rfl⟩
    | found i h hpc hf | skip i h hpc hf => exact .inl ⟨by simp [created, hpc], fun j => Iff.rfl⟩
    | unlock i h hpc => exact .inl ⟨by simp [created, hpc], fun j => Iff.rfl⟩
  · have hnone : created maxnconn s l = none := by
      rcases hl with rfl | ⟨k, rfl⟩ <;> rfl
    have hag := hb.agrees i
    unfold File.Agrees at hag
    have hne : (s.file i).flags ≠ .unused := by
      cases hm with
      | connect hpc | read left k hpc hk hle | eof hpc | lock hpc hfree | report hpc =>
        rw [hpc] at hag
        simp [hag]
    refine .inl ⟨hnone, ?_⟩
    cases hm with
    | connect hpc => exact hset hne (by simp)
    | eof hpc => exact hset hne (by simp)
    | read left k hpc hk hle => exact hset hne hne
    | lock hpc hfree => exact hset hne hne
    | report hpc => exact hset hne hne
  · exact .inl ⟨rfl, fun j => Iff.rfl⟩

/-- The files get their threads in the order of file[]. -/
theorem created_in_order {tr : List (Label n)} (hr : (web maxnconn reply).run (.start n) tr = some s) :
    ∃ m, (web maxnconn reply).log (created maxnconn) (.start n) tr = (List.finRange n).take m ∧
      ∀ i : Fin n, (s.file i).flags = .unused ↔ m ≤ i := by
  refine (web maxnconn reply).run_induction (P := fun tr s =>
    ∃ m, (web maxnconn reply).log (created maxnconn) (.start n) tr = (List.finRange n).take m ∧
      ∀ i : Fin n, (s.file i).flags = .unused ↔ m ≤ i) ?_ ?_ hr
  · exact ⟨0, rfl, fun i => by simp [State.start]⟩
  · intro tr s l s' hu ⟨m, hlog, hm⟩ hs
    rw [Machine.log_snoc _ _ hu hs, hlog]
    rcases unused_of_step (books_of_reachable ⟨tr, hu⟩) hs with ⟨hnone, hj⟩ | ⟨i, hsome, hi, hj⟩
    · refine ⟨m, by simp [hnone], fun j => ?_⟩
      rw [hj, hm]
    · -- the first file without a thread is the one behind those that have one
      have hmi : m = i := by
        have hge := (hm i).mp (flags_of_firstUnused hi)
        by_contra hne
        have hlt : m < i := by omega
        have hused := (Fin.find?_eq_some_iff.mp hi).2 ⟨m, by omega⟩ hlt
        have hunused := (hm ⟨m, by omega⟩).mpr (Nat.le_refl m)
        simp [hunused] at hused
      refine ⟨m + 1, ?_, fun j => ?_⟩
      · have hlt : m < (List.finRange n).length := by
          rw [List.length_finRange, hmi]
          exact i.isLt
        rw [hsome, List.take_add_one, List.getElem?_eq_getElem hlt]
        simp [hmi]
      · rw [hj, hm]
        constructor
        · rintro ⟨hle, hne⟩
          have hval : (j : Nat) ≠ i := fun he => hne (Fin.ext he)
          omega
        · intro hle
          refine ⟨by omega, fun he => ?_⟩
          subst he
          omega

theorem unread_nonneg (f : File) : 0 ≤ f.unread := by
  unfold File.unread
  split <;> decide

/-- When nothing is left to read, every thread has returned and is joined. -/
theorem Books.all_joined (hb : Books maxnconn s) (h : s.main = .exited) (i : Fin n) :
    s.file i = ⟨.joined, .returned⟩ := by
  have hmain := hb.main
  rw [MainHolds, h] at hmain
  have hzero : total File.unread s.file = 0 := by
    have hnn := total_nonneg unread_nonneg s.file
    have hle := hb.nlefttoread
    simp only at hmain
    omega
  have hfl : (s.file i).flags = .joined := by
    have hi := (total_eq_zero_iff unread_nonneg s.file).mp hzero i
    unfold File.unread at hi
    split at hi
    · assumption
    · cases hi
  have hpc : (s.file i).pc = .returned := by
    have hag := hb.agrees i
    unfold File.Agrees at hag
    cases hp : (s.file i).pc with
    | returned => rfl
    | _ =>
      rw [hp, hfl] at hag
      cases hag
  rw [← hfl, ← hpc]

/-- In every run the threads are created in the order of file[], one for each file and never
more than maxnconn at a time; err_quit is not reached, and main exits when every file has been
read to its end and every thread is joined. -/
theorem web_threads_books (maxnconn : Int) (reply : Fin n → Nat) (tr : List (Label n)) (s : State n)
    (hr : (web maxnconn reply).run (.start n) tr = some s) :
    s.main ≠ .errQuit ∧ total File.active s.file ≤ max 0 maxnconn ∧
      (∃ m, (web maxnconn reply).log (created maxnconn) (.start n) tr = (List.finRange n).take m) ∧
      (s.main = .exited →
        (web maxnconn reply).log (created maxnconn) (.start n) tr = List.finRange n ∧
          ∀ i, s.file i = ⟨.joined, .returned⟩) := by
  have hb := books_of_reachable ⟨tr, hr⟩
  obtain ⟨m, hlog, hm⟩ := created_in_order hr
  refine ⟨fun h => ?_, hb.nconn ▸ hb.within, ⟨m, hlog⟩, fun h => ⟨?_, hb.all_joined h⟩⟩
  · have hmain := hb.main
    rw [MainHolds, h] at hmain
    exact hmain
  · rw [hlog]
    refine List.take_of_length_le ?_
    rw [List.length_finRange]
    by_contra hlt
    have hunused := (hm ⟨m, Nat.lt_of_not_le hlt⟩).mpr (Nat.le_refl m)
    rw [hb.all_joined h] at hunused
    cases hunused

/-- Two files, one after the other. -/
def oneAtATime : List (Label 2) :=
  [.main, .main, .thread 0, .read 0 5, .thread 0, .main, .thread 0, .thread 0, .main, .main, .main,
    .main, .main, .main, .main, .main, .main, .main, .main, .thread 1, .read 1 5, .thread 1, .spurious,
    .main, .main, .thread 1, .thread 1, .main, .main, .main, .main, .main, .main, .main]

theorem web_threads_books_two :
    ∃ s, (web 1 fun _ => 5).run (.start 2) oneAtATime = some s ∧ s.main = .exited ∧
      (web 1 fun _ => 5).log (created 1) (.start 2) oneAtATime = [0, 1] := by
  have hexit : ((web 1 fun _ => 5).run (.start 2) oneAtATime).map State.main = some .exited := by
    decide
  obtain ⟨s, hs, hm⟩ := Option.map_eq_some_iff.mp hexit
  exact ⟨s, hs, hm, ((web_threads_books 1 _ _ s hs).2.2.2 hm).1⟩

end LinuxPractice.Web.Threads
