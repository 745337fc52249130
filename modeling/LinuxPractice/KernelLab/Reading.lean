import LinuxPractice.KernelLab.Messages

set_option linter.unusedSectionVars false

namespace LinuxPractice.KernelLab

open Echo

/-- A reader has opened the file, has called kernel_lab_read, or has got its 0. -/
inductive Phase
  | opened
  | reading
  | done
  deriving DecidableEq

/-- What one reader does with the file: the reports of all moments since its first call, the
report its bytes are taken from, and these bytes. -/
structure Session where
  phase : Phase
  moments : List (List Byte)
  source : Option (List Byte)
  received : List Byte

def Session.fresh : Session := ⟨.opened, [], none, []⟩

/-- The report to go on with: the one that was begun if the piece asked for is the same in
both, else the one formatted now. -/
def Session.choose (g : Session) (count position : Nat) (text : List Byte) : List Byte :=
  match g.source with
  | none => text
  | some begun =>
    if simpleReadFromBuffer count position text = simpleReadFromBuffer count position begun
    then begun else text

/-- A read of a positive count that gives nothing ends the session. -/
def Session.take (g : Session) (count : Nat) (data : List Byte) : Session :=
  { g with
    received := g.received ++ data
    phase := if 0 < count ∧ data = [] then .done else g.phase }

def Session.pass (g : Session) (text : List Byte) : Session :=
  match g.phase with
  | .reading => { g with moments := g.moments ++ [text] }
  | _ => g

section

variable {τ : Type*} [DecidableEq τ]

def Session.follow (g : Session) (k : Kernel τ) (s : State τ) (t : τ) : Pc → Session
  | .format count x =>
    { g with source := some (g.choose count (s.position t) (report k s t x)) }
  | .deliver count buffer => g.take count (simpleReadFromBuffer count (s.position t) buffer)
  | _ => g

/-- The session of task t after a label. -/
def Session.after (g : Session) (k : Kernel τ) (s : State τ) (t : τ) : Label τ → Session
  | .open u => if u = t then .fresh else g
  | .read u _ => if u = t ∧ g.phase = .opened then { g with phase := .reading } else g
  | .advance u => if u = t ∧ g.phase = .reading then g.follow k s t (s.pc t) else g
  | _ => g

/-- Every state of a session in progress is a moment of it. -/
def note (k : Kernel τ) (t : τ) (s : State τ) (l : Label τ) (s' : State τ) (g : Session) :
    Session :=
  (g.after k s t l).pass (report k s' t (s'.times k))

/-- The report as formatted now joins up with what the reader has: the piece asked for is
the same as in the report it has begun, or all that it has read is the same; and a report
that is begun is the report of a single moment. -/
def Session.admits (g : Session) (count position : Nat) (text : List Byte) : Bool :=
  match g.source with
  | none => decide (text ∈ g.moments)
  | some begun =>
    decide (simpleReadFromBuffer count position text = simpleReadFromBuffer count position begun) ||
      decide (text.take position = begun.take position ∧ text ∈ g.moments)

def joins (k : Kernel τ) (t : τ) (v : State τ × Session) : Label τ → Bool
  | .advance u =>
    if u = t ∧ v.2.phase = .reading then
      match v.1.pc t with
      | .format count x => v.2.admits count (v.1.position t) (report k v.1 t x)
      | _ => true
    else true
  | _ => true

/-- The buffer of a read that has been formatted. -/
def Pc.buffer : Pc → Option (Nat × List Byte)
  | .readUnlock count b | .deliver count b => some (count, b)
  | _ => none

/-- Everything one step can do to task t as a reader. -/
inductive ReaderMove (k : Kernel τ) (t : τ) (s : State τ) (s' : State τ) : Label τ → Prop
  | opened (hpc : s'.pc t = .idle) (hpos : s'.position t = 0) : ReaderMove k t s s' (.open t)
  | called (n : Nat) (hpc : s'.pc t = .readLock n) (hpos : s'.position t = s.position t) :
      ReaderMove k t s s' (.read t n)
  | formatted (n : Nat) (x : Times) (hp : s.pc t = .format n x)
      (hpc : s'.pc t = .readUnlock n (report k s t x)) (hpos : s'.position t = s.position t) :
      ReaderMove k t s s' (.advance t)
  | delivered (n : Nat) (b : List Byte) (hp : s.pc t = .deliver n b) (hpc : s'.pc t = .idle)
      (hpos : s'.position t =
        s.position t + (simpleReadFromBuffer n (s.position t) b).length) :
      ReaderMove k t s s' (.advance t)
  | quiet (l : Label τ) (hsame : ∀ g : Session, g.after k s t l = g)
      (hreads : (s'.pc t).reads = true → (s.pc t).reads = true)
      (hbuf : (s'.pc t).buffer = none ∨ (s'.pc t).buffer = (s.pc t).buffer)
      (hpos : s'.position t = s.position t) : ReaderMove k t s s' l

/-- A step in which the program counter of task t goes on inside its call, or not at all. -/
theorem quiet_of_goto {k : Kernel τ} {t u : τ} {s s' : State τ} {l : Label τ} {pc pc' : Pc}
    (hp : s.pc u = pc) (hpc : s'.pc = Function.update s.pc u pc')
    (hpos : s'.position = s.position) (hsame : ∀ g : Session, g.after k s t l = g)
    (hreads : pc'.reads = true → pc.reads = true)
    (hbuf : pc'.buffer = none ∨ pc'.buffer = pc.buffer) : ReaderMove k t s s' l := by
  have hposition := congrFun hpos t
  by_cases hu : t = u
  · subst hu
    have hself : s'.pc t = pc' := by rw [hpc, Function.update_self]
    rw [← hself, ← hp] at hreads hbuf
    exact .quiet l hsame hreads hbuf hposition
  · have hother : s'.pc t = s.pc t := by rw [hpc, Function.update_of_ne hu]
    exact .quiet l hsame (fun h => hother ▸ h) (.inr (by rw [hother])) hposition

/-- A step that is not one of task t. -/
theorem quiet_of_other {k : Kernel τ} {t : τ} {s s' : State τ} {l : Label τ}
    (hpc : s'.pc t = s.pc t) (hpos : s'.position t = s.position t)
    (hsame : ∀ g : Session, g.after k s t l = g) : ReaderMove k t s s' l :=
  .quiet l hsame (fun h => hpc ▸ h) (.inr (by rw [hpc])) hpos

/-- A step of a task at a point where it neither formats nor delivers. -/
theorem after_advance {k : Kernel τ} {s : State τ} {t u : τ} {pc : Pc} (hp : s.pc u = pc)
    (hpc : ∀ g : Session, g.follow k s u pc = g) (g : Session) :
    g.after k s t (.advance u) = g := by
  simp only [Session.after]
  split
  · rename_i h
    rw [← h.1, hp]
    exact hpc g
  · rfl

theorem readerMove_of_move {k : Kernel τ} {s s' : State τ} {l : Label τ} (hm : Move k s l s')
    (t : τ) : ReaderMove k t s s' l := by
  cases hm with
  | opened u hp =>
    by_cases hu : t = u
    · subst hu
      exact .opened hp (Function.update_self _ _ _)
    · refine quiet_of_other rfl (Function.update_of_ne hu _ _) fun g => ?_
      simp [Session.after, Ne.symm hu]
  | refused u user count fault hp hc => exact quiet_of_other rfl rfl fun _ => rfl
  | copied u user count fault hp hc =>
    exact quiet_of_goto hp rfl rfl (fun _ => rfl) (fun h => nomatch h) (.inl rfl)
  | called u count hp =>
    by_cases hu : t = u
    · subst hu
      exact .called count (Function.update_self _ _ _) rfl
    · refine quiet_of_other (Function.update_of_ne hu _ _) rfl fun g => ?_
      simp [Session.after, Ne.symm hu]
  | locked u pc pc' hp hn hl =>
    rcases hn with ⟨w, rfl, rfl⟩ | ⟨n, rfl, rfl⟩
    · exact quiet_of_goto hp rfl rfl (after_advance hp fun _ => rfl) (fun h => nomatch h) (.inl rfl)
    · exact quiet_of_goto hp rfl rfl (after_advance hp fun _ => rfl) (fun h => h) (.inl rfl)
  | stored u w hp =>
    exact quiet_of_goto hp rfl rfl (after_advance hp fun _ => rfl) (fun h => nomatch h) (.inl rfl)
  | unlocked u pc pc' hp hn =>
    rcases hn with ⟨w, rfl, rfl⟩ | ⟨n, b, rfl, rfl⟩
    · exact quiet_of_goto hp rfl rfl (after_advance hp fun _ => rfl) (fun h => nomatch h) (.inl rfl)
    · exact quiet_of_goto hp rfl rfl (after_advance hp fun _ => rfl) (fun h => h) (.inr rfl)
  | logged u w hp =>
    exact quiet_of_goto hp rfl rfl (after_advance hp fun _ => rfl) (fun h => nomatch h) (.inl rfl)
  | sampled u pc pc' hp hn =>
    rcases hn with ⟨n, rfl, rfl⟩ | ⟨n, ms, rfl, rfl⟩
    · exact quiet_of_goto hp rfl rfl (after_advance hp fun _ => rfl) (fun h => h) (.inl rfl)
    · exact quiet_of_goto hp rfl rfl (after_advance hp fun _ => rfl) (fun h => h) (.inl rfl)
  | formatted u n x hp =>
    by_cases hu : t = u
    · subst hu
      exact .formatted n x hp (Function.update_self _ _ _) rfl
    · refine quiet_of_other (Function.update_of_ne hu _ _) rfl fun g => ?_
      simp [Session.after, Ne.symm hu]
  | delivered u n b hp =>
    by_cases hu : t = u
    · subst hu
      exact .delivered n b hp (Function.update_self _ _ _) (Function.update_self _ _ _)
    · refine quiet_of_other (Function.update_of_ne hu _ _) (Function.update_of_ne hu _ _) fun g => ?_
      simp [Session.after, Ne.symm hu]
  | ticked => exact quiet_of_other rfl rfl fun _ => rfl
  | clocked tvSec => exact quiet_of_other rfl rfl fun _ => rfl
  | greeted g => exact quiet_of_other rfl rfl fun _ => rfl
  | repeated n => exact quiet_of_other rfl rfl fun _ => rfl

/-- In the middle of a session: the bytes received are the beginning of one report of a
moment, and the piece in the buffer goes on with it. -/
structure Midway (t : τ) (s : State τ) (g : Session) : Prop where
  length : s.position t = g.received.length
  unbegun : g.source = none → g.received = []
  begun : ∀ r, g.source = some r → r ∈ g.moments ∧ g.received = r.take (s.position t)
  buffered : ∀ n b, (s.pc t).buffer = some (n, b) → ∃ r, g.source = some r ∧
    simpleReadFromBuffer n (s.position t) b = simpleReadFromBuffer n (s.position t) r

/-- The session of task t in every phase of it. -/
structure Coherent (t : τ) (s : State τ) (g : Session) : Prop where
  opened : g.phase = .opened → g.source = none ∧ g.received = [] ∧ s.position t = 0 ∧
    (s.pc t).reads = false
  reading : g.phase = .reading → Midway t s g
  done : g.phase = .done → g.received ∈ g.moments

theorem Midway.coherent {t : τ} {s : State τ} {g : Session} (h : Midway t s g)
    (hphase : g.phase = .reading) : Coherent t s g := by
  refine ⟨fun hp => ?_, fun _ => h, fun hp => ?_⟩
  · exact absurd (hphase.symm.trans hp) (by decide)
  · exact absurd (hphase.symm.trans hp) (by decide)

theorem Coherent.pass {t : τ} {s : State τ} {g : Session} (h : Coherent t s g)
    (text : List Byte) : Coherent t s (g.pass text) := by
  unfold Session.pass
  split
  · rename_i hphase
    have hmid := h.reading hphase
    refine Midway.coherent ⟨hmid.length, hmid.unbegun, fun r hr => ?_, hmid.buffered⟩ hphase
    obtain ⟨hmem, htake⟩ := hmid.begun r hr
    exact ⟨List.mem_append_left _ hmem, htake⟩
  · exact h

theorem Coherent.opens {t : τ} {s : State τ} (hpc : s.pc t = .idle) (hpos : s.position t = 0) :
    Coherent t s .fresh where
  opened _ := ⟨rfl, rfl, hpos, by rw [hpc]; rfl⟩
  reading hp := by cases hp
  done hp := by cases hp

/-- A read that returned 0 before is no part of the session any more. -/
theorem Coherent.outside {t : τ} {s : State τ} {g : Session} (h : Coherent t s g)
    (hr : (s.pc t).reads = true) (hphase : g.phase ≠ .reading) (s' : State τ) :
    Coherent t s' g where
  opened hp := by
    have hnot := (h.opened hp).2.2.2
    rw [hr] at hnot
    cases hnot
  reading hp := absurd hp hphase
  done := h.done

theorem Coherent.quiet {t : τ} {s s' : State τ} {g : Session} (h : Coherent t s g)
    (hreads : (s'.pc t).reads = true → (s.pc t).reads = true)
    (hbuf : (s'.pc t).buffer = none ∨ (s'.pc t).buffer = (s.pc t).buffer)
    (hpos : s'.position t = s.position t) : Coherent t s' g := by
  refine ⟨fun hp => ?_, fun hp => ?_, h.done⟩
  · obtain ⟨hsrc, hrec, hzero, hnot⟩ := h.opened hp
    refine ⟨hsrc, hrec, hpos.trans hzero, ?_⟩
    rw [Bool.eq_false_iff] at hnot ⊢
    exact fun hr => hnot (hreads hr)
  · have hmid := h.reading hp
    refine ⟨hpos.trans hmid.length, hmid.unbegun, hpos ▸ hmid.begun, fun n b hb => ?_⟩
    rw [hpos]
    rcases hbuf with hnone | hsame
    · rw [hnone] at hb
      cases hb
    · exact hmid.buffered n b (hsame ▸ hb)

theorem Coherent.called {k : Kernel τ} {t : τ} {s s' : State τ} {g : Session}
    (h : Coherent t s g) {n : Nat} (hpc : s'.pc t = .readLock n)
    (hpos : s'.position t = s.position t) : Coherent t s' (g.after k s t (.read t n)) := by
  have hnone : (s'.pc t).buffer = none := by
    rw [hpc]
    rfl
  have hbuf : ∀ m b, (s'.pc t).buffer ≠ some (m, b) := by
    intro m b
    rw [hnone]
    exact (Option.some_ne_none _).symm
  simp only [Session.after, true_and]
  split
  · rename_i hphase
    obtain ⟨hsrc, hrec, hzero, -⟩ := h.opened hphase
    have hlen : s'.position t = g.received.length := by
      rw [hpos, hzero, hrec]
      rfl
    refine Midway.coherent ⟨hlen, fun _ => hrec, fun r hr => ?_, fun m b hb => ?_⟩ rfl
    · rw [hsrc] at hr
      cases hr
    · exact absurd hb (hbuf m b)
  · rename_i hphase
    refine ⟨fun hp => absurd hp hphase, fun hp => ?_, h.done⟩
    have hmid := h.reading hp
    exact ⟨hpos.trans hmid.length, hmid.unbegun, hpos ▸ hmid.begun,
      fun m b hb => absurd hb (hbuf m b)⟩

/-- The report to go on with is one of a moment, begins with what was received, and has the
piece that is asked for. -/
theorem Midway.choose {t : τ} {s : State τ} {g : Session} (h : Midway t s g) {n : Nat}
    {text : List Byte} (hok : g.admits n (s.position t) text = true) :
    g.choose n (s.position t) text ∈ g.moments ∧
      g.received = (g.choose n (s.position t) text).take (s.position t) ∧
      simpleReadFromBuffer n (s.position t) text =
        simpleReadFromBuffer n (s.position t) (g.choose n (s.position t) text) := by
  unfold Session.admits at hok
  unfold Session.choose
  cases hsrc : g.source with
  | none =>
    simp only [hsrc, decide_eq_true_eq] at hok
    have hrec := h.unbegun hsrc
    have hzero : s.position t = 0 := by
      rw [h.length, hrec]
      rfl
    refine ⟨hok, ?_, rfl⟩
    rw [hrec, hzero]
    rfl
  | some begun =>
    simp only [hsrc, Bool.or_eq_true, decide_eq_true_eq] at hok
    obtain ⟨hmem, htake⟩ := h.begun begun hsrc
    by_cases hsame : simpleReadFromBuffer n (s.position t) text =
        simpleReadFromBuffer n (s.position t) begun
    · simp only [hsame, if_true]
      exact ⟨hmem, htake, trivial⟩
    · simp only [hsame, if_false]
      obtain ⟨hbefore, hmoment⟩ := hok.resolve_left hsame
      exact ⟨hmoment, htake.trans hbefore.symm, trivial⟩

theorem Coherent.formatted {k : Kernel τ} {t : τ} {s s' : State τ} {g : Session}
    (h : Coherent t s g) {n : Nat} {x : Times} (hp : s.pc t = .format n x)
    (hpc : s'.pc t = .readUnlock n (report k s t x)) (hpos : s'.position t = s.position t)
    (hok : joins k t (s, g) (.advance t) = true) :
    Coherent t s' (g.after k s t (.advance t)) := by
  simp only [Session.after, true_and]
  split
  · rename_i hphase
    have hmid := h.reading hphase
    simp only [joins, hphase, hp, and_self, if_true] at hok
    obtain ⟨hmem, htake, hpiece⟩ := hmid.choose hok
    rw [← hpos] at hmem htake hpiece
    simp only [hp, Session.follow]
    refine Midway.coherent ⟨hpos.trans hmid.length, fun hn => ?_, fun r hr => ?_,
      fun m b hb => ?_⟩ hphase
    · cases hn
    · obtain rfl := Option.some.inj hr
      exact ⟨hpos ▸ hmem, hpos ▸ htake⟩
    · rw [hpc] at hb
      obtain ⟨rfl, rfl⟩ := Prod.mk.inj (Option.some.inj hb)
      exact ⟨_, rfl, hpos ▸ hpiece⟩
  · rename_i hphase
    exact h.outside (by rw [hp]; rfl) hphase s'

/-- A piece of a report after its beginning is a longer beginning of it. -/
theorem take_append_piece (r : List Byte) (n position : Nat) :
    r.take position ++ simpleReadFromBuffer n position r =
      r.take (position + (simpleReadFromBuffer n position r).length) := by
  have hlen : (simpleReadFromBuffer n position r).length = min n (r.length - position) := by
    simp [simpleReadFromBuffer]
  rw [List.take_add, hlen, simpleReadFromBuffer]
  congr 1
  rw [List.take_eq_take_iff, List.length_drop]
  omega

/-- Nothing is left of a report when a read of a positive count gives nothing. -/
theorem take_of_piece_nil {r : List Byte} {n position : Nat} (hn : 0 < n)
    (h : simpleReadFromBuffer n position r = []) : r.take position = r := by
  apply List.take_of_length_le
  have hlen := congrArg List.length h
  simp only [simpleReadFromBuffer, List.length_take, List.length_drop, List.length_nil] at hlen
  omega

theorem Coherent.delivered {k : Kernel τ} {t : τ} {s s' : State τ} {g : Session}
    (h : Coherent t s g) {n : Nat} {b : List Byte} (hp : s.pc t = .deliver n b)
    (hpc : s'.pc t = .idle) (hpos : s'.position t =
      s.position t + (simpleReadFromBuffer n (s.position t) b).length) :
    Coherent t s' (g.after k s t (.advance t)) := by
  simp only [Session.after, true_and]
  split
  · rename_i hphase
    have hmid := h.reading hphase
    obtain ⟨r, hsrc, hpiece⟩ := hmid.buffered n b (by rw [hp]; rfl)
    obtain ⟨hmem, htake⟩ := hmid.begun r hsrc
    simp only [hp, Session.follow, Session.take, hpiece] at hpos ⊢
    by_cases hend : 0 < n ∧ simpleReadFromBuffer n (s.position t) r = []
    · simp only [hend, and_self, if_true, List.append_nil]
      refine ⟨fun hq => ?_, fun hq => ?_, fun _ => ?_⟩
      · cases hq
      · cases hq
      · rw [htake, take_of_piece_nil hend.1 hend.2]
        exact hmem
    · simp only [hend, if_false]
      refine Midway.coherent ⟨?_, fun hn => ?_, fun r' hr => ?_, fun m b hb => ?_⟩ hphase
      · rw [hpos, hmid.length, List.length_append]
      · rw [hsrc] at hn
        cases hn
      · obtain rfl : r = r' := Option.some.inj (hsrc.symm.trans hr)
        refine ⟨hmem, ?_⟩
        rw [hpos, ← take_append_piece, ← htake]
      · rw [hpc] at hb
        cases hb
  · rename_i hphase
    exact h.outside (by rw [hp]; rfl) hphase s'

theorem Coherent.step {k : Kernel τ} {t : τ} {s s' : State τ} {l : Label τ} {g : Session}
    (h : Coherent t s g) (hm : Move k s l s') (hok : joins k t (s, g) l = true) :
    Coherent t s' (note k t s l s' g) := by
  apply Coherent.pass
  cases readerMove_of_move hm t with
  | opened hpc hpos =>
    simp only [Session.after, if_true]
    exact Coherent.opens hpc hpos
  | called n hpc hpos => exact h.called hpc hpos
  | formatted n x hp hpc hpos => exact h.formatted hp hpc hpos hok
  | delivered n b hp hpc hpos => exact h.delivered hp hpc hpos
  | quiet _ hsame hreads hbuf hpos =>
    rw [hsame g]
    exact h.quiet hreads hbuf hpos

end

/-- A reader asks for some bytes, another task writes "hi", a tick passes before the reader
asks for the rest, and another one before it asks again. -/
def interrupted (count : Nat) : List (Label (Fin 2)) :=
  [.open 0, .read 0 count] ++ List.replicate 6 (.advance 0) ++
    [.write 1 [104, 105] 2 false] ++ List.replicate 4 (.advance 1) ++ [.tick, .read 0 512] ++
    List.replicate 6 (.advance 0) ++ [.tick, .read 0 512] ++ List.replicate 6 (.advance 0)

end LinuxPractice.KernelLab
