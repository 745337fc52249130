import LinuxPractice.KernelLab.Moves

set_option linter.unusedSectionVars false

namespace LinuxPractice.KernelLab

open Echo

section

variable {τ : Type*} [DecidableEq τ]

/-- The writes that got to their locked update, in lock order. -/
def stores (H : List (Event τ)) : List (τ × Writing) :=
  H.filterMap fun
    | .stored t w => some (t, w)
    | _ => none

/-- The writes that have printed their line and returned their count. -/
def returns (H : List (Event τ)) : List (τ × Writing) :=
  H.filterMap fun
    | .logged t w _ => some (t, w)
    | _ => none

/-- The message of the last write in lock order, or the greeting of the load. -/
def current (p : Load) (H : List (Event τ)) : List Byte :=
  match (stores H).getLast? with
  | none => p.greeting.text
  | some e => e.2.message

/-- The buffer of a write holds its message up to the locked update. -/
def Pc.Sound : Pc → Prop
  | .writeLock w | .update w => cstr w.buffer = w.message
  | _ => True

/-- The write a task has stored and not returned from yet. -/
def Pc.pending : Pc → List Writing
  | .writeUnlock w | .log w => [w]
  | _ => []

def ofTask (t : τ) (es : List (τ × Writing)) : List Writing :=
  es.filterMap fun e => if e.1 = t then some e.2 else none

/-- The module state against the history of the calls. -/
structure Recorded (p : Load) (H : List (Event τ)) (s : State τ) : Prop where
  sound : ∀ t, (s.pc t).Sound
  count : s.writeCount = UInt32.ofNat (stores H).length
  message : s.lastMessage.text = current p H
  terminated : nul ∈ s.lastMessage.bytes
  calls : ∀ t, ofTask t (stores H) = ofTask t (returns H) ++ (s.pc t).pending

theorem text_strscpy_message {dest : CharArray MESSAGE_BUFFER_SIZE} {w : Writing}
    (h : cstr w.buffer = w.message) : (strscpy dest w.buffer).text = w.message := by
  rw [text_strscpy (by decide), h]
  exact List.take_of_length_le (length_normal_le w.user w.count)

theorem text_kernelLabInit (p : Load) :
    (kernelLabInit p : State τ).lastMessage.text = p.greeting.text := by
  have hfits := p.greeting.fits
  simp only [kernelLabInit]
  rw [text_strscpy (by decide), cstr_append_nul p.greeting.nul_free]
  exact List.take_of_length_le (by omega)

theorem Recorded.start (p : Load) : Recorded p [] (kernelLabInit p : State τ) where
  sound _ := trivial
  count := rfl
  message := text_kernelLabInit p
  terminated := nul_mem_strscpy (by decide) _ _
  calls _ := rfl

theorem stores_append (H E : List (Event τ)) : stores (H ++ E) = stores H ++ stores E := by
  simp [stores]

theorem returns_append (H E : List (Event τ)) : returns (H ++ E) = returns H ++ returns E := by
  simp [returns]

/-- A step of task t that stores nothing. -/
theorem Recorded.aside {p : Load} {H E : List (Event τ)} {s s' : State τ} (hr : Recorded p H s)
    (t : τ) (hpc : ∀ u, u ≠ t → s'.pc u = s.pc u) (hc : s'.writeCount = s.writeCount)
    (hm : s'.lastMessage = s.lastMessage) (hs : (s'.pc t).Sound) (hE : stores E = [])
    (ht : (s.pc t).pending = ofTask t (returns E) ++ (s'.pc t).pending)
    (hu : ∀ u, u ≠ t → ofTask u (returns E) = []) : Recorded p (H ++ E) s' where
  sound u := by
    by_cases hut : u = t
    · exact hut ▸ hs
    · exact hpc u hut ▸ hr.sound u
  count := by rw [hc, stores_append, hE, List.append_nil, hr.count]
  message := by rw [hm, hr.message, current, current, stores_append, hE, List.append_nil]
  terminated := hm ▸ hr.terminated
  calls u := by
    have hcall := hr.calls u
    rw [stores_append, hE, List.append_nil, returns_append, hcall]
    by_cases hut : u = t
    · subst hut
      rw [ht]
      simp [ofTask]
    · rw [hpc u hut]
      have hnone := hu u hut
      simp only [ofTask, List.filterMap_append] at hnone ⊢
      rw [hnone, List.append_nil]

/-- The locked update of a write. -/
theorem Recorded.store {p : Load} {H : List (Event τ)} {s : State τ} (hr : Recorded p H s)
    {t : τ} {w : Writing} (hp : s.pc t = .update w) :
    Recorded p (H ++ [.stored t w]) ((s.store w.buffer).goto t (.writeUnlock w)) where
  sound u := by
    by_cases hut : u = t
    · simp [State.goto, hut, Pc.Sound]
    · simpa [State.goto, State.store, hut] using hr.sound u
  count := by
    have hn : stores [Event.stored t w] = [(t, w)] := rfl
    rw [stores_append, hn, List.length_append, UInt32.ofNat_add, ← hr.count]
    rfl
  message := by
    have hs := hr.sound t
    rw [hp] at hs
    have hn : (stores (H ++ [Event.stored t w])).getLast? = some (t, w) := by
      simp [stores]
    simp only [current, hn]
    exact text_strscpy_message hs
  terminated := nul_mem_strscpy (by decide) _ _
  calls u := by
    have hcall := hr.calls u
    by_cases hut : u = t
    · subst hut
      rw [hp] at hcall
      simp only [Pc.pending, List.append_nil] at hcall
      simp only [stores, returns, ofTask, List.filterMap_append] at hcall ⊢
      rw [hcall]
      simp [State.goto, Pc.pending]
    · simp only [stores, returns, ofTask, List.filterMap_append] at hcall ⊢
      rw [hcall]
      simp [State.goto, State.store, hut, Ne.symm hut]

theorem sound_of_copied (user : List Byte) (count : Nat) :
    (Pc.writeLock ⟨user, count, prepared (user.take (copyLength count))⟩).Sound :=
  cstr_prepared _

/-- A step of task t that neither stores nor returns. -/
theorem Recorded.goto {p : Load} {H : List (Event τ)} {s s' : State τ} (hr : Recorded p H s)
    {t : τ} {pc pc' : Pc} (hp : s.pc t = pc) (hpc : s'.pc = Function.update s.pc t pc')
    (hc : s'.writeCount = s.writeCount) (hm : s'.lastMessage = s.lastMessage) (hs : pc'.Sound)
    (hpend : pc.pending = pc'.pending) : Recorded p H s' := by
  have hself : s'.pc t = pc' := by rw [hpc, Function.update_self]
  rw [← List.append_nil H]
  refine hr.aside t (fun u hu => ?_) hc hm ?_ rfl ?_ (fun _ _ => rfl)
  · rw [hpc, Function.update_of_ne hu]
  · exact hself ▸ hs
  · rw [hself, hp, hpend]
    rfl

theorem Recorded.locked {p : Load} {H : List (Event τ)} {s : State τ} (hr : Recorded p H s)
    {t : τ} {pc pc' : Pc} (hp : s.pc t = pc)
    (hn : (∃ w, pc = .writeLock w ∧ pc' = .update w) ∨
      ∃ n, pc = .readLock n ∧ pc' = .sampleUptime n) :
    Recorded p H { s.goto t pc' with kernelLabLock := some t } := by
  have hs := hr.sound t
  rcases hn with ⟨w, rfl, rfl⟩ | ⟨n, rfl, rfl⟩
  · rw [hp] at hs
    exact hr.goto hp rfl rfl rfl hs rfl
  · exact hr.goto hp rfl rfl rfl trivial rfl

theorem Recorded.unlocked {p : Load} {H : List (Event τ)} {s : State τ} (hr : Recorded p H s)
    {t : τ} {pc pc' : Pc} (hp : s.pc t = pc)
    (hn : (∃ w, pc = .writeUnlock w ∧ pc' = .log w) ∨
      ∃ n b, pc = .readUnlock n b ∧ pc' = .deliver n b) :
    Recorded p H { s.goto t pc' with kernelLabLock := none } := by
  rcases hn with ⟨w, rfl, rfl⟩ | ⟨n, b, rfl, rfl⟩
  · exact hr.goto hp rfl rfl rfl trivial rfl
  · exact hr.goto hp rfl rfl rfl trivial rfl

/-- The end of a write. -/
theorem Recorded.logged {p : Load} {H : List (Event τ)} {s : State τ} (hr : Recorded p H s)
    {t : τ} {w : Writing} (hp : s.pc t = .log w) (text : List Byte) :
    Recorded p (H ++ [.logged t w text]) (s.goto t .idle) := by
  refine hr.aside t (fun u hu => by simp [State.goto, hu]) rfl rfl ?_ rfl ?_ (fun u hu => ?_)
  · simp [State.goto, Pc.Sound]
  · simp [State.goto, hp, Pc.pending, ofTask, returns]
  · simp [ofTask, returns, Ne.symm hu]

/-- An event that is no store and no return. -/
theorem Recorded.observed {p : Load} {H : List (Event τ)} {s : State τ} (hr : Recorded p H s)
    {e : Event τ} (hs : stores [e] = []) (hn : returns [e] = []) : Recorded p (H ++ [e]) s := by
  have h1 : stores (H ++ [e]) = stores H := by rw [stores_append, hs, List.append_nil]
  have h2 : returns (H ++ [e]) = returns H := by rw [returns_append, hn, List.append_nil]
  refine ⟨hr.sound, h1 ▸ hr.count, ?_, hr.terminated, fun t => ?_⟩
  · rw [hr.message, current, current, h1]
  · rw [h1, h2]
    exact hr.calls t

/-- A step that shows nothing. -/
theorem Recorded.silent {p : Load} {H : List (Event τ)} {s s' : State τ} {l : Label τ}
    (hr : Recorded p H s') (he : event s l = none) :
    Recorded p (H ++ (event s l).toList) s' := by
  rw [he, Option.toList_none, List.append_nil]
  exact hr

theorem event_advance {s : State τ} {t : τ} {pc : Pc} (hp : s.pc t = pc) :
    event s (.advance t) = s.shows t pc := by
  rw [event, hp]

theorem Recorded.step {k : Kernel τ} {p : Load} {H : List (Event τ)} {s s' : State τ}
    {l : Label τ} (hr : Recorded p H s) (hm : Move k s l s') :
    Recorded p (H ++ (event s l).toList) s' := by
  have hsame : ∀ {s' : State τ}, s'.pc = s.pc → s'.writeCount = s.writeCount →
      s'.lastMessage = s.lastMessage → Recorded p H s' := by
    intro s' hpc hc hmsg
    exact ⟨hpc ▸ hr.sound, hc ▸ hr.count, hmsg ▸ hr.message, hmsg ▸ hr.terminated, hpc ▸ hr.calls⟩
  cases hm with
  | opened t hp => exact Recorded.silent (hsame rfl rfl rfl) rfl
  | refused t user count fault hp hc =>
    have he : event s (.write t user count fault) = some (.efault t) := by simp [event, hc]
    rw [he]
    exact hr.observed rfl rfl
  | copied t user count fault hp hc =>
    have he : event s (.write t user count fault) = none := by simp [event, hc]
    exact Recorded.silent (hr.goto hp rfl rfl rfl (sound_of_copied user count) rfl) he
  | called t count hp => exact Recorded.silent (hr.goto hp rfl rfl rfl trivial rfl) rfl
  | locked t pc pc' hp hn hl =>
    apply (hr.locked hp hn).silent
    rw [event_advance hp]
    rcases hn with ⟨w, rfl, -⟩ | ⟨n, rfl, -⟩ <;> rfl
  | stored t w hp =>
    rw [event_advance hp]
    exact hr.store hp
  | unlocked t pc pc' hp hn =>
    apply (hr.unlocked hp hn).silent
    rw [event_advance hp]
    rcases hn with ⟨w, rfl, -⟩ | ⟨n, b, rfl, -⟩ <;> rfl
  | logged t w hp =>
    rw [event_advance hp]
    exact hr.logged hp _
  | sampled t pc pc' hp hn =>
    rcases hn with ⟨n, rfl, rfl⟩ | ⟨n, ms, rfl, rfl⟩
    · exact Recorded.silent (hr.goto hp rfl rfl rfl trivial rfl) (event_advance hp)
    · exact Recorded.silent (hr.goto hp rfl rfl rfl trivial rfl) (event_advance hp)
  | formatted t n x hp => exact Recorded.silent (hr.goto hp rfl rfl rfl trivial rfl) (event_advance hp)
  | delivered t n b hp =>
    rw [event_advance hp]
    have hidle : Recorded p H { s.goto t .idle with
        position := Function.update s.position t
          (s.position t + (simpleReadFromBuffer n (s.position t) b).length) } :=
      hr.goto hp rfl rfl rfl trivial rfl
    exact hidle.observed rfl rfl
  | ticked => exact Recorded.silent (hsame rfl rfl rfl) rfl
  | clocked tvSec => exact Recorded.silent (hsame rfl rfl rfl) rfl
  | greeted g => exact Recorded.silent (hsame rfl rfl rfl) rfl
  | repeated n => exact Recorded.silent (hsame rfl rfl rfl) rfl

theorem recorded_of_run {k : Kernel τ} {p : Load} {tr : List (Label τ)} {s : State τ}
    (hr : (machine k p).run (kernelLabInit p) tr = some s) : Recorded p (history k p tr) s := by
  refine (machine k p).run_induction (P := fun tr s => Recorded p (history k p tr) s)
    (Recorded.start p) ?_ hr
  intro tr s l s' hu ih hs
  have hlog : history k p (tr ++ [l]) = history k p tr ++ (event s l).toList :=
    (machine k p).log_snoc _ hu hs
  exact hlog ▸ ih.step (move_of_step hs)

/-- The points of kernel_lab_read. -/
def Pc.reads : Pc → Bool
  | .readLock _ | .sampleUptime _ | .sampleTime _ _ | .format _ _ | .readUnlock _ _
  | .deliver _ _ => true
  | _ => false

/-- A step of a read, from its call to its return. -/
def readStep (s : State τ) : Label τ → Bool
  | .read _ _ => true
  | .advance t => (s.pc t).reads
  | _ => false

end

/-- The module parameter's default. -/
def helloFrom : Greeting where
  text := Decimal.ascii "hello from kernel_lab"
  nul_free := by decide
  fits := by decide

def cat : Task where
  pid := 4711
  comm := Decimal.ascii "cat"
  nul_free := by decide
  fits := by decide

/-- HZ = 1000: a tick is a millisecond. -/
def testKernel (τ : Type) : Kernel τ := ⟨fun _ => cat, fun j => j.toUInt32⟩

def testLoad : Load := ⟨helloFrom, 1, 0, 1700000000⟩

end LinuxPractice.KernelLab
