import LinuxPractice.KernelLab.Messages
import Mathlib.Data.Fintype.Basic
import Mathlib.Data.Multiset.MapFold
import Mathlib.Data.Multiset.Count

set_option linter.unusedSectionVars false

namespace LinuxPractice.KernelLab

open Echo

section

variable {τ : Type*} [DecidableEq τ]

/-- The messages printed by pr_info, in order. -/
def printed (H : List (Event τ)) : List (List Byte) :=
  H.filterMap fun
    | .logged _ _ text => some text
    | _ => none

/-- Each write has printed the message it stored; between calls the printed messages are
the stored ones. -/
structure LogsOwn (H : List (Event τ)) (s : State τ) : Prop where
  own : ∀ t w text, .logged t w text ∈ H → text = w.message
  all : (∀ t, (s.pc t).pending = []) →
    (printed H : Multiset (List Byte)) = (stores H).map fun e => e.2.message

/-- A write that has stored its message and not printed it still finds it. -/
def Fresh (s : State τ) : Prop := ∀ u, ∀ w ∈ (s.pc u).pending, s.lastMessage.text = w.message

theorem pending_of_move {k : Kernel τ} {s s' : State τ} {l : Label τ} (hm : Move k s l s') :
    (∃ t w, l = .advance t ∧ s.pc t = .update w ∧
      s' = (s.store w.buffer).goto t (.writeUnlock w)) ∨
    (s'.lastMessage = s.lastMessage ∧ ∀ u, (s'.pc u).pending ⊆ (s.pc u).pending) := by
  have hgoto : ∀ t pc, pc.pending ⊆ (s.pc t).pending →
      ∀ u, (Function.update s.pc t pc u).pending ⊆ (s.pc u).pending := by
    intro t pc hsub u
    by_cases hu : u = t
    · subst hu
      rw [Function.update_self]
      exact hsub
    · rw [Function.update_of_ne hu]
      exact List.Subset.refl _
  cases hm with
  | stored t w hp => exact .inl ⟨t, w, rfl, hp, rfl⟩
  | locked t pc pc' hp hn hl =>
    refine .inr ⟨rfl, hgoto t pc' ?_⟩
    rcases hn with ⟨w, -, rfl⟩ | ⟨n, -, rfl⟩ <;> exact List.nil_subset _
  | unlocked t pc pc' hp hn =>
    refine .inr ⟨rfl, hgoto t pc' ?_⟩
    rw [hp]
    rcases hn with ⟨w, rfl, rfl⟩ | ⟨n, b, rfl, rfl⟩ <;> exact List.Subset.refl _
  | copied t user count fault hp hc => exact .inr ⟨rfl, hgoto t _ (List.nil_subset _)⟩
  | called t count hp => exact .inr ⟨rfl, hgoto t _ (List.nil_subset _)⟩
  | logged t w hp => exact .inr ⟨rfl, hgoto t _ (List.nil_subset _)⟩
  | sampled t pc pc' hp hn =>
    refine .inr ⟨rfl, hgoto t pc' ?_⟩
    rcases hn with ⟨n, -, rfl⟩ | ⟨n, ms, -, rfl⟩ <;> exact List.nil_subset _
  | formatted t n x hp => exact .inr ⟨rfl, hgoto t _ (List.nil_subset _)⟩
  | delivered t n b hp => exact .inr ⟨rfl, hgoto t _ (List.nil_subset _)⟩
  | _ => exact .inr ⟨rfl, fun _ => List.Subset.refl _⟩

variable [Fintype τ]

/-- No task is overtaken: at a locked update every other write between its own update and
its pr_info has stored the same message. -/
def unhindered (s : State τ) : Label τ → Bool
  | .advance t =>
    match s.pc t with
    | .update w => decide (∀ u, u ≠ t → ∀ w' ∈ (s.pc u).pending, w'.message = w.message)
    | _ => true
  | _ => true

theorem Fresh.step {k : Kernel τ} {p : Load} {H : List (Event τ)} {s s' : State τ} {l : Label τ}
    (hf : Fresh s) (hr : Recorded p H s) (hok : unhindered s l = true) (hm : Move k s l s') :
    Fresh s' := by
  intro u w' hw'
  rcases pending_of_move hm with ⟨t, w, rfl, hp, rfl⟩ | ⟨hmsg, hsub⟩
  · have hs := hr.sound t
    rw [hp] at hs
    have htext : ((s.store w.buffer).goto t (.writeUnlock w)).lastMessage.text = w.message :=
      text_strscpy_message hs
    rw [htext]
    by_cases hu : u = t
    · subst hu
      have he : w' = w := by simpa [State.goto, Pc.pending] using hw'
      rw [he]
    · simp only [unhindered, hp, decide_eq_true_eq] at hok
      refine (hok u hu w' ?_).symm
      simpa [State.goto, State.store, hu] using hw'
  · rw [hmsg]
    exact hf u w' (hsub u hw')

/-- What the log has after a run in which nobody was overtaken. -/
structure Owned (p : Load) (H : List (Event τ)) (s : State τ) : Prop where
  recorded : Recorded p H s
  fresh : Fresh s
  own : ∀ t w text, .logged t w text ∈ H → text = w.message

/-- Only a pr_info prints, and it prints what last_message holds. -/
theorem logged_of_event {s : State τ} {l : Label τ} {t : τ} {w : Writing} {text : List Byte}
    (h : event s l = some (.logged t w text)) :
    s.pc t = .log w ∧ text = s.lastMessage.text := by
  cases l with
  | advance u =>
    cases hp : s.pc u with
    | log v =>
      rw [event_advance hp] at h
      obtain ⟨rfl, rfl, rfl⟩ := Event.logged.inj (Option.some.inj h)
      exact ⟨hp, rfl⟩
    | _ =>
      rw [event_advance hp] at h
      cases h
  | write u user count fault =>
    simp only [event] at h
    split at h <;> cases h
  | _ => cases h

theorem Owned.step {k : Kernel τ} {p : Load} {H : List (Event τ)} {s s' : State τ} {l : Label τ}
    (ho : Owned p H s) (hok : unhindered s l = true) (hm : Move k s l s') :
    Owned p (H ++ (event s l).toList) s' := by
  refine ⟨ho.recorded.step hm, ho.fresh.step ho.recorded hok hm, ?_⟩
  intro t w text he
  rcases List.mem_append.mp he with he | he
  · exact ho.own t w text he
  · rw [Option.mem_toList] at he
    obtain ⟨hp, rfl⟩ := logged_of_event he
    exact ho.fresh t w (by simp [hp, Pc.pending])

theorem owned_of_run {k : Kernel τ} {p : Load} {tr : List (Label τ)} {s : State τ}
    (hr : (machine k p).run (kernelLabInit p) tr = some s)
    (hok : (machine k p).Obeys unhindered (kernelLabInit p) tr) : Owned p (history k p tr) s := by
  refine (machine k p).run_induction (P := fun tr s =>
    (machine k p).Obeys unhindered (kernelLabInit p) tr → Owned p (history k p tr) s) ?_ ?_ hr hok
  · intro _
    refine ⟨Recorded.start p, ?_, ?_⟩
    · intro u w hw
      cases hw
    · intro t w text he
      cases he
  · intro tr s l s' hu ih hs hok
    obtain ⟨hpre, hl⟩ := (Machine.obeys_snoc hu).mp hok
    have hlog : history k p (tr ++ [l]) = history k p tr ++ (event s l).toList :=
      (machine k p).log_snoc _ hu hs
    exact hlog ▸ (ih hpre).step hl (move_of_step hs)

theorem count_ofTask (t : τ) (w : Writing) (es : List (τ × Writing)) :
    (ofTask t es).count w = es.count (t, w) := by
  induction es with
  | nil => rfl
  | cons e es ih =>
    obtain ⟨u, v⟩ := e
    by_cases hu : u = t
    · subst hu
      simpa [ofTask, List.count_cons] using ih
    · simpa [ofTask, List.count_cons, hu] using ih

/-- Between calls every stored write has returned. -/
theorem Recorded.perm {p : Load} {H : List (Event τ)} {s : State τ} (hr : Recorded p H s)
    (hidle : ∀ t, (s.pc t).pending = []) : (returns H).Perm (stores H) := by
  rw [List.perm_iff_count]
  rintro ⟨t, w⟩
  have hcall := hr.calls t
  rw [hidle t, List.append_nil] at hcall
  rw [← count_ofTask, ← count_ofTask, hcall]

theorem printed_eq_map {H : List (Event τ)}
    (h : ∀ t w text, .logged t w text ∈ H → text = w.message) :
    printed H = (returns H).map fun e => e.2.message := by
  induction H with
  | nil => rfl
  | cons e H ih =>
    have hrest := ih (fun t w text he => h t w text (List.mem_cons_of_mem e he))
    cases e with
    | logged t w text =>
      simp only [printed, returns, List.filterMap_cons, List.map_cons] at hrest ⊢
      rw [hrest, h t w text List.mem_cons_self]
    | _ => simpa [printed, returns] using hrest

theorem Owned.logsOwn {p : Load} {H : List (Event τ)} {s : State τ} (ho : Owned p H s) :
    LogsOwn H s := by
  refine ⟨ho.own, fun hidle => ?_⟩
  rw [printed_eq_map ho.own]
  exact Multiset.coe_eq_coe.mpr ((ho.recorded.perm hidle).map _)

/-- A write at its pr_info prints what last_message holds by then. -/
theorem wrong_of_log {k : Kernel τ} {p : Load} {tr : List (Label τ)} {s : State τ} {u : τ}
    {w : Writing} (hr : (machine k p).run (kernelLabInit p) tr = some s) (hp : s.pc u = .log w)
    (hne : s.lastMessage.text ≠ w.message) :
    ∃ v, (machine k p).run (kernelLabInit p) (tr ++ [.advance u]) = some v ∧
      ¬LogsOwn (history k p (tr ++ [.advance u])) v := by
  have hs : (machine k p).step s (.advance u) = some (s.goto u .idle) := by
    simp [machine, step, advance, hp]
  have hlog : history k p (tr ++ [.advance u]) = history k p tr ++ (event s (.advance u)).toList :=
    (machine k p).log_snoc _ hr hs
  refine ⟨_, (machine k p).run_snoc_of hr hs, fun ho => hne (ho.own u w _ ?_)⟩
  rw [hlog, event_advance hp]
  simp [State.shows]

theorem wrong_of_pending {k : Kernel τ} {p : Load} {tr : List (Label τ)} {s : State τ} {u : τ}
    {w : Writing} (hr : (machine k p).run (kernelLabInit p) tr = some s)
    (hw : w ∈ (s.pc u).pending) (hne : s.lastMessage.text ≠ w.message) :
    ∃ ext v, (machine k p).run (kernelLabInit p) (tr ++ ext) = some v ∧
      ¬LogsOwn (history k p (tr ++ ext)) v := by
  cases hp : s.pc u with
  | log w' =>
    obtain rfl : w = w' := by simpa [hp, Pc.pending] using hw
    exact ⟨_, wrong_of_log hr hp hne⟩
  | writeUnlock w' =>
    obtain rfl : w = w' := by simpa [hp, Pc.pending] using hw
    have hs : (machine k p).step s (.advance u) = some (s.mutexUnlock u (.log w)) := by
      simp [machine, step, advance, hp]
    have hlog : (s.mutexUnlock u (.log w)).pc u = .log w := by
      simp [State.mutexUnlock, State.goto]
    obtain ⟨v, hv⟩ := wrong_of_log ((machine k p).run_snoc_of hr hs) hlog hne
    exact ⟨[.advance u] ++ [.advance u], v, by simpa using hv⟩
  | _ => simp [hp, Pc.pending] at hw

/-- A write that overtakes another one with a different message can make it print the
wrong one. -/
theorem overtaken {k : Kernel τ} {p : Load} {tr : List (Label τ)} {s s' : State τ} {l : Label τ}
    (hr : (machine k p).run (kernelLabInit p) tr = some s) (hs : step k s l = some s')
    (hbad : unhindered s l = false) :
    ∃ ext v, (machine k p).run (kernelLabInit p) ((tr ++ [l]) ++ ext) = some v ∧
      ¬LogsOwn (history k p ((tr ++ [l]) ++ ext)) v := by
  unfold unhindered at hbad
  split at hbad
  · rename_i t
    split at hbad
    · rename_i w hp
      simp only [decide_eq_false_iff_not, not_forall] at hbad
      obtain ⟨u, hut, w', hw', hne⟩ := hbad
      have hsound := (recorded_of_run hr).sound t
      rw [hp] at hsound
      have hrun : (machine k p).run (kernelLabInit p) (tr ++ [.advance t]) = some s' :=
        (machine k p).run_snoc_of hr hs
      simp only [step, advance, hp, Option.some.injEq] at hs
      refine wrong_of_pending (u := u) (w := w') hrun ?_ ?_
      · simpa [← hs, State.goto, State.store, hut] using hw'
      · have htext : s'.lastMessage.text = w.message := by
          rw [← hs]
          exact text_strscpy_message hsound
        rw [htext]
        exact fun he => hne he.symm
    · cases hbad
  · cases hbad

/-- In every run in which no write is overtaken each write logs its own message; and
wherever a write is overtaken the run can go on to a wrong log. -/
theorem logs_own_iff_unhindered (k : Kernel τ) (p : Load) {tr : List (Label τ)} {s : State τ}
    (hr : (machine k p).run (kernelLabInit p) tr = some s) :
    ((machine k p).Obeys unhindered (kernelLabInit p) tr → LogsOwn (history k p tr) s) ∧
    ∀ l s', step k s l = some s' → unhindered s l = false →
      ∃ ext v, (machine k p).run (kernelLabInit p) ((tr ++ [l]) ++ ext) = some v ∧
        ¬LogsOwn (history k p ((tr ++ [l]) ++ ext)) v :=
  ⟨fun hok => (owned_of_run hr hok).logsOwn, fun _ _ hs hbad => overtaken hr hs hbad⟩

end

/-- Both tasks copy; the first stores and logs before the second stores. -/
def inTurn : List (Label (Fin 2)) :=
  [.write 0 [97] 1 false, .write 1 [98] 1 false, .advance 0, .advance 0, .advance 0, .advance 0,
    .advance 1, .advance 1, .advance 1, .advance 1]

theorem logs_own_inTurn :
    ∃ s, (machine (testKernel (Fin 2)) testLoad).run (kernelLabInit testLoad) inTurn = some s ∧
      LogsOwn (history (testKernel (Fin 2)) testLoad inTurn) s := by
  have hs : ((machine (testKernel (Fin 2)) testLoad).run (kernelLabInit testLoad)
      inTurn).isSome = true := by decide
  have hr := (Option.some_get hs).symm
  exact ⟨_, hr, (logs_own_iff_unhindered (testKernel (Fin 2)) testLoad hr).1 (by decide)⟩

/-- The second task stores between the first one's unlock and its pr_info. -/
def overtaking : List (Label (Fin 2)) :=
  [.write 0 [97] 1 false, .write 1 [98] 1 false, .advance 0, .advance 0, .advance 0, .advance 1,
    .advance 1, .advance 0]

/-- The write of "a" logs "b". -/
theorem not_logs_own_overtaking :
    ¬∀ tr s, (machine (testKernel (Fin 2)) testLoad).run (kernelLabInit testLoad) tr = some s →
      LogsOwn (history (testKernel (Fin 2)) testLoad tr) s := by
  intro hall
  have hs : ((machine (testKernel (Fin 2)) testLoad).run (kernelLabInit testLoad)
      overtaking).isSome = true := by decide
  have ho := hall overtaking _ (Option.some_get hs).symm
  have hlogged : .logged 0 ⟨[97], 1, prepared [97]⟩ [98] ∈
      history (testKernel (Fin 2)) testLoad overtaking := by decide
  have hwrong : [98] = Writing.message ⟨[97], 1, prepared [97]⟩ := ho.own _ _ _ hlogged
  exact absurd hwrong (by decide)

end LinuxPractice.KernelLab
