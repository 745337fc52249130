import LinuxPractice.KernelLab.Messages

set_option linter.unusedSectionVars false

namespace LinuxPractice.KernelLab

open Echo

/-- A message with whitespace around it that fits the buffer of kernel_lab_write. -/
structure Padded (a w b : List Byte) : Prop where
  nul_free : nul ∉ w
  head : ∀ c ∈ w.head?, isspace c = false
  last : ∀ c ∈ w.getLast?, isspace c = false
  front : ∀ c ∈ a, isspace c = true
  back : ∀ c ∈ b, isspace c = true
  fits : (a ++ w ++ b).length ≤ MESSAGE_BUFFER_SIZE - 1

theorem Padded.bare {a w b : List Byte} (h : Padded a w b) : Padded [] w [] where
  nul_free := h.nul_free
  head := h.head
  last := h.last
  front c hc := by cases hc
  back c hc := by cases hc
  fits := by
    have hlen := h.fits
    simp only [List.length_append, List.nil_append, List.append_nil] at hlen ⊢
    omega

theorem nul_not_mem_spaces {a : List Byte} (h : ∀ c ∈ a, isspace c = true) : nul ∉ a := by
  intro hm
  exact absurd (h nul hm) (by decide)

theorem rdropWhile_append_spaces (xs : List Byte) {b : List Byte} (h : ∀ c ∈ b, isspace c = true) :
    (xs ++ b).rdropWhile isspace = xs.rdropWhile isspace := by
  induction b using List.reverseRecOn with
  | nil => rw [List.append_nil]
  | append_singleton b c ih =>
    have hc : isspace c = true := h c (by simp)
    rw [← List.append_assoc, List.rdropWhile_concat_pos isspace _ c hc]
    exact ih (fun d hd => h d (List.mem_append_left _ hd))

/-- strim cuts the whitespace behind the message and keeps what is in front of it. -/
theorem normal_padded {a w b : List Byte} (h : Padded a w b) :
    normal (a ++ w ++ b) (a ++ w ++ b).length = if w = [] then [] else a ++ w := by
  have hcopy : copyLength (a ++ w ++ b).length = (a ++ w ++ b).length := Nat.min_eq_left h.fits
  have hnul : nul ∉ a ++ w ++ b := by
    simp only [List.mem_append, not_or]
    exact ⟨⟨nul_not_mem_spaces h.front, h.nul_free⟩, nul_not_mem_spaces h.back⟩
  rw [normal, hcopy, List.take_length, cstr_eq_self hnul, rdropWhile_append_spaces _ h.back]
  split
  · rename_i hw
    rw [hw, List.append_nil]
    exact List.rdropWhile_eq_nil_iff.mpr h.front
  · rename_i hw
    apply List.rdropWhile_eq_self_iff.mpr
    intro hne
    rw [List.getLast_append_of_ne_nil hne hw]
    have hlast := h.last (w.getLast hw) (List.getLast?_eq_some_getLast hw)
    rw [hlast]
    exact Bool.false_ne_true

theorem normal_bare {a w b : List Byte} (h : Padded a w b) : normal w w.length = w := by
  have hbare := normal_padded h.bare
  simp only [List.nil_append, List.append_nil] at hbare
  rw [hbare]
  split
  · rename_i hw
    exact hw.symm
  · rfl

section

variable {τ : Type*} [DecidableEq τ]

/-- The last write in lock order of a run. -/
def lastStore (k : Kernel τ) (p : Load) (tr : List (Label τ)) : Option Writing :=
  (stores (history k p tr)).getLast?.map Prod.snd

theorem text_of_lastStore {k : Kernel τ} {p : Load} {tr : List (Label τ)} {s : State τ}
    (hr : (machine k p).run (kernelLabInit p) tr = some s) {w : Writing}
    (hw : lastStore k p tr = some w) : s.lastMessage.text = w.message := by
  obtain ⟨e, he, rfl⟩ := Option.map_eq_some_iff.mp hw
  rw [(recorded_of_run hr).message, current, he]

/-- After a write of the padded message in one run and of the bare message in another, both
hold the bare message exactly when there is nothing in front of it or no message at all. -/
theorem padding_ignored_iff (k : Kernel τ) (p p' : Load) {a w b : List Byte} (h : Padded a w b)
    {tr tr' : List (Label τ)} {s s' : State τ} {buffer buffer' : List Byte}
    (hr : (machine k p).run (kernelLabInit p) tr = some s)
    (hw : lastStore k p tr = some ⟨a ++ w ++ b, (a ++ w ++ b).length, buffer⟩)
    (hr' : (machine k p').run (kernelLabInit p') tr' = some s')
    (hw' : lastStore k p' tr' = some ⟨w, w.length, buffer'⟩) :
    (s.lastMessage.text = s'.lastMessage.text ∧ s'.lastMessage.text = w) ↔ a = [] ∨ w = [] := by
  have htext : s.lastMessage.text = if w = [] then [] else a ++ w :=
    (text_of_lastStore hr hw).trans (normal_padded h)
  have htext' : s'.lastMessage.text = w := (text_of_lastStore hr' hw').trans (normal_bare h)
  rw [htext, htext']
  by_cases hnil : w = []
  · simp [hnil]
  · simp [hnil]

end

/-- One task writes these bytes. -/
def writeOf (user : List Byte) : List (Label (Fin 1)) :=
  [.write 0 user user.length false, .advance 0, .advance 0]

def afterWrite (user : List Byte) : State (Fin 1) :=
  ((machine (testKernel (Fin 1)) testLoad).run (kernelLabInit testLoad) (writeOf user)).getD
    (kernelLabInit testLoad)

theorem run_writeOf_hi :
    (machine (testKernel (Fin 1)) testLoad).run (kernelLabInit testLoad) (writeOf [104, 105]) =
      some (afterWrite [104, 105]) ∧
    lastStore (testKernel (Fin 1)) testLoad (writeOf [104, 105]) =
      some ⟨[104, 105], 2, prepared [104, 105]⟩ := ⟨rfl, rfl⟩

theorem padded_trailing : Padded [] [104, 105] [32, 10] where
  nul_free := by decide
  head := by simp [isspace]
  last := by simp [isspace]
  front := by simp
  back := by simp [isspace]
  fits := by decide

theorem padded_leading : Padded [32] [104, 105] [] where
  nul_free := by decide
  head := by simp [isspace]
  last := by simp [isspace]
  front := by simp [isspace]
  back := by simp
  fits := by decide

/-- "hi \n", as echo would write it. -/
theorem padding_ignored_trailing :
    (afterWrite [104, 105, 32, 10]).lastMessage.text = (afterWrite [104, 105]).lastMessage.text ∧
      (afterWrite [104, 105]).lastMessage.text = [104, 105] := by
  have hr : (machine (testKernel (Fin 1)) testLoad).run (kernelLabInit testLoad)
      (writeOf [104, 105, 32, 10]) = some (afterWrite [104, 105, 32, 10]) := rfl
  have hbare := run_writeOf_hi
  exact (padding_ignored_iff (testKernel (Fin 1)) testLoad testLoad padded_trailing hr rfl hbare.1
    hbare.2).mpr (.inl rfl)

/-- " hi" is stored with its blank. -/
theorem padding_kept_leading :
    ¬∀ a w b, Padded a w b → ∀ tr tr' s s' buffer buffer',
      (machine (testKernel (Fin 1)) testLoad).run (kernelLabInit testLoad) tr = some s →
      lastStore (testKernel (Fin 1)) testLoad tr =
        some ⟨a ++ w ++ b, (a ++ w ++ b).length, buffer⟩ →
      (machine (testKernel (Fin 1)) testLoad).run (kernelLabInit testLoad) tr' = some s' →
      lastStore (testKernel (Fin 1)) testLoad tr' = some ⟨w, w.length, buffer'⟩ →
      s.lastMessage.text = s'.lastMessage.text ∧ s'.lastMessage.text = w := by
  intro hall
  have hr : (machine (testKernel (Fin 1)) testLoad).run (kernelLabInit testLoad)
      (writeOf [32, 104, 105]) = some (afterWrite [32, 104, 105]) := rfl
  have hbare := run_writeOf_hi
  have hsame := (hall _ _ _ padded_leading _ _ _ _ _ _ hr rfl hbare.1 hbare.2).1
  have hblank : (afterWrite [32, 104, 105]).lastMessage.text = [32, 104, 105] := by decide +kernel
  have hhi : (afterWrite [104, 105]).lastMessage.text = [104, 105] := by decide +kernel
  rw [hblank, hhi] at hsame
  exact absurd hsame (by decide)

end LinuxPractice.KernelLab
