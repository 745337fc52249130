import LinuxPractice.KernelLab.Report

set_option linter.unusedSectionVars false

namespace LinuxPractice.KernelLab

open Echo
open Decimal (ascii)

/-- A text line by line, without the newlines. -/
def readLines : List Byte → List (List Byte)
  | [] => []
  | b :: rest =>
    if b = newline then [] :: readLines rest
    else
      match readLines rest with
      | [] => [[b]]
      | line :: ls => (b :: line) :: ls

/-- What stands after a label at the start of a line. -/
def afterLabel (label line : List Byte) : Option (List Byte) :=
  if label.isPrefixOf line then some (line.drop label.length) else none

/-- A reader that goes through a text line by line and takes what follows a label. -/
def takeField (label text : List Byte) : Option (List Byte) :=
  (readLines text).findSome? (afterLabel label)

theorem readLines_line {line : List Byte} (h : newline ∉ line) (rest : List Byte) :
    readLines (line ++ newline :: rest) = line :: readLines rest := by
  induction line with
  | nil => simp [readLines]
  | cons b line ih =>
    have hb : b ≠ newline := fun he => h (he ▸ List.mem_cons_self)
    have hrest := ih (fun hm => h (List.mem_cons_of_mem b hm))
    simp only [List.cons_append, readLines, hb, if_false, hrest]

theorem newline_not_mem_readLines {text line : List Byte} (h : line ∈ readLines text) :
    newline ∉ line := by
  induction text generalizing line with
  | nil => cases h
  | cons b rest ih =>
    simp only [readLines] at h
    split at h
    · rcases List.mem_cons.mp h with rfl | h
      · simp
      · exact ih h
    · rename_i hb
      split at h
      · rw [List.mem_singleton.mp h]
        simpa using Ne.symm hb
      · rename_i l ls hl
        rcases List.mem_cons.mp h with rfl | h
        · have hrest : newline ∉ l := ih (by simp [hl])
          simp only [List.mem_cons, not_or]
          exact ⟨fun he => hb he.symm, hrest⟩
        · exact ih (by simp [hl, h])

/-- What the reader takes is part of one line. -/
theorem newline_not_mem_takeField {label text v : List Byte} (h : takeField label text = some v) :
    newline ∉ v := by
  obtain ⟨line, hline, hv⟩ := List.exists_of_findSome?_eq_some h
  unfold afterLabel at hv
  split at hv
  · rw [← Option.some.inj hv]
    exact fun hm => newline_not_mem_readLines hline (List.mem_of_mem_drop hm)
  · cases hv

theorem lines_cons (f : List Byte × List Byte) (fs : List (List Byte × List Byte)) :
    lines (f :: fs) = (f.1 ++ f.2) ++ newline :: lines fs := by
  simp [lines]

theorem takeField_skip {label : List Byte} {f : List Byte × List Byte}
    {fs : List (List Byte × List Byte)} (hn : newline ∉ f.1 ++ f.2)
    (hl : label.isPrefixOf (f.1 ++ f.2) = false) :
    takeField label (lines (f :: fs)) = takeField label (lines fs) := by
  rw [takeField, lines_cons, readLines_line hn, List.findSome?_cons, afterLabel]
  simp only [hl, Bool.false_eq_true, if_false]
  rfl

/-- A field is found behind lines that have other labels. -/
theorem takeField_found {label v : List Byte} (pre : List (List Byte × List Byte))
    {post : List (List Byte × List Byte)}
    (hpre : ∀ f ∈ pre, newline ∉ f.1 ++ f.2 ∧ label.isPrefixOf (f.1 ++ f.2) = false)
    (hv : newline ∉ label ++ v) : takeField label (lines (pre ++ (label, v) :: post)) = some v := by
  induction pre with
  | nil =>
    have hp : label.isPrefixOf (label ++ v) = true := by simp
    rw [List.nil_append, takeField, lines_cons, readLines_line hv, List.findSome?_cons, afterLabel]
    simp only [hp, if_true, List.drop_left]
  | cons f pre ih =>
    have hf := hpre f List.mem_cons_self
    rw [List.cons_append, takeField_skip hf.1 hf.2]
    exact ih (fun g hg => hpre g (List.mem_cons_of_mem f hg))

/-- A line with another label can be left out. -/
theorem takeField_remove {label : List Byte} {f : List Byte × List Byte}
    {pre post : List (List Byte × List Byte)} (hpre : ∀ g ∈ pre, newline ∉ g.1 ++ g.2)
    (hn : newline ∉ f.1 ++ f.2) (hl : label.isPrefixOf (f.1 ++ f.2) = false) :
    takeField label (lines (pre ++ f :: post)) = takeField label (lines (pre ++ post)) := by
  induction pre with
  | nil => exact takeField_skip hn hl
  | cons g pre ih =>
    have hg := hpre g List.mem_cons_self
    have hrest := ih (fun g' hg' => hpre g' (List.mem_cons_of_mem g hg'))
    simp only [takeField, List.cons_append, lines_cons, readLines_line hg,
      List.findSome?_cons] at hrest ⊢
    rw [hrest]

section

variable {τ : Type*} [DecidableEq τ]

/-- The labels of a report. -/
def labels : List (List Byte) :=
  [ascii "module: ", ascii "greeting: ", ascii "repeat: ", ascii "writes: ",
    ascii "last_message: ", ascii "uptime_ms: ", ascii "reader_pid: ", ascii "reader_comm: ",
    ascii "real_time_sec: "]

/-- The same state with nothing in last_message. -/
def State.erased (s : State τ) : State τ :=
  { s with lastMessage := strscpy s.lastMessage [] }

/-- The line-by-line reader recovers the four fields, and takes for every other field what
it would take had nothing been written. -/
structure Unambiguous (k : Kernel τ) (s : State τ) (t : τ) (x : Times) : Prop where
  greeting : takeField (ascii "greeting: ") (report k s t x) = some s.greeting.text
  repetition : (takeField (ascii "repeat: ") (report k s t x)).map Decimal.parseInt =
    some s.repeatParam.toInt
  writes : (takeField (ascii "writes: ") (report k s t x)).map Decimal.parseNat =
    some s.writeCount.toNat
  message : takeField (ascii "last_message: ") (report k s t x) = some s.lastMessage.text
  others : ∀ label ∈ labels, label ≠ ascii "last_message: " →
    takeField label (report k s t x) = takeField label (report k s.erased t x)

theorem text_erased (s : State τ) : s.erased.lastMessage.text = [] := by
  simp only [State.erased]
  rw [text_strscpy (by decide)]
  rfl

theorem report_of_fits {k : Kernel τ} {s : State τ} {t : τ} {x : Times}
    (h : (fullReport k s t x).length ≤ 511) : report k s t x = fullReport k s t x :=
  (scnprintf_eq_self_iff 512 _).mpr h

theorem fits_erased {k : Kernel τ} {s : State τ} {t : τ} {x : Times} (h : (fullReport k s t x).length ≤ 511) :
    (fullReport k s.erased t x).length ≤ 511 := by
  rw [length_fullReport] at h ⊢
  have he := text_erased s
  simp only [variableBytes, he, List.length_nil] at h ⊢
  simp only [State.erased] at h ⊢
  omega

/-- The lines of a report in front of last_message. -/
def before (s : State τ) : List (List Byte × List Byte) :=
  [(ascii "module: ", ascii "kernel_lab"), (ascii "greeting: ", s.greeting.text),
    (ascii "repeat: ", Decimal.ofInt s.repeatParam.toInt),
    (ascii "writes: ", Decimal.ofNat s.writeCount.toNat)]

theorem newline_not_mem_before {s : State τ} (hg : newline ∉ s.greeting.text) :
    ∀ f ∈ before s, newline ∉ f.1 ++ f.2 := by
  have hr : newline ∉ Decimal.ofInt s.repeatParam.toInt := Decimal.not_mem_ofInt (by decide)
  have hw : newline ∉ Decimal.ofNat s.writeCount.toNat := Decimal.not_mem_ofNat (by decide)
  have h1 : newline ∉ ascii "module: " ++ ascii "kernel_lab" := by decide
  have h2 : newline ∉ ascii "greeting: " := by decide
  have h3 : newline ∉ ascii "repeat: " := by decide
  have h4 : newline ∉ ascii "writes: " := by decide
  intro f hf
  simp only [before, List.mem_cons, List.not_mem_nil, or_false] at hf
  rcases hf with rfl | rfl | rfl | rfl
  · exact h1
  · simp only [List.mem_append, not_or]
    exact ⟨h2, hg⟩
  · simp only [List.mem_append, not_or]
    exact ⟨h3, hr⟩
  · simp only [List.mem_append, not_or]
    exact ⟨h4, hw⟩

/-- The lines of a report behind last_message. -/
def after (k : Kernel τ) (t : τ) (x : Times) : List (List Byte × List Byte) :=
  [(ascii "uptime_ms: ", Decimal.ofNat x.uptimeMs.toNat),
    (ascii "reader_pid: ", Decimal.ofInt (k.task t).pid.toInt),
    (ascii "reader_comm: ", (k.task t).comm),
    (ascii "real_time_sec: ", Decimal.ofInt x.tvSec.toInt)]

theorem fullReport_eq (k : Kernel τ) (s : State τ) (t : τ) (x : Times) :
    fullReport k s t x =
      lines (before s ++ (ascii "last_message: ", s.lastMessage.text) :: after k t x) := rfl

/-- No other label fits the line of last_message. -/
theorem not_isPrefixOf_message {label : List Byte} (hl : label ∈ labels)
    (hne : label ≠ ascii "last_message: ") (v : List Byte) :
    label.isPrefixOf (ascii "last_message: " ++ v) = false := by
  simp only [labels, List.mem_cons, List.not_mem_nil, or_false] at hl
  rcases hl with rfl | rfl | rfl | rfl | rfl | rfl | rfl | rfl | rfl
  · rfl
  · rfl
  · rfl
  · rfl
  · exact absurd rfl hne
  · rfl
  · rfl
  · rfl
  · rfl

/-- The message is one line of its own, so the other fields do not depend on it. -/
theorem takeField_erased {k : Kernel τ} {s : State τ} {t : τ} {x : Times} (hg : newline ∉ s.greeting.text)
    (hm : newline ∉ s.lastMessage.text) {label : List Byte} (hl : label ∈ labels)
    (hne : label ≠ ascii "last_message: ") :
    takeField label (fullReport k s t x) = takeField label (fullReport k s.erased t x) := by
  have hlab : newline ∉ ascii "last_message: " := by decide
  have hline : ∀ v, newline ∉ v → newline ∉ ascii "last_message: " ++ v := by
    intro v hv
    simp only [List.mem_append, not_or]
    exact ⟨hlab, hv⟩
  have hbefore := newline_not_mem_before hg
  have herased : fullReport k s.erased t x =
      lines (before s ++ (ascii "last_message: ", []) :: after k t x) := by
    rw [fullReport_eq, text_erased]
    rfl
  rw [fullReport_eq, herased,
    takeField_remove hbefore (hline _ hm) (not_isPrefixOf_message hl hne _),
    takeField_remove hbefore (hline [] (by simp)) (not_isPrefixOf_message hl hne _)]

/-- Each of the first five fields is found behind the lines in front of it. -/
theorem takeField_fields {k : Kernel τ} {s : State τ} {t : τ} {x : Times} (hg : newline ∉ s.greeting.text)
    (hm : newline ∉ s.lastMessage.text) :
    takeField (ascii "greeting: ") (fullReport k s t x) = some s.greeting.text ∧
    takeField (ascii "repeat: ") (fullReport k s t x) =
      some (Decimal.ofInt s.repeatParam.toInt) ∧
    takeField (ascii "writes: ") (fullReport k s t x) =
      some (Decimal.ofNat s.writeCount.toNat) ∧
    takeField (ascii "last_message: ") (fullReport k s t x) = some s.lastMessage.text := by
  have hn := newline_not_mem_before hg
  have hlab : newline ∉ ascii "last_message: " := by decide
  simp only [before, List.forall_mem_cons, List.not_mem_nil, false_implies, implies_true,
    and_true] at hn
  obtain ⟨h1, h2, h3, h4⟩ := hn
  refine ⟨?_, ?_, ?_, ?_⟩
  · refine takeField_found [(ascii "module: ", ascii "kernel_lab")] ?_ h2
    simp only [List.forall_mem_cons, List.not_mem_nil, false_implies, implies_true, and_true]
    exact ⟨h1, rfl⟩
  · refine takeField_found ((before s).take 2) ?_ h3
    simp only [before, List.take_succ_cons, List.take_zero, List.forall_mem_cons,
      List.not_mem_nil, false_implies, implies_true, and_true]
    exact ⟨⟨h1, rfl⟩, h2, rfl⟩
  · refine takeField_found ((before s).take 3) ?_ h4
    simp only [before, List.take_succ_cons, List.take_zero, List.forall_mem_cons,
      List.not_mem_nil, false_implies, implies_true, and_true]
    exact ⟨⟨h1, rfl⟩, ⟨h2, rfl⟩, h3, rfl⟩
  · refine takeField_found (before s) ?_ ?_
    · simp only [before, List.forall_mem_cons, List.not_mem_nil, false_implies, implies_true,
        and_true]
      exact ⟨⟨h1, rfl⟩, ⟨h2, rfl⟩, ⟨h3, rfl⟩, h4, rfl⟩
    · simp only [List.mem_append, not_or]
      exact ⟨hlab, hm⟩

/-- A report that fits is unambiguous exactly when neither the greeting nor the stored
message contains a newline. -/
theorem unambiguous_iff_no_newline (k : Kernel τ) (s : State τ) (t : τ) (x : Times)
    (hfits : (fullReport k s t x).length ≤ 511) :
    Unambiguous k s t x ↔ newline ∉ s.greeting.text ∧ newline ∉ s.lastMessage.text := by
  constructor
  · intro h
    exact ⟨newline_not_mem_takeField h.greeting, newline_not_mem_takeField h.message⟩
  · rintro ⟨hg, hm⟩
    obtain ⟨h1, h2, h3, h4⟩ := takeField_fields (k := k) (t := t) (x := x) hg hm
    have hrep := report_of_fits hfits
    refine ⟨hrep ▸ h1, ?_, ?_, hrep ▸ h4, ?_⟩
    · rw [hrep, h2, Option.map_some, Decimal.parseInt_ofInt]
    · rw [hrep, h3, Option.map_some, Decimal.parseNat_ofNat]
    · intro label hl hne
      rw [hrep, report_of_fits (fits_erased hfits)]
      exact takeField_erased hg hm hl hne

end

theorem unambiguous_after_load :
    Unambiguous (testKernel (Fin 1)) (kernelLabInit testLoad) 0 ⟨0, 1700000000⟩ := by
  have hfits : (fullReport (testKernel (Fin 1)) (kernelLabInit testLoad) 0
      ⟨0, 1700000000⟩).length ≤ 511 := by decide +kernel
  have hclean : newline ∉ (kernelLabInit testLoad : State (Fin 1)).greeting.text ∧
      newline ∉ (kernelLabInit testLoad : State (Fin 1)).lastMessage.text := by decide +kernel
  exact (unambiguous_iff_no_newline _ _ _ _ hfits).mpr hclean

/-- The bytes an unprivileged process writes: a message that goes on in a new line. -/
def forgedMessage : List Byte := ascii "x\nuptime_ms: 999999"

def forged : State (Fin 1) :=
  ((machine (testKernel (Fin 1)) testLoad).run (kernelLabInit testLoad)
    [.write 0 forgedMessage 19 false, .advance 0, .advance 0]).getD (kernelLabInit testLoad)

/-- The reader takes the writer's number for uptime_ms. -/
theorem not_unambiguous_forged :
    ¬∀ s, (machine (testKernel (Fin 1)) testLoad).Reachable s → ∀ x,
      (fullReport (testKernel (Fin 1)) s 0 x).length ≤ 511 →
        Unambiguous (testKernel (Fin 1)) s 0 x := by
  intro hall
  have hr : (machine (testKernel (Fin 1)) testLoad).Reachable forged :=
    ⟨[.write 0 forgedMessage 19 false, .advance 0, .advance 0], rfl⟩
  have hu := hall forged hr (forged.times (testKernel (Fin 1))) (by decide +kernel)
  have hother := hu.others (ascii "uptime_ms: ") (by decide) (by decide)
  have htaken : takeField (ascii "uptime_ms: ") (report (testKernel (Fin 1)) forged 0
      (forged.times (testKernel (Fin 1)))) = some (ascii "999999") := by decide +kernel
  have hreal : takeField (ascii "uptime_ms: ") (report (testKernel (Fin 1)) forged.erased 0
      (forged.times (testKernel (Fin 1)))) = some (ascii "0") := by decide +kernel
  rw [htaken, hreal] at hother
  exact absurd hother (by decide)

end LinuxPractice.KernelLab
