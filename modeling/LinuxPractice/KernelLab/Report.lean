import LinuxPractice.KernelLab.Messages

set_option linter.unusedSectionVars false

namespace LinuxPractice.KernelLab

open Echo
open Decimal (ascii)

section

variable {τ : Type*} [DecidableEq τ]

/-- The bytes of a report that are not its labels: the fields set by the parameters, the
writers, the clock and the reader. -/
def variableBytes (k : Kernel τ) (s : State τ) (t : τ) (x : Times) : Nat :=
  s.greeting.text.length + (Decimal.ofInt s.repeatParam.toInt).length +
    (Decimal.ofNat s.writeCount.toNat).length + s.lastMessage.text.length +
    (Decimal.ofNat x.uptimeMs.toNat).length + (Decimal.ofInt (k.task t).pid.toInt).length +
    (k.task t).comm.length + (Decimal.ofInt x.tvSec.toInt).length

/-- The nine labels, kernel_lab and the nine newlines are 118 bytes. -/
theorem length_fullReport (k : Kernel τ) (s : State τ) (t : τ) (x : Times) :
    (fullReport k s t x).length = 118 + variableBytes k s t x := by
  have h1 : (ascii "module: ").length = 8 := rfl
  have h2 : (ascii "kernel_lab").length = 10 := rfl
  have h3 : (ascii "greeting: ").length = 10 := rfl
  have h4 : (ascii "repeat: ").length = 8 := rfl
  have h5 : (ascii "writes: ").length = 8 := rfl
  have h6 : (ascii "last_message: ").length = 14 := rfl
  have h7 : (ascii "uptime_ms: ").length = 11 := rfl
  have h8 : (ascii "reader_pid: ").length = 12 := rfl
  have h9 : (ascii "reader_comm: ").length = 13 := rfl
  have h10 : (ascii "real_time_sec: ").length = 15 := rfl
  simp only [fullReport, lines, fields, List.flatMap_cons, List.flatMap_nil, List.length_append,
    List.length_cons, List.length_nil, h1, h2, h3, h4, h5, h6, h7, h8, h9, h10, variableBytes]
  omega

theorem scnprintf_eq_self_iff (size : Nat) (text : List Byte) :
    scnprintf size text = text ↔ text.length ≤ size - 1 := by
  unfold scnprintf
  constructor
  · intro h
    rw [← h]
    exact List.length_take_le _ _
  · intro h
    exact List.take_of_length_le h

/-- The buffer of kernel_lab_read holds the whole report exactly when the variable fields
together take at most 393 bytes. -/
theorem report_complete_iff (k : Kernel τ) (s : State τ) (t : τ) (x : Times) :
    report k s t x = fullReport k s t x ↔ variableBytes k s t x ≤ 393 := by
  rw [report, scnprintf_eq_self_iff, length_fullReport]
  omega

end

/-- insmod with a greeting that fills its array. -/
def longGreeting : Greeting where
  text := List.replicate 255 97
  nul_free := fun h => absurd (List.eq_of_mem_replicate h) (by decide)
  fits := by
    rw [List.length_replicate]
    decide

/-- Right after the load greeting and last_message alone take 510 bytes. -/
theorem report_cut_longGreeting :
    ¬∀ s, (machine (testKernel (Fin 1)) ⟨longGreeting, 1, 0, 1700000000⟩).Reachable s →
      report (testKernel (Fin 1)) s 0 (s.times (testKernel (Fin 1))) =
        fullReport (testKernel (Fin 1)) s 0 (s.times (testKernel (Fin 1))) := by
  intro hall
  have h := hall _ (Machine.Reachable.start _)
  rw [report, scnprintf_eq_self_iff, length_fullReport] at h
  have hmsg : (kernelLabInit _ : State (Fin 1)).lastMessage.text = longGreeting.text :=
    text_kernelLabInit ⟨longGreeting, 1, 0, 1700000000⟩
  have hlen : longGreeting.text.length = 255 := List.length_replicate
  simp only [variableBytes, machine, hmsg] at h
  simp only [kernelLabInit, hlen] at h
  omega

end LinuxPractice.KernelLab
