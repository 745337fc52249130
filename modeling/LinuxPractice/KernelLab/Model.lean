import LinuxPractice.KernelLab.Strings
import LinuxPractice.Framework.Decimal
import LinuxPractice.Framework.Machine

namespace LinuxPractice.KernelLab

open Echo
open Decimal (ascii)

/-- What the greeting parameter accepts: a string that fits its array. -/
structure Greeting where
  text : List Byte
  nul_free : nul ∉ text
  fits : text.length < MESSAGE_BUFFER_SIZE

/-- current: its pid and its comm of TASK_COMM_LEN bytes with the NUL. -/
structure Task where
  pid : Int32
  comm : List Byte
  nul_free : nul ∉ comm
  fits : comm.length < 16

/-- What the module finds around it: the tasks that call it and jiffies_to_msecs. -/
structure Kernel (τ : Type*) where
  task : τ → Task
  jiffiesToMsecs : UInt64 → UInt32

/-- A call of kernel_lab_write: its arguments and its local buffer. -/
structure Writing where
  user : List Byte
  count : Nat
  buffer : List Byte
  deriving DecidableEq

/-- What the call is meant to store. -/
def Writing.message (w : Writing) : List Byte := normal w.user w.count

/-- The locals uptime_ms and now.tv_sec of kernel_lab_read. -/
structure Times where
  uptimeMs : UInt64
  tvSec : Int64
  deriving DecidableEq

/-- Where a task stands in kernel_lab_write or kernel_lab_read. -/
inductive Pc
  | idle
  | writeLock (w : Writing)
  | update (w : Writing)
  | writeUnlock (w : Writing)
  | log (w : Writing)
  | readLock (count : Nat)
  | sampleUptime (count : Nat)
  | sampleTime (count : Nat) (uptimeMs : UInt64)
  | format (count : Nat) (x : Times)
  | readUnlock (count : Nat) (buffer : List Byte)
  | deliver (count : Nat) (buffer : List Byte)
  deriving DecidableEq

/-- The static variables of the module, the clock, and each task with the position of
its open file. -/
structure State (τ : Type*) where
  greeting : Greeting
  repeatParam : Int32
  lastMessage : CharArray MESSAGE_BUFFER_SIZE
  writeCount : UInt32
  loadJiffies : UInt64
  jiffies : UInt64
  tvSec : Int64
  kernelLabLock : Option τ
  pc : τ → Pc
  position : τ → Nat

/-- advance is the next step of a task inside a call. Time passes by tick and clock, and the
two parameters can be stored through sysfs. -/
inductive Label (τ : Type*)
  | open (t : τ)
  | write (t : τ) (user : List Byte) (count : Nat) (fault : Bool)
  | read (t : τ) (count : Nat)
  | advance (t : τ)
  | tick
  | clock (tvSec : Int64)
  | setGreeting (g : Greeting)
  | setRepeat (n : Int32)

section

variable {τ : Type*} [DecidableEq τ]

/-- uptime_ms = jiffies_to_msecs(jiffies - load_jiffies) -/
def uptimeMs (k : Kernel τ) (s : State τ) : UInt64 :=
  (k.jiffiesToMsecs (s.jiffies - s.loadJiffies)).toUInt64

/-- What the two samples are when no time passes between them. -/
def State.times (k : Kernel τ) (s : State τ) : Times := ⟨uptimeMs k s, s.tvSec⟩

/-- The labels of the format string with what is printed after each of them. -/
def fields (k : Kernel τ) (s : State τ) (t : τ) (x : Times) : List (List Byte × List Byte) :=
  [(ascii "module: ", ascii "kernel_lab"),
    (ascii "greeting: ", s.greeting.text),
    (ascii "repeat: ", Decimal.ofInt s.repeatParam.toInt),
    (ascii "writes: ", Decimal.ofNat s.writeCount.toNat),
    (ascii "last_message: ", s.lastMessage.text),
    (ascii "uptime_ms: ", Decimal.ofNat x.uptimeMs.toNat),
    (ascii "reader_pid: ", Decimal.ofInt (k.task t).pid.toInt),
    (ascii "reader_comm: ", (k.task t).comm),
    (ascii "real_time_sec: ", Decimal.ofInt x.tvSec.toInt)]

/-- The lines of a report. -/
def lines (fs : List (List Byte × List Byte)) : List Byte :=
  fs.flatMap fun f => f.1 ++ f.2 ++ [newline]

/-- All that the format string of kernel_lab_read stands for. -/
def fullReport (k : Kernel τ) (s : State τ) (t : τ) (x : Times) : List Byte :=
  lines (fields k s t x)

/-- scnprintf(buf, size, ..): what it leaves in the buffer, without the NUL. -/
def scnprintf (size : Nat) (text : List Byte) : List Byte := text.take (size - 1)

/-- The buffer of kernel_lab_read. -/
def report (k : Kernel τ) (s : State τ) (t : τ) (x : Times) : List Byte :=
  scnprintf 512 (fullReport k s t x)

/-- simple_read_from_buffer: the bytes it copies; position advances by their number. -/
def simpleReadFromBuffer (count position : Nat) (buffer : List Byte) : List Byte :=
  (buffer.drop position).take count

def State.goto (s : State τ) (t : τ) (pc : Pc) : State τ :=
  { s with pc := Function.update s.pc t pc }

/-- mutex_lock(&kernel_lab_lock), which waits while somebody has the lock. -/
def State.mutexLock (s : State τ) (t : τ) (pc : Pc) : Option (State τ) :=
  match s.kernelLabLock with
  | none => some { s.goto t pc with kernelLabLock := some t }
  | some _ => none

def State.mutexUnlock (s : State τ) (t : τ) (pc : Pc) : State τ :=
  { s.goto t pc with kernelLabLock := none }

/-- strscpy(last_message, buffer, sizeof(last_message)); write_count++ -/
def State.store (s : State τ) (buffer : List Byte) : State τ :=
  { s with
    lastMessage := strscpy s.lastMessage buffer
    writeCount := s.writeCount + 1 }

/-- The next step of a task inside a call. The lock does not stop the clock, so the two
samples are steps of their own; pr_info comes after the unlock. -/
def advance (k : Kernel τ) (s : State τ) (t : τ) : Option (State τ) :=
  match s.pc t with
  | .idle => none
  | .writeLock w => s.mutexLock t (.update w)
  | .update w => some ((s.store w.buffer).goto t (.writeUnlock w))
  | .writeUnlock w => some (s.mutexUnlock t (.log w))
  | .log _ => some (s.goto t .idle)
  | .readLock count => s.mutexLock t (.sampleUptime count)
  | .sampleUptime count => some (s.goto t (.sampleTime count (uptimeMs k s)))
  | .sampleTime count ms => some (s.goto t (.format count ⟨ms, s.tvSec⟩))
  | .format count x => some (s.goto t (.readUnlock count (report k s t x)))
  | .readUnlock count buffer => some (s.mutexUnlock t (.deliver count buffer))
  | .deliver count buffer => some
    { s.goto t .idle with
      position := Function.update s.position t
        (s.position t + (simpleReadFromBuffer count (s.position t) buffer).length) }

/-- The start of kernel_lab_write, up to its mutex_lock or its return -EFAULT. -/
def kernelLabWrite (s : State τ) (t : τ) (user : List Byte) (count : Nat) (fault : Bool) :
    State τ :=
  match copyFromUser user (copyLength count) fault with
  | none => s
  | some copied => s.goto t (.writeLock ⟨user, count, prepared copied⟩)

def step (k : Kernel τ) (s : State τ) : Label τ → Option (State τ)
  | .open t =>
    if s.pc t = .idle then some { s with position := Function.update s.position t 0 } else none
  | .write t user count fault =>
    if s.pc t = .idle then some (kernelLabWrite s t user count fault) else none
  | .read t count => if s.pc t = .idle then some (s.goto t (.readLock count)) else none
  | .advance t => advance k s t
  | .tick => some { s with jiffies := s.jiffies + 1 }
  | .clock tvSec => some { s with tvSec := tvSec }
  | .setGreeting g => some { s with greeting := g }
  | .setRepeat n => some { s with repeatParam := n }

/-- static char last_message[MESSAGE_BUFFER_SIZE] as it is declared. -/
def declaredMessage : CharArray MESSAGE_BUFFER_SIZE where
  bytes := ascii "write something to /proc/kernel_lab" ++ List.replicate 221 nul
  size := by
    rw [List.length_append, List.length_replicate]
    rfl

/-- The load-time parameters and the clock at load. -/
structure Load where
  greeting : Greeting
  repeatParam : Int32
  jiffies : UInt64
  tvSec : Int64

/-- The module as kernel_lab_init leaves it. -/
def kernelLabInit (p : Load) : State τ where
  greeting := p.greeting
  repeatParam := p.repeatParam
  lastMessage := strscpy declaredMessage (p.greeting.text ++ [nul])
  writeCount := 0
  loadJiffies := p.jiffies
  jiffies := p.jiffies
  tvSec := p.tvSec
  kernelLabLock := none
  pc _ := .idle
  position _ := 0

def machine (k : Kernel τ) (p : Load) : Machine (State τ) (Label τ) := ⟨kernelLabInit p, step k⟩

/-- What can be observed of the calls: a write returns -EFAULT, stores its message, prints
what last_message holds and returns its count; a read returns bytes. -/
inductive Event (τ : Type*)
  | efault (t : τ)
  | stored (t : τ) (w : Writing)
  | logged (t : τ) (w : Writing) (text : List Byte)
  | delivered (t : τ) (data : List Byte)
  deriving DecidableEq

/-- What the step of a task at a point of a call shows. -/
def State.shows (s : State τ) (t : τ) : Pc → Option (Event τ)
  | .update w => some (.stored t w)
  | .log w => some (.logged t w s.lastMessage.text)
  | .deliver count buffer => some (.delivered t (simpleReadFromBuffer count (s.position t) buffer))
  | _ => none

def event (s : State τ) : Label τ → Option (Event τ)
  | .write t user count fault =>
    if (copyFromUser user (copyLength count) fault).isNone then some (.efault t) else none
  | .advance t => s.shows t (s.pc t)
  | _ => none

def history (k : Kernel τ) (p : Load) (tr : List (Label τ)) : List (Event τ) :=
  (machine k p).log event (kernelLabInit p) tr

end

end LinuxPractice.KernelLab
