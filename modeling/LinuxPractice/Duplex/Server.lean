import LinuxPractice.Framework.Progress
import LinuxPractice.Framework.Capacity
import LinuxPractice.Echo.Lines

namespace LinuxPractice.Duplex

open Echo (Byte MAXLINE)

/-- A system call that returns k, or one that returns -1 with errno set to EINTR. -/
inductive Io
  | io (k : Nat)
  | eintr
  deriving DecidableEq

/-- Where str_echo stands: in read, in Writen with the bytes it has left, or behind its
loop, when the child exits and its end of the connection is closed. -/
inductive ServerPc
  | read
  | writen (rest : List Byte)
  | exited
  deriving DecidableEq

/-- Writen is left, and read called again, when nothing is left to write. -/
def ServerPc.writing : List Byte → ServerPc
  | [] => .read
  | b :: bs => .writen (b :: bs)

/-- str_echo on a socket that receives on up and sends on down, where cap bytes fit. -/
def ServerPc.step (cap : Nat) (pc : ServerPc) (up down : Channel Byte) :
    Io → Option (ServerPc × Channel Byte × Channel Byte)
  | .io k =>
    match pc with
    | .read =>
      (up.read MAXLINE k).map fun o =>
        match o.1 with
        | [] => (.exited, o.2, down.close)
        | b :: bs => (.writen (b :: bs), o.2, down)
    | .writen rest => (down.writeWithin cap rest k).map fun o => (.writing o.2, up, o.1)
    | .exited => none
  | .eintr =>
    match pc with
    | .exited => none
    | _ => some (pc, up, down)

/-- What it has read and not written. -/
def ServerPc.unsent : ServerPc → List Byte
  | .writen rest => rest
  | _ => []

@[simp] theorem unsent_writing (rest : List Byte) : (ServerPc.writing rest).unsent = rest := by
  cases rest with
  | nil => rfl
  | cons b bs => rfl

/-- Everything a step of the server can do. -/
inductive ServerMove (cap : Nat) (pc : ServerPc) (up down : Channel Byte) :
    Io → ServerPc → Channel Byte → Channel Byte → Prop
  | fill (k : Nat) (bytes : List Byte) (up' : Channel Byte) (hpc : pc = .read) (hne : bytes ≠ [])
      (hr : up.read MAXLINE k = some (bytes, up')) :
      ServerMove cap pc up down (.io k) (.writen bytes) up' down
  | hangup (k : Nat) (up' : Channel Byte) (hpc : pc = .read)
      (hr : up.read MAXLINE k = some ([], up')) :
      ServerMove cap pc up down (.io k) .exited up' down.close
  | write (k : Nat) (rest left : List Byte) (down' : Channel Byte) (hpc : pc = .writen rest)
      (hw : down.writeWithin cap rest k = some (down', left)) :
      ServerMove cap pc up down (.io k) (.writing left) up down'
  | interrupted (hpc : pc ≠ .exited) : ServerMove cap pc up down .eintr pc up down

theorem serverMove_of_step {cap : Nat} {pc pc' : ServerPc} {up down up' down' : Channel Byte}
    {a : Io} (h : pc.step cap up down a = some (pc', up', down')) :
    ServerMove cap pc up down a pc' up' down' := by
  cases a with
  | io k =>
    simp only [ServerPc.step] at h
    split at h
    · obtain ⟨⟨bytes, up₁⟩, hr, ho⟩ := Option.map_eq_some_iff.mp h
      cases bytes with
      | nil =>
        cases ho
        exact .hangup k _ rfl hr
      | cons b bs =>
        cases ho
        exact .fill k _ _ rfl (List.cons_ne_nil b bs) hr
    · rename_i rest
      obtain ⟨⟨down₁, left⟩, hw, ho⟩ := Option.map_eq_some_iff.mp h
      cases ho
      exact .write k rest left _ rfl hw
    · cases h
  | eintr =>
    simp only [ServerPc.step] at h
    split at h
    · cases h
    · rename_i hne
      cases h
      exact .interrupted hne

/-- The bytes on their way from the client through the server back to it. -/
def transit (pc : ServerPc) (up down : Channel Byte) : List Byte :=
  down.pending ++ pc.unsent ++ up.pending

/-- The server passes on what it gets, in order. -/
theorem server_transit {cap : Nat} {pc pc' : ServerPc} {up down up' down' : Channel Byte} {a : Io}
    (h : ServerMove cap pc up down a pc' up' down') : transit pc' up' down' = transit pc up down := by
  cases h with
  | fill k bytes _ hpc hne hr =>
    subst hpc
    rcases Channel.read_eq_some hr with ⟨hnil, -⟩ | ⟨-, -, hp, -⟩
    · exact absurd hnil hne
    · rw [transit, transit, ← hp]
      simp [ServerPc.unsent]
  | hangup k _ hpc hr =>
    subst hpc
    rcases Channel.read_eq_some hr with ⟨-, rfl, -⟩ | ⟨hne, -⟩
    · rfl
    · exact absurd rfl hne
  | write k rest left _ hpc hw =>
    subst hpc
    obtain ⟨hp, -⟩ := Channel.write_eq_some (Channel.writeWithin_eq_some hw).2
    rw [transit, transit, unsent_writing, hp]
    rfl
  | interrupted hpc => rfl

/-- The server ends at the end of its input and closes its side then. -/
structure ServerInv (pc : ServerPc) (up down : Channel Byte) : Prop where
  closed : down.closed = true ↔ pc = .exited
  drained : pc = .exited → up.closed = true ∧ up.pending = []
  busy : ∀ rest, pc = .writen rest → rest ≠ []

theorem writing_ne_exited (rest : List Byte) : ServerPc.writing rest ≠ .exited := by
  cases rest with
  | nil => nofun
  | cons b bs => nofun

theorem writing_busy {rest left : List Byte} (h : ServerPc.writing rest = .writen left) : left ≠ [] := by
  cases rest with
  | nil => cases h
  | cons b bs =>
    obtain rfl := ServerPc.writen.inj h
    exact List.cons_ne_nil b bs

theorem ServerInv.step {cap : Nat} {pc pc' : ServerPc} {up down up' down' : Channel Byte} {a : Io}
    (hi : ServerInv pc up down) (h : ServerMove cap pc up down a pc' up' down') :
    ServerInv pc' up' down' ∧ up'.closed = up.closed := by
  cases h with
  | fill k bytes _ hpc hne hr =>
    subst hpc
    rcases Channel.read_eq_some hr with ⟨hnil, -⟩ | ⟨-, -, -, hc, -⟩
    · exact absurd hnil hne
    · refine ⟨⟨?_, nofun, ?_⟩, hc⟩
      · rw [hi.closed]
        exact ⟨nofun, nofun⟩
      · intro rest he
        exact ServerPc.writen.inj he ▸ hne
  | hangup k _ hpc hr =>
    rcases Channel.read_eq_some hr with ⟨-, rfl, hc, hp⟩ | ⟨hne, -⟩
    · exact ⟨⟨⟨fun _ => rfl, fun _ => rfl⟩, fun _ => ⟨hc, hp⟩, nofun⟩, rfl⟩
    · exact absurd rfl hne
  | write k rest left _ hpc hw =>
    subst hpc
    obtain ⟨-, hc, -⟩ := Channel.write_eq_some (Channel.writeWithin_eq_some hw).2
    refine ⟨⟨?_, fun he => absurd he (writing_ne_exited left), fun r he => writing_busy he⟩, rfl⟩
    rw [hc, hi.closed]
    exact ⟨nofun, fun he => absurd he (writing_ne_exited left)⟩
  | interrupted hpc => exact ⟨hi, rfl⟩

/-- The invariant of the server only looks at whether up is closed and drained. -/
theorem ServerInv.of_channels {pc : ServerPc} {up down up' down' : Channel Byte}
    (h : ServerInv pc up down) (hdown : down'.closed = down.closed)
    (hup : up.closed = true → up.pending = [] → up'.closed = true ∧ up'.pending = []) :
    ServerInv pc up' down' where
  closed := by rw [hdown, h.closed]
  drained he := hup (h.drained he).1 (h.drained he).2
  busy := h.busy

/-- What the server writes or the network brings leaves a readable socket readable. -/
theorem readable_server {cap : Nat} {pc pc' : ServerPc} {up down up' down' : Channel Byte} {a : Io}
    (hs : ServerInv pc up down) (h : ServerMove cap pc up down a pc' up' down') (hr : down.Readable) :
    down'.Readable := by
  cases h with
  | fill k bytes _ hpc hne hr' => exact hr
  | hangup k _ hpc hr' =>
    rcases hr with hr | ⟨-, hp⟩
    · exact .inl hr
    · exact .inr ⟨rfl, hp⟩
  | write k rest left _ hpc hw =>
    obtain ⟨-, -, -, ha, -⟩ := Channel.write_eq_some (Channel.writeWithin_eq_some hw).2
    rcases hr with hr | ⟨hc, -⟩
    · exact .inl (ha ▸ hr)
    · rw [hs.closed.mp hc] at hpc
      cases hpc
  | interrupted hpc => exact hr

section Work

def ServerPc.weight : ServerPc → Nat
  | .read => 1
  | .writen rest => 10 * rest.length + 2
  | .exited => 0

/-- What the server and the channels have still to do: a byte counts for every place it
has still to go through. -/
def serverWork (pc : ServerPc) (up down : Channel Byte) : Nat :=
  pc.weight + (4 * down.arrived.length + 6 * down.flight.length) +
    (16 * up.arrived.length + 18 * up.flight.length)

theorem writing_weight_le (rest : List Byte) :
    (ServerPc.writing rest).weight ≤ 10 * rest.length + 2 := by
  cases rest with
  | nil => decide
  | cons b bs => exact Nat.le_refl _

variable {cap k : Nat} {pc pc' : ServerPc} {up down up' down' : Channel Byte}

theorem server_work (h : ServerMove cap pc up down (.io k) pc' up' down') :
    serverWork pc' up' down' < serverWork pc up down := by
  cases h with
  | fill _ bytes _ hpc hne hr =>
    subst hpc
    have hpos := List.length_pos_of_ne_nil hne
    rcases Channel.read_eq_some hr with ⟨hnil, -⟩ | ⟨-, -, -, -, hf, hlen⟩
    · exact absurd hnil hne
    · simp only [serverWork, ServerPc.weight, hf]
      omega
  | hangup _ _ hpc hr =>
    subst hpc
    rcases Channel.read_eq_some hr with ⟨-, rfl, -⟩ | ⟨hne, -⟩
    · simp only [serverWork, ServerPc.weight, Channel.close]
      omega
    · exact absurd rfl hne
  | write _ rest left _ hpc hw =>
    subst hpc
    have hle := writing_weight_le left
    obtain ⟨-, -, hlt, ha, hlen⟩ := Channel.write_eq_some (Channel.writeWithin_eq_some hw).2
    have hrest : (ServerPc.writen rest).weight = 10 * rest.length + 2 := rfl
    simp only [serverWork, hrest, ha]
    omega

theorem deliverUp_work (h : up.deliver k = some up') :
    serverWork pc up' down < serverWork pc up down := by
  obtain ⟨-, -, hlt, hlen⟩ := Channel.deliver_eq_some h
  simp only [serverWork]
  omega

theorem deliverDown_work (h : down.deliver k = some down') :
    serverWork pc up down' < serverWork pc up down := by
  obtain ⟨-, -, hlt, hlen⟩ := Channel.deliver_eq_some h
  simp only [serverWork]
  omega

/-- What the client reads is done with. -/
theorem readDown_work (pc : ServerPc) (up : Channel Byte) {size : Nat} {xs : List Byte}
    (h : down.read size k = some (xs, down')) :
    serverWork pc up down' + 4 * xs.length = serverWork pc up down := by
  rcases Channel.read_eq_some h with ⟨rfl, rfl, -⟩ | ⟨-, -, -, -, hf, hlen⟩
  · rfl
  · simp only [serverWork, hf]
    omega

/-- What the client writes has all of its way before it. -/
theorem writeUp_work (pc : ServerPc) (down : Channel Byte) {xs rest : List Byte}
    (h : up.writeWithin cap xs k = some (up', rest)) :
    serverWork pc up' down + 18 * rest.length = serverWork pc up down + 18 * xs.length ∧
      rest.length < xs.length := by
  obtain ⟨-, -, hlt, ha, hlen⟩ := Channel.write_eq_some (Channel.writeWithin_eq_some h).2
  simp only [serverWork, ha]
  omega

end Work

section Rest

variable {cap : Nat} {pc : ServerPc} {up down : Channel Byte}

/-- A server that cannot go on has ended, waits for bytes, or has no room for its own. -/
theorem server_blocked (hno : ∀ k, pc.step cap up down (.io k) = none)
    (hb : ∀ rest, pc = .writen rest → rest ≠ []) :
    pc = .exited ∨ (pc = .read ∧ ¬up.Readable) ∨
      ∃ rest, pc = .writen rest ∧ rest ≠ [] ∧ cap ≤ down.pending.length := by
  cases pc with
  | exited => exact .inl rfl
  | read =>
    refine .inr (.inl ⟨rfl, fun hr => ?_⟩)
    obtain ⟨k, o, ho⟩ := Channel.readable_enabled (show 0 < MAXLINE by decide) hr
    have hk := hno k
    simp [ServerPc.step, ho] at hk
  | writen rest =>
    refine .inr (.inr ⟨rest, rfl, hb rest rfl, ?_⟩)
    by_contra hroom
    have hw := Channel.writeWithin_enabled (hb rest rfl) (Nat.lt_of_not_le hroom)
    have hk := hno 1
    simp [ServerPc.step, hw] at hk

end Rest

end LinuxPractice.Duplex
