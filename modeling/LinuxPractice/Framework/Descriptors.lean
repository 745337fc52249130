import Mathlib.Data.List.Basic

namespace LinuxPractice.Descriptors

section

variable {κ : Type*}

/-- The descriptor table of a process: what each open descriptor refers to. -/
abbrev Table (κ : Type*) := List (Option κ)

def object (T : Table κ) (fd : Nat) : Option κ := T.getD fd none

/-- The descriptor the next open, socket or accept returns. -/
def lowestUnused : Table κ → Nat
  | [] => 0
  | none :: _ => 0
  | some _ :: T => lowestUnused T + 1

/-- The table after that descriptor is given to x. -/
def install (x : κ) : Table κ → Table κ
  | [] => [some x]
  | none :: T => some x :: T
  | some y :: T => some y :: install x T

/-- close(fd) on an open descriptor. -/
def close (T : Table κ) (fd : Nat) : Table κ := T.set fd none

theorem object_lowestUnused (T : Table κ) : object T (lowestUnused T) = none := by
  induction T with
  | nil => rfl
  | cons y T ih =>
    cases y with
    | none => rfl
    | some y => simpa [object, lowestUnused] using ih

theorem object_install_self (x : κ) (T : Table κ) :
    object (install x T) (lowestUnused T) = some x := by
  induction T with
  | nil => rfl
  | cons y T ih =>
    cases y with
    | none => rfl
    | some y => simpa [object, install, lowestUnused] using ih

theorem object_install_ne (x : κ) (T : Table κ) {fd : Nat} (h : fd ≠ lowestUnused T) :
    object (install x T) fd = object T fd := by
  induction T generalizing fd with
  | nil =>
    cases fd with
    | zero => exact absurd rfl h
    | succ fd => rfl
  | cons y T ih =>
    cases y with
    | none =>
      cases fd with
      | zero => exact absurd rfl h
      | succ fd => rfl
    | some y =>
      cases fd with
      | zero => rfl
      | succ fd =>
        have hne : fd ≠ lowestUnused T := fun he => h (congrArg Nat.succ he)
        simpa [object, install] using ih hne

theorem object_close_self (T : Table κ) (fd : Nat) : object (close T fd) fd = none := by
  by_cases h : fd < T.length <;> simp [object, close, h]

theorem object_close_ne (T : Table κ) {fd d : Nat} (h : d ≠ fd) :
    object (close T fd) d = object T d := by
  simp [object, close, List.getElem?_set_ne (Ne.symm h)]

/-- A closed lowest descriptor is the next one to be given out. -/
theorem lowestUnused_eq_zero {T : Table κ} (h : object T 0 = none) : lowestUnused T = 0 := by
  cases T with
  | nil => rfl
  | cons y T =>
    cases y with
    | none => rfl
    | some y => cases h

theorem object_zero_install (x : κ) (T : Table κ) : ∃ y, object (install x T) 0 = some y := by
  cases h : object T 0 with
  | none => exact ⟨x, lowestUnused_eq_zero h ▸ object_install_self x T⟩
  | some y =>
    have hne : 0 ≠ lowestUnused T := by
      intro he
      rw [he, object_lowestUnused] at h
      cases h
    exact ⟨y, (object_install_ne x T hne).trans h⟩

end

/-- What the descriptors of a server refer to: what it has inherited, the socket it listens
on, and the connections in the order of their acceptance. -/
inductive Object
  | inherited
  | listening
  | connection (i : Nat)
  deriving DecidableEq, Repr

/-- The table of a server that listens, given the descriptors open at its start. -/
def listening (isOpen : List Bool) : Table Object :=
  install .listening (isOpen.map fun b => if b then some .inherited else none)

theorem object_inherited (isOpen : List Bool) (fd : Nat) :
    object (isOpen.map fun b => if b then some Object.inherited else none) fd =
      if isOpen.getD fd false then some .inherited else none := by
  cases hb : isOpen[fd]? with
  | none => simp [object, hb]
  | some b => cases b <;> simp [object, hb]

theorem object_listening_ne (isOpen : List Bool) (fd i : Nat) :
    object (listening isOpen) fd ≠ some (.connection i) := by
  intro h
  unfold listening at h
  by_cases hfd : fd = lowestUnused (isOpen.map fun b => if b then some Object.inherited else none)
  · rw [hfd, object_install_self] at h
    cases h
  · rw [object_install_ne _ _ hfd, object_inherited] at h
    split at h <;> cases h

end LinuxPractice.Descriptors
