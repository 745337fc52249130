import LinuxPractice.Framework.Sequential
import Mathlib.Data.List.Sublists

set_option linter.unusedSectionVars false

namespace LinuxPractice.Fifo

/-- One atomic access of thread t to the i-th of a growing family of queues. -/
inductive Event (τ α : Type*)
  | push (t : τ) (i : Nat) (v : α)
  | pop (t : τ) (i : Nat) (v : α)
  | miss (t : τ) (i : Nat)
  | look (t : τ) (i : Nat) (b : Bool)
  | copy (t : τ) (i : Nat)

section

variable {τ α : Type*}

def queueAt (qs : List (List α)) (i : Nat) : List α := qs.getD i []

theorem set_queueAt_self (qs : List (List α)) (i : Nat) : qs.set i (queueAt qs i) = qs := by
  by_cases hi : i < qs.length
  · simp [queueAt, hi]
  · simp [List.set_eq_of_length_le (Nat.le_of_not_lt hi)]

theorem queueAt_set_ne (qs : List (List α)) (q : List α) {i j : Nat} (h : j ≠ i) :
    queueAt (qs.set i q) j = queueAt qs j := by
  simp [queueAt, List.getElem?_set_ne (Ne.symm h)]

theorem queueAt_set_self {qs : List (List α)} {q : List α} {i : Nat} (h : i < qs.length) :
    queueAt (qs.set i q) i = q := by
  simp [queueAt, h]

theorem queueAt_of_length_le {qs : List (List α)} {i : Nat} (h : qs.length ≤ i) :
    queueAt qs i = [] := by
  simp [queueAt, List.getElem?_eq_none h]

theorem lt_of_queueAt_cons {qs : List (List α)} {i : Nat} {v : α} {q : List α}
    (h : queueAt qs i = v :: q) : i < qs.length := by
  by_contra hi
  simp [queueAt_of_length_le (Nat.le_of_not_lt hi)] at h

theorem queueAt_append_left {qs rs : List (List α)} {i : Nat} (h : i < qs.length) :
    queueAt (qs ++ rs) i = queueAt qs i := by
  simp [queueAt, List.getElem?_append_left h]

theorem queueAt_append_new (qs : List (List α)) (q : List α) :
    queueAt (qs ++ [q]) qs.length = q := by
  simp [queueAt]

/-- The sequential queues. -/
def apply (qs : List (List α)) : Event τ α → List (List α)
  | .push _ i v => qs.set i (queueAt qs i ++ [v])
  | .pop _ i _ => qs.set i (queueAt qs i).tail
  | .miss _ _ | .look _ _ _ => qs
  | .copy _ i => qs ++ [queueAt qs i]

/-- The answers sequential queues give. -/
def Allowed (qs : List (List α)) : Event τ α → Prop
  | .push _ i _ | .copy _ i => i < qs.length
  | .pop _ i v => ∃ q, queueAt qs i = v :: q
  | .miss _ i => i < qs.length ∧ queueAt qs i = []
  | .look _ i b => i < qs.length ∧ b = (queueAt qs i).isEmpty

abbrev replay (qs : List (List α)) (H : List (Event τ α)) : List (List α) :=
  Sequential.replay apply qs H

/-- Every answer of a history is the one sequential queues give at that point. -/
abbrev Legal (qs : List (List α)) (H : List (Event τ α)) : Prop :=
  Sequential.Legal apply Allowed qs H

/-- What the i-th queue held when it came into being. -/
def birth (qs : List (List α)) (i : Nat) : List (Event τ α) → List α
  | [] => queueAt qs i
  | e :: H => if i < qs.length then queueAt qs i else birth (apply qs e) i H

def pushes (i : Nat) (H : List (Event τ α)) : List (τ × α) :=
  H.filterMap fun
    | .push t j v => if j = i then some (t, v) else none
    | _ => none

def pops (i : Nat) (H : List (Event τ α)) : List (τ × α) :=
  H.filterMap fun
    | .pop t j v => if j = i then some (t, v) else none
    | _ => none

theorem length_apply_le (qs : List (List α)) (e : Event τ α) :
    qs.length ≤ (apply qs e).length := by
  cases e <;> simp [apply]

theorem length_replay_le (qs : List (List α)) (H : List (Event τ α)) :
    qs.length ≤ (replay qs H).length := by
  induction H generalizing qs with
  | nil => exact le_refl _
  | cons e H ih => exact (length_apply_le qs e).trans (ih (apply qs e))

theorem birth_of_lt {qs : List (List α)} {i : Nat} (h : i < qs.length) (H : List (Event τ α)) :
    birth qs i H = queueAt qs i := by
  cases H with
  | nil => rfl
  | cons e H => simp [birth, h]

/-- A queue made by copying starts with what its source held at that moment. -/
theorem birth_copy (qs : List (List α)) (H₁ H₂ : List (Event τ α)) (t : τ) (i : Nat) :
    birth qs (replay qs H₁).length (H₁ ++ .copy t i :: H₂) = queueAt (replay qs H₁) i := by
  induction H₁ generalizing qs with
  | nil =>
    have hlt : qs.length < (apply qs (.copy t i : Event τ α)).length := by simp [apply]
    simp only [Sequential.replay, List.foldl_nil, List.nil_append, birth, lt_irrefl, if_false]
    rw [birth_of_lt hlt]
    exact queueAt_append_new qs _
  | cons e H₁ ih =>
    have hle : ¬(replay qs (e :: H₁)).length < qs.length :=
      Nat.not_lt.mpr (length_replay_le qs (e :: H₁))
    simp only [List.cons_append, birth, hle, if_false]
    exact ih (apply qs e)

theorem queueAt_apply_ne {qs : List (List α)} {e : Event τ α} {i : Nat} (hi : i < qs.length)
    (hpush : ∀ t v, e ≠ .push t i v) (hpop : ∀ t v, e ≠ .pop t i v) :
    queueAt (apply qs e) i = queueAt qs i := by
  cases e with
  | push t j v =>
    have hne : i ≠ j := by
      rintro rfl
      exact hpush t v rfl
    exact queueAt_set_ne qs _ hne
  | pop t j v =>
    have hne : i ≠ j := by
      rintro rfl
      exact hpop t v rfl
    exact queueAt_set_ne qs _ hne
  | miss t j => rfl
  | look t j b => rfl
  | copy t j => exact queueAt_append_left hi

/-- First in, first out over the rest of a legal history of an existing queue. -/
theorem fifo_of_lt {qs : List (List α)} {H : List (Event τ α)} (hl : Legal qs H) {i : Nat}
    (hi : i < qs.length) :
    queueAt qs i ++ (pushes i H).map Prod.snd =
      (pops i H).map Prod.snd ++ queueAt (replay qs H) i := by
  induction H generalizing qs with
  | nil => simp [pushes, pops, Sequential.replay]
  | cons e H ih =>
    have hrest := ih hl.2 (hi.trans_le (length_apply_le qs e))
    have hrep : replay qs (e :: H) = replay (apply qs e) H := rfl
    rw [hrep]
    by_cases hpush : ∃ t v, e = .push t i v
    · obtain ⟨t, v, rfl⟩ := hpush
      rw [apply, queueAt_set_self hi] at hrest
      simpa [pushes, pops, apply] using hrest
    · by_cases hpop : ∃ t v, e = .pop t i v
      · obtain ⟨t, v, rfl⟩ := hpop
        obtain ⟨q, hq⟩ := hl.1
        rw [apply, queueAt_set_self hi, hq] at hrest
        rw [hq]
        simpa [pushes, pops, apply, hq] using hrest
      · simp only [not_exists] at hpush hpop
        rw [queueAt_apply_ne hi hpush hpop] at hrest
        have hskip : pushes i (e :: H) = pushes i H ∧ pops i (e :: H) = pops i H := by
          cases e with
          | push t j v =>
            have hne : j ≠ i := fun h => hpush t v (by rw [h])
            simp [pushes, pops, hne]
          | pop t j v =>
            have hne : j ≠ i := fun h => hpop t v (by rw [h])
            simp [pushes, pops, hne]
          | _ => simp [pushes, pops]
        rw [hskip.1, hskip.2]
        exact hrest

/-- An event of a legal history concerns a queue that exists by then. -/
theorem pushes_pops_cons_of_le {qs : List (List α)} {e : Event τ α} {i : Nat}
    (ha : Allowed qs e) (hi : qs.length ≤ i) (H : List (Event τ α)) :
    pushes i (e :: H) = pushes i H ∧ pops i (e :: H) = pops i H := by
  cases e with
  | push t j v =>
    have hne : j ≠ i := Nat.ne_of_lt (ha.trans_le hi)
    simp [pushes, pops, hne]
  | pop t j v =>
    obtain ⟨q, hq⟩ := ha
    have hne : j ≠ i := Nat.ne_of_lt ((lt_of_queueAt_cons hq).trans_le hi)
    simp [pushes, pops, hne]
  | _ => simp [pushes, pops]

/-- First in, first out over the whole life of every queue. -/
theorem fifo {qs : List (List α)} {H : List (Event τ α)} (hl : Legal qs H) {i : Nat}
    (hi : i < (replay qs H).length) :
    birth qs i H ++ (pushes i H).map Prod.snd =
      (pops i H).map Prod.snd ++ queueAt (replay qs H) i := by
  induction H generalizing qs with
  | nil => simp [pushes, pops, Sequential.replay, birth]
  | cons e H ih =>
    by_cases hlt : i < qs.length
    · rw [birth_of_lt hlt]
      exact fifo_of_lt hl hlt
    · obtain ⟨hp, ho⟩ := pushes_pops_cons_of_le hl.1 (Nat.le_of_not_lt hlt) H
      simp only [birth, hlt, if_false, hp, ho]
      exact ih hl.2 hi

variable [DecidableEq τ]

/-- Everything that entered the i-th queue, in order, with the thread that pushed it;
what the queue was born with has none. -/
def entries (qs : List (List α)) (i : Nat) (H : List (Event τ α)) : List (Option τ × α) :=
  (birth qs i H).map (fun v => (none, v)) ++ (pushes i H).map (fun p => (some p.1, p.2))

def pushedBy (p : τ) (i : Nat) (H : List (Event τ α)) : List α :=
  (pushes i H).filterMap fun e => if e.1 = p then some e.2 else none

/-- What thread r received of the values thread p pushed, in the order it received
them: the k-th pop takes the k-th entry. -/
def received (qs : List (List α)) (r p : τ) (i : Nat) (H : List (Event τ α)) : List α :=
  ((entries qs i H).zip (pops i H)).filterMap fun
    | (e, o) => if e.1 = some p ∧ o.1 = r then some o.2 else none

theorem zip_filterMap_sublist (p r : τ) (E : List (Option τ × α)) (R : List (τ × α))
    (rest : List α) (h : E.map Prod.snd = R.map Prod.snd ++ rest) :
    ((E.zip R).filterMap fun
      | (e, o) => if e.1 = some p ∧ o.1 = r then some o.2 else none).Sublist
      (E.filterMap fun e => if e.1 = some p then some e.2 else none) := by
  induction E generalizing R with
  | nil => simp
  | cons e E ih =>
    cases R with
    | nil => simp
    | cons o R =>
      simp only [List.map_cons, List.cons_append, List.cons.injEq] at h
      obtain ⟨hv, ht⟩ := h
      have hrec := ih R ht
      by_cases hp : e.1 = some p <;> by_cases hr : o.1 = r
      · simpa [hp, hr, hv] using hrec
      · simpa [hp, hr] using hrec.cons e.2
      · simpa [hp, hr] using hrec
      · simpa [hp, hr] using hrec

theorem entries_pushedBy (qs : List (List α)) (p : τ) (i : Nat) (H : List (Event τ α)) :
    (entries qs i H).filterMap (fun e => if e.1 = some p then some e.2 else none) =
      pushedBy p i H := by
  have hborn : ((birth qs i H).map (fun v => ((none : Option τ), v))).filterMap
      (fun e => if e.1 = some p then some e.2 else none) = [] := by
    simp
  rw [entries, List.filterMap_append, hborn, List.nil_append, List.filterMap_map, pushedBy]
  congr 1
  funext e
  simp

/-- A consumer receives a producer's values in the order they were pushed. -/
theorem received_sublist {qs : List (List α)} {H : List (Event τ α)} (hl : Legal qs H) {i : Nat}
    (hi : i < (replay qs H).length) (r p : τ) :
    (received qs r p i H).Sublist (pushedBy p i H) := by
  have hf := fifo hl hi
  have hs := zip_filterMap_sublist p r (entries qs i H) (pops i H) (queueAt (replay qs H) i)
    (by simpa [entries, Function.comp_def] using hf)
  rw [entries_pushedBy] at hs
  exact hs

end

end LinuxPractice.Fifo
