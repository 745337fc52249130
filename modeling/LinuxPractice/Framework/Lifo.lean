import LinuxPractice.Framework.Sequential
import Mathlib.Data.Multiset.AddSub

namespace LinuxPractice.Lifo

/-- One atomic access of thread t to a stack. -/
inductive Event (τ α : Type*)
  | push (t : τ) (v : α)
  | pop (t : τ) (v : α)
  deriving DecidableEq

section

variable {τ α : Type*}

/-- The sequential stack, its top at the end. -/
def apply (st : List α) : Event τ α → List α
  | .push _ v => st ++ [v]
  | .pop _ _ => st.dropLast

/-- A pop answers with the top. -/
def Allowed (st : List α) : Event τ α → Prop
  | .push _ _ => True
  | .pop _ v => st.getLast? = some v

abbrev replay (st : List α) (H : List (Event τ α)) : List α := Sequential.replay apply st H

abbrev Legal (st : List α) (H : List (Event τ α)) : Prop := Sequential.Legal apply Allowed st H

/-- The values pushed in a history. -/
def pushed (H : List (Event τ α)) : List α :=
  H.filterMap fun
    | .push _ v => some v
    | .pop _ _ => none

/-- The values popped in a history. -/
def popped (H : List (Event τ α)) : List α :=
  H.filterMap fun
    | .push _ _ => none
    | .pop _ v => some v

/-- Histories in which every push is closed by a later pop of its value, with nothing
but closed pairs in between. -/
inductive Balanced : List (Event τ α) → Prop
  | nil : Balanced []
  | pair (t u : τ) (v : α) {B C : List (Event τ α)} (hB : Balanced B) (hC : Balanced C) :
      Balanced (.push t v :: B ++ .pop u v :: C)

/-- Histories whose pops all close a push; st lists what is left open, oldest first. -/
inductive Nested : List (Event τ α) → List α → Prop
  | closed {B : List (Event τ α)} (hB : Balanced B) : Nested B []
  | opened (t : τ) (v : α) {G B : List (Event τ α)} {st : List α} (hG : Nested G st)
      (hB : Balanced B) : Nested (G ++ .push t v :: B) (st ++ [v])

theorem Balanced.append {B C : List (Event τ α)} (hB : Balanced B) (hC : Balanced C) :
    Balanced (B ++ C) := by
  induction hB with
  | nil => exact hC
  | pair t u v hB _ _ ih =>
    have h := Balanced.pair t u v hB ih
    simpa using h

theorem Nested.append {G B : List (Event τ α)} {st : List α} (hG : Nested G st)
    (hB : Balanced B) : Nested (G ++ B) st := by
  cases hG with
  | closed hC => exact .closed (hC.append hB)
  | opened t v hG hC =>
    have h := Nested.opened t v hG (hC.append hB)
    simpa using h

/-- The last open push is where a pop finds its value. -/
theorem Nested.last {G : List (Event τ α)} {st : List α} (hG : Nested G st) {v : α}
    (hv : st.getLast? = some v) :
    ∃ G' t B, G = G' ++ .push t v :: B ∧ Balanced B ∧ Nested G' st.dropLast := by
  cases hG with
  | closed hB => simp at hv
  | opened t w hG hB =>
    have hw : w = v := by simpa using hv
    subst hw
    exact ⟨_, t, _, rfl, hB, by simpa using hG⟩

/-- A legal history of a stack that starts empty pairs its events like brackets, and
the stack holds the values of the open pushes. -/
theorem nested_of_legal {H : List (Event τ α)} (hl : Legal [] H) : Nested H (replay [] H) := by
  induction H using List.reverseRecOn with
  | nil => exact .closed .nil
  | append_singleton H e ih =>
    obtain ⟨hl, ha⟩ := Sequential.legal_snoc.mp hl
    have hH := ih hl
    have hrep : replay [] (H ++ [e]) = apply (replay [] H) e := Sequential.replay_snoc _ _ _ _
    rw [hrep]
    cases e with
    | push t v => exact .opened t v hH .nil
    | pop u v =>
      obtain ⟨G, t, B, hsplit, hB, hG⟩ := hH.last ha
      have h := hG.append (Balanced.pair t u v hB .nil)
      rw [hsplit] at h ⊢
      simpa [apply] using h

/-- Every pop of a legal history takes the value of the latest push not yet popped:
all that was pushed after it has been popped again. -/
theorem push_of_pop {G R : List (Event τ α)} {u : τ} {v : α}
    (hl : Legal [] (G ++ .pop u v :: R)) :
    ∃ G' t B, G = G' ++ .push t v :: B ∧ Balanced B := by
  have hpre : Legal [] (G ++ [.pop u v]) := by
    have hsplit : G ++ .pop u v :: R = (G ++ [.pop u v]) ++ R := by simp
    rw [hsplit] at hl
    exact Sequential.legal_of_append hl
  obtain ⟨hG, ha⟩ := Sequential.legal_snoc.mp hpre
  obtain ⟨G', t, B, hsplit, hB, -⟩ := (nested_of_legal hG).last ha
  exact ⟨G', t, B, hsplit, hB⟩

/-- Nothing is lost and nothing is made up. -/
theorem conserved {H : List (Event τ α)} (hl : Legal [] H) :
    (pushed H : Multiset α) = popped H + replay [] H := by
  induction H using List.reverseRecOn with
  | nil => simp [pushed, popped, Sequential.replay]
  | append_singleton H e ih =>
    obtain ⟨hl, ha⟩ := Sequential.legal_snoc.mp hl
    have hH := ih hl
    have hrep : replay [] (H ++ [e]) = apply (replay [] H) e := Sequential.replay_snoc _ _ _ _
    rw [hrep]
    cases e with
    | push t v =>
      have hp : pushed (H ++ [.push t v]) = pushed H ++ [v] := by simp [pushed]
      have ho : popped (H ++ [.push t v]) = popped H := by simp [popped]
      rw [hp, ho, apply, ← Multiset.coe_add, ← Multiset.coe_add, hH, Multiset.add_assoc]
    | pop u v =>
      have hp : pushed (H ++ [.pop u v]) = pushed H := by simp [pushed]
      have ho : popped (H ++ [.pop u v]) = popped H ++ [v] := by simp [popped]
      have hst : (replay [] H).dropLast ++ [v] = replay [] H :=
        List.dropLast_append_getLast? v ha
      have hold : (replay [] H : Multiset α) = (replay [] H).dropLast + ([v] : List α) := by
        rw [Multiset.coe_add, hst]
      rw [hp, ho, apply, hH, hold, ← Multiset.coe_add, Multiset.add_assoc,
        Multiset.add_comm (([v] : List α) : Multiset α)]

end

end LinuxPractice.Lifo
