import Mathlib.Data.List.Induction
import Mathlib.Logic.Function.Basic

namespace LinuxPractice

section

-- A schedule names its threads by numerals; these are the proofs such a numeral carries.

instance (priority := high) neZeroOne : @NeZero Nat Zero.ofOfNat0 1 := ⟨by decide⟩

instance (priority := high) neZeroTwo : @NeZero Nat Zero.ofOfNat0 2 := ⟨by decide⟩

instance (priority := high) neZeroThree : @NeZero Nat Zero.ofOfNat0 3 := ⟨by decide⟩

instance (priority := high) neZeroFour : @NeZero Nat Zero.ofOfNat0 4 := ⟨by decide⟩

end

/-- A deterministic machine over labelled steps. Every choice of a scheduler or
of the environment is part of the label; a refused label gives none. -/
structure Machine (σ ℓ : Type*) where
  init : σ
  step : σ → ℓ → Option σ

namespace Machine

variable {σ ℓ ε γ κ : Type*}

/-- Execute a whole schedule, or fail at its first refused label. -/
def run (M : Machine σ ℓ) : σ → List ℓ → Option σ
  | s, [] => some s
  | s, l :: tr => (M.step s l).bind fun s' => run M s' tr

def Reachable (M : Machine σ ℓ) (s : σ) : Prop := ∃ tr, M.run M.init tr = some s

/-- The events of a run, read off the state in which each label is taken. -/
def log (M : Machine σ ℓ) (ev : σ → ℓ → Option ε) : σ → List ℓ → List ε
  | _, [] => []
  | s, l :: tr =>
    match M.step s l with
    | none => []
    | some s' => (ev s l).toList ++ log M ev s' tr

theorem run_append (M : Machine σ ℓ) (s : σ) (tr tr' : List ℓ) :
    M.run s (tr ++ tr') = (M.run s tr).bind fun s' => M.run s' tr' := by
  induction tr generalizing s with
  | nil => rfl
  | cons l tr ih =>
    simp only [List.cons_append, run]
    cases M.step s l with
    | none => rfl
    | some s' => exact ih s'

theorem run_append_of (M : Machine σ ℓ) {s s' s'' : σ} {tr tr' : List ℓ}
    (hr : M.run s tr = some s') (hr' : M.run s' tr' = some s'') :
    M.run s (tr ++ tr') = some s'' := by
  rw [run_append, hr, Option.bind_some]
  exact hr'

theorem run_snoc (M : Machine σ ℓ) (s : σ) (tr : List ℓ) (l : ℓ) :
    M.run s (tr ++ [l]) = (M.run s tr).bind fun s' => M.step s' l := by
  rw [run_append]
  cases M.run s tr with
  | none => rfl
  | some s' => simp [run]

theorem run_snoc_of (M : Machine σ ℓ) {s s' s'' : σ} {tr : List ℓ} {l : ℓ}
    (hr : M.run s tr = some s') (hs : M.step s' l = some s'') :
    M.run s (tr ++ [l]) = some s'' := by
  rw [run_snoc, hr]
  exact hs

theorem log_snoc (M : Machine σ ℓ) (ev : σ → ℓ → Option ε) {s s' s'' : σ}
    {tr : List ℓ} {l : ℓ} (hr : M.run s tr = some s') (hs : M.step s' l = some s'') :
    M.log ev s (tr ++ [l]) = M.log ev s tr ++ (ev s' l).toList := by
  induction tr generalizing s with
  | nil =>
    have he : s = s' := by simpa [run] using hr
    subst he
    simp [log, hs]
  | cons k tr ih =>
    simp only [run, Option.bind_eq_some_iff] at hr
    obtain ⟨u, hk, hu⟩ := hr
    simp [log, hk, ih hu]

/-- The run rule: what the empty run has and every further step keeps. -/
theorem run_induction (M : Machine σ ℓ) {s₀ : σ} {P : List ℓ → σ → Prop} (base : P [] s₀)
    (next : ∀ tr s l s', M.run s₀ tr = some s → P tr s → M.step s l = some s' →
      P (tr ++ [l]) s') {tr : List ℓ} {s : σ} (hr : M.run s₀ tr = some s) : P tr s := by
  induction tr using List.reverseRecOn generalizing s with
  | nil =>
    have he : s₀ = s := by simpa [run] using hr
    exact he ▸ base
  | append_singleton tr l ih =>
    rw [run_snoc, Option.bind_eq_some_iff] at hr
    obtain ⟨u, hu, hs⟩ := hr
    exact next tr u l s hu (ih hu) hs

/-- The invariant rule over reachable states. -/
theorem Reachable.invariant {M : Machine σ ℓ} {P : σ → Prop} (base : P M.init)
    (next : ∀ s l s', P s → M.step s l = some s' → P s') {s : σ} (h : M.Reachable s) : P s := by
  obtain ⟨tr, hr⟩ := h
  exact M.run_induction (P := fun _ s => P s) base
    (fun _ s l s' _ hp hs => next s l s' hp hs) hr

theorem Reachable.start (M : Machine σ ℓ) : M.Reachable M.init := ⟨[], rfl⟩

theorem Reachable.next {M : Machine σ ℓ} {s s' : σ} {l : ℓ} (h : M.Reachable s)
    (hs : M.step s l = some s') : M.Reachable s' := by
  obtain ⟨tr, hr⟩ := h
  exact ⟨tr ++ [l], M.run_snoc_of hr hs⟩

theorem Reachable.run {M : Machine σ ℓ} {s s' : σ} {tr : List ℓ} (h : M.Reachable s)
    (hr : M.run s tr = some s') : M.Reachable s' := by
  obtain ⟨pre, hp⟩ := h
  exact ⟨pre ++ tr, M.run_append_of hp hr⟩

/-- The state at the end of a schedule that executes. -/
theorem Reachable.of_isSome (M : Machine σ ℓ) (tr : List ℓ)
    (h : (M.run M.init tr).isSome = true) : M.Reachable ((M.run M.init tr).get h) :=
  ⟨tr, (Option.some_get h).symm⟩

/-- P holds in every state a schedule passes through. -/
def Always (M : Machine σ ℓ) (P : σ → Prop) (s : σ) (tr : List ℓ) : Prop :=
  ∀ pre u, pre <+: tr → M.run s pre = some u → P u

/-- Every label of a schedule is acceptable in the state that takes it. -/
def Obeys (M : Machine σ ℓ) (ok : σ → ℓ → Bool) (s : σ) (tr : List ℓ) : Prop :=
  ∀ pre l u, pre ++ [l] <+: tr → M.run s pre = some u → ok u l = true

theorem Obeys.initial {M : Machine σ ℓ} {ok : σ → ℓ → Bool} {s : σ} {tr pre : List ℓ}
    (h : M.Obeys ok s tr) (hp : pre <+: tr) : M.Obeys ok s pre :=
  fun _ _ _ hq hr => h _ _ _ (hq.trans hp) hr

theorem Always.initial {M : Machine σ ℓ} {P : σ → Prop} {s : σ} {tr pre : List ℓ}
    (h : M.Always P s tr) (hp : pre <+: tr) : M.Always P s pre :=
  fun _ _ hq hr => h _ _ (hq.trans hp) hr

theorem obeys_snoc {M : Machine σ ℓ} {ok : σ → ℓ → Bool} {s u : σ} {tr : List ℓ} {l : ℓ}
    (hr : M.run s tr = some u) :
    M.Obeys ok s (tr ++ [l]) ↔ M.Obeys ok s tr ∧ ok u l = true := by
  constructor
  · intro h
    exact ⟨h.initial (List.prefix_append _ _), h tr l u (List.prefix_refl _) hr⟩
  · rintro ⟨h, hl⟩ pre k v hp hv
    rcases List.prefix_concat_iff.mp hp with he | hp
    · obtain ⟨rfl, rfl⟩ := List.append_singleton_inj.mp he
      have huv : u = v := Option.some.inj (hr.symm.trans hv)
      exact huv ▸ hl
    · exact h pre k v hp hv

theorem obeys_cons {M : Machine σ ℓ} {ok : σ → ℓ → Bool} {s : σ} {l : ℓ} {tr : List ℓ} :
    M.Obeys ok s (l :: tr) ↔ ok s l = true ∧ ∀ u, M.step s l = some u → M.Obeys ok u tr := by
  constructor
  · intro h
    refine ⟨h [] l s ⟨tr, rfl⟩ rfl, fun u hu pre k v hp hv => ?_⟩
    refine h (l :: pre) k v (by simpa using hp) ?_
    simp only [run, hu]
    exact hv
  · rintro ⟨hl, h⟩ pre k v hp hv
    cases pre with
    | nil =>
      have hk : k = l := by simpa using hp
      have hsv : s = v := by simpa [run] using hv
      exact hk ▸ hsv ▸ hl
    | cons l' pre =>
      obtain ⟨rfl, hq⟩ := List.cons_prefix_cons.mp hp
      simp only [run, Option.bind_eq_some_iff] at hv
      obtain ⟨u, hu, hv⟩ := hv
      exact h u hu pre k v hq hv

theorem always_nil {M : Machine σ ℓ} {P : σ → Prop} {s : σ} : M.Always P s [] ↔ P s := by
  constructor
  · intro h
    exact h [] s List.nil_prefix rfl
  · intro h pre u hp hr
    rw [List.prefix_nil.mp hp] at hr
    exact Option.some.inj hr ▸ h

theorem always_cons {M : Machine σ ℓ} {P : σ → Prop} {s : σ} {l : ℓ} {tr : List ℓ} :
    M.Always P s (l :: tr) ↔ P s ∧ ∀ u ∈ M.step s l, M.Always P u tr := by
  constructor
  · intro h
    refine ⟨h [] s List.nil_prefix rfl, fun u hu pre v hp hv => ?_⟩
    refine h (l :: pre) v (List.cons_prefix_cons.mpr ⟨rfl, hp⟩) ?_
    simp only [run, Option.mem_def.mp hu]
    exact hv
  · intro h pre v hp hv
    cases pre with
    | nil => exact Option.some.inj hv ▸ h.1
    | cons k pre =>
      obtain ⟨rfl, hq⟩ := List.cons_prefix_cons.mp hp
      simp only [run, Option.bind_eq_some_iff] at hv
      obtain ⟨u, hu, hv⟩ := hv
      exact h.2 u hu pre v hq hv

instance decidableAlways {M : Machine σ ℓ} {P : σ → Prop} [DecidablePred P] :
    (s : σ) → (tr : List ℓ) → Decidable (M.Always P s tr)
  | _, [] => decidable_of_iff _ always_nil.symm
  | s, l :: tr =>
    have : DecidablePred fun u => M.Always P u tr := fun u => decidableAlways u tr
    decidable_of_iff (P s ∧ ∀ u ∈ M.step s l, M.Always P u tr) always_cons.symm

/-- R relates the states before and after every step of a schedule. -/
def Each (M : Machine σ ℓ) (R : σ → ℓ → σ → Prop) (s : σ) (tr : List ℓ) : Prop :=
  ∀ pre l u v, pre ++ [l] <+: tr → M.run s pre = some u → M.step u l = some v → R u l v

theorem each_nil (M : Machine σ ℓ) (R : σ → ℓ → σ → Prop) (s : σ) : M.Each R s [] := by
  intro pre l u v hp
  simp at hp

theorem each_snoc {M : Machine σ ℓ} {R : σ → ℓ → σ → Prop} {s u v : σ} {tr : List ℓ} {l : ℓ}
    (hr : M.run s tr = some u) (hs : M.step u l = some v) (h : M.Each R s tr)
    (hl : R u l v) : M.Each R s (tr ++ [l]) := by
  intro pre k w x hp hw hx
  rcases List.prefix_concat_iff.mp hp with he | hp
  · obtain ⟨rfl, rfl⟩ := List.append_singleton_inj.mp he
    obtain rfl : u = w := Option.some.inj (hr.symm.trans hw)
    obtain rfl : v = x := Option.some.inj (hs.symm.trans hx)
    exact hl
  · exact h pre k w x hp hw hx

/-- Run a schedule and test its labels on the way. -/
def check (M : Machine σ ℓ) (ok : σ → ℓ → Bool) : σ → List ℓ → Bool
  | _, [] => true
  | s, l :: tr => ok s l && (M.step s l).all fun u => check M ok u tr

theorem obeys_iff_check {M : Machine σ ℓ} {ok : σ → ℓ → Bool} {s : σ} {tr : List ℓ} :
    M.Obeys ok s tr ↔ M.check ok s tr = true := by
  induction tr generalizing s with
  | nil => simp [Obeys, check]
  | cons l tr ih =>
    rw [obeys_cons, check, Bool.and_eq_true]
    apply and_congr_right
    intro _
    cases M.step s l with
    | none => simp
    | some u => simp [ih]

instance {M : Machine σ ℓ} {ok : σ → ℓ → Bool} {s : σ} {tr : List ℓ} :
    Decidable (M.Obeys ok s tr) := decidable_of_iff _ obeys_iff_check.symm

/-- What steps that obey a discipline keep holds at the end of an obeying run. -/
theorem Obeys.invariant {M : Machine σ ℓ} {ok : σ → ℓ → Bool} {P : σ → Prop} {s₀ s : σ}
    {tr : List ℓ} (base : P s₀)
    (next : ∀ s l s', P s → ok s l = true → M.step s l = some s' → P s')
    (hr : M.run s₀ tr = some s) (ho : M.Obeys ok s₀ tr) : P s := by
  refine M.run_induction (P := fun tr s => M.Obeys ok s₀ tr → P s) (fun _ => base) ?_ hr ho
  intro tr u l v hu ih hs hl
  obtain ⟨hl, hok⟩ := (obeys_snoc hu).mp hl
  exact next u l v (ih hl) hok hs

/-- The same machine with the labels a discipline forbids taken out. -/
def restrict (M : Machine σ ℓ) (ok : σ → ℓ → Bool) : Machine σ ℓ where
  init := M.init
  step s l := if ok s l then M.step s l else none

theorem restrict_step {M : Machine σ ℓ} {ok : σ → ℓ → Bool} {s s' : σ} {l : ℓ} :
    (M.restrict ok).step s l = some s' ↔ ok s l = true ∧ M.step s l = some s' := by
  simp [restrict]

/-- The runs of a restricted machine are the obeying runs of the machine. -/
theorem restrict_run {M : Machine σ ℓ} {ok : σ → ℓ → Bool} {s u : σ} {tr : List ℓ} :
    (M.restrict ok).run s tr = some u ↔ M.run s tr = some u ∧ M.Obeys ok s tr := by
  induction tr generalizing s with
  | nil => simp [run, Obeys]
  | cons l tr ih =>
    simp only [run, Option.bind_eq_some_iff, restrict_step, ih, obeys_cons]
    constructor
    · rintro ⟨v, ⟨hl, hv⟩, hr, ho⟩
      refine ⟨⟨v, hv, hr⟩, hl, fun w hw => ?_⟩
      have he : v = w := Option.some.inj (hv.symm.trans hw)
      exact he ▸ ho
    · rintro ⟨⟨v, hv, hr⟩, hl, ho⟩
      exact ⟨v, ⟨hl, hv⟩, hr, ho v hv⟩

/-- A client with states of its own drives the machine: each of its choices is a step
of its own or comes with the label it makes the machine take. -/
def drive (M : Machine σ ℓ) (c₀ : γ) (offer : σ → γ → κ → Option (Option ℓ × γ)) :
    Machine (σ × γ) κ where
  init := (M.init, c₀)
  step s k := (offer s.1 s.2 k).bind fun o =>
    match o.1 with
    | none => some (s.1, o.2)
    | some l => (M.step s.1 l).map fun u => (u, o.2)

/-- The events of the machine under a client. -/
def driven (ev : σ → ℓ → Option ε) (offer : σ → γ → κ → Option (Option ℓ × γ))
    (s : σ × γ) (k : κ) : Option ε :=
  (offer s.1 s.2 k).bind fun o => o.1.bind (ev s.1)

theorem drive_step {M : Machine σ ℓ} {c₀ : γ} {offer : σ → γ → κ → Option (Option ℓ × γ)}
    {s s' : σ × γ} {k : κ} :
    (M.drive c₀ offer).step s k = some s' ↔
      (offer s.1 s.2 k = some (none, s'.2) ∧ s'.1 = s.1) ∨
      ∃ l, offer s.1 s.2 k = some (some l, s'.2) ∧ M.step s.1 l = some s'.1 := by
  obtain ⟨u, d⟩ := s'
  simp only [drive, Option.bind_eq_some_iff]
  constructor
  · rintro ⟨⟨l, e⟩, ho, hs⟩
    cases l with
    | none =>
      obtain ⟨rfl, rfl⟩ := Prod.mk.inj (Option.some.inj hs)
      exact .inl ⟨ho, rfl⟩
    | some l =>
      obtain ⟨v, hv, he⟩ := Option.map_eq_some_iff.mp hs
      obtain ⟨rfl, rfl⟩ := Prod.mk.inj he
      exact .inr ⟨l, ho, hv⟩
  · rintro (⟨ho, rfl⟩ | ⟨l, ho, hs⟩)
    · exact ⟨_, ho, rfl⟩
    · exact ⟨_, ho, by simp [hs]⟩

/-- A run under a client is a run of the machine with the same events, all of its
labels being ones the client offers. -/
theorem drive_run {M : Machine σ ℓ} {c₀ : γ} {offer : σ → γ → κ → Option (Option ℓ × γ)}
    (ev : σ → ℓ → Option ε) {ok : σ → ℓ → Bool}
    (hok : ∀ s c k l c', offer s c k = some (some l, c') → ok s l = true)
    {ks : List κ} {s : σ × γ} (hr : (M.drive c₀ offer).run (M.init, c₀) ks = some s) :
    ∃ tr, M.run M.init tr = some s.1 ∧ M.Obeys ok M.init tr ∧
      M.log ev M.init tr = (M.drive c₀ offer).log (driven ev offer) (M.init, c₀) ks := by
  refine (M.drive c₀ offer).run_induction (P := fun ks s =>
    ∃ tr, M.run M.init tr = some s.1 ∧ M.Obeys ok M.init tr ∧
      M.log ev M.init tr = (M.drive c₀ offer).log (driven ev offer) (M.init, c₀) ks) ?_ ?_ hr
  · exact ⟨[], rfl, by simp [Obeys], rfl⟩
  · rintro ks s k s' hu ⟨tr, htr, hob, hlog⟩ hs
    rw [log_snoc _ _ hu hs, ← hlog]
    rcases drive_step.mp hs with ⟨ho, he⟩ | ⟨l, ho, hl⟩
    · refine ⟨tr, he ▸ htr, hob, ?_⟩
      simp [driven, ho]
    · refine ⟨tr ++ [l], M.run_snoc_of htr hl, (obeys_snoc htr).mpr ⟨hob, hok _ _ _ _ _ ho⟩, ?_⟩
      rw [log_snoc M ev htr hl]
      simp [driven, ho]

/-- The same with no discipline on the labels. -/
theorem drive_run_log {M : Machine σ ℓ} {c₀ : γ} {offer : σ → γ → κ → Option (Option ℓ × γ)}
    (ev : σ → ℓ → Option ε) {ks : List κ} {s : σ × γ}
    (hr : (M.drive c₀ offer).run (M.init, c₀) ks = some s) :
    ∃ tr, M.run M.init tr = some s.1 ∧
      M.log ev M.init tr = (M.drive c₀ offer).log (driven ev offer) (M.init, c₀) ks := by
  have hany : ∀ s c k l c', offer s c k = some (some l, c') →
      (fun _ _ => true : σ → ℓ → Bool) s l = true := fun _ _ _ _ _ _ => rfl
  obtain ⟨tr, htr, -, hlog⟩ := drive_run ev hany hr
  exact ⟨tr, htr, hlog⟩

end Machine

end LinuxPractice
