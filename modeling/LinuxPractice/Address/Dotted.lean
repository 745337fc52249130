import Mathlib.Tactic.IntervalCases
import LinuxPractice.Address.Model

namespace LinuxPractice.Address

open Echo (Byte nul)
open Decimal (IsDigit parseNat)

theorem digits_eq : digits = [48, 49, 50, 51, 52, 53, 54, 55, 56, 57] := by decide

theorem strchr_eq_some {s : List Byte} {ch : Byte} {d : Nat} (h : strchr s ch = some d) :
    s[d]? = some ch := by
  obtain ⟨hd, hch, -⟩ := List.findIdx?_eq_some_iff_getElem.mp h
  rw [List.getElem?_eq_getElem hd, eq_of_beq hch]

/-- strchr in digits tells the digits and their values. -/
theorem strchr_digits {ch : Byte} {d : Nat} :
    strchr digits ch = some d ↔ IsDigit ch ∧ d = ch.toNat - 48 := by
  constructor
  · intro h
    have hd := strchr_eq_some h
    rw [digits_eq] at hd
    obtain ⟨hlt, -⟩ := List.getElem?_eq_some_iff.mp hd
    have hten : d < 10 := hlt
    interval_cases d <;> obtain rfl := Option.some.inj hd <;> exact ⟨⟨by decide, by decide⟩, rfl⟩
  · rintro ⟨⟨hlo, hhi⟩, rfl⟩
    have hch : ch = UInt8.ofNat ch.toNat := UInt8.ofNat_toNat.symm
    rw [hch, digits_eq]
    generalize ch.toNat = n at hlo hhi
    interval_cases n <;> rfl

/-- The state with done in front of *tp = cur, and junk behind it. -/
def quad (saw : Bool) (done : List Byte) (cur : Byte) (junk : List Byte) : Quad :=
  ⟨saw, done.length + saw.toNat, done ++ cur :: junk, done.length⟩

/-- A digit is added to *tp if the octet does not get too large. -/
theorem quad_digit (saw : Bool) {done junk : List Byte} (cur : Byte) {ch : Byte} (src : List Byte)
    (hd : IsDigit ch) (hdone : done.length < 4) :
    inetPton4Loop (quad saw done cur junk) (ch :: src) =
      if 255 < 10 * cur.toNat + (ch.toNat - 48) then none
      else inetPton4Loop (quad true done (UInt8.ofNat (10 * cur.toNat + (ch.toNat - 48))) junk) src := by
  have hstr : strchr digits ch = some (ch.toNat - 48) := strchr_digits.mpr ⟨hd, rfl⟩
  have hget : (done ++ cur :: junk).getD done.length 0 = cur := by simp
  have hset : ∀ b : Byte, (done ++ cur :: junk).set done.length b = done ++ b :: junk := by
    intro b
    simp
  rw [inetPton4Loop]
  simp only [hstr, quad, hget, hset, Nat.mul_comm cur.toNat 10]
  split
  · rfl
  · cases saw with
    | true => rfl
    | false =>
      have hlt : ¬4 < done.length + 1 := by omega
      simp [hlt]

/-- A dot behind a digit starts the next octet. -/
theorem quad_dot {done junk : List Byte} (cur j : Byte) (src : List Byte) (hdone : done.length < 3) :
    inetPton4Loop (quad true done cur (j :: junk)) (dot :: src) =
      inetPton4Loop (quad false (done ++ [cur]) 0 junk) src := by
  have hstr : strchr digits dot = none := by decide
  have hset : (done ++ cur :: j :: junk).set (done.length + 1) 0 = done ++ [cur] ++ 0 :: junk := by
    simp
  have hlt : done.length + 1 ≠ 4 := by omega
  rw [inetPton4Loop]
  simp [hstr, quad, hset, hlt]

/-- An octet in the text and its value. -/
structure Octet (f : List Byte) (b : Byte) : Prop where
  nonempty : f ≠ []
  digits : ∀ c ∈ f, IsDigit c
  value : parseNat f = b.toNat

/-- The value of more digits behind a number. -/
def parseFrom (n : Nat) (f : List Byte) : Nat := f.foldl (fun n b => 10 * n + (b.toNat - 48)) n

theorem le_parseFrom (n : Nat) (f : List Byte) : n ≤ parseFrom n f := by
  induction f generalizing n with
  | nil => exact Nat.le_refl n
  | cons c f ih =>
    have h := ih (10 * n + (c.toNat - 48))
    simp only [parseFrom, List.foldl_cons] at h ⊢
    omega

theorem loop_digits {done junk f : List Byte} (cur : Byte) (src : List Byte)
    (hf : ∀ c ∈ f, IsDigit c) (hle : parseFrom cur.toNat f ≤ 255) (hdone : done.length < 4) :
    inetPton4Loop (quad true done cur junk) (f ++ src) =
      inetPton4Loop (quad true done (UInt8.ofNat (parseFrom cur.toNat f)) junk) src := by
  induction f generalizing cur with
  | nil => simp [parseFrom]
  | cons c f ih =>
    have hstep : parseFrom cur.toNat (c :: f) = parseFrom (10 * cur.toNat + (c.toNat - 48)) f := rfl
    have hcur := le_parseFrom (10 * cur.toNat + (c.toNat - 48)) f
    rw [hstep] at hle ⊢
    have hnat : (UInt8.ofNat (10 * cur.toNat + (c.toNat - 48))).toNat = 10 * cur.toNat + (c.toNat - 48) :=
      UInt8.toNat_ofNat_of_lt' (by show _ < 256; omega)
    rw [List.cons_append, quad_digit _ _ _ (hf c List.mem_cons_self) hdone, if_neg (by omega), ih,
      hnat]
    · exact fun b hb => hf b (List.mem_cons_of_mem c hb)
    · rwa [hnat]

/-- The loop on a whole octet. -/
theorem loop_octet {done junk f : List Byte} {b : Byte} (src : List Byte) (h : Octet f b)
    (hdone : done.length < 4) :
    inetPton4Loop (quad false done 0 junk) (f ++ src) = inetPton4Loop (quad true done b junk) src := by
  obtain ⟨hne, hf, hval⟩ := h
  cases f with
  | nil => exact absurd rfl hne
  | cons c f =>
    have hb := b.toNat_lt
    have hstep : parseFrom (c.toNat - 48) f = b.toNat := by
      rw [← hval]
      simp [parseFrom, parseNat]
    have hc := le_parseFrom (c.toNat - 48) f
    have hnat : (UInt8.ofNat (c.toNat - 48)).toNat = c.toNat - 48 :=
      UInt8.toNat_ofNat_of_lt' (by show _ < 256; omega)
    have hzero : 10 * (0 : Byte).toNat + (c.toNat - 48) = c.toNat - 48 := by simp
    rw [List.cons_append, quad_digit _ _ _ (hf c List.mem_cons_self) hdone, hzero,
      if_neg (by omega), loop_digits _ _ (fun b hb => hf b (List.mem_cons_of_mem c hb)) _ hdone,
      hnat, hstep, UInt8.ofNat_toNat]
    rw [hnat, hstep]
    omega

/-- What is behind a state from which the loop ends well: the rest of the octet, and
octets behind dots for the other bytes of tmp. -/
theorem loop_inv {saw : Bool} {done junk src : List Byte} {cur : Byte} {q : Quad}
    (hlen : done.length + junk.length = 3)
    (h : inetPton4Loop (quad saw done cur junk) src = some q) (hq : ¬q.octets < 4) :
    ∃ f b fs bs, src = f ++ fs.flatMap (dot :: ·) ∧ (∀ c ∈ f, IsDigit c) ∧
      (saw = false → f ≠ []) ∧ parseFrom cur.toNat f = b.toNat ∧ List.Forall₂ Octet fs bs ∧
      bs.length = junk.length ∧ q.tmp = done ++ b :: bs := by
  induction src generalizing saw done cur junk with
  | nil =>
    cases h
    have hsaw : saw = true ∧ junk = [] := by
      simp only [quad] at hq
      cases saw with
      | false =>
        simp only [Bool.toNat_false] at hq
        omega
      | true =>
        simp only [Bool.toNat_true] at hq
        exact ⟨rfl, List.eq_nil_of_length_eq_zero (by omega)⟩
    obtain ⟨rfl, rfl⟩ := hsaw
    refine ⟨[], cur, [], [], rfl, ?_, nofun, rfl, .nil, rfl, rfl⟩
    intro c hc
    cases hc
  | cons ch src ih =>
    by_cases hd : IsDigit ch
    · rw [quad_digit _ _ _ hd (by omega)] at h
      split at h
      · cases h
      · rename_i hle
        obtain ⟨f, b, fs, bs, rfl, hf, -, hval, hfs, hbs, htmp⟩ := ih hlen h
        have hnat : (UInt8.ofNat (10 * cur.toNat + (ch.toNat - 48))).toNat =
            10 * cur.toNat + (ch.toNat - 48) := UInt8.toNat_ofNat_of_lt' (by show _ < 256; omega)
        rw [hnat] at hval
        refine ⟨ch :: f, b, fs, bs, rfl, ?_, fun _ => List.cons_ne_nil _ _, hval, hfs, hbs, htmp⟩
        intro c hc
        rcases List.mem_cons.mp hc with rfl | hc
        · exact hd
        · exact hf c hc
    · have hstr : strchr digits ch = none := by
        cases hs : strchr digits ch with
        | none => rfl
        | some d => exact absurd (strchr_digits.mp hs).1 hd
      rw [inetPton4Loop] at h
      simp only [hstr] at h
      split at h
      · rename_i hdot
        obtain ⟨rfl, hsaw⟩ := hdot
        have htrue : saw = true := hsaw
        subst htrue
        split at h
        · cases h
        rename_i hoct
        have hroom : done.length + 1 ≠ 4 := hoct
        -- octets is not 4, so that tmp has room for one more
        cases junk with
        | nil =>
          rw [List.length_nil] at hlen
          omega
        | cons j junk =>
          rw [List.length_cons] at hlen
          have hset : (done ++ cur :: j :: junk).set (done.length + 1) 0 =
              done ++ [cur] ++ 0 :: junk := by simp
          have hquad : (⟨false, done.length + 1, done ++ [cur] ++ 0 :: junk, done.length + 1⟩ : Quad) =
              quad false (done ++ [cur]) 0 junk := by
            simp [quad]
          have hnext : inetPton4Loop (quad false (done ++ [cur]) 0 junk) src = some q := by
            rw [← hquad, ← hset]
            exact h
          have hlen' : (done ++ [cur]).length + junk.length = 3 := by
            rw [List.length_append, List.length_singleton]
            omega
          obtain ⟨f, b, fs, bs, rfl, hf, hne, hval, hfs, hbs, htmp⟩ := ih hlen' hnext
          exact ⟨[], cur, f :: fs, b :: bs, rfl, nofun, nofun, rfl,
            .cons ⟨hne rfl, hf, hval⟩ hfs, by simp [hbs], by simp [htmp]⟩
      · cases h

theorem pton4_start (garbage : InAddr) :
    ∃ junk, junk.length = 3 ∧
      (⟨false, 0, garbage.toList.set 0 0, 0⟩ : Quad) = quad false [] 0 junk := by
  obtain ⟨g, hg⟩ := garbage
  cases g with
  | nil => cases hg
  | cons j junk => exact ⟨junk, Nat.succ.inj hg, rfl⟩

/-- Four octets with dots between them are read. -/
theorem pton4_of_octets (garbage : InAddr) {f₀ f₁ f₂ f₃ : List Byte} {b₀ b₁ b₂ b₃ : Byte}
    (h₀ : Octet f₀ b₀) (h₁ : Octet f₁ b₁) (h₂ : Octet f₂ b₂) (h₃ : Octet f₃ b₃) :
    inetPton4 garbage (f₀ ++ dot :: (f₁ ++ dot :: (f₂ ++ dot :: f₃))) = some [b₀, b₁, b₂, b₃] := by
  obtain ⟨junk, hjunk, hstart⟩ := pton4_start garbage
  obtain ⟨j₁, j₂, j₃, rfl⟩ := List.length_eq_three.mp hjunk
  rw [inetPton4, hstart, loop_octet _ h₀ (by decide), quad_dot _ _ _ (by decide),
    loop_octet _ h₁ (by simp), quad_dot _ _ _ (by simp), loop_octet _ h₂ (by simp),
    quad_dot _ _ _ (by simp), ← List.append_nil f₃, loop_octet _ h₃ (by simp), inetPton4Loop]
  rfl

theorem octet_ofNat (b : Byte) : Octet (Decimal.ofNat b.toNat) b where
  nonempty := by
    rw [Decimal.ofNat, ne_eq, List.map_eq_nil_iff]
    exact Nat.toDigits_ne_nil
  digits _ := Decimal.isDigit_of_mem
  value := Decimal.parseNat_ofNat b.toNat

theorem pton4_dotted (garbage : InAddr) (b₀ b₁ b₂ b₃ : Byte) :
    inetPton4 garbage (dotted [b₀, b₁, b₂, b₃]) = some [b₀, b₁, b₂, b₃] := by
  have htext : dotted [b₀, b₁, b₂, b₃] = Decimal.ofNat b₀.toNat ++ dot :: (Decimal.ofNat b₁.toNat ++
      dot :: (Decimal.ofNat b₂.toNat ++ dot :: Decimal.ofNat b₃.toNat)) := by
    simp [dotted]
  rw [htext]
  exact pton4_of_octets garbage (octet_ofNat b₀) (octet_ofNat b₁) (octet_ofNat b₂) (octet_ofNat b₃)

/-- inet_pton4 accepts exactly four decimal octets with dots between them, each of any
number of digits and at most 255, and gives their values. -/
theorem inetPton4_eq_some_iff (garbage : InAddr) (src out : List Byte) :
    inetPton4 garbage src = some out ↔
      ∃ f₀ f₁ f₂ f₃ b₀ b₁ b₂ b₃, Octet f₀ b₀ ∧ Octet f₁ b₁ ∧ Octet f₂ b₂ ∧ Octet f₃ b₃ ∧
        src = f₀ ++ dot :: (f₁ ++ dot :: (f₂ ++ dot :: f₃)) ∧ out = [b₀, b₁, b₂, b₃] := by
  constructor
  · intro h
    obtain ⟨junk, hjunk, hstart⟩ := pton4_start garbage
    rw [inetPton4, hstart] at h
    cases hl : inetPton4Loop (quad false [] 0 junk) src with
    | none =>
      rw [hl] at h
      cases h
    | some q =>
      rw [hl] at h
      by_cases hq : q.octets < 4
      · simp only [if_pos hq] at h
        cases h
      · simp only [if_neg hq] at h
        obtain ⟨f, b, fs, bs, rfl, hf, hne, hval, hfs, hbs, htmp⟩ := loop_inv (by simp [hjunk]) hl hq
        rw [hjunk] at hbs
        obtain ⟨b₁, b₂, b₃, rfl⟩ := List.length_eq_three.mp hbs
        obtain ⟨f₁, f₂, f₃, rfl⟩ := List.length_eq_three.mp hfs.length_eq
        simp only [List.forall₂_cons, List.forall₂_nil_right_iff, and_true] at hfs
        obtain ⟨h₁, h₂, h₃⟩ := hfs
        refine ⟨f, f₁, f₂, f₃, b, b₁, b₂, b₃, ⟨hne rfl, hf, hval⟩, h₁, h₂, h₃, by simp, ?_⟩
        rw [← Option.some.inj h, htmp]
        rfl
  · rintro ⟨f₀, f₁, f₂, f₃, b₀, b₁, b₂, b₃, h₀, h₁, h₂, h₃, rfl, rfl⟩
    exact pton4_of_octets garbage h₀ h₁ h₂ h₃

end LinuxPractice.Address
