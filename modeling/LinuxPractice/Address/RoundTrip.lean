import LinuxPractice.Address.Colon
import LinuxPractice.Address.ZeroRun

namespace LinuxPractice.Address

open Echo (Byte nul cstr)

section Words

theorem word_eq (hi lo : Byte) : hi.toNat <<< 8 ||| lo.toNat = 256 * hi.toNat + lo.toNat := by
  rw [← Nat.shiftLeft_add_eq_or_of_lt (i := 8) lo.toNat_lt, Nat.shiftLeft_eq]
  omega

theorem wordBytes_word (hi lo : Byte) : wordBytes (hi.toNat <<< 8 ||| lo.toNat) = [hi, lo] := by
  have hlo := lo.toNat_lt
  have hshift : (256 * hi.toNat + lo.toNat) >>> 8 = hi.toNat := by
    rw [Nat.shiftRight_eq_div_pow]
    omega
  have hmod : UInt8.ofNat (256 * hi.toNat + lo.toNat) = lo := by
    apply UInt8.toNat_inj.mp
    rw [UInt8.toNat_ofNat']
    omega
  rw [word_eq, wordBytes, hshift, hmod, UInt8.ofNat_toNat]

/-- The words say what the bytes say. -/
theorem words_spec {n : Nat} {src : List Byte} (h : src.length = 2 * n) :
    (words src).length = n ∧ wordsBytes (words src) = src ∧ ∀ w ∈ words src, w ≤ 0xffff := by
  induction n generalizing src with
  | zero =>
    obtain rfl := List.eq_nil_of_length_eq_zero h
    exact ⟨rfl, rfl, nofun⟩
  | succ n ih =>
    match src, h with
    | hi :: lo :: src, h =>
      simp only [List.length_cons] at h
      obtain ⟨hlen, hbytes, hle⟩ := @ih src (by omega)
      refine ⟨by simp [words, hlen], ?_, ?_⟩
      · simp only [wordsBytes] at hbytes
        rw [words, wordsBytes, List.flatMap_cons, wordBytes_word, hbytes]
        rfl
      · intro w hw
        rw [words] at hw
        rcases List.mem_cons.mp hw with rfl | hw
        · have hhi := hi.toNat_lt
          have hlo := lo.toNat_lt
          rw [word_eq]
          omega
        · exact hle w hw

end Words

section Format

variable (src : List Byte) (all : List Nat) (best : Option Run)

/-- Words with a colon in front of each. -/
def sep (ws : List Nat) : List Byte := ws.flatMap fun w => colon :: hex w

theorem join_cons (w : Nat) (ws : List Nat) : join (w :: ws) = hex w ++ sep ws := by
  induction ws generalizing w with
  | nil => simp [join, sep]
  | cons w' ws ih =>
    rw [join_cons_cons, ih]
    simp [sep]

/-- A run of zeros at the end has a colon of its own behind it. -/
theorem sep_trailing (ws : List Nat) :
    (sep ws ++ if ws = [] then [colon] else []) = colon :: join ws := by
  cases ws with
  | nil => rfl
  | cons w ws => simp [join_cons, sep]

/-- Word k is written in hexadecimal. -/
def Plain (all : List Nat) (best : Option Run) (k : Nat) : Prop :=
  best.any (·.covers k) = false ∧ ¬(k = 6 ∧ best.any (·.encapsulates all) = true)

theorem format_word {i pos w : Nat} {ws : List Nat} (hi : i ≠ 0) (h : Plain all best i) :
    format src all best i pos (w :: ws) =
      (format src all best (i + 1) (pos + (colon :: hex w).length) ws).map (colon :: hex w ++ ·) := by
  simp [format, h.1, h.2, hi]

theorem format_words {i : Nat} (pos : Nat) (ws more : List Nat) (hi : i ≠ 0)
    (h : ∀ k, i ≤ k → k < i + ws.length → Plain all best k) :
    format src all best i pos (ws ++ more) =
      (format src all best (i + ws.length) (pos + (sep ws).length) more).map (sep ws ++ ·) := by
  induction ws generalizing i pos with
  | nil => simp [sep]
  | cons w ws ih =>
    have hrest := ih (i := i + 1) (pos + (colon :: hex w).length) (by omega)
      (fun k hk hlt => h k (by omega) (by rw [List.length_cons]; omega))
    have hsep : sep (w :: ws) = colon :: hex w ++ sep ws := rfl
    rw [List.cons_append, format_word src all best hi (h i (Nat.le_refl i) (by simp)), hrest, hsep, List.length_append,
      List.length_cons, Option.map_map, show i + 1 + ws.length = i + (ws.length + 1) by omega, Nat.add_assoc]
    congr 1
    funext x
    simp

/-- The words up to the first that is not plain. -/
theorem format_front {ws : List Nat} (more : List Nat) (hne : ws ≠ [])
    (h : ∀ k, k < ws.length → Plain all best k) :
    format src all best 0 0 (ws ++ more) =
      (format src all best ws.length (join ws).length more).map (join ws ++ ·) := by
  cases ws with
  | nil => exact absurd rfl hne
  | cons w ws =>
    have h0 := (h 0 (by simp)).1
    have hrest := format_words src all best (hex w).length ws more Nat.one_ne_zero
      (fun k _ hlt => h k (by rw [List.length_cons]; omega))
    have hstep : format src all best 0 0 (w :: (ws ++ more)) =
        (format src all best 1 (hex w).length (ws ++ more)).map (hex w ++ ·) := by
      simp [format, h0]
    rw [List.cons_append, hstep, hrest, join_cons, List.length_append, List.length_cons, Option.map_map,
      Nat.add_comm ws.length 1]
    congr 1
    funext x
    simp

variable {r : Run}

theorem covers_iff {k : Nat} : r.covers k = true ↔ r.base ≤ k ∧ k < r.base + r.len := by
  simp [Run.covers]

/-- Behind its first word a run gives no text. -/
theorem format_inside {i pos : Nat} {ws more : List Nat} (hi : r.base < i)
    (h : i + ws.length ≤ r.base + r.len) :
    format src all (some r) i pos (ws ++ more) = format src all (some r) (i + ws.length) pos more := by
  induction ws generalizing i with
  | nil => rfl
  | cons w ws ih =>
    rw [List.length_cons] at h ⊢
    have hcov : r.covers i = true := covers_iff.mpr ⟨by omega, by omega⟩
    have hbase : r.base ≠ i := by omega
    have hstep : format src all (some r) i pos (w :: (ws ++ more)) =
        format src all (some r) (i + 1) pos (ws ++ more) := by
      simp [format, hcov, hbase]
    rw [List.cons_append, hstep, ih (by omega) (by omega), show i + 1 + ws.length = i + (ws.length + 1) by omega]

/-- A run gives one colon. -/
theorem format_run (pos : Nat) {ws : List Nat} (more : List Nat) (hlen : ws.length = r.len) (hpos : 0 < r.len) :
    format src all (some r) r.base pos (ws ++ more) =
      (format src all (some r) (r.base + r.len) (pos + 1) more).map (colon :: ·) := by
  cases ws with
  | nil =>
    rw [List.length_nil] at hlen
    omega
  | cons w ws =>
    rw [List.length_cons] at hlen
    have hcov : r.covers r.base = true := covers_iff.mpr ⟨by omega, by omega⟩
    have hstep : format src all (some r) r.base pos (w :: (ws ++ more)) =
        (format src all (some r) (r.base + 1) (pos + 1) (ws ++ more)).map (colon :: ·) := by
      simp [format, hcov]
    rw [List.cons_append, hstep, format_inside src all (by omega) (by omega),
      show r.base + 1 + ws.length = r.base + r.len by omega]

theorem plain_of_outside {k : Nat} (hk : k < r.base ∨ r.base + r.len ≤ k)
    (he : r.encapsulates all = false ∨ k ≠ 6) : Plain all (some r) k := by
  refine ⟨?_, ?_⟩
  · show r.covers k = false
    rw [← Bool.not_eq_true, covers_iff]
    omega
  · rintro ⟨hsix, henc⟩
    rcases he with he | he
    · rw [show (some r).any (·.encapsulates all) = r.encapsulates all from rfl, he] at henc
      cases henc
    · exact he hsix

/-- The front of the text, up to the run: its words, and a colon for the run. -/
theorem format_to_run (pre zs post : List Nat) (hpre : pre.length = r.base) (hzs : zs.length = r.len)
    (hpos : 0 < r.len) (he : ∀ k, k < r.base → r.encapsulates all = false ∨ k ≠ 6) :
    format src all (some r) 0 0 (pre ++ (zs ++ post)) =
      (format src all (some r) (r.base + r.len) ((join pre).length + 1) post).map
        (join pre ++ colon :: ·) := by
  by_cases hne : pre = []
  · subst hne
    have hbase : r.base = 0 := hpre.symm
    have hrun := format_run src all 0 post hzs hpos
    rw [hbase] at hrun
    rw [hbase]
    exact hrun
  · rw [format_front src all (some r) _ hne
        (fun k hk => plain_of_outside all (.inl (by omega)) (he k (by omega))), hpre,
      format_run src all _ _ hzs hpos, Option.map_map]
    rfl

end Format

section Lengths

theorem hex_length_le {w : Nat} (h : w ≤ 0xffff) : (hex w).length ≤ 4 := by
  rw [hex, List.length_map]
  exact (Nat.length_toDigits_le_iff (by decide) (by decide)).mpr (by omega)

theorem sep_length_le {ws : List Nat} (h : ∀ w ∈ ws, w ≤ 0xffff) : (sep ws).length ≤ 5 * ws.length := by
  induction ws with
  | nil => simp [sep]
  | cons w ws ih =>
    have hw := hex_length_le (h w List.mem_cons_self)
    have hws := ih (fun x hx => h x (List.mem_cons_of_mem w hx))
    have hsep : sep (w :: ws) = colon :: hex w ++ sep ws := rfl
    rw [hsep, List.length_append, List.length_cons, List.length_cons]
    omega

theorem join_length_le {ws : List Nat} (h : ∀ w ∈ ws, w ≤ 0xffff) : (join ws).length ≤ 5 * ws.length := by
  cases ws with
  | nil => simp [join]
  | cons w ws =>
    have hw := hex_length_le (h w List.mem_cons_self)
    have hws := sep_length_le (fun x hx => h x (List.mem_cons_of_mem w hx))
    rw [join_cons, List.length_append, List.length_cons]
    omega

theorem octet_length_le (b : Byte) : (Decimal.ofNat b.toNat).length ≤ 3 := by
  have hb := b.toNat_lt
  rw [Decimal.ofNat, List.length_map]
  exact (Nat.length_toDigits_le_iff (by decide) (by decide)).mpr (by omega)

theorem dotted_length_le (src : List Byte) : (dotted src).length ≤ 15 := by
  have h₀ := octet_length_le (src.getD 0 0)
  have h₁ := octet_length_le (src.getD 1 0)
  have h₂ := octet_length_le (src.getD 2 0)
  have h₃ := octet_length_le (src.getD 3 0)
  simp only [dotted, List.length_append, List.length_cons]
  omega

theorem nul_not_mem_dotted (src : List Byte) : nul ∉ dotted src := by
  have hdigits : ∀ n, nul ∉ Decimal.ofNat n := fun n => Decimal.not_mem_ofNat (by decide)
  have hdot : nul ≠ dot := by decide
  simp [dotted, hdigits, hdot]

theorem cstr_snoc_nul {text : List Byte} (h : nul ∉ text) : cstr (text ++ [nul]) = text := by
  rw [cstr, List.takeWhile_append_of_pos]
  · simp
  · intro x hx
    have hne : x ≠ nul := fun he => h (he ▸ hx)
    simpa using hne

/-- In inet_ntop6 the inner inet_ntop4 has room. -/
theorem inetNtop4_inner (pos : Nat) (src : List Byte) (h : pos ≤ 31) :
    (inetNtop4 src (tmpSize - pos)).map cstr = some (dotted src) := by
  have hlen := dotted_length_le src
  have hsize : tmpSize = 46 := by decide
  have hroom : ¬tmpSize - pos < (dotted src).length := by omega
  simp only [inetNtop4, if_neg hroom, Option.map_some, cstr_snoc_nul (nul_not_mem_dotted src)]

end Lengths

section Text

variable {src : List Byte}

theorem inet6Text_plain (hlen : (words src).length = 8) (hbest : bestRun (words src) = none) :
    inet6Text src = some (join (words src)) := by
  have hne : words src ≠ [] := by
    intro h
    rw [h] at hlen
    cases hlen
  have hfront := format_front src (words src) none [] hne
    (fun k _ => ⟨rfl, fun h => (by cases h.2)⟩)
  rw [List.append_nil] at hfront
  rw [inet6Text]
  simp only [hbest]
  rw [hfront]
  simp [format]

/-- The words around the run of zeros. -/
theorem split_run {ws : List Nat} {r : Run} (h : ZeroRun ws r) :
    ∃ pre post, ws = pre ++ (List.replicate r.len 0 ++ post) ∧ pre.length = r.base ∧
      post.length + (r.base + r.len) = ws.length := by
  have hle := h.le_length
  refine ⟨ws.take r.base, ws.drop (r.base + r.len), ?_, by rw [List.length_take]; omega,
    by rw [List.length_drop]; omega⟩
  have hmid : (ws.drop r.base).take r.len = List.replicate r.len 0 := by
    rw [List.eq_replicate_iff]
    refine ⟨by rw [List.length_take, List.length_drop]; omega, fun w hw => ?_⟩
    obtain ⟨k, hk⟩ := List.getElem?_of_mem hw
    rw [List.getElem?_take] at hk
    split at hk
    · rename_i hlt
      rw [List.getElem?_drop, h.zero (r.base + k) (by omega) (by omega)] at hk
      exact (Option.some.inj hk).symm
    · cases hk
  have hdrop := List.take_append_drop r.len (ws.drop r.base)
  rw [hmid, List.drop_drop] at hdrop
  rw [hdrop, List.take_append_drop]

/-- The text of an address with a run of zeros: "::" stands for the run. -/
theorem inet6Text_compressed {r : Run} {pre post : List Nat} (hbest : bestRun (words src) = some r)
    (hlen : (words src).length = 8) (hpos : 0 < r.len)
    (hws : words src = pre ++ (List.replicate r.len 0 ++ post)) (hpre : pre.length = r.base)
    (henc : r.encapsulates (words src) = false) :
    inet6Text src = some (join pre ++ colon :: colon :: join post) := by
  have hpost : pre.length + (r.len + post.length) = 8 := by
    rw [← hlen, hws]
    simp
  have hfront := format_to_run src (words src) pre (List.replicate r.len 0) post hpre
    List.length_replicate hpos (fun _ _ => .inl henc)
  have hback := format_words src (words src) (some r) (i := r.base + r.len)
    ((join pre).length + 1) post [] (by omega)
    (fun k hk _ => plain_of_outside (words src) (.inr hk) (.inl henc))
  have hend : (some r).any (fun best => decide (best.base + best.len = IN6ADDRSZ / INT16SZ)) =
      decide (post = []) := by
    have hiff : r.base + r.len = IN6ADDRSZ / INT16SZ ↔ post = [] := by
      rw [← List.length_eq_zero_iff, show IN6ADDRSZ / INT16SZ = 8 from rfl]
      omega
    exact decide_eq_decide.mpr hiff
  rw [List.append_nil] at hback
  rw [← hws] at hfront
  rw [inet6Text]
  simp only [hbest]
  rw [hfront, hback, hend, ← sep_trailing post]
  simp [format]

/-- What an encapsulated IPv4 address has behind the run. -/
theorem encapsulates_cases {all : List Nat} {r : Run} (h : r.encapsulates all = true) :
    r.base = 0 ∧ (r.len = 6 ∨ r.len = 5 ∧ all.getD 5 0 = 0xffff) := by
  simpa [Run.encapsulates] using h

/-- The text of an address that ends in an IPv4 address. -/
theorem inet6Text_mapped {r : Run} {mid tail : List Nat} (hbest : bestRun (words src) = some r)
    (henc : r.encapsulates (words src) = true)
    (hws : words src = List.replicate r.len 0 ++ (mid ++ tail)) (hmid : r.len + mid.length = 6)
    (htail : tail.length = 2) (hw : ∀ w ∈ mid, w ≤ 0xffff) :
    inet6Text src = some (colon :: (sep mid ++ colon :: dotted (src.drop 12))) := by
  obtain ⟨hbase, hcases⟩ := encapsulates_cases henc
  have hfront := format_to_run src (words src) [] (List.replicate r.len 0) (mid ++ tail) hbase.symm
    List.length_replicate (by omega) (fun k hk => by omega)
  have hmiddle := format_words src (words src) (some r) (i := r.base + r.len)
    ((join []).length + 1) mid tail (by omega)
    (fun k hk hlt => plain_of_outside (words src) (.inr hk) (.inr (by omega)))
  have hseplen := sep_length_le hw
  have hsix : r.base + r.len + mid.length = 6 := by omega
  have hlast : ∀ pos, pos ≤ 30 → format src (words src) (some r) 6 pos tail =
      some (colon :: dotted (src.drop 12)) := by
    intro pos hpos
    have hcov : r.covers 6 = false := by
      rw [← Bool.not_eq_true, covers_iff]
      omega
    have hin := inetNtop4_inner (pos + 1) (src.drop 12) (by omega)
    obtain ⟨text, htext, hcstr⟩ := Option.map_eq_some_iff.mp hin
    cases tail with
    | nil => cases htail
    | cons w tail => simp [format, hcov, henc, htext, hcstr]
  have hend : (some r).any (fun best => decide (best.base + best.len = IN6ADDRSZ / INT16SZ)) = false := by
    have hne : r.base + r.len ≠ IN6ADDRSZ / INT16SZ := by
      rw [show IN6ADDRSZ / INT16SZ = 8 from rfl]
      omega
    exact decide_eq_false hne
  rw [List.nil_append, ← hws] at hfront
  rw [inet6Text]
  simp only [hbest]
  rw [hfront, hmiddle, hsix, hlast _ (by simp only [join, List.length_nil]; omega), hend]
  simp [join]

end Text

section Mapped

variable (g : InAddr)

theorem xdigit_digit {c : Byte} (h : Decimal.IsDigit c) : xdigit c = some (c.toNat - 48) := by
  obtain ⟨hlo, hhi⟩ := h
  have hc : c = UInt8.ofNat c.toNat := UInt8.ofNat_toNat.symm
  rw [hc]
  generalize c.toNat = n at hlo hhi
  interval_cases n <;> rfl

/-- The decimal digits of an octet are digits of a word as well, and too few to make it
too large. -/
theorem loop_decimal {f : List Byte} {m : Nat} (s : Scan) (src : List Byte)
    (hf : ∀ c ∈ f, Decimal.IsDigit c) (hval : s.val < 16 ^ m) (hm : m + f.length ≤ 4) :
    ∃ val saw, inetPton6Loop g s (f ++ src) =
      inetPton6Loop g { s with val := val, sawXdigit := saw } src := by
  induction f generalizing s m with
  | nil => exact ⟨s.val, s.sawXdigit, rfl⟩
  | cons c f ih =>
    obtain ⟨hlo, hhi⟩ := hf c List.mem_cons_self
    rw [List.length_cons] at hm
    have hd : c.toNat - 48 < 16 := by omega
    have hnext : 16 * s.val + (c.toNat - 48) < 16 ^ (m + 1) := by
      rw [pow_succ]
      omega
    have hbound : 16 ^ (m + 1) ≤ 16 ^ 4 := Nat.pow_le_pow_right (by decide) (by omega)
    have hstep : inetPton6Loop g s (c :: (f ++ src)) = inetPton6Loop g
        { s with val := 16 * s.val + (c.toNat - 48), sawXdigit := true } (f ++ src) := by
      rw [inetPton6Loop]
      simp only [xdigit_digit ⟨hlo, hhi⟩, shift_or hd]
      rw [if_neg (by omega)]
    rw [List.cons_append, hstep]
    exact ih _ (fun b hb => hf b (List.mem_cons_of_mem c hb)) hnext (by omega)

theorem copyAt_fill {done v : List Byte} (h : done.length + v.length ≤ IN6ADDRSZ) :
    copyAt (fill done) done.length v = fill (done ++ v) := by
  have hdrop : (done ++ zeros (IN6ADDRSZ - done.length)).drop (done.length + v.length) =
      zeros (IN6ADDRSZ - (done ++ v).length) := by
    rw [List.drop_append, List.drop_eq_nil_of_le (by omega), List.nil_append, zeros, List.drop_replicate,
      List.length_append]
    congr 1
    omega
  rw [copyAt, fill, hdrop, List.take_left, fill]

/-- The end of the text is an IPv4 address: inet_pton4 takes it from curtok. -/
theorem finish_dotted {done : List Byte} {p : Nat} (b₀ b₁ b₂ b₃ : Byte)
    (h : done.length + 4 ≤ IN6ADDRSZ) :
    let text := dotted [b₀, b₁, b₂, b₃]
    (inetPton6Loop g (scan done (some p) text false 0) text).bind inetPton6End =
      inetPton6End (scan (done ++ [b₀, b₁, b₂, b₃]) (some p) [] false 0) := by
  intro text
  obtain ⟨rest, hrest⟩ : ∃ rest, text = Decimal.ofNat b₀.toNat ++ dot :: rest := ⟨_, by simp [text, dotted]; rfl⟩
  have hoctet := octet_length_le b₀
  obtain ⟨val, saw, hloop⟩ := loop_decimal g (f := Decimal.ofNat b₀.toNat) (m := 1) (scan done (some p) text false 0) (dot :: rest)
    (fun c hc => Decimal.isDigit_of_mem hc) (by show 0 < 16 ^ 1; decide) (by omega)
  have hdot : dot ≠ colon := by decide
  have hroom : done.length + INADDRSZ ≤ IN6ADDRSZ := h
  have hpton : inetPton4 g text = some [b₀, b₁, b₂, b₃] := pton4_dotted g b₀ b₁ b₂ b₃
  have hstep : inetPton6Loop g (scan done (some p) text false 0) text =
      some { scan done (some p) text saw val with
        tmp := copyAt (fill done) done.length [b₀, b₁, b₂, b₃]
        tp := done.length + INADDRSZ
        sawXdigit := false } := by
    rw [← hrest] at hloop
    rw [hloop, inetPton6Loop]
    simp [xdigit_dot, hdot, scan, hroom, hpton]
  rw [hstep, copyAt_fill (by simpa using h), Option.bind_some]
  simp [inetPton6End, scan, INADDRSZ]

end Mapped

theorem wordsBytes_append (ws ws' : List Nat) : wordsBytes (ws ++ ws') = wordsBytes ws ++ wordsBytes ws' :=
  List.flatMap_append

theorem wordsBytes_replicate (n : Nat) : wordsBytes (List.replicate n 0) = zeros (2 * n) := by
  induction n with
  | zero => rfl
  | succ n ih =>
    rw [List.replicate_succ, wordsBytes, List.flatMap_cons]
    simp only [wordsBytes] at ih
    rw [ih]
    rfl

theorem nul_not_mem_hex (w : Nat) : nul ∉ hex w := by
  have hdigit : ∀ d, d < 16 → nul ≠ (Nat.digitChar d).toUInt8 := by
    intro d hd
    interval_cases d <;> decide
  induction w using Nat.strongRecOn with
  | ind w ih =>
    by_cases h : w < 16
    · rw [hex_of_lt h, List.mem_singleton]
      exact hdigit w h
    · rw [hex_of_le (by omega), List.mem_append, List.mem_singleton, not_or]
      exact ⟨ih (w / 16) (by omega), hdigit (w % 16) (by omega)⟩

theorem nul_not_mem_sep (ws : List Nat) : nul ∉ sep ws := by
  have hcolon : nul ≠ colon := by decide
  simp [sep, nul_not_mem_hex, hcolon]

theorem nul_not_mem_join (ws : List Nat) : nul ∉ join ws := by
  cases ws with
  | nil => simp [join]
  | cons w ws => simp [join_cons, nul_not_mem_hex, nul_not_mem_sep]

theorem exists_four {v : List Byte} (h : v.length = 4) : ∃ b₀ b₁ b₂ b₃, v = [b₀, b₁, b₂, b₃] :=
  match v, h with
  | [b₀, b₁, b₂, b₃], _ => ⟨b₀, b₁, b₂, b₃, rfl⟩

/-- A text that inet_ntop6 makes of src: it fits tmp, and inet_pton6 reads src from it. -/
structure Good (g : InAddr) (src text : List Byte) : Prop where
  made : inet6Text src = some text
  fits : text.length < tmpSize
  clean : nul ∉ text
  read : inetPton6 g text = some src

section Good

variable (g : InAddr) {src : List Byte}

theorem good_plain (hsrc : src.length = 2 * 8) (hbest : bestRun (words src) = none) :
    Good g src (join (words src)) := by
  obtain ⟨hlen, hbytes, hle⟩ := words_spec hsrc
  have hjoin := join_length_le hle
  refine ⟨inet6Text_plain hlen hbest, ?_, nul_not_mem_join _, ?_⟩
  · rw [show tmpSize = 46 by decide]
    omega
  · rw [inetPton6_words g hle hlen, hbytes]

theorem good_compressed {r : Run} {pre post : List Nat} (hsrc : src.length = 2 * 8)
    (hbest : bestRun (words src) = some r) (hpos : 2 ≤ r.len)
    (hws : words src = pre ++ (List.replicate r.len 0 ++ post)) (hpre : pre.length = r.base)
    (henc : r.encapsulates (words src) = false) :
    Good g src (join pre ++ colon :: colon :: join post) := by
  obtain ⟨hlen, hbytes, hle⟩ := words_spec hsrc
  rw [hws] at hbytes hle
  have hlepre : ∀ w ∈ pre, w ≤ 0xffff := fun w hw => hle w (by simp [hw])
  have hlepost : ∀ w ∈ post, w ≤ 0xffff := fun w hw => hle w (by simp [hw])
  have hsum : pre.length + (r.len + post.length) = 8 := by
    rw [← hlen, hws]
    simp
  have hcolon : nul ≠ colon := by decide
  refine ⟨inet6Text_compressed hbest hlen (by omega) hws hpre henc, ?_, ?_, ?_⟩
  · have hjpre := join_length_le hlepre
    have hjpost := join_length_le hlepost
    rw [show tmpSize = 46 by decide, List.length_append, List.length_cons, List.length_cons]
    omega
  · simp [nul_not_mem_join, hcolon]
  · have htotal : (wordsBytes pre ++ wordsBytes post).length = 2 * (pre.length + post.length) := by
      rw [List.length_append, wordsBytes_length, wordsBytes_length]
      omega
    have hsize : IN6ADDRSZ = 16 := rfl
    have hgap : IN6ADDRSZ - 2 * (pre.length + post.length) = 2 * r.len := by omega
    rw [inetPton6_compressed g hlepre hlepost (by omega), end_compressed _ _ (by omega), htotal, hgap, ← hbytes,
      wordsBytes_append, wordsBytes_append, wordsBytes_replicate, List.append_assoc]

theorem good_mapped {r : Run} {mid tail : List Nat} (hsrc : src.length = 2 * 8)
    (hbest : bestRun (words src) = some r) (henc : r.encapsulates (words src) = true)
    (hws : words src = List.replicate r.len 0 ++ (mid ++ tail)) (hmid : r.len + mid.length = 6)
    (htail : tail.length = 2) :
    Good g src (colon :: (sep mid ++ colon :: dotted (src.drop 12))) := by
  obtain ⟨hlen, hbytes, hle⟩ := words_spec hsrc
  rw [hws] at hbytes hle
  have hlemid : ∀ w ∈ mid, w ≤ 0xffff := fun w hw => hle w (by simp [hw])
  have hcolon : nul ≠ colon := by decide
  rw [wordsBytes_append, wordsBytes_append, wordsBytes_replicate] at hbytes
  have hv : src.drop 12 = wordsBytes tail := by
    have hfront : (zeros (2 * r.len) ++ wordsBytes mid).length = 12 := by
      rw [List.length_append, zeros_length, wordsBytes_length]
      omega
    rw [← hbytes, ← List.append_assoc]
    exact List.drop_left' hfront
  have hvlen : (wordsBytes tail).length = 4 := by rw [wordsBytes_length, htail]
  refine ⟨inet6Text_mapped hbest henc hws hmid htail hlemid, ?_, ?_, ?_⟩
  · have hsep := sep_length_le hlemid
    have hdotted := dotted_length_le (src.drop 12)
    obtain ⟨-, hcases⟩ := encapsulates_cases henc
    rw [show tmpSize = 46 by decide, List.length_cons, List.length_append, List.length_cons]
    omega
  · simp [nul_not_mem_sep, nul_not_mem_dotted, hcolon]
  · obtain ⟨b₀, b₁, b₂, b₃, hb⟩ := exists_four hvlen
    rw [hv, hb]
    rw [hb] at hbytes hvlen
    have hdone : (wordsBytes mid).length = 2 * mid.length := wordsBytes_length mid
    have hsize : IN6ADDRSZ = 16 := rfl
    -- the scan from "::" on, with or without a word in front of the dotted quad
    have hscan : inetPton6 g (colon :: (sep mid ++ colon :: dotted [b₀, b₁, b₂, b₃])) =
        inetPton6End (scan (wordsBytes mid ++ [b₀, b₁, b₂, b₃]) (some 0) [] false 0) := by
      cases mid with
      | nil =>
        exact (inetPton6_colons g [] _ nofun (by decide)).trans
          (finish_dotted g b₀ b₁ b₂ b₃ (by decide))
      | cons w mid =>
        have hsep : colon :: (sep (w :: mid) ++ colon :: dotted [b₀, b₁, b₂, b₃]) =
            join [] ++ colon :: colon :: (join (w :: mid) ++ colon :: dotted [b₀, b₁, b₂, b₃]) := by
          simp [join_cons, sep, join]
        obtain ⟨-, hcases⟩ := encapsulates_cases henc
        rw [hsep, inetPton6_colons g [] _ nofun (by decide), loop_join g _ _ _ _ (List.cons_ne_nil w mid) hlemid
          (by show 0 + 2 * (w :: mid).length ≤ IN6ADDRSZ; omega)]
        exact finish_dotted g b₀ b₁ b₂ b₃ (by show (wordsBytes (w :: mid)).length + 4 ≤ IN6ADDRSZ; omega)
    obtain ⟨-, hcases⟩ := encapsulates_cases henc
    have hback : (wordsBytes mid ++ [b₀, b₁, b₂, b₃]).length = 2 * mid.length + 4 := by
      rw [List.length_append, hdone]
      rfl
    have hend := end_compressed [] (wordsBytes mid ++ [b₀, b₁, b₂, b₃])
      (by rw [List.nil_append, hback]; omega)
    rw [List.nil_append, hback, List.length_nil, List.nil_append,
      show IN6ADDRSZ - (2 * mid.length + 4) = 2 * r.len by omega, hbytes] at hend
    rw [hscan, hend]

/-- Every address has such a text. -/
theorem exists_good (src : List Byte) (hsrc : src.length = 2 * 8) : ∃ text, Good g src text := by
  obtain ⟨hlen, -, -⟩ := words_spec hsrc
  cases hbest : bestRun (words src) with
  | none => exact ⟨_, good_plain g hsrc hbest⟩
  | some r =>
    obtain ⟨htwo, hzero⟩ := zeroRun_of_mem_bestRun (show r ∈ bestRun (words src) from hbest)
    obtain ⟨pre, post, hws, hpre, hpost⟩ := split_run hzero
    cases henc : r.encapsulates (words src) with
    | false => exact ⟨_, good_compressed g hsrc hbest htwo hws hpre henc⟩
    | true =>
      obtain ⟨hbase, hcases⟩ := encapsulates_cases henc
      obtain rfl : pre = [] := List.eq_nil_of_length_eq_zero (by omega)
      rw [List.nil_append, ← List.take_append_drop (6 - r.len) post] at hws
      exact ⟨_, good_mapped g hsrc hbest henc hws (by rw [List.length_take]; omega)
        (by rw [List.length_drop]; omega)⟩

end Good

/-- Every IPv6 address survives inet_ntop6 and inet_pton6: the text fits the 46 bytes of
tmp with its NUL, and reading it gives the address back. -/
theorem inet6_roundtrip (garbage : InAddr) (src : In6Addr) :
    ∃ out, inetNtop6 src.toList tmpSize = some out ∧ out.length ≤ tmpSize ∧
      inetPton6 garbage (cstr out) = some src.toList := by
  obtain ⟨text, h⟩ := exists_good garbage src.toList src.toList_length
  have hfits := h.fits
  have hsize : (text ++ [nul]).length ≤ tmpSize := by
    rw [List.length_append, List.length_singleton]
    omega
  refine ⟨text ++ [nul], ?_, hsize, ?_⟩
  · rw [inetNtop6, h.made, Option.bind_some]
    simp only [if_neg (Nat.not_lt.mpr hsize)]
  · rw [cstr_snoc_nul h.clean]
    exact h.read

/-- In an address of all eight words "::" is accepted, and what stands behind it is read
as zeros. -/
theorem inetPton6_full (garbage : InAddr) (pre post : List Nat) (hpre : ∀ w ∈ pre, w ≤ 0xffff)
    (hpost : ∀ w ∈ post, w ≤ 0xffff) (hlen : pre.length + post.length = 8) :
    inetPton6 garbage (join pre ++ colon :: colon :: join post) =
      some (wordsBytes pre ++ zeros (2 * post.length)) := by
  have hfull : (wordsBytes pre ++ wordsBytes post).length = IN6ADDRSZ := by
    rw [List.length_append, wordsBytes_length, wordsBytes_length, show IN6ADDRSZ = 16 from rfl]
    omega
  rw [inetPton6_compressed garbage hpre hpost (by rw [hlen]; decide), end_compressed_full hfull,
    wordsBytes_length]

theorem inetPton6_full_eight :
    inetPton6 (List.Vector.replicate 4 0) (Decimal.ascii "1:2:3:4:5:6:7::8") =
      some [0, 1, 0, 2, 0, 3, 0, 4, 0, 5, 0, 6, 0, 7, 0, 0] :=
  inetPton6_full _ [1, 2, 3, 4, 5, 6, 7] [8] (by decide) (by decide) rfl

/-- inet_ntop4 tests the length of the text without its NUL, so that it writes past the
end of dst exactly when size is that length; inet_ntop6 counts the NUL and never does. -/
theorem inetNtop4_overruns_iff :
    (∀ (src : InAddr) (size : Nat),
      (∃ out, inetNtop4 src.toList size = some out ∧ size < out.length) ↔
        size = (dotted src.toList).length) ∧
    ∀ (src : In6Addr) (size : Nat) (out : List Byte),
      inetNtop6 src.toList size = some out → out.length ≤ size := by
  constructor
  · intro src size
    constructor
    · rintro ⟨out, hout, hlt⟩
      simp only [inetNtop4] at hout
      split at hout
      · cases hout
      · rename_i hge
        obtain rfl := Option.some.inj hout
        rw [List.length_append, List.length_singleton] at hlt
        omega
    · intro hsize
      refine ⟨dotted src.toList ++ [nul], ?_, by rw [hsize]; simp⟩
      simp only [inetNtop4]
      rw [if_neg (by omega)]
  · intro src size out hout
    obtain ⟨text, -, htext⟩ := Option.bind_eq_some_iff.mp hout
    simp only at htext
    split at htext
    · cases htext
    · rename_i hge
      rw [← Option.some.inj htext]
      omega

end LinuxPractice.Address
