import LinuxPractice.Address.Dotted

namespace LinuxPractice.Address

open Echo (Byte)

/-- A word in network order. -/
def wordBytes (w : Nat) : List Byte := [UInt8.ofNat (w >>> 8), UInt8.ofNat w]

def wordsBytes (ws : List Nat) : List Byte := ws.flatMap wordBytes

@[simp] theorem wordsBytes_length (ws : List Nat) : (wordsBytes ws).length = 2 * ws.length := by
  induction ws with
  | nil => rfl
  | cons w ws ih =>
    simp only [wordsBytes, List.flatMap_cons, List.length_append] at ih ⊢
    simp only [ih, wordBytes, List.length_cons, List.length_nil]
    omega

/-- Words in hexadecimal with colons between them. -/
def join : List Nat → List Byte
  | [] => []
  | [w] => hex w
  | w :: ws => hex w ++ colon :: join ws

def zeros (n : Nat) : List Byte := List.replicate n 0

@[simp] theorem zeros_length (n : Nat) : (zeros n).length = n := List.length_replicate

/-- Bytes at the start of a tmp that is zero behind them. -/
def fill (done : List Byte) : List Byte := done ++ zeros (IN6ADDRSZ - done.length)

/-- The state with done written to tmp. -/
def scan (done : List Byte) (colonp : Option Nat) (curtok : List Byte) (saw : Bool) (val : Nat) : Scan :=
  ⟨fill done, done.length, colonp, curtok, saw, val⟩

section Digits

theorem xdigit_digitChar {d : Nat} (h : d < 16) : xdigit (Nat.digitChar d).toUInt8 = some d := by
  interval_cases d <;> rfl

theorem xdigit_colon : xdigit colon = none := by decide

theorem xdigit_dot : xdigit dot = none := by decide

theorem hex_of_lt {n : Nat} (h : n < 16) : hex n = [(Nat.digitChar n).toUInt8] := by
  rw [hex, Nat.toDigits_of_lt_base h, List.map_singleton]

theorem hex_of_le {n : Nat} (h : 16 ≤ n) :
    hex n = hex (n / 16) ++ [(Nat.digitChar (n % 16)).toUInt8] := by
  rw [hex, Nat.toDigits_of_base_le (by decide) h, List.map_append, List.map_singleton, hex]

/-- One more hexadecimal digit. -/
theorem shift_or {v d : Nat} (h : d < 16) : v <<< 4 ||| d = 16 * v + d := by
  rw [← Nat.shiftLeft_add_eq_or_of_lt (i := 4) h, Nat.shiftLeft_eq]
  omega

variable (g : InAddr)

theorem loop_xdigit {s : Scan} {d : Nat} (src : List Byte) (hd : d < 16) (hv : 16 * s.val + d ≤ 0xffff) :
    inetPton6Loop g s ((Nat.digitChar d).toUInt8 :: src) =
      inetPton6Loop g { s with val := 16 * s.val + d, sawXdigit := true } src := by
  rw [inetPton6Loop]
  simp only [xdigit_digitChar hd, shift_or hd]
  rw [if_neg (by omega)]

/-- The loop on a word in hexadecimal. -/
theorem loop_hex {w : Nat} (s : Scan) (src : List Byte) (hw : w ≤ 0xffff) (hv : s.val = 0) :
    inetPton6Loop g s (hex w ++ src) =
      inetPton6Loop g { s with val := w, sawXdigit := true } src := by
  induction w using Nat.strongRecOn generalizing src with
  | ind w ih =>
    by_cases hlt : w < 16
    · rw [hex_of_lt hlt, List.singleton_append, loop_xdigit g src hlt (by omega), hv]
      simp
    · have hle : 16 ≤ w := by omega
      have hmod : 16 * (w / 16) + w % 16 = w := by omega
      rw [hex_of_le hle, List.append_assoc, ih (w / 16) (by omega) _ (by omega), List.singleton_append,
        loop_xdigit g src (by omega) (by show 16 * (w / 16) + w % 16 ≤ 0xffff; omega)]
      simp only [hmod]

end Digits

section Colons

variable (g : InAddr)

theorem fill_store {done : List Byte} (w : Nat) (h : done.length + 2 ≤ IN6ADDRSZ) :
    ((fill done).set done.length (UInt8.ofNat (w >>> 8))).set (done.length + 1) (UInt8.ofNat w) =
      fill (done ++ wordBytes w) := by
  obtain ⟨k, hk⟩ := Nat.exists_eq_add_of_le h
  have hz : zeros (IN6ADDRSZ - done.length) = 0 :: 0 :: zeros k := by
    rw [show IN6ADDRSZ - done.length = k + 2 by omega, zeros, List.replicate_succ, List.replicate_succ, zeros]
  have hz' : zeros (IN6ADDRSZ - (done ++ wordBytes w).length) = zeros k := by
    congr 1
    simp only [wordBytes, List.length_append, List.length_cons, List.length_nil]
    omega
  rw [fill, fill, hz, hz', wordBytes]
  simp

theorem store_scan {done : List Byte} {colonp : Option Nat} {curtok : List Byte} {saw : Bool} {w : Nat}
    (h : done.length + 2 ≤ IN6ADDRSZ) :
    (scan done colonp curtok saw w).store = scan (done ++ wordBytes w) colonp curtok saw w := by
  simp only [Scan.store, scan, fill_store w h, INT16SZ, List.length_append]
  rfl

/-- A colon behind a word stores it. -/
theorem loop_colon (done : List Byte) (colonp : Option Nat) (curtok : List Byte) (w : Nat)
    (src : List Byte) (h : done.length + 2 ≤ IN6ADDRSZ) :
    inetPton6Loop g (scan done colonp curtok true w) (colon :: src) =
      inetPton6Loop g (scan (done ++ wordBytes w) colonp src false 0) src := by
  have hle : ¬IN6ADDRSZ < (scan done colonp curtok true w).tp + INT16SZ := Nat.not_lt.mpr h
  have hsaw : ¬¬(scan done colonp curtok true w).sawXdigit = true := not_not.mpr rfl
  rw [inetPton6Loop]
  simp only [xdigit_colon, if_true, if_neg hle, if_neg hsaw, store_scan h]
  rfl

/-- The first colon with no word in front of it is taken for the place of the zeros. -/
theorem loop_colons (done curtok src : List Byte) :
    inetPton6Loop g (scan done none curtok false 0) (colon :: src) =
      inetPton6Loop g (scan done (some done.length) src false 0) src := by
  rw [inetPton6Loop]
  simp only [xdigit_colon, if_true, scan]
  rfl

theorem join_cons_cons (w w' : Nat) (ws : List Nat) :
    join (w :: w' :: ws) = hex w ++ colon :: join (w' :: ws) := rfl

/-- The loop on words that all have a colon behind them. -/
theorem loop_join {ws : List Nat} (done : List Byte) (colonp : Option Nat) (curtok src : List Byte)
    (hne : ws ≠ []) (hws : ∀ w ∈ ws, w ≤ 0xffff) (hlen : done.length + 2 * ws.length ≤ IN6ADDRSZ) :
    inetPton6Loop g (scan done colonp curtok false 0) (join ws ++ colon :: src) =
      inetPton6Loop g (scan (done ++ wordsBytes ws) colonp src false 0) src := by
  induction ws generalizing done curtok with
  | nil => exact absurd rfl hne
  | cons w ws ih =>
    have hw := hws w List.mem_cons_self
    rw [List.length_cons] at hlen
    cases ws with
    | nil =>
      rw [join, loop_hex g _ _ hw rfl]
      exact loop_colon g done colonp curtok w src (by omega)
    | cons w' ws =>
      rw [join_cons_cons, List.append_assoc, List.cons_append, loop_hex g _ _ hw rfl]
      have hcolon := loop_colon g done colonp curtok w (join (w' :: ws) ++ colon :: src) (by omega)
      have hrest := ih (done ++ wordBytes w) (join (w' :: ws) ++ colon :: src) (List.cons_ne_nil _ _)
        (fun x hx => hws x (List.mem_cons_of_mem w hx))
        (by simp only [wordBytes, List.length_append, List.length_cons, List.length_nil] at hlen ⊢; omega)
      rw [List.append_assoc] at hrest
      exact hcolon.trans hrest

theorem end_scan (done : List Byte) (colonp : Option Nat) (curtok : List Byte) {w : Nat}
    (h : done.length + 2 ≤ IN6ADDRSZ) :
    inetPton6End (scan done colonp curtok true w) =
      inetPton6End (scan (done ++ wordBytes w) colonp [] false 0) := by
  have hle : ¬((scan done colonp curtok true w).sawXdigit = true ∧
      IN6ADDRSZ < (scan done colonp curtok true w).tp + INT16SZ) := fun hc => Nat.not_lt.mpr h hc.2
  have hsaw : (scan done colonp curtok true w).sawXdigit = true := rfl
  rw [inetPton6End, if_neg hle, if_pos hsaw, store_scan h]
  rfl

/-- The text ends with words: what they say is in tmp when the loop is left. -/
theorem finish_join {ws : List Nat} (done : List Byte) (colonp : Option Nat) (curtok : List Byte)
    (hws : ∀ w ∈ ws, w ≤ 0xffff) (hlen : done.length + 2 * ws.length ≤ IN6ADDRSZ) :
    (inetPton6Loop g (scan done colonp curtok false 0) (join ws)).bind inetPton6End =
      inetPton6End (scan (done ++ wordsBytes ws) colonp [] false 0) := by
  obtain rfl | ⟨init, w, rfl⟩ := List.eq_nil_or_concat' ws
  · rw [join, inetPton6Loop, Option.bind_some, wordsBytes, List.flatMap_nil, List.append_nil]
    rfl
  · have hw := hws w (by simp)
    rw [List.length_append, List.length_singleton] at hlen
    have hlast : ∀ d tok, d.length + 2 ≤ IN6ADDRSZ →
        (inetPton6Loop g (scan d colonp tok false 0) (hex w)).bind inetPton6End =
          inetPton6End (scan (d ++ wordBytes w) colonp [] false 0) := by
      intro d tok hd
      rw [← List.append_nil (hex w), loop_hex g _ _ hw rfl, inetPton6Loop, Option.bind_some]
      exact end_scan d colonp tok hd
    cases init with
    | nil =>
      rw [List.nil_append, join, hlast _ _ (by omega)]
      simp [wordsBytes]
    | cons v init =>
      have hjoin : join ((v :: init) ++ [w]) = join (v :: init) ++ colon :: hex w := by
        clear hws hlen hlast
        induction init generalizing v with
        | nil => rfl
        | cons u init ih =>
          rw [List.cons_append, List.cons_append, join_cons_cons, join_cons_cons, ← List.cons_append, ih]
          simp
      rw [hjoin, loop_join g done colonp curtok (hex w) (List.cons_ne_nil _ _)
        (fun x hx => hws x (List.mem_append_left _ hx)) (by omega), hlast _ _ (by simp; omega)]
      simp [wordsBytes]

end Colons

section Shift

theorem zeros_succ (n : Nat) : zeros (n + 1) = zeros n ++ [0] := List.replicate_succ'

theorem zeros_cons (n : Nat) : zeros (n + 1) = 0 :: zeros n := rfl

/-- One round of the shift: the last byte in front of a gap goes to the end of the gap. -/
theorem shift_round (front back : List Byte) (x : Byte) (gap : Nat) :
    ((front ++ x :: zeros (gap + 1) ++ back).set (front.length + (gap + 1)) x).set front.length 0 =
      front ++ zeros (gap + 1) ++ x :: back := by
  have hset : (front ++ x :: zeros (gap + 1) ++ back).set (front.length + (gap + 1)) x =
      front ++ x :: zeros gap ++ x :: back := by
    have hlen : front.length + (gap + 1) = (front ++ x :: zeros gap).length := by simp
    rw [zeros_succ, hlen]
    simp
  rw [hset, zeros_cons]
  simp

/-- After i rounds the last i of the bytes are at the end of tmp. -/
theorem shift_gap {done : List Byte} {p i : Nat} (hp : p ≤ done.length) (hlt : done.length < IN6ADDRSZ)
    (hi : i ≤ done.length - p) :
    shift p (done.length - p) i (fill done) =
      done.take (done.length - i) ++ zeros (IN6ADDRSZ - done.length) ++ done.drop (done.length - i) := by
  induction i with
  | zero => simp [shift, fill]
  | succ i ih =>
    obtain ⟨gap, hgap⟩ : ∃ gap, IN6ADDRSZ - done.length = gap + 1 :=
      ⟨IN6ADDRSZ - done.length - 1, by omega⟩
    obtain ⟨k, hk⟩ : ∃ k, done.length - i = k + 1 := ⟨done.length - i - 1, by omega⟩
    have hkd : k < done.length := by omega
    have htake : done.take (k + 1) = done.take k ++ [done[k]] := by
      rw [List.take_add_one, List.getElem?_eq_getElem hkd]
      rfl
    have hfront : (done.take k).length = k := by
      rw [List.length_take]
      omega
    have hsrc : p + (done.length - p - (i + 1)) = k := by omega
    have hdst : IN6ADDRSZ - (i + 1) = k + (gap + 1) := by omega
    have hget : (done.take k ++ done[k] :: zeros (gap + 1) ++ done.drop (k + 1)).getD k 0 = done[k] := by
      rw [List.getD_eq_getElem?_getD, List.append_assoc, List.getElem?_append_right (by omega), hfront]
      simp
    have hform : done.take k ++ [done[k]] ++ zeros (gap + 1) ++ done.drop (k + 1) =
        done.take k ++ done[k] :: zeros (gap + 1) ++ done.drop (k + 1) := by
      rw [List.append_assoc (done.take k) [done[k]], List.singleton_append]
    have hround := shift_round (done.take k) (done.drop (k + 1)) done[k] gap
    rw [hfront] at hround
    rw [shift, ih (by omega), hk, hgap, hsrc, hdst, htake, hform, hget, hround,
      show done.length - (i + 1) = k by omega, List.drop_eq_getElem_cons hkd]

/-- With no gap every byte is put where it is and then cleared. -/
theorem shift_full {done : List Byte} {p i : Nat} (hp : p ≤ done.length)
    (hlen : done.length = IN6ADDRSZ) (hi : i ≤ done.length - p) :
    shift p (done.length - p) i done = done.take (done.length - i) ++ zeros i := by
  induction i with
  | zero => simp [shift, zeros]
  | succ i ih =>
    obtain ⟨k, hk⟩ : ∃ k, done.length - i = k + 1 := ⟨done.length - i - 1, by omega⟩
    have hkd : k < done.length := by omega
    have htake : done.take (k + 1) = done.take k ++ [done[k]] := by
      rw [List.take_add_one, List.getElem?_eq_getElem hkd]
      rfl
    have hfront : (done.take k).length = k := by
      rw [List.length_take]
      omega
    have hsrc : p + (done.length - p - (i + 1)) = k := by omega
    have hdst : IN6ADDRSZ - (i + 1) = k := by omega
    have hset : ∀ b : Byte, (done.take k ++ [done[k]] ++ zeros i).set k b = done.take k ++ b :: zeros i := by
      intro b
      rw [List.append_assoc, List.set_append, if_neg (by omega), hfront]
      simp
    have hset' : ∀ b : Byte, (done.take k ++ b :: zeros i).set k 0 = done.take k ++ 0 :: zeros i := by
      intro b
      rw [List.set_append, if_neg (by omega), hfront]
      simp
    rw [shift, ih (by omega), hk, hsrc, hdst, htake, hset, hset',
      show done.length - (i + 1) = k by omega, zeros_cons]

end Shift

section Compressed

variable (g : InAddr)

/-- The end of a scan that saw "::" behind the bytes front. -/
theorem end_compressed (front back : List Byte) (hlen : (front ++ back).length < IN6ADDRSZ) :
    inetPton6End (scan (front ++ back) (some front.length) [] false 0) =
      some (front ++ zeros (IN6ADDRSZ - (front ++ back).length) ++ back) := by
  have hp : front.length ≤ (front ++ back).length := by simp
  have hfront : (front ++ back).length - ((front ++ back).length - front.length) = front.length := by
    omega
  have hgap := shift_gap hp hlen (Nat.le_refl _)
  rw [hfront, List.take_left, List.drop_left] at hgap
  exact congrArg some hgap

theorem end_compressed_full {front back : List Byte} (hlen : (front ++ back).length = IN6ADDRSZ) :
    inetPton6End (scan (front ++ back) (some front.length) [] false 0) =
      some (front ++ zeros back.length) := by
  have hp : front.length ≤ (front ++ back).length := by simp
  have hfront : (front ++ back).length - ((front ++ back).length - front.length) = front.length := by
    omega
  have hback : (front ++ back).length - front.length = back.length := by simp
  have hfill : fill (front ++ back) = front ++ back := by simp [fill, hlen, zeros]
  have hfull := shift_full hp hlen (Nat.le_refl _)
  rw [hfront, List.take_left, hback] at hfull
  have hend : inetPton6End (scan (front ++ back) (some front.length) [] false 0) =
      some (shift front.length ((front ++ back).length - front.length)
        ((front ++ back).length - front.length) (fill (front ++ back))) := rfl
  rw [hend, hfill, hback, hfull]

theorem digitChar_ne_colon {d : Nat} (h : d < 16) : (Nat.digitChar d).toUInt8 ≠ colon := by
  interval_cases d <;> decide

theorem hex_head (w : Nat) : ∃ d rest, d < 16 ∧ hex w = (Nat.digitChar d).toUInt8 :: rest := by
  induction w using Nat.strongRecOn with
  | ind w ih =>
    by_cases h : w < 16
    · exact ⟨w, [], h, hex_of_lt h⟩
    · obtain ⟨d, rest, hd, hr⟩ := ih (w / 16) (by omega)
      exact ⟨d, rest ++ [(Nat.digitChar (w % 16)).toUInt8], hd, by rw [hex_of_le (by omega), hr]; rfl⟩

/-- A text that starts with a word needs none of the special handling. -/
theorem inetPton6_hex (w : Nat) (src : List Byte) :
    inetPton6 g (hex w ++ src) =
      (inetPton6Loop g (scan [] none (hex w ++ src) false 0) (hex w ++ src)).bind inetPton6End := by
  obtain ⟨d, rest, hd, hr⟩ := hex_head w
  rw [hr]
  simp only [inetPton6, List.cons_append, if_neg (digitChar_ne_colon hd)]
  rfl

theorem inetPton6_join {ws : List Nat} (src : List Byte) (hne : ws ≠ []) :
    inetPton6 g (join ws ++ src) =
      (inetPton6Loop g (scan [] none (join ws ++ src) false 0) (join ws ++ src)).bind inetPton6End := by
  cases ws with
  | nil => exact absurd rfl hne
  | cons w ws =>
    cases ws with
    | nil => exact inetPton6_hex g w src
    | cons w' ws =>
      rw [join_cons_cons, List.append_assoc]
      exact inetPton6_hex g w _

/-- The scan up to and with "::", at the start of the text or behind some words. -/
theorem inetPton6_colons (pre : List Nat) (src : List Byte) (hpre : ∀ w ∈ pre, w ≤ 0xffff)
    (hlen : 2 * pre.length ≤ IN6ADDRSZ) :
    inetPton6 g (join pre ++ colon :: colon :: src) =
      (inetPton6Loop g (scan (wordsBytes pre) (some (wordsBytes pre).length) src false 0) src).bind
        inetPton6End := by
  by_cases hne : pre = []
  · subst hne
    rw [join, List.nil_append, inetPton6]
    simp only [if_true, List.head?_cons]
    rw [show (⟨List.replicate IN6ADDRSZ 0, 0, none, colon :: src, false, 0⟩ : Scan) =
      scan [] none (colon :: src) false 0 from rfl, loop_colons]
    rfl
  · rw [inetPton6_join g _ hne, loop_join g _ _ _ _ hne hpre (by simpa using hlen), List.nil_append,
      loop_colons]

/-- Words on both sides of "::". -/
theorem inetPton6_compressed {pre post : List Nat} (hpre : ∀ w ∈ pre, w ≤ 0xffff)
    (hpost : ∀ w ∈ post, w ≤ 0xffff) (hlen : 2 * (pre.length + post.length) ≤ IN6ADDRSZ) :
    inetPton6 g (join pre ++ colon :: colon :: join post) =
      inetPton6End (scan (wordsBytes pre ++ wordsBytes post) (some (wordsBytes pre).length) [] false 0) := by
  rw [inetPton6_colons g pre _ hpre (by omega), finish_join g _ _ _ hpost]
  rw [wordsBytes_length]
  omega

/-- Words and nothing else. -/
theorem inetPton6_words {ws : List Nat} (hws : ∀ w ∈ ws, w ≤ 0xffff) (hlen : ws.length = 8) :
    inetPton6 g (join ws) = some (wordsBytes ws) := by
  have hne : ws ≠ [] := by
    intro h
    rw [h] at hlen
    cases hlen
  have h16 : (wordsBytes ws).length = IN6ADDRSZ := by
    rw [wordsBytes_length, hlen]
    rfl
  rw [← List.append_nil (join ws), inetPton6_join g _ hne, List.append_nil,
    finish_join g _ _ _ hws (by rw [hlen]; decide), List.nil_append]
  simp [inetPton6End, scan, fill, h16, zeros]

end Compressed

end LinuxPractice.Address
