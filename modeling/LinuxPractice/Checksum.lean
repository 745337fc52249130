import LinuxPractice.Math.OnesComplement
import Mathlib.Data.UInt

namespace LinuxPractice.Checksum

open OnesComplement (fold fold_le exists_fold fold_eq_zero eq_fold)

/-- The byte order of the host. -/
inductive Order
  | little
  | big
  deriving DecidableEq

/-- The uint16_t whose bytes in memory are b₀ and b₁. -/
def Order.word : Order → UInt8 → UInt8 → Nat
  | .little, b₀, b₁ => b₀.toNat + 256 * b₁.toNat
  | .big, b₀, b₁ => 256 * b₀.toNat + b₁.toNat

/-- The bytes of a uint16_t in memory. -/
def Order.bytes : Order → UInt16 → List UInt8
  | .little, a => [UInt8.ofNat a.toNat, UInt8.ofNat (a.toNat / 256)]
  | .big, a => [UInt8.ofNat (a.toNat / 256), UInt8.ofNat a.toNat]

/-- The words are added to sum, an odd byte at the end as the first byte of one. -/
def addWords (order : Order) : List UInt8 → UInt32 → UInt32
  | b₀ :: b₁ :: data, sum => addWords order data (sum + UInt32.ofNat (order.word b₀ b₁))
  | [b], sum => sum + UInt32.ofNat (order.word b 0)
  | [], sum => sum

def inCksum (order : Order) (data : List UInt8) : UInt16 :=
  let sum := addWords order data 0
  let sum := (sum >>> 16) + (sum &&& 0xffff)
  let sum := sum + (sum >>> 16)
  (~~~sum).toUInt16

/-- The sum of the words in as many bits as it takes. -/
def wordSum (order : Order) : List UInt8 → Nat
  | b₀ :: b₁ :: data => order.word b₀ b₁ + wordSum order data
  | [b] => order.word b 0
  | [] => 0

theorem toNat_addWords (order : Order) (data : List UInt8) (sum : UInt32) :
    (addWords order data sum).toNat = (sum.toNat + wordSum order data) % 2 ^ 32 := by
  induction data using wordSum.induct generalizing sum with
  | case1 b₀ b₁ data ih =>
    rw [addWords, wordSum, ih, UInt32.toNat_add, UInt32.toNat_ofNat']
    omega
  | case2 b =>
    rw [addWords, wordSum, UInt32.toNat_add, UInt32.toNat_ofNat']
    omega
  | case3 =>
    rw [addWords, wordSum]
    have h := sum.toNat_lt
    omega

/-- The carries are added back as the code does it. -/
theorem toNat_folded (sum : UInt32) :
    (sum >>> 16 + (sum &&& 0xffff)).toNat = OnesComplement.halves sum.toNat := by
  have hlt := sum.toNat_lt
  have hand : (sum &&& 0xffff).toNat = sum.toNat % 65536 := by
    rw [UInt32.toNat_and]
    exact Nat.and_two_pow_sub_one_eq_mod sum.toNat 16
  have hshift : (sum >>> 16).toNat = sum.toNat / 65536 := by
    rw [UInt32.toNat_shiftRight]
    exact Nat.shiftRight_eq_div_pow sum.toNat 16
  rw [UInt32.toNat_add, hand, hshift, OnesComplement.halves]
  omega

/-- What in_cksum returns: the complement of the folded sum, taken modulo 2^32. -/
theorem toNat_inCksum (order : Order) (data : List UInt8) :
    (inCksum order data).toNat = 65535 - fold (wordSum order data % 2 ^ 32) := by
  have hsum := toNat_addWords order data 0
  rw [UInt32.toNat_zero, Nat.zero_add] at hsum
  obtain ⟨h, hh⟩ : ∃ h : UInt32, h = addWords order data 0 >>> 16 + (addWords order data 0 &&& 0xffff) :=
    ⟨_, rfl⟩
  have hhalves : h.toNat = OnesComplement.halves (wordSum order data % 2 ^ 32) := by
    rw [hh, toNat_folded, hsum]
  have hle : h.toNat ≤ 131070 := by
    rw [hhalves]
    unfold OnesComplement.halves
    omega
  have hcarry : (h + h >>> 16).toNat = h.toNat + h.toNat / 65536 := by
    have hshift : (h >>> 16).toNat = h.toNat / 65536 := by
      rw [UInt32.toNat_shiftRight]
      exact Nat.shiftRight_eq_div_pow h.toNat 16
    rw [UInt32.toNat_add, hshift]
    omega
  have hanswer : inCksum order data = (~~~(h + h >>> 16)).toUInt16 := by rw [inCksum, hh]
  rw [hanswer, UInt32.toNat_toUInt16, UInt32.toNat_not, hcarry, fold, ← hhalves]
  simp only [UInt32.size]
  omega

theorem word_bytes (order : Order) (a : UInt16) (data : List UInt8) :
    wordSum order (order.bytes a ++ data) = a.toNat + wordSum order data := by
  have ha := a.toNat_lt
  cases order with
  | little =>
    simp only [Order.bytes, List.cons_append, List.nil_append, wordSum, Order.word, UInt8.toNat_ofNat']
    omega
  | big =>
    simp only [Order.bytes, List.cons_append, List.nil_append, wordSum, Order.word, UInt8.toNat_ofNat']
    omega

theorem wordSum_append (order : Order) (pre data : List UInt8) (h : pre.length % 2 = 0) :
    wordSum order (pre ++ data) = wordSum order pre + wordSum order data := by
  induction pre using wordSum.induct with
  | case1 b₀ b₁ pre ih =>
    rw [List.cons_append, List.cons_append, wordSum, wordSum, ih (by simp at h; omega)]
    omega
  | case2 b => simp at h
  | case3 => simp [wordSum]

/-- Whatever the length of the data, 32 bits are enough for the checksum to verify: the sum
with it is the largest multiple of 65535 that they hold, or a smaller one. -/
theorem sum_add_complement {s : Nat} (hs : s < 2 ^ 32) :
    s + (65535 - fold s) < 2 ^ 32 ∧ fold (s + (65535 - fold s)) = 65535 := by
  obtain ⟨q, hq⟩ := exists_fold hs
  have hle := fold_le s
  have hz := fold_eq_zero hs
  have hlt : s + (65535 - fold s) < 2 ^ 32 := by omega
  refine ⟨hlt, eq_fold (k := q) (m := 0) hlt (Nat.le_refl _) ?_ ?_⟩
  · omega
  · omega

/-- A packet with its checksum in place verifies, whatever its length and wherever the field
is: in_cksum of it is 0. -/
theorem inCksum_verifies (order : Order) (pre post : List UInt8) (h : pre.length % 2 = 0) :
    inCksum order (pre ++ order.bytes (inCksum order (pre ++ [0, 0] ++ post)) ++ post) = 0 := by
  obtain ⟨sum, hsum⟩ : ∃ sum, sum = wordSum order pre + wordSum order post := ⟨_, rfl⟩
  have hzero : wordSum order (pre ++ [0, 0] ++ post) = sum := by
    have hword : order.word 0 0 = 0 := by cases order <;> rfl
    rw [List.append_assoc, wordSum_append order _ _ h, hsum]
    simp [wordSum, hword]
  have hanswer := toNat_inCksum order (pre ++ [0, 0] ++ post)
  rw [hzero] at hanswer
  obtain ⟨hlt, hfold⟩ := sum_add_complement (Nat.mod_lt sum (by decide : 0 < 2 ^ 32))
  apply UInt16.toNat.inj
  rw [toNat_inCksum, List.append_assoc, wordSum_append order _ _ h, word_bytes, hanswer]
  have htotal : (wordSum order pre + (65535 - fold (sum % 2 ^ 32) + wordSum order post)) % 2 ^ 32 =
      sum % 2 ^ 32 + (65535 - fold (sum % 2 ^ 32)) := by omega
  rw [htotal, hfold]
  rfl

/-- The header of an ICMP echo request with an odd byte of data. -/
theorem inCksum_verifies_echo :
    inCksum .big [8, 0, 0x84, 0xca, 0x12, 0x34, 0, 1, 0x61] = 0 :=
  inCksum_verifies .big [8, 0] [0x12, 0x34, 0, 1, 0x61] rfl

/-- Swapping the bytes of all words is multiplication by 256 modulo 65535. -/
theorem wordSum_swap (data : List UInt8) :
    ∃ k, wordSum .big data + 65535 * k = 256 * wordSum .little data := by
  induction data using wordSum.induct with
  | case1 b₀ b₁ data ih =>
    obtain ⟨k, hk⟩ := ih
    refine ⟨b₁.toNat + k, ?_⟩
    simp only [wordSum, Order.word]
    omega
  | case2 b => exact ⟨0, by simp [wordSum, Order.word]⟩
  | case3 => exact ⟨0, rfl⟩

theorem wordSum_le (order : Order) (data : List UInt8) :
    wordSum order data ≤ 65535 * ((data.length + 1) / 2) := by
  have hword (b₀ b₁ : UInt8) : order.word b₀ b₁ ≤ 65535 := by
    have h₀ := b₀.toNat_lt
    have h₁ := b₁.toNat_lt
    cases order <;> simp only [Order.word] <;> omega
  induction data using wordSum.induct with
  | case1 b₀ b₁ data ih =>
    have h := hword b₀ b₁
    simp only [wordSum, List.length_cons]
    omega
  | case2 b =>
    have h := hword b 0
    simp only [wordSum, List.length_singleton]
    omega
  | case3 => exact Nat.zero_le _

/-- The sum is zero in one byte order if it is in the other. -/
theorem wordSum_eq_zero (data : List UInt8) : wordSum .big data = 0 ↔ wordSum .little data = 0 := by
  induction data using wordSum.induct with
  | case1 b₀ b₁ data ih =>
    simp only [wordSum, Order.word]
    omega
  | case2 b =>
    simp only [wordSum, Order.word]
    omega
  | case3 => exact Iff.rfl

/-- Below 2^32 the two sums fold to the same two bytes. -/
theorem fold_swap {data : List UInt8} (hl : wordSum .little data < 2 ^ 32) (hb : wordSum .big data < 2 ^ 32) :
    fold (wordSum .big data) =
      256 * (fold (wordSum .little data) % 256) + fold (wordSum .little data) / 256 := by
  obtain ⟨k, hk⟩ := wordSum_swap data
  obtain ⟨q, hq⟩ := exists_fold hl
  have hle := fold_le (wordSum .little data)
  have hzl := fold_eq_zero hl
  have hz := wordSum_eq_zero data
  refine eq_fold (k := 256 * q + fold (wordSum .little data) / 256) (m := k) hb ?_ ?_ ?_
  · omega
  · omega
  · omega

theorem bytes_eq {a b : UInt16} (h : b.toNat = 256 * (a.toNat % 256) + a.toNat / 256) :
    Order.little.bytes a = Order.big.bytes b := by
  have hupper : b.toNat / 256 = a.toNat % 256 := by
    have ha := a.toNat_lt
    omega
  have hfirst : UInt8.ofNat a.toNat = UInt8.ofNat (b.toNat / 256) := by
    apply UInt8.toNat.inj
    rw [UInt8.toNat_ofNat', UInt8.toNat_ofNat', hupper, Nat.mod_mod]
  have hsecond : UInt8.ofNat (a.toNat / 256) = UInt8.ofNat b.toNat := by
    apply UInt8.toNat.inj
    rw [UInt8.toNat_ofNat', UInt8.toNat_ofNat']
    omega
  rw [Order.bytes, Order.bytes, hfirst, hsecond]

theorem wordSum_ones (order : Order) (m : Nat) (data : List UInt8) :
    wordSum order (List.replicate (2 * m) 255 ++ data) = 65535 * m + wordSum order data := by
  induction m with
  | zero => simp
  | succ m ih =>
    have hword : order.word 255 255 = 65535 := by cases order <;> rfl
    rw [show 2 * (m + 1) = 2 * m + 1 + 1 by omega, List.replicate_succ, List.replicate_succ,
      List.cons_append, List.cons_append, wordSum, ih, hword]
    omega

theorem wordSum_zeros (order : Order) (m : Nat) : wordSum order (List.replicate m 0) = 0 := by
  have hword : order.word 0 0 = 0 := by cases order <;> rfl
  induction m using Nat.twoStepInduction with
  | zero => rfl
  | one => exact hword
  | more m ih _ => rw [List.replicate_succ, List.replicate_succ, wordSum, ih, hword]

/-- m words of ones, one more byte and as many zeros as make up the length. -/
def overlong (m len : Nat) : List UInt8 :=
  List.replicate (2 * m) 255 ++ 255 :: List.replicate (len - (2 * m + 1)) 0

theorem overlong_length {m len : Nat} (h : 2 * m + 1 ≤ len) : (overlong m len).length = len := by
  simp only [overlong, List.length_append, List.length_replicate, List.length_cons]
  omega

theorem wordSum_overlong (order : Order) (m len : Nat) :
    wordSum order (overlong m len) = 65535 * m + order.word 255 0 := by
  rw [overlong, wordSum_ones]
  cases len - (2 * m + 1) with
  | zero => rfl
  | succ k => rw [List.replicate_succ, wordSum, wordSum_zeros, Nat.add_zero]

/-- Hosts of either byte order put the same two bytes into all packets of a length, exactly
up to the length at which sum can overflow. -/
theorem byte_order_iff (len : Nat) :
    (∀ data : List UInt8, data.length = len →
      Order.little.bytes (inCksum .little data) = Order.big.bytes (inCksum .big data)) ↔
    len ≤ 131074 := by
  constructor
  · intro h
    by_contra hlen
    -- 65537 words of ones fill the 32 bits, and one more byte overflows them
    have hlittle : (inCksum .little (overlong 65537 len)).toNat = 65281 := by
      rw [toNat_inCksum, wordSum_overlong]
      rfl
    have hbig : (inCksum .big (overlong 65537 len)).toNat = 256 := by
      rw [toNat_inCksum, wordSum_overlong]
      rfl
    have hbytes := h (overlong 65537 len) (overlong_length (by omega))
    rw [Order.bytes, Order.bytes, hlittle, hbig] at hbytes
    exact absurd hbytes (by decide)
  · rintro hlen data rfl
    have hl := wordSum_le .little data
    have hb := wordSum_le .big data
    have hl' : wordSum .little data < 2 ^ 32 := by omega
    have hb' : wordSum .big data < 2 ^ 32 := by omega
    have hswap := fold_swap hl' hb'
    have hle := fold_le (wordSum .little data)
    apply bytes_eq
    rw [toNat_inCksum, toNat_inCksum, Nat.mod_eq_of_lt hl', Nat.mod_eq_of_lt hb', hswap]
    omega

end LinuxPractice.Checksum
