import Mathlib.Data.Vector.Basic
import LinuxPractice.Framework.Decimal
import LinuxPractice.Echo.Lines

namespace LinuxPractice.Address

open Echo (Byte nul cstr)

-- A C string is the list of its bytes in front of the NUL.

/-- An address in network format. -/
abbrev InAddr := List.Vector Byte 4

abbrev In6Addr := List.Vector Byte 16

def IN6ADDRSZ : Nat := 16

def INADDRSZ : Nat := 4

def INT16SZ : Nat := 2

def dot : Byte := 46

def colon : Byte := 58

def digits : List Byte := Decimal.ascii "0123456789"

def xdigitsL : List Byte := Decimal.ascii "0123456789abcdef"

def xdigitsU : List Byte := Decimal.ascii "0123456789ABCDEF"

/-- strchr, as the offset of what it finds. -/
def strchr (s : List Byte) (ch : Byte) : Option Nat := s.findIdx? (· == ch)

/-- The locals of inet_pton4: tp is an index into tmp. -/
structure Quad where
  sawDigit : Bool
  octets : Nat
  tmp : List Byte
  tp : Nat
  deriving DecidableEq

/-- The while loop of inet_pton4; none is its return of 0. -/
def inetPton4Loop : Quad → List Byte → Option Quad
  | q, [] => some q
  | q, ch :: src =>
    match strchr digits ch with
    | some d =>
      let new := (q.tmp.getD q.tp 0).toNat * 10 + d
      if 255 < new then none
      else
        let q := { q with tmp := q.tmp.set q.tp (UInt8.ofNat new) }
        if q.sawDigit then inetPton4Loop q src
        else if 4 < q.octets + 1 then none
        else inetPton4Loop { q with octets := q.octets + 1, sawDigit := true } src
    | none =>
      if ch = dot ∧ q.sawDigit then
        if q.octets = 4 then none
        else
          inetPton4Loop
            { q with tp := q.tp + 1, tmp := q.tmp.set (q.tp + 1) 0, sawDigit := false } src
      else none

/-- inet_pton4: only the first byte of tmp is set before the loop, garbage is what the
others hold. -/
def inetPton4 (garbage : InAddr) (src : List Byte) : Option (List Byte) :=
  match inetPton4Loop ⟨false, 0, garbage.toList.set 0 0, 0⟩ src with
  | none => none
  | some q => if q.octets < 4 then none else some (q.tmp.take INADDRSZ)

/-- sprintf with "%u.%u.%u.%u". -/
def dotted (src : List Byte) : List Byte :=
  Decimal.ofNat (src.getD 0 0).toNat ++ dot :: Decimal.ofNat (src.getD 1 0).toNat ++
    dot :: Decimal.ofNat (src.getD 2 0).toNat ++ dot :: Decimal.ofNat (src.getD 3 0).toNat

/-- inet_ntop4: what strcpy puts in dst, the NUL included, or none for NULL. -/
def inetNtop4 (src : List Byte) (size : Nat) : Option (List Byte) :=
  let tmp := dotted src
  if size < tmp.length then none else some (tmp ++ [nul])

/-- The locals of inet_pton6: tp and colonp are indices into tmp, endp is IN6ADDRSZ. -/
structure Scan where
  tmp : List Byte
  tp : Nat
  colonp : Option Nat
  curtok : List Byte
  sawXdigit : Bool
  val : Nat
  deriving DecidableEq

def xdigit (ch : Byte) : Option Nat :=
  match strchr xdigitsL ch with
  | some d => some d
  | none => strchr xdigitsU ch

/-- *tp++ = val >> 8; *tp++ = val. -/
def Scan.store (s : Scan) : Scan :=
  { s with
    tmp := (s.tmp.set s.tp (UInt8.ofNat (s.val >>> 8))).set (s.tp + 1) (UInt8.ofNat s.val)
    tp := s.tp + INT16SZ }

/-- memcpy to the address p inside tmp. -/
def copyAt (tmp : List Byte) (p : Nat) (xs : List Byte) : List Byte :=
  tmp.take p ++ xs ++ tmp.drop (p + xs.length)

/-- The while loop of inet_pton6; garbage is what inet_pton4 finds in its own tmp. -/
def inetPton6Loop (garbage : InAddr) : Scan → List Byte → Option Scan
  | s, [] => some s
  | s, ch :: src =>
    match xdigit ch with
    | some d =>
      let val := s.val <<< 4 ||| d
      if 0xffff < val then none
      else inetPton6Loop garbage { s with val := val, sawXdigit := true } src
    | none =>
      if ch = colon then
        if ¬s.sawXdigit then
          if s.colonp.isSome then none
          else inetPton6Loop garbage { s with curtok := src, colonp := some s.tp } src
        else if IN6ADDRSZ < s.tp + INT16SZ then none
        else
          inetPton6Loop garbage
            { s.store with curtok := src, sawXdigit := false, val := 0 } src
      else if ch = dot ∧ s.tp + INADDRSZ ≤ IN6ADDRSZ then
        match inetPton4 garbage s.curtok with
        | none => none
        | some v4 =>
          some { s with tmp := copyAt s.tmp s.tp v4, tp := s.tp + INADDRSZ, sawXdigit := false }
      else none

/-- The shift by hand: i counts from 1 to n. -/
def shift (colonp n : Nat) : Nat → List Byte → List Byte
  | 0, tmp => tmp
  | i + 1, tmp =>
    let tmp := shift colonp n i tmp
    let tmp := tmp.set (IN6ADDRSZ - (i + 1)) (tmp.getD (colonp + (n - (i + 1))) 0)
    tmp.set (colonp + (n - (i + 1))) 0

/-- What inet_pton6 does behind its loop. -/
def inetPton6End (s : Scan) : Option (List Byte) :=
  if s.sawXdigit ∧ IN6ADDRSZ < s.tp + INT16SZ then none
  else
    let s := if s.sawXdigit then s.store else s
    match s.colonp with
    | some colonp => some (shift colonp (s.tp - colonp) (s.tp - colonp) s.tmp)
    | none => if s.tp = IN6ADDRSZ then some s.tmp else none

/-- inet_pton6: a leading colon must be the first of two. -/
def inetPton6 (garbage : InAddr) (src : List Byte) : Option (List Byte) :=
  let start := fun src =>
    (inetPton6Loop garbage ⟨List.replicate IN6ADDRSZ 0, 0, none, src, false, 0⟩ src).bind inetPton6End
  match src with
  | ch :: rest => if ch = colon then (if rest.head? = some colon then start rest else none) else start src
  | [] => start []

/-- A run of zero words. -/
structure Run where
  base : Nat
  len : Nat
  deriving DecidableEq

/-- words[i / 2] |= src[i] << ((1 - (i % 2)) << 3). -/
def words : List Byte → List Nat
  | hi :: lo :: src => (hi.toNat <<< 8 ||| lo.toNat) :: words src
  | _ => []

/-- best = cur where cur is a run and a longer one. -/
def better : Option Run → Option Run → Option Run
  | best, none => best
  | none, some cur => some cur
  | some best, some cur => if best.len < cur.len then some cur else some best

/-- The loop that finds the longest run of zero words, from word i on. -/
def findRun : Nat → Option Run → Option Run → List Nat → Option Run
  | _, best, cur, [] => better best cur
  | i, best, cur, w :: ws =>
    if w = 0 then
      match cur with
      | none => findRun (i + 1) best (some ⟨i, 1⟩) ws
      | some cur => findRun (i + 1) best (some ⟨cur.base, cur.len + 1⟩) ws
    else findRun (i + 1) (better best cur) none ws

/-- best.base is set back to -1 for a run of one word. -/
def bestRun (ws : List Nat) : Option Run :=
  (findRun 0 none none ws).filter fun best => ¬best.len < 2

/-- sprintf with "%x". -/
def hex (n : Nat) : List Byte := (Nat.toDigits 16 n).map Char.toUInt8

def Run.covers (r : Run) (i : Nat) : Bool := r.base ≤ i && i < r.base + r.len

/-- best is the run of an IPv4 address: ::a.b.c.d or ::ffff:a.b.c.d. -/
def Run.encapsulates (r : Run) (ws : List Nat) : Bool :=
  r.base = 0 && (r.len = 6 || (r.len = 5 && ws.getD 5 0 = 0xffff))

/-- sizeof tmp in inet_ntop6. -/
def tmpSize : Nat := (Decimal.ascii "ffff:ffff:ffff:ffff:ffff:ffff:255.255.255.255").length + 1

/-- The loop that formats the words, from word i on with pos bytes in tmp; all are all the
words and src the bytes. none is the return of NULL for an inner inet_ntop4 that fails. -/
def format (src : List Byte) (all : List Nat) (best : Option Run) :
    Nat → Nat → List Nat → Option (List Byte)
  | _, _, [] => some []
  | i, pos, w :: ws =>
    if best.any (·.covers i) then
      let text := if best.any (·.base = i) then [colon] else []
      (format src all best (i + 1) (pos + text.length) ws).map (text ++ ·)
    else
      let text := if i ≠ 0 then [colon] else []
      if i = 6 ∧ best.any (·.encapsulates all) then
        (inetNtop4 (src.drop 12) (tmpSize - (pos + text.length))).map (text ++ cstr ·)
      else
        let text := text ++ hex w
        (format src all best (i + 1) (pos + text.length) ws).map (text ++ ·)

/-- What inet_ntop6 has in tmp before it adds the NUL. -/
def inet6Text (src : List Byte) : Option (List Byte) :=
  let ws := words src
  let best := bestRun ws
  (format src ws best 0 0 ws).map (· ++
    if best.any (fun best => best.base + best.len = IN6ADDRSZ / INT16SZ) then [colon] else [])

/-- inet_ntop6: what strcpy puts in dst, the NUL included, or none for NULL. -/
def inetNtop6 (src : List Byte) (size : Nat) : Option (List Byte) :=
  (inet6Text src).bind fun text =>
    let tmp := text ++ [nul]
    if size < tmp.length then none else some tmp

end LinuxPractice.Address
