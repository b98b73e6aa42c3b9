import LiteBlockchain.Digest

/-!
Go's `float64` on amd64: IEEE 754 binary64, kept as its 64 bits. Arithmetic computes the exact
result on integers and rounds it to nearest, ties to even. `int(x)` is `CVTTSD2SQ`, which
truncates and gives the minimum `int` for an infinity, a NaN or a value out of range. Every NaN
an operation makes is the default NaN of SSE; NaN payloads are not followed.
-/

namespace LiteBlockchain

structure F64 where
  bits : BitVec 64
  deriving DecidableEq

namespace F64

inductive Value where
  | finite (negative : Bool) (m : Nat) (e : Int)
  | inf (negative : Bool)
  | nan
  deriving DecidableEq

def unpack (x : F64) : Value :=
  let exp : Nat := x.bits.toNat / 2 ^ 52 % 2 ^ 11
  let frac : Nat := x.bits.toNat % 2 ^ 52
  if exp = 2047 then if frac = 0 then .inf x.bits.msb else .nan
  else if exp = 0 then .finite x.bits.msb frac (-1074)
  else .finite x.bits.msb (2 ^ 52 + frac) ((exp : Int) - 1075)

def pack (negative : Bool) (exp frac : Nat) : F64 :=
  ⟨BitVec.ofNat 64 ((if negative then 2 ^ 63 else 0) + exp * 2 ^ 52 + frac)⟩

def inf (negative : Bool) : F64 := pack negative 2047 0

def nan : F64 := ⟨0xFFF8000000000000⟩

def isFinite (x : F64) : Bool :=
  match x.unpack with
  | .finite .. => true
  | _ => false

def nonneg (x : F64) : Bool :=
  match x.unpack with
  | .finite negative m _ => !negative || m = 0
  | .inf negative => !negative
  | .nan => false

/-- The number of binary digits of `n`, with fuel `n` so that it reduces structurally. -/
def bitLength : Nat → Nat → Nat
  | 0, _ => 0
  | fuel + 1, n => if n = 0 then 0 else bitLength fuel (n / 2) + 1

def scale (n d : Nat) (t : Int) : Nat × Nat :=
  if 0 ≤ t then (n, d * 2 ^ t.toNat) else (n * 2 ^ (-t).toNat, d)

def log2Floor (n d : Nat) : Int :=
  let e : Int := (bitLength n n : Int) - bitLength d d
  if (scale n d e).2 ≤ (scale n d e).1 then e else e - 1

def encode (negative : Bool) (m : Nat) (t : Int) : F64 :=
  let (m, t) := if m = 2 ^ 53 then (2 ^ 52, t + 1) else (m, t)
  if m < 2 ^ 52 then pack negative 0 m
  else if 971 < t then inf negative
  else pack negative (t + 1075).toNat (m - 2 ^ 52)

/-- The `float64` nearest `±(n / d)`, ties to even: the significand is `n / d` in units of
`2^t`, `t` the exponent of its leading digit less 52, and never below `-1074`. -/
def round (negative : Bool) (n d : Nat) : F64 :=
  if n = 0 then pack negative 0 0
  else
    let t := max (log2Floor n d - 52) (-1074)
    let q := (scale n d t).1 / (scale n d t).2
    let r := (scale n d t).1 % (scale n d t).2
    encode negative (if (scale n d t).2 < 2 * r ∨ (2 * r = (scale n d t).2 ∧ q % 2 = 1) then q + 1 else q) t

def ofNat (n : Nat) : F64 := round false n 1

def ofDyadic (negative : Bool) (m : Nat) (e : Int) : F64 :=
  round negative (m * 2 ^ e.toNat) (2 ^ (-e).toNat)

/-- An exact zero sum is `+0`, unless both operands are `-0`. -/
def add (x y : F64) : F64 :=
  match x.unpack, y.unpack with
  | .finite sx mx ex, .finite sy my ey =>
    let e := min ex ey
    let s : Int := (if sx then -1 else 1) * (mx * 2 ^ (ex - e).toNat : Nat) +
      (if sy then -1 else 1) * (my * 2 ^ (ey - e).toNat : Nat)
    ofDyadic (if s = 0 then sx && sy else decide (s < 0)) s.natAbs e
  | .inf s, .finite .. | .finite .., .inf s => inf s
  | .inf s, .inf t => if s = t then inf s else nan
  | _, _ => nan

def mul (x y : F64) : F64 :=
  match x.unpack, y.unpack with
  | .finite sx mx ex, .finite sy my ey => ofDyadic (sx ^^ sy) (mx * my) (ex + ey)
  | .inf s, .finite t m _ | .finite t m _, .inf s => if m = 0 then nan else inf (s ^^ t)
  | .inf s, .inf t => inf (s ^^ t)
  | _, _ => nan

def ofInt (i : BitVec 64) : F64 := round (decide (i.toInt < 0)) i.toInt.natAbs 1

def toGoInt (x : F64) : BitVec 64 :=
  match x.unpack with
  | .finite negative m e =>
    let t : Nat := m * 2 ^ e.toNat / 2 ^ (-e).toNat
    if negative then if t ≤ 2 ^ 63 then BitVec.ofInt 64 (-t) else BitVec.ofInt 64 (-2 ^ 63)
    else if t < 2 ^ 63 then BitVec.ofNat 64 t else BitVec.ofInt 64 (-2 ^ 63)
  | _ => BitVec.ofInt 64 (-2 ^ 63)

end F64

end LiteBlockchain
