import Mathlib.Algebra.BigOperators.Group.Finset
import Mathlib.Algebra.Order.BigOperators.Group.List
import Mathlib.Algebra.Order.Field.Rat
import Mathlib.Algebra.Order.Floor
import Mathlib.Data.List.Chain
import Mathlib.Data.List.Nodup
import Mathlib.Data.Nat.Digits
import Mathlib.Data.Rat.Floor
import Mathlib.Data.String.Basic
import Mathlib.Logic.Relation
import Mathlib.Tactic.IntervalCases
import Mathlib.Tactic.Linarith
import Mathlib.Tactic.NormNum
import Mathlib.Tactic.Ring

/-!
`crypto/sha256.Sum256` and `encoding/hex.EncodeToString`, the digest under every block
hash. Bytes are natural numbers below 256 and words below `2 ^ 32`; everything recurses
structurally so that a digest of a short record can be evaluated by `decide`.
-/

namespace LiteBlockchain.Digest

def add32 (a b : Nat) : Nat := (a + b) % 2 ^ 32

def rotr (n x : Nat) : Nat := ((x >>> n) ||| (x <<< (32 - n))) &&& (2 ^ 32 - 1)

def roundConstants : List Nat :=
  [0x428a2f98, 0x71374491, 0xb5c0fbcf, 0xe9b5dba5, 0x3956c25b, 0x59f111f1, 0x923f82a4, 0xab1c5ed5,
   0xd807aa98, 0x12835b01, 0x243185be, 0x550c7dc3, 0x72be5d74, 0x80deb1fe, 0x9bdc06a7, 0xc19bf174,
   0xe49b69c1, 0xefbe4786, 0x0fc19dc6, 0x240ca1cc, 0x2de92c6f, 0x4a7484aa, 0x5cb0a9dc, 0x76f988da,
   0x983e5152, 0xa831c66d, 0xb00327c8, 0xbf597fc7, 0xc6e00bf3, 0xd5a79147, 0x06ca6351, 0x14292967,
   0x27b70a85, 0x2e1b2138, 0x4d2c6dfc, 0x53380d13, 0x650a7354, 0x766a0abb, 0x81c2c92e, 0x92722c85,
   0xa2bfe8a1, 0xa81a664b, 0xc24b8b70, 0xc76c51a3, 0xd192e819, 0xd6990624, 0xf40e3585, 0x106aa070,
   0x19a4c116, 0x1e376c08, 0x2748774c, 0x34b0bcb5, 0x391c0cb3, 0x4ed8aa4a, 0x5b9cca4f, 0x682e6ff3,
   0x748f82ee, 0x78a5636f, 0x84c87814, 0x8cc70208, 0x90befffa, 0xa4506ceb, 0xbef9a3f7, 0xc67178f2]

def initialState : List Nat :=
  [0x6a09e667, 0xbb67ae85, 0x3c6ef372, 0xa54ff53a, 0x510e527f, 0x9b05688c, 0x1f83d9ab, 0x5be0cd19]

def bigEndianWords : List Nat → List Nat
  | a :: b :: c :: d :: rest => (a <<< 24 ||| b <<< 16 ||| c <<< 8 ||| d) :: bigEndianWords rest
  | _ => []

def schedule : Nat → List Nat → List Nat
  | 0, acc => acc
  | n + 1, acc =>
    let w2 := acc.getD 1 0
    let w15 := acc.getD 14 0
    let s0 := rotr 7 w15 ^^^ rotr 18 w15 ^^^ (w15 >>> 3)
    let s1 := rotr 17 w2 ^^^ rotr 19 w2 ^^^ (w2 >>> 10)
    schedule n (add32 (add32 s1 (acc.getD 6 0)) (add32 s0 (acc.getD 15 0)) :: acc)

def compressRound (st : List Nat) (kw : Nat × Nat) : List Nat :=
  match st with
  | [a, b, c, d, e, f, g, h] =>
    let s1 := rotr 6 e ^^^ rotr 11 e ^^^ rotr 25 e
    let ch := (e &&& f) ^^^ ((2 ^ 32 - 1 - e) &&& g)
    let t1 := add32 (add32 (add32 h s1) (add32 ch kw.1)) kw.2
    let s0 := rotr 2 a ^^^ rotr 13 a ^^^ rotr 22 a
    let maj := (a &&& b) ^^^ (a &&& c) ^^^ (b &&& c)
    [add32 t1 (add32 s0 maj), a, b, c, add32 d t1, e, f, g]
  | _ => st

def compress (st : List Nat) (chunk : List Nat) : List Nat :=
  let w := (schedule 48 (bigEndianWords chunk).reverse).reverse
  (st.zip ((roundConstants.zip w).foldl compressRound st)).map fun p => add32 p.1 p.2

def chunks : Nat → List Nat → List (List Nat)
  | 0, _ => []
  | n + 1, l => if l.isEmpty then [] else l.take 64 :: chunks n (l.drop 64)

def pad (msg : List Nat) : List Nat :=
  msg ++ [0x80] ++ List.replicate ((119 - msg.length % 64) % 64) 0 ++
    (List.range 8).reverse.map fun i => ((msg.length * 8) >>> (8 * i)) % 256

def wordBytes : List Nat → List Nat
  | [] => []
  | w :: ws => (w >>> 24) % 256 :: (w >>> 16) % 256 :: (w >>> 8) % 256 :: w % 256 :: wordBytes ws

def sum256 (msg : List Nat) : List Nat :=
  wordBytes ((chunks (pad msg).length (pad msg)).foldl compress initialState)

def hexDigit (n : Nat) : Char := if n < 10 then Char.ofNat (48 + n) else Char.ofNat (87 + n)

def hexChars : List Nat → List Char
  | [] => []
  | b :: bs => hexDigit (b / 16) :: hexDigit (b % 16) :: hexChars bs

def encodeToString (bytes : List Nat) : String := ⟨hexChars bytes⟩

/-- The bytes of a Go string, which for a Lean string are its UTF-8 encoding. -/
def utf8Bytes (s : String) : List Nat := s.data.flatMap fun c => (String.utf8EncodeChar c).map UInt8.toNat

@[irreducible] def sum256Hex (s : String) : String := encodeToString (sum256 (utf8Bytes s))

example : sum256Hex "abc" = "ba7816bf8f01cfea414140de5dae2223b00361a396177a9cb410ff61f20015ad" := by
  unfold sum256Hex
  decide

theorem compressRound_length (st : List Nat) (kw : Nat × Nat) :
    (compressRound st kw).length = st.length := by
  unfold compressRound
  split <;> rfl

theorem compress_length (st chunk : List Nat) (h : st.length = 8) : (compress st chunk).length = 8 := by
  have rounds : ∀ (ks : List (Nat × Nat)) (s : List Nat), (ks.foldl compressRound s).length = s.length := by
    intro ks
    induction ks with
    | nil => intro s; rfl
    | cons k ks ih => intro s; rw [List.foldl_cons, ih, compressRound_length]
  simp [compress, rounds, h]

theorem wordBytes_length (ws : List Nat) : (wordBytes ws).length = 4 * ws.length := by
  induction ws with
  | nil => rfl
  | cons w ws ih => simp only [wordBytes, List.length_cons, ih]; omega

theorem sum256_length (msg : List Nat) : (sum256 msg).length = 32 := by
  have states : ∀ (cs : List (List Nat)) (s : List Nat), s.length = 8 → (cs.foldl compress s).length = 8 := by
    intro cs
    induction cs with
    | nil => intro s h; exact h
    | cons c cs ih => intro s h; exact ih _ (compress_length s c h)
  rw [sum256, wordBytes_length, states _ initialState rfl]

theorem hexChars_length (bytes : List Nat) : (hexChars bytes).length = 2 * bytes.length := by
  induction bytes with
  | nil => rfl
  | cons b bs ih => simp only [hexChars, List.length_cons, ih]; omega

theorem sum256Hex_length (s : String) : (sum256Hex s).length = 64 := by
  unfold sum256Hex
  simp only [encodeToString, String.length, hexChars_length, sum256_length]

theorem sum256Hex_ne_empty (s : String) : sum256Hex s ≠ "" := by
  intro h
  have := sum256Hex_length s
  rw [h] at this
  contradiction

end LiteBlockchain.Digest
