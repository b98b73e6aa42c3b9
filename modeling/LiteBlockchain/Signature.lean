import LiteBlockchain.Block

/-!
`crypto_utils.go` and `wallet.go`. A transaction is signed with ECDSA over the SHA-256 of
`Transaction.String()`; the signature travels as the hex of `r.Bytes()` followed by `s.Bytes()`,
and the verifier cuts the decoded bytes into two halves of equal length. The curve is a
parameter, since `ecdsa.Sign`, `ecdsa.Verify` and the point encoding are whatever P-256
computes; the hex, `big.Int` and formatting layers around them are modelled exactly.
-/

namespace LiteBlockchain

open Digest

/-- `(*big.Int).Bytes()` of a non-negative value: big-endian without leading zeros, zero being
the empty slice. -/
def natBytes (n : Nat) : List Nat := (Nat.digits 256 n).reverse

def setBytes (buf : List Nat) : Nat := buf.foldl (fun acc b => acc * 256 + b) 0

theorem setBytes_eq_ofDigits (buf : List Nat) : setBytes buf = Nat.ofDigits 256 buf.reverse := by
  induction buf using List.reverseRecOn with
  | nil => rfl
  | append_singleton buf b ih =>
    rw [List.reverse_append, List.reverse_singleton, List.singleton_append, Nat.ofDigits_cons, ← ih]
    simp only [setBytes, List.foldl_append, List.foldl_cons, List.foldl_nil]
    omega

theorem setBytes_natBytes (n : Nat) : setBytes (natBytes n) = n := by
  rw [setBytes_eq_ofDigits, natBytes, List.reverse_reverse, Nat.ofDigits_digits]

theorem natBytes_lt {n b : Nat} (h : b ∈ natBytes n) : b < 256 :=
  Nat.digits_lt_base (by norm_num) (List.mem_reverse.mp h)

theorem natBytes_head? {n : Nat} (hn : 0 < n) : ∃ d rest, natBytes n = d :: rest ∧ d ≠ 0 := by
  have hne : Nat.digits 256 n ≠ [] := Nat.digits_ne_nil_iff_ne_zero.mpr (by omega)
  refine ⟨(Nat.digits 256 n).getLast hne, (Nat.digits 256 n).dropLast.reverse, ?_,
    Nat.getLast_digit_ne_zero 256 (by omega)⟩
  conv_lhs => rw [natBytes, ← List.dropLast_append_getLast hne]
  simp

theorem natBytes_setBytes {buf : List Nat} (hlt : ∀ b ∈ buf, b < 256) (hhead : buf.head? ≠ some 0) :
    natBytes (setBytes buf) = buf := by
  rw [setBytes_eq_ofDigits, natBytes,
    Nat.digits_ofDigits 256 (by norm_num) _ (by simpa using hlt) ?_, List.reverse_reverse]
  intro hne h0
  rw [List.getLast_reverse] at h0
  exact hhead (by rw [List.head?_eq_head, h0])

def fromHexChar (c : Nat) : Option Nat :=
  if 48 ≤ c ∧ c ≤ 57 then some (c - 48)
  else if 97 ≤ c ∧ c ≤ 102 then some (c - 87)
  else if 65 ≤ c ∧ c ≤ 70 then some (c - 55)
  else none

inductive HexError where
  /-- `hex.InvalidByteError`: the first byte that is not a hex digit. -/
  | invalidByte (b : Nat)
  /-- `hex.ErrLength`: an odd number of digits. -/
  | errLength

/-- `hex.Decode`: digits are read in pairs, and an invalid byte is reported before an odd
length. -/
def hexDecode : List Nat → Except HexError (List Nat)
  | [] => .ok []
  | [p] => if (fromHexChar p).isSome then .error .errLength else .error (.invalidByte p)
  | p :: q :: rest =>
    match fromHexChar p, fromHexChar q with
    | none, _ => .error (.invalidByte p)
    | some _, none => .error (.invalidByte q)
    | some a, some b => (hexDecode rest).map fun bytes => (a * 16 + b) :: bytes

/-- `hex.DecodeString`. On an error Go also returns the bytes decoded so far, which no caller
reads. -/
def decodeString (s : String) : Except HexError (List Nat) := hexDecode (utf8Bytes s)

def hexCode (n : Nat) : Nat := if n < 10 then 48 + n else 87 + n

theorem utf8EncodeChar_hexDigit {n : Nat} (h : n < 16) :
    (String.utf8EncodeChar (hexDigit n)).map UInt8.toNat = [hexCode n] := by
  interval_cases n <;> decide

theorem fromHexChar_hexCode {n : Nat} (h : n < 16) : fromHexChar (hexCode n) = some n := by
  unfold fromHexChar hexCode
  split_ifs <;> (try simp only [Option.some.injEq]) <;> omega

theorem utf8Bytes_encodeToString (bytes : List Nat) (h : ∀ b ∈ bytes, b < 256) :
    utf8Bytes (encodeToString bytes) = bytes.flatMap fun b => [hexCode (b / 16), hexCode (b % 16)] := by
  induction bytes with
  | nil => rfl
  | cons b bs ih =>
    have hb := h b (List.mem_cons_self b bs)
    have hrest := ih fun x hx => h x (List.mem_cons_of_mem b hx)
    simp only [encodeToString, utf8Bytes, hexChars, List.flatMap_cons] at hrest ⊢
    rw [hrest, utf8EncodeChar_hexDigit (by omega), utf8EncodeChar_hexDigit (by omega)]
    rfl

theorem hexDecode_hexCodes (bytes : List Nat) (h : ∀ b ∈ bytes, b < 256) :
    hexDecode (bytes.flatMap fun b => [hexCode (b / 16), hexCode (b % 16)]) = .ok bytes := by
  induction bytes with
  | nil => rfl
  | cons b bs ih =>
    have hb := h b (List.mem_cons_self b bs)
    rw [List.flatMap_cons, List.cons_append, List.cons_append, List.nil_append, hexDecode,
      fromHexChar_hexCode (by omega), fromHexChar_hexCode (by omega)]
    simp only [ih fun x hx => h x (List.mem_cons_of_mem b hx)]
    rw [show b / 16 * 16 + b % 16 = b by omega]
    rfl

theorem decodeString_encodeToString (bytes : List Nat) (h : ∀ b ∈ bytes, b < 256) :
    decodeString (encodeToString bytes) = .ok bytes := by
  rw [decodeString, utf8Bytes_encodeToString bytes h, hexDecode_hexCodes bytes h]

/-- Rounding half to even, as `strconv` rounds the exact decimal expansion of a `float64`. -/
def roundHalfEven (q : ℚ) : Int :=
  let f := ⌊q⌋
  if q - f < 1 / 2 then f else if 1 / 2 < q - f then f + 1 else if f % 2 = 0 then f else f + 1

/-- `%f` of a `float64`: six decimals, rounded half to even, with the sign of a negative value
kept even when it rounds to zero. -/
def formatFloat (x : ℚ) : String :=
  let m := (roundHalfEven (|x| * 10 ^ 6)).toNat
  let frac := toString (m % 10 ^ 6)
  (if x < 0 then "-" else "") ++ toString (m / 10 ^ 6) ++ "." ++
    ⟨List.replicate (6 - frac.length) '0'⟩ ++ frac

def Transaction.string (tx : Transaction) : String :=
  tx.sender ++ ":" ++ tx.recipient ++ ":" ++ formatFloat tx.amount ++ ":" ++ formatInt tx.timestamp ++
    ":" ++ formatInt tx.nonce

/-- What the code uses of P-256: the public half of a key, `ecdsa.Sign` (which fails only when
the random source does, and otherwise returns `r` and `s` in `[1, n)`), `ecdsa.Verify`, and
`elliptic.Marshal` / `elliptic.Unmarshal`, which encode a valid public point as bytes and decode
it back. -/
structure Curve (PrivateKey PublicKey : Type) where
  publicKey : PrivateKey → PublicKey
  sign : PrivateKey → List Nat → Except String (Nat × Nat)
  verify : PublicKey → List Nat → Nat → Nat → Bool
  marshal : PublicKey → List Nat
  unmarshal : List Nat → Option PublicKey
  sign_pos : ∀ k h r s, sign k h = .ok (r, s) → 0 < r ∧ 0 < s
  marshal_lt : ∀ p, ∀ b ∈ marshal p, b < 256
  unmarshal_marshal : ∀ p, unmarshal (marshal p) = some p

structure Wallet (PrivateKey PublicKey : Type) where
  privateKey : PrivateKey
  publicKey : PublicKey
  address : String

section Signing

variable {PrivateKey PublicKey : Type} (curve : Curve PrivateKey PublicKey)

def signTransaction (tx : Transaction) (privKey : PrivateKey) : Except String String :=
  let txHash := sum256 (utf8Bytes tx.string)
  match curve.sign privKey txHash with
  | .error err => .error err
  | .ok (r, s) => .ok (encodeToString (natBytes r ++ natBytes s))

def verifyTransactionSignature (tx : Transaction) (pubKey : PublicKey) : Bool :=
  if tx.signature = "" then false
  else
    match decodeString tx.signature with
    | .error _ => false
    | .ok sigBytes =>
      let txHash := sum256 (utf8Bytes tx.string)
      let sigLen := sigBytes.length
      if sigLen % 2 ≠ 0 then false
      else curve.verify pubKey txHash (setBytes (sigBytes.take (sigLen / 2)))
        (setBytes (sigBytes.drop (sigLen / 2)))

def newWallet (privKey : PrivateKey) : Wallet PrivateKey PublicKey :=
  ⟨privKey, curve.publicKey privKey, encodeToString (curve.marshal (curve.publicKey privKey))⟩

/-- `Wallet.SignTransaction`: the signature is stored in the transaction, which is left as it was
when signing fails. -/
def Wallet.signTransaction (w : Wallet PrivateKey PublicKey) (tx : Transaction) : Except String Transaction :=
  match LiteBlockchain.signTransaction curve tx w.privateKey with
  | .error err => .error err
  | .ok sig => .ok { tx with signature := sig }

@[simp] theorem Transaction.string_set_signature (tx : Transaction) (sig : String) :
    ({ tx with signature := sig } : Transaction).string = tx.string := rfl

theorem verify_encodeToString {tx : Transaction} {pubKey : PublicKey} {R S : List Nat}
    (hlt : ∀ b ∈ R ++ S, b < 256) (hne : R ++ S ≠ []) :
    verifyTransactionSignature curve { tx with signature := encodeToString (R ++ S) } pubKey =
      if (R.length + S.length) % 2 ≠ 0 then false
      else curve.verify pubKey (sum256 (utf8Bytes tx.string))
        (setBytes ((R ++ S).take ((R.length + S.length) / 2)))
        (setBytes ((R ++ S).drop ((R.length + S.length) / 2))) := by
  have hsig : encodeToString (R ++ S) ≠ "" := by
    intro h
    have := congrArg String.length h
    simp only [encodeToString, String.length, hexChars_length] at this
    exact hne (List.eq_nil_of_length_eq_zero (by simpa using this))
  simp only [verifyTransactionSignature, if_neg hsig, decodeString_encodeToString _ hlt,
    Transaction.string_set_signature, List.length_append]

theorem Wallet.signTransaction_eq_ok {w : Wallet PrivateKey PublicKey} {tx tx' : Transaction}
    (h : w.signTransaction curve tx = .ok tx') :
    ∃ r s, curve.sign w.privateKey (sum256 (utf8Bytes tx.string)) = .ok (r, s) ∧
      tx' = { tx with signature := encodeToString (natBytes r ++ natBytes s) } := by
  unfold Wallet.signTransaction at h
  split at h
  · cases h
  · rename_i sig hsig
    cases h
    unfold LiteBlockchain.signTransaction at hsig
    dsimp only at hsig
    split at hsig
    · cases hsig
    · cases hsig
      exact ⟨_, _, ‹_›, rfl⟩

theorem signTransaction_verify {w : Wallet PrivateKey PublicKey} {tx tx' : Transaction}
    (h : w.signTransaction curve tx = .ok tx') (pubKey : PublicKey) :
    ∃ r s, curve.sign w.privateKey (sum256 (utf8Bytes tx.string)) = .ok (r, s) ∧
      tx' = { tx with signature := encodeToString (natBytes r ++ natBytes s) } ∧
      ((natBytes r).length = (natBytes s).length →
        verifyTransactionSignature curve tx' pubKey = curve.verify pubKey (sum256 (utf8Bytes tx.string)) r s) ∧
      (((natBytes r).length + (natBytes s).length) % 2 = 1 → verifyTransactionSignature curve tx' pubKey = false) ∧
      ((natBytes r).length ≠ (natBytes s).length → ((natBytes r).length + (natBytes s).length) % 2 = 0 →
        ∃ r' s', r' ≠ r ∧
          verifyTransactionSignature curve tx' pubKey = curve.verify pubKey (sum256 (utf8Bytes tx.string)) r' s') := by
  obtain ⟨r, s, hsign, rfl⟩ := Wallet.signTransaction_eq_ok curve h
  obtain ⟨hr, hs⟩ := curve.sign_pos _ _ _ _ hsign
  obtain ⟨dr, R, hR, hdr⟩ := natBytes_head? hr
  obtain ⟨ds, S, hS, -⟩ := natBytes_head? hs
  have hlt : ∀ b ∈ natBytes r ++ natBytes s, b < 256 := by
    simp only [List.mem_append]
    rintro b (hb | hb) <;> exact natBytes_lt hb
  have hverify := @verify_encodeToString _ _ curve tx pubKey _ _ hlt (by simp [hR])
  refine ⟨r, s, hsign, rfl, fun hlen => ?_, fun hodd => ?_, fun hlen heven => ?_⟩
  · rw [hverify, if_neg (by omega), ← hlen, ← Nat.two_mul, Nat.mul_div_cancel_left _ (by norm_num),
      List.take_left, List.drop_left, setBytes_natBytes, setBytes_natBytes]
  · rw [hverify, if_pos (by omega)]
  · rw [hverify, if_neg (by omega)]
    refine ⟨_, _, fun heq => hlen ?_, rfl⟩
    -- the first half starts with the first byte of `r.Bytes()`, so it is the `Bytes()` of its value
    obtain ⟨k, hk⟩ : ∃ k, ((natBytes r).length + (natBytes s).length) / 2 = k + 1 :=
      ⟨_, (Nat.succ_pred_eq_of_pos (by rw [hR, hS, List.length_cons, List.length_cons]; omega)).symm⟩
    have hfirst := @natBytes_setBytes ((natBytes r ++ natBytes s).take (k + 1))
      (fun b hb => hlt b (List.mem_of_mem_take hb)) (by rw [hR]; simpa using hdr)
    rw [← hk, heq] at hfirst
    have := congrArg List.length hfirst
    rw [List.length_take, List.length_append] at this
    omega

end Signing

end LiteBlockchain
