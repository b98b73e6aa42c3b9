import LiteBlockchain.Digest

namespace LiteBlockchain

open Digest

/-- `Params` is left out: no modelled function reads it. -/
structure Transaction where
  sender : String
  recipient : String
  amount : ℚ
  timestamp : BitVec 64
  contractName : String
  method : String
  signature : String
  nonce : BitVec 64

def newTransaction (sender recipient : String) (amount : ℚ) (nonce now : BitVec 64) : Transaction :=
  { sender, recipient, amount, timestamp := now, contractName := "", method := "", signature := "", nonce }

structure Block where
  index : BitVec 64
  timestamp : BitVec 64
  prevHash : String
  hash : String
  nonce : BitVec 64
  relationshipType : String
  receivers : List String
  textData : String
  audioData : String
  videoData : String
  transactions : List Transaction
  subBlocks : List Block
  difficulty : BitVec 64
  category : String

def formatInt (x : BitVec 64) : String := toString x.toInt

/-- `fmt.Sprintf("%v", receivers)` of a `[]string`. -/
def serializeReceivers (receivers : List String) : String := "[" ++ " ".intercalate receivers ++ "]"

/-- The record `CalculateHash` formats with `%d%d%s%s%s%s%s%s%d%d`; `Category` is an eleventh
argument with no verb, which `Sprintf` appends as `%!(EXTRA string=...)`. -/
def hashRecord (b : Block) : String :=
  formatInt b.index ++ formatInt b.timestamp ++ b.prevHash ++ b.relationshipType ++ b.textData ++
    b.audioData ++ b.videoData ++ serializeReceivers b.receivers ++ formatInt b.difficulty ++
    formatInt b.nonce ++ "%!(EXTRA string=" ++ b.category ++ ")"

def calculateHash (b : Block) : String := sum256Hex (hashRecord b)

def hasPrefix (s pre : String) : Bool := s.data.take pre.data.length == pre.data

theorem toInt_bounds (x : BitVec 64) : -2 ^ 63 ≤ x.toInt ∧ x.toInt < 2 ^ 63 := by
  have := x.isLt
  rw [BitVec.toInt_eq_toNat_cond]
  split <;> omega

theorem toInt_eq_of_bmod {x : BitVec 64} {i : Int} (h : x.toInt = i.bmod (2 ^ 64))
    (h1 : -2 ^ 63 ≤ i) (h2 : i < 2 ^ 63) : x.toInt = i := by
  rw [h, Int.bmod_def]
  split <;> omega

theorem toNat_eq_toInt {x : BitVec 64} (h : 0 ≤ x.toInt) : (x.toNat : Int) = x.toInt := by
  have := x.isLt
  rw [BitVec.toInt_eq_toNat_cond] at h ⊢
  split <;> split at h <;> omega

@[simp] theorem hashRecord_set_hash (b : Block) (h : String) :
    hashRecord { b with hash := h } = hashRecord b := rfl

@[simp] theorem hashRecord_set_subBlocks (b : Block) (s : List Block) :
    hashRecord { b with subBlocks := s } = hashRecord b := rfl

@[simp] theorem calculateHash_set_hash (b : Block) (h : String) :
    calculateHash { b with hash := h } = calculateHash b := rfl

@[simp] theorem calculateHash_set_subBlocks (b : Block) (s : List Block) :
    calculateHash { b with subBlocks := s } = calculateHash b := rfl

theorem calculateHash_ne_empty (b : Block) : calculateHash b ≠ "" := sum256Hex_ne_empty _

example (b : Block) (s : String) (h : hashRecord { b with textData := s } = hashRecord b) : s = b.textData := by
  simpa [hashRecord, String.ext_iff, List.append_assoc] using h

example (b : Block) (s : String) (h : hashRecord { b with prevHash := s } = hashRecord b) : s = b.prevHash := by
  simpa [hashRecord, String.ext_iff, List.append_assoc] using h

end LiteBlockchain
