import LiteBlockchain.Handlers

/-!
`storage.go` and `light.go`. The BoltDB bucket `Blocks` is an ordered map: `Put` replaces a key's
value or inserts the key in order, `Get` looks a key up, and `ForEach` visits the entries in
ascending byte order of their keys, which for UTF-8 strings is the order of their characters.
`SaveBlock` stores a block under its `Hash` as the JSON that `json.Marshal` makes of it (the
`BlockCodec` of the peer protocol), and every loader decodes the stored values in key order.
-/

namespace LiteBlockchain

open P2P Digest

structure LightBlockHeader where
  index : BitVec 64
  timestamp : BitVec 64
  prevHash : String
  hash : String
  difficulty : BitVec 64
  nonce : BitVec 64

def Block.header (b : Block) : LightBlockHeader :=
  ⟨b.index, b.timestamp, b.prevHash, b.hash, b.difficulty, b.nonce⟩

def Blockchain.extractHeaders (bc : Blockchain) : List LightBlockHeader := bc.blocks.map Block.header

structure Bucket where
  entries : List (String × Json)
  sorted : entries.Pairwise fun a b => a.1 < b.1

def Bucket.empty : Bucket := ⟨[], List.Pairwise.nil⟩

inductive DbError where
  /-- `bolt.ErrKeyRequired`, "key required". -/
  | keyRequired
  /-- `bolt.ErrKeyTooLarge`, "key too large". -/
  | keyTooLarge
  /-- `fmt.Errorf("block not found")`. -/
  | blockNotFound
  /-- The error `json.Unmarshal` returns. -/
  | unmarshal
  deriving DecidableEq

def lookup (key : String) : List (String × Json) → Option Json
  | [] => none
  | (k, v) :: rest => if k = key then some v else lookup key rest

variable (codec : BlockCodec)

def zeroBlock : Block := ⟨0, 0, "", "", 0, "", [], "", "", "", [], [], 0, ""⟩

/-- `json.Unmarshal(data, &b)` into a zero `Block`: `null` leaves it as it is. -/
def unmarshalBlock (data : Json) : Except DbError Block :=
  match data with
  | .null => .ok zeroBlock
  | .object fields =>
    match codec.decodeObject fields with
    | some b => .ok b
    | none => .error .unmarshal
  | _ => .error .unmarshal

def getAllBlockHeaders (db : Bucket) : Except DbError (List LightBlockHeader) :=
  db.entries.mapM fun e => (unmarshalBlock codec e.2).map Block.header

variable {codec}

end LiteBlockchain
