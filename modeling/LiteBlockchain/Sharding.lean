import LiteBlockchain.Chain

namespace LiteBlockchain

open Digest

structure Shard where
  id : BitVec 64
  blockchain : Blockchain

structure BeaconChain where
  shards : List Shard

/-- `NewBeaconChain`: `make([]*Shard, numShards)` panics on a negative length and on one whose
8-byte pointers pass `maxAlloc`, which is `1 << 48` on 64-bit Linux. -/
def newBeaconChain (numShards : BitVec 64) : Except String BeaconChain :=
  if numShards.toInt < 0 ∨ 2 ^ 48 < 8 * numShards.toNat then .error "runtime error: makeslice: len out of range"
  else .ok ⟨(List.range numShards.toNat).map fun i => ⟨BitVec.ofNat 64 i, newBlockchain⟩⟩

/-- `AssignShard`: `int(hash[0]) % len(bc.Shards)`, which panics on a beacon chain without shards.
The byte and the count are non-negative, so the Go `%` is the natural one. -/
def BeaconChain.assignShard (bc : BeaconChain) (tx : Transaction) : Except String Nat :=
  let hash := sum256 (utf8Bytes tx.sender)
  if bc.shards.length = 0 then .error "runtime error: integer divide by zero"
  else .ok (hash.headD 0 % bc.shards.length)

theorem wordBytes_lt {ws : List Nat} {b : Nat} (h : b ∈ wordBytes ws) : b < 256 := by
  induction ws with
  | nil => cases h
  | cons w ws ih =>
    simp only [wordBytes, List.mem_cons] at h
    rcases h with rfl | rfl | rfl | rfl | h <;> first | exact Nat.mod_lt _ (by norm_num) | exact ih h

theorem sum256_headD_lt (msg : List Nat) : (sum256 msg).headD 0 < 256 := by
  rw [List.headD_eq_head?_getD]
  cases hd : (sum256 msg).head? with
  | none => norm_num
  | some b => exact wordBytes_lt (List.mem_of_mem_head? hd)

theorem assignShard_newBeaconChain {numShards : BitVec 64} (h : 0 < numShards.toInt)
    (hmax : 8 * numShards.toNat ≤ 2 ^ 48) (tx : Transaction) :
    ∃ bc i, newBeaconChain numShards = .ok bc ∧ bc.assignShard tx = .ok i ∧ i < numShards.toNat ∧ i < 256 ∧
      ∃ shard, bc.shards[i]? = some shard ∧ shard.id = BitVec.ofNat 64 i ∧ shard.blockchain = newBlockchain := by
  have hpos : 0 < numShards.toNat := by
    have := @toNat_eq_toInt numShards h.le
    omega
  have hhead := sum256_headD_lt (utf8Bytes tx.sender)
  have hlt : (sum256 (utf8Bytes tx.sender)).headD 0 % numShards.toNat < numShards.toNat := Nat.mod_lt _ hpos
  refine ⟨_, _, if_neg (by omega), ?_, hlt, lt_of_le_of_lt (Nat.mod_le _ _) hhead, _,
    by rw [List.getElem?_map, List.getElem?_range hlt]; rfl, rfl, rfl⟩
  simp only [BeaconChain.assignShard, List.length_map, List.length_range]
  rw [if_neg (by omega)]

theorem assignShard_newBeaconChain_threeHundred :
    0 < (300 : BitVec 64).toInt ∧ 8 * (300 : BitVec 64).toNat ≤ 2 ^ 48 ∧
      ∃ bc i, newBeaconChain 300 = .ok bc ∧ bc.assignShard ⟨"Alice", "Bob", 10.5, 0, "", "", "", 1⟩ = .ok i ∧
        i < (300 : BitVec 64).toNat ∧ i < 256 ∧
        ∃ shard, bc.shards[i]? = some shard ∧ shard.id = BitVec.ofNat 64 i ∧ shard.blockchain = newBlockchain :=
  ⟨by decide, by decide, assignShard_newBeaconChain (by decide) (by decide) _⟩

end LiteBlockchain
