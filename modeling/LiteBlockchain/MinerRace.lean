import LiteBlockchain.NodeRun

/-!
The auto-mining goroutine of `main` split at its mining: step (a) reads `len(bc.Blocks)` and the
tip's `Hash`, step (b) appends the block `CreateBlock` built from them. Between the two, the
handlers of peer connections run on the decoded chain or block, each atomically.
-/

namespace LiteBlockchain.P2P

def autoMineCreateBlock (fuel : Nat) (txNow blockNow index : BitVec 64) (prevHash : String)
    (txPool : TransactionPool) : Option (Block × TransactionPool) :=
  createBlock fuel txNow blockNow index prevHash "one-to-many" ["ReceiverA", "ReceiverB", "ReceiverC"]
    "EncryptedTextDataXYZ" "EncryptedAudioDataABC" "EncryptedVideoData123" txPool 3 "Miner1" (25 / 2)

def autoMine (n : Node) (fuel : Nat) (txNow blockNow : BitVec 64) (txPool : TransactionPool)
    (pruneNow : BitVec 64) (io : ArchiveIO) : Option Node :=
  (autoMineCreateBlock fuel txNow blockNow (BitVec.ofNat 64 n.blockchain.blocks.length)
    (tipHash n.blockchain) txPool).map fun mined =>
      { n with blockchain := n.blockchain.addBlock mined.1 pruneNow io }

def raceGenesis (d : BitVec 64) : Block := ⟨0, 0, "", "", 0, "", [], "", "", "", [], [], d, "main"⟩

def raceTip : String := "28e8c718ebf6fedff531b5b9dd2b614ce1376f31343bbe5bb6d62f3e4c6ec4ca"

def racePool : TransactionPool := ⟨[newTransaction "Alice" "Bob" (21 / 2) 1 1731006387]⟩

def raceBlock : Block :=
  ⟨1, 1731006387, raceTip, "", 0, "one-to-many", ["ReceiverA", "ReceiverB", "ReceiverC"],
    "EncryptedTextDataXYZ", "EncryptedAudioDataABC", "EncryptedVideoData123",
    newTransaction "COINBASE" "Miner1" (25 / 2) 0 1731006387 :: racePool.transactions, [], 3, "main"⟩

def raceMined : Block := { raceBlock with hash := calculateHash raceBlock }

set_option maxRecDepth 20000 in
theorem autoMineCreateBlock_race :
    (autoMineCreateBlock 1 1731006387 1731006387 1 raceTip racePool).map Prod.fst = some raceMined := by
  have mined : mineBlock 1 raceBlock 3 = some raceMined :=
    mineBlock_of_hasPrefix (by decide) (by unfold calculateHash Digest.sum256Hex; decide)
  simp only [autoMineCreateBlock, createBlock]
  show Option.map Prod.fst (Option.map (fun x => (x, _)) (mineBlock 1 raceBlock 3)) = _
  rw [mined]
  rfl

theorem autoMine_race (n : Node) (hn : n.blockchain = ⟨[{ raceGenesis 1 with hash := raceTip }]⟩) :
    autoMine n 1 1731006387 1731006387 racePool 0 .ok =
      some { n with blockchain := ⟨[{ raceGenesis 1 with hash := raceTip }, raceMined]⟩ } := by
  obtain ⟨⟨b, pool'⟩, hb, rfl⟩ := Option.map_eq_some'.mp autoMineCreateBlock_race
  simp only [autoMine, hn, tipHash, List.getLast?_singleton, List.length_singleton]
  rw [show BitVec.ofNat 64 1 = 1 from rfl, hb, Option.map_some', addBlock_of_lt (by decide)]
  rfl

end LiteBlockchain.P2P
