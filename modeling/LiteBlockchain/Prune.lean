import LiteBlockchain.Chain

namespace LiteBlockchain

/-- How the archive's `json.MarshalIndent` and `ioutil.WriteFile` turn out. -/
inductive ArchiveIO where
  | ok
  | marshalFails (err : String)
  | writeFails (err : String)

structure Archive where
  file : String
  blocks : List Block

/-- `PruneAndArchive`; an error leaves the chain as it was, so only the successful run returns one.
Callers pass a non-negative `retainCount` (50). -/
def Blockchain.pruneAndArchive (bc : Blockchain) (retainCount : Nat) (archiveFilename : String)
    (now : BitVec 64) (io : ArchiveIO) : Except String (Blockchain × Option Archive) :=
  let totalBlocks := bc.blocks.length
  if totalBlocks ≤ retainCount then .ok (bc, none)
  else
    let archiveBlocks := bc.blocks.take (totalBlocks - retainCount)
    match io with
    | .marshalFails err => .error ("failed to marshal archive blocks: " ++ err)
    | .writeFails err => .error ("failed to write archive file: " ++ err)
    | .ok =>
      .ok (⟨bc.blocks.drop (totalBlocks - retainCount)⟩,
        some ⟨archiveFilename ++ "_" ++ formatInt now ++ ".json", archiveBlocks⟩)

/-- `AddBlock`: append, then prune to the last 50 blocks once the chain exceeds 100; a pruning
error is only printed. -/
def Blockchain.addBlock (bc : Blockchain) (b : Block) (now : BitVec 64) (io : ArchiveIO) : Blockchain :=
  let bc : Blockchain := ⟨bc.blocks ++ [b]⟩
  if 100 < bc.blocks.length then
    match bc.pruneAndArchive 50 "archive" now io with
    | .ok (pruned, _) => pruned
    | .error _ => bc
  else bc

theorem pruneAndArchive_blocks {bc bc' : Blockchain} {k : Nat} {f : String} {now : BitVec 64}
    {io : ArchiveIO} {a : Option Archive} (h : bc.pruneAndArchive k f now io = .ok (bc', a)) :
    bc'.blocks = bc.blocks.drop (bc.blocks.length - k) := by
  unfold Blockchain.pruneAndArchive at h
  dsimp only at h
  split at h
  · cases h
    rw [Nat.sub_eq_zero_of_le ‹_›, List.drop_zero]
  · split at h <;> cases h
    rfl

theorem addBlock_drop (bc : Blockchain) (b : Block) (now : BitVec 64) (io : ArchiveIO) :
    ∃ k, (k = 0 ∨ k < bc.blocks.length) ∧ (bc.addBlock b now io).blocks = bc.blocks.drop k ++ [b] := by
  unfold Blockchain.addBlock
  dsimp only
  split
  · rename_i hlen
    split
    · refine ⟨bc.blocks.length + 1 - 50, .inr (by simp at hlen; omega), ?_⟩
      rw [pruneAndArchive_blocks ‹_›]
      simp only [List.length_append, List.length_singleton]
      exact List.drop_append_of_le_length (by omega)
    · exact ⟨0, .inl rfl, rfl⟩
  · exact ⟨0, .inl rfl, rfl⟩

theorem addBlock_suffix (bc : Blockchain) (b : Block) (now : BitVec 64) (io : ArchiveIO) :
    ∃ n, (bc.addBlock b now io).blocks = (bc.blocks ++ [b]).drop n := by
  obtain ⟨k, hk, heq⟩ := addBlock_drop bc b now io
  exact ⟨k, heq.trans (List.drop_append_of_le_length (by omega)).symm⟩

theorem addBlock_of_lt {bc : Blockchain} (h : bc.blocks.length < 100) (b : Block) (now : BitVec 64)
    (io : ArchiveIO) : bc.addBlock b now io = ⟨bc.blocks ++ [b]⟩ := by
  simp only [Blockchain.addBlock, List.length_append, List.length_singleton]
  rw [if_neg (by omega)]

end LiteBlockchain
