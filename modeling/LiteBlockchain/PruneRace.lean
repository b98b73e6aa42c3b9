import LiteBlockchain.MinerRace

/-!
`PruneAndArchive` split at its archive write: step 1 reads `totalBlocks`, and writes the blocks
before the last `retainCount` to the archive; step 2 sets `bc.Blocks` to the chain it then finds,
sliced at the offset step 1 computed. Other steps of the node run in between, each atomically.
-/

namespace LiteBlockchain.P2P

structure PruneRun where
  totalBlocks : Nat
  retainCount : Nat
  archive : Archive

/-- Step 1 of `PruneAndArchive`; `none` is a run that has nothing to prune. -/
def pruneArchive (bc : Blockchain) (retainCount : Nat) (archiveFilename : String) (now : BitVec 64)
    (io : ArchiveIO) : Except String (Option PruneRun) :=
  let totalBlocks := bc.blocks.length
  if totalBlocks ≤ retainCount then .ok none
  else
    let archiveBlocks := bc.blocks.take (totalBlocks - retainCount)
    match io with
    | .marshalFails err => .error ("failed to marshal archive blocks: " ++ err)
    | .writeFails err => .error ("failed to write archive file: " ++ err)
    | .ok => .ok (some ⟨totalBlocks, retainCount,
        ⟨archiveFilename ++ "_" ++ formatInt now ++ ".json", archiveBlocks⟩⟩)

/-- Step 2: `bc.Blocks[totalBlocks-retainCount:]` on the chain as it is now. -/
def PruneRun.truncate (r : PruneRun) (blocks : List Block) : Except Panic (List Block) :=
  if blocks.length < r.totalBlocks - r.retainCount then .error .sliceBoundsOutOfRange
  else .ok (blocks.drop (r.totalBlocks - r.retainCount))

theorem pruneArchive_of_lt {bc : Blockchain} {retainCount : Nat} (archiveFilename : String)
    (now : BitVec 64) (h : retainCount < bc.blocks.length) :
    pruneArchive bc retainCount archiveFilename now .ok = .ok (some ⟨bc.blocks.length, retainCount,
      ⟨archiveFilename ++ "_" ++ formatInt now ++ ".json", bc.blocks.take (bc.blocks.length - retainCount)⟩⟩) := by
  rw [pruneArchive, if_neg (by omega)]

theorem pruneArchive_eq_some {bc : Blockchain} {retainCount : Nat} {archiveFilename : String}
    {now : BitVec 64} {io : ArchiveIO} {r : PruneRun}
    (h : pruneArchive bc retainCount archiveFilename now io = .ok (some r)) :
    retainCount < bc.blocks.length ∧ r = ⟨bc.blocks.length, retainCount,
      ⟨archiveFilename ++ "_" ++ formatInt now ++ ".json", bc.blocks.take (bc.blocks.length - retainCount)⟩⟩ := by
  unfold pruneArchive at h
  dsimp only at h
  split at h
  · cases h
  · split at h <;> cases h
    exact ⟨by omega, rfl⟩

structure PruneState where
  node : Node
  runs : List PruneRun

/-- The steps that interleave: both steps of any number of pruning runs, the handlers on a
decoded chain or block, and the auto-miner's iterations, each with `AddBlock` and its automatic
prune. A step that panics ends the run. -/
inductive PruneStep : PruneState → PruneState → Prop
  | archive {s : PruneState} {r : PruneRun} (retainCount : Nat) (archiveFilename : String)
      (now : BitVec 64) (io : ArchiveIO)
      (h : pruneArchive s.node.blockchain retainCount archiveFilename now io = .ok (some r)) :
      PruneStep s { s with runs := r :: s.runs }
  | truncate {s : PruneState} {r : PruneRun} {before after : List PruneRun} {kept : List Block}
      (hr : s.runs = before ++ r :: after) (h : r.truncate s.node.blockchain.blocks = .ok kept) :
      PruneStep s ⟨{ s.node with blockchain := ⟨kept⟩ }, before ++ after⟩
  | chainUpdate {s : PruneState} {n : Node} (incomingChain : List (Option Block))
      (h : handleIncomingChain s.node incomingChain = .ok n) : PruneStep s { s with node := n }
  | newBlock {s : PruneState} {n : Node} {appended : Bool} (newBlock : Option Block)
      (h : appendIncomingBlock s.node newBlock = .ok (n, appended)) : PruneStep s { s with node := n }
  | mine {s : PruneState} {n : Node} (fuel : Nat) (txNow blockNow : BitVec 64) (txPool : TransactionPool)
      (pruneNow : BitVec 64) (io : ArchiveIO) (h : autoMine s.node fuel txNow blockNow txPool pruneNow io = some n) :
      PruneStep s { s with node := n }

def ExtendingStep (s s' : PruneState) : Prop :=
  PruneStep s s' ∧ s.node.blockchain.blocks <+: s'.node.blockchain.blocks

theorem extendingStep_newBlock {s : PruneState} {n : Node} {newBlock : Option Block} {appended : Bool}
    (h : appendIncomingBlock s.node newBlock = .ok (n, appended)) : ExtendingStep s { s with node := n } := by
  refine ⟨.newBlock newBlock h, ?_⟩
  unfold appendIncomingBlock at h
  split at h
  · cases h
  · cases h
  · split at h <;> cases h
    · exact List.prefix_append _ _
    · exact List.prefix_refl _

theorem extendingStep_mine {s : PruneState} {n : Node} {fuel : Nat} {txNow blockNow : BitVec 64}
    {txPool : TransactionPool} {pruneNow : BitVec 64} {io : ArchiveIO}
    (h : autoMine s.node fuel txNow blockNow txPool pruneNow io = some n)
    (hlen : s.node.blockchain.blocks.length < 100) : ExtendingStep s { s with node := n } := by
  refine ⟨.mine fuel txNow blockNow txPool pruneNow io h, ?_⟩
  obtain ⟨⟨b, pool'⟩, -, rfl⟩ := Option.map_eq_some'.mp h
  show s.node.blockchain.blocks <+: (s.node.blockchain.addBlock b pruneNow io).blocks
  unfold Blockchain.addBlock
  rw [if_neg (by simp; omega)]
  exact List.prefix_append _ _

theorem extendingRun_extends {s s' : PruneState} (h : Relation.ReflTransGen (ExtendingStep) s s') :
    s.node.blockchain.blocks <+: s'.node.blockchain.blocks := by
  induction h with
  | refl => exact List.prefix_refl _
  | tail _ hstep ih => exact ih.trans hstep.2

theorem pruneTruncate_of_extending {s₀ s : PruneState} {r : PruneRun} {retainCount : Nat}
    {archiveFilename : String} {now : BitVec 64} {io : ArchiveIO}
    (h1 : pruneArchive s₀.node.blockchain retainCount archiveFilename now io = .ok (some r))
    (hrun : Relation.ReflTransGen (ExtendingStep) { s₀ with runs := r :: s₀.runs } s) :
    r.archive.blocks = s₀.node.blockchain.blocks.take (s₀.node.blockchain.blocks.length - retainCount) ∧
      ∃ kept, r.truncate s.node.blockchain.blocks = .ok kept ∧
        s.node.blockchain.blocks = r.archive.blocks ++ kept := by
  obtain ⟨-, rfl⟩ := pruneArchive_eq_some h1
  have hpre := (List.take_prefix (s₀.node.blockchain.blocks.length - retainCount) _).trans
    (extendingRun_extends hrun)
  have hlen := hpre.length_le
  rw [List.length_take_of_le (Nat.sub_le _ _)] at hlen
  refine ⟨rfl, _, if_neg (by dsimp only; omega), ?_⟩
  have happ := List.prefix_iff_eq_append.mp hpre
  rw [List.length_take_of_le (Nat.sub_le _ _)] at happ
  exact happ.symm

theorem pruneTruncate_of_extending_race :
    let g : Block := { raceGenesis 1 with hash := raceTip }
    let n : Node := ⟨"localhost:8000", ["localhost:8001"], ⟨[g]⟩⟩
    let b₀ : Block := { raceGenesis 0 with index := 2, prevHash := raceMined.hash }
    let b : Block := { b₀ with hash := calculateHash b₀ }
    let s₀ : PruneState := ⟨n, []⟩
    let r : PruneRun := ⟨1, 0, ⟨"archive_manual" ++ "_" ++ formatInt 0 ++ ".json", [g]⟩⟩
    let s : PruneState := ⟨{ n with blockchain := ⟨[g, raceMined, b]⟩ }, [r]⟩
    (pruneArchive s₀.node.blockchain 0 "archive_manual" 0 .ok = .ok (some r) ∧
      Relation.ReflTransGen (ExtendingStep) { s₀ with runs := r :: s₀.runs } s) ∧
    r.archive.blocks = s₀.node.blockchain.blocks.take (s₀.node.blockchain.blocks.length - 0) ∧
      ∃ kept, r.truncate s.node.blockchain.blocks = .ok kept ∧
        s.node.blockchain.blocks = r.archive.blocks ++ kept := by
  intro g n b₀ b s₀ r s
  have h1 : pruneArchive s₀.node.blockchain 0 "archive_manual" 0 .ok = .ok (some r) :=
    pruneArchive_of_lt _ _ (by decide)
  have mine : ExtendingStep { s₀ with runs := [r] } ⟨{ n with blockchain := ⟨[g, raceMined]⟩ }, [r]⟩ :=
    extendingStep_mine (autoMine_race n rfl) (by decide)
  have append : appendIncomingBlock { n with blockchain := ⟨[g, raceMined]⟩ } (some b) = .ok (s.node, true) := by
    simp only [appendIncomingBlock, List.getLast?_cons_cons, List.getLast?_singleton]
    rw [if_pos ⟨trivial, calculateHash_set_hash b₀ _⟩]
    rfl
  have run : Relation.ReflTransGen (ExtendingStep) { s₀ with runs := r :: s₀.runs } s :=
    (Relation.ReflTransGen.single mine).tail (extendingStep_newBlock append)
  exact ⟨⟨h1, run⟩, pruneTruncate_of_extending h1 run⟩

def sealedChain (genesis base : Block) : Nat → List Block
  | 0 => [{ genesis with hash := calculateHash genesis }]
  | n + 1 =>
    let chain := sealedChain genesis base n
    let b : Block := { base with index := BitVec.ofNat 64 (n + 1), prevHash := tipHash ⟨chain⟩ }
    chain ++ [{ b with hash := calculateHash b }]

section SealedChain

variable (genesis base : Block)

theorem sealedChain_length (n : Nat) : (sealedChain genesis base n).length = n + 1 := by
  induction n with
  | zero => rfl
  | succ n ih => simp [sealedChain, ih]

theorem sealedChain_head? (n : Nat) :
    (sealedChain genesis base n).head? = some { genesis with hash := calculateHash genesis } := by
  induction n with
  | zero => rfl
  | succ n ih =>
    simp only [sealedChain, List.head?_append, ih]
    rfl

theorem sealedChain_valid (hg : genesis.prevHash = "") (n : Nat) :
    isValidChain (sealedChain genesis base n) = true := by
  rw [isValidChain_iff, sealedChain_head?]
  refine ⟨by simp [hg], ?_⟩
  induction n with
  | zero => exact HashLinked.of_isValidChain (isValidChain_sealed_genesis genesis hg)
  | succ n ih =>
    refine ih.append_block rfl fun last hlast => ?_
    simp [tipHash, Option.mem_def.mp hlast]

theorem cumulativeDifficulty_sealedChain (hb : base.difficulty = 0) (n : Nat) :
    cumulativeDifficulty (sealedChain genesis base n) = genesis.difficulty := by
  induction n with
  | zero => simp [sealedChain, cumulativeDifficulty]
  | succ n ih => simp [sealedChain, cumulativeDifficulty_append, ih, hb]

end SealedChain

theorem pruneRace_loses_block :
    ¬ ∀ s₀ s : PruneState, s₀.runs = [] → Relation.ReflTransGen (PruneStep) s₀ s →
      ∀ r ∈ s.runs, ∃ kept, r.truncate s.node.blockchain.blocks = .ok kept ∧
        (∀ b ∈ s.node.blockchain.blocks.take (s.node.blockchain.blocks.length - kept.length),
          b ∈ r.archive.blocks) ∧
        kept = s.node.blockchain.blocks.drop (s.node.blockchain.blocks.length - r.retainCount) := by
  intro hall
  let g₀ : Block := ⟨0, 0, "", "", 0, "", [], "", "", "", [], [], 1, "main"⟩
  obtain ⟨chain, hlen, hvalid, hcd⟩ : ∃ chain : List Block, chain.length = 51 ∧
      isValidChain chain = true ∧ cumulativeDifficulty chain = 1 :=
    ⟨_, sealedChain_length g₀ { g₀ with difficulty := 0 } 50, sealedChain_valid _ _ rfl 50,
      cumulativeDifficulty_sealedChain _ _ rfl 50⟩
  let g' : Block := { g₀ with difficulty := 2, hash := calculateHash { g₀ with difficulty := 2 } }
  let n₀ : Node := ⟨"localhost:8000", ["localhost:8001"], newBlockchain⟩
  have adopt : handleIncomingChain n₀ (chain.map some) = .ok { n₀ with blockchain := ⟨chain⟩ } := by
    rw [handleIncomingChain_map_some, replaceChain_eq, if_pos ⟨hvalid, by rw [hcd]; decide⟩]
  have archived := @pruneArchive_of_lt ⟨chain⟩ 50 "archive_manual" 0 (by simp [hlen])
  have replaced : handleIncomingChain { n₀ with blockchain := ⟨chain⟩ } ([g'].map some) =
      .ok { n₀ with blockchain := ⟨[g']⟩ } := by
    rw [handleIncomingChain_map_some, replaceChain_eq,
      if_pos ⟨isValidChain_sealed_genesis { g₀ with difficulty := 2 } rfl, by rw [hcd]; decide⟩]
  have run := (((Relation.ReflTransGen.refl (r := PruneStep) (a := ⟨n₀, []⟩)).tail
    (.chainUpdate _ adopt)).tail (.archive 50 "archive_manual" 0 .ok archived)).tail (.chainUpdate _ replaced)
  obtain ⟨kept, htrunc, -, hkept⟩ := hall _ _ rfl run _ (List.mem_singleton_self _)
  simp only [PruneRun.truncate, hlen] at htrunc hkept
  rw [if_neg (by decide)] at htrunc
  cases htrunc
  exact List.cons_ne_nil g' [] hkept.symm

end LiteBlockchain.P2P
