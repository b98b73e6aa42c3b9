import LiteBlockchain.Prune
import LiteBlockchain.Handlers

/-!
The node's operations on its chain, each applied atomically: a mining iteration on the
current tip followed by `AddBlock`, the chain and block handlers on any payload, a pruning run
that may fail, and sub-block appends. Every run keeps the chain hash-linked.
-/

namespace LiteBlockchain.P2P

inductive ChainOp where
  | mine (fuel : Nat) (txNow blockNow : BitVec 64) (relationshipType : String)
      (receivers : List String) (text audio video : String) (txPool : TransactionPool)
      (difficulty : BitVec 64) (minerAddress : String) (reward : ℚ) (pruneNow : BitVec 64)
      (io : ArchiveIO)
  | chainUpdate (data : Option Json)
  | newBlock (data : Option Json)
  | prune (retainCount : Nat) (archiveFilename : String) (now : BitVec 64) (io : ArchiveIO)
  | subBlock (parentIndex : BitVec 64) (text audio video category : String) (now : BitVec 64)
      (fuel : Nat)
  | subBlockEx (parentIndex : BitVec 64) (text audio video category : String) (now : BitVec 64)
      (fuel : Nat)

def tipHash (bc : Blockchain) : String :=
  match bc.blocks.getLast? with
  | some b => b.hash
  | none => ""

variable (codec : BlockCodec)

/-- `none` is an operation that does not return: a mining loop still searching or a panic. -/
def applyOp (n : Node) : ChainOp → Option Node
  | .mine fuel txNow blockNow rel receivers text audio video pool d miner reward pruneNow io =>
    (createBlock fuel txNow blockNow (BitVec.ofNat 64 n.blockchain.blocks.length) (tipHash n.blockchain)
      rel receivers text audio video pool d miner reward).map
      fun mined => { n with blockchain := n.blockchain.addBlock mined.1 pruneNow io }
  | .chainUpdate data => (handleChainUpdate codec n data).toOption
  | .newBlock data => (handleNewBlock codec n data).toOption.map Prod.fst
  | .prune k archiveFilename now io =>
    match n.blockchain.pruneAndArchive k archiveFilename now io with
    | .ok (bc, _) => some { n with blockchain := bc }
    | .error _ => some n
  | .subBlock i text audio video category now fuel =>
    (n.blockchain.updateBlockWithSubBlock i text audio video category now fuel).map
      fun bc => { n with blockchain := bc }
  | .subBlockEx i text audio video category now fuel =>
    (n.blockchain.updateBlockWithSubBlockEx i text audio video category now fuel).map
      fun bc => { n with blockchain := bc }

def NodeStep (n n' : Node) : Prop := ∃ op, applyOp codec n op = some n'

theorem toOption_eq_some {ε α : Type} {e : Except ε α} {a : α} (h : e.toOption = some a) : e = .ok a := by
  cases e <;> simp_all [Except.toOption]

theorem addBlock_hashLinked {bc : Blockchain} {b : Block} (now : BitVec 64) (io : ArchiveIO)
    (hl : HashLinked bc.blocks) (hb : b.hash = calculateHash b) (hp : b.prevHash = tipHash bc) :
    HashLinked (bc.addBlock b now io).blocks := by
  obtain ⟨k, hk⟩ := addBlock_suffix bc b now io
  rw [hk]
  refine (hl.append_block hb fun last hlast => ?_).drop k
  rw [hp, tipHash, Option.mem_def.mp hlast]

theorem applyOp_hashLinked {n n' : Node} {op : ChainOp} (h : applyOp codec n op = some n')
    (hl : HashLinked n.blockchain.blocks) : HashLinked n'.blockchain.blocks := by
  cases op with
  | mine =>
    obtain ⟨⟨b, pool'⟩, hb, rfl⟩ := Option.map_eq_some'.mp h
    obtain ⟨hh, hp, -⟩ := createBlock_hash hb
    exact addBlock_hashLinked _ _ hl hh hp
  | chainUpdate data =>
    exact handleChainUpdate_hashLinked codec (toOption_eq_some h) hl
  | newBlock data =>
    obtain ⟨⟨n'', effects⟩, hr, rfl⟩ := Option.map_eq_some'.mp h
    exact handleNewBlock_hashLinked codec (toOption_eq_some hr) hl
  | prune k archiveFilename now io =>
    simp only [applyOp] at h
    split at h <;> cases h
    · rw [pruneAndArchive_blocks ‹_›]
      exact hl.drop _
    · exact hl
  | subBlock | subBlockEx =>
    obtain ⟨bc, hbc, rfl⟩ := Option.map_eq_some'.mp h
    exact updateBlockWithSubBlock_hashLinked hbc hl

theorem chainOps_hashLinked {n n' : Node} (h0 : n.blockchain.blocks = [])
    (h : Relation.ReflTransGen (NodeStep codec) n n') : HashLinked n'.blockchain.blocks := by
  induction h with
  | refl => rw [h0]; exact ⟨by simp, List.chain'_nil⟩
  | tail _ hs ih => obtain ⟨op, hop⟩ := hs; exact applyOp_hashLinked codec hop ih

theorem chainOps_hashLinked_minePrune :
    let codec₀ : BlockCodec := ⟨fun _ => .null, fun _ => none⟩
    let n₀ : Node := ⟨"localhost:8000", ["localhost:8001"], newBlockchain⟩
    let shell : Block :=
      { index := 0, timestamp := 1, prevHash := "", hash := "", nonce := 0,
        relationshipType := "one-to-one", receivers := ["ReceiverA"], textData := "T", audioData := "A",
        videoData := "V", transactions := [newTransaction "COINBASE" "Miner1" 0 0 1], subBlocks := [],
        difficulty := 0, category := "main" }
    let next : Block := { shell with index := 1, prevHash := calculateHash shell }
    let n₃ : Node := { n₀ with blockchain := ⟨[{ next with hash := calculateHash next }]⟩ }
    (n₀.blockchain.blocks = [] ∧ Relation.ReflTransGen (NodeStep codec₀) n₀ n₃) ∧
      HashLinked n₃.blockchain.blocks := by
  intro codec₀ n₀ shell next n₃
  let mine : ChainOp := .mine 1 1 1 "one-to-one" ["ReceiverA"] "T" "A" "V" ⟨[]⟩ 0 "Miner1" 0 2 .ok
  let n₁ : Node := { n₀ with blockchain := ⟨[{ shell with hash := calculateHash shell }]⟩ }
  let n₂ : Node := { n₀ with blockchain := ⟨[{ shell with hash := calculateHash shell }, { next with hash := calculateHash next }]⟩ }
  have run : Relation.ReflTransGen (NodeStep codec₀) n₀ n₃ :=
    (((Relation.ReflTransGen.single (⟨mine, rfl⟩ : NodeStep codec₀ n₀ n₁)).tail
      (⟨mine, rfl⟩ : NodeStep codec₀ n₁ n₂)).tail (⟨.prune 1 "archive" 0 .ok, rfl⟩ : NodeStep codec₀ n₂ n₃))
  exact ⟨⟨rfl, run⟩, chainOps_hashLinked codec₀ rfl run⟩

theorem pruneAndArchive_alone (n : Node) (k : Nat) (f : String) (now : BitVec 64) (io : ArchiveIO) :
    let c := n.blockchain.blocks
    (c.length ≤ k → n.blockchain.pruneAndArchive k f now io = .ok (n.blockchain, none) ∧
      applyOp codec n (.prune k f now io) = some n) ∧
    (k < c.length → io = .ok →
      n.blockchain.pruneAndArchive k f now io =
        .ok (⟨c.drop (c.length - k)⟩, some ⟨f ++ "_" ++ formatInt now ++ ".json", c.take (c.length - k)⟩) ∧
      c.take (c.length - k) ++ c.drop (c.length - k) = c ∧ (c.drop (c.length - k)).length = k ∧
      applyOp codec n (.prune k f now io) = some { n with blockchain := ⟨c.drop (c.length - k)⟩ }) ∧
    (k < c.length → io ≠ .ok →
      (∃ err, n.blockchain.pruneAndArchive k f now io = .error ("failed to marshal archive blocks: " ++ err) ∨
        n.blockchain.pruneAndArchive k f now io = .error ("failed to write archive file: " ++ err)) ∧
      applyOp codec n (.prune k f now io) = some n) := by
  dsimp only
  have happly : applyOp codec n (.prune k f now io) =
      match n.blockchain.pruneAndArchive k f now io with
      | .ok (bc, _) => some { n with blockchain := bc }
      | .error _ => some n := rfl
  refine ⟨fun hk => ?_, fun hk hio => ?_, fun hk hio => ?_⟩
  · have h : n.blockchain.pruneAndArchive k f now io = .ok (n.blockchain, none) := by
      rw [Blockchain.pruneAndArchive, if_pos hk]
    rw [happly, h]
    exact ⟨rfl, rfl⟩
  · subst hio
    have h : n.blockchain.pruneAndArchive k f now .ok =
        .ok (⟨n.blockchain.blocks.drop (n.blockchain.blocks.length - k)⟩,
          some ⟨f ++ "_" ++ formatInt now ++ ".json", n.blockchain.blocks.take (n.blockchain.blocks.length - k)⟩) := by
      rw [Blockchain.pruneAndArchive, if_neg (by omega)]
    rw [happly, h]
    exact ⟨rfl, List.take_append_drop _ _, by simp only [List.length_drop]; omega, rfl⟩
  · have h : ∃ err, n.blockchain.pruneAndArchive k f now io = .error ("failed to marshal archive blocks: " ++ err) ∨
        n.blockchain.pruneAndArchive k f now io = .error ("failed to write archive file: " ++ err) := by
      cases io with
      | ok => exact absurd rfl hio
      | marshalFails err => exact ⟨err, .inl (by rw [Blockchain.pruneAndArchive, if_neg (by omega)])⟩
      | writeFails err => exact ⟨err, .inr (by rw [Blockchain.pruneAndArchive, if_neg (by omega)])⟩
    obtain ⟨err, he | he⟩ := h <;> exact ⟨⟨err, by rw [he]; simp⟩, by rw [happly, he]⟩

theorem pruneAndArchive_alone_pair :
    let codec₀ : BlockCodec := ⟨fun _ => .null, fun _ => none⟩
    let g : Block := ⟨0, 0, "", "", 0, "", [], "", "", "", [], [], 1, "main"⟩
    let n : Node := ⟨"localhost:8000", [], ⟨[g, { g with index := 1 }]⟩⟩
    (1 < n.blockchain.blocks.length ∧ ArchiveIO.ok = .ok) ∧
      applyOp codec₀ n (.prune 1 "archive_manual" 0 .ok) = some { n with blockchain := ⟨[{ g with index := 1 }]⟩ } := by
  intro codec₀ g n
  have hk : 1 < n.blockchain.blocks.length := by decide
  exact ⟨⟨hk, rfl⟩, ((pruneAndArchive_alone codec₀ n 1 "archive_manual" 0 .ok).2.1 hk rfl).2.2.2⟩

end LiteBlockchain.P2P
