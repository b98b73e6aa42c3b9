import LiteBlockchain.NodeRun
import LiteBlockchain.ForkChoice

namespace LiteBlockchain.P2P

def totalDifficulty (chain : List Block) : Int := (chain.map fun b => b.difficulty.toInt).sum

def FitsInt (chain : List Block) : Prop :=
  (∀ b ∈ chain, 0 ≤ b.difficulty.toInt) ∧ totalDifficulty chain < 2 ^ 63

instance : DecidablePred FitsInt := fun chain =>
  inferInstanceAs (Decidable ((∀ b ∈ chain, 0 ≤ b.difficulty.toInt) ∧ totalDifficulty chain < 2 ^ 63))

/-- The operations of the chain steps other than pruning: every operation but an explicit prune,
mining only while the chain holds fewer than 100 blocks, so that `AddBlock` does not prune. -/
def ChainOp.isGrowth (n : Node) : ChainOp → Bool
  | .mine .. => decide (n.blockchain.blocks.length < 100)
  | .prune .. => false
  | _ => true

variable (codec : BlockCodec)

def GrowthStep (n n' : Node) : Prop := ∃ op : ChainOp, op.isGrowth n = true ∧ applyOp codec n op = some n'

theorem totalDifficulty_append (c₁ c₂ : List Block) :
    totalDifficulty (c₁ ++ c₂) = totalDifficulty c₁ + totalDifficulty c₂ := by
  simp [totalDifficulty]

@[simp] theorem totalDifficulty_singleton (b : Block) : totalDifficulty [b] = b.difficulty.toInt := by
  simp [totalDifficulty]

theorem totalDifficulty_nonneg {chain : List Block} (h : ∀ b ∈ chain, 0 ≤ b.difficulty.toInt) :
    0 ≤ totalDifficulty chain :=
  List.sum_nonneg (by simpa using h)

theorem toInt_cumulativeDifficulty (chain : List Block) :
    (cumulativeDifficulty chain).toInt = (totalDifficulty chain).bmod (2 ^ 64) := by
  induction chain with
  | nil => rfl
  | cons b chain ih =>
    rw [← List.singleton_append, cumulativeDifficulty_append, BitVec.toInt_add, ih,
      cumulativeDifficulty_singleton, Int.add_bmod_bmod, totalDifficulty_append, totalDifficulty_singleton]

theorem weight_eq_totalDifficulty {chain : List Block} (h : FitsInt chain) :
    weight chain = totalDifficulty chain :=
  toInt_eq_of_bmod (toInt_cumulativeDifficulty chain) (by have := totalDifficulty_nonneg h.1; omega) h.2

theorem totalDifficulty_le_append {chain : List Block} {b : Block}
    (h : ∀ x ∈ chain ++ [b], 0 ≤ x.difficulty.toInt) :
    totalDifficulty chain ≤ totalDifficulty (chain ++ [b]) := by
  have := h b (by simp)
  rw [totalDifficulty_append, totalDifficulty_singleton]
  omega

theorem totalDifficulty_updateBlockWithSubBlock {bc bc' : Blockchain} {i : BitVec 64} {t a v c : String}
    {now : BitVec 64} {fuel : Nat} (h : bc.updateBlockWithSubBlock i t a v c now fuel = some bc') :
    totalDifficulty bc'.blocks = totalDifficulty bc.blocks := by
  have strip (chain : List Block) : totalDifficulty (chain.map stripSubBlocks) = totalDifficulty chain := by
    simp only [totalDifficulty, List.map_map]
    rfl
  rw [← strip, updateBlockWithSubBlock_strip h, strip]

theorem replaceChain_blocks_cases (bc : Blockchain) (c : List Block) :
    (bc.replaceChain c).2.blocks = bc.blocks ∨
      (bc.replaceChain c).2.blocks = c ∧ weight bc.blocks < weight c := by
  rw [replaceChain_eq]
  split
  · rename_i hadopt
    exact .inr ⟨rfl, by simpa [BitVec.slt, weight] using hadopt.2⟩
  · exact .inl rfl

theorem growthStep_totalDifficulty {n n' : Node} (h : GrowthStep codec n n')
    (hn : FitsInt n.blockchain.blocks) (hn' : FitsInt n'.blockchain.blocks) :
    totalDifficulty n.blockchain.blocks ≤ totalDifficulty n'.blockchain.blocks := by
  obtain ⟨op, hg, h⟩ := h
  cases op with
  | mine =>
    obtain ⟨⟨b, pool'⟩, -, rfl⟩ := Option.map_eq_some'.mp h
    rw [addBlock_of_lt (of_decide_eq_true hg)] at hn' ⊢
    exact totalDifficulty_le_append hn'.1
  | chainUpdate data =>
    rcases handleChainUpdate_eq_ok codec (toOption_eq_some h) with rfl | ⟨c, rfl⟩
    · exact le_rfl
    rcases replaceChain_blocks_cases n.blockchain c with hc | ⟨hc, hw⟩
    · exact hc ▸ le_rfl
    · dsimp only at hn' ⊢
      rw [hc] at hn' ⊢
      rw [weight_eq_totalDifficulty hn, weight_eq_totalDifficulty hn'] at hw
      exact hw.le
  | newBlock data =>
    obtain ⟨⟨n'', effects⟩, hr, rfl⟩ := Option.map_eq_some'.mp h
    rcases handleNewBlock_eq_ok codec (toOption_eq_some hr) with ⟨rfl, -⟩ | ⟨newBlock, appended, ha, -⟩
    · exact le_rfl
    rcases appendIncomingBlock_eq_ok ha with rfl | ⟨b, rfl⟩
    · exact le_rfl
    · exact totalDifficulty_le_append hn'.1
  | prune => cases hg
  | subBlock | subBlockEx =>
    obtain ⟨bc, hbc, rfl⟩ := Option.map_eq_some'.mp h
    exact (totalDifficulty_updateBlockWithSubBlock hbc).ge

theorem growthRun_totalDifficulty {n₀ n : Node} (h0 : FitsInt n₀.blockchain.blocks)
    (h : Relation.ReflTransGen (fun n n' => GrowthStep codec n n' ∧ FitsInt n'.blockchain.blocks) n₀ n) :
    weight n₀.blockchain.blocks ≤ weight n.blockchain.blocks ∧
      totalDifficulty n₀.blockchain.blocks ≤ totalDifficulty n.blockchain.blocks := by
  have run : FitsInt n.blockchain.blocks ∧
      totalDifficulty n₀.blockchain.blocks ≤ totalDifficulty n.blockchain.blocks := by
    induction h with
    | refl => exact ⟨h0, le_rfl⟩
    | tail _ hs ih => exact ⟨hs.2, ih.2.trans (growthStep_totalDifficulty codec hs.1 ih.1 hs.2)⟩
  rw [weight_eq_totalDifficulty h0, weight_eq_totalDifficulty run.1]
  exact ⟨run.2, run.2⟩

theorem applyOp_chainUpdate_adopt {n : Node} {c : List Block} {data : Json}
    (hd : unmarshalBlockSlice codec data = some (c.map some)) (hv : isValidChain c = true)
    (hw : (cumulativeDifficulty n.blockchain.blocks).slt (cumulativeDifficulty c) = true) :
    applyOp codec n (.chainUpdate (some data)) = some { n with blockchain := ⟨c⟩ } := by
  show (handleChainUpdate codec n (some data)).toOption = _
  simp only [handleChainUpdate, unmarshal, hd, handleIncomingChain_map_some, replaceChain_eq,
    if_pos (And.intro hv hw)]
  rfl

theorem applyOp_newBlock_extend {n : Node} {last b : Block} {data : Json}
    (hd : unmarshalBlockPtr codec data = some (some b)) (hlast : n.blockchain.blocks.getLast? = some last)
    (hb : b.prevHash = last.hash ∧ b.hash = calculateHash b) :
    applyOp codec n (.newBlock (some data)) = some { n with blockchain := ⟨n.blockchain.blocks ++ [b]⟩ } := by
  show ((handleNewBlock codec n (some data)).toOption.map Prod.fst) = _
  simp only [handleNewBlock, unmarshal, hd, appendIncomingBlock, hlast, if_pos hb]
  rfl

theorem growthRun_totalDifficulty_adopt :
    let g₀ : Block := ⟨0, 0, "", "", 0, "", [], "", "", "", [], [], 1, "main"⟩
    let codec₀ : BlockCodec := ⟨fun _ => .null, fun _ => some { g₀ with hash := calculateHash g₀ }⟩
    let n₀ : Node := ⟨"localhost:8000", [], newBlockchain⟩
    let n₁ : Node := { n₀ with blockchain := ⟨[{ g₀ with hash := calculateHash g₀ }]⟩ }
    (FitsInt n₀.blockchain.blocks ∧
      Relation.ReflTransGen (fun n n' => GrowthStep codec₀ n n' ∧ FitsInt n'.blockchain.blocks) n₀ n₁) ∧
    weight n₀.blockchain.blocks ≤ weight n₁.blockchain.blocks ∧
      totalDifficulty n₀.blockchain.blocks ≤ totalDifficulty n₁.blockchain.blocks := by
  intro g₀ codec₀ n₀ n₁
  have h0 : FitsInt n₀.blockchain.blocks := by decide
  have h1 : FitsInt n₁.blockchain.blocks := by decide
  have hstep : GrowthStep codec₀ n₀ n₁ :=
    ⟨.chainUpdate _, rfl, applyOp_chainUpdate_adopt codec₀
      (show unmarshalBlockSlice codec₀ (.array [.object []]) = some ([{ g₀ with hash := calculateHash g₀ }].map some)
        from rfl) (isValidChain_sealed_genesis g₀ rfl) (by decide)⟩
  exact ⟨⟨h0, .single ⟨hstep, h1⟩⟩, growthRun_totalDifficulty codec₀ h0 (.single ⟨hstep, h1⟩)⟩

theorem growthRun_wraps :
    ∃ (codec : BlockCodec) (n : Node) (data : Json) (n' : Node),
      Relation.ReflTransGen (GrowthStep codec) ⟨"localhost:8000", [], newBlockchain⟩ n ∧
      applyOp codec n (.chainUpdate (some data)) = some n' ∧
      (∀ b ∈ n.blockchain.blocks ++ n'.blockchain.blocks, 0 ≤ b.difficulty.toInt) ∧
      totalDifficulty n'.blockchain.blocks < totalDifficulty n.blockchain.blocks := by
  let g₀ : Block := ⟨0, 0, "", "", 0, "", [], "", "", "", [], [], 9223372036854775807, "main"⟩
  let b₀ : Block := { g₀ with index := 1, prevHash := calculateHash g₀, difficulty := 1 }
  let h₀ : Block := { g₀ with difficulty := 0 }
  let g : Block := { g₀ with hash := calculateHash g₀ }
  let b : Block := { b₀ with hash := calculateHash b₀ }
  let h : Block := { h₀ with hash := calculateHash h₀ }
  let codec : BlockCodec := ⟨fun _ => .null, fun fields => [g, b, h][fields.length]?⟩
  let n₀ : Node := ⟨"localhost:8000", [], newBlockchain⟩
  have step₁ : applyOp codec n₀ (.chainUpdate (some (.array [.object []]))) =
      some { n₀ with blockchain := ⟨[g]⟩ } :=
    applyOp_chainUpdate_adopt codec rfl (isValidChain_sealed_genesis g₀ rfl) (by decide)
  have step₂ : applyOp codec { n₀ with blockchain := ⟨[g]⟩ } (.newBlock (some (.object [("", .null)]))) =
      some { n₀ with blockchain := ⟨[g] ++ [b]⟩ } :=
    applyOp_newBlock_extend codec rfl rfl ⟨rfl, (calculateHash_set_hash b₀ _).symm⟩
  have step₃ : applyOp codec { n₀ with blockchain := ⟨[g] ++ [b]⟩ }
      (.chainUpdate (some (.array [.object [("", .null), ("", .null)]]))) =
      some { n₀ with blockchain := ⟨[h]⟩ } :=
    applyOp_chainUpdate_adopt codec rfl (isValidChain_sealed_genesis h₀ rfl) (by decide)
  exact ⟨codec, _, _, _, .tail (.single ⟨.chainUpdate _, rfl, step₁⟩) ⟨.newBlock _, rfl, step₂⟩, step₃,
    by decide, by decide⟩

end LiteBlockchain.P2P
