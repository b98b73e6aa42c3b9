import LiteBlockchain.Block

namespace LiteBlockchain

structure TransactionPool where
  transactions : List Transaction

def TransactionPool.addTransaction (tp : TransactionPool) (tx : Transaction) : TransactionPool :=
  ⟨tp.transactions ++ [tx]⟩

def TransactionPool.clear (_ : TransactionPool) : TransactionPool := ⟨[]⟩

/-- `MineBlock`'s loop with one pass per unit of fuel: set `Hash`, stop on the target prefix,
otherwise increment the (wrapping) `Nonce`. `none` is a loop that has not returned yet. -/
def mineLoop (target : String) : Nat → Block → Option Block
  | 0, _ => none
  | fuel + 1, b =>
    let b := { b with hash := calculateHash b }
    if hasPrefix b.hash target then some b else mineLoop target fuel { b with nonce := b.nonce + 1 }

/-- `strings.Repeat` panics on a negative count, so a negative difficulty never returns. -/
def mineBlock (fuel : Nat) (b : Block) (difficulty : BitVec 64) : Option Block :=
  if difficulty.toInt < 0 then none else mineLoop ⟨List.replicate difficulty.toNat '0'⟩ fuel b

/-- `CreateBlock` returns the mined block and leaves the pool with the coinbase transaction
prepended; `txNow` and `blockNow` are the two readings of `time.Now()`. -/
def createBlock (fuel : Nat) (txNow blockNow index : BitVec 64) (prevHash relationshipType : String)
    (receivers : List String) (text audio video : String) (txPool : TransactionPool)
    (difficulty : BitVec 64) (minerAddress : String) (reward : ℚ) : Option (Block × TransactionPool) :=
  let coinbaseTx := newTransaction "COINBASE" minerAddress reward 0 txNow
  let txPool : TransactionPool := ⟨coinbaseTx :: txPool.transactions⟩
  let block : Block :=
    { index, timestamp := blockNow, prevHash, hash := "", nonce := 0, relationshipType, receivers,
      textData := text, audioData := audio, videoData := video, transactions := txPool.transactions,
      subBlocks := [], difficulty, category := "main" }
  (mineBlock fuel block difficulty).map (·, txPool)

theorem mineLoop_spec {target : String} {fuel : Nat} {b b' : Block}
    (h : mineLoop target fuel b = some b') :
    ∃ n, b' = { b with nonce := n, hash := calculateHash { b with nonce := n } } ∧
      hasPrefix b'.hash target := by
  induction fuel generalizing b with
  | zero => cases h
  | succ fuel ih =>
    simp only [mineLoop] at h
    split at h
    · cases h
      exact ⟨b.nonce, by cases b; rfl, ‹_›⟩
    · obtain ⟨n, rfl, hp⟩ := ih h
      exact ⟨n, by cases b; rfl, hp⟩

theorem mineBlock_spec {fuel : Nat} {b b' : Block} {d : BitVec 64} (h : mineBlock fuel b d = some b') :
    ∃ n, b' = { b with nonce := n, hash := calculateHash { b with nonce := n } } ∧
      hasPrefix b'.hash ⟨List.replicate d.toNat '0'⟩ := by
  unfold mineBlock at h
  split at h
  · cases h
  · exact mineLoop_spec h

theorem mineBlock_of_hasPrefix {fuel : Nat} {b : Block} {d : BitVec 64} (hd : 0 ≤ d.toInt)
    (h : hasPrefix (calculateHash b) ⟨List.replicate d.toNat '0'⟩ = true) :
    mineBlock (fuel + 1) b d = some { b with hash := calculateHash b } := by
  rw [mineBlock, if_neg (by omega), mineLoop]
  exact if_pos h

theorem add_one_add_ofNat (x : BitVec 64) (k : Nat) : x + 1 + BitVec.ofNat 64 k = x + BitVec.ofNat 64 (k + 1) := by
  rw [BitVec.add_assoc, Nat.add_comm, BitVec.ofNat_add]
  rfl

theorem mineLoop_first {target : String} {fuel : Nat} {b b' : Block}
    (h : mineLoop target fuel b = some b') :
    ∃ k : Nat, b' = { b with
        nonce := b.nonce + BitVec.ofNat 64 k
        hash := calculateHash { b with nonce := b.nonce + BitVec.ofNat 64 k } } ∧
      hasPrefix b'.hash target = true ∧
      ∀ j < k, hasPrefix (calculateHash { b with nonce := b.nonce + BitVec.ofNat 64 j }) target = false := by
  induction fuel generalizing b with
  | zero => cases h
  | succ fuel ih =>
    simp only [mineLoop] at h
    split at h
    · cases h
      refine ⟨0, ?_, ‹_›, nofun⟩
      rw [BitVec.add_zero]
      cases b; rfl
    · rename_i hno
      obtain ⟨k, rfl, hp, hlt⟩ := ih h
      refine ⟨k + 1, ?_, hp, fun j hj => ?_⟩
      · rw [← add_one_add_ofNat]
        cases b; rfl
      · cases j with
        | zero =>
          rw [BitVec.add_zero]
          simpa using hno
        | succ j =>
          rw [← add_one_add_ofNat]
          exact hlt j (by omega)

theorem mineBlock_first {fuel : Nat} {b b' : Block} {d : BitVec 64} (h : mineBlock fuel b d = some b') :
    0 ≤ d.toInt ∧ ∃ k : Nat, b' = { b with
        nonce := b.nonce + BitVec.ofNat 64 k
        hash := calculateHash { b with nonce := b.nonce + BitVec.ofNat 64 k } } ∧
      hasPrefix b'.hash ⟨List.replicate d.toNat '0'⟩ = true ∧
      ∀ j < k, hasPrefix (calculateHash { b with nonce := b.nonce + BitVec.ofNat 64 j })
        ⟨List.replicate d.toNat '0'⟩ = false := by
  unfold mineBlock at h
  split at h
  · cases h
  · exact ⟨by omega, mineLoop_first h⟩

theorem mineBlock_least {fuel : Nat} {b b' : Block} {d : BitVec 64} (h : mineBlock fuel b d = some b')
    (hge : b.nonce.toInt ≤ b'.nonce.toInt) (m : BitVec 64) (hm : b.nonce.toInt ≤ m.toInt)
    (hlt : m.toInt < b'.nonce.toInt) :
    hasPrefix (calculateHash { b with nonce := m }) ⟨List.replicate d.toNat '0'⟩ = false := by
  obtain ⟨-, k, rfl, hp, hfirst⟩ := mineBlock_first h
  have hnonce (j : Nat) : (b.nonce + BitVec.ofNat 64 j).toInt = (b.nonce.toInt + j).bmod (2 ^ 64) := by
    rw [BitVec.toInt_add, BitVec.toInt_ofNat, Int.add_bmod_bmod]
  have hk : k < 2 ^ 64 := by
    by_contra hk
    have hsame : BitVec.ofNat 64 (k - 2 ^ 64) = BitVec.ofNat 64 k := by
      apply BitVec.eq_of_toNat_eq
      simp only [BitVec.toNat_ofNat]
      omega
    have := hfirst (k - 2 ^ 64) (by omega)
    rw [hsame] at this
    exact absurd hp (by simpa using this)
  have hb := toInt_bounds b.nonce
  have hm' := toInt_bounds m
  dsimp only at hge hlt
  have hwrap : b.nonce.toInt + k < 2 ^ 63 := by
    rw [hnonce, Int.bmod_def] at hge
    split at hge <;> omega
  rw [toInt_eq_of_bmod (hnonce k) (by omega) hwrap] at hlt
  have hj : b.nonce + BitVec.ofNat 64 (m.toInt - b.nonce.toInt).toNat = m := by
    apply BitVec.toInt_inj.mp
    rw [hnonce, Int.toNat_of_nonneg (by omega), show b.nonce.toInt + (m.toInt - b.nonce.toInt) = m.toInt by omega,
      Int.bmod_def]
    split <;> omega
  have := hfirst (m.toInt - b.nonce.toInt).toNat (by omega)
  rwa [hj] at this

theorem mineBlock_hash {fuel : Nat} {b b' : Block} {d : BitVec 64} (h : mineBlock fuel b d = some b') :
    b'.hash = calculateHash b' ∧ b'.prevHash = b.prevHash ∧ b'.index = b.index := by
  obtain ⟨n, rfl, -⟩ := mineBlock_spec h
  exact ⟨rfl, rfl, rfl⟩

theorem createBlock_hash {fuel : Nat} {txNow blockNow index : BitVec 64} {prevHash rel : String}
    {receivers : List String} {text audio video : String} {pool pool' : TransactionPool}
    {d : BitVec 64} {miner : String} {reward : ℚ} {b : Block}
    (h : createBlock fuel txNow blockNow index prevHash rel receivers text audio video pool d miner reward =
      some (b, pool')) :
    b.hash = calculateHash b ∧ b.prevHash = prevHash ∧ b.index = index := by
  simp only [createBlock, Option.map_eq_some', Prod.mk.injEq] at h
  obtain ⟨b₀, hb, rfl, -⟩ := h
  exact mineBlock_hash hb

theorem createBlock_postcondition :
    (∀ {fuel : Nat} {b b' : Block} {d : BitVec 64}, mineBlock fuel b d = some b' →
      0 ≤ d.toInt ∧ b' = { b with nonce := b'.nonce, hash := b'.hash } ∧ b'.hash = calculateHash b' ∧
      hasPrefix b'.hash ⟨List.replicate d.toNat '0'⟩ = true ∧
      (∃ k : Nat, b'.nonce = b.nonce + BitVec.ofNat 64 k ∧
        ∀ j < k, hasPrefix (calculateHash { b with nonce := b.nonce + BitVec.ofNat 64 j })
          ⟨List.replicate d.toNat '0'⟩ = false) ∧
      (b.nonce.toInt ≤ b'.nonce.toInt → ∀ m : BitVec 64, b.nonce.toInt ≤ m.toInt →
        m.toInt < b'.nonce.toInt →
        hasPrefix (calculateHash { b with nonce := m }) ⟨List.replicate d.toNat '0'⟩ = false)) ∧
    ∀ {fuel : Nat} {txNow blockNow index : BitVec 64} {prevHash rel : String} {receivers : List String}
      {text audio video : String} {pool pool' : TransactionPool} {d : BitVec 64} {miner : String}
      {reward : ℚ} {blk : Block},
      createBlock fuel txNow blockNow index prevHash rel receivers text audio video pool d miner reward =
        some (blk, pool') →
      blk.hash = calculateHash blk ∧ blk.difficulty = d ∧
        hasPrefix blk.hash ⟨List.replicate d.toNat '0'⟩ = true ∧ blk.prevHash = prevHash ∧
        blk.transactions = newTransaction "COINBASE" miner reward 0 txNow :: pool.transactions := by
  refine ⟨fun h => ?_, fun h => ?_⟩
  · obtain ⟨hd, k, rfl, hp, hfirst⟩ := mineBlock_first h
    exact ⟨hd, rfl, rfl, hp, ⟨k, rfl, hfirst⟩, mineBlock_least h⟩
  · simp only [createBlock, Option.map_eq_some', Prod.mk.injEq] at h
    obtain ⟨b₀, hb, rfl, -⟩ := h
    obtain ⟨-, k, rfl, hp, -⟩ := mineBlock_first hb
    exact ⟨rfl, rfl, hp, rfl, rfl⟩

set_option maxRecDepth 20000 in
theorem createBlock_postcondition_retry :
    let b₀ : Block := ⟨1, 1731006406, "", "", 0, "", [], "", "", "",
      [newTransaction "COINBASE" "Miner1" (25 / 2) 0 0], [], 1, "main"⟩
    let b₁ : Block := { { b₀ with hash := calculateHash b₀ } with nonce := b₀.nonce + 1 }
    let blk : Block := { b₁ with hash := calculateHash b₁ }
    (mineBlock 2 b₀ 1 = some blk ∧
      createBlock 2 0 1731006406 1 "" "" [] "" "" "" ⟨[]⟩ 1 "Miner1" (25 / 2) = some (blk, ⟨b₀.transactions⟩)) ∧
    (∃ k : Nat, blk.nonce = b₀.nonce + BitVec.ofNat 64 k ∧ ∀ j < k,
      hasPrefix (calculateHash { b₀ with nonce := b₀.nonce + BitVec.ofNat 64 j })
        ⟨List.replicate (1 : BitVec 64).toNat '0'⟩ = false) ∧
    blk.hash = calculateHash blk ∧ blk.difficulty = 1 ∧
      hasPrefix blk.hash ⟨List.replicate (1 : BitVec 64).toNat '0'⟩ = true ∧ blk.prevHash = "" ∧
      blk.transactions = [newTransaction "COINBASE" "Miner1" (25 / 2) 0 0] := by
  intro b₀ b₁ blk
  have h0 : hasPrefix (calculateHash b₀) ⟨List.replicate (1 : BitVec 64).toNat '0'⟩ = false := by
    unfold calculateHash Digest.sum256Hex; decide
  have h1 : hasPrefix (calculateHash b₁) ⟨List.replicate (1 : BitVec 64).toNat '0'⟩ = true := by
    unfold calculateHash Digest.sum256Hex; decide
  have hmine : mineBlock 2 b₀ 1 = some blk := by
    rw [mineBlock, if_neg (by decide), mineLoop, if_neg (by simpa using h0), mineLoop, if_pos h1]
  have hcreate : createBlock 2 0 1731006406 1 "" "" [] "" "" "" ⟨[]⟩ 1 "Miner1" (25 / 2) =
      some (blk, ⟨b₀.transactions⟩) := by
    show (mineBlock 2 b₀ 1).map (·, _) = _
    rw [hmine]
    rfl
  obtain ⟨-, -, -, -, hsearch, -⟩ := createBlock_postcondition.1 hmine
  exact ⟨⟨hmine, hcreate⟩, hsearch, createBlock_postcondition.2 hcreate⟩

set_option maxRecDepth 20000 in
theorem mineBlock_wraps : ∃ b b' : Block, mineBlock 2 b 1 = some b' ∧ b'.nonce.toInt < b.nonce.toInt := by
  let b : Block := ⟨0, 18, "", "", 9223372036854775807, "", [], "", "", "", [], [], 1, "main"⟩
  let b₁ : Block := { { b with hash := calculateHash b } with nonce := b.nonce + 1 }
  have h0 : hasPrefix (calculateHash b) ⟨List.replicate (1 : BitVec 64).toNat '0'⟩ = false := by
    unfold calculateHash Digest.sum256Hex; decide
  have h1 : hasPrefix (calculateHash b₁) ⟨List.replicate (1 : BitVec 64).toNat '0'⟩ = true := by
    unfold calculateHash Digest.sum256Hex; decide
  refine ⟨b, { b₁ with hash := calculateHash b₁ }, ?_, by decide⟩
  rw [mineBlock, if_neg (by decide), mineLoop, if_neg (by simpa using h0), mineLoop, if_pos h1]

end LiteBlockchain
