import LiteBlockchain.Mining

namespace LiteBlockchain

structure Blockchain where
  blocks : List Block

def newBlockchain : Blockchain := ⟨[]⟩

/-- `CumulativeDifficulty`, summed in Go `int` arithmetic. -/
def cumulativeDifficulty (chain : List Block) : BitVec 64 :=
  chain.foldl (fun total b => total + b.difficulty) 0

def linksValid (previous : Block) : List Block → Bool
  | [] => true
  | current :: rest =>
    if current.prevHash != previous.hash then false
    else if current.hash != calculateHash current then false
    else linksValid current rest

def isValidChain : List Block → Bool
  | [] => false
  | genesis :: rest =>
    if genesis.prevHash != "" || genesis.hash != calculateHash genesis then false
    else linksValid genesis rest

def Blockchain.replaceChain (bc : Blockchain) (newChain : List Block) : Bool × Blockchain :=
  if !isValidChain newChain then (false, bc)
  else if (cumulativeDifficulty bc.blocks).slt (cumulativeDifficulty newChain) then (true, ⟨newChain⟩)
  else (false, bc)

def subBlockOf (parent : Block) (newText newAudio newVideo subBlockCategory : String)
    (now : BitVec 64) : Block :=
  { index := parent.index, timestamp := now, prevHash := parent.hash, hash := "", nonce := 0,
    relationshipType := parent.relationshipType, receivers := parent.receivers, textData := newText,
    audioData := newAudio, videoData := newVideo, transactions := [], subBlocks := [],
    difficulty := 1, category := subBlockCategory }

/-- `UpdateBlockWithSubBlock`; `none` while mining the sub-block has not returned. -/
def Blockchain.updateBlockWithSubBlock (bc : Blockchain) (parentIndex : BitVec 64)
    (newText newAudio newVideo subBlockCategory : String) (now : BitVec 64) (fuel : Nat) :
    Option Blockchain :=
  if parentIndex.toInt < 0 ∨ (bc.blocks.length : Int) ≤ parentIndex.toInt then some bc
  else
    match bc.blocks[parentIndex.toNat]? with
    | none => some bc
    | some parentBlock =>
      (mineBlock fuel (subBlockOf parentBlock newText newAudio newVideo subBlockCategory now) 1).map
        fun subBlock =>
          let subBlock := { subBlock with hash := calculateHash subBlock }
          ⟨bc.blocks.set parentIndex.toNat
            { parentBlock with subBlocks := parentBlock.subBlocks ++ [subBlock] }⟩

/-- `UpdateBlockWithSubBlockEx` has the same body as `UpdateBlockWithSubBlock`. -/
def Blockchain.updateBlockWithSubBlockEx (bc : Blockchain) (parentIndex : BitVec 64)
    (newText newAudio newVideo subBlockCategory : String) (now : BitVec 64) (fuel : Nat) :
    Option Blockchain :=
  bc.updateBlockWithSubBlock parentIndex newText newAudio newVideo subBlockCategory now fuel

def getBlockFromChain (bc : Blockchain) (hash : String) : Except String Block :=
  match bc.blocks.find? (·.hash == hash) with
  | some b => .ok b
  | none => .error "block not found"

def Linked (chain : List Block) : Prop :=
  chain.Chain' fun previous current => current.prevHash = previous.hash

@[mk_iff] structure HashLinked (chain : List Block) : Prop where
  hashes : ∀ b ∈ chain, b.hash = calculateHash b
  links : Linked chain

theorem linksValid_iff (previous : Block) (rest : List Block) :
    linksValid previous rest = true ↔
      (∀ b ∈ rest, b.hash = calculateHash b) ∧ Linked (previous :: rest) := by
  induction rest generalizing previous with
  | nil => simp [linksValid, Linked]
  | cons current rest ih =>
    simp only [linksValid, Linked, List.chain'_cons, List.forall_mem_cons] at ih ⊢
    by_cases hp : current.prevHash = previous.hash <;>
      by_cases hh : current.hash = calculateHash current <;> simp [hp, hh, ih]

theorem isValidChain_iff (chain : List Block) :
    isValidChain chain = true ↔ (chain.head?.map Block.prevHash = some "") ∧ HashLinked chain := by
  cases chain with
  | nil => simp [isValidChain]
  | cons genesis rest =>
    have hl := linksValid_iff genesis rest
    by_cases hp : genesis.prevHash = "" <;> by_cases hh : genesis.hash = calculateHash genesis <;>
      simp_all [isValidChain, hashLinked_iff]

theorem HashLinked.drop {chain : List Block} (h : HashLinked chain) (n : Nat) :
    HashLinked (chain.drop n) :=
  ⟨fun b hb => h.hashes b (List.mem_of_mem_drop hb), List.Chain'.drop h.links n⟩

theorem HashLinked.append_block {chain : List Block} {b : Block} (h : HashLinked chain)
    (hb : b.hash = calculateHash b) (hp : ∀ last ∈ chain.getLast?, b.prevHash = last.hash) :
    HashLinked (chain ++ [b]) := by
  refine ⟨?_, List.Chain'.append h.links (List.chain'_singleton b) ?_⟩
  · simpa [or_imp, forall_and] using ⟨h.hashes, hb⟩
  · simpa using hp

theorem HashLinked.of_isValidChain {chain : List Block} (h : isValidChain chain = true) :
    HashLinked chain :=
  ((isValidChain_iff chain).mp h).2

theorem isValidChain_sealed_genesis (g : Block) (hg : g.prevHash = "") :
    isValidChain [{ g with hash := calculateHash g }] = true := by
  rw [isValidChain_iff]
  exact ⟨by simp [hg], by simp, List.chain'_singleton _⟩

theorem isValidChain_sealed_pair (g b : Block) (hg : g.prevHash = "") (hb : b.prevHash = calculateHash g) :
    isValidChain [{ g with hash := calculateHash g }, { b with hash := calculateHash b }] = true := by
  rw [isValidChain_iff]
  exact ⟨by simp [hg], by simp, List.chain'_pair.mpr hb⟩

def stripSubBlocks (b : Block) : Block := { b with subBlocks := [] }

theorem hashLinked_map_stripSubBlocks (chain : List Block) :
    HashLinked (chain.map stripSubBlocks) ↔ HashLinked chain := by
  simp only [hashLinked_iff, Linked, List.forall_mem_map, List.chain'_map]
  rfl

theorem map_set_of_eq {α β : Type} {f : α → β} {l : List α} {i : Nat} {a x : α}
    (hi : l[i]? = some a) (hx : f x = f a) : (l.set i x).map f = l.map f := by
  apply List.ext_getElem?
  intro j
  simp only [List.getElem?_map, List.getElem?_set]
  split
  · subst j
    simp [hi, hx, (List.getElem?_eq_some_iff.mp hi).1]
  · rfl

theorem updateBlockWithSubBlock_strip {bc bc' : Blockchain} {i : BitVec 64} {t a v c : String}
    {now : BitVec 64} {fuel : Nat} (h : bc.updateBlockWithSubBlock i t a v c now fuel = some bc') :
    bc'.blocks.map stripSubBlocks = bc.blocks.map stripSubBlocks := by
  unfold Blockchain.updateBlockWithSubBlock at h
  split at h
  · cases h; rfl
  · split at h
    · cases h; rfl
    · rename_i parent hparent
      obtain ⟨sub, -, rfl⟩ := Option.map_eq_some'.mp h
      exact map_set_of_eq hparent rfl

theorem updateBlockWithSubBlock_hashLinked {bc bc' : Blockchain} {i : BitVec 64} {t a v c : String}
    {now : BitVec 64} {fuel : Nat} (h : bc.updateBlockWithSubBlock i t a v c now fuel = some bc')
    (hl : HashLinked bc.blocks) : HashLinked bc'.blocks := by
  rw [← hashLinked_map_stripSubBlocks, updateBlockWithSubBlock_strip h, hashLinked_map_stripSubBlocks]
  exact hl

theorem isValidChain_map_stripSubBlocks (chain : List Block) :
    isValidChain (chain.map stripSubBlocks) = isValidChain chain := by
  rw [Bool.eq_iff_iff, isValidChain_iff, isValidChain_iff, hashLinked_map_stripSubBlocks, List.head?_map,
    Option.map_map]
  rfl

theorem cumulativeDifficulty_map_stripSubBlocks (chain : List Block) :
    cumulativeDifficulty (chain.map stripSubBlocks) = cumulativeDifficulty chain := by
  rw [cumulativeDifficulty, List.foldl_map]
  rfl

theorem updateBlockWithSubBlock_frame (bc : Blockchain) (i : BitVec 64) (t a v c : String)
    (now : BitVec 64) (fuel : Nat) :
    bc.updateBlockWithSubBlockEx i t a v c now fuel = bc.updateBlockWithSubBlock i t a v c now fuel ∧
    (i.toInt < 0 ∨ bc.blocks.length ≤ i.toInt → bc.updateBlockWithSubBlock i t a v c now fuel = some bc) ∧
    (0 ≤ i.toInt → i.toInt < bc.blocks.length → ∃ parent, bc.blocks[i.toNat]? = some parent ∧
      (bc.updateBlockWithSubBlock i t a v c now fuel).isSome =
        (mineBlock fuel (subBlockOf parent t a v c now) 1).isSome ∧
      ∀ bc', bc.updateBlockWithSubBlock i t a v c now fuel = some bc' →
        ∃ sub, (∃ n, sub = { subBlockOf parent t a v c now with
            nonce := n, hash := calculateHash { subBlockOf parent t a v c now with nonce := n } }) ∧
          sub.hash = calculateHash sub ∧ hasPrefix sub.hash "0" = true ∧
          bc'.blocks = bc.blocks.set i.toNat { parent with subBlocks := parent.subBlocks ++ [sub] } ∧
          bc'.blocks.map stripSubBlocks = bc.blocks.map stripSubBlocks ∧
          isValidChain bc'.blocks = isValidChain bc.blocks ∧
          cumulativeDifficulty bc'.blocks = cumulativeDifficulty bc.blocks) := by
  refine ⟨rfl, fun h => by rw [Blockchain.updateBlockWithSubBlock, if_pos h], fun h0 hlt => ?_⟩
  obtain ⟨parent, hparent⟩ : ∃ parent, bc.blocks[i.toNat]? = some parent :=
    ⟨_, List.getElem?_eq_getElem (by have := toNat_eq_toInt h0; omega)⟩
  have heq : bc.updateBlockWithSubBlock i t a v c now fuel =
      (mineBlock fuel (subBlockOf parent t a v c now) 1).map fun subBlock =>
        ⟨bc.blocks.set i.toNat { parent with
          subBlocks := parent.subBlocks ++ [{ subBlock with hash := calculateHash subBlock }] }⟩ := by
    rw [Blockchain.updateBlockWithSubBlock, if_neg (by omega), hparent]
  refine ⟨parent, hparent, by rw [heq, Option.isSome_map'], fun bc' h => ?_⟩
  have hstrip := updateBlockWithSubBlock_strip h
  rw [heq] at h
  obtain ⟨sub, hsub, rfl⟩ := Option.map_eq_some'.mp h
  obtain ⟨n, rfl, hprefix⟩ := mineBlock_spec hsub
  refine ⟨_, ⟨n, rfl⟩, rfl, hprefix, rfl, hstrip, ?_, ?_⟩
  · rw [← isValidChain_map_stripSubBlocks, hstrip, isValidChain_map_stripSubBlocks]
  · rw [← cumulativeDifficulty_map_stripSubBlocks, hstrip, cumulativeDifficulty_map_stripSubBlocks]

set_option maxRecDepth 20000 in
theorem updateBlockWithSubBlock_frame_pair :
    let g₀ : Block := ⟨0, 1731006387, "", "", 0, "one-to-many", ["ReceiverA", "ReceiverB", "ReceiverC"],
      "EncryptedTextDataXYZ", "EncryptedAudioDataABC", "EncryptedVideoData123", [], [], 1, "main"⟩
    let b₀ : Block := { g₀ with index := 1, prevHash := calculateHash g₀, textData := "next" }
    let g : Block := { g₀ with hash := calculateHash g₀ }
    let bc : Blockchain := ⟨[g, { b₀ with hash := calculateHash b₀ }]⟩
    isValidChain bc.blocks = true ∧
    ∃ bc', bc.updateBlockWithSubBlock 0 "New Text Update" "" "" "text" 1731006448 1 = some bc' ∧
      ∃ sub, bc'.blocks = [{ g with subBlocks := [sub] }, { b₀ with hash := calculateHash b₀ }] ∧
        sub.prevHash = g.hash ∧ sub.hash = calculateHash sub ∧ hasPrefix sub.hash "0" = true ∧
        isValidChain bc'.blocks = true ∧ cumulativeDifficulty bc'.blocks = cumulativeDifficulty bc.blocks := by
  intro g₀ b₀ g bc
  have hvalid : isValidChain bc.blocks = true := isValidChain_sealed_pair g₀ b₀ rfl rfl
  have hg : calculateHash g₀ = "c78560fed789a24edc5052c7d35a7624479269cdf1beebbc2ff459cfbef1dd08" := by
    unfold calculateHash Digest.sum256Hex; decide
  let shell := subBlockOf g "New Text Update" "" "" "text" 1731006448
  have mined : (mineBlock 1 shell 1).isSome = true := by
    rw [mineBlock_of_hasPrefix (by decide) (by
      simp only [shell, g, subBlockOf, hg]
      unfold calculateHash Digest.sum256Hex; decide)]
    rfl
  obtain ⟨parent, hparent, hsome, hframe⟩ :=
    (updateBlockWithSubBlock_frame bc 0 "New Text Update" "" "" "text" 1731006448 1).2.2 (by decide) (by decide)
  cases hparent
  obtain ⟨bc', hbc'⟩ := Option.isSome_iff_exists.mp (hsome.trans mined)
  obtain ⟨sub, ⟨n, rfl⟩, hh, hp, hb, -, hv, hcd⟩ := hframe bc' hbc'
  exact ⟨hvalid, bc', hbc', _, by simpa using hb, rfl, hh, hp, hv.trans hvalid, hcd⟩

theorem isValidChain_append {chain : List Block} {last : Block} (hv : isValidChain chain = true)
    (hlast : chain.getLast? = some last) (b : Block) :
    isValidChain (chain ++ [b]) = true ↔ b.prevHash = last.hash ∧ b.hash = calculateHash b := by
  obtain ⟨hhead, hl⟩ := (isValidChain_iff chain).mp hv
  have hne : chain ≠ [] := by rintro rfl; cases hlast
  rw [isValidChain_iff, List.head?_append_of_ne_nil _ hne, hashLinked_iff, Linked, List.chain'_append]
  simp only [hhead, hlast, List.mem_append, List.mem_singleton, or_imp, forall_and, forall_eq,
    List.chain'_singleton, List.head?_cons, Option.mem_def, Option.some.injEq, forall_eq', true_and]
  exact ⟨fun h => ⟨h.2.2, h.1.2⟩, fun h => ⟨⟨hl.hashes, h.2⟩, hl.links, h.1⟩⟩

theorem replaceChain_eq (bc : Blockchain) (newChain : List Block) :
    bc.replaceChain newChain =
      if isValidChain newChain ∧ (cumulativeDifficulty bc.blocks).slt (cumulativeDifficulty newChain)
      then (true, ⟨newChain⟩) else (false, bc) := by
  unfold Blockchain.replaceChain
  by_cases hv : isValidChain newChain <;> simp [hv]

theorem replaceChain_hashLinked (bc : Blockchain) (newChain : List Block) (hl : HashLinked bc.blocks) :
    HashLinked (bc.replaceChain newChain).2.blocks := by
  rw [replaceChain_eq]
  split
  · exact HashLinked.of_isValidChain ‹_ ∧ _›.1
  · exact hl

@[simp] theorem cumulativeDifficulty_singleton (b : Block) : cumulativeDifficulty [b] = b.difficulty := by
  simp [cumulativeDifficulty]

theorem cumulativeDifficulty_append (c₁ c₂ : List Block) :
    cumulativeDifficulty (c₁ ++ c₂) = cumulativeDifficulty c₁ + cumulativeDifficulty c₂ := by
  have shift : ∀ (l : List Block) (acc : BitVec 64),
      l.foldl (fun total b => total + b.difficulty) acc =
        acc + l.foldl (fun total b => total + b.difficulty) 0 := by
    intro l
    induction l with
    | nil => intro acc; simp
    | cons b l ih => intro acc; simp only [List.foldl_cons, ih (acc + b.difficulty), ih (0 + b.difficulty)]; ac_rfl
  rw [cumulativeDifficulty, List.foldl_append, shift]
  rfl

end LiteBlockchain
