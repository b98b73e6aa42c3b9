import LiteBlockchain.Block
import LiteBlockchain.Float64

/-!
`HybridConsensusManager`. Stakes are `float64`; tallies and thresholds are Go `int`s, added with
wrap-around and compared signed.
-/

namespace LiteBlockchain.Consensus

open Relation

structure CandidateBlock where
  block : Block
  work : BitVec 64
  validVotes : BitVec 64

structure HybridConsensusManager where
  candidateBlocks : List CandidateBlock
  stakeholders : String → Option F64
  voteThreshold : F64

/-- The constant `0.67` is the `float64` nearest 67/100. -/
def newHybridConsensusManager : HybridConsensusManager := ⟨[], fun _ => none, F64.round false 67 100⟩

def HybridConsensusManager.setStake (hcm : HybridConsensusManager) (validator : String) (stake : F64) :
    HybridConsensusManager :=
  { hcm with stakeholders := fun v => if v = validator then some stake else hcm.stakeholders v }

def HybridConsensusManager.proposeBlock (hcm : HybridConsensusManager) (b : Block) :
    HybridConsensusManager :=
  { hcm with candidateBlocks := hcm.candidateBlocks ++ [⟨b, b.nonce, 0⟩] }

def voteWeight (stake : F64) : BitVec 64 := (stake.mul (F64.ofNat 100)).toGoInt

def HybridConsensusManager.castVote (hcm : HybridConsensusManager) (candidateIndex : BitVec 64)
    (validator : String) (vote : Bool) : HybridConsensusManager :=
  if candidateIndex.toInt < 0 ∨ (hcm.candidateBlocks.length : Int) ≤ candidateIndex.toInt then hcm
  else if vote then
    match hcm.stakeholders validator with
    | none => hcm
    | some stake =>
      { hcm with
        candidateBlocks := hcm.candidateBlocks.modify
          (fun c => { c with validVotes := c.validVotes + voteWeight stake }) candidateIndex.toNat }
  else hcm

def HybridConsensusManager.threshold (hcm : HybridConsensusManager) (totalStake : BitVec 64) : BitVec 64 :=
  ((F64.ofInt totalStake).mul hcm.voteThreshold).toGoInt

def HybridConsensusManager.finalizeBlock (hcm : HybridConsensusManager) (totalStake : BitVec 64) :
    Option Block :=
  (hcm.candidateBlocks.find? fun c => (hcm.threshold totalStake).toInt ≤ c.validVotes.toInt).map
    CandidateBlock.block

def HybridConsensusManager.finalizedIndex (hcm : HybridConsensusManager) (totalStake : BitVec 64) :
    Option Nat :=
  hcm.candidateBlocks.findIdx? fun c => (hcm.threshold totalStake).toInt ≤ c.validVotes.toInt

inductive ConsensusStep : HybridConsensusManager → HybridConsensusManager → Prop
  | propose (hcm : HybridConsensusManager) (b : Block) : ConsensusStep hcm (hcm.proposeBlock b)
  | vote (hcm : HybridConsensusManager) (i : BitVec 64) (validator : String) (approve : Bool) :
      ConsensusStep hcm (hcm.castVote i validator approve)

def NonnegativeStakes (stakeholders : String → Option F64) : Prop :=
  ∀ v stake, stakeholders v = some stake → stake.nonneg

def mainManager : HybridConsensusManager :=
  ((newHybridConsensusManager.setStake "Miner1" (F64.ofNat 50)).setStake "Validator1" (F64.ofNat 30)).setStake
    "Validator2" (F64.ofNat 20)

theorem mainManager_nonnegative : NonnegativeStakes mainManager.stakeholders := by
  intro v stake h
  simp only [mainManager, HybridConsensusManager.setStake, newHybridConsensusManager] at h
  split_ifs at h <;> cases h <;> decide

@[simp] theorem proposeBlock_candidateBlocks (hcm : HybridConsensusManager) (b : Block) :
    (hcm.proposeBlock b).candidateBlocks = hcm.candidateBlocks ++ [⟨b, b.nonce, 0⟩] := rfl

@[simp] theorem proposeBlock_stakeholders (hcm : HybridConsensusManager) (b : Block) :
    (hcm.proposeBlock b).stakeholders = hcm.stakeholders := rfl

@[simp] theorem proposeBlock_voteThreshold (hcm : HybridConsensusManager) (b : Block) :
    (hcm.proposeBlock b).voteThreshold = hcm.voteThreshold := rfl

theorem castVote_approve {hcm : HybridConsensusManager} {i : BitVec 64} {validator : String} {stake : F64}
    (hi : 0 ≤ i.toInt) (hlen : i.toNat < hcm.candidateBlocks.length) (hs : hcm.stakeholders validator = some stake) :
    hcm.castVote i validator true = { hcm with
      candidateBlocks := hcm.candidateBlocks.modify
        (fun c => { c with validVotes := c.validVotes + voteWeight stake }) i.toNat } := by
  have := toNat_eq_toInt hi
  rw [HybridConsensusManager.castVote, if_neg (by omega), if_pos rfl, hs]

theorem castVote_cases (hcm : HybridConsensusManager) (i : BitVec 64) (validator : String) (approve : Bool) :
    hcm.castVote i validator approve = hcm ∨ ∃ stake, approve = true ∧ hcm.stakeholders validator = some stake ∧
      hcm.castVote i validator approve = { hcm with
        candidateBlocks := hcm.candidateBlocks.modify
          (fun c => { c with validVotes := c.validVotes + voteWeight stake }) i.toNat } := by
  unfold HybridConsensusManager.castVote
  split
  · exact .inl rfl
  · split
    · split
      · exact .inl rfl
      · exact .inr ⟨_, ‹_›, ‹_›, rfl⟩
    · exact .inl rfl

@[simp] theorem castVote_stakeholders (hcm : HybridConsensusManager) (i : BitVec 64) (validator : String)
    (vote : Bool) : (hcm.castVote i validator vote).stakeholders = hcm.stakeholders := by
  rcases castVote_cases hcm i validator vote with h | ⟨_, _, _, h⟩ <;> rw [h]

@[simp] theorem castVote_length (hcm : HybridConsensusManager) (i : BitVec 64) (validator : String)
    (vote : Bool) : (hcm.castVote i validator vote).candidateBlocks.length = hcm.candidateBlocks.length := by
  rcases castVote_cases hcm i validator vote with h | ⟨_, _, _, h⟩ <;> rw [h]
  simp

theorem finalizeBlock_main_scenario (block2 : Block) :
    let hcm := ((mainManager.proposeBlock block2).castVote 0 "Validator1" true).castVote 0 "Validator2" true
    hcm.finalizeBlock 100 = some block2 ∧ (30 + 20 : ℚ) < 67 / 100 * 100 := by
  refine ⟨?_, by norm_num⟩
  have one : (mainManager.proposeBlock block2).candidateBlocks.length = 1 := rfl
  rw [castVote_approve (by decide) (by simp [one]) rfl, castVote_approve (by decide) (by simp [one]) rfl]
  simp [HybridConsensusManager.finalizeBlock, HybridConsensusManager.threshold, mainManager,
    HybridConsensusManager.setStake, newHybridConsensusManager]
  set_option maxRecDepth 100000 in decide

def HybridConsensusManager.VoteFits (hcm : HybridConsensusManager) (i : BitVec 64) (validator : String) : Prop :=
  ∀ stake ∈ hcm.stakeholders validator, ∀ c ∈ hcm.candidateBlocks[i.toNat]?,
    0 ≤ (voteWeight stake).toInt ∧ c.validVotes.toInt + (voteWeight stake).toInt < 2 ^ 63

instance (hcm : HybridConsensusManager) (i : BitVec 64) (validator : String) :
    Decidable (hcm.VoteFits i validator) :=
  inferInstanceAs (Decidable (∀ stake ∈ _, _))

inductive GrowingStep : HybridConsensusManager → HybridConsensusManager → Prop
  | propose (hcm : HybridConsensusManager) (b : Block) : GrowingStep hcm (hcm.proposeBlock b)
  | vote (hcm : HybridConsensusManager) (i : BitVec 64) (validator : String) (approve : Bool)
      (fits : approve = true → hcm.VoteFits i validator) : GrowingStep hcm (hcm.castVote i validator approve)

def VotesBelow : List CandidateBlock → List CandidateBlock → Prop
  | [], _ => True
  | _ :: _, [] => False
  | c :: cs, c' :: cs' => c'.block = c.block ∧ c.validVotes.toInt ≤ c'.validVotes.toInt ∧ VotesBelow cs cs'

theorem votesBelow_append (cs extra : List CandidateBlock) : VotesBelow cs (cs ++ extra) := by
  induction cs with
  | nil => trivial
  | cons c cs ih => exact ⟨rfl, le_refl _, ih⟩

theorem votesBelow_refl (cs : List CandidateBlock) : VotesBelow cs cs := by
  simpa using votesBelow_append cs []

theorem votesBelow_trans {cs₁ cs₂ cs₃ : List CandidateBlock} (h₁ : VotesBelow cs₁ cs₂)
    (h₂ : VotesBelow cs₂ cs₃) : VotesBelow cs₁ cs₃ := by
  induction cs₁ generalizing cs₂ cs₃ with
  | nil => trivial
  | cons c cs₁ ih =>
    cases cs₂ with
    | nil => exact absurd h₁ id
    | cons c₂ cs₂ =>
      cases cs₃ with
      | nil => exact absurd h₂ id
      | cons c₃ cs₃ => exact ⟨h₂.1.trans h₁.1, le_trans h₁.2.1 h₂.2.1, ih h₁.2.2 h₂.2.2⟩

theorem votesBelow_modify (cs : List CandidateBlock) (k : Nat) {f : CandidateBlock → CandidateBlock}
    (hf : ∀ c ∈ cs[k]?, (f c).block = c.block ∧ c.validVotes.toInt ≤ (f c).validVotes.toInt) :
    VotesBelow cs (cs.modify f k) := by
  induction cs generalizing k with
  | nil => trivial
  | cons c cs ih =>
    cases k with
    | zero => exact ⟨(hf c (by simp)).1, (hf c (by simp)).2, votesBelow_refl cs⟩
    | succ k => exact ⟨rfl, le_refl _, ih k fun c' h => hf c' (by simpa using h)⟩

theorem toInt_le_add {x w : BitVec 64} (hw : 0 ≤ w.toInt) (hfit : x.toInt + w.toInt < 2 ^ 63) :
    x.toInt ≤ (x + w).toInt := by
  have := toInt_bounds x
  rw [toInt_eq_of_bmod (BitVec.toInt_add x w) (by omega) hfit]
  omega

theorem growingStep_votesBelow {hcm hcm' : HybridConsensusManager} (h : GrowingStep hcm hcm') :
    VotesBelow hcm.candidateBlocks hcm'.candidateBlocks ∧ hcm'.voteThreshold = hcm.voteThreshold := by
  cases h with
  | propose b => exact ⟨votesBelow_append _ _, rfl⟩
  | vote i validator approve fits =>
    rcases castVote_cases hcm i validator approve with h | ⟨stake, rfl, hs, h⟩ <;> rw [h]
    · exact ⟨votesBelow_refl _, rfl⟩
    · have fit := fun c hc => fits rfl stake hs c hc
      exact ⟨votesBelow_modify _ _ fun c hc => ⟨rfl, toInt_le_add (fit c hc).1 (fit c hc).2⟩, rfl⟩

theorem growingRun_votesBelow {hcm hcm' : HybridConsensusManager} (h : ReflTransGen GrowingStep hcm hcm') :
    VotesBelow hcm.candidateBlocks hcm'.candidateBlocks ∧ hcm'.voteThreshold = hcm.voteThreshold := by
  induction h with
  | refl => exact ⟨votesBelow_refl _, rfl⟩
  | tail _ hstep ih =>
    obtain ⟨hv', hth'⟩ := growingStep_votesBelow hstep
    exact ⟨votesBelow_trans ih.1 hv', hth'.trans ih.2⟩

theorem findIdx?_votesBelow {cs cs' : List CandidateBlock} (t : Int) (h : VotesBelow cs cs')
    {i : Nat} (hi : cs.findIdx? (fun c => t ≤ c.validVotes.toInt) = some i) :
    ∃ j ≤ i, cs'.findIdx? (fun c => t ≤ c.validVotes.toInt) = some j ∧
      cs'[j]?.map CandidateBlock.block = cs[j]?.map CandidateBlock.block := by
  induction cs generalizing cs' i with
  | nil => simp at hi
  | cons c cs ih =>
    cases cs' with
    | nil => exact absurd h id
    | cons c' cs' =>
      obtain ⟨hb, hv, hrest⟩ := h
      simp only [List.findIdx?_cons, List.findIdx?_succ, decide_eq_true_eq] at hi ⊢
      by_cases hc' : t ≤ c'.validVotes.toInt
      · exact ⟨0, Nat.zero_le _, by simp [hc'], by simp [hb]⟩
      · have hc : ¬ t ≤ c.validVotes.toInt := fun hc => hc' (le_trans hc hv)
        rw [if_neg hc] at hi
        obtain ⟨i', hi', rfl⟩ := Option.map_eq_some'.mp hi
        obtain ⟨j, hj, hfind, hblock⟩ := ih hrest hi'
        exact ⟨j + 1, by omega, by simp [hc', hfind], by simpa using hblock⟩

theorem finalizeBlock_eq (hcm : HybridConsensusManager) (totalStake : BitVec 64) :
    hcm.finalizeBlock totalStake =
      (hcm.finalizedIndex totalStake).bind fun i => hcm.candidateBlocks[i]?.map CandidateBlock.block := by
  unfold HybridConsensusManager.finalizeBlock HybridConsensusManager.finalizedIndex
  induction hcm.candidateBlocks with
  | nil => rfl
  | cons c cs ih =>
    by_cases hc : (hcm.threshold totalStake).toInt ≤ c.validVotes.toInt
    · simp [List.find?_cons, hc]
    · simp [List.find?_cons, List.findIdx?_succ, hc, ih, Option.bind_map, Function.comp_def]

theorem finalizeBlock_of_index {hcm : HybridConsensusManager} {totalStake : BitVec 64} {i : Nat}
    (h : hcm.finalizedIndex totalStake = some i) :
    hcm.finalizeBlock totalStake = hcm.candidateBlocks[i]?.map CandidateBlock.block := by
  rw [finalizeBlock_eq, h, Option.some_bind]

theorem finalizeBlock_moves_earlier {hcm hcm' : HybridConsensusManager} {totalStake : BitVec 64}
    {i : Nat} (hrun : ReflTransGen GrowingStep hcm hcm') (hi : hcm.finalizedIndex totalStake = some i) :
    ∃ j ≤ i, hcm'.finalizedIndex totalStake = some j ∧
      hcm'.finalizeBlock totalStake = hcm.candidateBlocks[j]?.map CandidateBlock.block := by
  obtain ⟨hv, hth⟩ := growingRun_votesBelow hrun
  have hthr : hcm'.threshold totalStake = hcm.threshold totalStake := by
    simp only [HybridConsensusManager.threshold, hth]
  unfold HybridConsensusManager.finalizedIndex at hi ⊢
  rw [hthr]
  obtain ⟨j, hj, hfind, hblock⟩ := findIdx?_votesBelow _ hv hi
  refine ⟨j, hj, hfind, ?_⟩
  rw [finalizeBlock_eq, HybridConsensusManager.finalizedIndex, hthr, hfind, Option.some_bind, hblock]

theorem finalizeBlock_moves_earlier_main :
    let b₀ : Block := ⟨0, 0, "", "", 0, "", [], "", "", "", [], [], 0, "main"⟩
    let hcm := ((mainManager.proposeBlock b₀).proposeBlock { b₀ with nonce := 1 }).castVote 1 "Miner1" true
    let hcm' := hcm.castVote 0 "Validator1" true
    (ReflTransGen GrowingStep hcm hcm' ∧ hcm.finalizedIndex 100 = some 1) ∧
    ∃ j ≤ 1, hcm'.finalizedIndex 100 = some j ∧
      hcm'.finalizeBlock 100 = hcm.candidateBlocks[j]?.map CandidateBlock.block := by
  intro b₀ hcm hcm'
  have run : ReflTransGen GrowingStep hcm hcm' :=
    .single (.vote _ 0 "Validator1" true fun _ => by set_option maxRecDepth 100000 in decide)
  have hi : hcm.finalizedIndex 100 = some 1 := by set_option maxRecDepth 100000 in decide
  exact ⟨⟨run, hi⟩, finalizeBlock_moves_earlier run hi⟩

theorem finalizeBlock_switches :
    (¬ ∀ (stakes : String → Option F64) (totalStake : BitVec 64) (hcm hcm' : HybridConsensusManager)
      (b : Block), NonnegativeStakes stakes →
      ReflTransGen ConsensusStep { newHybridConsensusManager with stakeholders := stakes } hcm →
      ReflTransGen ConsensusStep hcm hcm' →
      hcm.finalizeBlock totalStake = some b → hcm'.finalizeBlock totalStake = some b) ∧
    (¬ ∀ (stakes : String → Option F64) (totalStake : BitVec 64) (hcm hcm' : HybridConsensusManager)
      (b : Block), NonnegativeStakes stakes →
      ReflTransGen ConsensusStep { newHybridConsensusManager with stakeholders := stakes } hcm →
      ReflTransGen ConsensusStep hcm hcm' →
      hcm.finalizeBlock totalStake = some b → (hcm'.finalizeBlock totalStake).isSome) := by
  let b₀ : Block := ⟨0, 0, "", "", 0, "", [], "", "", "", [], [], 0, "main"⟩
  constructor
  · intro h
    let hcm := ((mainManager.proposeBlock b₀).proposeBlock { b₀ with nonce := 1 }).castVote 1 "Miner1" true
    have first : hcm.finalizedIndex 100 = some 1 := by set_option maxRecDepth 100000 in decide
    have later : (hcm.castVote 0 "Validator1" true).finalizedIndex 100 = some 0 := by
      set_option maxRecDepth 100000 in decide
    have switched := h mainManager.stakeholders 100 hcm _ _ mainManager_nonnegative
      (((ReflTransGen.single (.propose _ b₀)).tail (.propose _ _)).tail (.vote _ 1 "Miner1" true))
      (.single (.vote _ 0 "Validator1" true)) (finalizeBlock_of_index first)
    rw [finalizeBlock_of_index later] at switched
    exact absurd (congrArg Block.nonce (Option.some.inj switched)) (by decide)
  · intro h
    let whale := newHybridConsensusManager.setStake "Miner1" (F64.ofNat 90000000000000000)
    let hcm := (whale.proposeBlock b₀).castVote 0 "Miner1" true
    have first : hcm.finalizedIndex 90000000000000000 = some 0 := by set_option maxRecDepth 100000 in decide
    have wrapped : (hcm.castVote 0 "Miner1" true).finalizedIndex 90000000000000000 = none := by
      set_option maxRecDepth 100000 in decide
    have nonneg : NonnegativeStakes whale.stakeholders := by
      intro v stake hs
      simp only [whale, HybridConsensusManager.setStake, newHybridConsensusManager] at hs
      split_ifs at hs
      cases hs
      set_option maxRecDepth 100000 in decide
    have lost := h whale.stakeholders 90000000000000000 hcm _ _ nonneg
      ((ReflTransGen.single (.propose _ b₀)).tail (.vote _ 0 "Miner1" true))
      (.single (.vote _ 0 "Miner1" true)) (finalizeBlock_of_index first)
    rw [finalizeBlock_eq, wrapped] at lost
    exact absurd lost (by decide)

end LiteBlockchain.Consensus
