import LiteBlockchain.Handlers

namespace LiteBlockchain.P2P

/-- The fork-choice weight: `CumulativeDifficulty` read as the signed Go `int` that
`ReplaceChain` compares. -/
def weight (chain : List Block) : Int := (cumulativeDifficulty chain).toInt

def maxWeight (m : Int) (chains : List (List Block)) : Int :=
  chains.foldl (fun acc c => max acc (weight c)) m

def forkChoice (incumbent : List Block) (cs : List (List Block)) : List Block :=
  cs.foldl (fun chain c => (Blockchain.replaceChain ⟨chain⟩ c).2.blocks) incumbent

theorem replaceChain_blocks (chain c : List Block) :
    (Blockchain.replaceChain ⟨chain⟩ c).2.blocks =
      if isValidChain c ∧ weight chain < weight c then c else chain := by
  rw [replaceChain_eq]
  simp only [BitVec.slt, decide_eq_true_eq, weight]
  split <;> rfl

theorem forkChoice_cons (incumbent c : List Block) (cs : List (List Block)) :
    forkChoice incumbent (c :: cs) =
      forkChoice (if isValidChain c ∧ weight incumbent < weight c then c else incumbent) cs := by
  rw [forkChoice, List.foldl_cons, replaceChain_blocks]
  rfl

theorem maxWeight_cons (m : Int) (c : List Block) (cs : List (List Block)) :
    maxWeight m (c :: cs) = maxWeight (max m (weight c)) cs := rfl

theorem le_maxWeight (m : Int) (cs : List (List Block)) :
    m ≤ maxWeight m cs ∧ ∀ c ∈ cs, weight c ≤ maxWeight m cs := by
  induction cs generalizing m with
  | nil => simp [maxWeight]
  | cons c cs ih =>
    obtain ⟨h1, h2⟩ := ih (max m (weight c))
    simp only [maxWeight, List.foldl_cons, List.forall_mem_cons] at h1 h2 ⊢
    exact ⟨Int.le_trans (Int.le_max_left _ _) h1, Int.le_trans (Int.le_max_right _ _) h1, h2⟩

theorem exists_of_lt_maxWeight {m : Int} {cs : List (List Block)} (h : m < maxWeight m cs) :
    ∃ c ∈ cs, m < weight c := by
  induction cs generalizing m with
  | nil => simp [maxWeight] at h
  | cons c cs ih =>
    simp only [maxWeight, List.foldl_cons] at h
    by_cases hc : m < weight c
    · exact ⟨c, List.mem_cons_self _ _, hc⟩
    · rw [Int.max_eq_left (Int.not_lt.mp hc)] at h
      obtain ⟨c', hc', hlt⟩ := ih h
      exact ⟨c', List.mem_cons_of_mem _ hc', hlt⟩

theorem forkChoice_of_le {incumbent : List Block} {cs : List (List Block)}
    (h : ∀ c ∈ cs, isValidChain c → weight c ≤ weight incumbent) : forkChoice incumbent cs = incumbent := by
  induction cs with
  | nil => rfl
  | cons c cs ih =>
    simp only [List.forall_mem_cons] at h
    rw [forkChoice_cons, if_neg fun hc => absurd (h.1 hc.1) (Int.not_le.mpr hc.2)]
    exact ih h.2

theorem forkChoice_weight (incumbent : List Block) (cs : List (List Block)) :
    weight (forkChoice incumbent cs) = maxWeight (weight incumbent) (cs.filter isValidChain) := by
  induction cs generalizing incumbent with
  | nil => rfl
  | cons c cs ih =>
    rw [forkChoice_cons]
    by_cases hv : isValidChain c
    · rw [List.filter_cons_of_pos hv, maxWeight_cons]
      by_cases hw : weight incumbent < weight c
      · rw [if_pos ⟨hv, hw⟩, ih, Int.max_eq_right (Int.le_of_lt hw)]
      · rw [if_neg fun h => hw h.2, ih, Int.max_eq_left (Int.not_lt.mp hw)]
    · rw [if_neg fun h => hv h.1, ih, List.filter_cons_of_neg hv]

theorem forkChoice_mem (incumbent : List Block) (cs : List (List Block)) :
    forkChoice incumbent cs = incumbent ∨ (forkChoice incumbent cs ∈ cs ∧ isValidChain (forkChoice incumbent cs)) := by
  induction cs generalizing incumbent with
  | nil => exact .inl rfl
  | cons c cs ih =>
    rw [forkChoice_cons]
    split
    · rcases ih c with h | ⟨h, hv⟩
      · rw [h]
        exact .inr ⟨List.mem_cons_self _ _, ‹_ ∧ _›.1⟩
      · exact .inr ⟨List.mem_cons_of_mem _ h, hv⟩
    · rcases ih incumbent with h | ⟨h, hv⟩
      · exact .inl h
      · exact .inr ⟨List.mem_cons_of_mem _ h, hv⟩

theorem forkChoice_first {incumbent : List Block} {cs : List (List Block)}
    (h : ∃ c ∈ cs, isValidChain c ∧ weight incumbent < weight c) :
    (cs.filter isValidChain).find?
        (fun c => weight c == maxWeight (weight incumbent) (cs.filter isValidChain)) =
      some (forkChoice incumbent cs) := by
  induction cs generalizing incumbent with
  | nil => simp at h
  | cons c cs ih =>
    obtain ⟨c', hc', hv', hw'⟩ := h
    rw [forkChoice_cons]
    by_cases hv : isValidChain c
    · rw [List.filter_cons_of_pos hv, maxWeight_cons, List.find?_cons]
      by_cases hw : weight incumbent < weight c
      · rw [if_pos ⟨hv, hw⟩, Int.max_eq_right (Int.le_of_lt hw)]
        obtain ⟨hm, hall⟩ := le_maxWeight (weight c) (cs.filter isValidChain)
        by_cases heq : weight c = maxWeight (weight c) (cs.filter isValidChain)
        · rw [beq_iff_eq.mpr heq, forkChoice_of_le fun d hd hvd =>
            heq ▸ hall d (List.mem_filter.mpr ⟨hd, hvd⟩)]
        · obtain ⟨d, hd, hwd⟩ := exists_of_lt_maxWeight (by omega : weight c < maxWeight (weight c) (cs.filter isValidChain))
          rw [beq_false_of_ne heq]
          obtain ⟨hdc, hdv⟩ := List.mem_filter.mp hd
          exact ih ⟨d, hdc, hdv, hwd⟩
      · rw [if_neg fun h => hw h.2, Int.max_eq_left (Int.not_lt.mp hw)]
        have hc'cs : c' ∈ cs := (List.mem_cons.mp hc').resolve_left fun e => hw (e ▸ hw')
        have hM := (le_maxWeight (weight incumbent) _).2 c' (List.mem_filter.mpr ⟨hc'cs, hv'⟩)
        rw [beq_false_of_ne (by omega)]
        exact ih ⟨c', hc'cs, hv', hw'⟩
    · rw [if_neg fun h => hv h.1, List.filter_cons_of_neg hv]
      exact ih ⟨c', (List.mem_cons.mp hc').resolve_left (by rintro rfl; exact hv hv'), hv', hw'⟩

structure HeaviestChoice (incumbent : List Block) (chains : List (List Block)) (final : List Block) :
    Prop where
  weight_eq : weight final = maxWeight (weight incumbent) (chains.filter isValidChain)
  adopted : final = incumbent ∨ (final ∈ chains ∧ isValidChain final)
  keeps_incumbent : (∀ c ∈ chains.filter isValidChain, weight c ≤ weight incumbent) → final = incumbent
  first_heaviest : (∃ c ∈ chains.filter isValidChain, weight incumbent < weight c) →
    (chains.filter isValidChain).find?
      (fun c => weight c == maxWeight (weight incumbent) (chains.filter isValidChain)) = some final

theorem forkChoice_heaviest (incumbent : List Block) (chains : List (List Block)) :
    HeaviestChoice incumbent chains (forkChoice incumbent chains) where
  weight_eq := forkChoice_weight _ _
  adopted := forkChoice_mem _ _
  keeps_incumbent hle := forkChoice_of_le fun c hc hv => hle c (List.mem_filter.mpr ⟨hc, hv⟩)
  first_heaviest := fun ⟨c, hc, hw⟩ => by
    obtain ⟨hc, hv⟩ := List.mem_filter.mp hc
    exact forkChoice_first ⟨c, hc, hv, hw⟩

variable (codec : BlockCodec)

def deliverChains (n : Node) : List (Option Json) → Except Panic Node
  | [] => .ok n
  | payload :: rest => (handleChainUpdate codec n payload).bind fun n => deliverChains n rest

theorem handleChainUpdate_decoded {n : Node} {payload : Option Json} {chain : List Block}
    (h : unmarshal (unmarshalBlockSlice codec) payload = some (chain.map some)) :
    handleChainUpdate codec n payload = .ok { n with blockchain := (n.blockchain.replaceChain chain).2 } := by
  unfold handleChainUpdate
  rw [h]
  exact handleIncomingChain_map_some n chain

theorem deliverChains_decoded {n : Node} {payloads : List (Option Json)} {chains : List (List Block)}
    (h : List.Forall₂ (fun p c => unmarshal (unmarshalBlockSlice codec) p = some (c.map some))
      payloads chains) :
    deliverChains codec n payloads = .ok { n with blockchain := ⟨forkChoice n.blockchain.blocks chains⟩ } := by
  induction h generalizing n with
  | nil => rfl
  | cons hp _ ih => rw [deliverChains, handleChainUpdate_decoded codec hp, Except.bind, ih]; rfl

theorem deliverChains_heaviest (n : Node) (payloads : List (Option Json)) (chains : List (List Block))
    (h : List.Forall₂ (fun p c => unmarshal (unmarshalBlockSlice codec) p = some (c.map some))
      payloads chains) :
    ∃ final, deliverChains codec n payloads = .ok { n with blockchain := ⟨final⟩ } ∧
      HeaviestChoice n.blockchain.blocks chains final :=
  ⟨_, deliverChains_decoded codec h, forkChoice_heaviest _ _⟩

theorem deliverChains_heaviest_adopts :
    let block : String → BitVec 64 → Block := fun text d =>
      ⟨0, 0, "", "", 0, "", [], text, "", "", [], [], d, "main"⟩
    let sealed : Block → Block := fun b => { b with hash := calculateHash b }
    let light := sealed (block "light" 1)
    let heavy := sealed (block "heavy" 5)
    let tied := sealed (block "tied" 5)
    let invalid := block "invalid" 9
    let codec₀ : BlockCodec := ⟨fun _ => .null, fun fields => [light, heavy, tied, invalid][fields.length]?⟩
    let n₀ : Node := ⟨"localhost:8000", [], ⟨[sealed (block "incumbent" 2)]⟩⟩
    let payloads : List (Option Json) := (List.range 4).map fun k =>
      some (.array [.object (List.replicate k ("", .null))])
    let chains := [[light], [heavy], [tied], [invalid]]
    List.Forall₂ (fun p c => unmarshal (unmarshalBlockSlice codec₀) p = some (c.map some)) payloads chains ∧
      ∃ final, deliverChains codec₀ n₀ payloads = .ok { n₀ with blockchain := ⟨final⟩ } ∧
        HeaviestChoice n₀.blockchain.blocks chains final ∧ final = [heavy] := by
  intro block sealed light heavy tied invalid codec₀ n₀ payloads chains
  have h : List.Forall₂ (fun p c => unmarshal (unmarshalBlockSlice codec₀) p = some (c.map some)) payloads chains :=
    .cons rfl (.cons rfl (.cons rfl (.cons rfl .nil)))
  have hinvalid : isValidChain [invalid] = false := by
    simp [isValidChain, invalid, block, Ne.symm (calculateHash_ne_empty _)]
  have hlight : isValidChain [light] = true := isValidChain_sealed_genesis (block "light" 1) rfl
  have hheavy : isValidChain [heavy] = true := isValidChain_sealed_genesis (block "heavy" 5) rfl
  have htied : isValidChain [tied] = true := isValidChain_sealed_genesis (block "tied" 5) rfl
  have hvalid : chains.filter isValidChain = [[light], [heavy], [tied]] := by
    simp [chains, List.filter_cons, hlight, hheavy, htied, hinvalid]
  obtain ⟨final, hrun, hchoice⟩ := deliverChains_heaviest codec₀ n₀ payloads chains h
  have hfirst := hchoice.first_heaviest ⟨[heavy], by simp [hvalid], by decide⟩
  rw [hvalid] at hfirst
  exact ⟨h, final, hrun, hchoice, (Option.some.inj hfirst).symm⟩

end LiteBlockchain.P2P
