import LiteBlockchain.Block

/-!
`difficulty.go`. A `time.Duration` is an `int64` count of nanoseconds, so the elapsed time, the
expected time and the two bands are wrapping `BitVec 64` arithmetic, compared signed; the
results below relate them to exact integers where nothing wraps.
-/

namespace LiteBlockchain

def second : BitVec 64 := 1000000000

/-- Go's `chain[i]`: an index out of range, negative ones included, panics (`none`). -/
def blockAt (chain : List Block) (i : Int) : Option Block :=
  if 0 ≤ i then chain[i.toNat]? else none

def adjustDifficulty (chain : List Block) (targetTimePerBlock adjustmentInterval : BitVec 64) :
    Option (BitVec 64) :=
  let n : Int := chain.length
  if n < adjustmentInterval.toInt then (blockAt chain (n - 1)).map Block.difficulty
  else
    match blockAt chain (n - adjustmentInterval.toInt), blockAt chain (n - 1) with
    | some start, some endBlock =>
      let actualTime := (endBlock.timestamp - start.timestamp) * second
      let expectedTime := targetTimePerBlock * adjustmentInterval
      let currentDifficulty := endBlock.difficulty
      if actualTime.slt (expectedTime.sdiv 2) then some (currentDifficulty + 1)
      else if (expectedTime * 2).slt actualTime then
        if (1 : BitVec 64).slt currentDifficulty then some (currentDifficulty - 1)
        else some currentDifficulty
      else some currentDifficulty
    | _, _ => none

theorem toInt_sdiv_two {x : BitVec 64} (hx : 0 ≤ x.toInt) : (x.sdiv 2).toInt = x.toInt / 2 := by
  have := x.isLt
  have hlt : 2 * x.toNat < 2 ^ 64 := by
    rw [BitVec.toInt_eq_toNat_cond] at hx
    split at hx <;> omega
  rw [BitVec.sdiv_eq, BitVec.msb_eq_false_iff_two_mul_lt.mpr hlt,
    show (2 : BitVec 64).msb = false from rfl]
  simp only [BitVec.udiv_eq, BitVec.toInt_eq_toNat_cond, BitVec.toNat_udiv,
    show (2 : BitVec 64).toNat = 2 from rfl]
  split_ifs <;> omega

theorem blockAt_last {chain : List Block} {b : Block} (h : chain.getLast? = some b) :
    blockAt chain (chain.length - 1) = some b := by
  have hpos : 0 < chain.length := by
    cases chain with
    | nil => cases h
    | cons _ _ => simp
  rw [blockAt, if_pos (by omega), ← h, List.getLast?_eq_getElem?]
  congr 1
  omega

theorem adjustDifficulty_bands {chain : List Block} {T w : BitVec 64} {start endBlock : Block}
    (hw : 1 ≤ w.toInt) (hs : blockAt chain (chain.length - w.toInt) = some start)
    (he : chain.getLast? = some endBlock) (hT : 0 < T.toInt) (hX : 2 * (T.toInt * w.toInt) < 2 ^ 63)
    (hE : -2 ^ 63 ≤ (endBlock.timestamp.toInt - start.timestamp.toInt) * 10 ^ 9 ∧
      (endBlock.timestamp.toInt - start.timestamp.toInt) * 10 ^ 9 < 2 ^ 63)
    (hd : endBlock.difficulty.toInt < 2 ^ 63 - 1) :
    (adjustDifficulty chain T w).map BitVec.toInt = some
      (let E := (endBlock.timestamp.toInt - start.timestamp.toInt) * 10 ^ 9
       let d := endBlock.difficulty.toInt
       if E < T.toInt * w.toInt / 2 then d + 1
       else if 2 * (T.toInt * w.toInt) < E ∧ 1 < d then d - 1 else d) := by
  have hidx : 0 ≤ (chain.length : Int) - w.toInt := by
    unfold blockAt at hs
    split at hs
    · assumption
    · cases hs
  have hX0 : 0 < T.toInt * w.toInt := Int.mul_pos hT (by omega)
  have hsub : (endBlock.timestamp - start.timestamp).toInt =
      endBlock.timestamp.toInt - start.timestamp.toInt :=
    toInt_eq_of_bmod BitVec.toInt_sub (by omega) (by omega)
  have hact : ((endBlock.timestamp - start.timestamp) * second).toInt =
      (endBlock.timestamp.toInt - start.timestamp.toInt) * 10 ^ 9 :=
    toInt_eq_of_bmod (by rw [BitVec.toInt_mul, hsub]; rfl) hE.1 hE.2
  have hexp : (T * w).toInt = T.toInt * w.toInt :=
    toInt_eq_of_bmod (BitVec.toInt_mul _ _) (by omega) (by omega)
  have hhalf : ((T * w).sdiv 2).toInt = T.toInt * w.toInt / 2 := by
    rw [toInt_sdiv_two (by omega), hexp]
  have hdouble : (T * w * 2).toInt = 2 * (T.toInt * w.toInt) :=
    toInt_eq_of_bmod (by rw [BitVec.toInt_mul, hexp, show (2 : BitVec 64).toInt = 2 from rfl, Int.mul_comm]) (by omega) (by omega)
  have hdb := toInt_bounds endBlock.difficulty
  have hone : (1 : BitVec 64).toInt = 1 := by decide
  unfold adjustDifficulty
  dsimp only
  rw [if_neg (by omega), hs, blockAt_last he]
  dsimp only
  simp only [BitVec.slt, decide_eq_true_eq, hact, hhalf, hdouble, hone]
  split_ifs <;> simp only [Option.map_some', Option.some.injEq]
  · exact toInt_eq_of_bmod (by rw [BitVec.toInt_add, hone]) (by omega) (by omega)
  · exact toInt_eq_of_bmod (by rw [BitVec.toInt_sub, hone]) (by omega) (by omega)
  all_goals omega

theorem adjustDifficulty_bands_slow :
    let b₀ : Block := ⟨0, 0, "", "", 0, "", [], "", "", "", [], [], 5, "main"⟩
    let b₁ : Block := ⟨1, 1000, "", "", 0, "", [], "", "", "", [], [], 5, "main"⟩
    (1 ≤ (2 : BitVec 64).toInt ∧ blockAt [b₀, b₁] (2 - (2 : BitVec 64).toInt) = some b₀ ∧
      [b₀, b₁].getLast? = some b₁ ∧ 0 < (10000000000 : BitVec 64).toInt ∧
      2 * ((10000000000 : BitVec 64).toInt * (2 : BitVec 64).toInt) < 2 ^ 63 ∧
      (-2 ^ 63 ≤ (b₁.timestamp.toInt - b₀.timestamp.toInt) * 10 ^ 9 ∧
        (b₁.timestamp.toInt - b₀.timestamp.toInt) * 10 ^ 9 < 2 ^ 63) ∧
      b₁.difficulty.toInt < 2 ^ 63 - 1) ∧
    (adjustDifficulty [b₀, b₁] 10000000000 2).map BitVec.toInt = some
      (let E := (b₁.timestamp.toInt - b₀.timestamp.toInt) * 10 ^ 9
       let d := b₁.difficulty.toInt
       if E < (10000000000 : BitVec 64).toInt * (2 : BitVec 64).toInt / 2 then d + 1
       else if 2 * ((10000000000 : BitVec 64).toInt * (2 : BitVec 64).toInt) < E ∧ 1 < d then d - 1
       else d) := by
  intro b₀ b₁
  have hw : 1 ≤ (2 : BitVec 64).toInt := by decide
  have hT : 0 < (10000000000 : BitVec 64).toInt := by decide
  have hX : 2 * ((10000000000 : BitVec 64).toInt * (2 : BitVec 64).toInt) < 2 ^ 63 := by decide
  have hE : -2 ^ 63 ≤ (b₁.timestamp.toInt - b₀.timestamp.toInt) * 10 ^ 9 ∧
      (b₁.timestamp.toInt - b₀.timestamp.toInt) * 10 ^ 9 < 2 ^ 63 := by decide
  have hd : b₁.difficulty.toInt < 2 ^ 63 - 1 := by decide
  exact ⟨⟨hw, rfl, rfl, hT, hX, hE, hd⟩, adjustDifficulty_bands hw rfl rfl hT hX hE hd⟩

example : adjustDifficulty [⟨0, 0, "", "", 0, "", [], "", "", "", [], [], 5, "main"⟩,
    ⟨1, 10000000000, "", "", 0, "", [], "", "", "", [], [], 5, "main"⟩] 10000000000 2 = some 6 := by
  decide

theorem adjustDifficulty_window :
    ∃ (chain : List Block) (T w : BitVec 64) (back tip : Block),
      1 ≤ w.toInt ∧ w.toInt < chain.length ∧ 0 < T.toInt ∧ T.toInt * w.toInt < 2 ^ 63 ∧
      blockAt chain (chain.length - 1 - w.toInt) = some back ∧ chain.getLast? = some tip ∧
      2 * (T.toInt * w.toInt) < (tip.timestamp.toInt - back.timestamp.toInt) * 10 ^ 9 ∧
      1 < tip.difficulty.toInt ∧ adjustDifficulty chain T w = some (tip.difficulty + 1) :=
  ⟨[⟨0, 0, "", "", 0, "", [], "", "", "", [], [], 5, "main"⟩,
      ⟨1, 1000, "", "", 0, "", [], "", "", "", [], [], 5, "main"⟩], 10000000000, 1,
    ⟨0, 0, "", "", 0, "", [], "", "", "", [], [], 5, "main"⟩,
    ⟨1, 1000, "", "", 0, "", [], "", "", "", [], [], 5, "main"⟩, by decide, by decide, by decide,
    by decide, rfl, rfl, by decide, by decide, rfl⟩

end LiteBlockchain
