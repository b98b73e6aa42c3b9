import LiteBlockchain.Block

namespace LiteBlockchain

def decimalStep (acc : Nat) (c : Char) : Nat := acc * 10 + (c.toNat - 48)

theorem decimalStep_digitChar (acc d : Nat) (h : d < 10) :
    decimalStep acc (Nat.digitChar d) = acc * 10 + d := by
  have digits : ∀ d < 10, (Nat.digitChar d).toNat - 48 = d := by decide
  rw [decimalStep, digits d h]

theorem toDigitsCore_foldl (fuel n : Nat) (ds : List Char) (h : n < fuel) :
    (Nat.toDigitsCore 10 fuel n ds).foldl decimalStep 0 = ds.foldl decimalStep n := by
  induction fuel generalizing n ds with
  | zero => omega
  | succ fuel ih =>
    have hd := decimalStep_digitChar 0 (n % 10) (Nat.mod_lt n (by omega))
    unfold Nat.toDigitsCore
    dsimp only
    split
    · rw [List.foldl_cons, hd]
      congr 1
      omega
    · rw [ih _ _ (by omega), List.foldl_cons, decimalStep_digitChar _ _ (Nat.mod_lt n (by omega))]
      congr 1
      omega

theorem repr_foldl (n : Nat) : (Nat.repr n).data.foldl decimalStep 0 = n :=
  toDigitsCore_foldl (n + 1) n [] (Nat.lt_succ_self n)

theorem repr_injective : Function.Injective Nat.repr := fun a b h => by
  rw [← repr_foldl a, h, repr_foldl]

theorem toString_int_injective : Function.Injective (toString : Int → String) := by
  have minus : ∀ m n : Nat, Nat.repr m ≠ "-" ++ Nat.repr n := by
    intro m n h
    have hv : m = n := by
      have := congrArg (fun s : String => s.data.foldl decimalStep 0) h
      simpa [repr_foldl, decimalStep] using this
    subst hv
    have := congrArg String.length h
    rw [String.length_append] at this
    have : "-".length = 1 := rfl
    omega
  intro a b h
  cases a <;> cases b <;> simp only [toString, Int.negSucc.injEq, Int.ofNat.injEq] at h ⊢
  · exact repr_injective h
  · exact absurd h (minus _ _)
  · exact absurd h.symm (minus _ _)
  · have := repr_injective (String.ext (by simpa [String.ext_iff] using h))
    omega

theorem formatInt_injective : Function.Injective formatInt := fun _ _ h =>
  BitVec.eq_of_toInt_eq (toString_int_injective h)

theorem hashRecord_not_injective :
    ¬ ∀ b₁ b₂ : Block, hashRecord b₁ = hashRecord b₂ →
      b₁.index = b₂.index ∧ b₁.timestamp = b₂.timestamp ∧ b₁.prevHash = b₂.prevHash ∧
      b₁.relationshipType = b₂.relationshipType ∧ b₁.textData = b₂.textData ∧
      b₁.audioData = b₂.audioData ∧ b₁.videoData = b₂.videoData ∧ b₁.receivers = b₂.receivers ∧
      b₁.difficulty = b₂.difficulty ∧ b₁.nonce = b₂.nonce ∧ b₁.category = b₂.category := by
  intro h
  have := (h ⟨1, 23, "", "", 0, "", [], "", "", "", [], [], 0, "main"⟩
    ⟨12, 3, "", "", 0, "", [], "", "", "", [], [], 0, "main"⟩ (by decide)).1
  exact absurd this (by decide)

theorem hashRecord_single_field (b : Block) :
    (∀ x, hashRecord { b with index := x } = hashRecord b → x = b.index) ∧
    (∀ x, hashRecord { b with timestamp := x } = hashRecord b → x = b.timestamp) ∧
    (∀ s, hashRecord { b with prevHash := s } = hashRecord b → s = b.prevHash) ∧
    (∀ s, hashRecord { b with relationshipType := s } = hashRecord b → s = b.relationshipType) ∧
    (∀ s, hashRecord { b with textData := s } = hashRecord b → s = b.textData) ∧
    (∀ s, hashRecord { b with audioData := s } = hashRecord b → s = b.audioData) ∧
    (∀ s, hashRecord { b with videoData := s } = hashRecord b → s = b.videoData) ∧
    (∀ r, hashRecord { b with receivers := r } = hashRecord b ↔
      " ".intercalate r = " ".intercalate b.receivers) ∧
    (∀ x, hashRecord { b with difficulty := x } = hashRecord b → x = b.difficulty) ∧
    (∀ x, hashRecord { b with nonce := x } = hashRecord b → x = b.nonce) ∧
    (∀ s, hashRecord { b with category := s } = hashRecord b → s = b.category) := by
  simp only [hashRecord, serializeReceivers, String.ext_iff, String.data_append, List.append_assoc,
    List.append_cancel_left_eq, List.append_cancel_right_eq]
  exact ⟨fun x h => formatInt_injective (String.ext h), fun x h => formatInt_injective (String.ext h),
    fun _ => id, fun _ => id, fun _ => id, fun _ => id, fun _ => id, fun _ => trivial,
    fun x h => formatInt_injective (String.ext h), fun x h => formatInt_injective (String.ext h),
    fun _ => id⟩

end LiteBlockchain
