import LiteBlockchain.Block

/-!
`ledger.go`. A `Ledger` is a Go `map[string]float64`: the accounts present and the balance of
each, an absent account reading as the zero value. Balances and amounts are exact rationals.
-/

namespace LiteBlockchain

structure Ledger where
  accounts : Finset String
  balance : String → ℚ
  absent : ∀ a ∉ accounts, balance a = 0

def newLedger : Ledger := ⟨∅, fun _ => 0, fun _ _ => rfl⟩

/-- The map assignment `l[a] = v`, which adds `a` when it is absent. -/
def Ledger.set (l : Ledger) (a : String) (v : ℚ) : Ledger where
  accounts := insert a l.accounts
  balance := Function.update l.balance a v
  absent b hb := by
    obtain ⟨hba, hb⟩ : b ≠ a ∧ b ∉ l.accounts := by simpa using hb
    rw [Function.update_noteq hba]
    exact l.absent b hb

/-- `ProcessTransaction` mutates the map in place and returns an error, so both come back. -/
def Ledger.processTransaction (l : Ledger) (tx : Transaction) : Ledger × Option String :=
  let senderBalance := l.balance tx.sender
  if senderBalance < tx.amount then (l, some "insufficient funds")
  else
    let l := l.set tx.sender (l.balance tx.sender - tx.amount)
    (l.set tx.recipient (l.balance tx.recipient + tx.amount), none)

def Ledger.processCoinbaseTransaction (l : Ledger) (recipient : String) (reward : ℚ) : Ledger :=
  l.set recipient (l.balance recipient + reward)

inductive LedgerCall where
  | processTransaction (tx : Transaction)
  | processCoinbaseTransaction (recipient : String) (reward : ℚ)

def Ledger.apply (l : Ledger) : LedgerCall → Ledger
  | .processTransaction tx => (l.processTransaction tx).1
  | .processCoinbaseTransaction recipient reward => l.processCoinbaseTransaction recipient reward

def LedgerCall.reward : LedgerCall → ℚ
  | .processTransaction _ => 0
  | .processCoinbaseTransaction _ reward => reward

def LedgerCall.amount : LedgerCall → ℚ
  | .processTransaction tx => tx.amount
  | .processCoinbaseTransaction _ reward => reward

def Ledger.total (l : Ledger) : ℚ := ∑ a ∈ l.accounts, l.balance a

def Ledger.Nonnegative (l : Ledger) : Prop := ∀ a, 0 ≤ l.balance a

@[simp] theorem Ledger.set_balance (l : Ledger) (a : String) (v : ℚ) (b : String) :
    (l.set a v).balance b = if b = a then v else l.balance b :=
  Function.update_apply _ _ _ _

theorem Ledger.total_set (l : Ledger) (a : String) (v : ℚ) :
    (l.set a v).total + l.balance a = l.total + v := by
  dsimp only [Ledger.total, Ledger.set]
  by_cases ha : a ∈ l.accounts
  · rw [Finset.insert_eq_of_mem ha, Finset.sum_update_of_mem ha,
      Finset.sum_eq_add_sum_diff_singleton ha]
    ring
  · rw [Finset.sum_insert ha, Function.update_same, l.absent a ha,
      Finset.sum_congr rfl fun b hb => Function.update_noteq (ne_of_mem_of_not_mem hb ha) _ _]
    ring

theorem Ledger.processTransaction_eq (l : Ledger) (tx : Transaction) :
    l.processTransaction tx =
      if l.balance tx.sender < tx.amount then (l, some "insufficient funds")
      else
        let l' := l.set tx.sender (l.balance tx.sender - tx.amount)
        (l'.set tx.recipient (l'.balance tx.recipient + tx.amount), none) := rfl

theorem Ledger.processTransaction_error {l : Ledger} {tx : Transaction} {err : String}
    (h : (l.processTransaction tx).2 = some err) :
    err = "insufficient funds" ∧ (l.processTransaction tx).1 = l := by
  rw [Ledger.processTransaction_eq] at h ⊢
  split at h
  · exact ⟨(Option.some.inj h).symm, by rw [if_pos ‹_›]⟩
  · cases h

theorem Ledger.processTransaction_total (l : Ledger) (tx : Transaction) :
    (l.processTransaction tx).1.total = l.total := by
  rw [Ledger.processTransaction_eq]
  split
  · rfl
  · have debit := l.total_set tx.sender (l.balance tx.sender - tx.amount)
    have credit := (l.set tx.sender (l.balance tx.sender - tx.amount)).total_set tx.recipient
      ((l.set tx.sender (l.balance tx.sender - tx.amount)).balance tx.recipient + tx.amount)
    dsimp only
    linarith

theorem Ledger.apply_total (l : Ledger) (c : LedgerCall) : (l.apply c).total = l.total + c.reward := by
  cases c with
  | processTransaction tx => simp [Ledger.apply, LedgerCall.reward, Ledger.processTransaction_total]
  | processCoinbaseTransaction recipient reward =>
    have := l.total_set recipient (l.balance recipient + reward)
    simp only [Ledger.apply, Ledger.processCoinbaseTransaction, LedgerCall.reward]
    linarith

theorem ledger_conservation :
    (∀ (l : Ledger) (calls : List LedgerCall),
      (calls.foldl Ledger.apply l).total = l.total + (calls.map LedgerCall.reward).sum) ∧
    ∀ (l : Ledger) (tx : Transaction) (err : String), (l.processTransaction tx).2 = some err →
      err = "insufficient funds" ∧ (l.processTransaction tx).1 = l := by
  refine ⟨fun l calls => ?_, fun _ _ _ => Ledger.processTransaction_error⟩
  induction calls generalizing l with
  | nil => simp
  | cons c calls ih => rw [List.foldl_cons, ih, Ledger.apply_total, List.map_cons, List.sum_cons]; ring

theorem ledger_conservation_rejected :
    (newLedger.processTransaction ⟨"A", "B", 5, 0, "", "", "", 0⟩).2 = some "insufficient funds" ∧
      ("insufficient funds" = "insufficient funds" ∧
        (newLedger.processTransaction ⟨"A", "B", 5, 0, "", "", "", 0⟩).1 = newLedger) := by
  have h : (newLedger.processTransaction ⟨"A", "B", 5, 0, "", "", "", 0⟩).2 = some "insufficient funds" := by
    rw [Ledger.processTransaction_eq, if_pos (by norm_num [newLedger])]
  exact ⟨h, ledger_conservation.2 _ _ _ h⟩

theorem Ledger.processTransaction_nonnegative {l : Ledger} {tx : Transaction} (hl : l.Nonnegative)
    (ha : 0 ≤ tx.amount) : (l.processTransaction tx).1.Nonnegative := by
  rw [Ledger.processTransaction_eq]
  split
  · exact hl
  · rename_i hs
    intro b
    simp only [Ledger.set_balance]
    have := hl b
    have := hl tx.recipient
    split_ifs <;> linarith

theorem Ledger.apply_nonnegative {l : Ledger} {c : LedgerCall} (hl : l.Nonnegative) (hc : 0 ≤ c.amount) :
    (l.apply c).Nonnegative := by
  cases c with
  | processTransaction tx => exact Ledger.processTransaction_nonnegative hl hc
  | processCoinbaseTransaction recipient reward =>
    intro b
    simp only [Ledger.apply, Ledger.processCoinbaseTransaction, Ledger.set_balance]
    have := hl b
    have := hl recipient
    have : 0 ≤ reward := hc
    split_ifs <;> linarith

theorem ledgerRun_nonnegative {l : Ledger} {calls : List LedgerCall} (hl : l.Nonnegative)
    (hc : ∀ c ∈ calls, 0 ≤ c.amount) : (calls.foldl Ledger.apply l).Nonnegative := by
  induction calls generalizing l with
  | nil => exact hl
  | cons c calls ih =>
    rw [List.forall_mem_cons] at hc
    exact ih (Ledger.apply_nonnegative hl hc.1) hc.2

theorem ledgerRun_nonnegative_coinbase :
    newLedger.Nonnegative ∧ (∀ c ∈ [LedgerCall.processCoinbaseTransaction "Miner1" (25 / 2)], 0 ≤ c.amount) ∧
      ([LedgerCall.processCoinbaseTransaction "Miner1" (25 / 2)].foldl Ledger.apply newLedger).Nonnegative := by
  have h0 : newLedger.Nonnegative := fun _ => le_refl 0
  have hc : ∀ c ∈ [LedgerCall.processCoinbaseTransaction "Miner1" (25 / 2)], 0 ≤ c.amount := by
    norm_num [LedgerCall.amount]
  exact ⟨h0, hc, ledgerRun_nonnegative h0 hc⟩

theorem Ledger.processTransaction_negative {l : Ledger} {tx : Transaction} (hl : 0 ≤ l.balance tx.sender)
    (ha : tx.amount < 0) (hne : tx.sender ≠ tx.recipient) :
    (l.processTransaction tx).2 = none ∧
      (l.processTransaction tx).1.balance tx.recipient = l.balance tx.recipient + tx.amount := by
  rw [Ledger.processTransaction_eq, if_neg (by linarith)]
  simp [Ne.symm hne]

theorem ledger_overdrawn :
    ∃ calls : List LedgerCall, newLedger.Nonnegative ∧ (∀ c ∈ calls, 0 ≤ c.reward) ∧
      (calls.foldl Ledger.apply newLedger).balance "B" < 0 := by
  refine ⟨[.processTransaction ⟨"A", "B", -1, 0, "", "", "", 0⟩], fun _ => le_refl 0,
    by simp [LedgerCall.reward], ?_⟩
  have := (@Ledger.processTransaction_negative newLedger ⟨"A", "B", -1, 0, "", "", "", 0⟩
    (le_refl 0) (by norm_num) (by decide)).2
  simp only [List.foldl_cons, List.foldl_nil, Ledger.apply, this]
  norm_num [newLedger]

end LiteBlockchain
