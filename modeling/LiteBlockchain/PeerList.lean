import LiteBlockchain.Handlers

namespace LiteBlockchain.P2P

theorem contains_iff (slice : List String) (item : String) : contains slice item = true ↔ item ∈ slice := by
  induction slice with
  | nil => simp [contains]
  | cons s slice ih =>
    by_cases h : s = item
    · simp [contains, h]
    · simp [contains, h, ih, Ne.symm h]

theorem mergePeers_append (address : String) (peers l₁ l₂ : List String) :
    mergePeers address peers (l₁ ++ l₂) = mergePeers address (mergePeers address peers l₁) l₂ := by
  induction l₁ generalizing peers with
  | nil => rfl
  | cons peer rest ih => exact ih _

theorem mergePeers_spec (address : String) (received : List String) {peers : List String}
    (hnd : peers.Nodup) (ha : address ∉ peers) :
    (mergePeers address peers received).Nodup ∧ address ∉ mergePeers address peers received ∧
      peers <+: mergePeers address peers received ∧
      ∀ x, x ∈ mergePeers address peers received ↔ x ∈ peers ∨ (x ∈ received ∧ x ≠ address) := by
  induction received generalizing peers with
  | nil => simp [mergePeers, hnd, ha]
  | cons peer rest ih =>
    rw [mergePeers]
    split
    · rename_i hadd
      have hnew : peer ∉ peers := fun h => by simp [(contains_iff _ _).mpr h] at hadd
      obtain ⟨h1, h2, h3, h4⟩ := ih (hnd.append (List.nodup_singleton peer) (by simpa using hnew))
        (by simpa [Ne.symm hadd.1] using ha)
      refine ⟨h1, h2, (List.prefix_append _ _).trans h3, fun x => ?_⟩
      rw [h4]
      by_cases hx : x = peer
      · simp [hx, hadd.1]
      · simp [hx]
    · rename_i hkeep
      obtain ⟨h1, h2, h3, h4⟩ := ih hnd ha
      refine ⟨h1, h2, h3, fun x => ?_⟩
      rw [h4]
      by_cases hx : x = peer
      · subst hx
        have : x = address ∨ x ∈ peers := by
          by_contra hc
          have hfalse : contains peers x = false :=
            Bool.eq_false_iff.mpr fun h => hc (.inr ((contains_iff _ _).mp h))
          exact hkeep ⟨fun h => hc (.inl h), by simp [hfalse]⟩
        rcases this with rfl | hm <;> simp [*]
      · simp [hx]

theorem handlePeerList_eq (n : Node) (data : Option Json) :
    handlePeerList n data =
      { n with peers := mergePeers n.address n.peers ((unmarshal unmarshalStringSlice data).getD []) } := by
  unfold handlePeerList
  split <;> simp [*, mergePeers]

theorem foldl_handlePeerList (n : Node) (payloads : List (Option Json)) :
    payloads.foldl handlePeerList n =
      { n with
        peers := mergePeers n.address n.peers
          (payloads.flatMap fun data => (unmarshal unmarshalStringSlice data).getD []) } := by
  induction payloads generalizing n with
  | nil => rfl
  | cons data rest ih =>
    rw [List.foldl_cons, ih, handlePeerList_eq, List.flatMap_cons, mergePeers_append]

theorem flatMap_getD_eq {α β : Type} (f : α → Option (List β)) (l : List α) :
    l.flatMap (fun a => (f a).getD []) = (l.filterMap f).flatten := by
  induction l with
  | nil => rfl
  | cons a l ih => cases h : f a <;> simp [List.filterMap_cons, h, ih]

theorem handlePeerList_union (n : Node) (payloads : List (Option Json)) (hnd : n.peers.Nodup)
    (ha : n.address ∉ n.peers) :
    let final := (payloads.foldl handlePeerList n).peers
    let received := payloads.filterMap (unmarshal unmarshalStringSlice)
    final.Nodup ∧ n.address ∉ final ∧ n.peers <+: final ∧
      (∀ x, x ∈ final ↔ (x ∈ n.peers ∨ ∃ l ∈ received, x ∈ l) ∧ x ≠ n.address) ∧
      ∀ payloads' : List (Option Json), List.Perm payloads' payloads →
        ∀ x, x ∈ (payloads'.foldl handlePeerList n).peers ↔ x ∈ final := by
  have mem (payloads : List (Option Json)) (x : String) :
      x ∈ (payloads.foldl handlePeerList n).peers ↔
        (x ∈ n.peers ∨ ∃ l ∈ payloads.filterMap (unmarshal unmarshalStringSlice), x ∈ l) ∧ x ≠ n.address := by
    rw [foldl_handlePeerList, (mergePeers_spec _ _ hnd ha).2.2.2, flatMap_getD_eq, List.mem_flatten]
    by_cases hx : x = n.address
    · subst hx
      simp [ha]
    · simp [hx]
  obtain ⟨h1, h2, h3, -⟩ := mergePeers_spec n.address
    (payloads.flatMap fun data => (unmarshal unmarshalStringSlice data).getD []) hnd ha
  have hfinal := congrArg Node.peers (foldl_handlePeerList n payloads)
  refine ⟨hfinal ▸ h1, hfinal ▸ h2, hfinal ▸ h3, mem payloads, fun payloads' hp x => ?_⟩
  rw [mem, mem]
  simp only [(hp.filterMap _).mem_iff]

theorem handlePeerList_union_two :
    let n : Node := ⟨"localhost:8000", ["localhost:8001"], newBlockchain⟩
    let payloads : List (Option Json) :=
      [some (.array [.string "localhost:8002", .string "localhost:8000"]), some (.number "1"),
        some (.array [.string "localhost:8001", .string "localhost:8002"])]
    (n.peers.Nodup ∧ n.address ∉ n.peers) ∧
      let final := (payloads.foldl handlePeerList n).peers
      let received := payloads.filterMap (unmarshal unmarshalStringSlice)
      final.Nodup ∧ n.address ∉ final ∧ n.peers <+: final ∧
        (∀ x, x ∈ final ↔ (x ∈ n.peers ∨ ∃ l ∈ received, x ∈ l) ∧ x ≠ n.address) ∧
        ∀ payloads' : List (Option Json), List.Perm payloads' payloads →
          ∀ x, x ∈ (payloads'.foldl handlePeerList n).peers ↔ x ∈ final := by
  intro n payloads
  have hnd : n.peers.Nodup := by decide
  have ha : n.address ∉ n.peers := by decide
  exact ⟨⟨hnd, ha⟩, handlePeerList_union n payloads hnd ha⟩

end LiteBlockchain.P2P
