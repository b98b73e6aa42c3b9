import LiteBlockchain.Chain

/-!
The message handlers of `p2p.go`. A message's `data` is a JSON value, absent when the
sender left it out; how `encoding/json` turns a block into an object and back is a
`BlockCodec`, and every result below holds for every codec.
-/

namespace LiteBlockchain.P2P

inductive Json where
  | null
  | bool (b : Bool)
  | number (literal : String)
  | string (s : String)
  | array (items : List Json)
  | object (fields : List (String × Json))

structure BlockCodec where
  encode : Block → Json
  decodeObject : List (String × Json) → Option Block

structure Message where
  command : String
  data : Option Json

structure Node where
  address : String
  peers : List String
  blockchain : Blockchain

inductive Panic where
  | nilDereference
  | indexOutOfRange
  | sliceBoundsOutOfRange

inductive Effect where
  | reply (msg : Message)
  | send (peer : String) (msg : Message)

variable (codec : BlockCodec)

/-- `json.Unmarshal` of a `RawMessage`: an absent field is an empty input, which fails. -/
def unmarshal {α : Type} (decode : Json → Option α) : Option Json → Option α
  | none => none
  | some j => decode j

def unmarshalBlockPtr : Json → Option (Option Block)
  | .null => some none
  | .object fields => (codec.decodeObject fields).map some
  | _ => none

def unmarshalBlockSlice : Json → Option (List (Option Block))
  | .null => some []
  | .array items => items.mapM (unmarshalBlockPtr codec)
  | _ => none

def unmarshalString : Json → Option String
  | .null => some ""
  | .string s => some s
  | _ => none

def unmarshalStringSlice : Json → Option (List String)
  | .null => some []
  | .array items => items.mapM unmarshalString
  | _ => none

def marshalChain (blocks : List Block) : Json := .array (blocks.map codec.encode)

def marshalPeers (peers : List String) : Json := .array (peers.map .string)

/-- `IsValidChain` on decoded pointers: reaching a nil block dereferences it. -/
def linksValidPtr (previous : Block) : List (Option Block) → Except Panic Bool
  | [] => .ok true
  | none :: _ => .error .nilDereference
  | some current :: rest =>
    if current.prevHash != previous.hash then .ok false
    else if current.hash != calculateHash current then .ok false
    else linksValidPtr current rest

def isValidChainPtr : List (Option Block) → Except Panic Bool
  | [] => .ok false
  | none :: _ => .error .nilDereference
  | some genesis :: rest =>
    if genesis.prevHash != "" || genesis.hash != calculateHash genesis then .ok false
    else linksValidPtr genesis rest

def sendChain (n : Node) : List Effect :=
  [.reply ⟨"GET_CHAIN_RESPONSE", some (marshalChain codec n.blockchain.blocks)⟩]

def broadcastChainUpdate (n : Node) : List Effect :=
  n.peers.map fun peer => .send peer ⟨"CHAIN_UPDATE", some (marshalChain codec n.blockchain.blocks)⟩

def handleGetPeers (n : Node) : List Effect := [.reply ⟨"PEER_LIST", some (marshalPeers n.peers)⟩]

def sendHeartbeatAck : List Effect := [.reply ⟨"HEARTBEAT_ACK", none⟩]

/-- What `handleChainUpdate` does with the chain `json.Unmarshal` decoded. A valid decoded chain
has no nil block, so `filterMap id` is the chain itself. -/
def handleIncomingChain (n : Node) (incomingChain : List (Option Block)) : Except Panic Node :=
  match isValidChainPtr incomingChain with
  | .error p => .error p
  | .ok false => .ok n
  | .ok true => .ok { n with blockchain := (n.blockchain.replaceChain (incomingChain.filterMap id)).2 }

def handleChainUpdate (n : Node) (data : Option Json) : Except Panic Node :=
  match unmarshal (unmarshalBlockSlice codec) data with
  | none => .ok n
  | some incomingChain => handleIncomingChain n incomingChain

def appendIncomingBlock (n : Node) (newBlock : Option Block) : Except Panic (Node × Bool) :=
  match n.blockchain.blocks.getLast?, newBlock with
  | none, _ => .error .indexOutOfRange
  | some _, none => .error .nilDereference
  | some lastBlock, some b =>
    if b.prevHash = lastBlock.hash ∧ b.hash = calculateHash b then
      .ok ({ n with blockchain := ⟨n.blockchain.blocks ++ [b]⟩ }, true)
    else .ok (n, false)

def handleNewBlock (n : Node) (data : Option Json) : Except Panic (Node × List Effect) :=
  match unmarshal (unmarshalBlockPtr codec) data with
  | none => .ok (n, [])
  | some newBlock =>
    (appendIncomingBlock n newBlock).map fun (n, appended) =>
      (n, if appended then broadcastChainUpdate codec n else [])

def contains : List String → String → Bool
  | [], _ => false
  | s :: slice, item => if s = item then true else contains slice item

def mergePeers (address : String) (peers : List String) : List String → List String
  | [] => peers
  | peer :: rest =>
    mergePeers address (if peer ≠ address ∧ !contains peers peer then peers ++ [peer] else peers) rest

def handlePeerList (n : Node) (data : Option Json) : Node :=
  match unmarshal unmarshalStringSlice data with
  | none => n
  | some receivedPeers => { n with peers := mergePeers n.address n.peers receivedPeers }

def handleMessage (n : Node) (msg : Message) : Except Panic (Node × List Effect) :=
  match msg.command with
  | "GET_CHAIN" => .ok (n, sendChain codec n)
  | "GET_CHAIN_RESPONSE" => (handleChainUpdate codec n msg.data).map (·, [])
  | "CHAIN_UPDATE" => (handleChainUpdate codec n msg.data).map (·, [])
  | "NEW_BLOCK" => handleNewBlock codec n msg.data
  | "HEARTBEAT" => .ok (n, sendHeartbeatAck)
  | "HEARTBEAT_ACK" => .ok (n, [])
  | "GET_PEERS" => .ok (n, handleGetPeers n)
  | "PEER_LIST" => .ok (handlePeerList n msg.data, [])
  | _ => .ok (n, [])

theorem linksValidPtr_map_some (previous : Block) (rest : List Block) :
    linksValidPtr previous (rest.map some) = .ok (linksValid previous rest) := by
  induction rest generalizing previous with
  | nil => rfl
  | cons current rest ih =>
    simp only [List.map_cons, linksValidPtr, linksValid, ih]
    split <;> (try split) <;> rfl

theorem isValidChainPtr_map_some (chain : List Block) :
    isValidChainPtr (chain.map some) = .ok (isValidChain chain) := by
  cases chain with
  | nil => rfl
  | cons genesis rest =>
    simp only [List.map_cons, isValidChainPtr, isValidChain, linksValidPtr_map_some]
    split <;> rfl

theorem handleIncomingChain_map_some (n : Node) (chain : List Block) :
    handleIncomingChain n (chain.map some) =
      .ok { n with blockchain := (n.blockchain.replaceChain chain).2 } := by
  unfold handleIncomingChain
  rw [isValidChainPtr_map_some]
  cases hv : isValidChain chain
  · simp [Blockchain.replaceChain, hv]
  · simp [List.filterMap_map]

theorem handleIncomingChain_hashLinked {n n' : Node} {incomingChain : List (Option Block)}
    (h : handleIncomingChain n incomingChain = .ok n') (hl : HashLinked n.blockchain.blocks) :
    HashLinked n'.blockchain.blocks := by
  unfold handleIncomingChain at h
  split at h
  · cases h
  · cases h; exact hl
  · cases h; exact replaceChain_hashLinked _ _ hl

theorem handleChainUpdate_hashLinked {n n' : Node} {data : Option Json}
    (h : handleChainUpdate codec n data = .ok n') (hl : HashLinked n.blockchain.blocks) :
    HashLinked n'.blockchain.blocks := by
  unfold handleChainUpdate at h
  split at h
  · cases h; exact hl
  · exact handleIncomingChain_hashLinked h hl

theorem appendIncomingBlock_hashLinked {n n' : Node} {newBlock : Option Block} {appended : Bool}
    (h : appendIncomingBlock n newBlock = .ok (n', appended)) (hl : HashLinked n.blockchain.blocks) :
    HashLinked n'.blockchain.blocks := by
  unfold appendIncomingBlock at h
  split at h
  · cases h
  · cases h
  · rename_i lastBlock b hlast
    split at h
    · cases h
      rename_i hb
      exact hl.append_block hb.2 (by simp [hlast, hb.1])
    · cases h; exact hl

theorem handleIncomingChain_eq_ok {n n' : Node} {incomingChain : List (Option Block)}
    (h : handleIncomingChain n incomingChain = .ok n') :
    n' = n ∨ n' = { n with blockchain := (n.blockchain.replaceChain (incomingChain.filterMap id)).2 } := by
  unfold handleIncomingChain at h
  split at h <;> cases h
  · exact .inl rfl
  · exact .inr rfl

theorem handleChainUpdate_eq_ok {n n' : Node} {data : Option Json}
    (h : handleChainUpdate codec n data = .ok n') :
    n' = n ∨ ∃ c, n' = { n with blockchain := (n.blockchain.replaceChain c).2 } := by
  unfold handleChainUpdate at h
  split at h
  · cases h; exact .inl rfl
  · exact (handleIncomingChain_eq_ok h).imp_right fun h => ⟨_, h⟩

theorem appendIncomingBlock_eq_ok {n n' : Node} {newBlock : Option Block} {appended : Bool}
    (h : appendIncomingBlock n newBlock = .ok (n', appended)) :
    n' = n ∨ ∃ b, n' = { n with blockchain := ⟨n.blockchain.blocks ++ [b]⟩ } := by
  unfold appendIncomingBlock at h
  split at h
  · cases h
  · cases h
  · split at h <;> cases h
    · exact .inr ⟨_, rfl⟩
    · exact .inl rfl

theorem handleNewBlock_eq_ok {n n' : Node} {data : Option Json} {effects : List Effect}
    (h : handleNewBlock codec n data = .ok (n', effects)) :
    n' = n ∧ effects = [] ∨ ∃ newBlock appended, appendIncomingBlock n newBlock = .ok (n', appended) ∧
      effects = if appended then broadcastChainUpdate codec n' else [] := by
  unfold handleNewBlock at h
  split at h
  · cases h; exact .inl ⟨rfl, rfl⟩
  · rename_i newBlock _
    cases ha : appendIncomingBlock n newBlock with
    | error p => rw [ha] at h; cases h
    | ok r => rw [ha] at h; cases h; exact .inr ⟨newBlock, r.2, ha, rfl⟩

theorem handleNewBlock_hashLinked {n n' : Node} {data : Option Json} {effects : List Effect}
    (h : handleNewBlock codec n data = .ok (n', effects)) (hl : HashLinked n.blockchain.blocks) :
    HashLinked n'.blockchain.blocks := by
  rcases handleNewBlock_eq_ok codec h with ⟨rfl, -⟩ | ⟨newBlock, appended, ha, -⟩
  · exact hl
  · exact appendIncomingBlock_hashLinked ha hl

theorem handleNewBlock_valid_extension {n : Node} {data : Option Json} {b : Block}
    (hv : isValidChain n.blockchain.blocks = true)
    (hd : unmarshal (unmarshalBlockPtr codec) data = some (some b)) :
    handleNewBlock codec n data =
      if isValidChain (n.blockchain.blocks ++ [b]) then
        .ok ({ n with blockchain := ⟨n.blockchain.blocks ++ [b]⟩ },
          broadcastChainUpdate codec { n with blockchain := ⟨n.blockchain.blocks ++ [b]⟩ })
      else .ok (n, []) := by
  obtain ⟨last, hlast⟩ : ∃ last, n.blockchain.blocks.getLast? = some last := by
    cases h : n.blockchain.blocks.getLast? with
    | none => rw [List.getLast?_eq_none_iff.mp h] at hv; cases hv
    | some last => exact ⟨last, rfl⟩
  have hext := isValidChain_append hv hlast b
  unfold handleNewBlock appendIncomingBlock
  rw [hd, hlast]
  dsimp only
  by_cases hc : b.prevHash = last.hash ∧ b.hash = calculateHash b
  · rw [if_pos hc, if_pos (hext.mpr hc)]
    rfl
  · rw [if_neg hc, if_neg (mt hext.mp hc)]
    rfl

theorem handleNewBlock_valid_extension_sealed :
    let g₀ : Block := ⟨0, 0, "", "", 0, "", [], "", "", "", [], [], 1, "main"⟩
    let b : Block := { g₀ with index := 1, prevHash := calculateHash g₀ }
    let codec₀ : BlockCodec := ⟨fun _ => .null, fun _ => some { b with hash := calculateHash b }⟩
    let n : Node := ⟨"localhost:8000", [], ⟨[{ g₀ with hash := calculateHash g₀ }]⟩⟩
    (isValidChain n.blockchain.blocks = true ∧
      unmarshal (unmarshalBlockPtr codec₀) (some (.object [])) = some (some { b with hash := calculateHash b })) ∧
    handleNewBlock codec₀ n (some (.object [])) =
      if isValidChain (n.blockchain.blocks ++ [{ b with hash := calculateHash b }]) then
        .ok ({ n with blockchain := ⟨n.blockchain.blocks ++ [{ b with hash := calculateHash b }]⟩ },
          broadcastChainUpdate codec₀
            { n with blockchain := ⟨n.blockchain.blocks ++ [{ b with hash := calculateHash b }]⟩ })
      else .ok (n, []) := by
  intro g₀ b codec₀ n
  have hv : isValidChain n.blockchain.blocks = true := isValidChain_sealed_genesis g₀ rfl
  have hd : unmarshal (unmarshalBlockPtr codec₀) (some (.object [])) =
      some (some { b with hash := calculateHash b }) := rfl
  exact ⟨⟨hv, hd⟩, handleNewBlock_valid_extension codec₀ hv hd⟩

theorem handleMessage_nil_block (address : String) (peers : List String) (blocks : List Block)
    (lastBlock : Block) :
    handleMessage codec ⟨address, peers, ⟨blocks ++ [lastBlock]⟩⟩ ⟨"NEW_BLOCK", some .null⟩ =
        .error .nilDereference ∧
      handleMessage codec ⟨address, peers, ⟨blocks⟩⟩ ⟨"CHAIN_UPDATE", some (.array [.null])⟩ =
        .error .nilDereference ∧
      handleMessage codec ⟨address, peers, ⟨blocks⟩⟩ ⟨"GET_CHAIN_RESPONSE", some (.array [.null])⟩ =
        .error .nilDereference := by
  have nilChain : unmarshalBlockSlice codec (.array [.null]) = some [none] := rfl
  simp [handleMessage, handleNewBlock, appendIncomingBlock, handleChainUpdate, handleIncomingChain,
    unmarshal, unmarshalBlockPtr, nilChain, isValidChainPtr, Except.map]

end LiteBlockchain.P2P
