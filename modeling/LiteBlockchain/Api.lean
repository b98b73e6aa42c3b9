import LiteBlockchain.Storage
import LiteBlockchain.Signature
import LiteBlockchain.Contract
import LiteBlockchain.Ledger
import LiteBlockchain.Prune
import LiteBlockchain.PeerList

/-!
`api.go`. The server holds the chain, the ledger, the peer list and the dynamic contract
registry; each route of `StartServer` is a handler that answers with a status and a body and may
replace a field of the server. A body is the text `http.Error` or `w.Write` writes, or the Go value
the handler hands to the JSON encoder. Requests are handled one at a time.
-/

namespace LiteBlockchain

open Digest

inductive Payload where
  | blocks (bs : List Block)
  | headers (hs : List LightBlockHeader)
  | block (b : Block)
  | balance (address : String) (balance : ℚ)
  | result (v : Value)
  | peers (ps : List String)
  | contractState (contract state : String)
  | status (uptime : String) (blockHeight peerCount ledgerEntries : Nat)
  | metrics (transactionsPerSecond blocksPerMinute cpuUsagePercent : ℚ)

inductive Body where
  | empty
  | text (s : String)
  | json (p : Payload)

structure Response where
  status : Nat
  body : Body

/-- `http.Error`: the message and a newline, with the status code. -/
def httpError (error : String) (code : Nat) : Response := ⟨code, .text (error ++ "\n")⟩

def contains (slice : List String) (item : String) : Bool := P2P.contains slice item

structure Server where
  blockchain : Blockchain
  ledger : Ledger
  peerList : List String
  dynamicRegistry : Registry ContractDefinition

structure ContractCall where
  contractName : String
  method : String
  params : String → Option Value

structure DeployRequest where
  contractName : String
  code : String

namespace Server

variable (s : Server)

def getChainHandler : Response := ⟨200, .json (.blocks s.blockchain.blocks)⟩

def getHeadersHandler : Response := ⟨200, .json (.headers s.blockchain.extractHeaders)⟩

def getLatestBlockHandler : Response :=
  match s.blockchain.blocks.getLast? with
  | none => httpError "Blockchain is empty" 404
  | some latest => ⟨200, .json (.block latest)⟩

def getBlockHandler (hash : String) : Response :=
  if hash = "" then httpError "Missing hash parameter" 400
  else
    match getBlockFromChain s.blockchain hash with
    | .error _ => httpError "Block not found" 404
    | .ok block => ⟨200, .json (.block block)⟩

def getSubBlocksHandler (hash : String) : Response :=
  if hash = "" then httpError "Missing hash parameter" 400
  else
    match getBlockFromChain s.blockchain hash with
    | .error _ => httpError "Block not found" 404
    | .ok block => ⟨200, .json (.blocks block.subBlocks)⟩

/-- A missing address reads as the zero balance. -/
def getBalanceHandler (address : String) : Response :=
  if address = "" then httpError "Missing address parameter" 400
  else ⟨200, .json (.balance address (s.ledger.balance address))⟩

section Submit

variable {PrivateKey PublicKey : Type} (curve : Curve PrivateKey PublicKey)

/-- `submitTransactionHandler`, `none` standing for a body that does not decode. The sender is
taken to be the hex of the marshalled public key. -/
def submitTransactionHandler (tx : Option Transaction) : Response :=
  match tx with
  | none => httpError "Invalid transaction format" 400
  | some tx =>
    match decodeString tx.sender with
    | .error _ => httpError "Invalid sender public key format" 400
    | .ok pubKeyBytes =>
      match curve.unmarshal pubKeyBytes with
      | none => httpError "Could not unmarshal sender public key" 400
      | some ecdsaPubKey =>
        if !verifyTransactionSignature curve tx ecdsaPubKey then httpError "Invalid transaction signature" 400
        else ⟨202, .empty⟩

end Submit

/-- `executeContractHandler`, against the package's `ContractRegistry`. When the encoder refuses the
result, `Encode` writes nothing and its error is dropped: the reply is a 200 with an empty body. -/
def executeContractHandler (req : Option ContractCall) : Response :=
  match req with
  | none => httpError "Invalid request format" 400
  | some req =>
    match executeContract contractRegistry req.contractName req.method req.params with
    | .error err => httpError ("Contract execution error: " ++ err) 400
    | .ok result => if result.encodable then ⟨200, .json (.result result)⟩ else ⟨200, .empty⟩

def getPeersHandler : Response := ⟨200, .json (.peers s.peerList)⟩

def addPeerHandler (peer : Option String) : Server × Response :=
  match peer with
  | none => (s, httpError "Invalid peer data" 400)
  | some peer =>
    if peer = "" then (s, httpError "Invalid peer data" 400)
    else if peer ≠ "" ∧ contains s.peerList peer = false then
      ({ s with peerList := s.peerList ++ [peer] }, ⟨202, .empty⟩)
    else (s, ⟨202, .empty⟩)

def removePeerHandler (peer : String) : Server × Response :=
  if peer = "" then (s, httpError "Missing peer parameter" 400)
  else
    let newPeers := s.peerList.filter fun p => p ≠ peer
    let removed := s.peerList.any fun p => p = peer
    ({ s with peerList := newPeers }, if removed then ⟨200, .empty⟩ else httpError "Peer not found" 404)

def contractStateHandler (contractName : String) : Response :=
  if contractName = "" then httpError "Missing contract parameter" 400
  else ⟨200, .json (.contractState contractName "dummy state")⟩

def pruneHandler (now : BitVec 64) (io : ArchiveIO) : Server × Response :=
  match s.blockchain.pruneAndArchive 50 "archive_manual" now io with
  | .error err => (s, httpError ("Pruning error: " ++ err) 500)
  | .ok (bc, _) => ({ s with blockchain := bc }, ⟨200, .text "Pruning triggered successfully."⟩)

def statusHandler (uptime : String) : Response :=
  ⟨200, .json (.status uptime s.blockchain.blocks.length s.peerList.length s.ledger.accounts.card)⟩

def metricsHandler : Response := ⟨200, .json (.metrics 5 2 15)⟩

def deployContractHandler (req : Option DeployRequest) : Server × Response :=
  match req with
  | none => (s, httpError "Invalid request format" 400)
  | some req =>
    match decodeString req.code with
    | .error _ => (s, httpError "Invalid code encoding" 400)
    | .ok code =>
      match DynamicRegistry.registerContract s.dynamicRegistry ⟨req.contractName, code⟩ with
      | .error err => (s, httpError ("Error registering contract: " ++ err) 400)
      | .ok dr => ({ s with dynamicRegistry := dr }, ⟨200, .text "Contract deployed successfully"⟩)

end Server

/-- A request to one of the routes of `StartServer`, with what the handler reads of it: the query
parameter (empty when absent), the decoded body (`none` when it does not decode), and for
`/prune` and `/status` the clock and the outcome of the archive write. -/
inductive Request where
  | chain
  | headers
  | block (hash : String)
  | latestBlock
  | subblocks (hash : String)
  | balance (address : String)
  | transaction (tx : Option Transaction)
  | contract (req : Option ContractCall)
  | peers
  | addPeer (peer : Option String)
  | removePeer (peer : String)
  | contractState (contract : String)
  | prune (now : BitVec 64) (io : ArchiveIO)
  | status (uptime : String)
  | metrics
  | deployContract (req : Option DeployRequest)

section Routes

variable {PrivateKey PublicKey : Type} (curve : Curve PrivateKey PublicKey)

def Server.handle (s : Server) : Request → Server × Response
  | .chain => (s, s.getChainHandler)
  | .headers => (s, s.getHeadersHandler)
  | .block hash => (s, s.getBlockHandler hash)
  | .latestBlock => (s, s.getLatestBlockHandler)
  | .subblocks hash => (s, s.getSubBlocksHandler hash)
  | .balance address => (s, s.getBalanceHandler address)
  | .transaction tx => (s, Server.submitTransactionHandler curve tx)
  | .contract req => (s, Server.executeContractHandler req)
  | .peers => (s, s.getPeersHandler)
  | .addPeer peer => s.addPeerHandler peer
  | .removePeer peer => s.removePeerHandler peer
  | .contractState contract => (s, Server.contractStateHandler contract)
  | .prune now io => s.pruneHandler now io
  | .status uptime => (s, s.statusHandler uptime)
  | .metrics => (s, Server.metricsHandler)
  | .deployContract req => s.deployContractHandler req

def Server.run (s : Server) : List Request → Server
  | [] => s
  | req :: reqs => ((s.handle curve req).1).run reqs

def Request.peerUpdate (x : String) : Request → Option Bool
  | .addPeer (some p) => if p = x then some true else none
  | .removePeer p => if p = x then some false else none
  | _ => none

theorem contains_iff_mem (slice : List String) (item : String) : contains slice item = true ↔ item ∈ slice :=
  P2P.contains_iff slice item

theorem handle_fst (s : Server) (req : Request) :
    (s.handle curve req).1 =
      { s with
        blockchain := match req with
          | .prune now io =>
            match s.blockchain.pruneAndArchive 50 "archive_manual" now io with
            | .ok (bc, _) => bc
            | .error _ => s.blockchain
          | _ => s.blockchain
        peerList := match req with
          | .addPeer (some p) => if p ≠ "" ∧ p ∉ s.peerList then s.peerList ++ [p] else s.peerList
          | .removePeer p => if p = "" then s.peerList else s.peerList.filter fun q => q ≠ p
          | _ => s.peerList
        dynamicRegistry := match req with
          | .deployContract (some d) =>
            match decodeString d.code with
            | .ok code => (s.dynamicRegistry.register d.contractName ⟨d.contractName, code⟩).toOption.getD s.dynamicRegistry
            | .error _ => s.dynamicRegistry
          | _ => s.dynamicRegistry } := by
  cases req with
  | addPeer peer =>
    rcases peer with _ | p
    · rfl
    have hc : contains s.peerList p = false ↔ p ∉ s.peerList := by simp [← contains_iff_mem]
    simp only [Server.handle, Server.addPeerHandler, hc]
    by_cases hp : p = "" <;> by_cases hmem : p ∈ s.peerList <;> simp [hp, hmem]
  | removePeer p =>
    simp only [Server.handle, Server.removePeerHandler]
    split_ifs <;> rfl
  | prune now io =>
    simp only [Server.handle, Server.pruneHandler]
    split <;> rename_i h <;> rw [h]
  | deployContract req =>
    rcases req with _ | d
    · rfl
    simp only [Server.handle, Server.deployContractHandler]
    cases decodeString d.code with
    | error e => rfl
    | ok code =>
      show _ = { s with dynamicRegistry :=
        (DynamicRegistry.registerContract s.dynamicRegistry ⟨d.contractName, code⟩).toOption.getD s.dynamicRegistry }
      dsimp only
      cases DynamicRegistry.registerContract s.dynamicRegistry ⟨d.contractName, code⟩ <;> rfl
  | _ => rfl

theorem mem_handle_peerList (s : Server) (req : Request) {x : String} (hx : x ≠ "") :
    decide (x ∈ (s.handle curve req).1.peerList) = (req.peerUpdate x).getD (decide (x ∈ s.peerList)) := by
  rw [handle_fst]
  cases req with
  | addPeer peer =>
    rcases peer with _ | p
    · rfl
    by_cases hpx : p = x
    · subst hpx
      by_cases hmem : p ∈ s.peerList <;> simp [Request.peerUpdate, hx, hmem]
    · by_cases hc : p ≠ "" ∧ p ∉ s.peerList <;> simp [Request.peerUpdate, hc, hpx, Ne.symm hpx]
  | removePeer p =>
    by_cases hpx : p = x
    · subst hpx
      simp [Request.peerUpdate, hx]
    · by_cases hp : p = "" <;> simp [Request.peerUpdate, hp, hpx, Ne.symm hpx, Ne.symm hx]
  | _ => rfl

theorem nodup_handle_peerList (s : Server) (req : Request) (h : s.peerList.Nodup) :
    (s.handle curve req).1.peerList.Nodup := by
  rw [handle_fst]
  cases req with
  | addPeer peer =>
    rcases peer with _ | p
    · exact h
    dsimp only
    split_ifs with hp
    · rw [← List.concat_eq_append]
      exact h.concat hp.2
    · exact h
  | removePeer p =>
    dsimp only
    split_ifs
    · exact h
    · exact h.filter _
  | _ => exact h

theorem run_peerList (s : Server) (reqs : List Request) (hnodup : s.peerList.Nodup) {x : String}
    (hx : x ≠ "") :
    (s.run curve reqs).peerList.Nodup ∧
      (x ∈ (s.run curve reqs).peerList ↔
        ((reqs.filterMap (Request.peerUpdate x)).getLast?.getD (decide (x ∈ s.peerList))) = true) := by
  induction reqs generalizing s with
  | nil => exact ⟨hnodup, by simp [Server.run]⟩
  | cons req reqs ih =>
    obtain ⟨hn, hmem⟩ := ih (s.handle curve req).1 (nodup_handle_peerList curve s req hnodup)
    refine ⟨hn, hmem.trans ?_⟩
    have hstep := mem_handle_peerList curve s req hx
    rw [List.filterMap_cons]
    cases hu : req.peerUpdate x with
    | none => rw [hstep, hu]; rfl
    | some b => rw [hstep, hu, List.getLast?_cons]; rfl

theorem run_peerList_readd :
    let curve₀ : Curve Unit Unit := ⟨id, fun _ _ => .ok (1, 1), fun _ _ _ _ => true, fun _ => [], fun _ => some (),
      fun _ _ _ _ h => (by cases h; decide), fun _ _ h => (by cases h), fun _ => rfl⟩
    let s : Server := ⟨⟨[]⟩, newLedger, ["a"], newDynamicRegistry⟩
    let reqs := [.addPeer (some "b"), .removePeer "b", .removePeer "a", .addPeer (some "b"), .addPeer none]
    (s.peerList.Nodup ∧ "b" ≠ "") ∧ (s.run curve₀ reqs).peerList.Nodup ∧
      ("b" ∈ (s.run curve₀ reqs).peerList ↔
        ((reqs.filterMap (Request.peerUpdate "b")).getLast?.getD (decide ("b" ∈ s.peerList))) = true) :=
  ⟨⟨by decide, by decide⟩, run_peerList _ _ _ (by decide) (by decide)⟩

def Request.deploys (name : String) : Request → Option ContractDefinition
  | .deployContract (some d) =>
    if d.contractName = name then
      match decodeString d.code with
      | .ok code => some ⟨name, code⟩
      | .error _ => none
    else none
  | _ => none

theorem lookup_handle_dynamicRegistry (s : Server) (req : Request) (name : String) :
    (s.handle curve req).1.dynamicRegistry.lookup name = (s.dynamicRegistry.lookup name).or (req.deploys name) := by
  rw [handle_fst]
  cases req with
  | deployContract req =>
    rcases req with _ | d
    · simp [Request.deploys]
    simp only [Request.deploys]
    cases decodeString d.code with
    | error e => simp
    | ok code =>
      dsimp only
      rw [Registry.lookup_register]
      by_cases h : d.contractName = name
      · subst h
        simp
      · simp [h, Ne.symm h]
  | _ => simp [Request.deploys]

theorem run_dynamicRegistry (s : Server) (reqs : List Request) (name : String) :
    (s.run curve reqs).dynamicRegistry.lookup name =
      (s.dynamicRegistry.lookup name).or (reqs.findSome? (Request.deploys name)) := by
  induction reqs generalizing s with
  | nil => simp [Server.run]
  | cons req reqs ih =>
    rw [Server.run, ih, lookup_handle_dynamicRegistry, List.findSome?_cons]
    cases req.deploys name <;> cases s.dynamicRegistry.lookup name <;> rfl

theorem handle_chain (s : Server) (req : Request) :
    (s.handle curve req).1.ledger = s.ledger ∧
      ∃ n, (s.handle curve req).1.blockchain.blocks = s.blockchain.blocks.drop n := by
  rw [handle_fst]
  refine ⟨rfl, ?_⟩
  cases req with
  | prune now io =>
    dsimp only
    split
    · exact ⟨_, pruneAndArchive_blocks ‹_›⟩
    · exact ⟨0, rfl⟩
  | _ => exact ⟨0, rfl⟩

theorem run_chain_suffix (s : Server) (reqs : List Request) :
    (s.run curve reqs).ledger = s.ledger ∧ ∃ n, (s.run curve reqs).blockchain.blocks = s.blockchain.blocks.drop n := by
  induction reqs generalizing s with
  | nil => exact ⟨rfl, 0, rfl⟩
  | cons req reqs ih =>
    obtain ⟨hl, n, hn⟩ := ih (s.handle curve req).1
    obtain ⟨hl', m, hm⟩ := handle_chain curve s req
    exact ⟨hl.trans hl', m + n, by rw [Server.run, hn, hm, List.drop_drop, Nat.add_comm]⟩

end Routes

section Submit

variable {PrivateKey PublicKey : Type} (curve : Curve PrivateKey PublicKey)

theorem submitTransactionHandler_of_sender {tx : Transaction} {pub : PublicKey}
    (hsender : tx.sender = encodeToString (curve.marshal pub)) :
    Server.submitTransactionHandler curve (some tx) =
      if verifyTransactionSignature curve tx pub then ⟨202, .empty⟩ else httpError "Invalid transaction signature" 400 := by
  simp only [Server.submitTransactionHandler, hsender, decodeString_encodeToString _ (curve.marshal_lt pub),
    curve.unmarshal_marshal]
  cases verifyTransactionSignature curve tx pub <;> rfl

theorem submitTransactionHandler_signed {k : PrivateKey} {tx tx' : Transaction}
    (hsender : tx.sender = (newWallet curve k).address) (h : (newWallet curve k).signTransaction curve tx = .ok tx') :
    ∃ r s, curve.sign k (sum256 (utf8Bytes tx.string)) = .ok (r, s) ∧
      ((natBytes r).length = (natBytes s).length →
        Server.submitTransactionHandler curve (some tx') =
          if curve.verify (curve.publicKey k) (sum256 (utf8Bytes tx.string)) r s then ⟨202, .empty⟩
          else httpError "Invalid transaction signature" 400) ∧
      (((natBytes r).length + (natBytes s).length) % 2 = 1 →
        Server.submitTransactionHandler curve (some tx') = httpError "Invalid transaction signature" 400) ∧
      ((natBytes r).length ≠ (natBytes s).length → ((natBytes r).length + (natBytes s).length) % 2 = 0 →
        ∃ r' s', r' ≠ r ∧ Server.submitTransactionHandler curve (some tx') =
          if curve.verify (curve.publicKey k) (sum256 (utf8Bytes tx.string)) r' s' then ⟨202, .empty⟩
          else httpError "Invalid transaction signature" 400) := by
  obtain ⟨r, s, hsign, rfl, heq, hodd, hne⟩ := signTransaction_verify curve h (curve.publicKey k)
  have hsubmit := @submitTransactionHandler_of_sender _ _ curve { tx with signature := encodeToString (natBytes r ++ natBytes s) }
    (curve.publicKey k) hsender
  refine ⟨r, s, hsign, fun hlen => ?_, fun hlen => ?_, fun hlen heven => ?_⟩
  · rw [hsubmit, heq hlen]
  · rw [hsubmit, hodd hlen]
    rfl
  · obtain ⟨r', s', hr', hv⟩ := hne hlen heven
    exact ⟨r', s', hr', by rw [hsubmit, hv]⟩

end Submit

theorem submitTransactionHandler_signed_equalLengths :
    let curve₀ : Curve Nat Nat := ⟨id, fun k _ => .ok (k + 1, k + 1), fun p _ r s => r = p + 1 ∧ s = p + 1, natBytes,
      fun b => some (setBytes b), fun _ _ _ _ h => (by cases h; omega), fun _ _ h => natBytes_lt h,
      fun p => congrArg some (setBytes_natBytes p)⟩
    let tx : Transaction := ⟨(newWallet curve₀ 5).address, "bob", 1, 0, "", "", "", 0⟩
    let tx' : Transaction := { tx with signature := encodeToString (natBytes 6 ++ natBytes 6) }
    (tx.sender = (newWallet curve₀ 5).address ∧ (newWallet curve₀ 5).signTransaction curve₀ tx = .ok tx') ∧
    ∃ r s, curve₀.sign 5 (sum256 (utf8Bytes tx.string)) = .ok (r, s) ∧
      ((natBytes r).length = (natBytes s).length →
        Server.submitTransactionHandler curve₀ (some tx') =
          if curve₀.verify (curve₀.publicKey 5) (sum256 (utf8Bytes tx.string)) r s then ⟨202, .empty⟩
          else httpError "Invalid transaction signature" 400) ∧
      (((natBytes r).length + (natBytes s).length) % 2 = 1 →
        Server.submitTransactionHandler curve₀ (some tx') = httpError "Invalid transaction signature" 400) ∧
      ((natBytes r).length ≠ (natBytes s).length → ((natBytes r).length + (natBytes s).length) % 2 = 0 →
        ∃ r' s', r' ≠ r ∧ Server.submitTransactionHandler curve₀ (some tx') =
          if curve₀.verify (curve₀.publicKey 5) (sum256 (utf8Bytes tx.string)) r' s' then ⟨202, .empty⟩
          else httpError "Invalid transaction signature" 400) :=
  ⟨⟨rfl, rfl⟩, submitTransactionHandler_signed _ rfl rfl⟩

end LiteBlockchain
