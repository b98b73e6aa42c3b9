import LiteBlockchain.NodeRun

/-!
Nodes running `p2p.go`, talking over TCP connections one line per message. A connection
remembers the node that dialed it, the lines in flight each way, and whether the dialing
goroutine still reads its one response line (`connectToPeers` does; the broadcasts close the
connection as soon as they have written). A line is a message: `handleConnection` reads back
what `sendMessage` wrote.
-/

namespace LiteBlockchain.P2P

structure Connection where
  dialer : String
  listener : String
  toListener : List Message
  toDialer : List Message
  reading : Bool

structure Network where
  nodes : String → Option Node
  connections : List Connection

def Network.setNode (net : Network) (address : String) (n : Node) : Network :=
  { net with nodes := Function.update net.nodes address (some n) }

/-- The goroutines `connectToPeers` starts, one per known peer: each writes `GET_CHAIN` and
`GET_PEERS`, then reads one response line. -/
def connectToPeers (self : String) (n : Node) : List Connection :=
  n.peers.map fun addr => ⟨self, addr, [⟨"GET_CHAIN", none⟩, ⟨"GET_PEERS", none⟩], [], true⟩

/-- The goroutines `broadcastGetPeers` starts: each writes `GET_PEERS` and closes unread. -/
def broadcastGetPeers (self : String) (n : Node) : List Connection :=
  n.peers.map fun addr => ⟨self, addr, [⟨"GET_PEERS", none⟩], [], false⟩

def replies : List Effect → List Message
  | [] => []
  | .reply msg :: effects => msg :: replies effects
  | .send _ _ :: effects => replies effects

def dials (self : String) : List Effect → List Connection
  | [] => []
  | .reply _ :: effects => dials self effects
  | .send peer msg :: effects => ⟨self, peer, [msg], [], false⟩ :: dials self effects

variable (codec : BlockCodec)

def handleResponse (n : Node) (respMsg : Message) : Except Panic Node :=
  if respMsg.command = "GET_CHAIN_RESPONSE" then handleChainUpdate codec n respMsg.data
  else if respMsg.command = "PEER_LIST" then .ok (handlePeerList n respMsg.data)
  else .ok n

/-- A step of a failure-free run: no dial fails and no handler panics. The sweep and the
broadcast may start at any time and any number of times, so every run of the code is a run
here; a node's own chain operations are steps too. -/
inductive NetStep : Network → Network → Prop
  | connectToPeers {net : Network} {self : String} {n : Node} (hn : net.nodes self = some n) :
      NetStep net { net with connections := net.connections ++ connectToPeers self n }
  | broadcastGetPeers {net : Network} {self : String} {n : Node} (hn : net.nodes self = some n) :
      NetStep net { net with connections := net.connections ++ broadcastGetPeers self n }
  | handleConnection {net : Network} {i : Nat} {c : Connection} {msg : Message}
      {rest : List Message} {n n' : Node} {effects : List Effect}
      (hc : net.connections[i]? = some c) (hm : c.toListener = msg :: rest)
      (hn : net.nodes c.listener = some n) (hh : handleMessage codec n msg = .ok (n', effects)) :
      NetStep net { net.setNode c.listener n' with
        connections := net.connections.set i
            { c with toListener := rest, toDialer := c.toDialer ++ replies effects } ++
          dials c.listener effects }
  | readResponse {net : Network} {i : Nat} {c : Connection} {msg : Message} {rest : List Message}
      {n n' : Node} (hc : net.connections[i]? = some c) (hr : c.reading = true)
      (hm : c.toDialer = msg :: rest) (hn : net.nodes c.dialer = some n)
      (hh : handleResponse codec n msg = .ok n') :
      NetStep net { net.setNode c.dialer n' with
        connections := net.connections.set i { c with toDialer := rest, reading := false } }
  | chainOp {net : Network} {self : String} {n n' : Node} {op : ChainOp}
      (hn : net.nodes self = some n) (hh : applyOp codec n op = some n') :
      NetStep net (net.setNode self n')

theorem handleIncomingChain_peers {n n' : Node} {incomingChain : List (Option Block)}
    (h : handleIncomingChain n incomingChain = .ok n') : n'.peers = n.peers := by
  unfold handleIncomingChain at h
  split at h <;> cases h <;> rfl

theorem handleChainUpdate_peers {n n' : Node} {data : Option Json}
    (h : handleChainUpdate codec n data = .ok n') : n'.peers = n.peers := by
  unfold handleChainUpdate at h
  split at h
  · cases h; rfl
  · exact handleIncomingChain_peers h

theorem appendIncomingBlock_peers {n n' : Node} {newBlock : Option Block} {appended : Bool}
    (h : appendIncomingBlock n newBlock = .ok (n', appended)) :
    n'.peers = n.peers ∧ (appended = true → ∃ bc, n' = { n with blockchain := bc }) := by
  unfold appendIncomingBlock at h
  split at h
  · cases h
  · cases h
  · split at h <;> cases h
    · exact ⟨rfl, fun _ => ⟨_, rfl⟩⟩
    · exact ⟨rfl, nofun⟩

theorem handleNewBlock_peers {n n' : Node} {data : Option Json} {effects : List Effect}
    (h : handleNewBlock codec n data = .ok (n', effects)) :
    n'.peers = n.peers ∧ effects = [] ∨ ∃ bc, n' = { n with blockchain := bc } ∧
      effects = broadcastChainUpdate codec n' := by
  rcases handleNewBlock_eq_ok codec h with ⟨rfl, rfl⟩ | ⟨newBlock, appended, ha, rfl⟩
  · exact .inl ⟨rfl, rfl⟩
  · obtain ⟨hp, hb⟩ := appendIncomingBlock_peers ha
    cases appended
    · exact .inl ⟨hp, rfl⟩
    · obtain ⟨bc, rfl⟩ := hb rfl
      exact .inr ⟨bc, rfl, rfl⟩

theorem applyOp_peers {n n' : Node} {op : ChainOp} (h : applyOp codec n op = some n') :
    n'.peers = n.peers := by
  cases op with
  | mine =>
    obtain ⟨_, -, rfl⟩ := Option.map_eq_some'.mp h
    rfl
  | chainUpdate data => exact handleChainUpdate_peers codec (toOption_eq_some h)
  | newBlock data =>
    obtain ⟨⟨n'', effects⟩, hr, rfl⟩ := Option.map_eq_some'.mp h
    rcases handleNewBlock_peers codec (toOption_eq_some hr) with ⟨hp, -⟩ | ⟨bc, rfl, -⟩
    · exact hp
    · rfl
  | prune =>
    simp only [applyOp] at h
    split at h <;> cases h <;> rfl
  | subBlock | subBlockEx =>
    obtain ⟨_, -, rfl⟩ := Option.map_eq_some'.mp h
    rfl

structure Connection.Quiet (c : Connection) : Prop where
  requests : ∀ m ∈ c.toListener, m.command ≠ "PEER_LIST"
  awaits : c.reading = true →
    (c.toListener = [⟨"GET_CHAIN", none⟩, ⟨"GET_PEERS", none⟩] ∧ c.toDialer = []) ∨
      ∃ reply ∈ c.toDialer.head?, reply.command = "GET_CHAIN_RESPONSE"

def Network.Quiet (net : Network) : Prop := ∀ c ∈ net.connections, c.Quiet

theorem dials_quiet (self : String) {effects : List Effect}
    (h : ∀ peer msg, .send peer msg ∈ effects → msg.command = "CHAIN_UPDATE") :
    ∀ c ∈ dials self effects, c.Quiet := by
  induction effects with
  | nil => simp [dials]
  | cons e effects ih =>
    have ih := ih fun peer msg hm => h peer msg (List.mem_cons_of_mem _ hm)
    cases e with
    | reply => exact ih
    | send peer msg =>
      have hc := h peer msg (List.mem_cons_self _ _)
      simp only [dials, List.forall_mem_cons]
      exact ⟨⟨by simp [hc], by simp⟩, ih⟩

theorem handleMessage_quiet {n n' : Node} {msg : Message} {effects : List Effect}
    (h : handleMessage codec n msg = .ok (n', effects)) (hm : msg.command ≠ "PEER_LIST") :
    n'.peers = n.peers ∧ (∀ peer m, .send peer m ∈ effects → m.command = "CHAIN_UPDATE") ∧
      (msg = ⟨"GET_CHAIN", none⟩ → ∃ reply, replies effects = [reply] ∧
        reply.command = "GET_CHAIN_RESPONSE") := by
  have hsends : ∀ n : Node, ∀ peer m, Effect.send peer m ∈ broadcastChainUpdate codec n →
      m.command = "CHAIN_UPDATE" := by
    intro n peer m hm
    obtain ⟨_, -, he⟩ := List.mem_map.mp hm
    cases he
    rfl
  unfold handleMessage at h
  split at h
  case h_1 => cases h; exact ⟨rfl, by simp [sendChain], fun _ => ⟨_, rfl, rfl⟩⟩
  case h_2 | h_3 =>
    cases hc : handleChainUpdate codec n msg.data <;> rw [hc] at h <;> cases h
    exact ⟨handleChainUpdate_peers codec hc, by simp, fun e => by cases e; contradiction⟩
  case h_4 =>
    rcases handleNewBlock_peers codec h with ⟨hp, rfl⟩ | ⟨bc, rfl, rfl⟩
    · exact ⟨hp, by simp, fun e => by cases e; contradiction⟩
    · exact ⟨rfl, hsends _, fun e => by cases e; contradiction⟩
  case h_8 => contradiction
  all_goals
    cases h
    exact ⟨rfl, by simp [sendHeartbeatAck, handleGetPeers], fun e => by cases e; contradiction⟩

theorem handleResponse_peers {n n' : Node} {msg : Message} (hm : msg.command = "GET_CHAIN_RESPONSE")
    (h : handleResponse codec n msg = .ok n') : n'.peers = n.peers := by
  rw [handleResponse, if_pos hm] at h
  exact handleChainUpdate_peers codec h

theorem setNode_peers {net : Network} {a : String} {n n' : Node} (hn : net.nodes a = some n)
    (hp : n'.peers = n.peers) (b : String) :
    ((net.setNode a n').nodes b).map Node.peers = (net.nodes b).map Node.peers := by
  by_cases hb : b = a
  · subst hb
    simp [Network.setNode, hn, hp]
  · simp [Network.setNode, Function.update_noteq hb]

theorem netStep_quiet {net net' : Network} (h : NetStep codec net net') (hq : net.Quiet) :
    net'.Quiet ∧ ∀ a, (net'.nodes a).map Node.peers = (net.nodes a).map Node.peers := by
  cases h with
  | connectToPeers hn =>
    refine ⟨List.forall_mem_append.mpr ⟨hq, ?_⟩, fun _ => rfl⟩
    simp only [connectToPeers, List.forall_mem_map]
    exact fun _ _ => ⟨by simp, fun _ => .inl ⟨rfl, rfl⟩⟩
  | broadcastGetPeers hn =>
    refine ⟨List.forall_mem_append.mpr ⟨hq, ?_⟩, fun _ => rfl⟩
    simp only [broadcastGetPeers, List.forall_mem_map]
    exact fun _ _ => ⟨by simp, nofun⟩
  | handleConnection hc hm hn hh =>
    have hcq := hq _ (List.getElem?_mem hc)
    obtain ⟨hp, hs, hg⟩ := handleMessage_quiet codec hh (hcq.requests _ (hm ▸ List.mem_cons_self _ _))
    refine ⟨List.forall_mem_append.mpr ⟨fun c' hc' => ?_, dials_quiet _ hs⟩, setNode_peers hn hp⟩
    rcases List.mem_or_eq_of_mem_set hc' with hc' | rfl
    · exact hq c' hc'
    refine ⟨fun m hm' => hcq.requests m (hm ▸ List.mem_cons_of_mem _ hm'), fun hr => .inr ?_⟩
    rcases hcq.awaits hr with ⟨hl, hd⟩ | ⟨reply, hreply, hcmd⟩
    · obtain ⟨rfl, -⟩ := List.cons.inj (hm.symm.trans hl)
      obtain ⟨reply, hr1, hr2⟩ := hg rfl
      exact ⟨reply, by simp [hd, hr1], hr2⟩
    · exact ⟨reply, by simp [Option.mem_def.mp hreply], hcmd⟩
  | readResponse hc hr hm hn hh =>
    have hcq := hq _ (List.getElem?_mem hc)
    have hgcr := hcq.awaits hr
    rw [hm] at hgcr
    obtain ⟨reply, hreply, hcmd⟩ := hgcr.resolve_left fun h => nomatch h.2
    cases Option.mem_def.mp hreply
    refine ⟨fun c' hc' => ?_, setNode_peers hn (handleResponse_peers codec hcmd hh)⟩
    rcases List.mem_or_eq_of_mem_set hc' with hc' | rfl
    · exact hq c' hc'
    · exact ⟨hcq.requests, nofun⟩
  | chainOp hn hh => exact ⟨hq, setNode_peers hn (applyOp_peers codec hh)⟩

theorem netRun_quiet {net net' : Network} (h : Relation.ReflTransGen (NetStep codec) net net')
    (hq : net.Quiet) :
    net'.Quiet ∧ ∀ a, (net'.nodes a).map Node.peers = (net.nodes a).map Node.peers := by
  induction h with
  | refl => exact ⟨hq, fun _ => rfl⟩
  | tail _ hstep ih =>
    obtain ⟨hq', hp⟩ := netStep_quiet codec hstep ih.1
    exact ⟨hq', fun a => (hp a).trans (ih.2 a)⟩

theorem netRun_peers {net net' : Network} (h0 : net.connections = [])
    (h : Relation.ReflTransGen (NetStep codec) net net') (a : String) :
    (net'.nodes a).map Node.peers = (net.nodes a).map Node.peers :=
  (netRun_quiet codec h fun c hc => by simp [h0] at hc).2 a

theorem netRun_peers_sweep :
    let codec₀ : BlockCodec := ⟨fun _ => .null, fun _ => none⟩
    let nodeA : Node := ⟨"localhost:8000", ["localhost:8001"], newBlockchain⟩
    let nodeB : Node := ⟨"localhost:8001", ["localhost:8002"], newBlockchain⟩
    let net : Network := ⟨fun a => if a = "localhost:8000" then some nodeA
      else if a = "localhost:8001" then some nodeB else none, []⟩
    ∃ net', (net.connections = [] ∧ Relation.ReflTransGen (NetStep codec₀) net net') ∧
      net'.connections = [⟨"localhost:8000", "localhost:8001", [],
        [⟨"PEER_LIST", some (marshalPeers ["localhost:8002"])⟩], false⟩] ∧
      ∀ a, (net'.nodes a).map Node.peers = (net.nodes a).map Node.peers := by
  intro codec₀ nodeA nodeB net
  have run := ((((Relation.ReflTransGen.refl (r := NetStep codec₀) (a := net)).tail
    (@NetStep.connectToPeers codec₀ net "localhost:8000" nodeA rfl)).tail
    (NetStep.handleConnection (i := 0) rfl rfl rfl rfl)).tail
    (NetStep.handleConnection (i := 0) rfl rfl rfl rfl)).tail
    (NetStep.readResponse (i := 0) rfl rfl rfl rfl rfl)
  exact ⟨_, ⟨rfl, run⟩, rfl, netRun_peers codec₀ rfl run⟩

def Network.ChainsLinked (net : Network) : Prop :=
  ∀ a n, net.nodes a = some n → HashLinked n.blockchain.blocks

theorem handlePeerList_blockchain (n : Node) (data : Option Json) :
    (handlePeerList n data).blockchain = n.blockchain := by
  unfold handlePeerList
  split <;> rfl

theorem handleMessage_hashLinked {n n' : Node} {msg : Message} {effects : List Effect}
    (h : handleMessage codec n msg = .ok (n', effects)) (hl : HashLinked n.blockchain.blocks) :
    HashLinked n'.blockchain.blocks := by
  unfold handleMessage at h
  split at h
  case h_2 | h_3 =>
    cases hc : handleChainUpdate codec n msg.data <;> rw [hc] at h <;> cases h
    exact handleChainUpdate_hashLinked codec hc hl
  case h_4 => exact handleNewBlock_hashLinked codec h hl
  case h_8 => cases h; rwa [handlePeerList_blockchain]
  all_goals cases h; exact hl

theorem handleResponse_hashLinked {n n' : Node} {msg : Message}
    (h : handleResponse codec n msg = .ok n') (hl : HashLinked n.blockchain.blocks) :
    HashLinked n'.blockchain.blocks := by
  unfold handleResponse at h
  split at h
  · exact handleChainUpdate_hashLinked codec h hl
  split at h <;> cases h
  · rwa [handlePeerList_blockchain]
  · exact hl

theorem setNode_chainsLinked {net : Network} {a : String} {n' : Node} (h : net.ChainsLinked)
    (hl : HashLinked n'.blockchain.blocks) : (net.setNode a n').ChainsLinked := by
  intro b m hm
  by_cases hb : b = a
  · subst hb
    simp only [Network.setNode, Function.update_same, Option.some.injEq] at hm
    exact hm ▸ hl
  · exact h b m (by simpa [Network.setNode, Function.update_noteq hb] using hm)

theorem netStep_chainsLinked {net net' : Network} (h : NetStep codec net net')
    (hl : net.ChainsLinked) : net'.ChainsLinked := by
  cases h with
  | connectToPeers | broadcastGetPeers => exact hl
  | handleConnection _ _ hn hh =>
    exact setNode_chainsLinked hl (handleMessage_hashLinked codec hh (hl _ _ hn))
  | readResponse _ _ _ hn hh =>
    exact setNode_chainsLinked hl (handleResponse_hashLinked codec hh (hl _ _ hn))
  | chainOp hn hh => exact setNode_chainsLinked hl (applyOp_hashLinked codec hh (hl _ _ hn))

theorem netRun_chainsLinked {net net' : Network} (h : Relation.ReflTransGen (NetStep codec) net net')
    (hl : net.ChainsLinked) : net'.ChainsLinked := by
  induction h with
  | refl => exact hl
  | tail _ hstep ih => exact netStep_chainsLinked codec hstep ih

theorem netRun_chainsLinked_mineSweep :
    let codec₀ : BlockCodec := ⟨fun _ => .null, fun _ => none⟩
    let nodeA : Node := ⟨"localhost:8000", ["localhost:8001"], newBlockchain⟩
    let nodeB : Node := ⟨"localhost:8001", [], newBlockchain⟩
    let net : Network := ⟨fun a => if a = "localhost:8000" then some nodeA
      else if a = "localhost:8001" then some nodeB else none, []⟩
    ∃ net', (Relation.ReflTransGen (NetStep codec₀) net net' ∧ net.ChainsLinked) ∧ net'.ChainsLinked ∧
      (net'.nodes "localhost:8000").map (·.blockchain.blocks.length) = some 1 := by
  intro codec₀ nodeA nodeB net
  let mine : ChainOp := .mine 1 1 1 "one-to-one" ["ReceiverA"] "T" "A" "V" ⟨[]⟩ 0 "Miner1" 0 2 .ok
  let shell : Block :=
    { index := 0, timestamp := 1, prevHash := "", hash := "", nonce := 0,
      relationshipType := "one-to-one", receivers := ["ReceiverA"], textData := "T", audioData := "A",
      videoData := "V", transactions := [newTransaction "COINBASE" "Miner1" 0 0 1], subBlocks := [],
      difficulty := 0, category := "main" }
  let nodeA' : Node := { nodeA with blockchain := ⟨[{ shell with hash := calculateHash shell }]⟩ }
  have hmine : applyOp codec₀ nodeA mine = some nodeA' := rfl
  have run := (((((Relation.ReflTransGen.refl (r := NetStep codec₀) (a := net)).tail
    (@NetStep.chainOp codec₀ net "localhost:8000" nodeA nodeA' mine rfl hmine)).tail
    (@NetStep.connectToPeers codec₀ _ "localhost:8000" nodeA' rfl)).tail
    (NetStep.handleConnection (i := 0) rfl rfl rfl rfl)).tail
    (NetStep.handleConnection (i := 0) rfl rfl rfl rfl)).tail
    (NetStep.readResponse (i := 0) rfl rfl rfl rfl rfl)
  have h0 : net.ChainsLinked := by
    intro a n hn
    simp only [net] at hn
    split_ifs at hn <;> cases hn <;> exact ⟨by simp [newBlockchain], List.chain'_nil⟩
  exact ⟨_, ⟨run, h0⟩, netRun_chainsLinked codec₀ run h0, rfl⟩

end LiteBlockchain.P2P
