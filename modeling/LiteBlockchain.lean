import LiteBlockchain.Digest
import LiteBlockchain.Float64
import LiteBlockchain.Block
import LiteBlockchain.HashRecord
import LiteBlockchain.Mining
import LiteBlockchain.Chain
import LiteBlockchain.Prune
import LiteBlockchain.Handlers
import LiteBlockchain.NodeRun
import LiteBlockchain.ForkChoice
import LiteBlockchain.Consensus
import LiteBlockchain.Network
import LiteBlockchain.MinerRace
import LiteBlockchain.PruneRace
import LiteBlockchain.Ledger
import LiteBlockchain.Difficulty
import LiteBlockchain.PeerList
import LiteBlockchain.TotalDifficulty
import LiteBlockchain.Signature
import LiteBlockchain.Storage
import LiteBlockchain.Contract
import LiteBlockchain.Sharding
import LiteBlockchain.Api
