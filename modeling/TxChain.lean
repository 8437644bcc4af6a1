import TxChain.Chain.Accounting
import TxChain.Chain.Agreement
import TxChain.Chain.Batch
import TxChain.Chain.Chain
import TxChain.Chain.Commitment
import TxChain.Chain.Commutation
import TxChain.Chain.Gate
import TxChain.Chain.Issuance
import TxChain.Chain.Nonces
import TxChain.Chain.Ownership
import TxChain.Chain.Store
import TxChain.Chain.StoreFaults
import TxChain.Chain.StoreRuns
import TxChain.Chain.Structure
import TxChain.Chain.Supply
import TxChain.Chain.Undo
import TxChain.Chain.Validate
import TxChain.Chain.Version
import TxChain.Crypto.Bytes
import TxChain.Crypto.HashUtil
import TxChain.Crypto.HexCodec
import TxChain.Crypto.Padding
import TxChain.Crypto.Sha256
import TxChain.Json.ChainLine
import TxChain.Json.Documents
import TxChain.Json.Extent
import TxChain.Json.Glued
import TxChain.Json.Loaded
import TxChain.Json.Parser
import TxChain.Json.RoundTrip
import TxChain.Json.Rules
import TxChain.Library.BatchQueue
import TxChain.Library.BigEndian
import TxChain.Library.Binary64
import TxChain.Library.Clock
import TxChain.Library.Decimal
import TxChain.Library.FixedWidth
import TxChain.Library.HashChain
import TxChain.Library.IteratedHash
import TxChain.Library.Ledger
import TxChain.Library.Lines
import TxChain.Library.Numeral
import TxChain.Library.Options
import TxChain.Library.OrderedMap
import TxChain.Library.Parsing
import TxChain.Library.Polling
import TxChain.Library.Rounding
import TxChain.Library.Run
import TxChain.Library.Scan
import TxChain.Library.Search
import TxChain.Library.Stream
import TxChain.Library.Stutter
import TxChain.Library.Transfers
import TxChain.Library.Undo
import TxChain.Library.Wrapping
import TxChain.Mempool.Admission
import TxChain.Mempool.Mempool
import TxChain.Mempool.Queue
import TxChain.Net.Frame
import TxChain.Node.Cadence
import TxChain.Node.Config
import TxChain.Node.Durability
import TxChain.Node.Import
import TxChain.Node.Lifetime
import TxChain.Node.Miner
import TxChain.Node.Node
import TxChain.Node.Process
import TxChain.Node.Restart
import TxChain.Node.Rounds
import TxChain.Node.Swap
import TxChain.Node.Timestamps
import TxChain.Node.Waiting
import TxChain.Pow.Candidate
import TxChain.Pow.ForkChoice
import TxChain.Pow.Mine
import TxChain.Pow.Selection
import TxChain.Pow.Target
import TxChain.Rpc.Answers
import TxChain.Rpc.Http
import TxChain.Rpc.Rpc
import TxChain.Rpc.Segments
import TxChain.Rpc.Submission
import TxChain.Serialize.Bijection
import TxChain.Serialize.Canonical
import TxChain.Serialize.Json
import TxChain.Serialize.Literals
import TxChain.Serialize.Lossless
import TxChain.V1.Backend
import TxChain.V1.Cipher
import TxChain.V1.Coins
import TxChain.V1.Ledger
import TxChain.V1.Main
import TxChain.V1.Serials
import TxChain.V1.Solvency
import TxChain.V1.Statement
import TxChain.V1.Steps
import TxChain.V1.Wallet
import TxChain.Wallet.KeyFile
import TxChain.Wallet.Send
import TxChain.Wallet.SendNode
import TxChain.Wallet.Startup
import TxChain.Wallet.Wallet
