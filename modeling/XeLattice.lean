import XeLattice.Prog.Basic
import XeLattice.Go.Slices
import XeLattice.Go.Decimal
import XeLattice.Core.Types
import XeLattice.Core.Crypto
import XeLattice.Core.Pricing
import XeLattice.Core.Amount
import XeLattice.Core.State
import XeLattice.Store.Commit
import XeLattice.Core.Memory
import XeLattice.Core.Overlay
import XeLattice.Core.Spendable
import XeLattice.Core.Rollback
import XeLattice.Core.Credential
import XeLattice.Core.Genesis
import XeLattice.Core.Handlers
import XeLattice.Core.LeaseHandlers
import XeLattice.Core.Ledger
import XeLattice.Core.Quorum
import XeLattice.Core.Voting
import XeLattice.Run.View
import XeLattice.Run.Checks
import XeLattice.Run.Book
import XeLattice.Run.Writes
import XeLattice.Inv.Chains
import XeLattice.Inv.Slots
import XeLattice.Inv.Moves
import XeLattice.Inv.Cascade
import XeLattice.Inv.Plans
import XeLattice.Run.Dispatch
import XeLattice.Inv.Hashes
import XeLattice.Inv.Keys
import XeLattice.Inv.Outcome
import XeLattice.Inv.Swap
import XeLattice.Inv.Adding
import XeLattice.Inv.Promotion
import XeLattice.Inv.Steps
import XeLattice.Inv.Ranks
import XeLattice.Inv.PlanOrder
import XeLattice.Sample
import XeLattice.Inv.Held
import XeLattice.Shares
import XeLattice.Core.Restart
import XeLattice.Inv.Weights
import XeLattice.Inv.Restart
import XeLattice.Inv.Counter
import XeLattice.Paging
import XeLattice.Net.Sync
import XeLattice.Net.BanStore
import XeLattice.Chat.Store
import XeLattice.Chat.Auth
import XeLattice.StateChain.Encoding
import XeLattice.StateChain.Activations
import XeLattice.StateChain.Chain
import XeLattice.StateChain.Steps
import XeLattice.StateChain.Forward
import XeLattice.StateChain.Signers
import XeLattice.StateChain.Canonical
import XeLattice.StateChain.Restart
import XeLattice.StateChain.Sync
import XeLattice.StateChain.Sample
import XeLattice.Inv.Notes
import XeLattice.Prog.Pool
import XeLattice.Inv.Votes
import XeLattice.Codec.Votes
import XeLattice.Prog.Triple
import XeLattice.Inv.Elections
import XeLattice.Inv.Eligibility
import XeLattice.Inv.Stake
import XeLattice.Lease.Cost
import XeLattice.Lease.Emission
import XeLattice.Ranking
import XeLattice.Newest
import XeLattice.Inv.Recent
import XeLattice.Retention
import XeLattice.Node.CertSet
import XeLattice.StateChain.Epochs
import XeLattice.Lease.Locking
import XeLattice.Lease.Attested
import XeLattice.Lease.Windows
import XeLattice.Lease.Settling
import XeLattice.Lease.Archive
import XeLattice.Lease.Building
import XeLattice.Inv.Convergence
import XeLattice.Codec.Blocks
import XeLattice.Bits
import XeLattice.Core.RecoveryPhrase
import XeLattice.Js
import XeLattice.Web.Wallet
import XeLattice.MerkleTree
import XeLattice.Fairness
import XeLattice.Perf.Benchmark
import XeLattice.Perf.Certificate
import XeLattice.Node.Readiness
import XeLattice.Inv.Calls
