import XeLattice.Go.Bytes
import XeLattice.Table

/-!
# Blocks, leases, votes

The records of `core/types.go` and `core/store.go`: blocks and their thirteen types, keysets,
attestations, pending sends, leases with their renewals, votes and conflicts, the write requests
`BlockCommit` and `BlockUndo` that the ledger hands to its store, and the errors.
-/

set_option autoImplicit false

namespace Xe

/-- `BlockType`: a string in the source, so that a block may carry an unknown one. -/
inductive BlockType
  | send
  | receive
  | mint
  | genesis
  | burn
  | lease
  | leaseAccept
  | leaseSettle
  | leaseCancel
  | leaseForceSettle
  | leaseRenew
  | multisigOpen
  | multisigUpdate
  | other (name : Str)
  deriving DecidableEq, Inhabited

/-- The text of a block type. -/
def BlockType.name : BlockType → Str
  | send => str "send"
  | receive => str "receive"
  | mint => str "mint"
  | genesis => str "genesis"
  | burn => str "burn"
  | lease => str "lease"
  | leaseAccept => str "lease_accept"
  | leaseSettle => str "lease_settle"
  | leaseCancel => str "lease_cancel"
  | leaseForceSettle => str "lease_force_settle"
  | leaseRenew => str "lease_renew"
  | multisigOpen => str "multisig_open"
  | multisigUpdate => str "multisig_update"
  | other name => name

/-- The asset `"XE"`. -/
def assetXE : Str := [88, 69]

/-- The asset `"XUSD"`. -/
def assetXUSD : Str := [88, 85, 83, 68]

/-- The string `"0"`: the previous of an opening block and the frontier of an empty chain. -/
def zeroPrev : Str := [48]

/-- `IsValidAsset`. -/
def isValidAsset (asset : Str) : Bool :=
  asset == assetXE || asset == assetXUSD

/-- An empty asset is XE. -/
def assetOrXE (asset : Str) : Str :=
  if asset = [] then assetXE else asset

/-- `Keyset`. -/
structure Keyset where
  keys : List Str
  threshold : Int
  deriving DecidableEq, Inhabited

/-- `BlockSignature`. -/
structure BlockSignature where
  publicKey : Str
  sig : Str
  deriving DecidableEq, Inhabited

/-- `TimekeeperAttestation`. -/
structure TimekeeperAttestation where
  publicKey : Str
  timestamp : Int64
  signature : Str
  deriving DecidableEq, Inhabited

/-- `TimekeeperConfig`. -/
structure TimekeeperConfig where
  keys : List Str
  threshold : Int
  deriving DecidableEq, Inhabited

/-- A block of an account chain. -/
structure Block where
  type : BlockType
  account : Str
  previous : Str
  balance : UInt64 := 0
  timestamp : Int64 := 0
  asset : Str
  representative : Str := []
  destination : Str := []
  amount : UInt64 := 0
  source : Str := []
  vcpus : UInt64 := 0
  memoryMB : UInt64 := 0
  diskGB : UInt64 := 0
  duration : UInt64 := 0
  accessPubKey : Str := []
  leaseMinDurationSecs : UInt64 := 0
  leaseSettleGraceNs : Int64 := 0
  leaseForceSettleGapNs : Int64 := 0
  leaseEscrowExpiryNs : Int64 := 0
  leaseArchiveGapNs : Int64 := 0
  maxAttestationSkewNs : Int64 := 0
  memo : Str := []
  msKeyset : Option Keyset := none
  signatures : List BlockSignature := []
  pubKey : Str := []
  signature : Str := []
  hash : Str := []
  powNonce : UInt64 := 0
  attestations : List TimekeeperAttestation := []
  certificateHash : Str := []
  lockedR : UInt64 := 0
  lockedPayoutCap : UInt64 := 0
  lockedTWAP : UInt64 := 0
  deriving DecidableEq, Inhabited

/-- `AccountChain`: the blocks of an account, oldest first. -/
abbrev AccountChain := List Block

/-- `AccountChain.Frontier`. -/
def frontier (chain : AccountChain) : Str :=
  match chain.getLast? with
  | none => zeroPrev
  | some b => b.hash

/-- `PendingSend`. -/
structure PendingSend where
  sendHash : Str
  source : Str
  destination : Str
  amount : UInt64
  asset : Str
  deriving DecidableEq, Inhabited

/-- `Vote`. -/
structure Vote where
  repPubKey : Str
  blockHash : Str
  conflictAccount : Str
  conflictPrev : Str
  timestamp : Int64
  final : Bool
  signature : Str
  weight : UInt64
  deriving DecidableEq, Inhabited

/-! ## Leases -/

/-- `LeaseState`. -/
inductive LeaseState
  | created
  | accepted
  | settled
  | cancelled
  | unfulfilled
  | expired
  deriving DecidableEq, Inhabited

/-- The text of a state. -/
def LeaseState.name : LeaseState → Str
  | created => str "created"
  | accepted => str "accepted"
  | settled => str "settled"
  | cancelled => str "cancelled"
  | unfulfilled => str "unfulfilled"
  | expired => str "expired"

/-- One renewal of a lease. -/
structure LeaseSegment where
  renewHash : Str
  duration : UInt64
  cost : UInt64
  startTime : Int64
  certificateHash : Str
  lockedR : UInt64
  lockedPayoutCap : UInt64
  lockedTWAP : UInt64
  deriving DecidableEq, Inhabited

/-- `Lease`. -/
structure Lease where
  leaseHash : Str
  state : LeaseState
  consumer : Str
  provider : Str
  vcpus : UInt64
  memoryMB : UInt64
  diskGB : UInt64
  duration : UInt64
  accessPubKey : Str
  cost : UInt64
  stake : UInt64 := 0
  startTime : Int64 := 0
  certificateHash : Str
  settled : Bool := false
  lockedR : UInt64 := 0
  lockedPayoutCap : UInt64 := 0
  lockedTWAP : UInt64 := 0
  renewals : List LeaseSegment := []
  deriving DecidableEq, Inhabited

/-- `EffectiveDurationSecs`, in wrapping 64-bit arithmetic. -/
def Lease.effectiveDurationSecs (l : Lease) : UInt64 :=
  l.renewals.foldl (fun total seg => total + seg.duration) l.duration

/-- `EffectiveExpiry`, in wrapping 64-bit arithmetic. -/
def Lease.effectiveExpiry (l : Lease) : Int64 :=
  l.startTime + l.effectiveDurationSecs.toInt64 * 1000000000

/-- What the ledger reads of a performance certificate. -/
structure CertificateInfo where
  provider : Str
  expiresAt : Int64
  priceMultiplierMilli : UInt64
  deriving DecidableEq, Inhabited

/-- `EpochParams`. -/
structure EpochParams where
  r : UInt64
  payoutCap : UInt64
  twap : UInt64
  deriving DecidableEq, Inhabited

/-- `RepresentativeConfig` in allowlist mode with its addresses, `none` in open mode. -/
structure RepresentativeConfig where
  allowlistMode : Bool
  addresses : List Str
  deriving DecidableEq, Inhabited

/-! ## Conflicts -/

/-- The siblings recorded at one position, with the election's weights. -/
structure Conflict where
  accountAddress : Str
  previousHash : Str
  blockHashes : List Str
  detectedAt : Int64
  weightSnapshot : Option (Table Str UInt64)
  totalWeight : UInt64

/-- `BlockStatus`. -/
inductive BlockStatus
  | pending
  | finalized
  | rejected
  deriving DecidableEq, Inhabited

/-! ## Write requests -/

/-- `AssetDelta`. -/
structure AssetDelta where
  account : Str
  asset : Str
  amount : UInt64
  deriving DecidableEq, Inhabited

/-- `BlockCommit`: what the store writes when a block joins a chain. -/
structure BlockCommit where
  block : Block
  account : Str
  chain : AccountChain
  frontierHash : Str
  addPending : Option PendingSend := none
  deletePendingID : Str := []
  putLease : Option Lease := none
  settleLeaseHash : Str := []
  cancelLeaseHash : Str := []
  unfulfillLeaseHash : Str := []
  delegationRep : Str := []
  deleteDelegation : Bool := false
  putKeyset : Option Keyset := none
  putAccountKey : Str := []
  expectLeaseHash : Str := []
  expectLeaseState : LeaseState := .created
  assetCredit : Option AssetDelta := none
  topUpPendingID : Str := []
  topUpPendingAmount : UInt64 := 0
  expectLeaseEffectiveDurationSecs : UInt64 := 0

/-- `BlockUndo`: what the store writes when the last block of a chain is taken off it. -/
structure BlockUndo where
  account : Str
  chain : AccountChain
  frontierHash : Str
  addPending : Option PendingSend := none
  deletePendingID : Str := []
  rejectHash : Str := []
  deleteAccount : Bool := false
  restoreDelegation : Bool := false
  prevRep : Str := []
  restoreLease : Option Lease := none
  deleteLeaseHash : Str := []
  deleteKeysetAccount : Str := []
  deleteAccountKeyAccount : Str := []
  assetDebit : Option AssetDelta := none
  reducePendingID : Str := []
  reducePendingAmount : UInt64 := 0

/-! ## Reputation -/

/-- `EventKind`. -/
inductive EventKind
  | leaseAccepted
  | leaseSettled
  | leaseCancelled
  | leaseUnfulfilled
  deriving DecidableEq, Inhabited

/-- `ReputationEvent`. -/
structure ReputationEvent where
  kind : EventKind
  provider : Str
  consumer : Str
  timestamp : Int64 := 0
  durationSecs : UInt64 := 0
  deriving DecidableEq, Inhabited

/-- `ReputationAggregate`. -/
structure ReputationAggregate where
  leasesAcceptedAsProvider : UInt64 := 0
  leasesSettledAsProvider : UInt64 := 0
  leaseHoursSettledAsProvider : UInt64 := 0
  leasesUnfulfilledAsProvider : UInt64 := 0
  leasesAcceptedAsConsumer : UInt64 := 0
  leasesSettledAsConsumer : UInt64 := 0
  leasesCancelledAsConsumer : UInt64 := 0
  leaseHoursSettledAsConsumer : UInt64 := 0
  leasesUnfulfilledAsConsumer : UInt64 := 0
  firstActivityAt : Int64 := 0
  lastActivityAt : Int64 := 0
  deriving DecidableEq, Inhabited

/-! ## Errors -/

/-- The error values the program compares against. -/
inductive Sentinel
  | errInvalidPoW
  | errUnknownBlockType
  | errLeaseStateConflict
  | errWinnerFullValidation
  deriving DecidableEq

/-- A Go error: its text and the sentinels that `errors.Is` finds in it. -/
structure GoError where
  msg : Str
  sentinels : List Sentinel := []
  deriving DecidableEq

/-- `fmt.Errorf` without a wrapped error. -/
def errorf (msg : Str) : GoError :=
  { msg := msg }

/-- `fmt.Errorf("…%w", err)`. -/
def GoError.wrap (before : Str) (e : GoError) : GoError :=
  { msg := before ++ e.msg, sentinels := e.sentinels }

/-- `ErrInvalidPoW`. -/
def errInvalidPoW : GoError :=
  { msg := str "invalid proof of work", sentinels := [.errInvalidPoW] }

/-- `errUnknownBlockType`. -/
def errUnknownBlockType : GoError :=
  { msg := str "unknown block type", sentinels := [.errUnknownBlockType] }

/-- `ErrLeaseStateConflict`. -/
def errLeaseStateConflict : GoError :=
  { msg := str "lease state conflict", sentinels := [.errLeaseStateConflict] }

/-- `ErrWinnerFullValidation`. -/
def errWinnerFullValidation : GoError :=
  { msg := str "winner failed full validation", sentinels := [.errWinnerFullValidation] }

/-- How a call ends early: with an error it returns, or by crashing. -/
inductive Fault
  | err (e : GoError)
  | panic
  deriving DecidableEq

/-- `IsRetryableError`. -/
def isRetryableError (e : GoError) : Bool :=
  ["previous block not found", "source send not pending", "not found", "frontier mismatch",
    "previous mismatch", "GetAccountChain", "GetBlock", "unresolved conflict",
    "Transaction Conflict", "lease not yet accepted", "epoch not yet available",
    "retry after statechain syncs", "retry after sync", "unopened account", "unknown block type",
    "not yet activated"].any (fun p => contains e.msg (str p))

/-- `shortHash`, which also is `shortAddr`. -/
def shortHash (h : Str) : Str :=
  if h.length > 12 then h.take 12 ++ str "..." else h

/-- `shortStr` of the badger store. -/
def shortStr (h : Str) : Str :=
  if h.length > 12 then h.take 12 else h

end Xe
