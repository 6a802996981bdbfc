import XeLattice.Core.Crypto
import XeLattice.Core.Pricing
import XeLattice.Prog.Basic

/-!
# The state of a node

One record holds everything the modelled calls read and write: the store, the ledger's memory, the
memory of the vote and quorum managers, and the locks.  A `Node` is what is fixed when a node
starts; a `Ctx` is what one call sees of the outside world (the clock, the answers of the state
chain and of the certificate set, the order in which it walks a Go map).

Reads and writes of one mutex-protected map, and whole store transactions, are single atomic
actions of the programs over this state.
-/

set_option autoImplicit false

namespace Xe

/-! ## Nodes and calls -/

/-- The representative key of a node. -/
structure KeyPair where
  pub : Str
  sign : Str → Str

/-- `PubKeyHex`. -/
def KeyPair.pubKeyHex (kp : KeyPair) : Str :=
  hexEncode kp.pub

/-- The two implementations of the store. -/
inductive StoreKind
  | mem
  | badger
  deriving DecidableEq, Inhabited

/-- What is fixed when a node starts. -/
structure Node where
  lib : Lib
  storeKind : StoreKind
  difficulty : UInt64
  timestampWindow : Int64
  genesis : Block
  keyPair : Option KeyPair

/-- `Address` of a key pair. -/
def Node.address (node : Node) (kp : KeyPair) : Str :=
  deriveAddressFromKey node.lib kp.pub

/-- What one call sees of its environment, and how deep it may follow a cascade. -/
structure Ctx where
  node : Node
  tid : ℕ
  now : Int64
  timekeepers : Option TimekeeperConfig
  minters : List Str
  certificateLookup : Option (Str → Option CertificateInfo)
  epochAt : Option (Int64 → List EpochParams)
  representatives : Option RepresentativeConfig
  fuel : ℕ
  mapOrder : List Str → List Str
  mapOrder_perm : ∀ l, (mapOrder l).Perm l

/-- The library of the node. -/
def Ctx.lib (c : Ctx) : Lib :=
  c.node.lib

/-- The timing of the leases. -/
def Ctx.timing (c : Ctx) : LeaseTiming :=
  genesisLeaseTiming c.node.genesis

/-! ## The store -/

/-- The persistent tables. -/
structure Store where
  kind : StoreKind
  blocks : Table Str Block
  chains : Table Str AccountChain
  frontiers : Table Str Str
  pending : Table Str PendingSend
  conflicts : Table (Str × Str) Conflict
  staged : Table Str Block
  votes : List Vote
  blockStatus : Table Str BlockStatus
  finalHeight : Table Str ℕ
  finalVotes : Table (Str × Str) Str
  delegations : Table Str Str
  leases : Table Str Lease
  reputation : Table Str ReputationAggregate
  keysets : Table Str Keyset
  accountKeys : Table Str Str

/-- `NewMemStore`, and an empty badger directory. -/
def Store.new (kind : StoreKind) : Store where
  kind := kind
  blocks := .empty
  chains := .empty
  frontiers := .empty
  pending := .empty
  conflicts := .empty
  staged := .empty
  votes := []
  blockStatus := .empty
  finalHeight := .empty
  finalVotes := .empty
  delegations := .empty
  leases := .empty
  reputation := .empty
  keysets := .empty
  accountKeys := .empty

/-- The final height of an account, zero when none is stored. -/
def Store.finalHeightOf (s : Store) (account : Str) : ℕ :=
  (s.finalHeight.get account).getD 0

/-! ## Cascades -/

/-- What undoing a block does to the ledger's memory: the closure that `buildBlockUndo` returns. -/
structure MemUndo where
  account : Str
  asset : Str
  parentBal : UInt64
  xeBefore : UInt64
  xeAfter : UInt64
  prevRep : Str
  deleteAccount : Bool
  deleteKeysetAccount : Str
  deleteAccountKeyAccount : Str
  assetDebit : Option AssetDelta
  repRevert : Option ReputationEvent

/-- `cascadeBuild`: the undos of a promotion and the overlay they amount to. -/
structure CascadeBuild where
  winnerHash : Str
  undos : List BlockUndo
  memApplies : List MemUndo
  chains : Table Str AccountChain
  addPending : Table Str PendingSend
  delPending : Table Str Unit
  restoreLease : Table Str Lease
  deleteLease : Table Str Unit
  deleteKeyset : Table Str Unit
  delegation : Table Str Str

/-- `newCascadeBuild`. -/
def CascadeBuild.new (winnerHash : Str) : CascadeBuild where
  winnerHash := winnerHash
  undos := []
  memApplies := []
  chains := .empty
  addPending := .empty
  delPending := .empty
  restoreLease := .empty
  deleteLease := .empty
  deleteKeyset := .empty
  delegation := .empty

/-! ## Memory -/

/-- The ledger's memory. -/
structure Memory where
  delegation : Table Str Str
  weights : Table Str ℕ
  assetBalances : Table Str (Table Str UInt64)
  blockCount : ℤ
  delegationUnderflow : ℕ
  keysets : Table Str Keyset
  accountKeys : Table Str Str
  reputation : Table Str ReputationAggregate
  activeCascade : Option CascadeBuild

/-- Nothing in memory. -/
def Memory.new : Memory where
  delegation := .empty
  weights := .empty
  assetBalances := .empty
  blockCount := 0
  delegationUnderflow := 0
  keysets := .empty
  accountKeys := .empty
  reputation := .empty
  activeCascade := none

/-- The memory of the vote manager, by position. -/
structure VoteMem where
  pendingVotes : Table (Str × Str) (List Vote)
  lastRevoteNanos : Table (Str × Str) Int64
  lastNewCandidateNanos : Table (Str × Str) Int64
  seenCandidates : Table (Str × Str) (List Str)

/-- `NewVoteManager`. -/
def VoteMem.new : VoteMem where
  pendingVotes := .empty
  lastRevoteNanos := .empty
  lastNewCandidateNanos := .empty
  seenCandidates := .empty

/-- The memory of the quorum manager: when a winner of a position failed its promotion. -/
structure QuorumMem where
  failedPromotions : Table (Str × Str × Str) Int64

/-- `NewQuorumManager`. -/
def QuorumMem.new : QuorumMem where
  failedPromotions := .empty

/-- The mutexes that calls hold across several actions. -/
inductive Lock
  | account (a : Str)
  | lease (h : Str)
  | position (account previous : Str)
  | quorum
  deriving DecidableEq

/-- The state of a node. The last field is a log that no code reads: the final votes the node has
signed. -/
structure State where
  store : Store
  mem : Memory
  vm : VoteMem
  qm : QuorumMem
  locks : Lock → Option ℕ
  signed : List Vote

/-- A call of the node. -/
abbrev M := Prog State Fault

/-! ## Actions -/

/-- Waits for ever. -/
def diverge {α : Type} : M α :=
  Prog.act (fun _ => (none : Option (Unit × State))) (fun _ => .done (.error .panic))

/-- Fails with `fmt.Errorf`. -/
def throwErr {α : Type} (msg : Str) : M α :=
  Prog.fail (.err (errorf msg))

/-- Returns an error when `c` holds. -/
def failIf (c : Prop) [Decidable c] (msg : Str) : M Unit :=
  Prog.failIf c (.err (errorf msg))

/-- The value of `x`, or the error. -/
def orErr {α : Type} (x : Option α) (msg : Str) : M α :=
  Prog.orFail x (.err (errorf msg))

/-- A pure computation that may fail or crash. -/
def liftFault {α : Type} (x : Except Fault α) : M α :=
  Prog.done x

/-- A pure check of the library, with the caller's prefix on its error. -/
def liftErr {α : Type} (before : Str) (x : Except GoError α) : M α :=
  Prog.done (x.mapError (fun e => Fault.err (e.wrap before)))

/-- Reads the store. -/
def readStore {α : Type} (f : Store → α) : M α :=
  Prog.rd (fun s => f s.store)

/-- Reads the memory. -/
def readMem {α : Type} (f : Memory → α) : M α :=
  Prog.rd (fun s => f s.mem)

/-- Writes the memory. -/
def writeMem (f : Memory → Memory) : M Unit :=
  Prog.wr (fun s => { s with mem := f s.mem })

/-- Writes the store. -/
def writeStore (f : Store → Store) : M Unit :=
  Prog.wr (fun s => { s with store := f s.store })

/-- A store transaction: its outcome and the store it leaves. -/
def txnStore {α : Type} (f : Store → Except Fault α × Store) : M α :=
  Prog.act (fun s => some ((f s.store).1, { s with store := (f s.store).2 })) Prog.done

/-- Adds the caller's prefix to the errors of a call. -/
def wrapErr {α : Type} (before : Str) (p : M α) : M α :=
  p.handle (fun r => Prog.done (r.mapError (fun
    | .err e => .err (e.wrap before)
    | .panic => .panic)))

/-! ## Locks -/

/-- A lock, with who holds it. -/
def State.setLock (s : State) (l : Lock) (o : Option ℕ) : State :=
  { s with locks := Function.update s.locks l o }

/-- `acquireAccountLock`, `acquireLeaseLock`. -/
def acquire (tid : ℕ) (l : Lock) : M Unit :=
  Prog.await (fun s => if s.locks l = none then some (s.setLock l (some tid)) else none)

/-- `TryLock`. -/
def tryAcquire (tid : ℕ) (l : Lock) : M Bool :=
  Prog.act (fun s =>
    if s.locks l = none then some (true, s.setLock l (some tid)) else some (false, s))
    (fun b => .done (.ok b))

/-- Runs `p` holding the mutex, and releases it however `p` ends. -/
def withLock {α : Type} (tid : ℕ) (l : Lock) (p : M α) : M α := do
  acquire tid l
  p.deferring (fun s => s.setLock l none)

end Xe
