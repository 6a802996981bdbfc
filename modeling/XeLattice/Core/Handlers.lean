import XeLattice.Core.Credential
import XeLattice.Core.Genesis

/-!
# The block handlers

The `validateAndAdd…` functions of `core/ledger.go`, `core/lease_renew.go` and `core/mint.go`.  Each
of them runs the checks of its block type, which answer the commit to write (`prepare…`), and then
writes it (`finishWrite`).  All checks but those of `lease_cancel` only read.
-/

set_option autoImplicit false

namespace Xe

/-- What the checks of a handler answer: the commit, the account's XE balance before it, and the
reputation event that follows the commit. -/
structure Prepared where
  commit : BlockCommit
  prevBalance : UInt64
  event : Option ReputationEvent := none

/-- `ApplyReputationDelta`, if there is an event. -/
def applyEvent : Option ReputationEvent → M Unit
  | some ev => Prog.wr (State.applyReputation ev)
  | none => pure ()

/-- Caches the keyset that a commit stores. -/
def cacheKeyset (c : BlockCommit) : M Unit :=
  match c.putKeyset with
  | some ks => writeMem (Memory.setKeyset c.account ks)
  | none => pure ()

/-- The end of every handler: the commit, then the event and the keyset it brings. -/
def finishWrite (p : Prepared) : M Unit := do
  commitBlockWrite p.commit p.prevBalance
  applyEvent p.event
  cacheKeyset p.commit

/-! ## Checks shared by the handlers -/

/-- The check of `Previous`. -/
def checkPrevious (b : Block) (chain : AccountChain) : M Unit :=
  failIf (b.previous ≠ frontier chain)
    (str "previous mismatch: got " ++ shortHash b.previous ++ str ", want " ++
      shortHash (frontier chain))

/-- The timestamp of the frontier. -/
def lastTimestamp (chain : AccountChain) : Option Int64 :=
  chain.getLast?.map (·.timestamp)

/-- The block is not older than the last one. -/
def checkTimestamp (b : Block) (chain : AccountChain) : M Unit :=
  match lastTimestamp chain with
  | none => pure ()
  | some lastTs =>
    failIf (b.timestamp < lastTs)
      (str "block timestamp " ++ decInt b.timestamp.toInt ++
        str " is before previous block timestamp " ++ decInt lastTs.toInt)

/-- The account is open and the block extends its chain. -/
def checkExtends (b : Block) (unopened : Str) : M AccountChain := do
  let chain ← orErr (← getAccountChainOverlay b.account) unopened
  checkPrevious b chain
  checkTimestamp b chain
  pure chain

/-- `balance mismatch: expected …`, behind a prefix. -/
def checkBalance (before : Str) (b : Block) (expected : UInt64) : M Unit :=
  failIf (b.balance ≠ expected)
    (before ++ str "balance mismatch: expected " ++ dec expected.toNat ++ str ", got " ++
      dec b.balance.toNat)

/-- The account pays `b.amount` of the asset. -/
def checkSpend (b : Block) (asset : Str) (insufficient : UInt64 → Str) : M Unit := do
  let oldBal ← getAssetBalanceOverlay b.account asset
  failIf (b.amount > oldBal) (insufficient oldBal)
  checkBalance [] b (oldBal - b.amount)

/-! ## Transfers -/

/-- The checks of `validateAndAddSend`. -/
def prepareSend (b : Block) : M Prepared := do
  let _ ← checkExtends b (str "send from unopened account: " ++ shortHash b.account)
  let oldBal ← getAssetBalanceOverlay b.account b.asset
  failIf (b.amount = 0) (str "send amount must be > 0")
  failIf (b.amount > oldBal)
    (str "insufficient balance: have " ++ dec oldBal.toNat ++ str ", sending " ++
      dec b.amount.toNat)
  checkBalance [] b (oldBal - b.amount)
  failIf (b.destination = []) (str "send must have a destination")
  failIf (b.destination = b.account) (str "cannot send to self")
  liftErr (str "send: ") (validateMemo b.memo)
  let (commit, prevBalance) ← prepareBlockWrite b
  pure
    { commit := { commit with
        addPending := some
          { sendHash := b.hash
            source := b.account
            destination := b.destination
            amount := b.amount
            asset := b.asset } }
      prevBalance := prevBalance }

/-- `validateAndAddSend`. -/
def validateAndAddSend (b : Block) : M Unit := do
  finishWrite (← prepareSend b)

/-- The checks of `validateAndAddBurn`. -/
def prepareBurn (b : Block) : M Prepared := do
  failIf (b.asset ≠ assetXE) (str "burn: restricted to XE")
  failIf (b.destination ≠ [] ∨ b.source ≠ []) (str "burn: must not have source or destination")
  failIf (b.amount = 0) (str "burn: amount must be > 0")
  let _ ← checkExtends b (str "burn from unopened account: " ++ shortHash b.account)
  checkSpend b b.asset (fun oldBal =>
    str "insufficient balance: have " ++ dec oldBal.toNat ++ str " XE, burning " ++
      dec b.amount.toNat)
  liftErr (str "burn: ") (validateMemo b.memo)
  let (commit, prevBalance) ← prepareBlockWrite b
  pure { commit := commit, prevBalance := prevBalance }

/-- `validateAndAddBurn`. -/
def validateAndAddBurn (b : Block) : M Unit := do
  finishWrite (← prepareBurn b)

/-- A lease that is created or accepted still holds its escrow. -/
def isLive (lease : Option Lease) : Bool :=
  lease.any (fun l => l.state == .created || l.state == .accepted)

/-- `isLiveLeaseEscrow`. -/
def isLiveLeaseEscrow (sendHash : Str) : M Bool := do
  let lease ← getLeaseOverlay sendHash
  pure (isLive lease)

/-- A receive waits while the send it consumes is contested. -/
def checkUncontested (source : Str) : M Unit := do
  match ← getBlockOrStaged source with
  | none => pure ()
  | some src => do
    let conflict ← getConflict src.account src.previous
    failIf (conflict.isSome = true)
      (str "source send " ++ shortHash source ++
        str " is contested by an unresolved conflict — receive deferred pending resolution")

/-- The position of a receive. -/
def checkReceivePosition (b : Block) (chain : Option AccountChain) : M Unit :=
  match chain with
  | none => failIf (b.previous ≠ zeroPrev) (str "first block on account must have previous=0")
  | some chain => checkTimestamp b chain

/-- The balance checks of a receive on an account without a chain, and on one with a chain. -/
def checkReceiveBalance (b : Block) (chain : Option AccountChain) (oldBal amount : UInt64) :
    M Unit :=
  match chain with
  | none => checkBalance (str "open-receive ") b amount
  | some chain => do
    checkPrevious b chain
    failIf (oldBal + amount < oldBal) (str "receive would overflow uint64 balance")
    checkBalance (str "receive ") b (oldBal + amount)

/-- The checks of `validateAndAddReceive`. -/
def prepareReceive (c : Ctx) (b : Block) : M Prepared := do
  failIf (b.source = []) (str "receive must reference a source send")
  let pending ← orErr (← getPendingSendOverlay b.source)
    (str "source send not pending: " ++ shortHash b.source)
  failIf (pending.destination ≠ b.account) (str "send not addressed to this account")
  let live ← isLiveLeaseEscrow b.source
  failIf (live = true) (str "cannot receive a live lease escrow: " ++ shortHash b.source)
  checkUncontested b.source
  failIf (b.asset ≠ assetOrXE pending.asset)
    (str "receive asset " ++ c.lib.quote b.asset ++ str " does not match pending send asset " ++
      c.lib.quote (assetOrXE pending.asset))
  let chain ← getAccountChainOverlay b.account
  checkReceivePosition b chain
  let oldBal ← getAssetBalanceOverlay b.account b.asset
  checkReceiveBalance b chain oldBal pending.amount
  let (commit, prevBalance) ← prepareBlockWrite b
  pure { commit := { commit with deletePendingID := b.source }, prevBalance := prevBalance }

/-- `validateAndAddReceive`. -/
def validateAndAddReceive (c : Ctx) (b : Block) : M Unit := do
  finishWrite (← prepareReceive c b)

/-- `isMinter`. -/
def isMinter (c : Ctx) (account : Str) : Bool :=
  c.minters.any (fun k => equalFold k account)

/-- Position and balance of a mint. -/
def checkMintBalance (b : Block) (chain : Option AccountChain) : M Unit :=
  match chain with
  | none => do
    failIf (b.previous ≠ zeroPrev) (str "mint: first block must have previous=0")
    checkBalance (str "mint: ") b b.amount
  | some chain => do
    checkPrevious b chain
    checkTimestamp b chain
    let oldBal ← getAssetBalanceOverlay b.account b.asset
    failIf (oldBal + b.amount < oldBal) (str "mint: balance would overflow uint64")
    checkBalance (str "mint: ") b (oldBal + b.amount)

/-- The checks of `validateAndAddMint`. -/
def prepareMint (c : Ctx) (b : Block) : M Prepared := do
  failIf (b.asset ≠ assetXUSD) (str "mint: restricted to XUSD")
  failIf (isMinter c b.account = false)
    (str "mint: account " ++ shortHash b.account ++ str " is not an authorized minter")
  failIf (b.destination ≠ [] ∨ b.source ≠ []) (str "mint: must not have source or destination")
  failIf (b.memo ≠ []) (str "mint: memo not allowed")
  failIf (b.amount = 0) (str "mint: amount must be > 0")
  checkMintBalance b (← getAccountChainOverlay b.account)
  let (commit, prevBalance) ← prepareBlockWrite b
  pure { commit := commit, prevBalance := prevBalance }

/-- `validateAndAddMint`. -/
def validateAndAddMint (c : Ctx) (b : Block) : M Unit := do
  finishWrite (← prepareMint c b)

/-- `IsEmpty` of the store. -/
def storeIsEmpty : M Bool :=
  readStore (fun st => decide (st.blocks.keys = ∅))

/-- The checks of `validateAndAddGenesis`. -/
def prepareGenesis (c : Ctx) (b : Block) : M Prepared := do
  let empty ← storeIsEmpty
  failIf (empty = false) (str "genesis block rejected: ledger is not empty")
  failIf (b.hash ≠ c.node.genesis.hash)
    (str "genesis hash mismatch: got " ++ shortHash b.hash ++ str ", want " ++
      shortHash c.node.genesis.hash)
  liftErr [] (validateGenesisBlock c.lib b)
  let (commit, prevBalance) ← prepareBlockWrite b
  pure { commit := commit, prevBalance := prevBalance }

/-- `validateAndAddGenesis`. -/
def validateAndAddGenesis (c : Ctx) (b : Block) : M Unit := do
  finishWrite (← prepareGenesis c b)

/-! ## Multisig accounts -/

/-- The keyset of a multisig block. -/
def checkKeyset (name : String) (b : Block) : M Keyset := do
  let ks ← orErr b.msKeyset (str name ++ str " must include a keyset")
  liftFault ((validateKeyset ks).mapError (Store.wrapFault (str name ++ str " keyset: ")))
  pure ks

/-- The checks of `validateAndAddMultisigOpen`. -/
def prepareMultisigOpen (c : Ctx) (b : Block) : M Prepared := do
  let ks ← checkKeyset "multisig_open" b
  let expected ← liftFault
    ((deriveMultisigAddress c.lib ks).mapError (Store.wrapFault (str "derive address: ")))
  failIf (b.account ≠ expected)
    (str "multisig_open account mismatch: got " ++ shortHash b.account ++ str ", want " ++
      shortHash expected)
  let chain ← getAccountChainOverlay b.account
  failIf (chain.isSome = true) (str "multisig_open: account already exists")
  failIf (b.previous ≠ zeroPrev) (str "multisig_open must have previous=0")
  failIf (b.balance ≠ 0)
    (str "multisig_open balance must be 0, got " ++ dec b.balance.toNat)
  let (commit, prevBalance) ← prepareBlockWrite b
  pure { commit := { commit with putKeyset := some ks }, prevBalance := prevBalance }

/-- `validateAndAddMultisigOpen`. -/
def validateAndAddMultisigOpen (c : Ctx) (b : Block) : M Unit := do
  finishWrite (← prepareMultisigOpen c b)

/-- The checks of `validateAndAddMultisigUpdate`. -/
def prepareMultisigUpdate (b : Block) : M Prepared := do
  let ks ← checkKeyset "multisig_update" b
  let oldKs ← getKeysetOverlay b.account
  failIf (oldKs = none) (str "multisig_update: account is not multisig")
  let _ ← checkExtends b (str "multisig_update: account not found")
  let oldBal ← getAssetBalanceOverlay b.account b.asset
  checkBalance (str "multisig_update ") b oldBal
  let (commit, prevBalance) ← prepareBlockWrite b
  pure { commit := { commit with putKeyset := some ks }, prevBalance := prevBalance }

/-- `validateAndAddMultisigUpdate`. -/
def validateAndAddMultisigUpdate (b : Block) : M Unit := do
  finishWrite (← prepareMultisigUpdate b)

end Xe
