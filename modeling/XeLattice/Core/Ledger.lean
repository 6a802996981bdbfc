import XeLattice.Core.LeaseHandlers

/-!
# The ledger's calls

`AddBlock`, `AddSyncedBlock` and `SwapBlock` of `core/ledger.go`, and the conflict records of
`core/conflict.go`.  The callbacks that announce a conflict or a new block start calls of their own
and have no place inside these.
-/

set_option autoImplicit false

namespace Xe

/-! ## The switch over the block's type -/

/-- The switch of `dispatchValidateAndAdd`. -/
def validateAndAdd (c : Ctx) (b : Block) (skipTimestamp : Bool) : M Unit :=
  match b.type with
  | .send => validateAndAddSend b
  | .receive => validateAndAddReceive c b
  | .genesis => validateAndAddGenesis c b
  | .lease => validateAndAddLease c b
  | .leaseAccept => validateAndAddLeaseAccept c b skipTimestamp
  | .leaseSettle => validateAndAddLeaseSettle c b skipTimestamp
  | .leaseCancel => validateAndAddLeaseCancel c b
  | .leaseForceSettle => validateAndAddLeaseForceSettle c b skipTimestamp
  | .leaseRenew => validateAndAddLeaseRenew c b skipTimestamp
  | .multisigOpen => validateAndAddMultisigOpen c b
  | .multisigUpdate => validateAndAddMultisigUpdate b
  | .burn => validateAndAddBurn b
  | .mint => validateAndAddMint c b
  | .other _ => Prog.fail (.err errUnknownBlockType)

/-- `dispatchValidateAndAdd`. -/
def dispatchValidateAndAdd (c : Ctx) (b : Block) (skipTimestamp : Bool) : M Unit := do
  verifyBlockCredential c.lib b
  validateAndAdd c b skipTimestamp

/-! ## Conflicts -/

/-- `detectConflictSibling`. -/
def detectConflictSibling (chain : Option AccountChain) (b : Block) : Option Str :=
  ((chain.getD []).find? (fun x => x.previous == b.previous)).map (·.hash)

/-- `SaveConflict`. -/
def Store.saveConflict (cf : Conflict) (st : Store) : Store :=
  { st with conflicts := st.conflicts.set (cf.accountAddress, cf.previousHash) cf }

/-- `SaveStagedBlock`. -/
def Store.saveStagedBlock (b : Block) (st : Store) : Store :=
  { st with staged := st.staged.set b.hash b }

/-- `maxConflictHashes` of `recordConflict`. -/
def maxConflictHashes : ℕ := 10

/-- `recordConflict`: whether the record is new. -/
def recordConflict (c : Ctx) (account previous existingHash newHash : Str) : M Bool := do
  match ← getConflict account previous with
  | none => do
    writeStore (Store.saveConflict
      { accountAddress := account
        previousHash := previous
        blockHashes := [existingHash, newHash]
        detectedAt := c.now
        weightSnapshot := none
        totalWeight := 0 })
    pure true
  | some record =>
    if newHash ∈ record.blockHashes ∨ record.blockHashes.length ≥ maxConflictHashes then pure false
    else do
      writeStore (Store.saveConflict
        { record with blockHashes := record.blockHashes ++ [newHash] })
      pure false

/-- Whether some position of the account is contested. -/
def hasConflicts (account : Str) : M Bool :=
  readStore (fun st => decide (∃ k ∈ st.conflicts.keys, k.1 = account))

/-- The balance a conflicting block starts from: that of the last block of its asset at or before
its parent. -/
def parentBalance (asset previous : Str) (bal : UInt64) : AccountChain → UInt64
  | [] => bal
  | b :: bs =>
    let bal := if b.asset = asset then b.balance else bal
    if b.hash = previous then bal else parentBalance asset previous bal bs

/-! ## Checks of a block that is only staged -/

/-- The balance of a staged block. -/
def stagedBalance (name : String) (b : Block) (expected : UInt64) : M Unit :=
  checkBalance (str "staged " ++ str name ++ str ": ") b expected

/-- A staged block that takes from a balance. -/
def stagedSpend (name have_ need : String) (b : Block) (parentBalance : UInt64) : M Unit := do
  failIf (b.amount > parentBalance)
    (str "staged " ++ str name ++ str ": insufficient balance: have " ++
      dec parentBalance.toNat ++ str have_ ++ str ", " ++ str need ++ str " " ++
      dec b.amount.toNat)
  stagedBalance name b (parentBalance - b.amount)

/-- A staged block that adds to a balance. -/
def stagedIncome (name : String) (b : Block) (parentBalance amount : UInt64) : M Unit := do
  failIf (parentBalance + amount < parentBalance)
    (str "staged " ++ str name ++ str ": balance would overflow uint64")
  stagedBalance name b (parentBalance + amount)

/-- The send that a staged block names. -/
def stagedPending (b : Block) (missing : Str) : M PendingSend := do
  orErr (← readStore (·.pending.get b.source)) missing

/-- `ValidateStagedBlock`. -/
def validateStagedBlock (c : Ctx) (b : Block) (parentBalance : UInt64) : M Unit := do
  verifyBlockCredential c.lib b
  match b.type with
  | .send => do
    failIf (b.amount = 0) (str "staged send: amount must be > 0")
    stagedSpend "send" "" "sending" b parentBalance
    failIf (b.destination = []) (str "staged send: must have a destination")
    failIf (b.destination = b.account) (str "staged send: cannot send to self")
  | .receive => do
    failIf (b.source = []) (str "staged receive: must reference a source send")
    let pending ← stagedPending b
      (str "staged receive: source send not pending: " ++ shortHash b.source)
    failIf (pending.destination ≠ b.account)
      (str "staged receive: send not addressed to this account")
    let live ← isLiveLeaseEscrow b.source
    failIf (live = true)
      (str "staged receive: cannot receive a live lease escrow: " ++ shortHash b.source)
    stagedIncome "receive" b parentBalance pending.amount
  | .lease => stagedSpend "lease" "" "need" b parentBalance
  | .leaseAccept => stagedSpend "lease_accept" "" "need" b parentBalance
  | .leaseSettle => do
    let _ ← stagedPending b (str "staged lease_settle: no pending escrow for lease")
    stagedIncome "lease_settle" b parentBalance b.amount
  | .leaseCancel => do
    let pending ← stagedPending b (str "staged lease_cancel: no pending send for lease")
    stagedBalance "lease_cancel" b (parentBalance + pending.amount)
  | .leaseForceSettle => do
    let pending ← stagedPending b (str "staged lease_force_settle: no pending escrow for lease")
    stagedBalance "lease_force_settle" b (parentBalance + pending.amount)
  | .multisigOpen => throwErr (str "staged multisig_open: conflicting account opens are invalid")
  | .multisigUpdate => stagedBalance "multisig_update" b parentBalance
  | .burn => do
    failIf (b.asset ≠ assetXE) (str "staged burn: restricted to XE")
    failIf (b.amount = 0) (str "staged burn: amount must be > 0")
    stagedSpend "burn" " XE" "burning" b parentBalance
  | .mint => do
    failIf (b.asset ≠ assetXUSD) (str "staged mint: restricted to XUSD")
    failIf (isMinter c b.account = false)
      (str "staged mint: account " ++ shortHash b.account ++ str " is not an authorized minter")
    failIf (b.amount = 0) (str "staged mint: amount must be > 0")
    stagedIncome "mint" b parentBalance b.amount
  | .leaseRenew | .genesis | .other _ =>
    throwErr (str "staged block: unknown type: " ++ b.type.name)

/-! ## Adding a block -/

/-- `normalizeBlockHex`. -/
def normalizeBlockHex (lib : Lib) (b : Block) : Block :=
  { b with
    account := toLower lib b.account
    previous := toLower lib b.previous
    hash := toLower lib b.hash
    signature := toLower lib b.signature
    destination := toLower lib b.destination
    source := toLower lib b.source
    representative := toLower lib b.representative
    pubKey := toLower lib b.pubKey
    signatures := b.signatures.map (fun s => ⟨toLower lib s.publicKey, toLower lib s.sig⟩)
    msKeyset := b.msKeyset.map (fun ks => { ks with keys := ks.keys.map (toLower lib) }) }

/-- The types with attestations. -/
def isAttested : BlockType → Bool
  | .leaseAccept | .leaseSettle | .leaseForceSettle | .leaseRenew => true
  | _ => false

/-- The block that `addBlock` works on. -/
def submitted (lib : Lib) (b : Block) : Block :=
  let b := normalizeBlockHex lib b
  if isAttested b.type then b else { b with attestations := [] }

/-- The checks of `addBlock` that need no state. -/
def checkForm (c : Ctx) (b : Block) (skipTimestamp : Bool) : M Unit := do
  failIf (b.attestations.length > maxAttestationsPerBlock)
    (str "too many attestations: " ++ dec b.attestations.length ++ str " exceeds max " ++
      dec maxAttestationsPerBlock)
  liftErr (str "verify: ") (verifyBlock c.lib b)
  if c.node.difficulty > 0 then
    match hexDecode b.hash with
    | .error e => throwErr (str "decode hash: " ++ e)
    | .ok hashBytes =>
      if ¬ c.lib.powHash b.powNonce hashBytes ≥ c.node.difficulty then
        Prog.fail (.err errInvalidPoW)
  if skipTimestamp = false ∧ c.node.timestampWindow > 0 then do
    failIf (b.timestamp < 0) (str "block timestamp must not be negative")
    let delta := if b.timestamp > c.now then b.timestamp - c.now else c.now - b.timestamp
    failIf (delta > c.node.timestampWindow)
      (str "block timestamp out of range: delta=" ++ c.lib.durationString delta)

/-- `isLeaseStateTransition`. -/
def isLeaseStateTransition : BlockType → Bool
  | .leaseAccept | .leaseSettle | .leaseCancel | .leaseForceSettle => true
  | _ => false

/-- A conflicting block is checked and staged, and the conflict recorded. -/
def stageConflict (c : Ctx) (b : Block) (chain : Option AccountChain) (siblingHash : Str) :
    M Unit := do
  let final ← isFinalized b.account siblingHash
  failIf (final = true)
    (str "block conflicts with finalized block " ++ shortHash siblingHash ++ str " — rejected")
  failIf (b.asset = []) (str "conflict block must have an asset")
  failIf (isValidAsset b.asset = false)
    (str "conflict block: unsupported asset: " ++ c.lib.quote b.asset)
  let parentBal :=
    if b.previous = zeroPrev then 0 else parentBalance b.asset b.previous 0 (chain.getD [])
  wrapErr (str "conflict block: ") (validateStagedBlock c b parentBal)
  let isNew ← recordConflict c b.account b.previous siblingHash b.hash
  let record ← getConflict b.account b.previous
  if (record.map (fun r => decide (b.hash ∈ r.blockHashes))).getD false then
    writeStore (Store.saveStagedBlock b)
  if isNew then do
    match ← getConflict b.account b.previous with
    | none => pure ()
    | some record => do
      let snap ← readMem (·.snapshotWeights c.representatives)
      writeStore (Store.saveConflict
        { record with weightSnapshot := some snap, totalWeight := snapshotTotal snap })

/-- Names the type when no handler knows it. -/
def nameUnknownType (b : Block) : Fault → Fault
  | .err e => if e = errUnknownBlockType then
      .err (errorf (str "unknown block type: " ++ b.type.name)) else .err e
  | .panic => .panic

/-- The part of `addBlock` under the locks. -/
def addBlockUnderLocks (c : Ctx) (b : Block) (skipTimestamp : Bool) : M Unit := do
  match ← getBlock b.hash with
  | some _ => pure ()
  | none => do
    verifyBlockCredential c.lib b
    let chain ← getAccountChain b.account
    match detectConflictSibling chain b with
    | some siblingHash =>
      if siblingHash ≠ [] then stageConflict c b chain siblingHash
      else addUncontested c b skipTimestamp
    | none => addUncontested c b skipTimestamp
where
  addUncontested (c : Ctx) (b : Block) (skipTimestamp : Bool) : M Unit := do
    let contested ← hasConflicts b.account
    failIf (contested = true)
      (str "account has unresolved conflict — block rejected pending resolution")
    failIf (b.asset = []) (str "block must have an asset")
    failIf (isValidAsset b.asset = false) (str "unsupported asset: " ++ c.lib.quote b.asset)
    (dispatchValidateAndAdd c b skipTimestamp).handle
      (fun r => .done (r.mapError (nameUnknownType b)))

/-- `addBlock`. -/
def addBlock (c : Ctx) (b : Block) (skipTimestamp : Bool) : M Unit := do
  let b := submitted c.lib b
  checkForm c b skipTimestamp
  withLock c.tid (.account b.account)
    (if isLeaseStateTransition b.type = true ∧ b.source ≠ [] then
      withLock c.tid (.lease b.source) (addBlockUnderLocks c b skipTimestamp)
    else addBlockUnderLocks c b skipTimestamp)

/-- `AddBlock`. -/
def addNewBlock (c : Ctx) (b : Block) : M Unit :=
  addBlock c b false

/-- `AddSyncedBlock`. -/
def addSyncedBlock (c : Ctx) (b : Block) : M Unit :=
  addBlock c b true

/-! ## Swapping a block -/

/-- The refusal of a descendant that cannot be unwound. -/
def refuseDescendant (quote : Str → Str) (b : Block) : Str :=
  str "SwapBlock: cannot unwind descendant " ++ quote b.type.name ++ str " (" ++
    shortHash b.hash ++
    str ") of the replaced block — reversing its side-effects is not yet implemented"

/-- The plan of a swap: the descendants of the replaced block, the receivers of sends among them,
then the receivers of the block itself, then the block. -/
def planSwap (c : Ctx) (account : Str) (oldBlock : Block) (descendants : List Block) :
    M Plan := do
  let rollback := fun h p =>
    wrapErr (str "SwapBlock: ") (planRollbackOfSend c.lib.quote c.fuel h p)
  let p ← planBlocks rollback (refuseDescendant c.lib.quote) account descendants.reverse Plan.new
  let p ← if oldBlock.type = .send then do
      match ← readStore (·.pending.get oldBlock.hash) with
      | none => rollback oldBlock.hash p
      | some _ => pure p
    else pure p
  pure { p with steps := p.steps ++ [(account, oldBlock)] }

/-- The other accounts a plan touches, in the order they are locked. -/
def Plan.foreign (p : Plan) (account : Str) : List Str :=
  sortStrings ((p.steps.map (·.1)).filter (· ≠ account)).dedup

/-- Runs `p` holding the mutexes, taken in order. -/
def withLocks {α : Type} (tid : ℕ) : List Lock → M α → M α
  | [], p => p
  | l :: ls, p => withLock tid l (withLocks tid ls p)

/-- The undos of a plan, each built on the chain the ones before it leave. -/
def buildCascade : List (Str × Block) → Table Str AccountChain → CascadeBuild → M CascadeBuild
  | [], _, cb => pure cb
  | (account, b) :: steps, snapshots, cb => do
    let snap ← match snapshots.get account with
      | some chain => pure chain
      | none => do
        orErr (← getAccountChain account) (str "SwapBlock: account " ++ shortHash account ++
          str " vanished under the cascade")
    let (u, m) ← wrapErr (str "SwapBlock: build undo for " ++ shortHash b.hash ++ str ": ")
      (buildBlockUndo account b (some snap))
    buildCascade steps (snapshots.set account u.chain) (cb.addUndo u m)

/-- The error of a swap whose winner fails its checks. -/
def winnerError (newHash : Str) : Fault → Fault
  | .err e => .err
      { msg := str "SwapBlock: " ++ errWinnerFullValidation.msg ++ str " " ++ shortHash newHash ++
          str ", loser kept: " ++ e.msg
        sentinels := errWinnerFullValidation.sentinels ++ e.sentinels }
  | .panic => .panic

/-- The winner is validated and committed over the cascade; a crash leaves the cascade active. -/
def promote (c : Ctx) (cascade : CascadeBuild) (newHash : Str) (newBlock : Block) : M Unit := do
  wrapErr (str "SwapBlock: ") (activateCascade cascade)
  (dispatchValidateAndAdd c newBlock true).handle (fun
    | .ok _ => deactivateCascade
    | .error .panic => Prog.fail .panic
    | .error e => do
      deactivateCascade
      Prog.fail (winnerError newHash e))

/-- `swapBlockLocked`. -/
def swapBlockLocked (c : Ctx) (account oldHash newHash : Str) (newBlock : Block) : M Unit := do
  let chain ← orErr (← getAccountChain account)
    (str "SwapBlock: account " ++ shortHash account ++ str " not found")
  let notFound := str "SwapBlock: block " ++ shortHash oldHash ++ str " not found in chain"
  let idx ← orErr (chain.findIdx? (fun b => b.hash == oldHash)) notFound
  let oldBlock ← orErr chain[idx]? notFound
  let fh ← finalHeight account
  failIf (idx + 1 ≤ fh)
    (str "SwapBlock: refusing to replace finalized block " ++ shortHash oldHash ++
      str " at height " ++ dec (idx + 1) ++ str " (final height " ++ dec fh ++ str ")")
  let plan ← planSwap c account oldBlock (chain.drop (idx + 1))
  withLocks c.tid ((plan.foreign account).map .account) (do
    let cascade ← buildCascade plan.steps .empty (.new newHash)
    promote c cascade newHash newBlock)

/-- `SwapBlock`. -/
def swapBlock (c : Ctx) (account oldHash newHash : Str) (newBlock : Block) : M Unit := do
  liftErr (str "SwapBlock: verify replacement: ") (verifyBlock c.lib newBlock)
  withLock c.tid (.account account) (swapBlockLocked c account oldHash newHash newBlock)

/-! ## The genesis ledger -/

/-- `SetFinalHeight`. -/
def Store.setFinalHeight (account : Str) (height : ℕ) (st : Store) : Store :=
  { st with finalHeight := st.finalHeight.set account height }

/-- `NewLedger` over an empty store: the genesis block is written and final, and a genesis that
delegates no weight is refused with a panic. -/
def newLedger (c : Ctx) : M Unit := do
  addBlockLocked c.node.genesis
  writeStore (Store.setFinalHeight c.node.genesis.account 1)
  let total ← readMem (·.totalDelegatedWeight none)
  if total = 0 then Prog.fail .panic

/-- A node before `NewLedger`. -/
def State.empty (kind : StoreKind) : State where
  store := .new kind
  mem := .new
  vm := .new
  qm := .new
  locks := fun _ => none
  signed := []

end Xe
