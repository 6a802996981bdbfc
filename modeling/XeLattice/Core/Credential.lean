import XeLattice.Core.Rollback

/-!
# Credentials and the write path

The parts of `core/ledger.go` that every block handler uses: who may sign for an account, how a
block is appended, and how the delegated weights follow.
-/

set_option autoImplicit false

namespace Xe

/-! ## Credentials -/

/-- The last keyset that a chain declares. -/
def lastKeyset (chain : AccountChain) : Option Keyset :=
  chain.foldl (fun found b =>
    if (b.type = .multisigOpen ∨ b.type = .multisigUpdate) ∧ b.msKeyset ≠ none then b.msKeyset
    else found) none

/-- The last public key declared on a chain. -/
def lastPubKey (chain : AccountChain) : Str :=
  chain.foldl (fun found b => if b.pubKey ≠ [] then b.pubKey else found) []

/-- `resolveMissingKeyset`. -/
def resolveMissingKeyset (account : Str) : M Keyset := do
  let chain ← orErr (← getAccountChain account)
    (str "block has signatures but multisig keyset is not known: unopened account " ++
      shortHash account ++ str " (multisig_open not yet synced)")
  let ks ← orErr (lastKeyset chain) (str "block has signatures but account is not multisig")
  writeMem (Memory.setKeyset account ks)
  pure ks

/-- `GetAccountKey`: empty when the account declares no key. -/
def getAccountKey (account : Str) : M Str := do
  match ← readMem (·.accountKeys.get account) with
  | some pub => pure pub
  | none =>
    match ← getAccountChain account with
    | none => pure []
    | some chain =>
      if lastPubKey chain = [] then pure []
      else do
        writeMem (Memory.setAccountKey account (lastPubKey chain))
        pure (lastPubKey chain)

/-- The keyset that must have signed the block. -/
def signingKeyset (b : Block) : M Keyset := do
  match ← (if b.type = .multisigOpen then pure b.msKeyset else getKeyset b.account) with
  | some ks => pure ks
  | none => resolveMissingKeyset b.account

/-- The multisig check of a block: a spending block needs the threshold, others one member. -/
def verifyKeyset (lib : Lib) (b : Block) (ks : Keyset) : Except Fault Unit :=
  if isSpendingOp b.type then
    (verifyMultisig lib b.hash b.signatures ks).mapError (Store.wrapFault (str "multisig: "))
  else (verifyMultisigAny lib b.hash b.signatures ks).mapError
    (fun e => .err (e.wrap (str "multisig: ")))

/-- `verifyBlockCredential`. -/
def verifyBlockCredential (lib : Lib) (b : Block) : M Unit := do
  liftErr [] (validatePubKeyDeclaration lib b)
  if b.signatures ≠ [] then do
    let ks ← signingKeyset b
    liftFault (verifyKeyset lib b ks)
  else do
    let ks ← getKeyset b.account
    failIf (ks ≠ none) (str "multisig account requires signatures")
    let pubKey ← if b.previous = zeroPrev then pure b.pubKey else do
      let pubKey ← getAccountKey b.account
      failIf (pubKey = []) (str "signature: unopened account " ++ shortHash b.account ++
        str " has no declared public key")
      pure pubKey
    liftErr (str "signature: ") (verifyBlockSignatureWith lib b pubKey)

/-! ## Appending a block -/

/-- `prepareBlockWrite`: the commit that appends `b`, and the account's XE balance before it. -/
def prepareBlockWrite (b : Block) : M (BlockCommit × UInt64) := do
  let chain ← getAccountChainOverlay b.account
  let prevBalance ← getAssetBalanceOverlay b.account assetXE
  pure (
    { block := b
      account := b.account
      chain := chain.getD [] ++ [b]
      frontierHash := b.hash
      putAccountKey := b.pubKey }, prevBalance)

/-- `updateDelegation`. -/
def updateDelegation (account : Str) (prevBalance : UInt64) (newBlock : Block) : M Unit := do
  let newXEBal ← readMem (·.getAssetBalance account assetXE)
  let prevXEBal := if assetOrXE newBlock.asset = assetXE then prevBalance else newXEBal
  writeMem (Memory.moveDelegation account newBlock.representative prevXEBal newXEBal)

/-- What a commit does to the ledger's memory. -/
def applyCommitMem (c : BlockCommit) (prevBalance : UInt64) : M Unit := do
  writeMem (Memory.addBlockCount 1)
  writeMem (Memory.setAssetBalance c.account (assetOrXE c.block.asset) c.block.balance)
  if c.putAccountKey ≠ [] then writeMem (Memory.setAccountKey c.account c.putAccountKey)
  match c.assetCredit with
  | some d => writeMem (Memory.addAssetBalance d)
  | none => pure ()
  updateDelegation c.account prevBalance c.block

/-- The delegation a commit stores: the block's representative, or the one the account has. -/
def BlockCommit.withDelegation (c : BlockCommit) (oldRep : Str) : BlockCommit :=
  let effectiveRep := if c.block.representative = [] then oldRep else c.block.representative
  if effectiveRep = [] then { c with deleteDelegation := true }
  else { c with delegationRep := effectiveRep }

/-- The representative an account has, as a promotion shows it. -/
def presentRep (account : Str) : M Str := do
  match ← overlayDelegationRep account with
  | some rep => pure rep
  | none => readMem (·.repOf account)

/-- `commitBlockWrite` outside a promotion. -/
def commitAlone (c : BlockCommit) (prevBalance : UInt64) : M Unit := do
  wrapErr (str "CommitBlock: ") (txnStore (Store.commitBlock c))
  applyCommitMem c prevBalance

/-- The commit of a winner together with the undos of its promotion. -/
def commitWinner (cascade : CascadeBuild) (c : BlockCommit) (prevBalance : UInt64) : M Unit := do
  wrapErr (str "CommitCascade: ") (txnStore (Store.commitCascade cascade.undos c))
  Prog.forEach cascade.memApplies MemUndo.apply
  deactivateCascade
  applyCommitMem c prevBalance

/-- `commitBlockWrite`. -/
def commitBlockWrite (c : BlockCommit) (prevBalance : UInt64) : M Unit := do
  let oldRep ← presentRep c.account
  let c := c.withDelegation oldRep
  match ← activeCascadeFor with
  | none => commitAlone c prevBalance
  | some cascade =>
    if cascade.winnerHash = c.block.hash then commitWinner cascade c prevBalance
    else commitAlone c prevBalance

/-- `addBlockLocked`. -/
def addBlockLocked (b : Block) : M Unit := do
  let (commit, prevBalance) ← prepareBlockWrite b
  commitBlockWrite commit prevBalance

end Xe
