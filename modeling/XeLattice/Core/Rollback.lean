import XeLattice.Core.Overlay
import XeLattice.Store.Commit

/-!
# Rollback

`core/rollback.go`: what taking the last block off a chain does to the store and to the ledger's
memory (`buildBlockUndo`, `MemUndo.apply`), and which blocks have to come off with it when a send
that was received is taken back (`planRollbackOfSend`).
-/

set_option autoImplicit false

namespace Xe

/-! ## Planning -/

/-- The blocks a promotion takes off, in order, and the hashes already planned. -/
structure Plan where
  planned : List Str
  steps : List (Str × Block)

/-- A plan without blocks. -/
def Plan.new : Plan :=
  ⟨[], []⟩

/-- The types that a cascade may take off. -/
def cascadable : BlockType → Bool
  | .send | .receive | .burn | .mint => true
  | _ => false

/-- Plans the blocks of `account`, latest first; a send that was received is rolled back before
it. -/
def planBlocks (rollback : Str → Plan → M Plan) (refuse : Block → Str) (account : Str) :
    List Block → Plan → M Plan
  | [], p => pure p
  | b :: bs, p =>
    if b.hash ∈ p.planned then planBlocks rollback refuse account bs p
    else if cascadable b.type = false then throwErr (refuse b)
    else do
      let p₁ : Plan := { p with planned := b.hash :: p.planned }
      let p₂ ← if b.type = .send then do
          match ← readStore (·.pending.get b.hash) with
          | none => rollback b.hash p₁
          | some _ => pure p₁
        else pure p₁
      planBlocks rollback refuse account bs { p₂ with steps := p₂.steps ++ [(account, b)] }

/-- The refusal of `planRollbackFrom`. -/
def refuseCascade (quote : Str → Str) (account : Str) (b : Block) : Str :=
  str "cascade: unsupported block type " ++ quote b.type.name ++ str " (" ++ shortHash b.hash ++
    str ") on " ++ shortHash account ++
    str " — reversing its lease/keyset/reputation side-effects is not yet implemented"

/-- `planRollbackFrom`, given how to roll back a further send. -/
def planRollbackFrom (quote : Str → Str) (rollback : Str → Plan → M Plan)
    (account consumedSend : Str) (p : Plan) : M Plan := do
  match ← getAccountChain account with
  | none => pure p
  | some chain =>
    match chain.findIdx? (fun b => b.type == .receive && b.source == consumedSend) with
    | none => pure p
    | some recvIdx => do
      let fh ← finalHeight account
      failIf (recvIdx + 1 ≤ fh)
        (str "cascade: refusing to roll back finalized block at height " ++ dec (recvIdx + 1) ++
          str " (final height " ++ dec fh ++ str ") on " ++ shortHash account)
      planBlocks rollback (refuseCascade quote account) account (chain.drop recvIdx).reverse p

/-- `planRollbackOfSend`, to a depth of `fuel` further sends. -/
def planRollbackOfSend (quote : Str → Str) : ℕ → Str → Plan → M Plan
  | 0, _, _ => diverge
  | fuel + 1, sendHash, p => do
    match ← readStore (·.pending.get sendHash) with
    | some _ => pure p
    | none => do
      match ← getBlock sendHash with
      | none => pure p
      | some send =>
        if send.destination = [] then pure p
        else planRollbackFrom quote (planRollbackOfSend quote fuel) send.destination sendHash p

/-! ## The undo of a block -/

/-- The lease record before an accept, a cancel or a settlement. -/
def revertLease (target : LeaseState) (cur : Lease) : Lease :=
  if target = .created then
    { cur with state := target, settled := false, stake := 0, startTime := 0, lockedR := 0,
               lockedPayoutCap := 0, lockedTWAP := 0 }
  else { cur with state := target, settled := false }

/-- `priorLease`. -/
def priorLease (leaseHash : Str) (target : LeaseState) : M (Option Lease) :=
  readStore (fun st => (st.leases.get leaseHash).map (revertLease target))

/-- The record without its last renewal, if it has one. -/
def popRenewal (cur : Lease) : Option Lease :=
  if cur.renewals = [] then none else some { cur with renewals := cur.renewals.dropLast }

/-- `priorLeasePopRenewal`. -/
def priorLeasePopRenewal (leaseHash : Str) : M (Option Lease) :=
  readStore (fun st => (st.leases.get leaseHash).bind popRenewal)

/-- The escrow of a lease with its renewals, modulo 2^64. -/
def escrowAmount (base : UInt64) (lease : Option Lease) : UInt64 :=
  match lease with
  | none => base
  | some l => l.renewals.foldl (fun amount seg => amount + seg.cost) base

/-- `escrowPendingOf`. -/
def escrowPendingOf (leaseHash : Str) : M (Option PendingSend) := do
  match ← getBlock leaseHash with
  | none => pure none
  | some lb =>
    if lb.type ≠ .lease then pure none
    else do
      let lease ← readStore (·.leases.get leaseHash)
      pure (some
        { sendHash := lb.hash
          source := lb.account
          destination := lb.destination
          amount := escrowAmount lb.amount lease
          asset := assetXUSD })

/-- What undoing a block does to the pending entries, the leases and the keysets. -/
structure UndoEffect where
  addPending : Option PendingSend := none
  deletePendingID : Str := []
  deleteLeaseHash : Str := []
  restoreLease : Option Lease := none
  deleteKeysetAccount : Str := []
  reducePendingID : Str := []
  reducePendingAmount : UInt64 := 0
  assetDebit : Option AssetDelta := none
  repRevert : Option ReputationEvent := none

/-- The pending entry of a send, as the undo of its receive restores it. -/
def pendingOfSend (src : Block) : PendingSend where
  sendHash := src.hash
  source := src.account
  destination := src.destination
  amount := src.amount
  asset := assetOrXE src.asset

/-- The error of an undo whose lease is missing. -/
def undoLeaseMissing (b : Block) : Str :=
  str "undo: lease " ++ shortHash b.source ++ str " not found while reversing " ++ b.type.name

/-- A reputation event to take back: the parties of the restored record. -/
def revertEvent (kind : EventKind) (l : Lease) : ReputationEvent where
  kind := kind
  provider := l.provider
  consumer := l.consumer

/-- The switch of `buildBlockUndo` over the block's type. -/
def undoEffect (b : Block) : M UndoEffect :=
  match b.type with
  | .send => pure { deletePendingID := b.hash }
  | .receive => do
    let src ← getBlock b.source
    pure { addPending := (src.filter (fun s => s.type = .send)).map pendingOfSend }
  | .lease => pure { deletePendingID := b.hash, deleteLeaseHash := b.hash }
  | .leaseAccept => do
    let l ← orErr (← priorLease b.source .created) (undoLeaseMissing b)
    pure { restoreLease := some l, repRevert := some (revertEvent .leaseAccepted l) }
  | .leaseSettle => do
    let prior ← priorLease b.source .accepted
    let escrow ← escrowPendingOf b.source
    let l ← orErr prior (undoLeaseMissing b)
    pure { restoreLease := some l, addPending := escrow,
           assetDebit := some ⟨b.account, assetXUSD, l.stake⟩,
           repRevert := some { revertEvent .leaseSettled l with durationSecs := l.duration } }
  | .leaseForceSettle => do
    let prior ← priorLease b.source .accepted
    let escrow ← escrowPendingOf b.source
    let l ← orErr prior (undoLeaseMissing b)
    pure { restoreLease := some l, addPending := escrow,
           repRevert := some (revertEvent .leaseUnfulfilled l) }
  | .leaseCancel => do
    let prior ← priorLease b.source .created
    let escrow ← escrowPendingOf b.source
    let l ← orErr prior (undoLeaseMissing b)
    pure { restoreLease := some l, addPending := escrow,
           repRevert := some (revertEvent .leaseCancelled l) }
  | .leaseRenew => do
    let l ← orErr (← priorLeasePopRenewal b.source) (undoLeaseMissing b)
    pure { restoreLease := some l, reducePendingID := b.source, reducePendingAmount := b.amount }
  | .multisigOpen => pure { deleteKeysetAccount := b.account }
  | .multisigUpdate =>
    throwErr (str "undo: reversing a multisig_update is not supported (prior keyset " ++
      str "unrecoverable): " ++ shortHash b.hash)
  | .burn | .mint | .genesis | .other _ => pure {}

/-- The last representative declared on a chain. -/
def lastRep (chain : AccountChain) : Str :=
  ((chain.reverse.find? (fun b => b.representative ≠ [])).map (·.representative)).getD []

/-- `buildBlockUndo`: the undo of the last block of `chain`. -/
def buildBlockUndo (account : Str) (b : Block) (chain : Option AccountChain) :
    M (BlockUndo × MemUndo) := do
  failIf ((chain.bind List.getLast?).map (·.hash) ≠ some b.hash)
    (str "cascade apply: " ++ shortHash b.hash ++ str " is not the frontier of " ++
      shortHash account ++ str " (chain changed under the cascade)")
  let asset := assetOrXE b.asset
  let e ← undoEffect b
  let chain := chain.getD []
  let newChain := chain.dropLast
  let parentBal ← if b.previous = zeroPrev then pure 0
    else if asset = assetXUSD then readStore (fun st => xusdBalanceOnChain st.leases newChain)
    else pure (assetBalanceOnChain newChain asset)
  let deleteAccount := newChain.isEmpty
  let keyAccount := if b.pubKey ≠ [] then b.account else []
  pure (
    { account := account
      chain := newChain
      frontierHash := frontier newChain
      addPending := e.addPending
      deletePendingID := e.deletePendingID
      rejectHash := b.hash
      deleteAccount := deleteAccount
      restoreDelegation := true
      prevRep := lastRep newChain
      restoreLease := e.restoreLease
      deleteLeaseHash := e.deleteLeaseHash
      deleteKeysetAccount := e.deleteKeysetAccount
      deleteAccountKeyAccount := keyAccount
      assetDebit := e.assetDebit
      reducePendingID := e.reducePendingID
      reducePendingAmount := e.reducePendingAmount },
    { account := account
      asset := asset
      parentBal := parentBal
      xeBefore := assetBalanceOnChain chain assetXE
      xeAfter := assetBalanceOnChain newChain assetXE
      prevRep := lastRep newChain
      deleteAccount := deleteAccount
      deleteKeysetAccount := e.deleteKeysetAccount
      deleteAccountKeyAccount := keyAccount
      assetDebit := e.assetDebit
      repRevert := e.repRevert })

/-- The memory side of an undo: the closure that `buildBlockUndo` returns. -/
def MemUndo.apply (u : MemUndo) : M Unit := do
  if u.deleteKeysetAccount ≠ [] then
    writeMem (fun m => { m with keysets := m.keysets.del u.deleteKeysetAccount })
  if u.deleteAccountKeyAccount ≠ [] then
    writeMem (fun m => { m with accountKeys := m.accountKeys.del u.deleteAccountKeyAccount })
  if u.deleteAccount then writeMem (Memory.deleteAccountBalances u.account)
  else writeMem (Memory.setAssetBalance u.account u.asset u.parentBal)
  match u.assetDebit with
  | some d => writeMem (Memory.subAssetBalance d)
  | none => pure ()
  writeMem (Memory.restoreDelegation u)
  match u.repRevert with
  | some ev => Prog.wr (State.revertReputation ev)
  | none => pure ()

/-- `undoBlockApply`. -/
def undoBlockApply (account : Str) (b : Block) : M Unit := do
  let chain ← getAccountChain account
  let (u, m) ← buildBlockUndo account b chain
  txnStore (Store.commitUndo u)
  m.apply

end Xe
