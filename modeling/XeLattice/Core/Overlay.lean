import XeLattice.Core.Memory

/-!
# Reads through the cascade overlay

`core/cascade_commit.go`.  While a promotion is being validated the ledger's reads see the store as
if the promotion's undos were already applied: the overlay is global, so that every call reads
through it, and a call commits the undos together with its own block when its block is the winner.
-/

set_option autoImplicit false

namespace Xe

/-! ## Balances of a chain -/

/-- `assetBalanceOnChain`: the balance of the last block of the asset. -/
def assetBalanceOnChain (chain : AccountChain) (asset : Str) : UInt64 :=
  chain.foldl (fun bal b => if assetOrXE b.asset = asset then b.balance else bal) 0

/-- The stake that a settlement pays back. -/
def stakeOf (leases : Table Str Lease) (b : Block) : UInt64 :=
  if b.type = .leaseSettle then ((leases.get b.source).map (·.stake)).getD 0 else 0

/-- `xusdBalanceOnChain`. -/
def xusdBalanceOnChain (leases : Table Str Lease) (chain : AccountChain) : UInt64 :=
  chain.foldl (fun bal b =>
    (if assetOrXE b.asset = assetXUSD then b.balance else bal) + stakeOf leases b) 0

/-- `GetAssetBalanceAtBlock`. -/
def assetBalanceAtBlock (leases : Table Str Lease) (asset blockHash : Str) (bal : UInt64) :
    AccountChain → UInt64
  | [] => bal
  | b :: bs =>
    let bal := (if assetOrXE b.asset = asset then b.balance else bal) +
      (if asset = assetXUSD then stakeOf leases b else 0)
    if b.hash = blockHash then bal else assetBalanceAtBlock leases asset blockHash bal bs

/-! ## The overlay of a cascade -/

namespace CascadeBuild

/-- `addUndo`. -/
def addUndo (cb : CascadeBuild) (u : BlockUndo) (m : MemUndo) : CascadeBuild where
  winnerHash := cb.winnerHash
  undos := cb.undos ++ [u]
  memApplies := cb.memApplies ++ [m]
  chains := cb.chains.set u.account u.chain
  addPending :=
    let t := match u.addPending with
      | none => cb.addPending
      | some ps => cb.addPending.set ps.sendHash ps
    if u.deletePendingID = [] then t else t.del u.deletePendingID
  delPending :=
    let t := match u.addPending with
      | none => cb.delPending
      | some ps => cb.delPending.del ps.sendHash
    if u.deletePendingID = [] then t else t.set u.deletePendingID ()
  restoreLease :=
    let t := match u.restoreLease with
      | none => cb.restoreLease
      | some l => cb.restoreLease.set l.leaseHash l
    if u.deleteLeaseHash = [] then t else t.del u.deleteLeaseHash
  deleteLease :=
    let t := match u.restoreLease with
      | none => cb.deleteLease
      | some l => cb.deleteLease.del l.leaseHash
    if u.deleteLeaseHash = [] then t else t.set u.deleteLeaseHash ()
  deleteKeyset := if u.deleteKeysetAccount = [] then cb.deleteKeyset
    else cb.deleteKeyset.set u.deleteKeysetAccount ()
  delegation := if u.restoreDelegation then cb.delegation.set u.account u.prevRep
    else cb.delegation

end CascadeBuild

/-- `activeCascadeFor`. -/
def activeCascadeFor : M (Option CascadeBuild) :=
  readMem (·.activeCascade)

/-- `overlayChain`. -/
def overlayChain (account : Str) : M (Option AccountChain) := do
  let cb ← activeCascadeFor
  pure (cb.bind (·.chains.get account))

/-- `getAccountChainOverlay`. -/
def getAccountChainOverlay (account : Str) : M (Option AccountChain) := do
  match ← overlayChain account with
  | some ch => pure (some ch)
  | none => readStore (·.chains.get account)

/-- What the overlay says about an entry: nothing, its value, or that it is gone. -/
def overlayEntry {V : Type} (put : CascadeBuild → Table Str V) (del : CascadeBuild → Table Str Unit)
    (cb : Option CascadeBuild) (k : Str) : Option (Option V) :=
  match cb with
  | none => none
  | some cb =>
    match (put cb).get k with
    | some v => some (some v)
    | none => if ((del cb).get k).isSome then some none else none

/-- `getPendingSendOverlay`. -/
def getPendingSendOverlay (sendHash : Str) : M (Option PendingSend) := do
  let cb ← activeCascadeFor
  match overlayEntry (·.addPending) (·.delPending) cb sendHash with
  | some ps => pure ps
  | none => readStore (·.pending.get sendHash)

/-- `getLeaseOverlay`; both stores keep leases. -/
def getLeaseOverlay (leaseHash : Str) : M (Option Lease) := do
  let cb ← activeCascadeFor
  match overlayEntry (·.restoreLease) (·.deleteLease) cb leaseHash with
  | some l => pure l
  | none => readStore (·.leases.get leaseHash)

/-- `GetKeyset`. -/
def getKeyset (account : Str) : M (Option Keyset) :=
  readMem (·.keysets.get account)

/-- `getKeysetOverlay`. -/
def getKeysetOverlay (account : Str) : M (Option Keyset) := do
  let cb ← activeCascadeFor
  if (cb.bind (·.deleteKeyset.get account)).isSome then pure none else getKeyset account

/-- `getAssetBalanceOverlay`. -/
def getAssetBalanceOverlay (account asset : Str) : M UInt64 := do
  match ← overlayChain account with
  | some ch =>
    if assetOrXE asset = assetXUSD then readStore (fun st => xusdBalanceOnChain st.leases ch)
    else pure (assetBalanceOnChain ch (assetOrXE asset))
  | none => readMem (·.getAssetBalance account asset)

/-- `overlayDelegationRep`. -/
def overlayDelegationRep (account : Str) : M (Option Str) := do
  let cb ← activeCascadeFor
  pure (cb.bind (·.delegation.get account))

/-- `activateCascade`. -/
def activateCascade (cb : CascadeBuild) : M Unit :=
  Prog.txn (fun s => match s.mem.activeCascade with
    | some active =>
      .error (.err (errorf (str "activateCascade: a conflict promotion is already in progress (winner "
        ++ shortHash active.winnerHash ++ str ") — promotions must be serialized")))
    | none => .ok ((), { s with mem := { s.mem with activeCascade := some cb } }))

/-- `deactivateCascade`. -/
def deactivateCascade : M Unit :=
  writeMem (fun m => { m with activeCascade := none })

/-! ## Other reads -/

/-- `GetBlock`. -/
def getBlock (hash : Str) : M (Option Block) :=
  readStore (·.blocks.get hash)

/-- `GetBlockOrStaged`. -/
def getBlockOrStaged (hash : Str) : M (Option Block) := do
  match ← getBlock hash with
  | some b => pure (some b)
  | none => readStore (·.staged.get hash)

/-- `GetAccountChain` of the store. -/
def getAccountChain (account : Str) : M (Option AccountChain) :=
  readStore (·.chains.get account)

/-- `GetConflict`. -/
def getConflict (account previous : Str) : M (Option Conflict) :=
  readStore (·.conflicts.get (account, previous))

/-- `FinalHeight`. -/
def finalHeight (account : Str) : M ℕ :=
  readStore (·.finalHeightOf account)

/-- The height of a hash on a chain. -/
def heightOn (chain : AccountChain) (hash : Str) : Option ℕ :=
  (chain.findIdx? (fun b => b.hash == hash)).map (· + 1)

/-- `GetBlockHeight`, `none` standing for its errors. -/
def getBlockHeight (account hash : Str) : M (Option ℕ) := do
  let chain ← getAccountChain account
  pure (chain.bind (heightOn · hash))

/-- `IsFinalized`. -/
def isFinalized (account hash : Str) : M Bool := do
  match ← getBlockHeight account hash with
  | none => pure false
  | some h => do
    let fh ← finalHeight account
    pure (decide (h ≤ fh))

end Xe
