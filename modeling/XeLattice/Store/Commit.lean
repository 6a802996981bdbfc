import XeLattice.Core.State

/-!
# Store transactions

`CommitBlock`, `CommitUndo` and `CommitCascade` of `store/mem_store.go` and
`store/badger_store.go`.  The two stores write the same tables; they differ in what they do when an
entry they are told to change is missing (the memory store passes over it, badger refuses), and in
where a cascade checks the lease it expects.
-/

set_option autoImplicit false

namespace Xe

namespace Store

/-! ## The parts of a write request -/

/-- `PutPendingSend`. -/
def putPending (st : Store) : Option PendingSend → Store
  | none => st
  | some ps => { st with pending := st.pending.set ps.sendHash ps }

/-- Deletes the entry that is named. -/
def deletePending (st : Store) (id : Str) : Store :=
  if id = [] then st else { st with pending := st.pending.del id }

/-- `PutLease`. -/
def putLease (st : Store) : Option Lease → Store
  | none => st
  | some l => { st with leases := st.leases.set l.leaseHash l }

/-- The memory store adds `delta` to a pending amount, modulo 2^64, if there is one. -/
def memAddAmount (st : Store) (id : Str) (delta : UInt64) : Store :=
  if id = [] then st
  else
    match st.pending.get id with
    | none => st
    | some ps => { st with pending := st.pending.set id { ps with amount := ps.amount + delta } }

/-- `addToPendingAmountTxn`. -/
def addToPendingAmount (st : Store) (id : Str) (delta : Int64) : Except Fault Store :=
  if id = [] then .ok st
  else
    match st.pending.get id with
    | none =>
      .error (.err (errorf (str "addToPendingAmount: pending " ++ shortStr id ++ str " not found")))
    | some ps =>
      if delta < 0 ∧ (-delta).toUInt64 > ps.amount then
        .error (.err (errorf (str "addToPendingAmount: pending " ++ shortStr id ++
          str " underflow (amount " ++ dec ps.amount.toNat ++ str ", delta " ++
          decInt delta.toInt ++ str ")")))
      else
        let amount := if delta < 0 then ps.amount - (-delta).toUInt64 else ps.amount + delta.toUInt64
        .ok { st with pending := st.pending.set id { ps with amount := amount } }

/-- A change of a lease record, which badger refuses when there is none. -/
def changeLease (st : Store) (verb : String) (h : Str) (f : Lease → Lease) :
    Except Fault Store :=
  if h = [] then .ok st
  else
    match st.leases.get h with
    | some l => .ok { st with leases := st.leases.set h (f l) }
    | none =>
      match st.kind with
      | .mem => .ok st
      | .badger => errWith12 (str "CommitBlock: " ++ str verb ++ str " lease ") h
          (str ": Key not found")

/-- The three changes a commit makes to a lease record. -/
def changeLeases (st : Store) (c : BlockCommit) : Except Fault Store := do
  let st ← st.changeLease "settle" c.settleLeaseHash
    (fun l => { l with settled := true, state := .settled })
  let st ← st.changeLease "cancel" c.cancelLeaseHash (fun l => { l with state := .cancelled })
  st.changeLease "force-settle" c.unfulfillLeaseHash
    (fun l => { l with settled := true, state := .unfulfilled })

/-! ## Commits -/

/-- An error about a lease that is not what a commit expects. -/
def casError {α : Type} (before h : Str) (after : Str) : Except Fault α := do
  let short ← slice12 h
  .error (.err { errLeaseStateConflict with
    msg := before ++ errLeaseStateConflict.msg ++ str ": lease " ++ short ++ after })

/-- The compare-and-set on the lease a commit expects. -/
def casLease (before : Str) (lease : Option Lease) (c : BlockCommit) : Except Fault Unit :=
  if c.expectLeaseHash = [] then .ok ()
  else
    match lease with
    | none => casError before c.expectLeaseHash (str " not found")
    | some l =>
      if l.state ≠ c.expectLeaseState then
        casError before c.expectLeaseHash (str " is " ++ l.state.name ++ str ", want " ++
          c.expectLeaseState.name)
      else if c.expectLeaseEffectiveDurationSecs ≠ 0 ∧
          l.effectiveDurationSecs ≠ c.expectLeaseEffectiveDurationSecs then
        casError before c.expectLeaseHash (str " effective duration " ++
          dec l.effectiveDurationSecs.toNat ++ str ", want " ++
          dec c.expectLeaseEffectiveDurationSecs.toNat)
      else .ok ()

/-- `PutBlock`. -/
def putBlock (st : Store) (c : BlockCommit) : Store :=
  { st with
    blocks := st.blocks.set c.block.hash c.block
    chains := st.chains.set c.account c.chain
    frontiers := if c.frontierHash = [] then st.frontiers
      else st.frontiers.set c.account c.frontierHash }

/-- The delegation, the keyset and the account key. -/
def putAccountData (st : Store) (c : BlockCommit) : Store :=
  { st with
    delegations := if c.deleteDelegation then st.delegations.del c.account
      else if c.delegationRep = [] then st.delegations
      else st.delegations.set c.account c.delegationRep
    keysets := match c.putKeyset with
      | none => st.keysets
      | some ks => st.keysets.set c.account ks
    accountKeys := if c.putAccountKey = [] then st.accountKeys
      else st.accountKeys.set c.account c.putAccountKey }

/-- The pending entries and the leases: the memory store tops up last of the pending changes,
badger before it deletes. -/
def putEscrow (st : Store) (c : BlockCommit) : Except Fault Store :=
  match st.kind with
  | .mem =>
    ((((st.putPending c.addPending).deletePending c.deletePendingID).memAddAmount
      c.topUpPendingID c.topUpPendingAmount).putLease c.putLease).changeLeases c
  | .badger => do
    let st ← ((st.putPending c.addPending).putLease c.putLease).changeLeases c
    let st ← st.addToPendingAmount c.topUpPendingID c.topUpPendingAmount.toInt64
    .ok (st.deletePending c.deletePendingID)

/-- `applyCommitLocked` and `applyCommitTxn`. -/
def applyCommit (st : Store) (c : BlockCommit) : Except Fault Store := do
  casLease (str "CommitBlock: ") (st.leases.get c.expectLeaseHash) c
  let st ← (st.putBlock c).putEscrow c
  .ok (st.putAccountData c)

/-! ## Undos -/

/-- The shortened chain, or no account at all. -/
def takeBlock (st : Store) (u : BlockUndo) : Store :=
  if u.deleteAccount then
    { st with chains := st.chains.del u.account, frontiers := st.frontiers.del u.account }
  else
    { st with
      chains := st.chains.set u.account u.chain
      frontiers := st.frontiers.set u.account u.frontierHash }

/-- Takes back the top-up of a renewal. -/
def reducePending (st : Store) (u : BlockUndo) : Except Fault Store :=
  match st.kind with
  | .mem => .ok (st.memAddAmount u.reducePendingID (-u.reducePendingAmount))
  | .badger => st.addToPendingAmount u.reducePendingID (-u.reducePendingAmount.toInt64)

/-- The status, the delegation, the lease record, the keyset and the account key. -/
def restoreAccountData (st : Store) (u : BlockUndo) : Store :=
  { st with
    blockStatus := if u.rejectHash = [] then st.blockStatus
      else st.blockStatus.set u.rejectHash .rejected
    delegations := if u.restoreDelegation = false then st.delegations
      else if u.prevRep = [] then st.delegations.del u.account
      else st.delegations.set u.account u.prevRep
    leases :=
      let ls := match u.restoreLease with
        | none => st.leases
        | some l => st.leases.set l.leaseHash l
      if u.deleteLeaseHash = [] then ls else ls.del u.deleteLeaseHash
    keysets := if u.deleteKeysetAccount = [] then st.keysets
      else st.keysets.del u.deleteKeysetAccount
    accountKeys := if u.deleteAccountKeyAccount = [] then st.accountKeys
      else st.accountKeys.del u.deleteAccountKeyAccount }

/-- `applyUndoLocked` and `applyUndoTxn`. -/
def applyUndo (st : Store) (u : BlockUndo) : Except Fault Store := do
  let st ← (st.takeBlock u).reducePending u
  .ok (((st.deletePending u.deletePendingID).putPending u.addPending).restoreAccountData u)

/-- The undos of a cascade, in order; `i` of `n` are done. -/
def applyUndos (n : ℕ) (st : Store) (i : ℕ) : List BlockUndo → Except Fault Store
  | [] => .ok st
  | u :: us =>
    match st.applyUndo u with
    | .ok st => st.applyUndos n (i + 1) us
    | .error .panic => .error .panic
    | .error (.err e) =>
      .error (.err (e.wrap (str "undo " ++ dec (i + 1) ++ str "/" ++ dec n ++
        (if st.kind = .badger then str " (" ++ shortStr u.account ++ str ")" else []) ++
        str ": ")))

/-! ## Transactions -/

/-- Adds a prefix to the error of a transaction. -/
def wrapFault (before : Str) : Fault → Fault
  | .err e => .err (e.wrap before)
  | .panic => .panic

/-- `CommitBlock`. -/
def commitBlock (c : BlockCommit) (st : Store) : Except Fault Unit × Store :=
  match st.applyCommit c with
  | .ok st' => (.ok (), st')
  | .error e => (.error e, st)

/-- `CommitUndo`. -/
def commitUndo (u : BlockUndo) (st : Store) : Except Fault Unit × Store :=
  match st.applyUndo u with
  | .ok st' => (.ok (), st')
  | .error e => (.error e, st)

/-- The lease that the undos of a cascade leave under `h`. -/
def leaseAfterUndos (h : Str) (lease : Option Lease) : List BlockUndo → Option Lease
  | [] => lease
  | u :: us =>
    let lease := match u.restoreLease with
      | some l => if l.leaseHash = h then some l else lease
      | none => lease
    leaseAfterUndos h (if u.deleteLeaseHash = h then none else lease) us

/-- `CommitCascade`. The memory store checks the expected lease before it writes and has no way
back once it does; badger runs everything in one transaction. -/
def commitCascade (undos : List BlockUndo) (c : BlockCommit) (st : Store) :
    Except Fault Unit × Store :=
  let label := str "CommitCascade: " ++ dec undos.length ++ str " undo(s) + winner: "
  match st.kind with
  | .mem =>
    match casLease label (leaseAfterUndos c.expectLeaseHash (st.leases.get c.expectLeaseHash) undos)
        c with
    | .error e => (.error e, st)
    | .ok _ =>
      match st.applyUndos undos.length 0 undos with
      | .error e => (.error (wrapFault (str "CommitCascade: ") e), st)
      | .ok st₁ =>
        match st₁.applyCommit c with
        | .error e => (.error (wrapFault (str "CommitCascade: winner commit: ") e), st₁)
        | .ok st₂ => (.ok (), st₂)
  | .badger =>
    match st.applyUndos undos.length 0 undos with
    | .error e => (.error (wrapFault label e), st)
    | .ok st₁ =>
      match st₁.applyCommit c with
      | .error e => (.error (wrapFault (label ++ str "winner commit: ") e), st)
      | .ok st₂ => (.ok (), st₂)

end Store

end Xe
