import XeLattice.Core.State

/-!
# The ledger's memory

Balances, representatives and reputation as `core/ledger.go`, `core/repeligibility.go` and
`core/reputation.go` keep them in memory.
-/

set_option autoImplicit false

namespace Xe

namespace Memory

/-! ## Balances -/

/-- `getAssetBalance`. -/
def getAssetBalance (m : Memory) (account asset : Str) : UInt64 :=
  match m.assetBalances.get account with
  | none => 0
  | some bals => (bals.get asset).getD 0

/-- `setAssetBalance`. -/
def setAssetBalance (account asset : Str) (balance : UInt64) (m : Memory) : Memory :=
  { m with
    assetBalances := m.assetBalances.set account
      (((m.assetBalances.get account).getD .empty).set asset balance) }

/-- `addAssetBalance`, modulo 2^64. -/
def addAssetBalance (d : AssetDelta) (m : Memory) : Memory :=
  m.setAssetBalance d.account d.asset (m.getAssetBalance d.account d.asset + d.amount)

/-- `subAssetBalance`, which stops at zero and leaves an unknown account alone. -/
def subAssetBalance (d : AssetDelta) (m : Memory) : Memory :=
  match m.assetBalances.get d.account with
  | none => m
  | some _ =>
    let bal := m.getAssetBalance d.account d.asset
    m.setAssetBalance d.account d.asset (if d.amount ≥ bal then 0 else bal - d.amount)

/-- `deleteAccountBalances`. -/
def deleteAccountBalances (account : Str) (m : Memory) : Memory :=
  { m with assetBalances := m.assetBalances.del account }

/-! ## Keys -/

/-- `setKeyset`. -/
def setKeyset (account : Str) (ks : Keyset) (m : Memory) : Memory :=
  { m with keysets := m.keysets.set account ks }

/-- `setAccountKey`. -/
def setAccountKey (account pubKey : Str) (m : Memory) : Memory :=
  { m with accountKeys := m.accountKeys.set account pubKey }

/-- `blockCount.Add`. -/
def addBlockCount (n : ℤ) (m : Memory) : Memory :=
  { m with blockCount := m.blockCount + n }

/-! ## Delegation -/

/-- The representative of an account, empty when it has none. -/
def repOf (m : Memory) (account : Str) : Str :=
  (m.delegation.get account).getD []

/-- The weight of a representative. -/
def weightOf (m : Memory) (rep : Str) : ℕ :=
  (m.weights.get rep).getD 0

/-- The representative of an account. -/
def setRep (account rep : Str) (m : Memory) : Memory :=
  { m with
    delegation := if rep = [] then m.delegation.del account else m.delegation.set account rep }

/-- Takes `bal` from the weight of `rep`, stopping at zero. -/
def subWeight (rep : Str) (bal : UInt64) (m : Memory) : Memory :=
  { m with weights := m.weights.set rep (m.weightOf rep - bal.toNat) }

/-- Adds `bal` to the weight of `rep`. -/
def addWeight (rep : Str) (bal : UInt64) (m : Memory) : Memory :=
  { m with weights := m.weights.set rep (m.weightOf rep + bal.toNat) }

/-- The part of `updateDelegation` under the delegation mutex. -/
def moveDelegation (account newRep : Str) (prevXEBal newXEBal : UInt64) (m : Memory) : Memory :=
  let oldRep := m.repOf account
  let effectiveRep := if newRep = [] then oldRep else newRep
  let m₁ := if oldRep = [] then m
    else { m.subWeight oldRep prevXEBal with
      delegationUnderflow := if m.weightOf oldRep < prevXEBal.toNat
        then m.delegationUnderflow + 1 else m.delegationUnderflow }
  let m₂ := m₁.setRep account effectiveRep
  if effectiveRep = [] then m₂ else m₂.addWeight effectiveRep newXEBal

/-- The delegation part of the closure of `buildBlockUndo`. -/
def restoreDelegation (u : MemUndo) (m : Memory) : Memory :=
  let curRep := m.repOf u.account
  let m₁ := if curRep = [] ∨ m.weights.get curRep = none then m
    else m.subWeight curRep u.xeBefore
  let m₂ := if u.prevRep = [] then m₁ else m₁.addWeight u.prevRep u.xeAfter
  m₂.setRep u.account u.prevRep

/-! ## Election weights -/

/-- `allowlist` of a representative configuration: `none` when it does not restrict. -/
def allowlist : Option RepresentativeConfig → Option (Finset Str)
  | none => none
  | some cfg =>
    if cfg.allowlistMode = false then none
    else
      let set := (cfg.addresses.filter (· ≠ [])).toFinset
      if set = ∅ then none else some set

/-- `eligibleAllowlistLocked`: an allowlist that matches no delegated weight is ignored. -/
def eligibleAllowlist (m : Memory) (cfg : Option RepresentativeConfig) : Option (Finset Str) :=
  match allowlist cfg with
  | none => none
  | some set => if ∃ rep ∈ set, 0 < m.weightOf rep then some set else none

/-- `repEligibleLocked`. -/
def repEligible (set : Option (Finset Str)) (rep : Str) : Bool :=
  match set with
  | none => true
  | some set => decide (rep ∈ set)

/-- `GetVoteWeight`. -/
def voteWeight (m : Memory) (cfg : Option RepresentativeConfig) (rep : Str) : ℕ :=
  if repEligible (m.eligibleAllowlist cfg) rep then m.weightOf rep else 0

/-- `GetTotalDelegatedWeight`. -/
def totalDelegatedWeight (m : Memory) (cfg : Option RepresentativeConfig) : ℕ :=
  match m.eligibleAllowlist cfg with
  | some set => ∑ rep ∈ set, m.weightOf rep
  | none => m.weights.sum (fun _ w => w)

/-- `snapshotWeights`. -/
def snapshotWeights (m : Memory) (cfg : Option RepresentativeConfig) : Table Str UInt64 :=
  m.weights.filterMap (fun rep w =>
    if 0 < w ∧ repEligible (m.eligibleAllowlist cfg) rep = true then
      some (if w < 2 ^ 64 then UInt64.ofNat w else UInt64.ofNat (2 ^ 64 - 1))
    else none)

end Memory

/-- The total of a snapshot, summed in 64 bits. -/
def snapshotTotal (snap : Table Str UInt64) : UInt64 :=
  UInt64.ofNat (snap.sum (fun _ w => w.toNat))

/-! ## Reputation -/

/-- The activity span of an account, widened to include `ts`. -/
def ReputationAggregate.touch (agg : ReputationAggregate) (ts : Int64) : ReputationAggregate :=
  { agg with
    firstActivityAt := if agg.firstActivityAt = 0 ∨ ts < agg.firstActivityAt then ts
      else agg.firstActivityAt
    lastActivityAt := if ts > agg.lastActivityAt then ts else agg.lastActivityAt }

/-- Applies `f` when `c` holds. -/
def applyIf {α : Type} (c : Prop) [Decidable c] (f : α → α) (a : α) : α :=
  if c then f a else a

/-- The counters an event raises by one and by its duration, and those it lowers on a revert: the
common shape of `ApplyReputationDelta` and `RevertReputationDelta`. -/
def ReputationAggregate.count (op : UInt64 → UInt64 → UInt64) (ev : ReputationEvent)
    (isProvider isConsumer : Bool) (agg : ReputationAggregate) : ReputationAggregate :=
  match ev.kind with
  | .leaseAccepted =>
    applyIf (isConsumer = true) (fun a =>
        { a with leasesAcceptedAsConsumer := op a.leasesAcceptedAsConsumer 1 })
      (applyIf (isProvider = true) (fun a =>
        { a with leasesAcceptedAsProvider := op a.leasesAcceptedAsProvider 1 }) agg)
  | .leaseSettled =>
    applyIf (isConsumer = true) (fun a => { a with
        leasesSettledAsConsumer := op a.leasesSettledAsConsumer 1
        leaseHoursSettledAsConsumer := op a.leaseHoursSettledAsConsumer ev.durationSecs })
      (applyIf (isProvider = true) (fun a => { a with
        leasesSettledAsProvider := op a.leasesSettledAsProvider 1
        leaseHoursSettledAsProvider := op a.leaseHoursSettledAsProvider ev.durationSecs }) agg)
  | .leaseCancelled =>
    applyIf (isConsumer = true) (fun a =>
      { a with leasesCancelledAsConsumer := op a.leasesCancelledAsConsumer 1 }) agg
  | .leaseUnfulfilled =>
    applyIf (isConsumer = true) (fun a =>
        { a with leasesUnfulfilledAsConsumer := op a.leasesUnfulfilledAsConsumer 1 })
      (applyIf (isProvider = true) (fun a =>
        { a with leasesUnfulfilledAsProvider := op a.leasesUnfulfilledAsProvider 1 }) agg)

/-- `ApplyReputationDelta`. -/
def applyReputationDelta (agg : ReputationAggregate) (account : Str) (ev : ReputationEvent) :
    ReputationAggregate :=
  if account = [] ∨ (account ≠ ev.provider ∧ account ≠ ev.consumer) then agg
  else (agg.count (· + ·) ev (account == ev.provider) (account == ev.consumer)).touch ev.timestamp

/-- The counter decrement of `RevertReputationDelta`, which stops at zero. -/
def decCounter (c d : UInt64) : UInt64 :=
  if c < d then 0 else c - d

/-- `RevertReputationDelta`. -/
def revertReputationDelta (agg : ReputationAggregate) (account : Str) (ev : ReputationEvent) :
    ReputationAggregate :=
  if account = [] ∨ (account ≠ ev.provider ∧ account ≠ ev.consumer) then agg
  else agg.count decCounter ev (account == ev.provider) (account == ev.consumer)

/-- `hasNoCounters`. -/
def ReputationAggregate.hasNoCounters (a : ReputationAggregate) : Bool :=
  decide ({ a with firstActivityAt := 0, lastActivityAt := 0 } = ({} : ReputationAggregate))

/-- `AffectedAccounts`. -/
def ReputationEvent.affectedAccounts (ev : ReputationEvent) : List Str :=
  (if ev.provider ≠ [] then [ev.provider] else []) ++
    (if ev.consumer ≠ [] ∧ ev.consumer ≠ ev.provider then [ev.consumer] else [])

namespace State

/-- Puts an aggregate into the engine and its store. -/
def putReputation (account : Str) (agg : ReputationAggregate) (s : State) : State :=
  { s with
    mem := { s.mem with reputation := s.mem.reputation.set account agg }
    store := { s.store with reputation := s.store.reputation.set account agg } }

/-- `DeleteReputation`. -/
def deleteReputation (account : Str) (s : State) : State :=
  { s with
    mem := { s.mem with reputation := s.mem.reputation.del account }
    store := { s.store with reputation := s.store.reputation.del account } }

/-- One account of `ReputationEngine.Apply`. -/
def applyReputationTo (ev : ReputationEvent) (s : State) (account : Str) : State :=
  let agg := (s.mem.reputation.get account).getD {}
  s.putReputation account (applyReputationDelta agg account ev)

/-- `ReputationEngine.Apply`, under the engine's mutex. -/
def applyReputation (ev : ReputationEvent) (s : State) : State :=
  ev.affectedAccounts.foldl (applyReputationTo ev) s

/-- One account of `ReputationEngine.Revert`. -/
def revertReputationOf (ev : ReputationEvent) (s : State) (account : Str) : State :=
  match s.mem.reputation.get account with
  | none => s
  | some agg =>
    let agg := revertReputationDelta agg account ev
    if agg.hasNoCounters then s.deleteReputation account else s.putReputation account agg

/-- `ReputationEngine.Revert`, under the engine's mutex. -/
def revertReputation (ev : ReputationEvent) (s : State) : State :=
  ev.affectedAccounts.foldl (revertReputationOf ev) s

end State

end Xe
