import XeLattice.Core.Handlers

/-!
# The lease handlers

A lease moves value into escrow; the provider accepts it, the consumer may renew it, and it ends
with exactly one of `lease_settle` (the escrow is burned and XE emitted), `lease_cancel` and
`lease_force_settle` (the escrow goes back to the consumer).  A cancel that meets an accept which
is not final takes the provider's accept off its chain first (`resolveCancelWinsOverAccept`).
-/

set_option autoImplicit false

namespace Xe

/-! ## Checks shared by the lease handlers -/

/-- The lease block that `b.source` names. -/
def checkLeaseBlock (b : Block) : M Block := do
  let leaseBlock ← orErr (← getBlock b.source)
    (str "source lease block not found: " ++ shortHash b.source)
  failIf (leaseBlock.type ≠ .lease) (str "source block is not a lease block")
  pure leaseBlock

/-- The record of a lease that is accepted, or why it is not. -/
def checkAccepted (b : Block) (op : String) (notLive : Lease → Str) : M Lease := do
  let lease ← orErr (← getLeaseOverlay b.source) (str "lease not found: " ++ shortHash b.source)
  failIf (lease.settled = true) (str "lease already settled")
  failIf (lease.state = .created)
    (str "lease not yet accepted for " ++ str op ++ str " (state " ++ lease.state.name ++
      str "): retry after accept")
  failIf (lease.state ≠ .accepted) (notLive lease)
  pure lease

/-- The attested time of a lease operation. -/
def checkAttestations (c : Ctx) (b : Block) (op : String) (skipSkew : Bool) : M Int64 := do
  let tkConfig ← orErr c.timekeepers (str op ++ str ": timekeepers not configured")
  liftFault ((validateAttestations c.lib b.attestations b.source tkConfig skipSkew c.now
    c.timing.maxAttestationSkew).mapError (Store.wrapFault (str op ++ str " attestation: ")))

/-- `(R=… cap=… twap=…)`. -/
def epochText (r cap twap : UInt64) : Str :=
  str "(R=" ++ dec r.toNat ++ str " cap=" ++ dec cap.toNat ++ str " twap=" ++ dec twap.toNat ++
    str ")"

/-- `validateLockedEmissionAt`. -/
def validateLockedEmissionAt (c : Ctx) (atTime : Int64) (b : Block) (skipSkew : Bool)
    (op : String) : M Unit :=
  match c.epochAt with
  | none => pure ()
  | some epochAt =>
    match epochAt atTime with
    | [] => throwErr (str op ++ str " epoch not yet available for time " ++ decInt atTime.toInt ++
        str ": retry after statechain syncs")
    | cur :: rest =>
      failIf (¬ ∃ e ∈ cur :: rest, b.lockedR = e.r ∧ b.lockedPayoutCap = e.payoutCap ∧
          b.lockedTWAP = e.twap)
        (str op ++ str " locked emission mismatch" ++
          (if skipSkew then str " on sync" else []) ++ str ": block " ++
          epochText b.lockedR b.lockedPayoutCap b.lockedTWAP ++ str " != epoch@time " ++
          epochText cur.r cur.payoutCap cur.twap ++
          (if skipSkew then str ": retry after statechain syncs" else []))

/-! ## Creating and accepting -/

/-- The access key of a lease, when it has one, spells 32 bytes. -/
def checkAccessKey (b : Block) : M Unit :=
  if b.accessPubKey = [] then pure ()
  else
    match hexDecode b.accessPubKey with
    | .error e => throwErr (str "invalid access_pub_key hex: " ++ e)
    | .ok bytes =>
      failIf (bytes.length ≠ 32)
        (str "access_pub_key must be 32 bytes, got " ++ dec bytes.length)

/-- The certificate of a lease. -/
def checkLeaseCertificate (c : Ctx) (b : Block) : M CertificateInfo := do
  failIf (b.certificateHash = []) (str "lease block must include certificate_hash")
  let lookup ← orErr c.certificateLookup
    (str "lease block cannot be validated: certificate lookup not configured")
  let cert ← orErr (lookup b.certificateHash)
    (str "certificate " ++ shortHash b.certificateHash ++ str " not found")
  failIf (cert.provider ≠ b.destination)
    (str "certificate " ++ shortHash b.certificateHash ++ str " belongs to " ++
      shortHash cert.provider ++ str ", not lease destination " ++ shortHash b.destination)
  failIf (cert.expiresAt ≠ 0 ∧ b.timestamp > cert.expiresAt)
    (str "certificate " ++ shortHash b.certificateHash ++ str " expired at " ++
      decInt cert.expiresAt.toInt ++ str ", lease timestamp " ++ decInt b.timestamp.toInt)
  pure cert

/-- `cost mismatch`. -/
def checkCost (c : Ctx) (op : String) (b : Block) (vcpus memoryMB diskGB : UInt64)
    (cert : CertificateInfo) : M Unit := do
  let expectedCost ← liftErr (str op ++ str " cost ") (leaseCost c.timing.minDuration vcpus
    memoryMB diskGB b.duration cert.priceMultiplierMilli)
  failIf (b.amount ≠ expectedCost)
    (str op ++ str " cost mismatch: expected " ++ dec expectedCost.toNat ++ str " (multiplier " ++
      dec cert.priceMultiplierMilli.toNat ++ str "), got " ++ dec b.amount.toNat)

/-- The record of a new lease. -/
def leaseRecord (b : Block) : Lease where
  leaseHash := b.hash
  state := .created
  consumer := b.account
  provider := b.destination
  vcpus := b.vcpus
  memoryMB := b.memoryMB
  diskGB := b.diskGB
  duration := b.duration
  accessPubKey := b.accessPubKey
  cost := b.amount
  certificateHash := b.certificateHash

/-- The checks of `validateAndAddLease`. -/
def prepareLease (c : Ctx) (b : Block) : M Prepared := do
  failIf (b.asset ≠ assetXUSD) (str "lease block must have asset=XUSD")
  failIf (b.destination = []) (str "lease block must have a destination (provider)")
  failIf (b.destination = b.account) (str "cannot lease to self")
  liftErr [] (validateLeaseDimensions c.timing.minDuration b.vcpus b.memoryMB b.diskGB b.duration)
  checkAccessKey b
  let cert ← checkLeaseCertificate c b
  checkCost c "lease" b b.vcpus b.memoryMB b.diskGB cert
  let _ ← checkExtends b (str "lease from unopened account")
  checkSpend b assetXUSD (fun oldBal =>
    str "insufficient XUSD balance: have " ++ dec oldBal.toNat ++ str ", need " ++
      dec b.amount.toNat)
  let (commit, prevBalance) ← prepareBlockWrite b
  pure
    { commit := { commit with
        addPending := some
          { sendHash := b.hash
            source := b.account
            destination := b.destination
            amount := b.amount
            asset := assetXUSD }
        putLease := some (leaseRecord b) }
      prevBalance := prevBalance }

/-- `validateAndAddLease`. -/
def validateAndAddLease (c : Ctx) (b : Block) : M Unit := do
  finishWrite (← prepareLease c b)

/-- The certificate of an accept: the lease's own, and still valid at the start. The refusal of an
unknown one slices its hash. -/
def checkAcceptCertificate (c : Ctx) (b leaseBlock : Block) (startTime : Int64) : M Unit := do
  failIf (b.certificateHash = []) (str "lease_accept: performance certificate required")
  failIf (leaseBlock.certificateHash ≠ b.certificateHash)
    (str "lease_accept: certificate hash " ++ shortHash b.certificateHash ++
      str " does not match lease's referenced cert " ++ shortHash leaseBlock.certificateHash)
  let lookup ← orErr c.certificateLookup (str "lease_accept: certificate lookup not configured")
  match lookup b.certificateHash with
  | none => liftFault (errWith12 (str "lease_accept: certificate not found: ") b.certificateHash [])
  | some certInfo => do
    failIf (certInfo.provider ≠ b.account)
      (str "lease_accept: certificate belongs to different provider")
    failIf (startTime > certInfo.expiresAt) (str "lease_accept: certificate expired")

/-- The record of an accepted lease: a new one, built from the lease block. -/
def acceptedRecord (b leaseBlock : Block) (startTime : Int64) : Lease where
  leaseHash := b.source
  state := .accepted
  consumer := leaseBlock.account
  provider := b.account
  vcpus := leaseBlock.vcpus
  memoryMB := leaseBlock.memoryMB
  diskGB := leaseBlock.diskGB
  duration := leaseBlock.duration
  accessPubKey := leaseBlock.accessPubKey
  cost := leaseBlock.amount
  stake := b.amount
  startTime := startTime
  certificateHash := b.certificateHash
  lockedR := b.lockedR
  lockedPayoutCap := b.lockedPayoutCap
  lockedTWAP := b.lockedTWAP

/-- The checks of `validateAndAddLeaseAccept`. -/
def prepareLeaseAccept (c : Ctx) (b : Block) (skipSkew : Bool) : M Prepared := do
  failIf (b.asset ≠ assetXUSD) (str "lease_accept block must have asset=XUSD")
  failIf (b.source = []) (str "lease_accept must reference a source lease block")
  let leaseBlock ← checkLeaseBlock b
  failIf (leaseBlock.destination ≠ b.account) (str "lease_accept: provider account mismatch")
  let existing ← getLeaseOverlay b.source
  failIf ((existing.map (·.state)).getD .created ≠ .created) (str "lease already accepted")
  failIf (b.amount ≠ leaseStake leaseBlock.amount)
    (str "lease_accept stake mismatch: expected " ++ dec (leaseStake leaseBlock.amount).toNat ++
      str ", got " ++ dec b.amount.toNat)
  let _ ← checkExtends b (str "lease_accept from unopened account")
  checkSpend b assetXUSD (fun oldBal =>
    str "insufficient XUSD balance for stake: have " ++ dec oldBal.toNat ++ str ", need " ++
      dec b.amount.toNat)
  let startTime ← checkAttestations c b "lease_accept" skipSkew
  checkAcceptCertificate c b leaseBlock startTime
  let (commit, prevBalance) ← prepareBlockWrite b
  failIf (b.lockedR = 0)
    (str "lease_accept missing locked emission params: locked_r must be set (the accept must " ++
      str "carry locked_r/locked_payout_cap/locked_twap)")
  validateLockedEmissionAt c startTime b skipSkew "lease_accept"
  pure
    { commit := { commit with
        expectLeaseHash := b.source
        expectLeaseState := .created
        putLease := some (acceptedRecord b leaseBlock startTime) }
      prevBalance := prevBalance
      event := some
        { kind := .leaseAccepted
          provider := b.account
          consumer := leaseBlock.account
          timestamp := startTime } }

/-- `validateAndAddLeaseAccept`. -/
def validateAndAddLeaseAccept (c : Ctx) (b : Block) (skipSkew : Bool) : M Unit := do
  finishWrite (← prepareLeaseAccept c b skipSkew)

/-! ## Cancelling -/

/-- `resolveCancelWinsOverAccept`: takes the provider's accept off its chain, unless it is final,
built upon, or the provider's chain is busy. -/
def resolveCancelWinsOverAccept (c : Ctx) (leaseHash provider : Str) : M Unit := do
  let notFound := str "cancel-wins: provider accept not found locally: retry after sync"
  let pchain ← orErr (← getAccountChain provider) notFound
  let acceptIdx ← orErr
    (pchain.findIdx? (fun b => b.type == .leaseAccept && b.source == leaseHash)) notFound
  failIf (acceptIdx ≠ pchain.length - 1)
    (str "cancel-wins: provider built on the accept: retry after sync")
  let fh ← finalHeight provider
  failIf (acceptIdx + 1 ≤ fh)
    (str "cannot cancel lease in accepted state: accept is finalized")
  let acceptBlock ← orErr pchain[acceptIdx]? notFound
  let ok ← tryAcquire c.tid (.account provider)
  failIf (ok = false) (str "cancel-wins: provider chain busy: retry after sync")
  (wrapErr (str "cancel-wins: unwind provider accept: ")
    (undoBlockApply provider acceptBlock)).deferring
      (fun s => s.setLock (.account provider) none)

/-- The lease a cancel may end: one that is created, or accepted with an accept to unwind. -/
def checkCancellable (c : Ctx) (b : Block) : M Unit := do
  match ← getLeaseOverlay b.source with
  | none => pure ()
  | some existing =>
    if existing.state = .accepted ∧ existing.provider ≠ b.account then
      resolveCancelWinsOverAccept c b.source existing.provider
    else
      failIf (existing.state ≠ .created)
        (str "cannot cancel lease in " ++ existing.state.name ++ str " state")

/-- The checks of a cancel that follow the unwinding of an accept. The refund is the cost of the
lease block, added without an overflow check. -/
def checkRefund (b leaseBlock : Block) : M Prepared := do
  let _ ← orErr (← getPendingSendOverlay b.source)
    (str "no pending send for lease: " ++ shortHash b.source)
  let _ ← checkExtends b (str "lease_cancel from unopened account")
  let oldBal ← getAssetBalanceOverlay b.account assetXUSD
  checkBalance [] b (oldBal + leaseBlock.amount)
  let (commit, prevBalance) ← prepareBlockWrite b
  pure
    { commit := { commit with
        deletePendingID := b.source
        cancelLeaseHash := b.source
        expectLeaseHash := b.source
        expectLeaseState := .created }
      prevBalance := prevBalance
      event := some
        { kind := .leaseCancelled
          provider := leaseBlock.destination
          consumer := b.account
          timestamp := b.timestamp } }

/-- The checks of a cancel that precede the unwinding of an accept. -/
def checkCancelSource (b : Block) : M Block := do
  failIf (b.asset ≠ assetXUSD) (str "lease_cancel block must have asset=XUSD")
  failIf (b.source = []) (str "lease_cancel must reference a source lease block")
  let leaseBlock ← checkLeaseBlock b
  failIf (leaseBlock.account ≠ b.account)
    (str "lease_cancel: only the consumer can cancel a lease")
  pure leaseBlock

/-- The checks of `validateAndAddLeaseCancel`. -/
def prepareLeaseCancel (c : Ctx) (b : Block) : M Prepared := do
  let leaseBlock ← checkCancelSource b
  checkCancellable c b
  checkRefund b leaseBlock

/-- `validateAndAddLeaseCancel`. -/
def validateAndAddLeaseCancel (c : Ctx) (b : Block) : M Unit := do
  finishWrite (← prepareLeaseCancel c b)

/-! ## Settling -/

/-- The settlement window of a force-settle. -/
def checkForceWindow (c : Ctx) (lease : Lease) (forceTime : Int64) : M Unit := do
  let expiry := lease.effectiveExpiry
  let eligibleAt := expiry + c.timing.settleGrace + c.timing.forceSettleGap
  failIf (forceTime < eligibleAt)
    (str "lease not yet force-settleable: need timestamp >= " ++ decInt eligibleAt.toInt ++
      str ", got " ++ decInt forceTime.toInt)
  let expireAt := expiry + c.timing.escrowExpiry
  failIf (forceTime ≥ expireAt)
    (str "lease escrow expired: refund window closed at " ++ decInt expireAt.toInt ++
      str ", got " ++ decInt forceTime.toInt)

/-- The checks of `validateAndAddLeaseForceSettle`. -/
def prepareLeaseForceSettle (c : Ctx) (b : Block) (skipSkew : Bool) : M Prepared := do
  failIf (b.asset ≠ assetXUSD) (str "lease_force_settle block must have asset=XUSD")
  failIf (b.source = []) (str "lease_force_settle must reference a source lease block")
  let leaseBlock ← checkLeaseBlock b
  failIf (leaseBlock.account ≠ b.account)
    (str "lease_force_settle: only the consumer can force-settle a lease")
  let lease ← checkAccepted b "force-settle" (fun l =>
    str "cannot force-settle lease in " ++ l.state.name ++ str " state")
  let forceTime ← checkAttestations c b "lease_force_settle" skipSkew
  checkForceWindow c lease forceTime
  let pending ← orErr (← getPendingSendOverlay b.source)
    (str "no pending escrow for lease: " ++ shortHash b.source)
  let _ ← checkExtends b (str "lease_force_settle from unopened account")
  let oldBal ← getAssetBalanceOverlay b.account assetXUSD
  failIf (oldBal + pending.amount < oldBal)
    (str "lease_force_settle would overflow uint64 balance")
  checkBalance [] b (oldBal + pending.amount)
  let (commit, prevBalance) ← prepareBlockWrite b
  pure
    { commit := { commit with
        deletePendingID := b.source
        unfulfillLeaseHash := b.source
        expectLeaseHash := b.source
        expectLeaseState := .accepted
        expectLeaseEffectiveDurationSecs := lease.effectiveDurationSecs }
      prevBalance := prevBalance
      event := some
        { kind := .leaseUnfulfilled
          provider := lease.provider
          consumer := b.account
          timestamp := b.timestamp } }

/-- `validateAndAddLeaseForceSettle`. -/
def validateAndAddLeaseForceSettle (c : Ctx) (b : Block) (skipSkew : Bool) : M Unit := do
  finishWrite (← prepareLeaseForceSettle c b skipSkew)

/-- The window of a settlement. -/
def checkSettleWindow (c : Ctx) (lease : Lease) (settleTime : Int64) (skipSkew : Bool) :
    M Unit := do
  let expiry := lease.effectiveExpiry
  failIf (settleTime < expiry)
    (str "lease not yet expired: need timestamp >= " ++ decInt expiry.toInt ++ str ", got " ++
      decInt settleTime.toInt)
  let late := decInt settleTime.toInt ++ str " exceeds expiry+grace " ++
    decInt (expiry + c.timing.settleGrace).toInt
  failIf (settleTime > expiry + c.timing.settleGrace)
    (if skipSkew = true ∧ renewalMayBeMissing lease = true then
      str "lease settle past grace for the renewals applied here: timestamp " ++ late ++
        str ": retry after sync"
    else str "lease settle past grace: timestamp " ++ late)

/-- The amount that a settlement emits. -/
def checkEmission (b : Block) (lease : Lease) (skipSkew : Bool) : M Unit := do
  let expectedXE ← liftErr (str "lease_settle: ") (leaseTotalEmission lease)
  failIf (b.amount ≠ expectedXE)
    (if skipSkew = true ∧ b.amount > expectedXE ∧ renewalMayBeMissing lease = true then
      str "lease_settle XE exceeds the " ++ dec (lease.renewals.length + 1) ++
        str " segment(s) applied here: expected " ++ dec expectedXE.toNat ++ str ", got " ++
        dec b.amount.toNat ++ str ": retry after sync"
    else
      str "lease_settle XE mismatch: expected " ++ dec expectedXE.toNat ++ str " (segments=" ++
        dec (lease.renewals.length + 1) ++ str ", base cost=" ++ dec lease.cost.toNat ++
        str ", R=" ++ dec lease.lockedR.toNat ++ str "), got " ++ dec b.amount.toNat)

/-- The record of a lease that its provider may settle. -/
def checkSettleable (b : Block) : M Lease := do
  let lease ← orErr (← getLeaseOverlay b.source) (str "lease not found: " ++ shortHash b.source)
  failIf (lease.settled = true) (str "lease already settled")
  failIf (lease.provider ≠ b.account) (str "lease_settle: provider account mismatch")
  failIf (lease.state = .created)
    (str "lease not yet accepted for settle (state " ++ lease.state.name ++
      str "): retry after accept")
  failIf (lease.state ≠ .accepted)
    (str "lease_settle: lease not settleable in " ++ lease.state.name ++ str " state")
  pure lease

/-- The checks of `validateAndAddLeaseSettle`. -/
def prepareLeaseSettle (c : Ctx) (b : Block) (skipSkew : Bool) : M Prepared := do
  failIf (b.asset ≠ assetXE) (str "lease_settle block must have asset=XE")
  failIf (b.source = []) (str "lease_settle must reference a source lease hash")
  let lease ← checkSettleable b
  let settleTime ← checkAttestations c b "lease_settle" skipSkew
  checkSettleWindow c lease settleTime skipSkew
  checkEmission b lease skipSkew
  let _ ← orErr (← getPendingSendOverlay b.source)
    (str "no escrow pending to burn for lease: " ++ shortHash b.source)
  let _ ← checkExtends b (str "lease_settle from unopened account")
  let oldXEBal ← getAssetBalanceOverlay b.account assetXE
  failIf (oldXEBal + b.amount < oldXEBal) (str "lease_settle would overflow uint64 balance")
  checkBalance [] b (oldXEBal + b.amount)
  let (commit, prevBalance) ← prepareBlockWrite b
  pure
    { commit := { commit with
        settleLeaseHash := b.source
        deletePendingID := b.source
        expectLeaseHash := b.source
        expectLeaseState := .accepted
        expectLeaseEffectiveDurationSecs := lease.effectiveDurationSecs
        assetCredit := some ⟨b.account, assetXUSD, lease.stake⟩ }
      prevBalance := prevBalance
      event := some
        { kind := .leaseSettled
          provider := lease.provider
          consumer := lease.consumer
          timestamp := b.timestamp
          durationSecs := lease.duration } }

/-- `validateAndAddLeaseSettle`. -/
def validateAndAddLeaseSettle (c : Ctx) (b : Block) (skipSkew : Bool) : M Unit := do
  finishWrite (← prepareLeaseSettle c b skipSkew)

/-! ## Renewing -/

/-- The certificate of a renewal. -/
def checkRenewCertificate (c : Ctx) (b : Block) (lease : Lease) (renewTime : Int64) :
    M CertificateInfo := do
  failIf (b.certificateHash = []) (str "lease_renew: performance certificate required")
  let lookup ← orErr c.certificateLookup (str "lease_renew: certificate lookup not configured")
  let cert ← orErr (lookup b.certificateHash)
    (str "lease_renew: certificate " ++ shortHash b.certificateHash ++ str " not found")
  failIf (cert.provider ≠ lease.provider)
    (str "lease_renew: certificate " ++ shortHash b.certificateHash ++ str " belongs to " ++
      shortHash cert.provider ++ str ", not the lease provider " ++ shortHash lease.provider)
  failIf (cert.expiresAt ≠ 0 ∧ renewTime > cert.expiresAt)
    (str "lease_renew: certificate " ++ shortHash b.certificateHash ++ str " expired at " ++
      decInt cert.expiresAt.toInt ++ str ", renewal time " ++ decInt renewTime.toInt)
  pure cert

/-- The cumulative duration of a renewed lease. -/
def checkRenewDuration (c : Ctx) (b : Block) (lease : Lease) : M Unit := do
  failIf (b.duration < c.timing.minDuration)
    (str "lease_renew duration must be >= " ++ dec c.timing.minDuration.toNat ++
      str " seconds, got " ++ dec b.duration.toNat)
  failIf ((match safeAdd lease.effectiveDurationSecs b.duration with
      | none => true
      | some eff => decide (eff > leaseMaxDuration)) = true)
    (str "lease_renew: cumulative duration " ++ dec lease.effectiveDurationSecs.toNat ++
      str " + " ++ dec b.duration.toNat ++ str " exceeds max " ++ dec leaseMaxDuration.toNat)

/-- The renewal falls into the running lease. -/
def checkRenewWindow (lease : Lease) (renewTime : Int64) : M Unit := do
  failIf (renewTime < lease.startTime)
    (str "lease_renew: renewal time " ++ decInt renewTime.toInt ++ str " before lease start " ++
      decInt lease.startTime.toInt)
  failIf (renewTime ≥ lease.effectiveExpiry)
    (str "lease_renew: lease no longer live (renewal time " ++ decInt renewTime.toInt ++
      str " >= effective expiry " ++ decInt lease.effectiveExpiry.toInt ++ str ")")

/-- The segment that a renewal adds. -/
def renewSegment (b : Block) (renewTime : Int64) : LeaseSegment where
  renewHash := b.hash
  duration := b.duration
  cost := b.amount
  startTime := renewTime
  certificateHash := b.certificateHash
  lockedR := b.lockedR
  lockedPayoutCap := b.lockedPayoutCap
  lockedTWAP := b.lockedTWAP

/-- The checks of `validateAndAddLeaseRenew`. -/
def prepareLeaseRenew (c : Ctx) (b : Block) (skipSkew : Bool) : M Prepared := do
  failIf (b.asset ≠ assetXUSD) (str "lease_renew block must have asset=XUSD")
  failIf (b.source = []) (str "lease_renew must reference a source lease hash")
  let lease ← checkAccepted b "renewal" (fun l =>
    str "lease_renew: lease not renewable in " ++ l.state.name ++ str " state")
  failIf (lease.consumer ≠ b.account) (str "lease_renew: only the consumer can renew a lease")
  checkRenewDuration c b lease
  let renewTime ← checkAttestations c b "lease_renew" skipSkew
  checkRenewWindow lease renewTime
  let cert ← checkRenewCertificate c b lease renewTime
  checkCost c "lease_renew" b lease.vcpus lease.memoryMB lease.diskGB cert
  failIf (b.lockedR = 0) (str "lease_renew missing locked emission params: locked_r must be set")
  validateLockedEmissionAt c renewTime b skipSkew "lease_renew"
  let _ ← orErr (← getPendingSendOverlay b.source)
    (str "lease_renew: no live escrow for lease " ++ shortHash b.source)
  let _ ← checkExtends b (str "lease_renew from unopened account")
  checkSpend b assetXUSD (fun oldBal =>
    str "insufficient XUSD balance for renewal: have " ++ dec oldBal.toNat ++ str ", need " ++
      dec b.amount.toNat)
  let (commit, prevBalance) ← prepareBlockWrite b
  pure
    { commit := { commit with
        topUpPendingID := b.source
        topUpPendingAmount := b.amount
        putLease := some { lease with renewals := lease.renewals ++ [renewSegment b renewTime] }
        expectLeaseHash := b.source
        expectLeaseState := .accepted
        expectLeaseEffectiveDurationSecs := lease.effectiveDurationSecs }
      prevBalance := prevBalance }

/-- `validateAndAddLeaseRenew`. -/
def validateAndAddLeaseRenew (c : Ctx) (b : Block) (skipSkew : Bool) : M Unit := do
  finishWrite (← prepareLeaseRenew c b skipSkew)

end Xe
