import XeLattice.Core.Types

/-!
# Lease pricing and emission

The arithmetic of `core/ledger.go` on leases, in 64-bit words with explicit overflow checks, and the
lease timing that the genesis block fixes.
-/

set_option autoImplicit false

namespace Xe

/-- `safeMul`. -/
def safeMul (a b : UInt64) : Option UInt64 :=
  if a = 0 ∨ b = 0 then some 0
  else if a.toNat * b.toNat < 2 ^ 64 then some (a * b) else none

/-- `safeAdd`. -/
def safeAdd (a b : UInt64) : Option UInt64 :=
  if a + b < a then none else some (a + b)

/-- `ceilDiv`. -/
def ceilDiv (a b : UInt64) : UInt64 :=
  if a = 0 then 0 else (a - 1) / b + 1

/-- `LeaseMaxDuration`. -/
def leaseMaxDuration : UInt64 := 31536000
/-- `LeaseVCPURate`. -/
def leaseVCPURate : UInt64 := 20000
/-- `LeaseMemGBRate`. -/
def leaseMemGBRate : UInt64 := 10000
/-- `LeaseDiskGBRate`. -/
def leaseDiskGBRate : UInt64 := 1000
/-- `LeaseStakeDivisor`. -/
def leaseStakeDivisor : UInt64 := 0
/-- `LeaseMaxVCPUs`. -/
def leaseMaxVCPUs : UInt64 := 4096
/-- `LeaseMaxMemoryMB`. -/
def leaseMaxMemoryMB : UInt64 := 67108864
/-- `LeaseMaxDiskGB`. -/
def leaseMaxDiskGB : UInt64 := 1048576

/-- `LeaseStake`. -/
def leaseStake (cost : UInt64) : UInt64 :=
  if leaseStakeDivisor = 0 then 0
  else
    let stake := ceilDiv cost leaseStakeDivisor
    if stake = 0 then 1 else stake

theorem leaseStake_eq_zero (cost : UInt64) : leaseStake cost = 0 := rfl

/-! ## Timing -/

/-- The lease timing of a network. -/
structure LeaseTiming where
  minDuration : UInt64
  settleGrace : Int64
  forceSettleGap : Int64
  escrowExpiry : Int64
  archiveGap : Int64
  maxAttestationSkew : Int64
  deriving DecidableEq, Inhabited

/-- `ApplyGenesisLeaseTiming`: the genesis block's values, with the defaults for those it leaves
out. -/
def genesisLeaseTiming (b : Block) : LeaseTiming where
  minDuration := if b.leaseMinDurationSecs ≠ 0 then b.leaseMinDurationSecs else 60
  settleGrace := if b.leaseSettleGraceNs ≠ 0 then b.leaseSettleGraceNs else 3600000000000
  forceSettleGap := if b.leaseForceSettleGapNs ≠ 0 then b.leaseForceSettleGapNs else 1500000000000
  escrowExpiry := if b.leaseEscrowExpiryNs ≠ 0 then b.leaseEscrowExpiryNs else 31536000000000000
  archiveGap := if b.leaseArchiveGapNs ≠ 0 then b.leaseArchiveGapNs else 3600000000000
  maxAttestationSkew :=
    if b.maxAttestationSkewNs ≠ 0 then b.maxAttestationSkewNs else 600000000000

/-! ## Cost -/

/-- A product, or the error that names its factors. -/
def mulOrErr (what : Str) (a b : UInt64) : Except GoError UInt64 :=
  match safeMul a b with
  | some p => .ok p
  | none => .error (errorf (str "overflow: " ++ what))

/-- A sum, or the error that names its terms. -/
def addOrErr (what : Str) (a b : UInt64) : Except GoError UInt64 :=
  match safeAdd a b with
  | some p => .ok p
  | none => .error (errorf (str "overflow: " ++ what))

/-- `name(value)`, as the overflow messages write an operand. -/
def operand (name : String) (v : UInt64) : Str :=
  str name ++ str "(" ++ dec v.toNat ++ str ")"

/-- `LeaseCost`. -/
def leaseCost (minDuration vcpus memoryMB diskGB duration multiplierMilli : UInt64) :
    Except GoError UInt64 := do
  if multiplierMilli = 0 then .error (errorf (str "multiplierMilli must be non-zero"))
  if duration < minDuration then
    .error (errorf (str "duration must be >= " ++ dec minDuration.toNat ++ str " seconds, got " ++
      dec duration.toNat))
  if duration > leaseMaxDuration then
    .error (errorf (str "duration must be <= " ++ dec leaseMaxDuration.toNat ++
      str " seconds, got " ++ dec duration.toNat))
  let minutes := ceilDiv duration 60
  let memGB := ceilDiv memoryMB 1024
  let vcpuMicro ← mulOrErr (operand "vcpus" vcpus ++ str " * " ++
    operand "LeaseVCPURate" leaseVCPURate) vcpus leaseVCPURate
  let memMicro ← mulOrErr (operand "memGB" memGB ++ str " * " ++
    operand "LeaseMemGBRate" leaseMemGBRate) memGB leaseMemGBRate
  let diskMicro ← mulOrErr (operand "diskGB" diskGB ++ str " * " ++
    operand "LeaseDiskGBRate" leaseDiskGBRate) diskGB leaseDiskGBRate
  let perHour ← addOrErr (str "perHourMicro " ++ operand "vcpu" vcpuMicro ++ str " + " ++
    operand "mem" memMicro) vcpuMicro memMicro
  let perHourMicro ← addOrErr (operand "perHourMicro" 0 ++ str " + " ++ operand "disk" diskMicro)
    perHour diskMicro
  if perHourMicro = 0 then .error (errorf (str "lease requires at least some resources"))
  let perMinuteScaled ← mulOrErr (operand "perHourMicro" perHourMicro ++ str " * " ++
    operand "minutes" minutes) perHourMicro minutes
  let costMicro := ceilDiv perMinuteScaled 60
  let scaled ← mulOrErr (operand "costMicro" costMicro ++ str " * " ++
    operand "multiplierMilli" multiplierMilli) costMicro multiplierMilli
  let cost := ceilDiv scaled 1000
  .ok (if cost = 0 then 1 else cost)

/-- `ValidateLeaseDimensions`. -/
def validateLeaseDimensions (minDuration vcpus memoryMB diskGB duration : UInt64) :
    Except GoError Unit := do
  if vcpus = 0 ∧ memoryMB = 0 ∧ diskGB = 0 then
    .error (errorf (str "lease must request at least one resource (vcpus, memory, or disk)"))
  if vcpus > leaseMaxVCPUs then
    .error (errorf (str "lease vcpus must be <= " ++ dec leaseMaxVCPUs.toNat ++ str ", got " ++
      dec vcpus.toNat))
  if memoryMB > leaseMaxMemoryMB then
    .error (errorf (str "lease memory_mb must be <= " ++ dec leaseMaxMemoryMB.toNat ++
      str ", got " ++ dec memoryMB.toNat))
  if diskGB > leaseMaxDiskGB then
    .error (errorf (str "lease disk_gb must be <= " ++ dec leaseMaxDiskGB.toNat ++ str ", got " ++
      dec diskGB.toNat))
  if duration < minDuration then
    .error (errorf (str "lease duration must be >= " ++ dec minDuration.toNat ++ str " seconds"))
  if duration > leaseMaxDuration then
    .error (errorf (str "lease duration must be <= " ++ dec leaseMaxDuration.toNat ++
      str " seconds"))

/-! ## Emission -/

/-- `CapR`. -/
def capR (r payoutCap twapMilliUSD : UInt64) : UInt64 :=
  if payoutCap = 0 ∨ twapMilliUSD = 0 then r
  else
    match safeMul payoutCap 1000 with
    | none => r
    | some scaled =>
      let rCapMax := ceilDiv scaled twapMilliUSD
      if rCapMax < r then rCapMax else r

/-- `LeaseEmissionChecked`. -/
def leaseEmissionChecked (cost r : UInt64) : Except GoError UInt64 :=
  match safeMul cost r with
  | none =>
    .error (errorf (str "lease emission overflow: " ++ operand "cost" cost ++ str " * " ++
      operand "r" r))
  | some product =>
    let emission := ceilDiv product 1000
    .ok (if emission = 0 then 1 else emission)

/-- The renewals' part of `LeaseTotalEmission`, from renewal `i` on. -/
def renewalEmission (total : UInt64) (i : ℕ) : List LeaseSegment → Except GoError UInt64
  | [] => .ok total
  | seg :: segs => do
    let segXE ← (leaseEmissionChecked seg.cost (capR seg.lockedR seg.lockedPayoutCap
      seg.lockedTWAP)).mapError (GoError.wrap (str "renewal " ++ dec i ++ str ": "))
    match safeAdd total segXE with
    | none => .error (errorf (str "lease emission overflow summing renewal " ++ dec i))
    | some sum => renewalEmission sum (i + 1) segs

/-- `LeaseTotalEmission`. -/
def leaseTotalEmission (lease : Lease) : Except GoError UInt64 := do
  let total ← (leaseEmissionChecked lease.cost (capR lease.lockedR lease.lockedPayoutCap
    lease.lockedTWAP)).mapError (GoError.wrap (str "base segment: "))
  renewalEmission total 0 lease.renewals

/-- `renewalMayBeMissing`. -/
def renewalMayBeMissing (lease : Lease) : Bool :=
  lease.effectiveDurationSecs < leaseMaxDuration

end Xe
