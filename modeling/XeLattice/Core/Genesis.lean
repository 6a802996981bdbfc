import XeLattice.Core.Crypto
import XeLattice.Core.Pricing

/-!
# The genesis block

`core/genesis.go`: what a genesis block must satisfy, and the lease timing it may fix.
-/

set_option autoImplicit false

namespace Xe

variable (lib : Lib)

/-- `GenesisSupply`: 42 million XE in micro-units. -/
def genesisSupply : UInt64 := 42000000000000

/-- `ZeroAddress`. -/
def zeroAddress : Str :=
  List.replicate 64 48

/-- `validateGenesisRepresentative`. -/
def validateGenesisRepresentative (b : Block) : Except GoError Unit := do
  guardErr (b.representative = [])
    (errorf (str "genesis: representative is required — a genesis that delegates nothing yields " ++
      str "zero total delegated weight, so no block can ever finalize and every balance stays " ++
      str "unspendable while all health checks read green"))
  guardErr ((match hexDecode b.representative with
      | .ok rep => rep.length | .error _ => 0) ≠ 32)
    (errorf (str "genesis: representative must be 64 hex characters (32-byte account address), " ++
      str "got " ++ lib.quote b.representative))
  guardErr (b.representative = zeroAddress)
    (errorf (str "genesis: representative must not be the all-zero address — that is how the " ++
      str "canonical encoding spells \"no representative\""))
  guardErr (b.pubKey ≠ [] ∧ b.representative = b.pubKey)
    (errorf (str "genesis: representative is the genesis PUBLIC KEY, not an account address — " ++
      str "an address is sha256(" ++ lib.quote accountAddressDomain ++
      str " || pubkey), so this delegates the whole supply to an account that cannot exist and " ++
      str "nothing can ever finalize"))

/-- `validateGenesisLeaseTiming`, in wrapping 64-bit arithmetic. -/
def validateGenesisLeaseTiming (b : Block) : Except GoError Unit := do
  let t := genesisLeaseTiming b
  guardErr (t.minDuration < 1)
    (errorf (str "genesis: lease_min_duration_secs must be >= 1, got " ++ dec t.minDuration.toNat))
  guardErr (t.settleGrace ≤ 0)
    (errorf (str "genesis: lease_settle_grace_ns must be > 0, got " ++ decInt t.settleGrace.toInt))
  guardErr (t.maxAttestationSkew ≤ 0)
    (errorf (str "genesis: max_attestation_skew_ns must be > 0, got " ++
      decInt t.maxAttestationSkew.toInt))
  guardErr (t.forceSettleGap ≤ 2 * t.maxAttestationSkew)
    (errorf (str "genesis: lease_force_settle_gap_ns (" ++ decInt t.forceSettleGap.toInt ++
      str ") must exceed 2×max_attestation_skew_ns (" ++
      decInt (2 * t.maxAttestationSkew).toInt ++ str ")"))
  guardErr (t.escrowExpiry ≤ t.settleGrace + t.forceSettleGap)
    (errorf (str "genesis: lease_escrow_expiry_ns (" ++ decInt t.escrowExpiry.toInt ++
      str ") must exceed settle_grace+force_settle_gap (" ++
      decInt (t.settleGrace + t.forceSettleGap).toInt ++ str ")"))
  guardErr (t.archiveGap ≤ 0)
    (errorf (str "genesis: lease_archive_gap_ns must be > 0, got " ++ decInt t.archiveGap.toInt))

/-- `ValidateGenesisBlock`; the genesis hash does not depend on the network identifier. -/
def validateGenesisBlock (b : Block) : Except GoError Unit := do
  guardErr (b.type ≠ .genesis)
    (errorf (str "genesis: type must be \"genesis\", got " ++ lib.quote b.type.name))
  guardErr (b.previous ≠ zeroPrev) (errorf (str "genesis: previous must be \"0\""))
  guardErr (b.timestamp ≠ 0) (errorf (str "genesis: timestamp must be 0"))
  guardErr (b.asset ≠ assetXE)
    (errorf (str "genesis: asset must be \"XE\", got " ++ lib.quote b.asset))
  guardErr (b.balance ≠ genesisSupply)
    (errorf (str "genesis: balance must be " ++ dec genesisSupply.toNat ++ str ", got " ++
      dec b.balance.toNat))
  guardErr (b.account = []) (errorf (str "genesis: account must not be empty"))
  validateGenesisRepresentative lib b
  validateGenesisLeaseTiming b
  (verifyBlockOn lib [] b).mapError (GoError.wrap (str "genesis: "))

end Xe
