import XeLattice.Core.Crypto
import XeLattice.Table

/-!
# The types of the state chain

`statechain/types.go`: blocks of configuration changes, the configuration records they write, and
what the package takes from `encoding/json`.
-/

set_option autoImplicit false

namespace Xe.StateChain

/-- What an operation does; any other word is kept, and refused. -/
inductive Action
  | set
  | delete
  | other (word : Str)
  deriving DecidableEq

/-- The text of an action. -/
def Action.word : Action → Str
  | .set => str "set"
  | .delete => str "delete"
  | .other w => w

/-- `Op`. -/
structure Op where
  action : Action
  key : Str
  value : Str := []
  deriving DecidableEq

/-- `Block`. -/
structure Block where
  index : UInt64
  prevHash : Str
  ops : List Op
  signatures : List BlockSignature
  hash : Str := []
  timestamp : Int64
  deriving DecidableEq

/-- `DAOKeyset`. -/
structure DAOKeyset where
  keys : List Str
  threshold : ℤ
  deriving DecidableEq

/-- `OracleConfig`. -/
structure OracleConfig where
  keys : List Str
  threshold : ℤ
  allowedPrefix : Str
  deriving DecidableEq

/-- `EpochValue`. -/
structure EpochValue where
  epoch : UInt64
  startNS : Int64
  endNS : Int64
  twapMilliUSD : UInt64
  twavMilliUSD : UInt64
  rVolume : UInt64
  rPriceFloor : UInt64
  rCollusion : UInt64
  rEffective : UInt64
  rSource : Str
  phase : UInt8
  sMilli : UInt16
  volumeTriggerMet : Bool
  twapTriggerMet : Bool
  payoutCap : UInt64
  deriving DecidableEq

/-- `TokenomicsConfig`. -/
structure TokenomicsConfig where
  rInit : UInt64
  rFloor : UInt64
  vHalf : UInt64
  priceTier1 : UInt64
  priceTier2 : UInt64
  priceTier3 : UInt64
  rPriceFloorTier1 : UInt64
  rPriceFloorTier2 : UInt64
  rCollusionFactorMilli : UInt64
  hermiteFDVMinUSD : UInt64
  hermiteFDVMaxUSD : UInt64
  hermiteCeilingMilli : UInt64
  hermiteFloorMilli : UInt64

/-- `RepresentativeConfig`. -/
structure RepresentativeConfig where
  mode : Str
  addresses : List Str

/-- `ActivationRecord`. -/
structure ActivationRecord where
  atIndex : UInt64
  notBeforeNS : Int64
  deriving DecidableEq

/-- `Activations`: a map from features to records, listed in the order in which the loops of the
program meet its entries. -/
structure Activations where
  features : List (Str × ActivationRecord)
  nodup : (features.map Prod.fst).Nodup

/-- The record of a feature. -/
def Activations.record (a : Activations) (feature : Str) : Option ActivationRecord :=
  a.features.lookup feature

/-- The empty schedule. -/
def noActivations : Activations :=
  ⟨[], List.nodup_nil⟩

/-- `encoding/json`: the validity of a text and the decoders of the types of this package, with
the texts of their errors. -/
structure Json where
  checkValid : Str → Except Str Unit
  daoKeyset : Str → Except Str DAOKeyset
  timekeepers : Str → Except Str DAOKeyset
  minter : Str → Except Str (List Str)
  oracleConfig : Str → Except Str OracleConfig
  phase : Str → Except Str UInt8
  tokenomics : Str → Except Str TokenomicsConfig
  /-- With `DisallowUnknownFields`. -/
  tokenomicsStrict : Str → Except Str TokenomicsConfig
  activations : Str → Except Str Activations
  string : Str → Except Str Str
  representatives : Str → Except Str RepresentativeConfig
  epochValue : Str → Except Str EpochValue

end Xe.StateChain
