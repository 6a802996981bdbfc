import XeLattice.StateChain.Activations

/-!
# The key-value contents of the state chain

`statechain/kvstore.go`: which operations a block may carry, what the configuration keys may hold,
how operations change the contents and how the chain reads its own configuration back.
-/

set_option autoImplicit false

namespace Xe.StateChain

/-! ## Keys and sizes -/

/-- `MaxKeyLength`. -/
def maxKeyLength : ℕ := 128

/-- `MaxValueSize`. -/
def maxValueSize : ℕ := 65536

/-- `MaxBlockSize`. -/
def maxBlockSize : ℕ := 262144

/-- `MinDAOThreshold`. -/
def minDAOThreshold : ℤ := 2

/-- `MaxEligibleRepresentatives`. -/
def maxEligibleRepresentatives : ℕ := 1000

/-- `RepModeOpen`. -/
def repModeOpen : Str :=
  str "open"

/-- `RepModeAllowlist`. -/
def repModeAllowlist : Str :=
  str "allowlist"

/-- The key of the DAO keyset. -/
def daoKeysetKey : Str :=
  str "sys.dao_keyset"

/-- The key of the oracle. -/
def oracleKey : Str :=
  str "sys.oracle"

/-- The key of the phase. -/
def phaseKey : Str :=
  str "sys.phase"

/-- The key of the tokenomics. -/
def tokenomicsKey : Str :=
  str "sys.tokenomics"

/-- `strings.HasPrefix`. -/
def startsWith (s start : Str) : Bool :=
  start.isPrefixOf s

/-- `[a-z0-9_.-]`. -/
def isKeyByte (c : UInt8) : Bool :=
  isLowerLetter c || isDigit c || c == 95 || c == 46 || c == 45

/-- `ValidateKey`. -/
def validateKey (key : Str) : Except GoError Unit := do
  guardErr (key = []) (errorf (str "key is empty"))
  guardErr (key.length > maxKeyLength)
    (errorf (str "key exceeds " ++ dec maxKeyLength ++ str " characters"))
  guardErr (key.all isKeyByte = false)
    (errorf (str "key contains invalid characters (must be [a-z0-9_.-])"))

/-! ## Configuration values -/

/-- The loop over a list of keys or addresses: 64 hexadecimal digits each, no text twice. -/
def validateHexKeys (what : String) (seen : List Str) (i : ℕ) : List Str → Except GoError Unit
  | [] => .ok ()
  | k :: ks =>
    if k.length ≠ 64 then
      .error (errorf (str what ++ str "[" ++ dec i ++ str "] invalid length: got " ++
        dec k.length ++ str ", want 64 hex chars"))
    else
      match hexDecode k with
      | .error e =>
        .error (errorf (str what ++ str "[" ++ dec i ++ str "] invalid hex: " ++ e))
      | .ok _ =>
        if k ∈ seen then
          .error (errorf (str what ++ str "[" ++ dec i ++ str "] is a duplicate"))
        else validateHexKeys what (k :: seen) (i + 1) ks

/-- `sys.dao_keyset`. -/
def validateDAOKeyset (json : Json) (value : Str) : Except GoError Unit :=
  match json.daoKeyset value with
  | .error e => .error (errorf (str "invalid dao_keyset JSON: " ++ e))
  | .ok ks => do
    guardErr (ks.keys = []) (errorf (str "dao_keyset must have at least one key"))
    guardErr (ks.threshold < minDAOThreshold)
      (errorf (str "dao_keyset threshold " ++ decInt ks.threshold ++ str " is below minimum " ++
        decInt minDAOThreshold))
    guardErr (ks.threshold > ks.keys.length)
      (errorf (str "dao_keyset threshold " ++ decInt ks.threshold ++ str " exceeds key count " ++
        dec ks.keys.length))
    validateHexKeys "dao_keyset key" [] 0 ks.keys

/-- The length check of the timekeepers, which are not otherwise read. -/
def validateTimekeeperKeys (i : ℕ) : List Str → Except GoError Unit
  | [] => .ok ()
  | k :: ks =>
    if k.length ≠ 64 then
      .error (errorf (str "timekeepers key[" ++ dec i ++ str "] invalid length: got " ++
        dec k.length ++ str ", want 64 hex chars"))
    else validateTimekeeperKeys (i + 1) ks

/-- `sys.timekeepers`. -/
def validateTimekeepers (json : Json) (value : Str) : Except GoError Unit :=
  match json.timekeepers value with
  | .error e => .error (errorf (str "invalid timekeepers JSON: " ++ e))
  | .ok tk => do
    guardErr (tk.keys = []) (errorf (str "timekeepers must have at least one key"))
    guardErr (tk.threshold < 1 ∨ tk.threshold > tk.keys.length)
      (errorf (str "timekeepers threshold " ++ decInt tk.threshold ++ str " invalid for " ++
        dec tk.keys.length ++ str " keys"))
    validateTimekeeperKeys 0 tk.keys

/-- `sys.minter`. -/
def validateMinter (json : Json) (value : Str) : Except GoError Unit :=
  match json.minter value with
  | .error e => .error (errorf (str "invalid minter config JSON: " ++ e))
  | .ok keys => do
    guardErr (keys = []) (errorf (str "minter config must have at least one key"))
    validateHexKeys "minter key" [] 0 keys

/-- `sys.oracle`. -/
def validateOracle (json : Json) (value : Str) : Except GoError Unit :=
  match json.oracleConfig value with
  | .error e => .error (errorf (str "invalid oracle config JSON: " ++ e))
  | .ok oc => do
    guardErr (oc.keys = []) (errorf (str "oracle config must have at least one key"))
    guardErr (oc.threshold < 1 ∨ oc.threshold > oc.keys.length)
      (errorf (str "oracle threshold " ++ decInt oc.threshold ++ str " invalid for " ++
        dec oc.keys.length ++ str " keys"))
    guardErr (oc.allowedPrefix = []) (errorf (str "oracle allowed_prefix must not be empty"))
    validateHexKeys "oracle key" [] 0 oc.keys

/-- `sys.phase`. -/
def validatePhase (json : Json) (value : Str) : Except GoError Unit :=
  match json.phase value with
  | .error e => .error (errorf (str "invalid phase JSON: " ++ e))
  | .ok phase =>
    guardErr (phase ≠ 1 ∧ phase ≠ 2)
      (errorf (str "phase " ++ dec phase.toNat ++ str " invalid (must be 1 or 2)"))

/-- `tokenomicsRMin`. -/
def tokenomicsRMin : UInt64 := 1

/-- `tokenomicsRMax`. -/
def tokenomicsRMax : UInt64 := 100000

/-- A bound of `validateTokenomicsConfig`. -/
def validateRate (rate : String × UInt64) : Except GoError Unit :=
  guardErr (rate.2 < tokenomicsRMin ∨ rate.2 > tokenomicsRMax)
    (errorf (str "tokenomics " ++ str rate.1 ++ str " (" ++ dec rate.2.toNat ++
      str ") out of sane range [" ++ dec tokenomicsRMin.toNat ++ str ", " ++
      dec tokenomicsRMax.toNat ++ str "]"))

/-- `validateTokenomicsConfig`. -/
def validateTokenomicsConfig (json : Json) (value : Str) : Except GoError Unit :=
  match json.tokenomicsStrict value with
  | .error e => .error (errorf (str "invalid tokenomics JSON: " ++ e))
  | .ok tc => do
    guardErr (tc.rFloor = 0) (errorf (str "tokenomics r_floor must be > 0"))
    guardErr (tc.rInit ≤ tc.rFloor)
      (errorf (str "tokenomics r_init (" ++ dec tc.rInit.toNat ++ str ") must be > r_floor (" ++
        dec tc.rFloor.toNat ++ str ")"))
    guardErr (tc.vHalf = 0) (errorf (str "tokenomics v_half must be > 0"))
    guardErr (tc.priceTier1 ≥ tc.priceTier2 ∨ tc.priceTier2 ≥ tc.priceTier3)
      (errorf (str "tokenomics price tiers must be strictly increasing (got " ++
        dec tc.priceTier1.toNat ++ str ", " ++ dec tc.priceTier2.toNat ++ str ", " ++
        dec tc.priceTier3.toNat ++ str ")"))
    guardErr (tc.rPriceFloorTier1 < tc.rPriceFloorTier2)
      (errorf (str "tokenomics r_price_floor_tier_1 (" ++ dec tc.rPriceFloorTier1.toNat ++
        str ") must be >= r_price_floor_tier_2 (" ++ dec tc.rPriceFloorTier2.toNat ++ str ")"))
    guardErr (tc.rPriceFloorTier2 < tc.rFloor)
      (errorf (str "tokenomics r_price_floor_tier_2 (" ++ dec tc.rPriceFloorTier2.toNat ++
        str ") must be >= r_floor (" ++ dec tc.rFloor.toNat ++ str ")"))
    guardErr (tc.rCollusionFactorMilli = 0 ∨ tc.rCollusionFactorMilli ≥ 1000)
      (errorf (str "tokenomics r_collusion_factor_milli (" ++
        dec tc.rCollusionFactorMilli.toNat ++ str ") must be in (0, 1000)"))
    guardErr (tc.hermiteFDVMinUSD = 0)
      (errorf (str "tokenomics hermite_fdv_min_usd must be > 0"))
    guardErr (tc.hermiteFDVMinUSD ≥ tc.hermiteFDVMaxUSD)
      (errorf (str "tokenomics hermite_fdv_min_usd (" ++ dec tc.hermiteFDVMinUSD.toNat ++
        str ") must be < hermite_fdv_max_usd (" ++ dec tc.hermiteFDVMaxUSD.toNat ++ str ")"))
    guardErr (tc.hermiteFloorMilli = 0)
      (errorf (str "tokenomics hermite_floor_milli must be > 0"))
    guardErr (tc.hermiteCeilingMilli ≤ tc.hermiteFloorMilli)
      (errorf (str "tokenomics hermite_ceiling_milli (" ++ dec tc.hermiteCeilingMilli.toNat ++
        str ") must be > hermite_floor_milli (" ++ dec tc.hermiteFloorMilli.toNat ++ str ")"))
    checkAll validateRate
      [("r_init", tc.rInit), ("r_floor", tc.rFloor),
        ("r_price_floor_tier_1", tc.rPriceFloorTier1),
        ("r_price_floor_tier_2", tc.rPriceFloorTier2),
        ("r_collusion_factor_milli", tc.rCollusionFactorMilli),
        ("hermite_ceiling_milli", tc.hermiteCeilingMilli),
        ("hermite_floor_milli", tc.hermiteFloorMilli)]

/-- `sys.representatives`. -/
def validateRepresentatives (lib : Lib) (json : Json) (value : Str) : Except GoError Unit :=
  match json.representatives value with
  | .error e => .error (errorf (str "invalid representatives config JSON: " ++ e))
  | .ok rc =>
    if rc.mode = repModeOpen then
      guardErr (rc.addresses ≠ [])
        (errorf (str "representatives mode " ++ lib.quote rc.mode ++
          str " must not carry addresses"))
    else if rc.mode = repModeAllowlist then do
      guardErr (rc.addresses = [])
        (errorf (str "representatives allowlist must have at least one address"))
      guardErr (rc.addresses.length > maxEligibleRepresentatives)
        (errorf (str "representatives allowlist has " ++ dec rc.addresses.length ++
          str " addresses, maximum " ++ dec maxEligibleRepresentatives))
      validateHexKeys "representatives address" [] 0 rc.addresses
    else
      .error (errorf (str "representatives mode " ++ lib.quote rc.mode ++ str " unknown (want " ++
        lib.quote repModeOpen ++ str " or " ++ lib.quote repModeAllowlist ++ str ")"))

/-- `validateSysKeyValue`. -/
def validateSysKeyValue (lib : Lib) (json : Json) (key value : Str) : Except GoError Unit :=
  if key = daoKeysetKey then validateDAOKeyset json value
  else if key = str "sys.timekeepers" then validateTimekeepers json value
  else if key = str "sys.minter" then validateMinter json value
  else if key = oracleKey then validateOracle json value
  else if key = phaseKey then validatePhase json value
  else if key = tokenomicsKey then validateTokenomicsConfig json value
  else if key = activationsKey then validateActivations lib json value
  else if key = minProtocolVersionKey then validateMinProtocolVersion lib json value
  else if key = str "sys.representatives" then validateRepresentatives lib json value
  else .ok ()

/-! ## Operations -/

/-- The error of an operation, behind its key. -/
def opError (lib : Lib) (op : Op) (e : GoError) : GoError :=
  e.wrap (str "op key " ++ lib.quote op.key ++ str ": ")

/-- `ValidateOp`. -/
def validateOp (lib : Lib) (json : Json) (op : Op) : Except GoError Unit := do
  (validateKey op.key).mapError (opError lib op)
  match op.action with
  | .set => do
    guardErr (op.value = []) (opError lib op (errorf (str "set op must have a value")))
    guardErr (op.value.length > maxValueSize)
      (opError lib op (errorf (str "value exceeds " ++ dec maxValueSize ++ str " bytes")))
    guardErr ((json.checkValid op.value).isOk = false)
      (opError lib op (errorf (str "value is not valid JSON")))
    (validateSysKeyValue lib json op.key op.value).mapError (opError lib op)
  | .delete =>
    guardErr (startsWith op.key (str "sys."))
      (opError lib op (errorf (str "cannot delete sys.* keys")))
  | .other w => .error (opError lib op (errorf (str "unknown action " ++ lib.quote w)))

/-- The rule of `sys.phase`: it does not fall. -/
def validatePhaseTransition (json : Json) (kv : KVStore) (value : Str) : Except GoError Unit :=
  match kv.get phaseKey with
  | none => .ok ()
  | some old =>
    match json.phase old with
    | .error e => .error (errorf (str "existing sys.phase unreadable: " ++ e))
    | .ok oldPhase =>
      match json.phase value with
      | .error e => .error (errorf (str "incoming sys.phase unreadable: " ++ e))
      | .ok newPhase =>
        guardErr (newPhase < oldPhase)
          (errorf (str "sys.phase transition " ++ dec oldPhase.toNat ++ str " → " ++
            dec newPhase.toNat ++ str " not permitted (one-directional)"))

/-- `validateTransition`. -/
def validateTransition (lib : Lib) (json : Json) (kv : KVStore) (tip b : Block) (op : Op) :
    Except GoError Unit :=
  if op.action ≠ .set then .ok ()
  else if op.key = activationsKey then validateActivationsTransition lib json kv tip b op.value
  else if op.key = minProtocolVersionKey then validateMinProtocolVersionTransition json kv op.value
  else if op.key = phaseKey then validatePhaseTransition json kv op.value
  else .ok ()

/-- One operation of `ApplyOps`. -/
def applyOp (kv : KVStore) (op : Op) : KVStore :=
  match op.action with
  | .set => kv.set op.key op.value
  | .delete => kv.del op.key
  | .other _ => kv

/-- `ApplyOps`. -/
def applyOps (kv : KVStore) (ops : List Op) : KVStore :=
  ops.foldl applyOp kv

/-! ## Reading the configuration -/

/-- `OracleConfig`; without an error and without a value when the key is absent. -/
def oracleConfig (json : Json) (kv : KVStore) : Except GoError (Option OracleConfig) :=
  match kv.get oracleKey with
  | none => .ok none
  | some raw =>
    match json.oracleConfig raw with
    | .error e => .error (errorf (str "sys.oracle: invalid JSON: " ++ e))
    | .ok oc => do
      guardErr (oc.keys = []) (errorf (str "sys.oracle: no keys"))
      guardErr (oc.threshold < 1 ∨ oc.threshold > oc.keys.length)
        (errorf (str "sys.oracle: invalid threshold " ++ decInt oc.threshold ++ str " for " ++
          dec oc.keys.length ++ str " keys"))
      guardErr (oc.allowedPrefix = []) (errorf (str "sys.oracle: no allowed_prefix"))
      .ok (some oc)

/-- The oracle configuration in force: an unreadable one is none. -/
def oracleInForce (json : Json) (kv : KVStore) : Option OracleConfig :=
  match oracleConfig json kv with
  | .error _ => none
  | .ok oc => oc

/-- `Phase`. -/
def phase (json : Json) (kv : KVStore) : Except GoError UInt8 :=
  match kv.get phaseKey with
  | none => .ok 1
  | some raw =>
    match json.phase raw with
    | .error e => .error (errorf (str "sys.phase: invalid JSON: " ++ e))
    | .ok phase =>
      if phase ≠ 1 ∧ phase ≠ 2 then
        .error (errorf (str "sys.phase: invalid value " ++ dec phase.toNat))
      else .ok phase

/-- `Tokenomics`, where a missing and an unreadable configuration are treated alike. -/
def tokenomics (json : Json) (kv : KVStore) : Option TokenomicsConfig :=
  match kv.get tokenomicsKey with
  | none => none
  | some raw => (json.tokenomics raw).toOption

/-- `DAOKeyset`. -/
def daoKeyset (json : Json) (kv : KVStore) : Except GoError DAOKeyset :=
  match kv.get daoKeysetKey with
  | none => .error (errorf (str "sys.dao_keyset not found in state"))
  | some raw =>
    match json.daoKeyset raw with
    | .error e => .error (errorf (str "sys.dao_keyset: invalid JSON: " ++ e))
    | .ok ks => do
      guardErr (ks.keys = []) (errorf (str "sys.dao_keyset: no keys"))
      guardErr (ks.threshold < minDAOThreshold ∨ ks.threshold > ks.keys.length)
        (errorf (str "sys.dao_keyset: invalid threshold " ++ decInt ks.threshold ++ str " for " ++
          dec ks.keys.length ++ str " keys (min " ++ decInt minDAOThreshold ++ str ")"))
      .ok ks

/-! ## Epochs -/

/-- `RCollusionFactorMilliDefault`. -/
def rCollusionFactorMilliDefault : UInt64 := 950

/-- `SMilliForPhase`. -/
def sMilliForPhase (phase : UInt8) : UInt16 :=
  if phase = 2 then 300 else 0

/-- `expectedRCollusion`. -/
def expectedRCollusion (twapMilliUSD sMilli factorMilli : UInt64) : UInt64 :=
  if twapMilliUSD = 0 then 0
  else if sMilli ≥ 1000 then 0
  else
    let factor := if factorMilli = 0 then rCollusionFactorMilliDefault else factorMilli
    factor * (1000 - sMilli) / twapMilliUSD

/-- The checks of an epoch's source of its rate. -/
def validateRSource (lib : Lib) (ev : EpochValue) (supportive : UInt64) : Except GoError Unit :=
  if ev.rSource = str "volume" then do
    guardErr (ev.rVolume ≤ ev.rPriceFloor)
      (errorf (str "r_source 'volume' but r_volume (" ++ dec ev.rVolume.toNat ++
        str ") <= r_price_floor (" ++ dec ev.rPriceFloor.toNat ++ str ")"))
    guardErr (ev.rCollusion ≠ 0 ∧ ev.rCollusion < ev.rVolume)
      (errorf (str "r_source 'volume' but r_collusion (" ++ dec ev.rCollusion.toNat ++
        str ") < r_volume (" ++ dec ev.rVolume.toNat ++ str ") — should be 'collusion'"))
  else if ev.rSource = str "price_floor" then do
    guardErr (ev.rPriceFloor ≤ ev.rVolume)
      (errorf (str "r_source 'price_floor' but r_price_floor (" ++ dec ev.rPriceFloor.toNat ++
        str ") <= r_volume (" ++ dec ev.rVolume.toNat ++ str ")"))
    guardErr (ev.rCollusion ≠ 0 ∧ ev.rCollusion < ev.rPriceFloor)
      (errorf (str "r_source 'price_floor' but r_collusion (" ++ dec ev.rCollusion.toNat ++
        str ") < r_price_floor (" ++ dec ev.rPriceFloor.toNat ++ str ") — should be 'collusion'"))
  else if ev.rSource = str "tied" then do
    guardErr (ev.rVolume ≠ ev.rPriceFloor)
      (errorf (str "r_source 'tied' but r_volume (" ++ dec ev.rVolume.toNat ++
        str ") != r_price_floor (" ++ dec ev.rPriceFloor.toNat ++ str ")"))
    guardErr (ev.rCollusion ≠ 0 ∧ ev.rCollusion < ev.rVolume)
      (errorf (str "r_source 'tied' but r_collusion (" ++ dec ev.rCollusion.toNat ++
        str ") < supportive (" ++ dec ev.rVolume.toNat ++ str ") — should be 'collusion'"))
  else if ev.rSource = str "collusion" then do
    guardErr (ev.rCollusion = 0)
      (errorf (str "r_source 'collusion' but r_collusion is zero"))
    guardErr (ev.rCollusion ≥ supportive)
      (errorf (str "r_source 'collusion' but r_collusion (" ++ dec ev.rCollusion.toNat ++
        str ") >= supportive max (" ++ dec supportive.toNat ++ str ")"))
  else
    .error (errorf (str ("epoch r_source must be 'volume', 'price_floor', 'tied', or " ++
      "'collusion', got ") ++ lib.quote ev.rSource))

/-- `validateEpochValue`. -/
def validateEpochValue (lib : Lib) (json : Json) (value : Str) (kv : KVStore) :
    Except GoError Unit :=
  match json.epochValue value with
  | .error e => .error (errorf (str "invalid epoch JSON: " ++ e))
  | .ok ev => do
    guardErr (ev.endNS ≤ ev.startNS)
      (errorf (str "epoch end_ns (" ++ decInt ev.endNS.toInt ++ str ") must be after start_ns (" ++
        decInt ev.startNS.toInt ++ str ")"))
    guardErr (ev.phase ≠ 1 ∧ ev.phase ≠ 2)
      (errorf (str "epoch phase must be 1 or 2, got " ++ dec ev.phase.toNat))
    let tc := tokenomics json kv
    let lo := (tc.map TokenomicsConfig.hermiteFloorMilli).getD 1000
    let hi := (tc.map TokenomicsConfig.hermiteCeilingMilli).getD 2000
    guardErr (ev.payoutCap ≠ 0 ∧ (ev.payoutCap < lo ∨ ev.payoutCap > hi))
      (errorf (str "epoch payout_cap (" ++ dec ev.payoutCap.toNat ++ str ") out of range [" ++
        dec lo.toNat ++ str ", " ++ dec hi.toNat ++ str "]"))
    guardErr (ev.sMilli ≠ sMilliForPhase ev.phase)
      (errorf (str "epoch s_milli (" ++ dec ev.sMilli.toNat ++ str ") does not match phase " ++
        dec ev.phase.toNat ++ str " (expected " ++ dec (sMilliForPhase ev.phase).toNat ++ str ")"))
    let factor := (tc.map TokenomicsConfig.rCollusionFactorMilli).getD rCollusionFactorMilliDefault
    let expectedRCol := expectedRCollusion ev.twapMilliUSD ev.sMilli.toUInt64 factor
    guardErr (ev.rCollusion ≠ 0 ∧ ev.rCollusion ≠ expectedRCol)
      (errorf (str "epoch r_collusion (" ++ dec ev.rCollusion.toNat ++ str ") != expected " ++
        dec expectedRCol.toNat ++ str " (twap=" ++ dec ev.twapMilliUSD.toNat ++ str ", s=" ++
        dec ev.sMilli.toNat ++ str ")"))
    let supportive := if ev.rPriceFloor > ev.rVolume then ev.rPriceFloor else ev.rVolume
    let expectedR :=
      if ev.rCollusion ≠ 0 ∧ ev.rCollusion < supportive then ev.rCollusion else supportive
    guardErr (ev.rEffective ≠ expectedR)
      (errorf (str "epoch r_effective (" ++ dec ev.rEffective.toNat ++ str ") != expected " ++
        dec expectedR.toNat ++ str " (r_vol=" ++ dec ev.rVolume.toNat ++ str ", r_pf=" ++
        dec ev.rPriceFloor.toNat ++ str ", r_col=" ++ dec ev.rCollusion.toNat ++ str ")"))
    validateRSource lib ev supportive
    match phase json kv with
    | .error _ => .ok ()
    | .ok chainPhase =>
      guardErr (chainPhase ≠ ev.phase)
        (errorf (str "epoch phase (" ++ dec ev.phase.toNat ++
          str ") does not match chain sys.phase (" ++ dec chainPhase.toNat ++ str ")"))

end Xe.StateChain
