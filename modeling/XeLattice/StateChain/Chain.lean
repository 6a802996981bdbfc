import XeLattice.StateChain.Kv
import XeLattice.Core.State
import Mathlib.Data.Finset.Sort

/-!
# The state chain

`statechain/chain.go`, `statechain/genesis.go` and the state-block part of the two stores: the
genesis block, the rules that admit a block, and the replay of the stored blocks when a node starts.
-/

set_option autoImplicit false

namespace Xe.StateChain

section Signatures

variable (lib : Lib)

/-- `shortKey`. -/
def shortKey (s : Str) : Str :=
  s.take 12

/-- The loop over the signatures: each by a key of the list, none by the same text twice. -/
def countSigners (where_ : String) (keys : List Str) (hash : Str) (seen : List Str) :
    List BlockSignature → Except GoError ℕ
  | [] => .ok 0
  | sig :: sigs =>
    if sig.publicKey ∈ seen then
      .error (errorf (str "duplicate signer: " ++ shortKey sig.publicKey))
    else if sig.publicKey ∉ keys then
      .error (errorf (str "signer " ++ shortKey sig.publicKey ++ str " not in " ++ str where_))
    else
      match verifySignature lib hash sig with
      | .error e => .error (e.wrap (str "sig from " ++ shortKey sig.publicKey ++ str ": "))
      | .ok _ => do
        let n ← countSigners where_ keys hash (sig.publicKey :: seen) sigs
        .ok (n + 1)

/-- At least `threshold` signatures of a block by listed keys, and no other signature. -/
def verifyThreshold (where_ few : String) (keys : List Str) (threshold : ℤ) (b : Block) :
    Except GoError Unit := do
  guardErr (b.signatures = []) (errorf (str "no signatures"))
  let validCount ← countSigners lib where_ keys b.hash [] b.signatures
  guardErr ((validCount : ℤ) < threshold)
    (errorf (str few ++ str ": got " ++ dec validCount ++ str ", need " ++ decInt threshold))

/-- `verifyMultisig`. -/
def verifyMultisig (b : Block) (keyset : DAOKeyset) : Except GoError Unit :=
  verifyThreshold lib "keyset" "insufficient signatures" keyset.keys keyset.threshold b

/-- `verifyOracleMultisig`. -/
def verifyOracleMultisig (b : Block) (config : OracleConfig) : Except GoError Unit :=
  verifyThreshold lib "oracle keyset" "insufficient oracle signatures" config.keys config.threshold b

/-- `opsMatchPrefix`. -/
def opsMatchPrefix (ops : List Op) (start : Str) : Bool :=
  ops ≠ [] && ops.all (fun op => startsWith op.key start)

end Signatures

/-! ## Genesis -/

section Genesis

variable (lib : Lib) (json : Json)

/-- `epochPrefix`. -/
def epochPrefix : Str :=
  str "epoch."

/-- The prefix that the oracle of the genesis block governs, empty without one. -/
def governedPrefix (kv : KVStore) : Str :=
  ((oracleInForce json kv).map OracleConfig.allowedPrefix).getD []

/-- `validateGenesisOracleScope`. -/
def validateGenesisOracleScope (b : Block) (kv : KVStore) : Except GoError Unit :=
  let governed := governedPrefix json kv
  checkAll (fun op =>
      if op.action ≠ .set ∨ startsWith op.key epochPrefix = false then .ok ()
      else if governed ≠ [] ∧ startsWith op.key governed then .ok ()
      else .error (errorf (str "op " ++ lib.quote op.key ++
        str " is not governed by any sys.oracle allowed_prefix (" ++ lib.quote governed ++
        str ("): the epoch write-once and DAO-prefix guards both sit inside chain.go's " ++
          "oracleConfig branch, so a DAO block could overwrite it — seed a matching sys.oracle " ++
          "alongside, or seed neither"))))
    b.ops

/-- `ValidateGenesis`. -/
def validateGenesis (b : Block) : Except GoError Unit := do
  guardErr (b.index ≠ 0) (errorf (str "genesis: index must be 0, got " ++ dec b.index.toNat))
  guardErr (b.prevHash ≠ List.replicate 64 48)
    (errorf (str "genesis: prev_hash must be 64 zero chars"))
  guardErr (b.ops = []) (errorf (str "genesis: must have at least one op"))
  let expected ← (hashBlock lib b).mapError (GoError.wrap (str "genesis: "))
  guardErr (b.hash ≠ expected)
    (errorf (str "genesis: hash mismatch: got " ++ b.hash ++ str ", want " ++ expected))
  let kv := applyOps Table.empty b.ops
  let keyset ← (daoKeyset json kv).mapError (GoError.wrap (str "genesis: "))
  (validateGenesisOracleScope lib json b kv).mapError (GoError.wrap (str "genesis: "))
  if b.signatures ≠ [] then
    (verifyMultisig lib b keyset).mapError (GoError.wrap (str "genesis: "))
  else .ok ()

end Genesis

/-! ## The stores -/

/-- The state blocks that a store keeps, by their index. -/
abbrev StateBlocks := Table UInt64 Block

/-- `PutStateBlock` of either store: what is kept has passed through JSON. -/
def putStateBlock (blocks : StateBlocks) (b : Block) : StateBlocks :=
  blocks.set b.index b.copied

/-- How a store hands a kept block out: the memory store copies it through JSON once more. -/
def handOut : StoreKind → Block → Block
  | .mem, b => b.copied
  | .badger, b => b

/-- `StateBlockCount`. -/
def stateBlockCount (blocks : StateBlocks) : ℕ :=
  blocks.keys.card

/-- `GetStateBlock`. -/
def getStateBlock (kind : StoreKind) (blocks : StateBlocks) (index : UInt64) : Option Block :=
  (blocks.get index).map (handOut kind)

/-- `GetStateBlockRange`: the memory store looks every index up, the badger store walks the keys
in their order. -/
def getStateBlockRange (kind : StoreKind) (blocks : StateBlocks) (start : UInt64) (count : ℕ) :
    List Block :=
  match kind with
  | .mem =>
    (List.range count).filterMap fun i => getStateBlock .mem blocks (start + UInt64.ofNat i)
  | .badger =>
    (((blocks.keys.filter (start ≤ ·)).image UInt64.toNat).sort.take count).filterMap fun i =>
      getStateBlock .badger blocks (UInt64.ofNat i)

/-! ## The chain -/

/-- `Chain`. -/
structure Chain where
  kind : StoreKind
  store : StateBlocks
  kv : KVStore
  tip : Block
  genesis : Block

section Chain

variable (lib : Lib) (json : Json)

/-- `verifyBlockSignatures`. -/
def verifyBlockSignatures (kv : KVStore) (b : Block) : Except GoError Unit :=
  let byDAO : Except GoError Unit := do
    let keyset ← (daoKeyset json kv).mapError (GoError.wrap (str "cannot load keyset: "))
    verifyMultisig lib b keyset
  match oracleInForce json kv with
  | some config => if opsMatchPrefix b.ops config.allowedPrefix then verifyOracleMultisig lib b config
    else byDAO
  | none => byDAO

/-- `applyValidated`. -/
def Chain.applyValidated (c : Chain) (b : Block) : Chain :=
  { c with kv := applyOps c.kv b.ops, tip := b }

/-- One block of `replay`. -/
def replayBlock (c : Chain) (expected : ℕ) (b : Block) : Except GoError Chain :=
  let at_ := GoError.wrap (str "block " ++ dec b.index.toNat ++ str ": ")
  do
    guardErr (b.index.toNat ≠ expected)
      (errorf (str "gap: expected block " ++ dec expected ++ str ", store has " ++
        dec b.index.toNat))
    (verifyBlockHash lib b).mapError at_
    guardErr (b.prevHash ≠ c.tip.hash)
      (at_ (errorf (str "prev_hash mismatch: expected " ++ c.tip.hash ++ str ", got " ++
        b.prevHash)))
    (verifyBlockSignatures lib json c.kv b).mapError at_
    .ok (c.applyValidated b)

/-- The loop of `replay`; `expected` is the index of the next block. -/
def replayBlocks (c : Chain) (expected : ℕ) : List Block → Except GoError (Chain × ℕ)
  | [] => .ok (c, expected)
  | b :: bs => do
    let c' ← replayBlock lib json c expected b
    replayBlocks c' (expected + 1) bs

/-- `replay`. -/
def replay (c : Chain) : Except GoError Chain := do
  let count := stateBlockCount c.store
  let (c', expected) ← replayBlocks lib json c 1 (getStateBlockRange c.kind c.store 1 count)
  guardErr (expected - 1 ≠ count)
    (errorf (str "gap: store reports " ++ dec count ++ str " blocks but only " ++
      dec (expected - 1) ++ str " were readable"))
  .ok c'

/-- `NewChain`. -/
def newChain (kind : StoreKind) (store : StateBlocks) (genesis : Block) : Except GoError Chain := do
  (validateGenesis lib json genesis).mapError (GoError.wrap (str "NewChain: "))
  let c ← (replay lib json ⟨kind, store, applyOps Table.empty genesis.ops, genesis, genesis⟩).mapError
    (GoError.wrap (str "NewChain: replay: "))
  let _ ← (daoKeyset json c.kv).mapError (GoError.wrap (str "NewChain: "))
  .ok c

/-- A block at or below the tip: it is known, or a fork, which the node is told of. -/
def addKnown (c : Chain) (b : Block) : Except GoError Chain :=
  let stored := getStateBlock c.kind c.store b.index
  let existing := if stored = none ∧ b.index = 0 then some c.genesis else stored
  match existing with
  | none => .ok c
  | some existing =>
    if existing.hash = b.hash then .ok c
    else .error (errorf (str "fork detected at index " ++ dec b.index.toNat ++ str ": existing " ++
      existing.hash ++ str ", incoming " ++ b.hash))

/-- The checks on the operations of a new block, each against the contents before the block. -/
def validateOps (c : Chain) (b : Block) : Except GoError Unit :=
  checkAll (fun op => do
    validateOp lib json op
    validateTransition lib json c.kv c.tip b op) b.ops

/-- The value that an operation under the oracle's prefix sets is an epoch. -/
def validateEpochOp (kv : KVStore) (op : Op) : Except GoError Unit :=
  if op.action = .set then
    (validateEpochValue lib json op.value kv).mapError (GoError.wrap (str "epoch validation: "))
  else .ok ()

/-- A block under the oracle's prefix: epochs that do not exist yet, signed by the oracle. -/
def authoriseOracle (c : Chain) (config : OracleConfig) (b : Block) : Except GoError Unit := do
  checkAll (fun op => do
    validateEpochOp lib json c.kv op
    guardErr ((c.kv.get op.key).isSome)
      (errorf (str "epoch key " ++ lib.quote op.key ++ str " already exists (write-once)"))) b.ops
  verifyOracleMultisig lib b config

/-- A block of the DAO, which keeps off the oracle's prefix. -/
def authoriseDAO (c : Chain) (oracle : Option OracleConfig) (b : Block) : Except GoError Unit := do
  let keyset ← (daoKeyset json c.kv).mapError (GoError.wrap (str "cannot load keyset: "))
  verifyMultisig lib b keyset
  match oracle with
  | none => .ok ()
  | some config =>
    checkAll (fun op => guardErr (startsWith op.key config.allowedPrefix)
      (errorf (str "DAO block cannot write to oracle prefix " ++ lib.quote config.allowedPrefix ++
        str " (key: " ++ op.key ++ str ")"))) b.ops

/-- Who has to sign a block, and what else it then has to respect. -/
def authorise (c : Chain) (b : Block) : Except GoError Unit :=
  match oracleInForce json c.kv with
  | some config =>
    if opsMatchPrefix b.ops config.allowedPrefix then authoriseOracle lib json c config b
    else authoriseDAO lib json c (some config) b
  | none => authoriseDAO lib json c none b

/-- `AddBlock`. -/
def addBlock (c : Chain) (b : Block) : Except GoError Chain := do
  verifyBlockHash lib b
  if b.index ≤ c.tip.index then addKnown c b
  else
    guardErr (b.index ≠ c.tip.index + 1)
      (errorf (str "expected index " ++ dec (c.tip.index + 1).toNat ++ str ", got " ++
        dec b.index.toNat ++ str ": statechain gap"))
    guardErr (b.prevHash ≠ c.tip.hash)
      (errorf (str "prev_hash mismatch: expected " ++ c.tip.hash ++ str ", got " ++ b.prevHash))
    guardErr (b.timestamp < c.tip.timestamp)
      (errorf (str "timestamp " ++ decInt b.timestamp.toInt ++ str " is before previous " ++
        decInt c.tip.timestamp.toInt))
    guardErr (b.ops = []) (errorf (str "block has no ops"))
    let blockJSON ← (marshalJSON json b).mapError (GoError.wrap (str "cannot marshal block: "))
    guardErr (blockJSON.length > maxBlockSize)
      (errorf (str "block size " ++ dec blockJSON.length ++ str " exceeds limit " ++
        dec maxBlockSize))
    validateOps lib json c b
    authorise lib json c b
    .ok { c with store := putStateBlock c.store b, kv := applyOps c.kv b.ops, tip := b }

/-! ## Readers -/

/-- `activationsLocked`: an unreadable schedule is empty. -/
def Chain.activations (c : Chain) : Activations :=
  match c.kv.get activationsKey with
  | none => noActivations
  | some raw =>
    match parseActivations json raw with
    | .error _ => noActivations
    | .ok a => a

/-- `FeatureActive`. -/
def Chain.featureActive (c : Chain) (feature : Str) : Bool :=
  (c.activations json).activeAt feature c.tip.index c.tip.timestamp

/-- `Chain.Phase`, where an unreadable phase is zero. -/
def Chain.phase (c : Chain) : UInt8 :=
  match StateChain.phase json c.kv with
  | .error _ => 0
  | .ok p => p

/-- `MinProtocolVersion`. -/
def Chain.minProtocolVersion (c : Chain) : Str :=
  match c.kv.get minProtocolVersionKey with
  | none => []
  | some raw =>
    match json.string raw with
    | .error _ => []
    | .ok v => if isProtocolVersion v then v else []

end Chain

end Xe.StateChain
