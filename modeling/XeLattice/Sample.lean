import XeLattice.Inv.Steps
import XeLattice.SampleLib

/-!
# A sample network

A genesis block, a node and blocks over the sample library, on which runs of the ledger are
evaluated.
-/

set_option autoImplicit false
set_option maxRecDepth 100000

namespace Xe.Sample

/-! ## Hashes -/

/-- Hashes are ideal on inputs with distinct digests. -/
theorem idealHash_of_nodup {inputs : List Str} (h : (inputs.map digest).Nodup)
    (hz : zero32 ∉ inputs.map digest) : IdealHash lib {x | x ∈ inputs} where
  inj _ hx _ hy hxy := List.inj_on_of_nodup_map h hx hy hxy
  nonzero x hx hzero := hz (hzero ▸ List.mem_map_of_mem hx)
  network := by decide

/-! ## Accounts and blocks -/

/-- The address of a key. -/
def address (n : UInt8) : Str :=
  deriveAddressFromKey lib (List.replicate 32 n)

/-- A block with its hash. -/
def hashed (b : Block) : Block :=
  { b with hash := match hashBlock lib b with
    | .ok h => h
    | .error _ => [] }

/-- The inputs that the hashes of blocks are computed from. -/
def inputs (bs : List Block) : List Str :=
  bs.filterMap fun b => (preimage lib b).toOption

/-! ## The node -/

/-- The genesis block: its account holds the supply, and represents itself. -/
def genesis : Block := hashed
  { type := .genesis
    account := address 1
    previous := zeroPrev
    balance := genesisSupply
    asset := assetXE
    representative := address 1
    pubKey := pub 1
    signature := signature }

/-- A node without a key. -/
def node : Node where
  lib := lib
  storeKind := .badger
  difficulty := 0
  timestampWindow := 0
  genesis := genesis
  keyPair := none

/-- What the calls see. -/
def ctx : Ctx where
  node := node
  tid := 0
  now := 0
  timekeepers := none
  minters := []
  certificateLookup := none
  epochAt := none
  representatives := none
  fuel := 30
  mapOrder := id
  mapOrder_perm _ := .refl _

/-- The inputs of the hashes of a run on the given blocks. -/
def domain (bs : List Block) : Set Str :=
  {x | x ∈ inputs (genesis :: bs.map (submitted lib))}

theorem mem_inputs {bs : List Block} {b : Block} {data : Str} (hb : b ∈ bs)
    (h : preimage lib b = .ok data) : data ∈ inputs bs :=
  List.mem_filterMap.mpr ⟨b, hb, by rw [h]; rfl⟩

theorem genesis_domain (bs : List Block) : GenesisSealed lib (domain bs) genesis where
  valid := by decide +kernel
  hashed _ h := mem_inputs List.mem_cons_self h

theorem offered_add {bs : List Block} {b : Block} (hb : b ∈ bs) :
    (Op.addBlock b).Offered lib (domain bs) :=
  fun _ h => mem_inputs (List.mem_cons_of_mem _ (List.mem_map_of_mem hb)) h

/-- What adding blocks to a new ledger leads to is reachable. -/
theorem exists_reachable_adds (c : Ctx) (hc : c.node = node) (bs blocks : List Block)
    (hsub : ∀ b ∈ blocks, b ∈ bs) {P : State → Prop} [DecidablePred P]
    (hrun : (runNode c .badger (fun _ _ => true) (blocks.map fun b => (c, .addBlock b))).any
      (fun s => decide (P s)) = true) :
    ∃ s, Reachable node (domain bs) (fun _ _ => true = true) s ∧ P s := by
  refine exists_reachable c .badger _ hc (fun x hx => ?_) hrun
  obtain ⟨b, hb, rfl⟩ := List.mem_map.mp hx
  exact ⟨hc, offered_add (hsub b hb)⟩

/-- Whether the call adds a block that is no cancel. -/
def adds : Op → Bool
  | .addBlock b => decide ((submitted lib b).type ≠ .leaseCancel)
  | _ => false

/-- Adding blocks that are no cancels takes nothing off. -/
theorem exists_reachable_detaches {F : Book → Block → Prop} (c : Ctx) (hc : c.node = node)
    (bs : List Block) {P : State → Prop} [DecidablePred P]
    (hrun : (runNode c .badger (fun _ op => adds op) (bs.map fun b => (c, .addBlock b))).any
      (fun s => decide (P s)) = true) :
    ∃ s, Reachable node (domain bs) (fun s op => op.Detaches F lib s) s ∧ P s := by
  obtain ⟨s, h, hP⟩ := exists_reachable (D := domain bs) c .badger _ hc (fun x hx => by
    obtain ⟨b, hb, rfl⟩ := List.mem_map.mp hx
    exact ⟨hc, offered_add hb⟩) hrun
  refine ⟨s, h.mono fun s op hop => ?_, hP⟩
  cases op with
  | addBlock b =>
    exact ⟨fun hcancel => absurd hcancel (of_decide_eq_true hop), fun _ _ _ he => nomatch he⟩
  | addSyncedBlock | swapBlock | appendWinner => cases hop

/-! ## A payment -/

/-- The genesis account pays five units, and stands behind the receiver from then on. -/
def payment : Block := hashed
  { type := .send
    account := address 1
    previous := genesis.hash
    balance := genesisSupply - 5
    asset := assetXE
    representative := address 2
    destination := address 2
    amount := 5
    signature := signature }

/-- The receiver opens its account with the payment. -/
def receipt : Block := hashed
  { type := .receive
    account := address 2
    previous := zeroPrev
    balance := 5
    asset := assetXE
    source := payment.hash
    pubKey := pub 2
    signature := signature }

theorem payment_ideal : IdealHash lib (domain [payment, receipt]) :=
  idealHash_of_nodup (by decide +kernel) (by decide +kernel)

/-! ## A lease -/

/-- What the calls see on a network with leases: two minters, one of which is a provider. -/
def leaseCtx : Ctx :=
  { ctx with
    timekeepers := some ⟨[pub 9], 1⟩
    minters := [address 3, address 4]
    certificateLookup := some fun _ => some ⟨address 4, 1000000000000, 1000⟩ }

/-- One attestation of a time. -/
def attestedAt (t : Int64) : List TimekeeperAttestation :=
  [⟨pub 9, t, signature⟩]

/-- The first block of an account. -/
def mint (n : UInt8) (amount : UInt64) : Block := hashed
  { type := .mint
    account := address n
    previous := zeroPrev
    balance := amount
    asset := assetXUSD
    amount := amount
    pubKey := pub n
    signature := signature }

/-- A lease of the third account. -/
def lease : Block := hashed
  { type := .lease
    account := address 3
    previous := (mint 3 1000).hash
    balance := 666
    asset := assetXUSD
    destination := address 4
    amount := 334
    vcpus := 1
    duration := 60
    certificateHash := str "cert"
    signature := signature }

/-- The provider's acceptance. -/
def accept (t : Int64) : Block := hashed
  { type := .leaseAccept
    account := address 4
    previous := (mint 4 1).hash
    balance := 1
    timestamp := t
    asset := assetXUSD
    source := lease.hash
    certificateHash := str "cert"
    attestations := attestedAt 0
    lockedR := 1
    signature := signature }

/-- A renewal of the lease. -/
def renew : Block := hashed
  { type := .leaseRenew
    account := address 3
    previous := lease.hash
    balance := 332
    asset := assetXUSD
    source := lease.hash
    amount := 334
    duration := 60
    certificateHash := str "cert"
    attestations := attestedAt 1
    lockedR := 1
    signature := signature }

/-- A cancel that does not refund the lease. -/
def badCancel (previous : Str) : Block := hashed
  { type := .leaseCancel
    account := address 3
    previous := previous
    balance := 0
    asset := assetXUSD
    source := lease.hash
    signature := signature }

end Xe.Sample
