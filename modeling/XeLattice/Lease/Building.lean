import XeLattice.Inv.Votes
import XeLattice.Lease.Archive
import XeLattice.Lease.Attested
import XeLattice.Lease.Emission
import XeLattice.StateChain.Epochs

/-!
# Building settlements

`node/node.go`: the provider of an accepted lease builds its settlement, and the consumer a forced
one when the provider has not.  The builders compute the amounts from the record of the lease, the
ledger those it asks for from the escrow, and a renewal raises the escrow only.

* **`built_settlement_accepted_iff`**: when the ledger takes what the node has built.
-/

set_option autoImplicit false
set_option maxRecDepth 100000

namespace Xe

open Prog

/-! ## The builders -/

/-- `SignBlock`. -/
def signBlock (lib : Lib) (kp : KeyPair) (b : Block) : Except GoError Block := do
  let b := if b.previous = zeroPrev ∧ b.pubKey = [] ∧ b.signatures = [] ∧
      b.type ≠ .multisigOpen ∧ b.type ≠ .multisigUpdate then { b with pubKey := kp.pubKeyHex }
    else b
  let hash ← hashBlock lib b
  let hashBytes ← (decodeHash hash).mapError (GoError.wrap (str "SignBlock: "))
  .ok { b with hash := hash, signature := hexEncode (kp.sign hashBytes) }

/-- What a node builds blocks with: its key, what its peers answer when it gathers attestations, and
the nonce that its search for a proof of work ends with. -/
structure Builder where
  keyPair : KeyPair
  gatherAttestations : Str → TimekeeperConfig → Option (List TimekeeperAttestation)
  computePoW : Str → UInt64 → UInt64

section Builders

variable (c : Ctx) (w : Builder) (lease : Lease)

/-- The account of the key pair. -/
def Builder.account : Str :=
  c.node.address w.keyPair

/-- `solvePoW`. -/
def solvePoW (b : Block) : Block :=
  if c.node.difficulty = 0 then b
  else { b with powNonce := w.computePoW ((hexDecode b.hash).toOption.getD []) c.node.difficulty }

/-- The attestations for a lease, none without timekeepers. -/
def attestationsFor : Option (List TimekeeperAttestation) :=
  match c.timekeepers with
  | none => some []
  | some config => w.gatherAttestations lease.leaseHash config

/-- The unsigned block that pays `amount` for the lease. -/
def unsignedFor (type : BlockType) (asset : Str) (amount : UInt64)
    (attestations : List TimekeeperAttestation) (last : Block) (old : UInt64) : Block where
  type := type
  account := w.account c
  previous := last.hash
  balance := old + amount
  timestamp := c.now
  asset := asset
  source := lease.leaseHash
  amount := amount
  attestations := attestations

/-- The course of both builders up to `AddBlock`; without a result they return early. -/
def buildFor (type : BlockType) (asset : Str) (amount : UInt64) : M (Option Block) :=
  if lease.cost = 0 then pure none
  else
    match attestationsFor c w lease with
    | none => pure none
    | some attestations => do
      match ((← getAccountChain (w.account c)).getD []).getLast? with
      | none => pure none
      | some last => do
        let old ← readMem (·.getAssetBalance (w.account c) asset)
        match signBlock c.lib w.keyPair
            (unsignedFor c w lease type asset amount attestations last old) with
        | .error _ => pure none
        | .ok b => pure (some (solvePoW c w b))

/-- `leaseSettleAmount`. -/
def leaseSettleAmount : UInt64 :=
  match leaseTotalEmission lease with
  | .error _ => 0
  | .ok amount => amount

/-- The block that `settleLease` adds. -/
def settleLeaseBlock : M (Option Block) :=
  buildFor c w lease .leaseSettle assetXE (leaseSettleAmount lease)

/-- The block that `forceSettleLease` adds. -/
def forceSettleLeaseBlock : M (Option Block) :=
  buildFor c w lease .leaseForceSettle assetXUSD lease.cost

end Builders

/-! ## What is built -/

section Built

variable {c : Ctx} {w : Builder} {s s' : State} {lease : Lease} {b b' : Block} {type : BlockType}
  {asset : Str} {amount : UInt64}

theorem decodeSized_hexEncode (what : String) {size : ℕ} {x : Str} (h : x.length = size) :
    decodeSized what size (hexEncode x) = .ok x := by
  unfold decodeSized
  rw [hexDecode_hexEncode]
  exact if_pos h

theorem toLower_hexEncode (lib : Lib) (x : Str) : toLower lib (hexEncode x) = hexEncode x := by
  unfold toLower
  rw [if_pos (isAscii_of_hexDecode (hexDecode_hexEncode x))]
  calc (hexEncode x).map lowerByte = (hexEncode x).map id :=
        List.map_congr_left (lower_hexEncode x)
    _ = hexEncode x := List.map_id _

theorem signBlock_eq_ok {lib : Lib} {kp : KeyPair} (hp : b.previous ≠ zeroPrev) :
    signBlock lib kp b = .ok b' ↔ ∃ data, preimage lib b = .ok data ∧
      b' = { b with
        hash := hexEncode (lib.sha256 (lib.networkID ++ data))
        signature := hexEncode (kp.sign (lib.sha256 (lib.networkID ++ data))) } := by
  unfold signBlock hashBlock hashBlockOn
  simp only [hp, false_and, if_false, bind_eq_ok, mapError_eq_ok, Except.ok.injEq]
  have hdec : ∀ x, decodeHash (hexEncode (lib.sha256 x)) = .ok (lib.sha256 x) :=
    fun x => decodeSized_hexEncode "hash" (lib.length_sha256 x)
  constructor
  · rintro ⟨hash, ⟨data, hdata, rfl⟩, bytes, hbytes, rfl⟩
    rw [hdec] at hbytes
    cases hbytes
    exact ⟨data, hdata, rfl⟩
  · rintro ⟨data, hdata, rfl⟩
    exact ⟨_, ⟨data, hdata, rfl⟩, _, hdec _, rfl⟩

/-- **What a builder returns**, on a node whose chains have hashes of their own. -/
structure Built (c : Ctx) (w : Builder) (s : State) (lease : Lease) (type : BlockType) (asset : Str)
    (amount : UInt64) (b : Block) : Prop where
  chain : ∃ chain last, s.store.chains.get (w.account c) = some chain ∧
    chain.getLast? = some last ∧ b.previous = last.hash
  type : b.type = type
  account : b.account = w.account c
  balance : b.balance = s.mem.getAssetBalance (w.account c) asset + amount
  timestamp : b.timestamp = c.now
  asset : b.asset = asset
  source : b.source = lease.leaseHash
  amount : b.amount = amount
  notOpening : b.previous ≠ zeroPrev
  unsigned : b.signatures = []
  pubKey : b.pubKey = []
  lowered : submitted c.lib b = b
  signed : ∃ x, b.hash = hexEncode (c.lib.sha256 x) ∧ hashBlock c.lib b = .ok b.hash ∧
    b.signature = hexEncode (w.keyPair.sign (c.lib.sha256 x))
  pow : c.node.difficulty ≠ 0 → ∀ x, b.hash = hexEncode x →
    b.powNonce = w.computePoW x c.node.difficulty

theorem solvePoW_eq (c : Ctx) (w : Builder) (b : Block) :
    ∃ n, solvePoW c w b = { b with powNonce := n } ∧ (c.node.difficulty ≠ 0 →
      n = w.computePoW ((hexDecode b.hash).toOption.getD []) c.node.difficulty) := by
  unfold solvePoW
  by_cases h : c.node.difficulty = 0
  · exact ⟨b.powNonce, if_pos h, fun hne => absurd h hne⟩
  · exact ⟨_, if_neg h, fun _ => rfl⟩

theorem built_of_run {D : Set Str} (hg : GenesisSealed c.lib D c.node.genesis)
    (hi : s.Inv c.node D) (hlease : ∃ x, lease.leaseHash = hexEncode x)
    (ht : isAttested type = true)
    (hrun : (buildFor c w lease type asset amount).run s = some (.ok (some b), s')) :
    s' = s ∧ Built c w s lease type asset amount b := by
  unfold buildFor at hrun
  by_cases hcost : lease.cost = 0
  · rw [if_pos hcost] at hrun
    cases hrun
  rw [if_neg hcost] at hrun
  cases hatt : attestationsFor c w lease with
  | none =>
    rw [hatt] at hrun
    cases hrun
  | some attestations =>
    simp only [hatt] at hrun
    rw [run_bind_of_ok (run_getAccountChain s (w.account c))] at hrun
    cases hlast : ((s.store.chains.get (w.account c)).getD []).getLast? with
    | none =>
      simp only [hlast] at hrun
      cases hrun
    | some last =>
      simp only [hlast] at hrun
      rw [run_readMem_bind] at hrun
      have hon : s.book.On last := .of_mem hi.wf (List.mem_of_getLast? hlast)
      obtain ⟨input, -, hlasthash⟩ := (hi.on_filed hon).hash hg
      have hprev : (unsignedFor c w lease type asset amount attestations last
          (s.mem.getAssetBalance (w.account c) asset)).previous ≠ zeroPrev := by
        intro h
        have hlen := (hi.on_filed hon).length hg
        rw [show last.hash = zeroPrev from h] at hlen
        cases hlen
      cases hsign : signBlock c.lib w.keyPair (unsignedFor c w lease type asset amount attestations
          last (s.mem.getAssetBalance (w.account c) asset)) with
      | error e =>
        simp only [hsign] at hrun
        cases hrun
      | ok signed =>
        simp only [hsign] at hrun
        obtain ⟨data, hdata, rfl⟩ := (signBlock_eq_ok hprev).mp hsign
        obtain ⟨nonce, hsolved, hnonce⟩ := solvePoW_eq c w { unsignedFor c w lease type asset amount
          attestations last (s.mem.getAssetBalance (w.account c) asset) with
            hash := hexEncode (c.lib.sha256 (c.lib.networkID ++ data))
            signature := hexEncode (w.keyPair.sign (c.lib.sha256 (c.lib.networkID ++ data))) }
        rw [hsolved] at hrun
        cases hrun
        obtain ⟨y, hsource⟩ := hlease
        refine ⟨rfl, ⟨_, last, Book.get_of_chain (k := s.book) (List.ne_nil_of_mem
          (List.mem_of_getLast? hlast)), hlast, rfl⟩, rfl, rfl, rfl, rfl, rfl, rfl, rfl, hprev,
          rfl, rfl, ?_, ⟨c.lib.networkID ++ data, rfl, ?_, rfl⟩, ?_⟩
        · have hlow := toLower_hexEncode c.lib
          have haccount : w.account c = hexEncode (c.lib.sha256 (accountAddressDomain ++
            w.keyPair.pub)) := rfl
          have hnil : toLower c.lib [] = [] := rfl
          simp only [submitted, normalizeBlockHex, unsignedFor, ht, if_true, hsource, haccount,
            hlasthash, hlow, hnil, List.map_nil, Option.map_none]
        · rw [hashBlock, hashBlockOn, bind_eq_ok]
          exact ⟨data, by rw [mapError_eq_ok]; exact hdata, rfl⟩
        · intro hne x hx
          rw [hnonce hne, show hexEncode (c.lib.sha256 (c.lib.networkID ++ data)) = hexEncode x from hx,
            hexDecode_hexEncode]
          rfl

end Built

/-! ## The blocks of the leases -/

/-- The record of a lease stands for a lease block of its consumer. -/
def Book.LeaseBlocks (k : Book) : Prop :=
  ∀ h l, k.leases.get h = some l →
    ∃ lb, k.On lb ∧ lb.hash = h ∧ lb.type = .lease ∧ lb.account = l.consumer

section LeaseBlocks

variable {k k' : Book} {b : Block}

theorem Book.LeaseBlocks.set (h : k.LeaseBlocks) {x y : Str} {l l₀ l' : Lease}
    (hrecord : k.leases.get x = some l₀) (hl : (k.leases.set x l').get y = some l)
    (hsame : l'.consumer = l₀.consumer) :
    ∃ lb, k.On lb ∧ lb.hash = y ∧ lb.type = .lease ∧ lb.account = l.consumer := by
  rw [Table.get_set] at hl
  split_ifs at hl with hy
  · cases hl
    obtain ⟨lb, hon, hhash, htype, hacc⟩ := h x l₀ hrecord
    exact ⟨lb, hon, hhash.trans hy.symm, htype, hacc.trans hsame.symm⟩
  · exact h y l hl

theorem Appended.leaseBlocks {stale : Str → Prop} (hk : k.Wf) (h : k.LeaseBlocks)
    (ha : Appended stale k b k') : k'.LeaseBlocks := by
  intro y l hl
  suffices hold : (∃ lb, k.On lb ∧ lb.hash = y ∧ lb.type = .lease ∧ lb.account = l.consumer) ∨
      b.hash = y ∧ b.type = .lease ∧ b.account = l.consumer by
    rcases hold with ⟨lb, hon, hrest⟩ | hnew
    · exact ⟨lb, (ha.on_iff lb).mpr (.inl hon), hrest⟩
    · exact ⟨b, (ha.on_iff b).mpr (.inr rfl), hnew⟩
  have hent := ha.entry
  generalize k'.pending = pending at hent
  generalize k'.leases = leases at hent hl
  cases hent with
  | send | burn | receive | mint | multisigOpen | multisigUpdate => exact .inl (h y l hl)
  | lease type =>
    rw [Table.get_set] at hl
    split_ifs at hl with hy
    · cases hl
      exact .inr ⟨hy.symm, type, rfl⟩
    · exact .inl (h y l hl)
  | leaseAccept lb l' t _ _ block _ _ record =>
    -- the accepted record is written from the block itself
    obtain ⟨lb', hon, hhash, -, hacc⟩ := h _ _ record
    have hsame : lb' = lb := by
      have hknown := hk.known lb' hon
      rw [hhash, block] at hknown
      exact (Option.some.inj hknown).symm
    subst hsame
    exact .inl (h.set record hl hacc)
  | leaseCancel lb l' ps _ _ _ _ _ record => exact .inl (h.set record hl rfl)
  | leaseForceSettle lb l' ps paid _ _ _ _ _ record => exact .inl (h.set record hl rfl)
  | leaseSettle l' ps _ _ record => exact .inl (h.set record hl rfl)
  | leaseRenew l' ps t _ _ record => exact .inl (h.set record hl rfl)

theorem Removed.leaseBlocks (hk : k.Wf) (h : k.LeaseBlocks) (hr : Removed k b k') :
    k'.LeaseBlocks := by
  intro y l hl
  -- the block of the record stays, unless the record goes with it
  have stays : (b.type = .lease → b.hash ≠ y) →
      (∃ lb, k.On lb ∧ lb.hash = y ∧ lb.type = .lease ∧ lb.account = l.consumer) →
      ∃ lb, k'.On lb ∧ lb.hash = y ∧ lb.type = .lease ∧ lb.account = l.consumer := by
    rintro hne ⟨lb, hon, hhash, htype, hacc⟩
    refine ⟨lb, (hr.on_iff hk lb).mpr ⟨hon, ?_⟩, hhash, htype, hacc⟩
    rintro rfl
    exact hne htype hhash
  have hexit := hr.exit
  generalize k'.pending = pending at hexit
  generalize k'.leases = leases at hexit hl
  cases hexit with
  | send type | receive type => exact stays (by rw [type]; intro h; cases h) (h y l hl)
  | rest type =>
    refine stays ?_ (h y l hl)
    rcases type with type | type | type <;> rw [type] <;> intro h <;> cases h
  | lease type =>
    rw [Table.get_del] at hl
    split_ifs at hl with hy
    exact stays (fun _ hb => hy hb.symm) (h y l hl)
  | leaseAccept l' type record | leaseCancel l' type record | leaseSettle l' type record
  | leaseForceSettle l' type record =>
    exact stays (by rw [type]; intro h; cases h) (h.set record hl rfl)
  | leaseRenew l' l'' type record popped =>
    refine stays (by rw [type]; intro h; cases h) (h.set record hl ?_)
    unfold popRenewal at popped
    split_ifs at popped
    cases popped
    rfl

/-- **The record of a lease stands for a block of its consumer, in every reachable state.** -/
theorem Reachable.leaseBlocks {node : Node} {D : Set Str} {s : State} {ok : State → Op → Prop}
    (hD : IdealHash node.lib D) (hg : GenesisSealed node.lib D node.genesis)
    (h : Reachable node D ok s) : s.book.LeaseBlocks := by
  have hkept : Kept node D fun s => s.book.LeaseBlocks :=
    { undo := fun hi hs hu _ _ => (hu.removed hi.wf).leaseBlocks hi.wf hs
      commit := fun hi hs hc _ _ => hc.appended.leaseBlocks hi.wf hs
      note := fun _ hs hn => by rw [hn.book]; exact hs }
  refine h.kept hD hg hkept ?_
  rintro c kind s rfl hrun
  obtain rfl := newLedger_ok hrun
  intro y l hl
  change ((State.empty kind).committed (genesisRequest c kind)).book.leases.get y = some l at hl
  rw [(genesis_book c kind).leases] at hl
  cases hl

end LeaseBlocks

/-! ## When it is taken -/

section Conditions

variable (c : Ctx) (w : Builder) (s : State) (lease : Lease) (b : Block)

/-- The node has the key of its account, its signatures verify, and its search for a proof of work
finds one. -/
structure Builder.Able : Prop where
  key : s.mem.accountKeys.get (w.account c) = some w.keyPair.pubKeyHex
  keyset : s.mem.keysets.get (w.account c) = none
  pub : w.keyPair.pub.length = 32
  signature : ∀ message, (w.keyPair.sign message).length = 64
  verifies : ∀ message, c.lib.ed25519Verify w.keyPair.pub message (w.keyPair.sign message) = true
  nonce : ∀ x, c.lib.powHash (w.computePoW x c.node.difficulty) x ≥ c.node.difficulty

/-- Nothing else happens around the block: it is new, its account is not in conflict, and nobody
holds its locks. -/
structure Unhindered : Prop where
  fresh : s.store.blocks.get b.hash = none
  uncontested : ¬ ∃ k ∈ s.store.conflicts.keys, k.1 = b.account
  account : s.locks (.account b.account) = none
  lease : s.locks (.lease b.source) = none

/-- The clock is not behind the last block of the account nor, where timestamps are checked, before
their origin. -/
structure ClockReady : Prop where
  origin : c.node.timestampWindow > 0 → ¬ c.now < 0
  last : ∀ last ∈ (s.book.chain (w.account c)).getLast?, ¬ c.now < last.timestamp

/-- The escrow of the lease stands, and nothing overflows on the way to the balance that the emission
leaves. -/
structure SettleReady : Prop where
  clock : ClockReady c w s
  escrow : s.store.pending.get lease.leaseHash ≠ none
  products : ∀ part ∈ lease.parts, part.1 * part.2 < 2 ^ 64
  sum : (s.mem.getAssetBalance (w.account c) assetXE).toNat + (lease.parts.map emissionOf).sum <
    2 ^ 64

/-- The escrow of the lease stands at the cost in its record, and the balance has room for it. -/
structure ForceReady : Prop where
  clock : ClockReady c w s
  escrow : ∃ ps, s.store.pending.get lease.leaseHash = some ps ∧ ps.amount = lease.cost
  sum : (s.mem.getAssetBalance (w.account c) assetXUSD).toNat + lease.cost.toNat < 2 ^ 64

end Conditions

section Accepted

variable {c : Ctx} {w : Builder} {s : State} {lease : Lease} {b : Block} {type : BlockType}
  {asset : Str} {amount : UInt64}

theorem Built.validatePubKeyDeclaration (hb : Built c w s lease type asset amount b) :
    validatePubKeyDeclaration c.lib b = .ok () := by
  unfold Xe.validatePubKeyDeclaration
  rw [if_neg (not_not.mpr hb.unsigned), if_neg hb.notOpening, guardErr_eq_ok]
  exact not_not.mpr hb.pubKey

theorem Built.checkForm_iff (hb : Built c w s lease type asset amount b) (hable : w.Able c s)
    (hlen : b.attestations.length ≤ maxAttestationsPerBlock) :
    (checkForm c b false).run s = some (.ok (), s) ↔
      (c.node.timestampWindow > 0 → ¬ c.now < 0) := by
  have hverify : verifyBlock c.lib b = .ok () := by
    obtain ⟨x, -, hhash, -⟩ := hb.signed
    unfold verifyBlock verifyBlockOn
    rw [bind_eq_ok]
    refine ⟨b.hash, by rw [mapError_eq_ok]; exact hhash, ?_⟩
    rw [bind_eq_ok]
    refine ⟨(), by simp, ?_⟩
    rw [hb.validatePubKeyDeclaration]
    change (if b.signatures ≠ [] then _ else _) = _
    rw [if_neg (not_not.mpr hb.unsigned), if_pos hb.notOpening]
  have hpow : ∀ x, b.hash = hexEncode x → c.node.difficulty > 0 →
      c.lib.powHash b.powNonce x ≥ c.node.difficulty := by
    intro x hx hd
    have hne : c.node.difficulty ≠ 0 := by
      intro h
      rw [h] at hd
      exact absurd hd (by decide)
    rw [hb.pow hne x hx]
    exact hable.nonce x
  have hsynced : (checkForm c b true).run s = some (.ok (), s) := by
    obtain ⟨x, hhash, -⟩ := hb.signed
    unfold checkForm
    simp only [run_failIf_bind_ok, run_liftErr_bind_ok, Bool.true_eq_false, false_and, if_false]
    refine ⟨by omega, (), hverify, ?_⟩
    by_cases hd : c.node.difficulty > 0
    · rw [if_pos hd, hhash, hexDecode_hexEncode]
      simp only [if_neg (not_not.mpr (hpow _ hhash hd))]
      rfl
    · rw [if_neg hd]
      rfl
  rw [checkForm_live_iff, and_iff_right hsynced]
  unfold TimestampNear
  rw [hb.timestamp, if_neg (by simp), Int64.sub_self]
  refine forall_congr' fun hw => and_iff_left ?_
  intro hgt
  exact absurd (Int64.lt_trans hgt hw) (by simp)

theorem Built.credential (hb : Built c w s lease type asset amount b)
    (hable : w.Able c s) : (verifyBlockCredential c.lib b).run s = some (.ok (), s) := by
  have hvalid : verifyBlockSignatureWith c.lib b w.keyPair.pubKeyHex = .ok () := by
    obtain ⟨x, hhash, -, hsig⟩ := hb.signed
    have hbytes : decodeHash b.hash = .ok (c.lib.sha256 x) := by
      rw [hhash]
      exact decodeSized_hexEncode "hash" (c.lib.length_sha256 x)
    have hpub : decodePublicKey w.keyPair.pubKeyHex = .ok w.keyPair.pub :=
      decodeSized_hexEncode "public key" hable.pub
    have hsigned : decodeSignature b.signature = .ok (w.keyPair.sign (c.lib.sha256 x)) := by
      rw [hsig]
      exact decodeSized_hexEncode "signature" (hable.signature _)
    unfold verifyBlockSignatureWith verifyHexSignature
    simp only [bind_eq_ok, hbytes, hpub, hsigned, guardErr_eq_ok]
    refine ⟨_, rfl, _, rfl, _, rfl, ?_⟩
    rw [hable.verifies]
    decide
  have hkey : (getAccountKey b.account).run s = some (.ok w.keyPair.pubKeyHex, s) := by
    unfold getAccountKey
    rw [run_readMem_bind, hb.account, hable.key]
    rfl
  have hne : w.keyPair.pubKeyHex ≠ [] := by
    intro h
    have hlen := congrArg List.length h
    rw [KeyPair.pubKeyHex, length_hexEncode, hable.pub] at hlen
    cases hlen
  unfold verifyBlockCredential
  rw [run_liftErr_bind_ok]
  refine ⟨(), hb.validatePubKeyDeclaration, ?_⟩
  rw [if_neg (not_not.mpr hb.unsigned), run_getKeyset_bind, run_failIf_bind_ok, hb.account,
    hable.keyset, if_neg hb.notOpening]
  refine ⟨not_not.mpr rfl, ?_⟩
  rw [hb.account] at hkey
  rw [run_bind_of_ok hkey, run_failIf_bind_ok]
  refine ⟨hne, ?_⟩
  rw [run_pure_bind, run_liftErr_ok]
  exact ⟨hvalid, rfl⟩

theorem InTime.length_le {skip : Bool} (h : InTime c b lease skip) :
    b.attestations.length ≤ maxAttestationsPerBlock := by
  obtain ⟨t, ht, -⟩ := h
  unfold attestedTime at ht
  obtain ⟨tk, -, ht⟩ := Option.bind_eq_some_iff.mp ht
  cases hval : validateAttestations c.lib b.attestations b.source tk skip c.now
      c.timing.maxAttestationSkew with
  | error e =>
    rw [hval] at ht
    cases ht
  | ok t' =>
    exact (TimeCheck.validate_eq_ok
      (q := ⟨c.lib, tk, b.source, skip, c.now, c.timing.maxAttestationSkew⟩).mp hval).2.1

/-- **When the ledger takes a settlement that the node has built**: the clock is right and the
payment is the one that the ledger computes. -/
theorem Built.accepted_iff (hb : Built c w s lease type asset amount b) (ht : SettlesLease b)
    {D : Set Str} (hi : s.Inv c.node D) (hable : w.Able c s) (hund : Unhindered s b)
    (hl : s.store.leases.get lease.leaseHash = some lease) (hstate : lease.state = .accepted)
    (hopen : lease.settled = false) (hin : InTime c b lease false) :
    (∃ s', (addNewBlock c b).run s = some (.ok (), s')) ↔
      ClockReady c w s ∧ ∃ p, Payment s.reads b lease p := by
  obtain ⟨chain, last, hchain, hlast, hprev⟩ := hb.chain
  have hcur : s.book.chain (w.account c) = chain := Book.chain_of_get hchain
  have hfrontier : b.previous = frontier chain := by
    rw [hprev, frontier, hlast]
  have hlen : b.attestations.length ≤ maxAttestationsPerBlock := hin.length_le
  have hlone : Lone s b := by
    refine ⟨hund.fresh, ?_⟩
    rw [detectConflictSibling, Option.map_eq_none_iff, List.find?_eq_none]
    intro x hx
    rw [hb.account, hchain, ← hcur] at hx
    simpa using hi.wf.no_sibling (hcur ▸ hfrontier) x hx
  have hrecord : ∀ l, s.reads.leaseOf b.source = some l ↔ l = lease := by
    intro l
    change s.leaseOf b.source = some l ↔ l = lease
    rw [hi.quiet.leaseOf, hb.source, hl, Option.some.injEq, eq_comm]
  -- what the handler asks besides the payment is a matter of the clock
  have hsettlement : ∀ p, (∃ l, Settlement s.reads b l p ∧ InTime c b l false) ↔
      (∀ last ∈ (s.book.chain (w.account c)).getLast?, ¬ c.now < last.timestamp) ∧
        Payment s.reads b lease p := by
    intro p
    have hsource : b.source ≠ [] := by
      rw [hb.source]
      exact ne_nil_of_length (hi.wf.leaseHash _ _ hl).2
    have holder : NotOlder b chain ↔
        ∀ last ∈ (s.book.chain (w.account c)).getLast?, ¬ c.now < last.timestamp := by
      unfold NotOlder lastTimestamp
      rw [hcur, hb.timestamp, hlast]
      simp
    rw [← holder]
    constructor
    · rintro ⟨l, ⟨-, haccepted, ⟨chain', hc, -, hold⟩, hpay⟩, -⟩
      obtain rfl := (hrecord l).mp haccepted.record
      change s.chainOf b.account = some chain' at hc
      rw [hi.quiet.chainOf, hb.account, hchain] at hc
      cases hc
      exact ⟨hold, hpay⟩
    · rintro ⟨hold, hpay⟩
      refine ⟨lease, ⟨hsource, ⟨(hrecord lease).mpr rfl, hopen, hstate⟩,
        ⟨chain, ?_, hfrontier, hold⟩, hpay⟩, hin⟩
      change s.chainOf b.account = some chain
      rw [hi.quiet.chainOf, hb.account, hchain]
  have hdecided := addBlock_settlement (c := c) (b := b) (s := s) false
  rw [hb.lowered] at hdecided
  have hpasses : (∃ p, (checkForm c b false).run s = some (.ok (), s) ∧ Passes c b false s p) ↔
      ClockReady c w s ∧ ∃ p, Payment s.reads b lease p := by
    rw [hb.checkForm_iff hable hlen]
    constructor
    · rintro ⟨p, horigin, hp⟩
      obtain ⟨hold, hpay⟩ := (hsettlement p).mp hp.handler
      exact ⟨⟨horigin, hold⟩, p, hpay⟩
    · rintro ⟨⟨horigin, hold⟩, p, hpay⟩
      exact ⟨p, horigin, hb.credential hable, hund.uncontested, (hsettlement p).mpr ⟨hold, hpay⟩⟩
  rcases hdecided ht hi.quiet hi.caches.keyed hlone hund.account fun _ => hund.lease with
    ⟨p, hform, hp, hrun⟩ | ⟨hno, e, hrun⟩
  · exact iff_of_true ⟨_, hrun⟩ (hpasses.mp ⟨p, hform, hp⟩)
  · rw [← hpasses]
    refine iff_of_false ?_ hno
    rintro ⟨s', hok⟩
    have : (addBlock c b false).run s = some (.ok (), s') := hok
    rw [hrun] at this
    cases this

theorem not_add_lt_iff (x y : UInt64) : ¬ x + y < x ↔ x.toNat + y.toNat < 2 ^ 64 := by
  have hx := x.toNat_lt
  have hy := y.toNat_lt
  rw [UInt64.lt_iff_toNat_lt, UInt64.toNat_add]
  omega

theorem Built.settle_payment_iff
    (hb : Built c w s lease .leaseSettle assetXE (leaseSettleAmount lease) b) (hq : s.quiet)
    (hprovider : lease.provider = w.account c) :
    (∃ p, Payment s.reads b lease p) ↔ s.store.pending.get lease.leaseHash ≠ none ∧
      (∀ part ∈ lease.parts, part.1 * part.2 < 2 ^ 64) ∧
        (s.mem.getAssetBalance (w.account c) assetXE).toNat + (lease.parts.map emissionOf).sum <
          2 ^ 64 := by
  have hbal : s.reads.balanceOf b.account assetXE = s.mem.getAssetBalance (w.account c) assetXE := by
    rw [← hb.account]
    exact hq.balanceOf _ _
  have hpending : s.reads.pendingOf b.source = s.store.pending.get lease.leaseHash := by
    rw [← hb.source]
    exact hq.pendingOf _
  constructor
  · rintro ⟨p, hpay⟩
    cases hpay with
    | settle ps _ _ _ emission pending noOverflow =>
      obtain ⟨hfits, hsum⟩ := leaseTotalEmission_eq_ok.mp emission
      rw [hpending] at pending
      rw [hbal, not_add_lt_iff, hsum] at noOverflow
      exact ⟨by rw [pending]; simp, hfits, noOverflow⟩
    | force _ _ type => exact absurd (hb.type.symm.trans type) (by decide)
  · rintro ⟨hpend, hfits, hsum⟩
    obtain ⟨ps, hps⟩ := Option.ne_none_iff_exists'.mp hpend
    obtain ⟨e, he⟩ := exists_word (n := (lease.parts.map emissionOf).sum) (by omega)
    have hemission : leaseTotalEmission lease = .ok e := leaseTotalEmission_eq_ok.mpr ⟨hfits, he⟩
    have hamount : b.amount = e := by
      rw [hb.amount, leaseSettleAmount, hemission]
    refine ⟨_, .settle ps hb.type hb.asset (hprovider.trans hb.account.symm) (hamount ▸ hemission)
      (hpending.trans hps) ?_ ?_⟩
    · rw [hbal, not_add_lt_iff, hamount, he]
      exact hsum
    · rw [hbal, hb.balance, hb.amount]

theorem Built.force_payment_iff
    (hb : Built c w s lease .leaseForceSettle assetXUSD lease.cost b) (hq : s.quiet)
    (hk : s.book.Wf) (hblocks : s.book.LeaseBlocks)
    (hl : s.store.leases.get lease.leaseHash = some lease)
    (hconsumer : lease.consumer = w.account c) :
    (∃ p, Payment s.reads b lease p) ↔
      (∃ ps, s.store.pending.get lease.leaseHash = some ps ∧ ps.amount = lease.cost) ∧
        (s.mem.getAssetBalance (w.account c) assetXUSD).toNat + lease.cost.toNat < 2 ^ 64 := by
  have hbal : s.reads.balanceOf b.account assetXUSD =
      s.mem.getAssetBalance (w.account c) assetXUSD := by
    rw [← hb.account]
    exact hq.balanceOf _ _
  have hpending : s.reads.pendingOf b.source = s.store.pending.get lease.leaseHash := by
    rw [← hb.source]
    exact hq.pendingOf _
  constructor
  · rintro ⟨p, hpay⟩
    cases hpay with
    | settle _ type => exact absurd (hb.type.symm.trans type) (by decide)
    | force lb ps _ _ _ _ _ pending noOverflow balance =>
      have hamount : ps.amount = lease.cost := by
        rw [hbal, hb.balance] at balance
        exact (UInt64.add_right_inj _).mp balance.symm
      rw [hbal, not_add_lt_iff, hamount] at noOverflow
      exact ⟨⟨ps, hpending ▸ pending, hamount⟩, noOverflow⟩
  · rintro ⟨⟨ps, hps, hamount⟩, hsum⟩
    obtain ⟨lb, hon, hhash, htype, hacc⟩ := hblocks _ _ hl
    have hknown : s.reads.blocks.get b.source = some lb := by
      rw [hb.source, ← hhash]
      exact hk.known lb hon
    refine ⟨_, .force lb ps hb.type hb.asset hknown htype
      (hacc.trans (hconsumer.trans hb.account.symm)) (hpending.trans hps) ?_ ?_⟩
    · rw [hbal, not_add_lt_iff, hamount]
      exact hsum
    · rw [hbal, hb.balance, hamount]

end Accepted

/-- **The ledger takes the settlements that a node builds** exactly when the clock is right, the
escrow stands, and for a settlement nothing overflows, while for a forced one the escrow stands at
the cost in the record of the lease. -/
theorem built_settlement_accepted_iff {c : Ctx} {w : Builder} {s : State} {lease : Lease}
    {D : Set Str} {ok : State → Op → Prop} (hD : IdealHash c.lib D)
    (hg : GenesisSealed c.lib D c.node.genesis) (hs : Reachable c.node D ok s)
    (hl : s.store.leases.get lease.leaseHash = some lease) (hstate : lease.state = .accepted)
    (hopen : lease.settled = false) (hable : w.Able c s) :
    (lease.provider = w.account c → ∀ b s₁,
      (settleLeaseBlock c w lease).run s = some (.ok (some b), s₁) → Unhindered s₁ b →
        InTime c b lease false →
          ((∃ s', (addNewBlock c b).run s₁ = some (.ok (), s')) ↔ SettleReady c w s lease)) ∧
    (lease.consumer = w.account c → ∀ b s₁,
      (forceSettleLeaseBlock c w lease).run s = some (.ok (some b), s₁) → Unhindered s₁ b →
        InTime c b lease false →
          ((∃ s', (addNewBlock c b).run s₁ = some (.ok (), s')) ↔ ForceReady c w s lease)) := by
  have hi := hs.inv hD hg
  have hblocks := hs.leaseBlocks hD hg
  have hhash : ∃ x, lease.leaseHash = hexEncode x := by
    obtain ⟨lb, hon, hhash, -⟩ := hblocks _ _ hl
    obtain ⟨input, -, hinput⟩ := (hi.on_filed hon).hash hg
    exact ⟨_, hhash.symm.trans hinput⟩
  constructor
  · intro hprovider b s₁ hrun hund hin
    obtain ⟨rfl, hb⟩ := built_of_run hg hi hhash rfl hrun
    rw [hb.accepted_iff (.inl hb.type) hi hable hund hl hstate hopen hin,
      hb.settle_payment_iff hi.quiet hprovider]
    exact ⟨fun ⟨h₁, h₂, h₃, h₄⟩ => ⟨h₁, h₂, h₃, h₄⟩, fun ⟨h₁, h₂, h₃, h₄⟩ => ⟨h₁, h₂, h₃, h₄⟩⟩
  · intro hconsumer b s₁ hrun hund hin
    obtain ⟨rfl, hb⟩ := built_of_run hg hi hhash rfl hrun
    rw [hb.accepted_iff (.inr hb.type) hi hable hund hl hstate hopen hin,
      hb.force_payment_iff hi.quiet hi.wf hblocks hl hconsumer]
    exact ⟨fun ⟨h₁, h₂, h₃⟩ => ⟨h₁, h₂, h₃⟩, fun ⟨h₁, h₂, h₃⟩ => ⟨h₁, h₂, h₃⟩⟩

namespace SampleBuilding

open Sample StateChain StateChain.SampleEpochs

/-- The epoch in force. -/
def epoch : EpochValue :=
  priced 100 0 100 "volume"

/-- The calls at some time, on a network with that epoch. -/
def ctxAt (now : Int64) : Ctx :=
  { leaseCtx with now := now, epochAt := some fun _ => [epoch.params] }

/-- An acceptance at the epoch's rate. -/
def acceptance : Block := hashed
  { accept 0 with lockedR := epoch.rEffective, lockedTWAP := epoch.twapMilliUSD }

/-- A renewal at the epoch's rate. -/
def renewal : Block := hashed
  { renew with lockedR := epoch.rEffective, lockedTWAP := epoch.twapMilliUSD }

/-- The node of an account, whose timekeepers attest some time. -/
def builder (n : UInt8) (t : Int64) : Builder where
  keyPair := ⟨List.replicate 32 n, fun _ => List.replicate 64 0⟩
  gatherAttestations _ _ := some (attestedAt t)
  computePoW _ _ := 0

/-- A lease and its acceptance. -/
def accepted : List Block := [mint 3 1000, mint 4 1, Sample.lease, acceptance]

/-- The lease with a renewal. -/
def renewed : List Block := accepted ++ [renewal]

/-- The record of the lease. -/
def record : Lease := acceptedRecord acceptance Sample.lease 0

/-- The record with its renewal. -/
def renewedRecord : Lease := { record with renewals := [renewSegment renewal 1] }

/-- What the provider builds at the end of the accepted lease. -/
def settlement : Block := hashed
  { type := .leaseSettle
    account := address 4
    previous := acceptance.hash
    balance := 34
    timestamp := 60000000000
    asset := assetXE
    source := Sample.lease.hash
    amount := 34
    attestations := attestedAt 60000000000
    signature := signature }

/-- What the consumer builds when the renewed lease is past its grace. -/
def refund : Block := hashed
  { type := .leaseForceSettle
    account := address 3
    previous := renewal.hash
    balance := 666
    timestamp := 5220000000000
    asset := assetXUSD
    source := Sample.lease.hash
    amount := 334
    attestations := attestedAt 5220000000000
    signature := signature }

theorem able {n : UInt8} {t : Int64} {c : Ctx} {s : State} (hc : c.node = node)
    (hkey : s.mem.accountKeys.get (address n) = some (pub n))
    (hkeyset : s.mem.keysets.get (address n) = none) : (builder n t).Able c s := by
  have hlib : c.lib = lib := congrArg Node.lib hc
  have haccount : (builder n t).account c = address n := by
    unfold Builder.account Node.address
    rw [hc]
    rfl
  refine ⟨haccount ▸ hkey, haccount ▸ hkeyset, rfl, fun _ => rfl, ?_, ?_⟩
  · intro message
    rw [hlib]
    rfl
  · intro x
    rw [hlib, hc]
    exact UInt64.le_refl 0

instance (s : State) (b : Block) : Decidable (Unhindered s b) :=
  decidable_of_iff (s.store.blocks.get b.hash = none ∧
    (¬ ∃ k ∈ s.store.conflicts.keys, k.1 = b.account) ∧ s.locks (.account b.account) = none ∧
      s.locks (.lease b.source) = none)
    ⟨fun h => ⟨h.1, h.2.1, h.2.2.1, h.2.2.2⟩, fun h => ⟨h.1, h.2, h.3, h.4⟩⟩

theorem accepted_ideal : IdealHash lib (domain accepted) :=
  idealHash_of_nodup (by decide +kernel) (by decide +kernel)

theorem accepted_reachable :
    ∃ s, Reachable node (domain accepted) (fun _ _ => true = true) s ∧
      s.store.leases.get Sample.lease.hash = some record ∧
      s.mem.accountKeys.get (address 4) = some (pub 4) ∧
      s.mem.keysets.get (address 4) = none ∧
      ((settleLeaseBlock (ctxAt 60000000000) (builder 4 60000000000) record).run s).map
        (fun x => x.1.toOption) = some (some (some settlement)) ∧
      Unhindered s settlement ∧ s.store.pending.get Sample.lease.hash ≠ none ∧
      s.mem.getAssetBalance (address 4) assetXE = 0 ∧
      s.book.chain (address 4) = [mint 4 1, acceptance] :=
  exists_reachable_adds (ctxAt 0) rfl _ accepted (fun _ h => h) (by decide +kernel)

end SampleBuilding

open Sample StateChain StateChain.SampleEpochs SampleBuilding in
/-- The provider settles an accepted lease at its end. -/
theorem built_settlement_accepted_sample :
    ∃ s s' b, Reachable node (domain accepted) (fun _ _ => true = true) s ∧
      s.store.leases.get record.leaseHash = some record ∧
      validateEpochValue lib json (epochJSON epoch) Table.empty = .ok () ∧
      json.epochValue (epochJSON epoch) = .ok epoch ∧
      (settleLeaseBlock (ctxAt 60000000000) (builder 4 60000000000) record).run s =
        some (.ok (some b), s) ∧
      (addNewBlock (ctxAt 60000000000) b).run s = some (.ok (), s') := by
  obtain ⟨s, hs, hl, hkey, hkeyset, hbuilt, hund, hpending, hbal, hchain⟩ := accepted_reachable
  have hg : GenesisSealed lib (domain accepted) genesis := genesis_domain accepted
  have hhash : record.leaseHash = Sample.lease.hash := by decide +kernel
  have hi := hs.inv accepted_ideal hg
  rw [← hhash] at hl hpending
  obtain ⟨s₁, hrun⟩ : ∃ s₁, (settleLeaseBlock (ctxAt 60000000000) (builder 4 60000000000) record).run s
      = some (.ok (some settlement), s₁) := by
    obtain ⟨⟨r, s₁⟩, hrun, hr⟩ := Option.map_eq_some_iff.mp hbuilt
    cases r with
    | error e => cases hr
    | ok o =>
      cases hr
      exact ⟨s₁, hrun⟩
  obtain ⟨rfl, -⟩ := built_of_run (c := ctxAt 60000000000) hg hi ⟨_, hhash.trans rfl⟩ rfl hrun
  have hin : InTime (ctxAt 60000000000) settlement record false := by
    refine ⟨60000000000, by decide +kernel, ?_⟩
    rw [if_pos (by decide +kernel), settlesAt_iff]
    decide +kernel
  have haccount : (builder 4 60000000000).account (ctxAt 60000000000) = address 4 := rfl
  have hready : SettleReady (ctxAt 60000000000) (builder 4 60000000000) s₁ record := by
    refine ⟨⟨fun h => absurd h (by decide), ?_⟩, hpending, by decide +kernel, ?_⟩
    · intro last hlast
      rw [haccount, hchain] at hlast
      cases hlast
      decide +kernel
    · rw [haccount, hbal]
      decide +kernel
  obtain ⟨s', hs'⟩ := ((built_settlement_accepted_iff (c := ctxAt 60000000000) accepted_ideal hg hs hl
    (by decide +kernel) (by decide +kernel) (able rfl hkey hkeyset)).1 (by decide +kernel) settlement
      _ hrun hund hin).mpr hready
  exact ⟨_, s', settlement, hs, hl, by decide +kernel, by decide +kernel, hrun, hs'⟩

open Sample StateChain StateChain.SampleEpochs SampleBuilding in
/-- The consumer of a renewed lease cannot get its escrow back: the refund that its node builds is the
cost of the lease, and the ledger asks for that of the renewal as well. -/
theorem force_settle_of_renewed_refused :
    ∃ s, Reachable node (domain renewed) (fun _ _ => true = true) s ∧
      s.store.leases.get renewedRecord.leaseHash = some renewedRecord ∧
      renewedRecord.state = .accepted ∧ renewedRecord.settled = false ∧
      validateEpochValue lib json (epochJSON epoch) Table.empty = .ok () ∧
      json.epochValue (epochJSON epoch) = .ok epoch ∧
      (builder 3 5220000000000).Able (ctxAt 5220000000000) s ∧
      renewedRecord.consumer = (builder 3 5220000000000).account (ctxAt 5220000000000) ∧
      InTime (ctxAt 5220000000000) refund renewedRecord false ∧ Unhindered s refund ∧
      ((forceSettleLeaseBlock (ctxAt 5220000000000) (builder 3 5220000000000) renewedRecord).run
        s).map (fun x => x.1.toOption) = some (some (some refund)) ∧
      ¬ ∃ s', (addNewBlock (ctxAt 5220000000000) refund).run s = some (.ok (), s') := by
  have hreach : ∃ s, Reachable node (domain renewed) (fun _ _ => true = true) s ∧
      s.store.leases.get renewedRecord.leaseHash = some renewedRecord ∧
      s.mem.accountKeys.get (address 3) = some (pub 3) ∧
      s.mem.keysets.get (address 3) = none ∧ Unhindered s refund ∧
      ((forceSettleLeaseBlock (ctxAt 5220000000000) (builder 3 5220000000000) renewedRecord).run
        s).map (fun x => x.1.toOption) = some (some (some refund)) ∧
      ((addNewBlock (ctxAt 5220000000000) refund).run s).map (fun x => x.1.isOk) = some false :=
    exists_reachable_adds (ctxAt 0) rfl _ renewed (fun _ h => h) (by decide +kernel)
  obtain ⟨s, hs, hl, hkey, hkeyset, hund, hbuilt, hrefused⟩ := hreach
  refine ⟨s, hs, hl, by decide +kernel, by decide +kernel, by decide +kernel, by decide +kernel,
    able rfl hkey hkeyset, by decide +kernel, ⟨5220000000000, by decide +kernel, ?_⟩, hund, hbuilt, ?_⟩
  · rw [if_neg (by decide +kernel), forcesAt_iff]
    decide +kernel
  · rintro ⟨s', hok⟩
    rw [hok] at hrefused
    cases hrefused

end Xe
