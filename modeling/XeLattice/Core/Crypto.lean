import XeLattice.Core.Encoding

/-!
# Hashes, signatures, keysets, attestations

`core/crypto.go`, `core/multisig.go`, `core/attestation.go` and `core/genesis.go`.  The
cryptographic primitives are the parameters of `Lib`; everything the program builds on them is
computed.  A check that slices a string it has not measured may crash the node, so the multisig
checks answer in `Except Fault`.
-/

set_option autoImplicit false

namespace Xe

/-- What the program takes from outside: cryptography, the Unicode tables, the formatting of
durations and quoted strings, and the network identifier that every hash is prefixed with. -/
structure Lib where
  sha256 : Str → Str
  length_sha256 : ∀ s, (sha256 s).length = 32
  ed25519Verify : Str → Str → Str → Bool
  powHash : UInt64 → Str → UInt64
  unicodeToLower : Str → Str
  lower_unicodeToLower : ∀ s, ∀ c ∈ unicodeToLower s, lowerByte c = c
  quote : Str → Str
  durationString : Int64 → Str
  networkID : Str

variable (lib : Lib)

/-- `strings.ToLower`. -/
def toLower (s : Str) : Str :=
  if s.all isAscii then s.map lowerByte else lib.unicodeToLower s

/-- No byte of the string is an upper-case letter. -/
def Lower (s : Str) : Prop :=
  ∀ c ∈ s, lowerByte c = c

theorem lower_toLower (s : Str) : Lower (toLower lib s) := by
  have idem : ∀ c : UInt8, lowerByte (lowerByte c) = lowerByte c :=
    fun c => by unfold lowerByte; grind
  unfold toLower
  split_ifs
  · intro c hc
    obtain ⟨d, -, rfl⟩ := List.mem_map.mp hc
    exact idem d
  · exact lib.lower_unicodeToLower s

/-! ## Keys, signatures, addresses -/

/-- A hexadecimal field of a given length in bytes. -/
def decodeSized (what : String) (size : ℕ) (s : Str) : Except GoError Str :=
  match hexDecode s with
  | .error e => .error (errorf (str "invalid " ++ str what ++ str " hex: " ++ e))
  | .ok bs =>
    if bs.length = size then .ok bs
    else .error (errorf (str "invalid " ++ str what ++ str " length: got " ++ dec bs.length ++
      str ", want " ++ dec size))

/-- `DecodePublicKey`. -/
def decodePublicKey : Str → Except GoError Str :=
  decodeSized "public key" 32

/-- `DecodeSignature`. -/
def decodeSignature : Str → Except GoError Str :=
  decodeSized "signature" 64

/-- `DecodeHash`. -/
def decodeHash : Str → Except GoError Str :=
  decodeSized "hash" 32

/-- `AccountAddressDomain`. -/
def accountAddressDomain : Str :=
  str "xe/account/v1"

/-- `deriveAddressFromKey`. -/
def deriveAddressFromKey (pub : Str) : Str :=
  hexEncode (lib.sha256 (accountAddressDomain ++ pub))

/-- `DeriveAddress`. -/
def deriveAddress (pubKeyHex : Str) : Except GoError Str := do
  let pub ← (decodePublicKey pubKeyHex).mapError (GoError.wrap (str "derive address: "))
  .ok (deriveAddressFromKey lib pub)

/-- `VerifyHexSignature`. -/
def verifyHexSignature (pubKeyHex sigHex message : Str) : Except GoError Unit := do
  let pub ← decodePublicKey pubKeyHex
  let sig ← decodeSignature sigHex
  guardErr (lib.ed25519Verify pub message sig = false)
    (errorf (str "signature verification failed"))

/-! ## Block hashes -/

/-- The bytes a block hash commits to, behind the network identifier. -/
def preimage (b : Block) : Except GoError Str := do
  let data ← marshalBlockCanonical lib.quote b
  .ok (data ++ marshalBlockAux b)

/-- `HashBlock` under a network identifier. -/
def hashBlockOn (networkID : Str) (b : Block) : Except GoError Str := do
  let data ← (preimage lib b).mapError (GoError.wrap (str "HashBlock: "))
  .ok (hexEncode (lib.sha256 (networkID ++ data)))

/-- `HashBlock`. -/
def hashBlock (b : Block) : Except GoError Str :=
  hashBlockOn lib lib.networkID b

/-- `ValidatePubKeyDeclaration`. -/
def validatePubKeyDeclaration (b : Block) : Except GoError Unit :=
  if b.signatures ≠ [] then
    guardErr (b.pubKey ≠ []) (errorf (str "multisig block must not declare pub_key"))
  else if b.previous = zeroPrev then do
    guardErr (b.pubKey = []) (errorf (str "open block must declare pub_key"))
    let derived ← (deriveAddress lib b.pubKey).mapError (GoError.wrap (str "invalid pub_key: "))
    guardErr (derived ≠ b.account)
      (errorf (str "pub_key does not derive account address: derived " ++ derived ++
        str ", account " ++ b.account))
  else guardErr (b.pubKey ≠ []) (errorf (str "non-open block must not declare pub_key"))

/-- `VerifyBlockSignatureWith`. -/
def verifyBlockSignatureWith (b : Block) (pubKeyHex : Str) : Except GoError Unit := do
  let hashBytes ← decodeHash b.hash
  verifyHexSignature lib pubKeyHex b.signature hashBytes

/-- `VerifyBlock` under a network identifier. -/
def verifyBlockOn (networkID : Str) (b : Block) : Except GoError Unit := do
  let expected ← (hashBlockOn lib networkID b).mapError (GoError.wrap (str "verify: "))
  guardErr (b.hash ≠ expected)
    (errorf (str "hash mismatch: got " ++ b.hash ++ str ", want " ++ expected))
  validatePubKeyDeclaration lib b
  if b.signatures ≠ [] then .ok ()
  else if b.previous ≠ zeroPrev then .ok ()
  else verifyBlockSignatureWith lib b b.pubKey

/-- `VerifyBlock`. -/
def verifyBlock (b : Block) : Except GoError Unit :=
  verifyBlockOn lib lib.networkID b

/-! ## Keysets -/

/-- `s[:12]`, which crashes on a shorter string. -/
def slice12 (s : Str) : Except Fault Str :=
  if s.length < 12 then .error .panic else .ok (s.take 12)

/-- An error whose text ends with the first twelve bytes of `s`. -/
def errWith12 {α : Type} (before s : Str) (after : Str) : Except Fault α := do
  let short ← slice12 s
  .error (.err (errorf (before ++ short ++ after)))

/-- The loop of `ValidateKeyset` over the keys; `seen` are the keys met so far. -/
def validateKeys (seen : List Str) (i : ℕ) : List Str → Except Fault Unit
  | [] => .ok ()
  | k :: ks =>
    if k.length ≠ 64 then
      .error (.err (errorf (str "key " ++ dec i ++ str ": expected 64 hex chars, got " ++
        dec k.length)))
    else
      match hexDecode k with
      | .error e =>
        .error (.err (errorf (str "key " ++ dec i ++ str ": invalid hex: " ++ e)))
      | .ok kb =>
        let lower := hexEncode kb
        if lower ∈ seen then errWith12 (str "duplicate key: ") k []
        else validateKeys (lower :: seen) (i + 1) ks

/-- `ValidateKeyset`. -/
def validateKeyset (ks : Keyset) : Except Fault Unit := do
  guardErr (ks.keys = []) (.err (errorf (str "keyset has no keys")))
  guardErr (ks.threshold < 1)
    (.err (errorf (str "keyset threshold must be >= 1, got " ++ decInt ks.threshold)))
  guardErr (ks.threshold > ks.keys.length)
    (.err (errorf (str "keyset threshold " ++ decInt ks.threshold ++ str " exceeds key count " ++
      dec ks.keys.length)))
  validateKeys [] 0 ks.keys

/-- The key bytes of a keyset, for its address. -/
def decodeKeys : List Str → Except Fault Str
  | [] => .ok []
  | k :: ks =>
    match hexDecode k with
    | .error e => .error (.err (errorf (str "invalid key hex: " ++ e)))
    | .ok kb =>
      match decodeKeys ks with
      | .error e => .error e
      | .ok rest => .ok (kb ++ rest)

/-- `DeriveMultisigAddress`. -/
def deriveMultisigAddress (ks : Keyset) : Except Fault Str := do
  validateKeyset ks
  let body ← decodeKeys (sortStrings ks.keys)
  .ok (hexEncode (lib.sha256 (be32 (UInt32.ofInt ks.threshold) ++
    be32 (UInt32.ofNat ks.keys.length) ++ body)))

/-- The loop of `VerifyMultisig`: the number of valid signatures, or the first offending one. -/
def verifySigners (keys : List Str) (hashBytes : Str) (seen : List Str) :
    List BlockSignature → Except Fault ℕ
  | [] => .ok 0
  | sig :: sigs =>
    let pk := sig.publicKey
    if pk ∈ seen then errWith12 (str "duplicate signer: ") pk []
    else if pk ∉ keys then errWith12 (str "signer ") pk (str " not in keyset")
    else
      match verifyHexSignature lib pk sig.sig hashBytes with
      | .error e => errWith12 (str "sig from ") pk (str ": " ++ e.msg)
      | .ok _ => do
        let n ← verifySigners keys hashBytes (pk :: seen) sigs
        .ok (n + 1)

/-- `VerifyMultisig`. -/
def verifyMultisig (hash : Str) (sigs : List BlockSignature) (ks : Keyset) :
    Except Fault Unit := do
  guardErr (sigs = []) (.err (errorf (str "no signatures")))
  let hashBytes ←
    (decodeHash hash).mapError (fun e => Fault.err (e.wrap (str "decode hash: ")))
  let validCount ← verifySigners lib ks.keys hashBytes [] sigs
  guardErr ((validCount : ℤ) < ks.threshold)
    (.err (errorf (str "insufficient signatures: got " ++ dec validCount ++ str ", need " ++
      decInt ks.threshold)))

/-- `VerifyMultisigAny`. -/
def verifyMultisigAny (hash : Str) (sigs : List BlockSignature) (ks : Keyset) :
    Except GoError Unit := do
  guardErr (sigs = []) (errorf (str "no signatures"))
  let hashBytes ← (decodeHash hash).mapError (GoError.wrap (str "decode hash: "))
  guardErr (sigs.all (fun sig => !(decide (sig.publicKey ∈ ks.keys) &&
      (verifyHexSignature lib sig.publicKey sig.sig hashBytes).isOk)))
    (errorf (str "no valid signature from any keyset member"))

/-- `IsSpendingOp`. -/
def isSpendingOp : BlockType → Bool
  | .send | .burn | .lease | .leaseRenew | .multisigOpen | .multisigUpdate | .mint => true
  | _ => false

/-! ## Attestations -/

/-- `MaxAttestationsPerBlock`. -/
def maxAttestationsPerBlock : ℕ := 20

/-- `AttestationPayload`. -/
def attestationPayload (leaseHash : Str) (timestamp : Int64) : Except GoError Str := do
  let hashBytes ← decodeHash leaseHash
  .ok (lib.sha256 (hashBytes ++ be64 timestamp.toUInt64))

/-- `VerifyAttestation`. -/
def verifyAttestation (a : TimekeeperAttestation) (leaseHash : Str) : Except GoError Unit := do
  let payload ← attestationPayload lib leaseHash a.timestamp
  verifyHexSignature lib a.publicKey a.signature payload

/-- The clock skew of an attestation, in wrapping 64-bit arithmetic. -/
def attestationSkew (now ts : Int64) : Int64 :=
  if ts - now < 0 then -(ts - now) else ts - now

/-- The timestamps that `ValidateAttestations` counts, in their order. -/
def validTimestamps (keys : List Str) (leaseHash : Str) (skipSkew : Bool) (now maxSkew : Int64) :
    List Str → List TimekeeperAttestation → List Int64
  | _, [] => []
  | seen, a :: rest =>
    if a.publicKey ∈ keys ∧ a.publicKey ∉ seen ∧ (verifyAttestation lib a leaseHash).isOk ∧
        (skipSkew = true ∨ ¬ attestationSkew now a.timestamp > maxSkew) then
      a.timestamp :: validTimestamps keys leaseHash skipSkew now maxSkew (a.publicKey :: seen) rest
    else validTimestamps keys leaseHash skipSkew now maxSkew seen rest

/-- `ValidateAttestations`: the median of the counted timestamps. The index is out of range when a
non-positive threshold lets an empty list through. -/
def validateAttestations (attestations : List TimekeeperAttestation) (leaseHash : Str)
    (config : TimekeeperConfig) (skipSkew : Bool) (now maxSkew : Int64) : Except Fault Int64 := do
  guardErr (config.threshold = 0) (.err (errorf (str "timekeeper threshold is zero")))
  guardErr (attestations.length > maxAttestationsPerBlock)
    (.err (errorf (str "too many attestations: " ++ dec attestations.length ++
      str " exceeds max " ++ dec maxAttestationsPerBlock)))
  guardErr ((attestations.length : ℤ) < config.threshold)
    (.err (errorf (str "need " ++ decInt config.threshold ++ str " attestations, got " ++
      dec attestations.length)))
  let ts := validTimestamps lib config.keys leaseHash skipSkew now maxSkew [] attestations
  guardErr ((ts.length : ℤ) < config.threshold)
    (.err (errorf (str "only " ++ dec ts.length ++
      str " valid attestations from trusted timekeepers, need " ++ decInt config.threshold)))
  match (ts.insertionSort (· ≤ ·))[(ts.length - 1) / 2]? with
  | some median => .ok median
  | none => .error .panic

end Xe
