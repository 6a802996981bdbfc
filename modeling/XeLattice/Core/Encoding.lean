import XeLattice.Core.Types

/-!
# The canonical encoding of a block

`core/encoding.go` and `core/memo.go`: the bytes that a block hash commits to.  The canonical part
covers the type, the asset, the position, the balance and the fields of the block's own type; the
auxiliary part covers the declared public key and, for most lease blocks, the certificate and the
attestations.
-/

set_option autoImplicit false

namespace Xe

/-- Fails with `e` when `c` holds. -/
def guardErr {ε : Type} (c : Prop) [Decidable c] (e : ε) : Except ε Unit :=
  if c then .error e else .ok ()

theorem bind_eq_ok {ε α β : Type} {x : Except ε α} {f : α → Except ε β} {b : β} :
    (x >>= f) = .ok b ↔ ∃ a, x = .ok a ∧ f a = .ok b := by
  cases x with
  | error e =>
    constructor
    · intro h
      cases h
    · rintro ⟨_, h, _⟩
      cases h
  | ok a =>
    constructor
    · intro h
      exact ⟨a, rfl, h⟩
    · rintro ⟨_, h, hf⟩
      cases h
      exact hf

theorem exists_of_isOk {ε α : Type} {x : Except ε α} (h : x.isOk = true) : ∃ a, x = .ok a := by
  cases x with
  | error e => cases h
  | ok a => exact ⟨a, rfl⟩

theorem mapError_eq_ok {ε ε' α : Type} {x : Except ε α} {f : ε → ε'} {a : α} :
    x.mapError f = .ok a ↔ x = .ok a := by
  cases x <;> simp [Except.mapError]

theorem toOption_eq_some {ε α : Type} {x : Except ε α} {a : α} :
    x.toOption = some a ↔ x = .ok a := by
  cases x <;> simp [Except.toOption]

@[simp] theorem guardErr_eq_ok {ε : Type} {c : Prop} [Decidable c] {e : ε} {u : Unit} :
    guardErr c e = .ok u ↔ ¬c := by
  unfold guardErr
  split_ifs with h <;> simp [h]

/-! ## Memos -/

/-- `MaxMemoBytes`. -/
def maxMemoBytes : ℕ := 64

/-- The first disallowed control byte of a memo, with its offset. -/
def memoControlByte : ℕ → Str → Option (UInt8 × ℕ)
  | _, [] => none
  | i, c :: rest =>
    if c = 9 ∨ c = 10 then memoControlByte (i + 1) rest
    else if c < 0x20 ∨ c = 0x7F then some (c, i)
    else memoControlByte (i + 1) rest

/-- Two lower-case hexadecimal digits, as `%02x` writes a byte. -/
def lowerHexByte (b : UInt8) : Str :=
  [hexDigit (b / 16), hexDigit (b % 16)]

/-- `ValidateMemo`. -/
def validateMemo (memo : Str) : Except GoError Unit :=
  if memo = [] then .ok ()
  else if memo.length > maxMemoBytes then
    .error (errorf (str "memo too long: " ++ dec memo.length ++ str " bytes (max " ++
      dec maxMemoBytes ++ str ")"))
  else if utf8Valid memo = false then .error (errorf (str "memo is not valid UTF-8"))
  else
    match memoControlByte 0 memo with
    | some (c, i) =>
      .error (errorf (str "memo contains disallowed control byte 0x" ++ lowerHexByte c ++
        str " at offset " ++ dec i))
    | none => .ok ()

/-! ## The canonical part -/

/-- The type byte, absent for unknown types. -/
def typeByte : BlockType → Option UInt8
  | .send => some 0x01
  | .receive => some 0x02
  | .lease => some 0x04
  | .leaseAccept => some 0x05
  | .leaseSettle => some 0x06
  | .genesis => some 0x07
  | .multisigOpen => some 0x08
  | .multisigUpdate => some 0x09
  | .leaseCancel => some 0x0A
  | .burn => some 0x0B
  | .leaseForceSettle => some 0x0C
  | .mint => some 0x0D
  | .leaseRenew => some 0x0E
  | .other _ => none

/-- A field that must spell 32 bytes in hexadecimal. -/
def marshalField (name : String) (s : Str) : Except GoError Str :=
  match hexDecode s with
  | .error e => .error (errorf (str "MarshalBlock: invalid " ++ str name ++ str " hex: " ++ e))
  | .ok bs =>
    if bs.length = 32 then .ok bs
    else .error (errorf (str "MarshalBlock: " ++ str name ++ str " must be 32 bytes, got " ++
      dec bs.length))

/-- The bytes of an absent field. -/
def zero32 : Str :=
  List.replicate 32 0

/-- A field of `marshalField` whose default spelling stands for zero bytes. -/
def marshalFieldOr (name : String) (default s : Str) : Except GoError Str :=
  if s = default then .ok zero32 else marshalField name s

/-- The key bytes of a keyset, in the order of their spellings. -/
def marshalKeys : List Str → Except GoError Str
  | [] => .ok []
  | k :: ks =>
    match hexDecode k with
    | .error e => .error (errorf (str "MarshalBlock: invalid key hex: " ++ e))
    | .ok kb =>
      if kb.length = 32 then
        match marshalKeys ks with
        | .error e => .error e
        | .ok rest => .ok (kb ++ rest)
      else .error (errorf (str "MarshalBlock: key must be 32 bytes, got " ++ dec kb.length))

/-- `marshalKeysetCanonical`, with the caller's prefix on its errors. -/
def marshalKeysetCanonical (ks : Option Keyset) : Except GoError Str :=
  match ks with
  | none => .error (errorf (str "MarshalBlock: keyset is nil"))
  | some ks => do
    let body ← marshalKeys (sortStrings ks.keys)
    .ok (be32 (UInt32.ofInt ks.threshold) ++ be32 (UInt32.ofNat ks.keys.length) ++ body)

/-- The three emission parameters a block locks. -/
def lockedBytes (b : Block) : Str :=
  be64 b.lockedR ++ be64 b.lockedPayoutCap ++ be64 b.lockedTWAP

/-- The fields of the type in `MarshalBlockCanonical`. -/
def marshalTail (b : Block) : Except GoError Str :=
  match b.type with
  | .send => do
    let dest ← marshalField "destination" b.destination
    .ok (dest ++ be64 b.amount)
  | .receive | .leaseCancel | .leaseForceSettle => marshalField "source" b.source
  | .lease => do
    let dest ← marshalField "destination" b.destination
    let sshKey ← marshalFieldOr "access_pub_key" [] b.accessPubKey
    .ok (dest ++ be64 b.amount ++ be64 b.vcpus ++ be64 b.memoryMB ++ be64 b.diskGB ++
      be64 b.duration ++ sshKey)
  | .multisigOpen | .multisigUpdate => marshalKeysetCanonical b.msKeyset
  | .leaseAccept => do
    let source ← marshalField "source" b.source
    .ok (source ++ be64 b.amount ++ lockedBytes b)
  | .leaseSettle => do
    let source ← marshalField "source" b.source
    .ok (source ++ be64 b.amount)
  | .leaseRenew => do
    let source ← marshalField "source" b.source
    .ok (source ++ be64 b.amount ++ be64 b.duration ++ lockedBytes b)
  | .burn | .mint => .ok (be64 b.amount)
  | .genesis | .other _ => .ok []

/-- `hasGenesisLeaseTiming`. -/
def hasGenesisLeaseTiming (b : Block) : Bool :=
  b.leaseMinDurationSecs != 0 || b.leaseSettleGraceNs != 0 || b.leaseForceSettleGapNs != 0 ||
    b.leaseEscrowExpiryNs != 0 || b.leaseArchiveGapNs != 0 || b.maxAttestationSkewNs != 0

/-- The lease timing of a genesis block; other blocks may not carry one. -/
def marshalTiming (b : Block) : Except GoError Str :=
  if hasGenesisLeaseTiming b then
    if b.type = .genesis then
      .ok (be64 b.leaseMinDurationSecs ++ be64 b.leaseSettleGraceNs.toUInt64 ++
        be64 b.leaseForceSettleGapNs.toUInt64 ++ be64 b.leaseEscrowExpiryNs.toUInt64 ++
        be64 b.leaseArchiveGapNs.toUInt64 ++ be64 b.maxAttestationSkewNs.toUInt64)
    else .error (errorf (str "MarshalBlock: lease-timing fields not allowed on " ++ b.type.name ++
      str " blocks"))
  else .ok []

/-- The memo with its length, on the two types that may carry one. -/
def memoBytes (b : Block) : Str :=
  if b.type = .send ∨ b.type = .burn then UInt8.ofNat b.memo.length :: b.memo else []

/-- The asset in eight bytes. -/
def assetBytes (asset : Str) : Str :=
  asset ++ List.replicate (8 - asset.length) 0

/-- `MarshalBlockCanonical`; `quote` is the `%q` of the error for an unknown type. -/
def marshalBlockCanonical (quote : Str → Str) (b : Block) : Except GoError Str := do
  let tb ← match typeByte b.type with
    | some tb => Except.ok tb
    | none => .error (errorf (str "MarshalBlock: unknown block type " ++ quote b.type.name))
  guardErr (b.memo ≠ [] ∧ b.type ≠ .send ∧ b.type ≠ .burn)
    (errorf (str "MarshalBlock: memo not allowed on " ++ b.type.name ++ str " blocks"))
  (validateMemo b.memo).mapError (GoError.wrap (str "MarshalBlock: "))
  guardErr (b.asset.length > 8)
    (errorf (str "MarshalBlock: asset too long: " ++ dec b.asset.length ++ str " bytes (max 8)"))
  let account ← marshalField "account" b.account
  let previous ← marshalFieldOr "previous" zeroPrev b.previous
  let tail ← marshalTail b
  let rep ← marshalFieldOr "representative" [] b.representative
  let timing ← marshalTiming b
  .ok ([0x02, tb] ++ assetBytes b.asset ++ account ++ previous ++ be64 b.balance ++
    be64 b.timestamp.toUInt64 ++ (tail ++ (rep ++ (timing ++ memoBytes b))))

/-! ## The auxiliary part -/

/-- `writeLenPrefixedBytes`. -/
def lenPrefixed (s : Str) : Str :=
  be64 (UInt64.ofNat s.length) ++ s

/-- `auxTagAccountPubKey`. -/
def auxTagAccountPubKey : Str :=
  str "xe/block/pubkey/v1"

/-- An attestation in `MarshalBlockAux`. -/
def attestationBytes (a : TimekeeperAttestation) : Str :=
  lenPrefixed a.publicKey ++ be64 a.timestamp.toUInt64 ++ lenPrefixed a.signature

/-- The types whose certificate and attestations are hashed. -/
def hasLeaseAux : BlockType → Bool
  | .lease | .leaseAccept | .leaseSettle | .leaseForceSettle | .leaseRenew => true
  | _ => false

/-- The certificate and the attestations, ordered by public key. -/
def leaseAux (b : Block) : Str :=
  lenPrefixed b.certificateHash ++ be64 (UInt64.ofNat b.attestations.length) ++
    (b.attestations.insertionSort
      (fun x y => strLt y.publicKey x.publicKey = false)).flatMap attestationBytes

/-- `MarshalBlockAux`. -/
def marshalBlockAux (b : Block) : Str :=
  (if b.pubKey ≠ [] then lenPrefixed auxTagAccountPubKey ++ lenPrefixed b.pubKey else []) ++
    (if hasLeaseAux b.type then leaseAux b else [])

end Xe
