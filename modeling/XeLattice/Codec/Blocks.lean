import XeLattice.Codec.Votes
import XeLattice.Inv.Hashes
import XeLattice.Inv.Slots
import Mathlib.Data.List.DropRight

/-!
# The binary form of blocks

`MarshalBlock` and `UnmarshalBlock` of `core/encoding.go`: the canonical encoding with the nonce of
the proof of work behind it, and the decoder, which reads the same fields at offsets of its own.
The two differ in four places: the decoder does not know the type byte of a renewal; it trims zero
bytes off the asset; it refuses keysets of no key or of more than 256, whose threshold it reads
back from 32 bits; and it looks for the nonce of a keyset block behind an encoding without keys.

* `Block.decoded`, **`unmarshalBlock_marshalBlock`**: what the decoder makes of an encoded block;
* **`block_codec_iff`**: which blocks come back.
-/

set_option autoImplicit false

namespace Xe

/-! ## The fields of a type -/

/-- The types that carry a keyset. -/
def isKeysetOp : BlockType → Bool
  | .multisigOpen | .multisigUpdate => true
  | _ => false

/-- The length of the fields of a type, keysets apart. -/
def tailLength : BlockType → ℕ
  | .send | .leaseSettle => 40
  | .receive | .leaseCancel | .leaseForceSettle => 32
  | .lease => 104
  | .leaseAccept => 64
  | .leaseRenew => 72
  | .burn | .mint => 8
  | _ => 0

theorem length_marshalTail {b : Block} {tail : Str} (h : marshalTail b = .ok tail)
    (hk : isKeysetOp b.type = false) : tail.length = tailLength b.type := by
  unfold marshalTail at h
  cases ht : b.type <;> simp only [ht, bind_eq_ok, Except.ok.injEq] at h
  case send =>
    obtain ⟨dest, hdest, rfl⟩ := h
    simp [(length_marshalField hdest).2, tailLength]
  case receive => exact (length_marshalField h).2
  case leaseCancel => exact (length_marshalField h).2
  case leaseForceSettle => exact (length_marshalField h).2
  case lease =>
    obtain ⟨dest, hdest, key, hkey, rfl⟩ := h
    simp [(length_marshalField hdest).2, length_marshalFieldOr hkey, tailLength]
  case leaseAccept =>
    obtain ⟨source, hsource, rfl⟩ := h
    simp [(length_marshalField hsource).2, lockedBytes, tailLength]
  case leaseSettle =>
    obtain ⟨source, hsource, rfl⟩ := h
    simp [(length_marshalField hsource).2, tailLength]
  case leaseRenew =>
    obtain ⟨source, hsource, rfl⟩ := h
    simp [(length_marshalField hsource).2, lockedBytes, tailLength]
  case multisigOpen => simp [ht, isKeysetOp] at hk
  case multisigUpdate => simp [ht, isKeysetOp] at hk
  all_goals
    subst h
    rfl

/-- The types that carry an amount. -/
def hasAmount : BlockType → Bool
  | .send | .lease | .leaseAccept | .leaseSettle | .leaseRenew | .burn | .mint => true
  | _ => false

/-- Blocks that lock the parameters of an emission. -/
def hasLocked : BlockType → Bool
  | .leaseAccept | .leaseRenew => true
  | _ => false

/-- The blocks agree on the fields of their type, keysets and access keys apart. -/
structure Block.SameTail (b b' : Block) : Prop where
  destination : isIssue b.type = true → b.destination = b'.destination
  source : isNaming b.type = true → b.source = b'.source
  amount : hasAmount b.type = true → b.amount = b'.amount
  vcpus : b.type = .lease → b.vcpus = b'.vcpus
  memoryMB : b.type = .lease → b.memoryMB = b'.memoryMB
  diskGB : b.type = .lease → b.diskGB = b'.diskGB
  duration : b.type = .lease ∨ b.type = .leaseRenew → b.duration = b'.duration
  lockedR : hasLocked b.type = true → b.lockedR = b'.lockedR
  lockedPayoutCap : hasLocked b.type = true → b.lockedPayoutCap = b'.lockedPayoutCap
  lockedTWAP : hasLocked b.type = true → b.lockedTWAP = b'.lockedTWAP

/-! ## The codec -/

/-- `MarshalBlock`. -/
def marshalBlock (lib : Lib) (b : Block) : Except GoError Str := do
  guardErr (b.pubKey ≠ [])
    (errorf (str "MarshalBlock: the binary canonical encoding cannot represent a declared pub_key (it is bound into the hash via the aux input, not the canonical bytes) — use JSON, which is the wire and store format for blocks"))
  let canonical ← marshalBlockCanonical lib.quote b
  .ok (canonical ++ le64 b.powNonce)

/-- The type that a type byte stands for, and the least length of its encoding. -/
def blockLayout (tb : UInt8) : Option (BlockType × ℕ) :=
  if tb = 0x01 then some (.send, 90 + 40 + 32 + 1)
  else if tb = 0x02 then some (.receive, 90 + 32 + 32)
  else if tb = 0x07 then some (.genesis, 90 + 32)
  else if tb = 0x08 then some (.multisigOpen, 90 + 8 + 32)
  else if tb = 0x09 then some (.multisigUpdate, 90 + 8 + 32)
  else if tb = 0x04 then some (.lease, 90 + 104 + 32)
  else if tb = 0x05 then some (.leaseAccept, 90 + 64 + 32)
  else if tb = 0x06 then some (.leaseSettle, 90 + 40 + 32)
  else if tb = 0x0A then some (.leaseCancel, 90 + 32 + 32)
  else if tb = 0x0C then some (.leaseForceSettle, 90 + 32 + 32)
  else if tb = 0x0B then some (.burn, 90 + 8 + 32 + 1)
  else if tb = 0x0D then some (.mint, 90 + 8 + 32)
  else none

/-- `hex.EncodeToString(data[lo:hi])`. -/
def readHex (data : Str) (lo hi : ℕ) : Except Fault Str :=
  inBounds ((slice data lo hi).map hexEncode)

/-- `binary.BigEndian.Uint64(data[lo:hi])`. -/
def readNumber (data : Str) (lo hi : ℕ) : Except Fault UInt64 :=
  inBounds ((slice data lo hi).bind uint64BE)

/-- `bytes.TrimRight` of zero bytes. -/
def trimZeros (s : Str) : Str :=
  s.rdropWhile (· == 0)

/-- The fields that all blocks have in front. -/
def unmarshalHead (data : Str) (type : BlockType) : Except Fault Block := do
  let asset ← inBounds (slice data 2 10)
  let account ← readHex data 10 42
  let previous ← inBounds (slice data 42 74)
  let balance ← readNumber data 74 82
  let timestamp ← readNumber data 82 90
  .ok
    { type := type
      account := account
      previous := fieldText zeroPrev previous
      balance := balance
      timestamp := timestamp.toInt64
      asset := trimZeros asset }

/-- The keys of a keyset, from the `i`th on. -/
def unmarshalKeys (data : Str) (i : ℕ) : ℕ → Except Fault (List Str)
  | 0 => .ok []
  | n + 1 => do
    let key ← readHex data (8 + i * 32) (8 + (i + 1) * 32)
    let keys ← unmarshalKeys data (i + 1) n
    .ok (key :: keys)

/-- `unmarshalKeysetCanonical`, with the caller's text in front of its errors. -/
def unmarshalKeysetCanonical (data : Str) : Except Fault (Keyset × ℕ) := do
  guardErr (data.length < 8) (.err (errorf (str "UnmarshalBlock: keyset: keyset data too short")))
  let threshold ← inBounds ((slice data 0 4).bind uint32BE)
  let numKeys ← inBounds ((slice data 4 8).bind uint32BE)
  guardErr (numKeys.toNat < 1 ∨ numKeys.toNat > 256)
    (.err (errorf (str "UnmarshalBlock: keyset: invalid key count: " ++ dec numKeys.toNat)))
  guardErr (data.length < 8 + 32 * numKeys.toNat)
    (.err (errorf (str "UnmarshalBlock: keyset: keyset data too short for " ++ dec numKeys.toNat ++
      str " keys")))
  let keys ← unmarshalKeys data 0 numKeys.toNat
  .ok ({ keys := keys, threshold := threshold.toNat }, 8 + 32 * numKeys.toNat)

/-- The fields of the block's own type, and the offset of what follows them. -/
def unmarshalTail (data : Str) (b : Block) : Except Fault (Block × ℕ) :=
  match b.type with
  | .send => do
    let destination ← readHex data 90 122
    let amount ← readNumber data 122 130
    .ok ({ b with destination := destination, amount := amount }, 130)
  | .receive | .leaseCancel | .leaseForceSettle => do
    let source ← readHex data 90 122
    .ok ({ b with source := source }, 122)
  | .lease => do
    let destination ← readHex data 90 122
    let amount ← readNumber data 122 130
    let vcpus ← readNumber data 130 138
    let memoryMB ← readNumber data 138 146
    let diskGB ← readNumber data 146 154
    let duration ← readNumber data 154 162
    let sshKey ← inBounds (slice data 162 194)
    .ok
      ({ b with
          destination := destination
          amount := amount
          vcpus := vcpus
          memoryMB := memoryMB
          diskGB := diskGB
          duration := duration
          accessPubKey := fieldText [] sshKey }, 194)
  | .leaseSettle => do
    let source ← readHex data 90 122
    let amount ← readNumber data 122 130
    .ok ({ b with source := source, amount := amount }, 130)
  | .leaseAccept => do
    let source ← readHex data 90 122
    let amount ← readNumber data 122 130
    let lockedR ← readNumber data 130 138
    let lockedPayoutCap ← readNumber data 138 146
    let lockedTWAP ← readNumber data 146 154
    .ok
      ({ b with
          source := source
          amount := amount
          lockedR := lockedR
          lockedPayoutCap := lockedPayoutCap
          lockedTWAP := lockedTWAP }, 154)
  | .multisigOpen | .multisigUpdate => do
    let body ← inBounds (slice data 90 data.length)
    let (keyset, n) ← unmarshalKeysetCanonical body
    guardErr (data.length < 90 + n + 32)
      (.err (errorf (str "UnmarshalBlock: data too short for " ++ b.type.name ++
        str " after keyset")))
    .ok ({ b with msKeyset := some keyset }, 90 + n)
  | .burn | .mint => do
    let amount ← readNumber data 90 98
    .ok ({ b with amount := amount }, 98)
  | .genesis | .leaseRenew | .other _ => .ok (b, 90)

/-- The lease timing of a genesis block, if the data have room for it. -/
def unmarshalTiming (data : Str) (off : ℕ) (b : Block) : Except Fault Block := do
  let minDuration ← readNumber data off (off + 8)
  let settleGrace ← readNumber data (off + 8) (off + 16)
  let forceSettleGap ← readNumber data (off + 16) (off + 24)
  let escrowExpiry ← readNumber data (off + 24) (off + 32)
  let archiveGap ← readNumber data (off + 32) (off + 40)
  let maxSkew ← readNumber data (off + 40) (off + 48)
  .ok
    { b with
      leaseMinDurationSecs := minDuration
      leaseSettleGraceNs := settleGrace.toInt64
      leaseForceSettleGapNs := forceSettleGap.toInt64
      leaseEscrowExpiryNs := escrowExpiry.toInt64
      leaseArchiveGapNs := archiveGap.toInt64
      maxAttestationSkewNs := maxSkew.toInt64 }

/-- The memo behind its length, and the offset of what follows it. -/
def unmarshalMemo (data : Str) (minLen repOffset : ℕ) (b : Block) : Except Fault (Block × ℕ) := do
  let memoLen : UInt8 ← inBounds data[repOffset + 32]?
  guardErr (memoLen.toNat > maxMemoBytes)
    (.err (errorf (str "UnmarshalBlock: memo length " ++ dec memoLen.toNat ++
      str " exceeds max " ++ dec maxMemoBytes)))
  guardErr (data.length < minLen + memoLen.toNat)
    (.err (errorf (str "UnmarshalBlock: data too short for " ++ dec memoLen.toNat ++
      str "-byte memo")))
  if 0 < memoLen.toNat then do
    let memo ← inBounds (slice data minLen (minLen + memoLen.toNat))
    (validateMemo memo).mapError (fun e => .err (e.wrap (str "UnmarshalBlock: ")))
    .ok ({ b with memo := memo }, minLen + memoLen.toNat)
  else .ok (b, minLen + memoLen.toNat)

/-- What some types have behind the representative, and the offset of the nonce. -/
def unmarshalEnd (data : Str) (minLen repOffset : ℕ) (b : Block) : Except Fault (Block × ℕ) :=
  if b.type = .genesis ∧ repOffset + 32 + 48 ≤ data.length then do
    let b ← unmarshalTiming data (repOffset + 32) b
    .ok (b, repOffset + 32 + 48)
  else if b.type = .send ∨ b.type = .burn then unmarshalMemo data minLen repOffset b
  else .ok (b, minLen)

/-- The nonce at the end of `UnmarshalBlock`. -/
def unmarshalNonce (data : Str) (tailOffset : ℕ) (b : Block) : Except Fault Block :=
  if data.length = tailOffset + 8 then do
    let nonce ← inBounds ((slice data tailOffset data.length).bind uint64LE)
    .ok { b with powNonce := nonce }
  else .ok b

/-- The rest of `unmarshalBlock`, once the type is known. -/
def unmarshalTyped (data : Str) (type : BlockType) (minLen : ℕ) : Except Fault Block := do
  guardErr (data.length < minLen)
    (.err (errorf (str "UnmarshalBlock: data too short for " ++ type.name ++
      str " block: need " ++ dec minLen ++ str " bytes, got " ++ dec data.length)))
  let head ← unmarshalHead data type
  let (b, repOffset) ← unmarshalTail data head
  let rep ← inBounds (slice data repOffset (repOffset + 32))
  let (b, tailOffset) ← unmarshalEnd data minLen repOffset
    { b with representative := fieldText [] rep }
  unmarshalNonce data tailOffset b

/-- `unmarshalBlock`: by the type byte. -/
def unmarshalBody (data : Str) (tb : UInt8) : Except Fault Block :=
  match blockLayout tb with
  | none => .error (.err (errorf (str "UnmarshalBlock: unknown type byte 0x" ++ lowerHexByte tb)))
  | some (type, minLen) => unmarshalTyped data type minLen

/-- `UnmarshalBlock`. -/
def unmarshalBlock (data : Str) : Except Fault Block := do
  guardErr (data.length < 2)
    (.err (errorf (str "UnmarshalBlock: data too short (" ++ dec data.length ++ str " bytes)")))
  let version : UInt8 ← inBounds data[0]?
  guardErr (version ≠ 0x02)
    (.err (errorf (str "UnmarshalBlock: unsupported version byte 0x" ++ lowerHexByte version)))
  let tb : UInt8 ← inBounds data[1]?
  unmarshalBody data tb

/-! ## Reading what was written -/

section Reading

variable {data bytes s zero : Str} {lo hi : ℕ}

theorem readNumber_of_holds {n : UInt64} (h : Holds data lo (be64 n)) (hhi : hi = lo + 8) :
    readNumber data lo hi = .ok n := by
  rw [readNumber, h.slice (hhi.trans (by rw [length_be64])), Option.bind_some, uint64BE_be64,
    inBounds_some]

theorem readHex_of_holds (h : Holds data lo bytes) (hdec : hexDecode s = .ok bytes) (hlow : Lower s)
    (hhi : hi = lo + bytes.length) : readHex data lo hi = .ok s := by
  rw [readHex, h.slice hhi, Option.map_some, hexEncode_hexDecode hdec hlow, inBounds_some]

theorem number_of_holds {n : UInt64} {rest : Str} (h : Holds data lo (be64 n ++ rest)) :
    readNumber data lo (lo + 8) = .ok n ∧ Holds data (lo + 8) rest :=
  ⟨readNumber_of_holds h.left rfl, h.right⟩

theorem field_of_holds {name : String} {rest : Str} (h : Holds data lo (bytes ++ rest))
    (hm : marshalField name s = .ok bytes) (hlow : Lower s) :
    readHex data lo (lo + 32) = .ok s ∧ Holds data (lo + 32) rest := by
  obtain ⟨hdec, hlen⟩ := length_marshalField hm
  exact ⟨readHex_of_holds h.left hdec hlow (by rw [hlen]), h.right.cast (by rw [hlen])⟩

theorem marshalFieldOr_fieldText {name : String} (hm : marshalFieldOr name zero s = .ok bytes)
    (hlow : Lower s) (hs : s ≠ hexEncode zero32) : fieldText zero bytes = s := by
  unfold marshalFieldOr at hm
  split_ifs at hm with hz
  · cases hm
    exact hz ▸ fieldText_zero32 zero
  · obtain ⟨hdec, hlen⟩ := length_marshalField hm
    exact fieldText_hexDecode hdec hlen hlow hs

end Reading

/-! ## The asset -/

theorem trimZeros_append_replicate (s : Str) (n : ℕ) :
    trimZeros (s ++ List.replicate n 0) = trimZeros s := by
  induction n with
  | zero => rw [List.replicate_zero, List.append_nil]
  | succ n ih =>
    rw [List.replicate_succ', ← List.append_assoc, trimZeros,
      List.rdropWhile_concat_pos (· == (0 : UInt8)) _ 0 rfl]
    exact ih

theorem trimZeros_eq_self {s : Str} : trimZeros s = s ↔ s.getLast? ≠ some 0 := by
  rw [trimZeros, List.rdropWhile_eq_self_iff]
  cases h : s.getLast? with
  | none =>
    have hnil := List.getLast?_eq_none_iff.mp h
    simp [hnil]
  | some x =>
    have hne : s ≠ [] := by
      rintro rfl
      cases h
    have hlast : s.getLast hne = x := by
      rw [List.getLast?_eq_some_getLast hne] at h
      exact Option.some.inj h
    simp [hne, hlast]

/-! ## Keysets -/

section Keysets

/-- A keyset as it is read back. -/
def Keyset.decoded (ks : Keyset) : Keyset where
  keys := sortStrings ks.keys
  threshold := (UInt32.ofInt ks.threshold).toNat

theorem sortStrings_sorted (l : List Str) : sortStrings (sortStrings l) = sortStrings l := by
  have : Std.Total (fun a b : Str => strLt b a = false) := ⟨fun a b => by
    rw [strLt_eq_false, strLt_eq_false]; exact List.le_total a b⟩
  have : IsTrans Str (fun a b : Str => strLt b a = false) := ⟨fun a b c => by
    simp only [strLt_eq_false]; exact List.le_trans⟩
  exact (List.pairwise_insertionSort _ l).insertionSort_eq

theorem length_marshalKeys {ks : List Str} {body : Str} (h : marshalKeys ks = .ok body) :
    body.length = 32 * ks.length := by
  induction ks generalizing body with
  | nil =>
    cases h
    rfl
  | cons k ks ih =>
    unfold marshalKeys at h
    split at h
    · cases h
    · split_ifs at h with hlen
      split at h
      · cases h
      · next rest hrest =>
        cases h
        rw [List.length_append, hlen, ih hrest, List.length_cons]
        omega

theorem unmarshalKeys_holds {data : Str} {ks : List Str} {body : Str} (hlow : ∀ k ∈ ks, Lower k)
    (h : marshalKeys ks = .ok body) (i : ℕ) (hat : Holds data (8 + i * 32) body) :
    unmarshalKeys data i ks.length = .ok ks := by
  induction ks generalizing body i with
  | nil => rfl
  | cons k ks ih =>
    unfold marshalKeys at h
    split at h
    · cases h
    · next kb hkb =>
      split_ifs at h with hlen
      split at h
      · cases h
      · next rest hrest =>
        cases h
        rw [List.length_cons, unmarshalKeys,
          readHex_of_holds hat.left hkb (hlow k List.mem_cons_self) (by omega), ok_bind,
          ih (fun k' hk' => hlow k' (List.mem_cons_of_mem k hk')) hrest (i + 1)
            (hat.right.cast (by omega)), ok_bind]

/-- **A keyset is read back**, if it has between one and 256 keys. -/
theorem unmarshalKeyset_holds {ks : Keyset} {body : Str} (hlow : ∀ k ∈ ks.keys, Lower k)
    (h : marshalKeysetCanonical (some ks) = .ok body) (hpos : 1 ≤ ks.keys.length)
    (hle : ks.keys.length ≤ 256) (rest : Str) : body.length = 8 + 32 * ks.keys.length ∧
      unmarshalKeysetCanonical (body ++ rest) = .ok (ks.decoded, 8 + 32 * ks.keys.length) := by
  obtain ⟨keys, hkeys, h⟩ := bind_eq_ok.mp h
  cases h
  have hsorted : (sortStrings ks.keys).length = ks.keys.length := List.length_insertionSort _ _
  have hlen := length_marshalKeys hkeys
  rw [hsorted] at hlen
  have hnum : (UInt32.ofNat ks.keys.length).toNat = ks.keys.length :=
    UInt32.toNat_ofNat_of_lt' (show ks.keys.length < 2 ^ 32 by omega)
  refine ⟨by simp [hlen]; omega, ?_⟩
  simp only [List.append_assoc]
  set data : Str := be32 (UInt32.ofInt ks.threshold) ++ (be32 (UInt32.ofNat ks.keys.length) ++
    (keys ++ rest)) with hdata
  have at0 : Holds data 0 _ := Holds.whole hdata
  have at4 := at0.right.cast (show 0 + (be32 (UInt32.ofInt ks.threshold)).length = 4 from rfl)
  have at8 := at4.right.cast (show 4 + (be32 (UInt32.ofNat ks.keys.length)).length = 8 from rfl)
  have htotal := at8.left.le_length
  rw [hlen] at htotal
  have hlow' : ∀ k ∈ sortStrings ks.keys, Lower k :=
    fun k hk => hlow k ((List.mem_insertionSort _).mp hk)
  have hthreshold : slice data 0 4 = some _ := at0.left.slice rfl
  have hcount : slice data 4 8 = some _ := at4.left.slice rfl
  have hread := unmarshalKeys_holds hlow' hkeys 0 at8.left
  rw [hsorted] at hread
  unfold unmarshalKeysetCanonical
  rw [guardErr_of_not (by omega), ok_bind, hthreshold, Option.bind_some,
    uint32BE_be32, inBounds_some, ok_bind, hcount, Option.bind_some,
    uint32BE_be32, inBounds_some, ok_bind, hnum, guardErr_of_not (by omega), ok_bind,
    guardErr_of_not (by omega), ok_bind, hread, ok_bind]
  rfl

theorem length_unmarshalKeys {data : Str} {n : ℕ} {ks : List Str} (i : ℕ)
    (h : unmarshalKeys data i n = .ok ks) : ks.length = n := by
  induction n generalizing i ks with
  | zero =>
    cases h
    rfl
  | succ n ih =>
    obtain ⟨key, -, h⟩ := bind_eq_ok.mp h
    obtain ⟨keys, hkeys, h⟩ := bind_eq_ok.mp h
    cases h
    rw [List.length_cons, ih (i + 1) hkeys]

theorem length_unmarshalKeyset {data : Str} {ks : Keyset} {n : ℕ}
    (h : unmarshalKeysetCanonical data = .ok (ks, n)) :
    1 ≤ ks.keys.length ∧ ks.keys.length ≤ 256 := by
  obtain ⟨_, -, h⟩ := bind_eq_ok.mp h
  obtain ⟨threshold, -, h⟩ := bind_eq_ok.mp h
  obtain ⟨numKeys, -, h⟩ := bind_eq_ok.mp h
  obtain ⟨_, hcount, h⟩ := bind_eq_ok.mp h
  obtain ⟨_, -, h⟩ := bind_eq_ok.mp h
  obtain ⟨keys, hkeys, h⟩ := bind_eq_ok.mp h
  cases h
  have hlen := length_unmarshalKeys 0 hkeys
  rw [guardErr_eq_ok] at hcount
  show 1 ≤ keys.length ∧ keys.length ≤ 256
  omega

end Keysets

/-! ## What comes back -/

/-- Lower-case fields, with zero values spelled as the decoder spells them. -/
structure Block.Canonical (b : Block) : Prop where
  account : Lower b.account
  previous : Lower b.previous
  previousZero : b.previous ≠ hexEncode zero32
  destination : Lower b.destination
  source : Lower b.source
  accessPubKey : Lower b.accessPubKey
  accessPubKeyZero : b.accessPubKey ≠ hexEncode zero32
  representative : Lower b.representative
  representativeZero : b.representative ≠ hexEncode zero32
  keys : ∀ ks, b.msKeyset = some ks → ∀ k ∈ ks.keys, Lower k

/-- The head that the decoder reads of an encoded block. -/
def Block.decodedHead (b : Block) : Block where
  type := b.type
  account := b.account
  previous := b.previous
  balance := b.balance
  timestamp := b.timestamp
  asset := trimZeros b.asset

/-- A head with the fields of the type of `b`. -/
def Block.withTail (head b : Block) : Block :=
  { head with
    destination := if isIssue b.type then b.destination else head.destination
    source := if isNaming b.type then b.source else head.source
    amount := if hasAmount b.type then b.amount else head.amount
    vcpus := if b.type = .lease then b.vcpus else head.vcpus
    memoryMB := if b.type = .lease then b.memoryMB else head.memoryMB
    diskGB := if b.type = .lease then b.diskGB else head.diskGB
    duration := if b.type = .lease then b.duration else head.duration
    accessPubKey := if b.type = .lease then b.accessPubKey else head.accessPubKey
    msKeyset := if isKeysetOp b.type then b.msKeyset.map Keyset.decoded else head.msKeyset
    lockedR := if hasLocked b.type then b.lockedR else head.lockedR
    lockedPayoutCap := if hasLocked b.type then b.lockedPayoutCap else head.lockedPayoutCap
    lockedTWAP := if hasLocked b.type then b.lockedTWAP else head.lockedTWAP }

/-- A block with the memo and the lease timing of `b`. -/
def Block.withEnd (c b : Block) : Block :=
  { c with
    memo := b.memo
    leaseMinDurationSecs := b.leaseMinDurationSecs
    leaseSettleGraceNs := b.leaseSettleGraceNs
    leaseForceSettleGapNs := b.leaseForceSettleGapNs
    leaseEscrowExpiryNs := b.leaseEscrowExpiryNs
    leaseArchiveGapNs := b.leaseArchiveGapNs
    maxAttestationSkewNs := b.maxAttestationSkewNs }

/-- What the decoder makes of an encoded block. -/
def Block.decoded (b : Block) : Block :=
  { ({ b.decodedHead.withTail b with representative := b.representative }).withEnd b with
    powNonce := if isKeysetOp b.type then 0 else b.powNonce }

section Tails

variable {data : Str} {b : Block}

/-- **The fields of a type are read back.** -/
theorem unmarshalTail_holds (hb : b.Canonical) {head : Block} (ht : head.type = b.type)
    (hr : b.type ≠ .leaseRenew) (hk : isKeysetOp b.type = false) {tail : Str}
    (h : marshalTail b = .ok tail) (at90 : Holds data 90 tail) :
    unmarshalTail data head = .ok (head.withTail b, 90 + tailLength b.type) := by
  -- a last field has nothing behind it
  rw [← List.append_nil tail] at at90
  unfold marshalTail at h
  unfold unmarshalTail
  rw [ht]
  cases hty : b.type <;> simp only [hty, bind_eq_ok, Except.ok.injEq] at h
  case send =>
    obtain ⟨dest, hdest, rfl⟩ := h
    simp only [List.append_assoc] at at90
    obtain ⟨h90, at122⟩ := field_of_holds at90 hdest hb.destination
    obtain ⟨h122, -⟩ := number_of_holds at122
    simp only [h90, h122, ok_bind]
    simp [Block.withTail, ht, hty, isIssue, isNaming, isLeaseOp, hasAmount, hasLocked, isKeysetOp,
      tailLength]
  case receive | leaseCancel | leaseForceSettle =>
    obtain ⟨h90, -⟩ := field_of_holds at90 h hb.source
    simp only [h90, ok_bind]
    simp [Block.withTail, ht, hty, isIssue, isNaming, isLeaseOp, hasAmount, hasLocked, isKeysetOp,
      tailLength]
  case lease =>
    obtain ⟨dest, hdest, key, hkey, rfl⟩ := h
    simp only [List.append_assoc] at at90
    obtain ⟨h90, at122⟩ := field_of_holds at90 hdest hb.destination
    obtain ⟨h122, at130⟩ := number_of_holds at122
    obtain ⟨h130, at138⟩ := number_of_holds at130
    obtain ⟨h138, at146⟩ := number_of_holds at138
    obtain ⟨h146, at154⟩ := number_of_holds at146
    obtain ⟨h154, at162⟩ := number_of_holds at154
    have hssh : slice data 162 194 = some key :=
      at162.left.slice (by rw [length_marshalFieldOr hkey])
    simp only [h90, h122, h130, h138, h146, h154, hssh, ok_bind, inBounds_some,
      marshalFieldOr_fieldText hkey hb.accessPubKey hb.accessPubKeyZero]
    simp [Block.withTail, ht, hty, isIssue, isNaming, isLeaseOp, hasAmount, hasLocked, isKeysetOp,
      tailLength]
  case leaseAccept =>
    obtain ⟨source, hsource, rfl⟩ := h
    simp only [lockedBytes, List.append_assoc] at at90
    obtain ⟨h90, at122⟩ := field_of_holds at90 hsource hb.source
    obtain ⟨h122, at130⟩ := number_of_holds at122
    obtain ⟨h130, at138⟩ := number_of_holds at130
    obtain ⟨h138, at146⟩ := number_of_holds at138
    obtain ⟨h146, -⟩ := number_of_holds at146
    simp only [h90, h122, h130, h138, h146, ok_bind]
    simp [Block.withTail, ht, hty, isIssue, isNaming, isLeaseOp, hasAmount, hasLocked, isKeysetOp,
      tailLength]
  case leaseSettle =>
    obtain ⟨source, hsource, rfl⟩ := h
    simp only [List.append_assoc] at at90
    obtain ⟨h90, at122⟩ := field_of_holds at90 hsource hb.source
    obtain ⟨h122, -⟩ := number_of_holds at122
    simp only [h90, h122, ok_bind]
    simp [Block.withTail, ht, hty, isIssue, isNaming, isLeaseOp, hasAmount, hasLocked, isKeysetOp,
      tailLength]
  case burn | mint =>
    subst h
    obtain ⟨h90, -⟩ := number_of_holds at90
    simp only [h90, ok_bind]
    simp [Block.withTail, ht, hty, isIssue, isNaming, isLeaseOp, hasAmount, hasLocked, isKeysetOp,
      tailLength]
  case leaseRenew => exact absurd hty hr
  case multisigOpen | multisigUpdate => simp [hty, isKeysetOp] at hk
  case genesis | other =>
    simp [Block.withTail, hty, isIssue, isNaming, isLeaseOp, hasAmount, hasLocked, isKeysetOp,
      tailLength]

theorem exists_keyset (hk : isKeysetOp b.type = true) {tail : Str} (h : marshalTail b = .ok tail) :
    ∃ ks, b.msKeyset = some ks := by
  unfold marshalTail at h
  cases hty : b.type <;> simp only [hty, isKeysetOp, reduceCtorEq] at hk h
  all_goals
    cases hset : b.msKeyset with
    | none =>
      rw [hset] at h
      cases h
    | some ks => exact ⟨ks, rfl⟩

theorem unmarshalTail_keyset (hb : b.Canonical) (head : Block) (ht : head.type = b.type)
    (hk : isKeysetOp b.type = true) {ks : Keyset} (hks : b.msKeyset = some ks)
    (hpos : 1 ≤ ks.keys.length) (hle : ks.keys.length ≤ 256) {before tail : Str} (rest : Str)
    (h : marshalTail b = .ok tail) (hbefore : before.length = 90) (hrest : 32 ≤ rest.length) :
    tail.length = 8 + 32 * ks.keys.length ∧ unmarshalTail (before ++ (tail ++ rest)) head =
      .ok (head.withTail b, 90 + (8 + 32 * ks.keys.length)) := by
  have htail : marshalKeysetCanonical (some ks) = .ok tail := by
    rw [← hks]
    unfold marshalTail at h
    cases hty : b.type <;> simp only [hty] at h <;> first | exact h | simp [hty, isKeysetOp] at hk
  obtain ⟨hlen, hread⟩ := unmarshalKeyset_holds (hb.keys ks hks) htail hpos hle rest
  refine ⟨hlen, ?_⟩
  have hslice : slice (before ++ (tail ++ rest)) 90 (before ++ (tail ++ rest)).length =
      some (tail ++ rest) := by
    rw [slice_eq_some (by simp [hbefore]) le_rfl, ← hbefore, List.drop_left]
    simp
  have hlong : ¬(before ++ (tail ++ rest)).length < 90 + (8 + 32 * ks.keys.length) + 32 := by
    simp only [List.length_append]
    omega
  unfold unmarshalTail
  rw [ht]
  cases hty : b.type <;> simp only [hty, isKeysetOp, reduceCtorEq] at hk
  all_goals
    simp only [hslice, inBounds_some, ok_bind, hread, guardErr_of_not hlong]
    simp [Block.withTail, ht, hty, hks, isIssue, isNaming, isLeaseOp, hasAmount, hasLocked,
      isKeysetOp]

end Tails

/-! ## The end of an encoding -/

section Ends

variable {data : Str} {b c : Block} {off : ℕ}

theorem unmarshalTiming_holds (h : Holds data off (be64 b.leaseMinDurationSecs ++
      (be64 b.leaseSettleGraceNs.toUInt64 ++ (be64 b.leaseForceSettleGapNs.toUInt64 ++
        (be64 b.leaseEscrowExpiryNs.toUInt64 ++ (be64 b.leaseArchiveGapNs.toUInt64 ++
          be64 b.maxAttestationSkewNs.toUInt64))))))
    (hc : c.memo = b.memo) : unmarshalTiming data off c = .ok (c.withEnd b) := by
  obtain ⟨h0, at8⟩ := number_of_holds h
  obtain ⟨h8, at16⟩ := number_of_holds at8
  obtain ⟨h16, at24⟩ := number_of_holds at16
  obtain ⟨h24, at32⟩ := number_of_holds at24
  obtain ⟨h32, at40⟩ := number_of_holds at32
  have h40 := readNumber_of_holds at40 rfl
  unfold unmarshalTiming
  simp only [Nat.add_assoc, Nat.reduceAdd] at h0 h8 h16 h24 h32 h40
  simp only [h0, h8, h16, h24, h32, h40, ok_bind, Int64.toInt64_toUInt64, Block.withEnd, hc]

theorem unmarshalMemo_holds (hmemo : validateMemo b.memo = .ok ())
    (h : Holds data (off + 32) (UInt8.ofNat b.memo.length :: b.memo)) (hc : c.memo = []) :
    unmarshalMemo data (off + 33) off c =
      .ok ({ c with memo := b.memo }, off + 33 + b.memo.length) := by
  have hle : b.memo.length ≤ 64 := by
    unfold validateMemo at hmemo
    split_ifs at hmemo with hnil hlong
    · rw [hnil]
      exact Nat.zero_le 64
    · exact not_lt.mp hlong
  have hnum : (UInt8.ofNat b.memo.length).toNat = b.memo.length :=
    UInt8.toNat_ofNat_of_lt' (show b.memo.length < 2 ^ 8 by omega)
  have hat : Holds data (off + 33) b.memo := Holds.right (x := [UInt8.ofNat b.memo.length]) h
  have htotal := hat.le_length
  unfold unmarshalMemo
  rw [h.index, inBounds_some, ok_bind, hnum, guardErr_of_not (by simp [maxMemoBytes, hle]),
    ok_bind, guardErr_of_not (by omega), ok_bind]
  by_cases hpos : 0 < b.memo.length
  · rw [if_pos hpos, hat.slice rfl, inBounds_some, ok_bind, hmemo]
    rfl
  · have hnil : b.memo = [] := List.eq_nil_of_length_eq_zero (by omega)
    rw [if_neg hpos, hnil, ← hc]

/-- The length that `UnmarshalBlock` asks for. -/
def minLength (t : BlockType) : ℕ :=
  if isKeysetOp t then 130
  else 90 + tailLength t + 32 + (if t = .send ∨ t = .burn then 1 else 0)

theorem blockLayout_typeByte {t : BlockType} {tb : UInt8} (h : typeByte t = some tb)
    (ht : t ≠ .leaseRenew) : blockLayout tb = some (t, minLength t) := by
  cases t <;> cases h <;> first | rfl | exact absurd rfl ht

theorem withEnd_untimed (hc : c = c.withEnd default) (hb : hasGenesisLeaseTiming b = false) :
    c.withEnd b = { c with memo := b.memo } := by
  simp only [hasGenesisLeaseTiming, Bool.or_eq_false_iff, bne_eq_false_iff_eq] at hb
  obtain ⟨⟨⟨⟨⟨h₁, h₂⟩, h₃⟩, h₄⟩, h₅⟩, h₆⟩ := hb
  rw [hc]
  simp only [Block.withEnd, h₁, h₂, h₃, h₄, h₅, h₆]
  rfl

/-- **What follows the representative is read back.** -/
theorem unmarshalEnd_holds {tb : UInt8} {account previous tail rep timing : Str}
    (he : Encoded b tb account previous tail rep timing) (hk : isKeysetOp b.type = false)
    (h : Holds data (90 + tailLength b.type + 32) (timing ++ memoBytes b))
    (hlen : data.length = 90 + tailLength b.type + 32 + (timing ++ memoBytes b).length + 8)
    (ht : c.type = b.type) (hc : c = c.withEnd default) :
    unmarshalEnd data (minLength b.type) (90 + tailLength b.type) c =
      .ok (c.withEnd b, 90 + tailLength b.type + 32 + (timing ++ memoBytes b).length) := by
  have hmin : minLength b.type = 90 + tailLength b.type + 32 +
      (if b.type = .send ∨ b.type = .burn then 1 else 0) := by
    rw [minLength, hk]
    rfl
  have hcmemo : c.memo = [] := congrArg Block.memo hc
  have htiming := he.timing
  unfold marshalTiming at htiming
  split_ifs at htiming with htimed hgen
  · -- a genesis block with a timing
    cases htiming
    have hnosend : ¬(b.type = .send ∨ b.type = .burn) := by simp [hgen]
    have hmemo : b.memo = [] := he.memo.resolve_right hnosend
    have hbytes : memoBytes b = [] := if_neg hnosend
    rw [hbytes, List.append_nil] at h hlen ⊢
    simp only [List.append_assoc] at h hlen ⊢
    have hread := unmarshalTiming_holds h (hcmemo.trans hmemo.symm)
    unfold unmarshalEnd
    rw [if_pos ⟨ht.trans hgen, by rw [hlen]; simp⟩, hread, ok_bind]
    simp
  · cases htiming
    rw [List.nil_append] at h hlen ⊢
    rw [withEnd_untimed hc (Bool.eq_false_iff.mpr htimed), hmin]
    unfold unmarshalEnd
    by_cases hsend : b.type = .send ∨ b.type = .burn
    · -- the two types with a memo
      have hnogen : c.type ≠ .genesis := by
        rw [ht]
        rcases hsend with hs | hs <;> simp [hs]
      have hbytes : memoBytes b = UInt8.ofNat b.memo.length :: b.memo := if_pos hsend
      rw [hbytes] at h hlen ⊢
      rw [if_neg fun hg => hnogen hg.1, if_pos (ht ▸ hsend), if_pos hsend,
        unmarshalMemo_holds he.memoText h hcmemo, List.length_cons]
      congr 2
      omega
    · have hbytes : memoBytes b = [] := if_neg hsend
      have hmemo : b.memo = [] := he.memo.resolve_right hsend
      rw [hbytes] at hlen ⊢
      have hsame : { c with memo := b.memo } = c := by rw [hmemo, ← hcmemo]
      rw [if_neg (by rw [hlen]; simp), if_neg (ht ▸ hsend), if_neg hsend, hsame]
      rfl

end Ends

/-! ## Whole blocks -/

section Whole

variable {lib : Lib} {data : Str} {b : Block}

theorem marshalBlock_ok (h : marshalBlock lib b = .ok data) :
    b.pubKey = [] ∧ ∃ tb account previous tail rep timing,
      Encoded b tb account previous tail rep timing ∧
      data = 2 :: tb :: (assetBytes b.asset ++ (account ++ (previous ++ (be64 b.balance ++
        (be64 b.timestamp.toUInt64 ++ (tail ++ (rep ++ ((timing ++ memoBytes b) ++
          le64 b.powNonce)))))))) := by
  obtain ⟨_, hkey, h⟩ := bind_eq_ok.mp h
  obtain ⟨canonical, hcanonical, h⟩ := bind_eq_ok.mp h
  cases h
  have hpre : preimage lib b = .ok (canonical ++ marshalBlockAux b) := by
    unfold preimage
    rw [hcanonical]
    rfl
  obtain ⟨tb, account, previous, tail, rep, timing, he, hdata⟩ := preimage_ok hpre
  refine ⟨not_not.mp (guardErr_eq_ok.mp hkey), tb, account, previous, tail, rep, timing, he, ?_⟩
  have hcanon : canonical = 2 :: tb :: (assetBytes b.asset ++ (account ++ (previous ++
      (be64 b.balance ++ (be64 b.timestamp.toUInt64 ++ (tail ++ (rep ++ (timing ++
        memoBytes b)))))))) := by
    have hsplit : canonical ++ marshalBlockAux b = (2 :: tb :: (assetBytes b.asset ++ (account ++
        (previous ++ (be64 b.balance ++ (be64 b.timestamp.toUInt64 ++ (tail ++ (rep ++ (timing ++
          memoBytes b))))))))) ++ marshalBlockAux b := by
      rw [hdata]
      simp only [List.cons_append, List.append_assoc]
    exact List.append_cancel_right hsplit
  rw [hcanon]
  simp only [List.cons_append, List.append_assoc]

theorem unmarshalBlock_cons (tb : UInt8) (rest : Str) :
    unmarshalBlock (2 :: tb :: rest) = unmarshalBody (2 :: tb :: rest) tb := by
  have hlen : ¬(2 :: tb :: rest).length < 2 := by simp
  unfold unmarshalBlock
  rw [guardErr_of_not hlen]
  rfl

theorem unmarshalHead_holds (hb : b.Canonical) {account previous rest : Str}
    (hasset : b.asset.length ≤ 8) (hacc : marshalField "account" b.account = .ok account)
    (hprev : marshalFieldOr "previous" zeroPrev b.previous = .ok previous)
    (h : Holds data 2 (assetBytes b.asset ++ (account ++ (previous ++ (be64 b.balance ++
      (be64 b.timestamp.toUInt64 ++ rest)))))) :
    unmarshalHead data b.type = .ok b.decodedHead ∧ Holds data 90 rest := by
  have h2 : slice data 2 10 = some (assetBytes b.asset) :=
    h.left.slice (by rw [length_assetBytes hasset])
  have at10 := h.right.cast (show 2 + (assetBytes b.asset).length = 10 by
    rw [length_assetBytes hasset])
  obtain ⟨h10, at42⟩ := field_of_holds at10 hacc hb.account
  have h42 : slice data 42 74 = some previous :=
    at42.left.slice (by rw [length_marshalFieldOr hprev])
  have at74 := at42.right.cast (show 10 + 32 + previous.length = 74 by
    rw [length_marshalFieldOr hprev])
  obtain ⟨h74, at82⟩ := number_of_holds at74
  obtain ⟨h82, at90⟩ := number_of_holds at82
  refine ⟨?_, at90⟩
  unfold unmarshalHead
  simp only [h2, h10, h42, h74, h82, inBounds_some, ok_bind, assetBytes,
    trimZeros_append_replicate, Int64.toInt64_toUInt64,
    marshalFieldOr_fieldText hprev hb.previous hb.previousZero]
  rfl

theorem unmarshalNonce_holds {off : ℕ} {n : UInt64} (c : Block) (h : Holds data off (le64 n))
    (hlen : data.length = off + 8) : unmarshalNonce data off c = .ok { c with powNonce := n } := by
  unfold unmarshalNonce
  rw [if_pos hlen, h.slice (hlen.trans (by rw [length_le64])), Option.bind_some, uint64LE_le64,
    inBounds_some, ok_bind]

/-- Whether a keyset has as many keys as the decoder takes. -/
def Block.KeysFit (b : Block) : Prop :=
  ∀ ks, b.msKeyset = some ks → 1 ≤ ks.keys.length ∧ ks.keys.length ≤ 256

/-- The tail of a block and what follows it, as `MarshalBlock` writes them. -/
structure Written (b : Block) (data tail rep timing : Str) : Prop where
  head : unmarshalHead data b.type = .ok b.decodedHead
  after : Holds data 90 (tail ++ (rep ++ ((timing ++ memoBytes b) ++ le64 b.powNonce)))
  length : data.length = 90 + tail.length + 32 + (timing ++ memoBytes b).length + 8
  repLength : rep.length = 32
  repText : fieldText [] rep = b.representative

theorem unmarshalTyped_plain (hb : b.Canonical) {tb : UInt8}
    {account previous tail rep timing : Str}
    (he : Encoded b tb account previous tail rep timing) (hw : Written b data tail rep timing)
    (hr : b.type ≠ .leaseRenew) (hk : isKeysetOp b.type = false) :
    unmarshalTyped data b.type (minLength b.type) = .ok b.decoded := by
  have htail := length_marshalTail he.tail hk
  have hlen := hw.length
  rw [htail] at hlen
  have atRep := hw.after.right.cast (show 90 + tail.length = 90 + tailLength b.type by rw [htail])
  have hrep : slice data (90 + tailLength b.type) (90 + tailLength b.type + 32) = some rep :=
    atRep.left.slice (by rw [hw.repLength])
  have atEnd := atRep.right.cast (show 90 + tailLength b.type + rep.length =
    90 + tailLength b.type + 32 by rw [hw.repLength])
  have hmin : ¬data.length < minLength b.type := by
    rw [minLength, hk]
    by_cases hs : b.type = .send ∨ b.type = .burn
    · simp only [memoBytes, if_pos hs, List.length_append, List.length_cons] at hlen ⊢
      simp only [Bool.false_eq_true, if_false]
      omega
    · simp only [if_neg hs, Bool.false_eq_true, if_false]
      omega
  have hread : unmarshalTail data b.decodedHead =
      .ok (b.decodedHead.withTail b, 90 + tailLength b.type) :=
    unmarshalTail_holds hb rfl hr hk he.tail hw.after.left
  have hend := unmarshalEnd_holds he hk atEnd.left hlen
    (c := { b.decodedHead.withTail b with representative := b.representative }) rfl rfl
  unfold unmarshalTyped
  simp only [guardErr_of_not hmin, ok_bind, hw.head, hread, hrep, inBounds_some, hw.repText, hend,
    unmarshalNonce_holds _ atEnd.right hlen]
  rw [Block.decoded, hk]
  rfl

/-- Blocks with a keyset are read back without their nonce, which is looked for at the place it
would have without keys. -/
theorem unmarshalTyped_keyset (hb : b.Canonical) {tb : UInt8}
    {account previous tail rep timing : Str}
    (he : Encoded b tb account previous tail rep timing) (hw : Written b data tail rep timing)
    (hk : isKeysetOp b.type = true) (hfit : b.KeysFit) :
    unmarshalTyped data b.type (minLength b.type) = .ok b.decoded := by
  obtain ⟨ks, hks⟩ := exists_keyset hk he.tail
  obtain ⟨hpos, hle⟩ := hfit ks hks
  have hsend : ¬(b.type = .send ∨ b.type = .burn) := by
    rintro (hs | hs) <;> simp [hs, isKeysetOp] at hk
  have hgen : b.type ≠ .genesis := by
    intro hs
    simp [hs, isKeysetOp] at hk
  have hmemo : b.memo = [] := he.memo.resolve_right hsend
  have hbytes : memoBytes b = [] := if_neg hsend
  have huntimed : hasGenesisLeaseTiming b = false ∧ timing = [] := by
    have htiming := he.timing
    unfold marshalTiming at htiming
    split_ifs at htiming with htimed
    cases htiming
    exact ⟨Bool.eq_false_iff.mpr htimed, rfl⟩
  have hlen := hw.length
  rw [hbytes, huntimed.2] at hlen
  obtain ⟨before, after, hdata, hbefore⟩ := hw.after
  simp only [List.append_assoc] at hdata
  obtain ⟨htail, hread⟩ := unmarshalTail_keyset hb b.decodedHead rfl hk hks hpos hle
    (rep ++ (timing ++ (memoBytes b ++ (le64 b.powNonce ++ after)))) he.tail hbefore
    (by rw [List.length_append, hw.repLength]; omega)
  rw [← hdata] at hread
  rw [htail] at hlen
  have atRep := hw.after.right.cast (show 90 + tail.length = 90 + (8 + 32 * ks.keys.length) by
    rw [htail])
  have hrep : slice data (90 + (8 + 32 * ks.keys.length)) (90 + (8 + 32 * ks.keys.length) + 32) =
      some rep := atRep.left.slice (by rw [hw.repLength])
  have hmin : minLength b.type = 130 := if_pos hk
  have hend : ∀ c : Block, c.type = b.type → c = c.withEnd default →
      unmarshalEnd data 130 (90 + (8 + 32 * ks.keys.length)) c = .ok (c.withEnd b, 130) := by
    intro c hct hc
    have hcmemo : c.memo = [] := congrArg Block.memo hc
    rw [withEnd_untimed hc huntimed.1, unmarshalEnd, if_neg (fun hg => hgen (hct ▸ hg.1)),
      if_neg (hct ▸ hsend), hmemo, ← hcmemo]
  have hnonce : ∀ c, unmarshalNonce data 130 c = .ok c := by
    intro c
    rw [unmarshalNonce, if_neg]
    simp only [List.append_nil, List.length_nil] at hlen
    omega
  unfold unmarshalTyped
  rw [hmin]
  simp only [guardErr_of_not (show ¬data.length < 130 by omega), ok_bind, hw.head, hread, hrep,
    inBounds_some, hw.repText, hnonce,
    hend { b.decodedHead.withTail b with representative := b.representative } rfl rfl]
  rw [Block.decoded, hk]
  rfl

/-- **What the decoder makes of an encoded block.** -/
theorem unmarshalBlock_marshalBlock (hb : b.Canonical) (h : marshalBlock lib b = .ok data)
    (hr : b.type ≠ .leaseRenew) (hk : isKeysetOp b.type = true → b.KeysFit) :
    unmarshalBlock data = .ok b.decoded := by
  obtain ⟨-, tb, account, previous, tail, rep, timing, he, hdata⟩ := marshalBlock_ok h
  have at2 : Holds data 2 _ := ⟨[2, tb], [], by rw [List.append_nil]; exact hdata, rfl⟩
  obtain ⟨hhead, at90⟩ := unmarshalHead_holds hb he.asset he.account he.previous at2
  have hlen : data.length = 90 + tail.length + 32 + (timing ++ memoBytes b).length + 8 := by
    rw [hdata]
    simp only [List.length_append, List.length_cons, length_assetBytes he.asset,
      (length_marshalField he.account).2, length_marshalFieldOr he.previous, length_be64,
      length_marshalFieldOr he.rep, length_le64]
    omega
  have hw : Written b data tail rep timing := ⟨hhead, at90, hlen, length_marshalFieldOr he.rep,
    marshalFieldOr_fieldText he.rep hb.representative hb.representativeZero⟩
  have hbody : unmarshalBlock data = unmarshalBody data tb := by
    rw [hdata]
    exact unmarshalBlock_cons tb _
  rw [hbody, unmarshalBody, blockLayout_typeByte he.type hr]
  cases hkey : isKeysetOp b.type with
  | false => exact unmarshalTyped_plain hb he hw hr hkey
  | true => exact unmarshalTyped_keyset hb he hw hkey (hk hkey)

theorem unmarshalBlock_renew (h : marshalBlock lib b = .ok data) (hr : b.type = .leaseRenew) :
    ∃ e, unmarshalBlock data = .error (.err e) := by
  obtain ⟨-, tb, account, previous, tail, rep, timing, he, hdata⟩ := marshalBlock_ok h
  have htb : tb = 0x0E := by
    have := he.type
    rw [hr] at this
    exact (Option.some.inj this).symm
  rw [hdata, unmarshalBlock_cons, htb]
  exact ⟨_, rfl⟩

theorem msKeyset_of_unmarshalHead {t : BlockType} {c : Block} (h : unmarshalHead data t = .ok c) :
    c.msKeyset = none := by
  simp only [unmarshalHead, bind_eq_ok] at h
  obtain ⟨_, -, _, -, _, -, _, -, _, -, h⟩ := h
  cases h
  rfl

theorem msKeyset_of_unmarshalNonce {off : ℕ} {c c' : Block}
    (h : unmarshalNonce data off c = .ok c') : c'.msKeyset = c.msKeyset := by
  unfold unmarshalNonce at h
  split_ifs at h
  · obtain ⟨_, -, h⟩ := bind_eq_ok.mp h
    cases h
    rfl
  · cases h
    rfl

theorem msKeyset_of_unmarshalEnd {minLen off off' : ℕ} {c c' : Block}
    (h : unmarshalEnd data minLen off c = .ok (c', off')) : c'.msKeyset = c.msKeyset := by
  unfold unmarshalEnd at h
  split_ifs at h
  · simp only [unmarshalTiming, bind_eq_ok] at h
    obtain ⟨_, ⟨_, -, _, -, _, -, _, -, _, -, _, -, htimed⟩, h⟩ := h
    cases htimed
    cases h
    rfl
  · obtain ⟨_, -, h⟩ := bind_eq_ok.mp h
    obtain ⟨_, -, h⟩ := bind_eq_ok.mp h
    obtain ⟨_, -, h⟩ := bind_eq_ok.mp h
    split_ifs at h
    · obtain ⟨_, -, h⟩ := bind_eq_ok.mp h
      obtain ⟨_, -, h⟩ := bind_eq_ok.mp h
      cases h
      rfl
    · cases h
      rfl
  · cases h
    rfl

theorem keysFit_of_unmarshalTail {c c' : Block} {off : ℕ} (hc : c.msKeyset = none)
    (h : unmarshalTail data c = .ok (c', off)) : c'.KeysFit := by
  intro ks hks
  unfold unmarshalTail at h
  cases hty : c.type <;> simp only [hty, bind_eq_ok] at h
  case multisigOpen | multisigUpdate =>
    obtain ⟨_, -, ⟨keyset, n⟩, hset, _, -, h⟩ := h
    cases h
    cases hks
    exact length_unmarshalKeyset hset
  -- the other types leave the keyset as it is
  case genesis | leaseRenew | other =>
    cases h
    rw [hc] at hks
    cases hks
  case receive | leaseCancel | leaseForceSettle | burn | mint =>
    obtain ⟨_, -, h⟩ := h
    cases h
    rw [hc] at hks
    cases hks
  case send | leaseSettle =>
    obtain ⟨_, -, _, -, h⟩ := h
    cases h
    rw [hc] at hks
    cases hks
  case leaseAccept =>
    obtain ⟨_, -, _, -, _, -, _, -, _, -, h⟩ := h
    cases h
    rw [hc] at hks
    cases hks
  case lease =>
    obtain ⟨_, -, _, -, _, -, _, -, _, -, _, -, _, -, h⟩ := h
    cases h
    rw [hc] at hks
    cases hks

theorem keysFit_of_unmarshalBlock {c : Block} (h : unmarshalBlock data = .ok c) : c.KeysFit := by
  obtain ⟨_, -, h⟩ := bind_eq_ok.mp h
  obtain ⟨version, -, h⟩ := bind_eq_ok.mp h
  obtain ⟨_, -, h⟩ := bind_eq_ok.mp h
  obtain ⟨tb, -, h⟩ := bind_eq_ok.mp h
  unfold unmarshalBody at h
  split at h
  · cases h
  · next type minLen _ =>
    obtain ⟨_, -, h⟩ := bind_eq_ok.mp h
    obtain ⟨head, hhead, h⟩ := bind_eq_ok.mp h
    obtain ⟨⟨c₁, off⟩, htail, h⟩ := bind_eq_ok.mp h
    obtain ⟨rep, -, h⟩ := bind_eq_ok.mp h
    obtain ⟨⟨c₂, off'⟩, hend, h⟩ := bind_eq_ok.mp h
    have hnonce := msKeyset_of_unmarshalNonce h
    have hset := msKeyset_of_unmarshalEnd hend
    intro ks hks
    rw [hnonce, hset] at hks
    exact keysFit_of_unmarshalTail (msKeyset_of_unmarshalHead hhead) htail ks hks

end Whole

/-! ## Which blocks come back -/

section Recovered

variable {lib : Lib} {data : Str} {b b' : Block}

/-- The block `b'` has every field of `b` that the canonical encoding covers, keysets up to the
order of their keys, and its nonce. -/
structure Block.Recovers (b b' : Block) : Prop where
  type : b.type = b'.type
  account : b.account = b'.account
  previous : b.previous = b'.previous
  balance : b.balance = b'.balance
  timestamp : b.timestamp = b'.timestamp
  asset : b.asset = b'.asset
  representative : b.representative = b'.representative
  tail : b.SameTail b'
  accessPubKey : b.type = .lease → b.accessPubKey = b'.accessPubKey
  keyset : isKeysetOp b.type = true → ∃ ks ks', b.msKeyset = some ks ∧ b'.msKeyset = some ks' ∧
    ks.threshold = ks'.threshold ∧ ks.keys.Perm ks'.keys
  memo : b.memo = b'.memo
  leaseMinDurationSecs : b.leaseMinDurationSecs = b'.leaseMinDurationSecs
  leaseSettleGraceNs : b.leaseSettleGraceNs = b'.leaseSettleGraceNs
  leaseForceSettleGapNs : b.leaseForceSettleGapNs = b'.leaseForceSettleGapNs
  leaseEscrowExpiryNs : b.leaseEscrowExpiryNs = b'.leaseEscrowExpiryNs
  leaseArchiveGapNs : b.leaseArchiveGapNs = b'.leaseArchiveGapNs
  maxAttestationSkewNs : b.maxAttestationSkewNs = b'.maxAttestationSkewNs
  powNonce : b.powNonce = b'.powNonce

/-- The block is no renewal, its asset does not end with a zero byte, and if it carries a keyset,
then of between one and 256 keys, with a threshold of 32 bits, and with the nonce zero. -/
structure Block.Decodable (b : Block) : Prop where
  type : b.type ≠ .leaseRenew
  asset : b.asset.getLast? ≠ some 0
  nonce : isKeysetOp b.type = true → b.powNonce = 0
  keyset : isKeysetOp b.type = true → ∀ ks, b.msKeyset = some ks →
    1 ≤ ks.keys.length ∧ ks.keys.length ≤ 256 ∧ 0 ≤ ks.threshold ∧ ks.threshold < 2 ^ 32

theorem toNat_ofInt (t : ℤ) : ((UInt32.ofInt t).toNat : ℤ) = t % 2 ^ 32 := by
  rw [UInt32.ofInt, UInt32.toNat_ofNat']
  omega

theorem marshalKeyset_decoded (ks : Keyset) :
    marshalKeysetCanonical (some ks.decoded) = marshalKeysetCanonical (some ks) := by
  have hsorted : (sortStrings ks.keys).length = ks.keys.length := List.length_insertionSort _ _
  have hthreshold : UInt32.ofInt ((UInt32.ofInt ks.threshold).toNat : ℤ) =
      UInt32.ofInt ks.threshold := by
    apply UInt32.toNat_inj.mp
    have h := toNat_ofInt ((UInt32.ofInt ks.threshold).toNat : ℤ)
    have h' := toNat_ofInt ks.threshold
    omega
  simp only [marshalKeysetCanonical, Keyset.decoded, sortStrings_sorted, hsorted, hthreshold]

/-- **Encoding a decoded block again gives the same bytes**, the nonce of a keyset block apart. -/
theorem marshalCanonical_decoded (quote : Str → Str) (ha : trimZeros b.asset = b.asset)
    (hr : b.type ≠ .leaseRenew) :
    marshalBlockCanonical quote b.decoded = marshalBlockCanonical quote b := by
  have htail : marshalTail b.decoded = marshalTail b := by
    have ht : b.decoded.type = b.type := rfl
    unfold marshalTail
    rw [ht]
    cases hty : b.type
    case leaseRenew => exact absurd hty hr
    case multisigOpen | multisigUpdate =>
      have hset : b.decoded.msKeyset = b.msKeyset.map Keyset.decoded := by
        simp [Block.decoded, Block.withEnd, Block.withTail, hty, isKeysetOp]
      rw [hset]
      cases b.msKeyset with
      | none => rfl
      | some ks => exact marshalKeyset_decoded ks
    all_goals simp [Block.decoded, Block.withEnd, Block.withTail, hty, isIssue, isNaming, isLeaseOp,
      hasAmount, hasLocked, lockedBytes]
  have hasset : b.decoded.asset = b.asset := ha
  unfold marshalBlockCanonical
  rw [htail, hasset]
  rfl

theorem Block.Decodable.sameTail (hd : b.Decodable) : b.SameTail b.decoded where
  destination := fun ht => (if_pos ht).symm
  source := fun ht => (if_pos ht).symm
  amount := fun ht => (if_pos ht).symm
  vcpus := fun ht => (if_pos ht).symm
  memoryMB := fun ht => (if_pos ht).symm
  diskGB := fun ht => (if_pos ht).symm
  duration := fun ht => (if_pos (ht.resolve_right hd.type)).symm
  lockedR := fun ht => (if_pos ht).symm
  lockedPayoutCap := fun ht => (if_pos ht).symm
  lockedTWAP := fun ht => (if_pos ht).symm

theorem Block.Decodable.recovers (hd : b.Decodable) {tail : Str} (h : marshalTail b = .ok tail) :
    b.Recovers b.decoded := by
  constructor
  case asset => exact (trimZeros_eq_self.mpr hd.asset).symm
  case tail => exact hd.sameTail
  case accessPubKey => exact fun ht => (if_pos ht).symm
  case keyset =>
    intro hk
    obtain ⟨ks, hks⟩ := exists_keyset hk h
    obtain ⟨-, -, hpos, hlt⟩ := hd.keyset hk ks hks
    refine ⟨ks, ks.decoded, hks, ?_, ?_, (List.perm_insertionSort _ _).symm⟩
    · show (if isKeysetOp b.type then b.msKeyset.map Keyset.decoded else none) = some ks.decoded
      rw [if_pos hk, hks, Option.map_some]
    · show ks.threshold = ((UInt32.ofInt ks.threshold).toNat : ℤ)
      rw [toNat_ofInt, Int.emod_eq_of_lt hpos hlt]
  case powNonce =>
    show b.powNonce = if isKeysetOp b.type then 0 else b.powNonce
    split_ifs with hk
    · exact hd.nonce hk
    · rfl
  -- the other fields are copied
  all_goals simp only [Block.decoded, Block.withEnd, Block.withTail, Block.decodedHead]

/-- **The block codec**: of the blocks that are encoded, exactly the decodable ones come back, and
with the same bytes when they are encoded again. -/
theorem block_codec_iff (hb : b.Canonical) (h : marshalBlock lib b = .ok data) :
    (∃ b', unmarshalBlock data = .ok b' ∧ b.Recovers b' ∧ marshalBlock lib b' = .ok data) ↔
      b.Decodable := by
  obtain ⟨hkey, _, _, _, tail, _, _, he, -⟩ := marshalBlock_ok h
  constructor
  · rintro ⟨b', hdec, hrec, -⟩
    have hr : b.type ≠ .leaseRenew := by
      intro hr
      obtain ⟨e, herr⟩ := unmarshalBlock_renew h hr
      rw [hdec] at herr
      cases herr
    have hfit : isKeysetOp b.type = true → b.KeysFit := by
      intro hk ks hks
      obtain ⟨ks₁, ks', hks₁, hks', -, hperm⟩ := hrec.keyset hk
      cases hks.symm.trans hks₁
      rw [hperm.length_eq]
      exact keysFit_of_unmarshalBlock hdec ks' hks'
    have hdecoded := unmarshalBlock_marshalBlock hb h hr hfit
    cases hdec.symm.trans hdecoded
    refine ⟨hr, trimZeros_eq_self.mp hrec.asset.symm, fun hk => ?_, fun hk ks hks => ?_⟩
    · exact hrec.powNonce.trans (if_pos hk)
    · obtain ⟨ks₁, ks', hks₁, hks', hthreshold, -⟩ := hrec.keyset hk
      cases hks.symm.trans hks₁
      have hset : b.decoded.msKeyset = some ks.decoded := by
        show (if isKeysetOp b.type then b.msKeyset.map Keyset.decoded else none) = _
        rw [if_pos hk, hks, Option.map_some]
      cases hks'.symm.trans hset
      have hmod : ks.threshold = ks.threshold % 2 ^ 32 :=
        hthreshold.trans (toNat_ofInt ks.threshold)
      obtain ⟨hpos, hle⟩ := hfit hk ks hks
      exact ⟨hpos, hle, by omega, by omega⟩
  · intro hd
    have hfit : isKeysetOp b.type = true → b.KeysFit := fun hk ks hks =>
      ⟨(hd.keyset hk ks hks).1, (hd.keyset hk ks hks).2.1⟩
    refine ⟨b.decoded, unmarshalBlock_marshalBlock hb h hd.type hfit, hd.recovers he.tail, ?_⟩
    rw [← h]
    unfold marshalBlock
    rw [marshalCanonical_decoded lib.quote (trimZeros_eq_self.mpr hd.asset) hd.type,
      (hd.recovers he.tail).powNonce, hkey]
    rfl

end Recovered

/-! ## A renewal and a keyset -/

namespace SampleCodec

/-- A renewal, which is not read back. -/
def renewal : Block where
  type := .leaseRenew
  account := hexEncode (List.replicate 32 1)
  previous := hexEncode (List.replicate 32 2)
  asset := assetXE
  source := hexEncode (List.replicate 32 3)

/-- A block that opens a multisig account, with its keys out of order. -/
def opening (nonce : UInt64) : Block where
  type := .multisigOpen
  account := hexEncode (List.replicate 32 1)
  previous := zeroPrev
  asset := assetXE
  msKeyset := some { keys := [hexEncode (List.replicate 32 6), hexEncode (List.replicate 32 5)]
                     threshold := 2 }
  powNonce := nonce

theorem marshal_renewal (lib : Lib) : ∃ data, marshalBlock lib renewal = .ok data :=
  ⟨_, rfl⟩

theorem marshal_opening (lib : Lib) (nonce : UInt64) :
    ∃ data, marshalBlock lib (opening nonce) = .ok data :=
  ⟨_, rfl⟩

theorem canonical_renewal : renewal.Canonical where
  account := lower_hexEncode _
  previous := lower_hexEncode _
  previousZero := by decide +kernel
  destination := List.forall_mem_nil _
  source := lower_hexEncode _
  accessPubKey := List.forall_mem_nil _
  accessPubKeyZero := by decide
  representative := List.forall_mem_nil _
  representativeZero := by decide
  keys := fun _ h => nomatch h

theorem canonical_opening (nonce : UInt64) : (opening nonce).Canonical where
  account := lower_hexEncode _
  previous := by
    intro c hc
    rw [List.mem_singleton.mp hc]
    rfl
  previousZero := show zeroPrev ≠ hexEncode zero32 by decide
  destination := List.forall_mem_nil _
  source := List.forall_mem_nil _
  accessPubKey := List.forall_mem_nil _
  accessPubKeyZero := show ([] : Str) ≠ hexEncode zero32 by decide
  representative := List.forall_mem_nil _
  representativeZero := show ([] : Str) ≠ hexEncode zero32 by decide
  keys := by
    intro ks h k hk
    cases h
    simp only [List.mem_cons, List.not_mem_nil, or_false] at hk
    rcases hk with rfl | rfl
    · exact lower_hexEncode _
    · exact lower_hexEncode _

theorem keysFit_opening (nonce : UInt64) : (opening nonce).KeysFit := by
  intro ks h
  cases h
  decide

end SampleCodec

open Sample SampleCodec in
/-- An opening of two keys, out of order, with the nonce zero comes back. -/
theorem block_codec_opening : ∃ data b',
    marshalBlock lib (opening 0) = .ok data ∧ unmarshalBlock data = .ok b' ∧
      (opening 0).Recovers b' ∧ marshalBlock lib b' = .ok data := by
  obtain ⟨data, hdata⟩ := marshal_opening lib 0
  have hd : (opening 0).Decodable := by
    refine ⟨by decide, by decide, fun _ => rfl, fun _ ks hks => ?_⟩
    cases hks
    decide
  obtain ⟨b', h⟩ := (block_codec_iff (canonical_opening 0) hdata).mpr hd
  exact ⟨data, b', hdata, h⟩

open SampleCodec Sample in
/-- A renewal is encoded and not decoded, and an opening loses its nonce. -/
theorem block_codec_loses :
    (∃ data e, renewal.Canonical ∧
      marshalBlock lib renewal = .ok data ∧
        unmarshalBlock data = .error (.err e)) ∧
    ∃ data b', (opening 1).Canonical ∧
      marshalBlock lib (opening 1) = .ok data ∧ unmarshalBlock data = .ok b' ∧
        b'.powNonce ≠ (opening 1).powNonce := by
  constructor
  · obtain ⟨data, hdata⟩ := marshal_renewal lib
    obtain ⟨e, he⟩ := unmarshalBlock_renew hdata rfl
    exact ⟨data, e, canonical_renewal, hdata, he⟩
  · obtain ⟨data, hdata⟩ := marshal_opening lib 1
    have hcanonical := canonical_opening 1
    have hdec := unmarshalBlock_marshalBlock hcanonical hdata (by decide)
      fun _ => keysFit_opening 1
    exact ⟨data, _, hcanonical, hdata, hdec, by decide⟩

end Xe
