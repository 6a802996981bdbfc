import XeLattice.Go.Slices
import XeLattice.Inv.Votes

/-!
# The binary form of votes

`EncodeVote` and `DecodeVote` of `core/encoding.go`.  The encoder writes the length of the signature
modulo `2^16`; the decoder adds the offset of the signature to that length in 16 bits, while it
compares the length of the data in the native width.  From a declared length of 65396 on the sum
wraps, and the slice has its end before its start.

* **`vote_codec_iff`**: the decoder is safe, and inverts the encoder, exactly below that length.
-/

set_option autoImplicit false

namespace Xe

/-! ## Reading fields -/

/-- A read out of bounds stops the program. -/
def inBounds {α : Type} : Option α → Except Fault α
  | some a => .ok a
  | none => .error .panic

/-- `allZero`. -/
def allZero (s : Str) : Bool :=
  s.all (· == 0)

/-- The text of a field whose zero bytes have a spelling of their own. -/
def fieldText (zero bytes : Str) : Str :=
  if allZero bytes then zero else hexEncode bytes

section Reading

variable {α β : Type}

@[simp] theorem inBounds_some (a : α) : inBounds (some a) = .ok a := rfl

@[simp] theorem ok_bind {ε : Type} (a : α) (f : α → Except ε β) : (Except.ok a >>= f) = f a := rfl

theorem guardErr_of_not {ε : Type} {c : Prop} [Decidable c] {e : ε} (h : ¬c) :
    guardErr c e = .ok () :=
  if_neg h

theorem guardErr_of {ε : Type} {c : Prop} [Decidable c] {e : ε} (h : c) :
    guardErr c e = .error e :=
  if_pos h

theorem allZero_iff {s : Str} : allZero s = true ↔ s = List.replicate s.length 0 := by
  rw [allZero, List.all_eq_true, List.eq_replicate_iff]
  simp

end Reading

/-- A field is read back, unless it spells out the zero bytes that have a spelling of their own. -/
theorem fieldText_hexDecode {zero s bytes : Str} (h : hexDecode s = .ok bytes)
    (hlen : bytes.length = 32) (hlow : Lower s) (hs : s ≠ hexEncode zero32) :
    fieldText zero bytes = s := by
  have hz : allZero bytes ≠ true := by
    intro hz
    have hbytes : bytes = zero32 := by rw [allZero_iff.mp hz, hlen, zero32]
    exact hs (by rw [← hbytes, hexEncode_hexDecode h hlow])
  rw [fieldText, if_neg hz, hexEncode_hexDecode h hlow]

theorem fieldText_zero32 (zero : Str) : fieldText zero zero32 = zero :=
  if_pos rfl

/-! ## The codec -/

/-- `EncodeVote`. -/
def encodeVote (v : Vote) : Except GoError Str := do
  let signing ← (voteSigningBytes v).mapError (GoError.wrap (str "EncodeVote: "))
  .ok (signing ++ (be16 (UInt16.ofNat v.signature.length) ++ v.signature))

/-- The end of `DecodeVote`: the signature behind the fields that are signed. -/
def decodeVoteSig (data : Str) (v : Vote) : Except Fault Vote := do
  let sigLen ← inBounds ((slice data 138 140).bind uint16BE)
  guardErr (data.length < 140 + sigLen.toNat)
    (.err (errorf (str "DecodeVote: data truncated: need " ++ dec sigLen.toNat ++
      str " bytes for signature, have " ++ dec (data.length - 140))))
  -- the end of the slice is a sum of 16-bit numbers
  let sig ← inBounds (slice data 140 (140 + sigLen).toNat)
  .ok { v with signature := sig }

/-- `DecodeVote`. -/
def decodeVote (data : Str) : Except Fault Vote := do
  guardErr (data.length < 138 + 2)
    (.err (errorf (str "DecodeVote: data too short (" ++ dec data.length ++ str " bytes)")))
  let version : UInt8 ← inBounds data[0]?
  guardErr (version ≠ 0x02)
    (.err (errorf (str "DecodeVote: unsupported version byte 0x" ++ lowerHexByte version)))
  let rep ← inBounds (slice data 1 33)
  let hash ← inBounds (slice data 33 65)
  let account ← inBounds (slice data 65 97)
  let prev ← inBounds (slice data 97 129)
  let timestamp ← inBounds ((slice data 129 137).bind uint64BE)
  let final : UInt8 ← inBounds data[137]?
  decodeVoteSig data
    { repPubKey := hexEncode rep
      blockHash := hexEncode hash
      conflictAccount := hexEncode account
      conflictPrev := fieldText zeroPrev prev
      timestamp := timestamp.toInt64
      final := final != 0
      signature := []
      weight := 0 }

/-! ## Where the decoder stops -/

/-- The length of the signature that the data declare. -/
def declaredSigLen (data : Str) : ℕ :=
  beNat ((data.drop 138).take 2)

theorem beNat_two_lt {s : Str} (h : s.length = 2) : beNat s < 2 ^ 16 := by
  obtain ⟨a, b, rfl⟩ := List.length_eq_two.mp h
  have ha := a.toNat_lt
  have hb := b.toNat_lt
  show (0 * 256 + a.toNat) * 256 + b.toNat < 2 ^ 16
  omega

theorem read_sigLen {data : Str} (hlen : 140 ≤ data.length) :
    (slice data 138 140).bind uint16BE = some (UInt16.ofNat (declaredSigLen data)) := by
  have htwo : ((data.drop 138).take 2).length = 2 := by
    rw [List.length_take, List.length_drop]
    omega
  rw [slice_eq_some (by omega) hlen, Option.bind_some, uint16BE, readBE_whole htwo]
  rfl

theorem declaredSigLen_lt {data : Str} (hlen : 140 ≤ data.length) :
    declaredSigLen data < 2 ^ 16 := by
  apply beNat_two_lt
  rw [List.length_take, List.length_drop]
  omega

/-- What becomes of the signature, by the length declared: data that end before it are refused, a
sum that wraps stops the program. -/
theorem decodeVoteSig_eq {data : Str} (hlen : 140 ≤ data.length) (v : Vote) :
    decodeVoteSig data v =
      if data.length < 140 + declaredSigLen data then
        .error (.err (errorf (str "DecodeVote: data truncated: need " ++
          dec (declaredSigLen data) ++ str " bytes for signature, have " ++
            dec (data.length - 140))))
      else if 65396 ≤ declaredSigLen data then .error .panic
      else .ok { v with signature := (data.drop 140).take (declaredSigLen data) } := by
  have hlt := declaredSigLen_lt hlen
  have hnat : (UInt16.ofNat (declaredSigLen data)).toNat = declaredSigLen data :=
    UInt16.toNat_ofNat_of_lt' hlt
  have hsum : (140 + UInt16.ofNat (declaredSigLen data)).toNat =
      (140 + declaredSigLen data) % 2 ^ 16 := by
    rw [UInt16.toNat_add, hnat]
    rfl
  unfold decodeVoteSig
  rw [read_sigLen hlen, inBounds_some, ok_bind, hnat, hsum]
  split_ifs with hshort hwrap
  · rw [guardErr_of hshort]
    rfl
  · rw [guardErr_of_not hshort, ok_bind, slice_eq_none.mpr (.inl (by omega))]
    rfl
  · rw [guardErr_of_not hshort, ok_bind, slice_eq_some (by omega) (by omega)]
    simp only [inBounds_some, ok_bind]
    rw [show (140 + declaredSigLen data) % 2 ^ 16 - 140 = declaredSigLen data by omega]

/-- Data that are long enough and of the right version are read up to the signature. -/
theorem decodeVote_eq {data : Str} (hlen : 140 ≤ data.length) (hver : data[0]? = some 2) :
    ∃ v, decodeVote data = decodeVoteSig data v := by
  have hread : ∀ lo hi, lo ≤ hi → hi ≤ 140 → ∃ x, slice data lo hi = some x :=
    fun lo hi h h' => ⟨_, slice_eq_some h (h'.trans hlen)⟩
  obtain ⟨rep, hrep⟩ := hread 1 33 (by omega) (by omega)
  obtain ⟨hash, hhash⟩ := hread 33 65 (by omega) (by omega)
  obtain ⟨account, haccount⟩ := hread 65 97 (by omega) (by omega)
  obtain ⟨prev, hprev⟩ := hread 97 129 (by omega) (by omega)
  obtain ⟨ts, hts⟩ := hread 129 137 (by omega) (by omega)
  obtain ⟨n, hn⟩ := exists_readBE (length_slice hts).ge
  have hfinal : data[137]? = some data[137] := List.getElem?_eq_getElem (by omega)
  have hts' : (slice data 129 137).bind uint64BE = some (UInt64.ofNat n) := by
    rw [hts, Option.bind_some, uint64BE, hn]
    rfl
  unfold decodeVote
  rw [guardErr_of_not (by omega), ok_bind, hver, inBounds_some, ok_bind,
    guardErr_of_not (by simp), ok_bind, hrep, hhash, haccount, hprev, hts', hfinal]
  exact ⟨_, rfl⟩

/-- **The decoder stops the program on data that declare, and contain, a signature of 65396 bytes
or more.** -/
theorem decodeVote_panic (data : Str) : decodeVote data = .error .panic ↔
    data[0]? = some 2 ∧ 65396 ≤ declaredSigLen data ∧ 140 + declaredSigLen data ≤ data.length := by
  by_cases hlen : 140 ≤ data.length
  · by_cases hver : data[0]? = some 2
    · obtain ⟨v, hv⟩ := decodeVote_eq hlen hver
      rw [hv, decodeVoteSig_eq hlen]
      split_ifs with hshort hwrap
      · simp only [Except.error.injEq, reduceCtorEq, false_iff]
        omega
      · simp only [hver, true_and, true_iff]
        omega
      · simp only [false_iff]
        omega
    · have h0 : data[0]? = some data[0] := List.getElem?_eq_getElem (by omega)
      have hne : data[0] ≠ 2 := fun h => hver (h0.trans (congrArg some h))
      unfold decodeVote
      rw [guardErr_of_not (by omega), ok_bind, h0, inBounds_some, ok_bind, guardErr_of hne]
      constructor
      · intro h
        cases h
      · rintro ⟨h, -⟩
        exact absurd (Option.some.inj h) hne
  · unfold decodeVote
    rw [guardErr_of (by omega)]
    constructor
    · intro h
      cases h
    · rintro ⟨-, -, h⟩
      omega

/-! ## Decoding what was encoded -/

/-- The spelling that `DecodeVote` produces: lower-case fields, and `"0"` for the first position. -/
structure Vote.Canonical (v : Vote) : Prop where
  repPubKey : Lower v.repPubKey
  blockHash : Lower v.blockHash
  conflictAccount : Lower v.conflictAccount
  conflictPrev : Lower v.conflictPrev
  first : v.conflictPrev ≠ hexEncode zero32

theorem decodePrev_fieldText {loc name : String} {s bytes : Str}
    (h : decodePrev loc name s = .ok bytes) (hlow : Lower s) (hs : s ≠ hexEncode zero32) :
    bytes.length = 32 ∧ fieldText zeroPrev bytes = s := by
  unfold decodePrev at h
  split_ifs at h with hz
  · cases h
    exact ⟨rfl, hz ▸ fieldText_zero32 zeroPrev⟩
  · obtain ⟨hdec, hlen⟩ := decodeField_eq_ok.mp h
    exact ⟨hlen, fieldText_hexDecode hdec hlen hlow hs⟩

theorem toInt64_toUInt64_read (n : Int64) {data : Str} (h : Holds data 129 (be64 n.toUInt64)) :
    (slice data 129 137).bind uint64BE = some n.toUInt64 := by
  rw [h.slice (by rw [length_be64]), Option.bind_some, uint64BE_be64]

/-- The fields that are signed are read back, and the signature is looked for behind them. -/
theorem decodeVote_signing {v : Vote} (hv : v.Canonical) {signing : Str}
    (h : voteSigningBytes v = .ok signing) (rest : Str) (hrest : 2 ≤ rest.length) :
    signing.length = 138 ∧ decodeVote (signing ++ rest) =
      decodeVoteSig (signing ++ rest) { v with signature := [], weight := 0 } := by
  obtain ⟨rep, hrep, h⟩ := bind_eq_ok.mp h
  obtain ⟨hash, hhash, h⟩ := bind_eq_ok.mp h
  obtain ⟨account, haccount, h⟩ := bind_eq_ok.mp h
  obtain ⟨prev, hprev, h⟩ := bind_eq_ok.mp h
  obtain ⟨hrep, lrep⟩ := decodeField_eq_ok.mp hrep
  obtain ⟨hhash, lhash⟩ := decodeField_eq_ok.mp hhash
  obtain ⟨haccount, laccount⟩ := decodeField_eq_ok.mp haccount
  obtain ⟨lprev, hprev⟩ := decodePrev_fieldText hprev hv.conflictPrev hv.first
  cases h
  set flag : UInt8 := if v.final then 1 else 0 with hflag
  set signing : Str := [0x02] ++ rep ++ hash ++ account ++ prev ++ be64 v.timestamp.toUInt64 ++
    [flag] with hsigning
  have hlen : signing.length = 138 := by
    simp [hsigning, lrep, lhash, laccount, lprev]
  refine ⟨hlen, ?_⟩
  -- what stands where in the encoding
  have at0 : Holds (signing ++ rest) 0 (0x02 :: (rep ++ (hash ++ (account ++ (prev ++
      (be64 v.timestamp.toUInt64 ++ [flag])))))) := by
    have := Holds.start signing rest
    simpa only [hsigning, List.append_assoc, List.cons_append, List.nil_append] using this
  have at1 : Holds (signing ++ rest) 1 _ := Holds.right (x := [0x02]) at0
  have at33 := at1.right.cast (show 1 + rep.length = 33 by omega)
  have at65 := at33.right.cast (show 33 + hash.length = 65 by omega)
  have at97 := at65.right.cast (show 65 + account.length = 97 by omega)
  have at129 := at97.right.cast (show 97 + prev.length = 129 by omega)
  have at137 := at129.right.cast (show 129 + (be64 v.timestamp.toUInt64).length = 137 by simp)
  unfold decodeVote
  rw [guardErr_of_not (by rw [List.length_append]; omega), ok_bind, at0.index, inBounds_some,
    ok_bind, guardErr_of_not (by simp), ok_bind, at1.left.slice (by omega),
    at33.left.slice (by omega), at65.left.slice (by omega), at97.left.slice (by omega),
    toInt64_toUInt64_read _ at129.left, at137.index]
  have hfinal : (flag != 0) = v.final := by
    cases hf : v.final <;> simp [hflag, hf]
  show decodeVoteSig (signing ++ rest) _ = _
  rw [hexEncode_hexDecode hrep hv.repPubKey, hexEncode_hexDecode hhash hv.blockHash,
    hexEncode_hexDecode haccount hv.conflictAccount, hprev, hfinal, Int64.toInt64_toUInt64]

/-- **What the decoder makes of an encoded vote**: the length of the signature is taken modulo
`2^16`, and from 65396 on the program stops. -/
theorem decodeVote_encodeVote {v : Vote} (hv : v.Canonical) {data : Str}
    (h : encodeVote v = .ok data) : decodeVote data =
      if 65396 ≤ v.signature.length % 2 ^ 16 then .error .panic
      else .ok { v with
        signature := v.signature.take (v.signature.length % 2 ^ 16), weight := 0 } := by
  obtain ⟨signing, hsigning, h⟩ := bind_eq_ok.mp h
  cases h
  set rest := be16 (UInt16.ofNat v.signature.length) ++ v.signature with hrest
  have hlen2 : rest.length = 2 + v.signature.length := by
    rw [hrest, List.length_append, length_be16]
  obtain ⟨hlen, hdec⟩ := decodeVote_signing hv (mapError_eq_ok.mp hsigning) rest
    (by omega)
  have htotal : (signing ++ rest).length = 140 + v.signature.length := by
    rw [List.length_append, hlen, hlen2]
    omega
  have hdrop : (signing ++ rest).drop 138 = rest := by
    rw [← hlen, List.drop_left]
  have hdecl : declaredSigLen (signing ++ rest) = v.signature.length % 2 ^ 16 := by
    rw [declaredSigLen, hdrop, hrest, List.take_left' (length_be16 _), beNat_be16,
      UInt16.toNat_ofNat']
  have hsig : (signing ++ rest).drop 140 = v.signature := by
    rw [show (140 : ℕ) = 138 + 2 from rfl, ← List.drop_drop, hdrop, hrest,
      List.drop_left' (length_be16 _)]
  have hmod := Nat.mod_le v.signature.length (2 ^ 16)
  rw [hdec, decodeVoteSig_eq (by omega), hdecl, hsig, if_neg (by omega)]

/-- **The vote codec**: the decoder returns on any data that do not declare and contain a signature
of 65396 bytes or more, and no others; and it gives back every vote with a shorter signature, up to
the weight, and no others. -/
theorem vote_codec_iff (data : Str) :
    ((∃ v, decodeVote data = .ok v) ∨ (∃ e, decodeVote data = .error (.err e)) ↔
      ¬(data[0]? = some 2 ∧ 65396 ≤ declaredSigLen data ∧
        140 + declaredSigLen data ≤ data.length)) ∧
    ∀ v : Vote, v.Canonical → encodeVote v = .ok data →
      (decodeVote data = .ok { v with weight := 0 } ↔ v.signature.length < 65396) := by
  constructor
  · rw [← decodeVote_panic]
    rcases hdec : decodeVote data with (e | -) | v <;> simp
  · intro v hv h
    rw [decodeVote_encodeVote hv h]
    constructor
    · intro heq
      split_ifs at heq with hwrap
      have hsig := congrArg Vote.signature (Except.ok.inj heq)
      have hlen := congrArg List.length hsig
      simp only [List.length_take] at hlen
      omega
    · intro hlt
      rw [Nat.mod_eq_of_lt (by omega), if_neg (by omega), List.take_length]

/-! ## Signatures on both sides of the limit -/

namespace SampleVotes

/-- A vote on a first position, with a signature of any length. -/
def signedBy (signature : Str) : Vote where
  repPubKey := hexEncode (List.replicate 32 1)
  blockHash := hexEncode (List.replicate 32 2)
  conflictAccount := hexEncode (List.replicate 32 3)
  conflictPrev := zeroPrev
  timestamp := 7
  final := true
  signature := signature
  weight := 0

theorem signedBy_canonical (signature : Str) : (signedBy signature).Canonical where
  repPubKey := lower_hexEncode _
  blockHash := lower_hexEncode _
  conflictAccount := lower_hexEncode _
  conflictPrev := by
    intro c hc
    rw [List.mem_singleton.mp hc]
    rfl
  first := by
    intro h
    have := congrArg List.length h
    simp [signedBy, zeroPrev, zero32] at this

theorem exists_encodeVote (signature : Str) : ∃ data, encodeVote (signedBy signature) = .ok data := by
  have hfield : ∀ (loc name : String) (x : Str), x.length = 32 →
      decodeField loc name (hexEncode x) = .ok x :=
    fun loc name x hx => decodeField_eq_ok.mpr ⟨hexDecode_hexEncode x, hx⟩
  unfold encodeVote voteSigningBytes signedBy
  rw [hfield _ _ _ List.length_replicate, hfield _ _ _ List.length_replicate,
    hfield _ _ _ List.length_replicate, decodePrev, if_pos rfl]
  exact ⟨_, rfl⟩

end SampleVotes

open SampleVotes in
/-- A vote with a signature of 64 bytes comes back. -/
theorem vote_codec_signed : ∃ data,
    (signedBy (List.replicate 64 9)).Canonical ∧
      encodeVote (signedBy (List.replicate 64 9)) = .ok data ∧
      decodeVote data = .ok (signedBy (List.replicate 64 9)) := by
  obtain ⟨data, hdata⟩ := exists_encodeVote (List.replicate 64 9)
  have hcanonical := signedBy_canonical (List.replicate 64 9)
  exact ⟨data, hcanonical, hdata, ((vote_codec_iff data).2 _ hcanonical hdata).mpr (by decide)⟩

open SampleVotes in
/-- A vote with a signature of 65396 bytes is encoded, and its encoding stops the decoder. -/
theorem vote_codec_panics : ∃ (v : Vote) (data : Str), v.Canonical ∧ encodeVote v = .ok data ∧
    decodeVote data = .error .panic := by
  obtain ⟨data, hdata⟩ := exists_encodeVote (List.replicate 65396 9)
  have hcanonical := signedBy_canonical (List.replicate 65396 9)
  refine ⟨_, data, hcanonical, hdata, ?_⟩
  rw [decodeVote_encodeVote hcanonical hdata]
  have hlen : (signedBy (List.replicate 65396 9)).signature.length = 65396 :=
    List.length_replicate
  rw [hlen, if_pos (by omega)]

end Xe
