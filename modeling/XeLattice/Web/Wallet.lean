import XeLattice.Core.Crypto
import XeLattice.Js

/-!
# The wallet of the web pages

`web/assets/xe-block.js` builds send and receive blocks in the browser.  It lays their bytes out in
an array of a fixed length, at offsets that it carries along, from texts of UTF-16 code units and
from integers of any size.

* **`wallet_hashes_block`**: a page that has the fields of a block hashes the block's bytes.
-/

set_option autoImplicit false

namespace Xe.Wallet

open Js

/-! ## The page -/

/-- A string literal. -/
def text (s : String) : Text :=
  ascii (str s)

/-- `String(n)`. -/
def decText (n : ℕ) : Text :=
  ascii (dec n)

/-- The fields of a block on the page.  Its numbers are integers: `BigInt` takes those that a
`Number` holds exactly as they are. -/
structure Fields where
  asset : Text
  account : Text
  previous : Text
  balance : ℤ
  timestamp : ℤ
  destination : Text
  source : Text
  amount : ℤ
  representative : Text
  memo : Text
  pubKey : Text

/-- One round of the loop of `hexToBytes`. -/
def hexByte (hex : Text) (i : ℕ) : Except Error UInt8 :=
  match parseInt16 ((hex.drop (i * 2)).take 2) with
  | none => .error (.error (text "hexToBytes: invalid hex"))
  | some b => .ok (UInt8.ofInt b)

/-- The bytes from the `i`-th on. -/
def hexBytes (hex : Text) (i : ℕ) : ℕ → Except Error Str
  | 0 => .ok []
  | n + 1 => do
    let b ← hexByte hex i
    let rest ← hexBytes hex (i + 1) n
    .ok (b :: rest)

/-- `hexToBytes`. -/
def hexToBytes (hex : Text) (expectedLen : ℕ) : Except Error Str := do
  guardErr (hex.length % 2 ≠ 0) (.error (text "hexToBytes: odd length"))
  let out ← hexBytes hex 0 (hex.length / 2)
  guardErr (out.length ≠ expectedLen) (.error (text "hexToBytes: expected " ++
    decText expectedLen ++ text " bytes, got " ++ decText out.length))
  .ok out

/-- `view.setUint8(off++, value)`. -/
def writeUint8 (value : UInt8) : Cursor → Except Error Cursor :=
  write [value] 1

/-- `writeAssetField`. -/
def writeAssetField (asset : Text) (c : Cursor) : Except Error Cursor := do
  guardErr ((textEncode asset).length > 8) (.error (text "asset too long: " ++ asset))
  write (textEncode asset) 8 c

/-- `writeBigUint64BE`: the number modulo 2⁶⁴. -/
def writeBigUint64BE (value : ℤ) : Cursor → Except Error Cursor :=
  write (be64 (UInt64.ofInt value)) 8

/-- `writeHexAt`. -/
def writeHexAt (hex : Text) (expectedLen : ℕ) (c : Cursor) : Except Error Cursor := do
  let bytes ← hexToBytes hex expectedLen
  write bytes bytes.length c

/-- `writePreviousAt`. -/
def writePreviousAt (prev : Text) (c : Cursor) : Except Error Cursor :=
  if prev = text "0" ∨ prev = [] then .ok (c.1, c.2 + 32) else writeHexAt prev 32 c

/-- `writeRepresentativeAt`. -/
def writeRepresentativeAt (rep : Text) (c : Cursor) : Except Error Cursor :=
  if rep = [] then .ok (c.1, c.2 + 32) else writeHexAt rep 32 c

/-- The fields that both kinds of blocks have in front. -/
def writeHead (type : UInt8) (f : Fields) (c : Cursor) : Except Error Cursor := do
  let c ← writeUint8 0x02 c
  let c ← writeUint8 type c
  let c ← writeAssetField f.asset c
  let c ← writeHexAt f.account 32 c
  let c ← writePreviousAt f.previous c
  let c ← writeBigUint64BE f.balance c
  writeBigUint64BE f.timestamp c

/-- `marshalSendCanonical`. -/
def marshalSendCanonical (f : Fields) : Except Error Str := do
  let memoBytes := if f.memo = [] then [] else textEncode f.memo
  guardErr (memoBytes.length > 64)
    (.error (text "memo too long: " ++ decText memoBytes.length ++ text " bytes (max 64)"))
  let totalLen := 163 + memoBytes.length
  let c ← writeHead 0x01 f (zeros totalLen, 0)
  let c ← writeHexAt f.destination 32 c
  let c ← writeBigUint64BE f.amount c
  let c ← writeRepresentativeAt f.representative c
  let c ← writeUint8 (UInt8.ofNat memoBytes.length) c
  let c ← write memoBytes memoBytes.length c
  guardErr (c.2 ≠ totalLen)
    (.error (text "marshalSendCanonical: wrote " ++ decText c.2 ++ text " bytes"))
  .ok c.1

/-- `marshalReceiveCanonical`. -/
def marshalReceiveCanonical (f : Fields) : Except Error Str := do
  let c ← writeHead 0x02 f (zeros 154, 0)
  let c ← writeHexAt f.source 32 c
  let c ← writeRepresentativeAt f.representative c
  guardErr (c.2 ≠ 154)
    (.error (text "marshalReceiveCanonical: wrote " ++ decText c.2 ++ text " bytes"))
  .ok c.1

/-- The parts that `writeLenPrefixed` pushes. -/
def writeLenPrefixed (s : Text) : List Str :=
  [be64 (UInt64.ofNat (textEncode s).length), textEncode s]

/-- `marshalBlockAux`. -/
def marshalBlockAux (pubKeyHex : Text) : Except Error Str :=
  if pubKeyHex = [] then .ok []
  else do
    let parts := writeLenPrefixed (text "xe/block/pubkey/v1") ++ writeLenPrefixed pubKeyHex
    let c ← parts.foldlM (fun c p => write p p.length c) (zeros (parts.map List.length).sum, 0)
    .ok c.1

/-- The bytes that `hashCanonical` gives to SHA-256. -/
def hashCanonical (networkId : Text) (canonical aux : Str) : Except Error Str := do
  let netBytes := textEncode networkId
  let out ← set (zeros (netBytes.length + canonical.length + aux.length)) netBytes 0
  let out ← set out canonical netBytes.length
  set out aux (netBytes.length + canonical.length)

/-- The canonical bytes of `verifyKnownBlock`, by the type of the block. -/
def Fields.canonical (f : Fields) : BlockType → Except Error Str
  | .send => marshalSendCanonical f
  | .receive => marshalReceiveCanonical f
  | t => .error (.error (text "verifyKnownBlock: unsupported type " ++ ascii t.name))

/-- The bytes that the page hashes for a block. -/
def Fields.hashed (f : Fields) (type : BlockType) (networkId : Text) : Except Error Str := do
  let canonical ← f.canonical type
  let aux ← marshalBlockAux f.pubKey
  hashCanonical networkId canonical aux

/-! ## Blocks of the page -/

/-- Sixty-four hexadecimal digits, in either case. -/
def Hex64 (s : Str) : Prop :=
  s.length = 64 ∧ ∀ c ∈ s, hexVal c ≠ none

/-- The send and receive blocks that a page can build. -/
structure Supported (b : Block) : Prop where
  type : b.type = .send ∨ b.type = .receive
  asset : isValidAsset b.asset = true
  account : Hex64 b.account
  previous : b.previous = zeroPrev ∨ Hex64 b.previous
  destination : b.type = .send → Hex64 b.destination
  source : b.type = .receive → Hex64 b.source
  representative : b.representative = [] ∨ Hex64 b.representative
  memo : validateMemo b.memo = .ok ()
  memoless : b.type = .receive → b.memo = []
  timing : hasGenesisLeaseTiming b = false

/-- The fields of the page are those of the block: the same texts and the same numbers. -/
structure Fields.Holds (f : Fields) (b : Block) : Prop where
  asset : textEncode f.asset = b.asset
  account : textEncode f.account = b.account
  previous : textEncode f.previous = b.previous
  balance : f.balance = b.balance.toNat
  timestamp : f.timestamp = b.timestamp.toInt
  destination : b.type = .send → textEncode f.destination = b.destination
  source : b.type = .receive → textEncode f.source = b.source
  amount : f.amount = b.amount.toNat
  representative : textEncode f.representative = b.representative
  memo : textEncode f.memo = b.memo
  pubKey : textEncode f.pubKey = b.pubKey

/-! ## Hexadecimal fields -/

section Hex

variable {s bs : Str}

theorem hexByte_append {front : Text} {c d x y : UInt8} {i : ℕ} (hi : front.length = i * 2)
    (hc : hexVal c = some x) (hd : hexVal d = some y) (rest : Str) :
    hexByte (front ++ ascii (c :: d :: rest)) i = .ok (x * 16 + y) := by
  have hx : x.toNat < 16 := UInt8.lt_iff_toNat_lt.mp (hexVal_lt hc)
  have hy : y.toNat < 16 := UInt8.lt_iff_toNat_lt.mp (hexVal_lt hd)
  have hvalue : UInt8.ofInt (16 * x.toNat + y.toNat : ℕ) = x * 16 + y := by
    apply UInt8.toNat_inj.mp
    rw [toNat_ofInt_natCast (by omega)]
    simp only [UInt8.toNat_add, UInt8.toNat_mul, UInt8.reduceToNat]
    omega
  have htake : (ascii (c :: d :: rest)).take 2 = [c.toUInt16, d.toUInt16] := rfl
  rw [hexByte, ← hi, List.drop_left, htake, parseInt16_pair hc hd, ← hvalue]

/-- Pairs of digits are read alike by the page, behind any other digits, and by the ledger. -/
theorem exists_hexBytes {n : ℕ} (hlen : s.length = 2 * n) (hs : ∀ c ∈ s, hexVal c ≠ none) :
    ∃ bs, hexDecode s = .ok bs ∧ bs.length = n ∧
      ∀ (front : Text) (i : ℕ), front.length = i * 2 → hexBytes (front ++ ascii s) i n = .ok bs := by
  induction n generalizing s with
  | zero =>
    rw [List.length_eq_zero_iff.mp hlen]
    exact ⟨[], rfl, rfl, fun _ _ _ => rfl⟩
  | succ n ih =>
    obtain - | ⟨c, - | ⟨d, rest⟩⟩ := s
    · simp at hlen
    · simp only [List.length_singleton] at hlen
      omega
    obtain ⟨x, hc⟩ := Option.ne_none_iff_exists'.mp (hs c (by simp))
    obtain ⟨y, hd⟩ := Option.ne_none_iff_exists'.mp (hs d (by simp))
    obtain ⟨bs, hbs, hlength, hread⟩ := ih (s := rest)
      (by simp only [List.length_cons] at hlen; omega) fun c hc => hs c (by simp [hc])
    refine ⟨(x * 16 + y) :: bs, hexDecode_cons_cons.mpr ⟨x, y, bs, hc, hd, hbs, rfl⟩,
      by rw [List.length_cons, hlength], fun front i hi => ?_⟩
    have hfront : front ++ ascii (c :: d :: rest) =
        (front ++ [c.toUInt16, d.toUInt16]) ++ ascii rest := by
      rw [List.append_assoc]
      rfl
    rw [hexBytes, hexByte_append hi hc hd, hfront, hread _ (i + 1) (by simp [hi]; omega)]
    rfl

/-- **Sixty-four digits are the same 32 bytes on the page and in the ledger.** -/
theorem Hex64.decode {w : Text} (hs : Hex64 s) (hw : textEncode w = s) :
    w.length = 64 ∧ ∃ bs, hexDecode s = .ok bs ∧ bs.length = 32 ∧ hexToBytes w 32 = .ok bs := by
  obtain ⟨bs, hdecode, hlength, hread⟩ := exists_hexBytes (n := 32) hs.1 hs.2
  have hascii : ∀ b ∈ textEncode w, isAscii b = true := by
    rw [hw]
    exact List.all_eq_true.mp (isAscii_of_hexDecode hdecode)
  have hw' := eq_ascii_of_textEncode hascii
  rw [hw] at hw'
  have hwl : w.length = 64 := by rw [hw', ascii, List.length_map, hs.1]
  have hbytes : hexBytes w 0 32 = .ok bs := by
    rw [hw']
    exact hread [] 0 rfl
  refine ⟨hwl, bs, hdecode, hlength, ?_⟩
  rw [hexToBytes, hwl]
  simp only [guardErr, hbytes, bind, Except.bind, hlength]
  rfl

end Hex

/-! ## Fields -/

section Write

variable {w : Text} {s bs front : Str} {n : ℕ}

theorem writeHexAt_at (hw : hexToBytes w 32 = .ok bs) (hbs : bs.length = 32) (hn : 32 ≤ n) :
    writeHexAt w 32 (.at front n) = .ok (.at (front ++ bs) (n - 32)) := by
  rw [writeHexAt, hw]
  exact (write_whole bs (by omega)).trans (by rw [hbs])

theorem writeBigUint64BE_at {value : ℤ} {v : UInt64} (hv : UInt64.ofInt value = v) (hn : 8 ≤ n) :
    writeBigUint64BE value (.at front n) = .ok (.at (front ++ be64 v) (n - 8)) := by
  rw [writeBigUint64BE, hv]
  exact write_whole (be64 v) hn

theorem writeUint8_at {value : UInt8} (hn : 1 ≤ n) :
    writeUint8 value (.at front n) = .ok (.at (front ++ [value]) (n - 1)) :=
  write_whole [value] hn

theorem writeAssetField_at (hw : textEncode w = s) (hs : s.length ≤ 8) (hn : 8 ≤ n) :
    writeAssetField w (.at front n) = .ok (.at (front ++ assetBytes s) (n - 8)) := by
  rw [writeAssetField, hw, guardErr, if_neg (by omega)]
  exact write_at hs hn

theorem marshalField_ok (name : String) (h : hexDecode s = .ok bs) (hbs : bs.length = 32) :
    marshalField name s = .ok bs := by
  simp only [marshalField, h, hbs, if_true]

theorem Hex64.field (hs : Hex64 s) (hw : textEncode w = s) (name : String) :
    ∃ bs, bs.length = 32 ∧ marshalField name s = .ok bs ∧ ∀ (front : Str) (n : ℕ), 32 ≤ n →
      writeHexAt w 32 (.at front n) = .ok (.at (front ++ bs) (n - 32)) := by
  obtain ⟨-, bs, hdecode, hbs, hread⟩ := hs.decode hw
  exact ⟨bs, hbs, marshalField_ok name hdecode hbs, fun _ _ => writeHexAt_at hread hbs⟩

theorem exists_fieldOr (name : String) {default : Str} {skip : Prop} [Decidable skip]
    (hw : textEncode w = s) (h : s = default ∧ skip ∨ Hex64 s ∧ s ≠ default ∧ ¬skip) :
    ∃ bs, bs.length = 32 ∧ marshalFieldOr name default s = .ok bs ∧
      ∀ (front : Str) (n : ℕ), 32 ≤ n →
        (if skip then .ok ((Cursor.at front n).1, (Cursor.at front n).2 + 32)
          else writeHexAt w 32 (.at front n)) = Except.ok (Cursor.at (front ++ bs) (n - 32)) := by
  rcases h with ⟨hdefault, hskip⟩ | ⟨hs, hdefault, hskip⟩
  · refine ⟨zero32, List.length_replicate, if_pos hdefault, fun front n hn => ?_⟩
    rw [if_pos hskip, skip_at hn]
    rfl
  · obtain ⟨bs, hbs, hmarshal, hwrite⟩ := hs.field hw name
    refine ⟨bs, hbs, (if_neg hdefault).trans hmarshal, fun front n hn => ?_⟩
    rw [if_neg hskip, hwrite front n hn]

theorem exists_previous (hw : textEncode w = s) (hs : s = zeroPrev ∨ Hex64 s) :
    ∃ bs, bs.length = 32 ∧ marshalFieldOr "previous" zeroPrev s = .ok bs ∧
      ∀ (front : Str) (n : ℕ), 32 ≤ n →
        writePreviousAt w (.at front n) = .ok (.at (front ++ bs) (n - 32)) := by
  refine exists_fieldOr "previous" hw (hs.imp (fun h => ⟨h, .inl ?_⟩) fun h => ⟨h, ?_, ?_⟩)
  · have hascii := eq_ascii_of_textEncode (w := w)
      (by rw [hw, h]; exact List.forall_mem_singleton.mpr rfl)
    rw [hascii, hw, h]
    rfl
  · rintro rfl
    exact absurd h.1 (by decide)
  · have hlen := (h.decode hw).1
    rintro (rfl | rfl)
    · exact absurd hlen (by decide)
    · exact absurd hlen (by decide)

theorem exists_representative (hw : textEncode w = s) (hs : s = [] ∨ Hex64 s) :
    ∃ bs, bs.length = 32 ∧ marshalFieldOr "representative" [] s = .ok bs ∧
      ∀ (front : Str) (n : ℕ), 32 ≤ n →
        writeRepresentativeAt w (.at front n) = .ok (.at (front ++ bs) (n - 32)) := by
  refine exists_fieldOr "representative" hw (hs.imp (fun h => ⟨h, ?_⟩) fun h => ⟨h, ?_, ?_⟩)
  · exact textEncode_eq_nil.mp (hw.trans h)
  · rintro rfl
    exact absurd h.1 (by decide)
  · have hlen := (h.decode hw).1
    rintro rfl
    exact absurd hlen (by decide)

end Write

/-! ## Blocks -/

section Blocks

variable {b : Block} {f : Fields}

theorem Supported.length_asset (hb : Supported b) : b.asset.length ≤ 8 := by
  have hasset := hb.asset
  simp only [isValidAsset, Bool.or_eq_true, beq_iff_eq] at hasset
  rcases hasset with h | h <;> rw [h] <;> decide

theorem Supported.memo_allowed (hb : Supported b) :
    ¬(b.memo ≠ [] ∧ b.type ≠ .send ∧ b.type ≠ .burn) := by
  rintro ⟨hmemo, hsend, -⟩
  exact hmemo (hb.memoless (hb.type.resolve_left hsend))

/-- The bytes of the fields that both kinds of blocks have, and that the page writes them. -/
theorem Fields.Holds.exists_head (hf : f.Holds b) (hb : Supported b) (quote : Str → Str) :
    ∃ head rep, head.length = 88 ∧ rep.length = 32 ∧
      (∀ tb tail, typeByte b.type = some tb → marshalTail b = .ok tail →
        marshalBlockCanonical quote b =
          .ok ([0x02, tb] ++ head ++ (tail ++ (rep ++ memoBytes b)))) ∧
      (∀ tb n, 90 ≤ n → writeHead tb f (zeros n, 0) = .ok (.at ([0x02, tb] ++ head) (n - 90))) ∧
      ∀ front n, 32 ≤ n →
        writeRepresentativeAt f.representative (.at front n) = .ok (.at (front ++ rep) (n - 32)) := by
  obtain ⟨account, haccount, hmarshal, hwrite⟩ := hb.account.field hf.account "account"
  obtain ⟨previous, hprevious, hmarshal', hwrite'⟩ := exists_previous hf.previous hb.previous
  obtain ⟨rep, hrep, hmarshal'', hwrite''⟩ :=
    exists_representative hf.representative hb.representative
  have hasset := hb.length_asset
  refine ⟨assetBytes b.asset ++ account ++ previous ++ be64 b.balance ++ be64 b.timestamp.toUInt64,
    rep, ?_, hrep, fun tb tail htb htail => ?_, fun tb n hn => ?_, hwrite''⟩
  · simp [haccount, hprevious, assetBytes]
    omega
  · have htiming : marshalTiming b = .ok [] := by simp [marshalTiming, hb.timing]
    simp only [marshalBlockCanonical, htb, guardErr, if_neg hb.memo_allowed, hb.memo,
      Except.mapError, if_neg (Nat.not_lt.mpr hasset), hmarshal, hmarshal', htail, hmarshal'',
      htiming, bind, Except.bind, List.append_assoc, List.nil_append]
  · have hstart : ((zeros n, 0) : Cursor) = Cursor.at [] n := rfl
    rw [hstart, writeHead]
    refine bind_eq_ok.mpr ⟨_, writeUint8_at (by omega), ?_⟩
    refine bind_eq_ok.mpr ⟨_, writeUint8_at (by omega), ?_⟩
    refine bind_eq_ok.mpr ⟨_, writeAssetField_at hf.asset hasset (by omega), ?_⟩
    refine bind_eq_ok.mpr ⟨_, hwrite _ _ (by omega), ?_⟩
    refine bind_eq_ok.mpr ⟨_, hwrite' _ _ (by omega), ?_⟩
    refine bind_eq_ok.mpr ⟨_, writeBigUint64BE_at (by rw [hf.balance, ofInt_toNat]) (by omega), ?_⟩
    rw [writeBigUint64BE_at (by rw [hf.timestamp, ofInt_toInt]) (by omega)]
    simp only [List.nil_append, List.append_assoc, List.cons_append, Nat.sub_sub]

theorem length_memo {m : Str} (h : validateMemo m = .ok ()) : m.length ≤ 64 := by
  unfold validateMemo at h
  split_ifs at h with hnil hlong
  · simp [hnil]
  · exact Nat.le_of_not_lt hlong

theorem finish_at {front : Str} {n total : ℕ} (hn : n = 0) (hfront : front.length = total)
    (e : Error) :
    (do guardErr ((Cursor.at front n).2 ≠ total) e; .ok (Cursor.at front n).1) =
      (Except.ok front : Except Error Str) := by
  subst hn hfront
  simp [guardErr, Cursor.at, zeros, bind, Except.bind]

/-- **The page and the ledger lay out a block in the same bytes.** -/
theorem Fields.Holds.canonical (hf : f.Holds b) (hb : Supported b) (quote : Str → Str) :
    ∃ canonical, marshalBlockCanonical quote b = .ok canonical ∧
      f.canonical b.type = .ok canonical := by
  obtain ⟨head, rep, hhead, hrep, hledger, hwrite, hwriteRep⟩ := hf.exists_head hb quote
  rcases hb.type with ht | ht
  · obtain ⟨dest, hdest, hmarshal, hwriteDest⟩ :=
      (hb.destination ht).field (hf.destination ht) "destination"
    have htail : marshalTail b = .ok (dest ++ be64 b.amount) := by
      simp [marshalTail, ht, hmarshal, bind, Except.bind]
    have hmemo : memoBytes b = UInt8.ofNat b.memo.length :: b.memo := by simp [memoBytes, ht]
    have hpage : (if f.memo = [] then [] else textEncode f.memo) = b.memo := by
      split_ifs with h
      · rw [← hf.memo, h]
        rfl
      · exact hf.memo
    have hlen : b.memo.length ≤ 64 := length_memo hb.memo
    refine ⟨_, hledger 0x01 _ (by rw [ht]; rfl) htail, ?_⟩
    rw [ht, Fields.canonical, marshalSendCanonical]
    dsimp only
    rw [hpage]
    refine bind_eq_ok.mpr ⟨(), guardErr_eq_ok.mpr (Nat.not_lt.mpr hlen), ?_⟩
    refine bind_eq_ok.mpr ⟨_, hwrite _ _ (by omega), ?_⟩
    refine bind_eq_ok.mpr ⟨_, hwriteDest _ _ (by omega), ?_⟩
    refine bind_eq_ok.mpr ⟨_, writeBigUint64BE_at (by rw [hf.amount, ofInt_toNat]) (by omega), ?_⟩
    refine bind_eq_ok.mpr ⟨_, hwriteRep _ _ (by omega), ?_⟩
    refine bind_eq_ok.mpr ⟨_, writeUint8_at (by omega), ?_⟩
    refine bind_eq_ok.mpr ⟨_, write_whole _ (by omega), ?_⟩
    rw [finish_at (by omega) (by simp [hhead, hdest, hrep]; omega)]
    simp [hmemo]
  · obtain ⟨source, hsource, hmarshal, hwriteSource⟩ :=
      (hb.source ht).field (hf.source ht) "source"
    have htail : marshalTail b = .ok source := by simp [marshalTail, ht, hmarshal]
    have hmemo : memoBytes b = [] := by simp [memoBytes, ht]
    refine ⟨_, hledger 0x02 _ (by rw [ht]; rfl) htail, ?_⟩
    rw [ht, Fields.canonical, marshalReceiveCanonical]
    refine bind_eq_ok.mpr ⟨_, hwrite _ _ (by omega), ?_⟩
    refine bind_eq_ok.mpr ⟨_, hwriteSource _ _ (by omega), ?_⟩
    refine bind_eq_ok.mpr ⟨_, hwriteRep _ _ (by omega), ?_⟩
    rw [finish_at (by omega) (by simp [hhead, hsource, hrep])]
    simp [hmemo]

theorem Fields.Holds.aux (hf : f.Holds b) (hb : Supported b) :
    marshalBlockAux f.pubKey = .ok (Xe.marshalBlockAux b) := by
  have hlease : hasLeaseAux b.type = false := by
    rcases hb.type with ht | ht <;> rw [ht] <;> rfl
  have htag : textEncode (text "xe/block/pubkey/v1") = auxTagAccountPubKey := by decide +kernel
  rw [Xe.marshalBlockAux, hlease, ← hf.pubKey, marshalBlockAux]
  by_cases hkey : f.pubKey = []
  · simp [hkey, textEncode]
  · have hne : textEncode f.pubKey ≠ [] := mt textEncode_eq_nil.mp hkey
    rw [if_neg hkey, if_pos hne]
    refine bind_eq_ok.mpr ⟨_, foldlM_write_at [] le_rfl, ?_⟩
    simp [Cursor.at, zeros, writeLenPrefixed, lenPrefixed, htag]

theorem hashCanonical_eq (networkId : Text) (canonical aux : Str) :
    hashCanonical networkId canonical aux = .ok (textEncode networkId ++ (canonical ++ aux)) := by
  have hnet : set ([] ++ zeros ((textEncode networkId).length + canonical.length + aux.length))
      (textEncode networkId) ([] : Str).length = _ := set_zeros _ (by omega)
  refine bind_eq_ok.mpr ⟨_, hnet, ?_⟩
  refine bind_eq_ok.mpr ⟨_, set_zeros canonical (by omega), ?_⟩
  have haux := @set_zeros aux (textEncode networkId ++ canonical) aux.length le_rfl
  rw [List.length_append] at haux
  have hrest : (textEncode networkId).length + canonical.length + aux.length -
      (textEncode networkId).length - canonical.length = aux.length := by omega
  rw [List.nil_append, hrest, haux]
  simp [zeros]

/-- **The page and the ledger hash the same bytes.** -/
theorem wallet_hashes_block (hb : Supported b) (hf : f.Holds b) (quote : Str → Str)
    (networkId : Text) :
    ∃ canonical, marshalBlockCanonical quote b = .ok canonical ∧
      f.canonical b.type = .ok canonical ∧
      marshalBlockAux f.pubKey = .ok (Xe.marshalBlockAux b) ∧
      f.hashed b.type networkId =
        .ok (textEncode networkId ++ (canonical ++ Xe.marshalBlockAux b)) := by
  obtain ⟨canonical, hledger, hpage⟩ := hf.canonical hb quote
  refine ⟨canonical, hledger, hpage, hf.aux hb, ?_⟩
  refine bind_eq_ok.mpr ⟨canonical, hpage, bind_eq_ok.mpr ⟨_, hf.aux hb, ?_⟩⟩
  exact hashCanonical_eq networkId canonical _

end Blocks

/-- The first block of an account, with digits in both cases and a memo beyond ASCII. -/
def openingSend : Block where
  type := .send
  account := List.replicate 64 97
  previous := zeroPrev
  balance := 90
  timestamp := -1
  asset := assetXE
  destination := List.replicate 64 66
  amount := 10
  memo := [116, 104, 0xC3, 0xA9]
  pubKey := List.replicate 64 49

/-- The fields of an opening receive. -/
def openingFields : Fields where
  asset := text "XE"
  account := List.replicate 64 97
  previous := text "0"
  balance := 90
  timestamp := -1
  destination := List.replicate 64 66
  source := []
  amount := 10
  representative := []
  memo := [116, 104, 0xE9]
  pubKey := List.replicate 64 49

theorem wallet_hashes_opening :
    Supported openingSend ∧ openingFields.Holds openingSend ∧
      ∃ canonical, marshalBlockCanonical id openingSend = .ok canonical ∧
        openingFields.canonical .send = .ok canonical ∧
        marshalBlockAux openingFields.pubKey = .ok (Xe.marshalBlockAux openingSend) ∧
        openingFields.hashed .send (text "test") =
          .ok (textEncode (text "test") ++ (canonical ++ Xe.marshalBlockAux openingSend)) := by
  have hdigits : ∀ c : UInt8, hexVal c ≠ none → Hex64 (List.replicate 64 c) := fun c hc =>
    ⟨List.length_replicate, fun d hd => (List.eq_of_mem_replicate hd) ▸ hc⟩
  have hb : Supported openingSend :=
    ⟨.inl rfl, by decide, hdigits 97 (by decide), .inl rfl, fun _ => hdigits 66 (by decide),
      fun h => absurd h (by decide), .inl rfl, by decide +kernel, fun h => absurd h (by decide),
      by decide⟩
  have hf : openingFields.Holds openingSend :=
    ⟨by decide +kernel, by decide +kernel, by decide +kernel, rfl, by decide +kernel,
      fun _ => by decide +kernel, fun h => absurd h (by decide), rfl, rfl, by decide +kernel,
      by decide +kernel⟩
  exact ⟨hb, hf, wallet_hashes_block hb hf id (text "test")⟩

end Xe.Wallet
