import XeLattice.StateChain.Types

/-!
# The bytes of a state-chain block

`statechain/encoding.go`, `statechain/crypto.go` and the JSON text that the stores keep of a block.

* **`compact_of_compact_compact`**: a value that two passes give back is unchanged by one.
-/

set_option autoImplicit false

namespace Xe.StateChain

/-! ## Runes -/

/-- The bytes of the character that starts with `a`, if `a` and the bytes behind it are one. -/
def firstRune (a : UInt8) (s : Str) : Option Str :=
  let bytes := a :: s.take (if a < 0x80 then 0 else if a < 0xE0 then 1 else if a < 0xF0 then 2 else 3)
  if utf8Valid bytes then some bytes else none

/-- The characters of a text behind `skip` bytes, each with its bytes; `none` stands for a byte that
is not part of a character. -/
def runesFrom : ℕ → Str → List (Option Str)
  | _, [] => []
  | skip + 1, _ :: s => runesFrom skip s
  | 0, a :: s =>
    let rune := firstRune a s
    rune :: runesFrom ((rune.map List.length).getD 1 - 1) s

/-- The characters, `none` for a wrong byte. -/
def runes (s : Str) : List (Option Str) :=
  runesFrom 0 s

/-- `\u00XY` for a byte. -/
def escapeByte (b : UInt8) : Str :=
  str "\\u00" ++ [hexDigit (b / 16), hexDigit (b % 16)]

/-- The characters that `encoding/json` escapes for the sake of HTML. -/
def isHtml (b : UInt8) : Bool :=
  b == 60 || b == 62 || b == 38

/-- How a character of a string is written. -/
def quoteRune : Option Str → Str
  | none => str "\\ufffd"
  | some [b] =>
    if b = 34 ∨ b = 92 then [92, b]
    else if b = 8 then str "\\b"
    else if b = 12 then str "\\f"
    else if b = 10 then str "\\n"
    else if b = 13 then str "\\r"
    else if b = 9 then str "\\t"
    else if b < 32 ∨ isHtml b then escapeByte b
    else [b]
  | some bs =>
    if bs = [0xE2, 0x80, 0xA8] then str "\\u2028"
    else if bs = [0xE2, 0x80, 0xA9] then str "\\u2029"
    else bs

/-- `json.Marshal` of a string. -/
def quoteJSON (s : Str) : Str :=
  [34] ++ (runes s).flatMap quoteRune ++ [34]

/-- A string after `json.Marshal` and `json.Unmarshal`: bytes that belong to no character have
become `U+FFFD`. -/
def cleanString (s : Str) : Str :=
  (runes s).flatMap (fun r => r.getD [0xEF, 0xBF, 0xBD])

theorem firstRune_ascii {a : UInt8} (h : isAscii a = true) (s : Str) :
    firstRune a s = some [a] := by
  have ha : a < 0x80 := of_decide_eq_true h
  simp [firstRune, ha, utf8Valid]

theorem runes_ascii {s : Str} (h : s.all isAscii = true) : runes s = s.map (fun b => some [b]) := by
  induction s with
  | nil => rfl
  | cons b s ih =>
    rw [List.all_cons, Bool.and_eq_true] at h
    rw [runes, runesFrom, firstRune_ascii h.1, List.map_cons, ← ih h.2]
    rfl

/-- **A string of ASCII characters is kept.** -/
theorem cleanString_ascii {s : Str} (h : s.all isAscii = true) : cleanString s = s := by
  rw [cleanString, runes_ascii h, List.flatMap_map]
  exact List.flatMap_singleton' s

/-! ## Raw values -/

/-- Where the writer of a raw value stands: outside of strings, inside one, behind a backslash. -/
inductive Place
  | outside
  | inside
  | escaped
  deriving DecidableEq

/-- Where the next byte stands. -/
def Place.next : Place → UInt8 → Place
  | .outside, c => if c = 34 then .inside else .outside
  | .inside, c => if c = 92 then .escaped else if c = 34 then .outside else .inside
  | .escaped, _ => .inside

/-- A blank of JSON. -/
def isBlank (c : UInt8) : Bool :=
  c == 32 || c == 9 || c == 10 || c == 13

/-- A byte as the writer of a raw value leaves it. -/
def writeByte (p : Place) (c : UInt8) : Str :=
  if isHtml c then escapeByte c
  else if p = .outside ∧ isBlank c then []
  else [c]

/-- The text starts with `U+2028` or `U+2029`. -/
def isSeparator (s : Str) : Bool :=
  s.take 3 == [0xE2, 0x80, 0xA8] || s.take 3 == [0xE2, 0x80, 0xA9]

/-- The loop of `appendCompact` with HTML escaping; the next `skip` bytes are already written. -/
def compactFrom : ℕ → Place → Str → Str
  | _, _, [] => []
  | skip + 1, p, c :: s => compactFrom skip (p.next c) s
  | 0, p, c :: s =>
    if isSeparator (c :: s) then
      (if (c :: s).take 3 = [0xE2, 0x80, 0xA8] then str "\\u2028" else str "\\u2029") ++
        compactFrom 2 (p.next c) s
    else writeByte p c ++ compactFrom 0 (p.next c) s

/-- How `json.Marshal` writes a valid `json.RawMessage`. -/
def compact (s : Str) : Str :=
  compactFrom 0 .outside s

/-- The bytes that `compactFrom` replaces by others, or that start what it replaces. -/
def isReplaced (c : UInt8) : Bool :=
  isHtml c || c == 0xE2

theorem not_isReplaced_of_isLowerHex {c : UInt8} (h : isLowerHex c = true) :
    isReplaced c = false := by
  simp only [isLowerHex, Bool.or_eq_true, Bool.and_eq_true, decide_eq_true_eq] at h
  simp only [isReplaced, isHtml, Bool.or_eq_false_iff, beq_eq_false_iff_ne]
  grind

theorem countP_escapeByte (c : UInt8) : (escapeByte c).countP isReplaced = 0 := by
  have hhi := not_isReplaced_of_isLowerHex (isLowerHex_hexDigit (div_sixteen_lt c))
  have hlo := not_isReplaced_of_isLowerHex (isLowerHex_hexDigit (mod_sixteen_lt c))
  have hpre : (str "\\u00").countP isReplaced = 0 := by decide
  rw [escapeByte, List.countP_append, hpre]
  simp [hhi, hlo]

theorem countP_separator_2028 : (str "\\u2028").countP isReplaced = 0 := by
  decide

theorem countP_separator_2029 : (str "\\u2029").countP isReplaced = 0 := by
  decide

theorem countP_cons_separator {c : UInt8} {s : Str} (h : isSeparator (c :: s) = true) :
    (c :: s).countP isReplaced = s.countP isReplaced + 1 := by
  have hc : c = 0xE2 := by
    simp only [isSeparator, List.take_succ_cons, Bool.or_eq_true, beq_iff_eq, List.cons.injEq] at h
    obtain h | h := h <;> exact h.1
  exact List.countP_cons_of_pos (by rw [hc]; rfl)

/-- The writer replaces a byte that never comes back, or else it only leaves bytes out. -/
theorem compactFrom_fewer_or_sublist (skip : ℕ) (p : Place) (s : Str) :
    (compactFrom skip p s).countP isReplaced < s.countP isReplaced ∨
      (compactFrom skip p s).Sublist s := by
  induction s generalizing skip p with
  | nil =>
    right
    cases skip <;> exact List.Sublist.slnil
  | cons c s ih =>
    have le : ∀ skip p, (compactFrom skip p s).countP isReplaced ≤ s.countP isReplaced := by
      intro skip p
      obtain h | h := ih skip p
      · omega
      · exact h.countP_le
    cases skip with
    | succ skip =>
      rw [compactFrom]
      obtain h | h := ih skip (p.next c)
      · left
        rw [List.countP_cons]
        omega
      · exact .inr (h.cons c)
    | zero =>
      rw [compactFrom]
      split_ifs with hsep heq
      · left
        rw [List.countP_append, countP_separator_2028, countP_cons_separator hsep]
        have := le 2 (p.next c)
        omega
      · left
        rw [List.countP_append, countP_separator_2029, countP_cons_separator hsep]
        have := le 2 (p.next c)
        omega
      · rw [writeByte]
        split_ifs with hhtml hblank
        · left
          have hc : isReplaced c = true := by simp [isReplaced, hhtml]
          rw [List.countP_append, countP_escapeByte, List.countP_cons_of_pos hc]
          have := le 0 (p.next c)
          omega
        · obtain h | h := ih 0 (p.next c)
          · left
            rw [List.nil_append, List.countP_cons]
            omega
          · exact .inr (h.cons c)
        · obtain h | h := ih 0 (p.next c)
          · left
            rw [List.singleton_append, List.countP_cons, List.countP_cons]
            omega
          · exact .inr (h.cons_cons c)

/-- **A value that two passes give back is unchanged by one.** -/
theorem compact_of_compact_compact {s : Str} (h : compact (compact s) = s) : compact s = s := by
  have hfst := compactFrom_fewer_or_sublist 0 .outside s
  have hsnd := compactFrom_fewer_or_sublist 0 .outside (compact s)
  change (compact s).countP isReplaced < s.countP isReplaced ∨ (compact s).Sublist s at hfst
  change (compact (compact s)).countP isReplaced < (compact s).countP isReplaced ∨
    (compact (compact s)).Sublist (compact s) at hsnd
  rw [h] at hsnd
  obtain hlt | hsub := hfst
  · obtain hlt' | hsub' := hsnd
    · omega
    · have := hsub'.countP_le (p := isReplaced)
      omega
  · obtain hlt' | hsub' := hsnd
    · have := hsub.countP_le (p := isReplaced)
      omega
    · exact hsub.antisymm hsub'

/-! ## Blocks as JSON -/

/-- The pieces of a JSON array or object, separated by commas. -/
def commaSeparated (pieces : List Str) : Str :=
  (pieces.intersperse (str ",")).flatten

/-- A field of an object. -/
def jsonField (name : String) (text : Str) : Str :=
  quoteJSON (str name) ++ str ":" ++ text

/-- An object. -/
def jsonObject (fields : List Str) : Str :=
  [123] ++ commaSeparated fields ++ [125]

/-- An array. -/
def jsonArray (elems : List Str) : Str :=
  str "[" ++ commaSeparated elems ++ str "]"

/-- An operation as JSON; an empty value is left out. -/
def Op.toJSON (op : Op) : Str :=
  jsonObject ([jsonField "action" (quoteJSON op.action.word), jsonField "key" (quoteJSON op.key)] ++
    if op.value = [] then [] else [jsonField "value" (compact op.value)])

/-- A signature. -/
def signatureJSON (sig : BlockSignature) : Str :=
  jsonObject [jsonField "public_key" (quoteJSON sig.publicKey),
    jsonField "signature" (quoteJSON sig.sig)]

/-- The text of a block whose raw values are valid. -/
def Block.toJSON (b : Block) : Str :=
  jsonObject [jsonField "index" (dec b.index.toNat), jsonField "prev_hash" (quoteJSON b.prevHash),
    jsonField "ops" (jsonArray (b.ops.map Op.toJSON)),
    jsonField "signatures" (jsonArray (b.signatures.map signatureJSON)),
    jsonField "hash" (quoteJSON b.hash), jsonField "timestamp" (decInt b.timestamp.toInt)]

/-- The first raw value that `json.Marshal` cannot write. -/
def checkValues (json : Json) : List Op → Except GoError Unit
  | [] => .ok ()
  | op :: ops =>
    if op.value = [] then checkValues json ops
    else
      match json.checkValid op.value with
      | .error e =>
        .error (errorf (str "json: error calling MarshalJSON for type json.RawMessage: " ++ e))
      | .ok _ => checkValues json ops

/-- `json.Marshal` of a block. -/
def marshalJSON (json : Json) (b : Block) : Except GoError Str := do
  checkValues json b.ops
  .ok b.toJSON

/-- An operation after a pass through JSON. -/
def Op.copied (op : Op) : Op where
  action :=
    match op.action with
    | .other w => .other (cleanString w)
    | action => action
  key := cleanString op.key
  value := compact op.value

/-- A block after a pass through JSON: the raw values come back as they were written. `encoding/json`
also refuses values nested deeper than 10000 levels, which are out of the model. -/
def Block.copied (b : Block) : Block where
  index := b.index
  prevHash := cleanString b.prevHash
  ops := b.ops.map Op.copied
  signatures := b.signatures.map fun sig =>
    { publicKey := cleanString sig.publicKey, sig := cleanString sig.sig }
  hash := cleanString b.hash
  timestamp := b.timestamp

/-! ## The canonical encoding -/

/-- The operations in the canonical encoding, from the `i`th on. -/
def marshalOps (lib : Lib) (i : ℕ) : List Op → Except GoError Str
  | [] => .ok []
  | op :: ops =>
    let key := be16 (UInt16.ofNat op.key.length) ++ op.key
    match op.action with
    | .other w =>
      .error (errorf (str "MarshalCanonical: op " ++ dec i ++ str ": unknown action " ++ lib.quote w))
    | .set => do
      let rest ← marshalOps lib (i + 1) ops
      .ok ([1] ++ key ++ be32 (UInt32.ofNat op.value.length) ++ op.value ++ rest)
    | .delete => do
      let rest ← marshalOps lib (i + 1) ops
      .ok ([2] ++ key ++ be32 0 ++ rest)

/-- `MarshalCanonical`. -/
def marshalCanonical (lib : Lib) (b : Block) : Except GoError Str :=
  match hexDecode b.prevHash with
  | .error e => .error (errorf (str "MarshalCanonical: invalid prev_hash hex: " ++ e))
  | .ok prevHash => do
    guardErr (prevHash.length ≠ 32)
      (errorf (str "MarshalCanonical: prev_hash must be 32 bytes, got " ++ dec prevHash.length))
    let ops ← marshalOps lib 0 b.ops
    .ok (be64 b.index ++ prevHash ++ be32 (UInt32.ofNat b.ops.length) ++ ops ++
      be64 b.timestamp.toUInt64)

/-- `HashBlock`. -/
def hashBlock (lib : Lib) (b : Block) : Except GoError Str := do
  let data ← (marshalCanonical lib b).mapError (GoError.wrap (str "HashBlock: "))
  .ok (hexEncode (lib.sha256 data))

/-- `VerifySignature`. -/
def verifySignature (lib : Lib) (hash : Str) (sig : BlockSignature) : Except GoError Unit := do
  let hashBytes ← decodeHash hash
  verifyHexSignature lib sig.publicKey sig.sig hashBytes

/-- `VerifyBlockHash`. -/
def verifyBlockHash (lib : Lib) (b : Block) : Except GoError Unit := do
  let expected ← (hashBlock lib b).mapError (GoError.wrap (str "VerifyBlockHash: "))
  guardErr (b.hash ≠ expected)
    (errorf (str "hash mismatch: got " ++ b.hash ++ str ", want " ++ expected))

end Xe.StateChain
