import Mathlib.Data.List.Sort
import Mathlib.Tactic.Common

/-!
# Byte strings

The Go strings and byte slices of the program are lists of bytes.  This file has the operations on
them that the ledger takes from the Go library: hexadecimal, big-endian numbers, lower case, UTF-8
validity, decimal numbers and substring search.

* **`hexDecode_hexEncode`**, **`hexEncode_hexDecode`**: inverse on lower case.
-/

set_option autoImplicit false

/-- A Go string or byte slice. -/
abbrev Str := List UInt8

instance Str.decidableMem (h : Str) (l : List Str) : Decidable (h ∈ l) :=
  List.instDecidableMemOfLawfulBEq h l

/-- The bytes of a string literal. -/
def str (s : String) : Str :=
  s.toList.flatMap String.utf8EncodeChar

/-- `strconv.FormatUint` in base ten, the `%d` of the messages. -/
def dec (n : ℕ) : Str :=
  str (toString n)

/-- `%d` on a signed number. -/
def decInt (n : ℤ) : Str :=
  str (toString n)

/-- Two upper-case hexadecimal digits, as `%02X` writes a byte. -/
def upperHexByte (b : UInt8) : Str :=
  let digit (n : ℕ) : UInt8 := if n < 10 then (48 + n).toUInt8 else (55 + n).toUInt8
  [digit (b.toNat / 16), digit (b.toNat % 16)]

/-! ## Hexadecimal -/

/-- The value of a hexadecimal digit, either case. -/
def hexVal (c : UInt8) : Option UInt8 :=
  if 48 ≤ c ∧ c ≤ 57 then some (c - 48)
  else if 97 ≤ c ∧ c ≤ 102 then some (c - 87)
  else if 65 ≤ c ∧ c ≤ 70 then some (c - 55)
  else none

/-- The lower-case digit of a value below sixteen. -/
def hexDigit (n : UInt8) : UInt8 :=
  if n < 10 then n + 48 else n + 87

/-- `hex.EncodeToString`. -/
def hexEncode (s : Str) : Str :=
  s.flatMap (fun b => [hexDigit (b / 16), hexDigit (b % 16)])

/-- The rune a byte stands for in `%#U`: its number, and itself when it is printable. -/
def fmtRune (b : UInt8) : Str :=
  let num := str "U+00" ++ upperHexByte b
  if 0x20 ≤ b ∧ b < 0x7F then num ++ str " '" ++ [b] ++ str "'"
  else if 0xA1 ≤ b ∧ b ≠ 0xAD then
    num ++ str " '" ++ String.utf8EncodeChar (Char.ofNat b.toNat) ++ str "'"
  else num

/-- The bytes of pairs of digits, or why they cannot be read: an invalid digit is reported before
an odd length. -/
def hexDecode : Str → Except Str Str
  | [] => .ok []
  | [c] =>
    match hexVal c with
    | none => .error (str "encoding/hex: invalid byte: " ++ fmtRune c)
    | some _ => .error (str "encoding/hex: odd length hex string")
  | c :: d :: rest =>
    match hexVal c with
    | none => .error (str "encoding/hex: invalid byte: " ++ fmtRune c)
    | some x =>
      match hexVal d with
      | none => .error (str "encoding/hex: invalid byte: " ++ fmtRune d)
      | some y =>
        match hexDecode rest with
        | .error e => .error e
        | .ok bs => .ok ((x * 16 + y) :: bs)

/-! ## Lower case -/

/-- A byte of ASCII. -/
def isAscii (b : UInt8) : Bool :=
  b < 0x80

/-- The lower-case form of an ASCII character. -/
def lowerByte (b : UInt8) : UInt8 :=
  if 65 ≤ b ∧ b ≤ 90 then b + 32 else b

/-- `strings.EqualFold` when one side is ASCII without the letters `k` and `s`, whose other
foldings are not ASCII. -/
def equalFold (a b : Str) : Bool :=
  a.map lowerByte == b.map lowerByte

/-! ## Numbers as bytes -/

/-- `binary.BigEndian.PutUint64`. -/
def be64 (n : UInt64) : Str :=
  [(n >>> 56).toUInt8, (n >>> 48).toUInt8, (n >>> 40).toUInt8, (n >>> 32).toUInt8,
    (n >>> 24).toUInt8, (n >>> 16).toUInt8, (n >>> 8).toUInt8, n.toUInt8]

/-- `binary.BigEndian.PutUint32`. -/
def be32 (n : UInt32) : Str :=
  [(n >>> 24).toUInt8, (n >>> 16).toUInt8, (n >>> 8).toUInt8, n.toUInt8]

/-- `binary.BigEndian.PutUint16`. -/
def be16 (n : UInt16) : Str :=
  [(n >>> 8).toUInt8, n.toUInt8]

/-! ## Order, UTF-8, substrings -/

/-- Byte-wise lexicographic order, Go's `<` on strings. -/
def strLt : Str → Str → Bool
  | [], [] => false
  | [], _ :: _ => true
  | _ :: _, [] => false
  | a :: s, b :: t => a < b || (a == b && strLt s t)

/-- `sort.Strings`. -/
def sortStrings (l : List Str) : List Str :=
  l.insertionSort (fun a b => strLt b a = false)

/-- A continuation byte. -/
def isCont (b : UInt8) : Bool :=
  0x80 ≤ b && b ≤ 0xBF

/-- `utf8.ValidString`. -/
def utf8Valid : Str → Bool
  | [] => true
  | a :: s =>
    if a < 0x80 then utf8Valid s
    else if 0xC2 ≤ a ∧ a ≤ 0xDF then
      match s with
      | b :: s => isCont b && utf8Valid s
      | _ => false
    else if 0xE0 ≤ a ∧ a ≤ 0xEF then
      match s with
      | b :: c :: s =>
        (if a = 0xE0 then decide (0xA0 ≤ b ∧ b ≤ 0xBF)
          else if a = 0xED then decide (0x80 ≤ b ∧ b ≤ 0x9F) else isCont b)
          && isCont c && utf8Valid s
      | _ => false
    else if 0xF0 ≤ a ∧ a ≤ 0xF4 then
      match s with
      | b :: c :: d :: s =>
        (if a = 0xF0 then decide (0x90 ≤ b ∧ b ≤ 0xBF)
          else if a = 0xF4 then decide (0x80 ≤ b ∧ b ≤ 0x8F) else isCont b)
          && isCont c && isCont d && utf8Valid s
      | _ => false
    else false

/-- `strings.Contains`. -/
def contains (s pat : Str) : Bool :=
  pat.isPrefixOf s || match s with
    | [] => false
    | _ :: s => contains s pat

/-! ## Facts about numbers -/

@[simp] theorem length_be64 (n : UInt64) : (be64 n).length = 8 := rfl

@[simp] theorem length_be32 (n : UInt32) : (be32 n).length = 4 := rfl

@[simp] theorem length_be16 (n : UInt16) : (be16 n).length = 2 := rfl

/-! ## Facts about the order -/

theorem strLt_iff {a b : Str} : strLt a b = true ↔ a < b := by
  induction a generalizing b with
  | nil => cases b <;> simp [strLt]
  | cons x s ih => cases b <;> simp [strLt, List.cons_lt_cons_iff, ih]

theorem strLt_eq_false {a b : Str} : strLt b a = false ↔ a ≤ b := by
  rw [← Bool.not_eq_true, strLt_iff, List.not_lt]

/-! ## Facts about hexadecimal -/

/-- A lower-case digit. -/
def isLowerHex (c : UInt8) : Bool :=
  (48 ≤ c && c ≤ 57) || (97 ≤ c && c ≤ 102)

theorem div_sixteen_lt (b : UInt8) : b / 16 < 16 := by grind

theorem mod_sixteen_lt (b : UInt8) : b % 16 < 16 := by grind

theorem hexVal_hexDigit {x : UInt8} (hx : x < 16) : hexVal (hexDigit x) = some x := by
  unfold hexDigit hexVal
  grind

theorem div_mul_add_mod (b : UInt8) : b / 16 * 16 + b % 16 = b := by
  apply UInt8.toNat_inj.mp
  have hb := b.toNat_lt
  simp only [UInt8.toNat_add, UInt8.toNat_mul, UInt8.toNat_div, UInt8.toNat_mod, UInt8.reduceToNat]
  omega

theorem isLowerHex_hexDigit {x : UInt8} (hx : x < 16) : isLowerHex (hexDigit x) = true := by
  unfold hexDigit isLowerHex
  simp only [Bool.or_eq_true, Bool.and_eq_true, decide_eq_true_eq]
  split_ifs with hlt
  · grind
  · grind

theorem hexVal_lt {c x : UInt8} (h : hexVal c = some x) : x < 16 := by
  unfold hexVal at h
  grind

/-- A digit is the lower-case digit of its value, unless it is an upper-case letter. -/
theorem hexDigit_of_hexVal {c x : UInt8} (h : hexVal c = some x) (hc : lowerByte c = c) :
    hexDigit x = c := by
  unfold hexVal at h
  unfold lowerByte at hc
  unfold hexDigit
  grind

theorem hi_of_digits {x y : UInt8} (hx : x < 16) (hy : y < 16) : (x * 16 + y) / 16 = x := by
  have hxn : x.toNat < 16 := UInt8.lt_iff_toNat_lt.mp hx
  have hyn : y.toNat < 16 := UInt8.lt_iff_toNat_lt.mp hy
  apply UInt8.toNat_inj.mp
  simp only [UInt8.toNat_add, UInt8.toNat_mul, UInt8.toNat_div, UInt8.reduceToNat]
  omega

theorem lo_of_digits {x y : UInt8} (hx : x < 16) (hy : y < 16) : (x * 16 + y) % 16 = y := by
  have hxn : x.toNat < 16 := UInt8.lt_iff_toNat_lt.mp hx
  have hyn : y.toNat < 16 := UInt8.lt_iff_toNat_lt.mp hy
  apply UInt8.toNat_inj.mp
  simp only [UInt8.toNat_add, UInt8.toNat_mul, UInt8.toNat_mod, UInt8.reduceToNat]
  omega

@[simp] theorem length_hexEncode (s : Str) : (hexEncode s).length = 2 * s.length := by
  induction s with
  | nil => rfl
  | cons b s ih =>
    simp only [hexEncode, List.flatMap_cons, List.length_append, List.length_cons,
      List.length_nil] at ih ⊢
    omega

theorem hexEncode_cons (b : UInt8) (s : Str) :
    hexEncode (b :: s) = hexDigit (b / 16) :: hexDigit (b % 16) :: hexEncode s := rfl

theorem isLowerHex_hexEncode (s : Str) : (hexEncode s).all isLowerHex = true := by
  induction s with
  | nil => rfl
  | cons b s ih =>
    rw [hexEncode_cons, List.all_cons, List.all_cons, ih,
      isLowerHex_hexDigit (div_sixteen_lt b), isLowerHex_hexDigit (mod_sixteen_lt b)]
    rfl

theorem hexDecode_cons_cons {c d : UInt8} {rest bs : Str} :
    hexDecode (c :: d :: rest) = .ok bs ↔
      ∃ x y bs', hexVal c = some x ∧ hexVal d = some y ∧ hexDecode rest = .ok bs' ∧
        bs = (x * 16 + y) :: bs' := by
  rw [hexDecode]
  cases hexVal c with
  | none => simp
  | some x =>
    cases hexVal d with
    | none => simp
    | some y =>
      cases hexDecode rest with
      | error e => simp
      | ok bs' => simp [eq_comm]

/-- **Decoding inverts encoding.** -/
theorem hexDecode_hexEncode (s : Str) : hexDecode (hexEncode s) = .ok s := by
  induction s with
  | nil => rfl
  | cons b s ih =>
    rw [hexEncode_cons, hexDecode_cons_cons]
    exact ⟨_, _, _, hexVal_hexDigit (div_sixteen_lt b), hexVal_hexDigit (mod_sixteen_lt b), ih,
      by rw [div_mul_add_mod]⟩

theorem hexEncode_inj {s t : Str} (h : hexEncode s = hexEncode t) : s = t := by
  have hs := hexDecode_hexEncode s
  rw [h, hexDecode_hexEncode] at hs
  exact (Except.ok.inj hs).symm

theorem isAscii_of_hexVal {c x : UInt8} (h : hexVal c = some x) : isAscii c = true := by
  unfold hexVal at h
  simp only [isAscii, decide_eq_true_eq]
  grind

theorem isAscii_of_hexDecode {s bs : Str} (h : hexDecode s = .ok bs) : s.all isAscii = true := by
  induction s using hexDecode.induct generalizing bs with
  | case1 => rfl
  | case2 c hc => simp [hexDecode, hc] at h
  | case3 c x hc => simp [hexDecode, hc] at h
  | case4 c d rest hc => simp [hexDecode, hc] at h
  | case5 c d rest x hc hd => simp [hexDecode, hc, hd] at h
  | case6 c d rest x hc y hd e he ih => simp [hexDecode, hc, hd, he] at h
  | case7 c d rest x hc y hd bs' hbs ih =>
    rw [List.all_cons, List.all_cons, isAscii_of_hexVal hc, isAscii_of_hexVal hd, ih hbs]
    rfl

/-- **A spelling without upper-case letters is determined by the bytes it spells.** -/
theorem hexEncode_hexDecode {s bs : Str} (h : hexDecode s = .ok bs)
    (hs : ∀ c ∈ s, lowerByte c = c) : hexEncode bs = s := by
  induction s using hexDecode.induct generalizing bs with
  | case1 => cases h; rfl
  | case2 c hc => simp [hexDecode, hc] at h
  | case3 c x hc => simp [hexDecode, hc] at h
  | case4 c d rest hc => simp [hexDecode, hc] at h
  | case5 c d rest x hc hd => simp [hexDecode, hc, hd] at h
  | case6 c d rest x hc y hd e he ih => simp [hexDecode, hc, hd, he] at h
  | case7 c d rest x hc y hd bs' hbs ih =>
    obtain ⟨x', y', bs'', hx, hy, hrest, rfl⟩ := hexDecode_cons_cons.mp h
    have hxc := hexDigit_of_hexVal hx (hs c (by simp))
    have hyd := hexDigit_of_hexVal hy (hs d (by simp))
    rw [hexEncode_cons, hi_of_digits (hexVal_lt hx) (hexVal_lt hy),
      lo_of_digits (hexVal_lt hx) (hexVal_lt hy), hxc, hyd,
      ih hrest (fun e he => hs e (by simp [he]))]
