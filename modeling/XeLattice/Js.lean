import XeLattice.Go.Bytes
import Mathlib.Tactic.Linarith

/-!
# JavaScript text and byte arrays

What a script does to the texts and the byte arrays of a page: strings of UTF-16 code units with
`TextEncoder.encode` and `parseInt` in base sixteen, and the writes into a `Uint8Array` of a fixed
length, alone or through a `DataView`, at an offset that the script carries along.

* `textEncode`, **`eq_ascii_of_textEncode`**: a text of ASCII bytes is spelled by these bytes;
* `parseInt16`, **`parseInt16_pair`**: two hexadecimal digits;
* **`write_at`**: an array that is written from the front holds that, and then zeros.
-/

set_option autoImplicit false

namespace Js

/-- A string, by its code units. -/
abbrev Text := List UInt16

/-- What is thrown. -/
inductive Error where
  | error (message : Text)
  | rangeError
  deriving DecidableEq

/-- A text of ASCII characters. -/
def ascii (s : Str) : Text :=
  s.map UInt8.toUInt16

/-! ## UTF-8 -/

/-- A high surrogate. -/
def isHigh (u : UInt16) : Bool :=
  0xD800 ≤ u && u ≤ 0xDBFF

/-- A low surrogate. -/
def isLow (u : UInt16) : Bool :=
  0xDC00 ≤ u && u ≤ 0xDFFF

/-- A code point in UTF-8. -/
def encodeScalar (c : ℕ) : Str :=
  if c < 0x80 then [UInt8.ofNat c]
  else if c < 0x800 then [UInt8.ofNat (0xC0 + c / 0x40), UInt8.ofNat (0x80 + c % 0x40)]
  else if c < 0x10000 then
    [UInt8.ofNat (0xE0 + c / 0x1000), UInt8.ofNat (0x80 + c / 0x40 % 0x40),
      UInt8.ofNat (0x80 + c % 0x40)]
  else
    [UInt8.ofNat (0xF0 + c / 0x40000), UInt8.ofNat (0x80 + c / 0x1000 % 0x40),
      UInt8.ofNat (0x80 + c / 0x40 % 0x40), UInt8.ofNat (0x80 + c % 0x40)]

/-- A code unit that is half of no pair: a lone surrogate becomes U+FFFD. -/
def encodeUnit (u : UInt16) : Str :=
  encodeScalar (if isHigh u || isLow u then 0xFFFD else u.toNat)

/-- `TextEncoder.encode`. -/
def textEncode : Text → Str
  | [] => []
  | [u] => encodeUnit u
  | u :: v :: rest =>
    if isHigh u && isLow v then
      encodeScalar (0x10000 + (u.toNat - 0xD800) * 0x400 + (v.toNat - 0xDC00)) ++ textEncode rest
    else encodeUnit u ++ textEncode (v :: rest)

theorem exists_mem_encodeScalar {c : ℕ} (hc : 0x80 ≤ c) :
    ∃ b ∈ encodeScalar c, isAscii b = false := by
  refine ⟨UInt8.ofNat (0x80 + c % 0x40), ?_, ?_⟩
  · unfold encodeScalar
    rw [if_neg (by omega)]
    split_ifs <;> simp
  · have hlt : 0x80 + c % 0x40 < 256 := by omega
    simp [isAscii, UInt8.lt_iff_toNat_lt, UInt8.toNat_ofNat', Nat.mod_eq_of_lt hlt]

theorem lt_of_encodeScalar {c : ℕ} (h : ∀ b ∈ encodeScalar c, isAscii b = true) : c < 0x80 := by
  by_contra hc
  obtain ⟨b, hb, hascii⟩ := exists_mem_encodeScalar (Nat.le_of_not_lt hc)
  rw [h b hb] at hascii
  cases hascii

theorem encodeUnit_of_ascii {u : UInt16} (h : ∀ b ∈ encodeUnit u, isAscii b = true) :
    ∃ b : UInt8, encodeUnit u = [b] ∧ u = b.toUInt16 := by
  unfold encodeUnit at h ⊢
  split_ifs at h ⊢ with hu
  · exact absurd (lt_of_encodeScalar h) (by decide)
  · have hlt := lt_of_encodeScalar h
    refine ⟨UInt8.ofNat u.toNat, if_pos hlt, UInt16.toNat_inj.mp ?_⟩
    rw [UInt8.toNat_toUInt16, UInt8.toNat_ofNat', Nat.mod_eq_of_lt (by omega)]

/-- **A text whose bytes are ASCII is spelled by them.** -/
theorem eq_ascii_of_textEncode {w : Text} (h : ∀ b ∈ textEncode w, isAscii b = true) :
    w = ascii (textEncode w) := by
  fun_induction textEncode w with
  | case1 => rfl
  | case2 u =>
    obtain ⟨b, hb, rfl⟩ := encodeUnit_of_ascii h
    rw [hb]
    rfl
  | case3 u v rest hpair ih =>
    have hlt := lt_of_encodeScalar fun b hb => h b (List.mem_append_left _ hb)
    omega
  | case4 u v rest hpair ih =>
    obtain ⟨b, hb, rfl⟩ := encodeUnit_of_ascii fun b hb => h b (List.mem_append_left _ hb)
    have hrest := ih fun b hb => h b (List.mem_append_right _ hb)
    rw [hb, List.singleton_append, ascii, List.map_cons, ← ascii, ← hrest]

theorem textEncode_eq_nil {w : Text} : textEncode w = [] ↔ w = [] := by
  refine ⟨fun h => ?_, fun h => by rw [h]; rfl⟩
  have hw := eq_ascii_of_textEncode (w := w) (by simp [h])
  rwa [h] at hw

/-! ## Hexadecimal numbers -/

/-- The value of a hexadecimal digit. -/
def digitVal (u : UInt16) : Option ℕ :=
  if 48 ≤ u ∧ u ≤ 57 then some (u.toNat - 48)
  else if 97 ≤ u ∧ u ≤ 102 then some (u.toNat - 87)
  else if 65 ≤ u ∧ u ≤ 70 then some (u.toNat - 55)
  else none

/-- `WhiteSpace` or `LineTerminator`. -/
def isSpace (u : UInt16) : Bool :=
  (9 ≤ u && u ≤ 13) || u == 32 || u == 0xA0 || u == 0x1680 || (0x2000 ≤ u && u ≤ 0x200A) ||
    u == 0x2028 || u == 0x2029 || u == 0x202F || u == 0x205F || u == 0x3000 || u == 0xFEFF

/-- `parseInt(s, 16)`, absent for NaN: white space, a sign and `0x` in front are passed over, and
reading stops at the first unit that is no digit. -/
def parseInt16 (s : Text) : Option ℤ :=
  let s := s.dropWhile isSpace
  let signed := if s.head? = some 43 ∨ s.head? = some 45 then s.tail else s
  let body := if signed.take 2 = [48, 120] ∨ signed.take 2 = [48, 88] then signed.drop 2 else signed
  let digits := (body.map digitVal).takeWhile Option.isSome
  if digits = [] then none
  else
    let value : ℤ := digits.foldl (fun v d => 16 * v + (d.getD 0 : ℕ)) 0
    some (if s.head? = some 45 then -value else value)

theorem hexVal_cases {c x : UInt8} (h : hexVal c = some x) :
    48 ≤ c.toNat ∧ c.toNat ≤ 57 ∧ x.toNat = c.toNat - 48 ∨
      97 ≤ c.toNat ∧ c.toNat ≤ 102 ∧ x.toNat = c.toNat - 87 ∨
      65 ≤ c.toNat ∧ c.toNat ≤ 70 ∧ x.toNat = c.toNat - 55 := by
  have hc := c.toNat_lt
  simp only [hexVal, UInt8.le_iff_toNat_le, UInt8.reduceToNat] at h
  split_ifs at h <;> obtain rfl := Option.some.inj h <;>
    simp only [UInt8.toNat_sub, UInt8.reduceToNat] <;> omega

theorem digitVal_toUInt16 {c x : UInt8} (h : hexVal c = some x) :
    digitVal c.toUInt16 = some x.toNat := by
  simp only [digitVal, UInt16.le_iff_toNat_le, UInt8.toNat_toUInt16, UInt16.reduceToNat]
  rcases hexVal_cases h with ⟨hlo, hhi, hx⟩ | ⟨hlo, hhi, hx⟩ | ⟨hlo, hhi, hx⟩
  · rw [if_pos ⟨hlo, hhi⟩, hx]
  · rw [if_neg (by omega), if_pos ⟨hlo, hhi⟩, hx]
  · rw [if_neg (by omega), if_neg (by omega), if_pos ⟨hlo, hhi⟩, hx]

theorem isSpace_toUInt16 {c x : UInt8} (h : hexVal c = some x) : isSpace c.toUInt16 = false := by
  have hc := hexVal_cases h
  simp only [isSpace, UInt16.le_iff_toNat_le, ← UInt16.toNat_inj, beq_eq_decide,
    UInt8.toNat_toUInt16, UInt16.reduceToNat, Bool.or_eq_false_iff, Bool.and_eq_false_iff,
    decide_eq_false_iff_not]
  omega

/-- **Two hexadecimal digits.** -/
theorem parseInt16_pair {c d x y : UInt8} (hc : hexVal c = some x) (hd : hexVal d = some y) :
    parseInt16 [c.toUInt16, d.toUInt16] = some ((16 * x.toNat + y.toNat : ℕ) : ℤ) := by
  have hlead := hexVal_cases hc
  have hnext := hexVal_cases hd
  have hsign : c.toUInt16 ≠ 43 ∧ c.toUInt16 ≠ 45 := by
    simp only [ne_eq, ← UInt16.toNat_inj, UInt8.toNat_toUInt16, UInt16.reduceToNat]
    omega
  have hbase : d.toUInt16 ≠ 120 ∧ d.toUInt16 ≠ 88 := by
    simp only [ne_eq, ← UInt16.toNat_inj, UInt8.toNat_toUInt16, UInt16.reduceToNat]
    omega
  simp [parseInt16, isSpace_toUInt16 hc, hsign, hbase, digitVal_toUInt16 hc, digitVal_toUInt16 hd]

/-! ## Numbers modulo a power of two -/

theorem toNat_ofInt_natCast {n : ℕ} (h : n < 256) : (UInt8.ofInt n).toNat = n := by
  have hmod : ((n : ℤ) % 2 ^ 8).toNat = n := by omega
  rw [UInt8.ofInt, hmod, UInt8.toNat_ofNat', Nat.mod_eq_of_lt h]

@[simp] theorem ofInt_toNat (n : UInt64) : UInt64.ofInt n.toNat = n := by
  have hn := n.toNat_lt
  have hmod : ((n.toNat : ℤ) % 2 ^ 64).toNat = n.toNat := by omega
  rw [UInt64.ofInt, hmod, UInt64.ofNat_toNat]

@[simp] theorem ofInt_toInt (n : Int64) : UInt64.ofInt n.toInt = n.toUInt64 := by
  have hn := n.toUInt64.toNat_lt
  have hmod : (n.toInt % 2 ^ 64).toNat = n.toUInt64.toNat := by
    have hint : n.toInt = n.toBitVec.toInt := rfl
    have hnat : n.toUInt64.toNat = n.toBitVec.toNat := rfl
    rw [hint, BitVec.toInt_eq_toNat_cond, hnat]
    split_ifs <;> omega
  rw [UInt64.ofInt, hmod, UInt64.ofNat_toNat]

/-! ## Byte arrays -/

/-- A new `Uint8Array`. -/
def zeros (n : ℕ) : Str :=
  List.replicate n 0

/-- `out.set(bytes, off)`. -/
def set (out bytes : Str) (off : ℕ) : Except Error Str :=
  if off + bytes.length ≤ out.length then
    .ok (out.take off ++ (bytes ++ out.drop (off + bytes.length)))
  else .error .rangeError

theorem set_zeros (bytes : Str) {front : Str} {n : ℕ} (h : bytes.length ≤ n) :
    set (front ++ zeros n) bytes front.length =
      .ok (front ++ bytes ++ zeros (n - bytes.length)) := by
  have hroom : front.length + bytes.length ≤ (front ++ zeros n).length := by
    simp only [List.length_append, zeros, List.length_replicate]
    omega
  have hrest : (front ++ zeros n).drop (front.length + bytes.length) =
      zeros (n - bytes.length) := by
    rw [List.drop_append, List.drop_of_length_le (Nat.le_add_right _ _), List.nil_append, zeros,
      List.drop_replicate, Nat.add_sub_cancel_left, zeros]
  rw [set, if_pos hroom, hrest, List.take_left, List.append_assoc]

/-- An array and the offset of the next write. -/
abbrev Cursor := Str × ℕ

/-- An array of which the front has been written, and `n` bytes have not. -/
def Cursor.at (front : Str) (n : ℕ) : Cursor :=
  (front ++ zeros n, front.length)

/-- Bytes at the offset, which moves by `width`. -/
def write (bytes : Str) (width : ℕ) (c : Cursor) : Except Error Cursor := do
  let out ← set c.1 bytes c.2
  .ok (out, c.2 + width)

/-- **Bytes that fit the field are written behind those in front, with zeros up to its end.** -/
theorem write_at {bytes front : Str} {width n : ℕ} (hbytes : bytes.length ≤ width)
    (hn : width ≤ n) :
    write bytes width (.at front n) =
      .ok (.at (front ++ (bytes ++ zeros (width - bytes.length))) (n - width)) := by
  have hzeros : zeros (n - bytes.length) = zeros (width - bytes.length) ++ zeros (n - width) := by
    rw [zeros, zeros, zeros, ← List.replicate_add]
    congr 1
    omega
  have hlength : front.length + width =
      (front ++ (bytes ++ zeros (width - bytes.length))).length := by
    simp only [List.length_append, zeros, List.length_replicate]
    omega
  rw [write, Cursor.at, set_zeros bytes (hbytes.trans hn), hzeros, Cursor.at, ← hlength]
  simp only [List.append_assoc]
  rfl

theorem write_whole (bytes : Str) {front : Str} {n : ℕ} (h : bytes.length ≤ n) :
    write bytes bytes.length (.at front n) = .ok (.at (front ++ bytes) (n - bytes.length)) := by
  rw [write_at le_rfl h, Nat.sub_self, zeros, List.replicate_zero, List.append_nil]

theorem skip_at {front : Str} {width n : ℕ} (h : width ≤ n) :
    ((Cursor.at front n).1, (Cursor.at front n).2 + width) =
      Cursor.at (front ++ zeros width) (n - width) := by
  simp only [Cursor.at, zeros, List.append_assoc, List.length_append, List.length_replicate,
    ← List.replicate_add, Nat.add_sub_cancel' h]

theorem foldlM_write_at {parts : List Str} (front : Str) {n : ℕ}
    (h : (parts.map List.length).sum ≤ n) :
    parts.foldlM (fun c p => write p p.length c) (.at front n) =
      .ok (.at (front ++ parts.flatten) (n - (parts.map List.length).sum)) := by
  induction parts generalizing front n with
  | nil => simp [pure, Except.pure]
  | cons p parts ih =>
    rw [List.map_cons, List.sum_cons] at h
    rw [List.foldlM_cons, write_whole p (by omega), List.flatten_cons, ← List.append_assoc,
      List.map_cons, List.sum_cons, ← Nat.sub_sub]
    exact ih _ (by omega)

end Js
