import XeLattice.Core.Encoding
import XeLattice.Go.Decimal
import Mathlib.Data.List.DropRight

/-!
# Amounts as text

Amounts are counted in the smallest units of an asset and read and shown in tokens.

* **`toNat_mul64`**: the high word of a product by halves of words;
* **`parseAmount_spelling`**: the reader computes the worth, or reports that it is too large;
* **`amountsExact_iff`**: reading and showing are exact for every asset that has decimals.
-/

set_option autoImplicit false

namespace Xe

/-! ## The conversions -/

/-- `AssetConfig`. -/
structure AssetConfig where
  symbol : Str
  decimals : UInt8
  unitsPerToken : UInt64
  deriving DecidableEq

/-- `AssetXE`. -/
def configXE : AssetConfig :=
  { symbol := assetXE, decimals := 6, unitsPerToken := 1000000 }

/-- `ErrAmountNegative`. -/
def errAmountNegative : GoError :=
  errorf (str "amount must be non-negative")

/-- `ErrAmountFormat`. -/
def errAmountFormat : GoError :=
  errorf (str "amount must be a non-negative decimal")

/-- `ErrAmountPrecision`. -/
def errAmountPrecision : GoError :=
  errorf (str "amount exceeds asset decimal precision")

/-- `ErrAmountOverflow`. -/
def errAmountOverflow : GoError :=
  errorf (str "amount overflows uint64 micro-units")

/-- `allDigits`. -/
def allDigits (s : Str) : Bool :=
  s.all fun c => !(c < 48 || c > 57)

/-- `mul64`: both words of a product. -/
def mul64 (a b : UInt64) : UInt64 × UInt64 :=
  let mask32 : UInt64 := 0xffffffff
  let aLo := a &&& mask32
  let aHi := a >>> 32
  let bLo := b &&& mask32
  let bHi := b >>> 32
  let w0 := aLo * bLo
  let t := aHi * bLo + w0 >>> 32
  let w1 := t &&& mask32
  let w2 := t >>> 32
  let w1 := w1 + aLo * bHi
  (aHi * bHi + w2 + w1 >>> 32, a * b)

/-- `addOverflow64`: a sum, and whether it wrapped. -/
def addOverflow64 (a b : UInt64) : UInt64 × Bool :=
  let sum := a + b
  (sum, sum < a)

/-- `strconv.ParseUint` to base ten. -/
def parseUint (s : Str) : Option UInt64 :=
  if s = [] ∨ ¬Digits s then none
  else if decVal s < 2 ^ 64 then some (UInt64.ofNat (decVal s)) else none

/-- `strconv.FormatUint` to base ten. -/
def formatUint (n : UInt64) : Str :=
  dec n.toNat

/-- An error for a missing value. -/
def orFail {ε α : Type} (o : Option α) (e : ε) : Except ε α :=
  match o with
  | none => .error e
  | some a => .ok a

/-- What stands before and after the first point, and whether there is one. -/
def splitPoint (s : Str) : Str × Str × Bool :=
  match s.idxOf? 46 with
  | none => (s, [], false)
  | some i => (s.take i, s.drop (i + 1), true)

/-- The text of `ErrAmountPrecision` for an asset and a number of digits. -/
def precisionError (asset : AssetConfig) (got : ℕ) : GoError :=
  errorf (errAmountPrecision.msg ++ str ": " ++ asset.symbol ++ str " allows " ++
    dec asset.decimals.toNat ++ str ", got " ++ dec got)

/-- The first half of `ParseAmount`: the digits before and after the point. -/
def amountParts (s : Str) (asset : AssetConfig) : Except GoError (Str × Str) := do
  guardErr (s = []) errAmountFormat
  guardErr (s.head? = some 45) errAmountNegative
  guardErr (s.head? = some 43) errAmountFormat
  guardErr ((splitPoint s).2.2 = true ∧ (splitPoint s).1 = []) errAmountFormat
  guardErr ((splitPoint s).2.2 = true ∧ (splitPoint s).2.1 = []) errAmountFormat
  guardErr ((splitPoint s).2.1.length > asset.decimals.toNat)
    (precisionError asset (splitPoint s).2.1.length)
  guardErr (allDigits (splitPoint s).1 = false ∨ allDigits (splitPoint s).2.1 = false)
    errAmountFormat
  return ((splitPoint s).1, (splitPoint s).2.1)

/-- `frac` with zeros behind it, up to the decimals of the asset. -/
def padRight (decimals : ℕ) (frac : Str) : Str :=
  if frac.length < decimals then frac ++ List.replicate (decimals - frac.length) 48 else frac

/-- The units that the digits after the point are worth. -/
def fractionOf (decimals : ℕ) (frac : Str) : Except GoError UInt64 :=
  if padRight decimals frac = [] then .ok 0
  else orFail (parseUint (padRight decimals frac)) errAmountFormat

/-- The units of whole tokens and of the rest, together. -/
def totalUnits (wholeVal fracVal : UInt64) (asset : AssetConfig) : Except GoError UInt64 := do
  let hi := (mul64 wholeVal asset.unitsPerToken).1
  let lo := (mul64 wholeVal asset.unitsPerToken).2
  guardErr (hi ≠ 0) errAmountOverflow
  guardErr ((addOverflow64 lo fracVal).2 = true) errAmountOverflow
  return (addOverflow64 lo fracVal).1

/-- The second half of `ParseAmount`: the units that the digits are worth. -/
def amountOf (whole frac : Str) (asset : AssetConfig) : Except GoError UInt64 := do
  let wholeVal ← orFail (parseUint whole) errAmountOverflow
  let fracVal ← fractionOf asset.decimals.toNat frac
  totalUnits wholeVal fracVal asset

/-- `ParseAmount`. -/
def parseAmount (s : Str) (asset : AssetConfig) : Except GoError UInt64 := do
  let (whole, frac) ← amountParts s asset
  amountOf whole frac asset

/-- `frac` with zeros before it, up to the decimals of the asset. -/
def padLeft (decimals : ℕ) (frac : Str) : Str :=
  if frac.length < decimals then List.replicate (decimals - frac.length) 48 ++ frac else frac

/-- `strings.TrimRight(s, "0")`. -/
def trimRightZeros (s : Str) : Str :=
  s.rdropWhile (· == 48)

/-- `FormatAmount`. -/
def formatAmount (micro : UInt64) (asset : AssetConfig) : Str :=
  let whole := micro / asset.unitsPerToken
  let frac := micro % asset.unitsPerToken
  if frac = 0 then formatUint whole
  else
    let fracStr := padLeft asset.decimals.toNat (formatUint frac)
    formatUint whole ++ str "." ++ trimRightZeros fracStr

/-- `FormatAmountFixed`. -/
def formatAmountFixed (micro : UInt64) (asset : AssetConfig) : Str :=
  let whole := micro / asset.unitsPerToken
  let frac := micro % asset.unitsPerToken
  formatUint whole ++ str "." ++ padLeft asset.decimals.toNat (formatUint frac)

/-! ## What a text is worth -/

/-- Digits, and behind a point more digits unless there are none. -/
def spelling (whole frac : Str) : Str :=
  whole ++ if frac = [] then [] else 46 :: frac

/-- The parts of a spelling: digits before the point, and at most `decimals` digits after it. -/
structure Parts (decimals : ℕ) (whole frac : Str) : Prop where
  ne_nil : whole ≠ []
  before : Digits whole
  after : Digits frac
  le : frac.length ≤ decimals

/-- The exact worth in units of a token's `10 ^ decimals`-th part. -/
def worth (decimals : ℕ) (whole frac : Str) : ℕ :=
  decVal whole * 10 ^ decimals + decVal frac * 10 ^ (decimals - frac.length)

/-- **The text spells the number of units.** -/
def Spells (decimals : ℕ) (s : Str) (v : ℕ) : Prop :=
  ∃ whole frac, Parts decimals whole frac ∧ s = spelling whole frac ∧ v = worth decimals whole frac

/-- No zero in front of another digit. -/
def NoLeadingZero (s : Str) : Prop :=
  ∀ c rest, s = 48 :: c :: rest → c = 46

/-- **Reading and showing amounts of an asset is exact.** -/
structure AmountsExact (asset : AssetConfig) : Prop where
  accepts : ∀ s x, parseAmount s asset = .ok x ↔ Spells asset.decimals.toNat s x.toNat
  overflows : ∀ s, parseAmount s asset = .error errAmountOverflow ↔
    ∃ v, 2 ^ 64 ≤ v ∧ Spells asset.decimals.toNat s v
  formatted : ∀ x, parseAmount (formatAmount x asset) asset = .ok x
  fixed : ∀ x, parseAmount (formatAmountFixed x asset) asset = .ok x
  plain : ∀ x, NoLeadingZero (formatAmount x asset)
  shortest : ∀ s x, parseAmount s asset = .ok x → s ≠ formatAmount x asset →
    (formatAmount x asset).length < s.length

/-! ## Words -/

theorem toNat_and_mask32 (a : UInt64) : (a &&& 0xffffffff).toNat = a.toNat % 2 ^ 32 := by
  rw [UInt64.toNat_and]
  exact Nat.and_two_pow_sub_one_eq_mod a.toNat 32

theorem toNat_shiftRight32 (a : UInt64) : (a >>> 32).toNat = a.toNat / 2 ^ 32 := by
  rw [UInt64.toNat_shiftRight]
  exact Nat.shiftRight_eq_div_pow a.toNat 32

theorem half_mul_lt {a b : ℕ} (ha : a < 2 ^ 32) (hb : b < 2 ^ 32) :
    a * b ≤ (2 ^ 32 - 1) * (2 ^ 32 - 1) :=
  Nat.mul_le_mul (by omega) (by omega)

/-- **The high word of a product by halves of words.** -/
theorem toNat_mul64 (a b : UInt64) : (mul64 a b).1.toNat = a.toNat * b.toNat / 2 ^ 64 := by
  have ha := a.toNat_lt
  have hb := b.toNat_lt
  simp only [mul64, UInt64.toNat_add, UInt64.toNat_mul, toNat_and_mask32, toNat_shiftRight32]
  generalize a.toNat = m at ha ⊢
  generalize b.toNat = n at hb ⊢
  have hm : m = m / 2 ^ 32 * 2 ^ 32 + m % 2 ^ 32 := by omega
  have hn : n = n / 2 ^ 32 * 2 ^ 32 + n % 2 ^ 32 := by omega
  have h1 : m / 2 ^ 32 < 2 ^ 32 := by omega
  have h2 : n / 2 ^ 32 < 2 ^ 32 := by omega
  have h3 : m % 2 ^ 32 < 2 ^ 32 := by omega
  have h4 : n % 2 ^ 32 < 2 ^ 32 := by omega
  have hprod : m * n = m / 2 ^ 32 * (n / 2 ^ 32) * 2 ^ 64 +
      (m / 2 ^ 32 * (n % 2 ^ 32) + m % 2 ^ 32 * (n / 2 ^ 32)) * 2 ^ 32 +
        m % 2 ^ 32 * (n % 2 ^ 32) := by
    conv_lhs => rw [hm, hn]
    ring
  have hhh := half_mul_lt h1 h2
  have hhl := half_mul_lt h1 h4
  have hlh := half_mul_lt h3 h2
  have hll := half_mul_lt h3 h4
  rw [hprod]
  generalize m / 2 ^ 32 * (n / 2 ^ 32) = hh at hhh ⊢
  generalize m / 2 ^ 32 * (n % 2 ^ 32) = hl at hhl ⊢
  generalize m % 2 ^ 32 * (n / 2 ^ 32) = lh at hlh ⊢
  generalize m % 2 ^ 32 * (n % 2 ^ 32) = ll at hll ⊢
  omega

theorem addOverflow64_iff (a b : UInt64) :
    (addOverflow64 a b).2 = true ↔ 2 ^ 64 ≤ a.toNat + b.toNat := by
  have ha := a.toNat_lt
  have hb := b.toNat_lt
  simp only [addOverflow64, decide_eq_true_eq, UInt64.lt_iff_toNat_lt, UInt64.toNat_add]
  omega

/-! ## Digits after the point -/

section Fractions

variable {decimals : ℕ} {frac : Str}

theorem digits_padRight (h : Digits frac) : Digits (padRight decimals frac) := by
  unfold padRight
  split_ifs
  · exact h.append (digits_replicate_zero _)
  · exact h

theorem length_padRight (h : frac.length ≤ decimals) :
    (padRight decimals frac).length = decimals := by
  unfold padRight
  split_ifs
  · rw [List.length_append, List.length_replicate]
    omega
  · omega

theorem decVal_padRight (h : frac.length ≤ decimals) :
    decVal (padRight decimals frac) = decVal frac * 10 ^ (decimals - frac.length) := by
  unfold padRight
  split_ifs with hlt
  · rw [decVal_append, decVal_replicate_zero, List.length_replicate, Nat.add_zero]
  · rw [show decimals - frac.length = 0 by omega, pow_zero, Nat.mul_one]

theorem digits_padLeft (h : Digits frac) : Digits (padLeft decimals frac) := by
  unfold padLeft
  split_ifs
  · exact (digits_replicate_zero _).append h
  · exact h

theorem length_padLeft (h : frac.length ≤ decimals) :
    (padLeft decimals frac).length = decimals := by
  unfold padLeft
  split_ifs
  · rw [List.length_append, List.length_replicate]
    omega
  · omega

theorem decVal_padLeft : decVal (padLeft decimals frac) = decVal frac := by
  unfold padLeft
  split_ifs
  · rw [decVal_append, decVal_replicate_zero, Nat.zero_mul, Nat.zero_add]
  · rfl

theorem trimRightZeros_append_replicate (k : ℕ) :
    trimRightZeros (frac ++ List.replicate k 48) = trimRightZeros frac := by
  induction k with
  | zero => simp
  | succ k ih =>
    rw [List.replicate_succ', ← List.append_assoc]
    exact (List.rdropWhile_concat_pos _ _ _ rfl).trans ih

theorem trimRightZeros_padRight (decimals : ℕ) (frac : Str) :
    trimRightZeros (padRight decimals frac) = trimRightZeros frac := by
  unfold padRight
  split_ifs
  · exact trimRightZeros_append_replicate _
  · rfl

theorem exists_eq_trimRightZeros_append (s : Str) :
    ∃ k, s = trimRightZeros s ++ List.replicate k 48 := by
  induction s using List.reverseRecOn with
  | nil => exact ⟨0, rfl⟩
  | append_singleton s c ih =>
    by_cases hc : c = 48
    · obtain ⟨k, hk⟩ := ih
      refine ⟨k + 1, ?_⟩
      rw [hc, show trimRightZeros (s ++ [48]) = trimRightZeros s from
        List.rdropWhile_concat_pos _ _ _ rfl, List.replicate_succ', ← List.append_assoc, ← hk]
    · refine ⟨0, ?_⟩
      rw [show trimRightZeros (s ++ [c]) = s ++ [c] from
        List.rdropWhile_concat_neg _ _ _ (by simpa using hc), List.replicate_zero, List.append_nil]

theorem digits_trimRightZeros (h : Digits frac) : Digits (trimRightZeros frac) := by
  obtain ⟨k, hk⟩ := exists_eq_trimRightZeros_append frac
  rw [hk] at h
  exact h.left

theorem length_trimRightZeros_le (s : Str) : (trimRightZeros s).length ≤ s.length := by
  obtain ⟨k, hk⟩ := exists_eq_trimRightZeros_append s
  have hlen := congrArg List.length hk
  rw [List.length_append] at hlen
  omega

theorem length_trimRightZeros_lt {s : Str} (h : s ≠ trimRightZeros s) :
    (trimRightZeros s).length < s.length := by
  obtain ⟨k, hk⟩ := exists_eq_trimRightZeros_append s
  have hlen := congrArg List.length hk
  rw [List.length_append, List.length_replicate] at hlen
  have hk0 : k ≠ 0 := by
    rintro rfl
    exact h (hk.trans (List.append_nil _))
  omega

theorem decVal_trimRightZeros (h : frac.length = decimals) :
    decVal (trimRightZeros frac) * 10 ^ (decimals - (trimRightZeros frac).length) =
      decVal frac := by
  obtain ⟨k, hk⟩ := exists_eq_trimRightZeros_append frac
  have hlen := congrArg List.length hk
  rw [List.length_append, List.length_replicate] at hlen
  have hval := congrArg decVal hk
  rw [decVal_append, decVal_replicate_zero, List.length_replicate, Nat.add_zero] at hval
  rw [hval, show decimals - (trimRightZeros frac).length = k by omega]

end Fractions

/-! ## Reading -/

theorem bind_eq_error {ε α β : Type} {x : Except ε α} {f : α → Except ε β} {e : ε} :
    (x >>= f) = .error e ↔ x = .error e ∨ ∃ a, x = .ok a ∧ f a = .error e := by
  cases x with
  | error e' =>
    constructor
    · intro h
      cases h
      exact .inl rfl
    · rintro (h | ⟨a, h, -⟩) <;> cases h
      rfl
  | ok a =>
    constructor
    · intro h
      exact .inr ⟨a, rfl, h⟩
    · rintro (h | ⟨_, h, hf⟩) <;> cases h
      exact hf

theorem guardErr_eq_error {ε : Type} {c : Prop} [Decidable c] {e e' : ε} :
    guardErr c e = .error e' ↔ c ∧ e = e' := by
  unfold guardErr
  split_ifs with h <;> simp [h]

theorem allDigits_iff {s : Str} : allDigits s = true ↔ Digits s := by
  simp only [allDigits, Digits, List.all_eq_true, Bool.not_eq_true', Bool.or_eq_false_iff,
    decide_eq_false_iff_not, UInt8.not_lt, gt_iff_lt]

theorem splitPoint_cases (s : Str) :
    splitPoint s = (s, [], false) ∨
      ∃ whole frac, s = whole ++ 46 :: frac ∧ splitPoint s = (whole, frac, true) := by
  unfold splitPoint
  split
  · exact .inl rfl
  · rename_i i hi
    obtain ⟨hlt, hget, -⟩ := List.idxOf?_eq_some_iff.mp hi
    have hdrop : s.drop i = 46 :: s.drop (i + 1) := by rw [List.drop_eq_getElem_cons hlt, hget]
    exact .inr ⟨_, _, by rw [← hdrop, List.take_append_drop], rfl⟩

theorem point_not_digit {s : Str} (h : Digits s) : (46 : UInt8) ∉ s := fun hmem =>
  absurd (h 46 hmem) (by decide)

theorem splitPoint_spelling {whole frac : Str} (h : Digits whole) :
    splitPoint (spelling whole frac) = (whole, frac, !frac.isEmpty) := by
  have hnot := point_not_digit h
  unfold splitPoint spelling
  split_ifs with hf
  · rw [List.append_nil, List.idxOf?_eq_none_iff.mpr hnot, hf]
    rfl
  · have hidx : (whole ++ 46 :: frac).idxOf? 46 = some whole.length := by
      have hnone : whole.findIdx? (· == 46) = none := List.idxOf?_eq_none_iff.mpr hnot
      rw [List.idxOf?, List.findIdx?_append, hnone, List.findIdx?_cons]
      simp
    rw [hidx]
    simp [hf]

theorem amountParts_eq_ok {s whole frac : Str} {asset : AssetConfig} :
    amountParts s asset = .ok (whole, frac) ↔
      Parts asset.decimals.toNat whole frac ∧ s = spelling whole frac := by
  unfold amountParts
  simp only [bind_eq_ok, guardErr_eq_ok, exists_const, not_and, not_or,
    Bool.not_eq_false, allDigits_iff]
  constructor
  · rintro ⟨hne, -, -, hwhole, hfrac, hle, ⟨hdw, hdf⟩, heq⟩
    obtain ⟨rfl, rfl⟩ := Prod.mk.inj (Except.ok.inj heq)
    rcases splitPoint_cases s with hs | ⟨w, f, hsplit, hs⟩ <;>
      rw [hs] at hwhole hfrac hle hdw hdf ⊢
    · exact ⟨⟨hne, hdw, hdf, Nat.zero_le _⟩, (List.append_nil s).symm⟩
    · have hf : f ≠ [] := hfrac rfl
      exact ⟨⟨hwhole rfl, hdw, hdf, Nat.not_lt.mp hle⟩, by rw [spelling, if_neg hf, hsplit]⟩
  · rintro ⟨hp, rfl⟩
    -- A digit comes first, neither of the signs.
    obtain ⟨c, rest, hw⟩ := List.exists_cons_of_ne_nil hp.ne_nil
    have hc : 48 ≤ c ∧ c ≤ 57 := hp.before c (by rw [hw]; exact List.mem_cons_self)
    have hhead : (spelling whole frac).head? = some c := by rw [hw]; rfl
    rw [splitPoint_spelling hp.before, hhead]
    refine ⟨?_, ?_, ?_, ?_, ?_, Nat.not_lt.mpr hp.le, ⟨hp.before, hp.after⟩, rfl⟩
    · rw [hw]
      exact List.cons_ne_nil _ _
    · rintro h
      cases h
      exact absurd hc.1 (by decide)
    · rintro h
      cases h
      exact absurd hc.1 (by decide)
    · exact fun _ => hp.ne_nil
    · intro h hnil
      obtain rfl : frac = [] := hnil
      cases h

theorem amountParts_ne_overflow {s : Str} {asset : AssetConfig} :
    amountParts s asset ≠ .error errAmountOverflow := by
  have hformat : errAmountFormat ≠ errAmountOverflow := by decide
  have hnegative : errAmountNegative ≠ errAmountOverflow := by decide
  have hprecision : ∀ n, precisionError asset n ≠ errAmountOverflow := by
    intro n h
    have hmsg := congrArg (fun e : GoError => e.msg.take 8) h
    simp only [precisionError, errorf, List.append_assoc] at hmsg
    rw [List.take_append_of_le_length (by decide)] at hmsg
    exact absurd hmsg (by decide)
  unfold amountParts
  simp only [ne_eq, bind_eq_error, guardErr_eq_error, hformat, hnegative, hprecision, and_false,
    false_or, guardErr_eq_ok, exists_const, not_and]
  intros
  exact fun h => Except.noConfusion rfl rfl (heq_of_eq h)

section Reader

variable {asset : AssetConfig} {whole frac s : Str} {x : UInt64}

theorem fraction_lt {decimals : ℕ} (h : Parts decimals whole frac) :
    decVal frac * 10 ^ (decimals - frac.length) < 10 ^ decimals := by
  have hdigits : Digits (padRight decimals frac) := digits_padRight h.after
  have hlt := decVal_lt hdigits
  rwa [length_padRight h.le, decVal_padRight h.le] at hlt

theorem fractionOf_parts (hdec : asset.decimals ≤ 19)
    (h : Parts asset.decimals.toNat whole frac) :
    ∃ f : UInt64, fractionOf asset.decimals.toNat frac = .ok f ∧
      f.toNat = decVal frac * 10 ^ (asset.decimals.toNat - frac.length) := by
  have hval := decVal_padRight h.le
  have hdigits : Digits (padRight asset.decimals.toNat frac) := digits_padRight h.after
  rw [← hval]
  unfold fractionOf
  by_cases hnil : padRight asset.decimals.toNat frac = []
  · exact ⟨0, if_pos hnil, by rw [hnil]; rfl⟩
  · have hpow : 10 ^ asset.decimals.toNat ≤ 10 ^ 19 :=
      Nat.pow_le_pow_right (by omega) (UInt8.le_iff_toNat_le.mp hdec)
    have hlt : decVal (padRight asset.decimals.toNat frac) < 2 ^ 64 := by
      have := fraction_lt h
      omega
    refine ⟨_, ?_, UInt64.toNat_ofNat_of_lt' hlt⟩
    rw [if_neg hnil, parseUint, if_neg (by simp [hnil, hdigits]), if_pos hlt]
    rfl

theorem totalUnits_eq (asset : AssetConfig) (w f : UInt64) :
    totalUnits w f asset =
      if w.toNat * asset.unitsPerToken.toNat + f.toNat < 2 ^ 64 then
        .ok (UInt64.ofNat (w.toNat * asset.unitsPerToken.toNat + f.toNat))
      else .error errAmountOverflow := by
  have hhigh := toNat_mul64 w asset.unitsPerToken
  have hlow : (mul64 w asset.unitsPerToken).2.toNat =
      w.toNat * asset.unitsPerToken.toNat % 2 ^ 64 := UInt64.toNat_mul w asset.unitsPerToken
  have hcarry := addOverflow64_iff (mul64 w asset.unitsPerToken).2 f
  unfold totalUnits
  dsimp only
  by_cases hhi : (mul64 w asset.unitsPerToken).1 = 0
  · rw [hhi] at hhigh
    have hfit : w.toNat * asset.unitsPerToken.toNat < 2 ^ 64 := by
      have : (0 : UInt64).toNat = 0 := rfl
      omega
    rw [Nat.mod_eq_of_lt hfit] at hlow
    rw [hlow] at hcarry
    by_cases hc : (addOverflow64 (mul64 w asset.unitsPerToken).2 f).2 = true
    · have hge := hcarry.mp hc
      rw [guardErr, if_neg (not_not.mpr hhi), guardErr, if_pos hc, if_neg (by omega)]
      rfl
    · have hlt : w.toNat * asset.unitsPerToken.toNat + f.toNat < 2 ^ 64 := by
        have := mt hcarry.mpr hc
        omega
      rw [guardErr, if_neg (not_not.mpr hhi), guardErr, if_neg hc, if_pos hlt]
      refine congrArg Except.ok (UInt64.toNat_inj.mp ?_)
      rw [UInt64.toNat_ofNat_of_lt' hlt]
      show ((mul64 w asset.unitsPerToken).2 + f).toNat = _
      rw [UInt64.toNat_add, hlow, Nat.mod_eq_of_lt hlt]
  · have hpos : (mul64 w asset.unitsPerToken).1.toNat ≠ 0 := fun h0 =>
      hhi (UInt64.toNat_inj.mp h0)
    rw [guardErr, if_pos hhi, if_neg (by omega)]
    rfl

/-- **The second half of the reader computes the worth, or reports that it is too large.** -/
theorem amountOf_parts (hunits : asset.unitsPerToken.toNat = 10 ^ asset.decimals.toNat)
    (hdec : asset.decimals ≤ 19) (h : Parts asset.decimals.toNat whole frac) :
    amountOf whole frac asset =
      if worth asset.decimals.toNat whole frac < 2 ^ 64 then
        .ok (UInt64.ofNat (worth asset.decimals.toNat whole frac))
      else .error errAmountOverflow := by
  obtain ⟨f, hread, hf⟩ := fractionOf_parts hdec h
  unfold amountOf
  rw [worth, ← hf, parseUint, if_neg (by simp [h.ne_nil, h.before]), hread]
  by_cases hw : decVal whole < 2 ^ 64
  · have htotal := totalUnits_eq asset (UInt64.ofNat (decVal whole)) f
    rw [UInt64.toNat_ofNat_of_lt' hw, hunits] at htotal
    rw [if_pos hw, ← htotal]
    rfl
  · have hpos : 0 < 10 ^ asset.decimals.toNat := Nat.pow_pos (by omega)
    have hle : decVal whole ≤ decVal whole * 10 ^ asset.decimals.toNat :=
      Nat.le_mul_of_pos_right _ hpos
    rw [if_neg hw, if_neg (by omega)]
    rfl

/-- **The reader on a spelling.** -/
theorem parseAmount_spelling (hunits : asset.unitsPerToken.toNat = 10 ^ asset.decimals.toNat)
    (hdec : asset.decimals ≤ 19) (h : Parts asset.decimals.toNat whole frac) :
    parseAmount (spelling whole frac) asset =
      if worth asset.decimals.toNat whole frac < 2 ^ 64 then
        .ok (UInt64.ofNat (worth asset.decimals.toNat whole frac))
      else .error errAmountOverflow := by
  rw [parseAmount, amountParts_eq_ok.mpr ⟨h, rfl⟩]
  exact amountOf_parts hunits hdec h

theorem parseAmount_eq_ok (hunits : asset.unitsPerToken.toNat = 10 ^ asset.decimals.toNat)
    (hdec : asset.decimals ≤ 19) :
    parseAmount s asset = .ok x ↔ Spells asset.decimals.toNat s x.toNat := by
  constructor
  · intro h
    obtain ⟨⟨whole, frac⟩, hparts, -⟩ := bind_eq_ok.mp h
    obtain ⟨hp, rfl⟩ := amountParts_eq_ok.mp hparts
    rw [parseAmount_spelling hunits hdec hp] at h
    split_ifs at h with hlt
    cases h
    exact ⟨whole, frac, hp, rfl, UInt64.toNat_ofNat_of_lt' hlt⟩
  · rintro ⟨whole, frac, hp, rfl, hx⟩
    rw [parseAmount_spelling hunits hdec hp, ← hx, if_pos x.toNat_lt, UInt64.ofNat_toNat]

theorem parseAmount_eq_overflow (hunits : asset.unitsPerToken.toNat = 10 ^ asset.decimals.toNat)
    (hdec : asset.decimals ≤ 19) :
    parseAmount s asset = .error errAmountOverflow ↔
      ∃ v, 2 ^ 64 ≤ v ∧ Spells asset.decimals.toNat s v := by
  constructor
  · intro h
    rcases bind_eq_error.mp h with hparts | ⟨⟨whole, frac⟩, hparts, -⟩
    · exact absurd hparts amountParts_ne_overflow
    · obtain ⟨hp, rfl⟩ := amountParts_eq_ok.mp hparts
      rw [parseAmount_spelling hunits hdec hp] at h
      split_ifs at h with hlt
      exact ⟨_, Nat.not_lt.mp hlt, whole, frac, hp, rfl, rfl⟩
  · rintro ⟨v, hv, whole, frac, hp, rfl, rfl⟩
    rw [parseAmount_spelling hunits hdec hp, if_neg (Nat.not_lt.mpr hv)]

end Reader

/-! ## Showing -/

section Writer

variable {asset : AssetConfig} {whole frac s : Str} {x : UInt64}

theorem str_point : str "." = [46] := by decide

/-- The digits after the point that a number of units shows. -/
def shownFrac (x : UInt64) (asset : AssetConfig) : Str :=
  padLeft asset.decimals.toNat (formatUint (x % asset.unitsPerToken))

theorem digits_shownFrac (x : UInt64) (asset : AssetConfig) : Digits (shownFrac x asset) :=
  digits_padLeft (digits_dec _)

theorem decVal_shownFrac (x : UInt64) (asset : AssetConfig) :
    decVal (shownFrac x asset) = (x % asset.unitsPerToken).toNat := by
  rw [shownFrac, decVal_padLeft, formatUint, decVal_dec]

theorem length_shownFrac (hunits : asset.unitsPerToken.toNat = 10 ^ asset.decimals.toNat)
    (hpos : asset.decimals ≠ 0) (x : UInt64) :
    (shownFrac x asset).length = asset.decimals.toNat := by
  have hone : 1 ≤ asset.decimals.toNat :=
    Nat.pos_of_ne_zero fun h0 => hpos (UInt8.toNat_inj.mp h0)
  have hrest : (x % asset.unitsPerToken).toNat < 10 ^ asset.decimals.toNat := by
    rw [UInt64.toNat_mod, hunits]
    exact Nat.mod_lt _ (Nat.pow_pos (by omega))
  exact length_padLeft (length_dec_le hone hrest)

theorem decVal_shownFrac_zero (hunits : asset.unitsPerToken.toNat = 10 ^ asset.decimals.toNat)
    (hdec : asset.decimals = 0) (x : UInt64) : decVal (shownFrac x asset) = 0 := by
  rw [decVal_shownFrac, UInt64.toNat_mod, hunits, hdec]
  exact Nat.mod_one _

theorem trimRightZeros_eq_nil (hs : Digits s) (h : decVal s = 0) : trimRightZeros s = [] := by
  have hzeros : s = List.replicate s.length 48 :=
    eq_of_decVal hs (digits_replicate_zero _) (by simp) (by rw [h, decVal_replicate_zero])
  rw [hzeros, ← List.nil_append (List.replicate _ _), trimRightZeros_append_replicate]
  rfl

theorem formatAmount_eq (x : UInt64) (asset : AssetConfig) :
    formatAmount x asset =
      spelling (dec (x / asset.unitsPerToken).toNat) (trimRightZeros (shownFrac x asset)) := by
  have hval := decVal_shownFrac x asset
  unfold formatAmount
  dsimp only
  split_ifs with hfrac
  · rw [hfrac] at hval
    rw [trimRightZeros_eq_nil (digits_shownFrac x asset) hval, spelling, if_pos rfl,
      List.append_nil, formatUint]
  · have hne : trimRightZeros (shownFrac x asset) ≠ [] := by
      intro hnil
      obtain ⟨k, hk⟩ := exists_eq_trimRightZeros_append (shownFrac x asset)
      rw [hk, hnil, List.nil_append, decVal_replicate_zero] at hval
      exact hfrac (UInt64.toNat_inj.mp hval.symm)
    rw [spelling, if_neg hne, str_point, List.append_assoc]
    rfl

theorem parts_of_worth (h : Parts asset.decimals.toNat whole frac)
    (hx : x.toNat = worth asset.decimals.toNat whole frac) :
    decVal whole = x.toNat / 10 ^ asset.decimals.toNat ∧
      decVal (padRight asset.decimals.toNat frac) = x.toNat % 10 ^ asset.decimals.toNat := by
  have hlt := fraction_lt h
  have hpos : 0 < 10 ^ asset.decimals.toNat := Nat.pow_pos (by omega)
  rw [decVal_padRight h.le, hx, worth]
  constructor
  · rw [Nat.mul_comm (decVal whole), Nat.mul_add_div hpos, Nat.div_eq_of_lt hlt, Nat.add_zero]
  · rw [Nat.mul_comm (decVal whole), Nat.mul_add_mod, Nat.mod_eq_of_lt hlt]

theorem parts_formatAmount (hunits : asset.unitsPerToken.toNat = 10 ^ asset.decimals.toNat)
    (x : UInt64) :
    Parts asset.decimals.toNat (dec (x / asset.unitsPerToken).toNat)
        (trimRightZeros (shownFrac x asset)) ∧
      x.toNat = worth asset.decimals.toNat (dec (x / asset.unitsPerToken).toNat)
        (trimRightZeros (shownFrac x asset)) := by
  have hwhole : (x / asset.unitsPerToken).toNat = x.toNat / 10 ^ asset.decimals.toNat := by
    rw [UInt64.toNat_div, hunits]
  by_cases hdec : asset.decimals = 0
  · -- Without decimals the rest is zero and nothing is shown of it.
    have hzero : asset.decimals.toNat = 0 := by rw [hdec]; rfl
    have hval := decVal_shownFrac_zero hunits hdec x
    rw [trimRightZeros_eq_nil (digits_shownFrac x asset) hval, hwhole, hzero, pow_zero, Nat.div_one]
    refine ⟨⟨dec_ne_nil _, digits_dec _, fun c hc => absurd hc List.not_mem_nil, Nat.le_refl 0⟩, ?_⟩
    simp [worth]
  · have hlen := length_shownFrac hunits hdec x
    have hle := length_trimRightZeros_le (shownFrac x asset)
    refine ⟨⟨dec_ne_nil _, digits_dec _, digits_trimRightZeros (digits_shownFrac x asset),
      by omega⟩, ?_⟩
    rw [worth, decVal_dec, decVal_trimRightZeros hlen, decVal_shownFrac, UInt64.toNat_mod, hwhole,
      hunits, Nat.div_add_mod']

/-- **What is shown reads back.** -/
theorem parse_formatAmount (hunits : asset.unitsPerToken.toNat = 10 ^ asset.decimals.toNat)
    (hdec : asset.decimals ≤ 19) (x : UInt64) :
    parseAmount (formatAmount x asset) asset = .ok x := by
  obtain ⟨hp, hx⟩ := parts_formatAmount hunits x
  exact (parseAmount_eq_ok hunits hdec).mpr ⟨_, _, hp, formatAmount_eq x asset, hx⟩

theorem parse_formatAmountFixed (hunits : asset.unitsPerToken.toNat = 10 ^ asset.decimals.toNat)
    (hdec : asset.decimals ≤ 19) (hpos : asset.decimals ≠ 0) (x : UInt64) :
    parseAmount (formatAmountFixed x asset) asset = .ok x := by
  have hlen := length_shownFrac hunits hpos x
  have hne : shownFrac x asset ≠ [] := by
    intro hnil
    rw [hnil] at hlen
    exact hpos (UInt8.toNat_inj.mp hlen.symm)
  refine (parseAmount_eq_ok hunits hdec).mpr ⟨dec (x / asset.unitsPerToken).toNat,
    shownFrac x asset, ⟨dec_ne_nil _, digits_dec _, digits_shownFrac x asset, hlen.le⟩, ?_, ?_⟩
  · rw [spelling, if_neg hne, formatAmountFixed, str_point, List.append_assoc]
    rfl
  · rw [worth, decVal_dec, hlen, Nat.sub_self, pow_zero, Nat.mul_one, decVal_shownFrac,
      UInt64.toNat_div, UInt64.toNat_mod, hunits, Nat.div_add_mod']

theorem parse_formatAmountFixed_zero (hdec : asset.decimals = 0) (x : UInt64) :
    parseAmount (formatAmountFixed x asset) asset ≠ .ok x := by
  intro h
  obtain ⟨⟨whole, frac⟩, hparts, -⟩ := bind_eq_ok.mp h
  obtain ⟨hp, hs⟩ := amountParts_eq_ok.mp hparts
  have hnil : frac = [] := by
    have hle := hp.le
    rw [hdec] at hle
    exact List.eq_nil_of_length_eq_zero (Nat.le_zero.mp hle)
  -- The text has a point, and a spelling without decimals has none.
  rw [hnil, spelling, if_pos rfl, List.append_nil] at hs
  refine point_not_digit hp.before (hs ▸ ?_)
  rw [formatAmountFixed, str_point]
  simp

theorem noLeadingZero_formatAmount (x : UInt64) : NoLeadingZero (formatAmount x asset) := by
  intro c rest h
  rw [formatAmount_eq, spelling] at h
  rcases hd : dec (x / asset.unitsPerToken).toNat with _ | ⟨d, _ | ⟨e, tail⟩⟩
  · exact absurd hd (dec_ne_nil _)
  · rw [hd] at h
    split_ifs at h
    · simp at h
    · simp only [List.singleton_append, List.cons.injEq] at h
      exact h.2.1.symm
  · rw [hd] at h
    obtain rfl : d = 48 := (List.cons.inj h).1
    exact (dec_head hd).elim

theorem trimRightZeros_shownFrac (hunits : asset.unitsPerToken.toNat = 10 ^ asset.decimals.toNat)
    (h : Parts asset.decimals.toNat whole frac)
    (hx : x.toNat = worth asset.decimals.toNat whole frac) :
    trimRightZeros (shownFrac x asset) = trimRightZeros frac := by
  obtain ⟨-, hrest⟩ := parts_of_worth h hx
  rw [← trimRightZeros_padRight asset.decimals.toNat frac]
  by_cases hdec : asset.decimals = 0
  · have hzero : decVal (padRight asset.decimals.toNat frac) = 0 := by
      rw [hrest, hdec]
      exact Nat.mod_one _
    rw [trimRightZeros_eq_nil (digits_shownFrac x asset) (decVal_shownFrac_zero hunits hdec x),
      trimRightZeros_eq_nil (digits_padRight h.after) hzero]
  · have hlen := (length_shownFrac hunits hdec x).trans (length_padRight h.le).symm
    have hval : decVal (shownFrac x asset) = decVal (padRight asset.decimals.toNat frac) := by
      rw [decVal_shownFrac, UInt64.toNat_mod, hunits, hrest]
    rw [eq_of_decVal (digits_shownFrac x asset) (digits_padRight h.after) hlen hval]

theorem length_spelling (whole frac : Str) :
    (spelling whole frac).length = whole.length + if frac = [] then 0 else frac.length + 1 := by
  unfold spelling
  split_ifs <;> simp

/-- **What is shown is the only shortest spelling.** -/
theorem length_formatAmount_lt (hunits : asset.unitsPerToken.toNat = 10 ^ asset.decimals.toNat)
    (h : Parts asset.decimals.toNat whole frac)
    (hx : x.toNat = worth asset.decimals.toNat whole frac)
    (hne : spelling whole frac ≠ formatAmount x asset) :
    (formatAmount x asset).length < (spelling whole frac).length := by
  obtain ⟨hwhole, -⟩ := parts_of_worth h hx
  have hdec : (x / asset.unitsPerToken).toNat = decVal whole := by
    rw [UInt64.toNat_div, hunits, hwhole]
  rw [formatAmount_eq, hdec, trimRightZeros_shownFrac hunits h hx] at hne ⊢
  rw [length_spelling, length_spelling]
  have hle := length_dec_decVal_le h.before h.ne_nil
  by_cases hf : frac = trimRightZeros frac
  · have hw : whole ≠ dec (decVal whole) := by
      intro hw
      exact hne (by rw [← hw, ← hf])
    have hlt := length_dec_lt h.before h.ne_nil hw
    rw [← hf]
    omega
  · have hlt := length_trimRightZeros_lt hf
    have hcons : frac ≠ [] := by
      rintro rfl
      exact hf rfl
    rw [if_neg hcons]
    split_ifs <;> omega

end Writer

/-! ## Exactness -/

/-- **Reading and showing amounts is exact for the assets that have decimals.** -/
theorem amountsExact_iff (asset : AssetConfig)
    (hunits : asset.unitsPerToken.toNat = 10 ^ asset.decimals.toNat)
    (hdec : asset.decimals ≤ 19) : AmountsExact asset ↔ 1 ≤ asset.decimals := by
  have hne : 1 ≤ asset.decimals ↔ asset.decimals ≠ 0 := by
    rw [UInt8.le_iff_toNat_le, ne_eq, ← UInt8.toNat_inj]
    exact Nat.one_le_iff_ne_zero
  rw [hne]
  constructor
  · intro h h0
    exact parse_formatAmountFixed_zero h0 0 (h.fixed 0)
  · intro hpos
    exact {
      accepts := fun s x => parseAmount_eq_ok hunits hdec
      overflows := fun s => parseAmount_eq_overflow hunits hdec
      formatted := parse_formatAmount hunits hdec
      fixed := parse_formatAmountFixed hunits hdec hpos
      plain := noLeadingZero_formatAmount
      shortest := by
        intro s x hs hdiff
        obtain ⟨whole, frac, hp, rfl, hx⟩ := (parseAmount_eq_ok hunits hdec).mp hs
        exact length_formatAmount_lt hunits hp hx hdiff }

theorem amountsExact_configXE : 1 ≤ configXE.decimals ∧ AmountsExact configXE :=
  ⟨by decide, (amountsExact_iff configXE rfl (by decide)).mpr (by decide)⟩

/-- An asset without decimals. -/
def indivisible : AssetConfig :=
  { symbol := str "ONE", decimals := 0, unitsPerToken := 1 }

/-- Five tokens of it are shown as `5.0`, which is not accepted. -/
theorem parse_fixed_indivisible :
    indivisible.unitsPerToken.toNat = 10 ^ indivisible.decimals.toNat ∧
      indivisible.decimals ≤ 19 ∧ formatAmountFixed 5 indivisible = str "5.0" ∧
      parseAmount (formatAmountFixed 5 indivisible) indivisible =
        .error (precisionError indivisible 1) := by
  decide

end Xe
