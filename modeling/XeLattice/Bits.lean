import XeLattice.Go.Bytes
import Mathlib.Data.Nat.Bitwise
import Mathlib.Tactic.Ring

/-!
# Groups of bits in bytes

The bits of a byte string are numbered from the most significant bit of its first byte on.  Numbers
of `w` bits each are read off one after the other by shifting bits in, and written by setting bits
in a string of zeros.

* `bitAt`, **`ext_bitAt`**: strings of one length with the same bits are equal;
* `pack`, **`bitAt_pack`**: the bits of a string that numbers have been written to;
* **`groups_eq_iff`**: which numbers are read off.
-/

set_option autoImplicit false

namespace Bits

/-! ## Bits of a byte string -/

/-- The bit at place `k`. -/
def bitAt (d : Str) (k : ℕ) : Bool :=
  (d.getD (k / 8) 0).toNat.testBit (7 - k % 8)

section BitAt

variable {d d' : Str} {k : ℕ}

theorem bitAt_append_left (h : k < 8 * d.length) : bitAt (d ++ d') k = bitAt d k := by
  rw [bitAt, List.getD_append _ _ _ _ (by omega), bitAt]

theorem bitAt_append_right (d d' : Str) (t : ℕ) : bitAt (d ++ d') (8 * d.length + t) = bitAt d' t := by
  rw [bitAt, List.getD_append_right _ _ _ _ (by omega), bitAt]
  congr 2 <;> [congr 1; skip] <;> omega

theorem bitAt_take {n : ℕ} (h : k < 8 * n) : bitAt (d.take n) k = bitAt d k := by
  rw [bitAt, bitAt, List.getD_eq_getElem?_getD, List.getElem?_take, if_pos (by omega),
    ← List.getD_eq_getElem?_getD]

theorem bitAt_getD (d : Str) (n : ℕ) {t : ℕ} (ht : t < 8) :
    bitAt [d.getD n 0] t = bitAt d (8 * n + t) := by
  rw [bitAt, bitAt, Nat.div_eq_of_lt ht, Nat.mul_add_div (by decide), Nat.div_eq_of_lt ht,
    Nat.mul_add_mod]
  rfl

theorem testBit_toNat_eq_false {x : UInt8} {i : ℕ} (hi : 8 ≤ i) : x.toNat.testBit i = false :=
  Nat.testBit_lt_two_pow (x.toNat_lt.trans_le (Nat.pow_le_pow_right (by decide) hi))

/-- **Byte strings of one length that have the same bits are equal.** -/
theorem ext_bitAt (hlen : d.length = d'.length)
    (h : ∀ k < 8 * d.length, bitAt d k = bitAt d' k) : d = d' := by
  refine List.ext_getElem hlen fun j hj hj' => UInt8.toNat_inj.mp (Nat.eq_of_testBit_eq fun i => ?_)
  by_cases hi : i < 8
  · have hbit := h (8 * j + (7 - i)) (by omega)
    have hdiv : (8 * j + (7 - i)) / 8 = j := by omega
    have hmod : 7 - (8 * j + (7 - i)) % 8 = i := by omega
    rwa [bitAt, bitAt, hdiv, hmod, List.getD_eq_getElem _ _ hj, List.getD_eq_getElem _ _ hj'] at hbit
  · rw [testBit_toNat_eq_false (Nat.le_of_not_lt hi), testBit_toNat_eq_false (Nat.le_of_not_lt hi)]

theorem shiftRight_eq_iff {x y : UInt8} {c : ℕ} (hc : c ≤ 8) :
    x.toNat >>> (8 - c) = y.toNat >>> (8 - c) ↔ ∀ t < c, bitAt [x] t = bitAt [y] t := by
  have hbit : ∀ (z : UInt8) (t : ℕ), t < 8 → bitAt [z] t = z.toNat.testBit (7 - t) := fun z t ht => by
    rw [bitAt, Nat.div_eq_of_lt ht, Nat.mod_eq_of_lt ht]
    rfl
  constructor
  · intro h t ht
    have hshift := congrArg (fun v => v.testBit (c - 1 - t)) h
    simp only [Nat.testBit_shiftRight] at hshift
    have hpos : 8 - c + (c - 1 - t) = 7 - t := by omega
    rwa [hbit x t (by omega), hbit y t (by omega), ← hpos]
  · intro h
    refine Nat.eq_of_testBit_eq fun i => ?_
    rw [Nat.testBit_shiftRight, Nat.testBit_shiftRight]
    by_cases hi : i < c
    · have hpos : 8 - c + i = 7 - (c - 1 - i) := by omega
      have ht := h (c - 1 - i) (by omega)
      rwa [hbit x _ (by omega), hbit y _ (by omega), ← hpos] at ht
    · rw [testBit_toNat_eq_false (by omega), testBit_toNat_eq_false (by omega)]

end BitAt

/-! ## Reading numbers -/

/-- `(d[k/8] >> (7 - k%8)) & 1`. -/
def readBit (d : Str) (k : ℕ) : ℕ :=
  ((d.getD (k / 8) 0).toNat >>> (7 - k % 8)) &&& 1

theorem readBit_eq (d : Str) (k : ℕ) : readBit d k = (bitAt d k).toNat := by
  rw [readBit, Nat.and_one_is_mod, Nat.shiftRight_eq_div_pow, bitAt, Nat.toNat_testBit]

/-- The number of `w` bits from a position on. -/
def group (d : Str) (start w : ℕ) : ℕ :=
  (List.range' start w).foldl (fun index bit => index <<< 1 ||| readBit d bit) 0

theorem testBit_shift_or (v : ℕ) (b : Bool) (i : ℕ) :
    (v <<< 1 ||| b.toNat).testBit i = if i = 0 then b else v.testBit (i - 1) := by
  rw [Nat.testBit_or, Nat.testBit_shiftLeft]
  cases i with
  | zero => cases b <;> simp
  | succ i => cases b <;> simp [Nat.testBit_succ]

theorem group_succ (d : Str) (start w : ℕ) :
    group d start (w + 1) = group d start w <<< 1 ||| (bitAt d (start + w)).toNat := by
  rw [group, List.range'_concat, List.foldl_append, ← group, ← readBit_eq]
  simp

theorem group_lt (d : Str) (start w : ℕ) : group d start w < 2 ^ w := by
  induction w with
  | zero => exact Nat.one_pos
  | succ w ih =>
    rw [group_succ]
    refine Nat.or_lt_two_pow ?_ ?_
    · rw [Nat.shiftLeft_eq, pow_one, pow_succ]
      omega
    · exact (Bool.toNat_lt _).trans_le (Nat.le_self_pow (by omega) 2)

/-- The leading bit of a number is the first that was read. -/
theorem testBit_group (d : Str) (start : ℕ) {w j : ℕ} (hj : j < w) :
    (group d start w).testBit (w - 1 - j) = bitAt d (start + j) := by
  induction w with
  | zero => omega
  | succ w ih =>
    rw [group_succ, testBit_shift_or]
    split_ifs with h
    · rw [show j = w by omega]
    · rw [← ih (by omega)]
      congr 1
      omega

/-! ## Writing numbers -/

/-- One bit of a number is set in a byte string. -/
def orBit (d : Str) (k v : ℕ) : Str :=
  d.modify (k / 8) fun x => x ||| UInt8.ofNat (v <<< (7 - k % 8))

/-- The bits of a number of `w` bits, from the `i`-th group on. -/
def packWord (w : ℕ) (d : Str) (i index : ℕ) : Str :=
  (List.range w).foldl (fun d j => orBit d (i * w + j) (index >>> (w - 1 - j) &&& 1)) d

/-- Sets the bits of numbers, from the `i`-th on. -/
def pack (w : ℕ) (i : ℕ) (d : Str) : List ℕ → Str
  | [] => d
  | index :: rest => pack w (i + 1) (packWord w d i index) rest

section Pack

variable {w i : ℕ} {d : Str}

theorem length_orBit (d : Str) (k v : ℕ) : (orBit d k v).length = d.length :=
  List.length_modify ..

theorem testBit_shifted (b : Bool) {k m : ℕ} (h : k / 8 = m / 8) :
    (UInt8.ofNat (b.toNat <<< (7 - k % 8))).toNat.testBit (7 - m % 8) = (m == k && b) := by
  cases b with
  | false => simp
  | true =>
    have hlt : 2 ^ (7 - k % 8) < 2 ^ 8 := Nat.pow_lt_pow_right (by decide) (by omega)
    rw [Bool.toNat_true, Nat.one_shiftLeft, UInt8.toNat_ofNat', Nat.mod_eq_of_lt hlt,
      Nat.testBit_two_pow, Bool.and_true, Bool.eq_iff_iff, decide_eq_true_eq, beq_iff_eq]
    omega

theorem bitAt_orBit (b : Bool) {k : ℕ} (hk : k < 8 * d.length) (m : ℕ) :
    bitAt (orBit d k b.toNat) m = (bitAt d m || (m == k && b)) := by
  rw [bitAt, orBit, List.getD_eq_getElem?_getD, List.getElem?_modify]
  by_cases hbyte : k / 8 = m / 8
  · have hm : m / 8 < d.length := by omega
    simp only [if_pos hbyte]
    rw [List.getElem?_eq_getElem hm, Option.map_eq_map, Option.map_some, Option.getD_some,
      UInt8.toNat_or, Nat.testBit_or, testBit_shifted b hbyte, bitAt, List.getD_eq_getElem _ _ hm]
  · have hne : (m == k) = false := by
      simp only [beq_eq_false_iff_ne]
      rintro rfl
      exact hbyte rfl
    simp only [if_neg hbyte]
    rw [hne, Bool.false_and, Bool.or_false, id_map', ← List.getD_eq_getElem?_getD]
    rfl

theorem shiftRight_and_one (v s : ℕ) : v >>> s &&& 1 = (v.testBit s).toNat := by
  rw [Nat.and_one_is_mod, Nat.shiftRight_eq_div_pow, Nat.toNat_testBit]

theorem foldl_orBit (index : ℕ) {n : ℕ} (hn : n ≤ w) (hfit : (i + 1) * w ≤ 8 * d.length) :
    let d' := (List.range n).foldl
      (fun d j => orBit d (i * w + j) (index >>> (w - 1 - j) &&& 1)) d
    d'.length = d.length ∧ ∀ m, bitAt d' m =
      (bitAt d m || (decide (i * w ≤ m ∧ m < i * w + n) && index.testBit (w - 1 - (m - i * w)))) := by
  induction n with
  | zero => exact ⟨rfl, fun m => by simp⟩
  | succ n ih =>
    obtain ⟨hlen, hbits⟩ := ih (by omega)
    dsimp only at hlen hbits ⊢
    rw [add_mul, one_mul] at hfit
    rw [List.range_succ, List.foldl_append, List.foldl_cons, List.foldl_nil]
    refine ⟨(length_orBit _ _ _).trans hlen, fun m => ?_⟩
    rw [shiftRight_and_one, bitAt_orBit _ (by rw [hlen]; omega), hbits]
    by_cases hm : m = i * w + n
    · subst hm
      simp
    · have hne : (m == i * w + n) = false := by simpa using hm
      have hiff : (i * w ≤ m ∧ m < i * w + (n + 1)) ↔ (i * w ≤ m ∧ m < i * w + n) := by omega
      rw [hne, Bool.false_and, Bool.or_false, decide_eq_decide.mpr hiff]

/-- **The bits of numbers that have been written one after the other.** -/
theorem bitAt_pack_from (hw : 0 < w) (idx : List ℕ) (hfit : (i + idx.length) * w ≤ 8 * d.length) :
    (pack w i d idx).length = d.length ∧ ∀ m, bitAt (pack w i d idx) m =
      (bitAt d m || (decide (i * w ≤ m) &&
        (idx.getD ((m - i * w) / w) 0).testBit (w - 1 - (m - i * w) % w))) := by
  induction idx generalizing i d with
  | nil => exact ⟨rfl, fun m => by simp [pack]⟩
  | cons index rest ih =>
    have hone : (i + 1) * w ≤ 8 * d.length := by
      refine le_trans (Nat.mul_le_mul_right w ?_) hfit
      simp
    obtain ⟨hlen, hbits⟩ := foldl_orBit index le_rfl hone
    have hrest : (i + 1 + rest.length) * w ≤ 8 * (packWord w d i index).length := by
      rw [packWord, hlen]
      refine le_trans (le_of_eq ?_) hfit
      rw [List.length_cons]
      ring
    obtain ⟨hlen', hbits'⟩ := ih hrest
    refine ⟨hlen'.trans hlen, fun m => ?_⟩
    rw [pack, hbits', packWord, hbits]
    rw [add_mul, one_mul]
    rcases Nat.lt_or_ge m (i * w) with hlt | hge
    · simp [show ¬i * w ≤ m by omega, show ¬i * w + w ≤ m by omega]
    rcases Nat.lt_or_ge m (i * w + w) with hlt | hge'
    · have hsmall : m - i * w < w := by omega
      simp [hge, hlt, show ¬i * w + w ≤ m by omega, Nat.div_eq_of_lt hsmall,
        Nat.mod_eq_of_lt hsmall]
    · have hsplit : m - i * w = m - (i * w + w) + w := by omega
      simp [hge, hge', show ¬m < i * w + w by omega, hsplit, Nat.add_div_right _ hw]

/-- **What numbers leave of zeros.** -/
theorem bitAt_pack (hw : 0 < w) (idx : List ℕ) {n : ℕ} (hfit : idx.length * w ≤ 8 * n) :
    (pack w 0 (List.replicate n 0) idx).length = n ∧
      ∀ m, bitAt (pack w 0 (List.replicate n 0) idx) m =
        (idx.getD (m / w) 0).testBit (w - 1 - m % w) := by
  obtain ⟨hlen, hbits⟩ := bitAt_pack_from (i := 0) (d := List.replicate n 0) hw idx
    (by simpa using hfit)
  refine ⟨hlen.trans (List.length_replicate ..), fun m => ?_⟩
  have hzero : bitAt (List.replicate n 0) m = false := by
    have hbyte : (List.replicate n (0 : UInt8)).getD (m / 8) 0 = 0 := by
      rw [List.getD_eq_getElem?_getD, List.getElem?_replicate]
      split_ifs <;> rfl
    rw [bitAt, hbyte]
    exact Nat.zero_testBit _
  rw [hbits, hzero]
  simp

/-- **Numbers of `w` bits are read off a string exactly when it has their bits.** -/
theorem groups_eq_iff (D : Str) {idx : List ℕ} (hidx : ∀ x ∈ idx, x < 2 ^ w) :
    (List.range idx.length).map (fun i => group D (i * w) w) = idx ↔
      ∀ m < idx.length * w, bitAt D m = (idx.getD (m / w) 0).testBit (w - 1 - m % w) := by
  constructor
  · intro h m hm
    have hw : 0 < w := Nat.pos_of_ne_zero fun h => by simp [h] at hm
    have hi : m / w < idx.length := Nat.div_lt_of_lt_mul (by rwa [mul_comm])
    have hget : idx.getD (m / w) 0 = group D (m / w * w) w := by
      rw [← h, List.getD_eq_getElem _ _ (by simpa using hi)]
      simp
    rw [hget, testBit_group D _ (Nat.mod_lt m hw), Nat.div_add_mod']
  · intro h
    refine List.ext_getElem (by simp) fun i hi hi' => Nat.eq_of_testBit_eq fun j => ?_
    rw [List.getElem_map, List.getElem_range]
    by_cases hj : j < w
    · have hpos : i * w + (w - 1 - j) < idx.length * w := by
        have := Nat.mul_le_mul_right w (Nat.succ_le_of_lt hi')
        rw [Nat.succ_mul] at this
        omega
      have hbit := h _ hpos
      rw [← testBit_group D (i * w) (show w - 1 - j < w by omega)] at hbit
      rw [mul_comm i w, Nat.mul_add_div (by omega), Nat.div_eq_of_lt (by omega), Nat.add_zero,
        Nat.mul_add_mod, Nat.mod_eq_of_lt (show w - 1 - j < w by omega),
        List.getD_eq_getElem _ _ hi'] at hbit
      have hback : w - 1 - (w - 1 - j) = j := by omega
      rwa [hback, mul_comm w i] at hbit
    · have hpow : 2 ^ w ≤ 2 ^ j := Nat.pow_le_pow_right (by decide) (Nat.le_of_not_lt hj)
      rw [Nat.testBit_lt_two_pow ((group_lt D _ w).trans_le hpow),
        Nat.testBit_lt_two_pow ((hidx _ (List.getElem_mem hi')).trans_le hpow)]

end Pack

end Bits
