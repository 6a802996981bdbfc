import XeLattice.Go.Bytes

/-!
# Slices of byte strings

Decoders take a byte string apart at fixed offsets.  A slice or an index outside the bounds stops
a Go program, which is `none` here.  What an encoder wrote is described by what stands where:
`Holds s off x` says that the bytes `x` stand in `s` from `off` on, and every read of the decoder
follows from such a fact.
-/

set_option autoImplicit false

/-! ## Reads -/

/-- `s[lo:hi]`, which stops the program out of bounds.  Go bounds `hi` by the capacity; a decoder
has compared it with the length before. -/
def slice (s : Str) (lo hi : ℕ) : Option Str :=
  if lo ≤ hi ∧ hi ≤ s.length then some ((s.drop lo).take (hi - lo)) else none

/-- The number with the given digits to base 256. -/
def beNat (s : Str) : ℕ :=
  s.foldl (fun n b => n * 256 + b.toNat) 0

/-- The big-endian number in the first `n` bytes. -/
def readBE (n : ℕ) (s : Str) : Option ℕ :=
  if n ≤ s.length then some (beNat (s.take n)) else none

/-- `binary.BigEndian.Uint64`. -/
def uint64BE (s : Str) : Option UInt64 :=
  (readBE 8 s).map UInt64.ofNat

/-- `binary.BigEndian.Uint32`. -/
def uint32BE (s : Str) : Option UInt32 :=
  (readBE 4 s).map UInt32.ofNat

/-- `binary.BigEndian.Uint16`. -/
def uint16BE (s : Str) : Option UInt16 :=
  (readBE 2 s).map UInt16.ofNat

/-- `binary.LittleEndian.Uint64`. -/
def uint64LE (s : Str) : Option UInt64 :=
  if 8 ≤ s.length then some (UInt64.ofNat (beNat (s.take 8).reverse)) else none

/-- `binary.LittleEndian.PutUint64`. -/
def le64 (n : UInt64) : Str :=
  (be64 n).reverse

theorem slice_eq_some {s : Str} {lo hi : ℕ} (h : lo ≤ hi) (hs : hi ≤ s.length) :
    slice s lo hi = some ((s.drop lo).take (hi - lo)) :=
  if_pos ⟨h, hs⟩

theorem slice_eq_none {s : Str} {lo hi : ℕ} : slice s lo hi = none ↔ hi < lo ∨ s.length < hi := by
  unfold slice
  split_ifs with h
  · simp only [false_iff]
    omega
  · simp only [true_iff]
    omega

theorem length_slice {s x : Str} {lo hi : ℕ} (h : slice s lo hi = some x) :
    x.length = hi - lo := by
  unfold slice at h
  split_ifs at h with hb
  cases h
  rw [List.length_take, List.length_drop]
  omega

/-! ## Numbers come back -/

theorem readBE_whole {n : ℕ} {s : Str} (h : s.length = n) : readBE n s = some (beNat s) := by
  rw [readBE, if_pos h.ge, List.take_of_length_le h.le]

theorem beNat_be64 (n : UInt64) : beNat (be64 n) = n.toNat := by
  have hn := n.toNat_lt
  simp only [beNat, be64, List.foldl_cons, List.foldl_nil, UInt64.toNat_toUInt8,
    UInt64.toNat_shiftRight, UInt64.reduceToNat, Nat.shiftRight_eq_div_pow, Nat.reduceMod,
    Nat.reducePow]
  omega

theorem beNat_be32 (n : UInt32) : beNat (be32 n) = n.toNat := by
  have hn := n.toNat_lt
  simp only [beNat, be32, List.foldl_cons, List.foldl_nil, UInt32.toNat_toUInt8,
    UInt32.toNat_shiftRight, UInt32.reduceToNat, Nat.shiftRight_eq_div_pow, Nat.reduceMod,
    Nat.reducePow]
  omega

theorem beNat_be16 (n : UInt16) : beNat (be16 n) = n.toNat := by
  have hn := n.toNat_lt
  simp only [beNat, be16, List.foldl_cons, List.foldl_nil, UInt16.toNat_toUInt8,
    UInt16.toNat_shiftRight, UInt16.reduceToNat, Nat.shiftRight_eq_div_pow, Nat.reduceMod,
    Nat.reducePow]
  omega

theorem be64_inj {m n : UInt64} (h : be64 m = be64 n) : m = n :=
  UInt64.toNat_inj.mp (by rw [← beNat_be64 m, h, beNat_be64])

theorem uint64BE_be64 (n : UInt64) : uint64BE (be64 n) = some n := by
  rw [uint64BE, readBE_whole (length_be64 n), beNat_be64]
  exact congrArg some UInt64.ofNat_toNat

theorem uint32BE_be32 (n : UInt32) : uint32BE (be32 n) = some n := by
  rw [uint32BE, readBE_whole (length_be32 n), beNat_be32]
  exact congrArg some UInt32.ofNat_toNat

theorem length_le64 (n : UInt64) : (le64 n).length = 8 := by
  rw [le64, List.length_reverse, length_be64]

theorem uint64LE_le64 (n : UInt64) : uint64LE (le64 n) = some n := by
  rw [uint64LE, if_pos (length_le64 n).ge, List.take_of_length_le (length_le64 n).le, le64,
    List.reverse_reverse, beNat_be64]
  exact congrArg some UInt64.ofNat_toNat

theorem exists_readBE {n : ℕ} {s : Str} (h : n ≤ s.length) : ∃ k, readBE n s = some k :=
  ⟨_, if_pos h⟩

/-! ## What stands where -/

/-- The bytes `x` stand in `s` from `off` on. -/
def Holds (s : Str) (off : ℕ) (x : Str) : Prop :=
  ∃ before after, s = before ++ (x ++ after) ∧ before.length = off

namespace Holds

variable {s x y : Str} {off : ℕ}

theorem start (x after : Str) : Holds (x ++ after) 0 x :=
  ⟨[], after, rfl, rfl⟩

theorem whole (h : s = x) : Holds s 0 x :=
  ⟨[], [], by simpa using h, rfl⟩

theorem left (h : Holds s off (x ++ y)) : Holds s off x := by
  obtain ⟨before, after, rfl, hoff⟩ := h
  exact ⟨before, y ++ after, by simp, hoff⟩

theorem right (h : Holds s off (x ++ y)) : Holds s (off + x.length) y := by
  obtain ⟨before, after, rfl, hoff⟩ := h
  exact ⟨before ++ x, after, by simp, by simp [hoff]⟩

theorem cast (h : Holds s off x) {off' : ℕ} (ho : off = off') : Holds s off' x :=
  ho ▸ h

theorem le_length (h : Holds s off x) : off + x.length ≤ s.length := by
  obtain ⟨before, after, rfl, rfl⟩ := h
  simp only [List.length_append]
  omega

/-- **A slice finds what stands there.** -/
theorem slice (h : Holds s off x) {hi : ℕ} (hhi : hi = off + x.length) :
    slice s off hi = some x := by
  rw [slice_eq_some (by omega) (hhi ▸ h.le_length)]
  obtain ⟨before, after, rfl, rfl⟩ := h
  simp [hhi]

/-- **An index finds the byte that stands there.** -/
theorem index {b : UInt8} (h : Holds s off (b :: x)) : s[off]? = some b := by
  obtain ⟨before, after, rfl, rfl⟩ := h
  simp

end Holds
