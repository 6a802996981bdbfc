import XeLattice.Core.Crypto

/-!
# A sample library

A library whose digest is a polynomial checksum and whose signatures are all valid, on which runs
are evaluated.
-/

set_option autoImplicit false

namespace Xe.Sample

/-- The bytes of a number, the lowest first. -/
def bytesOf : ℕ → ℕ → Str
  | 0, _ => []
  | n + 1, x => UInt8.ofNat (x % 256) :: bytesOf n (x / 256)

theorem length_bytesOf (n x : ℕ) : (bytesOf n x).length = n := by
  induction n generalizing x with
  | zero => rfl
  | succ n ih => exact congrArg Nat.succ (ih _)

/-- The checksum. -/
def digest (s : Str) : Str :=
  bytesOf 32 (s.foldl (fun h c => (h * 257 + c.toNat + 1) % 2 ^ 255) 1)

/-- The library. -/
def lib : Lib where
  sha256 := digest
  length_sha256 _ := length_bytesOf 32 _
  ed25519Verify _ _ _ := true
  powHash _ _ := 0
  unicodeToLower _ := []
  lower_unicodeToLower _ _ h := absurd h List.not_mem_nil
  quote s := s
  durationString _ := []
  networkID := []

/-- A public key. -/
def pub (n : UInt8) : Str :=
  hexEncode (List.replicate 32 n)

/-- A signature. -/
def signature : Str :=
  List.replicate 128 48

end Xe.Sample
