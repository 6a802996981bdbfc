import XeLattice.Go.Slices
import XeLattice.MerkleTree
import XeLattice.SampleLib

/-!
# The attestations that a certificate commits to

A performance certificate names the attestations of its start and of its end by a Merkle root.  They
are sorted by public key; a leaf is hashed behind a zero byte and an inner node behind a one byte.

* **`attestationMerkleRoot_eq_iff`**: the root binds the attestations, whatever their number.
-/

set_option autoImplicit false

namespace Xe

open Merkle

/-! ## The root -/

section Root

variable (lib : Lib)

/-- What is hashed for an attestation. -/
def merkleLeaf (a : TimekeeperAttestation) : Str :=
  0x00 :: (a.publicKey ++ be64 a.timestamp.toUInt64 ++ a.signature)

/-- What is hashed for two neighbours. -/
def merkleInternal (l r : Str) : Str :=
  0x01 :: (l ++ r)

/-- The attestations sorted by key. -/
def byPublicKey (l : List TimekeeperAttestation) : List TimekeeperAttestation :=
  l.insertionSort (fun x y => strLt y.publicKey x.publicKey = false)

/-- `AttestationMerkleRoot`. -/
def attestationMerkleRoot (attestations : List TimekeeperAttestation) : Str :=
  if attestations = [] then str "0000000000000000000000000000000000000000000000000000000000000000"
  else
    let hashes := (byPublicKey attestations).map (fun a => lib.sha256 (merkleLeaf a))
    hexEncode ((climb (fun l r => lib.sha256 (merkleInternal l r)) hashes.length hashes).headD [])

/-- Everything that is hashed on the way to a root. -/
def merkleInputs (attestations : List TimekeeperAttestation) : List Str :=
  (climb Merkle.Tree.node attestations.length
      ((byPublicKey attestations).map Merkle.Tree.leaf)).flatMap
    (Merkle.Tree.inputs merkleLeaf merkleInternal lib.sha256)

/-- No two of the inputs collide, and none collides with the root that stands for no attestations. -/
structure CollisionFree (inputs : List Str) : Prop where
  inj : ∀ x ∈ inputs, ∀ y ∈ inputs, lib.sha256 x = lib.sha256 y → x = y
  nonzero : ∀ x ∈ inputs, lib.sha256 x ≠ List.replicate 32 0

end Root

theorem CollisionFree.mono {lib : Lib} {D D' : List Str} (h : CollisionFree lib D') (hsub : D ⊆ D') :
    CollisionFree lib D where
  inj x hx y hy := h.inj x (hsub hx) y (hsub hy)
  nonzero x hx := h.nonzero x (hsub hx)

/-! ## It binds the attestations -/

section Binding

variable {lib : Lib} {l l' : List TimekeeperAttestation} {a b : TimekeeperAttestation}

theorem byPublicKey_perm (l : List TimekeeperAttestation) : (byPublicKey l).Perm l :=
  List.perm_insertionSort _ l

/-- With different keys there is one sorted order. -/
theorem byPublicKey_eq_of_perm (hl : (l.map (·.publicKey)).Nodup) (h : l.Perm l') :
    byPublicKey l = byPublicKey l' := by
  let r := fun x y : TimekeeperAttestation => strLt y.publicKey x.publicKey = false
  have hr : ∀ x y, r x y ↔ x.publicKey ≤ y.publicKey := fun x y => strLt_eq_false
  have : Std.Total r := ⟨fun x y => by rw [hr, hr]; exact List.le_total _ _⟩
  have : IsTrans _ r := ⟨fun x y z => by simp only [hr]; exact List.le_trans⟩
  have hperm : (byPublicKey l).Perm (byPublicKey l') :=
    (byPublicKey_perm l).trans (h.trans (byPublicKey_perm l').symm)
  refine hperm.eq_of_pairwise (fun x y hx hy hxy hyx => ?_) (List.pairwise_insertionSort r l)
    (List.pairwise_insertionSort r l')
  have hkeys := List.le_antisymm ((hr x y).mp hxy) ((hr y x).mp hyx)
  have hx := (byPublicKey_perm l).mem_iff.mp hx
  have hy := h.mem_iff.mpr ((byPublicKey_perm l').mem_iff.mp hy)
  exact List.inj_on_of_nodup_map hl hx hy hkeys

theorem merkleLeaf_inj (ha : a.publicKey.length = 64) (hb : b.publicKey.length = 64)
    (h : merkleLeaf a = merkleLeaf b) : a = b := by
  obtain ⟨-, h⟩ := List.cons.inj h
  rw [List.append_assoc, List.append_assoc] at h
  obtain ⟨hkey, h⟩ := List.append_inj h (ha.trans hb.symm)
  obtain ⟨htime, hsig⟩ := List.append_inj h rfl
  have hbits := congrArg UInt64.toInt64 (be64_inj htime)
  rw [Int64.toInt64_toUInt64, Int64.toInt64_toUInt64] at hbits
  cases a
  cases b
  simp_all

theorem merkleInternal_inj (i j i' j' : Str)
    (h : merkleInternal (lib.sha256 i) (lib.sha256 j) =
      merkleInternal (lib.sha256 i') (lib.sha256 j')) :
    lib.sha256 i = lib.sha256 i' ∧ lib.sha256 j = lib.sha256 j' :=
  List.append_inj (List.cons.inj h).2 ((lib.length_sha256 i).trans (lib.length_sha256 i').symm)

theorem exists_attestationTree (lib : Lib) (hl : l ≠ []) :
    ∃ t : Merkle.Tree TimekeeperAttestation, t.leaves = byPublicKey l ∧
      merkleInputs lib l = t.inputs merkleLeaf merkleInternal lib.sha256 ∧
      attestationMerkleRoot lib l =
        hexEncode (lib.sha256 (t.top merkleLeaf merkleInternal lib.sha256)) := by
  have hlen := (byPublicKey_perm l).length_eq
  have hne : byPublicKey l ≠ [] := fun h => hl (List.nil_perm.mp (h ▸ byPublicKey_perm l))
  obtain ⟨t, ht, hleaves⟩ := exists_tree hne
  rw [hlen] at ht
  refine ⟨t, hleaves, ?_, ?_⟩
  · rw [merkleInputs, ht, List.flatMap_singleton]
  · let digest := fun t : Merkle.Tree TimekeeperAttestation =>
      lib.sha256 (t.top merkleLeaf merkleInternal lib.sha256)
    have hmap := map_climb Merkle.Tree.node (fun l r => lib.sha256 (merkleInternal l r)) digest
      (fun _ _ => rfl) l.length ((byPublicKey l).map Merkle.Tree.leaf)
    rw [ht, List.map_map] at hmap
    rw [attestationMerkleRoot, if_neg hl]
    simp only [List.length_map, hlen]
    exact congrArg (fun x => hexEncode (x.headD [])) hmap.symm

theorem attestationMerkleRoot_ne_empty (hl : l ≠ []) (hD : CollisionFree lib (merkleInputs lib l)) :
    attestationMerkleRoot lib l ≠ attestationMerkleRoot lib [] := by
  obtain ⟨t, -, hin, hroot⟩ := exists_attestationTree lib hl
  rw [hroot]
  intro h
  exact hD.nonzero _ (hin ▸ Merkle.Tree.top_mem_inputs ..) (hexEncode_inj h)

/-- **The root binds the attestations**: without collisions, two lists of attestations under
different keys have one root exactly when they are the same up to their order. -/
theorem attestationMerkleRoot_eq_iff
    (hD : CollisionFree lib (merkleInputs lib l ++ merkleInputs lib l'))
    (hl : (l.map (·.publicKey)).Nodup) (hkeys : ∀ a ∈ l, a.publicKey.length = 64)
    (hkeys' : ∀ a ∈ l', a.publicKey.length = 64) :
    attestationMerkleRoot lib l = attestationMerkleRoot lib l' ↔ l.Perm l' := by
  have hleft : CollisionFree lib (merkleInputs lib l) := hD.mono (List.subset_append_left _ _)
  have hright : CollisionFree lib (merkleInputs lib l') := hD.mono (List.subset_append_right _ _)
  constructor
  · intro h
    rcases eq_or_ne l [] with rfl | hne
    · rcases eq_or_ne l' [] with rfl | hne'
      · exact .rfl
      · exact absurd h.symm (attestationMerkleRoot_ne_empty hne' hright)
    · rcases eq_or_ne l' [] with rfl | hne'
      · exact absurd h (attestationMerkleRoot_ne_empty hne hleft)
      · obtain ⟨t, ht, hin, hroot⟩ := exists_attestationTree lib hne
        obtain ⟨u, hu, hin', hroot'⟩ := exists_attestationTree lib hne'
        rw [hroot, hroot'] at h
        have hsame : t = u := by
          refine Merkle.Tree.eq_of_hash_eq hD.inj merkleInternal_inj (fun a x y h => ?_) ?_
            (hin ▸ List.subset_append_left _ _) (hin' ▸ List.subset_append_right _ _)
            (hexEncode_inj h)
          · exact absurd (List.cons.inj h).1 (by decide)
          · intro a ha b hb
            rw [ht, (byPublicKey_perm l).mem_iff] at ha
            rw [hu, (byPublicKey_perm l').mem_iff] at hb
            exact merkleLeaf_inj (hkeys a ha) (hkeys' b hb)
        rw [hsame, hu] at ht
        exact (byPublicKey_perm l).symm.trans (ht ▸ byPublicKey_perm l')
  · intro h
    unfold attestationMerkleRoot
    rw [byPublicKey_eq_of_perm hl h]
    simp only [← List.length_eq_zero_iff, h.length_eq]

end Binding

open Sample in
/-- Three attestations, in two orders; the third of them is promoted. -/
theorem attestationMerkleRoot_three :
    let l : List TimekeeperAttestation :=
      [⟨pub 1, 10, signature⟩, ⟨pub 2, 20, signature⟩,
        ⟨pub 3, -5, signature⟩]
    attestationMerkleRoot lib l = attestationMerkleRoot lib l.reverse :=
  (attestationMerkleRoot_eq_iff ⟨by decide +kernel, by decide +kernel⟩ (by decide) (by decide)
    (by decide)).mpr (List.reverse_perm _).symm

end Xe
