import XeLattice.Go.Slices
import XeLattice.StateChain.Sample

/-!
# What the canonical encoding of a state block determines

The numbers of an operation come before its texts, so that the end of each text is known from what
stands before it. The number of operations is cut to 32 bits, but an operation has more bytes than
nothing, so that the length of the whole tells it.

* **`marshalOps_inj`**: encoded operations are read back one after the other;
* **`marshalCanonical_inj`**: equal encodings are of blocks that say the same.
-/

set_option autoImplicit false

namespace Xe.StateChain

/-- What of an operation is encoded: a deletion has no value. -/
def Op.carried (op : Op) : Action × Str × Option Str :=
  (op.action, op.key, if op.action = .set then some op.value else none)

/-- The lengths of the operation fit into the bytes they are written to. -/
structure Op.Fits (op : Op) : Prop where
  key : op.key.length < 2 ^ 16
  value : op.action = .set → op.value.length < 2 ^ 32

section Encoding

variable {lib : Lib} {json : Json} {op op' : Op} {ops ops' : List Op} {i j : ℕ}
  {data data' t t' : Str} {b b' : Block}

theorem validateOp_lengths (h : validateOp lib json op = .ok ()) :
    op.key.length ≤ maxKeyLength ∧ (op.action = .set → op.value.length ≤ maxValueSize) := by
  unfold validateOp at h
  obtain ⟨_, hkey, h⟩ := bind_eq_ok.mp h
  obtain ⟨_, _, hkey⟩ := bind_eq_ok.mp (mapError_eq_ok.mp hkey)
  obtain ⟨_, hlen, -⟩ := bind_eq_ok.mp hkey
  refine ⟨not_lt.mp (guardErr_eq_ok.mp hlen), fun ha => ?_⟩
  rw [ha] at h
  obtain ⟨_, _, h⟩ := bind_eq_ok.mp h
  obtain ⟨_, hlen, -⟩ := bind_eq_ok.mp h
  exact not_lt.mp (guardErr_eq_ok.mp hlen)

theorem Op.fits_of_validateOp (h : validateOp lib json op = .ok ()) : op.Fits := by
  obtain ⟨hkey, hvalue⟩ := validateOp_lengths h
  rw [maxKeyLength] at hkey
  rw [maxValueSize] at hvalue
  exact ⟨by omega, fun ha => by have := hvalue ha; omega⟩

theorem append_length_inj {p q x y : Str} (hlen : p.length = q.length) (hp : beNat p = x.length)
    (hq : beNat q = y.length) (h : p ++ (x ++ t) = q ++ (y ++ t')) : x = y ∧ t = t' := by
  obtain ⟨hnum, htail⟩ := List.append_inj h hlen
  exact List.append_inj htail (by rw [← hp, hnum, hq])

theorem beNat_be16_ofNat {n : ℕ} (h : n < 2 ^ 16) : beNat (be16 (UInt16.ofNat n)) = n := by
  rw [beNat_be16, UInt16.toNat_ofNat', Nat.mod_eq_of_lt h]

theorem beNat_be32_ofNat {n : ℕ} (h : n < 2 ^ 32) : beNat (be32 (UInt32.ofNat n)) = n := by
  rw [beNat_be32, UInt32.toNat_ofNat', Nat.mod_eq_of_lt h]

theorem marshalOps_cons (h : marshalOps lib i (op :: ops) = .ok data) :
    ∃ rest, marshalOps lib (i + 1) ops = .ok rest ∧
      (op.action = .set ∧ data = 1 :: (be16 (UInt16.ofNat op.key.length) ++ (op.key ++
          (be32 (UInt32.ofNat op.value.length) ++ (op.value ++ rest)))) ∨
        op.action = .delete ∧ data = 2 :: (be16 (UInt16.ofNat op.key.length) ++ (op.key ++
          (be32 0 ++ rest)))) := by
  rw [marshalOps] at h
  cases ha : op.action with
  | other w => simp [ha] at h
  | set =>
    simp only [ha] at h
    obtain ⟨rest, hrest, hdata⟩ := bind_eq_ok.mp h
    cases hdata
    exact ⟨rest, hrest, .inl ⟨rfl, by simp⟩⟩
  | delete =>
    simp only [ha] at h
    obtain ⟨rest, hrest, hdata⟩ := bind_eq_ok.mp h
    cases hdata
    exact ⟨rest, hrest, .inr ⟨rfl, by simp⟩⟩

theorem marshalOps_ne_nil (h : marshalOps lib i (op :: ops) = .ok data) : 0 < data.length := by
  obtain ⟨rest, -, ⟨-, rfl⟩ | ⟨-, rfl⟩⟩ := marshalOps_cons h <;> simp

/-- **Encoded operations are read back**, with what follows them, if that has a known length. -/
theorem marshalOps_inj (hops : ∀ op ∈ ops, op.Fits) (hops' : ∀ op ∈ ops', op.Fits)
    (h : marshalOps lib i ops = .ok data) (h' : marshalOps lib j ops' = .ok data')
    (ht : t.length = t'.length) (heq : data ++ t = data' ++ t') :
    ops.map Op.carried = ops'.map Op.carried ∧ t = t' := by
  have hlen := congrArg List.length heq
  rw [List.length_append, List.length_append] at hlen
  induction ops generalizing ops' i j data data' with
  | nil =>
    cases h
    cases ops' with
    | nil =>
      cases h'
      exact ⟨rfl, heq⟩
    | cons op' ops' =>
      have hpos := marshalOps_ne_nil h'
      rw [List.length_nil] at hlen
      omega
  | cons op ops ih =>
    cases ops' with
    | nil =>
      have hpos := marshalOps_ne_nil h
      cases h'
      rw [List.length_nil] at hlen
      omega
    | cons op' ops' =>
      obtain ⟨hop, hrest⟩ := List.forall_mem_cons.mp hops
      obtain ⟨hop', hrest'⟩ := List.forall_mem_cons.mp hops'
      obtain ⟨rest, hr, hcase⟩ := marshalOps_cons h
      obtain ⟨rest', hr', hcase'⟩ := marshalOps_cons h'
      have hnext : rest ++ t = rest' ++ t' →
          (ops.map Op.carried = ops'.map Op.carried ∧ t = t') := by
        intro hre
        have hl := congrArg List.length hre
        rw [List.length_append, List.length_append] at hl
        exact ih hrest hrest' hr hr' hre hl
      rcases hcase with ⟨ha, rfl⟩ | ⟨ha, rfl⟩ <;> rcases hcase' with ⟨ha', rfl⟩ | ⟨ha', rfl⟩
      · simp only [List.cons_append, List.append_assoc, List.cons.injEq, true_and] at heq
        obtain ⟨hkey, heq⟩ := append_length_inj (by rfl) (beNat_be16_ofNat hop.key)
          (beNat_be16_ofNat hop'.key) heq
        obtain ⟨hvalue, heq⟩ := append_length_inj (by rfl) (beNat_be32_ofNat (hop.value ha))
          (beNat_be32_ofNat (hop'.value ha')) heq
        obtain ⟨hsame, htt⟩ := hnext heq
        refine ⟨?_, htt⟩
        rw [List.map_cons, List.map_cons, hsame, Op.carried, Op.carried, ha, ha', hkey, hvalue]
      · simp at heq
      · simp at heq
      · simp only [List.cons_append, List.append_assoc, List.cons.injEq, true_and] at heq
        obtain ⟨hkey, heq⟩ := append_length_inj (by rfl) (beNat_be16_ofNat hop.key)
          (beNat_be16_ofNat hop'.key) heq
        obtain ⟨hsame, htt⟩ := hnext (List.append_cancel_left heq)
        refine ⟨?_, htt⟩
        rw [List.map_cons, List.map_cons, hsame, Op.carried, Op.carried, ha, ha', hkey]
        rfl

/-! ## Blocks -/

theorem marshalCanonical_ok (h : marshalCanonical lib b = .ok data) :
    ∃ prev ops, hexDecode b.prevHash = .ok prev ∧ prev.length = 32 ∧
      marshalOps lib 0 b.ops = .ok ops ∧
        data = be64 b.index ++ prev ++ be32 (UInt32.ofNat b.ops.length) ++ ops ++
          be64 b.timestamp.toUInt64 := by
  unfold marshalCanonical at h
  cases hprev : hexDecode b.prevHash with
  | error e => simp [hprev] at h
  | ok prev =>
    simp only [hprev] at h
    obtain ⟨_, hlen, h⟩ := bind_eq_ok.mp h
    obtain ⟨ops, hops, h⟩ := bind_eq_ok.mp h
    cases h
    exact ⟨prev, ops, rfl, not_not.mp (guardErr_eq_ok.mp hlen), hops, rfl⟩

theorem applyOp_congr (h : op.carried = op'.carried) (kv : KVStore) :
    applyOp kv op = applyOp kv op' := by
  simp only [Op.carried, Prod.mk.injEq] at h
  obtain ⟨ha, hkey, hvalue⟩ := h
  unfold applyOp
  rw [← ha, ← hkey]
  cases hact : op.action with
  | set =>
    rw [← ha, hact, if_pos rfl, if_pos rfl] at hvalue
    rw [Option.some.inj hvalue]
  | delete => rfl
  | other w => rfl

theorem applyOps_congr (h : ops.map Op.carried = ops'.map Op.carried) (kv : KVStore) :
    applyOps kv ops = applyOps kv ops' := by
  induction ops generalizing ops' kv with
  | nil =>
    rw [List.map_nil] at h
    rw [List.map_eq_nil_iff.mp h.symm]
  | cons op ops ih =>
    cases ops' with
    | nil => cases h
    | cons op' ops' =>
      obtain ⟨hop, hops⟩ := List.cons.inj h
      change applyOps (applyOp kv op) ops = applyOps (applyOp kv op') ops'
      rw [applyOp_congr hop, ih hops]

/-- **Equal encodings are of blocks that say the same**: index, previous hash, timestamp, and the
operations in their order; so they do the same to all contents. -/
theorem marshalCanonical_inj (hops : ∀ op ∈ b.ops, validateOp lib json op = .ok ())
    (hops' : ∀ op ∈ b'.ops, validateOp lib json op = .ok ())
    (h : marshalCanonical lib b = .ok data) (h' : marshalCanonical lib b' = .ok data) :
    b.index = b'.index ∧ hexDecode b.prevHash = hexDecode b'.prevHash ∧
      b.timestamp = b'.timestamp ∧ b.ops.map Op.carried = b'.ops.map Op.carried ∧
        ∀ kv, applyOps kv b.ops = applyOps kv b'.ops := by
  obtain ⟨prev, ops, hprev, hlen, hm, rfl⟩ := marshalCanonical_ok h
  obtain ⟨prev', ops', hprev', hlen', hm', heq⟩ := marshalCanonical_ok h'
  simp only [List.append_assoc] at heq
  obtain ⟨hindex, heq⟩ := List.append_inj heq rfl
  obtain ⟨hp, heq⟩ := List.append_inj heq (hlen.trans hlen'.symm)
  obtain ⟨-, heq⟩ := List.append_inj heq rfl
  obtain ⟨hcarried, htime⟩ := marshalOps_inj (fun op hop => Op.fits_of_validateOp (hops op hop))
    (fun op hop => Op.fits_of_validateOp (hops' op hop)) hm hm'
    (by rw [length_be64, length_be64]) heq
  refine ⟨be64_inj hindex, by rw [hprev, hprev', hp], ?_, hcarried, applyOps_congr hcarried⟩
  have hbits := congrArg UInt64.toInt64 (be64_inj htime)
  rw [Int64.toInt64_toUInt64, Int64.toInt64_toUInt64] at hbits
  exact hbits

end Encoding

namespace SampleNet

/-- A block with a text left over. -/
def spelled (prevHash leftover : Str) : Block where
  index := 5
  prevHash := prevHash
  ops := [{ action := .set, key := str "fee", value := str "7" },
    { action := .delete, key := str "old", value := leftover }]
  signatures := []
  timestamp := 3

end SampleNet

section Sample

open SampleNet

open Xe.Sample in
/-- The spelling of the previous hash and the value of a deletion are not encoded. -/
theorem marshalCanonical_inj_spelled : spelled (key 1) [] ≠ spelled (upperKey 1) (str "9") ∧
    (marshalCanonical lib (spelled (key 1) [])).isOk = true ∧
    ∀ kv, applyOps kv (spelled (key 1) []).ops =
      applyOps kv (spelled (upperKey 1) (str "9")).ops := by
  obtain ⟨data, hdata⟩ : ∃ data, marshalCanonical lib (spelled (key 1) []) = .ok data :=
    ⟨_, rfl⟩
  have hdata' : marshalCanonical lib (spelled (upperKey 1) (str "9")) = .ok data := by
    rw [← hdata]
    decide +kernel
  refine ⟨by decide +kernel, by rw [hdata]; rfl, ?_⟩
  have hops : ∀ leftover, ∀ op ∈ (spelled (key 1) leftover).ops,
      validateOp lib json op = .ok () := by
    intro leftover op hop
    rcases List.mem_pair.mp hop with rfl | rfl
    · decide +kernel
    · rfl
  exact (marshalCanonical_inj (hops []) (hops (str "9")) hdata hdata').2.2.2.2

end Sample

end Xe.StateChain
