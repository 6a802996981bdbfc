import XeLattice.Core.Encoding
import XeLattice.Lease.Cost

/-!
# What a settlement emits

`CapR` clamps the emission rate so that the dollar value of an emission stays at the payout cap, and
`LeaseEmissionChecked` multiplies the cost of the lease by the rate.  Both round up, and the clamp is
left out when its own product overflows.

* **`emission_within_cap_iff`**: when the emission is worth one micro-XE more than the cap at most;
* **`leaseTotalEmission_eq_ok`**: the emission of a lease with its renewals, in natural numbers.
-/

set_option autoImplicit false

namespace Xe

section Emission

variable {cost r cap twap e : UInt64}

/-- The rate that the clamp leaves of a rate above the cap: the cap's own, rounded up, unless the
product overflows. -/
def clampedRate (r cap twap : ℕ) : ℕ :=
  if cap * 1000 < 2 ^ 64 then (cap * 1000) ⌈/⌉ twap else r

/-- What is missing from a number to the next multiple of a thousand. -/
def toThousand (n : ℕ) : ℕ :=
  (1000 - n % 1000) % 1000

/-- The cap does not bind, or the rounding of the rate, on every unit of the cost, and that of the
emission are together worth at most one micro-XE. -/
def CapRoundingFits (cost r cap twap : ℕ) : Prop :=
  r * twap ≤ cap * 1000 ∨
    cost * (clampedRate r cap twap * twap - cap * 1000) +
      twap * toThousand (cost * clampedRate r cap twap) ≤ 1000 * twap

instance (cost r cap twap : ℕ) : Decidable (CapRoundingFits cost r cap twap) :=
  inferInstanceAs (Decidable (_ ∨ _))

theorem thousand_mul_ceilDiv (n : ℕ) : 1000 * (n ⌈/⌉ 1000) = n + toThousand n := by
  rw [Nat.ceilDiv_eq_add_pred_div, toThousand]
  omega

theorem toNat_capR_of_binds (hcap : cap ≠ 0) (htwap : twap ≠ 0)
    (hbinds : cap.toNat * 1000 < r.toNat * twap.toNat) :
    (capR r cap twap).toNat = clampedRate r.toNat cap.toNat twap.toNat := by
  have hpos : 0 < twap.toNat := toNat_pos_of_ne_zero htwap
  unfold capR clampedRate
  rw [if_neg (by tauto)]
  cases hmul : safeMul cap 1000 with
  | none =>
    have hover : ¬ cap.toNat * 1000 < 2 ^ 64 := by
      intro hlt
      obtain ⟨p, hp⟩ := exists_word hlt
      rw [safeMul_eq_some.mpr hp.symm] at hmul
      cases hmul
    rw [if_neg hover]
  | some scaled =>
    have hscaled : cap.toNat * 1000 = scaled.toNat := safeMul_eq_some.mp hmul
    have hceil : (ceilDiv scaled twap).toNat = (cap.toNat * 1000) ⌈/⌉ twap.toNat := by
      rw [toNat_ceilDiv scaled htwap, hscaled]
    have hle : (cap.toNat * 1000) ⌈/⌉ twap.toNat ≤ r.toNat := by
      apply ceilDiv_le_of_le_mul hpos
      rw [Nat.mul_comm twap.toNat]
      exact hbinds.le
    rw [if_pos (hscaled ▸ scaled.toNat_lt), ← hceil]
    dsimp only
    split_ifs with hlt
    · rfl
    · rw [UInt64.lt_iff_toNat_lt, hceil] at hlt
      omega

theorem toNat_capR_le : (capR r cap twap).toNat ≤ r.toNat := by
  unfold capR
  split_ifs with hoff
  · exact le_rfl
  · cases safeMul cap 1000 with
    | none => exact le_rfl
    | some scaled =>
      dsimp only
      split_ifs with hlt
      · exact (UInt64.lt_iff_toNat_lt.mp hlt).le
      · exact le_rfl

/-- `LeaseEmissionChecked` in natural numbers: a thousand emissions are the product, filled up to a
multiple of a thousand, but for the emission of nothing, which is one. -/
theorem leaseEmissionChecked_eq_ok (h : leaseEmissionChecked cost r = .ok e) :
    cost.toNat * r.toNat = 0 ∧ e.toNat = 1 ∨
      1000 * e.toNat = cost.toNat * r.toNat + toThousand (cost.toNat * r.toNat) := by
  unfold leaseEmissionChecked at h
  cases hmul : safeMul cost r with
  | none =>
    rw [hmul] at h
    cases h
  | some product =>
    rw [hmul] at h
    have hprod := safeMul_eq_some.mp hmul
    have hceil : (ceilDiv product 1000).toNat = product.toNat ⌈/⌉ 1000 :=
      toNat_ceilDiv product (by decide)
    have hsum := thousand_mul_ceilDiv product.toNat
    have he := Except.ok.inj h
    rw [hprod]
    split_ifs at he with hzero
    · rw [hzero, UInt64.toNat_zero] at hceil
      refine .inl ⟨?_, by rw [← he]; rfl⟩
      omega
    · exact .inr (by rw [← he, hceil, hsum])

theorem le_clampedRate_mul {r cap twap : ℕ} (htwap : 0 < twap) (hbinds : cap * 1000 < r * twap) :
    cap * 1000 ≤ clampedRate r cap twap * twap := by
  unfold clampedRate
  split_ifs
  · rw [Nat.mul_comm _ twap]
    exact le_mul_ceilDiv htwap _
  · exact hbinds.le

/-- The comparison with the cap, a thousandfold: what exceeds it is what the two roundings add. -/
theorem within_cap_iff_of_binds {cost ρ cap twap e u : ℕ} (he : 1000 * e = cost * ρ + u)
    (hρ : cap * 1000 ≤ ρ * twap) :
    e * twap ≤ cost * cap + twap ↔
      cost * (ρ * twap - cap * 1000) + twap * u ≤ 1000 * twap := by
  obtain ⟨excess, hexcess⟩ := Nat.exists_eq_add_of_le hρ
  have hvalue : 1000 * (e * twap) = 1000 * (cost * cap) + cost * excess + twap * u := by
    calc 1000 * (e * twap) = cost * (ρ * twap) + twap * u := by rw [← mul_assoc, he]; ring
      _ = 1000 * (cost * cap) + cost * excess + twap * u := by rw [hexcess]; ring
  rw [hexcess, Nat.add_sub_cancel_left]
  omega

theorem within_cap_of_not_binds {cost ρ r cap twap e u : ℕ} (he : 1000 * e = cost * ρ + u)
    (hu : u < 1000) (hρ : ρ ≤ r) (hr : r * twap ≤ cap * 1000) :
    e * twap ≤ cost * cap + twap := by
  have hvalue : 1000 * (e * twap) ≤ 1000 * (cost * cap + twap) := by
    calc 1000 * (e * twap) = cost * (ρ * twap) + u * twap := by rw [← mul_assoc, he]; ring
      _ ≤ cost * (cap * 1000) + 1000 * twap :=
        Nat.add_le_add (Nat.mul_le_mul_left cost ((Nat.mul_le_mul_right twap hρ).trans hr))
          (Nat.mul_le_mul_right twap hu.le)
      _ = 1000 * (cost * cap + twap) := by ring
  omega

/-- **An emission is worth at most one micro-XE more than the payout cap exactly when the cap does
not bind or the roundings fit.** -/
theorem emission_within_cap_iff (hcap : 1 ≤ cap) (htwap : 1 ≤ twap)
    (h : leaseEmissionChecked cost (capR r cap twap) = .ok e) :
    e.toNat * twap.toNat ≤ cost.toNat * cap.toNat + twap.toNat ↔
      CapRoundingFits cost.toNat r.toNat cap.toNat twap.toNat := by
  have hcap' : 0 < cap.toNat := UInt64.le_iff_toNat_le.mp hcap
  have htwap' : 0 < twap.toNat := UInt64.le_iff_toNat_le.mp htwap
  have hne : ∀ {x : UInt64}, 0 < x.toNat → x ≠ 0 := by
    rintro x hx rfl
    exact absurd hx (by decide)
  have hform := leaseEmissionChecked_eq_ok h
  by_cases hbinds : r.toNat * twap.toNat ≤ cap.toNat * 1000
  · refine iff_of_true ?_ (.inl hbinds)
    rcases hform with ⟨-, hone⟩ | he
    · rw [hone, one_mul]
      exact Nat.le_add_left _ _
    · exact within_cap_of_not_binds he (Nat.mod_lt _ (by decide)) toNat_capR_le hbinds
  · have hover : cap.toNat * 1000 < r.toNat * twap.toNat := lt_of_not_ge hbinds
    have hclamp := le_clampedRate_mul htwap' hover
    rw [CapRoundingFits, or_iff_right hbinds]
    rw [toNat_capR_of_binds (hne hcap') (hne htwap') hover] at hform
    rcases hform with ⟨hzero, hone⟩ | he
    · -- the clamped rate is positive, so that nothing was paid for the lease
      have hrate : clampedRate r.toNat cap.toNat twap.toNat ≠ 0 := by
        intro hrate
        rw [hrate, zero_mul] at hclamp
        omega
      have hcost : cost.toNat = 0 := (Nat.mul_eq_zero.mp hzero).resolve_right hrate
      rw [hone, hcost]
      simp [toThousand]
    · exact within_cap_iff_of_binds he hclamp

/-- The documented parameters: the cap is dormant. -/
theorem emission_within_cap_documented :
    leaseEmissionChecked 31000 (capR 2000 1502 250) = .ok 62000 ∧
      (62000 : UInt64).toNat * (250 : UInt64).toNat ≤
        (31000 : UInt64).toNat * (1502 : UInt64).toNat + (250 : UInt64).toNat := by
  have hpaid : leaseEmissionChecked 31000 (capR 2000 1502 250) = .ok 62000 := by decide
  exact ⟨hpaid, (emission_within_cap_iff (by decide) (by decide) hpaid).mpr (by decide)⟩

/-- At seven dollars the clamp of 214.28 is rounded up to 215, for every unit of the cost. -/
theorem cap_exceeded :
    leaseEmissionChecked 1000000 (capR 2000 1500 7000) = .ok 215000 ∧
      ¬ (215000 : UInt64).toNat * (7000 : UInt64).toNat ≤
        (1000000 : UInt64).toNat * (1500 : UInt64).toNat + (7000 : UInt64).toNat := by
  decide

end Emission

/-! ## The emission of a whole lease -/

section Total

variable {cost r e : UInt64}

/-- The emission of a cost at a rate, in natural numbers. -/
def emissionOf (part : ℕ × ℕ) : ℕ :=
  max 1 ((part.1 * part.2) ⌈/⌉ 1000)

/-- Cost and capped rate of a segment. -/
def LeaseSegment.part (seg : LeaseSegment) : ℕ × ℕ :=
  (seg.cost.toNat, (capR seg.lockedR seg.lockedPayoutCap seg.lockedTWAP).toNat)

/-- The costs of a lease and of its renewals, each with its rate. -/
def Lease.parts (l : Lease) : List (ℕ × ℕ) :=
  (l.cost.toNat, (capR l.lockedR l.lockedPayoutCap l.lockedTWAP).toNat) ::
    l.renewals.map LeaseSegment.part

theorem leaseEmissionChecked_iff : leaseEmissionChecked cost r = .ok e ↔
    cost.toNat * r.toNat < 2 ^ 64 ∧ e.toNat = emissionOf (cost.toNat, r.toNat) := by
  unfold leaseEmissionChecked
  cases hmul : safeMul cost r with
  | none =>
    refine iff_of_false (fun h => by cases h) fun h => ?_
    obtain ⟨p, hp⟩ := exists_word h.1
    rw [safeMul_eq_some.mpr hp.symm] at hmul
    cases hmul
  | some product =>
    have hprod := safeMul_eq_some.mp hmul
    have hceil : (ceilDiv product 1000).toNat = product.toNat ⌈/⌉ 1000 :=
      toNat_ceilDiv product (by decide)
    have hval : (if ceilDiv product 1000 = 0 then 1 else ceilDiv product 1000).toNat =
        emissionOf (cost.toNat, r.toNat) := by
      rw [emissionOf, hprod, ← hceil]
      split_ifs with hzero
      · rw [hzero]
        rfl
      · have := toNat_pos_of_ne_zero hzero
        omega
    rw [hprod]
    simp only [Except.ok.injEq, product.toNat_lt, true_and, ← hval]
    exact ⟨fun h => congrArg _ h.symm, fun h => (UInt64.toNat_inj.mp h).symm⟩

theorem renewalEmission_eq_ok (segs : List LeaseSegment) (total : UInt64) (i : ℕ) :
    renewalEmission total i segs = .ok e ↔
      (∀ part ∈ segs.map LeaseSegment.part, part.1 * part.2 < 2 ^ 64) ∧
        e.toNat = total.toNat + ((segs.map LeaseSegment.part).map emissionOf).sum := by
  induction segs generalizing total i with
  | nil =>
    simp only [renewalEmission, Except.ok.injEq, List.map_nil, List.not_mem_nil, false_implies,
      implies_true, true_and, List.sum_nil, Nat.add_zero]
    exact ⟨fun h => congrArg _ h.symm, fun h => (UInt64.toNat_inj.mp h).symm⟩
  | cons seg segs ih =>
    simp only [renewalEmission, bind_eq_ok, mapError_eq_ok, leaseEmissionChecked_iff, List.map_cons,
      List.forall_mem_cons, List.sum_cons]
    constructor
    · rintro ⟨x, ⟨hfits, hx⟩, h⟩
      cases hadd : safeAdd total x with
      | none =>
        rw [hadd] at h
        cases h
      | some sum =>
        rw [hadd] at h
        obtain ⟨hrest, he⟩ := (ih sum (i + 1)).mp h
        have hsum := safeAdd_eq_some.mp hadd
        refine ⟨⟨hfits, hrest⟩, ?_⟩
        rw [he, ← hsum, hx, Nat.add_assoc]
        rfl
    · rintro ⟨⟨hfits, hrest⟩, he⟩
      -- the partial sums are below the whole, which fits
      have hlt := e.toNat_lt
      obtain ⟨x, hx⟩ := exists_word (n := emissionOf seg.part) (by omega)
      obtain ⟨sum, hsum⟩ := exists_word (n := total.toNat + emissionOf seg.part) (by omega)
      refine ⟨x, ⟨hfits, hx⟩, ?_⟩
      rw [safeAdd_eq_some.mpr (show total.toNat + x.toNat = sum.toNat by omega)]
      exact (ih sum (i + 1)).mpr ⟨hrest, by omega⟩

/-- **The emission of a lease**: its own and that of its renewals, as long as no product and no sum
overflows. -/
theorem leaseTotalEmission_eq_ok {lease : Lease} : leaseTotalEmission lease = .ok e ↔
    (∀ part ∈ lease.parts, part.1 * part.2 < 2 ^ 64) ∧
      e.toNat = (lease.parts.map emissionOf).sum := by
  unfold leaseTotalEmission Lease.parts
  simp only [bind_eq_ok, mapError_eq_ok, leaseEmissionChecked_iff, renewalEmission_eq_ok,
    List.forall_mem_cons, List.map_cons, List.sum_cons]
  constructor
  · rintro ⟨x, ⟨hfits, hx⟩, hrest, he⟩
    exact ⟨⟨hfits, hrest⟩, by rw [he, hx]⟩
  · rintro ⟨⟨hfits, hrest⟩, he⟩
    have hlt := e.toNat_lt
    obtain ⟨x, hx⟩ := exists_word (n := emissionOf (lease.cost.toNat,
      (capR lease.lockedR lease.lockedPayoutCap lease.lockedTWAP).toNat)) (by omega)
    exact ⟨x, ⟨hfits, hx⟩, hrest, by rw [he, hx]⟩

end Total

end Xe
