import XeLattice.Sample
import Mathlib.Algebra.Order.Group.Abs
import Mathlib.Algebra.Order.Group.Int

/-!
# The windows of settlement

The provider of a lease may settle it up to a grace period after its expiry, and the consumer may
force the settlement from a gap after that until the escrow expires.  The gap is meant to keep the
two apart although attested times may be off by the skew.  All sums are in wrapping 64-bit
arithmetic, in the checks of the genesis block as well as in those of the blocks.

* **`settlement_windows_apart_iff`**: apart exactly if the sums wrap together or not at all.
-/

set_option autoImplicit false
set_option maxRecDepth 100000

namespace Xe

/-! ## Times in 64 bits -/

section Times

theorem toInt_bounds (x : Int64) : -9223372036854775808 ≤ x.toInt ∧ x.toInt < 9223372036854775808 :=
  ⟨x.minValue_le_toInt, x.toInt_lt⟩

/-- How often an integer is off the range of 64 bits, and in which direction. -/
def wraps (z : ℤ) : ℤ :=
  (z + 9223372036854775808) / 18446744073709551616

theorem toInt_add_eq (x y : Int64) :
    (x + y).toInt = x.toInt + y.toInt - 18446744073709551616 * wraps (x.toInt + y.toInt) := by
  rw [Int64.toInt_add, Int.bmod_def, wraps]
  split_ifs <;> omega

theorem toInt_add_add_eq (x y z : Int64) :
    (x + y + z).toInt = x.toInt + y.toInt + z.toInt -
      18446744073709551616 * wraps (x.toInt + y.toInt + z.toInt) := by
  rw [toInt_add_eq, toInt_add_eq, wraps, wraps, wraps]
  omega

theorem toInt_two_mul_eq (x : Int64) :
    (2 * x).toInt = 2 * x.toInt - 18446744073709551616 * wraps (2 * x.toInt) := by
  rw [Int64.toInt_mul, show (2 : Int64).toInt = 2 from rfl, Int.bmod_def, wraps]
  split_ifs <;> omega

theorem exists_toInt_eq {z : ℤ} (h : -9223372036854775808 ≤ z ∧ z < 9223372036854775808) :
    ∃ x : Int64, x.toInt = z :=
  ⟨Int64.ofInt z, Int64.toInt_ofInt_of_le h.1 h.2⟩

end Times

/-! ## Two intervals -/

/-- No two points of `[e, a]` and `[b, c)` are within `k` of a common one, exactly when one of them
is empty or there is more than `2k` between them. -/
theorem apart_iff {e a b c k : ℤ} (hk : 0 ≤ k) :
    (b < c ∧ ∀ real s f : ℤ, |s - real| ≤ k → |f - real| ≤ k → e ≤ s → s ≤ a → b ≤ f → ¬ f < c) ↔
      b < c ∧ (a < e ∨ a + 2 * k < b ∨ c + 2 * k ≤ e) := by
  refine and_congr_right fun hbc => ⟨fun h => ?_, fun h real s f hs hf => ?_⟩
  · by_contra hnot
    push Not at hnot
    obtain ⟨hea, hba, hec⟩ := hnot
    have hmeet : ∀ s f : ℤ, e ≤ s → s ≤ a → b ≤ f → f < c → s - f ≤ 2 * k → f - s ≤ 2 * k →
        False := fun s f h₁ h₂ h₃ h₄ h₅ h₆ =>
      h ((s + f) / 2) s f (by rw [abs_le]; omega) (by rw [abs_le]; omega) h₁ h₂ h₃ h₄
    by_cases hab : a < b
    · exact hmeet a b hea le_rfl le_rfl hbc (by omega) (by omega)
    · by_cases hce : c ≤ e
      · exact hmeet e (c - 1) le_rfl hea (by omega) (by omega) (by omega) (by omega)
      · exact hmeet (max e b) (max e b) (by omega) (by omega) (by omega) (by omega) (by omega)
          (by omega)
  · rw [abs_le] at hs hf
    omega

/-! ## The windows -/

section Windows

variable (c : Ctx) (lease : Lease)

/-- A settlement that is attested for this time passes the check of its window. -/
def SettlesAt (t : Int64) : Prop :=
  ∃ skipSkew, checkSettleWindow c lease t skipSkew = pure ()

/-- A forced settlement that is attested for this time passes the check of its window. -/
def ForcesAt (t : Int64) : Prop :=
  checkForceWindow c lease t = pure ()

/-- There is no real instant at which both could be attested, with attested times off by at most the
skew, and there is a time at which the consumer can force the settlement. -/
structure WindowsApart : Prop where
  apart : ∀ (real : ℤ) (s f : Int64), |s.toInt - real| ≤ c.timing.maxAttestationSkew.toInt →
    |f.toInt - real| ≤ c.timing.maxAttestationSkew.toInt → SettlesAt c lease s →
      ¬ ForcesAt c lease f
  nonempty : ∃ f, ForcesAt c lease f

/-- The two ends of the consumer's window wrap equally often; and the end of the grace overflows, or
the start of the consumer's window and the double of the skew both fit, or only that start falls
below 64 bits, or the window ends more than the double of the skew before the expiry. -/
def SumsFit (t : LeaseTiming) (expiry : Int64) : Prop :=
  let grace := expiry.toInt + t.settleGrace.toInt
  let eligible := grace + t.forceSettleGap.toInt
  let expire := expiry.toInt + t.escrowExpiry.toInt
  wraps eligible = wraps expire + wraps (t.settleGrace.toInt + t.forceSettleGap.toInt) ∧
    (0 < wraps grace ∨ wraps eligible = 0 ∧ wraps (2 * t.maxAttestationSkew.toInt) = 0 ∨
      wraps eligible < 0 ∨
      t.escrowExpiry.toInt + 2 * t.maxAttestationSkew.toInt ≤ 18446744073709551616 * wraps expire)

instance (t : LeaseTiming) (expiry : Int64) : Decidable (SumsFit t expiry) :=
  inferInstanceAs (Decidable (_ ∧ _))

variable {c lease} {t : Int64}

theorem failIf_bind_eq_pure {p : Prop} [Decidable p] {msg : Str} {k : Unit → M Unit} :
    (failIf p msg >>= k) = pure () ↔ ¬ p ∧ k () = pure () := by
  unfold failIf Prog.failIf
  split_ifs with h
  · exact iff_of_false (fun he => by cases he) fun hand => hand.1 h
  · exact (and_iff_right h).symm

theorem failIf_eq_pure {p : Prop} [Decidable p] {msg : Str} :
    (failIf p msg : M Unit) = pure () ↔ ¬ p := by
  unfold failIf Prog.failIf
  split_ifs with h
  · exact iff_of_false (fun he => by cases he) (not_not.mpr h)
  · exact iff_of_true rfl h

theorem settlesAt_iff :
    SettlesAt c lease t ↔ lease.effectiveExpiry.toInt ≤ t.toInt ∧
      t.toInt ≤ (lease.effectiveExpiry + c.timing.settleGrace).toInt := by
  have hwindow : ∀ skipSkew, checkSettleWindow c lease t skipSkew = pure () ↔
      lease.effectiveExpiry.toInt ≤ t.toInt ∧
        t.toInt ≤ (lease.effectiveExpiry + c.timing.settleGrace).toInt := by
    intro skipSkew
    unfold checkSettleWindow
    dsimp only
    rw [failIf_bind_eq_pure, failIf_eq_pure, Int64.not_lt, gt_iff_lt, Int64.not_lt,
      Int64.le_iff_toInt_le, Int64.le_iff_toInt_le]
  exact ⟨fun ⟨skipSkew, h⟩ => (hwindow skipSkew).mp h, fun h => ⟨false, (hwindow false).mpr h⟩⟩

theorem forcesAt_iff :
    ForcesAt c lease t ↔
      (lease.effectiveExpiry + c.timing.settleGrace + c.timing.forceSettleGap).toInt ≤ t.toInt ∧
        t.toInt < (lease.effectiveExpiry + c.timing.escrowExpiry).toInt := by
  unfold ForcesAt checkForceWindow
  dsimp only
  rw [failIf_bind_eq_pure, failIf_eq_pure, Int64.not_lt, ge_iff_le, Int64.not_le,
    Int64.le_iff_toInt_le, Int64.lt_iff_toInt_lt]

theorem validateGenesisLeaseTiming_eq_ok {b : Block} (h : validateGenesisLeaseTiming b = .ok ()) :
    0 < (genesisLeaseTiming b).settleGrace.toInt ∧
      0 < (genesisLeaseTiming b).maxAttestationSkew.toInt ∧
      (2 * (genesisLeaseTiming b).maxAttestationSkew).toInt <
        (genesisLeaseTiming b).forceSettleGap.toInt ∧
      ((genesisLeaseTiming b).settleGrace + (genesisLeaseTiming b).forceSettleGap).toInt <
        (genesisLeaseTiming b).escrowExpiry.toInt ∧
      0 < (genesisLeaseTiming b).archiveGap.toInt := by
  unfold validateGenesisLeaseTiming at h
  obtain ⟨⟨⟩, -, h⟩ := bind_eq_ok.mp h
  obtain ⟨⟨⟩, hgrace, h⟩ := bind_eq_ok.mp h
  obtain ⟨⟨⟩, hskew, h⟩ := bind_eq_ok.mp h
  obtain ⟨⟨⟩, hgap, h⟩ := bind_eq_ok.mp h
  obtain ⟨⟨⟩, hescrow, harchive⟩ := bind_eq_ok.mp h
  rw [guardErr_eq_ok, Int64.not_le, Int64.lt_iff_toInt_lt] at hgrace hskew hgap hescrow harchive
  exact ⟨hgrace, hskew, hgap, hescrow, harchive⟩

theorem windows_linear {e g p x k : ℤ} (he : -9223372036854775808 ≤ e ∧ e < 9223372036854775808)
    (hg : 0 < g ∧ g < 9223372036854775808) (hk : 0 < k ∧ k < 9223372036854775808)
    (hp : -9223372036854775808 ≤ p ∧ p < 9223372036854775808)
    (hx : -9223372036854775808 ≤ x ∧ x < 9223372036854775808)
    (hgap : 2 * k - 18446744073709551616 * wraps (2 * k) < p)
    (hescrow : g + p - 18446744073709551616 * wraps (g + p) < x) :
    let a := e + g - 18446744073709551616 * wraps (e + g)
    let b := e + g + p - 18446744073709551616 * wraps (e + g + p)
    let c := e + x - 18446744073709551616 * wraps (e + x)
    (b < c ∧ (a < e ∨ a + 2 * k < b ∨ c + 2 * k ≤ e)) ↔
      wraps (e + g + p) = wraps (e + x) + wraps (g + p) ∧
        (0 < wraps (e + g) ∨ wraps (e + g + p) = 0 ∧ wraps (2 * k) = 0 ∨ wraps (e + g + p) < 0 ∨
          x + 2 * k ≤ 18446744073709551616 * wraps (e + x)) := by
  dsimp only
  unfold wraps at *
  refine and_congr ?_ ?_
  · omega
  · omega

theorem windowsApart_iff :
    WindowsApart c lease ↔
      (lease.effectiveExpiry + c.timing.settleGrace + c.timing.forceSettleGap).toInt <
          (lease.effectiveExpiry + c.timing.escrowExpiry).toInt ∧
        ∀ real s f : ℤ, |s - real| ≤ c.timing.maxAttestationSkew.toInt →
          |f - real| ≤ c.timing.maxAttestationSkew.toInt → lease.effectiveExpiry.toInt ≤ s →
            s ≤ (lease.effectiveExpiry + c.timing.settleGrace).toInt →
              (lease.effectiveExpiry + c.timing.settleGrace + c.timing.forceSettleGap).toInt ≤ f →
                ¬ f < (lease.effectiveExpiry + c.timing.escrowExpiry).toInt := by
  constructor
  · rintro ⟨hapart, f₀, hf₀⟩
    rw [forcesAt_iff] at hf₀
    refine ⟨by omega, fun real s f hs hf hes hsa hbf hfc => ?_⟩
    -- an integer inside a window is a 64-bit time
    obtain ⟨s, rfl⟩ := exists_toInt_eq (z := s)
      ⟨(toInt_bounds _).1.trans hes, hsa.trans_lt (toInt_bounds _).2⟩
    obtain ⟨f, rfl⟩ := exists_toInt_eq (z := f)
      ⟨(toInt_bounds _).1.trans hbf, hfc.trans (toInt_bounds _).2⟩
    exact hapart real s f hs hf (settlesAt_iff.mpr ⟨hes, hsa⟩) (forcesAt_iff.mpr ⟨hbf, hfc⟩)
  · rintro ⟨hnonempty, hapart⟩
    refine ⟨fun real s f hs hf hsettle hforce => ?_, ⟨_, forcesAt_iff.mpr ⟨le_rfl, hnonempty⟩⟩⟩
    rw [settlesAt_iff] at hsettle
    rw [forcesAt_iff] at hforce
    exact hapart real s.toInt f.toInt hs hf hsettle.1 hsettle.2 hforce.1 hforce.2

/-- **For a timing the genesis block may have, the windows of a lease are apart and the consumer's is
not empty exactly when their sums wrap together or not at all.** -/
theorem settlement_windows_apart_iff (c : Ctx) (lease : Lease)
    (h : validateGenesisLeaseTiming c.node.genesis = .ok ()) :
    WindowsApart c lease ↔ SumsFit c.timing lease.effectiveExpiry := by
  obtain ⟨hgrace, hskew, hgap, hescrow, -⟩ := validateGenesisLeaseTiming_eq_ok h
  change 0 < c.timing.settleGrace.toInt at hgrace
  change 0 < c.timing.maxAttestationSkew.toInt at hskew
  change (2 * c.timing.maxAttestationSkew).toInt < c.timing.forceSettleGap.toInt at hgap
  change (c.timing.settleGrace + c.timing.forceSettleGap).toInt < c.timing.escrowExpiry.toInt
    at hescrow
  rw [toInt_two_mul_eq] at hgap
  rw [toInt_add_eq] at hescrow
  rw [windowsApart_iff, apart_iff hskew.le, toInt_add_add_eq, toInt_add_eq, toInt_add_eq]
  exact windows_linear (toInt_bounds _) ⟨hgrace, (toInt_bounds _).2⟩ ⟨hskew, (toInt_bounds _).2⟩
    (toInt_bounds _) (toInt_bounds _) hgap hescrow

end Windows

namespace SampleWindows

open Sample in
/-- The sample node, with these values of timing in the genesis block. -/
def timed (gap escrow skew : Int64) : Ctx :=
  { ctx with
    node := { node with
      genesis := { genesis with
        leaseForceSettleGapNs := gap
        leaseEscrowExpiryNs := escrow
        maxAttestationSkewNs := skew } } }

/-- A lease of an hour. -/
def lease : Lease :=
  { (default : Lease) with startTime := 1000000000, duration := 3600 }

theorem timed_accepted :
    validateGenesisLeaseTiming (timed 0 0 0).node.genesis = .ok () ∧
      validateGenesisLeaseTiming (timed 1 31536000000000000 4611686018427387904).node.genesis = .ok () ∧
      validateGenesisLeaseTiming (timed 0 9223372036854775807 0).node.genesis = .ok () :=
  ⟨rfl, rfl, rfl⟩

end SampleWindows

open SampleWindows in
/-- With the default timing, for a lease of an hour. -/
theorem settlement_windows_apart_default :
    validateGenesisLeaseTiming (timed 0 0 0).node.genesis = .ok () ∧
      SumsFit (timed 0 0 0).timing lease.effectiveExpiry ∧ WindowsApart (timed 0 0 0) lease := by
  have hfit : SumsFit (timed 0 0 0).timing lease.effectiveExpiry := by decide +kernel
  exact ⟨timed_accepted.1, hfit,
    (settlement_windows_apart_iff (timed 0 0 0) lease timed_accepted.1).mpr hfit⟩

open SampleWindows in
/-- A gap of a nanosecond is accepted with a skew of 2^62 nanoseconds, since the double of the skew
is negative; at the instant the grace ends, a settlement and a forced one can then both be attested.
With an escrow that expires 2^63 - 1 nanoseconds after the lease, the end of the consumer's window
overflows, and no forced settlement is ever in it. -/
theorem settlement_windows_overlap :
    (validateGenesisLeaseTiming (timed 1 31536000000000000 4611686018427387904).node.genesis
        = .ok () ∧
      ∃ (real : ℤ) (s f : Int64), |s.toInt - real| ≤ 4611686018427387904 ∧
        |f.toInt - real| ≤ 4611686018427387904 ∧
        SettlesAt (timed 1 31536000000000000 4611686018427387904) lease s ∧
        ForcesAt (timed 1 31536000000000000 4611686018427387904) lease f) ∧
      validateGenesisLeaseTiming (timed 0 9223372036854775807 0).node.genesis = .ok () ∧
      ∀ f, ¬ ForcesAt (timed 0 9223372036854775807 0) lease f := by
  refine ⟨⟨timed_accepted.2.1, 7201000000000, 7201000000000, 7201000000001, ?_, ?_, ?_, ?_⟩,
    timed_accepted.2.2, fun f hforce => ?_⟩
  · decide
  · decide
  · rw [settlesAt_iff]
    decide +kernel
  · rw [forcesAt_iff]
    decide +kernel
  · rw [forcesAt_iff] at hforce
    have hempty : ¬ (lease.effectiveExpiry + (timed 0 9223372036854775807 0).timing.settleGrace +
        (timed 0 9223372036854775807 0).timing.forceSettleGap).toInt <
          (lease.effectiveExpiry + (timed 0 9223372036854775807 0).timing.escrowExpiry).toInt := by
      decide +kernel
    omega

end Xe
