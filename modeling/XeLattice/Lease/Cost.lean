import XeLattice.Core.Pricing
import Mathlib.Algebra.Order.Floor.Div
import Mathlib.Tactic.GCongr
import Mathlib.Tactic.Ring

/-!
# The price of a lease

`LeaseCost` computes in 64-bit words and checks each step for overflow.  `exactPrice` is the price
that the documentation gives, in natural numbers and with the divisions rounded up.

* **`leaseCost_eq_exactPrice`**: on accepted leases the two agree, and no check fails;
* **`lease_pricing_laws`**: bounds, monotonicity, and that renewing is never cheaper.
-/

set_option autoImplicit false

namespace Xe

/-! ## Words with overflow checks -/

section Words

variable {a b p : UInt64}

theorem toNat_pos_of_ne_zero (ha : a ≠ 0) : 0 < a.toNat :=
  Nat.pos_of_ne_zero fun h => ha (UInt64.toNat_inj.mp h)

theorem safeMul_eq_some : safeMul a b = some p ↔ a.toNat * b.toNat = p.toNat := by
  have hp := p.toNat_lt
  unfold safeMul
  by_cases hzero : a = 0 ∨ b = 0
  · have hprod : a.toNat * b.toNat = 0 := by
      rcases hzero with rfl | rfl <;> simp
    rw [if_pos hzero, hprod, Option.some_inj, ← UInt64.toNat_inj, UInt64.toNat_zero]
  · rw [if_neg hzero]
    by_cases hlt : a.toNat * b.toNat < 2 ^ 64
    · rw [if_pos hlt, Option.some_inj, ← UInt64.toNat_inj, UInt64.toNat_mul,
        Nat.mod_eq_of_lt hlt]
    · rw [if_neg hlt]
      constructor
      · intro h
        cases h
      · intro h
        omega

theorem safeAdd_eq_some : safeAdd a b = some p ↔ a.toNat + b.toNat = p.toNat := by
  have ha := a.toNat_lt
  have hb := b.toNat_lt
  have hp := p.toNat_lt
  have hsum : (a + b).toNat = (a.toNat + b.toNat) % 2 ^ 64 := UInt64.toNat_add a b
  unfold safeAdd
  by_cases hlt : a + b < a
  · rw [if_pos hlt]
    rw [UInt64.lt_iff_toNat_lt] at hlt
    constructor
    · intro h
      cases h
    · intro h
      omega
  · rw [if_neg hlt, Option.some_inj, ← UInt64.toNat_inj]
    rw [UInt64.lt_iff_toNat_lt] at hlt
    omega

theorem toNat_ceilDiv (a : UInt64) (hb : b ≠ 0) : (ceilDiv a b).toNat = a.toNat ⌈/⌉ b.toNat := by
  have hpos : 0 < b.toNat := toNat_pos_of_ne_zero hb
  unfold ceilDiv
  by_cases ha : a = 0
  · rw [if_pos ha, ha]
    simp
  · have hapos : 0 < a.toNat := toNat_pos_of_ne_zero ha
    have hle : (1 : UInt64) ≤ a := UInt64.le_iff_toNat_le.mpr hapos
    have hquot : ((a - 1) / b).toNat = (a.toNat - 1) / b.toNat := by
      rw [UInt64.toNat_div, UInt64.toNat_sub_of_le _ _ hle]
      rfl
    have hlt : (a.toNat - 1) / b.toNat + 1 < 2 ^ 64 := by
      have hdiv := Nat.div_le_self (a.toNat - 1) b.toNat
      have hword := a.toNat_lt
      omega
    rw [if_neg ha, UInt64.toNat_add, hquot, UInt64.toNat_one, Nat.mod_eq_of_lt hlt,
      Nat.ceilDiv_eq_add_pred_div, ← Nat.add_div_right _ hpos]
    congr 1
    omega

end Words

/-! ## Division rounded up -/

section CeilDiv

variable {m n d : ℕ}

theorem ceilDiv_mono (h : m ≤ n) (d : ℕ) : m ⌈/⌉ d ≤ n ⌈/⌉ d := by
  rw [Nat.ceilDiv_eq_add_pred_div, Nat.ceilDiv_eq_add_pred_div]
  exact Nat.div_le_div_right (by omega)

theorem ceilDiv_le_of_le_mul (hd : 0 < d) (h : m ≤ d * n) : m ⌈/⌉ d ≤ n :=
  (ceilDiv_le_iff_le_mul hd).mpr h

theorem le_mul_ceilDiv (hd : 0 < d) (m : ℕ) : m ≤ d * (m ⌈/⌉ d) :=
  (ceilDiv_le_iff_le_mul hd).mp le_rfl

theorem lt_ceilDiv_of_mul_lt (hd : 0 < d) (h : d * n < m) : n < m ⌈/⌉ d :=
  lt_of_not_ge fun hle => absurd ((ceilDiv_le_iff_le_mul hd).mp hle) (by omega)

theorem add_ceilDiv_le (hd : 0 < d) (m n : ℕ) : (m + n) ⌈/⌉ d ≤ m ⌈/⌉ d + n ⌈/⌉ d := by
  apply ceilDiv_le_of_le_mul hd
  rw [Nat.mul_add]
  exact Nat.add_le_add (le_mul_ceilDiv hd m) (le_mul_ceilDiv hd n)

end CeilDiv

/-! ## The documented price -/

/-- The price of an hour, in millionths of a dollar. -/
def perHour (vcpus memoryMB diskGB : ℕ) : ℕ :=
  vcpus * 20000 + memoryMB ⌈/⌉ 1024 * 10000 + diskGB * 1000

/-- The documented price: minutes are billed, and each division is rounded up. -/
def exactPrice (vcpus memoryMB diskGB duration multiplierMilli : ℕ) : ℕ :=
  ((perHour vcpus memoryMB diskGB * (duration ⌈/⌉ 60)) ⌈/⌉ 60 * multiplierMilli) ⌈/⌉ 1000

theorem perHour_mono {v v' m m' g g' : ℕ} (hv : v ≤ v') (hm : m ≤ m') (hg : g ≤ g') :
    perHour v m g ≤ perHour v' m' g' := by
  have hmem := ceilDiv_mono hm 1024
  unfold perHour
  gcongr

theorem exactPrice_mono {v v' m m' g g' d d' k k' : ℕ} (hv : v ≤ v') (hm : m ≤ m') (hg : g ≤ g')
    (hd : d ≤ d') (hk : k ≤ k') : exactPrice v m g d k ≤ exactPrice v' m' g' d' k' := by
  unfold exactPrice
  apply ceilDiv_mono
  apply Nat.mul_le_mul _ hk
  apply ceilDiv_mono
  exact Nat.mul_le_mul (perHour_mono hv hm hg) (ceilDiv_mono hd 60)

/-- A duration that is billed in two parts costs at least as much as one that is billed whole. -/
theorem exactPrice_add_le (v m g d₁ d₂ k : ℕ) :
    exactPrice v m g (d₁ + d₂) k ≤ exactPrice v m g d₁ k + exactPrice v m g d₂ k := by
  unfold exactPrice
  generalize perHour v m g = h
  have hminutes : h * ((d₁ + d₂) ⌈/⌉ 60) ≤ h * (d₁ ⌈/⌉ 60) + h * (d₂ ⌈/⌉ 60) := by
    rw [← Nat.mul_add]
    exact Nat.mul_le_mul_left h (add_ceilDiv_le (by omega) d₁ d₂)
  have hcost := (ceilDiv_mono hminutes 60).trans (add_ceilDiv_le (by omega) _ _)
  have hscaled := Nat.mul_le_mul_right k hcost
  rw [Nat.add_mul] at hscaled
  exact (ceilDiv_mono hscaled 1000).trans (add_ceilDiv_le (by omega) _ _)

/-! ## Accepted leases -/

/-- A lease that `ValidateLeaseDimensions` accepts, with a multiplier that a certificate may
have. -/
structure Billable (minDuration vcpus memoryMB diskGB duration multiplierMilli : UInt64) : Prop where
  dimensions : validateLeaseDimensions minDuration vcpus memoryMB diskGB duration = .ok ()
  lower : 500 ≤ multiplierMilli
  upper : multiplierMilli ≤ 10000

section Accepted

variable {minDuration v m g d k : UInt64}

theorem validateLeaseDimensions_eq_ok :
    validateLeaseDimensions minDuration v m g d = .ok () ↔
      ¬ (v = 0 ∧ m = 0 ∧ g = 0) ∧ v ≤ leaseMaxVCPUs ∧ m ≤ leaseMaxMemoryMB ∧
        g ≤ leaseMaxDiskGB ∧ minDuration ≤ d ∧ d ≤ leaseMaxDuration := by
  unfold validateLeaseDimensions
  simp only [gt_iff_lt, bind, Except.bind, pure, Except.pure]
  split_ifs <;> grind

theorem Billable.perHour_pos (h : Billable minDuration v m g d k) :
    1000 ≤ perHour v.toNat m.toNat g.toNat := by
  obtain ⟨hsome, -⟩ := validateLeaseDimensions_eq_ok.mp h.dimensions
  have hmem : m ≠ 0 → 0 < m.toNat ⌈/⌉ 1024 := fun hm =>
    lt_ceilDiv_of_mul_lt (by omega) (by simpa using toNat_pos_of_ne_zero hm)
  unfold perHour
  by_cases hv : v = 0
  · by_cases hm : m = 0
    · have hg := toNat_pos_of_ne_zero fun hg => hsome ⟨hv, hm, hg⟩
      omega
    · have hpos := hmem hm
      omega
  · have hpos := toNat_pos_of_ne_zero hv
    omega

theorem Billable.perHour_le (h : Billable minDuration v m g d k) :
    perHour v.toNat m.toNat g.toNat ≤ 1785856000 := by
  obtain ⟨-, hv, hm, hg, -, -⟩ := validateLeaseDimensions_eq_ok.mp h.dimensions
  exact perHour_mono (UInt64.le_iff_toNat_le.mp hv) (UInt64.le_iff_toNat_le.mp hm)
    (UInt64.le_iff_toNat_le.mp hg)

theorem Billable.minutes_le (h : Billable minDuration v m g d k) : d.toNat ⌈/⌉ 60 ≤ 525600 := by
  obtain ⟨-, -, -, -, -, hd⟩ := validateLeaseDimensions_eq_ok.mp h.dimensions
  exact ceilDiv_mono (UInt64.le_iff_toNat_le.mp hd) 60

theorem Billable.minutes_pos (h : Billable minDuration v m g d k) (hmin : minDuration ≠ 0) :
    1 ≤ d.toNat ⌈/⌉ 60 := by
  obtain ⟨-, -, -, -, hd, -⟩ := validateLeaseDimensions_eq_ok.mp h.dimensions
  have hpos := toNat_pos_of_ne_zero hmin
  have hle := UInt64.le_iff_toNat_le.mp hd
  exact lt_ceilDiv_of_mul_lt (by omega) (by omega)

theorem Billable.minuteCost_le (h : Billable minDuration v m g d k) :
    perHour v.toNat m.toNat g.toNat * (d.toNat ⌈/⌉ 60) ≤ 938645913600000 :=
  Nat.mul_le_mul h.perHour_le h.minutes_le

theorem Billable.cost_le (h : Billable minDuration v m g d k) :
    (perHour v.toNat m.toNat g.toNat * (d.toNat ⌈/⌉ 60)) ⌈/⌉ 60 * k.toNat ≤
      156440985600000000 :=
  Nat.mul_le_mul (ceilDiv_mono h.minuteCost_le 60) (UInt64.le_iff_toNat_le.mp h.upper)

theorem Billable.nine_le_exactPrice (h : Billable minDuration v m g d k) (hmin : minDuration ≠ 0) :
    9 ≤ exactPrice v.toNat m.toNat g.toNat d.toNat k.toNat := by
  have hminutes : 1000 * 1 ≤ perHour v.toNat m.toNat g.toNat * (d.toNat ⌈/⌉ 60) :=
    Nat.mul_le_mul h.perHour_pos (h.minutes_pos hmin)
  have hscaled := Nat.mul_le_mul (ceilDiv_mono hminutes 60) (UInt64.le_iff_toNat_le.mp h.lower)
  exact ceilDiv_mono hscaled 1000

theorem Billable.exactPrice_lt (h : Billable minDuration v m g d k) :
    exactPrice v.toNat m.toNat g.toNat d.toNat k.toNat < 2 ^ 63 :=
  (ceilDiv_mono h.cost_le 1000).trans_lt (by decide)

theorem mulOrErr_eq_ok {what : Str} {a b p : UInt64} :
    mulOrErr what a b = .ok p ↔ a.toNat * b.toNat = p.toNat := by
  rw [← safeMul_eq_some]
  unfold mulOrErr
  cases safeMul a b <;> simp

theorem addOrErr_eq_ok {what : Str} {a b p : UInt64} :
    addOrErr what a b = .ok p ↔ a.toNat + b.toNat = p.toNat := by
  rw [← safeAdd_eq_some]
  unfold addOrErr
  cases safeAdd a b <;> simp

theorem exists_word {n : ℕ} (h : n < 2 ^ 64) : ∃ p : UInt64, p.toNat = n :=
  ⟨UInt64.ofNat n, UInt64.toNat_ofNat_of_lt h⟩

/-- **On an accepted lease no check of `LeaseCost` fails, and its result is the documented
price.** -/
theorem leaseCost_eq_exactPrice (h : Billable minDuration v m g d k) (hmin : minDuration ≠ 0) :
    ∃ c, leaseCost minDuration v m g d k = .ok c ∧
      c.toNat = exactPrice v.toNat m.toNat g.toNat d.toNat k.toNat := by
  obtain ⟨-, hv, hm, hg, hd, hd'⟩ := validateLeaseDimensions_eq_ok.mp h.dimensions
  have hk : k ≠ 0 := by
    rintro rfl
    exact absurd h.lower (by decide)
  have hlo := h.perHour_pos
  have hhi := h.perHour_le
  have hmem : (ceilDiv m 1024).toNat = m.toNat ⌈/⌉ 1024 := toNat_ceilDiv m (by decide)
  have hmin60 : (ceilDiv d 60).toNat = d.toNat ⌈/⌉ 60 := toNat_ceilDiv d (by decide)
  have hscale := h.minuteCost_le
  have hcost := h.cost_le
  unfold perHour at hlo hhi
  -- the words of the three rates, their sums and the two products
  obtain ⟨vcpu, hvcpu⟩ : ∃ p : UInt64, p.toNat = v.toNat * 20000 := exists_word (by omega)
  obtain ⟨mem, hmemW⟩ : ∃ p : UInt64, p.toNat = m.toNat ⌈/⌉ 1024 * 10000 := exists_word (by omega)
  obtain ⟨disk, hdisk⟩ : ∃ p : UInt64, p.toNat = g.toNat * 1000 := exists_word (by omega)
  obtain ⟨part, hpart⟩ : ∃ p : UInt64, p.toNat = vcpu.toNat + mem.toNat := exists_word (by omega)
  obtain ⟨hour, hhour⟩ : ∃ p : UInt64, p.toNat = part.toNat + disk.toNat := exists_word (by omega)
  have hper : hour.toNat = perHour v.toNat m.toNat g.toNat := by
    unfold perHour
    omega
  rw [← hper, ← hmin60] at hscale hcost
  obtain ⟨whole, hwhole⟩ : ∃ p : UInt64, p.toNat = hour.toNat * (ceilDiv d 60).toNat :=
    exists_word (by omega)
  rw [← hwhole] at hcost
  have hmicro : (ceilDiv whole 60).toNat = whole.toNat ⌈/⌉ 60 := toNat_ceilDiv whole (by decide)
  obtain ⟨scaled, hscaled⟩ : ∃ p : UInt64, p.toNat = (ceilDiv whole 60).toNat * k.toNat :=
    exists_word (by rw [hmicro]; omega)
  have hfinal : (ceilDiv scaled 1000).toNat =
      exactPrice v.toNat m.toNat g.toNat d.toNat k.toNat := by
    rw [toNat_ceilDiv scaled (by decide), hscaled, hmicro, hwhole, hper, hmin60]
    rfl
  have hne : ceilDiv scaled 1000 ≠ 0 := by
    intro hzero
    have hnine := h.nine_le_exactPrice hmin
    rw [← hfinal, hzero] at hnine
    exact absurd hnine (by decide)
  have hhour0 : hour ≠ 0 := by
    rintro rfl
    have hzero : UInt64.toNat 0 = 0 := rfl
    omega
  have e₁ : ∀ w, mulOrErr w v leaseVCPURate = .ok vcpu := fun w => mulOrErr_eq_ok.mpr hvcpu.symm
  have e₂ : ∀ w, mulOrErr w (ceilDiv m 1024) leaseMemGBRate = .ok mem := fun w =>
    mulOrErr_eq_ok.mpr (by rw [hmem, hmemW]; rfl)
  have e₃ : ∀ w, mulOrErr w g leaseDiskGBRate = .ok disk := fun w => mulOrErr_eq_ok.mpr hdisk.symm
  have e₄ : ∀ w, addOrErr w vcpu mem = .ok part := fun w => addOrErr_eq_ok.mpr hpart.symm
  have e₅ : ∀ w, addOrErr w part disk = .ok hour := fun w => addOrErr_eq_ok.mpr hhour.symm
  have e₆ : ∀ w, mulOrErr w hour (ceilDiv d 60) = .ok whole := fun w =>
    mulOrErr_eq_ok.mpr hwhole.symm
  have e₇ : ∀ w, mulOrErr w (ceilDiv whole 60) k = .ok scaled := fun w =>
    mulOrErr_eq_ok.mpr hscaled.symm
  refine ⟨_, ?_, hfinal⟩
  unfold leaseCost
  simp only [if_neg hk, if_neg (UInt64.not_lt.mpr hd), gt_iff_lt, if_neg (UInt64.not_lt.mpr hd'),
    e₁, e₂, e₃, e₄, e₅, e₆, e₇, if_neg hhour0, if_neg hne, bind, Except.bind]

end Accepted

/-! ## The laws -/

theorem minDuration_ne_zero (genesis : Block) : (genesisLeaseTiming genesis).minDuration ≠ 0 := by
  show (if genesis.leaseMinDurationSecs ≠ 0 then genesis.leaseMinDurationSecs else 60) ≠ 0
  split_ifs with h
  · exact h
  · decide

/-- **The laws of the lease price, on a network with any genesis block.** -/
theorem lease_pricing_laws (genesis : Block) :
    let cost := leaseCost (genesisLeaseTiming genesis).minDuration
    let Legal := Billable (genesisLeaseTiming genesis).minDuration
    (∀ v m g d k, Legal v m g d k → ∃ c, cost v m g d k = .ok c ∧
      c.toNat = exactPrice v.toNat m.toNat g.toNat d.toNat k.toNat ∧
        9 ≤ c.toNat ∧ c.toNat < 2 ^ 63) ∧
    (∀ v m g d k c v' m' g' d' k' c', Legal v m g d k → Legal v' m' g' d' k' →
      v ≤ v' → m ≤ m' → g ≤ g' → d ≤ d' → k ≤ k' →
        cost v m g d k = .ok c → cost v' m' g' d' k' = .ok c' → c ≤ c') ∧
    (∀ v m g k d₁ c₁ d₂ c₂ c, Legal v m g d₁ k → Legal v m g d₂ k → Legal v m g (d₁ + d₂) k →
      cost v m g d₁ k = .ok c₁ → cost v m g d₂ k = .ok c₂ → cost v m g (d₁ + d₂) k = .ok c →
        c.toNat ≤ c₁.toNat + c₂.toNat) := by
  intro cost Legal
  have hmin := minDuration_ne_zero genesis
  have hexact : ∀ {v m g d k c}, Legal v m g d k → cost v m g d k = .ok c →
      c.toNat = exactPrice v.toNat m.toNat g.toNat d.toNat k.toNat := by
    intro v m g d k c hlegal hc
    obtain ⟨c', hc', hprice⟩ := leaseCost_eq_exactPrice hlegal hmin
    rw [← hprice, Except.ok.inj (hc.symm.trans hc')]
  refine ⟨?_, ?_, ?_⟩
  · intro v m g d k hlegal
    obtain ⟨c, hc, hprice⟩ := leaseCost_eq_exactPrice hlegal hmin
    refine ⟨c, hc, hprice, ?_, ?_⟩
    · rw [hprice]
      exact hlegal.nine_le_exactPrice hmin
    · rw [hprice]
      exact hlegal.exactPrice_lt
  · intro v m g d k c v' m' g' d' k' c' hlegal hlegal' hv hm hg hd hk hc hc'
    rw [UInt64.le_iff_toNat_le, hexact hlegal hc, hexact hlegal' hc']
    rw [UInt64.le_iff_toNat_le] at hv hm hg hd hk
    exact exactPrice_mono hv hm hg hd hk
  · intro v m g k d₁ c₁ d₂ c₂ c h₁ h₂ h hc₁ hc₂ hc
    have hd₁ := UInt64.le_iff_toNat_le.mp (validateLeaseDimensions_eq_ok.mp h₁.dimensions).2.2.2.2.2
    have hd₂ := UInt64.le_iff_toNat_le.mp (validateLeaseDimensions_eq_ok.mp h₂.dimensions).2.2.2.2.2
    have hmax : leaseMaxDuration.toNat = 31536000 := rfl
    have hsum : (d₁ + d₂).toNat = d₁.toNat + d₂.toNat := by
      rw [UInt64.toNat_add]
      omega
    rw [hexact h hc, hexact h₁ hc₁, hexact h₂ hc₂, hsum]
    exact exactPrice_add_le _ _ _ _ _ _

/-- A minute of one gigabyte of disk, at half the price: the cheapest lease. -/
theorem lease_pricing_laws_cheapest :
    Billable 60 0 0 1 60 500 ∧ ∃ c, leaseCost 60 0 0 1 60 500 = .ok c ∧ c.toNat = 9 := by
  have hlegal : Billable 60 0 0 1 60 500 := ⟨by decide, by decide, by decide⟩
  obtain ⟨c, hc, hprice, -⟩ := (lease_pricing_laws default).1 0 0 1 60 500 hlegal
  exact ⟨hlegal, c, hc, hprice⟩

end Xe
