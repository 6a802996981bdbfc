import XeLattice.Core.Restart
import Mathlib.Algebra.BigOperators.Ring.List
import Mathlib.Data.UInt

/-!
# The readiness report

How much delegated weight is behind the peers that advertise a feature.  Representatives are
resolved through the directory to what their peers have advertised; the lists of features come from
the peers and are counted as they are.

* **`readiness_iff`**: when the report is the weighted fraction that it should be.
-/

set_option autoImplicit false

namespace Xe

/-! ## The report -/

/-- `PeerCapabilities`. -/
structure PeerCapabilities where
  version : Str
  features : List Str

/-- The fields of a `Registration` that the report reads. -/
structure Registration where
  account : Str
  nodePeer : Str

/-- `ReadinessInfo`. -/
structure ReadinessInfo where
  totalWeight : UInt64
  featureWeight : Table Str UInt64
  featureReadyMilli : Table Str UInt64
  versionWeight : List (Str × UInt64)
  unknownWeight : UInt64
  resolvedReps : ℕ
  totalReps : ℕ

/-- What the loop over the representatives has counted. -/
structure Count where
  unknown : UInt64
  resolved : ℕ
  versions : Table Str UInt64
  features : Table Str UInt64

/-- One round of the loop over the directory. -/
def register (caps : Table Str PeerCapabilities) (byAccount : Table Str PeerCapabilities) :
    Option Registration → Table Str PeerCapabilities
  | none => byAccount
  | some reg =>
    if reg.nodePeer = [] then byAccount
    else (caps.get reg.nodePeer).elim byAccount (byAccount.set reg.account)

/-- `byAccount`: what is known of the peers of accounts, and of this build. -/
def capabilities (caps : Table Str PeerCapabilities) (directory : List (Option Registration))
    (own : Str) (build : PeerCapabilities) : Table Str PeerCapabilities :=
  (directory.foldl (register caps) .empty).set own build

/-- `m[k] += w`. -/
def bump (w : UInt64) (m : Table Str UInt64) (k : Str) : Table Str UInt64 :=
  m.set k ((m.get k).getD 0 + w)

section Report

variable (byAccount : Table Str PeerCapabilities) (weights : Table Str UInt64)

/-- One round of the loop over the representatives. -/
def countRep (n : Count) (rep : Str) : Count :=
  let w := (weights.get rep).getD 0
  match byAccount.get rep with
  | none => { n with unknown := n.unknown + w }
  | some c =>
    { unknown := n.unknown
      resolved := n.resolved + 1
      versions := bump w n.versions c.version
      features := c.features.foldl (bump w) n.features }

/-- The loop of `GetReadiness`. -/
def countReps (reps : List Str) : Count :=
  reps.foldl (countRep byAccount weights) ⟨0, 0, .empty, .empty⟩

/-- `TotalWeight` of `GetDelegation`. -/
def totalWeight (reps : List Str) : UInt64 :=
  reps.foldl (fun total rep => total + (weights.get rep).getD 0) 0

/-- `w * 1000 / total`. -/
def readyMilli (total w : UInt64) : UInt64 :=
  if total = 0 then 0 else w * 1000 / total

/-- The report, with the orders in which the loops over maps go through their keys. -/
def report (delegated reps versions : List Str) : ReadinessInfo :=
  let total := totalWeight weights delegated
  let n := countReps byAccount weights reps
  { totalWeight := total
    featureWeight := n.features
    featureReadyMilli := n.features.filterMap fun _ w => some (readyMilli total w)
    versionWeight := (versions.map fun v => (v, (n.versions.get v).getD 0)).insertionSort
      fun x y => y.2 < x.2 ∨ x.2 = y.2 ∧ strLt y.1 x.1 = false
    unknownWeight := n.unknown
    resolvedReps := n.resolved
    totalReps := weights.keys.card }

/-- `GetReadiness`. -/
def getReadiness (caps : Table Str PeerCapabilities) (directory : List (Option Registration))
    (own : Str) (build : PeerCapabilities) (delegated reps versions : List Str) : ReadinessInfo :=
  report (capabilities caps directory own build) weights delegated reps versions

/-! ## What it should be -/

/-- The features that are advertised for a representative, none if it is not resolved. -/
def advertised (rep : Str) : List Str :=
  ((byAccount.get rep).map (·.features)).getD []

/-- The weight behind a feature: of the representatives that advertise it, each counted once. -/
def weightBehind (f : Str) : ℕ :=
  weights.sum fun rep w => if f ∈ advertised byAccount rep then w.toNat else 0

/-- **The report is a weighted fraction**, and nothing has wrapped around. -/
structure ReadinessInfo.IsFraction (info : ReadinessInfo) : Prop where
  total : info.totalWeight.toNat = weights.sum fun _ w => w.toNat
  split : info.unknownWeight.toNat + (info.versionWeight.map fun v => v.2.toNat).sum =
    info.totalWeight.toNat
  counted : ∀ f, ((info.featureWeight.get f).getD 0).toNat =
    weights.sum fun rep w => w.toNat * (advertised byAccount rep).count f
  once : ∀ f, ((info.featureWeight.get f).getD 0).toNat = weightBehind byAccount weights f
  bounded : ∀ f, ((info.featureWeight.get f).getD 0).toNat ≤ info.totalWeight.toNat
  milli : ∀ f, ((info.featureReadyMilli.get f).getD 0).toNat =
    1000 * ((info.featureWeight.get f).getD 0).toNat / info.totalWeight.toNat
  perMille : ∀ f, ((info.featureReadyMilli.get f).getD 0).toNat ≤ 1000

/-- The weights fit, also a thousand times those behind a feature, and nobody with weight
advertises a feature twice. -/
structure Countable : Prop where
  total : (weights.sum fun _ w => w.toNat) < 2 ^ 64
  nodup : ∀ rep w, weights.get rep = some w → w ≠ 0 → (advertised byAccount rep).Nodup
  room : ∀ f, 1000 * weightBehind byAccount weights f < 2 ^ 64

end Report

/-! ## The loops -/

section Loops

variable {byAccount : Table Str PeerCapabilities} {weights : Table Str UInt64}
  {delegated reps versions : List Str}

theorem Lists.sum_weight (h : Lists reps weights) (g : Str → UInt64 → ℕ) :
    (reps.map (weights.weight g)).sum = weights.sum g := by
  have hkeys : weights.keys = reps.toFinset := by
    ext k
    rw [List.mem_toFinset, h.2, ne_eq, ← Table.notMem_keys, not_not]
  rw [Table.sum, hkeys, List.sum_toFinset _ h.1]

theorem weight_toNat (rep : Str) :
    weights.weight (fun _ w => w.toNat) rep = ((weights.get rep).getD 0).toNat := by
  unfold Table.weight
  cases weights.get rep <;> rfl

theorem toNat_foldl {α β : Type} (word : β → UInt64) (step : β → α → β) (g : α → ℕ)
    (hstep : ∀ n a, (word (step n a)).toNat = ((word n).toNat + g a) % 2 ^ 64) (l : List α) (n : β) :
    (word (l.foldl step n)).toNat = ((word n).toNat + (l.map g).sum) % 2 ^ 64 := by
  induction l generalizing n with
  | nil => exact (Nat.mod_eq_of_lt (word n).toNat_lt).symm
  | cons a l ih =>
    rw [List.foldl_cons, ih, hstep, List.map_cons, List.sum_cons]
    omega

theorem toNat_totalWeight (reps : List Str) : (totalWeight weights reps).toNat =
    (reps.map (weights.weight fun _ w => w.toNat)).sum % 2 ^ 64 := by
  have hloop := toNat_foldl id (fun n rep => n + (weights.get rep).getD 0)
    (weights.weight fun _ w => w.toNat)
    (fun n rep => by rw [weight_toNat, id, id, UInt64.toNat_add]) reps 0
  rwa [id, id, UInt64.toNat_zero, Nat.zero_add] at hloop

theorem toNat_bump (w : UInt64) (m : Table Str UInt64) (k f : Str) :
    (((bump w m k).get f).getD 0).toNat =
      (((m.get f).getD 0).toNat + w.toNat * if k = f then 1 else 0) % 2 ^ 64 := by
  rw [bump, Table.get_set]
  rcases eq_or_ne f k with rfl | hne
  · rw [if_pos rfl, if_pos rfl, Option.getD_some, UInt64.toNat_add, Nat.mul_one]
  · rw [if_neg hne, if_neg hne.symm, Nat.mul_zero, Nat.add_zero,
      Nat.mod_eq_of_lt ((m.get f).getD 0).toNat_lt]

theorem toNat_countRep (n : Count) (rep f : Str) :
    (((countRep byAccount weights n rep).features.get f).getD 0).toNat =
      (((n.features.get f).getD 0).toNat +
        weights.weight (fun rep w => w.toNat * (advertised byAccount rep).count f) rep) %
          2 ^ 64 := by
  have hw : weights.weight (fun rep w => w.toNat * (advertised byAccount rep).count f) rep =
      ((weights.get rep).getD 0).toNat * (advertised byAccount rep).count f := by
    unfold Table.weight
    cases weights.get rep with
    | none => exact (Nat.zero_mul _).symm
    | some w => rfl
  have hcount : ∀ fs : List Str, (fs.map fun k => if k = f then 1 else 0).sum = fs.count f := by
    intro fs
    induction fs with
    | nil => rfl
    | cons k fs ih => simp [List.count_cons, ih, Nat.add_comm]
  rw [hw]
  unfold countRep advertised
  cases byAccount.get rep with
  | none => exact (Nat.mod_eq_of_lt ((n.features.get f).getD 0).toNat_lt).symm
  | some c =>
    refine (toNat_foldl (fun m => (m.get f).getD 0) _ _ (fun m k => toNat_bump _ m k f) c.features
      n.features).trans ?_
    rw [List.sum_map_mul_left, hcount]
    rfl

/-- What is counted for a feature, up to a multiple of the word size. -/
theorem toNat_features (reps : List Str) (f : Str) :
    (((countReps byAccount weights reps).features.get f).getD 0).toNat =
      (reps.map (weights.weight fun rep w => w.toNat * (advertised byAccount rep).count f)).sum %
        2 ^ 64 := by
  refine (toNat_foldl (fun n => (n.features.get f).getD 0) _ _
    (fun n rep => toNat_countRep n rep f) reps _).trans ?_
  rw [Table.get_empty, Option.getD_none, UInt64.toNat_zero, Nat.zero_add]

theorem sum_bump {w : UInt64} {m : Table Str UInt64} (k : Str)
    (h : (m.sum fun _ w => w.toNat) + w.toNat < 2 ^ 64) :
    ((bump w m k).sum fun _ w => w.toNat) = (m.sum fun _ w => w.toNat) + w.toNat := by
  have hset := Table.sum_set (fun _ w => w.toNat) m k ((m.get k).getD 0 + w)
  have hle := Table.sum_map_weight_le (fun _ w => w.toNat) m (List.nodup_singleton k)
  rw [List.map_singleton, List.sum_singleton, weight_toNat] at hle
  rw [weight_toNat, UInt64.toNat_add, Nat.mod_eq_of_lt (by omega)] at hset
  unfold bump
  omega

theorem toNat_unknown (byAccount : Table Str PeerCapabilities)
    (h : (reps.map (weights.weight fun _ w => w.toNat)).sum < 2 ^ 64) :
    (countReps byAccount weights reps).unknown.toNat +
      ((countReps byAccount weights reps).versions.sum fun _ w => w.toNat) =
        (reps.map (weights.weight fun _ w => w.toNat)).sum := by
  have hloop : ∀ n : Count, n.unknown.toNat + (n.versions.sum fun _ w => w.toNat) +
      (reps.map (weights.weight fun _ w => w.toNat)).sum < 2 ^ 64 →
      (reps.foldl (countRep byAccount weights) n).unknown.toNat +
        ((reps.foldl (countRep byAccount weights) n).versions.sum fun _ w => w.toNat) =
          n.unknown.toNat + (n.versions.sum fun _ w => w.toNat) +
            (reps.map (weights.weight fun _ w => w.toNat)).sum := by
    clear h
    induction reps with
    | nil => exact fun n _ => rfl
    | cons rep reps ih =>
      intro n hn
      rw [List.map_cons, List.sum_cons, weight_toNat] at hn ⊢
      have hround : (countRep byAccount weights n rep).unknown.toNat +
          ((countRep byAccount weights n rep).versions.sum fun _ w => w.toNat) =
            n.unknown.toNat + (n.versions.sum fun _ w => w.toNat) +
              ((weights.get rep).getD 0).toNat := by
        unfold countRep
        cases byAccount.get rep with
        | none =>
          dsimp only
          rw [UInt64.toNat_add, Nat.mod_eq_of_lt (by omega)]
          omega
        | some c =>
          dsimp only
          rw [sum_bump c.version (by omega)]
          omega
      rw [List.foldl_cons, ih _ (by omega), hround]
      omega
  have hall := hloop ⟨0, 0, .empty, .empty⟩
  simp only [UInt64.toNat_zero, Table.sum_empty, Nat.zero_add] at hall
  exact hall h

/-- A thousandth of the total: the product must not wrap. -/
theorem toNat_readyMilli_iff {total w : UInt64} (hw : w.toNat ≤ total.toNat) :
    (readyMilli total w).toNat = 1000 * w.toNat / total.toNat ↔ 1000 * w.toNat < 2 ^ 64 := by
  have htotal := total.toNat_lt
  unfold readyMilli
  split_ifs with h
  · subst h
    have hzero : w.toNat = 0 := Nat.le_zero.mp hw
    simp [hzero]
  · have hpos : 0 < total.toNat := Nat.pos_of_ne_zero fun h₀ => h (UInt64.toNat_inj.mp h₀)
    have hmul : (w * 1000).toNat = 1000 * w.toNat % 2 ^ 64 := by
      rw [UInt64.toNat_mul, Nat.mul_comm]
      rfl
    rw [UInt64.toNat_div, hmul]
    constructor
    · intro heq
      by_contra hge
      have hsplit := Nat.mod_add_div (1000 * w.toNat) (2 ^ 64)
      have hone : 1 ≤ 1000 * w.toNat / 2 ^ 64 := (Nat.one_le_div_iff (by decide)).mpr (by omega)
      have hless : (1000 * w.toNat % 2 ^ 64 + total.toNat) / total.toNat ≤
          1000 * w.toNat / total.toNat := Nat.div_le_div_right (by omega)
      rw [Nat.add_div_right _ hpos] at hless
      omega
    · exact fun hlt => by rw [Nat.mod_eq_of_lt hlt]

/-! ## The report is right -/

theorem sum_le_sum {g g' : Str → UInt64 → ℕ} (h : ∀ rep w, g rep w ≤ g' rep w) :
    weights.sum g ≤ weights.sum g' ∧ (weights.sum g = weights.sum g' ↔
      ∀ rep w, weights.get rep = some w → g rep w = g' rep w) := by
  have hle : ∀ rep ∈ weights.keys, weights.weight g rep ≤ weights.weight g' rep := by
    intro rep _
    unfold Table.weight
    cases weights.get rep with
    | none => exact le_rfl
    | some w => exact h rep w
  refine ⟨Finset.sum_le_sum hle, (Finset.sum_eq_sum_iff_of_le hle).trans ?_⟩
  constructor
  · intro heq rep w hw
    have hrep := heq rep (Table.mem_keys.mpr ⟨w, hw⟩)
    rwa [Table.weight, Table.weight, hw] at hrep
  · intro heq rep hrep
    obtain ⟨w, hw⟩ := Table.mem_keys.mp hrep
    rw [Table.weight, Table.weight, hw]
    exact heq rep w hw

theorem weightBehind_le (byAccount : Table Str PeerCapabilities) (weights : Table Str UInt64)
    (f : Str) : weightBehind byAccount weights f ≤ weights.sum fun _ w => w.toNat :=
  (sum_le_sum fun rep w => by split_ifs <;> simp).1

/-- A feature is counted once for everybody, if nobody with weight lists it twice. -/
theorem weightBehind_eq_iff : (∀ f, weightBehind byAccount weights f =
      weights.sum fun rep w => w.toNat * (advertised byAccount rep).count f) ↔
    ∀ rep w, weights.get rep = some w → w ≠ 0 → (advertised byAccount rep).Nodup := by
  have hle : ∀ f rep (w : UInt64), (if f ∈ advertised byAccount rep then w.toNat else 0) ≤
      w.toNat * (advertised byAccount rep).count f := by
    intro f rep w
    split_ifs with hf
    · exact Nat.le_mul_of_pos_right _ (List.count_pos_iff.mpr hf)
    · exact Nat.zero_le _
  simp only [weightBehind, (sum_le_sum (hle _)).2]
  constructor
  · intro h rep w hw hne
    refine List.nodup_iff_count_le_one.mpr fun f => ?_
    by_contra hc
    have hf : f ∈ advertised byAccount rep := List.count_pos_iff.mp (by omega)
    have heq := h f rep w hw
    rw [if_pos hf] at heq
    have hpos : 0 < w.toNat := Nat.pos_of_ne_zero fun h₀ => hne (UInt64.toNat_inj.mp h₀)
    have := Nat.mul_le_mul_left w.toNat (show 2 ≤ (advertised byAccount rep).count f by omega)
    omega
  · intro h f rep w hw
    rcases eq_or_ne w 0 with rfl | hne
    · simp
    · split_ifs with hf
      · rw [List.nodup_iff_count_eq_one.mp (h rep w hw hne) f hf, Nat.mul_one]
      · rw [List.count_eq_zero.mpr hf, Nat.mul_zero]

theorem readyMilli_zero (total : UInt64) : readyMilli total 0 = 0 := by
  unfold readyMilli
  split_ifs
  · rfl
  · apply UInt64.toNat_inj.mp
    rw [UInt64.toNat_div, UInt64.zero_mul, UInt64.toNat_zero, Nat.zero_div]

theorem get_featureReadyMilli (total : UInt64) (features : Table Str UInt64) (f : Str) :
    ((features.filterMap fun _ w => some (readyMilli total w)).get f).getD 0 =
      readyMilli total ((features.get f).getD 0) := by
  rw [Table.get_filterMap]
  cases features.get f with
  | none => exact (readyMilli_zero total).symm
  | some w => rfl

theorem report_iff (hd : Lists delegated weights) (hr : Lists reps weights)
    (hv : Lists versions (countReps byAccount weights reps).versions) :
    (report byAccount weights delegated reps versions).IsFraction byAccount weights ↔
      Countable byAccount weights := by
  have hfeature : ∀ f, (((countReps byAccount weights reps).features.get f).getD 0).toNat =
      (weights.sum fun rep w => w.toNat * (advertised byAccount rep).count f) % 2 ^ 64 :=
    fun f => by rw [toNat_features, hr.sum_weight]
  have htotal : (totalWeight weights delegated).toNat = (weights.sum fun _ w => w.toNat) % 2 ^ 64 := by
    rw [toNat_totalWeight, hd.sum_weight]
  constructor
  · intro h
    refine ⟨h.total ▸ UInt64.toNat_lt _, weightBehind_eq_iff.mp fun f => ?_, fun f => ?_⟩
    · rw [← h.once f, h.counted f]
    · have hmilli := h.milli f
      rw [report, get_featureReadyMilli] at hmilli
      rw [← h.once f]
      exact (toNat_readyMilli_iff (h.bounded f)).mp hmilli
  · intro h
    have hsum := weightBehind_eq_iff.mpr h.nodup
    have hfits : ∀ f, weightBehind byAccount weights f < 2 ^ 64 := fun f =>
      lt_of_le_of_lt (weightBehind_le _ _ f) h.total
    have honce : ∀ f, (((countReps byAccount weights reps).features.get f).getD 0).toNat =
        weightBehind byAccount weights f := fun f => by
      rw [hfeature, ← hsum, Nat.mod_eq_of_lt (hfits f)]
    rw [Nat.mod_eq_of_lt h.total] at htotal
    have hbound : ∀ f, (((countReps byAccount weights reps).features.get f).getD 0).toNat ≤
        (totalWeight weights delegated).toNat := fun f => by
      rw [honce, htotal]
      exact weightBehind_le _ _ f
    have hmilli : ∀ f, (((report byAccount weights delegated reps versions).featureReadyMilli.get
        f).getD 0).toNat = 1000 * (((countReps byAccount weights reps).features.get f).getD
          0).toNat / (totalWeight weights delegated).toNat := fun f => by
      rw [report, get_featureReadyMilli]
      exact (toNat_readyMilli_iff (hbound f)).mpr (honce f ▸ h.room f)
    refine ⟨htotal, ?_, fun f => ?_, honce, hbound, hmilli, fun f => ?_⟩
    · have hperm := List.perm_insertionSort (fun x y : Str × UInt64 =>
        y.2 < x.2 ∨ x.2 = y.2 ∧ strLt y.1 x.1 = false)
        (versions.map fun v => (v, ((countReps byAccount weights reps).versions.get v).getD 0))
      have hsums := hr.sum_weight fun _ w => w.toNat
      have hversions := hv.sum_weight fun _ w => w.toNat
      rw [report, (hperm.map _).sum_eq, List.map_map, htotal, ← hsums,
        ← toNat_unknown byAccount (hsums ▸ h.total), ← hversions]
      exact congrArg (fun l => _ + l.sum) (List.map_congr_left fun v _ => (weight_toNat v).symm)
    · rw [report, hfeature, Nat.mod_eq_of_lt (hsum f ▸ hfits f)]
    · rw [hmilli]
      exact Nat.div_le_of_le_mul (by rw [Nat.mul_comm]; exact Nat.mul_le_mul_right 1000 (hbound f))

end Loops

/-- **The readiness report is a weighted fraction** exactly when the weights fit, a thousand times
those behind a feature too, and no resolved representative with weight lists a feature twice. -/
theorem readiness_iff {caps : Table Str PeerCapabilities} {directory : List (Option Registration)}
    {own : Str} {build : PeerCapabilities} {weights : Table Str UInt64}
    {delegated reps versions : List Str} (hd : Lists delegated weights) (hr : Lists reps weights)
    (hv : Lists versions
      (countReps (capabilities caps directory own build) weights reps).versions) :
    (getReadiness weights caps directory own build delegated reps versions).IsFraction
        (capabilities caps directory own build) weights ↔
      Countable (capabilities caps directory own build) weights :=
  report_iff hd hr hv

/-! ## Samples -/

namespace SampleReadiness

/-- The one representative and its weight. -/
def weights (w : UInt64) : Table Str UInt64 :=
  Table.set .empty [1] w

/-- What its peer advertises. -/
def peers (features : List Str) : Table Str PeerCapabilities :=
  Table.set .empty [2] ⟨[3], features⟩

end SampleReadiness

open SampleReadiness

/-- Seven of seven are behind a feature. -/
theorem readiness_sample :
    (getReadiness (weights 7) (peers [[4], [5]]) [some ⟨[1], [2]⟩] [9] ⟨[3], [[4]]⟩ [[1]] [[1]]
      [[3]]).IsFraction (capabilities (peers [[4], [5]]) [some ⟨[1], [2]⟩] [9] ⟨[3], [[4]]⟩)
        (weights 7) := by
  have hreps : Lists [[1]] (weights 7) := lists_of_keys (by decide) (by decide +kernel)
  have hsum : ((weights 7).sum fun _ w => w.toNat) = 7 := by decide +kernel
  refine (readiness_iff hreps hreps (lists_of_keys (by decide) (by decide +kernel))).mpr
    ⟨by omega, fun rep w hw _ => ?_, fun f => ?_⟩
  · rw [weights, Table.get_set] at hw
    split_ifs at hw with h
    · rw [h]
      decide +kernel
    · cases hw
  · have hle := weightBehind_le (capabilities (peers [[4], [5]]) [some ⟨[1], [2]⟩] [9] ⟨[3], [[4]]⟩)
      (weights 7) f
    omega

/-- **A peer that lists a feature twice is counted twice**, and weights above a thousandth of the
word size make the product wrap. -/
theorem readiness_two_thousand :
    (¬ (getReadiness (weights 7) (peers [[4], [4]]) [some ⟨[1], [2]⟩] [9] ⟨[3], [[4]]⟩ [[1]] [[1]]
      [[3]]).IsFraction (capabilities (peers [[4], [4]]) [some ⟨[1], [2]⟩] [9] ⟨[3], [[4]]⟩)
        (weights 7)) ∧
    ¬ (getReadiness (weights (2 ^ 60)) (peers [[4]]) [some ⟨[1], [2]⟩] [9] ⟨[3], [[4]]⟩ [[1]] [[1]]
      [[3]]).IsFraction (capabilities (peers [[4]]) [some ⟨[1], [2]⟩] [9] ⟨[3], [[4]]⟩)
        (weights (2 ^ 60)) :=
  ⟨fun h => absurd (h.perMille [4]) (by decide +kernel),
    fun h => absurd (h.milli [4]) (by decide +kernel)⟩

end Xe
