import XeLattice.StateChain.Sample
import XeLattice.Core.LeaseHandlers
import XeLattice.Ranking

/-!
# The epochs of the oracle

What `validateEpochValue` guarantees of a rate, and how `latestEpoch` and `epochAtFn` of
`node/node.go` pick epochs from the map that `GetKVByPrefix` returns, whose loops meet the entries
in any order.

* **`collusion_bound_iff`**: when the rate of an epoch with a price is within the collusion bound;
* **`epoch_lookup_order_free_iff`**: when what is picked does not depend on the order.
-/

set_option autoImplicit false
set_option maxRecDepth 100000

namespace Xe.StateChain

open Ranking

/-! ## The collusion bound -/

section Collusion

variable {lib : Lib} {json : Json} {value : Str} {kv : KVStore} {ev : EpochValue}

/-- The collusion factor in force: the configured one, or the default. -/
def collusionFactor (json : Json) (kv : KVStore) : UInt64 :=
  let configured :=
    ((tokenomics json kv).map TokenomicsConfig.rCollusionFactorMilli).getD
      rCollusionFactorMilliDefault
  if configured = 0 then rCollusionFactorMilliDefault else configured

/-- The larger of the two rates that support an epoch. -/
def EpochValue.supportive (ev : EpochValue) : UInt64 :=
  if ev.rPriceFloor > ev.rVolume then ev.rPriceFloor else ev.rVolume

theorem validateEpochValue_rates (h : validateEpochValue lib json value kv = .ok ())
    (hev : json.epochValue value = .ok ev) :
    ev.sMilli = sMilliForPhase ev.phase ∧
      (ev.rCollusion = 0 ∨ ev.rCollusion = expectedRCollusion ev.twapMilliUSD ev.sMilli.toUInt64
        (((tokenomics json kv).map TokenomicsConfig.rCollusionFactorMilli).getD
          rCollusionFactorMilliDefault)) ∧
      ev.rEffective = if ev.rCollusion ≠ 0 ∧ ev.rCollusion < ev.supportive then ev.rCollusion
        else ev.supportive := by
  unfold validateEpochValue at h
  rw [hev] at h
  obtain ⟨⟨⟩, -, h⟩ := bind_eq_ok.mp h
  obtain ⟨⟨⟩, -, h⟩ := bind_eq_ok.mp h
  obtain ⟨⟨⟩, -, h⟩ := bind_eq_ok.mp h
  obtain ⟨⟨⟩, hs, h⟩ := bind_eq_ok.mp h
  obtain ⟨⟨⟩, hcol, h⟩ := bind_eq_ok.mp h
  obtain ⟨⟨⟩, heff, -⟩ := bind_eq_ok.mp h
  refine ⟨not_not.mp (guardErr_eq_ok.mp hs), ?_, not_not.mp (guardErr_eq_ok.mp heff)⟩
  by_cases hzero : ev.rCollusion = 0
  · exact .inl hzero
  · exact .inr (by_contra fun hne => guardErr_eq_ok.mp hcol ⟨hzero, hne⟩)

theorem rEffective_le_rCollusion {ev : EpochValue} (hcol : ev.rCollusion ≠ 0)
    (heff : ev.rEffective =
      if ev.rCollusion ≠ 0 ∧ ev.rCollusion < ev.supportive then ev.rCollusion else ev.supportive) :
    ev.rEffective ≤ ev.rCollusion := by
  rw [heff]
  split_ifs with hlt
  · exact UInt64.le_refl _
  · exact UInt64.not_lt.mp fun hsup => hlt ⟨hcol, hsup⟩

theorem sMilliForPhase_lt (phase : UInt8) : (sMilliForPhase phase).toNat < 1000 := by
  unfold sMilliForPhase
  split_ifs <;> decide

/-- The published collusion rate, times the price, is at most the bound, also when the product
of the bound overflows. -/
theorem expectedRCollusion_mul_le (twap factor : UInt64) {s : UInt64} (hs : s.toNat < 1000) :
    (expectedRCollusion twap s factor).toNat * twap.toNat ≤
      (if factor = 0 then rCollusionFactorMilliDefault else factor).toNat * (1000 - s.toNat) := by
  have hsub : (1000 - s).toNat = 1000 - s.toNat := UInt64.toNat_sub_of_le _ _ (by
    rw [UInt64.le_iff_toNat_le]
    exact hs.le)
  unfold expectedRCollusion
  dsimp only
  generalize (if factor = 0 then rCollusionFactorMilliDefault else factor) = f
  split_ifs
  · simp
  · simp
  · rw [UInt64.toNat_div, UInt64.toNat_mul, hsub]
    exact (Nat.div_mul_le_self _ _).trans (Nat.mod_le _ _)

/-- **The rate of an accepted epoch with a price is within the collusion bound exactly when the
epoch publishes its collusion rate or its supporting rates are within the bound.** -/
theorem collusion_bound_iff (h : validateEpochValue lib json value kv = .ok ())
    (hev : json.epochValue value = .ok ev) :
    ev.rEffective.toNat * ev.twapMilliUSD.toNat ≤
        (collusionFactor json kv).toNat * (1000 - ev.sMilli.toNat) ↔
      ev.rCollusion ≠ 0 ∨
        max ev.rVolume.toNat ev.rPriceFloor.toNat * ev.twapMilliUSD.toNat ≤
          (collusionFactor json kv).toNat * (1000 - ev.sMilli.toNat) := by
  obtain ⟨hs, hcol, heff⟩ := validateEpochValue_rates h hev
  have hlt : ev.sMilli.toUInt64.toNat < 1000 := by
    rw [UInt16.toNat_toUInt64, hs]
    exact sMilliForPhase_lt ev.phase
  by_cases hzero : ev.rCollusion = 0
  · have hsup : ev.supportive.toNat = max ev.rVolume.toNat ev.rPriceFloor.toNat := by
      unfold EpochValue.supportive
      split_ifs with hgt
      · exact (max_eq_right (UInt64.lt_iff_toNat_lt.mp hgt).le).symm
      · exact (max_eq_left (UInt64.le_iff_toNat_le.mp (UInt64.not_lt.mp hgt))).symm
    rw [if_neg fun hc => hc.1 hzero] at heff
    rw [heff, hsup, or_iff_right (not_not.mpr hzero)]
  · refine iff_of_true ?_ (.inl hzero)
    have hle := UInt64.le_iff_toNat_le.mp (rEffective_le_rCollusion hzero heff)
    have hbound := expectedRCollusion_mul_le ev.twapMilliUSD
      (((tokenomics json kv).map TokenomicsConfig.rCollusionFactorMilli).getD
        rCollusionFactorMilliDefault) hlt
    rw [← hcol.resolve_left hzero, UInt16.toNat_toUInt64] at hbound
    exact (Nat.mul_le_mul_right _ hle).trans hbound

end Collusion

namespace SampleEpochs

export SampleNet (oracle priced capped)

/-- An epoch that leaves its collusion rate out. -/
def uncapped : EpochValue :=
  priced 5000 0 5000 "volume"

/-- Five epochs of one number. -/
def ofOneNumber : List EpochValue :=
  [priced 100 0 100 "volume", priced 101 0 101 "volume", priced 102 0 102 "volume",
    priced 103 0 103 "volume", uncapped]

/-- A decoder that knows six epochs. -/
def json : Json :=
  { SampleNet.json with epochValue := readEpochs (capped :: ofOneNumber) }

end SampleEpochs

open SampleEpochs Xe.Sample in
/-- The epoch that publishes its collusion rate. -/
theorem collusion_bound_published :
    validateEpochValue lib json (epochJSON capped) Table.empty = .ok () ∧
      capped.rEffective.toNat * 1000 ≤
        (collusionFactor json Table.empty).toNat * (1000 - 0) := by
  have hvalid : validateEpochValue lib json (epochJSON capped) Table.empty = .ok () := by
    decide +kernel
  have hread : json.epochValue (epochJSON capped) = .ok capped := by
    decide +kernel
  exact ⟨hvalid, (collusion_bound_iff hvalid hread).mpr (.inl (by decide))⟩

open SampleEpochs in
/-- The epoch that has a price and leaves its collusion rate out: its rate is five times the
bound. -/
theorem uncapped_epoch :
    validateEpochValue Xe.Sample.lib json (epochJSON uncapped) Table.empty = .ok () ∧
      json.epochValue (epochJSON uncapped) = .ok uncapped ∧
        ¬ uncapped.rEffective.toNat * uncapped.twapMilliUSD.toNat ≤
          (collusionFactor json Table.empty).toNat * (1000 - uncapped.sMilli.toNat) := by
  decide +kernel

/-! ## Looking epochs up -/

section Lookup

/-- `EpochLockTolerance`. -/
def epochLockTolerance : ℕ := 3

/-- An order in which a loop over `GetKVByPrefix("epoch.")` meets the keys. -/
def IsOrder (kv : KVStore) (order : List Str) : Prop :=
  order.Nodup ∧ ∀ k, k ∈ order ↔ k ∈ kv.keys ∧ startsWith k epochPrefix = true

/-- The epoch under a key, when it can be read. -/
def epochUnder (json : Json) (kv : KVStore) (k : Str) : Option EpochValue :=
  (kv.get k).bind fun raw => (json.epochValue raw).toOption

/-- The number that the epochs are compared by. -/
def EpochValue.number (ev : EpochValue) : ℕ :=
  ev.epoch.toNat

/-- What an epoch lets leases lock. -/
def EpochValue.params (ev : EpochValue) : EpochParams :=
  ⟨ev.rEffective, ev.payoutCap, ev.twapMilliUSD⟩

/-- `latestEpoch`, on a walk through the map. -/
def latestEpoch (json : Json) (kv : KVStore) (order : List Str) : Option EpochValue :=
  firstMax EpochValue.number (order.filterMap (epochUnder json kv))

/-- The epoch under a key, when it has begun. -/
def activeUnder (json : Json) (kv : KVStore) (ns : Int64) (k : Str) : Option EpochValue :=
  (epochUnder json kv k).filter fun ev => decide (ev.startNS ≤ ns)

/-- `epochAtFn`, on a walk through the map and with the `sort.Slice` of the library. -/
def epochAtFn (sort : Sorter EpochValue.number) (json : Json) (kv : KVStore) (order : List Str)
    (ns : Int64) : List EpochParams :=
  top sort (epochLockTolerance + 1) EpochValue.params (order.filterMap (activeUnder json kv ns))

/-- What two nodes with the same contents have to agree on: the candidates at a time, the latest
epoch, and the answer to a block that locks the parameters of an epoch. -/
structure OrderFree (sort : Sorter EpochValue.number) (json : Json) (kv : KVStore) (ns : Int64) :
    Prop where
  candidates : ∀ o o', IsOrder kv o → IsOrder kv o' →
    epochAtFn sort json kv o ns = epochAtFn sort json kv o' ns
  latest : ∀ o o', IsOrder kv o → IsOrder kv o' → latestEpoch json kv o = latestEpoch json kv o'
  locked : ∀ o o', IsOrder kv o → IsOrder kv o' →
    ∀ (c : Ctx) (b : Xe.Block) (skipSkew : Bool) (op : String),
      validateLockedEmissionAt { c with epochAt := some (epochAtFn sort json kv o) } ns b skipSkew
          op =
        validateLockedEmissionAt { c with epochAt := some (epochAtFn sort json kv o') } ns b
          skipSkew op

/-- The keys of the epochs of a greater number that have begun. -/
def newerKeys (json : Json) (kv : KVStore) (ns : Int64) (n : ℕ) : Finset Str :=
  kv.keys.filter fun k => startsWith k epochPrefix = true ∧
    (activeUnder json kv ns k).any (fun ev => decide (n < ev.number)) = true

/-- Epochs of one number agree where they can be picked: on what a lease locks when few newer ones
have begun, and on everything when there is no newer one. -/
structure Unambiguous (json : Json) (kv : KVStore) (ns : Int64) : Prop where
  params : ∀ k k' e e', startsWith k epochPrefix = true → startsWith k' epochPrefix = true →
    activeUnder json kv ns k = some e → activeUnder json kv ns k' = some e' → e.epoch = e'.epoch →
      (newerKeys json kv ns e.number).card ≤ epochLockTolerance → e.params = e'.params
  latest : ∀ k k' e e', startsWith k epochPrefix = true → startsWith k' epochPrefix = true →
    epochUnder json kv k = some e → epochUnder json kv k' = some e' → e.epoch = e'.epoch →
      (∀ k'' e'', startsWith k'' epochPrefix = true → epochUnder json kv k'' = some e'' →
        e''.epoch ≤ e.epoch) → e = e'

variable {json : Json} {kv : KVStore} {ns : Int64} {o : List Str}

theorem exists_isOrder (kv : KVStore) : ∃ o, IsOrder kv o := by
  refine ⟨(kv.keys.filter fun k => startsWith k epochPrefix = true).toList,
    Finset.nodup_toList _, fun k => ?_⟩
  rw [Finset.mem_toList, Finset.mem_filter]

theorem IsOrder.of_perm {o' : List Str} (h : IsOrder kv o) (hp : o'.Perm o) : IsOrder kv o' :=
  ⟨hp.nodup_iff.mpr h.1, fun k => (hp.mem_iff).trans (h.2 k)⟩

theorem IsOrder.perm {o' : List Str} (h : IsOrder kv o) (h' : IsOrder kv o') : o'.Perm o :=
  (List.perm_ext_iff_of_nodup h'.1 h.1).mpr fun k => (h'.2 k).trans (h.2 k).symm

/-- A result that a loop computes from what it reads depends on the order of the keys as it depends
on that of the entries. -/
theorem IsOrder.forall_iff {γ : Type} (h : IsOrder kv o) (f : Str → Option EpochValue)
    (F : List EpochValue → γ) :
    (∀ o₁ o₂, IsOrder kv o₁ → IsOrder kv o₂ → F (o₁.filterMap f) = F (o₂.filterMap f)) ↔
      ∀ l₁ l₂, l₁.Perm (o.filterMap f) → l₂.Perm (o.filterMap f) → F l₁ = F l₂ := by
  constructor
  · intro hall l₁ l₂ h₁ h₂
    obtain ⟨o₁, hp₁, rfl⟩ := exists_perm_filterMap f h₁
    obtain ⟨o₂, hp₂, rfl⟩ := exists_perm_filterMap f h₂
    exact hall o₁ o₂ (h.of_perm hp₁) (h.of_perm hp₂)
  · intro hall o₁ o₂ h₁ h₂
    exact hall _ _ ((h.perm h₁).filterMap f) ((h.perm h₂).filterMap f)

theorem mem_keys_of_epochUnder {k : Str} {e : EpochValue} (h : epochUnder json kv k = some e) :
    k ∈ kv.keys := by
  obtain ⟨raw, hraw, -⟩ := Option.bind_eq_some_iff.mp h
  exact Table.mem_keys.mpr ⟨raw, hraw⟩

theorem epochUnder_of_activeUnder {k : Str} {e : EpochValue}
    (h : activeUnder json kv ns k = some e) : epochUnder json kv k = some e :=
  (Option.filter_eq_some_iff.mp h).1

theorem IsOrder.mem_filterMap (h : IsOrder kv o) {f : Str → Option EpochValue}
    (hf : ∀ k e, f k = some e → epochUnder json kv k = some e) {e : EpochValue} :
    e ∈ o.filterMap f ↔ ∃ k, startsWith k epochPrefix = true ∧ f k = some e := by
  rw [List.mem_filterMap]
  constructor
  · rintro ⟨k, hk, he⟩
    exact ⟨k, ((h.2 k).mp hk).2, he⟩
  · rintro ⟨k, hk, he⟩
    exact ⟨k, (h.2 k).mpr ⟨mem_keys_of_epochUnder (hf k e he), hk⟩, he⟩

theorem IsOrder.above_eq_card (h : IsOrder kv o) (n : ℕ) :
    above EpochValue.number (o.filterMap (activeUnder json kv ns)) n =
      (newerKeys json kv ns n).card := by
  have hset : (o.filter fun k =>
      (activeUnder json kv ns k).any (fun ev => decide (n < ev.number))).toFinset =
        newerKeys json kv ns n := by
    ext k
    rw [List.mem_toFinset, List.mem_filter, h.2, newerKeys, Finset.mem_filter, and_assoc]
  rw [← hset, List.toFinset_card_of_nodup (h.1.filter _), ← List.countP_eq_length_filter, above,
    List.countP_filterMap]
  congr 1
  funext k
  cases activeUnder json kv ns k <;> rfl

theorem number_inj {e e' : EpochValue} : e.number = e'.number ↔ e.epoch = e'.epoch :=
  UInt64.toNat_inj

/-- **What the lookups return is the same for every walk through the map exactly when the epochs of
one number agree where they can be picked.** -/
theorem epoch_lookup_order_free_iff (sort : Sorter EpochValue.number) (json : Json) (kv : KVStore)
    (ns : Int64) : OrderFree sort json kv ns ↔ Unambiguous json kv ns := by
  obtain ⟨o, ho⟩ := exists_isOrder kv
  have hmem : ∀ e, e ∈ o.filterMap (activeUnder json kv ns) ↔
      ∃ k, startsWith k epochPrefix = true ∧ activeUnder json kv ns k = some e :=
    fun e => ho.mem_filterMap fun _ _ => epochUnder_of_activeUnder
  have hmem' : ∀ e, e ∈ o.filterMap (epochUnder json kv) ↔
      ∃ k, startsWith k epochPrefix = true ∧ epochUnder json kv k = some e :=
    fun e => ho.mem_filterMap fun _ _ he => he
  have htop := (ho.forall_iff (activeUnder json kv ns)
    (top sort (epochLockTolerance + 1) EpochValue.params)).trans (top_eq_iff sort _ _)
  have hlatest := (ho.forall_iff (epochUnder json kv) (firstMax EpochValue.number)).trans
    firstMax_eq_iff
  constructor
  · intro h
    refine ⟨?_, ?_⟩
    · intro k k' e e' hk hk' he he' hnum hfew
      refine htop.mp h.candidates e ((hmem e).mpr ⟨k, hk, he⟩) e' ((hmem e').mpr ⟨k', hk', he'⟩)
        (number_inj.mpr hnum) ?_
      rw [ho.above_eq_card]
      omega
    · intro k k' e e' hk hk' he he' hnum hmax
      refine hlatest.mp h.latest e ((hmem' e).mpr ⟨k, hk, he⟩) e'
        ((hmem' e').mpr ⟨k', hk', he'⟩)
        (number_inj.mpr hnum) (above_eq_zero fun x hx => ?_)
      obtain ⟨k'', hk'', hx⟩ := (hmem' x).mp hx
      exact UInt64.le_iff_toNat_le.mp (hmax k'' x hk'' hx)
  · intro h
    have hcand : ∀ o₁ o₂, IsOrder kv o₁ → IsOrder kv o₂ →
        epochAtFn sort json kv o₁ ns = epochAtFn sort json kv o₂ ns := by
      refine htop.mpr fun e he e' he' hnum hfew => ?_
      obtain ⟨k, hk, he⟩ := (hmem e).mp he
      obtain ⟨k', hk', he'⟩ := (hmem e').mp he'
      rw [ho.above_eq_card] at hfew
      exact h.params k k' e e' hk hk' he he' (number_inj.mp hnum) (by omega)
    refine ⟨hcand, ?_, ?_⟩
    · refine hlatest.mpr fun e he e' he' hnum hnone => ?_
      obtain ⟨k, hk, he⟩ := (hmem' e).mp he
      obtain ⟨k', hk', he'⟩ := (hmem' e').mp he'
      refine h.latest k k' e e' hk hk' he he' (number_inj.mp hnum) fun k'' x hk'' hx => ?_
      have hnot := List.countP_eq_zero.mp hnone x ((hmem' x).mpr ⟨k'', hk'', hx⟩)
      rw [decide_eq_true_eq, not_lt] at hnot
      exact UInt64.le_iff_toNat_le.mpr hnot
    · intro o₁ o₂ h₁ h₂ c b skipSkew op
      unfold validateLockedEmissionAt
      dsimp only
      rw [hcand o₁ o₂ h₁ h₂]

end Lookup

namespace SampleEpochs

open SampleNet in
/-- The genesis block of a network with an oracle. -/
def genesis : Block := hashed
  { index := 0
    prevHash := List.replicate 64 48
    ops := [⟨.set, daoKeysetKey, keysetText keyset.keys 2⟩,
      ⟨.set, oracleKey, oracleText oracle⟩]
    signatures := []
    timestamp := 0 }

/-- The keys of the five epochs. -/
def keys : List Str :=
  [str "epoch.0", str "epoch.1", str "epoch.2", str "epoch.3", str "epoch.4"]

/-- The block with which the oracle publishes them, all with the number one. -/
def published : Block :=
  SampleNet.next genesis (List.zipWith (fun k ev => ⟨.set, k, epochJSON ev⟩) keys ofOneNumber)
    oracle.keys

end SampleEpochs

open SampleEpochs Xe.Sample in
/-- Five epochs of one number, published by the oracle: walks in opposite order through them differ
in the latest epoch and in the candidates, and only one finds the parameters of the last. -/
theorem ambiguous_epochs :
    ∃ c, Run lib json .badger genesis [published] c ∧ IsOrder c.kv keys ∧
      IsOrder c.kv keys.reverse ∧
        latestEpoch json c.kv keys ≠ latestEpoch json c.kv keys.reverse ∧
          ⟨5000, 0, 1000⟩ ∉ epochAtFn (insertion _) json c.kv keys 5 ∧
            ⟨5000, 0, 1000⟩ ∈ epochAtFn (insertion _) json c.kv keys.reverse 5 ∧
              ¬ OrderFree (insertion _) json c.kv 5 := by
  have hrun : (runBlocks lib json .badger genesis [published]).toOption.any (fun c =>
      decide (keys.toFinset = c.kv.keys.filter (fun k => startsWith k epochPrefix = true)) &&
        decide (latestEpoch json c.kv keys ≠ latestEpoch json c.kv keys.reverse ∧
          ⟨5000, 0, 1000⟩ ∉ epochAtFn (insertion _) json c.kv keys 5 ∧
            ⟨5000, 0, 1000⟩ ∈ epochAtFn (insertion _) json c.kv keys.reverse 5)) = true := by
    decide +kernel
  obtain ⟨c, hc, hP⟩ := exists_run _ hrun
  rw [Bool.and_eq_true, decide_eq_true_eq, decide_eq_true_eq] at hP
  have horder : IsOrder c.kv keys := by
    refine ⟨by decide +kernel, fun k => ?_⟩
    rw [← List.mem_toFinset, hP.1, Finset.mem_filter]
  have horder' := horder.of_perm (List.reverse_perm keys)
  obtain ⟨-, hlatest, habsent, hpresent⟩ := hP
  exact ⟨c, hc, horder, horder', hlatest, habsent, hpresent, fun hfree =>
    hlatest (hfree.latest _ _ horder horder')⟩

end Xe.StateChain
