import XeLattice.StateChain.Sample

/-!
# Activations only go forward

Every operation of a block is checked against the contents before the block, and the last operation
on a key decides its value, so a block moves each configuration key at most by one checked step.

* **`forward_of_later`**, **`activations_forward`**: along every run, what is active stays so.
-/

set_option autoImplicit false
set_option maxRecDepth 100000

namespace Xe.StateChain

/-! ## The order of versions -/

theorem compareParts_eq_lt {a b : ℕ × ℕ × ℕ} :
    compareParts a b = .lt ↔ a.1 < b.1 ∨ (a.1 = b.1 ∧
      (a.2.1 < b.2.1 ∨ (a.2.1 = b.2.1 ∧ a.2.2 < b.2.2))) := by
  simp only [compareParts, Ordering.then_eq_lt, Nat.compare_eq_lt, Nat.compare_eq_eq]

/-- The version `b` is not below the version `a`. -/
def VersionLe (a b : Str) : Prop :=
  compareProtocolVersion b a ≠ .lt

theorem VersionLe.refl (a : Str) : VersionLe a a := by
  unfold VersionLe compareProtocolVersion
  cases parseProtocolVersion a with
  | none => decide
  | some v =>
    simp only [ne_eq, compareParts_eq_lt]
    omega

theorem VersionLe.trans {a b c : Str} (hab : VersionLe a b) (hbc : VersionLe b c) :
    VersionLe a c := by
  unfold VersionLe compareProtocolVersion at *
  cases ha : parseProtocolVersion a <;> cases hb : parseProtocolVersion b <;>
    cases hc : parseProtocolVersion c <;>
    simp only [ha, hb, hc, ne_eq, compareParts_eq_lt] at * <;> first | omega | simp_all

theorem VersionLe.of_unreadable {a : Str} (h : parseProtocolVersion a = none) (b : Str) :
    VersionLe a b := by
  unfold VersionLe compareProtocolVersion
  rw [h]
  cases parseProtocolVersion b <;> simp

/-! ## What the checks of a new value say -/

section Values

variable {lib : Lib} {json : Json} {c : Chain} {b : Block} {v : Str}

/-- The record of a feature in the schedule of the chain. -/
def Chain.record (json : Json) (c : Chain) (feature : Str) : Option ActivationRecord :=
  (c.activations json).record feature

/-- The phase that is stored, if it can be read. -/
def Chain.storedPhase (json : Json) (c : Chain) : Option UInt8 :=
  (c.kv.get phaseKey).bind fun raw => (json.phase raw).toOption

/-- The lowest protocol version that is stored, if it can be read. -/
def Chain.storedVersion (json : Json) (c : Chain) : Option Str :=
  (c.kv.get minProtocolVersionKey).bind fun raw => (json.string raw).toOption

theorem activations_of_previous {prev : Activations}
    (h : previousActivations json c.kv = .ok prev) : c.activations json = prev := by
  unfold previousActivations at h
  unfold Chain.activations
  cases hget : c.kv.get activationsKey with
  | none =>
    rw [hget] at h
    cases h
    rfl
  | some raw =>
    rw [hget] at h
    simp only [mapError_eq_ok.mp h]

theorem requireFuture_not_active {name : Str} {r : ActivationRecord}
    (hset : ¬(r.atIndex = 0 ∧ r.notBeforeNS = 0)) (h : requireFuture lib name r b = .ok ()) :
    r.activeAt b.index b.timestamp = false := by
  unfold requireFuture at h
  obtain ⟨_, hindex, htime⟩ := bind_eq_ok.mp h
  have hi := guardErr_eq_ok.mp hindex
  have ht := guardErr_eq_ok.mp htime
  unfold ActivationRecord.activeAt
  by_contra hactive
  rw [Bool.not_eq_false, Bool.and_eq_true, decide_eq_true_eq, decide_eq_true_eq] at hactive
  by_cases hz : r.atIndex = 0
  · have hns : r.notBeforeNS ≠ 0 := fun hns => hset ⟨hz, hns⟩
    exact ht ⟨hns, hactive.2⟩
  · exact hi ⟨hz, hactive.1⟩

theorem mem_of_record {a : Activations} {f : Str} {r : ActivationRecord} (h : a.record f = some r) :
    (f, r) ∈ a.features := by
  obtain ⟨l₁, l₂, hl, -⟩ := List.lookup_eq_some_iff.mp h
  rw [hl]
  exact List.mem_append_right _ List.mem_cons_self

/-- The records of a schedule that passed its check are not due from the start. -/
theorem validateActivations_set {a : Activations} (h : validateActivations lib json v = .ok ())
    (ha : parseActivations json v = .ok a) {f : Str} {r : ActivationRecord}
    (hr : a.record f = some r) : ¬(r.atIndex = 0 ∧ r.notBeforeNS = 0) := by
  unfold validateActivations at h
  rw [ha] at h
  obtain ⟨_, hparse, h⟩ := bind_eq_ok.mp h
  cases hparse
  obtain ⟨_, _, h⟩ := bind_eq_ok.mp h
  have hf := checkAll_eq_ok.mp h (f, r) (mem_of_record hr)
  unfold validateFeature at hf
  obtain ⟨_, _, hf⟩ := bind_eq_ok.mp hf
  obtain ⟨_, hset, -⟩ := bind_eq_ok.mp hf
  exact guardErr_eq_ok.mp hset

/-- **One checked change of the schedule.** Every feature stays, and a record that is new or changed
lies in the future of the block. -/
theorem validateActivationsTransition_ok
    (h : validateActivationsTransition lib json c.kv c.tip b v = .ok ()) :
    ∃ next, parseActivations json v = .ok next ∧
      (∀ f, (c.record json f).isSome = true → (next.record f).isSome = true) ∧
      ∀ f r, next.record f = some r → c.record json f ≠ some r →
        requireFuture lib f r b = .ok () := by
  unfold validateActivationsTransition at h
  obtain ⟨next, hnext, h⟩ := bind_eq_ok.mp h
  obtain ⟨prev, hprev, h⟩ := bind_eq_ok.mp h
  obtain ⟨⟨⟩, hkept, hfresh⟩ := bind_eq_ok.mp h
  have hrecord : ∀ f, c.record json f = prev.record f := by
    intro f
    rw [Chain.record, activations_of_previous hprev]
  refine ⟨next, hnext, ?_, ?_⟩
  · intro f hf
    rw [hrecord] at hf
    obtain ⟨old, hold⟩ := Option.isSome_iff_exists.mp hf
    have hcheck := checkAll_eq_ok.mp hkept (f, old) (mem_of_record hold)
    unfold validateKept at hcheck
    dsimp only at hcheck
    cases hrec : next.record f with
    | none =>
      rw [hrec] at hcheck
      cases hcheck
    | some r => rfl
  · intro f r hr hne
    rw [hrecord] at hne
    cases hold : prev.record f with
    | none =>
      have hcheck := checkAll_eq_ok.mp hfresh (f, r) (mem_of_record hr)
      dsimp only at hcheck
      rwa [hold, Option.isSome_none, if_neg Bool.false_ne_true] at hcheck
    | some old =>
      have hchanged : r ≠ old := fun heq => hne (by rw [hold, heq])
      have hcheck := checkAll_eq_ok.mp hkept (f, old) (mem_of_record hold)
      unfold validateKept at hcheck
      simp only [hr] at hcheck
      split_ifs at hcheck
      · exact absurd hchanged (guardErr_eq_ok.mp hcheck)
      · exact hcheck

theorem validatePhase_ok (hvalue : validatePhase json v = .ok ())
    (h : validatePhaseTransition json c.kv v = .ok ()) :
    ∃ p, json.phase v = .ok p ∧ (p = 1 ∨ p = 2) ∧
      (c.kv.get phaseKey = none ∨ ∃ q, c.storedPhase json = some q ∧ q ≤ p) := by
  unfold validatePhase at hvalue
  unfold validatePhaseTransition at h
  cases hp : json.phase v with
  | error e =>
    rw [hp] at hvalue
    cases hvalue
  | ok p =>
    rw [hp] at hvalue
    have hrange : p = 1 ∨ p = 2 := by
      have hnot := guardErr_eq_ok.mp hvalue
      tauto
    refine ⟨p, rfl, hrange, ?_⟩
    cases hold : c.kv.get phaseKey with
    | none => exact .inl rfl
    | some old =>
      right
      simp only [hold] at h
      cases hq : json.phase old with
      | error e =>
        simp only [hq] at h
        cases h
      | ok q =>
        simp only [hq, hp, guardErr_eq_ok] at h
        refine ⟨q, ?_, UInt8.not_lt.mp h⟩
        rw [Chain.storedPhase, hold, Option.bind_some, hq]
        rfl

theorem validateMinProtocolVersion_ok (hvalue : validateMinProtocolVersion lib json v = .ok ())
    (h : validateMinProtocolVersionTransition json c.kv v = .ok ()) :
    ∃ w, json.string v = .ok w ∧ isProtocolVersion w = true ∧
      (c.kv.get minProtocolVersionKey = none ∨
        ∃ u, c.storedVersion json = some u ∧ VersionLe u w) := by
  unfold validateMinProtocolVersion at hvalue
  unfold validateMinProtocolVersionTransition at h
  cases hw : json.string v with
  | error e =>
    rw [hw] at hvalue
    cases hvalue
  | ok w =>
    rw [hw] at hvalue
    have hform : isProtocolVersion w = true := by
      have hnot := guardErr_eq_ok.mp hvalue
      rwa [Bool.not_eq_false] at hnot
    refine ⟨w, rfl, hform, ?_⟩
    cases hold : c.kv.get minProtocolVersionKey with
    | none => exact .inl rfl
    | some old =>
      right
      simp only [hold] at h
      cases hu : json.string old with
      | error e =>
        simp only [hu] at h
        cases h
      | ok u =>
        simp only [hu, hw, guardErr_eq_ok] at h
        refine ⟨u, ?_, h⟩
        rw [Chain.storedVersion, hold, Option.bind_some, hu]
        rfl

end Values

/-! ## One block -/

section Block

variable {lib : Lib} {json : Json} {c : Chain} {b : Block}

theorem activations_appended {next : Activations} {v : Str}
    (hget : (c.appended b).kv.get activationsKey = some v)
    (hnext : parseActivations json v = .ok next) : (c.appended b).activations json = next := by
  unfold Chain.activations
  rw [hget]
  simp only [hnext]

theorem activations_unchanged (json : Json)
    (hget : (c.appended b).kv.get activationsKey = c.kv.get activationsKey) (f : Str) :
    (c.appended b).record json f = c.record json f := by
  unfold Chain.record Chain.activations
  rw [hget]

/-- A block keeps every scheduled feature, and makes none due by writing its record. -/
theorem Admitted.schedule (h : Admitted lib json c b) (f : Str) :
    ((c.record json f).isSome = true → ((c.appended b).record json f).isSome = true) ∧
      ∀ r, (c.appended b).record json f = some r → c.record json f ≠ some r →
        r.activeAt b.index b.timestamp = false := by
  obtain hkeep | ⟨v, hget, -, hvalue, htrans⟩ := h.get_cases (k := activationsKey) (by decide)
  · have hsame := activations_unchanged json hkeep f
    exact ⟨fun hf => hsame ▸ hf, fun r hr hne => absurd (hsame ▸ hr) hne⟩
  · have hvalue' : validateActivations lib json v = .ok () := hvalue
    have htrans' : validateActivationsTransition lib json c.kv c.tip b v = .ok () := htrans
    obtain ⟨next, hnext, hkept, hfuture⟩ := validateActivationsTransition_ok htrans'
    have hrecord : (c.appended b).record json f = next.record f := by
      rw [Chain.record, activations_appended hget hnext]
    rw [hrecord]
    refine ⟨hkept f, ?_⟩
    intro r hr hne
    exact requireFuture_not_active (validateActivations_set hvalue' hnext hr) (hfuture f r hr hne)

theorem storedPhase_of_get {p : UInt8} {v : Str} (hget : c.kv.get phaseKey = some v)
    (hp : json.phase v = .ok p) : c.storedPhase json = some p := by
  rw [Chain.storedPhase, hget, Option.bind_some, hp]
  rfl

theorem phase_of_get {p : UInt8} {v : Str} (hget : c.kv.get phaseKey = some v)
    (hp : json.phase v = .ok p) : c.phase json = if p ≠ 1 ∧ p ≠ 2 then 0 else p := by
  unfold Chain.phase StateChain.phase
  simp only [hget, hp]
  split_ifs <;> rfl

theorem Admitted.phase (h : Admitted lib json c b) :
    (∀ p, c.storedPhase json = some p →
        ∃ q, (c.appended b).storedPhase json = some q ∧ p ≤ q) ∧
      c.phase json ≤ (c.appended b).phase json := by
  obtain hkeep | ⟨v, hget, -, hvalue, htrans⟩ := h.get_cases (k := phaseKey) (by decide)
  · constructor
    · intro p hp
      refine ⟨p, ?_, UInt8.le_refl p⟩
      rwa [Chain.storedPhase, hkeep]
    · rw [Chain.phase, Chain.phase, StateChain.phase, StateChain.phase, hkeep]
      exact UInt8.le_refl _
  · obtain ⟨p, hp, hrange, hold⟩ := validatePhase_ok (c := c) hvalue htrans
    have hread : (c.appended b).phase json = p := by
      rw [phase_of_get hget hp, if_neg]
      tauto
    rw [storedPhase_of_get hget hp, hread]
    obtain hnone | ⟨q, hq, hle⟩ := hold
    · constructor
      · intro q hq
        rw [Chain.storedPhase, hnone] at hq
        cases hq
      · have hread' : c.phase json = 1 := by
          rw [Chain.phase, StateChain.phase, hnone]
        rw [hread']
        obtain rfl | rfl := hrange <;> decide
    · constructor
      · intro q' hq'
        rw [hq] at hq'
        cases hq'
        exact ⟨p, rfl, hle⟩
      · obtain ⟨raw, hraw, hread'⟩ := Option.bind_eq_some_iff.mp hq
        rw [phase_of_get hraw (toOption_eq_some.mp hread')]
        split_ifs
        · exact UInt8.zero_le
        · exact hle

theorem storedVersion_of_get {w v : Str} (hget : c.kv.get minProtocolVersionKey = some v)
    (hw : json.string v = .ok w) : c.storedVersion json = some w := by
  rw [Chain.storedVersion, hget, Option.bind_some, hw]
  rfl

theorem minProtocolVersion_of_get {w v : Str} (hget : c.kv.get minProtocolVersionKey = some v)
    (hw : json.string v = .ok w) :
    c.minProtocolVersion json = if isProtocolVersion w then w else [] := by
  unfold Chain.minProtocolVersion
  simp only [hget, hw]

/-- A block lets neither the stored lowest version nor the one that is read fall. -/
theorem Admitted.version (h : Admitted lib json c b) :
    (∀ u, c.storedVersion json = some u →
        ∃ w, (c.appended b).storedVersion json = some w ∧ VersionLe u w) ∧
      VersionLe (c.minProtocolVersion json) ((c.appended b).minProtocolVersion json) := by
  obtain hkeep | ⟨v, hget, -, hvalue, htrans⟩ :=
    h.get_cases (k := minProtocolVersionKey) (by decide)
  · constructor
    · intro u hu
      refine ⟨u, ?_, VersionLe.refl u⟩
      rwa [Chain.storedVersion, hkeep]
    · rw [Chain.minProtocolVersion, Chain.minProtocolVersion, hkeep]
      exact VersionLe.refl _
  · obtain ⟨w, hw, hform, hold⟩ := validateMinProtocolVersion_ok (c := c) hvalue htrans
    rw [storedVersion_of_get hget hw, minProtocolVersion_of_get hget hw, if_pos hform]
    obtain hnone | ⟨u, hu, hle⟩ := hold
    · constructor
      · intro u hu
        rw [Chain.storedVersion, hnone] at hu
        cases hu
      · have hread : c.minProtocolVersion json = [] := by
          rw [Chain.minProtocolVersion, hnone]
        rw [hread]
        exact VersionLe.of_unreadable rfl w
    · constructor
      · intro u' hu'
        rw [hu] at hu'
        cases hu'
        exact ⟨w, rfl, hle⟩
      · obtain ⟨raw, hraw, hread⟩ := Option.bind_eq_some_iff.mp hu
        rw [minProtocolVersion_of_get hraw (toOption_eq_some.mp hread)]
        split_ifs
        · exact hle
        · exact VersionLe.of_unreadable rfl w

end Block

/-! ## Runs -/

section Runs

variable (json : Json)

/-- What no accepted call undoes. -/
structure Forward (c c' : Chain) : Prop where
  index : c.tip.index ≤ c'.tip.index
  timestamp : c.tip.timestamp ≤ c'.tip.timestamp
  scheduled : ∀ f, (c.record json f).isSome = true → (c'.record json f).isSome = true
  storedPhase : ∀ p, c.storedPhase json = some p → ∃ q, c'.storedPhase json = some q ∧ p ≤ q
  phase : c.phase json ≤ c'.phase json
  storedVersion : ∀ u, c.storedVersion json = some u →
    ∃ w, c'.storedVersion json = some w ∧ VersionLe u w
  version : VersionLe (c.minProtocolVersion json) (c'.minProtocolVersion json)

variable {json}

theorem Forward.refl (c : Chain) : Forward json c c where
  index := UInt64.le_refl _
  timestamp := Int64.le_refl _
  scheduled _ hf := hf
  storedPhase p hp := ⟨p, hp, UInt8.le_refl p⟩
  phase := UInt8.le_refl _
  storedVersion u hu := ⟨u, hu, VersionLe.refl u⟩
  version := VersionLe.refl _

theorem Forward.trans {c₁ c₂ c₃ : Chain} (h : Forward json c₁ c₂) (h' : Forward json c₂ c₃) :
    Forward json c₁ c₃ where
  index := UInt64.le_trans h.index h'.index
  timestamp := Int64.le_trans h.timestamp h'.timestamp
  scheduled f hf := h'.scheduled f (h.scheduled f hf)
  storedPhase p hp := by
    obtain ⟨q, hq, hpq⟩ := h.storedPhase p hp
    obtain ⟨r, hr, hqr⟩ := h'.storedPhase q hq
    exact ⟨r, hr, UInt8.le_trans hpq hqr⟩
  phase := UInt8.le_trans h.phase h'.phase
  storedVersion u hu := by
    obtain ⟨w, hw, huw⟩ := h.storedVersion u hu
    obtain ⟨x, hx, hwx⟩ := h'.storedVersion w hw
    exact ⟨x, hx, huw.trans hwx⟩
  version := h.version.trans h'.version

variable {lib : Lib} {c c' : Chain}

theorem forward_of_addBlock {b : Block} (h : addBlock lib json c b = .ok c') :
    Forward json c c' := by
  obtain ⟨-, rfl⟩ | ⟨hadm, rfl⟩ := addBlock_cases h
  · exact Forward.refl _
  · exact {
      index := UInt64.le_of_lt hadm.above
      timestamp := hadm.timestamp
      scheduled := fun f => (hadm.schedule f).1
      storedPhase := hadm.phase.1
      phase := hadm.phase.2
      storedVersion := hadm.version.1
      version := hadm.version.2 }

/-- **No run goes back.** -/
theorem forward_of_later (h : Later lib json c c') : Forward json c c' := by
  induction h with
  | refl => exact Forward.refl c
  | tail _ hstep ih =>
    obtain ⟨b, hb⟩ := hstep
    exact ih.trans (forward_of_addBlock hb)

theorem activeAt_mono {r : ActivationRecord} (h : Forward json c c')
    (hr : r.activeAt c.tip.index c.tip.timestamp = true) :
    r.activeAt c'.tip.index c'.tip.timestamp = true := by
  unfold ActivationRecord.activeAt at hr ⊢
  rw [Bool.and_eq_true, decide_eq_true_eq, decide_eq_true_eq] at hr ⊢
  exact ⟨UInt64.le_trans hr.1 h.index, Int64.le_trans hr.2 h.timestamp⟩

theorem featureActive_eq {f : Str} {r : ActivationRecord} (hr : c.record json f = some r) :
    c.featureActive json f = r.activeAt c.tip.index c.tip.timestamp := by
  rw [Chain.record] at hr
  rw [Chain.featureActive, Activations.activeAt, hr]

/-- **Activations only go forward.** Along every run: a feature that is active stays active as long
as its record is the same; a scheduled feature stays scheduled; a record that a block writes or
changes is not due at that block; the phase and the lowest protocol version do not fall, neither as
they are stored nor as they are read. -/
theorem activations_forward (h : Later lib json c c') :
    (∀ f r, c.record json f = some r → c'.record json f = some r →
      c.featureActive json f = true → c'.featureActive json f = true) ∧
    (∀ f, (c.record json f).isSome = true → (c'.record json f).isSome = true) ∧
    (∀ b c'', addBlock lib json c' b = .ok c'' → ∀ f r, c''.record json f = some r →
      c'.record json f ≠ some r → c''.featureActive json f = false) ∧
    (∀ p, c.storedPhase json = some p → ∃ q, c'.storedPhase json = some q ∧ p ≤ q) ∧
    c.phase json ≤ c'.phase json ∧
    (∀ u, c.storedVersion json = some u → ∃ w, c'.storedVersion json = some w ∧
      compareProtocolVersion w u ≠ .lt) ∧
    compareProtocolVersion (c'.minProtocolVersion json) (c.minProtocolVersion json) ≠ .lt := by
  have hfwd := forward_of_later h
  refine ⟨?_, hfwd.scheduled, ?_, hfwd.storedPhase, hfwd.phase, hfwd.storedVersion, hfwd.version⟩
  · intro f r hr hr' hactive
    rw [featureActive_eq hr] at hactive
    rw [featureActive_eq hr']
    exact activeAt_mono hfwd hactive
  · intro b c'' hadd f r hr hne
    obtain ⟨-, rfl⟩ | ⟨hadm, rfl⟩ := addBlock_cases hadd
    · exact absurd hr hne
    · rw [featureActive_eq hr]
      exact (hadm.schedule f).2 r hr hne

end Runs

open SampleNet Xe.Sample in
/-- A feature that the first block makes due is still active after the second. -/
theorem activations_forward_note :
    ∃ c c', Run lib json .badger genesis [noted genesis "1"] c ∧
      Later lib json c c' ∧ c.tip ≠ c'.tip ∧ c.featureActive json feature = true ∧
      c'.featureActive json feature = true := by
  have hrun : (runBlocks lib json .badger genesis [noted genesis "1"]).toOption.any
      (fun c => c.featureActive json feature && decide (c.record json feature = some ⟨1, 0⟩) &&
        (addBlock lib json c (noted (noted genesis "1") "2")).toOption.any
          (fun c' => decide (c'.record json feature = some ⟨1, 0⟩) && decide (c.tip ≠ c'.tip))) =
      true := by
    decide +kernel
  obtain ⟨c, hc, hP⟩ := exists_run _ hrun
  rw [Bool.and_eq_true, Bool.and_eq_true, decide_eq_true_eq] at hP
  obtain ⟨⟨hactive, hrecord⟩, hnext⟩ := hP
  cases hadd : addBlock lib json c (noted (noted genesis "1") "2") with
  | error e =>
    rw [hadd] at hnext
    cases hnext
  | ok c' =>
    rw [hadd] at hnext
    have hnext' : (decide (c'.record json feature = some ⟨1, 0⟩) && decide (c.tip ≠ c'.tip)) = true :=
      hnext
    rw [Bool.and_eq_true, decide_eq_true_eq, decide_eq_true_eq] at hnext'
    have hlater : Later lib json c c' := Relation.ReflTransGen.single ⟨_, hadd⟩
    exact ⟨c, c', hc, hlater, hnext'.2, hactive,
      (activations_forward hlater).1 feature ⟨1, 0⟩ hrecord hnext'.1 hactive⟩

end Xe.StateChain
