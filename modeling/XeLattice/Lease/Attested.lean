import XeLattice.StateChain.Sample
import XeLattice.Median
import Mathlib.Algebra.Order.Group.Abs
import Mathlib.Algebra.Order.Group.Int

/-!
# Attested time

`ValidateAttestations` takes the lower median of the timestamps that trusted timekeepers signed,
one for each text of a key.

* **`attested_time_robust_iff`**: when the attested time can be relied on, and its threshold met.
-/

set_option autoImplicit false
set_option maxRecDepth 100000

namespace Xe

/-! ## The check of the skew -/

/-- How far a timestamp is from the clock, in integers. -/
def clockOffset (now : Int64) (a : TimekeeperAttestation) : ℤ :=
  |a.timestamp.toInt - now.toInt|

/-- The timestamp is within the skew. -/
def NearClock (now maxSkew : Int64) (a : TimekeeperAttestation) : Prop :=
  clockOffset now a ≤ maxSkew.toInt

instance (now maxSkew : Int64) (a : TimekeeperAttestation) : Decidable (NearClock now maxSkew a) :=
  inferInstanceAs (Decidable (_ ≤ _))

/-- The difference leaves 64 bits, and what it wraps to has no absolute value or a small one. -/
def Wraps (now maxSkew : Int64) (a : TimekeeperAttestation) : Prop :=
  clockOffset now a = 2 ^ 63 ∨ 2 ^ 64 - clockOffset now a ≤ maxSkew.toInt

instance (now maxSkew : Int64) (a : TimekeeperAttestation) : Decidable (Wraps now maxSkew a) :=
  inferInstanceAs (Decidable (_ ∨ _))

theorem wrap_cases (d : ℤ) (hlt : d < 2 ^ 64) (hgt : -2 ^ 64 < d) :
    -2 ^ 63 ≤ d ∧ d < 2 ^ 63 ∧ d.bmod (2 ^ 64) = d ∨
      2 ^ 63 ≤ d ∧ d.bmod (2 ^ 64) = d - 2 ^ 64 ∨
        d < -2 ^ 63 ∧ d.bmod (2 ^ 64) = d + 2 ^ 64 := by
  have hdiv := Int.bmod_add_bdiv d (2 ^ 64)
  have hup := Int.bmod_lt (x := d) (m := 2 ^ 64) (by decide)
  have hlow := Int.le_bmod (x := d) (m := 2 ^ 64) (by decide)
  omega

/-- **What the check lets through**: timestamps within the skew, and those that wrap. -/
theorem attestationSkew_le_iff (now maxSkew : Int64) (a : TimekeeperAttestation) :
    ¬ attestationSkew now a.timestamp > maxSkew ↔
      NearClock now maxSkew a ∨ Wraps now maxSkew a := by
  have hts := a.timestamp.toInt_lt
  have hts' := a.timestamp.le_toInt
  have hnow := now.toInt_lt
  have hnow' := now.le_toInt
  have hmax := maxSkew.toInt_lt
  have hmax' := maxSkew.le_toInt
  have hsub : (a.timestamp - now).toInt = (a.timestamp.toInt - now.toInt).bmod (2 ^ 64) :=
    Int64.toInt_sub _ _
  have hneg : (-(a.timestamp - now)).toInt = (-(a.timestamp - now).toInt).bmod (2 ^ 64) :=
    Int64.toInt_neg _
  have hwrap := wrap_cases (a.timestamp.toInt - now.toInt) (by omega) (by omega)
  unfold NearClock Wraps clockOffset attestationSkew
  rw [gt_iff_lt, Int64.not_lt, Int64.le_iff_toInt_le]
  rcases abs_cases (a.timestamp.toInt - now.toInt) with ⟨habs, hsign⟩ | ⟨habs, hsign⟩ <;> rw [habs]
  all_goals
    split_ifs with h <;> rw [Int64.lt_iff_toInt_lt, Int64.toInt_zero] at h
    · have hwrap' := wrap_cases (-(a.timestamp - now).toInt) (by omega) (by omega)
      omega
    · omega

/-! ## The attestations that count -/

/-- The key that an attestation names, as bytes. -/
def TimekeeperAttestation.key (a : TimekeeperAttestation) : Str :=
  (decodePublicKey a.publicKey).toOption.getD []

/-- What `ValidateAttestations` is given beside the attestations. -/
structure TimeCheck where
  lib : Lib
  config : TimekeeperConfig
  leaseHash : Str
  skipSkew : Bool
  now : Int64
  maxSkew : Int64

namespace TimeCheck

variable (q : TimeCheck)

/-- `ValidateAttestations`. -/
def validate (l : List TimekeeperAttestation) : Except Fault Int64 :=
  validateAttestations q.lib l q.leaseHash q.config q.skipSkew q.now q.maxSkew

/-- What is asked of an attestation by itself. -/
def Counts (a : TimekeeperAttestation) : Prop :=
  a.publicKey ∈ q.config.keys ∧ (verifyAttestation q.lib a q.leaseHash).isOk = true ∧
    (q.skipSkew = true ∨ ¬ attestationSkew q.now a.timestamp > q.maxSkew)

instance (a : TimekeeperAttestation) : Decidable (q.Counts a) :=
  inferInstanceAs (Decidable (_ ∧ _ ∧ _))

/-- The attestations that are counted: the first that counts of each text of a key. -/
def countedFrom : List Str → List TimekeeperAttestation → List TimekeeperAttestation
  | _, [] => []
  | seen, a :: rest =>
    if q.Counts a ∧ a.publicKey ∉ seen then a :: countedFrom (a.publicKey :: seen) rest
    else countedFrom seen rest

/-- The attestations that `ValidateAttestations` counts. -/
def counted (l : List TimekeeperAttestation) : List TimekeeperAttestation :=
  q.countedFrom [] l

variable {q} {l : List TimekeeperAttestation}

theorem validTimestamps_eq_map (seen : List Str) (l : List TimekeeperAttestation) :
    validTimestamps q.lib q.config.keys q.leaseHash q.skipSkew q.now q.maxSkew seen l =
      (q.countedFrom seen l).map TimekeeperAttestation.timestamp := by
  induction l generalizing seen with
  | nil => rfl
  | cons a l ih =>
    have hiff : (a.publicKey ∈ q.config.keys ∧ a.publicKey ∉ seen ∧
        (verifyAttestation q.lib a q.leaseHash).isOk = true ∧
          (q.skipSkew = true ∨ ¬ attestationSkew q.now a.timestamp > q.maxSkew)) ↔
        q.Counts a ∧ a.publicKey ∉ seen := by
      unfold Counts
      tauto
    rw [validTimestamps, countedFrom]
    by_cases hc : q.Counts a ∧ a.publicKey ∉ seen
    · rw [if_pos (hiff.mpr hc), if_pos hc, List.map_cons, ih]
    · rw [if_neg fun h => hc (hiff.mp h), if_neg hc, ih]

theorem mem_countedFrom_iff {seen : List Str} {a : TimekeeperAttestation} :
    a ∈ q.countedFrom seen l ↔ a.publicKey ∉ seen ∧
      l.find? (fun b => decide (b.publicKey = a.publicKey ∧ q.Counts b)) = some a := by
  induction l generalizing seen with
  | nil => simp [countedFrom]
  | cons b l ih =>
    rw [countedFrom, List.find?_cons]
    by_cases hkey : b.publicKey = a.publicKey
    · by_cases hb : q.Counts b
      · by_cases hseen : a.publicKey ∈ seen
        · rw [if_neg fun h => h.2 (hkey ▸ hseen), ih]
          simp [hseen]
        · rw [if_pos ⟨hb, hkey ▸ hseen⟩, List.mem_cons, ih]
          simp [hkey, hb, hseen, eq_comm]
      · rw [if_neg fun h => hb h.1, ih]
        simp [hb]
    · have hne : a ≠ b := fun h => hkey (h ▸ rfl)
      split_ifs
      · rw [List.mem_cons, ih]
        simp [hkey, hne, Ne.symm hkey]
      · rw [ih]
        simp [hkey]

theorem counts_of_mem_counted {a : TimekeeperAttestation} (h : a ∈ q.counted l) :
    a ∈ l ∧ q.Counts a := by
  have hfind := (mem_countedFrom_iff.mp h).2
  have hcounts := List.find?_some hfind
  exact ⟨List.mem_of_find?_eq_some hfind, (of_decide_eq_true hcounts).2⟩

theorem exists_mem_counted {a : TimekeeperAttestation} (ha : a ∈ l) (hc : q.Counts a) :
    ∃ b ∈ q.counted l, b.publicKey = a.publicKey := by
  have hsome : (l.find? fun b => decide (b.publicKey = a.publicKey ∧ q.Counts b)).isSome = true :=
    List.find?_isSome.mpr ⟨a, ha, decide_eq_true ⟨rfl, hc⟩⟩
  obtain ⟨b, hb⟩ := Option.isSome_iff_exists.mp hsome
  have hfirst := List.find?_some hb
  have hkey : b.publicKey = a.publicKey := (of_decide_eq_true hfirst).1
  exact ⟨b, mem_countedFrom_iff.mpr ⟨List.not_mem_nil, hkey ▸ hb⟩, hkey⟩

theorem nodup_publicKey_countedFrom (seen : List Str) (l : List TimekeeperAttestation) :
    ((q.countedFrom seen l).map TimekeeperAttestation.publicKey).Nodup := by
  induction l generalizing seen with
  | nil => exact List.nodup_nil
  | cons a l ih =>
    rw [countedFrom]
    split_ifs
    · refine List.nodup_cons.mpr ⟨fun hmem => ?_, ih _⟩
      obtain ⟨b, hb, hkey⟩ := List.mem_map.mp hmem
      exact (mem_countedFrom_iff.mp hb).1 (hkey ▸ List.mem_cons_self)
    · exact ih _

theorem countedFrom_eq_self {seen : List Str} (hc : ∀ a ∈ l, q.Counts a ∧ a.publicKey ∉ seen)
    (hnd : (l.map TimekeeperAttestation.publicKey).Nodup) : q.countedFrom seen l = l := by
  induction l generalizing seen with
  | nil => rfl
  | cons a l ih =>
    obtain ⟨hnew, hnd⟩ := List.nodup_cons.mp hnd
    rw [countedFrom, if_pos (hc a List.mem_cons_self), ih _ hnd]
    intro b hb
    obtain ⟨hcb, hseen⟩ := hc b (List.mem_cons_of_mem a hb)
    refine ⟨hcb, fun hmem => ?_⟩
    rcases List.mem_cons.mp hmem with heq | hmem
    · exact hnew (heq ▸ List.mem_map_of_mem hb)
    · exact hseen hmem

theorem Counts.decodePublicKey_eq {a : TimekeeperAttestation} (h : q.Counts a) :
    decodePublicKey a.publicKey = .ok a.key := by
  obtain ⟨_, hok⟩ := exists_of_isOk h.2.1
  obtain ⟨payload, -, hverify⟩ := bind_eq_ok.mp hok
  obtain ⟨pub, hdec, -⟩ := bind_eq_ok.mp hverify
  unfold TimekeeperAttestation.key
  rw [hdec]
  rfl

/-! ## The median -/

/-- The order of `sort.Slice`. -/
def Earlier (a b : TimekeeperAttestation) : Prop :=
  a.timestamp ≤ b.timestamp

instance : DecidableRel Earlier :=
  fun a b => inferInstanceAs (Decidable (a.timestamp ≤ b.timestamp))

instance : Std.Total Earlier :=
  ⟨fun a b => Int64.le_total a.timestamp b.timestamp⟩

instance : IsTrans TimekeeperAttestation Earlier :=
  ⟨fun _ _ _ => Int64.le_trans⟩

/-- The counted attestations in the order of their timestamps. -/
def countedByTime (q : TimeCheck) (l : List TimekeeperAttestation) : List TimekeeperAttestation :=
  (q.counted l).insertionSort Earlier

variable {t : Int64}

theorem countedByTime_perm : (q.countedByTime l).Perm (q.counted l) :=
  List.perm_insertionSort _ _

theorem countedByTime_sorted : (q.countedByTime l).Pairwise Earlier :=
  List.pairwise_insertionSort _ _

theorem validate_eq_ok :
    q.validate l = .ok t ↔
      q.config.threshold ≠ 0 ∧ l.length ≤ maxAttestationsPerBlock ∧
        q.config.threshold ≤ l.length ∧ q.config.threshold ≤ (q.counted l).length ∧
          ∃ a, (q.countedByTime l)[((q.counted l).length - 1) / 2]? = some a ∧ a.timestamp = t := by
  have hsort : ((q.counted l).map TimekeeperAttestation.timestamp).insertionSort (· ≤ ·) =
      (q.countedByTime l).map TimekeeperAttestation.timestamp :=
    (List.map_insertionSort Earlier (· ≤ ·) TimekeeperAttestation.timestamp _
      fun _ _ _ _ => Iff.rfl).symm
  have hmap : validTimestamps q.lib q.config.keys q.leaseHash q.skipSkew q.now q.maxSkew [] l =
      (q.counted l).map TimekeeperAttestation.timestamp := validTimestamps_eq_map [] l
  unfold validate validateAttestations
  dsimp only
  rw [hmap, hsort, List.length_map, List.getElem?_map]
  simp only [bind_eq_ok, guardErr_eq_ok, exists_const, not_lt, gt_iff_lt, ne_eq]
  cases (q.countedByTime l)[((q.counted l).length - 1) / 2]? <;> simp

/-! ## Robustness -/

variable (q l)

/-- What is expected of an attested time: (a) it comes from enough different keys of 32 bytes, (b) it
lies between two honest timestamps when fewer than half of the counted keys are faulty, (c) it is
within the skew of the clock. -/
structure Robust (t : Int64) : Prop where
  keys : ∀ a ∈ q.counted l, decodePublicKey a.publicKey = .ok a.key
  distinct : ((q.counted l).map TimekeeperAttestation.key).Nodup
  enough : q.config.threshold ≤ (q.counted l).length
  honest : ∀ faulty : Str → Bool,
    2 * (q.counted l).countP (fun a => faulty a.key) < (q.counted l).length →
      (∃ a ∈ q.counted l, faulty a.key = false ∧ a.timestamp ≤ t) ∧
        ∃ a ∈ q.counted l, faulty a.key = false ∧ t ≤ a.timestamp
  near : q.skipSkew = false → |t.toInt - q.now.toInt| ≤ q.maxSkew.toInt

/-- No two attestations that pass the checks name one key in two spellings. -/
def SpelledOnce : Prop :=
  ∀ a ∈ l, ∀ b ∈ l, q.Counts a → q.Counts b → a.key = b.key → a.publicKey = b.publicKey

/-- What a key of the configuration has to say: its first signed attestation that is within the skew
or wraps. -/
def answer (k : Str) : Option TimekeeperAttestation :=
  l.find? fun a => decide (a.publicKey = k ∧ (verifyAttestation q.lib a q.leaseHash).isOk = true ∧
    (NearClock q.now q.maxSkew a ∨ Wraps q.now q.maxSkew a))

/-- One answer of each key of the configuration. -/
def answers : List TimekeeperAttestation :=
  q.config.keys.dedup.filterMap (q.answer l)

/-- When the skew is checked, the answers that wrap do not reach the lower median.  They are before
the clock when the clock is not negative, and behind it otherwise. -/
def WrappedMinority : Prop :=
  q.skipSkew = false →
    2 * (q.answers l).countP (fun a => decide (Wraps q.now q.maxSkew a)) ≤ (q.answers l).length ∧
      (0 ≤ q.now → 2 * (q.answers l).countP (fun a => decide (Wraps q.now q.maxSkew a)) <
        (q.answers l).length)

variable {q l}

theorem distinct_iff_spelledOnce :
    ((q.counted l).map TimekeeperAttestation.key).Nodup ↔ q.SpelledOnce l := by
  have hnd : ((q.counted l).map TimekeeperAttestation.publicKey).Nodup :=
    nodup_publicKey_countedFrom [] l
  constructor
  · intro hkeys a ha b hb hca hcb hkey
    obtain ⟨a', ha', hpa⟩ := exists_mem_counted ha hca
    obtain ⟨b', hb', hpb⟩ := exists_mem_counted hb hcb
    have hsame : a'.key = b'.key := by
      unfold TimekeeperAttestation.key at hkey ⊢
      rw [hpa, hpb, hkey]
    rw [← hpa, ← hpb, List.inj_on_of_nodup_map hkeys ha' hb' hsame]
  · intro honce
    refine List.Nodup.map_on (fun a ha b hb hkey => ?_) hnd.of_map
    obtain ⟨ha', hca⟩ := counts_of_mem_counted ha
    obtain ⟨hb', hcb⟩ := counts_of_mem_counted hb
    exact List.inj_on_of_nodup_map hnd ha hb (honce a ha' b hb' hca hcb hkey)

theorem counts_iff (hskew : q.skipSkew = false) (a : TimekeeperAttestation) :
    q.Counts a ↔ a.publicKey ∈ q.config.keys ∧ (verifyAttestation q.lib a q.leaseHash).isOk = true ∧
      (NearClock q.now q.maxSkew a ∨ Wraps q.now q.maxSkew a) := by
  unfold Counts
  rw [← attestationSkew_le_iff, hskew]
  simp

theorem answer_eq (hskew : q.skipSkew = false) {k : Str} (hk : k ∈ q.config.keys) :
    q.answer l k = l.find? fun a => decide (a.publicKey = k ∧ q.Counts a) := by
  unfold answer
  congr 1
  funext a
  refine decide_eq_decide.mpr (and_congr_right ?_)
  rintro rfl
  rw [counts_iff hskew, and_iff_right hk]

theorem publicKey_of_answer {k : Str} {a : TimekeeperAttestation} (h : q.answer l k = some a) :
    a.publicKey = k := by
  have hfirst := List.find?_some h
  exact (of_decide_eq_true hfirst).1

/-- **What is counted are the answers of the keys.** -/
theorem counted_perm_answers (hskew : q.skipSkew = false) :
    (q.counted l).Perm (q.answers l) := by
  have hnd : (q.answers l).Nodup := by
    refine (List.nodup_dedup _).filterMap fun k k' a ha ha' => ?_
    exact (publicKey_of_answer ha).symm.trans (publicKey_of_answer ha')
  refine (List.perm_ext_iff_of_nodup (nodup_publicKey_countedFrom [] l).of_map hnd).mpr fun a => ?_
  unfold answers
  rw [List.mem_filterMap]
  constructor
  · intro ha
    have hk := (counts_of_mem_counted ha).2.1
    refine ⟨a.publicKey, List.mem_dedup.mpr hk, ?_⟩
    rw [answer_eq hskew hk]
    exact (mem_countedFrom_iff.mp ha).2
  · rintro ⟨k, hk, ha⟩
    obtain rfl := publicKey_of_answer ha
    rw [answer_eq hskew (List.mem_dedup.mp hk)] at ha
    exact mem_countedFrom_iff.mpr ⟨List.not_mem_nil, ha⟩

/-- The timestamp is before the skew, in integers. -/
def tooEarly (q : TimeCheck) (a : TimekeeperAttestation) : Bool :=
  decide (a.timestamp.toInt < q.now.toInt - q.maxSkew.toInt)

/-- The timestamp is behind the skew, in integers. -/
def tooLate (q : TimeCheck) (a : TimekeeperAttestation) : Bool :=
  decide (q.now.toInt + q.maxSkew.toInt < a.timestamp.toInt)

/-- Of the timestamps that the check lets through, those outside the skew are those that wrap: they
are early when the clock is not negative, and late otherwise. -/
theorem outside_iff_wraps (hskew : q.skipSkew = false) {a : TimekeeperAttestation}
    (ha : q.Counts a) :
    (q.tooEarly a = true ↔ 0 ≤ q.now ∧ Wraps q.now q.maxSkew a) ∧
      (q.tooLate a = true ↔ q.now < 0 ∧ Wraps q.now q.maxSkew a) := by
  have hpass := ((counts_iff hskew a).mp ha).2.2
  have hts := a.timestamp.toInt_lt
  have hts' := a.timestamp.le_toInt
  have hnow := q.now.toInt_lt
  have hnow' := q.now.le_toInt
  have hmax := q.maxSkew.toInt_lt
  have hmax' := q.maxSkew.le_toInt
  unfold tooEarly tooLate
  unfold NearClock Wraps clockOffset at hpass
  unfold Wraps clockOffset
  rw [decide_eq_true_eq, decide_eq_true_eq, Int64.le_iff_toInt_le, Int64.lt_iff_toInt_lt,
    Int64.toInt_zero]
  rcases abs_cases (a.timestamp.toInt - q.now.toInt) with ⟨habs, hsign⟩ | ⟨habs, hsign⟩ <;>
    rw [habs] at hpass ⊢ <;> omega

theorem countP_outside (hskew : q.skipSkew = false) :
    (q.counted l).countP q.tooEarly =
        (if 0 ≤ q.now then (q.counted l).countP fun a => decide (Wraps q.now q.maxSkew a) else 0) ∧
      (q.counted l).countP q.tooLate =
        if 0 ≤ q.now then 0 else (q.counted l).countP fun a => decide (Wraps q.now q.maxSkew a) := by
  have hw := fun x hx => outside_iff_wraps hskew (counts_of_mem_counted (l := l) (a := x) hx).2
  by_cases hnow : 0 ≤ q.now
  · rw [if_pos hnow, if_pos hnow, List.countP_eq_zero]
    refine ⟨List.countP_congr fun x hx => ?_, fun x hx hlate => ?_⟩
    · rw [(hw x hx).1, decide_eq_true_eq, and_iff_right hnow]
    · exact Int64.not_lt.mpr hnow ((hw x hx).2.mp hlate).1
  · rw [if_neg hnow, if_neg hnow, List.countP_eq_zero]
    refine ⟨fun x hx hearly => hnow ((hw x hx).1.mp hearly).1, List.countP_congr fun x hx => ?_⟩
    rw [(hw x hx).2, decide_eq_true_eq, and_iff_right (Int64.not_le.mp hnow)]

theorem near_iff_wrappedMinority (h : q.validate l = .ok t) :
    (q.skipSkew = false → |t.toInt - q.now.toInt| ≤ q.maxSkew.toInt) ↔ q.WrappedMinority l := by
  obtain ⟨-, -, -, -, a, ha, rfl⟩ := validate_eq_ok.mp h
  refine imp_congr_right fun hskew => ?_
  have hearly := Median.sorted_at_iff countedByTime_sorted (p := q.tooEarly) (fun x y hxy hy => by
    have hle := Int64.le_iff_toInt_le.mp hxy
    simp only [tooEarly, decide_eq_true_eq] at hy ⊢
    omega) ha
  have hlate := Median.sorted_at_iff_up countedByTime_sorted (p := q.tooLate) (fun x y hxy hx => by
    have hle := Int64.le_iff_toInt_le.mp hxy
    simp only [tooLate, decide_eq_true_eq] at hx ⊢
    omega) ha
  have hpos := List.length_pos_of_mem (List.mem_of_getElem? ha)
  rw [countedByTime_perm.countP_eq] at hearly hlate
  rw [countedByTime_perm.length_eq] at hlate hpos
  rw [(countP_outside hskew).1, tooEarly, decide_eq_true_eq] at hearly
  rw [(countP_outside hskew).2, tooLate, decide_eq_true_eq] at hlate
  rw [← (counted_perm_answers hskew).countP_eq, ← (counted_perm_answers hskew).length_eq, abs_le]
  by_cases hnow : 0 ≤ q.now
  · rw [if_pos hnow] at hearly hlate
    simp only [hnow, true_implies]
    omega
  · rw [if_neg hnow] at hearly hlate
    simp only [hnow, false_implies, and_true]
    omega

theorem honest_of_minority (h : q.validate l = .ok t) (faulty : Str → Bool)
    (hfew : 2 * (q.counted l).countP (fun a => faulty a.key) < (q.counted l).length) :
    (∃ a ∈ q.counted l, faulty a.key = false ∧ a.timestamp ≤ t) ∧
      ∃ a ∈ q.counted l, faulty a.key = false ∧ t ≤ a.timestamp := by
  obtain ⟨-, -, -, -, a, ha, rfl⟩ := validate_eq_ok.mp h
  have hperm : (q.countedByTime l).Perm (q.counted l) := countedByTime_perm
  rw [← hperm.countP_eq, ← hperm.length_eq] at hfew
  rw [← hperm.length_eq] at ha
  obtain ⟨⟨x, hx, hfx, hxa⟩, y, hy, hfy, hay⟩ := Median.between_of_minority
    countedByTime_sorted (fun x => Int64.le_refl x.timestamp) ha hfew
  exact ⟨⟨x, hperm.mem_iff.mp hx, hfx, hxa⟩, y, hperm.mem_iff.mp hy, hfy, hay⟩

theorem robust_iff (h : q.validate l = .ok t) :
    q.Robust l t ↔ q.SpelledOnce l ∧ q.WrappedMinority l := by
  rw [← distinct_iff_spelledOnce, ← near_iff_wrappedMinority h]
  constructor
  · intro hrobust
    exact ⟨hrobust.distinct, hrobust.near⟩
  · rintro ⟨hdistinct, hnear⟩
    exact {
      keys := fun a ha => (counts_of_mem_counted ha).2.decodePublicKey_eq
      distinct := hdistinct
      enough := (validate_eq_ok.mp h).2.2.2.1
      honest := honest_of_minority h
      near := hnear }

end TimeCheck

/-! ## Meeting the threshold -/

section Meetable

open TimeCheck

variable (lib : Lib) (config : TimekeeperConfig) (maxSkew : Int64)

/-- For every lease and at every time there are attestations that are enough. -/
def Meetable : Prop :=
  ∀ leaseHash, (decodeHash leaseHash).isOk = true → ∀ skipSkew now,
    ∃ l, (validateAttestations lib l leaseHash config skipSkew now maxSkew).isOk = true

/-- Whoever holds a key of the configuration can sign with it. -/
def CanSign : Prop :=
  ∀ k ∈ config.keys, (decodePublicKey k).isOk = true → ∀ message,
    ∃ sig, verifyHexSignature lib k sig message = .ok ()

/-- The different texts of the configuration that are keys. -/
def usableKeys : List Str :=
  config.keys.dedup.filter fun k => (decodePublicKey k).isOk

variable {lib config maxSkew}

theorem mem_usableKeys {k : Str} :
    k ∈ usableKeys config ↔ k ∈ config.keys ∧ (decodePublicKey k).isOk = true := by
  rw [usableKeys, List.mem_filter, List.mem_dedup]

theorem attestationSkew_self (now : Int64) : attestationSkew now now = 0 := by
  unfold attestationSkew
  rw [Int64.sub_self]
  rfl

/-- Attestations by different usable keys, made now, are enough when they reach the threshold. -/
theorem exists_validate {q : TimeCheck} (ks : List Str) (hks : ks.Nodup)
    (husable : ∀ k ∈ ks, k ∈ usableKeys q.config) (hlen : (ks.length : ℤ) = q.config.threshold)
    (hone : 1 ≤ q.config.threshold) (hmax : q.config.threshold ≤ maxAttestationsPerBlock)
    (hsign : CanSign q.lib q.config) (hskew : 0 ≤ q.maxSkew)
    (hhash : (decodeHash q.leaseHash).isOk = true) : ∃ l, (q.validate l).isOk = true := by
  obtain ⟨payload, hpayload⟩ : ∃ p, attestationPayload q.lib q.leaseHash q.now = .ok p := by
    obtain ⟨bytes, hdec⟩ := exists_of_isOk hhash
    unfold attestationPayload
    rw [hdec]
    exact ⟨_, rfl⟩
  have hsig : ∀ k ∈ ks, ∃ sig, verifyHexSignature q.lib k sig payload = .ok () := fun k hk =>
    hsign k (mem_usableKeys.mp (husable k hk)).1 (mem_usableKeys.mp (husable k hk)).2 payload
  choose! sig hsig using hsig
  let l : List TimekeeperAttestation := ks.map fun k => ⟨k, q.now, sig k⟩
  have hkeys : l.map TimekeeperAttestation.publicKey = ks :=
    List.map_map.trans (List.map_id ks)
  have hcounts : ∀ a ∈ l, q.Counts a := by
    intro a ha
    obtain ⟨k, hk, rfl⟩ := List.mem_map.mp ha
    refine ⟨(mem_usableKeys.mp (husable k hk)).1, ?_, .inr ?_⟩
    · unfold verifyAttestation
      rw [hpayload]
      show (verifyHexSignature q.lib k (sig k) payload).isOk = true
      rw [hsig k hk]
      rfl
    · rw [attestationSkew_self]
      exact Int64.not_lt.mpr hskew
  have hall : q.counted l = l :=
    countedFrom_eq_self (fun a ha => ⟨hcounts a ha, List.not_mem_nil⟩) (hkeys.symm ▸ hks)
  have hl : l.length = ks.length := List.length_map _
  have hmid : ((l.length - 1) / 2) < (l.insertionSort Earlier).length := by
    rw [List.length_insertionSort]
    omega
  refine ⟨l, ?_⟩
  have hok : q.validate l = .ok ((l.insertionSort Earlier)[(l.length - 1) / 2]).timestamp := by
    refine validate_eq_ok.mpr ⟨by omega, by omega, by omega, ?_, ?_⟩
    · rw [hall]
      omega
    · refine ⟨_, ?_, rfl⟩
      rw [countedByTime, hall, List.getElem?_eq_getElem hmid]
  rw [hok]
  rfl

theorem le_usableKeys_of_ok {q : TimeCheck} {l : List TimekeeperAttestation}
    (h : (q.validate l).isOk = true) :
    q.config.threshold ≤ (usableKeys q.config).length ∧
      q.config.threshold ≤ maxAttestationsPerBlock := by
  obtain ⟨t, hok⟩ := exists_of_isOk h
  obtain ⟨-, hmax, hlen, hcount, -⟩ := validate_eq_ok.mp hok
  have hsub : (q.counted l).map TimekeeperAttestation.publicKey ⊆ usableKeys q.config := by
    intro k hk
    obtain ⟨a, ha, rfl⟩ := List.mem_map.mp hk
    have hc := (counts_of_mem_counted ha).2
    exact mem_usableKeys.mpr ⟨hc.1, by rw [hc.decodePublicKey_eq]; rfl⟩
  have hle := ((nodup_publicKey_countedFrom [] l).subperm hsub).length_le
  rw [List.length_map] at hle
  unfold counted at hcount
  omega

theorem meetable_iff (hone : 1 ≤ config.threshold) (hsign : CanSign lib config)
    (hskew : 0 ≤ maxSkew) :
    Meetable lib config maxSkew ↔
      config.threshold ≤ (usableKeys config).length ∧
        config.threshold ≤ maxAttestationsPerBlock := by
  constructor
  · intro h
    obtain ⟨l, hl⟩ := h (List.replicate 64 48) (by decide +kernel) true 0
    exact le_usableKeys_of_ok (q := ⟨lib, config, _, true, 0, maxSkew⟩) hl
  · rintro ⟨husable, hmax⟩ leaseHash hhash skipSkew now
    refine exists_validate (q := ⟨lib, config, leaseHash, skipSkew, now, maxSkew⟩)
      ((usableKeys config).take config.threshold.toNat) ?_ ?_ ?_ hone hmax hsign hskew hhash
    · exact ((config.keys.nodup_dedup).filter _).sublist (List.take_sublist _ _)
    · exact fun k hk => List.mem_of_mem_take hk
    · change (((usableKeys config).take config.threshold.toNat).length : ℤ) = config.threshold
      rw [List.length_take]
      omega

end Meetable

/-- **When the attested time of an accepted configuration can be relied on, and when its threshold
can be met.** -/
theorem attested_time_robust_iff {lib : Lib} {json : StateChain.Json} {value : Str}
    {tk : StateChain.DAOKeyset} {maxSkew : Int64}
    (haccepted : StateChain.validateTimekeepers json value = .ok ())
    (hread : json.timekeepers value = .ok tk) (hskew : 0 ≤ maxSkew)
    (hsign : CanSign lib ⟨tk.keys, tk.threshold⟩) :
    (∀ leaseHash skipSkew now l t,
      let q : TimeCheck := ⟨lib, ⟨tk.keys, tk.threshold⟩, leaseHash, skipSkew, now, maxSkew⟩
      validateAttestations lib l leaseHash ⟨tk.keys, tk.threshold⟩ skipSkew now maxSkew = .ok t →
        (q.Robust l t ↔ q.SpelledOnce l ∧ q.WrappedMinority l)) ∧
      (Meetable lib ⟨tk.keys, tk.threshold⟩ maxSkew ↔
        tk.threshold ≤ (usableKeys ⟨tk.keys, tk.threshold⟩).length ∧
          tk.threshold ≤ maxAttestationsPerBlock) := by
  unfold StateChain.validateTimekeepers at haccepted
  rw [hread] at haccepted
  obtain ⟨⟨⟩, -, haccepted⟩ := bind_eq_ok.mp haccepted
  obtain ⟨⟨⟩, hthreshold, -⟩ := bind_eq_ok.mp haccepted
  have hrange := guardErr_eq_ok.mp hthreshold
  push Not at hrange
  exact ⟨fun _ _ _ _ _ h => TimeCheck.robust_iff h, meetable_iff hrange.1 hsign hskew⟩

namespace SampleTime

open StateChain.SampleNet

/-- Two keys, both of which have to sign. -/
def two : StateChain.DAOKeyset :=
  ⟨[key 1, key 2], 2⟩

/-- A configuration that spells one key in two ways. -/
def respelled : StateChain.DAOKeyset :=
  ⟨[key 1, upperKey 1], 2⟩

/-- A configuration that lists one key twice. -/
def repeated : StateChain.DAOKeyset :=
  ⟨[key 1, key 1], 2⟩

/-- A single key. -/
def one : StateChain.DAOKeyset :=
  ⟨[key 1], 1⟩

/-- The value of `sys.timekeepers`. -/
def text (tk : StateChain.DAOKeyset) : Str :=
  StateChain.keysetText tk.keys tk.threshold.toNat

/-- Reads the values of the four configurations. -/
def json : StateChain.Json :=
  { StateChain.SampleNet.json with
    timekeepers := StateChain.readAs ([two, respelled, repeated, one].map fun tk => (text tk, tk)) }

/-- A check of a lease at time 8, with a skew of 600. -/
def check (tk : StateChain.DAOKeyset) : TimeCheck :=
  ⟨Sample.lib, ⟨tk.keys, tk.threshold⟩, List.replicate 64 48, false, 8, 600⟩

/-- An attestation with a signature. -/
def attest (k : Str) (ts : Int64) : TimekeeperAttestation :=
  ⟨k, ts, Sample.signature⟩

theorem canSign (c : TimekeeperConfig) : CanSign Sample.lib c := by
  intro k hk hdec message
  obtain ⟨pub, hpub⟩ := exists_of_isOk hdec
  refine ⟨Sample.signature, ?_⟩
  have hsig : decodeSignature Sample.signature = .ok (List.replicate 64 0) := by decide +kernel
  unfold verifyHexSignature
  rw [hpub, hsig]
  rfl

end SampleTime

open SampleTime StateChain.SampleNet in
/-- Two timekeepers. -/
theorem attested_time_robust_two :
    StateChain.validateTimekeepers SampleTime.json (text two) = .ok () ∧
      (check two).Robust [attest (key 1) 7, attest (key 2) 9] 7 ∧
        Meetable Sample.lib (check two).config 600 := by
  have haccepted : StateChain.validateTimekeepers SampleTime.json (text two) = .ok () := by
    decide +kernel
  have hread : SampleTime.json.timekeepers (text two) = .ok two := by decide +kernel
  have hskew : (0 : Int64) ≤ 600 := by decide
  obtain ⟨hrobust, hmeet⟩ :=
    attested_time_robust_iff haccepted hread hskew (canSign (check two).config)
  refine ⟨haccepted, (hrobust _ false 8 _ 7 (by decide +kernel)).mpr ⟨?_, ?_⟩,
    hmeet.mpr (by decide +kernel)⟩
  · unfold TimeCheck.SpelledOnce
    decide +kernel
  · unfold TimeCheck.WrappedMinority
    decide +kernel

open SampleTime StateChain.SampleNet in
/-- One key that counts twice under two spellings; a timestamp whose distance from the clock wraps
to the least number, which has no absolute value; and a configuration whose two entries are one
key. -/
theorem attested_time_fails :
    (StateChain.validateTimekeepers SampleTime.json (text respelled) = .ok () ∧
      (check respelled).validate [attest (key 1) 7, attest (upperKey 1) 9] = .ok 7 ∧
        ¬ (check respelled).Robust [attest (key 1) 7, attest (upperKey 1) 9] 7) ∧
    (StateChain.validateTimekeepers SampleTime.json (text one) = .ok () ∧
      (check one).validate [attest (key 1) (-9223372036854775800)] = .ok (-9223372036854775800) ∧
        ¬ (check one).Robust [attest (key 1) (-9223372036854775800)] (-9223372036854775800)) ∧
    (StateChain.validateTimekeepers SampleTime.json (text repeated) = .ok () ∧
      ¬ Meetable Sample.lib (check repeated).config 600) := by
  refine ⟨⟨by decide +kernel, by decide +kernel, fun h => ?_⟩,
    ⟨by decide +kernel, by decide +kernel, fun h => ?_⟩, by decide +kernel, fun h => ?_⟩
  · exact absurd h.distinct (by decide +kernel)
  · exact absurd (h.near rfl) (by decide +kernel)
  · obtain ⟨l, hl⟩ := h _ (by decide +kernel : (decodeHash (check repeated).leaseHash).isOk = true)
      false 8
    exact absurd (le_usableKeys_of_ok (q := check repeated) hl).1 (by decide +kernel)

end Xe
