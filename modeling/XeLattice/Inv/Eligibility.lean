import XeLattice.Inv.Elections
import XeLattice.StateChain.Sample

/-!
# Who counts in an election

`core/repeligibility.go` and the value of `sys.representatives` it goes by: an allowlist restricts
the weights of an election, unless no listed representative has any, in which case it is ignored.
Single weights, their total and the snapshot of an election are three traversals of one table; they
always agree.  The allowlist is compared with the table as text, though, while the state chain
accepts any spelling of an address.

* `Memory.Restricted`, **`restricted_iff`**: when exactly the listed addresses count;
* **`election_tables_iff`**: agreement and restriction, for all values that the chain accepts.
-/

set_option autoImplicit false

namespace Xe

open StateChain (Json validateRepresentatives validateHexKeys repModeOpen repModeAllowlist jsonObject
  jsonField jsonArray quoteJSON)

/-! ## The code -/

/-- `repConfigFn` of the node: the configuration that the value of `sys.representatives` is read
as, if there is one and it can be read. -/
def repConfigFn (json : Json) (raw : Option Str) : Option RepresentativeConfig :=
  raw.bind fun value =>
    (json.representatives value).toOption.map fun rc =>
      { allowlistMode := rc.mode == repModeAllowlist, addresses := rc.addresses }

/-! ## The three tables -/

section Sums

variable {m : Memory} {cfg : Option RepresentativeConfig}

theorem totalDelegatedWeight_le : m.totalDelegatedWeight cfg ≤ m.weights.sum (fun _ w => w) := by
  rw [← sum_voteWeight m cfg (Finset.Subset.refl m.weights.keys)]
  refine Finset.sum_le_sum fun rep _ => ?_
  unfold Memory.voteWeight Memory.weightOf Table.weight
  split_ifs
  · cases m.weights.get rep <;> exact le_rfl
  · exact Nat.zero_le _

end Sums

/-! ## Restrictions -/

/-- The address is on the allowlist, as bytes. -/
def Allowlisted (cfg : RepresentativeConfig) (rep : Str) : Prop :=
  cfg.allowlistMode = true ∧
    ∃ a ∈ cfg.addresses, ∃ bytes, hexDecode a = .ok bytes ∧ hexDecode rep = .ok bytes

/-- If a listed address has weight, then exactly the listed ones count, with their full weight;
otherwise everybody does. -/
structure Memory.Restricted (m : Memory) (cfg : RepresentativeConfig) : Prop where
  listed : (∃ rep, Allowlisted cfg rep ∧ 0 < m.weightOf rep) → ∀ rep, Allowlisted cfg rep →
    m.voteWeight (some cfg) rep = m.weightOf rep
  others : (∃ rep, Allowlisted cfg rep ∧ 0 < m.weightOf rep) → ∀ rep, ¬Allowlisted cfg rep →
    m.voteWeight (some cfg) rep = 0
  everybody : ¬(∃ rep, Allowlisted cfg rep ∧ 0 < m.weightOf rep) → ∀ rep,
    m.voteWeight (some cfg) rep = m.weightOf rep

/-- Every address with weight that is listed is listed in its own spelling; or none is, and all that
have weight are listed in another one. -/
def Memory.Spelled (m : Memory) (cfg : RepresentativeConfig) : Prop :=
  (∀ rep, Allowlisted cfg rep → 0 < m.weightOf rep → rep ∈ cfg.addresses) ∨
    (∀ rep ∈ cfg.addresses, m.weightOf rep = 0) ∧
      ∀ rep, 0 < m.weightOf rep → Allowlisted cfg rep

section Restrictions

variable {m : Memory} {cfg : RepresentativeConfig}

theorem restricted_open (h : cfg.allowlistMode = false) : m.Restricted cfg ∧ m.Spelled cfg := by
  have hnone : ∀ rep, ¬Allowlisted cfg rep := by
    rintro rep ⟨hmode, -⟩
    rw [h] at hmode
    cases hmode
  have hweight : ∀ rep, m.voteWeight (some cfg) rep = m.weightOf rep := by
    intro rep
    simp [Memory.voteWeight, Memory.eligibleAllowlist, Memory.allowlist, h, Memory.repEligible]
  refine ⟨⟨?_, ?_, fun _ => hweight⟩, .inl fun rep hrep => absurd hrep (hnone rep)⟩
  · rintro ⟨rep, hrep, -⟩
    exact absurd hrep (hnone rep)
  · rintro ⟨rep, hrep, -⟩
    exact absurd hrep (hnone rep)

/-- What the code makes of an allowlist: it goes by the text of the addresses. -/
theorem voteWeight_allowlist (h : cfg.allowlistMode = true) (hne : cfg.addresses ≠ [])
    (hlong : ∀ a ∈ cfg.addresses, a ≠ []) (rep : Str) : m.voteWeight (some cfg) rep =
      if ∃ a ∈ cfg.addresses, 0 < m.weightOf a then
        if rep ∈ cfg.addresses then m.weightOf rep else 0
      else m.weightOf rep := by
  have hfilter : cfg.addresses.filter (· ≠ []) = cfg.addresses :=
    List.filter_eq_self.mpr fun a ha => by simp [hlong a ha]
  have hset : Memory.allowlist (some cfg) = some cfg.addresses.toFinset := by
    have hne' : cfg.addresses.toFinset ≠ ∅ := by simpa using hne
    simp only [Memory.allowlist, h, hfilter, if_neg hne', Bool.true_eq_false, if_false]
  unfold Memory.voteWeight Memory.eligibleAllowlist
  rw [hset]
  simp only [List.mem_toFinset]
  split_ifs with hactive hel hin hin <;> simp_all [Memory.repEligible]

/-- **Exactly the listed addresses count** if and only if they are spelled as in the table, or the
list is ignored and nobody else has weight. -/
theorem restricted_iff (h : cfg.allowlistMode = true) (hne : cfg.addresses ≠ [])
    (hlong : ∀ a ∈ cfg.addresses, a ≠ []) (hhex : ∀ a ∈ cfg.addresses, ∃ bs, hexDecode a = .ok bs) :
    m.Restricted cfg ↔ m.Spelled cfg := by
  have hself : ∀ a ∈ cfg.addresses, Allowlisted cfg a := by
    intro a ha
    obtain ⟨bs, hbs⟩ := hhex a ha
    exact ⟨h, a, ha, bs, hbs, hbs⟩
  have hweight := voteWeight_allowlist (m := m) h hne hlong
  by_cases hactive : ∃ a ∈ cfg.addresses, 0 < m.weightOf a
  · -- the list is in force
    simp only [if_pos hactive] at hweight
    obtain ⟨a, ha, hpos⟩ := hactive
    constructor
    · intro hr
      left
      intro rep hrep hw
      have := hr.listed ⟨a, hself a ha, hpos⟩ rep hrep
      rw [hweight] at this
      by_contra hout
      rw [if_neg hout] at this
      omega
    · rintro (hs | ⟨hzero, -⟩)
      · refine ⟨fun _ rep hrep => ?_, fun _ rep hrep => ?_, fun hnone => ?_⟩
        · rw [hweight]
          split_ifs with hin
          · rfl
          · have : ¬0 < m.weightOf rep := fun hw => hin (hs rep hrep hw)
            omega
        · rw [hweight, if_neg fun hin => hrep (hself rep hin)]
        · exact absurd ⟨a, hself a ha, hpos⟩ hnone
      · have := hzero a ha
        omega
  · -- the list is ignored
    simp only [if_neg hactive] at hweight
    constructor
    · intro hr
      by_cases hsome : ∃ rep, Allowlisted cfg rep ∧ 0 < m.weightOf rep
      · right
        refine ⟨fun rep hrep => ?_, fun rep hw => ?_⟩
        · have : ¬0 < m.weightOf rep := fun hw => hactive ⟨rep, hrep, hw⟩
          omega
        · by_contra hout
          have := hr.others hsome rep hout
          rw [hweight] at this
          omega
      · left
        intro rep hrep hw
        exact absurd ⟨rep, hrep, hw⟩ hsome
    · intro hs
      refine ⟨fun _ rep _ => hweight rep, ?_, fun _ => hweight⟩
      rintro ⟨rep, hrep, hw⟩ rep' hrep'
      rcases hs with hs | ⟨-, hall⟩
      · exact absurd ⟨rep, hs rep hrep hw, hw⟩ hactive
      · rw [hweight]
        by_contra hne0
        exact hrep' (hall rep' (Nat.pos_of_ne_zero hne0))

end Restrictions

/-! ## Accepted values -/

theorem validateHexKeys_ok {what : String} {seen ks : List Str} {i : ℕ}
    (h : validateHexKeys what seen i ks = .ok ()) :
    ∀ k ∈ ks, k.length = 64 ∧ ∃ bs, hexDecode k = .ok bs := by
  induction ks generalizing seen i with
  | nil => simp
  | cons k ks ih =>
    unfold validateHexKeys at h
    cases hbs : hexDecode k with
    | error e =>
      simp only [hbs] at h
      split_ifs at h
    | ok bs =>
      simp only [hbs] at h
      split_ifs at h with hlen
      intro k' hk'
      rcases List.mem_cons.mp hk' with rfl | hk'
      · exact ⟨not_not.mp hlen, bs, hbs⟩
      · exact ih h k' hk'

theorem validateRepresentatives_ok {lib : Lib} {json : Json} {value : Str}
    (h : validateRepresentatives lib json value = .ok ()) :
    ∃ rc, json.representatives value = .ok rc ∧
      (rc.mode = repModeOpen ∨ rc.mode = repModeAllowlist ∧ rc.addresses ≠ [] ∧
        ∀ a ∈ rc.addresses, a.length = 64 ∧ ∃ bs, hexDecode a = .ok bs) := by
  unfold validateRepresentatives at h
  split at h
  · cases h
  · next rc hrc =>
    refine ⟨rc, hrc, ?_⟩
    split_ifs at h with hopen hallow
    · exact .inl hopen
    · obtain ⟨_, hne, h⟩ := bind_eq_ok.mp h
      obtain ⟨_, -, h⟩ := bind_eq_ok.mp h
      exact .inr ⟨hallow, guardErr_eq_ok.mp hne, validateHexKeys_ok h⟩

/-- **Election tables**: for every value of `sys.representatives` that the state chain accepts and
every table of weights, the single weights, their total and the snapshot agree; and exactly the
listed addresses count if and only if they are spelled as in the table (or the list is ignored and
nobody else has weight). -/
theorem election_tables_iff {lib : Lib} {json : Json} {value : Str}
    (h : validateRepresentatives lib json value = .ok ()) (m : Memory)
    (hm : m.weights.sum (fun _ w => w) < 2 ^ 64) :
    ∃ cfg, repConfigFn json (some value) = some cfg ∧
      (∀ reps : Finset Str, m.weights.keys ⊆ reps →
        ∑ rep ∈ reps, m.voteWeight (some cfg) rep = m.totalDelegatedWeight (some cfg)) ∧
      (m.snapshotWeights (some cfg)).sum (fun _ w => w.toNat) =
        m.totalDelegatedWeight (some cfg) ∧
      (m.Restricted cfg ↔ m.Spelled cfg) := by
  obtain ⟨rc, hrc, hmode⟩ := validateRepresentatives_ok h
  refine ⟨{ allowlistMode := rc.mode == repModeAllowlist, addresses := rc.addresses }, ?_,
    fun reps hreps => sum_voteWeight _ _ hreps,
    sum_snapshotWeights (totalDelegatedWeight_le.trans_lt hm), ?_⟩
  · rw [repConfigFn, Option.bind_some, hrc]
    rfl
  · rcases hmode with hopen | ⟨hallow, hne, haddr⟩
    · have hmode : (rc.mode == repModeAllowlist) = false := by
        rw [hopen]
        decide
      obtain ⟨hr, hs⟩ := @restricted_open m
        { allowlistMode := rc.mode == repModeAllowlist, addresses := rc.addresses } hmode
      exact iff_of_true hr hs
    · refine restricted_iff (by simp [hallow]) hne (fun a ha hnil => ?_)
        fun a ha => (haddr a ha).2
      have hlen := (haddr a ha).1
      rw [hnil] at hlen
      cases hlen

/-! ## Two spellings of a list -/

namespace SampleElection

/-- The address of a representative. -/
def rep (n : UInt8) : Str :=
  hexEncode (List.replicate 32 n)

/-- The address of bytes `AB`, in upper case. -/
def upperRep : Str :=
  (List.replicate 32 [65, 66]).flatten

/-- Two representatives with weight. -/
def memory : Memory :=
  { Memory.new with weights := (Table.empty.set (rep 0xAB) 5).set (rep 0xCD) 3 }

/-- The text of a list of one address. -/
def listText (address : Str) : Str :=
  jsonObject [jsonField "mode" (quoteJSON repModeAllowlist),
    jsonField "addresses" (jsonArray [quoteJSON address])]

/-- A decoder that reads this text. -/
def json (address : Str) : Json :=
  { StateChain.SampleNet.json with
    representatives := StateChain.readAs
      [(listText address, { mode := repModeAllowlist, addresses := [address] })] }

theorem json_listText (address : Str) : (json address).representatives (listText address) =
    .ok { mode := repModeAllowlist, addresses := [address] } := by
  simp [json, StateChain.readAs]

theorem repConfigFn_listText (address : Str) :
    repConfigFn (json address) (some (listText address)) =
      some { allowlistMode := true, addresses := [address] } := by
  rw [repConfigFn, Option.bind_some, json_listText]
  rfl

theorem accepted {address : Str} (hlen : address.length = 64) {bs : Str}
    (hdec : hexDecode address = .ok bs) :
    validateRepresentatives Sample.lib (json address) (listText address) = .ok () := by
  have hkeys : validateHexKeys "representatives address" [] 0 [address] = .ok () := by
    unfold validateHexKeys
    rw [if_neg (not_not.mpr hlen), hdec]
    rfl
  unfold validateRepresentatives
  rw [json_listText]
  show (do
    guardErr ([address] = []) _
    guardErr ([address].length > StateChain.maxEligibleRepresentatives) _
    validateHexKeys "representatives address" [] 0 [address]) = _
  rw [hkeys]
  rfl

theorem weights_sum : memory.weights.sum (fun _ w => w) < 2 ^ 64 := by
  have hfirst := Table.sum_set (fun _ w => w) (Table.empty : Table Str ℕ) (rep 0xAB) 5
  have hsecond := Table.sum_set (fun _ w => w) ((Table.empty : Table Str ℕ).set (rep 0xAB) 5)
    (rep 0xCD) 3
  rw [Table.sum_empty] at hfirst
  show (((Table.empty : Table Str ℕ).set (rep 0xAB) 5).set (rep 0xCD) 3).sum (fun _ w => w) < 2 ^ 64
  omega

theorem rep_inj {m n : UInt8} (h : rep m = rep n) : m = n := by
  have hdec := congrArg hexDecode h
  rw [rep, rep, hexDecode_hexEncode, hexDecode_hexEncode] at hdec
  exact (List.cons.inj (Except.ok.inj hdec)).1

theorem weightOf_memory (r : Str) :
    memory.weightOf r = if r = rep 0xCD then 3 else if r = rep 0xAB then 5 else 0 := by
  show (((Table.empty.set (rep 0xAB) 5).set (rep 0xCD) 3).get r).getD 0 = _
  rw [Table.get_set, Table.get_set, Table.get_empty]
  split_ifs <;> rfl

theorem hexDecode_upperRep : hexDecode upperRep = .ok (List.replicate 32 0xAB) := by
  decide +kernel

theorem not_allowlisted {address : Str}
    (hdec : hexDecode address = .ok (List.replicate 32 0xAB)) :
    ¬Allowlisted { allowlistMode := true, addresses := [address] } (rep 0xCD) := by
  rintro ⟨-, a, ha, bs, habs, hbs⟩
  rw [List.mem_singleton.mp ha, hdec] at habs
  rw [rep, hexDecode_hexEncode] at hbs
  exact absurd (List.cons.inj (Except.ok.inj (habs.trans hbs.symm))).1 (by decide)

end SampleElection

open SampleElection in
/-- A list in lower case restricts the election to its address. -/
theorem election_tables_lower : ∃ cfg,
    repConfigFn (json (rep 0xAB))
        (some (listText (rep 0xAB))) = some cfg ∧
      memory.Restricted cfg := by
  have hlen : (rep 0xAB).length = 64 := by
    rw [rep, length_hexEncode, List.length_replicate]
  obtain ⟨cfg, hcfg, -, -, hiff⟩ := election_tables_iff
    (accepted hlen (hexDecode_hexEncode _)) memory
    weights_sum
  refine ⟨cfg, hcfg, hiff.mpr (.inl fun r hr hw => ?_)⟩
  obtain rfl := Option.some.inj (hcfg.symm.trans (repConfigFn_listText _))
  rw [weightOf_memory] at hw
  split_ifs at hw with hcd hab
  · exact absurd (hcd ▸ hr) (not_allowlisted (hexDecode_hexEncode _))
  · exact List.mem_singleton.mpr hab
  · cases hw

open SampleElection in
/-- The same list in upper case is accepted and ignored: the other representative keeps its
weight. -/
theorem election_tables_upper :
    validateRepresentatives Sample.lib (json upperRep)
        (listText upperRep) = .ok () ∧
      memory.weights.sum (fun _ w => w) < 2 ^ 64 ∧
      ∃ cfg, repConfigFn (json upperRep)
          (some (listText upperRep)) = some cfg ∧
        Allowlisted cfg (rep 0xAB) ∧
        0 < memory.weightOf (rep 0xAB) ∧
        ¬Allowlisted cfg (rep 0xCD) ∧
        memory.voteWeight (some cfg) (rep 0xCD) = 3 := by
  have hdec := hexDecode_upperRep
  refine ⟨accepted (by decide) hdec, weights_sum,
    { allowlistMode := true, addresses := [upperRep] },
    repConfigFn_listText _, ?_, ?_, not_allowlisted hdec, ?_⟩
  · exact ⟨rfl, _, List.mem_singleton_self _, _, hdec, hexDecode_hexEncode _⟩
  · have hne : rep 0xAB ≠ rep 0xCD :=
      fun h => absurd (rep_inj h) (by decide)
    rw [weightOf_memory, if_neg hne, if_pos rfl]
    decide
  · -- the upper-case text is no key of the table, so that the list seems to match nothing
    have hupper : memory.weightOf upperRep = 0 := by
      rw [weightOf_memory, if_neg (by decide +kernel), if_neg (by decide +kernel)]
    rw [voteWeight_allowlist rfl (by simp) (by simp [upperRep]),
      if_neg (by simp [hupper]), weightOf_memory, if_pos rfl]

end Xe
