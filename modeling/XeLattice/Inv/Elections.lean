import XeLattice.Prog.Triple
import XeLattice.Inv.Votes

/-!
# The stake of an election

A vote keeps the weight its representative had when it was stored: that of the snapshot which a
conflict record takes, or the current one while the position has no record.  The total it is
compared with is read at the tally.  So stake is counted once as long as the current weights stand
still while a vote without a record is stored.

* **`triple_swapBlockLocked`**, **`preserves_confirmConflict`**: what promotions do to the votes.
-/

set_option autoImplicit false
set_option maxRecDepth 100000

namespace Xe

open Prog

/-! ## The two sides of a tally -/

section Election

variable (cfg : Option RepresentativeConfig) (s : State) (k : Str × Str)

/-- The weight a vote of `rep` is stored with at the position. -/
def State.electionWeight (rep : Str) : UInt64 :=
  ((s.store.conflicts.get k).bind (·.weightSnapshot)).elim
    (clampWeight (s.mem.voteWeight cfg rep)) (fun snap => (snap.get rep).getD 0)

/-- The total weight that a tally of the position compares with. -/
def State.electionTotal : ℕ :=
  (s.store.conflicts.get k).elim (s.mem.totalDelegatedWeight cfg)
    (fun cf => if cf.totalWeight > 0 then cf.totalWeight.toNat else s.mem.totalDelegatedWeight cfg)

end Election

theorem run_electionWeight (c : Ctx) (a p rep : Str) (s : State) :
    (electionWeight c a p rep).run s =
      some (.ok (s.electionWeight c.representatives (a, p) rep), s) := by
  unfold electionWeight State.electionWeight
  rw [run_bind_of_ok (run_getConflict s a p)]
  cases (s.store.conflicts.get (a, p)).bind (·.weightSnapshot) <;> rfl

theorem run_tallyTotal (c : Ctx) (a p : Str) (s : State) :
    (tallyTotal c (s.store.conflicts.get (a, p))).run s =
      some (.ok (s.electionTotal c.representatives (a, p)), s) := by
  unfold State.electionTotal
  cases s.store.conflicts.get (a, p) with
  | none => rfl
  | some cf =>
    dsimp only [tallyTotal, Option.elim]
    split_ifs <;> rfl

/-- **A run of a tally**, up to the votes that count. -/
theorem run_finalTally {c : Ctx} {a p : Str} {s s' : State}
    {r : Except Fault (Option QuorumResult)} (h : (finalTally c a p).run s = some (r, s')) :
    r = .ok none ∧ s' = s ∨ (∃ e, r = .error e) ∧ s' = s ∨
      ∃ votes counted, s.store.votesByConflict a p = .ok votes ∧
        (countedVotes a p votes).run s = some (.ok counted, s) ∧
        (tallyCounted c a p votes counted (s.store.conflicts.get (a, p))
          (s.electionTotal c.representatives (a, p))).run s = some (r, s') := by
  rw [finalTally_eq, run_readStore_bind] at h
  cases hvotes : s.store.votesByConflict a p with
  | error e =>
    rw [hvotes] at h
    cases h
    exact .inl ⟨rfl, rfl⟩
  | ok votes =>
    rw [hvotes] at h
    rcases ((readOnly_countedVotes a p votes).still s).bind_cases h with
      ⟨e, rfl, rfl⟩ | ⟨counted, hcounted, h⟩
    · exact .inr (.inl ⟨⟨e, rfl⟩, rfl⟩)
    · rw [run_getConflict_bind, run_bind_of_ok (run_tallyTotal c a p s)] at h
      exact .inr (.inr ⟨votes, counted, rfl, hcounted, h⟩)

theorem weightOn_cons (v : Vote) (votes : List Vote) (h : Str) : weightOn (v :: votes) h =
    (if v.blockHash = h then v.weight.toNat else 0) + weightOn votes h := by
  unfold weightOn
  rw [List.filter_cons]
  by_cases hv : v.blockHash = h <;> simp [hv]

section Sums

variable (m : Memory) (cfg : Option RepresentativeConfig)

theorem voteWeight_of_notMem {rep : Str} (h : rep ∉ m.weights.keys) : m.voteWeight cfg rep = 0 := by
  unfold Memory.voteWeight Memory.weightOf
  rw [Table.notMem_keys.mp h, Option.getD_none, ite_self]

/-- **The single weights add up to the total**, over any representatives that include those with a
weight. -/
theorem sum_voteWeight {reps : Finset Str} (h : m.weights.keys ⊆ reps) :
    ∑ rep ∈ reps, m.voteWeight cfg rep = m.totalDelegatedWeight cfg := by
  have hkeys : ∑ rep ∈ reps, m.voteWeight cfg rep =
      ∑ rep ∈ m.weights.keys, m.voteWeight cfg rep :=
    (Finset.sum_subset h fun rep _ hrep => voteWeight_of_notMem m cfg hrep).symm
  rw [hkeys]
  unfold Memory.totalDelegatedWeight
  cases hset : m.eligibleAllowlist cfg with
  | none =>
    refine Finset.sum_congr rfl fun rep hrep => ?_
    obtain ⟨w, hw⟩ := Table.mem_keys.mp hrep
    simp only [Memory.voteWeight, hset, Memory.repEligible, if_true, Memory.weightOf, hw,
      Table.weight]
    rfl
  | some set =>
    have hsplit : ∀ rep, m.voteWeight cfg rep = if rep ∈ set then m.weightOf rep else 0 := by
      intro rep
      simp only [Memory.voteWeight, hset, Memory.repEligible, decide_eq_true_eq]
    simp only [hsplit]
    rw [← Finset.sum_filter]
    -- a listed address without an entry weighs nothing
    refine Finset.sum_subset (fun rep hrep => (Finset.mem_filter.mp hrep).2) fun rep hrep hout => ?_
    have hkey : rep ∉ m.weights.keys := fun hk => hout (Finset.mem_filter.mpr ⟨hk, hrep⟩)
    rw [Memory.weightOf, Table.notMem_keys.mp hkey, Option.getD_none]

/-- **Different representatives have at most the total between them.** -/
theorem sum_voteWeight_le {reps : List Str} (h : reps.Nodup) :
    (reps.map (m.voteWeight cfg)).sum ≤ m.totalDelegatedWeight cfg := by
  have hall : m.weights.keys ⊆ m.weights.keys ∪ reps.toFinset := Finset.subset_union_left
  rw [← List.sum_toFinset _ h, ← sum_voteWeight m cfg hall]
  exact Finset.sum_le_sum_of_subset Finset.subset_union_right

variable {m cfg}

theorem voteWeight_lt (h : m.totalDelegatedWeight cfg < 2 ^ 64) (rep : Str) :
    m.voteWeight cfg rep < 2 ^ 64 := by
  have hsum := sum_voteWeight_le m cfg (List.nodup_singleton rep)
  simp only [List.map_cons, List.map_nil, List.sum_singleton] at hsum
  omega

theorem get_snapshotWeights (h : m.totalDelegatedWeight cfg < 2 ^ 64) (rep : Str) :
    ((m.snapshotWeights cfg).get rep).getD 0 = clampWeight (m.voteWeight cfg rep) := by
  have hle := voteWeight_lt h rep
  unfold Memory.snapshotWeights
  rw [Table.get_filterMap]
  unfold Memory.voteWeight at hle ⊢
  unfold Memory.weightOf at hle ⊢
  cases hw : m.weights.get rep with
  | none =>
    simp only [Option.bind_none, Option.getD_none, ite_self]
    rfl
  | some w =>
    rw [hw] at hle
    by_cases hel : Memory.repEligible (m.eligibleAllowlist cfg) rep = true
    · simp only [hel, if_true, Option.getD_some] at hle
      by_cases hpos : 0 < w
      · simp only [Option.bind_some, hpos, hel, and_self, if_true, hle, Option.getD_some,
          clampWeight]
      · obtain rfl : w = 0 := by omega
        simp [clampWeight]
    · simp [hel, clampWeight]

/-- **The snapshot of an election adds up to the total.** -/
theorem sum_snapshotWeights (h : m.totalDelegatedWeight cfg < 2 ^ 64) :
    (m.snapshotWeights cfg).sum (fun _ w => w.toNat) = m.totalDelegatedWeight cfg := by
  have hsub : (m.snapshotWeights cfg).keys ⊆ m.weights.keys := by
    intro rep hrep
    obtain ⟨w, hw⟩ := Table.mem_keys.mp hrep
    rw [Memory.snapshotWeights, Table.get_filterMap] at hw
    obtain ⟨w', hw', -⟩ := Option.bind_eq_some_iff.mp hw
    exact Table.mem_keys.mpr ⟨w', hw'⟩
  rw [Table.sum_eq_of_subset _ _ hsub, ← sum_voteWeight m cfg (Finset.Subset.refl m.weights.keys)]
  refine Finset.sum_congr rfl fun rep _ => ?_
  have hone := voteWeight_lt h rep
  have hget := congrArg UInt64.toNat (get_snapshotWeights h rep)
  rw [clampWeight, if_pos hone, UInt64.toNat_ofNat_of_lt' hone] at hget
  rw [← hget, Table.weight]
  cases (m.snapshotWeights cfg).get rep <;> rfl

end Sums

/-! ## Positions -/

/-- The position a vote is for, as it is spelled. -/
def Vote.position (v : Vote) : Str × Str :=
  (v.conflictAccount, v.conflictPrev)

/-- The spelling of a position under which badger keeps its record: without upper-case letters, and
with `"0"` for no previous block. -/
def Settled (kind : StoreKind) (k : Str × Str) : Prop :=
  kind = .badger → Lower k.1 ∧ Lower k.2 ∧ k.2 ≠ hexEncode zero32

section Positions

variable {kind : StoreKind}

theorem isAt_position {v : Vote} (hkey : (v.key kind).isSome = true) :
    ∃ position, voteConflictKey kind v.position.1 v.position.2 = .ok position ∧
      v.isAt kind position = true := by
  obtain ⟨⟨a, p, rep⟩, hk⟩ := Option.isSome_iff_exists.mp hkey
  refine ⟨(a, p), ?_, ?_⟩
  · unfold Vote.key at hk
    cases hvkey : voteKey kind v.conflictAccount v.conflictPrev v.repPubKey with
    | error e =>
      rw [hvkey] at hk
      cases hk
    | ok key =>
      rw [hvkey] at hk
      cases hk
      cases kind with
      | mem =>
        cases hvkey
        rfl
      | badger =>
        obtain ⟨a₁, ha₁, hvkey⟩ := bind_eq_ok.mp hvkey
        obtain ⟨p₁, hp₁, hvkey⟩ := bind_eq_ok.mp hvkey
        obtain ⟨r₁, hr₁, hvkey⟩ := bind_eq_ok.mp hvkey
        cases hvkey
        have hprev : decodePrev "voteConflictPrefix" "conflictPrev" v.conflictPrev = .ok p := by
          unfold decodePrev at hp₁ ⊢
          split_ifs at hp₁ ⊢
          · exact hp₁
          · exact decodeField_eq_ok.mpr (decodeField_eq_ok.mp hp₁)
        exact bind_eq_ok.mpr ⟨a, decodeField_eq_ok.mpr (decodeField_eq_ok.mp ha₁),
          bind_eq_ok.mpr ⟨p, hprev, rfl⟩⟩
  · unfold Vote.isAt
    rw [hk]
    exact decide_eq_true rfl

end Positions

/-! ## The invariant -/

/-- The position has a record with a snapshot of the weights. -/
def Store.HasRecord (st : Store) (k : Str × Str) : Prop :=
  ∃ cf snap, st.conflicts.get k = some cf ∧ cf.weightSnapshot = some snap

/-- Every vote stored at a position outside `off` has the weight its representative has in the
election now, and every record a snapshot with its total. -/
structure Weighed (lib : Lib) (kind : StoreKind) (cfg : Option RepresentativeConfig)
    (off : Set (Str × Str)) (s : State) : Prop where
  sort : s.store.kind = kind
  weight : ∀ v ∈ s.store.votes, v.position ∉ off →
    v.weight = s.electionWeight cfg v.position (v.repAccount lib)
  settled : ∀ v ∈ s.store.votes, Settled kind v.position
  listed : ∀ v ∈ s.store.votes, (v.key kind).isSome = true
  buffered : ∀ k vs, s.vm.pendingVotes.get k = some vs → ∀ v ∈ vs,
    v.position = k ∧ Settled kind v.position
  record : ∀ k cf, s.store.conflicts.get k = some cf →
    (cf.accountAddress, cf.previousHash) = k ∧ ∃ snap, cf.weightSnapshot = some snap ∧
      cf.totalWeight.toNat = snap.sum (fun _ w => w.toNat)

section Weighed

variable {lib : Lib} {kind : StoreKind} {cfg : Option RepresentativeConfig}
  {off : Set (Str × Str)} {s s' : State}

theorem electionWeight_congr (hc : s'.store.conflicts = s.store.conflicts)
    (hw : s'.mem.weights = s.mem.weights) (k : Str × Str) (rep : Str) :
    s'.electionWeight cfg k rep = s.electionWeight cfg k rep := by
  unfold State.electionWeight Memory.voteWeight Memory.eligibleAllowlist Memory.weightOf
  rw [hc, hw]

theorem electionTotal_congr (hc : s'.store.conflicts = s.store.conflicts)
    (hw : s'.mem.weights = s.mem.weights) (k : Str × Str) :
    s'.electionTotal cfg k = s.electionTotal cfg k := by
  unfold State.electionTotal Memory.totalDelegatedWeight Memory.eligibleAllowlist Memory.weightOf
  rw [hc, hw]

theorem electionWeight_of_record {k : Str × Str} (hk : s.store.HasRecord k)
    (hc : s'.store.conflicts.get k = s.store.conflicts.get k) (cfg' : Option RepresentativeConfig)
    (rep : Str) : s'.electionWeight cfg' k rep = s.electionWeight cfg k rep := by
  obtain ⟨cf, snap, hcf, hsnap⟩ := hk
  unfold State.electionWeight
  rw [hc, hcf, Option.bind_some, hsnap]
  rfl

theorem Weighed.mono (h : Weighed lib kind cfg off s) {off' : Set (Str × Str)} (ho : off ⊆ off') :
    Weighed lib kind cfg off' s :=
  ⟨h.sort, fun v hv hn => h.weight v hv fun hmem => hn (ho hmem), h.settled, h.listed, h.buffered,
    h.record⟩

theorem Weighed.congr (h : Weighed lib kind cfg off s) (hk : s'.store.kind = s.store.kind)
    (hv : s'.store.votes = s.store.votes) (hp : s'.vm.pendingVotes = s.vm.pendingVotes)
    (hc : s'.store.conflicts = s.store.conflicts) (hw : s'.mem.weights = s.mem.weights) :
    Weighed lib kind cfg off s' where
  sort := hk.trans h.sort
  weight v hmem hoff := by
    rw [electionWeight_congr hc hw]
    exact h.weight v (hv ▸ hmem) hoff
  settled := hv ▸ h.settled
  listed := hv ▸ h.listed
  buffered := hp ▸ h.buffered
  record := hc ▸ h.record

theorem Weighed.reweigh (h : Weighed lib kind cfg off s) (hs : SameNotes s s')
    (cfg' : Option RepresentativeConfig) {off' : Set (Str × Str)} (ho : off ⊆ off')
    (hrec : ∀ v ∈ s.store.votes, v.position ∉ off' → s.store.HasRecord v.position) :
    Weighed lib kind cfg' off' s' where
  sort := (congrArg Notes.kind hs.notes).trans h.sort
  weight v hmem hoff := by
    have hv : s'.store.votes = s.store.votes := congrArg Notes.votes hs.notes
    have hc : s'.store.conflicts = s.store.conflicts := congrArg Notes.conflicts hs.notes
    rw [hv] at hmem
    rw [electionWeight_of_record (hrec v hmem hoff) (congrArg (Table.get · v.position) hc)]
    exact h.weight v hmem fun hmem' => hoff (ho hmem')
  settled := by
    rw [show s'.store.votes = s.store.votes from congrArg Notes.votes hs.notes]
    exact h.settled
  listed := by
    rw [show s'.store.votes = s.store.votes from congrArg Notes.votes hs.notes]
    exact h.listed
  buffered := by
    rw [hs.vm]
    exact h.buffered
  record := by
    rw [show s'.store.conflicts = s.store.conflicts from congrArg Notes.conflicts hs.notes]
    exact h.record

theorem Weighed.put (h : Weighed lib kind cfg off s) {v : Vote} {st : Store}
    (hv : v.weight = s.electionWeight cfg v.position (v.repAccount lib))
    (hset : Settled kind v.position) (hst : s.store.putVote v = .ok st) :
    Weighed lib kind cfg off { s with store := st } := by
  obtain ⟨key, hkey, hst⟩ := bind_eq_ok.mp hst
  cases hst
  have hvkey : (v.key kind).isSome = true := by
    rw [Vote.key, ← h.sort, hkey]
    rfl
  have hall : ∀ {P : Vote → Prop}, (∀ w ∈ s.store.votes, P w) → P v →
      ∀ w ∈ s.store.votes.filter (fun w => w.key s.store.kind ≠ some key) ++ [v], P w := by
    intro P hold hnew w hw
    rcases List.mem_append.mp hw with hw | hw
    · exact hold w (List.mem_filter.mp hw).1
    · rw [List.mem_singleton.mp hw]
      exact hnew
  exact ⟨h.sort, hall h.weight fun _ => hv, hall h.settled hset, hall h.listed hvkey, h.buffered,
    h.record⟩

theorem Weighed.dropVotes (k : Str × Str) (h : Weighed lib kind cfg off s) :
    Weighed lib kind cfg (off \ {k})
      { s with store := s.store.deleteVotesForConflict k.1 k.2 } ∧
    ∀ v ∈ (s.store.deleteVotesForConflict k.1 k.2).votes, v.position ≠ k := by
  have hsub : ∀ v ∈ (s.store.deleteVotesForConflict k.1 k.2).votes,
      v ∈ s.store.votes ∧ v.position ≠ k := by
    intro v hv
    unfold Store.deleteVotesForConflict at hv
    rw [h.sort] at hv
    split at hv
    · next e he =>
      refine ⟨hv, ?_⟩
      rintro rfl
      obtain ⟨position, hpos, -⟩ := isAt_position (h.listed v hv)
      rw [he] at hpos
      cases hpos
    · next position hpos =>
      obtain ⟨hmem, hnot⟩ := List.mem_filter.mp hv
      refine ⟨hmem, ?_⟩
      rintro rfl
      obtain ⟨position', hpos', hat⟩ := isAt_position (h.listed v hmem)
      rw [hpos] at hpos'
      cases hpos'
      rw [hat] at hnot
      cases hnot
  have hsame : (s.store.deleteVotesForConflict k.1 k.2).kind = s.store.kind ∧
      (s.store.deleteVotesForConflict k.1 k.2).conflicts = s.store.conflicts := by
    unfold Store.deleteVotesForConflict
    split <;> exact ⟨rfl, rfl⟩
  refine ⟨⟨hsame.1.trans h.sort, fun v hv hoff => ?_, fun v hv => h.settled v (hsub v hv).1,
    fun v hv => h.listed v (hsub v hv).1, h.buffered, ?_⟩, fun v hv => (hsub v hv).2⟩
  · refine (h.weight v (hsub v hv).1 fun hmem => hoff ⟨hmem, (hsub v hv).2⟩).trans ?_
    symm
    refine electionWeight_congr ?_ ?_ _ _
    · exact hsame.2
    · rfl
  · intro x cf hcf
    exact h.record x cf (hsame.2 ▸ hcf)

theorem Weighed.dropConflict {k : Str × Str} (h : Weighed lib kind cfg off s)
    (hk : ∀ v ∈ s.store.votes, v.position ≠ k) :
    Weighed lib kind cfg off { s with store := s.store.deleteConflict k.1 k.2 } := by
  refine ⟨h.sort, fun v hv hoff => ?_, h.settled, h.listed, h.buffered, fun x cf hcf => ?_⟩
  · refine (h.weight v hv hoff).trans ?_
    have hget : (s.store.conflicts.del k).get v.position = s.store.conflicts.get v.position :=
      Table.get_del_of_ne _ (hk v hv)
    unfold State.electionWeight
    change _ = ((((s.store.conflicts.del k).get v.position)).bind _).elim _ _
    rw [hget]
  · change (s.store.conflicts.del k).get x = some cf at hcf
    rw [Table.get_del] at hcf
    split_ifs at hcf
    exact h.record x cf hcf

end Weighed

/-! ## What a call at a position may find -/

/-- No cancel of a lease is stored or staged. -/
def NoCancel (s : State) : Prop :=
  ∀ h b, s.store.blocks.get h = some b ∨ s.store.staged.get h = some b → b.type ≠ .leaseCancel

/-- What a call at a position must find, so that no promotion moves weights under the votes of
another: nothing is staged, and then chains and blocks stay those of `idle`; or the other votes are
recorded and no promotion can be left half done. -/
def Undisturbed (idle : Option Store) (k : Str × Str) (s : State) : Prop :=
  match idle with
  | some st => s.store.staged = .empty ∧ s.store.chains = st.chains ∧ s.store.blocks = st.blocks
  | none => NoCancel s ∧ ∀ v ∈ s.store.votes, v.position ≠ k → s.store.HasRecord v.position

/-- The invariant inside a call at a position, which leaves the other records as in `t`. -/
structure Held (lib : Lib) (kind : StoreKind) (cfg : Option RepresentativeConfig) (idle : Option Store)
    (k : Str × Str) (t : Table (Str × Str) Conflict) (off : Set (Str × Str)) (s : State) :
    Prop where
  weighed : Weighed lib kind cfg off s
  still : Undisturbed idle k s
  frame : ∀ k', k' ≠ k → s.store.conflicts.get k' = t.get k'

/-- Votes, conflicts, blocks and weights are the same. -/
structure Calm (s s' : State) : Prop where
  kind : s'.store.kind = s.store.kind
  votes : s'.store.votes = s.store.votes
  buffered : s'.vm.pendingVotes = s.vm.pendingVotes
  conflicts : s'.store.conflicts = s.store.conflicts
  staged : s'.store.staged = s.store.staged
  chains : s'.store.chains = s.store.chains
  blocks : s'.store.blocks = s.store.blocks
  weights : s'.mem.weights = s.mem.weights

theorem Calm.trans {s₁ s₂ s₃ : State} (h : Calm s₁ s₂) (h' : Calm s₂ s₃) : Calm s₁ s₃ :=
  ⟨h'.kind.trans h.kind, h'.votes.trans h.votes, h'.buffered.trans h.buffered,
    h'.conflicts.trans h.conflicts, h'.staged.trans h.staged, h'.chains.trans h.chains,
    h'.blocks.trans h.blocks, h'.weights.trans h.weights⟩

theorem quietWrites_calm : QuietWrites Calm where
  refl _ := ⟨rfl, rfl, rfl, rfl, rfl, rfl, rfl, rfl⟩
  lock _ _ _ := ⟨rfl, rfl, rfl, rfl, rfl, rfl, rfl, rfl⟩
  keyset _ _ _ := ⟨rfl, rfl, rfl, rfl, rfl, rfl, rfl, rfl⟩
  accountKey _ _ _ := ⟨rfl, rfl, rfl, rfl, rfl, rfl, rfl, rfl⟩
  qm _ _ := ⟨rfl, rfl, rfl, rfl, rfl, rfl, rfl, rfl⟩
  blockStatus _ _ := ⟨rfl, rfl, rfl, rfl, rfl, rfl, rfl, rfl⟩
  finalHeight _ _ _ := ⟨rfl, rfl, rfl, rfl, rfl, rfl, rfl, rfl⟩
  finalVotes _ _ := ⟨rfl, rfl, rfl, rfl, rfl, rfl, rfl, rfl⟩
  revoted _ _ := ⟨rfl, rfl, rfl, rfl, rfl, rfl, rfl, rfl⟩
  seen _ _ _ := ⟨rfl, rfl, rfl, rfl, rfl, rfl, rfl, rfl⟩
  signed _ _ := ⟨rfl, rfl, rfl, rfl, rfl, rfl, rfl, rfl⟩

section Held

variable {lib : Lib} {kind : StoreKind} {cfg : Option RepresentativeConfig} {idle : Option Store}
  {k : Str × Str} {t : Table (Str × Str) Conflict} {off : Set (Str × Str)} {s s' : State}
  {α : Type} {p : M α}

theorem Weighed.calm (h : Weighed lib kind cfg off s) (hc : Calm s s') :
    Weighed lib kind cfg off s' :=
  h.congr hc.kind hc.votes hc.buffered hc.conflicts hc.weights

theorem Held.calm (h : Held lib kind cfg idle k t off s) (hc : Calm s s') :
    Held lib kind cfg idle k t off s' := by
  refine ⟨h.weighed.calm hc, ?_, hc.conflicts ▸ h.frame⟩
  have hstill := h.still
  unfold Undisturbed NoCancel Store.HasRecord at hstill ⊢
  rw [hc.staged, hc.chains, hc.blocks, hc.votes, hc.conflicts]
  exact hstill

theorem preserves_of_calm (hp : p.Keeps Calm) :
    Preserves (Held lib kind cfg idle k t off) p :=
  hp.preserves fun _ _ hc h => h.calm hc

theorem preserves_readOnly (hp : p.ReadOnly) : Preserves (Held lib kind cfg idle k t off) p :=
  hp.preserves

theorem triple_withLock {P : State → Prop} {Q : Except Fault α → State → Prop} (tid : ℕ) (l : Lock)
    (hP : ∀ s o, P s → P (s.setLock l o)) (hQ : ∀ r s o, Q r s → Q r (s.setLock l o))
    (hp : Triple P p Q) : Triple P (withLock tid l p) Q := by
  refine triple_await_bind (fun s s₁ hs h => ?_)
    (triple_deferring (hp.mono (fun _ => id) fun r s hr => hQ r s none hr))
  split_ifs at h
  cases h
  exact hP s _ hs

theorem preserves_withLock (tid : ℕ) (l : Lock)
    (hp : Preserves (Held lib kind cfg idle k t off) p) :
    Preserves (Held lib kind cfg idle k t off) (withLock tid l p) :=
  triple_withLock tid l (fun s o h => h.calm (quietWrites_calm.lock s l o))
    (fun _ s o h => h.calm (quietWrites_calm.lock s l o)) hp

end Held

/-! ## Promotions -/

/-- The notes, the chains, the blocks and the weights are the same. -/
structure Idle (s s' : State) : Prop where
  notes : SameNotes s s'
  chains : s'.store.chains = s.store.chains
  blocks : s'.store.blocks = s.store.blocks
  weights : s'.mem.weights = s.mem.weights

/-- At most the block is new, and the notes are the same. -/
structure MayFile (b : Block) (s s' : State) : Prop where
  notes : SameNotes s s'
  blocks : ∀ h x, s'.store.blocks.get h = some x → x = b ∨ s.store.blocks.get h = some x

/-- What the ledger has done for a block, by its outcome. -/
def Tried {α : Type} (b : Block) (s : State) (r : Except Fault α) (s' : State) : Prop :=
  match r with
  | .ok _ => MayFile b s s'
  | .error _ => Idle s s'

section Promotions

variable {b : Block} {s s' s'' : State}

theorem SameNotes.trans (h : SameNotes s s') (h' : SameNotes s' s'') : SameNotes s s'' :=
  ⟨h'.notes.trans h.notes, h'.vm.trans h.vm⟩

theorem Idle.refl (s : State) : Idle s s := ⟨⟨rfl, rfl⟩, rfl, rfl, rfl⟩

theorem Idle.trans (h : Idle s s') (h' : Idle s' s'') : Idle s s'' :=
  ⟨h.notes.trans h'.notes, h'.chains.trans h.chains, h'.blocks.trans h.blocks,
    h'.weights.trans h.weights⟩

theorem Idle.calm (h : Idle s s') : Calm s s' :=
  ⟨congrArg Notes.kind h.notes.notes, congrArg Notes.votes h.notes.notes,
    congrArg VoteMem.pendingVotes h.notes.vm, congrArg Notes.conflicts h.notes.notes,
    congrArg Notes.staged h.notes.notes, h.chains, h.blocks, h.weights⟩

theorem cacheWrites_idle : CacheWrites Idle where
  refl := .refl
  lock _ _ _ := ⟨⟨rfl, rfl⟩, rfl, rfl, rfl⟩
  keyset _ _ _ := ⟨⟨rfl, rfl⟩, rfl, rfl, rfl⟩
  accountKey _ _ _ := ⟨⟨rfl, rfl⟩, rfl, rfl, rfl⟩

theorem Tried.idle {α : Type} {s₁ s₂ : State} {r : Except Fault α} (h₁ : Idle s s₁)
    (h : Tried b s₁ r s₂) (h₂ : Idle s₂ s') : Tried b s r s' := by
  cases r with
  | ok a =>
    refine ⟨(h₁.notes.trans h.notes).trans h₂.notes, fun x y hy => ?_⟩
    rw [h₂.blocks] at hy
    exact h₁.blocks ▸ h.blocks x y hy
  | error e => exact (h₁.trans h).trans h₂

theorem finishWrite_blocks {p : Prepared}
    (hx : p.commit.deletePendingID = [] ∨ p.commit.topUpPendingID = [])
    (h : (finishWrite p).run s = some (.ok (), s')) :
    s'.store.blocks = s.store.blocks.set p.commit.block.hash p.commit.block := by
  have hreq : (p.request s).deletePendingID = [] ∨ (p.request s).topUpPendingID = [] :=
    withDelegation_exclusive _ hx
  have hwritten : ∀ x : State, (p.written x).store.blocks = x.store.blocks :=
    fun x => congrArg Book.blocks (written_book p x)
  have hset : ∀ st : Store, (st.afterCommit (p.request s)).blocks =
      st.blocks.set p.commit.block.hash p.commit.block := by
    intro st
    change st.blocks.set (p.request s).block.hash (p.request s).block = _
    rw [show (p.request s).block = p.commit.block from withDelegation_block _ _]
  by_cases hw : ∃ cb, s.mem.activeCascade = some cb ∧ cb.winnerHash = p.commit.block.hash
  · obtain ⟨cb, hcb, hw⟩ := hw
    rw [run_finishWrite_cascade hcb p hw] at h
    rcases hc : Store.commitCascade cb.undos (p.request s) s.store with ⟨f | _, st⟩
    · rw [hc] at h
      cases h
    · rw [hc] at h
      cases h
      have hundo : ∀ (us : List BlockUndo) (st : Store),
          (us.foldl (fun st u => st.afterUndo u) st).blocks = st.blocks := by
        intro us
        induction us with
        | nil => exact fun _ => rfl
        | cons u us ih =>
          intro st
          rw [List.foldl_cons, ih]
          exact congrArg Book.blocks (afterUndo_store u st s.mem)
      have hmem : ∀ (us : List MemUndo) (x : State),
          (us.foldl (fun s u => u.applied s) x).store.blocks = x.store.blocks := by
        intro us
        induction us with
        | nil => exact fun _ => rfl
        | cons u us ih =>
          intro x
          rw [List.foldl_cons, ih]
          exact congrArg Book.blocks (applied_book u x)
      rw [hwritten]
      change (cb.memApplies.foldl (fun s (u : MemUndo) => u.applied s)
        { s with store := st }).store.blocks = _
      rw [hmem, (commitCascade_ok hreq hc).2, hset, hundo]
  · rw [run_finishWrite_alone fun cb hcb hw' => hw ⟨cb, hcb, hw'⟩] at h
    cases hc : s.store.applyCommit (p.request s) with
    | error f =>
      rw [hc] at h
      cases h
    | ok st =>
      rw [hc] at h
      cases h
      rw [hwritten, (Store.applyCommit_ok hreq hc).2]
      exact hset s.store

/-- **The handler of a block that is no cancel** leaves no trace when it fails. -/
theorem triple_dispatch (c : Ctx) (s₀ : State) (skip : Bool) (ht : b.type ≠ .leaseCancel) :
    Triple (Idle s₀) (dispatchValidateAndAdd c b skip) (Tried b s₀) := by
  intro s r s' hs hrun
  have hnotes : SameNotes s s' :=
    run_keeps ledgerWrites_sameNotes.refl (fun _ _ _ => SameNotes.trans)
      (ledgerWrites_sameNotes.keeps_dispatch c b skip) hrun
  refine Tried.idle hs ?_ (.refl s')
  unfold dispatchValidateAndAdd at hrun
  have hcred : ∀ {r : Except Fault Unit} {s₁ : State},
      (verifyBlockCredential c.lib b).run s = some (r, s₁) → Idle s s₁ := fun h =>
    run_keeps cacheWrites_idle.refl (fun _ _ _ => Idle.trans)
      (cacheWrites_idle.keeps_verifyBlockCredential c.lib b) h
  rcases run_bind_eq_some.mp hrun with ⟨e, he, rfl⟩ | ⟨_, s₁, hok, hrest⟩
  · exact hcred he
  · have h₁ := hcred hok
    rw [validateAndAdd_eq] at hrest
    rcases ((readOnly_prepare c b skip ht).still s₁).bind_cases hrest with
      ⟨e, rfl, rfl⟩ | ⟨p, hp, hwrite⟩
    · exact h₁
    · obtain ⟨-, -, hch⟩ := prepare_ok ht hp
      cases r with
      | error e =>
        obtain rfl := finishWrite_error hwrite
        exact h₁
      | ok u =>
        refine ⟨hnotes, fun h x hx => ?_⟩
        rw [finishWrite_blocks hch.plain.exclusive hwrite, hch.base.1, h₁.blocks,
          Table.get_set] at hx
        split_ifs at hx
        · exact .inl (Option.some.inj hx).symm
        · exact .inr hx

theorem keeps_activateCascade (cascade : CascadeBuild) : (activateCascade cascade).Keeps Idle := by
  refine keeps_txn .refl fun s a s' h => ?_
  split at h
  · cases h
  · cases h
    exact ⟨⟨rfl, rfl⟩, rfl, rfl, rfl⟩

theorem triple_promote (c : Ctx) (s₀ : State) (cascade : CascadeBuild) (newHash : Str)
    (ht : b.type ≠ .leaseCancel) :
    Triple (Idle s₀) (promote c cascade newHash b) (Tried b s₀) := by
  have hactivate : Triple (Idle s₀) (wrapErr (str "SwapBlock: ") (activateCascade cascade))
      (fun _ => Idle s₀) :=
    Keeps.preserves (each_wrapErr _ (keeps_activateCascade cascade)) fun _ _ hs h => h.trans hs
  have hoff : ∀ x : State, Idle x { x with mem := { x.mem with activeCascade := none } } :=
    fun x => ⟨⟨rfl, rfl⟩, rfl, rfl, rfl⟩
  refine triple_bind hactivate (fun _ _ h => h) fun _ =>
    triple_handle (triple_dispatch c s₀ true ht) fun r => ?_
  intro s r' s' hs hrun
  cases r with
  | ok u =>
    cases hrun
    exact Tried.idle (.refl s₀) hs (hoff s)
  | error e =>
    cases e with
    | panic =>
      cases hrun
      exact hs
    | err e =>
      cases hrun
      exact Idle.trans hs (hoff s)

theorem triple_withLocks {α : Type} {p : M α} (s₀ : State) (tid : ℕ) (ls : List Lock)
    (hp : Triple (Idle s₀) p (Tried b s₀)) :
    Triple (Idle s₀) (withLocks tid ls p) (Tried b s₀) := by
  induction ls with
  | nil => exact hp
  | cons l ls ih =>
    exact triple_withLock tid l (fun s o h => h.trans (cacheWrites_idle.lock s l o))
      (fun r s o h => Tried.idle (.refl s₀) h (cacheWrites_idle.lock s l o)) ih

/-- **A swap** leaves no trace when it fails, unless its winner is a cancel. -/
theorem triple_swapBlockLocked (c : Ctx) (s₀ : State) (account oldHash newHash : Str)
    (ht : b.type ≠ .leaseCancel) :
    Triple (Idle s₀) (swapBlockLocked c account oldHash newHash b) (Tried b s₀) := by
  -- everything before the promotion only reads
  have hread : ∀ {α : Type} {p : M α} {k : α → M Unit}, p.Inert →
      (∀ a, Triple (Idle s₀) (k a) (Tried b s₀)) → Triple (Idle s₀) (p >>= k) (Tried b s₀) :=
    fun hp hk => triple_bind hp.preserves (fun _ _ h => h) hk
  exact hread (readOnly_readStore _).inert fun _ => hread (each_orFail _ _) fun _ =>
    hread (each_orFail _ _) fun _ => hread (each_orFail _ _) fun _ =>
      hread (readOnly_readStore _).inert fun _ => hread (each_failIf _ _) fun _ =>
        hread (inert_planSwap c _ _ _) fun _ => triple_withLocks s₀ _ _
          (hread (readOnly_buildCascade _ _ _).inert fun cascade =>
            triple_promote c s₀ cascade newHash ht)

end Promotions

/-! ## Confirmations -/

section Confirm

variable {lib : Lib} {kind : StoreKind} {cfg : Option RepresentativeConfig} {idle : Option Store}
  {k : Str × Str} {t : Table (Str × Str) Conflict} {off : Set (Str × Str)} {s s' : State}
  {b : Block} (c : Ctx)

theorem Held.mono (h : Held lib kind cfg idle k t ∅ s) : Held lib kind cfg idle k t off s :=
  ⟨h.weighed.mono (Set.empty_subset off), h.still, h.frame⟩

/-- Once a block is promoted, the votes of the position need not have their weights any more. -/
theorem Held.filed (h : Held lib kind cfg none k t ∅ s) (hb : b.type ≠ .leaseCancel)
    (hs : MayFile b s s') : Held lib kind cfg none k t {k} s' := by
  obtain ⟨hnc, hrec⟩ := h.still
  have hvotes : s'.store.votes = s.store.votes := congrArg Notes.votes hs.notes.notes
  have hcf : s'.store.conflicts = s.store.conflicts := congrArg Notes.conflicts hs.notes.notes
  have hstaged : s'.store.staged = s.store.staged := congrArg Notes.staged hs.notes.notes
  refine ⟨h.weighed.reweigh hs.notes cfg (Set.empty_subset _) hrec, ⟨?_, ?_⟩, hcf ▸ h.frame⟩
  · rintro x y (hy | hy)
    · rcases hs.blocks x y hy with rfl | hy
      · exact hb
      · exact hnc x y (.inl hy)
    · exact hnc x y (.inr (hstaged ▸ hy))
  · unfold Store.HasRecord
    rw [hvotes, hcf]
    exact hrec

theorem Held.unstage (h : Held lib kind cfg idle k t off s) (x : Str) :
    Held lib kind cfg idle k t off { s with store := s.store.deleteStagedBlock x } := by
  refine ⟨h.weighed.congr rfl rfl rfl rfl rfl, ?_, h.frame⟩
  have hstill := h.still
  cases idle with
  | some st =>
    refine ⟨?_, hstill.2⟩
    change s.store.staged.del x = .empty
    rw [hstill.1]
    exact Table.del_of_get_none (Table.get_empty x)
  | none =>
    refine ⟨fun y z hz => ?_, hstill.2⟩
    rcases hz with hz | hz
    · exact hstill.1 y z (.inl hz)
    · change (s.store.staged.del x).get y = some z at hz
      rw [Table.get_del] at hz
      split_ifs at hz
      exact hstill.1 y z (.inr hz)

theorem Held.drop (h : Held lib kind cfg idle k t {k} s) : Held lib kind cfg idle k t ∅
    { s with store := (s.store.deleteVotesForConflict k.1 k.2).deleteConflict k.1 k.2 } := by
  obtain ⟨hw, hne⟩ := h.weighed.dropVotes k
  rw [Set.sdiff_self] at hw
  have hsub : ∀ v ∈ (s.store.deleteVotesForConflict k.1 k.2).votes, v ∈ s.store.votes := by
    intro v hv
    unfold Store.deleteVotesForConflict at hv
    split at hv
    · exact hv
    · exact (List.mem_filter.mp hv).1
  have hsame : (s.store.deleteVotesForConflict k.1 k.2).blocks = s.store.blocks ∧
      (s.store.deleteVotesForConflict k.1 k.2).staged = s.store.staged ∧
      (s.store.deleteVotesForConflict k.1 k.2).conflicts = s.store.conflicts ∧
      (s.store.deleteVotesForConflict k.1 k.2).chains = s.store.chains := by
    unfold Store.deleteVotesForConflict
    split <;> exact ⟨rfl, rfl, rfl, rfl⟩
  have hget : ∀ k', k' ≠ k → ((s.store.deleteVotesForConflict k.1 k.2).deleteConflict
      k.1 k.2).conflicts.get k' = s.store.conflicts.get k' := by
    intro k' hk'
    rw [← hsame.2.2.1]
    exact Table.get_del_of_ne _ hk'
  refine ⟨hw.dropConflict hne, ?_, fun k' hk' => (hget k' hk').trans (h.frame k' hk')⟩
  have hstill := h.still
  cases idle with
  | some st =>
    exact ⟨hsame.2.1.trans hstill.1, hsame.2.2.2.trans hstill.2.1, hsame.1.trans hstill.2.2⟩
  | none =>
    refine ⟨fun x y hy => ?_, fun v hv hvk => ?_⟩
    · exact hstill.1 x y (hy.imp (fun hy => hsame.1 ▸ hy) (fun hy => hsame.2.1 ▸ hy))
    · obtain ⟨cf, snap, hcf, hsnap⟩ := hstill.2 v (hsub v hv) hvk
      exact ⟨cf, snap, (hget _ hvk).trans hcf, hsnap⟩

theorem triple_cleanup {r : QuorumResult} (hr : (r.conflictAccount, r.conflictPrev) = k) :
    Triple (Held lib kind cfg idle k t {k}) (cleanupResolvedConflict r)
      (fun _ => Held lib kind cfg idle k t ∅) := by
  subst hr
  have hunstage : ∀ x s, Held lib kind cfg idle (r.conflictAccount, r.conflictPrev) t
      {(r.conflictAccount, r.conflictPrev)} s → Held lib kind cfg idle
        (r.conflictAccount, r.conflictPrev) t {(r.conflictAccount, r.conflictPrev)}
          { s with store := s.store.deleteStagedBlock x } := fun x s h => h.unstage x
  refine triple_wr_bind (hunstage _) (triple_forEach_wr_bind (fun x s h => ?_)
    (triple_forEach_wr_bind hunstage ?_))
  · exact h.calm (quietWrites_calm.blockStatus s _)
  · intro s x s' hs hrun
    cases hrun
    exact hs.drop

/-- The votes of the position are off their weights once its winner is promoted. -/
def promotedOff (k : Str × Str) : Except Fault Bool → Set (Str × Str)
  | .ok true => {k}
  | _ => ∅

theorem triple_swapLoser (r : QuorumResult) (hb : b.type ≠ .leaseCancel) (losers : List Str) :
    Triple (Held lib kind cfg none k t ∅) (swapLoser c r b losers)
      (fun x => Held lib kind cfg none k t (promotedOff k x)) := by
  induction losers with
  | nil => exact triple_done fun s hs => hs
  | cons loser losers ih =>
    refine triple_bind (preserves_readOnly (readOnly_getBlockHeight _ _)) (fun _ _ h => h)
      fun o => ?_
    cases o with
    | none => exact ih
    | some n =>
      refine triple_rd_bind fun o => ?_
      cases o with
      | none => exact ih.mono (fun _ h => h.1) (fun _ _ h => h)
      | some old =>
        -- the loser is staged, and no cancel since it is a stored block
        have hstage : ∀ s, Held lib kind cfg none k t ∅ s ∧ s.store.blocks.get loser = some old →
            Held lib kind cfg none k t ∅ { s with store := s.store.saveStagedBlock old } := by
          rintro s ⟨hs, hold⟩
          refine ⟨hs.weighed.congr rfl rfl rfl rfl rfl, ⟨fun x y hy => ?_, hs.still.2⟩, hs.frame⟩
          rcases hy with hy | hy
          · exact hs.still.1 x y (.inl hy)
          · change (s.store.staged.set old.hash old).get x = some y at hy
            rw [Table.get_set] at hy
            split_ifs at hy
            · cases hy
              exact hs.still.1 loser _ (.inl hold)
            · exact hs.still.1 x y (.inr hy)
        refine triple_wr_bind hstage fun s x s' hs hrun => ?_
        obtain ⟨x₁, s₁, h₁, h₂⟩ := run_handle_eq_some.mp hrun
        have hswap := triple_swapBlockLocked c s _ _ _ hb s x₁ s₁ (.refl s) h₁
        cases x₁ with
        | ok u =>
          cases h₂
          exact hs.filed hb hswap
        | error e =>
          have hkept := hs.calm (Idle.calm hswap)
          cases e with
          | panic =>
            cases h₂
            exact hkept
          | err e =>
            have hq : (quarantine c r e).Keeps Calm :=
              each_ite (keeps_wr fun s => quietWrites_calm.qm s _) (each_pure _)
            have htail : Triple (Held lib kind cfg none k t ∅)
                (quarantine c r e >>= fun _ => Prog.fail
                  (.err (e.wrap (str "confirmConflict: SwapBlock: "))) : M Bool)
                (fun x => Held lib kind cfg none k t (promotedOff k x)) :=
              triple_bind (preserves_of_calm hq) (fun _ _ h => h) fun _ => triple_done fun _ h => h
            exact htail s₁ x s' hkept h₂

theorem triple_appendStagedWinner (r : QuorumResult) (hb : b.type ≠ .leaseCancel) :
    Triple (Held lib kind cfg none k t ∅) (appendStagedWinner c r b)
      (fun x => Held lib kind cfg none k t (promotedOff k x)) := by
  refine triple_bind (preserves_readOnly (readOnly_readStore _)) (fun _ _ h => h) fun _ =>
    triple_ite (fun _ => triple_done fun s hs => hs) fun _ s x s' hs hrun => ?_
  obtain ⟨x₁, s₁, h₁, h₂⟩ := run_handle_eq_some.mp hrun
  have hadd := triple_dispatch c s true hb s x₁ s₁ (.refl s) h₁
  cases x₁ with
  | ok u =>
    cases h₂
    exact hs.filed hb hadd
  | error e =>
    have hkept := hs.calm (Idle.calm hadd)
    cases e with
    | panic =>
      cases h₂
      exact hkept
    | err e =>
      dsimp only at h₂
      split_ifs at h₂ <;> cases h₂ <;> exact hkept

theorem triple_promoteWinner (r : QuorumResult) :
    Triple (Held lib kind cfg idle k t ∅) (promoteWinner c r)
      (fun x => Held lib kind cfg idle k t (promotedOff k x)) := by
  have hwrap : ∀ (before : Str) {p : M Bool}, Triple (Held lib kind cfg idle k t ∅) p
      (fun x => Held lib kind cfg idle k t (promotedOff k x)) →
      Triple (Held lib kind cfg idle k t ∅) (wrapErr before p)
        (fun x => Held lib kind cfg idle k t (promotedOff k x)) := by
    intro before p hp
    refine triple_handle hp fun x => triple_done fun s hs => ?_
    cases x <;> exact hs
  refine triple_rd_bind fun o => ?_
  cases o with
  | none => exact triple_done fun s hs => hs.1.mono
  | some b =>
    cases idle with
    | some st =>
      refine triple_of_fact (F := False) (fun s hs => ?_) False.elim
      obtain ⟨hs, hstaged⟩ := hs
      change s.store.staged.get r.winnerHash = some b at hstaged
      rw [hs.still.1] at hstaged
      cases hstaged
    | none =>
      refine triple_of_fact (fun s hs => hs.1.still.1 _ b (.inr hs.2)) fun hb => ?_
      refine Triple.mono ?_ (fun _ h => h.1) (fun _ _ h => h)
      refine triple_bind (preserves_readOnly (readOnly_getBlockHeight _ _)) (fun _ _ h => h)
        fun o => ?_
      cases o with
      | some n => exact triple_done fun s hs => hs.mono
      | none =>
        refine triple_bind (preserves_of_calm (quietWrites_calm.keeps_checkWinner c r b))
          (fun _ _ h => h) fun _ => triple_bind (triple_swapLoser c r hb r.loserHashes)
            (fun _ _ h => h) fun swapped => ?_
        cases swapped with
        | true => exact triple_done fun s hs => hs
        | false => exact hwrap _ (triple_appendStagedWinner c r hb)

theorem run_advanceFinalHeight (r : QuorumResult) (s : State) :
    ∃ s', (advanceFinalHeight r).run s = some (.ok (), s') ∧ Calm s s' := by
  unfold advanceFinalHeight
  obtain ⟨o, ho⟩ : ∃ o, (getBlockHeight r.conflictAccount r.winnerHash).run s = some (.ok o, s) :=
    ⟨_, rfl⟩
  rw [run_bind_of_ok ho]
  cases o with
  | none => exact ⟨s, rfl, quietWrites_calm.refl s⟩
  | some n =>
    by_cases h : n > s.store.finalHeightOf r.conflictAccount
    · refine ⟨_, ?_, quietWrites_calm.finalHeight s r.conflictAccount n⟩
      change (if n > s.store.finalHeightOf r.conflictAccount then
        writeStore (Store.setFinalHeight r.conflictAccount n) else pure ()).run s = _
      rw [if_pos h]
      rfl
    · refine ⟨s, ?_, quietWrites_calm.refl s⟩
      change (if n > s.store.finalHeightOf r.conflictAccount then
        writeStore (Store.setFinalHeight r.conflictAccount n) else pure ()).run s = _
      rw [if_neg h]
      rfl

/-- **A confirmation at the position** keeps the invariant: the weights it may have moved were those
of the votes it drops. -/
theorem preserves_confirmConflict {r : QuorumResult}
    (hr : (r.conflictAccount, r.conflictPrev) = k) :
    Preserves (Held lib kind cfg idle k t ∅) (confirmConflict c r) := by
  have hclean : Triple (Held lib kind cfg idle k t {k}) (cleanupResolvedConflict r)
      (fun _ => Held lib kind cfg idle k t ∅) := triple_cleanup hr
  refine preserves_bind (preserves_readOnly (readOnly_isFinalized _ _)) fun final =>
    preserves_withLock _ _ (triple_ite (fun _ => ?_) fun _ => ?_)
  · exact hclean.mono (fun _ h => h.mono) (fun _ _ h => h)
  · refine triple_bind (triple_promoteWinner c r) (fun _ _ h => h) fun goOn => ?_
    cases goOn with
    | false => exact triple_done fun s hs => hs
    | true =>
      intro s x s' hs hrun
      obtain ⟨s₁, hadvance, hcalm⟩ := run_advanceFinalHeight r s
      rw [if_pos rfl, run_bind_of_ok hadvance] at hrun
      refine triple_wr_bind (fun s h => ?_) hclean s₁ x s' (hs.calm hcalm) hrun
      exact h.calm (quietWrites_calm.blockStatus s _)

end Confirm

/-! ## Tallies -/

section Tally

variable {lib : Lib} {kind : StoreKind} {cfg : Option RepresentativeConfig} {idle : Option Store}
  {t : Table (Str × Str) Conflict} (c : Ctx) (a p : Str)

theorem finalTally_position {s s' : State} {r : QuorumResult}
    (h : (finalTally c a p).run s = some (.ok (some r), s')) :
    (r.conflictAccount, r.conflictPrev) = (a, p) := by
  rcases run_finalTally h with ⟨hr, -⟩ | ⟨⟨e, he⟩, -⟩ | ⟨votes, counted, -, -, h⟩
  · cases hr
  · cases he
  · unfold tallyCounted at h
    split_ifs at h
    · cases h
    all_goals
      obtain ⟨_, _, -, h⟩ := run_bind_eq_ok.mp h
      obtain ⟨winner, _, -, h⟩ := run_bind_eq_ok.mp h
      cases winner with
      | none => cases h
      | some w =>
        cases h
        rfl

theorem preserves_tallyAndConfirm :
    Preserves (Held lib kind cfg idle (a, p) t ∅) (tallyAndConfirm c a p) := by
  intro s x s' hs hrun
  rcases run_bind_eq_some.mp hrun with ⟨e, he, rfl⟩ | ⟨o, s₁, ho, hrest⟩
  · exact preserves_of_calm (quietWrites_calm.keeps_finalTally c a p) s _ s' hs he
  · have hs₁ := preserves_of_calm (quietWrites_calm.keeps_finalTally c a p) s _ s₁ hs ho
    cases o with
    | none =>
      cases hrest
      exact hs₁
    | some r =>
      have hconfirm : Preserves (Held lib kind cfg idle (a, p) t ∅)
          (dropError (confirmConflict c r)) := by
        refine triple_handle (preserves_confirmConflict c (finalTally_position c a p ho))
          fun r => ?_
        rcases r with e | _
        · cases e
          · exact preserves_pure _
          · exact preserves_fail _
        · exact preserves_pure _
      exact preserves_bind hconfirm (fun _ => preserves_pure true) s₁ x s' hs₁ hrest

theorem preserves_retally : Preserves (Held lib kind cfg idle (a, p) t ∅) (retally c a p) :=
  preserves_withLock _ _ (preserves_bind (preserves_tallyAndConfirm c a p) fun _ =>
    preserves_pure ())

end Tally

/-! ## Casting votes -/

/-- A vote that the node builds at a position, with the weight of the moment. -/
structure OwnVote (c : Ctx) (kp : KeyPair) (k : Str × Str) (final : Bool) (s : State) (v : Vote) :
    Prop where
  position : v.position = k
  rep : v.repPubKey = kp.pubKeyHex
  final : v.final = final
  timestamp : v.timestamp = c.now
  account : v.repAccount c.lib = c.node.address kp
  weight : v.weight = s.electionWeight c.representatives k (c.node.address kp)

/-- What makes casting a vote lead from `I` to `Q`: without a final vote of its own the node is in
`P`, where it may vote for what it prefers, and a final vote leads to `Q`. -/
structure CastRule (c : Ctx) (a p : Str) (I P Q : State → Prop) : Prop where
  calm : ∀ s s', Calm s s' → I s → I s'
  calmOpen : ∀ s s', Calm s s' → P s → P s'
  closed : ∀ s, I s → Q s
  closedOpen : ∀ s, P s → Q s
  start : ∀ kp s, c.node.keyPair = some kp → I s →
    ((s.store.getVote a p kp.pubKeyHex).toOption.join.filter (·.final)) = none → P s
  prefers : ∀ kp s v st, c.node.keyPair = some kp → P s → OwnVote c kp (a, p) false s v →
    s.store.putVote v = .ok st → P { s with store := st }
  locks : ∀ kp s v st, c.node.keyPair = some kp → P s → OwnVote c kp (a, p) true s v →
    s.store.putVote v = .ok st → Q { s with store := st }
  tally : Preserves P (retally c a p)
  tallyClosed : Preserves Q (retally c a p)

namespace CastRule

variable {c : Ctx} {a p : Str} {I P Q : State → Prop} {α β : Type} {kp : KeyPair}

theorem triple_buildVote (hP : ∀ s s', Calm s s' → P s → P s') (h : Str) (final : Bool) :
    Triple P (buildVote c kp a p h final) (fun x s => P s ∧
      ∀ v, x = .ok (some v) → OwnVote c kp (a, p) final s v) := by
  intro s x s' hs hrun
  have hs' : P s' := (quietWrites_calm.keeps_buildVote c kp a p h final).preserves
    (fun s s' => hP s s') s x s' hs hrun
  refine ⟨hs', ?_⟩
  rintro v rfl
  unfold buildVote at hrun
  rw [run_bind_of_ok (run_electionWeight c a p _ s)] at hrun
  dsimp only at hrun
  split at hrun
  · cases hrun
  · next sb hsb =>
    have hrep : deriveAddress c.lib kp.pubKeyHex = .ok (c.node.address kp) := by
      obtain ⟨rep, hrep, -⟩ := bind_eq_ok.mp hsb
      obtain ⟨hdec, hlen⟩ := decodeField_eq_ok.mp hrep
      change hexDecode (hexEncode kp.pub) = .ok rep at hdec
      rw [hexDecode_hexEncode] at hdec
      cases hdec
      unfold deriveAddress
      rw [show decodePublicKey kp.pubKeyHex = .ok kp.pub from
        decodePublicKey_eq_ok.mpr ⟨hexDecode_hexEncode _, hlen⟩]
      rfl
    have hacc : ∀ w : Vote, w.repPubKey = kp.pubKeyHex → w.repAccount c.lib = c.node.address kp := by
      intro w hw
      unfold Vote.repAccount
      rw [hw, hrep]
      rfl
    cases final with
    | false =>
      cases hrun
      exact ⟨rfl, rfl, rfl, rfl, hacc _ rfl, rfl⟩
    | true =>
      cases hrun
      exact ⟨rfl, rfl, rfl, rfl, hacc _ rfl, rfl⟩

theorem triple_seq {q : M α} {k : α → M β} (hPQ : ∀ s, P s → Q s) (hq : Preserves P q)
    (hk : ∀ x, Triple P (k x) fun _ => Q) : Triple P (q >>= k) fun _ => Q :=
  triple_bind hq (fun _ s => hPQ s) hk

theorem triple_putVote {R : State → Prop} {final : Bool} {v : Vote} (hPR : ∀ s, P s → R s)
    (hput : ∀ s st, P s → OwnVote c kp (a, p) final s v → s.store.putVote v = .ok st →
      R { s with store := st }) :
    Triple (fun s => P s ∧ OwnVote c kp (a, p) final s v) (putVote v) fun _ => R := by
  rintro s r s' ⟨hs, hown⟩ hrun
  cases hst : s.store.putVote v with
  | error e =>
    simp only [putVote, run_act, hst] at hrun
    cases hrun
    exact hPR s hs
  | ok st =>
    simp only [putVote, run_act, hst] at hrun
    cases hrun
    exact hput s st hs hown hst

variable (hrule : CastRule c a p I P Q) (hkp : c.node.keyPair = some kp)
include hrule hkp

theorem triple_emitFinalLocked (h : Str) :
    Triple P (emitFinalLocked c kp a p h) fun _ => Q := by
  have hpure : Triple P (pure () : M Unit) fun _ => Q := triple_done hrule.closedOpen
  have hread : ∀ {α : Type} {q : M α}, q.ReadOnly → Preserves P q := fun hq => hq.preserves
  refine triple_seq hrule.closedOpen
    ((quietWrites_calm.keeps_putFinalVoteIfAbsent a p h).preserves hrule.calmOpen)
    fun locked => triple_seq hrule.closedOpen (hread (readOnly_getBlockOrStaged _)) fun o => ?_
  cases o with
  | none => exact hpure
  | some b =>
    refine triple_seq hrule.closedOpen (hread (readOnly_depsFinalized b)) fun _ =>
      triple_ite (fun _ => triple_seq hrule.closedOpen (hread (readOnly_readStore _)) fun _ =>
        triple_ite (fun _ => hpure) fun _ => ?_) fun _ => hpure
    refine triple_bind (triple_buildVote hrule.calmOpen locked true)
      (fun _ s h => hrule.closedOpen s h.1) fun o => ?_
    cases o with
    | none => exact triple_done fun s hs => hrule.closedOpen s hs.1
    | some v =>
      refine triple_of_fact (fun s hs => (hs.2 v rfl).position) fun hpos => ?_
      refine Triple.mono (triple_bind (triple_putVote (v := v) hrule.closedOpen
        fun s st => hrule.locks kp s v st hkp) (fun _ _ h => h) fun r => ?_)
          (fun s hs => ⟨hs.1, hs.2 v rfl⟩) (fun _ _ h => h)
      cases r with
      | error e => exact preserves_pure _
      | ok _ =>
        cases hpos
        exact hrule.tallyClosed

theorem preserves_emitPreference (pref : Str) : Preserves P (emitPreference c kp a p pref) := by
  refine preserves_bind (ReadOnly.preserves (readOnly_readStore _)) fun existing => ?_
  refine preserves_orElse (a := true) (fun emit => ?_)
    ((quietWrites_calm.keeps_mayRevote c a p).preserves hrule.calmOpen)
  refine triple_ite (fun _ => ?_) fun _ => preserves_pure _
  refine triple_bind (triple_buildVote hrule.calmOpen pref false) (fun _ _ h => h.1) fun o => ?_
  cases o with
  | none => exact triple_done fun s hs => hs.1
  | some v =>
    refine triple_of_fact (fun s hs => (hs.2 v rfl).position) fun hpos => ?_
    refine Triple.mono (triple_bind (triple_putVote (v := v) (fun _ => id)
      fun s st => hrule.prefers kp s v st hkp) (fun _ _ h => h) fun r => ?_)
        (fun s hs => ⟨hs.1, hs.2 v rfl⟩) (fun _ _ h => h)
    cases hpos
    exact preserves_bind hrule.tally fun _ =>
      preserves_wr fun s hs => hrule.calmOpen _ _ (quietWrites_calm.revoted s _) hs

theorem triple_maybeLock (pref : Str) : Triple P (maybeLock c kp a p pref) fun _ => Q := by
  have hpure : Triple P (pure () : M Unit) fun _ => Q := triple_done hrule.closedOpen
  have htotal : (electionTotalWeight c a p).ReadOnly := by
    refine each_bind (readOnly_readStore _) fun o => ?_
    cases o with
    | none => exact readOnly_readMem _
    | some cf => exact each_ite (each_pure _) (readOnly_readMem _)
  exact triple_seq hrule.closedOpen (ReadOnly.preserves (readOnly_readStore _)) fun _ =>
    triple_seq hrule.closedOpen (ReadOnly.preserves htotal) fun _ => triple_ite
      (fun _ => triple_seq hrule.closedOpen (ReadOnly.preserves (readOnly_rd _)) fun _ =>
        triple_ite (fun _ => hrule.triple_emitFinalLocked hkp pref) fun _ => hpure)
      fun _ => hpure

theorem triple_castPreference (seed : List Str) :
    Triple P (castPreference c kp a p seed) fun _ => Q := by
  have hpure : Triple P (pure () : M Unit) fun _ => Q := triple_done hrule.closedOpen
  refine triple_seq hrule.closedOpen (ReadOnly.preserves (readOnly_gatherCandidates a p seed))
    fun hs => triple_seq hrule.closedOpen
      ((quietWrites_calm.keeps_noteHeldCandidates c a p hs).preserves hrule.calmOpen) fun _ =>
        triple_seq hrule.closedOpen (ReadOnly.preserves (readOnly_readStore _)) fun cf =>
          triple_seq hrule.closedOpen (ReadOnly.preserves (readOnly_eligibleCandidates cf hs))
            fun _ => triple_ite (fun _ => hpure) fun _ => triple_seq hrule.closedOpen
              (ReadOnly.preserves (readOnly_getBlockOrStaged _)) fun o => ?_
  cases o with
  | none => exact hpure
  | some b =>
    exact triple_seq hrule.closedOpen (ReadOnly.preserves (readOnly_depsFinalized b)) fun _ =>
      triple_ite (fun _ => triple_seq hrule.closedOpen (hrule.preserves_emitPreference hkp _)
        fun _ => hrule.triple_maybeLock hkp _) fun _ => hpure

omit hkp in
/-- **Casting a vote leads from `I` to `Q`.** -/
theorem triple_castVoteLocked (seed : List Str) :
    Triple I (castVoteLocked c a p seed) fun _ => Q := by
  have hpure : Triple I (pure () : M Unit) fun _ => Q := triple_done hrule.closed
  unfold castVoteLocked
  split
  · exact hpure
  · next kp hkp =>
    refine triple_seq hrule.closed (ReadOnly.preserves (readOnly_readMem _)) fun w => ?_
    refine triple_orElse (a := true) (fun resolved => ?_)
      (ReadOnly.preserves (readOnly_positionResolved a p)) fun _ => hrule.closed
    refine triple_ite (fun _ => hpure) fun _ => triple_rd_bind fun own => ?_
    cases hown : own.filter (·.final) with
    | some existing =>
      exact Triple.mono ((quietWrites_calm.keeps_repeatFinal c kp a p _).preserves hrule.calm)
        (fun _ h => h.1) (fun _ => hrule.closed)
    | none =>
      have hopen : ∀ s, I s ∧ (s.store.getVote a p kp.pubKeyHex).toOption.join = own → P s := by
        rintro s ⟨hs, rfl⟩
        exact hrule.start kp s hkp hs hown
      refine Triple.mono (triple_seq hrule.closedOpen (ReadOnly.preserves (readOnly_readStore _))
        fun o => ?_) hopen (fun _ _ h => h)
      cases o with
      | some locked => exact hrule.triple_emitFinalLocked hkp locked
      | none => exact hrule.triple_castPreference hkp seed

end CastRule

section Cast

variable {kind : StoreKind} {idle : Option Store} {t : Table (Str × Str) Conflict} (c : Ctx)

/-- The invariant inside a call of `c` at a position. -/
abbrev HeldBy (c : Ctx) (kind : StoreKind) (idle : Option Store) (k : Str × Str)
    (t : Table (Str × Str) Conflict) : State → Prop :=
  Held c.lib kind c.representatives idle k t ∅

/-- A vote for the position with the weight of the moment. -/
def FreshVote (c : Ctx) (k : Str × Str) (s : State) (v : Vote) : Prop :=
  v.position = k ∧ v.weight = s.electionWeight c.representatives k (v.repAccount c.lib)

theorem OwnVote.fresh {kp : KeyPair} {k : Str × Str} {final : Bool} {s : State} {v : Vote}
    (h : OwnVote c kp k final s v) : FreshVote c k s v :=
  ⟨h.position, by rw [h.weight, h.account]⟩

theorem Held.put {k : Str × Str} {s : State} {v : Vote} {st : Store} (hk : Settled kind k)
    (hs : HeldBy c kind idle k t s) (hv : FreshVote c k s v) (hput : s.store.putVote v = .ok st) :
    HeldBy c kind idle k t { s with store := st } := by
  obtain ⟨rfl, hw⟩ := hv
  have hput' := hput
  obtain ⟨key, -, hst⟩ := bind_eq_ok.mp hput'
  cases hst
  refine ⟨hs.weighed.put hw hk hput, ?_, hs.frame⟩
  have hstill := hs.still
  cases idle with
  | some st => exact hstill
  | none =>
    refine ⟨hstill.1, fun w hw hne => ?_⟩
    rcases List.mem_append.mp hw with hw | hw
    · exact hstill.2 w (List.mem_filter.mp hw).1 hne
    · exact absurd (congrArg Vote.position (List.mem_singleton.mp hw)) hne

variable {a p : Str} (hk : Settled kind (a, p))
include hk

theorem Held.castRule : CastRule c a p (HeldBy c kind idle (a, p) t) (HeldBy c kind idle (a, p) t)
    (HeldBy c kind idle (a, p) t) where
  calm _ _ hc h := h.calm hc
  calmOpen _ _ hc h := h.calm hc
  closed _ := id
  closedOpen _ := id
  start _ _ _ h _ := h
  prefers _ _ _ _ _ h hown hput := h.put c hk (hown.fresh c) hput
  locks _ _ _ _ _ h hown hput := h.put c hk (hown.fresh c) hput
  tally := preserves_retally c a p
  tallyClosed := preserves_retally c a p

theorem preserves_castVoteLocked (seed : List Str) :
    Preserves (HeldBy c kind idle (a, p) t) (castVoteLocked c a p seed) :=
  (Held.castRule c hk).triple_castVoteLocked seed

theorem preserves_castVote (seed : List Str) :
    Preserves (HeldBy c kind idle (a, p) t) (castVote c a p seed) :=
  preserves_withLock _ _ (preserves_castVoteLocked c hk seed)

end Cast

/-! ## Receiving votes -/

section Receive

variable {kind : StoreKind} {idle : Option Store} {t : Table (Str × Str) Conflict} (c : Ctx)
  {v : Vote}

theorem preserves_receiveVoteInner (hk : Settled kind v.position) :
    Preserves (HeldBy c kind idle v.position t) (receiveVoteInner c v) := by
  refine preserves_bind (preserves_readOnly (readOnly_readStore _)) fun r => ?_
  cases r with
  | error e => exact preserves_fail _
  | ok existing =>
    refine triple_ite (fun _ => preserves_pure _) fun _ =>
      (readOnly_electionWeight _ _ _ _).triple_bind (fun _ _ h => h) fun w => ?_
    have hput : Triple (fun s => HeldBy c kind idle v.position t s ∧
        FreshVote c v.position s { v with weight := w }) (putVote { v with weight := w })
        fun _ => HeldBy c kind idle v.position t := by
      rintro s r s' ⟨hs, hv⟩ hrun
      cases hst : s.store.putVote { v with weight := w } with
      | error e =>
        simp only [putVote, run_act, hst] at hrun
        cases hrun
        exact hs
      | ok st =>
        simp only [putVote, run_act, hst] at hrun
        cases hrun
        exact hs.put c hk hv hst
    refine Triple.mono (triple_bind hput (fun _ _ h => h) fun r => ?_)
      (fun s hs => ⟨hs.1, rfl, ?_⟩) (fun _ _ h => h)
    · cases r with
      | error e => exact preserves_fail _
      | ok _ =>
        exact preserves_bind (preserves_wr fun s hs => hs.calm (quietWrites_calm.revoted s _))
          fun _ => preserves_retally c _ _
    · have hw := hs.2
      rw [run_electionWeight] at hw
      cases hw
      rfl

theorem preserves_acceptVote (hk : Settled kind v.position) :
    Preserves (HeldBy c kind idle v.position t) (acceptVote c v) :=
  preserves_withLock _ _ (preserves_bind (preserves_readOnly (readOnly_positionResolved _ _))
    fun _ => triple_ite
      (fun _ => preserves_of_calm (quietWrites_calm.keeps_reaffirmFromState c _ _))
      fun _ => preserves_bind (preserves_receiveVoteInner c hk) fun _ =>
        preserves_castVoteLocked c hk _)

theorem preserves_bufferVote {k : Str × Str} (hk : Settled kind v.position) :
    Preserves (HeldBy c kind idle k t) (bufferVote v) := by
  refine preserves_wr fun s hs => ?_
  dsimp only
  split_ifs
  · exact hs
  · have hw := hs.weighed
    refine ⟨⟨hw.sort, hw.weight, hw.settled, hw.listed, fun k' vs hvs w hmem => ?_, hw.record⟩,
      hs.still, hs.frame⟩
    change (s.vm.pendingVotes.set v.position _).get k' = some vs at hvs
    rw [Table.get_set] at hvs
    split_ifs at hvs with hk'
    · cases hvs
      rcases List.mem_append.mp hmem with hmem | hmem
      · cases hold : s.vm.pendingVotes.get (v.conflictAccount, v.conflictPrev) with
        | none =>
          rw [hold] at hmem
          cases hmem
        | some old =>
          rw [hold] at hmem
          rw [hk']
          exact hw.buffered _ old hold w hmem
      · rw [List.mem_singleton.mp hmem]
        exact ⟨hk'.symm, hk⟩
    · exact hw.buffered k' vs hvs w hmem

theorem preserves_receiveVote (hk : Settled kind v.position) :
    Preserves (HeldBy c kind idle v.position t) (receiveVote c v) := by
  refine triple_handle (preserves_readOnly (readOnly_validateVote c v)) fun r => ?_
  cases r with
  | ok _ => exact preserves_acceptVote c hk
  | error e =>
    refine preserves_bind (preserves_readOnly ?_) fun _ =>
      triple_ite (fun _ => preserves_bufferVote c hk) fun _ => preserves_fail _
    exact each_ite (each_pure _) (each_bind (readOnly_readMem _) fun _ =>
      each_ite (each_pure _) (each_bind (readOnly_readStore _) fun _ => each_pure _))

theorem preserves_flushPendingVotes {a p : Str} :
    Preserves (HeldBy c kind idle (a, p) t) (flushPendingVotes c a p) := by
  have htake : Triple (HeldBy c kind idle (a, p) t)
      (Prog.act (fun s : State => some ((s.vm.pendingVotes.get (a, p)).getD [],
        { s with vm := { s.vm with pendingVotes := s.vm.pendingVotes.del (a, p) } })) pure :
        M (List Vote))
      (fun x s => HeldBy c kind idle (a, p) t s ∧
        ∀ vs, x = .ok vs → ∀ v ∈ vs, v.position = (a, p) ∧ Settled kind v.position) := by
    intro s x s' hs hrun
    cases hrun
    have hw := hs.weighed
    refine ⟨⟨⟨hw.sort, hw.weight, hw.settled, hw.listed, fun k' vs hvs => ?_, hw.record⟩,
      hs.still, hs.frame⟩, ?_⟩
    · change (s.vm.pendingVotes.del (a, p)).get k' = some vs at hvs
      rw [Table.get_del] at hvs
      split_ifs at hvs
      exact hw.buffered k' vs hvs
    · rintro vs hvs v hv
      cases hvs
      cases hold : s.vm.pendingVotes.get (a, p) with
      | none =>
        rw [hold] at hv
        cases hv
      | some old =>
        rw [hold] at hv
        exact hw.buffered _ old hold v hv
  refine triple_bind htake (fun _ _ h => h.1) fun vs => ?_
  refine triple_of_fact (fun s hs => hs.2 vs rfl) fun hvs => ?_
  refine Triple.mono (preserves_forEach fun v hv => ?_) (fun _ h => h.1) (fun _ _ h => h)
  obtain ⟨hpos, hset⟩ := hvs v hv
  rw [← hpos]
  refine triple_handle (preserves_bind (preserves_readOnly (readOnly_validateVote c v))
    fun _ => preserves_receiveVoteInner c hset) fun r => ?_
  rcases r with e | _
  · cases e
    · exact preserves_pure _
    · exact preserves_fail _
  · exact preserves_pure _

theorem preserves_onConflict (cf : Conflict)
    (hk : Settled kind (cf.accountAddress, cf.previousHash)) :
    Preserves (HeldBy c kind idle (cf.accountAddress, cf.previousHash) t) (onConflict c cf) :=
  triple_ite (fun _ => preserves_pure _) fun _ => preserves_withLock _ _
    (preserves_bind (preserves_flushPendingVotes c) fun _ => preserves_castVoteLocked c hk _)

end Receive

end Xe
