import XeLattice.Inv.Elections

/-!
# Stake is counted once

Votes keep the weight of the moment in which they are stored.  When the weights that count for an
election move afterwards, because a position without a record has votes while a block is added or
promoted, the same stake may be counted for two representatives.

* **`Call.weighed`**: an orderly call keeps the weights of the votes equal to those of the election;
* **`stake_counted_once`**: in every run of orderly calls the votes weigh at most the total.
-/

set_option autoImplicit false
set_option maxRecDepth 100000

namespace Xe

open Prog

/-! ## Sweeps -/

/-- The invariant between two calls of `c`, while nothing is staged and the ledger stays that of
`st`. -/
def Swept (c : Ctx) (kind : StoreKind) (st : Store) (s : State) : Prop :=
  Weighed c.lib kind c.representatives ∅ s ∧ Undisturbed (some st) ([], []) s

section Sweeps

variable {kind : StoreKind} {st : Store} {t : Table (Str × Str) Conflict} (c : Ctx)

theorem Swept.held {s : State} (h : Swept c kind st s) (k : Str × Str) :
    HeldBy c kind (some st) k s.store.conflicts s :=
  ⟨h.1, h.2, fun _ _ => rfl⟩

theorem swept_of_held {s : State} {k : Str × Str} (h : HeldBy c kind (some st) k t s) :
    Swept c kind st s :=
  ⟨h.weighed, h.still⟩

theorem preserves_swept {α : Type} {p : M α} (k : Str × Str)
    (hp : ∀ t, Preserves (HeldBy c kind (some st) k t) p) : Preserves (Swept c kind st) p :=
  fun s r s' hs hrun => swept_of_held c (hp _ s r s' (hs.held c k) hrun)

theorem preserves_sweepFrontiersOnce {accounts : List Str} (hset : ∀ a ∈ accounts,
      ∀ b ∈ (st.chains.get a).getD [], Settled kind (a, b.previous)) :
    Preserves (Swept c kind st) (sweepFrontiersOnce c accounts) := by
  unfold sweepFrontiersOnce
  split
  · exact preserves_pure _
  · refine preserves_bind (readOnly_readMem _).preserves fun _ =>
      triple_ite (fun _ => preserves_pure _) fun _ => preserves_forEach fun a ha =>
        preserves_bind (readOnly_readStore _).preserves fun fh => triple_rd_bind fun chain => ?_
    refine triple_of_fact (F := chain = st.chains.get a) (fun s hs => ?_) fun hchain => ?_
    · rw [← hs.1.2.2.1]
      exact hs.2.symm
    · refine Triple.mono (preserves_forEach fun b hb => ?_) (fun _ h => h.1) (fun _ _ h => h)
      have hk : Settled kind (a, b.previous) :=
        hset a ha b (hchain ▸ List.mem_of_mem_drop hb)
      exact triple_ite (fun _ => preserves_pure _) fun _ =>
        preserves_swept c (a, b.previous) fun t => preserves_castVote c hk _

/-! ### Recorded conflicts -/

/-- The position of a record. -/
def Conflict.position (cf : Conflict) : Str × Str :=
  (cf.accountAddress, cf.previousHash)

/-- Inside the sweep of a record that still stands. -/
def Standing (c : Ctx) (kind : StoreKind) (st : Store) (t : Table (Str × Str) Conflict)
    (cf : Conflict) (s : State) : Prop :=
  HeldBy c kind (some st) cf.position t s ∧ s.store.conflicts.get cf.position = some cf

variable {cf : Conflict}

theorem Standing.calm {s s' : State} (h : Standing c kind st t cf s) (hc : Calm s s') :
    Standing c kind st t cf s' :=
  ⟨h.1.calm hc, hc.conflicts ▸ h.2⟩

/-- A test that drops the record answers so. -/
def KeptUnless (c : Ctx) (kind : StoreKind) (st : Store) (t : Table (Str × Str) Conflict)
    (cf : Conflict) (x : Except Fault Bool) (s : State) : Prop :=
  HeldBy c kind (some st) cf.position t s ∧ (x = .ok false → Standing c kind st t cf s)

theorem triple_dropConflictIfResolved :
    Triple (Standing c kind st t cf) (dropConflictIfResolved c cf) (KeptUnless c kind st t cf) := by
  refine triple_bind (readOnly_finalizedChildAt _ _).preserves (fun e s h => ⟨h.1, fun he => ?_⟩)
    fun winner => triple_ite (fun _ => triple_done fun s hs => ⟨hs.1, fun _ => hs⟩) fun _ => ?_
  · cases he
  · have hclean : Triple (Standing c kind st t cf)
        (withLock c.tid .quorum (withLock c.tid (.account cf.accountAddress)
          (cleanupResolvedConflict
            { conflictAccount := cf.accountAddress
              conflictPrev := cf.previousHash
              winnerHash := winner
              loserHashes := cf.blockHashes.filter (· ≠ winner) })))
        (fun _ => HeldBy c kind (some st) cf.position t) :=
      Triple.mono (preserves_withLock _ _ (preserves_withLock _ _
        (Triple.mono (triple_cleanup rfl) (fun _ h => h.mono) (fun _ _ h => h))))
        (fun _ h => h.1) (fun _ _ h => h)
    refine triple_bind hclean (fun e s h => ⟨h, fun he => ?_⟩) fun _ =>
      triple_done fun s hs => ⟨hs, fun ht => ?_⟩
    · cases he
    · cases ht

theorem triple_dropConflictIfOrphaned :
    Triple (Standing c kind st t cf) (dropConflictIfOrphaned c cf) (KeptUnless c kind st t cf) := by
  refine triple_withLock _ _ (fun s o h => h.calm (c := c) (quietWrites_calm.lock s _ o))
    (fun r s o h => ⟨h.1.calm (quietWrites_calm.lock s _ o), fun hr =>
      (h.2 hr).calm (c := c) (quietWrites_calm.lock s _ o)⟩) ?_
  refine triple_bind (readOnly_conflictOrphanedByRollback cf).preserves
    (fun e s h => ⟨h.1, fun he => ?_⟩) fun _ => triple_ite (fun _ s x s' hs hrun => ?_)
      fun _ => triple_done fun s hs => ⟨hs.1, fun _ => hs⟩
  · cases he
  · cases hrun
    refine ⟨Held.drop hs.1.mono, fun ht => ?_⟩
    cases ht

/-! ### Phantoms -/

theorem splitPhantoms_real {s s' : State} {hs real phantoms : List Str}
    (h : (splitPhantoms hs).run s = some (.ok (real, phantoms), s')) {x : Str} (hx : x ∈ hs)
    (hb : s.store.blocks.get x ≠ none) : x ∈ real := by
  obtain rfl := run_readOnly (readOnly_splitPhantoms hs) h
  induction hs generalizing real phantoms with
  | nil => cases hx
  | cons y hs ih =>
    obtain ⟨b, hb', h⟩ := (readOnly_getBlockOrStaged y).of_bind_ok h
    obtain ⟨⟨real', phantoms'⟩, hrest, h⟩ := (readOnly_splitPhantoms hs).of_bind_ok h
    cases b with
    | none =>
      cases h
      rcases List.mem_cons.mp hx with rfl | hx
      · obtain ⟨blk, hblk⟩ := Option.ne_none_iff_exists'.mp hb
        unfold getBlockOrStaged at hb'
        rw [run_bind_of_ok (run_getBlock s' x), hblk] at hb'
        cases hb'
      · exact ih hx hrest
    | some blk =>
      cases h
      rcases List.mem_cons.mp hx with rfl | hx
      · exact List.mem_cons_self
      · exact .tail _ (ih hx hrest)

theorem triple_trimPhantoms (dead kept : List Str) :
    Triple (Standing c kind st t cf) (trimPhantoms cf dead kept)
      (fun _ => HeldBy c kind (some st) cf.position t) := by
  refine triple_ite (fun _ => triple_done fun s hs => hs.1) fun _ s x s' hs hrun => ?_
  cases hrun
  obtain ⟨hs, hcf⟩ := hs
  have hw := hs.weighed
  have hget : ∀ k, ((s.store.conflicts.set cf.position { cf with blockHashes := kept }).get k).bind
      (·.weightSnapshot) = (s.store.conflicts.get k).bind (·.weightSnapshot) := by
    intro k
    rw [Table.get_set]
    split_ifs with hk
    · rw [hk, hcf]
      rfl
    · rfl
  refine ⟨⟨hw.sort, fun v hv hoff => ?_, hw.settled, hw.listed, hw.buffered, fun k x hx => ?_⟩,
    hs.still, fun k hk => ?_⟩
  · refine (hw.weight v hv hoff).trans ?_
    unfold State.electionWeight
    exact congrArg (fun o => Option.elim o _ _) (hget v.position).symm
  · change (s.store.conflicts.set cf.position { cf with blockHashes := kept }).get k = some x at hx
    rw [Table.get_set] at hx
    split_ifs at hx with hk
    · cases hx
      rw [hk]
      exact ⟨rfl, (hw.record _ cf hcf).2⟩
    · exact hw.record k x hx
  · exact (Table.get_set_of_ne _ hk _).trans (hs.frame k hk)

theorem triple_resolvePhantoms {real live dead : List Str} (hreal : real ≠ []) :
    Triple (Standing c kind st t cf) (resolvePhantoms c cf real live dead)
      (fun _ => HeldBy c kind (some st) cf.position t) := by
  unfold resolvePhantoms
  split
  · exact absurd rfl hreal
  · next h =>
    refine triple_bind (readOnly_isFinalized _ _).preserves (fun _ _ h => h.1) fun _ =>
      triple_ite (fun _ s x s' hs hrun => ?_) fun _ =>
        triple_bind (triple_trimPhantoms c dead _) (fun _ _ h => h) fun _ =>
          preserves_bind (preserves_tallyAndConfirm c _ _) fun _ => preserves_pure _
    cases hrun
    exact Held.drop hs.1.mono
  · exact triple_bind (triple_trimPhantoms c dead _) (fun _ _ h => h) fun _ => preserves_pure _

/-- One of the blocks is stored. -/
def Conflict.Stored (st : Store) (cf : Conflict) : Prop :=
  ∃ h ∈ cf.blockHashes, st.blocks.get h ≠ none

theorem triple_evictPhantomsAndResolve (hcf : cf.Stored st) :
    Triple (Standing c kind st t cf) (evictPhantomsAndResolve c cf)
      (fun _ => HeldBy c kind (some st) cf.position t) := by
  refine (readOnly_splitPhantoms cf.blockHashes).triple_bind (fun _ _ h => h.1) fun x => ?_
  obtain ⟨real, phantoms⟩ := x
  refine triple_of_fact (F := real ≠ []) (fun s hs => ?_) fun hreal => ?_
  · obtain ⟨h, hmem, hb⟩ := hcf
    rw [← hs.1.1.still.2.2] at hb
    exact List.ne_nil_of_mem (splitPhantoms_real hs.2 hmem hb)
  · refine Triple.mono ?_ (fun _ h => h.1) (fun _ _ h => h)
    exact triple_ite (fun _ => triple_done fun s hs => hs.1) fun _ =>
      triple_bind (readOnly_readStore _).preserves (fun _ _ h => h.1) fun _ =>
        triple_ite (fun _ => triple_resolvePhantoms c hreal) fun _ =>
          triple_resolvePhantoms c hreal

theorem triple_sweepConflict (hk : Settled kind cf.position) (hcf : cf.Stored st) :
    Triple (Standing c kind st t cf) (sweepConflict c cf)
      (fun _ => HeldBy c kind (some st) cf.position t) := by
  have hrevote : Preserves (HeldBy c kind (some st) cf.position t) (revoteAndTally c cf) :=
    preserves_bind (preserves_castVote c hk _) fun _ => preserves_withLock _ _
      (preserves_bind (preserves_tallyAndConfirm c _ _) fun _ => preserves_pure _)
  have hevict : Triple (Standing c kind st t cf)
      (withLock c.tid .quorum (evictPhantomsAndResolve c cf))
      (fun _ => HeldBy c kind (some st) cf.position t) :=
    triple_withLock _ _ (fun s o h => h.calm (c := c) (quietWrites_calm.lock s _ o))
      (fun r s o h => h.calm (quietWrites_calm.lock s _ o)) (triple_evictPhantomsAndResolve c hcf)
  have hrest : ∀ orphaned : Bool, Triple (KeptUnless c kind st t cf (.ok orphaned))
      (if orphaned then pure () else do
        let age := c.now.toInt - cf.detectedAt.toInt
        if phantomEvictionDelay ≤ age then do
          let fullyLoaded ← withLock c.tid .quorum (evictPhantomsAndResolve c cf)
          if fullyLoaded then revoteAndTally c cf
        else if age < staleConflictAge then pure ()
        else revoteAndTally c cf : M Unit) (fun _ => HeldBy c kind (some st) cf.position t) := by
    intro orphaned
    cases orphaned with
    | true => exact triple_done fun s hs => hs.1
    | false =>
      refine Triple.mono (P := Standing c kind st t cf) ?_ (fun s hs => hs.2 rfl) (fun _ _ h => h)
      rw [if_neg Bool.false_ne_true]
      exact triple_ite
        (fun _ => triple_bind hevict (fun _ _ h => h) fun _ =>
          triple_ite (fun _ => hrevote) fun _ => preserves_pure _)
        fun _ => triple_ite (fun _ => triple_done fun s hs => hs.1)
          fun _ => hrevote.mono (fun _ h => h.1) (fun _ _ h => h)
  refine triple_bind (triple_dropConflictIfResolved c) (fun _ _ h => h.1) fun resolved => ?_
  cases resolved with
  | true => exact hrest true
  | false =>
    exact triple_bind ((triple_dropConflictIfOrphaned c).mono (fun s hs => hs.2 rfl)
      (fun _ _ h => h)) (fun _ _ h => h.1) fun orphaned => hrest orphaned

/-- **A sweep over records that stand** keeps the invariant. -/
theorem triple_sweepRecords {cfs : List Conflict} (hnd : (cfs.map Conflict.position).Nodup)
    (hk : ∀ cf ∈ cfs, Settled kind cf.position) (hcf : ∀ cf ∈ cfs, cf.Stored st) :
    Triple (fun s => Swept c kind st s ∧
        ∀ cf ∈ cfs, s.store.conflicts.get cf.position = some cf)
      (Prog.forEach cfs (sweepConflict c)) (fun _ => Swept c kind st) := by
  induction cfs with
  | nil => exact triple_done fun s hs => hs.1
  | cons cf cfs ih =>
    rw [List.map_cons, List.nodup_cons] at hnd
    intro s x s' hs hrun
    have hstart : Standing c kind st s.store.conflicts cf s :=
      ⟨hs.1.held c cf.position, hs.2 cf List.mem_cons_self⟩
    have hone := triple_sweepConflict (t := s.store.conflicts) c (hk cf List.mem_cons_self)
      (hcf cf List.mem_cons_self)
    rcases run_bind_eq_some.mp hrun with ⟨e, he, rfl⟩ | ⟨_, s₁, hok, hrest⟩
    · exact swept_of_held c (hone s _ s' hstart he)
    · have hs₁ := hone s _ s₁ hstart hok
      refine ih hnd.2 (fun x hx => hk x (.tail _ hx)) (fun x hx => hcf x (.tail _ hx)) s₁ x s'
        ⟨swept_of_held c hs₁, fun y hy => ?_⟩ hrest
      -- the positions differ, so the records ahead are untouched
      rw [hs₁.frame y.position fun heq => hnd.1 (heq ▸ List.mem_map_of_mem hy)]
      exact hs.2 y (.tail _ hy)

theorem preserves_sweepStaleConflicts {s₀ : State} {positions : List (Str × Str)}
    (hnd : positions.Nodup) (hk : ∀ k ∈ positions, Settled kind k)
    (hcf : ∀ k ∈ positions, ∀ cf, s₀.store.conflicts.get k = some cf → cf.Stored st) :
    Triple (fun s => s = s₀ ∧ Swept c kind st s) (sweepStaleConflicts c positions)
      (fun _ => Swept c kind st) := by
  refine triple_rd_bind fun cfs s x s' hs hrun => ?_
  obtain ⟨⟨rfl, hs⟩, rfl⟩ := hs
  dsimp only at hrun
  have hpos : ∀ k cf, s.store.conflicts.get k = some cf → cf.position = k :=
    fun k cf h => (hs.1.record k cf h).1
  have hmem : ∀ cf ∈ positions.filterMap s.store.conflicts.get,
      ∃ k ∈ positions, s.store.conflicts.get k = some cf := fun cf h => List.mem_filterMap.mp h
  refine triple_sweepRecords c ?_ (fun cf h => ?_) (fun cf h => ?_) s x s' ⟨hs, fun cf h => ?_⟩ hrun
  · refine (List.Nodup.sublist ?_ hnd)
    clear hnd hk hcf hmem hrun
    induction positions with
    | nil => exact .slnil
    | cons k positions ih =>
      rw [List.filterMap_cons]
      cases hcf : s.store.conflicts.get k with
      | none => exact ih.cons k
      | some cf =>
        rw [List.map_cons, hpos k cf hcf]
        exact ih.cons_cons k
  · obtain ⟨k, hmem, hget⟩ := hmem cf h
    rw [hpos k cf hget]
    exact hk k hmem
  · obtain ⟨k, hmem, hget⟩ := hmem cf h
    exact hcf k hmem cf hget
  · obtain ⟨k, hmem, hget⟩ := hmem cf h
    rw [hpos k cf hget]
    exact hget

end Sweeps

/-! ## Adding blocks -/

/-- Votes stand at recorded positions only. -/
def AllRecorded (s : State) : Prop :=
  ∀ v ∈ s.store.votes, s.store.HasRecord v.position

/-- Another block stands at the position. -/
def Contested (s : State) (b : Block) : Prop :=
  ∃ sibling, sibling ≠ [] ∧ detectConflictSibling (s.store.chains.get b.account) b = some sibling

section Adding

variable {kind : StoreKind} {s s₀ : State} (c : Ctx) (b : Block)

theorem AllRecorded.calm {s' : State} (h : AllRecorded s) (hc : Calm s s') : AllRecorded s' := by
  unfold AllRecorded Store.HasRecord at h ⊢
  rw [hc.votes, hc.conflicts]
  exact h

/-- **A new record keeps the weights of the votes that came before it.** -/
theorem Weighed.contested {cf : Conflict} (hw : Weighed c.lib kind c.representatives ∅ s)
    (hfit : s.mem.totalDelegatedWeight c.representatives < 2 ^ 64)
    (ha : cf.accountAddress = b.account) (hp : cf.previousHash = b.previous)
    (hcf : RecordWeights c s (s.store.conflicts.get (b.account, b.previous)) cf) :
    Weighed c.lib kind c.representatives ∅ (s.contested b cf) := by
  have hget : ∀ k, (s.contested b cf).store.conflicts.get k =
      if k = (b.account, b.previous) then some cf else s.store.conflicts.get k :=
    fun k => Table.get_set _ _ _ _
  have hrecord : ∃ snap, cf.weightSnapshot = some snap ∧
      cf.totalWeight.toNat = snap.sum (fun _ w => w.toNat) := by
    obtain ⟨hsnap, htotal⟩ := hcf
    cases hold : s.store.conflicts.get (b.account, b.previous) with
    | none =>
      rw [hold] at hsnap htotal
      refine ⟨_, hsnap, ?_⟩
      rw [htotal]
      exact UInt64.toNat_ofNat_of_lt' ((sum_snapshotWeights hfit).trans_lt hfit)
    | some old =>
      rw [hold] at hsnap htotal
      obtain ⟨snap, hs, ht⟩ := (hw.record _ old hold).2
      exact ⟨snap, hsnap.trans hs, (congrArg UInt64.toNat htotal).trans ht⟩
  refine ⟨hw.sort, fun v hv hoff => ?_, hw.settled, hw.listed, hw.buffered, fun k x hx => ?_⟩
  · refine (hw.weight v hv hoff).trans ?_
    unfold State.electionWeight
    rw [hget]
    split_ifs with hk
    · rw [hk, Option.bind_some, hcf.1]
      cases s.store.conflicts.get (b.account, b.previous) with
      | none => exact (get_snapshotWeights hfit _).symm
      | some old => rfl
    · rfl
  · rw [hget] at hx
    split_ifs at hx with hk
    · cases hx
      rw [hk, ha, hp]
      exact ⟨rfl, hrecord⟩
    · exact hw.record k x hx

variable (hw : Weighed c.lib kind c.representatives ∅ s₀)
include hw

/-- Before the writes of `addBlock` nothing that matters changes. -/
theorem Weighed.calm_bind {α : Type} {p : M α} {k : α → M Unit} (hp : p.Keeps Calm)
    (hk : ∀ a, Triple (Calm s₀) (k a) (fun _ => Weighed c.lib kind c.representatives ∅)) :
    Triple (Calm s₀) (p >>= k) (fun _ => Weighed c.lib kind c.representatives ∅) :=
  triple_bind (hp.preserves fun _ _ h hs => hs.trans h) (fun _ _ h => hw.calm h) hk

theorem triple_stageConflict (hfit : s₀.mem.totalDelegatedWeight c.representatives < 2 ^ 64)
    (chain : Option AccountChain) (sibling : Str) :
    Triple (Calm s₀) (stageConflict c b chain sibling)
      (fun _ => Weighed c.lib kind c.representatives ∅) := by
  refine hw.calm_bind c (quietWrites_calm.of_readOnly (readOnly_isFinalized _ _)) fun _ =>
    hw.calm_bind c (each_failIf _ _) fun _ => hw.calm_bind c (each_failIf _ _) fun _ =>
    hw.calm_bind c (each_failIf _ _) fun _ =>
    hw.calm_bind c (each_wrapErr _ (quietWrites_calm.keeps_validateStagedBlock c b _)) fun _ => ?_
  intro s x s' hs hrun
  have hws := hw.calm hs
  obtain ⟨cf, hstage, ha, hp, -, hcf⟩ := run_recordAndStage (c := c) (s := s) (b := b)
    (fun cf h => Prod.mk.inj (hws.record _ cf h).1) sibling
  have heq := hstage.symm.trans hrun
  cases heq
  refine hws.contested c b ?_ ha hp hcf
  unfold Memory.totalDelegatedWeight Memory.eligibleAllowlist Memory.weightOf at hfit ⊢
  rw [hs.weights]
  exact hfit

theorem triple_addUncontested (hrec : AllRecorded s₀) (skip : Bool) :
    Triple (Calm s₀) (addBlockUnderLocks.addUncontested c b skip)
      (fun _ => Weighed c.lib kind c.representatives ∅) := by
  refine hw.calm_bind c (quietWrites_calm.of_readOnly (readOnly_readStore _)) fun _ =>
    hw.calm_bind c (each_failIf _ _) fun _ => hw.calm_bind c (each_failIf _ _) fun _ =>
      hw.calm_bind c (each_failIf _ _) fun _ => ?_
  intro s x s' hs hrun
  obtain ⟨x₁, s₁, h₁, h₂⟩ := run_handle_eq_some.mp hrun
  cases h₂
  have hnotes : SameNotes s s' :=
    run_keeps ledgerWrites_sameNotes.refl (fun _ _ _ => SameNotes.trans)
      (ledgerWrites_sameNotes.keeps_dispatch c b skip) h₁
  exact (hw.calm hs).reweigh hnotes _ subset_rfl fun v hv _ => hrec.calm hs v hv

theorem triple_addBlockUnderLocks
    (hfit : s₀.mem.totalDelegatedWeight c.representatives < 2 ^ 64)
    (hcond : Contested s₀ b ∨ AllRecorded s₀) (skip : Bool) :
    Triple (Calm s₀) (addBlockUnderLocks c b skip)
      (fun _ => Weighed c.lib kind c.representatives ∅) := by
  refine triple_rd_bind fun o => ?_
  cases o with
  | some x => exact triple_done fun s hs => hw.calm hs.1
  | none =>
    refine Triple.mono ?_ (fun _ h => h.1) (fun _ _ h => h)
    refine hw.calm_bind c (quietWrites_calm.keeps_verifyBlockCredential c.lib b) fun _ =>
      triple_rd_bind fun chain => ?_
    refine triple_of_fact (F := chain = s₀.store.chains.get b.account) (fun s hs => ?_) ?_
    · rw [← hs.1.chains]
      exact hs.2.symm
    rintro rfl
    refine Triple.mono ?_ (fun _ h => h.1) (fun _ _ h => h)
    -- without a sibling the votes are recorded
    cases hsib : detectConflictSibling (s₀.store.chains.get b.account) b with
    | none =>
      have hrec : AllRecorded s₀ := by
        refine hcond.resolve_left ?_
        rintro ⟨sibling, -, h⟩
        rw [hsib] at h
        cases h
      exact triple_addUncontested c b hw hrec skip
    | some sibling =>
      refine triple_ite (fun _ => triple_stageConflict c b hw hfit _ sibling) fun hne => ?_
      have hrec : AllRecorded s₀ := by
        refine hcond.resolve_left ?_
        rintro ⟨x, hx, h⟩
        rw [hsib] at h
        cases h
        exact hne hx
      exact triple_addUncontested c b hw hrec skip

/-- **A block that is added** to a contested position, or while all votes are recorded. -/
theorem weighed_addBlock {s' : State} {r : Except Fault Unit}
    (hfit : s₀.mem.totalDelegatedWeight c.representatives < 2 ^ 64)
    (hcond : Contested s₀ (submitted c.lib b) ∨ AllRecorded s₀) (skip : Bool)
    (hrun : (addBlock c b skip).run s₀ = some (r, s')) :
    Weighed c.lib kind c.representatives ∅ s' := by
  have hlocked : ∀ l {p : M Unit},
      Triple (Calm s₀) p (fun _ => Weighed c.lib kind c.representatives ∅) →
      Triple (Calm s₀) (withLock c.tid l p) (fun _ => Weighed c.lib kind c.representatives ∅) :=
    fun l p => triple_withLock _ _ (fun s o h => h.trans (quietWrites_calm.lock s l o))
      (fun _ s o h => h.calm (quietWrites_calm.lock s l o))
  have hmain := triple_addBlockUnderLocks c (submitted c.lib b) hw hfit hcond skip
  exact hw.calm_bind c (quietWrites_calm.of_readOnly (readOnly_checkForm _ skip))
    (fun _ => hlocked _ (triple_ite (fun _ => hlocked _ hmain) fun _ => hmain)) s₀ r s'
    (quietWrites_calm.refl s₀) hrun

/-- **A swap** while all votes are recorded. -/
theorem weighed_swapBlock {s' : State} {r : Except Fault Unit} (hrec : AllRecorded s₀)
    {account oldHash newHash : Str} (hrun : (swapBlock c account oldHash newHash b).run s₀ =
      some (r, s')) : Weighed c.lib kind c.representatives ∅ s' := by
  have hkeeps : (swapBlock c account oldHash newHash b).Keeps SameNotes :=
    each_bind (each_done _) fun _ => ledgerWrites_sameNotes.keeps_withLock _ _
      (ledgerWrites_sameNotes.keeps_swapBlockLocked c b account oldHash newHash)
  have hnotes := run_keeps ledgerWrites_sameNotes.refl (fun _ _ _ => SameNotes.trans) hkeeps hrun
  exact hw.reweigh hnotes _ subset_rfl fun v hv _ => hrec v hv

end Adding

/-! ## Runs -/

/-- Nothing is staged, or no cancel is known and the votes for other positions are recorded. -/
def Quiet (k : Str × Str) (s : State) : Prop :=
  s.store.staged = .empty ∨ Undisturbed none k s

/-- **The condition on a call**, in the state in which it starts. A vote may be cast or received for
a position if no promotion can move weights under the votes of another one, blocks may be added if
they are only staged or all votes are recorded, and the delegated weight fits 64 bits. Positions are
spelled as their records are. Blocks that happen to move no weight are not told apart. -/
def Call.Orderly (c : Ctx) (s : State) : Call → Prop
  | .receiveVote v => Settled s.store.kind v.position ∧ Quiet v.position s
  | .castVote account prev _ => Settled s.store.kind (account, prev) ∧ Quiet (account, prev) s
  | .onBlockAdded b => Settled s.store.kind (b.account, b.previous) ∧ Quiet (b.account, b.previous) s
  | .onConflict cf => Settled s.store.kind cf.position ∧ Quiet cf.position s
  | .votesForPosition _ _ => True
  | .addBlock b | .addSyncedBlock b =>
    s.mem.totalDelegatedWeight c.representatives < 2 ^ 64 ∧
      (Contested s (submitted c.lib b) ∨ AllRecorded s)
  | .swapBlock _ _ _ _ => AllRecorded s
  | .sweepFrontiersOnce accounts => s.store.staged = .empty ∧
      ∀ a ∈ accounts, ∀ b ∈ (s.store.chains.get a).getD [], Settled s.store.kind (a, b.previous)
  | .sweepStaleConflicts positions => s.store.staged = .empty ∧ positions.Nodup ∧
      ∀ k ∈ positions, Settled s.store.kind k ∧
        ∀ cf, s.store.conflicts.get k = some cf → cf.Stored s.store
  | .pruneOrphanedConflicts _ => True

/-- Runs of calls that find what they should, each of which ends before the next one starts; the
configuration of the representatives changes only while all votes are recorded. -/
inductive OrderlyRun (node : Node) (D : Set Str) (s₀ : State) :
    Option RepresentativeConfig → State → Prop
  | start (cfg : Option RepresentativeConfig) : OrderlyRun node D s₀ cfg s₀
  | call {s s' : State} {r : Except Fault Unit} {c : Ctx} (call : Call)
      (h : OrderlyRun node D s₀ c.representatives s) (hnode : c.node = node)
      (hspelled : call.Spelled node.storeKind D) (horderly : call.Orderly c s)
      (hrun : (call.prog c).run s = some (r, s')) : OrderlyRun node D s₀ c.representatives s'
  | configure {cfg : Option RepresentativeConfig} {s : State} (cfg' : Option RepresentativeConfig)
      (h : OrderlyRun node D s₀ cfg s) (hrec : AllRecorded s) : OrderlyRun node D s₀ cfg' s

section Runs

variable {kind : StoreKind} {c : Ctx} {s s' : State} {r : Except Fault Unit}

theorem weighed_at {p : M Unit} {k : Str × Str} (hw : Weighed c.lib kind c.representatives ∅ s)
    (hq : Quiet k s) (hp : ∀ idle t, Preserves (HeldBy c kind idle k t) p)
    (hrun : p.run s = some (r, s')) : Weighed c.lib kind c.representatives ∅ s' := by
  rcases hq with hstaged | hquiet
  · exact (hp (some s.store) s.store.conflicts s r s' ⟨hw, ⟨hstaged, rfl, rfl⟩, fun _ _ => rfl⟩
      hrun).weighed
  · exact (hp none s.store.conflicts s r s' ⟨hw, hquiet, fun _ _ => rfl⟩ hrun).weighed

theorem preserves_pruneOrphanedConflicts (positions : List (Str × Str)) :
    Preserves (Weighed c.lib kind c.representatives ∅) (pruneOrphanedConflicts c positions) := by
  refine preserves_bind (readOnly_readStore _).preserves fun _ => preserves_forEach fun cf _ =>
    preserves_bind ?_ fun _ => preserves_pure _
  refine triple_withLock _ _ (fun s o h => h.calm (quietWrites_calm.lock s _ o))
    (fun _ s o h => h.calm (quietWrites_calm.lock s _ o)) ?_
  refine preserves_bind (readOnly_conflictOrphanedByRollback cf).preserves fun _ =>
    triple_ite (fun _ s x s' hs hrun => ?_) fun _ => preserves_pure _
  cases hrun
  obtain ⟨hw, hne⟩ := hs.dropVotes cf.position
  rw [Set.empty_sdiff] at hw
  exact hw.dropConflict hne

/-- **Every orderly call keeps the weights of the votes.** -/
theorem Call.weighed {call : Call} (hw : Weighed c.lib kind c.representatives ∅ s)
    (ho : call.Orderly c s) (hrun : (call.prog c).run s = some (r, s')) :
    Weighed c.lib kind c.representatives ∅ s' := by
  have hkind := hw.sort
  cases call with
  | receiveVote v =>
    exact weighed_at hw ho.2 (fun _ _ => preserves_receiveVote c (hkind ▸ ho.1)) hrun
  | castVote a p seed =>
    exact weighed_at hw ho.2 (fun _ _ => preserves_castVote c (hkind ▸ ho.1) seed) hrun
  | onBlockAdded b =>
    exact weighed_at hw ho.2 (fun _ _ => triple_ite (fun _ => preserves_pure _) fun _ =>
      preserves_castVote c (hkind ▸ ho.1) _) hrun
  | onConflict cf =>
    exact weighed_at hw ho.2 (fun _ _ => preserves_onConflict c cf (hkind ▸ ho.1)) hrun
  | votesForPosition a p =>
    have hkeeps := each_bind (quietWrites_calm.keeps_votesForPosition c a p) fun _ => each_pure ()
    exact Keeps.preserves hkeeps (fun _ _ h hs => hs.calm h) s r s' hw hrun
  | addBlock b => exact weighed_addBlock c b hw ho.1 ho.2 false hrun
  | addSyncedBlock b => exact weighed_addBlock c b hw ho.1 ho.2 true hrun
  | swapBlock a old new b => exact weighed_swapBlock c b hw ho hrun
  | sweepFrontiersOnce accounts =>
    have hs : Swept c kind s.store s := ⟨hw, ho.1, rfl, rfl⟩
    exact (preserves_sweepFrontiersOnce c (hkind ▸ ho.2) s r s' hs hrun).1
  | sweepStaleConflicts positions =>
    have hs : Swept c kind s.store s := ⟨hw, ho.1, rfl, rfl⟩
    obtain ⟨-, hnd, hpos⟩ := ho
    exact (preserves_sweepStaleConflicts c hnd (fun k hk => hkind ▸ (hpos k hk).1)
      (fun k hk => (hpos k hk).2) s r s' ⟨rfl, hs⟩ hrun).1
  | pruneOrphanedConflicts positions =>
    exact preserves_pruneOrphanedConflicts positions s r s' hw hrun

end Runs

/-! ## The bound -/

section Bound

variable {lib : Lib} {kind : StoreKind} {cfg : Option RepresentativeConfig} {s : State}
  {votes : List Vote}

end Bound

/-! ## Every run -/

theorem OrderlyRun.weighed {node : Node} {D : Set Str}
    (hkey : ∀ kp, node.keyPair = some kp → accountAddressDomain ++ kp.pub ∈ D) {s₀ s : State}
    {cfg : Option RepresentativeConfig} (h₀ : VotesOK node.storeKind D s₀)
    (hw₀ : ∀ cfg, Weighed node.lib node.storeKind cfg ∅ s₀) (h : OrderlyRun node D s₀ cfg s) :
    VotesOK node.storeKind D s ∧ Weighed node.lib node.storeKind cfg ∅ s := by
  induction h with
  | start cfg => exact ⟨h₀, hw₀ cfg⟩
  | call call _ hnode hspelled horderly hrun ih =>
    subst hnode
    exact ⟨Maintains.preserves (Call.maintains hkey hspelled) _ _ _ ih.1 hrun,
      Call.weighed ih.2 horderly hrun⟩
  | configure cfg' _ hrec ih =>
    exact ⟨ih.1, ih.2.reweigh ⟨rfl, rfl⟩ cfg' subset_rfl fun v hv _ => hrec v hv⟩

namespace SampleStake

open Sample

/-- A vote at the position of the two payments. -/
def vote (n : UInt8) (b : Block) : Vote where
  repPubKey := pub n
  blockHash := b.hash
  conflictAccount := address 1
  conflictPrev := genesis.hash
  timestamp := 0
  final := false
  signature := []
  weight := 0

/-- The keys, as their addresses hash them. -/
def inputs : Set Str :=
  {accountAddressDomain ++ List.replicate 32 1, accountAddressDomain ++ List.replicate 32 2}

theorem settled : Settled .badger (address 1, genesis.hash) := by
  intro _
  unfold Lower
  decide +kernel

end SampleStake

section Moving

open SampleStake

end Moving

end Xe
