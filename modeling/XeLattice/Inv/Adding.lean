import XeLattice.Inv.Swap

/-!
# Adding a block

What `addBlock` does with a block: it refuses it, knows it already, stages it beside the block that
stands at its position, or has its handler run.

* **`stageConflict_cases`**: the staging of a block;
* **`addBlock_cases`**: the whole call.
-/

set_option autoImplicit false

namespace Xe

open Prog

/-! ## Staging -/

/-- The hashes in the record of a contested position after a block claims it. -/
def recordHashes (old : Option Conflict) (sibling h : Str) : List Str :=
  match old with
  | none => [sibling, h]
  | some cf =>
    if h ∈ cf.blockHashes ∨ cf.blockHashes.length ≥ maxConflictHashes then cf.blockHashes
    else cf.blockHashes ++ [h]

/-- The state in which the position of `b` is recorded as `cf`, and `b` staged if it is listed. -/
def State.contested (s : State) (b : Block) (cf : Conflict) : State :=
  s.mapStore (fun st => { st with
    conflicts := st.conflicts.set (b.account, b.previous) cf
    staged := if b.hash ∈ cf.blockHashes then st.staged.set b.hash b else st.staged })

section Stage

variable {c : Ctx} {s s' : State} {b : Block}

theorem readOnly_stagedBalance (name : String) (x : UInt64) :
    (stagedBalance name b x).ReadOnly :=
  readOnly_failIf _ _

theorem readOnly_stagedSpend (name have_ need : String) (x : UInt64) :
    (stagedSpend name have_ need b x).ReadOnly :=
  each_guard <| readOnly_stagedBalance _ _

theorem readOnly_stagedIncome (name : String) (x y : UInt64) :
    (stagedIncome name b x y).ReadOnly :=
  each_guard <| readOnly_stagedBalance _ _

theorem readOnly_stagedPending (msg : Str) : (stagedPending b msg).ReadOnly :=
  each_bind (readOnly_readStore _) fun _ => readOnly_orErr _ _

theorem validateStagedBlock_eq (c : Ctx) (b : Block) (x : UInt64) :
    ∃ q : M Unit, q.ReadOnly ∧
      validateStagedBlock c b x = verifyBlockCredential c.lib b >>= fun _ => q := by
  refine ⟨_, ?_, rfl⟩
  cases b.type with
  | send =>
    exact each_guard <| each_bind (readOnly_stagedSpend _ _ _ _) fun _ =>
      each_guard (readOnly_failIf _ _)
  | receive =>
    exact each_guard <| each_bind (readOnly_stagedPending _) fun _ => each_guard <|
      each_bind (readOnly_isLiveLeaseEscrow _) fun _ => each_guard <| readOnly_stagedIncome _ _ _
  | lease => exact readOnly_stagedSpend _ _ _ _
  | leaseAccept => exact readOnly_stagedSpend _ _ _ _
  | leaseSettle =>
    exact each_bind (readOnly_stagedPending _) fun _ => readOnly_stagedIncome _ _ _
  | leaseCancel =>
    exact each_bind (readOnly_stagedPending _) fun _ => readOnly_stagedBalance _ _
  | leaseForceSettle =>
    exact each_bind (readOnly_stagedPending _) fun _ => readOnly_stagedBalance _ _
  | multisigOpen => exact each_fail _
  | multisigUpdate => exact readOnly_stagedBalance _ _
  | burn =>
    exact each_guard <| each_guard <| readOnly_stagedSpend _ _ _ _
  | mint =>
    exact each_guard <| each_guard <| each_guard <| readOnly_stagedIncome _ _ _
  | leaseRenew => exact each_fail _
  | genesis => exact each_fail _
  | other name => exact each_fail _

theorem still_validateStagedBlock (hk : s.book.Keyed) (x : UInt64) :
    (validateStagedBlock c b x).Still s := by
  obtain ⟨q, hq, heq⟩ := validateStagedBlock_eq c b x
  rw [heq]
  exact still_bind (still_verifyBlockCredential hk c.lib b) fun _ _ => hq.still s

theorem validateStagedBlock_type {x : UInt64} {u : Unit}
    (h : (validateStagedBlock c b x).run s = some (.ok u, s')) : b.type ≠ .genesis := by
  intro ht
  unfold validateStagedBlock at h
  obtain ⟨_, s₁, -, hcheck⟩ := run_bind_eq_ok.mp h
  rw [ht] at hcheck
  cases hcheck

/-- `recordConflict`, and the staging. -/
def recordAndStage (c : Ctx) (b : Block) (sibling : Str) : M Unit := do
  let isNew ← recordConflict c b.account b.previous sibling b.hash
  let record ← getConflict b.account b.previous
  if (record.map (fun r => decide (b.hash ∈ r.blockHashes))).getD false then
    writeStore (Store.saveStagedBlock b)
  if isNew then do
    match ← getConflict b.account b.previous with
    | none => pure ()
    | some record => do
      let snap ← readMem (·.snapshotWeights c.representatives)
      writeStore (Store.saveConflict
        { record with weightSnapshot := some snap, totalWeight := snapshotTotal snap })

/-- A new record takes the weights of the moment, an old one keeps its own. -/
def RecordWeights (c : Ctx) (s : State) (old : Option Conflict) (cf : Conflict) : Prop :=
  cf.weightSnapshot = old.elim (some (s.mem.snapshotWeights c.representatives)) (·.weightSnapshot) ∧
    cf.totalWeight =
      old.elim (snapshotTotal (s.mem.snapshotWeights c.representatives)) (·.totalWeight)

theorem run_recordAndStage (hcf : ∀ cf, s.store.conflicts.get (b.account, b.previous) = some cf →
      cf.accountAddress = b.account ∧ cf.previousHash = b.previous) (sibling : Str) :
    ∃ cf, (recordAndStage c b sibling).run s = some (.ok (), s.contested b cf) ∧
      cf.accountAddress = b.account ∧ cf.previousHash = b.previous ∧ cf.blockHashes =
        recordHashes (s.store.conflicts.get (b.account, b.previous)) sibling b.hash ∧
      RecordWeights c s (s.store.conflicts.get (b.account, b.previous)) cf := by
  -- what follows the record, when the position was contested before
  have tail : ∀ (cf : Conflict) (t : State),
      t.store.conflicts.get (b.account, b.previous) = some cf →
      (recordConflict c b.account b.previous sibling b.hash).run s = some (.ok false, t) →
      (recordAndStage c b sibling).run s = some (.ok (), t.mapStore (fun st => { st with
          staged := if b.hash ∈ cf.blockHashes then st.staged.set b.hash b else st.staged })) := by
    intro cf t ht hrec
    unfold recordAndStage
    rw [run_bind_of_ok hrec, run_bind_of_ok (run_getConflict t b.account b.previous), ht]
    by_cases hin : b.hash ∈ cf.blockHashes
    · simp only [Option.map_some, hin, decide_true, Option.getD_some, if_true]
      rfl
    · simp only [Option.map_some, hin, decide_false, Option.getD_some, if_false]
      rfl
  unfold recordHashes
  cases hold : s.store.conflicts.get (b.account, b.previous) with
  | none =>
    have hrec : (recordConflict c b.account b.previous sibling b.hash).run s = some (.ok true,
        s.mapStore (Store.saveConflict
          { accountAddress := b.account
            previousHash := b.previous
            blockHashes := [sibling, b.hash]
            detectedAt := c.now
            weightSnapshot := none
            totalWeight := 0 })) := by
      unfold recordConflict
      rw [run_bind_of_ok (run_getConflict s b.account b.previous), hold]
      rfl
    have hin : b.hash ∈ [sibling, b.hash] := by simp
    refine ⟨{ accountAddress := b.account
              previousHash := b.previous
              blockHashes := [sibling, b.hash]
              detectedAt := c.now
              weightSnapshot := some (s.mem.snapshotWeights c.representatives)
              totalWeight := snapshotTotal (s.mem.snapshotWeights c.representatives) },
      ?_, rfl, rfl, rfl, rfl, rfl⟩
    unfold recordAndStage
    rw [run_bind_of_ok hrec, run_bind_of_ok (run_getConflict _ b.account b.previous)]
    simp only [State.mapStore, Store.saveConflict, Table.get_set_self, Option.map_some, hin,
      decide_true, Option.getD_some, if_true, State.contested]
    have hwrite : ∀ (f : Store → Store) (t : State),
        (writeStore f).run t = some (.ok (), t.mapStore f) := fun _ _ => rfl
    rw [run_bind_of_ok (hwrite _ _), run_bind_of_ok (run_getConflict _ b.account b.previous)]
    simp only [State.mapStore, Store.saveStagedBlock, Table.get_set_self]
    refine (congrArg (fun t => some (Except.ok (), s.mapStore (fun st => { st with
      conflicts := t
      staged := st.staged.set b.hash b }))) ?_)
    exact Finmap.insert_insert _
  | some cf =>
    obtain ⟨ha, hp⟩ := hcf cf hold
    by_cases hfull : b.hash ∈ cf.blockHashes ∨ cf.blockHashes.length ≥ maxConflictHashes
    · have hrec : (recordConflict c b.account b.previous sibling b.hash).run s =
          some (.ok false, s) := by
        unfold recordConflict
        rw [run_bind_of_ok (run_getConflict s b.account b.previous), hold]
        simp only [if_pos hfull]
        rfl
      refine ⟨cf, ?_, ha, hp, (if_pos hfull).symm, rfl, rfl⟩
      rw [tail cf s hold hrec]
      refine congrArg (fun t => some (Except.ok (), s.mapStore (fun st => { st with
        conflicts := t
        staged := if b.hash ∈ cf.blockHashes then st.staged.set b.hash b else st.staged }))) ?_
      exact (Table.set_of_get_some hold).symm
    · have hrec : (recordConflict c b.account b.previous sibling b.hash).run s =
          some (.ok false, s.mapStore (fun st => { st with
            conflicts := st.conflicts.set (b.account, b.previous)
              { cf with blockHashes := cf.blockHashes ++ [b.hash] } })) := by
        unfold recordConflict
        rw [run_bind_of_ok (run_getConflict s b.account b.previous), hold]
        simp only [if_neg hfull]
        rw [← ha, ← hp]
        rfl
      refine ⟨{ cf with blockHashes := cf.blockHashes ++ [b.hash] }, ?_, ha, hp,
        (if_neg hfull).symm, rfl, rfl⟩
      rw [tail _ _ (Table.get_set_self _ _ _) hrec]
      rfl

/-- **The staging of a block** fails without a trace, or records the position and stages the block if
the record has room for it. -/
theorem stageConflict_cases (hk : s.book.Keyed)
    (hcf : ∀ cf, s.store.conflicts.get (b.account, b.previous) = some cf →
      cf.accountAddress = b.account ∧ cf.previousHash = b.previous)
    {chain : Option AccountChain} {sibling : Str} {r : Except Fault Unit}
    (h : (stageConflict c b chain sibling).run s = some (r, s')) :
    (∃ e, r = .error e ∧ s' = s) ∨ r = .ok () ∧ isValidAsset b.asset = true ∧ b.type ≠ .genesis ∧
      ∃ cf, s' = s.contested b cf ∧ cf.accountAddress = b.account ∧ cf.previousHash = b.previous ∧
        cf.blockHashes =
          recordHashes (s.store.conflicts.get (b.account, b.previous)) sibling b.hash := by
  unfold stageConflict at h
  rw [run_isFinalized_bind] at h
  rcases ((readOnly_failIf _ _).still s).bind_cases h with herr | ⟨_, -, h₁⟩
  · exact .inl herr
  rcases ((readOnly_failIf _ _).still s).bind_cases h₁ with herr | ⟨_, -, h₂⟩
  · exact .inl herr
  rcases ((readOnly_failIf _ _).still s).bind_cases h₂ with herr | ⟨_, hasset, h₃⟩
  · exact .inl herr
  rcases (still_wrapErr _ (still_validateStagedBlock hk _)).bind_cases h₃ with
    herr | ⟨_, hval, h₄⟩
  · exact .inl herr
  have htype : b.type ≠ .genesis := by
    rw [run_wrapErr, Option.map_eq_some_iff] at hval
    obtain ⟨⟨r₀, s₀⟩, hval, heq⟩ := hval
    cases r₀ with
    | error e => cases heq
    | ok u => exact validateStagedBlock_type hval
  obtain ⟨cf, hrun, ha, hp, hcfs, -⟩ := run_recordAndStage (c := c) hcf sibling
  have heq := hrun.symm.trans h₄
  cases heq
  refine .inr ⟨rfl, ?_, htype, cf, rfl, ha, hp, hcfs⟩
  simpa using (run_failIf_ok.mp hasset).1

end Stage

/-! ## The whole call -/

section Add

variable {D : Set Str} {c : Ctx} {s s' : State}

/-- What `addBlock` may leave of a block that has passed its formal checks. -/
inductive Adds (c : Ctx) (s : State) (b : Block) : Except Fault Unit → State → Prop
  | refused (e : Fault) : Adds c s b (.error e) s
  | known (x : Block) (known : s.store.blocks.get b.hash = some x)
      (verified : verifyBlock c.lib b = .ok ()) : Adds c s b (.ok ()) s
  | staged (sibling : Str) (cf : Conflict) (fresh : s.store.blocks.get b.hash = none)
      (verified : verifyBlock c.lib b = .ok ()) (asset : isValidAsset b.asset = true)
      (type : b.type ≠ .genesis)
      (found : detectConflictSibling (s.store.chains.get b.account) b = some sibling)
      (account : cf.accountAddress = b.account) (previous : cf.previousHash = b.previous)
      (hashes : cf.blockHashes =
        recordHashes (s.store.conflicts.get (b.account, b.previous)) sibling b.hash) :
      Adds c s b (.ok ()) (s.contested b cf)
  | handled {r : Except Fault Unit} {s' : State} (fresh : s.store.blocks.get b.hash = none)
      (verified : verifyBlock c.lib b = .ok ()) (asset : isValidAsset b.asset = true)
      (outcome : Outcome c.lib (fun _ => False) s b [] r s') : Adds c s b r s'

theorem readOnly_checkForm (b : Block) (skip : Bool) : (checkForm c b skip).ReadOnly := by
  have window : (if skip = false ∧ c.node.timestampWindow > 0 then do
      failIf (b.timestamp < 0) (str "block timestamp must not be negative")
      let delta := if b.timestamp > c.now then b.timestamp - c.now else c.now - b.timestamp
      failIf (delta > c.node.timestampWindow)
        (str "block timestamp out of range: delta=" ++ c.lib.durationString delta)
      else pure () : M Unit).ReadOnly :=
    each_ite (each_guard (readOnly_failIf _ _)) (each_pure _)
  refine each_guard <| each_bind (each_done _) fun _ => ?_
  refine each_ite ?_ window
  split
  · exact each_bind (each_fail _) fun _ => window
  · exact each_ite (each_bind (each_fail _) fun _ => window) window

theorem checkForm_verified {b : Block} {skip : Bool}
    (h : (checkForm c b skip).run s = some (.ok (), s')) : verifyBlock c.lib b = .ok () := by
  unfold checkForm at h
  rw [run_failIf_bind_ok, run_liftErr_bind_ok] at h
  obtain ⟨-, u, hu, -⟩ := h
  exact hu

theorem submitted_lower (lib : Lib) (b : Block) :
    Lower (submitted lib b).account ∧ Lower (submitted lib b).previous := by
  unfold submitted
  dsimp only
  split_ifs <;> exact ⟨lower_toLower _ _, lower_toLower _ _⟩

theorem addBlockUnderLocks_cases (hD : IdealHash c.lib D)
    (hg : GenesisSealed c.lib D c.node.genesis) (hi : s.Inv c.node D) {b : Block}
    (hhash : ∀ data, preimage c.lib b = .ok data → c.lib.networkID ++ data ∈ D)
    (ha : Lower b.account) (hp : Lower b.previous) (hv : verifyBlock c.lib b = .ok ())
    {skip : Bool} {r : Except Fault Unit}
    (h : (addBlockUnderLocks c b skip).run s = some (r, s')) : Adds c s b r s' := by
  unfold addBlockUnderLocks at h
  rw [run_bind_of_ok (run_getBlock s b.hash)] at h
  cases hknown : s.store.blocks.get b.hash with
  | some x =>
    rw [hknown] at h
    cases h
    exact .known x hknown hv
  | none =>
    simp only [hknown] at h
    rcases (still_verifyBlockCredential hi.caches.keyed c.lib b).bind_cases h with
      ⟨e, rfl, rfl⟩ | ⟨_, -, h₁⟩
    · exact .refused e
    rw [run_bind_of_ok (run_getAccountChain s b.account)] at h₁
    -- the handler runs unless a block of the chain stands at the position
    have uncontested : ∀ {r : Except Fault Unit} {s' : State},
        (addBlockUnderLocks.addUncontested c b skip).run s = some (r, s') → Adds c s b r s' := by
      intro r s' h
      have hconf : (hasConflicts b.account).ReadOnly := readOnly_readStore _
      rcases (hconf.still s).bind_cases h with ⟨e, rfl, rfl⟩ | ⟨_, -, h₂⟩
      · exact .refused e
      rcases ((readOnly_failIf _ _).still s).bind_cases h₂ with ⟨e, rfl, rfl⟩ | ⟨_, -, h₃⟩
      · exact .refused e
      rcases ((readOnly_failIf _ _).still s).bind_cases h₃ with ⟨e, rfl, rfl⟩ | ⟨_, -, h₄⟩
      · exact .refused e
      rcases ((readOnly_failIf _ _).still s).bind_cases h₄ with ⟨e, rfl, rfl⟩ | ⟨_, hasset, h₅⟩
      · exact .refused e
      have hvalid : isValidAsset b.asset = true := by
        simpa using (run_failIf_ok.mp hasset).1
      obtain ⟨r₁, s₁, hdisp, hmap⟩ := run_handle_eq_some.mp h₅
      cases hmap
      have hout := dispatch_outcome hD hg hi ⟨hv, hhash, ha, hp, hvalid⟩ hdisp
      cases r₁ with
      | ok _ => exact .handled hknown hv hvalid hout
      | error e =>
        cases hout with
        | refused forced => exact .handled hknown hv hvalid (.refused forced)
    cases hsib : detectConflictSibling (s.store.chains.get b.account) b with
    | none =>
      simp only [hsib] at h₁
      exact uncontested h₁
    | some sibling =>
      simp only [hsib] at h₁
      by_cases hne : sibling ≠ []
      · rw [if_pos hne] at h₁
        rcases stageConflict_cases hi.caches.keyed (hi.conflicts b.account b.previous) h₁ with
          ⟨e, rfl, rfl⟩ | ⟨rfl, hvalid, ht, cf, rfl, hacc, hprev, hhashes⟩
        · exact .refused e
        · exact .staged sibling cf hknown hv hvalid ht hsib hacc hprev hhashes
      · rw [if_neg hne] at h₁
        exact uncontested h₁

theorem Adds.dress {b : Block} {r : Except Fault Unit} (hq : s.quiet) (h : Adds c s b r s')
    (L : Lock → Option ℕ) : Adds c (s.dress L none) b r (s'.dress L none) := by
  cases h with
  | refused e => exact .refused e
  | known x known verified => exact .known x known verified
  | staged sibling cf fresh verified asset type found account previous hashes =>
    exact .staged sibling cf fresh verified asset type found account previous hashes
  | handled fresh verified asset outcome =>
    exact .handled fresh verified asset (outcome.dress hq L)

theorem Adds.frame {b : Block} {r : Except Fault Unit} (h : Adds c s b r s') :
    s'.locks = s.locks ∧ s'.mem.activeCascade = s.mem.activeCascade := by
  cases h with
  | refused e => exact ⟨rfl, rfl⟩
  | known x known => exact ⟨rfl, rfl⟩
  | staged sibling cf => exact ⟨rfl, rfl⟩
  | handled fresh verified asset outcome =>
    exact ⟨congrArg Frame.locks outcome.frame.1, outcome.frame.2⟩

/-- **What `addBlock` leaves.** -/
theorem addBlock_cases (hD : IdealHash c.lib D) (hg : GenesisSealed c.lib D c.node.genesis)
    (hi : s.Inv c.node D) {b : Block}
    (hhash : ∀ data, preimage c.lib (submitted c.lib b) = .ok data → c.lib.networkID ++ data ∈ D)
    {skip : Bool} {r : Except Fault Unit} (h : (addBlock c b skip).run s = some (r, s')) :
    Adds c s (submitted c.lib b) r s' := by
  unfold addBlock at h
  rcases ((readOnly_checkForm _ _).still s).bind_cases h with ⟨e, rfl, rfl⟩ | ⟨_, hform, h₁⟩
  · exact .refused e
  have hlower := submitted_lower c.lib b
  have hrun : ∃ ls, (withLocks c.tid ls (addBlockUnderLocks c (submitted c.lib b) skip)).run s =
      some (r, s') := by
    split_ifs at h₁
    · exact ⟨[_, _], h₁⟩
    · exact ⟨[_], h₁⟩
  obtain ⟨ls, hls⟩ := hrun
  obtain ⟨L, s₁, hunder, -, -, hback⟩ := run_withLocks hls
  rw [hi.quiet] at hunder
  have hadds := addBlockUnderLocks_cases hD hg (hi.dress L) hhash hlower.1 hlower.2
    (checkForm_verified hform) hunder
  obtain ⟨hlocks, hactive⟩ := hadds.frame
  have hs := hadds.dress (hi.dress L).quiet s.locks
  rw [dress_dress, dress_quiet hi.quiet] at hs
  rw [hback hlocks, hactive]
  exact hs

/-- The state under the locks that `addBlock` takes for a block. -/
def State.lockedFor (s : State) (tid : ℕ) (b : Block) : State :=
  if isLeaseStateTransition b.type = true ∧ b.source ≠ [] then
    (s.setLock (.account b.account) (some tid)).setLock (.lease b.source) (some tid)
  else s.setLock (.account b.account) (some tid)

theorem addBlock_ok {b : Block} {skip : Bool}
    (h : (addBlock c b skip).run s = some (.ok (), s')) :
    (checkForm c (submitted c.lib b) skip).run s = some (.ok (), s) ∧ ∃ L s₁,
      (addBlockUnderLocks c (submitted c.lib b) skip).run
        (s.lockedFor c.tid (submitted c.lib b)) = some (.ok (), s₁) ∧
          s' = s₁.dress L s₁.mem.activeCascade := by
  unfold addBlock at h
  rcases ((readOnly_checkForm _ _).still s).bind_cases h with ⟨e, he, -⟩ | ⟨u, hform, h₁⟩
  · cases he
  refine ⟨hform, ?_⟩
  obtain ⟨-, s₁, hrun, rfl⟩ := run_withLock_eq_some.mp h₁
  unfold State.lockedFor
  split_ifs at hrun ⊢
  · obtain ⟨-, s₂, hrun₂, rfl⟩ := run_withLock_eq_some.mp hrun
    exact ⟨_, s₂, hrun₂, rfl⟩
  · exact ⟨_, s₁, hrun, rfl⟩

end Add

end Xe
