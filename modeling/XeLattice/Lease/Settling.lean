import XeLattice.Inv.Adding
import XeLattice.Lease.Windows

/-!
# When a settlement is taken

What `AddBlock` and `AddSyncedBlock` ask of a block that settles a lease, by its provider or by
force, and what they leave.

* **`prepare_settlement_iff`**: when the handler of a settlement passes;
* **`addBlock_settlement`**: a settlement alone at its position is written, or leaves no trace.
-/

set_option autoImplicit false

namespace Xe

open Prog

/-! ## What the handlers ask -/

section Settlement

variable (c : Ctx) (v : Reads) (b : Block) (lease : Lease)

/-- The time that a block is attested for. Without `skipSkew` the attestations that are off the
clock do not count. -/
def attestedTime (skipSkew : Bool) : Option Int64 :=
  c.timekeepers.bind fun tk => (validateAttestations c.lib b.attestations b.source tk skipSkew c.now
    c.timing.maxAttestationSkew).toOption

/-- The attested time falls into the window of the settlement. -/
def InTime (skipSkew : Bool) : Prop :=
  ∃ t, attestedTime c b skipSkew = some t ∧
    if b.type = .leaseSettle then SettlesAt c lease t else ForcesAt c lease t

/-- What a settlement by the provider writes. -/
def settleRequest : Prepared :=
  prepared v b { baseCommit v b with
    settleLeaseHash := b.source
    deletePendingID := b.source
    expectLeaseHash := b.source
    expectLeaseState := .accepted
    expectLeaseEffectiveDurationSecs := lease.effectiveDurationSecs
    assetCredit := some ⟨b.account, assetXUSD, lease.stake⟩ }
    (some { kind := .leaseSettled, provider := lease.provider, consumer := lease.consumer,
            timestamp := b.timestamp, durationSecs := lease.duration })

/-- The commit of a forced settlement. -/
def forceRequest : Prepared :=
  prepared v b { baseCommit v b with
    deletePendingID := b.source
    unfulfillLeaseHash := b.source
    expectLeaseHash := b.source
    expectLeaseState := .accepted
    expectLeaseEffectiveDurationSecs := lease.effectiveDurationSecs }
    (some { kind := .leaseUnfulfilled, provider := lease.provider, consumer := b.account,
            timestamp := b.timestamp })

/-- Who is paid what: the provider the emission of the lease, the consumer its escrow. -/
inductive Payment : Prepared → Prop
  | settle (ps : PendingSend) (type : b.type = .leaseSettle) (asset : b.asset = assetXE)
      (provider : lease.provider = b.account) (emission : leaseTotalEmission lease = .ok b.amount)
      (pending : v.pendingOf b.source = some ps)
      (noOverflow : ¬ v.balanceOf b.account assetXE + b.amount < v.balanceOf b.account assetXE)
      (balance : b.balance = v.balanceOf b.account assetXE + b.amount) :
      Payment (settleRequest v b lease)
  | force (leaseBlock : Block) (ps : PendingSend) (type : b.type = .leaseForceSettle)
      (asset : b.asset = assetXUSD) (block : v.blocks.get b.source = some leaseBlock)
      (blockType : leaseBlock.type = .lease) (consumer : leaseBlock.account = b.account)
      (pending : v.pendingOf b.source = some ps)
      (noOverflow : ¬ v.balanceOf b.account assetXUSD + ps.amount <
        v.balanceOf b.account assetXUSD)
      (balance : b.balance = v.balanceOf b.account assetXUSD + ps.amount) :
      Payment (forceRequest v b lease)

/-- What the handler of a settlement asks besides its time. -/
structure Settlement (p : Prepared) : Prop where
  source : b.source ≠ []
  accepted : AcceptedLease v b lease
  extends_ : ∃ chain, v.chainOf b.account = some chain ∧ b.previous = frontier chain ∧
    NotOlder b chain
  payment : Payment v b lease p

end Settlement

section Checks

variable {c : Ctx} {s s' : State} {b : Block} {p : Prepared} {lease : Lease} {α : Type} {a : α}

theorem run_checkAttestations_bind_ok {op : String} {skipSkew : Bool} {k : Int64 → M α} :
    (checkAttestations c b op skipSkew >>= k).run s = some (.ok a, s') ↔
      ∃ t, attestedTime c b skipSkew = some t ∧ (k t).run s = some (.ok a, s') := by
  unfold checkAttestations attestedTime
  rw [Prog.bind_assoc, run_orErr_bind_ok]
  cases c.timekeepers with
  | none => simp
  | some tk =>
    cases hval : validateAttestations c.lib b.attestations b.source tk skipSkew c.now
        c.timing.maxAttestationSkew with
    | error e =>
      refine iff_of_false ?_ ?_
      · rintro ⟨tk', htk, h⟩
        cases htk
        rw [hval] at h
        cases h
      · rintro ⟨t, ht, -⟩
        rw [Option.bind_some, hval] at ht
        cases ht
    | ok t =>
      constructor
      · rintro ⟨tk', htk, h⟩
        cases htk
        rw [hval] at h
        exact ⟨t, by rw [Option.bind_some, hval]; rfl, h⟩
      · rintro ⟨t', ht, h⟩
        rw [Option.bind_some, hval] at ht
        cases ht
        exact ⟨tk, rfl, by rw [hval]; exact h⟩

theorem run_checkForceWindow_bind_ok {t : Int64} {k : Unit → M α} :
    (checkForceWindow c lease t >>= k).run s = some (.ok a, s') ↔
      ForcesAt c lease t ∧ (k ()).run s = some (.ok a, s') := by
  rw [forcesAt_iff]
  unfold checkForceWindow
  dsimp only
  rw [Prog.bind_assoc, run_failIf_bind_ok, run_failIf_bind_ok, Int64.not_lt, ge_iff_le,
    Int64.not_le, Int64.le_iff_toInt_le, Int64.lt_iff_toInt_lt, and_assoc]

theorem run_checkSettleWindow_bind_ok {t : Int64} {skipSkew : Bool} {k : Unit → M α} :
    (checkSettleWindow c lease t skipSkew >>= k).run s = some (.ok a, s') ↔
      SettlesAt c lease t ∧ (k ()).run s = some (.ok a, s') := by
  rw [settlesAt_iff]
  unfold checkSettleWindow
  dsimp only
  rw [Prog.bind_assoc, run_failIf_bind_ok, run_failIf_bind_ok, Int64.not_lt, gt_iff_lt,
    Int64.not_lt, Int64.le_iff_toInt_le, Int64.le_iff_toInt_le, and_assoc]

theorem run_checkEmission_bind_ok {skipSkew : Bool} {k : Unit → M α} :
    (checkEmission b lease skipSkew >>= k).run s = some (.ok a, s') ↔
      leaseTotalEmission lease = .ok b.amount ∧ (k ()).run s = some (.ok a, s') := by
  unfold checkEmission
  rw [Prog.bind_assoc, run_liftErr_bind_ok]
  constructor
  · rintro ⟨x, hx, h⟩
    rw [run_failIf_bind_ok, not_not] at h
    exact ⟨h.1 ▸ hx, h.2⟩
  · rintro ⟨hx, h⟩
    exact ⟨_, hx, by rw [run_failIf_bind_ok]; exact ⟨not_not.mpr rfl, h⟩⟩

theorem prepareLeaseSettle_iff {skipSkew : Bool} (ht : b.type = .leaseSettle) :
    (prepareLeaseSettle c b skipSkew).run s = some (.ok p, s') ↔
      s' = s ∧ ∃ lease, Settlement s.reads b lease p ∧ InTime c b lease skipSkew := by
  simp only [prepareLeaseSettle, run_failIf_bind_ok, not_not, run_checkSettleable_bind_ok,
    run_checkAttestations_bind_ok, run_checkSettleWindow_bind_ok, run_checkEmission_bind_ok,
    run_getPendingSendOverlay_bind, run_orErr_bind_ok, run_checkExtends_bind_ok,
    run_getAssetBalanceOverlay_bind, run_checkBalance_bind_ok, run_prepareBlockWrite_bind, run_pure]
  constructor
  · rintro ⟨hx, hsrc, lease, hacc, hprov, t, hat, hwin, hem, ps, hps, chain, hc, hp, ho, hn, hb, h⟩
    cases h
    refine ⟨rfl, lease, ⟨hsrc, hacc, ⟨chain, hc, hp, ho⟩, ?_⟩, t, hat, ?_⟩
    · exact .settle ps ht hx hprov hem hps hn hb
    · rw [if_pos ht]
      exact hwin
  · rintro ⟨rfl, lease, ⟨hsrc, hacc, ⟨chain, hc, hp, ho⟩, hpay⟩, t, hat, hwin⟩
    rw [if_pos ht] at hwin
    cases hpay with
    | settle ps _ hx hprov hem hps hn hb =>
      exact ⟨hx, hsrc, lease, hacc, hprov, t, hat, hwin, hem, ps, hps, chain, hc, hp, ho, hn, hb,
        rfl⟩
    | force _ _ type => exact absurd (ht.symm.trans type) (by decide)

theorem prepareLeaseForceSettle_iff {skipSkew : Bool} (ht : b.type = .leaseForceSettle) :
    (prepareLeaseForceSettle c b skipSkew).run s = some (.ok p, s') ↔
      s' = s ∧ ∃ lease, Settlement s.reads b lease p ∧ InTime c b lease skipSkew := by
  have hne : b.type ≠ .leaseSettle := by rw [ht]; decide
  simp only [prepareLeaseForceSettle, run_failIf_bind_ok, not_not, run_checkLeaseBlock_bind_ok,
    run_checkAccepted_bind_ok, run_checkAttestations_bind_ok, run_checkForceWindow_bind_ok,
    run_getPendingSendOverlay_bind, run_orErr_bind_ok, run_checkExtends_bind_ok,
    run_getAssetBalanceOverlay_bind, run_checkBalance_bind_ok, run_prepareBlockWrite_bind, run_pure]
  constructor
  · rintro ⟨hx, hsrc, lb, hlb, hlt, hcons, lease, hacc, t, hat, hwin, ps, hps, chain, hc, hp, ho,
      hn, hb, h⟩
    cases h
    refine ⟨rfl, lease, ⟨hsrc, hacc, ⟨chain, hc, hp, ho⟩, ?_⟩, t, hat, ?_⟩
    · exact .force lb ps ht hx hlb hlt hcons hps hn hb
    · rw [if_neg hne]
      exact hwin
  · rintro ⟨rfl, lease, ⟨hsrc, hacc, ⟨chain, hc, hp, ho⟩, hpay⟩, t, hat, hwin⟩
    rw [if_neg hne] at hwin
    cases hpay with
    | settle _ type => exact absurd type hne
    | force lb ps _ hx hlb hlt hcons hps hn hb =>
      exact ⟨hx, hsrc, lb, hlb, hlt, hcons, lease, hacc, t, hat, hwin, ps, hps, chain, hc, hp, ho,
        hn, hb, rfl⟩

end Checks

/-! ## The whole call -/

/-- A settlement of either kind. -/
def SettlesLease (b : Block) : Prop :=
  b.type = .leaseSettle ∨ b.type = .leaseForceSettle

section Calls

variable {c : Ctx} {s s' : State} {b : Block} {p : Prepared} {lease : Lease} {skip : Bool}

/-- **When the handler of a settlement passes.** -/
theorem prepare_settlement_iff (ht : SettlesLease b) :
    (prepare c b skip).run s = some (.ok p, s') ↔
      s' = s ∧ ∃ lease, Settlement s.reads b lease p ∧ InTime c b lease skip := by
  rcases ht with ht | ht
  · rw [← prepareLeaseSettle_iff ht, prepare, ht]
  · rw [← prepareLeaseForceSettle_iff ht, prepare, ht]

theorem prepare_settlement_run (c : Ctx) (skip : Bool) (ht : SettlesLease b) (s : State) :
    ∃ r, (prepare c b skip).run s = some (r, s) := by
  have hne : b.type ≠ .leaseCancel := by
    rcases ht with ht | ht <;> rw [ht] <;> decide
  exact (readOnly_prepare c b skip hne).exists_run s

/-- A commit that changes no pending entry but the one it deletes, and only the record of a lease that
is as it expects. -/
theorem applyCommit_of_lease {st : Store} {cm : BlockCommit} {l : Lease}
    (hl : st.leases.get b.source = some l) (hadd : cm.addPending = none) (hput : cm.putLease = none)
    (htop : cm.topUpPendingID = [])
    (hcas : Store.casLease (str "CommitBlock: ") (st.leases.get cm.expectLeaseHash) cm = .ok ())
    (hsettle : cm.settleLeaseHash = [] ∨ cm.settleLeaseHash = b.source)
    (hcancel : cm.cancelLeaseHash = [])
    (hforce : cm.unfulfillLeaseHash = [] ∨ cm.unfulfillLeaseHash = b.source) :
    ∃ st', st.applyCommit cm = .ok st' := by
  -- one change of a record that is there, or none
  have one : ∀ (st : Store) verb h f, (st.leases.get b.source).isSome →
      (h = [] ∨ h = b.source) → ∃ st', st.changeLease verb h f = .ok st' ∧
        (st'.leases.get b.source).isSome := by
    intro st verb h f hsome hh
    unfold Store.changeLease
    by_cases hnil : h = []
    · exact ⟨st, if_pos hnil, hsome⟩
    · obtain rfl := hh.resolve_left hnil
      obtain ⟨x, hx⟩ := Option.isSome_iff_exists.mp hsome
      refine ⟨{ st with leases := st.leases.set b.source (f x) }, ?_, ?_⟩
      · rw [if_neg hnil, hx]
      · simp
  have all : ∀ st : Store, (st.leases.get b.source).isSome →
      ∃ st', st.changeLeases cm = .ok st' := by
    intro st hsome
    obtain ⟨st₁, h₁, hs₁⟩ := one st "settle" cm.settleLeaseHash
      (fun l => { l with settled := true, state := .settled }) hsome hsettle
    obtain ⟨st₂, h₂, hs₂⟩ := one st₁ "cancel" cm.cancelLeaseHash
      (fun l => { l with state := .cancelled }) hs₁ (.inl hcancel)
    obtain ⟨st₃, h₃, -⟩ := one st₂ "force-settle" cm.unfulfillLeaseHash
      (fun l => { l with settled := true, state := .unfulfilled }) hs₂ hforce
    refine ⟨st₃, ?_⟩
    unfold Store.changeLeases
    rw [h₁]
    change (do let st ← st₁.changeLease "cancel" cm.cancelLeaseHash _; _) = _
    rw [h₂]
    exact h₃
  have hescrow : ∃ st', (st.putBlock cm).putEscrow cm = .ok st' := by
    unfold Store.putEscrow
    rw [hadd, hput, htop]
    have hsome : ((st.putBlock cm).leases.get b.source).isSome := by
      change (st.leases.get b.source).isSome
      rw [hl]
      rfl
    cases (st.putBlock cm).kind with
    | mem =>
      have hdel : (((st.putBlock cm).deletePending cm.deletePendingID).leases.get
          b.source).isSome := by
        unfold Store.deletePending
        split_ifs <;> exact hsome
      exact all _ hdel
    | badger =>
      obtain ⟨st', hst'⟩ := all _ hsome
      refine ⟨st'.deletePending cm.deletePendingID, ?_⟩
      change (do let st ← (st.putBlock cm).changeLeases cm; _) = _
      rw [hst']
      rfl
  obtain ⟨st', hst'⟩ := hescrow
  refine ⟨st'.putAccountData cm, ?_⟩
  unfold Store.applyCommit
  rw [hcas]
  change (do let st ← (st.putBlock cm).putEscrow cm; Except.ok (st.putAccountData cm)) = _
  rw [hst']
  rfl

theorem Settlement.request_eq (h : Settlement s.reads b lease p) :
    p.commit.addPending = none ∧ p.commit.putLease = none ∧ p.commit.topUpPendingID = [] ∧
      p.commit.cancelLeaseHash = [] ∧ p.commit.expectLeaseHash = b.source ∧
      p.commit.expectLeaseState = .accepted ∧
      p.commit.expectLeaseEffectiveDurationSecs = lease.effectiveDurationSecs ∧
      (p.commit.settleLeaseHash = [] ∨ p.commit.settleLeaseHash = b.source) ∧
      (p.commit.unfulfillLeaseHash = [] ∨ p.commit.unfulfillLeaseHash = b.source) ∧
      p.commit.deletePendingID = b.source := by
  cases h.payment with
  | settle => exact ⟨rfl, rfl, rfl, rfl, rfl, rfl, rfl, .inr rfl, .inl rfl, rfl⟩
  | force => exact ⟨rfl, rfl, rfl, rfl, rfl, rfl, rfl, .inl rfl, .inr rfl, rfl⟩

theorem Settlement.finishWrite (hq : s.quiet) (h : Settlement s.reads b lease p) :
    (finishWrite p).run s = some (.ok (), s.committed p) := by
  obtain ⟨hadd, hput, htop, hcancel, hexp, hstate, hdur, hsettle, hforce, -⟩ := h.request_eq
  have hl : s.store.leases.get b.source = some lease := by
    rw [← hq.leaseOf]
    exact h.accepted.record
  have hcas : Store.casLease (str "CommitBlock: ") (s.store.leases.get p.commit.expectLeaseHash)
      p.commit = .ok () := by
    unfold Store.casLease
    rw [hexp, hl, hstate, hdur, if_neg h.source]
    simp [h.accepted.state]
  have hreq : ∃ st, s.store.applyCommit (p.request s) = .ok st := by
    unfold Prepared.request BlockCommit.withDelegation
    dsimp only
    split_ifs <;> exact applyCommit_of_lease hl hadd hput htop hcas hsettle hcancel hforce
  obtain ⟨st, hst⟩ := hreq
  have hactive : ∀ cb, s.mem.activeCascade = some cb → cb.winnerHash ≠ p.commit.block.hash := by
    intro cb hcb
    rw [State.quiet] at hq
    rw [hq] at hcb
    cases hcb
  rw [run_finishWrite_alone hactive, hst]
  have hx : (p.request s).deletePendingID = [] ∨ (p.request s).topUpPendingID = [] :=
    withDelegation_exclusive p.commit (.inr htop)
  rw [(Store.applyCommit_ok hx hst).2]
  rfl

theorem exists_run_verifyBlockCredential (lib : Lib) (b : Block) (s : State) :
    ∃ r s', (verifyBlockCredential lib b).run s = some (r, s') :=
  NeverBlocks.exists_run (CredentialActions.each_verifyBlockCredential
    ⟨fun _ _ _ => nofun, fun _ _ _ => nofun, fun _ _ _ => nofun, fun _ _ _ => nofun⟩ lib b) s

theorem ignores_verifyBlockCredential (L : Lock → Option ℕ) (lib : Lib) (b : Block) :
    (verifyBlockCredential lib b).Ignores fun s => s.dress L s.mem.activeCascade :=
  CredentialActions.each_verifyBlockCredential
    ⟨fun _ _ _ => rfl, fun _ _ _ => rfl, fun _ _ _ => rfl, fun _ _ _ => rfl⟩ lib b

/-- Under its locks the call of a settlement passes all its checks, with this request. -/
structure Passes (c : Ctx) (b : Block) (skip : Bool) (s : State) (p : Prepared) : Prop where
  credential : (verifyBlockCredential c.lib b).run s = some (.ok (), s)
  uncontested : ¬ ∃ k ∈ s.store.conflicts.keys, k.1 = b.account
  handler : ∃ lease, Settlement s.reads b lease p ∧ InTime c b lease skip

/-- The block is new and no block of its chain has its position. -/
structure Lone (s : State) (b : Block) : Prop where
  fresh : s.store.blocks.get b.hash = none
  alone : detectConflictSibling (s.store.chains.get b.account) b = none

instance (s : State) (b : Block) : Decidable (Lone s b) :=
  decidable_of_iff (s.store.blocks.get b.hash = none ∧
    detectConflictSibling (s.store.chains.get b.account) b = none)
    ⟨fun h => ⟨h.1, h.2⟩, fun h => ⟨h.fresh, h.alone⟩⟩

theorem isValidAsset_of_payment {v : Reads} (h : Payment v b lease p) :
    isValidAsset b.asset = true := by
  cases h with
  | settle _ _ asset =>
    rw [asset]
    decide
  | force _ _ _ asset =>
    rw [asset]
    decide

/-- The program writes the settlement, or refuses it without a trace. -/
def Decides (c : Ctx) (b : Block) (skip : Bool) (q : M Unit) (s : State) : Prop :=
  (∃ p, Passes c b skip s p ∧ q.run s = some (.ok (), s.committed p)) ∨
    (¬ ∃ p, Passes c b skip s p) ∧ ∃ e, q.run s = some (.error e, s)

theorem addBlockUnderLocks_decides (ht : SettlesLease b) (hq : s.quiet) (hk : s.book.Keyed)
    (hlone : Lone s b) : Decides c b skip (addBlockUnderLocks c b skip) s := by
  unfold Decides
  unfold addBlockUnderLocks
  rw [run_bind_of_ok (run_getBlock s b.hash)]
  simp only [hlone.fresh]
  obtain ⟨r, s₁, hcred⟩ := exists_run_verifyBlockCredential c.lib b s
  obtain rfl := still_verifyBlockCredential hk c.lib b _ _ hcred
  cases r with
  | error e =>
    refine .inr ⟨?_, e, run_bind_of_error hcred⟩
    rintro ⟨p, hp⟩
    have hok := hp.credential
    rw [hcred] at hok
    cases hok
  | ok u =>
    rw [run_bind_of_ok hcred, run_bind_of_ok (run_getAccountChain s₁ b.account)]
    simp only [hlone.alone, addBlockUnderLocks.addUncontested]
    have hconf : (hasConflicts b.account).run s₁ =
        some (.ok (decide (∃ k ∈ s₁.store.conflicts.keys, k.1 = b.account)), s₁) := rfl
    rw [run_bind_of_ok hconf]
    unfold failIf
    rw [run_failIf_bind]
    by_cases hcontested : ∃ k ∈ s₁.store.conflicts.keys, k.1 = b.account
    · rw [if_pos (decide_eq_true hcontested)]
      refine .inr ⟨?_, _, rfl⟩
      rintro ⟨p, hp⟩
      exact hp.uncontested hcontested
    rw [if_neg (by simpa using hcontested), run_failIf_bind, run_failIf_bind]
    obtain ⟨r, hprep⟩ := prepare_settlement_run c skip ht s₁
    have hdisp : (dispatchValidateAndAdd c b skip).run s₁ =
        (prepare c b skip >>= finishWrite).run s₁ := by
      unfold dispatchValidateAndAdd
      rw [run_bind_of_ok hcred, validateAndAdd_eq]
    cases r with
    | error e =>
      -- whatever fails first, the handler would not have passed
      refine .inr ⟨?_, ?_⟩
      · rintro ⟨p, hp⟩
        have hok : (prepare c b skip).run s₁ = some (.ok p, s₁) :=
          (prepare_settlement_iff ht).mpr ⟨rfl, hp.handler⟩
        rw [hprep] at hok
        cases hok
      · split_ifs
        · exact ⟨_, rfl⟩
        · exact ⟨_, rfl⟩
        · refine ⟨nameUnknownType b e, ?_⟩
          rw [run_handle, hdisp, run_bind_of_error hprep]
          rfl
    | ok p =>
      obtain ⟨-, hhandler⟩ := (prepare_settlement_iff ht).mp hprep
      obtain ⟨lease, hset, -⟩ := id hhandler
      have hvalid := isValidAsset_of_payment hset.payment
      have hne : b.asset ≠ [] := by
        intro hnil
        rw [hnil] at hvalid
        exact absurd hvalid (by decide)
      refine .inl ⟨p, ⟨hcred, hcontested, hhandler⟩, ?_⟩
      rw [if_neg hne, if_neg (by rw [hvalid]; decide), run_handle, hdisp, run_bind_of_ok hprep,
        hset.finishWrite hq]
      rfl

theorem setLock_eq_dress (hq : s.quiet) (l : Lock) (o : Option ℕ) :
    s.setLock l o = s.dress (Function.update s.locks l o) none := by
  rw [State.quiet] at hq
  rw [← hq]
  rfl

theorem committed_setLock (hq : s.quiet) (p : Prepared) (l : Lock) (o : Option ℕ) :
    (s.setLock l o).committed p = (s.committed p).setLock l o := by
  have hq' : (s.committed p).quiet := (committed_activeCascade s p).trans hq
  have hlocks : (s.committed p).locks = s.locks := congrArg Frame.locks (committed_frame s p)
  rw [setLock_eq_dress hq, committed_dress hq, setLock_eq_dress hq', hlocks]

theorem passes_setLock (hk : s.book.Keyed) (l : Lock) (o : Option ℕ) :
    Passes c b skip (s.setLock l o) p ↔ Passes c b skip s p := by
  obtain ⟨r, s₁, hrun⟩ := exists_run_verifyBlockCredential c.lib b s
  obtain rfl := still_verifyBlockCredential hk c.lib b _ _ hrun
  have hcred := (ignores_verifyBlockCredential (Function.update s₁.locks l o) c.lib b).run s₁
  rw [hrun] at hcred
  change (verifyBlockCredential c.lib b).run (s₁.setLock l o) = some (r, s₁.setLock l o) at hcred
  constructor
  · rintro ⟨hok, hcon, hhandler⟩
    rw [hcred] at hok
    cases hok
    exact ⟨hrun, hcon, hhandler⟩
  · rintro ⟨hok, hcon, hhandler⟩
    rw [hrun] at hok
    cases hok
    exact ⟨hcred, hcon, hhandler⟩

theorem Decides.withLock {q : M Unit} {tid : ℕ} {l : Lock} (hq : s.quiet) (hk : s.book.Keyed)
    (hl : s.locks l = none) (h : Decides c b skip q (s.setLock l (some tid))) :
    Decides c b skip (withLock tid l q) s := by
  rcases h with ⟨p, hp, hrun⟩ | ⟨hno, e, hrun⟩
  · refine .inl ⟨p, (passes_setLock hk l _).mp hp, run_withLock_eq_some.mpr ⟨hl, _, hrun, ?_⟩⟩
    rw [committed_setLock hq]
    exact (s.committed p).setLock_same
      ((congrFun (congrArg Frame.locks (committed_frame s p)) l).trans hl) _
  · refine .inr ⟨fun ⟨p, hp⟩ => hno ⟨p, (passes_setLock hk l _).mpr hp⟩, e, ?_⟩
    exact run_withLock_eq_some.mpr ⟨hl, _, hrun, s.setLock_same hl _⟩

/-- **The call of a settlement that is alone at its position**: it is written, or refused without a
trace. -/
theorem addBlock_settlement (skip : Bool) (ht : SettlesLease (submitted c.lib b)) (hq : s.quiet)
    (hk : s.book.Keyed) (hlone : Lone s (submitted c.lib b))
    (haccount : s.locks (.account (submitted c.lib b).account) = none)
    (hlease : (submitted c.lib b).source ≠ [] →
      s.locks (.lease (submitted c.lib b).source) = none) :
    (∃ p, (checkForm c (submitted c.lib b) skip).run s = some (.ok (), s) ∧
        Passes c (submitted c.lib b) skip s p ∧
        (addBlock c b skip).run s = some (.ok (), s.committed p)) ∨
      (¬ ∃ p, (checkForm c (submitted c.lib b) skip).run s = some (.ok (), s) ∧
        Passes c (submitted c.lib b) skip s p) ∧
        ∃ e, (addBlock c b skip).run s = some (.error e, s) := by
  unfold addBlock
  dsimp only
  generalize submitted c.lib b = b at *
  obtain ⟨r, hform⟩ := (readOnly_checkForm b skip).exists_run s
  cases r with
  | error e =>
    refine .inr ⟨fun ⟨p, hp, _⟩ => ?_, e, run_bind_of_error hform⟩
    rw [hform] at hp
    cases hp
  | ok u =>
    rw [run_bind_of_ok hform]
    have hdecides : Decides c b skip (withLock c.tid (.account b.account)
        (if isLeaseStateTransition b.type = true ∧ b.source ≠ [] then
          withLock c.tid (.lease b.source) (addBlockUnderLocks c b skip)
        else addBlockUnderLocks c b skip)) s := by
      refine Decides.withLock hq hk haccount ?_
      split_ifs with hcase
      · exact Decides.withLock hq hk (by simpa [State.setLock] using hlease hcase.2)
          (addBlockUnderLocks_decides ht hq hk ⟨hlone.fresh, hlone.alone⟩)
      · exact addBlockUnderLocks_decides ht hq hk ⟨hlone.fresh, hlone.alone⟩
    rcases hdecides with ⟨p, hp, hrun⟩ | ⟨hno, hrun⟩
    · exact .inl ⟨p, hform, hp, hrun⟩
    · exact .inr ⟨fun ⟨p, _, hp⟩ => hno ⟨p, hp⟩, hrun⟩

theorem addBlock_locks {r : Except Fault Unit} (ht : SettlesLease (submitted c.lib b))
    (hform : (checkForm c (submitted c.lib b) skip).run s = some (.ok (), s))
    (h : (addBlock c b skip).run s = some (r, s')) :
    s.locks (.account (submitted c.lib b).account) = none ∧
      ((submitted c.lib b).source ≠ [] → s.locks (.lease (submitted c.lib b).source) = none) := by
  have htrans : isLeaseStateTransition (submitted c.lib b).type = true := by
    rcases ht with ht | ht <;> rw [ht] <;> rfl
  unfold addBlock at h
  rw [run_bind_of_ok hform] at h
  obtain ⟨haccount, s₁, hrun, -⟩ := run_withLock_eq_some.mp h
  refine ⟨haccount, fun hsource => ?_⟩
  rw [if_pos ⟨htrans, hsource⟩] at hrun
  simpa [State.setLock] using (run_withLock_eq_some.mp hrun).1

end Calls

end Xe
