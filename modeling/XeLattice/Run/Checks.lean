import XeLattice.Run.View

/-!
# What the checks of a handler establish

`Checked c v b p` says what is known when the handler of `b` has passed its checks on the reads `v`
and answered the write request `p`.  Only the checks of a cancel may have moved the state before
that, by unwinding the provider's accept.

* **`prepare_ok`**: what passing them means.
-/

set_option autoImplicit false

namespace Xe

open Prog

/-! ## The request that appends a block -/

/-- The part of a write request that all block types share. -/
def baseCommit (v : Reads) (b : Block) : BlockCommit where
  block := b
  account := b.account
  chain := (v.chainOf b.account).getD [] ++ [b]
  frontierHash := b.hash
  putAccountKey := b.pubKey

@[simp] theorem run_prepareBlockWrite_bind {α : Type} (s : State) (b : Block)
    (k : BlockCommit × UInt64 → M α) :
    (prepareBlockWrite b >>= k).run s =
      (k (baseCommit s.reads b, s.balanceOf b.account assetXE)).run s := by
  unfold prepareBlockWrite
  rw [Prog.bind_assoc, run_getAccountChainOverlay_bind, Prog.bind_assoc,
    run_getAssetBalanceOverlay_bind]
  rfl

/-- The answer of the checks of `b`: its own changes on top of the shared part. -/
def prepared (v : Reads) (b : Block) (commit : BlockCommit)
    (event : Option ReputationEvent := none) : Prepared where
  commit := commit
  prevBalance := v.balanceOf b.account assetXE
  event := event

/-- The block is not older than the last one of its chain. -/
def NotOlder (b : Block) (chain : AccountChain) : Prop :=
  ∀ t ∈ lastTimestamp chain, ¬ b.timestamp < t

/-- The balance a block adds to: zero on an account without a chain. -/
def Reads.openBalance (v : Reads) (account asset : Str) : UInt64 :=
  if (v.chainOf account).isSome then v.balanceOf account asset else 0

/-- The block spends `b.amount` of an asset. -/
structure Spends (v : Reads) (b : Block) (asset : Str) : Prop where
  enough : ¬ b.amount > v.balanceOf b.account asset
  balance : b.balance = v.balanceOf b.account asset - b.amount

/-- The block adds an amount to the account's balance of an asset. -/
structure Earns (v : Reads) (b : Block) (asset : Str) (amount : UInt64) : Prop where
  noOverflow : ¬ v.openBalance b.account asset + amount < v.openBalance b.account asset
  balance : b.balance = v.openBalance b.account asset + amount

/-- The lease record that a block works on is accepted. -/
structure AcceptedLease (v : Reads) (b : Block) (lease : Lease) : Prop where
  record : v.leaseOf b.source = some lease
  settled : lease.settled = false
  state : lease.state = .accepted

/-! ## What a handler has checked -/

/-- What is known once the checks of a block's handler have passed, and the request they answer. -/
inductive Checked (c : Ctx) (v : Reads) (b : Block) : Prepared → Prop
  | send (type : b.type = .send) (amount : b.amount ≠ 0) (spends : Spends v b b.asset)
      (destination : b.destination ≠ []) (notSelf : b.destination ≠ b.account) :
      Checked c v b (prepared v b { baseCommit v b with
        addPending := some ⟨b.hash, b.account, b.destination, b.amount, b.asset⟩ })
  | burn (type : b.type = .burn) (asset : b.asset = assetXE) (amount : b.amount ≠ 0)
      (spends : Spends v b b.asset) :
      Checked c v b (prepared v b (baseCommit v b))
  | receive (ps : PendingSend) (type : b.type = .receive) (source : b.source ≠ [])
      (pending : v.pendingOf b.source = some ps) (destination : ps.destination = b.account)
      (notLive : isLive (v.leaseOf b.source) = false) (asset : b.asset = assetOrXE ps.asset)
      (earns : Earns v b b.asset ps.amount) :
      Checked c v b (prepared v b { baseCommit v b with deletePendingID := b.source })
  | mint (type : b.type = .mint) (asset : b.asset = assetXUSD) (amount : b.amount ≠ 0)
      (minter : isMinter c b.account = true) (earns : Earns v b b.asset b.amount) :
      Checked c v b (prepared v b (baseCommit v b))
  | genesis (type : b.type = .genesis) (empty : v.blocks.keys = ∅)
      (hash : b.hash = c.node.genesis.hash) :
      Checked c v b (prepared v b (baseCommit v b))
  | multisigOpen (ks : Keyset) (type : b.type = .multisigOpen) (keyset : b.msKeyset = some ks)
      (valid : validateKeyset ks = .ok ()) (unopened : v.chainOf b.account = none)
      (balance : b.balance = 0) :
      Checked c v b (prepared v b { baseCommit v b with putKeyset := some ks })
  | multisigUpdate (ks : Keyset) (type : b.type = .multisigUpdate) (keyset : b.msKeyset = some ks)
      (valid : validateKeyset ks = .ok ()) (opened : (v.chainOf b.account).isSome)
      (balance : b.balance = v.balanceOf b.account b.asset) :
      Checked c v b (prepared v b { baseCommit v b with putKeyset := some ks })
  | lease (lookup : Str → Option CertificateInfo) (cert : CertificateInfo) (type : b.type = .lease)
      (asset : b.asset = assetXUSD) (destination : b.destination ≠ [])
      (notSelf : b.destination ≠ b.account) (certificates : c.certificateLookup = some lookup)
      (certificate : lookup b.certificateHash = some cert) (spends : Spends v b assetXUSD) :
      Checked c v b (prepared v b { baseCommit v b with
        addPending := some ⟨b.hash, b.account, b.destination, b.amount, assetXUSD⟩
        putLease := some (leaseRecord b) })
  | leaseAccept (leaseBlock : Block) (startTime : Int64) (type : b.type = .leaseAccept)
      (asset : b.asset = assetXUSD) (source : b.source ≠ [])
      (block : v.blocks.get b.source = some leaseBlock) (blockType : leaseBlock.type = .lease)
      (provider : leaseBlock.destination = b.account)
      (created : ∀ l, v.leaseOf b.source = some l → l.state = .created)
      (stake : b.amount = leaseStake leaseBlock.amount) (spends : Spends v b assetXUSD)
      (attested : ∃ a ∈ b.attestations, a.timestamp = startTime) :
      Checked c v b (prepared v b { baseCommit v b with
        expectLeaseHash := b.source
        expectLeaseState := .created
        putLease := some (acceptedRecord b leaseBlock startTime) }
        (some { kind := .leaseAccepted, provider := b.account, consumer := leaseBlock.account,
                timestamp := startTime }))
  | leaseCancel (leaseBlock : Block) (ps : PendingSend) (type : b.type = .leaseCancel)
      (asset : b.asset = assetXUSD) (source : b.source ≠ [])
      (block : v.blocks.get b.source = some leaseBlock) (blockType : leaseBlock.type = .lease)
      (consumer : leaseBlock.account = b.account) (pending : v.pendingOf b.source = some ps)
      (balance : b.balance = v.balanceOf b.account assetXUSD + leaseBlock.amount) :
      Checked c v b (prepared v b { baseCommit v b with
        deletePendingID := b.source
        cancelLeaseHash := b.source
        expectLeaseHash := b.source
        expectLeaseState := .created }
        (some { kind := .leaseCancelled, provider := leaseBlock.destination, consumer := b.account,
                timestamp := b.timestamp }))
  | leaseForceSettle (leaseBlock : Block) (lease : Lease) (ps : PendingSend)
      (type : b.type = .leaseForceSettle) (asset : b.asset = assetXUSD) (source : b.source ≠ [])
      (block : v.blocks.get b.source = some leaseBlock) (blockType : leaseBlock.type = .lease)
      (consumer : leaseBlock.account = b.account) (accepted : AcceptedLease v b lease)
      (pending : v.pendingOf b.source = some ps)
      (noOverflow : ¬ v.balanceOf b.account assetXUSD + ps.amount <
        v.balanceOf b.account assetXUSD)
      (balance : b.balance = v.balanceOf b.account assetXUSD + ps.amount) :
      Checked c v b (prepared v b { baseCommit v b with
        deletePendingID := b.source
        unfulfillLeaseHash := b.source
        expectLeaseHash := b.source
        expectLeaseState := .accepted
        expectLeaseEffectiveDurationSecs := lease.effectiveDurationSecs }
        (some { kind := .leaseUnfulfilled, provider := lease.provider, consumer := b.account,
                timestamp := b.timestamp }))
  | leaseSettle (lease : Lease) (ps : PendingSend) (type : b.type = .leaseSettle)
      (asset : b.asset = assetXE) (source : b.source ≠ []) (accepted : AcceptedLease v b lease)
      (provider : lease.provider = b.account) (pending : v.pendingOf b.source = some ps)
      (noOverflow : ¬ v.balanceOf b.account assetXE + b.amount < v.balanceOf b.account assetXE)
      (balance : b.balance = v.balanceOf b.account assetXE + b.amount) :
      Checked c v b (prepared v b { baseCommit v b with
        settleLeaseHash := b.source
        deletePendingID := b.source
        expectLeaseHash := b.source
        expectLeaseState := .accepted
        expectLeaseEffectiveDurationSecs := lease.effectiveDurationSecs
        assetCredit := some ⟨b.account, assetXUSD, lease.stake⟩ }
        (some { kind := .leaseSettled, provider := lease.provider, consumer := lease.consumer,
                timestamp := b.timestamp, durationSecs := lease.duration }))
  | leaseRenew (lease : Lease) (ps : PendingSend) (renewTime : Int64)
      (type : b.type = .leaseRenew) (asset : b.asset = assetXUSD) (source : b.source ≠ [])
      (accepted : AcceptedLease v b lease) (consumer : lease.consumer = b.account)
      (pending : v.pendingOf b.source = some ps) (spends : Spends v b assetXUSD) :
      Checked c v b (prepared v b { baseCommit v b with
        topUpPendingID := b.source
        topUpPendingAmount := b.amount
        putLease := some { lease with renewals := lease.renewals ++ [renewSegment b renewTime] }
        expectLeaseHash := b.source
        expectLeaseState := .accepted
        expectLeaseEffectiveDurationSecs := lease.effectiveDurationSecs })

/-- The block extends the chain the handlers see. -/
structure Extends (v : Reads) (b : Block) : Prop where
  previous : b.previous = frontier ((v.chainOf b.account).getD [])
  notOlder : NotOlder b ((v.chainOf b.account).getD [])

/-! ## The checks one by one -/

section Steps

variable {α : Type} {s s' : State} {b : Block} {a : α}

@[simp] theorem run_checkTimestamp_bind_ok {chain : AccountChain} {k : Unit → M α} :
    (checkTimestamp b chain >>= k).run s = some (.ok a, s') ↔
      NotOlder b chain ∧ (k ()).run s = some (.ok a, s') := by
  unfold checkTimestamp NotOlder
  cases lastTimestamp chain with
  | none => simp
  | some t => simp

@[simp] theorem run_checkPrevious_bind_ok {chain : AccountChain} {k : Unit → M α} :
    (checkPrevious b chain >>= k).run s = some (.ok a, s') ↔
      b.previous = frontier chain ∧ (k ()).run s = some (.ok a, s') := by
  simp [checkPrevious]

@[simp] theorem run_checkBalance_bind_ok {before : Str} {e : UInt64} {k : Unit → M α} :
    (checkBalance before b e >>= k).run s = some (.ok a, s') ↔
      b.balance = e ∧ (k ()).run s = some (.ok a, s') := by
  simp [checkBalance]

@[simp] theorem run_checkExtends_bind_ok {msg : Str} {k : AccountChain → M α} :
    (checkExtends b msg >>= k).run s = some (.ok a, s') ↔
      ∃ chain, s.chainOf b.account = some chain ∧ b.previous = frontier chain ∧
        NotOlder b chain ∧ (k chain).run s = some (.ok a, s') := by
  simp [checkExtends, Prog.bind_assoc]

@[simp] theorem run_checkSpend_bind_ok {asset : Str} {msg : UInt64 → Str} {k : Unit → M α} :
    (checkSpend b asset msg >>= k).run s = some (.ok a, s') ↔
      Spends s.reads b asset ∧ (k ()).run s = some (.ok a, s') := by
  rw [checkSpend, Prog.bind_assoc, run_getAssetBalanceOverlay_bind, Prog.bind_assoc,
    run_failIf_bind_ok, run_checkBalance_bind_ok, ← and_assoc]
  refine and_congr_left fun _ => ?_
  exact ⟨fun h => ⟨h.1, h.2⟩, fun h => ⟨h.enough, h.balance⟩⟩

end Steps

theorem Extends.of_chain {v : Reads} {b : Block} {chain : AccountChain}
    (hc : v.chainOf b.account = some chain) (hp : b.previous = frontier chain)
    (hn : NotOlder b chain) : Extends v b := by
  refine ⟨?_, ?_⟩ <;> rw [hc]
  · exact hp
  · exact hn

theorem Extends.of_unopened {v : Reads} {b : Block} (hc : v.chainOf b.account = none)
    (hp : b.previous = zeroPrev) : Extends v b := by
  refine ⟨?_, ?_⟩ <;> rw [hc]
  · exact hp
  · intro _ ht
    cases ht

section Handlers

variable {c : Ctx} {s s' : State} {b : Block} {p : Prepared}

theorem prepareSend_ok (ht : b.type = .send) (h : (prepareSend b).run s = some (.ok p, s')) :
    s' = s ∧ Extends s.reads b ∧ Checked c s.reads b p := by
  simp only [prepareSend, run_checkExtends_bind_ok, run_getAssetBalanceOverlay_bind,
    run_failIf_bind_ok, run_checkBalance_bind_ok, run_liftErr_bind_ok,
    run_prepareBlockWrite_bind, run_pure] at h
  obtain ⟨chain, hc, hp, hn, hpos, hle, hbal, hd, hs, _, -, h⟩ := h
  cases h
  exact ⟨rfl, .of_chain hc hp hn, .send ht hpos ⟨hle, hbal⟩ hd hs⟩

theorem prepareBurn_ok (ht : b.type = .burn) (h : (prepareBurn b).run s = some (.ok p, s')) :
    s' = s ∧ Extends s.reads b ∧ Checked c s.reads b p := by
  simp only [prepareBurn, run_failIf_bind_ok, run_checkExtends_bind_ok, run_checkSpend_bind_ok,
    run_liftErr_bind_ok, run_prepareBlockWrite_bind, run_pure, not_not] at h
  obtain ⟨hx, -, hpos, chain, hc, hp, hn, hs, _, -, h⟩ := h
  cases h
  exact ⟨rfl, .of_chain hc hp hn, .burn ht hx hpos hs⟩

theorem openBalance_of_unopened {v : Reads} {a x : Str} (hc : v.chainOf a = none) :
    v.openBalance a x = 0 := by
  simp [Reads.openBalance, hc]

theorem openBalance_of_chain {v : Reads} {a x : Str} {chain : AccountChain}
    (hc : v.chainOf a = some chain) : v.openBalance a x = v.balanceOf a x := by
  simp [Reads.openBalance, hc]

/-- An account without a chain starts from nothing, so that any amount fits. -/
theorem Earns.of_unopened {v : Reads} {x : Str} {amount : UInt64}
    (hc : v.chainOf b.account = none) (hb : b.balance = amount) : Earns v b x amount := by
  refine ⟨?_, ?_⟩
  · rw [openBalance_of_unopened hc, UInt64.zero_add]
    exact UInt64.not_lt.mpr (UInt64.zero_le)
  · rw [openBalance_of_unopened hc, UInt64.zero_add, hb]

theorem Earns.of_chain {v : Reads} {x : Str} {amount : UInt64} {chain : AccountChain}
    (hc : v.chainOf b.account = some chain)
    (ho : ¬ v.balanceOf b.account x + amount < v.balanceOf b.account x)
    (hb : b.balance = v.balanceOf b.account x + amount) : Earns v b x amount := by
  refine ⟨?_, ?_⟩
  · rw [openBalance_of_chain hc]
    exact ho
  · rw [openBalance_of_chain hc, hb]

/-- The send a receive consumes is not contested. -/
def Uncontested (s : State) (source : Str) : Prop :=
  ∀ src, (s.store.blocks.get source).or (s.store.staged.get source) = some src →
    s.store.conflicts.get (src.account, src.previous) = none

@[simp] theorem run_checkUncontested_bind_ok {α : Type} {source : Str} {k : Unit → M α} {a : α} :
    (checkUncontested source >>= k).run s = some (.ok a, s') ↔
      Uncontested s source ∧ (k ()).run s = some (.ok a, s') := by
  unfold checkUncontested Uncontested
  rw [Prog.bind_assoc, run_getBlockOrStaged_bind]
  cases (s.store.blocks.get source).or (s.store.staged.get source) with
  | none => simp
  | some src => simp [Prog.bind_assoc]

theorem prepareReceive_ok (ht : b.type = .receive)
    (h : (prepareReceive c b).run s = some (.ok p, s')) :
    s' = s ∧ Extends s.reads b ∧ Checked c s.reads b p := by
  simp only [prepareReceive, run_failIf_bind_ok, run_getPendingSendOverlay_bind,
    run_orErr_bind_ok, run_isLiveLeaseEscrow_bind, not_not, run_checkUncontested_bind_ok,
    run_getAccountChainOverlay_bind, Bool.not_eq_true] at h
  obtain ⟨hsrc, ps, hps, hd, hl, -, hx, h⟩ := h
  cases hc : s.chainOf b.account with
  | none =>
    simp only [hc, checkReceivePosition, checkReceiveBalance, run_failIf_bind_ok, not_not,
      run_getAssetBalanceOverlay_bind, run_checkBalance_bind_ok, run_prepareBlockWrite_bind,
      run_pure] at h
    obtain ⟨hp, hb, h⟩ := h
    cases h
    exact ⟨rfl, .of_unopened hc hp, .receive ps ht hsrc hps hd hl hx (.of_unopened hc hb)⟩
  | some chain =>
    simp only [hc, checkReceivePosition, checkReceiveBalance, run_checkTimestamp_bind_ok,
      Prog.bind_assoc, run_getAssetBalanceOverlay_bind, run_checkPrevious_bind_ok,
      run_failIf_bind_ok, run_checkBalance_bind_ok, run_prepareBlockWrite_bind, run_pure] at h
    obtain ⟨hn, hp, ho, hb, h⟩ := h
    cases h
    exact ⟨rfl, .of_chain hc hp hn, .receive ps ht hsrc hps hd hl hx (.of_chain hc ho hb)⟩

theorem prepareMint_ok (ht : b.type = .mint) (h : (prepareMint c b).run s = some (.ok p, s')) :
    s' = s ∧ Extends s.reads b ∧ Checked c s.reads b p := by
  simp only [prepareMint, run_failIf_bind_ok, not_not, run_getAccountChainOverlay_bind,
    Bool.not_eq_false] at h
  obtain ⟨hx, hm, -, -, hpos, h⟩ := h
  cases hc : s.chainOf b.account with
  | none =>
    simp only [hc, checkMintBalance, Prog.bind_assoc, run_failIf_bind_ok, not_not,
      run_checkBalance_bind_ok, run_prepareBlockWrite_bind, run_pure] at h
    obtain ⟨hp, hb, h⟩ := h
    cases h
    exact ⟨rfl, .of_unopened hc hp, .mint ht hx hpos hm (.of_unopened hc hb)⟩
  | some chain =>
    simp only [hc, checkMintBalance, Prog.bind_assoc, run_checkPrevious_bind_ok,
      run_checkTimestamp_bind_ok, run_getAssetBalanceOverlay_bind, run_failIf_bind_ok,
      run_checkBalance_bind_ok, run_prepareBlockWrite_bind, run_pure] at h
    obtain ⟨hp, hn, ho, hb, h⟩ := h
    cases h
    exact ⟨rfl, .of_chain hc hp hn, .mint ht hx hpos hm (.of_chain hc ho hb)⟩

theorem prepareGenesis_ok (ht : b.type = .genesis)
    (h : (prepareGenesis c b).run s = some (.ok p, s')) : s' = s ∧ Checked c s.reads b p := by
  simp only [prepareGenesis, storeIsEmpty, run_readStore_bind, run_failIf_bind_ok, not_not,
    run_liftErr_bind_ok, run_prepareBlockWrite_bind, run_pure, decide_eq_false_iff_not] at h
  obtain ⟨he, hh, _, -, h⟩ := h
  cases h
  exact ⟨rfl, .genesis ht he hh⟩

@[simp] theorem run_checkKeyset_bind_ok {α : Type} {name : String} {k : Keyset → M α} {a : α} :
    (checkKeyset name b >>= k).run s = some (.ok a, s') ↔
      ∃ ks u, b.msKeyset = some ks ∧ validateKeyset ks = .ok u ∧
        (k ks).run s = some (.ok a, s') := by
  simp [checkKeyset, Prog.bind_assoc, mapError_eq_ok]

theorem prepareMultisigOpen_ok (ht : b.type = .multisigOpen)
    (h : (prepareMultisigOpen c b).run s = some (.ok p, s')) :
    s' = s ∧ Extends s.reads b ∧ Checked c s.reads b p := by
  simp only [prepareMultisigOpen, run_checkKeyset_bind_ok, run_liftFault_bind_ok,
    run_failIf_bind_ok, not_not, run_getAccountChainOverlay_bind, run_prepareBlockWrite_bind,
    run_pure, Bool.not_eq_true, Option.isSome_eq_false_iff, Option.isNone_iff_eq_none] at h
  obtain ⟨ks, _, hks, hv, _, -, -, hc, hp, hb, h⟩ := h
  cases h
  exact ⟨rfl, .of_unopened hc hp, .multisigOpen ks ht hks hv hc hb⟩

theorem prepareMultisigUpdate_ok (ht : b.type = .multisigUpdate)
    (h : (prepareMultisigUpdate b).run s = some (.ok p, s')) :
    s' = s ∧ Extends s.reads b ∧ Checked c s.reads b p := by
  simp only [prepareMultisigUpdate, run_checkKeyset_bind_ok, run_getKeysetOverlay_bind,
    run_failIf_bind_ok, run_checkExtends_bind_ok, run_getAssetBalanceOverlay_bind,
    run_checkBalance_bind_ok, run_prepareBlockWrite_bind, run_pure] at h
  obtain ⟨ks, _, hks, hv, -, chain, hc, hp, hn, hb, h⟩ := h
  cases h
  exact ⟨rfl, .of_chain hc hp hn, .multisigUpdate ks ht hks hv (Option.isSome_of_eq_some hc) hb⟩

/-! ## Parts that only read -/

@[simp] theorem readOnly_readStore {α : Type} (f : Store → α) : (readStore f).ReadOnly :=
  readOnly_rd _

@[simp] theorem readOnly_readMem {α : Type} (f : Memory → α) : (readMem f).ReadOnly :=
  readOnly_rd _

@[simp] theorem readOnly_failIf (p : Prop) [Decidable p] (msg : Str) :
    (failIf p msg).ReadOnly :=
  each_failIf _ _

@[simp] theorem readOnly_orErr {α : Type} (x : Option α) (msg : Str) : (orErr x msg).ReadOnly :=
  each_orFail _ _

@[simp] theorem readOnly_liftErr {α : Type} (before : Str) (x : Except GoError α) :
    (liftErr before x).ReadOnly :=
  each_done _

@[simp] theorem readOnly_liftFault {α : Type} (x : Except Fault α) : (liftFault x).ReadOnly :=
  each_done _

@[simp] theorem readOnly_checkBalance (before : Str) (x : UInt64) :
    (checkBalance before b x).ReadOnly :=
  readOnly_failIf _ _

@[simp] theorem readOnly_checkPrevious (ch : AccountChain) : (checkPrevious b ch).ReadOnly :=
  readOnly_failIf _ _

@[simp] theorem readOnly_checkAccessKey : (checkAccessKey b).ReadOnly := by
  unfold checkAccessKey
  split_ifs
  · exact each_pure ()
  · split
    · exact each_fail _
    · exact each_failIf _ _

@[simp] theorem readOnly_checkCost (op : String) (v m d : UInt64) (cert : CertificateInfo) :
    (checkCost c op b v m d cert).ReadOnly := by
  simp [checkCost]

@[simp] theorem readOnly_validateLockedEmissionAt (t : Int64) (skipSkew : Bool) (op : String) :
    (validateLockedEmissionAt c t b skipSkew op).ReadOnly := by
  unfold validateLockedEmissionAt
  split
  · exact each_pure ()
  · split
    · exact each_fail _
    · exact each_failIf _ _

@[simp] theorem readOnly_checkAttestations (op : String) (skipSkew : Bool) :
    (checkAttestations c b op skipSkew).ReadOnly := by
  simp [checkAttestations]

@[simp] theorem readOnly_checkAcceptCertificate (leaseBlock : Block) (t : Int64) :
    (checkAcceptCertificate c b leaseBlock t).ReadOnly := by
  refine each_guard <| each_guard <| each_bind (each_orFail _ _) fun lookup => ?_
  cases lookup b.certificateHash with
  | none => exact each_done _
  | some info => exact each_guard (each_failIf _ _)

@[simp] theorem readOnly_checkForceWindow (lease : Lease) (t : Int64) :
    (checkForceWindow c lease t).ReadOnly := by
  simp [checkForceWindow]

@[simp] theorem readOnly_checkSettleWindow (lease : Lease) (t : Int64) (skipSkew : Bool) :
    (checkSettleWindow c lease t skipSkew).ReadOnly := by
  simp [checkSettleWindow]

@[simp] theorem readOnly_checkEmission (lease : Lease) (skipSkew : Bool) :
    (checkEmission b lease skipSkew).ReadOnly := by
  simp [checkEmission]

@[simp] theorem readOnly_checkRenewDuration (lease : Lease) :
    (checkRenewDuration c b lease).ReadOnly := by
  simp [checkRenewDuration]

@[simp] theorem readOnly_checkRenewWindow (lease : Lease) (t : Int64) :
    (checkRenewWindow lease t).ReadOnly := by
  simp [checkRenewWindow]

@[simp] theorem readOnly_checkRenewCertificate (lease : Lease) (t : Int64) :
    (checkRenewCertificate c b lease t).ReadOnly := by
  simp [checkRenewCertificate]

/-! ## The lease handlers -/

@[simp] theorem run_checkLeaseCertificate_bind_ok {α : Type} {k : CertificateInfo → M α} {a : α} :
    (checkLeaseCertificate c b >>= k).run s = some (.ok a, s') ↔
      b.certificateHash ≠ [] ∧ ∃ lookup, c.certificateLookup = some lookup ∧
        ∃ cert, lookup b.certificateHash = some cert ∧ cert.provider = b.destination ∧
          ¬ (cert.expiresAt ≠ 0 ∧ b.timestamp > cert.expiresAt) ∧
            (k cert).run s = some (.ok a, s') := by
  simp only [checkLeaseCertificate, Prog.bind_assoc, run_failIf_bind_ok, run_orErr_bind_ok,
    run_pure_bind, not_not, ne_eq]

theorem prepareLease_ok (ht : b.type = .lease) (h : (prepareLease c b).run s = some (.ok p, s')) :
    s' = s ∧ Extends s.reads b ∧ Checked c s.reads b p := by
  simp only [prepareLease, run_failIf_bind_ok, not_not, run_liftErr_bind_ok] at h
  obtain ⟨hx, hd, hself, _, -, h⟩ := h
  obtain ⟨_, -, h⟩ := readOnly_checkAccessKey.of_bind_ok h
  rw [run_checkLeaseCertificate_bind_ok] at h
  obtain ⟨-, lookup, hlook, cert, hcert, -, -, h⟩ := h
  obtain ⟨_, -, h⟩ := (readOnly_checkCost _ _ _ _ _).of_bind_ok h
  simp only [run_checkExtends_bind_ok, run_checkSpend_bind_ok, run_prepareBlockWrite_bind,
    run_pure] at h
  obtain ⟨chain, hc, hp, hn, hs, h⟩ := h
  cases h
  exact ⟨rfl, .of_chain hc hp hn, .lease lookup cert ht hx hd hself hlook hcert hs⟩

@[simp] theorem run_checkLeaseBlock_bind_ok {α : Type} {k : Block → M α} {a : α} :
    (checkLeaseBlock b >>= k).run s = some (.ok a, s') ↔
      ∃ lb, s.store.blocks.get b.source = some lb ∧ lb.type = .lease ∧
        (k lb).run s = some (.ok a, s') := by
  simp only [checkLeaseBlock, Prog.bind_assoc, run_getBlock_bind, run_orErr_bind_ok,
    run_failIf_bind_ok, run_pure_bind, not_not, ne_eq]

theorem mem_validTimestamps {lib : Lib} {keys : List Str} {leaseHash : Str} {skipSkew : Bool}
    {now maxSkew t : Int64} {l : List TimekeeperAttestation} {seen : List Str}
    (h : t ∈ validTimestamps lib keys leaseHash skipSkew now maxSkew seen l) :
    ∃ a ∈ l, a.timestamp = t := by
  induction l generalizing seen with
  | nil => cases h
  | cons x l ih =>
    unfold validTimestamps at h
    split_ifs at h
    · rcases List.mem_cons.mp h with rfl | h
      · exact ⟨x, List.mem_cons_self, rfl⟩
      · obtain ⟨a, ha, hat⟩ := ih h
        exact ⟨a, List.mem_cons_of_mem _ ha, hat⟩
    · obtain ⟨a, ha, hat⟩ := ih h
      exact ⟨a, List.mem_cons_of_mem _ ha, hat⟩

theorem checkAttestations_mem {op : String} {skipSkew : Bool} {t : Int64}
    (h : (checkAttestations c b op skipSkew).run s = some (.ok t, s')) :
    ∃ a ∈ b.attestations, a.timestamp = t := by
  simp only [checkAttestations, run_orErr_bind_ok] at h
  obtain ⟨config, -, h⟩ := h
  cases hv : validateAttestations c.lib b.attestations b.source config skipSkew c.now
      c.timing.maxAttestationSkew with
  | error e =>
    rw [hv] at h
    cases h
  | ok t' =>
    rw [hv] at h
    cases h
    unfold validateAttestations at hv
    simp only [bind_eq_ok] at hv
    obtain ⟨-, -, -, -, -, -, -, -, hmedian⟩ := hv
    split at hmedian
    · next hmid =>
      cases hmedian
      exact mem_validTimestamps ((List.mem_insertionSort _).mp (List.mem_of_getElem? hmid))
    · cases hmedian

theorem prepareLeaseAccept_ok (skipSkew : Bool) (ht : b.type = .leaseAccept)
    (h : (prepareLeaseAccept c b skipSkew).run s = some (.ok p, s')) :
    s' = s ∧ Extends s.reads b ∧ Checked c s.reads b p := by
  simp only [prepareLeaseAccept, run_failIf_bind_ok, not_not, run_checkLeaseBlock_bind_ok,
    run_getLeaseOverlay_bind, run_checkExtends_bind_ok, run_checkSpend_bind_ok] at h
  obtain ⟨hx, hsrc, lb, hlb, hlt, hprov, hcr, hst, chain, hc, hp, hn, hs, h⟩ := h
  obtain ⟨t, hat, h⟩ := (readOnly_checkAttestations _ _).of_bind_ok h
  obtain ⟨_, -, h⟩ := (readOnly_checkAcceptCertificate _ _).of_bind_ok h
  simp only [run_prepareBlockWrite_bind, run_failIf_bind_ok] at h
  obtain ⟨-, h⟩ := h
  obtain ⟨_, -, h⟩ := (readOnly_validateLockedEmissionAt _ _ _).of_bind_ok h
  cases h
  refine ⟨rfl, .of_chain hc hp hn, .leaseAccept lb t ht hx hsrc hlb hlt hprov ?_ hst hs
    (checkAttestations_mem hat)⟩
  intro l (hl : s.leaseOf b.source = some l)
  simpa [hl] using hcr

@[simp] theorem run_checkAccepted_bind_ok {α : Type} {op : String} {msg : Lease → Str}
    {k : Lease → M α} {a : α} :
    (checkAccepted b op msg >>= k).run s = some (.ok a, s') ↔
      ∃ lease, AcceptedLease s.reads b lease ∧ (k lease).run s = some (.ok a, s') := by
  simp only [checkAccepted, Prog.bind_assoc, run_getLeaseOverlay_bind, run_orErr_bind_ok,
    run_failIf_bind_ok, run_pure_bind, not_not, ne_eq, Bool.not_eq_true]
  constructor
  · rintro ⟨l, hl, hs, -, ha, h⟩
    exact ⟨l, ⟨hl, hs, ha⟩, h⟩
  · rintro ⟨l, ⟨hl, hs, ha⟩, h⟩
    exact ⟨l, hl, hs, by simp [ha], ha, h⟩

@[simp] theorem run_checkSettleable_bind_ok {α : Type} {k : Lease → M α} {a : α} :
    (checkSettleable b >>= k).run s = some (.ok a, s') ↔
      ∃ lease, AcceptedLease s.reads b lease ∧ lease.provider = b.account ∧
        (k lease).run s = some (.ok a, s') := by
  simp only [checkSettleable, Prog.bind_assoc, run_getLeaseOverlay_bind, run_orErr_bind_ok,
    run_failIf_bind_ok, run_pure_bind, not_not, ne_eq, Bool.not_eq_true]
  constructor
  · rintro ⟨l, hl, hs, hp, -, ha, h⟩
    exact ⟨l, ⟨hl, hs, ha⟩, hp, h⟩
  · rintro ⟨l, ⟨hl, hs, ha⟩, hp, h⟩
    exact ⟨l, hl, hs, hp, by simp [ha], ha, h⟩

theorem prepareLeaseForceSettle_ok (skipSkew : Bool) (ht : b.type = .leaseForceSettle)
    (h : (prepareLeaseForceSettle c b skipSkew).run s = some (.ok p, s')) :
    s' = s ∧ Extends s.reads b ∧ Checked c s.reads b p := by
  simp only [prepareLeaseForceSettle, run_failIf_bind_ok, not_not, run_checkLeaseBlock_bind_ok,
    run_checkAccepted_bind_ok] at h
  obtain ⟨hx, hsrc, lb, hlb, hlt, hcons, lease, hacc, h⟩ := h
  obtain ⟨t, -, h⟩ := (readOnly_checkAttestations _ _).of_bind_ok h
  obtain ⟨_, -, h⟩ := (readOnly_checkForceWindow _ _).of_bind_ok h
  simp only [run_getPendingSendOverlay_bind, run_orErr_bind_ok, run_checkExtends_bind_ok,
    run_getAssetBalanceOverlay_bind, run_failIf_bind_ok, run_checkBalance_bind_ok,
    run_prepareBlockWrite_bind, run_pure] at h
  obtain ⟨ps, hps, chain, hc, hp, hn, ho, hb, h⟩ := h
  cases h
  exact ⟨rfl, .of_chain hc hp hn,
    .leaseForceSettle lb lease ps ht hx hsrc hlb hlt hcons hacc hps ho hb⟩

theorem prepareLeaseSettle_ok (skipSkew : Bool) (ht : b.type = .leaseSettle)
    (h : (prepareLeaseSettle c b skipSkew).run s = some (.ok p, s')) :
    s' = s ∧ Extends s.reads b ∧ Checked c s.reads b p := by
  simp only [prepareLeaseSettle, run_failIf_bind_ok, not_not, run_checkSettleable_bind_ok] at h
  obtain ⟨hx, hsrc, lease, hacc, hprov, h⟩ := h
  obtain ⟨t, -, h⟩ := (readOnly_checkAttestations _ _).of_bind_ok h
  obtain ⟨_, -, h⟩ := (readOnly_checkSettleWindow _ _ _).of_bind_ok h
  obtain ⟨_, -, h⟩ := (readOnly_checkEmission _ _).of_bind_ok h
  simp only [run_getPendingSendOverlay_bind, run_orErr_bind_ok, run_checkExtends_bind_ok,
    run_getAssetBalanceOverlay_bind, run_failIf_bind_ok, run_checkBalance_bind_ok,
    run_prepareBlockWrite_bind, run_pure] at h
  obtain ⟨ps, hps, chain, hc, hp, hn, ho, hb, h⟩ := h
  cases h
  exact ⟨rfl, .of_chain hc hp hn, .leaseSettle lease ps ht hx hsrc hacc hprov hps ho hb⟩

theorem prepareLeaseRenew_ok (skipSkew : Bool) (ht : b.type = .leaseRenew)
    (h : (prepareLeaseRenew c b skipSkew).run s = some (.ok p, s')) :
    s' = s ∧ Extends s.reads b ∧ Checked c s.reads b p := by
  simp only [prepareLeaseRenew, run_failIf_bind_ok, not_not, run_checkAccepted_bind_ok] at h
  obtain ⟨hx, hsrc, lease, hacc, hcons, h⟩ := h
  obtain ⟨_, -, h⟩ := (readOnly_checkRenewDuration _).of_bind_ok h
  obtain ⟨t, -, h⟩ := (readOnly_checkAttestations _ _).of_bind_ok h
  obtain ⟨_, -, h⟩ := (readOnly_checkRenewWindow _ _).of_bind_ok h
  obtain ⟨_, -, h⟩ := (readOnly_checkRenewCertificate _ _).of_bind_ok h
  obtain ⟨_, -, h⟩ := (readOnly_checkCost _ _ _ _ _).of_bind_ok h
  rw [run_failIf_bind_ok] at h
  obtain ⟨_, -, h⟩ := (readOnly_validateLockedEmissionAt _ _ _).of_bind_ok h.2
  simp only [run_getPendingSendOverlay_bind, run_orErr_bind_ok, run_checkExtends_bind_ok,
    run_checkSpend_bind_ok, run_prepareBlockWrite_bind, run_pure] at h
  obtain ⟨ps, hps, chain, hc, hp, hn, hs, h⟩ := h
  cases h
  exact ⟨rfl, .of_chain hc hp hn, .leaseRenew lease ps t ht hx hsrc hacc hcons hps hs⟩

/-- The lease block that a cancel names. -/
structure CancelSource (s : State) (b leaseBlock : Block) : Prop where
  asset : b.asset = assetXUSD
  source : b.source ≠ []
  block : s.store.blocks.get b.source = some leaseBlock
  blockType : leaseBlock.type = .lease
  consumer : leaseBlock.account = b.account

theorem run_checkCancelSource_bind_ok {α : Type} {k : Block → M α} {a : α} :
    (checkCancelSource b >>= k).run s = some (.ok a, s') ↔
      ∃ lb, CancelSource s b lb ∧ (k lb).run s = some (.ok a, s') := by
  simp only [checkCancelSource, Prog.bind_assoc, run_failIf_bind_ok, run_checkLeaseBlock_bind_ok,
    run_pure_bind, not_not, ne_eq]
  constructor
  · rintro ⟨hx, hsrc, lb, hlb, hlt, hcons, h⟩
    exact ⟨lb, ⟨hx, hsrc, hlb, hlt, hcons⟩, h⟩
  · rintro ⟨lb, ⟨hx, hsrc, hlb, hlt, hcons⟩, h⟩
    exact ⟨hx, hsrc, lb, hlb, hlt, hcons, h⟩

theorem checkRefund_ok {lb : Block} (ht : b.type = .leaseCancel) (hsrc : CancelSource s b lb)
    (h : (checkRefund b lb).run s = some (.ok p, s')) :
    s' = s ∧ Extends s.reads b ∧ Checked c s.reads b p := by
  simp only [checkRefund, run_getPendingSendOverlay_bind, run_orErr_bind_ok,
    run_checkExtends_bind_ok, run_getAssetBalanceOverlay_bind, run_checkBalance_bind_ok,
    run_prepareBlockWrite_bind, run_pure] at h
  obtain ⟨ps, hps, chain, hc, hp, hn, hb, h⟩ := h
  cases h
  exact ⟨rfl, .of_chain hc hp hn, .leaseCancel lb ps ht hsrc.asset hsrc.source hsrc.block
    hsrc.blockType hsrc.consumer hps hb⟩

end Handlers

/-! ## All handlers -/

/-- The checks of a block's type. -/
def prepare (c : Ctx) (b : Block) (skipTimestamp : Bool) : M Prepared :=
  match b.type with
  | .send => prepareSend b
  | .receive => prepareReceive c b
  | .genesis => prepareGenesis c b
  | .lease => prepareLease c b
  | .leaseAccept => prepareLeaseAccept c b skipTimestamp
  | .leaseSettle => prepareLeaseSettle c b skipTimestamp
  | .leaseCancel => prepareLeaseCancel c b
  | .leaseForceSettle => prepareLeaseForceSettle c b skipTimestamp
  | .leaseRenew => prepareLeaseRenew c b skipTimestamp
  | .multisigOpen => prepareMultisigOpen c b
  | .multisigUpdate => prepareMultisigUpdate b
  | .burn => prepareBurn b
  | .mint => prepareMint c b
  | .other _ => Prog.fail (.err errUnknownBlockType)

theorem validateAndAdd_eq (c : Ctx) (b : Block) (skipTimestamp : Bool) :
    validateAndAdd c b skipTimestamp = prepare c b skipTimestamp >>= finishWrite := by
  unfold validateAndAdd prepare
  cases b.type <;> rfl

/-- **What passing the checks means**, for all blocks but cancels. -/
theorem prepare_ok {c : Ctx} {s s' : State} {b : Block} {p : Prepared} {skip : Bool}
    (ht : b.type ≠ .leaseCancel) (h : (prepare c b skip).run s = some (.ok p, s')) :
    s' = s ∧ (b.type ≠ .genesis → Extends s.reads b) ∧ Checked c s.reads b p := by
  have weaken : s' = s ∧ Extends s.reads b ∧ Checked c s.reads b p →
      s' = s ∧ (b.type ≠ .genesis → Extends s.reads b) ∧ Checked c s.reads b p :=
    fun ⟨h₁, h₂, h₃⟩ => ⟨h₁, fun _ => h₂, h₃⟩
  obtain ⟨t, hb⟩ : ∃ t, b.type = t := ⟨_, rfl⟩
  cases t <;> simp only [prepare, hb] at h
  case send => exact weaken (prepareSend_ok hb h)
  case receive => exact weaken (prepareReceive_ok hb h)
  case genesis =>
    obtain ⟨h₁, h₂⟩ := prepareGenesis_ok hb h
    exact ⟨h₁, fun hne => absurd hb hne, h₂⟩
  case lease => exact weaken (prepareLease_ok hb h)
  case leaseAccept => exact weaken (prepareLeaseAccept_ok skip hb h)
  case leaseSettle => exact weaken (prepareLeaseSettle_ok skip hb h)
  case leaseCancel => exact absurd hb ht
  case leaseForceSettle => exact weaken (prepareLeaseForceSettle_ok skip hb h)
  case leaseRenew => exact weaken (prepareLeaseRenew_ok skip hb h)
  case multisigOpen => exact weaken (prepareMultisigOpen_ok hb h)
  case multisigUpdate => exact weaken (prepareMultisigUpdate_ok hb h)
  case burn => exact weaken (prepareBurn_ok hb h)
  case mint => exact weaken (prepareMint_ok hb h)
  case other name => simp at h

end Xe
