import XeLattice.Run.Writes

/-!
# What a handler does

A handler reads, and at its end writes once.  Two handlers' parts do more: checking a credential may
fill the caches of keys, and a cancel may unwind the accept of the lease's provider before its own
checks are done.

* `CancelWins`, **`checkCancellable_cases`**: the unwinding of an accept;
* **`dispatch_cases`**: what the handler of a block has done when it returns.
-/

set_option autoImplicit false

namespace Xe

open Prog

/-! ## Checks that only read -/

section ReadOnly

variable (c : Ctx) (b : Block)

@[simp] theorem readOnly_overlayChain (a : Str) : (overlayChain a).ReadOnly :=
  each_bind (readOnly_readMem _) fun _ => each_pure _

@[simp] theorem readOnly_getAccountChainOverlay (a : Str) :
    (getAccountChainOverlay a).ReadOnly := by
  refine each_bind (readOnly_overlayChain a) fun ch => ?_
  cases ch with
  | none => exact readOnly_readStore _
  | some ch => exact each_pure _

@[simp] theorem readOnly_getPendingSendOverlay (h : Str) : (getPendingSendOverlay h).ReadOnly := by
  refine each_bind (readOnly_readMem _) fun cb => ?_
  split
  · exact each_pure _
  · exact readOnly_readStore _

@[simp] theorem readOnly_getLeaseOverlay (h : Str) : (getLeaseOverlay h).ReadOnly := by
  refine each_bind (readOnly_readMem _) fun cb => ?_
  split
  · exact each_pure _
  · exact readOnly_readStore _

@[simp] theorem readOnly_getAssetBalanceOverlay (a x : Str) :
    (getAssetBalanceOverlay a x).ReadOnly := by
  refine each_bind (readOnly_overlayChain a) fun ch => ?_
  cases ch with
  | none => exact readOnly_readMem _
  | some ch => exact each_ite (readOnly_readStore _) (each_pure _)

@[simp] theorem readOnly_isLiveLeaseEscrow (h : Str) : (isLiveLeaseEscrow h).ReadOnly := by
  simp [isLiveLeaseEscrow]

@[simp] theorem readOnly_getKeysetOverlay (a : Str) : (getKeysetOverlay a).ReadOnly :=
  each_bind (readOnly_readMem _) fun _ => each_ite (each_pure _) (readOnly_readMem _)

@[simp] theorem readOnly_getBlockOrStaged (h : Str) : (getBlockOrStaged h).ReadOnly := by
  refine each_bind (readOnly_readStore _) fun b => ?_
  cases b with
  | none => exact readOnly_readStore _
  | some b => exact each_pure _

@[simp] theorem readOnly_checkTimestamp (chain : AccountChain) :
    (checkTimestamp b chain).ReadOnly := by
  unfold checkTimestamp
  cases lastTimestamp chain with
  | none => exact each_pure _
  | some t => exact readOnly_failIf _ _

@[simp] theorem readOnly_checkExtends (msg : Str) : (checkExtends b msg).ReadOnly := by
  simp [checkExtends]

@[simp] theorem readOnly_checkSpend (x : Str) (msg : UInt64 → Str) :
    (checkSpend b x msg).ReadOnly := by
  simp [checkSpend]

@[simp] theorem readOnly_prepareBlockWrite : (prepareBlockWrite b).ReadOnly := by
  simp [prepareBlockWrite]

@[simp] theorem readOnly_checkUncontested (source : Str) : (checkUncontested source).ReadOnly := by
  refine each_bind (readOnly_getBlockOrStaged _) fun src => ?_
  cases src with
  | none => exact each_pure _
  | some src => exact each_bind (readOnly_readStore _) fun _ => readOnly_failIf _ _

@[simp] theorem readOnly_checkReceivePosition (chain : Option AccountChain) :
    (checkReceivePosition b chain).ReadOnly := by
  cases chain <;> simp [checkReceivePosition]

@[simp] theorem readOnly_checkReceiveBalance (chain : Option AccountChain) (x y : UInt64) :
    (checkReceiveBalance b chain x y).ReadOnly := by
  cases chain <;> simp [checkReceiveBalance]

@[simp] theorem readOnly_checkMintBalance (chain : Option AccountChain) :
    (checkMintBalance b chain).ReadOnly := by
  cases chain <;> simp [checkMintBalance]

@[simp] theorem readOnly_checkKeyset (name : String) : (checkKeyset name b).ReadOnly := by
  simp [checkKeyset]

@[simp] theorem readOnly_checkLeaseBlock : (checkLeaseBlock b).ReadOnly := by
  simp [checkLeaseBlock, getBlock]

@[simp] theorem readOnly_checkAccepted (op : String) (msg : Lease → Str) :
    (checkAccepted b op msg).ReadOnly := by
  simp [checkAccepted]

@[simp] theorem readOnly_checkLeaseCertificate : (checkLeaseCertificate c b).ReadOnly := by
  simp [checkLeaseCertificate]

@[simp] theorem readOnly_checkSettleable : (checkSettleable b).ReadOnly := by
  simp [checkSettleable]

@[simp] theorem readOnly_checkCancelSource : (checkCancelSource b).ReadOnly := by
  simp [checkCancelSource]

@[simp] theorem readOnly_checkRefund (lb : Block) : (checkRefund b lb).ReadOnly := by
  simp [checkRefund]

/-- The checks of every block but a cancel only read. -/
theorem readOnly_prepare (skip : Bool) (ht : b.type ≠ .leaseCancel) :
    (prepare c b skip).ReadOnly := by
  obtain ⟨t, hb⟩ : ∃ t, b.type = t := ⟨_, rfl⟩
  cases t <;> simp only [prepare, hb]
  case send => simp [prepareSend]
  case receive => simp [prepareReceive]
  case genesis => simp [prepareGenesis, storeIsEmpty]
  case lease => simp [prepareLease]
  case leaseAccept => simp [prepareLeaseAccept]
  case leaseSettle => simp [prepareLeaseSettle]
  case leaseCancel => exact absurd hb ht
  case leaseForceSettle => simp [prepareLeaseForceSettle]
  case leaseRenew => simp [prepareLeaseRenew]
  case multisigOpen => simp [prepareMultisigOpen]
  case multisigUpdate => simp [prepareMultisigUpdate]
  case burn => simp [prepareBurn]
  case mint => simp [prepareMint]
  case other => exact each_fail _

end ReadOnly

/-! ## Credentials -/

/-- The caches of keys hold what the chains declare. -/
structure Book.Keyed (k : Book) : Prop where
  keyset : ∀ a ch ks, k.chains.get a = some ch → lastKeyset ch = some ks → k.keysets.get a = some ks
  pubKey : ∀ a ch, k.chains.get a = some ch → lastPubKey ch ≠ [] → k.accountKeys.get a ≠ none

/-- The single actions that a check of a credential is made of. -/
structure CredentialActions (A : (β : Type) → (State → Option (β × State)) → Prop) : Prop where
  mem : ∀ (β : Type) (f : Memory → β), A β fun s => some (f s.mem, s)
  store : ∀ (β : Type) (f : Store → β), A β fun s => some (f s.store, s)
  keyset : ∀ a ks, A Unit fun s => some ((), { s with mem := s.mem.setKeyset a ks })
  accountKey : ∀ a k, A Unit fun s => some ((), { s with mem := s.mem.setAccountKey a k })

namespace CredentialActions

variable {A : (β : Type) → (State → Option (β × State)) → Prop} (hA : CredentialActions A)
include hA

theorem each_readMem {β : Type} (f : Memory → β) : (readMem f).Each A :=
  ⟨hA.mem β f, fun _ => trivial⟩

theorem each_readStore {β : Type} (f : Store → β) : (readStore f).Each A :=
  ⟨hA.store β f, fun _ => trivial⟩

theorem each_getAccountKey (a : Str) : (getAccountKey a).Each A := by
  refine each_bind (hA.each_readMem _) fun o => ?_
  cases o with
  | some pub => exact each_pure _
  | none =>
    refine each_bind (hA.each_readStore _) fun o => ?_
    cases o with
    | none => exact each_pure _
    | some chain =>
      exact each_ite (each_pure _)
        (each_bind ⟨hA.accountKey _ _, fun _ => trivial⟩ fun _ => each_pure _)

theorem each_signingKeyset (b : Block) : (signingKeyset b).Each A := by
  refine each_bind (each_ite (each_pure _) (hA.each_readMem _)) fun o => ?_
  cases o with
  | some ks => exact each_pure _
  | none =>
    exact each_bind (hA.each_readStore _) fun _ => each_bind (each_orFail _ _) fun _ =>
      each_bind (each_orFail _ _) fun _ =>
        each_bind ⟨hA.keyset _ _, fun _ => trivial⟩ fun _ => each_pure _

theorem each_verifyBlockCredential (lib : Lib) (b : Block) :
    (verifyBlockCredential lib b).Each A := by
  refine each_bind (each_done _) fun _ => ?_
  by_cases hsig : b.signatures ≠ []
  · rw [if_pos hsig]
    exact each_bind (hA.each_signingKeyset b) fun _ => each_done _
  · rw [if_neg hsig]
    refine each_bind (hA.each_readMem _) fun _ => each_guard ?_
    by_cases hp : b.previous = zeroPrev
    · simp only [hp, if_true]
      exact each_bind (each_pure _) fun _ => each_done _
    · simp only [hp, if_false]
      exact each_bind (hA.each_getAccountKey _) fun _ => each_guard <| each_done _

end CredentialActions

section Credential

variable {s : State} (hk : s.book.Keyed)

include hk

theorem still_resolveMissingKeyset (a : Str) : (resolveMissingKeyset a).Still s := by
  refine still_bind ((readOnly_readStore _).still s) fun o ho => ?_
  refine still_bind ((readOnly_orErr _ _).still s) fun ch hch => ?_
  refine still_bind ((readOnly_orErr _ _).still s) fun ks hks => ?_
  obtain ⟨rfl, -⟩ := run_orErr_ok.mp hch
  obtain ⟨hks, -⟩ := run_orErr_ok.mp hks
  have hchain : s.store.chains.get a = some ch := by
    rw [run_getAccountChain] at ho
    simpa using ho
  -- the keyset that is written is the one that stands there
  have hset : s.mem.keysets.set a ks = s.mem.keysets :=
    Table.set_of_get_some (hk.keyset a ch ks hchain hks)
  intro r s' h
  rw [run_bind_of_ok (run_writeMem s _)] at h
  cases h
  unfold Memory.setKeyset
  rw [hset]

theorem still_getAccountKey (a : Str) : (getAccountKey a).Still s := by
  refine still_bind ((readOnly_readMem _).still s) fun o ho => ?_
  cases o with
  | some pub => exact ReadOnly.still (each_pure _) s
  | none =>
    refine still_bind ((readOnly_readStore _).still s) fun o' ho' => ?_
    cases o' with
    | none => exact ReadOnly.still (each_pure _) s
    | some ch =>
      dsimp only
      split_ifs with hkey
      · exact ReadOnly.still (each_pure _) s
      · have hnone : s.mem.accountKeys.get a = none := by
          rw [run_readMem] at ho
          simpa using ho
        have hchain : s.store.chains.get a = some ch := by
          rw [run_getAccountChain] at ho'
          simpa using ho'
        exact absurd hnone (hk.pubKey a ch hchain hkey)

theorem still_signingKeyset (b : Block) : (signingKeyset b).Still s := by
  refine still_bind (ReadOnly.still (each_ite (each_pure _) (readOnly_readMem _)) s) fun o _ => ?_
  cases o with
  | some ks => exact ReadOnly.still (each_pure _) s
  | none => exact still_resolveMissingKeyset hk _

theorem still_verifyBlockCredential (lib : Lib) (b : Block) :
    (verifyBlockCredential lib b).Still s := by
  refine still_bind (ReadOnly.still (each_done _) s) fun _ _ => ?_
  by_cases hsig : b.signatures ≠ []
  · rw [if_pos hsig]
    exact still_bind (still_signingKeyset hk b) fun _ _ => ReadOnly.still (each_done _) s
  · rw [if_neg hsig]
    refine still_bind ((readOnly_readMem _).still s) fun _ _ =>
      still_bind ((readOnly_failIf _ _).still s) fun _ _ => ?_
    by_cases hp : b.previous = zeroPrev
    · simp only [hp, if_true]
      exact ReadOnly.still (each_bind (each_pure _) fun _ => each_done _) s
    · simp only [hp, if_false]
      exact still_bind (still_getAccountKey hk _) fun _ _ =>
        still_bind ((readOnly_failIf _ _).still s) fun _ _ => ReadOnly.still (each_done _) s

end Credential

/-! ## Unwinding an accept -/

theorem readOnly_undoEffect (b : Block) : (undoEffect b).ReadOnly := by
  have escrow : ∀ h, (escrowPendingOf h).ReadOnly := by
    intro h
    refine each_bind (readOnly_rd _) fun lb => ?_
    cases lb with
    | none => exact each_pure _
    | some lb =>
      dsimp only
      split_ifs
      · exact each_pure _
      · exact each_bind (readOnly_rd _) fun _ => each_pure _
  have prior : ∀ h t, (priorLease h t).ReadOnly := fun h t => readOnly_rd _
  unfold undoEffect
  cases b.type with
  | send | lease | multisigOpen | burn | mint | genesis | other => exact each_pure _
  | receive => exact each_bind (readOnly_rd _) fun _ => each_pure _
  | leaseAccept =>
    exact each_bind (prior _ _) fun _ => each_bind (each_orFail _ _) fun _ => each_pure _
  | leaseSettle | leaseForceSettle | leaseCancel =>
    exact each_bind (prior _ _) fun _ => each_bind (escrow _) fun _ =>
      each_bind (each_orFail _ _) fun _ => each_pure _
  | leaseRenew =>
    exact each_bind (readOnly_rd _) fun _ =>
      each_bind (each_orFail _ _) fun _ => each_pure _
  | multisigUpdate => exact each_fail _

theorem readOnly_buildBlockUndo (account : Str) (b : Block) (chain : Option AccountChain) :
    (buildBlockUndo account b chain).ReadOnly := by
  refine each_guard <| each_bind (readOnly_undoEffect b) fun e => ?_
  dsimp only
  by_cases hz : b.previous = zeroPrev
  · rw [if_pos hz]
    exact each_pure _
  · by_cases hx : assetOrXE b.asset = assetXUSD
    · rw [if_neg hz, if_pos hx]
      exact each_bind (readOnly_rd _) fun _ => each_pure _
    · rw [if_neg hz, if_neg hx]
      exact each_pure _

theorem undoBlockApply_cases {account : Str} {b : Block} {s s' : State} {r : Except Fault Unit}
    (h : (undoBlockApply account b).run s = some (r, s')) :
    (∃ e, r = .error e ∧ s' = s) ∨ r = .ok () ∧ ∃ rest last e,
      s.store.chains.get account = some (rest ++ [last]) ∧ last.hash = b.hash ∧
        Undoes s.store.blocks s.store.leases b e ∧
          s' = s.undone (undoRequest account b rest e,
            undoMemory s.store.leases account b rest last e) := by
  unfold undoBlockApply at h
  rw [run_getAccountChain_bind] at h
  rcases run_bind_eq_some.mp h with ⟨e, he, rfl⟩ | ⟨x, s₁, hx, hrest⟩
  · exact .inl ⟨e, rfl, run_readOnly (readOnly_buildBlockUndo _ _ _) he⟩
  · obtain ⟨rfl, rest, last, e, hc, hh, hu, rfl⟩ := buildBlockUndo_ok hx
    dsimp only at hrest
    rw [run_bind, run_txnStore] at hrest
    unfold Store.commitUndo at hrest
    cases happ : s₁.store.applyUndo (undoRequest account b rest e) with
    | error f =>
      simp only [happ] at hrest
      cases hrest
      exact .inl ⟨f, rfl, rfl⟩
    | ok st =>
      simp only [happ, run_memUndo_apply] at hrest
      cases hrest
      refine .inr ⟨rfl, rest, last, e, hc, hh, hu, ?_⟩
      rw [Store.applyUndo_ok happ]
      rfl

/-- A cancel finds its lease accepted and takes the provider's accept off; `u` is the undo. -/
inductive CancelWins (s : State) (b : Block) : BlockUndo × MemUndo → Prop
  | intro (l : Lease) (accept : Block) (rest : AccountChain) (e : UndoEffect)
      (type : b.type = .leaseCancel) (record : s.leaseOf b.source = some l)
      (state : l.state = .accepted) (other : l.provider ≠ b.account)
      (chain : s.store.chains.get l.provider = some (rest ++ [accept]))
      (acceptType : accept.type = .leaseAccept) (source : accept.source = b.source)
      (notFinal : s.store.finalHeightOf l.provider ≤ rest.length)
      (free : s.locks (.account l.provider) = none)
      (effect : Undoes s.store.blocks s.store.leases accept e) :
      CancelWins s b (undoRequest l.provider accept rest e,
        undoMemory s.store.leases l.provider accept rest accept e)

theorem State.setLock_same (s : State) {l : Lock} (hl : s.locks l = none) (t : Option ℕ) :
    (s.setLock l t).setLock l none = s := by
  unfold State.setLock
  simp only [Function.update_idem]
  rw [← hl, Function.update_eq_self]

theorem revertReputation_setLock (ev : ReputationEvent) (s : State) (l : Lock) (t : Option ℕ) :
    (s.setLock l t).revertReputation ev = (s.revertReputation ev).setLock l t := by
  have one : ∀ (s : State) a, State.revertReputationOf ev (s.setLock l t) a =
      (State.revertReputationOf ev s a).setLock l t := by
    intro s a
    unfold State.revertReputationOf
    rw [show (s.setLock l t).mem = s.mem from rfl]
    cases s.mem.reputation.get a with
    | none => rfl
    | some agg =>
      dsimp only
      split_ifs <;> rfl
  unfold State.revertReputation
  induction ev.affectedAccounts generalizing s with
  | nil => rfl
  | cons a as ih => rw [List.foldl_cons, List.foldl_cons, one, ih]

theorem undone_setLock (s : State) (u : BlockUndo × MemUndo) (l : Lock) (t : Option ℕ) :
    (s.setLock l t).undone u = (s.undone u).setLock l t := by
  unfold State.undone MemUndo.applied
  cases u.2.repRevert with
  | none => rfl
  | some ev =>
    exact revertReputation_setLock ev
      { s with store := s.store.afterUndo u.1, mem := u.2.memAfter s.mem } l t

theorem resolveCancelWinsOverAccept_cases {c : Ctx} {s s' : State} {b : Block} {l : Lease}
    {r : Except Fault Unit} (ht : b.type = .leaseCancel) (hl : s.leaseOf b.source = some l)
    (hst : l.state = .accepted) (hne : l.provider ≠ b.account)
    (h : (resolveCancelWinsOverAccept c b.source l.provider).run s = some (r, s')) :
    (∃ e, r = .error e ∧ s' = s) ∨ r = .ok () ∧ ∃ u, CancelWins s b u ∧ s' = s.undone u := by
  unfold resolveCancelWinsOverAccept at h
  rw [run_getAccountChain_bind] at h
  obtain herr | ⟨pchain, hp, h⟩ := ((readOnly_orErr _ _).still s).bind_cases h
  · exact .inl herr
  obtain herr | ⟨i, hi, h⟩ := ((readOnly_orErr _ _).still s).bind_cases h
  · exact .inl herr
  obtain herr | ⟨_, hlast, h⟩ := ((readOnly_failIf _ _).still s).bind_cases h
  · exact .inl herr
  rw [run_finalHeight_bind] at h
  obtain herr | ⟨_, hfh, h⟩ := ((readOnly_failIf _ _).still s).bind_cases h
  · exact .inl herr
  obtain herr | ⟨accept, hacc, h⟩ := ((readOnly_orErr _ _).still s).bind_cases h
  · exact .inl herr
  obtain ⟨hp, -⟩ := run_orErr_ok.mp hp
  obtain ⟨hi, -⟩ := run_orErr_ok.mp hi
  obtain ⟨hacc, -⟩ := run_orErr_ok.mp hacc
  have hlast := (run_failIf_ok.mp hlast).1
  have hfh := (run_failIf_ok.mp hfh).1
  obtain ⟨hlt, hpi, -⟩ := List.findIdx?_eq_some_iff_getElem.mp hi
  rw [List.getElem?_eq_getElem hlt, Option.some.injEq] at hacc
  rw [hacc, Bool.and_eq_true, beq_iff_eq, beq_iff_eq] at hpi
  -- the accept is the last block of the provider
  obtain ⟨rest, last, rfl⟩ : ∃ rest last, pchain = rest ++ [last] :=
    ⟨pchain.dropLast, pchain.getLast (List.ne_nil_of_length_pos (by omega)),
      (List.dropLast_append_getLast _).symm⟩
  have hidx : i = rest.length := by
    rw [List.length_append, List.length_singleton] at hlast
    omega
  subst hidx
  obtain rfl : last = accept := by simpa using hacc
  by_cases hfree : s.locks (.account l.provider) = none
  · have htry : (tryAcquire c.tid (.account l.provider)).run s =
        some (.ok true, s.setLock (.account l.provider) (some c.tid)) := by
      unfold tryAcquire
      rw [run_act, if_pos hfree]
      rfl
    rw [run_bind_of_ok htry, run_bind_of_ok (a := ()) (run_failIf_ok.mpr ⟨by simp, rfl⟩),
      run_deferring_eq_some] at h
    obtain ⟨s₂, hrun, rfl⟩ := h
    rw [run_wrapErr, Option.map_eq_some_iff] at hrun
    obtain ⟨⟨r₀, s₃⟩, hundo, heq⟩ := hrun
    cases heq
    rcases undoBlockApply_cases hundo with ⟨e, rfl, rfl⟩ | ⟨rfl, rest', last', e, hc, -, hu, rfl⟩
    · exact .inl ⟨_, rfl, s.setLock_same hfree _⟩
    · have hc' : some (rest ++ [last]) = some (rest' ++ [last']) := hp.symm.trans hc
      obtain ⟨rfl, hlast'⟩ := List.append_inj' (Option.some.inj hc') rfl
      obtain rfl := List.singleton_inj.mp hlast'
      refine .inr ⟨rfl, _, .intro l last rest e ht hl hst hne hp hpi.1 hpi.2 (by omega) hfree hu, ?_⟩
      rw [undone_setLock]
      refine State.setLock_same _ ?_ _
      rw [← hfree]
      exact congrArg (fun f : Frame => f.locks _) (undone_frame s _)
  · have htry : (tryAcquire c.tid (.account l.provider)).run s = some (.ok false, s) := by
      unfold tryAcquire
      rw [run_act, if_neg hfree]
      rfl
    rw [run_bind_of_ok htry] at h
    obtain herr | ⟨_, hno, -⟩ := ((readOnly_failIf _ _).still s).bind_cases h
    · exact .inl herr
    · exact absurd rfl (run_failIf_ok.mp hno).1

/-- **What the check of the lease does before a cancel goes on**: nothing, or it takes the provider's
accept off. -/
theorem checkCancellable_cases {c : Ctx} {s s' : State} {b : Block} {r : Except Fault Unit}
    (ht : b.type = .leaseCancel) (h : (checkCancellable c b).run s = some (r, s')) :
    s' = s ∨ r = .ok () ∧ ∃ u, CancelWins s b u ∧ s' = s.undone u := by
  unfold checkCancellable at h
  rw [run_getLeaseOverlay_bind] at h
  cases hl : s.leaseOf b.source with
  | none =>
    simp only [hl] at h
    cases h
    exact .inl rfl
  | some l =>
    simp only [hl] at h
    by_cases hw : l.state = .accepted ∧ l.provider ≠ b.account
    · rw [if_pos hw] at h
      rcases resolveCancelWinsOverAccept_cases ht hl hw.1 hw.2 h with ⟨e, -, hs⟩ | hok
      · exact .inl hs
      · exact .inr hok
    · rw [if_neg hw] at h
      exact .inl ((readOnly_failIf _ _).still s _ _ h)

/-- The state in which the handler of `b` ends its checks. -/
inductive Unwound (s : State) (b : Block) : State → Prop
  | same : Unwound s b s
  | cancelWins (u : BlockUndo × MemUndo) (h : CancelWins s b u) : Unwound s b (s.undone u)

/-! ## A whole handler -/

theorem finishWrite_error {s s' : State} {p : Prepared} {e : Fault}
    (h : (finishWrite p).run s = some (.error e, s')) : s' = s := by
  by_cases hw : ∃ cb, s.mem.activeCascade = some cb ∧ cb.winnerHash = p.commit.block.hash
  · obtain ⟨cb, hcb, hw⟩ := hw
    rw [run_finishWrite_cascade hcb p hw] at h
    rcases hc : Store.commitCascade cb.undos (p.request s) s.store with ⟨f | _, st⟩
    · simp only [hc] at h
      cases h
      rw [commitCascade_error hc]
    · simp only [hc] at h
      cases h
  · rw [run_finishWrite_alone fun cb hcb hw' => hw ⟨cb, hcb, hw'⟩] at h
    cases hc : s.store.applyCommit (p.request s) with
    | error f =>
      simp only [hc] at h
      cases h
      rfl
    | ok st =>
      simp only [hc] at h
      cases h

/-- What the handler of `b` has established when it writes `p`. -/
structure Writes (c : Ctx) (s : State) (b : Block) (p : Prepared) (s' : State) : Prop where
  key : validatePubKeyDeclaration c.lib b = .ok ()
  extends_ : b.type ≠ .genesis → Extends s.reads b
  checked : Checked c s.reads b p
  write : (finishWrite p).run s = some (.ok (), s')

theorem CancelSource.of_blocks {s s₁ : State} {b lb : Block} (h : CancelSource s b lb)
    (hb : s₁.store.blocks = s.store.blocks) : CancelSource s₁ b lb :=
  ⟨h.asset, h.source, by rw [hb]; exact h.block, h.blockType, h.consumer⟩

theorem undone_blocks (s : State) (u : BlockUndo × MemUndo) :
    (s.undone u).store.blocks = s.store.blocks :=
  congrArg Book.blocks (undone_book s u)

/-- The checks of a cancel may take the accept of its lease off, whether they pass or not. -/
theorem prepareLeaseCancel_cases {c : Ctx} {s s' : State} {b : Block} {r : Except Fault Prepared}
    (ht : b.type = .leaseCancel) (h : (prepareLeaseCancel c b).run s = some (r, s')) :
    Unwound s b s' ∧ ∀ p, r = .ok p → Extends s'.reads b ∧ Checked c s'.reads b p := by
  unfold prepareLeaseCancel at h
  obtain ⟨e, rfl, rfl⟩ | ⟨lb, hlb, h⟩ := ((readOnly_checkCancelSource b).still s).bind_cases h
  · exact ⟨.same, fun p hp => nomatch hp⟩
  have hsrc : CancelSource s b lb := by
    have hrun : (checkCancelSource b >>= fun lb => pure lb).run s = some (.ok lb, s) := by
      rw [run_bind_of_ok hlb]
      rfl
    obtain ⟨lb', hsrc, heq⟩ := run_checkCancelSource_bind_ok.mp hrun
    cases heq
    exact hsrc
  rcases run_bind_eq_some.mp h with ⟨e, he, rfl⟩ | ⟨u, s₁, hu, hrest⟩
  · rcases checkCancellable_cases ht he with rfl | ⟨hok, -⟩
    · exact ⟨.same, fun p hp => nomatch hp⟩
    · cases hok
  · have hs₁ : Unwound s b s₁ ∧ s₁.store.blocks = s.store.blocks := by
      rcases checkCancellable_cases ht hu with rfl | ⟨-, x, hx, rfl⟩
      · exact ⟨.same, rfl⟩
      · exact ⟨.cancelWins x hx, undone_blocks s x⟩
    obtain rfl := run_readOnly (readOnly_checkRefund b lb) hrest
    refine ⟨hs₁.1, ?_⟩
    rintro p rfl
    obtain ⟨-, hext, hch⟩ := checkRefund_ok (c := c) ht (hsrc.of_blocks hs₁.2) hrest
    exact ⟨hext, hch⟩

/-- **What the checks of a block come to.** -/
theorem prepare_outcome {c : Ctx} {s s' : State} {b : Block} {skip : Bool}
    {r : Except Fault Prepared} (h : (prepare c b skip).run s = some (r, s')) :
    Unwound s b s' ∧ ∀ p, r = .ok p →
      (b.type ≠ .genesis → Extends s'.reads b) ∧ Checked c s'.reads b p := by
  by_cases ht : b.type = .leaseCancel
  · have hprep : prepare c b skip = prepareLeaseCancel c b := by
      simp only [prepare, ht]
    rw [hprep] at h
    obtain ⟨hun, hok⟩ := prepareLeaseCancel_cases ht h
    exact ⟨hun, fun p hp => ⟨fun _ => (hok p hp).1, (hok p hp).2⟩⟩
  · obtain rfl := run_readOnly (readOnly_prepare c b skip ht) h
    refine ⟨.same, ?_⟩
    rintro p rfl
    exact (prepare_ok ht h).2

theorem prepare_cases {c : Ctx} {s s' : State} {b : Block} {skip : Bool} {r : Except Fault Unit}
    (hkey : validatePubKeyDeclaration c.lib b = .ok ())
    (h : (prepare c b skip >>= finishWrite).run s = some (r, s')) :
    ∃ s₁, Unwound s b s₁ ∧
      ((∃ e, r = .error e ∧ s' = s₁) ∨ r = .ok () ∧ ∃ p, Writes c s₁ b p s') := by
  rcases run_bind_eq_some.mp h with ⟨e, he, rfl⟩ | ⟨p, s₁, hp, hrun⟩
  · exact ⟨s', (prepare_outcome he).1, .inl ⟨e, rfl, rfl⟩⟩
  · obtain ⟨hun, hok⟩ := prepare_outcome hp
    refine ⟨s₁, hun, ?_⟩
    -- the write fails without a trace, or ends the handler
    cases r with
    | error e => exact .inl ⟨e, rfl, finishWrite_error hrun⟩
    | ok u => exact .inr ⟨rfl, p, hkey, (hok p rfl).1, (hok p rfl).2, hrun⟩

/-- **What the handler of a block has done when it returns**: it may have unwound the accept that its
cancel wins over, and beyond that it has failed without a trace or written its block. -/
theorem dispatch_cases {c : Ctx} {s s' : State} {b : Block} {skip : Bool} {r : Except Fault Unit}
    (hk : s.book.Keyed) (h : (dispatchValidateAndAdd c b skip).run s = some (r, s')) :
    ∃ s₁, Unwound s b s₁ ∧
      ((∃ e, r = .error e ∧ s' = s₁) ∨ r = .ok () ∧ ∃ p, Writes c s₁ b p s') := by
  unfold dispatchValidateAndAdd at h
  obtain ⟨e, rfl, rfl⟩ | ⟨u, hcred, hrest⟩ :=
    (still_verifyBlockCredential hk c.lib b).bind_cases h
  · exact ⟨s', .same, .inl ⟨e, rfl, rfl⟩⟩
  · have hkey : validatePubKeyDeclaration c.lib b = .ok () := by
      unfold verifyBlockCredential at hcred
      rw [run_liftErr_bind_ok] at hcred
      obtain ⟨u, hu, -⟩ := hcred
      exact hu
    rw [validateAndAdd_eq] at hrest
    exact prepare_cases hkey hrest

end Xe
