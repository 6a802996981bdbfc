import XeLattice.Run.Book

/-!
# What a call writes

The two writes of the ledger as functions of the state: a handler's commit (`State.committed`) and
the undo of the last block of a chain (`State.undone`).
-/

set_option autoImplicit false

namespace Xe

open Prog

/-! ## Memory after a commit -/

/-- The memory that `applyCommitMem` leaves. -/
def Memory.afterCommit (c : BlockCommit) (prevBalance : UInt64) (m : Memory) : Memory :=
  let m := (m.addBlockCount 1).setAssetBalance c.account (assetOrXE c.block.asset) c.block.balance
  let m := if c.putAccountKey ≠ [] then m.setAccountKey c.account c.putAccountKey else m
  let m := match c.assetCredit with
    | some d => m.addAssetBalance d
    | none => m
  let newXEBal := m.getAssetBalance c.account assetXE
  m.moveDelegation c.account c.block.representative
    (if assetOrXE c.block.asset = assetXE then prevBalance else newXEBal) newXEBal

theorem run_applyCommitMem (c : BlockCommit) (pb : UInt64) (s : State) :
    (applyCommitMem c pb).run s = some (.ok (), { s with mem := s.mem.afterCommit c pb }) := by
  unfold applyCommitMem Memory.afterCommit
  by_cases hk : c.putAccountKey ≠ []
  · cases hd : c.assetCredit <;> simp [hk] <;> rfl
  · cases hd : c.assetCredit <;> simp [hk] <;> rfl

/-! ## Memory after an undo -/

/-- Runs `f` on the value, if there is one. -/
def onSome {α β : Type} (f : α → β → β) (o : Option α) (b : β) : β :=
  match o with
  | none => b
  | some a => f a b

/-- The memory that `MemUndo.apply` leaves. -/
def MemUndo.memAfter (u : MemUndo) (m : Memory) : Memory :=
  let m := unlessEmpty u.deleteKeysetAccount
    (fun m : Memory => { m with keysets := m.keysets.del u.deleteKeysetAccount }) m
  let m := unlessEmpty u.deleteAccountKeyAccount
    (fun m : Memory => { m with accountKeys := m.accountKeys.del u.deleteAccountKeyAccount }) m
  let m := if u.deleteAccount then m.deleteAccountBalances u.account
    else m.setAssetBalance u.account u.asset u.parentBal
  let m := match u.assetDebit with
    | some d => m.subAssetBalance d
    | none => m
  m.restoreDelegation u

/-- The state that `MemUndo.apply` leaves. -/
def MemUndo.applied (u : MemUndo) (s : State) : State :=
  onSome State.revertReputation u.repRevert { s with mem := u.memAfter s.mem }

theorem run_memUndo_apply (u : MemUndo) (s : State) :
    u.apply.run s = some (.ok (), u.applied s) := by
  unfold MemUndo.apply MemUndo.applied MemUndo.memAfter unlessEmpty onSome
  by_cases h₁ : u.deleteKeysetAccount = [] <;> by_cases h₂ : u.deleteAccountKeyAccount = [] <;>
    by_cases h₃ : u.deleteAccount = true <;> cases h₄ : u.assetDebit <;>
      cases h₅ : u.repRevert <;> simp [h₁, h₂, h₃] <;> rfl

theorem run_memApplies (us : List MemUndo) (s : State) :
    (Prog.forEach us MemUndo.apply).run s =
      some (.ok (), us.foldl (fun s u => u.applied s) s) := by
  induction us generalizing s with
  | nil => rfl
  | cons u us ih =>
    rw [Prog.forEach, ← bind_eq, run_bind_of_ok (run_memUndo_apply u s), ih]
    rfl

/-! ## Reputation stays to itself -/

/-- The state with other reputation records. -/
def State.withReputation (s : State) (r r' : Table Str ReputationAggregate) : State :=
  { s with mem := { s.mem with reputation := r }, store := { s.store with reputation := r' } }

/-- The two states differ in their reputation records only. -/
def SameButReputation (s s' : State) : Prop :=
  ∃ r r', s' = s.withReputation r r'

theorem SameButReputation.refl (s : State) : SameButReputation s s :=
  ⟨s.mem.reputation, s.store.reputation, rfl⟩

theorem SameButReputation.trans {s₁ s₂ s₃ : State} (h : SameButReputation s₁ s₂)
    (h' : SameButReputation s₂ s₃) : SameButReputation s₁ s₃ := by
  obtain ⟨r, r', rfl⟩ := h
  obtain ⟨q, q', rfl⟩ := h'
  exact ⟨q, q', rfl⟩

theorem SameButReputation.foldl {f : State → Str → State}
    (hf : ∀ s a, SameButReputation s (f s a)) (l : List Str) (s : State) :
    SameButReputation s (l.foldl f s) := by
  induction l generalizing s with
  | nil => exact .refl s
  | cons a l ih => exact (hf s a).trans (ih _)

theorem sameButReputation_apply (ev : ReputationEvent) (s : State) :
    SameButReputation s (s.applyReputation ev) :=
  .foldl (fun _ _ => ⟨_, _, rfl⟩) _ s

theorem sameButReputation_revert (ev : ReputationEvent) (s : State) :
    SameButReputation s (s.revertReputation ev) := by
  refine .foldl (fun s a => ?_) _ s
  unfold State.revertReputationOf
  split
  · exact .refl s
  · dsimp only
    split_ifs
    · exact ⟨_, _, rfl⟩
    · exact ⟨_, _, rfl⟩

theorem SameButReputation.onSome {f : ReputationEvent → State → State}
    (hf : ∀ ev s, SameButReputation s (f ev s)) (ev : Option ReputationEvent) (s : State) :
    SameButReputation s (Xe.onSome f ev s) := by
  cases ev with
  | none => exact .refl s
  | some ev => exact hf ev s

/-! ## A handler's write -/

/-- The state after a handler's write. -/
def Prepared.written (p : Prepared) (s : State) : State :=
  let s := { s with mem := s.mem.afterCommit p.commit p.prevBalance }
  let s := onSome State.applyReputation p.event s
  onSome (fun ks s => { s with mem := s.mem.setKeyset p.commit.account ks }) p.commit.putKeyset s

/-- The request with the delegation it stores. -/
def Prepared.request (p : Prepared) (s : State) : BlockCommit :=
  p.commit.withDelegation (s.repBefore p.commit.account)

/-- The state that a handler's commit leaves. -/
def State.committed (s : State) (p : Prepared) : State :=
  p.written { s with store := s.store.afterCommit (p.request s) }

theorem afterCommit_withDelegation (c : BlockCommit) (rep : Str) (pb : UInt64) (m : Memory) :
    m.afterCommit (c.withDelegation rep) pb = m.afterCommit c pb := by
  unfold BlockCommit.withDelegation
  simp only
  split_ifs <;> rfl

theorem run_wrapErr {α : Type} (before : Str) (q : M α) (s : State) :
    (wrapErr before q).run s =
      (q.run s).map (fun x => (x.1.mapError (Store.wrapFault before), x.2)) := by
  unfold wrapErr
  rw [run_handle]
  rcases q.run s with - | ⟨r, s'⟩
  · rfl
  · cases r with
    | ok a => rfl
    | error e => cases e <;> rfl

theorem run_wrapErr_ok {α : Type} {before : Str} {q : M α} {s s' : State} {a : α} :
    (wrapErr before q).run s = some (.ok a, s') ↔ q.run s = some (.ok a, s') := by
  rw [run_wrapErr]
  rcases q.run s with - | ⟨- | x, s₁⟩ <;> simp [Except.mapError]

theorem run_txnStore {α : Type} (f : Store → Except Fault α × Store) (s : State) :
    (txnStore f).run s = some ((f s.store).1, { s with store := (f s.store).2 }) := rfl

theorem run_presentRep (a : Str) (s : State) :
    (presentRep a).run s = some (.ok (s.repBefore a), s) := by
  unfold presentRep State.repBefore
  rw [run_overlayDelegationRep_bind]
  cases s.mem.activeCascade.bind (·.delegation.get a) <;> rfl

theorem withDelegation_block (c : BlockCommit) (rep : Str) :
    (c.withDelegation rep).block = c.block := by
  unfold BlockCommit.withDelegation
  simp only
  split_ifs <;> rfl

theorem run_written (p : Prepared) (s : State) :
    (do applyEvent p.event; cacheKeyset p.commit : M Unit).run
      { s with mem := s.mem.afterCommit p.commit p.prevBalance } = some (.ok (), p.written s) := by
  unfold Prepared.written onSome applyEvent cacheKeyset
  cases p.event <;> cases p.commit.putKeyset <;> rfl

theorem run_commitTail (p : Prepared) (rep : Str) (s : State) :
    (do
      applyCommitMem (p.commit.withDelegation rep) p.prevBalance
      applyEvent p.event
      cacheKeyset p.commit : M Unit).run s = some (.ok (), p.written s) := by
  rw [run_bind_of_ok (run_applyCommitMem _ _ s), afterCommit_withDelegation, run_written]

/-- **A handler's write outside a promotion**, or beside it, is one commit. -/
theorem run_finishWrite_alone {s : State} {p : Prepared}
    (hs : ∀ cb, s.mem.activeCascade = some cb → cb.winnerHash ≠ p.commit.block.hash) :
    (finishWrite p).run s = match s.store.applyCommit (p.request s) with
      | .error e => some (.error (Store.wrapFault (str "CommitBlock: ") e), s)
      | .ok st => some (.ok (), p.written { s with store := st }) := by
  have hbranch : (finishWrite p).run s = (do
      commitAlone (p.request s) p.prevBalance
      applyEvent p.event
      cacheKeyset p.commit : M Unit).run s := by
    simp only [finishWrite, commitBlockWrite, Prog.bind_assoc,
      run_bind_of_ok (run_presentRep p.commit.account s), run_activeCascadeFor_bind]
    cases hq : s.mem.activeCascade with
    | none => rfl
    | some cb =>
      dsimp only
      rw [if_neg (by rw [withDelegation_block]; exact hs cb hq)]
      rfl
  rw [hbranch]
  simp only [commitAlone, Prog.bind_assoc]
  have htx : (wrapErr (str "CommitBlock: ") (txnStore (Store.commitBlock (p.request s)))).run s =
      match s.store.applyCommit (p.request s) with
      | .error e => some (.error (Store.wrapFault (str "CommitBlock: ") e), s)
      | .ok st => some (.ok (), { s with store := st }) := by
    rw [run_wrapErr, run_txnStore, Store.commitBlock]
    cases s.store.applyCommit (p.request s) <;> rfl
  cases h : s.store.applyCommit (p.request s) with
  | error e =>
    rw [h] at htx
    exact run_bind_of_error htx
  | ok st =>
    rw [h] at htx
    exact (run_bind_of_ok htx).trans (run_commitTail p (s.repBefore p.commit.account) _)

/-- The state after the memory side of a promotion's undos. -/
def State.unwound (s : State) (cb : CascadeBuild) : State :=
  let s := cb.memApplies.foldl (fun s u => u.applied s) s
  { s with mem := { s.mem with activeCascade := none } }

/-- **The write of a promotion's winner** is one transaction with the promotion's undos. -/
theorem run_finishWrite_cascade {s : State} {cb : CascadeBuild} (hs : s.mem.activeCascade = some cb)
    (p : Prepared) (hw : cb.winnerHash = p.commit.block.hash) :
    (finishWrite p).run s = match Store.commitCascade cb.undos (p.request s) s.store with
      | (.error e, st) =>
        some (.error (Store.wrapFault (str "CommitCascade: ") e), { s with store := st })
      | (.ok _, st) => some (.ok (), p.written (State.unwound { s with store := st } cb)) := by
  have hw' : cb.winnerHash =
      (p.commit.withDelegation (s.repBefore p.commit.account)).block.hash := by
    rw [withDelegation_block, hw]
  simp only [finishWrite, commitBlockWrite, Prog.bind_assoc,
    run_bind_of_ok (run_presentRep p.commit.account s), run_activeCascadeFor_bind, hs]
  rw [if_pos hw']
  have htx : (wrapErr (str "CommitCascade: ")
      (txnStore (Store.commitCascade cb.undos (p.request s)))).run s =
      match Store.commitCascade cb.undos (p.request s) s.store with
      | (.error e, st) =>
        some (.error (Store.wrapFault (str "CommitCascade: ") e), { s with store := st })
      | (.ok _, st) => some (.ok (), { s with store := st }) := by
    rw [run_wrapErr, run_txnStore]
    rcases Store.commitCascade cb.undos (p.request s) s.store with ⟨- | -, st⟩ <;> rfl
  simp only [commitWinner, Prog.bind_assoc]
  rcases h : Store.commitCascade cb.undos (p.request s) s.store with ⟨e | u, st⟩
  · rw [h] at htx
    exact run_bind_of_error htx
  · rw [h] at htx
    refine (run_bind_of_ok htx).trans ?_
    rw [run_bind_of_ok (run_memApplies _ _),
      run_bind_of_ok (show deactivateCascade.run _ = _ from rfl)]
    exact run_commitTail p (s.repBefore p.commit.account) _

/-! ## Undoing a block -/

/-- `escrowPendingOf`. -/
def escrowOf (blocks : Table Str Block) (leases : Table Str Lease) (h : Str) :
    Option PendingSend :=
  ((blocks.get h).filter (fun lb => lb.type = .lease)).map (fun lb =>
    { sendHash := lb.hash
      source := lb.account
      destination := lb.destination
      amount := escrowAmount lb.amount (leases.get h)
      asset := assetXUSD })

theorem run_escrowPendingOf_bind {α : Type} (h : Str) (k : Option PendingSend → M α) (s : State) :
    (escrowPendingOf h >>= k).run s = (k (escrowOf s.store.blocks s.store.leases h)).run s := by
  unfold escrowPendingOf escrowOf
  rw [Prog.bind_assoc, run_getBlock_bind]
  cases s.store.blocks.get h with
  | none => rfl
  | some lb =>
    by_cases ht : lb.type = .lease
    · simp [ht, Prog.bind_assoc, Option.filter_some]
    · simp [ht, Option.filter_some]

/-- What undoing a block does to the pending entries, the leases and the keysets, read off the
blocks and the leases. -/
inductive Undoes (blocks : Table Str Block) (leases : Table Str Lease) (b : Block) :
    UndoEffect → Prop
  | send (type : b.type = .send) : Undoes blocks leases b { deletePendingID := b.hash }
  | receive (type : b.type = .receive) : Undoes blocks leases b
      { addPending := ((blocks.get b.source).filter (fun s => s.type = .send)).map pendingOfSend }
  | lease (type : b.type = .lease) :
      Undoes blocks leases b { deletePendingID := b.hash, deleteLeaseHash := b.hash }
  | leaseAccept (l : Lease) (type : b.type = .leaseAccept) (record : leases.get b.source = some l) :
      Undoes blocks leases b
        { restoreLease := some (revertLease .created l)
          repRevert := some (revertEvent .leaseAccepted (revertLease .created l)) }
  | leaseSettle (l : Lease) (type : b.type = .leaseSettle) (record : leases.get b.source = some l) :
      Undoes blocks leases b
        { restoreLease := some (revertLease .accepted l)
          addPending := escrowOf blocks leases b.source
          assetDebit := some ⟨b.account, assetXUSD, (revertLease .accepted l).stake⟩
          repRevert := some { revertEvent .leaseSettled (revertLease .accepted l) with
            durationSecs := (revertLease .accepted l).duration } }
  | leaseForceSettle (l : Lease) (type : b.type = .leaseForceSettle)
      (record : leases.get b.source = some l) :
      Undoes blocks leases b
        { restoreLease := some (revertLease .accepted l)
          addPending := escrowOf blocks leases b.source
          repRevert := some (revertEvent .leaseUnfulfilled (revertLease .accepted l)) }
  | leaseCancel (l : Lease) (type : b.type = .leaseCancel) (record : leases.get b.source = some l) :
      Undoes blocks leases b
        { restoreLease := some (revertLease .created l)
          addPending := escrowOf blocks leases b.source
          repRevert := some (revertEvent .leaseCancelled (revertLease .created l)) }
  | leaseRenew (l l' : Lease) (type : b.type = .leaseRenew) (record : leases.get b.source = some l)
      (popped : popRenewal l = some l') :
      Undoes blocks leases b
        { restoreLease := some l'
          reducePendingID := b.source
          reducePendingAmount := b.amount }
  | multisigOpen (type : b.type = .multisigOpen) :
      Undoes blocks leases b { deleteKeysetAccount := b.account }
  | burn (type : b.type = .burn) : Undoes blocks leases b {}
  | mint (type : b.type = .mint) : Undoes blocks leases b {}
  | genesis (type : b.type = .genesis) : Undoes blocks leases b {}
  | other (name : Str) (type : b.type = .other name) : Undoes blocks leases b {}

theorem run_priorLease_bind {α : Type} (h : Str) (t : LeaseState) (k : Option Lease → M α)
    (s : State) :
    (priorLease h t >>= k).run s = (k ((s.store.leases.get h).map (revertLease t))).run s := rfl

theorem run_priorLeasePopRenewal_bind {α : Type} (h : Str) (k : Option Lease → M α) (s : State) :
    (priorLeasePopRenewal h >>= k).run s =
      (k ((s.store.leases.get h).bind popRenewal)).run s := rfl

theorem undoEffect_ok {b : Block} {e : UndoEffect} {s s' : State}
    (h : (undoEffect b).run s = some (.ok e, s')) :
    s' = s ∧ Undoes s.store.blocks s.store.leases b e := by
  obtain ⟨t, ht⟩ : ∃ t, b.type = t := ⟨_, rfl⟩
  unfold undoEffect at h
  cases t <;>
    simp only [ht, run_getBlock_bind, run_priorLease_bind, run_priorLeasePopRenewal_bind,
      run_escrowPendingOf_bind, run_orErr_bind_ok, run_pure, run_throwErr, Option.map_eq_some_iff,
      Option.bind_eq_some_iff] at h
  case send => cases h; exact ⟨rfl, .send ht⟩
  case receive => cases h; exact ⟨rfl, .receive ht⟩
  case genesis => cases h; exact ⟨rfl, .genesis ht⟩
  case lease => cases h; exact ⟨rfl, .lease ht⟩
  case leaseAccept =>
    obtain ⟨_, ⟨l, hl, rfl⟩, h⟩ := h
    cases h
    exact ⟨rfl, .leaseAccept l ht hl⟩
  case leaseSettle =>
    obtain ⟨_, ⟨l, hl, rfl⟩, h⟩ := h
    cases h
    exact ⟨rfl, .leaseSettle l ht hl⟩
  case leaseForceSettle =>
    obtain ⟨_, ⟨l, hl, rfl⟩, h⟩ := h
    cases h
    exact ⟨rfl, .leaseForceSettle l ht hl⟩
  case leaseCancel =>
    obtain ⟨_, ⟨l, hl, rfl⟩, h⟩ := h
    cases h
    exact ⟨rfl, .leaseCancel l ht hl⟩
  case leaseRenew =>
    obtain ⟨l', ⟨l, hl, hpop⟩, h⟩ := h
    cases h
    exact ⟨rfl, .leaseRenew l l' ht hl hpop⟩
  case multisigOpen => cases h; exact ⟨rfl, .multisigOpen ht⟩
  case multisigUpdate => simp at h
  case burn => cases h; exact ⟨rfl, .burn ht⟩
  case mint => cases h; exact ⟨rfl, .mint ht⟩
  case other name => cases h; exact ⟨rfl, .other name ht⟩

/-- The store request that undoes the last block of a chain. -/
def undoRequest (account : Str) (b : Block) (newChain : AccountChain) (e : UndoEffect) :
    BlockUndo where
  account := account
  chain := newChain
  frontierHash := frontier newChain
  addPending := e.addPending
  deletePendingID := e.deletePendingID
  rejectHash := b.hash
  deleteAccount := newChain.isEmpty
  restoreDelegation := true
  prevRep := lastRep newChain
  restoreLease := e.restoreLease
  deleteLeaseHash := e.deleteLeaseHash
  deleteKeysetAccount := e.deleteKeysetAccount
  deleteAccountKeyAccount := if b.pubKey ≠ [] then b.account else []
  assetDebit := e.assetDebit
  reducePendingID := e.reducePendingID
  reducePendingAmount := e.reducePendingAmount

/-- The balance before a block. -/
def parentBalOf (leases : Table Str Lease) (b : Block) (newChain : AccountChain) : UInt64 :=
  if b.previous = zeroPrev then 0
  else if assetOrXE b.asset = assetXUSD then xusdBalanceOnChain leases newChain
  else assetBalanceOnChain newChain (assetOrXE b.asset)

/-- The `MemUndo` of a block. -/
def undoMemory (leases : Table Str Lease) (account : Str) (b : Block) (newChain : AccountChain)
    (last : Block) (e : UndoEffect) : MemUndo where
  account := account
  asset := assetOrXE b.asset
  parentBal := parentBalOf leases b newChain
  xeBefore := assetBalanceOnChain (newChain ++ [last]) assetXE
  xeAfter := assetBalanceOnChain newChain assetXE
  prevRep := lastRep newChain
  deleteAccount := newChain.isEmpty
  deleteKeysetAccount := e.deleteKeysetAccount
  deleteAccountKeyAccount := if b.pubKey ≠ [] then b.account else []
  assetDebit := e.assetDebit
  repRevert := e.repRevert

/-- **The undo of a block** is built from the chain it ends, its effect, and the balances of the
chain without it. -/
theorem buildBlockUndo_ok {account : Str} {b : Block} {chain : Option AccountChain}
    {x : BlockUndo × MemUndo} {s s' : State}
    (h : (buildBlockUndo account b chain).run s = some (.ok x, s')) :
    s' = s ∧ ∃ newChain last e, chain = some (newChain ++ [last]) ∧ last.hash = b.hash ∧
      Undoes s.store.blocks s.store.leases b e ∧
        x = (undoRequest account b newChain e, undoMemory s.store.leases account b newChain last e)
    := by
  rw [buildBlockUndo, run_failIf_bind_ok, not_not] at h
  obtain ⟨hlast, hrest⟩ := h
  obtain ⟨chain, rfl, hch⟩ := Option.bind_eq_some_iff.mp
    (show chain.bind (fun c => c.getLast?.map (·.hash)) = some b.hash by
      rw [← hlast]; cases chain <;> rfl)
  obtain ⟨last, hl, hhash⟩ := Option.map_eq_some_iff.mp hch
  obtain ⟨newChain, rfl⟩ := List.getLast?_eq_some_iff.mp hl
  dsimp only at hrest
  obtain ⟨e, s₁, he, hbal⟩ := run_bind_eq_ok.mp hrest
  obtain ⟨rfl, hund⟩ := undoEffect_ok he
  clear hrest
  simp only [Option.getD_some, List.dropLast_concat] at hbal
  refine ⟨?_, newChain, last, e, rfl, hhash, hund, ?_⟩
  · by_cases hz : b.previous = zeroPrev
    · rw [if_pos hz] at hbal; cases hbal; rfl
    · by_cases hx : assetOrXE b.asset = assetXUSD
      · rw [if_neg hz, if_pos hx] at hbal; cases hbal; rfl
      · rw [if_neg hz, if_neg hx] at hbal; cases hbal; rfl
  · unfold undoMemory parentBalOf
    by_cases hz : b.previous = zeroPrev
    · rw [if_pos hz] at hbal ⊢; cases hbal; rfl
    · by_cases hx : assetOrXE b.asset = assetXUSD
      · rw [if_neg hz, if_pos hx] at hbal ⊢; cases hbal; rfl
      · rw [if_neg hz, if_neg hx] at hbal ⊢; cases hbal; rfl

/-! ## The book after a write -/

/-- The part of a state that neither a commit nor an undo touches. -/
structure Frame where
  kind : StoreKind
  conflicts : Table (Str × Str) Conflict
  staged : Table Str Block
  votes : List Vote
  finalHeight : Table Str ℕ
  finalVotes : Table (Str × Str) Str
  vm : VoteMem
  qm : QuorumMem
  locks : Lock → Option ℕ
  signed : List Vote

/-- What a commit leaves alone. -/
def State.frame (s : State) : Frame where
  kind := s.store.kind
  conflicts := s.store.conflicts
  staged := s.store.staged
  votes := s.store.votes
  finalHeight := s.store.finalHeight
  finalVotes := s.store.finalVotes
  vm := s.vm
  qm := s.qm
  locks := s.locks
  signed := s.signed

namespace SameButReputation

variable {s s' : State}

theorem book (h : SameButReputation s s') : s'.book = s.book := by
  obtain ⟨r, r', rfl⟩ := h
  rfl

theorem frame (h : SameButReputation s s') : s'.frame = s.frame := by
  obtain ⟨r, r', rfl⟩ := h
  rfl

theorem activeCascade (h : SameButReputation s s') :
    s'.mem.activeCascade = s.mem.activeCascade := by
  obtain ⟨r, r', rfl⟩ := h
  rfl

end SameButReputation

theorem afterCommit_book (c : BlockCommit) (pb : UInt64) (st : Store) (m : Memory) :
    bookOf st (m.afterCommit c pb) =
      { bookOf st m with
        balances := c.balancesAfter m.assetBalances
        accountKeys := unlessEmpty c.putAccountKey (·.set c.account c.putAccountKey)
          m.accountKeys } := by
  unfold Memory.afterCommit BlockCommit.balancesAfter unlessEmpty Memory.moveDelegation
  by_cases hk : c.putAccountKey = []
  · cases hd : c.assetCredit <;> simp only [hk, ne_eq, not_true, if_true, if_false] <;>
      split_ifs <;> rfl
  · cases hd : c.assetCredit <;> simp only [hk, ne_eq, not_false_eq_true, if_true, if_false] <;>
      split_ifs <;> rfl

theorem afterCommit_activeCascade (c : BlockCommit) (pb : UInt64) (m : Memory) :
    (m.afterCommit c pb).activeCascade = m.activeCascade := by
  unfold Memory.afterCommit Memory.moveDelegation
  by_cases hk : c.putAccountKey = []
  · cases hd : c.assetCredit <;> simp only [hk, ne_eq, not_true, if_false] <;> split_ifs <;> rfl
  · cases hd : c.assetCredit <;> simp only [hk, ne_eq, not_false_eq_true, if_true] <;>
      split_ifs <;> rfl

section Written

variable (p : Prepared) (s : State)

theorem written_eq : ∃ s₁, SameButReputation
      { s with mem := s.mem.afterCommit p.commit p.prevBalance } s₁ ∧
    p.written s = onSome
      (fun ks (s : State) => { s with mem := s.mem.setKeyset p.commit.account ks })
      p.commit.putKeyset s₁ :=
  ⟨_, .onSome (fun ev s => sameButReputation_apply ev s) p.event _, rfl⟩

theorem written_book : (p.written s).book = s.book.commitMem p.commit := by
  obtain ⟨s₁, h₁, h⟩ := written_eq p s
  have hb : s₁.book = bookOf s.store (s.mem.afterCommit p.commit p.prevBalance) := h₁.book
  rw [afterCommit_book] at hb
  rw [h]
  cases hk : p.commit.putKeyset with
  | none =>
    rw [Book.commitMem, hk]
    exact hb
  | some ks =>
    have hk₁ : s₁.mem.keysets = s.mem.keysets := congrArg Book.keysets hb
    have hstep : State.book { s₁ with mem := s₁.mem.setKeyset p.commit.account ks } =
        { s₁.book with keysets := s₁.mem.keysets.set p.commit.account ks } := rfl
    rw [Book.commitMem, hk]
    exact hstep.trans (by rw [hk₁, hb]; rfl)

theorem written_frame : (p.written s).frame = s.frame := by
  obtain ⟨s₁, h₁, h⟩ := written_eq p s
  have hf : s₁.frame = s.frame := h₁.frame
  rw [h, ← hf]
  cases p.commit.putKeyset <;> rfl

theorem written_activeCascade : (p.written s).mem.activeCascade = s.mem.activeCascade := by
  obtain ⟨s₁, h₁, h⟩ := written_eq p s
  have hc : s₁.mem.activeCascade = s.mem.activeCascade :=
    h₁.activeCascade.trans (afterCommit_activeCascade _ _ _)
  rw [h, ← hc]
  cases p.commit.putKeyset <;> rfl

end Written

section Applied

variable (u : MemUndo) (s : State)

theorem applied_same : SameButReputation { s with mem := u.memAfter s.mem } (u.applied s) :=
  .onSome (fun ev s => sameButReputation_revert ev s) u.repRevert _

theorem restoreDelegation_book (st : Store) (m : Memory) :
    bookOf st (m.restoreDelegation u) = bookOf st m := by
  unfold Memory.restoreDelegation
  dsimp only
  split_ifs <;> rfl

theorem subAssetBalance_eq (d : AssetDelta) (m : Memory) :
    m.subAssetBalance d = { m with
      assetBalances := match m.assetBalances.get d.account with
        | none => m.assetBalances
        | some _ => Balances.put m.assetBalances d.account d.asset
            (if d.amount ≥ Balances.bal m.assetBalances d.account d.asset then 0
              else Balances.bal m.assetBalances d.account d.asset - d.amount) } := by
  unfold Memory.subAssetBalance
  cases m.assetBalances.get d.account <;> rfl

theorem memAfter_book (st : Store) (m : Memory) :
    bookOf st (u.memAfter m) = (bookOf st m).undoMem u := by
  unfold MemUndo.memAfter Book.undoMem MemUndo.balancesAfter delNonempty unlessEmpty
  rw [restoreDelegation_book]
  by_cases h₁ : u.deleteKeysetAccount = [] <;> by_cases h₂ : u.deleteAccountKeyAccount = [] <;>
    by_cases h₃ : u.deleteAccount = true <;> cases h₄ : u.assetDebit <;>
      simp only [h₁, h₂, h₃, if_true, if_false, subAssetBalance_eq] <;> rfl

theorem memAfter_activeCascade (m : Memory) : (u.memAfter m).activeCascade = m.activeCascade := by
  have hr : ∀ m : Memory, (m.restoreDelegation u).activeCascade = m.activeCascade := by
    intro m
    unfold Memory.restoreDelegation
    dsimp only
    split_ifs <;> rfl
  unfold MemUndo.memAfter unlessEmpty
  rw [hr]
  by_cases h₁ : u.deleteKeysetAccount = [] <;> by_cases h₂ : u.deleteAccountKeyAccount = [] <;>
    by_cases h₃ : u.deleteAccount = true <;> cases h₄ : u.assetDebit <;>
      simp only [h₁, h₂, h₃, if_true, if_false, subAssetBalance_eq] <;> rfl

theorem applied_book : (u.applied s).book = s.book.undoMem u :=
  (applied_same u s).book.trans (memAfter_book u s.store s.mem)

theorem applied_frame : (u.applied s).frame = s.frame :=
  (applied_same u s).frame

theorem applied_activeCascade : (u.applied s).mem.activeCascade = s.mem.activeCascade :=
  (applied_same u s).activeCascade.trans (memAfter_activeCascade u s.mem)

end Applied

/-! ## The two writes -/

/-- The state that the undo of a block leaves. -/
def State.undone (s : State) (u : BlockUndo × MemUndo) : State :=
  u.2.applied { s with store := s.store.afterUndo u.1 }

theorem restoreAccountData_leases (st : Store) (u : BlockUndo) :
    (st.restoreAccountData u).leases = u.leasesAfter st.leases := by
  unfold Store.restoreAccountData BlockUndo.leasesAfter delNonempty unlessEmpty
  cases u.restoreLease <;> rfl

theorem afterUndo_store (u : BlockUndo) (st : Store) (m : Memory) :
    bookOf (st.afterUndo u) m = (bookOf st m).undoStore u := by
  unfold bookOf Store.afterUndo Book.undoStore
  rw [restoreAccountData_leases]
  unfold Store.takeBlock BlockUndo.chainsAfter
  split_ifs <;> rfl

theorem undone_book (s : State) (u : BlockUndo × MemUndo) : (s.undone u).book = s.book.undo u := by
  rw [State.undone, applied_book, Book.undo]
  exact congrArg _ (afterUndo_store u.1 s.store s.mem)

theorem undone_frame (s : State) (u : BlockUndo × MemUndo) : (s.undone u).frame = s.frame := by
  rw [State.undone, applied_frame]
  unfold Store.afterUndo Store.takeBlock
  split_ifs <;> rfl

theorem undone_activeCascade (s : State) (u : BlockUndo × MemUndo) :
    (s.undone u).mem.activeCascade = s.mem.activeCascade :=
  applied_activeCascade _ _

theorem afterCommit_store (c : BlockCommit) (rep : Str) (st : Store) (m : Memory) :
    bookOf (st.afterCommit (c.withDelegation rep)) m = (bookOf st m).commitStore c := by
  unfold BlockCommit.withDelegation
  simp only
  split_ifs <;> rfl

theorem committed_book (s : State) (p : Prepared) :
    (s.committed p).book = s.book.commit p.commit := by
  rw [State.committed, written_book, Book.commit]
  exact congrArg _ (afterCommit_store p.commit (s.repBefore p.commit.account) s.store s.mem)

theorem committed_frame (s : State) (p : Prepared) : (s.committed p).frame = s.frame :=
  written_frame p _

theorem committed_activeCascade (s : State) (p : Prepared) :
    (s.committed p).mem.activeCascade = s.mem.activeCascade :=
  written_activeCascade p _

/-! ## The write of a promotion -/

theorem applyUndos_ok {n i : ℕ} {us : List BlockUndo} {st st' : Store}
    (h : st.applyUndos n i us = .ok st') : st' = us.foldl (fun st u => st.afterUndo u) st := by
  induction us generalizing st i with
  | nil =>
    cases h
    rfl
  | cons u us ih =>
    rw [Store.applyUndos] at h
    cases hu : st.applyUndo u with
    | ok st₁ =>
      rw [hu] at h
      rw [List.foldl_cons, ← Store.applyUndo_ok hu]
      exact ih h
    | error e =>
      rw [hu] at h
      cases e <;> cases h

/-- **What the transaction of a promotion writes**: its undos, and then the winner. -/
theorem commitCascade_ok {us : List BlockUndo} {c : BlockCommit} {st st' : Store}
    (hd : c.deletePendingID = [] ∨ c.topUpPendingID = [])
    (h : Store.commitCascade us c st = (.ok (), st')) :
    Store.casLease (str "CommitBlock: ")
        ((us.foldl (fun st u => st.afterUndo u) st).leases.get c.expectLeaseHash) c = .ok () ∧
      st' = (us.foldl (fun st u => st.afterUndo u) st).afterCommit c := by
  have key : ∀ st₁, st.applyUndos us.length 0 us = .ok st₁ → st₁.applyCommit c = .ok st' →
      Store.casLease (str "CommitBlock: ")
          ((us.foldl (fun st u => st.afterUndo u) st).leases.get c.expectLeaseHash) c = .ok () ∧
        st' = (us.foldl (fun st u => st.afterUndo u) st).afterCommit c := by
    intro st₁ h₁ h₂
    rw [applyUndos_ok h₁] at h₂
    exact Store.applyCommit_ok hd h₂
  unfold Store.commitCascade at h
  cases hu : st.applyUndos us.length 0 us with
  | error e =>
    cases hk : st.kind
    · simp only [hk, hu] at h
      split at h <;> cases h
    · simp only [hk, hu] at h
      cases h
  | ok st₁ =>
    cases hc : st₁.applyCommit c with
    | error e =>
      cases hk : st.kind
      · simp only [hk, hu, hc] at h
        split at h <;> cases h
      · simp only [hk, hu, hc] at h
        cases h
    | ok st₂ =>
      have hst : st₂ = st' := by
        cases hk : st.kind
        · simp only [hk, hu, hc] at h
          split at h <;> cases h
          rfl
        · simp only [hk, hu, hc] at h
          cases h
          rfl
      exact key st₁ hu (hst ▸ hc)

theorem casLease_text (before before' : Str) {lease : Option Lease} {c : BlockCommit}
    (h : Store.casLease before lease c = .ok ()) : Store.casLease before' lease c = .ok () := by
  have refused : ∀ (x y z : Str), Store.casError x y z ≠ .ok () := by
    intro x y z hxy
    unfold Store.casError slice12 at hxy
    split_ifs at hxy <;> cases hxy
  unfold Store.casLease at h ⊢
  by_cases he : c.expectLeaseHash = []
  · rw [if_pos he]
  · rw [if_neg he] at h ⊢
    cases lease with
    | none => exact absurd h (refused _ _ _)
    | some l =>
      dsimp only at h ⊢
      split_ifs at h ⊢
      · exact absurd h (refused _ _ _)
      · exact absurd h (refused _ _ _)
      · rfl

/-- The lease that the memory store looks up beforehand is the one its undos leave. -/
theorem leaseAfterUndos_eq {h : Str} (hh : h ≠ []) (us : List BlockUndo) (st : Store) :
    Store.leaseAfterUndos h (st.leases.get h) us =
      (us.foldl (fun st u => st.afterUndo u) st).leases.get h := by
  induction us generalizing st with
  | nil => rfl
  | cons u us ih =>
    rw [List.foldl_cons, ← ih, Store.leaseAfterUndos]
    congr 1
    have hl : (st.afterUndo u).leases = u.leasesAfter st.leases := by
      unfold Store.afterUndo
      rw [restoreAccountData_leases]
      unfold Store.takeBlock Store.mapPending
      split_ifs <;> rfl
    rw [hl, BlockUndo.leasesAfter]
    have hdel : (delNonempty u.deleteLeaseHash
        (Table.putSome (·.leaseHash) u.restoreLease st.leases)).get h =
        if u.deleteLeaseHash = h then none
        else (Table.putSome (·.leaseHash) u.restoreLease st.leases).get h := by
      unfold delNonempty unlessEmpty
      by_cases hd : u.deleteLeaseHash = []
      · rw [if_pos hd, if_neg (by rw [hd]; exact hh.symm)]
      · rw [if_neg hd, Table.get_del]
        simp only [eq_comm]
    rw [hdel]
    cases u.restoreLease with
    | none => rfl
    | some l =>
      rw [Table.putSome_some, Table.get_set]
      simp only [eq_comm]

theorem afterUndo_kind (u : BlockUndo) (st : Store) : (st.afterUndo u).kind = st.kind := by
  unfold Store.afterUndo Store.restoreAccountData Store.mapPending Store.takeBlock
  split_ifs <;> rfl

theorem foldl_afterUndo_kind (us : List BlockUndo) (st : Store) :
    (us.foldl (fun st u => st.afterUndo u) st).kind = st.kind := by
  induction us generalizing st with
  | nil => rfl
  | cons u us ih => rw [List.foldl_cons, ih, afterUndo_kind]

theorem applyCommit_mem {st : Store} (hk : st.kind = .mem) {c : BlockCommit}
    (hc : Store.casLease (str "CommitBlock: ") (st.leases.get c.expectLeaseHash) c = .ok ()) :
    ∃ st', st.applyCommit c = .ok st' := by
  have one : ∀ (st : Store) verb h f, st.kind = .mem →
      ∃ st', st.changeLease verb h f = .ok st' ∧ st'.kind = .mem := by
    intro st verb h f hk
    unfold Store.changeLease
    by_cases hh : h = []
    · exact ⟨st, if_pos hh, hk⟩
    · rw [if_neg hh]
      cases st.leases.get h with
      | some l => exact ⟨_, rfl, hk⟩
      | none => exact ⟨st, by simp only [hk], hk⟩
  have all : ∀ st : Store, st.kind = .mem → ∃ st', st.changeLeases c = .ok st' := by
    intro st hk
    obtain ⟨st₁, h₁, hk₁⟩ := one st "settle" c.settleLeaseHash
      (fun l => { l with settled := true, state := .settled }) hk
    obtain ⟨st₂, h₂, hk₂⟩ := one st₁ "cancel" c.cancelLeaseHash
      (fun l => { l with state := .cancelled }) hk₁
    obtain ⟨st₃, h₃, -⟩ := one st₂ "force-settle" c.unfulfillLeaseHash
      (fun l => { l with settled := true, state := .unfulfilled }) hk₂
    refine ⟨st₃, ?_⟩
    unfold Store.changeLeases
    rw [h₁]
    change (do let st ← st₁.changeLease "cancel" c.cancelLeaseHash _; _) = _
    rw [h₂]
    exact h₃
  unfold Store.applyCommit
  rw [hc]
  have hput : ∃ st', (st.putBlock c).putEscrow c = .ok st' := by
    unfold Store.putEscrow
    have hkind : (st.putBlock c).kind = .mem := hk
    rw [hkind]
    dsimp only
    rw [Store.putPending_eq, Store.deletePending_eq, Store.memAddAmount_eq, Store.putLease_eq]
    exact all _ hk
  obtain ⟨st', hst'⟩ := hput
  exact ⟨st'.putAccountData c, by
    change (do let st ← (st.putBlock c).putEscrow c; Except.ok (st.putAccountData c)) = _
    rw [hst']
    rfl⟩

/-- **A promotion that is refused writes nothing.** -/
theorem commitCascade_error {us : List BlockUndo} {c : BlockCommit} {st st' : Store} {e : Fault}
    (h : Store.commitCascade us c st = (.error e, st')) : st' = st := by
  unfold Store.commitCascade at h
  cases hk : st.kind with
  | badger =>
    simp only [hk] at h
    cases hu : st.applyUndos us.length 0 us with
    | error e =>
      simp only [hu] at h
      cases h
      rfl
    | ok st₁ =>
      simp only [hu] at h
      cases hc : st₁.applyCommit c with
      | error e =>
        simp only [hc] at h
        cases h
        rfl
      | ok st₂ =>
        simp only [hc] at h
        cases h
  | mem =>
    simp only [hk] at h
    cases hcas : Store.casLease (str "CommitCascade: " ++ dec us.length ++ str " undo(s) + winner: ")
        (Store.leaseAfterUndos c.expectLeaseHash (st.leases.get c.expectLeaseHash) us) c with
    | error e =>
      simp only [hcas] at h
      cases h
      rfl
    | ok u =>
      simp only [hcas] at h
      cases hu : st.applyUndos us.length 0 us with
      | error e =>
        simp only [hu] at h
        cases h
        rfl
      | ok st₁ =>
        -- the lease was checked before the first write, and the commit cannot fail any more
        have hst₁ := applyUndos_ok hu
        have hcas' : Store.casLease (str "CommitBlock: ") (st₁.leases.get c.expectLeaseHash) c =
            .ok () := by
          by_cases he : c.expectLeaseHash = []
          · exact if_pos he
          · rw [hst₁, ← leaseAfterUndos_eq he]
            exact casLease_text _ _ hcas
        obtain ⟨st₂, hc⟩ := applyCommit_mem
          (by rw [hst₁, foldl_afterUndo_kind]; exact hk) hcas'
        simp only [hu, hc] at h
        cases h

theorem foldl_applied_book (us : List MemUndo) (s : State) :
    (us.foldl (fun s u => u.applied s) s).book = us.foldl (fun k u => k.undoMem u) s.book := by
  induction us generalizing s with
  | nil => rfl
  | cons u us ih => rw [List.foldl_cons, List.foldl_cons, ih, applied_book]

end Xe
