import XeLattice.Core.Ledger

/-!
# What a call reads

The reads of the handlers as functions of the state, the overlay of a running promotion included.
With them the checks of a handler are read as plain conditions on the state before the call.
-/

set_option autoImplicit false

namespace Xe

open Prog

namespace State

variable (s : State)

/-- The chain a promotion shows for an account. -/
def overlaidChain (account : Str) : Option AccountChain :=
  s.mem.activeCascade.bind (·.chains.get account)

/-- `getAccountChainOverlay`. -/
def chainOf (account : Str) : Option AccountChain :=
  (s.overlaidChain account).or (s.store.chains.get account)

/-- `getPendingSendOverlay`. -/
def pendingOf (h : Str) : Option PendingSend :=
  (overlayEntry (·.addPending) (·.delPending) s.mem.activeCascade h).getD (s.store.pending.get h)

/-- `getLeaseOverlay`. -/
def leaseOf (h : Str) : Option Lease :=
  (overlayEntry (·.restoreLease) (·.deleteLease) s.mem.activeCascade h).getD (s.store.leases.get h)

/-- `getAssetBalanceOverlay`. -/
def balanceOf (account asset : Str) : UInt64 :=
  match s.overlaidChain account with
  | some ch =>
    if assetOrXE asset = assetXUSD then xusdBalanceOnChain s.store.leases ch
    else assetBalanceOnChain ch (assetOrXE asset)
  | none => s.mem.getAssetBalance account asset

/-- `getKeysetOverlay`. -/
def keysetOf (account : Str) : Option Keyset :=
  if (s.mem.activeCascade.bind (·.deleteKeyset.get account)).isSome then none
  else s.mem.keysets.get account

/-- The representative that `commitBlockWrite` takes for the account's present one. -/
def repBefore (account : Str) : Str :=
  (s.mem.activeCascade.bind (·.delegation.get account)).getD (s.mem.repOf account)

/-- No promotion is running. -/
def quiet : Prop :=
  s.mem.activeCascade = none

end State

/-- The answers that the checks of a handler work from. -/
structure Reads where
  blocks : Table Str Block
  chainOf : Str → Option AccountChain
  pendingOf : Str → Option PendingSend
  leaseOf : Str → Option Lease
  balanceOf : Str → Str → UInt64

/-- What a handler reads in a state. -/
def State.reads (s : State) : Reads where
  blocks := s.store.blocks
  chainOf := s.chainOf
  pendingOf := s.pendingOf
  leaseOf := s.leaseOf
  balanceOf := s.balanceOf

section Reads

variable (s : State)

@[simp] theorem run_readStore {α : Type} (f : Store → α) :
    (readStore f).run s = some (.ok (f s.store), s) := rfl

@[simp] theorem run_readMem {α : Type} (f : Memory → α) :
    (readMem f).run s = some (.ok (f s.mem), s) := rfl

@[simp] theorem run_writeMem (f : Memory → Memory) :
    (writeMem f).run s = some (.ok (), { s with mem := f s.mem }) := rfl

@[simp] theorem run_getBlock (h : Str) :
    (getBlock h).run s = some (.ok (s.store.blocks.get h), s) := rfl

@[simp] theorem run_getAccountChain (a : Str) :
    (getAccountChain a).run s = some (.ok (s.store.chains.get a), s) := rfl

@[simp] theorem run_getConflict (a p : Str) :
    (getConflict a p).run s = some (.ok (s.store.conflicts.get (a, p)), s) := rfl

@[simp] theorem run_activeCascadeFor :
    activeCascadeFor.run s = some (.ok s.mem.activeCascade, s) := rfl

theorem run_overlayChain (a : Str) :
    (overlayChain a).run s = some (.ok (s.overlaidChain a), s) := rfl

@[simp] theorem run_getAccountChainOverlay (a : Str) :
    (getAccountChainOverlay a).run s = some (.ok (s.chainOf a), s) := by
  unfold getAccountChainOverlay State.chainOf
  rw [run_bind_of_ok (run_overlayChain s a)]
  cases s.overlaidChain a <;> rfl

@[simp] theorem run_getPendingSendOverlay (h : Str) :
    (getPendingSendOverlay h).run s = some (.ok (s.pendingOf h), s) := by
  unfold getPendingSendOverlay State.pendingOf
  rw [run_bind_of_ok (run_activeCascadeFor s)]
  cases overlayEntry (·.addPending) (·.delPending) s.mem.activeCascade h <;> rfl

@[simp] theorem run_getLeaseOverlay (h : Str) :
    (getLeaseOverlay h).run s = some (.ok (s.leaseOf h), s) := by
  unfold getLeaseOverlay State.leaseOf
  rw [run_bind_of_ok (run_activeCascadeFor s)]
  cases overlayEntry (·.restoreLease) (·.deleteLease) s.mem.activeCascade h <;> rfl

@[simp] theorem run_getAssetBalanceOverlay (a x : Str) :
    (getAssetBalanceOverlay a x).run s = some (.ok (s.balanceOf a x), s) := by
  unfold getAssetBalanceOverlay State.balanceOf
  rw [run_bind_of_ok (run_overlayChain s a)]
  cases s.overlaidChain a with
  | none => rfl
  | some ch =>
    simp only
    split_ifs <;> rfl

@[simp] theorem run_getKeysetOverlay (a : Str) :
    (getKeysetOverlay a).run s = some (.ok (s.keysetOf a), s) := by
  unfold getKeysetOverlay State.keysetOf
  rw [run_bind_of_ok (run_activeCascadeFor s)]
  split_ifs <;> rfl

@[simp] theorem run_isLiveLeaseEscrow (h : Str) :
    (isLiveLeaseEscrow h).run s = some (.ok (isLive (s.leaseOf h)), s) := by
  unfold isLiveLeaseEscrow
  rw [run_bind_of_ok (run_getLeaseOverlay s h), run_pure]

theorem run_getBlockHeight (a h : Str) :
    (getBlockHeight a h).run s =
      some (.ok ((s.store.chains.get a).bind (heightOn · h)), s) := rfl

/-- Whether `IsFinalized` answers yes. -/
def State.finalizedAt (a h : Str) : Bool :=
  ((s.store.chains.get a).bind (heightOn · h)).any (fun n => decide (n ≤ s.store.finalHeightOf a))

@[simp] theorem run_isFinalized (a h : Str) :
    (isFinalized a h).run s = some (.ok (s.finalizedAt a h), s) := by
  unfold isFinalized State.finalizedAt
  rw [run_bind_of_ok (run_getBlockHeight s a h)]
  cases (s.store.chains.get a).bind (heightOn · h) <;> rfl

@[simp] theorem run_getBlockOrStaged (h : Str) :
    (getBlockOrStaged h).run s =
      some (.ok ((s.store.blocks.get h).or (s.store.staged.get h)), s) := by
  unfold getBlockOrStaged
  rw [run_bind_of_ok (run_getBlock s h)]
  cases s.store.blocks.get h <;> rfl

end Reads

/-! ## Reads without a promotion -/

section Quiet

variable {s : State}

theorem State.quiet.overlaidChain (h : s.quiet) (a : Str) : s.overlaidChain a = none := by
  unfold State.overlaidChain
  rw [h]
  rfl

theorem State.quiet.chainOf (h : s.quiet) (a : Str) : s.chainOf a = s.store.chains.get a := by
  unfold State.chainOf
  rw [h.overlaidChain]
  rfl

theorem State.quiet.pendingOf (h : s.quiet) (k : Str) :
    s.pendingOf k = s.store.pending.get k := by
  unfold State.pendingOf
  rw [h]
  rfl

theorem State.quiet.leaseOf (h : s.quiet) (k : Str) : s.leaseOf k = s.store.leases.get k := by
  unfold State.leaseOf
  rw [h]
  rfl

theorem State.quiet.balanceOf (h : s.quiet) (a x : Str) :
    s.balanceOf a x = s.mem.getAssetBalance a x := by
  unfold State.balanceOf
  rw [h.overlaidChain]

theorem State.quiet.repBefore (h : s.quiet) (a : Str) : s.repBefore a = s.mem.repOf a := by
  unfold State.repBefore
  rw [h]
  rfl

end Quiet

/-! ## Composed checks -/

section Checks

variable {s s' : State}

theorem run_throwErr {α : Type} (msg : Str) :
    (throwErr msg : M α).run s = some (.error (.err (errorf msg)), s) := rfl

@[simp] theorem run_failIf_bind_ok {α : Type} {p : Prop} [Decidable p] {msg : Str} {k : Unit → M α}
    {a : α} :
    (failIf p msg >>= k).run s = some (.ok a, s') ↔ ¬p ∧ (k ()).run s = some (.ok a, s') :=
  run_failIf_bind_eq_ok

@[simp] theorem run_failIf_ok {p : Prop} [Decidable p] {msg : Str} {u : Unit} :
    (failIf p msg).run s = some (.ok u, s') ↔ ¬p ∧ s' = s := by
  unfold failIf Prog.failIf
  split_ifs with h
  · simp [h]
  · simp [h, eq_comm]

@[simp] theorem run_orErr_bind_ok {α β : Type} {x : Option β} {msg : Str} {k : β → M α} {a : α} :
    (orErr x msg >>= k).run s = some (.ok a, s') ↔
      ∃ b, x = some b ∧ (k b).run s = some (.ok a, s') :=
  run_orFail_bind_eq_ok

@[simp] theorem run_orErr_ok {α : Type} {x : Option α} {msg : Str} {a : α} :
    (orErr x msg).run s = some (.ok a, s') ↔ x = some a ∧ s' = s := by
  unfold orErr Prog.orFail
  cases x with
  | none => simp
  | some b => simp [eq_comm]

@[simp] theorem run_liftErr_bind_ok {α β : Type} {before : Str} {x : Except GoError β} {k : β → M α}
    {a : α} :
    (liftErr before x >>= k).run s = some (.ok a, s') ↔
      ∃ b, x = .ok b ∧ (k b).run s = some (.ok a, s') := by
  unfold liftErr
  cases x with
  | error e => simp [run_bind, Except.mapError]
  | ok b => simp [run_bind, Except.mapError]

@[simp] theorem run_liftErr_ok {α : Type} {before : Str} {x : Except GoError α} {a : α} :
    (liftErr before x).run s = some (.ok a, s') ↔ x = .ok a ∧ s' = s := by
  unfold liftErr
  cases x with
  | error e => simp [Except.mapError]
  | ok b => simp [Except.mapError, eq_comm]

@[simp] theorem run_liftFault_bind_ok {α β : Type} {x : Except Fault β} {k : β → M α} {a : α} :
    (liftFault x >>= k).run s = some (.ok a, s') ↔
      ∃ b, x = .ok b ∧ (k b).run s = some (.ok a, s') := by
  unfold liftFault
  cases x with
  | error e => simp [run_bind]
  | ok b => simp [run_bind]

end Checks

/-! ## Reads followed by a continuation -/

section Binds

variable {α : Type} (s : State)

@[simp] theorem run_getBlock_bind (h : Str) (k : Option Block → M α) :
    (getBlock h >>= k).run s = (k (s.store.blocks.get h)).run s := rfl

@[simp] theorem run_getAccountChain_bind (a : Str) (k : Option AccountChain → M α) :
    (getAccountChain a >>= k).run s = (k (s.store.chains.get a)).run s := rfl

@[simp] theorem run_readStore_bind {β : Type} (f : Store → β) (k : β → M α) :
    (readStore f >>= k).run s = (k (f s.store)).run s := rfl

@[simp] theorem run_readMem_bind {β : Type} (f : Memory → β) (k : β → M α) :
    (readMem f >>= k).run s = (k (f s.mem)).run s := rfl

@[simp] theorem run_getConflict_bind (a p : Str) (k : Option Conflict → M α) :
    (getConflict a p >>= k).run s = (k (s.store.conflicts.get (a, p))).run s := rfl

@[simp] theorem run_finalHeight_bind (a : Str) (k : ℕ → M α) :
    (finalHeight a >>= k).run s = (k (s.store.finalHeightOf a)).run s := rfl

@[simp] theorem run_getKeyset_bind (a : Str) (k : Option Keyset → M α) :
    (getKeyset a >>= k).run s = (k (s.mem.keysets.get a)).run s := rfl

@[simp] theorem run_activeCascadeFor_bind (k : Option CascadeBuild → M α) :
    (activeCascadeFor >>= k).run s = (k s.mem.activeCascade).run s := rfl

@[simp] theorem run_overlayDelegationRep_bind (a : Str) (k : Option Str → M α) :
    (overlayDelegationRep a >>= k).run s =
      (k (s.mem.activeCascade.bind (·.delegation.get a))).run s := rfl

@[simp] theorem run_getAccountChainOverlay_bind (a : Str) (k : Option AccountChain → M α) :
    (getAccountChainOverlay a >>= k).run s = (k (s.chainOf a)).run s :=
  run_bind_of_ok (run_getAccountChainOverlay s a)

@[simp] theorem run_getPendingSendOverlay_bind (h : Str) (k : Option PendingSend → M α) :
    (getPendingSendOverlay h >>= k).run s = (k (s.pendingOf h)).run s :=
  run_bind_of_ok (run_getPendingSendOverlay s h)

@[simp] theorem run_getLeaseOverlay_bind (h : Str) (k : Option Lease → M α) :
    (getLeaseOverlay h >>= k).run s = (k (s.leaseOf h)).run s :=
  run_bind_of_ok (run_getLeaseOverlay s h)

@[simp] theorem run_getAssetBalanceOverlay_bind (a x : Str) (k : UInt64 → M α) :
    (getAssetBalanceOverlay a x >>= k).run s = (k (s.balanceOf a x)).run s :=
  run_bind_of_ok (run_getAssetBalanceOverlay s a x)

@[simp] theorem run_getKeysetOverlay_bind (a : Str) (k : Option Keyset → M α) :
    (getKeysetOverlay a >>= k).run s = (k (s.keysetOf a)).run s :=
  run_bind_of_ok (run_getKeysetOverlay s a)

@[simp] theorem run_isLiveLeaseEscrow_bind (h : Str) (k : Bool → M α) :
    (isLiveLeaseEscrow h >>= k).run s = (k (isLive (s.leaseOf h))).run s :=
  run_bind_of_ok (run_isLiveLeaseEscrow s h)

@[simp] theorem run_isFinalized_bind (a h : Str) (k : Bool → M α) :
    (isFinalized a h >>= k).run s = (k (s.finalizedAt a h)).run s :=
  run_bind_of_ok (run_isFinalized s a h)

@[simp] theorem run_getBlockOrStaged_bind (h : Str) (k : Option Block → M α) :
    (getBlockOrStaged h >>= k).run s =
      (k ((s.store.blocks.get h).or (s.store.staged.get h))).run s :=
  run_bind_of_ok (run_getBlockOrStaged s h)

end Binds

end Xe
