import XeLattice.Core.Voting
import XeLattice.Inv.Adding

/-!
# What the calls of a node write

Every call is made of a few kinds of single writes: to the memory of the ledger and of the vote and
quorum managers, to a mutex, to one record of the store, and the three transactions of the store.
A relation that contains the writes of a part contains every action of the calls made of them.

* **`LedgerWrites.keeps_dispatch`**, **`QuorumWrites.keeps_tallyAndConfirm`**,
  **`NodeWrites.keeps_addBlock`**: so for the calls of the ledger, of a tally and of a node;
* **`ledgerWrites_sameNotes`**: the ledger's writes leave conflicts, votes and heights alone.
-/

set_option autoImplicit false

namespace Xe

open Prog

/-- The relation contains the writes to a mutex and to the caches of keys. -/
structure CacheWrites (R : State → State → Prop) : Prop where
  refl : ∀ s, R s s
  lock : ∀ s l o, R s (s.setLock l o)
  keyset : ∀ s a ks, R s { s with mem := s.mem.setKeyset a ks }
  accountKey : ∀ s a k, R s { s with mem := s.mem.setAccountKey a k }

/-- The relation contains the single writes that the ledger's code is made of. -/
structure LedgerWrites (R : State → State → Prop) : Prop extends CacheWrites R where
  mem : ∀ s m, R s { s with mem := m }
  reputation : ∀ s s', SameButReputation s s' → R s s'
  commitBlock : ∀ s c, R s { s with store := (s.store.commitBlock c).2 }
  commitUndo : ∀ s u, R s { s with store := (s.store.commitUndo u).2 }
  commitCascade : ∀ s us c, R s { s with store := (s.store.commitCascade us c).2 }

/-! ## Single actions -/

section Actions

variable {R : State → State → Prop} {α : Type} {p : M α}

theorem keeps_txnStore {f : Store → Except Fault α × Store}
    (hf : ∀ s : State, R s { s with store := (f s.store).2 }) : (txnStore f).Keeps R := by
  refine ⟨fun s b s' h => ?_, fun _ => trivial⟩
  cases h
  exact hf s

namespace CacheWrites

variable (hR : CacheWrites R)
include hR

theorem of_readOnly (hp : p.ReadOnly) : p.Keeps R :=
  hp.inert.keeps hR.refl

theorem keeps_tryAcquire (tid : ℕ) (l : Lock) : (tryAcquire tid l).Keeps R := by
  refine ⟨fun s b s' h => ?_, fun _ => trivial⟩
  dsimp only at h
  split_ifs at h
  · cases h
    exact hR.lock s _ _
  · cases h
    exact hR.refl s

theorem keeps_withLock (tid : ℕ) (l : Lock) (hp : p.Keeps R) : (withLock tid l p).Keeps R := by
  refine each_bind (keeps_await fun s s' h => ?_) fun _ =>
    keeps_deferring hp fun s => hR.lock s _ _
  split_ifs at h
  cases h
  exact hR.lock s _ _

theorem keeps_withLocks (tid : ℕ) (ls : List Lock) (hp : p.Keeps R) :
    (withLocks tid ls p).Keeps R := by
  induction ls with
  | nil => exact hp
  | cons l ls ih => exact hR.keeps_withLock tid l ih

end CacheWrites

end Actions

/-! ## Credentials -/

namespace CacheWrites

variable {R : State → State → Prop} (hR : CacheWrites R)
include hR

theorem keeps_verifyBlockCredential (lib : Lib) (b : Block) :
    (verifyBlockCredential lib b).Keeps R := by
  refine CredentialActions.each_verifyBlockCredential ⟨?_, ?_, ?_, ?_⟩ lib b
  · rintro β f s b s' ⟨⟩
    exact hR.refl s
  · rintro β f s b s' ⟨⟩
    exact hR.refl s
  · rintro a ks s b s' ⟨⟩
    exact hR.keyset s a ks
  · rintro a k s b s' ⟨⟩
    exact hR.accountKey s a k

theorem keeps_validateStagedBlock (c : Ctx) (b : Block) (x : UInt64) :
    (validateStagedBlock c b x).Keeps R := by
  obtain ⟨q, hq, heq⟩ := validateStagedBlock_eq c b x
  rw [heq]
  exact each_bind (hR.keeps_verifyBlockCredential c.lib b) fun _ => hR.of_readOnly hq

end CacheWrites

/-! ## Commits -/

namespace LedgerWrites

section Commits

variable {R : State → State → Prop} (hR : LedgerWrites R)
include hR

theorem keeps_writeMem (f : Memory → Memory) : (writeMem f).Keeps R :=
  keeps_wr fun s => hR.mem s _

theorem keeps_applyCommitMem (c : BlockCommit) (x : UInt64) : (applyCommitMem c x).Keeps R := by
  have hdel : (updateDelegation c.account x c.block).Keeps R :=
    each_bind (hR.of_readOnly (readOnly_readMem _)) fun _ => hR.keeps_writeMem _
  unfold applyCommitMem
  refine each_bind (hR.keeps_writeMem _) fun _ => each_bind (hR.keeps_writeMem _) fun _ => ?_
  cases c.assetCredit with
  | none =>
    dsimp only
    split_ifs
    · exact each_bind (hR.keeps_writeMem _) fun _ => hdel
    · exact hdel
  | some d =>
    have hcredit := each_bind (hR.keeps_writeMem (Memory.addAssetBalance d)) fun _ => hdel
    dsimp only
    split_ifs
    · exact each_bind (hR.keeps_writeMem _) fun _ => hcredit
    · exact hcredit

theorem keeps_memUndo (u : MemUndo) : u.apply.Keeps R := by
  have hwrite : ∀ f {k : Unit → M Unit}, (k ()).Keeps R → (writeMem f >>= k).Keeps R :=
    fun f _ hk => each_bind (hR.keeps_writeMem f) fun _ => hk
  have hrevert : ∀ ev, (Prog.wr (State.revertReputation ev) : M Unit).Keeps R :=
    fun ev => keeps_wr fun s => hR.reputation _ _ (sameButReputation_revert ev s)
  unfold MemUndo.apply
  -- the optional writes are tests on the fields of the undo
  cases u.assetDebit <;> cases u.repRevert <;> dsimp only <;> split_ifs <;>
    repeat first
      | exact hrevert _
      | exact each_pure _
      | refine hwrite _ ?_

theorem keeps_commitBlockWrite (c : BlockCommit) (x : UInt64) : (commitBlockWrite c x).Keeps R := by
  have halone : ∀ c, (commitAlone c x).Keeps R := fun c =>
    each_bind (each_wrapErr _ (keeps_txnStore fun s => hR.commitBlock s c)) fun _ =>
      hR.keeps_applyCommitMem c x
  have hwinner : ∀ cascade c, (commitWinner cascade c x).Keeps R := fun cascade c =>
    each_bind (each_wrapErr _ (keeps_txnStore fun s => hR.commitCascade s _ c)) fun _ =>
      each_bind (each_forEach fun u _ => hR.keeps_memUndo u) fun _ =>
        each_bind (hR.keeps_writeMem _) fun _ => hR.keeps_applyCommitMem c x
  have hrep : (presentRep c.account).Keeps R := by
    refine each_bind (each_bind (hR.of_readOnly (readOnly_readMem _)) fun _ => each_pure _)
      fun o => ?_
    cases o with
    | some rep => exact each_pure _
    | none => exact hR.of_readOnly (readOnly_readMem _)
  refine each_bind hrep fun oldRep => each_bind (hR.of_readOnly (readOnly_readMem _)) fun o => ?_
  cases o with
  | none => exact halone _
  | some cascade => exact each_ite (hwinner _ _) (halone _)

theorem keeps_finishWrite (p : Prepared) : (finishWrite p).Keeps R := by
  refine each_bind (hR.keeps_commitBlockWrite _ _) fun _ => each_bind ?_ fun _ => ?_
  · cases p.event with
    | none => exact each_pure _
    | some ev => exact keeps_wr fun s => hR.reputation _ _ (sameButReputation_apply ev s)
  · unfold cacheKeyset
    cases p.commit.putKeyset with
    | none => exact each_pure _
    | some ks => exact hR.keeps_writeMem _

end Commits

/-! ## Handlers and swaps -/

section Handlers

variable {R : State → State → Prop} (hR : LedgerWrites R) (c : Ctx) (b : Block)
include hR

theorem keeps_undoBlockApply (account : Str) : (undoBlockApply account b).Keeps R :=
  each_bind (hR.of_readOnly (readOnly_readStore _)) fun _ =>
    each_bind (hR.of_readOnly (readOnly_buildBlockUndo _ _ _)) fun x =>
      each_bind (keeps_txnStore fun s => hR.commitUndo s x.1) fun _ => hR.keeps_memUndo x.2

theorem keeps_resolveCancelWinsOverAccept (leaseHash provider : Str) :
    (resolveCancelWinsOverAccept c leaseHash provider).Keeps R :=
  each_bind (hR.of_readOnly (readOnly_readStore _)) fun _ => each_bind (each_orFail _ _) fun _ =>
    each_bind (each_orFail _ _) fun _ => each_guard <|
    each_bind (hR.of_readOnly (readOnly_readStore _)) fun _ => each_guard <|
    each_bind (each_orFail _ _) fun _ => each_bind (hR.keeps_tryAcquire _ _) fun _ => each_guard <|
    keeps_deferring (each_wrapErr _ (hR.keeps_undoBlockApply _ _)) fun s => hR.lock s _ _

theorem keeps_prepareLeaseCancel : (prepareLeaseCancel c b).Keeps R := by
  refine each_bind (hR.of_readOnly (readOnly_checkCancelSource b)) fun lb =>
    each_bind (each_bind (hR.of_readOnly (readOnly_getLeaseOverlay _)) fun o => ?_) fun _ =>
      hR.of_readOnly (readOnly_checkRefund b lb)
  cases o with
  | none => exact each_pure _
  | some l => exact each_ite (hR.keeps_resolveCancelWinsOverAccept c _ _) (each_failIf _ _)

theorem keeps_validateAndAdd (skip : Bool) : (validateAndAdd c b skip).Keeps R := by
  rw [validateAndAdd_eq]
  refine each_bind ?_ fun p => hR.keeps_finishWrite p
  by_cases ht : b.type = .leaseCancel
  · rw [prepare, ht]
    exact hR.keeps_prepareLeaseCancel c b
  · exact hR.of_readOnly (readOnly_prepare c b skip ht)

/-- **Every action of a handler is one of the ledger's writes.** -/
theorem keeps_dispatch (skip : Bool) : (dispatchValidateAndAdd c b skip).Keeps R :=
  each_bind (hR.keeps_verifyBlockCredential c.lib b) fun _ => hR.keeps_validateAndAdd c b skip

theorem keeps_promote (cascade : CascadeBuild) (newHash : Str) :
    (promote c cascade newHash b).Keeps R := by
  have hactivate : (activateCascade cascade).Keeps R := by
    refine keeps_txn hR.refl fun s a s' h => ?_
    split at h
    · cases h
    · cases h
      exact hR.mem s _
  refine each_bind (each_wrapErr _ hactivate) fun _ => each_handle (hR.keeps_dispatch c b true)
    fun r => ?_
  rcases r with e | _
  · cases e with
    | panic => exact each_fail _
    | err e => exact each_bind (hR.keeps_writeMem _) fun _ => each_fail _
  · exact hR.keeps_writeMem _

/-- **So is every action of a swap.** -/
theorem keeps_swapBlockLocked (account oldHash newHash : Str) :
    (swapBlockLocked c account oldHash newHash b).Keeps R :=
  each_bind (hR.of_readOnly (readOnly_readStore _)) fun _ => each_bind (each_orFail _ _) fun _ =>
    each_bind (each_orFail _ _) fun _ => each_bind (each_orFail _ _) fun _ =>
    each_bind (hR.of_readOnly (readOnly_readStore _)) fun _ => each_guard <|
    each_bind ((inert_planSwap c _ _ _).keeps hR.refl) fun _ =>
    hR.keeps_withLocks _ _ (each_bind (hR.of_readOnly (readOnly_buildCascade _ _ _)) fun cascade =>
    hR.keeps_promote c b cascade newHash)

end Handlers

end LedgerWrites

/-! ## Tallies and confirmations -/

/-- The relation also contains the writes to the memory of the quorum manager, to the status of a
block and to a final height. -/
structure TallyWrites (R : State → State → Prop) : Prop extends CacheWrites R where
  qm : ∀ s q, R s { s with qm := q }
  blockStatus : ∀ s t, R s { s with store := { s.store with blockStatus := t } }
  finalHeight : ∀ s a n, R s { s with store := s.store.setFinalHeight a n }

/-- The relation also contains the other writes of the quorum code. -/
structure QuorumWrites (R : State → State → Prop) : Prop
    extends LedgerWrites R, TallyWrites R where
  staged : ∀ s t, R s { s with store := { s.store with staged := t } }
  dropVotes : ∀ s a p, R s { s with store := s.store.deleteVotesForConflict a p }
  dropConflict : ∀ s a p, R s { s with store := s.store.deleteConflict a p }

theorem readOnly_getBlockHeight (a h : Str) : (getBlockHeight a h).ReadOnly :=
  each_bind (readOnly_readStore _) fun _ => each_pure _

theorem readOnly_isFinalized (a h : Str) : (isFinalized a h).ReadOnly := by
  refine each_bind (readOnly_getBlockHeight a h) fun o => ?_
  cases o with
  | none => exact each_pure _
  | some n => exact each_bind (readOnly_readStore _) fun _ => each_pure _

theorem readOnly_countedVotes (a p : Str) (vs : List Vote) : (countedVotes a p vs).ReadOnly := by
  induction vs with
  | nil => exact each_pure _
  | cons v vs ih =>
    have hrest : ∀ x : Bool, (do
        let rest ← countedVotes a p vs
        pure (if x then v :: rest else rest) : M (List Vote)).ReadOnly :=
      fun x => each_bind ih fun _ => each_pure _
    unfold countedVotes
    dsimp only
    split_ifs
    · exact hrest false
    · exact each_bind (readOnly_getBlockOrStaged _) fun _ => hrest _

theorem readOnly_getAssetBalanceAtBlock (a x p : Str) :
    (getAssetBalanceAtBlock a x p).ReadOnly := by
  refine each_ite (each_pure _) (each_bind (readOnly_readStore _) fun o => ?_)
  cases o with
  | none => exact each_pure _
  | some ch => exact readOnly_readStore _

/-! ## The shape of a tally -/

section Shape

variable (c : Ctx) (a p : Str)

/-- The total that a tally compares with, once the record is read. -/
def tallyTotal : Option Conflict → M ℕ
  | some cf =>
    if cf.totalWeight > 0 then pure cf.totalWeight.toNat
    else readMem (·.totalDelegatedWeight c.representatives)
  | none => readMem (·.totalDelegatedWeight c.representatives)

/-- The tally of the votes that were counted. -/
def tallyCounted (votes counted : List Vote) (conflict : Option Conflict) (total : ℕ) :
    M (Option QuorumResult) :=
  if total = 0 then pure none else do
    let prevFinalized ← if p = zeroPrev then pure true else isFinalized a p
    let winner ← firstWinner c a p prevFinalized (candidateSet votes conflict) counted total
      (sortStrings (counted.map (·.blockHash)).dedup)
    pure (winner.map (fun w => buildResultFrom c a p w (candidateSet votes conflict)))

theorem finalTally_eq : finalTally c a p =
    readStore (·.votesByConflict a p) >>= fun r => r.toOption.elim (pure none) fun votes =>
      countedVotes a p votes >>= fun counted => getConflict a p >>= fun conflict =>
        tallyTotal c conflict >>= tallyCounted c a p votes counted conflict := by
  unfold finalTally
  congr 1
  funext r
  rcases r with e | votes
  · rfl
  · dsimp only [Except.toOption, Option.elim]
    congr 1
    funext counted
    congr 1
    funext conflict
    cases conflict with
    | none => rfl
    | some cf =>
      by_cases hw : cf.totalWeight > 0
      · simp only [Option.map_some, tallyTotal, if_pos hw]
        rfl
      · simp only [Option.map_some, tallyTotal, if_neg hw]
        rfl

theorem readOnly_tallyTotal (conflict : Option Conflict) : (tallyTotal c conflict).ReadOnly := by
  unfold tallyTotal
  split
  · exact each_ite (each_pure _) (readOnly_readMem _)
  · exact readOnly_readMem _

end Shape

theorem keeps_dropError {R : State → State → Prop} {p : M Unit} (hp : p.Keeps R) :
    (dropError p).Keeps R := by
  refine each_handle hp fun r => ?_
  rcases r with e | _
  · cases e
    · exact each_pure _
    · exact each_fail _
  · exact each_pure _

namespace TallyWrites

variable {R : State → State → Prop} (hR : TallyWrites R) (c : Ctx)
include hR

theorem keeps_promotable (a p h : Str) : (promotable c a p h).Keeps R := by
  refine each_bind (hR.of_readOnly (readOnly_getBlockHeight a h)) fun o => ?_
  cases o with
  | some n =>
    exact each_ite (each_pure _)
      (each_bind (hR.of_readOnly (readOnly_getBlockHeight a p)) fun _ => each_pure _)
  | none =>
    refine each_bind (hR.of_readOnly (readOnly_rd _)) fun _ => each_ite (each_pure _)
      (each_bind (keeps_wr fun s => hR.qm s _) fun _ =>
        each_bind (hR.of_readOnly (readOnly_readStore _)) fun o => ?_)
    cases o with
    | none => exact each_pure _
    | some b =>
      refine each_bind (hR.of_readOnly (readOnly_getAssetBalanceAtBlock _ _ _)) fun _ =>
        each_handle (hR.keeps_validateStagedBlock c b _) fun r => ?_
      rcases r with e | _
      · cases e
        · exact each_pure _
        · exact each_fail _
      · exact each_pure _

theorem keeps_lowestPromotable (a p : Str) (hs : List Str) (best : Str) :
    (lowestPromotable c a p hs best).Keeps R := by
  induction hs generalizing best with
  | nil => exact each_pure _
  | cons h hs ih =>
    exact each_bind (hR.keeps_promotable c a p h) fun _ => ih _

theorem keeps_pickWinner (a p : Str) (final : Bool) (candidates : List Str) (h : Str) :
    (pickWinner c a p final candidates h).Keeps R :=
  each_ite (each_pure _) (each_bind (hR.keeps_promotable c a p h) fun _ =>
    each_ite (each_pure _) (hR.keeps_lowestPromotable c a p _ _))

theorem keeps_firstWinner (a p : Str) (final : Bool) (candidates : List Str) (counted : List Vote)
    (total : ℕ) (hs : List Str) :
    (firstWinner c a p final candidates counted total hs).Keeps R := by
  induction hs with
  | nil => exact each_pure _
  | cons h hs ih =>
    exact each_ite (each_bind (hR.keeps_pickWinner c a p final candidates h) fun _ =>
      each_ite (each_pure _) ih) ih

theorem keeps_finalTally (a p : Str) : (finalTally c a p).Keeps R := by
  rw [finalTally_eq]
  refine each_bind (hR.of_readOnly (readOnly_readStore _)) fun votes => ?_
  rcases votes with e | votes
  · exact each_pure _
  refine each_bind (hR.of_readOnly (readOnly_countedVotes a p votes)) fun counted =>
    each_bind (hR.of_readOnly (readOnly_readStore _)) fun conflict =>
      each_bind (hR.of_readOnly (readOnly_tallyTotal c conflict)) fun total =>
        each_ite (each_pure _) (each_orElse (a := true) (fun final => ?_)
          (hR.of_readOnly (readOnly_isFinalized a p)))
  exact each_bind (hR.keeps_firstWinner c a p final _ _ _ _) fun _ => each_pure _

theorem keeps_checkWinner (r : QuorumResult) (b : Block) : (checkWinner c r b).Keeps R := by
  have hrest : (do
      let parentBal ← getAssetBalanceAtBlock r.conflictAccount (assetOrXE b.asset) r.conflictPrev
      wrapErr (str "confirmConflict: invalid staged winner: ")
        (validateStagedBlock c b parentBal) : M Unit).Keeps R :=
    each_bind (hR.of_readOnly (readOnly_getAssetBalanceAtBlock _ _ _)) fun _ =>
      each_wrapErr _ (hR.keeps_validateStagedBlock c b _)
  refine each_bind (each_done _) fun _ => ?_
  dsimp only
  split_ifs
  · cases hexDecode b.hash with
    | error e => exact each_fail _
    | ok bytes => exact each_guard hrest
  · exact hrest

theorem keeps_advanceFinalHeight (r : QuorumResult) : (advanceFinalHeight r).Keeps R := by
  refine each_bind (hR.of_readOnly (readOnly_getBlockHeight _ _)) fun o => ?_
  cases o with
  | none => exact each_pure _
  | some n =>
    exact each_bind (hR.of_readOnly (readOnly_readStore _)) fun _ =>
      each_ite (keeps_wr fun s => hR.finalHeight s _ n) (each_pure _)

end TallyWrites

namespace QuorumWrites

variable {R : State → State → Prop} (hR : QuorumWrites R) (c : Ctx)
include hR

theorem keeps_cleanup (r : QuorumResult) : (cleanupResolvedConflict r).Keeps R :=
  each_bind (keeps_wr fun s => hR.staged s _) fun _ =>
    each_bind (each_forEach fun _ _ => keeps_wr fun s => hR.blockStatus s _) fun _ =>
    each_bind (each_forEach fun _ _ => keeps_wr fun s => hR.staged s _) fun _ =>
    each_bind (keeps_wr fun s => hR.dropVotes s _ _) fun _ => keeps_wr fun s =>
    hR.dropConflict s _ _

theorem keeps_appendStagedWinner (r : QuorumResult) (b : Block) :
    (appendStagedWinner c r b).Keeps R := by
  refine each_bind (hR.of_readOnly (readOnly_readStore _)) fun _ => each_ite (each_pure _)
    (each_handle (hR.keeps_dispatch c b true) fun x => ?_)
  rcases x with e | _
  · cases e with
    | err e => exact each_ite (each_pure _) (each_fail _)
    | panic => exact each_fail _
  · exact each_pure _

theorem keeps_swapLoser (r : QuorumResult) (b : Block) (losers : List Str) :
    (swapLoser c r b losers).Keeps R := by
  induction losers with
  | nil => exact each_pure _
  | cons h losers ih =>
    refine each_bind (hR.of_readOnly (readOnly_getBlockHeight _ _)) fun o => ?_
    cases o with
    | none => exact ih
    | some n =>
      refine each_bind (hR.of_readOnly (readOnly_readStore _)) fun o => ?_
      cases o with
      | none => exact ih
      | some old =>
        refine each_bind (keeps_wr fun s => hR.staged s _) fun _ =>
          each_handle (hR.keeps_swapBlockLocked c b _ _ _) fun x => ?_
        rcases x with e | _
        · cases e with
          | err e =>
            exact each_bind (each_ite (keeps_wr fun s => hR.qm s _) (each_pure _)) fun _ =>
              each_fail _
          | panic => exact each_fail _
        · exact each_pure _

theorem keeps_promoteWinner (r : QuorumResult) : (promoteWinner c r).Keeps R := by
  refine each_bind (hR.of_readOnly (readOnly_readStore _)) fun o => ?_
  cases o with
  | none => exact each_pure _
  | some b =>
    refine each_bind (hR.of_readOnly (readOnly_getBlockHeight _ _)) fun o => ?_
    cases o with
    | some n => exact each_pure _
    | none =>
      exact each_bind (hR.keeps_checkWinner c r b) fun _ =>
        each_bind (hR.keeps_swapLoser c r b _) fun _ =>
          each_ite (each_pure _) (each_wrapErr _ (hR.keeps_appendStagedWinner c r b))

theorem keeps_confirmConflict (r : QuorumResult) : (confirmConflict c r).Keeps R :=
  each_bind (hR.of_readOnly (readOnly_isFinalized _ _)) fun _ =>
    hR.keeps_withLock _ _ (each_ite (hR.keeps_cleanup r)
      (each_bind (hR.keeps_promoteWinner c r) fun _ =>
        each_ite (each_bind (hR.keeps_advanceFinalHeight r) fun _ =>
          each_bind (keeps_wr fun s => hR.blockStatus s _) fun _ => hR.keeps_cleanup r)
          (each_pure _)))

/-- **Every action of a tally and its confirmation is one of these writes.** -/
theorem keeps_tallyAndConfirm (a p : Str) : (tallyAndConfirm c a p).Keeps R := by
  refine each_bind (hR.keeps_finalTally c a p) fun o => ?_
  cases o with
  | none => exact each_pure _
  | some r =>
    exact each_bind (keeps_dropError (hR.keeps_confirmConflict c r)) fun _ => each_pure _

theorem keeps_retally (a p : Str) : (retally c a p).Keeps R :=
  hR.keeps_withLock _ _ (each_bind (hR.keeps_tallyAndConfirm c a p) fun _ => each_pure _)

end QuorumWrites

/-! ## Conflicts and votes -/

/-- The relation also contains the writes of the vote code that change no vote and no conflict. -/
structure QuietWrites (R : State → State → Prop) : Prop extends TallyWrites R where
  finalVotes : ∀ s t, R s { s with store := { s.store with finalVotes := t } }
  revoted : ∀ s t, R s { s with vm := { s.vm with lastRevoteNanos := t } }
  seen : ∀ s t t', R s { s with vm :=
    { s.vm with seenCandidates := t, lastNewCandidateNanos := t' } }
  signed : ∀ s l, R s { s with signed := l }

/-- The relation also contains the other writes of the conflict and vote code, but those that store
or buffer a vote. -/
structure NodeWrites (R : State → State → Prop) : Prop
    extends QuorumWrites R, QuietWrites R where
  conflict : ∀ s cf, R s { s with store := s.store.saveConflict cf }

theorem readOnly_electionWeight (c : Ctx) (a p rep : Str) :
    (electionWeight c a p rep).ReadOnly := by
  refine each_bind (readOnly_readStore _) fun cf => ?_
  split
  · exact each_pure _
  · exact each_bind (readOnly_readMem _) fun _ => each_pure _

theorem readOnly_finalizedChildAt (a p : Str) : (finalizedChildAt a p).ReadOnly := by
  refine each_bind (readOnly_readStore _) fun ch => ?_
  dsimp only
  split
  · exact each_pure _
  · exact each_bind (readOnly_readStore _) fun _ => each_pure _

theorem readOnly_positionResolved (a p : Str) : (positionResolved a p).ReadOnly := by
  refine each_ite (each_bind (readOnly_readStore _) fun _ => each_pure _)
    (each_bind (readOnly_getBlockHeight _ _) fun o => ?_)
  cases o with
  | none => exact each_pure _
  | some n => exact each_bind (readOnly_readStore _) fun _ => each_pure _

theorem readOnly_depsFinalized (b : Block) : (depsFinalized b).ReadOnly := by
  have hall : ∀ deps, (allFinalized deps).ReadOnly := by
    intro deps
    induction deps with
    | nil => exact each_pure _
    | cons d deps ih =>
      exact each_ite (each_pure _) (each_bind (readOnly_isFinalized _ _) fun _ =>
        each_ite ih (each_pure _))
  refine each_bind ?_ fun deps => hall deps
  unfold blockDependencies
  dsimp only
  split
  · exact each_pure _
  · exact each_ite (each_bind (readOnly_readStore _) fun _ => each_pure _) (each_pure _)

theorem readOnly_gatherCandidates (a p : Str) (seed : List Str) :
    (gatherCandidates a p seed).ReadOnly :=
  each_bind (readOnly_readStore _) fun _ => each_bind (readOnly_readStore _) fun _ => each_pure _

theorem readOnly_eligibleCandidates (cf : Option Conflict) (hs : List Str) :
    (eligibleCandidates cf hs).ReadOnly := by
  induction hs with
  | nil => exact each_pure _
  | cons h hs ih =>
    exact each_bind (readOnly_getBlockOrStaged _) fun _ => each_bind ih fun _ => each_pure _

theorem readOnly_splitPhantoms (hs : List Str) : (splitPhantoms hs).ReadOnly := by
  induction hs with
  | nil => exact each_pure _
  | cons h hs ih =>
    exact each_bind (readOnly_getBlockOrStaged _) fun _ => each_bind ih fun _ => each_pure _

theorem readOnly_validateVote (c : Ctx) (v : Vote) : (validateVote c v).ReadOnly :=
  each_bind (each_done _) fun _ => each_bind (readOnly_readMem _) fun _ => each_guard <|
    each_guard (readOnly_failIf _ _)

theorem readOnly_conflictOrphanedByRollback (cf : Conflict) :
    (conflictOrphanedByRollback cf).ReadOnly :=
  each_bind (readOnly_readStore _) fun _ => each_ite (each_pure _) (readOnly_readStore _)

namespace QuietWrites

variable {R : State → State → Prop} (hR : QuietWrites R) (c : Ctx) (kp : KeyPair) (a p : Str)
include hR

theorem keeps_buildVote (h : Str) (final : Bool) : (buildVote c kp a p h final).Keeps R := by
  refine each_bind (hR.of_readOnly (readOnly_electionWeight _ _ _ _)) fun w => ?_
  dsimp only
  split
  · exact each_pure _
  · cases final with
    | false => exact each_pure _
    | true => exact each_bind (keeps_wr fun s => hR.signed s _) fun _ => each_pure _

theorem keeps_noteHeldCandidates (hs : List Str) : (noteHeldCandidates c a p hs).Keeps R := by
  refine each_forEach fun h _ => each_bind (hR.of_readOnly (readOnly_rd _)) fun _ =>
    each_ite (each_pure _) (each_bind (hR.of_readOnly (readOnly_getBlockOrStaged _)) fun o => ?_)
  cases o with
  | none => exact each_pure _
  | some _ => exact keeps_wr fun s => hR.seen s _ _

theorem keeps_mayRevote : (mayRevote c a p).Keeps R :=
  each_bind (hR.of_readOnly (readOnly_rd _)) fun _ => each_pure _

theorem keeps_repeatFinal (h : Str) : (repeatFinal c kp a p h).Keeps R :=
  each_bind (hR.keeps_mayRevote c a p) fun _ => each_ite
    (each_bind (keeps_wr fun s => hR.revoted s _) fun _ =>
      each_bind (hR.keeps_buildVote c kp a p h true) fun _ => each_pure _) (each_pure _)

theorem keeps_putFinalVoteIfAbsent (h : Str) : (putFinalVoteIfAbsent a p h).Keeps R := by
  refine ⟨fun s b s' hs => ?_, fun _ => each_pure _⟩
  dsimp only at hs
  split at hs
  · cases hs
    exact hR.refl s
  · cases hs
    exact hR.finalVotes s _

theorem keeps_reaffirmFromState : (reaffirmFromState c a p).Keeps R := by
  unfold reaffirmFromState
  split
  · exact each_pure _
  · next kp _ =>
    refine each_bind (hR.of_readOnly (readOnly_readMem _)) fun _ => each_ite (each_pure _) ?_
    refine each_bind ⟨fun s b s' hs => ?_, fun _ => each_pure _⟩ fun _ => each_ite ?_
      (each_pure _)
    · dsimp only at hs
      split_ifs at hs
      · cases hs
        exact hR.revoted s _
      · cases hs
        exact hR.refl s
    · exact each_bind (hR.of_readOnly (readOnly_finalizedChildAt _ _)) fun _ => each_ite
        (each_bind (hR.keeps_buildVote c kp a p _ true) fun _ => each_pure _) (each_pure _)

theorem keeps_votesForPosition : (votesForPosition c a p).Keeps R := by
  refine each_bind (hR.of_readOnly (readOnly_readStore _)) fun out => ?_
  split
  · exact each_pure _
  · next kp _ =>
    exact each_bind (hR.of_readOnly (readOnly_readMem _)) fun _ => each_ite (each_pure _)
      (each_bind (hR.of_readOnly (readOnly_finalizedChildAt _ _)) fun _ => each_ite (each_pure _)
        (each_bind (hR.keeps_buildVote c kp a p _ true) fun _ => each_pure _))

end QuietWrites

namespace NodeWrites

section Blocks

variable {R : State → State → Prop} (hR : NodeWrites R) (c : Ctx)
include hR

theorem keeps_recordAndStage (b : Block) (sibling : Str) :
    (recordAndStage c b sibling).Keeps R := by
  have hrecord : (recordConflict c b.account b.previous sibling b.hash).Keeps R := by
    refine each_bind (hR.of_readOnly (readOnly_readStore _)) fun o => ?_
    cases o with
    | none => exact each_bind (keeps_wr fun s => hR.conflict s _) fun _ => each_pure _
    | some cf =>
      exact each_ite (each_pure _)
        (each_bind (keeps_wr fun s => hR.conflict s _) fun _ => each_pure _)
  refine each_bind hrecord fun isNew => each_bind (hR.of_readOnly (readOnly_readStore _))
    fun record => ?_
  refine each_when (each_ite ?_ (each_pure _)) (keeps_wr fun s => hR.staged s _)
  -- the snapshot of a new record
  refine each_bind (hR.of_readOnly (readOnly_readStore _)) fun o => ?_
  cases o with
  | none => exact each_pure _
  | some record =>
    exact each_bind (hR.of_readOnly (readOnly_readMem _)) fun _ => keeps_wr fun s =>
      hR.conflict s _

theorem keeps_stageConflict (b : Block) (chain : Option AccountChain) (sibling : Str) :
    (stageConflict c b chain sibling).Keeps R :=
  each_bind (hR.of_readOnly (readOnly_isFinalized _ _)) fun _ => each_guard <| each_guard <|
    each_guard <| each_bind (each_wrapErr _ (hR.keeps_validateStagedBlock c b _)) fun _ =>
    hR.keeps_recordAndStage c b sibling

/-- **Every action of `AddBlock` is one of these writes.** -/
theorem keeps_addBlock (b : Block) (skip : Bool) : (addBlock c b skip).Keeps R := by
  have hadd : ∀ b, (addBlockUnderLocks.addUncontested c b skip).Keeps R := fun b =>
    each_bind (hR.of_readOnly (readOnly_readStore _)) fun _ => each_guard <| each_guard <|
      each_guard <| each_handle (hR.keeps_dispatch c b skip) fun _ => each_done _
  have hlocked : ∀ b, (addBlockUnderLocks c b skip).Keeps R := by
    intro b
    refine each_bind (hR.of_readOnly (readOnly_readStore _)) fun o => ?_
    cases o with
    | some _ => exact each_pure _
    | none =>
      refine each_bind (hR.keeps_verifyBlockCredential c.lib b) fun _ =>
        each_bind (hR.of_readOnly (readOnly_readStore _)) fun chain => ?_
      split
      · exact each_ite (hR.keeps_stageConflict c b _ _) (hadd b)
      · exact hadd b
  exact each_bind (hR.of_readOnly (readOnly_checkForm _ skip)) fun _ => hR.keeps_withLock _ _
    (each_ite (hR.keeps_withLock _ _ (hlocked _)) (hlocked _))

theorem keeps_swapBlock (account oldHash newHash : Str) (b : Block) :
    (swapBlock c account oldHash newHash b).Keeps R :=
  each_bind (each_done _) fun _ => hR.keeps_withLock _ _
    (hR.keeps_swapBlockLocked c b account oldHash newHash)

end Blocks

section Conflicts

variable {R : State → State → Prop} (hR : NodeWrites R) (c : Ctx) (cf : Conflict)
include hR

theorem keeps_dropConflictIfOrphaned : (dropConflictIfOrphaned c cf).Keeps R :=
  hR.keeps_withLock _ _ (each_bind (hR.of_readOnly (readOnly_conflictOrphanedByRollback cf))
    fun _ => each_ite (each_bind (keeps_wr fun s => hR.dropVotes s _ _) fun _ =>
      each_bind (keeps_wr fun s => hR.dropConflict s _ _) fun _ => each_pure _) (each_pure _))

theorem keeps_dropConflictIfResolved : (dropConflictIfResolved c cf).Keeps R :=
  each_bind (hR.of_readOnly (readOnly_finalizedChildAt _ _)) fun _ => each_ite (each_pure _)
    (each_bind (hR.keeps_withLock _ _ (hR.keeps_withLock _ _ (hR.keeps_cleanup _)))
      fun _ => each_pure _)

theorem keeps_resolvePhantoms (real live dead : List Str) :
    (resolvePhantoms c cf real live dead).Keeps R := by
  have htrim : ∀ kept, (trimPhantoms cf dead kept).Keeps R :=
    fun kept => each_ite (each_pure _) (keeps_wr fun s => hR.conflict s _)
  unfold resolvePhantoms
  split
  · by_cases hlive : live = []
    · rw [if_pos hlive]
      exact each_bind (keeps_wr fun s => hR.dropConflict s _ _) fun _ => each_pure _
    · rw [if_neg hlive]
      exact each_bind (htrim _) fun _ => each_pure _
  · exact each_bind (hR.of_readOnly (readOnly_isFinalized _ _)) fun _ =>
      each_ite (each_bind (keeps_wr fun s => hR.dropVotes s _ _) fun _ =>
        each_bind (keeps_wr fun s => hR.dropConflict s _ _) fun _ => each_pure _)
        (each_bind (htrim _) fun _ => each_bind (hR.keeps_tallyAndConfirm c _ _) fun _ =>
          each_pure _)
  · exact each_bind (htrim _) fun _ => each_pure _

theorem keeps_evictPhantomsAndResolve : (evictPhantomsAndResolve c cf).Keeps R :=
  each_bind (hR.of_readOnly (readOnly_splitPhantoms _)) fun _ => each_ite (each_pure _)
    (each_bind (hR.of_readOnly (readOnly_readStore _)) fun _ =>
      each_ite (hR.keeps_resolvePhantoms c cf _ _ _) (hR.keeps_resolvePhantoms c cf _ _ _))

end Conflicts

end NodeWrites

/-! ## Notes -/

/-- What a node has noted about conflicts and votes. -/
structure Notes where
  kind : StoreKind
  conflicts : Table (Str × Str) Conflict
  staged : Table Str Block
  votes : List Vote
  finalHeight : Table Str ℕ
  finalVotes : Table (Str × Str) Str

/-- The notes of a store. -/
def Store.notes (st : Store) : Notes where
  kind := st.kind
  conflicts := st.conflicts
  staged := st.staged
  votes := st.votes
  finalHeight := st.finalHeight
  finalVotes := st.finalVotes

namespace Store

variable {st st' : Store}

@[simp] theorem notes_putPending (ps : Option PendingSend) :
    (st.putPending ps).notes = st.notes := by
  cases ps <;> rfl

@[simp] theorem notes_deletePending (id : Str) : (st.deletePending id).notes = st.notes := by
  unfold deletePending
  split_ifs <;> rfl

@[simp] theorem notes_putLease (l : Option Lease) : (st.putLease l).notes = st.notes := by
  cases l <;> rfl

@[simp] theorem notes_memAddAmount (id : Str) (x : UInt64) :
    (st.memAddAmount id x).notes = st.notes := by
  unfold memAddAmount
  split_ifs
  · rfl
  · split <;> rfl

@[simp] theorem notes_putBlock (c : BlockCommit) : (st.putBlock c).notes = st.notes := rfl

@[simp] theorem notes_putAccountData (c : BlockCommit) :
    (st.putAccountData c).notes = st.notes := rfl

@[simp] theorem notes_takeBlock (u : BlockUndo) : (st.takeBlock u).notes = st.notes := by
  unfold takeBlock
  split_ifs <;> rfl

@[simp] theorem notes_restoreAccountData (u : BlockUndo) :
    (st.restoreAccountData u).notes = st.notes := rfl

theorem notes_addToPendingAmount {id : Str} {x : Int64} (h : st.addToPendingAmount id x = .ok st') :
    st'.notes = st.notes := by
  unfold addToPendingAmount at h
  by_cases hid : id = []
  · rw [if_pos hid] at h
    cases h
    rfl
  · rw [if_neg hid] at h
    split at h
    · cases h
    · next ps _ =>
      by_cases hlow : x < 0 ∧ (-x).toUInt64 > ps.amount
      · rw [if_pos hlow] at h
        cases h
      · rw [if_neg hlow] at h
        cases h
        rfl

theorem notes_changeLease {verb : String} {h : Str} {f : Lease → Lease}
    (hst : st.changeLease verb h f = .ok st') : st'.notes = st.notes := by
  unfold changeLease at hst
  split_ifs at hst
  · cases hst
    rfl
  · split at hst
    · cases hst
      rfl
    · split at hst
      · cases hst
        rfl
      · unfold errWith12 at hst
        obtain ⟨_, -, hst⟩ := bind_eq_ok.mp hst
        cases hst

theorem notes_changeLeases {c : BlockCommit} (h : st.changeLeases c = .ok st') :
    st'.notes = st.notes := by
  obtain ⟨st₁, h₁, h⟩ := bind_eq_ok.mp h
  obtain ⟨st₂, h₂, h₃⟩ := bind_eq_ok.mp h
  rw [notes_changeLease h₃, notes_changeLease h₂, notes_changeLease h₁]

theorem notes_putEscrow {c : BlockCommit} (h : st.putEscrow c = .ok st') :
    st'.notes = st.notes := by
  unfold putEscrow at h
  cases hk : st.kind with
  | mem =>
    rw [hk] at h
    simpa using notes_changeLeases h
  | badger =>
    rw [hk] at h
    obtain ⟨st₁, h₁, h⟩ := bind_eq_ok.mp h
    obtain ⟨st₂, h₂, h₃⟩ := bind_eq_ok.mp h
    cases h₃
    rw [notes_deletePending, notes_addToPendingAmount h₂, notes_changeLeases h₁, notes_putLease,
      notes_putPending]

theorem notes_applyCommit {c : BlockCommit} (h : st.applyCommit c = .ok st') :
    st'.notes = st.notes := by
  obtain ⟨_, -, h⟩ := bind_eq_ok.mp h
  obtain ⟨st₁, h₁, h⟩ := bind_eq_ok.mp h
  cases h
  rw [notes_putAccountData, notes_putEscrow h₁, notes_putBlock]

theorem notes_applyUndo {u : BlockUndo} (h : st.applyUndo u = .ok st') : st'.notes = st.notes := by
  obtain ⟨st₁, h₁, h⟩ := bind_eq_ok.mp h
  cases h
  have hreduce : st₁.notes = st.notes := by
    unfold reducePending at h₁
    split at h₁
    · cases h₁
      rw [notes_memAddAmount, notes_takeBlock]
    · rw [notes_addToPendingAmount h₁, notes_takeBlock]
  rw [notes_restoreAccountData, notes_putPending, notes_deletePending, hreduce]

theorem notes_applyUndos {n i : ℕ} {us : List BlockUndo} (h : st.applyUndos n i us = .ok st') :
    st'.notes = st.notes := by
  induction us generalizing st i with
  | nil =>
    cases h
    rfl
  | cons u us ih =>
    unfold applyUndos at h
    split at h
    · next st₁ h₁ => rw [ih h, notes_applyUndo h₁]
    · cases h
    · cases h

theorem notes_commitBlock (c : BlockCommit) : (st.commitBlock c).2.notes = st.notes := by
  unfold commitBlock
  split
  · next st' h => exact notes_applyCommit h
  · rfl

theorem notes_commitUndo (u : BlockUndo) : (st.commitUndo u).2.notes = st.notes := by
  unfold commitUndo
  split
  · next st' h => exact notes_applyUndo h
  · rfl

theorem notes_commitCascade (us : List BlockUndo) (c : BlockCommit) :
    (st.commitCascade us c).2.notes = st.notes := by
  unfold commitCascade
  dsimp only
  split
  · split
    · rfl
    · split
      · rfl
      · next st₁ h₁ =>
        split
        · exact notes_applyUndos h₁
        · next st₂ h₂ => exact (notes_applyCommit h₂).trans (notes_applyUndos h₁)
  · split
    · rfl
    · next st₁ h₁ =>
      split
      · rfl
      · next st₂ h₂ => exact (notes_applyCommit h₂).trans (notes_applyUndos h₁)

end Store

/-- The records of conflicts and votes are the same, in the store and in memory. -/
structure SameNotes (s s' : State) : Prop where
  notes : s'.store.notes = s.store.notes
  vm : s'.vm = s.vm

/-- **The ledger's own writes leave the notes alone.** -/
theorem ledgerWrites_sameNotes : LedgerWrites SameNotes where
  refl _ := ⟨rfl, rfl⟩
  lock _ _ _ := ⟨rfl, rfl⟩
  keyset _ _ _ := ⟨rfl, rfl⟩
  accountKey _ _ _ := ⟨rfl, rfl⟩
  mem _ _ := ⟨rfl, rfl⟩
  reputation := by
    rintro s s' ⟨r, r', rfl⟩
    exact ⟨rfl, rfl⟩
  commitBlock _ c := ⟨Store.notes_commitBlock c, rfl⟩
  commitUndo _ u := ⟨Store.notes_commitUndo u, rfl⟩
  commitCascade _ us c := ⟨Store.notes_commitCascade us c, rfl⟩

end Xe
