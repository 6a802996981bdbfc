import XeLattice.Shares
import XeLattice.Inv.Steps

/-!
# Delegation

Every account stands behind the last representative that its chain names, with its XE balance.  The
memory keeps the weights of the representatives by moving one account's share at a time.

* **`Reachable.delegates`**: so it is in every reachable state.
-/

set_option autoImplicit false

namespace Xe

open Prog Shares

/-! ## Weights -/

/-- The XE of an account. -/
def Book.xe (k : Book) (a : Str) : ℕ :=
  (k.bal a assetXE).toNat

/-- The representative of an account: the last one that its chain names. -/
def Book.rep (k : Book) (a : Str) : Str :=
  lastRep (k.chain a)

/-- What stands behind a representative. -/
def Book.weight (k : Book) (r : Str) : ℕ :=
  total k.chains.keys k.rep k.xe r

/-- A representative as it is stored: the empty one is not. -/
def storedRep (r : Str) : Option Str :=
  if r = [] then none else some r

/-- **Delegations and weights are those of the chains.** -/
structure State.Delegates (s : State) : Prop where
  frontiers : ∀ a, s.store.frontiers.get a =
    if s.book.chain a = [] then none else some (frontier (s.book.chain a))
  stored : ∀ a, s.store.delegations.get a = storedRep (s.book.rep a)
  delegation : ∀ a, s.mem.delegation.get a = storedRep (s.book.rep a)
  weight : ∀ r, r ≠ [] → s.mem.weightOf r = s.book.weight r
  underflow : s.mem.delegationUnderflow = 0

section Rep

variable {k : Book}

theorem lastRep_concat (ch : AccountChain) (b : Block) :
    lastRep (ch ++ [b]) = if b.representative = [] then lastRep ch else b.representative := by
  unfold lastRep
  rw [List.reverse_append, List.reverse_singleton, List.singleton_append, List.find?_cons]
  by_cases h : b.representative = []
  · rw [if_pos h]
    simp [h]
  · rw [if_neg h]
    simp [h]

theorem Book.rep_of_notMem {a : Str} (ha : a ∉ k.chains.keys) : k.rep a = [] := by
  unfold Book.rep Book.chain
  rw [Table.notMem_keys.mp ha]
  rfl

theorem Book.share_of_notMem {r a : Str} (hr : r ≠ []) (ha : a ∉ k.chains.keys) :
    share k.rep k.xe r a = 0 := by
  unfold share
  rw [Book.rep_of_notMem ha, if_neg (Ne.symm hr)]

theorem Memory.repOf_of_stored {m : Memory} {a r : Str} (h : m.delegation.get a = storedRep r) :
    m.repOf a = r := by
  unfold Memory.repOf
  rw [h]
  unfold storedRep
  split_ifs with hr
  · exact hr.symm
  · rfl

end Rep

/-! ## One account moves -/

section Move

variable {m : Memory}

theorem weightOf_subWeight (m : Memory) (q r : Str) (x : UInt64) :
    (m.subWeight q x).weightOf r = m.weightOf r - if q = r then x.toNat else 0 := by
  unfold Memory.subWeight Memory.weightOf
  dsimp only
  rw [Table.get_set]
  by_cases h : r = q
  · rw [if_pos h, if_pos h.symm, h]
    rfl
  · rw [if_neg h, if_neg (Ne.symm h), Nat.sub_zero]

theorem weightOf_addWeight (m : Memory) (q r : Str) (x : UInt64) :
    (m.addWeight q x).weightOf r = m.weightOf r + if q = r then x.toNat else 0 := by
  unfold Memory.addWeight Memory.weightOf
  dsimp only
  rw [Table.get_set]
  by_cases h : r = q
  · rw [if_pos h, if_pos h.symm, h]
    rfl
  · rw [if_neg h, if_neg (Ne.symm h), Nat.add_zero]

theorem get_setRep (m : Memory) (a r x : Str) :
    (m.setRep a r).delegation.get x = if x = a then storedRep r else m.delegation.get x := by
  unfold Memory.setRep storedRep
  dsimp only
  by_cases hr : r = []
  · rw [if_pos hr, if_pos hr, Table.get_del]
  · rw [if_neg hr, if_neg hr, Table.get_set]

/-- What `updateDelegation` does with a share that was counted before. -/
theorem moveDelegation_weight (a rep r : Str) (old new : UInt64) (hr : r ≠ []) :
    (m.moveDelegation a rep old new).weightOf r =
      (m.weightOf r - if m.repOf a = r then old.toNat else 0) +
        if (if rep = [] then m.repOf a else rep) = r then new.toNat else 0 := by
  generalize heff : (if rep = [] then m.repOf a else rep) = eff
  have hsub : ∀ n, (if m.repOf a = [] then m
      else { m.subWeight (m.repOf a) old with delegationUnderflow := n }).weightOf r =
      m.weightOf r - if m.repOf a = r then old.toNat else 0 := by
    intro n
    by_cases ho : m.repOf a = []
    · rw [if_pos ho, ho, if_neg (Ne.symm hr), Nat.sub_zero]
    · rw [if_neg ho]
      exact weightOf_subWeight m _ r old
  unfold Memory.moveDelegation
  dsimp only
  rw [heff]
  by_cases he : eff = []
  · have hnone : (if eff = r then new.toNat else 0) = 0 := if_neg fun h => hr (h.symm.trans he)
    rw [if_pos he, hnone, Nat.add_zero]
    exact hsub _
  · rw [if_neg he, weightOf_addWeight]
    exact congrArg (· + _) (hsub _)

theorem restoreDelegation_weight (u : MemUndo) (r : Str) (hr : r ≠ []) :
    (m.restoreDelegation u).weightOf r =
      (m.weightOf r - if m.repOf u.account = r then u.xeBefore.toNat else 0) +
        if u.prevRep = r then u.xeAfter.toNat else 0 := by
  have hsub : (if m.repOf u.account = [] ∨ m.weights.get (m.repOf u.account) = none then m
      else m.subWeight (m.repOf u.account) u.xeBefore).weightOf r =
      m.weightOf r - if m.repOf u.account = r then u.xeBefore.toNat else 0 := by
    split_ifs with ho hcur hcur
    · -- a representative without a weight has none to lose
      rcases ho with ho | ho
      · exact absurd (hcur.symm.trans ho) hr
      · have hzero : m.weightOf r = 0 := by
          unfold Memory.weightOf
          rw [← hcur, ho]
          rfl
        rw [hzero, Nat.zero_sub]
    · rw [Nat.sub_zero]
    · rw [weightOf_subWeight, if_pos hcur]
    · rw [weightOf_subWeight, if_neg hcur]
  unfold Memory.restoreDelegation
  dsimp only
  by_cases hp : u.prevRep = []
  · have hnone : (if u.prevRep = r then u.xeAfter.toNat else 0) = 0 :=
      if_neg fun h => hr (h.symm.trans hp)
    rw [if_pos hp, hnone, Nat.add_zero]
    exact hsub
  · rw [if_neg hp]
    exact (weightOf_addWeight _ u.prevRep r u.xeAfter).trans (congrArg (· + _) hsub)

end Move

/-! ## Commits -/

section Commit

variable {s : State} {p : Prepared}

/-- Apart from the records of reputation and the keysets, a commit leaves the memory that it has
computed and the store that it has written. -/
theorem committed_parts (s : State) (p : Prepared) :
    ((s.committed p).mem.delegation = (s.mem.afterCommit p.commit p.prevBalance).delegation ∧
      (s.committed p).mem.weights = (s.mem.afterCommit p.commit p.prevBalance).weights ∧
      (s.committed p).mem.delegationUnderflow =
        (s.mem.afterCommit p.commit p.prevBalance).delegationUnderflow ∧
      (s.committed p).mem.assetBalances =
        (s.mem.afterCommit p.commit p.prevBalance).assetBalances) ∧
    (s.committed p).store.delegations = (s.store.afterCommit (p.request s)).delegations ∧
      (s.committed p).store.frontiers = (s.store.afterCommit (p.request s)).frontiers := by
  obtain ⟨s₁, ⟨r, r', h₁⟩, h⟩ := written_eq p { s with store := s.store.afterCommit (p.request s) }
  unfold State.committed
  rw [h, h₁]
  cases p.commit.putKeyset <;> exact ⟨⟨rfl, rfl, rfl, rfl⟩, rfl, rfl⟩

/-- The memory of a commit before it moves the account's share. -/
def Memory.withBlock (c : BlockCommit) (m : Memory) : Memory :=
  let m := (m.addBlockCount 1).setAssetBalance c.account (assetOrXE c.block.asset) c.block.balance
  let m := if c.putAccountKey ≠ [] then m.setAccountKey c.account c.putAccountKey else m
  match c.assetCredit with
  | some d => m.addAssetBalance d
  | none => m

theorem afterCommit_eq_move (m : Memory) (c : BlockCommit) (pb : UInt64) :
    m.afterCommit c pb = (m.withBlock c).moveDelegation c.account c.block.representative
      (if assetOrXE c.block.asset = assetXE then pb
        else (m.withBlock c).getAssetBalance c.account assetXE)
      ((m.withBlock c).getAssetBalance c.account assetXE) := rfl

theorem withBlock_parts (m : Memory) (c : BlockCommit) :
    (m.withBlock c).delegation = m.delegation ∧ (m.withBlock c).weights = m.weights ∧
      (m.withBlock c).delegationUnderflow = m.delegationUnderflow := by
  unfold Memory.withBlock
  dsimp only
  cases c.assetCredit <;> split_ifs <;> exact ⟨rfl, rfl, rfl⟩

theorem moveDelegation_balances (m : Memory) (a rep : Str) (x y : UInt64) :
    (m.moveDelegation a rep x y).assetBalances = m.assetBalances := by
  unfold Memory.moveDelegation
  dsimp only
  split_ifs <;> rfl

theorem moveDelegation_delegation (m : Memory) (a rep x : Str) (old new : UInt64) :
    (m.moveDelegation a rep old new).delegation.get x =
      if x = a then storedRep (if rep = [] then m.repOf a else rep) else m.delegation.get x := by
  have hset : ∀ (m' : Memory) (q : Str), m'.delegation = m.delegation →
      (m'.setRep a q).delegation.get x = if x = a then storedRep q else m.delegation.get x := by
    intro m' q hm'
    rw [get_setRep, hm']
  unfold Memory.moveDelegation
  dsimp only
  generalize (if rep = [] then m.repOf a else rep) = eff
  by_cases he : eff = []
  · rw [if_pos he]
    refine hset _ _ ?_
    split_ifs <;> rfl
  · rw [if_neg he]
    refine hset _ _ ?_
    split_ifs <;> rfl

theorem moveDelegation_underflow (m : Memory) (a rep : Str) (old new : UInt64)
    (h : m.repOf a ≠ [] → old.toNat ≤ m.weightOf (m.repOf a)) :
    (m.moveDelegation a rep old new).delegationUnderflow = m.delegationUnderflow := by
  have hstep : (if m.repOf a = [] then m else { m.subWeight (m.repOf a) old with
      delegationUnderflow := if m.weightOf (m.repOf a) < old.toNat
        then m.delegationUnderflow + 1 else m.delegationUnderflow }).delegationUnderflow =
      m.delegationUnderflow := by
    split_ifs with ho hlt
    · rfl
    · exact absurd (h ho) (by omega)
    · rfl
  unfold Memory.moveDelegation
  dsimp only
  generalize (if rep = [] then m.repOf a else rep) = eff
  by_cases he : eff = []
  · rw [if_pos he]
    exact hstep
  · rw [if_neg he]
    exact hstep

/-- A block goes to the end of its chain, with its balance. -/
structure Puts (s : State) (b : Block) (p : Prepared) : Prop where
  length : b.hash.length = 64
  chains : (s.committed p).book.chains =
    s.book.chains.set b.account (s.book.chain b.account ++ [b])
  balances : ∀ a x, (s.committed p).book.balances.bal a x =
    if a = b.account ∧ x = assetOrXE b.asset then b.balance else s.book.balances.bal a x
  block : p.commit.block = b
  account : p.commit.account = b.account
  frontier : p.commit.frontierHash = b.hash
  delegates : p.commit.deleteDelegation = false
  balance : p.prevBalance = s.mem.getAssetBalance b.account assetXE

theorem Commits.puts {lib : Lib} {stale : Str → Prop} {b : Block} (h : Commits lib stale s b p) :
    Puts s b p :=
  ⟨h.appended.length, h.appended.chains, h.appended.balances, h.block, h.account, h.frontier,
    h.delegates, h.balance⟩

theorem Puts.chain {b : Block} (h : Puts s b p) (a : Str) : (s.committed p).book.chain a =
    if a = b.account then s.book.chain a ++ [b] else s.book.chain a := by
  unfold Book.chain
  rw [h.chains, Table.get_set]
  split_ifs with ha
  · rw [ha]
    rfl
  · rfl

theorem committed_frontiers {b : Block} (h : Puts s b p) :
    (s.store.afterCommit (p.request s)).frontiers = s.store.frontiers.set b.account b.hash := by
  have hreq : (p.request s).frontierHash = p.commit.frontierHash ∧
      (p.request s).account = p.commit.account := by
    unfold Prepared.request BlockCommit.withDelegation
    dsimp only
    split_ifs <;> exact ⟨rfl, rfl⟩
  have hne : b.hash ≠ [] := by
    intro hnil
    have hlen := h.length
    rw [hnil] at hlen
    cases hlen
  change (if (p.request s).frontierHash = [] then s.store.frontiers
    else s.store.frontiers.set (p.request s).account (p.request s).frontierHash) = _
  rw [hreq.1, hreq.2, h.frontier, h.account, if_neg hne]

theorem committed_delegations {b : Block} (hq : s.quiet) (hd : s.Delegates) (h : Puts s b p)
    (a : Str) :
    (s.store.afterCommit (p.request s)).delegations.get a = if a = b.account
      then storedRep (if b.representative = [] then s.book.rep b.account else b.representative)
      else s.store.delegations.get a := by
  have hrep : s.repBefore p.commit.account = s.book.rep b.account := by
    rw [hq.repBefore, h.account]
    exact Memory.repOf_of_stored (hd.delegation b.account)
  change (if (p.request s).deleteDelegation then s.store.delegations.del (p.request s).account
    else if (p.request s).delegationRep = [] then s.store.delegations
    else s.store.delegations.set (p.request s).account (p.request s).delegationRep).get a = _
  unfold Prepared.request BlockCommit.withDelegation
  dsimp only
  rw [hrep, h.block]
  generalize (if b.representative = [] then s.book.rep b.account else b.representative) = eff
  unfold storedRep
  by_cases he : eff = []
  · simp only [if_pos he]
    rw [h.account, if_pos trivial, Table.get_del]
  · simp only [if_neg he]
    rw [h.account, h.delegates, if_neg Bool.false_ne_true, Table.get_set]

/-- **A commit keeps delegations and weights.** -/
theorem Puts.keepsDelegates {b : Block} (hq : s.quiet) (hd : s.Delegates) (ha : Puts s b p) :
    (s.committed p).Delegates := by
  obtain ⟨⟨hdelegation, hweight, hunderflow, hbalances⟩, hstored, hfrontiers⟩ := committed_parts s p
  obtain ⟨hdel, hweights, hunder⟩ := withBlock_parts s.mem p.commit
  rw [afterCommit_eq_move] at hdelegation hweight hunderflow hbalances
  rw [moveDelegation_balances] at hbalances
  have hrep : (s.mem.withBlock p.commit).repOf b.account = s.book.rep b.account :=
    Memory.repOf_of_stored (by rw [hdel]; exact hd.delegation b.account)
  -- the balance after the block, and the one before it
  have hnew : (s.mem.withBlock p.commit).getAssetBalance b.account assetXE =
      (s.committed p).book.bal b.account assetXE :=
    congrArg (fun t : Balances => t.bal b.account assetXE) hbalances.symm
  have hold : (if assetOrXE b.asset = assetXE then p.prevBalance
      else (s.mem.withBlock p.commit).getAssetBalance b.account assetXE) =
      s.book.bal b.account assetXE := by
    split_ifs with hx
    · exact ha.balance
    · rw [hnew, Book.bal, ha.balances, if_neg (fun hc => hx hc.2.symm)]
  rw [ha.block, ha.account, hold, hnew] at hdelegation hweight hunderflow
  have hrepOf : ∀ a, (s.committed p).book.rep a = if a = b.account
      then (if b.representative = [] then s.book.rep a else b.representative)
      else s.book.rep a := by
    intro a
    unfold Book.rep
    rw [ha.chain]
    split_ifs with hc hr
    · rw [lastRep_concat, if_pos hr]
    · rw [lastRep_concat, if_neg hr]
    · rfl
  have hkeys : insert b.account s.book.chains.keys =
      insert b.account (s.committed p).book.chains.keys := by
    rw [ha.chains, Table.keys_set, Finset.insert_idem]
  have hxe : ∀ a, a ≠ b.account → (s.committed p).book.xe a = s.book.xe a := by
    intro a hne
    unfold Book.xe Book.bal
    rw [ha.balances, if_neg (fun hc => hne hc.1)]
  refine ⟨?_, ?_, ?_, ?_, ?_⟩
  · intro a
    rw [hfrontiers, committed_frontiers ha, Table.get_set, ha.chain]
    split_ifs with hc hnil hnil
    · exact absurd hnil (by simp)
    · rw [frontier_concat]
    · rw [hd.frontiers, if_pos hnil]
    · rw [hd.frontiers, if_neg hnil]
  · intro a
    rw [hstored, committed_delegations hq hd ha, hrepOf]
    split_ifs with hc hr
    · rw [hc]
    · rfl
    · exact hd.stored a
  · intro a
    rw [hdelegation, moveDelegation_delegation, hrep, hdel, hrepOf]
    split_ifs with hc hr
    · rw [hc]
    · rfl
    · exact hd.delegation a
  · intro r hr
    have hw : (s.committed p).mem.weightOf r = _ :=
      (congrArg (fun t => (t.get r).getD 0) hweight).trans
        (moveDelegation_weight (m := s.mem.withBlock p.commit) b.account b.representative r
          (s.book.bal b.account assetXE) ((s.committed p).book.bal b.account assetXE) hr)
    have hsame : (s.mem.withBlock p.commit).weightOf r = s.book.weight r :=
      (congrArg (fun t => (t.get r).getD 0) hweights).trans (hd.weight r hr)
    rw [hw, hsame, hrep]
    unfold Book.weight
    rw [total_move (a := b.account) hkeys (fun x hx => by rw [hrepOf, if_neg hx]) hxe
      (Book.share_of_notMem hr) (Book.share_of_notMem hr)]
    have hself : (s.committed p).book.rep b.account =
        if b.representative = [] then s.book.rep b.account else b.representative := by
      rw [hrepOf, if_pos rfl]
    unfold share
    rw [hself]
    rfl
  · rw [hunderflow, moveDelegation_underflow]
    · exact hunder.trans hd.underflow
    · intro hne
      rw [hrep] at hne ⊢
      have hsame : (s.mem.withBlock p.commit).weightOf (s.book.rep b.account) =
          s.book.weight (s.book.rep b.account) :=
        (congrArg (fun t => (t.get (s.book.rep b.account)).getD 0) hweights).trans
          (hd.weight _ hne)
      rw [hsame]
      have hle : share s.book.rep s.book.xe (s.book.rep b.account) b.account ≤
          s.book.weight (s.book.rep b.account) :=
        share_le_total (Book.share_of_notMem hne)
      unfold share at hle
      rw [if_pos rfl] at hle
      exact hle

end Commit

/-! ## Undos -/

section Undo

variable {s : State} {b : Block} {u : BlockUndo × MemUndo}

/-- Apart from the records of reputation, an undo leaves the memory that it has computed and the
store that it has written. -/
theorem undone_parts (s : State) (u : BlockUndo × MemUndo) :
    ((s.undone u).mem.delegation = (u.2.memAfter s.mem).delegation ∧
      (s.undone u).mem.weights = (u.2.memAfter s.mem).weights ∧
      (s.undone u).mem.delegationUnderflow = (u.2.memAfter s.mem).delegationUnderflow) ∧
    (s.undone u).store.delegations = (s.store.afterUndo u.1).delegations ∧
      (s.undone u).store.frontiers = (s.store.afterUndo u.1).frontiers := by
  obtain ⟨r, r', h⟩ := applied_same u.2 { s with store := s.store.afterUndo u.1 }
  unfold State.undone
  rw [h]
  exact ⟨⟨rfl, rfl, rfl⟩, rfl, rfl⟩

/-- The memory of an undo before it moves the account's share. -/
def Memory.withoutBlock (u : MemUndo) (m : Memory) : Memory :=
  onSome Memory.subAssetBalance u.assetDebit
    (u.dropBalance (unlessEmpty u.deleteAccountKeyAccount
      (fun m : Memory => { m with accountKeys := m.accountKeys.del u.deleteAccountKeyAccount })
      (unlessEmpty u.deleteKeysetAccount
        (fun m : Memory => { m with keysets := m.keysets.del u.deleteKeysetAccount }) m)))

theorem withoutBlock_parts (u : MemUndo) (m : Memory) :
    (m.withoutBlock u).delegation = m.delegation ∧ (m.withoutBlock u).weights = m.weights ∧
      (m.withoutBlock u).delegationUnderflow = m.delegationUnderflow := by
  unfold Memory.withoutBlock MemUndo.dropBalance unlessEmpty
  cases u.assetDebit with
  | none =>
    simp only [onSome]
    split_ifs <;> exact ⟨rfl, rfl, rfl⟩
  | some d =>
    simp only [onSome, subAssetBalance_eq]
    split_ifs <;> exact ⟨rfl, rfl, rfl⟩

theorem restoreDelegation_delegation (m : Memory) (u : MemUndo) (x : Str) :
    (m.restoreDelegation u).delegation.get x =
      if x = u.account then storedRep u.prevRep else m.delegation.get x := by
  unfold Memory.restoreDelegation
  dsimp only
  rw [get_setRep]
  split_ifs <;> rfl

theorem restoreDelegation_underflow (m : Memory) (u : MemUndo) :
    (m.restoreDelegation u).delegationUnderflow = m.delegationUnderflow := by
  unfold Memory.restoreDelegation
  dsimp only
  split_ifs <;> rfl

theorem UndoOf.counted (hk : s.book.Wf) (hd : s.Delegates) (h : UndoOf s b u) :
    s.mem.repOf u.2.account ≠ [] →
      u.2.xeBefore.toNat ≤ s.mem.weightOf (s.mem.repOf u.2.account) := by
  cases h with
  | intro rest e chain type effect =>
    intro hne
    have hrep := Memory.repOf_of_stored (hd.delegation b.account)
    change s.mem.repOf b.account ≠ [] at hne
    change (assetBalanceOnChain (rest ++ [b]) assetXE).toNat ≤ s.mem.weightOf (s.mem.repOf b.account)
    rw [hrep] at hne ⊢
    have hch : s.book.chain b.account = rest ++ [b] := Book.chain_of_get chain
    rw [hd.weight _ hne, ← hch, ← hk.balance]
    have hle : share s.book.rep s.book.xe (s.book.rep b.account) b.account ≤
        s.book.weight (s.book.rep b.account) := share_le_total (Book.share_of_notMem hne)
    unfold share at hle
    rw [if_pos rfl] at hle
    exact hle

/-- **An undo keeps delegations and weights.** -/
theorem UndoOf.delegates (hk : s.book.Wf) (hd : s.Delegates) (h : UndoOf s b u) :
    (s.undone u).Delegates := by
  have hr := h.removed hk
  obtain ⟨⟨hdelegation, hweight, hunderflow⟩, hstored, hfrontiers⟩ := undone_parts s u
  cases h with
  | intro rest e chain type effect =>
    have hch : s.book.chain b.account = rest ++ [b] := Book.chain_of_get chain
    obtain ⟨rest', hrest', hchain⟩ := hr.chain_eq
    obtain rfl : rest' = rest := (List.append_inj' (hrest'.symm.trans hch) rfl).1
    generalize hu : (undoRequest b.account b rest' e,
      undoMemory s.store.leases b.account b rest' b e) = u at *
    have hacc : u.2.account = b.account := by rw [← hu]; rfl
    have hprev : u.2.prevRep = lastRep rest' := by rw [← hu]; rfl
    have hbefore : u.2.xeBefore = s.book.bal b.account assetXE := by
      rw [← hu, Book.bal, hk.balance, hch]
      rfl
    have hafter : u.2.xeAfter = (s.undone u).book.bal b.account assetXE := by
      rw [Book.bal, hr.balances, hchain, if_pos rfl, ← hu]
      rfl
    obtain ⟨hdel, hweights, hunder⟩ := withoutBlock_parts u.2 s.mem
    have hmem : u.2.memAfter s.mem = (s.mem.withoutBlock u.2).restoreDelegation u.2 :=
      memAfter_eq u.2 s.mem
    rw [hmem] at hdelegation hweight hunderflow
    have hrep : (s.mem.withoutBlock u.2).repOf b.account = s.book.rep b.account :=
      Memory.repOf_of_stored (by rw [hdel]; exact hd.delegation b.account)
    have hrepOf : ∀ a, (s.undone u).book.rep a =
        if a = b.account then lastRep rest' else s.book.rep a := by
      intro a
      unfold Book.rep
      rw [hchain]
      split_ifs <;> rfl
    have hkeys : insert b.account s.book.chains.keys =
        insert b.account (s.undone u).book.chains.keys := by
      have hmem : b.account ∈ s.book.chains.keys := Table.mem_keys.mpr ⟨_, chain⟩
      obtain ⟨_, -, hchains⟩ := hr.chain
      rw [hchains]
      split_ifs
      · rw [Table.keys_del, Finset.insert_erase hmem, Finset.insert_eq_of_mem hmem]
      · rw [Table.keys_set, Finset.insert_idem]
    have hxe : ∀ a, a ≠ b.account → (s.undone u).book.xe a = s.book.xe a := by
      intro a hne
      unfold Book.xe Book.bal
      rw [hr.balances, hchain, if_neg hne, hk.balance]
    have hfrontier : (s.store.afterUndo u.1).frontiers =
        if rest'.isEmpty = true then s.store.frontiers.del b.account
        else s.store.frontiers.set b.account (frontier rest') := by
      rw [← hu]
      change (s.store.takeBlock _).frontiers = _
      unfold Store.takeBlock undoRequest
      dsimp only
      split_ifs <;> rfl
    have hstore : (s.store.afterUndo u.1).delegations =
        if lastRep rest' = [] then s.store.delegations.del b.account
        else s.store.delegations.set b.account (lastRep rest') := by
      rw [← hu]
      change (if lastRep rest' = [] then (s.store.takeBlock _).delegations.del b.account
        else (s.store.takeBlock _).delegations.set b.account (lastRep rest')) = _
      unfold Store.takeBlock
      split_ifs <;> rfl
    refine ⟨?_, ?_, ?_, ?_, ?_⟩
    · intro a
      rw [hfrontiers, hfrontier, hchain]
      by_cases ha : a = b.account
      · rw [if_pos ha, ha]
        by_cases hnil : rest' = []
        · rw [if_pos hnil, if_pos (List.isEmpty_iff.mpr hnil), Table.get_del_self]
        · rw [if_neg hnil, if_neg (fun h => hnil (List.isEmpty_iff.mp h)), Table.get_set_self]
      · rw [if_neg ha, ← hd.frontiers]
        split_ifs
        · exact Table.get_del_of_ne _ ha
        · exact Table.get_set_of_ne _ ha _
    · intro a
      rw [hstored, hstore, hrepOf]
      by_cases ha : a = b.account
      · rw [if_pos ha, ha]
        unfold storedRep
        split_ifs
        · exact Table.get_del_self _ _
        · exact Table.get_set_self _ _ _
      · rw [if_neg ha, ← hd.stored]
        split_ifs
        · exact Table.get_del_of_ne _ ha
        · exact Table.get_set_of_ne _ ha _
    · intro a
      rw [hdelegation, restoreDelegation_delegation, hacc, hprev, hdel, hrepOf]
      split_ifs
      · rfl
      · exact hd.delegation a
    · intro r hne
      have hw : (s.undone u).mem.weightOf r = _ :=
        (congrArg (fun t => (t.get r).getD 0) hweight).trans
          (restoreDelegation_weight (m := s.mem.withoutBlock u.2) u.2 r hne)
      have hsame : (s.mem.withoutBlock u.2).weightOf r = s.book.weight r :=
        (congrArg (fun t => (t.get r).getD 0) hweights).trans (hd.weight r hne)
      rw [hw, hsame, hacc, hrep, hprev, hbefore, hafter]
      unfold Book.weight
      rw [total_move (a := b.account) hkeys (fun x hx => by rw [hrepOf, if_neg hx]) hxe
        (Book.share_of_notMem hne) (Book.share_of_notMem hne)]
      have hself : (s.undone u).book.rep b.account = lastRep rest' := by
        rw [hrepOf, if_pos rfl]
      unfold share
      rw [hself]
      rfl
    · rw [hunderflow, restoreDelegation_underflow]
      exact hunder.trans hd.underflow

theorem Undone.delegates (hk : s.book.Wf) (hd : s.Delegates) {s' : State} {bs : List Block}
    (h : Undone s bs s') : s'.Delegates := by
  induction h with
  | nil => exact hd
  | snoc before undo ih => exact undo.delegates ((before.unwinds hk).wf hk).1 ih

end Undo

/-! ## Runs -/

section Run

variable {node : Node} {D : Set Str} {s s' : State}

theorem Noted.delegates (h : Noted node D s s') (hd : s.Delegates) : s'.Delegates := by
  have hl := h.ledger
  refine ⟨?_, ?_, ?_, ?_, ?_⟩
  · intro a
    have hget := congrArg (fun st : Store => st.frontiers.get a) hl
    rw [h.book, ← hd.frontiers]
    exact hget
  · intro a
    have hget := congrArg (fun st : Store => st.delegations.get a) hl
    rw [h.book, ← hd.stored]
    exact hget
  · intro a
    rw [h.book, h.mem]
    exact hd.delegation a
  · intro r hr
    rw [h.book, h.mem]
    exact hd.weight r hr
  · rw [h.mem]
    exact hd.underflow

theorem newLedger_delegates {c : Ctx} {kind : StoreKind} (hg : GenesisSealed c.lib D c.node.genesis)
    (h : (newLedger c).run (.empty kind) = some (.ok (), s)) : s.Delegates := by
  obtain rfl := newLedger_ok h
  have hempty : (State.empty kind).Delegates := by
    refine ⟨fun _ => rfl, fun _ => rfl, fun _ => rfl, fun r _ => ?_, rfl⟩
    rfl
  have hbook := genesis_book c kind
  have hputs : Puts (State.empty kind) c.node.genesis (genesisRequest c kind) :=
    ⟨hg.fields.2.2.2, hbook.chains, hbook.balances, rfl, rfl, rfl, rfl, rfl⟩
  have hd := hputs.keepsDelegates (show (State.empty kind).quiet from rfl) hempty
  exact ⟨hd.frontiers, hd.stored, hd.delegation, hd.weight, hd.underflow⟩

/-- **Delegations and weights are those of the chains in every reachable state.** -/
theorem Reachable.delegates (hD : IdealHash node.lib D) (hg : GenesisSealed node.lib D node.genesis)
    {ok : State → Op → Prop} (h : Reachable node D ok s) : s.Delegates := by
  have hkept : Kept node D State.Delegates :=
    { undo := fun hi hd hu _ _ => hu.delegates hi.wf hd
      commit := fun hi hd hc _ _ => hc.puts.keepsDelegates hi.quiet hd
      note := fun _ hd hn => hn.delegates hd }
  refine h.kept hD hg hkept ?_
  rintro c kind s rfl hrun
  exact newLedger_delegates hg hrun

end Run

end Xe
