import XeLattice.Inv.Restart

/-!
# The block counter

The ledger counts its blocks: a commit adds one (`commitBlockWrite`), outside and inside a
promotion, and a restart counts the chains (`initBlockCount`).  Nothing is subtracted when a block
comes off a chain, so that the counter runs ahead of the chains by one for every block that a
cancel or a swap has taken off.

* **`block_counter_exact`**: the counter is never behind, and exact if no block is taken off.
-/

set_option autoImplicit false

namespace Xe

/-! ## Counting the store -/

/-- One step of `initBlockCount`. -/
def Store.countChain (st : Store) (count : ℤ) (account : Str) : ℤ :=
  match st.chains.get account with
  | none => count
  | some chain => count + chain.length

/-- `initBlockCount`, over the accounts of the stored frontiers. -/
def Store.initBlockCount (st : Store) (accounts : List Str) : ℤ :=
  accounts.foldl st.countChain 0

/-- The number of blocks on chains. -/
def Store.chainBlocks (st : Store) : ℕ :=
  st.chains.sum fun _ chain => chain.length

/-- How far the counter is ahead of the chains. -/
def State.drift (s : State) : ℤ :=
  s.mem.blockCount - s.store.chainBlocks

theorem weight_chains (s : State) (a : Str) :
    s.store.chains.weight (fun _ chain => chain.length) a = (s.book.chain a).length := by
  show (s.store.chains.get a).elim 0 _ = ((s.store.chains.get a).getD []).length
  cases s.store.chains.get a <;> rfl

theorem foldl_countChain (s : State) (accounts : List Str) (n : ℤ) :
    accounts.foldl s.store.countChain n =
      n + ((accounts.map fun a => (s.book.chain a).length).sum : ℕ) := by
  induction accounts generalizing n with
  | nil => simp
  | cons a accounts ih =>
    have hstep : s.store.countChain n a = n + ((s.book.chain a).length : ℕ) := by
      unfold Store.countChain Book.chain
      show _ = n + (((s.store.chains.get a).getD []).length : ℕ)
      cases s.store.chains.get a with
      | none => exact (add_zero n).symm
      | some chain => rfl
    rw [List.foldl_cons, hstep, ih, List.map_cons, List.sum_cons]
    omega

theorem initBlockCount_eq {s : State} (hd : s.Delegates) {accounts : List Str}
    (hl : Lists accounts s.store.frontiers) :
    s.store.initBlockCount accounts = s.store.chainBlocks := by
  rw [Store.initBlockCount, foldl_countChain, zero_add, ← List.sum_toFinset _ hl.1,
    Store.chainBlocks, Table.sum]
  simp only [weight_chains]
  congr 1
  refine Finset.sum_subset (fun a ha => ?_) fun a _ ha => ?_
  · have hne := (mem_frontiers hd hl a).mp (List.mem_toFinset.mp ha)
    by_contra hkey
    rw [Book.chain, show s.book.chains.get a = none from Table.notMem_keys.mp hkey] at hne
    exact hne rfl
  · -- a chain without a frontier is empty
    have hnil : s.book.chain a = [] := by
      by_contra hne
      exact ha (List.mem_toFinset.mpr ((mem_frontiers hd hl a).mpr hne))
    rw [hnil, List.length_nil]

/-! ## One step -/

section Step

variable {node : Node} {D : Set Str} {s s' : State} {b : Block}

theorem blockCount_afterCommit (c : BlockCommit) (bal : UInt64) (m : Memory) :
    (m.afterCommit c bal).blockCount = m.blockCount + 1 := by
  unfold Memory.afterCommit Memory.moveDelegation Memory.setRep Memory.subWeight Memory.addWeight
  cases c.assetCredit <;> dsimp only <;> split_ifs <;> rfl

theorem SameButReputation.blockCount (h : SameButReputation s s') :
    s'.mem.blockCount = s.mem.blockCount := by
  obtain ⟨r, r', rfl⟩ := h
  rfl

theorem blockCount_committed (s : State) (p : Prepared) :
    (s.committed p).mem.blockCount = s.mem.blockCount + 1 := by
  unfold State.committed Prepared.written
  have hrep := (SameButReputation.onSome sameButReputation_apply p.event
    { s with
      store := s.store.afterCommit (p.request s)
      mem := s.mem.afterCommit p.commit p.prevBalance }).blockCount
  have hcommit := blockCount_afterCommit p.commit p.prevBalance s.mem
  cases p.commit.putKeyset with
  | none => exact hrep.trans hcommit
  | some ks => exact hrep.trans hcommit

theorem blockCount_restoreDelegation (u : MemUndo) (m : Memory) :
    (m.restoreDelegation u).blockCount = m.blockCount := by
  unfold Memory.restoreDelegation Memory.setRep Memory.subWeight Memory.addWeight
  dsimp only
  split_ifs <;> rfl

theorem blockCount_subAssetBalance (d : AssetDelta) (m : Memory) :
    (m.subAssetBalance d).blockCount = m.blockCount := by
  unfold Memory.subAssetBalance
  split <;> rfl

theorem blockCount_memAfter (u : MemUndo) (m : Memory) :
    (u.memAfter m).blockCount = m.blockCount := by
  unfold MemUndo.memAfter unlessEmpty
  rw [blockCount_restoreDelegation]
  cases u.assetDebit with
  | none => dsimp only; split_ifs <;> rfl
  | some d =>
    dsimp only
    rw [blockCount_subAssetBalance]
    split_ifs <;> rfl

theorem blockCount_undone (s : State) (u : BlockUndo × MemUndo) :
    (s.undone u).mem.blockCount = s.mem.blockCount := by
  unfold State.undone MemUndo.applied
  have hrep := (SameButReputation.onSome sameButReputation_revert u.2.repRevert
    { s with store := s.store.afterUndo u.1, mem := u.2.memAfter s.mem }).blockCount
  exact hrep.trans (blockCount_memAfter u.2 s.mem)

theorem Commits.drift {stale : Str → Prop} {p : Prepared} (h : Commits node.lib stale s b p) :
    (s.committed p).drift = s.drift := by
  have hchains : (s.committed p).store.chains =
      s.store.chains.set b.account (s.book.chain b.account ++ [b]) := h.appended.chains
  have hsum := Table.sum_set (fun _ chain => chain.length) s.store.chains b.account
    (s.book.chain b.account ++ [b])
  rw [← hchains, weight_chains, List.length_append, List.length_singleton] at hsum
  unfold State.drift Store.chainBlocks
  rw [blockCount_committed]
  omega

theorem UndoOf.drift (hk : s.book.Wf) {u : BlockUndo × MemUndo} (h : UndoOf s b u) :
    (s.undone u).drift = s.drift + 1 := by
  obtain ⟨rest, hrest, hchains⟩ := (h.removed hk).chain
  have hlen : s.store.chains.weight (fun _ chain => chain.length) b.account = rest.length + 1 := by
    rw [weight_chains, hrest, List.length_append, List.length_singleton]
  have hsum : (s.undone u).store.chainBlocks + 1 = s.store.chainBlocks := by
    show (s.undone u).book.chains.sum _ + 1 = s.book.chains.sum _
    rw [hchains]
    split_ifs with hnil
    · have hdel := Table.sum_del (fun _ chain => chain.length) s.store.chains b.account
      rw [hlen, hnil] at hdel
      exact hdel
    · have hset := Table.sum_set (fun _ chain => chain.length) s.store.chains b.account rest
      rw [hlen] at hset
      have : (s.book.chains.set b.account rest).sum (fun _ chain => chain.length) + 1 =
          s.book.chains.sum (fun _ chain => chain.length) := by
        show (s.store.chains.set b.account rest).sum _ + 1 = s.store.chains.sum _
        omega
      exact this
  unfold State.drift
  rw [blockCount_undone]
  omega

theorem Noted.drift (h : Noted node D s s') : s'.drift = s.drift := by
  have hchains : s'.store.chains = s.store.chains := congrArg Book.chains h.book
  unfold State.drift Store.chainBlocks
  rw [h.mem, hchains]

end Step

/-! ## Runs -/

/-- The call takes no block off a chain: a swap finds no block to replace above the final height, and
for a cancel no accept of the lease is on top of a chain and not final. A swap that would be refused
for another reason is left out too. -/
def Op.Appends (lib : Lib) (s : State) (op : Op) : Prop :=
  op.Detaches (fun _ _ => False) lib s

section Runs

variable {node : Node} {D : Set Str} {s s' : State} {b : Block}

theorem drift_newLedger {c : Ctx} {kind : StoreKind}
    (h : (newLedger c).run (.empty kind) = some (.ok (), s)) : s.drift = 0 := by
  obtain rfl := newLedger_ok h
  have hchains := (genesis_book c kind).chains
  have hsum := Table.sum_set (fun _ chain => chain.length) (Table.empty : Table Str AccountChain)
    c.node.genesis.account [c.node.genesis]
  have hcount := blockCount_committed (State.empty kind) (genesisRequest c kind)
  have hblocks : (((State.empty kind).committed (genesisRequest c kind)).mapStore
      (Store.setFinalHeight c.node.genesis.account 1)).store.chainBlocks = 1 := by
    show ((State.empty kind).committed (genesisRequest c kind)).book.chains.sum _ = 1
    rw [hchains]
    rw [Table.sum_empty, Table.weight, Table.get_empty] at hsum
    exact hsum
  unfold State.drift
  rw [hblocks]
  show ((State.empty kind).committed (genesisRequest c kind)).mem.blockCount - 1 = 0
  rw [hcount]
  rfl

theorem kept_drift : Kept node D (fun s => 0 ≤ s.drift) where
  undo hi hs h _ _ := by
    rw [h.drift hi.wf]
    omega
  commit _ hs h _ _ := by
    rw [h.drift]
    exact hs
  note _ hs h := by
    rw [h.drift]
    exact hs

theorem Effect.drift {c : Ctx} (hi : s.Inv c.node D) {op : Op} {r : Except Fault Unit}
    (h : Effect c D s op r s') (ho : op.Appends c.lib s) : s'.drift = s.drift := by
  cases h with
  | noted noted => exact noted.drift
  | swapped eq hb replaces =>
    obtain ⟨before, after, hchain, hfinal⟩ := replaces.chain
    exact (ho.2 _ _ _ eq before _ after hchain hfinal replaces.hash).elim
  | added hb outcome =>
    have hsame : ∀ s₁, Forced s (op.block c.lib) s₁ → s₁ = s := by
      intro s₁ hforced
      cases hforced with
      | same => rfl
      | accept a u type acceptType source other notFinal undo =>
        obtain ⟨rest, hrest, -⟩ := (undo.removed hi.wf).chain
        exact (ho.1 type a rest hrest acceptType source notFinal).elim
    cases outcome with
    | refused forced => rw [hsame _ forced]
    | written forced undone receivers commits =>
      cases hsame _ forced
      cases undone.eq_of_nil
      exact commits.drift

/-- **The block counter** is never behind the chains, and in every run whose calls take no block
off a chain it is the number of blocks on them, which is what a restart counts. -/
theorem block_counter_exact (hD : IdealHash node.lib D)
    (hg : GenesisSealed node.lib D node.genesis) :
    (∀ ok s, Reachable node D ok s → (s.store.chainBlocks : ℤ) ≤ s.mem.blockCount) ∧
    ∀ s, Reachable node D (fun s op => op.Appends node.lib s) s →
      s.mem.blockCount = s.store.chainBlocks ∧
        ∀ accounts, Lists accounts s.store.frontiers →
          s.mem.blockCount = s.store.initBlockCount accounts := by
  constructor
  · intro ok s h
    have hdrift := h.kept hD hg kept_drift fun c kind s _ hrun => (drift_newLedger hrun).ge
    unfold State.drift at hdrift
    omega
  · intro s h
    have hdrift : s.drift = 0 := by
      induction h with
      | init node_eq run => exact drift_newLedger run
      | call before node_eq offered cond run returns ih =>
        subst node_eq
        have hi := before.inv hD hg
        exact ((call_effect hD hg hi offered returns run).drift hi cond).trans ih
      | note before noted ih => exact noted.drift.trans ih
    have hcount : s.mem.blockCount = s.store.chainBlocks := by
      unfold State.drift at hdrift
      omega
    refine ⟨hcount, fun accounts hl => ?_⟩
    rw [initBlockCount_eq (h.delegates hD hg) hl, hcount]

end Runs

/-! ## A payment and a cancelled lease -/

namespace SampleCounter

open Sample in
/-- A cancel that refunds the lease. -/
def cancel : Block := hashed
  { type := .leaseCancel
    account := address 3
    previous := lease.hash
    balance := 1000
    asset := assetXUSD
    source := lease.hash
    signature := signature }

open Sample in
/-- A lease that is accepted and then cancelled. -/
def blocks : List Block :=
  [mint 3 1000, mint 4 1, lease, accept 0, cancel]

end SampleCounter

open Sample in
/-- A payment and its receipt are counted. -/
theorem block_counter_payment : ∃ s,
    Reachable node (domain [payment, receipt])
        (fun s op => op.Appends lib s) s ∧
      s.mem.blockCount = 3 ∧ s.mem.blockCount = s.store.chainBlocks := by
  obtain ⟨s, hrun, hcount⟩ := exists_reachable_detaches (F := fun _ _ => False) ctx
    rfl [payment, receipt] (P := fun s => s.mem.blockCount = 3) (by decide +kernel)
  exact ⟨s, hrun, hcount, ((block_counter_exact payment_ideal
    (genesis_domain _)).2 s hrun).1⟩

open Sample SampleCounter in
/-- A cancel takes the accept off its chain, and the counter still has it. -/
theorem block_counter_ahead : ∃ s,
    Reachable node (domain blocks) (fun _ _ => true = true) s ∧
      s.mem.blockCount = 6 ∧ s.store.chainBlocks = 5 :=
  exists_reachable_adds leaseCtx rfl _ blocks (fun _ hb => hb)
    (by decide +kernel)

end Xe
