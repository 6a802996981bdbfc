import XeLattice.Core.Restart
import XeLattice.Core.Quorum
import XeLattice.Inv.Weights
import XeLattice.Sample

/-!
# A restarted node

What a node rebuilds from its store when it restarts is what it had in memory: delegations and
weights, balances, keysets and declared keys.

* **`delegation_consistent`**: delegations and weights are those that a restart computes;
* **`balances_consistent`**: so are balances and credentials.
-/

set_option autoImplicit false

namespace Xe

open Prog Shares

/-! ## Rebuilding a table -/

theorem get_rebuild {V : Type} (get : Memory → Str → Option V) {step : Memory → Str → Memory}
    {val : Str → Option V} (hstep : ∀ m a x, get (step m a) x =
      if x = a then (val a).or (get m a) else get m x) (accounts : List Str) (m : Memory) (x : Str) :
    get (accounts.foldl step m) x =
      if x ∈ accounts then (val x).or (get m x) else get m x := by
  induction accounts generalizing m with
  | nil => simp
  | cons a rest ih =>
    rw [List.foldl_cons, ih, hstep]
    by_cases hx : x = a
    · subst hx
      cases val x <;> simp
    · simp [hx]

/-! ## Delegation -/

section Delegation

variable {s : State} {accounts : List Str}

theorem rebuildDelegationOf_parts (hk : s.book.Wf) (hd : s.Delegates) (m : Memory) (a : Str) :
    (∀ x, (s.store.rebuildDelegationOf m a).delegation.get x =
      if x = a then (storedRep (s.book.rep a)).or (m.delegation.get a) else m.delegation.get x) ∧
    ∀ r, r ≠ [] → (s.store.rebuildDelegationOf m a).weightOf r =
      m.weightOf r + share s.book.rep s.book.xe r a := by
  unfold Store.rebuildDelegationOf
  rw [hd.stored]
  by_cases hrep : s.book.rep a = []
  · simp only [storedRep, hrep, if_true]
    refine ⟨fun x => ?_, fun r hr => ?_⟩
    · by_cases hx : x = a
      · subst hx
        simp
      · rw [if_neg hx]
    · unfold share
      rw [hrep, if_neg (Ne.symm hr), Nat.add_zero]
  · have hchain : s.store.chains.get a = some (s.book.chain a) := by
      cases hc : s.store.chains.get a with
      | none => exact absurd (Book.rep_of_notMem (Table.notMem_keys.mpr hc)) hrep
      | some ch => exact congrArg some (Book.chain_of_get (k := s.book) hc).symm
    simp only [storedRep, if_neg hrep, hchain]
    refine ⟨fun x => ?_, fun r hr => ?_⟩
    · change ((m.setRep a (s.book.rep a)).delegation).get x = _
      rw [get_setRep, storedRep, if_neg hrep]
      rfl
    · rw [weightOf_addWeight, ← hk.balance]
      rfl

theorem rebuildDelegation_weight (hk : s.book.Wf) (hd : s.Delegates) (m : Memory) {r : Str}
    (hr : r ≠ []) : (s.store.rebuildDelegation accounts m).weightOf r =
      m.weightOf r + (accounts.map (share s.book.rep s.book.xe r)).sum := by
  induction accounts generalizing m with
  | nil => rfl
  | cons a rest ih =>
    refine (ih (s.store.rebuildDelegationOf m a)).trans ?_
    rw [(rebuildDelegationOf_parts hk hd m a).2 r hr, List.map_cons, List.sum_cons, Nat.add_assoc]

/-- **The rebuilt delegation** is the one in memory. -/
theorem rebuildDelegation_eq (hk : s.book.Wf) (hd : s.Delegates)
    (hl : Lists accounts s.store.delegations) :
    (∀ a, (s.store.rebuildDelegation accounts .new).delegation.get a = s.mem.delegation.get a) ∧
    ∀ r, r ≠ [] → (s.store.rebuildDelegation accounts .new).weightOf r = s.mem.weightOf r := by
  have hdel := get_rebuild (fun m => m.delegation.get)
    (fun m a => (rebuildDelegationOf_parts hk hd m a).1) accounts .new
  have hmem : ∀ a, a ∈ accounts ↔ s.book.rep a ≠ [] := by
    intro a
    rw [hl.2, hd.stored, storedRep]
    split_ifs with hr <;> simp [hr]
  refine ⟨fun a => ?_, fun r hr => ?_⟩
  · refine (hdel a).trans ?_
    rw [hd.delegation, storedRep]
    by_cases hrep : s.book.rep a = []
    · rw [if_neg (fun h => (hmem a).mp h hrep), if_pos hrep]
      rfl
    · rw [if_pos ((hmem a).mpr hrep), if_neg hrep]
      rfl
  · -- the accounts that are not listed have no representative, and no share
    rw [rebuildDelegation_weight hk hd .new hr, hd.weight r hr, Book.weight, total,
      ← List.sum_toFinset _ hl.1]
    refine (Nat.zero_add _).trans (Finset.sum_subset ?_ ?_)
    · intro a ha
      by_contra hnot
      rw [List.mem_toFinset, hmem] at ha
      exact ha (Book.rep_of_notMem hnot)
    · intro a _ ha
      rw [List.mem_toFinset, hmem, not_not] at ha
      unfold share
      rw [ha, if_neg (Ne.symm hr)]

theorem State.Delegates.weight_eq (hd : s.Delegates) {r : Str} (hr : r ≠ []) :
    s.mem.weightOf r = ∑ a ∈ s.mem.delegation.keys with s.mem.delegation.get a = some r,
      (s.mem.getAssetBalance a assetXE).toNat := by
  have hrep : ∀ a, s.mem.delegation.get a = some r ↔ s.book.rep a = r := by
    intro a
    rw [hd.delegation, storedRep]
    split_ifs with h
    · simp [h, Ne.symm hr]
    · simp
  have hsame : {a ∈ s.book.chains.keys | s.book.rep a = r} =
      {a ∈ s.mem.delegation.keys | s.mem.delegation.get a = some r} := by
    ext a
    simp only [Finset.mem_filter, hrep]
    constructor
    · rintro ⟨-, h⟩
      refine ⟨?_, h⟩
      by_contra hnot
      have hget := (hrep a).mpr h
      rw [Table.notMem_keys.mp hnot] at hget
      cases hget
    · rintro ⟨-, h⟩
      refine ⟨?_, h⟩
      by_contra hnot
      exact hr (h.symm.trans (Book.rep_of_notMem hnot))
  rw [hd.weight r hr, Book.weight, total, ← hsame, Finset.sum_filter]
  rfl

end Delegation

/-- **Delegations and weights** of a reachable state: an account's delegate is the last that its
chain names, a representative's weight is what the accounts delegated to it hold, a restart computes
both, and no subtraction from a weight is ever clamped, be it that of a commit, which counts its
clamps, or that of any undo in a run of undos. -/
theorem delegation_consistent {node : Node} {D : Set Str} {ok : State → Op → Prop} {s : State}
    (hD : IdealHash node.lib D) (hg : GenesisSealed node.lib D node.genesis)
    (h : Reachable node D ok s) :
    (∀ a, s.mem.delegation.get a =
      if lastRep (s.book.chain a) = [] then none else some (lastRep (s.book.chain a))) ∧
    (∀ r, r ≠ [] → s.mem.weightOf r =
      ∑ a ∈ s.mem.delegation.keys with s.mem.delegation.get a = some r,
        (s.mem.getAssetBalance a assetXE).toNat) ∧
    (∀ accounts, Lists accounts s.store.delegations →
      (∀ a, (s.store.rebuildDelegation accounts .new).delegation.get a =
        s.mem.delegation.get a) ∧
      ∀ r, r ≠ [] → (s.store.rebuildDelegation accounts .new).weightOf r = s.mem.weightOf r) ∧
    s.mem.delegationUnderflow = 0 ∧
    ∀ bs s₁ b u, Undone s bs s₁ → UndoOf s₁ b u → s₁.mem.repOf u.2.account ≠ [] →
      u.2.xeBefore.toNat ≤ s₁.mem.weightOf (s₁.mem.repOf u.2.account) := by
  have hk := (h.inv hD hg).wf
  have hd := h.delegates hD hg
  refine ⟨hd.delegation, fun r hr => hd.weight_eq hr,
    fun accounts hl => rebuildDelegation_eq hk hd hl, hd.underflow, ?_⟩
  intro bs s₁ b u hundone hundo
  exact hundo.counted ((hundone.unwinds hk).wf hk).1 (hundone.delegates hk hd)

open Sample in
theorem delegation_consistent_payment :
    ∃ s, Reachable node (domain [payment, receipt])
        (fun _ _ => true = true) s ∧
      s.mem.weightOf (address 2) = 41999999999995 ∧ s.mem.delegationUnderflow = 0 ∧
      ∀ accounts, Lists accounts s.store.delegations →
        (s.store.rebuildDelegation accounts .new).weightOf (address 2) = 41999999999995 := by
  obtain ⟨s, h, hw⟩ := exists_reachable_adds ctx rfl _
    [payment, receipt] (fun _ h => h)
    (P := fun s => s.mem.weightOf (address 2) = 41999999999995) (by decide +kernel)
  obtain ⟨-, -, hrebuild, hunder, -⟩ :=
    delegation_consistent payment_ideal (genesis_domain _) h
  refine ⟨s, h, hw, hunder, fun accounts hl => ?_⟩
  rw [(hrebuild accounts hl).2 _ (by decide +kernel), hw]

/-! ## Balances -/

section Balances

variable {s : State} {accounts : List Str}

theorem getAssetBalance_eq (m : Memory) (a x : Str) :
    m.getAssetBalance a x = ((m.assetBalances.get a).bind (·.get x)).getD 0 := by
  unfold Memory.getAssetBalance
  cases m.assetBalances.get a <;> rfl

theorem balancesOnChain_eq {st : Store} (h : Unstaked st.leases) (chain : AccountChain) (x : Str) :
    ((st.balancesOnChain chain).get x).getD 0 = assetBalanceOnChain chain x := by
  induction chain using List.reverseRecOn with
  | nil => rfl
  | append_singleton chain b ih =>
    have hset : ∀ y, (((st.balancesOnChain chain).set (assetOrXE b.asset) b.balance).get y).getD 0 =
        if assetOrXE b.asset = y then b.balance
          else ((st.balancesOnChain chain).get y).getD 0 := by
      intro y
      rw [Table.get_set]
      by_cases hy : y = assetOrXE b.asset
      · rw [if_pos hy, if_pos hy.symm]
        rfl
      · rw [if_neg hy, if_neg (Ne.symm hy)]
    rw [assetBalanceOnChain_concat, ← ih, ← hset]
    unfold Store.balancesOnChain
    rw [List.foldl_append, List.foldl_cons, List.foldl_nil]
    split_ifs
    · cases hl : st.leases.get b.source with
      | none => rfl
      | some l =>
        -- the lease is not staked, and nothing is added
        dsimp only
        rw [h _ _ hl, UInt64.add_zero, Table.get_set]
        split_ifs with hx
        · rw [hx]
          rfl
        · rfl
    · rfl

theorem mem_frontiers (hd : s.Delegates) (hl : Lists accounts s.store.frontiers) (a : Str) :
    a ∈ accounts ↔ s.book.chain a ≠ [] := by
  rw [hl.2, hd.frontiers]
  split_ifs with h <;> simp [h]

theorem get_rebuild_frontiers (hd : s.Delegates) (hl : Lists accounts s.store.frontiers)
    {V : Type} (get : Memory → Str → Option V) (val : AccountChain → Option V)
    {step : Memory → Str → Memory} (hnil : val [] = none) (hnew : ∀ a, get .new a = none)
    (hstep : ∀ m a x, get (step m a) x =
      if x = a then (val (s.book.chain a)).or (get m a) else get m x) (a : Str) :
    get (accounts.foldl step .new) a = val (s.book.chain a) := by
  rw [get_rebuild get hstep, hnew, Option.or_none]
  split_ifs with ha
  · rfl
  · rw [mem_frontiers hd hl, not_not] at ha
    rw [ha, hnil]

/-- **The rebuilt balances** are those in memory. -/
theorem rebuildAssetBalances_eq (hk : s.book.Wf) (hd : s.Delegates)
    (hl : Lists accounts s.store.frontiers) (a x : Str) :
    (s.store.rebuildAssetBalances accounts .new).getAssetBalance a x =
      s.mem.getAssetBalance a x := by
  have hget : (s.store.rebuildAssetBalances accounts .new).assetBalances.get a =
      if s.book.chain a = [] then none else some (s.store.balancesOnChain (s.book.chain a)) := by
    refine get_rebuild_frontiers hd hl (fun m => m.assetBalances.get)
      (fun chain => if chain = [] then none else some (s.store.balancesOnChain chain)) rfl
      (fun _ => rfl) (fun m a x => ?_) a
    cases hch : s.store.chains.get a with
    | none =>
      rw [Book.chain_of_none (k := s.book) hch]
      by_cases hx : x = a
      · rw [if_pos hx, hx]
        rfl
      · rw [if_neg hx]
    | some chain =>
      have hne : chain ≠ [] := fun h => hk.nonempty a (h ▸ hch)
      dsimp only
      rw [Book.chain_of_get (k := s.book) hch, if_neg hne, Table.get_set]
      rfl
  have hbal : s.mem.getAssetBalance a x = assetBalanceOnChain (s.book.chain a) x := hk.balance a x
  rw [getAssetBalance_eq, hget, hbal]
  split_ifs with hc
  · rw [hc]
    rfl
  · exact balancesOnChain_eq hk.unstaked _ x

end Balances

/-! ## Credentials -/

section Credentials

variable {s : State} {accounts : List Str}

/-- A rebuild that goes over the blocks of an account and enters a value for some of them. -/
theorem get_rebuild_chain {V : Type} (get : Memory → Str → Option V) {step : Memory → Block → Memory}
    {of : Block → Option V} {val : AccountChain → Option V} {a : Str} (hnil : val [] = none)
    (hconcat : ∀ ch b, val (ch ++ [b]) = (of b).or (val ch))
    (hstep : ∀ m b x, get (step m b) x = if x = a then (of b).or (get m a) else get m x)
    (chain : AccountChain) (m : Memory) (x : Str) :
    get (chain.foldl step m) x = if x = a then (val chain).or (get m a) else get m x := by
  induction chain using List.reverseRecOn generalizing x with
  | nil =>
    rw [hnil]
    split_ifs with hx
    · rw [hx]
      rfl
    · rfl
  | append_singleton chain b ih =>
    rw [List.foldl_append, List.foldl_cons, List.foldl_nil, hstep, hconcat]
    by_cases hx : x = a
    · rw [if_pos hx, if_pos hx, ih, if_pos rfl, Option.or_assoc]
    · rw [if_neg hx, if_neg hx, ih, if_neg hx]

theorem get_rebuild_chains (hd : s.Delegates) (hl : Lists accounts s.store.frontiers)
    {V : Type} (get : Memory → Str → Option V) (hnew : ∀ a, get .new a = none)
    (of : Block → Option V) (val : AccountChain → Option V) {step : Str → Memory → Block → Memory}
    (hnil : val [] = none) (hconcat : ∀ ch b, val (ch ++ [b]) = (of b).or (val ch))
    (hstep : ∀ a m b x, get (step a m b) x = if x = a then (of b).or (get m a) else get m x)
    (a : Str) :
    get (accounts.foldl (fun m account =>
      match s.store.chains.get account with
      | none => m
      | some chain => chain.foldl (step account) m) .new) a = val (s.book.chain a) := by
  refine get_rebuild_frontiers hd hl get val hnil hnew (fun m a x => ?_) a
  cases hch : s.store.chains.get a with
  | none =>
    rw [Book.chain_of_none (k := s.book) hch, hnil]
    by_cases hx : x = a
    · rw [if_pos hx, hx]
      rfl
    · rw [if_neg hx]
  | some chain =>
    rw [Book.chain_of_get (k := s.book) hch]
    exact get_rebuild_chain get hnil hconcat (hstep a) chain m x

/-- **The rebuilt keysets** are those in memory. -/
theorem rebuildKeysets_eq (hd : s.Delegates) (hc : s.book.Caches)
    (hl : Lists accounts s.store.frontiers) (a : Str) :
    (s.store.rebuildKeysets accounts .new).keysets.get a = s.mem.keysets.get a := by
  refine Eq.trans ?_ (hc.keyset a).symm
  refine get_rebuild_chains hd hl (fun m => m.keysets.get) (fun _ => rfl) Block.keyset lastKeyset
    rfl lastKeyset_concat (fun a m b x => ?_) a
  unfold Block.keyset
  by_cases ht : b.type = .multisigOpen ∨ b.type = .multisigUpdate
  · rw [if_pos ht, if_pos ht]
    cases b.msKeyset with
    | none =>
      by_cases hx : x = a
      · rw [if_pos hx, hx]
        rfl
      · rw [if_neg hx]
    | some ks => exact Table.get_set _ _ _ _
  · rw [if_neg ht, if_neg ht]
    by_cases hx : x = a
    · rw [if_pos hx, hx]
      rfl
    · rw [if_neg hx]

/-- **The rebuilt declared keys** are those in memory. -/
theorem rebuildAccountKeys_eq (hd : s.Delegates) (hc : s.book.Caches)
    (hl : Lists accounts s.store.frontiers) (a : Str) :
    (s.store.rebuildAccountKeys accounts .new).accountKeys.get a = s.mem.accountKeys.get a := by
  refine Eq.trans ?_ (hc.pubKey a).symm
  refine get_rebuild_chains hd hl (fun m => m.accountKeys.get) (fun _ => rfl)
    (fun b => if b.pubKey = [] then none else some b.pubKey)
    (fun ch => if lastPubKey ch = [] then none else some (lastPubKey ch)) rfl
    (fun ch b => ?_) (fun a m b x => ?_) a
  · rw [lastPubKey_concat]
    by_cases hb : b.pubKey = [] <;> simp [hb]
  · by_cases hb : b.pubKey = []
    · by_cases hx : x = a <;> simp [hb, hx]
    · simp only [ne_eq, hb, not_false_eq_true, if_true, if_false]
      exact Table.get_set _ _ _ _

end Credentials

/-! ## The other balance functions -/

section Walks

variable {s : State}

theorem assetBalanceAtBlock_eq {leases : Table Str Lease} (h : Unstaked leases) (x : Str) (b : Block)
    (pre post : AccountChain) (hpre : ∀ y ∈ pre, y.hash ≠ b.hash) (bal : UInt64) :
    assetBalanceAtBlock leases x b.hash bal (pre ++ b :: post) =
      (pre ++ [b]).foldl (fun bal b => if assetOrXE b.asset = x then b.balance else bal) bal := by
  induction pre generalizing bal with
  | nil =>
    simp only [List.nil_append, assetBalanceAtBlock, h.stakeOf, if_true, ite_self, UInt64.add_zero,
      List.foldl_cons, List.foldl_nil]
  | cons y pre ih =>
    rw [List.cons_append, List.cons_append, assetBalanceAtBlock, List.foldl_cons]
    simp only [h.stakeOf, ite_self, UInt64.add_zero]
    rw [if_neg (hpre y List.mem_cons_self)]
    exact ih (fun z hz => hpre z (List.mem_cons_of_mem _ hz)) _

theorem Book.Wf.assetBalanceAtBlock {k : Book} (hk : k.Wf) {a : Str} {pre post : AccountChain}
    {b : Block} (hc : k.chain a = pre ++ b :: post) (x : Str) :
    Xe.assetBalanceAtBlock k.leases x b.hash 0 (k.chain a) = assetBalanceOnChain (pre ++ [b]) x := by
  rw [hc]
  refine assetBalanceAtBlock_eq hk.unstaked x b pre post (fun y hy heq => ?_) 0
  have hon : ∀ z ∈ k.chain a, k.On z := fun z hz => Book.On.of_mem hk hz
  have hyb : y = b := (hon y (by rw [hc]; simp [hy])).eq_of_hash hk (hon b (by rw [hc]; simp)) heq
  have hnodup := hk.nodup a
  rw [hc] at hnodup
  exact (List.nodup_append.mp hnodup).2.2 y hy b List.mem_cons_self hyb

/-- **The balances that the overlay of a promotion shows** are those in memory once the planned
blocks have come off. -/
theorem overlay_balance {node : Node} {D : Set Str} (hi : s.Inv node D) {c : Ctx} {w : Str}
    {account : Str} {before after : List Block} {old : Block} {plan : Plan} {cb : CascadeBuild}
    (hc : s.book.chain account = before ++ old :: after)
    (hf : s.store.finalHeightOf account ≤ before.length)
    (hplan : (planSwap c account old after).run s = some (.ok plan, s))
    (hcb : (buildCascade plan.steps .empty (.new w)).run s = some (.ok cb, s)) :
    ∃ s', Undone s (plan.steps.map Prod.snd) s' ∧ ∀ a x, x ≠ [] →
      (getAssetBalanceOverlay a x).run (s.dress s.locks (some cb)) =
        some (.ok (s'.mem.getAssetBalance a x), s.dress s.locks (some cb)) := by
  have hready := (hi.planReady hc hf hplan).2.1
  obtain ⟨us, hcas⟩ := buildCascade_ok hcb Cascade.nil
  have hundone := hcas.undone hi.wf hready.ok
  have hbook := foldl_undone_book us s
  have hk' : (s.book.undoAll us).Wf := by
    rw [← hbook]
    exact ((hundone.unwinds hi.wf).wf hi.wf).1
  refine ⟨_, hundone, fun a x hx => ?_⟩
  have hshows := hcas.shows (s := s.dress s.locks (some cb)) rfl hi.wf hk'
  rw [run_getAssetBalanceOverlay]
  refine congrArg (fun y => some (Except.ok y, s.dress s.locks (some cb))) ?_
  refine (hshows.balance a x hx).trans ?_
  have hsame : (s.dress s.locks (some cb)).book.undoAll us = (us.foldl State.undone s).book :=
    hbook.symm
  rw [hsame]
  rfl

end Walks

/-- **Balances and credentials** of a reachable state are those that a restart computes from the
chains.  The walk to a block gives the balance of the chain up to it, which at the frontier is the
one in the table; outside of promotions the overlay's balance is that of the table, and in a
promotion that of the table which the undos of the promotion leave. -/
theorem balances_consistent {node : Node} {D : Set Str} {ok : State → Op → Prop} {s : State}
    (hD : IdealHash node.lib D) (hg : GenesisSealed node.lib D node.genesis)
    (h : Reachable node D ok s) :
    (∀ accounts, Lists accounts s.store.frontiers →
      (∀ a x, (s.store.rebuildAssetBalances accounts .new).getAssetBalance a x =
        s.mem.getAssetBalance a x) ∧
      (∀ a, (s.store.rebuildKeysets accounts .new).keysets.get a = s.mem.keysets.get a) ∧
      ∀ a, (s.store.rebuildAccountKeys accounts .new).accountKeys.get a =
        s.mem.accountKeys.get a) ∧
    (∀ a pre b post x, s.book.chain a = pre ++ b :: post →
      assetBalanceAtBlock s.store.leases x b.hash 0 (s.book.chain a) =
        assetBalanceOnChain (pre ++ [b]) x) ∧
    (∀ a x, assetBalanceAtBlock s.store.leases x (frontier (s.book.chain a)) 0 (s.book.chain a) =
      s.mem.getAssetBalance a x) ∧
    (∀ a x, (getAssetBalanceOverlay a x).run s = some (.ok (s.mem.getAssetBalance a x), s)) ∧
    ∀ c w account before old after plan cb, s.book.chain account = before ++ old :: after →
      s.store.finalHeightOf account ≤ before.length →
      (planSwap c account old after).run s = some (.ok plan, s) →
      (buildCascade plan.steps .empty (.new w)).run s = some (.ok cb, s) →
      ∃ s', Undone s (plan.steps.map Prod.snd) s' ∧ ∀ a x, x ≠ [] →
        (getAssetBalanceOverlay a x).run (s.dress s.locks (some cb)) =
          some (.ok (s'.mem.getAssetBalance a x), s.dress s.locks (some cb)) := by
  have hi := h.inv hD hg
  have hd := h.delegates hD hg
  refine ⟨fun accounts hl => ⟨rebuildAssetBalances_eq hi.wf hd hl, rebuildKeysets_eq hd hi.caches hl,
    rebuildAccountKeys_eq hd hi.caches hl⟩, fun a pre b post x hc => hi.wf.assetBalanceAtBlock hc x,
    ?_, ?_, ?_⟩
  · intro a x
    refine Eq.trans ?_ (hi.wf.balance a x).symm
    rcases List.eq_nil_or_concat (s.book.chain a) with hc | ⟨rest, b, hc⟩
    · rw [hc]
      rfl
    · rw [List.concat_eq_append] at hc
      have hat := hi.wf.assetBalanceAtBlock hc x
      rw [← hc] at hat
      rw [← hat, show frontier (s.book.chain a) = b.hash by rw [hc, frontier_concat]]
      rfl
  · intro a x
    rw [run_getAssetBalanceOverlay, State.balanceOf, State.overlaidChain, hi.quiet]
    rfl
  · intro c w account before old after plan cb hc hf hplan hcb
    exact overlay_balance hi hc hf hplan hcb

open Sample in
theorem balances_consistent_payment :
    ∃ s, Reachable node (domain [payment, receipt])
        (fun _ _ => true = true) s ∧
      s.mem.getAssetBalance (address 1) assetXE = 41999999999995 ∧
      ∀ accounts, Lists accounts s.store.frontiers →
        (s.store.rebuildAssetBalances accounts .new).getAssetBalance (address 1) assetXE =
          41999999999995 := by
  obtain ⟨s, h, hbal⟩ := exists_reachable_adds ctx rfl _
    [payment, receipt] (fun _ h => h)
    (P := fun s => s.mem.getAssetBalance (address 1) assetXE = 41999999999995)
    (by decide +kernel)
  have hc := balances_consistent payment_ideal (genesis_domain _) h
  refine ⟨s, h, hbal, fun accounts hl => ?_⟩
  rw [(hc.1 accounts hl).1, hbal]

end Xe
