import XeLattice.Inv.Outcome

/-!
# The swap of a block

A swap plans which blocks have to come off, locks their accounts, builds the undos and has the
winner's handler run over them.  A winner that is a cancel may on its way unwind the accept of its
lease; the provider's account is then none of those that the swap has locked, and if the winner is
written at all, none of the planned blocks has touched the lease.

* **`promote_outcome`**, **`swap_outcome`**: the winner's handler, and the whole swap.
-/

set_option autoImplicit false

namespace Xe

open Prog

/-! ## Holding locks -/

section Locks

variable {α : Type} {tid : ℕ} {p : M α} {s s' : State} {r : Except Fault α}

theorem run_withLock_eq_some {l : Lock} : (withLock tid l p).run s = some (r, s') ↔
    s.locks l = none ∧
      ∃ s₁, p.run (s.setLock l (some tid)) = some (r, s₁) ∧ s₁.setLock l none = s' := by
  unfold withLock acquire
  rw [run_bind, run_await]
  by_cases hl : s.locks l = none
  · rw [if_pos hl]
    simp only [Option.map_some, hl, true_and]
    exact run_deferring_eq_some
  · rw [if_neg hl]
    simp [hl]

theorem run_withLocks {ls : List Lock} (h : (withLocks tid ls p).run s = some (r, s')) :
    ∃ L s₁, p.run (s.dress L s.mem.activeCascade) = some (r, s₁) ∧ (∀ l ∈ ls, L l ≠ none) ∧
      (∀ l, s.locks l ≠ none → L l ≠ none) ∧
        (s₁.locks = L → s' = s₁.dress s.locks s₁.mem.activeCascade) := by
  induction ls generalizing s s' with
  | nil =>
    refine ⟨s.locks, s', h, fun l hl => absurd hl List.not_mem_nil, fun l hl => hl, ?_⟩
    intro hlocks
    rw [← hlocks]
    rfl
  | cons l ls ih =>
    obtain ⟨hfree, s₂, hrun, rfl⟩ := run_withLock_eq_some.mp h
    obtain ⟨L, s₁, hp, hheld, hold, hback⟩ := ih hrun
    have hl : L l ≠ none := hold l (by simp [State.setLock])
    refine ⟨L, s₁, hp, ?_, ?_, ?_⟩
    · intro l' hl'
      rcases List.mem_cons.mp hl' with rfl | hl'
      · exact hl
      · exact hheld l' hl'
    · intro l' hl'
      by_cases he : l' = l
      · rw [he]
        exact hl
      · exact hold l' (by simpa [State.setLock, he] using hl')
    · intro hlocks
      rw [hback hlocks]
      have hsame := congrArg State.locks (s.setLock_same hfree (some tid))
      exact congrArg (fun L => s₁.dress L s₁.mem.activeCascade) hsame

end Locks

/-! ## What the undos depend on -/

section Congr

variable {k k' : Book} {L L' : Table Str Lease} {w : Str} {steps : List (Str × Block)}
  {cb : CascadeBuild} {us : List (BlockUndo × MemUndo)}

theorem Undoes.congr {blocks : Table Str Block} {leases leases' : Table Str Lease} {b : Block}
    {e : UndoEffect} (h : Undoes blocks leases b e)
    (hl : isLeaseOp b.type = true → leases'.get b.source = leases.get b.source) :
    Undoes blocks leases' b e := by
  have hesc : isLeaseOp b.type = true →
      escrowOf blocks leases b.source = escrowOf blocks leases' b.source := by
    intro ht
    unfold escrowOf
    rw [hl ht]
  cases h with
  | send type => exact .send type
  | receive type => exact .receive type
  | lease type => exact .lease type
  | multisigOpen type => exact .multisigOpen type
  | burn type => exact .burn type
  | mint type => exact .mint type
  | genesis type => exact .genesis type
  | other name type => exact .other name type
  | leaseAccept l type record =>
    exact .leaseAccept l type ((hl (by rw [type]; rfl)).trans record)
  | leaseSettle l type record =>
    have ht : isLeaseOp b.type = true := by rw [type]; rfl
    rw [hesc ht]
    exact .leaseSettle l type ((hl ht).trans record)
  | leaseForceSettle l type record =>
    have ht : isLeaseOp b.type = true := by rw [type]; rfl
    rw [hesc ht]
    exact .leaseForceSettle l type ((hl ht).trans record)
  | leaseCancel l type record =>
    have ht : isLeaseOp b.type = true := by rw [type]; rfl
    rw [hesc ht]
    exact .leaseCancel l type ((hl ht).trans record)
  | leaseRenew l l' type record popped =>
    exact .leaseRenew l l' type ((hl (by rw [type]; rfl)).trans record) popped

theorem undoMemory_unstaked (hL : Unstaked L) (hL' : Unstaked L') (account : Str) (b : Block)
    (rest : AccountChain) (last : Block) (e : UndoEffect) :
    undoMemory L account b rest last e = undoMemory L' account b rest last e := by
  unfold undoMemory parentBalOf
  rw [hL.xusdBalanceOnChain, hL'.xusdBalanceOnChain]

/-- The undos of a promotion depend on the blocks, on the chains they shorten, and on the leases
that the planned blocks name. -/
theorem Cascade.congr (h : Cascade k L w steps cb us) (hL : Unstaked L) (hL' : Unstaked L')
    (hb : k'.blocks = k.blocks) (hc : ∀ x ∈ steps, k'.chains.get x.1 = k.chains.get x.1)
    (hl : ∀ x ∈ steps, isLeaseOp x.2.type = true →
      k'.leases.get x.2.source = k.leases.get x.2.source) : Cascade k' L' w steps cb us := by
  induction h with
  | nil => exact .nil
  | @snoc steps cb us account b last rest e before chain hash effect ih =>
    have hmem : (account, b) ∈ steps ++ [(account, b)] := List.mem_concat_self
    have hinit : ∀ {x}, x ∈ steps → x ∈ steps ++ [(account, b)] := List.mem_append_left _
    rw [undoMemory_unstaked hL hL']
    refine .snoc (ih (fun x hx => hc x (hinit hx)) fun x hx => hl x (hinit hx)) ?_ hash ?_
    · rw [hc _ hmem]
      exact chain
    · rw [hb]
      exact effect.congr (hl _ hmem)

/-- A lease that the replaced block names is what the promotion says, whatever it was. -/
theorem Cascade.lease_of_last (hk : k.Wf) {a : Str} {b : Block}
    (h : Cascade k L w (steps ++ [(a, b)]) cb us) (hb : isLeaseOp b.type = true) :
    ∃ l, ∀ k₁ : Book, (k₁.undoAll us).leases.get b.source = some l := by
  generalize hsteps : steps ++ [(a, b)] = all at h
  cases h with
  | nil => exact absurd hsteps (by simp)
  | @snoc steps' cb' us' account x last rest e before chain hash effect =>
    obtain ⟨-, heq⟩ := List.append_inj' hsteps rfl
    cases heq
    obtain ⟨l, hl, hdel, hlh⟩ : ∃ l, e.restoreLease = some l ∧ e.deleteLeaseHash = [] ∧
        l.leaseHash = b.source := by
      cases effect with
      | leaseAccept l type record | leaseSettle l type record | leaseForceSettle l type record
      | leaseCancel l type record => exact ⟨_, rfl, rfl, (hk.leaseHash _ _ record).1⟩
      | leaseRenew l l' type record popped =>
        unfold popRenewal at popped
        split_ifs at popped
        cases popped
        exact ⟨_, rfl, rfl, (hk.leaseHash _ _ record).1⟩
      | send type | receive type | lease type | multisigOpen type | burn type | mint type
      | genesis type | other _ type =>
        rw [type] at hb
        cases hb
    refine ⟨l, fun k₁ => ?_⟩
    rw [Book.undoAll_concat]
    change ((undoRequest a b rest e).leasesAfter (k₁.undoAll us').leases).get b.source = some l
    unfold BlockUndo.leasesAfter undoRequest
    rw [hl, hdel, ← hlh]
    exact Table.get_set_self _ _ _

end Congr

/-! ## The winner of a promotion -/

section Promote

variable {D : Set Str} {c : Ctx} {s s' : State} {b : Block} {L : Lock → Option ℕ}
  {w : Str} {steps : List (Str × Block)} {cb : CascadeBuild} {us : List (BlockUndo × MemUndo)}

/-- What a plan comes to in a state: its blocks can come off in this order. -/
structure PlanReady (k : Book) (account : Str) (old : Block) (steps : List (Str × Block)) :
    Prop where
  ok : PlanOk k steps
  last : ∃ init, steps = init ++ [(account, old)]
  receivers : ReceiversFirst k (steps.map Prod.snd)

theorem not_isLeaseOp_of_cascadable {t : BlockType} (h : cascadable t = true) :
    isLeaseOp t = false := by
  cases t <;> first | rfl | cases h

theorem PlanReady.eq_of_leaseOp {k : Book} {account : Str} {old : Block}
    (h : PlanReady k account old steps) {x : Str × Block} (hx : x ∈ steps)
    (ht : isLeaseOp x.2.type = true) : x = (account, old) := by
  obtain ⟨init, rfl⟩ := h.last
  rcases List.mem_append.mp hx with hx | hx
  · have hno := not_isLeaseOp_of_cascadable (h.ok.init.2 x.1 x.2 hx)
    exact absurd ht (by rw [hno]; exact Bool.false_ne_true)
  · exact List.mem_singleton.mp hx

theorem PlanReady.of_removed {k k' : Book} {account : Str} {old a : Block}
    (h : PlanReady k account old steps) (hr : Removed k a k') (hfree : ∀ x ∈ steps, x.1 ≠ a.account) :
    PlanReady k' account old steps := by
  obtain ⟨rest, hrest, hchain⟩ := hr.chain_eq
  have hsub : ∀ x, k'.On x → k.On x := by
    intro x hx
    unfold Book.On at hx ⊢
    rw [hchain] at hx
    split_ifs at hx with he
    · rw [he, hrest]
      exact List.mem_append_left _ hx
    · exact hx
  refine ⟨⟨?_, h.ok.cascadable⟩, h.last, ?_⟩
  · intro x y hy
    obtain ⟨hon, hacc, ht⟩ := h.ok.on x y hy
    refine ⟨?_, hacc, ht⟩
    unfold Book.On
    rw [hchain, if_neg (hacc ▸ hfree _ hy)]
    exact hon
  · intro pre x post he hs r hn
    exact h.receivers pre x post he hs r ⟨hsub r hn.1, hn.2⟩

theorem Checked.cancel {v : Reads} {p : Prepared} (h : Checked c v b p)
    (ht : b.type = .leaseCancel) : p.commit.expectLeaseHash = b.source ∧
      p.commit.expectLeaseState = .created ∧ b.source ≠ [] := by
  cases h with
  | leaseCancel _ _ _ _ source => exact ⟨rfl, rfl, source⟩
  | genesis type | send type | burn type | mint type | lease _ _ type | receive _ type
  | leaseAccept _ _ type | leaseForceSettle _ _ _ type | leaseSettle _ _ type
  | leaseRenew _ _ _ type | multisigOpen _ type | multisigUpdate _ type =>
    rw [ht] at type
    cases type

/-- The undos stay what they are when the winner, a cancel, has unwound an accept on its way to being
written. -/
theorem Writes.cascade {p : Prepared} {account : Str} {old : Block} (hk : s.book.Wf)
    (hcb : s.mem.activeCascade = some cb) (hcas : Cascade s.book s.store.leases w steps cb us)
    (hp : PlanReady s.book account old steps) (hlocked : ∀ x ∈ steps, s.locks (.account x.1) ≠ none)
    (hw : w = b.hash) {s₁ : State} (hun : Unwound s b s₁) (h : Writes c s₁ b p s') :
    Cascade s₁.book s₁.store.leases w steps cb us ∧ PlanReady s₁.book account old steps := by
  cases hun with
  | same => exact ⟨hcas, hp⟩
  | cancelWins u hu =>
    obtain ⟨a, type, acceptType, source, -, -, hfree, undo⟩ := hu.undo hk
    have hr := undo.removed hk
    have hne : ∀ x ∈ steps, x.1 ≠ a.account := by
      intro x hx he
      exact hlocked x hx (he ▸ hfree)
    have hp₁ := hp.of_removed hr hne
    refine ⟨hcas.congr hk.unstaked (hr.wf hk).unstaked hr.blocks ?_ ?_, hp₁⟩
    · intro x hx
      obtain ⟨rest, -, hchains⟩ := hr.chain
      rw [hchains]
      split_ifs
      · exact Table.get_del_of_ne _ (hne x hx)
      · exact Table.get_set_of_ne _ (hne x hx) _
    · intro x hx ht
      obtain rfl := hp.eq_of_leaseOp hx ht
      -- had the replaced block named the lease, the winner would not find it created
      have hsrc : old.source ≠ b.source := by
        intro he
        obtain ⟨init, rfl⟩ := hp.last
        obtain ⟨l, hl⟩ := hcas.lease_of_last hk ht
        have hwrite := (h.promoted hcas ((undone_activeCascade s u).trans hcb) hw).1
        have hshow := (hcas.shows hcb hk
          ((hcas.unwinds hk hk.unstaked hp.ok).wf hk).1).lease b.source
        rw [← he, hl] at hshow
        cases hu with
        | intro l' _ _ _ _ record state =>
          have hll : l = l' := by
            have := hshow.symm.trans (he ▸ record)
            exact Option.some.inj this
          subst hll
          obtain ⟨hexp, hcreated, hne'⟩ := h.checked.cancel type
          rw [hexp, ← he, hl] at hwrite
          obtain ⟨l₁, hl₁, hst⟩ := casLease_ok hwrite (hexp ▸ hne')
          cases hl₁
          rw [state, hcreated] at hst
          cases hst
      have hexit := hr.exit
      generalize (s.undone u).book.pending = pending at hexit
      generalize (s.undone u).book.leases = leases at hexit ⊢
      cases hexit with
      | leaseAccept l t record =>
        exact Table.get_set_of_ne _ (source ▸ hsrc) _
      | lease t | leaseSettle _ t | leaseForceSettle _ t | leaseCancel _ t | leaseRenew _ _ t =>
        rw [acceptType] at t
        cases t
      | send | receive | rest => rfl

/-- **The winner's handler in a promotion.** -/
theorem promote_outcome (hD : IdealHash c.lib D) (hg : GenesisSealed c.lib D c.node.genesis)
    (hi : s.Inv c.node D) (hb : Sealed c.lib D b) {account : Str} {old : Block}
    (hcas : Cascade s.book s.store.leases w steps cb us)
    (hp : PlanReady s.book account old steps) (hlocked : ∀ x ∈ steps, L (.account x.1) ≠ none)
    (hw : w = b.hash) {newHash : Str} {r : Except Fault Unit} (hr : r ≠ .error .panic)
    (h : (promote c cb newHash b).run (s.dress L none) = some (r, s')) :
    ∃ s₀, Outcome c.lib (staleIn steps) s b (steps.map Prod.snd) r s₀ ∧ s' = s₀.dress L none := by
  have hact : (wrapErr (str "SwapBlock: ") (activateCascade cb)).run (s.dress L none) =
      some (.ok (), s.dress L (some cb)) := rfl
  unfold promote at h
  rw [run_bind_of_ok hact] at h
  obtain ⟨r₁, s₁, hdisp, hrest⟩ := run_handle_eq_some.mp h
  have hkeyed : (s.dress L (some cb)).book.Keyed := hi.caches.keyed
  have hwf : (s.dress L (some cb)).book.Wf := hi.wf
  obtain ⟨s₂, hun, hcases⟩ := dispatch_cases hkeyed hdisp
  have hforced : Forced s b (s₂.dress s.locks none) := by
    have hf := (hun.forced hwf).dress s.locks none
    rwa [dress_dress, dress_quiet hi.quiet] at hf
  obtain ⟨hframe, hactive⟩ := (hun.forced hwf).frame
  have hlocks : s₂.locks = L := congrArg Frame.locks hframe
  rcases hcases with ⟨e, rfl, rfl⟩ | ⟨rfl, p, hwrites⟩
  · -- the winner is refused, and the promotion ends
    cases e with
    | panic =>
      cases hrest
      exact absurd rfl hr
    | err e =>
      cases hrest
      refine ⟨s₁.dress s.locks none, .refused hforced, ?_⟩
      rw [dress_dress, ← hlocks]
      rfl
  · -- the winner is written over the undos
    obtain ⟨hcas₂, hp₂⟩ := hwrites.cascade hwf rfl hcas hp hlocked hw hun
    obtain ⟨hexpect, rfl⟩ := hwrites.promoted hcas₂ hactive hw
    have hi₂ := hforced.inv hg hi
    have ht := hwrites.type_ne hi₂.opened
    have hundone : Undone (s₂.dress s.locks none) (steps.map Prod.snd)
        (us.foldl State.undone (s₂.dress s.locks none)) :=
      Cascade.undone (s := s₂.dress s.locks none) hi₂.wf hcas₂ hp₂.ok
    have hi₃ := hundone.inv hg hi₂ hp₂.receivers
    have hbook : (us.foldl State.undone (s₂.dress s.locks none)).book = s₂.book.undoAll us :=
      foldl_undone_book us _
    have hshows := hcas₂.shows hactive hi₂.wf (hbook ▸ hi₃.wf)
    rw [← hbook] at hshows
    have hext := hwrites.extends_ ht
    have hcommits : Commits c.lib (staleIn steps) (us.foldl State.undone (s₂.dress s.locks none))
        b p := by
      refine commits_of_checked hi₃.wf hshows hwrites.checked hwrites.key hext ht hb.asset
        hb.length ?_ (by rw [hbook]; exact hexpect)
      refine Sealed.fresh hD hg hi₃.wf (fun x hx => hi₃.on_filed hx) hb ht ?_
      rw [← hshows.chain]
      exact hext.previous
    have hauth := dispatch_authorised (s := s.dress L (some cb)) hi.caches
      (fun hm => hcommits.declares (.inl hm)) hdisp
    cases hrest
    refine ⟨_, .written hforced hundone hp₂.receivers hcommits ht hauth, ?_⟩
    rw [← committed_dress hi₃.quiet, foldl_undone_dress, dress_dress, hlocks]
    exact dress_quiet (committed_activeCascade _ p)

end Promote

/-! ## The whole swap -/

section Plan

variable {rollback : Str → Plan → M Plan} {quote : Str → Str} {account : Str}

theorem each_wrapErr {α : Type} {A : (β : Type) → (State → Option (β × State)) → Prop} {q : M α}
    (before : Str) (hq : q.Each A) : (wrapErr before q).Each A :=
  each_handle hq fun _ => each_done _

theorem still_wrapErr {α : Type} {q : M α} {s : State} (before : Str) (hq : q.Still s) :
    (wrapErr before q).Still s :=
  still_handle hq fun _ => ReadOnly.still (each_done _) s

theorem inert_planBlocks (hr : ∀ h p, (rollback h p).Inert) (refuse : Block → Str)
    (bs : List Block) (p : Plan) : (planBlocks rollback refuse account bs p).Inert := by
  induction bs generalizing p with
  | nil => exact each_pure _
  | cons b bs ih =>
    unfold planBlocks
    refine each_ite (ih p) (each_ite (each_fail _) ?_)
    refine each_ite (each_bind (readOnly_readStore _).inert fun o => ?_) (ih _)
    cases o with
    | none => exact each_bind (hr _ _) fun p₂ => ih _
    | some _ => exact ih _

theorem inert_planRollbackFrom (hr : ∀ h p, (rollback h p).Inert) (h : Str) (p : Plan) :
    (planRollbackFrom quote rollback account h p).Inert := by
  refine each_bind (readOnly_readStore _).inert fun o => ?_
  cases o with
  | none => exact each_pure _
  | some chain =>
    dsimp only
    split
    · exact each_pure _
    · exact each_bind (readOnly_readStore _).inert fun _ => each_guard <| inert_planBlocks hr _ _ _

theorem inert_planRollbackOfSend (fuel : ℕ) (h : Str) (p : Plan) :
    (planRollbackOfSend quote fuel h p).Inert := by
  induction fuel generalizing h p with
  | zero => exact ⟨fun _ _ _ hnone => absurd hnone (Option.some_ne_none _).symm, fun _ => trivial⟩
  | succ fuel ih =>
    refine each_bind (readOnly_readStore _).inert fun o => ?_
    cases o with
    | some _ => exact each_pure _
    | none =>
      refine each_bind (readOnly_readStore _).inert fun o => ?_
      cases o with
      | none => exact each_pure _
      | some send => exact each_ite (each_pure _) (inert_planRollbackFrom ih _ _)

theorem inert_planSwap (c : Ctx) (account : Str) (old : Block) (after : List Block) :
    (planSwap c account old after).Inert := by
  have hr : ∀ h p, (wrapErr (str "SwapBlock: ")
      (planRollbackOfSend c.lib.quote c.fuel h p)).Inert :=
    fun h p => each_wrapErr _ (inert_planRollbackOfSend _ h p)
  refine each_bind (inert_planBlocks hr _ _ _) fun p => ?_
  refine each_ite (each_bind (readOnly_readStore _).inert fun o => ?_) (each_pure _)
  cases o with
  | none => exact each_bind (hr _ _) fun _ => each_pure _
  | some _ => exact each_pure _

end Plan

section Swap

variable {D : Set Str} {c : Ctx} {s s' : State} {b : Block} {account oldHash : Str}

/-- What a swap replaces: a block above the final height of its account, with a plan that can be
carried out. -/
structure Replaces (s : State) (account oldHash : Str) (old : Block) (steps : List (Str × Block)) :
    Prop where
  chain : ∃ before after, s.book.chain account = before ++ old :: after ∧
    s.store.finalHeightOf account ≤ before.length
  hash : old.hash = oldHash
  type : old.type ≠ .genesis
  ready : PlanReady s.book account old steps
  hangs : ∀ x ∈ steps, s.book.Hangs old x.2

/-- A block above the final height is not the genesis block, which is the first of its chain and
final. -/
theorem State.Inv.type_ne_genesis {node : Node} (hi : s.Inv node D) {before after : List Block}
    {old : Block} (hc : s.book.chain account = before ++ old :: after)
    (hf : s.store.finalHeightOf account ≤ before.length) : old.type ≠ .genesis := by
  intro ht
  obtain ⟨⟨rest, hrest⟩, hone⟩ := hi.genesis account old (by rw [hc]; simp) ht
  have hfresh := hi.wf.nodup account
  rw [hc] at hrest hfresh
  cases before with
  | nil => exact absurd (hone.trans hf) (by decide)
  | cons x xs =>
    rw [List.cons_append] at hrest hfresh
    obtain ⟨rfl, -⟩ := List.cons.inj hrest
    exact (List.nodup_cons.mp hfresh).1 (by simp)

theorem State.Inv.planReady {node : Node} (hi : s.Inv node D) {before after : List Block}
    {old : Block} (hc : s.book.chain account = before ++ old :: after)
    (hf : s.store.finalHeightOf account ≤ before.length) {plan : Plan}
    (h : (planSwap c account old after).run s = some (.ok plan, s')) :
    old.type ≠ .genesis ∧ PlanReady s.book account old plan.steps ∧
      ∀ x ∈ plan.steps, s.book.Hangs old x.2 := by
  have htype := hi.type_ne_genesis hc hf
  obtain ⟨-, hok, hhangs, hlast, hrecv⟩ := planSwap_ok hi.wf hc htype h
  exact ⟨htype, ⟨hok, hlast, hrecv hi.sends⟩, hhangs⟩

/-- **The swap of a block** leaves no trace, or it is the outcome of the winner's handler over the
planned blocks. -/
theorem swap_outcome (hD : IdealHash c.lib D) (hg : GenesisSealed c.lib D c.node.genesis)
    (hi : s.Inv c.node D) (hb : Sealed c.lib D b) (hlock : s.locks (.account account) ≠ none)
    {r : Except Fault Unit} (hr : r ≠ .error .panic)
    (h : (swapBlockLocked c account oldHash b.hash b).run s = some (r, s')) :
    (∃ e, r = .error e ∧ s' = s) ∨ ∃ old steps, Replaces s account oldHash old steps ∧
      Outcome c.lib (staleIn steps) s b (steps.map Prod.snd) r s' := by
  unfold swapBlockLocked at h
  rcases ((readOnly_readStore _).still s).bind_cases h with herr | ⟨o, ho, h₁⟩
  · exact .inl herr
  rcases ((readOnly_orErr _ _).still s).bind_cases h₁ with herr | ⟨chain, hchain, h₂⟩
  · exact .inl herr
  rcases ((readOnly_orErr _ _).still s).bind_cases h₂ with herr | ⟨idx, hidx, h₃⟩
  · exact .inl herr
  rcases ((readOnly_orErr _ _).still s).bind_cases h₃ with herr | ⟨old, hold, h₄⟩
  · exact .inl herr
  rcases ((readOnly_readStore _).still s).bind_cases h₄ with herr | ⟨fh, hfh, h₅⟩
  · exact .inl herr
  rcases ((readOnly_failIf _ _).still s).bind_cases h₅ with herr | ⟨_, hnf, h₆⟩
  · exact .inl herr
  rcases ((inert_planSwap _ _ _ _).still s).bind_cases h₆ with herr | ⟨plan, hplan, h₇⟩
  · exact .inl herr
  cases ho
  cases hfh
  obtain ⟨hchain, -⟩ := run_orErr_ok.mp hchain
  obtain ⟨hidx, -⟩ := run_orErr_ok.mp hidx
  obtain ⟨hold, -⟩ := run_orErr_ok.mp hold
  have hnf := (run_failIf_ok.mp hnf).1
  obtain ⟨hlt, hhash, -⟩ := List.findIdx?_eq_some_iff_getElem.mp hidx
  rw [List.getElem?_eq_getElem hlt, Option.some.injEq] at hold
  rw [hold, beq_iff_eq] at hhash
  have hsplit : s.book.chain account = chain.take idx ++ old :: chain.drop (idx + 1) := by
    rw [Book.chain_of_get hchain, ← hold, List.cons_getElem_drop_succ, List.take_append_drop]
  have hlen : (chain.take idx).length = idx := List.length_take_of_le hlt.le
  have hfinal : s.store.finalHeightOf account ≤ (chain.take idx).length := by
    rw [hlen]
    exact Nat.le_of_not_lt hnf
  obtain ⟨htype, hready, hhangs⟩ := hi.planReady hsplit hfinal hplan
  have hreplaces : Replaces s account oldHash old plan.steps :=
    ⟨⟨_, _, hsplit, hfinal⟩, hhash, htype, hready, hhangs⟩
  obtain ⟨L, s₁, hrun, hheld, hkept, hback⟩ := run_withLocks h₇
  rw [hi.quiet] at hrun
  rcases ((readOnly_buildCascade _ _ _).still _).bind_cases hrun with ⟨e, rfl, rfl⟩ | ⟨cb, hcb, hrun⟩
  · refine .inl ⟨e, rfl, ?_⟩
    rw [hback rfl, dress_dress]
    exact dress_quiet hi.quiet
  have hbuild : (buildCascade plan.steps (CascadeBuild.new b.hash).chains (.new b.hash)).run
      (s.dress L none) = some (.ok cb, s.dress L none) := hcb
  obtain ⟨us, hcas⟩ := buildCascade_ok hbuild Cascade.nil
  have hlocked : ∀ x ∈ plan.steps, L (.account x.1) ≠ none := by
    intro x hx
    by_cases ha : x.1 = account
    · rw [ha]
      exact hkept _ hlock
    · refine hheld _ (List.mem_map.mpr ⟨x.1, ?_, rfl⟩)
      unfold Plan.foreign
      rw [sortStrings, List.mem_insertionSort, List.mem_dedup, List.mem_filter]
      exact ⟨List.mem_map_of_mem hx, by simpa using ha⟩
  obtain ⟨s₀, hout, rfl⟩ := promote_outcome hD hg hi hb hcas hready hlocked rfl hr hrun
  refine .inr ⟨old, plan.steps, hreplaces, ?_⟩
  have hi₀ := hout.inv hD hg hi hb
  have hlocks : s₀.locks = s.locks := congrArg Frame.locks hout.frame.1
  have hsame : s₀.dress s.locks none = s₀ := by
    rw [← hlocks]
    exact dress_quiet hi₀.quiet
  rw [hback rfl, dress_dress]
  exact hsame.symm ▸ hout

end Swap

end Xe
