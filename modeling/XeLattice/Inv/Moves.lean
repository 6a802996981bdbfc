import XeLattice.Inv.Slots

/-!
# The writes of a call are moves of its book

A handler's commit appends a block (`appended_of_checked`), and an undo takes one off
(`removed_of_undoes`).  The first is stated for a handler that reads a book through some view of it,
so that it serves plain additions and promotions alike: `Shows v k` says that the reads `v` are those
of the book `k`, but for the amounts of stale entries.
-/

set_option autoImplicit false

namespace Xe

/-! ## Undos -/

section Undo

variable {k : Book} {b : Block}

theorem Balances.bal_debit_zero (t : Balances) (d : AssetDelta) (hd : d.amount = 0) (a x : Str) :
    Balances.bal (match t.get d.account with
      | none => t
      | some _ => t.put d.account d.asset
          (if d.amount ≥ t.bal d.account d.asset then 0
            else t.bal d.account d.asset - d.amount)) a x = t.bal a x := by
  have hval : (if d.amount ≥ t.bal d.account d.asset then 0
      else t.bal d.account d.asset - d.amount) = t.bal d.account d.asset := by
    rw [hd]
    split_ifs with h
    · exact (UInt64.le_zero_iff.mp h).symm
    · exact UInt64.sub_zero _
  rw [hval]
  cases t.get d.account with
  | none => rfl
  | some _ =>
    by_cases ha : a = d.account
    · subst ha
      by_cases hx : x = d.asset
      · subst hx
        exact Balances.bal_put_self _ _ _ _
      · exact Balances.bal_put_of_asset_ne _ _ hx _
    · exact Balances.bal_put_of_ne _ ha _ _ _

theorem Undoes.debit (hk : k.Wf) {e : UndoEffect} (he : Undoes k.blocks k.leases b e)
    {d : AssetDelta} (hd : e.assetDebit = some d) : d.amount = 0 := by
  cases he with
  | leaseSettle l type record =>
    cases hd
    exact (hk.unstaked b.source l record : l.stake = 0)
  | send | receive | lease | leaseAccept | leaseForceSettle | leaseCancel | leaseRenew
  | multisigOpen | burn | mint | genesis | other => cases hd

theorem Book.Wf.nil_of_frontier (hk : k.Wf) {ch : AccountChain} (hon : ∀ x ∈ ch, k.On x)
    (h : frontier ch = zeroPrev) : ch = [] := by
  rcases List.eq_nil_or_concat ch with hc | ⟨init, x, rfl⟩
  · exact hc
  · have hx : k.On x := hon x (by simp)
    have hlen : x.hash.length = 64 := (hk.hash _ _ (hk.known x hx)).2
    rw [List.concat_eq_append, frontier_concat] at h
    rw [h] at hlen
    cases hlen

theorem Book.Wf.nil_of_previous (hk : k.Wf) {rest : AccountChain}
    (hc : k.chain b.account = rest ++ [b]) (hp : b.previous = zeroPrev) : rest = [] := by
  have hl := hk.linked b.account
  rw [hc] at hl
  refine hk.nil_of_frontier (fun x hx => Book.On.of_mem hk (a := b.account) ?_)
    (hl.of_concat.2.symm.trans hp)
  rw [hc]
  exact List.mem_append_left _ hx

theorem parentBalOf_eq (hk : k.Wf) {rest : AccountChain} (hc : k.chain b.account = rest ++ [b])
    {L : Table Str Lease} (hL : Unstaked L) (hr : rest ≠ []) :
    parentBalOf L b rest = assetBalanceOnChain rest (assetOrXE b.asset) := by
  unfold parentBalOf
  rw [if_neg (fun hp => hr (hk.nil_of_previous hc hp))]
  split_ifs with hx
  · rw [hL.xusdBalanceOnChain, hx]
  · rfl

theorem undo_balances (hk : k.Wf) {rest : AccountChain} (hc : k.chain b.account = rest ++ [b])
    {L : Table Str Lease} (hL : Unstaked L) {e : UndoEffect}
    (he : Undoes k.blocks k.leases b e) (a x : Str) :
    ((undoMemory L b.account b rest b e).balancesAfter k.balances).bal a x =
      assetBalanceOnChain (if a = b.account then rest else k.chain a) x := by
  have hdebit : ((undoMemory L b.account b rest b e).balancesAfter k.balances).bal a x =
      Balances.bal (if rest.isEmpty then k.balances.del b.account
        else k.balances.put b.account (assetOrXE b.asset) (parentBalOf L b rest)) a x := by
    unfold MemUndo.balancesAfter
    cases hd : e.assetDebit with
    | none => simp only [undoMemory, hd]
    | some d =>
      simp only [undoMemory, hd]
      exact Balances.bal_debit_zero _ d (he.debit hk hd) a x
  rw [hdebit]
  by_cases hr : rest = []
  · subst hr
    by_cases ha : a = b.account
    · rw [if_pos ha, ha]
      exact Balances.bal_del_self _ _ _
    · rw [if_neg ha]
      exact (Balances.bal_del_of_ne _ ha _).trans (hk.balance a x)
  · have hre : rest.isEmpty = false := by simpa using hr
    rw [hre, parentBalOf_eq hk hc hL hr]
    by_cases ha : a = b.account
    · subst ha
      rw [if_pos rfl]
      by_cases hx : x = assetOrXE b.asset
      · subst hx
        exact Balances.bal_put_self _ _ _ _
      · refine (Balances.bal_put_of_asset_ne _ _ hx _).trans ?_
        rw [hk.balance, hc, assetBalanceOnChain_concat, if_neg (fun h => hx h.symm)]
    · rw [if_neg ha]
      exact (Balances.bal_put_of_ne _ ha _ _ _).trans (hk.balance a x)

theorem ne_nil_of_length {s : Str} (h : s.length = 64) : s ≠ [] := by
  rintro rfl
  cases h

theorem undo_exit (hk : k.Wf) (hb : k.On b) (hg : b.type ≠ .genesis)
    {rest : AccountChain} {e : UndoEffect} (he : Undoes k.blocks k.leases b e) :
    Exit k b ((undoRequest b.account b rest e).pendingAfter k.pending)
      ((undoRequest b.account b rest e).leasesAfter k.leases) := by
  have hh : b.hash ≠ [] := ne_nil_of_length (hk.hash _ _ (hk.known b hb)).2
  have delHash : ∀ {V : Type} (t : Table Str V), delNonempty b.hash t = t.del b.hash :=
    fun t => if_neg hh
  have same : ∀ {V : Type} (t : Table Str V), delNonempty [] t = t := fun t => rfl
  have noAdd : ∀ (d : UInt64) (t : Table Str PendingSend), addAmount [] d t = t := fun d t => rfl
  cases he with
  | send type =>
    simp only [BlockUndo.pendingAfter, BlockUndo.leasesAfter, undoRequest, delHash, same, noAdd,
      Table.putSome_none]
    exact .send type
  | receive type =>
    simp only [BlockUndo.pendingAfter, BlockUndo.leasesAfter, undoRequest, same, noAdd,
      Table.putSome_none]
    exact .receive type
  | lease type =>
    simp only [BlockUndo.pendingAfter, BlockUndo.leasesAfter, undoRequest, delHash, noAdd,
      Table.putSome_none]
    exact .lease type
  | leaseAccept l type record =>
    have hkey : (revertLease .created l).leaseHash = b.source := (hk.leaseHash _ l record).1
    simp only [BlockUndo.pendingAfter, BlockUndo.leasesAfter, undoRequest, same, noAdd,
      Table.putSome_none, Table.putSome_some, hkey]
    exact .leaseAccept l type record
  | leaseSettle l type record =>
    have hkey : (revertLease .accepted l).leaseHash = b.source := (hk.leaseHash _ l record).1
    simp only [BlockUndo.pendingAfter, BlockUndo.leasesAfter, undoRequest, same, noAdd,
      Table.putSome_some, hkey]
    exact .leaseSettle l type record
  | leaseForceSettle l type record =>
    have hkey : (revertLease .accepted l).leaseHash = b.source := (hk.leaseHash _ l record).1
    simp only [BlockUndo.pendingAfter, BlockUndo.leasesAfter, undoRequest, same, noAdd,
      Table.putSome_some, hkey]
    exact .leaseForceSettle l type record
  | leaseCancel l type record =>
    have hkey : (revertLease .created l).leaseHash = b.source := (hk.leaseHash _ l record).1
    simp only [BlockUndo.pendingAfter, BlockUndo.leasesAfter, undoRequest, same, noAdd,
      Table.putSome_some, hkey]
    exact .leaseCancel l type record
  | leaseRenew l l' type record popped =>
    have hkey : l'.leaseHash = b.source := by
      unfold popRenewal at popped
      split_ifs at popped
      cases popped
      exact (hk.leaseHash _ l record).1
    have hadd : addAmount b.source (-b.amount) k.pending =
        k.pending.modify b.source (fun ps => { ps with amount := ps.amount - b.amount }) := by
      unfold addAmount unlessEmpty
      rw [if_neg (ne_nil_of_length (hk.leaseHash _ l record).2)]
      simp only [UInt64.sub_eq_add_neg]
    simp only [BlockUndo.pendingAfter, BlockUndo.leasesAfter, undoRequest, same, hadd,
      Table.putSome_none, Table.putSome_some, hkey]
    exact .leaseRenew l l' type record popped
  | multisigOpen type => exact .rest (Or.inl type)
  | burn type => exact .rest (Or.inr (Or.inl type))
  | mint type => exact .rest (Or.inr (Or.inr type))
  | genesis type => exact absurd type hg
  | other name type => exact absurd type (hk.typed b hb name)

/-- **An undo takes the last block off a chain.** -/
theorem removed_of_undoes (hk : k.Wf) (hg : b.type ≠ .genesis) {rest : AccountChain}
    (hc : k.chain b.account = rest ++ [b]) {L : Table Str Lease} (hL : Unstaked L) {e : UndoEffect}
    (he : Undoes k.blocks k.leases b e) :
    Removed k b (k.undo (undoRequest b.account b rest e, undoMemory L b.account b rest b e)) := by
  have hon : k.On b := by
    rw [Book.On, hc]
    simp
  have hchains : (k.undo (undoRequest b.account b rest e,
      undoMemory L b.account b rest b e)).chains =
      if rest = [] then k.chains.del b.account else k.chains.set b.account rest := by
    cases rest <;> rfl
  have hchain : ∀ a, (k.undo (undoRequest b.account b rest e,
      undoMemory L b.account b rest b e)).chain a = if a = b.account then rest else k.chain a := by
    intro a
    unfold Book.chain
    rw [hchains]
    by_cases hr : rest = []
    · rw [if_pos hr, Table.get_del]
      split_ifs
      · rw [hr]
        rfl
      · rfl
    · rw [if_neg hr, Table.get_set]
      split_ifs <;> rfl
  refine ⟨⟨rest, hc, hchains⟩, rfl, fun a x => ?_, undo_exit hk hon hg he⟩
  rw [hchain]
  exact undo_balances hk hc hL he a x

end Undo

/-! ## Commits -/

/-- The reads are those of the book, but for the amounts of stale entries. -/
structure Shows (v : Reads) (k : Book) (stale : Str → Prop) : Prop where
  blocks : v.blocks = k.blocks
  chain : ∀ a, (v.chainOf a).getD [] = k.chain a
  lease : ∀ h, v.leaseOf h = k.leases.get h
  balance : ∀ a x, x ≠ [] → v.balanceOf a x = k.bal a x
  pending : ∀ h ps, v.pendingOf h = some ps → ∃ ps', k.pending.get h = some ps' ∧
    ps'.destination = ps.destination ∧ ps'.asset = ps.asset ∧ (¬ stale h → ps' = ps)

theorem casLease_ok {before : Str} {lease : Option Lease} {c : BlockCommit}
    (h : Store.casLease before lease c = .ok ()) (hc : c.expectLeaseHash ≠ []) :
    ∃ l, lease = some l ∧ l.state = c.expectLeaseState := by
  unfold Store.casLease at h
  rw [if_neg hc] at h
  have fails : ∀ {α : Type} (x y z : Str) (a : α), Store.casError x y z ≠ .ok a := by
    intro α x y z a hx
    unfold Store.casError slice12 at hx
    split_ifs at hx <;> cases hx
  cases lease with
  | none => exact absurd h (fails _ _ _ _)
  | some l =>
    by_cases hs : l.state = c.expectLeaseState
    · exact ⟨l, rfl, hs⟩
    · simp only [ne_eq, hs, not_false_eq_true, if_true] at h
      exact absurd h (fails _ _ _ _)

section Commit

variable {k : Book} {stale : Str → Prop} {v : Reads} {c : Ctx} {b : Block} {p : Prepared}

theorem Shows.openBalance (hk : k.Wf) (hv : Shows v k stale) {a x : Str} (hx : x ≠ []) :
    v.openBalance a x = k.bal a x := by
  unfold Reads.openBalance
  cases hc : v.chainOf a with
  | some ch => exact hv.balance a x hx
  | none =>
    have hch := hv.chain a
    rw [hc] at hch
    have : k.bal a x = 0 := by
      rw [Book.bal, hk.balance, ← hch]
      rfl
    rw [this]
    rfl

theorem isValidAsset_ne_nil {x : Str} (h : isValidAsset x = true) : x ≠ [] := by
  rintro rfl
  cases h

theorem Spends.book (hv : Shows v k stale) {x : Str} (hx : x ≠ []) (h : Spends v b x) :
    b.amount ≤ k.bal b.account x ∧ b.balance = k.bal b.account x - b.amount := by
  have hb := hv.balance b.account x hx
  refine ⟨?_, ?_⟩
  · rw [← hb]
    exact UInt64.not_lt.mp h.enough
  · rw [← hb]
    exact h.balance

theorem Earns.book (hk : k.Wf) (hv : Shows v k stale) {x : Str} (hx : x ≠ []) {amount : UInt64}
    (h : Earns v b x amount) : ¬ k.bal b.account x + amount < k.bal b.account x ∧
      b.balance = k.bal b.account x + amount := by
  have hb := hv.openBalance hk hx (a := b.account)
  rw [← hb]
  exact ⟨h.noOverflow, h.balance⟩

theorem assetXUSD_ne : assetXUSD ≠ [] := by decide

theorem assetXE_ne : assetXE ≠ [] := by decide

theorem addAmount_nil (d : UInt64) (t : Table Str PendingSend) : addAmount [] d t = t := rfl

theorem delNonempty_nil {V : Type} (t : Table Str V) : delNonempty [] t = t := rfl

theorem modifyNonempty_nil {V : Type} (f : V → V) (t : Table Str V) :
    modifyNonempty [] f t = t := rfl

theorem delNonempty_of_ne {V : Type} {x : Str} (hx : x ≠ []) (t : Table Str V) :
    delNonempty x t = t.del x := if_neg hx

theorem modifyNonempty_of_some {V : Type} {x : Str} (hx : x ≠ []) {t : Table Str V} {v : V}
    (h : t.get x = some v) (f : V → V) : modifyNonempty x f t = t.set x (f v) := by
  unfold modifyNonempty unlessEmpty
  rw [if_neg hx]
  exact Table.modify_of_some h f

theorem addAmount_of_some {x : Str} (hx : x ≠ []) {t : Table Str PendingSend} {ps : PendingSend}
    (h : t.get x = some ps) (d : UInt64) :
    addAmount x d t = t.set x { ps with amount := ps.amount + d } := by
  unfold addAmount unlessEmpty
  rw [if_neg hx]
  exact Table.modify_of_some h _

theorem entry_of_checked (hk : k.Wf) (hv : Shows v k stale) (hc : Checked c v b p)
    (hg : b.type ≠ .genesis) (ha : isValidAsset b.asset = true)
    (hcas : Store.casLease (str "CommitBlock: ") (k.leases.get p.commit.expectLeaseHash) p.commit =
      .ok ()) :
    Entry k stale b (p.commit.pendingAfter k.pending) (p.commit.leasesAfter k.leases) := by
  have hx : b.asset ≠ [] := isValidAsset_ne_nil ha
  cases hc with
  | send type amount spends destination notSelf =>
    obtain ⟨h₁, h₂⟩ := spends.book hv hx
    exact .send type amount h₁ h₂ destination
  | burn type asset amount spends =>
    obtain ⟨h₁, h₂⟩ := spends.book hv hx
    exact .burn type asset h₁ h₂
  | receive ps type source pending destination notLive asset earns =>
    obtain ⟨ps', hp, hd, hpa, hex⟩ := hv.pending _ _ pending
    obtain ⟨h₁, h₂⟩ := earns.book hk hv hx
    rw [hv.lease] at notLive
    have hdel : (prepared v b { baseCommit v b with deletePendingID := b.source }).commit.pendingAfter
        k.pending = k.pending.del b.source := delNonempty_of_ne source k.pending
    rw [hdel]
    refine .receive ps' ps.amount type hp (hd.trans destination) notLive (hpa ▸ asset) ?_ h₁ h₂
    intro hst
    rw [hex hst]
  | mint type asset amount minter earns =>
    obtain ⟨h₁, h₂⟩ := earns.book hk hv hx
    exact .mint type asset h₁ h₂
  | genesis type => exact absurd type hg
  | multisigOpen ks type keyset valid unopened balance =>
    have hch := hv.chain b.account
    rw [unopened] at hch
    exact .multisigOpen type hch.symm balance
  | multisigUpdate ks type keyset valid opened balance =>
    exact .multisigUpdate type (balance.trans (hv.balance _ _ hx))
  | lease lookup cert type asset destination notSelf certificates certificate spends =>
    obtain ⟨h₁, h₂⟩ := spends.book hv assetXUSD_ne
    exact .lease type asset h₁ h₂
  | leaseAccept lb t type asset source block blockType provider created stake spends =>
    obtain ⟨l, hl, hst⟩ := casLease_ok hcas source
    obtain ⟨-, h₂⟩ := spends.book hv assetXUSD_ne
    rw [hv.blocks] at block
    have hamt : b.amount = 0 := stake.trans (leaseStake_eq_zero _)
    rw [hamt, UInt64.sub_zero] at h₂
    exact .leaseAccept lb l t type asset block blockType provider hl hst hamt h₂
  | leaseCancel lb ps type asset source block blockType consumer pending balance =>
    obtain ⟨l, hl, hst⟩ := casLease_ok hcas source
    obtain ⟨ps', hp, -, -, -⟩ := hv.pending _ _ pending
    rw [hv.blocks] at block
    rw [hv.balance _ _ assetXUSD_ne] at balance
    simp only [prepared, BlockCommit.pendingAfter, BlockCommit.leasesAfter, baseCommit,
      Table.putSome_none, addAmount_nil, delNonempty_of_ne source, modifyNonempty_nil,
      modifyNonempty_of_some source hl]
    exact .leaseCancel lb l ps' type asset block blockType consumer hl hst hp balance
  | leaseForceSettle lb lease ps type asset source block blockType consumer accepted pending
      noOverflow balance =>
    obtain ⟨l, hl, hst⟩ := casLease_ok hcas source
    obtain ⟨ps', hp, -, -, hex⟩ := hv.pending _ _ pending
    rw [hv.blocks] at block
    rw [hv.balance _ _ assetXUSD_ne] at balance noOverflow
    simp only [prepared, BlockCommit.pendingAfter, BlockCommit.leasesAfter, baseCommit,
      Table.putSome_none, addAmount_nil, delNonempty_of_ne source, modifyNonempty_nil,
      modifyNonempty_of_some source hl]
    refine .leaseForceSettle lb l ps' ps.amount type asset block blockType consumer hl hst hp ?_
      noOverflow balance
    intro h
    rw [hex h]
  | leaseSettle lease ps type asset source accepted provider pending noOverflow balance =>
    obtain ⟨l, hl, hst⟩ := casLease_ok hcas source
    obtain ⟨ps', hp, -, -, -⟩ := hv.pending _ _ pending
    have hrec : l = lease := by
      have := accepted.record
      rw [hv.lease, show k.leases.get b.source = some l from hl] at this
      exact Option.some.inj this
    subst hrec
    rw [hv.balance _ _ assetXE_ne] at balance noOverflow
    simp only [prepared, BlockCommit.pendingAfter, BlockCommit.leasesAfter, baseCommit,
      Table.putSome_none, addAmount_nil, delNonempty_of_ne source, modifyNonempty_nil,
      modifyNonempty_of_some source hl]
    exact .leaseSettle l ps' type asset hl hst provider hp noOverflow balance
  | leaseRenew lease ps t type asset source accepted consumer pending spends =>
    obtain ⟨l, hl, hst⟩ := casLease_ok hcas source
    obtain ⟨ps', hp, -, -, -⟩ := hv.pending _ _ pending
    obtain ⟨h₁, h₂⟩ := spends.book hv assetXUSD_ne
    have hrec : l = lease := by
      have := accepted.record
      rw [hv.lease, show k.leases.get b.source = some l from hl] at this
      exact Option.some.inj this
    subst hrec
    have hset : k.leases.set l.leaseHash { l with renewals := l.renewals ++ [renewSegment b t] } =
        k.leases.set b.source { l with renewals := l.renewals ++ [renewSegment b t] } :=
      congrArg (k.leases.set · _) (hk.leaseHash _ l hl).1
    simp only [prepared, BlockCommit.pendingAfter, BlockCommit.leasesAfter, baseCommit,
      Table.putSome_none, Table.putSome_some, delNonempty_nil, modifyNonempty_nil,
      addAmount_of_some source hp]
    rw [hset]
    exact .leaseRenew l ps' t type asset hl hst consumer hp h₁ h₂

theorem Checked.base (hc : Checked c v b p) : p.commit.block = b ∧ p.commit.account = b.account ∧
    p.commit.chain = (v.chainOf b.account).getD [] ++ [b] := by
  cases hc <;> exact ⟨rfl, rfl, rfl⟩

/-- The reputation event that a block stands for, read off the lease block and the record that it
leaves. -/
def eventOf (blocks : Table Str Block) (leases : Table Str Lease) (b : Block) :
    Option ReputationEvent :=
  match b.type with
  | .leaseAccept => (leases.get b.source).map fun l =>
      { kind := .leaseAccepted, provider := l.provider, consumer := l.consumer,
        timestamp := l.startTime }
  | .leaseSettle => (leases.get b.source).map fun l =>
      { kind := .leaseSettled, provider := l.provider, consumer := l.consumer,
        timestamp := b.timestamp, durationSecs := l.duration }
  | .leaseForceSettle => (leases.get b.source).map fun l =>
      { kind := .leaseUnfulfilled, provider := l.provider, consumer := b.account,
        timestamp := b.timestamp }
  | .leaseCancel => (blocks.get b.source).map fun lb =>
      { kind := .leaseCancelled, provider := lb.destination, consumer := b.account,
        timestamp := b.timestamp }
  | _ => none

theorem Checked.event (hv : Shows v k stale) (hc : Checked c v b p) :
    p.event = eventOf k.blocks (p.commit.leasesAfter k.leases) b := by
  cases hc with
  | send type | burn type | receive _ type | mint type | genesis type | multisigOpen _ type
  | multisigUpdate _ type | lease _ _ type | leaseRenew _ _ _ type =>
    simp only [prepared, eventOf, type]
  | leaseAccept lb t type =>
    have hget : (k.leases.set b.source (acceptedRecord b lb t)).get b.source =
        some (acceptedRecord b lb t) := Table.get_set_self _ _ _
    simp only [prepared, eventOf, type, BlockCommit.leasesAfter, baseCommit, Table.putSome_some,
      modifyNonempty_nil, acceptedRecord] at hget ⊢
    rw [hget, Option.map_some]
  | leaseCancel lb ps type _ _ block =>
    rw [hv.blocks] at block
    simp only [prepared, eventOf, type, block, Option.map_some]
  | leaseForceSettle lb lease ps type asset source _ _ _ accepted =>
    have hl : k.leases.get b.source = some lease := (hv.lease _).symm.trans accepted.record
    simp only [prepared, eventOf, type, BlockCommit.leasesAfter, baseCommit, Table.putSome_none,
      modifyNonempty_nil, modifyNonempty_of_some source hl, Table.get_set_self, Option.map_some]
  | leaseSettle lease ps type asset source accepted =>
    have hl : k.leases.get b.source = some lease := (hv.lease _).symm.trans accepted.record
    simp only [prepared, eventOf, type, BlockCommit.leasesAfter, baseCommit, Table.putSome_none,
      modifyNonempty_nil, modifyNonempty_of_some source hl, Table.get_set_self, Option.map_some]

theorem Checked.attested (hc : Checked c v b p) (ht : b.type = .leaseAccept) {ev : ReputationEvent}
    (hev : p.event = some ev) : ∃ a ∈ b.attestations, a.timestamp = ev.timestamp := by
  cases hc with
  | leaseAccept lb t _ _ _ _ _ _ _ _ _ attested =>
    cases hev
    exact attested
  | send type | burn type | receive _ type | mint type | genesis type | multisigOpen _ type
  | multisigUpdate _ type | lease _ _ type | leaseRenew _ _ _ type | leaseCancel _ _ type
  | leaseForceSettle _ _ _ type | leaseSettle _ _ type =>
    rw [type] at ht
    cases ht

/-- A settlement pays back the stake, which is zero; no other block credits a second asset. -/
theorem Checked.credit (hk : k.Wf) (hv : Shows v k stale) (hc : Checked c v b p) {d : AssetDelta}
    (hd : p.commit.assetCredit = some d) : d.amount = 0 := by
  cases hc with
  | leaseSettle lease ps type asset source accepted =>
    cases hd
    have := accepted.record
    rw [hv.lease] at this
    exact hk.unstaked _ _ this
  | send | burn | receive | mint | genesis | multisigOpen | multisigUpdate | lease | leaseAccept
  | leaseCancel | leaseForceSettle | leaseRenew => cases hd

theorem Balances.bal_put (t : Balances) (a x : Str) (w : UInt64) (a' x' : Str) :
    (t.put a x w).bal a' x' = if a' = a ∧ x' = x then w else t.bal a' x' := by
  by_cases ha : a' = a
  · subst ha
    by_cases hx : x' = x
    · subst hx
      rw [if_pos ⟨rfl, rfl⟩, Balances.bal_put_self]
    · rw [if_neg (fun h => hx h.2), Balances.bal_put_of_asset_ne _ _ hx]
  · rw [if_neg (fun h => ha h.1), Balances.bal_put_of_ne _ ha]

/-- **A handler's commit appends its block.** -/
theorem appended_of_checked (hk : k.Wf) (hv : Shows v k stale) (hc : Checked c v b p)
    (hext : b.previous = frontier ((v.chainOf b.account).getD [])) (hg : b.type ≠ .genesis)
    (ha : isValidAsset b.asset = true) (hlen : b.hash.length = 64)
    (hfresh : ∀ x, k.On x → x.hash ≠ b.hash)
    (hcas : Store.casLease (str "CommitBlock: ") (k.leases.get p.commit.expectLeaseHash) p.commit =
      .ok ()) : Appended stale k b (k.commit p.commit) := by
  obtain ⟨hblock, hacc, hchain⟩ := hc.base
  rw [hv.chain] at hchain hext
  refine ⟨hlen, hfresh, ha, hext, ?_, ?_, fun a x => ?_, entry_of_checked hk hv hc hg ha hcas⟩
  · exact congrArg (fun y : Block => k.blocks.set y.hash y) hblock
  · show k.chains.set p.commit.account p.commit.chain = _
    rw [hacc, hchain]
  · have hcredit : (p.commit.balancesAfter k.balances).bal a x =
        (k.balances.put p.commit.account (assetOrXE p.commit.block.asset)
          p.commit.block.balance).bal a x := by
      unfold BlockCommit.balancesAfter
      cases hd : p.commit.assetCredit with
      | none => rfl
      | some d =>
        simp only [hc.credit hk hv hd, UInt64.add_zero]
        rw [Balances.bal_put]
        split_ifs with h
        · rw [h.1, h.2]
        · rfl
    refine hcredit.trans ?_
    rw [Balances.bal_put, hacc, hblock]

end Commit

end Xe
