import XeLattice.Inv.Adding

/-!
# Runs of a node

A node starts from its genesis ledger and is then asked, again and again, to add a block, to swap a
block for another one, or to append the winner of an election; between these calls it takes notes:
votes, statuses, conflict records, staged blocks and final heights.

* **`call_effect`**: what a call does;
* **`Reachable.inv`**: the invariants of the ledger hold in every reachable state;
* **`Reachable.kept`**: what each step keeps holds in every reachable state.
-/

set_option autoImplicit false

namespace Xe

open Prog

/-! ## The genesis ledger -/

section Genesis

variable {c : Ctx} {kind : StoreKind} {s : State} {D : Set Str}

/-- The commit of the genesis block. -/
def genesisRequest (c : Ctx) (kind : StoreKind) : Prepared :=
  prepared (State.empty kind).reads c.node.genesis
    (baseCommit (State.empty kind).reads c.node.genesis)

theorem newLedger_ok (h : (newLedger c).run (.empty kind) = some (.ok (), s)) :
    s = ((State.empty kind).committed (genesisRequest c kind)).mapStore
      (Store.setFinalHeight c.node.genesis.account 1) := by
  have hfinish : (addBlockLocked c.node.genesis).run (.empty kind) =
      (finishWrite (genesisRequest c kind)).run (.empty kind) := by
    unfold addBlockLocked finishWrite
    rw [run_prepareBlockWrite_bind, run_bind]
    change (commitBlockWrite (genesisRequest c kind).commit
      (genesisRequest c kind).prevBalance).run (.empty kind) = _
    rcases (commitBlockWrite (genesisRequest c kind).commit
      (genesisRequest c kind).prevBalance).run (.empty kind) with - | ⟨- | -, s'⟩ <;> rfl
  unfold newLedger at h
  obtain ⟨_, s₁, hadd, hrest⟩ := run_bind_eq_ok.mp h
  rw [hfinish, run_finishWrite_alone (by intro cb hcb; cases hcb)] at hadd
  cases hst : (State.empty kind).store.applyCommit
      ((genesisRequest c kind).request (State.empty kind)) with
  | error e =>
    rw [hst] at hadd
    cases hadd
  | ok st =>
    rw [hst] at hadd
    obtain ⟨-, rfl⟩ := Store.applyCommit_ok (withDelegation_exclusive _ (.inl rfl)) hst
    cases hadd
    obtain ⟨_, s₂, hfinal, hcheck⟩ := run_bind_eq_ok.mp hrest
    cases hfinal
    obtain ⟨total, s₃, htotal, hend⟩ := run_bind_eq_ok.mp hcheck
    cases htotal
    split_ifs at hend
    · cases hend
    · cases hend
      rfl

/-- The book of a new ledger. -/
structure FirstBook (g : Block) (k : Book) : Prop where
  blocks : k.blocks = Table.empty.set g.hash g
  chains : k.chains = Table.empty.set g.account [g]
  pending : k.pending = .empty
  leases : k.leases = .empty
  keysets : k.keysets = .empty
  accountKeys : k.accountKeys = if g.pubKey = [] then .empty else Table.empty.set g.account g.pubKey
  balances : ∀ a x, k.balances.bal a x =
    if a = g.account ∧ x = assetOrXE g.asset then g.balance else 0

theorem genesis_book (c : Ctx) (kind : StoreKind) : FirstBook c.node.genesis
    ((State.empty kind).committed (genesisRequest c kind)).book := by
  rw [committed_book]
  refine ⟨rfl, rfl, rfl, rfl, rfl, rfl, fun a x => ?_⟩
  change (Balances.put .empty c.node.genesis.account (assetOrXE c.node.genesis.asset)
    c.node.genesis.balance).bal a x = _
  by_cases ha : a = c.node.genesis.account
  · subst ha
    by_cases hx : x = assetOrXE c.node.genesis.asset
    · rw [hx, Balances.bal_put_self, if_pos ⟨rfl, rfl⟩]
    · rw [Balances.bal_put_of_asset_ne _ _ hx, if_neg (fun h => hx h.2)]
      rfl
  · rw [Balances.bal_put_of_ne _ ha, if_neg (fun h => ha h.1)]
    rfl

theorem GenesisSealed.fields {lib : Lib} {g : Block} (h : GenesisSealed lib D g) :
    g.type = .genesis ∧ g.previous = zeroPrev ∧ g.asset = assetXE ∧ g.hash.length = 64 := by
  obtain ⟨ht, data, -, -, hhash⟩ := h.encoded
  have hv := h.valid
  unfold validateGenesisBlock at hv
  simp only [bind_eq_ok, guardErr_eq_ok, mapError_eq_ok, not_not] at hv
  obtain ⟨_, -, _, hp, _, -, _, ha, -⟩ := hv
  refine ⟨ht, hp, ha, ?_⟩
  rw [hhash, length_hexEncode, lib.length_sha256]

theorem FirstBook.chain {g : Block} {k : Book} (h : FirstBook g k) (a : Str) :
    k.chain a = if a = g.account then [g] else [] := by
  unfold Book.chain
  rw [h.chains, Table.get_set]
  split_ifs <;> rfl

theorem FirstBook.mem_chain {g : Block} {k : Book} (h : FirstBook g k) {a : Str} {b : Block}
    (hb : b ∈ k.chain a) : b = g ∧ a = g.account := by
  rw [h.chain] at hb
  split_ifs at hb with ha
  · exact ⟨List.mem_singleton.mp hb, ha⟩
  · cases hb

theorem FirstBook.wf {lib : Lib} {g : Block} {k : Book} (hg : GenesisSealed lib D g)
    (h : FirstBook g k) : k.Wf := by
  obtain ⟨ht, hp, hasset, hlen⟩ := hg.fields
  have hsplit : ∀ a pre b post, k.chain a = pre ++ b :: post → pre = [] ∧ b = g := by
    intro a pre b post hc
    obtain ⟨rfl, rfl⟩ := h.mem_chain (a := a) (b := b) (by rw [hc]; simp)
    rw [h.chain, if_pos rfl] at hc
    cases pre with
    | nil => exact ⟨rfl, rfl⟩
    | cons x xs =>
      have := congrArg List.length hc
      simp at this
  have honly : ∀ b, k.On b → b = g := fun b hb => (h.mem_chain hb).1
  refine ⟨?_, ?_, ?_, ?_, ?_, ?_, ?_, ?_, ?_, ?_, ?_⟩
  · intro a
    rw [h.chains, Table.get_set]
    split_ifs
    · simp
    · exact (Option.some_ne_none _).symm
  · intro a pre b post hc
    obtain ⟨rfl, rfl⟩ := hsplit a pre b post hc
    exact hp
  · intro a b hb
    obtain ⟨rfl, rfl⟩ := h.mem_chain hb
    rfl
  · intro b hb
    obtain rfl := honly b hb
    rw [h.blocks, Table.get_set_self]
  · intro a
    rw [h.chain]
    split_ifs <;> simp
  · intro b hb name hn
    rw [honly b hb, ht] at hn
    cases hn
  · intro b hb hs
    rw [honly b hb, ht] at hs
    cases hs
  · intro x b hb
    rw [h.blocks, Table.get_set] at hb
    split_ifs at hb with hx
    · cases hb
      exact ⟨hx.symm, hx ▸ hlen⟩
    · cases hb
  · intro a x
    rw [h.balances, h.chain]
    have hone : assetBalanceOnChain [g] x = if assetOrXE g.asset = x then g.balance else 0 := rfl
    by_cases ha : a = g.account
    · rw [if_pos ha, hone]
      by_cases hx : assetOrXE g.asset = x
      · rw [if_pos hx, if_pos ⟨ha, hx.symm⟩]
      · rw [if_neg hx, if_neg (fun h => hx h.2.symm)]
    · rw [if_neg ha, if_neg (fun h => ha h.1), assetBalanceOnChain_nil]
  · intro x l hl
    rw [h.leases] at hl
    cases hl
  · intro x l hl
    rw [h.leases] at hl
    cases hl

theorem FirstBook.caches {lib : Lib} {g : Block} {k : Book} (hg : GenesisSealed lib D g)
    (h : FirstBook g k) : k.Caches := by
  obtain ⟨ht, -, -, -⟩ := hg.fields
  refine ⟨?_, ?_, ?_⟩
  · intro a
    have hno : ¬ ((g.type = .multisigOpen ∨ g.type = .multisigUpdate) ∧ g.msKeyset ≠ none) := by
      rw [ht]
      rintro ⟨hm | hm, -⟩ <;> cases hm
    have hone : lastKeyset [g] = none := if_neg hno
    rw [h.keysets, h.chain]
    split_ifs
    · exact hone.symm
    · rfl
  · intro a
    have hone : lastPubKey [g] = g.pubKey := by
      change (if g.pubKey ≠ [] then g.pubKey else []) = g.pubKey
      split_ifs with hk
      · rfl
      · exact (not_not.mp hk).symm
    rw [h.accountKeys, h.chain]
    by_cases ha : a = g.account
    · rw [if_pos ha, hone, ha]
      split_ifs
      · rfl
      · exact Table.get_set_self _ _ _
    · rw [if_neg ha, if_pos (show lastPubKey [] = [] from rfl)]
      split_ifs
      · rfl
      · exact (Table.get_set_of_ne _ ha _).trans rfl
  · intro a pre b post hc _
    obtain ⟨rfl, rfl⟩ := h.mem_chain (a := a) (b := b) (by rw [hc]; simp)
    rw [h.chain, if_pos rfl] at hc
    cases pre with
    | nil => rfl
    | cons x xs =>
      have := congrArg List.length hc
      simp at this

theorem FirstBook.sound {lib : Lib} {g : Block} {k : Book} (hg : GenesisSealed lib D g)
    (h : FirstBook g k) : k.Sound := by
  obtain ⟨ht, -, -, -⟩ := hg.fields
  have honly : ∀ b, k.On b → b.type = .genesis := by
    intro b hb
    rw [(h.mem_chain hb).1, ht]
  intro x
  refine .unused ?_ ?_ ?_ ?_
  · rintro b ⟨hb, -, hissue⟩
    rw [honly b hb] at hissue
    cases hissue
  · change k.pending.get x = none
    rw [h.pending]
    rfl
  · change k.leases.get x = none
    rw [h.leases]
    rfl
  · rintro b ⟨hb, -, hnames⟩
    rw [honly b hb] at hnames
    cases hnames

/-- **A new ledger keeps the invariants.** -/
theorem newLedger_inv (hg : GenesisSealed c.lib D c.node.genesis)
    (h : (newLedger c).run (.empty kind) = some (.ok (), s)) : s.Inv c.node D := by
  obtain rfl := newLedger_ok h
  have hbook := genesis_book c kind
  have hfr := committed_frame (State.empty kind) (genesisRequest c kind)
  refine ⟨committed_activeCascade _ _, hbook.wf hg, hbook.caches hg, (hbook.sound hg).sends,
    ?_, ?_, ?_, ?_, ?_⟩
  · intro x b hb
    have hb' := hb
    rw [show (((State.empty kind).committed (genesisRequest c kind)).mapStore
      (Store.setFinalHeight c.node.genesis.account 1)).store.blocks = _ from hbook.blocks,
      Table.get_set] at hb'
    split_ifs at hb'
    · cases hb'
      exact .inl rfl
    · cases hb'
  · rw [show (((State.empty kind).committed (genesisRequest c kind)).mapStore
      (Store.setFinalHeight c.node.genesis.account 1)).store.blocks = _ from hbook.blocks,
      Table.keys_set]
    exact Finset.insert_ne_empty _ _
  · intro a b hb _
    obtain ⟨rfl, rfl⟩ := hbook.mem_chain hb
    refine ⟨⟨[], ?_⟩, ?_⟩
    · exact (hbook.chain _).trans (if_pos rfl)
    · change 1 ≤ ((Table.set _ c.node.genesis.account 1).get c.node.genesis.account).getD 0
      rw [Table.get_set_self]
      rfl
  · intro x b hb
    have hst : ((State.empty kind).committed (genesisRequest c kind)).store.staged = .empty :=
      congrArg Frame.staged hfr
    change ((State.empty kind).committed (genesisRequest c kind)).store.staged.get x = some b at hb
    rw [hst] at hb
    cases hb
  · intro a p cf hcf
    have hst : ((State.empty kind).committed (genesisRequest c kind)).store.conflicts = .empty :=
      congrArg Frame.conflicts hfr
    change ((State.empty kind).committed (genesisRequest c kind)).store.conflicts.get (a, p) =
      some cf at hcf
    rw [hst] at hcf
    cases hcf

end Genesis

/-! ## Notes -/

/-- The store with the notes of another one. -/
def Store.withNotesOf (st₀ st : Store) : Store :=
  { st with
    conflicts := st₀.conflicts
    staged := st₀.staged
    votes := st₀.votes
    blockStatus := st₀.blockStatus
    finalHeight := st₀.finalHeight
    finalVotes := st₀.finalVotes }

/-- **What may change between two calls**: not the ledger, and final heights only upwards. -/
structure Noted (node : Node) (D : Set Str) (s s' : State) : Prop where
  mem : s'.mem = s.mem
  ledger : s.store.withNotesOf s'.store = s.store
  locks : s'.locks = s.locks
  final : ∀ a, s.store.finalHeightOf a ≤ s'.store.finalHeightOf a
  staged : ∀ h b, s'.store.staged.get h = some b → b.hash = h ∧ Filed node.lib D node.genesis b
  conflicts : ∀ a p cf, s'.store.conflicts.get (a, p) = some cf →
    cf.accountAddress = a ∧ cf.previousHash = p

section Notes

variable {node : Node} {D : Set Str} {s s' : State}

theorem Noted.book (h : Noted node D s s') : s'.book = s.book := by
  have hledger := congrArg (fun st => bookOf st s.mem) h.ledger
  unfold State.book
  rw [h.mem]
  exact hledger

theorem Noted.inv (h : Noted node D s s') (hi : s.Inv node D) : s'.Inv node D := by
  have hblocks : s'.store.blocks = s.store.blocks := congrArg Book.blocks h.book
  refine ⟨?_, ?_, ?_, ?_, ?_, ?_, ?_, h.staged, h.conflicts⟩
  · unfold State.quiet
    rw [h.mem]
    exact hi.quiet
  · rw [h.book]
    exact hi.wf
  · rw [h.book]
    exact hi.caches
  · rw [h.book]
    exact hi.sends
  · rw [hblocks]
    exact hi.filed
  · rw [hblocks]
    exact hi.opened
  · intro a b hb ht
    rw [h.book] at hb ⊢
    obtain ⟨hfirst, hfinal⟩ := hi.genesis a b hb ht
    exact ⟨hfirst, hfinal.trans (h.final a)⟩

theorem State.Inv.noted (hi : s.Inv node D) : Noted node D s s :=
  ⟨rfl, rfl, rfl, fun _ => le_rfl, hi.staged, hi.conflicts⟩

end Notes

/-! ## Calls -/

/-- What a node may be asked to do with a block. -/
inductive Op
  | addBlock (b : Block)
  | addSyncedBlock (b : Block)
  | swapBlock (account oldHash : Str) (newBlock : Block)
  | appendWinner (account : Str) (b : Block)

/-- The call of the ledger. -/
def Op.call (c : Ctx) : Op → M Unit
  | .addBlock b => addNewBlock c b
  | .addSyncedBlock b => Xe.addSyncedBlock c b
  | .swapBlock account oldHash b => Xe.swapBlock c account oldHash b.hash b
  | .appendWinner account b =>
    withLock c.tid (.account account) (dispatchValidateAndAdd c b true)

/-- The block of a call. -/
def Op.block (lib : Lib) : Op → Block
  | .addBlock b | .addSyncedBlock b => submitted lib b
  | .swapBlock _ _ b | .appendWinner _ b => b

/-- What the calls are given: any block may be added; the winner of an election has been staged
before. The preimages of all blocks belong to `D`. -/
def Op.Offered (lib : Lib) (D : Set Str) : Op → Prop
  | .addBlock b | .addSyncedBlock b =>
    ∀ data, preimage lib (submitted lib b) = .ok data → lib.networkID ++ data ∈ D
  | .swapBlock _ _ b | .appendWinner _ b => Sealed lib D b

/-- **The states of a node.** Each call meets the condition `ok`. -/
inductive Reachable (node : Node) (D : Set Str) (ok : State → Op → Prop) : State → Prop
  | init {c : Ctx} {kind : StoreKind} {s : State} (node_eq : c.node = node)
      (run : (newLedger c).run (.empty kind) = some (.ok (), s)) : Reachable node D ok s
  | call {c : Ctx} {s s' : State} {op : Op} {r : Except Fault Unit}
      (before : Reachable node D ok s) (node_eq : c.node = node) (offered : op.Offered c.lib D)
      (cond : ok s op) (run : (op.call c).run s = some (r, s')) (returns : r ≠ .error .panic) :
      Reachable node D ok s'
  | note {s s' : State} (before : Reachable node D ok s) (noted : Noted node D s s') :
      Reachable node D ok s'

/-- **What a call does.** -/
inductive Effect (c : Ctx) (D : Set Str) (s : State) (op : Op) : Except Fault Unit → State → Prop
  | noted {r : Except Fault Unit} {s' : State} (noted : Noted c.node D s s')
      (same : ∀ e, r = .error e → s' = s) : Effect c D s op r s'
  | added {r : Except Fault Unit} {s' : State} (sealed : Sealed c.lib D (op.block c.lib))
      (outcome : Outcome c.lib (fun _ => False) s (op.block c.lib) [] r s') : Effect c D s op r s'
  | swapped {account oldHash : Str} {b old : Block} {steps : List (Str × Block)}
      {r : Except Fault Unit} {s' : State} (eq : op = .swapBlock account oldHash b)
      (sealed : Sealed c.lib D b) (replaces : Replaces s account oldHash old steps)
      (outcome : Outcome c.lib (staleIn steps) s b (steps.map Prod.snd) r s') :
      Effect c D s op r s'

section Calls

variable {node : Node} {D : Set Str} {c : Ctx} {s s' : State}

theorem State.Inv.contested (hi : s.Inv node D) {b : Block} {cf : Conflict}
    (hb : Filed node.lib D node.genesis b) (ha : cf.accountAddress = b.account)
    (hp : cf.previousHash = b.previous) : Noted node D s (s.contested b cf) := by
  refine ⟨rfl, rfl, rfl, fun _ => le_rfl, ?_, ?_⟩
  · intro h x hx
    change (if b.hash ∈ cf.blockHashes then s.store.staged.set b.hash b else s.store.staged).get h =
      some x at hx
    split_ifs at hx
    · rw [Table.get_set] at hx
      split_ifs at hx with hh
      · cases hx
        exact ⟨hh.symm, hb⟩
      · exact hi.staged h x hx
    · exact hi.staged h x hx
  · intro a p x hx
    change (s.store.conflicts.set (b.account, b.previous) cf).get (a, p) = some x at hx
    rw [Table.get_set] at hx
    split_ifs at hx with hap
    · cases hx
      cases hap
      exact ⟨ha, hp⟩
    · exact hi.conflicts a p x hx

theorem State.Inv.setLock (hi : s.Inv node D) (l : Lock) (t : Option ℕ) :
    (s.setLock l t).Inv node D := by
  have hd := hi.dress (s.setLock l t).locks
  have hs : s.dress (s.setLock l t).locks none = s.setLock l t :=
    dress_quiet (s := s.setLock l t) hi.quiet
  rwa [hs] at hd

theorem Outcome.unlock {lib : Lib} {stale : Str → Prop} {olds : List Block} {b : Block}
    {r : Except Fault Unit} {l : Lock} {t : Option ℕ} (hq : s.quiet) (hl : s.locks l = none)
    (h : Outcome lib stale (s.setLock l t) b olds r s') :
    Outcome lib stale s b olds r (s'.setLock l none) := by
  have hlocks : s'.locks = (s.setLock l t).locks := congrArg Frame.locks h.frame.1
  have hactive : s'.mem.activeCascade = none := h.frame.2.trans hq
  have hd := h.dress (s := s.setLock l t) hq s.locks
  have hs : (s.setLock l t).dress s.locks none = s := dress_quiet hq
  have hs' : s'.dress s.locks none = s'.setLock l none := by
    have hback := congrArg State.locks (s.setLock_same hl t)
    have hset : (s'.setLock l none).locks = s.locks := by
      unfold State.setLock
      rw [hlocks]
      exact hback
    rw [← hset]
    exact dress_quiet (s := s'.setLock l none) hactive
  rw [hs, hs'] at hd
  exact hd

/-- **What a call does**, in a state that keeps the invariants. -/
theorem call_effect (hD : IdealHash c.lib D) (hg : GenesisSealed c.lib D c.node.genesis)
    (hi : s.Inv c.node D) {op : Op} (ho : op.Offered c.lib D) {r : Except Fault Unit}
    (hr : r ≠ .error .panic) (h : (op.call c).run s = some (r, s')) : Effect c D s op r s' := by
  have adds : ∀ (b : Block) (skip : Bool), op.block c.lib = submitted c.lib b →
      (∀ data, preimage c.lib (submitted c.lib b) = .ok data → c.lib.networkID ++ data ∈ D) →
      (addBlock c b skip).run s = some (r, s') → Effect c D s op r s' := by
    intro b skip hb hhash hrun
    have hlower : Lower (submitted c.lib b).account ∧ Lower (submitted c.lib b).previous :=
      submitted_lower c.lib b
    cases addBlock_cases hD hg hi hhash hrun with
    | refused e => exact .noted hi.noted fun _ _ => rfl
    | known x known => exact .noted hi.noted fun _ _ => rfl
    | staged sibling cf fresh verified asset type found account previous hashes =>
      have hsealed : Sealed c.lib D (submitted c.lib b) :=
        ⟨verified, hhash, hlower.1, hlower.2, asset⟩
      exact .noted (hi.contested (.inr ⟨type, hsealed⟩) account previous) fun _ he => nomatch he
    | handled fresh verified asset outcome =>
      rw [← hb] at outcome verified asset hlower hhash
      exact .added ⟨verified, hhash, hlower.1, hlower.2, asset⟩ outcome
  cases op with
  | addBlock b => exact adds b false rfl ho h
  | addSyncedBlock b => exact adds b true rfl ho h
  | swapBlock account oldHash b =>
    change (swapBlock c account oldHash b.hash b).run s = some (r, s') at h
    unfold swapBlock at h
    rcases (ReadOnly.still (each_done _) s).bind_cases h with ⟨e, rfl, rfl⟩ | ⟨_, -, h₁⟩
    · exact .noted hi.noted fun _ _ => rfl
    obtain ⟨hfree, s₁, hrun, rfl⟩ := run_withLock_eq_some.mp h₁
    rcases swap_outcome hD hg (hi.setLock _ _) ho (by simp [State.setLock]) hr hrun with
      ⟨e, rfl, rfl⟩ | ⟨old, steps, hrep, hout⟩
    · rw [s.setLock_same hfree]
      exact .noted hi.noted fun _ _ => rfl
    · exact .swapped rfl ho ⟨hrep.chain, hrep.hash, hrep.type, hrep.ready, hrep.hangs⟩
        (hout.unlock hi.quiet hfree)
  | appendWinner account b =>
    obtain ⟨hfree, s₁, hrun, rfl⟩ := run_withLock_eq_some.mp h
    have hout := dispatch_outcome hD hg (hi.setLock _ _) ho hrun
    exact .added ho (hout.unlock hi.quiet hfree)

theorem Effect.inv (hD : IdealHash c.lib D) (hg : GenesisSealed c.lib D c.node.genesis)
    (hi : s.Inv c.node D) {op : Op} {r : Except Fault Unit} (h : Effect c D s op r s') :
    s'.Inv c.node D := by
  cases h with
  | noted noted => exact noted.inv hi
  | added hb outcome => exact outcome.inv hD hg hi hb
  | swapped eq hb replaces outcome => exact outcome.inv hD hg hi hb

/-- **The invariants hold in every reachable state.** -/
theorem Reachable.inv (hD : IdealHash node.lib D) (hg : GenesisSealed node.lib D node.genesis)
    {ok : State → Op → Prop} (h : Reachable node D ok s) : s.Inv node D := by
  induction h with
  | init node_eq run =>
    subst node_eq
    exact newLedger_inv hg run
  | call before node_eq offered cond run returns ih =>
    subst node_eq
    exact (call_effect hD hg ih offered returns run).inv hD hg ih
  | note before noted ih => exact noted.inv ih

theorem Reachable.mono {ok ok' : State → Op → Prop} (h : Reachable node D ok s)
    (hok : ∀ s op, ok s op → ok' s op) : Reachable node D ok' s := by
  induction h with
  | init node_eq run => exact .init node_eq run
  | call before node_eq offered cond run returns ih =>
    exact .call ih node_eq offered (hok _ _ cond) run returns
  | note before noted ih => exact .note ih noted

end Calls

/-! ## Schedules -/

/-- Calls one after the other, each of which meets the condition and returns. -/
def runOps (ok : State → Op → Bool) : List (Ctx × Op) → State → Option State
  | [], s => some s
  | (c, op) :: rest, s =>
    if ok s op then
      match (op.call c).run s with
      | none => none
      | some (.error .panic, _) => none
      | some (.error (.err _), s') => runOps ok rest s'
      | some (.ok _, s') => runOps ok rest s'
    else none

/-- A new ledger and some calls. -/
def runNode (c : Ctx) (kind : StoreKind) (ok : State → Op → Bool) (ops : List (Ctx × Op)) :
    Option State :=
  match (newLedger c).run (.empty kind) with
  | some (.ok _, s) => runOps ok ops s
  | _ => none

section Schedules

variable {node : Node} {D : Set Str} {ok : State → Op → Bool} {ops : List (Ctx × Op)}

theorem Reachable.runOps {s s' : State} (h : Reachable node D (fun s op => ok s op = true) s)
    (hops : ∀ x ∈ ops, x.1.node = node ∧ x.2.Offered node.lib D)
    (hrun : Xe.runOps ok ops s = some s') : Reachable node D (fun s op => ok s op = true) s' := by
  induction ops generalizing s with
  | nil =>
    cases hrun
    exact h
  | cons x rest ih =>
    obtain ⟨c, op⟩ := x
    obtain ⟨hnode, hoffered⟩ := hops (c, op) List.mem_cons_self
    have hoff : op.Offered c.lib D := by
      rw [Ctx.lib, hnode]
      exact hoffered
    have hrest : ∀ x ∈ rest, x.1.node = node ∧ x.2.Offered node.lib D :=
      fun x hx => hops x (List.mem_cons_of_mem _ hx)
    unfold Xe.runOps at hrun
    split_ifs at hrun with hok
    split at hrun
    · cases hrun
    · cases hrun
    · next heq => exact ih (h.call hnode hoff hok heq (by simp)) hrest hrun
    · next heq => exact ih (h.call hnode hoff hok heq (by simp)) hrest hrun

theorem exists_reachable (c : Ctx) (kind : StoreKind) (ops : List (Ctx × Op)) {P : State → Prop}
    [DecidablePred P] (hc : c.node = node) (hops : ∀ x ∈ ops, x.1.node = node ∧ x.2.Offered node.lib D)
    (hrun : (runNode c kind ok ops).any (fun s => decide (P s)) = true) :
    ∃ s, Reachable node D (fun s op => ok s op = true) s ∧ P s := by
  cases hs : runNode c kind ok ops with
  | none => simp [hs] at hrun
  | some s =>
    rw [hs, Option.any_some, decide_eq_true_eq] at hrun
    refine ⟨s, ?_, hrun⟩
    unfold runNode at hs
    split at hs
    · next hnew => exact (Reachable.init hc hnew).runOps hops hs
    · cases hs

end Schedules

/-! ## Invariants of whole runs -/

/-- What each step of the ledger keeps: a block that meets `F` comes off, a block goes on, a note is
taken.  No block ceases to meet `F` when others come off. -/
structure KeptIf (node : Node) (D : Set Str) (F : Book → Block → Prop) (P : State → Prop) :
    Prop where
  undo : ∀ {s : State} {b : Block} {u : BlockUndo × MemUndo}, s.Inv node D → P s → UndoOf s b u →
    (b.type = .send → s.book.pending.get b.hash ≠ none) → F s.book b → P (s.undone u)
  commit : ∀ {s : State} {b : Block} {p : Prepared} {stale : Str → Prop}, s.Inv node D → P s →
    Commits node.lib stale s b p → Sealed node.lib D b → b.type ≠ .genesis → P (s.committed p)
  note : ∀ {s s' : State}, s.Inv node D → P s → Noted node D s s' → P s'
  anti : ∀ {k k' : Book} {b : Block}, (∀ x, k'.On x → k.On x) → F k b → F k' b := by intros; trivial

/-- Every call keeps `P`. -/
abbrev Kept (node : Node) (D : Set Str) (P : State → Prop) : Prop :=
  KeptIf node D (fun _ _ => True) P

/-- A cascade that starts from a block that meets `G` takes off only blocks that meet `F`. -/
def Cascades (G F : Book → Block → Prop) : Prop :=
  ∀ {k : Book} {old x : Block}, G k old → k.Hangs old x → x = old ∨ cascadable x.type = true → F k x

/-- The accept that a cancel would unwind meets `F`. -/
def Unwinding (F : Book → Block → Prop) (s : State) (b : Block) : Prop :=
  b.type = .leaseCancel → ∀ a rest, s.book.chain a.account = rest ++ [a] → a.type = .leaseAccept →
    a.source = b.source → s.store.finalHeightOf a.account < (s.book.chain a.account).length →
      F s.book a

/-- So does the block that a swap would replace. -/
def Op.Detaches (F : Book → Block → Prop) (lib : Lib) (s : State) (op : Op) : Prop :=
  Unwinding F s (op.block lib) ∧ ∀ account oldHash b, op = .swapBlock account oldHash b →
    ∀ before old after, s.book.chain account = before ++ old :: after →
      s.store.finalHeightOf account ≤ before.length → old.hash = oldHash → F s.book old

section Kept

variable {node : Node} {D : Set Str} {F G : Book → Block → Prop} {P : State → Prop} {s s' : State}
  {b : Block}

theorem Forced.on (hi : s.Inv node D) (h : Forced s b s') (x : Block) (hx : s'.book.On x) :
    s.book.On x := by
  cases h with
  | same => exact hx
  | accept a u type acceptType source other notFinal undo =>
    exact (((undo.removed hi.wf).on_iff hi.wf x).mp hx).1

theorem Forced.kept (hP : KeptIf node D F P) (hi : s.Inv node D) (hs : P s) (hF : Unwinding F s b)
    (h : Forced s b s') : P s' := by
  cases h with
  | same => exact hs
  | accept a u type acceptType source other notFinal undo =>
    obtain ⟨rest, hrest, -⟩ := (undo.removed hi.wf).chain
    refine hP.undo hi hs undo (fun hsend => ?_) (hF type a rest hrest acceptType source notFinal)
    rw [acceptType] at hsend
    cases hsend

theorem Undone.kept (hg : GenesisSealed node.lib D node.genesis) (hP : KeptIf node D F P)
    (hi : s.Inv node D) (hs : P s) {bs : List Block} (h : Undone s bs s')
    (hr : ReceiversFirst s.book bs) (hF : ∀ x ∈ bs, F s.book x) : P s' := by
  induction h with
  | nil => exact hs
  | @snoc bs s₁ x u before undo ih =>
    have hi₁ := before.inv hg hi hr.init
    have hon := ((before.unwinds hi.wf).wf hi.wf).2
    have hFs := List.forall_mem_append.mp hF
    refine hP.undo hi₁ (ih hr.init hFs.1) undo (fun ht => ?_)
      (hP.anti (fun y hy => ((hon y).mp hy).1) (hFs.2 x List.mem_cons_self))
    exact hr.pending hi₁.wf hi₁.sends (undo.removed hi₁.wf).on hon ht

theorem Outcome.kept (hg : GenesisSealed node.lib D node.genesis) (hP : KeptIf node D F P)
    (hi : s.Inv node D) (hs : P s) (hb : Sealed node.lib D b) {stale : Str → Prop}
    {olds : List Block} {r : Except Fault Unit} (h : Outcome node.lib stale s b olds r s')
    (hF : Unwinding F s b) (hFs : ∀ x ∈ olds, F s.book x) : P s' := by
  cases h with
  | refused forced => exact forced.kept hP hi hs hF
  | written forced undone receivers commits type authorised =>
    have hi₁ := forced.inv hg hi
    have hs₁ := forced.kept hP hi hs hF
    refine hP.commit (undone.inv hg hi₁ receivers) ?_ commits hb type
    exact undone.kept hg hP hi₁ hs₁ receivers fun x hx => hP.anti (forced.on hi) (hFs x hx)

theorem Replaces.all (hG : Cascades G F) {account oldHash : Str} {old : Block}
    {steps : List (Str × Block)} (h : Replaces s account oldHash old steps) (hold : G s.book old) :
    ∀ x ∈ steps.map Prod.snd, F s.book x := by
  intro x hx
  obtain ⟨⟨a, y⟩, hy, rfl⟩ := List.mem_map.mp hx
  refine hG hold (h.hangs _ hy) ?_
  obtain ⟨init, rfl⟩ := h.ready.last
  rcases List.mem_append.mp hy with hy | hy
  · exact .inr (h.ready.ok.init.2 a y hy)
  · exact .inl (Prod.ext_iff.mp (List.mem_singleton.mp hy)).2

/-- **What each step keeps holds in every state that is reached by calls whose undoing starts from
blocks that meet `G`**, if it holds at the start. -/
theorem Reachable.keptIf (hD : IdealHash node.lib D) (hg : GenesisSealed node.lib D node.genesis)
    (hP : KeptIf node D F P) (hG : Cascades G F)
    (init : ∀ (c : Ctx) (kind : StoreKind) (s : State), c.node = node →
      (newLedger c).run (.empty kind) = some (.ok (), s) → P s)
    {ok : State → Op → Prop} (hok : ∀ s op, ok s op → op.Detaches G node.lib s)
    (h : Reachable node D ok s) : P s := by
  induction h with
  | init node_eq run => exact init _ _ _ node_eq run
  | @call c s s' op r before node_eq offered cond run returns ih =>
    subst node_eq
    have hi := before.inv hD hg
    obtain ⟨haccept, hswap⟩ := hok s op cond
    have hcancel : Unwinding F s (op.block c.lib) := fun ht a rest hrest hat hsrc hf =>
      hG (haccept ht a rest hrest hat hsrc hf) .self (.inl rfl)
    cases call_effect hD hg hi offered returns run with
    | noted noted => exact hP.note hi ih noted
    | added hb outcome => exact outcome.kept hg hP hi ih hb hcancel fun x hx => nomatch hx
    | swapped eq hb replaces outcome =>
      subst eq
      obtain ⟨before, after, hchain, hfinal⟩ := replaces.chain
      exact outcome.kept hg hP hi ih hb hcancel
        (replaces.all hG (hswap _ _ _ rfl before _ after hchain hfinal replaces.hash))
  | note before noted ih => exact hP.note (before.inv hD hg) ih noted

/-- **What each step keeps holds in every reachable state**, if it holds at the start. -/
theorem Reachable.kept (hD : IdealHash node.lib D) (hg : GenesisSealed node.lib D node.genesis)
    (hP : Kept node D P)
    (init : ∀ (c : Ctx) (kind : StoreKind) (s : State), c.node = node →
      (newLedger c).run (.empty kind) = some (.ok (), s) → P s)
    {ok : State → Op → Prop} (h : Reachable node D ok s) : P s :=
  h.keptIf hD hg hP (G := fun _ _ => True) (fun _ _ _ => trivial) init fun _ _ _ =>
    ⟨fun _ _ _ _ _ _ _ => trivial, fun _ _ _ _ _ _ _ _ _ _ => trivial⟩

end Kept

end Xe
