import XeLattice.Run.Dispatch

/-!
# Well-formed books

The shape of a book that no block type disturbs: a chain is a linked list of its account's blocks,
every block on a chain is known under its hash, a balance is what the last block of its asset says,
and no lease is staked.  Over it, the two ways a book moves: a block is appended, or the last block
of a chain is taken off.

* **`Appended.wf`**, **`Removed.wf`**: both keep a book well formed.
-/

set_option autoImplicit false

namespace Xe

/-! ## Linked chains -/

theorem concat_eq_cases {α : Type} {l pre post : List α} {a x : α}
    (h : l ++ [a] = pre ++ x :: post) :
    (pre = l ∧ x = a ∧ post = []) ∨ ∃ post', post = post' ++ [a] ∧ l = pre ++ x :: post' := by
  rcases List.eq_nil_or_concat post with rfl | ⟨post', y, rfl⟩
  · obtain ⟨hl, hx⟩ := List.append_inj' h rfl
    exact .inl ⟨hl.symm, (List.singleton_inj.mp hx).symm, rfl⟩
  · have h' : l ++ [a] = (pre ++ x :: post') ++ [y] := by
      rw [h]
      simp
    obtain ⟨hl, hy⟩ := List.append_inj' h' rfl
    obtain rfl := List.singleton_inj.mp hy
    exact .inr ⟨post', by simp, hl⟩

@[simp] theorem frontier_nil : frontier [] = zeroPrev := rfl

@[simp] theorem frontier_concat (ch : AccountChain) (b : Block) : frontier (ch ++ [b]) = b.hash := by
  simp [frontier]

/-- Each block names the one before it. -/
def Linked (ch : AccountChain) : Prop :=
  ∀ pre b post, ch = pre ++ b :: post → b.previous = frontier pre

theorem Linked.concat {ch : AccountChain} {b : Block} (h : Linked ch)
    (hb : b.previous = frontier ch) : Linked (ch ++ [b]) := by
  intro pre x post he
  rcases concat_eq_cases he with ⟨rfl, rfl, -⟩ | ⟨post', -, hch⟩
  · exact hb
  · exact h pre x post' hch

theorem Linked.of_concat {ch : AccountChain} {b : Block} (h : Linked (ch ++ [b])) :
    Linked ch ∧ b.previous = frontier ch := by
  refine ⟨fun pre x post he => ?_, h ch b [] rfl⟩
  exact h pre x (post ++ [b]) (by rw [he]; simp)

/-! ## Balances on a chain -/

@[simp] theorem assetBalanceOnChain_nil (x : Str) : assetBalanceOnChain [] x = 0 := rfl

theorem assetBalanceOnChain_concat (ch : AccountChain) (b : Block) (x : Str) :
    assetBalanceOnChain (ch ++ [b]) x =
      if assetOrXE b.asset = x then b.balance else assetBalanceOnChain ch x := by
  unfold assetBalanceOnChain
  rw [List.foldl_append]
  rfl

/-- No lease has a stake. -/
def Unstaked (leases : Table Str Lease) : Prop :=
  ∀ h l, leases.get h = some l → l.stake = 0

theorem Unstaked.stakeOf {leases : Table Str Lease} (h : Unstaked leases) (b : Block) :
    stakeOf leases b = 0 := by
  unfold Xe.stakeOf
  split_ifs
  · cases hl : leases.get b.source with
    | none => rfl
    | some l => exact h _ _ hl
  · rfl

theorem Unstaked.xusdBalanceOnChain {leases : Table Str Lease} (h : Unstaked leases)
    (ch : AccountChain) : xusdBalanceOnChain leases ch = assetBalanceOnChain ch assetXUSD := by
  unfold Xe.xusdBalanceOnChain assetBalanceOnChain
  congr 1
  funext bal b
  rw [h.stakeOf, UInt64.add_zero]

/-! ## Books -/

namespace Book

/-- The blocks of an account, oldest first. -/
def chain (k : Book) (account : Str) : AccountChain :=
  (k.chains.get account).getD []

/-- The block stands on the chain of its account. -/
def On (k : Book) (b : Block) : Prop :=
  b ∈ k.chain b.account

/-- **A well-formed book.** -/
structure Wf (k : Book) : Prop where
  nonempty : ∀ a, k.chains.get a ≠ some []
  linked : ∀ a, Linked (k.chain a)
  owner : ∀ a, ∀ b ∈ k.chain a, b.account = a
  known : ∀ b, k.On b → k.blocks.get b.hash = some b
  nodup : ∀ a, (k.chain a).Nodup
  typed : ∀ b, k.On b → ∀ name, b.type ≠ .other name
  addressed : ∀ b, k.On b → b.type = .send → b.destination ≠ []
  hash : ∀ h b, k.blocks.get h = some b → b.hash = h ∧ h.length = 64
  balance : ∀ a x, k.balances.bal a x = assetBalanceOnChain (k.chain a) x
  unstaked : Unstaked k.leases
  leaseHash : ∀ h l, k.leases.get h = some l → l.leaseHash = h ∧ h.length = 64

variable {k : Book}

theorem On.of_mem (hk : k.Wf) {a : Str} {b : Block} (hb : b ∈ k.chain a) : k.On b := by
  unfold On
  rw [hk.owner a b hb]
  exact hb

theorem On.eq_of_hash (hk : k.Wf) {b b' : Block} (hb : k.On b) (hb' : k.On b')
    (h : b.hash = b'.hash) : b = b' := by
  have h₁ := hk.known b hb
  have h₂ := hk.known b' hb'
  rw [h, h₂] at h₁
  exact (Option.some.inj h₁).symm

theorem chain_of_get {a : Str} {ch : AccountChain} (h : k.chains.get a = some ch) :
    k.chain a = ch := by
  rw [chain, h]
  rfl

theorem chain_of_none {a : Str} (h : k.chains.get a = none) : k.chain a = [] := by
  rw [chain, h]
  rfl

theorem get_of_chain {a : Str} (h : k.chain a ≠ []) : k.chains.get a = some (k.chain a) := by
  unfold chain at h ⊢
  cases hc : k.chains.get a with
  | none => simp [hc] at h
  | some ch => rfl

theorem Wf.no_sibling (hk : k.Wf) {a p : Str} (hp : p = frontier (k.chain a)) :
    ∀ x ∈ k.chain a, x.previous ≠ p := by
  intro x hx hxp
  obtain ⟨pre, post, hc⟩ := List.append_of_mem hx
  have hfront : frontier pre = frontier (k.chain a) := by
    rw [← hk.linked a pre x post hc, hxp, hp]
  obtain ⟨rest, last, hlast⟩ : ∃ rest last, k.chain a = rest ++ [last] := by
    rcases List.eq_nil_or_concat (k.chain a) with hnil | ⟨rest, last, h⟩
    · rw [hnil] at hx
      cases hx
    · exact ⟨rest, last, by rw [h, List.concat_eq_append]⟩
  have hlon : k.On last := On.of_mem hk (a := a) (by rw [hlast]; simp)
  rw [hlast, frontier_concat] at hfront
  rcases List.eq_nil_or_concat pre with rfl | ⟨pre', y, rfl⟩
  · -- a hash is longer than the name of the position before the first block
    have hlen := (hk.hash _ _ (hk.known last hlon)).2
    rw [← hfront] at hlen
    cases hlen
  · rw [List.concat_eq_append] at hc hfront
    rw [frontier_concat] at hfront
    have hyon : k.On y := On.of_mem hk (a := a) (by rw [hc]; simp)
    obtain rfl := hyon.eq_of_hash hk hlon hfront
    -- the last block would stand on the chain twice
    have hin : y ∈ x :: post := by
      have hsuf : [y] <:+ pre' ++ [y] ++ x :: post := by
        rw [← hc, hlast]
        exact List.suffix_append _ _
      obtain ⟨t, ht⟩ := List.suffix_of_suffix_length_le hsuf (List.suffix_append _ (x :: post))
        (by simp)
      rw [← ht]
      simp
    have hnodup := hk.nodup a
    rw [hc] at hnodup
    exact (List.nodup_append.mp hnodup).2.2 y (by simp) y hin rfl

end Book

/-! ## Appending a block -/

/-- The balance an account has before a block of some asset. -/
abbrev Book.bal (k : Book) (account asset : Str) : UInt64 :=
  k.balances.bal account asset

/-- What is known of a block that may be appended, with the pending entries and the leases it
leaves.  Of an entry that is `stale` a promotion shows an amount that is not the entry's own. -/
inductive Entry (k : Book) (stale : Str → Prop) (b : Block) :
    Table Str PendingSend → Table Str Lease → Prop
  | send (type : b.type = .send) (amount : b.amount ≠ 0) (enough : b.amount ≤ k.bal b.account b.asset)
      (balance : b.balance = k.bal b.account b.asset - b.amount) (destination : b.destination ≠ []) :
      Entry k stale b
        (k.pending.set b.hash ⟨b.hash, b.account, b.destination, b.amount, b.asset⟩) k.leases
  | burn (type : b.type = .burn) (asset : b.asset = assetXE)
      (enough : b.amount ≤ k.bal b.account b.asset)
      (balance : b.balance = k.bal b.account b.asset - b.amount) :
      Entry k stale b k.pending k.leases
  | receive (ps : PendingSend) (paid : UInt64) (type : b.type = .receive)
      (pending : k.pending.get b.source = some ps) (destination : ps.destination = b.account)
      (notLive : isLive (k.leases.get b.source) = false) (asset : b.asset = assetOrXE ps.asset)
      (exact_ : ¬ stale b.source → paid = ps.amount)
      (noOverflow : ¬ k.bal b.account b.asset + paid < k.bal b.account b.asset)
      (balance : b.balance = k.bal b.account b.asset + paid) :
      Entry k stale b (k.pending.del b.source) k.leases
  | mint (type : b.type = .mint) (asset : b.asset = assetXUSD)
      (noOverflow : ¬ k.bal b.account b.asset + b.amount < k.bal b.account b.asset)
      (balance : b.balance = k.bal b.account b.asset + b.amount) :
      Entry k stale b k.pending k.leases
  | multisigOpen (type : b.type = .multisigOpen) (unopened : k.chain b.account = [])
      (balance : b.balance = 0) : Entry k stale b k.pending k.leases
  | multisigUpdate (type : b.type = .multisigUpdate)
      (balance : b.balance = k.bal b.account b.asset) : Entry k stale b k.pending k.leases
  | lease (type : b.type = .lease) (asset : b.asset = assetXUSD)
      (enough : b.amount ≤ k.bal b.account assetXUSD)
      (balance : b.balance = k.bal b.account assetXUSD - b.amount) :
      Entry k stale b
        (k.pending.set b.hash ⟨b.hash, b.account, b.destination, b.amount, assetXUSD⟩)
        (k.leases.set b.hash (leaseRecord b))
  | leaseAccept (lb : Block) (l : Lease) (startTime : Int64) (type : b.type = .leaseAccept)
      (asset : b.asset = assetXUSD) (block : k.blocks.get b.source = some lb)
      (blockType : lb.type = .lease) (provider : lb.destination = b.account)
      (record : k.leases.get b.source = some l) (state : l.state = .created) (stake : b.amount = 0)
      (balance : b.balance = k.bal b.account assetXUSD) :
      Entry k stale b k.pending (k.leases.set b.source (acceptedRecord b lb startTime))
  | leaseCancel (lb : Block) (l : Lease) (ps : PendingSend) (type : b.type = .leaseCancel)
      (asset : b.asset = assetXUSD) (block : k.blocks.get b.source = some lb)
      (blockType : lb.type = .lease) (consumer : lb.account = b.account)
      (record : k.leases.get b.source = some l) (state : l.state = .created)
      (pending : k.pending.get b.source = some ps)
      (balance : b.balance = k.bal b.account assetXUSD + lb.amount) :
      Entry k stale b (k.pending.del b.source)
        (k.leases.set b.source { l with state := .cancelled })
  | leaseForceSettle (lb : Block) (l : Lease) (ps : PendingSend) (paid : UInt64)
      (type : b.type = .leaseForceSettle) (asset : b.asset = assetXUSD)
      (block : k.blocks.get b.source = some lb) (blockType : lb.type = .lease)
      (consumer : lb.account = b.account) (record : k.leases.get b.source = some l)
      (state : l.state = .accepted) (pending : k.pending.get b.source = some ps)
      (exact_ : ¬ stale b.source → paid = ps.amount)
      (noOverflow : ¬ k.bal b.account assetXUSD + paid < k.bal b.account assetXUSD)
      (balance : b.balance = k.bal b.account assetXUSD + paid) :
      Entry k stale b (k.pending.del b.source)
        (k.leases.set b.source { l with settled := true, state := .unfulfilled })
  | leaseSettle (l : Lease) (ps : PendingSend) (type : b.type = .leaseSettle)
      (asset : b.asset = assetXE) (record : k.leases.get b.source = some l)
      (state : l.state = .accepted) (provider : l.provider = b.account)
      (pending : k.pending.get b.source = some ps)
      (noOverflow : ¬ k.bal b.account assetXE + b.amount < k.bal b.account assetXE)
      (balance : b.balance = k.bal b.account assetXE + b.amount) :
      Entry k stale b (k.pending.del b.source)
        (k.leases.set b.source { l with settled := true, state := .settled })
  | leaseRenew (l : Lease) (ps : PendingSend) (renewTime : Int64) (type : b.type = .leaseRenew)
      (asset : b.asset = assetXUSD) (record : k.leases.get b.source = some l)
      (state : l.state = .accepted) (consumer : l.consumer = b.account)
      (pending : k.pending.get b.source = some ps)
      (enough : b.amount ≤ k.bal b.account assetXUSD)
      (balance : b.balance = k.bal b.account assetXUSD - b.amount) :
      Entry k stale b (k.pending.set b.source { ps with amount := ps.amount + b.amount })
        (k.leases.set b.source { l with renewals := l.renewals ++ [renewSegment b renewTime] })

/-- The record is unstaked and filed under its own hash. -/
def Lease.Filed (x : Str) (l : Lease) : Prop :=
  l.stake = 0 ∧ l.leaseHash = x ∧ x.length = 64

theorem Book.Wf.filed {k : Book} (hk : k.Wf) {x : Str} {l : Lease}
    (hl : k.leases.get x = some l) : Lease.Filed x l :=
  ⟨hk.unstaked x l hl, hk.leaseHash x l hl⟩

theorem Book.Wf.filed_set {k : Book} (hk : k.Wf) {x y : Str} {l l' : Lease}
    (hl : (k.leases.set y l').get x = some l) (h' : Lease.Filed y l') : Lease.Filed x l := by
  rw [Table.get_set] at hl
  split_ifs at hl with hx
  · cases hl
    rw [hx]
    exact h'
  · exact hk.filed hl

/-- **A block is appended** to the chain of its account. -/
structure Appended (stale : Str → Prop) (k : Book) (b : Block) (k' : Book) : Prop where
  length : b.hash.length = 64
  fresh : ∀ x, k.On x → x.hash ≠ b.hash
  asset : isValidAsset b.asset = true
  previous : b.previous = frontier (k.chain b.account)
  blocks : k'.blocks = k.blocks.set b.hash b
  chains : k'.chains = k.chains.set b.account (k.chain b.account ++ [b])
  balances : ∀ a x, k'.balances.bal a x =
    if a = b.account ∧ x = assetOrXE b.asset then b.balance else k.balances.bal a x
  entry : Entry k stale b k'.pending k'.leases

namespace Appended

variable {stale : Str → Prop} {k k' : Book} {b : Block}

theorem chain (h : Appended stale k b k') (a : Str) :
    k'.chain a = if a = b.account then k.chain a ++ [b] else k.chain a := by
  unfold Book.chain
  rw [h.chains, Table.get_set]
  split_ifs with ha
  · rw [ha]
    rfl
  · rfl

theorem on_iff (h : Appended stale k b k') (x : Block) : k'.On x ↔ k.On x ∨ x = b := by
  unfold Book.On
  rw [h.chain]
  split_ifs with ha
  · rw [List.mem_append, List.mem_singleton]
  · refine ⟨Or.inl, ?_⟩
    rintro (hx | rfl)
    · exact hx
    · exact absurd rfl ha

theorem not_on (h : Appended stale k b k') : ¬ k.On b :=
  fun hb => h.fresh b hb rfl

theorem leases (hk : k.Wf) (h : Appended stale k b k') (x : Str) (l : Lease)
    (hl : k'.leases.get x = some l) : Lease.Filed x l := by
  have hent := h.entry
  generalize k'.pending = pending at hent
  generalize k'.leases = leases at hent hl
  cases hent with
  | send | burn | receive | mint | multisigOpen | multisigUpdate => exact hk.filed hl
  | lease => exact hk.filed_set hl ⟨rfl, rfl, h.length⟩
  | leaseAccept lb l' t _ _ _ _ _ record _ stake =>
    exact hk.filed_set hl ⟨stake, rfl, (hk.filed record).2.2⟩
  | leaseCancel lb l' ps _ _ _ _ _ record => exact hk.filed_set hl (hk.filed record :)
  | leaseForceSettle lb l' ps paid _ _ _ _ _ record => exact hk.filed_set hl (hk.filed record :)
  | leaseSettle l' ps _ _ record => exact hk.filed_set hl (hk.filed record :)
  | leaseRenew l' ps t _ _ record => exact hk.filed_set hl (hk.filed record :)

/-- **Appending keeps a book well formed.** -/
theorem wf (hk : k.Wf) (h : Appended stale k b k') : k'.Wf where
  nonempty a := by
    rw [h.chains, Table.get_set]
    split_ifs
    · simp
    · exact hk.nonempty a
  linked a := by
    rw [h.chain]
    split_ifs with ha
    · exact (hk.linked a).concat (ha ▸ h.previous)
    · exact hk.linked a
  owner a x hx := by
    rw [h.chain] at hx
    split_ifs at hx with ha
    · rcases List.mem_append.mp hx with hx | hx
      · exact hk.owner a x hx
      · rw [List.mem_singleton.mp hx, ha]
    · exact hk.owner a x hx
  known x hx := by
    rw [h.blocks]
    rcases (h.on_iff x).mp hx with hx | rfl
    · rw [Table.get_set_of_ne _ (h.fresh x hx)]
      exact hk.known x hx
    · exact Table.get_set_self _ _ _
  nodup a := by
    rw [h.chain]
    split_ifs with ha
    · refine (hk.nodup a).append (List.nodup_singleton b) ?_
      rw [List.disjoint_singleton]
      intro hb
      exact h.not_on (Book.On.of_mem hk hb)
    · exact hk.nodup a
  typed x hx name hn := by
    rcases (h.on_iff x).mp hx with hx | rfl
    · exact hk.typed x hx name hn
    · have hent := h.entry
      generalize k'.pending = pending at hent
      generalize k'.leases = leases at hent
      cases hent <;> simp_all
  addressed x hx ht := by
    rcases (h.on_iff x).mp hx with hx | rfl
    · exact hk.addressed x hx ht
    · have hent := h.entry
      generalize k'.pending = pending at hent
      generalize k'.leases = leases at hent
      cases hent <;> simp_all
  hash x y hy := by
    rw [h.blocks, Table.get_set] at hy
    split_ifs at hy with hx
    · cases hy
      exact ⟨hx.symm, hx ▸ h.length⟩
    · exact hk.hash x y hy
  balance a x := by
    rw [h.balances, h.chain]
    by_cases ha : a = b.account
    · rw [if_pos ha, assetBalanceOnChain_concat, hk.balance]
      by_cases hx : x = assetOrXE b.asset
      · rw [if_pos ⟨ha, hx⟩, if_pos hx.symm]
      · rw [if_neg (fun hc => hx hc.2), if_neg (fun hc => hx hc.symm)]
    · rw [if_neg ha, if_neg (fun hc => ha hc.1), hk.balance]
  unstaked x l hl := (h.leases hk x l hl).1
  leaseHash x l hl := (h.leases hk x l hl).2

end Appended

/-! ## Taking a block off -/

/-- What taking a block off a chain leaves of the pending entries and the leases. -/
inductive Exit (k : Book) (b : Block) : Table Str PendingSend → Table Str Lease → Prop
  | send (type : b.type = .send) : Exit k b (k.pending.del b.hash) k.leases
  | receive (type : b.type = .receive) : Exit k b
      (Table.putSome (·.sendHash)
        (((k.blocks.get b.source).filter (fun s => s.type = .send)).map pendingOfSend) k.pending)
      k.leases
  | lease (type : b.type = .lease) : Exit k b (k.pending.del b.hash) (k.leases.del b.hash)
  | leaseAccept (l : Lease) (type : b.type = .leaseAccept)
      (record : k.leases.get b.source = some l) :
      Exit k b k.pending (k.leases.set b.source (revertLease .created l))
  | leaseSettle (l : Lease) (type : b.type = .leaseSettle)
      (record : k.leases.get b.source = some l) :
      Exit k b (Table.putSome (·.sendHash) (escrowOf k.blocks k.leases b.source) k.pending)
        (k.leases.set b.source (revertLease .accepted l))
  | leaseForceSettle (l : Lease) (type : b.type = .leaseForceSettle)
      (record : k.leases.get b.source = some l) :
      Exit k b (Table.putSome (·.sendHash) (escrowOf k.blocks k.leases b.source) k.pending)
        (k.leases.set b.source (revertLease .accepted l))
  | leaseCancel (l : Lease) (type : b.type = .leaseCancel)
      (record : k.leases.get b.source = some l) :
      Exit k b (Table.putSome (·.sendHash) (escrowOf k.blocks k.leases b.source) k.pending)
        (k.leases.set b.source (revertLease .created l))
  | leaseRenew (l l' : Lease) (type : b.type = .leaseRenew)
      (record : k.leases.get b.source = some l) (popped : popRenewal l = some l') :
      Exit k b (k.pending.modify b.source (fun ps => { ps with amount := ps.amount - b.amount }))
        (k.leases.set b.source l')
  | rest (type : b.type = .multisigOpen ∨ b.type = .burn ∨ b.type = .mint) :
      Exit k b k.pending k.leases

/-- **The last block of a chain is taken off.** -/
structure Removed (k : Book) (b : Block) (k' : Book) : Prop where
  chain : ∃ rest, k.chain b.account = rest ++ [b] ∧
    k'.chains = if rest = [] then k.chains.del b.account else k.chains.set b.account rest
  blocks : k'.blocks = k.blocks
  balances : ∀ a x, k'.balances.bal a x = assetBalanceOnChain (k'.chain a) x
  exit : Exit k b k'.pending k'.leases

namespace Removed

variable {k k' : Book} {b : Block}

theorem chain_eq (h : Removed k b k') : ∃ rest, k.chain b.account = rest ++ [b] ∧
    ∀ a, k'.chain a = if a = b.account then rest else k.chain a := by
  obtain ⟨rest, hr, hc⟩ := h.chain
  refine ⟨rest, hr, fun a => ?_⟩
  unfold Book.chain
  rw [hc]
  by_cases hrest : rest = []
  · rw [if_pos hrest, Table.get_del]
    split_ifs
    · rw [hrest]
      rfl
    · rfl
  · rw [if_neg hrest, Table.get_set]
    split_ifs <;> rfl

theorem on (h : Removed k b k') : k.On b := by
  obtain ⟨rest, hr, -⟩ := h.chain
  rw [Book.On, hr]
  simp

theorem on_iff (hk : k.Wf) (h : Removed k b k') (x : Block) : k'.On x ↔ k.On x ∧ x ≠ b := by
  obtain ⟨rest, hr, hc⟩ := h.chain_eq
  have hnd : (rest ++ [b]).Nodup := hr ▸ hk.nodup b.account
  have hb : b ∉ rest := by
    rw [List.nodup_append] at hnd
    intro hb
    exact hnd.2.2 b hb b (List.mem_singleton.mpr rfl) rfl
  unfold Book.On
  rw [hc]
  by_cases ha : x.account = b.account
  · rw [if_pos ha, ha, hr, List.mem_append, List.mem_singleton]
    constructor
    · intro hx
      refine ⟨Or.inl hx, ?_⟩
      rintro rfl
      exact hb hx
    · rintro ⟨hx | hx, hne⟩
      · exact hx
      · exact absurd hx hne
  · rw [if_neg ha]
    refine ⟨fun hx => ⟨hx, ?_⟩, fun hx => hx.1⟩
    rintro rfl
    exact ha rfl

theorem leases (hk : k.Wf) (h : Removed k b k') (x : Str) (l : Lease)
    (hl : k'.leases.get x = some l) : Lease.Filed x l := by
  have hexit := h.exit
  generalize k'.pending = pending at hexit
  generalize k'.leases = leases at hexit hl
  cases hexit with
  | send | receive | rest => exact hk.filed hl
  | lease =>
    rw [Table.get_del] at hl
    split_ifs at hl
    exact hk.filed hl
  | leaseAccept l' _ record | leaseCancel l' _ record =>
    exact hk.filed_set hl ⟨rfl, (hk.filed record).2⟩
  | leaseSettle l' _ record | leaseForceSettle l' _ record =>
    exact hk.filed_set hl (hk.filed record :)
  | leaseRenew l' l'' _ record popped =>
    refine hk.filed_set hl ?_
    unfold popRenewal at popped
    split_ifs at popped
    cases popped
    exact (hk.filed record :)

/-- **Taking a block off keeps a book well formed.** -/
theorem wf (hk : k.Wf) (h : Removed k b k') : k'.Wf where
  nonempty a := by
    obtain ⟨rest, -, hc⟩ := h.chain
    rw [hc]
    by_cases hrest : rest = []
    · rw [if_pos hrest, Table.get_del]
      split_ifs
      · simp
      · exact hk.nonempty a
    · rw [if_neg hrest, Table.get_set]
      split_ifs
      · simpa using hrest
      · exact hk.nonempty a
  linked a := by
    obtain ⟨rest, hr, hc⟩ := h.chain_eq
    rw [hc]
    split_ifs
    · have hl := hk.linked b.account
      rw [hr] at hl
      exact hl.of_concat.1
    · exact hk.linked a
  owner a x hx := by
    obtain ⟨rest, hr, hc⟩ := h.chain_eq
    rw [hc] at hx
    split_ifs at hx with ha
    · exact ha ▸ hk.owner b.account x (by rw [hr]; exact List.mem_append_left _ hx)
    · exact hk.owner a x hx
  known x hx := by
    rw [h.blocks]
    exact hk.known x ((h.on_iff hk x).mp hx).1
  nodup a := by
    obtain ⟨rest, hr, hc⟩ := h.chain_eq
    rw [hc]
    split_ifs
    · have hnd := hk.nodup b.account
      rw [hr] at hnd
      exact hnd.of_append_left
    · exact hk.nodup a
  typed x hx := hk.typed x ((h.on_iff hk x).mp hx).1
  addressed x hx := hk.addressed x ((h.on_iff hk x).mp hx).1
  hash := h.blocks ▸ hk.hash
  balance := h.balances
  unstaked x l hl := (h.leases hk x l hl).1
  leaseHash x l hl := (h.leases hk x l hl).2

end Removed

end Xe
