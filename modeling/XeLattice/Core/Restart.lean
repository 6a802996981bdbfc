import XeLattice.Core.Ledger

/-!
# Restarting

What `NewLedger` rebuilds from the persisted tables when it finds a ledger in its store:
`rebuildDelegation`, `rebuildAssetBalances`, `rebuildKeysets` and `rebuildAccountKeys` of
`core/ledger.go`.  Each goes over the accounts that a table lists, in an order that the store
chooses; the order is an argument here.
-/

set_option autoImplicit false

namespace Xe

/-- The accounts, each of them once, that a table lists. -/
def Lists {V : Type} (accounts : List Str) (t : Table Str V) : Prop :=
  accounts.Nodup ∧ ∀ a, a ∈ accounts ↔ t.get a ≠ none

theorem lists_of_keys {V : Type} {accounts : List Str} {t : Table Str V} (hnodup : accounts.Nodup)
    (h : t.keys = accounts.toFinset) : Lists accounts t := by
  refine ⟨hnodup, fun a => ?_⟩
  rw [← List.mem_toFinset, ← h, ne_eq, ← Table.notMem_keys, not_not]

namespace Store

variable (st : Store)

/-- `GetChain`. -/
def getChain (account : Str) : List Block :=
  (st.chains.get account).getD []

/-- One step of `rebuildDelegation`. -/
def rebuildDelegationOf (m : Memory) (account : Str) : Memory :=
  match st.delegations.get account with
  | none => m
  | some representative =>
    if representative = [] then m
    else
      let m := m.setRep account representative
      match st.chains.get account with
      | none => m
      | some chain => m.addWeight representative (assetBalanceOnChain chain assetXE)

/-- `rebuildDelegation`, over the accounts of the stored delegations. -/
def rebuildDelegation (accounts : List Str) (m : Memory) : Memory :=
  accounts.foldl st.rebuildDelegationOf m

/-- The balances that a chain amounts to, as `rebuildAssetBalances` collects them. -/
def balancesOnChain (chain : AccountChain) : Table Str UInt64 :=
  chain.foldl (fun bals b =>
    let bals := bals.set (assetOrXE b.asset) b.balance
    if b.type = .leaseSettle then
      match st.leases.get b.source with
      | none => bals
      | some lease => bals.set assetXUSD ((bals.get assetXUSD).getD 0 + lease.stake)
    else bals) .empty

/-- `rebuildAssetBalances`, over the accounts of the stored frontiers. -/
def rebuildAssetBalances (accounts : List Str) (m : Memory) : Memory :=
  accounts.foldl (fun m account =>
    match st.chains.get account with
    | none => m
    | some chain => { m with
        assetBalances := m.assetBalances.set account (st.balancesOnChain chain) }) m

/-- `rebuildKeysets`. -/
def rebuildKeysets (accounts : List Str) (m : Memory) : Memory :=
  accounts.foldl (fun m account =>
    match st.chains.get account with
    | none => m
    | some chain => chain.foldl (fun m b =>
        if b.type = .multisigOpen ∨ b.type = .multisigUpdate then
          match b.msKeyset with
          | none => m
          | some ks => m.setKeyset account ks
        else m) m) m

/-- `rebuildAccountKeys`. -/
def rebuildAccountKeys (accounts : List Str) (m : Memory) : Memory :=
  accounts.foldl (fun m account =>
    match st.chains.get account with
    | none => m
    | some chain => chain.foldl (fun m b =>
        if b.pubKey ≠ [] then m.setAccountKey account b.pubKey else m) m) m

end Store

end Xe
