import XeLattice.Run.Checks

/-!
# The book

The part of a node's state that the ledger's own rules are about: the known blocks, the chains, the
pending entries, the leases, and the ledger's memory of balances and keys.  Commits and undos act on
it by two functions, `Book.commit` and `Book.undo`, whichever store is underneath.

* **`Store.applyCommit_ok`**, **`Store.applyUndo_ok`**: what the transactions of both stores write.
-/

set_option autoImplicit false

namespace Xe

/-- Balances by account and asset. -/
abbrev Balances := Table Str (Table Str UInt64)

namespace Balances

/-- The balance of an account. -/
def bal (t : Balances) (account asset : Str) : UInt64 :=
  match t.get account with
  | none => 0
  | some bals => (bals.get asset).getD 0

/-- Sets a balance. -/
def put (t : Balances) (account asset : Str) (v : UInt64) : Balances :=
  t.set account (((t.get account).getD .empty).set asset v)

@[simp] theorem bal_put_self (t : Balances) (a x : Str) (v : UInt64) : (t.put a x v).bal a x = v := by
  simp [bal, put]

theorem bal_put_of_asset_ne (t : Balances) (a : Str) {x y : Str} (h : y ≠ x) (v : UInt64) :
    (t.put a x v).bal a y = t.bal a y := by
  simp only [bal, put, Table.get_set_self, Table.get_set_of_ne _ h]
  cases t.get a with
  | none => simp
  | some bals => simp

theorem bal_put_of_ne (t : Balances) {a a' : Str} (h : a' ≠ a) (x y : Str) (v : UInt64) :
    (t.put a x v).bal a' y = t.bal a' y := by
  simp [bal, put, Table.get_set_of_ne _ h]

theorem bal_del_self (t : Balances) (a x : Str) : Balances.bal (t.del a) a x = 0 := by
  simp [bal]

theorem bal_del_of_ne (t : Balances) {a a' : Str} (h : a' ≠ a) (x : Str) :
    Balances.bal (t.del a) a' x = t.bal a' x := by
  simp [bal, Table.get_del_of_ne _ h]

end Balances

/-- The ledger proper. -/
structure Book where
  blocks : Table Str Block
  chains : Table Str AccountChain
  pending : Table Str PendingSend
  leases : Table Str Lease
  balances : Balances
  keysets : Table Str Keyset
  accountKeys : Table Str Str

/-- The book of a store and a memory. -/
def bookOf (st : Store) (m : Memory) : Book where
  blocks := st.blocks
  chains := st.chains
  pending := st.pending
  leases := st.leases
  balances := m.assetBalances
  keysets := m.keysets
  accountKeys := m.accountKeys

/-- The book of a state. -/
def State.book (s : State) : Book :=
  bookOf s.store s.mem

/-! ## Requests as functions -/

/-- Runs `f` unless the key is empty. -/
def unlessEmpty {α : Type} (k : Str) (f : α → α) (a : α) : α :=
  if k = [] then a else f a

/-- Adds to a pending amount, modulo 2^64, if there is one. -/
def addAmount (id : Str) (d : UInt64) : Table Str PendingSend → Table Str PendingSend :=
  unlessEmpty id (fun t => t.modify id (fun ps => { ps with amount := ps.amount + d }))

/-- Deletes the entry under a key that is not empty. -/
def delNonempty {V : Type} (k : Str) : Table Str V → Table Str V :=
  unlessEmpty k (fun t => t.del k)

/-- Changes the entry under a key that is not empty. -/
def modifyNonempty {V : Type} (k : Str) (f : V → V) : Table Str V → Table Str V :=
  unlessEmpty k (fun t => t.modify k f)

/-- The pending entries after a commit. -/
def BlockCommit.pendingAfter (c : BlockCommit) (t : Table Str PendingSend) :
    Table Str PendingSend :=
  addAmount c.topUpPendingID c.topUpPendingAmount
    (delNonempty c.deletePendingID (Table.putSome (·.sendHash) c.addPending t))

/-- The leases after a commit. -/
def BlockCommit.leasesAfter (c : BlockCommit) (t : Table Str Lease) : Table Str Lease :=
  modifyNonempty c.unfulfillLeaseHash (fun l => { l with settled := true, state := .unfulfilled })
    (modifyNonempty c.cancelLeaseHash (fun l => { l with state := .cancelled })
      (modifyNonempty c.settleLeaseHash (fun l => { l with settled := true, state := .settled })
        (Table.putSome (·.leaseHash) c.putLease t)))

/-- The balances after a commit. -/
def BlockCommit.balancesAfter (c : BlockCommit) (t : Balances) : Balances :=
  let t : Balances := t.put c.account (assetOrXE c.block.asset) c.block.balance
  match c.assetCredit with
  | none => t
  | some d => t.put d.account d.asset (t.bal d.account d.asset + d.amount)

/-- What a commit does to the stored part of the book. -/
def Book.commitStore (c : BlockCommit) (k : Book) : Book :=
  { k with
    blocks := k.blocks.set c.block.hash c.block
    chains := k.chains.set c.account c.chain
    pending := c.pendingAfter k.pending
    leases := c.leasesAfter k.leases }

/-- What a commit does to the part of the book that is kept in memory. -/
def Book.commitMem (c : BlockCommit) (k : Book) : Book :=
  { k with
    balances := c.balancesAfter k.balances
    keysets := Table.putSome (fun _ => c.account) c.putKeyset k.keysets
    accountKeys := unlessEmpty c.putAccountKey (·.set c.account c.putAccountKey) k.accountKeys }

/-- The book after a commit. -/
def Book.commit (c : BlockCommit) (k : Book) : Book :=
  (k.commitStore c).commitMem c

/-- The balances after an undo. -/
def MemUndo.balancesAfter (m : MemUndo) (t : Balances) : Balances :=
  let t : Balances :=
    if m.deleteAccount then t.del m.account else t.put m.account m.asset m.parentBal
  match m.assetDebit with
  | none => t
  | some d =>
    match t.get d.account with
    | none => t
    | some _ => t.put d.account d.asset
        (if d.amount ≥ t.bal d.account d.asset then 0 else t.bal d.account d.asset - d.amount)

/-- The pending entries after an undo. -/
def BlockUndo.pendingAfter (u : BlockUndo) (t : Table Str PendingSend) : Table Str PendingSend :=
  Table.putSome (·.sendHash) u.addPending
    (delNonempty u.deletePendingID (addAmount u.reducePendingID (-u.reducePendingAmount) t))

/-- The leases after an undo. -/
def BlockUndo.leasesAfter (u : BlockUndo) (t : Table Str Lease) : Table Str Lease :=
  delNonempty u.deleteLeaseHash (Table.putSome (·.leaseHash) u.restoreLease t)

/-- The chains after an undo. -/
def BlockUndo.chainsAfter (u : BlockUndo) (t : Table Str AccountChain) : Table Str AccountChain :=
  if u.deleteAccount then t.del u.account else t.set u.account u.chain

/-- What an undo does to the stored part of the book. -/
def Book.undoStore (u : BlockUndo) (k : Book) : Book :=
  { k with
    chains := u.chainsAfter k.chains
    pending := u.pendingAfter k.pending
    leases := u.leasesAfter k.leases }

/-- What an undo does to the part of the book that is kept in memory. -/
def Book.undoMem (m : MemUndo) (k : Book) : Book :=
  { k with
    balances := m.balancesAfter k.balances
    keysets := delNonempty m.deleteKeysetAccount k.keysets
    accountKeys := delNonempty m.deleteAccountKeyAccount k.accountKeys }

/-- What the undo of a block does to the book. -/
def Book.undo (u : BlockUndo × MemUndo) (k : Book) : Book :=
  (k.undoStore u.1).undoMem u.2

/-! ## The stores -/

namespace Store

/-- A change of the pending entries. -/
def mapPending (f : Table Str PendingSend → Table Str PendingSend) (st : Store) : Store :=
  { st with pending := f st.pending }

/-- A change of the leases. -/
def mapLeases (f : Table Str Lease → Table Str Lease) (st : Store) : Store :=
  { st with leases := f st.leases }

/-- The store after a commit. -/
def afterCommit (c : BlockCommit) (st : Store) : Store :=
  (((st.putBlock c).mapPending c.pendingAfter).mapLeases c.leasesAfter).putAccountData c

/-- The store after an undo. -/
def afterUndo (u : BlockUndo) (st : Store) : Store :=
  (((st.takeBlock u).mapPending u.pendingAfter)).restoreAccountData u

theorem putPending_eq (st : Store) (ps : Option PendingSend) :
    st.putPending ps = st.mapPending (Table.putSome (·.sendHash) ps) := by
  cases ps <;> rfl

theorem deletePending_eq (st : Store) (id : Str) :
    st.deletePending id = st.mapPending (delNonempty id) := by
  unfold deletePending mapPending delNonempty unlessEmpty
  split_ifs <;> rfl

theorem putLease_eq (st : Store) (l : Option Lease) :
    st.putLease l = st.mapLeases (Table.putSome (·.leaseHash) l) := by
  cases l <;> rfl

theorem memAddAmount_eq (st : Store) (id : Str) (d : UInt64) :
    st.memAddAmount id d = st.mapPending (addAmount id d) := by
  unfold memAddAmount mapPending addAmount unlessEmpty
  split_ifs
  · rfl
  · cases h : st.pending.get id with
    | none => simp [Table.modify_of_none h]
    | some ps => simp [Table.modify_of_some h]

/-- Badger adds a signed amount; when it does not refuse, that is addition modulo 2^64. -/
theorem addToPendingAmount_ok {st st' : Store} {id : Str} {d : Int64}
    (h : st.addToPendingAmount id d = .ok st') :
    st' = st.mapPending (addAmount id d.toUInt64) := by
  unfold addToPendingAmount at h
  by_cases hid : id = []
  · subst hid
    cases h
    rfl
  · simp only [hid, if_false] at h
    cases hp : st.pending.get id with
    | none => simp [hp] at h
    | some ps =>
      have hadd : (if d < 0 then ps.amount - (-d).toUInt64 else ps.amount + d.toUInt64) =
          ps.amount + d.toUInt64 := by
        rw [Int64.toUInt64_neg, UInt64.sub_neg, ite_self]
      simp only [hp, hadd] at h
      split_ifs at h
      cases h
      simp [mapPending, addAmount, unlessEmpty, hid, Table.modify_of_some hp]

theorem changeLease_ok {st st' : Store} {verb : String} {k : Str} {f : Lease → Lease}
    (h : st.changeLease verb k f = .ok st') : st' = st.mapLeases (modifyNonempty k f) := by
  unfold changeLease at h
  by_cases hk : k = []
  · subst hk
    cases h
    rfl
  · simp only [hk, if_false] at h
    cases hl : st.leases.get k with
    | some l =>
      simp only [hl] at h
      cases h
      simp [mapLeases, modifyNonempty, unlessEmpty, hk, Table.modify_of_some hl]
    | none =>
      have hsame : st.mapLeases (modifyNonempty k f) = st := by
        simp [mapLeases, modifyNonempty, unlessEmpty, hk, Table.modify_of_none hl]
      cases hkind : st.kind with
      | mem =>
        simp only [hl, hkind] at h
        cases h
        exact hsame.symm
      | badger =>
        simp only [hl, hkind, errWith12, slice12] at h
        split_ifs at h <;> cases h

theorem changeLeases_ok {st st' : Store} {c : BlockCommit} (h : st.changeLeases c = .ok st') :
    st' = st.mapLeases (fun t =>
      modifyNonempty c.unfulfillLeaseHash
        (fun l => { l with settled := true, state := .unfulfilled })
        (modifyNonempty c.cancelLeaseHash (fun l => { l with state := .cancelled })
          (modifyNonempty c.settleLeaseHash (fun l => { l with settled := true, state := .settled })
            t))) := by
  rw [changeLeases, bind_eq_ok] at h
  obtain ⟨st₁, h₁, h⟩ := h
  rw [bind_eq_ok] at h
  obtain ⟨st₂, h₂, h₃⟩ := h
  rw [changeLease_ok h₃, changeLease_ok h₂, changeLease_ok h₁]
  rfl

/-- Deleting and topping up are never asked for together, so that their order does not matter. -/
theorem addAmount_delNonempty_comm {i j : Str} (h : i = [] ∨ j = []) (d : UInt64)
    (t : Table Str PendingSend) :
    delNonempty i (addAmount j d t) = addAmount j d (delNonempty i t) := by
  rcases h with rfl | rfl <;> rfl

theorem putEscrow_ok {st st' : Store} {c : BlockCommit}
    (hd : c.deletePendingID = [] ∨ c.topUpPendingID = []) (h : st.putEscrow c = .ok st') :
    st' = (st.mapPending c.pendingAfter).mapLeases c.leasesAfter := by
  unfold putEscrow at h
  cases hk : st.kind with
  | mem =>
    simp only [hk] at h
    rw [changeLeases_ok h, putPending_eq, deletePending_eq, memAddAmount_eq, putLease_eq]
    rfl
  | badger =>
    simp only [hk] at h
    rw [bind_eq_ok] at h
    obtain ⟨st₁, h₁, h⟩ := h
    rw [bind_eq_ok] at h
    obtain ⟨st₂, h₂, h₃⟩ := h
    cases h₃
    rw [addToPendingAmount_ok h₂, changeLeases_ok h₁, putPending_eq, deletePending_eq, putLease_eq,
      UInt64.toUInt64_toInt64]
    simp only [mapPending, mapLeases, BlockCommit.pendingAfter, BlockCommit.leasesAfter,
      addAmount_delNonempty_comm hd]

/-- **What a commit writes**, whichever store it is. -/
theorem applyCommit_ok {st st' : Store} {c : BlockCommit}
    (hd : c.deletePendingID = [] ∨ c.topUpPendingID = []) (h : st.applyCommit c = .ok st') :
    casLease (str "CommitBlock: ") (st.leases.get c.expectLeaseHash) c = .ok () ∧
      st' = st.afterCommit c := by
  rw [applyCommit, bind_eq_ok] at h
  obtain ⟨_, h₁, h⟩ := h
  rw [bind_eq_ok] at h
  obtain ⟨st₁, h₂, h₃⟩ := h
  cases h₃
  rw [putEscrow_ok hd h₂]
  exact ⟨h₁, rfl⟩

theorem reducePending_ok {st st' : Store} {u : BlockUndo} (h : st.reducePending u = .ok st') :
    st' = st.mapPending (addAmount u.reducePendingID (-u.reducePendingAmount)) := by
  unfold reducePending at h
  cases hk : st.kind with
  | mem =>
    simp only [hk] at h
    cases h
    exact memAddAmount_eq _ _ _
  | badger =>
    simp only [hk] at h
    rw [addToPendingAmount_ok h, Int64.toUInt64_neg, UInt64.toUInt64_toInt64]

/-- **What an undo writes**, whichever store it is. -/
theorem applyUndo_ok {st st' : Store} {u : BlockUndo} (h : st.applyUndo u = .ok st') :
    st' = st.afterUndo u := by
  rw [applyUndo, bind_eq_ok] at h
  obtain ⟨st₁, h₁, h₂⟩ := h
  cases h₂
  rw [reducePending_ok h₁, deletePending_eq, putPending_eq]
  rfl

end Store

end Xe
