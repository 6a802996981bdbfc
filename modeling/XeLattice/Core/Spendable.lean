import XeLattice.Core.Overlay

/-!
# Spendable balances

`core/spendable.go`: what an account may spend without touching blocks that are not final.  The code
walks the chain once; in the final part it follows the balances, and above it it takes off every
outflow, stopping at zero, while inflows do not count.

* **`spendable_balances`**: the closed form, and what follows from it.
-/

set_option autoImplicit false

namespace Xe

/-! ## The code -/

/-- The two maps of the loop: what is left to spend, and the last balances. -/
structure Spending where
  out : Table Str UInt64
  prev : Table Str UInt64

/-- An asset's entry, zero when there is none. -/
def balanceIn (t : Table Str UInt64) (asset : Str) : UInt64 :=
  (t.get asset).getD 0

/-- The body of the loop, for the block at `i`. -/
def spendStep (limit i : ℕ) (sp : Spending) (b : Block) : Spending :=
  let a := assetOrXE b.asset
  let last := balanceIn sp.prev a
  let outflow := last - b.balance
  { out :=
      if i < limit then sp.out.set a b.balance
      else if b.balance < last then
        if balanceIn sp.out a ≥ outflow then sp.out.set a (balanceIn sp.out a - outflow)
        else sp.out.set a 0
      else sp.out
    prev := sp.prev.set a b.balance }

/-- The loop, from the block at `i` on. -/
def spendLoop (limit : ℕ) : ℕ → Spending → List Block → Spending
  | _, sp, [] => sp
  | i, sp, b :: bs => spendLoop limit (i + 1) (spendStep limit i sp b) bs

/-- `SpendableBalances`.  A final height counts blocks of a chain, so that it fits an `int`. -/
def spendableBalances (st : Store) (account : Str) : Table Str UInt64 :=
  let fh := st.finalHeightOf account
  if fh = 0 then .empty
  else
    match st.chains.get account with
    | none => .empty
    | some chain =>
      let limit := if fh > chain.length then chain.length else fh
      (spendLoop limit 0 { out := .empty, prev := .empty } chain).out

/-! ## What it is for -/

/-- The sum of the decreases of an asset's balance along the blocks, from the balance `bal` on. -/
def outflows (asset : Str) (bal : UInt64) : List Block → ℕ
  | [] => 0
  | b :: bs =>
    if assetOrXE b.asset = asset then (bal.toNat - b.balance.toNat) + outflows asset b.balance bs
    else outflows asset bal bs

/-- An asset's balance after the blocks, from the balance `bal` on. -/
def balanceAfter (asset : Str) (bal : UInt64) (bs : List Block) : UInt64 :=
  bs.foldl (fun bal b => if assetOrXE b.asset = asset then b.balance else bal) bal

variable {asset : Str} {bal : UInt64} {limit i : ℕ} {sp : Spending} {b : Block}
  {bs xs ys : List Block}

theorem outflows_append : outflows asset bal (xs ++ ys) =
    outflows asset bal xs + outflows asset (balanceAfter asset bal xs) ys := by
  induction xs generalizing bal with
  | nil => simp [outflows, balanceAfter]
  | cons b xs ih =>
    simp only [List.cons_append, outflows, balanceAfter, List.foldl_cons]
    split_ifs
    · rw [ih, Nat.add_assoc]
      rfl
    · exact ih

theorem sub_outflows_le : bal.toNat - outflows asset bal bs ≤ (balanceAfter asset bal bs).toNat := by
  induction bs generalizing bal with
  | nil => exact Nat.sub_le _ _
  | cons b bs ih =>
    simp only [outflows, balanceAfter, List.foldl_cons]
    split_ifs
    · have hih := @ih b.balance
      unfold balanceAfter at hih
      omega
    · exact ih

/-! ## The loop -/

theorem spendLoop_append : spendLoop limit i sp (xs ++ ys) =
    spendLoop limit (i + xs.length) (spendLoop limit i sp xs) ys := by
  induction xs generalizing i sp with
  | nil => rfl
  | cons b xs ih =>
    rw [List.cons_append, spendLoop, spendLoop, ih, List.length_cons]
    congr 1
    omega

theorem balanceIn_set (t : Table Str UInt64) (a asset : Str) (v : UInt64) :
    balanceIn (t.set a v) asset = if asset = a then v else balanceIn t asset := by
  unfold balanceIn
  rw [Table.get_set]
  split_ifs <;> rfl

theorem spendStep_prev (limit i : ℕ) (sp : Spending) (b : Block) (asset : Str) :
    balanceIn (spendStep limit i sp b).prev asset =
      if asset = assetOrXE b.asset then b.balance else balanceIn sp.prev asset :=
  balanceIn_set _ _ _ _

theorem spendStep_out_final (h : i < limit) (sp : Spending) (b : Block) (asset : Str) :
    balanceIn (spendStep limit i sp b).out asset =
      if asset = assetOrXE b.asset then b.balance else balanceIn sp.out asset := by
  simp only [spendStep, if_pos h]
  exact balanceIn_set _ _ _ _

theorem spendStep_out_open (h : limit ≤ i) (asset : Str) :
    (balanceIn (spendStep limit i sp b).out asset).toNat =
      if asset = assetOrXE b.asset then (balanceIn sp.out asset).toNat -
        ((balanceIn sp.prev asset).toNat - b.balance.toNat)
      else (balanceIn sp.out asset).toNat := by
  simp only [spendStep, if_neg (not_lt.mpr h)]
  by_cases hdown : b.balance < balanceIn sp.prev (assetOrXE b.asset)
  · have hsub : (balanceIn sp.prev (assetOrXE b.asset) - b.balance).toNat =
        (balanceIn sp.prev (assetOrXE b.asset)).toNat - b.balance.toNat :=
      UInt64.toNat_sub_of_le _ _ (UInt64.le_of_lt hdown)
    rw [if_pos hdown]
    split_ifs with henough ha ha
    · rw [balanceIn_set, if_pos ha, ha, UInt64.toNat_sub_of_le _ _ henough, hsub]
    · rw [balanceIn_set, if_neg ha]
    · have hlt := UInt64.lt_iff_toNat_lt.mp (UInt64.not_le.mp henough)
      rw [balanceIn_set, if_pos ha, ha, ← hsub]
      exact (Nat.sub_eq_zero_of_le hlt.le).symm
    · rw [balanceIn_set, if_neg ha]
  · rw [if_neg hdown]
    have hle := UInt64.le_iff_toNat_le.mp (UInt64.not_lt.mp hdown)
    split_ifs with ha
    · rw [ha]
      omega
    · rfl

/-- In the final part the loop follows the balances. -/
theorem spendLoop_final (h : i + bs.length ≤ limit)
    (heq : balanceIn sp.out asset = balanceIn sp.prev asset) :
    balanceIn (spendLoop limit i sp bs).out asset =
        balanceAfter asset (balanceIn sp.prev asset) bs ∧
      balanceIn (spendLoop limit i sp bs).prev asset =
        balanceAfter asset (balanceIn sp.prev asset) bs := by
  induction bs generalizing i sp with
  | nil => exact ⟨heq, rfl⟩
  | cons b bs ih =>
    rw [List.length_cons] at h
    have hprev := spendStep_prev limit i sp b asset
    have heq' : balanceIn (spendStep limit i sp b).out asset =
        balanceIn (spendStep limit i sp b).prev asset := by
      rw [spendStep_out_final (by omega), hprev, heq]
    have hrest := ih (show i + 1 + bs.length ≤ limit by omega) heq'
    rw [hprev] at hrest
    simp only [spendLoop, balanceAfter, List.foldl_cons, @eq_comm _ (assetOrXE b.asset)]
    exact hrest

/-- Above the final height the loop takes off the outflows. -/
theorem spendLoop_open (h : limit ≤ i) :
    (balanceIn (spendLoop limit i sp bs).out asset).toNat =
      (balanceIn sp.out asset).toNat - outflows asset (balanceIn sp.prev asset) bs := by
  induction bs generalizing i sp with
  | nil => rfl
  | cons b bs ih =>
    rw [spendLoop, ih (by omega), spendStep_out_open h, spendStep_prev, outflows]
    simp only [@eq_comm _ (assetOrXE b.asset)]
    split_ifs
    · rw [Nat.sub_sub]
    · rfl

/-! ## The closed form -/

/-- The chain of an account, empty when there is none. -/
def Store.chainOf (st : Store) (account : Str) : AccountChain :=
  (st.chains.get account).getD []

/-- The balance of an asset after the final blocks of an account. -/
def Store.finalizedBalance (st : Store) (account asset : Str) : ℕ :=
  (assetBalanceOnChain ((st.chainOf account).take (st.finalHeightOf account)) asset).toNat

/-- The decreases of an asset's balance in the blocks of an account that are not final. -/
def Store.openOutflows (st : Store) (account asset : Str) : ℕ :=
  outflows asset (assetBalanceOnChain ((st.chainOf account).take (st.finalHeightOf account)) asset)
    ((st.chainOf account).drop (st.finalHeightOf account))

/-- What the account may spend of an asset. -/
def Store.spendable (st : Store) (account asset : Str) : ℕ :=
  (balanceIn (spendableBalances st account) asset).toNat

theorem spendable_eq (st : Store) (account asset : Str) : st.spendable account asset =
    st.finalizedBalance account asset - st.openOutflows account asset := by
  unfold Store.spendable Store.finalizedBalance Store.openOutflows Store.chainOf spendableBalances
  by_cases hfh : st.finalHeightOf account = 0
  · rw [if_pos hfh, hfh, List.take_zero]
    exact (Nat.zero_sub _).symm
  · rw [if_neg hfh]
    cases hchain : st.chains.get account with
    | none =>
      rw [Option.getD_none, List.take_nil]
      exact (Nat.zero_sub _).symm
    | some chain =>
      rw [Option.getD_some]
      dsimp only
      set fh := st.finalHeightOf account
      set limit := if fh > chain.length then chain.length else fh with hlimit
      have htake : chain.take fh = chain.take limit ∧ chain.drop fh = chain.drop limit := by
        split_ifs at hlimit with hlong
        · rw [hlimit, List.take_of_length_le hlong.le, List.drop_of_length_le hlong.le,
            List.take_length, List.drop_length]
          exact ⟨rfl, rfl⟩
        · rw [hlimit]
          exact ⟨rfl, rfl⟩
      have hle : limit ≤ chain.length := by
        split_ifs at hlimit with hlong <;> omega
      have hlen : (chain.take limit).length = limit := List.length_take_of_le hle
      rw [htake.1, htake.2]
      obtain ⟨hout, hprev⟩ := @spendLoop_final asset limit 0 { out := .empty, prev := .empty }
        (chain.take limit) (by omega) rfl
      conv_lhs => rw [← List.take_append_drop limit chain, spendLoop_append]
      rw [spendLoop_open (by omega), hout, hprev]
      rfl

theorem assetBalanceOnChain_eq (chain : AccountChain) (asset : Str) :
    assetBalanceOnChain chain asset = balanceAfter asset 0 chain := rfl

theorem balanceAfter_append : balanceAfter asset bal (xs ++ ys) =
    balanceAfter asset (balanceAfter asset bal xs) ys :=
  List.foldl_append

/-- **Spendable balances**: what an account may spend of an asset is its finalized balance less the
later outflows, or nothing if they are more; so it exceeds neither the finalized balance nor the
current one, and a block on top that is not final does not increase it. -/
theorem spendable_balances (st : Store) (account asset : Str) :
    st.spendable account asset =
        st.finalizedBalance account asset - st.openOutflows account asset ∧
      st.spendable account asset ≤ st.finalizedBalance account asset ∧
      st.spendable account asset ≤ (assetBalanceOnChain (st.chainOf account) asset).toNat ∧
      ∀ (st' : Store) (b : Block), st'.chains.get account = some (st.chainOf account ++ [b]) →
        st'.finalHeightOf account = st.finalHeightOf account →
        st.finalHeightOf account ≤ (st.chainOf account).length →
          st'.spendable account asset ≤ st.spendable account asset := by
  refine ⟨spendable_eq st account asset, ?_, ?_, ?_⟩
  · rw [spendable_eq]
    exact Nat.sub_le _ _
  · -- the current balance is reached from the finalized one by the blocks above it
    rw [spendable_eq, assetBalanceOnChain_eq]
    conv_rhs => rw [← List.take_append_drop (st.finalHeightOf account) (st.chainOf account)]
    rw [balanceAfter_append]
    exact sub_outflows_le
  · intro st' b hchain hfh hle
    have hchain' : st'.chainOf account = st.chainOf account ++ [b] := by
      rw [Store.chainOf, hchain, Option.getD_some]
    rw [spendable_eq, spendable_eq, Store.finalizedBalance, Store.finalizedBalance,
      Store.openOutflows, Store.openOutflows, hchain', hfh, List.take_append_of_le_length hle,
      List.drop_append_of_le_length hle, outflows_append]
    omega

/-! ## A chain with an open send -/

namespace SampleSpending

/-- A block of an account, with the balance it leaves. -/
def block (balance : UInt64) : Block where
  type := .send
  account := [1]
  previous := zeroPrev
  balance := balance
  asset := assetXE

/-- The store with the given chain of the account, of which the first block is final. -/
def store (chain : AccountChain) : Store :=
  { Store.new .mem with
    chains := Table.empty.set [1] chain
    finalHeight := Table.empty.set [1] 1 }

end SampleSpending

open SampleSpending in
/-- Of a finalized balance of ten, six are left after a send of four, and no more after an
inflow. -/
theorem spendable_balances_inflow :
    (store [block 10, block 6]).spendable [1] assetXE
        = 6 ∧
      (store
        ([block 10, block 6] ++ [block 9])).spendable
          [1] assetXE ≤ 6 := by
  set chain : AccountChain := [block 10, block 6]
  have hchain : (store chain).chainOf [1] = chain := by
    rw [Store.chainOf, store, Table.get_set_self, Option.getD_some]
  have hfh : ∀ c, (store c).finalHeightOf [1] = 1 := by
    intro c
    rw [Store.finalHeightOf, store, Table.get_set_self, Option.getD_some]
  obtain ⟨heq, -, -, happend⟩ := spendable_balances (store chain) [1] assetXE
  have hsix : (store chain).spendable [1] assetXE = 6 := by
    rw [heq, Store.finalizedBalance, Store.openOutflows, hchain, hfh]
    decide
  refine ⟨hsix, ?_⟩
  rw [← hsix]
  apply happend (store (chain ++ [block 9])) (block 9)
  · rw [hchain, store, Table.get_set_self]
  · rw [hfh, hfh]
  · rw [hfh, hchain]
    decide

end Xe
