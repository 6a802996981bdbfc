import Mathlib.Algebra.BigOperators.Group.Finset.Basic
import Mathlib.Algebra.Order.BigOperators.Group.Finset
import Mathlib.Data.Fintype.BigOperators

/-!
# Shares

Holders with a balance, each of which may stand behind a party; what stands behind a party is the
sum of the balances of its holders.
-/

set_option autoImplicit false

namespace Shares

variable {α ρ : Type} [DecidableEq α] [DecidableEq ρ]

/-- What a holder puts behind a party. -/
def share (party : α → ρ) (bal : α → ℕ) (r : ρ) (a : α) : ℕ :=
  if party a = r then bal a else 0

/-- What all holders put behind it. -/
def total (holders : Finset α) (party : α → ρ) (bal : α → ℕ) (r : ρ) : ℕ :=
  ∑ a ∈ holders, share party bal r a

section Move

variable {K K' : Finset α} {party party' : α → ρ} {bal bal' : α → ℕ} {r : ρ} {a : α}

theorem total_insert (h : a ∉ K → share party bal r a = 0) :
    total (insert a K) party bal r = total K party bal r := by
  by_cases ha : a ∈ K
  · rw [Finset.insert_eq_of_mem ha]
  · unfold total
    rw [Finset.sum_insert ha, h ha, Nat.zero_add]

theorem share_le_total (h : a ∉ K → share party bal r a = 0) :
    share party bal r a ≤ total K party bal r := by
  rw [← total_insert h]
  exact Finset.single_le_sum (fun x _ => Nat.zero_le (share party bal r x))
    (Finset.mem_insert_self a K)

/-- **One holder changes party and balance.** -/
theorem total_move (hK : insert a K = insert a K') (hp : ∀ x, x ≠ a → party' x = party x)
    (hb : ∀ x, x ≠ a → bal' x = bal x) (h : a ∉ K → share party bal r a = 0)
    (h' : a ∉ K' → share party' bal' r a = 0) :
    total K' party' bal' r = total K party bal r - share party bal r a + share party' bal' r a := by
  have hle := share_le_total h
  have hmem : a ∈ insert a K := Finset.mem_insert_self a K
  have hrest : ∑ x ∈ (insert a K).erase a, share party' bal' r x =
      ∑ x ∈ (insert a K).erase a, share party bal r x := by
    refine Finset.sum_congr rfl fun x hx => ?_
    have hne := Finset.ne_of_mem_erase hx
    unfold share
    rw [hp x hne, hb x hne]
  have hold : share party bal r a + ∑ x ∈ (insert a K).erase a, share party bal r x =
      total K party bal r := by
    rw [← total_insert h]
    exact Finset.add_sum_erase _ _ hmem
  have hnew : share party' bal' r a + ∑ x ∈ (insert a K).erase a, share party' bal' r x =
      total K' party' bal' r := by
    rw [← total_insert h', ← hK]
    exact Finset.add_sum_erase _ _ hmem
  omega

end Move

end Shares
