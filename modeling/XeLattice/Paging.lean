import Mathlib.Algebra.BigOperators.Group.List.Basic
import Mathlib.Algebra.Group.Action.Defs
import Mathlib.Algebra.Ring.Nat
import Mathlib.Tactic.Common

/-!
# Pages of a fixed size

Items that leave in pages: an item joins those that wait, and a page leaves when it is full.  What
waits in the end is what the last full page leaves over, so that nothing waits exactly when the
number of items is a multiple of the page size.

* **`Pager.Filled.pending_eq_nil_iff`**: when nothing waits.
-/

set_option autoImplicit false

/-- The pages that are full, and the items that wait for the next one. -/
structure Pager (α : Type) where
  pages : List (List α)
  pending : List α

namespace Pager

variable {α : Type} {n cap : ℕ} {p : Pager α}

/-- The items, in order. -/
def items (p : Pager α) : List α :=
  p.pages.flatten ++ p.pending

/-- One more item, for pages of `n`. -/
def push (n : ℕ) (p : Pager α) (x : α) : Pager α :=
  if (p.pending ++ [x]).length = n then ⟨p.pages ++ [p.pending ++ [x]], []⟩
  else ⟨p.pages, p.pending ++ [x]⟩

/-- Items one by one, as long as there are fewer than `cap`. -/
def pushAll (n cap : ℕ) : List α → Pager α → Pager α
  | [], p => p
  | x :: xs, p => if cap ≤ p.items.length then p else pushAll n cap xs (p.push n x)

theorem items_push (n : ℕ) (p : Pager α) (x : α) : (p.push n x).items = p.items ++ [x] := by
  unfold push items
  split_ifs <;> simp

theorem items_pushAll (xs : List α) (h : p.items.length ≤ cap) :
    (pushAll n cap xs p).items = (p.items ++ xs).take cap := by
  induction xs generalizing p with
  | nil => rw [pushAll, List.append_nil, List.take_of_length_le h]
  | cons x xs ih =>
    rw [pushAll]
    split_ifs with hcap
    · rw [List.take_append_of_le_length hcap, List.take_of_length_le h]
    · have hone : (p.push n x).items.length ≤ cap := by
        rw [items_push, List.length_append, List.length_singleton]
        omega
      rw [ih hone, items_push, List.append_assoc, List.singleton_append]

/-- Every page is full, and what waits is less than a page. -/
structure Filled (n : ℕ) (p : Pager α) : Prop where
  full : ∀ page ∈ p.pages, page.length = n
  room : p.pending.length < n

theorem Filled.push (h : p.Filled n) (x : α) : (p.push n x).Filled n := by
  unfold Pager.push
  split_ifs with hn
  · refine ⟨fun page hpage => ?_, Nat.zero_lt_of_lt h.room⟩
    rcases List.mem_append.mp hpage with hold | hnew
    · exact h.full page hold
    · rw [List.mem_singleton.mp hnew, hn]
  · have hlt := h.room
    rw [List.length_append, List.length_singleton] at hn
    exact ⟨h.full, by rw [List.length_append, List.length_singleton]; omega⟩

theorem Filled.length_items (h : p.Filled n) :
    p.items.length = p.pages.length * n + p.pending.length := by
  have hsum : (p.pages.map List.length).sum = p.pages.length * n := by
    have hall : ∀ k ∈ p.pages.map List.length, k = n := by
      intro k hk
      obtain ⟨page, hpage, rfl⟩ := List.mem_map.mp hk
      exact h.full page hpage
    rw [List.sum_eq_card_nsmul _ n hall, List.length_map, smul_eq_mul]
  rw [items, List.length_append, List.length_flatten, hsum]

/-- **Nothing waits** exactly when the items fill their pages. -/
theorem Filled.pending_eq_nil_iff (h : p.Filled n) : p.pending = [] ↔ n ∣ p.items.length := by
  rw [h.length_items, Nat.dvd_add_right (Nat.dvd_mul_left n _), ← List.length_eq_zero_iff]
  exact ⟨fun h0 => h0 ▸ Nat.dvd_zero n, fun hdvd => Nat.eq_zero_of_dvd_of_lt hdvd h.room⟩

end Pager
