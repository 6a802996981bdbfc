import Mathlib.Data.Finmap
import Mathlib.Algebra.BigOperators.Group.Finset.Basic
import Mathlib.Algebra.Order.BigOperators.Group.Finset
import Mathlib.Algebra.Ring.Nat
import Mathlib.Tactic.Common

/-!
# Finite tables

Key-value tables with finitely many entries, over Mathlib's `Finmap`: lookup, insertion, deletion,
extensionality, and the sum of a weight over all entries with its behaviour under the updates.
-/

set_option autoImplicit false

/-- A finite map. -/
def Table (K V : Type) : Type :=
  Finmap (fun _ : K => V)

namespace Table

variable {K V W : Type} [DecidableEq K]

/-- The empty map. -/
def empty : Table K V :=
  (∅ : Finmap (fun _ : K => V))

/-- The value under `k`. -/
def get (t : Table K V) (k : K) : Option V :=
  Finmap.lookup k t

/-- Puts `v` under `k`. -/
def set (t : Table K V) (k : K) (v : V) : Table K V :=
  Finmap.insert k v t

/-- Removes the entry under `k`. -/
def del (t : Table K V) (k : K) : Table K V :=
  Finmap.erase k t

/-- The keys with a value. -/
def keys (t : Table K V) : Finset K :=
  Finmap.keys t

theorem ext {t u : Table K V} (h : ∀ k, t.get k = u.get k) : t = u :=
  Finmap.ext_lookup h

instance [DecidableEq V] : DecidableEq (Table K V) :=
  inferInstanceAs (DecidableEq (Finmap (fun _ : K => V)))

@[simp] theorem get_empty (k : K) : (empty : Table K V).get k = none :=
  Finmap.lookup_empty k

@[simp] theorem get_set_self (t : Table K V) (k : K) (v : V) : (t.set k v).get k = some v :=
  Finmap.lookup_insert t

theorem get_set_of_ne (t : Table K V) {k k' : K} (h : k' ≠ k) (v : V) :
    (t.set k v).get k' = t.get k' :=
  Finmap.lookup_insert_of_ne t h

theorem get_set (t : Table K V) (k k' : K) (v : V) :
    (t.set k v).get k' = if k' = k then some v else t.get k' := by
  split_ifs with h
  · rw [h, get_set_self]
  · exact get_set_of_ne t h v

@[simp] theorem get_del_self (t : Table K V) (k : K) : (t.del k).get k = none :=
  Finmap.lookup_erase k t

theorem get_del_of_ne (t : Table K V) {k k' : K} (h : k' ≠ k) : (t.del k).get k' = t.get k' :=
  Finmap.lookup_erase_ne h

theorem get_del (t : Table K V) (k k' : K) :
    (t.del k).get k' = if k' = k then none else t.get k' := by
  split_ifs with h
  · rw [h, get_del_self]
  · exact get_del_of_ne t h

theorem mem_keys {t : Table K V} {k : K} : k ∈ t.keys ↔ ∃ v, t.get k = some v :=
  Finmap.mem_keys.trans Finmap.mem_iff

theorem notMem_keys {t : Table K V} {k : K} : k ∉ t.keys ↔ t.get k = none := by
  rw [mem_keys, Option.eq_none_iff_forall_ne_some]
  push Not
  rfl

theorem del_of_get_none {t : Table K V} {k : K} (h : t.get k = none) : t.del k = t := by
  apply ext
  intro k'
  rw [get_del]
  split_ifs with hk
  · rw [hk, h]
  · rfl

theorem set_of_get_some {t : Table K V} {k : K} {v : V} (h : t.get k = some v) :
    t.set k v = t := by
  apply ext
  intro k'
  rw [get_set]
  split_ifs with hk
  · rw [hk, h]
  · rfl

/-- Changes a value, if there is one. -/
def modify (t : Table K V) (k : K) (f : V → V) : Table K V :=
  match t.get k with
  | none => t
  | some v => t.set k (f v)

theorem modify_of_none {t : Table K V} {k : K} (h : t.get k = none) (f : V → V) :
    t.modify k f = t := by
  rw [modify, h]

theorem modify_of_some {t : Table K V} {k : K} {v : V} (h : t.get k = some v) (f : V → V) :
    t.modify k f = t.set k (f v) := by
  rw [modify, h]

theorem get_modify (t : Table K V) (k k' : K) (f : V → V) :
    (t.modify k f).get k' = if k' = k then (t.get k).map f else t.get k' := by
  unfold modify
  cases h : t.get k with
  | none =>
    split_ifs with hk
    · rw [hk, h]
      rfl
    · rfl
  | some v => simp [get_set]

/-- Puts an entry, if there is one, under its own key. -/
def putSome (key : V → K) (v : Option V) (t : Table K V) : Table K V :=
  match v with
  | none => t
  | some v => t.set (key v) v

@[simp] theorem putSome_none (key : V → K) (t : Table K V) : putSome key none t = t := rfl

@[simp] theorem putSome_some (key : V → K) (v : V) (t : Table K V) :
    putSome key (some v) t = t.set (key v) v := rfl

theorem keys_set (t : Table K V) (k : K) (v : V) : (t.set k v).keys = insert k t.keys := by
  ext k'
  rw [Finset.mem_insert, mem_keys, mem_keys, get_set]
  split_ifs with h <;> simp [h]

theorem keys_del (t : Table K V) (k : K) : (t.del k).keys = t.keys.erase k := by
  ext k'
  rw [Finset.mem_erase, mem_keys, mem_keys, get_del]
  split_ifs with h <;> simp [h]

/-! ## Sums over the entries -/

/-- The weight of the entry under `k`, zero when there is none. -/
def weight (f : K → V → ℕ) (t : Table K V) (k : K) : ℕ :=
  (t.get k).elim 0 (f k)

/-- The sum of `f` over all entries. -/
def sum (t : Table K V) (f : K → V → ℕ) : ℕ :=
  ∑ k ∈ t.keys, t.weight f k

section Sum

variable (f : K → V → ℕ) (t : Table K V) (k : K)

theorem sum_eq_of_subset {s : Finset K} (h : t.keys ⊆ s) : t.sum f = ∑ k ∈ s, t.weight f k := by
  refine Finset.sum_subset h (fun k _ hk => ?_)
  rw [weight, notMem_keys.mp hk]
  rfl

@[simp] theorem sum_empty : (empty : Table K V).sum f = 0 := by
  refine Finset.sum_eq_zero (fun k hk => ?_)
  obtain ⟨v, hv⟩ := mem_keys.mp hk
  simp at hv

theorem sum_set (v : V) : (t.set k v).sum f + t.weight f k = t.sum f + f k v := by
  have hs : (t.set k v).keys ⊆ insert k t.keys := (keys_set t k v).le
  have ht : t.keys ⊆ insert k t.keys := Finset.subset_insert k t.keys
  rw [sum_eq_of_subset f _ hs, sum_eq_of_subset f t ht,
    ← Finset.add_sum_erase _ _ (Finset.mem_insert_self k t.keys),
    ← Finset.add_sum_erase _ (t.weight f) (Finset.mem_insert_self k t.keys)]
  have hsame : ∑ x ∈ (insert k t.keys).erase k, (t.set k v).weight f x
      = ∑ x ∈ (insert k t.keys).erase k, t.weight f x := by
    refine Finset.sum_congr rfl (fun x hx => ?_)
    rw [weight, weight, get_set_of_ne t (Finset.ne_of_mem_erase hx)]
  have hk : (t.set k v).weight f k = f k v := by rw [weight, get_set_self, Option.elim_some]
  omega

theorem sum_del : (t.del k).sum f + t.weight f k = t.sum f := by
  by_cases hk : k ∈ t.keys
  · rw [sum, sum, keys_del, ← Finset.add_sum_erase _ _ hk, Nat.add_comm]
    congr 1
    refine Finset.sum_congr rfl (fun x hx => ?_)
    rw [weight, weight, get_del_of_ne t (Finset.ne_of_mem_erase hx)]
  · have hnone := notMem_keys.mp hk
    rw [del_of_get_none hnone, weight, hnone]
    rfl

theorem sum_map_weight_le {l : List K} (hl : l.Nodup) : (l.map (t.weight f)).sum ≤ t.sum f := by
  have hsub : ∑ x ∈ l.toFinset, t.weight f x ≤ ∑ x ∈ l.toFinset ∪ t.keys, t.weight f x :=
    Finset.sum_le_sum_of_subset Finset.subset_union_left
  rwa [List.sum_toFinset _ hl, ← sum_eq_of_subset f t Finset.subset_union_right] at hsub

end Sum

/-! ## Filtering -/

omit [DecidableEq K] in
theorem map_fst_filterMap_sublist (f : K → V → Option W) (l : List (Sigma (fun _ : K => V))) :
    List.Sublist ((l.filterMap (fun e => (f e.1 e.2).map (fun w =>
      (⟨e.1, w⟩ : Sigma (fun _ : K => W))))).map Sigma.fst) (l.map Sigma.fst) := by
  induction l with
  | nil => exact List.Sublist.slnil
  | cons e l ih =>
    rw [List.filterMap_cons, List.map_cons]
    cases hf : f e.1 e.2 with
    | none => simpa [hf] using ih.cons e.1
    | some w => simpa [hf] using ih

/-- The entries that `f` keeps, with the values it gives them. -/
def filterMap (f : K → V → Option W) (t : Table K V) : Table K W where
  entries := (Finmap.entries t).filterMap (fun e => (f e.1 e.2).map (fun w => ⟨e.1, w⟩))
  nodupKeys := by
    have h := Finmap.nodupKeys t
    revert h
    refine Quotient.inductionOn (Finmap.entries t) (fun l h => ?_)
    exact (map_fst_filterMap_sublist f l).nodup h

theorem get_eq_some_iff {t : Table K V} {k : K} {v : V} :
    t.get k = some v ↔ (⟨k, v⟩ : Sigma (fun _ : K => V)) ∈ Finmap.entries t :=
  Finmap.lookup_eq_some_iff

theorem get_filterMap (f : K → V → Option W) (t : Table K V) (k : K) :
    (t.filterMap f).get k = (t.get k).bind (f k) := by
  apply Option.ext
  intro w
  rw [get_eq_some_iff, Option.bind_eq_some_iff]
  simp only [filterMap, Multiset.mem_filterMap, Option.map_eq_some_iff]
  constructor
  · rintro ⟨⟨k', v⟩, hmem, w', hw, heq⟩
    cases heq
    exact ⟨v, get_eq_some_iff.mpr hmem, hw⟩
  · rintro ⟨v, hv, hw⟩
    exact ⟨⟨k, v⟩, get_eq_some_iff.mp hv, w, hw, rfl⟩

end Table
