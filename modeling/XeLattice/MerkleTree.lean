import Mathlib.Data.List.Basic
import Mathlib.Tactic.Common

/-!
# Merkle trees

A list is hashed into one digest by joining neighbours, level by level; the last node of a level of
odd length is promoted to the next as it is.  The same levels, taken over trees in the place of
digests, build the tree whose digest this is, and its leaves are the list.

* **`exists_tree`**: the levels end in one tree, with the entries of the list as its leaves;
* **`Tree.eq_of_hash_eq`**: without collisions a digest determines its tree.
-/

set_option autoImplicit false

namespace Merkle

/-! ## Levels -/

section Levels

variable {β γ : Type} {join : β → β → β} {join' : γ → γ → γ} {g : β → γ}

/-- One level up. -/
def pairUp (join : β → β → β) : List β → List β
  | [] => []
  | [a] => [a]
  | a :: b :: l => join a b :: pairUp join l

/-- Level by level, until one node is left; a list has fewer levels than entries. -/
def climb (join : β → β → β) : ℕ → List β → List β
  | 0, l => l
  | n + 1, l => if 1 < l.length then climb join n (pairUp join l) else l

theorem length_pairUp (join : β → β → β) (l : List β) :
    (pairUp join l).length = (l.length + 1) / 2 := by
  induction l using pairUp.induct with
  | case1 => simp [pairUp]
  | case2 a => simp [pairUp]
  | case3 a b l ih =>
    simp only [pairUp, List.length_cons, ih]
    omega

theorem length_climb {n : ℕ} {l : List β} (hne : 0 < l.length) (hn : l.length ≤ n + 1) :
    (climb join n l).length = 1 := by
  induction n generalizing l with
  | zero => exact Nat.le_antisymm hn hne
  | succ n ih =>
    unfold climb
    split_ifs with h
    · have hlen := length_pairUp join l
      exact ih (by omega) (by omega)
    · omega

theorem map_pairUp (hg : ∀ a b, g (join a b) = join' (g a) (g b)) (l : List β) :
    (pairUp join l).map g = pairUp join' (l.map g) := by
  induction l using pairUp.induct with
  | case1 => rfl
  | case2 a => rfl
  | case3 a b l ih => simp only [pairUp, List.map_cons, hg, ih]

theorem map_climb (join : β → β → β) (join' : γ → γ → γ) (g : β → γ)
    (hg : ∀ a b, g (join a b) = join' (g a) (g b)) (n : ℕ) (l : List β) :
    (climb join n l).map g = climb join' n (l.map g) := by
  induction n generalizing l with
  | zero => rfl
  | succ n ih =>
    simp only [climb, List.length_map]
    split_ifs with h
    · rw [ih, map_pairUp hg]
    · rfl

end Levels

/-! ## Trees -/

/-- Binary trees. -/
inductive Tree (α : Type) where
  | leaf (a : α)
  | node (l r : Tree α)

namespace Tree

variable {α ι δ : Type}

/-- The leaves, from the left. -/
def leaves : Tree α → List α
  | leaf a => [a]
  | node l r => l.leaves ++ r.leaves

variable (input : α → ι) (join : δ → δ → ι) (hash : ι → δ)

/-- What is hashed at the root: a leaf by itself, or two digests joined. -/
def top : Tree α → ι
  | leaf a => input a
  | node l r => join (hash l.top) (hash r.top)

/-- Everything that is hashed. -/
def inputs : Tree α → List ι
  | leaf a => [input a]
  | node l r => join (hash (l.top input join hash)) (hash (r.top input join hash)) ::
      (l.inputs ++ r.inputs)

theorem top_mem_inputs (t : Tree α) : t.top input join hash ∈ t.inputs input join hash := by
  cases t <;> exact List.mem_cons_self

variable {input join hash}

/-- **A digest determines its tree**, if no two of the inputs collide, joined digests can be taken
apart, and no leaf looks like an inner node. -/
theorem eq_of_hash_eq {D : List ι} (hD : ∀ x ∈ D, ∀ y ∈ D, hash x = hash y → x = y)
    (hjoin : ∀ i j i' j', join (hash i) (hash j) = join (hash i') (hash j') →
      hash i = hash i' ∧ hash j = hash j') (hsep : ∀ a x y, input a ≠ join x y) {t u : Tree α}
    (hleaf : ∀ a ∈ t.leaves, ∀ b ∈ u.leaves, input a = input b → a = b)
    (ht : t.inputs input join hash ⊆ D) (hu : u.inputs input join hash ⊆ D)
    (h : hash (t.top input join hash) = hash (u.top input join hash)) : t = u := by
  have hroot := hD _ (ht (top_mem_inputs input join hash t)) _
    (hu (top_mem_inputs input join hash u)) h
  induction t generalizing u with
  | leaf a =>
    cases u with
    | leaf b => rw [hleaf a List.mem_cons_self b List.mem_cons_self hroot]
    | node l r => exact absurd hroot (hsep _ _ _)
  | node l r ihl ihr =>
    cases u with
    | leaf b => exact absurd hroot.symm (hsep _ _ _)
    | node l' r' =>
      obtain ⟨hl, hr⟩ := hjoin _ _ _ _ hroot
      obtain ⟨-, ht⟩ := List.cons_subset.mp ht
      obtain ⟨-, hu⟩ := List.cons_subset.mp hu
      have htl := (List.append_subset.mp ht).1
      have htr := (List.append_subset.mp ht).2
      have hul := (List.append_subset.mp hu).1
      have hur := (List.append_subset.mp hu).2
      rw [ihl (fun a ha b hb => hleaf a (List.mem_append_left _ ha) b (List.mem_append_left _ hb))
          htl hul hl (hD _ (htl (top_mem_inputs ..)) _ (hul (top_mem_inputs ..)) hl),
        ihr (fun a ha b hb => hleaf a (List.mem_append_right _ ha) b (List.mem_append_right _ hb))
          htr hur hr (hD _ (htr (top_mem_inputs ..)) _ (hur (top_mem_inputs ..)) hr)]

theorem flatMap_leaves_pairUp (l : List (Tree α)) :
    (pairUp node l).flatMap leaves = l.flatMap leaves := by
  induction l using pairUp.induct with
  | case1 => rfl
  | case2 a => rfl
  | case3 a b l ih => simp only [pairUp, List.flatMap_cons, leaves, ih, List.append_assoc]

theorem flatMap_leaves_climb (n : ℕ) (l : List (Tree α)) :
    (climb node n l).flatMap leaves = l.flatMap leaves := by
  induction n generalizing l with
  | zero => rfl
  | succ n ih =>
    unfold climb
    split_ifs with h
    · rw [ih, flatMap_leaves_pairUp]
    · rfl

end Tree

/-- **The levels over a list end in one tree**, whose leaves are the list. -/
theorem exists_tree {α : Type} {l : List α} (hne : l ≠ []) :
    ∃ t : Tree α, climb Tree.node l.length (l.map Tree.leaf) = [t] ∧ t.leaves = l := by
  have hlen : (climb Tree.node l.length (l.map Tree.leaf)).length = 1 :=
    length_climb (by rw [List.length_map]; exact List.length_pos_of_ne_nil hne)
      (by rw [List.length_map]; omega)
  obtain ⟨t, ht⟩ := List.length_eq_one_iff.mp hlen
  have hleaves := Tree.flatMap_leaves_climb l.length (l.map Tree.leaf)
  rw [ht, List.flatMap_singleton, List.flatMap_map] at hleaves
  exact ⟨t, ht, hleaves.trans (List.flatMap_singleton' l)⟩

end Merkle
