import XeLattice.Ranking
import Mathlib.Data.Finset.Card

/-!
# Keeping the greatest entries

A scan keeps at most `limit` entries of greatest key.  An entry that it drops, or never looks at, is
*covered*: `limit` of the entries kept are not below it.  Covered entries stay covered when entries
are added, when the list is sorted, and when a sorted list is cut to its first `limit` entries.

* `Holds`, **`Holds.scan`**, **`Holds.take`**: every entry seen so far is kept or covered.
-/

set_option autoImplicit false

namespace Newest

open Ranking

variable {α : Type} {key : α → ℕ} {limit : ℕ} {l l' : List α} {x : α}

/-! ## Covered entries -/

/-- Enough entries of the list are not below the entry. -/
def Covered (key : α → ℕ) (limit : ℕ) (l : List α) (x : α) : Prop :=
  limit ≤ l.countP fun y => decide (key x ≤ key y)

theorem Covered.append_left (h : Covered key limit l x) (l' : List α) :
    Covered key limit (l ++ l') x := by
  rw [Covered, List.countP_append]
  exact h.trans (Nat.le_add_right _ _)

theorem Covered.append_right (h : Covered key limit l' x) (l : List α) :
    Covered key limit (l ++ l') x := by
  rw [Covered, List.countP_append]
  exact h.trans (Nat.le_add_left _ _)

theorem Covered.perm (h : Covered key limit l x) (hl : l.Perm l') : Covered key limit l' x := by
  rwa [Covered, ← hl.countP_eq]

theorem covered_of_forall (hlen : limit ≤ l.length) (h : ∀ y ∈ l, key x ≤ key y) :
    Covered key limit l x := by
  rwa [Covered, List.countP_eq_length.mpr fun y hy => by simpa using h y hy]

theorem Covered.le (h : Covered key limit l x) (hlen : l.length ≤ limit) {y : α} (hy : y ∈ l) :
    key x ≤ key y := by
  have hall : l.countP (fun y => decide (key x ≤ key y)) = l.length :=
    le_antisymm List.countP_le_length (hlen.trans h)
  simpa using List.countP_eq_length.mp hall y hy

theorem Covered.take (h : Covered key limit l x) (hl : Ranked key l) :
    Covered key limit (l.take limit) x := by
  induction l generalizing limit with
  | nil => simpa [Covered] using h
  | cons y l ih =>
    obtain ⟨hy, hl⟩ := List.pairwise_cons.mp hl
    cases limit with
    | zero => exact Nat.zero_le _
    | succ limit =>
      -- The first entry counts, or none does.
      by_cases hxy : key x ≤ key y
      · rw [Covered, List.countP_cons_of_pos (by simpa using hxy)] at h
        rw [Covered, List.take_succ_cons, List.countP_cons_of_pos (by simpa using hxy)]
        exact Nat.succ_le_succ (ih (Nat.le_of_succ_le_succ h) hl)
      · have hnone : (y :: l).countP (fun z => decide (key x ≤ key z)) = 0 := by
          refine List.countP_eq_zero.mpr fun z hz => ?_
          have hzy : key z ≤ key y := by
            rcases List.mem_cons.mp hz with rfl | hz
            · exact le_rfl
            · exact hy z hz
          simp only [decide_eq_true_eq]
          omega
        rw [Covered, hnone] at h
        omega

/-- What is cut off a sorted list is covered. -/
theorem covered_of_mem_drop (hl : Ranked key l) (hlen : limit ≤ l.length) (hx : x ∈ l.drop limit) :
    Covered key limit (l.take limit) x := by
  rw [← List.take_append_drop limit l] at hl
  refine covered_of_forall (by rw [List.length_take]; omega) fun y hy => ?_
  exact (List.pairwise_append.mp hl).2.2 y hy x hx

/-! ## Scanning -/

/-- Entries are taken until the list is full and one is too low. -/
def scan (limit : ℕ) (low : α → Bool) (result : List α) : List α → List α
  | [] => result
  | b :: rest =>
    if limit ≤ result.length ∧ low b = true then result
    else scan limit low (result ++ [b]) rest

theorem scan_cases (limit : ℕ) (low : α → Bool) (result entries : List α) :
    ∃ taken rest, entries = taken ++ rest ∧ scan limit low result entries = result ++ taken ∧
      (rest = [] ∨ limit ≤ (result ++ taken).length ∧ ∃ y ys, rest = y :: ys ∧ low y = true) := by
  induction entries generalizing result with
  | nil => exact ⟨[], [], rfl, by simp [scan], .inl rfl⟩
  | cons b entries ih =>
    rw [scan]
    split_ifs with hstop
    · exact ⟨[], b :: entries, rfl, by simp, .inr ⟨by simpa using hstop.1, b, entries, rfl, hstop.2⟩⟩
    · obtain ⟨taken, rest, rfl, hscan, hrest⟩ := ih (result ++ [b])
      refine ⟨b :: taken, rest, rfl, by simpa using hscan, ?_⟩
      simpa using hrest

theorem scan_append {low : α → Bool} {result xs : List α} (ys : List α)
    (h : result.length + xs.length ≤ limit) :
    scan limit low result (xs ++ ys) = scan limit low (result ++ xs) ys := by
  induction xs generalizing result with
  | nil => rw [List.append_nil, List.nil_append]
  | cons x xs ih =>
    rw [List.length_cons] at h
    rw [List.cons_append, scan, if_neg (by omega), ih (by rw [List.length_append]; simp; omega),
      List.append_assoc, List.singleton_append]

/-- Every entry that was seen is kept or covered. -/
structure Holds (key : α → ℕ) (limit : ℕ) (seen : Set α) (result : List α) : Prop where
  nodup : result.Nodup
  mem : ∀ x ∈ result, x ∈ seen
  rest : ∀ x ∈ seen, x ∈ result ∨ Covered key limit result x

section Holds

variable {seen : Set α} {result : List α}

/-- **Entries in descending order, of which the first `limit` are scanned.** -/
theorem Holds.scan (h : Holds key limit seen result) {low : α → Bool} {entries : List α}
    (hlow : ∀ x, low x = true → ∀ y ∈ result, key x ≤ key y) (hranked : Ranked key entries)
    (hnodup : entries.Nodup) (hnew : ∀ y ∈ entries, y ∉ seen) :
    Holds key limit (seen ∪ {x | x ∈ entries})
      (Newest.scan limit low result (entries.take limit)) := by
  obtain ⟨taken, rest, htake, hscan, hstop⟩ := scan_cases limit low result (entries.take limit)
  have hsplit : entries = taken ++ (rest ++ entries.drop limit) := by
    rw [← List.append_assoc, ← htake, List.take_append_drop]
  rw [hsplit] at hranked hnodup
  obtain ⟨-, hrest, hover⟩ := List.pairwise_append.mp hranked
  rw [hscan]
  refine ⟨?_, fun x hx => ?_, ?_⟩
  · refine List.nodup_append.mpr ⟨h.nodup, (List.nodup_append.mp hnodup).1, ?_⟩
    rintro y hy z hz rfl
    refine hnew y ?_ (h.mem y hy)
    rw [hsplit]
    exact List.mem_append_left _ hz
  · rcases List.mem_append.mp hx with hx | hx
    · exact .inl (h.mem x hx)
    · right
      rw [Set.mem_ofPred_eq, hsplit]
      exact List.mem_append_left _ hx
  · rintro x (hx | hx)
    · exact (h.rest x hx).imp (List.mem_append_left _) (Covered.append_left · taken)
    · rw [Set.mem_ofPred_eq, hsplit] at hx
      rcases List.mem_append.mp hx with hx | hx
      · exact .inl (List.mem_append_right _ hx)
      · right
        rcases hstop with rfl | ⟨hfull, y, ys, rfl, hy⟩
        · -- All of the first `limit` have been taken, and they cover the others.
          rw [List.nil_append] at hx hover
          have hlen : taken.length = limit := by
            rw [List.append_nil] at htake
            rw [← htake, List.length_take]
            have := List.length_pos_of_mem hx
            rw [List.length_drop] at this
            omega
          exact (covered_of_forall hlen.ge fun z hz => hover z hz x hx).append_right result
        · -- The scan has stopped at an entry that is not above what was kept before.
          have hxy : key x ≤ key y := by
            rw [List.cons_append] at hx hrest
            rcases List.mem_cons.mp hx with rfl | hx
            · exact le_rfl
            · exact (List.pairwise_cons.mp hrest).1 x hx
          refine covered_of_forall hfull fun z hz => ?_
          rcases List.mem_append.mp hz with hz | hz
          · exact hxy.trans (hlow y hy z hz)
          · exact hover z hz x hx

theorem Holds.perm (h : Holds key limit seen result) (hp : result.Perm l) :
    Holds key limit seen l where
  nodup := hp.nodup_iff.mp h.nodup
  mem x hx := h.mem x (hp.mem_iff.mpr hx)
  rest x hx := (h.rest x hx).imp hp.mem_iff.mp (·.perm hp)

/-- **A sorted list is cut to its first entries.** -/
theorem Holds.take (h : Holds key limit seen result) (hranked : Ranked key result)
    (hlen : limit ≤ result.length) : Holds key limit seen (result.take limit) where
  nodup := (List.take_sublist _ _).nodup h.nodup
  mem x hx := h.mem x (List.mem_of_mem_take hx)
  rest x hx := by
    rcases h.rest x hx with hx | hx
    · rw [← List.take_append_drop limit result, List.mem_append] at hx
      exact hx.imp_right (covered_of_mem_drop hranked hlen)
    · exact .inr (hx.take hranked)

theorem Holds.le (h : Holds key limit seen result) (hlen : result.length ≤ limit) {x y : α}
    (hx : x ∈ seen) (hxr : x ∉ result) (hy : y ∈ result) : key x ≤ key y :=
  ((h.rest x hx).resolve_left hxr).le hlen hy

theorem Holds.length_eq [DecidableEq α] {S : Finset α} (h : Holds key limit S result)
    (hlen : result.length ≤ limit) : result.length = min limit S.card := by
  have hcard : result.length = result.toFinset.card := (List.toFinset_card_of_nodup h.nodup).symm
  have hsub : result.toFinset ⊆ S := fun x hx => h.mem x (List.mem_toFinset.mp hx)
  by_cases hall : S ⊆ result.toFinset
  · rw [hcard, hsub.antisymm hall]
    rw [hcard, hsub.antisymm hall] at hlen
    exact (min_eq_right hlen).symm
  · obtain ⟨x, hx, hxr⟩ := Finset.not_subset.mp hall
    have hcov := (h.rest x hx).resolve_left (mt List.mem_toFinset.mpr hxr)
    have hge : limit ≤ result.length := le_trans hcov List.countP_le_length
    have hle := Finset.card_le_card hsub
    omega

end Holds

end Newest
