import Mathlib.Data.List.Sort
import Mathlib.Tactic.Common

/-!
# The middle of a sorted list

Lists that are sorted by a relation, and the entry at an index of them: the lower median has the
index `(n - 1) / 2`.

* **`between_of_minority`**: the lower median lies between two entries outside any minority.
-/

set_option autoImplicit false

namespace Median

variable {α : Type} {r : α → α → Prop} {l : List α} {i : ℕ} {a : α}

/-- A property that is closed downwards holds on an initial part of a sorted list. -/
theorem sorted_at_iff (h : l.Pairwise r) {p : α → Bool}
    (hp : ∀ x y, r x y → p y = true → p x = true) (ha : l[i]? = some a) :
    p a = true ↔ i < l.countP p := by
  induction l generalizing i with
  | nil => cases ha
  | cons b l ih =>
    obtain ⟨hb, hl⟩ := List.pairwise_cons.mp h
    cases hpb : p b with
    | false =>
      -- nothing behind an entry without the property has it
      have hnone : ∀ x ∈ b :: l, p x = false := by
        intro x hx
        rcases List.mem_cons.mp hx with rfl | hx
        · exact hpb
        · exact Bool.eq_false_iff.mpr fun hpx => by simp [hp b x (hb x hx) hpx] at hpb
      have hcount : (b :: l).countP p = 0 :=
        List.countP_eq_zero.mpr fun x hx => by simp [hnone x hx]
      simp [hcount, hnone a (List.mem_of_getElem? ha)]
    | true =>
      rw [List.countP_cons_of_pos hpb]
      cases i with
      | zero =>
        cases ha
        simp [hpb]
      | succ i =>
        rw [ih hl ha]
        omega

theorem sorted_at_iff_up (h : l.Pairwise r) {p : α → Bool}
    (hp : ∀ x y, r x y → p x = true → p y = true) (ha : l[i]? = some a) :
    p a = true ↔ l.length ≤ i + l.countP p := by
  have hdown := sorted_at_iff (p := fun x => !p x) h (fun x y hxy => by
    intro hy
    simp only [Bool.not_eq_true', Bool.eq_false_iff] at hy ⊢
    exact fun hx => hy (hp x y hxy hx)) ha
  have hcount := List.length_eq_countP_add_countP p (l := l)
  have hsame : l.countP (fun x => decide ¬ p x = true) = l.countP fun x => !p x := by
    congr 1
    funext x
    cases p x <;> rfl
  rw [hsame] at hcount
  cases hpa : p a with
  | false =>
    simp only [hpa, Bool.not_false, true_iff] at hdown
    simp only [Bool.false_eq_true, false_iff]
    omega
  | true =>
    simp only [hpa, Bool.not_true, Bool.false_eq_true, false_iff] at hdown
    simp only [true_iff]
    omega

/-- One of the entries up to an index is not excluded, if the excluded ones are no more than those
in front of it. -/
theorem exists_below (h : l.Pairwise r) (hrefl : ∀ x, r x x) (ha : l[i]? = some a) {p : α → Bool}
    (hfew : l.countP p ≤ i) : ∃ x ∈ l, p x = false ∧ r x a := by
  induction l generalizing i with
  | nil => cases ha
  | cons b l ih =>
    obtain ⟨hb, hl⟩ := List.pairwise_cons.mp h
    rw [List.countP_cons] at hfew
    cases i with
    | zero =>
      cases ha
      refine ⟨a, List.mem_cons_self, ?_, hrefl a⟩
      cases hpa : p a with
      | false => rfl
      | true => simp [hpa] at hfew
    | succ i =>
      have ha' : l[i]? = some a := ha
      cases hpb : p b with
      | false => exact ⟨b, List.mem_cons_self, hpb, hb a (List.mem_of_getElem? ha')⟩
      | true =>
        simp only [hpb, if_true] at hfew
        obtain ⟨x, hx, hpx, hxa⟩ := ih hl ha' (by omega)
        exact ⟨x, List.mem_cons_of_mem b hx, hpx, hxa⟩

/-- One of the entries from an index on is not excluded, if the excluded ones are fewer than those. -/
theorem exists_above (h : l.Pairwise r) (hrefl : ∀ x, r x x) (ha : l[i]? = some a) {p : α → Bool}
    (hfew : l.countP p + i < l.length) : ∃ x ∈ l, p x = false ∧ r a x := by
  induction l generalizing i with
  | nil => cases ha
  | cons b l ih =>
    obtain ⟨hb, hl⟩ := List.pairwise_cons.mp h
    cases i with
    | zero =>
      cases ha
      have hsome : ¬ ∀ x ∈ a :: l, p x = true := fun hall => by
        rw [List.countP_eq_length.mpr hall] at hfew
        omega
      push Not at hsome
      obtain ⟨x, hx, hpx⟩ := hsome
      refine ⟨x, hx, Bool.eq_false_iff.mpr hpx, ?_⟩
      rcases List.mem_cons.mp hx with rfl | hx
      · exact hrefl _
      · exact hb x hx
    | succ i =>
      have hle : l.countP p ≤ (b :: l).countP p := (List.sublist_cons_self b l).countP_le
      rw [List.length_cons] at hfew
      obtain ⟨x, hx, hpx, hax⟩ := ih hl ha (by omega)
      exact ⟨x, List.mem_cons_of_mem b hx, hpx, hax⟩

/-- **The lower median lies between two entries outside any minority.** -/
theorem between_of_minority (h : l.Pairwise r) (hrefl : ∀ x, r x x)
    (ha : l[(l.length - 1) / 2]? = some a) {p : α → Bool} (hfew : 2 * l.countP p < l.length) :
    (∃ x ∈ l, p x = false ∧ r x a) ∧ ∃ y ∈ l, p y = false ∧ r a y :=
  ⟨exists_below h hrefl ha (by omega), exists_above h hrefl ha (by omega)⟩

end Median
