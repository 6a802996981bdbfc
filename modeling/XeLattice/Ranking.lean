import Mathlib.Data.List.Sort
import Mathlib.Tactic.Common

/-!
# The first entries of a sorted list

Lists that are sorted by a key that need not be unique.  How such a list starts depends on the order
in which the sort met its entries, unless the entries of one key that can stand among the first ones
agree.

* **`top_eq_iff`**: when the first entries of the sorted list do not depend on the order;
* **`firstMax_eq_iff`**: the same for the first entry of the greatest key;
* **`mem_top_iff`**: what is among the first entries in every order.
-/

set_option autoImplicit false

namespace Ranking

variable {α β : Type} (key : α → ℕ)

/-- An entry may stand in front of one whose key is not greater. -/
def Before (a b : α) : Prop :=
  key b ≤ key a

instance : DecidableRel (Before key) :=
  fun a b => inferInstanceAs (Decidable (key b ≤ key a))

instance : Std.Total (Before key) :=
  ⟨fun a b => le_total (key b) (key a)⟩

instance : IsTrans α (Before key) :=
  ⟨fun _ _ _ hab hbc => le_trans hbc hab⟩

/-- No entry stands behind one of a smaller key. -/
abbrev Ranked (l : List α) : Prop :=
  l.Pairwise (Before key)

/-- A sort by descending key: what is promised of an unstable one, and that it leaves a sorted list
as it is. -/
structure Sorter where
  sort : List α → List α
  perm : ∀ l, (sort l).Perm l
  ranked : ∀ l, Ranked key (sort l)
  fixed : ∀ l, Ranked key l → sort l = l

/-- Sorting by insertion. -/
def insertion : Sorter key where
  sort := List.insertionSort (Before key)
  perm := List.perm_insertionSort (Before key)
  ranked := List.pairwise_insertionSort (Before key)
  fixed _ := List.Pairwise.insertionSort_eq

/-- The number of entries with a greater key. -/
def above (l : List α) (n : ℕ) : ℕ :=
  l.countP fun x => decide (n < key x)

section Ranked

variable {key} {l l₁ l₂ : List α} {a : α}

theorem above_perm (h : l₁.Perm l₂) (n : ℕ) : above key l₁ n = above key l₂ n :=
  h.countP_eq _

theorem above_cons_self (a : α) (l : List α) : above key (a :: l) (key a) = above key l (key a) :=
  List.countP_cons_of_neg (by simp)

/-- Two sorted lists of the same entries have the same keys at the same places. -/
theorem Ranked.map_key_eq (h₁ : Ranked key l₁) (h₂ : Ranked key l₂) (h : l₁.Perm l₂) :
    l₁.map key = l₂.map key := by
  have hk₁ : (l₁.map key).Pairwise (fun m n => n ≤ m) := List.pairwise_map.mpr h₁
  have hk₂ : (l₂.map key).Pairwise (fun m n => n ≤ m) := List.pairwise_map.mpr h₂
  exact List.Perm.eq_of_pairwise (fun m n _ _ hnm hmn => le_antisymm hmn hnm) hk₁ hk₂ (h.map key)

theorem above_eq_zero {n : ℕ} (h : ∀ x ∈ l, key x ≤ n) : above key l n = 0 :=
  List.countP_eq_zero.mpr fun x hx => by simpa using h x hx

theorem Ranked.length_takeWhile (h : Ranked key l) (n : ℕ) :
    (l.takeWhile fun x => decide (n < key x)).length = above key l n := by
  induction l with
  | nil => rfl
  | cons b l ih =>
    obtain ⟨hb, hl⟩ := List.pairwise_cons.mp h
    by_cases hn : n < key b
    · rw [List.takeWhile_cons_of_pos (by simpa using hn), List.length_cons, ih hl, above, above,
        List.countP_cons_of_pos (by simpa using hn)]
    · have hle : ∀ x ∈ b :: l, key x ≤ n := by
        intro x hx
        rcases List.mem_cons.mp hx with rfl | hx
        · omega
        · exact le_trans (hb x hx) (by omega)
      rw [List.takeWhile_cons_of_neg (by simpa using hn), above_eq_zero hle]
      rfl

theorem Ranked.above_le (h : Ranked key l) {i : ℕ} (hi : l[i]? = some a) :
    above key l (key a) ≤ i := by
  induction l generalizing i with
  | nil => cases hi
  | cons b l ih =>
    obtain ⟨hb, hl⟩ := List.pairwise_cons.mp h
    cases i with
    | zero =>
      cases hi
      rw [above_cons_self, above_eq_zero hb]
    | succ i =>
      have hle := ih hl hi
      rw [above, List.countP_cons]
      unfold above at hle
      split_ifs <;> omega

variable (key) in
theorem exists_ranked_at (ha : a ∈ l) :
    ∃ l', l'.Perm l ∧ Ranked key l' ∧ l'[above key l (key a)]? = some a := by
  obtain ⟨s, t, rfl⟩ := List.append_of_mem ha
  have hperm : (s ++ a :: t).Perm (a :: (s ++ t)) := List.perm_middle
  have hrest := (insertion key).ranked (s ++ t)
  refine ⟨(insertion key).sort (a :: (s ++ t)), ((insertion key).perm _).trans hperm.symm,
    (insertion key).ranked _, ?_⟩
  have hplace : above key (s ++ a :: t) (key a) =
      (((insertion key).sort (s ++ t)).takeWhile fun x => decide (key a < key x)).length := by
    rw [hrest.length_takeWhile, above_perm hperm, above_cons_self,
      above_perm ((insertion key).perm (s ++ t))]
  have hsort : (insertion key).sort (a :: (s ++ t)) =
      ((insertion key).sort (s ++ t)).takeWhile (fun x => decide (key a < key x)) ++
        a :: ((insertion key).sort (s ++ t)).dropWhile (fun x => decide (key a < key x)) := by
    show List.insertionSort (Before key) (a :: (s ++ t)) = _
    rw [List.insertionSort_cons_eq_take_drop]
    simp only [Before, not_le]
    rfl
  rw [hsort, hplace, List.getElem?_append_right le_rfl, Nat.sub_self]
  rfl

end Ranked

/-- The images of a list can be put into any order by a reordering of the list. -/
theorem exists_perm_filterMap (f : α → Option β) {l : List α} {m : List β}
    (h : m.Perm (l.filterMap f)) : ∃ l' : List α, l'.Perm l ∧ l'.filterMap f = m := by
  induction m generalizing l with
  | nil => exact ⟨l, .refl l, h.symm.eq_nil⟩
  | cons b m ih =>
    obtain ⟨a, ha, hab⟩ := List.mem_filterMap.mp (h.subset List.mem_cons_self)
    obtain ⟨s, t, rfl⟩ := List.append_of_mem ha
    have hmove : (s ++ a :: t).Perm (a :: (s ++ t)) := List.perm_middle
    have hrest := h.trans (hmove.filterMap f)
    rw [List.filterMap_cons_some hab] at hrest
    obtain ⟨l', hl', hmap⟩ := ih hrest.cons_inv
    refine ⟨a :: l', (hl'.cons a).trans hmove.symm, ?_⟩
    rw [List.filterMap_cons_some hab, hmap]

/-! ## The first entries -/

section Top

variable {key} {l : List α}

/-- The first entries of the sorted list, as a function sees them. -/
def top (s : Sorter key) (n : ℕ) (f : α → β) (l : List α) : List β :=
  ((s.sort l).take n).map f

/-- **The first `n` entries are the same for every order of the list exactly when the entries of
each key that fewer than `n` entries stand above look the same.** -/
theorem top_eq_iff (s : Sorter key) (n : ℕ) (f : α → β) :
    (∀ l₁ l₂, l₁.Perm l → l₂.Perm l → top s n f l₁ = top s n f l₂) ↔
      ∀ a ∈ l, ∀ b ∈ l, key a = key b → above key l (key a) < n → f a = f b := by
  constructor
  · intro h a ha b hb hkey hlt
    obtain ⟨l₁, hp₁, hr₁, ha₁⟩ := exists_ranked_at key ha
    obtain ⟨l₂, hp₂, hr₂, hb₂⟩ := exists_ranked_at key hb
    have htop := h l₁ l₂ hp₁ hp₂
    unfold top at htop
    rw [s.fixed l₁ hr₁, s.fixed l₂ hr₂] at htop
    have hat := congrArg (fun l => l[above key l₁ (key a)]?) htop
    rw [← hkey] at hb₂
    simpa [List.getElem?_take, above_perm hp₁, hlt, ha₁, hb₂] using hat
  · intro h l₁ l₂ hp₁ hp₂
    have hs₁ := (s.perm l₁).trans hp₁
    have hs₂ := (s.perm l₂).trans hp₂
    have hkeys := Ranked.map_key_eq (s.ranked l₁) (s.ranked l₂) (hs₁.trans hs₂.symm)
    apply List.ext_getElem?
    intro i
    have hat := congrArg (fun l => l[i]?) hkeys
    simp only [List.getElem?_map] at hat
    simp only [top, List.getElem?_map, List.getElem?_take]
    split_ifs with hi
    · cases ha : (s.sort l₁)[i]? with
      | none =>
        rw [ha] at hat
        rw [Option.map_eq_none_iff.mp hat.symm]
      | some a =>
        rw [ha] at hat
        obtain ⟨b, hb, hkey⟩ := Option.map_eq_some_iff.mp hat.symm
        have hfew := (s.ranked l₁).above_le ha
        rw [above_perm hs₁] at hfew
        rw [hb, Option.map_some, Option.map_some,
          h a (hs₁.mem_iff.mp (List.mem_of_getElem? ha)) b (hs₂.mem_iff.mp (List.mem_of_getElem? hb))
            hkey.symm (by omega)]
    · rfl

theorem exists_head_top_iff (s : Sorter key) (n : ℕ) (f : α → β) (b : β) :
    (∃ l', l'.Perm l ∧ (top s (n + 1) f l').head? = some b) ↔
      ∃ a ∈ l, above key l (key a) = 0 ∧ f a = b := by
  constructor
  · rintro ⟨l', hp, hhead⟩
    rw [top, List.head?_map, List.head?_take, if_neg (Nat.succ_ne_zero n)] at hhead
    obtain ⟨a, ha, rfl⟩ := Option.map_eq_some_iff.mp hhead
    rw [List.head?_eq_getElem?] at ha
    have hperm := (s.perm l').trans hp
    have hfirst := (s.ranked l').above_le ha
    rw [above_perm hperm] at hfirst
    exact ⟨a, hperm.mem_iff.mp (List.mem_of_getElem? ha), Nat.le_zero.mp hfirst, rfl⟩
  · rintro ⟨a, ha, hnone, rfl⟩
    obtain ⟨l', hp, hr, hat⟩ := exists_ranked_at key ha
    rw [hnone, ← List.head?_eq_getElem?] at hat
    refine ⟨l', hp, ?_⟩
    rw [top, s.fixed l' hr, List.head?_map, List.head?_take, if_neg (Nat.succ_ne_zero n), hat]
    rfl

/-- The number of entries that look different and may stand in front. -/
def rivals [DecidableEq β] (key : α → ℕ) (f : α → β) (l : List α) (a : α) : ℕ :=
  l.countP fun x => decide (f x ≠ f a ∧ key a ≤ key x)

/-- **What is among the first `n` entries in every order** is what an entry with fewer than `n`
rivals looks like. -/
theorem mem_top_iff [DecidableEq β] (s : Sorter key) (n : ℕ) (f : α → β) (b : β) :
    (∀ l', l'.Perm l → b ∈ top s n f l') ↔ ∃ a ∈ l, f a = b ∧ rivals key f l a < n := by
  constructor
  · intro hall
    -- the order that puts what looks like `b` last among the entries of its key
    set key' : α → ℕ := fun x => 2 * key x + if f x = b then 0 else 1 with hkey'
    have hp := (insertion key').perm l
    have hr' := (insertion key').ranked l
    set r := (insertion key').sort l
    have hr : Ranked key r := by
      refine hr'.imp fun {x y} hxy => ?_
      simp only [Before, hkey'] at hxy ⊢
      split_ifs at hxy <;> omega
    have hmem := hall r hp
    rw [top, s.fixed r hr] at hmem
    obtain ⟨a, ha, rfl⟩ := List.mem_map.mp hmem
    obtain ⟨i, hi⟩ := List.mem_iff_getElem?.mp ha
    rw [List.getElem?_take] at hi
    split_ifs at hi with hlt
    refine ⟨a, hp.mem_iff.mp (List.mem_of_getElem? hi), rfl, ?_⟩
    have habove := hr'.above_le hi
    have hle : rivals key f r a ≤ above key' r (key' a) := by
      refine List.countP_mono_left fun x _ hx => ?_
      obtain ⟨hne, hge⟩ := of_decide_eq_true hx
      simp only [hkey', if_neg hne, if_true, decide_eq_true_eq]
      omega
    have heq : rivals key f l a = rivals key f r a := hp.symm.countP_eq _
    omega
  · rintro ⟨a, ha, rfl, hfew⟩ l' hp
    have hperm := (s.perm l').trans hp
    by_contra hnot
    rw [top] at hnot
    have hsplit := List.take_append_drop n (s.sort l')
    have hdrop : a ∈ (s.sort l').drop n := by
      have hmem := hperm.mem_iff.mpr ha
      rw [← hsplit, List.mem_append] at hmem
      exact hmem.resolve_left fun htake => hnot (List.mem_map_of_mem htake)
    have hranked := s.ranked l'
    rw [← hsplit] at hranked
    -- the first entries all look different and stand in front
    have hfull : ((s.sort l').take n).countP (fun x => decide (f x ≠ f a ∧ key a ≤ key x)) = n := by
      rw [List.countP_eq_length.mpr fun x hx => decide_eq_true
        ⟨fun he => hnot (he ▸ List.mem_map_of_mem hx),
          (List.pairwise_append.mp hranked).2.2 x hx a hdrop⟩, List.length_take]
      have hlen := List.length_pos_of_mem hdrop
      rw [List.length_drop] at hlen
      omega
    have hle := (List.take_sublist n (s.sort l')).countP_le
      (p := fun x => decide (f x ≠ f a ∧ key a ≤ key x))
    rw [hfull, hperm.countP_eq] at hle
    unfold rivals at hfew
    omega

end Top

/-! ## The greatest entry -/

section FirstMax

variable {key} {l : List α}

/-- The loop that keeps the first entry of the greatest key. -/
def firstMax (key : α → ℕ) (l : List α) : Option α :=
  l.foldl (fun best x =>
    match best with
    | none => some x
    | some b => if key b < key x then some x else some b) none

theorem firstMax_cons (a : α) (l : List α) :
    firstMax key (a :: l) =
      some ((firstMax key l).elim a fun m => if key a < key m then m else a) := by
  induction l generalizing a with
  | nil => rfl
  | cons b l ih =>
    have hstep : firstMax key (a :: b :: l) =
        firstMax key ((if key a < key b then b else a) :: l) := by
      unfold firstMax
      simp only [List.foldl_cons]
      rw [apply_ite some]
    rw [hstep, ih, ih b]
    cases firstMax key l with
    | none => rfl
    | some m =>
      simp only [Option.elim_some, Option.some.injEq]
      grind

theorem firstMax_eq_head (l : List α) : firstMax key l = ((insertion key).sort l).head? := by
  induction l with
  | nil => rfl
  | cons a l ih =>
    have hsort : (insertion key).sort (a :: l) =
        ((insertion key).sort l).orderedInsert (Before key) a := rfl
    rw [firstMax_cons, ih, hsort]
    cases (insertion key).sort l with
    | nil => rfl
    | cons m rest =>
      rw [List.orderedInsert_cons]
      by_cases hlt : key a < key m
      · have hnot : ¬ Before key a m := not_le.mpr hlt
        simp [hlt, hnot]
      · have hbefore : Before key a m := not_lt.mp hlt
        simp [hlt, hbefore]

/-- **The first entry of the greatest key is the same for every order of the list exactly when the
entries of that key are the same.** -/
theorem firstMax_eq_iff :
    (∀ l₁ l₂, l₁.Perm l → l₂.Perm l → firstMax key l₁ = firstMax key l₂) ↔
      ∀ a ∈ l, ∀ b ∈ l, key a = key b → above key l (key a) = 0 → a = b := by
  have htop : ∀ l, top (insertion key) 1 id l = (firstMax key l).toList := by
    intro l
    rw [firstMax_eq_head, top, List.map_id]
    cases (insertion key).sort l <;> rfl
  have hinj : ∀ o o' : Option α, o.toList = o'.toList ↔ o = o' := by
    intro o o'
    cases o <;> cases o' <;> simp
  have hiff := top_eq_iff (l := l) (insertion key) 1 id
  simpa only [Nat.lt_one_iff, id_eq, htop, hinj] using hiff

theorem exists_firstMax_iff {a : α} :
    (∃ l', l'.Perm l ∧ firstMax key l' = some a) ↔ a ∈ l ∧ above key l (key a) = 0 := by
  have hhead : ∀ l', firstMax key l' = (top (insertion key) (0 + 1) id l').head? := by
    intro l'
    rw [firstMax_eq_head, top, List.map_id, List.head?_take, if_neg (Nat.succ_ne_zero 0)]
  simp only [hhead, exists_head_top_iff, id_eq, exists_eq_right_right]

end FirstMax

end Ranking
