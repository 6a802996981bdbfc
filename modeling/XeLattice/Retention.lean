import Mathlib.Data.Finset.Card
import Mathlib.Data.List.Sort
import Mathlib.Tactic.Common

/-!
# Keeping the latest entries

A list of bounded length, sorted by a key that need not be unique, into which entries are put one
after the other: a full list refuses an entry that is not later than its oldest, and otherwise gives
its oldest up.

* **`feed_eq_iff`**: when what is kept and which entry is last do not depend on the order.
-/

set_option autoImplicit false

namespace Retention

variable {α : Type} (key : α → ℤ) (n : ℕ)

/-- An entry may stand in front of one that is not older. -/
def Older (a b : α) : Prop :=
  key a ≤ key b

instance : DecidableRel (Older key) :=
  fun a b => inferInstanceAs (Decidable (key a ≤ key b))

instance : Std.Total (Older key) :=
  ⟨fun a b => le_total (key a) (key b)⟩

instance : IsTrans α (Older key) :=
  ⟨fun _ _ _ hab hbc => le_trans hab hbc⟩

/-- The list is full, and the entry is not later than its first one. -/
def refuses (l : List α) (x : α) : Bool :=
  match l with
  | [] => false
  | y :: _ => n ≤ l.length && key x ≤ key y

/-- The entry takes its place in the list, behind those of its key. -/
def sorted (l : List α) (x : α) : List α :=
  List.insertionSort (Older key) (l ++ [x])

theorem perm_sorted (l : List α) (x : α) : (sorted key l x).Perm (x :: l) :=
  (List.perm_insertionSort (Older key) (l ++ [x])).trans (List.perm_append_singleton x l)

theorem ordered_sorted (l : List α) (x : α) : (sorted key l x).Pairwise (Older key) :=
  List.pairwise_insertionSort (Older key) (l ++ [x])

theorem length_sorted (l : List α) (x : α) : (sorted key l x).length = l.length + 1 :=
  (perm_sorted key l x).length_eq

theorem sorted_of_latest {l : List α} {x : α} (hl : l.Pairwise (Older key))
    (hx : ∀ y ∈ l, key y ≤ key x) : sorted key l x = l ++ [x] := by
  refine List.Pairwise.insertionSort_eq (List.pairwise_append.mpr ⟨hl, by simp, ?_⟩)
  intro y hy w hw
  rw [List.mem_singleton.mp hw]
  exact hx y hy

section Feed

variable [DecidableEq α]

/-- Takes an entry, or refuses it. -/
def put (l : List α) (x : α) : List α :=
  if x ∈ l then l
  else if refuses key n l x then l
  else (sorted key l x).drop ((sorted key l x).length - n)

/-- Takes entries one after the other. -/
def feed (l : List α) (xs : List α) : List α :=
  xs.foldl (put key n) l

theorem feed_append (l xs ys : List α) :
    feed key n l (xs ++ ys) = feed key n (feed key n l xs) ys :=
  List.foldl_append

end Feed

/-! ## Lists that were fed -/

/-- What a list that was fed the entries `F` is like. -/
structure Kept (F : Finset α) (l : List α) : Prop where
  ordered : l.Pairwise (Older key)
  nodup : l.Nodup
  mem : ∀ x ∈ l, x ∈ F
  length_le : l.length ≤ n
  all : l.length < n → ∀ x ∈ F, x ∈ l
  latest : ∀ x ∈ F, x ∉ l → ∀ y ∈ l, key x ≤ key y

section Put

variable {key n} {F : Finset α} {l : List α} {x : α}

theorem kept_nil (key : α → ℤ) (n : ℕ) : Kept key n ∅ [] :=
  ⟨.nil, List.nodup_nil, by simp, Nat.zero_le _, by simp, by simp⟩

variable [DecidableEq α]

/-- The three things that can happen to an entry: it is there or refused, it is added, or it is added
for an older one. -/
theorem put_cases (hl : l.Pairwise (Older key)) (hlen : l.length ≤ n) (hn : 0 < n) (x : α) :
    (put key n l x = l ∧ (x ∈ l ∨ l.length = n ∧ ∀ y ∈ l, key x ≤ key y)) ∨
      (x ∉ l ∧ l.length < n ∧ put key n l x = sorted key l x) ∨
      (x ∉ l ∧ l.length = n ∧ ∃ z ∈ l, key z < key x ∧ (∀ y ∈ x :: l, key z ≤ key y) ∧
        sorted key l x = z :: put key n l x) := by
  by_cases hx : x ∈ l
  · exact .inl ⟨if_pos hx, .inl hx⟩
  by_cases hr : refuses key n l x
  · refine .inl ⟨by rw [put, if_neg hx, if_pos hr], .inr ?_⟩
    cases l with
    | nil => cases hr
    | cons y l =>
      simp only [refuses, Bool.and_eq_true, decide_eq_true_eq] at hr
      refine ⟨le_antisymm hlen hr.1, fun w hw => ?_⟩
      rcases List.mem_cons.mp hw with rfl | hw
      · exact hr.2
      · exact hr.2.trans ((List.pairwise_cons.mp hl).1 w hw)
  have hput : put key n l x = (sorted key l x).drop ((sorted key l x).length - n) := by
    rw [put, if_neg hx, if_neg hr]
  rcases hlen.lt_or_eq with hlt | heq
  · refine .inr (.inl ⟨hx, hlt, ?_⟩)
    rw [hput, length_sorted, show l.length + 1 - n = 0 by omega, List.drop_zero]
  · refine .inr (.inr ⟨hx, heq, ?_⟩)
    -- The list is full and its first entry is older than the new one.
    obtain ⟨y, rest, rfl⟩ := List.exists_cons_of_length_pos (heq ▸ hn)
    have hy : key y < key x := by
      simp only [refuses, Bool.and_eq_true, decide_eq_true_eq, not_and, not_le] at hr
      exact hr heq.ge
    obtain ⟨z, m, hm⟩ := List.exists_cons_of_length_pos
      (show 0 < (sorted key (y :: rest) x).length by rw [length_sorted]; omega)
    have hperm := perm_sorted key (y :: rest) x
    have hord := ordered_sorted key (y :: rest) x
    rw [hm] at hperm hord
    have hfirst : ∀ w ∈ x :: y :: rest, key z ≤ key w := by
      intro w hw
      rcases List.mem_cons.mp (hperm.mem_iff.mpr hw) with rfl | hw
      · exact le_rfl
      · exact (List.pairwise_cons.mp hord).1 w hw
    have hzx : key z < key x := lt_of_le_of_lt (hfirst y (by simp)) hy
    have hz : z ∈ y :: rest := by
      rcases List.mem_cons.mp (hperm.mem_iff.mp List.mem_cons_self) with rfl | hz
      · exact absurd hzx (lt_irrefl _)
      · exact hz
    refine ⟨z, hz, hzx, hfirst, ?_⟩
    rw [hput, length_sorted, heq, Nat.add_sub_cancel_left, hm, List.drop_one, List.tail_cons]

theorem Kept.put (h : Kept key n F l) (hn : 0 < n) (x : α) :
    Kept key n (insert x F) (put key n l x) := by
  rcases put_cases h.ordered h.length_le hn x with ⟨heq, hwhy⟩ | ⟨hx, hlt, heq⟩ |
    ⟨hx, hfull, z, hz, hzx, hfirst, heq⟩
  · rw [heq]
    refine ⟨h.ordered, h.nodup, fun y hy => Finset.mem_insert_of_mem (h.mem y hy), h.length_le,
      fun hlt y hy => ?_, fun y hy hyl w hw => ?_⟩
    · rcases Finset.mem_insert.mp hy with rfl | hy
      · exact hwhy.resolve_right fun hfull => absurd hfull.1 hlt.ne
      · exact h.all hlt y hy
    · rcases Finset.mem_insert.mp hy with rfl | hy
      · exact (hwhy.resolve_left hyl).2 w hw
      · exact h.latest y hy hyl w hw
  · have hperm := perm_sorted key l x
    rw [heq]
    refine ⟨ordered_sorted key l x, hperm.nodup_iff.mpr (List.nodup_cons.mpr ⟨hx, h.nodup⟩),
      fun y hy => ?_, by rw [length_sorted]; omega, fun _ y hy => ?_, fun y hy hyl => ?_⟩
    · rcases List.mem_cons.mp (hperm.mem_iff.mp hy) with rfl | hy
      · exact Finset.mem_insert_self _ _
      · exact Finset.mem_insert_of_mem (h.mem y hy)
    all_goals
      have hin : y ∈ sorted key l x := hperm.mem_iff.mpr (by
        rcases Finset.mem_insert.mp hy with rfl | hy
        · exact List.mem_cons_self
        · exact List.mem_cons_of_mem _ (h.all hlt y hy))
    · exact hin
    · exact absurd hin hyl
  · have hperm := perm_sorted key l x
    have hord := ordered_sorted key l x
    have hnodup : (sorted key l x).Nodup :=
      hperm.nodup_iff.mpr (List.nodup_cons.mpr ⟨hx, h.nodup⟩)
    have hlen := length_sorted key l x
    rw [heq] at hperm hord hnodup hlen
    have hsub : ∀ y ∈ Retention.put key n l x, y = x ∨ y ∈ l := fun y hy =>
      List.mem_cons.mp (hperm.mem_iff.mp (List.mem_cons_of_mem z hy))
    refine ⟨(List.pairwise_cons.mp hord).2, (List.nodup_cons.mp hnodup).2, fun y hy => ?_,
      by rw [List.length_cons] at hlen; omega,
      fun hlt => by rw [List.length_cons] at hlen; omega, fun y hy hyl w hw => ?_⟩
    · rcases hsub y hy with rfl | hy
      · exact Finset.mem_insert_self _ _
      · exact Finset.mem_insert_of_mem (h.mem y hy)
    · have hzw : key z ≤ key w := hfirst w (List.mem_cons.mpr (hsub w hw))
      by_cases hyz : y = z
      · exact hyz ▸ hzw
      · -- An entry that was absent before is not later than the one that is given up.
        have hyl' : y ∉ l := fun hmem =>
          (List.mem_cons.mp (hperm.mem_iff.mpr (List.mem_cons_of_mem x hmem))).elim hyz hyl
        have hyx : y ≠ x := by
          rintro rfl
          exact (List.mem_cons.mp (hperm.mem_iff.mpr List.mem_cons_self)).elim hyz hyl
        have hyF : y ∈ F := Finset.mem_of_mem_insert_of_ne hy hyx
        exact (h.latest y hyF hyl' z hz).trans hzw

theorem Kept.feed (h : Kept key n F l) (hn : 0 < n) (xs : List α) :
    Kept key n (F ∪ xs.toFinset) (feed key n l xs) := by
  induction xs generalizing F l with
  | nil => simpa [Retention.feed] using h
  | cons x xs ih =>
    have hstep := ih (h.put hn x)
    rwa [Finset.insert_union, ← Finset.union_insert, ← List.toFinset_cons] at hstep

theorem kept_feed (key : α → ℤ) (hn : 0 < n) (xs : List α) :
    Kept key n xs.toFinset (feed key n [] xs) := by
  have h := (kept_nil key n).feed hn xs
  rwa [Finset.empty_union] at h

end Put

/-! ## Which entries are kept -/

/-- How many entries are later. -/
def later (S : Finset α) (x : α) : ℕ :=
  (S.filter fun y => key x < key y).card

/-- The number of entries that are not older, itself included. -/
def atLeast (S : Finset α) (x : α) : ℕ :=
  (S.filter fun y => key x ≤ key y).card

/-- **The latest entry is the only one of its key, and entries of one key are not on both sides of
the bound.** -/
def Separated (S : Finset α) : Prop :=
  ∀ x ∈ S, (later key S x = 0 → atLeast key S x ≤ 1) ∧ (later key S x < n → atLeast key S x ≤ n)

section Separated

variable {key n} [DecidableEq α] {S F : Finset α} {l : List α} {x e : α}

theorem separated_of_injOn (h : Set.InjOn key S) : Separated key n S := by
  intro x hx
  have hsplit : (S.filter fun y => key x ≤ key y) = insert x (S.filter fun y => key x < key y) := by
    ext y
    simp only [Finset.mem_filter, Finset.mem_insert]
    constructor
    · rintro ⟨hy, hle⟩
      rcases hle.eq_or_lt with heq | hlt
      · exact .inl (h hy hx heq.symm)
      · exact .inr ⟨hy, hlt⟩
    · rintro (rfl | ⟨hy, hlt⟩)
      · exact ⟨hx, le_rfl⟩
      · exact ⟨hy, hlt.le⟩
  have hle : atLeast key S x ≤ later key S x + 1 := by
    rw [atLeast, later, hsplit]
    exact Finset.card_insert_le _ _
  constructor <;> intro hlater <;> omega

theorem Kept.card (h : Kept key n F l) : l.toFinset.card = l.length :=
  List.toFinset_card_of_nodup h.nodup

theorem Kept.subset (h : Kept key n F l) : l.toFinset ⊆ F :=
  fun x hx => h.mem x (List.mem_toFinset.mp hx)

/-- What is kept of separated entries: those with fewer later ones than the bound. -/
theorem Kept.mem_iff (h : Kept key n S l) (hs : Separated key n S) :
    x ∈ l ↔ x ∈ S ∧ later key S x < n := by
  constructor
  · intro hx
    refine ⟨h.mem x hx, ?_⟩
    -- Every later entry is kept as well, beside `x` itself.
    have hsub : insert x (S.filter fun y => key x < key y) ⊆ l.toFinset := by
      intro y hy
      rcases Finset.mem_insert.mp hy with rfl | hy
      · exact List.mem_toFinset.mpr hx
      · obtain ⟨hyS, hlt⟩ := Finset.mem_filter.mp hy
        by_contra hyl
        have hle := h.latest y hyS (fun hmem => hyl (List.mem_toFinset.mpr hmem)) x hx
        omega
    have hcard := Finset.card_le_card hsub
    rw [Finset.card_insert_of_notMem (by simp), h.card] at hcard
    have := h.length_le
    rw [later]
    omega
  · rintro ⟨hx, hlater⟩
    by_contra hxl
    -- The list is full of entries that are not older than `x`.
    have hsub : insert x l.toFinset ⊆ S.filter fun y => key x ≤ key y := by
      intro y hy
      rcases Finset.mem_insert.mp hy with rfl | hy
      · exact Finset.mem_filter.mpr ⟨hx, le_rfl⟩
      · have hyl := List.mem_toFinset.mp hy
        exact Finset.mem_filter.mpr ⟨h.mem y hyl, h.latest x hx hxl y hyl⟩
    have hcard := Finset.card_le_card hsub
    rw [Finset.card_insert_of_notMem (fun hmem => hxl (List.mem_toFinset.mp hmem)), h.card] at hcard
    have hfull : n ≤ l.length := Nat.le_of_not_lt fun hlt => hxl (h.all hlt x hx)
    have hle := (hs x hx).2 hlater
    rw [atLeast] at hle
    omega

theorem Kept.later_last (h : Kept key n S l) (hx : l.getLast? = some x) : later key S x = 0 := by
  obtain ⟨m, rfl⟩ := List.getLast?_eq_some_iff.mp hx
  rw [later, Finset.card_eq_zero, Finset.filter_eq_empty_iff]
  intro y hy
  rw [not_lt]
  by_cases hyl : y ∈ m ++ [x]
  · rcases List.mem_append.mp hyl with hym | hyx
    · exact (List.pairwise_append.mp h.ordered).2.2 y hym x (List.mem_singleton_self x)
    · rw [List.mem_singleton.mp hyx]
  · exact h.latest y hy hyl x (by simp)

theorem Kept.getLast?_eq {l' : List α} (h : Kept key n S l) (h' : Kept key n S l')
    (hs : Separated key n S) : l.getLast? = l'.getLast? := by
  have hmem : ∀ y, y ∈ l ↔ y ∈ l' := fun y => (h.mem_iff hs).trans (h'.mem_iff hs).symm
  rcases hx : l.getLast? with _ | x
  · rw [List.getLast?_eq_none_iff] at hx
    subst hx
    have hnil : l' = [] := List.eq_nil_iff_forall_not_mem.mpr fun y hy => by
      simpa using (hmem y).mpr hy
    rw [hnil, List.getLast?_nil]
  · rcases hy : l'.getLast? with _ | y
    · rw [List.getLast?_eq_none_iff] at hy
      subst hy
      exact absurd ((hmem x).mp (List.mem_of_getLast? hx)) List.not_mem_nil
    · -- Neither is later than the other, and the latest is the only one of its key.
      have hxS := h.mem x (List.mem_of_getLast? hx)
      have hyS := h'.mem y (List.mem_of_getLast? hy)
      have hxl := h.later_last hx
      have hyl := h'.later_last hy
      have hle : key x ≤ key y := by
        rw [later, Finset.card_eq_zero, Finset.filter_eq_empty_iff] at hyl
        exact not_lt.mp (hyl hxS)
      have hone := (hs x hxS).1 hxl
      rw [atLeast, Finset.card_le_one] at hone
      rw [hone x (Finset.mem_filter.mpr ⟨hxS, le_rfl⟩) y (Finset.mem_filter.mpr ⟨hyS, hle⟩)]

/-! ## Orders that disagree -/

theorem Kept.mem_put (h : Kept key n F l) (hn : 0 < n) (he : e ∈ l) (hx : key x ≤ key e) :
    e ∈ Retention.put key n l x := by
  rcases put_cases h.ordered h.length_le hn x with ⟨heq, -⟩ | ⟨-, -, heq⟩ |
    ⟨-, -, z, -, hzx, -, heq⟩
  · rwa [heq]
  · rw [heq]
    exact (perm_sorted key l x).mem_iff.mpr (List.mem_cons_of_mem x he)
  · have hperm := perm_sorted key l x
    rw [heq] at hperm
    rcases List.mem_cons.mp (hperm.mem_iff.mpr (List.mem_cons_of_mem x he)) with rfl | he
    · omega
    · exact he

theorem Kept.mem_feed (h : Kept key n F l) (hn : 0 < n) (he : e ∈ l) {xs : List α}
    (hxs : ∀ x ∈ xs, key x ≤ key e) : e ∈ Retention.feed key n l xs := by
  induction xs generalizing F l with
  | nil => exact he
  | cons x xs ih =>
    exact ih (h.put hn x) (h.mem_put hn he (hxs x List.mem_cons_self))
      fun y hy => hxs y (List.mem_cons_of_mem x hy)

/-- A full list of entries that are not older than `e` refuses what is not later than `e`. -/
theorem Kept.feed_eq (h : Kept key n F l) (hn : 0 < n) (hfull : l.length = n)
    (hl : ∀ y ∈ l, key e ≤ key y) {xs : List α} (hxs : ∀ x ∈ xs, key x ≤ key e) :
    Retention.feed key n l xs = l := by
  induction xs with
  | nil => rfl
  | cons x xs ih =>
    have hx := hxs x List.mem_cons_self
    have hput : Retention.put key n l x = l := by
      rcases put_cases h.ordered h.length_le hn x with ⟨heq, -⟩ | ⟨-, hlt, -⟩ |
        ⟨-, -, z, hz, hzx, -, -⟩
      · exact heq
      · omega
      · have := hl z hz
        omega
    have hrest := ih fun y hy => hxs y (List.mem_cons_of_mem x hy)
    rwa [Retention.feed, List.foldl_cons, hput]

theorem Kept.mem_of_card_le (h : Kept key n F l) (hF : F.card ≤ n) (hx : x ∈ F) : x ∈ l := by
  rcases h.length_le.lt_or_eq with hlt | heq
  · exact h.all hlt x hx
  · have hsame : l.toFinset = F := Finset.eq_of_subset_of_card_le h.subset (by rw [h.card]; omega)
    rw [← hsame] at hx
    exact List.mem_toFinset.mp hx

theorem Kept.length_eq (h : Kept key n F l) (hF : n ≤ F.card) : l.length = n := by
  refine le_antisymm h.length_le (Nat.le_of_not_lt fun hlt => ?_)
  have hsub : F ⊆ l.toFinset := fun x hx => List.mem_toFinset.mpr (h.all hlt x hx)
  have hcard := Finset.card_le_card hsub
  rw [h.card] at hcard
  omega

theorem Kept.getLast?_put (h : Kept key n F l) (hn : 0 < n) (he : e ∉ F)
    (hlatest : ∀ y ∈ F, key y ≤ key e) (hroom : atLeast key F e < n) :
    (Retention.put key n l e).getLast? = some e := by
  have hsorted : sorted key l e = l ++ [e] :=
    sorted_of_latest key h.ordered fun y hy => hlatest y (h.mem y hy)
  rcases put_cases h.ordered h.length_le hn e with ⟨-, hel | ⟨hfull, hl⟩⟩ | ⟨-, -, heq⟩ |
    ⟨-, hfull, z, -, -, -, heq⟩
  · exact absurd (h.mem e hel) he
  · have hsub : l.toFinset ⊆ F.filter fun y => key e ≤ key y := fun y hy =>
      Finset.mem_filter.mpr ⟨h.subset hy, hl y (List.mem_toFinset.mp hy)⟩
    have hcard := Finset.card_le_card hsub
    rw [h.card, hfull] at hcard
    exact absurd hroom (Nat.not_lt.mpr hcard)
  · rw [heq, hsorted, List.getLast?_append]
    rfl
  · have hlen := length_sorted key l e
    rw [heq, List.length_cons] at hlen
    have hne : Retention.put key n l e ≠ [] := List.ne_nil_of_length_pos (by omega)
    have hlast : (z :: Retention.put key n l e).getLast? = some e := by
      rw [← heq, hsorted, List.getLast?_append]
      rfl
    rwa [List.getLast?_cons_of_ne_nil hne] at hlast

/-- An entry with too many of its key at the bound is kept or not, as the order has it. -/
theorem exists_feed_mem_notMem (hn : 0 < n) {c : α} (hc : c ∈ S) (hlater : later key S c < n)
    (hmany : n < atLeast key S c) :
    ∃ xs ys : List α, xs.toFinset = S ∧ ys.toFinset = S ∧ c ∈ Retention.feed key n [] xs ∧
      c ∉ Retention.feed key n [] ys := by
  -- The later entries, the others of its key, and the older ones.
  let L := S.filter fun y => key c < key y
  let E := (S.filter fun y => key y = key c).erase c
  let R := S.filter fun y => key y < key c
  have hL : ∀ y, y ∈ L ↔ y ∈ S ∧ key c < key y := fun y => Finset.mem_filter
  have hE : ∀ y, y ∈ E ↔ y ≠ c ∧ y ∈ S ∧ key y = key c := fun y => by
    simp only [E, Finset.mem_erase, Finset.mem_filter]
  have hR : ∀ y, y ∈ R ↔ y ∈ S ∧ key y < key c := fun y => Finset.mem_filter
  have hcL : c ∉ L := fun h => lt_irrefl _ ((hL c).mp h).2
  have hall : ∀ y, y ∈ S ↔ y ∈ L ∨ y = c ∨ y ∈ E ∨ y ∈ R := by
    intro y
    rw [hL, hE, hR]
    rcases lt_trichotomy (key y) (key c) with h | h | h
    · have hne : y ≠ c := fun heq => by rw [heq] at h; exact lt_irrefl _ h
      simp only [h, h.not_gt, h.ne, hne, and_false, and_true, false_or]
    · by_cases hyc : y = c
      · simp only [hyc, hc, true_or, or_true]
      · simp only [h, hyc, lt_irrefl, and_false, and_true, false_or, or_false, ne_eq,
          not_false_eq_true, true_and]
    · have hne : y ≠ c := fun heq => by rw [heq] at h; exact lt_irrefl _ h
      simp only [h, h.not_gt, h.ne', hne, and_false, and_true, or_false]
  refine ⟨L.toList ++ [c] ++ (E.toList ++ R.toList), L.toList ++ E.toList ++ (c :: R.toList),
    ?_, ?_, ?_, ?_⟩
  · ext y
    simp only [List.mem_toFinset, List.mem_append, Finset.mem_toList, List.mem_singleton, hall]
    tauto
  · ext y
    simp only [List.mem_toFinset, List.mem_append, List.mem_cons, Finset.mem_toList, hall]
    tauto
  · rw [feed_append]
    have hkept := kept_feed key hn (L.toList ++ [c])
    have hset : (L.toList ++ [c]).toFinset = insert c L := by
      ext y
      simp only [List.mem_toFinset, List.mem_append, Finset.mem_toList, List.mem_singleton,
        Finset.mem_insert]
      tauto
    rw [hset] at hkept
    have hin := hkept.mem_of_card_le (by rw [Finset.card_insert_of_notMem hcL]; exact hlater)
      (Finset.mem_insert_self c L)
    refine hkept.mem_feed hn hin fun x hx => ?_
    rcases List.mem_append.mp hx with hx | hx
    · exact ((hE x).mp (Finset.mem_toList.mp hx)).2.2.le
    · exact ((hR x).mp (Finset.mem_toList.mp hx)).2.le
  · rw [feed_append]
    have hkept := kept_feed key hn (L.toList ++ E.toList)
    have hset : (L.toList ++ E.toList).toFinset = (S.filter fun y => key c ≤ key y).erase c := by
      ext y
      simp only [List.mem_toFinset, List.mem_append, Finset.mem_toList, hL, hE, Finset.mem_erase,
        Finset.mem_filter, le_iff_lt_or_eq, eq_comm (a := key c)]
      have hne : key c < key y → y ≠ c := by
        rintro h rfl
        exact lt_irrefl (key y) h
      tauto
    rw [hset] at hkept
    have hcard : n ≤ ((S.filter fun y => key c ≤ key y).erase c).card := by
      have hin : c ∈ S.filter fun y => key c ≤ key y := Finset.mem_filter.mpr ⟨hc, le_rfl⟩
      rw [Finset.card_erase_of_mem hin]
      exact Nat.le_sub_one_of_lt hmany
    have hmem : ∀ y ∈ Retention.feed key n [] (L.toList ++ E.toList), y ≠ c ∧ key c ≤ key y := by
      intro y hy
      obtain ⟨hne, hy⟩ := Finset.mem_erase.mp (hkept.mem y hy)
      exact ⟨hne, (Finset.mem_filter.mp hy).2⟩
    have hrest : ∀ x ∈ c :: R.toList, key x ≤ key c := by
      intro x hx
      rcases List.mem_cons.mp hx with rfl | hx
      · exact le_rfl
      · exact ((hR x).mp (Finset.mem_toList.mp hx)).2.le
    have hsame := hkept.feed_eq hn (hkept.length_eq hcard) (fun y hy => (hmem y hy).2) hrest
    rw [hsame]
    exact fun hin => (hmem c hin).1 rfl

/-- Any of the latest entries comes last in some order, if there is room for all of their key. -/
theorem exists_feed_getLast? (hn : 0 < n) {c : α} (hc : c ∈ S) (hlater : later key S c = 0)
    (hroom : atLeast key S c ≤ n) :
    ∃ xs : List α, xs.toFinset = S ∧ (Retention.feed key n [] xs).getLast? = some c := by
  have hset : ((S.erase c).toList).toFinset = S.erase c := Finset.toList_toFinset _
  refine ⟨(S.erase c).toList ++ [c], ?_, ?_⟩
  · rw [List.toFinset_append, hset, List.toFinset_cons, List.toFinset_nil,
      insert_empty_eq, Finset.union_comm, ← Finset.insert_eq, Finset.insert_erase hc]
  · have hkept := kept_feed key hn (S.erase c).toList
    rw [hset] at hkept
    rw [feed_append]
    refine hkept.getLast?_put hn (Finset.notMem_erase c S) (fun y hy => ?_) ?_
    · rw [later, Finset.card_eq_zero, Finset.filter_eq_empty_iff] at hlater
      exact not_lt.mp (hlater (Finset.mem_of_mem_erase hy))
    · have hmem : c ∈ S.filter fun y => key c ≤ key y := Finset.mem_filter.mpr ⟨hc, le_rfl⟩
      have hcard := Finset.card_erase_of_mem hmem
      rw [atLeast] at hroom
      rw [atLeast, Finset.filter_erase, hcard]
      have := Finset.card_pos.mpr ⟨c, hmem⟩
      omega

variable (key) in
/-- **What is kept and what comes last do not depend on the order exactly when the entries are
separated.** -/
theorem feed_eq_iff (hn : 0 < n) (S : Finset α) :
    (∀ xs ys : List α, xs.toFinset = S → ys.toFinset = S →
        (Retention.feed key n [] xs).toFinset = (Retention.feed key n [] ys).toFinset ∧
        (Retention.feed key n [] xs).getLast? = (Retention.feed key n [] ys).getLast?) ↔
      Separated key n S := by
  constructor
  · intro h c hc
    have hbound : later key S c < n → atLeast key S c ≤ n := by
      intro hlater
      by_contra hmany
      obtain ⟨xs, ys, hxs, hys, hin, hout⟩ :=
        exists_feed_mem_notMem hn hc hlater (Nat.lt_of_not_le hmany)
      have hsame := (h xs ys hxs hys).1
      rw [← List.mem_toFinset, hsame, List.mem_toFinset] at hin
      exact hout hin
    refine ⟨fun hlater => ?_, hbound⟩
    have hroom := hbound (by omega)
    -- Another entry of the same key could come last as well.
    rw [atLeast, Finset.card_le_one]
    have hlast : ∀ y ∈ S.filter fun y => key c ≤ key y,
        ∃ xs : List α, xs.toFinset = S ∧ (Retention.feed key n [] xs).getLast? = some y := by
      intro y hy
      obtain ⟨hyS, hle⟩ := Finset.mem_filter.mp hy
      have hkey : key y = key c := by
        rw [later, Finset.card_eq_zero, Finset.filter_eq_empty_iff] at hlater
        exact le_antisymm (not_lt.mp (hlater hyS)) hle
      have hsame : later key S y = later key S c ∧ atLeast key S y = atLeast key S c := by
        rw [later, later, atLeast, atLeast, hkey]
        exact ⟨rfl, rfl⟩
      exact exists_feed_getLast? hn hyS (hsame.1.trans hlater) (hsame.2 ▸ hroom)
    intro a ha b hb
    obtain ⟨xs, hxs, hlastx⟩ := hlast a ha
    obtain ⟨ys, hys, hlasty⟩ := hlast b hb
    have hsame := (h xs ys hxs hys).2
    rw [hlastx, hlasty] at hsame
    exact Option.some.inj hsame
  · intro hs xs ys hxs hys
    have hkx := kept_feed key hn xs
    have hky := kept_feed key hn ys
    rw [hxs] at hkx
    rw [hys] at hky
    refine ⟨Finset.ext fun y => ?_, hkx.getLast?_eq hky hs⟩
    rw [List.mem_toFinset, List.mem_toFinset, hkx.mem_iff hs, hky.mem_iff hs]

end Separated

end Retention
