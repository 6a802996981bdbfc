import XeLattice.Go.Bytes
import Mathlib.Data.List.Induction
import Mathlib.Data.Nat.Basic
import Mathlib.Tactic.Ring
import Mathlib.Tactic.Linarith

/-!
# Decimal spellings

The number that a string of decimal digits spells, against the spelling `dec` of a number.

* **`eq_of_decVal`**: digit strings of one length are told apart by their values;
* **`length_dec_lt`**: `dec` is the only shortest spelling.
-/

set_option autoImplicit false

/-- A string of digits. -/
def Digits (s : Str) : Prop :=
  ∀ c ∈ s, 48 ≤ c ∧ c ≤ 57

instance (s : Str) : Decidable (Digits s) :=
  inferInstanceAs (Decidable (∀ c ∈ s, 48 ≤ c ∧ c ≤ 57))

/-- The positional value. -/
def decVal (s : Str) : ℕ :=
  s.foldl (fun n c => 10 * n + (c.toNat - 48)) 0

@[simp] theorem decVal_nil : decVal [] = 0 := rfl

theorem decVal_concat (s : Str) (c : UInt8) :
    decVal (s ++ [c]) = 10 * decVal s + (c.toNat - 48) := by
  simp only [decVal, List.foldl_append, List.foldl_cons, List.foldl_nil]

theorem decVal_append (s t : Str) : decVal (s ++ t) = decVal s * 10 ^ t.length + decVal t := by
  induction t using List.reverseRecOn with
  | nil => simp
  | append_singleton t c ih =>
    rw [← List.append_assoc, decVal_concat, decVal_concat, ih, List.length_append,
      List.length_singleton, pow_succ]
    ring

theorem decVal_zero_cons (s : Str) : decVal (48 :: s) = decVal s := by
  have h := decVal_append [48] s
  rwa [show decVal [48] = 0 from rfl, Nat.zero_mul, Nat.zero_add] at h

theorem decVal_replicate_zero (k : ℕ) : decVal (List.replicate k 48) = 0 := by
  induction k with
  | zero => rfl
  | succ k ih => rw [List.replicate_succ, decVal_zero_cons, ih]

section Digits

variable {s t : Str} {c : UInt8}

theorem Digits.left (h : Digits (s ++ t)) : Digits s :=
  fun c hc => h c (List.mem_append_left t hc)

theorem Digits.right (h : Digits (s ++ t)) : Digits t :=
  fun c hc => h c (List.mem_append_right s hc)

theorem Digits.append (hs : Digits s) (ht : Digits t) : Digits (s ++ t) := fun c hc =>
  (List.mem_append.mp hc).elim (hs c) (ht c)

theorem digits_replicate_zero (k : ℕ) : Digits (List.replicate k 48) := by
  intro c hc
  rw [List.eq_of_mem_replicate hc]
  decide

theorem Digits.toNat_of_mem (h : Digits s) (hc : c ∈ s) : 48 ≤ c.toNat ∧ c.toNat ≤ 57 := by
  obtain ⟨hlo, hhi⟩ := h c hc
  exact ⟨UInt8.le_iff_toNat_le.mp hlo, UInt8.le_iff_toNat_le.mp hhi⟩

theorem decVal_lt (h : Digits s) : decVal s < 10 ^ s.length := by
  induction s using List.reverseRecOn with
  | nil => exact Nat.one_pos
  | append_singleton s c ih =>
    have hs := ih h.left
    have hc := h.toNat_of_mem (List.mem_append_right s (List.mem_singleton_self c))
    rw [decVal_concat, List.length_append, List.length_singleton, pow_succ]
    omega

/-- **Digit strings of one length are told apart by their values.** -/
theorem eq_of_decVal (hs : Digits s) (ht : Digits t) (hlen : s.length = t.length)
    (hval : decVal s = decVal t) : s = t := by
  induction s using List.reverseRecOn generalizing t with
  | nil => exact (List.eq_nil_of_length_eq_zero hlen.symm).symm
  | append_singleton s c ih =>
    rcases t.eq_nil_or_concat' with rfl | ⟨t, d, rfl⟩
    · simp at hlen
    · have hc := hs.toNat_of_mem (List.mem_append_right s (List.mem_singleton_self c))
      have hd := ht.toNat_of_mem (List.mem_append_right t (List.mem_singleton_self d))
      simp only [List.length_append, List.length_singleton, Nat.add_right_cancel_iff] at hlen
      rw [decVal_concat, decVal_concat] at hval
      have hinit : s = t := ih hs.left ht.left hlen (by omega)
      have hlast : c = d := UInt8.toNat_inj.mp (by omega)
      rw [hinit, hlast]

end Digits

/-! ## The spelling of a number -/

theorem str_digitChar {d : ℕ} (h : d < 10) :
    String.utf8EncodeChar (Nat.digitChar d) = [UInt8.ofNat (48 + d)] := by
  have hall : ∀ d : Fin 10,
      String.utf8EncodeChar (Nat.digitChar d) = [UInt8.ofNat (48 + d)] := by decide
  exact hall ⟨d, h⟩

theorem dec_eq (n : ℕ) :
    dec n = (if n < 10 then [] else dec (n / 10)) ++ [UInt8.ofNat (48 + n % 10)] := by
  have hdec : ∀ m, dec m = (Nat.toDigits 10 m).flatMap String.utf8EncodeChar := by
    intro m
    simp only [dec, str, toString, Nat.repr, String.toList_ofList]
  rw [hdec n, Nat.toDigits_eq_if (by omega)]
  split_ifs with h
  · rw [Nat.mod_eq_of_lt h, List.flatMap_singleton, str_digitChar h, List.nil_append]
  · rw [List.flatMap_append, List.flatMap_singleton, ← hdec,
      str_digitChar (Nat.mod_lt n (by omega))]

theorem dec_ne_nil (n : ℕ) : dec n ≠ [] := by
  rw [dec_eq]
  exact List.append_ne_nil_of_right_ne_nil _ (List.cons_ne_nil _ _)

theorem toNat_digit (n : ℕ) : (UInt8.ofNat (48 + n % 10)).toNat = 48 + n % 10 := by
  have := Nat.mod_lt n (show 10 > 0 by omega)
  rw [UInt8.toNat_ofNat']
  omega

theorem digits_dec (n : ℕ) : Digits (dec n) := by
  induction n using Nat.strong_induction_on with
  | _ n ih =>
    rw [dec_eq]
    refine Digits.append ?_ fun c hc => ?_
    · split_ifs with h
      · exact fun c hc => absurd hc List.not_mem_nil
      · exact ih (n / 10) (by omega)
    · rw [List.mem_singleton.mp hc, UInt8.le_iff_toNat_le, UInt8.le_iff_toNat_le, toNat_digit]
      have := Nat.mod_lt n (show 10 > 0 by omega)
      exact ⟨Nat.le_add_right 48 _, show 48 + n % 10 ≤ 57 by omega⟩

@[simp] theorem decVal_dec (n : ℕ) : decVal (dec n) = n := by
  induction n using Nat.strong_induction_on with
  | _ n ih =>
    rw [dec_eq, decVal_concat, toNat_digit]
    split_ifs with h
    · rw [decVal_nil]
      omega
    · rw [ih (n / 10) (by omega)]
      omega

theorem length_dec_le {n k : ℕ} (hk : 1 ≤ k) (h : n < 10 ^ k) : (dec n).length ≤ k := by
  induction k generalizing n with
  | zero => omega
  | succ k ih =>
    rw [dec_eq, List.length_append, List.length_singleton]
    split_ifs with hn
    · simp
    · have hk' : 1 ≤ k := by
        by_contra h0
        rw [show k = 0 by omega] at h
        omega
      have hdiv := ih (n := n / 10) hk' (by rw [pow_succ] at h; omega)
      omega

theorem length_dec_decVal_le {s : Str} (hs : Digits s) (hne : s ≠ []) :
    (dec (decVal s)).length ≤ s.length :=
  length_dec_le (List.length_pos_of_ne_nil hne) (decVal_lt hs)

/-- **`dec` is the only shortest spelling.** -/
theorem length_dec_lt {s : Str} (hs : Digits s) (hne : s ≠ []) (h : s ≠ dec (decVal s)) :
    (dec (decVal s)).length < s.length := by
  refine lt_of_le_of_ne (length_dec_decVal_le hs hne) fun hlen => h ?_
  exact eq_of_decVal hs (digits_dec _) hlen.symm (decVal_dec _).symm

theorem dec_head {n : ℕ} {c : UInt8} {s : Str} (h : dec n = 48 :: c :: s) : False := by
  -- The digits behind the zero would be a shorter spelling.
  have hdigits : Digits (48 :: c :: s) := h ▸ digits_dec n
  have htail : Digits (c :: s) := hdigits.right (s := [48])
  have hval : decVal (c :: s) = n := by rw [← decVal_zero_cons, ← h, decVal_dec]
  have hle := length_dec_decVal_le htail (List.cons_ne_nil c s)
  rw [hval, h] at hle
  simp at hle
