import Mathlib.Data.Nat.Digits.Lemmas

/-!
# Numerals

The numeral of a number in a base, as the list of its digits from the highest on. In contrast to
`Nat.digits`, the numeral of 0 has a digit. The value of a numeral is found by Horner's rule, from
the highest digit on.
-/

namespace Numeral

/-- The digits of a number, the lowest first. -/
def low (b v : ℕ) : List ℕ := if v = 0 then [0] else Nat.digits b v

/-- The numeral of a number. -/
def numeral (b v : ℕ) : List ℕ := (low b v).reverse

/-- The value of a list of digits that follows a number `x`. -/
def horner (b x : ℕ) (ds : List ℕ) : ℕ := ds.foldl (fun x d => x * b + d) x

variable {b c v : ℕ}

theorem low_of_lt (h : v < b) : low b v = [v] := by
  unfold low
  split_ifs with h0
  · rw [h0]
  · exact Nat.digits_of_lt b v h0 h

theorem low_of_le (hb : 1 < b) (h : b ≤ v) : low b v = v % b :: low b (v / b) := by
  have hdiv : v / b ≠ 0 := Nat.ne_of_gt (Nat.div_pos h (by omega))
  rw [low, low, if_neg (by omega), if_neg hdiv, Nat.digits_def' hb (by omega)]

theorem length_numeral : (numeral b v).length = (low b v).length := List.length_reverse

theorem numeral_ne_nil : numeral b v ≠ [] := by
  unfold numeral low
  rw [Ne, List.reverse_eq_nil_iff]
  split_ifs with h0
  · simp
  · exact Nat.digits_ne_nil_iff_ne_zero.mpr h0

/-- A number below a power of the base has no more digits than the power. -/
theorem length_numeral_le (hb : 1 < b) {n : ℕ} (hn : 0 < n) (h : v < b ^ n) :
    (numeral b v).length ≤ n := by
  rw [length_numeral, low]
  split_ifs
  · exact hn
  · exact (Nat.digits_length_le_iff hb v).mpr h

/-- The digits of a numeral are below the base. -/
theorem lt_of_mem_numeral (hb : 1 < b) {d : ℕ} (hd : d ∈ numeral b v) : d < b := by
  unfold numeral low at hd
  rw [List.mem_reverse] at hd
  split_ifs at hd
  · rw [List.mem_singleton.mp hd]
    omega
  · exact Nat.digits_lt_base hb hd

/-- The numeral of a positive number does not begin with a zero. -/
theorem head_numeral_ne_zero (hv : v ≠ 0) : (numeral b v).head? ≠ some 0 := by
  have hne := Nat.digits_ne_nil_iff_ne_zero (b := b).mpr hv
  unfold numeral low
  rw [if_neg hv, List.head?_reverse, List.getLast?_eq_getLast_of_ne_nil hne, Ne, Option.some.injEq]
  exact Nat.getLast_digit_ne_zero b hv

theorem horner_concat (x : ℕ) (ds : List ℕ) (d : ℕ) :
    horner b x (ds ++ [d]) = horner b x ds * b + d := by
  unfold horner
  rw [List.foldl_append, List.foldl_cons, List.foldl_nil]

/-- The value of a numeral is the number. -/
theorem horner_numeral (b v : ℕ) : horner b 0 (numeral b v) = v := by
  have h : ∀ l : List ℕ, horner b 0 l.reverse = Nat.ofDigits b l := by
    intro l
    induction l with
    | nil => rfl
    | cons d l ih =>
      rw [List.reverse_cons, horner_concat, ih, Nat.ofDigits_cons]
      ring
  rw [numeral, h]
  unfold low
  split_ifs with h0
  · rw [h0]
    rfl
  · exact Nat.ofDigits_digits b v

/-- Only one-digit numbers have the same numeral in two bases. -/
theorem lt_of_numeral_eq (hb : 1 < b) (hbc : b < c) (h : numeral b v = numeral c v) : v < b := by
  by_contra hle
  have hlow : low b v = low c v := List.reverse_injective h
  have hv : v ≠ 0 := by omega
  rw [low, low, if_neg hv, if_neg hv] at hlow
  have hdiv : 0 < v / b := Nat.div_pos (by omega) (by omega)
  rw [Nat.digits_def' hb (by omega), Nat.digits_def' (hb.trans hbc) (by omega)] at hlow
  obtain ⟨hmod, htail⟩ := List.cons.inj hlow
  -- The digits behind the lowest one are worth more in the larger base.
  have hle' : v / b ≤ v / c := by
    calc v / b = Nat.ofDigits b (Nat.digits b (v / b)) := (Nat.ofDigits_digits b _).symm
      _ ≤ Nat.ofDigits c (Nat.digits b (v / b)) := Nat.ofDigits_monotone _ hbc.le
      _ = Nat.ofDigits c (Nat.digits c (v / c)) := by rw [htail]
      _ = v / c := Nat.ofDigits_digits c _
  have hlt : b * (v / b) < c * (v / c) := by
    calc b * (v / b) < c * (v / b) := Nat.mul_lt_mul_of_pos_right hbc hdiv
      _ ≤ c * (v / c) := Nat.mul_le_mul_left c hle'
  have hvb := Nat.mod_add_div v b
  have hvc := Nat.mod_add_div v c
  omega

end Numeral
