import RV32Pipeline.Lib.Rv32i

/-!
# The zeros at the ends of a number

The functions of `klib/src/int64.c` that count the leading and the trailing zeros of a word and of a
double word. They halve the word that is left four times, without a branch. The invariant of
`clzStep` is that a part of the argument without its lower `e` bits is left, with only `m` bits; that
of `ctzStep` is that the argument without its trailing zeros counted so far is left, and has a one
among its lower `m` bits. The comments exclude the argument 0, but its zeros are counted as well.
-/

namespace RV32Pipeline

open Rv32i (Word)

/-- The types `dwords` and `udwords`. -/
structure Udwords where
  low : Word
  high : Word

/-- The member `all`. -/
def Udwords.all (u : Udwords) : BitVec 64 := u.high ++ u.low

/-- The union with the given member `all`. -/
def Udwords.ofAll (x : BitVec 64) : Udwords := ⟨x.extractLsb' 0 32, x.extractLsb' 32 32⟩

/-- A double word by its halves. -/
theorem Udwords.toNat_all (u : Udwords) : u.all.toNat = u.high.toNat * 2 ^ 32 + u.low.toNat := by
  rw [Udwords.all, BitVec.toNat_append, ← Nat.shiftLeft_add_eq_or_of_lt u.low.isLt,
    Nat.shiftLeft_eq]

@[simp]
theorem Udwords.ofAll_all (u : Udwords) : Udwords.ofAll u.all = u := by
  unfold Udwords.ofAll Udwords.all
  rw [BitVec.extractLsb'_append_eq_of_add_le (by decide), BitVec.extractLsb'_eq_self,
    BitVec.extractLsb'_append_eq_of_le (by decide), BitVec.extractLsb'_eq_self]

@[simp]
theorem Udwords.all_ofAll (x : BitVec 64) : (Udwords.ofAll x).all = x :=
  BitVec.extractLsb'_append_extractLsb'

namespace Klib

/-- The value of a comparison. -/
def boolInt (p : Prop) [Decidable p] : Word := if p then 1#32 else 0#32

/-- The variables `x` and `r`. -/
structure ZeroCount where
  x : Word
  r : Word

/-- A step of `__clzsi2`, which looks at the bits of `mask`, the upper half of the `2 ^ (k + 1)` bits
of `x`. -/
def clzStep (mask : Word) (k : ℕ) (s : ZeroCount) : ZeroCount :=
  let t := boolInt (s.x &&& mask = 0#32) <<< k
  { x := s.x >>> (BitVec.ofNat 32 (2 ^ k) - t), r := s.r + t }

/-- The function `__clzsi2`. -/
def clzsi2 (a : Word) : Word :=
  let s := clzStep 0xffff0000#32 4 ⟨a, 0#32⟩
  let s := clzStep 0xff00#32 3 s
  let s := clzStep 0xf0#32 2 s
  let s := clzStep 0xc#32 1 s
  s.r + ((2#32 - s.x) &&& -boolInt (s.x &&& 2#32 = 0#32))

/-- A step of `__ctzsi2`, which looks at the bits of `mask`, the lower `2 ^ k` bits of `x`. -/
def ctzStep (mask : Word) (k : ℕ) (s : ZeroCount) : ZeroCount :=
  let t := boolInt (s.x &&& mask = 0#32) <<< k
  { x := s.x >>> t, r := s.r + t }

/-- The function `__ctzsi2`. -/
def ctzsi2 (a : Word) : Word :=
  let s := ctzStep 0xffff#32 4 ⟨a, 0#32⟩
  let s := ctzStep 0xff#32 3 s
  let s := ctzStep 0xf#32 2 s
  let s := ctzStep 0x3#32 1 s
  let x := s.x &&& 3#32
  s.r + ((2#32 - x >>> 1) &&& -boolInt (x &&& 1#32 = 0#32))

/-- The function `__ctzdi2`. -/
def ctzdi2 (a : BitVec 64) : Word :=
  let x := Udwords.ofAll a
  let f := -boolInt (x.low = 0#32)
  ctzsi2 ((x.high &&& f) ||| (x.low &&& ~~~f)) + (f &&& 32#32)

/-- The function `__clzdi2`. -/
def clzdi2 (a : BitVec 64) : Word :=
  let x := Udwords.ofAll a
  let f := -boolInt (x.high = 0#32)
  clzsi2 ((x.high &&& ~~~f) ||| (x.low &&& f)) + (f &&& 32#32)

/-! ## Leading zeros -/

/-- Without its lower `e` bits, the argument has `m` bits left. -/
structure ClzInv (a : Word) (m : ℕ) (s : ZeroCount) : Prop where
  pos : 0 < s.x.toNat
  lt : s.x.toNat < 2 ^ m
  shift : ∃ e, s.x.toNat = a.toNat / 2 ^ e ∧ e + m + s.r.toNat = 32

/-- The bits of a mask of the upper half of `2 * m` bits. -/
theorem and_upper_eq_zero {x mask : Word} {m : ℕ} (hx : x.toNat < 2 ^ (2 * m))
    (hmask : ∀ i < 32, mask.getLsbD i = (decide (m ≤ i) && decide (i < 2 * m))) :
    x &&& mask = 0#32 ↔ x.toNat < 2 ^ m := by
  constructor
  · intro h
    apply Nat.lt_pow_two_of_testBit
    intro i hi
    have hbit := congrArg (fun y => y.getLsbD i) h
    simp only [BitVec.getLsbD_and, BitVec.getLsbD_zero] at hbit
    rcases Nat.lt_or_ge i 32 with hlt | hge
    · rcases Nat.lt_or_ge i (2 * m) with hm | hm
      · rw [hmask i hlt, decide_eq_true hi, decide_eq_true hm, Bool.and_self, Bool.and_true] at hbit
        exact hbit
      · exact Nat.testBit_lt_two_pow (hx.trans_le (Nat.pow_le_pow_right two_pos hm))
    · exact BitVec.getLsbD_of_ge x i hge
  · intro h
    apply BitVec.eq_of_getLsbD_eq
    intro i hi
    rw [BitVec.getLsbD_and, hmask i hi, BitVec.getLsbD_zero]
    rcases Nat.lt_or_ge i m with hm | hm
    · simp [hm]
    · have hbit : x.getLsbD i = false :=
        Nat.testBit_lt_two_pow (h.trans_le (Nat.pow_le_pow_right two_pos hm))
      rw [hbit, Bool.false_and]

/-- A number that a step adds. -/
theorem boolInt_shiftLeft {k : ℕ} (hk : k < 5) (p : Prop) [Decidable p] :
    (boolInt p <<< k).toNat = if p then 2 ^ k else 0 := by
  unfold boolInt
  split_ifs <;> interval_cases k <;> rfl

/-- A step preserves the invariant. -/
theorem ClzInv.step {a : Word} {s : ZeroCount} {k : ℕ} (h : ClzInv a (2 * 2 ^ k) s) (mask : Word)
    (hk : k < 5)
    (hmask : ∀ i < 32, mask.getLsbD i = (decide (2 ^ k ≤ i) && decide (i < 2 * 2 ^ k))) :
    ClzInv a (2 ^ k) (clzStep mask k s) := by
  obtain ⟨e, hx, he⟩ := h.shift
  have hpow : 2 ^ k < 32 := by interval_cases k <;> decide
  have hone : 0 < 2 ^ k := Nat.two_pow_pos k
  have ht := boolInt_shiftLeft hk (s.x &&& mask = 0#32)
  rw [if_congr (and_upper_eq_zero h.lt hmask) rfl rfl] at ht
  have hr : (clzStep mask k s).r.toNat = s.r.toNat + if s.x.toNat < 2 ^ 2 ^ k then 2 ^ k else 0 := by
    rw [clzStep, BitVec.toNat_add, ht]
    split_ifs <;> omega
  have hsx : (clzStep mask k s).x.toNat =
      s.x.toNat / 2 ^ (2 ^ k - if s.x.toNat < 2 ^ 2 ^ k then 2 ^ k else 0) := by
    have hsub : (BitVec.ofNat 32 (2 ^ k) - boolInt (s.x &&& mask = 0#32) <<< k).toNat =
        2 ^ k - if s.x.toNat < 2 ^ 2 ^ k then 2 ^ k else 0 := by
      rw [BitVec.toNat_sub, ht, BitVec.toNat_ofNat]
      split_ifs <;> omega
    rw [clzStep, BitVec.ushiftRight_eq', BitVec.toNat_ushiftRight, Nat.shiftRight_eq_div_pow, hsub]
  have hdouble : 2 ^ (2 * 2 ^ k) = 2 ^ 2 ^ k * 2 ^ 2 ^ k := by rw [two_mul, pow_add]
  by_cases hlt : s.x.toNat < 2 ^ 2 ^ k
  · rw [if_pos hlt] at hr hsx
    rw [Nat.sub_self, pow_zero, Nat.div_one] at hsx
    exact ⟨hsx ▸ h.pos, hsx ▸ hlt, e, hsx.trans hx, by omega⟩
  · rw [if_neg hlt] at hr hsx
    rw [Nat.sub_zero] at hsx
    refine ⟨?_, ?_, e + 2 ^ k, ?_, by omega⟩
    · rw [hsx]
      exact Nat.div_pos (Nat.le_of_not_lt hlt) (Nat.two_pow_pos _)
    · rw [hsx]
      exact Nat.div_lt_of_lt_mul (hdouble ▸ h.lt)
    · rw [hsx, hx, pow_add, Nat.div_div_eq_div_mul]

/-- The number of leading zeros, by the size of a number. -/
theorem clz_eq_of_bounds {w : ℕ} {a : BitVec w} {c : ℕ} (hc : c < w)
    (hle : 2 ^ (w - 1 - c) ≤ a.toNat) (hlt : a.toNat < 2 ^ (w - c)) : a.clz.toNat = c := by
  have hne : a ≠ 0#w := by
    rintro rfl
    rw [BitVec.toNat_zero] at hle
    exact absurd hle (Nat.not_le_of_lt (Nat.two_pow_pos _))
  have hle' := BitVec.two_pow_sub_clz_le_toNat_of_ne_zero (by omega) hne
  have hlt' := BitVec.toNat_lt_two_pow_sub_clz (x := a)
  have h1 := (Nat.pow_lt_pow_iff_right (by decide)).mp (hle.trans_lt hlt')
  have h2 := (Nat.pow_lt_pow_iff_right (by decide)).mp (hle'.trans_lt hlt)
  have hz : a.clz.toNat < w := by
    have hlt := BitVec.lt_def.mp (BitVec.clz_lt_iff_ne_zero.mpr hne)
    rwa [BitVec.natCast_eq_ofNat, BitVec.toNat_ofNat, Nat.mod_eq_of_lt Nat.lt_two_pow_self] at hlt
  omega

/-- The end of `__clzsi2`, when two bits are left. -/
theorem clz_last {x : Word} (hpos : 0 < x.toNat) (hlt : x.toNat < 2 ^ 2) :
    (2#32 - x) &&& -boolInt (x &&& 2#32 = 0#32) = if x.toNat = 1 then 1#32 else 0#32 := by
  obtain ⟨n, hn, rfl⟩ : ∃ n < 4, x = BitVec.ofNat 32 n := ⟨x.toNat, hlt, by simp⟩
  interval_cases n <;> first | rfl | contradiction

/-- The result when two bits are left. -/
theorem ClzInv.last {a : Word} {s : ZeroCount} (h : ClzInv a (2 ^ 1) s) :
    s.r + ((2#32 - s.x) &&& -boolInt (s.x &&& 2#32 = 0#32)) = a.clz := by
  obtain ⟨e, hx, he⟩ := h.shift
  have hpos := h.pos
  have hlt := h.lt
  have hle : 2 ^ e * s.x.toNat ≤ a.toNat := hx ▸ Nat.mul_div_le a.toNat (2 ^ e)
  have hgt : a.toNat < 2 ^ e * (s.x.toNat + 1) := hx ▸ Nat.lt_mul_div_succ _ (Nat.two_pow_pos e)
  rw [clz_last hpos hlt]
  apply BitVec.eq_of_toNat_eq
  by_cases h1 : s.x.toNat = 1
  · have hr : (s.r + 1#32).toNat = s.r.toNat + 1 := by
      rw [BitVec.toNat_add]
      exact Nat.mod_eq_of_lt (by change s.r.toNat + 1 < 2 ^ 32; omega)
    rw [h1] at hle hgt
    rw [if_pos h1, hr, clz_eq_of_bounds (c := s.r.toNat + 1) (by omega)]
    · rwa [show 31 - (s.r.toNat + 1) = e by omega, ← Nat.mul_one (2 ^ e)]
    · rwa [show 32 - (s.r.toNat + 1) = e + 1 by omega, pow_succ]
  · rw [if_neg h1, BitVec.add_zero, clz_eq_of_bounds (c := s.r.toNat) (by omega)]
    · rw [show 31 - s.r.toNat = e + 1 by omega, pow_succ]
      exact (Nat.mul_le_mul_left _ (by omega)).trans hle
    · rw [show 32 - s.r.toNat = e + 2 by omega, pow_add]
      exact hgt.trans_le (Nat.mul_le_mul_left _ hlt)

/-- `__clzsi2` counts the leading zeros of every word. -/
theorem clzsi2_eq (a : Word) : clzsi2 a = a.clz := by
  by_cases ha : a = 0#32
  · rw [ha]
    decide
  have hpos : 0 < a.toNat := Nat.pos_of_ne_zero fun h0 => ha (BitVec.eq_of_toNat_eq h0)
  have h0 : ClzInv a (2 * 2 ^ 4) ⟨a, 0#32⟩ := ⟨hpos, a.isLt, 0, by simp, rfl⟩
  have h1 := h0.step (k := 4) 0xffff0000#32 (by decide) (by decide)
  have h2 := h1.step (k := 3) 0xff00#32 (by decide) (by decide)
  have h3 := h2.step (k := 2) 0xf0#32 (by decide) (by decide)
  have h4 := h3.step (k := 1) 0xc#32 (by decide) (by decide)
  exact h4.last

/-! ## Trailing zeros -/

/-- Without the trailing zeros that have been counted, the argument has a one among its lower `m`
bits. -/
structure CtzInv (a : Word) (m : ℕ) (s : ZeroCount) : Prop where
  mod : s.x.toNat % 2 ^ m ≠ 0
  shift : a.toNat = s.x.toNat * 2 ^ s.r.toNat
  le : s.r.toNat + m ≤ 32

/-- The mask of the lower bits. -/
theorem and_lower_eq_zero {x mask : Word} {m : ℕ} (hmask : mask.toNat = 2 ^ m - 1) :
    x &&& mask = 0#32 ↔ x.toNat % 2 ^ m = 0 := by
  rw [← BitVec.toNat_inj, BitVec.toNat_and, hmask, Nat.and_two_pow_sub_one_eq_mod]
  rfl

/-- A step preserves the invariant. -/
theorem CtzInv.step {a : Word} {s : ZeroCount} {k : ℕ} (h : CtzInv a (2 * 2 ^ k) s) (mask : Word)
    (hk : k < 5) (hmask : mask.toNat = 2 ^ 2 ^ k - 1) : CtzInv a (2 ^ k) (ctzStep mask k s) := by
  have hpow : 2 ^ k < 32 := by interval_cases k <;> decide
  have hle := h.le
  have hdouble : 2 ^ (2 * 2 ^ k) = 2 ^ 2 ^ k * 2 ^ 2 ^ k := by rw [two_mul, pow_add]
  have ht := boolInt_shiftLeft hk (s.x &&& mask = 0#32)
  rw [if_congr (and_lower_eq_zero hmask) rfl rfl] at ht
  have hr : (ctzStep mask k s).r.toNat =
      s.r.toNat + if s.x.toNat % 2 ^ 2 ^ k = 0 then 2 ^ k else 0 := by
    rw [ctzStep, BitVec.toNat_add, ht]
    split_ifs <;> omega
  have hsx : (ctzStep mask k s).x.toNat =
      s.x.toNat / 2 ^ if s.x.toNat % 2 ^ 2 ^ k = 0 then 2 ^ k else 0 := by
    rw [ctzStep, BitVec.ushiftRight_eq', BitVec.toNat_ushiftRight, Nat.shiftRight_eq_div_pow, ht]
  by_cases h0 : s.x.toNat % 2 ^ 2 ^ k = 0
  · rw [if_pos h0] at hr hsx
    have hmul := Nat.div_mul_cancel (Nat.dvd_of_mod_eq_zero h0)
    refine ⟨fun hz => h.mod ?_, ?_, by omega⟩
    · rw [hsx] at hz
      rw [hdouble, Nat.mod_mul, h0, hz, Nat.mul_zero]
    · rw [h.shift, hr, hsx, Nat.add_comm, pow_add, ← Nat.mul_assoc, hmul]
  · rw [if_neg h0] at hr hsx
    rw [pow_zero, Nat.div_one] at hsx
    exact ⟨hsx ▸ h0, by rw [hsx, hr, h.shift]; rfl, by omega⟩

/-- The number of trailing zeros, as the power of two in a number. -/
theorem ctz_eq_of_odd {w : ℕ} {a : BitVec w} {c m : ℕ} (h : a.toNat = m * 2 ^ c) (hm : m % 2 = 1) :
    a.ctz.toNat = c := by
  have hget (i : ℕ) : a.getLsbD i = (decide (c ≤ i) && m.testBit (i - c)) := by
    rw [BitVec.getLsbD, h, Nat.testBit_mul_two_pow]
  have hbit : a.getLsbD c = true := by
    rw [hget, Nat.sub_self, Nat.testBit_zero, hm, decide_eq_true le_rfl]
    rfl
  have hlow (i : ℕ) (hi : i < c) : a.getLsbD i = false := by
    rw [hget, decide_eq_false (Nat.not_le_of_lt hi), Bool.false_and]
  have hne : a ≠ 0#w := by
    rintro rfl
    simp at hbit
  have htrue := BitVec.getLsbD_true_ctz_of_ne_zero hne
  rcases Nat.lt_trichotomy a.ctz.toNat c with hlt | heq | hgt
  · exact absurd htrue (by rw [hlow _ hlt]; decide)
  · exact heq
  · exact absurd hbit (by rw [BitVec.getLsbD_false_of_lt_ctz hgt]; decide)

/-- The end of `__ctzsi2`, when there is a one among two bits. -/
theorem ctz_last {x : Word} (hx : x.toNat % 2 ^ 2 ≠ 0) :
    (2#32 - (x &&& 3#32) >>> 1) &&& -boolInt (x &&& 3#32 &&& 1#32 = 0#32) =
      if x.toNat % 2 = 1 then 0#32 else 1#32 := by
  have hand : (x &&& 3#32).toNat = x.toNat % 4 := by
    rw [BitVec.toNat_and]
    exact Nat.and_two_pow_sub_one_eq_mod _ 2
  have hodd : x.toNat % 2 = (x &&& 3#32).toNat % 2 := by omega
  rw [hodd]
  rw [show (2 : ℕ) ^ 2 = 4 from rfl, ← hand] at hx
  obtain ⟨n, hn, he⟩ : ∃ n < 4, x &&& 3#32 = BitVec.ofNat 32 n :=
    ⟨(x &&& 3#32).toNat, by omega, by simp⟩
  rw [he] at hx ⊢
  interval_cases n <;> first | rfl | contradiction

/-- The result when there is a one among two bits. -/
theorem CtzInv.last {a : Word} {s : ZeroCount} (h : CtzInv a (2 ^ 1) s) :
    s.r + ((2#32 - (s.x &&& 3#32) >>> 1) &&& -boolInt (s.x &&& 3#32 &&& 1#32 = 0#32)) = a.ctz := by
  have hle := h.le
  have hmod : s.x.toNat % 4 ≠ 0 := h.mod
  rw [ctz_last h.mod]
  apply BitVec.eq_of_toNat_eq
  by_cases h1 : s.x.toNat % 2 = 1
  · rw [if_pos h1, BitVec.add_zero, ctz_eq_of_odd h.shift h1]
  · have hr : (s.r + 1#32).toNat = s.r.toNat + 1 := by
      rw [BitVec.toNat_add]
      exact Nat.mod_eq_of_lt (by change s.r.toNat + 1 < 2 ^ 32; omega)
    have hshift : a.toNat = s.x.toNat / 2 * 2 ^ (s.r.toNat + 1) := by
      rw [h.shift, pow_succ', ← Nat.mul_assoc, Nat.div_mul_cancel (by omega)]
    rw [if_neg h1, hr, ctz_eq_of_odd hshift (by omega)]

/-- `__ctzsi2` counts the trailing zeros of every word. -/
theorem ctzsi2_eq (a : Word) : ctzsi2 a = a.ctz := by
  by_cases ha : a = 0#32
  · rw [ha, BitVec.ctz_eq_reverse_clz, BitVec.reverse_eq_zero_iff.mpr rfl]
    decide
  have hmod : a.toNat % 2 ^ (2 * 2 ^ 4) ≠ 0 := fun h0 =>
    ha (BitVec.eq_of_toNat_eq ((Nat.mod_eq_of_lt a.isLt).symm.trans h0))
  have h0 : CtzInv a (2 * 2 ^ 4) ⟨a, 0#32⟩ := ⟨hmod, (Nat.mul_one _).symm, le_rfl⟩
  have h1 := h0.step (k := 4) 0xffff#32 (by decide) rfl
  have h2 := h1.step (k := 3) 0xff#32 (by decide) rfl
  have h3 := h2.step (k := 2) 0xf#32 (by decide) rfl
  have h4 := h3.step (k := 1) 0x3#32 (by decide) rfl
  exact h4.last

/-! ## Double words -/

/-- The functions on double words choose a half without a branch. -/
theorem select_eq (p : Prop) [Decidable p] (x y : Word) :
    (x &&& -boolInt p) ||| (y &&& ~~~(-boolInt p)) = if p then x else y := by
  have hall : -1#32 = BitVec.allOnes 32 := rfl
  unfold boolInt
  split_ifs
  · rw [hall, BitVec.and_allOnes, BitVec.not_allOnes, BitVec.and_zero, BitVec.or_zero]
  · rw [BitVec.neg_zero, BitVec.not_zero, BitVec.and_allOnes, BitVec.and_zero, BitVec.zero_or]

/-- The number of the bits that were not looked at. -/
theorem and_thirtyTwo (p : Prop) [Decidable p] :
    -boolInt p &&& 32#32 = if p then 32#32 else 0#32 := by
  unfold boolInt
  split_ifs <;> rfl

/-- A number that is not 0 is an odd number with its trailing zeros. -/
theorem exists_odd_of_ne_zero {w : ℕ} {x : BitVec w} (hx : x ≠ 0#w) :
    ∃ m, m % 2 = 1 ∧ x.toNat = m * 2 ^ x.ctz.toNat := by
  have hbit := BitVec.getLsbD_true_ctz_of_ne_zero hx
  have hmod : x.toNat % 2 ^ x.ctz.toNat = 0 := by
    apply Nat.eq_of_testBit_eq
    intro i
    rw [Nat.testBit_mod_two_pow, Nat.zero_testBit]
    by_cases hi : i < x.ctz.toNat
    · have hlow : x.toNat.testBit i = false := BitVec.getLsbD_false_of_lt_ctz hi
      rw [hlow, Bool.and_false]
    · rw [decide_eq_false hi, Bool.false_and]
  refine ⟨x.toNat / 2 ^ x.ctz.toNat, ?_, (Nat.div_mul_cancel (Nat.dvd_of_mod_eq_zero hmod)).symm⟩
  rw [BitVec.getLsbD, Nat.testBit_eq_decide_div_mod_eq] at hbit
  exact of_decide_eq_true hbit

/-- `__clzdi2` counts the leading zeros of every double word. -/
theorem clzdi2_toNat (a : BitVec 64) : (clzdi2 a).toNat = a.clz.toNat := by
  set x := Udwords.ofAll a with hx
  have ha : a.toNat = x.high.toNat * 2 ^ 32 + x.low.toNat := by
    rw [← x.toNat_all, hx, Udwords.all_ofAll]
  have hdef : clzdi2 a = clzsi2 (if x.high = 0#32 then x.low else x.high) +
      if x.high = 0#32 then 32#32 else 0#32 := by
    rw [← select_eq, ← and_thirtyTwo, BitVec.or_comm]
    rfl
  have hle : x.low.clz.toNat ≤ 32 := BitVec.le_def.mp BitVec.clz_le
  rw [hdef, clzsi2_eq]
  by_cases hh : x.high = 0#32
  · have ha' : a.toNat = x.low.toNat := by rw [ha, hh, BitVec.toNat_zero, Nat.zero_mul, Nat.zero_add]
    have hsum : (x.low.clz + 32#32).toNat = x.low.clz.toNat + 32 := by
      rw [BitVec.toNat_add]
      exact Nat.mod_eq_of_lt (by change x.low.clz.toNat + 32 < 2 ^ 32; omega)
    rw [if_pos hh, if_pos hh, hsum]
    by_cases hl : x.low = 0#32
    · have ha0 : a = 0#64 := BitVec.eq_of_toNat_eq (by rw [ha', hl]; rfl)
      rw [hl, ha0]
      rfl
    · have hlt : x.low.clz.toNat < 32 := BitVec.lt_def.mp (BitVec.clz_lt_iff_ne_zero.mpr hl)
      refine (clz_eq_of_bounds (by omega) ?_ ?_).symm
      · rw [ha', show 64 - 1 - (x.low.clz.toNat + 32) = 32 - 1 - x.low.clz.toNat by omega]
        exact BitVec.two_pow_sub_clz_le_toNat_of_ne_zero (by decide) hl
      · rw [ha', show 64 - (x.low.clz.toNat + 32) = 32 - x.low.clz.toNat by omega]
        exact BitVec.toNat_lt_two_pow_sub_clz
  · have hlt : x.high.clz.toNat < 32 := BitVec.lt_def.mp (BitVec.clz_lt_iff_ne_zero.mpr hh)
    have hge := BitVec.two_pow_sub_clz_le_toNat_of_ne_zero (by decide) hh
    have hgt := BitVec.toNat_lt_two_pow_sub_clz (x := x.high)
    rw [if_neg hh, if_neg hh, BitVec.add_zero]
    refine (clz_eq_of_bounds (by omega) ?_ ?_).symm
    · rw [ha, show 64 - 1 - x.high.clz.toNat = 32 - 1 - x.high.clz.toNat + 32 by omega, pow_add]
      exact (Nat.mul_le_mul_right _ hge).trans (Nat.le_add_right _ _)
    · rw [ha, show 64 - x.high.clz.toNat = 32 - x.high.clz.toNat + 32 by omega, pow_add]
      have := Nat.mul_le_mul_right (2 ^ 32) (Nat.succ_le_of_lt hgt)
      omega

/-- `__ctzdi2` counts the trailing zeros of every double word. -/
theorem ctzdi2_toNat (a : BitVec 64) : (ctzdi2 a).toNat = a.ctz.toNat := by
  set x := Udwords.ofAll a with hx
  have ha : a.toNat = x.high.toNat * 2 ^ 32 + x.low.toNat := by
    rw [← x.toNat_all, hx, Udwords.all_ofAll]
  have hdef : ctzdi2 a = ctzsi2 (if x.low = 0#32 then x.high else x.low) +
      if x.low = 0#32 then 32#32 else 0#32 := by
    rw [← select_eq, ← and_thirtyTwo]
    rfl
  rw [hdef, ctzsi2_eq]
  by_cases hl : x.low = 0#32
  · have ha' : a.toNat = x.high.toNat * 2 ^ 32 := by rw [ha, hl, BitVec.toNat_zero, Nat.add_zero]
    rw [if_pos hl, if_pos hl]
    by_cases hh : x.high = 0#32
    · have ha0 : a = 0#64 := BitVec.eq_of_toNat_eq (by rw [ha', hh]; rfl)
      rw [hh, ha0, BitVec.ctz_eq_reverse_clz, BitVec.ctz_eq_reverse_clz,
        BitVec.reverse_eq_zero_iff.mpr rfl, BitVec.reverse_eq_zero_iff.mpr rfl]
      rfl
    · obtain ⟨m, hm, hhigh⟩ := exists_odd_of_ne_zero hh
      have hlt : x.high.ctz.toNat < 32 := BitVec.lt_def.mp (BitVec.ctz_lt_iff_ne_zero.mpr hh)
      have hsum : (x.high.ctz + 32#32).toNat = x.high.ctz.toNat + 32 := by
        rw [BitVec.toNat_add]
        exact Nat.mod_eq_of_lt (by change x.high.ctz.toNat + 32 < 2 ^ 32; omega)
      rw [hsum]
      exact (ctz_eq_of_odd (by rw [ha', hhigh, pow_add, Nat.mul_assoc]) hm).symm
  · obtain ⟨m, hm, hlow⟩ := exists_odd_of_ne_zero hl
    have hlt : x.low.ctz.toNat < 32 := BitVec.lt_def.mp (BitVec.ctz_lt_iff_ne_zero.mpr hl)
    rw [if_neg hl, if_neg hl, BitVec.add_zero]
    have ha' : a.toNat = (x.high.toNat * 2 ^ (32 - x.low.ctz.toNat) + m) * 2 ^ x.low.ctz.toNat := by
      rw [Nat.add_mul, Nat.mul_assoc, ← pow_add, Nat.sub_add_cancel hlt.le, ← hlow, ha]
    refine (ctz_eq_of_odd ha' ?_).symm
    rw [show 32 - x.low.ctz.toNat = 31 - x.low.ctz.toNat + 1 by omega, pow_succ, ← Nat.mul_assoc,
      Nat.add_comm, Nat.add_mul_mod_self_right, hm]

end Klib

end RV32Pipeline
