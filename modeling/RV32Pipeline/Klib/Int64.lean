import Mathlib.Data.BitVec
import RV32Pipeline.Klib.CountZeros
import RV32Pipeline.Lib.LongDivision

/-!
# The division of double words

The functions of `klib/src/int64.c` that divide numbers of 64 bits with operations on 32 bits.
`__udivmoddi4` treats nine cases apart, and ends in a long division with a branch-free step. The
model has no value where C has none: at a division by 0, and at a shift by 32 or more. The theorems
say that this happens for the divisor 0 only.
-/

namespace RV32Pipeline

open Rv32i (Word)

namespace Klib

/-! ## The operators that are undefined for some operands -/

/-- The operator `/` on `su_int`. -/
def SuInt.div (x y : Word) : Option Word := if y = 0#32 then none else some (x / y)

/-- The operator `%` on `su_int`. -/
def SuInt.mod (x y : Word) : Option Word := if y = 0#32 then none else some (x % y)

/-- The operator `<<` on `su_int`. -/
def SuInt.shl (x n : Word) : Option Word := if n < 32#32 then some (x <<< n) else none

/-- The operator `>>` on `su_int`. -/
def SuInt.shr (x n : Word) : Option Word := if n < 32#32 then some (x >>> n) else none

/-! ## The functions -/

/-- The variables of the loop of `__udivmoddi4`. -/
structure DivState where
  q : Udwords
  r : Udwords
  carry : Word

/-- The body of the loop of `__udivmoddi4`. -/
def divBody (d : BitVec 64) (s : DivState) : DivState :=
  let rHigh := s.r.high <<< 1 ||| s.r.low >>> 31
  let rLow := s.r.low <<< 1 ||| s.q.high >>> 31
  let qHigh := s.q.high <<< 1 ||| s.q.low >>> 31
  let qLow := s.q.low <<< 1 ||| s.carry
  let r : Udwords := ⟨rLow, rHigh⟩
  let mask := (d - r.all - 1#64).sshiftRight 63
  { q := ⟨qLow, qHigh⟩
    r := Udwords.ofAll (r.all - (d &&& mask))
    carry := (mask &&& 1#64).setWidth 32 }

/-- The loop of `__udivmoddi4` and what follows it: the result and `*rem`. -/
def divLoop (d : BitVec 64) (sr : Word) (q r : Udwords) : BitVec 64 × BitVec 64 :=
  let s := (divBody d)^[sr.toNat] ⟨q, r, 0#32⟩
  (s.q.all <<< 1 ||| s.carry.setWidth 64, s.r.all)

/-- The initial `q` and `r` for a number of iterations below 32. -/
def splitLow (n : Udwords) (sr : Word) : Option (Udwords × Udwords) := do
  let qHigh ← SuInt.shl n.low (32#32 - sr)
  let rHigh ← SuInt.shr n.high sr
  let rLow := (← SuInt.shl n.high (32#32 - sr)) ||| (← SuInt.shr n.low sr)
  some (⟨0#32, qHigh⟩, ⟨rLow, rHigh⟩)

/-- The initial `q` and `r` for a number of iterations above 32. -/
def splitHigh (n : Udwords) (sr : Word) : Option (Udwords × Udwords) := do
  let qLow ← SuInt.shl n.low (64#32 - sr)
  let qHigh := (← SuInt.shl n.high (64#32 - sr)) ||| (← SuInt.shr n.low (sr - 32#32))
  let rLow ← SuInt.shr n.high (sr - 32#32)
  some (⟨qLow, qHigh⟩, ⟨rLow, 0#32⟩)

/-- The initial `q` and `r` for 32 iterations. -/
def splitMiddle (n : Udwords) : Udwords × Udwords := (⟨0#32, n.low⟩, ⟨n.high, 0#32⟩)

/-- The function `__udivmoddi4`, with its result and the number it writes to `*rem` if there is such
an argument. -/
def udivmoddi4 (a b : BitVec 64) : Option (BitVec 64 × BitVec 64) :=
  let n := Udwords.ofAll a
  let d := Udwords.ofAll b
  if n.high = 0#32 then
    if d.high = 0#32 then do
      let rem ← SuInt.mod n.low d.low
      let q ← SuInt.div n.low d.low
      some (q.setWidth 64, rem.setWidth 64)
    else some (0#64, n.low.setWidth 64)
  else if d.low = 0#32 then
    if d.high = 0#32 then do
      let rem ← SuInt.mod n.high d.low
      let q ← SuInt.div n.high d.low
      some (q.setWidth 64, rem.setWidth 64)
    else if n.low = 0#32 then do
      let rHigh ← SuInt.mod n.high d.high
      let q ← SuInt.div n.high d.high
      some (q.setWidth 64, Udwords.all ⟨0#32, rHigh⟩)
    else if d.high &&& (d.high - 1#32) = 0#32 then do
      let q ← SuInt.shr n.high (ctzsi2 d.high)
      some (q.setWidth 64, Udwords.all ⟨n.low, n.high &&& (d.high - 1#32)⟩)
    else
      let sr := clzsi2 d.high - clzsi2 n.high
      if 30#32 < sr then some (0#64, n.all)
      else do
        let (q, r) ← splitLow n (sr + 1#32)
        some (divLoop b (sr + 1#32) q r)
  else if d.high = 0#32 then
    if d.low &&& (d.low - 1#32) = 0#32 then
      let rem := (n.low &&& (d.low - 1#32)).setWidth 64
      if d.low = 1#32 then some (n.all, rem)
      else do
        let sr := ctzsi2 d.low
        let qHigh ← SuInt.shr n.high sr
        let qLow := (← SuInt.shl n.high (32#32 - sr)) ||| (← SuInt.shr n.low sr)
        some (Udwords.all ⟨qLow, qHigh⟩, rem)
    else
      let sr := 1#32 + 32#32 + clzsi2 d.low - clzsi2 n.high
      if sr = 32#32 then some (divLoop b sr (splitMiddle n).1 (splitMiddle n).2)
      else if sr < 32#32 then do
        let (q, r) ← splitLow n sr
        some (divLoop b sr q r)
      else do
        let (q, r) ← splitHigh n sr
        some (divLoop b sr q r)
  else
    let sr := clzsi2 d.high - clzsi2 n.high
    if 31#32 < sr then some (0#64, n.all)
    else
      let sr := sr + 1#32
      if sr = 32#32 then some (divLoop b sr (splitMiddle n).1 (splitMiddle n).2)
      else do
        let (q, r) ← splitLow n sr
        some (divLoop b sr q r)

/-- The function `__udivdi3`. -/
def udivdi3 (a b : BitVec 64) : Option (BitVec 64) := do
  let (q, _) ← udivmoddi4 a b
  some q

/-- The function `__umoddi3`. -/
def umoddi3 (a b : BitVec 64) : Option (BitVec 64) := do
  let (_, r) ← udivmoddi4 a b
  some r

/-- The function `__divdi3`. -/
def divdi3 (a b : BitVec 64) : Option (BitVec 64) := do
  let sA := a.sshiftRight 63
  let sB := b.sshiftRight 63
  let a := (a ^^^ sA) - sA
  let b := (b ^^^ sB) - sB
  let sA := sA ^^^ sB
  let (q, _) ← udivmoddi4 a b
  some ((q ^^^ sA) - sA)

/-- The function `__moddi3`. -/
def moddi3 (a b : BitVec 64) : Option (BitVec 64) := do
  let s := b.sshiftRight 63
  let b := (b ^^^ s) - s
  let s := a.sshiftRight 63
  let a := (a ^^^ s) - s
  let (_, r) ← udivmoddi4 a b
  some ((r ^^^ s) - s)

/-- The function `__divmoddi4`, with its result and the number it writes to `*rem`. -/
def divmoddi4 (a b : BitVec 64) : Option (BitVec 64 × BitVec 64) := do
  let d ← divdi3 a b
  some (d, a - d * b)

/-! ## The loop -/

open LongDivision

/-- A pair of words that is shifted. -/
theorem all_shift (u : Udwords) (x : Word) (hx : x.toNat < 2) :
    Udwords.all ⟨u.low <<< 1 ||| x, u.high <<< 1 ||| u.low >>> 31⟩ =
      u.all <<< 1 ||| x.setWidth 64 := by
  have hlow := u.low.isLt
  have hhigh := u.high.isLt
  have htop : (u.low >>> 31).toNat = u.low.toNat / 2 ^ 31 := by
    rw [BitVec.toNat_ushiftRight, Nat.shiftRight_eq_div_pow]
  have hx' : (x.setWidth 64).toNat = x.toNat := by
    rw [BitVec.toNat_setWidth]
    omega
  apply BitVec.eq_of_toNat_eq
  rw [Udwords.toNat_all, toNat_shiftLeft_or _ _ (by decide) hx,
    toNat_shiftLeft_or _ _ (by decide) (by rw [htop]; omega),
    toNat_shiftLeft_or _ _ (by decide) (by rw [hx']; exact hx), Udwords.toNat_all, htop, hx']
  omega

/-- The bit that leaves a pair of words. -/
theorem all_top (u : Udwords) : (u.high >>> 31).setWidth 64 = u.all >>> 63 := by
  have hlow := u.low.isLt
  apply BitVec.eq_of_toNat_eq
  rw [BitVec.toNat_setWidth, BitVec.toNat_ushiftRight, BitVec.toNat_ushiftRight, Udwords.toNat_all,
    Nat.shiftRight_eq_div_pow, Nat.shiftRight_eq_div_pow]
  omega

/-- The variables of the loop are the registers of the long division. -/
structure Represents (s : DivState) (t : Registers 64) : Prop where
  r : s.r.all = t.r
  q : s.q.all = t.q
  carry : s.carry = BitVec.ofNat 32 t.carry.toNat

namespace Represents

variable {s : DivState} {t : Registers 64} (h : Represents s t)
include h

/-- The carry is a bit. -/
theorem carry_lt : s.carry.toNat < 2 := by
  rw [h.carry]
  cases t.carry <;> decide

/-- The carry as a double word. -/
theorem carry_setWidth : s.carry.setWidth 64 = BitVec.ofNat 64 t.carry.toNat := by
  rw [h.carry]
  cases t.carry <;> rfl

/-- The body of the loop is a step of the long division, as long as the comparison is right. -/
theorem divBody {d : BitVec 64} (hr : t.shifted.toNat < d.toNat + 2 ^ 63)
    (hd : d.toNat ≤ t.shifted.toNat + 2 ^ 63) : Represents (divBody d s) (step d t) := by
  have hshift : Udwords.all ⟨s.r.low <<< 1 ||| s.q.high >>> 31, s.r.high <<< 1 ||| s.r.low >>> 31⟩ =
      t.shifted := by
    have hbit : (s.q.high >>> 31).toNat < 2 := by
      have := s.q.high.isLt
      rw [BitVec.toNat_ushiftRight, Nat.shiftRight_eq_div_pow]
      omega
    rw [all_shift _ _ hbit, all_top, h.r, h.q]
    rfl
  have hmask := signMask_eq (by decide) hr hd
  refine ⟨?_, ?_, ?_⟩
  · rw [Klib.divBody, hshift, hmask, Udwords.all_ofAll, step]
    split_ifs
    · rw [BitVec.and_allOnes]
    · rw [BitVec.and_zero, BitVec.sub_zero]
  · rw [Klib.divBody, all_shift _ _ h.carry_lt, h.q, h.carry_setWidth]
    rfl
  · rw [Klib.divBody, hshift, hmask, step]
    split_ifs with hle
    · rw [decide_eq_true hle]
      rfl
    · rw [decide_eq_false hle]
      rfl

end Represents

/-- The loop is the long division. The comparison of a step is right for a divisor up to `2 ^ 63`,
and for any divisor in the last step if the dividend has its highest bit set. -/
theorem Represents.iterate {a b : BitVec 64} (hb : 0 < b.toNat) {k : ℕ} {s : DivState}
    {t : Registers 64} (h : Represents s t) (hinv : Inv a b k t)
    (hnear : b.toNat ≤ 2 ^ 63 ∨ k ≤ 1 ∧ 2 ^ 63 ≤ a.toNat) :
    Represents ((Klib.divBody b)^[k] s) ((step b)^[k] t) := by
  induction k generalizing s t with
  | zero => exact h
  | succ k ih =>
    have hshift := hinv.shifted
    have hmod := Nat.mod_lt (a.toNat / 2 ^ (k + 1)) hb
    have hbit := Nat.mod_lt (a.toNat / 2 ^ k) two_pos
    have hlt := t.shifted.isLt
    refine ih (h.divBody ?_ ?_) (hinv.step hb) (hnear.imp_right fun hk => ⟨by omega, hk.2⟩)
    · omega
    · rcases hnear with hle | ⟨hk, ha⟩
      · omega
      · -- The last step of a division by more than `2 ^ 63` compares with the dividend.
        obtain rfl : k = 0 := by omega
        have hblt := b.isLt
        rcases Nat.lt_or_ge (2 ^ 63) b.toNat with hgt | hle
        · rw [Nat.mod_eq_of_lt (by omega), zero_add, pow_one, pow_zero, Nat.div_one] at hshift
          omega
        · omega

/-- The loop divides, if it begins with fewer bits than the divisor has, and its comparisons are
right. -/
theorem divLoop_eq {a b : BitVec 64} {sr : Word} {q r : Udwords} (hsr : sr.toNat ≤ 64)
    (hq : q.all = a <<< (64 - sr.toNat)) (hr : r.all = a >>> sr.toNat)
    (hlt : a.toNat / 2 ^ sr.toNat < b.toNat)
    (hnear : b.toNat ≤ 2 ^ 63 ∨ sr.toNat ≤ 1 ∧ 2 ^ 63 ≤ a.toNat) :
    divLoop b sr q r = (a / b, a % b) := by
  have hb : 0 < b.toNat := Nat.zero_lt_of_lt hlt
  have hstart := inv_start hsr hlt
  have hrep : Represents ⟨q, r, 0#32⟩ ⟨a >>> sr.toNat, a <<< (64 - sr.toNat), false⟩ := ⟨hr, hq, rfl⟩
  have hend := hrep.iterate hb hstart hnear
  have hinv := iterate_step hstart hb
  rw [divLoop, hend.q, hend.r, hend.carry_setWidth, hinv.remainder, ← hinv.quotient_zero (by decide)]
  rfl

/-! ## The start of the loop -/

section Start

variable {n : Udwords} {x m : Word} {k : ℕ}

theorem SuInt.shl_eq (h : m.toNat < 32) : SuInt.shl x m = some (x <<< m.toNat) :=
  if_pos (BitVec.lt_def.mpr h)

theorem SuInt.shr_eq (h : m.toNat < 32) : SuInt.shr x m = some (x >>> m.toNat) :=
  if_pos (BitVec.lt_def.mpr h)

/-- A bit of a double word is a bit of one of its halves. -/
theorem getLsbD_all (i : ℕ) :
    n.all.getLsbD i = if i < 32 then n.low.getLsbD i else n.high.getLsbD (i - 32) := by
  rw [Udwords.all, BitVec.getLsbD_append]

/-- A shift to the left by at most 32. -/
theorem all_shiftLeft (hk : k ≤ 32) :
    n.all <<< k = Udwords.all ⟨n.low <<< k, n.high <<< k ||| n.low >>> (32 - k)⟩ := by
  apply BitVec.eq_of_getLsbD_eq
  intro i hi
  simp only [BitVec.getLsbD_shiftLeft, getLsbD_all, BitVec.getLsbD_or, BitVec.getLsbD_ushiftRight]
  grind

/-- A shift to the left by more. -/
theorem all_shiftLeft_add : n.all <<< (32 + k) = Udwords.all ⟨0#32, n.low <<< k⟩ := by
  apply BitVec.eq_of_getLsbD_eq
  intro i hi
  simp only [BitVec.getLsbD_shiftLeft, getLsbD_all, BitVec.getLsbD_zero]
  grind

/-- A shift to the right by at most 32. -/
theorem all_shiftRight (hk : k ≤ 32) :
    n.all >>> k = Udwords.all ⟨n.high <<< (32 - k) ||| n.low >>> k, n.high >>> k⟩ := by
  apply BitVec.eq_of_getLsbD_eq
  intro i hi
  simp only [BitVec.getLsbD_shiftLeft, getLsbD_all, BitVec.getLsbD_or, BitVec.getLsbD_ushiftRight]
  grind

/-- A shift to the right by more. -/
theorem all_shiftRight_add : n.all >>> (32 + k) = Udwords.all ⟨n.high >>> k, 0#32⟩ := by
  apply BitVec.eq_of_getLsbD_eq
  intro i hi
  simp only [getLsbD_all, BitVec.getLsbD_ushiftRight, BitVec.getLsbD_zero]
  grind

variable {sr : Word}

/-- The initial values below 32 iterations. -/
theorem splitLow_eq (hpos : 0 < sr.toNat) (hlt : sr.toNat < 32) :
    ∃ q r, splitLow n sr = some (q, r) ∧ q.all = n.all <<< (64 - sr.toNat) ∧
      r.all = n.all >>> sr.toNat := by
  have hsub : (32#32 - sr).toNat = 32 - sr.toNat := BitVec.toNat_sub_of_le hlt.le
  refine ⟨⟨0#32, n.low <<< (32 - sr.toNat)⟩,
    ⟨n.high <<< (32 - sr.toNat) ||| n.low >>> sr.toNat, n.high >>> sr.toNat⟩, ?_, ?_,
    (all_shiftRight hlt.le).symm⟩
  · rw [splitLow, SuInt.shl_eq (by omega), SuInt.shl_eq (by omega), SuInt.shr_eq hlt,
      SuInt.shr_eq hlt, hsub]
    rfl
  · rw [show 64 - sr.toNat = 32 + (32 - sr.toNat) by omega, all_shiftLeft_add]

/-- The initial values above 32 iterations. -/
theorem splitHigh_eq (hgt : 32 < sr.toNat) (hlt : sr.toNat < 64) :
    ∃ q r, splitHigh n sr = some (q, r) ∧ q.all = n.all <<< (64 - sr.toNat) ∧
      r.all = n.all >>> sr.toNat := by
  have hsub : (64#32 - sr).toNat = 64 - sr.toNat := BitVec.toNat_sub_of_le hlt.le
  have hsub' : (sr - 32#32).toNat = sr.toNat - 32 := BitVec.toNat_sub_of_le hgt.le
  have hright := all_shiftRight_add (n := n) (k := sr.toNat - 32)
  rw [Nat.add_sub_cancel' hgt.le] at hright
  refine ⟨⟨n.low <<< (64 - sr.toNat),
    n.high <<< (64 - sr.toNat) ||| n.low >>> (32 - (64 - sr.toNat))⟩,
    ⟨n.high >>> (sr.toNat - 32), 0#32⟩, ?_, (all_shiftLeft (by omega)).symm, hright.symm⟩
  rw [splitHigh, SuInt.shl_eq (by omega), SuInt.shl_eq (by omega), SuInt.shr_eq (by omega),
    SuInt.shr_eq (by omega), hsub, hsub', show 32 - (64 - sr.toNat) = sr.toNat - 32 by omega]
  rfl

/-- The initial values for 32 iterations. -/
theorem splitMiddle_eq :
    (splitMiddle n).1.all = n.all <<< 32 ∧ (splitMiddle n).2.all = n.all >>> 32 := by
  have hl := all_shiftLeft_add (n := n) (k := 0)
  have hr := all_shiftRight_add (n := n) (k := 0)
  rw [BitVec.shiftLeft_zero] at hl
  rw [BitVec.ushiftRight_zero] at hr
  exact ⟨hl.symm, hr.symm⟩

end Start

/-! ## The cases -/

/-- A number by its leading zeros. -/
theorem bounds_of_ne_zero {x : Word} (hx : x ≠ 0#32) :
    (clzsi2 x).toNat < 32 ∧ 2 ^ (31 - (clzsi2 x).toNat) ≤ x.toNat ∧
      x.toNat < 2 ^ (32 - (clzsi2 x).toNat) := by
  rw [clzsi2_eq]
  exact ⟨BitVec.lt_def.mp (BitVec.clz_lt_iff_ne_zero.mpr hx),
    BitVec.two_pow_sub_clz_le_toNat_of_ne_zero (by decide) hx, BitVec.toNat_lt_two_pow_sub_clz⟩

/-- A power of two by its trailing zeros. -/
theorem eq_two_pow_of_and {x : Word} (hx : x ≠ 0#32) (h : x &&& (x - 1#32) = 0#32) :
    (ctzsi2 x).toNat < 32 ∧ x.toNat = 2 ^ (ctzsi2 x).toNat := by
  have hpos : x.toNat ≠ 0 := fun h0 => hx (BitVec.eq_of_toNat_eq h0)
  have hsub : (x - 1#32).toNat = x.toNat - 1 :=
    BitVec.toNat_sub_of_le (by rw [BitVec.le_def]; exact Nat.one_le_iff_ne_zero.mpr hpos)
  have hnat : x.toNat &&& (x.toNat - 1) = 0 := by
    rw [← hsub, ← BitVec.toNat_and, h]
    rfl
  obtain ⟨c, hc⟩ := (Nat.and_sub_one_eq_zero_iff_isPowerOfTwo hpos).mp hnat
  have hctz : x.ctz.toNat = c := ctz_eq_of_odd (hc.trans (Nat.one_mul _).symm) rfl
  rw [ctzsi2_eq, hctz]
  refine ⟨?_, hc⟩
  rw [← hctz]
  exact BitVec.lt_def.mp (BitVec.ctz_lt_iff_ne_zero.mpr hx)

/-- The lower bits of a word. -/
theorem and_sub_one_toNat {x y : Word} {c : ℕ} (hy : y.toNat = 2 ^ c) :
    (x &&& (y - 1#32)).toNat = x.toNat % 2 ^ c := by
  have hsub : (y - 1#32).toNat = 2 ^ c - 1 := by
    rw [← hy]
    exact BitVec.toNat_sub_of_le (by rw [BitVec.le_def, hy]; exact Nat.one_le_two_pow)
  rw [BitVec.toNat_and, hsub, Nat.and_two_pow_sub_one_eq_mod]

/-- The quotient and the remainder of double words, as numbers. -/
theorem eq_div_mod {a b q r : BitVec 64} (hq : q.toNat = a.toNat / b.toNat)
    (hr : r.toNat = a.toNat % b.toNat) : some (q, r) = some (a / b, a % b) := by
  rw [BitVec.eq_of_toNat_eq (hq.trans BitVec.toNat_udiv.symm),
    BitVec.eq_of_toNat_eq (hr.trans BitVec.toNat_umod.symm)]

section Cases

variable {n d : Udwords}

/-- The long division of a number with an upper half by another begins with fewer bits than the
divisor has. -/
theorem start_high (hn : n.high ≠ 0#32) (hd : d.high ≠ 0#32)
    (hle : (clzsi2 n.high).toNat ≤ (clzsi2 d.high).toNat) :
    n.all.toNat / 2 ^ ((clzsi2 d.high).toNat - (clzsi2 n.high).toNat + 1) < d.all.toNat ∧
      (d.all.toNat ≤ 2 ^ 63 ∨ (clzsi2 d.high).toNat - (clzsi2 n.high).toNat + 1 ≤ 1 ∧
        2 ^ 63 ≤ n.all.toNat) := by
  obtain ⟨hcn, hnge, hnlt⟩ := bounds_of_ne_zero hn
  obtain ⟨hcd, hdge, hdlt⟩ := bounds_of_ne_zero hd
  have hnl := n.low.isLt
  have hdl := d.low.isLt
  rw [Udwords.toNat_all, Udwords.toNat_all]
  generalize (clzsi2 n.high).toNat = cn at *
  generalize (clzsi2 d.high).toNat = cd at *
  constructor
  · have hsplit : 2 ^ (cd - cn + 1) * 2 ^ (31 - cd) * 2 ^ 32 = 2 ^ (32 - cn) * 2 ^ 32 := by
      rw [← pow_add, show cd - cn + 1 + (31 - cd) = 32 - cn by omega]
    have hbelow : n.high.toNat * 2 ^ 32 + n.low.toNat < 2 ^ (cd - cn + 1) * (2 ^ (31 - cd) * 2 ^ 32) := by
      rw [← Nat.mul_assoc, hsplit]
      have := Nat.mul_le_mul_right (2 ^ 32) (Nat.succ_le_of_lt hnlt)
      omega
    have habove := Nat.mul_le_mul_right (2 ^ 32) hdge
    exact (Nat.div_lt_of_lt_mul hbelow).trans_le (habove.trans (Nat.le_add_right _ _))
  · rcases Nat.eq_zero_or_pos cd with rfl | hpos
    · obtain rfl : cn = 0 := by omega
      right
      exact ⟨le_rfl, by omega⟩
    · left
      have hhalf : d.high.toNat < 2 ^ 31 :=
        hdlt.trans_le (Nat.pow_le_pow_right two_pos (by omega))
      omega

/-- The long division by a number without an upper half does so as well. -/
theorem start_low (hn : n.high ≠ 0#32) (hd : d.high = 0#32) (hdl : d.low ≠ 0#32) :
    n.all.toNat / 2 ^ (33 + (clzsi2 d.low).toNat - (clzsi2 n.high).toNat) < d.all.toNat ∧
      d.all.toNat ≤ 2 ^ 63 := by
  obtain ⟨hcn, hnge, hnlt⟩ := bounds_of_ne_zero hn
  obtain ⟨hcd, hdge, hdlt⟩ := bounds_of_ne_zero hdl
  have hnl := n.low.isLt
  have hdl' := d.low.isLt
  rw [Udwords.toNat_all, Udwords.toNat_all, hd, BitVec.toNat_zero, Nat.zero_mul, Nat.zero_add]
  generalize (clzsi2 n.high).toNat = cn at *
  generalize (clzsi2 d.low).toNat = cd at *
  constructor
  · have hsplit : 2 ^ (33 + cd - cn) * 2 ^ (31 - cd) = 2 ^ (32 - cn) * 2 ^ 32 := by
      rw [← pow_add, ← pow_add, show 33 + cd - cn + (31 - cd) = 32 - cn + 32 by omega]
    have hbelow : n.high.toNat * 2 ^ 32 + n.low.toNat < 2 ^ (33 + cd - cn) * 2 ^ (31 - cd) := by
      rw [hsplit]
      have := Nat.mul_le_mul_right (2 ^ 32) (Nat.succ_le_of_lt hnlt)
      omega
    exact (Nat.div_lt_of_lt_mul hbelow).trans_le hdge
  · omega

/-- The difference of two numbers of leading zeros, which wraps around below 0. -/
theorem clz_sub {x y : Word} (hx : x.toNat < 32) (hy : y.toNat < 32) :
    (y.toNat ≤ x.toNat ∧ (x - y).toNat = x.toNat - y.toNat) ∨
      (x.toNat < y.toNat ∧ 31 < (x - y).toNat) := by
  rcases Nat.lt_or_ge x.toNat y.toNat with h | h
  · right
    rw [BitVec.toNat_sub]
    omega
  · left
    exact ⟨h, BitVec.toNat_sub_of_le h⟩

/-- A number with fewer leading zeros is greater. -/
theorem lt_of_clz_lt (hn : n.high ≠ 0#32) (hd : d.high ≠ 0#32)
    (h : (clzsi2 d.high).toNat < (clzsi2 n.high).toNat) : n.all.toNat < d.all.toNat := by
  obtain ⟨hcn, hnge, hnlt⟩ := bounds_of_ne_zero hn
  obtain ⟨hcd, hdge, hdlt⟩ := bounds_of_ne_zero hd
  have hnl := n.low.isLt
  have hpow : 2 ^ (32 - (clzsi2 n.high).toNat) ≤ 2 ^ (31 - (clzsi2 d.high).toNat) :=
    Nat.pow_le_pow_right two_pos (by omega)
  rw [Udwords.toNat_all, Udwords.toNat_all]
  omega

/-- A word as a double word. -/
theorem toNat_setWidth_64 (x : Word) : (x.setWidth 64).toNat = x.toNat := by
  have := x.isLt
  rw [BitVec.toNat_setWidth]
  omega

/-- A quotient below 1. -/
theorem eq_div_mod_of_lt {a b : BitVec 64} (h : a.toNat < b.toNat) :
    some (0#64, a) = some (a / b, a % b) :=
  eq_div_mod (Nat.div_eq_of_lt h).symm (Nat.mod_eq_of_lt h).symm

/-- The dividend is a word. -/
theorem udivmoddi4_of_high_eq_zero (hn : n.high = 0#32) (hd : d.all ≠ 0#64) :
    udivmoddi4 n.all d.all = some (n.all / d.all, n.all % d.all) := by
  have hnall : n.all.toNat = n.low.toNat := by
    rw [Udwords.toNat_all, hn, BitVec.toNat_zero, Nat.zero_mul, Nat.zero_add]
  simp only [udivmoddi4, Udwords.ofAll_all, if_pos hn]
  by_cases hdh : d.high = 0#32
  · have hdall : d.all.toNat = d.low.toNat := by
      rw [Udwords.toNat_all, hdh, BitVec.toNat_zero, Nat.zero_mul, Nat.zero_add]
    have hdl : d.low ≠ 0#32 := fun h0 => hd (BitVec.eq_of_toNat_eq (by rw [hdall, h0]; rfl))
    rw [if_pos hdh, SuInt.mod, SuInt.div, if_neg hdl, if_neg hdl]
    refine eq_div_mod ?_ ?_
    · rw [toNat_setWidth_64, BitVec.toNat_udiv, hnall, hdall]
    · rw [toNat_setWidth_64, BitVec.toNat_umod, hnall, hdall]
  · have hlt : n.all.toNat < d.all.toNat := by
      have hpos : 0 < d.high.toNat := Nat.pos_of_ne_zero fun h0 => hdh (BitVec.eq_of_toNat_eq h0)
      have := n.low.isLt
      rw [hnall, Udwords.toNat_all]
      omega
    rw [if_neg hdh, ← eq_div_mod_of_lt hlt]
    exact congrArg (fun x => some (0#64, x))
      (BitVec.eq_of_toNat_eq ((toNat_setWidth_64 _).trans hnall.symm))

/-- The long division with less than 32 iterations. -/
theorem splitLow_divLoop {sr : Word} (hpos : 0 < sr.toNat) (hlt : sr.toNat < 32)
    (hstart : n.all.toNat / 2 ^ sr.toNat < d.all.toNat)
    (hnear : d.all.toNat ≤ 2 ^ 63 ∨ sr.toNat ≤ 1 ∧ 2 ^ 63 ≤ n.all.toNat) :
    (do
      let (q, r) ← splitLow n sr
      some (divLoop d.all sr q r)) = some (n.all / d.all, n.all % d.all) := by
  obtain ⟨q, r, hsplit, hq, hr⟩ := splitLow_eq hpos hlt
  rw [hsplit, ← divLoop_eq (by omega) hq hr hstart hnear]
  rfl

/-- The long division with 32 iterations. -/
theorem splitMiddle_divLoop (hstart : n.all.toNat / 2 ^ 32 < d.all.toNat)
    (hnear : d.all.toNat ≤ 2 ^ 63) :
    some (divLoop d.all 32#32 (splitMiddle n).1 (splitMiddle n).2) =
      some (n.all / d.all, n.all % d.all) := by
  obtain ⟨hq, hr⟩ := splitMiddle_eq (n := n)
  rw [divLoop_eq (by decide : (32#32).toNat ≤ 64) hq hr hstart (.inl hnear)]

/-- The divisor has no lower half. -/
theorem udivmoddi4_of_low_eq_zero (hn : n.high ≠ 0#32) (hd : d.low = 0#32) (hdh : d.high ≠ 0#32) :
    udivmoddi4 n.all d.all = some (n.all / d.all, n.all % d.all) := by
  have hdall : d.all.toNat = d.high.toNat * 2 ^ 32 := by
    rw [Udwords.toNat_all, hd, BitVec.toNat_zero, Nat.add_zero]
  have hlow := n.low.isLt
  simp only [udivmoddi4, Udwords.ofAll_all, if_neg hn, if_pos hd, if_neg hdh]
  by_cases hnl : n.low = 0#32
  · have hnall : n.all.toNat = n.high.toNat * 2 ^ 32 := by
      rw [Udwords.toNat_all, hnl, BitVec.toNat_zero, Nat.add_zero]
    rw [if_pos hnl, SuInt.mod, SuInt.div, if_neg hdh, if_neg hdh]
    refine eq_div_mod ?_ ?_
    · rw [toNat_setWidth_64, BitVec.toNat_udiv, hnall, hdall,
        Nat.mul_div_mul_right _ _ (Nat.two_pow_pos 32)]
    · rw [Udwords.toNat_all, BitVec.toNat_umod, BitVec.toNat_zero, Nat.add_zero, hnall, hdall,
        Nat.mul_mod_mul_right]
  rw [if_neg hnl]
  by_cases hpow : d.high &&& (d.high - 1#32) = 0#32
  · obtain ⟨hc, hd2⟩ := eq_two_pow_of_and hdh hpow
    have hhigh : n.all.toNat / 2 ^ 32 = n.high.toNat := by
      rw [Udwords.toNat_all]
      omega
    have hlow' : n.all.toNat % 2 ^ 32 = n.low.toNat := by
      rw [Udwords.toNat_all]
      omega
    rw [if_pos hpow, SuInt.shr_eq hc]
    refine eq_div_mod ?_ ?_
    · rw [toNat_setWidth_64, BitVec.toNat_ushiftRight, Nat.shiftRight_eq_div_pow, hdall, hd2,
        Nat.mul_comm, ← Nat.div_div_eq_div_mul, hhigh]
    · rw [Udwords.toNat_all, and_sub_one_toNat hd2, hdall, hd2, Nat.mul_comm (2 ^ _), Nat.mod_mul,
        hhigh, hlow', Nat.add_comm, Nat.mul_comm]
  rw [if_neg hpow]
  obtain ⟨hcn, hnge, hnlt⟩ := bounds_of_ne_zero hn
  obtain ⟨hcd, hdge, hdlt⟩ := bounds_of_ne_zero hdh
  rcases clz_sub hcd hcn with ⟨hle, hsub⟩ | ⟨hlt, hsub⟩
  · have h30 : ¬ 30#32 < clzsi2 d.high - clzsi2 n.high := by
      rw [BitVec.lt_def, hsub]
      intro h
      -- Only the divisor `2 ^ 32` has 31 zeros more.
      have hd1 : d.high = 1#32 := by
        have h31 : (clzsi2 d.high).toNat = 31 := by
          change 30 < _ at h
          omega
        rw [h31] at hdge hdlt
        exact BitVec.eq_of_toNat_eq (Nat.le_antisymm (Nat.le_of_lt_succ hdlt) hdge)
      exact hpow (by rw [hd1]; rfl)
    have hsr : (clzsi2 d.high - clzsi2 n.high + 1#32).toNat =
        (clzsi2 d.high).toNat - (clzsi2 n.high).toNat + 1 := by
      rw [BitVec.toNat_add, hsub]
      exact Nat.mod_eq_of_lt (by change _ + 1 < 2 ^ 32; omega)
    have h30' : (clzsi2 d.high).toNat - (clzsi2 n.high).toNat ≤ 30 := by
      rw [BitVec.lt_def, hsub] at h30
      exact Nat.le_of_not_lt h30
    obtain ⟨hstart, hnear⟩ := start_high hn hdh hle
    rw [if_neg h30]
    exact splitLow_divLoop (by omega) (by omega) (hsr ▸ hstart) (hsr ▸ hnear)
  · rw [if_pos (by rw [BitVec.lt_def]; exact Nat.lt_of_succ_lt hsub)]
    exact eq_div_mod_of_lt (lt_of_clz_lt hn hdh hlt)

/-- The divisor is a word that is a power of two. -/
theorem udivmoddi4_of_two_pow (hn : n.high ≠ 0#32) (hd : d.low ≠ 0#32) (hdh : d.high = 0#32)
    (hpow : d.low &&& (d.low - 1#32) = 0#32) :
    udivmoddi4 n.all d.all = some (n.all / d.all, n.all % d.all) := by
  obtain ⟨hc, hd2⟩ := eq_two_pow_of_and hd hpow
  have hdall : d.all.toNat = 2 ^ (ctzsi2 d.low).toNat := by
    rw [Udwords.toNat_all, hdh, BitVec.toNat_zero, Nat.zero_mul, Nat.zero_add, hd2]
  simp only [udivmoddi4, Udwords.ofAll_all, if_neg hn, if_neg hd, if_pos hdh, if_pos hpow]
  have hrem : ((n.low &&& (d.low - 1#32)).setWidth 64).toNat = n.all.toNat % d.all.toNat := by
    have hdvd : 2 ^ (ctzsi2 d.low).toNat ∣ n.high.toNat * 2 ^ 32 :=
      (Nat.pow_dvd_pow 2 hc.le).mul_left _
    rw [toNat_setWidth_64, and_sub_one_toNat hd2, hdall, Udwords.toNat_all, Nat.add_mod,
      Nat.mod_eq_zero_of_dvd hdvd, Nat.zero_add, Nat.mod_mod]
  by_cases h1 : d.low = 1#32
  · have hd1 : d.all.toNat = 1 := by
      rw [Udwords.toNat_all, hdh, h1]
      rfl
    rw [if_pos h1]
    exact eq_div_mod (by rw [hd1, Nat.div_one]) hrem
  · have hpos : 0 < (ctzsi2 d.low).toNat := by
      refine Nat.pos_of_ne_zero fun h0 => h1 (BitVec.eq_of_toNat_eq ?_)
      rw [hd2, h0]
      rfl
    have hsub : (32#32 - ctzsi2 d.low).toNat = 32 - (ctzsi2 d.low).toNat :=
      BitVec.toNat_sub_of_le hc.le
    rw [if_neg h1, SuInt.shr_eq hc, SuInt.shr_eq hc, SuInt.shl_eq (by omega), hsub]
    refine eq_div_mod ?_ hrem
    rw [← all_shiftRight hc.le, BitVec.toNat_ushiftRight, Nat.shiftRight_eq_div_pow, hdall]

/-- The divisor is another word. -/
theorem udivmoddi4_of_not_two_pow (hn : n.high ≠ 0#32) (hd : d.low ≠ 0#32) (hdh : d.high = 0#32)
    (hpow : d.low &&& (d.low - 1#32) ≠ 0#32) :
    udivmoddi4 n.all d.all = some (n.all / d.all, n.all % d.all) := by
  simp only [udivmoddi4, Udwords.ofAll_all, if_neg hn, if_neg hd, if_pos hdh, if_neg hpow]
  obtain ⟨hcn, hnge, hnlt⟩ := bounds_of_ne_zero hn
  obtain ⟨hcd, hdge, hdlt⟩ := bounds_of_ne_zero hd
  obtain ⟨hstart, hnear⟩ := start_low hn hdh hd
  have h30 : (clzsi2 d.low).toNat ≤ 30 := by
    by_contra h
    have h31 : (clzsi2 d.low).toNat = 31 := by omega
    have hd1 : d.low = 1#32 := by
      rw [h31] at hdge hdlt
      exact BitVec.eq_of_toNat_eq (Nat.le_antisymm (Nat.le_of_lt_succ hdlt) hdge)
    exact hpow (by rw [hd1]; rfl)
  have hsr : (1#32 + 32#32 + clzsi2 d.low - clzsi2 n.high).toNat =
      33 + (clzsi2 d.low).toNat - (clzsi2 n.high).toNat := by
    have hadd : (1#32 + 32#32 + clzsi2 d.low).toNat = 33 + (clzsi2 d.low).toNat := by
      rw [BitVec.toNat_add]
      exact Nat.mod_eq_of_lt (by change 33 + _ < 2 ^ 32; omega)
    rw [BitVec.toNat_sub_of_le (by rw [BitVec.le_def, hadd]; omega), hadd]
  generalize 1#32 + 32#32 + clzsi2 d.low - clzsi2 n.high = sr at hsr ⊢
  rw [← hsr] at hstart
  by_cases h32 : sr = 32#32
  · rw [if_pos h32]
    rw [h32] at hstart ⊢
    exact splitMiddle_divLoop hstart hnear
  rw [if_neg h32]
  have hne : sr.toNat ≠ 32 := fun h => h32 (BitVec.eq_of_toNat_eq h)
  by_cases hlt : sr < 32#32
  · rw [if_pos hlt]
    exact splitLow_divLoop (by omega) (BitVec.lt_def.mp hlt) hstart (.inl hnear)
  · have hgt : 32 < sr.toNat := by
      rw [BitVec.lt_def] at hlt
      change ¬ sr.toNat < 32 at hlt
      omega
    obtain ⟨q, r, hsplit, hq, hr⟩ := splitHigh_eq (n := n) hgt (by omega)
    rw [if_neg hlt, hsplit, ← divLoop_eq (by omega) hq hr hstart (.inl hnear)]
    rfl

/-- The divisor has two halves. -/
theorem udivmoddi4_of_both (hn : n.high ≠ 0#32) (hd : d.low ≠ 0#32) (hdh : d.high ≠ 0#32) :
    udivmoddi4 n.all d.all = some (n.all / d.all, n.all % d.all) := by
  simp only [udivmoddi4, Udwords.ofAll_all, if_neg hn, if_neg hd, if_neg hdh]
  obtain ⟨hcn, hnge, hnlt⟩ := bounds_of_ne_zero hn
  obtain ⟨hcd, hdge, hdlt⟩ := bounds_of_ne_zero hdh
  rcases clz_sub hcd hcn with ⟨hle, hsub⟩ | ⟨hlt, hsub⟩
  · have h31 : ¬ 31#32 < clzsi2 d.high - clzsi2 n.high := by
      rw [BitVec.lt_def, hsub]
      change ¬ 31 < _
      omega
    have hsr : (clzsi2 d.high - clzsi2 n.high + 1#32).toNat =
        (clzsi2 d.high).toNat - (clzsi2 n.high).toNat + 1 := by
      rw [BitVec.toNat_add, hsub]
      exact Nat.mod_eq_of_lt (by change _ + 1 < 2 ^ 32; omega)
    obtain ⟨hstart, hnear⟩ := start_high hn hdh hle
    rw [← hsr] at hstart hnear
    rw [if_neg h31]
    generalize clzsi2 d.high - clzsi2 n.high + 1#32 = sr at hsr hstart hnear ⊢
    by_cases h32 : sr = 32#32
    · rw [if_pos h32]
      rw [h32] at hstart hnear ⊢
      exact splitMiddle_divLoop hstart (hnear.resolve_right fun h => absurd h.1 (by decide))
    · have hne : sr.toNat ≠ 32 := fun h => h32 (BitVec.eq_of_toNat_eq h)
      rw [if_neg h32]
      exact splitLow_divLoop (by omega) (by omega) hstart hnear
  · rw [if_pos (by rw [BitVec.lt_def]; exact hsub)]
    exact eq_div_mod_of_lt (lt_of_clz_lt hn hdh hlt)

end Cases

/-- A division by 0. -/
theorem udivmoddi4_zero {n d : Udwords} (hd : d.all = 0#64) : udivmoddi4 n.all d.all = none := by
  obtain rfl : d = ⟨0#32, 0#32⟩ := by
    rw [← Udwords.ofAll_all d, hd]
    rfl
  simp only [udivmoddi4, Udwords.ofAll_all]
  split_ifs <;> rfl

/-- `__udivmoddi4` has a result for the divisors other than 0: the quotient and the remainder. -/
theorem udivmoddi4_spec (a b : BitVec 64) :
    udivmoddi4 a b = if b = 0#64 then none else some (a / b, a % b) := by
  obtain ⟨n, rfl⟩ : ∃ n : Udwords, a = n.all := ⟨Udwords.ofAll a, (Udwords.all_ofAll a).symm⟩
  obtain ⟨d, rfl⟩ : ∃ d : Udwords, b = d.all := ⟨Udwords.ofAll b, (Udwords.all_ofAll b).symm⟩
  by_cases hb : d.all = 0#64
  · rw [if_pos hb, udivmoddi4_zero hb]
  rw [if_neg hb]
  by_cases hn : n.high = 0#32
  · exact udivmoddi4_of_high_eq_zero hn hb
  by_cases hd : d.low = 0#32
  · have hdh : d.high ≠ 0#32 := fun h => hb (BitVec.eq_of_toNat_eq (by
      rw [Udwords.toNat_all, hd, h]
      rfl))
    exact udivmoddi4_of_low_eq_zero hn hd hdh
  by_cases hdh : d.high = 0#32
  · by_cases hpow : d.low &&& (d.low - 1#32) = 0#32
    · exact udivmoddi4_of_two_pow hn hd hdh hpow
    · exact udivmoddi4_of_not_two_pow hn hd hdh hpow
  · exact udivmoddi4_of_both hn hd hdh

/-! ## The sign -/

/-- The mask of a sign negates a number. -/
theorem xor_sub_sign (s : Bool) (x : BitVec 64) :
    (x ^^^ if s then BitVec.allOnes 64 else 0#64) - (if s then BitVec.allOnes 64 else 0#64) =
      if s then -x else x := by
  cases s
  · simp
  · have hall : -BitVec.allOnes 64 = 1#64 := rfl
    rw [if_pos rfl, if_pos rfl, BitVec.xor_allOnes, BitVec.sub_eq_add_neg, hall,
      BitVec.neg_eq_not_add]

/-- The mask of a quotient of numbers with signs. -/
theorem sign_xor (s t : Bool) :
    ((if s then BitVec.allOnes 64 else 0#64) ^^^ if t then BitVec.allOnes 64 else 0#64) =
      if s ^^ t then BitVec.allOnes 64 else 0#64 := by
  cases s <;> cases t <;> rfl

/-- A number that is 0 without its sign. -/
theorem abs_eq_zero_iff (s : Bool) (x : BitVec 64) : (if s then -x else x) = 0#64 ↔ x = 0#64 := by
  cases s
  · rfl
  · exact BitVec.neg_eq_zero_iff

/-- `__divdi3` rounds toward 0. -/
theorem divdi3_spec (a b : BitVec 64) :
    divdi3 a b = if b = 0#64 then none else some (a.sdiv b) := by
  have hsign (x : BitVec 64) := sshiftRight_last x (by decide)
  simp only [divdi3, hsign, sign_xor, xor_sub_sign, udivmoddi4_spec, abs_eq_zero_iff]
  by_cases hb : b = 0#64
  · rw [if_pos hb, if_pos hb]
    rfl
  · rw [if_neg hb, if_neg hb, BitVec.sdiv_eq]
    cases a.msb <;> cases b.msb <;> rfl

/-- `__moddi3` has the remainder with the sign of the dividend. -/
theorem moddi3_spec (a b : BitVec 64) :
    moddi3 a b = if b = 0#64 then none else some (a.srem b) := by
  have hsign (x : BitVec 64) := sshiftRight_last x (by decide)
  simp only [moddi3, hsign, xor_sub_sign, udivmoddi4_spec, abs_eq_zero_iff]
  by_cases hb : b = 0#64
  · rw [if_pos hb, if_pos hb]
    rfl
  · rw [if_neg hb, if_neg hb, BitVec.srem_eq]
    cases a.msb <;> cases b.msb <;> rfl

/-- The remainder by the quotient. -/
theorem sub_sdiv_mul (a b : BitVec 64) : a - a.sdiv b * b = a.srem b := by
  have hdiv (x y : BitVec 64) : x - x.udiv y * y = x % y := by
    rw [sub_eq_iff_eq_add]
    apply BitVec.eq_of_toNat_eq
    rw [BitVec.toNat_add, BitVec.toNat_mul, BitVec.udiv_eq, BitVec.toNat_udiv, BitVec.toNat_umod,
      Nat.add_mod_mod, Nat.mul_comm, Nat.mod_add_div, Nat.mod_eq_of_lt x.isLt]
  rw [BitVec.sdiv_eq, BitVec.srem_eq]
  cases a.msb <;> cases b.msb <;> simp only [← hdiv] <;> ring

/-- `__divmoddi4` has both. -/
theorem divmoddi4_spec (a b : BitVec 64) :
    divmoddi4 a b = if b = 0#64 then none else some (a.sdiv b, a.srem b) := by
  rw [divmoddi4, divdi3_spec]
  split_ifs with hb
  · rfl
  · exact congrArg (fun r => some (a.sdiv b, r)) (sub_sdiv_mul a b)

/-! ## The results -/

/-- For every word and every double word, 0 included: the functions count the zeros at the ends. -/
theorem zeros_counted (a : Word) (b : BitVec 64) :
    clzsi2 a = a.clz ∧ ctzsi2 a = a.ctz ∧ (clzdi2 b).toNat = b.clz.toNat ∧
      (ctzdi2 b).toNat = b.ctz.toNat :=
  ⟨clzsi2_eq a, ctzsi2_eq a, clzdi2_toNat b, ctzdi2_toNat b⟩

/-- The result of a division by `b`, which is undefined for 0. -/
def unlessZero {α : Type} (b : BitVec 64) (v : α) : Option α := if b = 0#64 then none else some v

/-- For every dividend and every divisor, the functions divide by 0 or shift by 32 or more only if
the divisor is 0. Otherwise they have the quotient and the remainder: of numbers without sign, and,
for numbers with sign, the quotient that is rounded toward 0 and the remainder with the sign of the
dividend. -/
theorem divisions_correct (a b : BitVec 64) :
    udivmoddi4 a b = unlessZero b (a / b, a % b) ∧
      udivdi3 a b = unlessZero b (a / b) ∧
      umoddi3 a b = unlessZero b (a % b) ∧
      divdi3 a b = unlessZero b (a.sdiv b) ∧
      moddi3 a b = unlessZero b (a.srem b) ∧
      divmoddi4 a b = unlessZero b (a.sdiv b, a.srem b) := by
  refine ⟨udivmoddi4_spec a b, ?_, ?_, divdi3_spec a b, moddi3_spec a b, divmoddi4_spec a b⟩
  · rw [udivdi3, udivmoddi4_spec, unlessZero]
    split_ifs <;> rfl
  · rw [umoddi3, udivmoddi4_spec, unlessZero]
    split_ifs <;> rfl

end Klib

end RV32Pipeline
