import Mathlib.Data.Nat.ModEq
import Mathlib.Tactic.Ring

/-!
# Long division in a pair of registers

The binary long division of machine words: the dividend moves bit by bit from the upper end of the
register `q` into the register `r`, and the quotient bits move into the lower end of `q`, each one
step late through `carry`. `Inv` says what the registers hold when `k` bits are left, and `step`
preserves it. The comparison of a step can be made without a branch, with a mask from the sign of a
difference (`signMask_eq`).
-/

namespace LongDivision

/-- One digit of a binary long division. -/
theorem div_mod_bit {d : ℕ} (hd : 0 < d) (m b : ℕ) (hb : b < 2) :
    (2 * m + b) / d = 2 * (m / d) + (if d ≤ 2 * (m % d) + b then 1 else 0) ∧
      (2 * m + b) % d = if d ≤ 2 * (m % d) + b then 2 * (m % d) + b - d else 2 * (m % d) + b := by
  have hr : m % d < d := Nat.mod_lt m hd
  have hm : 2 * m + b = d * (2 * (m / d)) + (2 * (m % d) + b) := by
    calc 2 * m + b = 2 * (d * (m / d) + m % d) + b := by rw [Nat.div_add_mod]
      _ = d * (2 * (m / d)) + (2 * (m % d) + b) := by ring
  split_ifs with h
  · have hm' : 2 * m + b = d * (2 * (m / d) + 1) + (2 * (m % d) + b - d) := by
      rw [hm, Nat.mul_add, Nat.mul_one]
      omega
    have hlt : 2 * (m % d) + b - d < d := by omega
    rw [hm', Nat.mul_add_div hd, Nat.div_eq_of_lt hlt, Nat.mul_add_mod, Nat.mod_eq_of_lt hlt]
    exact ⟨rfl, rfl⟩
  · have hlt : 2 * (m % d) + b < d := by omega
    rw [hm, Nat.mul_add_div hd, Nat.div_eq_of_lt hlt, Nat.mul_add_mod, Nat.mod_eq_of_lt hlt]
    exact ⟨rfl, rfl⟩

variable {w : ℕ}

/-- The registers of the division: the remainder, the rest of the dividend with the quotient, and
the last bit of the quotient. -/
@[ext]
structure Registers (w : ℕ) where
  r : BitVec w
  q : BitVec w
  carry : Bool

/-- The remainder with the next bit of the dividend. -/
def Registers.shifted (s : Registers w) : BitVec w := s.r <<< 1 ||| s.q >>> (w - 1)

/-- The quotient with the last bit. -/
def Registers.quotient (s : Registers w) : BitVec w := s.q <<< 1 ||| BitVec.ofNat w s.carry.toNat

/-- One step of the division by `d`. -/
def step (d : BitVec w) (s : Registers w) : Registers w where
  r := if d ≤ s.shifted then s.shifted - d else s.shifted
  q := s.quotient
  carry := decide (d ≤ s.shifted)

/-- The registers with `k` bits of the dividend `n` left. -/
structure Inv (n d : BitVec w) (k : ℕ) (s : Registers w) : Prop where
  le : k ≤ w
  r : s.r.toNat = n.toNat / 2 ^ k % d.toNat
  q : s.q.toNat = n.toNat % 2 ^ k * 2 ^ (w - k) + n.toNat / 2 ^ k / d.toNat / 2
  carry : s.carry.toNat = n.toNat / 2 ^ k / d.toNat % 2

/-- The division can begin with `k` bits left if the others are less than the divisor. -/
theorem inv_start {n d : BitVec w} {k : ℕ} (hk : k ≤ w) (hn : n.toNat / 2 ^ k < d.toNat) :
    Inv n d k ⟨n >>> k, n <<< (w - k), false⟩ where
  le := hk
  r := by rw [BitVec.toNat_ushiftRight, Nat.shiftRight_eq_div_pow, Nat.mod_eq_of_lt hn]
  q := by
    have hw : 2 ^ w = 2 ^ k * 2 ^ (w - k) := by rw [← pow_add, Nat.add_sub_cancel' hk]
    rw [BitVec.toNat_shiftLeft, Nat.shiftLeft_eq, hw, Nat.mul_mod_mul_right, Nat.div_eq_of_lt hn,
      Nat.zero_div, Nat.add_zero]
  carry := by rw [Nat.div_eq_of_lt hn]; rfl

/-- The quotient of the upper bits of a dividend fits beside the lower bits. -/
theorem div_div_lt (n d : BitVec w) {k : ℕ} (hk : k ≤ w) :
    n.toNat / 2 ^ k / d.toNat < 2 ^ (w - k) := by
  have hw : 2 ^ w = 2 ^ k * 2 ^ (w - k) := by rw [← pow_add, Nat.add_sub_cancel' hk]
  have hn : n.toNat / 2 ^ k < 2 ^ (w - k) := Nat.div_lt_of_lt_mul (hw ▸ n.isLt)
  exact (Nat.div_le_self _ _).trans_lt hn

/-- A bit that is shifted in from below. -/
theorem toNat_shiftLeft_or (x b : BitVec w) (hw : 0 < w) (hb : b.toNat < 2) :
    (x <<< 1 ||| b).toNat = 2 * x.toNat % 2 ^ w + b.toNat := by
  have heven : 2 * x.toNat % 2 ^ w = x.toNat % 2 ^ (w - 1) * 2 := by
    obtain ⟨v, rfl⟩ : ∃ v, w = v + 1 := ⟨w - 1, by omega⟩
    rw [Nat.add_sub_cancel, pow_succ, Nat.mul_comm 2, Nat.mul_mod_mul_right]
  have hadd := Nat.shiftLeft_add_eq_or_of_lt (i := 1) hb (x.toNat % 2 ^ (w - 1))
  rw [BitVec.toNat_or, BitVec.toNat_shiftLeft, Nat.shiftLeft_eq, pow_one, Nat.mul_comm, heven]
  rw [Nat.shiftLeft_eq, pow_one] at hadd
  exact hadd.symm

/-- The quotient with the last bit, as a number. -/
theorem Registers.toNat_quotient (s : Registers w) (hw : 0 < w) :
    s.quotient.toNat = 2 * s.q.toNat % 2 ^ w + s.carry.toNat := by
  have hc : (BitVec.ofNat w s.carry.toNat).toNat = s.carry.toNat := by
    rw [BitVec.toNat_ofNat]
    exact Nat.mod_eq_of_lt ((Bool.toNat_lt _).trans_le (Nat.le_self_pow hw.ne' 2))
  rw [Registers.quotient, toNat_shiftLeft_or _ _ hw (by rw [hc]; exact Bool.toNat_lt _), hc]

/-- The sign of a word, spread over a word. -/
theorem sshiftRight_last (x : BitVec w) (hw : 0 < w) :
    x.sshiftRight (w - 1) = if x.msb then BitVec.allOnes w else 0#w := by
  apply BitVec.eq_of_getLsbD_eq
  intro i hi
  have hbit : (x.sshiftRight (w - 1)).getLsbD i = x.msb := by
    rw [BitVec.getLsbD_sshiftRight, decide_eq_false (by omega : ¬ w ≤ i), Bool.not_false,
      Bool.true_and]
    split_ifs with h0
    · rw [show w - 1 + i = w - 1 by omega, BitVec.msb_eq_getLsbD_last]
    · rfl
  rw [hbit]
  cases x.msb
  · exact BitVec.getLsbD_zero.symm
  · rw [if_pos rfl, BitVec.getLsbD_allOnes, decide_eq_true hi]

/-- The sign of `d - r - 1`, spread over a word, is a mask for `d ≤ r`, as long as the two numbers
are not too far apart. -/
theorem signMask_eq {d r : BitVec w} (hw : 0 < w) (hr : r.toNat < d.toNat + 2 ^ (w - 1))
    (hd : d.toNat ≤ r.toNat + 2 ^ (w - 1)) :
    (d - r - 1#w).sshiftRight (w - 1) = if d ≤ r then BitVec.allOnes w else 0#w := by
  have hpow : 2 ^ w = 2 * 2 ^ (w - 1) := by rw [← pow_succ', Nat.sub_add_cancel hw]
  have hone : (1#w).toNat = 1 := by
    rw [BitVec.toNat_ofNat]
    exact Nat.mod_eq_of_lt (Nat.one_lt_two_pow hw.ne')
  have hle : d ≤ r ↔ d.toNat ≤ r.toNat := Iff.rfl
  have hmsb : (d - r - 1#w).msb = decide (d ≤ r) := by
    have hdlt := d.isLt
    have hrlt := r.isLt
    rw [BitVec.msb_eq_decide, decide_eq_decide, BitVec.toNat_sub, BitVec.toNat_sub, hone, hle,
      Nat.add_mod_mod]
    rcases Nat.lt_or_ge r.toNat d.toNat with h | h
    · rw [show 2 ^ w - 1 + (2 ^ w - r.toNat + d.toNat) = d.toNat - r.toNat - 1 + 2 ^ w + 2 ^ w by
          omega, Nat.add_mod_right, Nat.add_mod_right, Nat.mod_eq_of_lt (by omega)]
      omega
    · rw [show 2 ^ w - 1 + (2 ^ w - r.toNat + d.toNat) = 2 ^ w - 1 - (r.toNat - d.toNat) + 2 ^ w by
          omega, Nat.add_mod_right, Nat.mod_eq_of_lt (by omega)]
      omega
  rw [sshiftRight_last _ hw, hmsb]
  simp only [decide_eq_true_eq]

namespace Inv

variable {n d : BitVec w} {k : ℕ} {s : Registers w}

/-- The remainder with the next bit of the dividend, and this bit. -/
theorem shifted (h : Inv n d (k + 1) s) :
    s.shifted.toNat = 2 * (n.toNat / 2 ^ (k + 1) % d.toNat) + n.toNat / 2 ^ k % 2 := by
  have hk := h.le
  -- The upper end of `q`.
  have hbit : (s.q >>> (w - 1)).toNat = n.toNat / 2 ^ k % 2 := by
    have hlt : n.toNat / 2 ^ (k + 1) / d.toNat / 2 < 2 ^ (w - (k + 1)) :=
      (Nat.div_le_self _ _).trans_lt (div_div_lt n d hk)
    rw [BitVec.toNat_ushiftRight, Nat.shiftRight_eq_div_pow, h.q,
      show w - 1 = w - (k + 1) + k by omega, pow_add 2 (w - (k + 1)), ← Nat.div_div_eq_div_mul,
      Nat.mul_comm, Nat.mul_add_div (Nat.two_pow_pos _), Nat.div_eq_of_lt hlt, Nat.add_zero,
      pow_succ, Nat.mod_mul_right_div_self]
  have hr : 2 * s.r.toNat < 2 ^ w := by
    have hle : n.toNat / 2 ^ (k + 1) % d.toNat ≤ n.toNat / 2 := by
      rw [pow_succ', ← Nat.div_div_eq_div_mul]
      exact (Nat.mod_le _ _).trans (Nat.div_le_self _ _)
    have := n.isLt
    rw [h.r]
    omega
  rw [Registers.shifted, toNat_shiftLeft_or _ _ (by omega) (hbit ▸ Nat.mod_lt _ two_pos), hbit,
    Nat.mod_eq_of_lt hr, h.r]

/-- The quotient before the last bits are there. -/
theorem quotient (h : Inv n d (k + 1) s) :
    s.quotient.toNat = n.toNat % 2 ^ k * 2 ^ (w - k) + n.toNat / 2 ^ (k + 1) / d.toNat := by
  have hk := h.le
  have hlt := div_div_lt n d hk
  have hpow : 2 ^ (w - k) = 2 * 2 ^ (w - (k + 1)) := by
    rw [← pow_succ', show w - (k + 1) + 1 = w - k by omega]
  have hw : 2 ^ w = 2 ^ k * 2 ^ (w - k) := by rw [← pow_add, Nat.add_sub_cancel' (by omega)]
  have hdouble : 2 * s.q.toNat = n.toNat % 2 ^ (k + 1) * 2 ^ (w - k) +
      2 * (n.toNat / 2 ^ (k + 1) / d.toNat / 2) := by
    rw [h.q, hpow]
    ring
  have hsmall : 2 * (n.toNat / 2 ^ (k + 1) / d.toNat / 2) < 2 ^ (w - k) := by omega
  -- The bit that leaves `q`.
  have hbits : n.toNat % 2 ^ (k + 1) % 2 ^ k = n.toNat % 2 ^ k :=
    Nat.mod_mod_of_dvd _ (Nat.pow_dvd_pow 2 (Nat.le_succ k))
  have hmod : 2 * s.q.toNat % 2 ^ w = n.toNat % 2 ^ k * 2 ^ (w - k) +
      2 * (n.toNat / 2 ^ (k + 1) / d.toNat / 2) := by
    rw [hdouble, hw, Nat.mul_comm (2 ^ k), Nat.mod_mul, Nat.mul_comm _ (2 ^ (w - k)),
      Nat.mul_add_mod, Nat.mod_eq_of_lt hsmall, Nat.mul_add_div (Nat.two_pow_pos _),
      Nat.div_eq_of_lt hsmall, Nat.add_zero (n.toNat % 2 ^ (k + 1)), hbits, Nat.add_comm, Nat.mul_comm]
  rw [s.toNat_quotient (by omega), hmod, h.carry]
  omega

/-- A step preserves the invariant. -/
theorem step (h : Inv n d (k + 1) s) (hd : 0 < d.toNat) :
    Inv n d k (LongDivision.step d s) := by
  have hbit : n.toNat / 2 ^ k = 2 * (n.toNat / 2 ^ (k + 1)) + n.toNat / 2 ^ k % 2 := by
    rw [pow_succ, ← Nat.div_div_eq_div_mul]
    omega
  obtain ⟨hdiv, hmod⟩ :=
    div_mod_bit hd (n.toNat / 2 ^ (k + 1)) (n.toNat / 2 ^ k % 2) (Nat.mod_lt _ two_pos)
  rw [← hbit, ← h.shifted] at hdiv hmod
  have hle : d ≤ s.shifted ↔ d.toNat ≤ s.shifted.toNat := Iff.rfl
  refine ⟨by have := h.le; omega, ?_, ?_, ?_⟩
  · rw [hmod, LongDivision.step]
    simp only [hle]
    split_ifs with hd
    · exact BitVec.toNat_sub_of_le hd
    · rfl
  · rw [LongDivision.step, h.quotient, hdiv]
    split_ifs <;> omega
  · rw [LongDivision.step, hdiv]
    simp only [hle]
    split_ifs with hd <;> simp [hd]

/-- The remainder when all bits have been moved. -/
theorem remainder (h : Inv n d 0 s) : s.r = n % d := by
  apply BitVec.eq_of_toNat_eq
  rw [h.r, BitVec.toNat_umod, pow_zero, Nat.div_one]

/-- The quotient when all bits have been moved. -/
theorem quotient_zero (h : Inv n d 0 s) (hw : 0 < w) : s.quotient = n / d := by
  have hq : s.q.toNat = n.toNat / d.toNat / 2 := by
    rw [h.q, pow_zero, Nat.mod_one, Nat.zero_mul, Nat.zero_add, Nat.div_one]
  have hc : s.carry.toNat = n.toNat / d.toNat % 2 := by rw [h.carry, pow_zero, Nat.div_one]
  have hlt : n.toNat / d.toNat < 2 ^ w := (Nat.div_le_self _ _).trans_lt n.isLt
  apply BitVec.eq_of_toNat_eq
  rw [s.toNat_quotient hw, hq, hc, BitVec.toNat_udiv, Nat.mod_eq_of_lt (by omega)]
  omega

end Inv

/-- The division with `k` bits left. -/
theorem iterate_step {n d : BitVec w} {k : ℕ} {s : Registers w} (h : Inv n d k s)
    (hd : 0 < d.toNat) : Inv n d 0 ((step d)^[k] s) := by
  induction k generalizing s with
  | zero => exact h
  | succ k ih => exact ih (h.step hd)

end LongDivision
