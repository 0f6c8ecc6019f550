import RV32Pipeline.Lib.Rv32i

/-!
# The instruction set extension M for RV32

The eight instructions that multiply and divide, their encodings, and their results: the high half
of a product for each mix of signed and unsigned operands, and quotients and remainders that are
rounded toward zero, with a value also for the division by zero and for the overflow.
-/

namespace Rv32m

open Rv32i (Word Reg)

/-- The operations of the extension M. -/
inductive MulDivOp where
  | mul
  | mulh
  | mulhsu
  | mulhu
  | div
  | divu
  | rem
  | remu
  deriving DecidableEq

/-- The field `funct3` of an operation. -/
def MulDivOp.funct3 : MulDivOp → BitVec 3
  | mul => 0b000#3
  | mulh => 0b001#3
  | mulhsu => 0b010#3
  | mulhu => 0b011#3
  | div => 0b100#3
  | divu => 0b101#3
  | rem => 0b110#3
  | remu => 0b111#3

/-- The encoding of an operation: the opcode of the operations on registers, with `funct7` 1. -/
def MulDivOp.encode (op : MulDivOp) (rd rs1 rs2 : Reg) : Word :=
  Rv32i.rType 0b0000001#7 rs2 rs1 op.funct3 rd 0b0110011#7

/-- The result of an operation. The quotient of the least number and -1, which is no number of 32
bits, wraps around to the least number, with remainder 0. -/
def MulDivOp.eval (op : MulDivOp) (x y : Word) : Word :=
  match op with
  | mul => BitVec.ofInt 32 (x.toInt * y.toInt)
  | mulh => BitVec.ofInt 32 (x.toInt * y.toInt / 2 ^ 32)
  | mulhsu => BitVec.ofInt 32 (x.toInt * y.toNat / 2 ^ 32)
  | mulhu => BitVec.ofInt 32 (x.toNat * y.toNat / 2 ^ 32)
  | div => if y = 0#32 then BitVec.allOnes 32 else BitVec.ofInt 32 (x.toInt.tdiv y.toInt)
  | divu => if y = 0#32 then BitVec.allOnes 32 else BitVec.ofNat 32 (x.toNat / y.toNat)
  | rem => if y = 0#32 then x else BitVec.ofInt 32 (x.toInt.tmod y.toInt)
  | remu => if y = 0#32 then x else BitVec.ofNat 32 (x.toNat % y.toNat)

/-- Bit 25 tells the operations of the extension from those of the base instruction set. -/
theorem bit25_encode (op : MulDivOp) (rd rs1 rs2 : Reg) :
    (op.encode rd rs1 rs2).getLsbD 25 = true := by
  unfold MulDivOp.encode Rv32i.rType
  rw [Rv32i.getLsbD_assemble]
  rfl

/-! ## Signed results from unsigned ones -/

section Signed

variable {x y : Word}

/-- A word with the top bit stands for a negative number, and its negation for the absolute value,
also for the least number. -/
theorem toInt_of_msb (h : x.msb = true) : x.toInt = -((-x).toNat : ℤ) := by
  have hx := x.isLt
  rw [BitVec.msb_eq_decide, decide_eq_true_eq] at h
  rw [BitVec.toInt_eq_toNat_cond, BitVec.toNat_neg]
  split_ifs <;> omega

theorem ne_zero_of_msb (h : x.msb = true) : x ≠ 0#32 ∧ -x ≠ 0#32 := by
  constructor
  · rintro rfl
    exact absurd h (by decide)
  · intro h0
    rw [BitVec.neg_eq_zero_iff] at h0
    rw [h0] at h
    exact absurd h (by decide)

theorem ofInt_tdiv (a b : ℕ) : BitVec.ofInt 32 ((a : ℤ).tdiv b) = BitVec.ofNat 32 (a / b) := by
  rw [← Int.ofNat_tdiv, BitVec.ofInt_natCast]

theorem ofInt_tmod (a b : ℕ) : BitVec.ofInt 32 ((a : ℤ).tmod b) = BitVec.ofNat 32 (a % b) := by
  rw [← Int.ofNat_tmod, BitVec.ofInt_natCast]

/-- Two operands that are not negative. -/
theorem div_of_nonneg (hx : x.msb = false) (hy : y.msb = false) :
    MulDivOp.div.eval x y = MulDivOp.divu.eval x y := by
  rw [MulDivOp.eval, MulDivOp.eval, BitVec.toInt_eq_toNat_of_msb hx,
    BitVec.toInt_eq_toNat_of_msb hy, ofInt_tdiv]

theorem rem_of_nonneg (hx : x.msb = false) (hy : y.msb = false) :
    MulDivOp.rem.eval x y = MulDivOp.remu.eval x y := by
  rw [MulDivOp.eval, MulDivOp.eval, BitVec.toInt_eq_toNat_of_msb hx,
    BitVec.toInt_eq_toNat_of_msb hy, ofInt_tmod]

/-- A negative dividend. -/
theorem div_of_neg_left (hx : x.msb = true) (hy : y.msb = false) (h0 : y ≠ 0#32) :
    MulDivOp.div.eval x y = -MulDivOp.divu.eval (-x) y := by
  rw [MulDivOp.eval, MulDivOp.eval, if_neg h0, if_neg h0, toInt_of_msb hx,
    BitVec.toInt_eq_toNat_of_msb hy, Int.neg_tdiv, BitVec.ofInt_neg, ofInt_tdiv]

theorem rem_of_neg_left (hx : x.msb = true) (hy : y.msb = false) :
    MulDivOp.rem.eval x y = -MulDivOp.remu.eval (-x) y := by
  rw [MulDivOp.eval, MulDivOp.eval]
  split_ifs
  · rw [BitVec.neg_neg]
  · rw [toInt_of_msb hx, BitVec.toInt_eq_toNat_of_msb hy, Int.neg_tmod, BitVec.ofInt_neg, ofInt_tmod]

/-- A negative divisor. -/
theorem div_of_neg_right (hx : x.msb = false) (hy : y.msb = true) :
    MulDivOp.div.eval x y = -MulDivOp.divu.eval x (-y) := by
  rw [MulDivOp.eval, MulDivOp.eval, if_neg (ne_zero_of_msb hy).1, if_neg (ne_zero_of_msb hy).2,
    toInt_of_msb hy, BitVec.toInt_eq_toNat_of_msb hx, Int.tdiv_neg, BitVec.ofInt_neg, ofInt_tdiv]

theorem rem_of_neg_right (hx : x.msb = false) (hy : y.msb = true) :
    MulDivOp.rem.eval x y = MulDivOp.remu.eval x (-y) := by
  rw [MulDivOp.eval, MulDivOp.eval, if_neg (ne_zero_of_msb hy).1, if_neg (ne_zero_of_msb hy).2,
    toInt_of_msb hy, BitVec.toInt_eq_toNat_of_msb hx, Int.tmod_neg, ofInt_tmod]

/-- Two negative operands. -/
theorem div_of_neg (hx : x.msb = true) (hy : y.msb = true) :
    MulDivOp.div.eval x y = MulDivOp.divu.eval (-x) (-y) := by
  rw [MulDivOp.eval, MulDivOp.eval, if_neg (ne_zero_of_msb hy).1, if_neg (ne_zero_of_msb hy).2,
    toInt_of_msb hx, toInt_of_msb hy, Int.neg_tdiv, Int.tdiv_neg, neg_neg, ofInt_tdiv]

theorem rem_of_neg (hx : x.msb = true) (hy : y.msb = true) :
    MulDivOp.rem.eval x y = -MulDivOp.remu.eval (-x) (-y) := by
  rw [MulDivOp.eval, MulDivOp.eval, if_neg (ne_zero_of_msb hy).1, if_neg (ne_zero_of_msb hy).2,
    toInt_of_msb hx, toInt_of_msb hy, Int.neg_tmod, Int.tmod_neg, BitVec.ofInt_neg, ofInt_tmod]

/-- The low half of a product is the same for both signs. -/
theorem mul_eval (x y : Word) : MulDivOp.mul.eval x y = x * y := by
  rw [MulDivOp.eval, BitVec.ofInt_mul, BitVec.ofInt_toInt, BitVec.ofInt_toInt]

end Signed

/-- The overflow of a division. -/
example : MulDivOp.div.eval 0x80000000#32 0xffffffff#32 = 0x80000000#32 := by decide

end Rv32m
