import RV32Pipeline.Lib.Rv32i
import RV32Pipeline.Rtl.Alu

/-!
# What the ALU computes

One adder serves the sum, the difference, and all comparisons: with `SUBctr` it adds the complement
of the second operand and a carry. Then the carry out says that there was no borrow, and the
overflow corrects the sign. The arithmetic right shift is put together from two logical ones, the
second by `32 - n`, which shifts everything out when `n` is 0.
-/

namespace RV32Pipeline

/-! ## The adder -/

theorem adder_addResult (a b : Word) : (adder a b false).addResult = a + b := by
  apply BitVec.eq_of_toNat_eq
  unfold adder
  have hz : (BitVec.ofBool false).toNat = 0 := rfl
  have := a.isLt
  have := b.isLt
  simp only [BitVec.toNat_setWidth, BitVec.toNat_add, hz]
  omega

/-- The adder as a subtractor: its 33-bit sum. -/
theorem adder_sub_toNat (a b : Word) :
    (a.setWidth 33 + (BitVec.allOnes 32 ^^^ b).setWidth 33 + (BitVec.ofBool true).setWidth 33 :
      BitVec 33).toNat = a.toNat + 2^32 - b.toNat := by
  have hx : (BitVec.allOnes 32 ^^^ b).toNat = 2^32 - 1 - b.toNat := by
    rw [BitVec.allOnes_xor, BitVec.toNat_not]
  have hc : (BitVec.ofBool true).toNat = 1 := rfl
  have := a.isLt
  have := b.isLt
  simp only [BitVec.toNat_add, BitVec.toNat_setWidth, hx, hc]
  omega

/-- The difference. -/
theorem adder_sub_addResult (a b : Word) :
    (adder a (BitVec.allOnes 32 ^^^ b) true).addResult = a - b := by
  apply BitVec.eq_of_toNat_eq
  unfold adder
  simp only [BitVec.toNat_setWidth, adder_sub_toNat, BitVec.toNat_sub]
  have := b.isLt
  omega

/-- The carry of a difference says that there was no borrow. -/
theorem adder_sub_addCarry (a b : Word) :
    (adder a (BitVec.allOnes 32 ^^^ b) true).addCarry = !a.ult b := by
  unfold adder
  simp only
  have hs := adder_sub_toNat a b
  have := a.isLt
  have := b.isLt
  rw [BitVec.getLsbD, hs]
  rcases Bool.eq_false_or_eq_true (a.ult b) with h | h
  · rw [h]
    have hab : a.toNat < b.toNat := by simpa [BitVec.ult] using h
    exact Nat.testBit_lt_two_pow (by omega)
  · rw [h]
    have hab : b.toNat ≤ a.toNat := by simpa [BitVec.ult] using h
    rw [Nat.testBit_eq_decide_div_mod_eq]
    have hd : (a.toNat + 2^32 - b.toNat) / 2^32 = 1 := by omega
    rw [hd]
    rfl

/-- The sign of a difference, corrected by the overflow, is the signed comparison. -/
theorem adder_sub_less (a b : Word) :
    ((adder a (BitVec.allOnes 32 ^^^ b) true).addOverFlow ^^
      (adder a (BitVec.allOnes 32 ^^^ b) true).addResult.msb) = a.slt b := by
  have hm : (BitVec.allOnes 32 ^^^ b).msb = !b.msb := by
    rw [BitVec.allOnes_xor, BitVec.msb_not]
    rfl
  -- The overflow compares the sign of the first operand with the two others.
  have ho : (adder a (BitVec.allOnes 32 ^^^ b) true).addOverFlow =
      ((!a.msb && b.msb && (a - b).msb) || (a.msb && !b.msb && !(a - b).msb)) := by
    have hr := adder_sub_addResult a b
    unfold adder at hr ⊢
    simp only at hr ⊢
    rw [hr, hm, Bool.not_not]
  have ha := a.isLt
  have hb := b.isLt
  rw [ho, adder_sub_addResult, BitVec.slt_eq_decide, BitVec.toInt_eq_msb_cond,
    BitVec.toInt_eq_msb_cond]
  -- The three signs decide both sides but for the range that they leave to the words.
  have hd : (a - b).toNat = (2^32 - b.toNat + a.toNat) % 2^32 := BitVec.toNat_sub a b
  have hma := BitVec.msb_eq_decide a
  have hmb := BitVec.msb_eq_decide b
  have hmd := BitVec.msb_eq_decide (a - b)
  rcases Bool.eq_false_or_eq_true a.msb with ca | ca <;>
    rcases Bool.eq_false_or_eq_true b.msb with cb | cb <;>
    rcases Bool.eq_false_or_eq_true (a - b).msb with cd | cd <;>
    rw [ca] at hma ⊢ <;> rw [cb] at hmb ⊢ <;> rw [cd] at hmd ⊢ <;>
    simp at hma hmb hmd ⊢ <;> omega

/-! ## The shifter -/

theorem shifter_sra (x : Word) (n : BitVec 5) :
    shifter x n 0b11#2 = x.sshiftRight n.toNat := by
  have hn := n.isLt
  -- The width of the second shift amount leaves room for 32.
  have hshift : (32#6 - n.setWidth 6).toNat = 32 - n.toNat := by
    rw [BitVec.toNat_sub, BitVec.toNat_setWidth]
    have : (32#6).toNat = 32 := rfl
    omega
  unfold shifter
  simp only [BitVec.shiftLeft_eq', BitVec.ushiftRight_eq', hshift]
  apply BitVec.eq_of_getLsbD_eq
  intro k hk
  rw [BitVec.getLsbD_or, BitVec.getLsbD_shiftLeft, BitVec.getLsbD_ushiftRight,
    BitVec.getLsbD_sshiftRight]
  -- Below `32 - n` the bits come from the logical shift, from there on from the sign.
  by_cases hb : n.toNat + k < 32
  · have hl : k < 32 - n.toNat := by omega
    simp [hb, hl, hk, show ¬ 32 ≤ k by omega]
  · have hl : ¬ k < 32 - n.toNat := by omega
    have hz : x.getLsbD (n.toNat + k) = false := BitVec.getLsbD_of_ge _ _ (by omega)
    rw [hz]
    rcases Bool.eq_false_or_eq_true x.msb with hm | hm
    · have hlow : k - (32 - n.toNat) < 32 := by omega
      rw [hm, if_pos rfl, BitVec.getLsbD_allOnes]
      simp [hb, hl, hk, hlow]
    · simp [hb, hl, hk, hm]

/-! ## The ALU -/

section Alu

variable (a b : Word)

theorem alu_add : (alu a b AluOp.add).aluDC = a + b := by
  have hx : (0#32 ^^^ b : Word) = b := BitVec.zero_xor
  show (adder a (0#32 ^^^ b) false).addResult = a + b
  rw [hx]
  exact adder_addResult a b

theorem alu_sub : (alu a b AluOp.sub).aluDC = a - b := adder_sub_addResult a b

theorem alu_slt : (alu a b AluOp.slt).aluDC = if a.slt b then 1#32 else 0#32 := by
  show (if ((adder a (BitVec.allOnes 32 ^^^ b) true).addOverFlow ^^
    (adder a (BitVec.allOnes 32 ^^^ b) true).addResult.msb) then 1#32 else 0#32) = _
  rw [adder_sub_less]

theorem alu_sltu : (alu a b AluOp.sltu).aluDC = if a.ult b then 1#32 else 0#32 := by
  show (if ((adder a (BitVec.allOnes 32 ^^^ b) true).addCarry ^^ true) then 1#32 else 0#32) = _
  rw [adder_sub_addCarry, Bool.xor_true, Bool.not_not]

/-- In a comparison the zero flag says that the operands are equal. -/
theorem alu_slt_zero : (alu a b AluOp.slt).aluZero = (a == b) := by
  show ((adder a (BitVec.allOnes 32 ^^^ b) true).addResult == 0#32) = _
  rw [adder_sub_addResult, Bool.eq_iff_iff, beq_iff_eq, beq_iff_eq]
  constructor
  · intro h
    calc a = a - b + b := (BitVec.sub_add_cancel a b).symm
      _ = b := by rw [h, BitVec.zero_add]
  · rintro rfl
    exact BitVec.sub_self a

theorem alu_xor : (alu a b AluOp.xor).aluDC = a ^^^ b := rfl

theorem alu_or : (alu a b AluOp.or).aluDC = a ||| b := rfl

theorem alu_and : (alu a b AluOp.and).aluDC = a &&& b := rfl

/-- The shifts take the low five bits of the second operand. -/
theorem toNat_aluShift : (b.extractLsb' 0 5).toNat = b.toNat % 32 := by
  rw [BitVec.extractLsb'_toNat]
  rfl

theorem alu_sll : (alu a b AluOp.sll).aluDC = a <<< (b.toNat % 32) := by
  show a <<< b.extractLsb' 0 5 = _
  rw [BitVec.shiftLeft_eq', toNat_aluShift]

theorem alu_srl : (alu a b AluOp.srl).aluDC = a >>> (b.toNat % 32) := by
  show a >>> b.extractLsb' 0 5 = _
  rw [BitVec.ushiftRight_eq', toNat_aluShift]

theorem alu_sra : (alu a b AluOp.sra).aluDC = a.sshiftRight (b.toNat % 32) := by
  show shifter a (b.extractLsb' 0 5) 0b11#2 = _
  rw [shifter_sra, toNat_aluShift]

end Alu

/-- The code of the ALU for an operation of the instruction set. -/
def aluOpOf : Rv32i.RegOp → BitVec 4
  | .add => AluOp.add
  | .sub => AluOp.sub
  | .sll => AluOp.sll
  | .slt => AluOp.slt
  | .sltu => AluOp.sltu
  | .xor => AluOp.xor
  | .srl => AluOp.srl
  | .sra => AluOp.sra
  | .or => AluOp.or
  | .and => AluOp.and

/-- The ALU computes the operations of the instruction set. -/
theorem alu_eval (op : Rv32i.RegOp) (a b : Word) : (alu a b (aluOpOf op)).aluDC = op.eval a b := by
  cases op with
  | add => exact alu_add a b
  | sub => exact alu_sub a b
  | sll => exact alu_sll a b
  | slt => exact alu_slt a b
  | sltu => exact alu_sltu a b
  | xor => exact alu_xor a b
  | srl => exact alu_srl a b
  | sra => exact alu_sra a b
  | or => exact alu_or a b
  | and => exact alu_and a b

end RV32Pipeline
