import RV32Pipeline.Lib.Rv32m
import RV32Pipeline.Lib.VerilogExpr
import RV32Pipeline.Rtl.Alu
import RV32Pipeline.Rtl.Decoder

/-!
# The ALU with `RV32M`

The part of `ALU.v` and `mulcu_decoder.v` that `RV32M` adds: the wire `mulsign`, and `M_result`,
whose arms are Verilog expressions. Two of them are unsigned against their intention: the product of
a signed and an unsigned operand, and the conditional whose other arm is `ALU_DA`. So `MULHSU`
computes `MULHU`, and `REM` computes `REMU`.
-/

namespace RV32Pipeline

open VerilogExpr Rv32m

section Rtl

open VerilogExpr.Expr

/-- The wire `mulsign` of `mulcu_decoder`. -/
def mulsign (instr : Word) : Bool := instr.getLsbD 25 && instr.extractLsb' 0 7 == Opcode.rType

variable (aluDA aluDB : Word)

/-- The wire `mul_signed_signed`. -/
def mulSignedSigned : BitVec 64 := assign 64 (.mul (.signed (wire aluDA)) (.signed (wire aluDB)))

/-- The wire `mul_unsigned_unsigned`. -/
def mulUnsignedUnsigned : BitVec 64 :=
  assign 64 (.mul (.unsigned (wire aluDA)) (.unsigned (wire aluDB)))

/-- The wire `mul_signed_unsigned`. -/
def mulSignedUnsigned : BitVec 64 :=
  assign 64 (.mul (.signed (wire aluDA)) (.unsigned (wire aluDB)))

/-- The condition `ALU_DB == 0`. -/
def aluDBZero : Expr := .eq (wire aluDB) (lit 0#32)

/-- The register `M_result`. -/
def mResult (aluCtl : BitVec 4) : Word :=
  if aluCtl = AluOp.add then (mulSignedSigned aluDA aluDB).extractLsb' 0 32
  else if aluCtl = AluOp.sub then assign 32 (.sub (.signed (wire aluDA)) (.signed (wire aluDB)))
  else if aluCtl = AluOp.sll then (mulSignedSigned aluDA aluDB).extractLsb' 32 32
  else if aluCtl = AluOp.slt then (mulSignedUnsigned aluDA aluDB).extractLsb' 32 32
  else if aluCtl = AluOp.sltu then (mulUnsignedUnsigned aluDA aluDB).extractLsb' 32 32
  else if aluCtl = AluOp.xor then
    assign 32 (.cond (aluDBZero aluDB) (.neg (lit 1#32))
      (.div (.signed (wire aluDA)) (.signed (wire aluDB))))
  else if aluCtl = AluOp.srl then
    assign 32 (.cond (aluDBZero aluDB) (.operand 32 false 0xffffffff#32)
      (.div (.unsigned (wire aluDA)) (.unsigned (wire aluDB))))
  else if aluCtl = AluOp.or then
    assign 32 (.cond (aluDBZero aluDB) (wire aluDA)
      (.mod (.signed (wire aluDA)) (.signed (wire aluDB))))
  else if aluCtl = AluOp.and then
    assign 32 (.cond (aluDBZero aluDB) (wire aluDA)
      (.mod (.unsigned (wire aluDA)) (.unsigned (wire aluDB))))
  else 0#32

/-- The output `ALU_DC` with `RV32M` defined. -/
def aluDCM (aluCtl : BitVec 4) (mulsign : Bool) : Word :=
  if mulsign then mResult aluDA aluDB aluCtl else (alu aluDA aluDB aluCtl).aluDC

end Rtl

/-! ## Halves of products -/

/-- The low half of a number of 64 bits. -/
theorem extractLsb'_low_ofInt (z : ℤ) :
    (BitVec.ofInt 64 z).extractLsb' 0 32 = BitVec.ofInt 32 z := by
  apply BitVec.eq_of_toNat_eq
  rw [BitVec.extractLsb'_toNat, BitVec.toNat_ofInt, BitVec.toNat_ofInt, Nat.shiftRight_zero]
  omega

/-- The high half of a number of 64 bits. -/
theorem extractLsb'_high_ofInt (z : ℤ) :
    (BitVec.ofInt 64 z).extractLsb' 32 32 = BitVec.ofInt 32 (z / 2 ^ 32) := by
  apply BitVec.eq_of_toNat_eq
  rw [BitVec.extractLsb'_toNat, BitVec.toNat_ofInt, BitVec.toNat_ofInt,
    Nat.shiftRight_eq_div_pow]
  omega

/-- A word extended by zeros. -/
theorem setWidth_eq_ofInt (x : Word) : x.setWidth 64 = BitVec.ofInt 64 x.toNat := by
  apply BitVec.eq_of_toNat_eq
  rw [BitVec.toNat_setWidth, BitVec.toNat_ofInt]
  omega

section Values

open VerilogExpr.Expr

variable (x y : Word)

/-- The product of two signed operands is the signed product. -/
theorem mulSignedSigned_eq : mulSignedSigned x y = BitVec.ofInt 64 (x.toInt * y.toInt) := by
  change ((signed (wire x)).eval 64 true * (signed (wire y)).eval 64 true).setWidth 64 = _
  rw [BitVec.setWidth_eq, eval_signed_wire_signed, eval_signed_wire_signed, BitVec.ofInt_mul]
  rfl

/-- The product of two unsigned operands is the unsigned product. -/
theorem mulUnsignedUnsigned_eq :
    mulUnsignedUnsigned x y = BitVec.ofInt 64 (x.toNat * y.toNat) := by
  change ((unsigned (wire x)).eval 64 false * (unsigned (wire y)).eval 64 false).setWidth 64 = _
  rw [BitVec.setWidth_eq, eval_unsigned_wire_unsigned, eval_unsigned_wire_unsigned,
    BitVec.ofInt_mul, setWidth_eq_ofInt, setWidth_eq_ofInt]

/-- The product of a signed and an unsigned operand is the unsigned product, too. -/
theorem mulSignedUnsigned_eq : mulSignedUnsigned x y = BitVec.ofInt 64 (x.toNat * y.toNat) := by
  change ((signed (wire x)).eval 64 false * (unsigned (wire y)).eval 64 false).setWidth 64 = _
  rw [BitVec.setWidth_eq, eval_signed_wire_unsigned, eval_unsigned_wire_unsigned,
    BitVec.ofInt_mul, setWidth_eq_ofInt, setWidth_eq_ofInt]

/-- A signed quotient. -/
theorem sdiv_eq_ofInt : x.sdiv y = BitVec.ofInt 32 (x.toInt.tdiv y.toInt) := by
  apply BitVec.eq_of_toInt_eq
  rw [BitVec.toInt_sdiv, BitVec.toInt_ofInt]

/-- The arm `XOR` is the signed quotient: both arms of the conditional are signed. -/
theorem mResult_xor : mResult x y AluOp.xor =
    if y = 0#32 then BitVec.allOnes 32 else x.sdiv y := by
  change ((Expr.cond (aluDBZero y) (.neg (lit 1#32))
    (.div (.signed (wire x)) (.signed (wire y)))).eval 32 true).setWidth 32 = _
  rw [BitVec.setWidth_eq, aluDBZero, eval_cond_eq_zero]
  have hx : (signed (wire x)).eval 32 true = x := eval_signed_wire x true
  have hy : (signed (wire y)).eval 32 true = y := eval_signed_wire y true
  rw [Expr.eval, eval_lit, Expr.eval, hx, hy]
  rfl

/-- The arm `SRL` is the unsigned quotient. -/
theorem mResult_srl : mResult x y AluOp.srl =
    if y = 0#32 then BitVec.allOnes 32 else x / y := by
  change ((Expr.cond (aluDBZero y) (.operand 32 false 0xffffffff#32)
    (.div (.unsigned (wire x)) (.unsigned (wire y)))).eval 32 false).setWidth 32 = _
  rw [BitVec.setWidth_eq, aluDBZero, eval_cond_eq_zero]
  have hx : (unsigned (wire x)).eval 32 false = x := eval_unsigned_wire x false
  have hy : (unsigned (wire y)).eval 32 false = y := eval_unsigned_wire y false
  rw [Expr.eval, Expr.eval, hx, hy]
  rfl

/-- The arm `OR` is the unsigned remainder: `ALU_DA` makes the conditional unsigned, and with it the
operands of the `%`. -/
theorem mResult_or : mResult x y AluOp.or = if y = 0#32 then x else x % y := by
  change ((Expr.cond (aluDBZero y) (wire x)
    (.mod (.signed (wire x)) (.signed (wire y)))).eval 32 false).setWidth 32 = _
  rw [BitVec.setWidth_eq, aluDBZero, eval_cond_eq_zero]
  have hx : (signed (wire x)).eval 32 false = x := eval_signed_wire x false
  have hy : (signed (wire y)).eval 32 false = y := eval_signed_wire y false
  rw [eval_wire, Expr.eval, hx, hy]
  rfl

/-- The arm `AND` is the unsigned remainder. -/
theorem mResult_and : mResult x y AluOp.and = if y = 0#32 then x else x % y := by
  change ((Expr.cond (aluDBZero y) (wire x)
    (.mod (.unsigned (wire x)) (.unsigned (wire y)))).eval 32 false).setWidth 32 = _
  rw [BitVec.setWidth_eq, aluDBZero, eval_cond_eq_zero]
  have hx : (unsigned (wire x)).eval 32 false = x := eval_unsigned_wire x false
  have hy : (unsigned (wire y)).eval 32 false = y := eval_unsigned_wire y false
  rw [eval_wire, Expr.eval, hx, hy]
  rfl

end Values

/-! ## Operations -/

/-- The ALU operation that the fields of an operation select. -/
def mulDivAluOp : MulDivOp → BitVec 4
  | .mul => AluOp.add
  | .mulh => AluOp.sll
  | .mulhsu => AluOp.slt
  | .mulhu => AluOp.sltu
  | .div => AluOp.xor
  | .divu => AluOp.srl
  | .rem => AluOp.or
  | .remu => AluOp.and

/-- The operation whose result `ALU_DC` is. -/
def computedOp : MulDivOp → MulDivOp
  | .mulhsu => .mulhu
  | .rem => .remu
  | op => op

variable (op : MulDivOp) (rd rs1 rs2 : Rv32i.Reg) (x y : Word)

/-- The decoder takes an encoding for its operation. -/
theorem aluOp_encode : (mulcuDecoder (op.encode rd rs1 rs2)).aluOp = mulDivAluOp op := by
  simp only [mulcuDecoder, MulDivOp.encode, Rv32i.rType, Rv32i.opcode_assemble,
    Rv32i.funct3_assemble, Rv32i.bit30_assemble]
  cases op <;> rfl

/-- The decoder raises `mulsign` for an encoding. -/
theorem mulsign_encode : mulsign (op.encode rd rs1 rs2) = true := by
  unfold mulsign
  rw [bit25_encode, MulDivOp.encode, Rv32i.rType, Rv32i.opcode_assemble]
  rfl

/-- `ALU_DC` is the result of the computed operation. -/
theorem aluDCM_encode : aluDCM x y (mulcuDecoder (op.encode rd rs1 rs2)).aluOp
    (mulsign (op.encode rd rs1 rs2)) = (computedOp op).eval x y := by
  rw [aluOp_encode, mulsign_encode, aluDCM, if_pos rfl]
  cases op with
  | mul =>
    change (mulSignedSigned x y).extractLsb' 0 32 = _
    rw [mulSignedSigned_eq, extractLsb'_low_ofInt]
    rfl
  | mulh =>
    change (mulSignedSigned x y).extractLsb' 32 32 = _
    rw [mulSignedSigned_eq, extractLsb'_high_ofInt]
    rfl
  | mulhsu =>
    change (mulSignedUnsigned x y).extractLsb' 32 32 = _
    rw [mulSignedUnsigned_eq, extractLsb'_high_ofInt]
    rfl
  | mulhu =>
    change (mulUnsignedUnsigned x y).extractLsb' 32 32 = _
    rw [mulUnsignedUnsigned_eq, extractLsb'_high_ofInt]
    rfl
  | div =>
    rw [mulDivAluOp, mResult_xor, sdiv_eq_ofInt]
    rfl
  | divu =>
    rw [mulDivAluOp, mResult_srl, BitVec.udiv_def]
    rfl
  | rem =>
    rw [mulDivAluOp, mResult_or, BitVec.umod_def]
    rfl
  | remu =>
    rw [mulDivAluOp, mResult_and, BitVec.umod_def]
    rfl

/-! ## When the results are right -/

/-- The operands for which the high half of the unsigned product is that of the product with a
signed first operand. -/
def MulhsuOk : Prop := 0 ≤ x.toInt ∨ y = 0#32

/-- The operands for which the unsigned remainder is the signed one: the divisor is 0, or neither is
negative, or the divisor alone is and is larger, or the dividend alone is and the divisor is a power
of two that divides it, or they are equal. -/
def RemOk : Prop :=
  y = 0#32 ∨ (0 ≤ x.toInt ∧ (0 < y.toInt ∨ x.toInt < -y.toInt)) ∨
    (x.toInt < 0 ∧ 0 < y.toInt ∧ y.toInt ∣ x.toInt ∧ y.toInt ∣ 2 ^ 32) ∨ x = y

/-- The operands for which the result of an operation is right. -/
def MulDivOk (op : MulDivOp) (x y : Word) : Prop :=
  match op with
  | .mulhsu => MulhsuOk x y
  | .rem => RemOk x y
  | _ => True

/-- A word as a signed and as an unsigned number. -/
theorem toInt_cases (x : Word) : (0 ≤ x.toInt ∧ (x.toNat : ℤ) = x.toInt ∧ x.toInt < 2 ^ 31) ∨
    (x.toInt < 0 ∧ (x.toNat : ℤ) = x.toInt + 2 ^ 32 ∧ -2 ^ 31 ≤ x.toInt) := by
  have hlt := x.isLt
  rw [BitVec.toInt_eq_toNat_cond]
  split_ifs <;> omega

/-- Numbers modulo `2^32`. -/
theorem ofInt_eq_ofInt_iff (a b : ℤ) :
    BitVec.ofInt 32 a = BitVec.ofInt 32 b ↔ a % 2 ^ 32 = b % 2 ^ 32 := by
  rw [← BitVec.toNat_inj, BitVec.toNat_ofInt, BitVec.toNat_ofInt]
  omega

/-- The two high halves differ by the second operand, if the first is negative. -/
theorem mulhu_eq_mulhsu_iff :
    MulDivOp.mulhu.eval x y = MulDivOp.mulhsu.eval x y ↔ MulhsuOk x y := by
  unfold MulDivOp.eval MulhsuOk
  rw [ofInt_eq_ofInt_iff]
  have hy := y.isLt
  have hy0 : y = 0#32 ↔ y.toNat = 0 := by
    rw [← BitVec.toNat_inj]
    rfl
  rw [hy0]
  rcases toInt_cases x with ⟨hx, hxn, -⟩ | ⟨hx, hxn, -⟩
  · rw [hxn]
    exact iff_of_true rfl (.inl hx)
  · have hsplit : (x.toNat : ℤ) * y.toNat / 2 ^ 32 = x.toInt * y.toNat / 2 ^ 32 + y.toNat := by
      rw [hxn, add_mul, mul_comm (2 ^ 32 : ℤ), Int.add_mul_ediv_right _ _ (by decide)]
    rw [hsplit]
    omega

/-- With a dividend that is not negative and a divisor `b` that is, taken as the unsigned number
`b + 2 ^ 32`: the unsigned remainder is the dividend. -/
theorem rem_iff_of_neg_divisor {a b : ℤ} (ha : 0 ≤ a) (ha' : a < 2 ^ 31) (hb : b < 0)
    (hb' : -2 ^ 31 ≤ b) : a % (b + 2 ^ 32) = a.tmod b % 2 ^ 32 ↔ a < -b := by
  have htmod : a.tmod b = a % -b := by rw [Int.tmod_eq_emod_of_nonneg ha, Int.emod_neg]
  have hlt : a % -b < -b := Int.emod_lt_of_pos a (by omega)
  have hnn : 0 ≤ a % -b := Int.emod_nonneg a (by omega)
  rw [htmod, Int.emod_eq_of_lt ha (by omega), Int.emod_eq_of_lt hnn (by omega)]
  constructor
  · intro h
    omega
  · intro h
    exact (Int.emod_eq_of_lt ha h).symm

/-- With a negative dividend, taken as `a + 2 ^ 32`, and a positive divisor: a remainder other than
0 is negative, and not one of the unsigned division. -/
theorem rem_iff_of_neg_dividend {a b : ℤ} (ha : a < 0) (hb : 0 < b) (hb' : b < 2 ^ 31) :
    (a + 2 ^ 32) % b = a.tmod b % 2 ^ 32 ↔ b ∣ a ∧ b ∣ 2 ^ 32 := by
  have htmod : a.tmod b = -(-a % b) := by
    rw [← Int.tmod_eq_emod_of_nonneg (by omega : 0 ≤ -a), Int.neg_tmod, neg_neg]
  have hlt : -a % b < b := Int.emod_lt_of_pos _ hb
  have hnn : 0 ≤ -a % b := Int.emod_nonneg _ (by omega)
  have hlt' : (a + 2 ^ 32) % b < b := Int.emod_lt_of_pos _ hb
  rw [htmod]
  by_cases hz : -a % b = 0
  · have hdvd : b ∣ a := (Int.dvd_neg).mp (Int.dvd_of_emod_eq_zero hz)
    rw [hz]
    change (a + 2 ^ 32) % b = 0 ↔ _
    rw [← Int.dvd_iff_emod_eq_zero, Int.dvd_add_right hdvd]
    exact ⟨fun h => ⟨hdvd, h⟩, fun h => h.2⟩
  · have hno : ¬ b ∣ a := fun h => hz (Int.emod_eq_zero_of_dvd ((Int.dvd_neg).mpr h))
    refine iff_of_false (fun h => ?_) fun h => hno h.1
    omega

/-- With two negative numbers, the unsigned remainder is the difference or the dividend, and only 0
is a signed remainder, too. -/
theorem rem_iff_of_neg {a b : ℤ} (ha : a < 0) (ha' : -2 ^ 31 ≤ a) (hb : b < 0)
    (hb' : -2 ^ 31 ≤ b) : (a + 2 ^ 32) % (b + 2 ^ 32) = a.tmod b % 2 ^ 32 ↔ a = b := by
  have htmod : a.tmod b = -(-a % -b) := by
    rw [← Int.tmod_eq_emod_of_nonneg (by omega : 0 ≤ -a), Int.neg_tmod, Int.tmod_neg, neg_neg]
  have hlt : -a % -b < -b := Int.emod_lt_of_pos _ (by omega)
  have hnn : 0 ≤ -a % -b := Int.emod_nonneg _ (by omega)
  rw [htmod]
  rcases lt_trichotomy a b with hab | hab | hab
  · rw [Int.emod_eq_of_lt (by omega : 0 ≤ a + 2 ^ 32) (by omega)]
    omega
  · rw [hab, Int.emod_self, Int.emod_self]
    exact iff_of_true rfl rfl
  · have hdiff : (a + 2 ^ 32) % (b + 2 ^ 32) = a - b := by
      rw [show a + 2 ^ 32 = a - b + (b + 2 ^ 32) by omega, Int.add_emod_right,
        Int.emod_eq_of_lt (by omega) (by omega)]
    rw [hdiff, Int.emod_eq_of_lt (by omega : 0 ≤ -a) (by omega)]
    omega

/-- The two remainders are equal for the operands of `RemOk`. -/
theorem remu_eq_rem_iff : MulDivOp.remu.eval x y = MulDivOp.rem.eval x y ↔ RemOk x y := by
  have hremu : MulDivOp.remu.eval x y =
      if y = 0#32 then x else BitVec.ofNat 32 (x.toNat % y.toNat) := rfl
  have hrem : MulDivOp.rem.eval x y =
      if y = 0#32 then x else BitVec.ofInt 32 (x.toInt.tmod y.toInt) := rfl
  by_cases hy : y = 0#32
  · rw [hremu, hrem, if_pos hy, if_pos hy]
    exact iff_of_true rfl (.inl hy)
  · have hcast : MulDivOp.remu.eval x y = MulDivOp.rem.eval x y ↔
        (x.toNat : ℤ) % y.toNat = x.toInt.tmod y.toInt % 2 ^ 32 := by
      have hlt : x.toNat % y.toNat < 2 ^ 32 := (Nat.mod_le _ _).trans_lt x.isLt
      rw [hremu, hrem, if_neg hy, if_neg hy, ← BitVec.toNat_inj, BitVec.toNat_ofNat, BitVec.toNat_ofInt,
        Nat.mod_eq_of_lt hlt]
      omega
    have hyi : y.toInt ≠ 0 := fun h => hy (BitVec.eq_of_toInt_eq h)
    have hxy : x = y ↔ x.toInt = y.toInt := BitVec.toInt_inj.symm
    rw [hcast, RemOk, hxy]
    -- By the signs of the two numbers.
    rcases toInt_cases x with ⟨hx, hxn, hx'⟩ | ⟨hx, hxn, hx'⟩ <;>
      rcases toInt_cases y with ⟨hyp, hyn, hy'⟩ | ⟨hyp, hyn, hy'⟩ <;>
      rw [hxn, hyn]
    · have hnn : 0 ≤ x.toInt % y.toInt := Int.emod_nonneg _ hyi
      have hlt : x.toInt % y.toInt < y.toInt := Int.emod_lt_of_pos _ (by omega)
      rw [Int.tmod_eq_emod_of_nonneg hx, Int.emod_eq_of_lt hnn (by omega)]
      exact iff_of_true rfl (.inr (.inl ⟨hx, .inl (by omega)⟩))
    · rw [rem_iff_of_neg_divisor hx hx' hyp hy']
      constructor
      · intro h
        exact .inr (.inl ⟨hx, .inr h⟩)
      · rintro (h | h | h | h)
        · exact absurd h hy
        · omega
        · omega
        · omega
    · rw [rem_iff_of_neg_dividend hx (by omega) hy']
      constructor
      · rintro ⟨h1, h2⟩
        exact .inr (.inr (.inl ⟨hx, by omega, h1, h2⟩))
      · rintro (h | h | h | h)
        · exact absurd h hy
        · omega
        · exact ⟨h.2.2.1, h.2.2.2⟩
        · omega
    · rw [rem_iff_of_neg hx hx' hyp hy']
      constructor
      · intro h
        exact .inr (.inr (.inr h))
      · rintro (h | h | h | h)
        · exact absurd h hy
        · omega
        · omega
        · exact h

/-- For every operation of the extension and all its operands: the output of the ALU is the result
of the operation exactly when the operation is none of `MULHSU` and `REM`, or the operands are among
those for which its unsigned variant gives the same. -/
theorem aluDCM_eq_eval_iff : aluDCM x y (mulcuDecoder (op.encode rd rs1 rs2)).aluOp
    (mulsign (op.encode rd rs1 rs2)) = op.eval x y ↔ MulDivOk op x y := by
  rw [aluDCM_encode]
  cases op with
  | mulhsu => exact mulhu_eq_mulhsu_iff x y
  | rem => exact remu_eq_rem_iff x y
  | mul => exact iff_of_true rfl trivial
  | mulh => exact iff_of_true rfl trivial
  | mulhu => exact iff_of_true rfl trivial
  | div => exact iff_of_true rfl trivial
  | divu => exact iff_of_true rfl trivial
  | remu => exact iff_of_true rfl trivial

/-- The word `rem x3, x1, x2` with -7 and 2: the remainder is -1, and the output is 1. -/
theorem aluDCM_rem_ne : aluDCM 0xfffffff9#32 2#32
    (mulcuDecoder (MulDivOp.rem.encode 3#5 1#5 2#5)).aluOp
    (mulsign (MulDivOp.rem.encode 3#5 1#5 2#5)) ≠ MulDivOp.rem.eval 0xfffffff9#32 2#32 := by
  decide

end RV32Pipeline
