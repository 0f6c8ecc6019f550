import RV32Pipeline.Rtl.Define

/-!
# The ALU of `ALU.v`

`Shifter`, `Adder`, and `ALU` without the `RV32M` extension.
-/

namespace RV32Pipeline

/-- The module `Shifter`: the left, the logical right, and the arithmetic right shift. The last is
assembled from two logical shifts, the sign's by `32 - ALU_SHIFT`. -/
def shifter (aluDA : Word) (aluShift : BitVec 5) (shiftctr : BitVec 2) : Word :=
  let shiftN : BitVec 6 := 32#6 - aluShift.setWidth 6
  match shiftctr with
  | 0b01#2 => aluDA <<< aluShift
  | 0b10#2 => aluDA >>> aluShift
  | 0b11#2 => ((if aluDA.msb then BitVec.allOnes 32 else 0#32) <<< shiftN) ||| (aluDA >>> aluShift)
  | _ => aluDA

/-- The outputs of `Adder`. -/
structure Adder where
  addCarry : Bool
  addOverFlow : Bool
  addZero : Bool
  addResult : Word

/-- The module `Adder`: the 33-bit sum of two words and a carry. -/
def adder (a b : Word) (cin : Bool) : Adder :=
  let sum : BitVec 33 := a.setWidth 33 + b.setWidth 33 + (BitVec.ofBool cin).setWidth 33
  let addResult : Word := sum.setWidth 32
  { addCarry := sum.getLsbD 32
    addOverFlow := (!a.msb && !b.msb && addResult.msb) || (a.msb && b.msb && !addResult.msb)
    addZero := addResult == 0#32
    addResult := addResult }

/-- The outputs of `ALU`. -/
structure Alu where
  aluZero : Bool
  aluOverFlow : Bool
  aluDC : Word

/-- The module `ALU`: `ALU_CTL[3:2]` selects the adder, the shifter, the comparison, or the logic
unit. -/
def alu (aluDA aluDB : Word) (aluCtl : BitVec 4) : Alu :=
  let subctr := aluCtl.getLsbD 0 || aluCtl.getLsbD 1
  let opctr : BitVec 2 := aluCtl.extractLsb' 2 2
  let ovctr := !aluCtl.getLsbD 3 && !aluCtl.getLsbD 2 && !aluCtl.getLsbD 1
  let sigctr := aluCtl.getLsbD 0
  let logicResult : Word :=
    match aluCtl.extractLsb' 0 2 with
    | 0b00#2 => aluDA &&& aluDB
    | 0b01#2 => aluDA ||| aluDB
    | 0b10#2 => aluDA ^^^ aluDB
    | _ => ~~~(aluDA ||| aluDB)
  let shiftResult := shifter aluDA (aluDB.extractLsb' 0 5) (aluCtl.extractLsb' 0 2)
  let bitM : Word := if subctr then BitVec.allOnes 32 else 0#32
  let sum := adder aluDA (bitM ^^^ aluDB) subctr
  let lessUnsign := sum.addCarry ^^ subctr
  let lessSign := sum.addOverFlow ^^ sum.addResult.msb
  let lessS := if sigctr then lessSign else lessUnsign
  let sltResult : Word := if lessS then 1#32 else 0#32
  { aluZero := sum.addZero
    aluOverFlow := sum.addOverFlow && ovctr
    aluDC :=
      match opctr with
      | 0b00#2 => sum.addResult
      | 0b11#2 => logicResult
      | 0b10#2 => sltResult
      | _ => shiftResult }

end RV32Pipeline
