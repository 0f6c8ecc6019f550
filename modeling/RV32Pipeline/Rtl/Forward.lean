import RV32Pipeline.Rtl.Buffers

/-!
# Hazard detection and forwarding of `RAWdetect_forward.sv`

The comparison of the source registers in D with the destinations in E, M, and W happens while the
reader is in D. Its outcome and the values to forward are registered, and the reader uses them once
it is in E. The registered `RC` conditions drive nothing and are not modelled.
-/

namespace RV32Pipeline

/-- The registers of `RAWdetect_forward` that its outputs depend on. -/
structure ForwardRegs where
  fcRs1ER : Bool
  fcRs1MR : Bool
  fcRs1WR : Bool
  fcRs2ER : Bool
  fcRs2MR : Bool
  fcRs2WR : Bool
  wdataER : Word
  wdataMR : Word
  wdataWR : Word

namespace ForwardRegs

/-- The registers after reset. -/
def reset : ForwardRegs := ⟨false, false, false, false, false, false, 0#32, 0#32, 0#32⟩

variable (f : ForwardRegs)

/-- The output `forward_rs1`. -/
def forwardRs1 : Word :=
  if f.fcRs1ER then f.wdataER else if f.fcRs1MR then f.wdataMR
  else if f.fcRs1WR then f.wdataWR else 0#32

/-- The output `forward_rs2`. -/
def forwardRs2 : Word :=
  if f.fcRs2ER then f.wdataER else if f.fcRs2MR then f.wdataMR
  else if f.fcRs2WR then f.wdataWR else 0#32

/-- The output `valid_forward_rs1`. -/
def validForwardRs1 : Bool := f.fcRs1ER || f.fcRs1MR || f.fcRs1WR

/-- The output `valid_forward_rs2`. -/
def validForwardRs2 : Bool := f.fcRs2ER || f.fcRs2MR || f.fcRs2WR

end ForwardRegs

/-- The inputs of `RAWdetect_forward` besides the clock and the reset. -/
structure RawDetect where
  typeD : InstrType
  typeE : InstrType
  typeM : InstrType
  typeW : InstrType
  rs1D : BitVec 5
  rs2D : BitVec 5
  rdE : BitVec 5
  rdM : BitVec 5
  rdW : BitVec 5
  validE : Bool
  readyE : Bool
  validM : Bool
  readyM : Bool
  validW : Bool
  readyW : Bool
  loadE : Bool
  loadM : Bool
  aluResultE : Word
  aluResultM : Word
  rdataM : Word
  wdata : Word

namespace RawDetect

/-- The wire `no_rs2`: the formats I, U, and J have no second source register. -/
def noRs2 (t : InstrType) : Bool := t.jType || t.uType || t.iType

/-- The wires `no_rd_E`, `no_rd_M`, and `no_rd_W`: the formats S and B have no destination. -/
def noRd (t : InstrType) : Bool := t.sType || t.bType

/-- The wires `conflict_rs1_E` to `conflict_rs2_W`: the source register `rs` is the destination `rd`
of an instruction of format `t`. -/
def conflict (rs rd : BitVec 5) (t : InstrType) : Bool := rs == rd && rd != 0#5 && !noRd t

variable (r : RawDetect)

/-- The wire `conflict_rs1_E`. -/
def conflictRs1E : Bool := conflict r.rs1D r.rdE r.typeE

/-- The wire `conflict_rs1_M`. -/
def conflictRs1M : Bool := conflict r.rs1D r.rdM r.typeM

/-- The wire `conflict_rs1_W`. -/
def conflictRs1W : Bool := conflict r.rs1D r.rdW r.typeW

/-- The wire `conflict_rs2_E`. -/
def conflictRs2E : Bool := conflict r.rs2D r.rdE r.typeE

/-- The wire `conflict_rs2_M`. -/
def conflictRs2M : Bool := conflict r.rs2D r.rdM r.typeM

/-- The wire `conflict_rs2_W`. -/
def conflictRs2W : Bool := conflict r.rs2D r.rdW r.typeW

/-- The wire `idle_E`. -/
def idleE : Bool := !r.validE && r.readyE

/-- The wire `idle_M`. -/
def idleM : Bool := !r.validM && r.readyM

/-- The wire `idle_W`. -/
def idleW : Bool := !r.validW && r.readyW

/-- The wire `FC_rs1_E_comb`. -/
def fcRs1E : Bool := (!r.idleE && r.conflictRs1E) && !r.loadE

/-- The wire `FC_rs1_M_comb`. -/
def fcRs1M : Bool := (!r.idleM && r.conflictRs1M) && r.validM

/-- The wire `FC_rs1_W_comb`. -/
def fcRs1W : Bool := !r.idleW && r.conflictRs1W

/-- The wire `FC_rs2_E_comb`. -/
def fcRs2E : Bool := (!noRs2 r.typeD && !r.idleE && r.conflictRs2E) && !r.loadE

/-- The wire `FC_rs2_M_comb`. -/
def fcRs2M : Bool := (!noRs2 r.typeD && !r.idleM && r.conflictRs2M) && r.validM

/-- The wire `FC_rs2_W_comb`. -/
def fcRs2W : Bool := !noRs2 r.typeD && !r.idleW && r.conflictRs2W

/-- The wire `wdata_M_comb`. -/
def wdataM : Word := if r.loadM then r.rdataM else r.aluResultM

/-- The output `stall_D`: a source register of D is the destination of a load in E, or of an
instruction in M that has not finished. -/
def stallD : Bool :=
  (!r.idleE && r.loadE && (r.conflictRs1E || (!noRs2 r.typeD && r.conflictRs2E))) ||
    (!r.idleM && !r.validM && (r.conflictRs1M || (!noRs2 r.typeD && r.conflictRs2M)))

/-- The values that the registers take at an enabled clock edge. -/
def comb : ForwardRegs where
  fcRs1ER := r.fcRs1E
  fcRs1MR := r.fcRs1M
  fcRs1WR := r.fcRs1W
  fcRs2ER := r.fcRs2E
  fcRs2MR := r.fcRs2M
  fcRs2WR := r.fcRs2W
  wdataER := r.aluResultE
  wdataMR := r.wdataM
  wdataWR := r.wdata

/-- The registers after a clock edge. -/
def next (rst : Bool) (f : ForwardRegs) : ForwardRegs :=
  if rst then ForwardRegs.reset else if r.readyE then r.comb else f

end RawDetect

end RV32Pipeline
