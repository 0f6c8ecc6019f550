import RV32Pipeline.Rtl.Btb
import RV32Pipeline.Rtl.Registers
import RV32Pipeline.Rtl.ValidCtrl
import RV32Pipeline.Rtl.Forward
import RV32Pipeline.Rtl.Stages

/-!
# The module `datapath`

The registers of the core with its submodules, the wires that connect them, and one clock edge. The
lookup in the branch target buffer enters the edge as an argument (`edge`), since the rest of the
datapath reads nothing else of the buffer: `step` passes the lookup of `BTB.v`.
-/

namespace RV32Pipeline

/-- The registers of `datapath` and of its submodules. -/
structure Datapath where
  pcRegF : Word
  fd : BufferFD
  de : BufferDE
  em : BufferEM
  mw : BufferMW
  ctl : ValidCtrl
  fwd : ForwardRegs
  btb : Btb
  rf : RegisterFile
  csr : Csr
  instrER : Word
  instrMR : Word
  instrWR : Word

/-- The inputs of `datapath` that it reads. The other AXI inputs are not connected inside it. -/
structure DatapathIn where
  rst : Bool
  instAxiRdata : Word
  dataAxiRdata : Word
  dataAxiRvalid : Bool

/-- The outputs of the branch target buffer, `btb_hit_F` and `btb_target_addr`. -/
structure Lookup where
  btbHitF : Bool
  btbTargetAddr : BitVec 33

/-- The outputs of `datapath`, but for `inst_axi_rready` and `data_axi_bready`, which are tied to
1. -/
structure DatapathOut where
  instAxiAraddr : Word
  instAxiArvalid : Bool
  dataAxiAraddr : Word
  dataAxiArvalid : Bool
  dataAxiRready : Bool
  dataAxiAwaddr : Word
  dataAxiAwvalid : Bool
  dataAxiWdata : Word
  dataAxiWstrb : BitVec 4
  dataAxiWvalid : Bool
  pcW : Word
  validWOut : Bool
  ebreak : Bool

namespace Datapath

variable (s : Datapath) (i : DatapathIn) (l : Lookup)

/-! ## The operands and the outcome of the instruction in E -/

/-- The wire `src1_E`. -/
def src1E : Word := if s.fwd.validForwardRs1 then s.fwd.forwardRs1 else s.de.rdata1E

/-- The wire `src2`. -/
def src2 : Word := if s.fwd.validForwardRs2 then s.fwd.forwardRs2 else s.de.rdata2E

/-- The wire `ALUResult_E`. -/
def aluResultE : Word := s.de.aluResultE s.src1E s.src2

/-- The wire `Jump_sign`. -/
def jumpSign : Bool := s.de.jumpSign s.src1E s.src2

/-- The wire `Pre_Wrong`. -/
def preWrong : Bool := s.de.preWrong s.src1E s.src2

/-- The wire `Pre_Wrong_valid`. -/
def preWrongValid : Bool := s.preWrong && s.ctl.validE

/-- The wire `PC_correction_path`. -/
def pcCorrectionPath : Word := s.de.pcCorrectionPath s.src1E s.src2

/-! ## The stage control -/

/-- The wire `valid_M`. -/
def validM : Bool := s.ctl.validM i.dataAxiRvalid

/-- The wire `ready_M`, which is also `ready_E`. -/
def readyM : Bool := s.ctl.readyM i.rst i.dataAxiRvalid

/-- The wire `rdata_M`. -/
def rdataM : Word := s.em.rdataM i.dataAxiRdata

/-- The inputs of the instance `u_RAWdetect_forward`. -/
def rawDetect : RawDetect where
  typeD := (immeDecoder s.fd.instrD).type
  typeE := s.de.typeE
  typeM := s.em.typeM
  typeW := s.mw.typeW
  rs1D := (mulcuDecoder s.fd.instrD).rs1
  rs2D := (mulcuDecoder s.fd.instrD).rs2
  rdE := s.de.rdE
  rdM := s.em.rdM
  rdW := s.mw.rdW
  validE := s.ctl.validE
  readyE := s.ctl.readyE i.rst i.dataAxiRvalid
  validM := s.validM i
  readyM := s.readyM i
  validW := s.ctl.validW
  readyW := ValidCtrl.readyW i.rst
  loadE := s.de.memReadE
  loadM := s.em.memReadM
  aluResultE := s.aluResultE
  aluResultM := s.em.aluResultM
  rdataM := s.rdataM i
  wdata := s.mw.wdata

/-- The wire `stall_D`. -/
def stallD : Bool := (s.rawDetect i).stallD

/-- The wire `valid_D`. -/
def validD : Bool := s.ctl.validD (s.stallD i)

/-- The wire `ready_D`, which is also `ready_F`. -/
def readyD : Bool := s.ctl.readyD i.rst i.dataAxiRvalid (s.stallD i)

/-! ## The fetch and decode stages -/

/-- What D hands to `buffer_D_E`. -/
def deIn : BufferDE :=
  let d := mulcuDecoder s.fd.instrD
  bufferDEIn s.fd.instrD s.fd.pcRegD s.fd.predictD (s.rf.read d.regRen d.rs1)
    (s.rf.read d.regRen d.rs2) (s.csr.read d.csrRaddr)

/-- What E hands to `buffer_E_M`. -/
def emIn : BufferEM := s.de.emIn s.src1E s.src2

/-- What M hands to `buffer_M_W`. -/
def mwIn : BufferMW := s.em.mwIn i.dataAxiRdata

/-- The wire `btb_update`: a valid branch or `jal` in D that the buffer did not know. -/
def btbUpdate : Bool :=
  ((mulcuDecoder s.fd.instrD).branch || (mulcuDecoder s.fd.instrD).jal) && s.validD i &&
    !s.fd.btbHitD

/-- The wire `branch_target`. -/
def branchTarget : Word := s.fd.pcRegD + (immeDecoder s.fd.instrD).imme

/-- The wire `btb_update_target`. -/
def btbUpdateTarget : BitVec 33 :=
  BitVec.ofBool (mulcuDecoder s.fd.instrD).jal ++ s.branchTarget

/-- The lookup that `u_BTB` answers with. -/
def lookup : Lookup := ⟨s.btb.hit s.pcRegF, s.btb.targetAddr s.pcRegF⟩

/-- The wire `predict_F`: a hit on a `jal`, or on a branch with a negative offset. -/
def predictF : Bool := l.btbHitF && (l.btbTargetAddr.getLsbD 32 || i.instAxiRdata.getLsbD 31)

/-- The wire `PC_predict_path`. -/
def pcPredictPath : Word :=
  if predictF i l then l.btbTargetAddr.setWidth 32 else s.pcRegF + 4#32

/-- The wire `PC_src`. -/
def pcSrc : Word := if s.preWrongValid then s.pcCorrectionPath else s.pcPredictPath i l

/-- What F hands to `buffer_F_D`. -/
def fdIn : BufferFD := ⟨i.instAxiRdata, s.pcRegF, predictF i l, l.btbHitF⟩

/-! ## The outputs -/

/-- The outputs of the module. -/
def out : DatapathOut where
  instAxiAraddr := s.pcRegF
  instAxiArvalid := s.readyD i
  dataAxiAraddr := s.em.aluResultM
  dataAxiArvalid := s.em.memReadM
  dataAxiRready := ValidCtrl.readyW i.rst
  dataAxiAwaddr := s.em.aluResultM
  dataAxiAwvalid := s.em.memWriteM
  dataAxiWdata := s.em.writeDataM
  dataAxiWstrb := s.em.wmask
  dataAxiWvalid := s.em.memWriteM
  pcW := s.mw.pcRegW
  validWOut := s.ctl.validW
  ebreak := s.mw.ebreakW

/-! ## The clock edge -/

/-- The registers after a clock edge with the given inputs and lookup. -/
def edge : Datapath where
  pcRegF := pcNext i.rst (s.readyD i) (s.pcSrc i l) s.pcRegF
  fd := bufferNext i.rst (ValidCtrl.validF i.rst && s.readyD i) BufferFD.reset (s.fdIn i l) s.fd
  de := bufferNext i.rst (s.validD i && s.readyM i) s.de.reset s.deIn s.de
  em := bufferNext i.rst (s.ctl.validE && s.readyM i) BufferEM.reset s.emIn s.em
  mw := bufferNext i.rst (s.validM i && ValidCtrl.readyW i.rst) BufferMW.reset (s.mwIn i) s.mw
  ctl := s.ctl.next i.rst i.dataAxiRvalid (s.stallD i) s.de.memReadE s.preWrong
  fwd := (s.rawDetect i).next i.rst s.fwd
  btb := s.btb.next i.rst (s.btbUpdate i) s.fd.pcRegD s.btbUpdateTarget
  rf := s.rf.next i.rst s.mw.regWriteW s.mw.rdW s.mw.wdata
  csr := s.csr.next i.rst s.mw.csrWenW s.mw.csrWaddrW s.mw.csrWdataW
  instrER := bufferNext i.rst (s.validD i && s.readyM i) 0#32 s.fd.instrD s.instrER
  instrMR := bufferNext i.rst (s.ctl.validE && s.readyM i) 0#32 s.instrER s.instrMR
  instrWR := bufferNext i.rst (s.validM i && ValidCtrl.readyW i.rst) 0#32 s.instrMR s.instrWR

/-- One clock edge of `datapath`. -/
def step (i : DatapathIn) (s : Datapath) : Datapath := s.edge i s.lookup

/-- The registers are as an edge with `rst = 1` leaves them. -/
def AfterReset (s : Datapath) : Prop :=
  ∃ (p : Datapath) (i : DatapathIn) (l : Lookup), i.rst = true ∧ s = p.edge i l

/-- The registers as a simulation starts with them, all 0. -/
def powerOn : Datapath where
  pcRegF := 0#32
  fd := ⟨0#32, 0#32, false, false⟩
  de := ⟨ControlE.reset, false, 0#32, 0#32, 0#32, 0#32⟩
  em := { BufferEM.reset with pcRegM := 0#32 }
  mw := { BufferMW.reset with pcRegW := 0#32 }
  ctl := ⟨false, false, .idle, false⟩
  fwd := ForwardRegs.reset
  btb := Btb.empty
  rf := fun _ => 0#32
  csr := ⟨0#32, 0#32, 0#32, 0#32⟩
  instrER := 0#32
  instrMR := 0#32
  instrWR := 0#32

/-- The registers after reset at the start of a simulation. -/
def reset : Datapath := powerOn.step ⟨true, 0#32, 0#32, false⟩

theorem afterReset_reset : reset.AfterReset := ⟨powerOn, _, _, rfl, rfl⟩

end Datapath

end RV32Pipeline
