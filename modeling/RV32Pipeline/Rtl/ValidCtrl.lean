import RV32Pipeline.Rtl.Define

/-!
# The stage control of `valid_ctrl.v`

A stage is valid when it holds an instruction and has finished with it, and ready when it can take
the next one. Only the memory stage takes more than a cycle: its state machine waits in `M_LOAD` for
the response to a read.
-/

namespace RV32Pipeline

/-- The register `M_state`. The source names three of its four values. -/
inductive MState where
  | idle
  | load
  | ready
  | unused
  deriving DecidableEq

/-- The registers of `valid_ctrl`. -/
structure ValidCtrl where
  validDReg : Bool
  validEReg : Bool
  mState : MState
  validWReg : Bool

namespace ValidCtrl

variable (rst rvalid stall : Bool) (c : ValidCtrl)

/-- The output `valid_F`. -/
def validF : Bool := !rst

/-- The output `valid_D`. -/
def validD : Bool := c.validDReg && !stall

/-- The output `valid_E`. -/
def validE : Bool := c.validEReg

/-- The output `valid_M`. -/
def validM : Bool := c.mState == .ready || (c.mState == .load && rvalid)

/-- The output `valid_W`. -/
def validW : Bool := c.validWReg

/-- The output `ready_W`: a write-back takes one cycle. -/
def readyW : Bool := !rst

/-- The output `ready_M`. -/
def readyM : Bool := c.mState == .idle || (c.validM rvalid && readyW rst)

/-- The output `ready_E`. -/
def readyE : Bool := c.readyM rst rvalid

/-- The output `ready_D`. -/
def readyD : Bool := !stall && c.readyE rst rvalid

/-- The output `ready_F`. -/
def readyF : Bool := c.readyD rst rvalid stall

/-- The state in which the memory stage takes what E hands to it. -/
def mStateTake (loadE : Bool) : MState :=
  if c.validE then (if loadE then .load else .ready) else .idle

/-- The register `M_state` after a clock edge, out of reset. -/
def mStateNext (loadE : Bool) : MState :=
  match c.mState with
  | .idle => c.mStateTake loadE
  | .load =>
    if rvalid && readyW rst then c.mStateTake loadE
    else if rvalid then .ready
    else .load
  | .ready => if readyW rst then c.mStateTake loadE else .ready
  | .unused => .idle

/-- The registers after a clock edge. -/
def next (loadE preWrong : Bool) : ValidCtrl where
  validDReg :=
    if rst then false
    else if preWrong && c.validE then false
    else if c.readyD rst rvalid stall || (stall && c.validDReg) then validF rst
    else if c.readyE rst rvalid then false
    else c.validDReg
  validEReg :=
    if rst then false
    else if preWrong && c.validE && c.readyM rst rvalid then false
    else if c.readyE rst rvalid then c.validD stall
    else if c.readyM rst rvalid then false
    else c.validEReg
  mState := if rst then .idle else c.mStateNext rst rvalid loadE
  validWReg :=
    if rst then false
    else if readyW rst then c.validM rvalid
    else c.validWReg

end ValidCtrl

end RV32Pipeline
