import RV32Pipeline.Am.Div

/-!
# The routines in place of the extension M

The core has no instructions that multiply and divide, so the compiler calls routines of `libgcc`
for them. Each of the five routines for words computes what the instruction of the extension M is
specified to compute, with the same values for the division by zero and for the overflow.
-/

namespace RV32Pipeline

namespace Am

open Rv32i Asm
open Rv32m (MulDivOp)

/-- The routines, under their names for RV32. -/
inductive Routine where
  | mulsi3
  | divsi3
  | udivsi3
  | modsi3
  | umodsi3
  deriving DecidableEq

namespace Routine

/-- The file that a routine is in. -/
def instrs : Routine → List Instr
  | mulsi3 => Muldi3.instrs
  | _ => Div.instrs

/-- The number of its first instruction. -/
def entry : Routine → ℕ
  | mulsi3 => place Muldi3.listing .muldi3
  | divsi3 => place Div.listing .divdi3
  | udivsi3 => place Div.listing .udivdi3
  | modsi3 => place Div.listing .moddi3
  | umodsi3 => place Div.listing .umoddi3

/-- The instruction that it stands for. -/
def op : Routine → MulDivOp
  | mulsi3 => .mul
  | divsi3 => .div
  | udivsi3 => .divu
  | modsi3 => .rem
  | umodsi3 => .remu

/-- The registers that it changes. -/
def changed : Routine → List Reg
  | mulsi3 => Muldi3.changed
  | udivsi3 => Div.changed
  | _ => Div.changedSigned

variable {code : Word → SysInstr} {p : Word}

/-- Every routine computes its operation. -/
theorem computes (r : Routine) (hcode : Loaded code p (r.instrs.map .base))
    (hp : p.getLsbD 0 = false) :
    Computes code p r.instrs.length r.entry r.op.eval r.changed := by
  cases r with
  | mulsi3 =>
    intro σ f heven
    refine (Muldi3.computes_mul hcode σ f heven).mono (fun _ hs => hs) ?_
    rintro s ⟨g, hs, h0, hk⟩
    exact ⟨g, hs, h0.trans (Rv32m.mul_eval _ _).symm, hk⟩
  | divsi3 => exact Div.computes_div hcode hp
  | udivsi3 => exact Div.computes_udiv hcode
  | modsi3 => exact Div.computes_mod hcode hp
  | umodsi3 => exact Div.computes_umod hcode hp

/-- A routine that is called with an even return address comes back to it with the result of the
instruction in `a0`. The registers that it does not change, the memory, and the CSRs are as before,
and until then the machine is inside of the routine. -/
theorem returns_result (r : Routine) (hcode : Loaded code p (r.instrs.map .base))
    (hp : p.getLsbD 0 = false) (s : State) (hpc : s.pc = addrOf p r.entry)
    (hra : (s.reg ra).getLsbD 0 = false) :
    ∃ n, let s' := (State.step code)^[n] s
      s'.pc = s.reg ra ∧ s'.reg a0 = r.op.eval (s.reg a0) (s.reg a1) ∧
        (∀ q ∉ r.changed, s'.reg q = s.reg q) ∧ s'.mem = s.mem ∧ s'.csr = s.csr ∧
        ∀ k < n, ∃ j < r.instrs.length, ((State.step code)^[k] s).pc = addrOf p j := by
  obtain ⟨n, ⟨g, hg, h0, hk⟩, hin⟩ :=
    r.computes hcode hp s s.reg hra s ⟨hpc, rfl, rfl, rfl⟩
  refine ⟨n, hg.pc.trans (addrOf_zero _), ?_, fun q hq => ?_, hg.mem, hg.csr, fun k hk => (hin k hk).1⟩
  · rw [hg.reg, h0]
  · rw [hg.reg, hk q hq]

/-- The division of the least number by -1, with code at address 0. -/
theorem returns_result_overflow :
    let s : State := ⟨0#32, fun r => if r = a0 then 0x80000000#32 else if r = a1 then -1 else 64#32,
      fun _ => 0#8, fun _ => 0#32⟩
    (0#32).getLsbD 0 = false ∧ (s.reg ra).getLsbD 0 = false ∧
      ∃ n, let s' := (State.step (codeOf 0#32 Div.instrs))^[n] s
        s'.pc = 64#32 ∧ s'.reg a0 = 0x80000000#32 ∧ (∀ q ∉ Div.changedSigned, s'.reg q = s.reg q) ∧
          s'.mem = s.mem ∧ s'.csr = s.csr ∧ ∀ k < n, ∃ j < Div.instrs.length,
            ((State.step (codeOf 0#32 Div.instrs))^[k] s).pc = addrOf 0#32 j :=
  ⟨by decide, by decide, returns_result .divsi3 (loaded_codeOf 0#32 (by decide)) (by decide) _
    (by decide) (by decide)⟩

end Routine

end Am

end RV32Pipeline
