import RV32Pipeline.Am.Libgcc
import RV32Pipeline.Pipeline.Isa

/-!
# Products and quotients on the pipeline

A program that calls a routine of `libgcc` for two words and then waits. With the pipeline as the
machine that executes it, `a0` shows the result of the instruction of the extension M from some
cycle on, for every timing of the responses.
-/

namespace RV32Pipeline

open Rv32i Asm Am

/-- The program: the call of a routine for `x` and `y`, a loop, and the file with the routine. -/
def calculator (r : Routine) (x y : Word) : List Instr :=
  liWord a0 x ++ liWord a1 y ++ [.jal ra (jumpImm 20 4 (6 + r.entry)), .jal 0#5 (jumpImm 20 5 5)] ++
    r.instrs

section Program

variable (r : Routine) (x y : Word)

theorem length_calculator : (calculator r x y).length < 1024 := by
  cases r <;> exact of_decide_eq_true rfl

/-- The instructions neither store nor touch a CSR, and their offsets are whole words. -/
theorem plain_calculator :
    ∀ i ∈ calculator r x y, isPlain (.base i) = true ∧ alignedOffset (.base i) = true := by
  have hall : (calculator r x y).all
      (fun i => isPlain (.base i) && alignedOffset (.base i)) = true := by
    cases r <;> rfl
  intro i hi
  exact (Bool.and_eq_true ..).mp (List.all_eq_true.mp hall i hi)

variable {code : Word → SysInstr} {σ : State} {r x y}

/-- Inside of the routine is inside of the program. -/
theorem inside_routine {s : State} (h : Inside code (addrOf pcRst 6) r.instrs.length s) :
    Inside code pcRst (calculator r x y).length s := by
  obtain ⟨⟨j, hj, hpc⟩, heven⟩ := h
  have hlen : (calculator r x y).length = 6 + r.instrs.length := by
    rw [calculator, List.length_append]
    rfl
  exact ⟨⟨6 + j, by omega, by rw [hpc, addrOf_addrOf]⟩, heven⟩

variable (hcode : Loaded code pcRst ((calculator r x y).map .base))
include hcode

/-- The file with the routine stands behind the six instructions before it. -/
theorem loaded_routine : Loaded code (addrOf pcRst 6) (r.instrs.map .base) := by
  have happ := hcode
  rw [calculator, List.map_append, Loaded.append] at happ
  exact happ.2

/-- The call leads to the loop, with the result in `a0`. -/
theorem runs_calculator (f : Reg → Word) :
    Runs code pcRst (calculator r x y).length (At pcRst σ 0 f)
      (AtWith pcRst σ 5 fun g => g a0 = r.op.eval x y) := by
  have hx : Runs code pcRst (calculator r x y).length (At pcRst σ 0 f)
      (At pcRst σ 2 (Function.update f a0 x)) :=
    runs_liWord hcode (by decide) rfl rfl
  have hy := hx.trans (runs_liWord (v := y) hcode (show a1 ≠ 0#5 by decide) rfl rfl)
  have hcall := hy.trans (runs_call hcode (k := 4) (j := 6 + r.entry) rfl (show ra ≠ 0#5 by decide)
    (length_calculator r x y) (by cases r <;> exact of_decide_eq_true rfl))
  obtain ⟨g, hg⟩ : ∃ g, g = Function.update (Function.update (Function.update f a0 x) a1 y) ra
      (addrOf pcRst 5) := ⟨_, rfl⟩
  have ha0 : g a0 = x := by
    rw [hg]
    simp (disch := decide) only [Function.update_self, Function.update_of_ne]
  have ha1 : g a1 = y := by
    rw [hg]
    simp (disch := decide) only [Function.update_self, Function.update_of_ne]
  have hra : g ra = addrOf pcRst 5 := by rw [hg, Function.update_self]
  have hret := (r.computes (loaded_routine hcode) (by decide) σ g
    (by rw [hra]; decide)).mono_along fun _ hs => inside_routine (x := x) (y := y) hs
  rw [ha0, ha1, hra] at hret
  refine hcall.trans (hret.mono (fun s hs => ?_) ?_)
  · rw [hg]
    exact ⟨by rw [hs.pc, addrOf_addrOf], hs.reg, hs.mem, hs.csr⟩
  · rintro s ⟨h, hs, h0, _⟩
    exact ⟨h, hs.return, h0⟩

/-- From reset on, the machine stays inside of the program, and from some instruction on `a0` has
the result. -/
theorem isaSeq_calculator (dmem : ByteMem 32) :
    (∀ n, Inside code pcRst (calculator r x y).length (isaSeq code dmem n)) ∧
      ∃ n₀, ∀ n ≥ n₀, (isaSeq code dmem n).reg a0 = r.op.eval x y := by
  have hstart : At pcRst (isaReset dmem) 0 (isaReset dmem).reg (isaReset dmem) :=
    ⟨(addrOf_zero pcRst).symm, rfl, rfl, rfl⟩
  obtain ⟨hin, n₀, hn₀⟩ := (runs_calculator hcode (isaReset dmem).reg).forever
    (fun s ⟨g, hs, h0⟩ => by
      obtain ⟨hin, hat⟩ := step_j hcode (j := 5) rfl (length_calculator r x y)
        (by cases r <;> exact of_decide_eq_true rfl) hs
      exact ⟨hin, g, hat, h0⟩) hstart
  refine ⟨hin, n₀, fun n hn => ?_⟩
  obtain ⟨g, hs, h0⟩ := hn₀ n hn
  exact (congrFun hs.reg a0).trans h0

end Program

section Image

variable (r : Routine) (x y : Word)

/-- The instructions stand in the memory from the reset address on. -/
def InImage (is : List Instr) (mem : Memories) : Prop :=
  ∀ k, (hk : k < is.length) → mem.fetch (addrOf pcRst k) = is[k].encode

/-- The core can execute the program. -/
theorem isaProgram_calculator {mem : Memories} (h : InImage (calculator r x y) mem) :
    IsaProgram (codeOf pcRst (calculator r x y)) mem := by
  have hlen := length_calculator r x y
  have hcode : Loaded (codeOf pcRst (calculator r x y)) pcRst ((calculator r x y).map .base) :=
    loaded_codeOf pcRst (by omega)
  have hin := (isaSeq_calculator hcode mem.dmem).1
  refine IsaProgram.of_plain (fun n => ?_) fun n => (hin n).2
  obtain ⟨⟨k, hk, hpc⟩, -⟩ := hin n
  have hget : codeOf pcRst (calculator r x y) (addrOf pcRst k) = .base (calculator r x y)[k] :=
    codeOf_addrOf pcRst (by omega) hk
  have hplain := plain_calculator r x y _ (List.getElem_mem hk)
  rw [hpc]
  refine ⟨?_, ?_, ?_, ?_⟩
  · rw [hget, h k hk]
    rfl
  · rw [hget]
    exact hplain.1
  · have hrst : pcRst.toNat % 4 = 0 := rfl
    rw [aligned_iff, addrOf, BitVec.toNat_add, BitVec.toNat_ofNat]
    omega
  · rw [hget]
    exact hplain.2

/-- For any two words there is a number of instructions, which no timing of the responses changes,
after which the pipeline shows the result of the instruction of the extension M in `a0`; and with
responses that keep coming that many instructions retire. -/
theorem pipeline_shows_result (y₀ : System) (hreset : y₀.core.AfterReset)
    (himage : InImage (calculator r x y) y₀.mem) :
    ∃ n₀, ∀ bus : ℕ → Bus,
      let s := fun t => (Clocked.run System.step y₀ bus t).core
      (∀ t, n₀ ≤ retired s t → (s t).rf.read true a0 = r.op.eval x y) ∧
        ((Fair fun t => (bus t).rvalid) → ∃ t, retired s t = n₀) := by
  have hprog := isaProgram_calculator r x y himage
  have hlen := length_calculator r x y
  have hcode : Loaded (codeOf pcRst (calculator r x y)) pcRst ((calculator r x y).map .base) :=
    loaded_codeOf pcRst (by omega)
  obtain ⟨-, n₀, hn₀⟩ := isaSeq_calculator hcode y₀.mem.dmem
  refine ⟨n₀, fun bus => ⟨fun t ht => ?_, fun hfair => ?_⟩⟩
  · rw [(showsIsa_run y₀ bus hreset hprog t).reg]
    exact hn₀ _ ht
  · exact (System.memRun_step y₀ bus hreset).toCoreRun.exists_retired hfair n₀

end Image

/-- The memory with a program at the reset address. -/
def imageOf (is : List Instr) : Memories :=
  let image := ByteMem.ofWords pcRst (is.map Instr.encode)
  ⟨true, image, image⟩

theorem inImage_imageOf {is : List Instr} (hlen : is.length ≤ 2 ^ 30) :
    InImage is (imageOf is) := by
  intro k hk
  have hword : k < (is.map Instr.encode).length := by rwa [List.length_map]
  have hload := ByteMem.load_ofWords pcRst (by rwa [List.length_map]) hword
  rw [List.getElem_map] at hload
  exact hload

/-- The quotient of the division that overflows. -/
theorem pipeline_shows_result_div : ∃ n₀, ∀ bus : ℕ → Bus,
    let s := fun t => (Clocked.run System.step
      ⟨Datapath.reset, imageOf (calculator .divsi3 0x80000000#32 0xffffffff#32)⟩ bus t).core
    (∀ t, n₀ ≤ retired s t → (s t).rf.read true a0 = 0x80000000#32) ∧
      ((Fair fun t => (bus t).rvalid) → ∃ t, retired s t = n₀) :=
  pipeline_shows_result .divsi3 0x80000000#32 0xffffffff#32
    ⟨Datapath.reset, imageOf (calculator .divsi3 0x80000000#32 0xffffffff#32)⟩
    Datapath.afterReset_reset (inImage_imageOf (by decide))

end RV32Pipeline
