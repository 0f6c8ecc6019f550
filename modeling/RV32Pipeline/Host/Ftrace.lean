import RV32Pipeline.Rtl.Stages

/-!
# The jump targets of the function trace

`ftrace` decodes a `jal` or a `jalr` again, with the macros `BITS` and `SEXT` on 64-bit integers,
and computes the address that it jumps to. The immediate of a `jalr` has its lowest bit at bit 20 of
the instruction, but `ftrace` shifts it left by one, as if it were that of a branch. The core takes
the right immediate, but does not clear bit 0 of the target.
-/

namespace RV32Pipeline

/-! ## The macros of `common.h` -/

/-- The macro `BITMASK`. -/
def bitmask (bits : ℕ) : BitVec 64 := (1#64 <<< bits) - 1#64

/-- The macro `BITS`, on a 32-bit integer. -/
def bits (x : Word) (hi lo : ℕ) : BitVec 64 := (x >>> lo).setWidth 64 &&& bitmask (hi - lo + 1)

/-- The macro `SEXT`. -/
def sext (x : BitVec 64) (len : ℕ) : BitVec 64 := (x <<< (64 - len)).sshiftRight (64 - len)

/-- The bits of a mask. -/
theorem getLsbD_bitmask {n i : ℕ} (hn : n < 64) :
    (bitmask n).getLsbD i = decide (i < n) := by
  have hpow : 2 ^ n < 2 ^ 64 := Nat.pow_lt_pow_right (by decide) hn
  have hpos : 0 < 2 ^ n := Nat.two_pow_pos n
  have hnat : (bitmask n).toNat = 2 ^ n - 1 := by
    unfold bitmask
    rw [BitVec.toNat_sub, BitVec.toNat_shiftLeft]
    simp only [BitVec.toNat_ofNat, Nat.shiftLeft_eq]
    rw [show 1 % 2 ^ 64 = 1 from rfl, Nat.one_mul, Nat.mod_eq_of_lt hpow]
    omega
  rw [BitVec.getLsbD, hnat, Nat.testBit_two_pow_sub_one]

/-- The bits of a field. -/
theorem getLsbD_bits (x : Word) {hi lo i : ℕ} (hn : hi - lo < 63) :
    (bits x hi lo).getLsbD i = (decide (i < hi - lo + 1) && x.getLsbD (lo + i)) := by
  unfold bits
  by_cases h64 : i < 64
  · rw [BitVec.getLsbD_and, getLsbD_bitmask (by omega), BitVec.getLsbD_setWidth,
      BitVec.getLsbD_ushiftRight, Bool.and_comm, decide_eq_true h64, Bool.true_and]
  · rw [BitVec.getLsbD_of_ge _ i (by omega), decide_eq_false (by omega), Bool.false_and]

/-- The sign extension of one bit. -/
theorem getLsbD_sext_one (x : BitVec 64) {i : ℕ} (hi : i < 64) :
    (sext x 1).getLsbD i = x.getLsbD 0 := by
  unfold sext
  rw [BitVec.getLsbD_sshiftRight, decide_eq_false (by omega), Bool.not_false, Bool.true_and]
  split_ifs with h
  · rw [BitVec.getLsbD_shiftLeft, show i = 0 by omega]
    rfl
  · rw [BitVec.msb_eq_getLsbD_last, BitVec.getLsbD_shiftLeft]
    rfl

/-! ## The function -/

/-- The arguments of `ftrace_decode`. -/
structure FtraceDecode where
  rd : Word
  rs : Word
  pc : Word
  dnpc : Word

/-- The immediate that `ftrace` assembles for a `jal`. -/
def ftraceJalImm (inst : Word) : Word :=
  (sext (bits inst 31 31) 1 <<< 20 ||| bits inst 30 21 <<< 1 ||| bits inst 20 20 <<< 11 |||
    bits inst 19 12 <<< 12).setWidth 32

/-- The immediate that `ftrace` assembles for a `jalr`. -/
def ftraceJalrImm (inst : Word) : Word :=
  (sext (bits inst 31 31) 1 <<< 11 ||| bits inst 30 20 <<< 1).setWidth 32

/-- The function `ftrace`, up to its call of `ftrace_decode`. `cgetReg` is what `Cget_reg` reads. -/
def ftrace (ftraceEnable : Bool) (cgetReg : Word → Word) (pc inst : Word) : Option FtraceDecode :=
  if !ftraceEnable then none
  else
    let isJal := inst &&& 0x7f#32 == 0x6f#32
    let isJalr := inst &&& 0x7067#32 == 0x67#32
    if !(isJal || isJalr) then none
    else if isJal then
      let imm := ftraceJalImm inst
      let rd := inst >>> 7 &&& 0x1f#32
      some ⟨rd, 0#32, pc, pc + imm⟩
    else if isJalr then
      let rd := inst >>> 7 &&& 0x1f#32
      let rs := inst >>> 15 &&& 0x1f#32
      let src := cgetReg rs
      let imm := ftraceJalrImm inst
      some ⟨rd, rs, pc, (src + imm) &&& 0xfffffffe#32⟩
    else none

/-- The encodings of `jal`. -/
def IsJalWord (inst : Word) : Prop := inst.extractLsb' 0 7 = Opcode.jal

/-- The encodings of `jalr`. -/
def IsJalrWord (inst : Word) : Prop :=
  inst.extractLsb' 0 7 = Opcode.jalr ∧ inst.extractLsb' 12 3 = 0b000#3

/-- The immediate that `ftrace` takes from a `jal` is its J-immediate. -/
theorem ftraceJalImm_eq (inst : Word) : ftraceJalImm inst =
    (inst.extractLsb' 31 1 ++ inst.extractLsb' 12 8 ++ inst.extractLsb' 20 1 ++
      inst.extractLsb' 21 10 ++ 0#1).signExtend 32 := by
  apply BitVec.eq_of_getLsbD_eq
  intro i hi
  unfold ftraceJalImm
  simp only [BitVec.getLsbD_setWidth, BitVec.getLsbD_or, BitVec.getLsbD_shiftLeft,
    BitVec.getLsbD_signExtend, BitVec.getLsbD_append, BitVec.getLsbD_extractLsb',
    BitVec.msb_append, BitVec.msb_extractLsb']
  rw [getLsbD_sext_one _ (by omega), getLsbD_bits _ (by decide), getLsbD_bits _ (by decide),
    getLsbD_bits _ (by decide), getLsbD_bits _ (by decide)]
  have hcases : i = 0 ∨ (1 ≤ i ∧ i < 11) ∨ i = 11 ∨ (12 ≤ i ∧ i < 20) ∨ 20 ≤ i := by omega
  rcases hcases with rfl | ⟨h1, h11⟩ | rfl | ⟨h12, h20⟩ | h20
  · rfl
  · grind
  · simp
  · grind
  · grind

/-- The immediate that `ftrace` takes from a `jalr`: bits 20 to 30 of the instruction, shifted by
one, and the sign above them. -/
theorem ftraceJalrImm_eq (inst : Word) : ftraceJalrImm inst =
    if inst.getLsbD 31 then BitVec.allOnes 21 ++ (inst.extractLsb' 20 10 ++ 0#1)
    else 0#20 ++ (inst.extractLsb' 20 11 ++ 0#1) := by
  apply BitVec.eq_of_getLsbD_eq
  intro i hi
  unfold ftraceJalrImm
  simp only [BitVec.getLsbD_setWidth, BitVec.getLsbD_or, BitVec.getLsbD_shiftLeft]
  rw [getLsbD_sext_one _ (by omega), getLsbD_bits _ (by decide), getLsbD_bits _ (by decide)]
  split_ifs with hs
  · simp only [BitVec.getLsbD_append, BitVec.getLsbD_extractLsb', BitVec.getLsbD_allOnes]
    grind
  · simp only [BitVec.getLsbD_append, BitVec.getLsbD_extractLsb', BitVec.getLsbD_zero]
    grind

/-- The immediate that `ftrace` takes from a `jalr`, as a number. -/
theorem toNat_ftraceJalrImm (inst : Word) : (ftraceJalrImm inst).toNat =
    if inst.getLsbD 31 then 2 ^ 32 - 2 ^ 11 + 2 * (inst.extractLsb' 20 11).toNat % 2 ^ 11
    else 2 * (inst.extractLsb' 20 11).toNat := by
  rw [ftraceJalrImm_eq]
  split_ifs
  · rw [BitVec.toNat_append, ← Nat.shiftLeft_add_eq_or_of_lt (BitVec.isLt _), BitVec.toNat_append,
      ← Nat.shiftLeft_add_eq_or_of_lt (BitVec.isLt _)]
    simp only [BitVec.toNat_allOnes, BitVec.extractLsb'_toNat, BitVec.toNat_ofNat,
      Nat.shiftLeft_eq, Nat.shiftRight_eq_div_pow]
    omega
  · rw [BitVec.toNat_append, ← Nat.shiftLeft_add_eq_or_of_lt (BitVec.isLt _), BitVec.toNat_append,
      ← Nat.shiftLeft_add_eq_or_of_lt (BitVec.isLt _)]
    simp only [BitVec.toNat_ofNat, Nat.shiftLeft_eq]
    omega

/-- The I-immediate, as a number. -/
theorem toNat_iImme (inst : Word) : ((inst.extractLsb' 20 12).signExtend 32).toNat =
    if inst.getLsbD 31 then 2 ^ 32 - 2 ^ 11 + (inst.extractLsb' 20 11).toNat
    else (inst.extractLsb' 20 11).toNat := by
  have hmsb : (inst.extractLsb' 20 12).msb = inst.getLsbD 31 := by
    rw [BitVec.msb_eq_getLsbD_last, BitVec.getLsbD_extractLsb']
    rfl
  have hbit : inst.getLsbD 31 = decide (2 ^ 31 ≤ inst.toNat) := BitVec.msb_eq_decide inst
  have hlt := inst.isLt
  rw [BitVec.toNat_signExtend, hmsb, BitVec.toNat_setWidth]
  simp only [BitVec.extractLsb'_toNat, Nat.shiftRight_eq_div_pow, hbit, decide_eq_true_eq]
  split_ifs <;> omega

/-- Bit 0 of a word cleared, as a number. -/
theorem toNat_clear_bit (x : Word) : (x &&& 0xfffffffe#32).toNat = x.toNat - x.toNat % 2 := by
  have hone : x &&& 0xfffffffe#32 = (x >>> 1) <<< 1 := by
    have hb : ∀ i < 32, (0xfffffffe#32).getLsbD i = decide (0 < i) := by decide
    apply BitVec.eq_of_getLsbD_eq
    intro i hi
    rw [BitVec.getLsbD_and, hb i hi, BitVec.getLsbD_shiftLeft, BitVec.getLsbD_ushiftRight]
    grind
  have hlt := x.isLt
  rw [hone, BitVec.toNat_shiftLeft, BitVec.toNat_ushiftRight, Nat.shiftLeft_eq,
    Nat.shiftRight_eq_div_pow]
  omega

/-! ## The targets -/

/-- An even number added with bit 0 cleared behind it clears the other summand's. -/
theorem clear_bit_add {n f : ℕ} (hf : f % 2 = 0) :
    (n + f) % 2 ^ 32 - (n + f) % 2 ^ 32 % 2 = (n - n % 2 + f) % 2 ^ 32 := by
  omega

/-- Summands that are close to each other agree up to the bit that one sum has lost. -/
theorem add_mod_eq_iff {n f i : ℕ} (hf : f < i + 2 ^ 31) (hi : i < f + 2 ^ 31) :
    (n - n % 2 + f) % 2 ^ 32 = (i + n) % 2 ^ 32 ↔ f = i + n % 2 := by
  obtain ⟨t, b, hb, rfl⟩ : ∃ t b, b < 2 ∧ n = 2 * t + b := ⟨n / 2, n % 2, by omega, by omega⟩
  have h2 : (2 * t + b) % 2 = b := by omega
  rw [h2, Nat.add_sub_cancel]
  omega

/-- The target that `ftrace` computes for a `jalr` is the sum of the register and the I-immediate
exactly when bits 20 to 30 of the instruction are bit 0 of the register. -/
theorem ftrace_jalr_target_iff (inst src : Word) :
    (src + ftraceJalrImm inst) &&& 0xfffffffe#32 = (inst.extractLsb' 20 12).signExtend 32 + src ↔
      inst.extractLsb' 20 11 = (src.extractLsb' 0 1).setWidth 11 := by
  have hx := (inst.extractLsb' 20 11).isLt
  have hbit : (src.extractLsb' 0 1).toNat = src.toNat % 2 := by
    rw [BitVec.extractLsb'_toNat]
    rfl
  rw [← BitVec.toNat_inj, ← BitVec.toNat_inj, toNat_clear_bit, BitVec.toNat_add, BitVec.toNat_add,
    toNat_ftraceJalrImm, toNat_iImme, BitVec.toNat_setWidth, hbit]
  generalize (inst.extractLsb' 20 11).toNat = x at *
  split_ifs
  · -- A negative immediate is taken as its double, less 2048 if that overflows 11 bits.
    rw [clear_bit_add (by omega), add_mod_eq_iff (by omega) (by omega)]
    omega
  · rw [clear_bit_add (by omega), add_mod_eq_iff (by omega) (by omega)]
    omega

variable (predict : Bool) (pc inst rdata1 rdata2 csrRdata src1 src2 : Word)

/-- The core's correction path of a `jal`. -/
theorem pcCorrectionPath_jal {inst : Word} (h : IsJalWord inst) :
    (bufferDEIn inst pc predict rdata1 rdata2 csrRdata).pcCorrectionPath src1 src2 =
      pc + (immeDecoder inst).imme := by
  unfold IsJalWord at h
  simp only [BufferDE.pcCorrectionPath, BufferDE.jumpSign, BufferDE.jumpTarget, BufferDE.pcJump,
    bufferDEIn, controlD, mulcuDecoder, h]
  rfl

/-- The core's correction path of a `jalr`. -/
theorem pcCorrectionPath_jalr {inst : Word} (h : IsJalrWord inst) :
    (bufferDEIn inst pc predict rdata1 rdata2 csrRdata).pcCorrectionPath src1 src2 =
      (immeDecoder inst).imme + src1 := by
  obtain ⟨hop, -⟩ := h
  simp only [BufferDE.pcCorrectionPath, BufferDE.jumpSign, BufferDE.jumpTarget, BufferDE.pcJalr,
    BufferDE.aluDA, bufferDEIn, controlD, mulcuDecoder, hop]
  rfl

/-- `ftrace` takes the encodings of `jal` for one. -/
theorem ftrace_jal (cgetReg : Word → Word) (pc : Word) {inst : Word} (h : IsJalWord inst) :
    (ftrace true cgetReg pc inst).map FtraceDecode.dnpc = some (pc + ftraceJalImm inst) := by
  have hjal : inst &&& 0x7f#32 = 0x6f#32 := by
    have hlow : inst &&& 0x7f#32 = (inst.extractLsb' 0 7).setWidth 32 := by
      have hb : ∀ i < 32, (0x7f#32).getLsbD i = decide (i < 7) := by decide
      apply BitVec.eq_of_getLsbD_eq
      intro i hi
      rw [BitVec.getLsbD_and, hb i hi, BitVec.getLsbD_setWidth, BitVec.getLsbD_extractLsb']
      grind
    rw [hlow, h]
    rfl
  simp [ftrace, hjal]

/-- `ftrace` takes the encodings of `jalr` for one. -/
theorem ftrace_jalr (cgetReg : Word → Word) (pc : Word) {inst : Word} (h : IsJalrWord inst) :
    (ftrace true cgetReg pc inst).map FtraceDecode.dnpc =
      some ((cgetReg (inst >>> 15 &&& 0x1f#32) + ftraceJalrImm inst) &&& 0xfffffffe#32) := by
  obtain ⟨hop, hfunct3⟩ := h
  have hmask : inst &&& 0x707f#32 =
      (inst.extractLsb' 12 3 ++ (0#5 ++ inst.extractLsb' 0 7)).setWidth 32 := by
    have hb : ∀ i < 32, (0x707f#32).getLsbD i = decide (i < 7 ∨ 12 ≤ i ∧ i < 15) := by decide
    apply BitVec.eq_of_getLsbD_eq
    intro i hi
    rw [BitVec.getLsbD_and, hb i hi, BitVec.getLsbD_setWidth, BitVec.getLsbD_append,
      BitVec.getLsbD_append, BitVec.getLsbD_extractLsb', BitVec.getLsbD_extractLsb']
    grind
  rw [hop, hfunct3] at hmask
  have hjal : inst &&& 0x7f#32 = 0x67#32 := by
    rw [show 0x7f#32 = 0x707f#32 &&& 0x7f#32 from rfl, ← BitVec.and_assoc, hmask]
    rfl
  have hjalr : inst &&& 0x7067#32 = 0x67#32 := by
    rw [show 0x7067#32 = 0x707f#32 &&& 0x7067#32 from rfl, ← BitVec.and_assoc, hmask]
    rfl
  simp [ftrace, hjal, hjalr]

/-- The trace agrees with the hardware on the target of the instruction `inst` at `pc`, where the
registers hold what `cgetReg` reads: `ftrace` hands the core's target to `ftrace_decode`, and this
is `pc` plus the immediate for a `jal`, and the sum of `rs1` and the immediate with bit 0 cleared
for a `jalr`. -/
structure FtraceAgrees (cgetReg : Word → Word) (pc inst : Word) : Prop where
  dnpc : ∀ predict rdata1 rdata2 csrRdata src2,
    (ftrace true cgetReg pc inst).map FtraceDecode.dnpc =
      some ((bufferDEIn inst pc predict rdata1 rdata2 csrRdata).pcCorrectionPath
        (cgetReg (inst >>> 15 &&& 0x1f#32)) src2)
  target : ∀ predict rdata1 rdata2 csrRdata src2,
    (bufferDEIn inst pc predict rdata1 rdata2 csrRdata).pcCorrectionPath
        (cgetReg (inst >>> 15 &&& 0x1f#32)) src2 =
      if inst.extractLsb' 0 7 = Opcode.jal then pc + (immeDecoder inst).imme
      else (cgetReg (inst >>> 15 &&& 0x1f#32) + (immeDecoder inst).imme) &&& 0xfffffffe#32

/-- For every `jal`: the trace agrees with the hardware. -/
theorem ftraceAgrees_jal (cgetReg : Word → Word) (pc : Word) {inst : Word} (h : IsJalWord inst) :
    FtraceAgrees cgetReg pc inst := by
  have himm : ftraceJalImm inst = (immeDecoder inst).imme := by
    unfold IsJalWord at h
    rw [ftraceJalImm_eq]
    simp only [immeDecoder, h]
    rfl
  refine ⟨fun predict rdata1 rdata2 csrRdata src2 => ?_,
    fun predict rdata1 rdata2 csrRdata src2 => ?_⟩
  · rw [ftrace_jal _ _ h, pcCorrectionPath_jal _ _ _ _ _ _ _ h, himm]
  · unfold IsJalWord at h
    rw [pcCorrectionPath_jal _ _ _ _ _ _ _ h, if_pos h]

/-- For every `jalr`: the trace agrees with the hardware exactly when bits 20 to 30 of the
instruction are bit 0 of `rs1`. -/
theorem ftraceAgrees_jalr_iff (cgetReg : Word → Word) (pc : Word) {inst : Word}
    (h : IsJalrWord inst) :
    FtraceAgrees cgetReg pc inst ↔ inst.extractLsb' 20 11 =
      ((cgetReg (inst >>> 15 &&& 0x1f#32)).extractLsb' 0 1).setWidth 11 := by
  have himm : (immeDecoder inst).imme = (inst.extractLsb' 20 12).signExtend 32 := by
    simp only [immeDecoder, h.1]
    rfl
  rw [← ftrace_jalr_target_iff, ← himm]
  constructor
  · intro ha
    have hd := ha.dnpc false 0#32 0#32 0#32 0#32
    rw [ftrace_jalr _ _ h, pcCorrectionPath_jalr _ _ _ _ _ _ _ h, Option.some.injEq] at hd
    exact hd
  · intro heq
    have hop : inst.extractLsb' 0 7 ≠ Opcode.jal := by
      rw [h.1]
      decide
    refine ⟨fun predict rdata1 rdata2 csrRdata src2 => ?_,
      fun predict rdata1 rdata2 csrRdata src2 => ?_⟩
    · rw [ftrace_jalr _ _ h, pcCorrectionPath_jalr _ _ _ _ _ _ _ h, heq]
    · -- The sum has bit 0 clear, since it is what `ftrace` computes.
      rw [pcCorrectionPath_jalr _ _ _ _ _ _ _ h, if_neg hop, BitVec.add_comm (cgetReg _), ← heq,
        BitVec.and_assoc, BitVec.and_self]

/-- For every `jal` and `jalr`, at every `pc` and for all values of the registers: the trace agrees
with the hardware exactly if the instruction is no `jalr` or bits 20 to 30 of it are bit 0 of
`rs1`. -/
theorem ftraceAgrees_iff (cgetReg : Word → Word) (pc : Word) {inst : Word}
    (h : IsJalWord inst ∨ IsJalrWord inst) :
    FtraceAgrees cgetReg pc inst ↔ (IsJalrWord inst → inst.extractLsb' 20 11 =
      ((cgetReg (inst >>> 15 &&& 0x1f#32)).extractLsb' 0 1).setWidth 11) := by
  rcases h with h | h
  · have hno : ¬ IsJalrWord inst := by
      rintro ⟨hop, -⟩
      rw [IsJalWord, hop] at h
      exact absurd h (by decide)
    exact iff_of_true (ftraceAgrees_jal cgetReg pc h) fun hj => absurd hj hno
  · rw [ftraceAgrees_jalr_iff cgetReg pc h]
    exact ⟨fun heq _ => heq, fun heq => heq h⟩

/-- The word `jalr x0, 0(x1)` with an even `x1`. -/
theorem ftraceAgrees_ret : FtraceAgrees (fun _ => 0x80000010#32) 0x80000000#32 0x00008067#32 :=
  (ftraceAgrees_iff _ _ (.inr ⟨by decide, by decide⟩)).mpr fun _ => by decide

/-- The word `jalr x1, 4(x5)` with `0x80000000` in `x5`: the core jumps to `0x80000004`, and the
trace says `0x80000008`. -/
theorem not_ftraceAgrees_jalr :
    ¬ FtraceAgrees (fun _ => 0x80000000#32) 0x80000000#32 0x004280e7#32 := by
  intro h
  have hd := h.dnpc false 0#32 0#32 0#32 0#32
  revert hd
  decide

end RV32Pipeline
