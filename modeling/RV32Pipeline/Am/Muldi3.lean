import RV32Pipeline.Am.Context
import RV32Pipeline.Lib.Assembler
import RV32Pipeline.Lib.Rv32m

/-!
# Multiplication without the extension M

The routine `__muldi3` of `muldi3.S`, which is `__mulsi3` for RV32: a product of 32 bits, one bit of
the second factor in each round. `Computes` is what a caller of such a routine knows.
-/

namespace RV32Pipeline

namespace Am

open Rv32i Asm

/-- The second argument. -/
def a1 : Reg := 11#5

/-- The register `a2`. -/
def a2 : Reg := 12#5

/-- The register `a3`. -/
def a3 : Reg := 13#5

/-- Called with an even return address, the routine at instruction `k` comes back with the value of
`op` in `a0`. It changes only the registers of a list, and neither memory nor CSRs. -/
def Computes (code : Word → SysInstr) (p : Word) (n k : ℕ) (op : Word → Word → Word)
    (changed : List Reg) : Prop :=
  ∀ σ f, (f ra).getLsbD 0 = false → Runs code p n (At p σ k f)
    (AtWith (f ra) σ 0 fun g => g a0 = op (f a0) (f a1) ∧ KeepsRegs changed f g)

namespace Muldi3

/-- The labels of `muldi3.S`. -/
inductive Label where
  | muldi3
  | l1
  | l2
  deriving DecidableEq

/-- The listing of `muldi3.S`. -/
def listing : List (Line Label) :=
  [.label .muldi3,
    mv a2 a0,
    li a0 0#12,
  .label .l1,
    .instr (.opImm .andi a3 a1 1#12),
    beqz a3 .l2,
    .instr (.opReg .add a0 a0 a2),
  .label .l2,
    .instr (.shiftImm .srli a1 a1 1#5),
    .instr (.shiftImm .slli a2 a2 1#5),
    bnez a1 .l1,
    jr ra]

/-- The code of the routine. -/
def instrs : List Instr := assemble listing

/-- The registers that the routine changes. -/
def changed : List Reg := [a0, a1, a2, a3]

/-- The low bit of a word, and the rest. -/
theorem split_low_bit (y : Word) : y = 2#32 * (y >>> 1) + (y &&& 1#32) := by
  apply BitVec.eq_of_toNat_eq
  have hy := y.isLt
  have hand : y.toNat &&& 1 = y.toNat % 2 := Nat.and_one_is_mod _
  simp only [BitVec.toNat_add, BitVec.toNat_mul, BitVec.toNat_ushiftRight, BitVec.toNat_and,
    BitVec.toNat_ofNat, Nat.shiftRight_eq_div_pow, Nat.reducePow, Nat.reduceMod, Nat.pow_one, hand]
  omega

/-- The low bit of a word is zero or one. -/
theorem low_bit (y : Word) : y &&& 1#32 = 0#32 ∨ y &&& 1#32 = 1#32 := by
  rcases Nat.mod_two_eq_zero_or_one y.toNat with h | h
  · left
    apply BitVec.eq_of_toNat_eq
    rw [BitVec.toNat_and, BitVec.toNat_ofNat, Nat.one_mod_two_pow (by decide), Nat.and_one_is_mod, h]
    rfl
  · right
    apply BitVec.eq_of_toNat_eq
    rw [BitVec.toNat_and, BitVec.toNat_ofNat, Nat.one_mod_two_pow (by decide), Nat.and_one_is_mod, h]

/-- One round of a product: the first factor is added for the low bit of the second. -/
theorem product_step (x y z : Word) :
    (if y &&& 1#32 = 0#32 then x else x + z) + (y >>> 1) * (z <<< 1) = x + y * z := by
  have hz : z <<< 1 = 2#32 * z := by
    rw [BitVec.shiftLeft_eq_mul_twoPow, BitVec.mul_comm]
    rfl
  have hy := split_low_bit y
  rcases low_bit y with h | h
  · rw [h, BitVec.add_zero] at hy
    rw [if_pos h, hz]
    conv_rhs => rw [hy]
    ring
  · rw [h, show 1#32 = (1 : Word) from rfl] at hy
    rw [if_neg (by rw [h]; decide), hz]
    conv_rhs => rw [hy]
    ring

section Correct

variable {code : Word → SysInstr} {p : Word} (hcode : Loaded code p (instrs.map .base))
  {σ : State}
include hcode

/-- The first part of a round: the first factor is added if the bit is set. -/
theorem runs_add {f : Reg → Word} (hz : f 0#5 = 0#32) :
    Runs code p instrs.length (At p σ (place listing .l1) f)
      (AtWith p σ (place listing .l2) fun g =>
        g a0 = (if f a1 &&& 1#32 = 0#32 then f a0 else f a0 + f a2) ∧ g a1 = f a1 ∧ g a2 = f a2 ∧
          KeepsRegs changed f g) := by
  have hbit : Runs code p instrs.length (At p σ (place listing .l1) f)
      (At p σ 3 (Function.update f a3 (f a1 &&& 1#32))) :=
    runs_opImm hcode rfl (by decide) fun _ => rfl
  have hk := (KeepsRegs.refl changed f).update (r := a3) (by decide) (f a1 &&& 1#32)
  by_cases h : f a1 &&& 1#32 = 0#32
  · have hbranch := hbit.trans (runs_taken hcode (j := place listing .l2) rfl (by decide) (by decide)
      (by rw [Function.update_self, Function.update_of_ne (by decide), hz, h]; rfl))
    refine Runs.to_atWith hbranch ⟨?_, ?_, ?_, hk⟩
    · rw [if_pos h, Function.update_of_ne (by decide)]
    · rw [Function.update_of_ne (by decide)]
    · rw [Function.update_of_ne (by decide)]
  · have hbranch := hbit.trans (runs_not_taken hcode (j := place listing .l2) rfl (by decide)
      (by decide) (by
        rw [Function.update_self, Function.update_of_ne (by decide), hz]
        exact beq_eq_false_iff_ne.mpr h))
    have hadd := hbranch.trans (runs_opReg hcode (v := f a0 + f a2) rfl (by decide)
      fun _ => by rw [Function.update_of_ne (by decide), Function.update_of_ne (by decide)]; rfl)
    refine Runs.to_atWith hadd ⟨?_, ?_, ?_, hk.update (by decide) _⟩
    · rw [if_neg h, Function.update_self]
    · simp (disch := decide) only [Function.update_of_ne]
    · simp (disch := decide) only [Function.update_of_ne]

/-- A round of the loop, up to the branch at its end. -/
theorem runs_round {f : Reg → Word} (hz : f 0#5 = 0#32) :
    Runs code p instrs.length (At p σ (place listing .l1) f)
      (AtWith p σ 7 fun g =>
        g a0 = (if f a1 &&& 1#32 = 0#32 then f a0 else f a0 + f a2) ∧ g a1 = f a1 >>> 1 ∧
          g a2 = f a2 <<< 1 ∧ KeepsRegs changed f g) := by
  refine (runs_add hcode hz).trans (Runs.of_atWith fun g ⟨h0, h1, h2, hk⟩ _ => ?_)
  have hsrl : Runs code p instrs.length (At p σ (place listing .l2) g)
      (At p σ 6 (Function.update g a1 (f a1 >>> 1))) :=
    runs_shiftImm hcode rfl (by decide) (by rw [h1]; rfl)
  have hsll := hsrl.trans (runs_shiftImm hcode (v := f a2 <<< 1) rfl (by decide)
    (by rw [Function.update_of_ne (by decide), h2]; rfl))
  refine Runs.to_atWith hsll ⟨?_, ?_, ?_, (hk.update (by decide) _).update (by decide) _⟩
  · simp (disch := decide) only [Function.update_of_ne, h0]
  · simp (disch := decide) only [Function.update_of_ne, Function.update_self]
  · rw [Function.update_self]

/-- The invariant of the loop: `a0 + a1 * a2` is the product, and `a1` is a smaller and smaller
number. -/
def Invariant (c : Word) (f₀ : Reg → Word) (n : ℕ) (f : Reg → Word) : Prop :=
  (f a1).toNat = n ∧ f a0 + f a1 * f a2 = c ∧ KeepsRegs changed f₀ f

/-- The loop leaves the product in `a0`. -/
theorem runs_loop (c : Word) (f₀ : Reg → Word) (n : ℕ) :
    Runs code p instrs.length (AtWith p σ (place listing .l1) (Invariant c f₀ n))
      (AtWith p σ 8 fun f => f a0 = c ∧ KeepsRegs changed f₀ f) := by
  refine Reaches.loop (I := fun n => AtWith p σ (place listing .l1) (Invariant c f₀ n))
    (fun n => Runs.of_atWith fun f ⟨hn, hc, hkf⟩ hz => ?_) n
  refine (runs_round hcode hz).trans (Runs.of_atWith fun g ⟨h0, h1, h2, hkg⟩ hz' => ?_)
  have hsum : g a0 + g a1 * g a2 = c := by rw [h0, h1, h2, product_step, hc]
  by_cases h : g a1 = 0#32
  · rw [h] at hsum
    have hbranch := runs_not_taken (f := g) (σ := σ) (k := 7) hcode (j := place listing .l1) rfl
      (by decide) (by decide) (by rw [hz', h]; rfl)
    exact hbranch.mono (fun _ hs => hs) fun _ hs =>
      .inl ⟨g, hs, by rw [← hsum, BitVec.zero_mul, BitVec.add_zero], hkf.trans hkg⟩
  · have hbranch := runs_taken (f := g) (σ := σ) (k := 7) hcode (j := place listing .l1) rfl
      (by decide) (by decide) (by rw [hz']; exact bne_iff_ne.mpr h)
    refine hbranch.mono (fun _ hs => hs) fun _ hs =>
      .inr ⟨(g a1).toNat, ?_, g, hs, rfl, hsum, hkf.trans hkg⟩
    -- A shift makes a word smaller that is not zero.
    have hpos : (f a1).toNat ≠ 0 := fun h0 => h (by
      rw [h1, BitVec.eq_of_toNat_eq (x := f a1) (y := 0#32) h0]
      rfl)
    rw [h1, BitVec.toNat_ushiftRight, Nat.shiftRight_eq_div_pow]
    omega

/-- The routine computes the operation `mul`. -/
theorem computes_mul :
    Computes code p instrs.length (place listing .muldi3) (· * ·) changed := by
  intro σ f heven
  have hmv : Runs code p instrs.length (At p σ (place listing .muldi3) f)
      (At p σ 1 (Function.update f a2 (f a0))) :=
    runs_opImm hcode rfl (by decide) fun _ => BitVec.add_zero _
  have hli := hmv.trans (runs_opImm hcode (v := 0#32) rfl (by decide) fun h => by rw [h]; rfl)
  have hstart := Runs.to_atWith (A := Invariant (f a0 * f a1) f (f a1).toNat) hli (by
    refine ⟨?_, ?_, ((KeepsRegs.refl _ _).update (by decide) _).update (by decide) _⟩
    · simp (disch := decide) only [Function.update_of_ne]
    · simp (disch := decide) only [Function.update_of_ne, Function.update_self]
      rw [BitVec.zero_add, BitVec.mul_comm])
  refine (hstart.trans (runs_loop hcode (f a0 * f a1) f _)).trans
    (Runs.of_atWith fun g ⟨hg, hk⟩ _ => ?_)
  have hra : g ra = f ra := hk ra (by decide)
  rw [← hra]
  exact Runs.to_atWith (runs_jr hcode rfl (by rw [hra]; exact heven)) ⟨hg, hk⟩

end Correct

end Muldi3

end Am

end RV32Pipeline
