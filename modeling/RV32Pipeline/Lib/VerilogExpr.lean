import Mathlib.Data.BitVec
import Mathlib.Tactic.Common

/-!
# Arithmetic expressions of Verilog

The size and the sign of an expression are not those of its values but are found from its operands:
an operator is signed only if all operands whose size depends on the context are, in a conditional
that is both arms, and this sign and the size of the context are then handed down to the operands,
which are extended by them before anything is computed. Values have two states, so the operations
that give `x` in Verilog, the division by zero and what depends on it, are those of `BitVec` here.
-/

namespace VerilogExpr

/-- An expression over operands that have their values. -/
inductive Expr where
  /-- A net, a variable, or a literal of `n` bits. -/
  | operand (n : ℕ) (isSigned : Bool) (value : BitVec n)
  | signed (e : Expr)
  | unsigned (e : Expr)
  | neg (e : Expr)
  | sub (a b : Expr)
  | mul (a b : Expr)
  | div (a b : Expr)
  | mod (a b : Expr)
  | eq (a b : Expr)
  | cond (c a b : Expr)

namespace Expr

/-- The size of an expression. -/
def width : Expr → ℕ
  | operand n _ _ => n
  | signed e => e.width
  | unsigned e => e.width
  | neg e => e.width
  | sub a b => max a.width b.width
  | mul a b => max a.width b.width
  | div a b => max a.width b.width
  | mod a b => max a.width b.width
  | eq _ _ => 1
  | cond _ a b => max a.width b.width

/-- The sign of an expression: an expression with an unsigned operand is unsigned. -/
def isSigned : Expr → Bool
  | operand _ s _ => s
  | signed _ => true
  | unsigned _ => false
  | neg e => e.isSigned
  | sub a b => a.isSigned && b.isSigned
  | mul a b => a.isSigned && b.isSigned
  | div a b => a.isSigned && b.isSigned
  | mod a b => a.isSigned && b.isSigned
  | eq _ _ => false
  | cond _ a b => a.isSigned && b.isSigned

/-- A value brought to the size of its context, by the sign of the context. -/
def extend {n : ℕ} (v : BitVec n) (w : ℕ) (s : Bool) : BitVec w :=
  if s then v.signExtend w else v.setWidth w

/-- The value of an expression in a context of size `w` and sign `s`. The operand of `$signed` and
`$unsigned`, those of a comparison, and a condition have a context of their own. -/
def eval : Expr → (w : ℕ) → (s : Bool) → BitVec w
  | operand _ _ v, w, s => extend v w s
  | signed e, w, s => extend (e.eval e.width e.isSigned) w s
  | unsigned e, w, s => extend (e.eval e.width e.isSigned) w s
  | neg e, w, s => -e.eval w s
  | sub a b, w, s => a.eval w s - b.eval w s
  | mul a b, w, s => a.eval w s * b.eval w s
  | div a b, w, s => if s then (a.eval w s).sdiv (b.eval w s) else a.eval w s / b.eval w s
  | mod a b, w, s => if s then (a.eval w s).srem (b.eval w s) else a.eval w s % b.eval w s
  | eq a b, w, s =>
    let n := max a.width b.width
    let t := a.isSigned && b.isSigned
    extend (BitVec.ofBool (a.eval n t == b.eval n t)) w s
  | cond c a b, w, s =>
    if c.eval c.width c.isSigned ≠ 0#c.width then a.eval w s else b.eval w s

/-- The value that an assignment gives a target of `n` bits: the target takes part in the size, but
not in the sign. -/
def assign (n : ℕ) (e : Expr) : BitVec n :=
  (e.eval (max n e.width) e.isSigned).setWidth n

/-! ## Operands -/

/-- A net of 32 bits, unsigned if it is not declared otherwise. -/
def wire (v : BitVec 32) : Expr := operand 32 false v

/-- An integer literal without a size. -/
def lit (v : BitVec 32) : Expr := operand 32 true v

variable (v : BitVec 32) (s : Bool)

@[simp] theorem eval_wire : (wire v).eval 32 s = v := by
  cases s <;> simp [wire, eval, extend, BitVec.signExtend_eq, BitVec.setWidth_eq]

@[simp] theorem eval_lit : (lit v).eval 32 s = v := eval_wire v s

@[simp] theorem eval_signed_wire : (signed (wire v)).eval 32 s = v := by
  have h : (wire v).eval (wire v).width (wire v).isSigned = v := eval_wire v false
  rw [eval, h]
  exact eval_wire v s

@[simp] theorem eval_unsigned_wire : (unsigned (wire v)).eval 32 s = v := eval_signed_wire v s

/-- In a wider signed context the operand of `$signed` is extended by its sign. -/
theorem eval_signed_wire_signed (w : ℕ) : (signed (wire v)).eval w true = v.signExtend w := by
  have h : (wire v).eval (wire v).width (wire v).isSigned = v := eval_wire v false
  rw [eval, h]
  rfl

/-- In a wider unsigned context it is not, nor is that of `$unsigned`. -/
theorem eval_signed_wire_unsigned (w : ℕ) : (signed (wire v)).eval w false = v.setWidth w := by
  have h : (wire v).eval (wire v).width (wire v).isSigned = v := eval_wire v false
  rw [eval, h]
  rfl

theorem eval_unsigned_wire_unsigned (w : ℕ) : (unsigned (wire v)).eval w false = v.setWidth w :=
  eval_signed_wire_unsigned v w

/-- A conditional on a comparison of a net with 0. -/
theorem eval_cond_eq_zero (a b : Expr) (w : ℕ) :
    (cond (eq (wire v) (lit 0#32)) a b).eval w s = if v = 0#32 then a.eval w s else b.eval w s := by
  have hc : (eq (wire v) (lit 0#32)).eval (eq (wire v) (lit 0#32)).width
      (eq (wire v) (lit 0#32)).isSigned = BitVec.ofBool (v == 0#32) := by
    have hw : (wire v).eval 32 false = v := eval_wire v false
    have hl : (lit 0#32).eval 32 false = 0#32 := eval_lit 0#32 false
    change extend (BitVec.ofBool ((wire v).eval 32 false == (lit 0#32).eval 32 false)) 1 false = _
    rw [hw, hl]
    exact BitVec.setWidth_eq _
  rw [eval, hc]
  change (if BitVec.ofBool (v == 0#32) ≠ 0#1 then _ else _) = _
  by_cases hv : v = 0#32
  · rw [if_pos hv, beq_iff_eq.mpr hv, if_pos (by decide)]
  · rw [if_neg hv, beq_eq_false_iff_ne.mpr hv, if_neg (by decide)]

end Expr

end VerilogExpr
