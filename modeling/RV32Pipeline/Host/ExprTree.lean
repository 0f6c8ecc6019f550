import RV32Pipeline.Host.ExprWindow

/-!
# Printed expressions

Expression trees with their values, and the relation `Prints` between a tree and the tokens that it
may be printed as, with parentheses at least where the levels of the operators need them.
-/

namespace RV32Pipeline

/-- The unary operators. -/
inductive UnOp where
  | neg | deref
  deriving DecidableEq

/-- The binary operators. -/
inductive BinOp where
  | mul | div | add | sub | eq | ne | ge | le | gt | lt | and | or
  deriving DecidableEq

/-- An expression tree. A register is the number of a general register, or `none` for the pc. -/
inductive Tree where
  | lit (n : Word)
  | reg (r : Option (Fin 32))
  | unary (op : UnOp) (e : Tree)
  | binary (op : BinOp) (l r : Tree)

/-! ## Values -/

/-- The value of a register: `x0` is zero. -/
def Guest.reg (g : Guest) : Option (Fin 32) → Word
  | none => g.pc
  | some i => if i = 0 then 0#32 else g.gpr i

/-- The word at an address is inside `pmem`. -/
def wordInPmem (addr : Word) : Bool :=
  (List.range 4).all fun k => !Host.memoryOutOfBound (addr + BitVec.ofNat 32 k)

/-- The value of a unary operator: `*` reads a word of `pmem`, the lowest byte first. -/
def UnOp.value (g : Guest) (op : UnOp) (v : Word) : Option Word :=
  match op with
  | .neg => some (-v)
  | .deref => if wordInPmem v then some (g.pmem.load v) else none

/-- The value of a binary operator, in unsigned 32-bit arithmetic. -/
def BinOp.value (op : BinOp) (x y : Word) : Option Word :=
  match op with
  | .mul => some (x * y)
  | .div => if y = 0#32 then none else some (x / y)
  | .add => some (x + y)
  | .sub => some (x - y)
  | .eq => some (ofBool (x = y))
  | .ne => some (ofBool (x ≠ y))
  | .ge => some (ofBool (y ≤ x))
  | .le => some (ofBool (x ≤ y))
  | .gt => some (ofBool (y < x))
  | .lt => some (ofBool (x < y))
  | .and => some (ofBool (x ≠ 0#32 ∧ y ≠ 0#32))
  | .or => some (ofBool (x ≠ 0#32 ∨ y ≠ 0#32))

/-- The value of a tree, if it has no zero divisor and reads only words inside `pmem`. -/
def Tree.value (g : Guest) : Tree → Option Word
  | .lit n => some n
  | .reg r => some (g.reg r)
  | .unary op e => (e.value g).bind (op.value g)
  | .binary op l r => (l.value g).bind fun x => (r.value g).bind (op.value x)

/-! ## Printing -/

/-- The text of a register. -/
def regText : Option (Fin 32) → List Char
  | none => "$pc".toList
  | some i => if i = 0 then "$0".toList else '$' :: (regs.getD i "").toList

/-- The token of a register. -/
def regToken (r : Option (Fin 32)) : Token := ⟨.reg, regText r⟩

/-- The tokens that stand for a literal: any decimal or hexadecimal digits with its value. -/
inductive Literal (n : Word) : Token → Prop
  | dec (ds : List Char) : ds ≠ [] → (∀ c ∈ ds, c.isDigit = true) → digitsVal 10 ds = n.toNat →
      Literal n ⟨.dec, ds⟩
  | hex (ds : List Char) : ds ≠ [] → (∀ c ∈ ds, isHexDigit c = true) →
      digitsVal 16 ds = n.toNat → Literal n ⟨.hex, '0' :: 'x' :: ds⟩

/-- The token of a unary operator. -/
def UnOp.token : UnOp → Token
  | .neg => ⟨.neg, ['-']⟩
  | .deref => ⟨.deref, ['*']⟩

/-- The token of a binary operator. -/
def BinOp.token : BinOp → Token
  | .mul => ⟨.star, ['*']⟩
  | .div => ⟨.slash, ['/']⟩
  | .add => ⟨.plus, ['+']⟩
  | .sub => ⟨.minus, ['-']⟩
  | .eq => ⟨.eq, ['=', '=']⟩
  | .ne => ⟨.neq, ['!', '=']⟩
  | .ge => ⟨.ge, ['>', '=']⟩
  | .le => ⟨.le, ['<', '=']⟩
  | .gt => ⟨.gt, ['>']⟩
  | .lt => ⟨.lt, ['<']⟩
  | .and => ⟨.and, ['&', '&']⟩
  | .or => ⟨.or, ['|', '|']⟩

/-- The precedence level of a binary operator: `*` and `/`, then `+` and `-`, then the comparisons,
then `&&` and `||`. -/
def BinOp.level : BinOp → ℕ
  | .mul | .div => 2
  | .add | .sub => 3
  | .eq | .ne | .ge | .le | .gt | .lt => 4
  | .and | .or => 5

/-- The left parenthesis, as `make_token` stores it. -/
def lparen : Token := ⟨.lparen, ['(']⟩

/-- The right parenthesis. -/
def rparen : Token := ⟨.rparen, [')']⟩

/-- A tree is printed as the tokens `w` where an operand of level `k` or less is expected. A unary
operator has level 1, and a binary one associates to the left. Parentheses may stand anywhere. -/
inductive Prints : Tree → ℕ → List Token → Prop
  | lit {n : Word} {t : Token} (k : ℕ) : Literal n t → Prints (.lit n) k [t]
  | reg (r : Option (Fin 32)) (k : ℕ) : Prints (.reg r) k [regToken r]
  | paren {e : Tree} {w : List Token} (k : ℕ) : Prints e 5 w →
      Prints e k (lparen :: w ++ [rparen])
  | unary {e : Tree} {w : List Token} {k : ℕ} (op : UnOp) : 1 ≤ k → Prints e 1 w →
      Prints (.unary op e) k (op.token :: w)
  | binary {l r : Tree} {wl wr : List Token} {k : ℕ} (op : BinOp) : op.level ≤ k →
      Prints l op.level wl → Prints r (op.level - 1) wr →
      Prints (.binary op l r) k (wl ++ op.token :: wr)

/-- The tokens are written one after another, with any number of spaces before each and at the
end. -/
inductive Spaced : List Token → List Char → Prop
  | nil (n : ℕ) : Spaced [] (List.replicate n ' ')
  | cons {t : Token} {w : List Token} {s : List Char} (n : ℕ) : Spaced w s →
      Spaced (t :: w) (List.replicate n ' ' ++ t.str ++ s)

/-! ## Types of printed tokens -/

theorem Literal.type {n : Word} {t : Token} (h : Literal n t) :
    t.type = .dec ∨ t.type = .hex := by
  rcases h with ⟨ds, -, -, -⟩ | ⟨ds, -, -, -⟩
  · exact Or.inl rfl
  · exact Or.inr rfl

theorem UnOp.token_level (op : UnOp) : op.token.type.level = 1 := by
  cases op <;> rfl

theorem BinOp.token_level (op : BinOp) : op.token.type.level = op.level := by
  cases op <;> rfl

theorem BinOp.is_binary (op : BinOp) : Token.is .binary op.token := by
  cases op <;> rfl

end RV32Pipeline
