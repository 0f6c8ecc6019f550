import RV32Pipeline.Host.ExprTree

/-!
# Evaluation of grouped tokens

`eval` on a window that a tree groups by the levels of the operators: it finds the operator at the
root, and evaluates the operands. So it returns the value of the tree, and faults if there is none.
-/

namespace RV32Pipeline

open Precedence

/-! ## Values of trees -/

/-- The unary operator of a token. -/
def TokenType.unOp : TokenType → Option UnOp
  | .neg => some .neg
  | .deref => some .deref
  | _ => none

/-- The binary operator of a token. -/
def TokenType.binOp : TokenType → Option BinOp
  | .star => some .mul
  | .slash => some .div
  | .plus => some .add
  | .minus => some .sub
  | .eq => some .eq
  | .neq => some .ne
  | .ge => some .ge
  | .le => some .le
  | .gt => some .gt
  | .lt => some .lt
  | .and => some .and
  | .or => some .or
  | _ => none

/-- The value of a tree of tokens, if it has no zero divisor and reads only words inside `pmem`. -/
def treeValue (g : Guest) : OpTree Token → Option Word
  | .atom t => (evalToken g t).toOption
  | .unary t e => (treeValue g e).bind fun x => t.type.unOp.bind fun op => op.value g x
  | .binary t l r =>
    (treeValue g l).bind fun x => (treeValue g r).bind fun y =>
      t.type.binOp.bind fun op => op.value x y

/-- The result of an evaluation with this value: without one, it faults. -/
def resultOf : Option Word → Except ExprError Word
  | some v => .ok v
  | none => .error .fault

theorem UnOp.unOp_token (op : UnOp) : op.token.type.unOp = some op := by
  cases op <;> rfl

theorem BinOp.binOp_token (op : BinOp) : op.token.type.binOp = some op := by
  cases op <;> rfl

/-! ## Operands and operators -/

variable {g : Guest}

/-- Four bytes in their places are a word. -/
theorem or_shiftLeft_bytes (b₀ b₁ b₂ b₃ : BitVec 8) :
    0#32 ||| b₀.setWidth 32 <<< (0 * 8) ||| b₁.setWidth 32 <<< (1 * 8) |||
      b₂.setWidth 32 <<< (2 * 8) ||| b₃.setWidth 32 <<< (3 * 8) = b₃ ++ b₂ ++ b₁ ++ b₀ := by
  refine BitVec.eq_of_getLsbD_eq fun j hj => ?_
  simp only [BitVec.getLsbD_or, BitVec.getLsbD_shiftLeft, BitVec.getLsbD_setWidth,
    BitVec.getLsbD_append, BitVec.getLsbD_zero]
  have hout : ∀ (b : BitVec 8) (k : ℕ), 8 ≤ k → b.getLsbD k = false := fun b k hk =>
    BitVec.getLsbD_of_ge b k hk
  rcases (by omega : j < 8 ∨ (8 ≤ j ∧ j < 16) ∨ (16 ≤ j ∧ j < 24) ∨ (24 ≤ j ∧ j < 32)) with
    h | ⟨h, h'⟩ | ⟨h, h'⟩ | ⟨h, h'⟩
  · simp [h, hj, show j < 16 by omega, show j < 24 by omega]
  · simp [hj, h', hout b₀ j h, show ¬ j < 8 by omega, show j - 8 < 8 by omega,
      show j < 24 by omega, show j - 8 < 32 by omega]
  · simp [hj, h', hout b₀ j (by omega), hout b₁ (j - 8) (by omega), show ¬ j < 8 by omega,
      show ¬ j < 16 by omega, show j - 16 < 32 by omega, show ¬ j - 8 < 8 by omega,
      show j - 8 < 32 by omega, show j - 8 - 8 = j - 16 by omega, show j - 16 < 8 by omega]
  · simp [hj, hout b₀ j (by omega), hout b₁ (j - 8) (by omega), hout b₂ (j - 16) (by omega),
      show ¬ j < 8 by omega, show ¬ j < 16 by omega, show ¬ j < 24 by omega,
      show ¬ j - 8 < 8 by omega, show ¬ j - 16 < 8 by omega, show j - 8 < 32 by omega,
      show j - 16 < 32 by omega, show j - 24 < 32 by omega, show j - 16 - 8 = j - 24 by omega,
      show j - 8 - 8 = j - 16 by omega]

/-- `paddr_read` puts the four bytes together. -/
theorem paddrRead_word {addr : Word} (h : wordInPmem addr = true) :
    paddrRead g addr 4 0 0#32 = .ok (g.pmem.load addr) := by
  have hb : ∀ k < 4, pmemByte g (addr + BitVec.ofNat 32 k) =
      .ok (g.pmem (addr + BitVec.ofNat 32 k)) := by
    intro k hk
    have hin := List.all_eq_true.mp h k (List.mem_range.mpr hk)
    rw [pmemByte, if_neg (by simpa using hin)]
  simp only [paddrRead, hb 0 (by decide), hb 1 (by decide), hb 2 (by decide), hb 3 (by decide),
    Nat.reduceAdd]
  rw [ByteMem.load, show addr + BitVec.ofNat 32 0 = addr from BitVec.add_zero addr]
  exact congrArg _ (or_shiftLeft_bytes _ _ _ _)

/-- `paddr_read` asserts that every byte is inside `pmem`. -/
theorem paddrRead_fault {addr : Word} (len i : ℕ) (data : Word)
    (h : ∃ k < len, Host.memoryOutOfBound (addr + BitVec.ofNat 32 (i + k)) = true) :
    paddrRead g addr len i data = .error .fault := by
  induction len generalizing i data with
  | zero =>
    obtain ⟨k, hk, -⟩ := h
    exact absurd hk (Nat.not_lt_zero k)
  | succ len ih =>
    rw [paddrRead, pmemByte]
    by_cases hb : Host.memoryOutOfBound (addr + BitVec.ofNat 32 i) = true
    · simp only [hb, if_true]
    · simp only [hb, if_false, Bool.false_eq_true]
      -- The byte outside is a later one.
      refine ih _ _ ?_
      obtain ⟨k, hk, hout⟩ := h
      rcases k with - | k
      · exact absurd hout hb
      · exact ⟨k, by omega, by rwa [Nat.add_right_comm, Nat.add_assoc]⟩

/-- A unary operator of `eval`. -/
theorem evalUnary_eq {t : TokenType} {op : UnOp} (h : t.unOp = some op) (x : Word) :
    evalUnary g t x = resultOf (op.value g x) := by
  cases t <;> cases h
  · -- The operator `*`.
    rw [UnOp.value]
    by_cases hin : wordInPmem x = true
    · rw [if_pos hin]
      exact paddrRead_word hin
    · rw [if_neg hin]
      refine paddrRead_fault 4 0 0#32 ?_
      unfold wordInPmem at hin
      simpa using hin
  · rfl

/-- A binary operator of `eval`. -/
theorem evalBinary_eq {t : TokenType} {op : BinOp} (h : t.binOp = some op) (x y : Word) :
    evalBinary t x y = resultOf (op.value x y) := by
  cases t <;> cases h
  case slash =>
    rw [BinOp.value, evalBinary]
    split_ifs <;> rfl
  all_goals simp [BinOp.value, evalBinary, resultOf, bne, BEq.beq]

/-- An atom has a value. -/
theorem evalToken_atom {t : Token} (h : Token.is .atom t) :
    ∃ v, evalToken g t = .ok v ∧ (evalToken g t).toOption = some v := by
  obtain ⟨type, str⟩ := t
  cases type <;> cases h <;> exact ⟨_, rfl, rfl⟩

theorem exists_unOp {t : Token} (h : Token.is .unary t) : ∃ op, t.type.unOp = some op := by
  obtain ⟨type, str⟩ := t
  cases type <;> cases h <;> exact ⟨_, rfl⟩

theorem exists_binOp {t : Token} (h : Token.is .binary t) : ∃ op, t.type.binOp = some op := by
  obtain ⟨type, str⟩ := t
  cases type <;> cases h <;> exact ⟨_, rfl⟩

/-! ## Evaluation -/

/-- `eval` on a window that a tree groups. -/
theorem groups_eval {e : OpTree Token} {k : ℕ} {w : List Token}
    (h : Groups Token.is Token.level 5 e k w) : eval g w = resultOf (treeValue g e) := by
  have hlevel : ∀ t : Token, Token.is .binary t → 2 ≤ Token.level t := fun t ht =>
    (t.level_of_binary ht).1
  induction h with
  | atom k ha =>
    obtain ⟨v, hv, hopt⟩ := evalToken_atom (g := g) ha
    rw [eval, treeValue, hopt, hv]
    rfl
  | paren k ho hc hw ih =>
    rw [eval_paren ho hc (hw.outer Token.is_det).nested]
    exact ih
  | @unary e t w k ht hk hw ih =>
    obtain ⟨op, hop⟩ := exists_unOp ht
    have hlen : 2 ≤ ([] ++ t :: w).length := Nat.succ_le_succ (List.length_pos_of_ne_nil hw.ne_nil)
    rw [← List.nil_append (t :: w), eval_main hlen (hw.main_unary Token.is_det hlevel ht), ih,
      treeValue, hop]
    rcases treeValue g e with - | x
    · rfl
    · exact (if_pos (Token.is_unary.mp ht)).trans (evalUnary_eq hop x)
  | @binary l r t wl wr k ht hk hl hr ihl ihr =>
    obtain ⟨op, hop⟩ := exists_binOp ht
    have hpos := List.length_pos_of_ne_nil hl.ne_nil
    have hlen : 2 ≤ (wl ++ t :: wr).length := by
      rw [List.length_append, List.length_cons]
      omega
    have hbin : ¬ t.type.level = 1 := by
      have := Token.is_binary.mp ht
      omega
    rw [eval_main hlen (hl.main_binary Token.is_det hlevel ht hr), ihl, ihr, treeValue, hop]
    -- The right operand comes first, and without a value there is none of the window.
    rcases treeValue g r with - | y
    · rcases treeValue g l with - | x <;> rfl
    · rcases treeValue g l with - | x
      · exact if_neg hbin
      · exact (if_neg hbin).trans (evalBinary_eq hop x y)

end RV32Pipeline
