import RV32Pipeline.Host.Memory

/-!
# The debugger's expressions

The functions of `expr.c`: `make_token` splits a string into tokens by the first rule that matches,
`expr` tells the unary operators from the binary ones, and `eval` evaluates a window of the tokens
around its main operator. An error is what the source returns through `success` or `errflag`, or
`fault` where an assertion fails or C does not define what happens: a division by zero, an address
outside `pmem`, a token that does not fit into its 32 bytes.
-/

namespace RV32Pipeline

/-! ## Tokens -/

/-- The token types. `star` is `'*'`, and so on. -/
inductive TokenType where
  | notype | eq | dec | hex | reg | neq | ge | le | gt | lt | and | or | deref | neg
  | plus | minus | star | slash | lparen | rparen
  deriving DecidableEq

/-- The structure `Token`. -/
structure Token where
  type : TokenType
  str : List Char
  deriving DecidableEq

/-- The errors of `make_token` and `eval`. -/
inductive ExprError where
  | tooMany | noMatch | paren | badexpr | mainop | undefOp | unknownElement | fault
  deriving DecidableEq

/-- The forms of the regular expressions in `rules`: a text, or a text followed by at least one
character of a class. -/
inductive Regex where
  | text (s : List Char)
  | run (lead : List Char) (cls : Char → Bool)

/-- The length of the longest match at the start of a string. -/
def Regex.matchLen (e : List Char) : Regex → Option ℕ
  | .text s => if s.isPrefixOf e then some s.length else none
  | .run lead cls =>
    let cs := (e.drop lead.length).takeWhile cls
    if lead.isPrefixOf e ∧ cs ≠ [] then some (lead.length + cs.length) else none

/-- The class `[0-9a-fA-F]`. -/
def isHexDigit (c : Char) : Bool :=
  c.isDigit || ('a' ≤ c && c ≤ 'f') || ('A' ≤ c && c ≤ 'F')

/-- The table `rules`. -/
def rules : List (Regex × TokenType) :=
  [(.run [] (· == ' '), .notype),
    (.text ['=', '='], .eq),
    (.text ['!', '='], .neq),
    (.text ['>', '='], .ge),
    (.text ['<', '='], .le),
    (.text ['>'], .gt),
    (.text ['<'], .lt),
    (.text ['&', '&'], .and),
    (.text ['|', '|'], .or),
    (.run ['0', 'x'] isHexDigit, .hex),
    (.run [] Char.isDigit, .dec),
    (.run ['$'] Char.isAlphanum, .reg),
    (.text ['+'], .plus),
    (.text ['-'], .minus),
    (.text ['*'], .star),
    (.text ['/'], .slash),
    (.text ['('], .lparen),
    (.text [')'], .rparen)]

/-- The first rule that matches at the start of a string, with the length of the match. -/
def firstRule (e : List Char) : Option (ℕ × TokenType) :=
  rules.findSome? fun r => (r.1.matchLen e).map fun len => (len, r.2)

/-- The loop of `make_token`, with the tokens recorded so far. The number of tokens is checked
before spaces are told apart, and a match of 32 characters does not fit into a token with the final
zero. No rule matches an empty string, so the position moves on. -/
def makeToken : List Char → List Token → Except ExprError (List Token)
  | [], tokens => .ok tokens
  | c :: cs, tokens =>
    match firstRule (c :: cs) with
    | none => .error .noMatch
    | some (len, type) =>
      if 128 ≤ tokens.length then .error .tooMany
      else if type = .notype then makeToken (cs.drop (len - 1)) tokens
      else if 32 ≤ len then .error .fault
      else makeToken (cs.drop (len - 1)) (tokens ++ [⟨type, (c :: cs).take len⟩])
termination_by e => e.length

/-- A token that ends an operand: a number, a register, or a right parenthesis. -/
def TokenType.endsOperand : TokenType → Bool
  | .dec | .hex | .reg | .rparen => true
  | _ => false

/-- The loop of `expr` over `'*'` and `'-'`, where `prev` says whether the token before ends an
operand: if not, the operator is unary. -/
def reclassify : Bool → List Token → List Token
  | _, [] => []
  | prev, t :: ts =>
    let type :=
      if t.type = .star ∧ prev = false then .deref
      else if t.type = .minus ∧ prev = false then .neg
      else t.type
    ⟨type, t.str⟩ :: reclassify type.endsOperand ts

/-! ## Windows of tokens -/

/-- The results of `check_parenthesis`. -/
inductive ParenCheck where
  | invalid | matched | dismatch
  deriving DecidableEq

/-- The loop of `check_parenthesis`: the variable `i`, and `dismatch_flag`. -/
def parenLoop : List Token → ℤ → Bool → ℤ × Bool
  | [], i, flag => (i, flag)
  | t :: ts, i, flag =>
    let i := if t.type = .lparen then i + 1 else if t.type = .rparen then i - 1 else i
    parenLoop ts i (flag || (i == 0 && !ts.isEmpty))

/-- The function `check_parenthesis`. -/
def checkParenthesis (w : List Token) : ParenCheck :=
  let r := parenLoop w 0 false
  if r.1 ≠ 0 then .invalid
  else if w.head?.map Token.type ≠ some .lparen ∨ w.getLast?.map Token.type ≠ some .rparen ∨
      r.2 = true then .dismatch
  else .matched

/-- The levels of the operators: a binary operator becomes the main operator if the one before has
no higher level, and a unary one if there is none before. -/
def TokenType.level : TokenType → ℕ
  | .deref | .neg => 1
  | .star | .slash => 2
  | .plus | .minus => 3
  | .eq | .neq | .ge | .le | .gt | .lt => 4
  | .and | .or => 5
  | _ => 0

/-- The level of the variable `mainoptype`. -/
def mainLevel (m : Option (TokenType × ℕ)) : ℕ := (m.map fun m => m.1.level).getD 0

/-- What the loop of `FindMainOP` does at a token outside parentheses that is none. -/
def takeOp (t : TokenType) (i : ℕ) (m : Option (TokenType × ℕ)) : Option (TokenType × ℕ) :=
  match t.level with
  | 0 => m
  | 1 => if m = none then some (t, i) else m
  | _ => if mainLevel m ≤ t.level then some (t, i) else m

/-- The loop of `FindMainOP` at index `i` inside `layer` parentheses, with `mainoptype` and
`mainoppos`. The inner loop would run past a window in which a parenthesis is not closed. -/
def findMainOP : List Token → ℕ → ℕ → Option (TokenType × ℕ) →
    Except ExprError (Option (TokenType × ℕ))
  | [], _, 0, m => .ok m
  | [], _, _ + 1, _ => .error .fault
  | t :: ts, i, 0, m =>
    if t.type = .lparen then findMainOP ts (i + 1) 1 m
    else if t.type = .rparen then .error .fault
    else findMainOP ts (i + 1) 0 (takeOp t.type i m)
  | t :: ts, i, layer + 1, m =>
    if t.type = .lparen then findMainOP ts (i + 1) (layer + 2) m
    else if t.type = .rparen then findMainOP ts (i + 1) layer m
    else findMainOP ts (i + 1) (layer + 1) m

/-! ## Values -/

/-- What an expression can read: the registers, and `pmem`. -/
structure Guest where
  gpr : Fin 32 → Word
  pc : Word
  pmem : ByteMem 32

/-- The table `regs`. -/
def regs : List String :=
  ["$0", "ra", "sp", "gp", "tp", "t0", "t1", "t2",
    "s0", "s1", "a0", "a1", "a2", "a3", "a4", "a5",
    "a6", "a7", "s2", "s3", "s4", "s5", "s6", "s7",
    "s8", "s9", "s10", "s11", "t3", "t4", "t5", "t6"]

/-- The function `reg_str2val`. -/
def regStr2val (g : Guest) (s : List Char) : Word :=
  if s = "pc".toList then g.pc
  else
    match (List.finRange 32).find? fun i : Fin 32 => (regs.getD i "").toList = s with
    | some i => g.gpr i
    | none => 0#32

/-- The value of a digit. -/
def digitVal (c : Char) : ℕ :=
  if c.isDigit then c.toNat - '0'.toNat
  else if 'a' ≤ c then c.toNat - 'a'.toNat + 10
  else c.toNat - 'A'.toNat + 10

/-- The number that digits of a base stand for. -/
def digitsVal (base : ℕ) (ds : List Char) : ℕ := ds.foldl (fun v c => base * v + digitVal c) 0

/-- The C function `strtoul` on the digits of a token, with an `unsigned long` of 64 bits. -/
def strtoul (base : ℕ) (ds : List Char) : ℕ := min (digitsVal base ds) (2 ^ 64 - 1)

/-- The function `pmem_read` for a byte. -/
def pmemByte (g : Guest) (addr : Word) : Except ExprError (BitVec 8) :=
  if Host.memoryOutOfBound addr then .error .fault else .ok (g.pmem addr)

/-- The loop of `paddr_read`, with `i` and `data`: the remaining bytes. -/
def paddrRead (g : Guest) (addr : Word) : ℕ → ℕ → Word → Except ExprError Word
  | 0, _, data => .ok data
  | len + 1, i, data =>
    match pmemByte g (addr + BitVec.ofNat 32 i) with
    | .error e => .error e
    | .ok b => paddrRead g addr len (i + 1) (data ||| b.setWidth 32 <<< (i * 8))

/-- The switch of `eval` over a unary operator. -/
def evalUnary (g : Guest) (t : TokenType) (right : Word) : Except ExprError Word :=
  if t = .neg then .ok (-right) else paddrRead g right 4 0 0#32

/-- The number that stands for a truth value. -/
def ofBool (b : Bool) : Word := if b then 1#32 else 0#32

/-- The switch of `eval` over a binary operator. -/
def evalBinary (t : TokenType) (left right : Word) : Except ExprError Word :=
  match t with
  | .plus => .ok (left + right)
  | .minus => .ok (left - right)
  | .star => .ok (left * right)
  | .slash => if right = 0#32 then .error .fault else .ok (left / right)
  | .eq => .ok (ofBool (left == right))
  | .neq => .ok (ofBool (left != right))
  | .ge => .ok (ofBool (right ≤ left))
  | .le => .ok (ofBool (left ≤ right))
  | .gt => .ok (ofBool (right < left))
  | .lt => .ok (ofBool (left < right))
  | .and => .ok (ofBool (left != 0#32 && right != 0#32))
  | .or => .ok (ofBool (left != 0#32 || right != 0#32))
  | _ => .error .undefOp

/-- The branch of `eval` for a single token. The text of a hexadecimal number starts with `0x`, that
of a register with `$`. -/
def evalToken (g : Guest) (t : Token) : Except ExprError Word :=
  match t.type with
  | .dec => .ok (BitVec.ofNat 32 (strtoul 10 t.str))
  | .hex => .ok (BitVec.ofNat 32 (strtoul 16 (t.str.drop 2)))
  | .reg => .ok (regStr2val g t.str.tail)
  | _ => .error .unknownElement

/-- The function `eval`. The main operator is a token of the window. -/
def eval (g : Guest) : List Token → Except ExprError Word
  | [] => .error .badexpr
  | [t] => evalToken g t
  | t₁ :: t₂ :: ts =>
    match checkParenthesis (t₁ :: t₂ :: ts) with
    | .invalid => .error .paren
    | .matched => eval g (t₂ :: ts).dropLast
    | .dismatch =>
      match findMainOP (t₁ :: t₂ :: ts) 0 0 none with
      | .error e => .error e
      | .ok none => .error .mainop
      | .ok (some (op, pos)) =>
        match eval g ((t₂ :: ts).drop pos) with
        | .error e => .error e
        | .ok right =>
          if op.level = 1 then evalUnary g op right
          else if pos < ts.length + 2 then
            match eval g ((t₁ :: t₂ :: ts).take pos) with
            | .error e => .error e
            | .ok left => evalBinary op left right
          else .error .fault
termination_by w => w.length
decreasing_by
  all_goals simp only [List.length_dropLast, List.length_drop, List.length_take, List.length_cons]
  all_goals omega

/-- The function `expr`: the value if it sets `success`, and the error otherwise. -/
def expr (g : Guest) (e : List Char) : Except ExprError Word :=
  match makeToken e [] with
  | .error err => .error err
  | .ok tokens => eval g (reclassify false tokens)

end RV32Pipeline
