import RV32Pipeline.Host.ExprGrammar

/-!
# Printed expressions are evaluated to their values

`eval` on the tokens of a printed tree returns its value, since they are grouped by its operators.
`make_token` finds these tokens in a string with any spaces: a printed operand is followed by a
binary operator, a right parenthesis, or the end, and everything else by the start of an operand, so
no token is extended by the next one. The same alternation tells the unary operators from the binary
ones.
-/

namespace RV32Pipeline

open Precedence

/-! ## Evaluation -/

variable {g : Guest}

theorem strtoul_of_lt {base : ℕ} {ds : List Char} {n : Word} (h : digitsVal base ds = n.toNat) :
    BitVec.ofNat 32 (strtoul base ds) = n := by
  rw [strtoul, h, min_eq_left (by have := n.isLt; omega), BitVec.ofNat_toNat, BitVec.setWidth_eq]

theorem Literal.evalToken {n : Word} {t : Token} (h : Literal n t) : evalToken g t = .ok n := by
  rcases h with ⟨ds, -, -, hv⟩ | ⟨ds, -, -, hv⟩
  · exact congrArg _ (strtoul_of_lt hv)
  · exact congrArg _ (strtoul_of_lt hv)

/-- The names in the table are different, and none is `pc`. -/
theorem regs_find (i : Fin 32) (hi : i ≠ 0) :
    (List.finRange 32).find? (fun j : Fin 32 => (regs.getD j "").toList = (regs.getD i "").toList) =
        some i ∧ (regs.getD i "").toList ≠ "pc".toList := by
  revert i
  decide

/-- The register `x0` is not found under its name, and read as zero. -/
theorem regStr2val_regText (r : Option (Fin 32)) : regStr2val g (regText r).tail = g.reg r := by
  rcases r with - | i
  · exact if_pos rfl
  · by_cases hi : i = 0
    · subst hi
      have hnone : (List.finRange 32).find?
          (fun j : Fin 32 => (regs.getD j "").toList = ['0']) = none := by decide
      have htail : (regText (some 0)).tail = ['0'] := by decide
      rw [htail, regStr2val, if_neg (by decide), hnone]
      rfl
    · obtain ⟨hfind, hpc⟩ := regs_find i hi
      rw [regText, if_neg hi, List.tail_cons, regStr2val, if_neg hpc, hfind]
      exact (if_neg hi).symm

/-- A printed tree is grouped by the levels of its operators, with the same value. -/
theorem Prints.groups {e : Tree} {k : ℕ} {w : List Token} (h : Prints e k w) :
    ∃ t, Groups Token.is Token.level 5 t k w ∧ treeValue g t = e.value g := by
  induction h with
  | @lit n t k ht =>
    refine ⟨.atom t, .atom k ?_, ?_⟩
    · rcases ht with ⟨_, _, _, _⟩ | ⟨_, _, _, _⟩ <;> rfl
    · rw [treeValue, ht.evalToken]
      rfl
  | reg r k => exact ⟨.atom (regToken r), .atom k rfl, congrArg some (regStr2val_regText r)⟩
  | paren k _ ih =>
    obtain ⟨t, ht, hv⟩ := ih
    exact ⟨t, .paren k rfl rfl ht, hv⟩
  | unary op hk _ ih =>
    obtain ⟨t, ht, hv⟩ := ih
    refine ⟨.unary op.token t, .unary (Token.is_unary.mpr op.token_level) hk ht, ?_⟩
    rw [treeValue, hv, op.unOp_token]
    rfl
  | binary op hk _ _ ihl ihr =>
    obtain ⟨tl, htl, hvl⟩ := ihl
    obtain ⟨tr, htr, hvr⟩ := ihr
    have hlevel : Token.level op.token = op.level := op.token_level
    refine ⟨.binary op.token tl tr, .binary op.is_binary ?_ ?_ ?_, ?_⟩
    · rw [hlevel]
      exact hk
    · rw [hlevel]
      exact htl
    · rw [hlevel]
      exact htr
    · rw [treeValue, hvl, hvr, op.binOp_token]
      rfl

/-- `eval` returns the value of a printed tree. -/
theorem Prints.eval {e : Tree} {k : ℕ} {w : List Token} (h : Prints e k w) {v : Word}
    (hv : e.value g = some v) : eval g w = .ok v := by
  obtain ⟨t, ht, htv⟩ := h.groups (g := g)
  rw [groups_eval ht, htv, hv]
  rfl

/-! ## Alternation -/

/-- A token that starts an operand. -/
def TokenType.startsOperand : TokenType → Bool
  | .dec | .hex | .reg | .lparen | .neg | .deref => true
  | _ => false

/-- Operands and what stands between them alternate, where `prev` says whether the token before ends
an operand, and the last token does. -/
def Alternates : Bool → List Token → Prop
  | prev, [] => prev = true
  | prev, t :: ts => t.type.startsOperand = !prev ∧ Alternates t.type.endsOperand ts

/-- A printed tree is an operand of what follows. -/
theorem Prints.alternates {e : Tree} {k : ℕ} {w : List Token} (h : Prints e k w)
    {rest : List Token} (hrest : Alternates true rest) : Alternates false (w ++ rest) := by
  induction h generalizing rest with
  | lit k ht =>
    rcases ht.type with h | h
    · exact ⟨by rw [h]; rfl, by rw [h]; exact hrest⟩
    · exact ⟨by rw [h]; rfl, by rw [h]; exact hrest⟩
  | reg r k => exact ⟨rfl, hrest⟩
  | paren k _ ih =>
    rw [List.cons_append, List.cons_append, List.append_assoc]
    exact ⟨rfl, ih ⟨rfl, hrest⟩⟩
  | unary op _ _ ih =>
    cases op
    · exact ⟨rfl, ih hrest⟩
    · exact ⟨rfl, ih hrest⟩
  | binary op _ _ _ ihl ihr =>
    rw [List.append_assoc]
    refine ihl ?_
    have hop : op.token.type.startsOperand = false ∧ op.token.type.endsOperand = false := by
      cases op <;> exact ⟨rfl, rfl⟩
    exact ⟨hop.1, by rw [hop.2]; exact ihr hrest⟩

/-- The type that `make_token` gives to a token. -/
def TokenType.raw : TokenType → TokenType
  | .neg => .minus
  | .deref => .star
  | t => t

/-- The token as `make_token` records it. -/
def Token.raw (t : Token) : Token := ⟨t.type.raw, t.str⟩

/-- `expr` tells the unary operators from the binary ones. -/
theorem reclassify_raw {w : List Token} {prev : Bool} (h : Alternates prev w) :
    reclassify prev (w.map Token.raw) = w := by
  induction w generalizing prev with
  | nil => rfl
  | cons t ts ih =>
    obtain ⟨hstart, hts⟩ := h
    -- The type is the printed one: `prev` is down before a unary operator, and up before a binary
    -- one.
    have htype : (if t.raw.type = .star ∧ prev = false then TokenType.deref
        else if t.raw.type = .minus ∧ prev = false then .neg else t.raw.type) = t.type := by
      obtain ⟨type, str⟩ := t
      cases prev <;> cases type <;> first | rfl | exact Bool.noConfusion hstart
    rw [List.map_cons, reclassify, htype, ih hts]
    rfl

/-! ## Tokens in a string -/

/-- The tokens of printed trees, with their texts. -/
inductive Lexeme : Token → Prop
  | dec (c : Char) (ds : List Char) : (∀ d ∈ c :: ds, d.isDigit = true) → Lexeme ⟨.dec, c :: ds⟩
  | hex (c : Char) (ds : List Char) : (∀ d ∈ c :: ds, isHexDigit d = true) →
      Lexeme ⟨.hex, '0' :: 'x' :: c :: ds⟩
  | reg (c : Char) (cs : List Char) : (∀ d ∈ c :: cs, d.isAlphanum = true) →
      Lexeme ⟨.reg, '$' :: c :: cs⟩
  | unary (op : UnOp) : Lexeme op.token
  | binary (op : BinOp) : Lexeme op.token
  | lparen : Lexeme lparen
  | rparen : Lexeme rparen

/-- The text of a register. -/
theorem regText_lexeme (r : Option (Fin 32)) :
    ∃ c cs, regText r = '$' :: c :: cs ∧ ∀ d ∈ c :: cs, d.isAlphanum = true := by
  have hall : ∀ r : Option (Fin 32), (regText r).head? = some '$' ∧ (regText r).tail ≠ [] ∧
      (regText r).tail.all Char.isAlphanum = true := by
    rintro (- | i)
    · decide
    · revert i
      decide
  obtain ⟨hhead, hne, halnum⟩ := hall r
  rcases hr : regText r with - | ⟨d, - | ⟨c, cs⟩⟩
  · rw [hr] at hhead
    exact absurd hhead (by decide)
  · rw [hr] at hne
    exact absurd rfl hne
  · rw [hr] at hhead halnum
    rw [Option.some.inj hhead]
    exact ⟨c, cs, rfl, List.all_eq_true.mp halnum⟩

theorem Prints.lexeme {e : Tree} {k : ℕ} {w : List Token} (h : Prints e k w) :
    ∀ t ∈ w, Lexeme t := by
  induction h with
  | @lit n t k ht =>
    intro t' ht'
    rw [List.mem_singleton.mp ht']
    -- A decimal or a hexadecimal number has a digit at least.
    rcases ht with ⟨ds, hne, hds, -⟩ | ⟨ds, hne, hds, -⟩
    · rcases ds with - | ⟨c, ds⟩
      · exact absurd rfl hne
      · exact Lexeme.dec c ds hds
    · rcases ds with - | ⟨c, ds⟩
      · exact absurd rfl hne
      · exact Lexeme.hex c ds hds
  | reg r k =>
    intro t ht
    obtain ⟨c, cs, hr, hcs⟩ := regText_lexeme r
    rw [List.mem_singleton.mp ht, regToken, hr]
    exact Lexeme.reg c cs hcs
  | paren k _ ih =>
    intro t ht
    rw [List.cons_append, List.mem_cons, List.mem_append, List.mem_singleton] at ht
    rcases ht with rfl | ht | rfl
    · exact Lexeme.lparen
    · exact ih t ht
    · exact Lexeme.rparen
  | unary op _ _ ih =>
    intro t ht
    rcases List.mem_cons.mp ht with rfl | ht
    · exact Lexeme.unary op
    · exact ih t ht
  | binary op _ _ _ ihl ihr =>
    intro t ht
    rw [List.mem_append, List.mem_cons] at ht
    rcases ht with ht | rfl | ht
    · exact ihl t ht
    · exact Lexeme.binary op
    · exact ihr t ht

/-- What follows does not extend a token: no letter or digit follows an operand, and no `=` another
token. -/
def Separated (t : Token) (s : List Char) : Prop :=
  ∀ c, s.head? = some c → if t.type.endsOperand then c.isAlphanum = false else c ≠ '='

theorem takeWhile_append_of_stop {p : Char → Bool} {ds s : List Char} (h : ∀ d ∈ ds, p d = true)
    (hs : ∀ c, s.head? = some c → p c = false) : (ds ++ s).takeWhile p = ds := by
  rw [List.takeWhile_append_of_pos h]
  rcases s with - | ⟨c, s⟩
  · rw [List.takeWhile_nil, List.append_nil]
  · rw [List.takeWhile_cons_of_neg (by rw [hs c rfl]; decide), List.append_nil]

/-- A rule for a text that starts with another character. -/
theorem matchLen_text_of_ne {c d : Char} (h : c ≠ d) (e s : List Char) :
    (Regex.text (d :: s)).matchLen (c :: e) = none := by
  rw [Regex.matchLen, if_neg]
  rw [List.isPrefixOf_cons_cons, beq_false_of_ne h.symm]
  simp

/-- A rule for characters of a class, where the first one is not in it. -/
theorem matchLen_run_of_not {cls : Char → Bool} {c : Char} (h : cls c = false) (e : List Char) :
    (Regex.run [] cls).matchLen (c :: e) = none := by
  unfold Regex.matchLen
  simp [h]

/-- A rule for characters of a class matches all of them. -/
theorem matchLen_run (lead : List Char) {cls : Char → Bool} {c : Char} {cs s : List Char}
    (hcs : ∀ d ∈ c :: cs, cls d = true) (hs : ∀ d, s.head? = some d → cls d = false) :
    (Regex.run lead cls).matchLen (lead ++ (c :: cs ++ s)) =
      some (lead.length + (c :: cs).length) := by
  have htake : ((lead ++ (c :: cs ++ s)).drop lead.length).takeWhile cls = c :: cs := by
    rw [List.drop_left, takeWhile_append_of_stop hcs hs]
  have hlead : lead.isPrefixOf (lead ++ (c :: cs ++ s)) = true :=
    List.isPrefixOf_iff_prefix.mpr (List.prefix_append _ _)
  unfold Regex.matchLen
  simp only [htake, hlead]
  rfl

/-- The rules before that for hexadecimal numbers begin with other characters. -/
theorem firstRule_skip {c : Char} (h : ∀ d ∈ [' ', '=', '!', '>', '<', '&', '|'], c ≠ d)
    (e : List Char) :
    firstRule (c :: e) = (rules.drop 9).findSome? fun r =>
      (r.1.matchLen (c :: e)).map fun len => (len, r.2) := by
  have hspace : (Regex.run [] (· == ' ')).matchLen (c :: e) = none :=
    @matchLen_run_of_not (· == ' ') c (beq_false_of_ne (h ' ' (by decide))) e
  rw [firstRule, rules]
  simp only [List.findSome?_cons, hspace, matchLen_text_of_ne (h '=' (by decide)),
    matchLen_text_of_ne (h '!' (by decide)), matchLen_text_of_ne (h '>' (by decide)),
    matchLen_text_of_ne (h '<' (by decide)), matchLen_text_of_ne (h '&' (by decide)),
    matchLen_text_of_ne (h '|' (by decide)), Option.map_none, List.drop_succ_cons, List.drop_zero]

/-- No rule before that for hexadecimal numbers begins with a letter or a digit. -/
theorem ne_of_isAlphanum {c : Char} (h : c.isAlphanum = true) :
    ∀ d ∈ [' ', '=', '!', '>', '<', '&', '|'], c ≠ d := by
  rintro d hd rfl
  simp only [List.mem_cons, List.not_mem_nil, or_false] at hd
  rcases hd with rfl | rfl | rfl | rfl | rfl | rfl | rfl <;> exact absurd h (by decide)

theorem isAlphanum_of_isDigit {c : Char} (h : c.isDigit = true) : c.isAlphanum = true := by
  rw [Char.isAlphanum, h, Bool.or_true]

theorem isAlphanum_of_isHexDigit {c : Char} (h : isHexDigit c = true) : c.isAlphanum = true := by
  have hlower : 'a' ≤ c → c ≤ 'z' → c.isLower = true := fun h h' =>
    (Bool.and_eq_true _ _).mpr ⟨decide_eq_true h, decide_eq_true h'⟩
  have hupper : 'A' ≤ c → c ≤ 'Z' → c.isUpper = true := fun h h' => decide_eq_true ⟨h, h'⟩
  have hf : 'f' ≤ 'z' := by decide
  have hF : 'F' ≤ 'Z' := by decide
  change (c.isUpper || c.isLower || c.isDigit) = true
  simp only [isHexDigit, Bool.or_eq_true, Bool.and_eq_true, decide_eq_true_eq] at h ⊢
  rcases h with (h | ⟨h, h'⟩) | ⟨h, h'⟩
  · exact Or.inr h
  · exact Or.inl (Or.inr (hlower h (Char.le_trans h' hf)))
  · exact Or.inl (Or.inl (hupper h (Char.le_trans h' hF)))

/-- A character after an operand is in none of the classes. -/
theorem not_class_of_not_alphanum {c : Char} (h : c.isAlphanum = false) :
    c.isDigit = false ∧ isHexDigit c = false := by
  constructor
  · exact Bool.eq_false_iff.mpr fun hd => by simp [isAlphanum_of_isDigit hd] at h
  · exact Bool.eq_false_iff.mpr fun hd => by simp [isAlphanum_of_isHexDigit hd] at h

/-- The rule on a string that starts with a decimal number. -/
theorem firstRule_dec {c : Char} {ds s : List Char} (hds : ∀ d ∈ c :: ds, d.isDigit = true)
    (hs : ∀ d, s.head? = some d → d.isAlphanum = false) :
    firstRule (c :: ds ++ s) = some ((c :: ds).length, .dec) := by
  have hc : c.isDigit = true := hds c (List.mem_cons_self ..)
  -- The number is not hexadecimal: what follows a `0` is a digit, or no letter.
  have hnext : ∀ d, (ds ++ s).head? = some d → d ≠ 'x' := by
    rintro d hd rfl
    rcases ds with - | ⟨d', ds⟩
    · exact absurd (hs 'x' hd) (by decide)
    · have hdig := hds 'x' (by rw [← Option.some.inj hd]; simp)
      exact absurd hdig (by decide)
  have hhex : (Regex.run ['0', 'x'] isHexDigit).matchLen (c :: (ds ++ s)) = none := by
    rw [Regex.matchLen, if_neg]
    rcases hr : ds ++ s with - | ⟨d, r⟩
    · simp
    · have hd := hnext d (by rw [hr]; rfl)
      simp [List.isPrefixOf_cons_cons, beq_false_of_ne hd.symm]
  have hdec := matchLen_run [] hds fun d hd => (not_class_of_not_alphanum (hs d hd)).1
  rw [List.nil_append, List.cons_append] at hdec
  rw [List.cons_append, firstRule_skip (ne_of_isAlphanum (isAlphanum_of_isDigit hc)), rules]
  simp only [List.drop_succ_cons, List.drop_zero, List.findSome?_cons, hhex, hdec, Option.map_none,
    Option.map_some]
  rw [List.length_nil, Nat.zero_add]

/-- The rule on a string that starts with a hexadecimal number. -/
theorem firstRule_hex {c : Char} {ds s : List Char} (hds : ∀ d ∈ c :: ds, isHexDigit d = true)
    (hs : ∀ d, s.head? = some d → d.isAlphanum = false) :
    firstRule ('0' :: 'x' :: (c :: ds ++ s)) = some (('0' :: 'x' :: c :: ds).length, .hex) := by
  have hhex := matchLen_run ['0', 'x'] hds fun d hd => (not_class_of_not_alphanum (hs d hd)).2
  rw [List.cons_append, List.cons_append, List.nil_append] at hhex
  rw [firstRule_skip (ne_of_isAlphanum (by decide)), rules]
  simp only [List.drop_succ_cons, List.drop_zero, List.findSome?_cons, hhex, Option.map_some]
  exact congrArg (fun n => some (n, TokenType.hex)) (Nat.add_comm _ _)

/-- The rule on a string that starts with a register. -/
theorem firstRule_reg {c : Char} {cs s : List Char} (hcs : ∀ d ∈ c :: cs, d.isAlphanum = true)
    (hs : ∀ d, s.head? = some d → d.isAlphanum = false) :
    firstRule ('$' :: (c :: cs ++ s)) = some (('$' :: c :: cs).length, .reg) := by
  have hreg := matchLen_run ['$'] hcs hs
  rw [List.cons_append, List.nil_append] at hreg
  have hhex : (Regex.run ['0', 'x'] isHexDigit).matchLen ('$' :: (c :: cs ++ s)) = none := by
    rw [Regex.matchLen, if_neg]
    simp
  rw [firstRule_skip (by simp), rules]
  simp only [List.drop_succ_cons, List.drop_zero, List.findSome?_cons, hhex, hreg,
    matchLen_run_of_not (show Char.isDigit '$' = false from rfl), Option.map_none, Option.map_some]
  exact congrArg (fun n => some (n, TokenType.reg)) (Nat.add_comm _ _)

/-- The first rule on a string that starts with a token. -/
theorem Lexeme.firstRule {t : Token} (h : Lexeme t) {s : List Char} (hs : Separated t s) :
    firstRule (t.str ++ s) = some (t.str.length, t.type.raw) := by
  rcases h with ⟨c, ds, hds⟩ | ⟨c, ds, hds⟩ | ⟨c, cs, hcs⟩ | op | op | - | -
  · exact firstRule_dec hds hs
  · exact firstRule_hex hds hs
  · exact firstRule_reg hcs hs
  · cases op
    · rfl
    · rfl
  · rcases s with - | ⟨c, s⟩
    · cases op <;> rfl
    · -- Only `>` and `<` begin another operator.
      cases op <;> try rfl
      all_goals
        have hc : c ≠ '=' := hs c rfl
        simp [BinOp.token, RV32Pipeline.firstRule, rules, Regex.matchLen, hc.symm, TokenType.raw]
  · rfl
  · rfl

/-- The first character of a token. -/
theorem Lexeme.head {t : Token} (h : Lexeme t) :
    ∃ c cs, t.str = c :: cs ∧ c ≠ ' ' ∧
      (if t.type.startsOperand then c ≠ '=' else c.isAlphanum = false) := by
  have hletter : ∀ c : Char, c.isAlphanum = true → c ≠ ' ' ∧ c ≠ '=' := fun c hc =>
    ⟨ne_of_isAlphanum hc ' ' (by decide), ne_of_isAlphanum hc '=' (by decide)⟩
  rcases h with ⟨c, ds, hds⟩ | ⟨c, ds, hds⟩ | ⟨c, cs, hcs⟩ | op | op | - | -
  · obtain ⟨hsp, heq⟩ := hletter c (isAlphanum_of_isDigit (hds c (List.mem_cons_self ..)))
    exact ⟨c, ds, rfl, hsp, heq⟩
  · exact ⟨'0', _, rfl, by decide, show '0' ≠ '=' by decide⟩
  · exact ⟨'$', _, rfl, by decide, show '$' ≠ '=' by decide⟩
  · cases op
    · exact ⟨_, _, rfl, by decide⟩
    · exact ⟨_, _, rfl, by decide⟩
  · cases op <;> exact ⟨_, _, rfl, by decide⟩
  · exact ⟨_, _, rfl, by decide⟩
  · exact ⟨_, _, rfl, by decide⟩

theorem Lexeme.raw_ne_notype {t : Token} (h : Lexeme t) : t.type.raw ≠ .notype := by
  rcases h with - | - | - | op | op | - | -
  · exact TokenType.noConfusion
  · exact TokenType.noConfusion
  · exact TokenType.noConfusion
  · cases op <;> decide
  · cases op <;> decide
  · decide
  · decide

/-- Tokens that follow one another in a string, with spaces or without, do not extend each other. -/
theorem Spaced.separated {t : Token} {w : List Token} {s : List Char} (h : Spaced w s)
    (hw : ∀ t' ∈ w, Lexeme t') (ha : Alternates t.type.endsOperand w) : Separated t s := by
  have hspace : if t.type.endsOperand then ' '.isAlphanum = false else ' ' ≠ '=' := by
    split_ifs <;> decide
  intro d hd
  rcases h with n | @⟨t', w, s, n, hs⟩
  · rcases n with - | n
    · exact absurd hd (by simp)
    · rw [← Option.some.inj hd]
      exact hspace
  · rcases n with - | n
    · obtain ⟨c, cs, hstr, -, hc⟩ := (hw t' (List.mem_cons_self ..)).head
      obtain ⟨hstart, -⟩ := ha
      rw [List.replicate_zero, List.nil_append, hstr] at hd
      rw [← Option.some.inj hd]
      rw [hstart] at hc
      rcases Bool.eq_false_or_eq_true t.type.endsOperand with he | he
      · rw [he] at hc ⊢
        exact hc
      · rw [he] at hc ⊢
        exact hc
    · rw [← Option.some.inj hd]
      exact hspace

/-- `make_token` skips spaces. -/
theorem makeToken_spaces (n : ℕ) {s : List Char} (hs : s.head? ≠ some ' ') {tokens : List Token}
    (ht : tokens.length < 128) :
    makeToken (List.replicate n ' ' ++ s) tokens = makeToken s tokens := by
  rcases n with - | n
  · rfl
  · have hrun : (Regex.run [] (· == ' ')).matchLen (' ' :: (List.replicate n ' ' ++ s)) =
        some (n + 1) := by
      have hm := @matchLen_run [] (· == ' ') ' ' (List.replicate n ' ') s
        (by intro d hd; rw [← List.replicate_succ] at hd; simp [List.eq_of_mem_replicate hd])
        (fun d hd => beq_false_of_ne fun he => hs (by rw [hd, he]))
      rw [List.nil_append, List.cons_append] at hm
      simpa using hm
    have hfirst : firstRule (' ' :: (List.replicate n ' ' ++ s)) = some (n + 1, .notype) := by
      rw [firstRule, rules, List.findSome?_cons]
      simp only [hrun, Option.map_some]
    rw [List.replicate_succ, List.cons_append, makeToken, hfirst]
    simp only [if_neg (by omega : ¬ 128 ≤ tokens.length), if_true, Nat.add_sub_cancel]
    rw [List.drop_left' (List.length_replicate ..)]

/-- `make_token` records a token. -/
theorem makeToken_token {t : Token} (h : Lexeme t) {s : List Char} (hs : Separated t s)
    (hlen : t.str.length < 32) {tokens : List Token} (ht : tokens.length < 128) :
    makeToken (t.str ++ s) tokens = makeToken s (tokens ++ [t.raw]) := by
  obtain ⟨c, cs, hstr, -, -⟩ := h.head
  have hfirst := h.firstRule hs
  rw [hstr, List.cons_append] at hfirst
  rw [hstr] at hlen
  rw [hstr, List.cons_append, makeToken, hfirst]
  simp only [if_neg (by omega : ¬ 128 ≤ tokens.length), if_neg h.raw_ne_notype,
    if_neg (by omega : ¬ 32 ≤ (c :: cs).length)]
  have hdrop : (cs ++ s).drop ((c :: cs).length - 1) = s := List.drop_left
  have htake : (c :: (cs ++ s)).take (c :: cs).length = t.str := by
    rw [← List.cons_append, List.take_left, hstr]
  rw [hdrop, htake]
  rfl

/-- `make_token` finds the tokens of a printed tree in any string in which they stand. -/
theorem Spaced.makeToken {w : List Token} {s : List Char} (h : Spaced w s)
    (hw : ∀ t ∈ w, Lexeme t ∧ t.str.length < 32) {prev : Bool} (ha : Alternates prev w)
    (tokens : List Token) (hn : tokens.length + w.length ≤ 127) :
    makeToken s tokens = .ok (tokens ++ w.map Token.raw) := by
  induction h generalizing prev tokens with
  | nil n =>
    rw [← List.append_nil (List.replicate n ' '),
      makeToken_spaces n (by simp) (by rw [List.length_nil] at hn; omega), RV32Pipeline.makeToken,
      List.map_nil, List.append_nil]
  | @cons t w s n hs ih =>
    obtain ⟨hlex, hlen⟩ := hw t (List.mem_cons_self ..)
    obtain ⟨c, cs, hstr, hc, -⟩ := hlex.head
    rw [List.length_cons] at hn
    rw [List.append_assoc, makeToken_spaces n
      (by rw [hstr]; exact fun he => hc (Option.some.inj he)) (by omega),
      makeToken_token hlex (hs.separated (fun t' ht' => (hw t' (List.mem_cons_of_mem _ ht')).1)
        ha.2) hlen (by omega),
      ih (fun t' ht' => hw t' (List.mem_cons_of_mem _ ht')) ha.2 _
        (by rw [List.length_append, List.length_singleton]; omega),
      List.append_assoc]
    rfl

/-- `expr` evaluates the tokens of a printed tree. -/
theorem Prints.expr (g : Guest) {e : Tree} {k : ℕ} {w : List Token} {s : List Char}
    (hp : Prints e k w) (hs : Spaced w s) (hn : w.length ≤ 127)
    (hlen : ∀ t ∈ w, t.str.length < 32) : expr g s = RV32Pipeline.eval g w := by
  have ha : Alternates false w := by
    rw [← List.append_nil w]
    exact hp.alternates rfl
  have htokens := hs.makeToken (fun t ht => ⟨hp.lexeme t ht, hlen t ht⟩) ha []
    (by rw [List.length_nil]; omega)
  rw [RV32Pipeline.expr, htokens]
  show RV32Pipeline.eval g (reclassify false (w.map Token.raw)) = RV32Pipeline.eval g w
  rw [reclassify_raw ha]

/-! ## The law -/

/-- For every tree, printed with at most 127 tokens of fewer than 32 characters, with any spaces,
and with a value: `expr` succeeds and returns the value. -/
theorem expr_of_prints (g : Guest) {e : Tree} {w : List Token} {s : List Char} {v : Word}
    (hp : Prints e 5 w) (hs : Spaced w s) (hn : w.length ≤ 127)
    (hlen : ∀ t ∈ w, t.str.length < 32) (hv : e.value g = some v) : expr g s = .ok v := by
  rw [hp.expr g hs hn hlen]
  exact hp.eval hv

/-- The registers 1 to 31 hold their numbers, and `pmem` zeros. -/
def numbered : Guest := ⟨fun i => BitVec.ofNat 32 i, Host.mbase, fun _ => 0#8⟩

/-- The tree of `-$ra * (*0x80000000 - 3)`. -/
def sampleTree : Tree :=
  .binary .mul (.unary .neg (.reg (some 1)))
    (.binary .sub (.unary .deref (.lit 0x80000000#32)) (.lit 3#32))

/-- The expression is evaluated to `-1 * (0 - 3)`. -/
theorem expr_sampleTree : expr numbered "-$ra * (*0x80000000-3)".toList = .ok 3#32 := by
  have hdiff : Prints (.binary .sub (.unary .deref (.lit 0x80000000#32)) (.lit 3#32)) 5
      [UnOp.deref.token, ⟨.hex, "0x80000000".toList⟩, BinOp.sub.token, ⟨.dec, ['3']⟩] :=
    Prints.binary .sub (by decide)
      (Prints.unary .deref (by decide)
        (Prints.lit 1 (Literal.hex "80000000".toList (by decide)
          (List.all_eq_true.mp (by decide)) (by decide))))
      (Prints.lit 2 (Literal.dec ['3'] (by decide) (List.all_eq_true.mp (by decide)) (by decide)))
  have hp : Prints sampleTree 5 [UnOp.neg.token, regToken (some 1), BinOp.mul.token, lparen,
      UnOp.deref.token, ⟨.hex, "0x80000000".toList⟩, BinOp.sub.token, ⟨.dec, ['3']⟩, rparen] :=
    Prints.binary .mul (by decide) (Prints.unary .neg (by decide) (Prints.reg (some 1) 1))
      (Prints.paren 1 hdiff)
  have hs := Spaced.cons (t := UnOp.neg.token) 0 (Spaced.cons (t := regToken (some 1)) 0
    (Spaced.cons (t := BinOp.mul.token) 1 (Spaced.cons (t := lparen) 1
      (Spaced.cons (t := UnOp.deref.token) 0
        (Spaced.cons (t := ⟨.hex, "0x80000000".toList⟩) 0 (Spaced.cons (t := BinOp.sub.token) 0
          (Spaced.cons (t := ⟨.dec, ['3']⟩) 0 (Spaced.cons (t := rparen) 0 (Spaced.nil 0)))))))))
  exact expr_of_prints numbered hp hs (by decide) (by decide) (by decide)

end RV32Pipeline
