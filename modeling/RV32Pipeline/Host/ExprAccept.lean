import RV32Pipeline.Host.ExprCorrect
import RV32Pipeline.Host.ExprLexer

/-!
# The expressions that `expr` accepts

The grammar of the expressions over the tokens of `make_token`, where `-` and `*` are unary or
binary. `expr` tells these apart by the token before, so the expressions are those over the tokens
told apart, and `eval` returns a value on these only: on any other window it comes to an operand
that is none, or finds no operator. It never looks whether the name of a register is in the table.
-/

namespace RV32Pipeline

open Precedence

/-! ## The grammar -/

/-- What a token of `make_token` may be in an expression. -/
def Token.mayBe (k : Kind) (t : Token) : Prop :=
  Token.is k t ∨ k = .unary ∧ (t.type = .minus ∨ t.type = .star)

/-- The expressions: atoms, unary `-` and `*`, the binary operators, and parentheses. -/
def WellFormed (ts : List Token) : Prop := Derives Token.mayBe ts

/-- The tokens of a string, with the unary operators told apart. -/
def operandTokens (e : List Char) : List Token := reclassify false (tokensOf e)

/-- The names are `pc` and those of the table of registers, where that of `x0` is written `$0`. -/
def NamesKnown (ts : List Token) : Prop := ∀ t ∈ ts, t.type = .reg → ∃ r, t.str = regText r

/-- A string that is an expression. -/
def Accepted (e : List Char) : Prop := Complete e ∧ WellFormed (tokensOf e)

/-! ## Unary operators -/

section

variable {t : Token} {ts w rest : List Token} {prev : Bool}

/-- A token that is no operator of two kinds stays. -/
theorem reclassify_cons (h : prev = true ∨ t.type ≠ .star ∧ t.type ≠ .minus) :
    reclassify prev (t :: ts) = t :: reclassify t.type.endsOperand ts := by
  have htype : (if t.type = .star ∧ prev = false then TokenType.deref
      else if t.type = .minus ∧ prev = false then .neg else t.type) = t.type := by
    rcases h with rfl | ⟨hs, hm⟩
    · rw [if_neg (by simp), if_neg (by simp)]
    · rw [if_neg (fun h => hs h.1), if_neg (fun h => hm h.1)]
  rw [reclassify, htype]

/-- A unary operator is told apart where no operand ends. -/
theorem reclassify_unary (h : Token.mayBe .unary t) :
    ∃ t', (∀ ts, reclassify false (t :: ts) = t' :: reclassify false ts) ∧
      Token.is .unary t' := by
  obtain ⟨type, str⟩ := t
  rcases h with h | ⟨-, h | h⟩
  · cases type <;> cases h <;> exact ⟨_, fun ts => rfl, rfl⟩
  · obtain rfl : type = .minus := h
    exact ⟨⟨.neg, str⟩, fun ts => rfl, rfl⟩
  · obtain rfl : type = .star := h
    exact ⟨⟨.deref, str⟩, fun ts => rfl, rfl⟩

/-- An expression is told apart in itself, and what follows it comes behind an operand. -/
theorem reclassify_derives (h : Derives Token.mayBe w) :
    ∃ w', (∀ rest, reclassify false (w ++ rest) = w' ++ reclassify true rest) ∧
      Derives Token.is w' := by
  induction h with
  | @atom t ht =>
    have ha : Token.is .atom t := ht.resolve_right fun h => absurd h.1 (by decide)
    have hends : t.type ≠ .star ∧ t.type ≠ .minus ∧ t.type.endsOperand = true := by
      obtain ⟨type, str⟩ := t
      cases type <;> cases ha <;> exact ⟨TokenType.noConfusion, TokenType.noConfusion, rfl⟩
    refine ⟨[t], fun rest => ?_, .atom ha⟩
    rw [List.singleton_append, reclassify_cons (Or.inr ⟨hends.1, hends.2.1⟩), hends.2.2]
    rfl
  | @paren o c w ho hc _ ih =>
    have ho' : Token.is .lparen o := ho.resolve_right fun h => absurd h.1 (by decide)
    have hc' : Token.is .rparen c := hc.resolve_right fun h => absurd h.1 (by decide)
    have ho'' := Token.is_lparen.mp ho'
    have hc'' := Token.is_rparen.mp hc'
    obtain ⟨w', hw', hd⟩ := ih
    refine ⟨o :: w' ++ [c], fun rest => ?_, .paren ho' hc' hd⟩
    rw [List.cons_append, List.cons_append, reclassify_cons (Or.inr (by rw [ho'']; decide)), ho'']
    rw [show TokenType.lparen.endsOperand = false from rfl, List.append_assoc, hw',
      List.singleton_append, reclassify_cons (Or.inl rfl), hc'']
    exact congrArg (List.cons o) (List.append_assoc w' [c] (reclassify true rest)).symm
  | @unary t w ht _ ih =>
    obtain ⟨w', hw', hd⟩ := ih
    obtain ⟨t', ht', hu⟩ := reclassify_unary ht
    refine ⟨t' :: w', fun rest => ?_, .unary hu hd⟩
    rw [List.cons_append, ht', hw', List.cons_append]
  | @binary t wl wr ht _ _ ihl ihr =>
    have hb : Token.is .binary t := ht.resolve_right fun h => absurd h.1 (by decide)
    have hends : t.type.endsOperand = false := by
      obtain ⟨type, str⟩ := t
      cases type <;> cases hb <;> rfl
    obtain ⟨wl', hwl', hdl⟩ := ihl
    obtain ⟨wr', hwr', hdr⟩ := ihr
    refine ⟨wl' ++ t :: wr', fun rest => ?_, .binary hb hdl hdr⟩
    rw [List.append_assoc, hwl', List.cons_append, reclassify_cons (Or.inl rfl), hends, hwr',
      List.append_assoc, List.cons_append]

/-- An expression over the tokens told apart is one over those of `make_token`. -/
theorem derives_raw (h : Derives Token.is w) : WellFormed (w.map Token.raw) := by
  have hraw : ∀ {k t}, Token.is k t → Token.mayBe k t.raw := by
    rintro k ⟨type, str⟩ ht
    cases type <;> cases ht <;> first
      | exact Or.inl rfl
      | exact Or.inr ⟨rfl, Or.inl rfl⟩
      | exact Or.inr ⟨rfl, Or.inr rfl⟩
  induction h with
  | atom ht => exact .atom (hraw ht)
  | paren ho hc _ ih =>
    rw [List.map_append, List.map_cons]
    exact .paren (hraw ho) (hraw hc) ih
  | unary ht _ ih => exact .unary (hraw ht) ih
  | binary ht _ _ ihl ihr =>
    rw [List.map_append, List.map_cons]
    exact .binary (hraw ht) ihl ihr

/-- The types that `make_token` records. -/
def Token.Lexed (t : Token) : Prop := t.type ≠ .notype ∧ t.type ≠ .neg ∧ t.type ≠ .deref

theorem raw_reclassify (h : ∀ t ∈ ts, t.Lexed) : (reclassify prev ts).map Token.raw = ts := by
  induction ts generalizing prev with
  | nil => rfl
  | cons t ts ih =>
    rw [List.forall_mem_cons] at h
    rw [reclassify, List.map_cons, ih h.2]
    congr 1
    obtain ⟨type, str⟩ := t
    obtain ⟨⟨-, hn, hd⟩, -⟩ := h
    unfold Token.raw
    cases type <;> cases prev <;> first | rfl | exact absurd rfl hn | exact absurd rfl hd

theorem tokensOf_lexed (e : List Char) : ∀ t ∈ tokensOf e, t.Lexed := by
  intro t ht
  obtain ⟨hmem, hrec⟩ := List.mem_filter.mp ht
  exact ⟨fun h => not_recorded h hrec, lexemes_type e t hmem⟩

/-- The tokens of an expression are an expression once the operators are told apart. -/
theorem wellFormed_iff (h : ∀ t ∈ ts, t.Lexed) :
    WellFormed ts ↔ Derives Token.is (reclassify false ts) := by
  constructor
  · intro hw
    obtain ⟨w', hw', hd⟩ := reclassify_derives hw
    have heq := hw' []
    rw [List.append_nil, reclassify, List.append_nil] at heq
    rwa [heq]
  · intro hd
    have hw := derives_raw hd
    rwa [raw_reclassify h] at hw

/-! ## Acceptance -/

/-- A unary operator stands only where no operand ends, and every token has a kind. -/
def Classified : Bool → List Token → Prop
  | _, [] => True
  | prev, t :: ts =>
    t.type ≠ .notype ∧ (Token.is .unary t → prev = false) ∧ Classified t.type.endsOperand ts

theorem classified_reclassify (h : ∀ t ∈ ts, t.Lexed) : Classified prev (reclassify prev ts) := by
  induction ts generalizing prev with
  | nil => trivial
  | cons t ts ih =>
    rw [List.forall_mem_cons] at h
    rw [reclassify]
    refine ⟨?_, ?_, ih h.2⟩
    · obtain ⟨⟨hnone, -⟩, -⟩ := h
      dsimp only
      split_ifs
      · exact TokenType.noConfusion
      · exact TokenType.noConfusion
      · exact hnone
    · obtain ⟨⟨-, hn, hd⟩, -⟩ := h
      intro hu
      rcases prev with - | -
      · rfl
      · obtain ⟨type, str⟩ := t
        cases type <;> first | exact absurd rfl hn | exact absurd rfl hd | cases hu

theorem Classified.left (h : Classified prev (w ++ rest)) : Classified prev w := by
  induction w generalizing prev with
  | nil => trivial
  | cons t w ih => exact ⟨h.1, h.2.1, ih h.2.2⟩

theorem Classified.right (h : Classified prev (w ++ rest)) : ∃ prev', Classified prev' rest := by
  induction w generalizing prev with
  | nil => exact ⟨prev, h⟩
  | cons t w ih => exact ih h.2.2

/-- Tokens without operators end an operand. -/
theorem Classified.behind {P : Token → Prop} (hw : Outer Token.is P w)
    (hP : ∀ u, P u → ¬ Token.is .unary u ∧ ¬ Token.is .binary u) (hne : w ≠ [])
    (h : Classified prev (w ++ rest)) : Classified true rest := by
  induction hw generalizing prev with
  | nil P => exact absurd rfl hne
  | @token P t w hl hr ht _ ih =>
    obtain ⟨hnone, -, hts⟩ := h
    change Classified t.type.endsOperand (w ++ rest) at hts
    by_cases hnil : w = []
    · -- The last token is an atom.
      have hends : t.type.endsOperand = true := by
        obtain ⟨hu, hb⟩ := hP t ht
        obtain ⟨type, str⟩ := t
        cases type <;> first | rfl | exact absurd rfl hnone | exact absurd rfl hl |
          exact absurd rfl hu | exact absurd rfl hb
      rw [hnil, List.nil_append, hends] at hts
      exact hts
    · exact ih hP hnil hts
  | @paren P o c v w ho hc _ _ _ ih =>
    rw [List.append_assoc, List.cons_append] at h
    obtain ⟨prev', -, -, hts⟩ := Classified.right h.2.2
    change Classified c.type.endsOperand (w ++ rest) at hts
    by_cases hnil : w = []
    · rw [hnil, Token.is_rparen.mp hc] at hts
      exact hts
    · exact ih hP hnil hts

/-- A unary main operator stands in front. -/
theorem Classified.main_unary {wl wr : List Token} (h : Classified prev (wl ++ t :: wr))
    (hm : Main Token.is Token.level wl t wr) (ht : Token.is .unary t) : wl = [] := by
  by_contra hne
  cases hm with
  | unary _ hl _ => exact absurd ((h.behind hl (fun _ h => h) hne).2.1 ht) (by decide)
  | binary hb _ _ => exact absurd (t.is_det _ _ ht hb) (by decide)

theorem main_is_binary {wl wr : List Token} (h : Main Token.is Token.level wl t wr)
    (ht : ¬ t.type.level = 1) : Token.is .binary t := by
  cases h with
  | unary hu _ _ => exact absurd (Token.is_unary.mp hu) ht
  | binary hb _ _ => exact hb

/-- What `eval` gives a value is an expression. -/
theorem derives_of_eval {g : Guest} {v : Word} (hc : Classified prev w) (h : eval g w = .ok v) :
    Derives Token.is w := by
  induction w using window_induction generalizing v prev with
  | nil =>
    rw [eval] at h
    exact absurd h (by simp)
  | single t =>
    rw [eval] at h
    obtain ⟨type, str⟩ := t
    refine .atom ?_
    cases type <;> first | rfl | exact absurd h (by simp [evalToken])
  | invalid w hw hd =>
    rw [eval_invalid hw hd] at h
    exact absurd h (by simp)
  | misnested w hd hn =>
    rw [eval_misnested hd hn] at h
    exact absurd h (by simp)
  | paren o c w ho hc' hw ih =>
    rw [eval_paren ho hc' hw] at h
    rw [List.cons_append] at hc
    exact .paren ho hc' (ih hc.2.2.left h)
  | noOperator w hw hcheck hout =>
    rw [eval_noOperator hw hcheck hout] at h
    exact absurd h (by simp)
  | main wl t wr hw hm ihl ihr =>
    obtain ⟨prev', -, -, hcr⟩ := hc.right
    rw [eval_main hw hm] at h
    rcases hy : eval g wr with err | y
    · rw [hy] at h
      exact absurd h (by simp [Except.bind])
    have hr := ihr hcr hy
    by_cases hop : t.type.level = 1
    · -- A unary operator has nothing on its left.
      have ht := Token.is_unary.mpr hop
      rw [hc.main_unary hm ht, List.nil_append]
      exact .unary ht hr
    rcases hx : eval g wl with err | x
    · simp only [hy, hx, Except.bind, if_neg hop] at h
      exact absurd h (by simp)
    · exact .binary (main_is_binary hm hop) (ihl hc.left hx) hr

/-- `eval` returns the value of the tree that groups a window, and no value of anything else. -/
theorem eval_ok_iff {g : Guest} {v : Word} (hc : Classified prev w) :
    eval g w = .ok v ↔ ∃ e, Groups Token.is Token.level 5 e 5 w ∧ treeValue g e = some v := by
  constructor
  · intro h
    obtain ⟨e, he⟩ := (derives_of_eval hc h).exists_groups Token.level_of_binary (by decide)
    refine ⟨e, he, ?_⟩
    rw [groups_eval he] at h
    rcases hv : treeValue g e with - | x
    · rw [hv] at h
      exact absurd h (by simp [resultOf])
    · rw [hv] at h
      exact congrArg some (Except.ok.inj h)
  · rintro ⟨e, he, hv⟩
    rw [groups_eval he, hv]
    rfl

end

/-! ## The law -/

theorem operandTokens_classified (e : List Char) : Classified false (operandTokens e) :=
  classified_reclassify (tokensOf_lexed e)

variable {g : Guest} {e : List Char}

/-- `expr` on a string that is split into tokens. -/
theorem expr_eq_eval (hc : Complete e) (hf : Fits 0 e)
    (hlen : ∀ t ∈ tokensOf e, t.str.length < 32) : expr g e = eval g (operandTokens e) := by
  rw [expr, (makeToken_ok_iff e [] (tokensOf e)).mpr ⟨hc, hf, hlen, rfl⟩]
  rfl

/-- Where `expr` returns a value, the string has been split. -/
theorem split_of_expr_ok {v : Word} (h : expr g e = .ok v) :
    Complete e ∧ Fits 0 e ∧ ∀ t ∈ tokensOf e, t.str.length < 32 := by
  rw [expr] at h
  rcases hm : makeToken e [] with err | ts
  · simp only [hm] at h
    exact absurd h (by simp)
  · obtain ⟨hc, hf, hlen, -⟩ := (makeToken_ok_iff e [] ts).mp hm
    exact ⟨hc, hf, hlen⟩

theorem operandTokens_of_lexemes {ls : List Token} {done : Bool} (h : lexemes e = (ls, done)) :
    operandTokens e = reclassify false (ls.filter Token.recorded) := by
  rw [operandTokens, tokensOf, h]

/-- The same, from the lexemes of the string. -/
theorem expr_of_lexemes {ls : List Token} (h : lexemes e = (ls, true))
    (hn : (ls.filter Token.recorded).length ≤ 127)
    (hlen : ∀ t ∈ ls.filter Token.recorded, t.str.length < 32) :
    expr g e = eval g (reclassify false (ls.filter Token.recorded)) := by
  have ht : tokensOf e = ls.filter Token.recorded := by rw [tokensOf, h]
  rw [← ht] at hn hlen ⊢
  exact expr_eq_eval (by rw [Complete, h]) (fits_of_length_le hn) hlen

/-- `expr` returns a value for expressions only, and for all of these where C defines it. -/
theorem expr_ok_iff (hn : (tokensOf e).length ≤ 127) (hlen : ∀ t ∈ tokensOf e, t.str.length < 32)
    (hf : expr g e ≠ .error .fault) : (∃ v, expr g e = .ok v) ↔ Accepted e := by
  have hwf := wellFormed_iff (tokensOf_lexed e)
  constructor
  · rintro ⟨v, hv⟩
    have hc := (split_of_expr_ok hv).1
    rw [expr_eq_eval hc (fits_of_length_le hn) hlen] at hv
    exact ⟨hc, hwf.mpr (derives_of_eval (operandTokens_classified e) hv)⟩
  · rintro ⟨hc, hw⟩
    obtain ⟨t, ht⟩ := (hwf.mp hw).exists_groups Token.level_of_binary (by decide)
    rw [expr_eq_eval hc (fits_of_length_le hn) hlen, operandTokens, groups_eval ht] at hf ⊢
    rcases hv : treeValue g t with - | v
    · rw [hv] at hf
      exact absurd rfl hf
    · exact ⟨v, rfl⟩

/-- For every string of at most 127 tokens of fewer than 32 characters that is evaluated without a
fault: `expr` succeeds on it exactly if it is an expression with known names, if and only if every
name in it is known or it is no expression. -/
theorem expr_accepts_iff (g : Guest) {e : List Char} (hn : (tokensOf e).length ≤ 127)
    (hlen : ∀ t ∈ tokensOf e, t.str.length < 32) (hf : expr g e ≠ .error .fault) :
    ((∃ v, expr g e = .ok v) ↔ Accepted e ∧ NamesKnown (tokensOf e)) ↔
      (Accepted e → NamesKnown (tokensOf e)) := by
  rw [expr_ok_iff hn hlen hf]
  constructor
  · exact fun h ha => (h.mp ha).2
  · exact fun h => ⟨fun ha => ⟨ha, h ha⟩, fun ha => ha.1⟩

/-- The lexemes of `-$ra`. -/
theorem lexemes_minus_ra :
    lexemes "-$ra".toList = ([⟨.minus, ['-']⟩, ⟨.reg, "$ra".toList⟩], true) :=
  lexemes_step 1 rfl (lexemes_step 3 rfl lexemes_nil)

/-- The expression `-$ra` is evaluated, and its name is known. -/
theorem expr_accepts_iff_ra :
    ((∃ v, expr numbered "-$ra".toList = .ok v) ↔
        Accepted "-$ra".toList ∧ NamesKnown (tokensOf "-$ra".toList)) ↔
      (Accepted "-$ra".toList → NamesKnown (tokensOf "-$ra".toList)) := by
  have ht : tokensOf "-$ra".toList = [⟨.minus, ['-']⟩, ⟨.reg, "$ra".toList⟩] := by
    rw [tokensOf, lexemes_minus_ra]
    rfl
  have hn : (tokensOf "-$ra".toList).length ≤ 127 := by
    rw [ht]
    decide
  have hlen : ∀ t ∈ tokensOf "-$ra".toList, t.str.length < 32 := by
    rw [ht]
    decide
  have hc : Complete "-$ra".toList := by
    rw [Complete, lexemes_minus_ra]
  have hgroups : Groups Token.is Token.level 5 (.unary UnOp.neg.token (.atom (regToken (some 1)))) 5
      (operandTokens "-$ra".toList) := by
    rw [operandTokens, ht]
    exact .unary rfl (by decide) (.atom 1 rfl)
  refine expr_accepts_iff numbered hn hlen ?_
  rw [expr_eq_eval hc (fits_of_length_le hn) hlen, groups_eval hgroups]
  exact fun h => absurd h (by decide)

/-- The string `$foo` is evaluated to zero, and no register is called `foo`. -/
theorem expr_accepts_foo :
    expr numbered "$foo".toList = .ok 0#32 ∧ (tokensOf "$foo".toList).length ≤ 127 ∧
      (∀ t ∈ tokensOf "$foo".toList, t.str.length < 32) ∧
      ¬ ((∃ v, expr numbered "$foo".toList = .ok v) ↔
        Accepted "$foo".toList ∧ NamesKnown (tokensOf "$foo".toList)) := by
  have hl : lexemes "$foo".toList = ([⟨.reg, "$foo".toList⟩], true) :=
    lexemes_step 4 rfl lexemes_nil
  have ht : tokensOf "$foo".toList = [⟨.reg, "$foo".toList⟩] := by
    rw [tokensOf, hl]
    rfl
  have hn : (tokensOf "$foo".toList).length ≤ 127 := by
    rw [ht]
    decide
  have hlen : ∀ t ∈ tokensOf "$foo".toList, t.str.length < 32 := by
    rw [ht]
    decide
  have hv : expr numbered "$foo".toList = .ok 0#32 := by
    rw [expr_of_lexemes hl (by decide) (by decide)]
    change eval numbered [⟨.reg, "$foo".toList⟩] = _
    rw [eval]
    rfl
  have hname : ∀ r : Option (Fin 32), "$foo".toList ≠ regText r := by
    rintro (- | i)
    · decide
    · revert i
      decide
  refine ⟨hv, hn, hlen, fun h => ?_⟩
  obtain ⟨r, hr⟩ := (h.mp ⟨_, hv⟩).2 ⟨.reg, "$foo".toList⟩ (by rw [ht]; simp) rfl
  exact hname r hr

end RV32Pipeline
