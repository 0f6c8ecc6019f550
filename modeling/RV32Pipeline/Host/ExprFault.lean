import RV32Pipeline.Host.ExprAccept
import Mathlib.Logic.Relation

/-!
# Where `expr` faults

`expr` has no defined result in three cases only: a token of 32 characters or more among the first
128; parentheses that match in number and are not nested, where `FindMainOP` asserts; and an operand
that evaluation comes to and that has no value, because of a zero divisor or an address outside
`pmem`. Evaluation comes to the operands of a window from the right, also in a window that is no
expression, and to a left operand only behind a right one with a value.
-/

namespace RV32Pipeline

open Precedence

variable {g : Guest}

/-- The window is an expression with a value. -/
def HasValue (g : Guest) (w : List Token) : Prop :=
  ∃ t v, Groups Token.is Token.level 5 t 5 w ∧ treeValue g t = some v

/-- The window is an expression without a value. -/
def NoValue (g : Guest) (w : List Token) : Prop :=
  ∃ t, Groups Token.is Token.level 5 t 5 w ∧ treeValue g t = none

/-- Evaluation of a window goes on with that inside its parentheses, or behind its main operator,
or before a binary one with a value behind it. -/
inductive Operand (g : Guest) : List Token → List Token → Prop
  | paren {o c : Token} {w : List Token} : Token.is .lparen o → Token.is .rparen c →
      Nested Token.is w → Operand g (o :: w ++ [c]) w
  | right {wl wr : List Token} {t : Token} : 2 ≤ (wl ++ t :: wr).length →
      Main Token.is Token.level wl t wr → Operand g (wl ++ t :: wr) wr
  | left {wl wr : List Token} {t : Token} : 2 ≤ (wl ++ t :: wr).length →
      Main Token.is Token.level wl t wr → Token.is .binary t → HasValue g wr →
      Operand g (wl ++ t :: wr) wl

/-- The windows that evaluation comes to. -/
def Reaches (g : Guest) : List Token → List Token → Prop := Relation.ReflTransGen (Operand g)

/-- A string on which evaluation is defined. -/
structure Harmless (g : Guest) (e : List Char) : Prop where
  short : ∀ t ∈ (tokensOf e).take 128, t.str.length < 32
  nested : Complete e → Fits 0 e → parenDepth (operandTokens e) = 0 →
    Nested Token.is (operandTokens e)
  defined : Complete e → Fits 0 e → ∀ w, Reaches g (operandTokens e) w → ¬ NoValue g w

/-! ## Evaluation -/

theorem NoValue.eval {w : List Token} (h : NoValue g w) : eval g w = .error .fault := by
  obtain ⟨t, ht, hv⟩ := h
  rw [groups_eval ht, hv]
  rfl

theorem HasValue.eval {w : List Token} (h : HasValue g w) : ∃ v, eval g w = .ok v := by
  obtain ⟨t, v, ht, hv⟩ := h
  exact ⟨v, by rw [groups_eval ht, hv]; rfl⟩

/-- An operand that faults leaves the window undefined. -/
theorem Operand.fault {w w' : List Token} (h : Operand g w w') (hf : eval g w' = .error .fault) :
    eval g w = .error .fault := by
  cases h with
  | paren ho hc hw =>
    rw [eval_paren ho hc hw]
    exact hf
  | right hw hm =>
    rw [eval_main hw hm, hf]
    rfl
  | @left _ wr t hw hm hb hr =>
    obtain ⟨y, hy⟩ := hr.eval
    have hop : ¬ t.type.level = 1 := by
      have := Token.is_binary.mp hb
      omega
    rw [eval_main hw hm, hy]
    simp only [Except.bind, if_neg hop, hf]

/-- So does every window that evaluation comes to. -/
theorem Reaches.fault {w w' : List Token} (h : Reaches g w w') (hf : eval g w' = .error .fault) :
    eval g w = .error .fault := by
  induction h using Relation.ReflTransGen.head_induction_on with
  | refl => exact hf
  | head hstep _ ih => exact hstep.fault ih

/-- An atom does not fault. -/
theorem evalToken_ne_fault (t : Token) : evalToken g t ≠ .error .fault := by
  obtain ⟨type, str⟩ := t
  cases type <;> simp [evalToken]

/-- An expression that faults has no value. -/
theorem noValue_of_fault {w : List Token} (hd : Derives Token.is w)
    (hf : eval g w = .error .fault) : NoValue g w := by
  obtain ⟨t, ht⟩ := hd.exists_groups Token.level_of_binary (by decide)
  rw [groups_eval ht] at hf
  refine ⟨t, ht, ?_⟩
  rcases hv : treeValue g t with - | v
  · rfl
  · rw [hv] at hf
    exact absurd hf (by simp [resultOf])

/-- A window with nested parentheses that faults comes to an operand without a value. -/
theorem exists_noValue {w : List Token} {prev : Bool} (hc : Classified prev w)
    (hn : Nested Token.is w) (hf : eval g w = .error .fault) :
    ∃ w', Reaches g w w' ∧ NoValue g w' := by
  induction w using window_induction generalizing prev with
  | nil =>
    rw [eval] at hf
    exact absurd hf (by simp)
  | single t =>
    rw [eval] at hf
    exact absurd hf (evalToken_ne_fault t)
  | invalid w hw hd => exact absurd (parenDepth_nested hn) hd
  | misnested w _ hn' => exact absurd hn hn'
  | paren o c w ho hc' hw ih =>
    rw [eval_paren ho hc' hw] at hf
    rw [List.cons_append] at hc
    obtain ⟨w', hreach, hno⟩ := ih hc.2.2.left hw hf
    exact ⟨w', .head (.paren ho hc' hw) hreach, hno⟩
  | noOperator w hw hcheck hout =>
    rw [eval_noOperator hw hcheck hout] at hf
    exact absurd hf (by simp)
  | main wl t wr hw hm ihl ihr =>
    obtain ⟨hnl, -, hnr⟩ := hm.nested Token.is_det
    obtain ⟨prev', -, -, hcr⟩ := hc.right
    have hfault := hf
    rw [eval_main hw hm] at hf
    rcases hy : eval g wr with err | y
    · -- The right operand faults itself.
      rw [hy] at hf
      obtain ⟨w', hreach, hno⟩ := ihr hcr hnr (hy.trans hf)
      exact ⟨w', .head (.right hw hm) hreach, hno⟩
    have hdr := derives_of_eval hcr hy
    by_cases hop : t.type.level = 1
    · -- The operator faults on the value of its operand.
      have ht := Token.is_unary.mpr hop
      refine ⟨_, .refl, noValue_of_fault ?_ hfault⟩
      rw [hc.main_unary hm ht]
      exact .unary ht hdr
    have hb := main_is_binary hm hop
    rcases hx : eval g wl with err | x
    · -- The left operand faults, behind which there is a value.
      simp only [hy, hx, Except.bind, if_neg hop] at hf
      obtain ⟨tr, htr, hvr⟩ := (eval_ok_iff hcr).mp hy
      obtain ⟨w', hreach, hno⟩ := ihl hc.left hnl (hx.trans hf)
      exact ⟨w', .head (.left hw hm hb ⟨tr, y, htr, hvr⟩) hreach, hno⟩
    · exact ⟨_, .refl, noValue_of_fault (.binary hb (derives_of_eval hc.left hx) hdr) hfault⟩

/-- `eval` faults on parentheses that match in number only, and if it comes to an operand without a
value. -/
theorem eval_fault_iff {w : List Token} {prev : Bool} (hc : Classified prev w) :
    eval g w = .error .fault ↔
      (parenDepth w = 0 ∧ ¬ Nested Token.is w) ∨ ∃ w', Reaches g w w' ∧ NoValue g w' := by
  constructor
  · intro hf
    by_cases hn : Nested Token.is w
    · exact Or.inr (exists_noValue hc hn hf)
    by_cases hd : parenDepth w = 0
    · exact Or.inl ⟨hd, hn⟩
    -- Otherwise evaluation ends at once.
    exfalso
    rcases w with - | ⟨t, - | ⟨t₂, ts⟩⟩
    · exact hn (.nil _)
    · rw [eval] at hf
      exact evalToken_ne_fault t hf
    · rw [eval_invalid (by simp) hd] at hf
      exact absurd hf (by simp)
  · rintro (⟨hd, hn⟩ | ⟨w', hreach, hno⟩)
    · exact eval_misnested hd hn
    · exact hreach.fault hno.eval

/-! ## The law -/

/-- For every string and every state: `expr` returns without an assertion, a division by zero, an
access outside the tokens or outside `pmem`, if and only if the string is harmless. -/
theorem expr_ne_fault_iff (g : Guest) (e : List Char) :
    expr g e ≠ .error .fault ↔ Harmless g e := by
  have htoken := makeToken_fault_iff e []
  rw [List.length_nil, Nat.sub_zero] at htoken
  by_cases hshort : ∀ t ∈ (tokensOf e).take 128, t.str.length < 32
  · by_cases hsplit : Complete e ∧ Fits 0 e
    · -- All tokens are recorded, and evaluated.
      obtain ⟨hc, hfit⟩ := hsplit
      rw [List.take_of_length_le (length_le_of_fits hfit)] at hshort
      rw [expr_eq_eval hc hfit hshort, Ne, eval_fault_iff (operandTokens_classified e)]
      constructor
      · intro h
        exact ⟨fun t ht => hshort t (List.mem_of_mem_take ht),
          fun _ _ hd => by_contra fun hn => h (Or.inl ⟨hd, hn⟩),
          fun _ _ w hw hno => h (Or.inr ⟨w, hw, hno⟩)⟩
      · rintro h (⟨hd, hn⟩ | ⟨w, hw, hno⟩)
        · exact hn (h.nested hc hfit hd)
        · exact h.defined hc hfit w hw hno
    · refine ⟨fun _ => ⟨hshort, fun hc hf => absurd ⟨hc, hf⟩ hsplit,
        fun hc hf => absurd ⟨hc, hf⟩ hsplit⟩, fun _ hexpr => ?_⟩
      rw [expr] at hexpr
      rcases hm : makeToken e [] with err | ts
      · simp only [hm] at hexpr
        rw [Except.error.inj hexpr] at hm
        obtain ⟨t, ht, hlong⟩ := htoken.mp hm
        have := hshort t ht
        omega
      · obtain ⟨hc, hf, -⟩ := (makeToken_ok_iff e [] ts).mp hm
        exact hsplit ⟨hc, hf⟩
  · -- A token is written past its end.
    refine ⟨fun hexpr => absurd ?_ hexpr, fun h => absurd h.short hshort⟩
    push Not at hshort
    rw [expr, htoken.mpr hshort]

/-- A division by zero, parentheses that are not nested, an address outside `pmem`, and a token of
32 characters. -/
theorem expr_faults :
    expr numbered "1/0".toList = .error .fault ∧ expr numbered ")(".toList = .error .fault ∧
      expr numbered "*0".toList = .error .fault ∧
      expr numbered (List.replicate 32 '1') = .error .fault := by
  refine ⟨?_, ?_, ?_, ?_⟩
  · have hl : lexemes "1/0".toList = ([⟨.dec, ['1']⟩, ⟨.slash, ['/']⟩, ⟨.dec, ['0']⟩], true) :=
      lexemes_step 1 rfl (lexemes_step 1 rfl (lexemes_step 1 rfl lexemes_nil))
    rw [expr_of_lexemes hl (by decide) (by decide)]
    have hg : Groups Token.is Token.level 5
        (.binary ⟨.slash, ['/']⟩ (.atom ⟨.dec, ['1']⟩) (.atom ⟨.dec, ['0']⟩)) 5
        ([⟨.dec, ['1']⟩] ++ ⟨.slash, ['/']⟩ :: [⟨.dec, ['0']⟩]) :=
      .binary rfl (by decide) (.atom _ rfl) (.atom _ rfl)
    exact groups_eval hg
  · have hl : lexemes ")(".toList = ([⟨.rparen, [')']⟩, ⟨.lparen, ['(']⟩], true) :=
      lexemes_step 1 rfl (lexemes_step 1 rfl lexemes_nil)
    rw [expr_of_lexemes hl (by decide) (by decide)]
    change eval numbered [⟨.rparen, [')']⟩, ⟨.lparen, ['(']⟩] = _
    refine eval_misnested rfl fun h => ?_
    generalize hw : [(⟨.rparen, [')']⟩ : Token), ⟨.lparen, ['(']⟩] = w at h
    -- Nested parentheses do not begin with a right one.
    cases h with
    | nil => cases hw
    | token _ hr _ _ =>
      rw [← (List.cons.inj hw).1] at hr
      exact hr rfl
    | paren ho _ _ _ =>
      rw [← (List.cons.inj hw).1] at ho
      exact TokenType.noConfusion (Token.is_lparen.mp ho)
  · have hl : lexemes "*0".toList = ([⟨.star, ['*']⟩, ⟨.dec, ['0']⟩], true) :=
      lexemes_step 1 rfl (lexemes_step 1 rfl lexemes_nil)
    rw [expr_of_lexemes hl (by decide) (by decide)]
    have hg : Groups Token.is Token.level 5 (.unary ⟨.deref, ['*']⟩ (.atom ⟨.dec, ['0']⟩)) 5
        [⟨.deref, ['*']⟩, ⟨.dec, ['0']⟩] := .unary rfl (by decide) (.atom 1 rfl)
    exact groups_eval hg
  · have hr : firstRule ('1' :: List.replicate 31 '1') = some (32, .dec) := rfl
    have hm := (makeToken_fault_iff ('1' :: List.replicate 31 '1') []).mpr
      ⟨⟨.dec, List.replicate 32 '1'⟩, ?_, by simp⟩
    · rw [List.replicate_succ, expr, hm]
    · rw [tokensOf_token hr (by decide)]
      exact List.mem_cons_self ..

end RV32Pipeline
