import RV32Pipeline.Host.ExprAccept

/-!
# The precedence of `expr` and that of C

`FindMainOP` has one level for all six comparisons and one for `&&` and `||`, where C has two of
each. On an expression without parentheses the two group alike if and only if no `&&` comes behind a
`||` and, between logical operators, no relational comparison behind an equality. Then the value
that `expr` returns is the one of C, which evaluates the right operand of `&&` and `||` only if it
needs to.
-/

namespace RV32Pipeline

open Precedence

/-- The levels of the operators in C. -/
def TokenType.cLevel : TokenType → ℕ
  | .deref | .neg => 1
  | .star | .slash => 2
  | .plus | .minus => 3
  | .ge | .le | .gt | .lt => 4
  | .eq | .neq => 5
  | .and => 6
  | .or => 7
  | _ => 0

/-- The level of a token in C. -/
def Token.cLevel (t : Token) : ℕ := t.type.cLevel

/-- The value of a tree in C, if what is evaluated has no zero divisor and reads only words inside
`pmem`. -/
def cValue (g : Guest) : OpTree Token → Option Word
  | .atom t => (evalToken g t).toOption
  | .unary t e => (cValue g e).bind fun x => t.type.unOp.bind fun op => op.value g x
  | .binary t l r =>
    (cValue g l).bind fun x =>
      if t.type = .and ∧ x = 0#32 then some 0#32
      else if t.type = .or ∧ x ≠ 0#32 then some 1#32
      else (cValue g r).bind fun y => t.type.binOp.bind fun op => op.value x y

/-- A `||` before a `&&`. -/
def OrBeforeAnd (t u : Token) : Prop := t.type = .or ∧ u.type = .and

/-- An equality before a relational comparison. -/
def EqBeforeRel (t u : Token) : Prop :=
  (t.type = .eq ∨ t.type = .neq) ∧
    (u.type = .ge ∨ u.type = .le ∨ u.type = .gt ∨ u.type = .lt)

/-- No `&&` comes behind a `||`, and between logical operators no relational comparison comes behind
an equality. -/
def CLike (w : List Token) : Prop :=
  w.Pairwise (fun t u => ¬ OrBeforeAnd t u) ∧
    ∀ v ∈ w.splitOnP (fun t => t.type.level = 5), v.Pairwise fun t u => ¬ EqBeforeRel t u

/-! ## Values -/

/-- Where all operands have values, C has the same value. -/
theorem cValue_eq {g : Guest} {e : OpTree Token} {v : Word} (h : treeValue g e = some v) :
    cValue g e = some v := by
  induction e generalizing v with
  | atom t => exact h
  | unary t e ih =>
    obtain ⟨x, hx, hv⟩ := Option.bind_eq_some_iff.mp h
    rw [cValue, ih hx]
    exact hv
  | binary t l r ihl ihr =>
    obtain ⟨x, hx, h⟩ := Option.bind_eq_some_iff.mp h
    obtain ⟨y, hy, hv⟩ := Option.bind_eq_some_iff.mp h
    rw [cValue, ihl hx, ihr hy]
    rw [Option.bind_some]
    split_ifs with hand hor
    · -- A zero on the left of `&&`.
      rw [hand.1, hand.2] at hv
      exact hv
    · obtain ⟨hty, hne⟩ := hor
      rw [hty] at hv
      rw [← hv]
      simp [TokenType.binOp, BinOp.value, ofBool, hne]
    · exact hv

/-! ## Levels -/

/-- The levels of C refine those of `expr`. -/
theorem TokenType.cLevel_spec (t : TokenType) :
    (t.level ≤ 3 → t.cLevel = t.level) ∧ (t.level = 4 → 4 ≤ t.cLevel ∧ t.cLevel ≤ 5) ∧
      (t.level = 5 → 6 ≤ t.cLevel ∧ t.cLevel ≤ 7) := by
  cases t <;> decide

theorem TokenType.cLevel_eq_iff (t : TokenType) :
    (t.cLevel = 4 ↔ t = .ge ∨ t = .le ∨ t = .gt ∨ t = .lt) ∧
      (t.cLevel = 5 ↔ t = .eq ∨ t = .neq) ∧ (t.cLevel = 6 ↔ t = .and) ∧
      (t.cLevel = 7 ↔ t = .or) := by
  cases t <;> decide

theorem Token.cLevel_of_binary (t : Token) (h : Token.is .binary t) :
    2 ≤ Token.cLevel t ∧ Token.cLevel t ≤ 7 := by
  obtain ⟨h2, h5⟩ := t.level_of_binary h
  obtain ⟨hlow, hmid, hhigh⟩ := t.type.cLevel_spec
  unfold Token.level at h2 h5
  unfold Token.cLevel
  rcases (by omega : t.type.level ≤ 3 ∨ t.type.level = 4 ∨ t.type.level = 5) with h | h | h
  · have := hlow h
    omega
  · have := hmid h
    omega
  · have := hhigh h
    omega

/-- The two levels of C for comparisons are one of `expr`, and so are those of `&&` and `||`. -/
theorem TokenType.level_spec (t : TokenType) :
    (t.cLevel = 4 ∨ t.cLevel = 5 → t.level = 4) ∧ (t.cLevel = 6 ∨ t.cLevel = 7 → t.level = 5) := by
  cases t <;> decide

theorem orBeforeAnd_iff {t u : Token} :
    OrBeforeAnd t u ↔ Token.cLevel t = 7 ∧ Token.cLevel u = 6 := by
  obtain ⟨-, -, -, h7⟩ := t.type.cLevel_eq_iff
  obtain ⟨-, -, h6, -⟩ := u.type.cLevel_eq_iff
  exact and_congr h7.symm h6.symm

theorem eqBeforeRel_iff {t u : Token} :
    EqBeforeRel t u ↔ Token.cLevel t = 5 ∧ Token.cLevel u = 4 := by
  obtain ⟨-, h5, -, -⟩ := t.type.cLevel_eq_iff
  obtain ⟨h4, -, -, -⟩ := u.type.cLevel_eq_iff
  exact and_congr h5.symm h4.symm

theorem binary_of_orBeforeAnd {t u : Token} (h : OrBeforeAnd t u) : Token.is .binary t := by
  have := t.type.level_spec.2 (Or.inr (orBeforeAnd_iff.mp h).1)
  exact Token.is_binary.mpr (by omega)

theorem binary_of_eqBeforeRel {t u : Token} (h : EqBeforeRel t u) : Token.is .binary t := by
  have := t.type.level_spec.1 (Or.inr (eqBeforeRel_iff.mp h).1)
  exact Token.is_binary.mpr (by omega)

/-- Two operators that `expr` takes in turn are in the wrong order for C in two cases. -/
theorem cLevel_le_iff {t u : Token} (ht : Token.is .binary t) (hu : Token.is .binary u)
    (h : Token.level u ≤ Token.level t) :
    Token.cLevel u ≤ Token.cLevel t ↔ ¬ OrBeforeAnd u t ∧ ¬ EqBeforeRel u t := by
  have h2 := Token.is_binary.mp hu
  have h5 := (t.level_of_binary ht).2
  have hct := t.type.cLevel_spec
  have hcu := u.type.cLevel_spec
  rw [orBeforeAnd_iff, eqBeforeRel_iff]
  unfold Token.level at h h5
  unfold Token.cLevel
  omega

/-- An operator of a tighter level of `expr` is tighter in C. -/
theorem cLevel_le_sub_one {t u : Token} (ht : Token.is .binary t)
    (h : Token.level u ≤ Token.level t - 1) : Token.cLevel u ≤ Token.cLevel t - 1 := by
  have ht' := t.level_of_binary ht
  have hct := t.type.cLevel_spec
  have hcu := u.type.cLevel_spec
  unfold Token.level at h ht'
  unfold Token.cLevel
  omega

/-! ## Windows around an operator -/

section

variable {w wl wr : List Token} {t : Token}

theorem not_level_five {u : Token} (hu : Token.is .binary u → Token.level u ≤ 4) :
    decide (u.type.level = 5) = false := by
  refine decide_eq_false fun h => ?_
  have := hu (Token.is_binary.mpr (by omega))
  unfold Token.level at this
  omega

/-- Without logical operators there is one chain of comparisons. -/
theorem cLike_iff (hw : ∀ u ∈ w, Token.is .binary u → Token.level u ≤ 4) :
    CLike w ↔ w.Pairwise (fun t u => ¬ OrBeforeAnd t u) ∧
      w.Pairwise fun t u => ¬ EqBeforeRel t u := by
  rw [CLike, List.splitOnP_eq_singleton fun u hu => not_level_five (hw u hu)]
  simp

/-- A window without binary operators. -/
theorem cLike_of_not_binary (hw : ∀ u ∈ w, ¬ Token.is .binary u) : CLike w := by
  have hlevel : ∀ u ∈ w, Token.cLevel u ≤ 1 := by
    intro u hu
    have h2 := mt Token.is_binary.mpr (hw u hu)
    have := u.type.cLevel_spec.1 (by omega)
    unfold Token.cLevel
    omega
  rw [cLike_iff fun u hu hb => absurd hb (hw u hu)]
  refine ⟨List.pairwise_of_forall_mem_list fun t ht u hu h => ?_,
    List.pairwise_of_forall_mem_list fun t ht u hu h => ?_⟩
  · have := hlevel t ht
    have := (orBeforeAnd_iff.mp h).1
    omega
  · have := hlevel t ht
    have := (eqBeforeRel_iff.mp h).1
    omega

/-- Pairs around a token are those on its two sides if nothing on the right comes second. -/
theorem pairwise_around {R : Token → Token → Prop} (hr : ∀ x, ∀ u ∈ wr, R x u) :
    (wl ++ t :: wr).Pairwise R ↔ wl.Pairwise R ∧ wr.Pairwise R ∧ ∀ u ∈ wl, R u t := by
  rw [List.pairwise_append, List.pairwise_cons]
  constructor
  · rintro ⟨hl, ⟨-, hwr⟩, hcross⟩
    exact ⟨hl, hwr, fun u hu => hcross u hu t (List.mem_cons_self ..)⟩
  · rintro ⟨hl, hwr, hcross⟩
    refine ⟨hl, ⟨hr t, hwr⟩, fun u hu x hx => ?_⟩
    rcases List.mem_cons.mp hx with rfl | hx
    · exact hcross u hu
    · exact hr u x hx

/-- What binds looser in C on the left of an operator is one of the two cases. -/
theorem cLevel_le_left_iff (ht : Token.is .binary t)
    (hl : ∀ u ∈ wl, Token.is .binary u → Token.level u ≤ Token.level t) :
    (∀ u ∈ wl, Token.is .binary u → Token.cLevel u ≤ Token.cLevel t) ↔
      (∀ u ∈ wl, ¬ OrBeforeAnd u t) ∧ ∀ u ∈ wl, ¬ EqBeforeRel u t := by
  constructor
  · intro h
    refine ⟨fun u hu hor => ?_, fun u hu heq => ?_⟩
    · have hb := binary_of_orBeforeAnd hor
      exact ((cLevel_le_iff ht hb (hl u hu hb)).mp (h u hu hb)).1 hor
    · have hb := binary_of_eqBeforeRel heq
      exact ((cLevel_le_iff ht hb (hl u hu hb)).mp (h u hu hb)).2 heq
  · rintro ⟨hor, heq⟩ u hu hb
    exact (cLevel_le_iff ht hb (hl u hu hb)).mpr ⟨hor u hu, heq u hu⟩

/-- Behind a logical operator, in its right operand, there is no other. -/
theorem not_orBeforeAnd_right (ht : Token.level t ≤ 5)
    (hr : ∀ u ∈ wr, Token.is .binary u → Token.level u ≤ Token.level t - 1) :
    ∀ x, ∀ u ∈ wr, ¬ OrBeforeAnd x u := by
  intro x u hu h
  have hlevel := u.type.level_spec.2 (Or.inl (orBeforeAnd_iff.mp h).2)
  have := hr u hu (Token.is_binary.mpr (by omega))
  unfold Token.level at this ht
  omega

/-- Behind a comparison or a tighter operator, in its right operand, there is no comparison. -/
theorem not_eqBeforeRel_right (ht : Token.level t ≤ 4)
    (hr : ∀ u ∈ wr, Token.is .binary u → Token.level u ≤ Token.level t - 1) :
    ∀ x, ∀ u ∈ wr, ¬ EqBeforeRel x u := by
  intro x u hu h
  have hlevel := u.type.level_spec.1 (Or.inl (eqBeforeRel_iff.mp h).2)
  have := hr u hu (Token.is_binary.mpr (by omega))
  unfold Token.level at this ht
  omega

/-- Around the loosest operator, that is the last of them, nothing on the left may bind looser in
C. -/
theorem cLike_around (ht : Token.is .binary t)
    (hl : ∀ u ∈ wl, Token.is .binary u → Token.level u ≤ Token.level t)
    (hr : ∀ u ∈ wr, Token.is .binary u → Token.level u ≤ Token.level t - 1) :
    CLike (wl ++ t :: wr) ↔ CLike wl ∧ CLike wr ∧
      ∀ u ∈ wl, Token.is .binary u → Token.cLevel u ≤ Token.cLevel t := by
  have h5 := (t.level_of_binary ht).2
  have hor := not_orBeforeAnd_right h5 hr
  rw [cLevel_le_left_iff ht hl]
  by_cases hlog : Token.level t = 5
  · -- The chains are those of the two sides, and a logical operator is no comparison.
    have heq : ∀ u ∈ wl, ¬ EqBeforeRel u t := by
      intro u _ h
      have := t.type.level_spec.1 (Or.inl (eqBeforeRel_iff.mp h).2)
      unfold Token.level at hlog
      omega
    have hsplit : decide (t.type.level = 5) = true := decide_eq_true hlog
    rw [CLike, CLike, CLike, pairwise_around hor,
      List.splitOnP_append_cons (p := fun t => decide (t.type.level = 5)) wl wr hsplit,
      List.forall_mem_append]
    tauto
  · -- There is one chain, through the operator.
    have hl4 : ∀ u ∈ wl, Token.is .binary u → Token.level u ≤ 4 := fun u hu hb => by
      have := hl u hu hb
      omega
    have hr4 : ∀ u ∈ wr, Token.is .binary u → Token.level u ≤ 4 := fun u hu hb => by
      have := hr u hu hb
      omega
    have hw4 : ∀ u ∈ wl ++ t :: wr, Token.is .binary u → Token.level u ≤ 4 :=
      List.forall_mem_append.mpr ⟨hl4, List.forall_mem_cons.mpr ⟨fun _ => by omega, hr4⟩⟩
    rw [cLike_iff hw4, cLike_iff hl4, cLike_iff hr4, pairwise_around hor,
      pairwise_around (not_eqBeforeRel_right (by omega) hr)]
    tauto

variable {e : OpTree Token} {k : ℕ}

/-- Without parentheses a tree that groups in `expr` groups in C, too, if and only if the operators
stand as in C. -/
theorem groups_c_iff (h : Groups Token.is Token.level 5 e k w)
    (hbare : ∀ u ∈ w, ¬ Token.is .lparen u) :
    Groups Token.is Token.cLevel 7 e 7 w ↔ CLike w := by
  have hlevel : ∀ t, Token.is .binary t → 2 ≤ Token.level t := fun t ht => (t.level_of_binary ht).1
  have hlevelC : ∀ t, Token.is .binary t → 2 ≤ Token.cLevel t := fun t ht =>
    (t.cLevel_of_binary ht).1
  induction h with
  | @atom t k ha =>
    refine iff_of_true (.atom 7 ha) (cLike_of_not_binary fun u hu hb => ?_)
    rw [List.mem_singleton.mp hu] at hb
    exact absurd (t.is_det _ _ ha hb) (by decide)
  | paren _ ho _ _ _ => exact absurd ho (hbare _ (by simp))
  | @unary e t w k hu hk hw ih =>
    have hbw : ∀ u ∈ w, ¬ Token.is .lparen u := fun u hu => hbare u (List.mem_cons_of_mem _ hu)
    -- A unary operator binds tighter than any binary one.
    have hnone : ∀ u ∈ w, ¬ Token.is .binary u := by
      intro u hu hb
      have := hw.level_le Token.is_det hlevel hbw hu hb
      have := hlevel u hb
      omega
    refine iff_of_true (.unary hu (by decide) ?_) (cLike_of_not_binary fun u hmem hb => ?_)
    · exact ((ih hbw).mpr (cLike_of_not_binary hnone)).tighten (Nat.le_refl 1)
        fun u hu hb => absurd hb (hnone u hu)
    · rcases List.mem_cons.mp hmem with rfl | hmem
      · exact absurd (u.is_det _ _ hu hb) (by decide)
      · exact hnone u hmem hb
  | @binary l r t wl wr k hb hk hl hr ihl ihr =>
    have hbl : ∀ u ∈ wl, ¬ Token.is .lparen u := fun u hu => hbare u (List.mem_append_left _ hu)
    have hbr : ∀ u ∈ wr, ¬ Token.is .lparen u := fun u hu =>
      hbare u (List.mem_append_right _ (List.mem_cons_of_mem _ hu))
    have hll := fun u hu hb => hl.level_le Token.is_det hlevel hbl (t := u) hu hb
    have hlr := fun u hu hb => hr.level_le Token.is_det hlevel hbr (t := u) hu hb
    rw [cLike_around hb hll hlr]
    constructor
    · intro h
      obtain ⟨hl', hr'⟩ := h.operands hbare (hl.eq_flatten hbl)
      have h7 := (t.cLevel_of_binary hb).2
      exact ⟨(ihl hbl).mp (hl'.mono h7), (ihr hbr).mp (hr'.mono (by omega)),
        fun u hu hb' => hl'.level_le Token.is_det hlevelC hbl hu hb'⟩
    · rintro ⟨hl', hr', hcross⟩
      have h2 := hlevelC t hb
      refine .binary hb (t.cLevel_of_binary hb).2 (((ihl hbl).mpr hl').tighten (by omega) hcross)
        (((ihr hbr).mpr hr').tighten (by omega) fun u hu hb' => ?_)
      exact cLevel_le_sub_one hb (hlr u hu hb')

end

/-- The operators told apart are no parentheses. -/
theorem reclassify_bare {ts : List Token} {prev : Bool} (h : ∀ t ∈ ts, t.type ≠ .lparen) :
    ∀ t ∈ reclassify prev ts, ¬ Token.is .lparen t := by
  induction ts generalizing prev with
  | nil => exact fun t ht => absurd ht List.not_mem_nil
  | cons t ts ih =>
    rw [List.forall_mem_cons] at h
    rw [reclassify]
    refine List.forall_mem_cons.mpr ⟨fun hl => ?_, ih h.2⟩
    have hl' := Token.is_lparen.mp hl
    dsimp only at hl'
    split_ifs at hl'
    exact h.1 hl'

/-! ## The law -/

/-- For every expression without parentheses: `expr` returns the value of the one tree that groups
it by the levels of `FindMainOP`, if the tokens fit. This is the one tree of C if and only if the
operators stand as in C, and then a value that `expr` returns is the one of C. -/
theorem expr_bare (g : Guest) {e : List Char} (ha : Accepted e)
    (hbare : ∀ t ∈ tokensOf e, t.type ≠ .lparen) :
    ∃ c d : OpTree Token,
      (∀ t, Groups Token.is Token.level 5 t 5 (operandTokens e) ↔ t = c) ∧
      (∀ t, Groups Token.is Token.cLevel 7 t 7 (operandTokens e) ↔ t = d) ∧
      (Fits 0 e → (∀ t ∈ tokensOf e, t.str.length < 32) → expr g e = resultOf (treeValue g c)) ∧
      (c = d ↔ CLike (operandTokens e)) ∧
      (CLike (operandTokens e) → ∀ v, expr g e = .ok v → cValue g d = some v) := by
  obtain ⟨hc, hw⟩ := ha
  have hlevel : ∀ t, Token.is .binary t → 2 ≤ Token.level t := fun t ht => (t.level_of_binary ht).1
  have hlevelC : ∀ t, Token.is .binary t → 2 ≤ Token.cLevel t := fun t ht =>
    (t.cLevel_of_binary ht).1
  have hd : Derives Token.is (operandTokens e) := (wellFormed_iff (tokensOf_lexed e)).mp hw
  have hbare' : ∀ t ∈ operandTokens e, ¬ Token.is .lparen t := reclassify_bare hbare
  obtain ⟨c, hgc⟩ := hd.exists_groups Token.level_of_binary (by decide)
  obtain ⟨d, hgd⟩ := hd.exists_groups Token.cLevel_of_binary (by decide)
  have hexpr : Fits 0 e → (∀ t ∈ tokensOf e, t.str.length < 32) →
      expr g e = resultOf (treeValue g c) := fun hf hlen => by
    rw [expr_eq_eval hc hf hlen, groups_eval hgc]
  -- The tree of `expr` groups in C exactly if it is the tree of C.
  have hiff : c = d ↔ CLike (operandTokens e) := by
    rw [← groups_c_iff hgc hbare']
    constructor
    · rintro rfl
      exact hgd
    · intro h
      exact h.unique Token.is_det hlevelC hbare' hgd
  refine ⟨c, d, fun t => ⟨fun ht => ht.unique Token.is_det hlevel hbare' hgc, ?_⟩,
    fun t => ⟨fun ht => ht.unique Token.is_det hlevelC hbare' hgd, ?_⟩, hexpr, hiff,
    fun hlike v hv => ?_⟩
  · rintro rfl
    exact hgc
  · rintro rfl
    exact hgd
  · obtain ⟨-, hf, hlen⟩ := split_of_expr_ok hv
    rw [← hiff.mpr hlike]
    rw [hexpr hf hlen] at hv
    rcases hval : treeValue g c with - | x
    · rw [hval] at hv
      exact absurd hv (by simp [resultOf])
    · rw [hval] at hv
      rw [← Except.ok.inj hv]
      exact cValue_eq hval

/-- The token of a digit. -/
def digit (c : Char) : Token := ⟨.dec, [c]⟩

/-- The expression `1<2||3`. -/
theorem expr_bare_less_or :
    ∃ c d : OpTree Token,
      (∀ t, Groups Token.is Token.level 5 t 5 (operandTokens "1<2||3".toList) ↔ t = c) ∧
      (∀ t, Groups Token.is Token.cLevel 7 t 7 (operandTokens "1<2||3".toList) ↔ t = d) ∧
      (Fits 0 "1<2||3".toList → (∀ t ∈ tokensOf "1<2||3".toList, t.str.length < 32) →
        expr numbered "1<2||3".toList = resultOf (treeValue numbered c)) ∧
      (c = d ↔ CLike (operandTokens "1<2||3".toList)) ∧
      (CLike (operandTokens "1<2||3".toList) → ∀ v, expr numbered "1<2||3".toList = .ok v →
        cValue numbered d = some v) := by
  have hl : lexemes "1<2||3".toList =
      ([digit '1', BinOp.lt.token, digit '2', BinOp.or.token, digit '3'], true) :=
    lexemes_step 1 rfl (lexemes_step 1 rfl (lexemes_step 1 rfl (lexemes_step 2 rfl
      (lexemes_step 1 rfl lexemes_nil))))
  have ht : tokensOf "1<2||3".toList =
      [digit '1', BinOp.lt.token, digit '2', BinOp.or.token, digit '3'] := by
    rw [tokensOf, hl]
    rfl
  have hw : WellFormed (([digit '1'] ++ BinOp.lt.token :: [digit '2']) ++
      BinOp.or.token :: [digit '3']) :=
    .binary (Or.inl rfl) (.binary (Or.inl rfl) (.atom (Or.inl rfl)) (.atom (Or.inl rfl)))
      (.atom (Or.inl rfl))
  refine expr_bare numbered ⟨by rw [Complete, hl], by rw [ht]; exact hw⟩ ?_
  rw [ht]
  decide

/-- The tree of C for `1||0&&0`. -/
def orAnd : OpTree Token :=
  .binary BinOp.or.token (.atom (digit '1'))
    (.binary BinOp.and.token (.atom (digit '0')) (.atom (digit '0')))

/-- The tree of C for `2==1<1`. -/
def eqLess : OpTree Token :=
  .binary BinOp.eq.token (.atom (digit '2'))
    (.binary BinOp.lt.token (.atom (digit '1')) (.atom (digit '1')))

/-- The tree of C for `0&&1/0`. -/
def andDiv : OpTree Token :=
  .binary BinOp.and.token (.atom (digit '0'))
    (.binary BinOp.div.token (.atom (digit '1')) (.atom (digit '0')))

section

variable {level : Token → ℕ} {top : ℕ} (x y z : Char) (t u : BinOp)

/-- Three digits that are grouped from the left. -/
theorem groups_left (h : level t.token ≤ level u.token) (htop : level u.token ≤ top) :
    Groups Token.is level top
      (.binary u.token (.binary t.token (.atom (digit x)) (.atom (digit y))) (.atom (digit z))) top
      [digit x, t.token, digit y, u.token, digit z] :=
  have hl : Groups Token.is level top (.binary t.token (.atom (digit x)) (.atom (digit y)))
      (level u.token) ([digit x] ++ t.token :: [digit y]) :=
    .binary t.is_binary h (.atom _ rfl) (.atom _ rfl)
  .binary u.is_binary htop hl (.atom _ rfl)

/-- Three digits of which the last two are grouped first. -/
theorem groups_right (h : level u.token ≤ level t.token - 1) (htop : level t.token ≤ top) :
    Groups Token.is level top
      (.binary t.token (.atom (digit x)) (.binary u.token (.atom (digit y)) (.atom (digit z)))) top
      [digit x, t.token, digit y, u.token, digit z] :=
  have hl : Groups Token.is level top (.atom (digit x)) (level t.token) [digit x] := .atom _ rfl
  have hr : Groups Token.is level top (.binary u.token (.atom (digit y)) (.atom (digit z)))
      (level t.token - 1) ([digit y] ++ u.token :: [digit z]) :=
    .binary u.is_binary h (.atom _ rfl) (.atom _ rfl)
  .binary t.is_binary htop hl hr

end

/-- A `&&` behind a `||`. -/
theorem orAnd_not_c : expr numbered "1||0&&0".toList = .ok 0#32 ∧
    Groups Token.is Token.cLevel 7 orAnd 7 (operandTokens "1||0&&0".toList) ∧
    cValue numbered orAnd = some 1#32 := by
  have hl : lexemes "1||0&&0".toList =
      ([digit '1', BinOp.or.token, digit '0', BinOp.and.token, digit '0'], true) :=
    lexemes_step 1 rfl (lexemes_step 2 rfl (lexemes_step 1 rfl (lexemes_step 2 rfl
      (lexemes_step 1 rfl lexemes_nil))))
  refine ⟨?_, ?_, rfl⟩
  · rw [expr_of_lexemes hl (by decide) (by decide)]
    exact groups_eval (groups_left '1' '0' '0' .or .and (by decide) (by decide))
  · rw [operandTokens_of_lexemes hl]
    exact groups_right '1' '0' '0' .or .and (by decide) (by decide)

/-- A relational comparison behind an equality. -/
theorem eqLess_not_c : expr numbered "2==1<1".toList = .ok 1#32 ∧
    Groups Token.is Token.cLevel 7 eqLess 7 (operandTokens "2==1<1".toList) ∧
    cValue numbered eqLess = some 0#32 := by
  have hl : lexemes "2==1<1".toList =
      ([digit '2', BinOp.eq.token, digit '1', BinOp.lt.token, digit '1'], true) :=
    lexemes_step 1 rfl (lexemes_step 2 rfl (lexemes_step 1 rfl (lexemes_step 1 rfl
      (lexemes_step 1 rfl lexemes_nil))))
  refine ⟨?_, ?_, rfl⟩
  · rw [expr_of_lexemes hl (by decide) (by decide)]
    exact groups_eval (groups_left '2' '1' '1' .eq .lt (by decide) (by decide))
  · rw [operandTokens_of_lexemes hl]
    exact groups_right '2' '1' '1' .eq .lt (by decide) (by decide)

/-- A division by zero that C does not evaluate. -/
theorem andDiv_not_c : expr numbered "0&&1/0".toList = .error .fault ∧
    Groups Token.is Token.cLevel 7 andDiv 7 (operandTokens "0&&1/0".toList) ∧
    cValue numbered andDiv = some 0#32 := by
  have hl : lexemes "0&&1/0".toList =
      ([digit '0', BinOp.and.token, digit '1', BinOp.div.token, digit '0'], true) :=
    lexemes_step 1 rfl (lexemes_step 2 rfl (lexemes_step 1 rfl (lexemes_step 1 rfl
      (lexemes_step 1 rfl lexemes_nil))))
  refine ⟨?_, ?_, rfl⟩
  · rw [expr_of_lexemes hl (by decide) (by decide)]
    exact groups_eval (groups_right '0' '1' '0' .and .div (by decide) (by decide))
  · rw [operandTokens_of_lexemes hl]
    exact groups_right '0' '1' '0' .and .div (by decide) (by decide)

/-- Three expressions to which `expr` does not give the value of C. -/
theorem expr_not_c :
    (expr numbered "1||0&&0".toList = .ok 0#32 ∧
      Groups Token.is Token.cLevel 7 orAnd 7 (operandTokens "1||0&&0".toList) ∧
      cValue numbered orAnd = some 1#32) ∧
    (expr numbered "2==1<1".toList = .ok 1#32 ∧
      Groups Token.is Token.cLevel 7 eqLess 7 (operandTokens "2==1<1".toList) ∧
      cValue numbered eqLess = some 0#32) ∧
    (expr numbered "0&&1/0".toList = .error .fault ∧
      Groups Token.is Token.cLevel 7 andDiv 7 (operandTokens "0&&1/0".toList) ∧
      cValue numbered andDiv = some 0#32) :=
  ⟨orAnd_not_c, eqLess_not_c, andDiv_not_c⟩

end RV32Pipeline
