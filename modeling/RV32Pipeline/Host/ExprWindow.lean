import RV32Pipeline.Host.Expr
import RV32Pipeline.Lib.Precedence

/-!
# Windows of tokens

What `check_parenthesis` and `FindMainOP` do on a window, in the terms of `Precedence`: the count of
`check_parenthesis` is zero on nested parentheses, and it matches those in which the whole window
stands. `FindMainOP` finds the main operator of a window with nested parentheses, and asserts in
every other one. So a window has one of a few shapes (`WindowShape`), with an equation for `eval` on
each.
-/

namespace RV32Pipeline

open Precedence

/-! ## Kinds of tokens -/

/-- What a token is in an expression. -/
def TokenType.kind : TokenType → Option Kind
  | .dec | .hex | .reg => some .atom
  | .neg | .deref => some .unary
  | .plus | .minus | .star | .slash => some .binary
  | .eq | .neq | .ge | .le | .gt | .lt | .and | .or => some .binary
  | .lparen => some .lparen
  | .rparen => some .rparen
  | .notype => none

/-- The tokens of a kind. -/
def Token.is (k : Kind) (t : Token) : Prop := t.type.kind = some k

/-- The level of a token. -/
def Token.level (t : Token) : ℕ := t.type.level

theorem Token.is_det (t : Token) (k k' : Kind) (h : Token.is k t) (h' : Token.is k' t) : k = k' :=
  Option.some.inj (h.symm.trans h')

theorem TokenType.kind_level (t : TokenType) :
    (t.kind = some .unary ↔ t.level = 1) ∧ (t.kind = some .binary ↔ 2 ≤ t.level) ∧ t.level ≤ 5 := by
  cases t <;> decide

theorem TokenType.kind_paren (t : TokenType) :
    (t.kind = some .lparen ↔ t = .lparen) ∧ (t.kind = some .rparen ↔ t = .rparen) := by
  cases t <;> decide

theorem Token.is_unary {t : Token} : Token.is .unary t ↔ t.type.level = 1 := t.type.kind_level.1

theorem Token.is_binary {t : Token} : Token.is .binary t ↔ 2 ≤ t.type.level :=
  t.type.kind_level.2.1

theorem Token.is_lparen {t : Token} : Token.is .lparen t ↔ t.type = .lparen := t.type.kind_paren.1

theorem Token.is_rparen {t : Token} : Token.is .rparen t ↔ t.type = .rparen := t.type.kind_paren.2

/-- The levels of the binary operators. -/
theorem Token.level_of_binary (t : Token) (h : Token.is .binary t) :
    2 ≤ Token.level t ∧ Token.level t ≤ 5 := ⟨Token.is_binary.mp h, t.type.kind_level.2.2⟩

theorem Token.not_lparen_of_rparen {t : Token} (h : Token.is .rparen t) : t.type ≠ .lparen := by
  rw [Token.is_rparen.mp h]
  exact TokenType.noConfusion

/-! ## `check_parenthesis` -/

/-- How many parentheses are open behind a window. -/
def parenDepth (w : List Token) : ℤ :=
  (w.countP fun t => t.type = .lparen : ℕ) - (w.countP fun t => t.type = .rparen : ℕ)

theorem parenDepth_append (v w : List Token) :
    parenDepth (v ++ w) = parenDepth v + parenDepth w := by
  simp only [parenDepth, List.countP_append, Nat.cast_add]
  omega

theorem parenDepth_cons (t : Token) (ts : List Token) :
    parenDepth (t :: ts) =
      (if t.type = .lparen then 1 else if t.type = .rparen then -1 else 0) + parenDepth ts := by
  unfold parenDepth
  rw [List.countP_cons, List.countP_cons]
  split_ifs with hl hr hr <;> simp_all <;> omega

/-- The loop adds up the parentheses. -/
theorem parenLoop_fst (w : List Token) (i : ℤ) (flag : Bool) :
    (parenLoop w i flag).1 = i + parenDepth w := by
  induction w generalizing i flag with
  | nil => exact (Int.add_zero i).symm
  | cons t ts ih =>
    rw [parenLoop, ih, parenDepth_cons]
    split_ifs <;> omega

/-- The flag stays up. -/
theorem parenLoop_snd (w : List Token) (i : ℤ) : (parenLoop w i true).2 = true := by
  induction w generalizing i with
  | nil => rfl
  | cons t ts ih =>
    rw [parenLoop, Bool.true_or]
    exact ih _

/-- A window in which the numbers of the two parentheses differ. -/
theorem checkParenthesis_invalid {w : List Token} :
    checkParenthesis w = .invalid ↔ parenDepth w ≠ 0 := by
  have hfst := parenLoop_fst w 0 false
  rw [Int.zero_add] at hfst
  simp only [checkParenthesis, hfst]
  split_ifs <;> simp_all

section

variable {P : Token → Prop} {v w : List Token}

/-- Nested parentheses come to the count they started with. -/
theorem parenDepth_nested (h : Outer Token.is P w) : parenDepth w = 0 := by
  induction h with
  | nil P => rfl
  | token hl hr _ _ ih =>
    rw [parenDepth_cons, ih, if_neg (mt Token.is_lparen.mpr hl), if_neg (mt Token.is_rparen.mpr hr)]
    rfl
  | @paren _ o c _ _ ho hc _ _ ihv ihw =>
    have hc' := Token.not_lparen_of_rparen hc
    rw [List.cons_append, parenDepth_cons, parenDepth_append, parenDepth_cons, ihv, ihw,
      if_pos (Token.is_lparen.mp ho), if_neg hc', if_pos (Token.is_rparen.mp hc)]
    rfl

/-- Inside parentheses the loop passes nested ones. -/
theorem parenLoop_inside (h : Outer Token.is P w) (rest : List Token) {i : ℤ} (hi : 1 ≤ i)
    (flag : Bool) : parenLoop (w ++ rest) i flag = parenLoop rest i flag := by
  have hz : ∀ i : ℤ, 1 ≤ i → (i == 0) = false := fun i hi => beq_false_of_ne (by omega)
  induction h generalizing rest i flag with
  | nil P => rfl
  | token hl hr _ _ ih =>
    rw [List.cons_append, parenLoop, if_neg (mt Token.is_lparen.mpr hl),
      if_neg (mt Token.is_rparen.mpr hr), hz i hi, Bool.false_and, Bool.or_false]
    exact ih rest hi flag
  | @paren _ o c _ _ ho hc _ _ ihv ihw =>
    have hc' := Token.not_lparen_of_rparen hc
    rw [List.cons_append, List.cons_append, List.append_assoc, parenLoop,
      if_pos (Token.is_lparen.mp ho), hz (i + 1) (by omega), Bool.false_and, Bool.or_false]
    rw [ihv _ (by omega), List.cons_append, parenLoop, if_neg hc', if_pos (Token.is_rparen.mp hc),
      Int.add_sub_cancel, hz i hi, Bool.false_and, Bool.or_false]
    exact ihw rest hi flag

/-- The loop comes to its last token with the count `i`, and does not find the count zero before. -/
theorem checkParenthesis_matched {o c : Token} (ho : Token.is .lparen o) (hc : Token.is .rparen c)
    (h : Outer Token.is P w) : checkParenthesis (o :: w ++ [c]) = .matched := by
  have hc' := Token.not_lparen_of_rparen hc
  have hl : parenLoop (o :: w ++ [c]) 0 false = (0, false) := by
    rw [List.cons_append, parenLoop, if_pos (Token.is_lparen.mp ho)]
    rw [show ((0 : ℤ) + 1 == 0) = false from rfl, Bool.false_and, Bool.or_false,
      parenLoop_inside h _ (by omega), parenLoop, if_neg hc', if_pos (Token.is_rparen.mp hc)]
    rfl
  have hlast : (o :: w ++ [c]).getLast? = some c := List.getLast?_concat
  rw [checkParenthesis, hl, hlast]
  simp [Token.is_lparen.mp ho, Token.is_rparen.mp hc]

/-- Behind nested parentheses the count is zero, and then the flag is up if something follows. -/
theorem parenLoop_outside (h : Outer Token.is P w) (hne : w ≠ []) {rest : List Token}
    (hrest : rest ≠ []) (flag : Bool) : parenLoop (w ++ rest) 0 flag = parenLoop rest 0 true := by
  have hup : ∀ (ts : List Token) (flag : Bool), ts ≠ [] →
      (flag || ((0 : ℤ) == 0 && !ts.isEmpty)) = true := by
    intro ts flag hts
    rw [List.isEmpty_eq_false_iff.mpr hts]
    simp
  induction h generalizing flag with
  | nil P => exact absurd rfl hne
  | @token _ t w hl hr _ _ ih =>
    rw [List.cons_append, parenLoop, if_neg (mt Token.is_lparen.mpr hl),
      if_neg (mt Token.is_rparen.mpr hr)]
    rw [hup _ _ (List.append_ne_nil_of_right_ne_nil w hrest)]
    by_cases hw : w = []
    · rw [hw, List.nil_append]
    · exact ih hw true
  | @paren _ o c v w ho hc hv _ _ ihw =>
    have hc' := Token.not_lparen_of_rparen hc
    rw [List.cons_append, List.cons_append, List.append_assoc, parenLoop,
      if_pos (Token.is_lparen.mp ho)]
    rw [show ((0 : ℤ) + 1 == 0) = false from rfl, Bool.false_and, Bool.or_false,
      parenLoop_inside hv _ (by omega), List.cons_append, parenLoop, if_neg hc',
      if_pos (Token.is_rparen.mp hc)]
    rw [show (0 : ℤ) + 1 - 1 = 0 from rfl, hup _ _ (List.append_ne_nil_of_right_ne_nil w hrest)]
    by_cases hw : w = []
    · rw [hw, List.nil_append]
    · exact ihw hw true

/-- Two windows one behind the other do not stand in one pair of parentheses. -/
theorem checkParenthesis_append (hv : Outer Token.is P v) (hw : Outer Token.is P w) (hvne : v ≠ [])
    (hwne : w ≠ []) : checkParenthesis (v ++ w) = .dismatch := by
  have hfst := parenLoop_fst (v ++ w) 0 false
  rw [parenDepth_append, parenDepth_nested hv, parenDepth_nested hw] at hfst
  have hsnd : (parenLoop (v ++ w) 0 false).2 = true := by
    rw [parenLoop_outside hv hvne hwne]
    exact parenLoop_snd w 0
  rw [checkParenthesis, hfst, hsnd]
  simp

/-! ## `FindMainOP` -/

/-- Inside parentheses the loop passes nested ones. -/
theorem findMainOP_inside (h : Outer Token.is P w) (rest : List Token) (i layer : ℕ)
    (m : Option (TokenType × ℕ)) :
    findMainOP (w ++ rest) i (layer + 1) m = findMainOP rest (i + w.length) (layer + 1) m := by
  induction h generalizing rest i layer with
  | nil P => rfl
  | token hl hr _ _ ih =>
    rw [List.cons_append, findMainOP, if_neg (mt Token.is_lparen.mpr hl),
      if_neg (mt Token.is_rparen.mpr hr), ih, List.length_cons]
    congr 1
    omega
  | @paren _ o c _ _ ho hc _ _ ihv ihw =>
    have hc' := Token.not_lparen_of_rparen hc
    rw [List.cons_append, List.cons_append, List.append_assoc, findMainOP,
      if_pos (Token.is_lparen.mp ho), ihv, List.cons_append, findMainOP, if_neg hc',
      if_pos (Token.is_rparen.mp hc), ihw]
    congr 1
    simp only [List.length_append, List.length_cons]
    omega

/-- A window in parentheses is passed. -/
theorem findMainOP_paren {o c : Token} (ho : Token.is .lparen o) (hc : Token.is .rparen c)
    (h : Outer Token.is P v) (rest : List Token) (i : ℕ) (m : Option (TokenType × ℕ)) :
    findMainOP (o :: (v ++ c :: rest)) i 0 m = findMainOP rest (i + v.length + 2) 0 m := by
  have hc' := Token.not_lparen_of_rparen hc
  rw [findMainOP, if_pos (Token.is_lparen.mp ho), findMainOP_inside h, findMainOP, if_neg hc',
    if_pos (Token.is_rparen.mp hc)]
  congr 1
  omega

/-- An operator outside parentheses. -/
theorem findMainOP_token {t : Token} (hl : ¬ Token.is .lparen t) (hr : ¬ Token.is .rparen t)
    (ts : List Token) (i : ℕ) (m : Option (TokenType × ℕ)) :
    findMainOP (t :: ts) i 0 m = findMainOP ts (i + 1) 0 (takeOp t.type i m) := by
  rw [findMainOP, if_neg (mt Token.is_lparen.mpr hl), if_neg (mt Token.is_rparen.mpr hr)]

/-- The main operator found before stays if none of the operators takes over. -/
theorem findMainOP_keep (h : Outer Token.is P w) {m : Option (TokenType × ℕ)}
    (hP : ∀ t, P t → ∀ i, takeOp t.type i m = m) (rest : List Token) (i : ℕ) :
    findMainOP (w ++ rest) i 0 m = findMainOP rest (i + w.length) 0 m := by
  induction h generalizing i with
  | nil P => rfl
  | token hl hr ht _ ih =>
    rw [List.cons_append, findMainOP_token hl hr, hP _ ht, ih hP, List.length_cons]
    congr 1
    omega
  | paren ho hc hv _ _ ih =>
    rw [List.append_assoc, List.cons_append, List.cons_append, findMainOP_paren ho hc hv, ih hP]
    congr 1
    simp only [List.length_append, List.length_cons]
    omega

theorem takeOp_none {t : TokenType} (h : t.level = 0) (i : ℕ) (m : Option (TokenType × ℕ)) :
    takeOp t i m = m := by
  rw [takeOp, h]
  rfl

theorem takeOp_unary {t : TokenType} (h : t.level = 1) (i : ℕ) (m : Option (TokenType × ℕ)) :
    takeOp t i m = if m = none then some (t, i) else m := by
  rw [takeOp, h]
  rfl

theorem takeOp_binary {t : TokenType} (h : 2 ≤ t.level) (i : ℕ) (m : Option (TokenType × ℕ)) :
    takeOp t i m = if mainLevel m ≤ t.level then some (t, i) else m := by
  obtain ⟨n, hn⟩ : ∃ n, t.level = n + 2 := ⟨t.level - 2, by omega⟩
  rw [takeOp, hn]
  rfl

/-- An operator of level `k` at most leaves a main operator of level `k` at most. -/
theorem mainLevel_takeOp {t : TokenType} {k : ℕ} (hk : 1 ≤ k) (ht : 2 ≤ t.level → t.level ≤ k)
    {m : Option (TokenType × ℕ)} (hm : mainLevel m ≤ k) (i : ℕ) :
    mainLevel (takeOp t i m) ≤ k := by
  rcases (by omega : t.level = 0 ∨ t.level = 1 ∨ 2 ≤ t.level) with h | h | h
  · rw [takeOp_none h]
    exact hm
  · rw [takeOp_unary h]
    split_ifs
    · exact Nat.le_trans (Nat.le_of_eq h) hk
    · exact hm
  · rw [takeOp_binary h]
    split_ifs
    · exact ht h
    · exact hm

/-- The main operator of a window has at most the level of its operators. -/
theorem findMainOP_level {k : ℕ} (h : Outer Token.is P w) (hk : 1 ≤ k)
    (hP : ∀ t, P t → Token.is .binary t → Token.level t ≤ k) {m : Option (TokenType × ℕ)}
    (hm : mainLevel m ≤ k) (rest : List Token) (i : ℕ) :
    ∃ m', findMainOP (w ++ rest) i 0 m = findMainOP rest (i + w.length) 0 m' ∧
      mainLevel m' ≤ k := by
  induction h generalizing i m with
  | nil P => exact ⟨m, rfl, hm⟩
  | @token _ t w hl hr ht _ ih =>
    have hm' := mainLevel_takeOp hk (fun h => hP t ht (Token.is_binary.mpr h)) hm i
    obtain ⟨m', hf, hm''⟩ := ih hP hm' (i + 1)
    refine ⟨m', ?_, hm''⟩
    rw [List.cons_append, findMainOP_token hl hr, hf, List.length_cons]
    congr 1
    omega
  | @paren _ o c v w ho hc hv _ _ ih =>
    obtain ⟨m', hf, hm'⟩ := ih hP hm (i + v.length + 2)
    refine ⟨m', ?_, hm'⟩
    rw [List.append_assoc, List.cons_append, List.cons_append, findMainOP_paren ho hc hv, hf]
    congr 1
    simp only [List.length_append, List.length_cons]
    omega

end

/-- A token that is no binary operator, or one that binds tighter, does not take over. -/
theorem takeOp_keep {t : TokenType} {m : Option (TokenType × ℕ)} (hm : m ≠ none)
    (ht : 2 ≤ t.level → t.level < mainLevel m) (i : ℕ) : takeOp t i m = m := by
  rcases (by omega : t.level = 0 ∨ t.level = 1 ∨ 2 ≤ t.level) with h | h | h
  · exact takeOp_none h i m
  · rw [takeOp_unary h, if_neg hm]
  · have := ht h
    rw [takeOp_binary h, if_neg (by omega)]

/-- A window without operators outside parentheses has no main operator. -/
theorem findMainOP_none {w : List Token}
    (h : Outer Token.is (fun u => ¬ Token.is .unary u ∧ ¬ Token.is .binary u) w) :
    findMainOP w 0 0 none = .ok none := by
  have hkeep := findMainOP_keep h (m := none) (fun t ht i => takeOp_none ?_ i none) [] 0
  · rw [List.append_nil] at hkeep
    rw [hkeep, findMainOP]
  · have h1 := mt Token.is_unary.mpr ht.1
    have h2 := mt Token.is_binary.mpr ht.2
    omega

/-- The loop finds the main operator. -/
theorem findMainOP_main {wl wr : List Token} {t : Token} (h : Main Token.is Token.level wl t wr) :
    findMainOP (wl ++ t :: wr) 0 0 none = .ok (some (t.type, wl.length)) := by
  have hnp : ∀ {k}, Token.is k t → ∀ k', k ≠ k' → ¬ Token.is k' t := fun h _ hne h' =>
    hne (t.is_det _ _ h h')
  -- Behind the operator nothing takes over.
  have hright : ∀ P : Token → Prop, Outer Token.is P wr →
      (∀ u, P u → Token.is .binary u → Token.level u < Token.level t) →
      findMainOP wr (wl.length + 1) 0 (some (t.type, wl.length)) =
        .ok (some (t.type, wl.length)) := by
    intro P hP hlt
    have hmain : mainLevel (some (t.type, wl.length)) = Token.level t := rfl
    have hkeep := findMainOP_keep hP (m := some (t.type, wl.length)) (fun u hu i =>
      takeOp_keep (by simp) (fun h2 => by rw [hmain]; exact hlt u hu (Token.is_binary.mpr h2)) i) []
      (wl.length + 1)
    rw [List.append_nil] at hkeep
    rw [hkeep, findMainOP]
  cases h with
  | unary ht hl hr =>
    have hkeep := findMainOP_keep hl (m := none) (fun u hu i => takeOp_none (by
      have h1 := mt Token.is_unary.mpr hu.1
      have h2 := mt Token.is_binary.mpr hu.2
      omega) i none) (t :: wr) 0
    rw [hkeep, Nat.zero_add, findMainOP_token (hnp ht _ (by decide)) (hnp ht _ (by decide)),
      takeOp_unary (Token.is_unary.mp ht), if_pos rfl]
    exact hright _ hr fun u hu hb => absurd hb hu
  | binary ht hl hr =>
    obtain ⟨m, hm, hlevel⟩ := findMainOP_level hl (k := Token.level t)
      (by have := (t.level_of_binary ht).1; omega) (fun u hu hb => hu hb) (m := none)
      (Nat.zero_le _) (t :: wr) 0
    rw [hm, Nat.zero_add, findMainOP_token (hnp ht _ (by decide)) (hnp ht _ (by decide)),
      takeOp_binary (Token.is_binary.mp ht), if_pos (show mainLevel m ≤ t.type.level from hlevel)]
    exact hright _ hr fun u hu hb => hu hb

/-- The windows that close `n` parentheses more than they open, and are nested between these. -/
def Closes : ℕ → List Token → Prop
  | 0, w => Nested Token.is w
  | n + 1, w => ∃ v c w', w = v ++ c :: w' ∧ Token.is .rparen c ∧ Nested Token.is v ∧ Closes n w'

/-- A token before a window that is no parenthesis. -/
theorem closes_token {t : Token} {w : List Token} {n : ℕ} (hl : ¬ Token.is .lparen t)
    (hr : ¬ Token.is .rparen t) (h : Closes n w) : Closes n (t :: w) := by
  cases n with
  | zero => exact .token hl hr trivial h
  | succ n =>
    obtain ⟨v, c, w', rfl, hc, hv, hw'⟩ := h
    exact ⟨t :: v, c, w', rfl, hc, .token hl hr trivial hv, hw'⟩

/-- A left parenthesis before a window goes with the first one that is closed. -/
theorem closes_lparen {o : Token} {w : List Token} {n : ℕ} (ho : Token.is .lparen o)
    (h : Closes (n + 1) w) : Closes n (o :: w) := by
  obtain ⟨v, c, w', rfl, hc, hv, hw'⟩ := h
  cases n with
  | zero => exact .paren ho hc hv hw'
  | succ n =>
    obtain ⟨v', c', w'', rfl, hc', hv', hw''⟩ := hw'
    exact ⟨o :: v ++ c :: v', c', w'', by simp, hc', .paren ho hc hv hv', hw''⟩

/-- The loop comes through only if all parentheses are closed. -/
theorem findMainOP_cases (w : List Token) (i layer : ℕ) (m : Option (TokenType × ℕ)) :
    findMainOP w i layer m = .error .fault ∨ Closes layer w := by
  induction w generalizing i layer m with
  | nil =>
    cases layer with
    | zero => exact Or.inr (.nil _)
    | succ layer => exact Or.inl rfl
  | cons t ts ih =>
    by_cases hl : t.type = .lparen
    · cases layer with
      | zero =>
        rw [findMainOP, if_pos hl]
        exact (ih _ _ _).imp_right (closes_lparen (Token.is_lparen.mpr hl))
      | succ layer =>
        rw [findMainOP, if_pos hl]
        exact (ih _ _ _).imp_right (closes_lparen (Token.is_lparen.mpr hl))
    by_cases hr : t.type = .rparen
    · cases layer with
      | zero =>
        rw [findMainOP, if_neg hl, if_pos hr]
        exact Or.inl rfl
      | succ layer =>
        rw [findMainOP, if_neg hl, if_pos hr]
        exact (ih _ _ _).imp_right fun h => ⟨[], t, ts, rfl, Token.is_rparen.mpr hr, .nil _, h⟩
    · have htoken := fun n => @closes_token t ts n (mt Token.is_lparen.mp hl)
        (mt Token.is_rparen.mp hr)
      cases layer with
      | zero =>
        rw [findMainOP, if_neg hl, if_neg hr]
        exact (ih _ _ _).imp_right (htoken 0)
      | succ layer =>
        rw [findMainOP, if_neg hl, if_neg hr]
        exact (ih _ _ _).imp_right (htoken (layer + 1))

/-! ## `eval` on a window -/

/-- What a window can look like. -/
inductive WindowShape : List Token → Prop
  | nil : WindowShape []
  | single (t : Token) : WindowShape [t]
  | invalid {w : List Token} : 2 ≤ w.length → parenDepth w ≠ 0 → WindowShape w
  | misnested {w : List Token} : parenDepth w = 0 → ¬ Nested Token.is w → WindowShape w
  | paren {o c : Token} {v : List Token} : Token.is .lparen o → Token.is .rparen c →
      Nested Token.is v → WindowShape (o :: v ++ [c])
  | noOperator {w : List Token} : 2 ≤ w.length → checkParenthesis w = .dismatch →
      Outer Token.is (fun u => ¬ Token.is .unary u ∧ ¬ Token.is .binary u) w → WindowShape w
  | main {wl wr : List Token} {t : Token} : 2 ≤ (wl ++ t :: wr).length →
      Main Token.is Token.level wl t wr → WindowShape (wl ++ t :: wr)

theorem windowShape (w : List Token) : WindowShape w := by
  rcases (by omega : w.length = 0 ∨ w.length = 1 ∨ 2 ≤ w.length) with hw | hw | hw
  · rw [List.length_eq_zero_iff.mp hw]
    exact .nil
  · obtain ⟨t, rfl⟩ := List.length_eq_one_iff.mp hw
    exact .single t
  by_cases hd : parenDepth w = 0
  · by_cases hn : Nested Token.is w
    · rcases hn.paren_or_append hw with ⟨o, v, c, rfl, ho, hc, hv⟩ | ⟨v, v', rfl, h, h', hv, hv'⟩
      · exact .paren ho hc hv
      · rcases hn.exists_main Token.is_det with hnone | ⟨wl, t, wr, heq, hm⟩
        · exact .noOperator hw (checkParenthesis_append hv hv' h h') hnone
        · rw [heq] at hw ⊢
          exact .main hw hm
    · exact .misnested hd hn
  · exact .invalid hw hd

/-- What holds of a window if it holds of the windows that its evaluation comes to holds of every
window. -/
theorem window_induction {P : List Token → Prop} (nil : P []) (single : ∀ t, P [t])
    (invalid : ∀ w, 2 ≤ w.length → parenDepth w ≠ 0 → P w)
    (misnested : ∀ w, parenDepth w = 0 → ¬ Nested Token.is w → P w)
    (paren : ∀ o c v, Token.is .lparen o → Token.is .rparen c → Nested Token.is v → P v →
      P (o :: v ++ [c]))
    (noOperator : ∀ w, 2 ≤ w.length → checkParenthesis w = .dismatch →
      Outer Token.is (fun u => ¬ Token.is .unary u ∧ ¬ Token.is .binary u) w → P w)
    (main : ∀ wl t wr, 2 ≤ (wl ++ t :: wr).length → Main Token.is Token.level wl t wr → P wl →
      P wr → P (wl ++ t :: wr)) (w : List Token) : P w := by
  induction hn : w.length using Nat.strong_induction_on generalizing w with
  | _ n ih =>
    subst hn
    cases windowShape w with
    | nil => exact nil
    | single t => exact single t
    | invalid hw hd => exact invalid w hw hd
    | misnested hd hn => exact misnested w hd hn
    | @paren o c v ho hc hv =>
      refine paren o c v ho hc hv (ih v.length ?_ v rfl)
      rw [List.length_append, List.length_cons]
      omega
    | noOperator hw hc hout => exact noOperator w hw hc hout
    | @main wl wr t hw hm =>
      refine main wl t wr hw hm (ih wl.length ?_ wl rfl) (ih wr.length ?_ wr rfl)
      · rw [List.length_append, List.length_cons]
        omega
      · rw [List.length_append, List.length_cons]
        omega

section

variable {g : Guest} {w : List Token}

/-- A window of at least two tokens. -/
theorem exists_cons_cons (hw : 2 ≤ w.length) : ∃ t₁ t₂ ts, w = t₁ :: t₂ :: ts := by
  rcases w with - | ⟨t₁, - | ⟨t₂, ts⟩⟩
  · exact absurd hw (by decide)
  · exact absurd hw (by simp)
  · exact ⟨t₁, t₂, ts, rfl⟩

/-- A window whose parentheses do not come to zero. -/
theorem eval_invalid (hw : 2 ≤ w.length) (h : parenDepth w ≠ 0) : eval g w = .error .paren := by
  have hc := checkParenthesis_invalid.mpr h
  obtain ⟨t₁, t₂, ts, rfl⟩ := exists_cons_cons hw
  rw [eval, hc]

/-- A window in parentheses. -/
theorem eval_matched (hw : 2 ≤ w.length) (h : checkParenthesis w = .matched) :
    eval g w = eval g w.tail.dropLast := by
  obtain ⟨t₁, t₂, ts, rfl⟩ := exists_cons_cons hw
  rw [eval, h]
  rfl

/-- A window whose main operator is looked for. -/
theorem eval_dismatch (hw : 2 ≤ w.length) (h : checkParenthesis w = .dismatch) :
    eval g w = (findMainOP w 0 0 none).bind fun
      | none => .error .mainop
      | some (op, pos) => (eval g (w.drop (pos + 1))).bind fun right =>
          if op.level = 1 then evalUnary g op right
          else if pos < w.length then
            (eval g (w.take pos)).bind fun left => evalBinary op left right
          else .error .fault := by
  obtain ⟨t₁, t₂, ts, rfl⟩ := exists_cons_cons hw
  rw [eval, h]
  rcases findMainOP (t₁ :: t₂ :: ts) 0 0 none with err | - | ⟨op, pos⟩
  · rfl
  · rfl
  · simp only [Except.bind, List.drop_succ_cons, List.length_cons]
    rcases eval g ((t₂ :: ts).drop pos) with err | y
    · rfl
    · simp only
      split_ifs
      · rfl
      · rcases eval g ((t₁ :: t₂ :: ts).take pos) with err | x <;> rfl
      · rfl

/-- A window with its first and last token parentheses that match in between. -/
theorem eval_paren {o c : Token} {v : List Token} (ho : Token.is .lparen o)
    (hc : Token.is .rparen c) (hv : Nested Token.is v) : eval g (o :: v ++ [c]) = eval g v := by
  rw [eval_matched (by simp) (checkParenthesis_matched ho hc hv), List.cons_append, List.tail_cons,
    List.dropLast_concat]

theorem eval_noOperator (hw : 2 ≤ w.length) (hc : checkParenthesis w = .dismatch)
    (h : Outer Token.is (fun u => ¬ Token.is .unary u ∧ ¬ Token.is .binary u) w) :
    eval g w = .error .mainop := by
  rw [eval_dismatch hw hc, findMainOP_none h]
  rfl

/-- Parentheses that match in number and are not nested are at least two tokens. -/
theorem two_le_length (hd : parenDepth w = 0) (hn : ¬ Nested Token.is w) : 2 ≤ w.length := by
  rcases w with - | ⟨t, - | ⟨t₂, ts⟩⟩
  · exact absurd (.nil _) hn
  · -- A single parenthesis does not match.
    rw [parenDepth_cons] at hd
    refine absurd (.token (fun h => ?_) (fun h => ?_) trivial (.nil _)) hn
    · rw [if_pos (Token.is_lparen.mp h)] at hd
      exact absurd hd (by decide)
    · rw [Token.is_rparen.mp h] at hd
      exact absurd hd (by decide)
  · simp

/-- A window that `check_parenthesis` matches stands between parentheses. -/
theorem exists_of_matched (hw : 2 ≤ w.length) (h : checkParenthesis w = .matched) :
    ∃ o v c, w = o :: v ++ [c] ∧ Token.is .lparen o ∧ Token.is .rparen c := by
  simp only [checkParenthesis] at h
  split_ifs at h with h0 h1
  push Not at h1
  obtain ⟨hhead, hlast, -⟩ := h1
  obtain ⟨o, ts, rfl⟩ := List.exists_cons_of_length_pos (by omega : 0 < w.length)
  have hne : ts ≠ [] := by
    rintro rfl
    exact absurd hw (by simp)
  refine ⟨o, ts.dropLast, ts.getLast hne, ?_, ?_, ?_⟩
  · rw [List.cons_append, List.dropLast_append_getLast hne]
  · exact Token.is_lparen.mpr (Option.some.inj hhead)
  · rw [List.getLast?_cons_of_ne_nil hne, List.getLast?_eq_some_getLast hne] at hlast
    exact Token.is_rparen.mpr (Option.some.inj hlast)

/-- A window that closes a parenthesis before it opens it. -/
theorem eval_misnested (hd : parenDepth w = 0) (hn : ¬ Nested Token.is w) :
    eval g w = .error .fault := by
  induction h : w.length using Nat.strong_induction_on generalizing w with
  | _ n ih =>
    subst h
    have hw := two_le_length hd hn
    rcases hc : checkParenthesis w with - | - | -
    · exact absurd hd (checkParenthesis_invalid.mp hc)
    · -- The same holds of the window in the parentheses.
      obtain ⟨o, v, c, rfl, ho, hc'⟩ := exists_of_matched hw hc
      rw [eval_matched hw hc, List.cons_append, List.tail_cons, List.dropLast_concat]
      have hlt : v.length < (o :: v ++ [c]).length := by
        rw [List.length_append, List.length_cons]
        omega
      refine ih v.length hlt ?_ (fun hv => hn (.paren ho hc' hv (.nil _))) rfl
      have ho' := Token.is_lparen.mp ho
      have hc'' := Token.is_rparen.mp hc'
      rw [List.cons_append, parenDepth_cons, parenDepth_append, parenDepth_cons, ho', hc''] at hd
      simpa [parenDepth] using hd
    · rw [eval_dismatch hw hc]
      rcases findMainOP_cases w 0 0 none with hf | hclose
      · rw [hf]
        rfl
      · exact absurd hclose hn

variable {wl wr : List Token} {t : Token}

/-- A window with a main operator does not stand in parentheses. -/
theorem checkParenthesis_main (hw : 2 ≤ (wl ++ t :: wr).length)
    (h : Main Token.is Token.level wl t wr) : checkParenthesis (wl ++ t :: wr) = .dismatch := by
  obtain ⟨hl, ht, hr⟩ := h.nested Token.is_det
  by_cases hnil : wl = []
  · subst hnil
    have hne : wr ≠ [] := by
      rintro rfl
      exact absurd hw (by simp)
    rw [List.nil_append, ← List.singleton_append]
    exact checkParenthesis_append ht hr (List.cons_ne_nil _ _) hne
  · exact checkParenthesis_append hl (ht.append hr) hnil (List.cons_ne_nil _ _)

/-- A window is evaluated around its main operator, the right operand first. -/
theorem eval_main (hw : 2 ≤ (wl ++ t :: wr).length) (h : Main Token.is Token.level wl t wr) :
    eval g (wl ++ t :: wr) = (eval g wr).bind fun right =>
      if t.type.level = 1 then evalUnary g t.type right
      else (eval g wl).bind fun left => evalBinary t.type left right := by
  have hright : (wl ++ t :: wr).drop (wl.length + 1) = wr := by
    rw [← List.drop_drop, List.drop_left, List.drop_succ_cons, List.drop_zero]
  have hpos : wl.length < (wl ++ t :: wr).length := by simp
  rw [eval_dismatch hw (checkParenthesis_main hw h), findMainOP_main h]
  simp only [Except.bind, hright, List.take_left, if_pos hpos]

end

end RV32Pipeline
