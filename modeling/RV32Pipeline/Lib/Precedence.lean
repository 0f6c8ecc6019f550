import Mathlib.Data.List.Basic
import Mathlib.Tactic.Common

/-!
# Operator expressions and precedence

Expressions of atoms, parentheses, unary prefix operators, and binary operators, as lists of tokens.
`Derives` is the ambiguous grammar of all of them. `Groups` ties a tree to the tokens by the levels
of its binary operators, from the tightest: an operator takes operands of its own level on its left
and of tighter ones on its right, so those of one level associate to the left, and a unary operator
binds tighter than any. Every expression is grouped by some tree (`exists_groups`), and without
parentheses by one only (`Groups.unique`). Tokens whose parentheses are nested have a main operator
outside them, or no operator there (`Outer.exists_main`), and the root of a tree is one
(`Groups.main_unary`, `Groups.main_binary`).
-/

namespace Precedence

/-- What a token can be in an expression. -/
inductive Kind where
  | atom
  | unary
  | binary
  | lparen
  | rparen
  deriving DecidableEq

/-- A tree of operators over its tokens. -/
inductive OpTree (τ : Type*) where
  | atom (t : τ)
  | unary (t : τ) (e : OpTree τ)
  | binary (t : τ) (l r : OpTree τ)

variable {τ : Type*}

/-- The tokens of a tree, without parentheses. -/
def OpTree.flatten : OpTree τ → List τ
  | .atom t => [t]
  | .unary t e => t :: e.flatten
  | .binary t l r => l.flatten ++ t :: r.flatten

/-- The expressions, where a token can be of several kinds. -/
inductive Derives (is : Kind → τ → Prop) : List τ → Prop
  | atom {t : τ} : is .atom t → Derives is [t]
  | paren {o c : τ} {w : List τ} : is .lparen o → is .rparen c → Derives is w →
      Derives is (o :: w ++ [c])
  | unary {t : τ} {w : List τ} : is .unary t → Derives is w → Derives is (t :: w)
  | binary {t : τ} {wl wr : List τ} : is .binary t → Derives is wl → Derives is wr →
      Derives is (wl ++ t :: wr)

/-- The tree groups the tokens where an operand of level `k` or less is expected. Inside parentheses
that is any expression, up to the level `top`. -/
inductive Groups (is : Kind → τ → Prop) (level : τ → ℕ) (top : ℕ) : OpTree τ → ℕ → List τ → Prop
  | atom {t : τ} (k : ℕ) : is .atom t → Groups is level top (.atom t) k [t]
  | paren {e : OpTree τ} {o c : τ} {w : List τ} (k : ℕ) : is .lparen o → is .rparen c →
      Groups is level top e top w → Groups is level top e k (o :: w ++ [c])
  | unary {e : OpTree τ} {t : τ} {w : List τ} {k : ℕ} : is .unary t → 1 ≤ k →
      Groups is level top e 1 w → Groups is level top (.unary t e) k (t :: w)
  | binary {l r : OpTree τ} {t : τ} {wl wr : List τ} {k : ℕ} : is .binary t → level t ≤ k →
      Groups is level top l (level t) wl → Groups is level top r (level t - 1) wr →
      Groups is level top (.binary t l r) k (wl ++ t :: wr)

variable {is : Kind → τ → Prop} {level : τ → ℕ} {top : ℕ}

namespace Groups

variable {e : OpTree τ} {k : ℕ} {w : List τ}

theorem ne_nil (h : Groups is level top e k w) : w ≠ [] := by
  cases h <;> simp

/-- A looser operand may be expected. -/
theorem mono (h : Groups is level top e k w) {k' : ℕ} (hk : k ≤ k') :
    Groups is level top e k' w := by
  cases h with
  | atom _ ht => exact .atom k' ht
  | paren _ ho hc hw => exact .paren k' ho hc hw
  | unary ht h1 hw => exact .unary ht (Nat.le_trans h1 hk) hw
  | binary ht hl hwl hwr => exact .binary ht (Nat.le_trans hl hk) hwl hwr

/-- A tighter operand may be expected if the operators are as tight. -/
theorem tighten (h : Groups is level top e k w) {k' : ℕ} (hk : 1 ≤ k')
    (hle : ∀ t ∈ w, is .binary t → level t ≤ k') : Groups is level top e k' w := by
  cases h with
  | atom _ ht => exact .atom k' ht
  | paren _ ho hc hw => exact .paren k' ho hc hw
  | unary ht _ hw => exact .unary ht hk hw
  | binary ht _ hwl hwr => exact .binary ht (hle _ (by simp) ht) hwl hwr

/-! ## Growing a tree -/

section Grow

variable (hlevel : ∀ t, is .binary t → 2 ≤ level t ∧ level t ≤ top)
include hlevel

/-- A unary operator before an expression goes down to its first operand. -/
theorem prefixUnary {t : τ} (ht : is .unary t) (h : Groups is level top e k w) (hk : 1 ≤ k) :
    ∃ e', Groups is level top e' k (t :: w) := by
  induction h with
  | atom _ ha => exact ⟨_, .unary ht hk (.atom 1 ha)⟩
  | paren _ ho hc hw _ => exact ⟨_, .unary ht hk (.paren 1 ho hc hw)⟩
  | unary hu _ hw _ => exact ⟨_, .unary ht hk (.unary hu (Nat.le_refl 1) hw)⟩
  | binary hb hl _ hwr ihl _ =>
    obtain ⟨l', hl'⟩ := ihl (by have := (hlevel _ hb).1; omega)
    exact ⟨_, .binary hb hl hl' hwr⟩

/-- A binary operator behind an expression, with a right operand for it, goes down the right spine
to the first operator that does not bind looser. -/
theorem graft {t : τ} (ht : is .binary t) {r : OpTree τ} {wr : List τ}
    (hr : Groups is level top r (level t - 1) wr) (h : Groups is level top e k w)
    (hk : level t ≤ k) : ∃ e', Groups is level top e' k (w ++ t :: wr) := by
  have h2 := (hlevel t ht).1
  induction h with
  | atom _ ha => exact ⟨_, .binary ht hk (.atom _ ha) hr⟩
  | paren _ ho hc hw _ => exact ⟨_, .binary ht hk (.paren _ ho hc hw) hr⟩
  | unary hu _ hw _ => exact ⟨_, .binary ht hk (.unary hu (by omega) hw) hr⟩
  | @binary l₀ r₀ t₀ wl₀ wr₀ k hb hl hwl hwr _ ihr =>
    by_cases hle : level t₀ ≤ level t
    · exact ⟨_, .binary ht hk (.binary hb hle hwl hwr) hr⟩
    · obtain ⟨r', hr'⟩ := ihr (by omega)
      refine ⟨.binary t₀ l₀ r', ?_⟩
      rw [List.append_assoc, List.cons_append]
      exact .binary hb hl hwl hr'

/-- Two expressions with a binary operator between them: the second one is taken apart along its
left spine. -/
theorem join {t : τ} (ht : is .binary t) {l : OpTree τ} {wl : List τ}
    (hl : Groups is level top l top wl) (h : Groups is level top e k w) :
    ∃ e', Groups is level top e' top (wl ++ t :: w) := by
  obtain ⟨h2, htop⟩ := hlevel t ht
  induction h with
  | atom _ ha => exact graft hlevel ht (.atom _ ha) hl htop
  | paren _ ho hc hw _ => exact graft hlevel ht (.paren _ ho hc hw) hl htop
  | unary hu _ hw _ => exact graft hlevel ht (.unary hu (by omega) hw) hl htop
  | @binary l₀ r₀ t₀ wl₀ wr₀ k hb _ _ hwr ihl _ =>
    obtain ⟨l', hl'⟩ := ihl
    have hg := graft hlevel hb hwr hl' (hlevel _ hb).2
    rwa [List.append_assoc, List.cons_append] at hg

end Grow

end Groups

/-- Every expression is grouped by a tree. -/
theorem Derives.exists_groups (hlevel : ∀ t, is .binary t → 2 ≤ level t ∧ level t ≤ top)
    (htop : 1 ≤ top) {w : List τ} (h : Derives is w) : ∃ e, Groups is level top e top w := by
  induction h with
  | atom ht => exact ⟨_, .atom top ht⟩
  | paren ho hc _ ih =>
    obtain ⟨e, he⟩ := ih
    exact ⟨e, .paren top ho hc he⟩
  | unary ht _ ih =>
    obtain ⟨e, he⟩ := ih
    exact he.prefixUnary hlevel ht htop
  | binary ht _ _ ihl ihr =>
    obtain ⟨l, hl⟩ := ihl
    obtain ⟨r, hr⟩ := ihr
    exact Groups.join hlevel ht hl hr

/-! ## Main operators -/

/-- The parentheses are nested, and the tokens outside them have a property. -/
inductive Outer (is : Kind → τ → Prop) : (τ → Prop) → List τ → Prop
  | nil (P : τ → Prop) : Outer is P []
  | token {P : τ → Prop} {t : τ} {w : List τ} : ¬ is .lparen t → ¬ is .rparen t → P t →
      Outer is P w → Outer is P (t :: w)
  | paren {P : τ → Prop} {o c : τ} {v w : List τ} : is .lparen o → is .rparen c →
      Outer is (fun _ => True) v → Outer is P w → Outer is P (o :: v ++ c :: w)

/-- The parentheses are nested. -/
abbrev Nested (is : Kind → τ → Prop) (w : List τ) : Prop := Outer is (fun _ => True) w

/-- The token between two lists is their main operator: a binary one that is the last of the
loosest, or the first unary one if there is no binary one. -/
inductive Main (is : Kind → τ → Prop) (level : τ → ℕ) : List τ → τ → List τ → Prop
  | unary {wl wr : List τ} {t : τ} : is .unary t →
      Outer is (fun u => ¬ is .unary u ∧ ¬ is .binary u) wl →
      Outer is (fun u => ¬ is .binary u) wr → Main is level wl t wr
  | binary {wl wr : List τ} {t : τ} : is .binary t →
      Outer is (fun u => is .binary u → level u ≤ level t) wl →
      Outer is (fun u => is .binary u → level u < level t) wr → Main is level wl t wr

namespace Outer

variable {P Q : τ → Prop} {v w : List τ}

theorem mono (h : Outer is P w) (hPQ : ∀ t, P t → Q t) : Outer is Q w := by
  induction h with
  | nil P => exact .nil Q
  | token hl hr ht _ ih => exact .token hl hr (hPQ _ ht) (ih hPQ)
  | paren ho hc hv _ _ ih => exact .paren ho hc hv (ih hPQ)

theorem nested (h : Outer is P w) : Nested is w := h.mono fun _ _ => trivial

theorem append (hv : Outer is P v) (hw : Outer is P w) : Outer is P (v ++ w) := by
  induction hv with
  | nil P => exact hw
  | token hl hr ht _ ih => exact .token hl hr ht (ih hw)
  | paren ho hc hv _ _ ih =>
    rw [List.append_assoc, List.cons_append]
    exact .paren ho hc hv (ih hw)

/-- A token that is no parenthesis between two lists. -/
theorem between {t : τ} (hv : Outer is P v) (hl : ¬ is .lparen t) (hr : ¬ is .rparen t) (ht : P t)
    (hw : Outer is P w) : Outer is P (v ++ t :: w) := hv.append (.token hl hr ht hw)

/-- At least two tokens are a list in parentheses, or two lists. -/
theorem paren_or_append (h : Outer is P w) (hw : 2 ≤ w.length) :
    (∃ o v c, w = o :: v ++ [c] ∧ is .lparen o ∧ is .rparen c ∧ Nested is v) ∨
      ∃ v v', w = v ++ v' ∧ v ≠ [] ∧ v' ≠ [] ∧ Nested is v ∧ Nested is v' := by
  cases h with
  | nil P => exact absurd hw (by simp)
  | @token _ t w hl hr _ hw' =>
    refine Or.inr ⟨[t], w, rfl, List.cons_ne_nil _ _, ?_, .token hl hr trivial (.nil _), hw'.nested⟩
    rintro rfl
    exact absurd hw (by simp)
  | @paren _ o c v w ho hc hv hw' =>
    by_cases hnil : w = []
    · subst hnil
      exact Or.inl ⟨o, v, c, rfl, ho, hc, hv⟩
    · exact Or.inr ⟨o :: v ++ [c], w, by simp, by simp, hnil, .paren ho hc hv (.nil _), hw'.nested⟩

/-- If the main operator is no binary one of level `k` or looser, no operator outside is. -/
theorem of_main (hdet : ∀ t k k', is k t → is k' t → k = k') {t : τ} {k : ℕ}
    (h : Main is level v t w) (ht : is .binary t → level t < k) :
    Outer is (fun u => is .binary u → level u < k) (v ++ t :: w) := by
  cases h with
  | unary hu hv hw =>
    refine (hv.mono fun u hu hb => absurd hb hu.2).between ?_ ?_ ht
      (hw.mono fun u hu hb => absurd hb hu)
    · exact fun h => absurd (hdet _ _ _ hu h) (by decide)
    · exact fun h => absurd (hdet _ _ _ hu h) (by decide)
  | binary hb hv hw =>
    have hlt := ht hb
    refine (hv.mono fun u hu hb => ?_).between ?_ ?_ ht (hw.mono fun u hu hb => ?_)
    · exact Nat.lt_of_le_of_lt (hu hb) hlt
    · exact fun h => absurd (hdet _ _ _ hb h) (by decide)
    · exact fun h => absurd (hdet _ _ _ hb h) (by decide)
    · exact Nat.lt_trans (hu hb) hlt

/-- Tokens with nested parentheses have a main operator, or no operator outside. -/
theorem exists_main (h : Outer is P w) (hdet : ∀ t k k', is k t → is k' t → k = k') :
    Outer is (fun u => ¬ is .unary u ∧ ¬ is .binary u) w ∨
      ∃ wl t wr, w = wl ++ t :: wr ∧ Main is level wl t wr := by
  induction h with
  | nil P => exact Or.inl (.nil _)
  | @token _ t w hl hr _ _ ih =>
    rcases ih with hnone | ⟨wl, t', wr, rfl, hm⟩
    · by_cases hb : is .binary t
      · exact Or.inr ⟨[], t, w, rfl, .binary hb (.nil _)
          (hnone.mono fun u hu hu' => absurd hu' hu.2)⟩
      by_cases hu : is .unary t
      · exact Or.inr ⟨[], t, w, rfl, .unary hu (.nil _) (hnone.mono fun _ h => h.2)⟩
      · exact Or.inl (.token hl hr ⟨hu, hb⟩ hnone)
    · -- The token takes over from the main operator behind it only if that binds tighter.
      by_cases hb : is .binary t ∧ (is .binary t' → level t' < level t)
      · exact Or.inr ⟨[], t, _, rfl, .binary hb.1 (.nil _) (of_main hdet hm hb.2)⟩
      by_cases hu : is .unary t ∧ ¬ is .binary t'
      · refine Or.inr ⟨[], t, _, rfl, .unary hu.1 (.nil _) ?_⟩
        have hout := of_main hdet hm (k := 0) fun h => absurd h hu.2
        exact hout.mono fun u hu hb => absurd (hu hb) (Nat.not_lt_zero _)
      refine Or.inr ⟨t :: wl, t', wr, rfl, ?_⟩
      cases hm with
      | unary ht' hwl hwr =>
        have hnb : ¬ is .binary t' := fun h => absurd (hdet _ _ _ ht' h) (by decide)
        have hnone : ¬ is .unary t ∧ ¬ is .binary t :=
          ⟨fun h => hu ⟨h, hnb⟩, fun h => hb ⟨h, fun h' => absurd h' hnb⟩⟩
        exact .unary ht' (.token hl hr hnone hwl) hwr
      | binary ht' hwl hwr =>
        have hle : is .binary t → level t ≤ level t' := fun h =>
          Nat.le_of_not_lt fun hlt => hb ⟨h, fun _ => hlt⟩
        exact .binary ht' (.token hl hr hle hwl) hwr
  | @paren _ o c v w ho hc hv _ _ ih =>
    rcases ih with hnone | ⟨wl, t', wr, rfl, hm⟩
    · exact Or.inl (.paren ho hc hv hnone)
    · refine Or.inr ⟨o :: v ++ c :: wl, t', wr, by simp, ?_⟩
      cases hm with
      | unary ht' hwl hwr => exact .unary ht' (.paren ho hc hv hwl) hwr
      | binary ht' hwl hwr => exact .binary ht' (.paren ho hc hv hwl) hwr

end Outer

/-- The parentheses are nested on both sides of a main operator. -/
theorem Main.nested (hdet : ∀ t k k', is k t → is k' t → k = k') {wl wr : List τ} {t : τ}
    (h : Main is level wl t wr) : Nested is wl ∧ Nested is [t] ∧ Nested is wr := by
  have htoken : ∀ {k}, is k t → k ≠ .lparen → k ≠ .rparen → Nested is [t] := fun ht hl hr =>
    .token (fun h => hl (hdet _ _ _ ht h)) (fun h => hr (hdet _ _ _ ht h)) trivial (.nil _)
  cases h with
  | unary ht hl hr => exact ⟨hl.nested, htoken ht (by decide) (by decide), hr.nested⟩
  | binary ht hl hr => exact ⟨hl.nested, htoken ht (by decide) (by decide), hr.nested⟩

namespace Groups

variable {e l r : OpTree τ} {k : ℕ} {t : τ} {w wl wr : List τ}

section Main

variable (hdet : ∀ t k k', is k t → is k' t → k = k')
include hdet

/-- The parentheses of an expression are nested, and the binary operators outside them have at most
the level that is expected. -/
theorem outer (h : Groups is level top e k w) :
    Outer is (fun u => is .binary u → level u ≤ k) w := by
  have hne : ∀ {t k}, is k t → ∀ k', k ≠ k' → ¬ is k' t := fun h _ hne h' => hne (hdet _ _ _ h h')
  induction h with
  | atom k ha =>
    exact .token (hne ha _ (by decide)) (hne ha _ (by decide))
      (fun h => absurd h (hne ha _ (by decide))) (.nil _)
  | paren k ho hc _ ih => exact .paren ho hc ih.nested (.nil _)
  | unary hu hk _ ih =>
    exact .token (hne hu _ (by decide)) (hne hu _ (by decide))
      (fun h => absurd h (hne hu _ (by decide)))
      (ih.mono fun u h hb => Nat.le_trans (h hb) hk)
  | binary hb hk _ _ ihl ihr =>
    refine (ihl.mono fun u h hu => Nat.le_trans (h hu) hk).between (hne hb _ (by decide))
      (hne hb _ (by decide)) (fun _ => hk) (ihr.mono fun u h hu => ?_)
    have := h hu
    omega

variable (hlevel : ∀ t, is .binary t → 2 ≤ level t)
include hlevel

/-- A unary operator is the main operator before its operand. -/
theorem main_unary (ht : is .unary t) (h : Groups is level top e 1 w) : Main is level [] t w := by
  refine .unary ht (.nil _) ((h.outer hdet).mono fun u hu hb => ?_)
  have := hu hb
  have := hlevel u hb
  omega

/-- A binary operator is the main operator between its operands. -/
theorem main_binary (ht : is .binary t) (hl : Groups is level top l (level t) wl)
    (hr : Groups is level top r (level t - 1) wr) : Main is level wl t wr := by
  refine .binary ht (hl.outer hdet) ((hr.outer hdet).mono fun u hu hb => ?_)
  have := hu hb
  have := hlevel t ht
  omega

end Main

end Groups

/-! ## Without parentheses -/

namespace Groups

variable {e : OpTree τ} {k : ℕ} {w : List τ}

/-- Without parentheses a tree groups its own tokens. -/
theorem eq_flatten (h : Groups is level top e k w) (hbare : ∀ t ∈ w, ¬ is .lparen t) :
    w = e.flatten := by
  induction h with
  | atom _ _ => rfl
  | paren _ ho _ _ _ => exact absurd ho (hbare _ (by simp))
  | unary _ _ _ ih =>
    rw [OpTree.flatten, ← ih fun t ht => hbare t (List.mem_cons_of_mem _ ht)]
  | binary _ _ _ _ ihl ihr =>
    rw [OpTree.flatten, ← ihl fun t ht => hbare t (List.mem_append_left _ ht),
      ← ihr fun t ht => hbare t (List.mem_append_right _ (List.mem_cons_of_mem _ ht))]

/-- The operands of the operator at the root of a tree that groups tokens without parentheses. -/
theorem operands {l r : OpTree τ} {t : τ} {wl wr : List τ}
    (h : Groups is level top (.binary t l r) k (wl ++ t :: wr))
    (hbare : ∀ u ∈ wl ++ t :: wr, ¬ is .lparen u) (hl : wl = l.flatten) :
    Groups is level top l (level t) wl ∧ Groups is level top r (level t - 1) wr := by
  generalize he : OpTree.binary t l r = e at h
  generalize hw : wl ++ t :: wr = w at h hbare
  cases h with
  | atom _ _ => cases he
  | paren _ ho _ _ => exact absurd ho (hbare _ (by simp))
  | unary _ _ _ => cases he
  | @binary l' r' t' wl' wr' _ _ _ hl' hr' =>
    cases he
    have hl'' := hl'.eq_flatten fun u hu => hbare u (List.mem_append_left _ hu)
    rw [← hl] at hl''
    subst hl''
    rw [List.append_cancel_left_eq, List.cons.injEq] at hw
    rw [hw.2]
    exact ⟨hl', hr'⟩

/-- A single token is an atom. -/
theorem eq_atom {t : τ} (h : Groups is level top e k [t]) (hbare : ¬ is .lparen t) :
    e = .atom t := by
  generalize hw : [t] = w at h
  cases h with
  | atom _ _ => rw [List.singleton_inj.mp hw]
  | paren _ ho _ _ =>
    rw [List.cons_append, List.cons.injEq] at hw
    rw [hw.1] at hbare
    exact absurd ho hbare
  | unary _ _ hw' =>
    rw [List.cons.injEq] at hw
    exact absurd hw.2.symm hw'.ne_nil
  | binary _ _ hl _ =>
    have hlen := congrArg List.length hw
    have h1 := List.length_pos_of_ne_nil hl.ne_nil
    simp only [List.length_append, List.length_cons, List.length_nil] at hlen
    omega

section Bare

variable (hdet : ∀ t k k', is k t → is k' t → k = k')
  (hlevel : ∀ t, is .binary t → 2 ≤ level t)
include hdet hlevel

/-- The binary operators have at most the level that is expected. -/
theorem level_le (h : Groups is level top e k w) (hbare : ∀ t ∈ w, ¬ is .lparen t) {t : τ}
    (hmem : t ∈ w) (ht : is .binary t) : level t ≤ k := by
  induction h with
  | atom _ ha =>
    rw [List.mem_singleton.mp hmem] at ht
    exact absurd (hdet _ _ _ ha ht) (by decide)
  | paren _ ho _ _ _ => exact absurd ho (hbare _ (List.mem_append_left _ (List.mem_cons_self ..)))
  | @unary _ u w k hu hk _ ih =>
    rcases List.mem_cons.mp hmem with rfl | hmem
    · exact absurd (hdet _ _ _ hu ht) (by decide)
    · have := ih (fun t ht => hbare t (List.mem_cons_of_mem _ ht)) hmem
      omega
  | @binary _ _ t₀ wl wr k hb hle _ _ ihl ihr =>
    have h2 := hlevel t₀ hb
    rcases List.mem_append.mp hmem with hmem | hmem
    · have := ihl (fun t ht => hbare t (List.mem_append_left _ ht)) hmem
      omega
    · rcases List.mem_cons.mp hmem with rfl | hmem
      · exact hle
      · have := ihr (fun t ht =>
          hbare t (List.mem_append_right _ (List.mem_cons_of_mem _ ht))) hmem
        omega

/-- A unary operator is not at the root of an expression with a binary one. -/
theorem not_unary_of_binary {t u : τ} {wl wr w : List τ} (hw : Groups is level top e 1 w)
    (hbare : ∀ t ∈ u :: w, ¬ is .lparen t) (hb : is .binary t) (hl : wl ≠ [])
    (h : wl ++ t :: wr = u :: w) : False := by
  obtain ⟨x, wl', rfl⟩ := List.exists_cons_of_ne_nil hl
  rw [List.cons_append, List.cons.injEq] at h
  have hmem : t ∈ w := by
    rw [← h.2]
    simp
  have hle := level_le hdet hlevel hw (fun t ht => hbare t (List.mem_cons_of_mem _ ht)) hmem hb
  have := hlevel t hb
  omega

/-- Of two operators that could be at the root, the first is looser than the second, and not. -/
theorem root_unique {l r : OpTree τ} {t t' : τ} {wl wr a wr' : List τ}
    (hl : Groups is level top l (level t') (wl ++ t :: a))
    (hr : Groups is level top r (level t - 1) wr)
    (hbare : (∀ u ∈ wl ++ t :: a, ¬ is .lparen u) ∧ ∀ u ∈ wr, ¬ is .lparen u)
    (hb : is .binary t) (hb' : is .binary t') (h : wr = a ++ t' :: wr') : False := by
  have h1 : level t ≤ level t' := level_le hdet hlevel hl hbare.1 (by simp) hb
  have h2 : level t' ≤ level t - 1 := level_le hdet hlevel hr hbare.2 (by rw [h]; simp) hb'
  have := hlevel t hb
  omega

/-- A unary operator before an operand is at the root. -/
theorem eq_unary {u : τ} {e' : OpTree τ} (hw : Groups is level top e 1 w)
    (h : Groups is level top e' k (u :: w)) (hbare : ∀ t ∈ u :: w, ¬ is .lparen t) :
    ∃ e₀, e' = .unary u e₀ ∧ Groups is level top e₀ 1 w := by
  generalize hw₀ : u :: w = w₀ at h
  cases h with
  | atom _ _ =>
    rw [List.cons.injEq] at hw₀
    exact absurd hw₀.2 hw.ne_nil
  | paren _ ho _ _ =>
    rw [hw₀] at hbare
    exact absurd ho (hbare _ (by simp))
  | unary _ _ hw' =>
    obtain ⟨rfl, rfl⟩ := List.cons.inj hw₀
    exact ⟨_, rfl, hw'⟩
  | binary hb _ hl _ =>
    exact (not_unary_of_binary hdet hlevel hw hbare hb hl.ne_nil hw₀.symm).elim

/-- The binary operator at the root is the one that could be. -/
theorem eq_binary {l r e' : OpTree τ} {t : τ} {wl wr : List τ} (hb : is .binary t)
    (hl : Groups is level top l (level t) wl) (hr : Groups is level top r (level t - 1) wr)
    (h : Groups is level top e' k (wl ++ t :: wr))
    (hbare : ∀ u ∈ wl ++ t :: wr, ¬ is .lparen u) :
    ∃ l' r', e' = .binary t l' r' ∧ Groups is level top l' (level t) wl ∧
      Groups is level top r' (level t - 1) wr := by
  have hbl : ∀ u ∈ wl, ¬ is .lparen u := fun u hu => hbare u (List.mem_append_left _ hu)
  have hbr : ∀ u ∈ wr, ¬ is .lparen u := fun u hu =>
    hbare u (List.mem_append_right _ (List.mem_cons_of_mem _ hu))
  generalize hw₀ : wl ++ t :: wr = w₀ at h hbare
  cases h with
  | atom _ _ =>
    have hlen := congrArg List.length hw₀
    have h1 := List.length_pos_of_ne_nil hl.ne_nil
    simp only [List.length_append, List.length_cons, List.length_nil] at hlen
    omega
  | paren _ ho _ _ => exact absurd ho (hbare _ (by simp))
  | unary _ _ hw' => exact (not_unary_of_binary hdet hlevel hw' hbare hb hl.ne_nil hw₀).elim
  | @binary l' r' t' wl' wr' _ hb' hk' hl' hr' =>
    have hbl' : ∀ u ∈ wl', ¬ is .lparen u := fun u hu => hbare u (List.mem_append_left _ hu)
    have hbr' : ∀ u ∈ wr', ¬ is .lparen u := fun u hu =>
      hbare u (List.mem_append_right _ (List.mem_cons_of_mem _ hu))
    -- The roots are the same token, or one stands in an operand of the other.
    rcases List.append_eq_append_iff.mp hw₀ with ⟨a, rfl, ha⟩ | ⟨a, rfl, ha⟩
    · rcases a with - | ⟨x, a⟩
      · rw [List.nil_append, List.cons.injEq] at ha
        obtain ⟨rfl, rfl⟩ := ha
        rw [List.append_nil] at hl'
        exact ⟨l', r', rfl, hl', hr'⟩
      · rw [List.cons_append, List.cons.injEq] at ha
        obtain ⟨rfl, hwr⟩ := ha
        exact (root_unique hdet hlevel hl' hr ⟨hbl', hbr⟩ hb hb' hwr).elim
    · rcases a with - | ⟨x, a⟩
      · rw [List.nil_append, List.cons.injEq] at ha
        obtain ⟨rfl, rfl⟩ := ha
        rw [List.append_nil]
        exact ⟨l', r', rfl, hl', hr'⟩
      · rw [List.cons_append, List.cons.injEq] at ha
        obtain ⟨rfl, hwr⟩ := ha
        exact (root_unique hdet hlevel hl hr' ⟨hbl, hbr'⟩ hb' hb hwr).elim

/-- An expression without parentheses is grouped by one tree only. -/
theorem unique (h : Groups is level top e k w) (hbare : ∀ t ∈ w, ¬ is .lparen t) {e' : OpTree τ}
    {k' : ℕ} (h' : Groups is level top e' k' w) : e = e' := by
  induction h generalizing e' k' with
  | @atom t k ha => exact (h'.eq_atom (hbare t (List.mem_cons_self ..))).symm
  | paren _ ho _ _ _ => exact absurd ho (hbare _ (by simp))
  | unary _ _ hw ih =>
    obtain ⟨e₀, rfl, hw'⟩ := eq_unary hdet hlevel hw h' hbare
    rw [ih (fun t ht => hbare t (List.mem_cons_of_mem _ ht)) hw']
  | binary hb _ hl hr ihl ihr =>
    obtain ⟨l', r', rfl, hl', hr'⟩ := eq_binary hdet hlevel hb hl hr h' hbare
    rw [ihl (fun u hu => hbare u (List.mem_append_left _ hu)) hl',
      ihr (fun u hu => hbare u (List.mem_append_right _ (List.mem_cons_of_mem _ hu))) hr']

end Bare

end Groups

end Precedence
