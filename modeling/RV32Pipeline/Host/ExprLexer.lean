import RV32Pipeline.Host.Expr

/-!
# The lexemes of a string

A string is split by the rules into lexemes, runs of spaces included, up to its end or to a position
where no rule matches. `make_token` records those that are no spaces, as long as there is room: it
returns all of them if the string has been split and fewer than 128 stand before its last lexeme,
and writes past a token if one of the first 128 has 32 characters or more.
-/

namespace RV32Pipeline

/-- The lexemes of a string, and whether they reach its end. -/
def lexemes : List Char → List Token × Bool
  | [] => ([], true)
  | c :: cs =>
    match firstRule (c :: cs) with
    | none => ([], false)
    | some (len, type) =>
      let r := lexemes (cs.drop (len - 1))
      (⟨type, (c :: cs).take len⟩ :: r.1, r.2)
termination_by e => e.length

/-- A lexeme that is recorded. -/
def Token.recorded (t : Token) : Bool := t.type ≠ .notype

/-- The tokens of a string. -/
def tokensOf (e : List Char) : List Token := (lexemes e).1.filter Token.recorded

/-- The string is split to its end. -/
def Complete (e : List Char) : Prop := (lexemes e).2 = true

/-- There is room for the tokens behind `n` others: the number of tokens is checked at every lexeme,
spaces included. -/
def Fits (n : ℕ) (e : List Char) : Prop :=
  (lexemes e).1 ≠ [] → n + ((lexemes e).1.dropLast.filter Token.recorded).length < 128

/-! ## Rules -/

theorem matchLen_le {e : List Char} {r : Regex} {len : ℕ} (h : r.matchLen e = some len) :
    len ≤ e.length := by
  rcases r with s | ⟨lead, cls⟩
  · rw [Regex.matchLen] at h
    split_ifs at h with hp
    rw [← Option.some.inj h]
    exact (List.isPrefixOf_iff_prefix.mp hp).length_le
  · simp only [Regex.matchLen] at h
    split_ifs at h with hp
    rw [← Option.some.inj h]
    have hlead := (List.isPrefixOf_iff_prefix.mp hp.1).length_le
    have hrun := (List.takeWhile_prefix (p := cls) (l := e.drop lead.length)).length_le
    rw [List.length_drop] at hrun
    omega

/-- A rule matches no more than the string, and has a type of the table. -/
theorem firstRule_spec {e : List Char} {len : ℕ} {type : TokenType}
    (h : firstRule e = some (len, type)) : len ≤ e.length ∧ type ≠ .neg ∧ type ≠ .deref := by
  obtain ⟨r, hr, hm⟩ := List.exists_of_findSome?_eq_some h
  obtain ⟨len', hlen, heq⟩ := Option.map_eq_some_iff.mp hm
  obtain ⟨rfl, rfl⟩ := Prod.mk.inj heq
  have htypes : ∀ r ∈ rules, r.2 ≠ .neg ∧ r.2 ≠ .deref := by decide
  exact ⟨matchLen_le hlen, htypes r hr⟩

section

variable {c : Char} {cs : List Char}

theorem lexemes_none (h : firstRule (c :: cs) = none) : lexemes (c :: cs) = ([], false) := by
  rw [lexemes, h]

theorem lexemes_some {len : ℕ} {type : TokenType} (h : firstRule (c :: cs) = some (len, type)) :
    lexemes (c :: cs) = (⟨type, (c :: cs).take len⟩ :: (lexemes (cs.drop (len - 1))).1,
      (lexemes (cs.drop (len - 1))).2) := by
  rw [lexemes, h]

/-- The lexemes of a string from those behind its first one. -/
theorem lexemes_step (len : ℕ) {type : TokenType} {ls : List Token} {done : Bool}
    (h : firstRule (c :: cs) = some (len, type)) (hls : lexemes (cs.drop (len - 1)) = (ls, done)) :
    lexemes (c :: cs) = (⟨type, (c :: cs).take len⟩ :: ls, done) := by
  rw [lexemes_some h, hls]

theorem lexemes_nil : lexemes [] = ([], true) := by
  rw [lexemes]

/-- What holds of the empty string, of a string that no rule matches, and of one if it holds behind
the first match, holds of every string. -/
theorem lexeme_induction {P : List Char → Prop} (nil : P [])
    (none : ∀ c cs, firstRule (c :: cs) = none → P (c :: cs))
    (some : ∀ c cs len type, firstRule (c :: cs) = some (len, type) → P (cs.drop (len - 1)) →
      P (c :: cs)) (e : List Char) : P e := by
  induction h : e.length using Nat.strong_induction_on generalizing e with
  | _ n ih =>
    subst h
    rcases e with - | ⟨c, cs⟩
    · exact nil
    rcases hr : firstRule (c :: cs) with - | ⟨len, type⟩
    · exact none c cs hr
    · refine some c cs len type hr (ih _ ?_ _ rfl)
      rw [List.length_drop, List.length_cons]
      omega

end

/-- The types of the lexemes are those of the table. -/
theorem lexemes_type (e : List Char) :
    ∀ t ∈ (lexemes e).1, t.type ≠ .neg ∧ t.type ≠ .deref := by
  induction e using lexeme_induction with
  | nil =>
    rw [lexemes]
    exact fun t ht => absurd ht (List.not_mem_nil)
  | none c cs hr =>
    rw [lexemes_none hr]
    exact fun t ht => absurd ht (List.not_mem_nil)
  | some c cs len type hr ih =>
    rw [lexemes_some hr]
    intro t ht
    rcases List.mem_cons.mp ht with rfl | ht
    · exact (firstRule_spec hr).2
    · exact ih t ht

/-! ## `make_token` -/

theorem recorded_of_ne {t : Token} (h : t.type ≠ .notype) : t.recorded = true := by
  rw [Token.recorded, decide_eq_true h]

theorem not_recorded {t : Token} (h : t.type = .notype) : ¬ t.recorded = true := by
  rw [Token.recorded, h]
  decide

section

variable {c : Char} {cs : List Char} {len : ℕ} {type : TokenType}

/-- The tokens behind a run of spaces. -/
theorem tokensOf_space (h : firstRule (c :: cs) = some (len, type)) (ht : type = .notype) :
    tokensOf (c :: cs) = tokensOf (cs.drop (len - 1)) := by
  rw [tokensOf, lexemes_some h]
  exact List.filter_cons_of_neg (not_recorded ht)

theorem tokensOf_token (h : firstRule (c :: cs) = some (len, type)) (ht : type ≠ .notype) :
    tokensOf (c :: cs) = ⟨type, (c :: cs).take len⟩ :: tokensOf (cs.drop (len - 1)) := by
  rw [tokensOf, lexemes_some h]
  exact List.filter_cons_of_pos (recorded_of_ne ht)

theorem complete_iff (h : firstRule (c :: cs) = some (len, type)) :
    Complete (c :: cs) ↔ Complete (cs.drop (len - 1)) := by
  rw [Complete, lexemes_some h]
  rfl

/-- There is room for a lexeme, and behind it. -/
theorem fits_iff (h : firstRule (c :: cs) = some (len, type)) (n : ℕ) :
    Fits n (c :: cs) ↔ n < 128 ∧
      Fits (if type = .notype then n else n + 1) (cs.drop (len - 1)) := by
  rw [Fits, Fits, lexemes_some h]
  rcases hl : (lexemes (cs.drop (len - 1))).1 with - | ⟨t, ts⟩
  · simp
  · rw [List.dropLast_cons_of_ne_nil (List.cons_ne_nil t ts)]
    by_cases ht : type = .notype
    · rw [List.filter_cons_of_neg (not_recorded ht), if_pos ht]
      simp
      omega
    · rw [List.filter_cons_of_pos (recorded_of_ne ht), if_neg ht]
      simp
      omega

end

/-- `make_token` returns the tokens if the string is split, they fit, and each is short enough. -/
theorem makeToken_ok_iff (e : List Char) (tokens ts : List Token) :
    makeToken e tokens = .ok ts ↔
      Complete e ∧ Fits tokens.length e ∧ (∀ t ∈ tokensOf e, t.str.length < 32) ∧
        ts = tokens ++ tokensOf e := by
  induction e using lexeme_induction generalizing tokens with
  | nil =>
    rw [makeToken, Complete, Fits, tokensOf, lexemes]
    simp [eq_comm]
  | none c cs hr =>
    rw [makeToken, hr, Complete, lexemes_none hr]
    simp
  | some c cs len type hr ih =>
    have hlen : ((c :: cs).take len).length = len := by
      rw [List.length_take, min_eq_left (firstRule_spec hr).1]
    rw [makeToken, hr, complete_iff hr, fits_iff hr]
    by_cases hn : 128 ≤ tokens.length
    · simp only [if_pos hn]
      refine ⟨fun h => absurd h (by simp), fun h => absurd h.2.1.1 (by omega)⟩
    have hn' : tokens.length < 128 := by omega
    simp only [if_neg hn, hn', true_and]
    by_cases ht : type = .notype
    · rw [if_pos ht, if_pos ht, tokensOf_space hr ht]
      exact ih tokens
    rw [if_neg ht, if_neg ht, tokensOf_token hr ht]
    by_cases hlong : 32 ≤ len
    · -- The token does not fit into its 32 bytes.
      rw [if_pos hlong]
      refine ⟨fun h => absurd h (by simp), fun h => ?_⟩
      have := h.2.2.1 _ (List.mem_cons_self ..)
      rw [hlen] at this
      omega
    · rw [if_neg hlong, ih, List.length_append, List.length_singleton, List.forall_mem_cons, hlen,
        List.append_assoc, List.singleton_append]
      simp only [show len < 32 by omega, true_and]

/-- `make_token` writes past a token if one of those that it records is too long. -/
theorem makeToken_fault_iff (e : List Char) (tokens : List Token) :
    makeToken e tokens = .error .fault ↔
      ∃ t ∈ (tokensOf e).take (128 - tokens.length), 32 ≤ t.str.length := by
  induction e using lexeme_induction generalizing tokens with
  | nil =>
    rw [makeToken, tokensOf, lexemes]
    simp
  | none c cs hr =>
    rw [makeToken, hr, tokensOf, lexemes_none hr]
    simp
  | some c cs len type hr ih =>
    have hlen : ((c :: cs).take len).length = len := by
      rw [List.length_take, min_eq_left (firstRule_spec hr).1]
    rw [makeToken, hr]
    by_cases hn : 128 ≤ tokens.length
    · simp only [if_pos hn, Nat.sub_eq_zero_of_le hn, List.take_zero]
      simp
    simp only [if_neg hn]
    by_cases ht : type = .notype
    · rw [if_pos ht, tokensOf_space hr ht]
      exact ih tokens
    obtain ⟨n, hsub⟩ : ∃ n, 128 - tokens.length = n + 1 := ⟨127 - tokens.length, by omega⟩
    rw [if_neg ht, tokensOf_token hr ht, hsub, List.take_succ_cons]
    by_cases hlong : 32 ≤ len
    · rw [if_pos hlong]
      exact ⟨fun _ => ⟨_, List.mem_cons_self .., by rw [hlen]; exact hlong⟩, fun _ => rfl⟩
    · have hsub' : 128 - (tokens ++ [(⟨type, (c :: cs).take len⟩ : Token)]).length = n := by
        rw [List.length_append, List.length_singleton]
        omega
      rw [if_neg hlong, ih, hsub']
      constructor
      · rintro ⟨t, hmem, h32⟩
        exact ⟨t, List.mem_cons_of_mem _ hmem, h32⟩
      · rintro ⟨t, hmem, h32⟩
        rcases List.mem_cons.mp hmem with rfl | hmem
        · rw [hlen] at h32
          exact absurd h32 hlong
        · exact ⟨t, hmem, h32⟩

/-- At most 127 tokens fit. -/
theorem fits_of_length_le {e : List Char} (h : (tokensOf e).length ≤ 127) : Fits 0 e := by
  intro _
  have hsub := ((List.dropLast_sublist (lexemes e).1).filter Token.recorded).length_le
  rw [tokensOf] at h
  omega

/-- At most 128 tokens fit. -/
theorem length_le_of_fits {e : List Char} (h : Fits 0 e) : (tokensOf e).length ≤ 128 := by
  rw [tokensOf]
  by_cases hne : (lexemes e).1 = []
  · rw [hne]
    exact Nat.zero_le _
  · have hlt := h hne
    have hlast : ([(lexemes e).1.getLast hne].filter Token.recorded).length ≤ 1 :=
      List.length_filter_le _ _
    rw [← List.dropLast_append_getLast hne, List.filter_append, List.length_append]
    omega

end RV32Pipeline
