import RV32Pipeline.Klib.FormatInteger

/-!
# Where integer conversions follow C

The text that `vsnprintf` emits for an integer conversion is compared with the text that C
prescribes. Both are fields with the same digits, unless the conversion is hexadecimal and the
value has other digits in base 10. So the fields decide: a field is told from another by its last
character, its length, and what stands in front of the digits.
-/

namespace RV32Pipeline

namespace Klib

namespace C

open Numeral

/-! ## Fields -/

section Fields

variable {left zeros left' zeros' : Bool} {pad pad' : ℕ} {sign body : List (BitVec 8)}

theorem length_field :
    (field left zeros pad sign body).length = sign.length + body.length + pad := by
  unfold field
  split_ifs
  · simp only [List.length_append, List.length_replicate]
  · simp only [List.length_append, List.length_replicate]
    omega
  · simp only [List.length_append, List.length_replicate]
    omega

theorem field_zero : field left zeros 0 sign body = sign ++ body := by
  unfold field
  split_ifs
  · simp
  · simp
  · simp

/-- The characters of a field: those of the sign and of the body, and those of the padding. -/
theorem mem_field {c : BitVec 8} : c ∈ field left zeros pad sign body ↔
    c ∈ sign ∨ c ∈ body ∨ pad ≠ 0 ∧ c = if !left && zeros then byteOf '0' else byteOf ' ' := by
  unfold field
  rcases left with _ | _
  · rcases zeros with _ | _
    · simp [or_comm, or_left_comm]
    · simp [or_comm, or_left_comm]
  · simp

/-- The last character of a field that is padded on the right. -/
theorem getLast?_field_left (hpad : pad ≠ 0) :
    (field true zeros pad sign body).getLast? = some (byteOf ' ') := by
  rw [field, if_pos rfl, List.getLast?_append, List.getLast?_replicate, if_neg hpad]
  rfl

/-- The last character of a field that is padded on the left. -/
theorem getLast?_field_right (hbody : body ≠ []) :
    (field false zeros pad sign body).getLast? = body.getLast? := by
  rw [field, if_neg (by decide)]
  split_ifs
  · rw [List.getLast?_append_of_ne_nil _ hbody]
  · rw [List.getLast?_append_of_ne_nil _ hbody]

/-- Two fields with the same sign and the same body. -/
theorem field_eq_field_iff (hsign : byteOf '0' ∉ sign) (hbody : body ≠ [])
    (hblank : byteOf ' ' ∉ body) :
    field left zeros pad sign body = field left' zeros' pad' sign body ↔
      pad = pad' ∧ (pad = 0 ∨ left = left' ∧ (left = false → zeros = zeros')) := by
  constructor
  · intro h
    have hlen := congrArg List.length h
    rw [length_field, length_field] at hlen
    obtain rfl : pad = pad' := by omega
    refine ⟨rfl, Classical.or_iff_not_imp_left.mpr fun hpad => ?_⟩
    -- The last character tells on which side the field is padded.
    have hlast := congrArg List.getLast? h
    have hne : body.getLast? ≠ some (byteOf ' ') := fun h => hblank (List.mem_of_getLast? h)
    -- In front of the body, the last character tells zeros from spaces, as no sign is a 0.
    have hspaces : sign ++ List.replicate pad (byteOf '0') ≠
        List.replicate pad (byteOf ' ') ++ sign := by
      intro h
      have hlast := congrArg List.getLast? h
      rw [List.getLast?_append, List.getLast?_append, List.getLast?_replicate,
        List.getLast?_replicate, if_neg hpad, if_neg hpad, Option.some_or] at hlast
      rcases hs : sign.getLast? with - | c
      · rw [hs, Option.none_or] at hlast
        exact absurd hlast (by decide)
      · rw [hs, Option.some_or] at hlast
        exact hsign (List.mem_of_getLast? (hs.trans hlast.symm))
    rcases left with _ | _ <;> rcases left' with _ | _
    · refine ⟨rfl, fun _ => ?_⟩
      rcases zeros with _ | _ <;> rcases zeros' with _ | _
      · rfl
      · exact absurd (List.append_cancel_right h).symm hspaces
      · exact absurd (List.append_cancel_right h) hspaces
      · rfl
    · rw [getLast?_field_right hbody, getLast?_field_left hpad] at hlast
      exact absurd hlast hne
    · rw [getLast?_field_right hbody, getLast?_field_left hpad] at hlast
      exact absurd hlast.symm hne
    · exact ⟨rfl, fun h => absurd h (by decide)⟩
  · rintro ⟨rfl, rfl | ⟨rfl, hzeros⟩⟩
    · rw [field_zero, field_zero]
    · rcases left with _ | _
      · rw [hzeros rfl]
      · rfl

/-- A field with a space for its sign, and a field with the same body and no sign. -/
theorem field_space_eq_field_iff (hbody : body ≠ []) (hblank : byteOf ' ' ∉ body)
    (hleft : left = true → left' = true) :
    field left zeros pad [byteOf ' '] body = field left' zeros' pad' [] body ↔
      left = false ∧ (zeros = true → pad = 0) ∧ pad + 1 = pad' ∧ left' = false ∧
        zeros' = false := by
  have hhead : body.head? ≠ some (byteOf ' ') := fun h => hblank (List.mem_of_head? h)
  -- With the space next to the padding, the field has one more character of padding and no sign.
  have hspaces : ∀ n, List.replicate n (byteOf ' ') ++ [byteOf ' '] ++ body =
      field false false (n + 1) [] body := fun n => by
    rw [← List.replicate_succ', field, if_neg (by decide), if_neg (by decide), List.append_nil]
  have hiff : ∀ n, field false false (n + 1) [] body = field left' zeros' pad' [] body ↔
      n + 1 = pad' ∧ left' = false ∧ zeros' = false := fun n => by
    rw [field_eq_field_iff (List.not_mem_nil) hbody hblank]
    constructor
    · rintro ⟨hpad, h⟩
      obtain ⟨rfl, hz⟩ := h.resolve_left (Nat.succ_ne_zero n)
      exact ⟨hpad, rfl, (hz rfl).symm⟩
    · rintro ⟨hpad, rfl, rfl⟩
      exact ⟨hpad, Or.inr ⟨rfl, fun _ => rfl⟩⟩
  rcases left with _ | _
  · rcases zeros with _ | _
    · rw [field, if_neg (by decide), if_neg (by decide), hspaces, hiff]
      simp
    · rcases pad with - | n
      · rw [field_zero, show [byteOf ' '] ++ body = field false false (0 + 1) [] body from
          (hspaces 0), hiff]
        simp
      · refine iff_of_false (fun h => ?_) (by simp)
        have hlen := congrArg List.length h
        rw [length_field, length_field, List.length_singleton, List.length_nil] at hlen
        obtain rfl : pad' = n + 2 := by omega
        rcases left' with _ | _
        · rcases zeros' with _ | _
          · have htail := (List.cons.inj (h : byteOf ' ' :: (byteOf '0' ::
              (List.replicate n (byteOf '0') ++ body)) = byteOf ' ' :: (byteOf ' ' ::
                (List.replicate n (byteOf ' ') ++ [] ++ body)))).2
            exact absurd (List.cons.inj htail).1 (by decide)
          · exact absurd (List.cons.inj (h : byteOf ' ' :: _ = byteOf '0' :: _)).1 (by decide)
        · have hlast := congrArg List.getLast? h
          rw [getLast?_field_right hbody, getLast?_field_left (by omega)] at hlast
          exact hblank (List.mem_of_getLast? hlast)
  · refine iff_of_false (fun h => ?_) (by simp)
    rw [hleft rfl] at h
    have hfirst := congrArg List.head? h
    rw [field, field, if_pos rfl, if_pos rfl, List.nil_append, List.head?_append_of_ne_nil _ hbody]
      at hfirst
    exact hhead hfirst.symm

end Fields

/-! ## Digits -/

/-- The base in which the code prints a conversion. -/
def Specifier.codeBase (s : Specifier) : ℕ := if s = .o then 8 else 10

theorem Specifier.codeBase_eq (s : Specifier) : Klib.C.codeBase s.byte = s.codeBase := by
  rw [Klib.C.codeBase_eq]
  cases s <;> rfl

theorem Specifier.digitsOf_getD (s : Specifier) (d : ℕ) :
    (digitsOf s.byte).getD d 0#8 = s.digit d := by
  cases s <;> rfl

theorem Specifier.codeDigits_eq (s : Specifier) (v : ℕ) :
    codeDigits s.byte v = (numeral s.codeBase v).map s.digit := by
  unfold codeDigits
  rw [s.codeBase_eq]
  exact List.map_congr_left fun d _ => s.digitsOf_getD d

/-- The character is no space and no sign. -/
def IsFigure (c : BitVec 8) : Prop := c ≠ byteOf ' ' ∧ c ≠ byteOf '+' ∧ c ≠ byteOf '-'

instance (c : BitVec 8) : Decidable (IsFigure c) := inferInstanceAs (Decidable (_ ∧ _ ∧ _))

/-- The characters of the digits are figures, and only that of 0 is a 0. -/
theorem Specifier.digit_figure (s : Specifier) {d : ℕ} (hd : d < 16) :
    IsFigure (s.digit d) ∧ (s.digit d = byteOf '0' → d = 0) := by
  have h : ∀ d : Fin 16, IsFigure (s.digit d) ∧ (s.digit d = byteOf '0' → (d : ℕ) = 0) := by
    cases s <;> decide
  exact h ⟨d, hd⟩

/-- Different digits have different characters. -/
theorem Specifier.digit_injective (s : Specifier) {d e : ℕ} (hd : d < 16) (he : e < 16)
    (h : s.digit d = s.digit e) : d = e := by
  have hinj : ∀ d e : Fin 16, s.digit d = s.digit e → (d : ℕ) = e := by
    cases s <;> decide
  exact hinj ⟨d, hd⟩ ⟨e, he⟩ h

theorem Specifier.codeBase_bounds (s : Specifier) : 1 < s.codeBase ∧ s.codeBase ≤ 16 := by
  unfold Specifier.codeBase
  split_ifs
  · decide
  · decide

theorem Specifier.base_bounds (s : Specifier) : 1 < s.base ∧ s.base ≤ 16 := by
  cases s <;> decide

/-- The code takes the base of the conversion, except for hexadecimal conversions. -/
theorem Specifier.codeBase_cases (s : Specifier) :
    s.codeBase = s.base ∧ s.base ≠ 16 ∨ s.codeBase = 10 ∧ s.base = 16 := by
  cases s <;> decide

section Body

variable {b p v : ℕ} {s : Specifier}

theorem withPrecision_ne_nil {ds : List (BitVec 8)} (h : ds ≠ []) : withPrecision p ds ≠ [] :=
  fun hnil => h (List.append_eq_nil_iff.mp hnil).2

theorem length_withPrecision {ds : List (BitVec 8)} :
    (withPrecision p ds).length = max p ds.length := by
  rw [withPrecision, List.length_append, List.length_replicate]
  omega

/-- A precision that was not given or is negative, as the standard and the code take it. -/
theorem withPrecision_filter (precision : Option ℤ) {ds : List (BitVec 8)} (h : ds ≠ []) :
    withPrecision ((precision.filter fun p => decide (0 ≤ p)).getD 1).toNat ds =
      withPrecision (precision.getD (-1)).toNat ds := by
  have hlen := List.length_pos_iff.mpr h
  have hcount : ((precision.filter fun p => decide (0 ≤ p)).getD 1).toNat - ds.length =
      (precision.getD (-1)).toNat - ds.length := by
    rcases precision with - | p
    · change 1 - ds.length = 0 - ds.length
      omega
    · by_cases hp : 0 ≤ p
      · rw [Option.filter_some, if_pos (decide_eq_true hp)]
        rfl
      · rw [Option.filter_some, if_neg (by simpa using hp)]
        simp only [Option.getD_none, Option.getD_some]
        omega
  rw [withPrecision, withPrecision, hcount]

/-- The digits with the zeros of the precision are figures. -/
theorem figure_of_mem_body (hb : 1 < b) (hb16 : b ≤ 16) {c : BitVec 8}
    (hc : c ∈ withPrecision p ((numeral b v).map s.digit)) : IsFigure c := by
  rcases List.mem_append.mp hc with hc | hc
  · rw [(List.mem_replicate.mp hc).2]
    decide
  · obtain ⟨d, hd, rfl⟩ := List.mem_map.mp hc
    exact (s.digit_figure ((lt_of_mem_numeral hb hd).trans_le hb16)).1

/-- What is left of a text without spaces, signs, and leading zeros. -/
def significant (t : List (BitVec 8)) : List (BitVec 8) :=
  (t.filter fun c => decide (IsFigure c)).dropWhile fun c => decide (c = byteOf '0')

/-- Of a field, the digits of the value are left. -/
theorem significant_field (hb : 1 < b) (hb16 : b ≤ 16) (hv : v ≠ 0) {left zeros : Bool} {pad : ℕ}
    {sign : List (BitVec 8)} (hsign : ∀ c ∈ sign, ¬ IsFigure c) :
    significant (field left zeros pad sign (withPrecision p ((numeral b v).map s.digit))) =
      (numeral b v).map s.digit := by
  have hfilterSign : sign.filter (fun c => decide (IsFigure c)) = [] :=
    List.filter_eq_nil_iff.mpr fun c hc => by simpa using hsign c hc
  have hfilterBody : (withPrecision p ((numeral b v).map s.digit)).filter
      (fun c => decide (IsFigure c)) = withPrecision p ((numeral b v).map s.digit) :=
    List.filter_eq_self.mpr fun c hc => decide_eq_true (figure_of_mem_body hb hb16 hc)
  have hfilterSpaces :
      (List.replicate pad (byteOf ' ')).filter (fun c => decide (IsFigure c)) = [] :=
    List.filter_eq_nil_iff.mpr fun c hc => by rw [(List.mem_replicate.mp hc).2]; decide
  have hfilterZeros : (List.replicate pad (byteOf '0')).filter (fun c => decide (IsFigure c)) =
      List.replicate pad (byteOf '0') :=
    List.filter_eq_self.mpr fun c hc => by rw [(List.mem_replicate.mp hc).2]; decide
  -- A positive number does not begin with a 0, so no digit of it is lost with the zeros.
  have hdrop : ∀ n, (List.replicate n (byteOf '0') ++ (numeral b v).map s.digit).dropWhile
      (fun c => decide (c = byteOf '0')) = (numeral b v).map s.digit := by
    intro n
    induction n with
    | zero =>
      rw [List.replicate_zero, List.nil_append]
      rcases hn : numeral b v with - | ⟨d, ds⟩
      · rfl
      · have hd : d ≠ 0 := fun h => head_numeral_ne_zero (b := b) hv (by rw [hn, h]; rfl)
        have hlt : d < 16 :=
          (lt_of_mem_numeral hb (hn ▸ List.mem_cons_self : d ∈ numeral b v)).trans_le hb16
        rw [List.map_cons, List.dropWhile_cons, if_neg]
        simpa using fun h => hd ((s.digit_figure hlt).2 h)
    | succ n ih =>
      rw [List.replicate_succ, List.cons_append, List.dropWhile_cons, if_pos (by decide)]
      exact ih
  unfold significant field
  split_ifs
  · rw [List.filter_append, List.filter_append, hfilterSign, hfilterBody, hfilterSpaces,
      List.nil_append, List.append_nil]
    exact hdrop _
  · rw [List.filter_append, List.filter_append, hfilterSign, hfilterBody, hfilterZeros,
      List.nil_append, withPrecision, ← List.append_assoc, List.replicate_append_replicate]
    exact hdrop _
  · rw [List.filter_append, List.filter_append, hfilterSign, hfilterBody, hfilterSpaces,
      List.nil_append, List.nil_append]
    exact hdrop _

end Body

/-! ## The two texts -/

/-- The text that the code emits for a value. -/
def codeText (flags : List Flag) (width precision : Option ℤ) (s : Specifier) (value : ℤ) :
    List (BitVec 8) :=
  let body := withPrecision (precision.getD (-1)).toNat
    ((numeral s.codeBase value.natAbs).map s.digit)
  let sign := signText flags value
  field (decide (.minus ∈ flags)) (decide (.zero ∈ flags))
    (padCount (width.getD (-1)) (sign ++ body).length) sign body

section Compare

variable {flags : List Flag} {width precision : Option ℤ} {s : Specifier} {value : ℤ}

/-- The sign of a text is a sign or a space. -/
theorem not_figure_of_mem_sign {c : BitVec 8} (hc : c ∈ signText flags value) : ¬ IsFigure c := by
  unfold signText at hc
  split_ifs at hc
  · rw [List.mem_singleton.mp hc]
    decide
  · rw [List.mem_singleton.mp hc]
    decide
  · rw [List.mem_singleton.mp hc]
    decide
  · exact absurd hc List.not_mem_nil

theorem length_signText : (signText flags value).length ≤ 1 := by
  unfold signText
  split_ifs <;> simp

/-- The sign that the standard prescribes for a conversion. -/
def prescribedSign (flags : List Flag) (s : Specifier) (value : ℤ) : List (BitVec 8) :=
  if s.signed then signText flags value else []

theorem not_figure_of_mem_prescribedSign {c : BitVec 8} (hc : c ∈ prescribedSign flags s value) :
    ¬ IsFigure c := by
  unfold prescribedSign at hc
  split_ifs at hc
  · exact not_figure_of_mem_sign hc
  · exact absurd hc List.not_mem_nil

/-- The digits of a value in a base, with the zeros of the precision. -/
def bodyText (b : ℕ) (precision : Option ℤ) (s : Specifier) (value : ℤ) : List (BitVec 8) :=
  withPrecision (precision.getD (-1)).toNat ((numeral b value.natAbs).map s.digit)

theorem bodyText_ne_nil (b : ℕ) : bodyText b precision s value ≠ [] :=
  withPrecision_ne_nil (mt List.map_eq_nil_iff.mp numeral_ne_nil)

theorem length_bodyText : (bodyText s.base precision s value).length =
    digitCount precision s value := by
  have hpos := List.length_pos_iff.mpr (numeral_ne_nil (b := s.base) (v := value.natAbs))
  rw [bodyText, length_withPrecision, List.length_map, digitCount]
  rcases precision with - | p
  · change max 0 _ = max 1 _
    omega
  · rfl

/-- The field that the standard prescribes, where a value of 0 has a digit. -/
theorem valueText_eq (h0 : ¬ (value = 0 ∧ precision = some 0)) :
    valueText flags width precision s value =
      field (decide (.minus ∈ flags) || decide (width.getD 0 < 0))
        (decide (.zero ∈ flags) && decide (precision.getD (-1) < 0))
        ((width.getD 0).natAbs - fieldLength flags precision s value)
        (prescribedSign flags s value) (bodyText s.base precision s value) := by
  have hzero : ¬ (value = 0 ∧
      (precision.filter fun p => decide (0 ≤ p)) = some 0) := by
    rintro ⟨hv, hp⟩
    exact h0 ⟨hv, (Option.filter_eq_some_iff.mp hp).1⟩
  have hnone : (precision.filter fun p => decide (0 ≤ p)).isNone =
      decide (precision.getD (-1) < 0) := by
    rcases precision with - | p
    · rfl
    · by_cases hp : 0 ≤ p
      · rw [Option.filter_some, if_pos (decide_eq_true hp)]
        simpa using hp
      · rw [Option.filter_some, if_neg (by simpa using hp)]
        simpa using hp
  unfold valueText
  dsimp only
  rw [if_neg hzero, hnone,
    withPrecision_filter precision (mt List.map_eq_nil_iff.mp numeral_ne_nil), List.length_append,
    ← bodyText, length_bodyText]
  rfl

/-- The field that the code emits, where its base is right. -/
theorem codeText_eq {b : ℕ} (hdigits : numeral s.codeBase value.natAbs = numeral b value.natAbs) :
    codeText flags width precision s value =
      field (decide (.minus ∈ flags)) (decide (.zero ∈ flags))
        (padCount (width.getD (-1))
          ((signText flags value).length + (bodyText b precision s value).length))
        (signText flags value) (bodyText b precision s value) := by
  unfold codeText
  dsimp only
  rw [hdigits, ← bodyText, List.length_append]

/-- Only the numbers below 10 are written with the same digits in the bases 10 and 16. -/
theorem lt_of_digits_eq {v : ℕ} (h : (numeral 10 v).map s.digit = (numeral 16 v).map s.digit) :
    v < 10 := by
  refine lt_of_numeral_eq (b := 10) (c := 16) (by decide) (by decide) ?_
  have hlt10 : ∀ d ∈ numeral 10 v, d < 16 := fun d hd =>
    (lt_of_mem_numeral (by decide) hd).trans (by decide)
  have hlt16 : ∀ d ∈ numeral 16 v, d < 16 := fun d hd => lt_of_mem_numeral (by decide) hd
  generalize numeral 10 v = l at h hlt10 ⊢
  generalize numeral 16 v = l' at h hlt16 ⊢
  induction l generalizing l' with
  | nil => exact (List.map_eq_nil_iff.mp h.symm).symm
  | cons d l ih =>
    rcases l' with - | ⟨e, l'⟩
    · exact absurd h (by simp)
    · obtain ⟨hd, hl⟩ := List.cons.inj h
      rw [s.digit_injective (hlt10 d List.mem_cons_self) (hlt16 e List.mem_cons_self) hd,
        ih (fun d hd => hlt10 d (List.mem_cons_of_mem _ hd)) l' hl
          fun d hd => hlt16 d (List.mem_cons_of_mem _ hd)]

/-- A hexadecimal value of two digits in base 10 is not printed as it should be. -/
theorem codeText_ne_of_hex (hbase : s.base = 16) (hv : ¬ value.natAbs < 10) :
    codeText flags width precision s value ≠ valueText flags width precision s value := by
  intro h
  have hv0 : value.natAbs ≠ 0 := by omega
  have hcode : s.codeBase = 10 :=
    (s.codeBase_cases.resolve_left fun hne => hne.2 hbase).1
  have hsig := congrArg significant h
  rw [codeText_eq rfl, valueText_eq (fun h0 => hv0 (by rw [h0.1]; rfl)), bodyText, bodyText,
    significant_field s.codeBase_bounds.1 s.codeBase_bounds.2 hv0
      fun c hc => not_figure_of_mem_sign hc,
    significant_field s.base_bounds.1 s.base_bounds.2 hv0
      fun c hc => not_figure_of_mem_prescribedSign hc, hbase, hcode] at hsig
  exact hv (lt_of_digits_eq hsig)

/-- The field that the standard prescribes for a 0 with the precision 0. -/
theorem valueText_of_zero : valueText flags width (some 0) s 0 =
    field (decide (.minus ∈ flags) || decide (width.getD 0 < 0)) (decide (.zero ∈ flags) && false)
      ((width.getD 0).natAbs - (prescribedSign flags s 0 ++ []).length)
      (prescribedSign flags s 0) [] := rfl

/-- The code prints a digit for a value of 0 with the precision 0. -/
theorem codeText_ne_of_zero :
    codeText flags width (some 0) s 0 ≠ valueText flags width (some 0) s 0 := by
  intro h
  have hbody : byteOf '0' ∈ bodyText s.codeBase (some 0) s 0 := by
    cases s <;> decide
  have hmem : byteOf '0' ∈ codeText flags width (some 0) s 0 := by
    rw [codeText_eq rfl]
    exact mem_field.mpr (Or.inr (Or.inl hbody))
  rw [h, valueText_of_zero] at hmem
  rcases mem_field.mp hmem with hsign | hnil | ⟨-, hpad⟩
  · exact not_figure_of_mem_prescribedSign hsign (by decide)
  · exact absurd hnil List.not_mem_nil
  · rw [Bool.and_false, Bool.and_false, if_neg Bool.false_ne_true] at hpad
    exact absurd hpad (by decide)

theorem length_prescribedSign : (prescribedSign flags s value).length ≤ 1 := by
  unfold prescribedSign
  split_ifs
  · exact length_signText
  · exact Nat.zero_le 1

/-- The digits with the zeros of the precision are at least one, and as many as an `int` counts. -/
theorem digitCount_bounds (hprecision : precision.getD (-1) < 2 ^ 31)
    (hvalue : value.natAbs < 2 ^ 64) :
    0 < digitCount precision s value ∧ digitCount precision s value < 2 ^ 31 := by
  have hb := s.base_bounds.1
  have hpos := List.length_pos_iff.mpr (numeral_ne_nil (b := s.base) (v := value.natAbs))
  have hlen : (numeral s.base value.natAbs).length ≤ 64 :=
    length_numeral_le hb (by decide) (hvalue.trans_le (Nat.pow_le_pow_left hb 64))
  unfold digitCount
  rcases precision with - | p
  · simp only [Option.getD_none]
    omega
  · simp only [Option.getD_some] at hprecision ⊢
    omega

section Padding

variable {t : ℕ} (hwidth : -2 ^ 31 ≤ width.getD (-1) ∧ width.getD (-1) < 2 ^ 31)
include hwidth

/-- The code pads a field of length `t` as the standard does, unless the width is negative and
larger than the field, or the length overflows. -/
theorem padCount_eq_iff (ht : 0 < t ∧ t ≤ 2 ^ 31) :
    padCount (width.getD (-1)) t = (width.getD 0).natAbs - t ↔
      -(t : ℤ) ≤ width.getD (-1) ∧
        (t = 2 ^ 31 → 0 ≤ width.getD (-1) ∨ width.getD (-1) = -2 ^ 31) := by
  unfold padCount
  rcases width with - | w
  · simp only [Option.getD_none] at hwidth ⊢
    split_ifs <;> omega
  · simp only [Option.getD_some] at hwidth ⊢
    split_ifs <;> omega

/-- Without an overflow, there is padding exactly in front of a field that is shorter than the
width. -/
theorem padCount_eq_zero_iff
    (hover : t = 2 ^ 31 → 0 ≤ width.getD (-1) ∨ width.getD (-1) = -2 ^ 31) (ht : t ≤ 2 ^ 31) :
    padCount (width.getD (-1)) t = 0 ↔ width.getD (-1) ≤ t := by
  unfold padCount
  split_ifs <;> omega

end Padding

/-- With the same digits and the same sign, the fields are equal exactly if the padding is. -/
theorem codeText_eq_iff_of_sign (hwidth : -2 ^ 31 ≤ width.getD (-1) ∧ width.getD (-1) < 2 ^ 31)
    (hprecision : precision.getD (-1) < 2 ^ 31) (hvalue : value.natAbs < 2 ^ 64)
    (h0 : ¬ (value = 0 ∧ precision = some 0))
    (hdigits : numeral s.codeBase value.natAbs = numeral s.base value.natAbs)
    (hsign : signText flags value = prescribedSign flags s value) :
    codeText flags width precision s value = valueText flags width precision s value ↔
      -(fieldLength flags precision s value : ℤ) ≤ width.getD (-1) ∧
        (.zero ∈ flags → .minus ∉ flags → 0 ≤ precision.getD (-1) →
          width.getD (-1) ≤ fieldLength flags precision s value) ∧
        (fieldLength flags precision s value = 2 ^ 31 →
          0 ≤ width.getD (-1) ∨ width.getD (-1) = -2 ^ 31) := by
  have hcount := digitCount_bounds (s := s) hprecision hvalue
  have hlen : 0 < fieldLength flags precision s value ∧
      fieldLength flags precision s value ≤ 2 ^ 31 := by
    have hle : (prescribedSign flags s value).length ≤ 1 := length_prescribedSign
    unfold prescribedSign at hle
    unfold fieldLength
    omega
  have hzero : byteOf '0' ∉ prescribedSign flags s value := fun h =>
    not_figure_of_mem_prescribedSign h (by decide)
  have hblank : byteOf ' ' ∉ bodyText s.base precision s value := fun h =>
    (figure_of_mem_body s.base_bounds.1 s.base_bounds.2 h).1 rfl
  rw [codeText_eq hdigits, valueText_eq h0, hsign,
    field_eq_field_iff hzero (bodyText_ne_nil _) hblank, length_bodyText,
    show (prescribedSign flags s value).length + digitCount precision s value =
      fieldLength flags precision s value from rfl]
  generalize fieldLength flags precision s value = t at hlen ⊢
  rw [padCount_eq_iff hwidth hlen]
  constructor
  · rintro ⟨⟨hle, hover⟩, hmode⟩
    refine ⟨hle, fun hz hm hp => ?_, hover⟩
    rcases hmode with hpad | ⟨-, hzeros⟩
    · exact (padCount_eq_zero_iff hwidth hover hlen.2).mp hpad
    · have hz' := hzeros (decide_eq_false hm)
      rw [decide_eq_true hz, decide_eq_false (by omega)] at hz'
      exact absurd hz' (by decide)
  · rintro ⟨hle, hzero, hover⟩
    refine ⟨⟨hle, hover⟩, Classical.or_iff_not_imp_left.mpr fun hpad => ?_⟩
    -- There is padding, so the width is positive.
    rw [padCount_eq_zero_iff hwidth hover hlen.2] at hpad
    have hleft : ¬ width.getD 0 < 0 := by
      rcases width with - | w
      · exact lt_irrefl 0
      · simp only [Option.getD_some] at hpad ⊢
        omega
    rw [decide_eq_false hleft, Bool.or_false]
    refine ⟨rfl, fun hm => ?_⟩
    by_cases hz : Flag.zero ∈ flags
    · have hp : precision.getD (-1) < 0 := by
        by_contra hp
        exact hpad (hzero hz (of_decide_eq_false hm) (by omega))
      rw [decide_eq_true hz, decide_eq_true hp]
      rfl
    · rw [decide_eq_false hz]
      rfl

/-- An unsigned conversion with the flag `+` begins with a sign. -/
theorem codeText_ne_of_plus (hs : s.signed = false) (hplus : .plus ∈ flags) (hvalue : 0 ≤ value)
    (h0 : ¬ (value = 0 ∧ precision = some 0)) :
    codeText flags width precision s value ≠ valueText flags width precision s value := by
  intro h
  have hsign : byteOf '+' ∈ signText flags value := by
    unfold signText
    rw [if_neg (by omega), if_pos hplus]
    exact List.mem_singleton_self _
  have hmem : byteOf '+' ∈ codeText flags width precision s value := by
    rw [codeText_eq rfl]
    exact mem_field.mpr (Or.inl hsign)
  rw [h, valueText_eq h0] at hmem
  rcases mem_field.mp hmem with hsign | hbody | ⟨-, hpad⟩
  · rw [prescribedSign, hs] at hsign
    exact absurd hsign List.not_mem_nil
  · exact (figure_of_mem_body s.base_bounds.1 s.base_bounds.2 hbody).2.1 rfl
  · split_ifs at hpad
    · exact absurd hpad (by decide)
    · exact absurd hpad (by decide)

/-- An unsigned conversion with the flag for a space: the space is right only in the place of
padding. -/
theorem codeText_eq_iff_of_space (hwidth : -2 ^ 31 ≤ width.getD (-1) ∧ width.getD (-1) < 2 ^ 31)
    (hprecision : precision.getD (-1) < 2 ^ 31) (hvalue : value.natAbs < 2 ^ 64)
    (h0 : ¬ (value = 0 ∧ precision = some 0))
    (hdigits : numeral s.codeBase value.natAbs = numeral s.base value.natAbs)
    (hs : s.signed = false) (hnonneg : 0 ≤ value) (hplus : .plus ∉ flags)
    (hspace : .space ∈ flags) :
    codeText flags width precision s value = valueText flags width precision s value ↔
      .minus ∉ flags ∧ digitCount precision s value < width.getD (-1) ∧
        (.zero ∈ flags → 0 ≤ precision.getD (-1) ∧
          width.getD (-1) = digitCount precision s value + 1) := by
  have hcount := digitCount_bounds (s := s) hprecision hvalue
  have hsign : signText flags value = [byteOf ' '] := by
    unfold signText
    rw [if_neg (by omega), if_neg hplus, if_pos hspace]
  have hprescribed : prescribedSign flags s value = [] := by
    rw [prescribedSign, hs]
    rfl
  have hlen : fieldLength flags precision s value = digitCount precision s value := by
    unfold fieldLength
    rw [hs]
    exact Nat.zero_add _
  have hblank : byteOf ' ' ∉ bodyText s.base precision s value := fun h =>
    (figure_of_mem_body s.base_bounds.1 s.base_bounds.2 h).1 rfl
  rw [codeText_eq hdigits, valueText_eq h0, hsign, hprescribed, hlen,
    field_space_eq_field_iff (bodyText_ne_nil _) hblank (fun h => by rw [h]; rfl), length_bodyText,
    List.length_singleton]
  generalize digitCount precision s value = t at hcount ⊢
  -- The standard pads on the left exactly if the width is not negative.
  have hpad : padCount (width.getD (-1)) (1 + t) + 1 = (width.getD 0).natAbs - t ∧
      ¬ width.getD 0 < 0 ↔ t < width.getD (-1) := by
    unfold padCount
    rcases width with - | w
    · simp only [Option.getD_none]
      omega
    · simp only [Option.getD_some] at hwidth ⊢
      split_ifs <;> omega
  have hzero : t < width.getD (-1) →
      (padCount (width.getD (-1)) (1 + t) = 0 ↔ width.getD (-1) = t + 1) := by
    intro hlt
    unfold padCount
    split_ifs <;> omega
  simp only [decide_eq_false_iff_not, Bool.or_eq_false_iff, Bool.and_eq_false_iff,
    decide_eq_true_eq]
  constructor
  · rintro ⟨hm, hz, hp, ⟨-, hw⟩, hzeros⟩
    have hlt := hpad.mp ⟨hp, hw⟩
    refine ⟨hm, hlt, fun hzm => ⟨?_, (hzero hlt).mp (hz hzm)⟩⟩
    have hprec := hzeros.resolve_left (not_not_intro hzm)
    omega
  · rintro ⟨hm, hlt, hz⟩
    obtain ⟨hp, hw⟩ := hpad.mpr hlt
    refine ⟨hm, fun hzm => (hzero hlt).mpr (hz hzm).2, hp, ⟨hm, hw⟩, ?_⟩
    by_cases hzm : Flag.zero ∈ flags
    · exact Or.inr (by have := (hz hzm).1; omega)
    · exact Or.inl hzm

/-- The code emits the prescribed text exactly under the condition of `Agrees`. -/
theorem codeText_eq_valueText_iff
    (hwidth : -2 ^ 31 ≤ width.getD (-1) ∧ width.getD (-1) < 2 ^ 31)
    (hprecision : precision.getD (-1) < 2 ^ 31) (hvalue : value.natAbs < 2 ^ 64)
    (hnonneg : s.signed = false → 0 ≤ value) :
    codeText flags width precision s value = valueText flags width precision s value ↔
      Agrees flags width precision s value := by
  by_cases h0 : value = 0 ∧ precision = some 0
  · obtain ⟨rfl, rfl⟩ := h0
    exact iff_of_false codeText_ne_of_zero fun h => h.zero ⟨rfl, rfl⟩
  by_cases hhex : s.base = 16 → value.natAbs < 10
  · -- The digits are the same, so the fields decide.
    have hdigits : numeral s.codeBase value.natAbs = numeral s.base value.natAbs := by
      rcases s.codeBase_cases with ⟨heq, -⟩ | ⟨hcode, hbase⟩
      · rw [heq]
      · have hlt := hhex hbase
        rw [hcode, hbase, numeral, numeral, low_of_lt hlt, low_of_lt (by omega)]
    by_cases hcase : s.signed = true ∨ (.plus ∉ flags ∧ .space ∉ flags)
    · -- An unsigned number without these flags has no sign in the code either.
      have hsign : signText flags value = prescribedSign flags s value := by
        unfold prescribedSign
        split_ifs with hs
        · rfl
        · obtain ⟨hplus, hspace⟩ := hcase.resolve_left hs
          have hge := hnonneg (Bool.eq_false_iff.mpr hs)
          unfold signText
          rw [if_neg (by omega), if_neg hplus, if_neg hspace]
      rw [codeText_eq_iff_of_sign hwidth hprecision hvalue h0 hdigits hsign]
      exact ⟨fun h => ⟨hhex, h0, fun _ => h, fun hno => absurd hcase hno⟩, fun h => h.sign hcase⟩
    · have hs : s.signed = false := Bool.eq_false_iff.mpr fun hs => hcase (Or.inl hs)
      by_cases hplus : Flag.plus ∈ flags
      · exact iff_of_false (codeText_ne_of_plus hs hplus (hnonneg hs) h0)
          fun h => (h.noSign hcase).1 hplus
      · have hspace : Flag.space ∈ flags := by
          by_contra hspace
          exact hcase (Or.inr ⟨hplus, hspace⟩)
        rw [codeText_eq_iff_of_space hwidth hprecision hvalue h0 hdigits hs (hnonneg hs) hplus
          hspace]
        exact ⟨fun h => ⟨hhex, h0, fun hyes => absurd hyes hcase, fun _ => ⟨hplus, h⟩⟩,
          fun h => (h.noSign hcase).2⟩
  · obtain ⟨hbase, hv⟩ := Classical.not_imp.mp hhex
    exact iff_of_false (codeText_ne_of_hex hbase hv) fun h => hv (h.hex hbase)

end Compare

/-! ## What the code emits -/

/-- The fields hold the width and the precision. -/
theorem toInt_widthWord (ap : VaList) (w : Width) :
    (widthWord ap w).toInt = (w.value ap).1.getD (-1) := by
  cases w with
  | omitted => rfl
  | digits d ds hd hlt =>
    change (BitVec.ofInt 32 (decimalValue (d :: ds))).toInt = decimalValue (d :: ds)
    rw [BitVec.toInt_ofInt, Int.bmod_def]
    omega
  | star =>
    change (BitVec.ofInt 32 ap.word.1.toInt).toInt = ap.word.1.toInt
    rw [BitVec.ofInt_toInt]

theorem toInt_precisionWord (ap : VaList) (p : Precision) :
    (precisionWord ap p).toInt = (p.value ap).1.getD (-1) := by
  cases p with
  | omitted => rfl
  | digits ds hlt =>
    change (BitVec.ofInt 32 (decimalValue ds)).toInt = decimalValue ds
    rw [BitVec.toInt_ofInt, Int.bmod_def]
    omega
  | star =>
    change (BitVec.ofInt 32 ap.word.1.toInt).toInt = ap.word.1.toInt
    rw [BitVec.ofInt_toInt]

/-- The argument of a signed conversion. -/
theorem toInt_signedArg (m : Modifier) (ap : VaList) :
    (signedArg m.length ap).1.toInt = argument true ap m := by
  cases m with
  | none => exact BitVec.toInt_signExtend_of_le (by decide)
  | hh => exact BitVec.toInt_signExtend_of_le (by decide)
  | h => exact BitVec.toInt_signExtend_of_le (by decide)
  | l => exact BitVec.toInt_signExtend_of_le (by decide)
  | ll => rfl

/-- The argument of an unsigned conversion. -/
theorem toNat_unsignedArg (m : Modifier) (ap : VaList) :
    ((unsignedArg m.length ap).1.toNat : ℤ) = argument false ap m := by
  cases m with
  | none => exact congrArg Nat.cast (BitVec.toNat_setWidth_of_le (by decide))
  | hh => exact congrArg Nat.cast (BitVec.toNat_setWidth_of_le (by decide))
  | h => exact congrArg Nat.cast (BitVec.toNat_setWidth_of_le (by decide))
  | l => exact congrArg Nat.cast (BitVec.toNat_setWidth_of_le (by decide))
  | ll => rfl

/-- The number that is printed for a signed argument, also for the most negative one. -/
theorem toNat_magnitude (n : BitVec 64) :
    (if n.slt 0#64 then -n else n).toNat = n.toInt.natAbs := by
  have hn := n.isLt
  have hint := BitVec.toInt_eq_toNat_cond n
  have hslt : n.slt 0#64 = true ↔ n.toInt < 0 := by
    rw [BitVec.slt, decide_eq_true_eq, BitVec.toInt_zero]
  by_cases hneg : n.toInt < 0
  · rw [if_pos (hslt.mpr hneg), BitVec.toNat_neg]
    split_ifs at hint <;> omega
  · rw [if_neg (mt hslt.mp hneg)]
    split_ifs at hint <;> omega

/-- The text of an integer conversion with its fields, for a value. -/
theorem integerText_spec (c : Conversion) (ap : VaList) {num : BitVec 64} {value : ℤ}
    (hnum : num.toNat = value.natAbs) : integerText (c.spec ap) num (decide (value < 0)) =
      codeText c.flags (c.width.value ap).1 (c.precision.value (c.width.value ap).2).1
        c.specifier value := by
  have hsign : codeSign (c.spec ap) (decide (value < 0)) = signText c.flags value := by
    unfold codeSign FormatSpec.sign signText
    simp only [Conversion.spec, decide_eq_true_eq]
    by_cases hneg : value < 0
    · simp only [if_pos hneg]
      rfl
    · simp only [if_neg hneg]
      by_cases hplus : Flag.plus ∈ c.flags
      · simp only [if_pos hplus]
        rfl
      · simp only [if_neg hplus]
        by_cases hspace : Flag.space ∈ c.flags
        · simp only [if_pos hspace]
          rfl
        · simp only [if_neg hspace]
          rfl
  rw [integerText_eq, hsign, hnum]
  simp only [Conversion.spec, toInt_widthWord, toInt_precisionWord, c.specifier.codeDigits_eq]
  rw [codeText, List.length_append, length_withPrecision]

/-- The value that a conversion converts. -/
def Conversion.arg (c : Conversion) (ap : VaList) : ℤ :=
  argument c.specifier.signed (c.rest ap) c.modifier

/-- The text of an integer conversion with its arguments. -/
theorem conversionText_spec (mem : ByteMem 32) (c : Conversion) (ap : VaList) :
    (conversionText mem (c.spec ap) (c.rest ap)).1 =
      codeText c.flags (c.width.value ap).1 (c.precision.value (c.width.value ap).2).1
        c.specifier (c.arg ap) := by
  have hbyte : (c.spec ap).specifier = c.specifier.byte := rfl
  have hlength : (c.spec ap).length = c.modifier.length := rfl
  unfold conversionText
  dsimp only
  rw [hbyte, hlength]
  rcases hs : c.specifier.signed with _ | _
  · have hnot : ¬ (c.specifier.byte = byteOf 'd' ∨ c.specifier.byte = byteOf 'i') := by
      revert hs
      cases c.specifier <;> decide
    have hunsigned : c.specifier.byte = byteOf 'u' ∨ c.specifier.byte = byteOf 'o' ∨
        c.specifier.byte = byteOf 'x' ∨ c.specifier.byte = byteOf 'X' := by
      revert hs
      cases c.specifier <;> decide
    have harg := toNat_unsignedArg c.modifier (c.rest ap)
    rw [← hs, ← Conversion.arg] at harg
    have hneg : decide (c.arg ap < 0) = false := decide_eq_false (by omega)
    have hnum : (unsignedArg c.modifier.length (c.rest ap)).1.toNat = (c.arg ap).natAbs := by
      omega
    rw [if_neg hnot, if_pos hunsigned, ← integerText_spec c ap hnum, hneg]
  · have hsigned : c.specifier.byte = byteOf 'd' ∨ c.specifier.byte = byteOf 'i' := by
      revert hs
      cases c.specifier <;> decide
    have harg := toInt_signedArg c.modifier (c.rest ap)
    rw [← hs, ← Conversion.arg] at harg
    have hneg : (signedArg c.modifier.length (c.rest ap)).1.slt 0#64 =
        decide (c.arg ap < 0) := by
      rw [BitVec.slt, harg, BitVec.toInt_zero]
    have hnum := toNat_magnitude (signedArg c.modifier.length (c.rest ap)).1
    rw [harg, hneg] at hnum
    rw [if_pos hsigned, hneg]
    exact integerText_spec c ap hnum

/-! ## The conversion in a format -/

/-- The text of a conversion that stands before the rest of a format. -/
theorem formatText_text (mem : ByteMem 32) (c : Conversion) (ap : VaList) (t : List (BitVec 8)) :
    formatText mem (c.text ++ t) ap =
      (formatText mem t (conversionText mem (c.spec ap) (c.rest ap)).2).map
        fun cs => codeText c.flags (c.width.value ap).1
          (c.precision.value (c.width.value ap).2).1 c.specifier (c.arg ap) ++ cs := by
  obtain ⟨t', htext, hparse⟩ := parseFormat_text c ap t
  rw [htext, formatText_conversion hparse, conversionText_spec]

/-- No character of a conversion is a NUL. -/
theorem Conversion.noNul (c : Conversion) : 0#8 ∉ c.text := by
  have hdigits : ∀ ds : List (Fin 10), 0#8 ∉ ds.map decimalByte := by
    intro ds hmem
    obtain ⟨d, -, hd⟩ := List.mem_map.mp hmem
    revert hd
    revert d
    decide
  have hflags : 0#8 ∉ c.flags.map Flag.byte := by
    intro hmem
    obtain ⟨f, -, hf⟩ := List.mem_map.mp hmem
    cases f <;> exact absurd hf (by decide)
  have hwidth : 0#8 ∉ c.width.text := by
    cases c.width with
    | omitted => exact List.not_mem_nil
    | digits d ds hd hlt => exact hdigits (d :: ds)
    | star => decide
  have hprecision : 0#8 ∉ c.precision.text := by
    cases c.precision with
    | omitted => exact List.not_mem_nil
    | digits ds hlt =>
      rw [Precision.text, List.mem_cons, not_or]
      exact ⟨by decide, hdigits ds⟩
    | star => decide
  have hmodifier : 0#8 ∉ c.modifier.text := by
    cases c.modifier <;> decide
  have hspecifier : 0#8 ∉ [c.specifier.byte] := by
    cases c.specifier <;> decide
  unfold Conversion.text
  simp only [List.mem_cons, List.mem_append, not_or] at hspecifier ⊢
  exact ⟨by decide, hflags, hwidth, hprecision, hmodifier, hspecifier⟩

/-- The format that consists of a conversion. -/
def Conversion.format (c : Conversion) : Format := { text := c.text, noNul := c.noNul }

/-- The range of the arguments. -/
theorem natAbs_arg_lt (c : Conversion) (ap : VaList) : (c.arg ap).natAbs < 2 ^ 64 ∧
    (c.specifier.signed = false → 0 ≤ c.arg ap) := by
  unfold Conversion.arg
  rcases c.specifier.signed with _ | _
  · rw [← toNat_unsignedArg]
    refine ⟨?_, fun _ => Int.natCast_nonneg _⟩
    rw [Int.natAbs_natCast]
    exact BitVec.isLt _
  · rw [← toInt_signedArg, ← toNat_magnitude]
    exact ⟨BitVec.isLt _, fun h => absurd h (by decide)⟩

/-- The text of the format that consists of a conversion. -/
theorem formatText_format (mem : ByteMem 32) (c : Conversion) (ap : VaList) :
    formatText mem c.format.bytes ap = some (codeText c.flags (c.width.value ap).1
      (c.precision.value (c.width.value ap).2).1 c.specifier (c.arg ap)) := by
  have hnul : formatText mem [0#8] (conversionText mem (c.spec ap) (c.rest ap)).2 = some [] := by
    rw [formatText, if_pos rfl]
  have htext := formatText_text mem c ap [0#8]
  rw [hnul, Option.map_some, List.append_nil] at htext
  exact htext

/-- `vsnprintf` emits the text that C prescribes for an integer conversion exactly under the
condition of `Agrees`. -/
theorem integer_format_iff (mem : ByteMem 32) (buf : ℤ → BitVec 8) (size : Word) (c : Conversion)
    (ap : VaList) :
    (∃ o, vsnprintf mem buf size c.format.bytes ap = some o ∧ o.appended = c.prescribed ap) ↔
      c.Agrees ap := by
  obtain ⟨o, ho, happended, -, -⟩ := vsnprintf_of_text (formatText_format mem c ap) buf size
  have hwidth := toInt_widthWord ap c.width
  have hprecision := toInt_precisionWord (c.width.value ap).2 c.precision
  obtain ⟨hvalue, hnonneg⟩ := natAbs_arg_lt c ap
  have hiff : codeText c.flags (c.width.value ap).1 (c.precision.value (c.width.value ap).2).1
      c.specifier (c.arg ap) = c.prescribed ap ↔ c.Agrees ap :=
    codeText_eq_valueText_iff
      ⟨hwidth ▸ BitVec.le_toInt (widthWord ap c.width), hwidth ▸ BitVec.toInt_lt⟩
      (hprecision ▸ BitVec.toInt_lt) hvalue hnonneg
  constructor
  · rintro ⟨o', ho', hprescribed⟩
    cases ho.symm.trans ho'
    rw [happended] at hprescribed
    exact hiff.mp hprescribed
  · intro hagrees
    exact ⟨o, ho, happended.trans (hiff.mpr hagrees)⟩

/-- The conversion `%x`. -/
def hexConversion : Conversion where
  flags := []
  width := .omitted
  precision := .omitted
  modifier := .none
  specifier := .x

/-- The conversion `%x` does not print 255 as `ff`. -/
theorem vsnprintf_hexConversion : ¬ ∃ o, vsnprintf (fun _ => 0#8) (fun _ => 0#8) 16#32
    hexConversion.format.bytes { slots := fun _ => 255#32, ap := 0 } = some o ∧
      o.appended = hexConversion.prescribed { slots := fun _ => 255#32, ap := 0 } := by
  rintro ⟨o, ho, hprescribed⟩
  obtain ⟨o', ho', happended, -, -⟩ := vsnprintf_of_text (formatText_format (fun _ => 0#8)
    hexConversion { slots := fun _ => 255#32, ap := 0 }) (fun _ => 0#8) 16#32
  cases ho.symm.trans ho'
  rw [happended] at hprescribed
  exact codeText_ne_of_hex rfl (by decide) hprescribed

end C

end Klib

end RV32Pipeline
