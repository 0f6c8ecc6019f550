import RV32Pipeline.Klib.CConversion
import RV32Pipeline.Klib.FormatOutput

/-!
# Integer conversions in `stdio.c`

What `parse_format`, `handle_integer`, and `format_integer` make of an integer conversion, against
the text that C prescribes. `format_integer` prints hexadecimal numbers in decimal, puts a sign in
front of unsigned numbers, prints a digit where a 0 has the precision 0, pads with zeros in spite of
a precision, and takes a negative width for none.
-/

namespace RV32Pipeline

namespace Klib

namespace C

open Numeral

/-! ## The conversion is parsed -/

/-- The first of the characters is not taken for a flag, an asterisk, or a digit. -/
def Stops (t : List (BitVec 8)) : Prop :=
  ∃ c t', t = c :: t' ∧ ¬ Scan.IsFlag c ∧ c ≠ byteOf '*' ∧ isdigit c = false

/-- One flag. -/
def setFlag (spec : FormatSpec) : Flag → FormatSpec
  | .minus => { spec with leftJustify := true }
  | .plus => { spec with forceSign := true }
  | .space => { spec with space := true }
  | .zero => { spec with zeroPad := true }

/-- The loop over the flags reads the flags, up to a character that is none. -/
theorem parseFlags_flags (flags : List Flag) (spec : FormatSpec) {c : BitVec 8}
    {t : List (BitVec 8)} (hc : ¬ Scan.IsFlag c) :
    parseFlags spec (flags.map Flag.byte ++ c :: t) = some (flags.foldl setFlag spec, c :: t) := by
  induction flags generalizing spec with
  | nil =>
    unfold Scan.IsFlag at hc
    simp only [not_or] at hc
    obtain ⟨h1, h2, h3, h4, h5⟩ := hc
    rw [List.map_nil, List.nil_append, parseFlags, if_neg h1, if_neg h2, if_neg h3, if_neg h4,
      if_neg h5]
    rfl
  | cons f flags ih =>
    rw [List.map_cons, List.cons_append, parseFlags, List.foldl_cons, ← ih]
    cases f with
    | minus => rfl
    | plus => rfl
    | space => rfl
    | zero => rfl

/-- What the flags set. -/
theorem foldl_setFlag (flags : List Flag) (spec : FormatSpec) : flags.foldl setFlag spec =
    { spec with
      leftJustify := spec.leftJustify || decide (.minus ∈ flags)
      forceSign := spec.forceSign || decide (.plus ∈ flags)
      space := spec.space || decide (.space ∈ flags)
      zeroPad := spec.zeroPad || decide (.zero ∈ flags) } := by
  induction flags generalizing spec with
  | nil => simp
  | cons f flags ih =>
    rw [List.foldl_cons, ih]
    cases f with
    | minus => simp [setFlag]
    | plus => simp [setFlag]
    | space => simp [setFlag]
    | zero => simp [setFlag]

/-- The characters of digits are digits. -/
theorem isdigit_decimalByte (d : Fin 10) : isdigit (decimalByte d) = true := by
  revert d
  decide

/-- The character of a digit other than 0 is no flag and no asterisk. -/
theorem decimalByte_ne (d : Fin 10) (hd : d ≠ 0) :
    ¬ Scan.IsFlag (decimalByte d) ∧ decimalByte d ≠ byteOf '*' := by
  revert d
  decide

/-- A digit is not an asterisk. -/
theorem decimalByte_ne_star (d : Fin 10) : decimalByte d ≠ byteOf '*' := by
  revert d
  decide

/-- The value that a digit adds. -/
theorem setWidth_decimalByte (d : Fin 10) :
    (decimalByte d).setWidth 32 - (byteOf '0').setWidth 32 = BitVec.ofNat 32 d := by
  revert d
  decide

/-- Digits are read as the number that they are. -/
theorem parseDigits_digits (ds : List (Fin 10)) (x : ℕ) {c : BitVec 8} {t : List (BitVec 8)}
    (hc : isdigit c = false) : parseDigits (BitVec.ofNat 32 x) (ds.map decimalByte ++ c :: t) =
      some (BitVec.ofNat 32 (horner 10 x (ds.map Fin.val)), c :: t) := by
  induction ds generalizing x with
  | nil =>
    rw [List.map_nil, List.nil_append, parseDigits, hc]
    rfl
  | cons d ds ih =>
    rw [List.map_cons, List.cons_append, parseDigits, if_pos (isdigit_decimalByte d),
      setWidth_decimalByte, ← BitVec.ofNat_mul, ← BitVec.ofNat_add, ih]
    rfl

/-- The field `width` of the fields, for a width. -/
def widthWord (ap : VaList) (w : Width) : Word :=
  match (w.value ap).1 with
  | none => -1#32
  | some w => BitVec.ofInt 32 w

/-- The width is parsed. -/
theorem parseWidth_text (w : Width) (spec : FormatSpec) (hspec : spec.width = -1#32) (ap : VaList)
    {t : List (BitVec 8)} (ht : Stops t) : parseWidth spec ap (w.text ++ t) =
      some ({ spec with width := widthWord ap w }, t, (w.value ap).2) := by
  obtain ⟨c, t', rfl, -, hstar, hdigit⟩ := ht
  cases w with
  | omitted =>
    rw [Width.text, List.nil_append, parseWidth, if_neg hstar, hdigit]
    simp only [widthWord, Width.value, ← hspec]
    rfl
  | digits d ds hd hlt =>
    have h := parseDigits_digits (d :: ds) 0 (t := t') hdigit
    rw [List.map_cons, List.cons_append] at h
    rw [Width.text, List.map_cons, List.cons_append, parseWidth, if_neg (decimalByte_ne d hd).2,
      if_pos (isdigit_decimalByte d), h]
    rfl
  | star =>
    rw [Width.text, List.cons_append, parseWidth, if_pos rfl]
    simp only [widthWord, Width.value, BitVec.ofInt_toInt]
    rfl

/-- The field `precision` of the fields, for a precision. -/
def precisionWord (ap : VaList) (p : Precision) : Word :=
  match (p.value ap).1 with
  | none => -1#32
  | some p => BitVec.ofInt 32 p

/-- The precision is parsed. -/
theorem parsePrecision_text (p : Precision) (spec : FormatSpec) (hspec : spec.precision = -1#32)
    (ap : VaList) {c : BitVec 8} {t : List (BitVec 8)} (hdot : c ≠ byteOf '.')
    (hdigit : isdigit c = false) (hstar : c ≠ byteOf '*') :
    parsePrecision spec ap (p.text ++ c :: t) =
      some ({ spec with precision := precisionWord ap p }, c :: t, (p.value ap).2) := by
  cases p with
  | omitted =>
    rw [Precision.text, List.nil_append, parsePrecision, if_neg hdot]
    simp only [precisionWord, Precision.value, ← hspec]
  | digits ds hlt =>
    have h := parseDigits_digits ds 0 (t := t) hdigit
    rw [Precision.text, List.cons_append, parsePrecision, if_pos rfl]
    rcases ds with - | ⟨d, ds⟩
    · rw [List.map_nil, List.nil_append] at h ⊢
      rw [parsePrecisionValue, if_neg hstar, h]
      rfl
    · rw [List.map_cons, List.cons_append] at h ⊢
      rw [parsePrecisionValue, if_neg (decimalByte_ne_star d), h]
      rfl
  | star =>
    rw [Precision.text, List.cons_append, parsePrecision, if_pos rfl, List.cons_append,
      parsePrecisionValue, if_pos rfl]
    simp only [precisionWord, Precision.value, BitVec.ofInt_toInt]
    rfl

/-- The field `length` of the fields, for a length modifier. -/
def Modifier.length : Modifier → Length
  | none => .none
  | hh => .hh
  | h => .h
  | l => .l
  | ll => .ll

/-- The character of a specifier is a letter, and none of those of a length. -/
theorem Specifier.byte_spec (s : Specifier) :
    (s.byte ≠ byteOf 'h' ∧ s.byte ≠ byteOf 'l' ∧ s.byte ≠ byteOf 'L') ∧ ¬ Scan.IsFlag s.byte ∧
      s.byte ≠ byteOf '*' ∧ isdigit s.byte = false ∧ s.byte ≠ byteOf '.' := by
  cases s with
  | d => decide
  | i => decide
  | u => decide
  | o => decide
  | x => decide
  | X => decide

/-- The length modifier is parsed. -/
theorem parseLength_text (m : Modifier) (s : Specifier) (spec : FormatSpec)
    (hspec : spec.length = .none) (t : List (BitVec 8)) :
    parseLength spec (m.text ++ s.byte :: t) =
      some ({ spec with length := m.length }, s.byte :: t) := by
  -- No conversion is taken for a modifier.
  obtain ⟨hh, hl, hL⟩ := s.byte_spec.1
  cases m with
  | none =>
    rw [Modifier.text, List.nil_append, parseLength.eq_def]
    dsimp only
    rw [if_neg hh, if_neg hl, if_neg hL, Modifier.length, ← hspec]
  | hh => rfl
  | h => exact if_neg hh
  | l => exact if_neg hl
  | ll => rfl

/-- Behind the precision comes a letter. -/
theorem modifier_stops (m : Modifier) (s : Specifier) (t : List (BitVec 8)) :
    ∃ c t', m.text ++ s.byte :: t = c :: t' ∧ ¬ Scan.IsFlag c ∧ c ≠ byteOf '*' ∧
      isdigit c = false ∧ c ≠ byteOf '.' := by
  cases m with
  | none => exact ⟨s.byte, t, rfl, s.byte_spec.2⟩
  | hh => exact ⟨byteOf 'h', _, rfl, by decide⟩
  | h => exact ⟨byteOf 'h', _, rfl, by decide⟩
  | l => exact ⟨byteOf 'l', _, rfl, by decide⟩
  | ll => exact ⟨byteOf 'l', _, rfl, by decide⟩

/-- Behind the width comes a dot or a letter. -/
theorem precision_stops (p : Precision) (m : Modifier) (s : Specifier) (t : List (BitVec 8)) :
    Stops (p.text ++ (m.text ++ s.byte :: t)) := by
  cases p with
  | omitted =>
    obtain ⟨c, t', ht, hflag, hstar, hdigit, -⟩ := modifier_stops m s t
    exact ⟨c, t', ht, hflag, hstar, hdigit⟩
  | digits ds hlt => exact ⟨byteOf '.', _, rfl, by decide⟩
  | star => exact ⟨byteOf '.', _, rfl, by decide⟩

/-- Behind the flags comes a character that is no flag. -/
theorem width_stops (w : Width) {t : List (BitVec 8)} (ht : Stops t) :
    ∃ c t', w.text ++ t = c :: t' ∧ ¬ Scan.IsFlag c := by
  cases w with
  | omitted =>
    obtain ⟨c, t', rfl, hflag, -⟩ := ht
    exact ⟨c, t', rfl, hflag⟩
  | digits d ds hd hlt => exact ⟨decimalByte d, _, rfl, (decimalByte_ne d hd).1⟩
  | star => exact ⟨byteOf '*', t, rfl, by decide⟩

/-- The fields of a conversion. -/
def Conversion.spec (c : Conversion) (ap : VaList) : FormatSpec where
  leftJustify := decide (.minus ∈ c.flags)
  forceSign := decide (.plus ∈ c.flags)
  space := decide (.space ∈ c.flags)
  alternateForm := false
  zeroPad := decide (.zero ∈ c.flags)
  width := widthWord ap c.width
  precision := precisionWord (c.width.value ap).2 c.precision
  length := c.modifier.length
  specifier := c.specifier.byte

/-- The arguments behind those for the width and the precision. -/
def Conversion.rest (c : Conversion) (ap : VaList) : VaList :=
  (c.precision.value (c.width.value ap).2).2

/-- `parse_format` reads a conversion as it is written. -/
theorem parseFormat_text (c : Conversion) (ap : VaList) (t : List (BitVec 8)) :
    ∃ t', c.text ++ t = byteOf '%' :: t' ∧
      parseFormat t' ap = some (c.spec ap, t, c.rest ap) := by
  refine ⟨c.flags.map Flag.byte ++ (c.width.text ++ (c.precision.text ++
    (c.modifier.text ++ c.specifier.byte :: t))), ?_, ?_⟩
  · simp [Conversion.text]
  · have hstops := precision_stops c.precision c.modifier c.specifier t
    obtain ⟨d, t1, hwidth, hflag⟩ := width_stops c.width hstops
    obtain ⟨e, t2, hmodifier, -, hstar, hdigit, hdot⟩ := modifier_stops c.modifier c.specifier t
    have h1 : parseFlags .start (c.flags.map Flag.byte ++ (c.width.text ++ (c.precision.text ++
        (c.modifier.text ++ c.specifier.byte :: t)))) = some (c.flags.foldl setFlag .start,
          c.width.text ++ (c.precision.text ++ (c.modifier.text ++ c.specifier.byte :: t))) := by
      rw [hwidth]
      exact parseFlags_flags c.flags .start hflag
    rw [foldl_setFlag] at h1
    have h2 := fun spec h => parseWidth_text c.width spec h ap hstops
    have h3 := fun spec h => parsePrecision_text c.precision spec h (c.width.value ap).2 (t := t2)
      hdot hdigit hstar
    rw [← hmodifier] at h3
    have h4 := fun spec h => parseLength_text c.modifier c.specifier spec h t
    unfold parseFormat
    rw [h1]
    simp only [Option.bind_eq_bind, Option.bind_some, FormatSpec.start]
    rw [h2 _ rfl]
    simp only [Option.bind_some]
    rw [h3 _ rfl]
    simp only [Option.bind_some]
    rw [h4 _ rfl]
    simp [parseSpecifier, Conversion.spec, Conversion.rest]

/-! ## The characters of an integer -/

/-- The loop of `format_integer` stores the digits of the number, if there is room. -/
theorem tmpDigits_eq (digits : List (BitVec 8)) {base : BitVec 64} (hb : 1 < base.toNat) {n : ℕ}
    {num : BitVec 64} (hn : 0 < n) (hlt : num.toNat < base.toNat ^ n) :
    tmpDigits digits base n num =
      (low base.toNat num.toNat).map fun d => digits.getD d 0#8 := by
  induction n generalizing num with
  | zero => omega
  | succ n ih =>
    have hdiv : (num / base).toNat = num.toNat / base.toNat := BitVec.toNat_udiv
    have hmod : (num % base).toNat = num.toNat % base.toNat := BitVec.toNat_umod
    rw [tmpDigits, hmod]
    -- The loop is left behind the digit that leaves a quotient of 0.
    rcases Nat.lt_or_ge num.toNat base.toNat with hsmall | hlarge
    · have hzero : ¬ num / base > 0#64 := by
        rw [gt_iff_lt, BitVec.lt_def, hdiv, Nat.div_eq_of_lt hsmall]
        decide
      rw [if_neg hzero, low_of_lt hsmall, Nat.mod_eq_of_lt hsmall]
      rfl
    · have hpos : num / base > 0#64 := by
        rw [gt_iff_lt, BitVec.lt_def, hdiv]
        exact Nat.div_pos hlarge (by omega)
      have hn' : 0 < n := by
        rcases n with - | n
        · rw [Nat.zero_add, Nat.pow_one] at hlt
          omega
        · omega
      have hlt' : (num / base).toNat < base.toNat ^ n := by
        rw [hdiv]
        refine Nat.div_lt_of_lt_mul ?_
        rw [← Nat.pow_succ']
        exact hlt
      rw [if_pos hpos, low_of_le hb hlarge, ih hn' hlt', hdiv]
      rfl

/-- The base in which a conversion is printed. -/
def codeBase (specifier : BitVec 8) : ℕ := (baseOf specifier).toNat

theorem codeBase_eq (specifier : BitVec 8) :
    codeBase specifier = if specifier = byteOf 'o' then 8 else 10 := by
  unfold codeBase baseOf
  split_ifs
  · rfl
  · rfl

/-- The digits that are printed for a number. -/
def codeDigits (specifier : BitVec 8) (v : ℕ) : List (BitVec 8) :=
  (numeral (codeBase specifier) v).map fun d => (digitsOf specifier).getD d 0#8

/-- The array `tmp` has room for all digits of a number, and holds them in reverse. -/
theorem reverse_tmpDigits (specifier : BitVec 8) (num : BitVec 64) :
    (tmpDigits (digitsOf specifier) (baseOf specifier) intBufSize num).reverse =
      codeDigits specifier num.toNat := by
  have hb : codeBase specifier = 8 ∨ codeBase specifier = 10 := by
    rw [codeBase_eq]
    split_ifs
    · exact Or.inl rfl
    · exact Or.inr rfl
  have hpow : num.toNat < codeBase specifier ^ intBufSize := by
    have hnum := num.isLt
    rcases hb with h | h
    · rw [h]
      exact hnum.trans (by decide)
    · rw [h]
      exact hnum.trans (by decide)
  rw [tmpDigits_eq _ (by unfold codeBase at hb; omega) (by decide) hpow, ← List.map_reverse]
  rfl

/-- A number has at least one digit, and no more than `tmp` has room for. -/
theorem length_codeDigits (specifier : BitVec 8) (num : BitVec 64) :
    0 < (codeDigits specifier num.toNat).length ∧
      (codeDigits specifier num.toNat).length ≤ intBufSize := by
  constructor
  · rw [codeDigits, List.length_map]
    exact List.length_pos_iff.mpr numeral_ne_nil
  · have hroom : ∀ (n : ℕ) (digits : List (BitVec 8)) (base num : BitVec 64),
        (tmpDigits digits base n num).length ≤ n := by
      intro n
      induction n with
      | zero => exact fun _ _ _ => Nat.le_refl 0
      | succ n ih =>
        intro digits base num
        rw [tmpDigits, List.length_cons]
        split_ifs
        · exact Nat.succ_le_succ (ih _ _ _)
        · exact Nat.succ_le_succ (Nat.zero_le n)
    rw [← reverse_tmpDigits, List.length_reverse]
    exact hroom _ _ _ _

/-- The number of characters of padding for a field of length `t`, which overflows at `2 ^ 31`. -/
def padCount (w : ℤ) (t : ℕ) : ℕ :=
  if t < 2 ^ 31 then (w - t).toNat else if -2 ^ 31 < w ∧ w < 0 then (w + 2 ^ 31).toNat else 0

theorem padding_eq (spec : FormatSpec) {len : Word} (hlen : len.toNat ≤ 2 ^ 31) :
    (spec.padding len).toInt.toNat = padCount spec.width.toInt len.toNat := by
  have hw := BitVec.toInt_lt (x := spec.width)
  have hw' := BitVec.le_toInt (x := spec.width)
  have hint := BitVec.toInt_eq_toNat_cond len
  have hslt : len.slt spec.width = true ↔ len.toInt < spec.width.toInt := by
    rw [BitVec.slt, decide_eq_true_eq]
  unfold FormatSpec.padding padCount
  by_cases hlt : len.toInt < spec.width.toInt
  · rw [if_pos (hslt.mpr hlt), BitVec.toInt_sub, Int.bmod_def]
    split_ifs at hint ⊢ <;> omega
  · rw [if_neg (mt hslt.mp hlt), BitVec.toInt_zero]
    split_ifs at hint ⊢ <;> omega

/-- The zeros in front of the digits fill the precision. -/
theorem leadingZeros_eq (spec : FormatSpec) {len : Word} (h0 : 0 < len.toNat)
    (hlen : len.toNat < 2 ^ 31) :
    (spec.leadingZeros len).toNat = spec.precision.toInt.toNat - len.toNat := by
  have hp := BitVec.toInt_lt (x := spec.precision)
  have hint := BitVec.toInt_eq_toNat_cond len
  have hprec := BitVec.toInt_eq_toNat_cond spec.precision
  have hslt : len.slt spec.precision = true ↔ len.toInt < spec.precision.toInt := by
    rw [BitVec.slt, decide_eq_true_eq]
  have hzero : ¬ (spec.precision = 0#32 ∧ len = 0#32) := fun h => by
    rw [h.2] at h0
    exact absurd h0 (by decide)
  unfold FormatSpec.leadingZeros
  rw [if_neg hzero]
  by_cases hlt : len.toInt < spec.precision.toInt
  · rw [if_pos (hslt.mpr hlt), BitVec.toNat_sub]
    split_ifs at hint hprec <;> omega
  · rw [if_neg (mt hslt.mp hlt), BitVec.toNat_zero]
    split_ifs at hint <;> omega

/-- The sign that is printed. -/
def codeSign (spec : FormatSpec) (isNegative : Bool) : List (BitVec 8) :=
  if spec.sign isNegative ≠ 0#8 then [spec.sign isNegative] else []

/-- The field that `format_integer` prints. -/
theorem integerText_eq (spec : FormatSpec) (num : BitVec 64) (isNegative : Bool) :
    integerText spec num isNegative =
      field spec.leftJustify spec.zeroPad
        (padCount spec.width.toInt ((codeSign spec isNegative).length +
          max spec.precision.toInt.toNat (codeDigits spec.specifier num.toNat).length))
        (codeSign spec isNegative)
        (withPrecision spec.precision.toInt.toNat (codeDigits spec.specifier num.toNat)) := by
  obtain ⟨hpos, hroom⟩ := length_codeDigits spec.specifier num
  have hp := BitVec.toInt_lt (x := spec.precision)
  unfold intBufSize at hroom
  have hlen : (BitVec.ofNat 32 (tmpDigits (digitsOf spec.specifier) (baseOf spec.specifier)
      intBufSize num).length).toNat = (codeDigits spec.specifier num.toNat).length := by
    rw [← List.length_reverse, reverse_tmpDigits, BitVec.toNat_ofNat, Nat.mod_eq_of_lt (by omega)]
  have hzeros := leadingZeros_eq spec (hlen ▸ hpos) (by rw [hlen]; omega)
  rw [hlen] at hzeros
  have hzerosInt : (spec.leadingZeros (BitVec.ofNat 32 (tmpDigits (digitsOf spec.specifier)
      (baseOf spec.specifier) intBufSize num).length)).toInt.toNat =
        spec.precision.toInt.toNat - (codeDigits spec.specifier num.toNat).length := by
    rw [BitVec.toInt_eq_toNat_of_lt (by omega), hzeros]
    rfl
  have hsign : (if spec.sign isNegative ≠ 0#8 then 1#32 else 0#32 : Word).toNat =
      (codeSign spec isNegative).length ∧ (codeSign spec isNegative).length ≤ 1 := by
    unfold codeSign
    split_ifs
    · exact ⟨rfl, Nat.le_refl _⟩
    · exact ⟨rfl, Nat.zero_le _⟩
  -- The variable `totalLen` does not wrap, but it may be `2 ^ 31`, which is negative as an `int`.
  have htotal : ((if spec.sign isNegative ≠ 0#8 then 1#32 else 0#32 : Word) +
      spec.leadingZeros (BitVec.ofNat 32 (tmpDigits (digitsOf spec.specifier)
        (baseOf spec.specifier) intBufSize num).length) +
      BitVec.ofNat 32 (tmpDigits (digitsOf spec.specifier) (baseOf spec.specifier)
        intBufSize num).length).toNat = (codeSign spec isNegative).length +
          max spec.precision.toInt.toNat (codeDigits spec.specifier num.toNat).length := by
    rw [BitVec.toNat_add, BitVec.toNat_add, hsign.1, hzeros, hlen]
    omega
  have hpad := padding_eq spec (htotal.trans_le (by omega))
  rw [htotal] at hpad
  unfold integerText paddingText
  dsimp only
  rw [hpad, hzerosInt, reverse_tmpDigits]
  unfold field withPrecision FormatSpec.padChar
  rw [← codeSign]
  have hspace : byteOf ' ' ≠ byteOf '0' := by decide
  rcases spec.leftJustify with _ | _
  · rcases spec.zeroPad with _ | _
    · simp [hspace]
    · simp only [hspace.symm, ↓reduceIte, Bool.not_false, Bool.and_self, Bool.true_and, beq_iff_eq,
        List.nil_append, beq_self_eq_true, Bool.false_eq_true, List.append_nil, List.append_assoc]
  · simp

end C

end Klib

end RV32Pipeline
