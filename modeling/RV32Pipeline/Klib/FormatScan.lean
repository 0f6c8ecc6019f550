import Mathlib.Data.List.Infix
import RV32Pipeline.Klib.Stdio

/-!
# Where the scanner stops

`parse_format` takes the character behind the length modifier as the specifier without a test for
the NUL. If the format ends inside a conversion, the loop of `vsnprintf` goes on behind the NUL. The
position of each character of a format is given by an automaton, `Scan`: the scanner stays inside
the formats after which the automaton is outside any conversion, and no others.
-/

namespace RV32Pipeline

namespace Klib

/-- A format string: the characters before the NUL. -/
structure Format where
  text : List (BitVec 8)
  noNul : 0#8 ∉ text

/-- The bytes of a format string. -/
def Format.bytes (f : Format) : List (BitVec 8) := f.text ++ [0#8]

/-- What comes before the next character of a format: a character or a whole conversion (`text`),
the `%` and flags, digits of the width, a width given by an asterisk, the dot, digits of the
precision, a precision given by an asterisk, one `h` or `l`, or a whole length modifier. -/
inductive Scan where
  | text
  | flags
  | width
  | widthStar
  | dot
  | precision
  | precisionStar
  | h
  | l
  | length
  deriving DecidableEq

namespace Scan

/-- The flags of a conversion. -/
def IsFlag (c : BitVec 8) : Prop :=
  c = byteOf '-' ∨ c = byteOf '+' ∨ c = byteOf ' ' ∨ c = byteOf '#' ∨ c = byteOf '0'

instance (c : BitVec 8) : Decidable (IsFlag c) :=
  inferInstanceAs (Decidable (_ ∨ _ ∨ _ ∨ _ ∨ _))

/-- A character where a length modifier or the specifier is expected. -/
def stepLength (c : BitVec 8) : Scan :=
  if c = byteOf 'h' then h
  else if c = byteOf 'l' then l
  else if c = byteOf 'L' then length
  else text

/-- A character where a precision, a length modifier, or the specifier is expected. -/
def stepPrecision (c : BitVec 8) : Scan := if c = byteOf '.' then dot else stepLength c

/-- The next character of a format. -/
def step : Scan → BitVec 8 → Scan
  | text, c => if c = byteOf '%' then flags else text
  | flags, c =>
    if IsFlag c then flags
    else if c = byteOf '*' then widthStar
    else if isdigit c then width
    else stepPrecision c
  | width, c => if isdigit c then width else stepPrecision c
  | widthStar, c => stepPrecision c
  | dot, c =>
    if c = byteOf '*' then precisionStar else if isdigit c then precision else stepLength c
  | precision, c => if isdigit c then precision else stepLength c
  | precisionStar, c => stepLength c
  | h, c => if c = byteOf 'h' then length else text
  | l, c => if c = byteOf 'l' then length else text
  | length, _ => text

/-- After the characters `t`, read in the state `q`, no conversion is open. -/
def Completes (q : Scan) (t : List (BitVec 8)) : Prop := t.foldl step q = text

instance (q : Scan) (t : List (BitVec 8)) : Decidable (Completes q t) :=
  inferInstanceAs (Decidable (_ = _))

theorem completes_cons (q : Scan) (c : BitVec 8) (t : List (BitVec 8)) :
    Completes q (c :: t) ↔ Completes (step q c) t := Iff.rfl

/-- States that read the next character alike close alike, unless there is none. -/
theorem completes_congr {q q' : Scan} {t : List (BitVec 8)} (hq : q ≠ text) (hq' : q' ≠ text)
    (h : ∀ c ∈ t.head?, step q c = step q' c) : Completes q t ↔ Completes q' t := by
  rcases t with - | ⟨c, t⟩
  · exact ⟨fun h => absurd h hq, fun h => absurd h hq'⟩
  · rw [completes_cons, completes_cons, h c rfl]

end Scan

/-- The format ends outside any conversion. -/
def Format.Closed (f : Format) : Prop := Scan.Completes .text f.text

instance (f : Format) : Decidable f.Closed := inferInstanceAs (Decidable (Scan.Completes _ _))

open Scan

/-! ## The parts of `parse_format` -/

variable {spec : FormatSpec} {ap : VaList} {t : List (BitVec 8)}

/-- The flags are read up to the first character that is none. -/
theorem parseFlags_append (spec : FormatSpec) (t : List (BitVec 8)) :
    ∃ spec' t', parseFlags spec (t ++ [0#8]) = some (spec', t' ++ [0#8]) ∧ t' <:+ t ∧
      (Completes .flags t ↔ Completes .flags t') ∧ ∀ c ∈ t'.head?, ¬ IsFlag c := by
  induction t generalizing spec with
  | nil => exact ⟨spec, [], rfl, List.suffix_refl _, Iff.rfl, fun c hc => absurd hc (by simp)⟩
  | cons c t ih =>
    by_cases hc : IsFlag c
    · obtain ⟨spec'', hspec⟩ : ∃ spec'', parseFlags spec (c :: t ++ [0#8]) =
          parseFlags spec'' (t ++ [0#8]) := by
        rw [List.cons_append, parseFlags]
        rcases hc with rfl | rfl | rfl | rfl | rfl
        · exact ⟨_, rfl⟩
        · exact ⟨_, rfl⟩
        · exact ⟨_, rfl⟩
        · exact ⟨_, rfl⟩
        · exact ⟨_, rfl⟩
      obtain ⟨spec', t', hp, hs, hcl, hh⟩ := ih spec''
      refine ⟨spec', t', hspec.trans hp, hs.trans (List.suffix_cons c t), ?_, hh⟩
      rw [completes_cons, step, if_pos hc, hcl]
    · refine ⟨spec, c :: t, ?_, List.suffix_refl _, Iff.rfl, ?_⟩
      · unfold IsFlag at hc
        simp only [not_or] at hc
        obtain ⟨h1, h2, h3, h4, h5⟩ := hc
        rw [List.cons_append, parseFlags, if_neg h1, if_neg h2, if_neg h3, if_neg h4, if_neg h5]
      · intro d hd
        rw [List.head?_cons, Option.mem_some_iff] at hd
        exact hd ▸ hc

/-- Digits are read up to the first character that is none. -/
theorem parseDigits_append {q : Scan} (hq : ∀ c, isdigit c = true → step q c = q) (n : Word)
    (t : List (BitVec 8)) : ∃ n' t', parseDigits n (t ++ [0#8]) = some (n', t' ++ [0#8]) ∧
      t' <:+ t ∧ (Completes q t ↔ Completes q t') ∧ ∀ c ∈ t'.head?, isdigit c = false := by
  induction t generalizing n with
  | nil => exact ⟨n, [], rfl, List.suffix_refl _, Iff.rfl, fun c hc => absurd hc (by simp)⟩
  | cons c t ih =>
    by_cases hc : isdigit c = true
    · obtain ⟨n', t', hp, hs, hcl, hh⟩ :=
        ih (n * 10#32 + (c.setWidth 32 - (byteOf '0').setWidth 32))
      refine ⟨n', t', ?_, hs.trans (List.suffix_cons c t), ?_, hh⟩
      · rw [List.cons_append, parseDigits, if_pos hc]
        exact hp
      · rw [completes_cons, hq c hc, hcl]
    · refine ⟨n, c :: t, ?_, List.suffix_refl _, Iff.rfl, ?_⟩
      · rw [List.cons_append, parseDigits, if_neg hc]
      · intro d hd
        rw [List.head?_cons, Option.mem_some_iff] at hd
        exact hd ▸ Bool.eq_false_of_not_eq_true hc

/-- Behind the width, a precision may follow. -/
theorem parseWidth_append (spec : FormatSpec) (ap : VaList) (hflag : ∀ c ∈ t.head?, ¬ IsFlag c) :
    ∃ spec' t' ap', parseWidth spec ap (t ++ [0#8]) = some (spec', t' ++ [0#8], ap') ∧ t' <:+ t ∧
      (Completes .flags t ↔ Completes .widthStar t') := by
  rcases t with - | ⟨c, t⟩
  · exact ⟨spec, [], ap, rfl, List.suffix_refl _, completes_congr (by decide) (by decide) (by simp)⟩
  · have hc := hflag c rfl
    rw [List.cons_append, parseWidth]
    by_cases hstar : c = byteOf '*'
    · refine ⟨_, t, _, if_pos hstar, List.suffix_cons c t, ?_⟩
      rw [completes_cons, step, if_neg hc, if_pos hstar]
    · rw [if_neg hstar]
      by_cases hdigit : isdigit c = true
      · obtain ⟨n, t', hp, hs, hcl, hh⟩ := parseDigits_append (q := .width)
          (fun d hd => if_pos hd) 0#32 (c :: t)
        refine ⟨{ spec with width := n }, t', ap, ?_, hs, ?_⟩
        · rw [if_pos hdigit, ← List.cons_append, hp]
          rfl
        · have hfirst : step .flags c = step .width c := by
            rw [step, if_neg hc, if_neg hstar, if_pos hdigit, step, if_pos hdigit]
          rw [completes_cons, hfirst, ← completes_cons, hcl]
          refine completes_congr (by decide) (by decide) fun d hd => ?_
          rw [step, hh d hd]
          rfl
      · refine ⟨spec, c :: t, ap, if_neg hdigit, List.suffix_refl _, ?_⟩
        refine completes_congr (by decide) (by decide) fun d hd => ?_
        rw [List.head?_cons, Option.mem_some_iff] at hd
        rw [← hd, step, if_neg hc, if_neg hstar, if_neg hdigit]
        rfl

/-- Behind the precision, a length modifier may follow. -/
theorem parsePrecision_append (spec : FormatSpec) (ap : VaList) (t : List (BitVec 8)) :
    ∃ spec' t' ap', parsePrecision spec ap (t ++ [0#8]) = some (spec', t' ++ [0#8], ap') ∧
      t' <:+ t ∧ (Completes .widthStar t ↔ Completes .precisionStar t') := by
  rcases t with - | ⟨c, t⟩
  · exact ⟨spec, [], ap, rfl, List.suffix_refl _, completes_congr (by decide) (by decide) (by simp)⟩
  · rw [List.cons_append, parsePrecision]
    by_cases hdot : c = byteOf '.'
    · have hstep : Completes .widthStar (c :: t) ↔ Completes .dot t := by
        rw [completes_cons, step, stepPrecision, if_pos hdot]
      rw [if_pos hdot, hstep]
      -- The value of the precision: an asterisk, digits, or nothing.
      have hvalue : ∃ spec' t' ap', parsePrecisionValue spec ap (t ++ [0#8]) =
          some (spec', t' ++ [0#8], ap') ∧ t' <:+ t ∧
            (Completes .dot t ↔ Completes .precisionStar t') := by
        rcases t with - | ⟨d, t⟩
        · exact ⟨{ spec with precision := 0#32 }, [], ap, rfl, List.suffix_refl _,
            completes_congr (by decide) (by decide) (by simp)⟩
        · rw [List.cons_append, parsePrecisionValue]
          by_cases hstar : d = byteOf '*'
          · refine ⟨_, t, _, if_pos hstar, List.suffix_cons d t, ?_⟩
            rw [completes_cons, step, if_pos hstar]
          · obtain ⟨n, t', hp, hs, hcl, hh⟩ := parseDigits_append (q := .precision)
              (fun d hd => if_pos hd) 0#32 (d :: t)
            refine ⟨{ spec with precision := n }, t', ap, ?_, hs, ?_⟩
            · rw [if_neg hstar, ← List.cons_append, hp]
              rfl
            · have hfirst : step .dot d = step .precision d := by
                rw [step, if_neg hstar, step]
              rw [completes_cons, hfirst, ← completes_cons, hcl]
              refine completes_congr (by decide) (by decide) fun e he => ?_
              rw [step, hh e he]
              rfl
      obtain ⟨spec', t', ap', hp, hs, hcl⟩ := hvalue
      exact ⟨spec', t', ap', hp, hs.trans (List.suffix_cons c t), hcl⟩
    · refine ⟨spec, c :: t, ap, if_neg hdot, List.suffix_refl _, ?_⟩
      refine completes_congr (by decide) (by decide) fun d hd => ?_
      rw [List.head?_cons, Option.mem_some_iff] at hd
      rw [← hd, step, stepPrecision, if_neg hdot]
      rfl

/-- Behind the length modifier, the specifier is expected. -/
theorem parseLength_append (spec : FormatSpec) (t : List (BitVec 8)) :
    ∃ spec' t', parseLength spec (t ++ [0#8]) = some (spec', t' ++ [0#8]) ∧ t' <:+ t ∧
      (Completes .precisionStar t ↔ Completes .length t') := by
  rcases t with - | ⟨c, t⟩
  · exact ⟨spec, [], rfl, List.suffix_refl _, completes_congr (by decide) (by decide) (by simp)⟩
  · rw [completes_cons, step, stepLength]
    -- Behind an `h` or an `l` the next byte is read, which may be the NUL.
    by_cases hh : c = byteOf 'h'
    · rw [if_pos hh, List.cons_append, parseLength.eq_def]
      dsimp only
      rw [if_pos hh]
      rcases t with - | ⟨d, t⟩
      · exact ⟨_, [], rfl, List.suffix_cons c _, completes_congr (by decide) (by decide) (by simp)⟩
      · by_cases hd : d = byteOf 'h'
        · refine ⟨_, t, if_pos hd, (List.suffix_cons d t).trans (List.suffix_cons c _), ?_⟩
          rw [completes_cons, step, if_pos hd]
        · refine ⟨_, d :: t, if_neg hd, List.suffix_cons c _, ?_⟩
          rw [completes_cons, step, if_neg hd]
          rfl
    · rw [if_neg hh]
      by_cases hl : c = byteOf 'l'
      · rw [if_pos hl, List.cons_append, parseLength.eq_def]
        dsimp only
        rw [if_neg hh, if_pos hl]
        rcases t with - | ⟨d, t⟩
        · exact ⟨_, [], rfl, List.suffix_cons c _,
            completes_congr (by decide) (by decide) (by simp)⟩
        · by_cases hd : d = byteOf 'l'
          · refine ⟨_, t, if_pos hd, (List.suffix_cons d t).trans (List.suffix_cons c _), ?_⟩
            rw [completes_cons, step, if_pos hd]
          · refine ⟨_, d :: t, if_neg hd, List.suffix_cons c _, ?_⟩
            rw [completes_cons, step, if_neg hd]
            rfl
      · rw [if_neg hl, List.cons_append, parseLength.eq_def]
        dsimp only
        rw [if_neg hh, if_neg hl]
        by_cases hL : c = byteOf 'L'
        · rw [if_pos hL, if_pos hL]
          exact ⟨_, t, rfl, List.suffix_cons c t, Iff.rfl⟩
        · rw [if_neg hL, if_neg hL]
          exact ⟨_, c :: t, rfl, List.suffix_refl _, Iff.rfl⟩

/-- A conversion that ends before the NUL leaves the format behind it, and the other ones leave
nothing, with the NUL as the specifier. -/
theorem parseFormat_append (t : List (BitVec 8)) (ap : VaList) :
    (∃ spec t' ap', parseFormat (t ++ [0#8]) ap = some (spec, t' ++ [0#8], ap') ∧ t' <:+ t ∧
        (Completes .flags t ↔ Completes .text t')) ∨
      (∃ spec ap', parseFormat (t ++ [0#8]) ap = some (spec, [], ap')) ∧ ¬ Completes .flags t := by
  obtain ⟨spec1, t1, h1, hs1, hc1, hh1⟩ := parseFlags_append .start t
  obtain ⟨spec2, t2, ap2, h2, hs2, hc2⟩ := parseWidth_append spec1 ap hh1
  obtain ⟨spec3, t3, ap3, h3, hs3, hc3⟩ := parsePrecision_append spec2 ap2 t2
  obtain ⟨spec4, t4, h4, hs4, hc4⟩ := parseLength_append spec3 t3
  have hcl : Completes .flags t ↔ Completes .length t4 := hc1.trans (hc2.trans (hc3.trans hc4))
  have hp : parseFormat (t ++ [0#8]) ap = (parseSpecifier spec4 (t4 ++ [0#8])).bind
      fun x => some (x.1, x.2, ap3) := by
    unfold parseFormat
    simp only [h1, h2, h3, h4, Option.bind_eq_bind, Option.bind_some]
  rw [hp, hcl]
  rcases t4 with - | ⟨c, t4⟩
  · exact Or.inr ⟨⟨_, _, rfl⟩, by decide⟩
  · refine Or.inl ⟨_, t4, _, rfl, ?_, Iff.rfl⟩
    exact (((List.suffix_cons c t4).trans hs4).trans hs3).trans (hs2.trans hs1)

/-! ## The loop -/

/-- The loop of `vsnprintf` stays in the format exactly if the format ends outside any
conversion. -/
theorem vsnprintfLoop_isSome_iff (mem : ByteMem 32) (t : List (BitVec 8)) (ht : 0#8 ∉ t)
    (ap : VaList) (o : Output) :
    (vsnprintfLoop mem (t ++ [0#8]) ap o).isSome = true ↔ Completes .text t := by
  induction hn : t.length using Nat.strongRecOn generalizing t ap o with
  | _ n ih =>
    rcases t with - | ⟨c, t⟩
    · rw [List.nil_append, vsnprintfLoop]
      exact ⟨fun _ => rfl, fun _ => rfl⟩
    · have hlt : t.length < n := by rw [← hn]; exact Nat.lt_succ_self _
      have hc0 : c ≠ 0#8 := fun h => ht (h ▸ List.mem_cons_self ..)
      have ht0 : 0#8 ∉ t := fun h => ht (List.mem_cons_of_mem _ h)
      rw [List.cons_append, completes_cons]
      by_cases hc : c = byteOf '%'
      · rw [hc, step, if_pos rfl]
        rcases parseFormat_append t ap with ⟨spec, t', ap', hp, hs, hcl⟩ | ⟨⟨spec, ap', hp⟩, hopen⟩
        · rw [vsnprintfLoop_conversion o hp, hcl]
          exact ih t'.length (hs.length_le.trans_lt hlt) t' (fun h => ht0 (hs.subset h)) _ _ rfl
        · rw [vsnprintfLoop_conversion o hp, vsnprintfLoop]
          exact ⟨fun h => absurd h (by simp), fun h => absurd h hopen⟩
      · rw [vsnprintfLoop, if_neg hc0, if_pos hc, step, if_neg hc]
        exact ih t.length hlt t ht0 _ _ rfl

/-- `vsnprintf` reads no byte behind the NUL, and returns, exactly if the format does not end inside
a conversion. -/
theorem vsnprintf_stays_iff (mem : ByteMem 32) (buf : ℤ → BitVec 8) (size : Word) (f : Format)
    (ap : VaList) : (∃ o, vsnprintf mem buf size f.bytes ap = some o) ↔ f.Closed := by
  rw [Format.Closed, ← vsnprintfLoop_isSome_iff mem f.text f.noNul ap (.start buf size)]
  unfold vsnprintf Format.bytes
  rw [Option.isSome_iff_exists]
  constructor
  · rintro ⟨o, ho⟩
    obtain ⟨o', ho', -⟩ := Option.bind_eq_some_iff.mp ho
    exact ⟨o', ho'⟩
  · rintro ⟨o, ho⟩
    exact ⟨_, by rw [ho]; rfl⟩

/-- The format `"%"`. -/
def percent : Format := { text := bytesOf "%", noNul := by decide }

/-- With the format `"%"` the byte behind the NUL is read. -/
theorem vsnprintf_percent : ¬ ∃ o, vsnprintf (fun _ => 0#8) (fun _ => 0#8) 16#32 percent.bytes
    { slots := fun _ => 0#32, ap := 0 } = some o := by
  rintro ⟨o, ho⟩
  obtain ⟨o', ho', -⟩ := Option.bind_eq_some_iff.mp ho
  have h := (vsnprintfLoop_isSome_iff _ percent.text percent.noNul _ _).mp
    (Option.isSome_iff_exists.mpr ⟨o', ho'⟩)
  exact absurd h (by decide)

end Klib

end RV32Pipeline
