import Mathlib.Data.List.Induction
import RV32Pipeline.Klib.FormatScan

/-!
# What is written and what is returned

The characters that a format prints do not depend on the array: `formatText` lists them, and the
functions of `stdio.c` append them one by one. So the count is their number, and the array holds as
many of them as there is room for. But the NUL goes behind the last character stored. If the output
fills the array, that is one byte behind its end; and `printf` has no bound but its array.
-/

namespace RV32Pipeline

namespace Klib

/-! ## The text of a format -/

/-- The characters of a string, up to `n`. -/
def stringText (s : ℕ → BitVec 8) : ℕ → List (BitVec 8)
  | 0 => []
  | n + 1 => if s 0 = 0#8 then [] else s 0 :: stringText (fun i => s (i + 1)) n

/-- The `len` characters of padding, none if `len` is negative. -/
def paddingText (pad : BitVec 8) (len : Word) : List (BitVec 8) :=
  List.replicate len.toInt.toNat pad

/-- The characters of an integer conversion. -/
def integerText (spec : FormatSpec) (num : BitVec 64) (isNegative : Bool) : List (BitVec 8) :=
  let tmp := tmpDigits (digitsOf spec.specifier) (baseOf spec.specifier) intBufSize num
  let len := BitVec.ofNat 32 tmp.length
  let sign := spec.sign isNegative
  let totalLen := (if sign ≠ 0#8 then 1#32 else 0#32) + spec.leadingZeros len + len
  let padding := paddingText spec.padChar (spec.padding totalLen)
  (if !spec.leftJustify && spec.padChar == byteOf ' ' then padding else []) ++
    (if sign ≠ 0#8 then [sign] else []) ++
    (if !spec.leftJustify && spec.padChar == byteOf '0' then padding else []) ++
    paddingText (byteOf '0') (spec.leadingZeros len) ++ tmp.reverse ++
    (if spec.leftJustify then paddingText (byteOf ' ') (spec.padding totalLen) else [])

/-- The characters of a string conversion. -/
def stringFieldText (mem : ByteMem 32) (spec : FormatSpec) (s : Word) : List (BitVec 8) :=
  let maxLen := if (0#32).sle spec.precision then spec.precision else 0x7fffffff#32
  let len := BitVec.ofNat 32 (countChars (stringAt mem s) maxLen.toInt.toNat)
  let padding := paddingText (byteOf ' ') (spec.padding len)
  (if !spec.leftJustify then padding else []) ++ stringText (stringAt mem s) len.toInt.toNat ++
    (if spec.leftJustify then padding else [])

/-- The characters of a conversion, and what is left of the arguments. -/
def conversionText (mem : ByteMem 32) (spec : FormatSpec) (ap : VaList) :
    List (BitVec 8) × VaList :=
  let c := spec.specifier
  if c = byteOf 'd' ∨ c = byteOf 'i' then
    let (num, ap) := signedArg spec.length ap
    (integerText spec (if num.slt 0#64 then -num else num) (num.slt 0#64), ap)
  else if c = byteOf 'u' ∨ c = byteOf 'o' ∨ c = byteOf 'x' ∨ c = byteOf 'X' then
    let (num, ap) := unsignedArg spec.length ap
    (integerText spec num false, ap)
  else if c = byteOf 's' then
    (stringFieldText mem spec ap.word.1, ap.word.2)
  else if c = byteOf 'c' then ([ap.word.1.setWidth 8], ap.word.2)
  else if c = byteOf '%' then ([byteOf '%'], ap)
  else ([], ap)

/-- The characters of a format. -/
def formatText (mem : ByteMem 32) (fmt : List (BitVec 8)) (ap : VaList) :
    Option (List (BitVec 8)) :=
  match fmt with
  | [] => none
  | c :: fmt =>
    if c = 0#8 then some []
    else if c ≠ byteOf '%' then (formatText mem fmt ap).map fun cs => c :: cs
    else
      match h : parseFormat fmt ap with
      | none => none
      | some (spec, next, ap) =>
        let (cs, ap) := conversionText mem spec ap
        have := length_parseFormat h
        (formatText mem next ap).map fun cs' => cs ++ cs'
termination_by fmt.length

/-- The text of a conversion and of what follows it. -/
theorem formatText_conversion {mem : ByteMem 32} {fmt next : List (BitVec 8)} {ap ap' : VaList}
    {spec : FormatSpec} (hp : parseFormat fmt ap = some (spec, next, ap')) :
    formatText mem (byteOf '%' :: fmt) ap =
      (formatText mem next (conversionText mem spec ap').2).map
        fun cs => (conversionText mem spec ap').1 ++ cs := by
  rw [formatText, if_neg (by decide), if_neg (by decide)]
  split
  · next hnone => exact absurd (hnone.symm.trans hp) (by simp)
  · next hsome =>
    rw [hp] at hsome
    cases hsome
    rfl

theorem formatText_of_none {mem : ByteMem 32} {fmt : List (BitVec 8)} {ap : VaList}
    (hp : parseFormat fmt ap = none) : formatText mem (byteOf '%' :: fmt) ap = none := by
  rw [formatText, if_neg (by decide), if_neg (by decide)]
  split
  · rfl
  · next hsome => exact absurd (hp.symm.trans hsome) (by simp)

/-! ## The functions append the text -/

/-- The characters `cs` are appended. -/
def Output.emit (o : Output) (cs : List (BitVec 8)) : Output := cs.foldl appendChar o

variable {o : Output}

@[simp] theorem emit_nil : o.emit [] = o := rfl

theorem emit_append (cs ds : List (BitVec 8)) : o.emit (cs ++ ds) = (o.emit cs).emit ds :=
  List.foldl_append

theorem emit_singleton (c : BitVec 8) : o.emit [c] = appendChar o c := rfl

theorem foldl_appendChar (cs : List (BitVec 8)) : cs.foldl appendChar o = o.emit cs := rfl

/-- A piece that is appended under a condition. -/
theorem emit_ite (b : Prop) [Decidable b] (cs : List (BitVec 8)) :
    (if b then o.emit cs else o) = o.emit (if b then cs else []) := by
  split_ifs
  · rfl
  · rfl

theorem appendPadding_eq_emit (pad : BitVec 8) (len : Word) :
    appendPadding o pad len = o.emit (paddingText pad len) := by
  have hloop : ∀ (n : ℕ) (o : Output),
      appendPadding.loop pad o n = o.emit (List.replicate n pad) := by
    intro n
    induction n with
    | zero => exact fun o => rfl
    | succ n ih => exact fun o => ih (appendChar o pad)
  exact hloop _ o

theorem appendStr_eq_emit (s : ℕ → BitVec 8) (len : Word) :
    appendStr o s len = o.emit (stringText s len.toInt.toNat) := by
  have hloop : ∀ (n : ℕ) (s : ℕ → BitVec 8) (o : Output),
      appendStr.loop s o n = o.emit (stringText s n) := by
    intro n
    induction n with
    | zero => exact fun s o => rfl
    | succ n ih =>
      intro s o
      rw [appendStr.loop, stringText]
      split_ifs
      · rfl
      · exact ih _ _
  exact hloop _ s o

theorem formatInteger_eq_emit (spec : FormatSpec) (num : BitVec 64) (isNegative : Bool) :
    formatInteger spec num isNegative o = o.emit (integerText spec num isNegative) := by
  unfold formatInteger integerText
  simp only [appendPadding_eq_emit, ← emit_singleton, foldl_appendChar, emit_ite]
  simp only [← emit_append, List.append_assoc]

theorem handleString_eq_emit (mem : ByteMem 32) (spec : FormatSpec) (ap : VaList) :
    handleString mem spec ap o = (o.emit (stringFieldText mem spec ap.word.1), ap.word.2) := by
  unfold handleString stringFieldText
  simp only [appendPadding_eq_emit, appendStr_eq_emit, emit_ite]
  simp only [← emit_append]

theorem handleInteger_eq_emit (mem : ByteMem 32) {spec : FormatSpec} (ap : VaList)
    (hs : (spec.specifier = byteOf 'd' ∨ spec.specifier = byteOf 'i') ∨
      spec.specifier = byteOf 'u' ∨ spec.specifier = byteOf 'o' ∨ spec.specifier = byteOf 'x' ∨
        spec.specifier = byteOf 'X') : handleInteger spec ap o =
      (o.emit (conversionText mem spec ap).1, (conversionText mem spec ap).2) := by
  unfold handleInteger conversionText
  by_cases hd : spec.specifier = byteOf 'd' ∨ spec.specifier = byteOf 'i'
  · rw [if_pos hd, if_pos hd]
    simp only [formatInteger_eq_emit]
  · have hu := hs.resolve_left hd
    rw [if_neg hd, if_pos hu, if_neg hd, if_pos hu]
    simp only [formatInteger_eq_emit]

/-- A conversion appends its text. -/
theorem handleConversion_eq_emit (mem : ByteMem 32) (spec : FormatSpec) (ap : VaList) :
    handleConversion mem spec ap o =
      (o.emit (conversionText mem spec ap).1, (conversionText mem spec ap).2) := by
  unfold handleConversion
  dsimp only
  split_ifs with hint hs hc hp
  · exact handleInteger_eq_emit mem ap (or_assoc.mpr hint)
  · rw [handleString_eq_emit]
    unfold conversionText
    rw [hs, if_neg (by decide), if_neg (by decide), if_pos rfl]
  · unfold conversionText
    rw [hc, if_neg (by decide), if_neg (by decide), if_neg (by decide), if_pos rfl]
    rfl
  · unfold conversionText
    rw [hp, if_neg (by decide), if_neg (by decide), if_neg (by decide), if_neg (by decide),
      if_pos rfl]
    rfl
  · unfold conversionText
    rw [← or_assoc, not_or] at hint
    rw [if_neg hint.1, if_neg hint.2, if_neg hs, if_neg hc, if_neg hp]
    rfl

/-- The loop of `vsnprintf` appends the text of the format. -/
theorem vsnprintfLoop_eq_emit (mem : ByteMem 32) (fmt : List (BitVec 8)) (ap : VaList)
    (o : Output) : vsnprintfLoop mem fmt ap o = (formatText mem fmt ap).map o.emit := by
  induction hn : fmt.length using Nat.strongRecOn generalizing fmt ap o with
  | _ n ih =>
    rcases fmt with - | ⟨c, fmt⟩
    · rw [vsnprintfLoop, formatText]
      rfl
    · have hlt : fmt.length < n := by rw [← hn]; exact Nat.lt_succ_self _
      by_cases hc : c = byteOf '%'
      · rw [hc]
        rcases hp : parseFormat fmt ap with - | ⟨spec, next, ap'⟩
        · rw [vsnprintfLoop_of_none o hp, formatText_of_none hp]
          rfl
        · have hle := length_parseFormat hp
          rw [vsnprintfLoop_conversion o hp, formatText_conversion hp, handleConversion_eq_emit,
            ih _ (hle.trans hlt) _ _ _ rfl, Option.map_map]
          refine congrArg (fun f => (formatText mem next _).map f) ?_
          funext cs
          exact (emit_append _ _).symm
      · rw [vsnprintfLoop, formatText]
        by_cases h0 : c = 0#8
        · rw [if_pos h0, if_pos h0]
          rfl
        · rw [if_neg h0, if_neg h0, if_pos hc, if_pos hc, ih _ hlt _ _ _ rfl, Option.map_map]
          rfl

/-! ## The array -/

/-- A format string that does not end inside a conversion. -/
structure ClosedFormat extends Format where
  closed : toFormat.Closed

/-- The untruncated output of a format. -/
def ClosedFormat.output (f : ClosedFormat) (mem : ByteMem 32) (ap : VaList) : List (BitVec 8) :=
  (formatText mem f.bytes ap).getD []

/-- A call of `vsnprintf` returns the length of the output; it writes only to the first `size` bytes
of the array, where it leaves the first characters of the output and a NUL, and nothing if `size` is
0. -/
structure VsnprintfCorrect (mem : ByteMem 32) (size : Word) (f : ClosedFormat) (ap : VaList)
    (o : Output) : Prop where
  returns : o.count.toInt = (f.output mem ap).length
  within : o.buffer.Within size.toNat
  bytes : size ≠ 0#32 →
    o.buffer.read 0 (min (f.output mem ap).length (size.toNat - 1) + 1) =
      (f.output mem ap).take (size.toNat - 1) ++ [0#8]

/-- A call of `printf` writes only to its array, and hands the characters of the output to
`putch`. -/
structure PrintfCorrect (mem : ByteMem 32) (f : ClosedFormat) (ap : VaList)
    (r : Buffer × List (BitVec 8) × Word) : Prop where
  within : r.1.Within 1024
  emits : r.2.1 = f.output mem ap

/-- What the characters leave, appended from the start on. -/
theorem emit_start (buf : ℤ → BitVec 8) (size : Word) (cs : List (BitVec 8)) :
    (Output.start buf size).emit cs =
      { buffer := (⟨buf, []⟩ : Buffer).write 0 (cs.take size.toNat)
        dest := (cs.take size.toNat).length
        remaining := BitVec.ofNat 32 (size.toNat - cs.length)
        count := BitVec.ofNat 32 cs.length
        appended := cs } := by
  induction cs using List.reverseRecOn with
  | nil => simp [Output.start]
  | append_singleton cs c ih =>
    have hsize := size.isLt
    have hcount : BitVec.ofNat 32 cs.length + 1#32 = BitVec.ofNat 32 (cs ++ [c]).length := by
      rw [List.length_append, List.length_singleton, BitVec.ofNat_add]
    rw [emit_append, emit_singleton, ih, appendChar]
    -- As long as there is room a character is stored; from then on it is only counted.
    by_cases hlt : cs.length < size.toNat
    · have hpos : BitVec.ofNat 32 (size.toNat - cs.length) > 0#32 := by
        rw [gt_iff_lt, BitVec.lt_def, BitVec.toNat_ofNat, BitVec.toNat_ofNat]
        omega
      have htake : (cs ++ [c]).take size.toNat = cs.take size.toNat ++ [c] := by
        rw [List.take_of_length_le (Nat.le_of_lt hlt), List.take_of_length_le]
        rw [List.length_append, List.length_singleton]
        omega
      have hremaining : BitVec.ofNat 32 (size.toNat - cs.length) - 1#32 =
          BitVec.ofNat 32 (size.toNat - (cs ++ [c]).length) := by
        refine BitVec.eq_of_toNat_eq ?_
        rw [List.length_append, List.length_singleton, BitVec.toNat_sub]
        simp only [BitVec.toNat_ofNat]
        omega
      rw [if_pos hpos, htake]
      dsimp only
      rw [hcount, hremaining, Buffer.write_append, List.length_append, List.length_singleton]
      simp
    · have hzero : ¬ BitVec.ofNat 32 (size.toNat - cs.length) > 0#32 := by
        rw [show size.toNat - cs.length = 0 by omega]
        decide
      have htake : (cs ++ [c]).take size.toNat = cs.take size.toNat :=
        List.take_append_of_le_length (by omega)
      have hremaining : size.toNat - cs.length = size.toNat - (cs ++ [c]).length := by
        rw [List.length_append, List.length_singleton]
        omega
      rw [if_neg hzero, htake, ← hremaining]
      dsimp only
      rw [hcount]

variable {mem : ByteMem 32} {f : ClosedFormat} {ap : VaList}

/-- A format that ends outside any conversion has a text. -/
theorem ClosedFormat.formatText_eq (f : ClosedFormat) (mem : ByteMem 32) (ap : VaList) :
    formatText mem f.bytes ap = some (f.output mem ap) := by
  have h := (vsnprintfLoop_isSome_iff mem f.text f.noNul ap
    (.start (fun _ => 0#8) 0#32)).mpr f.closed
  rw [vsnprintfLoop_eq_emit, Option.isSome_map, Option.isSome_iff_exists] at h
  obtain ⟨cs, hcs⟩ := h
  have hbytes : formatText mem f.bytes ap = some cs := hcs
  rw [output, hbytes]
  rfl

/-- What `vsnprintf` does with the characters of a format: the NUL is written behind those that are
stored. -/
theorem vsnprintf_of_text {fmt cs : List (BitVec 8)} (h : formatText mem fmt ap = some cs)
    (buf : ℤ → BitVec 8) (size : Word) :
    ∃ o, vsnprintf mem buf size fmt ap = some o ∧ o.appended = cs ∧
      o.count = BitVec.ofNat 32 cs.length ∧
      o.buffer = (⟨buf, []⟩ : Buffer).write 0
        (if size = 0#32 then [] else cs.take size.toNat ++ [0#8]) := by
  unfold vsnprintf
  rw [vsnprintfLoop_eq_emit, h, Option.map_some, emit_start]
  refine ⟨_, rfl, ?_⟩
  by_cases h0 : size = 0#32
  · rw [h0]
    exact ⟨rfl, rfl, rfl⟩
  · have hpos : size > 0#32 := by
      rw [gt_iff_lt, BitVec.lt_def]
      exact Nat.pos_of_ne_zero fun h => h0 (BitVec.eq_of_toNat_eq h)
    rw [if_pos hpos, if_neg h0, Buffer.write_append]
    refine ⟨rfl, rfl, ?_⟩
    simp

/-- A call of `vsnprintf` is correct exactly if the output, with its NUL, fits into the array, or
the size is 0, and the length is an `int`. -/
theorem vsnprintf_correct_iff (buf : ℤ → BitVec 8) (size : Word) :
    (∃ o, vsnprintf mem buf size f.bytes ap = some o ∧ VsnprintfCorrect mem size f ap o) ↔
      (size = 0#32 ∨ (f.output mem ap).length < size.toNat) ∧
        (f.output mem ap).length < 2 ^ 31 := by
  obtain ⟨o, ho, -, hcount, hbuffer⟩ := vsnprintf_of_text (f.formatText_eq mem ap) buf size
  have hreturns : o.count.toInt = (f.output mem ap).length ↔ (f.output mem ap).length < 2 ^ 31 := by
    rw [hcount, BitVec.toInt_ofNat', Int.bmod_def]
    omega
  constructor
  · rintro ⟨o', ho', hcorrect⟩
    cases ho.symm.trans ho'
    refine ⟨?_, hreturns.mp hcorrect.returns⟩
    by_cases h0 : size = 0#32
    · exact Or.inl h0
    · -- The NUL has been written behind the stored characters, so there must have been room.
      have hw := hcorrect.within
      rw [hbuffer, if_neg h0, Buffer.within_write_iff] at hw
      have hnul := hw.2 ((f.output mem ap).take size.toNat).length
        (by rw [List.length_append]; exact Nat.lt_succ_self _)
      rw [List.length_take] at hnul
      exact Or.inr (by omega)
  · rintro ⟨hfits, hlength⟩
    refine ⟨o, ho, hreturns.mpr hlength, ?_, fun h0 => ?_⟩
    · rw [hbuffer, Buffer.within_write_iff]
      refine ⟨fun i hi => absurd hi (List.not_mem_nil (a := i)), fun k hk => ?_⟩
      split_ifs at hk with h0
      · exact absurd hk (by simp)
      · have hlt := hfits.resolve_left h0
        rw [List.length_append, List.length_take, List.length_singleton] at hk
        omega
    · have hlt := hfits.resolve_left h0
      rw [hbuffer, if_neg h0, List.take_of_length_le hlt.le,
        List.take_of_length_le (i := size.toNat - 1) (by omega),
        show min (f.output mem ap).length (size.toNat - 1) + 1 =
          (f.output mem ap ++ [0#8]).length by
            rw [List.length_append, List.length_singleton]; omega]
      exact Buffer.read_write

/-- A call of `printf` is correct exactly if the output, with its NUL, fits into 1024 bytes. -/
theorem printf_correct_iff (buf : ℤ → BitVec 8) :
    (∃ r, printf mem buf f.bytes ap = some r ∧ PrintfCorrect mem f ap r) ↔
      (f.output mem ap).length < 1024 := by
  obtain ⟨o, ho, -, hcount, hbuffer⟩ :=
    vsnprintf_of_text (f.formatText_eq mem ap) buf 0x7fffffff#32
  have hp : printf mem buf f.bytes ap =
      some (o.buffer, o.buffer.read 0 o.count.toInt.toNat, o.count) := by
    unfold printf vsprintf
    rw [ho]
    rfl
  rw [if_neg (by decide), show (0x7fffffff#32).toNat = 2147483647 from rfl] at hbuffer
  constructor
  · rintro ⟨r, hr, hcorrect⟩
    cases hp.symm.trans hr
    -- `vsprintf` takes an array of 1024 bytes for one of `0x7fffffff`.
    have hw := hcorrect.within
    rw [hbuffer, Buffer.within_write_iff] at hw
    have hnul := hw.2 ((f.output mem ap).take 2147483647).length
      (by rw [List.length_append]; exact Nat.lt_succ_self _)
    rw [List.length_take] at hnul
    omega
  · intro hlt
    rw [List.take_of_length_le (by omega)] at hbuffer
    have hlen : o.count.toInt.toNat = (f.output mem ap).length := by
      rw [hcount, BitVec.toInt_ofNat', Int.bmod_def]
      omega
    refine ⟨_, hp, ?_, ?_⟩
    · rw [hbuffer, Buffer.within_write_iff]
      refine ⟨fun i hi => absurd hi (List.not_mem_nil (a := i)), fun k hk => ?_⟩
      rw [List.length_append, List.length_singleton] at hk
      omega
    · dsimp only
      rw [hlen, hbuffer]
      exact Buffer.read_write_append

/-- Both functions, for every format that ends outside any conversion: `vsnprintf` is correct
exactly if the output with its NUL fits into the array, or the size is 0, and the length is an
`int`; `printf` is correct exactly if the output with its NUL fits into 1024 bytes. -/
theorem bounded_format_iff (mem : ByteMem 32) (buf : ℤ → BitVec 8) (size : Word) (f : ClosedFormat)
    (ap : VaList) :
    ((∃ o, vsnprintf mem buf size f.bytes ap = some o ∧ VsnprintfCorrect mem size f ap o) ↔
      (size = 0#32 ∨ (f.output mem ap).length < size.toNat) ∧
        (f.output mem ap).length < 2 ^ 31) ∧
    ((∃ r, printf mem buf f.bytes ap = some r ∧ PrintfCorrect mem f ap r) ↔
      (f.output mem ap).length < 1024) :=
  ⟨vsnprintf_correct_iff buf size, printf_correct_iff buf⟩

/-- The format `"ab"`. -/
def twoChars : ClosedFormat where
  text := bytesOf "ab"
  noNul := by decide
  closed := by decide

/-- With the format `"ab"` and a size of 2, the NUL is written to the third byte. -/
theorem vsnprintf_twoChars : ¬ ∃ o, vsnprintf (fun _ => 0#8) (fun _ => 0xff#8) 2#32 twoChars.bytes
    { slots := fun _ => 0#32, ap := 0 } = some o ∧
      VsnprintfCorrect (fun _ => 0#8) 2#32 twoChars { slots := fun _ => 0#32, ap := 0 } o := by
  intro h
  have hout : twoChars.output (fun _ => 0#8) { slots := fun _ => 0#32, ap := 0 } =
      bytesOf "ab" := by
    have hbytes : twoChars.bytes = [97#8, 98#8, 0#8] := rfl
    rw [ClosedFormat.output, hbytes, formatText, if_neg (by decide), if_pos (by decide), formatText,
      if_neg (by decide), if_pos (by decide), formatText, if_pos rfl]
    rfl
  obtain ⟨hfits, -⟩ := (vsnprintf_correct_iff _ _).mp h
  rw [hout] at hfits
  exact absurd hfits (by decide)

end Klib

end RV32Pipeline
