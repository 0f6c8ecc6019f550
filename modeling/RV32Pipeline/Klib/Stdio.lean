import RV32Pipeline.Lib.Buffer
import RV32Pipeline.Lib.ByteMem
import RV32Pipeline.Rtl.Define

/-!
# Formatted output

`klib/src/stdio.c`, on a 32-bit platform: `int`, `long`, pointers, and `size_t` have 32 bits,
`long long` and `uintmax_t` 64. The format is an object of its own, a list of bytes up to and with
the NUL: to read behind it makes the result `none`. The array that is written is a `Buffer`, and all
characters that `append_char` is called with are kept in order.
-/

namespace RV32Pipeline

namespace Klib

/-! ## Arguments -/

/-- A `va_list`: the words of the arguments by their index in memory, and the index of the next. -/
structure VaList where
  slots : ℕ → Word
  ap : ℕ

/-- The macro `va_arg` for a type of 32 bits. -/
def VaList.word (ap : VaList) : Word × VaList := (ap.slots ap.ap, { ap with ap := ap.ap + 1 })

/-- The macro `va_arg` for a type of 64 bits, aligned to 8 bytes. -/
def VaList.dword (ap : VaList) : BitVec 64 × VaList :=
  let i := (ap.ap + 1) / 2 * 2
  (ap.slots (i + 1) ++ ap.slots i, { ap with ap := i + 2 })

/-! ## The output -/

/-- The array, the index of `*buf` in it, `*size`, and `*count`; and the characters appended. -/
structure Output where
  buffer : Buffer
  dest : ℤ
  remaining : Word
  count : Word
  appended : List (BitVec 8)

/-- The variables when `vsnprintf` starts, with the bytes of the array. -/
def Output.start (buf : ℤ → BitVec 8) (size : Word) : Output :=
  { buffer := ⟨buf, []⟩, dest := 0, remaining := size, count := 0#32, appended := [] }

/-- The function `append_char`. -/
def appendChar (o : Output) (c : BitVec 8) : Output :=
  let o :=
    if o.remaining > 0#32 then
      { o with
        buffer := o.buffer.put o.dest c
        dest := o.dest + 1
        remaining := o.remaining - 1#32 }
    else o
  { o with count := o.count + 1#32, appended := o.appended ++ [c] }

/-- The function `append_str`. -/
def appendStr (o : Output) (s : ℕ → BitVec 8) (len : Word) : Output :=
  let rec loop (s : ℕ → BitVec 8) (o : Output) : ℕ → Output
    | 0 => o
    | n + 1 => if s 0 = 0#8 then o else loop (fun i => s (i + 1)) (appendChar o (s 0)) n
  loop s o len.toInt.toNat

/-- The function `append_padding`. -/
def appendPadding (o : Output) (pad : BitVec 8) (len : Word) : Output :=
  let rec loop (o : Output) : ℕ → Output
    | 0 => o
    | n + 1 => loop (appendChar o pad) n
  loop o len.toInt.toNat

/-! ## Conversions -/

/-- The field `length` of a conversion. -/
inductive Length where
  | none
  | hh
  | h
  | l
  | ll
  | longDouble
  deriving DecidableEq

/-- The `struct FormatSpec`. -/
structure FormatSpec where
  leftJustify : Bool
  forceSign : Bool
  space : Bool
  alternateForm : Bool
  zeroPad : Bool
  width : Word
  precision : Word
  length : Length
  specifier : BitVec 8

/-- The fields before the flags are parsed. -/
def FormatSpec.start : FormatSpec where
  leftJustify := false
  forceSign := false
  space := false
  alternateForm := false
  zeroPad := false
  width := -1#32
  precision := -1#32
  length := .none
  specifier := 0#8

/-- The function `isdigit`. -/
def isdigit (c : BitVec 8) : Bool := decide (byteOf '0' ≤ c) && decide (c ≤ byteOf '9')

/-- The loop over the flags. -/
def parseFlags (spec : FormatSpec) : List (BitVec 8) → Option (FormatSpec × List (BitVec 8))
  | [] => none
  | c :: fmt =>
    if c = byteOf '-' then parseFlags { spec with leftJustify := true } fmt
    else if c = byteOf '+' then parseFlags { spec with forceSign := true } fmt
    else if c = byteOf ' ' then parseFlags { spec with space := true } fmt
    else if c = byteOf '#' then parseFlags { spec with alternateForm := true } fmt
    else if c = byteOf '0' then parseFlags { spec with zeroPad := true } fmt
    else some (spec, c :: fmt)

/-- The loop over the digits of the width or of the precision, whose value so far is `n`. -/
def parseDigits (n : Word) : List (BitVec 8) → Option (Word × List (BitVec 8))
  | [] => none
  | c :: fmt =>
    if isdigit c then parseDigits (n * 10#32 + (c.setWidth 32 - (byteOf '0').setWidth 32)) fmt
    else some (n, c :: fmt)

/-- The width is parsed. -/
def parseWidth (spec : FormatSpec) (ap : VaList) :
    List (BitVec 8) → Option (FormatSpec × List (BitVec 8) × VaList)
  | [] => none
  | c :: fmt =>
    if c = byteOf '*' then some ({ spec with width := ap.word.1 }, fmt, ap.word.2)
    else if isdigit c then do
      let (width, fmt) ← parseDigits 0#32 (c :: fmt)
      some ({ spec with width }, fmt, ap)
    else some (spec, c :: fmt, ap)

/-- The precision is parsed, behind the dot. -/
def parsePrecisionValue (spec : FormatSpec) (ap : VaList) :
    List (BitVec 8) → Option (FormatSpec × List (BitVec 8) × VaList)
  | [] => none
  | c :: fmt =>
    if c = byteOf '*' then some ({ spec with precision := ap.word.1 }, fmt, ap.word.2)
    else do
      let (precision, fmt) ← parseDigits 0#32 (c :: fmt)
      some ({ spec with precision }, fmt, ap)

/-- The precision is parsed. -/
def parsePrecision (spec : FormatSpec) (ap : VaList) :
    List (BitVec 8) → Option (FormatSpec × List (BitVec 8) × VaList)
  | [] => none
  | c :: fmt =>
    if c = byteOf '.' then parsePrecisionValue spec ap fmt else some (spec, c :: fmt, ap)

/-- The length modifier is parsed: `fmt[1]` is read behind an `h` or an `l`. -/
def parseLength (spec : FormatSpec) : List (BitVec 8) → Option (FormatSpec × List (BitVec 8))
  | [] => none
  | c :: fmt =>
    if c = byteOf 'h' then
      match fmt with
      | [] => none
      | d :: fmt' =>
        if d = byteOf 'h' then some ({ spec with length := .hh }, fmt')
        else some ({ spec with length := .h }, fmt)
    else if c = byteOf 'l' then
      match fmt with
      | [] => none
      | d :: fmt' =>
        if d = byteOf 'l' then some ({ spec with length := .ll }, fmt')
        else some ({ spec with length := .l }, fmt)
    else if c = byteOf 'L' then some ({ spec with length := .longDouble }, fmt)
    else some (spec, c :: fmt)

/-- The assignment `spec->specifier = *fmt++`, whatever the character is. -/
def parseSpecifier (spec : FormatSpec) : List (BitVec 8) → Option (FormatSpec × List (BitVec 8))
  | [] => none
  | c :: fmt => some ({ spec with specifier := c }, fmt)

/-- The function `parse_format`, behind the `%`: the fields, what is left of the format, and what is
left of the arguments. -/
def parseFormat (fmt : List (BitVec 8)) (ap : VaList) :
    Option (FormatSpec × List (BitVec 8) × VaList) := do
  let (spec, fmt) ← parseFlags .start fmt
  let (spec, fmt, ap) ← parseWidth spec ap fmt
  let (spec, fmt, ap) ← parsePrecision spec ap fmt
  let (spec, fmt) ← parseLength spec fmt
  let (spec, fmt) ← parseSpecifier spec fmt
  some (spec, fmt, ap)

/-! ## Integers -/

/-- The constant `INT_BUF_SIZE`. -/
def intBufSize : ℕ := 32

/-- The variable `digits` for a conversion. -/
def digitsOf (specifier : BitVec 8) : List (BitVec 8) :=
  if specifier = byteOf 'X' then bytesOf "0123456789ABCDEF" else bytesOf "0123456789abcdef"

/-- The variable `base` for a conversion. -/
def baseOf (specifier : BitVec 8) : BitVec 64 := if specifier = byteOf 'o' then 8#64 else 10#64

/-- The digits that the loop of `format_integer` stores in `tmp`, the lowest first, as long as there
is room for `n` more. -/
def tmpDigits (digits : List (BitVec 8)) (base : BitVec 64) : ℕ → BitVec 64 → List (BitVec 8)
  | 0, _ => []
  | n + 1, num =>
    digits.getD (num % base).toNat 0#8 ::
      if num / base > 0#64 then tmpDigits digits base n (num / base) else []

/-- The variable `leading_zeros` of `format_integer`, for `len` digits. -/
def FormatSpec.leadingZeros (spec : FormatSpec) (len : Word) : Word :=
  let leadingZeros := if len.slt spec.precision then spec.precision - len else 0#32
  if spec.precision = 0#32 ∧ len = 0#32 then 0#32 else leadingZeros

/-- The variable `sign` of `format_integer`. -/
def FormatSpec.sign (spec : FormatSpec) (isNegative : Bool) : BitVec 8 :=
  if isNegative then byteOf '-'
  else if spec.forceSign then byteOf '+'
  else if spec.space then byteOf ' '
  else 0#8

/-- The variable `padding`, for a field with `len` characters. -/
def FormatSpec.padding (spec : FormatSpec) (len : Word) : Word :=
  if len.slt spec.width then spec.width - len else 0#32

/-- The variable `pad_char` of `format_integer`. -/
def FormatSpec.padChar (spec : FormatSpec) : BitVec 8 :=
  if spec.zeroPad && !spec.leftJustify then byteOf '0' else byteOf ' '

/-- The function `format_integer`. -/
def formatInteger (spec : FormatSpec) (num : BitVec 64) (isNegative : Bool) (o : Output) : Output :=
  let tmp := tmpDigits (digitsOf spec.specifier) (baseOf spec.specifier) intBufSize num
  let len := BitVec.ofNat 32 tmp.length
  let leadingZeros := spec.leadingZeros len
  let sign := spec.sign isNegative
  let signLen := if sign ≠ 0#8 then 1#32 else 0#32
  let totalLen := signLen + leadingZeros + len
  let padding := spec.padding totalLen
  let padChar := spec.padChar
  let o := if !spec.leftJustify && padChar == byteOf ' ' then appendPadding o padChar padding else o
  let o := if sign ≠ 0#8 then appendChar o sign else o
  let o := if !spec.leftJustify && padChar == byteOf '0' then appendPadding o padChar padding else o
  let o := appendPadding o (byteOf '0') leadingZeros
  let o := tmp.reverse.foldl appendChar o
  if spec.leftJustify then appendPadding o (byteOf ' ') padding else o

/-- The variable `signed_num` of `handle_integer`. -/
def signedArg (length : Length) (ap : VaList) : BitVec 64 × VaList :=
  match length with
  | .hh => ((ap.word.1.setWidth 8).signExtend 64, ap.word.2)
  | .h => ((ap.word.1.setWidth 16).signExtend 64, ap.word.2)
  | .l => (ap.word.1.signExtend 64, ap.word.2)
  | .ll => ap.dword
  | _ => (ap.word.1.signExtend 64, ap.word.2)

/-- The variable `num` of `handle_integer` for an unsigned conversion. -/
def unsignedArg (length : Length) (ap : VaList) : BitVec 64 × VaList :=
  match length with
  | .hh => ((ap.word.1.setWidth 8).setWidth 64, ap.word.2)
  | .h => ((ap.word.1.setWidth 16).setWidth 64, ap.word.2)
  | .l => (ap.word.1.setWidth 64, ap.word.2)
  | .ll => ap.dword
  | _ => (ap.word.1.setWidth 64, ap.word.2)

/-- The function `handle_integer`. -/
def handleInteger (spec : FormatSpec) (ap : VaList) (o : Output) : Output × VaList :=
  if spec.specifier = byteOf 'd' ∨ spec.specifier = byteOf 'i' then
    let (signedNum, ap) := signedArg spec.length ap
    let isNegative := signedNum.slt 0#64
    let num := if isNegative then -signedNum else signedNum
    (formatInteger spec num isNegative o, ap)
  else if spec.specifier = byteOf 'u' ∨ spec.specifier = byteOf 'o' ∨ spec.specifier = byteOf 'x' ∨
      spec.specifier = byteOf 'X' then
    let (num, ap) := unsignedArg spec.length ap
    (formatInteger spec num false o, ap)
  else (o, ap)

/-! ## Strings -/

/-- The loop of `handle_string` that counts the characters, up to `maxLen`. -/
def countChars (s : ℕ → BitVec 8) : ℕ → ℕ
  | 0 => 0
  | n + 1 => if s 0 = 0#8 then 0 else countChars (fun i => s (i + 1)) n + 1

/-- The characters from a pointer on; those of `"(null)"` for a null pointer. -/
def stringAt (mem : ByteMem 32) (s : Word) : ℕ → BitVec 8 :=
  if s = 0#32 then fun i => (bytesOf "(null)").getD i 0#8
  else fun i => mem (s + BitVec.ofNat 32 i)

/-- The function `handle_string`. -/
def handleString (mem : ByteMem 32) (spec : FormatSpec) (ap : VaList) (o : Output) :
    Output × VaList :=
  let s := stringAt mem ap.word.1
  let maxLen := if (0#32).sle spec.precision then spec.precision else 0x7fffffff#32
  let len := BitVec.ofNat 32 (countChars s maxLen.toInt.toNat)
  let padding := spec.padding len
  let o := if !spec.leftJustify then appendPadding o (byteOf ' ') padding else o
  let o := appendStr o s len
  let o := if spec.leftJustify then appendPadding o (byteOf ' ') padding else o
  (o, ap.word.2)

/-! ## `vsnprintf` -/

/-- The `switch` over the specifier in `vsnprintf`. -/
def handleConversion (mem : ByteMem 32) (spec : FormatSpec) (ap : VaList) (o : Output) :
    Output × VaList :=
  let c := spec.specifier
  if c = byteOf 'd' ∨ c = byteOf 'i' ∨ c = byteOf 'u' ∨ c = byteOf 'o' ∨ c = byteOf 'x' ∨
      c = byteOf 'X' then handleInteger spec ap o
  else if c = byteOf 's' then handleString mem spec ap o
  else if c = byteOf 'c' then (appendChar o (ap.word.1.setWidth 8), ap.word.2)
  else if c = byteOf '%' then (appendChar o (byteOf '%'), ap)
  else (o, ap)

/-! Every part of `parse_format` leaves no more of the format than it finds. -/

section

variable {spec spec' : FormatSpec} {ap ap' : VaList} {fmt fmt' : List (BitVec 8)}

theorem length_parseFlags (h : parseFlags spec fmt = some (spec', fmt')) :
    fmt'.length ≤ fmt.length := by
  induction fmt generalizing spec with
  | nil => exact absurd h (by simp [parseFlags])
  | cons c fmt ih =>
    unfold parseFlags at h
    rw [List.length_cons]
    split_ifs at h
    · exact (ih h).trans (Nat.le_succ _)
    · exact (ih h).trans (Nat.le_succ _)
    · exact (ih h).trans (Nat.le_succ _)
    · exact (ih h).trans (Nat.le_succ _)
    · exact (ih h).trans (Nat.le_succ _)
    · cases h
      exact Nat.le_refl _

theorem length_parseDigits {n n' : Word} (h : parseDigits n fmt = some (n', fmt')) :
    fmt'.length ≤ fmt.length := by
  induction fmt generalizing n with
  | nil => exact absurd h (by simp [parseDigits])
  | cons c fmt ih =>
    unfold parseDigits at h
    rw [List.length_cons]
    split_ifs at h
    · exact (ih h).trans (Nat.le_succ _)
    · cases h
      exact Nat.le_refl _

theorem length_parseWidth (h : parseWidth spec ap fmt = some (spec', fmt', ap')) :
    fmt'.length ≤ fmt.length := by
  rcases fmt with - | ⟨c, fmt⟩
  · exact absurd h (by simp [parseWidth])
  · rw [parseWidth] at h
    split_ifs at h
    · cases h
      exact Nat.le_succ _
    · obtain ⟨⟨n, fmt''⟩, hd, h⟩ := Option.bind_eq_some_iff.mp h
      cases h
      exact length_parseDigits hd
    · cases h
      exact Nat.le_refl _

theorem length_parsePrecisionValue (h : parsePrecisionValue spec ap fmt = some (spec', fmt', ap')) :
    fmt'.length ≤ fmt.length := by
  rcases fmt with - | ⟨c, fmt⟩
  · exact absurd h (by simp [parsePrecisionValue])
  · rw [parsePrecisionValue] at h
    split_ifs at h
    · cases h
      exact Nat.le_succ _
    · obtain ⟨⟨n, fmt''⟩, hd, h⟩ := Option.bind_eq_some_iff.mp h
      cases h
      exact length_parseDigits hd

theorem length_parsePrecision (h : parsePrecision spec ap fmt = some (spec', fmt', ap')) :
    fmt'.length ≤ fmt.length := by
  rcases fmt with - | ⟨c, fmt⟩
  · exact absurd h (by simp [parsePrecision])
  · rw [parsePrecision] at h
    split_ifs at h
    · exact (length_parsePrecisionValue h).trans (Nat.le_succ _)
    · cases h
      exact Nat.le_refl _

theorem length_parseLength (h : parseLength spec fmt = some (spec', fmt')) :
    fmt'.length ≤ fmt.length := by
  rcases fmt with - | ⟨c, fmt⟩
  · exact absurd h (by simp [parseLength])
  · rcases fmt with - | ⟨d, fmt⟩
    · rw [parseLength] at h
      split_ifs at h
      · cases h
        exact Nat.le_succ _
      · cases h
        exact Nat.le_refl _
    · rw [parseLength] at h
      split_ifs at h
      all_goals
        cases h
        simp only [List.length_cons]
        omega

theorem length_parseFormat (h : parseFormat fmt ap = some (spec, fmt', ap')) :
    fmt'.length < fmt.length := by
  obtain ⟨⟨spec1, fmt1⟩, h1, h⟩ := Option.bind_eq_some_iff.mp h
  obtain ⟨⟨spec2, fmt2, ap2⟩, h2, h⟩ := Option.bind_eq_some_iff.mp h
  obtain ⟨⟨spec3, fmt3, ap3⟩, h3, h⟩ := Option.bind_eq_some_iff.mp h
  obtain ⟨⟨spec4, fmt4⟩, h4, h⟩ := Option.bind_eq_some_iff.mp h
  obtain ⟨⟨spec5, fmt5⟩, h5, h⟩ := Option.bind_eq_some_iff.mp h
  cases h
  have hlt : fmt'.length < fmt4.length := by
    rcases fmt4 with - | ⟨c, fmt4⟩
    · exact absurd h5 (by simp [parseSpecifier])
    · cases h5
      exact Nat.lt_succ_self _
  calc fmt'.length < fmt4.length := hlt
    _ ≤ fmt3.length := length_parseLength h4
    _ ≤ fmt2.length := length_parsePrecision h3
    _ ≤ fmt1.length := length_parseWidth h2
    _ ≤ fmt.length := length_parseFlags h1

end

/-- The loop of `vsnprintf`. The test for a null pointer behind the call of `parse_format` is left
out: it never returns one. -/
def vsnprintfLoop (mem : ByteMem 32) (fmt : List (BitVec 8)) (ap : VaList) (o : Output) :
    Option Output :=
  match fmt with
  | [] => none
  | c :: fmt =>
    if c = 0#8 then some o
    else if c ≠ byteOf '%' then vsnprintfLoop mem fmt ap (appendChar o c)
    else
      match h : parseFormat fmt ap with
      | none => none
      | some (spec, next, ap) =>
        let (o, ap) := handleConversion mem spec ap o
        have := length_parseFormat h
        vsnprintfLoop mem next ap o
termination_by fmt.length

/-- A conversion at the head of the format. -/
theorem vsnprintfLoop_conversion {mem : ByteMem 32} {fmt next : List (BitVec 8)} {ap ap' : VaList}
    {spec : FormatSpec} (o : Output) (hp : parseFormat fmt ap = some (spec, next, ap')) :
    vsnprintfLoop mem (byteOf '%' :: fmt) ap o =
      vsnprintfLoop mem next (handleConversion mem spec ap' o).2
        (handleConversion mem spec ap' o).1 := by
  rw [vsnprintfLoop, if_neg (by decide), if_neg (by decide)]
  split
  · next hnone => exact absurd (hnone.symm.trans hp) (by simp)
  · next hsome =>
    rw [hp] at hsome
    cases hsome
    rfl

/-- A conversion that is read beyond the end of the format. -/
theorem vsnprintfLoop_of_none {mem : ByteMem 32} {fmt : List (BitVec 8)} {ap : VaList} (o : Output)
    (hp : parseFormat fmt ap = none) : vsnprintfLoop mem (byteOf '%' :: fmt) ap o = none := by
  rw [vsnprintfLoop, if_neg (by decide), if_neg (by decide)]
  split
  · rfl
  · next hsome => exact absurd (hp.symm.trans hsome) (by simp)

/-- The function `vsnprintf`: the array and the count after it, which is returned as an `int`. -/
def vsnprintf (mem : ByteMem 32) (buf : ℤ → BitVec 8) (size : Word) (fmt : List (BitVec 8))
    (ap : VaList) : Option Output := do
  let o ← vsnprintfLoop mem fmt ap (.start buf size)
  some (if size > 0#32 then { o with buffer := o.buffer.put o.dest 0#8 } else o)

/-- The functions `vsprintf` and `sprintf`. -/
def vsprintf (mem : ByteMem 32) (buf : ℤ → BitVec 8) (fmt : List (BitVec 8)) (ap : VaList) :
    Option Output := vsnprintf mem buf 0x7fffffff#32 fmt ap

/-- The function `printf`: the array `buf` of 1024 bytes, what is handed to `putch`, and the
returned count. -/
def printf (mem : ByteMem 32) (buf : ℤ → BitVec 8) (fmt : List (BitVec 8)) (ap : VaList) :
    Option (Buffer × List (BitVec 8) × Word) := do
  let o ← vsprintf mem buf fmt ap
  some (o.buffer, o.buffer.read 0 o.count.toInt.toNat, o.count)

end Klib

end RV32Pipeline
