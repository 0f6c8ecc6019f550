import RV32Pipeline.Klib.FormatScan
import RV32Pipeline.Lib.Numeral

/-!
# Integer conversions in C

The integer conversions of a format, with the flags `-`, `+`, space, and `0`: how they are written,
which arguments they take, and which characters the C standard prescribes for them. Widths and
precisions are of type `int`, `long` has 32 bits, and `long long` 64.
-/

namespace RV32Pipeline

namespace Klib

namespace C

open Numeral

/-- The flags. -/
inductive Flag where
  | minus
  | plus
  | space
  | zero
  deriving DecidableEq

/-- The character of a flag. -/
def Flag.byte : Flag → BitVec 8
  | minus => byteOf '-'
  | plus => byteOf '+'
  | space => byteOf ' '
  | zero => byteOf '0'

/-- The value of a list of decimal digits. -/
def decimalValue (ds : List (Fin 10)) : ℕ := horner 10 0 (ds.map Fin.val)

/-- The character of a decimal digit. -/
def decimalByte (d : Fin 10) : BitVec 8 := BitVec.ofNat 8 (48 + d)

/-- A width. The first digit is not a 0, which would be a flag. -/
inductive Width where
  | omitted
  | digits (d : Fin 10) (ds : List (Fin 10)) (hd : d ≠ 0) (hlt : decimalValue (d :: ds) < 2 ^ 31)
  | star

/-- A precision. With no digits behind the dot it is 0. -/
inductive Precision where
  | omitted
  | digits (ds : List (Fin 10)) (hlt : decimalValue ds < 2 ^ 31)
  | star

/-- The length modifiers of integer conversions. -/
inductive Modifier where
  | none
  | hh
  | h
  | l
  | ll

/-- The integer conversions. -/
inductive Specifier where
  | d
  | i
  | u
  | o
  | x
  | X
  deriving DecidableEq

/-- An integer conversion. -/
structure Conversion where
  flags : List Flag
  width : Width
  precision : Precision
  modifier : Modifier
  specifier : Specifier

/-! ## How conversions are written -/

/-- The characters of a width. -/
def Width.text : Width → List (BitVec 8)
  | omitted => []
  | digits d ds _ _ => (d :: ds).map decimalByte
  | star => [byteOf '*']

/-- The characters of a precision. -/
def Precision.text : Precision → List (BitVec 8)
  | omitted => []
  | digits ds _ => byteOf '.' :: ds.map decimalByte
  | star => [byteOf '.', byteOf '*']

/-- The characters of a length modifier. -/
def Modifier.text : Modifier → List (BitVec 8)
  | none => []
  | hh => bytesOf "hh"
  | h => bytesOf "h"
  | l => bytesOf "l"
  | ll => bytesOf "ll"

/-- The character of a conversion. -/
def Specifier.byte : Specifier → BitVec 8
  | d => byteOf 'd'
  | i => byteOf 'i'
  | u => byteOf 'u'
  | o => byteOf 'o'
  | x => byteOf 'x'
  | X => byteOf 'X'

/-- The characters of a conversion. -/
def Conversion.text (c : Conversion) : List (BitVec 8) :=
  byteOf '%' :: (c.flags.map Flag.byte ++ (c.width.text ++ (c.precision.text ++
    (c.modifier.text ++ [c.specifier.byte]))))

/-! ## Arguments -/

/-- The value of a width, and what is left of the arguments. -/
def Width.value (ap : VaList) : Width → Option ℤ × VaList
  | omitted => (Option.none, ap)
  | digits d ds _ _ => (some (decimalValue (d :: ds)), ap)
  | star => (some ap.word.1.toInt, ap.word.2)

/-- The value of a precision, and what is left of the arguments. -/
def Precision.value (ap : VaList) : Precision → Option ℤ × VaList
  | omitted => (Option.none, ap)
  | digits ds _ => (some (decimalValue ds), ap)
  | star => (some ap.word.1.toInt, ap.word.2)

/-- The conversion takes a signed argument. -/
def Specifier.signed : Specifier → Bool
  | d => true
  | i => true
  | _ => false

/-- The value of the argument that is converted. -/
def argument (signed : Bool) (ap : VaList) : Modifier → ℤ
  | .hh => if signed then (ap.word.1.setWidth 8).toInt else (ap.word.1.setWidth 8).toNat
  | .h => if signed then (ap.word.1.setWidth 16).toInt else (ap.word.1.setWidth 16).toNat
  | .ll => if signed then ap.dword.1.toInt else ap.dword.1.toNat
  | .none => if signed then ap.word.1.toInt else ap.word.1.toNat
  | .l => if signed then ap.word.1.toInt else ap.word.1.toNat

/-! ## The prescribed text -/

/-- The base of a conversion. -/
def Specifier.base : Specifier → ℕ
  | o => 8
  | x => 16
  | X => 16
  | _ => 10

/-- The character of a digit. -/
def Specifier.digit (s : Specifier) (d : ℕ) : BitVec 8 :=
  (bytesOf (if s = X then "0123456789ABCDEF" else "0123456789abcdef")).getD d 0#8

/-- A field: the sign and the body, with `pad` characters of padding on the right, as zeros behind
the sign, or on the left. -/
def field (left zeros : Bool) (pad : ℕ) (sign body : List (BitVec 8)) : List (BitVec 8) :=
  if left then sign ++ body ++ List.replicate pad (byteOf ' ')
  else if zeros then sign ++ List.replicate pad (byteOf '0') ++ body
  else List.replicate pad (byteOf ' ') ++ sign ++ body

/-- Digits with zeros in front of them up to a number of digits. -/
def withPrecision (precision : ℕ) (digits : List (BitVec 8)) : List (BitVec 8) :=
  List.replicate (precision - digits.length) (byteOf '0') ++ digits

/-- The sign of a signed conversion. -/
def signText (flags : List Flag) (value : ℤ) : List (BitVec 8) :=
  if value < 0 then [byteOf '-']
  else if .plus ∈ flags then [byteOf '+']
  else if .space ∈ flags then [byteOf ' ']
  else []

/-- The text of a value. A negative width is the flag `-` and a width, a negative precision is as if
it were omitted, and the flag `0` is ignored with a `-` or with a precision. A value of 0 has no
digits if the precision is 0. -/
def valueText (flags : List Flag) (width precision : Option ℤ) (s : Specifier) (value : ℤ) :
    List (BitVec 8) :=
  let precision := precision.filter fun p => decide (0 ≤ p)
  let digits :=
    if value = 0 ∧ precision = some 0 then []
    else (numeral s.base value.natAbs).map s.digit
  let body := withPrecision (precision.getD 1).toNat digits
  let sign := if s.signed then signText flags value else []
  let left := decide (.minus ∈ flags) || decide (width.getD 0 < 0)
  field left (decide (.zero ∈ flags) && precision.isNone)
    ((width.getD 0).natAbs - (sign ++ body).length) sign body

/-- The text of a conversion with its arguments. -/
def Conversion.prescribed (c : Conversion) (ap : VaList) : List (BitVec 8) :=
  let (width, ap) := c.width.value ap
  let (precision, ap) := c.precision.value ap
  valueText c.flags width precision c.specifier (argument c.specifier.signed ap c.modifier)

/-! ## When the code agrees -/

/-- The number of digits of a value, with the zeros of the precision. -/
def digitCount (precision : Option ℤ) (s : Specifier) (value : ℤ) : ℕ :=
  max (precision.getD 1).toNat (numeral s.base value.natAbs).length

/-- The length of a field without padding. -/
def fieldLength (flags : List Flag) (precision : Option ℤ) (s : Specifier) (value : ℤ) : ℕ :=
  (if s.signed then signText flags value else []).length + digitCount precision s value

/-- The condition on the flags, the width, the precision, and the value under which the code follows
the standard. A hexadecimal value is below 10, and a value of 0 does not have the precision 0. If
the conversion is signed, or has neither of the flags for a sign, then a negative width is no larger
than the field, the flag `0` does not meet a precision in a field that is padded on the left, and
the length of the field is an `int`, unless a width hides the overflow. Otherwise the flag for a
space stands where there is padding on the left in any case. -/
structure Agrees (flags : List Flag) (width precision : Option ℤ) (s : Specifier) (value : ℤ) :
    Prop where
  hex : s.base = 16 → value.natAbs < 10
  zero : ¬ (value = 0 ∧ precision = some 0)
  sign : s.signed = true ∨ (.plus ∉ flags ∧ .space ∉ flags) →
    -(fieldLength flags precision s value : ℤ) ≤ width.getD (-1) ∧
      (.zero ∈ flags → .minus ∉ flags → 0 ≤ precision.getD (-1) →
        width.getD (-1) ≤ fieldLength flags precision s value) ∧
      (fieldLength flags precision s value = 2 ^ 31 →
        0 ≤ width.getD (-1) ∨ width.getD (-1) = -2 ^ 31)
  noSign : ¬ (s.signed = true ∨ (.plus ∉ flags ∧ .space ∉ flags)) →
    .plus ∉ flags ∧ .minus ∉ flags ∧ digitCount precision s value < width.getD (-1) ∧
      (.zero ∈ flags → 0 ≤ precision.getD (-1) ∧
        width.getD (-1) = digitCount precision s value + 1)

/-- The condition on a conversion and its arguments. -/
def Conversion.Agrees (c : Conversion) (ap : VaList) : Prop :=
  let (width, ap) := c.width.value ap
  let (precision, ap) := c.precision.value ap
  C.Agrees c.flags width precision c.specifier (argument c.specifier.signed ap c.modifier)

end C

end Klib

end RV32Pipeline
