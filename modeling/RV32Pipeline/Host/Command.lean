import Mathlib.Data.List.Basic
import RV32Pipeline.Rtl.Define

/-!
# The command lines of the debugger

What `sdb_mainloop` makes of a line, and `safe_atoi` of an argument. A line is the list of its
characters without the final zero, and a null pointer is `none`.
-/

namespace RV32Pipeline

/-- The C function `isspace`. -/
def isspace (c : Char) : Bool :=
  c == ' ' || c == '\t' || c == '\n' || c == '\r' || c == Char.ofNat 11 || c == Char.ofNat 12

/-- The value of a string of decimal digits. -/
def decimal (digits : List Char) : ℕ := digits.foldl (fun v c => 10 * v + (c.toNat - '0'.toNat)) 0

/-- The C function `strtol` with base 10 and a `long` of 64 bits: the value, and the rest of the
string from `endptr` on. Without a digit the value is 0, and `endptr` is the whole string. -/
def strtol (str : List Char) : ℤ × List Char :=
  let s := str.dropWhile isspace
  let negative := s.head? == some '-'
  let s := if s.head? = some '-' ∨ s.head? = some '+' then s.tail else s
  let digits := s.takeWhile Char.isDigit
  if digits = [] then (0, str)
  else
    let val : ℤ := if negative then -decimal digits else decimal digits
    (max (-2 ^ 63) (min val (2 ^ 63 - 1)), s.dropWhile Char.isDigit)

/-- The function `safe_atoi`: the low 32 bits of the number, if the whole string is one. -/
def safeAtoi (str : List Char) : Option Word :=
  let r := strtol str
  if r.2 = [] then some (BitVec.ofInt 32 r.1) else none

/-- A line of `sdb_mainloop`: the command is the first token, and the argument what follows it and
one more character, if there is anything. A blank line has no command. -/
def splitLine (line : List Char) : Option (List Char × Option (List Char)) :=
  let str := line.dropWhile (· == ' ')
  if str = [] then none
  else
    let args := (str.dropWhile (· != ' ')).tail
    some (str.takeWhile (· != ' '), if args = [] then none else some args)

example : splitLine " si  12".toList = some ("si".toList, some " 12".toList) := by decide

example : safeAtoi " 12".toList = some 12#32 ∧ safeAtoi "12 ".toList = none := by decide

end RV32Pipeline
