import RV32Pipeline.Klib.FormatAgrees
import RV32Pipeline.Lib.Loop

/-!
# `atoi`

The function of `klib/src/stdlib.c` skips spaces and reads digits. It knows no sign. So it undoes
the conversion `%d`, with any width and with spaces in front, exactly for the numbers that are not
negative.
-/

namespace RV32Pipeline

namespace Klib

open Numeral

/-- The loop over spaces, with the index of `*nptr` from the argument on. -/
def spaceLoop (p : ℕ → BitVec 8) : WhileLoop ℕ where
  cond i := decide (p i = byteOf ' ')
  body i := i + 1

/-- The variables of the loop over digits: the index of `*nptr`, and `x`. -/
structure AtoiState where
  i : ℕ
  x : Word

/-- The loop over digits. The sum of the last digit may exceed an `int` before `'0'` is subtracted,
and wraps as the addition of the machine does. -/
def digitLoop (p : ℕ → BitVec 8) : WhileLoop AtoiState where
  cond s := decide (p s.i ≥ byteOf '0') && decide (p s.i ≤ byteOf '9')
  body s :=
    { i := s.i + 1
      x := s.x * 10#32 + (p s.i).setWidth 32 - (byteOf '0').setWidth 32 }

/-- The function `atoi` on the bytes from its argument on, if `fuel` tests of each condition are
enough. -/
def atoi (fuel : ℕ) (p : ℕ → BitVec 8) : Option Word := do
  let i ← (spaceLoop p).run fuel 0
  let s ← (digitLoop p).run fuel { i, x := 0#32 }
  some s.x

/-! ## The two loops -/

/-- The bytes from the argument on begin with the bytes of a list. -/
def Holds (p : ℕ → BitVec 8) (l : List (BitVec 8)) : Prop := ∀ k (hk : k < l.length), p k = l[k]

/-- The character of a digit. -/
def digitByte (d : ℕ) : BitVec 8 := C.Specifier.d.digit d

/-- What the loop over digits makes of the character of a digit. -/
theorem digitByte_spec {d : ℕ} (hd : d < 10) :
    byteOf '0' ≤ digitByte d ∧ digitByte d ≤ byteOf '9' ∧ digitByte d ≠ byteOf ' ' ∧
      (digitByte d).setWidth 32 = BitVec.ofNat 32 d + (byteOf '0').setWidth 32 := by
  have h : ∀ d : Fin 10, byteOf '0' ≤ digitByte d ∧ digitByte d ≤ byteOf '9' ∧
      digitByte d ≠ byteOf ' ' ∧
        (digitByte d).setWidth 32 = BitVec.ofNat 32 d + (byteOf '0').setWidth 32 := by decide
  exact h ⟨d, hd⟩

section Loops

variable {p : ℕ → BitVec 8} {m : ℕ} {ds : List ℕ} {c : BitVec 8} {t : List (BitVec 8)}

theorem spaceLoop_exits (hspaces : ∀ k < m, p k = byteOf ' ') (hend : p m ≠ byteOf ' ') :
    (spaceLoop p).Exits 0 m :=
  WhileLoop.exits_of_states id (fun k hk => ⟨decide_eq_true (hspaces k hk), rfl⟩)
    (decide_eq_false hend)

/-- The digits from the index `m` on are read by Horner's rule. -/
theorem digitLoop_exits (hds : ∀ d ∈ ds, d < 10)
    (hdigits : ∀ k (hk : k < ds.length), p (m + k) = digitByte ds[k])
    (hend : isdigit (p (m + ds.length)) = false) :
    (digitLoop p).Exits ⟨m, 0#32⟩ ⟨m + ds.length, BitVec.ofNat 32 (horner 10 0 ds)⟩ := by
  have h := WhileLoop.exits_of_states (L := digitLoop p) (n := ds.length)
    (fun k => ⟨m + k, BitVec.ofNat 32 (horner 10 0 (ds.take k))⟩) ?_ hend
  · rw [List.take_length] at h
    exact h
  · intro k hk
    obtain ⟨hlo, hhi, -, hvalue⟩ := digitByte_spec (hds _ (List.getElem_mem hk))
    refine ⟨?_, ?_⟩
    · simp only [digitLoop, hdigits k hk, ge_iff_le, hlo, hhi, decide_true, Bool.and_self]
    · simp only [digitLoop, hdigits k hk, hvalue, AtoiState.mk.injEq]
      refine ⟨Nat.add_assoc m k 1, ?_⟩
      rw [List.take_succ_eq_append_getElem hk, horner_concat, BitVec.ofNat_add, BitVec.ofNat_mul,
        ← BitVec.add_assoc, BitVec.add_sub_cancel]

/-- `atoi` reads the digits behind the spaces, up to a character that is none. -/
theorem atoi_of_holds (hp : Holds p (List.replicate m (byteOf ' ') ++ (ds.map digitByte ++ c :: t)))
    (hds : ∀ d ∈ ds, d < 10) (hc : isdigit c = false) (hblank : c ≠ byteOf ' ') :
    ∃ fuel, atoi fuel p = some (BitVec.ofNat 32 (horner 10 0 ds)) := by
  have hspaces : ∀ k < m, p k = byteOf ' ' := fun k hk => by
    rw [hp k (by simp; omega), List.getElem_append_left (by simpa using hk), List.getElem_replicate]
  have hdigits : ∀ k (hk : k < ds.length), p (m + k) = digitByte ds[k] := fun k hk => by
    rw [hp (m + k) (by simp; omega), List.getElem_append_right (by simp),
      List.getElem_append_left (by simpa using hk), List.getElem_map]
    simp
  have hend : p (m + ds.length) = c := by
    rw [hp (m + ds.length) (by simp), List.getElem_append_right (by simp),
      List.getElem_append_right (by simp)]
    simp
  -- Behind the spaces stands a digit, or what follows the digits.
  have hstop : p m ≠ byteOf ' ' := by
    rcases ds with - | ⟨d, ds⟩
    · rw [show p m = c from hend]
      exact hblank
    · rw [show p m = digitByte d from hdigits 0 (by simp)]
      exact (digitByte_spec (hds d List.mem_cons_self)).2.2.1
  obtain ⟨f, hf⟩ := spaceLoop_exits hspaces hstop
  obtain ⟨f', hf'⟩ := digitLoop_exits hds hdigits (hend ▸ hc)
  refine ⟨max f f', ?_⟩
  rw [atoi, WhileLoop.run_mono hf (Nat.le_max_left f f')]
  simp only [Option.bind_eq_bind, Option.bind_some]
  rw [WhileLoop.run_mono hf' (Nat.le_max_right f f')]
  rfl

/-- At a sign there are no digits to read. -/
theorem atoi_of_minus (hp : Holds p (List.replicate m (byteOf ' ') ++ byteOf '-' :: t)) :
    ∃ fuel, atoi fuel p = some 0#32 := by
  have hp' : Holds p (List.replicate m (byteOf ' ') ++ (([] : List ℕ).map digitByte ++
      byteOf '-' :: t)) := hp
  exact atoi_of_holds hp' (fun d hd => absurd hd List.not_mem_nil) (by decide) (by decide)

/-- The result does not depend on the bound. -/
theorem atoi_unique {fuel fuel' : ℕ} {x x' : Word} (h : atoi fuel p = some x)
    (h' : atoi fuel' p = some x') : x = x' := by
  obtain ⟨i, hi, h⟩ := Option.bind_eq_some_iff.mp h
  obtain ⟨s, hs, h⟩ := Option.bind_eq_some_iff.mp h
  obtain ⟨i', hi', h'⟩ := Option.bind_eq_some_iff.mp h'
  obtain ⟨s', hs', h'⟩ := Option.bind_eq_some_iff.mp h'
  obtain rfl := WhileLoop.Exits.unique ⟨fuel, hi⟩ ⟨fuel', hi'⟩
  obtain rfl := WhileLoop.Exits.unique ⟨fuel, hs⟩ ⟨fuel', hs'⟩
  exact Option.some.inj (h.symm.trans h')

end Loops

/-! ## Behind `%d` -/

/-- The conversion `%d` with a width. -/
def decimalConversion (w : C.Width) : C.Conversion where
  flags := []
  width := w
  precision := .omitted
  modifier := .none
  specifier := .d

/-- The `int` that is printed. -/
def printedInt (w : C.Width) (ap : VaList) : Word := (w.value ap).2.word.1

/-- The bytes of a text behind `j` spaces. -/
def spaced (j : ℕ) (text : ℤ → BitVec 8) (i : ℕ) : BitVec 8 :=
  if i < j then byteOf ' ' else text (i - j : ℕ)

theorem holds_spaced {text : ℤ → BitVec 8} {l : List (BitVec 8)} (j : ℕ)
    (h : ∀ k (hk : k < l.length), text (k : ℕ) = l[k]) :
    Holds (spaced j text) (List.replicate j (byteOf ' ') ++ l) := by
  intro k hk
  rw [List.length_append, List.length_replicate] at hk
  unfold spaced
  split_ifs with hj
  · rw [List.getElem_append_left (by simpa using hj), List.getElem_replicate]
  · rw [List.getElem_append_right (by simpa using hj), h (k - j) (by omega)]
    simp

/-- The text of `%d`: padding, a sign, and digits. -/
theorem codeText_decimal (width : Option ℤ) (n : ℤ) : C.codeText [] width none .d n =
    List.replicate (C.padCount (width.getD (-1))
      ((C.signText [] n).length + (numeral 10 n.natAbs).length)) (byteOf ' ') ++
        (C.signText [] n ++ (numeral 10 n.natAbs).map digitByte) := by
  have hbody : C.bodyText 10 none .d n = (numeral 10 n.natAbs).map digitByte := by
    rw [C.bodyText, C.withPrecision, show ((none : Option ℤ).getD (-1)).toNat = 0 from rfl,
      Nat.zero_sub]
    rfl
  rw [C.codeText_eq (b := 10) rfl, hbody, List.length_map, ← List.append_assoc]
  rfl

/-- What `sprintf` leaves in its array for `%d`, behind `j` spaces. -/
theorem sprintf_decimal (mem : ByteMem 32) (buf : ℤ → BitVec 8) (w : C.Width) (ap : VaList)
    (j : ℕ) :
    ∃ o m, vsprintf mem buf (decimalConversion w).format.bytes ap = some o ∧
      Holds (spaced j o.buffer.bytes) (List.replicate m (byteOf ' ') ++
        (C.signText [] (printedInt w ap).toInt ++
          ((numeral 10 (printedInt w ap).toInt.natAbs).map digitByte ++ [0#8]))) := by
  have hrange := C.toInt_widthWord ap w ▸ BitVec.toInt_lt (x := C.widthWord ap w)
  have htext : formatText mem (decimalConversion w).format.bytes ap =
      some (C.codeText [] (w.value ap).1 none .d (printedInt w ap).toInt) :=
    C.formatText_format mem (decimalConversion w) ap
  have hdigits : (numeral 10 (printedInt w ap).toInt.natAbs).length ≤ 10 := by
    have hlt := BitVec.toInt_lt (x := printedInt w ap)
    have hle := BitVec.le_toInt (x := printedInt w ap)
    exact length_numeral_le (by decide) (by decide) (by omega)
  have hsign : (C.signText [] (printedInt w ap).toInt).length ≤ 1 := C.length_signText
  -- The array has room for the whole text and its NUL.
  have hlen : (C.codeText [] (w.value ap).1 none .d (printedInt w ap).toInt).length ≤
      (0x7fffffff#32).toNat := by
    rw [codeText_decimal, List.length_append, List.length_replicate, List.length_append,
      List.length_map, C.padCount, if_pos (by omega),
      show (0x7fffffff#32).toNat = 2147483647 from rfl]
    omega
  obtain ⟨o, ho, -, -, hbuffer⟩ := vsnprintf_of_text htext buf 0x7fffffff#32
  rw [if_neg (by decide), List.take_of_length_le hlen] at hbuffer
  have hholds : Holds (spaced j o.buffer.bytes) (List.replicate j (byteOf ' ') ++
      (C.codeText [] (w.value ap).1 none .d (printedInt w ap).toInt ++ [0#8])) :=
    holds_spaced j fun k hk => by
      rw [hbuffer, ← Buffer.bytes_write (b := ⟨buf, []⟩) (i := 0) hk, Int.zero_add]
  rw [codeText_decimal, List.append_assoc, ← List.append_assoc, List.replicate_append_replicate,
    List.append_assoc] at hholds
  exact ⟨o, _, ho, hholds⟩

/-- `atoi` undoes `%d`, with any width and behind any number of spaces, exactly for the numbers that
are not negative. -/
theorem atoi_sprintf_iff (mem : ByteMem 32) (buf : ℤ → BitVec 8) (w : C.Width) (ap : VaList)
    (j : ℕ) :
    (∃ o fuel, vsprintf mem buf (decimalConversion w).format.bytes ap = some o ∧
      atoi fuel (spaced j o.buffer.bytes) = some (printedInt w ap)) ↔
        0 ≤ (printedInt w ap).toInt := by
  obtain ⟨o, m, ho, hholds⟩ := sprintf_decimal mem buf w ap j
  by_cases hneg : (printedInt w ap).toInt < 0
  · refine iff_of_false ?_ (by omega)
    rintro ⟨o', fuel, ho', hatoi⟩
    cases ho.symm.trans ho'
    rw [C.signText, if_pos hneg] at hholds
    obtain ⟨fuel', hzero⟩ := atoi_of_minus hholds
    rw [atoi_unique hatoi hzero] at hneg
    exact absurd hneg (by decide)
  · refine iff_of_true ?_ (by omega)
    have hsign : C.signText [] (printedInt w ap).toInt = [] := by
      rw [C.signText, if_neg hneg]
      rfl
    rw [hsign, List.nil_append] at hholds
    obtain ⟨fuel, hatoi⟩ := atoi_of_holds hholds
      (fun d hd => lt_of_mem_numeral (by decide) hd) (by decide) (by decide)
    refine ⟨o, fuel, ho, hatoi.trans (congrArg some ?_)⟩
    have hint := BitVec.toInt_eq_toNat_cond (printedInt w ap)
    have habs : (printedInt w ap).toInt.natAbs = (printedInt w ap).toNat := by
      split_ifs at hint <;> omega
    rw [horner_numeral, habs, BitVec.ofNat_toNat, BitVec.setWidth_eq]

/-- `atoi` does not undo `%d` for -5: it returns 0. -/
theorem atoi_sprintf_negative : ¬ ∃ o fuel, vsprintf (fun _ => 0#8) (fun _ => 0#8)
    (decimalConversion .omitted).format.bytes { slots := fun _ => -5#32, ap := 0 } = some o ∧
      atoi fuel (spaced 0 o.buffer.bytes) = some (-5#32) := by
  rintro ⟨o, fuel, ho, hatoi⟩
  obtain ⟨o', m, ho', hholds⟩ := sprintf_decimal (fun _ => 0#8) (fun _ => 0#8) .omitted
    { slots := fun _ => -5#32, ap := 0 } 0
  cases ho.symm.trans ho'
  obtain ⟨fuel', hzero⟩ := atoi_of_minus hholds
  exact absurd (atoi_unique hatoi hzero) (by decide)

end Klib

end RV32Pipeline
